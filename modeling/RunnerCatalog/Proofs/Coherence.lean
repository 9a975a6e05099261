/-
  Coherence: cached runners have the scopes that their links call for.

  `Cache.Coherent` holds in the empty cache and after every turn, whatever the documents do in
  between (`coherent_after`).  While a turn is under way it does not hold, so the proof is about
  something weaker.

  1. **Up to changed names** - `Cache.CoherentUpTo changed` allows runners that are not settled as
     long as their links lead to a name of `changed` other than themselves.  A reread runner, or a
     name that is forgotten, is such a name (`CoherentUpTo.change`, `CoherentUpTo.forget`).

  2. **While a refresh goes on** - a third state is possible (`Midway`): a runner that was there
     before, whose links led to the root and which was not linked again yet.  Linking a runner
     again may open or close a cycle, and it may load runners anew; neither harms, because ways
     that change end at the root or at a name still to come (`Midway.next`).

  3. **When it ends** - nobody is left in that state, so the root needs to be named no longer
     (`CoherentUpTo.refresh`).
-/
import RunnerCatalog.Proofs.Refresh
import RunnerCatalog.Proofs.Turn

namespace RunnerCatalog

open Links

namespace Cache

/-- Every cached runner has the scopes that its links call for. -/
def Coherent (cache : Cache) : Prop :=
  ∀ id r, cache.get? id = some (.loaded r) → cache.Settled id r

/-! ## Coherence up to some names -/

/-- The links of `id` lead to another name, which is one of `changed`. -/
def Awaiting (changed : List String) (cache : Cache) (id : String) : Prop :=
  ∃ x ∈ changed, x ≠ id ∧ LeadsTo cache.link? id x

/-- Something is known about every runner that is extended, `changed` apart. -/
def KnownUpTo (changed : List String) (cache : Cache) : Prop :=
  ∀ id parent, cache.link? id = some parent → cache.get? parent ≠ none ∨ parent ∈ changed

/-- Every cached runner is settled, or it awaits that one of `changed` is refreshed. -/
structure CoherentUpTo (changed : List String) (cache : Cache) : Prop where
  filed : cache.Filed
  known : cache.KnownUpTo changed
  settled : ∀ id r, cache.get? id = some (.loaded r) →
    cache.Settled id r ∨ cache.Awaiting changed id

variable {cache cache' : Cache} {changed : List String} {id : String}

theorem Awaiting.mono (hsub : ∀ x y, cache.link? x = some y → cache'.link? x = some y)
    (h : cache.Awaiting changed id) : cache'.Awaiting changed id := by
  obtain ⟨x, hx, hne, hway⟩ := h
  exact ⟨x, hx, hne, hway.mono hsub⟩

/-- A way from a known name that comes to an unknown one comes to one of `changed`. -/
theorem KnownUpTo.hanging (h : cache.KnownUpTo changed) {z : String}
    (hway : Reaches cache.link? id z) (hid : cache.get? id ≠ none) (hz : cache.get? z = none) :
    z ∈ changed ∧ z ≠ id ∧ LeadsTo cache.link? id z := by
  have hne : z ≠ id := fun heq => hid (heq ▸ hz)
  obtain ⟨y, -, hyz⟩ := (Relation.ReflTransGen.cases_tail hway).resolve_left hne
  exact ⟨(h y z hyz).resolve_left (fun hknown => hknown hz), hne, hway.leadsTo_of_ne hne⟩

theorem coherentUpTo_nil_iff : cache.CoherentUpTo [] ↔ cache.Filed ∧ cache.Coherent := by
  constructor
  · intro h
    refine ⟨h.filed, fun id r hr => (h.settled id r hr).resolve_right ?_⟩
    rintro ⟨x, hx, -⟩
    cases hx
  · rintro ⟨hfiled, hcoherent⟩
    refine ⟨hfiled, fun id parent hparent => .inl ?_, fun id r hr => .inl (hcoherent id r hr)⟩
    obtain ⟨r, hr, hp⟩ := link?_eq_some_iff.mp hparent
    obtain ⟨e, he⟩ := (hcoherent id r hr).known parent hp
    exact known_of_get? he

/-- A settled runner that does not change stays settled, unless its links lead to a name that
    does. -/
theorem CoherentUpTo.settled_or_awaiting (h : cache.CoherentUpTo [])
    (hkept : ∀ k e, cache.get? k = some e → k ∉ changed → cache'.get? k = some e) {r : Runner}
    (hr : cache.get? id = some (.loaded r)) (hid : id ∉ changed) :
    cache'.Settled id r ∨ cache'.Awaiting changed id := by
  have hsettled := (coherentUpTo_nil_iff.mp h).2 id r hr
  by_cases hway : ∃ x ∈ changed, Reaches cache.link? id x
  · -- the way to the first changed name is as before
    obtain ⟨x, hx, hreach⟩ := hway
    obtain ⟨y, hy, hbefore⟩ := hreach.exists_first hx
    have hne : y ≠ id := fun heq => hid (heq ▸ hy)
    refine .inr ⟨y, hy, hne, Reaches.leadsTo_of_ne ?_ hne⟩
    refine Relation.ReflTransGen.mono (fun a b hab => ?_) id y hbefore
    obtain ⟨ha, hlink⟩ := hab
    obtain ⟨s, hs, hp⟩ := link?_eq_some_iff.mp hlink
    exact (link?_of_get? (hkept a _ hs ha)).trans hp
  · refine .inl (hsettled.congr (fun z hz => ?_) (fun parent hp => ?_))
    · have hzc : z ∉ changed := fun hmem => hway ⟨z, hmem, hz⟩
      have hzk : cache.get? z ≠ none := by
        intro hnone
        obtain ⟨hmem, -⟩ := h.known.hanging hz (known_of_get? hr) hnone
        cases hmem
      obtain ⟨e, he⟩ := Option.ne_none_iff_exists'.mp hzk
      exact link?_congr ((hkept z e he hzc).trans he.symm)
    · obtain ⟨e, he⟩ := hsettled.known parent hp
      have hparent : cache.link? id = some parent := (link?_of_get? hr).trans hp
      rw [he, hkept parent e he (fun hmem => hway ⟨parent, hmem, .single hparent⟩)]

/-- **A change** of some names, whoever else is new being settled, leaves coherence up to these
    names. -/
theorem CoherentUpTo.change (h : cache.CoherentUpTo []) (hfiled : cache'.Filed)
    (hkept : ∀ k e, cache.get? k = some e → k ∉ changed → cache'.get? k = some e)
    (hchanged : ∀ k ∈ changed, cache'.get? k ≠ none)
    (hnew : ∀ k r, cache'.get? k = some (.loaded r) →
      cache'.Settled k r ∨ k ∉ changed ∧ cache.get? k = some (.loaded r)) :
    cache'.CoherentUpTo changed := by
  refine ⟨hfiled, fun id parent hparent => .inl ?_, fun id r hr => ?_⟩
  · obtain ⟨r, hr, hp⟩ := link?_eq_some_iff.mp hparent
    rcases hnew id r hr with hs | ⟨-, hold⟩
    · obtain ⟨e, he⟩ := hs.known parent hp
      exact known_of_get? he
    · obtain ⟨e, he⟩ := ((coherentUpTo_nil_iff.mp h).2 id r hold).known parent hp
      by_cases hmem : parent ∈ changed
      · exact hchanged parent hmem
      · exact known_of_get? (hkept parent e he hmem)
  · rcases hnew id r hr with hs | ⟨hid, hold⟩
    · exact .inl hs
    · exact h.settled_or_awaiting hkept hold hid

end Cache

/-! ## While a refresh goes on -/

/-- The state of a refresh for `root` that began with `cache`: a runner is settled, or it awaits
    one of the names still to come, or its own turn is still to come. -/
structure Midway (changed : List String) (cache : Cache) (root : String) (done : List String)
    (now : Cache) : Prop where
  known : now.KnownUpTo (root :: changed)
  settled : ∀ id r, now.get? id = some (.loaded r) →
    now.Settled id r ∨ now.Awaiting changed id ∨ id ∉ done ∧ Reaches cache.link? id root

namespace Midway

variable {source : Source} {changed : List String} {cache now : Cache} {root : String}
  {done : List String} {trace : List Event} {id : String}

theorem start (h : cache.CoherentUpTo (root :: changed)) :
    Midway changed cache root [root] cache := by
  refine ⟨h.known, fun id r hr => ?_⟩
  rcases h.settled id r hr with hs | ⟨x, hx, hne, hway⟩
  · exact .inl hs
  rcases List.mem_cons.mp hx with rfl | hx
  · refine .inr (.inr ⟨fun hid => hne (List.mem_singleton.mp hid).symm, hway.to_reflTransGen⟩)
  · exact .inr (.inl ⟨x, hx, hne, hway⟩)

/-- A runner of before that leads to the root now did so before, or it awaits a name to come. -/
theorem way_before (hc : cache.CoherentUpTo (root :: changed))
    (hrun : Refreshing source cache root done now trace) (hid : cache.get? id ≠ none)
    (hway : Reaches now.link? id root) :
    Reaches cache.link? id root ∨ now.Awaiting changed id := by
  have hsub : ∀ x y, cache.link? x = some y → now.link? x = some y :=
    fun x y => hrun.link?_of_some
  rcases hway.split hsub with hbefore | ⟨z, hz, hnone, hsome⟩
  · exact .inl hbefore
  -- the way of before ended at an unknown name
  have hunknown : cache.get? z = none := by
    by_contra hknown
    rw [hrun.link? hknown] at hsome
    exact hsome hnone
  obtain ⟨hmem, hne, hlead⟩ := hc.known.hanging hz hid hunknown
  rcases List.mem_cons.mp hmem with rfl | hmem
  · exact .inl hz
  · exact .inr ⟨z, hmem, hne, hlead.mono hsub⟩

/-- The runner that is linked again was settled before, and so was `id`, which extends it. -/
theorem settled_dependent (hc : cache.CoherentUpTo (root :: changed))
    (hrun : Refreshing source cache root done now trace) {r s : Runner} {parent : String}
    (hnew : r.name ∉ done) (hr : now.get? r.name = some (.loaded r)) (hp : r.parent = some parent)
    (hdone : parent ∈ done) (hs : now.get? id = some (.loaded s)) (hsp : s.parent = some r.name)
    (hsettled : now.Settled id s) (hne : id ≠ r.name) :
    (Cache.relink source now r).cache.Settled id s ∨
      (Cache.relink source now r).cache.Awaiting changed id ∨
        id ∉ r.name :: done ∧ Reaches cache.link? id root := by
  have hlink : now.link? id = some r.name := (Cache.link?_of_get? hs).trans hsp
  have hroot : LeadsTo now.link? id root := by
    refine .head' hlink (.head ?_ (hrun.reaches_root hdone))
    exact (Cache.link?_of_get? hr).trans hp
  by_cases hcycle : OnCycle now.link? id
  · -- on a cycle there is nothing to be inherited, and the cycle stays
    refine .inl (.ofDeclared (hsettled.cycle hcycle) (fun q hq => ?_) (fun q t _ henters => ?_))
    · obtain rfl := Option.some.inj (hsp.symm.trans hq)
      obtain ⟨e, he, -⟩ := Cache.relink_bare source hr hr
      exact ⟨e, he⟩
    · have hcycle' : OnCycle (Cache.relink source now r).cache.link? id :=
        LeadsTo.mono (fun x y => Cache.relink_link? hr) hcycle
      exact absurd hcycle'.entersCycle henters
  have hidroot : id ≠ root := by
    rintro rfl
    exact hcycle hroot
  have hold : cache.get? id ≠ none := by
    intro hnone
    have hback := hrun.reaches_of_new hnone (Cache.known_of_get? hs)
    exact hcycle (hroot.trans_left hback)
  have hiddone : id ∉ done := by
    intro hmem
    obtain ⟨q, hq, hqlink⟩ := (hrun.extends_done hmem).resolve_left hidroot
    obtain rfl := Option.some.inj (hlink.symm.trans hqlink)
    exact hnew hq
  rcases way_before hc hrun hold hroot.to_reflTransGen with hway | hawait
  · refine .inr (.inr ⟨fun hmem => ?_, hway⟩)
    rcases List.mem_cons.mp hmem with heq | hmem
    · exact hne heq
    · exact hiddone hmem
  · exact .inr (.inl (hawait.mono (fun x y => Cache.relink_link? hr)))

/-- A settled runner that does not extend the one that is linked again stays settled, unless
    its way goes on where it ended before. -/
theorem settled_other (h : Midway changed cache root done now)
    (hrun : Refreshing source cache root done now trace) (hsource : source.Searchable)
    {r s : Runner} (hr : now.get? r.name = some (.loaded r))
    (hs : now.get? id = some (.loaded s)) (hsp : s.parent ≠ some r.name)
    (hsettled : now.Settled id s) (hne : id ≠ r.name) :
    (Cache.relink source now r).cache.Settled id s ∨
      (Cache.relink source now r).cache.Awaiting changed id ∨
        id ∉ r.name :: done ∧ Reaches cache.link? id root := by
  have hsub : ∀ x y, now.link? x = some y → (Cache.relink source now r).cache.link? x = some y :=
    fun x y => Cache.relink_link? hr
  have hknown : now.get? id ≠ none := Cache.known_of_get? hs
  by_cases hend : ∀ z, Reaches now.link? id z → now.link? z = none →
      (Cache.relink source now r).cache.link? z = none
  · refine .inl (hsettled.congr (sameFrom_of_mono hsub hend) (fun q hq => ?_))
    obtain ⟨e, he⟩ := hsettled.known q hq
    obtain ⟨e', he', -, hsame⟩ := Cache.relink_bare source hr he
    rw [he', he, hsame (fun heq => hsp (heq ▸ hq))]
  · obtain ⟨z, hz, hnone, hsome⟩ : ∃ z, Reaches now.link? id z ∧ now.link? z = none ∧
        (Cache.relink source now r).cache.link? z ≠ none := by
      simpa only [not_forall, exists_prop] using hend
    have hunknown : now.get? z = none := by
      by_contra hk
      obtain ⟨e, he⟩ := Option.ne_none_iff_exists'.mp hk
      obtain ⟨e', he', hb, -⟩ := Cache.relink_bare source hr he
      exact hsome ((Cache.link?_of_bare he he' hb).trans hnone)
    obtain ⟨hmem, hzne, hlead⟩ := h.known.hanging hz hknown hunknown
    rcases List.mem_cons.mp hmem with rfl | hmem
    · -- the root is unknown only as long as nothing was linked again
      obtain ⟨rfl, rfl⟩ := (hrun.root_known hsource).resolve_right (fun hk => hk hunknown)
      refine .inr (.inr ⟨fun hid => ?_, hz⟩)
      rcases List.mem_cons.mp hid with heq | hid
      · exact hne heq
      · exact hzne (List.mem_singleton.mp hid).symm
    · exact .inr (.inl ⟨z, hmem, hzne, hlead.mono hsub⟩)

/-- **One runner linked again** takes the refresh from one such state to the next. -/
theorem next (h : Midway changed cache root done now) (hsource : source.Searchable)
    (hc : cache.CoherentUpTo (root :: changed))
    (hrun : Refreshing source cache root done now trace) {r : Runner} {parent : String}
    (hnew : r.name ∉ done) (hr : now.get? r.name = some (.loaded r)) (hp : r.parent = some parent)
    (hdone : parent ∈ done) :
    Midway changed cache root (r.name :: done) (Cache.relink source now r).cache := by
  obtain ⟨fresh, ha⟩ := exists_ascent_ofRelink source now r
  have hwait := ha.name_mem_waiting (List.mem_singleton_self r.name)
  -- who is settled anew, and who was there before
  have hcases : ∀ k s, (Cache.relink source now r).cache.get? k = some (.loaded s) →
      (Cache.relink source now r).cache.Settled k s ∨
        k ≠ r.name ∧ now.get? k = some (.loaded s) := by
    intro k s hk
    rw [Cache.relink_cache] at hk ⊢
    rcases ha.settled hsource hk with hs | ⟨hout, hs⟩
    · exact .inl hs
    · exact .inr ⟨fun heq => hout (heq ▸ hwait), hs⟩
  refine ⟨fun k p hlink => ?_, fun k s hk => ?_⟩
  · obtain ⟨s, hk, hsp⟩ := Cache.link?_eq_some_iff.mp hlink
    rcases hcases k s hk with hs | ⟨-, hold⟩
    · obtain ⟨e, he⟩ := hs.known p hsp
      rw [he]
      exact .inl nofun
    · refine (h.known k p ((Cache.link?_of_get? hold).trans hsp)).imp_left (fun hknown => ?_)
      exact Cache.relink_keeps source hr hknown
  · rcases hcases k s hk with hs | ⟨hne, hold⟩
    · exact .inl hs
    rcases h.settled k s hold with hs | hawait | ⟨hkdone, hway⟩
    · by_cases hsp : s.parent = some r.name
      · exact settled_dependent hc hrun hnew hr hp hdone hold hsp hs hne
      · exact h.settled_other hrun hsource hr hold hsp hs hne
    · exact .inr (.inl (hawait.mono (fun x y => Cache.relink_link? hr)))
    · refine .inr (.inr ⟨fun hmem => ?_, hway⟩)
      rcases List.mem_cons.mp hmem with heq | hmem
      · exact hne heq
      · exact hkdone hmem

/-- Every state of a refresh is such a state. -/
theorem of_refreshing (hsource : source.Searchable) (hc : cache.CoherentUpTo (root :: changed))
    (hrun : Refreshing source cache root done now trace) : Midway changed cache root done now := by
  induction hrun with
  | start => exact .start hc
  | next before hnew hr hp hdone ih => exact ih.next hsource hc before hnew hr hp hdone

end Midway

/-! ## Requests -/

namespace Cache

variable {source : Source} {cache : Cache} {changed : List String}

/-- **A refresh of `root`** settles everybody who awaits `root` and no other changed name. -/
theorem CoherentUpTo.refresh (order : Order) (hsource : source.Searchable) {root : String}
    (h : cache.CoherentUpTo (root :: changed)) :
    (refresh order source cache root).cache.CoherentUpTo changed := by
  obtain ⟨hrun, -⟩ := refresh_run order source h.filed root
  have hmid := Midway.of_refreshing hsource h hrun
  have hall := fun id (hway : Reaches cache.link? id root) =>
    mem_refresh_of_reaches order source h.filed hway
  refine ⟨hrun.filed h.filed, fun id parent hlink => ?_, fun id r hr => ?_⟩
  · by_cases hknown : (Cache.refresh order source cache root).cache.get? parent = none
    · refine (hmid.known id parent hlink).imp_right (fun hmem => ?_)
      rcases List.mem_cons.mp hmem with rfl | hmem
      · -- nothing was linked again, although `id` extends the root
        obtain ⟨hdone, hsame⟩ :=
          (hrun.root_known hsource).resolve_right (fun hk => hk hknown)
        rw [hsame] at hlink hknown
        have hid := List.mem_reverse.mpr (hall id (.single hlink))
        rw [hdone] at hid
        obtain rfl := List.mem_singleton.mp hid
        rw [link?_of_none hknown] at hlink
        cases hlink
      · exact hmem
    · exact .inl hknown
  · rcases hmid.settled id r hr with hs | hawait | ⟨hout, hway⟩
    · exact .inl hs
    · exact .inr hawait
    · exact absurd (List.mem_reverse.mpr (hall id hway)) hout

theorem CoherentUpTo.resolve (hsource : source.Searchable) (h : cache.CoherentUpTo [])
    (id : String) : (resolve source cache id).cache.CoherentUpTo [] := by
  obtain ⟨fresh, ha⟩ := exists_ascent source cache (awaits_nil id)
  refine h.change (ha.filed h.filed) (fun k e hk _ => ha.kept hk List.not_mem_nil)
    (fun k hk => absurd hk List.not_mem_nil) (fun k r hr => ?_)
  exact (ha.settled hsource hr).imp_right (fun hold => ⟨List.not_mem_nil, hold.2⟩)

/-- A runner that is linked again is a changed name, also if it is not the one that was cached. -/
theorem CoherentUpTo.relink (hsource : source.Searchable) (h : cache.CoherentUpTo [])
    (r : Runner) : (relink source cache r).cache.CoherentUpTo [r.name] := by
  obtain ⟨fresh, ha⟩ := exists_ascent_ofRelink source cache r
  have hwait := ha.mem_waiting (List.mem_singleton_self r)
  rw [relink_cache]
  refine h.change (ha.filed h.filed) (fun k e hk hout => ha.kept hk hout) (fun k hk => ?_)
    (fun k s hs => ?_)
  · obtain rfl := List.mem_singleton.mp hk
    obtain ⟨s, -, -, hget⟩ := ha.get?_waiting hwait
    exact known_of_get? hget
  · refine (ha.settled hsource hs).imp_right (fun hold => ⟨fun hk => hold.1 ?_, hold.2⟩)
    rw [List.mem_singleton.mp hk]
    exact List.mem_map_of_mem hwait

theorem CoherentUpTo.reread (hsource : source.Searchable) (h : cache.CoherentUpTo [])
    (id : String) (d : DocumentId) : (reread source cache id d).cache.CoherentUpTo [id] := by
  have hlinked := h.relink hsource (source.reading id d)
  rw [(source.reading_facts id d).1] at hlinked
  rw [reread_cache]
  exact hlinked

theorem CoherentUpTo.invalidate (order : Order) (hsource : source.Searchable)
    (h : cache.CoherentUpTo []) (d : DocumentId) :
    (invalidate order source cache d).cache.CoherentUpTo [] := by
  unfold Cache.invalidate
  split
  · exact h
  · exact (h.reread hsource _ d).refresh order hsource

/-- Names that are forgotten because they had no document are changed names. -/
theorem CoherentUpTo.forget (h : cache.CoherentUpTo []) {kept : Cache} {dropped : List String}
    (hget : ∀ k r, kept.get? k = some (.loaded r) ↔ cache.get? k = some (.loaded r))
    (hdropped : ∀ id, id ∈ dropped ↔ cache.get? id = some .missing) :
    kept.CoherentUpTo dropped := by
  obtain ⟨hfiled, hcoherent⟩ := coherentUpTo_nil_iff.mp h
  have hlink : kept.link? = cache.link? := by
    funext k
    refine Option.ext (fun p => ?_)
    rw [link?_eq_some_iff, link?_eq_some_iff]
    simp only [hget]
  have hknown : ∀ k p, cache.link? k = some p →
      (∃ r, cache.get? p = some (.loaded r)) ∨ p ∈ dropped := by
    intro k p hp
    obtain ⟨r, hr, hrp⟩ := link?_eq_some_iff.mp hp
    obtain ⟨e, he⟩ := (hcoherent k r hr).known p hrp
    cases e with
    | loaded q => exact .inl ⟨q, he⟩
    | missing => exact .inr ((hdropped p).mpr he)
  refine ⟨fun k r hr => hfiled k r ((hget k r).mp hr), fun k p hp => ?_, fun k r hr => ?_⟩
  · rw [hlink] at hp
    refine (hknown k p hp).imp_left (fun ⟨r, hr⟩ => ?_)
    exact known_of_get? ((hget p r).mpr hr)
  · have hold := (hget k r).mp hr
    by_cases hlost : ∃ p ∈ dropped, r.parent = some p
    · obtain ⟨p, hp, hrp⟩ := hlost
      refine .inr ⟨p, hp, fun heq => ?_, .single ?_⟩
      · rw [heq, hdropped, hold] at hp
        cases hp
      · rw [Step, hlink, link?_of_get? hold, hrp]
    · refine .inl ((hcoherent k r hold).congr (fun z _ => by rw [hlink]) (fun p hrp => ?_))
      have hlinkp : cache.link? k = some p := (link?_of_get? hold).trans hrp
      obtain ⟨q, hq⟩ := (hknown k p hlinkp).resolve_right (fun hmem => hlost ⟨p, hmem, hrp⟩)
      rw [(hget p q).mpr hq, hq]

theorem CoherentUpTo.refreshAll (order : Order) (hsource : source.Searchable) {ids : List String}
    (h : cache.CoherentUpTo ids) : (refreshAll order source ids cache).cache.CoherentUpTo [] := by
  induction ids generalizing cache with
  | nil => exact h
  | cons id ids ih => exact ih (h.refresh order hsource)

theorem CoherentUpTo.forgetMissing (order : Order) (hsource : source.Searchable)
    (h : cache.CoherentUpTo []) : (forgetMissing order source cache).cache.CoherentUpTo [] := by
  refine (h.forget (fun k r => ?_) (fun id => ?_)).refreshAll order hsource
  · rw [OrderedMap.get?_filter, Option.filter_eq_some_iff]
    exact and_iff_left (decide_eq_true nofun)
  · rw [(order.perm _ cache.missingIds).mem_iff, mem_missingIds]

theorem coherentUpTo_empty : CoherentUpTo [] OrderedMap.empty :=
  coherentUpTo_nil_iff.mpr ⟨filed_empty, fun _ _ h => nomatch h⟩

theorem CoherentUpTo.turn {turn : Turn} (hsource : turn.source.Searchable)
    (h : cache.CoherentUpTo []) : (turn.apply cache).CoherentUpTo [] := by
  unfold Turn.apply
  split
  · next id _ => exact h.resolve hsource id
  · next d _ => exact h.invalidate turn.order hsource d
  · exact h.forgetMissing turn.order hsource
  · exact coherentUpTo_empty

/-- Between turns nobody waits for anything. -/
theorem coherentUpTo_after (turns : List Turn)
    (hsource : ∀ turn ∈ turns, turn.source.Searchable) : (after turns).CoherentUpTo [] :=
  after_induction coherentUpTo_empty
    (fun turn hturn _ hcache => hcache.turn (hsource turn hturn))

end Cache

/-- **Cache coherence**: whatever is asked, in whatever order, and however the documents change
    in between, every cached runner has the scopes that its links call for, as long as no search
    fails. -/
theorem coherent_after (turns : List Turn) (hsource : ∀ turn ∈ turns, turn.source.Searchable) :
    (Cache.after turns).Coherent := by
  have h : (Cache.after turns).CoherentUpTo [] :=
    Cache.after_induction Cache.coherentUpTo_empty
      (fun turn hturn cache hcache => hcache.turn (hsource turn hturn))
  exact (Cache.coherentUpTo_nil_iff.mp h).2

/-- A cycle that an edit closes: `b` extends `a`, which comes to extend `b`. -/
theorem coherent_after_closing_cycle :
    let shelf : Shelf := ⟨OrderedMap.ofList [
      ("a", "\x7b\"commands\": \x7b\"GO\": \x7b\x7d\x7d\x7d"),
      ("b", "\x7b\"extends\": \"a\"\x7d")], []⟩
    let edited := shelf.put "a" "\x7b\"extends\": \"b\"\x7d"
    (Cache.after [⟨.resolve "b", shelf.source, .arrival⟩,
      ⟨.invalidate (Shelf.documentOf "a"), edited.source, .arrival⟩]).Coherent := by
  intro shelf edited
  refine coherent_after _ (fun turn hturn => ?_)
  simp only [List.mem_cons, List.not_mem_nil, or_false] at hturn
  rcases hturn with rfl | rfl
  · exact Shelf.searchable rfl
  · exact Shelf.searchable rfl

end RunnerCatalog
