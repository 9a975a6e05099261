/-
  A document is edited, and the edit is taken back.

  The text in between may be anything.  It may load runners, and it may close a cycle through
  runners that were cached, which then lose what they inherited.  All the same nothing of it is
  left when the old text is back and the cache was told about both changes - if the second change,
  too, is taken for one of the runner that was edited.

  1. **In between** - whatever the edit did, it did to the runner `x` that was read again, and to
     what those inherit who lead to `x` (`Cache.Disturbed`).

  2. **Back again** - the old text makes `x` extend what it extended before.  That runner does not
     lead to `x`, so it was not disturbed, and `x` gets the scopes that it had
     (`Disturbed.reread`).

  3. **Downwards** - the links of known runners are the old ones again (`Disturbed.sameFrom`), so
     the refresh restores the others one after the other along the ways to `x`
     (`Disturbed.restored`).

  4. **The same runner** - it need not be.  The text in between can make a second runner load from
     the same document (`CoherentUpTo.exists_head`), which takes another link
     (`CoherentUpTo.get?_invalidate_of_none`); and if the second change is taken for one of that
     runner, `x` is left with the link of the text in between (`CoherentUpTo.head_of_reverted`).

  5. **Exactly when** - so the edit leaves no trace if and only if `x` is found first
     (`reverted_edit_iff`).
-/
import RunnerCatalog.Proofs.Arrangement
import RunnerCatalog.Proofs.Unchanged

namespace RunnerCatalog

open Links

namespace Cache

variable {source : Source} {cache now : Cache} {order : Order} {d : DocumentId} {k x : String}
  {r : Runner}

/-! ## In between -/

/-- Of what is known in `cache`, nothing else is different `now` than the runner `x` and what those
    inherit who lead to it. -/
structure Disturbed (cache now : Cache) (x : String) : Prop where
  own? : ∀ k, k ≠ x → cache.get? k ≠ none → now.own? k = cache.own? k
  kept : ∀ k e, cache.get? k = some e → ¬ Reaches cache.link? k x → now.get? k = some e

/-- Known names stay among themselves. -/
theorem KnownUpTo.known_of_reaches (h : cache.KnownUpTo []) {z : String}
    (hway : Reaches cache.link? k z) (hk : cache.get? k ≠ none) : cache.get? z ≠ none := by
  intro hz
  exact List.not_mem_nil (h.hanging hway hk hz).1

/-- A way to `x` is one in `cache` too if the links before it are the same. -/
theorem KnownUpTo.reaches_of_eq (h : cache.KnownUpTo [])
    (hlink : ∀ k, k ≠ x → cache.get? k ≠ none → now.link? k = cache.link? k)
    (hk : cache.get? k ≠ none) (hway : Reaches now.link? k x) : Reaches cache.link? k x := by
  induction hway using Relation.ReflTransGen.head_induction_on with
  | refl => exact .refl
  | @head k p hstep _ ih =>
    by_cases hkx : k = x
    · rw [hkx]
    have hstep' : cache.link? k = some p := (hlink k hkx hk).symm.trans hstep
    exact (ih (h.known hstep')).head hstep'

/-- Telling the cache about a change disturbs nothing but the runner that is read again. -/
theorem CoherentUpTo.disturbed_invalidate (source : Source) {rest : List String}
    (hc : cache.CoherentUpTo []) (harrange : order.arrange .owners (cache.owners d) = x :: rest) :
    Disturbed cache (Cache.invalidate order source cache d).cache x := by
  obtain ⟨-, hown, -⟩ := invalidate_own? source hc.filed harrange
  refine ⟨hown, fun k e he hk => ?_⟩
  have hne : k ≠ x := fun heq => hk (heq ▸ .refl)
  have hhead : (order.arrange .owners (cache.owners d)).head? = some x := by rw [harrange]; rfl
  obtain ⟨e', he', -, rfl | ⟨m, hm, hlead⟩⟩ := hc.filed.invalidate_retains source hhead he hne
  · exact he'
  · obtain rfl := List.mem_singleton.mp hm
    refine absurd (hc.known.reaches_of_eq (fun z hz hknown => ?_) (known_of_get? he)
      hlead.to_reflTransGen) hk
    rw [link?_eq_own?, link?_eq_own?, hown z hz hknown]

namespace Disturbed

theorem link? (h : Disturbed cache now x) (hne : k ≠ x) (hk : cache.get? k ≠ none) :
    now.link? k = cache.link? k := by
  rw [link?_eq_own?, link?_eq_own?, h.own? k hne hk]

/-! ## Back again -/

/-- The runner `x` is read again with the link and the scopes that it declared before, and it gets
    the scopes that it had before. -/
theorem reread (h : Disturbed cache now x) (hc : cache.CoherentUpTo [])
    (hends : ¬ EntersCycle cache.link? x) (hr : cache.get? x = some (.loaded r))
    (hparent : (source.reading x d).parent = r.parent)
    (hdeclared : (source.reading x d).declared = r.declared) :
    (Cache.reread source now x d).cache =
      now.store ((source.reading x d).withScopes r.scopes) := by
  have hlink := link?_of_get? hr
  have hname := hc.filed x r hr
  -- whom `x` extends does not lead to `x`, so it is as before
  have hup : ∀ p, r.parent = some p → cache.get? p ≠ none ∧ ¬ Reaches cache.link? p x := by
    intro p hp
    have hstep : cache.link? x = some p := hlink.trans hp
    refine ⟨hc.known.known hstep, fun hback => hends ?_⟩
    exact OnCycle.entersCycle (Relation.TransGen.head' hstep hback)
  have hkept : ∀ p, r.parent = some p → now.get? p = cache.get? p := by
    intro p hp
    obtain ⟨hknown, hway⟩ := hup p hp
    obtain ⟨e, he⟩ := Option.ne_none_iff_exists'.mp hknown
    rw [he, h.kept p e he hway]
  have hdue : now.due (source.reading x d) = r.scopes := by
    rw [← ((coherentUpTo_nil_iff.mp hc).2 x r hr).due_eq hname hlink (.inr hends)]
    refine due_congr_of_way ((source.reading_facts x d).1.trans hname.symm) hparent hdeclared
      (fun p hp => ?_) (fun p hp _ => by rw [loaded?, loaded?, hkept p hp])
    rw [hname]
    obtain ⟨hknown, hway⟩ := hup p hp
    exact iff_of_false
      (fun hback => hway (hc.known.reaches_of_eq (fun z => h.link?) hknown hback)) hway
  rw [reread_cache, relink_of_known source (fun p hp => ?_), hdue]
  have hp' := hparent.symm.trans hp
  rw [hkept p hp']
  exact (hup p hp').1

/-- Storing another runner `x` disturbs nothing else. -/
theorem store (h : Disturbed cache now x) {y : Runner} (hy : y.name = x) :
    Disturbed cache (now.store y) x := by
  have hother : ∀ k, k ≠ x → (now.store y).get? k = now.get? k := fun k hne =>
    (get?_store now y k).trans (if_neg (fun heq => hne (heq.symm.trans hy)))
  refine ⟨fun k hne hk => (own?_congr (hother k hne)).trans (h.own? k hne hk), fun k e he hk => ?_⟩
  rw [hother k (fun heq => hk (heq ▸ .refl)), h.kept k e he hk]

/-! ## Downwards -/

/-- Once `x` has its old link, the links of known runners are the old ones. -/
theorem sameFrom (h : Disturbed cache now x) (hknown : cache.KnownUpTo [])
    (hx : now.link? x = cache.link? x) (hk : cache.get? k ≠ none) :
    SameFrom cache.link? now.link? k := by
  intro z hz
  by_cases hzx : z = x
  · rw [hzx, hx]
  · exact h.link? hzx (hknown.known_of_reaches hz hk)

end Disturbed

/-- A runner is the same in two caches if it has what it is due in both and the one that it extends
    is the same. -/
theorem facts_of_due {s t : Runner} (hts : t.detach = s.detach) (hs : cache.due s = s.scopes)
    (ht : now.due t = t.scopes)
    (hway : ∀ p, s.parent = some p →
      (Reaches now.link? p s.name ↔ Reaches cache.link? p s.name))
    (hsame : ∀ p, s.parent = some p →
      (now.get? p).map Entry.facts = (cache.get? p).map Entry.facts) : t.facts = s.facts := by
  obtain ⟨hname, hparent, hdocument, hdeclared⟩ := Runner.detach_eq_iff.mp hts
  have hscopes : t.scopes = s.scopes := by
    rw [← hs, ← ht]
    exact due_congr_of_way hname hparent hdeclared hway
      (fun p hp _ => scopes_of_facts (hsame p hp))
  exact Runner.facts_eq_iff.mpr ⟨hname, hparent, hdeclared, hscopes, congrArg _ hdocument⟩

/-- **Restored**: when the old runner `x` is back and those who lead to it are linked again, every
    old entry is.  For the latter the proof is by induction on the links that lead to `x`. -/
theorem Disturbed.restored (h : Disturbed cache now x) (order : Order) (source : Source)
    (hc : cache.CoherentUpTo []) (hends : ∀ k, ¬ EntersCycle cache.link? k)
    (hfiled : now.Filed) (hr : cache.get? x = some (.loaded r)) {y : Runner}
    (hy : now.get? x = some (.loaded y)) (hyr : y.facts = r.facts) (hk : cache.get? k ≠ none) :
    ((Cache.refresh order source now x).cache.get? k).map Entry.facts =
      (cache.get? k).map Entry.facts := by
  have hlinkx : now.link? x = cache.link? x := by
    rw [link?_of_get? hy, link?_of_get? hr, (Runner.facts_eq_iff.mp hyr).2.1]
  obtain ⟨hlink, hout, hin⟩ := refresh_over_known order source hfiled (known_of_get? hy)
  have hsame : ∀ z, cache.get? z ≠ none → SameFrom cache.link? now.link? z :=
    fun z hz => h.sameFrom hc.known hlinkx hz
  have hx : ((Cache.refresh order source now x).cache.get? x).map Entry.facts =
      (cache.get? x).map Entry.facts := by
    rw [hout x (.inl rfl), hy, hr]
    exact congrArg (fun f => some (some f)) hyr
  by_cases hway : Reaches cache.link? k x
  · induction hway using Relation.ReflTransGen.head_induction_on with
    | refl => exact hx
    | @head k p hstep hway ih =>
      by_cases hkx : k = x
      · rw [hkx, hx]
      obtain ⟨s, hs, hp⟩ := link?_eq_some_iff.mp hstep
      have hpk := hc.known.known hstep
      have hown : now.own? k = some s.detach := by
        rw [h.own? k hkx hk, own?_of_get? hs]
        rfl
      obtain ⟨s', hs', hs's⟩ := own?_eq_some_iff.mp hown
      have hkway := (reaches_congr (hsame k hk)).mpr (.head hstep hway)
      obtain ⟨t, ht, hts', hdue⟩ := hin k s' hkx hkway hs'
      have hsettled := (coherentUpTo_nil_iff.mp hc).2 k s hs
      have hsdue := hsettled.due_eq (hc.filed k s hs) (link?_of_get? hs) (.inr (hends k))
      rw [ht, hs]
      refine congrArg (fun f => some (some f)) ?_
      refine facts_of_due (hts'.trans hs's) hsdue hdue (fun q hq => ?_) (fun q hq => ?_)
      · obtain rfl := Option.some.inj (hp.symm.trans hq)
        rw [hlink]
        exact reaches_congr (hsame p hpk)
      · obtain rfl := Option.some.inj (hp.symm.trans hq)
        exact ih hpk
  · obtain ⟨e, he⟩ := Option.ne_none_iff_exists'.mp hk
    have hkway : ¬ Reaches now.link? k x := fun hback =>
      hway ((reaches_congr (hsame k hk)).mp hback)
    rw [hout k (.inr hkway), h.kept k e he hway, he]

/-! ## The same runner -/

/-- If nobody who was loaded shares the document, another owner in between is a new runner. -/
theorem Disturbed.owner_new (h : Disturbed cache now x) (hdocuments : cache.documents.Nodup)
    (hx : x ∈ cache.owners d) (hk : k ∈ now.owners d) (hne : k ≠ x) : cache.get? k = none := by
  by_contra hknown
  obtain ⟨s, f, hs, hf, hfd⟩ := mem_owners_iff.mp hk
  rw [h.own? k hne hknown] at hs
  exact hne (owner_unique hdocuments (mem_owners_iff.mpr ⟨s, f, hs, hf, hfd⟩) hx)

/-- A text that leaves the link of the runner as it was makes nobody known. -/
theorem CoherentUpTo.get?_invalidate_of_none (source : Source) {rest : List String}
    (hc : cache.CoherentUpTo []) (harrange : order.arrange .owners (cache.owners d) = x :: rest)
    (hlink : (source.reading x d).parent = cache.link? x) (hk : cache.get? k = none) :
    (cache.invalidate order source d).cache.get? k = none := by
  have hname : ((source.reading x d).withScopes (cache.due (source.reading x d))).name = x :=
    (source.reading_facts x d).1
  have hreread := reread_cache source cache x d
  rw [relink_of_known source fun p hp => hc.known.known (hlink.symm.trans hp)] at hreread
  have hroot : (cache.reread source x d).cache.get? x ≠ none := by
    rw [hreread, get?_store, if_pos hname]
    nofun
  have hnone : (cache.reread source x d).cache.get? k = none := by
    rw [hreread, get?_store, if_neg (fun heq => ?_), hk]
    exact (known_of_cons harrange).2 (hname.symm.trans heq ▸ hk)
  rw [invalidate_of_cons source harrange]
  exact ((refresh_run order source (hc.filed.reread source x d) x).1.over_known hroot).2 k hnone

/-- If the second change is taken for one of the same runner, every old entry is restored. -/
theorem CoherentUpTo.reverted {order' : Order} {edited : Source} {rest rest' : List String}
    (hc : cache.CoherentUpTo []) (hends : ∀ k, ¬ EntersCycle cache.link? k)
    (hr : cache.get? x = some (.loaded r))
    (hdocument : r.document.map DocumentId.components = some d.components)
    (hparent : (source.reading x d).parent = r.parent)
    (hdeclared : (source.reading x d).declared = r.declared)
    (harrange : order.arrange .owners (cache.owners d) = x :: rest)
    (harrange' : order'.arrange .owners
      ((cache.invalidate order edited d).cache.owners d) = x :: rest')
    (hk : cache.get? k ≠ none) :
    (((cache.invalidate order edited d).cache.invalidate order' source d).cache.get? k).map
      Entry.facts = (cache.get? k).map Entry.facts := by
  have hdisturbed := hc.disturbed_invalidate edited harrange
  have hfiled := hc.filed.invalidate order edited d
  generalize (cache.invalidate order edited d).cache = now at *
  have hreread := hdisturbed.reread (d := d) hc (hends x) hr hparent hdeclared
  have hback : (now.store ((source.reading x d).withScopes r.scopes)).Filed :=
    hreread ▸ hfiled.reread source x d
  have hfacts := source.facts_reading (hc.filed x r hr) hdocument hparent hdeclared r.scopes
  have hname : ((source.reading x d).withScopes r.scopes).name = x :=
    (source.reading_facts x d).1
  have hget := (get?_store now _ x).trans (if_pos hname)
  rw [invalidate_of_cons source harrange', hreread]
  exact (hdisturbed.store hname).restored order' source hc hends hback hr hget hfacts hk

/-- In between somebody has the document, and who is found first is the runner that was edited or
    a new one. -/
theorem CoherentUpTo.exists_head (edited : Source) {rest : List String}
    (hc : cache.CoherentUpTo []) (hdocuments : cache.documents.Nodup)
    (harrange : order.arrange .owners (cache.owners d) = x :: rest) (order' : Order) :
    ∃ y rest', order'.arrange .owners ((cache.invalidate order edited d).cache.owners d) =
        y :: rest' ∧ (y ≠ x → cache.get? y = none) := by
  have hx : x ∈ (cache.invalidate order edited d).cache.owners d :=
    mem_owners_iff.mpr ⟨_, d, (invalidate_own? edited hc.filed harrange).1,
      (edited.reading_facts x d).2.1, .refl d⟩
  cases harrange' : order'.arrange .owners ((cache.invalidate order edited d).cache.owners d) with
  | nil => exact absurd ((order'.perm .owners _).mem_iff.mpr hx) (by rw [harrange']; nofun)
  | cons y rest' =>
    exact ⟨y, rest', rfl, (hc.disturbed_invalidate edited harrange).owner_new hdocuments
      (known_of_cons harrange).1 (known_of_cons harrange').1⟩

/-- If the runner that was edited has its old link again, the second change was taken for one of
    that runner: anybody else who has the document was loaded through another link. -/
theorem CoherentUpTo.head_of_reverted {order' : Order} {edited : Source} {rest : List String}
    (hc : cache.CoherentUpTo []) (hdocuments : cache.documents.Nodup)
    (harrange : order.arrange .owners (cache.owners d) = x :: rest)
    (hback : ((cache.invalidate order edited d).cache.invalidate order' source d).cache.link? x =
      cache.link? x) :
    (order'.arrange .owners ((cache.invalidate order edited d).cache.owners d)).head? =
      some x := by
  obtain ⟨y, rest', harrange', hnew⟩ := hc.exists_head edited hdocuments harrange order'
  obtain ⟨-, hyknown⟩ := known_of_cons harrange'
  have hown := (invalidate_own? edited hc.filed harrange).1
  obtain ⟨s, hs, -⟩ := own?_eq_some_iff.mp hown
  rw [harrange']
  by_contra hne
  have hyx : y ≠ x := fun heq => hne (congrArg some heq)
  -- `x` was passed over, so its link is still the one of the text in between
  have hkept := (invalidate_own? source (hc.filed.invalidate order edited d) harrange').2.1 x
    hyx.symm (known_of_get? hs)
  have hlink : (edited.reading x d).parent = cache.link? x := by
    rw [← hback, link?_eq_own?, hkept, hown]
    rfl
  exact hyknown (hc.get?_invalidate_of_none edited harrange hlink (hnew hyx))

/-- If nobody new has the document, the runner that was edited is found first in every order. -/
theorem CoherentUpTo.head_of_sole {edited : Source} {rest : List String}
    (hc : cache.CoherentUpTo []) (hdocuments : cache.documents.Nodup)
    (harrange : order.arrange .owners (cache.owners d) = x :: rest) (order' : Order)
    (hsole : ∀ k ∈ (cache.invalidate order edited d).cache.owners d, cache.get? k ≠ none) :
    (order'.arrange .owners ((cache.invalidate order edited d).cache.owners d)).head? =
      some x := by
  obtain ⟨y, rest', harrange', hnew⟩ := hc.exists_head edited hdocuments harrange order'
  have hyx : y = x := by
    by_contra hne
    exact hsole y (known_of_cons harrange').1 (hnew hne)
  rw [harrange', hyx]
  rfl

end Cache

/-- **When a reverted edit leaves no trace.**  A document is edited, whatever the new text is, and
    the cache is told about it; the old text is put back, and the cache is told again.  If no search
    failed before, no two runners share a document and no links of cached runners lead into a cycle,
    then every entry that was cached is as it was if and only if the runner of the document is the
    one that is found first when the cache is told again.  So it is in every order if the text in
    between loads no other runner from the document.  `hsame` says that the text that is put back
    declares what the runner was last read with. -/
theorem reverted_edit_iff (turns : List Turn) (hsource : ∀ turn ∈ turns, turn.source.Searchable)
    (hdocuments : (Cache.after turns).documents.Nodup)
    (hends : ∀ id, ¬ EntersCycle (Cache.after turns).link? id)
    (order order' : Order) (source edited : Source) (d : DocumentId)
    (hsame : ∀ id ∈ (Cache.after turns).owners d, ∀ r,
      (Cache.after turns).get? id = some (.loaded r) →
        (source.reading id d).parent = r.parent ∧ (source.reading id d).declared = r.declared) :
    let between := ((Cache.after turns).invalidate order edited d).cache
    let left := (between.invalidate order' source d).cache
    ((∀ id e, (Cache.after turns).get? id = some e →
          (left.get? id).map Entry.facts = some e.facts) ↔
        ∀ id ∈ (Cache.after turns).owners d,
          (order'.arrange .owners (between.owners d)).head? = some id) ∧
      ((∀ id ∈ between.owners d, (Cache.after turns).get? id ≠ none) →
        ∀ id ∈ (Cache.after turns).owners d,
          (order'.arrange .owners (between.owners d)).head? = some id) := by
  intro between left
  have hc := Cache.coherentUpTo_after turns hsource
  cases harrange : order.arrange .owners ((Cache.after turns).owners d) with
  | nil =>
    have hnone : (Cache.after turns).owners d = [] :=
      (List.Perm.nil_eq (harrange ▸ order.perm _ _)).symm
    have hbetween : between = Cache.after turns :=
      congrArg Answer.cache (Cache.invalidate_of_not_owned order edited hnone)
    have hleft : left = between := by
      show (between.invalidate order' source d).cache = between
      rw [Cache.invalidate_of_not_owned order' source (hbetween ▸ hnone)]
    rw [hleft, hbetween, hnone]
    exact ⟨iff_of_true (fun id e he => congrArg _ he) (fun id hid => absurd hid List.not_mem_nil),
      fun _ id hid => absurd hid List.not_mem_nil⟩
  | cons x rest =>
    obtain ⟨hx, -⟩ := Cache.known_of_cons harrange
    obtain ⟨r, f, hr, hf, hfd⟩ := Cache.mem_owners.mp hx
    obtain ⟨hparent, hdeclared⟩ := hsame x hx r hr
    have hdocument : r.document.map DocumentId.components = some d.components := by
      rw [hf, Option.map_some, hfd]
    refine ⟨⟨fun hall id hid => ?_, fun hfirst id e he => ?_⟩, fun hsole id hid => ?_⟩
    · obtain rfl := Cache.owner_unique hdocuments hid hx
      have hfacts := (hall id _ hr).trans (congrArg (Option.map Entry.facts) hr).symm
      exact hc.head_of_reverted hdocuments harrange (Cache.link?_of_facts hfacts)
    · obtain ⟨rest', harrange'⟩ := List.head?_eq_some_iff.mp (hfirst x hx)
      have hback := hc.reverted hends hr hdocument hparent hdeclared harrange harrange'
        (Cache.known_of_get? he)
      exact hback.trans (congrArg (Option.map Entry.facts) he)
    · obtain rfl := Cache.owner_unique hdocuments hid hx
      exact hc.head_of_sole hdocuments harrange order' hsole

/-- A name that is not known leads into no cycle. -/
theorem Cache.not_entersCycle_of_notMem {cache : Cache} {id : String} (h : id ∉ cache.keys) :
    ¬ EntersCycle cache.link? id :=
  not_entersCycle_of_none (Cache.link?_of_none (OrderedMap.get?_eq_none_iff.mpr h))

/-- A runner `b` that extends `a`, which has a command. -/
def heir : Shelf := ⟨OrderedMap.ofList [
  ("a", "\x7b\"commands\": \x7b\"GO\": \x7b\x7d\x7d\x7d"),
  ("b", "\x7b\"extends\": \"a\"\x7d")], []⟩

/-- The same with `a` extending `b`, which closes a cycle. -/
def heirLooped : Shelf := heir.put "a" "\x7b\"extends\": \"b\"\x7d"

/-- What is known after `b` was looked up. -/
def heirKnown : List Turn := [⟨.resolve "b", heir.source, .arrival⟩]

theorem not_entersCycle_heirKnown (id : String) :
    ¬ EntersCycle (Cache.after heirKnown).link? id := by
  have ha : (Cache.after heirKnown).link? "a" = none := by decide +kernel
  have hb : (Cache.after heirKnown).link? "b" = some "a" := by decide +kernel
  have hkeys : (Cache.after heirKnown).keys = ["a", "b"] := by decide +kernel
  by_cases hid : id ∈ ["a", "b"]
  · simp only [List.mem_cons, List.not_mem_nil, or_false] at hid
    rcases hid with rfl | rfl
    · exact not_entersCycle_of_none ha
    · rw [entersCycle_iff_step hb]
      exact not_entersCycle_of_none ha
  · exact Cache.not_entersCycle_of_notMem (hkeys ▸ hid)

/-- The cycle is closed, `b` loses the command, the cycle is opened, and `b` has it again. -/
theorem reverted_heir :
    let cache := Cache.after heirKnown
    let between := (cache.invalidate .arrival heirLooped.source (Shelf.documentOf "a")).cache
    let after := (between.invalidate .arrival heir.source (Shelf.documentOf "a")).cache
    cache.get? "b" ≠ none ∧ between.get? "b" ≠ cache.get? "b" ∧
      ∀ id e, cache.get? id = some e → (after.get? id).map Entry.facts = some e.facts := by
  refine ⟨by decide +kernel, by decide +kernel, ?_⟩
  have howners : (Cache.after heirKnown).owners (Shelf.documentOf "a") = ["a"] := by
    decide +kernel
  refine (reverted_edit_iff heirKnown (fun turn hturn => ?_) (by decide +kernel)
    not_entersCycle_heirKnown .arrival .arrival heir.source heirLooped.source
    (Shelf.documentOf "a") (fun id hid r hr => ?_)).1.mpr (by decide +kernel)
  · obtain rfl := List.mem_singleton.mp hturn
    exact Shelf.searchable rfl
  · rw [howners] at hid
    obtain rfl := List.mem_singleton.mp hid
    have hown : (Cache.after heirKnown).own? "a" =
        some (heir.source.reading "a" (Shelf.documentOf "a")) := by decide +kernel
    obtain ⟨s, hs, hsr⟩ := Cache.own?_eq_some_iff.mp hown
    obtain rfl := Cache.loaded_inj hs hr
    rw [← hsr]
    exact ⟨rfl, rfl⟩

/-- What is known after the only schema of a workspace was looked up. -/
def schemaKnown : List Turn :=
  [⟨.resolve "c", oneSchema "\x7b\"commands\": \x7b\"GO\": \x7b\x7d\x7d\x7d", .arrival⟩]

theorem not_entersCycle_schemaKnown (id : String) :
    ¬ EntersCycle (Cache.after schemaKnown).link? id := by
  have hc : (Cache.after schemaKnown).link? "c" = none := by decide +kernel
  have hkeys : (Cache.after schemaKnown).keys = ["c"] := by decide +kernel
  by_cases hid : id = "c"
  · rw [hid]
    exact not_entersCycle_of_none hc
  · refine Cache.not_entersCycle_of_notMem ?_
    rwa [hkeys, List.mem_singleton]

/-- **An edit leaves a trace.**  In between, `c` extends `./c`, which is another name for the same
    document.  The second change is taken for one of `./c`, and `c` goes on extending it. -/
theorem reverted_edit_leaves_link :
    let source := oneSchema "\x7b\"commands\": \x7b\"GO\": \x7b\x7d\x7d\x7d"
    let edited :=
      oneSchema "\x7b\"extends\": \"./c\", \"commands\": \x7b\"T\": \x7b\x7d\x7d\x7d"
    let d : DocumentId := ⟨"ws/.catscript/schemas/c.json"⟩
    let cache := Cache.after schemaKnown
    let between := (cache.invalidate .arrival edited d).cache
    let after := (between.invalidate .arrival source d).cache
    (cache.documents.Nodup ∧ (∀ id, ¬ EntersCycle cache.link? id) ∧
        cache.own? "c" = some (source.reading "c" d)) ∧
      ¬ ∀ id e, cache.get? id = some e → (after.get? id).map Entry.facts = some e.facts := by
  intro source edited d cache between after
  have hafter : after.link? "c" = some "./c" := by decide +kernel
  have hbefore : cache.link? "c" = none := by decide +kernel
  refine ⟨⟨by decide +kernel, not_entersCycle_schemaKnown, by decide +kernel⟩, fun hall => ?_⟩
  have hknown : cache.get? "c" ≠ none := by decide +kernel
  obtain ⟨e, he⟩ := Option.ne_none_iff_exists'.mp hknown
  have hfacts := (hall "c" e he).trans (congrArg (Option.map Entry.facts) he).symm
  rw [Cache.link?_of_facts hfacts, hbefore] at hafter
  cases hafter

end RunnerCatalog
