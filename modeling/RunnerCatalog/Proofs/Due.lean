/-
  What a runner is due.

  Linking a runner again gives it the scopes that it is due (`Cache.due`): what it declares, laid
  over what is known about the one that it extends, unless links lead from there back to it.  If
  something is known about that one, nothing is loaded on the way (`Cache.relink_of_known`).

  1. **Due scopes** - they depend on the links and on the parent's scopes alone
     (`Cache.due_congr`).  In a coherent cache every runner has what it is due, except that
     nothing is said about runners whose way comes to a cycle which they are not on
     (`Cache.Settled.due_eq`).

  2. **A refresh over a known root** - no name becomes known and no link changes
     (`Refreshing.over_known`); whoever was linked again has what it is due
     (`Refreshing.due_done`).

  3. **One result** - so the entries that a refresh leaves follow from the links, from the root
     down, whatever the order (`Cache.get?_refresh_congr`).
-/
import RunnerCatalog.Proofs.Coherence

namespace RunnerCatalog

open Links

/-! ## Due scopes -/

/-- A runner that has inherited other scopes. -/
def Runner.withScopes (r : Runner) (scopes : ScopeMap) : Runner := { r with scopes := scopes }

namespace Cache

/-- The scopes that a runner gets when it is linked over what is known about its parent. -/
def due (cache : Cache) (r : Runner) : ScopeMap :=
  match r.parent with
  | none => r.declared
  | some parent =>
    if (cache.walkInto [r.name] parent).isSome then r.declared
    else
      match cache.loaded? parent with
      | none => r.declared
      | some q => mergeScopes q.scopes r.declared

variable {cache cache' : Cache} {r s : Runner} {id parent : String}

theorem walkInto_singleton_isSome_iff :
    (cache.walkInto [id] parent).isSome ↔ Reaches cache.link? parent id := by
  rw [walkInto_isSome_iff]
  constructor
  · rintro ⟨z, hz, hway⟩
    obtain rfl := List.mem_singleton.mp hz
    exact hway
  · intro hway
    exact ⟨id, List.mem_singleton_self id, hway⟩

theorem due_of_base (hp : r.parent = none) : cache.due r = r.declared := by
  rw [due, hp]

/-- A runner on a cycle is due what it declares. -/
theorem due_of_back (hp : r.parent = some parent) (hback : Reaches cache.link? parent r.name) :
    cache.due r = r.declared := by
  simp only [due, hp]
  exact if_pos (walkInto_singleton_isSome_iff.mpr hback)

/-- So is a runner whose parent is not there. -/
theorem due_of_not_loaded (hp : r.parent = some parent) (hq : cache.loaded? parent = none) :
    cache.due r = r.declared := by
  simp only [due, hp, hq]
  exact ite_self _

/-- Every other runner is due what it declares over what its parent has. -/
theorem due_of_loaded {q : Runner} (hp : r.parent = some parent)
    (hback : ¬ Reaches cache.link? parent r.name) (hq : cache.get? parent = some (.loaded q)) :
    cache.due r = mergeScopes q.scopes r.declared := by
  simp only [due, hp, loaded?_eq_some_iff.mpr hq]
  exact if_neg (fun h => hback (walkInto_singleton_isSome_iff.mp h))

/-- What is due depends on whether links lead back and on the scopes of the parent. -/
theorem due_congr_of_way (hname : s.name = r.name) (hparent : s.parent = r.parent)
    (hdeclared : s.declared = r.declared)
    (hway : ∀ parent, r.parent = some parent →
      (Reaches cache'.link? parent r.name ↔ Reaches cache.link? parent r.name))
    (hscopes : ∀ parent, r.parent = some parent → ¬ Reaches cache.link? parent r.name →
      (cache'.loaded? parent).map Runner.scopes = (cache.loaded? parent).map Runner.scopes) :
    cache'.due s = cache.due r := by
  cases hp : r.parent with
  | none => rw [due_of_base hp, due_of_base (hparent.trans hp), hdeclared]
  | some parent =>
    have hback' := hway parent hp
    rw [← hname] at hback'
    by_cases hback : Reaches cache.link? parent r.name
    · rw [due_of_back hp hback, due_of_back (hparent.trans hp), hdeclared]
      exact hback'.mpr (hname.symm ▸ hback)
    have hsame := hscopes parent hp hback
    rw [← hname] at hback
    cases hq : cache.loaded? parent with
    | none =>
      rw [hq, Option.map_none, Option.map_eq_none_iff] at hsame
      rw [due_of_not_loaded hp hq, due_of_not_loaded (hparent.trans hp) hsame, hdeclared]
    | some q =>
      rw [hq, Option.map_some, Option.map_eq_some_iff] at hsame
      obtain ⟨q', hq', hscopes'⟩ := hsame
      rw [due_of_loaded hp (hname ▸ hback) (loaded?_eq_some_iff.mp hq),
        due_of_loaded (hparent.trans hp) (fun h => hback (hback'.mp h))
          (loaded?_eq_some_iff.mp hq'), hscopes', hdeclared]

/-- Where links are the same, what is due depends on the scopes of the parent. -/
theorem due_congr (hname : s.name = r.name) (hparent : s.parent = r.parent)
    (hdeclared : s.declared = r.declared) (hlink : cache'.link? = cache.link?)
    (hscopes : ∀ parent, r.parent = some parent → ¬ Reaches cache.link? parent r.name →
      (cache'.loaded? parent).map Runner.scopes = (cache.loaded? parent).map Runner.scopes) :
    cache'.due s = cache.due r :=
  due_congr_of_way hname hparent hdeclared (fun _ _ => by rw [hlink]) hscopes

theorem not_loaded_of_missing (h : cache.get? id = some .missing) : cache.loaded? id = none := by
  rw [loaded?, h]
  rfl

/-- A climb that finds its name known ends where it begins. -/
theorem climb_of_loaded (source : Source) {waiting : List Runner} {q : Runner}
    (hw : cache.walkInto (chainOf waiting) id = none) (hq : cache.get? id = some (.loaded q)) :
    climb source cache waiting id = ⟨waiting, .over q, [], []⟩ := by
  rw [climb, climbWithin, hw, hq]

theorem climb_of_missing (source : Source) {waiting : List Runner}
    (hw : cache.walkInto (chainOf waiting) id = none) (hm : cache.get? id = some .missing) :
    climb source cache waiting id = ⟨waiting, .unknown id, [], []⟩ := by
  rw [climb, climbWithin, hw, hm]

theorem climb_of_walk (source : Source) {waiting : List Runner} {walk : List String}
    (hw : cache.walkInto (chainOf waiting) id = some walk) :
    climb source cache waiting id = ⟨waiting, .cycle (chainOf waiting ++ walk), [], []⟩ := by
  rw [climb, climbWithin, hw]

/-- **Linking again** a runner about whose parent something is known loads nothing and stores what
    the runner is due. -/
theorem relink_of_known (source : Source)
    (hknown : ∀ parent, r.parent = some parent → cache.get? parent ≠ none) :
    (relink source cache r).cache = cache.store (r.withScopes (cache.due r)) := by
  obtain hp | ⟨parent, hp⟩ := Option.eq_none_or_eq_some r.parent
  · simp only [relink, hp, due_of_base hp]
    rfl
  obtain ⟨e, he⟩ := Option.ne_none_iff_exists'.mp (hknown parent hp)
  simp only [relink, hp]
  cases hw : cache.walkInto (chainOf [r]) parent with
  | some walk =>
    have hback := walkInto_singleton_isSome_iff.mp (Option.isSome_of_eq_some hw)
    rw [due_of_back hp hback, climb_of_walk source hw]
    rfl
  | none =>
    have hback : ¬ Reaches cache.link? parent r.name :=
      (cache.walkInto_eq_none_iff _ _).mp hw r.name (List.mem_singleton_self r.name)
    cases e with
    | loaded q =>
      rw [due_of_loaded hp hback he, climb_of_loaded source hw he]
      rfl
    | missing =>
      rw [due_of_not_loaded hp (not_loaded_of_missing he), climb_of_missing source hw he]
      rfl

/-- A settled runner has what it is due, unless its way comes to a cycle which it is not on. -/
theorem Settled.due_eq (h : cache.Settled id r) (hname : r.name = id)
    (hlink : cache.link? id = r.parent)
    (hway : OnCycle cache.link? id ∨ ¬ EntersCycle cache.link? id) : cache.due r = r.scopes := by
  cases hp : r.parent with
  | none => rw [due_of_base hp, h.base hp]
  | some parent =>
    have hstep : cache.link? id = some parent := hlink.trans hp
    rw [← hname] at hstep hway h
    by_cases hback : Reaches cache.link? parent r.name
    · rw [due_of_back hp hback, h.cycle (Relation.TransGen.head' hstep hback)]
    have henters : ¬ EntersCycle cache.link? r.name := by
      refine hway.resolve_left (fun hcycle => hback ?_)
      exact hcycle.returns (Relation.ReflTransGen.single hstep)
    obtain ⟨e, he⟩ := h.known parent hp
    cases e with
    | loaded q => rw [due_of_loaded hp hback he, h.merged parent q hp henters he]
    | missing =>
      rw [due_of_not_loaded hp (not_loaded_of_missing he), h.orphan parent hp he]

end Cache

/-! ## A refresh over a known root -/

namespace Cache

variable {cache : Cache} {r s : Runner}

theorem get?_store (cache : Cache) (r : Runner) (id : String) :
    (cache.store r).get? id = if r.name = id then some (.loaded r) else cache.get? id :=
  OrderedMap.get?_insert cache r.name (.loaded r) id

/-- Storing a runner in the place of one with the same link changes no link. -/
theorem link?_store (hs : cache.get? r.name = some (.loaded s)) (hparent : r.parent = s.parent) :
    (cache.store r).link? = cache.link? := by
  funext id
  by_cases hid : r.name = id
  · subst hid
    rw [link?_of_get? hs, link?_of_get? ((get?_store cache r r.name).trans (if_pos rfl)), hparent]
  · exact link?_congr ((get?_store cache r id).trans (if_neg hid))

theorem get?_store_withScopes (cache : Cache) (r : Runner) (scopes : ScopeMap) (id : String) :
    (cache.store (r.withScopes scopes)).get? id =
      if r.name = id then some (.loaded (r.withScopes scopes)) else cache.get? id :=
  get?_store cache (r.withScopes scopes) id

theorem link?_store_withScopes (hr : cache.get? r.name = some (.loaded r)) (scopes : ScopeMap) :
    (cache.store (r.withScopes scopes)).link? = cache.link? :=
  link?_store (r := r.withScopes scopes) hr rfl

theorem KnownUpTo.known (h : cache.KnownUpTo []) {id parent : String}
    (hp : cache.link? id = some parent) : cache.get? parent ≠ none :=
  (h id parent hp).resolve_right List.not_mem_nil

end Cache

namespace Refreshing

variable {source : Source} {cache now : Cache} {root : String} {done : List String}
  {trace : List Event}

/-- Whoever is linked again extends a runner that is known, if the root is. -/
theorem known_done (h : Refreshing source cache root done now trace)
    (hroot : cache.get? root ≠ none) {parent : String} (hdone : parent ∈ done) :
    now.get? parent ≠ none := by
  by_cases hp : parent = root
  · subst hp
    obtain ⟨e, he⟩ := Option.ne_none_iff_exists'.mp hroot
    obtain ⟨e', he', -⟩ := h.bare he
    exact Cache.known_of_get? he'
  · exact h.known_of_mem hdone hp

/-- So it gets what it is due. -/
theorem relink_eq (h : Refreshing source cache root done now trace)
    (hroot : cache.get? root ≠ none) {r : Runner} {parent : String} (hp : r.parent = some parent)
    (hdone : parent ∈ done) :
    (Cache.relink source now r).cache = now.store (r.withScopes (now.due r)) := by
  refine Cache.relink_of_known source (fun q hq => ?_)
  obtain rfl := Option.some.inj (hp.symm.trans hq)
  exact h.known_done hroot hdone

/-- Over a known root, a refresh leaves links as they are and makes no name known. -/
theorem over_known (h : Refreshing source cache root done now trace)
    (hroot : cache.get? root ≠ none) :
    now.link? = cache.link? ∧ ∀ id, cache.get? id = none → now.get? id = none := by
  induction h with
  | start => exact ⟨rfl, fun _ h => h⟩
  | @next done now trace r parent before hnew hr hp hdone ih =>
    obtain ⟨hlink, hnone⟩ := ih
    rw [before.relink_eq hroot hp hdone]
    refine ⟨(Cache.link?_store_withScopes hr _).trans hlink, fun id hid => ?_⟩
    rw [Cache.get?_store_withScopes, if_neg (fun heq => ?_), hnone id hid]
    have hcached := hnone id hid
    rw [← heq, show now.get? r.name = _ from hr] at hcached
    cases hcached

/-- Entries of runners that were not linked again stay as they are. -/
theorem get?_of_notMem (h : Refreshing source cache root done now trace)
    (hroot : cache.get? root ≠ none) {id : String} (hid : id = root ∨ id ∉ done) :
    now.get? id = cache.get? id := by
  cases he : cache.get? id with
  | none => exact (h.over_known hroot).2 id he
  | some e =>
    obtain ⟨e', he', -, hsame⟩ := h.bare he
    rw [he', hsame hid]

/-- **Who was linked again has what it is due**: its parent was linked again before it, and is not
    linked again later. -/
theorem due_done (h : Refreshing source cache root done now trace) (hroot : cache.get? root ≠ none)
    {id : String} {s : Runner} (hid : id ∈ done) (hne : id ≠ root)
    (hs : now.get? id = some (.loaded s)) : now.due s = s.scopes := by
  induction h generalizing s with
  | start => exact absurd (List.mem_singleton.mp hid) hne
  | @next done now trace r parent before hnew hr hp hdone ih =>
    have heq := before.relink_eq hroot hp hdone
    have hlink : (Cache.relink source now r).cache.link? = now.link? := by
      rw [heq]
      exact Cache.link?_store_withScopes hr _
    -- whoever extends a runner of before is due the same as before
    have hkept : ∀ q, q ≠ r.name →
        (Cache.relink source now r).cache.loaded? q = now.loaded? q := by
      intro q hq
      rw [Cache.loaded?, Cache.loaded?, heq, Cache.get?_store_withScopes,
        if_neg (fun h => hq h.symm)]
    by_cases hrs : id = r.name
    · subst hrs
      rw [heq, Cache.get?_store_withScopes, if_pos rfl] at hs
      cases hs
      refine Cache.due_congr rfl rfl rfl hlink (fun q hq hback => ?_)
      obtain rfl := Option.some.inj (hp.symm.trans hq)
      rw [hkept parent (fun hself => hnew (hself ▸ hdone))]
    · have hid' := (List.mem_cons.mp hid).resolve_left hrs
      rw [heq, Cache.get?_store_withScopes, if_neg (fun h => hrs h.symm)] at hs
      rw [← ih hid' hs]
      refine Cache.due_congr rfl rfl rfl hlink (fun q hq _ => ?_)
      obtain ⟨p, hpdone, hplink⟩ := (before.extends_done hid').resolve_left hne
      obtain rfl : p = q := by
        rw [Cache.link?_of_get? hs, hq] at hplink
        exact (Option.some.inj hplink).symm
      rw [hkept p (fun hself => hnew (hself ▸ hpdone))]

end Refreshing

namespace Cache

variable {cache : Cache}

/-- A refresh over a known root leaves runners that do not lead to its root as they are, and all
    others, the root apart, with what they are due. -/
theorem refresh_over_known (order : Order) (source : Source) (hc : cache.Filed) {root : String}
    (hroot : cache.get? root ≠ none) :
    (refresh order source cache root).cache.link? = cache.link? ∧
      (∀ k, k = root ∨ ¬ Reaches cache.link? k root →
        (refresh order source cache root).cache.get? k = cache.get? k) ∧
      ∀ k s, k ≠ root → Reaches cache.link? k root → cache.get? k = some (.loaded s) →
        ∃ t, (refresh order source cache root).cache.get? k = some (.loaded t) ∧
          t.detach = s.detach ∧ (refresh order source cache root).cache.due t = t.scopes := by
  obtain ⟨hrun, -⟩ := refresh_run order source hc root
  have hlink := (hrun.over_known hroot).1
  refine ⟨hlink, fun k hk => ?_, fun k s hne hway hs => ?_⟩
  · refine hrun.get?_of_notMem hroot (hk.imp_right (fun hout hmem => hout ?_))
    rw [← hlink]
    exact hrun.reaches_root hmem
  · obtain ⟨_, ht, hbare, -⟩ := hrun.bare hs
    obtain ⟨t, rfl, htr⟩ := Entry.eq_loaded_of_bare hbare
    have hmem := List.mem_reverse.mpr (mem_refresh_of_reaches order source hc hway)
    exact ⟨t, ht, htr, hrun.due_done hroot hmem hne ht⟩

end Cache

/-! ## One result -/

namespace Cache

variable {source : Source} {cache : Cache} {root : String}

/-- **Over a known root the order does not matter**: from the root down, what runners are due
    follows from the links. -/
theorem get?_refresh_congr (o o' : Order) (hc : cache.Filed) (hroot : cache.get? root ≠ none)
    (id : String) :
    (refresh o source cache root).cache.get? id = (refresh o' source cache root).cache.get? id := by
  obtain ⟨hlink, hout, hin⟩ := refresh_over_known o source hc hroot
  obtain ⟨hlink', hout', hin'⟩ := refresh_over_known o' source hc hroot
  by_cases hway : Reaches cache.link? id root
  · induction hway using Relation.ReflTransGen.head_induction_on with
    | refl => rw [hout root (.inl rfl), hout' root (.inl rfl)]
    | @head id parent hstep hway ih =>
      by_cases hne : id = root
      · rw [hout id (.inl hne), hout' id (.inl hne)]
      obtain ⟨r, hr, hp⟩ := link?_eq_some_iff.mp hstep
      obtain ⟨s, hs, hsr, hdue⟩ := hin id r hne (.head hstep hway) hr
      obtain ⟨s', hs', hsr', hdue'⟩ := hin' id r hne (.head hstep hway) hr
      have hdetach : s.detach = s'.detach := hsr.trans hsr'.symm
      obtain ⟨hname, hparent, -, hdeclared⟩ := Runner.detach_eq_iff.mp hdetach
      have hscopes : s.scopes = s'.scopes := by
        rw [← hdue, ← hdue']
        refine due_congr hname hparent hdeclared (hlink.trans hlink'.symm) (fun q hq _ => ?_)
        obtain rfl := Option.some.inj (hq.symm.trans ((Runner.parent_of_detach hsr').trans hp))
        rw [loaded?, loaded?, ih]
      rw [hs, hs', Runner.eq_of_detach hdetach hscopes]
  · rw [hout id (.inr hway), hout' id (.inr hway)]

end Cache

end RunnerCatalog
