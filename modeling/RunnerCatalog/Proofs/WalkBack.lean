/-
  The walk along cached links, step by step.

  `Cache.walkInto` takes as many steps as the cache has entries.  Without a bound one would remember
  the names that were passed and give up at the first one that comes again.

  1. **Steps** - `Cache.Walks` has one rule for each way in which a step can go.  The walk with a
     bound is the walk by these rules (`walks_walkInto`), so that one ends, cycles or not.

  2. **Shape** - a walk that gets to a member of the list goes along links, through names that are
     not in the list, and through none twice (`IntoChain`, `intoChain_of_walkInto`).
-/
import RunnerCatalog.Proofs.Walk

namespace RunnerCatalog.Cache

open Links

variable {cache : Cache} {chain seen : List String} {id next : String}

/-! ## One step -/

theorem walkInto_of_mem (h : id ∈ chain) : cache.walkInto chain id = some [id] := by
  rw [walkInto]
  cases cache.size with
  | zero => exact if_pos h
  | succ steps => exact if_pos h

/-- More steps find what fewer steps find. -/
theorem walkWithin_succ {steps : Nat} {walk : List String}
    (h : cache.walkWithin chain steps id = some walk) :
    cache.walkWithin chain (steps + 1) id = some walk := by
  induction steps generalizing id walk with
  | zero =>
    unfold walkWithin at h
    split at h
    · next hid =>
      rw [walkWithin, if_pos hid]
      exact h
    · cases h
  | succ steps ih =>
    rw [walkWithin] at h ⊢
    split at h
    · next hid =>
      rw [if_pos hid]
      exact h
    · next hid =>
      rw [if_neg hid]
      split at h
      · cases h
      · next next hnext =>
        obtain ⟨rest, hrest, rfl⟩ := Option.map_eq_some_iff.mp h
        exact congrArg (Option.map (id :: ·)) (ih hrest)

/-- **A step** of the walk, whatever the bound. -/
theorem walkInto_of_link (hid : id ∉ chain) (hnext : cache.link? id = some next) :
    cache.walkInto chain id = (cache.walkInto chain next).map (id :: ·) := by
  cases hwalk : cache.walkInto chain id with
  | none =>
    have hnone := (cache.walkInto_eq_none_iff chain id).mp hwalk
    have hnone' : cache.walkInto chain next = none :=
      (cache.walkInto_eq_none_iff chain next).mpr fun z hz hreach =>
        hnone z hz (hreach.head hnext)
    rw [hnone', Option.map_none]
  | some walk =>
    -- who has a link is known, so there is a step to take
    have hlinked : cache.link? id ≠ none := Option.ne_none_iff_exists'.mpr ⟨next, hnext⟩
    have hpos : 0 < cache.size := by
      rw [← OrderedMap.length_keys]
      exact List.length_pos_of_mem (mem_keys_of_link? hlinked)
    obtain ⟨steps, hsteps⟩ := Nat.exists_eq_add_of_lt hpos
    rw [Nat.zero_add] at hsteps
    rw [walkInto, hsteps, walkWithin, if_neg hid] at hwalk
    simp only [hnext] at hwalk
    obtain ⟨rest, hrest, rfl⟩ := Option.map_eq_some_iff.mp hwalk
    rw [walkInto, hsteps, walkWithin_succ hrest, Option.map_some]

/-! ## Walks without a bound -/

/-- How the walk goes on from `id` when it has passed the names of `seen`.  It ends with the way to
    a member of `chain`, or with nothing. -/
inductive Walks (cache : Cache) (chain : List String) :
    List String → String → Option (List String) → Prop
  | arrives {seen : List String} {id : String} (hid : id ∈ chain) :
      Walks cache chain seen id (some [id])
  | returns {seen : List String} {id : String} (hid : id ∉ chain) (hseen : id ∈ seen) :
      Walks cache chain seen id none
  | ends {seen : List String} {id : String} (hid : id ∉ chain) (hseen : id ∉ seen)
      (hnone : cache.link? id = none) : Walks cache chain seen id none
  | step {seen : List String} {id next : String} {way : Option (List String)} (hid : id ∉ chain)
      (hseen : id ∉ seen) (hnext : cache.link? id = some next)
      (rest : Walks cache chain (id :: seen) next way) :
      Walks cache chain seen id (way.map (id :: ·))

/-- Names that have a link are no more than there are entries. -/
theorem length_le_of_linked (hnodup : seen.Nodup) (hlinked : ∀ x ∈ seen, cache.link? x ≠ none) :
    seen.length ≤ cache.size := by
  have hsub : seen ⊆ cache.keys := fun x hx => mem_keys_of_link? (hlinked x hx)
  rw [← OrderedMap.length_keys]
  exact (hnodup.subperm hsub).length_le

/-- Each step passes a name that has a link and was not passed before, so there are no more of them
    than entries. -/
theorem exists_walks (cache : Cache) (chain : List String) (steps : Nat) (hnodup : seen.Nodup)
    (hlinked : ∀ x ∈ seen, cache.link? x ≠ none) (hsteps : cache.size ≤ steps + seen.length)
    (id : String) : ∃ way, Walks cache chain seen id way := by
  induction steps generalizing seen id with
  | zero =>
    by_cases hid : id ∈ chain
    · exact ⟨_, .arrives hid⟩
    by_cases hseen : id ∈ seen
    · exact ⟨_, .returns hid hseen⟩
    refine ⟨_, .ends hid hseen (Decidable.by_contra fun hlink => ?_)⟩
    have hle := length_le_of_linked (List.nodup_cons.mpr ⟨hseen, hnodup⟩)
      (List.forall_mem_cons.mpr ⟨hlink, hlinked⟩)
    rw [List.length_cons] at hle
    omega
  | succ steps ih =>
    by_cases hid : id ∈ chain
    · exact ⟨_, .arrives hid⟩
    by_cases hseen : id ∈ seen
    · exact ⟨_, .returns hid hseen⟩
    cases hnext : cache.link? id with
    | none => exact ⟨_, .ends hid hseen hnext⟩
    | some next =>
      have hlinked' : ∀ x ∈ id :: seen, cache.link? x ≠ none :=
        List.forall_mem_cons.mpr ⟨Option.ne_none_iff_exists'.mpr ⟨next, hnext⟩, hlinked⟩
      obtain ⟨way, hway⟩ := ih (List.nodup_cons.mpr ⟨hseen, hnodup⟩) hlinked'
        (by rw [List.length_cons]; omega) next
      exact ⟨_, .step hid hseen hnext hway⟩

/-- What was passed lies before `id` on one way that has not come to the list. -/
def Passed (cache : Cache) (chain seen : List String) (id : String) : Prop :=
  ∀ x ∈ seen, x ∉ chain ∧ ∃ y, cache.link? x = some y ∧ (y ∈ seen ∨ y = id)

/-- By induction on the rules: a walk that comes to a name again stays among the names that it
    passed. -/
theorem Walks.eq_walkInto {way : Option (List String)} (h : Walks cache chain seen id way)
    (hpassed : Passed cache chain seen id) : way = cache.walkInto chain id := by
  induction h with
  | arrives hid => exact (walkInto_of_mem hid).symm
  | @returns seen id hid hseen =>
    have hstays : ∀ z, Reaches cache.link? id z → z ∈ seen := by
      intro z hreach
      induction hreach with
      | refl => exact hseen
      | @tail x y _ hxy ih =>
        obtain ⟨-, y', hy', hback⟩ := hpassed x ih
        obtain rfl : y' = y := Option.some.inj (hy'.symm.trans hxy)
        rcases hback with hback | rfl
        · exact hback
        · exact hseen
    exact ((cache.walkInto_eq_none_iff chain id).mpr fun z hz hreach =>
      (hpassed z (hstays z hreach)).1 hz).symm
  | @ends seen id hid hseen hnone =>
    refine ((cache.walkInto_eq_none_iff chain id).mpr fun z hz hreach => ?_).symm
    exact hid (hreach.eq_of_none hnone ▸ hz)
  | @step seen id next way hid hseen hnext rest ih =>
    rw [walkInto_of_link hid hnext, ih ?_]
    intro x hx
    rcases List.mem_cons.mp hx with rfl | hx
    · exact ⟨hid, next, hnext, .inr rfl⟩
    · obtain ⟨hx', y, hy, hseen'⟩ := hpassed x hx
      refine ⟨hx', y, hy, .inl ?_⟩
      rcases hseen' with hseen' | rfl
      · exact List.mem_cons_of_mem _ hseen'
      · exact List.mem_cons_self

theorem Walks.walkInto_eq {way : Option (List String)} (h : Walks cache chain [] id way) :
    cache.walkInto chain id = way :=
  (h.eq_walkInto fun _ hx => absurd hx List.not_mem_nil).symm

/-- **The walk ends** and the bound is never met: by the rules, the walk comes to what it finds within
    its bound. -/
theorem walks_walkInto (cache : Cache) (chain : List String) (id : String) :
    Walks cache chain [] id (cache.walkInto chain id) := by
  obtain ⟨way, hway⟩ := exists_walks cache chain cache.size List.nodup_nil
    (fun x hx => absurd hx List.not_mem_nil) (Nat.le_add_right _ _) id
  rw [hway.walkInto_eq]
  exact hway

theorem walks_of_walkInto {way : Option (List String)} (h : cache.walkInto chain id = way) :
    Walks cache chain [] id way :=
  h ▸ walks_walkInto cache chain id

/-! ## The shape of a walk -/

/-- The way `before`, then `z`, begins at `id` and goes along links up to the first member of
    `chain`; it passes no name twice, and none of `seen`. -/
structure IntoChain (cache : Cache) (chain seen : List String) (id : String)
    (before : List String) (z : String) : Prop where
  mem : z ∈ chain
  outside : ∀ x ∈ before, x ∉ chain ∧ x ∉ seen
  nodup : before.Nodup
  head : (before ++ [z]).head? = some id
  links : (before ++ [z]).IsChain (Step cache.link?)

theorem Walks.intoChain {walk : List String} {way : Option (List String)}
    (h : Walks cache chain seen id way) (hway : way = some walk) :
    ∃ before z, walk = before ++ [z] ∧ IntoChain cache chain seen id before z := by
  induction h generalizing walk with
  | @arrives seen id hid =>
    obtain rfl := Option.some.inj hway
    exact ⟨[], id, rfl, hid, fun _ hx => absurd hx List.not_mem_nil, List.nodup_nil, rfl,
      List.IsChain.singleton id⟩
  | returns => cases hway
  | ends => cases hway
  | @step seen id next way hid hseen hnext rest ih =>
    obtain ⟨walk', rfl, rfl⟩ := Option.map_eq_some_iff.mp hway
    obtain ⟨before, z, rfl, hinto⟩ := ih rfl
    obtain ⟨tail, htail⟩ := List.head?_eq_some_iff.mp hinto.head
    refine ⟨id :: before, z, rfl, hinto.mem, fun x hx => ?_, ?_, rfl, ?_⟩
    · rcases List.mem_cons.mp hx with rfl | hx
      · exact ⟨hid, hseen⟩
      · obtain ⟨hx', hx''⟩ := hinto.outside x hx
        exact ⟨hx', fun hmem => hx'' (List.mem_cons_of_mem _ hmem)⟩
    · exact List.nodup_cons.mpr
        ⟨fun hmem => (hinto.outside id hmem).2 List.mem_cons_self, hinto.nodup⟩
    · have hlinks := hinto.links
      rw [List.cons_append, htail] at *
      exact List.IsChain.cons_cons hnext hlinks

/-- **What the walk finds** is a way into the list. -/
theorem intoChain_of_walkInto {walk : List String} (h : cache.walkInto chain id = some walk) :
    ∃ before z, walk = before ++ [z] ∧ IntoChain cache chain [] id before z :=
  (walks_walkInto cache chain id).intoChain h

end RunnerCatalog.Cache
