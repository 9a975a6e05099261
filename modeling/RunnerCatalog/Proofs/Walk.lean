/-
  The walk along cached links.

  `Cache.walkInto` follows links for as many steps as the cache has entries.  That is always
  enough: it finds a member of the list if and only if links lead to one
  (`walkInto_isSome_iff`).
-/
import RunnerCatalog.Cache
import RunnerCatalog.Proofs.Links

namespace RunnerCatalog.Cache

open Links

/-- A walk of at most `steps` steps finds a member of the list if one is that near. -/
theorem walkWithin_isSome_iff (cache : Cache) (chain : List String) (steps : Nat) (id : String) :
    (cache.walkWithin chain steps id).isSome ↔
      ∃ n ≤ steps, ∃ z ∈ chain, Links.nth cache.link? n id = some z := by
  induction steps generalizing id with
  | zero =>
    by_cases hid : id ∈ chain
    · rw [walkWithin, if_pos hid]
      exact ⟨fun _ => ⟨0, Nat.le_refl 0, id, hid, rfl⟩, fun _ => rfl⟩
    · rw [walkWithin, if_neg hid]
      constructor
      · intro h
        cases h
      · rintro ⟨n, hn, z, hz, hnz⟩
        obtain rfl := Nat.le_zero.mp hn
        obtain rfl := Option.some.inj hnz
        exact absurd hz hid
  | succ steps ih =>
    by_cases hid : id ∈ chain
    · rw [walkWithin, if_pos hid]
      exact ⟨fun _ => ⟨0, Nat.zero_le _, id, hid, rfl⟩, fun _ => rfl⟩
    rw [walkWithin, if_neg hid]
    constructor
    · intro h
      cases hl : cache.link? id with
      | none => rw [hl] at h; cases h
      | some next =>
        rw [hl, Option.isSome_map] at h
        obtain ⟨n, hn, z, hz, hnz⟩ := (ih next).mp h
        exact ⟨n + 1, by omega, z, hz, (nth_succ_of_some n hl).trans hnz⟩
    · rintro ⟨n, hn, z, hz, hnz⟩
      cases n with
      | zero =>
        obtain rfl := Option.some.inj hnz
        exact absurd hz hid
      | succ n =>
        cases hl : cache.link? id with
        | none => rw [nth_succ_of_none n hl] at hnz; cases hnz
        | some next =>
          rw [nth_succ_of_some n hl] at hnz
          show ((cache.walkWithin chain steps next).map _).isSome = true
          rw [Option.isSome_map]
          exact (ih next).mpr ⟨n, by omega, z, hz, hnz⟩

/-- **The walk is exact**: it finds a member of the list if and only if links lead to one. -/
theorem walkInto_isSome_iff (cache : Cache) (chain : List String) (id : String) :
    (cache.walkInto chain id).isSome ↔ ∃ z ∈ chain, Reaches cache.link? id z := by
  rw [walkInto, walkWithin_isSome_iff]
  constructor
  · rintro ⟨n, -, z, hz, hn⟩
    exact ⟨z, hz, reaches_iff_nth.mpr ⟨n, hn⟩⟩
  · rintro ⟨z, hz, h⟩
    rw [← OrderedMap.length_keys]
    exact exists_nth_le (fun x hx => mem_keys_of_link? hx) h hz

theorem walkInto_eq_none_iff (cache : Cache) (chain : List String) (id : String) :
    cache.walkInto chain id = none ↔ ∀ z ∈ chain, ¬ Reaches cache.link? id z := by
  rw [← Option.not_isSome_iff_eq_none, walkInto_isSome_iff]
  constructor
  · intro h z hz hreach
    exact h ⟨z, hz, hreach⟩
  · rintro h ⟨z, hz, hreach⟩
    exact h z hz hreach

end RunnerCatalog.Cache
