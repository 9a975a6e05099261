/-
  The laws of laying maps over maps.

  Merging scopes is combining maps at two levels, so its laws are those of `OrderedMap.combine`:
  what is below keeps its place, what only the upper map has comes behind, and of two values under
  one key some function makes one.

  1. **The view of a combination** - its keys are those of the lower map and then the new ones
     (`keys_combine`).  Together with the values, which are known (`get?_combine`), the keys
     determine a map (`ext_get?`).

  2. **Laws pass up a level** - joining keys is associative and idempotent (`joinKeys_assoc`,
     `joinKeys_self`).  So if a function has one of these laws on values, combining has it on maps,
     order included.

  3. **Scopes** - from commands over scopes to maps of scopes, merging is associative and
     idempotent.  Absorption follows from these two alone, as in every idempotent monoid
     (`mergeScopes_idempotent_monoid`).
-/
import Mathlib.Data.List.Basic
import RunnerCatalog.Proofs.Merge

namespace RunnerCatalog

/-! ## Keys -/

/-- The keys of a lower map, and behind them those that only an upper map has. -/
def joinKeys {κ : Type} [DecidableEq κ] (lower upper : List κ) : List κ :=
  lower ++ upper.filter fun k => k ∉ lower

section Keys

variable {κ : Type} [DecidableEq κ]

theorem mem_joinKeys {lower upper : List κ} {k : κ} :
    k ∈ joinKeys lower upper ↔ k ∈ lower ∨ k ∈ upper := by
  rw [joinKeys, List.mem_append, List.mem_filter, decide_eq_true_iff]
  by_cases hk : k ∈ lower <;> simp [hk]

theorem joinKeys_assoc (a b c : List κ) :
    joinKeys (joinKeys a b) c = joinKeys a (joinKeys b c) := by
  have hnew : c.filter (fun k => k ∉ joinKeys a b) =
      c.filter fun k => decide (k ∉ a) && decide (k ∉ b) := by
    refine List.filter_congr fun k _ => ?_
    rw [Bool.eq_iff_iff, Bool.and_eq_true, decide_eq_true_iff, decide_eq_true_iff,
      decide_eq_true_iff, mem_joinKeys, not_or]
  calc joinKeys (joinKeys a b) c
      = (a ++ b.filter fun k => k ∉ a) ++ c.filter fun k => k ∉ joinKeys a b := rfl
    _ = a ++ (b.filter (fun k => k ∉ a) ++
          (c.filter fun k => k ∉ b).filter fun k => k ∉ a) := by
        rw [hnew, List.filter_filter, List.append_assoc]
    _ = joinKeys a (joinKeys b c) := by
        rw [← List.filter_append]
        rfl

theorem joinKeys_self (a : List κ) : joinKeys a a = a := by
  have hnone : a.filter (fun k => k ∉ a) = [] := by
    rw [List.filter_eq_nil_iff]
    intro k hk
    simpa using hk
  rw [joinKeys, hnone, List.append_nil]

/-- Keys may be joined one by one, as long as none of them comes twice. -/
theorem joinKeys_cons {k : κ} {ks : List κ} (lower : List κ) (hk : k ∉ ks) :
    joinKeys lower (k :: ks) = joinKeys (if k ∈ lower then lower else lower ++ [k]) ks := by
  by_cases hmem : k ∈ lower
  · rw [if_pos hmem, joinKeys, joinKeys, List.filter_cons_of_neg (by simpa using hmem)]
  · have hsame : ks.filter (fun k' => k' ∉ lower ++ [k]) = ks.filter fun k' => k' ∉ lower := by
      refine List.filter_congr fun k' hk' => ?_
      have hne : k' ≠ k := fun he => hk (he ▸ hk')
      simp [hne]
    rw [if_neg hmem, joinKeys, joinKeys, List.filter_cons_of_pos (by simpa using hmem), hsame,
      List.append_assoc]
    rfl

end Keys

/-! ## The view of a combination -/

namespace OrderedMap

variable {κ α : Type} [DecidableEq κ]

theorem keys_combine (f : α → α → α) (lower upper : OrderedMap κ α) :
    (combine f lower upper).keys = joinKeys lower.keys upper.keys := by
  have hfold : ∀ (l : List (κ × α)) (m : OrderedMap κ α), (l.map Prod.fst).Nodup →
      (l.foldl (fun m e => m.insert e.1 ((m.get? e.1).elim e.2 (f · e.2))) m).keys =
        joinKeys m.keys (l.map Prod.fst) := by
    intro l
    induction l with
    | nil => exact fun m _ => (List.append_nil m.keys).symm
    | cons e r ih =>
      intro m hl
      rw [List.map_cons, List.nodup_cons] at hl
      rw [List.foldl_cons, ih _ hl.2, keys_insert, List.map_cons, joinKeys_cons _ hl.1]
  exact hfold upper.entries lower upper.nodup

theorem entries_eq_filterMap (m : OrderedMap κ α) :
    m.entries = m.keys.filterMap fun k => (m.get? k).map fun v => (k, v) := by
  rw [keys, List.filterMap_map]
  have hentry : ∀ e ∈ m.entries,
      ((fun k => (m.get? k).map fun v => (k, v)) ∘ Prod.fst) e = some e := by
    intro e he
    have hget : m.get? e.1 = some e.2 := get?_eq_some_iff.mpr he
    rw [Function.comp_apply, hget, Option.map_some]
  exact (List.filterMap_congr hentry |>.trans List.filterMap_some).symm

/-- **Keys and values determine a map**, order included. -/
theorem ext_get? {m m' : OrderedMap κ α} (hkeys : m.keys = m'.keys)
    (hget : ∀ k, m.get? k = m'.get? k) : m = m' := by
  apply ext
  rw [entries_eq_filterMap m, entries_eq_filterMap m', hkeys]
  simp only [hget]

/-! ## Laws pass up a level -/

/-- Combining is associative if the function on values is. -/
instance associative_combine (f : α → α → α) [Std.Associative f] :
    Std.Associative (combine f : OrderedMap κ α → OrderedMap κ α → OrderedMap κ α) where
  assoc a b c := by
    apply ext_get?
    · simp only [keys_combine, joinKeys_assoc]
    · intro k
      simp only [get?_combine]
      exact Std.Associative.assoc _ _ _

/-- Combining is idempotent if the function on values is. -/
instance idempotentOp_combine (f : α → α → α) [Std.IdempotentOp f] :
    Std.IdempotentOp (combine f : OrderedMap κ α → OrderedMap κ α → OrderedMap κ α) where
  idempotent a := by
    apply ext_get?
    · rw [keys_combine, joinKeys_self]
    · intro k
      rw [get?_combine]
      exact Std.IdempotentOp.idempotent _

/-! ## Scopes over scopes -/

instance : Std.Associative (upperValue : α → α → α) := ⟨fun _ _ _ => rfl⟩

instance : Std.IdempotentOp (upperValue : α → α → α) := ⟨fun _ => rfl⟩

instance : Std.Associative (override : OrderedMap κ α → OrderedMap κ α → OrderedMap κ α) := by
  rw [override_eq_combine]
  infer_instance

instance : Std.IdempotentOp (override : OrderedMap κ α → OrderedMap κ α → OrderedMap κ α) := by
  rw [override_eq_combine]
  infer_instance

end OrderedMap

open OrderedMap (empty)

instance : Std.Associative mergeScopes := by
  rw [mergeScopes_eq_combine]
  infer_instance

instance : Std.IdempotentOp mergeScopes := by
  rw [mergeScopes_eq_combine]
  infer_instance

theorem mergeScopes_assoc (a b c : ScopeMap) :
    mergeScopes (mergeScopes a b) c = mergeScopes a (mergeScopes b c) :=
  Std.Associative.assoc a b c

theorem mergeScopes_self (a : ScopeMap) : mergeScopes a a = a := Std.IdempotentOp.idempotent a

theorem mergeScopes_empty_right (parent : ScopeMap) : mergeScopes parent empty = parent := rfl

theorem keys_mergeScopes (parent child : ScopeMap) :
    (mergeScopes parent child).keys = joinKeys parent.keys child.keys := by
  rw [mergeScopes_eq_combine, OrderedMap.keys_combine]

/-- **Merging scopes** is an ordered monoid in which layers are absorbed: it is associative, no
    scopes at all are neutral on both sides, and a layer that is there already changes nothing, be
    it laid under the others or over them again.  A command of a merge is the upper one if there is
    one, and every scope of either side is there. -/
theorem mergeScopes_idempotent_monoid (a b c : ScopeMap) :
    mergeScopes (mergeScopes a b) c = mergeScopes a (mergeScopes b c) ∧
      mergeScopes empty a = a ∧ mergeScopes a empty = a ∧
      mergeScopes a (mergeScopes a b) = mergeScopes a b ∧
      mergeScopes (mergeScopes a b) b = mergeScopes a b ∧
      (∀ scope key, (mergeScopes a b).lookup scope key =
        (b.lookup scope key).or (a.lookup scope key)) ∧
      ∀ scope, scope ∈ (mergeScopes a b).keys ↔ scope ∈ a.keys ∨ scope ∈ b.keys := by
  refine ⟨mergeScopes_assoc a b c, mergeScopes_empty_left a, mergeScopes_empty_right a, ?_, ?_,
    lookup_mergeScopes a b, fun scope => ?_⟩
  · rw [← mergeScopes_assoc, mergeScopes_self]
  · rw [mergeScopes_assoc, mergeScopes_self]
  · rw [keys_mergeScopes, mem_joinKeys]

end RunnerCatalog
