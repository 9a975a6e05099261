/-
  Laying scopes over scopes.

  A scope is laid over a scope command by command, and the scopes of a child over those of its
  parent scope by scope.  Both are one operation (`OrderedMap.combine`), which makes one value of
  two under the same key: of commands it takes the upper one, of scopes it lays the upper one over
  the lower one (`override_eq_combine`, `mergeScopes_eq_combine`).

  So what a merge says about a scope and about a command is settled once for all combinations
  (`get?_combine`, hence `get?_mergeScopes` and `lookup_mergeScopes`).  Nothing is lost by laying
  scopes over none at all (`mergeScopes_empty_left`), order included.
-/
import RunnerCatalog.Runner

namespace RunnerCatalog

/-! ## One scope over another -/

namespace OrderedMap

variable {κ α : Type} [DecidableEq κ]

theorem entries_insert_of_notMem (m : OrderedMap κ α) {k : κ} (v : α) (h : k ∉ m.keys) :
    (m.insert k v).entries = m.entries ++ [(k, v)] := by
  have hput : ∀ l : List (κ × α), k ∉ l.map Prod.fst → putEntry k v l = l ++ [(k, v)] := by
    intro l hl
    induction l with
    | nil => rfl
    | cons e r ih =>
      rw [List.map_cons, List.mem_cons, not_or] at hl
      rw [putEntry, if_neg (fun he => hl.1 he.symm), ih hl.2, List.cons_append]
  exact hput m.entries h

/-- Keys that are new stay new when another key is added. -/
theorem notMem_keys_insert {m : OrderedMap κ α} {k : κ} {ks : List κ} (v : α) (hk : k ∉ ks)
    (hks : ∀ k' ∈ ks, k' ∉ m.keys) : ∀ k' ∈ ks, k' ∉ (m.insert k v).keys := by
  intro k' hk'
  have hne : k' ≠ k := fun he => hk (he ▸ hk')
  rw [keys_insert]
  split
  · exact hks k' hk'
  · simp [hks k' hk', hne]

/-- Entries with new keys come behind those that are there. -/
theorem entries_insertAll_of_disjoint (m : OrderedMap κ α) {l : List (κ × α)}
    (hl : (l.map Prod.fst).Nodup) (hdisj : ∀ k ∈ l.map Prod.fst, k ∉ m.keys) :
    (m.insertAll l).entries = m.entries ++ l := by
  induction l generalizing m with
  | nil => exact (List.append_nil _).symm
  | cons e r ih =>
    rw [List.map_cons, List.nodup_cons] at hl
    obtain ⟨he, hr⟩ := List.forall_mem_cons.mp hdisj
    show ((m.insert e.1 e.2).insertAll r).entries = m.entries ++ e :: r
    rw [ih _ hl.2 (notMem_keys_insert e.2 hl.1 hr), entries_insert_of_notMem m e.2 he,
      List.append_assoc]
    rfl

theorem empty_override (m : OrderedMap κ α) : (empty : OrderedMap κ α).override m = m := by
  apply ext
  exact entries_insertAll_of_disjoint empty m.nodup (fun _ _ => List.not_mem_nil)

/-- A fold whose steps add entries as long as their keys are new adds them all. -/
theorem foldl_eq_insertAll {step : OrderedMap κ α → κ × α → OrderedMap κ α} {l : List (κ × α)}
    (hstep : ∀ e ∈ l, ∀ m, e.1 ∉ m.keys → step m e = m.insert e.1 e.2)
    (hl : (l.map Prod.fst).Nodup) {m : OrderedMap κ α} (hdisj : ∀ k ∈ l.map Prod.fst, k ∉ m.keys) :
    l.foldl step m = m.insertAll l := by
  induction l generalizing m with
  | nil => rfl
  | cons e r ih =>
    rw [List.map_cons, List.nodup_cons] at hl
    obtain ⟨he, hr⟩ := List.forall_mem_cons.mp hdisj
    rw [List.foldl_cons, hstep e List.mem_cons_self m he]
    exact ih (fun e' he' => hstep e' (List.mem_cons_of_mem _ he')) hl.2
      (notMem_keys_insert e.2 hl.1 hr)

/-- Such a fold over the entries of a map builds the map again. -/
theorem foldl_empty {step : OrderedMap κ α → κ × α → OrderedMap κ α} (m : OrderedMap κ α)
    (hstep : ∀ e ∈ m.entries, ∀ m', e.1 ∉ m'.keys → step m' e = m'.insert e.1 e.2) :
    m.entries.foldl step empty = m :=
  (foldl_eq_insertAll hstep m.nodup (fun _ _ => List.not_mem_nil)).trans (empty_override m)

/-- Lay the entries of `upper` over those of `lower`; where both have a key, `f` makes one value of
    the two. -/
def combine (f : α → α → α) (lower upper : OrderedMap κ α) : OrderedMap κ α :=
  upper.entries.foldl (fun m e => m.insert e.1 ((m.get? e.1).elim e.2 (f · e.2))) lower

/-- **The view of a combination**: values are made one where both maps have them. -/
theorem get?_combine (f : α → α → α) (lower upper : OrderedMap κ α) (k : κ) :
    (combine f lower upper).get? k = Option.merge f (lower.get? k) (upper.get? k) := by
  have hfold : ∀ (l : List (κ × α)) (m : OrderedMap κ α), (l.map Prod.fst).Nodup →
      (l.foldl (fun m e => m.insert e.1 ((m.get? e.1).elim e.2 (f · e.2))) m).get? k =
        Option.merge f (m.get? k) (lookupEntry k l) := by
    intro l
    induction l with
    | nil => exact fun m _ => Option.merge_none_right.symm
    | cons e r ih =>
      intro m hl
      rw [List.map_cons, List.nodup_cons] at hl
      rw [List.foldl_cons, ih _ hl.2, get?_insert, lookupEntry]
      by_cases he : e.1 = k
      · -- the key comes here, and not again
        subst he
        rw [if_pos rfl, if_pos rfl, lookupEntry_eq_none hl.1]
        cases m.get? e.1 <;> rfl
      · rw [if_neg he, if_neg he]
  exact hfold upper.entries lower upper.nodup

/-- The upper one of two values. -/
def upperValue (_ v : α) : α := v

theorem override_eq_combine :
    (override : OrderedMap κ α → OrderedMap κ α → OrderedMap κ α) = combine upperValue := by
  funext lower upper
  have hstep : (fun (m : OrderedMap κ α) (e : κ × α) => m.insert e.1 e.2) =
      fun m e => m.insert e.1 ((m.get? e.1).elim e.2 (upperValue · e.2)) := by
    funext m e
    cases m.get? e.1 <;> rfl
  rw [override, insertAll, hstep]
  rfl

/-- The upper map wins. -/
theorem get?_override (lower upper : OrderedMap κ α) (k : κ) :
    (lower.override upper).get? k = (upper.get? k).or (lower.get? k) := by
  rw [override_eq_combine, get?_combine]
  cases upper.get? k <;> cases lower.get? k <;> rfl

end OrderedMap

open OrderedMap (empty)

/-! ## Scopes over scopes -/

theorem mergeScopes_eq_combine : mergeScopes = OrderedMap.combine OrderedMap.override := by
  funext parent child
  have hstep : (fun (merged : ScopeMap) (e : String × Scope) => mergeScope merged e.1 e.2) =
      fun m e => m.insert e.1 ((m.get? e.1).elim e.2 (OrderedMap.override · e.2)) := by
    funext m e
    rw [mergeScope]
    -- over a scope that is not there the upper one stays as it is
    cases m.get? e.1 with
    | none => rw [Option.getD_none, OrderedMap.empty_override, Option.elim_none]
    | some lower => rw [Option.getD_some, Option.elim_some]
  rw [mergeScopes, hstep]
  rfl

/-- A scope of a merge is the child's laid over the parent's, where a scope that is not there
    counts as empty; it is there if either has it. -/
theorem get?_mergeScopes (parent child : ScopeMap) (name : String) :
    (mergeScopes parent child).get? name =
      match child.get? name with
      | none => parent.get? name
      | some upper => some (((parent.get? name).getD empty).override upper) := by
  rw [mergeScopes_eq_combine, OrderedMap.get?_combine]
  cases child.get? name with
  | none => exact Option.merge_none_right
  | some upper =>
    cases parent.get? name with
    | none => exact congrArg some (OrderedMap.empty_override upper).symm
    | some lower => rfl

/-- The command that scopes list under a name of a scope. -/
def ScopeMap.lookup (scopes : ScopeMap) (scope key : String) : Option Command :=
  (scopes.get? scope).bind fun s => s.get? key

/-- **A command of a merge** is the child's if the child has one there, else the parent's. -/
theorem lookup_mergeScopes (parent child : ScopeMap) (scope key : String) :
    (mergeScopes parent child).lookup scope key =
      (child.lookup scope key).or (parent.lookup scope key) := by
  rw [ScopeMap.lookup, get?_mergeScopes]
  cases hc : child.get? scope with
  | none => simp [ScopeMap.lookup, hc]
  | some upper =>
    cases hp : parent.get? scope with
    | none => simp [ScopeMap.lookup, hc, hp, OrderedMap.empty_override]
    | some lower => simp [ScopeMap.lookup, hc, hp, OrderedMap.get?_override]

/-- **Over nothing** scopes stay as they are, order included. -/
theorem mergeScopes_empty_left (child : ScopeMap) : mergeScopes empty child = child := by
  refine OrderedMap.foldl_empty child (fun e _ merged he => ?_)
  rw [mergeScope, OrderedMap.get?_eq_none_iff.mpr he, Option.getD_none, OrderedMap.empty_override]

end RunnerCatalog
