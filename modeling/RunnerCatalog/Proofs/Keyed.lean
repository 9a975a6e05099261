/-
  Commands under their names.

  A schema may put a command under any key and may say that it belongs to any scope.  A runner
  goes by neither: each of its commands stands in the scope that it names, under its own key.

  1. **Scopes** - declaring a command puts it there and leaves the others alone
     (`lookup_declare`), so whatever a schema declares is keyed (`keyed_declared`).

  2. **Merges** - a command of a merge comes from one of its two sides, and stands where it stood
     there (`ScopeMap.Keyed.merge`).

  3. **Parents** - the name of a parent has no blanks around it, for trimming leaves none to be
     trimmed (`trim_trim`).

  4. **Runners** - so all runners that reading, inheriting and detaching lead to are keyed
     (`Runner.Derived.keyed`).
-/
import Mathlib.Data.List.DropRight
import RunnerCatalog.Proofs.Merge
import RunnerCatalog.Schema

namespace RunnerCatalog

open OrderedMap (empty)

/-! ## Scopes -/

/-- Every command stands in the scope that it names, under its key. -/
def ScopeMap.Keyed (scopes : ScopeMap) : Prop :=
  ∀ (name key : String) (c : Command), scopes.lookup name key = some c →
    c.scope = name ∧ c.key = key

theorem keyed_empty : ScopeMap.Keyed empty := fun _ _ _ h => nomatch h

theorem ScopeMap.lookup_insert (scopes : ScopeMap) (name : String) (s : Scope)
    (name' key : String) :
    ScopeMap.lookup (scopes.insert name s) name' key =
      if name = name' then s.get? key else scopes.lookup name' key := by
  rw [ScopeMap.lookup, OrderedMap.get?_insert]
  split
  · rfl
  · rfl

namespace Schema

/-- Declaring a command adds it under its key to the scope that it names. -/
theorem lookup_declare (scopes : ScopeMap) (c : Command) (name key : String) :
    (declare scopes c).lookup name key =
      if c.scope = name ∧ c.key = key then some c else scopes.lookup name key := by
  rw [declare, ScopeMap.lookup_insert, OrderedMap.get?_insert]
  by_cases hname : c.scope = name
  · subst hname
    by_cases hkey : c.key = key
    · simp [hkey]
    · cases hs : scopes.get? c.scope <;> simp [hkey, hs, ScopeMap.lookup]
  · simp [hname]

/-- An empty scope has no command. -/
theorem lookup_openScope (scopes : ScopeMap) (new name key : String) :
    (openScope scopes new).lookup name key = scopes.lookup name key := by
  unfold openScope
  split
  · rfl
  · next hnew =>
    rw [ScopeMap.lookup_insert]
    split
    · next h =>
      subst h
      simp [ScopeMap.lookup, hnew]
    · rfl

theorem keyed_declare {scopes : ScopeMap} (h : scopes.Keyed) (c : Command) :
    (declare scopes c).Keyed := by
  intro name key c' hc'
  rw [lookup_declare] at hc'
  split at hc'
  · next hc =>
    cases hc'
    exact hc
  · exact h name key c' hc'

theorem keyed_openScope {scopes : ScopeMap} (h : scopes.Keyed) (new : String) :
    (openScope scopes new).Keyed := by
  intro name key c hc
  rw [lookup_openScope] at hc
  exact h name key c hc

/-- Declaring one command after the other. -/
theorem keyed_declareAll {ε : Type} (command : ε → Command) (es : List ε) {scopes : ScopeMap}
    (h : scopes.Keyed) : (es.foldl (fun scopes e => declare scopes (command e)) scopes).Keyed := by
  induction es generalizing scopes with
  | nil => exact h
  | cons e es ih => exact ih (keyed_declare h (command e))

theorem keyed_declareScoped (groups : List (String × OrderedMap String ScopedCommand))
    {scopes : ScopeMap} (h : scopes.Keyed) :
    (groups.foldl (fun scopes e => declareScope scopes e.1 e.2) scopes).Keyed := by
  induction groups generalizing scopes with
  | nil => exact h
  | cons e groups ih => exact ih (keyed_declareAll _ _ (keyed_openScope h e.1))

/-- **What a schema declares** is keyed, whatever its keys are. -/
theorem keyed_declared (s : Schema) : s.declared.Keyed :=
  keyed_declareScoped s.scopes.entries (keyed_declareAll _ _ keyed_empty)

end Schema

/-! ## Merges -/

/-- **A merge** of keyed scopes is keyed. -/
theorem ScopeMap.Keyed.merge {parent child : ScopeMap} (hp : parent.Keyed) (hc : child.Keyed) :
    (mergeScopes parent child).Keyed := by
  intro name key c h
  rw [lookup_mergeScopes, Option.or_eq_some_iff] at h
  rcases h with h | ⟨-, h⟩
  · exact hc name key c h
  · exact hp name key c h

/-! ## Parents -/

namespace Text

theorem trim_eq (cs : List Char) : trim cs = (cs.dropWhile isBlank).rdropWhile isBlank :=
  rfl

/-- What was trimmed at its start has no blank there, whatever is dropped at its end. -/
theorem dropWhile_trim (cs : List Char) : (trim cs).dropWhile isBlank = trim cs := by
  rw [List.dropWhile_eq_self_iff]
  intro h
  have hpre : trim cs <+: cs.dropWhile isBlank := List.rdropWhile_prefix isBlank _
  have hlen : 0 < (cs.dropWhile isBlank).length := h.trans_le hpre.length_le
  rw [hpre.getElem h]
  exact List.dropWhile_get_zero_not _ cs hlen

/-- Trimming once is enough. -/
theorem trim_trim (cs : List Char) : trim (trim cs) = trim cs := by
  rw [trim_eq (trim cs), dropWhile_trim, trim_eq, List.rdropWhile_idempotent]

theorem trimmed_trimmed (s : String) : trimmed (trimmed s) = trimmed s := by
  rw [trimmed, trimmed, String.toList_ofList, trim_trim]

end Text

/-- Whether a name can stand for a parent: it is trimmed, and something is left of it. -/
def IsParentName (name : String) : Prop := Text.trimmed name = name ∧ name ≠ ""

theorem Schema.isParentName {s : Schema} {name : String} (h : s.parentName = some name) :
    IsParentName name := by
  rw [parentName, Option.filter_eq_some_iff, Option.map_eq_some_iff] at h
  obtain ⟨⟨raw, -, rfl⟩, hne⟩ := h
  exact ⟨Text.trimmed_trimmed raw, of_decide_eq_true hne⟩

/-! ## Runners -/

namespace Runner

/-- The runners that reading schema texts, inheriting and detaching lead to. -/
inductive Derived : Runner → Prop
  | read {name text : String} {document : Option DocumentId} {r : Runner}
      (h : Runner.ofText name text document = .ok r) : Derived r
  | inherit {r parent : Runner} (hr : Derived r) (hp : Derived parent) :
      Derived (r.inherit parent)
  | detach {r : Runner} (hr : Derived r) : Derived r.detach

/-- All commands stand under their names, and so does the parent. -/
structure Keyed (r : Runner) : Prop where
  declared : r.declared.Keyed
  scopes : r.scopes.Keyed
  parent : ∀ {name : String}, r.parent = some name → IsParentName name

theorem keyed_of_ofText {name text : String} {document : Option DocumentId} {r : Runner}
    (h : Runner.ofText name text document = .ok r) : r.Keyed := by
  cases hs : Schema.read text with
  | error problem =>
    rw [Runner.ofText, hs] at h
    cases h
  | ok schema =>
    rw [Runner.ofText, hs] at h
    cases h
    exact {
      declared := schema.keyed_declared
      scopes := schema.keyed_declared
      parent := Schema.isParentName }

/-- **Every runner** that is derived from schema texts is keyed. -/
theorem Derived.keyed {r : Runner} (h : r.Derived) : r.Keyed := by
  induction h with
  | read h => exact keyed_of_ofText h
  | inherit _ _ hr hp =>
    exact { declared := hr.declared, scopes := hp.scopes.merge hr.declared, parent := hr.parent }
  | detach _ hr => exact { declared := hr.declared, scopes := hr.declared, parent := hr.parent }

end Runner

end RunnerCatalog
