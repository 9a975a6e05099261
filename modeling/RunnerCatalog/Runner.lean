/-
  Runners: the commands that a script may call.

  A runner has named scopes, and a scope lists commands under their uppercase names.  The
  commands of the scope `BASE` are called by their bare name, all others as `Scope.command`.
  A runner may extend a parent; its own commands are then laid over the parent's, scope by
  scope and command by command (`mergeScopes`).  A runner remembers which scopes its own
  document declares, so that the merge can be done again over a newer parent (`inherit`) or
  undone (`detach`).
-/
import RunnerCatalog.Document
import RunnerCatalog.OrderedMap
import RunnerCatalog.Text.Uppercase

namespace RunnerCatalog

/-- The scope whose commands are called without a scope name. -/
def baseScope : String := "BASE"

/-- One positional argument of a command. -/
structure Argument where
  name : String
  type : String
  optional : Bool
  deriving DecidableEq, Repr

/-- A command of a scope. -/
structure Command where
  /-- The name of the scope that holds the command. -/
  scope : String
  /-- The name as the schema writes it. -/
  command : String
  arguments : List Argument
  /-- The types of the results. -/
  output : List String
  /-- A description in Markdown. -/
  description : String
  deriving DecidableEq, Repr

/-- The name under which a scope lists the command. -/
def Command.key (c : Command) : String := Text.uppercase c.command

/-- The commands of one scope, by uppercase name. -/
abbrev Scope := OrderedMap String Command

/-- The scopes of a runner, by name. -/
abbrev ScopeMap := OrderedMap String Scope

/-! ## Merging -/

/-- Lay one scope over the scope of the same name. -/
def mergeScope (scopes : ScopeMap) (name : String) (upper : Scope) : ScopeMap :=
  scopes.insert name (((scopes.get? name).getD OrderedMap.empty).override upper)

/-- Lay the scopes of a child over those of its parent.  Scopes of the parent keep their
    places, a child's command replaces the parent's command of that name where it stands, and
    what only the child has is added behind. -/
def mergeScopes (parent child : ScopeMap) : ScopeMap :=
  child.entries.foldl (fun merged e => mergeScope merged e.1 e.2) parent

/-! ## Runners -/

/-- A runner as its schema describes it, together with what it inherits. -/
structure Runner where
  name : String
  /-- The runner that this one extends. -/
  parent : Option String
  /-- The document that the runner was read from. -/
  document : Option DocumentId
  /-- The scopes that the runner's own document declares. -/
  declared : ScopeMap
  /-- The declared scopes over those of the parent. -/
  scopes : ScopeMap
  deriving DecidableEq

namespace Runner

/-- A runner that has exactly the scopes its own document declares. -/
def ofDeclared (name : String) (parent : Option String) (document : Option DocumentId)
    (declared : ScopeMap) : Runner :=
  ⟨name, parent, document, declared, declared⟩

/-- A runner without commands, which stands for a document that cannot be used. -/
def blank (name : String) (document : Option DocumentId) : Runner :=
  ofDeclared name none document OrderedMap.empty

/-- Lay the declared scopes over everything `parent` has. -/
def inherit (r parent : Runner) : Runner :=
  { r with scopes := mergeScopes parent.scopes r.declared }

/-- Drop everything inherited. -/
def detach (r : Runner) : Runner := { r with scopes := r.declared }

/-- Look up a command.  The scope is matched exactly, the command without regard to case. -/
def command? (r : Runner) (scope command : String) : Option Command :=
  (r.scopes.get? scope).bind fun s => s.get? (Text.uppercase command)

/-- The commands of a scope, in order; an unknown scope has none. -/
def commandsIn (r : Runner) (scope : String) : List Command :=
  match r.scopes.get? scope with
  | some s => s.values
  | none => []

@[simp]
theorem inherit_declared (r p : Runner) : (r.inherit p).declared = r.declared := rfl

@[simp]
theorem detach_declared (r : Runner) : r.detach.declared = r.declared := rfl

/-- Runners that agree but for what they inherit. -/
theorem detach_eq_iff {r s : Runner} :
    r.detach = s.detach ↔
      r.name = s.name ∧ r.parent = s.parent ∧ r.document = s.document ∧
        r.declared = s.declared := by
  constructor
  · intro h
    injection h with hname hparent hdocument hdeclared
    exact ⟨hname, hparent, hdocument, hdeclared⟩
  · rintro ⟨hname, hparent, hdocument, hdeclared⟩
    rw [detach, detach, hname, hparent, hdocument, hdeclared]

/-- Runners that agree but for what they inherit are equal if they inherit the same. -/
theorem eq_of_detach {r s : Runner} (h : r.detach = s.detach) (hs : r.scopes = s.scopes) :
    r = s := by
  obtain ⟨hname, hparent, hdocument, hdeclared⟩ := detach_eq_iff.mp h
  cases r
  cases s
  simp only at hname hparent hdocument hdeclared hs
  rw [hname, hparent, hdocument, hdeclared, hs]

theorem name_of_detach {r s : Runner} (h : r.detach = s.detach) : r.name = s.name :=
  (detach_eq_iff.mp h).1

theorem parent_of_detach {r s : Runner} (h : r.detach = s.detach) : r.parent = s.parent :=
  (detach_eq_iff.mp h).2.1

end Runner

end RunnerCatalog
