/-
  Schema documents and what they mean.

  A schema is a JSON document with an optional parent and two kinds of commands, which older
  and newer schemas use.  Flat commands all belong to the scope `BASE`, and give the types and
  the names of their arguments in two parallel lists; scoped commands are grouped by scope and
  describe each argument on its own.  Both come down to the same scopes: `Schema.declared`
  adds the flat commands first and the scoped ones after them, so that a scoped command wins
  over a flat one of the same name.

  `Schema.read` takes a document apart, and `Runner.ofText` makes a runner of it.
-/
import RunnerCatalog.Json.Shape
import RunnerCatalog.Runner
import RunnerCatalog.Text.Blank

namespace RunnerCatalog

/-! ## The two shapes -/

/-- A command of the older shape. -/
structure FlatCommand where
  /-- The name as it is shown; the key of the entry if absent. -/
  command : Option String
  /-- The types of the arguments. -/
  argumentTypes : List String
  /-- The names of the arguments, as far as they have any. -/
  argumentNames : List String
  output : List String
  description : String
  deriving DecidableEq, Repr

/-- A command of the newer shape. -/
structure ScopedCommand where
  /-- The name as it is shown; the key of the entry if absent. -/
  command : Option String
  arguments : List Argument
  output : List String
  description : String
  deriving DecidableEq, Repr

/-- A schema document. -/
structure Schema where
  parent : Option String
  /-- The flat commands. -/
  commands : OrderedMap String FlatCommand
  /-- The scoped commands, by scope. -/
  scopes : OrderedMap String (OrderedMap String ScopedCommand)
  deriving DecidableEq

/-! ## Reading a document -/

namespace Argument

/-- An argument as far as it is read. -/
structure Draft where
  name : Option String := none
  type : Option String := none
  optional : Option Bool := none

/-- The fields of an argument. -/
def fields : List (Json.Field Draft) := [
  ⟨"name", fun d => d.name.isSome, fun d cs => do
    let (v, r) ← Json.readString cs
    return ({ d with name := some v }, r)⟩,
  ⟨"type", fun d => d.type.isSome, fun d cs => do
    let (v, r) ← Json.readString cs
    return ({ d with type := some v }, r)⟩,
  ⟨"optional", fun d => d.optional.isSome, fun d cs => do
    let (v, r) ← Json.readBoolean cs
    return ({ d with optional := some v }, r)⟩]

/-- An argument needs a name and a type. -/
def finish (form : Json.Form) (d : Draft) : Except Json.Fault Argument :=
  match d.name, d.type, form with
  | some name, some type, _ => .ok ⟨name, type, d.optional.getD false⟩
  | none, _, .object => .error (.missingField "name")
  | some _, none, .object => .error (.missingField "type")
  | _, _, .list length => .error (.tooShort length "Argument" 3)

/-- Read an argument. -/
def read : Json.Reader Argument := Json.readRecord "Argument" fields {} finish

end Argument

namespace FlatCommand

/-- A flat command as far as it is read. -/
structure Draft where
  command : Option (Option String) := none
  argumentTypes : Option (List String) := none
  argumentNames : Option (List String) := none
  output : Option (List String) := none
  description : Option String := none

/-- The fields of a flat command. -/
def fields : List (Json.Field Draft) := [
  ⟨"command", fun d => d.command.isSome, fun d cs => do
    let (v, r) ← Json.readOptional Json.readString cs
    return ({ d with command := some v }, r)⟩,
  ⟨"args", fun d => d.argumentTypes.isSome, fun d cs => do
    let (v, r) ← Json.readList Json.readString cs
    return ({ d with argumentTypes := some v }, r)⟩,
  ⟨"argLabels", fun d => d.argumentNames.isSome, fun d cs => do
    let (v, r) ← Json.readList Json.readString cs
    return ({ d with argumentNames := some v }, r)⟩,
  ⟨"output", fun d => d.output.isSome, fun d cs => do
    let (v, r) ← Json.readList Json.readString cs
    return ({ d with output := some v }, r)⟩,
  ⟨"desc", fun d => d.description.isSome, fun d cs => do
    let (v, r) ← Json.readString cs
    return ({ d with description := some v }, r)⟩]

/-- Nothing is required of a flat command. -/
def finish (d : Draft) : FlatCommand :=
  ⟨d.command.getD none, d.argumentTypes.getD [], d.argumentNames.getD [], d.output.getD [],
    d.description.getD ""⟩

/-- Read a flat command. -/
def read : Json.Reader FlatCommand :=
  Json.readRecord "FlatCommand" fields {} (fun _ d => .ok (finish d))

end FlatCommand

namespace ScopedCommand

/-- A scoped command as far as it is read. -/
structure Draft where
  command : Option (Option String) := none
  arguments : Option (List Argument) := none
  output : Option (List String) := none
  description : Option String := none

/-- The fields of a scoped command. -/
def fields : List (Json.Field Draft) := [
  ⟨"command", fun d => d.command.isSome, fun d cs => do
    let (v, r) ← Json.readOptional Json.readString cs
    return ({ d with command := some v }, r)⟩,
  ⟨"args", fun d => d.arguments.isSome, fun d cs => do
    let (v, r) ← Json.readList Argument.read cs
    return ({ d with arguments := some v }, r)⟩,
  ⟨"output", fun d => d.output.isSome, fun d cs => do
    let (v, r) ← Json.readList Json.readString cs
    return ({ d with output := some v }, r)⟩,
  ⟨"desc", fun d => d.description.isSome, fun d cs => do
    let (v, r) ← Json.readString cs
    return ({ d with description := some v }, r)⟩]

/-- Nothing is required of a scoped command. -/
def finish (d : Draft) : ScopedCommand :=
  ⟨d.command.getD none, d.arguments.getD [], d.output.getD [], d.description.getD ""⟩

/-- Read a scoped command. -/
def read : Json.Reader ScopedCommand :=
  Json.readRecord "ScopedCommand" fields {} (fun _ d => .ok (finish d))

end ScopedCommand

namespace Schema

/-- A schema as far as it is read. -/
structure Draft where
  parent : Option (Option String) := none
  commands : Option (OrderedMap String FlatCommand) := none
  scopes : Option (OrderedMap String (OrderedMap String ScopedCommand)) := none

/-- The fields of a schema. -/
def fields : List (Json.Field Draft) := [
  ⟨"extends", fun d => d.parent.isSome, fun d cs => do
    let (v, r) ← Json.readOptional Json.readString cs
    return ({ d with parent := some v }, r)⟩,
  ⟨"commands", fun d => d.commands.isSome, fun d cs => do
    let (v, r) ← Json.readMap FlatCommand.read cs
    return ({ d with commands := some v }, r)⟩,
  ⟨"scopes", fun d => d.scopes.isSome, fun d cs => do
    let (v, r) ← Json.readMap (Json.readMap ScopedCommand.read) cs
    return ({ d with scopes := some v }, r)⟩]

/-- Nothing is required of a schema. -/
def finish (d : Draft) : Schema :=
  ⟨d.parent.getD none, d.commands.getD OrderedMap.empty, d.scopes.getD OrderedMap.empty⟩

/-- Read a schema document. -/
def read (text : String) : Except Json.Problem Schema :=
  Json.readWhole (Json.readRecord "SchemaDocument" fields {} (fun _ d => .ok (finish d)))
    text.toList

/-! ## Meaning -/

/-- The name of argument number `i`: its label, or a name made of its position, counted from
    one. -/
def argumentName (names : List String) (i : Nat) : String :=
  names[i]?.getD ("arg" ++ toString (i + 1))

/-- The command that a flat entry under `key` stands for. -/
def ofFlat (key : String) (c : FlatCommand) : Command where
  scope := baseScope
  command := c.command.getD key
  arguments := c.argumentTypes.mapIdx fun i type => ⟨argumentName c.argumentNames i, type, false⟩
  output := c.output
  description := c.description

/-- The command that an entry of a scope under `key` stands for. -/
def ofScoped (scope key : String) (c : ScopedCommand) : Command where
  scope := scope
  command := c.command.getD key
  arguments := c.arguments
  output := c.output
  description := c.description

/-- Add a command to its scope. -/
def declare (scopes : ScopeMap) (c : Command) : ScopeMap :=
  scopes.insert c.scope (((scopes.get? c.scope).getD OrderedMap.empty).insert c.key c)

/-- Make sure that a scope is there, be it empty. -/
def openScope (scopes : ScopeMap) (name : String) : ScopeMap :=
  match scopes.get? name with
  | some _ => scopes
  | none => scopes.insert name OrderedMap.empty

/-- Add the flat commands. -/
def declareFlat (scopes : ScopeMap) (commands : OrderedMap String FlatCommand) :
    ScopeMap :=
  commands.entries.foldl (fun scopes e => declare scopes (ofFlat e.1 e.2)) scopes

/-- Add the commands of one scope; it is there even if it has none. -/
def declareScope (scopes : ScopeMap) (name : String)
    (commands : OrderedMap String ScopedCommand) : ScopeMap :=
  commands.entries.foldl (fun scopes e => declare scopes (ofScoped name e.1 e.2))
    (openScope scopes name)

/-- Add the scoped commands. -/
def declareScoped (scopes : ScopeMap)
    (groups : OrderedMap String (OrderedMap String ScopedCommand)) : ScopeMap :=
  groups.entries.foldl (fun scopes e => declareScope scopes e.1 e.2) scopes

/-- The scopes that a schema declares. -/
def declared (s : Schema) : ScopeMap :=
  declareScoped (declareFlat OrderedMap.empty s.commands) s.scopes

/-- The runner that a schema extends: the name without blanks around it, if any is left. -/
def parentName (s : Schema) : Option String :=
  (s.parent.map Text.trimmed).filter (fun name => name ≠ "")

end Schema

/-- The runner that a schema text describes, with nothing inherited. -/
def Runner.ofText (name : String) (text : String) (document : Option DocumentId) :
    Except Json.Problem Runner := do
  let schema ← Schema.read text
  return Runner.ofDeclared name schema.parentName document schema.declared

end RunnerCatalog
