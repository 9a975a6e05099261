/-
  The written form of a runner.

  A runner is written as a schema of the newer shape that holds all its scopes, the inherited
  ones too: its name, the runner it extends if there is one, and under each scope name the
  commands by their uppercase names.  Reading that text again gives the same scopes.
-/
import RunnerCatalog.Json.Writer
import RunnerCatalog.Runner

namespace RunnerCatalog

open Json (Writer writeString writeBoolean writeList writeObject)

/-- Write an argument. -/
def Argument.write (a : Argument) : Writer :=
  writeObject [
    ("name", writeString a.name),
    ("type", writeString a.type),
    ("optional", writeBoolean a.optional)]

/-- Write a command. -/
def Command.write (c : Command) : Writer :=
  writeObject [
    ("scope", writeString c.scope),
    ("command", writeString c.command),
    ("args", writeList (c.arguments.map Argument.write)),
    ("output", writeList (c.output.map writeString)),
    ("desc", writeString c.description)]

/-- Write scopes. -/
def writeScopes (scopes : ScopeMap) : Writer :=
  writeObject (scopes.entries.map fun e =>
    (e.1, writeObject (e.2.entries.map fun e => (e.1, e.2.write))))

namespace Runner

/-- Write a runner. -/
def write (r : Runner) : Writer :=
  writeObject (
    [("name", writeString r.name)]
      ++ (match r.parent with
          | some parent => [("extends", writeString parent)]
          | none => [])
      ++ [("scopes", writeScopes r.scopes)])

/-- The text of a runner. -/
def text (r : Runner) (layout : Json.Layout) : String := String.ofList (r.write layout 0)

end Runner

end RunnerCatalog
