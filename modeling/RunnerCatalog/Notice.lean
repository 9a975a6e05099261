/-
  What is reported while schemas are loaded.

  Operations answer quietly: whatever goes wrong with a schema, a runner is still found or
  not.  What happened on the way is told by notices, of three levels.  The trace of an
  operation lists its notices together with the calls it made to the source.
-/
import RunnerCatalog.Failure
import RunnerCatalog.Document

namespace RunnerCatalog

/-- How serious a notice is. -/
inductive Level
  | warning
  | information
  | detail
  deriving DecidableEq, Repr

/-- The rank of a level; the most serious has rank zero. -/
def Level.rank : Level → Nat
  | warning => 0
  | information => 1
  | detail => 2

/-- The name of a level. -/
def Level.name : Level → String
  | warning => "WARN"
  | information => "INFO"
  | detail => "DEBUG"

/-- Something to report. -/
inductive Notice
  /-- No document belongs to the runner. -/
  | noDocument (runner : String)
  /-- The search for the document of the runner failed. -/
  | searchFailed (runner : String) (failure : Failure)
  /-- The document of the runner cannot be used; it gets no commands. -/
  | unusable (runner : String) (failure : Failure)
  /-- The runner is loaded. -/
  | loaded (runner : String) (document : String)
  /-- The runner keeps its own commands only. -/
  | notMerged (runner : String) (failure : Failure)
  /-- The runner extends one that is not there. -/
  | unknownParent (runner parent : String)
  /-- A changed document is no runner's. -/
  | unrelated (document : DocumentId)
  /-- The runner is read again because its document changed. -/
  | rereading (runner : String) (document : DocumentId)
  /-- The changed document cannot be used; its runner loses its commands. -/
  | notReread (runner : String) (failure : Failure)
  /-- The runner is merged again over its parent. -/
  | rebuilt (runner parent : String)
  /-- All runners are forgotten. -/
  | clearing (count : Nat)
  /-- A script asks for a runner that is not there. -/
  | noSchema (runner : String)
  /-- The settings cannot be used. -/
  | settingsIgnored (path reason : String)
  deriving DecidableEq, Repr

namespace Notice

/-- The level of a notice. -/
def level : Notice → Level
  | noDocument _ => .detail
  | searchFailed _ _ => .warning
  | unusable _ _ => .warning
  | loaded _ _ => .information
  | notMerged _ _ => .warning
  | unknownParent _ _ => .warning
  | unrelated _ => .detail
  | rereading _ _ => .detail
  | notReread _ _ => .warning
  | rebuilt _ _ => .detail
  | clearing _ => .information
  | noSchema _ => .detail
  | settingsIgnored _ _ => .warning

/-- The wording of a notice. -/
def describe : Notice → String
  | noDocument runner => (Failure.notFound runner).describe
  | searchFailed runner failure =>
    "Schema search for runner " ++ runner ++ " failed: " ++ failure.describe
  | unusable runner failure => "Runner " ++ runner ++ " unusable: " ++ failure.describe
  | loaded runner document => "Loaded runner " ++ runner ++ " from " ++ document
  | notMerged runner failure =>
    "Runner " ++ runner ++ " not merged with its parent: " ++ failure.describe
  | unknownParent runner parent => "Runner " ++ runner ++ " extends unknown runner " ++ parent
  | unrelated document =>
    "Change to " ++ document.path ++ " does not belong to a cached runner"
  | rereading runner document =>
    "Re-parsing runner " ++ runner ++ " after change to " ++ document.path
  | notReread runner failure => "Runner " ++ runner ++ " failed to reload: " ++ failure.describe
  | rebuilt runner parent => "Rebuilt runner " ++ runner ++ " over " ++ parent
  | clearing count => "Clearing " ++ toString count ++ " cached runner(s)"
  | noSchema runner => "No schema for runner " ++ runner
  | settingsIgnored path reason => "Ignoring malformed " ++ path ++ ": " ++ reason

end Notice

/-- A step of an operation. -/
inductive Event
  /-- The source was asked for the document of a runner. -/
  | located (runner : String)
  /-- The source was asked for the text of a document. -/
  | wasRead (document : DocumentId)
  /-- A notice was given. -/
  | noted (notice : Notice)
  deriving DecidableEq, Repr

/-- The notices of a trace at a level or a more serious one. -/
def noticesUpTo (level : Level) (trace : List Event) : List Notice :=
  trace.filterMap fun e =>
    match e with
    | .noted n => if n.level.rank ≤ level.rank then some n else none
    | _ => none

/-- How often a trace asks for the document of a runner. -/
def countLocated (trace : List Event) : Nat :=
  trace.countP fun e => match e with
    | .located _ => true
    | _ => false

/-- How often a trace asks for the text of a document. -/
def countRead (trace : List Event) : Nat :=
  trace.countP fun e => match e with
    | .wasRead _ => true
    | _ => false

end RunnerCatalog
