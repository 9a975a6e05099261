/-
  What the commands answer.

  A command answers on its output, or complains and answers nothing.  Everything works on the
  tree of files below the current directory.
-/
import RunnerCatalog.CommandLine.Arguments
import RunnerCatalog.Runner.Written
import RunnerCatalog.Settings.File
import RunnerCatalog.Workspace

namespace RunnerCatalog.CommandLine

/-- Why a command cannot answer. -/
inductive Complaint
  | unreadable (file : String) (error : Files.PathError)
  | noSchema (runner : String)
  deriving DecidableEq, Repr

/-- The wording of a complaint, with its cause below it. -/
def Complaint.describe : Complaint → String
  | unreadable file error =>
    "Error: failed to read " ++ file ++ "\n\nCaused by:\n    " ++ error.describe ++ "\n"
  | noSchema runner => "Error: no schema for runner " ++ runner ++ "\n"

/-- What a command leaves behind: its exit code, its output, its complaint, and what happened
    on the way. -/
structure Outcome where
  code : UInt32
  output : String
  complaint : Option Complaint
  trace : List Event

/-- The outcome of a command that answers. -/
def Outcome.answer (output : String) (trace : List Event) : Outcome := ⟨0, output, none, trace⟩

/-- The outcome of a command that complains. -/
def Outcome.complain (complaint : Complaint) (trace : List Event) : Outcome :=
  ⟨1, "", some complaint, trace⟩

/-- The usage of the program. -/
def usage : String :=
  "Usage: [-w DIR] hover FILE LINE COL\n"
    ++ "       [-w DIR] complete FILE LINE COL [--dot]\n"
    ++ "       [-w DIR] schema [RUNNER]\n"
    ++ "       [-w DIR] runner FILE\n"

/-- Texts as lines. -/
def asLines (texts : List String) : String := String.join (texts.map fun t => t ++ "\n")

/-- Answer about a script, if it can be read. -/
def withScript (tree : Files.Tree) (file : String) (trace : List Event)
    (answer : String → Outcome) : Outcome :=
  match tree.readText file with
  | .ok text => answer text
  | .error e => .complain (.unreadable file e) trace

/-- Carry out a command. -/
def Invocation.run (i : Invocation) (tree : Files.Tree) : Outcome :=
  let (settings, trace) := Settings.load tree i.root
  let source := (Workspace.mk i.root settings.schemaDir []).source tree
  let cache : Cache := OrderedMap.empty
  match i.request with
  | .hover file place =>
    withScript tree file trace fun text =>
      let a := Script.hover source settings cache text place
      .answer (asLines (a.value.toList.map Script.Hover.content)) (trace ++ a.trace)
  | .complete file place dot =>
    withScript tree file trace fun text =>
      let trigger := if dot then .typed '.' else .invoked
      let a := Script.complete source settings cache text place trigger
      .answer (asLines (a.value.map Script.Item.label)) (trace ++ a.trace)
  | .schema runner =>
    let id := runner.getD settings.defaultRunner
    let a := cache.resolve source id
    match a.value with
    | some r => .answer (asLines [r.text .indented]) (trace ++ a.trace)
    | none => .complain (.noSchema id) (trace ++ a.trace)
  | .runner file =>
    withScript tree file trace fun text =>
      .answer (asLines [Script.runnerOf text settings.defaultRunner]) trace

/-- The outcome of a command line in a directory. -/
def run (tree : Files.Tree) (arguments : List String) : Outcome :=
  match Invocation.ofArguments arguments with
  | .ok i => i.run tree
  | .error .help => .answer usage []
  | .error .misuse => ⟨2, "", none, []⟩

end RunnerCatalog.CommandLine
