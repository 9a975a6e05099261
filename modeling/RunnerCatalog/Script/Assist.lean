/-
  Help for the author of a script.

  Both kinds of help find the runner of the script first (`runnerFor`).  `hover` describes the
  command under the cursor.  `complete` lists what can be typed: in general the scopes and all
  commands, behind a dot the commands of the scope in front of it, and nothing at all in the
  arguments of a command.  A place is a line and a number of UTF-16 units in it.
-/
import RunnerCatalog.Description
import RunnerCatalog.Script.Call
import RunnerCatalog.Script.Directive
import RunnerCatalog.Settings
import RunnerCatalog.Store.Resolve

namespace RunnerCatalog.Script

/-- A place in a script, as an editor gives it. -/
structure Place where
  line : Nat
  character : Nat
  deriving DecidableEq, Repr

/-- The answer with another value. -/
def withValue {α β : Type} (a : Answer α) (b : β) : Answer β := ⟨b, a.cache, a.trace⟩

/-- The runner that a script uses, if it is to be had. -/
def runnerFor (source : Source) (settings : Settings) (cache : Cache) (text : String) :
    Answer (Option Runner) :=
  let id := runnerOf text settings.defaultRunner
  let a := cache.resolve source id
  match a.value with
  | some _ => a
  | none => { a with trace := a.trace ++ [.noted (.noSchema id)] }

/-! ## Hovering -/

/-- What is shown when the cursor rests on a command, and the part of the line it is about. -/
structure Hover where
  content : String
  start : Place
  stop : Place
  deriving DecidableEq, Repr

/-- The description of a call, for a runner. -/
def hoverOn (settings : Settings) (line : Nat) (call : Call) (r : Runner) : Option Hover :=
  (r.describe? call.scope call.command).map fun d =>
    ⟨d.markdown settings.languageId, ⟨line, 0⟩, ⟨line, call.stop⟩⟩

/-- Describe the command at a place. -/
def hover (source : Source) (settings : Settings) (cache : Cache) (text : String)
    (place : Place) : Answer (Option Hover) :=
  match Text.lineAt text.toList place.line with
  | none => ⟨none, cache, []⟩
  | some line =>
    match callAt (Text.bytes line) (Text.byteOffset line place.character) with
    | none => ⟨none, cache, []⟩
    | some call =>
      let a := runnerFor source settings cache text
      withValue a (a.value.bind (hoverOn settings place.line call))

/-! ## Completing -/

/-- What made the editor ask. -/
inductive Trigger
  | invoked
  | typed (c : Char)
  deriving DecidableEq, Repr

/-- An entry of a completion list. -/
inductive Item
  /-- A scope. -/
  | scope (label : String)
  /-- A command; `insert` is what is typed for it, and what it is sorted by, if that is not
      the label. -/
  | command (label title documentation : String) (insert : Option String)
  deriving DecidableEq, Repr

/-- The text by which an item is shown. -/
def Item.label : Item → String
  | scope label => label
  | command label _ _ _ => label

/-- The entry in the general list for a command that is listed under `scope`: the commands of
    `BASE` stand there by their bare names. -/
def generalItem (settings : Settings) (scope : String) (c : Command) : Item :=
  let d := Description.ofCommand c.scope c
  .command (if scope = baseScope then c.command else c.scope ++ "." ++ c.command) d.title
    (d.markdown settings.languageId) none

/-- The entry for a command behind a dot. -/
def dotItem (settings : Settings) (c : Command) : Item :=
  let d := Description.ofCommand c.scope c
  .command (c.scope ++ "." ++ c.command) d.title (d.markdown settings.languageId)
    (some c.command)

/-- The list behind a dot that follows the name of a scope. -/
def dotItems (settings : Settings) (r : Runner) (scope : String) : List Item :=
  (r.commandsIn scope).map (dotItem settings)

/-- The general list: all scopes, then all commands. -/
def generalItems (settings : Settings) (r : Runner) : List Item :=
  r.scopes.keys.map Item.scope
    ++ r.scopes.keys.flatMap fun scope => (r.commandsIn scope).map (generalItem settings scope)

/-- The list for a runner. -/
def itemsFor (settings : Settings) (line : List UInt8) (cursor : Nat) (trigger : Trigger)
    (r : Runner) : List Item :=
  if trigger = .typed '.' then
    match scopeBeforeDot line cursor with
    | some scope => dotItems settings r scope
    | none => []
  else generalItems settings r

/-- List what can be typed at a place. -/
def complete (source : Source) (settings : Settings) (cache : Cache) (text : String)
    (place : Place) (trigger : Trigger) : Answer (List Item) :=
  match Text.lineAt text.toList place.line with
  | none => ⟨[], cache, []⟩
  | some line =>
    let cursor := Text.byteOffset line place.character
    if inArguments (Text.bytes line) cursor then ⟨[], cache, []⟩
    else
      let a := runnerFor source settings cache text
      withValue a ((a.value.map (itemsFor settings (Text.bytes line) cursor trigger)).getD [])

end RunnerCatalog.Script
