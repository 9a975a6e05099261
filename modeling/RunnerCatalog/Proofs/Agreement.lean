/-
  Hovering and completing show the same.

  The text that is shown for a command comes about in two ways.  Hovering starts from the text of
  the script: a scanner finds the call, the name is looked up in capitals, and the scope is the one
  that the script names.  Completing starts from the runner: all commands are listed, and each
  brings along its name and its scope.  The two agree because the commands of every runner that can
  be had are keyed.

  1. **Scenes** - a script in an editor, with the documents as they are and what was asked of the
     cache before (`Scene`).  Whatever runner a script uses is keyed (`Scene.keyed`).

  2. **Hovering** - over the call of a listed command it shows that command
     (`Scene.hover_of_calls`), and whatever it shows is a listed command (`Scene.exists_of_hover`).

  3. **Completing** - outside of arguments the general list has all scopes and then all commands
     (`Scene.complete_general`), and the list behind the dot those of the scope
     (`Scene.complete_dot`).

  4. **Agreement** - `hover_agrees_with_completion`.
-/
import RunnerCatalog.Proofs.Scanning
import RunnerCatalog.Proofs.WellFormed
import RunnerCatalog.Script.Assist

namespace RunnerCatalog

/-- All commands of a runner, scope by scope. -/
def Runner.listed (r : Runner) : List Command := r.scopes.keys.flatMap r.commandsIn

theorem Runner.mem_listed {r : Runner} {scope : String} {c : Command}
    (h : c ∈ r.commandsIn scope) : c ∈ r.listed := by
  refine List.mem_flatMap.mpr ⟨scope, ?_, h⟩
  unfold commandsIn at h
  split at h
  · next s hs => exact OrderedMap.mem_keys_of_get? hs
  · cases h

namespace Script

/-! ## Scenes -/

/-- A script that is open in an editor. -/
structure Scene where
  /-- What was asked of the cache before. -/
  turns : List Turn
  /-- The documents as they are now. -/
  source : Source
  /-- The text of the script. -/
  text : String

/-- A line that calls a command and has nothing else. -/
def Calls (line : List Char) (scope name : String) : Prop :=
  line = scope.toList ++ '.' :: name.toList ∨ scope = baseScope ∧ line = name.toList

namespace Scene

/-- Line number `n` of the script. -/
def line? (s : Scene) (n : Nat) : Option (List Char) := Text.lineAt s.text.toList n

/-- The script uses a runner: that is what is found for it. -/
def Uses (s : Scene) (settings : Settings) (r : Runner) : Prop :=
  (runnerFor s.source settings (Cache.after s.turns) s.text).value = some r

/-- What is shown when the cursor rests on a place. -/
def hover (s : Scene) (settings : Settings) (place : Place) : Option Hover :=
  (Script.hover s.source settings (Cache.after s.turns) s.text place).value

/-- What can be typed at a place. -/
def complete (s : Scene) (settings : Settings) (place : Place) (trigger : Trigger) : List Item :=
  (Script.complete s.source settings (Cache.after s.turns) s.text place trigger).value

/-- A place of the script that is not in the arguments of a command. -/
def Open (s : Scene) (place : Place) : Prop :=
  ∃ line, s.line? place.line = some line ∧
    inArguments (Text.bytes line) (Text.byteOffset line place.character) = false

/-- A place just behind a dot that follows the name of a scope, which is a whole word. -/
def DotAfter (s : Scene) (scope : String) (place : Place) : Prop :=
  ∃ before behind, s.line? place.line = some (before ++ scope.toList ++ '.' :: behind) ∧
    (∀ c ∈ before.getLast?, isWordChar c = false) ∧
    place.character = Text.unitLength (before ++ scope.toList ++ ['.'])

variable {s : Scene} {settings : Settings} {r : Runner} {place : Place} {scope : String}
  {c : Command}

theorem value_runnerFor (source : Source) (settings : Settings) (cache : Cache) (text : String) :
    (runnerFor source settings cache text).value =
      (cache.resolve source (runnerOf text settings.defaultRunner)).value := by
  simp only [runnerFor]
  split
  · rfl
  · rfl

/-- **The runner that a script uses** is keyed. -/
theorem keyed (h : s.Uses settings r) : r.Keyed := by
  rw [Uses, value_runnerFor] at h
  have hafter := (Cache.wellFormed_after s.turns).resolve s.source
    (runnerOf s.text settings.defaultRunner)
  exact (hafter _ r (Cache.loaded?_eq_some_iff.mp h)).derived.keyed

/-! ## Hovering -/

theorem callAt_of_calls {line : List Char} {name : String} (hs : IsPlain scope)
    (hn : IsPlain name) (h : Calls line scope name) :
    ∃ stop, callAt (Text.bytes line) 0 = some ⟨scope, name, stop⟩ := by
  rcases h with rfl | ⟨rfl, rfl⟩
  · exact ⟨_, callAt_dotted hs hn⟩
  · exact ⟨_, callAt_bare hn⟩

/-- **Over the call of a listed command** that command is shown. -/
theorem hover_of_calls (h : s.Uses settings r) (hc : c ∈ r.commandsIn scope) (hs : IsPlain scope)
    (hn : IsPlain (Text.uppercase c.command)) {n : Nat} {line : List Char}
    (hline : s.line? n = some line) (hcalls : Calls line scope (Text.uppercase c.command)) :
    ∃ shown, s.hover settings ⟨n, 0⟩ = some shown ∧
      shown.content = (Description.ofCommand scope c).markdown settings.languageId := by
  obtain ⟨stop, hcall⟩ := callAt_of_calls hs hn hcalls
  -- the name in capitals is the name in capitals of itself
  have hfound : r.command? scope (Text.uppercase c.command) = some c := by
    rw [Runner.command?_eq_lookup, uppercase_of_plain hn]
    exact Runner.command?_of_mem_commandsIn (keyed h).scopes hc
  have hdescribed : r.describe? scope (Text.uppercase c.command) =
      some (Description.ofCommand scope c) := by
    rw [Runner.describe?, hfound, Option.map_some]
  have hr : (runnerFor s.source settings (Cache.after s.turns) s.text).value = some r := h
  rw [hover, Script.hover, show Text.lineAt s.text.toList n = some line from hline]
  simp only [Text.byteOffset_zero, hcall, withValue, hr, Option.bind_some, hoverOn, hdescribed,
    Option.map_some]
  exact ⟨_, rfl, rfl⟩

/-- **Whatever is shown** is a listed command. -/
theorem exists_of_hover (h : s.Uses settings r) {shown : Hover}
    (hshown : s.hover settings place = some shown) :
    ∃ scope, ∃ c ∈ r.commandsIn scope,
      shown.content = (Description.ofCommand scope c).markdown settings.languageId := by
  rw [hover, Script.hover] at hshown
  split at hshown
  · cases hshown
  split at hshown
  · cases hshown
  next call hcall =>
  have hr : (runnerFor s.source settings (Cache.after s.turns) s.text).value = some r := h
  simp only [withValue, hr, Option.bind_some, hoverOn, Option.map_eq_some_iff] at hshown
  obtain ⟨d, hd, rfl⟩ := hshown
  obtain ⟨c, hc, rfl⟩ := Option.map_eq_some_iff.mp hd
  exact ⟨call.scope, c, Runner.mem_commandsIn.mpr ⟨_, hc⟩, rfl⟩

/-! ## Completing -/

theorem complete_of_open (h : s.Uses settings r) {line : List Char}
    (hline : s.line? place.line = some line)
    (hopen : inArguments (Text.bytes line) (Text.byteOffset line place.character) = false)
    (trigger : Trigger) :
    s.complete settings place trigger =
      itemsFor settings (Text.bytes line) (Text.byteOffset line place.character) trigger r := by
  have hr : (runnerFor s.source settings (Cache.after s.turns) s.text).value = some r := h
  rw [complete, Script.complete, show Text.lineAt s.text.toList place.line = some line from hline]
  simp only [hopen, Bool.false_eq_true, if_false, withValue, hr, Option.map_some, Option.getD_some]

/-- The scope under which a keyed runner lists a command is the one the command brings along. -/
theorem map_generalItem (hr : r.Keyed) (settings : Settings) (scope : String) :
    (r.commandsIn scope).map (generalItem settings scope) =
      (r.commandsIn scope).map fun c => generalItem settings c.scope c :=
  List.map_congr_left fun _ hc => by rw [Runner.scope_of_mem_commandsIn hr.scopes hc]

/-- **The general list** has the scopes and then all commands. -/
theorem complete_general (h : s.Uses settings r) (hopen : s.Open place) {trigger : Trigger}
    (htrigger : trigger ≠ .typed '.') :
    s.complete settings place trigger =
      r.scopes.keys.map Item.scope ++ r.listed.map fun c => generalItem settings c.scope c := by
  obtain ⟨line, hline, hopen⟩ := hopen
  rw [complete_of_open h hline hopen, itemsFor, if_neg htrigger, generalItems, Runner.listed,
    List.map_flatMap]
  simp only [map_generalItem (keyed h)]

/-- **The list behind a dot** has the commands of the scope in front of it. -/
theorem complete_dot (h : s.Uses settings r) (hopen : s.Open place) (hs : IsPlain scope)
    (hdot : s.DotAfter scope place) :
    s.complete settings place (.typed '.') = (r.commandsIn scope).map (dotItem settings) := by
  obtain ⟨line, hline, hopen⟩ := hopen
  obtain ⟨before, behind, hline', hbefore, hcharacter⟩ := hdot
  obtain rfl := Option.some.inj (hline.symm.trans hline')
  have hcursor : Text.byteOffset (before ++ scope.toList ++ '.' :: behind) place.character =
      (Text.bytes (before ++ scope.toList ++ ['.'])).length := by
    rw [hcharacter, ← Text.byteOffset_append _ behind, List.append_assoc _ ['.']]
    rfl
  rw [complete_of_open h hline hopen, itemsFor, if_pos rfl, hcursor,
    scopeBeforeDot_of_scope hs hbefore]
  rfl

end Scene

/-! ## Agreement -/

/-- **Hovering and completing agree**, for all scripts that use one runner.  Over a line that calls
    a command by its name in capitals, hovering shows exactly what the item of that command says in
    the general list and in the list behind a dot that follows its scope.  And whatever hovering
    shows, the general list has an item that says exactly that. -/
theorem hover_agrees_with_completion (settings : Settings) {r : Runner} {here there : Scene}
    (hhere : here.Uses settings r) (hthere : there.Uses settings r) :
    (∀ scope, ∀ c ∈ r.commandsIn scope, IsPlain scope → IsPlain (Text.uppercase c.command) →
        ∀ n line, here.line? n = some line → Calls line scope (Text.uppercase c.command) →
          ∃ shown, here.hover settings ⟨n, 0⟩ = some shown ∧
            (∀ place trigger, there.Open place → trigger ≠ .typed '.' →
              ∃ (i : Nat) (title : String), r.listed[i]? = some c ∧
                (there.complete settings place trigger)[r.scopes.keys.length + i]? =
                  some (Item.command (qualifiedName scope c.command) title shown.content none)) ∧
            ∀ place, there.Open place → there.DotAfter scope place →
              ∃ (i : Nat) (title : String), (r.commandsIn scope)[i]? = some c ∧
                (there.complete settings place (.typed '.'))[i]? =
                  some (Item.command (scope ++ "." ++ c.command) title shown.content
                    (some c.command))) ∧
      ∀ place shown, here.hover settings place = some shown →
        ∀ place' trigger, there.Open place' → trigger ≠ .typed '.' →
          ∃ label title,
            Item.command label title shown.content none ∈
              there.complete settings place' trigger := by
  have hkeyed := Scene.keyed hhere
  refine ⟨fun scope c hc hs hn n line hline hcalls => ?_,
    fun place shown hshown place' trigger hopen htrigger => ?_⟩
  · obtain ⟨shown, hshown, hcontent⟩ := Scene.hover_of_calls hhere hc hs hn hline hcalls
    -- the scope in the script is the one that the command brings along
    obtain rfl := Runner.scope_of_mem_commandsIn hkeyed.scopes hc
    refine ⟨shown, hshown, fun place trigger hopen htrigger => ?_, fun place hopen hdot => ?_⟩
    · obtain ⟨i, hi⟩ := List.mem_iff_getElem?.mp (Runner.mem_listed hc)
      refine ⟨i, (Description.ofCommand c.scope c).title, hi, ?_⟩
      rw [Scene.complete_general hthere hopen htrigger, hcontent, ← List.length_map Item.scope,
        List.getElem?_append_right (Nat.le_add_right _ _), Nat.add_sub_cancel_left,
        List.getElem?_map, hi]
      rfl
    · obtain ⟨i, hi⟩ := List.mem_iff_getElem?.mp hc
      refine ⟨i, (Description.ofCommand c.scope c).title, hi, ?_⟩
      rw [Scene.complete_dot hthere hopen hs hdot, hcontent, List.getElem?_map, hi]
      rfl
  · obtain ⟨scope, c, hc, hcontent⟩ := Scene.exists_of_hover hhere hshown
    obtain rfl := Runner.scope_of_mem_commandsIn hkeyed.scopes hc
    refine ⟨qualifiedName c.scope c.command, (Description.ofCommand c.scope c).title, ?_⟩
    rw [Scene.complete_general hthere hopen htrigger, hcontent]
    exact List.mem_append_right _ (List.mem_map_of_mem (Runner.mem_listed hc))

/-- A runner with a scope, whose parent has a command of `BASE`. -/
def logging : Shelf := ⟨OrderedMap.ofList [
  ("plain", "\x7b\"commands\": \x7b\"wait\": \x7b\x7d\x7d\x7d"),
  ("log",
    "\x7b\"extends\": \"plain\", \"scopes\": \x7b\"UTIL\": \x7b\"log\": \x7b\x7d\x7d\x7d\x7d")], []⟩

/-- A script that calls its command, and another one that is being written. -/
def loggingScene : Scene := ⟨[], logging.source, "// runner: log\nUTIL.LOG\n@x: UTIL."⟩

def logCommand : Command := ⟨"UTIL", "log", [], [], ""⟩

/-- The runner as it is found for the script. -/
def loggingRunner : Runner :=
  (Runner.ofDeclared "log" (some "plain") (some (Shelf.documentOf "log"))
    (.ofList [("UTIL", .ofList [("LOG", logCommand)])])).inherit
      (.ofDeclared "plain" none (some (Shelf.documentOf "plain"))
        (.ofList [("BASE", .ofList [("WAIT", ⟨"BASE", "wait", [], [], ""⟩)])]))

/-- What is shown over the call in the second line is what the item says behind the dot in the third
    line, and what an item of the general list says there. -/
theorem hover_agrees_over_call :
    loggingScene.Uses {} loggingRunner ∧
      ∃ shown, loggingScene.hover {} ⟨1, 0⟩ = some shown ∧
        (∃ (i : Nat) (title : String), (loggingScene.complete {} ⟨2, 9⟩ (.typed '.'))[i]? =
          some (.command "UTIL.log" title shown.content (some "log"))) ∧
        ∃ label title,
          Item.command label title shown.content none ∈
            loggingScene.complete {} ⟨2, 9⟩ .invoked := by
  have huses : loggingScene.Uses {} loggingRunner := by
    show (runnerFor _ _ _ _).value = some loggingRunner
    decide +kernel
  have hopen : loggingScene.Open ⟨2, 9⟩ := ⟨"@x: UTIL.".toList, by decide, by decide⟩
  have hdot : loggingScene.DotAfter "UTIL" ⟨2, 9⟩ := by
    refine ⟨"@x: ".toList, [], by decide, fun c hc => ?_, by decide⟩
    obtain rfl : ' ' = c := Option.some.inj hc
    decide
  have hscope : IsPlain "UTIL" := by decide
  have hname : IsPlain (Text.uppercase logCommand.command) := by decide
  obtain ⟨hcommand, hshown⟩ := hover_agrees_with_completion {} huses huses
  obtain ⟨shown, hhover, -, hbehind⟩ := hcommand "UTIL" logCommand (by decide) hscope hname 1
    "UTIL.LOG".toList (by decide) (.inl (by decide))
  obtain ⟨i, title, -, hitem⟩ := hbehind ⟨2, 9⟩ hopen hdot
  exact ⟨huses, shown, hhover, ⟨i, title, hitem⟩,
    hshown ⟨1, 0⟩ shown hhover ⟨2, 9⟩ .invoked hopen (by decide)⟩

end Script

end RunnerCatalog
