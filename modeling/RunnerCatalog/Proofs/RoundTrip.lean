/-
  Reading a written runner.

  The text of a runner is a schema of its own.  Read again, it gives the runner back: the same
  name and parent, and the same scopes in the same order.

  1. **Records** - arguments, commands and scopes are read back one inside the other
     (`readsBack_argument`, `readsBack_command`, `readsBack_scopes`).  A command is written with
     the scope that it names, which no reader looks at.

  2. **The document** - so reading the text gives the schema that lists the scopes as they are
     (`Runner.schema`, `read_text`).

  3. **Its meaning** - a schema goes by the names of commands and not by its keys.  In keyed scopes
     the two agree, so declaring them again changes nothing (`declareScope_of_keyed`,
     `declared_schema`), and neither does trimming the parent's name (`parentName_schema`).

  4. **The runner** - every runner that comes from schema texts is keyed, so it is read back
     (`ofText_text`).
-/
import RunnerCatalog.Proofs.Keyed
import RunnerCatalog.Proofs.ReadBack
import RunnerCatalog.Runner.Written

namespace RunnerCatalog

open Json
open OrderedMap (empty)

/-! ## Maps with other values -/

namespace OrderedMap

variable {κ α β : Type}

/-- The same keys in the same order, each with another value. -/
def mapValues (f : α → β) (m : OrderedMap κ α) : OrderedMap κ β where
  entries := m.entries.map fun e => (e.1, f e.2)
  nodup := by
    rw [List.map_map]
    exact m.nodup

variable [DecidableEq κ]

/-- Of two values for one key the later counts. -/
theorem insert_insert (m : OrderedMap κ α) (k : κ) (v w : α) :
    (m.insert k v).insert k w = m.insert k w := by
  have hput (l : List (κ × α)) : putEntry k w (putEntry k v l) = putEntry k w l := by
    induction l with
    | nil => simp [putEntry]
    | cons e r ih =>
      by_cases h : e.1 = k
      · simp [putEntry, h]
      · simp [putEntry, h, ih]
  exact ext (hput m.entries)

end OrderedMap

/-! ## Records -/

theorem readsBack_argument (a : Argument) : ReadsBack Argument.read a.write a := by
  refine readsBack_record ⟨some a.name, some a.type, some a.optional⟩ ?_ rfl
  refine .set (readsBack_string _) (fun v => ⟨some v, none, none⟩) rfl rfl rfl ?_
  refine .set (readsBack_string _) (fun v => ⟨some a.name, some v, none⟩) rfl rfl rfl ?_
  refine .set (readsBack_boolean _) (fun v => ⟨some a.name, some a.type, some v⟩) rfl rfl rfl ?_
  exact .done

/-- The entry of a schema that a command is written as. -/
def ScopedCommand.ofCommand (c : Command) : ScopedCommand where
  command := some c.command
  arguments := c.arguments
  output := c.output
  description := c.description

/-- Elements that are each read back. -/
theorem readsBack_map_list {α : Type} {read : Reader α} {write : α → Writer}
    (h : ∀ v, ReadsBack read (write v) v) (vs : List α) :
    ReadsBack (readList read) (writeList (vs.map write)) vs :=
  readsBack_list (List.forall₂_map_left_iff.mpr (List.forall₂_same.mpr fun v _ => h v))

theorem readsBack_command (c : Command) :
    ReadsBack ScopedCommand.read c.write (.ofCommand c) := by
  refine readsBack_record
    ⟨some (some c.command), some c.arguments, some c.output, some c.description⟩ ?_ rfl
  -- the scope is passed over
  refine .unknown rfl (passedOver_string _) ?_
  refine .set (readsBack_optional _) (fun v => ⟨some v, none, none, none⟩) rfl rfl rfl ?_
  refine .set (readsBack_map_list readsBack_argument _)
    (fun v => ⟨some (some c.command), some v, none, none⟩) rfl rfl rfl ?_
  refine .set (readsBack_map_list readsBack_string _)
    (fun v => ⟨some (some c.command), some c.arguments, some v, none⟩) rfl rfl rfl ?_
  refine .set (readsBack_string _)
    (fun v => ⟨some (some c.command), some c.arguments, some c.output, some v⟩) rfl rfl rfl ?_
  exact .done

/-- Maps whose values are each read back, be it as other values. -/
theorem readsBack_mapValues {α β : Type} {read : Reader β} {write : α → Writer} {f : α → β}
    (h : ∀ v, ReadsBack read (write v) (f v)) (m : OrderedMap String α) :
    ReadsBack (readMap read) (writeObject (m.entries.map fun e => (e.1, write e.2)))
      (m.mapValues f) := by
  refine readsBack_map ?_
  rw [OrderedMap.mapValues, List.forall₂_map_left_iff, List.forall₂_map_right_iff,
    List.forall₂_same]
  intro e _
  exact ⟨rfl, h e.2⟩

theorem readsBack_scopes (scopes : ScopeMap) :
    ReadsBack (readMap (readMap ScopedCommand.read)) (writeScopes scopes)
      (scopes.mapValues fun s => s.mapValues ScopedCommand.ofCommand) :=
  readsBack_mapValues (readsBack_mapValues readsBack_command) scopes

/-! ## The document -/

/-- The schema that a runner is written as. -/
def Runner.schema (r : Runner) : Schema where
  parent := r.parent
  commands := empty
  scopes := r.scopes.mapValues fun s => s.mapValues ScopedCommand.ofCommand

theorem readsBack_schema (r : Runner) :
    ReadsBack (readRecord "SchemaDocument" Schema.fields {} (fun _ d => .ok (Schema.finish d)))
      r.write r.schema := by
  obtain ⟨name, parent, document, declared, scopes⟩ := r
  cases parent with
  | none =>
    refine readsBack_record ⟨none, none, some _⟩ ?_ rfl
    refine .unknown rfl (passedOver_string _) ?_
    refine .set (readsBack_scopes _) (fun v => ⟨none, none, some v⟩) rfl rfl rfl ?_
    exact .done
  | some parent =>
    refine readsBack_record ⟨some (some parent), none, some _⟩ ?_ rfl
    refine .unknown rfl (passedOver_string _) ?_
    refine .set (readsBack_optional _) (fun v => ⟨some v, none, none⟩) rfl rfl rfl ?_
    refine .set (readsBack_scopes _) (fun v => ⟨some (some parent), none, some v⟩) rfl rfl rfl ?_
    exact .done

/-- A text that holds what was written and nothing else. -/
theorem readWhole_written {α : Type} {read : Reader α} {write : Writer} {v : α}
    (h : ReadsBack read write v) (layout : Layout) :
    readWhole read (write layout 0) = .ok v := by
  have hread := h.read layout 0 []
  rw [List.append_nil] at hread
  simp [readWhole, hread, skipSpace, bind, Except.bind, pure, Except.pure]

theorem read_text (r : Runner) (layout : Layout) :
    Schema.read (r.text layout) = .ok r.schema := by
  rw [Schema.read, Runner.text, String.toList_ofList]
  exact readWhole_written (readsBack_schema r) layout

/-! ## Its meaning -/

namespace Schema

/-- A command that is declared in a scope of this name goes into that scope. -/
theorem declare_insert (scopes : ScopeMap) (s : Scope) (c : Command) :
    declare (scopes.insert c.scope s) c = scopes.insert c.scope (s.insert c.key c) := by
  rw [declare, OrderedMap.get?_insert, if_pos rfl, Option.getD_some, OrderedMap.insert_insert]

/-- Commands of one scope are declared into it one after the other. -/
theorem declareAll_insert {name : String} {es : List (String × Command)}
    (hes : ∀ e ∈ es, e.2.scope = name ∧ e.2.key = e.1) (scopes : ScopeMap) (s : Scope) :
    es.foldl (fun scopes e => declare scopes (ofScoped name e.1 (.ofCommand e.2)))
        (scopes.insert name s) =
      scopes.insert name (s.insertAll es) := by
  induction es generalizing s with
  | nil => rfl
  | cons e es ih =>
    obtain ⟨hscope, hkey⟩ := hes e List.mem_cons_self
    have hcommand : ofScoped name e.1 (.ofCommand e.2) = e.2 := by
      rw [← hscope]
      rfl
    have hdeclare := declare_insert scopes s e.2
    rw [hscope, hkey] at hdeclare
    rw [List.foldl_cons, hcommand, hdeclare, ih fun e' he' => hes e' (List.mem_cons_of_mem _ he')]
    rfl

/-- **A new scope** with commands that stand under their names is declared as it is. -/
theorem declareScope_of_keyed {scopes : ScopeMap} {name : String} (hnew : name ∉ scopes.keys)
    {s : Scope} (hs : ∀ e ∈ s.entries, e.2.scope = name ∧ e.2.key = e.1) :
    declareScope scopes name (s.mapValues ScopedCommand.ofCommand) = scopes.insert name s := by
  rw [declareScope, openScope, OrderedMap.get?_eq_none_iff.mpr hnew, OrderedMap.mapValues,
    List.foldl_map]
  show s.entries.foldl (fun scopes e => declare scopes (ofScoped name e.1 (.ofCommand e.2)))
    (scopes.insert name empty) = _
  rw [declareAll_insert hs]
  exact congrArg (scopes.insert name) (OrderedMap.empty_override s)

end Schema

theorem ScopeMap.Keyed.entries {scopes : ScopeMap} (h : scopes.Keyed) :
    ∀ e ∈ OrderedMap.entries scopes, ∀ e' ∈ e.2.entries, e'.2.scope = e.1 ∧ e'.2.key = e'.1 := by
  intro e he e' he'
  refine h e.1 e'.1 e'.2 ?_
  rw [ScopeMap.lookup, OrderedMap.get?_eq_some_iff.mpr he]
  exact OrderedMap.get?_eq_some_iff.mpr he'

/-- Keyed scopes are declared as they are, order included. -/
theorem declared_schema {r : Runner} (h : r.scopes.Keyed) : r.schema.declared = r.scopes := by
  rw [Schema.declared, Schema.declareScoped, Runner.schema, OrderedMap.mapValues, List.foldl_map]
  exact OrderedMap.foldl_empty r.scopes fun e he scopes hnew =>
    Schema.declareScope_of_keyed hnew (h.entries e he)

/-- A trimmed parent is found as it is. -/
theorem parentName_schema {r : Runner} (h : ∀ {name : String}, r.parent = some name →
    IsParentName name) : r.schema.parentName = r.parent := by
  rw [Schema.parentName, Runner.schema]
  cases hp : r.parent with
  | none => rfl
  | some name =>
    obtain ⟨htrimmed, hne⟩ := h hp
    simp [Option.filter, htrimmed, hne]

/-! ## The runner -/

/-- **A written runner** is read back, in either layout: with its name and its parent, and with
    all its scopes, the inherited ones too, in their order.  What it does not say is the document
    that it came from, so that is the one it is read from now, and which scopes were inherited, so
    all are declared now. -/
theorem ofText_text {r : Runner} (h : r.Derived) (layout : Layout)
    (document : Option DocumentId) :
    Runner.ofText r.name (r.text layout) document =
      .ok (Runner.ofDeclared r.name r.parent document r.scopes) := by
  rw [Runner.ofText, read_text]
  have hkeyed := h.keyed
  show Except.ok (Runner.ofDeclared r.name r.schema.parentName document r.schema.declared) = _
  rw [parentName_schema hkeyed.parent, declared_schema hkeyed.scopes]

/-- A schema with a flat command, whose description needs escapes. -/
def plainText : String :=
  "\x7b\"commands\": \x7b\"go\": \x7b\"command\": \"wait\", \"desc\": \"a\\n\\\"b\\\"\"\x7d\x7d\x7d"

/-- A schema with a scope, and blanks around the name of its parent. -/
def heirText : String :=
  "\x7b\"extends\": \" plain \", \"scopes\": \x7b\"Util\": \x7b\"log\": \x7b\x7d\x7d\x7d\x7d"

def plainScopes : ScopeMap :=
  .ofList [("BASE", .ofList [("WAIT", ⟨"BASE", "wait", [], [], "a\n\"b\""⟩)])]

def heirScopes : ScopeMap :=
  .ofList [("Util", .ofList [("LOG", ⟨"Util", "log", [], [], ""⟩)])]

theorem ofText_plainText :
    Runner.ofText "plain" plainText none = .ok (.ofDeclared "plain" none none plainScopes) :=
  rfl

theorem ofText_heirText :
    Runner.ofText "heir" heirText none = .ok (.ofDeclared "heir" (some "plain") none heirScopes) :=
  rfl

/-- The one inherits the other, and is read back with both scopes, the inherited one first. -/
theorem ofText_text_heir :
    let heir := (Runner.ofDeclared "heir" (some "plain") none heirScopes).inherit
      (.ofDeclared "plain" none none plainScopes)
    heir.scopes.entries = plainScopes.entries ++ heirScopes.entries ∧
      Runner.ofText "heir" (heir.text .indented) none =
        .ok (.ofDeclared "heir" (some "plain") none heir.scopes) :=
  ⟨by decide, ofText_text (.inherit (.read ofText_heirText) (.read ofText_plainText)) _ none⟩

end RunnerCatalog
