/-
  The settings of a workspace on file.

  They stand in `.catscript/config.yaml`, as a YAML mapping of texts.  Any of them may be
  missing, and keys that are no setting do not count.  A file that cannot be read is as good as
  none; one that is wrong is reported and then counts as none, too.
-/
import RunnerCatalog.Files.Tree
import RunnerCatalog.Notice
import RunnerCatalog.Settings
import RunnerCatalog.Text.Blank
import RunnerCatalog.Text.Quoted
import RunnerCatalog.Yaml.Event
import RunnerCatalog.Yaml.Writer

namespace RunnerCatalog.Settings

/-! ## Fields -/

/-- A setting. -/
inductive Field
  | defaultRunner
  | schemaDir
  | languageId
  deriving DecidableEq, Repr

/-- The key of a setting. -/
def Field.key : Field → String
  | defaultRunner => "default_runner"
  | schemaDir => "schema_dir"
  | languageId => "language_id"

/-- The setting with a key. -/
def Field.ofKey? (key : List Char) : Option Field :=
  [defaultRunner, schemaDir, languageId].find? fun f => f.key.toList == key

/-- The settings given by some fields, all others by default. -/
def ofGiven (given : List (Field × String)) : Settings :=
  let d : Settings := {}
  ⟨(given.lookup .defaultRunner).getD d.defaultRunner, (given.lookup .schemaDir).getD d.schemaDir,
    (given.lookup .languageId).getD d.languageId⟩

/-! ## Reading -/

/-- What stands where something else is wanted. -/
inductive Found
  | implicit (value : Yaml.Implicit)
  | text (value : String)
  | sequence
  | mapping
  deriving DecidableEq, Repr

/-- How a message shows what was found. -/
def Found.describe : Found → String
  | implicit value => value.describe
  | text s => "string " ++ Text.quoted s
  | sequence => "sequence"
  | mapping => "map"

/-- What is wrong with a settings file. -/
inductive Problem
  | malformed (fault : Yaml.Fault)
  /-- Something else than `wanted` stands for the value of `key`, or outside all values. -/
  | wrongType (key : Option String) (found : Found) (wanted : String) (place : Yaml.Place)
  /-- A setting is given twice in the mapping at `place`. -/
  | repeated (field : Field) (place : Yaml.Place)
  deriving DecidableEq, Repr

/-- The wording of a problem. -/
def Problem.describe : Problem → String
  | malformed fault => fault.describe
  | wrongType key found wanted place =>
    (match key with
      | some k => k ++ ": "
      | none => "")
      ++ "invalid type: " ++ found.describe ++ ", expected " ++ wanted ++ place.describe
  | repeated field place => "duplicate field `" ++ field.key ++ "`" ++ place.describe

/-- The events behind one node; `depth` counts the collections that are open.  `none` if the
    events end before it does. -/
def skipNode : Nat → List (Yaml.Placed Yaml.Event) → Option (List (Yaml.Placed Yaml.Event))
  | _, [] => none
  | depth, e :: es =>
    match e.value with
    | .sequenceStart | .mappingStart => skipNode (depth + 1) es
    | .sequenceEnd | .mappingEnd => if depth ≤ 1 then some es else skipNode (depth - 1) es
    | .scalar _ _ | .alias _ => if depth = 0 then some es else skipNode depth es

/-- The text of the node that begins with an event; `key` and `wanted` are for the message if
    it is none. -/
def textAt (events : List (Yaml.Placed Yaml.Event)) (key : Option String) (wanted : String)
    (e : Yaml.Placed Yaml.Event) : Except Problem (List Char) :=
  let node :=
    match e.value with
    | .alias target => events[target]?.getD e
    | _ => e
  match node.value with
  | .scalar text _ => .ok text
  | .sequenceStart => .error (.wrongType key .sequence wanted node.place)
  | _ => .error (.wrongType key .mapping wanted node.place)

/-- Read the pairs of a mapping that begins at `start`.  Every round reads a pair. -/
def readPairs (r : Yaml.Reading) (start : Yaml.Place) :
    Nat → List (Field × String) → List (Yaml.Placed Yaml.Event) →
      Except Problem (List (Field × String))
  | 0, given, _ => .ok given
  | fuel + 1, given, events =>
    match events with
    | [] => cutOff given
    | e :: es =>
      if e.value = .mappingEnd then .ok given
      else do
        let key ← textAt r.events none "field identifier" e
        match Field.ofKey? key with
        | some field =>
          if (given.lookup field).isSome then throw (.repeated field start)
          match es with
          | [] => cutOff given
          | v :: es =>
            let shown :=
              match e.value with
              | .alias _ => "?"
              | _ => field.key
            let text ← textAt r.events (some shown) "a string" v
            readPairs r start fuel ((field, String.ofList text) :: given) es
        | none =>
          match skipNode 0 es with
          | some es => readPairs r start fuel given es
          | none => cutOff given
where
  /-- The events end within the mapping, because of a fault. -/
  cutOff (given : List (Field × String)) : Except Problem (List (Field × String)) :=
    match r.fault with
    | some fault => .error (.malformed fault)
    | none => .ok given

/-- Read the settings of a document.  A document with nothing in it gives none. -/
def readDocument (r : Yaml.Reading) : Except Problem Settings := do
  let given ←
    match r.events with
    | [] => pure []
    | e :: es =>
      match e.value with
      | .mappingStart => readPairs r e.place (es.length + 1) [] es
      | .scalar text plain =>
        match (if plain then Yaml.Implicit.ofText? text else none) with
        | some .null => pure []
        | some value => throw (wrongDocument (.implicit value) e)
        | none => throw (wrongDocument (.text (String.ofList text)) e)
      | _ => throw (wrongDocument .sequence e)
  match r.fault with
  | some fault => throw (.malformed fault)
  | none => return ofGiven given
where
  /-- The problem of a document that is no mapping. -/
  wrongDocument (found : Found) (e : Yaml.Placed Yaml.Event) : Problem :=
    .wrongType none found "struct CatscriptConfig" e.place

/-- The settings that a text gives.  A blank text gives none. -/
def ofText (text : String) : Except Problem Settings :=
  if Text.trim text.toList = [] then .ok {} else readDocument (Yaml.Reading.ofText text.toList)

/-! ## Writing -/

/-- The settings as a text. -/
def text (s : Settings) : String :=
  String.ofList (Yaml.writeMapping
    [(Field.defaultRunner.key.toList, s.defaultRunner.toList),
      (Field.schemaDir.key.toList, s.schemaDir.toList),
      (Field.languageId.key.toList, s.languageId.toList)])

/-! ## Files -/

/-- The directory of the settings in a workspace. -/
def directory (root : String) : String := Files.joinPath root ".catscript"

/-- The path of the settings in a workspace. -/
def path (root : String) : String := Files.joinPath root ".catscript/config.yaml"

/-- Load the settings of a workspace, and report what is wrong with them. -/
def load (tree : Files.Tree) (root : String) : Settings × List Event :=
  match tree.readText (path root) with
  | .error _ => ({}, [])
  | .ok text =>
    match ofText text with
    | .ok s => (s, [])
    | .error p => ({}, [.noted (.settingsIgnored (path root) p.describe)])

/-- Why settings cannot be saved. -/
inductive SaveError
  | directory (path : String) (error : Files.PathError)
  | file (path : String) (error : Files.PathError)
  deriving DecidableEq, Repr

/-- The wording of an error. -/
def SaveError.describe : SaveError → String
  | directory path error => "Failed to create " ++ path ++ ": " ++ error.describe
  | file path error => "Failed to write " ++ path ++ ": " ++ error.describe

/-- Save the settings of a workspace, and make their directory if need be. -/
def save (s : Settings) (tree : Files.Tree) (root : String) : Except SaveError Files.Tree :=
  match tree.makeDirectory (directory root) with
  | .error e => .error (.directory (directory root) e)
  | .ok tree =>
    match tree.writeFile (path root) s.text.toUTF8 with
    | .error e => .error (.file (path root) e)
    | .ok tree => .ok tree

end RunnerCatalog.Settings
