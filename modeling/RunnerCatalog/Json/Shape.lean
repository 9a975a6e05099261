/-
  Reading JSON into values of a known shape.

  A reader takes the text from where a value should begin and returns the value with the rest
  of the text, or the first fault on the way.  There are readers for strings, booleans, lists,
  maps and records, and each asks for its type: what else stands there is read far enough to
  name it in the message (`wrongType`).

  A record has named fields.  It is written as an object, where unknown fields are passed over
  and no field may come twice, or as a list of the values of its fields in order, which may
  stop early.  The fields fill a draft (`Field`), and `finish` turns the draft into the record
  or says what is missing.
-/
import RunnerCatalog.Json.Skip
import RunnerCatalog.OrderedMap

namespace RunnerCatalog.Json

/-- A function that reads a value from the start of a text. -/
abbrev Reader (α : Type) := List Char → Except Stop (α × List Char)

/-! ## Scalars -/

/-- The fault of a value of another type than `wanted`, at the start of a text without leading
    blanks. -/
def wrongType {α : Type} (wanted : Wanted) (cs : List Char) : Except Stop α :=
  let stop (found : Found) (rest : List Char) : Stop := .after (.wrongType found wanted) rest
  match cs with
  | 'n' :: r => do throw (stop .null (← skipWord ['u', 'l', 'l'] r))
  | 't' :: r => do throw (stop (.boolean true) (← skipWord ['r', 'u', 'e'] r))
  | 'f' :: r => do throw (stop (.boolean false) (← skipWord ['a', 'l', 's', 'e'] r))
  | '-' :: r => do
    let (found, rest) ← readNumber false r
    throw (stop found rest)
  | '"' :: r => do
    let (s, rest) ← readText r
    throw (stop (.text (String.ofList s)) rest)
  | '[' :: r => throw (stop .sequence ('[' :: r))
  | '\x7b' :: r => throw (stop .map ('\x7b' :: r))
  | [] => throw (.before .endInValue [])
  | c :: r =>
    if isDigit c then do
      let (found, rest) ← readNumber true (c :: r)
      throw (stop found rest)
    else throw (.before .expectedValue (c :: r))

/-- Read a string. -/
def readString : Reader String := fun cs =>
  match skipSpace cs with
  | '"' :: r => do
    let (s, rest) ← readText r
    return (String.ofList s, rest)
  | r => wrongType .string r

/-- Read a boolean. -/
def readBoolean : Reader Bool := fun cs =>
  match skipSpace cs with
  | 't' :: r => do return (true, ← skipWord ['r', 'u', 'e'] r)
  | 'f' :: r => do return (false, ← skipWord ['a', 'l', 's', 'e'] r)
  | r => wrongType .boolean r

/-- Read `null` or a value. -/
def readOptional {α : Type} (read : Reader α) : Reader (Option α) := fun cs =>
  match skipSpace cs with
  | 'n' :: r => do return (none, ← skipWord ['u', 'l', 'l'] r)
  | r => do
    let (v, rest) ← read r
    return (some v, rest)

/-! ## Lists -/

/-- Go to the next element of a list; `none` stands for its closing bracket. -/
def nextElement (first : Bool) (cs : List Char) : Except Stop (Option (List Char)) :=
  match skipSpace cs with
  | [] => .error (.before .endInList [])
  | c :: r =>
    if c = ']' then .ok none
    else if first then .ok (some (c :: r))
    else if c = ',' then
      match skipSpace r with
      | [] => .error (.before .endInValue [])
      | ']' :: r => .error (.before .trailingComma (']' :: r))
      | r => .ok (some r)
    else .error (.before .expectedCommaOrBracket (c :: r))

/-- Pass over a closing character, and the blanks before it, if it is next. -/
def skipClosing (closing : Char) (cs : List Char) : List Char :=
  match skipSpace cs with
  | [] => []
  | c :: r => if c = closing then r else c :: r

/-- Read the elements of a list up to and with its closing bracket.  Each element takes at
    least one character. -/
def readElements {α : Type} (read : Reader α) : Nat → Bool → Reader (List α)
  | 0, _, cs => .ok ([], cs)
  | fuel + 1, first, cs => do
    match ← nextElement first cs with
    | none => return ([], skipClosing ']' cs)
    | some r =>
      let (v, r) ← read r
      let (vs, r) ← readElements read fuel false r
      return (v :: vs, r)

/-- Read a list. -/
def readList {α : Type} (read : Reader α) : Reader (List α) := fun cs =>
  match skipSpace cs with
  | '[' :: r => readElements read (r.length + 1) true r
  | r => wrongType .sequence r

/-! ## Maps -/

/-- Go to the next key of an object and read it; `none` stands for the closing bracket. -/
def nextKey (first : Bool) (cs : List Char) : Except Stop (Option (String × List Char)) :=
  let key (cs : List Char) : Except Stop (Option (String × List Char)) := do
    let (s, rest) ← readText cs
    return some (String.ofList s, rest)
  match skipSpace cs with
  | [] => .error (.before .endInObject [])
  | c :: r =>
    if c = '\x7d' then .ok none
    else if first then
      if c = '"' then key r else .error (.before .keyNotText (c :: r))
    else if c = ',' then
      match skipSpace r with
      | [] => .error (.before .endInValue [])
      | '"' :: r => key r
      | '\x7d' :: r => .error (.before .trailingComma ('\x7d' :: r))
      | r => .error (.before .keyNotText r)
    else .error (.before .expectedCommaOrBrace (c :: r))

/-- Read the entries of a map up to and with its closing bracket.  Each entry takes at least
    one character. -/
def readEntries {α : Type} (read : Reader α) : Nat → Bool → Reader (List (String × α))
  | 0, _, cs => .ok ([], cs)
  | fuel + 1, first, cs => do
    match ← nextKey first cs with
    | none => return ([], skipClosing '\x7d' cs)
    | some (key, r) =>
      let r ← skipColon r
      let (v, r) ← read r
      let (vs, r) ← readEntries read fuel false r
      return ((key, v) :: vs, r)

/-- Read a map.  Of two entries with one key the later counts, in the place of the earlier. -/
def readMap {α : Type} (read : Reader α) : Reader (OrderedMap String α) := fun cs =>
  match skipSpace cs with
  | '\x7b' :: r => do
    let (entries, r) ← readEntries read (r.length + 1) true r
    return (OrderedMap.ofList entries, r)
  | r => wrongType .map r

/-! ## Records -/

/-- A field of a record that is collected in a draft of type `δ`. -/
structure Field (δ : Type) where
  name : String
  /-- Whether the draft has the field already. -/
  given : δ → Bool
  /-- Read the value of the field into the draft. -/
  read : δ → Reader δ

/-- A record under construction was written in one of two ways. -/
inductive Form
  /-- An object with named fields. -/
  | object
  /-- A list of the values of the first `length` fields. -/
  | list (length : Nat)
  deriving DecidableEq, Repr

/-- Read the fields of an object up to its closing bracket. -/
def readFields {δ : Type} (fields : List (Field δ)) : Nat → Bool → δ → Reader δ
  | 0, _, draft, cs => .ok (draft, cs)
  | fuel + 1, first, draft, cs => do
    match ← nextKey first cs with
    | none => return (draft, cs)
    | some (key, r) =>
      match fields.find? (fun f => f.name = key) with
      | some f =>
        if f.given draft then
          throw (.after (.duplicateField key) (skipClosing '\x7d' r))
        let r ← skipColon r
        let (draft, r) ← f.read draft r
        readFields fields fuel false draft r
      | none =>
        let r ← skipColon r
        let r ← skipValue r
        readFields fields fuel false draft r

/-- Read the values of fields from a list up to its closing bracket.  The answer tells how
    many there were. -/
def readValues {δ : Type} : List (Field δ) → Bool → Nat → δ → Reader (δ × Nat)
  | [], _, count, draft, cs =>
    -- all fields are there: the list has to end
    match skipSpace cs with
    | ']' :: r => .ok ((draft, count), ']' :: r)
    | ',' :: r =>
      match skipSpace r with
      | ']' :: r => .error (.before .trailingComma (']' :: r))
      | r => .error (.before .trailingCharacters r)
    | [] => .error (.before .endInList [])
    | r => .error (.before .trailingCharacters r)
  | f :: fields, first, count, draft, cs => do
    match ← nextElement first cs with
    | none => return ((draft, count), cs)
    | some r =>
      let (draft, r) ← f.read draft r
      readValues fields false (count + 1) draft r

/-- Read a record named `name` with the given fields.  What `finish` finds missing is reported
    behind the closing bracket. -/
def readRecord {δ α : Type} (name : String) (fields : List (Field δ)) (draft : δ)
    (finish : Form → δ → Except Fault α) : Reader α := fun cs =>
  match skipSpace cs with
  | '\x7b' :: r => do
    let (draft, r) ← readFields fields (r.length + 1) true draft r
    let r := skipClosing '\x7d' r
    match finish .object draft with
    | .ok v => return (v, r)
    | .error fault => throw (.after fault r)
  | '[' :: r => do
    let ((draft, count), r) ← readValues fields true 0 draft r
    let r := skipClosing ']' r
    match finish (.list count) draft with
    | .ok v => return (v, r)
    | .error fault => throw (.after fault r)
  | r => wrongType (.record name) r

/-! ## Whole texts -/

/-- Read a text that holds one value and nothing else. -/
def readWhole {α : Type} (read : Reader α) (text : List Char) : Except Problem α :=
  let result : Except Stop α := do
    let (v, rest) ← read text
    match skipSpace rest with
    | [] => return v
    | rest => throw (.before .trailingCharacters rest)
  match result with
  | .ok v => .ok v
  | .error stop => .error (stop.problem text)

end RunnerCatalog.Json
