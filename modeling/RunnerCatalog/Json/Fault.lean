/-
  What can be wrong with a JSON text, where, and how it is said.

  A reader stops at the first fault.  It reports the fault together with the rest of the text
  at that moment (`Stop`); the line and the column are worked out afterwards from the length
  of what was read (`Location.ofOffset`).  Faults come in two kinds: those that point at an
  offending character that is not read yet (`Stop.before`), and those that show only once it
  is read (`Stop.after`).
-/
import RunnerCatalog.Decimal.Shortest
import RunnerCatalog.Text.Quoted
import RunnerCatalog.Text.Units

namespace RunnerCatalog.Json

/-! ## Faults -/

/-- A value found where another type is wanted. -/
inductive Found
  | null
  | boolean (value : Bool)
  | integer (value : Int)
  | floating (value : Decimal.Binary64)
  | text (value : String)
  | sequence
  | map
  deriving DecidableEq, Repr

/-- The type wanted at a place. -/
inductive Wanted
  | string
  | boolean
  | map
  | sequence
  | record (name : String)
  deriving DecidableEq, Repr

/-- What is wrong with a text. -/
inductive Fault
  | endInValue
  | endInObject
  | endInList
  | endInString
  | expectedValue
  | expectedWord
  | expectedColon
  | expectedCommaOrBrace
  | expectedCommaOrBracket
  | trailingComma
  | trailingCharacters
  | keyNotText
  | invalidNumber
  | numberOutOfRange
  | invalidEscape
  | controlCharacter
  | loneSurrogate
  | unfinishedSurrogatePair
  | wrongType (found : Found) (wanted : Wanted)
  | tooShort (length : Nat) (record : String) (elements : Nat)
  | duplicateField (name : String)
  | missingField (name : String)
  deriving DecidableEq, Repr

/-- Numbers in messages: positional from `0.00001` to below `10 ^ 16`, and with a sign on
    every exponent. -/
def numberStyle : Decimal.Style := ⟨-5, 15, "+", 2⟩

/-- How a message names a value. -/
def Found.describe : Found → String
  | null => "null"
  | boolean b => "boolean `" ++ (if b then "true" else "false") ++ "`"
  | integer n => "integer `" ++ toString n ++ "`"
  | floating x => "floating point `" ++ numberStyle.text x ++ "`"
  | text s => "string " ++ Text.quoted s
  | sequence => "sequence"
  | map => "map"

/-- How a message names a type. -/
def Wanted.describe : Wanted → String
  | string => "a string"
  | boolean => "a boolean"
  | map => "a map"
  | sequence => "a sequence"
  | record name => "struct " ++ name

/-- The wording of a fault. -/
def Fault.describe : Fault → String
  | endInValue => "EOF while parsing a value"
  | endInObject => "EOF while parsing an object"
  | endInList => "EOF while parsing a list"
  | endInString => "EOF while parsing a string"
  | expectedValue => "expected value"
  | expectedWord => "expected ident"
  | expectedColon => "expected `:`"
  | expectedCommaOrBrace => "expected `,` or `\x7d`"
  | expectedCommaOrBracket => "expected `,` or `]`"
  | trailingComma => "trailing comma"
  | trailingCharacters => "trailing characters"
  | keyNotText => "key must be a string"
  | invalidNumber => "invalid number"
  | numberOutOfRange => "number out of range"
  | invalidEscape => "invalid escape"
  | controlCharacter => "control character (\\u0000-\\u001F) found while parsing a string"
  | loneSurrogate => "lone leading surrogate in hex escape"
  | unfinishedSurrogatePair => "unexpected end of hex escape"
  | wrongType found wanted =>
    "invalid type: " ++ found.describe ++ ", expected " ++ wanted.describe
  | tooShort length record elements =>
    "invalid length " ++ toString length ++ ", expected struct " ++ record ++ " with "
      ++ toString elements ++ " elements"
  | duplicateField name => "duplicate field `" ++ name ++ "`"
  | missingField name => "missing field `" ++ name ++ "`"

/-! ## Places -/

/-- A place in a text: the line, counted from one, and the bytes since its start. -/
structure Location where
  line : Nat
  column : Nat
  deriving DecidableEq, Repr

/-- The place reached from `place` when `offset` more bytes of the text are read. -/
def Location.advance (place : Location) : List Char → Nat → Location
  | [], _ => place
  | c :: r, offset =>
    if offset = 0 then place
    else if c = '\n' then Location.advance ⟨place.line + 1, 0⟩ r (offset - 1)
    else if c.utf8Size ≤ offset then
      Location.advance ⟨place.line, place.column + c.utf8Size⟩ r (offset - c.utf8Size)
    else ⟨place.line, place.column + offset⟩

/-- The place reached when the first `offset` bytes of a text are read. -/
def Location.ofOffset (text : List Char) (offset : Nat) : Location :=
  Location.advance ⟨1, 0⟩ text offset

/-- A fault with its place. -/
structure Problem where
  fault : Fault
  place : Location
  deriving DecidableEq, Repr

/-- The whole wording of a problem. -/
def Problem.describe (p : Problem) : String :=
  p.fault.describe ++ " at line " ++ toString p.place.line ++ " column "
    ++ toString p.place.column

/-! ## Stopping -/

/-- A reader has stopped with `rest` still to be read, of which `extra` bytes belong to the
    fault. -/
structure Stop where
  fault : Fault
  rest : List Char
  extra : Nat
  deriving DecidableEq, Repr

/-- A fault that shows once everything before `rest` is read. -/
def Stop.after (fault : Fault) (rest : List Char) : Stop := ⟨fault, rest, 0⟩

/-- A fault at the first byte of `rest`, or at the end of the text. -/
def Stop.before (fault : Fault) (rest : List Char) : Stop :=
  ⟨fault, rest, if rest.isEmpty then 0 else 1⟩

/-- The place of a stop within the whole text. -/
def Stop.problem (text : List Char) (s : Stop) : Problem :=
  ⟨s.fault,
    Location.ofOffset text (Text.byteLength text - Text.byteLength s.rest + s.extra)⟩

end RunnerCatalog.Json
