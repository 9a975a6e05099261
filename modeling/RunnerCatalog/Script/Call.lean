/-
  Where the commands stand in a line of a script.

  A statement begins at the start of its line, behind an optional label: a command name in
  capitals, perhaps with a scope and a dot before it and a `!` behind it.

      @label: UTIL.LOG! "hello"
      WAIT 10

  All scanners work on the bytes of the line and count in bytes.  What they pick out is made
  of ASCII bytes only, so it never begins or ends inside a character.

  * `callAt` finds the command at the start of the line, if a place lies inside it.
  * `inArguments` tells whether a place lies behind a command, where none can begin.
  * `wordAt` picks out the word around a place, and `scopeBeforeDot` the one in front of a
    dot.
-/
import RunnerCatalog.Runner
import RunnerCatalog.Text.Blank
import RunnerCatalog.Text.Units

namespace RunnerCatalog.Script

/-! ## Classes of bytes -/

/-- A capital letter of ASCII. -/
def isCapital (b : UInt8) : Bool := 0x41 ≤ b && b ≤ 0x5A

/-- A digit of ASCII. -/
def isDigit (b : UInt8) : Bool := 0x30 ≤ b && b ≤ 0x39

/-- A letter or digit of ASCII. -/
def isLetterOrDigit (b : UInt8) : Bool := isCapital b || (0x61 ≤ b && b ≤ 0x7A) || isDigit b

/-- The bytes of a command name with its scope: capitals, digits, `_` and `.`. -/
def isNameByte (b : UInt8) : Bool := isCapital b || isDigit b || b == 0x5F || b == 0x2E

/-- The bytes of a label: letters, digits, `_` and `-`. -/
def isLabelByte (b : UInt8) : Bool := isLetterOrDigit b || b == 0x5F || b == 0x2D

/-- The bytes of a word: letters, digits and `_`. -/
def isWordByte (b : UInt8) : Bool := isLetterOrDigit b || b == 0x5F

/-! ## The command of a line -/

/-- A command called in a line. -/
structure Call where
  scope : String
  command : String
  /-- The byte behind the call; it begins at byte zero, with its label. -/
  stop : Nat
  deriving DecidableEq, Repr

/-- What follows the label of a statement, or the whole statement if it has none.  A label is
    `@`, a name, a colon and blanks; `none` if it is begun but not finished. -/
def afterLabel (line : List UInt8) : Option (List UInt8) :=
  match line with
  | 0x40 :: r =>
    if (r.takeWhile isLabelByte).isEmpty then none
    else
      match r.dropWhile isLabelByte with
      | 0x3A :: r =>
        if (r.takeWhile Text.isAsciiBlank).isEmpty then none
        else some (r.dropWhile Text.isAsciiBlank)
      | _ => none
  | line => some line

/-- Scope and command of a name: what stands before the first dot and between it and the
    second one; without a dot the scope is `BASE`. -/
def splitName (name : List UInt8) : String × String :=
  match Text.splitOn '.' (name.map (fun b => Char.ofNat b.toNat)) with
  | scope :: command :: _ => (String.ofList scope, String.ofList command)
  | [command] => (baseScope, String.ofList command)
  | [] => (baseScope, "")

/-- The command at the start of the line. -/
def callOf (line : List UInt8) : Option Call :=
  match afterLabel line with
  | none => none
  | some r =>
    let name := r.takeWhile isNameByte
    if name.isEmpty then none
    else
      let rest :=
        match r.dropWhile isNameByte with
        | 0x21 :: rest => rest
        | rest => rest
      let (scope, command) := splitName name
      some ⟨scope, command, line.length - rest.length⟩

/-- The command at the start of the line, if byte `offset` lies inside the call. -/
def callAt (line : List UInt8) (offset : Nat) : Option Call :=
  (callOf line).filter (fun call => offset < call.stop)

/-! ## Behind a command -/

/-- What a scan from the left has seen last. -/
inductive Seen
  /-- The start of the line or a blank. -/
  | edge
  /-- Bytes of a command name since an edge. -/
  | name
  /-- Anything else. -/
  | other
  deriving DecidableEq, Repr

/-- Whether a command name that begins at an edge is followed by a blank. -/
def hasNameAndBlank : Seen → List UInt8 → Bool
  | _, [] => false
  | .edge, b :: r =>
    if isNameByte b then hasNameAndBlank .name r
    else if Text.isAsciiBlank b then hasNameAndBlank .edge r
    else hasNameAndBlank .other r
  | .name, b :: r =>
    if isNameByte b then hasNameAndBlank .name r
    else if Text.isAsciiBlank b then true
    else hasNameAndBlank .other r
  | .other, b :: r =>
    if Text.isAsciiBlank b then hasNameAndBlank .edge r else hasNameAndBlank .other r

/-- Whether the place at byte `cursor` lies in the arguments of a command.  The byte just
    before the place is left out of the look. -/
def inArguments (line : List UInt8) (cursor : Nat) : Bool :=
  hasNameAndBlank .edge (line.take (cursor - 1))

/-! ## Words -/

/-- The bytes of the word that ends at byte `column`. -/
def wordBefore (line : List UInt8) (column : Nat) : List UInt8 :=
  ((line.take column).reverse.takeWhile isWordByte).reverse

/-- The bytes of the word that begins at byte `column`. -/
def wordBehind (line : List UInt8) (column : Nat) : List UInt8 :=
  (line.drop column).takeWhile isWordByte

/-- First byte, and byte behind the last, of the word that contains `column` or ends there. -/
def wordSpan (line : List UInt8) (column : Nat) : Option (Nat × Nat) :=
  if line.length < column then none
  else
    let start := column - (wordBefore line column).length
    let stop := column + (wordBehind line column).length
    if start = stop then none else some (start, stop)

/-- The word that contains byte `column` or ends there. -/
def wordAt (line : List UInt8) (column : Nat) : Option String :=
  (wordSpan line column).map fun span =>
    Text.ofAscii ((line.drop span.1).take (span.2 - span.1))

/-- The scope in front of a dot that ends at byte `cursor`. -/
def scopeBeforeDot (line : List UInt8) (cursor : Nat) : Option String :=
  if cursor < 2 then none else wordAt line (cursor - 2)

end RunnerCatalog.Script
