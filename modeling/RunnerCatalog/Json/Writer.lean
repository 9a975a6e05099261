/-
  Writing JSON.

  A writer gives the text of a value at a nesting depth, in one of two layouts: on one line
  without blanks, or with each element on a line of its own, indented by two blanks for each
  level.  Empty lists and objects are a bare pair of brackets in both.  In strings the
  quotation mark, the backslash and the control characters are escaped and nothing else is.
-/
import RunnerCatalog.Json.Text

namespace RunnerCatalog.Json

/-- How the elements of lists and objects are laid out. -/
inductive Layout
  | compact
  | indented
  deriving DecidableEq, Repr

/-- The text of a value at a nesting depth. -/
abbrev Writer := Layout → Nat → List Char

/-! ## Strings -/

/-- A digit of a number below sixteen, in lowercase hexadecimal. -/
def hexDigit (n : Nat) : Char := if n < 10 then Char.ofNat (48 + n) else Char.ofNat (87 + n)

/-- One character of a string. -/
def escapeChar (c : Char) : List Char :=
  match c with
  | '"' => ['\\', '"']
  | '\\' => ['\\', '\\']
  | '\x08' => ['\\', 'b']
  | '\x0c' => ['\\', 'f']
  | '\n' => ['\\', 'n']
  | '\r' => ['\\', 'r']
  | '\t' => ['\\', 't']
  | c =>
    if c.val < 0x20 then
      ['\\', 'u', '0', '0', hexDigit (c.toNat / 16), hexDigit (c.toNat % 16)]
    else [c]

/-- A string between quotation marks. -/
def writeChars (cs : List Char) : List Char := '"' :: cs.flatMap escapeChar ++ ['"']

/-- Write a string. -/
def writeString (s : String) : Writer := fun _ _ => writeChars s.toList

/-- Write a boolean. -/
def writeBoolean (b : Bool) : Writer := fun _ _ =>
  if b then ['t', 'r', 'u', 'e'] else ['f', 'a', 'l', 's', 'e']

/-! ## Lists and objects -/

/-- The line break in front of an element or a closing bracket at a depth. -/
def breakLine (layout : Layout) (depth : Nat) : List Char :=
  match layout with
  | .compact => []
  | .indented => '\n' :: List.replicate (2 * depth) ' '

/-- Elements with a comma between neighbours, each at the start of a line. -/
def writeElements (layout : Layout) (depth : Nat) : List Writer → List Char
  | [] => []
  | [w] => breakLine layout depth ++ w layout depth
  | w :: ws => breakLine layout depth ++ w layout depth ++ [','] ++ writeElements layout depth ws

/-- Write elements between brackets. -/
def writeBrackets (left right : Char) (elements : List Writer) : Writer := fun layout depth =>
  match elements with
  | [] => [left, right]
  | ws => [left] ++ writeElements layout (depth + 1) ws ++ breakLine layout depth ++ [right]

/-- Write a list. -/
def writeList (elements : List Writer) : Writer := writeBrackets '[' ']' elements

/-- Write an entry of an object. -/
def writeEntry (key : String) (value : Writer) : Writer := fun layout depth =>
  writeChars key.toList ++ [':'] ++ (if layout = .indented then [' '] else [])
    ++ value layout depth

/-- Write an object. -/
def writeObject (entries : List (String × Writer)) : Writer :=
  writeBrackets '\x7b' '\x7d' (entries.map fun e => writeEntry e.1 e.2)

end RunnerCatalog.Json
