/-
  A text in quotation marks, as error messages show it.

  Quotation marks and backslashes get a backslash, the usual control characters their letter,
  and every other unprintable character its number in braces, in lowercase hexadecimal.
-/
import RunnerCatalog.Text.UnprintableTable

namespace RunnerCatalog.Text

/-- Whether a quoted text shows `c` by its number. -/
def isUnprintable (c : Char) : Bool :=
  c.val < 0x20 || unprintableRanges.any (fun r => r.1 ≤ c.toNat && c.toNat ≤ r.2)

/-- The digits of a number in lowercase hexadecimal. -/
def hexDigits (n : Nat) : List Char := Nat.toDigits 16 n

/-- One character of a quoted text. -/
def quotedChar (c : Char) : List Char :=
  match c with
  | '\x00' => ['\\', '0']
  | '\t' => ['\\', 't']
  | '\n' => ['\\', 'n']
  | '\r' => ['\\', 'r']
  | '"' => ['\\', '"']
  | '\\' => ['\\', '\\']
  | c => if isUnprintable c then ['\\', 'u', '\x7b'] ++ hexDigits c.toNat ++ ['\x7d'] else [c]

/-- A text in quotation marks. -/
def quoted (s : String) : String :=
  String.ofList (['"'] ++ s.toList.flatMap quotedChar ++ ['"'])

end RunnerCatalog.Text
