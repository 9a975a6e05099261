/-
  Blank characters and trimming.

  Two notions of blank occur in scripts and schemas: the Unicode property `White_Space`, by
  which names are trimmed, and the five ASCII blanks that separate the words of a statement.
  Texts are lists of characters here, and trimming drops the blank characters at both ends and
  nothing else.
-/

namespace RunnerCatalog.Text

/-- The Unicode property `White_Space`. -/
def isBlank (c : Char) : Bool :=
  let n := c.val
  (0x09 ≤ n && n ≤ 0x0D) || n == 0x20 || n == 0x85 || n == 0xA0 || n == 0x1680
    || (0x2000 ≤ n && n ≤ 0x200A) || n == 0x2028 || n == 0x2029 || n == 0x202F
    || n == 0x205F || n == 0x3000

/-- The blanks of ASCII: space, tab, line feed, form feed and carriage return.  The vertical
    tab is not one of them. -/
def isAsciiBlank (b : UInt8) : Bool :=
  b == 0x20 || b == 0x09 || b == 0x0A || b == 0x0C || b == 0x0D

/-- Drop the blank characters at the end. -/
def trimEnd (cs : List Char) : List Char := (cs.reverse.dropWhile isBlank).reverse

/-- Drop the blank characters at both ends. -/
def trim (cs : List Char) : List Char := trimEnd (cs.dropWhile isBlank)

/-- A text without the blank characters at its ends. -/
def trimmed (s : String) : String := String.ofList (trim s.toList)

end RunnerCatalog.Text
