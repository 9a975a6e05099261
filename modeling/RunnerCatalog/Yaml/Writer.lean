/-
  Writing a mapping of texts as YAML.

  Every value is written in the simplest style that reads back as the same text:

  * over several lines, if it has line feeds (`Style.literal`);
  * as it stands, if nothing in it has a meaning of its own (`Style.plain`);
  * between single quotation marks, where it would be taken for a number, a truth value or
    nothing, or begins like something else (`Style.single`);
  * between double quotation marks, with escapes, where no other style can show it
    (`Style.double`).

  Lines are never folded.
-/
import RunnerCatalog.Yaml.Implicit
import RunnerCatalog.Yaml.Token

namespace RunnerCatalog.Yaml

/-! ## What a text is made of -/

/-- The characters that are shown as they are. -/
def isShown (c : Char) : Bool :=
  let n := c.val
  n == 0x0A || (0x20 ≤ n && n ≤ 0x7E) || (0xA0 ≤ n && n ≤ 0xD7FF)
    || (0xE000 ≤ n && n ≤ 0xFFFD && n != 0xFEFF) || 0x10000 ≤ n

/-- Whether a character that satisfies `p` stands right before one that satisfies `q`. -/
def hasAdjacent (p q : Char → Bool) : List Char → Bool
  | c :: d :: r => (p c && q d) || hasAdjacent p q (d :: r)
  | _ => false

/-- A space. -/
def isSpace (c : Char) : Bool := c == ' '

/-- Whether a text holds a colon before a blank or its end, or a number sign at its start or
    behind a blank; `fresh` says that a blank or the start stands in front. -/
def hasMark : Bool → List Char → Bool
  | _, [] => false
  | fresh, c :: r =>
    (c == ':' && followedByGap r) || (c == '#' && fresh) || hasMark (isGapOrBreak c) r

/-- Whether a text begins like something else than a plain scalar. -/
def startsAsMark (cs : List Char) : Bool :=
  match cs with
  | [] => false
  | c :: r =>
    Scan.isIndicator c || ((c == '-' || c == '?') && followedByGap r)
      || ['-', '-', '-'].isPrefixOf cs || ['.', '.', '.'].isPrefixOf cs

/-- Whether a text may be written as it stands. -/
def fitsPlain (cs : List Char) : Bool :=
  !startsAsMark cs && !hasMark true cs && cs.all isShown && !cs.any isBreak
    && !cs.head?.any isSpace && !cs.getLast?.any isSpace

/-- Whether a text may be written between single quotation marks. -/
def fitsSingle (cs : List Char) : Bool :=
  cs.all isShown && !hasAdjacent isBreak isSpace cs && !hasAdjacent isSpace isBreak cs

/-- Whether a text may be written over several lines. -/
def fitsLiteral (cs : List Char) : Bool :=
  cs.all isShown && !hasAdjacent isSpace isBreak cs && !cs.getLast?.any isSpace

/-- Whether a plain scalar of this form may be taken for something else than a text. -/
def isAmbiguous (cs : List Char) : Bool := (Implicit.ofText? cs).isSome || isPadded cs

/-! ## Styles -/

/-- A way to write a text. -/
inductive Style
  | plain
  | single
  | double
  | literal
  deriving DecidableEq, Repr

/-- The style for a text. -/
def Style.ofText (cs : List Char) : Style :=
  if '\n' ∈ cs then (if fitsLiteral cs then .literal else .double)
  else if fitsPlain cs && !isAmbiguous cs then .plain
  else if fitsSingle cs then .single
  else .double

/-- The spaces in front of the lines of a value. -/
def margin : List Char := [' ', ' ']

/-- Put the margin in front of every line that is not empty; `fresh` says that a line begins
    here. -/
def writeLines : Bool → List Char → List Char
  | _, [] => []
  | fresh, c :: r =>
    if isBreak c then c :: writeLines true r
    else (if fresh then margin else []) ++ c :: writeLines false r

/-- Whether a text ends behind a break. -/
def endsLine (cs : List Char) : Bool := cs.getLast?.any isBreak

/-- A text between single quotation marks. -/
def writeSingle (cs : List Char) : List Char :=
  let doubled := cs.flatMap fun c => if c = '\'' then ['\'', '\''] else [c]
  ['\''] ++ writeLines false doubled ++ (if endsLine cs then margin else []) ++ ['\'']

/-- The last `n` digits of a number in uppercase hexadecimal. -/
def hexText (n value : Nat) : List Char :=
  let digits := (Nat.toDigits 16 value).map Char.toUpper
  List.replicate (n - digits.length) '0' ++ digits

/-- The letter that stands for a character behind a backslash. -/
def escapeLetter? (c : Char) : Option Char :=
  match c with
  | '\x00' => some '0'
  | '\x07' => some 'a'
  | '\x08' => some 'b'
  | '\t' => some 't'
  | '\n' => some 'n'
  | '\x0b' => some 'v'
  | '\x0c' => some 'f'
  | '\r' => some 'r'
  | '\x1b' => some 'e'
  | '"' => some '"'
  | '\\' => some '\\'
  | '\u0085' => some 'N'
  | '\u2028' => some 'L'
  | '\u2029' => some 'P'
  | _ => none

/-- A character between double quotation marks. -/
def writeDoubleChar (c : Char) : List Char :=
  match escapeLetter? c with
  | some letter => ['\\', letter]
  | none =>
    if isShown c then [c]
    else if c.toNat ≤ 0xFF then ['\\', 'x'] ++ hexText 2 c.toNat
    else if c.toNat ≤ 0xFFFF then ['\\', 'u'] ++ hexText 4 c.toNat
    else ['\\', 'U'] ++ hexText 8 c.toNat

/-- A text between double quotation marks. -/
def writeDouble (cs : List Char) : List Char := ['"'] ++ cs.flatMap writeDoubleChar ++ ['"']

/-- The chomping mark for a text: what its end has to say about its breaks. -/
def chompingMark (cs : List Char) : List Char :=
  match cs.reverse with
  | [] => ['-']
  | c :: r => if !isBreak c then ['-'] else if r.head?.all isBreak then ['+'] else []

/-- A text over several lines.  Its indentation is told where the text itself begins with a
    blank or a break. -/
def writeLiteral (cs : List Char) : List Char :=
  let hint := if cs.head?.any (fun c => isSpace c || isBreak c) then ['2'] else []
  ['|'] ++ hint ++ chompingMark cs ++ ['\n'] ++ writeLines true cs

/-- A text in the style for it. -/
def writeText (cs : List Char) : List Char :=
  match Style.ofText cs with
  | .plain => cs
  | .single => writeSingle cs
  | .double => writeDouble cs
  | .literal => writeLiteral cs

/-! ## Mappings -/

/-- A pair of a mapping, with the end of its line.  The key is written as it stands. -/
def writePair (pair : List Char × List Char) : List Char :=
  let value := writeText pair.2
  pair.1 ++ [':', ' '] ++ value
    ++ (if Style.ofText pair.2 = .literal ∧ endsLine value then [] else ['\n'])

/-- A mapping of texts. -/
def writeMapping (pairs : List (List Char × List Char)) : List Char := pairs.flatMap writePair

end RunnerCatalog.Yaml
