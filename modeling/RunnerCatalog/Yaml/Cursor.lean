/-
  Reading a YAML text character by character.

  A cursor is the rest of a text together with its place.  Lines end at a line feed, a carriage
  return, both together, or one of three Unicode breaks.  Two of those keep their identity when
  a break is part of a value; all others count as a line feed.
-/
import RunnerCatalog.Yaml.Fault

namespace RunnerCatalog.Yaml

/-! ## Characters -/

/-- A character that ends a line. -/
def isBreak (c : Char) : Bool :=
  c == '\n' || c == '\r' || c == '\u0085' || c == '\u2028' || c == '\u2029'

/-- A space or a tab. -/
def isGap (c : Char) : Bool := c == ' ' || c == '\t'

/-- A space, a tab or a character that ends a line. -/
def isGapOrBreak (c : Char) : Bool := isGap c || isBreak c

/-- The characters of names: letters, digits, `_` and `-`. -/
def isNameChar (c : Char) : Bool := c.isAlphanum || c == '_' || c == '-'

/-- The characters that a text may hold. -/
def isAllowed (c : Char) : Bool :=
  let n := c.val
  n == 0x09 || n == 0x0A || n == 0x0D || (0x20 ≤ n && n ≤ 0x7E) || n == 0x85
    || (0xA0 ≤ n && n ≤ 0xD7FF) || (0xE000 ≤ n && n ≤ 0xFFFD) || 0x10000 ≤ n

/-! ## Cursors -/

/-- The rest of a text and its place. -/
structure Cursor where
  rest : List Char
  place : Place
  deriving DecidableEq, Repr

namespace Place

/-- The place `n` characters further on the same line. -/
def right (p : Place) (n : Nat) : Place := ⟨p.index + n, p.line, p.column + n⟩

/-- The place behind a break of `n` characters. -/
def nextLine (p : Place) (n : Nat) : Place := ⟨p.index + n, p.line + 1, 0⟩

end Place

namespace Cursor

/-- The beginning of a text. -/
def ofText (text : List Char) : Cursor := ⟨text, Place.start⟩

/-- Whether the rest begins with a character that satisfies `p`. -/
def nextIs (p : Char → Bool) (c : Cursor) : Bool :=
  match c.rest with
  | x :: _ => p x
  | [] => false

/-- Whether the text ends here. -/
def atEnd (c : Cursor) : Bool := c.rest.isEmpty

/-- Whether a blank, a break or the end is next. -/
def atGapOrBreak (c : Cursor) : Bool := c.atEnd || c.nextIs isGapOrBreak

/-- Whether a break or the end is next. -/
def atBreak (c : Cursor) : Bool := c.atEnd || c.nextIs isBreak

/-- Go on by `n` characters on the same line. -/
def skip (c : Cursor) (n : Nat) : Cursor := ⟨c.rest.drop n, c.place.right n⟩

/-- Go on while the characters satisfy `p`, which no break does. -/
def skipWhile (c : Cursor) (p : Char → Bool) : Cursor :=
  ⟨c.rest.dropWhile p, c.place.right (c.rest.takeWhile p).length⟩

/-- The characters that satisfy `p`, and the cursor behind them. -/
def takeWhile (c : Cursor) (p : Char → Bool) : List Char × Cursor :=
  (c.rest.takeWhile p, c.skipWhile p)

/-- Go on behind a break, if one is next. -/
def skipBreak (c : Cursor) : Cursor :=
  match c.rest with
  | '\r' :: '\n' :: r => ⟨r, c.place.nextLine 2⟩
  | x :: r => if isBreak x then ⟨r, c.place.nextLine 1⟩ else c
  | [] => c

/-- What a break counts as in a value. -/
def breakText (x : Char) : List Char := if x = '\u2028' ∨ x = '\u2029' then [x] else ['\n']

/-- What the next break counts as in a value; nothing if none is next. -/
def nextBreak (c : Cursor) : List Char :=
  match c.rest with
  | x :: _ => if isBreak x then breakText x else []
  | [] => []

/-- Whether the line begins with three times the character `x`, and a blank, a break or the
    end. -/
def atMarker (x : Char) (c : Cursor) : Bool :=
  c.place.column == 0 &&
    match c.rest with
    | a :: b :: d :: r => a == x && b == x && d == x && (r.isEmpty || isGapOrBreak (r.headD ' '))
    | _ => false

/-- Whether the line begins with the marker between documents, `---` or `...`. -/
def atDocumentMarker (c : Cursor) : Bool := c.atMarker '-' || c.atMarker '.'

end Cursor

/-! ## Gaps -/

/-- Blanks and breaks between two parts of a value. -/
structure Gap where
  /-- Blanks before any break. -/
  blanks : List Char
  /-- The first break. -/
  first : List Char
  /-- All further breaks. -/
  more : List Char
  /-- Whether there was a break. -/
  broken : Bool
  deriving DecidableEq, Repr

namespace Gap

/-- No gap. -/
def none : Gap := ⟨[], [], [], false⟩

/-- What a gap counts as: its blanks; or, over several lines, a space for one break, and for
    more breaks all but the first. -/
def text (g : Gap) : List Char :=
  if g.broken then
    if g.first = ['\n'] then (if g.more = [] then [' '] else g.more) else g.first ++ g.more
  else g.blanks

end Gap

/-- Read the gap that follows, as the continuation of `gap`.  After a break no tab may stand
    left of column `tabLimit`; the place of such a tab is the error. -/
def readGap (tabLimit : Nat) : Gap → List Char → Place → Except Place (Gap × Cursor)
  | gap, '\r' :: '\n' :: r, place =>
    if gap.broken then
      readGap tabLimit { gap with more := gap.more ++ ['\n'] } r (place.nextLine 2)
    else readGap tabLimit ⟨[], ['\n'], [], true⟩ r (place.nextLine 2)
  | gap, c :: r, place =>
    if isGap c then
      if gap.broken then
        if c = '\t' ∧ place.column < tabLimit then .error place
        else readGap tabLimit gap r (place.right 1)
      else readGap tabLimit { gap with blanks := gap.blanks ++ [c] } r (place.right 1)
    else if isBreak c then
      if gap.broken then
        readGap tabLimit { gap with more := gap.more ++ Cursor.breakText c } r
          (place.nextLine 1)
      else readGap tabLimit ⟨[], Cursor.breakText c, [], true⟩ r (place.nextLine 1)
    else .ok (gap, ⟨c :: r, place⟩)
  | gap, [], place => .ok (gap, ⟨[], place⟩)

end RunnerCatalog.Yaml
