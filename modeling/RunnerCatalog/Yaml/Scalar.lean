/-
  Reading scalars.

  A scalar is a text, written in one of three ways.

  * A plain scalar goes on until something ends it: a colon before a blank, a comment, a line
    that is not indented enough, or, inside brackets, a comma or a bracket.
  * A quoted scalar stands between single or double quotation marks; escapes have a meaning
    between double ones.
  * A block scalar begins with `|` or `>` and takes all the indented lines below.  Its header
    may give the indentation and say what becomes of the breaks at the end.

  Plain and quoted scalars may go over several lines; the gap between two lines counts as
  `Gap.text` says.
-/
import RunnerCatalog.Yaml.Cursor

namespace RunnerCatalog.Yaml

/-! ## Plain scalars -/

/-- Whether a text goes on with a blank or a break, or ends. -/
def followedByGap : List Char → Bool
  | [] => true
  | c :: _ => isGapOrBreak c

/-- The characters that end a plain scalar inside brackets. -/
def isFlowEnd (c : Char) : Bool := c == ',' || c == '[' || c == ']' || c == '\x7b' || c == '\x7d'

/-- The characters that a colon must not stand before in a plain scalar inside brackets. -/
def isColonClash (c : Char) : Bool := isFlowEnd c || c == '?'

/-- The characters of a plain scalar up to the next blank, break or end of the scalar, and
    whether a colon stands there that clashes with what follows it. -/
def plainRun (flow : Bool) : List Char → List Char × Bool
  | [] => ([], false)
  | c :: r =>
    if isGapOrBreak c then ([], false)
    else if flow && c == ':' && (r.head?.any isColonClash) then ([], true)
    else if c == ':' && followedByGap r then ([], false)
    else if flow && isFlowEnd c then ([], false)
    else
      let (run, clash) := plainRun flow r
      (c :: run, clash)

/-- Read on in a plain scalar: `text` is what was read of it, and `gap` the gap behind that.
    Lines have to be indented to column `indent` unless the scalar stands inside brackets.
    The answer tells whether the last gap went over a break.  Every round reads a run. -/
def readPlainFrom (flow : Bool) (indent : Nat) (start : Place) :
    Nat → List Char → Gap → Cursor → Except Fault (List Char × Bool × Cursor)
  | 0, text, gap, c => .ok (text, gap.broken, c)
  | fuel + 1, text, gap, c =>
    if c.atDocumentMarker || c.nextIs (fun x => x == '#') then .ok (text, gap.broken, c)
    else
      let (run, clash) := plainRun flow c.rest
      if clash then .error (.within .plainScalar start .plainColon (c.place.right run.length))
      else if run = [] then .ok (text, gap.broken, c)
      else
        let text := text ++ gap.text ++ run
        let c := c.skip run.length
        if !c.nextIs isGapOrBreak then .ok (text, false, c)
        else
          match readGap indent .none c.rest c.place with
          | .error place => .error (.within .plainScalar start .plainTab place)
          | .ok (gap, c) =>
            if !flow && c.place.column < indent then .ok (text, gap.broken, c)
            else readPlainFrom flow indent start fuel text gap c

/-- Read a plain scalar.  The answer is its text, whether it ended behind a break, and the
    cursor behind it and the gap that follows. -/
def readPlain (flow : Bool) (indent : Nat) (c : Cursor) :
    Except Fault (List Char × Bool × Cursor) :=
  readPlainFrom flow indent c.place (c.rest.length + 1) [] .none c

/-! ## Quoted scalars -/

/-- The character that a letter stands for behind a backslash. -/
def escaped? (c : Char) : Option Char :=
  match c with
  | '0' => some '\x00'
  | 'a' => some '\x07'
  | 'b' => some '\x08'
  | 't' => some '\t'
  | '\t' => some '\t'
  | 'n' => some '\n'
  | 'v' => some '\x0b'
  | 'f' => some '\x0c'
  | 'r' => some '\r'
  | 'e' => some '\x1b'
  | ' ' => some ' '
  | '"' => some '"'
  | '/' => some '/'
  | '\\' => some '\\'
  | 'N' => some '\u0085'
  | '_' => some '\u00a0'
  | 'L' => some '\u2028'
  | 'P' => some '\u2029'
  | _ => none

/-- How many hexadecimal digits follow a letter behind a backslash. -/
def escapeDigits? (c : Char) : Option Nat :=
  match c with
  | 'x' => some 2
  | 'u' => some 4
  | 'U' => some 8
  | _ => none

/-- The value of a hexadecimal digit. -/
def hexValue? (c : Char) : Option Nat :=
  if '0' ≤ c ∧ c ≤ '9' then some (c.toNat - '0'.toNat)
  else if 'a' ≤ c ∧ c ≤ 'f' then some (c.toNat - 'a'.toNat + 10)
  else if 'A' ≤ c ∧ c ≤ 'F' then some (c.toNat - 'A'.toNat + 10)
  else none

/-- What stands at the end of a run in a quoted scalar. -/
inductive RunEnd
  /-- The closing quotation mark, a blank, a break or the end. -/
  | stop
  /-- A break behind a backslash, which is passed over. -/
  | escapedBreak
  deriving DecidableEq, Repr

/-- A run of a quoted scalar: its text, what ended it, and the cursor there. -/
structure Run where
  text : List Char
  ending : RunEnd
  cursor : Cursor
  deriving DecidableEq, Repr

/-- The run with a character in front. -/
def Run.cons (c : Char) (r : Run) : Run := { r with text := c :: r.text }

/-- The characters of a scalar between single quotation marks, up to the next blank, break or
    closing mark.  A mark inside is written twice. -/
def singleRun : List Char → Place → Run
  | '\'' :: '\'' :: r, place => (singleRun r (place.right 2)).cons '\''
  | c :: r, place =>
    if c = '\'' ∨ isGapOrBreak c then ⟨[], .stop, ⟨c :: r, place⟩⟩
    else (singleRun r (place.right 1)).cons c
  | [], place => ⟨[], .stop, ⟨[], place⟩⟩

/-- The value of `n` hexadecimal digits. -/
def hexNumber? (n : Nat) (cs : List Char) : Option Nat :=
  let digits := (cs.take n).filterMap hexValue?
  if digits.length = n then some (digits.foldl (fun v d => v * 16 + d) 0) else none

/-- Read an escape, from its backslash. -/
def readEscape (start : Place) (letter : Char) (c : Cursor) : Except Fault (Char × Cursor) :=
  match escaped? letter with
  | some x => .ok (x, c.skip 2)
  | none =>
    match escapeDigits? letter with
    | none => .error (.within .quotedEscape start .unknownEscape c.place)
    | some n =>
      let c := c.skip 2
      match hexNumber? n c.rest with
      | none => .error (.within .quotedEscape start .escapeDigit c.place)
      | some value =>
        if (0xD800 ≤ value ∧ value ≤ 0xDFFF) ∨ 0x10FFFF < value then
          .error (.within .quotedEscape start .escapeCode c.place)
        else .ok (Char.ofNat value, c.skip n)

/-- The characters of a scalar between double quotation marks, up to the next blank, break or
    closing mark.  Each step reads at least one character. -/
def doubleRun (start : Place) : Nat → Cursor → Except Fault Run
  | 0, c => .ok ⟨[], .stop, c⟩
  | fuel + 1, c =>
    match c.rest with
    | [] => .ok ⟨[], .stop, c⟩
    | [x] =>
      if x = '\\' then .error (.within .quotedEscape start .unknownEscape c.place)
      else if x = '"' ∨ isGapOrBreak x then .ok ⟨[], .stop, c⟩
      else .ok ⟨[x], .stop, c.skip 1⟩
    | x :: y :: _ =>
      if x = '"' ∨ isGapOrBreak x then .ok ⟨[], .stop, c⟩
      else if x = '\\' then
        if isBreak y then .ok ⟨[], .escapedBreak, (c.skip 1).skipBreak⟩
        else do
          let (z, c) ← readEscape start y c
          return (← doubleRun start fuel c).cons z
      else do return (← doubleRun start fuel (c.skip 1)).cons x

/-- Read on in a quoted scalar behind `text`.  Every round reads a run and a gap. -/
def readQuotedFrom (single : Bool) (start : Place) :
    Nat → List Char → Cursor → Except Fault (List Char × Cursor)
  | 0, text, c => .ok (text, c)
  | fuel + 1, text, c => do
    if c.atDocumentMarker then throw (.within .quotedScalar start .quotedMarker c.place)
    if c.atEnd then throw (.within .quotedScalar start .quotedEnd c.place)
    let run ←
      if single then pure (singleRun c.rest c.place)
      else doubleRun start (c.rest.length + 1) c
    let text := text ++ run.text
    let c := run.cursor
    let first := match run.ending with
      | .stop => Gap.none
      | .escapedBreak => ⟨[], [], [], true⟩
    if c.nextIs (fun x => x == (if single then '\'' else '"')) then return (text, c.skip 1)
    match readGap 0 first c.rest c.place with
    | .error place => throw (.within .quotedScalar start .quotedEnd place)
    | .ok (gap, c) => readQuotedFrom single start fuel (text ++ gap.text) c

/-- Read a quoted scalar, from its opening quotation mark. -/
def readQuoted (single : Bool) (c : Cursor) : Except Fault (List Char × Cursor) :=
  readQuotedFrom single c.place (c.rest.length + 1) [] (c.skip 1)

/-! ## Block scalars -/

/-- What becomes of the breaks at the end of a block scalar. -/
inductive Chomping
  /-- None is kept. -/
  | strip
  /-- One is kept. -/
  | clip
  /-- All are kept. -/
  | keep
  deriving DecidableEq, Repr

/-- The chomping mark that comes next, if one does. -/
def readChomping (c : Cursor) : Option (Chomping × Cursor) :=
  if c.nextIs (fun x => x == '+') then some (.keep, c.skip 1)
  else if c.nextIs (fun x => x == '-') then some (.strip, c.skip 1)
  else none

/-- The indentation that comes next as a digit, or zero. -/
def readIndentation (start : Place) (c : Cursor) : Except Fault (Nat × Cursor) :=
  match c.rest with
  | x :: _ =>
    if x = '0' then .error (.within .blockScalar start .zeroIndentation c.place)
    else if x.isDigit then .ok (x.toNat - '0'.toNat, c.skip 1)
    else .ok (0, c)
  | [] => .ok (0, c)

/-- Read the header of a block scalar behind its first character: indentation and chomping in
    either order. -/
def readBlockHeader (start : Place) (c : Cursor) : Except Fault (Nat × Chomping × Cursor) := do
  match readChomping c with
  | some (chomping, c) =>
    let (increment, c) ← readIndentation start c
    return (increment, chomping, c)
  | none =>
    let (increment, c) ← readIndentation start c
    match (if increment = 0 then none else readChomping c) with
    | some (chomping, c) => return (increment, chomping, c)
    | none => return (increment, .clip, c)

/-- Pass over blanks and a comment, up to the end of the line. -/
def skipToBreak (c : Cursor) : Cursor :=
  let c := c.skipWhile isGap
  if c.nextIs (fun x => x == '#') then c.skipWhile (fun x => !isBreak x) else c

/-- Empty lines in a block scalar, and the indentation of the line behind them. -/
structure Margin where
  /-- The breaks of the empty lines. -/
  breaks : List Char
  /-- The widest indentation met. -/
  widest : Nat
  cursor : Cursor
  deriving DecidableEq, Repr

/-- Read empty lines and indentation, up to column `indent` if that is not zero.  The place of
    a tab in the indentation is the error. -/
def readMargin (indent : Nat) : List Char → Nat → List Char → Place → Except Place Margin
  | breaks, widest, '\r' :: '\n' :: r, place =>
    readMargin indent (breaks ++ ['\n']) (max widest place.column) r (place.nextLine 2)
  | breaks, widest, c :: r, place =>
    if (indent = 0 ∨ place.column < indent) ∧ c = ' ' then
      readMargin indent breaks widest r (place.right 1)
    else if (indent = 0 ∨ place.column < indent) ∧ c = '\t' then .error place
    else if isBreak c then
      readMargin indent (breaks ++ Cursor.breakText c) (max widest place.column) r
        (place.nextLine 1)
    else .ok ⟨breaks, max widest place.column, ⟨c :: r, place⟩⟩
  | breaks, widest, [], place => .ok ⟨breaks, max widest place.column, ⟨[], place⟩⟩

/-- A block scalar while it is read. -/
structure Block where
  text : List Char
  /-- The break behind the last line. -/
  last : List Char
  /-- The breaks of the empty lines behind it. -/
  breaks : List Char
  /-- Whether the last line begins with a blank. -/
  blankLine : Bool
  deriving DecidableEq, Repr

/-- The block before the next line, which begins with a blank or not.  In a folded scalar the
    break between two lines without leading blanks becomes a space, or nothing if empty lines
    follow it. -/
def Block.joined (b : Block) (literal blankNext : Bool) : List Char :=
  if !literal && b.last == ['\n'] && !b.blankLine && !blankNext then
    b.text ++ (if b.breaks = [] then [' '] else b.breaks)
  else b.text ++ b.last ++ b.breaks

/-- Read the lines of a block scalar that are indented to column `indent`.  Every round reads a
    line. -/
def readBlockLines (literal : Bool) (indent : Nat) (start : Place) :
    Nat → Block → Cursor → Except Fault (Block × Cursor)
  | 0, b, c => .ok (b, c)
  | fuel + 1, b, c =>
    if c.place.column ≠ indent || c.atEnd then .ok (b, c)
    else
      let blank := c.nextIs isGap
      let (line, c) := c.takeWhile (fun x => !isBreak x)
      let text := b.joined literal blank ++ line
      let last := c.nextBreak
      let c := c.skipBreak
      match readMargin indent [] 0 c.rest c.place with
      | .error place => .error (.within .blockScalar start .blockTab place)
      | .ok m => readBlockLines literal indent start fuel ⟨text, last, m.breaks, blank⟩ m.cursor

/-- The text of a block scalar with its end treated as the header says. -/
def Block.chomped (b : Block) (chomping : Chomping) : List Char :=
  match chomping with
  | .strip => b.text
  | .clip => b.text ++ b.last
  | .keep => b.text ++ b.last ++ b.breaks

/-- Read a block scalar, from its first character; `parent` is the column of the block that it
    stands in, if there is one. -/
def readBlock (literal : Bool) (parent : Option Nat) (c : Cursor) :
    Except Fault (List Char × Cursor) := do
  let start := c.place
  let (increment, chomping, c) ← readBlockHeader start (c.skip 1)
  let c := skipToBreak c
  if !c.atBreak then throw (.within .blockScalar start .blockHeader c.place)
  let c := c.skipBreak
  let given := if increment = 0 then 0 else parent.getD 0 + increment
  match readMargin given [] 0 c.rest c.place with
  | .error place => throw (.within .blockScalar start .blockTab place)
  | .ok m =>
    let least := match parent with
      | some column => column + 1
      | none => 0
    let indent := if given = 0 then max (max m.widest least) 1 else given
    let (b, c) ← readBlockLines literal indent start (c.rest.length + 1)
      ⟨[], [], m.breaks, false⟩ m.cursor
    return (b.chomped chomping, c)

end RunnerCatalog.Yaml
