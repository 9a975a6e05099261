/-
  The tokens of a YAML text.

  The structure of a text is given by brackets, by indentation, and by a few marks.  Where
  indentation opens or closes a collection, the scanner says so by tokens of their own.  A key
  is only known to be one when its colon comes; until then its place among the tokens is
  remembered (`Candidate`), and the tokens that announce the key are put in there afterwards
  (`insertAt`).
-/
import RunnerCatalog.Text.Units
import RunnerCatalog.Yaml.Scalar

namespace RunnerCatalog.Yaml

/-! ## Tokens -/

/-- A part of a YAML text. -/
inductive Token
  | streamEnd
  | version (major minor : Nat)
  | handle (handle tagStart : List Char)
  | documentStart
  | documentEnd
  | blockSequenceStart
  | blockMappingStart
  | blockEnd
  | flowSequenceStart
  | flowSequenceEnd
  | flowMappingStart
  | flowMappingEnd
  | blockEntry
  | flowEntry
  | key
  | value
  | alias (name : List Char)
  | anchor (name : List Char)
  | tag (handle suffix : List Char)
  | scalar (text : List Char) (plain : Bool)
  deriving DecidableEq, Repr

/-- A part of a text with the place where it begins. -/
structure Placed (α : Type) where
  value : α
  place : Place
  deriving DecidableEq, Repr

/-- Put an element into a list in front of the one at an index. -/
def insertAt {α : Type} : Nat → α → List α → List α
  | 0, x, xs => x :: xs
  | _ + 1, x, [] => [x]
  | n + 1, x, y :: ys => y :: insertAt n x ys

/-! ## The state of a scan -/

/-- A place where a key may have begun. -/
structure Candidate where
  /-- How many tokens stand in front of it. -/
  index : Nat
  place : Place
  /-- Whether it has to be a key. -/
  required : Bool
  deriving DecidableEq, Repr

/-- The state of a scan. -/
structure Scan where
  cursor : Cursor
  /-- The tokens so far. -/
  tokens : List (Placed Token)
  /-- The columns of the open blocks, innermost first. -/
  blocks : List Nat
  /-- Whether a key may begin here. -/
  keyAllowed : Bool
  /-- The candidate outside all brackets. -/
  outer : Option Candidate
  /-- The candidates within the open brackets, innermost first. -/
  inner : List (Option Candidate)
  deriving DecidableEq, Repr

namespace Scan

/-- The beginning of a scan. -/
def ofText (text : List Char) : Scan := ⟨Cursor.ofText text, [], [], true, none, []⟩

/-- Whether the scan is within brackets. -/
def inFlow (s : Scan) : Bool := !s.inner.isEmpty

/-- The place of the cursor. -/
def place (s : Scan) : Place := s.cursor.place

/-- Add a token that begins at a place. -/
def emit (s : Scan) (token : Token) (place : Place) : Scan :=
  { s with tokens := s.tokens ++ [⟨token, place⟩] }

/-- Add a token of `n` characters and go on behind it. -/
def emitSkip (s : Scan) (token : Token) (n : Nat) : Scan :=
  { s.emit token s.place with cursor := s.cursor.skip n }

/-- The candidate of the innermost brackets. -/
def candidate (s : Scan) : Option Candidate :=
  match s.inner with
  | c :: _ => c
  | [] => s.outer

/-- Set the candidate of the innermost brackets. -/
def setCandidate (s : Scan) (c : Option Candidate) : Scan :=
  match s.inner with
  | _ :: more => { s with inner := c :: more }
  | [] => { s with outer := c }

/-- The fault of a candidate that had to be a key. -/
def missingColon (s : Scan) (c : Candidate) : Fault :=
  .within .simpleKey c.place .missingColon s.place

/-- Give up the candidate of the innermost brackets. -/
def dropCandidate (s : Scan) : Except Fault Scan :=
  match s.candidate with
  | some c => if c.required then .error (s.missingColon c) else .ok (s.setCandidate none)
  | none => .ok s

/-- Note that a key may begin here. -/
def saveCandidate (s : Scan) : Except Fault Scan :=
  if s.keyAllowed then do
    let required := !s.inFlow && s.blocks.head? == some s.place.column
    let c : Candidate := ⟨s.tokens.length, s.place, required⟩
    return (← s.dropCandidate).setCandidate (some c)
  else .ok s

/-- Whether a candidate is too far back: on another line, or more than 1024 characters. -/
def isStale (s : Scan) (c : Candidate) : Bool :=
  c.place.line < s.place.line || c.place.index + 1024 < s.place.index

/-- A candidate, unless it is too far back. -/
def freshen (s : Scan) (c : Option Candidate) : Except Fault (Option Candidate) :=
  match c with
  | some c =>
    if s.isStale c then
      if c.required then .error (s.missingColon c) else .ok none
    else .ok (some c)
  | none => .ok none

/-- Give up the candidates that are too far back. -/
def dropStale (s : Scan) : Except Fault Scan := do
  let outer ← s.freshen s.outer
  let inner ← s.inner.reverse.mapM s.freshen
  return { s with outer, inner := inner.reverse }

/-! ## Indentation -/

/-- Close the blocks that begin right of a column; `none` closes all. -/
def closeBlocks (column : Option Nat) : List Nat → List Nat × Nat
  | [] => ([], 0)
  | b :: bs =>
    if column.all (fun c => c < b) then
      let (rest, n) := closeBlocks column bs
      (rest, n + 1)
    else (b :: bs, 0)

/-- Close the blocks that end here, outside brackets. -/
def unindent (s : Scan) (column : Option Nat) : Scan :=
  if s.inFlow then s
  else
    let (blocks, n) := closeBlocks column s.blocks
    { s with blocks, tokens := s.tokens ++ List.replicate n ⟨.blockEnd, s.place⟩ }

/-- Open a block at a column right of the innermost one, outside brackets; its token goes in at
    an index. -/
def indent (s : Scan) (column index : Nat) (token : Token) (place : Place) : Scan :=
  if s.inFlow then s
  else if s.blocks.head?.all (fun b => b < column) then
    { s with blocks := column :: s.blocks, tokens := insertAt index ⟨token, place⟩ s.tokens }
  else s

/-! ## Between tokens -/

/-- Pass over blanks, comments and breaks, and over a byte order mark where a line begins.
    Outside brackets a new line may begin a key.  Every round passes over a line. -/
def skipBlanks : Nat → Scan → Scan
  | 0, s => s
  | fuel + 1, s =>
    let c := s.cursor
    let c := if c.place.column == 0 && c.nextIs (fun x => x == '\ufeff') then c.skip 1 else c
    let tabs := s.inFlow || !s.keyAllowed
    let c := c.skipWhile (fun x => x == ' ' || (tabs && x == '\t'))
    let c := if c.nextIs (fun x => x == '#') then c.skipWhile (fun x => !isBreak x) else c
    if c.nextIs isBreak then
      skipBlanks fuel
        { s with cursor := c.skipBreak, keyAllowed := s.keyAllowed || !s.inFlow }
    else { s with cursor := c }

/-! ## Anchors and tags -/

/-- The characters that may stand behind the name of an anchor, apart from blanks. -/
def isAnchorEnd (c : Char) : Bool :=
  c == '?' || c == ':' || c == ',' || c == ']' || c == '\x7d' || c == '%' || c == '@' || c == '\x60'

/-- Read the name of an anchor or an alias, from its mark. -/
def readAnchor (context : Context) (c : Cursor) : Except Fault (List Char × Cursor) :=
  let start := c.place
  let (name, c) := (c.skip 1).takeWhile isNameChar
  if name.isEmpty || !(c.atGapOrBreak || c.nextIs isAnchorEnd) then
    .error (.within context start .anchorName c.place)
  else .ok (name, c)

/-- The characters of tags; `verbatim` tags may hold a few more. -/
def isTagChar (verbatim : Bool) (c : Char) : Bool :=
  isNameChar c || [';', '/', '?', ':', '@', '&', '=', '+', '$', '.', '%', '!', '~', '*', '\'',
    '(', ')'].contains c || (verbatim && [',', '[', ']'].contains c)

/-- The number of bytes of a character whose first byte is given, or zero. -/
def encodedLength (first : Nat) : Nat :=
  if first < 0x80 then 1
  else if 0xC0 ≤ first ∧ first < 0xE0 then 2
  else if 0xE0 ≤ first ∧ first < 0xF0 then 3
  else if 0xF0 ≤ first ∧ first < 0xF8 then 4
  else 0

/-- Whether the escapes of a tag are right: `%` with two hexadecimal digits each, and as many of
    them in a row as the character needs that they encode. -/
def escapesRight : Nat → List Char → Bool
  | pending, '%' :: a :: b :: r =>
    match hexValue? a, hexValue? b with
    | some a, some b =>
      let octet := a * 16 + b
      if pending = 0 then
        if encodedLength octet = 0 then false else escapesRight (encodedLength octet - 1) r
      else if 0x80 ≤ octet ∧ octet < 0xC0 then escapesRight (pending - 1) r
      else false
    | _, _ => false
  | pending, c :: r => pending = 0 && c != '%' && escapesRight 0 r
  | pending, [] => pending = 0

/-- Read the text of a tag behind the part `head` that was read already. -/
def readTagText (verbatim : Bool) (context : Context) (head : List Char) (start : Place)
    (c : Cursor) : Except Fault (List Char × Cursor) :=
  let (text, behind) := c.takeWhile (isTagChar verbatim)
  if !escapesRight 0 text then .error (.within context start .tagEscape c.place)
  else if head.isEmpty && text.isEmpty then .error (.within context start .tagText c.place)
  else .ok (head.drop 1 ++ text, behind)

/-- Read a tag, from its mark: the handle and the rest. -/
def readTag (flow : Bool) (c : Cursor) : Except Fault ((List Char × List Char) × Cursor) := do
  let start := c.place
  let (parts, c) ←
    match c.rest with
    | '!' :: '<' :: _ => do
      let (suffix, c) ← readTagText true .tagText [] start (c.skip 2)
      if !c.nextIs (fun x => x == '>') then throw (.within .tag start .tagBracket c.place)
      pure ((([], suffix) : List Char × List Char), c.skip 1)
    | _ => do
      let (name, behind) := (c.skip 1).takeWhile isNameChar
      if behind.nextIs (fun x => x == '!') then
        let (suffix, c) ← readTagText false .tagText [] start (behind.skip 1)
        pure (('!' :: name ++ ['!'], suffix), c)
      else
        let (suffix, c) ← readTagText false .tagText ('!' :: name) start behind
        if suffix.isEmpty then pure ((([], ['!']) : List Char × List Char), c)
        else pure ((['!'], suffix), c)
  if !(c.atGapOrBreak || (flow && c.nextIs (fun x => x == ','))) then
    throw (.within .tag start .tagEnd c.place)
  return (parts, c)

/-! ## Directives -/

/-- Read a number of a version. -/
def readVersionNumber (start : Place) (c : Cursor) : Except Fault (Nat × Cursor) :=
  let (digits, behind) := c.takeWhile Char.isDigit
  if digits.isEmpty then .error (.within .versionDirective start .directiveVersion c.place)
  else if 9 < digits.length then
    .error (.within .versionDirective start .directiveVersionLong (c.place.right 9))
  else .ok (digits.foldl (fun n d => n * 10 + (d.toNat - '0'.toNat)) 0, behind)

/-- Read the version of a `%YAML` directive. -/
def readVersion (start : Place) (c : Cursor) : Except Fault (Token × Cursor) := do
  let (major, c) ← readVersionNumber start (c.skipWhile isGap)
  if !c.nextIs (fun x => x == '.') then
    throw (.within .versionDirective start .directiveVersionDot c.place)
  let (minor, c) ← readVersionNumber start (c.skip 1)
  return (.version major minor, c)

/-- Read the handle of a `%TAG` directive and what it stands for. -/
def readHandle (start : Place) (c : Cursor) : Except Fault (Token × Cursor) := do
  let c := c.skipWhile isGap
  if !c.nextIs (fun x => x == '!') then
    throw (.within .tagDirectiveMark start .directiveHandle c.place)
  let (name, behind) := (c.skip 1).takeWhile isNameChar
  let (handle, c) ←
    if behind.nextIs (fun x => x == '!') then pure ('!' :: name ++ ['!'], behind.skip 1)
    else if name.isEmpty then pure (['!'], behind)
    else throw (.within .tagDirectiveHandle start .directiveHandle behind.place)
  if !c.nextIs isGap then throw (.within .tagDirective start .directiveBlank c.place)
  let (tagStart, c) ← readTagText true .tagDirectiveText [] start (c.skipWhile isGap)
  if !c.atGapOrBreak then throw (.within .tagDirective start .tagEnd c.place)
  return (.handle handle tagStart, c)

/-- Read a directive, from its mark, with the rest of its line. -/
def readDirective (c : Cursor) : Except Fault (Token × Cursor) := do
  let start := c.place
  let (name, c) := (c.skip 1).takeWhile isNameChar
  if name.isEmpty then throw (.within .directive start .directiveName c.place)
  if !c.atGapOrBreak then throw (.within .directive start .directiveNonAlphabetic c.place)
  let (token, c) ←
    if name = ['Y', 'A', 'M', 'L'] then readVersion start c
    else if name = ['T', 'A', 'G'] then readHandle start c
    else throw (.within .directive start .directiveUnknown c.place)
  let c := skipToBreak c
  if !c.atBreak then throw (.within .directive start .directiveEnd c.place)
  return (token, c.skipBreak)

/-! ## The next token -/

/-- The characters that begin no plain scalar, apart from `-`, `?` and `:`. -/
def isIndicator (c : Char) : Bool :=
  [',', '[', ']', '\x7b', '\x7d', '#', '&', '*', '!', '|', '>', '\'', '"', '%', '@',
    '\x60'].contains c

/-- Whether the cursor stands in front of a plain scalar. -/
def startsPlain (flow : Bool) (c : Cursor) : Bool :=
  match c.rest with
  | [] => false
  | x :: r =>
    if x == '-' then !(r.head?.any isGap)
    else if x == '?' || x == ':' then !flow && !followedByGap r
    else !isGapOrBreak x && !isIndicator x

/-- The end of the text. -/
def fetchEnd (s : Scan) : Except Fault Scan := do
  let place := s.place
  let place : Place := if place.column = 0 then place else ⟨place.index, place.line + 1, 0⟩
  let s := { s with cursor := ⟨[], place⟩ }
  let s ← (s.unindent none).dropCandidate
  return { s.emit .streamEnd place with keyAllowed := false }

/-- A directive. -/
def fetchDirective (s : Scan) : Except Fault Scan := do
  let s ← (s.unindent none).dropCandidate
  let (token, c) ← readDirective s.cursor
  return { s.emit token s.place with cursor := c, keyAllowed := false }

/-- The mark between documents. -/
def fetchMarker (s : Scan) (token : Token) : Except Fault Scan := do
  let s ← (s.unindent none).dropCandidate
  return { s.emitSkip token 3 with keyAllowed := false }

/-- An opening bracket. -/
def fetchOpen (s : Scan) (token : Token) : Except Fault Scan := do
  let s ← s.saveCandidate
  return { s.emitSkip token 1 with inner := none :: s.inner, keyAllowed := true }

/-- A closing bracket. -/
def fetchClose (s : Scan) (token : Token) : Except Fault Scan := do
  let s ← s.dropCandidate
  return { s.emitSkip token 1 with inner := s.inner.drop 1, keyAllowed := false }

/-- A comma. -/
def fetchComma (s : Scan) : Except Fault Scan := do
  let s ← s.dropCandidate
  return { s.emitSkip .flowEntry 1 with keyAllowed := true }

/-- The mark of an entry of a sequence. -/
def fetchBlockEntry (s : Scan) : Except Fault Scan := do
  if !s.inFlow && !s.keyAllowed then throw (.plain .entryNotAllowed s.place)
  let s := s.indent s.place.column s.tokens.length .blockSequenceStart s.place
  let s ← s.dropCandidate
  return { s.emitSkip .blockEntry 1 with keyAllowed := true }

/-- The mark of a key. -/
def fetchKey (s : Scan) : Except Fault Scan := do
  if !s.inFlow && !s.keyAllowed then throw (.plain .keyNotAllowed s.place)
  let s := s.indent s.place.column s.tokens.length .blockMappingStart s.place
  let s ← s.dropCandidate
  return { s.emitSkip .key 1 with keyAllowed := !s.inFlow }

/-- The mark of a value.  If a key may have begun before, it has. -/
def fetchValue (s : Scan) : Except Fault Scan :=
  match s.candidate with
  | some c =>
    let s := { s with tokens := insertAt c.index ⟨.key, c.place⟩ s.tokens }
    let s := s.indent c.place.column c.index .blockMappingStart c.place
    let s := s.setCandidate none
    .ok { s.emitSkip .value 1 with keyAllowed := false }
  | none => do
    if !s.inFlow && !s.keyAllowed then throw (.plain .valueNotAllowed s.place)
    let s := s.indent s.place.column s.tokens.length .blockMappingStart s.place
    return { s.emitSkip .value 1 with keyAllowed := !s.inFlow }

/-- An anchor or an alias. -/
def fetchAnchor (s : Scan) (context : Context) (token : List Char → Token) :
    Except Fault Scan := do
  let s ← s.saveCandidate
  let (name, c) ← readAnchor context s.cursor
  return { s.emit (token name) s.place with cursor := c, keyAllowed := false }

/-- A tag. -/
def fetchTag (s : Scan) : Except Fault Scan := do
  let s ← s.saveCandidate
  let ((handle, suffix), c) ← readTag s.inFlow s.cursor
  return { s.emit (.tag handle suffix) s.place with cursor := c, keyAllowed := false }

/-- A block scalar. -/
def fetchBlock (s : Scan) (literal : Bool) : Except Fault Scan := do
  let s ← s.dropCandidate
  let (text, c) ← readBlock literal s.blocks.head? s.cursor
  return { s.emit (.scalar text false) s.place with cursor := c, keyAllowed := true }

/-- A quoted scalar. -/
def fetchQuoted (s : Scan) (single : Bool) : Except Fault Scan := do
  let s ← s.saveCandidate
  let (text, c) ← readQuoted single s.cursor
  return { s.emit (.scalar text false) s.place with cursor := c, keyAllowed := false }

/-- A plain scalar. -/
def fetchPlain (s : Scan) : Except Fault Scan := do
  let s ← s.saveCandidate
  let indent := match s.blocks.head? with
    | some b => b + 1
    | none => 0
  let (text, broken, c) ← readPlain s.inFlow indent s.cursor
  return { s.emit (.scalar text true) s.place with cursor := c, keyAllowed := broken }

/-- Scan the token that begins where the scan stands. -/
def fetch (s : Scan) : Except Fault Scan :=
  let c := s.cursor
  match c.rest with
  | [] => s.fetchEnd
  | x :: r =>
    if c.place.column = 0 ∧ x = '%' then s.fetchDirective
    else if c.atMarker '-' then s.fetchMarker .documentStart
    else if c.atMarker '.' then s.fetchMarker .documentEnd
    else if x = '[' then s.fetchOpen .flowSequenceStart
    else if x = '\x7b' then s.fetchOpen .flowMappingStart
    else if x = ']' then s.fetchClose .flowSequenceEnd
    else if x = '\x7d' then s.fetchClose .flowMappingEnd
    else if x = ',' then s.fetchComma
    else if x = '-' ∧ followedByGap r then s.fetchBlockEntry
    else if x = '?' ∧ (s.inFlow ∨ followedByGap r) then s.fetchKey
    else if x = ':' ∧ (s.inFlow ∨ followedByGap r) then s.fetchValue
    else if x = '*' then s.fetchAnchor .alias .alias
    else if x = '&' then s.fetchAnchor .anchor .anchor
    else if x = '!' then s.fetchTag
    else if x = '|' ∧ !s.inFlow then s.fetchBlock true
    else if x = '>' ∧ !s.inFlow then s.fetchBlock false
    else if x = '\'' then s.fetchQuoted true
    else if x = '"' then s.fetchQuoted false
    else if startsPlain s.inFlow c then s.fetchPlain
    else .error (.within .token s.place .noTokenStart s.place)

/-- Scan the next token. -/
def next (s : Scan) : Except Fault Scan := do
  let s := skipBlanks (s.cursor.rest.length + 1) s
  let s ← s.dropStale
  (s.unindent (some s.place.column)).fetch

/-- The tokens that nothing can be put in front of any more: those before all candidates. -/
def settled (s : Scan) : List (Placed Token) :=
  let candidates := (s.outer :: s.inner).filterMap id
  s.tokens.take (candidates.foldl (fun n c => min n c.index) s.tokens.length)

/-- Scan tokens up to the end of the text, or up to a fault; with a fault only the settled
    tokens count.  Every round reads at least one character, or the end. -/
def run : Nat → Scan → List (Placed Token) × Option Fault
  | 0, s => (s.tokens, none)
  | fuel + 1, s =>
    match s.dropStale with
    | .error fault => (s.settled, some fault)
    | .ok s =>
      match s.next with
      | .error fault => (s.settled, some fault)
      | .ok s =>
        if s.tokens.getLast?.any (fun t => t.value == .streamEnd) then (s.tokens, none)
        else run fuel s

end Scan

/-- The tokens of a text, up to the first fault if there is one. -/
def tokens (text : List Char) : List (Placed Token) × Option Fault :=
  let head := text.takeWhile isAllowed
  if head.length < text.length then
    ([], some (.plain (.controlCharacter (Text.byteLength head)) Place.start))
  else Scan.run (text.length + 2) (Scan.ofText text)

end RunnerCatalog.Yaml
