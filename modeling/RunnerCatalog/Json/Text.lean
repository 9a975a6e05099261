/-
  Blanks, words and strings of JSON.

  `readText` takes what stands between two quotation marks apart: escapes become the
  characters they name, a pair of surrogate escapes becomes one character, and control
  characters must be escaped.  `skipText` passes over a string whose value nobody wants; it
  checks the form of escapes but lets surrogates stand alone, and it stops in front of a
  control character where `readText` stops behind it.
-/
import RunnerCatalog.Json.Fault

namespace RunnerCatalog.Json

/-! ## Blanks and words -/

/-- The blanks between the parts of a JSON text. -/
def isSpace (c : Char) : Bool := c == ' ' || c == '\n' || c == '\t' || c == '\r'

/-- Pass over blanks. -/
def skipSpace (cs : List Char) : List Char := cs.dropWhile isSpace

/-- Pass over the given letters. -/
def skipWord : List Char → List Char → Except Stop (List Char)
  | [], cs => .ok cs
  | _ :: _, [] => .error (.after .endInValue [])
  | w :: ws, c :: r => if c = w then skipWord ws r else .error (.before .expectedWord (c :: r))

/-! ## Escapes -/

/-- The value of a hexadecimal digit. -/
def hexValue? (c : Char) : Option Nat :=
  if '0' ≤ c ∧ c ≤ '9' then some (c.toNat - '0'.toNat)
  else if 'a' ≤ c ∧ c ≤ 'f' then some (c.toNat - 'a'.toNat + 10)
  else if 'A' ≤ c ∧ c ≤ 'F' then some (c.toNat - 'A'.toNat + 10)
  else none

/-- The number that four hexadecimal digits write. -/
def hexNumber? (a b c d : Char) : Option Nat := do
  let a ← hexValue? a
  let b ← hexValue? b
  let c ← hexValue? c
  let d ← hexValue? d
  return ((a * 16 + b) * 16 + c) * 16 + d

/-- The fault of an escape whose four bytes, at the start of `rest`, are not all hexadecimal
    digits. -/
def badHex (rest : List Char) : Stop :=
  if Text.byteLength rest < 4 then .after .endInString [] else ⟨.invalidEscape, rest, 4⟩

/-- The character that a letter stands for behind a backslash. -/
def simpleEscape? (c : Char) : Option Char :=
  match c with
  | '"' => some '"'
  | '\\' => some '\\'
  | '/' => some '/'
  | 'b' => some '\x08'
  | 'f' => some '\x0c'
  | 'n' => some '\n'
  | 'r' => some '\r'
  | 't' => some '\t'
  | _ => none

/-- Whether the number is a leading surrogate. -/
def isLeading (n : Nat) : Bool := 0xD800 ≤ n && n ≤ 0xDBFF

/-- Whether the number is a trailing surrogate. -/
def isTrailing (n : Nat) : Bool := 0xDC00 ≤ n && n ≤ 0xDFFF

/-- The character that two surrogates stand for. -/
def joinSurrogates (lead trail : Nat) : Char :=
  Char.ofNat ((lead - 0xD800) * 0x400 + (trail - 0xDC00) + 0x10000)

/-- The fault of a leading surrogate that the escape `\u` does not follow. -/
def unpaired : List Char → Stop
  | [] => .after .endInString []
  | '\\' :: [] => .after .endInString []
  | '\\' :: r => .before .unfinishedSurrogatePair r
  | r => .before .unfinishedSurrogatePair r

/-! ## Strings -/

/-- Read a string up to and with its closing quotation mark. -/
def readText : List Char → Except Stop (List Char × List Char)
  | [] => .error (.after .endInString [])
  | '"' :: r => .ok ([], r)
  | '\\' :: 'u' :: a :: b :: c :: d :: r =>
    match hexNumber? a b c d with
    | none => .error (badHex (a :: b :: c :: d :: r))
    | some n =>
      if isTrailing n then .error (.after .loneSurrogate r)
      else if isLeading n then
        match r with
        | '\\' :: 'u' :: a :: b :: c :: d :: r =>
          match hexNumber? a b c d with
          | none => .error (badHex (a :: b :: c :: d :: r))
          | some m =>
            if isTrailing m then do
              let (s, rest) ← readText r
              return (joinSurrogates n m :: s, rest)
            else .error (.after .loneSurrogate r)
        | '\\' :: 'u' :: r => .error (badHex r)
        | r => .error (unpaired r)
      else do
        let (s, rest) ← readText r
        return (Char.ofNat n :: s, rest)
  | '\\' :: 'u' :: r => .error (badHex r)
  | '\\' :: [] => .error (.after .endInString [])
  | '\\' :: c :: r =>
    match simpleEscape? c with
    | none => .error (.before .invalidEscape (c :: r))
    | some c => do
      let (s, rest) ← readText r
      return (c :: s, rest)
  | c :: r =>
    if c.val < 0x20 then .error (.after .controlCharacter r)
    else do
      let (s, rest) ← readText r
      return (c :: s, rest)

/-- Pass over a string up to and with its closing quotation mark. -/
def skipText : List Char → Except Stop (List Char)
  | [] => .error (.after .endInString [])
  | '"' :: r => .ok r
  | '\\' :: 'u' :: a :: b :: c :: d :: r =>
    match hexNumber? a b c d with
    | none => .error (badHex (a :: b :: c :: d :: r))
    | some _ => skipText r
  | '\\' :: 'u' :: r => .error (badHex r)
  | '\\' :: [] => .error (.after .endInString [])
  | '\\' :: c :: r =>
    match simpleEscape? c with
    | none => .error (.before .invalidEscape (c :: r))
    | some _ => skipText r
  | c :: r => if c.val < 0x20 then .error (.after .controlCharacter (c :: r)) else skipText r

end RunnerCatalog.Json
