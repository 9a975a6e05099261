/-
  Patterns for paths.

  In a pattern `?` stands for one character, `*` for any number of them, and `[...]` for one
  character of a list of members and ranges, or, behind `[!`, for one outside it.  A
  component `**` stands for any number of directories; elsewhere two stars, or more of them,
  are faults, and so is a `[` that is not closed.  All other characters stand for themselves.

  `Wildcard.parse` takes a pattern apart or says what is wrong with it and where;
  `Wildcard.accepts` decides whether a name fits.
-/
import RunnerCatalog.Text.Units

namespace RunnerCatalog.Files

/-! ## Patterns -/

/-- A member of a bracketed list. -/
inductive Member
  | one (c : Char)
  | range (first last : Char)
  deriving DecidableEq, Repr

/-- Whether a character is meant. -/
def Member.covers : Member → Char → Bool
  | one c, x => x == c
  | range first last, x => first ≤ x && x ≤ last

/-- A part of a pattern. -/
inductive Wildcard
  /-- The character itself. -/
  | char (c : Char)
  /-- Any character. -/
  | anyChar
  /-- Any number of characters. -/
  | anyText
  /-- Any number of directories. -/
  | anyDepth
  /-- A character of the list. -/
  | within (members : List Member)
  /-- A character that is not in the list. -/
  | except (members : List Member)
  deriving DecidableEq, Repr

/-- What is wrong with a pattern. -/
inductive PatternFault
  | tooManyStars
  | starsNotAlone
  | openBracket
  deriving DecidableEq, Repr

/-- A fault with the index of the character that it is reported at. -/
structure PatternError where
  position : Nat
  fault : PatternFault
  deriving DecidableEq, Repr

/-- The wording of a fault. -/
def PatternFault.describe : PatternFault → String
  | tooManyStars => "wildcards are either regular `*` or recursive `**`"
  | starsNotAlone => "recursive wildcards must form a single path component"
  | openBracket => "invalid range pattern"

/-- The wording of an error. -/
def PatternError.describe (e : PatternError) : String :=
  "Pattern syntax error near position " ++ toString e.position ++ ": " ++ e.fault.describe

namespace Wildcard

/-! ## Reading patterns -/

/-- The members of a bracketed list. -/
def members : List Char → List Member
  | a :: '-' :: b :: r => .range a b :: members r
  | a :: r => .one a :: members r
  | [] => []

/-- Split at the first closing bracket behind the first character. -/
def splitBracket (cs : List Char) : Option (List Char × List Char) :=
  match cs with
  | [] => none
  | c :: r =>
    match r.dropWhile (fun x => x != ']') with
    | _ :: rest => some (c :: r.takeWhile (fun x => x != ']'), rest)
    | [] => none

/-- Take apart the rest of a pattern from index `position`; `before` is the character in front
    of it.  Every step makes the rest shorter. -/
def parseFrom : Nat → Nat → Option Char → List Char → Except PatternError (List Wildcard)
  | 0, _, _, _ => .ok []
  | _ + 1, _, _, [] => .ok []
  | fuel + 1, position, before, c :: r =>
    if c = '?' then do return .anyChar :: (← parseFrom fuel (position + 1) (some c) r)
    else if c = '*' then
      let more := (r.takeWhile (fun x => x == '*')).length
      let rest := r.dropWhile (fun x => x == '*')
      if more = 0 then do return .anyText :: (← parseFrom fuel (position + 1) (some c) r)
      else if 1 < more then .error ⟨position + 2, .tooManyStars⟩
      else if before = none ∨ before = some '/' then
        match rest with
        | [] => .ok [.anyDepth]
        | x :: rest =>
          if x = '/' then do
            return .anyDepth :: (← parseFrom fuel (position + 3) (some '/') rest)
          else .error ⟨position + 2, .starsNotAlone⟩
      else .error ⟨position - 1, .starsNotAlone⟩
    else if c = '[' then
      match r with
      | '!' :: r =>
        match splitBracket r with
        | some (list, rest) => do
          return .except (members list)
            :: (← parseFrom fuel (position + list.length + 3) (some ']') rest)
        | none => .error ⟨position, .openBracket⟩
      | r =>
        match splitBracket r with
        | some (list, rest) => do
          return .within (members list)
            :: (← parseFrom fuel (position + list.length + 2) (some ']') rest)
        | none => .error ⟨position, .openBracket⟩
    else do return .char c :: (← parseFrom fuel (position + 1) (some c) r)

/-- Take a pattern apart. -/
def parse (pattern : List Char) : Except PatternError (List Wildcard) :=
  parseFrom (pattern.length + 1) 0 none pattern

/-- The pattern that stands for exactly the given text. -/
def escape (cs : List Char) : List Char :=
  cs.flatMap fun c =>
    if c = '?' ∨ c = '*' ∨ c = '[' ∨ c = ']' then ['[', c, ']'] else [c]

/-! ## Matching -/

/-- Whether a part that stands for one character stands for `c`. -/
def covers : Wildcard → Char → Bool
  | char x, c => c == x
  | anyChar, _ => true
  | within list, c => list.any fun m => m.covers c
  | except list, c => !list.any fun m => m.covers c
  | _, _ => false

/-- Whether some rest of a text satisfies `p`. -/
def anySuffix (p : List Char → Bool) : List Char → Bool
  | [] => p []
  | c :: r => p (c :: r) || anySuffix p r

/-- Whether a name fits a pattern. -/
def accepts : List Wildcard → List Char → Bool
  | [], cs => cs.isEmpty
  | anyText :: ws, cs => anySuffix (accepts ws) cs
  | anyDepth :: ws, cs => anySuffix (accepts ws) cs
  | w :: ws, cs =>
    match cs with
    | [] => false
    | c :: r => w.covers c && accepts ws r

/-- The text that a pattern stands for, if it stands for one text only. -/
def literal? : List Wildcard → Option (List Char)
  | [] => some []
  | char c :: ws => (literal? ws).map (c :: ·)
  | _ :: _ => none

end Wildcard

end RunnerCatalog.Files
