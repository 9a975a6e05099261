/-
  The directive that names the runner of a script.

      /// runner: obj_enemy

  It stands at the start of a line: two or three slashes, blanks, the word `runner:`, and the
  name.  The search is a backtracking one.  Each part of the directive is matched in the order
  of preference given here (`optionally` and `asManyAs` prefer to take, `asFewAs` prefers to
  stop), and the first complete match from the left counts.  The blanks behind the name may
  run over several line ends.  A directive whose name is blank is passed over.
-/
import RunnerCatalog.Text.Blank

namespace RunnerCatalog.Script

/-! ## Matching -/

/-- A match of the rest of a pattern at the start of a text. -/
abbrev Matcher (α : Type) := List Char → Option α

/-- The given characters, then `next`. -/
def exactly {α : Type} : List Char → Matcher α → Matcher α
  | [], next, cs => next cs
  | _ :: _, _, [] => none
  | w :: ws, next, c :: r => if c = w then exactly ws next r else none

/-- The character `w` if it is there and the rest matches behind it, then `next`. -/
def optionally {α : Type} (w : Char) (next : Matcher α) : Matcher α
  | [] => next []
  | c :: r =>
    match (if c = w then next r else none) with
    | some a => some a
    | none => next (c :: r)

/-- As many characters of a class as the rest allows, then `next`. -/
def asManyAs {α : Type} (p : Char → Bool) (next : Matcher α) : Matcher α
  | [] => next []
  | c :: r =>
    match (if p c then asManyAs p next r else none) with
    | some a => some a
    | none => next (c :: r)

/-- At least one character of a class, but as few as the rest allows, then `next`, which is
    told the characters taken, last one first; `taken` are those taken so far. -/
def asFewAs {α : Type} (p : Char → Bool) (next : List Char → Matcher α) :
    List Char → Matcher α
  | _, [] => none
  | taken, c :: r =>
    if p c then
      match next (c :: taken) r with
      | some a => some a
      | none => asFewAs p next (c :: taken) r
    else none

/-- The end of a line. -/
def atLineEnd {α : Type} (next : Matcher α) : Matcher α := fun cs =>
  match cs with
  | [] => next []
  | c :: r => if c = '\n' then next (c :: r) else none

/-! ## The directive -/

/-- A space or a tab. -/
def isGap (c : Char) : Bool := c == ' ' || c == '\t'

/-- The directive at the start of a text: the name as written, and the text behind the
    match. -/
def directiveHere : Matcher (List Char × List Char) :=
  exactly ['/', '/'] <| optionally '/' <| asManyAs isGap <|
    exactly ['r', 'u', 'n', 'n', 'e', 'r', ':'] <| asManyAs isGap <|
      asFewAs (fun c => c != '\n') (fun taken =>
        asManyAs Text.isBlank <| atLineEnd fun rest => some (taken.reverse, rest)) []

/-- The first directive with a name that is not blank.  `lineStart` tells whether the text
    begins at the start of a line.  Every step makes the text shorter. -/
def searchDirective : Nat → Bool → List Char → Option (List Char)
  | 0, _, _ => none
  | fuel + 1, lineStart, cs =>
    match (if lineStart then directiveHere cs else none) with
    | some (name, rest) =>
      if Text.trim name = [] then searchDirective fuel false rest
      else some (Text.trim name)
    | none =>
      match cs with
      | [] => none
      | c :: r => searchDirective fuel (c == '\n') r

/-- The runner that a script names. -/
def namedRunner (text : String) : Option String :=
  (searchDirective (text.toList.length + 1) true text.toList).map String.ofList

/-- The runner that a script uses: the one it names, or the default one. -/
def runnerOf (text default : String) : String := (namedRunner text).getD default

end RunnerCatalog.Script
