/-
  Passing over a value that nobody wants.

  Such a value is checked for its form only, to any depth.  The reader keeps the brackets that
  are open in a list, innermost first, so it needs no recursion into the value:
  after each scalar it closes as many brackets as the text does (`closeBrackets`), and then
  either it is done or the next value of an open bracket follows.
-/
import RunnerCatalog.Json.Number

namespace RunnerCatalog.Json

/-- An open bracket. -/
inductive Bracket
  | list
  | object
  deriving DecidableEq, Repr

namespace Bracket

/-- The character that closes the bracket. -/
def closing : Bracket → Char
  | list => ']'
  | object => '\x7d'

/-- The fault of a text that ends inside the bracket. -/
def endFault : Bracket → Fault
  | list => .endInList
  | object => .endInObject

/-- The fault of anything but a comma or the closing bracket behind an element. -/
def commaFault : Bracket → Fault
  | list => .expectedCommaOrBracket
  | object => .expectedCommaOrBrace

end Bracket

/-- Pass over the colon between a key and its value. -/
def skipColon (cs : List Char) : Except Stop (List Char) :=
  match skipSpace cs with
  | ':' :: r => .ok r
  | [] => .error (.before .endInObject [])
  | r => .error (.before .expectedColon r)

/-- Pass over what stands before the value of an element: nothing in a list, the key and its
    colon in an object. -/
def skipKey (b : Bracket) (cs : List Char) : Except Stop (List Char) :=
  match b with
  | .list => .ok cs
  | .object =>
    match skipSpace cs with
    | '"' :: r => do
      let r ← skipText r
      skipColon r
    | [] => .error (.before .endInObject [])
    | r => .error (.before .keyNotText r)

/-- Close brackets, innermost first, until the text asks for another value.  `more` tells
    whether a comma may stand here.  The answer is the list of brackets still open around the
    next value, or `none` at the end of the outermost one. -/
def closeBrackets : List Bracket → Bool → List Char →
    Except Stop (Option (List Bracket) × List Char)
  | [], _, cs => .ok (none, cs)
  | b :: outer, more, cs =>
    match skipSpace cs with
    | [] => .error (.before b.endFault [])
    | c :: r =>
      if c = ',' ∧ more then do
        let r ← skipKey b r
        return (some (b :: outer), r)
      else if c = b.closing then closeBrackets outer true r
      else if more then .error (.before b.commaFault (c :: r))
      else do
        let r ← skipKey b (c :: r)
        return (some (b :: outer), r)

/-- Pass over a scalar or an opening bracket; the bracket is returned. -/
def skipStart (cs : List Char) : Except Stop (Option Bracket × List Char) :=
  match skipSpace cs with
  | [] => .error (.before .endInValue [])
  | 'n' :: r => do return (none, ← skipWord ['u', 'l', 'l'] r)
  | 't' :: r => do return (none, ← skipWord ['r', 'u', 'e'] r)
  | 'f' :: r => do return (none, ← skipWord ['a', 'l', 's', 'e'] r)
  | '-' :: r => do return (none, ← skipNumber r)
  | '"' :: r => do return (none, ← skipText r)
  | '[' :: r => .ok (some .list, r)
  | '\x7b' :: r => .ok (some .object, r)
  | c :: r =>
    if isDigit c then do return (none, ← skipNumber (c :: r))
    else .error (.before .expectedValue (c :: r))

/-- Pass over values, one scalar or opening bracket at a time, until all of `brackets` is closed.
    Each step reads at least one character. -/
def skipWithin : Nat → List Bracket → List Char → Except Stop (List Char)
  | 0, _, cs => .ok cs
  | fuel + 1, brackets, cs => do
    let (opened, r) ← skipStart cs
    let next ←
      match opened with
      | some b => closeBrackets (b :: brackets) false r
      | none => closeBrackets brackets true r
    match next with
    | (none, r) => return r
    | (some brackets, r) => skipWithin fuel brackets r

/-- Pass over a value. -/
def skipValue (cs : List Char) : Except Stop (List Char) := skipWithin (cs.length + 1) [] cs

end RunnerCatalog.Json
