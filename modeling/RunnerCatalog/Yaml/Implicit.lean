/-
  What a plain scalar means by its form.

  A scalar without quotation marks may stand for nothing, for a truth value or for a number.
  Whoever wants a text takes it as one all the same, but a text of such a form is written in
  quotation marks, so that other readers take it as a text too.
-/
import RunnerCatalog.Decimal.Shortest

namespace RunnerCatalog.Yaml

open Decimal (Binary64)

/-- What a plain scalar may stand for, other than its text. -/
inductive Implicit
  | null
  | boolean (value : Bool)
  | integer (value : Int)
  | finite (value : Binary64)
  | infinite (negative : Bool)
  | notANumber
  deriving DecidableEq, Repr

/-! ## Whole numbers -/

/-- The value of a digit; letters go on after `9`. -/
def digitValue (c : Char) : Nat :=
  if c.isDigit then c.toNat - '0'.toNat
  else if 'a' ≤ c ∧ c ≤ 'z' then c.toNat - 'a'.toNat + 10
  else if 'A' ≤ c ∧ c ≤ 'Z' then c.toNat - 'A'.toNat + 10
  else 36

/-- The number that digits to some base give; `none` if there is no digit or something else. -/
def ofDigits? (base : Nat) (cs : List Char) : Option Nat :=
  if cs = [] ∨ cs.any (fun c => base ≤ digitValue c) then none
  else some (cs.foldl (fun n c => n * base + digitValue c) 0)

/-- The base that a letter stands for behind a zero. -/
def base? (c : Char) : Option Nat :=
  match c with
  | 'x' => some 16
  | 'o' => some 8
  | 'b' => some 2
  | _ => none

/-- Whether a text looks like a number with a needless zero in front.  It is a text. -/
def isPadded (cs : List Char) : Bool :=
  let unsigned :=
    match cs with
    | '+' :: r | '-' :: r => r
    | r => r
  match unsigned with
  | '0' :: c :: r => (c :: r).all Char.isDigit
  | _ => false

/-- The whole number that a text without its sign gives. -/
def natural? (cs : List Char) : Option Nat :=
  match cs with
  | '0' :: c :: r =>
    match base? c with
    | some base => ofDigits? base r
    | none => none
  | cs => ofDigits? 10 cs

/-- The whole number that a text gives, if it fits into 128 bits. -/
def integer? (cs : List Char) : Option Int :=
  match cs with
  | '-' :: r => (natural? r).bind fun n => if n ≤ Nat.pow 2 127 then some (-(n : Int)) else none
  | '+' :: r | r => (natural? r).bind fun n => if n < Nat.pow 2 128 then some (n : Int) else none

/-! ## Other numbers -/

/-- A decimal in the course of being read: its digits, and how many of them stand behind the
    point. -/
structure Digits where
  digits : List Char
  places : Nat
  deriving DecidableEq, Repr

/-- Read digits with a point among them or without one, and at least one digit. -/
def readDigits? (cs : List Char) : Option (Digits × List Char) :=
  let whole := cs.takeWhile Char.isDigit
  match cs.dropWhile Char.isDigit with
  | '.' :: r =>
    let places := r.takeWhile Char.isDigit
    if whole ++ places = [] then none
    else some (⟨whole ++ places, places.length⟩, r.dropWhile Char.isDigit)
  | r => if whole = [] then none else some (⟨whole, 0⟩, r)

/-- The exponent that the rest of a number gives. -/
def exponent? (cs : List Char) : Option Int :=
  match cs with
  | [] => some 0
  | c :: r =>
    if c = 'e' ∨ c = 'E' then
      match r with
      | '-' :: r => (ofDigits? 10 r).map fun n => -(n : Int)
      | '+' :: r | r => (ofDigits? 10 r).map fun n => (n : Int)
    else none

/-- The number `± n · 10 ^ power`, rounded; `none` if it is out of range. -/
def scaled? (negative : Bool) (n : Nat) (power : Int) : Option Binary64 :=
  -- the number lies below `10 ^ size`, and not below a tenth of that
  let size := ((Nat.toDigits 10 n).length : Int) + power
  if n = 0 ∨ size < -330 then some (Binary64.zero negative)
  else if 310 < size then none
  else if 0 ≤ power then Binary64.roundRatio negative (n * Nat.pow 10 power.toNat) 1
  else Binary64.roundRatio negative n (Nat.pow 10 (-power).toNat)

/-- The number that a text gives, if it is not out of range. -/
def finite? (cs : List Char) : Option Binary64 :=
  let (negative, unsigned) :=
    match cs with
    | '-' :: r => (true, r)
    | '+' :: r => (false, r)
    | r => (false, r)
  match readDigits? unsigned with
  | none => none
  | some (d, r) =>
    match exponent? r with
    | none => none
    | some e =>
      scaled? negative (d.digits.foldl (fun n c => n * 10 + digitValue c) 0) (e - d.places)

/-! ## All forms -/

/-- The words that stand for something else than their text. -/
def words : List (String × Implicit) :=
  [("", .null), ("null", .null), ("Null", .null), ("NULL", .null), ("~", .null),
   ("true", .boolean true), ("True", .boolean true), ("TRUE", .boolean true),
   ("false", .boolean false), ("False", .boolean false), ("FALSE", .boolean false),
   (".inf", .infinite false), (".Inf", .infinite false), (".INF", .infinite false),
   ("+.inf", .infinite false), ("+.Inf", .infinite false), ("+.INF", .infinite false),
   ("-.inf", .infinite true), ("-.Inf", .infinite true), ("-.INF", .infinite true),
   (".nan", .notANumber), (".NaN", .notANumber), (".NAN", .notANumber)]

/-- What a plain scalar stands for; `none` if for its text only. -/
def Implicit.ofText? (cs : List Char) : Option Implicit :=
  match words.find? (fun w => w.1.toList == cs) with
  | some w => some w.2
  | none =>
    if isPadded cs then none
    else
      match integer? cs with
      | some n => some (.integer n)
      | none => (finite? cs).map .finite

/-- How numbers are shown: without an exponent. -/
def positional : Decimal.Style := ⟨-400, 400, "", 1⟩

/-- How a message shows what was found. -/
def Implicit.describe : Implicit → String
  | null => "unit value"
  | boolean b => "boolean `" ++ (if b then "true" else "false") ++ "`"
  | integer n =>
    "integer `" ++ toString n ++ "`"
      ++ (if n < -(Nat.pow 2 63 : Int) then " as i128"
        else if (Nat.pow 2 64 : Int) ≤ n then " as u128" else "")
  | finite x => "floating point `" ++ positional.text x ++ "`"
  | infinite negative => "floating point `" ++ (if negative then "-inf" else "inf") ++ "`"
  | notANumber => "floating point `NaN`"

end RunnerCatalog.Yaml
