/-
  Numbers of JSON.

  Whole numbers of 64 bits are kept exactly, `-0` and all others become numbers of 53 bits.
  Those are worked out in two rounded steps: the digits are collected while they fit into 64
  bits, and the collected number is then multiplied or divided by a power of ten, itself
  rounded.  A number that nobody wants is only checked for its form (`skipNumber`).
-/
import RunnerCatalog.Json.Text

namespace RunnerCatalog.Json

open Decimal (Binary64)

/-! ## Digits -/

/-- Whether the character is an ASCII digit. -/
def isDigit (c : Char) : Bool := '0' ≤ c && c ≤ '9'

/-- The value of a digit. -/
def digitValue (c : Char) : Nat := c.toNat - '0'.toNat

/-- Whether a text begins with a digit. -/
def startsWithDigit : List Char → Bool
  | c :: _ => isDigit c
  | [] => false

/-- Append digits to the number `n` while the result stays within `limit`.  The answer is the
    number, how many digits were taken, and the rest. -/
def takeDigits (limit : Nat) : Nat → Nat → List Char → Nat × Nat × List Char
  | n, taken, c :: r =>
    if isDigit c && n * 10 + digitValue c ≤ limit then
      takeDigits limit (n * 10 + digitValue c) (taken + 1) r
    else (n, taken, c :: r)
  | n, taken, [] => (n, taken, [])

/-- The digits at the start of a text, counted, and the rest. -/
def dropDigits (cs : List Char) : Nat × List Char :=
  ((cs.takeWhile isDigit).length, cs.dropWhile isDigit)

/-- The largest number of 64 bits. -/
def maxWord : Nat := Nat.pow 2 64 - 1

/-- The largest exponent that is read digit by digit. -/
def maxPower : Nat := Nat.pow 2 31 - 1

/-! ## Numbers of 53 bits -/

/-- The power of ten, rounded; `none` if it is out of range. -/
def powerOfTen (n : Nat) : Option Binary64 := Binary64.roundRatio false (Nat.pow 10 n) 1

/-- Multiply by `10 ^ power` in rounded steps.  Divisions go by at most `10 ^ 308` at a time,
    and the third of those leaves zero.  `none` means out of range. -/
def scaleByPower : Nat → Binary64 → Int → Option Binary64
  | 0, x, _ => some x
  | steps + 1, x, power =>
    if power.natAbs ≤ 308 then
      match powerOfTen power.natAbs with
      | none => none
      | some p => if 0 ≤ power then x.mul p else x.div p
    else if x.isZero then some x
    else if 0 ≤ power then none
    else
      match powerOfTen 308 with
      | none => none
      | some p =>
        match x.div p with
        | none => none
        | some y => scaleByPower steps y (power + 308)

/-- The number `± digits · 10 ^ power`; `rest` is what follows it. -/
def makeFloating (positive : Bool) (digits : Nat) (power : Int) (rest : List Char) :
    Except Stop (Found × List Char) :=
  match (Binary64.roundRatio false digits 1).bind (fun x => scaleByPower 8 x power) with
  | none => .error (.after .numberOutOfRange rest)
  | some x => .ok (.floating (if positive then x else x.neg), rest)

/-! ## Reading -/

/-- Read an exponent, from behind its letter, for the number `digits · 10 ^ power`. -/
def readExponent (positive : Bool) (digits : Nat) (power : Int) (cs : List Char) :
    Except Stop (Found × List Char) :=
  let (up, cs) :=
    match cs with
    | '+' :: r => (true, r)
    | '-' :: r => (false, r)
    | r => (true, r)
  match cs with
  | [] => .error (.after .endInValue [])
  | c :: r =>
    if isDigit c then
      let (n, _, rest) := takeDigits maxPower (digitValue c) 1 r
      match rest with
      | d :: rest' =>
        if isDigit d then
          -- the exponent is beyond all bounds
          if digits ≠ 0 ∧ up then .error (.after .numberOutOfRange rest')
          else .ok (.floating (Binary64.zero (!positive)), rest'.dropWhile isDigit)
        else makeFloating positive digits (if up then power + n else power - n) rest
      | [] => makeFloating positive digits (if up then power + n else power - n) rest
    else .error (.before .invalidNumber (c :: r))

/-- Go on behind the digits of a number of 53 bits. -/
def readPower (positive : Bool) (digits : Nat) (power : Int) (cs : List Char) :
    Except Stop (Found × List Char) :=
  match cs with
  | 'e' :: r => readExponent positive digits power r
  | 'E' :: r => readExponent positive digits power r
  | r => makeFloating positive digits power r

/-- Read a fraction, from behind its point, for the number `digits · 10 ^ power`. -/
def readFraction (positive : Bool) (digits : Nat) (power : Int) (cs : List Char) :
    Except Stop (Found × List Char) :=
  let (n, taken, rest) := takeDigits maxWord digits 0 cs
  if startsWithDigit rest then
    -- further digits do not change the number
    readPower positive n (power - taken) (rest.dropWhile isDigit)
  else if taken = 0 then
    .error (.before (if rest.isEmpty then .endInValue else .invalidNumber) rest)
  else readPower positive n (power - taken) rest

/-- Read a number, from behind its sign. -/
def readNumber (positive : Bool) (cs : List Char) : Except Stop (Found × List Char) :=
  match cs with
  | [] => .error (.after .endInValue [])
  | c :: r =>
    if !isDigit c then .error (.before .invalidNumber (c :: r))
    else if c = '0' ∧ startsWithDigit r then .error (.before .invalidNumber r)
    else
      let (n, _, rest) := takeDigits maxWord (digitValue c) 1 r
      if startsWithDigit rest then
        -- more digits than 64 bits hold: only their number counts
        let (more, rest) := dropDigits rest
        match rest with
        | '.' :: r => readFraction positive n more r
        | r => readPower positive n more r
      else
        match rest with
        | '.' :: r => readFraction positive n 0 r
        | 'e' :: r => readExponent positive n 0 r
        | 'E' :: r => readExponent positive n 0 r
        | r =>
          if positive then .ok (.integer n, r)
          else if 0 < n ∧ n ≤ Nat.pow 2 63 then .ok (.integer (-(n : Int)), r)
          else makeFloating false n 0 r

/-! ## Passing over -/

/-- Pass over the exponent of a number, from behind its letter. -/
def skipExponent (cs : List Char) : Except Stop (List Char) :=
  let cs :=
    match cs with
    | '+' :: r => r
    | '-' :: r => r
    | r => r
  if startsWithDigit cs then .ok (cs.dropWhile isDigit) else .error (.before .invalidNumber cs)

/-- Pass over what may follow the whole part of a number. -/
def skipFraction (cs : List Char) : Except Stop (List Char) :=
  match cs with
  | '.' :: r =>
    if startsWithDigit r then
      match r.dropWhile isDigit with
      | 'e' :: r => skipExponent r
      | 'E' :: r => skipExponent r
      | r => .ok r
    else .error (.before .invalidNumber r)
  | 'e' :: r => skipExponent r
  | 'E' :: r => skipExponent r
  | r => .ok r

/-- Pass over a number, from behind its sign. -/
def skipNumber (cs : List Char) : Except Stop (List Char) :=
  match cs with
  | '0' :: r => if startsWithDigit r then .error (.before .invalidNumber r) else skipFraction r
  | cs =>
    if startsWithDigit cs then skipFraction (cs.dropWhile isDigit)
    else .error (.before .invalidNumber cs)

end RunnerCatalog.Json
