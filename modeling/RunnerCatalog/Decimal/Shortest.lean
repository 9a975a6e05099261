/-
  The shortest decimal that reads back as the same number.

  Every number of 53 bits stands for an interval of reals, those that round to it.  For
  1, 2, … 17 significant digits in turn, the two neighbours of the number on that decimal grid
  are tested; the first grid with a neighbour inside the interval gives the digits, the nearer
  of the two if both are inside, an exact tie going to the even last digit.
-/
import RunnerCatalog.Decimal.Binary64

namespace RunnerCatalog.Decimal

/-- The decimal `digits · 10 ^ exponent`. -/
structure Digits where
  digits : Nat
  exponent : Int
  deriving DecidableEq, Repr

/-- Whether `a / b < c / d`. -/
def ratioLt (a b c d : Nat) : Bool := a * d < c * b

/-- Whether `a / b ≤ c / d`. -/
def ratioLe (a b c d : Nat) : Bool := a * d ≤ c * b

/-- A decimal as numerator and denominator. -/
def Digits.ratio (x : Digits) : Nat × Nat :=
  if 0 ≤ x.exponent then (x.digits * Nat.pow 10 x.exponent.toNat, 1)
  else (x.digits, Nat.pow 10 (-x.exponent).toNat)

/-- Whether the decimal rounds to `x`: it lies between the two midpoints to the neighbours of
    `x`, which themselves belong to the interval if the mantissa is even. -/
def readsBack (x : Binary64) (d : Digits) : Bool :=
  -- the midpoints are whole multiples of a quarter of the last place
  let quarter := Binary64.scaleDown 1 1 (-(x.exponent - 2))
  let atPowerOfTwo := x.mantissa == Nat.pow 2 52 && x.exponent != Binary64.minExponent
  let low := 4 * x.mantissa - (if atPowerOfTwo then 1 else 2)
  let high := 4 * x.mantissa + 2
  let v := d.ratio
  if x.mantissa % 2 == 0 then
    ratioLe (low * quarter.1) quarter.2 v.1 v.2 && ratioLe v.1 v.2 (high * quarter.1) quarter.2
  else
    ratioLt (low * quarter.1) quarter.2 v.1 v.2 && ratioLt v.1 v.2 (high * quarter.1) quarter.2

/-- The exponent `e` with `10 ^ e ≤ num / den < 10 ^ (e + 1)`, for a fraction above zero. -/
def magnitude (num den : Nat) : Int :=
  if den ≤ num then (((Nat.toDigits 10 (num / den)).length : Int) - 1)
  else
    -- the first power of ten that brings the fraction to one or more
    let k := (Nat.toDigits 10 (den / num)).length
    if den ≤ num * Nat.pow 10 (k - 1) then -((k - 1 : Nat) : Int) else -(k : Int)

/-- The neighbours of `num / den` on the grid of multiples of `10 ^ e`, the nearer one first. -/
def gridNeighbours (num den : Nat) (e : Int) : List Digits :=
  let n := if 0 ≤ e then num else num * Nat.pow 10 (-e).toNat
  let d := if 0 ≤ e then den * Nat.pow 10 e.toNat else den
  let q := n / d
  let r := n % d
  let below : Digits := ⟨q, e⟩
  let above : Digits := ⟨q + 1, e⟩
  if 2 * r < d then [below, above]
  else if d < 2 * r then [above, below]
  else if q % 2 == 0 then [below, above] else [above, below]

/-- Drop the zeros at the end of the digits. -/
def stripZeros : Nat → Digits → Digits
  | 0, d => d
  | fuel + 1, d =>
    if d.digits % 10 == 0 && d.digits != 0 then
      stripZeros fuel ⟨d.digits / 10, d.exponent + 1⟩
    else d

/-- The shortest decimal for a number other than zero, without its sign. -/
def shortest (x : Binary64) : Digits :=
  let v := x.ratio
  let top := magnitude v.1 v.2
  let candidates :=
    (List.range 17).flatMap fun (n : Nat) => gridNeighbours v.1 v.2 (top - (n : Int))
  match candidates.find? (readsBack x) with
  | some d => stripZeros 20 d
  | none => ⟨0, 0⟩

/-- How a decimal is written: positionally while the exponent of its first digit is in a
    range, otherwise with an exponent. -/
structure Style where
  /-- The least exponent written positionally. -/
  least : Int
  /-- The greatest exponent written positionally. -/
  greatest : Int
  /-- The sign written before an exponent that is not negative. -/
  plus : String
  /-- The least number of digits of an exponent. -/
  exponentDigits : Nat

/-- A run of zeros. -/
def zeros (n : Nat) : String := String.ofList (List.replicate n '0')

/-- The text of a number in a style. -/
def Style.text (style : Style) (x : Binary64) : String :=
  let sign := if x.negative then "-" else ""
  if x.isZero then sign ++ "0.0"
  else
    let d := shortest x
    let ds := toString d.digits
    let n : Int := ds.length
    let first := n - 1 + d.exponent
    if style.least ≤ first ∧ first ≤ style.greatest then
      if 0 ≤ d.exponent then sign ++ ds ++ zeros d.exponent.toNat ++ ".0"
      else if 0 ≤ first then
        let whole := (first + 1).toNat
        sign ++ String.ofList (ds.toList.take whole) ++ "." ++ String.ofList (ds.toList.drop whole)
      else sign ++ "0." ++ zeros (-first - 1).toNat ++ ds
    else
      let head := String.ofList (ds.toList.take 1)
      let tail := String.ofList (ds.toList.drop 1)
      let size := toString first.natAbs
      sign ++ head ++ (if tail = "" then "" else "." ++ tail) ++ "e"
        ++ (if first < 0 then "-" else style.plus)
        ++ zeros (style.exponentDigits - size.length) ++ size

end RunnerCatalog.Decimal
