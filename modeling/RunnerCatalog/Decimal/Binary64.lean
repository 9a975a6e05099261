/-
  Numbers with 53 significant bits.

  A number is a sign and a product `mantissa · 2 ^ exponent`.  `roundRatio` takes a fraction
  of natural numbers to the nearest such product, a tie to the even mantissa, and answers
  `none` where the result would be too large.  All of it is exact arithmetic on natural
  numbers, so it can be evaluated inside a proof; powers are `Nat.pow`, so that they are the same
  whatever a module imports.
-/

namespace RunnerCatalog.Decimal

/-- The number `± mantissa · 2 ^ exponent`.  The mantissa has 53 bits, or fewer if the
    exponent is the least one, `-1074`. -/
structure Binary64 where
  negative : Bool
  mantissa : Nat
  exponent : Int
  deriving DecidableEq, Repr

namespace Binary64

/-- The least exponent. -/
def minExponent : Int := -1074

/-- The greatest exponent. -/
def maxExponent : Int := 971

/-- Zero, with a sign. -/
def zero (negative : Bool) : Binary64 := ⟨negative, 0, minExponent⟩

/-- The fraction `num / den` divided by `2 ^ e`, as numerator and denominator. -/
def scaleDown (num den : Nat) (e : Int) : Nat × Nat :=
  if 0 ≤ e then (num, den * Nat.pow 2 e.toNat) else (num * Nat.pow 2 (-e).toNat, den)

/-- The quotient rounded to the nearest whole number, a tie to the even one. -/
def roundHalfEven (num den : Nat) : Nat :=
  let q := num / den
  let r := num % den
  if 2 * r < den then q
  else if den < 2 * r then q + 1
  else if q % 2 = 0 then q else q + 1

/-- The exponent at which the fraction `num / den` has a mantissa of 53 bits. -/
def exponentOf (num den : Nat) : Int :=
  let guess : Int := (Nat.log2 num : Int) - (Nat.log2 den : Int) - 52
  let scaled := scaleDown num den guess
  let e := if scaled.1 / scaled.2 < Nat.pow 2 52 then guess - 1 else guess
  max e minExponent

/-- The nearest number to `± num / den`; `none` if it is out of range. -/
def roundRatio (negative : Bool) (num den : Nat) : Option Binary64 :=
  if num = 0 then some (zero negative)
  else
    let e := exponentOf num den
    let scaled := scaleDown num den e
    let m := roundHalfEven scaled.1 scaled.2
    let (m, e) := if m = Nat.pow 2 53 then (Nat.pow 2 52, e + 1) else (m, e)
    if e ≤ maxExponent then some ⟨negative, m, e⟩ else none

/-- Numerator and denominator of the number without its sign. -/
def ratio (x : Binary64) : Nat × Nat := scaleDown x.mantissa 1 (-x.exponent)

/-- The rounded product; `none` if it is out of range. -/
def mul (x y : Binary64) : Option Binary64 :=
  roundRatio (x.negative != y.negative) (x.ratio.1 * y.ratio.1) (x.ratio.2 * y.ratio.2)

/-- The rounded quotient by a number other than zero; `none` if it is out of range. -/
def div (x y : Binary64) : Option Binary64 :=
  roundRatio (x.negative != y.negative) (x.ratio.1 * y.ratio.2) (x.ratio.2 * y.ratio.1)

/-- The number with its sign turned. -/
def neg (x : Binary64) : Binary64 := { x with negative := !x.negative }

/-- Whether the number is zero, of either sign. -/
def isZero (x : Binary64) : Bool := x.mantissa == 0

end Binary64

end RunnerCatalog.Decimal
