/-! Finite double-precision numbers as `mantissa · 2 ^ exponent`, and the one rounding rule that all
arithmetic on them goes through: a quotient of naturals goes to the nearest double, a tie to the
even mantissa. Everything is exact arithmetic on naturals. -/

namespace CodeIntel.Decimal

/-- A finite double. The mantissa has at most 53 bits and the exponent is at least -1074; below
that exponent's range the mantissa has all 53. -/
structure Binary64 where
  negative : Bool
  mantissa : Nat
  exponent : Int
deriving DecidableEq, Repr, Inhabited

namespace Binary64

/-- The quotient of two naturals rounded to a natural, a tie to the even neighbour. -/
def roundedQuotient (num den : Nat) : Nat :=
  let whole := num / den
  let rest := num % den
  if 2 * rest > den ∨ (2 * rest = den ∧ whole % 2 = 1) then whole + 1 else whole

/-- The fraction `num / den` with `2 ^ power` divided out of it. -/
def scaled (num den : Nat) (power : Int) : Nat × Nat :=
  if 0 ≤ power then (num, den * Nat.pow 2 power.toNat) else (num * Nat.pow 2 (-power).toNat, den)

/-- The double zero. -/
def zero : Binary64 := ⟨false, 0, -1074⟩

/-- The non-negative double nearest to `num / den`; nothing when that is beyond the largest. -/
def nearest? (num den : Nat) : Option Binary64 :=
  if num = 0 then some zero
  else
    let least : Int := max ((num.log2 : Int) - (den.log2 : Int) - 53) (-1074)
    let fine := scaled num den least
    let power := if fine.1 / fine.2 < Nat.pow 2 53 then least else least + 1
    let (n, d) := scaled num den power
    let mantissa := roundedQuotient n d
    let (mantissa, power) := if mantissa = Nat.pow 2 53 then (Nat.pow 2 52, power + 1) else (mantissa, power)
    if power ≤ 971 then some ⟨false, mantissa, power⟩ else none

/-- The magnitude as a fraction of naturals. -/
def fraction (x : Binary64) : Nat × Nat :=
  if 0 ≤ x.exponent then (x.mantissa * Nat.pow 2 x.exponent.toNat, 1)
  else (x.mantissa, Nat.pow 2 (-x.exponent).toNat)

/-- The rounded product of two magnitudes. -/
def times? (x y : Binary64) : Option Binary64 :=
  nearest? (x.fraction.1 * y.fraction.1) (x.fraction.2 * y.fraction.2)

/-- The rounded quotient of two magnitudes; the divisor is not zero where this is used. -/
def over? (x y : Binary64) : Option Binary64 :=
  nearest? (x.fraction.1 * y.fraction.2) (x.fraction.2 * y.fraction.1)

/-- Whether the magnitude is zero. -/
def isZero (x : Binary64) : Bool := x.mantissa == 0

/-- The number with a given sign. -/
def signed (x : Binary64) (negative : Bool) : Binary64 := { x with negative }

/-- The largest power of ten that is a double. -/
def largestPower : Nat := 308

/-- Scales a magnitude by a power of ten in one rounded step with a rounded power; exponents below
-308 divide by `10 ^ 308` first. Nothing when the result is too large. -/
def scaledByTen? (x : Binary64) (exponent : Int) : Option Binary64 :=
  if x.isZero then some x
  else if 0 ≤ exponent then
    if exponent ≤ largestPower then do
      x.times? (← nearest? (Nat.pow 10 exponent.toNat) 1)
    else none
  else if -(largestPower : Int) ≤ exponent then do
    x.over? (← nearest? (Nat.pow 10 (-exponent).toNat) 1)
  else do
    let smaller ← x.over? (← nearest? (Nat.pow 10 largestPower) 1)
    scaledByTen? smaller (exponent + largestPower)
termination_by exponent.natAbs
decreasing_by simp only [largestPower] at *; omega

end Binary64

end CodeIntel.Decimal
