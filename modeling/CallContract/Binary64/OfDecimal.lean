import CallContract.Binary64

/-!
# Doubles from decimals

A decimal numeral is given by a whole significand and a power of ten. The significand is rounded
to a double first and then multiplied or divided by the rounded power of ten, so the result may be
off by a unit where one of the three steps is not exact.
-/

namespace CallContract.Binary64

/-- The largest power of ten that a double can hold. -/
def maxPower : Nat := 308

/-- The double nearest to `10^n`, for `n ≤ 308`. -/
def tenPow (n : Nat) : Binary64 := (nearest? (Nat.pow 10 n) 1).getD (zero false)

/-- Multiplies by `10^exponent`. A power of ten past the largest one makes any number but zero too
large, and divides in steps until nothing is left. None if the result is too large. -/
def scaleTen? (x : Binary64) (exponent : Int) : Option Binary64 :=
  if exponent.natAbs ≤ maxPower then
    if 0 ≤ exponent then x.mul? (tenPow exponent.toNat) else x.div? (tenPow exponent.natAbs)
  else if x.isZero then some x
  else if 0 ≤ exponent then none
  else (x.div? (tenPow maxPower)).bind (scaleTen? · (exponent + maxPower))
termination_by exponent.natAbs
decreasing_by
  simp only [maxPower] at *
  omega

/-- The double that is read for `significand · 10^exponent`; none if it is too large. -/
def ofDecimal? (significand : Nat) (exponent : Int) : Option Binary64 :=
  (nearest? significand 1).bind (scaleTen? · exponent)

end CallContract.Binary64
