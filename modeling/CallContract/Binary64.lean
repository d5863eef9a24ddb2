/-!
# Binary64 — finite doubles as exact fractions

A finite double is a whole number of units of `2^-1074`, with at most 53 significant bits. All
arithmetic on it is done exactly on natural numbers and rounded once, to the nearest double, a tie
going to the even significand.
-/

namespace CallContract

/-- The finite double `± significand · 2^scale / 2^1074`. -/
structure Binary64 where
  negative : Bool
  significand : Nat
  scale : Nat
  deriving DecidableEq, Repr, Inhabited

def twoPow (n : Nat) : Nat := Nat.pow 2 n

/-- The quotient rounded to a whole number, a half going to the even neighbour. -/
def roundHalfEven (num den : Nat) : Nat :=
  let q := num / den
  let r := num % den
  if 2 * r < den then q
  else if den < 2 * r then q + 1
  else if q % 2 = 0 then q else q + 1

namespace Binary64

def zero (negative : Bool) : Binary64 := ⟨negative, 0, 0⟩

def isZero (x : Binary64) : Bool := x.significand = 0

/-- The double of the same size and the given sign. -/
def withSign (x : Binary64) (negative : Bool) : Binary64 := { x with negative }

/-- The size of the double in units of `2^-1074`. -/
def units (x : Binary64) : Nat := x.significand * twoPow x.scale

/-- The largest scale of a finite double. -/
def maxScale : Nat := 2045

/-- The double nearest to the positive fraction `num / den`; none if that lies past the largest
one. Below the normal range the scale is 0, so the spacing there is one unit. -/
def nearest? (num den : Nat) : Option Binary64 :=
  let exact := num * twoPow 1074
  let scale := Nat.log2 (exact / den) - 52
  let m := roundHalfEven exact (den * twoPow scale)
  -- Rounding up may carry into one more bit.
  let (m, scale) := if m = twoPow 53 then (twoPow 52, scale + 1) else (m, scale)
  if scale ≤ maxScale then some ⟨false, m, scale⟩ else none

/-- The size of the product, rounded. -/
def mul? (x y : Binary64) : Option Binary64 := nearest? (x.units * y.units) (twoPow 2148)

/-- The size of the quotient, rounded; the divisor is not zero. -/
def div? (x y : Binary64) : Option Binary64 := nearest? x.units y.units

/-- Has the double no fractional part? -/
def isWhole (x : Binary64) : Bool := x.units % twoPow 1074 = 0

end Binary64
end CallContract
