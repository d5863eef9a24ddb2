import CallContract.Binary64

/-!
# Shortest decimals

The decimal that stands for a double is the one with the fewest digits among those that read back
as it; of several the nearest to the exact value, and of two equally near ones the one with the even
last digit. The search runs over grids of 1, 2, … 17 significant digits; on each only the two
neighbours of the exact value can be nearest.
-/

namespace CallContract

/-- The number `digits · 10^exponent`. -/
structure Decimal where
  digits : Nat
  exponent : Int
  deriving DecidableEq, Repr

namespace Decimal

/-- How many decimal digits a number has; none for zero. -/
def digitCount (n : Nat) : Nat := if n = 0 then 0 else (Nat.toDigits 10 n).length

/-- Moves zeros at the end of the digits into the exponent, at most `limit` of them. -/
def trim (d : Decimal) : (limit : Nat) → Decimal
  | 0 => d
  | limit + 1 =>
    if d.digits ≠ 0 ∧ d.digits % 10 = 0 then trim ⟨d.digits / 10, d.exponent + 1⟩ limit else d

end Decimal

namespace Binary64

/-- The place of the first significant digit: `10^(magnitude - 1) ≤ num / den < 10^magnitude`. -/
def magnitude (num den : Nat) : Int :=
  if den ≤ num then Decimal.digitCount (num / den)
  else 1 - (Decimal.digitCount ((den + num - 1) / num - 1) : Nat)

/-- The numbers that round to a given double, and the double itself, in units of `2^-1076`. -/
structure Basin where
  low : Nat
  exact : Nat
  high : Nat
  closed : Bool

/-- The midpoints to the two neighbours; they belong to the basin if the significand is even.
Just above a power of two the lower neighbour is half as far away. -/
def basin (x : Binary64) : Basin :=
  let unit := twoPow x.scale
  let low := if x.significand = twoPow 52 ∧ 0 < x.scale then 4 * x.significand - 1
    else 4 * x.significand - 2
  ⟨low * unit, 4 * x.significand * unit, (4 * x.significand + 2) * unit, x.significand % 2 = 0⟩

/-- Is `point / (2^1076 · weight)` in the basin? -/
def Basin.contains (b : Basin) (point weight : Nat) : Bool :=
  if b.closed then b.low * weight ≤ point && point ≤ b.high * weight
  else b.low * weight < point && point < b.high * weight

/-- The nearest number `c · 10^exponent` in the basin, if the grid of that step meets it. -/
def Basin.onGrid? (b : Basin) (exponent : Int) : Option Decimal :=
  let up := Nat.pow 10 exponent.toNat * twoPow 1076
  let weight := Nat.pow 10 (-exponent).toNat
  let c := b.exact * weight / up
  let below := b.exact * weight - c * up
  let above := (c + 1) * up - b.exact * weight
  match b.contains (c * up) weight, b.contains ((c + 1) * up) weight with
  -- Both neighbours read back: the nearer one, of two equally near ones the even one.
  | true, true =>
    if below < above || (below = above && c % 2 = 0) then some ⟨c, exponent⟩
    else some ⟨c + 1, exponent⟩
  | true, false => some ⟨c, exponent⟩
  | false, true => some ⟨c + 1, exponent⟩
  | false, false => none

/-- The shortest decimal for the size of a double that is not zero. -/
def shortest (x : Binary64) : Decimal :=
  let b := x.basin
  let top := magnitude b.exact (twoPow 1076)
  let found := (List.range 17).findSome? fun n => b.onGrid? (top - (n + 1 : Nat))
  ((found.getD ⟨0, 0⟩).trim 17)

end Binary64
end CallContract
