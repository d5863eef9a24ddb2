import CallContract.Binary64.Shortest

/-!
# Layout of decimals

How the digits of a shortest decimal are set out as text: with the point in place for middling
sizes, with an exponent for very small and very large ones.
-/

namespace CallContract

/-- The choices in writing a decimal. -/
structure Decimal.Layout where
  /-- The least power of ten of the first digit that is written in place. -/
  least : Int
  /-- The greatest power of ten of the first digit that is written in place. -/
  greatest : Int
  /-- What follows a whole number written in place. -/
  wholeTail : String
  /-- What stands before an exponent that is not negative. -/
  plus : String

namespace Decimal

/-- The digits with a point after the first `whole` of them. -/
def pointed (digits : List Char) (whole : Nat) : String :=
  String.ofList (digits.take whole) ++ "." ++ String.ofList (digits.drop whole)

def Layout.write (l : Layout) (d : Decimal) : String :=
  let digits := Nat.toDigits 10 d.digits
  let first : Int := d.exponent + digits.length - 1
  if l.least ≤ first ∧ first ≤ l.greatest then
    if 0 ≤ d.exponent then
      String.ofList (digits ++ List.replicate d.exponent.toNat '0') ++ l.wholeTail
    else if 0 ≤ first then pointed digits (first.toNat + 1)
    else "0." ++ String.ofList (List.replicate (-first - 1).toNat '0' ++ digits)
  else
    let mantissa := if digits.length ≤ 1 then String.ofList digits else pointed digits 1
    mantissa ++ "e" ++ (if 0 ≤ first then l.plus else "") ++ toString first

end Decimal

namespace Binary64

/-- Doubles from `1e-5` up to below `1e16` are written in place, a whole one with `.0`; others have
an exponent that shows its sign. -/
def layout : Decimal.Layout := ⟨-5, 15, ".0", "+"⟩

def text (x : Binary64) : String :=
  (if x.negative then "-" else "") ++
    if x.isZero then "0" ++ layout.wholeTail else layout.write x.shortest

end Binary64
end CallContract
