import CallContract.Binary64.OfDecimal
import CallContract.Json
import CallContract.Json.Fault

/-!
# Number literals

A literal is read into a significand of 64 bits and a power of ten. Digits that no longer fit into
the significand are dropped; those of the whole part still raise the power of ten. A literal
without point, exponent and dropped digits is an integer if it lies between `-2^63` and `2^64 - 1`
and is not `-0`; every other one is a double.
-/

namespace CallContract.Json

def digitValue (c : Char) : Nat := c.toNat - '0'.toNat

/-- The digits at the beginning of a text. -/
def digitsOf (cs : List Char) : List Char := cs.takeWhile Char.isDigit

/-- What follows the digits at the beginning of a text. -/
def afterDigits (cs : List Char) : List Char := cs.dropWhile Char.isDigit

/-- Takes digits into a significand while it stays below `2^64`; also counts the digits taken. -/
def takeDigits (significand : Nat) : List Char → Nat × Nat
  | [] => (significand, 0)
  | d :: rest =>
    let next := significand * 10 + digitValue d
    if next < twoPow 64 then
      let (s, n) := takeDigits next rest
      (s, n + 1)
    -- A later digit may be smaller, but none is taken after one that did not fit.
    else (significand, 0)

/-- The greatest exponent that is read exactly. -/
def maxExponent : Nat := twoPow 31 - 1

/-- What follows the digit that takes an exponent past `maxExponent`, if one does. -/
def pastExponent? (value : Nat) : List Char → Option (List Char)
  | [] => none
  | d :: rest =>
    let next := value * 10 + digitValue d
    if maxExponent < next then some rest else pastExponent? next rest

/-- The number that a row of digits gives. -/
def digitsValue (digits : List Char) : Nat := digits.foldl (fun n d => n * 10 + digitValue d) 0

/-- A significand and a power of ten, with their sign. -/
structure Parts where
  negative : Bool
  significand : Nat
  exponent : Int

/-- A double of the given sign, or the fault that the literal ending here is too large. -/
def signed (negative : Bool) (rest : List Char) :
    Option Binary64 → Except Fault (Number × List Char)
  | some x => .ok (.double (x.withSign negative), rest)
  | none => .error ⟨.numberTooLarge, .here rest⟩

/-- The double that the parts stand for. -/
def Parts.double (p : Parts) (rest : List Char) : Except Fault (Number × List Char) :=
  signed p.negative rest (Binary64.ofDecimal? p.significand p.exponent)

/-- The double that the parts and one more exponent stand for, given what follows the digit that
takes this exponent past the limit. Such an exponent makes the number zero or, unless all digits
are zero, too large. -/
def Parts.withExponent (p : Parts) (down : Bool) (exponent : Int) (rest : List Char) :
    (beyond : Option (List Char)) → Except Fault (Number × List Char)
  | none =>
    { p with exponent := if down then p.exponent - exponent else p.exponent + exponent }.double rest
  | some left =>
    if p.significand ≠ 0 ∧ !down then .error ⟨.numberTooLarge, .here (left ++ rest)⟩
    else .ok (.double (Binary64.zero p.negative), rest)

/-- Reads the digits of an exponent whose sign has been read. -/
def exponentDigits (p : Parts) (down : Bool) (cs : List Char) :
    Except Fault (Number × List Char) :=
  match cs with
  | [] => .error ⟨.endInValue, .here []⟩
  | c :: _ =>
    if !c.isDigit then .error ⟨.badNumber, .past cs⟩
    else
      p.withExponent down (digitsValue (digitsOf cs)) (afterDigits cs)
        (pastExponent? 0 (digitsOf cs))

def exponentPart (p : Parts) : List Char → Except Fault (Number × List Char)
  | '+' :: rest => exponentDigits p false rest
  | '-' :: rest => exponentDigits p true rest
  | cs => exponentDigits p false cs

/-- Finishes a number that is a double: with an exponent if one follows. -/
def doubleEnd (p : Parts) : List Char → Except Fault (Number × List Char)
  | 'e' :: rest | 'E' :: rest => exponentPart p rest
  | cs => p.double cs

def fractionPart (p : Parts) (cs : List Char) : Except Fault (Number × List Char) :=
  match digitsOf cs with
  | [] => .error ⟨if cs.isEmpty then .endInValue else .badNumber, .past cs⟩
  | digits =>
    let (s, taken) := takeDigits p.significand digits
    doubleEnd { p with significand := s, exponent := p.exponent - taken } (afterDigits cs)

/-- The number of a literal that ends with its whole part. -/
def wholeNumber (negative : Bool) (significand : Nat) : Number :=
  if !negative then .integer significand
  else if significand = 0 ∨ twoPow 63 < significand then
    .double (((Binary64.nearest? significand 1).getD (.zero true)).withSign true)
  else .integer (-significand)

/-- Reads what follows the whole part. -/
def afterWhole (p : Parts) : List Char → Except Fault (Number × List Char)
  | '.' :: rest => fractionPart p rest
  | 'e' :: rest | 'E' :: rest => exponentPart p rest
  -- An exponent here counts dropped digits, and a number without them is kept exactly.
  | cs =>
    if p.exponent = 0 then .ok (wholeNumber p.negative p.significand, cs) else p.double cs

/-- Reads a literal from its first digit on. No digit may follow a zero in front. -/
def unsignedLiteral (negative : Bool) (cs : List Char) : Except Fault (Number × List Char) :=
  match cs with
  | [] => .error ⟨.endInValue, .here []⟩
  | '0' :: rest =>
    if (digitsOf rest).isEmpty then afterWhole ⟨negative, 0, 0⟩ rest
    else .error ⟨.badNumber, .past rest⟩
  | c :: rest =>
    if !c.isDigit then .error ⟨.badNumber, .past cs⟩
    else
      let digits := c :: digitsOf rest
      let (s, taken) := takeDigits 0 digits
      afterWhole ⟨negative, s, digits.length - taken⟩ (afterDigits rest)

def numberLiteral : List Char → Except Fault (Number × List Char)
  | '-' :: rest => unsignedLiteral true rest
  | cs => unsignedLiteral false cs

/-! ## A literal takes part of the text -/

theorem afterDigits_length (cs : List Char) : (afterDigits cs).length ≤ cs.length :=
  (List.dropWhile_suffix _).length_le

theorem signed_rest {negative : Bool} {cs rest : List Char} {found : Option Binary64} {n : Number}
    (h : signed negative cs found = .ok (n, rest)) : rest = cs := by
  cases found with
  | none => simp [signed] at h
  | some x =>
    simp only [signed, Except.ok.injEq, Prod.mk.injEq] at h
    exact h.2.symm

theorem double_rest {p : Parts} {cs rest : List Char} {n : Number}
    (h : p.double cs = .ok (n, rest)) : rest = cs :=
  signed_rest h

theorem withExponent_rest {p : Parts} {down : Bool} {e : Int} {cs rest : List Char}
    {beyond : Option (List Char)} {n : Number}
    (h : p.withExponent down e cs beyond = .ok (n, rest)) : rest = cs := by
  cases beyond with
  | none => exact double_rest h
  | some left =>
    rw [Parts.withExponent] at h
    split at h
    · simp at h
    · simp only [Except.ok.injEq, Prod.mk.injEq] at h
      exact h.2.symm

theorem exponentDigits_length {p : Parts} {down : Bool} {cs rest : List Char} {n : Number}
    (h : exponentDigits p down cs = .ok (n, rest)) : rest.length ≤ cs.length := by
  unfold exponentDigits at h
  split at h
  · simp at h
  · split at h
    · simp at h
    · rw [withExponent_rest h]
      exact afterDigits_length _

theorem exponentPart_length {p : Parts} {cs rest : List Char} {n : Number}
    (h : exponentPart p cs = .ok (n, rest)) : rest.length ≤ cs.length := by
  unfold exponentPart at h
  split at h
  · exact Nat.le_succ_of_le (exponentDigits_length h)
  · exact Nat.le_succ_of_le (exponentDigits_length h)
  · exact exponentDigits_length h

theorem doubleEnd_length {p : Parts} {cs rest : List Char} {n : Number}
    (h : doubleEnd p cs = .ok (n, rest)) : rest.length ≤ cs.length := by
  unfold doubleEnd at h
  split at h
  · exact Nat.le_succ_of_le (exponentPart_length h)
  · exact Nat.le_succ_of_le (exponentPart_length h)
  · exact Nat.le_of_eq (congrArg List.length (double_rest h))

theorem fractionPart_length {p : Parts} {cs rest : List Char} {n : Number}
    (h : fractionPart p cs = .ok (n, rest)) : rest.length ≤ cs.length := by
  unfold fractionPart at h
  split at h
  · simp at h
  · exact Nat.le_trans (doubleEnd_length h) (afterDigits_length _)

theorem afterWhole_length {p : Parts} {cs rest : List Char} {n : Number}
    (h : afterWhole p cs = .ok (n, rest)) : rest.length ≤ cs.length := by
  unfold afterWhole at h
  split at h
  · exact Nat.le_succ_of_le (fractionPart_length h)
  · exact Nat.le_succ_of_le (exponentPart_length h)
  · exact Nat.le_succ_of_le (exponentPart_length h)
  · split at h
    · simp only [Except.ok.injEq, Prod.mk.injEq] at h
      exact Nat.le_of_eq (congrArg List.length h.2.symm)
    · exact Nat.le_of_eq (congrArg List.length (double_rest h))

theorem unsignedLiteral_length {negative : Bool} {cs rest : List Char} {n : Number}
    (h : unsignedLiteral negative cs = .ok (n, rest)) : rest.length < cs.length := by
  unfold unsignedLiteral at h
  split at h
  · simp at h
  · split at h
    · exact Nat.lt_succ_of_le (afterWhole_length h)
    · simp at h
  · split at h
    · simp at h
    · exact Nat.lt_succ_of_le (Nat.le_trans (afterWhole_length h) (afterDigits_length _))

theorem numberLiteral_length {cs rest : List Char} {n : Number}
    (h : numberLiteral cs = .ok (n, rest)) : rest.length < cs.length := by
  unfold numberLiteral at h
  split at h
  · exact Nat.lt_succ_of_lt (unsignedLiteral_length h)
  · exact unsignedLiteral_length h

end CallContract.Json
