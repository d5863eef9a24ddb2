import CallContract.Json.Fault

/-!
# String literals

Reads what follows the opening quotation mark. Characters outside the basic plane may be written as
two escapes, a leading and a trailing surrogate; one without the other is refused.
-/

namespace CallContract.Json

def hexValue? (c : Char) : Option Nat :=
  if c.isDigit then some (c.toNat - '0'.toNat)
  else if 'a' ≤ c ∧ c ≤ 'f' then some (c.toNat - 'a'.toNat + 10)
  else if 'A' ≤ c ∧ c ≤ 'F' then some (c.toNat - 'A'.toNat + 10)
  else none

/-- The number that four hexadecimal digits give, and what follows them. -/
def hexUnit : List Char → Except Fault (Nat × List Char)
  | cs@(a :: b :: c :: d :: rest) =>
    match hexValue? a, hexValue? b, hexValue? c, hexValue? d with
    | some a, some b, some c, some d => .ok (((a * 16 + b) * 16 + c) * 16 + d, rest)
    | _, _, _, _ => .error ⟨.badEscape, ⟨cs, 4⟩⟩
  | cs => .error <| if utf8Size cs < 4 then ⟨.endInString, .here []⟩ else ⟨.badEscape, ⟨cs, 4⟩⟩

def isLeading (n : Nat) : Bool := 0xD800 ≤ n && n ≤ 0xDBFF

def isTrailing (n : Nat) : Bool := 0xDC00 ≤ n && n ≤ 0xDFFF

/-- The character that two surrogates stand for. -/
def pairChar (leading trailing : Nat) : Char :=
  Char.ofNat ((leading - 0xD800) * 0x400 + (trailing - 0xDC00) + 0x10000)

/-- The character written by a `\u` escape, from its digits on, and what follows. -/
def unicodeEscape (cs : List Char) : Except Fault (Char × List Char) :=
  match hexUnit cs with
  | .error f => .error f
  | .ok (n, rest) =>
    if isTrailing n then .error ⟨.loneSurrogate, .here rest⟩
    else if !isLeading n then .ok (Char.ofNat n, rest)
    -- A leading surrogate needs a second escape directly behind it.
    else match rest with
      | [] | ['\\'] => .error ⟨.endInString, .here []⟩
      | '\\' :: 'u' :: digits =>
        match hexUnit digits with
        | .error f => .error f
        | .ok (m, rest) =>
          if isTrailing m then .ok (pairChar n m, rest) else .error ⟨.loneSurrogate, .here rest⟩
      | '\\' :: c :: rest => .error ⟨.brokenPair, .past (c :: rest)⟩
      | c :: rest => .error ⟨.brokenPair, .past (c :: rest)⟩

/-- The character that an escape of one letter stands for. -/
def letterEscape? : Char → Option Char
  | '"' => some '"'
  | '\\' => some '\\'
  | '/' => some '/'
  | 'b' => some '\x08'
  | 'f' => some '\x0c'
  | 'n' => some '\n'
  | 'r' => some '\r'
  | 't' => some '\t'
  | _ => none

/-- One character of a literal and what follows it, or nothing at the closing mark. -/
inductive Piece where
  | char (c : Char) (rest : List Char)
  | close (rest : List Char)

/-- Reads one character of a literal. -/
def piece : List Char → Except Fault Piece
  | [] | ['\\'] => .error ⟨.endInString, .here []⟩
  | '"' :: rest => .ok (.close rest)
  | '\\' :: 'u' :: digits => (unicodeEscape digits).map fun (c, rest) => .char c rest
  | '\\' :: e :: rest =>
    match letterEscape? e with
    | some c => .ok (.char c rest)
    | none => .error ⟨.badEscape, .past (e :: rest)⟩
  | c :: rest =>
    if c.toNat < 0x20 then .error ⟨.controlCharacter, .here rest⟩ else .ok (.char c rest)

theorem hexUnit_length {cs rest : List Char} {n : Nat} (h : hexUnit cs = .ok (n, rest)) :
    rest.length < cs.length := by
  unfold hexUnit at h
  split at h
  · split at h <;> simp at h
    obtain ⟨-, rfl⟩ := h
    simp only [List.length_cons]
    omega
  · simp at h

theorem unicodeEscape_length {cs rest : List Char} {c : Char}
    (h : unicodeEscape cs = .ok (c, rest)) : rest.length < cs.length := by
  unfold unicodeEscape at h
  split at h
  · simp at h
  · rename_i n r hr
    have := hexUnit_length hr
    split at h
    · simp at h
    · split at h
      · simp only [Except.ok.injEq, Prod.mk.injEq] at h
        rwa [← h.2]
      · split at h
        · simp at h
        · simp at h
        · rename_i digits
          cases hd : hexUnit digits with
          | error f => simp [hd] at h
          | ok p =>
            have := hexUnit_length hd
            simp only [hd] at h
            split at h
            · simp only [Except.ok.injEq, Prod.mk.injEq] at h
              simp only [List.length_cons, h.2] at *
              omega
            · simp at h
        · simp at h
        · simp at h

/-- A character of a literal takes at least one character of the text. -/
theorem piece_length {cs rest : List Char} {c : Char} (h : piece cs = .ok (.char c rest)) :
    rest.length < cs.length := by
  unfold piece at h
  split at h
  · simp at h
  · simp at h
  · simp at h
  · rename_i digits
    cases hu : unicodeEscape digits with
    | error f => simp [hu, Except.map] at h
    | ok p =>
      simp only [hu, Except.map, Except.ok.injEq, Piece.char.injEq] at h
      have := unicodeEscape_length hu
      simp only [List.length_cons, ← h.2]
      omega
  · split at h <;> simp at h
    obtain ⟨-, rfl⟩ := h
    simp only [List.length_cons]
    omega
  · split at h <;> simp at h
    obtain ⟨-, rfl⟩ := h
    simp

theorem piece_close_length {cs rest : List Char} (h : piece cs = .ok (.close rest)) :
    rest.length < cs.length := by
  unfold piece at h
  split at h
  · simp at h
  · simp at h
  · simp only [Except.ok.injEq, Piece.close.injEq] at h
    simp [h]
  · rename_i digits
    cases hu : unicodeEscape digits <;> simp [hu, Except.map] at h
  · split at h <;> simp at h
  · split at h <;> simp at h

/-- The characters of a literal up to its closing mark, and what follows that. -/
def stringLiteral (cs : List Char) : Except Fault (List Char × List Char) :=
  match h : piece cs with
  | .error f => .error f
  | .ok (.close rest) => .ok ([], rest)
  | .ok (.char c rest) =>
    have := piece_length h
    (stringLiteral rest).map fun (s, rest) => (c :: s, rest)
termination_by cs.length

theorem stringLiteral_length {cs rest s : List Char} (h : stringLiteral cs = .ok (s, rest)) :
    rest.length < cs.length := by
  fun_induction stringLiteral cs generalizing s with
  | case1 => simp at h
  | case2 _ _ hp =>
    simp only [Except.ok.injEq, Prod.mk.injEq] at h
    have := piece_close_length hp
    rw [← h.2]
    exact this
  | case3 cs c r hp hl ih =>
    cases hs : stringLiteral r with
    | error f => simp [hs, Except.map] at h
    | ok p =>
      simp only [hs, Except.map, Except.ok.injEq, Prod.mk.injEq] at h
      have shorter : rest.length < r.length := ih (by rw [hs, ← h.2])
      omega

end CallContract.Json
