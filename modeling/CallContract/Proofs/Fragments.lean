import CallContract.Schema.Fragment
import Mathlib.Logic.Function.Basic
import Mathlib.Tactic.IntervalCases

/-!
# Reading fragments back

The fragment of a name leads to that name again, whatever characters the name has
(`names?_ofName`): the two layers of escapes are undone from the outside to the inside.  Percent
encoding is undone byte by byte; after that the token is the only text behind its slash, since a
slash of the name is written without one, and a `~` of the token always begins an escape.
-/

namespace CallContract

namespace Fragment

/-! ## 1. Tokens -/

theorem untoken_tokenChar (c : Char) (rest : List Char) :
    untoken (tokenChar c ++ rest) = c :: untoken rest := by
  unfold tokenChar
  by_cases htilde : c = '~'
  · rw [if_pos htilde, htilde]
    rfl
  by_cases hslash : c = '/'
  · rw [if_neg htilde, if_pos hslash, hslash]
    rfl
  · rw [if_neg htilde, if_neg hslash]
    show untoken (c :: rest) = c :: untoken rest
    -- The last equation of `untoken` asks that no escape begins here.
    exact untoken.eq_4 c rest (fun _ hc _ => htilde hc) (fun _ hc _ => htilde hc)

/-- A token stands for the name that it was made from. -/
theorem untoken_token (name : List Char) : untoken (token name) = name := by
  induction name with
  | nil => rfl
  | cons c rest ih =>
    show untoken (tokenChar c ++ token rest) = _
    rw [untoken_tokenChar, ih]

/-- Writes slashes for `~1`. -/
def unslash : List Char → List Char
  | [] => []
  | '~' :: '1' :: rest => '/' :: unslash rest
  | c :: rest => c :: unslash rest

/-- Writes tildes for `~0`. -/
def untilde : List Char → List Char
  | [] => []
  | '~' :: '0' :: rest => '~' :: untilde rest
  | c :: rest => c :: untilde rest

theorem unslash_cons {c : Char} {rest : List Char} (h : ∀ cs, c = '~' → rest ≠ '1' :: cs) :
    unslash (c :: rest) = c :: unslash rest := unslash.eq_3 c rest h

theorem untilde_cons {c : Char} {rest : List Char} (h : ∀ cs, c = '~' → rest ≠ '0' :: cs) :
    untilde (c :: rest) = c :: untilde rest := untilde.eq_3 c rest h

/-- Writing slashes leaves a zero in front only where there was one. -/
theorem exists_of_unslash_eq_zero_cons {cs rest : List Char} (h : unslash cs = '0' :: rest) :
    ∃ cs', cs = '0' :: cs' := by
  unfold unslash at h
  split at h
  · cases h
  · exact absurd (List.cons.inj h).1 (by decide)
  · exact ⟨_, congrArg (· :: _) (List.cons.inj h).1⟩

/-- The escapes of a token may be undone one after the other, slashes first. -/
theorem untoken_eq (cs : List Char) : untoken cs = untilde (unslash cs) := by
  fun_induction untoken cs with
  | case1 => rfl
  | case2 rest ih =>
    show _ = untilde ('/' :: unslash rest)
    rw [untilde_cons (fun _ hc => absurd hc (by decide)), ih]
  | case3 rest ih =>
    have hfirst : unslash ('~' :: '0' :: rest) = '~' :: '0' :: unslash rest := by
      rw [unslash_cons (fun _ _ hc => absurd (List.cons.inj hc).1 (by decide)),
        unslash_cons (fun _ hc => absurd hc (by decide))]
    rw [hfirst, ih]
    rfl
  | case4 c rest hslash htilde ih =>
    rw [unslash_cons hslash, untilde_cons, ih]
    intro cs hc hzero
    obtain ⟨cs', hrest⟩ := exists_of_unslash_eq_zero_cons hzero
    exact htilde cs' hc hrest

theorem slash_notMem_token (name : List Char) : '/' ∉ token name := by
  unfold token
  rw [List.mem_flatMap]
  intro h
  obtain ⟨c, -, hc⟩ := h
  unfold tokenChar at hc
  by_cases htilde : c = '~'
  · rw [if_pos htilde] at hc
    exact absurd hc (by decide)
  by_cases hslash : c = '/'
  · rw [if_neg htilde, if_pos hslash] at hc
    exact absurd hc (by decide)
  · rw [if_neg htilde, if_neg hslash, List.mem_singleton] at hc
    exact hslash hc.symm

/-! ## 2. Percent encoding -/

theorem hexValue?_hexDigit {n : Nat} (h : n < 16) : hexValue? (hexDigit n) = some n := by
  interval_cases n <;> decide

theorem percentDecode_escaped (b : UInt8) (rest : List Char) :
    percentDecode ('%' :: hexDigit (b.toNat / 16) :: hexDigit (b.toNat % 16) :: rest) =
      b :: percentDecode rest := by
  have hbound : b.toNat < 256 := b.toNat_lt
  have hhigh : hexValue? (hexDigit (b.toNat / 16)) = some (b.toNat / 16) :=
    hexValue?_hexDigit (by omega)
  have hlow : hexValue? (hexDigit (b.toNat % 16)) = some (b.toNat % 16) :=
    hexValue?_hexDigit (by omega)
  rw [percentDecode]
  simp only [hhigh, hlow]
  rw [show b.toNat / 16 * 16 + b.toNat % 16 = b.toNat by omega, UInt8.ofNat_toNat]

theorem percentDecode_cons {c : Char} (h : c ≠ '%') (rest : List Char) :
    percentDecode (c :: rest) = utf8 [c] ++ percentDecode rest :=
  percentDecode.eq_3 c rest (fun _ _ _ hc _ => h hc)

theorem percentDecode_append {cs : List Char} (h : '%' ∉ cs) (rest : List Char) :
    percentDecode (cs ++ rest) = utf8 cs ++ percentDecode rest := by
  induction cs with
  | nil => rfl
  | cons c cs ih =>
    rw [List.mem_cons, not_or] at h
    rw [List.cons_append, percentDecode_cons (Ne.symm h.1), ih h.2, ← List.append_assoc,
      ← utf8_append, List.singleton_append]

/-- An unreserved byte is the encoding of an ASCII character that begins no escape. -/
theorem unreserved_ascii {b : UInt8} (h : isUnreserved b = true) :
    utf8 [Char.ofNat b.toNat] = [b] ∧ Char.ofNat b.toNat ≠ '%' := by
  have hall : ∀ n < 256, isUnreserved (UInt8.ofNat n) = true →
      utf8 [Char.ofNat (UInt8.ofNat n).toNat] = [UInt8.ofNat n] ∧
        Char.ofNat (UInt8.ofNat n).toNat ≠ '%' := by
    decide +kernel
  have hb := hall b.toNat b.toNat_lt
  rw [UInt8.ofNat_toNat] at hb
  exact hb h

theorem percentDecode_percentByte (b : UInt8) (rest : List Char) :
    percentDecode (percentByte b ++ rest) = b :: percentDecode rest := by
  unfold percentByte
  by_cases hkept : isUnreserved b = true
  · have hascii := unreserved_ascii hkept
    rw [if_pos hkept, List.singleton_append, percentDecode_cons hascii.2, hascii.1]
    rfl
  · rw [if_neg hkept]
    exact percentDecode_escaped b rest

theorem percentDecode_percentBytes (bs : List UInt8) :
    percentDecode (bs.flatMap percentByte) = bs := by
  induction bs with
  | nil => rfl
  | cons b rest ih => rw [List.flatMap_cons, percentDecode_percentByte, ih]

/-! ## 3. The way of a fragment -/

/-- What stands before the token in every fragment. -/
def beforeToken : List Char := '/' :: definitionsKey.toList ++ ['/']

theorem toList_ofName (name : String) : (ofName name).toList =
    '#' :: (beforeToken ++ (utf8 (token name.toList)).flatMap percentByte) := by
  have hbefore : "#/$defs/".toList = '#' :: beforeToken := by decide
  unfold ofName
  rw [String.toList_append, hbefore, List.cons_append]
  exact congrArg _ (congrArg _ String.toList_ofList)

theorem names?_eq {fragment : String} {encoded pointer : List Char}
    (hencoded : fragment.toList = '#' :: encoded)
    (hpointer : ofUtf8? (percentDecode encoded) = some ('/' :: pointer)) :
    names? fragment = some ((Text.split '/' pointer).map fun t => String.ofList (untoken t)) := by
  unfold names?
  simp only [hencoded, hpointer]

/-- The fragment of a name leads to the definitions and then to the name. -/
theorem names?_ofName (name : String) : names? (ofName name) = some [definitionsKey, name] := by
  have hdecode : ofUtf8? (percentDecode
      (beforeToken ++ (utf8 (token name.toList)).flatMap percentByte)) =
        some ('/' :: (definitionsKey.toList ++ '/' :: token name.toList)) := by
    rw [percentDecode_append (by decide), percentDecode_percentBytes, ← utf8_append, ofUtf8?_utf8]
    show some ('/' :: (definitionsKey.toList ++ ['/'] ++ token name.toList)) = _
    rw [List.append_assoc, List.singleton_append]
  have hsplit : Text.split '/' (definitionsKey.toList ++ '/' :: token name.toList) =
      [definitionsKey.toList, token name.toList] := by
    rw [Text.split_append (by decide), Text.split_of_notMem (slash_notMem_token _)]
  have hkey : String.ofList (untoken definitionsKey.toList) = definitionsKey := by decide
  rw [names?_eq (toList_ofName name) hdecode, hsplit, List.map_cons, List.map_singleton, hkey,
    untoken_token, String.ofList_toList]

theorem target?_ofName (name : String) : target? (ofName name) = some name := by
  unfold target?
  rw [names?_ofName]
  exact if_pos rfl

/-- Names with one fragment are the same name. -/
theorem ofName_injective : Function.Injective ofName := by
  intro a b h
  have hnames : target? (ofName a) = target? (ofName b) := congrArg target? h
  rw [target?_ofName, target?_ofName] at hnames
  exact Option.some.inj hnames

end Fragment
end CallContract
