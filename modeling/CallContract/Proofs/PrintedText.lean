import CallContract.Json.Printer
import CallContract.Proofs.JsonParts
import CallContract.Proofs.ReaderSteps
import Mathlib.Tactic.FinCases
import Mathlib.Tactic.IntervalCases

/-!
# Reading printed text

A string is read as it was quoted, and a value without numbers is read as it was printed, whatever
follows.  It has to fit into the room that the reader has left, though: a value that is nested more
deeply is refused, however it is made up.
-/

namespace CallContract.Json

/-! ## 1. String literals -/

theorem hexValue?_hexDigit {n : Nat} (h : n < 16) : hexValue? (hexDigit n) = some n := by
  interval_cases n <;> decide

/-- Four digits for a small number are read as that number. -/
theorem hexUnit_small {n : Nat} (h : n < 0x20) (rest : List Char) :
    hexUnit ('0' :: '0' :: hexDigit (n / 16) :: hexDigit (n % 16) :: rest) = .ok (n, rest) := by
  have hzero : hexValue? '0' = some 0 := by decide
  have hhigh : hexValue? (hexDigit (n / 16)) = some (n / 16) := hexValue?_hexDigit (by omega)
  have hlow : hexValue? (hexDigit (n % 16)) = some (n % 16) := hexValue?_hexDigit (by omega)
  unfold hexUnit
  simp only [hzero, hhigh, hlow]
  rw [show ((0 * 16 + 0) * 16 + n / 16) * 16 + n % 16 = n by omega]

theorem unicodeEscape_small {c : Char} (h : c.toNat < 0x20) (rest : List Char) :
    unicodeEscape ('0' :: '0' :: hexDigit (c.toNat / 16) :: hexDigit (c.toNat % 16) :: rest) =
      .ok (c, rest) := by
  have htrailing : isTrailing c.toNat = false := by
    simp only [isTrailing, Bool.and_eq_false_iff, decide_eq_false_iff_not]
    omega
  have hleading : isLeading c.toNat = false := by
    simp only [isLeading, Bool.and_eq_false_iff, decide_eq_false_iff_not]
    omega
  unfold unicodeEscape
  rw [hexUnit_small h]
  simp only [htrailing, hleading]
  simp

/-- An escaped character is one piece of a literal. -/
theorem piece_escape (c : Char) (rest : List Char) :
    piece (escape c ++ rest) = .ok (.char c rest) := by
  by_cases hletter : c ∈ ['"', '\\', '\x08', '\t', '\n', '\x0c', '\r']
  · fin_cases hletter <;> rfl
  · simp only [List.mem_cons, List.not_mem_nil, or_false, not_or] at hletter
    obtain ⟨hquote, hslash, hb, ht, hn, hf, hr⟩ := hletter
    unfold escape
    rw [if_neg hquote, if_neg hslash, if_neg hb, if_neg ht, if_neg hn, if_neg hf, if_neg hr]
    split
    · rename_i hsmall
      show (unicodeEscape ('0' :: '0' :: _ :: _ :: rest)).map _ = _
      rw [unicodeEscape_small hsmall]
      rfl
    · rename_i hlarge
      show piece (c :: rest) = _
      unfold piece
      split <;> rename_i heq <;> cases heq
      · exact absurd rfl hslash
      · exact absurd rfl hquote
      · exact absurd rfl hslash
      · exact absurd rfl hslash
      · rw [if_neg hlarge]

/-- What is quoted is read as it was. -/
theorem stringLiteral_quoted (cs rest : List Char) :
    stringLiteral (cs.flatMap escape ++ '"' :: rest) = .ok (cs, rest) := by
  induction cs with
  | nil =>
    rw [List.flatMap_nil, List.nil_append, stringLiteral]
    rfl
  | cons c cs ih =>
    have hpiece := piece_escape c (cs.flatMap escape ++ '"' :: rest)
    rw [List.flatMap_cons, List.append_assoc, stringLiteral]
    split
    · rename_i h
      rw [hpiece] at h
      cases h
    · rename_i h
      rw [hpiece] at h
      cases h
    · rename_i h
      rw [hpiece] at h
      cases h
      rw [ih]
      rfl

/-! ## 2. Printed values -/

/-- There are no numbers in the value. -/
inductive Numberless : Json → Prop
  | null : Numberless .null
  | boolean (b : Bool) : Numberless (.boolean b)
  | string (s : String) : Numberless (.string s)
  | array {items : List Json} : (∀ v ∈ items, Numberless v) → Numberless (.array items)
  | object {members : Named Json} :
      (∀ k v, (k, v) ∈ members → Numberless v) → Numberless (.object members)

theorem numberless_array_iff {items : List Json} :
    (Json.array items).Numberless ↔ ∀ v ∈ items, v.Numberless := by
  refine ⟨fun h => ?_, .array⟩
  cases h with
  | array hitems => exact hitems

theorem numberless_object_iff {members : Named Json} :
    (Json.object members).Numberless ↔ ∀ m ∈ members, m.2.Numberless := by
  refine ⟨fun h => ?_, fun h => .object fun k v hm => h (k, v) hm⟩
  cases h with
  | object hmembers => exact fun m hm => hmembers m.1 m.2 hm

/-- A printed value begins with a character of its own. -/
theorem exists_print_eq_cons {v : Json} (hv : v.Numberless) :
    ∃ c cs, v.print = c :: cs ∧ isBlank c = false ∧ c ≠ ']' := by
  cases hv with
  | null => exact ⟨'n', ['u', 'l', 'l'], by decide, rfl, by decide⟩
  | boolean b =>
    cases b with
    | true => exact ⟨'t', ['r', 'u', 'e'], by decide, rfl, by decide⟩
    | false => exact ⟨'f', ['a', 'l', 's', 'e'], by decide, rfl, by decide⟩
  | string s => exact ⟨'"', _, rfl, rfl, by decide⟩
  | array _ => exact ⟨'[', _, rfl, rfl, by decide⟩
  | object _ => exact ⟨'\x7b', _, rfl, rfl, by decide⟩

theorem beginsItem_print {v : Json} (hv : v.Numberless) (rest : List Char) :
    BeginsItem (v.print ++ rest) := by
  obtain ⟨c, cs, hprint, hblank, hclose⟩ := exists_print_eq_cons hv
  refine ⟨c, cs ++ rest, ?_, hclose⟩
  rw [hprint, List.cons_append]
  exact skip_of_not_blank hblank

theorem printItems_cons (v w : Json) (ws : List Json) (rest : List Char) :
    printItems (v :: w :: ws) ++ ']' :: rest =
      v.print ++ ',' :: (printItems (w :: ws) ++ ']' :: rest) := by
  simp [printItems]

theorem exists_printItems_cons (v : Json) (vs : List Json) (rest : List Char) :
    ∃ tail, printItems (v :: vs) ++ ']' :: rest = v.print ++ tail := by
  cases vs with
  | nil => exact ⟨_, rfl⟩
  | cons w ws => exact ⟨_, printItems_cons v w ws rest⟩

theorem printMembers_single (k : String) (v : Json) (rest : List Char) :
    printMembers [(k, v)] ++ '\x7d' :: rest =
      '"' :: (k.toList.flatMap escape ++ '"' :: ':' :: (v.print ++ '\x7d' :: rest)) := by
  simp [printMembers, quote]

theorem printMembers_cons (k : String) (v : Json) (m : String × Json) (ms : Named Json)
    (rest : List Char) :
    printMembers ((k, v) :: m :: ms) ++ '\x7d' :: rest =
      '"' :: (k.toList.flatMap escape ++ '"' :: ':' ::
        (v.print ++ ',' :: (printMembers (m :: ms) ++ '\x7d' :: rest))) := by
  simp [printMembers, quote]

theorem exists_printMembers_cons (k : String) (v : Json) (ms : Named Json) (rest : List Char) :
    ∃ tail, printMembers ((k, v) :: ms) ++ '\x7d' :: rest =
      '"' :: (k.toList.flatMap escape ++ '"' :: ':' :: (v.print ++ tail)) := by
  cases ms with
  | nil => exact ⟨_, printMembers_single k v rest⟩
  | cons m ms => exact ⟨_, printMembers_cons k v m ms rest⟩

theorem print_array (items : List Json) (rest : List Char) :
    (Json.array items).print ++ rest = '[' :: (printItems items ++ ']' :: rest) := by
  simp [print]

theorem print_object (members : Named Json) (rest : List Char) :
    (Json.object members).print ++ rest =
      '\x7b' :: (printMembers members ++ '\x7d' :: rest) := by
  simp [print]

/-! ## 3. Reading printed values -/

/-- With enough room the value comes out of its printed text, and what follows is left; otherwise
the text is found to be nested too deeply. -/
structure Reads (room : Nat) (v : Json) : Prop where
  back : v.depth ≤ room → ∀ rest, (readValue room (v.print ++ rest)).result.value = .ok v ∧
    (readValue room (v.print ++ rest)).rest = rest
  tooDeep : room < v.depth → ∀ rest, ∃ place,
    (readValue room (v.print ++ rest)).result.value = .error ⟨.tooDeep, place⟩

/-- Items are read as they were printed, up to the first that is nested too deeply.  Behind a comma
there has to be one. -/
theorem readItems_print {room : Nat} {items : List Json}
    (h : ∀ v ∈ items, v.Numberless ∧ Reads room v) (first : Bool)
    (hfirst : items = [] → first = true) (rest : List Char) :
    (depthItems items ≤ room → ∃ rs,
      (readItems room first (printItems items ++ ']' :: rest)).parts =
        ((rs, .closed (.here rest)), rest) ∧ Reading.valueItems rs = .ok items) ∧
    (room < depthItems items → ∃ place, Reading.valueItems
      (readItems room first (printItems items ++ ']' :: rest)).result.1 =
        .error ⟨.tooDeep, place⟩) := by
  induction items generalizing first with
  | nil =>
    have hclose : skip (']' :: rest) = ']' :: rest := skip_of_not_blank rfl
    refine ⟨fun _ => ⟨[], ?_, rfl⟩, fun hdeep => absurd hdeep (Nat.not_lt_zero room)⟩
    rw [hfirst rfl, printItems, List.nil_append, parts_readItems, hclose]
    rfl
  | cons v vs ih =>
    rw [List.forall_mem_cons] at h
    obtain ⟨⟨hv, hreads⟩, hvs⟩ := h
    by_cases hdeep : room < v.depth
    · refine ⟨fun hle => absurd (Nat.max_le.1 hle).1 (Nat.not_le_of_lt hdeep), fun _ => ?_⟩
      obtain ⟨tail, htail⟩ := exists_printItems_cons v vs rest
      obtain ⟨place, hvalue⟩ := hreads.tooDeep hdeep tail
      obtain ⟨rs, hrs⟩ := exists_readItems_eq_cons room first (beginsItem_print hv tail)
      refine ⟨place, ?_⟩
      rw [htail, hrs, Reading.valueItems, hvalue]
      rfl
    have hle : v.depth ≤ room := Nat.le_of_not_lt hdeep
    have hback := hreads.back hle
    cases vs with
    | nil =>
      refine ⟨fun _ => ?_, fun hlt => absurd (Nat.max_le.2 ⟨hle, Nat.zero_le room⟩)
        (Nat.not_le_of_lt hlt)⟩
      obtain ⟨hvalue, hrest⟩ := hback (']' :: rest)
      rw [show printItems [v] = v.print from rfl]
      refine ⟨_, parts_readItems_last first (beginsItem_print hv _) hrest, ?_⟩
      rw [Reading.valueItems, hvalue]
      rfl
    | cons w ws =>
      obtain ⟨hvalue, hrest⟩ := hback (',' :: (printItems (w :: ws) ++ ']' :: rest))
      obtain ⟨hfits, hdeeper⟩ := ih hvs false (fun h => by cases h)
      have hparts := parts_readItems_more first (beginsItem_print hv _) hrest
      rw [printItems_cons]
      constructor
      · intro hall
        obtain ⟨rs, hmore, hvalues⟩ := hfits (Nat.max_le.1 hall).2
        obtain ⟨hresult, hleft⟩ := Prod.mk.inj hmore
        rw [hresult, hleft] at hparts
        refine ⟨_, hparts, ?_⟩
        rw [Reading.valueItems, hvalue, hvalues]
        rfl
      · intro hlt
        obtain ⟨place, hmore⟩ := hdeeper ((lt_max_iff.1 hlt).resolve_left hdeep)
        refine ⟨place, ?_⟩
        rw [(Prod.mk.inj hparts).1, Reading.valueItems, hvalue, hmore]
        rfl

theorem readMembers_print {room : Nat} {members : Named Json}
    (h : ∀ m ∈ members, Reads room m.2) (first : Bool) (hfirst : members = [] → first = true)
    (rest : List Char) :
    (depthMembers members ≤ room → ∃ ms,
      (readMembers room first (printMembers members ++ '\x7d' :: rest)).parts =
        ((ms, .closed (.here rest)), rest) ∧ Reading.valueMembers ms = .ok members) ∧
    (room < depthMembers members → ∃ place, Reading.valueMembers
      (readMembers room first (printMembers members ++ '\x7d' :: rest)).result.1 =
        .error ⟨.tooDeep, place⟩) := by
  induction members generalizing first with
  | nil =>
    have hclose : skip ('\x7d' :: rest) = '\x7d' :: rest := skip_of_not_blank rfl
    refine ⟨fun _ => ⟨[], ?_, rfl⟩, fun hdeep => absurd hdeep (Nat.not_lt_zero room)⟩
    rw [hfirst rfl, printMembers, List.nil_append, parts_readMembers, hclose]
    rfl
  | cons m vs ih =>
    obtain ⟨k, v⟩ := m
    rw [List.forall_mem_cons] at h
    obtain ⟨hreads, hvs⟩ := h
    by_cases hdeep : room < v.depth
    · refine ⟨fun hle => absurd (Nat.max_le.1 hle).1 (Nat.not_le_of_lt hdeep), fun _ => ?_⟩
      obtain ⟨tail, htail⟩ := exists_printMembers_cons k v vs rest
      obtain ⟨place, hvalue⟩ := hreads.tooDeep hdeep tail
      obtain ⟨ms, hms⟩ := exists_readMembers_eq_cons room first
        (stringLiteral_quoted k.toList (':' :: (v.print ++ tail)))
      refine ⟨place, ?_⟩
      rw [htail, hms, Reading.valueMembers, hvalue]
      rfl
    have hle : v.depth ≤ room := Nat.le_of_not_lt hdeep
    have hback := hreads.back hle
    cases vs with
    | nil =>
      refine ⟨fun _ => ?_, fun hlt => absurd (Nat.max_le.2 ⟨hle, Nat.zero_le room⟩)
        (Nat.not_le_of_lt hlt)⟩
      obtain ⟨hvalue, hrest⟩ := hback ('\x7d' :: rest)
      rw [printMembers_single]
      refine ⟨_, parts_readMembers_last first (stringLiteral_quoted k.toList _) hrest, ?_⟩
      rw [Reading.valueMembers, hvalue, String.ofList_toList]
      rfl
    | cons w ws =>
      obtain ⟨hvalue, hrest⟩ := hback (',' :: (printMembers (w :: ws) ++ '\x7d' :: rest))
      obtain ⟨hfits, hdeeper⟩ := ih hvs false (fun h => by cases h)
      have hparts := parts_readMembers_more first (stringLiteral_quoted k.toList _) hrest
      rw [printMembers_cons]
      constructor
      · intro hall
        obtain ⟨ms, hmore, hvalues⟩ := hfits (Nat.max_le.1 hall).2
        obtain ⟨hresult, hleft⟩ := Prod.mk.inj hmore
        rw [hresult, hleft] at hparts
        refine ⟨_, hparts, ?_⟩
        rw [Reading.valueMembers, hvalue, hvalues, String.ofList_toList]
        rfl
      · intro hlt
        obtain ⟨place, hmore⟩ := hdeeper ((lt_max_iff.1 hlt).resolve_left hdeep)
        refine ⟨place, ?_⟩
        rw [(Prod.mk.inj hparts).1, Reading.valueMembers, hvalue, hmore]
        rfl

/-- Where there are no brackets any room is enough. -/
theorem reads_of_flat {room : Nat} {v : Json} (hflat : v.depth = 0)
    (h : ∀ rest, ∃ r, (readValue room (v.print ++ rest)).parts = (r, rest) ∧ r.value = .ok v) :
    Reads room v where
  back _ rest := by
    obtain ⟨r, hparts, hvalue⟩ := h rest
    obtain ⟨hresult, hleft⟩ := Prod.mk.inj hparts
    rw [hresult]
    exact ⟨hvalue, hleft⟩
  tooDeep hdeep := absurd hdeep (hflat ▸ Nat.not_lt_zero room)

theorem readValue_null {room : Nat} (rest : List Char) :
    (readValue room (Json.null.print ++ rest)).parts = (.null (.here rest), rest) := by
  show (readValue room ('n' :: 'u' :: 'l' :: 'l' :: rest)).parts = _
  rw [parts_readValue (skip_of_not_blank rfl)]
  rfl

theorem readValue_boolean {room : Nat} (b : Bool) (rest : List Char) :
    (readValue room ((Json.boolean b).print ++ rest)).parts = (.boolean b (.here rest), rest) := by
  cases b with
  | true =>
    show (readValue room ('t' :: 'r' :: 'u' :: 'e' :: rest)).parts = _
    rw [parts_readValue (skip_of_not_blank rfl)]
    rfl
  | false =>
    show (readValue room ('f' :: 'a' :: 'l' :: 's' :: 'e' :: rest)).parts = _
    rw [parts_readValue (skip_of_not_blank rfl)]
    rfl

theorem readValue_string {room : Nat} (s : String) (rest : List Char) :
    (readValue room ((Json.string s).print ++ rest)).parts = (.string s (.here rest), rest) := by
  have hprint : (Json.string s).print ++ rest =
      '"' :: (s.toList.flatMap escape ++ '"' :: rest) := by
    simp [print, quote]
  rw [hprint, parts_readValue (skip_of_not_blank rfl), if_pos rfl, stringLiteral_quoted]
  simp only [String.ofList_toList]

/-- Without room for its bracket an array or object is refused at once. -/
theorem reads_zero {v : Json} {c : Char} {cs : List Char} (hc : c = '[' ∨ c = '\x7b')
    (hprint : v.print = c :: cs) (hdepth : 0 < v.depth) : Reads 0 v where
  back hle := absurd hdepth (Nat.not_lt_of_le hle)
  tooDeep _ rest := by
    rw [hprint, List.cons_append, result_readValue_zero hc]
    exact ⟨_, rfl⟩

theorem reads_array {room : Nat} {items : List Json}
    (h : ∀ v ∈ items, v.Numberless ∧ Reads room v) : Reads (room + 1) (.array items) where
  back hle rest := by
    rw [depth, Nat.add_le_add_iff_right] at hle
    obtain ⟨rs, hparts, hvalues⟩ := (readItems_print h true (fun _ => rfl) rest).1 hle
    obtain ⟨hresult, hleft⟩ := Prod.mk.inj hparts
    obtain ⟨hvalue, hrest⟩ := Prod.mk.inj
      (parts_readValue_bracket room (printItems items ++ ']' :: rest))
    rw [print_array, hvalue, hrest, hresult, hleft, Reading.value, hvalues]
    exact ⟨rfl, rfl⟩
  tooDeep hdeep rest := by
    rw [depth, Nat.add_lt_add_iff_right] at hdeep
    obtain ⟨place, hvalues⟩ := (readItems_print h true (fun _ => rfl) rest).2 hdeep
    refine ⟨place, ?_⟩
    rw [print_array, (Prod.mk.inj (parts_readValue_bracket _ _)).1, Reading.value, hvalues]
    rfl

theorem reads_object {room : Nat} {members : Named Json} (h : ∀ m ∈ members, Reads room m.2) :
    Reads (room + 1) (.object members) where
  back hle rest := by
    rw [depth, Nat.add_le_add_iff_right] at hle
    obtain ⟨ms, hparts, hvalues⟩ := (readMembers_print h true (fun _ => rfl) rest).1 hle
    obtain ⟨hresult, hleft⟩ := Prod.mk.inj hparts
    obtain ⟨hvalue, hrest⟩ := Prod.mk.inj
      (parts_readValue_brace room (printMembers members ++ '\x7d' :: rest))
    rw [print_object, hvalue, hrest, hresult, hleft, Reading.value, hvalues]
    exact ⟨rfl, rfl⟩
  tooDeep hdeep rest := by
    rw [depth, Nat.add_lt_add_iff_right] at hdeep
    obtain ⟨place, hvalues⟩ := (readMembers_print h true (fun _ => rfl) rest).2 hdeep
    refine ⟨place, ?_⟩
    rw [print_object, (Prod.mk.inj (parts_readValue_brace _ _)).1, Reading.value, hvalues]
    rfl

theorem reads_of_numberless {v : Json} (hv : v.Numberless) (room : Nat) : Reads room v := by
  induction hv generalizing room with
  | null => exact reads_of_flat rfl fun rest => ⟨_, readValue_null rest, rfl⟩
  | boolean b => exact reads_of_flat rfl fun rest => ⟨_, readValue_boolean b rest, rfl⟩
  | string s => exact reads_of_flat rfl fun rest => ⟨_, readValue_string s rest, rfl⟩
  | array hitems ih =>
    cases room with
    | zero => exact reads_zero (.inl rfl) rfl (Nat.succ_pos _)
    | succ room => exact reads_array fun v hv => ⟨hitems v hv, ih v hv room⟩
  | object _ ih =>
    cases room with
    | zero => exact reads_zero (.inr rfl) rfl (Nat.succ_pos _)
    | succ room => exact reads_object fun m hm => ih m.1 m.2 hm room

/-- **The text of a value without numbers is read as that value**, unless the value is nested too
deeply; then it is not read at all. -/
theorem read_text_eq_ok_iff {v w : Json} (hv : v.Numberless) :
    read v.text.toList = .ok w ↔ v.depth ≤ nestingLimit ∧ w = v := by
  have hreads : Reads nestingLimit v := reads_of_numberless hv nestingLimit
  have hprint : v.print = v.print ++ [] := (List.append_nil _).symm
  rw [text, String.toList_ofList, read_eq_ok_iff, hprint]
  constructor
  · rintro ⟨hvalue, _⟩
    by_cases hdepth : v.depth ≤ nestingLimit
    · rw [(hreads.back hdepth []).1] at hvalue
      exact ⟨hdepth, (Except.ok.inj hvalue).symm⟩
    · obtain ⟨place, hdeep⟩ := hreads.tooDeep (Nat.lt_of_not_le hdepth) []
      rw [hdeep] at hvalue
      cases hvalue
  · rintro ⟨hdepth, heq⟩
    obtain ⟨hvalue, hrest⟩ := hreads.back hdepth []
    rw [hvalue, hrest, heq]
    exact ⟨rfl, rfl⟩

end CallContract.Json
