import CallContract.Proofs.Reloading

/-!
# Items of unions

What a union is read as depends on what its items offer together, and on nothing else.  So an item
that is a union itself may as well be written as its own items, and of the word for null it only
matters whether it is there.
-/

namespace CallContract

/-! ## 1. Joined results -/

namespace Checked

variable {ε α β : Type}

theorem both_ok_left (f : α → β → β) (a : α) (y : Checked ε β) : both f (.ok a) y = y.map (f a) := by
  cases y <;> rfl

theorem both_assoc {f : α → α → α} (hf : ∀ a b c, f (f a b) c = f a (f b c))
    (x y z : Checked ε α) : both f (both f x y) z = both f x (both f y z) := by
  cases x <;> cases y <;> cases z <;> simp [both, hf]

theorem map_map {γ : Type} (f : α → β) (g : β → γ) (x : Checked ε α) :
    (x.map f).map g = x.map fun a => g (f a) := by
  cases x <;> rfl

end Checked

namespace Alternatives

theorem append_assoc (a b c : Alternatives) : (a.append b).append c = a.append (b.append c) := by
  simp [append, Bool.or_assoc]

theorem append_none (a : Alternatives) : a.append none = a := by
  simp [append, none]

end Alternatives

namespace Ty

/-- The word for null as an item. -/
def nullWord : Json := .string nullName

/-! ## 2. Items of an item -/

/-- Items one after the other offer what they offer one by one. -/
theorem ofAlternatives_append (xs ys : List Json) : ofAlternatives (xs ++ ys) =
    (ofAlternatives xs).both Alternatives.append (ofAlternatives ys) := by
  induction xs with
  | nil =>
    show ofAlternatives ys = (Checked.ok Alternatives.none).both Alternatives.append _
    rw [Checked.both_ok_left]
    cases ofAlternatives ys <;> rfl
  | cons v rest ih =>
    show (offer v (ofJson v)).both Alternatives.append (ofAlternatives (rest ++ ys)) = _
    rw [ih, ofAlternatives, Checked.both_assoc Alternatives.append_assoc]

theorem single_of_ofAlternatives {items : List Json} {a : Alternatives}
    (h : ofAlternatives items = .ok a) {u : Ty String} (hu : u ∈ a.types) : u.IsSingle := by
  obtain ⟨v, -, t, ht, hmem⟩ := exists_of_mem_ofAlternatives h hu
  exact (single_of_mem_alternatives (flat_of_ofJson ht) hmem).1

/-- A union that is an item offers what its own items offer. -/
theorem ofAlternatives_union {inner : List Json} {t : Ty String} (hlen : 2 ≤ inner.length)
    (h : ofJson (.array inner) = .ok t) : ofAlternatives [.array inner] = ofAlternatives inner := by
  have hread : (ofAlternatives inner).bind Alternatives.toTy = .ok t := by
    rw [← ofItems_eq_bind hlen]
    exact h
  obtain ⟨a, ha, ht⟩ := Checked.bind_eq_ok_iff.1 hread
  -- Its alternatives are no unions, so they come out of its type as they went in.
  have halternatives : t.alternatives = a :=
    alternatives_of_toTy ht fun u hu => single_of_ofAlternatives ha hu
  have hword : Json.array inner ≠ .string nullName := by simp
  rw [ofAlternatives, offer, if_neg hword, h, ha, Checked.map, halternatives]
  show Checked.ok (a.append Alternatives.none) = .ok a
  rw [Alternatives.append_none]

/-! ## 3. The word for null -/

/-- The other items tell the types, and whether there is a word for null tells the rest. -/
theorem ofAlternatives_eq_map (items : List Json) : ofAlternatives items =
    (ofAlternatives (items.filter (· ≠ nullWord))).map
      (Alternatives.append ⟨decide (nullWord ∈ items), []⟩) := by
  induction items with
  | nil => rfl
  | cons v rest ih =>
    by_cases hv : v = nullWord
    · subst hv
      have hoffer : offer nullWord (ofJson nullWord) = .ok .null := if_pos rfl
      rw [List.filter_cons_of_neg (by simp), ofAlternatives, hoffer, Checked.both_ok_left, ih,
        Checked.map_map]
      congr 1
    · have hmem : nullWord ∈ v :: rest ↔ nullWord ∈ rest :=
        List.mem_cons.trans (or_iff_right (Ne.symm hv))
      rw [List.filter_cons_of_pos (by simpa using hv), ofAlternatives, ofAlternatives, ih]
      simp only [hmem]
      -- What the first item offers and the word for null may change places.
      cases offer v (ofJson v) <;>
        cases ofAlternatives (rest.filter (· ≠ nullWord)) <;>
        simp [Checked.both, Checked.map, Alternatives.append, Bool.or_left_comm]

/-! ## 4. Unions -/

/-- **Neither nesting nor the place of null matters in a union.**  An array among the items that is
read as a type may be replaced by its own items, and two unions with the same other items are the
same if both have the word for null, wherever and however often.  This holds of what is wrong with
them, too. -/
theorem unions_read_alike :
    (∀ (before after inner : List Json) (t : Ty String),
      2 ≤ (before ++ .array inner :: after).length → 2 ≤ inner.length →
      ofJson (.array inner) = .ok t →
      ofJson (.array (before ++ .array inner :: after)) =
        ofJson (.array (before ++ inner ++ after))) ∧
    ∀ xs ys : List Json, 2 ≤ xs.length → 2 ≤ ys.length → nullWord ∈ xs → nullWord ∈ ys →
      xs.filter (· ≠ nullWord) = ys.filter (· ≠ nullWord) →
      ofJson (.array xs) = ofJson (.array ys) := by
  constructor
  · intro before after inner t houter hinner h
    have hspliced : 2 ≤ (before ++ inner ++ after).length := by
      simp only [List.length_append]
      omega
    rw [ofJson, ofJson, ofItems_eq_bind houter, ofItems_eq_bind hspliced, List.append_cons]
    simp only [ofAlternatives_append, ofAlternatives_union hinner h]
  · intro xs ys hxs hys hnull hnull' hothers
    rw [ofJson, ofJson, ofItems_eq_bind hxs, ofItems_eq_bind hys, ofAlternatives_eq_map xs,
      ofAlternatives_eq_map ys, hothers]
    simp only [hnull, hnull']

theorem unions_read_alike_deep :
    ofJson (.array [.string "int", .array [.string "A", .array [nullWord, .string "float"]],
      .string "B"]) =
        .ok (.nullable (.union [.scalar .integer, .named "A", .scalar .float, .named "B"])) ∧
    ofJson (.array [.string "int", .array [.string "A", .array [nullWord, .string "float"]],
      .object []]) = .failed ⟨[], .emptyObject⟩ [] ∧
    ofJson (.array [nullWord, .string "A", nullWord, .array [.object []], nullWord]) =
      ofJson (.array [.string "A", .array [.object []], nullWord]) := by
  obtain ⟨hnesting, hnull⟩ := unions_read_alike
  have hinner : ofJson (.array [.string "A", .array [nullWord, .string "float"]]) =
      .ok (.nullable (.union [.named "A", .scalar .float])) := by decide +kernel
  refine ⟨?_, ?_, ?_⟩
  · apply (hnesting [.string "int"] [.string "B"] _ _ (by decide) (by decide) hinner).trans
    decide +kernel
  · apply (hnesting [.string "int"] [.object []] _ _ (by decide) (by decide) hinner).trans
    decide +kernel
  · exact hnull _ _ (by decide) (by decide) (by decide) (by decide) (by decide)

end Ty
end CallContract
