/-!
# Splitting text

A text cut at every occurrence of a character. There is one more part than there are cuts.
-/

namespace CallContract.Text

/-- The parts of a text between the occurrences of a character. -/
def split (mark : Char) : List Char → List (List Char)
  | [] => [[]]
  | c :: rest =>
    if c = mark then [] :: split mark rest
    else match split mark rest with
      | [] => [[c]]
      | part :: parts => (c :: part) :: parts

/-- The parts put together again, with the character between them. -/
def join (mark : Char) : List (List Char) → List Char
  | [] => []
  | [part] => part
  | part :: parts => part ++ mark :: join mark parts

theorem split_ne_nil (mark : Char) (cs : List Char) : split mark cs ≠ [] := by
  cases cs with
  | nil => simp [split]
  | cons c rest =>
    unfold split
    split
    · simp
    · split <;> simp

theorem join_split (mark : Char) (cs : List Char) : join mark (split mark cs) = cs := by
  induction cs with
  | nil => rfl
  | cons c rest ih =>
    unfold split
    split
    · rename_i hc
      cases hs : split mark rest with
      | nil => exact absurd hs (split_ne_nil mark rest)
      | cons part parts => simp [join, ← hs, ih, hc]
    · cases hs : split mark rest with
      | nil => exact absurd hs (split_ne_nil mark rest)
      | cons part parts =>
        rw [hs] at ih
        cases parts with
        | nil =>
          simp only [join] at ih ⊢
          rw [ih]
        | cons p ps =>
          simp only [join, List.cons_append] at ih ⊢
          rw [ih]

variable {mark : Char} {cs : List Char}

theorem split_mark (mark : Char) (rest : List Char) :
    split mark (mark :: rest) = [] :: split mark rest := by
  rw [split, if_pos rfl]

theorem split_of_notMem (h : mark ∉ cs) : split mark cs = [cs] := by
  induction cs with
  | nil => rfl
  | cons c rest ih =>
    rw [List.mem_cons, not_or] at h
    rw [split, if_neg (Ne.symm h.1), ih h.2]

theorem split_append_mark (cs rest : List Char) :
    split mark (cs ++ mark :: rest) = split mark cs ++ split mark rest := by
  induction cs with
  | nil => exact split_mark mark rest
  | cons c cs ih =>
    rw [List.cons_append, split, split, ih]
    by_cases hc : c = mark
    · rw [if_pos hc, if_pos hc, List.cons_append]
    · rw [if_neg hc, if_neg hc]
      cases hcs : split mark cs with
      | nil => exact absurd hcs (split_ne_nil mark cs)
      | cons part parts => rfl

theorem split_append (h : mark ∉ cs) (rest : List Char) :
    split mark (cs ++ mark :: rest) = cs :: split mark rest := by
  rw [split_append_mark, split_of_notMem h, List.singleton_append]

/-- The first part is the whole text, or the mark stands behind it. -/
theorem exists_split_cons (mark : Char) (cs : List Char) : ∃ part parts,
    split mark cs = part :: parts ∧ (cs = part ∨ ∃ rest, cs = part ++ mark :: rest) := by
  have hcs := join_split mark cs
  cases hparts : split mark cs with
  | nil => exact absurd hparts (split_ne_nil mark cs)
  | cons part parts =>
    rw [hparts] at hcs
    refine ⟨part, parts, rfl, ?_⟩
    cases parts with
    | nil => exact .inl hcs.symm
    | cons next parts => exact .inr ⟨join mark (next :: parts), hcs.symm⟩

theorem split_join {parts : List (List Char)} (hne : parts ≠ []) (h : ∀ part ∈ parts, mark ∉ part) :
    split mark (join mark parts) = parts := by
  induction parts with
  | nil => exact absurd rfl hne
  | cons part rest ih =>
    rw [List.forall_mem_cons] at h
    cases rest with
    | nil => exact split_of_notMem h.1
    | cons next rest =>
      show split mark (part ++ mark :: join mark (next :: rest)) = _
      rw [split_append h.1, ih (List.cons_ne_nil next rest) h.2]

end CallContract.Text
