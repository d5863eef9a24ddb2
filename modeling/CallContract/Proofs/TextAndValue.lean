import CallContract.Document.Reader
import CallContract.Proofs.PrintedText
import CallContract.Proofs.RoundTrip

/-!
# Texts and their values

A document is read from a text as it is read from the value of that text: the same document comes
out, the same malformed types or the same wrong shape.  Where there is no value, because the text is
broken or nested too deeply, the types are never looked at.
-/

namespace CallContract.Document

/-- The outcome for a text is that for a value, but a wrong shape has a position in a text. -/
inductive SameOutcome : Except DocumentError Document → Except DocumentError Document → Prop
  | document (d : Document) : SameOutcome (.ok d) (.ok d)
  | malformed (first : Finding) (others : List Finding) :
      SameOutcome (.error (.malformed first others)) (.error (.malformed first others))
  | misshapen (path : List String) (m : Outline.Misshape) (position : Position) :
      SameOutcome (.error (.misshapen path m (some position))) (.error (.misshapen path m none))

theorem SameOutcome.eq_ok_iff {x y : Except DocumentError Document} {d : Document}
    (h : SameOutcome x y) : x = .ok d ↔ y = .ok d := by
  cases h <;> simp

theorem sameOutcome_accept (x : Checked Finding Document) : SameOutcome (accept x) (accept x) := by
  cases x with
  | ok d => exact .document d
  | failed f fs => exact .malformed f fs

theorem sameOutcome_of_read {text : String} {v : Json} (h : Json.read text.toList = .ok v) :
    SameOutcome (ofText text) (ofJson v) := by
  obtain ⟨hvalue, hend⟩ := Json.read_eq_ok_iff.1 h
  have hagrees := Outline.agrees_ofReading hvalue
  simp only [ofText, ofJson]
  generalize Outline.ofReading (Json.readValue Json.nestingLimit text.toList).result = x
    at hagrees ⊢
  generalize Outline.ofReading (Json.Reading.ofJson v) = y at hagrees ⊢
  cases hagrees with
  | found o =>
    simp only [hend]
    exact sameOutcome_accept _
  | misshapen path m mark => exact .misshapen path m _

/-- A text with an outline stands for a value unless something follows that value. -/
theorem exists_error_of_read {text : String} {f : Json.Fault}
    (h : Json.read text.toList = .error f) :
    (∃ problem position, ofText text = .error (.notJson problem position)) ∨
      ∃ path m position, ofText text = .error (.misshapen path m (some position)) := by
  simp only [ofText]
  split
  · exact .inl ⟨_, _, rfl⟩
  · exact .inr ⟨_, _, _, rfl⟩
  · rename_i o ho
    -- There is an outline, so the value is whole and what is wrong comes after it.
    obtain ⟨v, hv⟩ := Outline.exists_value_of_ofReading ho
    split
    · exact .inl ⟨_, _, rfl⟩
    · rename_i hend
      rw [Json.read_eq_ok_iff.2 ⟨hv, hend⟩] at h
      cases h

/-- A document that was read from a text was read from the value of that text. -/
theorem exists_read_of_ofText {text : String} {d : Document} (h : ofText text = .ok d) :
    ∃ v, Json.read text.toList = .ok v ∧ ofJson v = .ok d := by
  cases hread : Json.read text.toList with
  | ok v => exact ⟨v, rfl, (sameOutcome_of_read hread).eq_ok_iff.1 h⟩
  | error f =>
    obtain ⟨_, _, herror⟩ | ⟨_, _, _, herror⟩ := exists_error_of_read hread
    · rw [h] at herror
      cases herror
    · rw [h] at herror
      cases herror

/-- A document comes out of a printed value if it comes out of the value, and that is not nested too
deeply. -/
theorem ofText_text_eq_ok_iff {v : Json} {d : Document} (hv : v.Numberless) :
    ofText v.text = .ok d ↔ v.depth ≤ Json.nestingLimit ∧ ofJson v = .ok d := by
  constructor
  · intro h
    obtain ⟨w, hread, hw⟩ := exists_read_of_ofText h
    obtain ⟨hdepth, rfl⟩ := (Json.read_text_eq_ok_iff hv).1 hread
    exact ⟨hdepth, hw⟩
  · rintro ⟨hdepth, h⟩
    have hread := (Json.read_text_eq_ok_iff hv).2 ⟨hdepth, rfl⟩
    exact (sameOutcome_of_read hread).eq_ok_iff.2 h

/-- A text adds its position to the wording of a wrong shape, and nothing else. -/
theorem detail_position (m : Outline.Misshape) (p : Position) :
    DocumentError.detail m (some p) = DocumentError.detail m none ++
      (" at line " ++ toString p.line ++ " column " ++ toString p.column) := by
  have hwords : " at line " = " at " ++ "line " := by decide
  show m.message ++ (" at " ++ ("line " ++ toString p.line ++ " column " ++ toString p.column)) =
    m.message ++ "" ++ _
  rw [String.append_empty, hwords]
  simp only [String.append_assoc]

/-- **A text has the outcome of the value it stands for**, and without a value no types are read. -/
theorem text_outcome (text : String) :
    (∀ v, Json.read text.toList = .ok v → v.Distinct →
      SameOutcome (ofText text) (ofJson v.merge)) ∧
    (∀ f, Json.read text.toList = .error f →
      (∃ problem position, ofText text = .error (.notJson problem position)) ∨
      ∃ path m position, ofText text = .error (.misshapen path m (some position))) ∧
    ∀ (m : Outline.Misshape) (p : Position),
      DocumentError.detail m (some p) = DocumentError.detail m none ++
        (" at line " ++ toString p.line ++ " column " ++ toString p.column) := by
  refine ⟨?_, fun f => exists_error_of_read, detail_position⟩
  intro v hread hdistinct
  rw [Json.merge_of_distinct hdistinct]
  exact sameOutcome_of_read hread

/-- An enumeration with a member that is not a string. -/
def flagged : Json :=
  .object [("enums", .object [("Color", .object [("RED", .boolean true)])])]

theorem flagged_numberless : flagged.Numberless := by
  simp [flagged, Json.numberless_object_iff, Json.Numberless.boolean]

theorem text_outcome_flagged :
    (∃ position, ofText flagged.text = .error (.misshapen ["enums", "Color", "RED"]
      (.wrongKind (.boolean true) .string) (some position))) ∧
    ((∃ problem position, ofText "" = .error (.notJson problem position)) ∨
      ∃ path m position, ofText "" = .error (.misshapen path m (some position))) := by
  constructor
  · have hread : Json.read flagged.text.toList = .ok flagged :=
      (Json.read_text_eq_ok_iff flagged_numberless).2 ⟨by decide +kernel, rfl⟩
    have hdistinct : flagged.Distinct := by
      simp [flagged, Json.Distinct, Json.DistinctMembers, Named.Distinct]
    have hvalue : ofJson flagged.merge = .error (.misshapen ["enums", "Color", "RED"]
        (.wrongKind (.boolean true) .string) none) := by decide +kernel
    have hsame := (text_outcome flagged.text).1 flagged hread hdistinct
    rw [hvalue] at hsame
    generalize ofText flagged.text = outcome at hsame
    cases hsame with
    | misshapen path m position => exact ⟨position, rfl⟩
  · have hread : Json.read "".toList = .error ⟨.endInValue, .here []⟩ := by
      have hparts : (Json.readValue Json.nestingLimit []).parts =
          (.broken ⟨.endInValue, .here []⟩, []) := Json.parts_readValue_nil rfl
      show Json.readWithin _ [] = _
      rw [Json.readWithin, (Prod.mk.inj hparts).1]
      rfl
    exact (text_outcome "").2.1 _ hread

end CallContract.Document
