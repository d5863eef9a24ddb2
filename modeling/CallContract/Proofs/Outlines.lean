import CallContract.Document.Outline
import CallContract.Proofs.JsonParts

/-!
# Outlines as values

An outline can be written as a value with its three sections.  Reading the outline of that value
gives it back, with all repetitions: it is only later that names have to be distinct.
-/

namespace CallContract.Outline

open Json

variable {α : Type}

/-- The members of an enumeration as a value. -/
def membersJson (members : Named String) : Json := .object (members.mapValues .string)

/-- Both directions of a method as a value. -/
def sidesJson (sides : Named Json × Named Json) : Json :=
  .object [(Direction.request.key, .object sides.1), (Direction.response.key, .object sides.2)]

/-- The outline as a value. -/
def toJson (o : Outline) : Json :=
  .object [
    (Kind.enumeration.section, .object (o.enumerations.mapValues membersJson)),
    (Kind.record.section, .object (o.records.mapValues .object)),
    (Kind.method.section, .object (o.methods.mapValues sidesJson))]

/-! ## 1. Objects -/

theorem bind_eq_ok_iff {ε β : Type} {x : Except ε α} {f : α → Except ε β} {b : β} :
    x >>= f = .ok b ↔ ∃ a, x = .ok a ∧ f a = .ok b := by
  cases x <;> simp [bind, Except.bind]

/-- The members of an object are read if each of them is. -/
theorem eachMember_eq_ok_iff {μ φ : Type} {decode : List String → Reading μ φ → Result μ φ α}
    {path : List String} {members : List (String × μ × Reading μ φ)} {xs : Named α} :
    eachMember decode path members = .ok xs ↔
      List.Forall₂ (fun m x => m.1 = x.1 ∧ decode (path ++ [m.1]) m.2.2 = .ok x.2) members xs := by
  induction members generalizing xs with
  | nil =>
    rw [eachMember, Except.ok.injEq, List.forall₂_nil_left_iff]
    exact eq_comm
  | cons m rest ih =>
    rcases m with ⟨name, mark, r⟩
    simp only [eachMember, bind_eq_ok_iff, ih, List.forall₂_cons_left_iff]
    constructor
    · rintro ⟨x, hx, ys, hys, heq⟩
      exact ⟨(name, x), ys, ⟨rfl, hx⟩, hys, (Except.ok.inj heq).symm⟩
    · rintro ⟨x, ys, ⟨hname, hx⟩, hys, heq⟩
      refine ⟨x.2, hx, ys, hys, congrArg Except.ok ?_⟩
      rw [heq, show name = x.1 from hname]

/-- Members that may have known names only are read if they have known and distinct names and each
of them is read. -/
theorem knownMembers_eq_ok_iff {μ φ : Type} {known : List String}
    {decode : String → List String → Reading μ φ → Result μ φ α} {path seen : List String}
    {members : List (String × μ × Reading μ φ)} {xs : Named α} :
    knownMembers known decode path seen members = .ok xs ↔
      Fresh seen (members.map (·.1)) ∧ (∀ m ∈ members, m.1 ∈ known) ∧
        List.Forall₂ (fun m x => m.1 = x.1 ∧ decode m.1 (path ++ [m.1]) m.2.2 = .ok x.2)
          members xs := by
  induction members generalizing seen xs with
  | nil =>
    rw [knownMembers, Except.ok.injEq, List.forall₂_nil_left_iff]
    simp [eq_comm]
  | cons m rest ih =>
    rcases m with ⟨name, mark, r⟩
    rw [knownMembers, List.map_cons, fresh_cons, List.forall_mem_cons]
    by_cases hknown : name ∈ known
    · by_cases hseen : name ∈ seen
      · simp [hknown, hseen]
      -- The member is known and new: what is left is its own reading and that of the others.
      · rw [if_neg (not_not.2 hknown), if_neg hseen]
        simp only [bind_eq_ok_iff, ih, List.forall₂_cons_left_iff]
        constructor
        · rintro ⟨x, hx, ys, ⟨hfresh, hall, hys⟩, heq⟩
          exact ⟨⟨hseen, hfresh⟩, ⟨hknown, hall⟩, (name, x), ys, ⟨rfl, hx⟩, hys,
            (Except.ok.inj heq).symm⟩
        · rintro ⟨⟨_, hfresh⟩, ⟨_, hall⟩, x, ys, ⟨hname, hx⟩, hys, heq⟩
          refine ⟨x.2, hx, ys, ⟨hfresh, hall, hys⟩, congrArg Except.ok ?_⟩
          rw [heq, show name = x.1 from hname]
    · rw [if_pos hknown]
      refine iff_of_false ?_ fun h => hknown h.2.1.1
      intro h
      cases h

theorem entries_object {decode : List String → Reading Unit Empty → Result Unit Empty α}
    {f : α → Json} (h : ∀ path x, decode path (.ofJson (f x)) = .ok x) (path : List String)
    (xs : Named α) : entries decode path (.ofJson (.object (xs.mapValues f))) = .ok xs := by
  have hmembers : eachMember decode path (Reading.ofMembers (xs.mapValues f)) = .ok xs := by
    rw [eachMember_eq_ok_iff, Reading.ofMembers_eq, Named.mapValues, List.forall₂_map_left_iff,
      List.forall₂_map_left_iff, List.forall₂_same]
    exact fun x _ => ⟨rfl, h _ x.2⟩
  rw [Reading.ofJson, entries, hmembers]
  rfl

theorem any_ofJson (path : List String) (v : Json) :
    any path (Reading.ofJson v : Reading Unit Empty) = .ok v := by
  rw [any, Reading.value_ofJson, orBroken]

theorem entries_any (path : List String) (members : Named Json) :
    entries any path (Reading.ofJson (.object members) : Reading Unit Empty) = .ok members := by
  have h := entries_object (f := id) any_ofJson path members
  rwa [Named.mapValues, List.map_id''] at h
  exact fun _ => rfl

theorem entries_string (path : List String) (members : Named String) :
    entries string path (Reading.ofJson (membersJson members) : Reading Unit Empty) =
      .ok members :=
  entries_object (fun _ _ => rfl) path members

/-! ## 2. Methods and sections -/

theorem method_ofJson (path : List String) (sides : Named Json × Named Json) :
    method path (Reading.ofJson (sidesJson sides) : Reading Unit Empty) = .ok sides := by
  have hsides : knownMembers [Direction.request.key, Direction.response.key]
      (fun _ => entries any) path [] (Reading.ofMembers
        [(Direction.request.key, .object sides.1), (Direction.response.key, .object sides.2)]) =
      .ok [(Direction.request.key, sides.1), (Direction.response.key, sides.2)] := by
    rw [knownMembers_eq_ok_iff, fresh_of_nothing]
    refine ⟨?_, by simp [Reading.ofMembers], ?_⟩
    · show [Direction.request.key, Direction.response.key].Nodup
      decide
    · exact .cons ⟨rfl, entries_any _ _⟩ (.cons ⟨rfl, entries_any _ _⟩ .nil)
  rw [sidesJson, Reading.ofJson, method, hsides]
  rfl

theorem oneSection_enumerations (path : List String) (o : Outline) :
    oneSection Kind.enumeration.section path
      (Reading.ofJson (.object (o.enumerations.mapValues membersJson)) : Reading Unit Empty) =
      .ok { empty with enumerations := o.enumerations } := by
  have h := entries_object entries_string path o.enumerations
  rw [Reading.ofJson] at h ⊢
  rw [oneSection, if_pos rfl, h]
  · rfl
  -- The section is an object, not null.
  · intro _ h
    cases h

theorem oneSection_records (path : List String) (o : Outline) :
    oneSection Kind.record.section path
      (Reading.ofJson (.object (o.records.mapValues .object)) : Reading Unit Empty) =
      .ok { empty with records := o.records } := by
  have h := entries_object entries_any path o.records
  rw [Reading.ofJson] at h ⊢
  rw [oneSection, if_neg (by decide), if_pos rfl, h]
  · rfl
  · intro _ h
    cases h

theorem oneSection_methods (path : List String) (o : Outline) :
    oneSection Kind.method.section path
      (Reading.ofJson (.object (o.methods.mapValues sidesJson)) : Reading Unit Empty) =
      .ok { empty with methods := o.methods } := by
  have h := entries_object method_ofJson path o.methods
  rw [Reading.ofJson] at h ⊢
  rw [oneSection, if_neg (by decide), if_neg (by decide), h]
  · rfl
  · intro _ h
    cases h

/-- The outline of an outline as a value is that outline. -/
theorem ofReading_toJson (o : Outline) :
    ofReading (Reading.ofJson o.toJson : Reading Unit Empty) = .ok o := by
  have hparts : knownMembers sections oneSection [] [] (Reading.ofMembers [
      (Kind.enumeration.section, .object (o.enumerations.mapValues membersJson)),
      (Kind.record.section, .object (o.records.mapValues .object)),
      (Kind.method.section, .object (o.methods.mapValues sidesJson))]) =
      .ok [(Kind.enumeration.section, { empty with enumerations := o.enumerations }),
        (Kind.record.section, { empty with records := o.records }),
        (Kind.method.section, { empty with methods := o.methods })] := by
    rw [knownMembers_eq_ok_iff, fresh_of_nothing]
    refine ⟨?_, by simp [Reading.ofMembers, sections], ?_⟩
    · show sections.Nodup
      decide
    · exact .cons ⟨rfl, oneSection_enumerations _ o⟩
        (.cons ⟨rfl, oneSection_records _ o⟩ (.cons ⟨rfl, oneSection_methods _ o⟩ .nil))
  rw [toJson, Reading.ofJson, ofReading, hparts]
  show Except.ok (((empty.append _).append _).append _) = Except.ok o
  simp [append, empty]

end CallContract.Outline
