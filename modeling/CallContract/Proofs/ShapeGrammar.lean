import CallContract.Proofs.Shapes

/-!
# The grammar of documents

What a value has to look like to be a document, whatever stands in the places of types, said without
the reader: an object with some of the three sections, each null or an object, and in a section
declarations of its kind.  A value has an outline exactly if it has this shape.
-/

namespace CallContract

open Json

/-- The value is an object, and the values of its members have the property. -/
def Json.ObjectOf (P : Json → Prop) (v : Json) : Prop :=
  ∃ members : Named Json, v = .object members ∧ ∀ m ∈ members, P m.2

namespace Outline

variable {α : Type}

/-- An enumeration is an object of strings and a record an object.  A method is an object with both
directions and nothing else, and these are objects. -/
def DeclarationShape : Kind → Json → Prop
  | .enumeration, v => v.ObjectOf fun w => ∃ s, w = .string s
  | .record, v => ∃ members, v = .object members
  | .method, v => ∃ sides, SidesOf v sides

/-- The value is an object.  It has no members but sections, none of them twice, and each is null or
an object of declarations of its kind. -/
def DocumentShape (v : Json) : Prop :=
  ∃ members : Named Json, v = .object members ∧ members.Distinct ∧
    ∀ m ∈ members, ∃ k : Kind, m.1 = k.section ∧
      (m.2 = .null ∨ m.2.ObjectOf (DeclarationShape k))

/-! ## 1. Values that can be read -/

theorem exists_entries {decode : List String → Reading Unit Empty → Result Unit Empty α}
    {P : Json → Prop} (hP : ∀ path w, P w → ∃ x, decode path (Reading.ofJson w) = .ok x)
    (path : List String) {v : Json} (hv : v.ObjectOf P) :
    ∃ xs, entries decode path (Reading.ofJson v) = .ok xs := by
  obtain ⟨members, rfl, hmembers⟩ := hv
  have hread : ∀ m ∈ members, ∃ x : String × α,
      m.1 = x.1 ∧ decode (path ++ [m.1]) (Reading.ofJson m.2) = .ok x.2 := by
    intro m hm
    obtain ⟨x, hx⟩ := hP (path ++ [m.1]) m.2 (hmembers m hm)
    exact ⟨(m.1, x), rfl, hx⟩
  obtain ⟨xs, hxs⟩ := exists_forall₂ hread
  have heach : eachMember decode path (Reading.ofMembers members) = .ok xs := by
    rw [eachMember_eq_ok_iff, Reading.ofMembers_eq, List.forall₂_map_left_iff]
    exact hxs
  refine ⟨xs, ?_⟩
  rw [Reading.ofJson, entries, heach]
  rfl

/-- Known members, none of them twice, are read if each of them is. -/
theorem exists_knownMembers {known : List String}
    {decode : String → List String → Reading Unit Empty → Result Unit Empty α}
    {path : List String} {members : Named Json} (hdistinct : members.Distinct)
    (hmembers : ∀ m ∈ members, m.1 ∈ known ∧
      ∃ x, decode m.1 (path ++ [m.1]) (Reading.ofJson m.2) = .ok x) :
    ∃ xs, knownMembers known decode path [] (Reading.ofMembers members) = .ok xs ∧
      xs.names = members.names := by
  have hread : ∀ m ∈ members, ∃ x : String × α,
      m.1 = x.1 ∧ decode m.1 (path ++ [m.1]) (Reading.ofJson m.2) = .ok x.2 := by
    intro m hm
    obtain ⟨-, x, hx⟩ := hmembers m hm
    exact ⟨(m.1, x), rfl, hx⟩
  obtain ⟨xs, hxs⟩ := exists_forall₂ hread
  refine ⟨xs, ?_, (map_eq_of_forall₂ hxs fun _ _ h => h.1).symm⟩
  rw [knownMembers_eq_ok_iff, fresh_of_nothing, Reading.ofMembers_eq, List.map_map,
    List.forall_mem_map, List.forall₂_map_left_iff]
  exact ⟨hdistinct, fun m hm => (hmembers m hm).1, hxs⟩

theorem exists_string (path : List String) (w : Json) (hw : ∃ s, w = .string s) :
    ∃ s, string path (Reading.ofJson w : Reading Unit Empty) = .ok s := by
  obtain ⟨s, rfl⟩ := hw
  exact ⟨s, rfl⟩

theorem exists_fields (path : List String) (w : Json) (hw : ∃ members, w = .object members) :
    ∃ members, entries any path (Reading.ofJson w : Reading Unit Empty) = .ok members := by
  obtain ⟨members, rfl⟩ := hw
  exact ⟨members, entries_any path members⟩

/-- Both directions are there, each once. -/
theorem names_of_sides {members : Named Json} {sides : Named Json × Named Json}
    (h : members.Perm [(Direction.request.key, .object sides.1),
      (Direction.response.key, .object sides.2)]) :
    members.Distinct ∧
      ∀ n, n ∈ members.names ↔ n ∈ [Direction.request.key, Direction.response.key] := by
  have hnames : members.names.Perm [Direction.request.key, Direction.response.key] := h.map _
  refine ⟨?_, fun n => hnames.mem_iff⟩
  rw [Named.Distinct, hnames.nodup_iff]
  decide

theorem exists_method (path : List String) (w : Json) (hw : ∃ sides, SidesOf w sides) :
    ∃ sides, method path (Reading.ofJson w : Reading Unit Empty) = .ok sides := by
  obtain ⟨sides, members, rfl, hperm⟩ := hw
  obtain ⟨hdistinct, hnames⟩ := names_of_sides hperm
  have hread : ∀ m ∈ members, m.1 ∈ [Direction.request.key, Direction.response.key] ∧
      ∃ x, entries any (path ++ [m.1]) (Reading.ofJson m.2 : Reading Unit Empty) = .ok x := by
    intro m hm
    refine ⟨(hnames m.1).1 (List.mem_map_of_mem hm), exists_fields _ _ ?_⟩
    obtain rfl | rfl := List.mem_pair.1 (hperm.mem_iff.1 hm)
    · exact ⟨_, rfl⟩
    · exact ⟨_, rfl⟩
  obtain ⟨xs, hxs, hxnames⟩ : ∃ xs, (knownMembers [Direction.request.key, Direction.response.key]
      (fun _ => entries any) path [] (Reading.ofMembers members) :
        Result Unit Empty (Named (Named Json))) = .ok xs ∧ xs.names = members.names :=
    exists_knownMembers hdistinct hread
  -- Both directions are among the names, so neither of them is told to be missing.
  have hside (d : Direction) :
      ∃ fields, (required path d.key () xs : Result Unit Empty (Named Json)) = .ok fields := by
    have hin : d.key ∈ xs.names := by
      rw [hxnames, hnames]
      cases d <;> decide
    obtain ⟨fields, hfields⟩ := Option.isSome_iff_exists.1 (Named.lookup_isSome_iff.2 hin)
    exact ⟨fields, by rw [required, hfields]⟩
  obtain ⟨request, hrequest⟩ := hside .request
  obtain ⟨response, hresponse⟩ := hside .response
  refine ⟨(request, response), ?_⟩
  simp only [Reading.ofJson, method, bind_eq_ok_iff]
  exact ⟨xs, hxs, (), rfl, request, hrequest, response, hresponse, rfl⟩

theorem exists_oneSection {k : Kind} (path : List String) {w : Json}
    (hw : w = .null ∨ w.ObjectOf (DeclarationShape k)) :
    ∃ o, oneSection k.section path (Reading.ofJson w : Reading Unit Empty) = .ok o := by
  obtain rfl | hw := hw
  · exact ⟨empty, rfl⟩
  have hsection : ∀ stop, (Reading.ofJson w : Reading Unit Empty) = .null stop → False := by
    obtain ⟨members, rfl, -⟩ := hw
    intro _ h
    cases h
  rw [oneSection.eq_2 _ _ _ hsection]
  cases k with
  | enumeration =>
    obtain ⟨xs, hxs⟩ := exists_entries (fun path _ => exists_entries exists_string path) path hw
    exact ⟨_, by rw [if_pos rfl, hxs]; rfl⟩
  | record =>
    obtain ⟨xs, hxs⟩ := exists_entries exists_fields path hw
    exact ⟨_, by rw [if_neg (by decide), if_pos rfl, hxs]; rfl⟩
  | method =>
    obtain ⟨xs, hxs⟩ := exists_entries exists_method path hw
    exact ⟨_, by rw [if_neg (by decide), if_neg (by decide), hxs]; rfl⟩

/-! ## 2. The grammar -/

theorem objectOf_of_stands {k : Kind} {v : Json} {o : Outline} (h : Stands k v o) :
    v.ObjectOf (DeclarationShape k) := by
  cases k with
  | enumeration =>
    refine ⟨_, h, List.forall_mem_map.2 fun e _ => ⟨_, rfl, List.forall_mem_map.2 fun m _ => ?_⟩⟩
    exact ⟨m.2, rfl⟩
  | record => exact ⟨_, h, List.forall_mem_map.2 fun r _ => ⟨r.2, rfl⟩⟩
  | method =>
    obtain ⟨members, rfl, hmembers⟩ := h
    refine ⟨members, rfl, fun m hm => ?_⟩
    obtain ⟨x, -, -, hsides⟩ := exists_mem_of_forall₂ hmembers.flip hm
    exact ⟨x.2, hsides⟩

theorem Shape.documentShape {members : Named Json} {o : Outline} (h : Shape members o) :
    DocumentShape (.object members) := by
  refine ⟨members, rfl, h.distinct, fun m hm => ?_⟩
  obtain ⟨k, hk⟩ := exists_section_of_mem (h.known m hm)
  refine ⟨k, hk, ?_⟩
  by_cases hnull : m.2 = .null
  · exact .inl hnull
  · have hlookup : members.lookup k.section = some m.2 :=
      (Named.lookup_eq_some_iff h.distinct).2 (hk ▸ hm)
    have hstands := h.stands k
    rw [sectionIn_of_lookup hlookup hnull] at hstands
    exact .inr (objectOf_of_stands hstands)

/-- A value has an outline exactly if it has the shape of a document. -/
theorem exists_outline_iff {v : Json} :
    (∃ o, ofReading (Reading.ofJson v : Reading Unit Empty) = .ok o) ↔ DocumentShape v := by
  constructor
  · intro ⟨o, h⟩
    obtain ⟨members, rfl, hshape⟩ := shape_of_ofReading h
    exact hshape.documentShape
  · intro ⟨members, hv, hdistinct, hmembers⟩
    subst hv
    have hread : ∀ m ∈ members, m.1 ∈ sections ∧
        ∃ o, oneSection m.1 ([] ++ [m.1]) (Reading.ofJson m.2 : Reading Unit Empty) = .ok o := by
      intro m hm
      obtain ⟨k, hk, hw⟩ := hmembers m hm
      rw [hk]
      refine ⟨?_, exists_oneSection _ hw⟩
      cases k <;> decide
    -- Every section gives an outline of its own, and these are put together.
    obtain ⟨parts, hparts, -⟩ := exists_knownMembers hdistinct hread
    refine ⟨parts.foldl (fun o part => o.append part.2) empty, ?_⟩
    simp only [Reading.ofJson, ofReading, bind_eq_ok_iff]
    exact ⟨parts, hparts, (), rfl, rfl⟩

end Outline
end CallContract
