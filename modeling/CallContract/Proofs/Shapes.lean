import CallContract.Proofs.WholeReadings

/-!
# Shapes of documents

What a value looks like that has an outline: an object with some of the three sections, each at most
once, and in a section what stands in the outline.  Only the order of sections and of the directions
of a method is free, and an empty section may be absent or null.  So such a value repeats a name
exactly if its outline does, and it is nested as deeply, the sections aside.
-/

namespace CallContract.Outline

open Json

variable {α β : Type}

/-! ## 1. Values of entries -/

theorem eq_string_of_string {path : List String} {v : Json} {s : String}
    (h : string path (Reading.ofJson v : Reading Unit Empty) = .ok s) : v = .string s := by
  cases v with
  | string t =>
    cases h
    rfl
  | null | boolean _ | number _ | array _ | object _ => cases h

/-- What is read of each member is what stands there. -/
theorem exists_members_of_entries {decode : List String → Reading Unit Empty → Result Unit Empty α}
    {path : List String} {v : Json} {xs : Named α}
    (h : entries decode path (Reading.ofJson v) = .ok xs) :
    ∃ members, v = .object members ∧
      List.Forall₂ (fun m x => m.1 = x.1 ∧
        decode (path ++ [m.1]) (Reading.ofJson m.2) = .ok x.2) members xs := by
  cases v with
  | object members =>
    simp only [Reading.ofJson, entries, bind_eq_ok_iff, eachMember_eq_ok_iff, Reading.ofMembers_eq,
      List.forall₂_map_left_iff] at h
    obtain ⟨ys, hys, _, _, heq⟩ := h
    cases heq
    exact ⟨members, rfl, hys⟩
  | null | boolean _ | number _ | string _ | array _ => cases h

theorem eq_mapValues_of_forall₂ {f : α → β} {members : Named β} {xs : Named α}
    (h : List.Forall₂ (fun m x => m.1 = x.1 ∧ m.2 = f x.2) members xs) :
    members = xs.mapValues f := by
  induction h with
  | nil => rfl
  | @cons m x _ _ hmx _ ih =>
    rw [ih]
    show _ = (x.1, f x.2) :: Named.mapValues f _
    rw [← hmx.1, ← hmx.2]

theorem eq_object_of_entries {decode : List String → Reading Unit Empty → Result Unit Empty α}
    {f : α → Json} (hf : ∀ path v x, decode path (Reading.ofJson v) = .ok x → v = f x)
    {path : List String} {v : Json} {xs : Named α}
    (h : entries decode path (Reading.ofJson v) = .ok xs) : v = .object (xs.mapValues f) := by
  obtain ⟨members, rfl, hmembers⟩ := exists_members_of_entries h
  rw [eq_mapValues_of_forall₂ (hmembers.imp fun m x hmx => ⟨hmx.1, hf _ _ _ hmx.2⟩)]

theorem eq_of_any {path : List String} {v w : Json}
    (h : any path (Reading.ofJson v : Reading Unit Empty) = .ok w) : v = w := by
  rw [any_ofJson] at h
  exact Except.ok.inj h

theorem eq_object_of_any {path : List String} {v : Json} {members : Named Json}
    (h : entries any path (Reading.ofJson v : Reading Unit Empty) = .ok members) :
    v = .object members := by
  have hv := eq_object_of_entries (f := id) (fun _ _ _ => eq_of_any) h
  rwa [Named.mapValues, List.map_id''] at hv
  exact fun _ => rfl

theorem eq_membersJson_of_string {path : List String} {v : Json} {members : Named String}
    (h : entries string path (Reading.ofJson v : Reading Unit Empty) = .ok members) :
    v = membersJson members :=
  eq_object_of_entries (fun _ _ _ => eq_string_of_string) h

/-- Known members that were read are distinct, and their values are those of what was read. -/
theorem known_of_knownMembers {known : List String}
    {decode : String → List String → Reading Unit Empty → Result Unit Empty α}
    {path : List String} {members : Named Json} {xs : Named α}
    (h : knownMembers known decode path [] (Reading.ofMembers members) = .ok xs) :
    members.Distinct ∧ (∀ m ∈ members, m.1 ∈ known) ∧
      List.Forall₂ (fun m x => m.1 = x.1 ∧
        decode m.1 (path ++ [m.1]) (Reading.ofJson m.2) = .ok x.2) members xs := by
  rw [knownMembers_eq_ok_iff, fresh_of_nothing, Reading.ofMembers_eq, List.forall₂_map_left_iff,
    List.map_map] at h
  obtain ⟨hdistinct, hknown, hread⟩ := h
  rw [List.forall_mem_map] at hknown
  exact ⟨hdistinct, hknown, hread⟩

theorem lookup_of_required {path : List String} {name : String} {members : Named α} {x : α}
    (h : (required path name () members : Result Unit Empty α) = .ok x) :
    members.lookup name = some x := by
  unfold required at h
  split at h
  · rename_i hlookup
    rw [hlookup, Except.ok.inj h]
  · cases h

/-- The value is an object with both directions, in either order. -/
def SidesOf (v : Json) (sides : Named Json × Named Json) : Prop :=
  ∃ members : Named Json, v = .object members ∧ members.Perm
    [(Direction.request.key, .object sides.1), (Direction.response.key, .object sides.2)]

theorem sidesOf_of_method {path : List String} {v : Json} {sides : Named Json × Named Json}
    (h : method path (Reading.ofJson v : Reading Unit Empty) = .ok sides) : SidesOf v sides := by
  cases v with
  | object members =>
    simp only [Reading.ofJson, method, bind_eq_ok_iff] at h
    obtain ⟨xs, hxs, stop, -, request, hrequest, response, hresponse, heq⟩ := h
    cases heq
    obtain ⟨hdistinct, hknown, hread⟩ := known_of_knownMembers hxs
    have hmembers : members = xs.mapValues .object :=
      eq_mapValues_of_forall₂ (hread.imp fun m x hmx => ⟨hmx.1, eq_object_of_any hmx.2⟩)
    subst hmembers
    rw [Named.Distinct, Named.names_mapValues] at hdistinct
    rw [Named.mapValues, List.forall_mem_map] at hknown
    exact ⟨_, rfl, (Named.perm_pair (by decide) hdistinct hknown (lookup_of_required hrequest)
      (lookup_of_required hresponse)).map _⟩
  | null | boolean _ | number _ | string _ | array _ => cases h

/-! ## 2. Sections -/

/-- The outline without its other sections. -/
def only : Kind → Outline → Outline
  | .enumeration, o => { empty with enumerations := o.enumerations }
  | .record, o => { empty with records := o.records }
  | .method, o => { empty with methods := o.methods }

/-- The value has the declarations of the section and nothing else. -/
def Stands : Kind → Json → Outline → Prop
  | .enumeration, v, o => v = .object (o.enumerations.mapValues membersJson)
  | .record, v, o => v = .object (o.records.mapValues .object)
  | .method, v, o => ∃ members : Named Json, v = .object members ∧
      List.Forall₂ (fun m x => m.1 = x.1 ∧ SidesOf m.2 x.2) members o.methods

theorem only_append (k : Kind) (a b : Outline) :
    only k (a.append b) = (only k a).append (only k b) := by
  cases k <;> simp [only, append, empty]

theorem only_only_of_ne {k k' : Kind} (h : k ≠ k') (o : Outline) : only k (only k' o) = empty := by
  cases k <;> cases k' <;> first | exact absurd rfl h | rfl

theorem append_empty (o : Outline) : o.append empty = o := by
  simp [append, empty]

theorem empty_append (o : Outline) : empty.append o = o := by
  simp [append, empty]

theorem stands_of_only_eq {k : Kind} {v : Json} {a b : Outline} (h : only k a = only k b)
    (ha : Stands k v a) : Stands k v b := by
  have hsame (o : Outline) : Stands k v o = Stands k v (only k o) := by
    cases k <;> rfl
  rwa [hsame, ← h, ← hsame]

theorem stands_empty (k : Kind) {o : Outline} (h : only k o = empty) : Stands k (.object []) o := by
  have hempty : only k empty = empty := by
    cases k <;> rfl
  refine stands_of_only_eq (hempty.trans h.symm) ?_
  cases k with
  | enumeration | record => rfl
  | method => exact ⟨[], rfl, .nil⟩

theorem section_injective {k k' : Kind} (h : k.section = k'.section) : k = k' := by
  revert h
  cases k <;> cases k' <;> decide

/-- A section is null, or its declarations stand there. -/
theorem stands_of_oneSection {k : Kind} {path : List String} {v : Json} {o : Outline}
    (h : oneSection k.section path (Reading.ofJson v : Reading Unit Empty) = .ok o) :
    o = only k o ∧ (v = .null ∧ o = empty ∨ v ≠ .null ∧ Stands k v o) := by
  by_cases hnull : v = .null
  · subst hnull
    cases h
    refine ⟨?_, .inl ⟨rfl, rfl⟩⟩
    cases k <;> rfl
  have hsection : ∀ stop, Reading.ofJson v = .null stop → False := by
    intro stop hstop
    cases v with
    | null => exact hnull rfl
    | boolean _ | number _ | string _ | array _ | object _ => cases hstop
  rw [oneSection.eq_2 _ _ _ hsection] at h
  cases k with
  | enumeration =>
    rw [if_pos rfl] at h
    obtain ⟨es, hes, heq⟩ := bind_eq_ok_iff.1 h
    cases heq
    exact ⟨rfl, .inr ⟨hnull, eq_object_of_entries (fun _ _ _ => eq_membersJson_of_string) hes⟩⟩
  | record =>
    rw [if_neg (by decide), if_pos rfl] at h
    obtain ⟨rs, hrs, heq⟩ := bind_eq_ok_iff.1 h
    cases heq
    exact ⟨rfl, .inr ⟨hnull, eq_object_of_entries (fun _ _ _ => eq_object_of_any) hrs⟩⟩
  | method =>
    rw [if_neg (by decide), if_neg (by decide)] at h
    obtain ⟨ms, hms, heq⟩ := bind_eq_ok_iff.1 h
    cases heq
    obtain ⟨members, rfl, hmembers⟩ := exists_members_of_entries hms
    refine ⟨rfl, .inr ⟨hnull, members, rfl, ?_⟩⟩
    exact hmembers.imp fun m x hmx => ⟨hmx.1, sidesOf_of_method hmx.2⟩

/-! ## 3. Documents -/

/-- What stands in a section; one that is absent or null is as good as empty. -/
def sectionIn (k : Kind) (members : Named Json) : Json :=
  match members.lookup k.section with
  | none | some .null => .object []
  | some v => v

theorem sectionIn_of_notMem {k : Kind} {members : Named Json} (h : k.section ∉ members.names) :
    sectionIn k members = .object [] := by
  rw [sectionIn, Named.lookup_eq_none_iff.2 h]

theorem sectionIn_of_lookup {k : Kind} {members : Named Json} {v : Json}
    (h : members.lookup k.section = some v) (hv : v ≠ .null) : sectionIn k members = v := by
  unfold sectionIn
  rw [h]
  cases v with
  | null => exact absurd rfl hv
  | boolean _ | number _ | string _ | array _ | object _ => rfl

theorem sectionIn_of_lookup_null {k : Kind} {members : Named Json}
    (h : members.lookup k.section = some .null) : sectionIn k members = .object [] := by
  rw [sectionIn, h]

theorem sectionIn_cons_of_ne {k : Kind} {name : String} (v : Json) (rest : Named Json)
    (h : k.section ≠ name) : sectionIn k ((name, v) :: rest) = sectionIn k rest := by
  rw [sectionIn, List.lookup_cons, beq_false_of_ne h]
  rfl

/-- All parts of an outline together. -/
def together : Named Outline → Outline
  | [] => empty
  | part :: rest => part.2.append (together rest)

theorem foldl_append_eq (o : Outline) (parts : Named Outline) :
    parts.foldl (fun o part => o.append part.2) o = o.append (together parts) := by
  induction parts generalizing o with
  | nil => exact (append_empty o).symm
  | cons p rest ih =>
    rw [List.foldl_cons, ih, together]
    simp [append]

/-- A member of a document and the part of the outline that was made of it. -/
def Makes (m : String × Json) (part : String × Outline) : Prop :=
  ∃ k : Kind, m.1 = k.section ∧ part.2 = only k part.2 ∧
    (m.2 = .null ∧ part.2 = empty ∨ m.2 ≠ .null ∧ Stands k m.2 part.2)

theorem only_together_of_notMem {k : Kind} {members : Named Json} {parts : Named Outline}
    (h : List.Forall₂ Makes members parts) (hk : k.section ∉ members.names) :
    only k (together parts) = empty := by
  induction h with
  | nil => cases k <;> rfl
  | @cons m part _ _ hmakes _ ih =>
    obtain ⟨k', hname, honly, -⟩ := hmakes
    rw [Named.names, List.map_cons, List.mem_cons, not_or, hname] at hk
    have hne : k ≠ k' := fun heq => hk.1 (heq ▸ rfl)
    rw [together, only_append, ih hk.2, honly, only_only_of_ne hne]
    rfl

/-- Only the section of a kind gives declarations of that kind, so together the parts give what that
one section gives. -/
theorem stands_sectionIn {k : Kind} {members : Named Json} {parts : Named Outline}
    (h : List.Forall₂ Makes members parts) (hdistinct : members.Distinct) :
    Stands k (sectionIn k members) (together parts) := by
  induction h with
  | nil => exact stands_empty k (by cases k <;> rfl)
  | @cons m part rest parts hmakes hrest ih =>
    obtain ⟨name, v⟩ := m
    obtain ⟨k', hname, honly, hstands⟩ := hmakes
    subst hname
    obtain ⟨hnotMem, hdistinct⟩ := List.nodup_cons.1 hdistinct
    by_cases hk : k = k'
    · subst hk
      have hothers := only_together_of_notMem hrest hnotMem
      have hpart : only k (together (part :: parts)) = only k part.2 := by
        rw [together, only_append, hothers, append_empty]
      obtain ⟨hnull, hempty⟩ | ⟨hnull, hv⟩ := hstands
      · have hlookup : List.lookup k.section ((k.section, v) :: rest) = some .null := by
          rw [List.lookup_cons_self]
          exact congrArg some hnull
        rw [sectionIn_of_lookup_null hlookup]
        refine stands_empty k ?_
        rw [hpart, ← honly, hempty]
      · rw [sectionIn_of_lookup List.lookup_cons_self hnull]
        exact stands_of_only_eq hpart.symm hv
    · rw [sectionIn_cons_of_ne v rest fun heq => hk (section_injective heq)]
      refine stands_of_only_eq ?_ (ih hdistinct)
      rw [together, only_append, honly, only_only_of_ne hk, empty_append]

/-- The members of a document that has the outline: sections, each at most once. -/
structure Shape (members : Named Json) (o : Outline) : Prop where
  distinct : members.Distinct
  known : ∀ m ∈ members, m.1 ∈ sections
  stands : ∀ k, Stands k (sectionIn k members) o

theorem exists_section_of_mem {n : String} (h : n ∈ sections) : ∃ k : Kind, n = k.section := by
  simp only [sections, List.mem_cons, List.not_mem_nil, or_false] at h
  obtain h | h | h := h
  · exact ⟨.enumeration, h⟩
  · exact ⟨.record, h⟩
  · exact ⟨.method, h⟩

theorem shape_of_ofReading {v : Json} {o : Outline}
    (h : ofReading (Reading.ofJson v : Reading Unit Empty) = .ok o) :
    ∃ members, v = .object members ∧ Shape members o := by
  cases v with
  | object members =>
    simp only [Reading.ofJson, ofReading, bind_eq_ok_iff] at h
    obtain ⟨parts, hparts, stop, -, heq⟩ := h
    obtain ⟨hdistinct, hknown, hread⟩ := known_of_knownMembers hparts
    have ho : o = together parts := by
      rw [← Except.ok.inj heq, foldl_append_eq, empty_append]
    subst ho
    have hmakes : List.Forall₂ Makes members parts := by
      apply ((List.forall₂_and_left _ _).2 ⟨hknown, hread⟩).imp
      rintro m part ⟨hm, _, hpart⟩
      obtain ⟨k, hk⟩ := exists_section_of_mem hm
      rw [hk] at hpart
      exact ⟨k, hk, stands_of_oneSection hpart⟩
    exact ⟨members, rfl, hdistinct, hknown, fun k => stands_sectionIn hmakes hdistinct⟩
  | null | boolean _ | number _ | string _ | array _ => cases h

/-! ## 4. Names and depth -/

variable {members : Named Json} {o : Outline}

/-- What holds of nothing holds of all sections of a document if it holds of all its members. -/
theorem Shape.forall_sectionIn_iff {P : Json → Prop} (h : Shape members o) (hnull : P .null)
    (hempty : P (.object [])) : (∀ k, P (sectionIn k members)) ↔ ∀ m ∈ members, P m.2 := by
  constructor
  · intro hsections m hm
    obtain ⟨k, hk⟩ := exists_section_of_mem (h.known m hm)
    have hlookup : members.lookup k.section = some m.2 :=
      (Named.lookup_eq_some_iff h.distinct).2 (hk ▸ hm)
    by_cases hv : m.2 = .null
    · rw [hv]
      exact hnull
    · have hsection := hsections k
      rwa [sectionIn_of_lookup hlookup hv] at hsection
  · intro hmembers k
    cases hlookup : members.lookup k.section with
    | none =>
      rw [sectionIn_of_notMem (Named.lookup_eq_none_iff.1 hlookup)]
      exact hempty
    | some v =>
      by_cases hv : v = .null
      · subst hv
        rw [sectionIn_of_lookup_null hlookup]
        exact hempty
      · rw [sectionIn_of_lookup hlookup hv]
        exact hmembers _ (Named.mem_of_lookup hlookup)

/-- A section of the outline as a value. -/
def sectionJson : Kind → Outline → Json
  | .enumeration, o => .object (o.enumerations.mapValues membersJson)
  | .record, o => .object (o.records.mapValues .object)
  | .method, o => .object (o.methods.mapValues sidesJson)

/-- The values are alike in depth and in whether a name is repeated. -/
structure Matches (v w : Json) : Prop where
  distinct : v.Distinct ↔ w.Distinct
  depth : v.depth = w.depth

theorem matches_of_perm {ms ms' : Named Json} (h : ms.Perm ms') :
    Matches (.object ms) (.object ms') where
  distinct := by
    rw [distinct_object_iff, distinct_object_iff, Named.Distinct, Named.Distinct, Named.names,
      Named.names, (h.map _).nodup_iff]
    refine and_congr_right fun _ => forall_congr' fun m => ?_
    rw [h.mem_iff]
  depth := by
    have hle {xs ys : Named Json} (h : xs.Perm ys) : depthMembers xs ≤ depthMembers ys :=
      depthMembers_le_iff.2 fun _ _ hm => depth_le_depthMembers (h.mem_iff.1 hm)
    rw [depth, depth, Nat.le_antisymm (hle h) (hle h.symm)]

theorem matches_of_forall₂ {ms ms' : Named Json}
    (h : List.Forall₂ (fun m m' => m.1 = m'.1 ∧ Matches m.2 m'.2) ms ms') :
    Matches (.object ms) (.object ms') where
  distinct := by
    have hnames : Named.names ms = Named.names ms' := map_eq_of_forall₂ h fun _ _ hm => hm.1
    rw [distinct_object_iff, distinct_object_iff, Named.Distinct, Named.Distinct, hnames]
    exact and_congr_right' (forall_mem_iff_of_forall₂ h fun _ _ hm => hm.2.distinct)
  depth := by
    rw [depth, depth]
    congr 1
    induction h with
    | nil => rfl
    | cons hm _ ih => rw [depthMembers, depthMembers, hm.2.depth, ih]

theorem matches_of_stands {k : Kind} {v : Json} (h : Stands k v o) :
    Matches v (sectionJson k o) := by
  cases k with
  | enumeration | record =>
    subst h
    exact ⟨Iff.rfl, rfl⟩
  | method =>
    obtain ⟨ws, rfl, hws⟩ := h
    apply matches_of_forall₂
    rw [Named.mapValues, List.forall₂_map_right_iff]
    apply hws.imp
    rintro w m ⟨hname, members, hmembers, hperm⟩
    refine ⟨hname, ?_⟩
    rw [hmembers]
    exact matches_of_perm hperm

theorem forall_kind_iff {P : Kind → Prop} :
    (∀ k, P k) ↔ P .enumeration ∧ P .record ∧ P .method := by
  refine ⟨fun h => ⟨h _, h _, h _⟩, ?_⟩
  rintro ⟨he, hr, hm⟩ k
  cases k with
  | enumeration => exact he
  | record => exact hr
  | method => exact hm

theorem distinct_toJson_iff : o.toJson.Distinct ↔ ∀ k, (sectionJson k o).Distinct := by
  rw [toJson, distinct_object_iff, List.forall_mem_cons, List.forall_mem_cons,
    List.forall_mem_singleton, forall_kind_iff]
  exact and_iff_right (by decide : sections.Nodup)

theorem depth_toJson_le_iff {n : Nat} :
    o.toJson.depth ≤ n + 1 ↔ ∀ k, (sectionJson k o).depth ≤ n := by
  rw [toJson, depth, Nat.add_le_add_iff_right, depthMembers, depthMembers, depthMembers,
    depthMembers, Nat.max_le, Nat.max_le, Nat.max_le, forall_kind_iff]
  exact and_congr_right' (and_congr_right' (and_iff_left (Nat.zero_le n)))

/-- A value repeats a name exactly if its outline does. -/
theorem distinct_iff_of_ofReading {v : Json}
    (h : ofReading (Reading.ofJson v : Reading Unit Empty) = .ok o) :
    v.Distinct ↔ o.toJson.Distinct := by
  obtain ⟨members, rfl, hshape⟩ := shape_of_ofReading h
  rw [distinct_object_iff, and_iff_right hshape.distinct, distinct_toJson_iff,
    ← hshape.forall_sectionIn_iff trivial (distinct_object_iff.2 ⟨List.nodup_nil, nofun⟩)]
  exact forall_congr' fun k => (matches_of_stands (hshape.stands k)).distinct

/-- The outline as a value is not nested more deeply, except that it always has its sections. -/
theorem depth_toJson_le {v : Json} (h : ofReading (Reading.ofJson v : Reading Unit Empty) = .ok o) :
    o.toJson.depth ≤ max 2 v.depth := by
  obtain ⟨members, rfl, hshape⟩ := shape_of_ofReading h
  have hmembers : ∀ m ∈ members, m.2.depth ≤ max 1 (depthMembers members) := fun m hm =>
    Nat.le_trans (depth_le_depthMembers hm) (Nat.le_max_right _ _)
  rw [depth, show max 2 (depthMembers members + 1) = max 1 (depthMembers members) + 1 by omega,
    depth_toJson_le_iff]
  intro k
  rw [← (matches_of_stands (hshape.stands k)).depth]
  exact (hshape.forall_sectionIn_iff (P := fun w => w.depth ≤ max 1 (depthMembers members))
    (Nat.zero_le _) (Nat.le_max_left _ _)).2 hmembers k

end CallContract.Outline
