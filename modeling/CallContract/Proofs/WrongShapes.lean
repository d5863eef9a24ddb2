import CallContract.Proofs.TypePositions

/-!
# Wrong shapes

A value is told to have a wrong shape exactly if it does not have the shape of a document.  What
stands in the places of types has no part in that: wherever two values differ only there, the same
is told of both.  So an array is never taken for an object, and a section that is absent or null is
an empty one.
-/

namespace CallContract

open Json

/-- Changes the values of the members of an object; other values stay. -/
def Json.mapEntries (f : Json → Json) : Json → Json
  | .object members => .object (Named.mapValues f members)
  | v => v

namespace Outline

variable {α β : Type}

/-! ## 1. Types put aside -/

/-- Changes the types in a section.  Enumerations have none, those of records are the values of
their members, and those of methods lie one level deeper. -/
def mapSectionTypes (f : Json → Json) (name : String) (section_ : Json) : Json :=
  if name = Kind.enumeration.section then section_
  else if name = Kind.record.section then section_.mapEntries (mapEntries f)
  else section_.mapEntries (mapEntries (mapEntries f))

/-- Changes the values in the places of types. -/
def mapTypes (f : Json → Json) : Json → Json
  | .object members => .object (members.map fun m => (m.1, mapSectionTypes f m.1 m.2))
  | v => v

/-- The value with null in the places of types. -/
def withoutTypes (v : Json) : Json := mapTypes (fun _ => .null) v

/-- The outline with its types changed. -/
def changeTypes (f : Json → Json) (o : Outline) : Outline :=
  ⟨o.enumerations, o.records.mapValues (Named.mapValues f),
    o.methods.mapValues fun sides => (sides.1.mapValues f, sides.2.mapValues f)⟩

/-- Whatever value the reader gets, changing the value is changing the result. -/
def Follows (decode : List String → Reading Unit Empty → Result Unit Empty α) (g : Json → Json)
    (h : α → α) : Prop :=
  ∀ path v, decode path (Reading.ofJson (g v)) = (decode path (Reading.ofJson v)).map h

theorem follows_any (f : Json → Json) : Follows any f f := by
  intro path v
  rw [any_ofJson, any_ofJson]
  rfl

theorem eachMember_mapValues {decode : List String → Reading Unit Empty → Result Unit Empty α}
    {g : Json → Json} {h : α → α} (hd : Follows decode g h) (path : List String)
    (members : Named Json) : eachMember decode path (Reading.ofMembers (members.mapValues g)) =
      (eachMember decode path (Reading.ofMembers members)).map (Named.mapValues h) := by
  induction members with
  | nil => rfl
  | cons m rest ih =>
    show eachMember decode path ((m.1, (), Reading.ofJson (g m.2)) ::
      Reading.ofMembers (Named.mapValues g rest)) = _
    rw [Reading.ofMembers, eachMember, eachMember, ih, hd]
    cases decode (path ++ [m.1]) (Reading.ofJson m.2) with
    | error e => rfl
    | ok x => cases eachMember decode path (Reading.ofMembers rest) <;> rfl

theorem follows_entries {decode : List String → Reading Unit Empty → Result Unit Empty α}
    {g : Json → Json} {h : α → α} (hd : Follows decode g h) :
    Follows (entries decode) (mapEntries g) (Named.mapValues h) := by
  intro path v
  cases v with
  | object members =>
    rw [mapEntries, Reading.ofJson, Reading.ofJson, entries, entries, eachMember_mapValues hd]
    cases eachMember decode path (Reading.ofMembers members) <;> rfl
  | null | boolean _ | number _ | string _ | array _ => rfl

theorem follows_knownMembers {known : List String}
    {decode : String → List String → Reading Unit Empty → Result Unit Empty α}
    {g : String → Json → Json} {h : α → α}
    (hd : ∀ name ∈ known, Follows (decode name) (g name) h) (path seen : List String)
    (members : Named Json) :
    knownMembers known decode path seen
        (Reading.ofMembers (members.map fun m => (m.1, g m.1 m.2))) =
      (knownMembers known decode path seen (Reading.ofMembers members)).map
        (Named.mapValues h) := by
  induction members generalizing seen with
  | nil => rfl
  | cons m rest ih =>
    obtain ⟨name, v⟩ := m
    rw [List.map_cons, Reading.ofMembers, Reading.ofMembers, knownMembers, knownMembers]
    by_cases hknown : name ∈ known
    · rw [if_neg (not_not.2 hknown), if_neg (not_not.2 hknown)]
      by_cases hseen : name ∈ seen
      · rw [if_pos hseen, if_pos hseen]
        rfl
      · rw [if_neg hseen, if_neg hseen, ih, hd name hknown]
        cases decode name (path ++ [name]) (Reading.ofJson v) with
        | error e => rfl
        | ok x =>
          cases knownMembers known decode path (name :: seen) (Reading.ofMembers rest) <;> rfl
    · rw [if_pos hknown, if_pos hknown]
      rfl

theorem required_mapValues (h : α → α) (path : List String) (name : String) (members : Named α) :
    (required path name () (members.mapValues h) : Result Unit Empty α) =
      (required path name () members).map h := by
  rw [required, required, Named.lookup_mapValues]
  cases members.lookup name <;> rfl

theorem follows_method (f : Json → Json) : Follows method (mapEntries (mapEntries f))
    fun sides => (sides.1.mapValues f, sides.2.mapValues f) := by
  intro path v
  cases v with
  | object members =>
    have hsides : knownMembers [Direction.request.key, Direction.response.key]
        (fun _ => entries any) path [] (Reading.ofMembers (Named.mapValues (mapEntries f) members)) =
        (knownMembers [Direction.request.key, Direction.response.key]
          (fun _ => entries any) path [] (Reading.ofMembers members)).map
            (Named.mapValues (Named.mapValues f)) :=
      follows_knownMembers (g := fun _ => mapEntries f)
        (fun _ _ => follows_entries (follows_any f)) path [] members
    rw [mapEntries, Reading.ofJson, Reading.ofJson, method, method, hsides]
    cases knownMembers [Direction.request.key, Direction.response.key] (fun _ => entries any) path
        [] (Reading.ofMembers members) with
    | error e => rfl
    | ok sides =>
      show (do
        let request ← required path Direction.request.key () (sides.mapValues (Named.mapValues f))
        let response ← required path Direction.response.key () (sides.mapValues (Named.mapValues f))
        return (request, response) : Result Unit Empty _) = _
      rw [required_mapValues, required_mapValues]
      show _ = Except.map _ (do
        let request ← required path Direction.request.key () sides
        let response ← required path Direction.response.key () sides
        return (request, response))
      cases (required path Direction.request.key () sides : Result Unit Empty _) with
      | error e => rfl
      | ok request =>
        cases (required path Direction.response.key () sides : Result Unit Empty _) <;> rfl
  | null | boolean _ | number _ | string _ | array _ => rfl

theorem oneSection_eq {v : Json} (hv : v ≠ .null) (name : String) (path : List String) :
    (oneSection name path (Reading.ofJson v) : Result Unit Empty Outline) =
      if name = Kind.enumeration.section then
        (entries (entries string) path (Reading.ofJson v)).map ({ empty with enumerations := · })
      else if name = Kind.record.section then
        (entries (entries any) path (Reading.ofJson v)).map ({ empty with records := · })
      else (entries method path (Reading.ofJson v)).map ({ empty with methods := · }) := by
  have hnull : ∀ stop, (Reading.ofJson v : Reading Unit Empty) = .null stop → False := by
    intro stop h
    cases v with
    | null => exact hv rfl
    | boolean _ | number _ | string _ | array _ | object _ => cases h
  rw [oneSection.eq_2 _ _ _ hnull]
  split
  · cases entries (entries string) path (Reading.ofJson v) <;> rfl
  split
  · cases entries (entries any) path (Reading.ofJson v) <;> rfl
  · cases entries method path (Reading.ofJson v) <;> rfl

theorem mapEntries_ne_null {f : Json → Json} {v : Json} (hv : v ≠ .null) :
    v.mapEntries f ≠ .null := by
  cases v with
  | null => exact absurd rfl hv
  | boolean _ | number _ | string _ | array _ | object _ => exact nofun

theorem map_map {ε γ : Type} (x : Except ε α) (f : α → β) (g : β → γ) :
    (x.map f).map g = x.map (g ∘ f) := by
  cases x <;> rfl

theorem follows_oneSection (f : Json → Json) (name : String) :
    Follows (oneSection name) (mapSectionTypes f name) (changeTypes f) := by
  intro path v
  by_cases hv : v = .null
  · subst hv
    have hnull : mapSectionTypes f name .null = .null := by
      unfold mapSectionTypes
      split
      · rfl
      · split <;> rfl
    rw [hnull]
    rfl
  unfold mapSectionTypes
  by_cases henum : name = Kind.enumeration.section
  -- An enumeration has no types, and its outline has none either.
  · rw [if_pos henum, oneSection_eq hv, if_pos henum, map_map]
    rfl
  by_cases hrecord : name = Kind.record.section
  · rw [if_neg henum, if_pos hrecord, oneSection_eq (mapEntries_ne_null hv), oneSection_eq hv,
      if_neg henum, if_pos hrecord, if_neg henum, if_pos hrecord,
      follows_entries (follows_entries (follows_any f)), map_map, map_map]
    rfl
  · rw [if_neg henum, if_neg hrecord, oneSection_eq (mapEntries_ne_null hv), oneSection_eq hv,
      if_neg henum, if_neg hrecord, if_neg henum, if_neg hrecord,
      follows_entries (follows_method f), map_map, map_map]
    rfl

theorem changeTypes_append (f : Json → Json) (a b : Outline) :
    changeTypes f (a.append b) = (changeTypes f a).append (changeTypes f b) := by
  simp [changeTypes, append, Named.mapValues]

theorem changeTypes_together (f : Json → Json) (parts : Named Outline) :
    together (parts.mapValues (changeTypes f)) = changeTypes f (together parts) := by
  induction parts with
  | nil => rfl
  | cons part rest ih =>
    show (changeTypes f part.2).append (together (Named.mapValues (changeTypes f) rest)) = _
    rw [ih, together, changeTypes_append]

/-- The outline of an object is that of its sections together. -/
theorem ofReading_object (members : Named Json) :
    (ofReading (Reading.ofJson (.object members)) : Result Unit Empty Outline) =
      (knownMembers sections oneSection [] [] (Reading.ofMembers members)).map together := by
  rw [Reading.ofJson, ofReading]
  cases knownMembers sections oneSection [] [] (Reading.ofMembers members) with
  | error e => rfl
  | ok parts =>
    show Except.ok (parts.foldl _ empty) = Except.ok (together parts)
    rw [foldl_append_eq, empty_append]

/-- Changing the types in a value changes the types in its outline, and nothing else. -/
theorem ofReading_mapTypes (f : Json → Json) (v : Json) :
    (ofReading (Reading.ofJson (mapTypes f v)) : Result Unit Empty Outline) =
      (ofReading (Reading.ofJson v)).map (changeTypes f) := by
  cases v with
  | object members =>
    rw [mapTypes, ofReading_object, ofReading_object,
      follows_knownMembers fun name _ => follows_oneSection f name, map_map, map_map]
    congr 1
    funext parts
    exact changeTypes_together f parts
  | null | boolean _ | number _ | string _ | array _ => rfl

/-! ## 2. Arrays in the places of objects -/

/-- What has to be an object: the document, its sections unless they are null, their declarations
and the directions of methods. -/
def containers (v : Json) : List Json :=
  v :: v.entries.flatMap fun section_ =>
    section_.2 :: section_.2.entries.flatMap fun declaration =>
      declaration.2 ::
        if section_.1 = Kind.method.section then declaration.2.entries.map (·.2) else []

theorem ne_array_of_declarationShape {k : Kind} {v : Json} (h : DeclarationShape k v)
    (items : List Json) : v ≠ .array items := by
  cases k with
  | enumeration =>
    obtain ⟨members, rfl, -⟩ := h
    exact nofun
  | record =>
    obtain ⟨members, rfl⟩ := h
    exact nofun
  | method =>
    obtain ⟨-, members, rfl, -⟩ := h
    exact nofun

theorem ne_array_of_mem_entries {v : Json} (h : DeclarationShape .method v) {side : String × Json}
    (hside : side ∈ v.entries) (items : List Json) : side.2 ≠ .array items := by
  obtain ⟨sides, members, rfl, hperm⟩ := h
  obtain rfl | rfl := List.mem_pair.1 (hperm.mem_iff.1 hside)
  · exact nofun
  · exact nofun

/-- In the shape of a document no array is in the place of an object. -/
theorem array_notMem_containers {v : Json} (h : DocumentShape v) (items : List Json) :
    .array items ∉ containers v := by
  obtain ⟨members, rfl, -, hmembers⟩ := h
  intro hmem
  obtain heq | hmem := List.mem_cons.1 hmem
  · cases heq
  obtain ⟨⟨_, w⟩, hs, hmem⟩ := List.mem_flatMap.1 hmem
  obtain ⟨k, rfl, rfl | ⟨declarations, rfl, hdeclarations⟩⟩ := hmembers _ hs
  · -- A section that is null is no array and has nothing in it.
    cases List.mem_singleton.1 hmem
  obtain heq | hmem := List.mem_cons.1 hmem
  · cases heq
  obtain ⟨d, hd, hmem⟩ := List.mem_flatMap.1 hmem
  have hshape : DeclarationShape k d.2 := hdeclarations d hd
  obtain heq | hmem := List.mem_cons.1 hmem
  · exact ne_array_of_declarationShape hshape items heq.symm
  by_cases hk : k = .method
  · subst hk
    rw [if_pos rfl] at hmem
    obtain ⟨side, hside, heq⟩ := List.mem_map.1 hmem
    exact ne_array_of_mem_entries hshape hside items heq
  · rw [if_neg fun heq => hk (section_injective heq)] at hmem
    exact List.not_mem_nil hmem

/-! ## 3. Sections that declare nothing -/

theorem knownMembers_congr {known : List String}
    {decode : String → List String → Reading Unit Empty → Result Unit Empty α} {path : List String}
    {members : Named Json} {seen seen' : List String}
    (h : ∀ n ∈ members.names, n ∈ seen ↔ n ∈ seen') :
    knownMembers known decode path seen (Reading.ofMembers members) =
      knownMembers known decode path seen' (Reading.ofMembers members) := by
  induction members generalizing seen seen' with
  | nil => rfl
  | cons m rest ih =>
    have hrest : ∀ n ∈ Named.names rest, n ∈ m.1 :: seen ↔ n ∈ m.1 :: seen' := by
      intro n hn
      rw [List.mem_cons, List.mem_cons, h n (List.mem_cons_of_mem _ hn)]
    have hm : m.1 ∈ seen ↔ m.1 ∈ seen' := h m.1 List.mem_cons_self
    rw [Reading.ofMembers, knownMembers, knownMembers, ih hrest]
    simp only [hm]

/-- What is read after a member that has been read. -/
theorem together_knownMembers_cons {known : List String}
    {decode : String → List String → Reading Unit Empty → Result Unit Empty Outline}
    {path seen : List String} {name : String} {v : Json} {rest : Named Json}
    (hknown : name ∈ known) (hseen : name ∉ seen) :
    (knownMembers known decode path seen (Reading.ofMembers ((name, v) :: rest))).map together =
      (decode name (path ++ [name]) (Reading.ofJson v)).bind fun o =>
        ((knownMembers known decode path (name :: seen) (Reading.ofMembers rest)).map together).map
          o.append := by
  rw [Reading.ofMembers, knownMembers, if_neg (not_not.2 hknown), if_neg hseen]
  cases decode name (path ++ [name]) (Reading.ofJson v) with
  | error e => rfl
  | ok o => cases knownMembers known decode path (name :: seen) (Reading.ofMembers rest) <;> rfl

/-- A section that gives nothing may as well not be there. -/
theorem together_knownMembers_idle {k : Kind} {w : Json}
    (hw : oneSection k.section [k.section] (Reading.ofJson w : Reading Unit Empty) = .ok empty)
    {seen : List String} (hseen : k.section ∉ seen) {before after : Named Json}
    (hfree : k.section ∉ Named.names (before ++ after)) :
    (knownMembers sections oneSection [] seen
        (Reading.ofMembers (before ++ (k.section, w) :: after))).map together =
      (knownMembers sections oneSection [] seen (Reading.ofMembers (before ++ after))).map
        together := by
  induction before generalizing seen with
  | nil =>
    have hsection : k.section ∈ sections := by
      cases k <;> decide
    have hafter : knownMembers sections oneSection [] (k.section :: seen)
        (Reading.ofMembers after : List (String × Unit × Reading Unit Empty)) =
          knownMembers sections oneSection [] seen (Reading.ofMembers after) := by
      apply knownMembers_congr
      intro n hn
      have hne : n ≠ k.section := fun heq => hfree (heq ▸ hn)
      exact List.mem_cons.trans (or_iff_right hne)
    rw [List.nil_append, List.nil_append, together_knownMembers_cons hsection hseen, hafter]
    show Except.bind (oneSection k.section [k.section] (Reading.ofJson w)) _ = _
    rw [hw]
    show Except.map empty.append _ = _
    cases knownMembers sections oneSection [] seen (Reading.ofMembers after) <;> rfl
  | cons m rest ih =>
    obtain ⟨name, v⟩ := m
    rw [List.cons_append, Named.names_cons, List.mem_cons, not_or] at hfree
    rw [List.cons_append, List.cons_append]
    by_cases hname : name ∈ sections ∧ name ∉ seen
    · have hseen' : k.section ∉ name :: seen := by
        rw [List.mem_cons, not_or]
        exact ⟨hfree.1, hseen⟩
      rw [together_knownMembers_cons hname.1 hname.2, together_knownMembers_cons hname.1 hname.2,
        ih hseen' hfree.2]
    -- Otherwise the name is refused before anything is read.
    · rw [Reading.ofMembers, Reading.ofMembers, knownMembers, knownMembers]
      by_cases hknown : name ∈ sections
      · rw [if_neg (not_not.2 hknown), if_neg (not_not.2 hknown),
          if_pos (not_not.1 fun h => hname ⟨hknown, h⟩),
          if_pos (not_not.1 fun h => hname ⟨hknown, h⟩)]
      · rw [if_pos hknown, if_pos hknown]

theorem oneSection_idle (k : Kind) {w : Json} (hw : w = .null ∨ w = .object []) :
    oneSection k.section [k.section] (Reading.ofJson w : Reading Unit Empty) = .ok empty := by
  obtain rfl | rfl := hw
  · rfl
  · cases k <;> rfl

end Outline

/-! ## 4. Documents -/

namespace Document

/-- The value is told to have a wrong shape. -/
def Misshapen (v : Json) : Prop :=
  ∃ path m position, ofJson v = .error (.misshapen path m position)

theorem misshapen_iff {v : Json} {path : List String} {m : Outline.Misshape}
    {position : Option Position} : ofJson v = .error (.misshapen path m position) ↔
      position = none ∧
        Outline.ofReading (Reading.ofJson v : Reading Unit Empty) =
          .error (.misshapen path m ()) := by
  rw [ofJson]
  split
  · rename_i o ho
    rw [ho]
    cases ofOutline o <;> simp [accept]
  · rename_i path' m' mark ho
    simp only [ho, Except.error.injEq, DocumentError.misshapen.injEq,
      Outline.Failure.misshapen.injEq]
    tauto

theorem exists_misshapen_iff {v : Json} : Misshapen v ↔ ¬ Outline.DocumentShape v := by
  rw [← Outline.exists_outline_iff]
  constructor
  · intro ⟨path, m, position, h⟩ ⟨o, ho⟩
    have hread := (misshapen_iff.1 h).2
    rw [ho] at hread
    cases hread
  · intro hnone
    cases hread : (Outline.ofReading (Reading.ofJson v) : Outline.Result Unit Empty Outline) with
    | ok o => exact absurd ⟨o, hread⟩ hnone
    | error failure =>
      cases failure with
      -- A value is no text, so nothing breaks off.
      | broken fault => exact fault.elim
      | misshapen path m mark => exact ⟨path, m, none, misshapen_iff.2 ⟨rfl, hread⟩⟩

/-- A shape that is right leaves nothing but the types to be wrong. -/
theorem exists_ofJson_of_documentShape {v : Json} (h : Outline.DocumentShape v) :
    (∃ d, ofJson v = .ok d) ∨ ∃ f fs, ofJson v = .error (.malformed f fs) := by
  obtain ⟨o, ho⟩ := Outline.exists_outline_iff.2 h
  rw [ofJson, ho]
  cases hread : ofOutline o with
  | ok d => exact .inl ⟨d, by simp [hread, accept]⟩
  | failed f fs => exact .inr ⟨f, fs, by simp [hread, accept]⟩

theorem misshapen_congr {v w : Json} (h : Outline.withoutTypes v = Outline.withoutTypes w)
    (path : List String) (m : Outline.Misshape) (position : Option Position) :
    ofJson v = .error (.misshapen path m position) ↔
      ofJson w = .error (.misshapen path m position) := by
  -- A wrong shape is seen as well without the types.
  have hwithout (u : Json) : Outline.ofReading (Reading.ofJson u : Reading Unit Empty) =
      .error (.misshapen path m ()) ↔
      Outline.ofReading (Reading.ofJson (Outline.withoutTypes u) : Reading Unit Empty) =
        .error (.misshapen path m ()) := by
    rw [Outline.withoutTypes, Outline.ofReading_mapTypes]
    cases Outline.ofReading (Reading.ofJson u : Reading Unit Empty) <;> simp [Except.map]
  rw [misshapen_iff, misshapen_iff, hwithout v, hwithout w, h]

/-- **The shape of a document is decided exactly.**  A value is misshapen exactly if it does not
have the shape of a document; if it has, nothing but its types can be malformed.  Values that differ
only in the places of types are misshapen in the same way, an array in the place of an object makes
a value misshapen, and a section that is null or empty may as well be absent. -/
theorem shape_decided :
    (∀ v, Misshapen v ↔ ¬ Outline.DocumentShape v) ∧
    (∀ v, Outline.DocumentShape v →
      (∃ d, ofJson v = .ok d) ∨ ∃ f fs, ofJson v = .error (.malformed f fs)) ∧
    (∀ v w, Outline.withoutTypes v = Outline.withoutTypes w → ∀ path m position,
      ofJson v = .error (.misshapen path m position) ↔
        ofJson w = .error (.misshapen path m position)) ∧
    (∀ v items, .array items ∈ Outline.containers v → Misshapen v) ∧
    ∀ (k : Kind) (before after : Named Json) (w : Json),
      k.section ∉ Named.names (before ++ after) → w = .null ∨ w = .object [] →
      ofJson (.object (before ++ (k.section, w) :: after)) = ofJson (.object (before ++ after)) := by
  refine ⟨fun v => exists_misshapen_iff, fun v => exists_ofJson_of_documentShape,
    fun v w => misshapen_congr, ?_, ?_⟩
  · intro v items hmem
    rw [exists_misshapen_iff]
    exact fun hshape => Outline.array_notMem_containers hshape items hmem
  · intro k before after w hfree hw
    have hsame := Outline.together_knownMembers_idle (Outline.oneSection_idle k hw)
      List.not_mem_nil hfree
    rw [ofJson, ofJson, Outline.ofReading_object, Outline.ofReading_object, hsame]

/-- The two directions of a method are an array. -/
def positional : Json := .object [
  (Kind.record.section, .object [("Car", .object [("wheels", .string "int")])]),
  (Kind.method.section, .object [("find_car", .array [.object [], .object []])])]

/-- The same, with a number in the place of a type. -/
def positionalNumber : Json := .object [
  (Kind.record.section, .object [("Car", .object [("wheels", .number (.integer 4))])]),
  (Kind.method.section, .object [("find_car", .array [.object [], .object []])])]

theorem shape_decided_positional :
    ¬ Outline.DocumentShape positional ∧
    ofJson positionalNumber =
      .error (.misshapen ["methods", "find_car"] (.wrongKind .array .object) none) ∧
    (∃ f fs, ofJson broken = .error (.malformed f fs)) ∧
    ofJson (.object [(Kind.enumeration.section, .null),
      (Kind.record.section, .object [("Car", .object [("wheels", .string "int")])])]) =
      ofJson (.object [
        (Kind.record.section, .object [("Car", .object [("wheels", .string "int")])])]) := by
  obtain ⟨hdecided, hright, htypes, harrays, hsections⟩ := shape_decided
  refine ⟨?_, ?_, ?_, ?_⟩
  · exact (hdecided _).1 (harrays positional [.object [], .object []] (by decide))
  · exact (htypes positional positionalNumber (by decide) _ _ _).1 (by decide +kernel)
  · have hshape : Outline.DocumentShape broken := Outline.exists_outline_iff.1 ⟨_, rfl⟩
    apply (hright broken hshape).resolve_left
    intro ⟨d, hd⟩
    have hfails : (ofJson broken).toOption = none := by decide +kernel
    rw [hd] at hfails
    cases hfails
  · exact hsections .enumeration [] _ .null (by decide) (.inl rfl)

end Document
end CallContract
