import CallContract.Proofs.SchemaForms
import CallContract.Schema.Check

/-!
# When a value has no violations

Schemas are checked in their JSON form, keyword by keyword.  Here the keywords of each kind of form
are put together: what the violations of a form are, and when a value has none.  An object is
checked in one order if it is open and in another if it is closed, but where no name is repeated
both ways find no violations exactly if every required name is there and every property accepts the
member of its name; a closed object also has no other members.
-/

namespace CallContract

/-! ## 1. Keywords -/

namespace Json

variable {defs siblings : Named Json} {hops : Nat} {v : Json} {name name' : String}
  {k k' : Keyword}

theorem keywordsViolations_nil : keywordsViolations defs hops siblings [] v = [] := by
  rw [keywordsViolations]

theorem keywordsViolations_cons (h : Keyword.ofName? name = some k) (argument : Json)
    (rest : Named Json) :
    keywordsViolations defs hops siblings ((name, argument) :: rest) v =
      keywordViolations defs hops siblings k argument v ++
        keywordsViolations defs hops siblings rest v := by
  rw [keywordsViolations, h]

/-- A member under another name says nothing. -/
theorem keywordsViolations_cons_none (h : Keyword.ofName? name = none) (argument : Json)
    (rest : Named Json) :
    keywordsViolations defs hops siblings ((name, argument) :: rest) v =
      keywordsViolations defs hops siblings rest v := by
  rw [keywordsViolations, h, List.nil_append]

theorem keywordsViolations_append (a b : Named Json) :
    keywordsViolations defs hops siblings (a ++ b) v =
      keywordsViolations defs hops siblings a v ++ keywordsViolations defs hops siblings b v := by
  induction a with
  | nil => rw [keywordsViolations_nil, List.nil_append, List.nil_append]
  | cons m rest ih =>
    rw [List.cons_append, keywordsViolations, keywordsViolations, ih, List.append_assoc]

/-- A form with one keyword. -/
theorem violations_single (h : Keyword.ofName? name = some k) (argument : Json) :
    (Json.object [(name, argument)]).violations defs hops v =
      keywordViolations defs hops [(name, argument)] k argument v := by
  rw [violations, keywordsViolations_cons h, keywordsViolations_nil, List.append_nil]

/-- A form with two keywords. -/
theorem violations_pair (h : Keyword.ofName? name = some k) (h' : Keyword.ofName? name' = some k')
    (argument argument' : Json) :
    (Json.object [(name, argument), (name', argument')]).violations defs hops v =
      keywordViolations defs hops [(name, argument), (name', argument')] k argument v ++
        keywordViolations defs hops [(name, argument), (name', argument')] k' argument' v := by
  rw [violations, keywordsViolations_cons h, keywordsViolations_cons h', keywordsViolations_nil,
    List.append_nil]

theorem keywordViolations_type (t : BasicType) :
    keywordViolations defs hops siblings .type (.string t.name) v =
      if t.accepts v then [] else [⟨[], .wrongType v t⟩] := by
  rw [keywordViolations, typeViolations, BasicType.ofName?_name]

theorem keywordViolations_reference {fragment : String} {schema : Json}
    (h : Fragment.find? defs fragment = some schema) :
    keywordViolations defs (hops + 1) siblings .reference (.string fragment) v =
      schema.violations defs hops v := by
  unfold keywordViolations
  simp only [h]

theorem keywordViolations_unresolved {fragment : String} (h : Fragment.find? defs fragment = none) :
    keywordViolations defs hops siblings .reference (.string fragment) v =
      [⟨[], .invalid (.unresolved fragment)⟩] := by
  unfold keywordViolations
  simp only [h]

/-! ## 2. Forms -/

/-- The violations of an array schema. -/
def arrayViolations (defs : Named Json) (schema : Json) : Json → List Violation
  | .array items => itemViolations defs schema 0 items
  | v => [⟨[], .wrongType v .array⟩]

/-- The violations of an object schema.  A closed object tells of its missing names first, and of
the names that it does not admit last. -/
def objectViolations (defs ps : Named Json) (required : List String) (closed : Bool) :
    Json → List Violation
  | .object members =>
    if closed then
      missing required members ++ (memberViolations defs ps members ++ unexpected ps members)
    else propertyViolations defs members ps ++ missing required members
  | v => [⟨[], .wrongType v .object⟩]

theorem filterMap_string? (names : List String) :
    (names.map Json.string).filterMap string? = names := by
  rw [List.filterMap_map]
  exact List.filterMap_some

/-- An object schema is checked by its own keywords, whatever other members it has. -/
theorem keywordsViolations_objectMembers {ps : Named Json} {required : List String} {closed : Bool}
    (hps : table siblings .properties = ps) (hclosed : isClosed siblings = closed) :
    keywordsViolations defs hops siblings (Schema.objectMembers ps required closed) v =
      objectViolations defs ps required closed v := by
  have htype : Keyword.ofName? "type" = some .type := rfl
  have hproperties : Keyword.ofName? "properties" = some .properties := rfl
  have hrequired : Keyword.ofName? "required" = some .required := rfl
  have hadditional : Keyword.ofName? "additionalProperties" = some .additionalProperties := rfl
  unfold Schema.objectMembers Schema.typeMember
  rw [keywordsViolations_append, keywordsViolations_cons htype, keywordsViolations_cons hproperties,
    keywordsViolations_cons hrequired, keywordsViolations_nil, keywordViolations_type]
  cases closed with
  | false =>
    rw [if_neg Bool.false_ne_true, keywordsViolations_nil]
    cases v with
    | object members =>
      rw [keywordViolations, hclosed, keywordViolations, filterMap_string?]
      simp [objectViolations, BasicType.accepts]
    | null | boolean _ | number _ | string _ | array _ =>
      simp [keywordViolations, objectViolations, BasicType.accepts]
  | true =>
    rw [if_pos rfl, keywordsViolations_cons hadditional, keywordsViolations_nil]
    cases v with
    | object members =>
      rw [keywordViolations, hclosed, keywordViolations, keywordViolations, filterMap_string?, hps]
      simp [objectViolations, BasicType.accepts]
    | null | boolean _ | number _ | string _ | array _ =>
      simp [keywordViolations, objectViolations, BasicType.accepts]

theorem violations_objectMembers (ps : Named Json) (required : List String) (closed : Bool) :
    (Json.object (Schema.objectMembers ps required closed)).violations defs hops v =
      objectViolations defs ps required closed v := by
  rw [violations]
  cases closed <;> exact keywordsViolations_objectMembers rfl rfl

end Json

/-- The JSON forms of definitions, under their names. -/
def Definition.forms (defs : Named Definition) : Named Json := defs.mapValues Definition.toJson

namespace Schema

variable {defs : Named Definition} {v : Json} {ps : Named Schema} {members : Named Json}

/-- The violations of the form of a schema, with these definitions. -/
def violations (defs : Named Definition) (s : Schema) (v : Json) : List Violation :=
  s.toJson.violations (Definition.forms defs) (Definition.forms defs).length v

theorem violations_basic (t : BasicType) :
    (basic t).violations defs v = if t.accepts v then [] else [⟨[], .wrongType v t⟩] :=
  (Json.violations_single rfl _).trans (Json.keywordViolations_type t)

theorem violations_formatted (f : Format) : (formatted f).violations defs v =
    (if BasicType.string.accepts v then [] else [⟨[], .wrongType v .string⟩]) ++
      Json.formatViolations f.name v := by
  have hform : (formatted f).violations defs v = _ := Json.violations_pair rfl rfl _ _
  rw [hform, Json.keywordViolations_type, Json.keywordViolations]

theorem violations_anyOf (ss : List Schema) : (anyOf ss).violations defs v =
    if Json.anyAccepts (Definition.forms defs) (Definition.forms defs).length (ss.map toJson) v
      then [] else [⟨[], .noAlternative v⟩] := by
  have hform : (anyOf ss).violations defs v = _ := Json.violations_single rfl _
  rw [hform, Json.keywordViolations, toJsonList_eq]

theorem violations_array (s : Schema) :
    (array s).violations defs v = Json.arrayViolations (Definition.forms defs) s.toJson v := by
  have hform : (array s).violations defs v = _ := Json.violations_pair rfl rfl _ _
  rw [hform, Json.keywordViolations_type]
  cases v with
  | array items =>
    rw [Json.keywordViolations]
    rfl
  | null | boolean _ | number _ | string _ | object _ =>
    simp [Json.keywordViolations, Json.arrayViolations, BasicType.accepts]

theorem violations_object (required : List String) (closed : Bool) :
    (object ps required closed).violations defs v =
      Json.objectViolations (Definition.forms defs) (ps.mapValues toJson) required closed v := by
  have hform : (object ps required closed).violations defs v = _ :=
    Json.violations_objectMembers (toJsonProperties ps) required closed
  rw [hform, toJsonProperties_eq]

end Schema

/-! ## 3. References -/

/-- The violations of a definition, as they are of every reference to it. -/
def Definition.violations (defs : Named Definition) (d : Definition) (v : Json) :
    List Violation :=
  d.toJson.violations (forms defs) ((forms defs).length - 1) v

namespace Schema

variable {defs : Named Definition} {v : Json} {ps : Named Schema} {members : Named Json}

theorem violations_reference {fragment : String} {d : Definition}
    (h : Fragment.find? defs fragment = some d) :
    (reference fragment).violations defs v = d.violations defs v := by
  have hfound : Fragment.find? (Definition.forms defs) fragment = some d.toJson := by
    unfold Definition.forms
    rw [Fragment.find?_mapValues, h]
    rfl
  have hform : (reference fragment).violations defs v = _ := Json.violations_single rfl _
  -- There is a definition, so one reference may be followed.
  have hlength : (Definition.forms defs).length ≠ 0 := by
    intro hzero
    rw [List.eq_nil_of_length_eq_zero hzero, Fragment.find?_nil] at hfound
    cases hfound
  obtain ⟨n, hn⟩ := Nat.exists_eq_succ_of_ne_zero hlength
  unfold Definition.violations
  rw [hform, hn, Json.keywordViolations_reference hfound, Nat.succ_sub_one]

theorem violations_unresolved {fragment : String} (h : Fragment.find? defs fragment = none) :
    (reference fragment).violations defs v = [⟨[], .invalid (.unresolved fragment)⟩] := by
  have hmissing : Fragment.find? (Definition.forms defs) fragment = none := by
    unfold Definition.forms
    rw [Fragment.find?_mapValues, h]
    rfl
  have hform : (reference fragment).violations defs v = _ := Json.violations_single rfl _
  rw [hform, Json.keywordViolations_unresolved hmissing]

end Schema

theorem Definition.violations_strings {defs : Named Definition} {v : Json} (values : List String) :
    (strings values).violations defs v =
      (if BasicType.string.accepts v then [] else [⟨[], .wrongType v .string⟩]) ++
        if v ∈ values.map .string then [] else [⟨[], .notAmong v (values.map .string)⟩] := by
  have hform : (strings values).violations defs v = _ := Json.violations_pair rfl rfl _ _
  rw [hform, Json.keywordViolations_type, Json.keywordViolations]

/-- A definition that is an object is checked as an object schema is. -/
theorem Definition.violations_object {defs : Named Definition} {v : Json} (ps : Named Schema)
    (required : List String) (closed : Bool) : (object ps required closed).violations defs v =
      (Schema.object ps required closed).violations defs v := by
  have hform : (object ps required closed).violations defs v = _ :=
    Json.violations_objectMembers (Schema.toJsonProperties ps) required closed
  rw [hform, Schema.violations_object, Schema.toJsonProperties_eq]

/-- A whole schema is checked as the schema of its object is. -/
theorem RootSchema.rootViolations_toJson (x : RootSchema) (v : Json) :
    x.toJson.rootViolations v = x.body.violations x.definitions v := by
  have hschema : Keyword.ofName? "$schema" = none := rfl
  have htitle : Keyword.ofName? "title" = none := rfl
  have hdefinitions : Keyword.ofName? "$defs" = some .definitions := rfl
  unfold Json.rootViolations
  rw [definitions_toJson, body, Schema.violations_object, ← Schema.toJsonProperties_eq]
  unfold toJson
  rw [Json.violations, Json.keywordsViolations_append, Json.keywordsViolations_append,
    Json.keywordsViolations_cons_none hschema, Json.keywordsViolations_cons_none htitle,
    Json.keywordsViolations_cons hdefinitions, Json.keywordsViolations_nil,
    Json.keywordViolations, List.nil_append, List.append_nil,
    List.append_nil]
  -- The members around those of the object are no keywords that its keywords look at.
  apply Json.keywordsViolations_objectMembers
  · cases x.closed <;> rfl
  · cases x.closed <;> rfl

/-! ## 4. Verdicts -/

namespace Schema

variable {defs : Named Definition} {v : Json} {ps : Named Schema} {members : Named Json}

theorem violations_basic_eq_nil_iff {t : BasicType} :
    (basic t).violations defs v = [] ↔ t.accepts v = true := by
  rw [violations_basic]
  by_cases h : t.accepts v = true <;> simp [h]

theorem violations_formatted_eq_nil_iff {f : Format} :
    (formatted f).violations defs v = [] ↔ ∃ s, v = .string s ∧ f.accepts s = true := by
  rw [violations_formatted]
  unfold Json.formatViolations
  rw [Format.ofName?_name]
  cases v with
  | string s => by_cases h : f.accepts s = true <;> simp [BasicType.accepts, h]
  | null | boolean _ | number _ | array _ | object _ => simp [BasicType.accepts]

theorem anyAccepts_iff {forms : Named Json} {hops : Nat} {schemas : List Json} :
    Json.anyAccepts forms hops schemas v = true ↔
      ∃ s ∈ schemas, s.violations forms hops v = [] := by
  induction schemas with
  | nil => simp [Json.anyAccepts]
  | cons s rest ih =>
    rw [Json.anyAccepts, Bool.or_eq_true, ih, List.isEmpty_iff, List.exists_mem_cons_iff]

theorem violations_anyOf_eq_nil_iff {ss : List Schema} :
    (anyOf ss).violations defs v = [] ↔ ∃ s ∈ ss, s.violations defs v = [] := by
  have haccepts : Json.anyAccepts (Definition.forms defs) (Definition.forms defs).length
      (ss.map toJson) v = true ↔ ∃ s ∈ ss, s.violations defs v = [] := by
    rw [anyAccepts_iff]
    simp [violations]
  rw [← haccepts, violations_anyOf]
  split <;> simp_all

theorem itemViolations_eq_nil_iff {forms : Named Json} {s : Json} {i : Nat} {items : List Json} :
    Json.itemViolations forms s i items = [] ↔
      ∀ x ∈ items, s.violations forms forms.length x = [] := by
  induction items generalizing i with
  | nil => simp [Json.itemViolations]
  | cons x rest ih =>
    rw [Json.itemViolations, List.append_eq_nil_iff, List.map_eq_nil_iff, ih,
      List.forall_mem_cons]

theorem violations_array_eq_nil_iff {s : Schema} :
    (array s).violations defs v = [] ↔
      ∃ items, v = .array items ∧ ∀ x ∈ items, s.violations defs x = [] := by
  rw [violations_array]
  cases v with
  | array items =>
    unfold Json.arrayViolations
    rw [itemViolations_eq_nil_iff]
    simp [violations]
  | null | boolean _ | number _ | string _ | object _ => simp [Json.arrayViolations]

theorem missing_eq_nil_iff {required : List String} :
    Json.missing required members = [] ↔ ∀ n ∈ required, n ∈ members.names := by
  unfold Json.missing
  rw [List.map_eq_nil_iff, List.filter_eq_nil_iff]
  simp

theorem unexpected_eq_nil_iff {forms : Named Json} :
    Json.unexpected forms members = [] ↔ ∀ n ∈ members.names, n ∈ forms.names := by
  have hfilter : (members.names.filter fun n => !forms.names.contains n) = [] ↔
      ∀ n ∈ members.names, n ∈ forms.names := by
    rw [List.filter_eq_nil_iff]
    simp
  rw [← hfilter]
  unfold Json.unexpected
  split <;> simp_all

/-- The members that properties speak of are accepted by them. -/
def MembersAccepted (defs : Named Definition) (ps : Named Schema) (members : Named Json) : Prop :=
  ∀ n s x, (n, s) ∈ ps → (n, x) ∈ members → s.violations defs x = []

theorem propertyViolations_eq_nil_iff (hmembers : members.Distinct) :
    Json.propertyViolations (Definition.forms defs) members (ps.mapValues toJson) = [] ↔
      MembersAccepted defs ps members := by
  induction ps with
  | nil => simp [Named.mapValues, Json.propertyViolations, MembersAccepted]
  | cons p rest ih =>
    obtain ⟨name, s⟩ := p
    have hcons : MembersAccepted defs ((name, s) :: rest) members ↔
        (∀ x, members.lookup name = some x → s.violations defs x = []) ∧
          MembersAccepted defs rest members := by
      simp only [MembersAccepted, Named.lookup_eq_some_iff hmembers, List.mem_cons, Prod.mk.injEq]
      constructor
      · intro h
        exact ⟨fun x => h name s x (.inl ⟨rfl, rfl⟩), fun n t x ht => h n t x (.inr ht)⟩
      · intro h n t x ht
        cases ht with
        | inl heq => exact heq.1 ▸ heq.2 ▸ h.1 x
        | inr ht => exact h.2 n t x ht
    have hunfold : Named.mapValues toJson ((name, s) :: rest) =
        (name, s.toJson) :: Named.mapValues toJson rest := rfl
    rw [hcons, ← ih, hunfold, Json.propertyViolations, List.append_eq_nil_iff]
    refine and_congr_left fun _ => ?_
    split
    · rename_i x hx
      simp [hx, violations]
    · rename_i hnone
      simp [hnone]

theorem memberViolations_eq_nil_iff (hps : ps.Distinct) :
    Json.memberViolations (Definition.forms defs) (ps.mapValues toJson) members = [] ↔
      MembersAccepted defs ps members := by
  induction members with
  | nil => simp [Json.memberViolations, MembersAccepted]
  | cons m rest ih =>
    obtain ⟨name, x⟩ := m
    have hcons : MembersAccepted defs ps ((name, x) :: rest) ↔
        (∀ s, ps.lookup name = some s → s.violations defs x = []) ∧
          MembersAccepted defs ps rest := by
      simp only [MembersAccepted, Named.lookup_eq_some_iff hps, List.mem_cons, Prod.mk.injEq]
      constructor
      · intro h
        exact ⟨fun s hs => h name s x hs (.inl ⟨rfl, rfl⟩), fun n s y hs hy => h n s y hs (.inr hy)⟩
      · intro h n s y hs hy
        cases hy with
        | inl heq => exact heq.2 ▸ h.1 s (heq.1 ▸ hs)
        | inr hy => exact h.2 n s y hs hy
    rw [hcons, ← ih, Json.memberViolations, List.append_eq_nil_iff, Named.lookup_mapValues]
    refine and_congr_left fun _ => ?_
    cases hname : ps.lookup name <;> simp [violations]

/-- Where no name is repeated an object has no violations exactly if all required names are there,
properties accept the members of their names, and a closed object has no other members. -/
theorem violations_object_eq_nil_iff {required : List String} {closed : Bool} (hps : ps.Distinct)
    (hmembers : members.Distinct) :
    (object ps required closed).violations defs (.object members) = [] ↔
      (∀ n ∈ required, n ∈ members.names) ∧ MembersAccepted defs ps members ∧
        (closed = true → ∀ n ∈ members.names, n ∈ ps.names) := by
  rw [violations_object]
  unfold Json.objectViolations
  cases closed with
  | false =>
    simp only [Bool.false_eq_true, ↓reduceIte, false_implies, and_true, List.append_eq_nil_iff,
      propertyViolations_eq_nil_iff hmembers, missing_eq_nil_iff]
    exact And.comm
  | true =>
    simp only [↓reduceIte, true_implies, List.append_eq_nil_iff, missing_eq_nil_iff,
      memberViolations_eq_nil_iff hps, unexpected_eq_nil_iff, Named.names_mapValues]

theorem exists_members_of_violations_object {required : List String} {closed : Bool}
    (h : (object ps required closed).violations defs v = []) : ∃ members, v = .object members := by
  rw [violations_object] at h
  cases v with
  | object members => exact ⟨members, rfl⟩
  | null | boolean _ | number _ | string _ | array _ => exact absurd h (List.cons_ne_nil _ _)

end Schema

theorem Definition.violations_strings_eq_nil_iff {defs : Named Definition} {values : List String}
    {v : Json} : (strings values).violations defs v = [] ↔ ∃ s ∈ values, v = .string s := by
  rw [violations_strings]
  cases v with
  | string s => by_cases h : s ∈ values <;> simp [BasicType.accepts, h]
  | null | boolean _ | number _ | array _ | object _ => simp [BasicType.accepts]
end CallContract
