import CallContract.Proofs.NormalForm
import CallContract.Proofs.Resolution

/-!
# Names that can be referred to

Whatever a document declares has a name that is free, so a type that is this name is read as a
reference to the declaration (`ofJson_string_of_free`) and resolved to it: a field of that type may
be added to any method.  Only a blank name is not read.  No level of strictness but the strict one
refuses to declare such a name.
-/

namespace CallContract

/-! ## 1. Reading a name -/

theorem ofJson_string_of_free {n : String} (h : n ∉ reservedNames) : Ty.ofJson (.string n) =
    if Text.isBlankText n then .fail ⟨[], .blankName⟩ else .ok (.named n) := by
  rw [Ty.ofJson]
  cases hblank : Text.isBlankText n with
  | false => exact Ty.ofName_of_notMem hblank h
  | true =>
    have hnull : n ≠ nullName := fun heq => h (Ty.mem_reservedNames_iff.2 (.inl heq))
    rw [Ty.ofName, if_neg hnull, hblank, if_pos rfl, if_pos rfl]

theorem isBlank_of_isCapital {c : Char} (h : IsCapital c) : Text.isBlank c = false := by
  obtain ⟨hlow, hhigh⟩ := h
  have hlow : 65 ≤ c.toNat := hlow
  have hhigh : c.toNat ≤ 90 := hhigh
  simp only [Text.isBlank, Bool.or_eq_false_iff, Bool.and_eq_false_iff, decide_eq_false_iff_not]
  omega

theorem isBlankText_of_inCamelCase {n : String} (h : InCamelCase n) :
    Text.isBlankText n = false := by
  obtain ⟨c, rest, hn, hc, -⟩ := h
  rw [Text.isBlankText, hn, List.all_cons, isBlank_of_isCapital hc, Bool.false_and]

/-! ## 2. One more field -/

/-- The method with one more field at the end of a direction. -/
def Method.withField {ν : Type} (direction : Direction) (k : String) (t : Ty ν) (m : Method ν) :
    Method ν :=
  match direction with
  | .request => { m with request := m.request ++ [(k, t)] }
  | .response => { m with response := m.response ++ [(k, t)] }

theorem Ty.part_of_withField {ν : Type} {fs : Fields ν} {k : String} {n : ν} {u : Ty ν}
    (h : u.Part (.object (fs ++ [(k, .named n)]))) :
    u = .object (fs ++ [(k, .named n)]) ∨ u = .named n ∨ u.Part (.object fs) := by
  cases h with
  | self => exact .inl rfl
  | object hmem hu =>
    rw [List.mem_append, List.mem_singleton] at hmem
    obtain hmem | hmem := hmem
    · exact .inr (.inr (.object hmem hu))
    · cases hmem
      cases hu
      exact .inr (.inl rfl)

theorem Ty.renameFields?_append {ν μ : Type} {f : ν → Option μ} {fs gs : Fields ν}
    {fs' gs' : Fields μ} (hfs : renameFields? f fs = some fs')
    (hgs : renameFields? f gs = some gs') : renameFields? f (fs ++ gs) = some (fs' ++ gs') := by
  rw [renameFields?_eq, mapM_eq_some_iff] at hfs hgs ⊢
  exact List.rel_append hfs hgs

theorem Method.resolve?_withField {sc : Scope} {m : Method String} {m' : Method DeclId}
    (hm : m.resolve? sc = some m') {n : String} {id : DeclId} (hn : sc.find? n = some id)
    (direction : Direction) (k : String) :
    (m.withField direction k (.named n)).resolve? sc =
      some (m'.withField direction k (.named id)) := by
  rw [Method.resolve?_eq, Method.rename?_eq_some_iff] at hm ⊢
  obtain ⟨hname, hrequest, hresponse⟩ := hm
  have hfield : Ty.renameFields? sc.find? [(k, .named n)] = some [(k, .named id)] := by
    rw [Ty.renameFields?, Ty.rename?, hn]
    rfl
  cases direction with
  | request => exact ⟨hname, Ty.renameFields?_append hrequest hfield, hresponse⟩
  | response => exact ⟨hname, hrequest, Ty.renameFields?_append hresponse hfield⟩

theorem Contract.Resolved.mem_typeNames {c : Contract} (hc : c.Resolved) {n : String} {id : DeclId}
    (h : c.scope.find? n = some id) : n ∈ c.document.typeNames := by
  rw [← Document.contains_scope_iff, Scope.contains, ← hc.scope, h]
  rfl

namespace Document

/-- The document with one more field in the method in a place. -/
def withField (d : Document) (i : Nat) (direction : Direction) (k : String) (t : Ty String) :
    Document :=
  { d with methods := d.methods.modify i (Method.withField direction k t) }

variable {d : Document} {i : Nat} {direction : Direction} {k n : String}

/-- No field of the method in the place has the name. -/
def FreshField (d : Document) (i : Nat) (direction : Direction) (k : String) : Prop :=
  ∀ m, d.methods[i]? = some m → k ∉ (m.fields direction).names

theorem exists_method_of_mem_withField {t : Ty String} {m' : Method String}
    (h : m' ∈ (d.withField i direction k t).methods) : ∃ m ∈ d.methods, m'.name = m.name ∧
      (m' = m ∨ d.methods[i]? = some m ∧ m' = m.withField direction k t) := by
  obtain ⟨j, hj⟩ := List.getElem?_of_mem h
  rw [withField, List.getElem?_modify] at hj
  obtain ⟨m, hm, heq⟩ := Option.map_eq_some_iff.1 hj
  refine ⟨m, List.mem_of_getElem? hm, ?_⟩
  subst heq
  by_cases hij : i = j
  · subst hij
    rw [if_pos rfl]
    refine ⟨?_, .inr ⟨hm, rfl⟩⟩
    cases direction <;> rfl
  · rw [if_neg hij]
    exact ⟨rfl, .inl rfl⟩

theorem methodNames_withField (t : Ty String) :
    (d.withField i direction k t).methods.map (·.name) = d.methods.map (·.name) := by
  apply List.ext_getElem?
  intro j
  rw [List.getElem?_map, List.getElem?_map, withField, List.getElem?_modify]
  cases d.methods[j]? with
  | none => rfl
  | some m =>
    by_cases hij : i = j
    · cases direction <;> simp [hij, Method.withField]
    · simp [hij]

/-- Every list of fields was there before, or it is the one that got the field. -/
theorem exists_fields_of_mem_withField {t : Ty String} {fs : Fields String}
    (hk : d.FreshField i direction k) (h : fs ∈ (d.withField i direction k t).fieldLists) :
    fs ∈ d.fieldLists ∨ ∃ gs ∈ d.fieldLists, fs = gs ++ [(k, t)] ∧ k ∉ gs.names := by
  rw [fieldLists, fieldsOfAll, List.mem_append, List.mem_flatMap] at h
  obtain h | ⟨m', hm', h⟩ := h
  · exact .inl (List.mem_append_left _ h)
  obtain ⟨m, hm, -, rfl | ⟨hi, rfl⟩⟩ := exists_method_of_mem_withField hm'
  · exact .inl (List.mem_append_right _ (List.mem_flatMap.2 ⟨m', hm, h⟩))
  have hold (direction : Direction) : m.fields direction ∈ d.fieldLists :=
    mem_fieldsOfAll_of_method hm direction d.records
  -- Only one of the two directions got the field.
  rw [List.mem_pair] at h
  cases direction with
  | request =>
    obtain rfl | rfl := h
    · exact .inr ⟨_, hold .request, rfl, hk m hi⟩
    · exact .inl (hold .response)
  | response =>
    obtain rfl | rfl := h
    · exact .inl (hold .request)
    · exact .inr ⟨_, hold .response, rfl, hk m hi⟩

theorem WellFormed.withField (hd : d.WellFormed) (hk : d.FreshField i direction k)
    (hn : n ∈ d.typeNames) : (d.withField i direction k (.named n)).WellFormed where
  distinct_types := hd.distinct_types
  free_types := hd.free_types
  distinct_methods := by
    rw [methodNames_withField]
    exact hd.distinct_methods
  distinct_members := hd.distinct_members
  nonempty_values := hd.nonempty_values
  distinct_fields fs hfs inner hin := by
    obtain hold | ⟨gs, hgs, rfl, hnew⟩ := exists_fields_of_mem_withField hk hfs
    · exact hd.distinct_fields fs hold inner hin
    -- The only new object is the list itself, and its last name is new.
    obtain heq | heq | hin := Ty.part_of_withField hin
    · have hdistinct : gs.Distinct := hd.distinct_fields gs hgs gs .self
      rw [Ty.object.inj heq, Named.Distinct, Named.names_append, List.nodup_append]
      refine ⟨hdistinct, List.nodup_singleton k, fun x hx y hy hxy => hnew ?_⟩
      rwa [← show y = k from List.mem_singleton.1 hy, ← hxy]
    · cases heq
    · exact hd.distinct_fields gs hgs inner hin
  declared fs hfs m hm := by
    obtain hold | ⟨gs, hgs, rfl, -⟩ := exists_fields_of_mem_withField hk hfs
    · exact hd.declared fs hold m hm
    obtain heq | heq | hm := Ty.part_of_withField hm
    · cases heq
    -- The name of the new type is the one that was given.
    · cases heq
      exact hn
    · exact hd.declared gs hgs m hm
  acyclic := hd.acyclic

theorem WellStyled.withField (hd : d.WellStyled) (hk : d.FreshField i direction k)
    (hfree : k ∉ reservedNames) : (d.withField i direction k (.named n)).WellStyled where
  camel_types := hd.camel_types
  snake_methods m' hm' := by
    obtain ⟨m, hm, hname, -⟩ := exists_method_of_mem_withField hm'
    rw [hname]
    exact hd.snake_methods m hm
  distinct_values := hd.distinct_values
  apart m' hm' := by
    obtain ⟨m, hm, hname, -⟩ := exists_method_of_mem_withField hm'
    rw [hname]
    exact hd.apart m hm
  free_fields fs hfs inner hin x hx := by
    obtain hold | ⟨gs, hgs, rfl, -⟩ := exists_fields_of_mem_withField hk hfs
    · exact hd.free_fields fs hold inner hin x hx
    obtain heq | heq | hin := Ty.part_of_withField hin
    · rw [Ty.object.inj heq, Named.names_append, List.mem_append] at hx
      obtain hx | hx := hx
      · exact hd.free_fields gs hgs gs .self x hx
      · rw [List.mem_singleton.1 hx]
        exact hfree
    · cases heq
    · exact hd.free_fields gs hgs inner hin x hx
  has_methods hnil := by
    have hnames : (d.withField i direction k (.named n)).methods.map (·.name) =
        d.methods.map (·.name) := methodNames_withField _
    rw [hnil, List.map_nil, eq_comm, List.map_eq_nil_iff] at hnames
    exact hd.has_methods hnames

/-- A field that names a declaration may be added to any method, and it is resolved to the
declaration. -/
theorem validate_withField {s : Strictness} {c : Contract} (h : d.validate s = .ok c)
    {id : DeclId} (hn : c.scope.find? n = some id) (hk : d.FreshField i direction k)
    (hfree : s = .strict → k ∉ reservedNames) :
    ∃ c', (d.withField i direction k (.named n)).validate s = .ok c' ∧
      c'.methods = c.methods.modify i (Method.withField direction k (.named id)) := by
  obtain ⟨hdoc, hc⟩ := Contract.resolved_of_validate h
  obtain ⟨hd, hstyle⟩ := exists_validate_iff.1 ⟨c, h⟩
  have hin : n ∈ d.typeNames := hdoc ▸ hc.mem_typeNames hn
  obtain ⟨c', h'⟩ := exists_validate_iff.2
    ⟨hd.withField hk hin, fun hs => (hstyle hs).withField hk (hfree hs)⟩
  obtain ⟨hdoc', hc'⟩ := Contract.resolved_of_validate h'
  refine ⟨c', h', ?_⟩
  -- The scope is made from the enumerations and records, which are the same.
  have hscope : c'.scope = c.scope := by
    rw [hc'.scope, hc.scope, hdoc', hdoc]
    rfl
  have hold := hc.methods
  have hnew := hc'.methods
  rw [mapM_eq_some_iff] at hold
  rw [hscope, hdoc', withField, ← hdoc] at hnew
  -- What resolves to the methods resolves, with the field added, to the methods with the field.
  have hmodified := mapM_eq_some_iff.2 (forall₂_modify hold i fun m m' hm =>
    Method.resolve?_withField hm hn direction k)
  exact Option.some.inj (hnew.symm.trans hmodified)

/-! ## 3. Declared names -/

/-- **What is declared can be referred to, unless its name is blank.**  In an accepted document the
name of a declaration is read as a reference to it, or, if the name is blank, refused for that; a
strict validation accepts no blank names.  The scope finds the declaration under its name, and a
field that has the name as its type may be added under a new name to any method, where it is
resolved to the declaration. -/
theorem declared_name_referable {d : Document} {s : Strictness} {c : Contract}
    (h : d.validate s = .ok c) {id : DeclId} {n : String} (hn : d.declaredName? id = some n) :
    (Ty.ofJson (.string n) =
      if Text.isBlankText n then .fail ⟨[], .blankName⟩ else .ok (.named n)) ∧
    (s = .strict → Text.isBlankText n = false) ∧
    c.scope.find? n = some id ∧
    ∀ i direction k, d.FreshField i direction k → (s = .strict → k ∉ reservedNames) →
      ∃ c', (d.withField i direction k (.named n)).validate s = .ok c' ∧
        c'.methods = c.methods.modify i (Method.withField direction k (.named id)) := by
  obtain ⟨hdoc, hc⟩ := Contract.resolved_of_validate h
  obtain ⟨hd, hstyle⟩ := exists_validate_iff.1 ⟨c, h⟩
  have hfind : c.scope.find? n = some id := by
    rw [hc.scope, hdoc, find?_scope_eq_some_iff hd.distinct_types]
    exact hn
  have hin : n ∈ d.typeNames := hdoc ▸ hc.mem_typeNames hfind
  refine ⟨ofJson_string_of_free (hd.free_types n hin), fun hs => ?_, hfind, ?_⟩
  -- Only the naming advice, which is an error at the strict level, rules blank names out.
  · exact isBlankText_of_inCamelCase ((hstyle hs).camel_types n hin)
  · exact fun i direction k hk hfree => validate_withField h hfind hk hfree

theorem declared_name_referable_garage :
    garage.validate .strict = .ok garageContract ∧
    garage.declaredName? (.enumeration 0) = some "Color" ∧
    Ty.ofJson (.string "Color") = .ok (.named "Color") ∧
    garageContract.scope.find? "Color" = some (.enumeration 0) ∧
    ∃ c', (garage.withField 0 .request "color" (.named "Color")).validate .strict = .ok c' ∧
      c'.methods = [⟨"find_car", [("owner", .named (.record 1)), ("color", .named (.enumeration 0))],
        [("car", .nullable (.named (.record 0)))]⟩] := by
  have hvalid : garage.validate .strict = .ok garageContract := by decide +kernel
  have hname : garage.declaredName? (.enumeration 0) = some "Color" := rfl
  obtain ⟨hread, hblank, hfind, hfield⟩ := declared_name_referable hvalid hname
  rw [hblank rfl] at hread
  have hfresh : garage.FreshField 0 .request "color" := by
    intro m hm
    cases hm
    decide
  exact ⟨hvalid, hname, hread, hfind, hfield 0 .request "color" hfresh fun _ => by decide⟩

/-- A record without a name. -/
def nameless : Document := ⟨[], [⟨"", [("x", .scalar .integer)]⟩], [⟨"send", [], []⟩]⟩

/-- The contract of `nameless`. -/
def namelessContract : Contract where
  document := nameless
  scope := ⟨[("", .record 0)]⟩
  records := [⟨"", [("x", .scalar .integer)]⟩]
  methods := [⟨"send", [], []⟩]
  warnings := [.ofDeclaration .record "" (.namingConvention "" .camelCase)]

/-- A record without a name is accepted, although no type can refer to it. -/
theorem nameless_accepted : nameless.validate .standard = .ok namelessContract ∧
    nameless.declaredName? (.record 0) = some "" ∧
    Ty.ofJson (.string "") = .fail ⟨[], .blankName⟩ := by
  decide +kernel

end Document
end CallContract
