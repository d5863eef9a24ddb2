import CallContract.Proofs.FindingCodes
import CallContract.Proofs.ReorderedTypes

/-!
# Undeclared names

The names in the types of a document with their locations, in the order in which they stand there.
A validation tells of every one of them that neither an enumeration nor a record has, once and in
this order, and if there is none every type is resolved.
-/

namespace CallContract

/-- A name in a type, and the location that it is in. -/
structure Mention where
  location : Location
  name : String
  deriving DecidableEq, Repr

/-! ## 1. Names in types -/

namespace Ty

variable {ν : Type}

mutual

/-- The names in a type with the routes to them, from left to right. -/
def mentions : Ty ν → List (Routed ν)
  | .scalar _ => []
  | .named n => [⟨[], n⟩]
  | .nullable t => t.mentions
  | .array t => t.mentions.map (.below .element)
  | .union ts => mentionsList ts
  | .object fs => mentionsFields fs

def mentionsList : List (Ty ν) → List (Routed ν)
  | [] => []
  | t :: rest => t.mentions ++ mentionsList rest

def mentionsFields : Fields ν → List (Routed ν)
  | [] => []
  | (k, t) :: rest => t.mentions.map (.below (.field k)) ++ mentionsFields rest

end

/-- The route leads to the name: it goes through the fields of objects and into the elements of
arrays, and takes no step for a union or a nullable type. -/
inductive NamedAt : Ty ν → Route → ν → Prop
  | named (n : ν) : NamedAt (.named n) [] n
  | nullable {t : Ty ν} {r : Route} {n : ν} : NamedAt t r n → NamedAt (.nullable t) r n
  | array {t : Ty ν} {r : Route} {n : ν} : NamedAt t r n → NamedAt (.array t) (.element :: r) n
  | union {t : Ty ν} {ts : List (Ty ν)} {r : Route} {n : ν} :
      t ∈ ts → NamedAt t r n → NamedAt (.union ts) r n
  | object {k : String} {t : Ty ν} {fs : Fields ν} {r : Route} {n : ν} :
      (k, t) ∈ fs → NamedAt t r n → NamedAt (.object fs) (.field k :: r) n

theorem mentionsList_eq (ts : List (Ty ν)) : mentionsList ts = ts.flatMap mentions := by
  induction ts with
  | nil => rfl
  | cons t rest ih => rw [mentionsList, ih, List.flatMap_cons]

theorem mentionsFields_eq (fs : Fields ν) :
    mentionsFields fs = fs.flatMap fun f => f.2.mentions.map (.below (.field f.1)) := by
  induction fs with
  | nil => rfl
  | cons f rest ih => rw [mentionsFields, ih, List.flatMap_cons]

/-- Seen from further out the names stay what they are. -/
theorem map_what_below (step : Step) (ms : List (Routed ν)) :
    (ms.map (Routed.below step)).map Routed.what = ms.map Routed.what := by
  rw [List.map_map]
  rfl

/-- Without their routes the names are the references of the type. -/
theorem map_what_mentions (t : Ty ν) : t.mentions.map (·.what) = t.references := by
  induction t with
  | scalar s => rfl
  | named n => rfl
  | nullable t ih => exact ih
  | array t ih => rw [mentions, map_what_below, ih, references]
  | union ts ih =>
    rw [mentions, mentionsList_eq, List.map_flatMap, references, referencesList_eq]
    exact List.flatMap_congr ih
  | object fs ih =>
    rw [mentions, mentionsFields_eq, List.map_flatMap, references, referencesFields_eq]
    apply List.flatMap_congr
    intro f hf
    rw [map_what_below]
    exact ih f.1 f.2 hf

theorem mem_mentions_iff {t : Ty ν} {m : Routed ν} : m ∈ t.mentions ↔ t.NamedAt m.route m.what := by
  induction t generalizing m with
  | scalar s =>
    constructor
    · intro h
      cases h
    · intro h
      cases h
  | named n =>
    rw [mentions, List.mem_singleton]
    constructor
    · intro h
      rw [h]
      exact .named n
    · intro h
      obtain ⟨route, what⟩ := m
      cases h
      rfl
  | nullable t ih =>
    rw [mentions, ih]
    constructor
    · exact .nullable
    · intro h
      cases h with
      | nullable h => exact h
  | array t ih =>
    rw [mentions, List.mem_map]
    constructor
    · intro ⟨m', hm', heq⟩
      rw [← heq]
      exact .array (ih.1 hm')
    · intro h
      obtain ⟨route, what⟩ := m
      cases h with
      | @array _ r _ h => exact ⟨⟨r, what⟩, ih.2 h, rfl⟩
  | union ts ih =>
    rw [mentions, mentionsList_eq, List.mem_flatMap]
    constructor
    · intro ⟨t, ht, hm⟩
      exact .union ht ((ih t ht).1 hm)
    · intro h
      cases h with
      | union ht h => exact ⟨_, ht, (ih _ ht).2 h⟩
  | object fs ih =>
    rw [mentions, mentionsFields_eq, List.mem_flatMap]
    constructor
    · intro ⟨f, hf, hm⟩
      obtain ⟨m', hm', heq⟩ := List.mem_map.1 hm
      rw [← heq]
      exact .object hf ((ih f.1 f.2 hf).1 hm')
    · intro h
      obtain ⟨route, what⟩ := m
      cases h with
      | @object k t _ r _ hf h =>
        exact ⟨(k, t), hf, List.mem_map.2 ⟨⟨r, what⟩, (ih k t hf).2 h, rfl⟩⟩

end Ty

/-! ## 2. Names in documents -/

/-- The names in the fields at the end of a route from a site. -/
def Fields.mentions (site : Site) (route : Route) (fs : Fields String) : List Mention :=
  (Ty.mentionsFields fs).map fun m => ⟨⟨site, route ++ m.route⟩, m.what⟩

def Record.mentions (r : Record String) : List Mention :=
  Fields.mentions (.declaration .record r.name) [] r.fields

def Method.mentions (m : Method String) : List Mention :=
  let side (d : Direction) :=
    Fields.mentions (.declaration .method m.name) [.field d.key] (m.fields d)
  side .request ++ side .response

theorem Fields.map_name_mentions (site : Site) (route : Route) (fs : Fields String) :
    (fs.mentions site route).map (·.name) = Ty.referencesFields fs := by
  have hobject : (Ty.mentionsFields fs).map (·.what) = Ty.referencesFields fs :=
    Ty.map_what_mentions (.object fs)
  rw [mentions, List.map_map, ← hobject]
  rfl

/-- What stands at the end of a route from a site is named there by one of the fields. -/
theorem Fields.mem_mentions_iff {site : Site} {route : Route} {fs : Fields String} {m : Mention} :
    m ∈ fs.mentions site route ↔
      ∃ r n, (Ty.object fs).NamedAt r n ∧ m = ⟨⟨site, route ++ r⟩, n⟩ := by
  have hobject {x : Routed String} :
      x ∈ Ty.mentionsFields fs ↔ (Ty.object fs).NamedAt x.route x.what :=
    Ty.mem_mentions_iff (t := .object fs)
  rw [mentions, List.mem_map]
  constructor
  · intro ⟨x, hx, heq⟩
    exact ⟨x.route, x.what, hobject.1 hx, heq.symm⟩
  · intro ⟨r, n, hn, heq⟩
    exact ⟨⟨r, n⟩, hobject.2 hn, heq.symm⟩

theorem Method.mem_mentions_iff {x : Method String} {m : Mention} :
    m ∈ x.mentions ↔ ∃ direction r n, (Ty.object (x.fields direction)).NamedAt r n ∧
      m = ⟨⟨.declaration .method x.name, .field direction.key :: r⟩, n⟩ := by
  rw [mentions, List.mem_append, Fields.mem_mentions_iff, Fields.mem_mentions_iff]
  constructor
  · intro h
    cases h with
    | inl h => exact ⟨.request, h⟩
    | inr h => exact ⟨.response, h⟩
  · intro ⟨direction, h⟩
    cases direction with
    | request => exact .inl h
    | response => exact .inr h

namespace Document

/-- The names in the types of all records and then of all methods. -/
def mentions (d : Document) : List Mention :=
  d.records.flatMap Record.mentions ++ d.methods.flatMap Method.mentions

/-- What the types of the fields refer to, in all records and then in all methods. -/
def references (d : Document) : List String :=
  d.records.flatMap (fun r => Ty.referencesFields r.fields) ++
    d.methods.flatMap fun m => Ty.referencesFields m.request ++ Ty.referencesFields m.response

/-- A type in the document has the name at the location: the location starts from a record, or from
a method and one of its directions, and goes on through a field as `Ty.NamedAt` tells. -/
inductive Mentions (d : Document) : Mention → Prop
  | record {r : Record String} {route : Route} {n : String} : r ∈ d.records →
      (Ty.object r.fields).NamedAt route n →
      Mentions d ⟨⟨.declaration .record r.name, route⟩, n⟩
  | method {m : Method String} {direction : Direction} {route : Route} {n : String} :
      m ∈ d.methods → (Ty.object (m.fields direction)).NamedAt route n →
      Mentions d ⟨⟨.declaration .method m.name, .field direction.key :: route⟩, n⟩

theorem map_name_mentions (d : Document) : d.mentions.map (·.name) = d.references := by
  have hrecords (r : Record String) : r.mentions.map (·.name) = Ty.referencesFields r.fields :=
    Fields.map_name_mentions _ _ r.fields
  have hmethods (m : Method String) : m.mentions.map (·.name) =
      Ty.referencesFields m.request ++ Ty.referencesFields m.response := by
    rw [Method.mentions, List.map_append, Fields.map_name_mentions, Fields.map_name_mentions]
    rfl
  rw [mentions, List.map_append, List.map_flatMap, List.map_flatMap, references]
  simp only [hrecords, hmethods]

theorem forall_mem_references {d : Document} {P : String → Prop} :
    (∀ n ∈ d.references, P n) ↔ ∀ fs ∈ d.fieldLists, ∀ n ∈ Ty.referencesFields fs, P n := by
  rw [references, List.forall_mem_append, List.forall_mem_flatMap, List.forall_mem_flatMap,
    fieldLists, forall_mem_fieldsOfAll]
  simp only [List.forall_mem_append]

theorem mem_mentions_iff {d : Document} {m : Mention} : m ∈ d.mentions ↔ d.Mentions m := by
  rw [mentions, List.mem_append, List.mem_flatMap, List.mem_flatMap]
  constructor
  · intro h
    cases h with
    | inl h =>
      have ⟨r, hr, hm⟩ := h
      have ⟨route, n, hn, heq⟩ := Fields.mem_mentions_iff.1 hm
      rw [heq]
      exact .record hr hn
    | inr h =>
      have ⟨x, hx, hm⟩ := h
      rw [Method.mem_mentions_iff] at hm
      have ⟨direction, route, n, hn, heq⟩ := hm
      rw [heq]
      exact .method hx hn
  · intro h
    cases h with
    | record hr hn => exact .inl ⟨_, hr, Fields.mem_mentions_iff.2 ⟨_, _, hn, rfl⟩⟩
    | method hx hn => exact .inr ⟨_, hx, Method.mem_mentions_iff.2 ⟨_, _, _, hn, rfl⟩⟩

end Document

/-! ## 3. Undeclared names -/

/-- The name that a finding tells to be undeclared, with its location. -/
def Finding.undeclared? (f : Finding) : Option Mention :=
  match f.defect with
  | .unresolvedReference n => some ⟨f.location, n⟩
  | _ => none

/-- The name that a defect tells to be undeclared, with its route. -/
def Routed.undeclared? (x : Routed Defect) : Option (Routed String) :=
  match x.what with
  | .unresolvedReference n => some ⟨x.route, n⟩
  | _ => none

namespace Ty

variable {s : Scope}

theorem filterMap_undeclared?_below (step : Step) (xs : List (Routed Defect)) :
    (xs.map (Routed.below step)).filterMap Routed.undeclared? =
      (xs.filterMap Routed.undeclared?).map (Routed.below step) := by
  rw [List.filterMap_map, List.map_filterMap]
  apply List.filterMap_congr
  intro x _
  obtain ⟨route, what⟩ := x
  cases what <;> rfl

theorem filterMap_fieldNameDefects (seen : List String) (n : String) :
    (fieldNameDefects seen n).filterMap Routed.undeclared? = [] := by
  unfold fieldNameDefects
  split <;> split <;> rfl

/-- Fields have the undeclared names of their types, whatever is wrong with their own names. -/
theorem filterMap_fieldDefects {seen : List String} {fs : Fields String}
    (h : ∀ k t, (k, t) ∈ fs → (t.defects s).filterMap Routed.undeclared? =
      t.mentions.filter fun m => !s.contains m.what) :
    (fieldDefects s seen fs).filterMap Routed.undeclared? =
      (mentionsFields fs).filter fun m => !s.contains m.what := by
  induction fs generalizing seen with
  | nil => rfl
  | cons f rest ih =>
    obtain ⟨k, t⟩ := f
    have hrest (k' t') (ht : (k', t') ∈ rest) := h k' t' (List.mem_cons_of_mem _ ht)
    rw [fieldDefects, List.filterMap_append, ih hrest, filterMap_undeclared?_below,
      List.filterMap_append, filterMap_fieldNameDefects, List.nil_append,
      h k t List.mem_cons_self, mentionsFields, List.filter_append, List.filter_map]
    rfl

/-- The defects of a type tell of its names that are not in scope, and of no other name. -/
theorem filterMap_defects (s : Scope) (t : Ty String) :
    (t.defects s).filterMap Routed.undeclared? =
      t.mentions.filter fun m => !s.contains m.what := by
  induction t with
  | scalar _ => rfl
  | named n =>
    by_cases hn : s.contains n = true
    · simp [defects, mentions, hn]
    · simp [defects, mentions, hn, Routed.undeclared?]
  | nullable t ih => exact ih
  | array t ih =>
    rw [defects, mentions, filterMap_undeclared?_below, ih, List.filter_map]
    rfl
  | union ts ih =>
    rw [defects, listDefects_eq, List.filterMap_flatMap, mentions, mentionsList_eq,
      List.filter_flatMap]
    exact List.flatMap_congr ih
  | object fs ih => exact filterMap_fieldDefects ih

end Ty

/-- The names that are not in scope, with their locations. -/
def Scope.undeclared (sc : Scope) (ms : List Mention) : List Mention :=
  ms.filter fun m => !sc.contains m.name

section

variable {sc : Scope}

theorem Scope.undeclared_append (sc : Scope) (a b : List Mention) :
    sc.undeclared (a ++ b) = sc.undeclared a ++ sc.undeclared b :=
  List.filter_append a b

theorem Scope.undeclared_flatMap {α : Type} (sc : Scope) (xs : List α) (f : α → List Mention) :
    sc.undeclared (xs.flatMap f) = xs.flatMap fun x => sc.undeclared (f x) :=
  List.filter_flatMap

theorem Fields.filterMap_findings (site : Site) (route : Route) (fs : Fields String) :
    (fs.findings sc site route).filterMap Finding.undeclared? =
      sc.undeclared (fs.mentions site route) := by
  have hfields : (Ty.fieldDefects sc [] fs).filterMap Routed.undeclared? =
      (Ty.mentionsFields fs).filter fun m => !sc.contains m.what :=
    Ty.filterMap_defects sc (.object fs)
  -- A finding tells of the name that its defect tells of, seen from the site.
  have hplaced (x : Routed Defect) :
      Finding.undeclared? (.ofDefect site ⟨route ++ x.route, x.what⟩) =
        x.undeclared?.map fun m => ⟨⟨site, route ++ m.route⟩, m.what⟩ := by
    obtain ⟨r, what⟩ := x
    cases what <;> rfl
  calc (fs.findings sc site route).filterMap Finding.undeclared?
    _ = (Ty.fieldDefects sc [] fs).filterMap fun x =>
          x.undeclared?.map fun m => (⟨⟨site, route ++ m.route⟩, m.what⟩ : Mention) := by
      rw [findings, List.filterMap_map]
      exact List.filterMap_congr fun x _ => hplaced x
    _ = ((Ty.mentionsFields fs).filter fun m => !sc.contains m.what).map fun m =>
          ⟨⟨site, route ++ m.route⟩, m.what⟩ := by
      rw [← hfields, List.map_filterMap]
    _ = sc.undeclared (fs.mentions site route) := by
      rw [mentions, Scope.undeclared, List.filter_map]
      rfl

theorem Record.filterMap_findings (r : Record String) :
    (r.findings sc).filterMap Finding.undeclared? = sc.undeclared r.mentions :=
  Fields.filterMap_findings _ _ r.fields

theorem Method.filterMap_findings (m : Method String) :
    (m.findings sc).filterMap Finding.undeclared? = sc.undeclared m.mentions := by
  rw [findings, List.filterMap_append, Fields.filterMap_findings, Fields.filterMap_findings,
    mentions, Scope.undeclared_append]

end

/-- Undeclared names have a code of their own. -/
theorem Finding.undeclared?_eq_none {f : Finding} (h : f.defect.code ≠ "E004") :
    f.undeclared? = none := by
  obtain ⟨location, defect⟩ := f
  cases defect with
  | unresolvedReference n => exact absurd rfl h
  | _ => rfl

namespace Document

variable {d : Document}

theorem filterMap_findings (d : Document) :
    d.findings.filterMap Finding.undeclared? = d.scope.undeclared d.mentions := by
  -- Only the groups about fields have the code of undeclared names.
  have helsewhere {fs : List Finding} {codes : List String}
      (hfs : ∀ f ∈ fs, f.defect.code ∈ codes) (hcodes : "E004" ∉ codes) :
      fs.filterMap Finding.undeclared? = [] :=
    filterMap_eq_nil_of_codes hfs (fun _ => Finding.undeclared?_eq_none) hcodes
  have hscope := helsewhere (code_scopeFindings d) (by decide)
  have henumerations := helsewhere (code_enumerationFindings d) (by decide)
  have hnames := helsewhere (fun f hf => (aboutMethods_methodsFindings d f hf).1) (by decide)
  have hcycles := helsewhere (code_cycleFindings d) (by decide)
  have hrecords : (d.records.flatMap (Record.findings d.scope)).filterMap Finding.undeclared? =
      d.scope.undeclared (d.records.flatMap Record.mentions) := by
    rw [List.filterMap_flatMap, Scope.undeclared_flatMap]
    exact List.flatMap_congr fun r _ => r.filterMap_findings
  have hmethods : (d.methods.flatMap (Method.findings d.scope)).filterMap Finding.undeclared? =
      d.scope.undeclared (d.methods.flatMap Method.mentions) := by
    rw [List.filterMap_flatMap, Scope.undeclared_flatMap]
    exact List.flatMap_congr fun m _ => m.filterMap_findings
  simp only [findings, List.filterMap_append, hscope, henumerations, hrecords, hnames, hmethods,
    hcycles, List.nil_append, List.append_nil]
  rw [mentions, Scope.undeclared_append]

theorem undeclared_scope (d : Document) (ms : List Mention) :
    d.scope.undeclared ms = ms.filter fun m => m.name ∉ d.typeNames := by
  apply List.filter_congr
  intro m _
  by_cases hm : m.name ∈ d.typeNames
  · simp [hm, contains_scope_iff.2 hm]
  · simp [hm, mt contains_scope_iff.1 hm]

/-- The names that a validation tells to be undeclared, in the order of its findings. -/
def undeclaredTold (d : Document) (s : Strictness) : List Mention :=
  (report (d.validate s)).findings.filterMap Finding.undeclared?

theorem undeclaredTold_eq (d : Document) (s : Strictness) :
    d.undeclaredTold s = d.mentions.filter fun m => m.name ∉ d.typeNames := by
  have hreport := filterMap_report_of_code (fun _ => Finding.undeclared?_eq_none) (by decide) d s
  rw [undeclaredTold, hreport, filterMap_findings, undeclared_scope]

/-- Nothing is told to be undeclared exactly if all types of all fields are resolved. -/
theorem undeclaredTold_eq_nil_iff {s : Strictness} : d.undeclaredTold s = [] ↔
    (∃ records, d.records.mapM (Record.resolve? d.scope) = some records) ∧
      ∃ methods, d.methods.mapM (Method.resolve? d.scope) = some methods := by
  -- Nothing is left of the references exactly if all of them are declared.
  have htold : d.undeclaredTold s = [] ↔ ∀ n ∈ d.references, n ∈ d.typeNames := by
    rw [undeclaredTold_eq, ← map_name_mentions, List.forall_mem_map, List.filter_eq_nil_iff]
    simp
  rw [htold, ← Option.isSome_iff_exists, ← Option.isSome_iff_exists, isSome_resolve_iff,
    forall_mem_references]
  refine forall₂_congr fun fs _ => forall_congr' fun n => ?_
  exact imp_congr_left (Ty.mem_references_iff (t := .object fs))

/-- **Undeclared names are told of, each time and in order.**  What a validation tells to be
undeclared are the references of a document that no enumeration and no record has the name of, in
the order of the references, and each is told of where it is.  If nothing is told all types are
resolved, whatever else may be wrong with the document. -/
theorem undeclared_names_told (d : Document) (s : Strictness) :
    (d.undeclaredTold s).map (·.name) = d.references.filter (· ∉ d.typeNames) ∧
    d.undeclaredTold s = d.mentions.filter (fun m => m.name ∉ d.typeNames) ∧
    d.mentions.map (·.name) = d.references ∧ (∀ m, m ∈ d.mentions ↔ d.Mentions m) ∧
    (d.undeclaredTold s = [] ↔
      (∃ records, d.records.mapM (Record.resolve? d.scope) = some records) ∧
        ∃ methods, d.methods.mapM (Method.resolve? d.scope) = some methods) := by
  have hnames : (d.undeclaredTold s).map (·.name) = d.references.filter (· ∉ d.typeNames) := by
    rw [undeclaredTold_eq, ← map_name_mentions, List.filter_map]
    rfl
  exact ⟨hnames, undeclaredTold_eq d s, map_name_mentions d, fun _ => mem_mentions_iff,
    undeclaredTold_eq_nil_iff⟩

/-- Names in unions, arrays, objects and both directions, one of them declared and one twice. -/
example :
    let lid : Ty String := .union [.named "Lid", .array (.nullable (.named "Nail")), .named "Box"]
    let box : Record String := ⟨"Box", [("lid", lid)]⟩
    let make : Method String :=
      ⟨"make", [("box", .named "Crate")], [("parts", .object [("lid", lid)])]⟩
    ((⟨[], [box], [make]⟩ : Document).undeclaredTold .standard).map
        (fun m => (m.location.text, m.name)) =
      [("objects.Box.lid", "Lid"), ("objects.Box.lid[]", "Nail"),
        ("methods.make.request.box", "Crate"), ("methods.make.response.parts.lid", "Lid"),
        ("methods.make.response.parts.lid[]", "Nail")] := by
  decide +kernel

end Document
end CallContract
