import CallContract.Proofs.DeclaredNames
import CallContract.Proofs.FindingCodes
import CallContract.Proofs.FirstOccurrences

/-!
# First declarations

A scope is built by declaring enumerations and records one after the other.  After each step it is
the scope of the declarations so far: it lists their names in the order in which they first come up,
and finds the first declaration of a name.  Each declaration either makes the scope larger by one or
is told of, so none gets lost.
-/

namespace CallContract

/-! ## 1. Scopes of declarations -/

/-- The scope lists the names of the declarations, each once and where it comes up first, and finds
the first declaration of a name. -/
structure Scope.IsOf (sc : Scope) (decls : Named DeclId) : Prop where
  names : sc.entries.names = decls.names.eraseDups
  find : ∀ n, sc.find? n = decls.lookup n

theorem eraseDups_names_append (decls : Named DeclId) (n : String) (id : DeclId) :
    (decls ++ [(n, id)]).names.eraseDups =
      decls.names.eraseDups ++ if n ∈ decls.names then [] else [n] := by
  rw [Named.names_append, Named.names_cons, Named.names_nil, eraseDups_concat]

namespace Scope.IsOf

variable {sc sc' : Scope} {before decls : Named DeclId} {n : String} {id existing : DeclId}

theorem empty : Scope.empty.IsOf [] := ⟨rfl, fun _ => rfl⟩

/-- A name that is taken already leaves the scope as it is. -/
theorem taken (h : sc.IsOf before) (hn : before.lookup n = some existing) :
    sc.IsOf (before ++ [(n, id)]) := by
  have hmem : n ∈ before.names := Named.mem_names_iff.2 ⟨existing, Named.mem_of_lookup hn⟩
  constructor
  case names => rw [eraseDups_names_append, if_pos hmem, List.append_nil, h.names]
  case find =>
    intro k
    rw [h.find, Named.lookup_append_of_mem hmem]

/-- A new name goes to the end of the scope. -/
theorem added (h : sc.IsOf before) (hn : before.lookup n = none) :
    Scope.IsOf ⟨sc.entries ++ [(n, id)]⟩ (before ++ [(n, id)]) where
  names := by
    rw [eraseDups_names_append, if_neg (Named.lookup_eq_none_iff.1 hn), Named.names_append, h.names]
    rfl
  find k := by
    have hk : sc.entries.lookup k = before.lookup k := h.find k
    rw [find?, List.lookup_append, List.lookup_append, hk]

theorem declareAll (h : sc.IsOf before) (decls : Named DeclId) :
    (Document.declareAll sc decls).1.IsOf (before ++ decls) := by
  induction decls generalizing sc before with
  | nil =>
    rw [List.append_nil]
    exact h
  | cons entry rest ih =>
    obtain ⟨n, id⟩ := entry
    have hstep : before ++ (n, id) :: rest = (before ++ [(n, id)]) ++ rest := by simp
    rw [hstep]
    cases hn : sc.find? n with
    | some existing =>
      simp only [Document.declareAll, Scope.declare, hn]
      rw [h.find] at hn
      exact ih (h.taken hn)
    | none =>
      simp only [Document.declareAll, Scope.declare, hn]
      rw [h.find] at hn
      exact ih (h.added hn)

end Scope.IsOf

/-! ## 2. Names that are declared again -/

/-- The finding tells of an enumeration or a record whose name is declared already. -/
def Finding.isRepeat (f : Finding) : Bool :=
  match f.location.site, f.defect with
  | .declaration .enumeration _, .duplicateDeclaration _ _ => true
  | .declaration .record _, .duplicateDeclaration _ _ => true
  | _, _ => false

/-- A repetition has the code of names that are declared already. -/
theorem Finding.isRepeat_of_code {f : Finding} (h : f.defect.code ≠ "E002") :
    f.isRepeat = false := by
  obtain ⟨⟨site, route⟩, defect⟩ := f
  cases defect with
  | duplicateDeclaration n existing => exact absurd rfl h
  | _ =>
    cases site with
    | declaration kind n => cases kind <;> rfl
    | _ => rfl

theorem Finding.isRepeat_of_aboutMethods {f : Finding} (h : Document.AboutMethods f) :
    f.isRepeat = false := by
  obtain ⟨⟨site, route⟩, defect⟩ := f
  cases h.2 with
  | inl hsite =>
    cases hsite
    rfl
  | inr hsite =>
    obtain ⟨name, hname⟩ := hsite
    cases hname
    rfl

theorem Finding.isRepeat_ofDeclaration (id : DeclId) (n m : String) (kind : Kind) :
    (Finding.ofDeclaration id.kind n (.duplicateDeclaration m kind)).isRepeat = true := by
  cases id <;> rfl

namespace Document

theorem filter_declaredNameFindings (kind : Kind) (n : String) :
    (declaredNameFindings kind n).filter Finding.isRepeat = [] := by
  unfold declaredNameFindings
  split
  · cases kind <;> rfl
  · split
    · cases kind <;> rfl
    · rfl

/-- Each declaration makes the scope larger by one or is told to be a repetition. -/
theorem size_declareAll (sc : Scope) (decls : Named DeclId) :
    (declareAll sc decls).1.size + ((declareAll sc decls).2.filter Finding.isRepeat).length =
      sc.size + decls.length := by
  induction decls generalizing sc with
  | nil => rfl
  | cons entry rest ih =>
    obtain ⟨n, id⟩ := entry
    cases hn : sc.find? n with
    | some existing =>
      have hrest := ih sc
      simp only [declareAll, Scope.declare, hn]
      rw [List.filter_cons_of_pos (Finding.isRepeat_ofDeclaration id n n existing.kind),
        List.length_cons, List.length_cons]
      omega
    | none =>
      have hrest := ih ⟨sc.entries ++ [(n, id)]⟩
      have hsize : Scope.size ⟨sc.entries ++ [(n, id)]⟩ = sc.size + 1 := by
        simp [Scope.size]
      simp only [declareAll, Scope.declare, hn]
      rw [List.filter_append, filter_declaredNameFindings, List.nil_append, List.length_cons]
      omega

/-- The declaration comes after the first one of its name. -/
def isLater (decls : Named DeclId) (e : String × DeclId) : Bool := decls.lookup e.1 ≠ some e.2

/-- What is told of a later declaration: it is of its own kind, and its name belongs to the first
declaration of the name. -/
def ToldOfLater (decls : Named DeclId) (e : String × DeclId) (f : Finding) : Prop :=
  ∃ first, decls.lookup e.1 = some first ∧
    f = .ofDeclaration e.2.kind e.1 (.duplicateDeclaration e.1 first.kind)

/-- Later declarations are told of one by one. -/
theorem repeats_declareAll {sc : Scope} {before decls all : Named DeclId} (h : sc.IsOf before)
    (hall : all = before ++ decls) (hd : all.Nodup) :
    List.Forall₂ (ToldOfLater all) (decls.filter (isLater all))
      ((declareAll sc decls).2.filter Finding.isRepeat) := by
  induction decls generalizing sc before with
  | nil => exact .nil
  | cons entry rest ih =>
    obtain ⟨n, id⟩ := entry
    have hstep : all = (before ++ [(n, id)]) ++ rest := by simp [hall]
    have hlookup : all.lookup n = (before.lookup n).or (some id) := by
      simp [hall, List.lookup_append]
    cases hn : sc.find? n with
    | some existing =>
      simp only [declareAll, Scope.declare, hn]
      rw [h.find] at hn
      rw [hn, Option.some_or] at hlookup
      -- The first declaration of the name stands before this one, so it is another one.
      have hne : existing ≠ id := by
        intro heq
        have hmem := Named.mem_of_lookup hn
        rw [heq] at hmem
        rw [hall] at hd
        exact List.disjoint_of_nodup_append hd hmem List.mem_cons_self
      have hlater : isLater all (n, id) = true := by
        simp [isLater, hlookup, hne]
      rw [List.filter_cons_of_pos hlater,
        List.filter_cons_of_pos (Finding.isRepeat_ofDeclaration id n n existing.kind)]
      exact .cons ⟨existing, hlookup, rfl⟩ (ih (h.taken hn) hstep)
    | none =>
      simp only [declareAll, Scope.declare, hn]
      rw [h.find] at hn
      rw [hn, Option.none_or] at hlookup
      have hfirst : ¬isLater all (n, id) = true := by
        simp [isLater, hlookup]
      rw [List.filter_cons_of_neg hfirst, List.filter_append, filter_declaredNameFindings,
        List.nil_append]
      exact ih (h.added hn) hstep

/-! ## 3. Documents -/

variable {d : Document}

theorem isOf_scope (d : Document) : d.scope.IsOf d.declarations :=
  Scope.IsOf.empty.declareAll d.declarations

/-- The declarations of a document lie in different places. -/
theorem nodup_declarations (d : Document) : d.declarations.Nodup := by
  have hids {α : Type} (place : Nat → DeclId) (hplace : Function.Injective place)
      (name : α → String) (xs : List α) :
      (xs.mapIdx fun i x => (name x, place i)).Nodup := by
    have hplaces : ((xs.mapIdx fun i x => (name x, place i)).map Prod.snd) =
        (List.range xs.length).map place := by
      apply List.ext_getElem
      · simp
      · simp
    exact .of_map Prod.snd (hplaces ▸ List.nodup_range.map hplace)
  have hapart : List.Disjoint
      (d.enumerations.mapIdx fun i e => (e.name, DeclId.enumeration i))
      (d.records.mapIdx fun i r => (r.name, DeclId.record i)) := by
    intro e he hr
    have ⟨i, _, hi⟩ := List.mem_mapIdx.1 he
    have ⟨j, _, hj⟩ := List.mem_mapIdx.1 hr
    have hsame := congrArg Prod.snd (hi.trans hj.symm)
    cases hsame
  exact (hids _ (fun _ _ => DeclId.enumeration.inj) _ _).append
    (hids _ (fun _ _ => DeclId.record.inj) _ _) hapart

/-- The declarations whose names are declared before, in order. -/
def repeats (d : Document) : Named DeclId := d.declarations.filter (isLater d.declarations)

/-- What a validation tells of names of enumerations and records that are declared again. -/
def repeatsTold (d : Document) (s : Strictness) : List Finding :=
  (report (d.validate s)).findings.filter Finding.isRepeat

theorem repeatsTold_eq (d : Document) (s : Strictness) :
    d.repeatsTold s = d.scopeFindings.filter Finding.isRepeat := by
  have hcode (f : Finding) (hf : f.defect.code ≠ "E002") :
      Option.guard (fun f => Finding.isRepeat f) f = none :=
    Option.guard_eq_none_iff.2 (Finding.isRepeat_of_code hf)
  -- Apart from names of methods, only names of enumerations and records have this code.
  have helsewhere {fs : List Finding} {codes : List String}
      (hfs : ∀ f ∈ fs, f.defect.code ∈ codes) (hcodes : "E002" ∉ codes) :
      fs.filter Finding.isRepeat = [] := by
    rw [← List.filterMap_eq_filter]
    exact filterMap_eq_nil_of_codes hfs hcode hcodes
  have henumerations := helsewhere (code_enumerationFindings d) (by decide)
  have hrecords := helsewhere (code_recordFindings d) (by decide)
  have hmethods := helsewhere (code_methodFindings d) (by decide)
  have hcycles := helsewhere (code_cycleFindings d) (by decide)
  have hnames : d.methodsFindings.filter Finding.isRepeat = [] := by
    rw [List.filter_eq_nil_iff]
    intro f hf
    rw [Finding.isRepeat_of_aboutMethods (aboutMethods_methodsFindings d f hf)]
    exact Bool.false_ne_true
  have hreport := filterMap_report_of_code hcode (by decide) d s
  rw [List.filterMap_eq_filter] at hreport
  rw [repeatsTold, hreport, findings]
  simp only [List.filter_append, henumerations, hrecords, hmethods, hcycles, hnames,
    List.append_nil]

theorem length_declarations (d : Document) :
    d.declarations.length = d.enumerations.length + d.records.length := by
  simp [declarations]

/-- **The first declaration of a name keeps it, and no declaration gets lost.**  A scope lists the
names of all enumerations and then of all records, each where it first comes up, and finds the first
enumeration of a name or else the first record.  Every later declaration is told of once, in order,
so there are as many declarations as names in the scope and repetitions together. -/
theorem first_declarations_kept (d : Document) (s : Strictness) :
    d.scope.entries.names = d.typeNames.eraseDups ∧
    (∀ n, d.scope.find? n = ((d.enumerations.findIdx? fun e => e.name = n).map .enumeration).or
      ((d.records.findIdx? fun r => r.name = n).map .record)) ∧
    List.Forall₂ (ToldOfLater d.declarations) d.repeats (d.repeatsTold s) ∧
    d.scope.size + (d.repeatsTold s).length = d.enumerations.length + d.records.length ∧
    ∀ c, d.validate s = .ok c → c.scope = d.scope := by
  have hnames := (isOf_scope d).names
  rw [names_declarations] at hnames
  have hrepeats := repeats_declareAll Scope.IsOf.empty rfl (nodup_declarations d)
  have hsize := size_declareAll .empty d.declarations
  rw [repeatsTold_eq]
  refine ⟨hnames, find?_scope_eq_or d, hrepeats, ?_, ?_⟩
  · have hempty : Scope.empty.size = 0 := rfl
    rw [hempty, Nat.zero_add, length_declarations] at hsize
    exact hsize
  · intro c hc
    have ⟨_, _, _, _, _, heq⟩ := validate_eq_ok_iff.1 hc
    rw [heq]
    rfl

end Document
end CallContract
