import CallContract.Proofs.FindingCodes
import CallContract.Proofs.FirstOccurrences
import CallContract.Proofs.HoldingCycles
import CallContract.Proofs.RelatedLists
import Mathlib.Data.List.ReduceOption

/-!
# Findings about members

The members of an enumeration are looked at one after the other.  What is told of a member can be
read off the members before it (`memberDefect?`), without the names and strings that are kept along
the way.  An enumeration without errors gives each of its strings to a first member, and every other
member is told to repeat one, so no member is left out of its values unnoticed.
-/

namespace CallContract

/-- The defect is advice on a string that an earlier member has. -/
def Defect.isDuplicateValue : Defect → Bool
  | .duplicateEnumValue _ _ => true
  | _ => false

namespace Enumeration

variable {before members : Named String} {n v w : String}

/-! ## 1. Holders of strings -/

/-- The first member with a string. Members whose names were used before do not count. -/
def holder? (before : Named String) (v : String) : Option String :=
  (before.firsts.find? fun m => m.2 = v).map (·.1)

theorem holder?_append_of_mem (hn : n ∈ before.names) :
    holder? (before ++ [(n, v)]) w = holder? before w := by
  rw [holder?, Named.firsts_append_of_mem hn, holder?]

theorem holder?_append_of_notMem (hn : n ∉ before.names) :
    holder? (before ++ [(n, v)]) w = (holder? before w).or (if v = w then some n else none) := by
  rw [holder?, Named.firsts_append_of_notMem hn, List.find?_append, Option.map_or, holder?]
  by_cases hv : v = w
  · simp [hv]
  · simp [hv]

/-! ## 2. Members in turn -/

/-- What is to be told of a member, given the members before it. -/
def memberDefect? (before : Named String) (m : String × String) : Option Defect :=
  if m.1 ∈ before.names then some (.duplicateKey m.1)
  else if m.2 = "" then some .emptyEnumValue
  else (holder? before m.2).map (.duplicateEnumValue m.2)

theorem memberDefect?_of_mem (hn : n ∈ before.names) :
    memberDefect? before (n, v) = some (.duplicateKey n) := if_pos hn

theorem memberDefect?_of_empty (hn : n ∉ before.names) :
    memberDefect? before (n, "") = some .emptyEnumValue := by
  rw [memberDefect?, if_neg hn, if_pos rfl]

theorem memberDefect?_of_ne_empty (hn : n ∉ before.names) (hv : v ≠ "") :
    memberDefect? before (n, v) = (holder? before v).map (.duplicateEnumValue v) := by
  rw [memberDefect?, if_neg hn, if_neg hv]

/-- What is to be told of members, each looked at with all members before it. -/
def memberDefects (members : Named String) : List (Routed Defect) :=
  (members.mapIdx fun i m =>
    (memberDefect? (members.take i) m).map fun x => ⟨[.field m.1], x⟩).reduceOption

theorem memberDefects_concat (members : Named String) (m : String × String) :
    memberDefects (members ++ [m]) = memberDefects members ++
      ((memberDefect? members m).map fun x => ⟨[.field m.1], x⟩).toList := by
  -- What stands before a member does not hang on what comes after it.
  have hbefore : (members.mapIdx fun i k => (memberDefect? ((members ++ [m]).take i) k).map
        fun x => (⟨[.field k.1], x⟩ : Routed Defect)) =
      members.mapIdx fun i k => (memberDefect? (members.take i) k).map
        fun x => ⟨[.field k.1], x⟩ := by
    rw [List.mapIdx_eq_mapIdx_iff]
    intro i hi
    rw [List.take_append_of_le_length (Nat.le_of_lt hi)]
  rw [memberDefects, List.mapIdx_concat, hbefore, List.take_left, List.reduceOption_append,
    memberDefects]
  cases memberDefect? members m <;> rfl

/-- The names and the holders of strings that are kept along the way are those of the members so
far. -/
structure Keeps (seen : List String) (first before : Named String) : Prop where
  names : ∀ n, n ∈ seen ↔ n ∈ before.names
  holders : ∀ v, v ≠ "" → first.lookup v = holder? before v

namespace Keeps

variable {seen : List String} {first : Named String}

theorem nothing : Keeps [] [] [] where
  names n := by simp
  holders v _ := by simp [holder?, Named.firsts]

/-- A member whose name was used before changes nothing. -/
theorem again (h : Keeps seen first before) (hn : n ∈ before.names) :
    Keeps seen first (before ++ [(n, v)]) where
  names k := by
    rw [h.names, Named.names_append, List.mem_append, Named.names_cons, Named.names_nil,
      List.mem_singleton]
    exact ⟨.inl, fun hk => hk.elim id fun heq => heq ▸ hn⟩
  holders w hw := by rw [h.holders w hw, holder?_append_of_mem hn]

/-- A new name is kept, and so is its string unless it is empty or has a holder. -/
theorem new {first' : Named String} (h : Keeps seen first before) (hn : n ∉ before.names)
    (hfirst : ∀ w, w ≠ "" →
      first'.lookup w = (first.lookup w).or (if v = w then some n else none)) :
    Keeps (n :: seen) first' (before ++ [(n, v)]) where
  names k := by
    rw [List.mem_cons, h.names, Named.names_append, List.mem_append, Named.names_cons,
      Named.names_nil, List.mem_singleton]
    exact or_comm
  holders w hw := by rw [hfirst w hw, h.holders w hw, holder?_append_of_notMem hn]

end Keeps

/-- What the members that are left are told, whatever is kept along the way, is what they are told
beside the members before them. -/
theorem memberFindings_eq {seen : List String} {first : Named String} (h : Keeps seen first before)
    (members : Named String) :
    memberDefects before ++ memberFindings seen first members =
      memberDefects (before ++ members) := by
  induction members generalizing before seen first with
  | nil => rw [memberFindings, List.append_nil, List.append_nil]
  | cons m rest ih =>
    obtain ⟨n, v⟩ := m
    have hstep : before ++ (n, v) :: rest = (before ++ [(n, v)]) ++ rest := by simp
    rw [hstep, memberFindings]
    by_cases hn : n ∈ before.names
    · rw [if_pos ((h.names n).2 hn), ← ih (h.again hn), memberDefects_concat,
        memberDefect?_of_mem hn, List.append_assoc]
      rfl
    · rw [if_neg (mt (h.names n).1 hn)]
      by_cases hv : v = ""
      · subst hv
        have hkeeps : Keeps (n :: seen) first (before ++ [(n, "")]) := by
          refine h.new hn fun w hw => ?_
          rw [if_neg (Ne.symm hw), Option.or_none]
        rw [if_pos rfl, ← ih hkeeps, memberDefects_concat, memberDefect?_of_empty hn,
          List.append_assoc]
        rfl
      · have htold := memberDefect?_of_ne_empty hn hv
        rw [if_neg hv]
        cases hfirst : first.lookup v with
        | some holder =>
          have hholder : holder? before v = some holder := by rw [← h.holders v hv, hfirst]
          -- The string has a holder already, so looking strings up stays the same.
          have hkeeps : Keeps (n :: seen) first (before ++ [(n, v)]) := by
            refine h.new hn fun w hw => ?_
            by_cases hvw : v = w
            · rw [← hvw, hfirst, Option.some_or]
            · rw [if_neg hvw, Option.or_none]
          rw [← ih hkeeps, memberDefects_concat, htold, hholder, List.append_assoc]
          rfl
        | none =>
          have hholder : holder? before v = none := by rw [← h.holders v hv, hfirst]
          have hkeeps : Keeps (n :: seen) ((v, n) :: first) (before ++ [(n, v)]) := by
            refine h.new hn fun w hw => ?_
            by_cases hvw : v = w
            · rw [← hvw, hfirst, List.lookup_cons_self, Option.none_or, if_pos rfl]
            · rw [List.lookup_cons, beq_false_of_ne (Ne.symm hvw), if_neg hvw, Option.or_none]
          rw [← ih hkeeps, memberDefects_concat, htold, hholder, List.append_assoc]
          rfl

theorem findings_eq_memberDefects (e : Enumeration) : e.findings =
    (memberDefects e.members).map (.ofDefect (.declaration .enumeration e.name)) := by
  have hnothing : memberDefects [] = [] := rfl
  have hall := memberFindings_eq Keeps.nothing e.members
  rw [hnothing, List.nil_append, List.nil_append] at hall
  rw [findings, hall]

/-! ## 3. Values -/

/-- Where no name is used twice every string has a holder. -/
theorem holder?_isSome_iff (hmembers : members.firsts = members) :
    (holder? members v).isSome ↔ v ∈ members.map (·.2) := by
  rw [holder?, hmembers, Option.isSome_map, List.find?_isSome, List.mem_map]
  simp

/-- A member is one that first gives its string, or it is told to repeat one. -/
theorem length_eq_values_add (hkeys : ∀ x ∈ memberDefects members, ∀ k, x.what ≠ .duplicateKey k)
    (hstrings : ∀ x ∈ memberDefects members, x.what ≠ .emptyEnumValue) :
    members.firsts = members ∧ members.length = (members.map (·.2)).eraseDups.length +
      (memberDefects members).countP fun x => x.what.isDuplicateValue := by
  induction members using List.reverseRecOn with
  | nil => exact ⟨by simp [Named.firsts], rfl⟩
  | append_singleton members m ih =>
    obtain ⟨n, v⟩ := m
    rw [memberDefects_concat, List.forall_mem_append] at hkeys hstrings
    obtain ⟨hfirsts, hlength⟩ := ih hkeys.1 hstrings.1
    have hn : n ∉ Named.names members := by
      intro hn
      rw [memberDefect?_of_mem hn] at hkeys
      exact hkeys.2 _ (List.mem_singleton_self _) n rfl
    have hv : v ≠ "" := by
      intro hv
      rw [hv, memberDefect?_of_empty hn] at hstrings
      exact hstrings.2 _ (List.mem_singleton_self _) rfl
    refine ⟨by rw [Named.firsts_append_of_notMem hn, hfirsts], ?_⟩
    rw [memberDefects_concat, List.countP_append, List.length_append, hlength, List.map_append,
      List.map_singleton, eraseDups_concat, List.length_append, memberDefect?_of_ne_empty hn hv]
    have hsome := holder?_isSome_iff (v := v) hfirsts
    cases hholder : holder? members v with
    | some holder =>
      rw [hholder] at hsome
      rw [if_pos (hsome.1 rfl)]
      rfl
    | none =>
      rw [hholder] at hsome
      rw [if_neg fun hin => Bool.false_ne_true (hsome.2 hin)]
      exact Nat.add_right_comm _ _ 1

/-- The strings of an enumeration are those of its members, each once and in the order in which
they first come up. -/
theorem values_in_order (e : Enumeration) : e.values.Nodup ∧
    (∀ v, v ∈ e.values ↔ ∃ n, (n, v) ∈ e.members) ∧
    e.values.Pairwise fun v w => (e.members.map (·.2)).idxOf v < (e.members.map (·.2)).idxOf w := by
  refine ⟨nodup_eraseDups _, fun v => ?_, pairwise_eraseDups _⟩
  rw [values, List.mem_eraseDups, List.mem_map]
  constructor
  · rintro ⟨m, hm, hv⟩
    exact ⟨m.1, hv ▸ hm⟩
  · rintro ⟨n, hm⟩
    exact ⟨(n, v), hm, rfl⟩

/-- What is told of the members of an enumeration, each looked at with all members before it. -/
def told (e : Enumeration) : List Finding :=
  (memberDefects e.members).map (.ofDefect (.declaration .enumeration e.name))

end Enumeration

/-! ## 4. Reports -/

/-- The finding lies at a member of an enumeration. -/
def Finding.isAtMember (f : Finding) : Bool :=
  match f.location with
  | ⟨.declaration .enumeration _, _ :: _⟩ => true
  | _ => false

theorem Finding.isAtMember_of_route {f : Finding} (h : f.location.route = []) :
    f.isAtMember = false := by
  obtain ⟨⟨site, route⟩, defect⟩ := f
  cases h
  unfold isAtMember
  split
  · rename_i heq
    cases heq
  · rfl

theorem Finding.isAtMember_of_site {f : Finding} {site : Site} (h : f.location.site = site)
    (hsite : ∀ n, site ≠ .declaration .enumeration n) : f.isAtMember = false := by
  unfold isAtMember
  split
  · rename_i n _ _ heq
    exact absurd (h.symm.trans (congrArg Location.site heq)) (hsite n)
  · rfl

theorem Enumeration.isAtMember_told (e : Enumeration) : ∀ f ∈ e.told, f.isAtMember = true := by
  rw [told, List.forall_mem_map]
  intro x hx
  rw [memberDefects, List.reduceOption_mem_iff, List.mem_mapIdx] at hx
  obtain ⟨i, hi, hx⟩ := hx
  obtain ⟨defect, -, rfl⟩ := Option.map_eq_some_iff.1 hx
  rfl

namespace Document

/-- Names of declarations are told of at the declarations themselves. -/
theorem route_declareAll {sc : Scope} {decls : Named DeclId} :
    ∀ f ∈ (declareAll sc decls).2, f.location.route = [] := by
  induction decls generalizing sc with
  | nil =>
    intro f hf
    cases hf
  | cons entry rest ih =>
    obtain ⟨name, id⟩ := entry
    have hname : ∀ f ∈ declaredNameFindings id.kind name, f.location.route = [] := by
      unfold declaredNameFindings
      split
      · simp [Finding.ofDeclaration]
      · split <;> simp [Finding.ofDeclaration]
    rw [declareAll]
    cases sc.declare name id with
    | error existing => exact List.forall_mem_cons.2 ⟨rfl, ih⟩
    | ok sc' => exact List.forall_mem_append.2 ⟨hname, ih⟩

theorem isAtMember_scopeFindings (d : Document) : ∀ f ∈ d.scopeFindings, f.isAtMember = false :=
  fun f hf => Finding.isAtMember_of_route (route_declareAll f hf)

theorem isAtMember_fieldsFindings {sc : Scope} {kind : Kind} {name : String} {route : Route}
    (hkind : kind ≠ .enumeration) (fs : Fields String) :
    ∀ f ∈ fs.findings sc (.declaration kind name) route, f.isAtMember = false := by
  rw [Fields.findings, List.forall_mem_map]
  intro x _
  exact Finding.isAtMember_of_site rfl fun n heq => hkind (Site.declaration.inj heq).1

theorem isAtMember_recordFindings (d : Document) :
    ∀ f ∈ d.records.flatMap (Record.findings d.scope), f.isAtMember = false := by
  rw [List.forall_mem_flatMap]
  intro r _
  exact isAtMember_fieldsFindings (by decide) r.fields

theorem isAtMember_methodFindings (d : Document) :
    ∀ f ∈ d.methods.flatMap (Method.findings d.scope), f.isAtMember = false := by
  rw [List.forall_mem_flatMap]
  intro m _
  rw [Method.findings, List.forall_mem_append]
  exact ⟨isAtMember_fieldsFindings (by decide) m.request,
    isAtMember_fieldsFindings (by decide) m.response⟩

theorem isAtMember_methodsFindings (d : Document) :
    ∀ f ∈ d.methodsFindings, f.isAtMember = false := by
  intro f hf
  obtain ⟨-, hsite | ⟨n, hsite⟩⟩ := aboutMethods_methodsFindings d f hf
  · exact Finding.isAtMember_of_site hsite (by simp)
  · exact Finding.isAtMember_of_site hsite (by simp)

theorem isAtMember_cycleFindings (d : Document) : ∀ f ∈ d.cycleFindings, f.isAtMember = false := by
  rw [cycleFindings, List.forall_mem_map]
  intro l hl
  obtain ⟨_, _, hcloses, _⟩ := Graph.exists_closing d.bounded_holding
  obtain ⟨p, _, hl⟩ := exists_mem_of_forall₂ hcloses hl
  -- The finding lies where the edge that closes the loop lies.
  obtain ⟨_, _, _, _, _, _, hlabel⟩ := mem_edges_holding.1 (Graph.mem_edges_of_edge? hl.1)
  exact Finding.isAtMember_of_site (congrArg Location.site hlabel) (by simp)

/-- Of all findings those at members are the ones about members. -/
theorem filter_findings_isAtMember (d : Document) :
    d.findings.filter Finding.isAtMember = d.enumerations.flatMap Enumeration.told := by
  have helsewhere {fs : List Finding} (hfs : ∀ f ∈ fs, f.isAtMember = false) :
      fs.filter Finding.isAtMember = [] := by
    rw [List.filter_eq_nil_iff]
    intro f hf
    rw [hfs f hf]
    exact Bool.false_ne_true
  have hscope := helsewhere (isAtMember_scopeFindings d)
  have hrecords := helsewhere (isAtMember_recordFindings d)
  have hnames := helsewhere (isAtMember_methodsFindings d)
  have hmethods := helsewhere (isAtMember_methodFindings d)
  have hcycles := helsewhere (isAtMember_cycleFindings d)
  have henumerations : (d.enumerations.flatMap Enumeration.findings).filter Finding.isAtMember =
      d.enumerations.flatMap Enumeration.told := by
    rw [List.filter_flatMap]
    apply List.flatMap_congr
    intro e _
    rw [Enumeration.findings_eq_memberDefects]
    exact List.filter_eq_self.2 e.isAtMember_told
  simp only [findings, List.filter_append, hscope, henumerations, hrecords, hnames, hmethods,
    hcycles, List.nil_append, List.append_nil]

/-- **Findings about members are exact, and they account for the values.**  Each member of an
enumeration is told of at most once, in order: that its name was used before; or else that it has no
string; or else which member first has its string, of those whose names were new.  A validation
tells of members what its level makes of these findings and nothing else.  Where no name is used
twice and no string is empty, the values are the strings of the members in the order in which they
first come up, and every member that adds no value is told of. -/
theorem members_told (d : Document) (s : Strictness) :
    (∀ e : Enumeration, e.findings = e.told) ∧
    (report (d.validate s)).errors.filter Finding.isAtMember =
      s.errors (d.enumerations.flatMap Enumeration.told) ∧
    (report (d.validate s)).warnings.filter Finding.isAtMember =
      s.warnings (d.enumerations.flatMap Enumeration.told) ∧
    ∀ e : Enumeration, (∀ f ∈ e.findings, (∀ k, f.defect ≠ .duplicateKey k) ∧
        f.defect ≠ .emptyEnumValue) →
      e.values.Nodup ∧ (∀ v, v ∈ e.values ↔ ∃ n, (n, v) ∈ e.members) ∧
      (e.values.Pairwise fun v w =>
        (e.members.map (·.2)).idxOf v < (e.members.map (·.2)).idxOf w) ∧
      e.members.length =
        e.values.length + e.findings.countP fun f => f.defect.isDuplicateValue := by
  refine ⟨Enumeration.findings_eq_memberDefects, ?_, ?_, fun e he => ?_⟩
  · rw [report_validate, Strictness.errors, List.filter_comm, filter_findings_isAtMember]
    rfl
  · rw [report_validate, Strictness.warnings, List.filter_comm, filter_findings_isAtMember]
    rfl
  · obtain ⟨hnodup, hmem, horder⟩ := e.values_in_order
    rw [Enumeration.findings_eq_memberDefects, List.forall_mem_map] at he
    obtain ⟨_, hlength⟩ := Enumeration.length_eq_values_add (fun x hx => (he x hx).1)
      (fun x hx => (he x hx).2)
    refine ⟨hnodup, hmem, horder, ?_⟩
    rw [hlength, Enumeration.findings_eq_memberDefects, List.countP_map]
    rfl

/-- An enumeration with two names for one string. -/
def palette : Enumeration := ⟨"Palette", [("RED", "r"), ("ROUGE", "r"), ("BLUE", "b")]⟩

/-- A second name for a colour is advice only, and the colour is still one value. -/
theorem members_told_palette :
    (∀ f ∈ palette.findings, (∀ k, f.defect ≠ .duplicateKey k) ∧ f.defect ≠ .emptyEnumValue) ∧
      palette.values = ["r", "b"] ∧
      palette.members.length =
        palette.values.length + palette.findings.countP fun f => f.defect.isDuplicateValue := by
  have hfindings : palette.findings = [⟨⟨.declaration .enumeration "Palette", [.field "ROUGE"]⟩,
      .duplicateEnumValue "r" "RED"⟩] := by decide +kernel
  have hclean : ∀ f ∈ palette.findings, (∀ k, f.defect ≠ .duplicateKey k) ∧
      f.defect ≠ .emptyEnumValue := by
    rw [hfindings]
    simp
  obtain ⟨_, _, _, hvalues⟩ := members_told ⟨[palette], [], []⟩ .standard
  obtain ⟨_, _, _, hlength⟩ := hvalues palette hclean
  exact ⟨hclean, by decide +kernel, hlength⟩

/-- Members that are in error hold no string: "m" is first held by L, and "s" by S. -/
example :
    let size : Enumeration :=
      ⟨"Size", [("S", "s"), ("S", "m"), ("M", ""), ("L", "m"), ("XL", "s"), ("XXL", "m")]⟩
    size.told.map (fun f => (f.location.text, f.defect)) =
      [("enums.Size.S", .duplicateKey "S"), ("enums.Size.M", .emptyEnumValue),
        ("enums.Size.XL", .duplicateEnumValue "s" "S"),
        ("enums.Size.XXL", .duplicateEnumValue "m" "L")] := by
  decide +kernel

end Document
end CallContract
