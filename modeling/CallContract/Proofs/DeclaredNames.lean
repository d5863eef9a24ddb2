import CallContract.Document.Names
import CallContract.Proofs.NamedLists

/-!
# Declared names

The scope of a document finds the first declaration of a name (`find?_scope`), so whatever it finds
has that name.  Where enumerations and records have distinct names the scope is the list of all
declarations, a name leads to a declaration exactly if the declaration has it
(`find?_scope_eq_some_iff`), and what is wrong with a name does not depend on the names before it.
-/

namespace CallContract.Document

variable {d : Document} {n : String} {id : DeclId}

/-- The names of the enumerations and records. -/
def typeNames (d : Document) : List String :=
  d.enumerations.map (·.name) ++ d.records.map (·.name)

/-- The name of the declaration in a place. -/
def declaredName? (d : Document) : DeclId → Option String
  | .enumeration i => d.enumerations[i]?.map (·.name)
  | .record i => d.records[i]?.map (·.name)

theorem names_declarations (d : Document) : d.declarations.names = d.typeNames := by
  rw [declarations, Named.names_append, typeNames]
  congr 1 <;> exact List.ext_getElem? fun i => by simp [Named.names, Function.comp_def]

theorem mem_declarations_iff : (n, id) ∈ d.declarations ↔ d.declaredName? id = some n := by
  cases id <;>
    simp [declarations, declaredName?, List.mem_mapIdx, List.getElem?_eq_some_iff, and_comm]

/-- A declaration keeps a name that is there, and otherwise the first one of the name counts. -/
theorem find?_declareAll (s : Scope) (decls : Named DeclId) (n : String) :
    (declareAll s decls).1.find? n = (s.find? n).or (decls.lookup n) := by
  induction decls generalizing s with
  | nil => simp [declareAll]
  | cons entry rest ih =>
    rcases entry with ⟨k, id⟩
    cases hk : s.find? k with
    | some existing =>
      simp only [declareAll, Scope.declare, hk, ih, List.lookup_cons]
      by_cases hn : n = k
      · simp [hn, hk]
      · simp [beq_false_of_ne hn]
    | none =>
      simp only [declareAll, Scope.declare, hk, ih, List.lookup_cons]
      by_cases hn : n = k
      · have hk' : s.entries.lookup k = none := hk
        simp [hn, Scope.find?, List.lookup_append, hk']
      · simp [Scope.find?, List.lookup_append, beq_false_of_ne hn, List.lookup_cons]

theorem find?_scope (d : Document) (n : String) : d.scope.find? n = d.declarations.lookup n := by
  rw [scope, find?_declareAll]
  rfl

theorem contains_scope_iff : d.scope.contains n = true ↔ n ∈ d.typeNames := by
  rw [Scope.contains, find?_scope, Named.lookup_isSome_iff, names_declarations]

theorem distinct_declarations_iff : d.declarations.Distinct ↔ d.typeNames.Nodup := by
  rw [Named.Distinct, names_declarations]

theorem lookup_mapIdx {α β : Type} {xs : List α} {name : α → String} {place : Nat → β} :
    (xs.mapIdx fun i x => (name x, place i)).lookup n =
      (xs.findIdx? fun x => name x = n).map place := by
  induction xs generalizing place with
  | nil => rfl
  | cons x rest ih =>
    rw [List.mapIdx_cons, List.findIdx?_cons]
    by_cases hx : name x = n
    · simp [hx]
    · rw [List.lookup_cons, beq_false_of_ne (Ne.symm hx), ih]
      simp [hx, Function.comp_def]

/-- A scope finds the first enumeration of a name, and otherwise the first record. -/
theorem find?_scope_eq_or (d : Document) (n : String) :
    d.scope.find? n = ((d.enumerations.findIdx? fun e => e.name = n).map .enumeration).or
      ((d.records.findIdx? fun r => r.name = n).map .record) := by
  rw [find?_scope, declarations, List.lookup_append, lookup_mapIdx, lookup_mapIdx]

theorem declaredName?_of_find? (h : d.scope.find? n = some id) : d.declaredName? id = some n := by
  rw [find?_scope] at h
  exact mem_declarations_iff.1 (Named.mem_of_lookup h)

/-- Where names are distinct, a name leads to a declaration exactly if the declaration has it. -/
theorem find?_scope_eq_some_iff (hd : d.typeNames.Nodup) :
    d.scope.find? n = some id ↔ d.declaredName? id = some n := by
  rw [find?_scope, Named.lookup_eq_some_iff (distinct_declarations_iff.2 hd), mem_declarations_iff]

/-- Names that are distinct and not there yet are all declared, in order, and none of them changes
what is wrong with another one. -/
theorem declareAll_of_distinct {s : Scope} {decls : Named DeclId}
    (hd : Named.Distinct (s.entries ++ decls)) : declareAll s decls =
      (⟨s.entries ++ decls⟩, decls.flatMap fun e => declaredNameFindings e.2.kind e.1) := by
  induction decls generalizing s with
  | nil => simp [declareAll]
  | cons entry rest ih =>
    rcases entry with ⟨k, id⟩
    have hk : s.find? k = none := Named.lookup_eq_none_iff.2 (Named.notMem_names_of_distinct hd)
    have hsplit : s.entries ++ (k, id) :: rest = (s.entries ++ [(k, id)]) ++ rest := by simp
    rw [hsplit] at hd ⊢
    simp only [declareAll, Scope.declare, hk]
    rw [ih hd, List.flatMap_cons]

theorem declareAll_declarations (hd : d.typeNames.Nodup) : declareAll .empty d.declarations =
    (⟨d.declarations⟩, d.declarations.flatMap fun e => declaredNameFindings e.2.kind e.1) :=
  declareAll_of_distinct (s := .empty) (distinct_declarations_iff.2 hd)

theorem entries_scope (hd : d.typeNames.Nodup) : d.scope.entries = d.declarations := by
  rw [scope, declareAll_declarations hd]

theorem kinds_declarations (d : Document) : d.declarations.map (fun e => (e.2.kind, e.1)) =
    d.enumerations.map (fun e => (Kind.enumeration, e.name)) ++
      d.records.map fun r => (Kind.record, r.name) := by
  rw [declarations, List.map_append]
  congr 1 <;> exact List.ext_getElem? fun i => by simp [Function.comp_def, DeclId.kind]

theorem scopeFindings_of_nodup (hd : d.typeNames.Nodup) : d.scopeFindings =
    d.enumerations.flatMap (fun e => declaredNameFindings .enumeration e.name) ++
      d.records.flatMap fun r => declaredNameFindings .record r.name := by
  have hkinds := congrArg (List.flatMap fun e => declaredNameFindings e.1 e.2) d.kinds_declarations
  rw [List.flatMap_append, List.flatMap_map, List.flatMap_map, List.flatMap_map] at hkinds
  rw [scopeFindings, declareAll_declarations hd, ← hkinds]

theorem methodNamesFindings_of_fresh {s : Scope} {seen names : List String}
    (h : Fresh seen names) :
    methodNamesFindings s seen names = names.flatMap (methodNameFindings s) := by
  induction names generalizing seen with
  | nil => rfl
  | cons name rest ih =>
    rw [fresh_cons] at h
    rw [methodNamesFindings, if_neg h.1, ih h.2, List.flatMap_cons]

end CallContract.Document
