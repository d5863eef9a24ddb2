import CallContract.Proofs.DeclaredNames
import CallContract.Proofs.FirstOccurrences

/-!
# Runs of declarations

Names are declared one after the other, and a name that is taken does not stop the run.  Whatever
was tried, the scope lists the first entries of what was tried (`entries_attempts`); what becomes of
the next attempt and what the scope tells of a name follow from that.
-/

namespace CallContract.Scope

variable {s : Scope} {tried : Named DeclId} {n : String} {id existing : DeclId}

/-! ## 1. Single attempts -/

/-- Tries to declare a name: the scope to go on with, and what came of the attempt. -/
def attempt (s : Scope) (n : String) (id : DeclId) : Scope × Except DeclId Unit :=
  match s.declare n id with
  | .ok next => (next, .ok ())
  | .error existing => (s, .error existing)

theorem attempt_of_none (h : s.find? n = none) :
    s.attempt n id = (⟨s.entries ++ [(n, id)]⟩, .ok ()) := by
  simp only [attempt, declare, h]

theorem attempt_of_some (h : s.find? n = some existing) :
    s.attempt n id = (s, .error existing) := by
  simp only [attempt, declare, h]

theorem find?_eq_lookup (h : s.entries = tried.firsts) (n : String) :
    s.find? n = tried.lookup n := by
  rw [find?, h, Named.lookup_firsts]

/-- If a scope lists the first entries of what was tried, it does so after one more attempt. -/
theorem entries_attempt (h : s.entries = tried.firsts) (n : String) (id : DeclId) :
    (s.attempt n id).1.entries = Named.firsts (tried ++ [(n, id)]) := by
  -- A name is taken exactly if it was tried before, and then no first entry is added either.
  cases hn : s.find? n with
  | some existing =>
    rw [attempt_of_some hn, h]
    rw [find?_eq_lookup h] at hn
    have hmem : n ∈ tried.names := Named.lookup_isSome_iff.1 (Option.isSome_of_eq_some hn)
    rw [Named.firsts_append_of_mem hmem]
  | none =>
    rw [attempt_of_none hn, h]
    rw [find?_eq_lookup h] at hn
    rw [Named.firsts_append_of_notMem (Named.lookup_eq_none_iff.1 hn)]

/-! ## 2. Runs -/

/-- The scope after names were tried one after the other. -/
def attempts (tried : Named DeclId) : Scope :=
  tried.foldl (fun s e => (s.attempt e.1 e.2).1) .empty

theorem attempts_concat (tried : Named DeclId) (n : String) (id : DeclId) :
    attempts (tried ++ [(n, id)]) = ((attempts tried).attempt n id).1 := by
  rw [attempts, List.foldl_append]
  rfl

theorem entries_attempts (tried : Named DeclId) : (attempts tried).entries = tried.firsts := by
  -- From the last attempt back, since a scope grows at its end.
  induction tried using List.reverseRecOn with
  | nil => rfl
  | append_singleton tried e ih =>
    rw [attempts_concat]
    exact entries_attempt ih e.1 e.2

/-- Declaring names and telling what is wrong with them goes on in the same way. -/
theorem foldl_attempt_eq (s : Scope) (decls : Named DeclId) :
    decls.foldl (fun s e => (s.attempt e.1 e.2).1) s = (Document.declareAll s decls).1 := by
  induction decls generalizing s with
  | nil => rfl
  | cons e rest ih =>
    rw [List.foldl_cons, ih, Document.declareAll, attempt]
    cases s.declare e.1 e.2 <;> rfl

theorem scope_eq_attempts (d : Document) : d.scope = attempts d.declarations :=
  (foldl_attempt_eq .empty d.declarations).symm

/-! ## 3. What a scope tells -/

theorem lookup_eq_ok_iff : s.lookup n = .ok id ↔ s.find? n = some id := by
  unfold lookup
  cases s.find? n <;> simp

theorem lookup_eq_error_iff {e : Undeclared} :
    s.lookup n = .error e ↔ e = ⟨n⟩ ∧ s.find? n = none := by
  unfold lookup
  cases s.find? n <;> simp [eq_comm]

/-- **The first declaration of a name wins, in every run.**  After any attempts, the next one
succeeds exactly if its name was not tried before; otherwise it is told what was first tried under
the name, and nothing changes.  The scope lists the names that were tried, in the order in which
they first came up and with what was first tried under them; its size is the number of these names,
and what it contains and finds is what it lists.  The scope of a document is what such a run ends
with. -/
theorem first_attempt_wins (tried : Named DeclId) :
    (∀ n id, ((attempts tried).attempt n id).2 = .ok () ↔ n ∉ tried.names) ∧
    (∀ n id existing, (attempts tried).attempt n id = (attempts tried, .error existing) ↔
      tried.lookup n = some existing) ∧
    (attempts tried).entries = tried.firsts ∧
    (attempts tried).size = tried.names.toFinset.card ∧
    (∀ n, (attempts tried).contains n = true ↔ ∃ id, (n, id) ∈ (attempts tried).entries) ∧
    (∀ n id, (attempts tried).lookup n = .ok id ↔ (n, id) ∈ (attempts tried).entries) ∧
    (∀ n e, (attempts tried).lookup n = .error e ↔
      e = ⟨n⟩ ∧ ¬∃ id, (n, id) ∈ (attempts tried).entries) ∧
    ∀ d : Document, d.scope = attempts d.declarations := by
  have hentries := entries_attempts tried
  have hfind := find?_eq_lookup hentries
  have hnone (n : String) : tried.lookup n = none ↔ ¬∃ id, (n, id) ∈ tried.firsts := by
    simp only [Named.mem_firsts_iff, Option.eq_none_iff_forall_ne_some, not_exists]
  refine ⟨fun n id => ?_, fun n id existing => ?_, hentries, ?_, fun n => ?_, fun n id => ?_,
    fun n e => ?_, scope_eq_attempts⟩
  · rw [← Named.lookup_eq_none_iff, ← hfind]
    cases hn : (attempts tried).find? n with
    | some existing => simp [attempt_of_some hn]
    | none => simp [attempt_of_none hn]
  · rw [← hfind]
    cases hn : (attempts tried).find? n with
    | some first => simp [attempt_of_some hn]
    | none => simp [attempt_of_none hn]
  · rw [size, hentries, Named.length_firsts]
  · rw [contains, hfind, hentries, Option.isSome_iff_exists]
    simp only [Named.mem_firsts_iff]
  · rw [lookup_eq_ok_iff, hfind, hentries, Named.mem_firsts_iff]
  · rw [lookup_eq_error_iff, hfind, hentries, hnone]

/-- Enumerations and records share the names: a record does not take the name of an enumeration. -/
example :
    let s := attempts [("Shade", .enumeration 0), ("Lamp", .record 0), ("Shade", .record 1),
      ("Bulb", .record 2), ("Lamp", .enumeration 3)]
    s.entries = [("Shade", .enumeration 0), ("Lamp", .record 0), ("Bulb", .record 2)] ∧
      s.lookup "Shade" = .ok (.enumeration 0) ∧ s.lookup "Wick" = .error ⟨"Wick"⟩ := by
  decide +kernel

end CallContract.Scope
