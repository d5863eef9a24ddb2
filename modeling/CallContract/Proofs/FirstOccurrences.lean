import CallContract.Proofs.NamedLists
import Mathlib.Data.Finset.Card

/-!
# First occurrences

What a list holds for the first time.  The first entries of a list of named values are those whose
names no earlier entry has; without its duplicates a list keeps each element where it first comes
up.  Both lists grow at the end only, by what is new (`firsts_concat`, `eraseDups_concat`).
-/

namespace CallContract

/-! ## 1. Lists without their duplicates -/

section

variable {α : Type} [DecidableEq α]

theorem eraseDups_concat (xs : List α) (x : α) :
    (xs ++ [x]).eraseDups = xs.eraseDups ++ if x ∈ xs then [] else [x] := by
  have hadded : [x].removeAll xs = if x ∈ xs then [] else [x] := by
    by_cases hx : x ∈ xs
    · simp [List.removeAll, hx]
    · simp [List.removeAll, hx]
  rw [List.eraseDups_append, hadded]
  split <;> rfl

/-- Without its duplicates a list has its elements in the order in which they first come up. -/
theorem pairwise_eraseDups (xs : List α) :
    xs.eraseDups.Pairwise fun x y => xs.idxOf x < xs.idxOf y := by
  induction xs using List.reverseRecOn with
  | nil => exact .nil
  | append_singleton xs x ih =>
    have hold {y : α} (hy : y ∈ xs.eraseDups) : (xs ++ [x]).idxOf y = xs.idxOf y :=
      List.idxOf_append_of_mem (List.mem_eraseDups.1 hy)
    have hkept : xs.eraseDups.Pairwise fun y z => (xs ++ [x]).idxOf y < (xs ++ [x]).idxOf z := by
      refine ih.imp_of_mem fun hy hz hlt => ?_
      rw [hold hy, hold hz]
      exact hlt
    rw [eraseDups_concat]
    split
    · rw [List.append_nil]
      exact hkept
    · rename_i hx
      -- A new element comes up behind all that was there.
      refine List.pairwise_append.2 ⟨hkept, List.pairwise_singleton _ _, fun y hy z hz => ?_⟩
      rw [List.mem_singleton] at hz
      rw [hz, hold hy, List.idxOf_append_of_notMem hx]
      exact Nat.lt_add_right _ (List.idxOf_lt_length_of_mem (List.mem_eraseDups.1 hy))

theorem nodup_eraseDups (xs : List α) : xs.eraseDups.Nodup :=
  (pairwise_eraseDups xs).imp fun hlt => ne_of_apply_ne xs.idxOf (Nat.ne_of_lt hlt)

end

/-! ## 2. First entries of names -/

namespace Named

variable {α : Type} {entries : Named α} {n : String} {x : α}

/-- The entries whose names no earlier entry has, in order. -/
def firsts (entries : Named α) : Named α :=
  (entries.zipIdx.filter fun (e, i) => e.1 ∉ names (entries.take i)).map (·.1)

theorem firsts_concat (entries : Named α) (n : String) (x : α) :
    firsts (entries ++ [(n, x)]) =
      entries.firsts ++ if n ∈ entries.names then [] else [(n, x)] := by
  -- What stands before an entry does not hang on what comes after it.
  have hbefore : entries.zipIdx.filter (fun (e, i) => e.1 ∉ names ((entries ++ [(n, x)]).take i)) =
      entries.zipIdx.filter fun (e, i) => e.1 ∉ names (entries.take i) := by
    apply List.filter_congr
    intro (e, i) he
    have hi : i < entries.length := (List.mem_zipIdx' he).1
    simp only [List.take_append_of_le_length (Nat.le_of_lt hi)]
  rw [firsts, List.zipIdx_append, List.filter_append, hbefore, List.map_append]
  by_cases hn : n ∈ entries.names
  · simp [firsts, hn]
  · simp [firsts, hn]

theorem firsts_append_of_mem (hn : n ∈ entries.names) :
    firsts (entries ++ [(n, x)]) = entries.firsts := by
  rw [firsts_concat, if_pos hn, List.append_nil]

theorem firsts_append_of_notMem (hn : n ∉ entries.names) :
    firsts (entries ++ [(n, x)]) = entries.firsts ++ [(n, x)] := by
  rw [firsts_concat, if_neg hn]

/-- An entry of a name that is there already does not change what is found. -/
theorem lookup_append_of_mem (hn : n ∈ entries.names) (k : String) :
    (entries ++ [(n, x)]).lookup k = entries.lookup k := by
  rw [List.lookup_append]
  by_cases hk : k = n
  · obtain ⟨y, hy⟩ := Option.isSome_iff_exists.1 (lookup_isSome_iff.2 hn)
    rw [hk, hy, Option.some_or]
  · simp [List.lookup_cons, beq_false_of_ne hk]

/-- Looking a name up finds the first entry that has it. -/
theorem lookup_firsts (entries : Named α) (n : String) :
    entries.firsts.lookup n = entries.lookup n := by
  induction entries using List.reverseRecOn with
  | nil => simp [firsts]
  | append_singleton entries e ih =>
    obtain ⟨k, x⟩ := e
    by_cases hk : k ∈ names entries
    · rw [firsts_append_of_mem hk, ih, lookup_append_of_mem hk]
    · rw [firsts_append_of_notMem hk, List.lookup_append, List.lookup_append, ih]

theorem mem_names_firsts : n ∈ entries.firsts.names ↔ n ∈ entries.names := by
  rw [← lookup_isSome_iff, lookup_firsts, lookup_isSome_iff]

theorem distinct_firsts (entries : Named α) : Distinct entries.firsts := by
  induction entries using List.reverseRecOn with
  | nil => simp [firsts, Distinct]
  | append_singleton entries e ih =>
    obtain ⟨k, x⟩ := e
    by_cases hk : k ∈ names entries
    · rw [firsts_append_of_mem hk]
      exact ih
    · rw [firsts_append_of_notMem hk, Distinct, names_append, names_cons, names_nil,
        ← List.concat_eq_append]
      exact List.Nodup.concat (fun hin => hk (mem_names_firsts.1 hin)) ih

theorem mem_firsts_iff : (n, x) ∈ entries.firsts ↔ entries.lookup n = some x := by
  rw [← lookup_eq_some_iff (distinct_firsts entries), lookup_firsts]

/-- There are as many first entries as there are names. -/
theorem length_firsts (entries : Named α) :
    entries.firsts.length = entries.names.toFinset.card := by
  have hsame : entries.names.toFinset = entries.firsts.names.toFinset := by
    ext n
    rw [List.mem_toFinset, List.mem_toFinset, mem_names_firsts]
  rw [hsame, List.toFinset_card_of_nodup (distinct_firsts entries), names, List.length_map]

end Named
end CallContract
