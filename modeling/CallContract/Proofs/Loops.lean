import CallContract.Proofs.WalkInvariant

/-!
# The loops of a graph

The walk through a whole graph reports every loop that it has to.  Each reported loop belongs to an
edge of its own and is a trail that comes back over that edge; each trail that comes back uses one
of these edges (`exists_closing`).  So there are no loops exactly if the graph is acyclic
(`loops_eq_nil_iff`).
-/

namespace CallContract.Graph

variable {α : Type} {g : Graph α}

theorem exists_closing (hg : g.Bounded) :
    ∃ closing : List EdgePlace, closing.Nodup ∧ List.Forall₂ g.Closes closing g.loops ∧
      ∀ u ps, g.Trail u ps u → ps ≠ [] → ∃ p ∈ ps, p ∈ closing := by
  rcases (Walk.Invariant.start g).run hg with ⟨h, -, hi⟩
  have hall : ∀ u, u < g.length → u ∈ h.left := fun u hu => hi.mem_left (Walk.step_run g _) hu
  refine ⟨h.closing, hi.closing_sublist.nodup hi.followed_nodup, hi.loops, ?_⟩
  intro u ps htrail hne
  -- The nodes in the order in which the walk left them, last first.
  exact hi.ordered.exists_mem_of_trail hi.left_nodup hall htrail hne

theorem Closes.exists_trail {p : EdgePlace} {l : Loop α} (h : g.Closes p l) :
    ∃ ps, ps ≠ [] ∧ g.Trail l.edge.target ps l.edge.target := by
  rcases h with ⟨he, ps, htrail, -⟩
  exact ⟨ps ++ [p], by simp, htrail.append (.single he)⟩

theorem loops_eq_nil_iff (hg : g.Bounded) : g.loops = [] ↔ g.Acyclic := by
  rcases exists_closing hg with ⟨closing, -, hcloses, hback⟩
  constructor
  · intro hnone
    rw [hnone, List.forall₂_nil_right_iff] at hcloses
    subst hcloses
    -- No place is left out.
    rw [← without_nil g]
    exact acyclic_without hback
  · intro hacyclic
    cases hl : g.loops with
    | nil => rfl
    | cons l ls =>
      rw [hl] at hcloses
      rcases List.forall₂_cons_right_iff.1 hcloses with ⟨p, -, h, -⟩
      rcases h.exists_trail with ⟨ps, hne, htrail⟩
      exact absurd (hacyclic.eq_nil_of_trail htrail) hne

end CallContract.Graph
