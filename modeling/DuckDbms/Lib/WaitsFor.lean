-- Who waits for whom: a set in which everyone waits for one of its own, and the
-- cycle that such a set has when only finitely many wait.
import Mathlib.Logic.Relation
import Mathlib.Order.Preorder.Finite

namespace waits_for

variable {τ : Type} {r r' : τ → τ → Prop} {t u : τ} {D : Set τ}

/-- Everyone in the set waits for someone in the set. -/
def Knot (r : τ → τ → Prop) (D : Set τ) : Prop := ∀ t ∈ D, ∃ u ∈ D, r t u

/-- Whoever waits for whom leads into a cycle. -/
def Deadlocked (r : τ → τ → Prop) (t : τ) : Prop :=
  ∃ u, Relation.ReflTransGen r t u ∧ Relation.TransGen r u u

theorem Knot.mono (h : Knot r D) (hle : ∀ t u, r t u → r' t u) : Knot r' D := by
  intro t ht
  obtain ⟨u, hu, hr⟩ := h t ht
  exact ⟨u, hu, hle t u hr⟩

theorem Deadlocked.mono (h : Deadlocked r t) (hle : ∀ t u, r t u → r' t u) :
    Deadlocked r' t := by
  obtain ⟨u, htu, hu⟩ := h
  exact ⟨u, Relation.ReflTransGen.mono hle t u htu, Relation.TransGen.mono hle u u hu⟩

theorem knot_deadlocked (r : τ → τ → Prop) : Knot r {t | Deadlocked r t} := by
  rintro t ⟨u, htu, hu⟩
  rcases Relation.ReflTransGen.cases_head htu with rfl | ⟨v, htv, hvu⟩
  · obtain ⟨v, htv, hvt⟩ := Relation.TransGen.head'_iff.mp hu
    exact ⟨v, ⟨t, hvt, hu⟩, htv⟩
  · exact ⟨v, ⟨u, hvu, hu⟩, htv⟩

/-- Where finitely many wait, a knot has a cycle. -/
theorem deadlocked_of_knot (hfin : {t | ∃ u, r t u}.Finite) (h : Knot r D) (ht : t ∈ D) :
    Deadlocked r t := by
  -- a walk that never leaves the knot
  choose! next hmem hnext using h
  have hwalk : ∀ i, next^[i] t ∈ D := by
    intro i
    induction i with
    | zero => exact ht
    | succ i ih =>
      rw [Function.iterate_succ_apply']
      exact hmem _ ih
  have hstep : ∀ i, r (next^[i] t) (next^[i + 1] t) := by
    intro i
    rw [Function.iterate_succ_apply']
    exact hnext _ (hwalk i)
  have hpath : ∀ i j, Relation.ReflTransGen r (next^[i] t) (next^[i + j] t) := by
    intro i j
    induction j with
    | zero => exact .refl
    | succ j ih => exact ih.tail (hstep (i + j))
  have hout : ∀ i, next^[i] t ∈ {t | ∃ u, r t u} := fun i => ⟨_, hstep i⟩
  obtain ⟨i, j, hij, he⟩ := Set.Finite.exists_lt_map_eq_of_forall_mem hout hfin
  refine ⟨next^[i] t, ?_, ?_⟩
  · have := hpath 0 i
    rwa [Nat.zero_add] at this
  · have hlast := hpath (i + 1) (j - (i + 1))
    rw [Nat.add_sub_cancel' hij, ← he] at hlast
    exact Relation.TransGen.head' (hstep i) hlast

/-- Whoever is deadlocked waits. -/
theorem Deadlocked.waits (h : Deadlocked r t) : ∃ u, r t u := by
  obtain ⟨u, _, hr⟩ := knot_deadlocked r t h
  exact ⟨u, hr⟩

/-- Nobody is deadlocked where everyone waits for those of a higher rank. -/
theorem not_deadlocked_of_rank {ρ : Type} [Preorder ρ] (rank : τ → ρ)
    (h : ∀ t u v, r t u → r u v → rank t < rank u) (t : τ) : ¬ Deadlocked r t := by
  rintro ⟨u, _, hu⟩
  have hrank : ∀ a b, Relation.TransGen r a b → ∀ v, r b v → rank a < rank b := by
    intro a b hab
    induction hab with
    | single hab => exact fun v hv => h _ _ v hab hv
    | tail _ hbc ih => exact fun v hv => (ih _ hbc).trans (h _ _ v hbc hv)
  obtain ⟨v, hv, _⟩ := Relation.TransGen.head'_iff.mp hu
  exact lt_irrefl _ (hrank u u hu v hv)

end waits_for
