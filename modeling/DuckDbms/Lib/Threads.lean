-- Threads in a list, one of which takes a step. The other threads are the list
-- without its place, and sums and members split along that line.
import Mathlib.Algebra.BigOperators.Group.List.Basic
import Mathlib.Algebra.Order.Ring.Nat

namespace threads

variable {α : Type} {l : List α} {i : Nat} {c d : α}

theorem mem_iff_others (h : l[i]? = some c) : d ∈ l ↔ d = c ∨ d ∈ l.eraseIdx i := by
  rw [List.mem_eraseIdx_iff_getElem?, List.mem_iff_getElem?]
  constructor
  · rintro ⟨j, hj⟩
    by_cases hji : j = i
    · left
      rw [hji, h] at hj
      exact (Option.some.inj hj).symm
    · exact Or.inr ⟨j, hji, hj⟩
  · rintro (rfl | ⟨j, _, hj⟩)
    · exact ⟨i, h⟩
    · exact ⟨j, hj⟩

theorem mem_set_iff_others (h : l[i]? = some c) (c' : α) :
    d ∈ l.set i c' ↔ d = c' ∨ d ∈ l.eraseIdx i := by
  have hlt : i < l.length := (List.getElem?_eq_some_iff.mp h).1
  rw [mem_iff_others (l := l.set i c') (i := i) (c := c') (by rw [List.getElem?_set_self hlt]),
    List.eraseIdx_set_eq]

theorem sum_others (f : α → Nat) (h : l[i]? = some c) :
    (l.map f).sum = ((l.eraseIdx i).map f).sum + f c := by
  induction l generalizing i with
  | nil => simp at h
  | cons a l ih =>
    cases i with
    | zero =>
      obtain rfl : a = c := by simpa using h
      simp [Nat.add_comm]
    | succ i =>
      have := ih (i := i) (by simpa using h)
      simp only [List.map_cons, List.sum_cons, List.eraseIdx_cons_succ, this]
      omega

theorem sum_set (f : α → Nat) (h : l[i]? = some c) (c' : α) :
    ((l.set i c').map f).sum = ((l.eraseIdx i).map f).sum + f c' := by
  have hlt : i < l.length := (List.getElem?_eq_some_iff.mp h).1
  rw [sum_others f (i := i) (c := c') (by rw [List.getElem?_set_self hlt]), List.eraseIdx_set_eq]

theorem le_sum (f : α → Nat) (h : d ∈ l) : f d ≤ (l.map f).sum := by
  obtain ⟨i, hi⟩ := List.mem_iff_getElem?.mp h
  rw [sum_others f hi]
  omega

theorem sum_eq_zero (f : α → Nat) (h : ∀ d ∈ l, f d = 0) : (l.map f).sum = 0 := by
  apply List.sum_eq_zero
  intro x hx
  obtain ⟨d, hd, rfl⟩ := List.mem_map.mp hx
  exact h d hd

/-- Two threads at different places, one of which took a step. -/
theorem getElem?_set_cases {j : Nat} {c' : α} (h : (l.set i c')[j]? = some d) :
    (j = i ∧ d = c') ∨ (j ≠ i ∧ l[j]? = some d) := by
  by_cases hji : j = i
  · subst hji
    have hlt : j < l.length := by
      have := (List.getElem?_eq_some_iff.mp h).1
      simpa using this
    rw [List.getElem?_set_self hlt] at h
    exact Or.inl ⟨rfl, (Option.some.inj h).symm⟩
  · rw [List.getElem?_set_ne (Ne.symm hji)] at h
    exact Or.inr ⟨hji, h⟩

end threads
