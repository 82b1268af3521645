-- Places that own tokens, one at most each: how many places own a token when a
-- place gets one, gives one up, or passes one on to another place.
import Mathlib.Data.List.Basic

namespace owners

variable {τ : Type} [DecidableEq τ]

/-- The number of the places that own a token. -/
def owners_of (l : List (Option τ)) (t : τ) : Nat := l.count (some t)

/-- One for the token that a place owns. -/
def one_for (o : Option τ) (t : τ) : Nat := if o = some t then 1 else 0

@[simp] theorem one_for_none (t : τ) : one_for none t = 0 := rfl

theorem one_for_self (t : τ) : one_for (some t) t = 1 := if_pos rfl

theorem one_for_other {t u : τ} (h : t ≠ u) : one_for (some t) u = 0 :=
  if_neg fun he => h (Option.some.inj he)

theorem owners_of_pos {l : List (Option τ)} {t : τ} : 0 < owners_of l t ↔ some t ∈ l :=
  List.count_pos_iff

theorem owners_of_append (l : List (Option τ)) (o : Option τ) (t : τ) :
    owners_of (l ++ [o]) t = owners_of l t + one_for o t := by
  unfold owners_of one_for
  rw [List.count_append, List.count_singleton]
  simp only [beq_iff_eq]

/-- Who owns a token after one place more owns `t` has it now, or owned it before. -/
theorem gained {l l' : List (Option τ)} {t u : τ}
    (h : ∀ v, owners_of l' v = owners_of l v + one_for (some t) v) (hu : some u ∈ l') :
    u = t ∨ some u ∈ l := by
  by_cases he : t = u
  · exact Or.inl he.symm
  · right
    have hpos := owners_of_pos.mpr hu
    rw [h, one_for_other he] at hpos
    exact owners_of_pos.mp hpos

/-- A place loses what it owned, and gets what is given to it. -/
theorem owners_of_set {l : List (Option τ)} {i : Nat} {o : Option τ} (h : l[i]? = some o)
    (o' : Option τ) (t : τ) :
    owners_of (l.set i o') t + one_for o t = owners_of l t + one_for o' t := by
  obtain ⟨hi, rfl⟩ := List.getElem?_eq_some_iff.mp h
  have hle : one_for l[i] t ≤ owners_of l t := by
    unfold one_for
    split
    · rename_i he
      exact owners_of_pos.mpr (he ▸ List.getElem_mem hi)
    · exact Nat.zero_le _
  unfold owners_of one_for at *
  rw [List.count_set hi]
  simp only [beq_iff_eq]
  omega

/-- A token that passes to a new place. -/
theorem owners_of_move_new {l : List (Option τ)} {i : Nat} {o : Option τ} (h : l[i]? = some o)
    (t : τ) : owners_of (l.set i none ++ [o]) t = owners_of l t := by
  have := owners_of_set h none t
  rw [owners_of_append]
  simpa using this

/-- A token that passes to another place, after that one gave up its own. -/
theorem owners_of_move {l : List (Option τ)} {i j : Nat} {a b : Option τ} (hne : i ≠ j)
    (hi : l[i]? = some a) (hj : l[j]? = some b) (t : τ) :
    owners_of ((l.set i b).set j none) t = owners_of (l.set i none) t := by
  have h0 := owners_of_set hi none t
  have h1 := owners_of_set hi b t
  have hj' : (l.set i b)[j]? = some b := by rw [List.getElem?_set_ne hne, hj]
  have h2 := owners_of_set hj' none t
  rw [one_for_none] at h0 h2
  omega

theorem mem_of_mem_set_none {α : Type} {l : List (Option α)} {i : Nat} {x : α}
    (h : some x ∈ l.set i none) : some x ∈ l := by
  rcases List.mem_or_eq_of_mem_set h with h | h
  · exact h
  · cases h

/-- Another place than the one that is set. -/
theorem mem_set_other {α : Type} {l : List (Option α)} {i : Nat} {o : Option α} {x : α}
    (h : some x ∈ l.set i o) : o = some x ∨ some x ∈ l.set i none := by
  obtain ⟨j, hj⟩ := List.mem_iff_getElem?.mp h
  by_cases he : i = j
  · subst he
    have hlt := (List.getElem?_eq_some_iff.mp hj).1
    rw [List.length_set] at hlt
    rw [List.getElem?_set_self hlt] at hj
    exact Or.inl (Option.some.inj hj)
  · rw [List.getElem?_set_ne he] at hj
    right
    refine List.mem_iff_getElem?.mpr ⟨j, ?_⟩
    rw [List.getElem?_set_ne he, hj]

end owners
