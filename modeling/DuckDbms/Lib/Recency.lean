-- Lists of what was used, the longest ago first: each use moves an element to
-- the end, and the first element that passes a test is the one used longest ago.
import Mathlib.Data.List.Basic
import Mathlib.Logic.Function.Basic

namespace recency

variable {α : Type}

/-- The elements stand in the order of their last uses. -/
def Ordered (last : α → Nat) (l : List α) : Prop := l.Pairwise fun a b => last a < last b

theorem Ordered.nodup {last : α → Nat} {l : List α} (h : Ordered last l) : l.Nodup := by
  refine List.Pairwise.imp ?_ h
  rintro a b hab rfl
  exact absurd hab (Nat.lt_irrefl _)

/-- The first element that passes is the one of those that pass that was used longest ago. -/
theorem Ordered.find?_oldest {last : α → Nat} {l : List α} (h : Ordered last l) {p : α → Bool}
    {a b : α} (ha : l.find? p = some a) (hb : b ∈ l) (hp : p b = true) (hne : b ≠ a) :
    last a < last b := by
  obtain ⟨_, before, after, rfl, hbefore⟩ := List.find?_eq_some_iff_append.mp ha
  rcases List.mem_append.mp hb with hb | hb
  · have hno := hbefore b hb
    rw [hp] at hno
    cases hno
  · have hafter := (List.mem_cons.mp hb).resolve_left hne
    have htail := (List.pairwise_append.mp h).2.1
    exact (List.pairwise_cons.mp htail).1 b hafter

section
variable [DecidableEq α] {last : α → Nat} {l : List α}

def forget (l : List α) (a : α) : List α := l.filter (· ≠ a)

def touch (l : List α) (a : α) : List α := forget l a ++ [a]

theorem mem_forget {a b : α} : b ∈ forget l a ↔ b ∈ l ∧ b ≠ a := by
  unfold forget
  rw [List.mem_filter, decide_eq_true_eq]

theorem Ordered.forget (h : Ordered last l) (a : α) : Ordered last (forget l a) :=
  List.Pairwise.filter _ h

/-- A use that comes after all the others. -/
theorem Ordered.touch (h : Ordered last l) (a : α) {now : Nat} (hnow : ∀ b ∈ l, last b < now) :
    Ordered (Function.update last a now) (touch l a) := by
  have hother : ∀ b ∈ recency.forget l a, Function.update last a now b = last b :=
    fun b hb => Function.update_of_ne (mem_forget.mp hb).2 _ _
  refine List.pairwise_append.mpr ⟨?_, List.pairwise_singleton _ _, ?_⟩
  · refine (h.forget a).imp_of_mem fun {b c} hb hc hbc => ?_
    rw [hother b hb, hother c hc]
    exact hbc
  · intro b hb c hc
    obtain rfl := List.mem_singleton.mp hc
    rw [hother b hb, Function.update_self]
    exact hnow b (mem_forget.mp hb).1

theorem lt_of_mem_touch {a b : α} {now : Nat} (hnow : ∀ b ∈ l, last b < now)
    (hb : b ∈ touch l a) : Function.update last a now b < now + 1 := by
  by_cases he : b = a
  · subst he
    rw [Function.update_self]
    exact Nat.lt_succ_self now
  · rw [Function.update_of_ne he]
    rcases List.mem_append.mp hb with hb | hb
    · exact Nat.lt_succ_of_lt (hnow b (mem_forget.mp hb).1)
    · exact absurd (List.mem_singleton.mp hb) he

end

end recency
