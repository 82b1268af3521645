-- Histories of transactions over shared objects. Transactions that lock what
-- they work on in two phases leave a history that amounts to a serial one: the
-- transactions one after the other, in the order in which they stopped locking.
import Mathlib.Data.List.Nodup
import Mathlib.Logic.Function.Basic

namespace serial

/-! ## Histories -/

/-- What a transaction found at an object, and what it left there. -/
structure Access (τ κ α : Type) where
  tx : τ
  object : κ
  before : α
  after : α

variable {τ κ α : Type}

/-- The access changed its object. -/
def Access.Writes (a : Access τ κ α) : Prop := a.before ≠ a.after

/-- Two transactions worked on one object, and one of them changed it. -/
def Access.Conflicts (a b : Access τ κ α) : Prop :=
  a.tx ≠ b.tx ∧ a.object = b.object ∧ (a.Writes ∨ b.Writes)

/-! ## Orders -/

/-- One comes before the other in the order, whether or not the other is in it. -/
def Before (order : List τ) (t u : τ) : Prop := ∃ l r, order = l ++ t :: r ∧ u ∉ l

theorem Before.append {order : List τ} {t u : τ} (hb : Before order t u) (rest : List τ) :
    Before (order ++ rest) t u := by
  obtain ⟨l, r, rfl, hu⟩ := hb
  exact ⟨l, r ++ rest, by simp, hu⟩

/-- Who is in the order comes before all who are not. -/
theorem before_of_notMem {order : List τ} {t u : τ} (ht : t ∈ order) (hu : u ∉ order) :
    Before order t u := by
  obtain ⟨l, r, rfl⟩ := List.append_of_mem ht
  exact ⟨l, r, rfl, fun h => hu (List.mem_append_left _ h)⟩

/-- Nobody comes before the first one. -/
theorem not_before_head {order : List τ} {t u : τ} (hne : u ≠ t) : ¬ Before (t :: order) u t := by
  rintro ⟨_ | ⟨x, l⟩, r, he, ht⟩
  · exact hne (List.cons.inj he).1.symm
  · exact ht ((List.cons.inj he).1 ▸ List.mem_cons_self)

theorem Before.tail {order : List τ} {x t u : τ} (hb : Before (x :: order) t u) (hne : t ≠ x) :
    Before order t u := by
  obtain ⟨_ | ⟨y, l⟩, r, he, hu⟩ := hb
  · exact absurd (List.cons.inj he).1.symm hne
  · exact ⟨l, r, (List.cons.inj he).2, fun h => hu (List.mem_cons_of_mem _ h)⟩

/-! ## Runs -/

section
variable [DecidableEq κ] [DecidableEq α]

/-- The objects after a history, when each access finds what it says it found. -/
def run (m : κ → α) : List (Access τ κ α) → Option (κ → α)
  | [] => some m
  | a :: h => if m a.object = a.before then run (Function.update m a.object a.after) h else none

variable {m m' : κ → α} {a b : Access τ κ α} {h h' : List (Access τ κ α)}

theorem run_append : run m (h ++ h') = (run m h).bind fun m => run m h' := by
  induction h generalizing m with
  | nil => rfl
  | cons a h ih =>
    simp only [List.cons_append, run]
    split
    · exact ih
    · rfl

theorem run_cons_eq_some : run m (a :: h) = some m' ↔
    m a.object = a.before ∧ run (Function.update m a.object a.after) h = some m' := by
  rw [run]
  split <;> simp_all

/-- An access at the end finds what the history left. -/
theorem run_snoc (hr : run m h = some m') (hb : m' a.object = a.before) :
    run m (h ++ [a]) = some (Function.update m' a.object a.after) := by
  rw [run_append, hr, Option.bind_some, run, if_pos hb]
  rfl

/-- Neighbours of two transactions that do not conflict can be told in either order. -/
theorem run_swap (htx : a.tx ≠ b.tx) (hno : ¬ a.Conflicts b)
    (hr : run m (a :: b :: h) = some m') : run m (b :: a :: h) = some m' := by
  obtain ⟨ha, hr⟩ := run_cons_eq_some.mp hr
  obtain ⟨hb, hr⟩ := run_cons_eq_some.mp hr
  apply run_cons_eq_some.mpr
  rw [run_cons_eq_some]
  by_cases ho : a.object = b.object
  · -- both only read the object
    have hsame : a.before = a.after ∧ b.before = b.after := by
      unfold Access.Conflicts Access.Writes at hno
      simp only [htx, ho, ne_eq, not_false_eq_true, true_and, not_or, not_not] at hno
      exact hno
    rw [ho] at ha hb hr ⊢
    rw [← hsame.1, ← ha, Function.update_eq_self] at hb hr
    rw [← hsame.2, ← hb, Function.update_eq_self] at hr ⊢
    rw [← hsame.1, ← ha, Function.update_eq_self]
    exact ⟨rfl, rfl, hr⟩
  · rw [Function.update_of_ne (Ne.symm ho)] at hb
    rw [Function.update_of_ne ho, Function.update_comm (Ne.symm ho)]
    exact ⟨hb, ha, hr⟩

/-- An access passes a whole part of the history that it does not conflict with. -/
theorem run_pass {l : List (Access τ κ α)} (hl : ∀ b ∈ l, a.tx ≠ b.tx ∧ ¬ a.Conflicts b)
    (hr : run m (a :: (l ++ h)) = some m') : run m (l ++ a :: h) = some m' := by
  induction l generalizing m with
  | nil => exact hr
  | cons b l ih =>
    obtain ⟨hb, hl⟩ := List.forall_mem_cons.mp hl
    obtain ⟨hbefore, hr⟩ := run_cons_eq_some.mp (run_swap hb.1 hb.2 hr)
    exact run_cons_eq_some.mpr ⟨hbefore, ih hl hr⟩

/-- A history of reads changes nothing. -/
theorem run_reads (hreads : ∀ a ∈ h, a.before = a.after) (hr : run m h = some m') : m' = m := by
  induction h generalizing m with
  | nil => exact (Option.some.inj hr).symm
  | cons a h ih =>
    obtain ⟨ha, hreads⟩ := List.forall_mem_cons.mp hreads
    obtain ⟨hb, hr⟩ := run_cons_eq_some.mp hr
    rw [← ha, ← hb, Function.update_eq_self] at hr
    exact ih hreads hr

theorem run_single {t : τ} {o : κ} {x y : α} (hr : run m [(⟨t, o, x, y⟩ : Access τ κ α)] = some m') :
    m o = x ∧ m' = Function.update m o y := by
  obtain ⟨hb, hr⟩ := run_cons_eq_some.mp hr
  exact ⟨hb, (Option.some.inj hr).symm⟩

/-! ## Serial histories -/

variable [DecidableEq τ]

/-- What one transaction did, in its order. -/
def own (h : List (Access τ κ α)) (t : τ) : List (Access τ κ α) := h.filter (·.tx = t)

/-- The transactions one after the other. -/
def serially (order : List τ) (h : List (Access τ κ α)) : List (Access τ κ α) :=
  order.flatMap (own h)

/-- What the first transaction did is told first, when nothing that the others did before is in
its way. -/
theorem run_first {t : τ} (hc : h.Pairwise fun a b => a.Conflicts b → b.tx = t → a.tx = t)
    (hr : run m h = some m') :
    run m (own h t ++ h.filter fun a => ¬ a.tx = t) = some m' := by
  induction h generalizing m with
  | nil => exact hr
  | cons a h ih =>
    obtain ⟨ha, hc⟩ := List.pairwise_cons.mp hc
    obtain ⟨hbefore, hr⟩ := run_cons_eq_some.mp hr
    have hrest := ih hc hr
    by_cases htx : a.tx = t
    · rw [own, List.filter_cons_of_pos (by simpa using htx),
        List.filter_cons_of_neg (by simpa using htx)]
      exact run_cons_eq_some.mpr ⟨hbefore, hrest⟩
    · rw [own, List.filter_cons_of_neg (by simpa using htx),
        List.filter_cons_of_pos (by simpa using htx)]
      refine run_pass (fun b hb => ?_) (run_cons_eq_some.mpr ⟨hbefore, hrest⟩)
      obtain ⟨hmem, hb⟩ := List.mem_filter.mp hb
      have hbt : b.tx = t := by simpa using hb
      exact ⟨fun he => htx (he.trans hbt), fun hx => htx (ha b hmem hx hbt)⟩

/-- A history whose conflicts all go forward in the order amounts to the serial one. -/
theorem run_serially {order : List τ} (hnodup : order.Nodup) (hall : ∀ a ∈ h, a.tx ∈ order)
    (hc : h.Pairwise fun a b => a.Conflicts b → Before order a.tx b.tx)
    (hr : run m h = some m') : run m (serially order h) = some m' := by
  induction order generalizing m h with
  | nil =>
    rw [List.eq_nil_iff_forall_not_mem.mpr fun a ha => List.not_mem_nil (hall a ha)] at hr
    exact hr
  | cons t order ih =>
    obtain ⟨hnot, hnodup⟩ := List.nodup_cons.mp hnodup
    have hfirst := run_first (t := t) (hc.imp fun hab hx hb => by
      by_contra hne
      exact not_before_head hne (hb ▸ hab hx)) hr
    rw [run_append] at hfirst
    obtain ⟨m1, hown, hrest⟩ := Option.bind_eq_some_iff.mp hfirst
    unfold serially
    rw [List.flatMap_cons, run_append, hown, Option.bind_some]
    have hserial := ih hnodup (fun a ha => ?_) ?_ hrest
    · rw [← hserial]
      unfold serially own
      congr 1
      refine List.flatMap_congr fun u hu => ?_
      rw [List.filter_filter]
      refine List.filter_congr fun a _ => ?_
      have hne : u ≠ t := fun he => hnot (he ▸ hu)
      by_cases ha : a.tx = u
      · simp [ha, hne]
      · simp [ha]
    · obtain ⟨ha, hne⟩ := List.mem_filter.mp ha
      exact (List.mem_cons.mp (hall a ha)).resolve_left (by simpa using hne)
    · rw [List.pairwise_filter]
      exact hc.imp fun hab hne _ hx => (hab hx).tail (by simpa using hne)

/-! ## Transactions that leave no trace -/

/-- Whatever the objects were before the history, they are again after it. -/
def LeavesNoTrace (h : List (Access τ κ α)) : Prop := ∀ m m' : κ → α, run m h = some m' → m' = m

/-- The serial history of the others is the same one. -/
theorem run_serially_without {order : List τ} {gone : τ → Bool}
    (hgone : ∀ t ∈ order, gone t = true → LeavesNoTrace (own h t))
    (hr : run m (serially order h) = some m') :
    run m (serially (order.filter fun t => !gone t) h) = some m' := by
  induction order generalizing m with
  | nil => exact hr
  | cons t order ih =>
    obtain ⟨ht, hgone⟩ := List.forall_mem_cons.mp hgone
    unfold serially at hr
    rw [List.flatMap_cons, run_append] at hr
    obtain ⟨m1, hown, hrest⟩ := Option.bind_eq_some_iff.mp hr
    have hserial := ih hgone hrest
    cases hg : gone t with
    | true =>
      rw [List.filter_cons_of_neg (by simp [hg]), ← ht hg m m1 hown]
      exact hserial
    | false =>
      rw [List.filter_cons_of_pos (by simp [hg])]
      unfold serially
      rw [List.flatMap_cons, run_append, hown]
      exact hserial

end

section
variable [DecidableEq τ] {h h' : List (Access τ κ α)} {t : τ}

theorem own_append_self (ht : ∀ a ∈ h', a.tx = t) : own (h ++ h') t = own h t ++ h' := by
  unfold own
  have hall : h'.filter (fun a => a.tx = t) = h' :=
    List.filter_eq_self.mpr fun a ha => by simpa using ht a ha
  rw [List.filter_append, hall]

theorem own_append_other (ht : ∀ a ∈ h', a.tx ≠ t) : own (h ++ h') t = own h t := by
  unfold own
  have hnone : h'.filter (fun a => a.tx = t) = [] :=
    List.filter_eq_nil_iff.mpr fun a ha => by simpa using ht a ha
  rw [List.filter_append, hnone, List.append_nil]

end

/-! ## Locking in two phases -/

/-- The transactions that have stopped locking, in that order, over the locks that the
transactions have: `shares t o` keeps the others from changing the object, and `owns t o` keeps
them off it. -/
structure TwoPhase (shares owns : τ → κ → Prop) (closed : List τ) (h : List (Access τ κ α)) :
    Prop where
  nodup : closed.Nodup
  alone : ∀ t o, owns t o → ∀ u, u ≠ t → ¬ shares u o
  owned : ∀ t o, owns t o → shares t o
  kept : ∀ a ∈ h, a.tx ∉ closed → shares a.tx a.object ∧ (a.Writes → owns a.tx a.object)
  shared_after : ∀ t o, shares t o → ∀ a ∈ h, a.tx ≠ t → a.object = o → a.Writes →
    Before closed a.tx t
  owned_after : ∀ t o, owns t o → ∀ a ∈ h, a.tx ≠ t → a.object = o → Before closed a.tx t
  ordered : h.Pairwise fun a b => a.Conflicts b → Before closed a.tx b.tx

section
variable {shares owns shares' owns' : τ → κ → Prop} {closed : List τ} {a : Access τ κ α}
  {h : List (Access τ κ α)}

theorem twoPhase_start (alone : ∀ t o, owns t o → ∀ u, u ≠ t → ¬ shares u o)
    (owned : ∀ t o, owns t o → shares t o) :
    TwoPhase shares owns [] ([] : List (Access τ κ α)) :=
  ⟨List.nodup_nil, alone, owned, by simp, by simp, by simp, List.Pairwise.nil⟩

/-- An access under a lock. -/
theorem TwoPhase.access (T : TwoPhase shares owns closed h) (hs : shares a.tx a.object)
    (ho : a.Writes → owns a.tx a.object) : TwoPhase shares owns closed (h ++ [a]) := by
  refine ⟨T.nodup, T.alone, T.owned, fun b hb hopen => ?_, fun t o hst b hb hne hbo hw => ?_,
    fun t o hot b hb hne hbo => ?_, ?_⟩
  · rcases List.mem_append.mp hb with hb | hb
    · exact T.kept b hb hopen
    · obtain rfl := List.mem_singleton.mp hb
      exact ⟨hs, ho⟩
  · rcases List.mem_append.mp hb with hb | hb
    · exact T.shared_after t o hst b hb hne hbo hw
    · obtain rfl := List.mem_singleton.mp hb
      exact absurd (hbo ▸ hst) (T.alone _ _ (ho hw) t (Ne.symm hne))
  · rcases List.mem_append.mp hb with hb | hb
    · exact T.owned_after t o hot b hb hne hbo
    · obtain rfl := List.mem_singleton.mp hb
      exact absurd hs (T.alone _ _ (hbo ▸ hot) _ hne)
  · rw [List.pairwise_append]
    refine ⟨T.ordered, List.pairwise_singleton _ _, fun b hb c hc hx => ?_⟩
    obtain rfl := List.mem_singleton.mp hc
    obtain ⟨hne, hobj, hw | hw⟩ := hx
    · exact T.shared_after _ _ hs b hb hne hobj hw
    · exact T.owned_after _ _ (ho hw) b hb hne hobj

/-- Transactions that still lock get locks and lose none, and those that have stopped may lose
theirs. -/
theorem TwoPhase.locks (T : TwoPhase shares owns closed h)
    (alone : ∀ t o, owns' t o → ∀ u, u ≠ t → ¬ shares' u o)
    (owned : ∀ t o, owns' t o → shares' t o)
    (hs : ∀ t o, shares' t o → shares t o ∨ t ∉ closed)
    (ho : ∀ t o, owns' t o → owns t o ∨ t ∉ closed)
    (hkeep : ∀ t, t ∉ closed → ∀ o, (shares t o → shares' t o) ∧ (owns t o → owns' t o)) :
    TwoPhase shares' owns' closed h := by
  refine ⟨T.nodup, alone, owned, fun a ha hopen => ?_, fun t o hst a ha hne hao hw => ?_,
    fun t o hot a ha hne hao => ?_, T.ordered⟩
  · obtain ⟨h1, h2⟩ := T.kept a ha hopen
    exact ⟨(hkeep _ hopen _).1 h1, fun hw => (hkeep _ hopen _).2 (h2 hw)⟩
  · rcases hs t o hst with hst' | hopen
    · exact T.shared_after t o hst' a ha hne hao hw
    · -- who changed the object before has stopped locking, or would have it still
      refine before_of_notMem ?_ hopen
      by_contra ha'
      have hown := (hkeep _ ha' _).2 ((T.kept a ha ha').2 hw)
      exact alone _ _ (hao ▸ hown) t (Ne.symm hne) hst
  · rcases ho t o hot with hot' | hopen
    · exact T.owned_after t o hot' a ha hne hao
    · refine before_of_notMem ?_ hopen
      by_contra ha'
      have hshare := (hkeep _ ha' _).1 (T.kept a ha ha').1
      exact alone _ _ hot a.tx hne (hao ▸ hshare)

/-- A transaction stops locking. -/
theorem TwoPhase.close (T : TwoPhase shares owns closed h) {t : τ} (ht : t ∉ closed) :
    TwoPhase shares owns (closed ++ [t]) h := by
  refine ⟨?_, T.alone, T.owned, fun a ha hopen => ?_, fun u o hs a ha hne hao hw => ?_,
    fun u o ho a ha hne hao => ?_, T.ordered.imp fun hab hx => (hab hx).append _⟩
  · rw [List.nodup_append]
    refine ⟨T.nodup, List.nodup_singleton _, fun a ha b hb he => ht ?_⟩
    rwa [← List.mem_singleton.mp hb, ← he]
  · exact T.kept a ha fun hc => hopen (List.mem_append_left _ hc)
  · exact (T.shared_after u o hs a ha hne hao hw).append _
  · exact (T.owned_after u o ho a ha hne hao).append _

/-- Locking in two phases leaves a history that amounts to a serial one: the transactions that
have stopped locking, in that order, and then the others, in any order. -/
theorem TwoPhase.run_serially (T : TwoPhase shares owns closed h) (rest : List τ)
    (hnodup : (closed ++ rest).Nodup) (hall : ∀ a ∈ h, a.tx ∈ closed ++ rest)
    [DecidableEq τ] [DecidableEq κ] [DecidableEq α] {m m' : κ → α}
    (hr : run m h = some m') : run m (serially (closed ++ rest) h) = some m' :=
  serial.run_serially hnodup hall (T.ordered.imp fun hab hx => (hab hx).append _) hr

end

end serial
