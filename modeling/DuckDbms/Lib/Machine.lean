-- Machines whose steps are named by events: their reachable states, their
-- runs, and the rule that lifts what one step preserves to every run.
import Mathlib.Logic.Function.Basic

namespace machine

/-- An event that a state does not allow has no next state. -/
structure Machine (σ ε : Type) where
  start : σ → Prop
  next : σ → ε → Option σ

variable {σ ε : Type}

/-- No condition on the steps. -/
def always : σ → ε → Prop := fun _ _ => True

namespace Machine

variable (m : Machine σ ε)

/-- The states that steps which all meet `ok` reach from a start. -/
inductive Reach (ok : σ → ε → Prop) : σ → Prop
  | start {s : σ} : m.start s → Reach ok s
  | step {s t : σ} {e : ε} : Reach ok s → ok s e → m.next s e = some t → Reach ok t

/-- A run from one state to another, with the events it takes in order. -/
inductive Run (ok : σ → ε → Prop) (s : σ) : List ε → σ → Prop
  | nil : Run ok s [] s
  | snoc {l : List ε} {t u : σ} {e : ε} :
      Run ok s l t → ok t e → m.next t e = some u → Run ok s (l ++ [e]) u

/-- Take the events of a list in order. -/
def exec : σ → List ε → Option σ
  | s, [] => some s
  | s, e :: es => (m.next s e).bind (exec · es)

/-- Take the events of a list in order, as long as each one passes a check. -/
def execIf (check : σ → ε → Bool) : σ → List ε → Option σ
  | s, [] => some s
  | s, e :: es => if check s e then (m.next s e).bind (execIf check · es) else none

variable {m} {ok : σ → ε → Prop}

/-- What a start has and each step keeps holds in every reachable state. -/
theorem Reach.invariant {I : σ → Prop} {s : σ} (h : m.Reach ok s) (h0 : ∀ s, m.start s → I s)
    (hstep : ∀ s e t, I s → ok s e → m.next s e = some t → I t) : I s := by
  induction h with
  | start hs => exact h0 _ hs
  | step _ hok hn ih => exact hstep _ _ _ ih hok hn

theorem Reach.run {s t : σ} {es : List ε} (h : m.Reach ok s) (hr : m.Run ok s es t) :
    m.Reach ok t := by
  induction hr with
  | nil => exact h
  | snoc _ hok hn ih => exact ih.step hok hn

theorem Reach.mono {ok' : σ → ε → Prop} {s : σ} (h : m.Reach ok s)
    (hle : ∀ s e, ok s e → ok' s e) : m.Reach ok' s := by
  induction h with
  | start hs => exact .start hs
  | step _ hok hn ih => exact ih.step (hle _ _ hok) hn

theorem Run.cons {s t u : σ} {e : ε} {es : List ε} (hok : ok s e) (hn : m.next s e = some t)
    (h : m.Run ok t es u) : m.Run ok s (e :: es) u := by
  induction h with
  | nil => exact Run.snoc (l := []) .nil hok hn
  | snoc _ hok' hn' ih => exact Run.snoc (l := e :: _) ih hok' hn'

theorem Run.trans {s t u : σ} {es fs : List ε} (h : m.Run ok s es t) (h' : m.Run ok t fs u) :
    m.Run ok s (es ++ fs) u := by
  induction h' with
  | nil => rwa [List.append_nil]
  | snoc _ hok hn ih =>
    rw [← List.append_assoc]
    exact ih.snoc hok hn

theorem Run.mono {ok' : σ → ε → Prop} {s t : σ} {es : List ε} (h : m.Run ok s es t)
    (hle : ∀ s e, ok s e → ok' s e) : m.Run ok' s es t := by
  induction h with
  | nil => exact .nil
  | snoc _ hok hn ih => exact ih.snoc (hle _ _ hok) hn

/-- A run of a list that splits is a run of each half. -/
theorem Run.split {s u : σ} {es as bs : List ε} (h : m.Run ok s es u) (he : es = as ++ bs) :
    ∃ t, m.Run ok s as t ∧ m.Run ok t bs u := by
  induction h generalizing bs with
  | nil =>
    obtain ⟨rfl, rfl⟩ := List.append_eq_nil_iff.mp he.symm
    exact ⟨s, .nil, .nil⟩
  | @snoc es t u e hr hok hn ih =>
    rcases List.eq_nil_or_concat bs with rfl | ⟨bs', b, rfl⟩
    · rw [List.append_nil] at he
      subst he
      exact ⟨u, .snoc hr hok hn, .nil⟩
    · rw [List.concat_eq_append, ← List.append_assoc] at he
      obtain ⟨he', hb⟩ := List.append_inj' he rfl
      obtain rfl : e = b := by simpa using hb
      obtain ⟨v, h1, h2⟩ := ih he'
      exact ⟨v, h1, by rw [List.concat_eq_append]; exact .snoc h2 hok hn⟩

/-- The events decide the run. -/
theorem Run.det {s t t' : σ} {es : List ε} (h : m.Run ok s es t) (h' : m.Run ok s es t') :
    t = t' := by
  induction h generalizing t' with
  | nil =>
    generalize hes : ([] : List ε) = es at h'
    cases h' with
    | nil => rfl
    | snoc _ _ _ => simp at hes
  | @snoc es v u e hr hok hn ih =>
    generalize hes : es ++ [e] = es' at h'
    cases h' with
    | nil => simp at hes
    | @snoc fs w _ f hr' _ hn' =>
      obtain ⟨rfl, hef⟩ := List.append_inj' hes rfl
      obtain rfl : e = f := by simpa using hef
      obtain rfl := ih hr'
      rw [hn] at hn'
      exact Option.some.inj hn'

/-- A run that is known to exist meets another condition when it does without its last step,
and the last step does. -/
theorem Run.snoc_iff {ok' : σ → ε → Prop} {s t u : σ} {es : List ε} {e : ε} (h : m.Run ok s es t)
    (hn : m.next t e = some u) : m.Run ok' s (es ++ [e]) u ↔ m.Run ok' s es t ∧ ok' t e := by
  constructor
  · intro h'
    generalize hfs : es ++ [e] = fs at h'
    cases h' with
    | nil => simp at hfs
    | @snoc gs v _ f hr hok _ =>
      obtain ⟨rfl, hf⟩ := List.append_inj' hfs rfl
      obtain rfl : e = f := by simpa using hf
      have hm : m.Run always s es v := hr.mono fun _ _ _ => trivial
      obtain rfl := (h.mono fun _ _ _ => trivial).det hm
      exact ⟨hr, hok⟩
  · rintro ⟨hr, hok⟩
    exact hr.snoc hok hn

/-- What holds at the first state of a run and each of its steps keeps holds at its end. -/
theorem Run.invariant {I : σ → Prop} {s t : σ} {es : List ε} (h : m.Run ok s es t) (h0 : I s)
    (hstep : ∀ s e t, e ∈ es → I s → ok s e → m.next s e = some t → I t) : I t := by
  induction h with
  | nil => exact h0
  | snoc _ hok hn ih =>
    refine hstep _ _ _ (by simp) (ih ?_) hok hn
    intro s e t he
    exact hstep s e t (by simp [he])

theorem run_of_exec {s t : σ} {es : List ε} (h : m.exec s es = some t) :
    m.Run always s es t := by
  induction es generalizing s with
  | nil =>
    obtain rfl : s = t := by simpa [exec] using h
    exact .nil
  | cons e es ih =>
    unfold exec at h
    obtain ⟨u, hu, hr⟩ := Option.bind_eq_some_iff.mp h
    exact Run.cons trivial hu (ih hr)

/-- A list of events that ends where a check holds is a run to such a state. -/
theorem run_of_exec_check {s : σ} {l : List ε} {p : σ → Bool}
    (h : (m.exec s l).map p = some true) : ∃ t, m.Run always s l t ∧ p t = true := by
  obtain ⟨t, ht, hp⟩ := Option.map_eq_some_iff.mp h
  exact ⟨t, run_of_exec ht, hp⟩

/-- The same for steps that meet `ok` where they pass a check. -/
theorem run_of_execIf {check : σ → ε → Bool} (hc : ∀ s e, check s e = true → ok s e) {s t : σ}
    {es : List ε} (h : m.execIf check s es = some t) : m.Run ok s es t := by
  induction es generalizing s with
  | nil =>
    obtain rfl : s = t := by simpa [execIf] using h
    exact .nil
  | cons e es ih =>
    unfold execIf at h
    split at h
    · rename_i he
      obtain ⟨u, hu, hr⟩ := Option.bind_eq_some_iff.mp h
      exact Run.cons (hc s e he) hu (ih hr)
    · cases h

theorem run_of_execIf_check {check : σ → ε → Bool} (hc : ∀ s e, check s e = true → ok s e)
    {s : σ} {l : List ε} {p : σ → Bool} (h : (m.execIf check s l).map p = some true) :
    ∃ t, m.Run ok s l t ∧ p t = true := by
  obtain ⟨t, ht, hp⟩ := Option.map_eq_some_iff.mp h
  exact ⟨t, run_of_execIf hc ht, hp⟩

/-- The same for a check that needs what the steps before have kept. -/
theorem run_of_execIf_keeps {check : σ → ε → Bool} {I : σ → Prop}
    (hc : ∀ s e t, I s → check s e = true → m.next s e = some t → ok s e ∧ I t) {s t : σ}
    {es : List ε} (h0 : I s) (h : m.execIf check s es = some t) : m.Run ok s es t ∧ I t := by
  induction es generalizing s with
  | nil =>
    obtain rfl : s = t := by simpa [execIf] using h
    exact ⟨.nil, h0⟩
  | cons e es ih =>
    unfold execIf at h
    split at h
    · rename_i he
      obtain ⟨u, hu, hr⟩ := Option.bind_eq_some_iff.mp h
      obtain ⟨hok, hI⟩ := hc s e u h0 he hu
      obtain ⟨hrun, hI'⟩ := ih hI hr
      exact ⟨Run.cons hok hu hrun, hI'⟩
    · cases h

/-- The same from a reachable state, for a check that needs what holds in reachable states. -/
theorem Reach.execIf {check : σ → ε → Bool} {I : σ → Prop} (hI : ∀ s, m.Reach ok s → I s)
    (hc : ∀ s e, I s → check s e = true → ok s e) {s t : σ} {es : List ε} (h0 : m.Reach ok s)
    (h : m.execIf check s es = some t) : m.Reach ok t := by
  induction es generalizing s with
  | nil =>
    obtain rfl : s = t := by simpa [Machine.execIf] using h
    exact h0
  | cons e es ih =>
    unfold Machine.execIf at h
    split at h
    · rename_i he
      obtain ⟨u, hu, hr⟩ := Option.bind_eq_some_iff.mp h
      exact ih (h0.step (hc s e (hI s h0) he) hu) hr
    · cases h

/-- A machine whose steps are, through a view of its states, steps of another machine or no
steps at all reaches what the other machine reaches. -/
theorem Reach.map {σ' ε' : Type} {m' : Machine σ' ε'} {ok' : σ' → ε' → Prop} (f : σ → σ')
    {I : σ → Prop} {s : σ} (h : m.Reach ok s) (hI : ∀ s, m.Reach ok s → I s)
    (h0 : ∀ s, m.start s → m'.start (f s))
    (hstep : ∀ s e t, I s → ok s e → m.next s e = some t →
      f t = f s ∨ ∃ e', ok' (f s) e' ∧ m'.next (f s) e' = some (f t)) : m'.Reach ok' (f s) := by
  induction h with
  | start hs => exact .start (h0 _ hs)
  | step hr hok hn ih =>
    rcases hstep _ _ _ (hI _ hr) hok hn with heq | ⟨e', hok', hn'⟩
    · rw [heq]
      exact ih
    · exact ih.step hok' hn'

/-- When every step makes a measure smaller, the measure bounds the length of the run. -/
theorem Run.length_le {I : σ → Prop} {μ : σ → Nat} {s t : σ} {es : List ε} (h : m.Run ok s es t)
    (h0 : I s)
    (hstep : ∀ s e t, e ∈ es → I s → ok s e → m.next s e = some t → I t ∧ μ t < μ s) :
    I t ∧ es.length + μ t ≤ μ s := by
  induction h with
  | nil => exact ⟨h0, by simp⟩
  | snoc _ hok hn ih =>
    obtain ⟨hI, hle⟩ := ih fun s e t he => hstep s e t (by simp [he])
    obtain ⟨hI', hlt⟩ := hstep _ _ _ (by simp) hI hok hn
    refine ⟨hI', ?_⟩
    rw [List.length_append, List.length_singleton]
    omega

end Machine

end machine
