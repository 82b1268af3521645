-- Cursors that are pulled: each pull gives the next element, or the end. The
-- loops that filter and map what another cursor gives, and what they give.
import Mathlib.Data.List.Forall2

namespace pull

variable {σ ε α β : Type}

/-- A pull gives an element, or the end, or an error, and leaves a state. It may have no
result. -/
abbrev Pull (σ ε α : Type) := σ → Option (Except ε (Option α) × σ)

/-- From a state that has a list left a pull gives the first of it, and leaves the others. `ok`
is what a pull needs of its state. -/
structure Gives (next : Pull σ ε α) (ok : σ → Bool) (left : σ → List α → Prop) : Prop where
  first : ∀ {s l}, left s l → ok s = true →
    ∃ s', next s = some (.ok l.head?, s') ∧ left s' l.tail

/-! ## Mapping -/

/-- Pull once, and change the element. -/
def mapPull (next : Pull σ ε α) (f : α → Except ε β) : Pull σ ε β := fun s =>
  (next s).map fun r =>
    (match r.1 with
      | .ok (some a) => (f a).map some
      | .ok none => .ok none
      | .error e => .error e, r.2)

theorem mapPull_ok {next : Pull σ ε α} {f : α → Except ε β} {s s' : σ} {b : β}
    (h : mapPull next f s = some (.ok (some b), s')) :
    ∃ a, next s = some (.ok (some a), s') ∧ f a = .ok b := by
  obtain ⟨⟨r, t⟩, hr, heq⟩ := Option.map_eq_some_iff.mp h
  rcases r with e | _ | a
  · cases heq
  · cases heq
  · obtain ⟨hb, rfl⟩ := Prod.mk.inj heq
    cases hf : f a with
    | error e =>
      simp only [hf] at hb
      cases hb
    | ok b' =>
      simp only [hf] at hb
      cases hb
      exact ⟨a, hr, hf⟩

/-- The changes of what is left. -/
def MapLeft (f : α → Except ε β) (left : σ → List α → Prop) (s : σ) (l : List β) : Prop :=
  ∃ all, left s all ∧ List.Forall₂ (fun a b => f a = .ok b) all l

theorem Gives.mapPull {next : Pull σ ε α} {ok : σ → Bool} {left : σ → List α → Prop}
    (G : Gives next ok left) (f : α → Except ε β) :
    Gives (mapPull next f) ok (MapLeft f left) := by
  refine ⟨?_⟩
  rintro s l ⟨all, hleft, hall⟩ hok
  obtain ⟨s', hnext, hleft'⟩ := G.first hleft hok
  refine ⟨s', ?_, all.tail, hleft', ?_⟩
  · unfold pull.mapPull
    rw [hnext]
    cases hall with
    | nil => rfl
    | cons hf _ =>
      simp only [List.head?_cons, Option.map_some, hf]
      rfl
  · cases hall with
    | nil => exact .nil
    | cons _ hrest => exact hrest

/-! ## Filtering -/

section
variable (next : Pull σ ε α) (keep : α → Option (Except ε Bool))

/-- Pull until an element is kept, or the end comes. The last arm hands on the end, an error,
and no result. -/
def filterLoop : Nat → Pull σ ε α
  | 0, _ => none
  | fuel + 1, s =>
    match next s with
    | some (.ok (some a), s) =>
      match keep a with
      | none => none
      | some (.error e) => some (.error e, s)
      | some (.ok true) => some (.ok (some a), s)
      | some (.ok false) => filterLoop fuel s
    | r => r

/-- Every pull of the loop finds what it needs. -/
def filterOk (ok : σ → Bool) : Nat → σ → Bool
  | 0, _ => true
  | fuel + 1, s =>
    ok s && match next s with
      | some (.ok (some a), s) =>
        match keep a with
        | some (.ok false) => filterOk ok fuel s
        | _ => true
      | _ => true

end

/-- Those of what is left that are kept. The fuel is enough for all of it. -/
def FilterLeft (keep : α → Option (Except ε Bool)) (kept : α → Bool) (fuel : Nat)
    (left : σ → List α → Prop) (s : σ) (l : List α) : Prop :=
  ∃ all, left s all ∧ (∀ a ∈ all, keep a = some (.ok (kept a))) ∧ all.length < fuel ∧
    l = all.filter kept

section
variable {next : Pull σ ε α} {ok : σ → Bool} {left : σ → List α → Prop}
  {keep : α → Option (Except ε Bool)} {kept : α → Bool}

/-- The loop gives the first element that is kept, and leaves what comes after it. -/
theorem Gives.filterLoop_run (G : Gives next ok left) {fuel : Nat} {all : List α} {s : σ}
    (hleft : left s all) (hkeep : ∀ a ∈ all, keep a = some (.ok (kept a)))
    (hfuel : all.length < fuel) (hok : filterOk next keep ok fuel s = true) :
    ∃ s' rest, filterLoop next keep fuel s = some (.ok (all.filter kept).head?, s') ∧
      left s' rest ∧ rest <:+ all ∧ rest.filter kept = (all.filter kept).tail := by
  induction fuel generalizing all s with
  | zero => exact absurd hfuel (Nat.not_lt_zero _)
  | succ fuel ih =>
    unfold filterOk at hok
    rw [Bool.and_eq_true] at hok
    obtain ⟨s', hnext, hleft'⟩ := G.first hleft hok.1
    have hgo := hok.2
    unfold filterLoop
    rw [hnext] at hgo ⊢
    cases all with
    | nil => exact ⟨s', [], rfl, hleft', List.suffix_refl _, rfl⟩
    | cons a all =>
      rw [List.tail_cons] at hleft'
      simp only [List.head?_cons, hkeep a List.mem_cons_self] at hgo ⊢
      cases hk : kept a with
      | true =>
        rw [List.filter_cons_of_pos hk]
        exact ⟨s', all, rfl, hleft', List.suffix_cons a all, rfl⟩
      | false =>
        rw [hk] at hgo
        rw [List.filter_cons_of_neg (by simp [hk])]
        rw [List.length_cons] at hfuel
        obtain ⟨t, rest, hrun, hrest, hsuffix, hfilter⟩ :=
          ih hleft' (fun b hb => hkeep b (by simp [hb])) (by omega) hgo
        exact ⟨t, rest, hrun, hrest, hsuffix.trans (List.suffix_cons a all), hfilter⟩

theorem Gives.filterLoop (G : Gives next ok left) (fuel : Nat) :
    Gives (filterLoop next keep fuel) (filterOk next keep ok fuel)
      (FilterLeft keep kept fuel left) := by
  refine ⟨?_⟩
  rintro s l ⟨all, hleft, hkeep, hlen, rfl⟩ hok
  obtain ⟨s', rest, hrun, hrest, hsuffix, hfilter⟩ := G.filterLoop_run hleft hkeep hlen hok
  exact ⟨s', hrun, rest, hrest, fun a ha => hkeep a (hsuffix.subset ha),
    Nat.lt_of_le_of_lt hsuffix.length_le hlen, hfilter.symm⟩

end

/-! ## Errors on the way -/

/-- What a pull gives when an element, an error or nothing is next. -/
def firstOf : List (Except ε α) → Except ε (Option α)
  | [] => .ok none
  | .ok a :: _ => .ok (some a)
  | .error e :: _ => .error e

/-- From a state that has a list left, of elements and of errors in their places, a pull gives
the first of it, and leaves the others. -/
structure GivesEach (next : Pull σ ε α) (ok : σ → Bool) (left : σ → List (Except ε α) → Prop) :
    Prop where
  first : ∀ {s l}, left s l → ok s = true → ∃ s', next s = some (firstOf l, s') ∧ left s' l.tail

theorem firstOf_map_ok (l : List α) : firstOf (l.map (.ok : α → Except ε α)) = .ok l.head? := by
  cases l <;> rfl

/-- What is left, none of it an error. -/
def AllOk (left : σ → List α → Prop) (s : σ) (l : List (Except ε α)) : Prop :=
  ∃ all, left s all ∧ l = all.map .ok

theorem Gives.each {next : Pull σ ε α} {ok : σ → Bool} {left : σ → List α → Prop}
    (G : Gives next ok left) : GivesEach next ok (AllOk left) := by
  refine ⟨?_⟩
  rintro s l ⟨all, hleft, rfl⟩ hok
  obtain ⟨s', hnext, hleft'⟩ := G.first hleft hok
  rw [firstOf_map_ok, ← List.map_tail]
  exact ⟨s', hnext, all.tail, hleft', rfl⟩

/-- The changes of what is left, with the errors that they raise. -/
def MapEach (f : α → Except ε β) (left : σ → List (Except ε α) → Prop) (s : σ)
    (l : List (Except ε β)) : Prop :=
  ∃ all, left s all ∧ l = all.map (·.bind f)

theorem GivesEach.mapPull {next : Pull σ ε α} {ok : σ → Bool}
    {left : σ → List (Except ε α) → Prop} (G : GivesEach next ok left) (f : α → Except ε β) :
    GivesEach (mapPull next f) ok (MapEach f left) := by
  refine ⟨?_⟩
  rintro s l ⟨all, hleft, rfl⟩ hok
  obtain ⟨s', hnext, hleft'⟩ := G.first hleft hok
  rw [← List.map_tail]
  refine ⟨s', ?_, all.tail, hleft', rfl⟩
  unfold pull.mapPull
  rw [hnext]
  rcases all with _ | ⟨e | a, all⟩
  · rfl
  · rfl
  · simp only [firstOf, List.map_cons, Except.bind, Option.map_some]
    rcases f a with e | b <;> rfl

/-- What a filter makes of an element, or of an error in its place. -/
def sift (keep : α → Option (Except ε Bool)) : Except ε α → Option (Except ε α)
  | .error e => some (.error e)
  | .ok a =>
    match keep a with
    | some (.ok true) => some (.ok a)
    | some (.error e) => some (.error e)
    | _ => none

/-- What a filter leaves of what is left. Each element is kept or not, or raises an error. The
fuel is enough for all of it. -/
def SiftEach (keep : α → Option (Except ε Bool)) (fuel : Nat)
    (left : σ → List (Except ε α) → Prop) (s : σ) (l : List (Except ε α)) : Prop :=
  ∃ all, left s all ∧ (∀ a, .ok a ∈ all → keep a ≠ none) ∧ all.length < fuel ∧
    l = all.filterMap (sift keep)

section
variable {next : Pull σ ε α} {ok : σ → Bool} {left : σ → List (Except ε α) → Prop}
  {keep : α → Option (Except ε Bool)}

/-- The loop gives the first element or error that comes through, and leaves what is after it. -/
theorem GivesEach.filterLoop_run (G : GivesEach next ok left) {fuel : Nat}
    {all : List (Except ε α)} {s : σ} (hleft : left s all)
    (hkeep : ∀ a, .ok a ∈ all → keep a ≠ none) (hfuel : all.length < fuel)
    (hok : filterOk next keep ok fuel s = true) :
    ∃ s' rest, filterLoop next keep fuel s = some (firstOf (all.filterMap (sift keep)), s') ∧
      left s' rest ∧ rest <:+ all ∧
      rest.filterMap (sift keep) = (all.filterMap (sift keep)).tail := by
  induction fuel generalizing all s with
  | zero => exact absurd hfuel (Nat.not_lt_zero _)
  | succ fuel ih =>
    unfold filterOk at hok
    rw [Bool.and_eq_true] at hok
    obtain ⟨s', hnext, hleft'⟩ := G.first hleft hok.1
    have hgo := hok.2
    unfold filterLoop
    rw [hnext] at hgo ⊢
    rcases all with _ | ⟨e | a, all⟩
    · exact ⟨s', [], rfl, hleft', List.suffix_refl _, rfl⟩
    · exact ⟨s', all, rfl, hleft', List.suffix_cons _ all, rfl⟩
    rw [List.tail_cons] at hleft'
    simp only [firstOf] at hgo ⊢
    rcases hk : keep a with _ | e | _ | _
    · exact absurd hk (hkeep a List.mem_cons_self)
    · have hsift : sift keep (.ok a) = some (.error e) := by
        unfold sift
        simp only [hk]
      rw [List.filterMap_cons_some hsift]
      exact ⟨s', all, rfl, hleft', List.suffix_cons _ all, rfl⟩
    · -- the element is skipped, and the loop goes on
      have hsift : sift keep (.ok a) = none := by
        unfold sift
        simp only [hk]
      rw [hk] at hgo
      rw [List.filterMap_cons_none hsift]
      rw [List.length_cons] at hfuel
      obtain ⟨t, rest, hrun, hrest, hsuffix, hfilter⟩ :=
        ih hleft' (fun b hb => hkeep b (List.mem_cons_of_mem _ hb)) (by omega) hgo
      exact ⟨t, rest, hrun, hrest, hsuffix.trans (List.suffix_cons _ all), hfilter⟩
    · have hsift : sift keep (.ok a) = some (.ok a) := by
        unfold sift
        simp only [hk]
      rw [List.filterMap_cons_some hsift]
      exact ⟨s', all, rfl, hleft', List.suffix_cons _ all, rfl⟩

theorem GivesEach.filterLoop (G : GivesEach next ok left) (fuel : Nat) :
    GivesEach (filterLoop next keep fuel) (filterOk next keep ok fuel)
      (SiftEach keep fuel left) := by
  refine ⟨?_⟩
  rintro s l ⟨all, hleft, hkeep, hlen, rfl⟩ hok
  obtain ⟨s', rest, hrun, hrest, hsuffix, hfilter⟩ := G.filterLoop_run hleft hkeep hlen hok
  exact ⟨s', hrun, rest, hrest, fun a ha => hkeep a (hsuffix.subset ha),
    Nat.lt_of_le_of_lt hsuffix.length_le hlen, hfilter.symm⟩

end

/-! ## Loops with as much fuel as they need -/

/-- What a pull comes to, for some fuel. -/
def Returns (next : Nat → Pull σ ε α) (s : σ) (r : Except ε (Option α) × σ) : Prop :=
  ∃ fuel, next fuel s = some r

/-- More fuel changes no result. -/
def Steady (next : Nat → Pull σ ε α) : Prop :=
  ∀ {n m s r}, n ≤ m → next n s = some r → next m s = some r

/-- What a loop that filters returns, when each pull of it returns what `step` says. -/
inductive Filtered (step : σ → Except ε (Option α) × σ → Prop)
    (keep : α → Option (Except ε Bool)) : σ → Except ε (Option α) × σ → Prop
  | ended {s s' : σ} : step s (.ok none, s') → Filtered step keep s (.ok none, s')
  | raised {s s' : σ} {e : ε} : step s (.error e, s') → Filtered step keep s (.error e, s')
  | kept {s s' : σ} {a : α} : step s (.ok (some a), s') → keep a = some (.ok true) →
      Filtered step keep s (.ok (some a), s')
  | failed {s s' : σ} {a : α} {e : ε} : step s (.ok (some a), s') → keep a = some (.error e) →
      Filtered step keep s (.error e, s')
  | skipped {s s' : σ} {a : α} {r : Except ε (Option α) × σ} : step s (.ok (some a), s') →
      keep a = some (.ok false) → Filtered step keep s' r → Filtered step keep s r

/-- The elements that pulls give, up to the end. -/
inductive Drains (step : σ → Except ε (Option α) × σ → Prop) : σ → List α → Prop
  | ended {s s' : σ} : step s (.ok none, s') → Drains step s []
  | pulled {s s' : σ} {a : α} {l : List α} : step s (.ok (some a), s') → Drains step s' l →
      Drains step s (a :: l)

section
variable {next : Nat → Pull σ ε α} {keep : α → Option (Except ε Bool)} {s : σ}
  {r : Except ε (Option α) × σ}

theorem Steady.mapPull {f : α → Except ε β} (S : Steady next) :
    Steady fun fuel => mapPull (next fuel) f := by
  intro n m s r hle h
  obtain ⟨r0, hr0, h⟩ := Option.map_eq_some_iff.mp h
  exact Option.map_eq_some_iff.mpr ⟨r0, S hle hr0, h⟩

theorem filterLoop_of_le {next next' : Pull σ ε α} (hnext : ∀ {s r}, next s = some r → next' s = some r)
    {n m : Nat} (hle : n ≤ m) (h : filterLoop next keep n s = some r) :
    filterLoop next' keep m s = some r := by
  induction n generalizing m s with
  | zero => cases h
  | succ n ih =>
    obtain ⟨m, rfl⟩ : ∃ k, m = k + 1 := ⟨m - 1, by omega⟩
    unfold filterLoop at h ⊢
    rcases hp : next s with _ | ⟨r0, s'⟩
    · rw [hp] at h
      cases h
    rw [hp] at h
    rw [hnext hp]
    rcases r0 with e | _ | a
    · exact h
    · exact h
    simp only at h ⊢
    rcases hk : keep a with _ | e | _ | _
    · rw [hk] at h
      cases h
    · rw [hk] at h
      exact h
    · rw [hk] at h
      exact ih (by omega) h
    · rw [hk] at h
      exact h

theorem Steady.filterLoop (S : Steady next) : Steady fun fuel => filterLoop (next fuel) keep fuel :=
  fun hle h => filterLoop_of_le (fun hp => S hle hp) hle h

/-- The loop returns what its pulls come to. -/
theorem returns_filterLoop (S : Steady next) :
    Returns (fun fuel => filterLoop (next fuel) keep fuel) s r ↔
      Filtered (Returns next) keep s r := by
  constructor
  · rintro ⟨fuel, h⟩
    -- the pulls keep the fuel that they have, and the loop loses it
    have hloop : ∀ n s, pull.filterLoop (next fuel) keep n s = some r →
        Filtered (Returns next) keep s r := by
      intro n
      induction n with
      | zero =>
        intro s h
        cases h
      | succ n ih =>
        intro s h
        unfold pull.filterLoop at h
        rcases hp : next fuel s with _ | ⟨r0, s'⟩
        · rw [hp] at h
          cases h
        rw [hp] at h
        rcases r0 with e | _ | a
        · cases h
          exact .raised ⟨fuel, hp⟩
        · cases h
          exact .ended ⟨fuel, hp⟩
        simp only at h
        rcases hk : keep a with _ | e | _ | _
        · rw [hk] at h
          cases h
        · rw [hk] at h
          cases h
          exact .failed ⟨fuel, hp⟩ hk
        · rw [hk] at h
          exact .skipped ⟨fuel, hp⟩ hk (ih s' h)
        · rw [hk] at h
          cases h
          exact .kept ⟨fuel, hp⟩ hk
    exact hloop fuel s h
  · intro h
    induction h with
    | ended hp =>
      obtain ⟨n, hp⟩ := hp
      refine ⟨n + 1, ?_⟩
      have hp := S (Nat.le_add_right n 1) hp
      simp only [pull.filterLoop, hp]
    | raised hp =>
      obtain ⟨n, hp⟩ := hp
      refine ⟨n + 1, ?_⟩
      have hp := S (Nat.le_add_right n 1) hp
      simp only [pull.filterLoop, hp]
    | kept hp hk =>
      obtain ⟨n, hp⟩ := hp
      refine ⟨n + 1, ?_⟩
      have hp := S (Nat.le_add_right n 1) hp
      simp only [pull.filterLoop, hp, hk]
    | failed hp hk =>
      obtain ⟨n, hp⟩ := hp
      refine ⟨n + 1, ?_⟩
      have hp := S (Nat.le_add_right n 1) hp
      simp only [pull.filterLoop, hp, hk]
    | skipped hp hk _ ih =>
      obtain ⟨n, hp⟩ := hp
      obtain ⟨m, hm⟩ := ih
      refine ⟨max n m + 1, ?_⟩
      have hp := S (show n ≤ max n m + 1 by omega) hp
      simp only [pull.filterLoop, hp, hk]
      exact filterLoop_of_le (fun hp => S (by omega) hp) (Nat.le_max_right n m) hm

end

/-! ## Two filters, one over the other -/

section
variable {step : σ → Except ε (Option α) × σ → Prop} {keep keep1 keep2 : α → Option (Except ε Bool)}
  {s s' : σ} {a : α} {r : Except ε (Option α) × σ}

/-- A filter keeps what two filters keep, of all that the pulls give. -/
def KeepsBoth (step : σ → Except ε (Option α) × σ → Prop)
    (keep1 keep2 keep : α → Option (Except ε Bool)) : Prop :=
  ∀ s a s', step s (.ok (some a), s') → ∃ k1 k2, keep1 a = some (.ok k1) ∧ keep2 a = some (.ok k2) ∧
    keep a = some (.ok (k1 && k2))

/-- What comes out of a filter was pulled, and kept. -/
theorem Filtered.source (h : Filtered step keep s (.ok (some a), s')) :
    keep a = some (.ok true) ∧ ∃ s0, step s0 (.ok (some a), s') := by
  generalize hr : ((.ok (some a) : Except ε (Option α)), s') = r at h
  induction h with
  | ended | raised | failed => cases hr
  | kept hp hk =>
    cases hr
    exact ⟨hk, _, hp⟩
  | skipped _ _ _ ih => exact ih hr

/-- The filter behind goes on from what the filter in front has returned. -/
theorem Filtered.through (K : KeepsBoth step keep1 keep2 keep) {r1 : Except ε (Option α) × σ}
    (h : Filtered step keep1 s r1)
    (hend : ∀ a, r1.1 = .ok (some a) → keep a = some (.ok true) → r = r1)
    (hother : (∀ a, r1.1 ≠ .ok (some a)) → r = r1)
    (hskip : ∀ a, r1.1 = .ok (some a) → keep a = some (.ok false) → Filtered step keep r1.2 r) :
    Filtered step keep s r := by
  induction h with
  | ended hp =>
    rw [hother nofun]
    exact .ended hp
  | raised hp =>
    rw [hother nofun]
    exact .raised hp
  | @kept s s' a hp hk =>
    obtain ⟨k1, k2, hk1, _, hk12⟩ := K s a s' hp
    rw [hk] at hk1
    cases hk1
    rw [Bool.true_and] at hk12
    cases k2 with
    | true =>
      rw [hend a rfl hk12]
      exact .kept hp hk12
    | false => exact .skipped hp hk12 (hskip a rfl hk12)
  | @failed s s' a e hp hk =>
    obtain ⟨k1, _, hk1, _⟩ := K s a s' hp
    rw [hk] at hk1
    cases hk1
  | @skipped s s' a r1 hp hk _ ih =>
    obtain ⟨k1, k2, hk1, _, hk12⟩ := K s a s' hp
    rw [hk] at hk1
    cases hk1
    exact .skipped hp hk12 (ih hend hother hskip)

/-- A filter over a filter returns what one filter returns that keeps what both keep. -/
theorem filtered_twice (K : KeepsBoth step keep1 keep2 keep) :
    Filtered (Filtered step keep1) keep2 s r ↔ Filtered step keep s r := by
  constructor
  · intro h
    induction h with
    | ended hp => exact hp.through K nofun (fun _ => rfl) nofun
    | raised hp => exact hp.through K nofun (fun _ => rfl) nofun
    | @kept s s' a hp hk =>
      obtain ⟨hk1, s0, hp0⟩ := hp.source
      obtain ⟨_, _, h1, h2, hk12⟩ := K s0 a s' hp0
      rw [hk1] at h1
      rw [hk] at h2
      cases h1
      cases h2
      refine hp.through K (fun _ _ _ => rfl) (fun hno => absurd rfl (hno a)) fun b hb hfalse => ?_
      cases hb
      rw [hk12] at hfalse
      cases hfalse
    | @failed s s' a e hp hk =>
      obtain ⟨_, s0, hp0⟩ := hp.source
      obtain ⟨_, _, _, h2, _⟩ := K s0 a s' hp0
      rw [hk] at h2
      cases h2
    | @skipped s s' a r hp hk _ ih =>
      obtain ⟨hk1, s0, hp0⟩ := hp.source
      obtain ⟨_, _, h1, h2, hk12⟩ := K s0 a s' hp0
      rw [hk1] at h1
      rw [hk] at h2
      cases h1
      cases h2
      refine hp.through K (fun b hb htrue => ?_) (fun hno => absurd rfl (hno a)) fun _ _ _ => ih
      cases hb
      rw [hk12] at htrue
      cases htrue
  · intro h
    induction h with
    | ended hp => exact .ended (.ended hp)
    | raised hp => exact .raised (.raised hp)
    | @kept s s' a hp hk =>
      obtain ⟨k1, k2, h1, h2, hk12⟩ := K s a s' hp
      rw [hk] at hk12
      simp only [Option.some.injEq, Except.ok.injEq, Bool.true_eq, Bool.and_eq_true] at hk12
      obtain ⟨rfl, rfl⟩ := hk12
      exact .kept (.kept hp h1) h2
    | @failed s s' a e hp hk =>
      obtain ⟨_, _, _, _, hk12⟩ := K s a s' hp
      rw [hk] at hk12
      cases hk12
    | @skipped s s' a r hp hk _ ih =>
      obtain ⟨k1, k2, h1, h2, hk12⟩ := K s a s' hp
      cases k1 with
      | true =>
        rw [hk] at hk12
        simp only [Bool.true_and, Option.some.injEq, Except.ok.injEq] at hk12
        subst hk12
        exact .skipped (.kept hp h1) h2 ih
      | false =>
        -- the filter in front skips it, and what it returns next comes later
        cases ih with
        | ended hq => exact .ended (.skipped hp h1 hq)
        | raised hq => exact .raised (.skipped hp h1 hq)
        | kept hq hk2 => exact .kept (.skipped hp h1 hq) hk2
        | failed hq hk2 => exact .failed (.skipped hp h1 hq) hk2
        | skipped hq hk2 hrest => exact .skipped (.skipped hp h1 hq) hk2 hrest

end

/-! ## Pulls to the end -/

/-- Pull until the end comes, or an error. -/
def pullAll (next : Pull σ ε α) : Nat → σ → Option (Except ε (List α) × σ)
  | 0, _ => none
  | fuel + 1, s =>
    match next s with
    | none => none
    | some (.error e, s) => some (.error e, s)
    | some (.ok none, s) => some (.ok [], s)
    | some (.ok (some a), s) => (pullAll next fuel s).map fun r => (r.1.map (a :: ·), r.2)

/-- The elements, or the first error among them. -/
def allOf : List (Except ε α) → Except ε (List α)
  | [] => .ok []
  | .error e :: _ => .error e
  | .ok a :: l => (allOf l).map (a :: ·)

/-- A pull keeps what holds of its state. -/
def KeepsState (next : Pull σ ε α) (I : σ → Prop) : Prop :=
  ∀ s r, I s → next s = some r → I r.2

section
variable {next : Pull σ ε α} {ok : σ → Bool} {left : σ → List (Except ε α) → Prop}
  {keep : α → Option (Except ε Bool)} {I : σ → Prop} {s : σ}

theorem KeepsState.mapPull (K : KeepsState next I) (f : α → Except ε β) :
    KeepsState (mapPull next f) I := by
  intro s r h hr
  obtain ⟨r0, hr0, rfl⟩ := Option.map_eq_some_iff.mp hr
  exact K s r0 h hr0

theorem KeepsState.filterLoop (K : KeepsState next I) (fuel : Nat) :
    KeepsState (filterLoop next keep fuel) I := by
  induction fuel with
  | zero =>
    intro s r _ hr
    cases hr
  | succ fuel ih =>
    intro s r h hr
    unfold pull.filterLoop at hr
    rcases hp : next s with _ | ⟨r0, s'⟩
    · rw [hp] at hr
      cases hr
    have h' := K s _ h hp
    rw [hp] at hr
    rcases r0 with e | _ | a
    · cases hr
      exact h'
    · cases hr
      exact h'
    simp only at hr
    rcases hk : keep a with _ | e | _ | _
    · rw [hk] at hr
      cases hr
    · rw [hk] at hr
      cases hr
      exact h'
    · rw [hk] at hr
      exact ih s' r h' hr
    · rw [hk] at hr
      cases hr
      exact h'

theorem KeepsState.pullAll (K : KeepsState next I) {fuel : Nat} {r : Except ε (List α) × σ}
    (h : I s) (hr : pullAll next fuel s = some r) : I r.2 := by
  induction fuel generalizing s r with
  | zero => cases hr
  | succ fuel ih =>
    unfold pull.pullAll at hr
    rcases hp : next s with _ | ⟨r0, s'⟩
    · rw [hp] at hr
      cases hr
    have h' := K s _ h hp
    rw [hp] at hr
    rcases r0 with e | _ | a
    · cases hr
      exact h'
    · cases hr
      exact h'
    · obtain ⟨r1, hr1, rfl⟩ := Option.map_eq_some_iff.mp hr
      have hend : I r1.2 := ih h' hr1
      exact hend

/-- Where every state with something left has what a pull needs, the loop of a filter has it
too. -/
theorem GivesEach.filterOk (G : GivesEach next ok left) (hok : ∀ s l, left s l → ok s = true)
    {l : List (Except ε α)} (hleft : left s l) (fuel : Nat) : filterOk next keep ok fuel s = true := by
  induction fuel generalizing s l with
  | zero => rfl
  | succ fuel ih =>
    obtain ⟨s', hnext, hleft'⟩ := G.first hleft (hok s l hleft)
    unfold pull.filterOk
    rw [hok s l hleft, hnext, Bool.true_and]
    rcases l with _ | ⟨e | a, l⟩
    · rfl
    · rfl
    simp only [firstOf]
    rcases keep a with _ | e | _ | _
    · rfl
    · rfl
    · exact ih hleft'
    · rfl

/-- All pulls give all that is left, or the first error of it. -/
theorem GivesEach.pullAll (G : GivesEach next ok left) (hok : ∀ s l, left s l → ok s = true)
    {l : List (Except ε α)} (hleft : left s l) {fuel : Nat} (hfuel : l.length < fuel) :
    ∃ s' rest, pullAll next fuel s = some (allOf l, s') ∧ left s' rest := by
  induction fuel generalizing s l with
  | zero => exact absurd hfuel (Nat.not_lt_zero _)
  | succ fuel ih =>
    obtain ⟨s', hnext, hleft'⟩ := G.first hleft (hok s l hleft)
    unfold pull.pullAll
    rw [hnext]
    rcases l with _ | ⟨e | a, l⟩
    · exact ⟨s', _, rfl, hleft'⟩
    · exact ⟨s', _, rfl, hleft'⟩
    · rw [List.tail_cons] at hleft'
      rw [List.length_cons] at hfuel
      obtain ⟨s2, rest, hall, hrest⟩ := ih hleft' (by omega)
      refine ⟨s2, rest, ?_, hrest⟩
      simp only [firstOf, hall]
      rfl

end

end pull
