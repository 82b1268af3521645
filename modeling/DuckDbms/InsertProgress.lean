-- Inserts come to an end. A step of a call makes a measure smaller that counts
-- the pages ahead of every call and the links that are still to come.
import DuckDbms.ConcurrentInserts
import Mathlib.Algebra.Order.BigOperators.Group.List
import Mathlib.Algebra.Order.Group.Nat

open machine duck.slotted_page duck.disk_manager duck.buffer_pool chain

namespace duck.table_heap

/-! ## The measure of a call -/

namespace InsertCall

variable (c : InsertCall)

/-- The links that the call may still make: one, until it has made it or found that another
call was first. -/
def links : Nat :=
  match c.pc with
  | .fetch | .try_page _ | .leave _ _ (.continue_ _) => if c.created_new_page then 0 else 1
  | .create _ | .init_new _ _ | .unpin_new _ _ | .relink _ _ => 1
  | .read_new _ _ _ | .delete_new _ _ _ | .leave _ _ (.return_ _) | .done _ => 0

/-- The steps on the page where the call stands. -/
def stage : Nat :=
  match c.pc with
  | .fetch => 2 + 8 * c.links
  | .try_page _ => 1 + 8 * c.links
  | .create _ => 8
  | .init_new _ _ => 7
  | .unpin_new _ _ => 6
  | .relink _ _ => 5
  | .read_new _ _ _ => 4
  | .delete_new _ _ _ => 3
  | .leave _ _ (.continue_ _) => 8 * c.links
  | .leave _ _ (.return_ _) | .done _ => 0

/-- A bound on the steps of a call while `links` links may still be made by anybody. -/
noncomputable def steps (b : BufferPoolManager) (links : Nat) : Nat :=
  if c.pc.running then 3 * (pathLength (succ b) c.page_id + links) + c.stage else 0

end InsertCall

section
variable {evicts : Prop} {heads : Nat → Prop} {pins : Nat → Nat} {pending : Nat → Prop}
  {b b' : BufferPoolManager} {c c' : InsertCall}

/-- The call goes on to the page that its page links to. -/
def Ahead (b : BufferPoolManager) (c : InsertCall) : Prop :=
  ∀ p, c.pc.target = some p → ∃ n m, c.page_id = some n ∧ p = some m ∧ succ b n = some m

theorem CallInv.created (I : CallInv heads b c) {x : Nat} (hx : c.fresh x) :
    c.created_new_page = true := by
  by_contra hno
  have := I.unused (by simpa using hno)
  rw [(I.fresh_new hx).1] at this
  cases this

/-- A step leaves the links of the chains alone, or it is the one link of its call. -/
theorem Move.links (M : Move b b' c c') (H : HeapState evicts pins pending heads b)
    (I : CallInv heads b c) :
    ((∀ m, OnChain (succ b) heads m → succ b' m = succ b m) ∧ c'.links ≤ c.links) ∨
      ∃ n x, c.page_id = some n ∧ succ b n = none ∧ c.fresh x ∧ succ b x = none ∧
        succ b' = Function.update (succ b) n (some x) ∧ c.links = 1 ∧ c'.links = 0 := by
  have hsame : contents b' = contents b → ∀ m, OnChain (succ b) heads m →
      succ b' m = succ b m := by
    intro h m _
    rw [succ_congr h]
  have hoff : ∀ x, ¬ OnChain (succ b) heads x → (∀ m, m ≠ x → contents b' m = contents b m) →
      ∀ m, OnChain (succ b) heads m → succ b' m = succ b m := by
    intro x hx h m hm
    unfold succ
    rw [h m fun he => hx (he ▸ hm)]
  have hnew : ∀ x (v : Meaning), contents b' = Function.update (contents b) x v →
      ∀ m, m ≠ x → contents b' m = contents b m := by
    intro x v h m hm
    rw [h, Function.update_of_ne hm]
  cases M with
  | found hpc h | unpinned hpc h | returned hpc h | continued hpc h | full hpc _ _ h =>
    left
    refine ⟨hsame h, ?_⟩
    simp [InsertCall.links, hpc]
  | stuck hpc _ _ _ _ h =>
    left
    exact ⟨hsame h, Nat.zero_le _⟩
  | not_created hpc _ h =>
    left
    exact ⟨hsame h, Nat.zero_le _⟩
  | last hpc _ _ hc h =>
    left
    refine ⟨hsame h, ?_⟩
    simp [InsertCall.links, hpc, hc]
  | not_found hpc _ h =>
    left
    exact ⟨hsame (by rw [h]), Nat.zero_le _⟩
  | passed hpc _ _ h | read hpc _ h =>
    left
    exact ⟨hsame (by rw [h]), Nat.zero_le _⟩
  | @placed page n slot hpc hid _ h =>
    left
    refine ⟨fun m _ => ?_, Nat.zero_le _⟩
    unfold succ
    rw [h]
    by_cases hm : m = n
    · rw [hm, Function.update_self]
    · rw [Function.update_of_ne hm]
  | created hpc hx h =>
    left
    refine ⟨hoff _ (fun hon => hx (H.pages _ hon).2) (hnew _ _ h), ?_⟩
    simp [InsertCall.links, hpc]
  | inited hpc hx h =>
    left
    refine ⟨hoff _ (I.fresh_new hx).2.2.1 (hnew _ _ h), ?_⟩
    simp [InsertCall.links, hpc]
  | gave_back hpc hx h =>
    left
    refine ⟨hoff _ (I.fresh_new hx).2.2.1 h, ?_⟩
    simp [InsertCall.links, I.created hx]
  | @linked page next_page n x hpc hid hend hx h =>
    right
    refine ⟨n, x, hid, hend, hx, ?_, ?_, by simp [InsertCall.links, hpc], ?_⟩
    · unfold succ
      rw [(I.fresh_new hx).2.2.2 (by rw [hpc]; rfl)]
      rfl
    · funext m
      unfold succ
      rw [h]
      by_cases hm : m = n
      · rw [hm, Function.update_self, Function.update_self]
      · rw [Function.update_of_ne hm, Function.update_of_ne hm]
    · simp [InsertCall.links, I.created hx]

/-- The page that a page of a chain links to stays the same. -/
theorem Move.succ_stays (M : Move b b' c c') (H : HeapState evicts pins pending heads b)
    (I : CallInv heads b c) {n m : Nat} (hn : OnChain (succ b) heads n) (h : succ b n = some m) :
    succ b' n = some m := by
  rcases M.links H I with ⟨hs, _⟩ | ⟨k, x, _, hend, _, _, hs, _⟩
  · rw [hs n hn, h]
  · have hne : n ≠ k := by
      rintro rfl
      rw [hend] at h
      cases h
    rw [hs, Function.update_of_ne hne, h]

/-- The chains get longer only by the links that were still to come. -/
theorem Move.pathLength_le (M : Move b b' c c') (H : HeapState evicts pins pending heads b)
    (I : CallInv heads b c) {m : Nat} (hm : OnChain (succ b) heads m) :
    pathLength (succ b') (some m) + c'.links ≤ pathLength (succ b) (some m) + c.links := by
  obtain ⟨h, hh, hon⟩ := hm
  obtain ⟨l0, hl0, hm0⟩ := hon
  obtain ⟨pre, suf, rfl, hl⟩ := hl0.suffix hm0
  have hsub : ∀ a ∈ m :: suf, OnChain (succ b) heads a := by
    intro a ha
    exact ⟨h, hh, _, hl0, List.mem_append_right _ ha⟩
  rw [hl.pathLength_eq]
  rcases M.links H I with ⟨hs, hle⟩ | ⟨n, x, _, hend, hx, hxe, hs, h1, h0⟩
  · rw [(hl.congr fun a ha => hs a (hsub a ha)).pathLength_eq]
    omega
  · have hxn := (I.fresh_new hx).2.2.1
    rw [hs]
    by_cases hmem : n ∈ m :: suf
    · rw [(hl.link hmem hend (fun hx' => hxn (hsub x hx')) hxe).pathLength_eq,
        List.length_append, List.length_singleton]
      omega
    · rw [(hl.congr (f := Function.update (succ b) n (some x)) fun a ha => ?_).pathLength_eq]
      · omega
      · rw [Function.update_of_ne]
        rintro rfl
        exact hmem ha

/-- A step of a call makes the bound on its own steps smaller. -/
theorem Move.steps_lt (M : Move b b' c c') (H : HeapState evicts pins pending heads b)
    (I : CallInv heads b c) (hahead : Ahead b c) (hrun : c.pc.running = true) (others : Nat) :
    c'.steps b' (others + c'.links) < c.steps b (others + c.links) := by
  obtain ⟨h, n, _, hh, hid, hon⟩ := I.heap hrun
  have hle := M.pathLength_le H I (m := n) ⟨h, hh, hon⟩
  have hpos : 0 < pathLength (succ b) (some n) := by
    obtain ⟨l, hl⟩ := hon.path
    rw [hl.pathLength_eq]
    exact List.length_pos_of_mem hl.head_mem
  unfold InsertCall.steps
  rw [if_pos hrun, hid]
  cases M with
  | continued hpc h =>
    -- the next page has one page less ahead of it
    obtain ⟨k, m, hk, rfl, hnext⟩ := hahead _ (by rw [hpc]; rfl)
    obtain rfl : n = k := Option.some.inj (hid.symm.trans hk)
    have hlt : pathLength (succ b') (some m) < pathLength (succ b) (some n) := by
      obtain ⟨l, hl⟩ := hon.path
      rw [succ_congr h, hl.pathLength_eq]
      cases hl with
      | cons hl =>
        rw [hnext] at hl
        rw [hl.pathLength_eq, List.length_cons]
        omega
    simp only [Pc.running, if_true, InsertCall.links, InsertCall.stage, hpc]
    omega
  | linked hpc _ _ hx =>
    simp only [hid, hpc, I.created hx, Pc.running, InsertCall.links, InsertCall.stage, if_true] at hle ⊢
    omega
  | gave_back hpc hx =>
    simp only [hid, hpc, I.created hx, Pc.running, InsertCall.links, InsertCall.stage, if_true] at hle ⊢
    omega
  | last hpc _ _ hc =>
    simp only [hid, hpc, hc, Pc.running, InsertCall.links, InsertCall.stage, if_true,
      Bool.false_eq_true, if_false] at hle ⊢
    omega
  | found hpc | not_found hpc | placed hpc | stuck hpc | full hpc | created hpc | not_created hpc
  | inited hpc | unpinned hpc | passed hpc | read hpc | returned hpc =>
    simp only [hid, hpc, Pc.running, InsertCall.links, InsertCall.stage, if_true,
      Bool.false_eq_true, if_false] at hle ⊢
    omega

theorem Move.ahead (M : Move b b' c c') (H : HeapState evicts pins pending heads b)
    (I : CallInv heads b c) (hahead : Ahead b c) : Ahead b' c' := by
  intro p hp
  cases M with
  | @full page n m hpc hid hnext h =>
    obtain rfl := Option.some.inj hp
    exact ⟨n, m, hid, rfl, by rw [succ_congr h, hnext]⟩
  | @linked page next_page n x hpc hid hend hx h =>
    obtain rfl := Option.some.inj hp
    refine ⟨n, x, hid, rfl, ?_⟩
    unfold succ
    rw [h, Function.update_self]
  | @passed page next_page n m hpc hid hnext h =>
    obtain rfl := Option.some.inj hp
    exact ⟨n, m, hid, rfl, by rw [h, hnext]⟩
  | read hpc _ h =>
    rw [h]
    refine hahead p ?_
    rw [hpc]
    exact hp
  | @gave_back page next_id x hpc hx h =>
    obtain ⟨n, m, h1, h2, h3⟩ := hahead p (by rw [hpc]; exact hp)
    obtain ⟨k, k', _, k2, k3, k4⟩ := I.heap (by rw [hpc]; rfl)
    obtain rfl : n = k' := Option.some.inj (h1.symm.trans k3)
    exact ⟨n, m, h1, h2, (Move.gave_back hpc hx h).succ_stays H I ⟨k, k2, k4⟩ h3⟩
  | found | not_found | placed | stuck | last | created | not_created | inited | unpinned
  | returned | continued => cases hp

end

/-! ## All the calls -/

def linksOf (calls : List InsertCall) : Nat := (calls.map (·.links)).sum

/-- A bound on the steps that all the calls together can take. -/
noncomputable def InsertSystem.steps (s : InsertSystem) : Nat :=
  (s.calls.map fun c => c.steps s.pool (linksOf s.calls)).sum

/-- What the call returns, or is about to return, is an RID. -/
def InsertCall.Served (c : InsertCall) : Prop :=
  ∀ r, (c.pc = .done r ∨ ∃ page dirty, c.pc = .leave page dirty (.return_ r)) →
    ∃ rid, r = .ok (some rid)

structure ProgressInv (s : InsertSystem) : Prop where
  inv : InsertInv s
  ahead : ∀ c ∈ s.calls, Ahead s.pool c
  served : ∀ c ∈ s.calls, c.Served

/-- Tuples have a size that the heap takes, and the pool always has a frame to give. -/
def Serves (s : InsertSystem) : InsertEvent → Prop
  | .start _ tuple_data => 1 ≤ tuple_data.length ∧ tuple_data.length ≤ 8180
  | .step i => ∀ c, s.calls[i]? = some c →
      (c.pc = .fetch → ∃ page, (s.pool.fetch_page c.page_id).1 = .ok (some page)) ∧
      ∀ page, c.pc = .create page → ∃ next_page, s.pool.new_page.1 = .ok (some next_page)

/-- A call that has created a page before finds room on a page without a successor. -/
def LastPageHasRoom (s : InsertSystem) : InsertEvent → Prop
  | .start _ _ => True
  | .step i => ∀ c page, s.calls[i]? = some c → c.pc = .try_page page →
      c.created_new_page = true → (s.pool.frames page).data.header.next_page_id = INVALID_PAGE_ID →
      HasRoom (s.pool.frames page).data c.tuple_data.length

/-- The three conditions on a step. -/
def FindsRoom (s : InsertSystem) (e : InsertEvent) : Prop :=
  Serves s e ∧ KeepsNewPages s e ∧ LastPageHasRoom s e

section
variable {s t : InsertSystem}

/-- The step of one call makes the bound on the steps of all calls smaller. -/
theorem InsertInv.steps_lt (I : InsertInv s) (hahead : ∀ c ∈ s.calls, Ahead s.pool c) {i : Nat}
    {c c' : InsertCall} {b' : BufferPoolManager} (hc : s.calls[i]? = some c)
    (hrun : c.pc.running = true) (M : Move s.pool b' c c') :
    InsertSystem.steps { s with pool := b', calls := s.calls.set i c' } < s.steps := by
  have hmem : c ∈ s.calls := List.mem_of_getElem? hc
  have hl : linksOf s.calls = linksOf (s.calls.eraseIdx i) + c.links := threads.sum_others _ hc
  have hl' : linksOf (s.calls.set i c') = linksOf (s.calls.eraseIdx i) + c'.links :=
    threads.sum_set _ hc c'
  unfold InsertSystem.steps
  simp only
  rw [threads.sum_others _ hc, threads.sum_set _ hc c', hl, hl']
  refine Nat.add_lt_add_of_le_of_lt (List.sum_le_sum fun d hd => ?_)
    (M.steps_lt I.heap (I.calls c hmem) (hahead c hmem) hrun _)
  obtain ⟨j, _, hj⟩ := List.mem_eraseIdx_iff_getElem?.mp hd
  have hdm : d ∈ s.calls := List.mem_of_getElem? hj
  unfold InsertCall.steps
  split
  · rename_i hd'
    obtain ⟨k, n, _, h2, h3, h4⟩ := (I.calls d hdm).heap hd'
    have := M.pathLength_le I.heap (I.calls c hmem) (m := n) ⟨k, h2, h4⟩
    rw [h3]
    omega
  · exact Nat.le_refl 0

/-- What a call that is given its frames and finds room returns. -/
theorem InsertInv.served_step (I : InsertInv s) {i : Nat} {c c' : InsertCall}
    {b' : BufferPoolManager} (hc : s.calls[i]? = some c) (hserved : c.Served)
    (hstep : insert_step s.pool c = some (b', c')) (M : Move s.pool b' c c')
    (hserves : Serves s (.step i)) (hroom : LastPageHasRoom s (.step i)) : c'.Served := by
  obtain ⟨hfetch, hcreate⟩ := hserves c hc
  have hquiet : (∀ r, c'.pc ≠ .done r) → (∀ page dirty r, c'.pc ≠ .leave page dirty (.return_ r)) →
      c'.Served := by
    rintro h1 h2 r (h | ⟨page, dirty, h⟩)
    · exact absurd h (h1 r)
    · exact absurd h (h2 page dirty r)
  cases M with
  | not_found hpc =>
    obtain ⟨page, hp⟩ := hfetch hpc
    unfold insert_step at hstep
    rw [hpc] at hstep
    generalize s.pool.fetch_page c.page_id = r at *
    obtain ⟨o, b⟩ := r
    simp only at hp
    subst hp
    simp at hstep
  | @stuck page n e hpc hid hno hend hcreated =>
    have ht := (I.calls c (List.mem_of_getElem? hc)).frame page (by rw [hpc]; rfl)
    rw [hid] at ht
    unfold succ contents at hend
    rw [view_cached ht] at hend
    exact absurd (hroom c page hc hpc hcreated hend) hno
  | not_created hpc =>
    obtain ⟨page, hp⟩ := hcreate _ hpc
    unfold insert_step at hstep
    rw [hpc] at hstep
    generalize s.pool.new_page = r at *
    obtain ⟨o, b⟩ := r
    simp only at hp
    subst hp
    simp at hstep
  | @placed page n slot hpc =>
    rintro r (h | ⟨_, _, h⟩)
    · cases h
    · simp only [Pc.leave.injEq, After.return_.injEq] at h
      exact ⟨_, h.2.2.symm⟩
  | returned hpc =>
    rintro r (h | ⟨_, _, h⟩)
    · simp only [Pc.done.injEq] at h
      exact hserved r (Or.inr ⟨_, _, by rw [hpc, h]⟩)
    · cases h
  | found | last | full | created | inited | unpinned | linked | passed | read | gave_back
  | continued =>
    exact hquiet (by simp) (by simp)

theorem progressInv_next {e : InsertEvent} (P : ProgressInv s) (hok : FindsRoom s e)
    (h : s.next e = some t) : ProgressInv t := by
  obtain ⟨hserves, hkeeps, hroom⟩ := hok
  have I := insertInv_next P.inv hkeeps h
  cases e with
  | start first_page_id tuple_data =>
    obtain ⟨_, rfl⟩ := next_start h
    have hpc : (begin_insert (some first_page_id) tuple_data).pc = .fetch := by
      rcases begin_insert_pc (some first_page_id) tuple_data with ⟨hpc, _⟩ | ⟨_, hlt⟩
      · exact hpc
      · have := hserves.2
        omega
    refine ⟨I, fun c hc => ?_, fun c hc => ?_⟩
    · rcases List.mem_append.mp hc with hc | hc
      · exact P.ahead c hc
      · rw [List.mem_singleton] at hc
        intro p hp
        rw [hc, hpc] at hp
        cases hp
    · rcases List.mem_append.mp hc with hc | hc
      · exact P.served c hc
      · rw [List.mem_singleton] at hc
        rintro r (hr | ⟨_, _, hr⟩)
        all_goals
          rw [hc, hpc] at hr
          cases hr
  | step i =>
    obtain ⟨c, b', c', hc, hrun, hstep, W, rfl⟩ := P.inv.next_step h
    have hmem : c ∈ s.calls := List.mem_of_getElem? hc
    refine ⟨I, fun d hd => ?_, fun d hd => ?_⟩
    · rcases (threads.mem_set_iff_others hc c').mp hd with rfl | hd
      · exact W.move.ahead P.inv.heap (P.inv.calls c hmem) (P.ahead c hmem)
      · have hdm : d ∈ s.calls := (threads.mem_iff_others hc).mpr (Or.inr hd)
        intro p hp
        obtain ⟨n, m, h1, h2, h3⟩ := P.ahead d hdm p hp
        obtain ⟨k, n', _, k2, k3, k4⟩ := (P.inv.calls d hdm).heap (running_of_target hp)
        obtain rfl : n = n' := Option.some.inj (h1.symm.trans k3)
        exact ⟨n, m, h1, h2,
          W.move.succ_stays P.inv.heap (P.inv.calls c hmem) ⟨k, k2, k4⟩ h3⟩
    · rcases (threads.mem_set_iff_others hc c').mp hd with rfl | hd
      · exact P.inv.served_step hc (P.served c hmem) hstep W.move hserves hroom
      · exact P.served d ((threads.mem_iff_others hc).mpr (Or.inr hd))

theorem progressInv_reach (h : insertMachine.Reach FindsRoom s) : ProgressInv s := by
  refine h.invariant ?_ fun _ _ _ P hok hn => progressInv_next P hok hn
  rintro s hs
  have hc := hs.2.1
  exact ⟨insertInv_start hs, by simp [hc], by simp [hc]⟩

end

/-! ## Every call returns -/

/-- The calls that are done have returned an RID, the others can go on, and there is a bound
on the steps that they can still take, whatever the order. -/
def CallsReturn (ok : InsertSystem → InsertEvent → Prop) (s : InsertSystem) : Prop :=
  (∀ c ∈ s.calls, ∀ r, c.pc = .done r → ∃ rid, r = .ok (some rid)) ∧
    (∀ i c, s.calls[i]? = some c → c.pc.running = true → ∃ t, s.next (.step i) = some t) ∧
    ∃ N, ∀ (order : List Nat) t,
      insertMachine.Run ok s (order.map InsertEvent.step) t → order.length ≤ N

/-- A call returns an RID as long as no call loses its new page from the pool before the last
look at its id, and every call that has created a page finds room on the last page. -/
theorem calls_that_find_room_on_the_last_page_return_an_RID {s : InsertSystem}
    (h : insertMachine.Reach FindsRoom s) : CallsReturn FindsRoom s := by
  have P := progressInv_reach h
  refine ⟨fun c hc r hr => P.served c hc r (Or.inl hr), ?_, s.steps, ?_⟩
  · intro i c hc hrun
    obtain ⟨b', c', hstep, _⟩ := P.inv.stepped hc hrun
    exact ⟨_, by simp only [InsertSystem.next, hc, hstep, Option.bind_some, Option.map_some]; rfl⟩
  · intro order t hr
    obtain ⟨_, hle⟩ := hr.length_le (μ := InsertSystem.steps) P fun s e t he P hok hn => by
      refine ⟨progressInv_next P hok hn, ?_⟩
      obtain ⟨i, _, rfl⟩ := List.mem_map.mp he
      obtain ⟨c, b', c', hc, hrun, hstep, W, rfl⟩ := P.inv.next_step hn
      exact P.inv.steps_lt P.ahead hc hrun W.move
    rw [List.length_map] at hle
    omega

instance (d : PageData) (n : Nat) : Decidable (HasRoom d n) := by
  unfold HasRoom
  exact inferInstance

def is_page : Except String (Option FrameID) → Bool
  | .ok (some _) => true
  | _ => false

def serves (s : InsertSystem) : InsertEvent → Bool
  | .start _ tuple_data => 1 ≤ tuple_data.length && tuple_data.length ≤ 8180
  | .step i => (s.calls[i]?).all fun c =>
      match c.pc with
      | .fetch => is_page (s.pool.fetch_page c.page_id).1
      | .create _ => is_page s.pool.new_page.1
      | _ => true

def last_page_has_room (s : InsertSystem) : InsertEvent → Bool
  | .start _ _ => true
  | .step i => (s.calls[i]?).all fun c =>
      match c.pc with
      | .try_page page => !c.created_new_page ||
          (s.pool.frames page).data.header.next_page_id != INVALID_PAGE_ID ||
          decide (HasRoom (s.pool.frames page).data c.tuple_data.length)
      | _ => true

theorem page_of_is_page {r : Except String (Option FrameID)} (h : is_page r = true) :
    ∃ page, r = .ok (some page) := by
  rcases r with e | _ | page
  · cases h
  · cases h
  · exact ⟨page, rfl⟩

theorem serves_of_check (s : InsertSystem) (e : InsertEvent) (h : serves s e = true) :
    Serves s e := by
  cases e with
  | start =>
    unfold serves at h
    rw [Bool.and_eq_true, decide_eq_true_eq, decide_eq_true_eq] at h
    exact h
  | step i =>
    intro c hc
    unfold serves at h
    simp only [hc, Option.all_some] at h
    refine ⟨fun hpc => page_of_is_page ?_, fun page hpc => page_of_is_page ?_⟩
    all_goals rwa [hpc] at h

theorem findsRoom_of_check (s : InsertSystem) (e : InsertEvent)
    (h : (serves s e && keeps_new_pages s e && last_page_has_room s e) = true) :
    FindsRoom s e := by
  simp only [Bool.and_eq_true] at h
  obtain ⟨⟨h1, h2⟩, h3⟩ := h
  refine ⟨serves_of_check s e h1, keepsNewPages_of_check s e h2, ?_⟩
  cases e with
  | start => trivial
  | step i =>
    intro c page hc hpc hcreated hnext
    unfold last_page_has_room at h3
    simp only [hc, Option.all_some, hpc, hcreated, hnext] at h3
    simpa using h3

/-- A call goes on to the page that it created. -/
theorem a_call_on_a_full_heap_returns_an_RID :
    ∃ s : InsertSystem, (∃ c ∈ s.calls, c.linked ≠ [] ∧ c.pc.running = false) ∧
      CallsReturn FindsRoom s := by
  obtain ⟨s, hr, hs⟩ := Machine.run_of_execIf_check (m := insertMachine) (s := one_heap)
    findsRoom_of_check
    (l := [.start 1 (List.replicate 8180 0), .step 0, .step 0, .step 0,
      .start 1 [1], .step 1, .step 1, .step 1, .step 1, .step 1, .step 1, .step 1,
      .step 1, .step 1, .step 1])
    (p := fun s => s.calls.any fun c => !c.linked.isEmpty && !c.pc.running)
    (by decide +kernel)
  simp only [List.any_eq_true, Bool.and_eq_true, Bool.not_eq_true'] at hs
  obtain ⟨c, hc, h1, h2⟩ := hs
  refine ⟨s, ⟨c, hc, ?_, h2⟩, calls_that_find_room_on_the_last_page_return_an_RID
    (Machine.Reach.run (.start one_heap_start) hr)⟩
  rintro h
  rw [h] at h1
  cases h1

def has_thrown : Pc → Bool
  | .done (.error _) => true
  | _ => false

/-- A call links a new page, and before it goes on to it another call fills that page. -/
theorem a_call_throws_when_its_new_page_is_filled :
    ¬ ∀ s, insertMachine.Reach Serves s → CallsReturn Serves s := by
  intro h
  obtain ⟨s, hr, hs⟩ := Machine.run_of_execIf_check (m := insertMachine) (s := one_heap)
    serves_of_check
    (l := [.start 1 (List.replicate 8180 0), .step 0, .step 0, .step 0,
      .start 1 [1], .step 1, .step 1, .step 1, .step 1, .step 1, .step 1, .step 1,
      .start 1 (List.replicate 8180 0), .step 2, .step 2, .step 2, .step 2, .step 2, .step 2,
      .step 1, .step 1, .step 1])
    (p := fun s => s.calls.any fun c => has_thrown c.pc) (by decide +kernel)
  rw [List.any_eq_true] at hs
  obtain ⟨c, hc, hp⟩ := hs
  unfold has_thrown at hp
  split at hp
  · rename_i e hpc
    obtain ⟨rid, hr⟩ := (h s (Machine.Reach.run (.start one_heap_start) hr)).1 c hc _ hpc
    cases hr
  · cases hp

end duck.table_heap
