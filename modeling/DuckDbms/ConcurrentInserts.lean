-- Threads that insert into heaps of one buffer pool. Each call of the pool and
-- each section under a page latch is one step, and the threads take steps in
-- any order.
import DuckDbms.InsertSteps
import DuckDbms.Lib.Machine
import DuckDbms.Lib.Threads

open machine duck.slotted_page duck.disk_manager duck.buffer_pool chain

namespace duck.table_heap

/-- The pool, of less than 2^32 pages, the first pages of its heaps, the calls of `insert_tuple`
by any number of threads, less than 2^32 on one page, and a record of the page ids that were given
back and not given out since. -/
structure InsertSystem where
  pool : BufferPoolManager
  heaps : List Nat
  calls : List InsertCall
  deallocated : List PageID

inductive InsertEvent
  /-- a thread calls `insert_tuple` on the heap with this first page -/
  | start (first_page_id : Nat) (tuple_data : List UInt8)
  /-- the call at this place of the list takes its next step -/
  | step (call : Nat)

/-- The record of deallocated ids after a step of the call `c` that makes it `c'`. -/
def recordDeallocated (c c' : InsertCall) (deallocated : List PageID) : List PageID :=
  match c.pc with
  | .create _ => deallocated.filter (· ∉ c'.obtained)
  | .delete_new _ page_id _ => page_id :: deallocated
  | _ => deallocated

def InsertSystem.next (s : InsertSystem) : InsertEvent → Option InsertSystem
  | .start first_page_id tuple_data =>
    if first_page_id ∈ s.heaps then
      some { s with calls := s.calls ++ [begin_insert (some first_page_id) tuple_data] }
    else none
  | .step i =>
    (s.calls[i]?).bind fun c =>
      (insert_step s.pool c).map fun r =>
        { s with
          pool := r.1
          calls := s.calls.set i r.2
          deallocated := recordDeallocated c r.2 s.deallocated }

/-- Heaps in a pool where nobody has a page pinned. -/
def Idle (evicts : Prop) (heads : Nat → Prop) (b : BufferPoolManager) : Prop :=
  HeapState evicts (fun _ => 0) (fun _ => False) heads b

def insertMachine : Machine InsertSystem InsertEvent where
  start s := Idle True (· ∈ s.heaps) s.pool ∧ s.calls = [] ∧
    s.deallocated = s.pool.disk_manager.free_list
  next := InsertSystem.next

/-- No step evicts a page that some call created and unpinned, as long as that call has yet
to read the page's id out of its frame. -/
def KeepsNewPages (s : InsertSystem) : InsertEvent → Prop
  | .start _ _ => True
  | .step i => ∀ c, s.calls[i]? = some c → c.brings_in s.pool →
      ∀ d ∈ s.calls, d.pc.next_page ≠ none → ∀ m, some m ∈ d.obtained → ¬ Evicts s.pool m

/-! ## What every step keeps -/

/-- The pins of all the calls. -/
def pinsOf (calls : List InsertCall) (n : Nat) : Nat := (calls.map (·.pins n)).sum

def pendingOf (calls : List InsertCall) (n : Nat) : Prop := ∃ c ∈ calls, c.pending n

structure InsertInv (s : InsertSystem) : Prop where
  heap : HeapState True (pinsOf s.calls) (pendingOf s.calls) (· ∈ s.heaps) s.pool
  calls : ∀ c ∈ s.calls, CallInv (· ∈ s.heaps) s.pool c
  apart : ∀ (i j : Nat) (c d : InsertCall), s.calls[i]? = some c → s.calls[j]? = some d →
    i ≠ j → ∀ m, c.fresh m → ¬ d.fresh m
  gone : ∀ m, some m ∈ s.deallocated → ¬ OnChain (succ s.pool) (· ∈ s.heaps) m ∧
    ∀ c ∈ s.calls, ¬ c.fresh m

section
variable {evicts : Prop} {heads : Nat → Prop} {outside : Nat → Nat} {pends : Nat → Prop}
  {b b' : BufferPoolManager} {c c' d : InsertCall}

theorem running_of_page {pc : Pc} {f : FrameID} (h : pc.page = some f) : pc.running = true := by
  cases pc <;> first | rfl | cases h

theorem running_of_target {pc : Pc} {p : PageID} (h : pc.target = some p) :
    pc.running = true := by
  cases pc <;> first | rfl | cases h

theorem unsettled_of_next_page {pc : Pc} {f : FrameID} (h : pc.next_page = some f) :
    pc.unsettled = true := by
  cases pc <;> first | rfl | cases h

theorem page_of_dirty {pc : Pc} (h : pc.dirty = true) : pc.page.isSome = true := by
  cases pc <;> first | rfl | cases h

theorem unsettled_of_pins_new {pc : Pc} (h : pc.pins_new = true) : pc.unsettled = true := by
  cases pc <;> first | rfl | cases h

theorem pins_pos_of_pending {m : Nat} (h : c.pending m) : 0 < c.pins m := by
  unfold InsertCall.pins
  rcases h with ⟨hd, hm⟩ | h
  · rw [if_pos ⟨page_of_dirty hd, hm⟩]
    omega
  · rw [if_pos h]
    omega

/-- The new page of a call. -/
theorem CallInv.fresh_new (I : CallInv heads b c) {m : Nat} (h : c.fresh m) :
    c.obtained = [some m] ∧ Allocated b.disk_manager m ∧ ¬ OnChain (succ b) heads m ∧
      (c.pc.raw = false → contents b m = emptyMeaning) := by
  obtain ⟨x, x1, _, x3, x4, x5⟩ := I.new h.1
  have hx := h.2
  rw [x1, List.mem_singleton] at hx
  obtain rfl := Option.some.inj hx
  exact ⟨x1, x3, x4, x5⟩

/-- A page that a call has pinned is on the chains, or is its new page. -/
theorem CallInv.of_pins (I : CallInv heads b c) {m : Nat} (h : c.pins m ≠ 0) :
    OnChain (succ b) heads m ∨ c.fresh m := by
  unfold InsertCall.pins at h
  by_cases hp : c.pc.page.isSome ∧ c.page_id = some m
  · obtain ⟨f, hf⟩ := Option.isSome_iff_exists.mp hp.1
    obtain ⟨k, n, _, h2, h3, h4⟩ := I.heap (running_of_page hf)
    obtain rfl : n = m := Option.some.inj (h3.symm.trans hp.2)
    exact Or.inl ⟨k, h2, h4⟩
  · rw [if_neg hp] at h
    by_cases hn : c.pc.pins_new = true ∧ some m ∈ c.obtained
    · exact Or.inr ⟨unsettled_of_pins_new hn.1, hn.2⟩
    · rw [if_neg hn] at h
      exact absurd rfl h

/-- The step of one call leaves to another one what that one keeps. -/
theorem CallInv.beside (D : CallInv heads b d) (W : Stepped evicts heads outside pends b c b' c')
    (hpins : ∀ m, d.pins m ≤ outside m) (hne : ∀ m, d.fresh m → ¬ c.fresh m ∧ ¬ c'.fresh m)
    (hev : c.brings_in b → d.pc.next_page ≠ none → ∀ m, some m ∈ d.obtained → ¬ Evicts b m) :
    CallInv heads b' d := by
  refine ⟨D.size, ?_, ?_, D.unused, D.creating, ?_, ?_, ?_, D.back, D.linked, D.given_back⟩
  · intro hr
    obtain ⟨h, n, h1, h2, h3, h4⟩ := D.heap hr
    exact ⟨h, n, h1, h2, h3, W.onPath h h2 n h4⟩
  · intro f hf
    obtain ⟨h, n, _, _, h3, _⟩ := D.heap (running_of_page hf)
    have ht := D.frame f hf
    rw [h3] at ht ⊢
    refine W.pinned n f ht (Nat.lt_of_lt_of_le ?_ (hpins n))
    unfold InsertCall.pins
    rw [if_pos ⟨by rw [hf]; rfl, h3⟩]
    omega
  · intro hu
    obtain ⟨x, x1, x2, x3, x4, x5⟩ := D.new hu
    have hx : d.fresh x := ⟨hu, by rw [x1]; simp⟩
    obtain ⟨n1, n2⟩ := hne x hx
    refine ⟨x, x1, x2, W.allocated x x3 n1, ?_, fun hr => by rw [W.others x x4 n1 n2]; exact x5 hr⟩
    rintro ⟨k, hk, hon⟩
    rcases W.onPath_back k hk x hon with hon | hf
    · exact x4 ⟨k, hk, hon⟩
    · exact n1 hf.1
  · intro g hg p hp
    have hu := unsettled_of_next_page hg
    obtain ⟨x, x1, _⟩ := D.new hu
    rw [x1, List.mem_singleton] at hp
    subst hp
    have hx : d.fresh x := ⟨hu, by rw [x1]; simp⟩
    refine W.stays x g (D.new_frame g hg (some x) hx.2) ?_ (hne x hx).1
    rintro ⟨hb, he⟩
    exact hev hb (by rw [hg]; simp) x hx.2 he
  · intro p hp
    obtain ⟨h, m, h1, h2, h3⟩ := D.target p hp
    obtain ⟨k, _, k1, k2, _⟩ := D.heap (running_of_target hp)
    obtain rfl : h = k := Option.some.inj (h1.symm.trans k1)
    exact ⟨h, m, h1, h2, W.onPath h k2 m h3⟩

end

section
variable {s t : InsertSystem}

theorem pinsOf_split {calls : List InsertCall} {i : Nat} {c : InsertCall}
    (h : calls[i]? = some c) :
    pinsOf calls = fun m => pinsOf (calls.eraseIdx i) m + c.pins m := by
  funext m
  exact threads.sum_others _ h

theorem pinsOf_set {calls : List InsertCall} {i : Nat} {c : InsertCall}
    (h : calls[i]? = some c) (c' : InsertCall) :
    pinsOf (calls.set i c') = fun m => pinsOf (calls.eraseIdx i) m + c'.pins m := by
  funext m
  exact threads.sum_set _ h c'

theorem pendingOf_split {calls : List InsertCall} {i : Nat} {c : InsertCall}
    (h : calls[i]? = some c) :
    pendingOf calls = fun m => pendingOf (calls.eraseIdx i) m ∨ c.pending m := by
  funext m
  unfold pendingOf
  apply propext
  constructor
  · rintro ⟨d, hd, hm⟩
    rcases (threads.mem_iff_others h).mp hd with rfl | hd
    · exact Or.inr hm
    · exact Or.inl ⟨d, hd, hm⟩
  · rintro (⟨d, hd, hm⟩ | hm)
    · exact ⟨d, (threads.mem_iff_others h).mpr (Or.inr hd), hm⟩
    · exact ⟨c, (threads.mem_iff_others h).mpr (Or.inl rfl), hm⟩

theorem pendingOf_set {calls : List InsertCall} {i : Nat} {c : InsertCall}
    (h : calls[i]? = some c) (c' : InsertCall) :
    pendingOf (calls.set i c') = fun m => pendingOf (calls.eraseIdx i) m ∨ c'.pending m := by
  have hlt : i < calls.length := (List.getElem?_eq_some_iff.mp h).1
  rw [pendingOf_split (i := i) (c := c') (by rw [List.getElem?_set_self hlt]),
    List.eraseIdx_set_eq]

/-- A running call can take its step, and what the step does. -/
theorem InsertInv.stepped (I : InsertInv s) {i : Nat} {c : InsertCall}
    (hc : s.calls[i]? = some c) (hrun : c.pc.running = true) :
    ∃ b' c', insert_step s.pool c = some (b', c') ∧
      Stepped True (· ∈ s.heaps) (pinsOf (s.calls.eraseIdx i))
        (pendingOf (s.calls.eraseIdx i)) s.pool c b' c' := by
  have hmem : c ∈ s.calls := (threads.mem_iff_others hc).mpr (Or.inl rfl)
  have H := I.heap
  rw [pinsOf_split hc, pendingOf_split hc] at H
  refine insert_step_spec H (I.calls c hmem) hrun (fun h => absurd trivial h) ?_ ?_
  · rintro m ⟨d, hd, hm⟩
    exact Nat.lt_of_lt_of_le (pins_pos_of_pending hm)
      (threads.le_sum (fun d : InsertCall => d.pins m) hd)
  · intro m hm
    refine threads.sum_eq_zero (fun d : InsertCall => d.pins m) fun d hd => ?_
    obtain ⟨j, hji, hj⟩ := List.mem_eraseIdx_iff_getElem?.mp hd
    have hdm : d ∈ s.calls := (threads.mem_iff_others hc).mpr (Or.inr hd)
    rcases Nat.eq_zero_or_pos (d.pins m) with h0 | hpos
    · exact h0
    · rcases (I.calls d hdm).of_pins (Nat.ne_of_gt hpos) with hon | hf
      · exact absurd hon ((I.calls c hmem).fresh_new hm).2.2.1
      · exact absurd hf (I.apart i j c d hc hj (Ne.symm hji) m hm)

/-- A call that gives its new page back has none after that. -/
theorem Move.settled {b b' : BufferPoolManager} {c c' : InsertCall} (M : Move b b' c c')
    {page : FrameID} {p q : PageID} (hpc : c.pc = .delete_new page p q) (m : Nat) :
    ¬ c'.fresh m := by
  rintro ⟨hu, _⟩
  cases M <;> simp_all [Pc.unsettled]

/-- Only `new_page` gives a call a new page. -/
theorem Move.fresh {b b' : BufferPoolManager} {c c' : InsertCall} (M : Move b b' c c')
    (hpc : ∀ page, c.pc ≠ .create page) {m : Nat} (h : c'.fresh m) : c.fresh m := by
  obtain ⟨hu, hm⟩ := h
  refine ⟨?_, ?_⟩
  · cases M <;> simp_all [Pc.unsettled]
  · cases M <;> simp_all

/-- The record of deallocated ids stays apart from the chains and from the new pages. -/
theorem InsertInv.gone_step (I : InsertInv s) {i : Nat} {c c' : InsertCall} {b' : BufferPoolManager}
    (hc : s.calls[i]? = some c)
    (W : Stepped True (· ∈ s.heaps) (pinsOf (s.calls.eraseIdx i))
      (pendingOf (s.calls.eraseIdx i)) s.pool c b' c') {m : Nat}
    (hm : some m ∈ recordDeallocated c c' s.deallocated) :
    ¬ OnChain (succ b') (· ∈ s.heaps) m ∧ ∀ d ∈ s.calls.set i c', ¬ d.fresh m := by
  have hmem : c ∈ s.calls := (threads.mem_iff_others hc).mpr (Or.inl rfl)
  -- an id that was on the record before, and that the step did not give out
  have hold : some m ∈ s.deallocated → ¬ c'.fresh m →
      ¬ OnChain (succ b') (· ∈ s.heaps) m ∧ ∀ d ∈ s.calls.set i c', ¬ d.fresh m := by
    intro hg hf'
    obtain ⟨h1, h2⟩ := I.gone m hg
    refine ⟨?_, ?_⟩
    · rintro ⟨k, hk, hon⟩
      rcases W.onPath_back k hk m hon with hon | ⟨hf, _⟩
      · exact h1 ⟨k, hk, hon⟩
      · exact h2 c hmem hf
    · intro d hd
      rcases (threads.mem_set_iff_others hc c').mp hd with rfl | hd
      · exact hf'
      · exact h2 d ((threads.mem_iff_others hc).mpr (Or.inr hd))
  unfold recordDeallocated at hm
  split at hm
  · simp only [List.mem_filter, decide_eq_true_eq] at hm
    exact hold hm.1 fun hf => hm.2 hf.2
  · rename_i page p q hpc
    rcases List.mem_cons.mp hm with rfl | hm
    · have hx : c.fresh m := ⟨by rw [hpc]; rfl, (I.calls c hmem).back page _ q hpc⟩
      refine ⟨?_, ?_⟩
      · rintro ⟨k, hk, hon⟩
        rcases W.onPath_back k hk m hon with hon | ⟨_, f, g, h⟩
        · exact ((I.calls c hmem).fresh_new hx).2.2.1 ⟨k, hk, hon⟩
        · rw [hpc] at h
          cases h
      · intro d hd
        rcases (threads.mem_set_iff_others hc _).mp hd with rfl | hd
        · exact W.move.settled hpc m
        · obtain ⟨j, hji, hj⟩ := List.mem_eraseIdx_iff_getElem?.mp hd
          exact I.apart i j c d hc hj (Ne.symm hji) m hx
    · exact hold hm (W.move.settled hpc m)
  · rename_i hpc _
    refine hold hm fun hf => (I.gone m hm).2 c hmem (W.move.fresh ?_ hf)
    intro page h
    exact hpc page h

/-- `insert_tuple` refuses a tuple that no page can hold. -/
theorem begin_insert_pc (h : PageID) (tuple_data : List UInt8) :
    ((begin_insert h tuple_data).pc = .fetch ∧ tuple_data.length ≤ 8180) ∨
    ((begin_insert h tuple_data).pc =
        .done (.error "TableHeap::insert_tuple: tuple exceeds maximum page capacity") ∧
      8180 < tuple_data.length) := by
  unfold begin_insert kPAGE_SIZE sizeofPageHeader sizeofSlot
  simp only
  split
  · exact Or.inr ⟨rfl, by omega⟩
  · exact Or.inl ⟨rfl, by omega⟩

/-- A call that starts holds nothing yet. -/
theorem callInv_begin {heads : Nat → Prop} {b : BufferPoolManager} (F : Forest (succ b) heads)
    {h : Nat} (hh : heads h) (tuple_data : List UInt8) :
    CallInv heads b (begin_insert (some h) tuple_data) := by
  have hone : OnPath (succ b) h h := F.onPath_head hh
  rcases begin_insert_pc (some h) tuple_data with ⟨hpc, hsize⟩ | ⟨hpc, _⟩
  · exact ⟨fun _ => hsize, fun _ => ⟨h, h, rfl, hh, rfl, hone⟩, by simp [hpc, Pc.page],
      fun _ => rfl, by simp [hpc], by simp [hpc, Pc.unsettled], by simp [hpc, Pc.next_page],
      by simp [hpc, Pc.target], by simp [hpc], by simp [begin_insert], by simp [begin_insert]⟩
  · exact ⟨by simp [hpc, Pc.running], by simp [hpc, Pc.running], by simp [hpc, Pc.page],
      fun _ => rfl, by simp [hpc], by simp [hpc, Pc.unsettled], by simp [hpc, Pc.next_page],
      by simp [hpc, Pc.target], by simp [hpc], by simp [begin_insert], by simp [begin_insert]⟩

theorem pins_begin (h : PageID) (tuple_data : List UInt8) (n : Nat) :
    (begin_insert h tuple_data).pins n = 0 := by
  unfold InsertCall.pins begin_insert
  simp only
  split <;> simp [Pc.page, Pc.pins_new]

theorem pending_begin (h : PageID) (tuple_data : List UInt8) (n : Nat) :
    ¬ (begin_insert h tuple_data).pending n := by
  intro hn
  have := pins_pos_of_pending hn
  rw [pins_begin] at this
  omega

theorem fresh_begin (h : PageID) (tuple_data : List UInt8) (n : Nat) :
    ¬ (begin_insert h tuple_data).fresh n := by
  rintro ⟨_, hn⟩
  cases hn

theorem InsertInv.start (I : InsertInv s) {h : Nat} (tuple_data : List UInt8) (hh : h ∈ s.heaps) :
    InsertInv { s with calls := s.calls ++ [begin_insert (some h) tuple_data] } := by
  refine ⟨?_, ?_, ?_, ?_⟩
  · have hpins : pinsOf (s.calls ++ [begin_insert (some h) tuple_data]) = pinsOf s.calls := by
      funext n
      simp [pinsOf, pins_begin]
    have hpend : pendingOf (s.calls ++ [begin_insert (some h) tuple_data]) =
        pendingOf s.calls := by
      funext n
      simp [pendingOf, pending_begin, or_and_right, exists_or]
    simp only
    rw [hpins, hpend]
    exact I.heap
  · intro c hc
    rcases List.mem_append.mp hc with hc | hc
    · exact I.calls c hc
    · rw [List.mem_singleton] at hc
      subst hc
      exact callInv_begin I.heap.forest hh tuple_data
  · intro i j c d hc hd hij m hcf hdf
    have hold : ∀ (i : Nat) (c : InsertCall),
        (s.calls ++ [begin_insert (some h) tuple_data])[i]? = some c → c.fresh m →
        s.calls[i]? = some c := by
      intro i c hc hcf
      by_cases hi : i < s.calls.length
      · rwa [List.getElem?_append_left hi] at hc
      · rw [List.getElem?_append_right (Nat.le_of_not_lt hi)] at hc
        have := List.mem_of_getElem? hc
        rw [List.mem_singleton] at this
        exact absurd hcf (this ▸ fresh_begin _ _ m)
    exact I.apart i j c d (hold i c hc hcf) (hold j d hd hdf) hij m hcf hdf
  · intro m hm
    obtain ⟨h1, h2⟩ := I.gone m hm
    refine ⟨h1, fun c hc => ?_⟩
    rcases List.mem_append.mp hc with hc | hc
    · exact h2 c hc
    · rw [List.mem_singleton] at hc
      subst hc
      exact fresh_begin _ _ m

/-- A new page of the call that moves is not the new page of another one. -/
theorem InsertInv.apart_step (I : InsertInv s) {i j : Nat} {c c' d : InsertCall}
    {b' : BufferPoolManager} (hc : s.calls[i]? = some c) (hd : s.calls[j]? = some d) (hij : i ≠ j)
    (W : Stepped True (· ∈ s.heaps) (pinsOf (s.calls.eraseIdx i))
      (pendingOf (s.calls.eraseIdx i)) s.pool c b' c') {m : Nat} (hm : c'.fresh m) :
    ¬ d.fresh m := by
  intro hdm
  rcases W.uncached m hm with h | ⟨h, _⟩
  · exact I.apart i j c d hc hd hij m h hdm
  · exact h ((I.calls d (List.mem_of_getElem? hd)).fresh_new hdm).2.1

/-- The step of a thread is the step of its call. -/
theorem InsertInv.next_step (I : InsertInv s) {i : Nat} (h : s.next (.step i) = some t) :
    ∃ c b' c', s.calls[i]? = some c ∧ c.pc.running = true ∧
      insert_step s.pool c = some (b', c') ∧
      Stepped True (· ∈ s.heaps) (pinsOf (s.calls.eraseIdx i))
        (pendingOf (s.calls.eraseIdx i)) s.pool c b' c' ∧
      t = { s with
        pool := b'
        calls := s.calls.set i c'
        deallocated := recordDeallocated c c' s.deallocated } := by
  unfold InsertSystem.next at h
  simp only at h
  obtain ⟨c, hc, h⟩ := Option.bind_eq_some_iff.mp h
  obtain ⟨r, hr, h⟩ := Option.map_eq_some_iff.mp h
  have hrun : c.pc.running = true := by
    rcases hpc : c.pc with _ | _ | _ | _ | _ | _ | _ | _ | _ | _
    all_goals first | rfl | (unfold insert_step at hr; rw [hpc] at hr; cases hr)
  obtain ⟨b', c', hstep, W⟩ := I.stepped hc hrun
  rw [hr] at hstep
  obtain rfl := Option.some.inj hstep
  exact ⟨c, b', c', hc, hrun, hr, W, h.symm⟩

/-- The start of a call. -/
theorem next_start {h : Nat} {tuple_data : List UInt8}
    (hn : s.next (.start h tuple_data) = some t) :
    h ∈ s.heaps ∧ t = { s with calls := s.calls ++ [begin_insert (some h) tuple_data] } := by
  unfold InsertSystem.next at hn
  simp only at hn
  split at hn
  · rename_i hh
    exact ⟨hh, (Option.some.inj hn).symm⟩
  · cases hn

/-- One step of any thread. -/
theorem insertInv_next {e : InsertEvent} (I : InsertInv s) (hok : KeepsNewPages s e)
    (h : s.next e = some t) : InsertInv t := by
  cases e with
  | start first_page_id tuple_data =>
    obtain ⟨hh, rfl⟩ := next_start h
    exact I.start tuple_data hh
  | step i =>
    obtain ⟨c, b', c', hc, _, _, W, rfl⟩ := I.next_step h
    have hmem : c ∈ s.calls := List.mem_of_getElem? hc
    refine ⟨?_, ?_, ?_, fun m hm => I.gone_step hc W hm⟩
    · show HeapState True (pinsOf (s.calls.set i c')) (pendingOf (s.calls.set i c')) _ b'
      rw [pinsOf_set hc, pendingOf_set hc]
      exact W.heap
    · intro d hd
      rcases (threads.mem_set_iff_others hc c').mp hd with rfl | hd
      · exact W.call
      · obtain ⟨j, hji, hj⟩ := List.mem_eraseIdx_iff_getElem?.mp hd
        have hdm : d ∈ s.calls := List.mem_of_getElem? hj
        refine (I.calls d hdm).beside W (fun m => threads.le_sum (fun d => d.pins m) hd) ?_ ?_
        · intro m hm
          exact ⟨fun hcm => I.apart i j c d hc hj (Ne.symm hji) m hcm hm,
            fun hcm => I.apart_step hc hj (Ne.symm hji) W hcm hm⟩
        · intro hb hn m hm
          exact hok c hc hb d hdm hn m hm
    · intro j k d e hd he hjk m hdm hem
      rcases threads.getElem?_set_cases hd with ⟨rfl, rfl⟩ | ⟨hj, hd'⟩
      · rcases threads.getElem?_set_cases he with ⟨hk, _⟩ | ⟨hk, he'⟩
        · exact hjk hk.symm
        · exact I.apart_step hc he' (Ne.symm hk) W hdm hem
      · rcases threads.getElem?_set_cases he with ⟨rfl, rfl⟩ | ⟨_, he'⟩
        · exact I.apart_step hc hd' (Ne.symm hj) W hem hdm
        · exact I.apart j k d e hd' he' hjk m hdm hem

theorem insertInv_start (h : insertMachine.start s) : InsertInv s := by
  obtain ⟨H, hc, hd⟩ := h
  refine ⟨?_, ?_, ?_, ?_⟩
  · have hpins : pinsOf s.calls = fun _ => 0 := by
      rw [hc]
      rfl
    have hpend : pendingOf s.calls = fun _ => False := by
      funext n
      simp [pendingOf, hc]
    rw [hpins, hpend]
    exact H
  · simp [hc]
  · simp [hc]
  · intro m hm
    rw [hd] at hm
    exact ⟨fun hon => (H.pages m hon).2.2 hm, by simp [hc]⟩

theorem insertInv_reach (h : insertMachine.Reach KeepsNewPages s) : InsertInv s :=
  h.invariant (fun _ => insertInv_start) fun _ _ _ I hok hn => insertInv_next I hok hn

end

/-! ## Links -/

/-- The calls link and give back only pages that they got themselves; the chains end, stay
apart and have no deallocated page. -/
def LinksOwnPages (s : InsertSystem) : Prop :=
  (∀ c ∈ s.calls, (∀ p ∈ c.linked, p ∈ c.obtained) ∧ ∀ p ∈ c.given_back, p ∈ c.obtained) ∧
    Forest (succ s.pool) (· ∈ s.heaps) ∧
    ∀ m, OnChain (succ s.pool) (· ∈ s.heaps) m →
      some m ∉ s.deallocated ∧ Allocated s.pool.disk_manager m

/-- This is so as long as no call loses its new page from the pool between its unpin and the
last look at its id. -/
theorem calls_that_keep_their_new_pages_link_no_other {s : InsertSystem}
    (h : insertMachine.Reach KeepsNewPages s) : LinksOwnPages s := by
  have I := insertInv_reach h
  refine ⟨fun c hc => ⟨(I.calls c hc).linked, (I.calls c hc).given_back⟩, I.heap.forest, ?_⟩
  intro m hm
  exact ⟨fun hd => (I.gone m hd).1 hm, (I.heap.pages m hm).2⟩

/-- A pool over a file that has its header page only. -/
def empty_pool (pool_capacity : Nat) : BufferPoolManager :=
  .make { capacity := 1, free_list := [], file := fun _ => zeroPage } pool_capacity

/-- A heap of one page, page 1. -/
def one_heap : InsertSystem := ⟨(create (empty_pool 4)).2, [1], [], []⟩

/-- Two heaps of one page each, in a pool of two frames. -/
def two_heaps : InsertSystem :=
  ⟨(create (create (empty_pool 2)).2).2, [1, 2], [], []⟩

theorem heapState_empty_pool (pool_capacity : Nat) :
    HeapState True (fun _ => 0) (fun _ => False) (fun _ => False) (empty_pool pool_capacity) :=
  heapState_make ⟨fun _ => rfl, fun _ => rfl⟩ List.nodup_nil (by simp)
    ⟨Nat.zero_lt_one, by simp⟩ (fun h => absurd trivial h)

theorem one_heap_start : insertMachine.start one_heap := by
  have h : (create (empty_pool 4)).1 = .ok (some 1) := by rfl
  obtain ⟨H, _⟩ := (heapState_empty_pool 4).created (fun h => absurd trivial h) h
  refine ⟨?_, rfl, rfl⟩
  have hheads : (· ∈ [1]) = fun h : Nat => False ∨ h = 1 := by
    funext h
    simp
  show HeapState True _ _ (· ∈ [1]) _
  rw [hheads]
  exact H

theorem two_heaps_start : insertMachine.start two_heaps := by
  have h1 : (create (empty_pool 2)).1 = .ok (some 1) := by rfl
  have h2 : (create (create (empty_pool 2)).2).1 = .ok (some 2) := by rfl
  obtain ⟨H, _⟩ := (heapState_empty_pool 2).created (fun h => absurd trivial h) h1
  obtain ⟨H', _⟩ := H.created (fun h => absurd trivial h) h2
  refine ⟨?_, rfl, rfl⟩
  have hheads : (· ∈ [1, 2]) = fun h : Nat => (False ∨ h = 1) ∨ h = 2 := by
    funext h
    simp
  show HeapState True _ _ (· ∈ [1, 2]) _
  rw [hheads]
  exact H'

/-- No call has to read the id of its new page yet, or the step brings no page in. -/
def keeps_new_pages (s : InsertSystem) : InsertEvent → Bool
  | .start _ _ => true
  | .step i => s.calls.all (·.pc.next_page.isNone) ||
      (s.calls[i]?).any fun c => c.pc.next_page.isSome

theorem keepsNewPages_of_check (s : InsertSystem) (e : InsertEvent)
    (h : keeps_new_pages s e = true) : KeepsNewPages s e := by
  cases e with
  | start => trivial
  | step i =>
    intro c hc hb d hd hn
    unfold keeps_new_pages at h
    rw [Bool.or_eq_true, List.all_eq_true, Option.any_eq_true] at h
    rcases h with h | ⟨c', hc', h⟩
    · exact absurd (by simpa using h d hd) hn
    · rw [hc] at hc'
      obtain rfl := Option.some.inj hc'
      unfold InsertCall.brings_in at hb
      rcases hpc : c.pc with _ | _ | _ | _ | _ | _ | _ | _ | _ | _
      all_goals simp [hpc, Pc.next_page] at h hb

/-- A call fills page 1, and the next one links a page of its own. -/
theorem a_call_links_the_page_it_created :
    ∃ s : InsertSystem, (∃ c ∈ s.calls, c.linked = [some 2]) ∧ LinksOwnPages s := by
  obtain ⟨s, hr, hs⟩ := Machine.run_of_execIf_check (m := insertMachine) (s := one_heap)
    keepsNewPages_of_check
    (l := [.start 1 (List.replicate 8180 0), .step 0, .step 0, .step 0,
      .start 1 [1], .step 1, .step 1, .step 1, .step 1, .step 1, .step 1])
    (p := fun s => s.calls.any fun c => c.linked == [some 2])
    (by decide +kernel)
  simp only [List.any_eq_true, beq_iff_eq] at hs
  exact ⟨s, hs, calls_that_keep_their_new_pages_link_no_other
    (Machine.Reach.run (.start one_heap_start) hr)⟩

/-- A call creates page 3 and unpins it. A call on the other heap brings in page 2, and page
3 makes way for it; the first call then links the page that it finds in the frame. -/
theorem a_call_links_the_page_of_another_heap :
    ¬ ∀ s, insertMachine.Reach always s → LinksOwnPages s := by
  intro h
  obtain ⟨s, hr, hs⟩ := Machine.run_of_exec_check (m := insertMachine) (s := two_heaps)
    (l := [.start 1 (List.replicate 8180 0), .step 0, .step 0, .step 0,
      .start 1 [1], .step 1, .step 1, .step 1, .step 1, .step 1,
      .start 2 [2], .step 2, .step 1])
    (p := fun s => s.calls.any fun c => c.linked.any fun p => p ∉ c.obtained)
    (by decide +kernel)
  simp only [List.any_eq_true, decide_eq_true_eq] at hs
  obtain ⟨c, hc, p, hp, hno⟩ := hs
  exact hno (((h s (Machine.Reach.run (.start two_heaps_start) hr)).1 c hc).1 p hp)

end duck.table_heap
