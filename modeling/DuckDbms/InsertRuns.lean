-- An insert that runs alone: it ends, and it places its tuple into a free slot
-- of one page of its heap, or leaves all the rows as they were.
import DuckDbms.InsertProgress

open duck.slotted_page duck.disk_manager duck.buffer_pool chain

namespace duck.table_heap

/-! ## The rows of the heaps -/

open Classical in
/-- The rows of a page of the heaps; other pages have none. -/
noncomputable def rows (heads : Nat → Prop) (b : BufferPoolManager) (n : Nat) : List Row :=
  if OnChain (succ b) heads n then (contents b n).rows else []

section
variable {evicts : Prop} {heads : Nat → Prop} {pins : Nat → Nat} {pending : Nat → Prop}
  {b b' b0 : BufferPoolManager} {c c' : InsertCall}

theorem rows_on {n : Nat} (h : OnChain (succ b) heads n) : rows heads b n = (contents b n).rows :=
  if_pos h

theorem rows_off {n : Nat} (h : ¬ OnChain (succ b) heads n) : rows heads b n = [] := if_neg h

/-- The same chains, and the same rows on them. -/
theorem rows_congr (hon : ∀ n, OnChain (succ b') heads n ↔ OnChain (succ b) heads n)
    (hrows : ∀ n, OnChain (succ b) heads n → (contents b' n).rows = (contents b n).rows) :
    rows heads b' = rows heads b := by
  funext n
  by_cases h : OnChain (succ b) heads n
  · rw [rows_on h, rows_on ((hon n).mpr h), hrows n h]
  · rw [rows_off h, rows_off fun h' => h ((hon n).mp h')]

/-- One page of the chains gets other rows. -/
theorem rows_update (hon : ∀ n, OnChain (succ b') heads n ↔ OnChain (succ b) heads n) {n : Nat}
    {m : Meaning} (hn : OnChain (succ b) heads n)
    (hc : contents b' = Function.update (contents b) n m) :
    rows heads b' = Function.update (rows heads b) n m.rows := by
  funext k
  by_cases hk : k = n
  · subst hk
    rw [Function.update_self, rows_on ((hon k).mpr hn), hc, Function.update_self]
  · rw [Function.update_of_ne hk]
    by_cases h : OnChain (succ b) heads k
    · rw [rows_on h, rows_on ((hon k).mpr h), hc, Function.update_of_ne hk]
    · rw [rows_off h, rows_off fun h' => h ((hon k).mp h')]

/-- The result that a call has returned, or will return. -/
def Pc.result : Pc → Option (Except String (Option RID))
  | .done r | .leave _ _ (.return_ r) => some r
  | _ => none

/-- What a step of a call does to the rows: nothing, or it places its tuple. -/
theorem Stepped.rows (W : Stepped evicts heads pins pending b c b' c')
    (H : HeapState evicts (fun m => pins m + c.pins m) (fun m => pending m ∨ c.pending m) heads b)
    (I : CallInv heads b c) :
    (rows heads b' = rows heads b ∧
      ∀ rid, c'.pc.result = some (.ok (some rid)) → c.pc.result = some (.ok (some rid))) ∨
      ∃ page n slot, c.pc = .try_page page ∧ c.page_id = some n ∧
        c'.pc = .leave page true (.return_ (.ok (some ⟨some n, slot⟩))) ∧
        MayTake (rows heads b n) slot ∧
        rows heads b' =
          Function.update (rows heads b) n (place (rows heads b n) slot c.tuple_data) := by
  have hon : (∀ page next_page, c.pc ≠ .relink page next_page) →
      ∀ n, OnChain (succ b') heads n ↔ OnChain (succ b) heads n := by
    intro hpc n
    constructor
    · rintro ⟨h, hh, hn⟩
      refine ⟨h, hh, (W.onPath_back h hh n hn).resolve_right ?_⟩
      rintro ⟨_, page, next_page, h⟩
      exact hpc page next_page h
    · rintro ⟨h, hh, hn⟩
      exact ⟨h, hh, W.onPath h hh n hn⟩
  have hsame : (∀ page next_page, c.pc ≠ .relink page next_page) → contents b' = contents b →
      table_heap.rows heads b' = table_heap.rows heads b := by
    intro hpc h
    exact rows_congr (hon hpc) fun n _ => by rw [h]
  have hoff : (∀ page next_page, c.pc ≠ .relink page next_page) → ∀ x,
      ¬ OnChain (succ b) heads x → (∀ m, m ≠ x → contents b' m = contents b m) →
      table_heap.rows heads b' = table_heap.rows heads b := by
    intro hpc x hx h
    refine rows_congr (hon hpc) fun n hn => ?_
    rw [h n fun he => hx (he ▸ hn)]
  have hnew : ∀ x (v : Meaning), contents b' = Function.update (contents b) x v →
      ∀ m, m ≠ x → contents b' m = contents b m := by
    intro x v h m hm
    rw [h, Function.update_of_ne hm]
  have M := W.move
  generalize hd : c' = d at M
  cases M with
  | found hpc h | unpinned hpc h | continued hpc h | full hpc _ _ h | stuck hpc _ _ _ _ h
  | not_created hpc _ h | last hpc _ _ _ h =>
    exact Or.inl ⟨hsame (by simp [hpc]) h, by simp [Pc.result]⟩
  | returned hpc h =>
    exact Or.inl ⟨hsame (by simp [hpc]) h, by simp [Pc.result, hpc]⟩
  | not_found hpc _ h | read hpc _ h =>
    exact Or.inl ⟨hsame (by simp [hpc]) (by rw [h]), by simp [Pc.result]⟩
  | passed hpc _ _ h =>
    left
    rw [h]
    exact ⟨rfl, by simp [Pc.result]⟩
  | @placed page n slot hpc hid htake h =>
    right
    obtain ⟨k, n', _, k2, k3, k4⟩ := I.heap (by rw [hpc]; rfl)
    obtain rfl : n = n' := Option.some.inj (hid.symm.trans k3)
    have hn : OnChain (succ b) heads n := ⟨k, k2, k4⟩
    refine ⟨page, n, slot, hpc, hid, rfl, by rw [rows_on hn]; exact htake, ?_⟩
    rw [rows_update (hon (by simp [hpc])) hn h, rows_on hn]
  | created hpc hx h =>
    exact Or.inl ⟨hoff (by simp [hpc]) _ (fun hon => hx (H.pages _ hon).2) (hnew _ _ h),
      by simp [Pc.result]⟩
  | inited hpc hx h =>
    exact Or.inl ⟨hoff (by simp [hpc]) _ (I.fresh_new hx).2.2.1 (hnew _ _ h),
      by simp [Pc.result]⟩
  | gave_back hpc hx h =>
    exact Or.inl ⟨hoff (by simp [hpc]) _ (I.fresh_new hx).2.2.1 h, by simp [Pc.result]⟩
  | @linked page next_page n x hpc hid hend hx h =>
    left
    have hempty := (I.fresh_new hx).2.2.2 (by rw [hpc]; rfl)
    have hxn := (I.fresh_new hx).2.2.1
    obtain ⟨k, n', _, k2, k3, k4⟩ := I.heap (by rw [hpc]; rfl)
    obtain rfl : n = n' := Option.some.inj (hid.symm.trans k3)
    have hnx : x ≠ n := fun he => hxn (he ▸ ⟨k, k2, k4⟩)
    refine ⟨?_, by simp [Pc.result]⟩
    funext m
    by_cases hm : OnChain (succ b) heads m
    · have hm' : OnChain (succ b') heads m := by
        obtain ⟨j, hj, hon⟩ := hm
        exact ⟨j, hj, W.onPath j hj m hon⟩
      rw [rows_on hm, rows_on hm', h]
      by_cases hmn : m = n
      · subst hmn
        rw [Function.update_self]
      · rw [Function.update_of_ne hmn]
    · rw [rows_off hm]
      by_cases hm' : OnChain (succ b') heads m
      · -- only the new page comes to the chains, and it has no rows
        obtain ⟨j, hj, hon⟩ := hm'
        have hf := (W.onPath_back j hj m hon).resolve_left fun h => hm ⟨j, hj, h⟩
        obtain rfl : m = x := by
          have := hf.1.2
          rw [(I.fresh_new hx).1, List.mem_singleton] at this
          exact Option.some.inj this
        rw [rows_on ⟨j, hj, hon⟩, h, Function.update_of_ne hnx, hempty]
        rfl
      · exact rows_off hm'

end

/-! ## A call that runs alone -/

/-- What `insert_tuple` did between `b0` and `b` when it returned the result: it placed the
tuple on a page of its heap, or it changed no row. The second cannot happen to a tuple of
at most 8180 bytes when the pool has two frames and nobody else has pinned a page. -/
inductive Inserted (heads : Nat → Prop) (pins : Nat → Nat) (h : Nat) (tuple : List UInt8)
    (b0 b : BufferPoolManager) : Except String (Option RID) → Prop
  | placed {n slot : Nat} : OnPath (succ b) h n → MayTake (rows heads b0 n) slot →
      rows heads b = Function.update (rows heads b0) n (place (rows heads b0 n) slot tuple) →
      Inserted heads pins h tuple b0 b (.ok (some ⟨some n, slot⟩))
  | refused {r : Except String (Option RID)} : (∀ rid, r ≠ .ok (some rid)) →
      rows heads b = rows heads b0 →
      ¬ (tuple.length ≤ 8180 ∧ 2 ≤ b0.pool_capacity ∧ ∀ m, pins m = 0) →
      Inserted heads pins h tuple b0 b r

/-- The call has found the last page of its heap full. -/
def Pc.extends : Pc → Bool
  | .create _ | .init_new _ _ | .unpin_new _ _ | .relink _ _ => true
  | _ => false

/-- The call gives its new page back. -/
def Pc.gives_back : Pc → Bool
  | .read_new _ _ _ | .delete_new _ _ _ => true
  | _ => false

/-- The page that the call tries next. -/
def InsertCall.tries (c : InsertCall) : Option PageID :=
  match c.pc with
  | .fetch | .try_page _ => some c.page_id
  | .leave _ _ (.continue_ page_id) => some page_id
  | _ => none

/-- What a call keeps that started at `b0` and runs alone. -/
structure Alone (evicts : Prop) (heads : Nat → Prop) (pins : Nat → Nat) (pending : Nat → Prop)
    (h : Nat) (tuple : List UInt8) (b0 b : BufferPoolManager) (c : InsertCall) : Prop where
  heap : HeapState evicts (fun m => pins m + c.pins m) (fun m => pending m ∨ c.pending m) heads b
  call : CallInv heads b c
  ahead : Ahead b c
  data : c.tuple_data = tuple
  first : c.first_page_id = some h
  fresh : ∀ m, c.fresh m → pins m = 0 ∧ ¬ Allocated b0.disk_manager m
  /-- nobody else links a page to the last one -/
  last : c.pc.extends = true → ∀ n, c.page_id = some n → succ b n = none
  /-- nobody else fills the new page, or takes its place -/
  empty : c.created_new_page = true → ∀ n, c.tries = some (some n) → contents b n = emptyMeaning
  keeps : c.pc.gives_back = false
  unchanged : c.pc.result = none → rows heads b = rows heads b0
  result : ∀ r, c.pc.result = some r → Inserted heads pins h tuple b0 b r
  capacity : b.pool_capacity = b0.pool_capacity
  disk : b0.disk_manager.capacity ≤ b.disk_manager.capacity
  allocated : ∀ m, Allocated b0.disk_manager m → Allocated b.disk_manager m
  onPath : ∀ k, heads k → ∀ m, OnPath (succ b0) k m → OnPath (succ b) k m
  keeps_links : ∀ n m, OnChain (succ b0) heads n → succ b0 n = some m → succ b n = some m
  pinned : ∀ n f, b0.page_table (some n) = some f → 0 < pins n → b.page_table (some n) = some f
  /-- only new pages join a chain -/
  joined : ∀ k, heads k → ∀ m, OnPath (succ b) k m →
    OnPath (succ b0) k m ∨ ¬ Allocated b0.disk_manager m

section
variable {evicts : Prop} {heads : Nat → Prop} {pins : Nat → Nat} {pending : Nat → Prop}
  {h : Nat} {tuple : List UInt8} {b0 b : BufferPoolManager} {c : InsertCall}

theorem Inserted.congr {b' : BufferPoolManager} {r : Except String (Option RID)}
    (I : Inserted heads pins h tuple b0 b r) (hrows : rows heads b' = rows heads b)
    (hpath : ∀ m, OnPath (succ b) h m → OnPath (succ b') h m) :
    Inserted heads pins h tuple b0 b' r := by
  cases I with
  | placed h1 h2 h3 => exact .placed (hpath _ h1) h2 (by rw [hrows, h3])
  | refused h1 h2 h3 => exact .refused h1 (by rw [hrows, h2]) h3

/-- The pool has a frame for a call that runs alone. -/
theorem Alone.not_allPinned (A : Alone evicts heads pins pending h tuple b0 b c)
    (hn : c.pc.pins_new = false) (hall : AllPinned b) :
    ¬ (tuple.length ≤ 8180 ∧ 2 ≤ b0.pool_capacity ∧ ∀ m, pins m = 0) := by
  rintro ⟨_, h2, h0⟩
  refine buffer_pool.not_allPinned A.heap.store.inv (p := c.page_id.getD 0)
    (by rw [A.capacity]; exact h2) (fun m hm => ?_) hall
  have hpin : c.pins m ≠ 0 := by
    have := h0 m
    omega
  unfold InsertCall.pins at hpin
  rw [hn] at hpin
  by_cases hp : c.pc.page.isSome ∧ c.page_id = some m
  · rw [hp.2]
    rfl
  · rw [if_neg hp] at hpin
    simp at hpin

theorem Alone.unchanged_step (A : Alone evicts heads pins pending h tuple b0 b c)
    {b' : BufferPoolManager} {c' : InsertCall} (W : Stepped evicts heads pins pending b c b' c')
    (hr : c'.pc.result = none) : rows heads b' = rows heads b0 := by
  rcases W.rows A.heap A.call with ⟨hs, _⟩ | ⟨page, n, slot, _, _, hpc, _⟩
  · rw [hs]
    apply A.unchanged
    have M := W.move
    cases M with
    | returned => cases hr
    | found hpc | not_found hpc | placed hpc | stuck hpc | last hpc | full hpc | created hpc
    | not_created hpc | inited hpc | unpinned hpc | linked hpc | passed hpc | read hpc
    | gave_back hpc | continued hpc =>
      rw [hpc]
      rfl
  · rw [hpc] at hr
    cases hr

theorem Alone.last_step (A : Alone evicts heads pins pending h tuple b0 b c)
    {b' : BufferPoolManager} {c' : InsertCall} (W : Stepped evicts heads pins pending b c b' c')
    (he : c'.pc.extends = true) {n : Nat} (hn : c'.page_id = some n) : succ b' n = none := by
  obtain ⟨k, m, _, k2, k3, k4⟩ := W.call.heap (by
    rcases hpc : c'.pc with _ | _ | _ | _ | _ | _ | _ | _ | _ | _
    all_goals first | rfl | (rw [hpc] at he; cases he))
  obtain rfl : n = m := Option.some.inj (hn.symm.trans k3)
  have hlinks : c'.links = 1 := by
    rcases hpc : c'.pc with _ | _ | _ | _ | _ | _ | _ | _ | ⟨_, _, _⟩ | _
    all_goals first
      | (unfold InsertCall.links; rw [hpc]; done)
      | (rw [hpc] at he; cases he)
  have hsame : ∀ m, OnChain (succ b) heads m → succ b' m = succ b m := by
    rcases W.move.links A.heap A.call with ⟨h, _⟩ | ⟨_, _, _, _, _, _, _, _, h⟩
    · exact h
    · rw [hlinks] at h
      cases h
  have M := W.move
  cases M with
  | @last page n' hpc hid hend hc h =>
    obtain rfl : n' = n := Option.some.inj (hid.symm.trans hn)
    rw [succ_congr h, hend]
  | created hpc | inited hpc | unpinned hpc =>
    obtain ⟨j, m, _, j2, j3, j4⟩ := A.call.heap (by rw [hpc]; rfl)
    obtain rfl : n = m := Option.some.inj (hn.symm.trans j3)
    rw [hsame n ⟨j, j2, j4⟩]
    exact A.last (by rw [hpc]; rfl) n hn
  | found | not_found | placed | stuck | full | not_created | linked | passed | read | gave_back
  | returned | continued => cases he

theorem Alone.empty_step (A : Alone evicts heads pins pending h tuple b0 b c)
    {b' : BufferPoolManager} {c' : InsertCall} (M : Move b b' c c')
    (hc : c'.created_new_page = true) {n : Nat} (hn : c'.tries = some (some n)) :
    contents b' n = emptyMeaning := by
  cases M with
  | found hpc h =>
    rw [h]
    apply A.empty hc
    unfold InsertCall.tries at hn ⊢
    rw [hpc]
    exact hn
  | @full page k m hpc hid hend h =>
    -- the new page has no successor
    have hk := A.empty hc k (by unfold InsertCall.tries; rw [hpc, hid])
    unfold succ at hend
    rw [hk] at hend
    cases hend
  | @linked page next_page k x hpc hid hend hx h =>
    obtain rfl : x = n := by
      unfold InsertCall.tries at hn
      simpa using hn
    have hxk : x ≠ k := by
      rintro rfl
      obtain ⟨j, m, _, j2, j3, j4⟩ := A.call.heap (by rw [hpc]; rfl)
      obtain rfl : x = m := Option.some.inj (hid.symm.trans j3)
      exact (A.call.fresh_new hx).2.2.1 ⟨j, j2, j4⟩
    rw [h, Function.update_of_ne hxk]
    exact (A.call.fresh_new hx).2.2.2 (by rw [hpc]; rfl)
  | gave_back hpc =>
    have := A.keeps
    rw [hpc] at this
    cases this
  | continued hpc h =>
    rw [h]
    apply A.empty hc
    unfold InsertCall.tries at hn ⊢
    rw [hpc]
    exact hn
  | not_found | placed | stuck | last | created | not_created | inited | unpinned | passed | read
  | returned => cases hn

theorem Alone.result_step (A : Alone evicts heads pins pending h tuple b0 b c)
    {b' : BufferPoolManager} {c' : InsertCall} (W : Stepped evicts heads pins pending b c b' c')
    {r : Except String (Option RID)} (hr : c'.pc.result = some r) :
    Inserted heads pins h tuple b0 b' r := by
  have hwill : ∀ f, c.pc.page = some f → ∃ n, c.page_id = some n ∧ OnPath (succ b) h n ∧
      b.page_table (some n) = some f ∧ meaning (b.frames f).data = contents b n ∧
      (contents b n).good := by
    intro f hf
    obtain ⟨k, n, h1, _, h3, h4, ht, _, hm, hg, _⟩ := visited A.heap A.call hf
    obtain rfl : h = k := Option.some.inj (A.first.symm.trans h1)
    exact ⟨n, h3, h4, ht, hm, hg⟩
  have hhead : c.pc.running = true → heads h := by
    intro hrun
    obtain ⟨k, _, h1, h2, _⟩ := A.call.heap hrun
    obtain rfl : h = k := Option.some.inj (A.first.symm.trans h1)
    exact h2
  have hrows := W.rows A.heap A.call
  have M := W.move
  generalize hd : c' = d at M
  cases M with
  | not_found hpc hall hb =>
    obtain rfl := Option.some.inj (hd ▸ hr)
    refine .refused (by simp) ?_ (A.not_allPinned (by rw [hpc]; rfl) hall)
    rw [hb]
    exact A.unchanged (by rw [hpc]; rfl)
  | @placed page n slot hpc hid htake hc =>
    obtain rfl := Option.some.inj (hd ▸ hr)
    obtain ⟨m, h1, h2, _⟩ := hwill page (by rw [hpc]; rfl)
    obtain rfl : n = m := Option.some.inj (hid.symm.trans h1)
    have hsame : rows heads b = rows heads b0 := A.unchanged (by rw [hpc]; rfl)
    rcases hrows with ⟨_, hno⟩ | ⟨page', m, slot', _, hid', hpc', htake', hs⟩
    · have := hno _ (by rw [hd]; rfl)
      rw [hpc] at this
      cases this
    · subst hd
      simp only [Pc.leave.injEq, After.return_.injEq, Except.ok.injEq, Option.some.injEq,
        RID.mk.injEq] at hpc'
      obtain ⟨_, _, rfl, rfl⟩ := hpc'
      rw [hsame, A.data] at hs
      rw [hsame] at htake'
      exact .placed (W.onPath h (hhead (by rw [hpc]; rfl)) n h2) htake' hs
  | @stuck page n e hpc hid hno hend hcreated =>
    -- the new page is empty
    obtain ⟨m, h1, _, _, hm, _⟩ := hwill page (by rw [hpc]; rfl)
    obtain rfl : n = m := Option.some.inj (hid.symm.trans h1)
    have he := A.empty hcreated n (by unfold InsertCall.tries; rw [hpc, hid])
    rw [he] at hm
    exact absurd (hasRoom_empty hm (A.call.size (by rw [hpc]; rfl))) hno
  | not_created hpc hall hc =>
    obtain rfl := Option.some.inj (hd ▸ hr)
    refine .refused (by simp) ?_ (A.not_allPinned (by rw [hpc]; rfl) hall)
    rcases hrows with ⟨hs, _⟩ | ⟨_, _, _, hpc', _⟩
    · rw [hs]
      exact A.unchanged (by rw [hpc]; rfl)
    · rw [hpc] at hpc'
      cases hpc'
  | @returned page dirty r' hpc hc =>
    obtain rfl := Option.some.inj (hd ▸ hr)
    refine (A.result r' (by rw [hpc]; rfl)).congr ?_ (W.onPath h (hhead (by rw [hpc]; rfl)))
    rcases hrows with ⟨hs, _⟩ | ⟨_, _, _, hpc', _⟩
    · exact hs
    · rw [hpc] at hpc'
      cases hpc'
  | found | last | full | created | inited | unpinned | linked | passed | read | gave_back
  | continued =>
    rw [hd] at hr
    cases hr

/-- One step of a call that runs alone. -/
theorem Alone.step (A : Alone evicts heads pins pending h tuple b0 b c)
    (hpends : ∀ m, pending m → 0 < pins m) (hrun : c.pc.running = true)
    (hroom : ¬ evicts → ∀ page, c.pc = .create page →
      b.allocate_page.2.disk_manager.capacity ≤ b.pool_capacity) :
    ∃ b' c', insert_step b c = some (b', c') ∧
      Alone evicts heads pins pending h tuple b0 b' c' ∧
      c'.steps b' c'.links < c.steps b c.links := by
  obtain ⟨b', c', hstep, W⟩ := insert_step_spec A.heap A.call hrun hroom hpends
    fun m hm => (A.fresh m hm).1
  refine ⟨b', c', hstep, ?_, ?_⟩
  swap
  · have := W.move.steps_lt A.heap A.call A.ahead hrun 0
    simpa using this
  have M := W.move
  refine ⟨W.heap, W.call, M.ahead A.heap A.call A.ahead, ?_, ?_, ?_,
    fun he n hn => A.last_step W he hn, fun hc n hn => A.empty_step M hc hn, ?_,
    A.unchanged_step W, fun r hr => A.result_step W hr, ?_, Nat.le_trans A.disk W.disk_capacity,
    ?_, fun k hk m hm => W.onPath k hk m (A.onPath k hk m hm), ?_,
    fun n f hf hp => W.pinned n f (A.pinned n f hf hp) hp, fun k hk m hm => ?_⟩
  · rw [← A.data]
    cases M <;> rfl
  · rw [← A.first]
    cases M <;> rfl
  · intro m hm
    rcases W.uncached m hm with h | ⟨h, hu⟩
    · exact A.fresh m h
    · have hp := A.heap.store.inv.absent m hu
      exact ⟨by omega, fun ha => h (A.allocated m ha)⟩
  · cases M with
    | passed hpc hid hend =>
      rw [A.last (by rw [hpc]; rfl) _ hid] at hend
      cases hend
    | read hpc =>
      have := A.keeps
      rw [hpc] at this
      cases this
    | found | not_found | placed | stuck | last | full | created | not_created | inited
    | unpinned | linked | gave_back | returned | continued => rfl
  · rw [W.pool_capacity, A.capacity]
  · intro m hm
    exact W.allocated m (A.allocated m hm) fun hf => (A.fresh m hf).2 hm
  · -- the one page that gets a link has none yet
    rintro n m ⟨k, hk, hn⟩ hnm
    have hlink := A.keeps_links n m ⟨k, hk, hn⟩ hnm
    rcases M.links A.heap A.call with ⟨hsame, _⟩ | ⟨n', x, _, hend, _, _, hs, _⟩
    · rw [hsame n ⟨k, hk, A.onPath k hk n hn⟩]
      exact hlink
    · have hne : n ≠ n' := by
        rintro rfl
        rw [hlink] at hend
        cases hend
      rw [hs, Function.update_of_ne hne]
      exact hlink
  · rcases W.onPath_back k hk m hm with hm | ⟨hf, _⟩
    · exact A.joined k hk m hm
    · exact Or.inr (A.fresh m hf).2

theorem alone_begin (H : HeapState evicts pins pending heads b) (hh : heads h)
    (tuple : List UInt8) :
    Alone evicts heads pins pending h tuple b b (begin_insert (some h) tuple) := by
  have hpins : (fun m => pins m + (begin_insert (some h) tuple).pins m) = pins := by
    funext m
    rw [pins_begin, Nat.add_zero]
  have hpends : (fun m => pending m ∨ (begin_insert (some h) tuple).pending m) = pending := by
    funext m
    simp [pending_begin]
  have hpc := begin_insert_pc (some h) tuple
  refine ⟨?_, callInv_begin H.forest hh tuple, ?_, rfl, rfl,
    fun m hm => absurd hm (fresh_begin _ _ m), ?_, by simp [begin_insert], ?_, fun _ => rfl, ?_,
    rfl, Nat.le_refl _, fun _ => id, fun _ _ _ => id, fun _ _ _ => id, fun _ _ hf _ => hf,
    fun _ _ _ => Or.inl⟩
  · rw [hpins, hpends]
    exact H
  · rcases hpc with ⟨hpc, _⟩ | ⟨hpc, _⟩ <;> simp [Ahead, hpc, Pc.target]
  · rcases hpc with ⟨hpc, _⟩ | ⟨hpc, _⟩ <;> simp [hpc, Pc.extends]
  · rcases hpc with ⟨hpc, _⟩ | ⟨hpc, _⟩ <;> rw [hpc] <;> rfl
  · intro r hr
    rcases hpc with ⟨hpc, _⟩ | ⟨hpc, hsize⟩
    · rw [hpc] at hr
      cases hr
    · rw [hpc] at hr
      obtain rfl := Option.some.inj hr
      exact .refused (by simp) rfl (by omega)

/-- The pool and its heaps after a call, for everybody who has pages pinned. -/
structure Ran (evicts : Prop) (heads : Nat → Prop) (pins : Nat → Nat) (pending : Nat → Prop)
    (b b' : BufferPoolManager) : Prop where
  heap : HeapState evicts pins pending heads b'
  capacity : b'.pool_capacity = b.pool_capacity
  disk : b.disk_manager.capacity ≤ b'.disk_manager.capacity
  allocated : ∀ m, Allocated b.disk_manager m → Allocated b'.disk_manager m
  onPath : ∀ k, heads k → ∀ m, OnPath (succ b) k m → OnPath (succ b') k m
  links : ∀ n m, OnChain (succ b) heads n → succ b n = some m → succ b' n = some m
  pinned : ∀ n f, b.page_table (some n) = some f → 0 < pins n → b'.page_table (some n) = some f
  joined : ∀ k, heads k → ∀ m, OnPath (succ b') k m →
    OnPath (succ b) k m ∨ ¬ Allocated b.disk_manager m

theorem ran_refl (H : HeapState evicts pins pending heads b) : Ran evicts heads pins pending b b :=
  ⟨H, rfl, Nat.le_refl _, fun _ => id, fun _ _ _ => id, fun _ _ _ => id, fun _ _ hf _ => hf,
    fun _ _ _ => Or.inl⟩

theorem Ran.onChain {b' : BufferPoolManager} (R : Ran evicts heads pins pending b b') {n : Nat}
    (h : OnChain (succ b) heads n) : OnChain (succ b') heads n := by
  obtain ⟨k, hk, hn⟩ := h
  exact ⟨k, hk, R.onPath k hk n hn⟩

theorem Alone.done (A : Alone evicts heads pins pending h tuple b0 b c)
    {r : Except String (Option RID)} (hpc : c.pc = .done r) :
    Ran evicts heads pins pending b0 b ∧ Inserted heads pins h tuple b0 b r := by
  have H := A.heap
  rw [pins_idle (by rw [hpc]; rfl) (by rw [hpc]; rfl),
    pends_none (by rw [hpc]; rfl) (by rw [hpc]; rfl)] at H
  exact ⟨⟨H, A.capacity, A.disk, A.allocated, A.onPath, A.keeps_links, A.pinned, A.joined⟩,
    A.result r (by rw [hpc]; rfl)⟩

/-- The disk never gets smaller, and `new_page` is what makes it larger. -/
theorem capacity_insert_step {b' : BufferPoolManager} {c' : InsertCall}
    (hstep : insert_step b c = some (b', c')) :
    b.disk_manager.capacity ≤ b'.disk_manager.capacity ∧
      ∀ page, c.pc = .create page →
        b.allocate_page.2.disk_manager.capacity ≤ b'.disk_manager.capacity := by
  unfold insert_step at hstep
  rcases hpc : c.pc with _ | page | page | ⟨page, g⟩ | ⟨page, g⟩ | ⟨page, g⟩ | ⟨page, g, q⟩ |
    ⟨page, p, q⟩ | ⟨page, dirty, after⟩ | r
  all_goals rw [hpc] at hstep; simp only at hstep
  · have hc := capacity_fetch_page b c.page_id
    generalize b.fetch_page c.page_id = s at *
    obtain ⟨_ | _ | _, b1⟩ := s
    all_goals
      cases hstep
      exact ⟨Nat.le_of_eq hc.symm, by simp⟩
  · generalize try_insert (b.frames page).data c.tuple_data = s at hstep
    obtain ⟨_ | slot, d⟩ := s
    · simp only at hstep
      split at hstep
      · split at hstep
        all_goals
          cases hstep
          exact ⟨Nat.le_refl _, by simp⟩
      · cases hstep
        exact ⟨Nat.le_refl _, by simp⟩
    · cases hstep
      exact ⟨Nat.le_refl _, by simp⟩
  · have hc := capacity_new_page b
    have hle := capacity_allocate_page b
    generalize b.new_page = s at *
    obtain ⟨_ | _ | _, b1⟩ := s
    all_goals
      cases hstep
      exact ⟨Nat.le_trans hle (Nat.le_of_eq hc.symm), fun _ _ => Nat.le_of_eq hc.symm⟩
  · cases hstep
    exact ⟨Nat.le_refl _, by simp⟩
  · cases hstep
    rw [capacity_unpin_page]
    exact ⟨Nat.le_refl _, by simp⟩
  · split at hstep
    all_goals
      cases hstep
      exact ⟨Nat.le_refl _, by simp⟩
  · cases hstep
    exact ⟨Nat.le_refl _, by simp⟩
  · have hc := capacity_delete_page b p
    generalize b.delete_page p = s at *
    obtain ⟨_ | _, b1⟩ := s
    all_goals
      cases hstep
      exact ⟨Nat.le_of_eq hc.symm, by simp⟩
  · have hc := capacity_unpin_page b (b.frames page).page_id dirty
    split at hstep
    all_goals
      cases hstep
      rw [hc]
      exact ⟨Nat.le_refl _, by simp⟩
  · cases hstep

theorem capacity_run_insert {fuel : Nat} {r : Except String (Option RID)}
    {bf : BufferPoolManager} (hr : run_insert fuel b c = some (r, bf)) :
    b.disk_manager.capacity ≤ bf.disk_manager.capacity := by
  induction fuel generalizing b c with
  | zero => cases hr
  | succ fuel ih =>
    unfold run_insert at hr
    split at hr
    · cases hr
      exact Nat.le_refl _
    · obtain ⟨⟨b', c'⟩, hstep, hr⟩ := Option.bind_eq_some_iff.mp hr
      exact Nat.le_trans (capacity_insert_step hstep).1 (ih hr)

/-- A call that runs alone and returns. When the pool never evicts, it has to have a frame for
every page that is on the disk in the end. -/
theorem Alone.run {fuel : Nat} {r : Except String (Option RID)} {bf : BufferPoolManager}
    (A : Alone evicts heads pins pending h tuple b0 b c) (hpends : ∀ m, pending m → 0 < pins m)
    (hr : run_insert fuel b c = some (r, bf))
    (hroom : ¬ evicts → bf.disk_manager.capacity ≤ b.pool_capacity) :
    Ran evicts heads pins pending b0 bf ∧ Inserted heads pins h tuple b0 bf r := by
  induction fuel generalizing b c with
  | zero => cases hr
  | succ fuel ih =>
    unfold run_insert at hr
    split at hr
    · rename_i r' hpc
      cases hr
      exact A.done hpc
    · rename_i hnot
      have hrun : c.pc.running = true := by
        rcases hpc : c.pc with _ | _ | _ | _ | _ | _ | _ | _ | _ | r'
        all_goals first | rfl | exact absurd hpc (hnot r')
      obtain ⟨⟨b', c'⟩, hstep, hr⟩ := Option.bind_eq_some_iff.mp hr
      obtain ⟨b1, c1, hstep', A', _⟩ := A.step hpends hrun fun he page hpc =>
        Nat.le_trans ((capacity_insert_step hstep).2 page hpc)
          (Nat.le_trans (capacity_run_insert hr) (hroom he))
      rw [hstep] at hstep'
      cases hstep'
      refine ih A' hr ?_
      rw [A'.capacity, ← A.capacity]
      exact hroom

/-- In a pool that evicts, a call that runs alone returns. -/
theorem Alone.returns {fuel : Nat} (A : Alone evicts heads pins pending h tuple b0 b c)
    (he : evicts) (hpends : ∀ m, pending m → 0 < pins m) (hfuel : c.steps b c.links < fuel) :
    ∃ r bf, run_insert fuel b c = some (r, bf) := by
  induction fuel generalizing b c with
  | zero => omega
  | succ fuel ih =>
    unfold run_insert
    split
    · rename_i r hpc
      exact ⟨r, b, rfl⟩
    · rename_i hnot
      have hrun : c.pc.running = true := by
        rcases hpc : c.pc with _ | _ | _ | _ | _ | _ | _ | _ | _ | r'
        all_goals first | rfl | exact absurd hpc (hnot r')
      obtain ⟨b', c', hstep, A', hlt⟩ := A.step hpends hrun fun h => absurd he h
      rw [hstep]
      exact ih A' (Nat.lt_of_lt_of_le hlt (Nat.le_of_lt_succ hfuel))

/-- The fuel of `insert_tuple` is enough. -/
theorem steps_begin (H : HeapState evicts pins pending heads b) (hh : heads h)
    (tuple : List UInt8) :
    (begin_insert (some h) tuple).steps b (begin_insert (some h) tuple).links <
      8 * (b.disk_manager.capacity + 2) := by
  obtain ⟨l, hl⟩ := H.forest.ends h hh
  have hlen := H.length_le ⟨h, hh, l, hl, hl.head_mem⟩ hl
  have hid : (begin_insert (some h) tuple).page_id = some h := rfl
  have hnew : (begin_insert (some h) tuple).created_new_page = false := rfl
  unfold InsertCall.steps InsertCall.stage InsertCall.links
  rw [hid, hl.pathLength_eq]
  rcases begin_insert_pc (some h) tuple with ⟨hpc, _⟩ | ⟨hpc, _⟩
  · simp only [hpc, hnew, Pc.running, if_true, Bool.false_eq_true, if_false]
    omega
  · simp only [hpc, Pc.running, Bool.false_eq_true, if_false]
    omega

/-- What `insert_tuple` does, when it returns. -/
theorem HeapState.insert_tuple (H : HeapState evicts pins pending heads b) (hh : heads h)
    {r : Except String (Option RID)} {b' : BufferPoolManager}
    (hr : insert_tuple b (some h) tuple = some (r, b'))
    (hroom : ¬ evicts → b'.disk_manager.capacity ≤ b.pool_capacity) :
    Ran evicts heads pins pending b b' ∧ Inserted heads pins h tuple b b' r :=
  (alone_begin H hh tuple).run H.store.held hr hroom

theorem HeapState.insert_tuple_returns (H : HeapState evicts pins pending heads b) (hh : heads h)
    (he : evicts) (tuple : List UInt8) :
    ∃ r b', table_heap.insert_tuple b (some h) tuple = some (r, b') :=
  (alone_begin H hh tuple).returns he H.store.held (steps_begin H hh tuple)

end

end duck.table_heap
