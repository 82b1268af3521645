-- Heaps that go away: the walk over all the pages of a chain, and the pages
-- that are given back once their chain is none of the heaps any more.
import DuckDbms.Catalog

open duck.slotted_page duck.disk_manager duck.buffer_pool chain

namespace duck.table_heap

section
variable {evicts : Prop} {heads heads' : Nat → Prop} {pins : Nat → Nat} {pending : Nat → Prop}
  {b b' : BufferPoolManager} {n : Nat}

/-! ## Some of the heaps -/

theorem HeapState.sub (H : HeapState evicts pins pending heads b)
    (h : ∀ k, heads' k → heads k) : HeapState evicts pins pending heads' b where
  store := H.store
  forest := H.forest.sub h
  pages n hn := H.pages n (by
    obtain ⟨k, hk, hp⟩ := hn
    exact ⟨k, h k hk, hp⟩)
  metadata := H.metadata

/-! ## Calls that only look -/

/-- A call that left the pages as they were, and their ids. -/
structure Looked (evicts : Prop) (heads : Nat → Prop) (pins : Nat → Nat) (pending : Nat → Prop)
    (b b' : BufferPoolManager) : Prop where
  heap : HeapState evicts pins pending heads b'
  same : contents b' = contents b
  disk : b'.disk_manager.capacity = b.disk_manager.capacity ∧
    b'.disk_manager.free_list = b.disk_manager.free_list
  frames : b'.pool_capacity = b.pool_capacity

theorem looked_refl (H : HeapState evicts pins pending heads b) :
    Looked evicts heads pins pending b b := ⟨H, rfl, ⟨rfl, rfl⟩, rfl⟩

theorem Looked.trans {b1 b2 : BufferPoolManager} (L : Looked evicts heads pins pending b b1)
    (L' : Looked evicts heads pins pending b1 b2) : Looked evicts heads pins pending b b2 :=
  ⟨L'.heap, L'.same.trans L.same, ⟨L'.disk.1.trans L.disk.1, L'.disk.2.trans L.disk.2⟩,
    L'.frames.trans L.frames⟩

theorem Looked.onPath (L : Looked evicts heads pins pending b b') {h m : Nat} :
    OnPath (succ b') h m ↔ OnPath (succ b) h m := by
  rw [succ_congr L.same]

theorem Looked.rows (L : Looked evicts heads pins pending b b') :
    rows heads b' = rows heads b := by
  funext m
  unfold table_heap.rows
  rw [succ_congr L.same, L.same]

/-- The pool and its heaps stay sound when a call only looked. -/
theorem HeapState.looked (H : HeapState evicts pins pending heads b)
    (S : Store evicts pins pending b') (hc : contents b' = contents b)
    (hd : b'.disk_manager.capacity = b.disk_manager.capacity ∧
      b'.disk_manager.free_list = b.disk_manager.free_list)
    (hk : b'.pool_capacity = b.pool_capacity) : Looked evicts heads pins pending b b' := by
  exact ⟨H.same_contents S hc (allocated_congr hd), hc, hd, hk⟩

/-- A section that reads a page and leaves it as it is. -/
theorem HeapState.look {α : Type} (H : HeapState evicts pins pending heads b)
    (ha : Allocated b.disk_manager n) (f : PageData → α) :
    (∃ d b', table_heap.with_page b (some n) (fun page => (f page.data, page.data, false)) =
        (.ok (some (f d)), b') ∧ meaning d = contents b n ∧
      Looked evicts heads pins pending b b') ∨
    (table_heap.with_page b (some n) (fun page => (f page.data, page.data, false)) =
      (.ok none, b) ∧ AllPinned b) := by
  unfold table_heap.with_page
  rcases H.store.fetch_page ha with ⟨g, b1, hf, B, hc1⟩ | ⟨hf, hall⟩
  swap
  · rw [hf]
    exact Or.inr ⟨rfl, hall⟩
  left
  rw [hf]
  simp only
  have hsame : b1.set_data g (b1.frames g).data = b1 := by
    unfold BufferPoolManager.set_data BufferPoolManager.set_frame
    rw [Function.update_eq_self]
  have hid : (b1.frames g).page_id = some n := (B.store.inv.holds n g).mp B.table
  have hm : meaning (b1.frames g).data = contents b n := by
    rw [← hc1]
    unfold contents
    rw [view_cached B.table]
  rw [hsame, hid]
  have hpos : 0 < pinMore pins n n := by
    rw [pinMore_apply, if_pos rfl]
    omega
  obtain ⟨S, hc, _, hd, hk⟩ := B.store.unpin_page pending hpos false (fun m => id)
    (fun m hm => Or.inl hm) fun hp => by
      have := H.store.held n hp
      rw [pinMore_apply, if_pos rfl]
      omega
  rw [pinLess_pinMore] at S
  refine ⟨_, _, rfl, hm, H.looked S (hc.trans hc1) ?_ (hk.trans B.capacity)⟩
  rw [hd]
  exact B.disk

/-- The walk comes to the end of its chain, unless no frame is left for a page. -/
theorem HeapState.all_pages_from (H : HeapState evicts pins pending heads b) {l : List Nat}
    (hl : Path (succ b) (some n) l) (hn : OnChain (succ b) heads n) {fuel : Nat}
    (hfuel : l.length ≤ fuel) (result : List PageID) :
    ∃ b', Looked evicts heads pins pending b b' ∧
      (all_pages_from fuel b (some n) result =
          some (.ok (result ++ l.map some, .SUCCESS), b') ∨
        (∃ found, all_pages_from fuel b (some n) result = some (.ok (found, .FAILED), b')) ∧
          AllPinned b') := by
  induction fuel generalizing b n l result with
  | zero =>
    have := List.length_pos_of_mem hl.head_mem
    omega
  | succ fuel ih =>
    unfold table_heap.all_pages_from
    rcases H.look (H.pages n hn).2 slotted_page.next_page with ⟨d, b1, h1, hm, L⟩ | ⟨h1, hall⟩
    swap
    · rw [h1]
      exact ⟨b, looked_refl H, Or.inr ⟨⟨_, rfl⟩, hall⟩⟩
    rw [h1]
    simp only
    have hnext : slotted_page.next_page d = succ b n := congrArg Meaning.next hm
    rw [hnext]
    cases hl with
    | @cons _ l hl =>
      rcases hs : succ b n with _ | m
      · rw [hs] at hl
        cases hl
        exact ⟨b1, L, Or.inl rfl⟩
      · rw [if_neg (by simp [INVALID_PAGE_ID])]
        rw [hs, ← succ_congr L.same] at hl
        have hon : OnChain (succ b1) heads m := by
          obtain ⟨h, hh, hp⟩ := hn
          exact ⟨h, hh, L.onPath.mpr (hp.follow hs)⟩
        obtain ⟨b2, L', hr⟩ := ih L.heap hl hon (Nat.le_of_succ_le_succ hfuel)
          (result ++ [some n])
        refine ⟨b2, L.trans L', ?_⟩
        rw [List.append_assoc] at hr
        exact hr

theorem HeapState.all_pages (H : HeapState evicts pins pending heads b) {h : Nat} (hh : heads h)
    {l : List Nat} (hl : Path (succ b) (some h) l) :
    ∃ b', Looked evicts heads pins pending b b' ∧
      (table_heap.all_pages b (some h) = some (.ok (l.map some, .SUCCESS), b') ∨
        (∃ found, table_heap.all_pages b (some h) = some (.ok (found, .FAILED), b')) ∧
          AllPinned b') := by
  have hon : OnChain (succ b) heads h := ⟨h, hh, l, hl, hl.head_mem⟩
  have hlen := H.length_le hon hl
  exact H.all_pages_from hl hon (Nat.le_succ_of_le hlen) []

/-! ## Pages that are given back -/

theorem allocated_returned {d : DiskManager} {m : Nat} (hm : m ≠ n) :
    Allocated (returned d n) m ↔ Allocated d m := by
  obtain ⟨h1, _, h2⟩ := returned_capacity d n
  unfold Allocated
  rw [h1]
  rcases h2 with h2 | h2 <;> rw [h2]
  rw [List.mem_cons]
  have : (some m : PageID) ≠ some n := by simpa using hm
  simp [this]

/-- A page that is on no chain is given back, unless somebody has it pinned. The heaps do not
change. -/
theorem HeapState.delete_page (H : HeapState evicts pins pending heads b) (h0 : n ≠ 0)
    (ha : Allocated b.disk_manager n) (hoff : ¬ OnChain (succ b) heads n) :
    ∃ dropped b', b.delete_page (some n) = (.ok dropped, b') ∧
      HeapState evicts pins pending heads b' ∧ (∀ m, m ≠ n → contents b' m = contents b m) ∧
      (∀ m, m ≠ n → Allocated b.disk_manager m → Allocated b'.disk_manager m) ∧
      b'.pool_capacity = b.pool_capacity ∧
      b'.disk_manager.capacity = b.disk_manager.capacity ∧
      (pins n = 0 → dropped = true ∧ b'.disk_manager = returned b.disk_manager n) := by
  rcases Nat.eq_zero_or_pos (pins n) with hpin | hpin
  · obtain ⟨b', hdel, S, hc, _, hd, hk⟩ := H.store.delete_page h0 ha hpin
    have hkeep : ∀ m, m ≠ n → Allocated b.disk_manager m → Allocated b'.disk_manager m := by
      intro m hm h
      rw [hd]
      exact (allocated_returned hm).mpr h
    refine ⟨true, b', hdel, (H.keep S (fun m hm => ?_) fun m hm => ?_).1, hc, hkeep, hk, ?_,
      fun _ => ⟨rfl, hd⟩⟩
    · have hne : m ≠ n := fun he => hoff (he ▸ hm)
      rw [hc m hne]
      exact ⟨rfl, (H.pages m hm).1⟩
    · rcases hm with hm | rfl
      · exact hkeep m (fun he => hoff (he ▸ hm)) (H.pages m hm).2
      · exact hkeep 0 (Ne.symm h0) H.metadata
    · rw [hd]
      exact (returned_capacity b.disk_manager n).1
  · have hcached : ∃ f, b.page_table (some n) = some f := by
      rcases hc : b.page_table (some n) with _ | f
      · have := H.store.inv.absent n hc
        omega
      · exact ⟨f, rfl⟩
    obtain ⟨f, hf⟩ := hcached
    have hcount := H.store.inv.pin_count_eq hf
    refine ⟨false, b, ?_, H, fun _ _ => rfl, fun _ _ => id, rfl, rfl, fun h => by omega⟩
    unfold BufferPoolManager.delete_page
    rw [hf]
    simp only
    rw [if_pos (by omega)]

/-- What the loop of `drop_pages` leaves of the other pages. -/
structure Dropped (evicts : Prop) (heads : Nat → Prop) (pins : Nat → Nat) (pending : Nat → Prop)
    (l : List Nat) (b b' : BufferPoolManager) : Prop where
  heap : HeapState evicts pins pending heads b'
  same : ∀ m, m ∉ l → contents b' m = contents b m
  allocated : ∀ m, m ∉ l → Allocated b.disk_manager m → Allocated b'.disk_manager m
  frames : b'.pool_capacity = b.pool_capacity
  disk : b'.disk_manager.capacity = b.disk_manager.capacity

theorem HeapState.drop_all (H : HeapState evicts pins pending heads b) {l : List Nat}
    (hnd : l.Nodup) (hl : ∀ n ∈ l, n ≠ 0 ∧ Allocated b.disk_manager n ∧ ¬ OnChain (succ b) heads n)
    (failed : Nat) :
    ∃ failed' b', table.drop_all b failed (l.map some) = (.ok failed', b') ∧
      Dropped evicts heads pins pending l b b' := by
  induction l generalizing b failed with
  | nil => exact ⟨failed, b, rfl, ⟨H, fun _ _ => rfl, fun _ _ => id, rfl, rfl⟩⟩
  | cons n l ih =>
    obtain ⟨hn, hnd⟩ := List.nodup_cons.mp hnd
    obtain ⟨h0, ha, hoff⟩ := hl n (by simp)
    obtain ⟨dropped, b1, hdel, H1, hc, hal, hk, hd, _⟩ := H.delete_page h0 ha hoff
    -- the links of the chains are those of pages that stay
    have hchain : ∀ m, OnChain (succ b1) heads m ↔ OnChain (succ b) heads m := by
      obtain ⟨_, hp⟩ := H.forest.congr (f := succ b1) fun m hm => by
        unfold succ
        rw [hc m fun he => hoff (he ▸ hm)]
      intro m
      exact ⟨fun ⟨k, hk, h⟩ => ⟨k, hk, (hp k hk m).mp h⟩, fun ⟨k, hk, h⟩ => ⟨k, hk, (hp k hk m).mpr h⟩⟩
    have hrest : ∀ m ∈ l, m ≠ 0 ∧ Allocated b1.disk_manager m ∧ ¬ OnChain (succ b1) heads m := by
      intro m hm
      obtain ⟨k0, ka, koff⟩ := hl m (by simp [hm])
      have hne : m ≠ n := fun he => hn (he ▸ hm)
      exact ⟨k0, hal m hne ka, fun h => koff ((hchain m).mp h)⟩
    obtain ⟨failed', b', hall, D⟩ := ih H1 hnd hrest (if dropped then failed else failed + 1)
    refine ⟨failed', b', ?_, D.heap, fun m hm => ?_, fun m hm h => ?_, D.frames.trans hk,
      D.disk.trans hd⟩
    · rw [List.map_cons]
      unfold table.drop_all table_heap.drop_page
      rw [hdel]
      exact hall
    · rw [List.mem_cons, not_or] at hm
      rw [D.same m hm.2, hc m hm.1]
    · rw [List.mem_cons, not_or] at hm
      exact D.allocated m hm.2 (hal m hm.1 h)

/-! ## A heap that is dropped -/

/-- The loop of `drop_pages` over the chain of one of the heaps. It is none of the heaps any
more, and the others stay as they were. -/
theorem HeapState.drop_chain (H : HeapState evicts pins pending heads b)
    {h : Nat} (hh : heads h) (hzero : ¬ OnPath (succ b) h 0)
    (hsub : ∀ k, heads' k → heads k ∧ k ≠ h) {l : List Nat} (hl : Path (succ b) (some h) l) :
    ∃ failed b', table.drop_all b 0 (l.map some) = (.ok failed, b') ∧
      Dropped evicts heads' pins pending l b b' := by
  have hpages : ∀ n ∈ l, n ≠ 0 ∧ Allocated b.disk_manager n ∧ ¬ OnChain (succ b) heads' n := by
    intro n hn
    have hpath : OnPath (succ b) h n := ⟨l, hl, hn⟩
    refine ⟨?_, (H.pages n ⟨h, hh, hpath⟩).2, ?_⟩
    · rintro rfl
      exact hzero hpath
    · rintro ⟨k, hk, hp⟩
      obtain ⟨hk, hne⟩ := hsub k hk
      exact hne (H.forest.unique hk hh hp hpath)
  exact (H.sub fun k hk => (hsub k hk).1).drop_all hl.nodup hpages 0

/-- `drop_pages` of one of the heaps: all of its chain is dropped, or no frame was left for one
of its pages, and nothing has changed. -/
theorem HeapState.drop_pages (H : HeapState evicts pins pending heads b)
    {h : Nat} (hh : heads h) (hzero : ¬ OnPath (succ b) h 0)
    (hsub : ∀ k, heads' k → heads k ∧ k ≠ h) {l : List Nat} (hl : Path (succ b) (some h) l) :
    (∃ failed b', table.drop_pages b (some h) = some (.ok (failed, .SUCCESS), b') ∧
      Dropped evicts heads' pins pending l b b') ∨
    (∃ b', table.drop_pages b (some h) = some (.ok (0, .READ_PAGES_FAILED), b') ∧
      Looked evicts heads pins pending b b' ∧ AllPinned b') := by
  obtain ⟨b1, L, hall | ⟨⟨found, hall⟩, hpinned⟩⟩ := H.all_pages hh hl
  swap
  · right
    unfold table.drop_pages
    rw [hall]
    exact ⟨b1, rfl, L, hpinned⟩
  left
  rw [← succ_congr L.same] at hl
  obtain ⟨failed, b2, hdrop, D⟩ := L.heap.drop_chain hh (mt L.onPath.mp hzero) hsub hl
  unfold table.drop_pages
  rw [hall]
  refine ⟨failed, b2, ?_, D.heap, fun m hm => ?_, fun m hm ha => ?_, D.frames.trans L.frames,
    D.disk.trans L.disk.1⟩
  · simp only [Option.map_some]
    rw [hdrop]
    rfl
  · rw [D.same m hm, L.same]
  · exact D.allocated m hm (allocated_congr L.disk m ha)

end

end duck.table_heap
