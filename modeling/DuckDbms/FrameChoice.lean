-- Which frame a page is brought into: one that a delete has freed, or else one
-- that was never used, or else that of the unpinned page used longest ago.
import DuckDbms.PoolOrder
import DuckDbms.Lib.Recency

open machine recency duck.slotted_page duck.disk_manager

namespace duck.buffer_pool

open BufferPoolManager

/-! ## What an observer writes down -/

/-- The pool with its callers, and what an observer of the calls knows: when each page was last
returned by `new_page` or `fetch_page`, which frames were freed by `delete_page` and not returned
since, and which frames were ever returned. -/
structure FrameUse where
  store : FlatStore
  clock : Nat
  last : PageID → Nat
  freed : FrameID → Bool
  used : FrameID → Bool

/-- The frame that a call returned, and the page in it. -/
def frame_of : Except String (Option FrameID) × BufferPoolManager → Option (FrameID × PageID)
  | (.ok (some f), b) => some (f, (b.frames f).page_id)
  | _ => none

def gives (b : BufferPoolManager) : PoolCall → Option (FrameID × PageID)
  | .new_page => frame_of b.new_page
  | .fetch_page n => frame_of (b.fetch_page (some n))
  | _ => none

/-- The frame out of which a call took its page for good. -/
def frees (b : BufferPoolManager) : PoolCall → Option FrameID
  | .delete_page n =>
    if (b.delete_page (some n)).2.page_table (some n) = none then b.page_table (some n) else none
  | _ => none

namespace FrameUse

variable (s : FrameUse)

/-- Frame `f` was returned with page `p` in it. -/
def took (store : FlatStore) (f : FrameID) (p : PageID) : FrameUse :=
  { store
    clock := s.clock + 1
    last := Function.update s.last p s.clock
    freed := Function.update s.freed f false
    used := Function.update s.used f true }

/-- Frame `f` was freed. -/
def emptied (store : FlatStore) (f : FrameID) : FrameUse :=
  { s with store, clock := s.clock + 1, freed := Function.update s.freed f true }

def next (call : PoolCall) : Option FrameUse :=
  (s.store.next call).map fun store =>
    match gives s.store.pool call, frees s.store.pool call with
    | some (f, p), _ => s.took store f p
    | none, some f => s.emptied store f
    | none, none => { s with store, clock := s.clock + 1 }

end FrameUse

/-- An empty pool of any capacity, over a disk that works. -/
def frameMachine : Machine FrameUse PoolCall where
  start s := ∃ store, flatMachine.start store ∧
    s = ⟨store, 0, fun _ => 0, fun _ => false, fun _ => false⟩
  next := FrameUse.next

/-- Callers fetch allocated pages, unpin what they pinned, and delete allocated pages, and ids and
pins fit into their words. -/
def CallersMatch (s : FrameUse) (call : PoolCall) : Prop :=
  CallersMatchPins s.store call ∧ DeletesAllocated s.store call ∧ FitsWords s.store call

/-! ## The lists of the pool -/

section
variable {b : BufferPoolManager}

/-- The lists of free frames and of frames in use, after the next frame was taken. -/
theorem find_next_frame_lists {f : FrameID} (h : b.find_next_frame.1 = some f) :
    b.find_next_frame.2.frames = b.frames ∧ b.find_next_frame.2.mru_pages = b.mru_pages ∧
    (b.free_frames_list = f :: b.find_next_frame.2.free_frames_list ∧
        b.find_next_frame.2.pool_size = b.pool_size ∨
      b.free_frames_list = [] ∧ b.find_next_frame.2.free_frames_list = [] ∧
        b.pool_size < b.pool_capacity ∧ f = b.pool_size ∧
        b.find_next_frame.2.pool_size = b.pool_size + 1 ∨
      b.free_frames_list = [] ∧ b.find_next_frame.2.free_frames_list = [] ∧
        b.pool_capacity ≤ b.pool_size ∧ b.find_next_frame.2.pool_size = b.pool_size ∧
        ∃ v, b.find_lru = some v ∧ b.page_table (some v) = some f) := by
  unfold BufferPoolManager.find_next_frame at h ⊢
  split at h
  · rename_i g rest hfree
    cases h
    rw [hfree]
    exact ⟨rfl, rfl, Or.inl ⟨rfl, rfl⟩⟩
  · rename_i hfree
    rw [hfree]
    split at h
    · rename_i hlt
      cases h
      rw [if_pos hlt]
      exact ⟨rfl, rfl, Or.inr (Or.inl ⟨rfl, rfl, hlt, rfl, rfl⟩)⟩
    · rename_i hfull
      rw [if_neg hfull]
      split at h
      · rename_i hlru
        obtain ⟨v, hv⟩ := Option.ne_none_iff_exists'.mp hlru
        rw [if_pos hlru]
        simp only [hv] at h
        exact ⟨rfl, rfl, Or.inr (Or.inr ⟨rfl, hfree, Nat.not_lt.mp hfull, rfl, v, hv, h⟩)⟩
      · cases h

theorem evict_lists (b : BufferPoolManager) (f : FrameID) :
    (b.evict f).2.free_frames_list = b.free_frames_list ∧ (b.evict f).2.pool_size = b.pool_size ∧
    (b.evict f).2.mru_pages = if (b.frames f).page_id ≠ INVALID_PAGE_ID then
      forget b.mru_pages (b.frames f).page_id else b.mru_pages := by
  have hflush : ∀ b1 b2 : BufferPoolManager, ∀ page, b1.flush_page page = .ok b2 →
      b2.free_frames_list = b1.free_frames_list ∧ b2.pool_size = b1.pool_size ∧
      b2.mru_pages = b1.mru_pages := by
    intro b1 b2 page h
    unfold BufferPoolManager.flush_page at h
    obtain ⟨d, _, rfl⟩ : ∃ d, b1.disk_manager.write_page page.page_id page.data = .ok d ∧
        { b1 with disk_manager := d } = b2 := by
      rcases hw : b1.disk_manager.write_page page.page_id page.data with e | d
      · rw [hw] at h
        cases h
      · rw [hw] at h
        cases h
        exact ⟨d, rfl, rfl⟩
    exact ⟨rfl, rfl, rfl⟩
  unfold BufferPoolManager.evict
  simp only
  generalize hb1 : (if (b.frames f).page_id ≠ INVALID_PAGE_ID then
    (b.erase (b.frames f).page_id).remove (b.frames f).page_id else b) = b1
  have h1 : b1.free_frames_list = b.free_frames_list ∧ b1.pool_size = b.pool_size ∧
      b1.mru_pages = if (b.frames f).page_id ≠ INVALID_PAGE_ID then
        forget b.mru_pages (b.frames f).page_id else b.mru_pages := by
    rw [← hb1]
    split <;> exact ⟨rfl, rfl, rfl⟩
  split
  · split
    · exact h1
    · rename_i b2 hb2
      obtain ⟨e1, e2, e3⟩ := hflush b1 b2 _ hb2
      rw [e1, e2, e3]
      exact h1
  · exact h1

/-- A page that was brought in is the last one used, and the page that left is forgotten. -/
theorem swap_page_lists {b' : BufferPoolManager} {p : PageID} {rd : Bool} {f : FrameID}
    (h : b.swap_page p rd = (.ok (some f), b')) : b.find_next_frame.1 = some f ∧
    b'.free_frames_list = b.find_next_frame.2.free_frames_list ∧
    b'.pool_size = b.find_next_frame.2.pool_size ∧
    b'.mru_pages = touch (if (b.frames f).page_id ≠ INVALID_PAGE_ID then
      forget b.mru_pages (b.frames f).page_id else b.mru_pages) p := by
  unfold BufferPoolManager.swap_page at h
  rcases hnext : b.find_next_frame with ⟨_ | g, b0⟩
  · rw [hnext] at h
    cases h
  rw [hnext] at h
  simp only at h
  have hev := evict_lists b0 g
  have hf : b.find_next_frame.1 = some g := by rw [hnext]
  obtain ⟨hframes, hmru, _⟩ := find_next_frame_lists hf
  rw [hnext] at hframes hmru
  simp only at hframes hmru
  rcases he : b0.evict g with ⟨e | _, b1⟩
  · rw [he] at h
    cases h
  rw [he] at h hev
  simp only at h hev
  obtain ⟨e1, e2, e3⟩ := hev
  rw [hframes, hmru] at e3
  have hlists : g = f ∧ b'.free_frames_list = b1.free_frames_list ∧ b'.pool_size = b1.pool_size ∧
      b'.mru_pages = touch b1.mru_pages p := by
    split at h
    · split at h
      · cases h
      · cases h
        exact ⟨rfl, rfl, rfl, rfl⟩
    · cases h
      exact ⟨rfl, rfl, rfl, rfl⟩
  obtain ⟨rfl, l1, l2, l3⟩ := hlists
  exact ⟨rfl, l1.trans e1, l2.trans e2, by rw [l3, e3]⟩

end

/-! ## The notes of the observer -/

/-- The free frames are those that were freed, the frames in use are the first ones, and the
replacer lists the cached pages in the order of their last uses. -/
structure Traced (s : FrameUse) : Prop where
  order : InOrder s.store.pool s.store.pins
  freed : ∀ f, s.freed f = true ↔ f ∈ s.store.pool.free_frames_list
  used : ∀ f : Nat, s.used f = true ↔ f < s.store.pool.pool_size
  ordered : Ordered s.last s.store.pool.mru_pages
  past : ∀ p ∈ s.store.pool.mru_pages, s.last p < s.clock

/-- The page in frame `f` is not pinned, and every other unpinned page was used after it. -/
structure OldestUnpinned (s : FrameUse) (v f : Nat) : Prop where
  page : (s.store.pool.frames f).page_id = some v
  table : s.store.pool.page_table (some v) = some f
  unpinned : (s.store.pool.frames f).pin_count = 0
  oldest : ∀ w g, s.store.pool.page_table (some w) = some g →
    (s.store.pool.frames g).pin_count = 0 → w ≠ v → s.last (some v) < s.last (some w)

/-- A freed frame comes first, then one that was never used, and then that of a victim. -/
structure Chosen (s : FrameUse) (f : Nat) : Prop where
  lt : f < s.store.pool.pool_capacity
  freed : (∃ g, s.freed g = true) → s.freed f = true
  unused : (∀ g, s.freed g = false) → (∃ g < s.store.pool.pool_capacity, s.used g = false) →
    s.used f = false
  victim : (∀ g, s.freed g = false) → (∀ g < s.store.pool.pool_capacity, s.used g = true) →
    ∃ v, OldestUnpinned s v f

def EveryFramePinned (b : BufferPoolManager) : Prop :=
  ∀ f < b.pool_capacity, 0 < (b.frames f).pin_count

section
variable {s : FrameUse}

theorem Traced.find_lru (T : Traced s) {v f : Nat} (h : s.store.pool.find_lru = some v)
    (hf : s.store.pool.page_table (some v) = some f) : OldestUnpinned s v f := by
  obtain ⟨g, hg, hpin⟩ := find_lru_some h
  obtain rfl : g = f := Option.some.inj (hg.symm.trans hf)
  refine ⟨(T.order.inv.holds v g).mp hg, hg, hpin, fun w k hk hk0 hne => ?_⟩
  have hfirst : s.store.pool.mru_pages.find? s.store.pool.evictable = some (some v) := by
    unfold BufferPoolManager.find_lru at h
    exact Option.join_eq_some_iff.mp h
  have hw : some w ∈ s.store.pool.mru_pages := (T.order.inv.mru _).mpr (by rw [hk]; rfl)
  have hev : s.store.pool.evictable (some w) = true := by
    unfold BufferPoolManager.evictable
    rw [hk]
    simpa using hk0
  exact T.ordered.find?_oldest hfirst hw hev (by simpa using hne)

/-- The frame that comes next is the one that it should be, and nobody has it pinned. -/
theorem Traced.chosen (T : Traced s) {f : Nat} (h : s.store.pool.find_next_frame.1 = some f) :
    Chosen s f ∧ (s.store.pool.frames f).pin_count = 0 := by
  have I := T.order.inv
  have hcap := I.size_le
  obtain ⟨_, _, ⟨hfree, _⟩ | ⟨hfree, _, hlt, rfl, _⟩ | ⟨hfree, _, hfull, _, v, hlru, hv⟩⟩ :=
    find_next_frame_lists h
  · -- a freed frame
    have hmem : f ∈ s.store.pool.free_frames_list := by
      rw [hfree]
      exact List.mem_cons_self
    have hf := (T.freed f).mpr hmem
    obtain ⟨hsize, hid⟩ := (I.free f).mp hmem
    refine ⟨⟨by omega, fun _ => hf, fun hno => ?_, fun hno => ?_⟩, (I.empty f hid).1⟩
    all_goals
      rw [hno f] at hf
      cases hf
  · -- a frame that was never used
    have hnone : ∀ g, s.freed g = false := by
      intro g
      have := T.freed g
      rw [hfree] at this
      simpa using this
    have hunused : s.used s.store.pool.pool_size = false := by
      rw [Bool.eq_false_iff, ne_eq, T.used]
      exact Nat.lt_irrefl _
    have hid : (s.store.pool.frames s.store.pool.pool_size).page_id = none := by
      rcases hid : (s.store.pool.frames s.store.pool.pool_size).page_id with _ | n
      · rfl
      · exact absurd (I.used n _ hid) (Nat.lt_irrefl _)
    refine ⟨⟨hlt, ?_, fun _ _ => hunused, fun _ hall => ?_⟩, (I.empty _ hid).1⟩
    · rintro ⟨g, hg⟩
      rw [hnone g] at hg
      cases hg
    · rw [hall _ hlt] at hunused
      cases hunused
  · -- the frame of a victim
    have O := T.find_lru hlru hv
    refine ⟨⟨?_, ?_, ?_, fun _ _ => ⟨v, O⟩⟩, O.unpinned⟩
    · have := I.used v f O.page
      omega
    · rintro ⟨g, hg⟩
      have hg := (T.freed g).mp hg
      rw [hfree] at hg
      cases hg
    · rintro _ ⟨g, hlt, hg⟩
      have := (T.used g).mpr (by omega)
      rw [hg] at this
      cases this

theorem everyFramePinned_of_allPinned {b : BufferPoolManager} {pins : Nat → Nat}
    (I : PoolInv b pins) (h : AllPinned b) : EveryFramePinned b := by
  obtain ⟨hfree, hsize, hall⟩ := h
  intro f hf
  rcases hid : (b.frames f).page_id with _ | n
  · have := (I.free f).mpr ⟨by omega, hid⟩
    rw [hfree] at this
    cases this
  · exact Nat.pos_of_ne_zero (hall n f ((I.holds n f).mpr hid))

theorem traced_start (h : frameMachine.start s) : Traced s := by
  obtain ⟨store, hstart, rfl⟩ := h
  have O := inOrder_start hstart
  obtain ⟨d, k, _, _, _, rfl⟩ := hstart
  refine ⟨O, fun f => ?_, fun f => ?_, List.Pairwise.nil, fun p hp => ?_⟩
  · simp [make]
  · simp [make]
  · cases hp

theorem Traced.set_disk (T : Traced s) {d : DiskManager}
    (O : InOrder { s.store.pool with disk_manager := d } s.store.pins) :
    Traced { s with store := { s.store with pool := { s.store.pool with disk_manager := d } } } :=
  ⟨O, T.freed, T.used, T.ordered, T.past⟩

/-- Nothing was returned, and no frame was freed. -/
theorem Traced.waited (T : Traced s) {store : FlatStore} (O : InOrder store.pool store.pins)
    (hfree : store.pool.free_frames_list = s.store.pool.free_frames_list)
    (hsize : store.pool.pool_size = s.store.pool.pool_size)
    (hmru : store.pool.mru_pages = s.store.pool.mru_pages) :
    Traced { s with store, clock := s.clock + 1 } := by
  refine ⟨O, fun f => ?_, fun f => ?_, ?_, fun p hp => ?_⟩
  · rw [hfree]
    exact T.freed f
  · rw [hsize]
    exact T.used f
  · rw [hmru]
    exact T.ordered
  · rw [hmru] at hp
    exact Nat.lt_succ_of_lt (T.past p hp)

/-- A frame was freed, and its page forgotten. -/
theorem Traced.gave_back (T : Traced s) {store : FlatStore} {f : Nat} {p : PageID}
    (O : InOrder store.pool store.pins)
    (hfree : store.pool.free_frames_list = f :: s.store.pool.free_frames_list)
    (hsize : store.pool.pool_size = s.store.pool.pool_size)
    (hmru : store.pool.mru_pages = forget s.store.pool.mru_pages p) : Traced (s.emptied store f) := by
  refine ⟨O, fun g => ?_, fun g => ?_, ?_, fun q hq => ?_⟩
  · show Function.update s.freed f true g = true ↔ g ∈ store.pool.free_frames_list
    rw [hfree]
    by_cases hg : g = f
    · rw [hg, Function.update_self]
      simp
    · rw [Function.update_of_ne hg, T.freed]
      simp [hg]
  · show s.used g = true ↔ g < store.pool.pool_size
    rw [hsize]
    exact T.used g
  · show Ordered s.last store.pool.mru_pages
    rw [hmru]
    exact T.ordered.forget _
  · change q ∈ store.pool.mru_pages at hq
    rw [hmru] at hq
    exact Nat.lt_succ_of_lt (T.past q (mem_forget.mp hq).1)

/-- A page in a frame was returned: it is the last one used now. `rest` are the pages that were
used before it. -/
theorem Traced.took (T : Traced s) {store : FlatStore} {f : Nat} {p : PageID} {rest : List PageID}
    (O : InOrder store.pool store.pins) (hrest : Ordered s.last rest)
    (hsub : ∀ q ∈ rest, q ∈ s.store.pool.mru_pages) (hmru : store.pool.mru_pages = touch rest p)
    (hfree : ∀ g, g ∈ store.pool.free_frames_list ↔ g ∈ s.store.pool.free_frames_list ∧ g ≠ f)
    (hsize : ∀ g : Nat, g < store.pool.pool_size ↔ g < s.store.pool.pool_size ∨ g = f) :
    Traced (s.took store f p) := by
  have hpast : ∀ q ∈ rest, s.last q < s.clock := fun q hq => T.past q (hsub q hq)
  refine ⟨O, fun g => ?_, fun g => ?_, ?_, fun q hq => ?_⟩
  · show Function.update s.freed f false g = true ↔ g ∈ store.pool.free_frames_list
    rw [hfree, ← T.freed]
    by_cases hg : g = f
    · rw [hg, Function.update_self]
      simp
    · rw [Function.update_of_ne hg]
      simp [hg]
  · show Function.update s.used f true g = true ↔ g < store.pool.pool_size
    rw [hsize, ← T.used]
    by_cases hg : g = f
    · rw [hg, Function.update_self]
      simp
    · rw [Function.update_of_ne hg]
      simp [hg]
  · change Ordered (Function.update s.last p s.clock) store.pool.mru_pages
    rw [hmru]
    exact hrest.touch p hpast
  · change q ∈ store.pool.mru_pages at hq
    rw [hmru] at hq
    exact lt_of_mem_touch hpast hq

/-- A page was brought into a frame. -/
theorem Traced.brought (T : Traced s) {store : FlatStore} {n f : Nat} {rd : Bool}
    (O : InOrder store.pool store.pins)
    (hswap : s.store.pool.swap_page (some n) rd = (.ok (some f), store.pool)) :
    Traced (s.took store f (some n)) := by
  have I := T.order.inv
  obtain ⟨hnext, hfree, hsize, hmru⟩ := swap_page_lists hswap
  obtain ⟨_, _, hlists⟩ := find_next_frame_lists hnext
  refine T.took O ?_ ?_ hmru ?_ ?_
  · split
    · exact T.ordered.forget _
    · exact T.ordered
  · intro q hq
    split at hq
    · exact (mem_forget.mp hq).1
    · exact hq
  · intro g
    rw [hfree]
    rcases hlists with ⟨h, _⟩ | ⟨h, h', _⟩ | ⟨h, h', _⟩
    · have hnd := I.free_nodup
      rw [h, List.nodup_cons] at hnd
      rw [h, List.mem_cons]
      constructor
      · exact fun hg => ⟨Or.inr hg, fun he => hnd.1 (he ▸ hg)⟩
      · exact fun hg => hg.1.resolve_left hg.2
    · rw [h, h']
      simp
    · rw [h, h']
      simp
  · intro g
    rw [hsize]
    rcases hlists with ⟨h, h'⟩ | ⟨_, _, _, rfl, h'⟩ | ⟨_, _, _, h', v, _, hv⟩
    · have hf := ((I.free f).mp (by rw [h]; exact List.mem_cons_self)).1
      rw [h']
      omega
    · rw [h']
      omega
    · have hf := I.used v f ((I.holds v f).mp hv)
      rw [h']
      omega

theorem frame_of_brought {r : Except String (Option FrameID) × BufferPoolManager} {f : FrameID}
    {b : BufferPoolManager} (h : r = (.ok (some f), b)) : frame_of r = some (f, (b.frames f).page_id) := by
  rw [h]
  rfl

theorem Traced.new_page (T : Traced s) {t : FrameUse} (h : s.next .new_page = some t) : Traced t := by
  obtain ⟨store, hstore, rfl⟩ := Option.map_eq_some_iff.mp h
  obtain ⟨n, hid, hu, hlt, O1, hnew⟩ := T.order.new_page
  have T1 := T.set_disk O1
  rcases hnew with ⟨f, b', hnew, W, O'⟩ | ⟨hnew, _⟩
  · have hgives : gives s.store.pool .new_page = some (f, some n) := by
      rw [← W.page_id]
      exact frame_of_brought hnew
    rw [FlatStore.next_new_page hnew W.page_id] at hstore
    cases hstore
    rw [hgives]
    have hswap : s.store.pool.allocate_page.2.swap_page (some n) false = (.ok (some f), b') := by
      rw [← hid]
      exact hnew
    exact T1.brought O' hswap
  · have hgives : gives s.store.pool .new_page = none := by
      unfold gives
      rw [hnew]
      rfl
    rw [FlatStore.next_new_page_none hnew] at hstore
    cases hstore
    rw [hgives]
    exact T.waited O1 rfl rfl rfl

theorem Traced.fetch_page (T : Traced s) {n : Nat} (ha : Allocated s.store.pool.disk_manager n)
    {t : FrameUse} (h : s.next (.fetch_page n) = some t) : Traced t := by
  obtain ⟨store, hstore, rfl⟩ := Option.map_eq_some_iff.mp h
  have I := T.order.inv
  have hfrom : gives s.store.pool (.fetch_page n) = frame_of (s.store.pool.fetch_page (some n)) := rfl
  rcases T.order.fetch_page ha with ⟨f, hc, hfetch, O'⟩ | ⟨hu, ⟨f, b', hfetch, W, O'⟩ | ⟨hfetch, _⟩⟩
  · have hid := (I.holds n f).mp hc
    have hgives : gives s.store.pool (.fetch_page n) = some (f, some n) := by
      rw [hfrom, frame_of_brought hfetch]
      show some (f, (Function.update s.store.pool.frames f _ f).page_id) = _
      rw [Function.update_self]
      show some (f, (s.store.pool.frames f).page_id) = _
      rw [hid]
    rw [FlatStore.next_fetch_page hfetch] at hstore
    cases hstore
    rw [hgives]
    refine T.took O' T.ordered (fun q hq => hq) rfl (fun g => ?_) (fun g => ?_)
    · show g ∈ s.store.pool.free_frames_list ↔ _
      refine ⟨fun hg => ⟨hg, fun he => ?_⟩, fun hg => hg.1⟩
      have hempty := ((I.free g).mp hg).2
      rw [he, hid] at hempty
      cases hempty
    · show g < s.store.pool.pool_size ↔ _
      have := I.used n f hid
      omega
  · have hgives : gives s.store.pool (.fetch_page n) = some (f, some n) := by
      rw [hfrom, frame_of_brought hfetch, W.page_id]
    have hswap : s.store.pool.swap_page (some n) true = (.ok (some f), b') := by
      rw [← hfetch]
      unfold BufferPoolManager.fetch_page find_cached_page
      rw [hu]
    rw [FlatStore.next_fetch_page hfetch] at hstore
    cases hstore
    rw [hgives]
    exact T.brought O' hswap
  · have hgives : gives s.store.pool (.fetch_page n) = none := by
      rw [hfrom, hfetch]
      rfl
    rw [FlatStore.next_fetch_page_none hfetch] at hstore
    cases hstore
    rw [hgives]
    exact T.waited T.order rfl rfl rfl

theorem Traced.delete_page (T : Traced s) {n : Nat} (ha : Allocated s.store.pool.disk_manager n)
    {t : FrameUse} (h : s.next (.delete_page n) = some t) : Traced t := by
  obtain ⟨store, hstore, rfl⟩ := Option.map_eq_some_iff.mp h
  have I := T.order.inv
  have hgives : gives s.store.pool (.delete_page n) = none := rfl
  have hempties : frees s.store.pool (.delete_page n) =
      if (s.store.pool.delete_page (some n)).2.page_table (some n) = none then
        s.store.pool.page_table (some n) else none := rfl
  rw [hgives]
  obtain ⟨hpool, hpins⟩ := FlatStore.next_delete_page hstore
  rcases T.order.delete_page ha with ⟨hdel, hpos⟩ | ⟨_, D⟩
  · obtain ⟨f, hf⟩ := I.cached_of_pins hpos
    have hfrees : frees s.store.pool (.delete_page n) = none := by
      rw [hempties, hdel, if_neg]
      rw [hf]
      simp
    rw [hfrees]
    rw [hdel] at hpool
    exact T.waited (by rw [hpool, hpins]; exact T.order) (by rw [hpool]) (by rw [hpool]) (by rw [hpool])
  · have hfrees : frees s.store.pool (.delete_page n) = s.store.pool.page_table (some n) := by
      rw [hempties, if_pos D.gone]
    have O' : InOrder store.pool store.pins := by
      rw [hpool, hpins]
      exact D.inorder
    have hlist : store.pool.free_frames_list =
        (s.store.pool.page_table (some n)).toList ++ s.store.pool.free_frames_list := by
      rw [hpool, D.freed]
    have hsize : store.pool.pool_size = s.store.pool.pool_size := by rw [hpool, D.size.1]
    have hmru : store.pool.mru_pages = if (s.store.pool.page_table (some n)).isSome then
        s.store.pool.mru_pages.filter (· ≠ some n) else s.store.pool.mru_pages := by
      rw [hpool, D.mru]
    rw [hfrees]
    rcases hc : s.store.pool.page_table (some n) with _ | f
    · rw [hc] at hlist hmru
      exact T.waited O' hlist hsize hmru
    · rw [hc] at hlist hmru
      exact T.gave_back O' hlist hsize hmru

/-- Every call keeps the notes of the observer true. -/
theorem Traced.next (T : Traced s) {call : PoolCall} (hok : CallersMatch s call) {t : FrameUse}
    (h : s.next call = some t) : Traced t := by
  cases call with
  | new_page => exact T.new_page h
  | fetch_page n => exact T.fetch_page hok.1 h
  | write n data =>
    obtain ⟨store, hstore, rfl⟩ := Option.map_eq_some_iff.mp h
    obtain ⟨f, hc, rfl⟩ := Option.map_eq_some_iff.mp hstore
    exact T.waited (T.order.set_data hc data) rfl rfl rfl
  | unpin_page n dirty =>
    obtain ⟨store, hstore, rfl⟩ := Option.map_eq_some_iff.mp h
    cases hstore
    obtain ⟨f, _, heq, _⟩ := T.order.inv.unpin_page hok.1 dirty
    refine T.waited (T.order.unpin_page hok.1 dirty) ?_ ?_ ?_ <;> rw [heq] <;> rfl
  | delete_page n => exact T.delete_page hok.2.1 h
  | flush_all =>
    obtain ⟨store, hstore, rfl⟩ := Option.map_eq_some_iff.mp h
    cases hstore
    obtain ⟨file, heq, O', _⟩ := T.order.flush_all
    refine T.waited O' ?_ ?_ ?_ <;> rw [heq]

end

/-! ## The law -/

/-- What a call returns that brings a page in. -/
def brings (b : BufferPoolManager) : PoolCall → Option (Except String (Option FrameID))
  | .new_page => some b.new_page.1
  | .fetch_page n => if b.page_table (some n) = none then some (b.fetch_page (some n)).1 else none
  | _ => none

/-- No page is returned exactly when every frame is pinned. -/
def ChoosesFrame (s : FrameUse) (r : Except String (Option FrameID)) : Prop :=
  ∃ o, r = .ok o ∧ (o = none ↔ EveryFramePinned s.store.pool) ∧ ∀ f, o = some f → Chosen s f

section
variable {s : FrameUse}

theorem Traced.choosesFrame (T : Traced s) {f : Nat}
    (h : s.store.pool.find_next_frame.1 = some f) : ChoosesFrame s (.ok (some f)) := by
  obtain ⟨hf, hpin⟩ := T.chosen h
  refine ⟨some f, rfl, ⟨fun h => (by cases h), fun hall => ?_⟩, fun g hg => ?_⟩
  · have := hall f hf.lt
    omega
  · cases hg
    exact hf

theorem Traced.choosesNone (T : Traced s) (h : AllPinned s.store.pool) :
    ChoosesFrame s (.ok none) := by
  refine ⟨none, rfl, ⟨fun _ => everyFramePinned_of_allPinned T.order.inv h, fun _ => rfl⟩, ?_⟩
  intro f hf
  cases hf

/-- A page is brought into a frame that a delete has freed, if there is one, or else into one that
was never used, or else into that of the unpinned page that was used longest ago. -/
theorem a_page_is_brought_into_the_right_frame (h : frameMachine.Reach CallersMatch s)
    {call : PoolCall} (hok : CallersMatch s call) {r : Except String (Option FrameID)}
    (hr : brings s.store.pool call = some r) : ChoosesFrame s r := by
  have T : Traced s := by
    apply h.invariant
    · exact fun s h0 => traced_start h0
    · exact fun s call t T hok hn => T.next hok hn
  cases call with
  | new_page =>
    cases hr
    obtain ⟨n, _, _, _, O1, ⟨f, b', hnew, W, _⟩ | ⟨hnew, hall⟩⟩ := T.order.new_page
    · rw [hnew]
      refine T.choosesFrame ?_
      rw [← next_frame_allocate_page]
      exact W.next
    · rw [hnew]
      exact T.choosesNone hall
  | fetch_page n =>
    unfold brings at hr
    simp only at hr
    rcases T.order.fetch_page hok.1 with ⟨f, hc, _⟩ | ⟨hu, ⟨f, b', hfetch, W, _⟩ | ⟨hfetch, hall⟩⟩
    · rw [if_neg (by rw [hc]; simp)] at hr
      cases hr
    · rw [if_pos hu, hfetch] at hr
      cases hr
      exact T.choosesFrame W.next
    · rw [if_pos hu, hfetch] at hr
      cases hr
      exact T.choosesNone hall
  | write n data => cases hr
  | unpin_page n dirty => cases hr
  | delete_page n => cases hr
  | flush_all => cases hr

end

instance (s : FrameUse) (call : PoolCall) : Decidable (CallersMatch s call) :=
  inferInstanceAs (Decidable (_ ∧ _ ∧ _))

/-- A pool of `k` empty frames over a new disk. -/
def new_frames (k : Nat) : FrameUse :=
  ⟨new_pool k, 0, fun _ => 0, fun _ => false, fun _ => false⟩

theorem new_frames_starts (k : Nat) : frameMachine.start (new_frames k) :=
  ⟨new_pool k, new_pool_starts k, rfl⟩

/-- The call returns frame `f`. -/
def returns_frame (f : FrameID) : Except String (Option FrameID) → Bool
  | .ok (some g) => g == f
  | _ => false

/-- The call returns no page. -/
def returns_none : Except String (Option FrameID) → Bool
  | .ok none => true
  | _ => false

/-- Page 1 was fetched after page 2 was made, so the new page takes the frame of page 2. -/
theorem a_new_page_takes_the_frame_of_the_page_used_longest_ago : ∃ s,
    frameMachine.execIf (fun s call => decide (CallersMatch s call)) (new_frames 2)
      [.new_page, .unpin_page 1 false, .new_page, .unpin_page 2 false, .fetch_page 1,
        .unpin_page 1 false] = some s ∧
    s.store.pool.page_table (some 2) = some 1 ∧ Chosen s 1 := by
  obtain ⟨s, hs, hp⟩ : ∃ s, frameMachine.execIf (fun s call => decide (CallersMatch s call))
      (new_frames 2) [.new_page, .unpin_page 1 false, .new_page, .unpin_page 2 false,
        .fetch_page 1, .unpin_page 1 false] = some s ∧
      (s.store.pool.page_table (some 2) == some 1 && decide (CallersMatch s .new_page) &&
        returns_frame 1 s.store.pool.new_page.1) = true := by
    apply Option.map_eq_some_iff.mp
    decide +kernel
  simp only [Bool.and_eq_true, beq_iff_eq, decide_eq_true_eq] at hp
  obtain ⟨⟨htable, hok⟩, hnew⟩ := hp
  have hreach : frameMachine.Reach CallersMatch s :=
    (Machine.Reach.start (new_frames_starts 2)).run
      (Machine.run_of_execIf (fun _ _ hc => of_decide_eq_true hc) hs)
  obtain ⟨o, ho, _, hchosen⟩ := a_page_is_brought_into_the_right_frame hreach hok rfl
  rw [ho] at hnew
  refine ⟨s, hs, htable, hchosen 1 ?_⟩
  rcases o with _ | g
  · cases hnew
  · rw [beq_iff_eq.mp (show (g == 1) = true from hnew)]

/-- A page that is deleted twice is made twice. The first frame with it is not found again and not
pinned by anybody, and yet no page is returned. -/
theorem a_frame_is_lost_when_a_page_is_deleted_twice :
    ¬ ∀ s, frameMachine.Reach (fun s call => CallersMatchPins s.store call) s →
      ∀ call, CallersMatchPins s.store call → ∀ r, brings s.store.pool call = some r →
        ChoosesFrame s r := by
  intro h
  obtain ⟨s, hs, hp⟩ : ∃ s, frameMachine.execIf
      (fun s call => decide (CallersMatchPins s.store call)) (new_frames 2)
      [.new_page, .unpin_page 1 false, .delete_page 1, .delete_page 1, .new_page,
        .unpin_page 1 false, .new_page] = some s ∧
      (returns_none s.store.pool.new_page.1 && (s.store.pool.frames 0).pin_count == 0 &&
        s.store.pool.pool_capacity == 2) = true := by
    apply Option.map_eq_some_iff.mp
    decide +kernel
  simp only [Bool.and_eq_true, beq_iff_eq] at hp
  obtain ⟨⟨hnew, hpin⟩, hcap⟩ := hp
  have hreach : frameMachine.Reach (fun s call => CallersMatchPins s.store call) s :=
    (Machine.Reach.start (new_frames_starts 2)).run
      (Machine.run_of_execIf (fun _ _ hc => of_decide_eq_true hc) hs)
  obtain ⟨o, ho, hnone, _⟩ := h s hreach .new_page trivial _ rfl
  rw [ho] at hnew
  rcases o with _ | g
  · have := hnone.mp rfl 0 (by omega)
    omega
  · cases hnew

end duck.buffer_pool
