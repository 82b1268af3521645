-- New pages read as zeros, from the call that made them to the first write: a
-- page that leaves its frame clean is read from the disk again, and there it
-- may have what a deleted page of that id had.
import DuckDbms.FrameChoice

open machine duck.slotted_page duck.disk_manager

namespace duck.buffer_pool

open BufferPoolManager

/-- The pool with its callers, and the fresh pages: those that `new_page` returned, and nobody has
written or deleted since. -/
structure FreshPages where
  store : FlatStore
  fresh : Nat → Bool

/-- What `delete_page` returns for a pinned page. -/
def refused : Except String Bool → Bool
  | .ok deleted => !deleted
  | .error _ => false

namespace FreshPages

variable (s : FreshPages)

/-- The fresh pages after a call. -/
def marks : PoolCall → Nat → Bool
  | .new_page => fun n => s.fresh n || (frame_of s.store.pool.new_page).map Prod.snd == some (some n)
  | .write n _ => Function.update s.fresh n false
  | .delete_page n =>
    if refused (s.store.pool.delete_page (some n)).1 then s.fresh
    else Function.update s.fresh n false
  | .fetch_page _ | .unpin_page _ _ | .flush_all => s.fresh

def next (call : PoolCall) : Option FreshPages :=
  (s.store.next call).map fun store => ⟨store, s.marks call⟩

end FreshPages

def freshMachine : Machine FreshPages PoolCall where
  start s := ∃ store, flatMachine.start store ∧ s = ⟨store, fun _ => false⟩
  next := FreshPages.next

/-- The page is dirty, and so it is written when it leaves its frame, or the disk has zeros for it
anyway. -/
def LeavesZeros (b : BufferPoolManager) (v : Nat) : Prop :=
  (∃ f, (b.frames f).page_id = some v ∧ (b.frames f).is_dirty = true) ∨
    b.disk_manager.file v = zeroPage

/-- A page that is brought in takes the frame of no fresh page that the disk has other bytes for. -/
def KeepsFreshPages (s : FreshPages) (call : PoolCall) : Prop :=
  (brings s.store.pool call).isSome → ∀ v, Evicts s.store.pool v → s.fresh v = true →
    LeavesZeros s.store.pool v

/-- Callers fetch and delete allocated pages, and unpin what they pinned. -/
def CallersInOrder (s : FreshPages) (call : PoolCall) : Prop :=
  CallersMatchPins s.store call ∧ DeletesAllocated s.store call

/-! ## Fresh pages have no bytes -/

/-- The fresh pages are zeros, wherever they are. -/
structure FreshInv (s : FreshPages) : Prop where
  order : InOrder s.store.pool s.store.pins
  zeros : ∀ n, s.fresh n = true → view s.store.pool n = zeroPage

section
variable {s : FreshPages}

/-- The pins of a page are no part of its data. -/
theorem view_set_frame {b : BufferPoolManager} {f : FrameID} {p : Page}
    (h : p.data = (b.frames f).data) (m : Nat) : view (b.set_frame f p) m = view b m := by
  rcases hc : b.page_table (some m) with _ | g
  · rw [view_uncached hc, view_uncached (b := b.set_frame f p) hc]
    rfl
  · rw [view_cached hc, view_cached (b := b.set_frame f p) hc]
    show (Function.update b.frames f p g).data = _
    by_cases hg : g = f
    · rw [hg, Function.update_self, h]
    · rw [Function.update_of_ne hg]

/-- A page that comes in leaves every fresh page zeros, also the one that has to leave. -/
theorem zeros_of_swapped {b b' : BufferPoolManager} {pins : Nat → Nat} {n f : Nat} {rd : Bool}
    {fresh : Nat → Bool} (I : PoolInv b pins) (W : Swapped b b' pins n f rd)
    (hzeros : ∀ m, fresh m = true → view b m = zeroPage)
    (hkeep : ∀ v, Evicts b v → fresh v = true → LeavesZeros b v) {m : Nat} (hm : m ≠ n)
    (hfresh : fresh m = true) : view b' m = zeroPage := by
  rcases W.view_other I hm with h | ⟨hc, hclean, h⟩
  · rw [h]
    exact hzeros m hfresh
  · have hid := (I.holds m f).mp hc
    rw [h]
    rcases hkeep m ⟨f, W.next, hid⟩ hfresh with ⟨g, hg, hdirty⟩ | hzero
    · obtain rfl := I.unique hid hg
      rw [hclean] at hdirty
      cases hdirty
    · exact hzero

theorem FreshInv.new_page (I : FreshInv s) (hok : KeepsFreshPages s .new_page) {t : FreshPages}
    (h : s.next .new_page = some t) : FreshInv t := by
  obtain ⟨store, hstore, rfl⟩ := Option.map_eq_some_iff.mp h
  obtain ⟨n, _, hu, _, O1, ⟨f, b', hnew, W, O'⟩ | ⟨hnew, _⟩⟩ := I.order.new_page
  · have hmark : ∀ m, s.marks .new_page m = (s.fresh m || some (some n) == some (some m)) := by
      intro m
      unfold FreshPages.marks
      simp only
      rw [frame_of_brought hnew, W.page_id]
      rfl
    rw [FlatStore.next_new_page hnew W.page_id] at hstore
    cases hstore
    refine ⟨O', fun m hm => ?_⟩
    show view b' m = zeroPage
    change s.marks .new_page m = true at hm
    rw [hmark] at hm
    by_cases he : m = n
    · rw [he, view_cached W.cached, W.frames, Function.update_self]
      rfl
    · have hfresh : s.fresh m = true := by
        simpa [Ne.symm he] using hm
      have hleaves : ∀ v, Evicts s.store.pool.allocate_page.2 v → s.fresh v = true →
          LeavesZeros s.store.pool.allocate_page.2 v := by
        intro v hv hf
        have := hok rfl v (evicts_allocate_page.mp hv) hf
        unfold LeavesZeros at this ⊢
        rw [file_allocate_page]
        exact this
      refine zeros_of_swapped O1.inv W (fun k hk => ?_) hleaves he hfresh
      rw [view_allocate_page]
      exact I.zeros k hk
  · have hmark : s.marks .new_page = s.fresh := by
      funext m
      unfold FreshPages.marks
      rw [hnew]
      simp [frame_of]
    rw [FlatStore.next_new_page_none hnew] at hstore
    cases hstore
    refine ⟨O1, fun m hm => ?_⟩
    change s.marks .new_page m = true at hm
    rw [hmark] at hm
    exact (view_allocate_page _ m).trans (I.zeros m hm)

theorem FreshInv.fetch_page (I : FreshInv s) {n : Nat} (ha : Allocated s.store.pool.disk_manager n)
    (hok : KeepsFreshPages s (.fetch_page n)) {t : FreshPages}
    (h : s.next (.fetch_page n) = some t) : FreshInv t := by
  obtain ⟨store, hstore, rfl⟩ := Option.map_eq_some_iff.mp h
  rcases I.order.fetch_page ha with ⟨f, hc, hfetch, O'⟩ | ⟨hu, ⟨f, b', hfetch, W, O'⟩ | ⟨hfetch, _⟩⟩
  · rw [FlatStore.next_fetch_page hfetch] at hstore
    cases hstore
    refine ⟨O', fun m hm => ?_⟩
    have hview : view (s.store.pool.set_frame f (s.store.pool.frames f).inc_pin_count) m =
        view s.store.pool m :=
      view_set_frame (b := s.store.pool) (p := (s.store.pool.frames f).inc_pin_count) rfl m
    exact hview.trans (I.zeros m hm)
  · rw [FlatStore.next_fetch_page hfetch] at hstore
    cases hstore
    refine ⟨O', fun m hm => ?_⟩
    show view b' m = zeroPage
    have hbrings : (brings s.store.pool (.fetch_page n)).isSome := by
      unfold brings
      simp only
      rw [if_pos hu]
      rfl
    by_cases he : m = n
    · have hzero := I.zeros n (he ▸ hm)
      rw [view_uncached hu] at hzero
      rw [he, view_cached W.cached, W.frames, Function.update_self]
      exact (written_other (I.order.inv.uncached hu f)).trans hzero
    · exact zeros_of_swapped I.order.inv W I.zeros (hok hbrings) he hm
  · rw [FlatStore.next_fetch_page_none hfetch] at hstore
    cases hstore
    exact ⟨I.order, I.zeros⟩

theorem FreshInv.delete_page (I : FreshInv s) {n : Nat} (ha : Allocated s.store.pool.disk_manager n)
    {t : FreshPages} (h : s.next (.delete_page n) = some t) : FreshInv t := by
  obtain ⟨store, hstore, rfl⟩ := Option.map_eq_some_iff.mp h
  obtain ⟨hpool, hpins⟩ := FlatStore.next_delete_page hstore
  rcases I.order.delete_page ha with ⟨hdel, _⟩ | ⟨hok, D⟩
  · have hmark : s.marks (.delete_page n) = s.fresh := by
      unfold FreshPages.marks
      simp only [hdel, refused, Bool.not_false, if_true]
    rw [hdel] at hpool
    refine ⟨by rw [hpool, hpins]; exact I.order, fun m hm => ?_⟩
    change s.marks (.delete_page n) m = true at hm
    rw [hmark] at hm
    show view store.pool m = zeroPage
    rw [hpool]
    exact I.zeros m hm
  · have hmark : s.marks (.delete_page n) = Function.update s.fresh n false := by
      have hnot : refused (s.store.pool.delete_page (some n)).1 ≠ true := by
        intro hr
        generalize (s.store.pool.delete_page (some n)).1 = r at hok hr
        rcases r with e | deleted
        · cases hr
        · exact hok (by simpa [refused] using hr)
      exact if_neg hnot
    refine ⟨by rw [hpool, hpins]; exact D.inorder, fun m hm => ?_⟩
    change s.marks (.delete_page n) m = true at hm
    rw [hmark] at hm
    have hmn : m ≠ n := by
      rintro rfl
      rw [Function.update_self] at hm
      cases hm
    rw [Function.update_of_ne hmn] at hm
    show view store.pool m = zeroPage
    rw [hpool, ← I.zeros m hm]
    have htable := D.table m hmn
    rcases hc : s.store.pool.page_table (some m) with _ | g
    · rw [view_uncached hc, view_uncached (htable.trans hc), D.file]
    · have hid := (I.order.inv.holds m g).mp hc
      rw [view_cached hc, view_cached (htable.trans hc), D.frames g (by rw [hid]; simpa using hmn)]

/-- Every call that lets no fresh page with other bytes on the disk go leaves the fresh pages
zeros. -/
theorem FreshInv.next (I : FreshInv s) {call : PoolCall} (h1 : CallersInOrder s call)
    (h2 : KeepsFreshPages s call) {t : FreshPages} (h : s.next call = some t) : FreshInv t := by
  cases call with
  | new_page => exact I.new_page h2 h
  | fetch_page n => exact I.fetch_page h1.1 h2 h
  | write n data =>
    obtain ⟨store, hstore, rfl⟩ := Option.map_eq_some_iff.mp h
    obtain ⟨f, hc, rfl⟩ := Option.map_eq_some_iff.mp hstore
    refine ⟨I.order.set_data hc data, fun m hm => ?_⟩
    change Function.update s.fresh n false m = true at hm
    have hmn : m ≠ n := by
      rintro rfl
      rw [Function.update_self] at hm
      cases hm
    rw [Function.update_of_ne hmn] at hm
    exact ((view_set_data I.order.inv hc data).2 m hmn).trans (I.zeros m hm)
  | unpin_page n dirty =>
    obtain ⟨store, hstore, rfl⟩ := Option.map_eq_some_iff.mp h
    cases hstore
    refine ⟨I.order.unpin_page h1.1 dirty, fun m hm => ?_⟩
    exact (view_unpin_page I.order.inv h1.1 dirty m).trans (I.zeros m hm)
  | delete_page n => exact I.delete_page h1.2 h
  | flush_all =>
    obtain ⟨store, hstore, rfl⟩ := Option.map_eq_some_iff.mp h
    cases hstore
    obtain ⟨_, _, O', hview⟩ := I.order.flush_all
    exact ⟨O', fun m hm => (hview m).trans (I.zeros m hm)⟩

/-! ## The law -/

/-- The page has zeros in its frame, and a fetch returns zeros. -/
def ReadsZeros (s : FreshPages) (n : Nat) : Prop :=
  (∀ f, s.store.pool.page_table (some n) = some f → (s.store.pool.frames f).data = zeroPage) ∧
  ∀ f b, CallersInOrder s (.fetch_page n) → s.store.pool.fetch_page (some n) = (.ok (some f), b) →
    (b.frames f).data = zeroPage

theorem FreshInv.readsZeros (I : FreshInv s) {n : Nat} (h : s.fresh n = true) : ReadsZeros s n := by
  have hzero := I.zeros n h
  refine ⟨fun f hc => ?_, fun f b hok hfetch => ?_⟩
  · rwa [view_cached hc] at hzero
  · rcases I.order.fetch_page hok.1 with ⟨g, hc, hg, _⟩ | ⟨hu, ⟨g, b', hg, W, _⟩ | ⟨hg, _⟩⟩
    · rw [hfetch] at hg
      cases hg
      rw [view_cached hc] at hzero
      show (Function.update s.store.pool.frames f _ f).data = zeroPage
      rw [Function.update_self]
      exact hzero
    · rw [hfetch] at hg
      cases hg
      rw [view_uncached hu] at hzero
      rw [W.frames, Function.update_self]
      exact (written_other (I.order.inv.uncached hu f)).trans hzero
    · rw [hfetch] at hg
      cases hg

/-- As long as no fresh page leaves its frame clean while the disk has other bytes for it, new
pages are returned as zeros, and read as zeros until they are written. -/
theorem fresh_pages_read_as_zeros
    (h : freshMachine.Reach (fun s call => CallersInOrder s call ∧ KeepsFreshPages s call) s) :
    (∀ n, s.fresh n = true → ReadsZeros s n) ∧
      ∀ f b, s.store.pool.new_page = (.ok (some f), b) → (b.frames f).data = zeroPage := by
  have I : FreshInv s := by
    apply h.invariant
    · rintro _ ⟨store, hstart, rfl⟩
      exact ⟨inOrder_start hstart, fun n hn => by cases hn⟩
    · exact fun s call t I hok hn => I.next hok.1 hok.2 hn
  refine ⟨fun n hn => I.readsZeros hn, fun f b hf => ?_⟩
  obtain ⟨n, _, _, _, _, ⟨g, b', hnew, W, _⟩ | ⟨hnew, _⟩⟩ := I.order.new_page
  · rw [hf] at hnew
    cases hnew
    rw [W.frames, Function.update_self]
    rfl
  · rw [hf] at hnew
    cases hnew

end

/-- A pool of `k` empty frames over a new disk. -/
def no_fresh_pages (k : Nat) : FreshPages := ⟨new_pool k, fun _ => false⟩

theorem no_fresh_pages_starts (k : Nat) : freshMachine.start (no_fresh_pages k) :=
  ⟨new_pool k, new_pool_starts k, rfl⟩

instance (s : FreshPages) (call : PoolCall) : Decidable (CallersInOrder s call) :=
  inferInstanceAs (Decidable (_ ∧ _))

/-- The next frame is dirty, or holds no fresh page. -/
def next_frame_keeps (s : FreshPages) : Bool :=
  s.store.pool.find_next_frame.1.all fun f => (s.store.pool.frames f).is_dirty ||
    (s.store.pool.frames f).page_id.all fun v => !s.fresh v

theorem keeps_of_next_frame {s : FreshPages} (h : next_frame_keeps s = true) (call : PoolCall) :
    KeepsFreshPages s call := by
  intro _ v hev hfresh
  obtain ⟨f, hf, hid⟩ := hev
  unfold next_frame_keeps at h
  rw [hf] at h
  simp only [Option.all_some, hid, hfresh, Bool.not_true, Bool.or_false] at h
  exact Or.inl ⟨f, hid, h⟩

/-- The new page is unpinned as dirty, written when it is evicted, and read again. -/
theorem a_new_page_that_is_marked_dirty_reads_as_zeros : ∃ s,
    freshMachine.execIf (fun s call => decide (CallersInOrder s call) && next_frame_keeps s)
      (no_fresh_pages 1) [.new_page, .unpin_page 1 true, .fetch_page 0, .unpin_page 0 false] = some s ∧
    s.store.pool.page_table (some 1) = none ∧ ReadsZeros s 1 := by
  obtain ⟨s, hs, hp⟩ : ∃ s, freshMachine.execIf
      (fun s call => decide (CallersInOrder s call) && next_frame_keeps s) (no_fresh_pages 1)
      [.new_page, .unpin_page 1 true, .fetch_page 0, .unpin_page 0 false] = some s ∧
      (s.store.pool.page_table (some 1) == none && s.fresh 1) = true := by
    apply Option.map_eq_some_iff.mp
    decide +kernel
  rw [Bool.and_eq_true, beq_iff_eq] at hp
  have hcheck : ∀ s call, (decide (CallersInOrder s call) && next_frame_keeps s) = true →
      CallersInOrder s call ∧ KeepsFreshPages s call := by
    intro s call hc
    rw [Bool.and_eq_true, decide_eq_true_eq] at hc
    exact ⟨hc.1, keeps_of_next_frame hc.2 call⟩
  have hrun := Machine.run_of_execIf hcheck hs
  exact ⟨s, hs, hp.1,
    (fresh_pages_read_as_zeros ((Machine.Reach.start (no_fresh_pages_starts 1)).run hrun)).1 1 hp.2⟩

/-- The number of slots that a fetch of the page finds. -/
def slots_found (b : BufferPoolManager) (n : Nat) : Option Nat :=
  (frame_of (b.fetch_page (some n))).map fun r =>
    ((b.fetch_page (some n)).2.frames r.1).data.header.slot_count

theorem frame_of_some {r : Except String (Option FrameID) × BufferPoolManager} {f : FrameID}
    {p : PageID} (h : frame_of r = some (f, p)) : r = (.ok (some f), r.2) := by
  obtain ⟨e | _ | g, b⟩ := r
  · cases h
  · cases h
  · obtain ⟨rfl, _⟩ := Prod.mk.inj (Option.some.inj h)
    rfl

/-- Page 1 is written, saved and deleted, and its id is given out again. The new page is unpinned
clean and evicted, and then it has what the deleted page had. -/
theorem a_recycled_page_reads_what_was_deleted :
    ¬ ∀ s, freshMachine.Reach (fun s call => CallersKeepPages s.store call) s →
      ∀ n, s.fresh n = true → ReadsZeros s n := by
  intro h
  obtain ⟨s, hs, hp⟩ : ∃ s, freshMachine.execIf
      (fun s call => decide (CallersKeepPages s.store call)) (no_fresh_pages 1)
      [.new_page, .write 1 sevenSlots, .unpin_page 1 true, .flush_all, .delete_page 1, .new_page,
        .unpin_page 1 false, .fetch_page 0, .unpin_page 0 false] = some s ∧
      (decide (CallersInOrder s (.fetch_page 1)) && s.fresh 1 &&
        slots_found s.store.pool 1 == some 7) = true := by
    apply Option.map_eq_some_iff.mp
    decide +kernel
  simp only [Bool.and_eq_true, decide_eq_true_eq, beq_iff_eq] at hp
  obtain ⟨⟨hok, hfresh⟩, hslots⟩ := hp
  have hreach : freshMachine.Reach (fun s call => CallersKeepPages s.store call) s :=
    (Machine.Reach.start (no_fresh_pages_starts 1)).run
      (Machine.run_of_execIf (fun _ _ hc => of_decide_eq_true hc) hs)
  unfold slots_found at hslots
  obtain ⟨⟨f, p⟩, hframe, h7⟩ := Option.map_eq_some_iff.mp hslots
  have hzero := (h s hreach 1 hfresh).2 f _ hok (frame_of_some hframe)
  rw [hzero] at h7
  cases h7

end duck.buffer_pool
