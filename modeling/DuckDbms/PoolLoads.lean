-- The read of a page runs outside of the latch of the pool, under the latch of
-- its frame. While it runs the page is in the page table without its bytes, and
-- other threads go on. The pool cannot be told from one whose reads are done at
-- once.
import DuckDbms.PoolThreads

open machine duck.slotted_page duck.disk_manager

namespace duck.buffer_pool

open BufferPoolManager

/-! ## Reads in progress -/

/-- The end of a `swap_page`: the page and the frame that its bytes go to. -/
structure Read where
  page_id : PageID
  frame_id : FrameID

/-- The store, of less than 2^32 pins a page and 2^32 pages, the read of each thread that is
between the latch of the pool and its end, and the frames whose latches these threads keep. -/
structure LoadingPool where
  store : ThreadStore
  reading : Nat → Option Read
  latched : FrameID → Bool

inductive LoadEvent
  /-- a section under the latch of the pool -/
  | enter (sec : PoolSection)
  /-- the `read_page` of a thread, and the end of its `swap_page` -/
  | load (thread : Nat)

/-- The page whose latch a section takes. -/
def PoolSection.page : PoolSection → Option Nat
  | .find _ n | .write n _ | .unpin n _ | .delete n => some n
  | .allocate _ | .swap _ | .flush_all => none

def PoolSection.thread : PoolSection → Option Nat
  | .find t _ | .allocate t | .swap t => some t
  | .write _ _ | .unpin _ _ | .delete _ | .flush_all => none

namespace LoadingPool

variable (s : LoadingPool)

/-- Nobody keeps the latch of the page. -/
def free (n : Nat) : Bool :=
  match s.store.flat.pool.page_table (some n) with
  | some f => !s.latched f
  | none => true

/-- A section runs when its page is free and its thread is not in a read. -/
def may_enter (sec : PoolSection) : Bool :=
  sec.page.all s.free && sec.thread.all fun t => (s.reading t).isNone

/-- The thread keeps the latch of the frame that it has to read into. -/
def begin_read (thread : Nat) (p : Pending) : Except String (Option FrameID) → LoadingPool
  | .ok (some f) =>
    if p.read_from_disk then
      { s with
        reading := Function.update s.reading thread (some ⟨p.page_id, f⟩)
        latched := Function.update s.latched f true }
    else s
  | _ => s

/-- `swap_page` up to the end of the latch of the pool. -/
def swap (thread : Nat) (p : Pending) : Option LoadingPool :=
  let r := s.store.flat.pool.swap_page p.page_id false
  (s.store.swapped thread p r).map fun store => { s with store }.begin_read thread p r.1

/-- An exception leaves the frame as it is. -/
def read (r : Read) : BufferPoolManager :=
  match s.store.flat.pool.disk_manager.read_page r.page_id with
  | .ok data => s.store.flat.pool.set_data r.frame_id data
  | .error _ => s.store.flat.pool

def end_read (thread : Nat) (r : Read) : LoadingPool :=
  { store := { s.store with flat := { s.store.flat with pool := s.read r } }
    reading := Function.update s.reading thread none
    latched := Function.update s.latched r.frame_id false }

def next : LoadEvent → Option LoadingPool
  | .enter sec =>
    if s.may_enter sec then
      match sec with
      | .swap thread => (s.store.missed thread).bind (s.swap thread)
      | sec => (s.store.next sec).map fun store => { s with store }
    else none
  | .load thread => (s.reading thread).map (s.end_read thread)

end LoadingPool

/-- An empty pool over a disk that works, before any call. -/
def loadMachine : Machine LoadingPool LoadEvent where
  start s := threadMachine.start s.store ∧ (s.reading = fun _ => none) ∧ s.latched = fun _ => false
  next := LoadingPool.next

/-- The rules of the callers. -/
def LoadersKeepPages (s : LoadingPool) : LoadEvent → Prop
  | .enter sec => ThreadsKeepPages s.store sec
  | .load _ => True

/-- Page ids and pin counts are `std::uint32_t`. -/
def LoadsFitWords (s : LoadingPool) : LoadEvent → Prop
  | .enter sec => match sec with
    | .find _ n => FitsWords s.store.flat (.fetch_page n)
    | .allocate _ => FitsWords s.store.flat .new_page
    | .swap thread => ∀ p n, s.store.missed thread = some p → p.page_id = some n →
        FitsWords s.store.flat (.fetch_page n)
    | .write _ _ | .unpin _ _ | .delete _ | .flush_all => True
  | .load _ => True

/-! ## The pool with its reads done -/

/-- A frame with the bytes that the file has for its page. -/
def on_disk (d : DiskManager) (p : Page) : Page :=
  { p with data := match p.page_id with
      | some n => d.file n
      | none => p.data }

/-- The pool after the reads into the frames of `latched`. -/
def fill (b : BufferPoolManager) (latched : FrameID → Bool) : BufferPoolManager :=
  { b with frames := fun f => if latched f then on_disk b.disk_manager (b.frames f) else b.frames f }

def settle (latched : FrameID → Bool) (s : ThreadStore) : ThreadStore :=
  { s with flat := { s.flat with pool := fill s.flat.pool latched } }

/-- The store with every read in progress done. -/
def LoadingPool.settled (s : LoadingPool) : ThreadStore := settle s.latched s.store

section
variable {b : BufferPoolManager} {L : FrameID → Bool} {f : FrameID}

theorem fill_frame (h : L f = false) : (fill b L).frames f = b.frames f := by
  simp [fill, h]

@[simp] theorem fill_pin_count (f : FrameID) :
    ((fill b L).frames f).pin_count = (b.frames f).pin_count := by
  simp only [fill]
  split <;> rfl

@[simp] theorem fill_page_id (f : FrameID) :
    ((fill b L).frames f).page_id = (b.frames f).page_id := by
  simp only [fill]
  split <;> rfl

@[simp] theorem fill_is_dirty (f : FrameID) :
    ((fill b L).frames f).is_dirty = (b.frames f).is_dirty := by
  simp only [fill]
  split <;> rfl

theorem fill_set_frame (h : L f = false) (p : Page) :
    fill (b.set_frame f p) L = (fill b L).set_frame f p := by
  have hframes : (fill (b.set_frame f p) L).frames = Function.update (fill b L).frames f p := by
    funext g
    simp only [fill, set_frame]
    by_cases hg : g = f
    · subst hg
      simp [h]
    · simp [Function.update_of_ne hg]
  exact congrArg (fun frames => { b with frames }) hframes

/-- The file may change where no read goes. -/
theorem fill_set_disk {d : DiskManager}
    (h : ∀ g, L g = true → on_disk d (b.frames g) = on_disk b.disk_manager (b.frames g)) :
    fill { b with disk_manager := d } L = { fill b L with disk_manager := d } := by
  have hframes : (fill { b with disk_manager := d } L).frames = (fill b L).frames := by
    funext g
    simp only [fill]
    split
    · rename_i hg
      exact h g hg
    · rfl
  exact congrArg (fun frames => { b with disk_manager := d, frames }) hframes

theorem on_disk_congr {d d' : DiskManager} {page : Page} (h : d'.file = d.file) :
    on_disk d' page = on_disk d page := by
  unfold on_disk
  rw [h]

theorem on_disk_write {d d' : DiskManager} {p : PageID} {data : PageData} {page : Page}
    (h : d.write_page p data = .ok d') (hne : page.page_id ≠ p) :
    on_disk d' page = on_disk d page := by
  unfold DiskManager.write_page at h
  cases p with
  | none => cases h
  | some n =>
    simp only at h
    split at h
    · cases h
    · split at h
      · cases h
      · cases h
        unfold on_disk
        rcases hid : page.page_id with _ | m
        · rfl
        · have hm : m ≠ n := fun he => hne (by rw [hid, he])
          simp only [Function.update_of_ne hm]

/-! ## The calls do not see the reads -/

theorem fill_find_lru : (fill b L).find_lru = b.find_lru := by
  have h : (fill b L).evictable = b.evictable := by
    funext p
    unfold evictable
    rcases hc : b.page_table p with _ | f
    · have hc' : (fill b L).page_table p = none := hc
      rw [hc']
    · have hc' : (fill b L).page_table p = some f := hc
      rw [hc']
      simp only [fill_pin_count]
  unfold find_lru
  rw [h]
  rfl

theorem fill_find_next_frame :
    (fill b L).find_next_frame = (b.find_next_frame.1, fill b.find_next_frame.2 L) := by
  unfold find_next_frame
  rw [fill_find_lru]
  rcases h : b.free_frames_list with _ | ⟨g, rest⟩
  · have h' : (fill b L).free_frames_list = [] := h
    rw [h']
    simp only
    split
    · rename_i hlt
      have hlt' : b.pool_size < b.pool_capacity := hlt
      rw [if_pos hlt']
      rfl
    · rename_i hge
      have hge' : ¬ b.pool_size < b.pool_capacity := hge
      rw [if_neg hge']
      split <;> rfl
  · have h' : (fill b L).free_frames_list = g :: rest := h
    rw [h']
    rfl

theorem fill_find_cached_page {n : Nat} (h : ∀ f, b.page_table (some n) = some f → L f = false) :
    (fill b L).find_cached_page (some n) =
      ((b.find_cached_page (some n)).1, fill (b.find_cached_page (some n)).2 L) := by
  unfold find_cached_page
  rcases hc : b.page_table (some n) with _ | f
  · have hc' : (fill b L).page_table (some n) = none := hc
    rw [hc']
  · have hc' : (fill b L).page_table (some n) = some f := hc
    rw [hc']
    simp only
    rw [fill_frame (h f hc), ← fill_set_frame (h f hc)]
    rfl

theorem fill_flush_page {page : Page}
    (hne : ∀ g, L g = true → (b.frames g).page_id ≠ page.page_id) :
    (fill b L).flush_page page = (b.flush_page page).map fun b => fill b L := by
  unfold flush_page
  show (b.disk_manager.write_page page.page_id page.data).map _ = _
  rcases h : b.disk_manager.write_page page.page_id page.data with e | d
  · rfl
  · exact congrArg Except.ok (fill_set_disk fun g hg => on_disk_write h (hne g hg)).symm

/-- The frame that loses its page is not read into, and no other frame holds that page. -/
theorem fill_evict (h : L f = false)
    (hne : ∀ g, L g = true → (b.frames g).page_id ≠ (b.frames f).page_id) :
    (fill b L).evict f = ((b.evict f).1, fill (b.evict f).2 L) := by
  unfold evict
  rw [fill_frame h]
  have hmain : ∀ b1 : BufferPoolManager, b1.frames = b.frames →
      (fill b1 L).flush_page (b.frames f) = (b1.flush_page (b.frames f)).map fun b => fill b L := by
    intro b1 h1
    refine fill_flush_page fun g hg => ?_
    rw [h1]
    exact hne g hg
  by_cases hid : (b.frames f).page_id ≠ INVALID_PAGE_ID
  · have hflush := hmain ((b.erase (b.frames f).page_id).remove (b.frames f).page_id) rfl
    have hout : ((fill b L).erase (b.frames f).page_id).remove (b.frames f).page_id =
        fill ((b.erase (b.frames f).page_id).remove (b.frames f).page_id) L := rfl
    simp only [if_pos hid, hout]
    generalize (b.erase (b.frames f).page_id).remove (b.frames f).page_id = b1 at hflush ⊢
    rw [hflush]
    split
    · rcases b1.flush_page (b.frames f) with e | b2 <;> rfl
    · rfl
  · have hflush := hmain b rfl
    simp only [if_neg hid]
    rw [hflush]
    split
    · rcases b.flush_page (b.frames f) with e | b2 <;> rfl
    · rfl

theorem fill_load (h : L f = false) (p : PageID) :
    (fill b L).load f p = fill (b.load f p) L := by
  unfold load
  have hset := fill_set_frame (b := { b with page_table := Function.update b.page_table p (some f) })
    h (Page.reset_memory p).inc_pin_count
  show (({ fill b L with page_table := _ } : BufferPoolManager).set_frame f _).record p = _
  exact congrArg (·.record p) hset.symm

/-- The frame of a `swap_page` is not read into, and no other frame holds the page in it. -/
def TakesFree (b : BufferPoolManager) (L : FrameID → Bool) : Prop :=
  ∀ f, b.find_next_frame.1 = some f → L f = false ∧
    ∀ g, L g = true → (b.frames g).page_id ≠ (b.frames f).page_id

theorem frames_find_next_frame (b : BufferPoolManager) :
    b.find_next_frame.2.frames = b.frames := by
  unfold find_next_frame
  split
  · rfl
  · split
    · rfl
    · split <;> rfl

theorem fill_swap_page (hfree : TakesFree b L) (p : PageID) :
    (fill b L).swap_page p false = ((b.swap_page p false).1, fill (b.swap_page p false).2 L) := by
  unfold swap_page
  rw [fill_find_next_frame]
  have hframes := frames_find_next_frame b
  unfold TakesFree at hfree
  rcases hnext : b.find_next_frame with ⟨_ | f, b1⟩
  · rfl
  rw [hnext] at hframes hfree
  obtain ⟨hf, hne⟩ := hfree f rfl
  simp only
  rw [fill_evict hf (by rw [hframes]; exact hne)]
  rcases hev : b1.evict f with ⟨e | _, b2⟩
  · rfl
  · simp only [Bool.false_eq_true, if_false]
    rw [fill_load hf]

/-- `swap_page` with the read at its end. -/
theorem swap_page_read {b' : BufferPoolManager} {p : PageID} {data : PageData}
    (h : b.swap_page p false = (.ok (some f), b')) (hr : b'.disk_manager.read_page p = .ok data) :
    b.swap_page p true = (.ok (some f), b'.set_data f data) := by
  unfold swap_page at h ⊢
  rcases hnext : b.find_next_frame with ⟨_ | g, b1⟩
  · rw [hnext] at h
    cases h
  rw [hnext] at h
  simp only at h ⊢
  rcases hev : b1.evict g with ⟨e | _, b2⟩
  · rw [hev] at h
    cases h
  rw [hev] at h
  simp only [Bool.false_eq_true, if_false, if_true] at h ⊢
  cases h
  rw [hr]

theorem swap_page_none {b' : BufferPoolManager} {p : PageID}
    (h : b.swap_page p false = (.ok none, b')) : b.swap_page p true = (.ok none, b') := by
  unfold swap_page at h ⊢
  rcases hnext : b.find_next_frame with ⟨_ | g, b1⟩
  · rw [hnext] at h
    exact h
  rw [hnext] at h
  simp only at h ⊢
  rcases hev : b1.evict g with ⟨e | _, b2⟩
  · rw [hev] at h
    cases h
  · rw [hev] at h
    cases h

/-- A read that begins is done at once in the filled pool. -/
theorem fill_latch (h : L f = false) {n : Nat} (hid : (b.frames f).page_id = some n) :
    (fill b L).set_data f (b.disk_manager.file n) = fill b (Function.update L f true) := by
  have hframes : ((fill b L).set_data f (b.disk_manager.file n)).frames =
      (fill b (Function.update L f true)).frames := by
    funext g
    simp only [set_data, set_frame, fill]
    by_cases hg : g = f
    · subst hg
      simp [h, on_disk, hid]
    · simp [Function.update_of_ne hg]
  exact congrArg (fun frames => { b with frames }) hframes

theorem fill_unpin_page {n : Nat} (h : ∀ f, b.page_table (some n) = some f → L f = false)
    (dirty : Bool) :
    (fill b L).unpin_page (some n) dirty = fill (b.unpin_page (some n) dirty) L := by
  unfold unpin_page
  rcases hc : b.page_table (some n) with _ | f
  · have hc' : (fill b L).page_table (some n) = none := hc
    rw [hc']
  · have hc' : (fill b L).page_table (some n) = some f := hc
    rw [hc']
    simp only
    rw [fill_frame (h f hc), fill_set_frame (h f hc)]

theorem fill_deallocate (p : PageID) :
    (fill b L).deallocate p = ((b.deallocate p).1, fill (b.deallocate p).2 L) := by
  have hd : (fill b L).disk_manager = b.disk_manager := rfl
  unfold deallocate
  rw [hd]
  rcases h : b.disk_manager.deallocate_page p with e | d
  · rfl
  · refine congrArg (Prod.mk _) (fill_set_disk fun g _ => on_disk_congr ?_).symm
    unfold DiskManager.deallocate_page at h
    split at h
    · cases h
    · split at h <;> cases h <;> rfl

theorem fill_delete_page {n : Nat} (h : ∀ f, b.page_table (some n) = some f → L f = false) :
    (fill b L).delete_page (some n) =
      ((b.delete_page (some n)).1, fill (b.delete_page (some n)).2 L) := by
  unfold delete_page
  rcases hc : b.page_table (some n) with _ | f
  · have hc' : (fill b L).page_table (some n) = none := hc
    rw [hc']
    exact fill_deallocate _
  · have hc' : (fill b L).page_table (some n) = some f := hc
    rw [hc']
    simp only [fill_pin_count]
    split
    · rfl
    · have hdrop : (fill b L).drop_frame (some n) f = fill (b.drop_frame (some n) f) L := by
        have hset := fill_set_frame (b := (b.erase (some n)).remove (some n)) (h f hc)
          (Page.reset_memory INVALID_PAGE_ID)
        exact congrArg (fun b : BufferPoolManager =>
          { b with free_frames_list := f :: b.free_frames_list }) hset.symm
      rw [hdrop]
      exact fill_deallocate _

theorem frames_flush_page {b2 : BufferPoolManager} {page : Page} (h : b.flush_page page = .ok b2) :
    b2.frames = b.frames := by
  unfold flush_page at h
  rcases hw : b.disk_manager.write_page page.page_id page.data with e | d
  · rw [hw] at h
    cases h
  · rw [hw] at h
    cases h
    rfl

/-- A frame that is read into is not dirty, and `flush_all` passes it by. -/
theorem fill_flush_frames (ids : List FrameID)
    (hclean : ∀ g, L g = true → (b.frames g).is_dirty = false)
    (hne : ∀ f g, L g = true → (b.frames f).is_dirty = true →
      (b.frames g).page_id ≠ (b.frames f).page_id) :
    flush_frames ids (fill b L) = ((flush_frames ids b).1, fill (flush_frames ids b).2 L) := by
  induction ids generalizing b with
  | nil => rfl
  | cons id rest ih =>
    unfold flush_frames
    rw [fill_is_dirty]
    split
    · rename_i hdirty
      have hid : L id = false := by
        by_contra hL
        rw [hclean id (by simpa using hL)] at hdirty
        cases hdirty
      rw [fill_frame hid, fill_flush_page fun g hg => hne id g hg hdirty]
      rcases hf : b.flush_page (b.frames id) with e | b2
      · rfl
      · have hframes := frames_flush_page hf
        exact ih (by rw [hframes]; exact hclean) (by rw [hframes]; exact hne)
    · exact ih hclean hne

end

/-! ## What the threads keep -/

/-- A page on its way into a frame: its reader has it pinned, and the bytes in the file are
those that were saved last. -/
structure Loading (s : FlatStore) (n f : Nat) : Prop where
  table : s.pool.page_table (some n) = some f
  pinned : 0 < s.pins n
  clean : (s.pool.frames f).is_dirty = false
  saved : ∀ data, s.stored n = some data → s.pool.disk_manager.file n = data

/-- The pool with its reads done keeps what it has to, and each latched frame is read into by
one thread. -/
structure LoadInv (s : LoadingPool) : Prop where
  settled : ThreadInv s.settled
  latched : ∀ f, s.latched f = true → ∃ t n, s.reading t = some ⟨some n, f⟩
  reading : ∀ t r, s.reading t = some r → s.latched r.frame_id = true ∧
    ∃ n, r.page_id = some n ∧ Loading s.settled.flat n r.frame_id
  alone : ∀ t u r r', s.reading t = some r → s.reading u = some r' →
    r.frame_id = r'.frame_id → t = u

/-- A delete leaves the other frames and the file as they are. -/
theorem delete_page_elsewhere {b : BufferPoolManager} {m f : Nat}
    (h : ∀ g, b.page_table (some m) = some g → f ≠ g) :
    (b.delete_page (some m)).2.frames f = b.frames f ∧
      (b.delete_page (some m)).2.disk_manager.file = b.disk_manager.file := by
  have hdealloc : ∀ b1 : BufferPoolManager, b1.frames f = b.frames f →
      b1.disk_manager = b.disk_manager → (b1.deallocate (some m)).2.frames f = b.frames f ∧
        (b1.deallocate (some m)).2.disk_manager.file = b.disk_manager.file := by
    intro b1 h1 h2
    unfold deallocate DiskManager.deallocate_page
    rw [h2]
    split
    · exact ⟨h1, congrArg DiskManager.file h2⟩
    · rename_i d hd
      refine ⟨h1, ?_⟩
      split at hd
      · cases hd
      · split at hd <;> cases hd <;> rfl
  unfold delete_page
  split
  · rename_i g hg
    split
    · exact ⟨rfl, rfl⟩
    · refine hdealloc _ ?_ rfl
      show Function.update b.frames g _ f = b.frames f
      rw [Function.update_of_ne (h g hg)]
  · exact hdealloc b rfl rfl

theorem stored_delete_page {s t : FlatStore} {n m : Nat} (hm : m ≠ n)
    (h : s.next (.delete_page m) = some t) : t.stored n = s.stored n := by
  unfold FlatStore.next at h
  simp only at h
  generalize s.pool.delete_page (some m) = r at h
  obtain ⟨e | _ | _, b⟩ := r
  all_goals cases h
  · rfl
  · rfl
  · exact Function.update_of_ne (Ne.symm hm) _ _

section
variable {s t : ThreadStore} {n m f : Nat}

/-- Another page is in another frame. -/
theorem Loading.other (L : Loading s.flat n f) (I : ThreadInv s) (hm : m ≠ n) {g : FrameID}
    (hg : s.flat.pool.page_table (some m) = some g) : f ≠ g := by
  rintro rfl
  have hid := (I.flat.inv.holds n f).mp L.table
  have := (I.flat.inv.holds m f).mp hg
  rw [hid] at this
  exact hm (Option.some.inj this).symm

theorem Loading.find (L : Loading s.flat n f) (I : ThreadInv s) {thread : Nat} (hm : m ≠ n)
    (htable : t.flat.pool.page_table (some n) = some f) (h : s.next (.find thread m) = some t) :
    Loading t.flat n f := by
  unfold ThreadStore.next at h
  simp only at h
  split at h
  swap
  · cases h
  rcases I.flat.inv.find_cached_page m with ⟨g, b, hfind, hc, _, hfr, _, hd, _⟩ | ⟨hfind, _⟩
  · rw [hfind] at h
    cases h
    refine ⟨htable, ?_, ?_, ?_⟩
    · exact Nat.lt_of_lt_of_le L.pinned (le_pinMore s.flat.pins m n)
    · show (b.frames f).is_dirty = false
      rw [hfr, Function.update_of_ne (L.other I hm hc)]
      exact L.clean
    · intro data hs
      show b.disk_manager.file n = data
      rw [hd]
      exact L.saved data hs
  · rw [hfind] at h
    cases h
    exact L

theorem Loading.allocate (L : Loading s.flat n f) {thread : Nat}
    (h : s.next (.allocate thread) = some t) : Loading t.flat n f := by
  unfold ThreadStore.next at h
  simp only at h
  split at h
  swap
  · cases h
  cases h
  refine ⟨L.table, L.pinned, L.clean, fun data hs => ?_⟩
  show s.flat.pool.allocate_page.2.disk_manager.file n = data
  rw [file_allocate_page]
  exact L.saved data hs

/-- The page of the frame is pinned, so the frame is not the one that is taken. -/
theorem Loading.swap (L : Loading s.flat n f) (I : ThreadInv s) {thread : Nat}
    (hok : ThreadsKeepPages s (.swap thread))
    (htable : t.flat.pool.page_table (some n) = some f) (h : s.next (.swap thread) = some t) :
    Loading t.flat n f := by
  have hid := (I.flat.inv.holds n f).mp L.table
  unfold ThreadStore.next at h
  simp only at h
  obtain ⟨p, hp, h⟩ := Option.bind_eq_some_iff.mp h
  obtain ⟨m, hm, ha⟩ := I.missed thread p hp
  have hu := hok p hp
  rw [hm] at hu h
  rcases I.flat.inv.swap_page I.flat.faults ha.1 p.read_from_disk
      (alone_of_uncached I.flat.inv hu) with ⟨g, b, hswap, W⟩ | ⟨hswap, _⟩
  · rw [hswap] at h
    unfold ThreadStore.swapped at h
    simp only [hm, Option.map_some, Option.some.injEq] at h
    subst h
    have hmn : n ≠ m := by
      rintro rfl
      rw [L.table] at hu
      cases hu
    have hpages : (s.flat.pool.frames g).page_id ≠ some n := by
      intro hg
      have h0 := W.unpinned n hg
      have hpos := L.pinned
      omega
    have hg : f ≠ g := fun he => hpages (he ▸ hid)
    refine ⟨htable, ?_, ?_, ?_⟩
    · exact Nat.lt_of_lt_of_le L.pinned (le_pinMore s.flat.pins m n)
    · show (b.frames f).is_dirty = false
      rw [W.frames, Function.update_of_ne hg]
      exact L.clean
    · intro data hs
      change (if p.read_from_disk then s.flat.stored
        else Function.update s.flat.stored m none) n = some data at hs
      show b.disk_manager.file n = data
      rw [W.disk]
      simp only
      rw [written_other hpages]
      refine L.saved data ?_
      split at hs
      · exact hs
      · rwa [Function.update_of_ne hmn] at hs
  · rw [hswap] at h
    cases h
    exact L

theorem Loading.write (L : Loading s.flat n f) (I : ThreadInv s) {data : PageData} (hm : m ≠ n)
    (h : s.next (.write m data) = some t) : Loading t.flat n f := by
  obtain ⟨flat, hn, rfl⟩ := Option.map_eq_some_iff.mp h
  obtain ⟨g, hg, rfl⟩ := Option.map_eq_some_iff.mp hn
  refine ⟨L.table, L.pinned, ?_, L.saved⟩
  show (Function.update s.flat.pool.frames g _ f).is_dirty = false
  rw [Function.update_of_ne (L.other I hm hg)]
  exact L.clean

theorem Loading.unpin (L : Loading s.flat n f) (I : ThreadInv s) {dirty : Bool} (hm : m ≠ n)
    (hok : ThreadsKeepPages s (.unpin m dirty))
    (htable : t.flat.pool.page_table (some n) = some f) (h : s.next (.unpin m dirty) = some t) :
    Loading t.flat n f := by
  change (s.flat.next (.unpin_page m dirty)).map (fun flat => { s with flat }) = some t at h
  obtain ⟨flat, hn, rfl⟩ := Option.map_eq_some_iff.mp h
  cases hn
  obtain ⟨g, hg, heq, _⟩ := I.flat.inv.unpin_page hok.1.1 dirty
  refine ⟨htable, ?_, ?_, ?_⟩
  · show 0 < pinLess s.flat.pins m n
    rw [pinLess_apply, if_neg (Ne.symm hm)]
    exact L.pinned
  · show ((s.flat.pool.unpin_page (some m) dirty).frames f).is_dirty = false
    rw [heq]
    show (Function.update s.flat.pool.frames g _ f).is_dirty = false
    rw [Function.update_of_ne (L.other I hm hg)]
    exact L.clean
  · intro data hs
    show (s.flat.pool.unpin_page (some m) dirty).disk_manager.file n = data
    rw [disk_unpin_page]
    refine L.saved data ?_
    simp only at hs
    split at hs
    · rwa [Function.update_of_ne (Ne.symm hm)] at hs
    · exact hs

theorem Loading.delete (L : Loading s.flat n f) (I : ThreadInv s) (hm : m ≠ n)
    (htable : t.flat.pool.page_table (some n) = some f) (h : s.next (.delete m) = some t) :
    Loading t.flat n f := by
  obtain ⟨flat, hn, rfl⟩ := Option.map_eq_some_iff.mp h
  obtain ⟨hpool, hpins⟩ := FlatStore.next_delete_page hn
  obtain ⟨hframe, hfile⟩ := delete_page_elsewhere fun g hg => L.other I hm hg
  refine ⟨htable, ?_, ?_, ?_⟩
  · rw [hpins]
    exact L.pinned
  · rw [hpool, hframe]
    exact L.clean
  · intro data hs
    rw [stored_delete_page hm hn] at hs
    rw [hpool, hfile]
    exact L.saved data hs

theorem Loading.flush_all (L : Loading s.flat n f) (I : ThreadInv s)
    (h : s.next .flush_all = some t) : Loading t.flat n f := by
  change (s.flat.next .flush_all).map (fun flat => { s with flat }) = some t at h
  obtain ⟨flat, hn, rfl⟩ := Option.map_eq_some_iff.mp h
  obtain ⟨file, hf, hfile, _⟩ := PoolInv.flushed (List.range s.flat.pool.pool_size) I.flat.inv
    I.flat.faults
  unfold FlatStore.next BufferPoolManager.flush_all at hn
  rw [hf] at hn
  cases hn
  refine ⟨L.table, L.pinned, L.clean, fun data hs => ?_⟩
  show file n = data
  rcases hfile n with hsame | ⟨g, hg, hd, _⟩
  · rw [hsame]
    exact L.saved data hs
  · rw [L.table] at hg
    cases hg
    rw [L.clean] at hd
    cases hd

/-- Sections of other pages leave a page on its way as it is. -/
theorem Loading.next (L : Loading s.flat n f) (I : ThreadInv s)
    {e : PoolSection} (hok : ThreadsKeepPages s e) (hpage : e.page ≠ some n)
    (h : s.next e = some t) : Loading t.flat n f := by
  have htable := ((threadInv_next I hok h).pinned n f L.pinned L.table).1
  have hne : ∀ m, e.page = some m → m ≠ n := by
    rintro m hm rfl
    exact hpage hm
  cases e with
  | find thread m => exact L.find I (hne m rfl) htable h
  | allocate thread => exact L.allocate h
  | swap thread => exact L.swap I hok htable h
  | write m data => exact L.write I (hne m rfl) h
  | unpin m dirty => exact L.unpin I (hne m rfl) hok htable h
  | delete m => exact L.delete I (hne m rfl) htable h
  | flush_all => exact L.flush_all I h

end

/-! ## Every step is a step of the pool with its reads done -/

theorem fill_view {b : BufferPoolManager} {L : FrameID → Bool} {n : Nat}
    (h : ∀ f, b.page_table (some n) = some f → L f = false) : view (fill b L) n = view b n := by
  unfold view
  rcases hc : b.page_table (some n) with _ | f
  · have hc' : (fill b L).page_table (some n) = none := hc
    rw [hc']
    rfl
  · have hc' : (fill b L).page_table (some n) = some f := hc
    rw [hc']
    simp only
    rw [fill_frame (h f hc)]

/-- The frames that are read into are clean, and no other frame holds their pages. -/
structure Apart (b : BufferPoolManager) (L : FrameID → Bool) : Prop where
  clean : ∀ g, L g = true → (b.frames g).is_dirty = false
  alone : ∀ f g, L g = true → L f = false → (b.frames g).page_id ≠ (b.frames f).page_id

/-- A section that is no `swap_page` does the same whether the reads are done or not. -/
theorem settle_next {s : ThreadStore} {L : FrameID → Bool} {e : PoolSection}
    (A : Apart s.flat.pool L) (hswap : ∀ thread, e ≠ .swap thread)
    (hfree : ∀ n f, e.page = some n → s.flat.pool.page_table (some n) = some f → L f = false) :
    (settle L s).next e = (s.next e).map (settle L) := by
  cases e with
  | find thread n =>
    have hfind : (settle L s).flat.pool.find_cached_page (some n) =
        ((s.flat.pool.find_cached_page (some n)).1,
          fill (s.flat.pool.find_cached_page (some n)).2 L) := fill_find_cached_page (hfree n · rfl)
    unfold ThreadStore.next
    simp only
    rw [hfind]
    by_cases hm : s.missed thread = none
    · have hm' : (settle L s).missed thread = none := hm
      rw [if_pos hm, if_pos hm']
      rcases s.flat.pool.find_cached_page (some n) with ⟨_ | f, b⟩ <;> rfl
    · have hm' : ¬ (settle L s).missed thread = none := hm
      rw [if_neg hm, if_neg hm']
      rfl
  | allocate thread =>
    have hdisk : (settle L s).flat.pool.allocate_page.2 = fill s.flat.pool.allocate_page.2 L :=
      (fill_set_disk fun _ _ => on_disk_congr (file_allocate_page s.flat.pool)).symm
    unfold ThreadStore.next
    simp only
    rw [hdisk]
    by_cases hm : s.missed thread = none
    · have hm' : (settle L s).missed thread = none := hm
      rw [if_pos hm, if_pos hm']
      rfl
    · have hm' : ¬ (settle L s).missed thread = none := hm
      rw [if_neg hm, if_neg hm']
      rfl
  | swap thread => exact absurd rfl (hswap thread)
  | write n data =>
    unfold ThreadStore.next FlatStore.next
    rcases hc : s.flat.pool.page_table (some n) with _ | f
    · have hc' : (settle L s).flat.pool.page_table (some n) = none := hc
      simp only [hc, hc', Option.map_none]
    · have hc' : (settle L s).flat.pool.page_table (some n) = some f := hc
      have hset : (fill s.flat.pool L).set_data f data = fill (s.flat.pool.set_data f data) L := by
        unfold set_data
        rw [fill_frame (hfree n f rfl hc), fill_set_frame (hfree n f rfl hc)]
      simp only [hc, hc', Option.map_some]
      unfold settle
      simp only [hset]
  | unpin n dirty =>
    have hview := fill_view (L := L) (hfree n · rfl)
    have hunpin := fill_unpin_page (L := L) (hfree n · rfl) dirty
    unfold ThreadStore.next FlatStore.next
    simp only [Option.map_some]
    unfold settle
    simp only [hview, hunpin]
  | delete n =>
    have hdel : (settle L s).flat.pool.delete_page (some n) = ((s.flat.pool.delete_page (some n)).1,
        fill (s.flat.pool.delete_page (some n)).2 L) := fill_delete_page (hfree n · rfl)
    unfold ThreadStore.next FlatStore.next
    simp only
    rw [hdel]
    rcases s.flat.pool.delete_page (some n) with ⟨e | _ | _, b⟩ <;> rfl
  | flush_all =>
    have hflush := fill_flush_frames (List.range s.flat.pool.pool_size) A.clean fun f g hg hd =>
      A.alone f g hg (by
        by_contra hf
        rw [A.clean f (by simpa using hf)] at hd
        cases hd)
    unfold ThreadStore.next FlatStore.next BufferPoolManager.flush_all
    show some (_ : ThreadStore) = some _
    refine congrArg some ?_
    unfold settle
    simp only
    have hpool : (flush_frames (List.range s.flat.pool.pool_size) (fill s.flat.pool L)).2 =
        fill (flush_frames (List.range s.flat.pool.pool_size) s.flat.pool).2 L := by rw [hflush]
    exact congrArg (fun pool => (⟨{ s.flat with pool }, s.missed⟩ : ThreadStore)) hpool

section
variable {s : LoadingPool}

theorem LoadInv.apart (I : LoadInv s) : Apart s.store.flat.pool s.latched := by
  have hpage : ∀ g, s.latched g = true → ∃ n, Loading s.settled.flat n g := by
    intro g hg
    obtain ⟨t, n, hr⟩ := I.latched g hg
    obtain ⟨_, m, _, hm⟩ := I.reading t _ hr
    exact ⟨m, hm⟩
  refine ⟨fun g hg => ?_, fun f g hg hf he => ?_⟩
  · obtain ⟨n, hn⟩ := hpage g hg
    rw [← fill_is_dirty (L := s.latched)]
    exact hn.clean
  · obtain ⟨n, hn⟩ := hpage g hg
    have hid := (I.settled.flat.inv.holds n g).mp hn.table
    have hid' : (s.settled.flat.pool.frames f).page_id = some n := by
      rw [← hid]
      show ((fill s.store.flat.pool s.latched).frames f).page_id =
        ((fill s.store.flat.pool s.latched).frames g).page_id
      rw [fill_page_id, fill_page_id, he]
    rw [I.settled.flat.inv.unique hid' hid, hg] at hf
    cases hf

/-- No thread waits for the latch of a frame while it keeps that of the pool to evict. -/
theorem LoadInv.takesFree (I : LoadInv s) : TakesFree s.store.flat.pool s.latched := by
  intro f hf
  have hfree : s.latched f = false := by
    by_contra hL
    obtain ⟨t, n, hr⟩ := I.latched f (by simpa using hL)
    obtain ⟨_, m, _, hm⟩ := I.reading t _ hr
    rcases I.settled.flat.inv.find_next_frame with ⟨g, b, hfind, N⟩ | ⟨hfind, _⟩
    · have hfg : g = f := by
        have h1 : (fill s.store.flat.pool s.latched).find_next_frame = (some g, b) := hfind
        rw [fill_find_next_frame, Prod.mk.injEq, hf] at h1
        exact (Option.some.inj h1.1).symm
      have h0 := N.unpinned m ((I.settled.flat.inv.holds m g).mp (by rw [hfg]; exact hm.table))
      have hpos := hm.pinned
      omega
    · have h1 : (fill s.store.flat.pool s.latched).find_next_frame = (none, _) := hfind
      rw [fill_find_next_frame, Prod.mk.injEq, hf] at h1
      cases h1.1
  exact ⟨hfree, fun g hg => I.apart.alone f g hg hfree⟩

/-! ## What one step keeps -/

/-- The page that a step gives to its thread, and its frame: a page that was found, a new
page, or a page that was read. -/
def LoadingPool.gives (s : LoadingPool) : LoadEvent → Option (FrameID × Nat)
  | .enter sec =>
    match sec with
    | .swap thread => (s.store.missed thread).bind fun p =>
        if p.read_from_disk then none else s.store.gives (.swap thread)
    | sec => s.store.gives sec
  | .load thread => (s.reading thread).bind fun r => r.page_id.map fun n => (r.frame_id, n)

/-- A step keeps the invariant, is a step of the pool with its reads done or does not show
there, and gives a page with the bytes that were saved. -/
structure Simulated (s : LoadingPool) (e : LoadEvent) (t : LoadingPool) : Prop where
  inv : LoadInv t
  step : t.settled = s.settled ∨
    ∃ sec, ThreadsKeepPages s.settled sec ∧ s.settled.next sec = some t.settled
  gives : ∀ f n, s.gives e = some (f, n) → GivesSaved t.store f n

theorem GivesSaved.of_settle {s : ThreadStore} {L : FrameID → Bool} {f n : Nat}
    (h : GivesSaved (settle L s) f n) (hf : L f = false) : GivesSaved s f n := by
  unfold GivesSaved settle at h
  simp only [fill_frame hf] at h
  exact h

theorem threadsKeepPages_settle {s : ThreadStore} {L : FrameID → Bool} {sec : PoolSection}
    (h : ThreadsKeepPages s sec) : ThreadsKeepPages (settle L s) sec := by
  cases sec <;> exact h

theorem LoadingPool.next_enter {sec : PoolSection} (h : s.may_enter sec = true)
    (hswap : ∀ thread, sec ≠ .swap thread) :
    s.next (.enter sec) = (s.store.next sec).map fun store => { s with store } := by
  cases sec with
  | swap thread => exact absurd rfl (hswap thread)
  | find | allocate | write | unpin | delete | flush_all =>
    unfold next
    simp only [h, if_true]

theorem LoadingPool.gives_enter {sec : PoolSection} (hswap : ∀ thread, sec ≠ .swap thread) :
    s.gives (.enter sec) = s.store.gives sec := by
  cases sec with
  | swap thread => exact absurd rfl (hswap thread)
  | find | allocate | write | unpin | delete | flush_all => rfl

theorem LoadingPool.may_enter_of_next {sec : PoolSection} {t : LoadingPool}
    (h : s.next (.enter sec) = some t) : s.may_enter sec = true := by
  unfold next at h
  simp only at h
  split at h
  · rename_i hmay
    exact hmay
  · cases h

/-- A page whose latch is free is in no frame that is read into. -/
theorem LoadingPool.unlatched {sec : PoolSection} (h : s.may_enter sec = true) {n f : Nat}
    (hpage : sec.page = some n) (hc : s.store.flat.pool.page_table (some n) = some f) :
    s.latched f = false := by
  unfold may_enter free at h
  rw [hpage, Bool.and_eq_true, Option.all_some, hc] at h
  simpa using h.1

/-- The sections that are no `swap_page`. -/
theorem LoadInv.enter (I : LoadInv s) {sec : PoolSection} (hswap : ∀ thread, sec ≠ .swap thread)
    (hok : ThreadsKeepPages s.store sec) {t : LoadingPool} (h : s.next (.enter sec) = some t) :
    Simulated s (.enter sec) t := by
  have hmay := LoadingPool.may_enter_of_next h
  rw [LoadingPool.next_enter hmay hswap] at h
  obtain ⟨store, hn, rfl⟩ := Option.map_eq_some_iff.mp h
  have hfree : ∀ n f, sec.page = some n → s.store.flat.pool.page_table (some n) = some f →
      s.latched f = false := fun n f hpage hc => LoadingPool.unlatched hmay hpage hc
  have hok' : ThreadsKeepPages s.settled sec := threadsKeepPages_settle hok
  have hstep : s.settled.next sec = some (settle s.latched store) := by
    have := settle_next I.apart hswap hfree
    rw [hn] at this
    exact this
  have K := threadInv_next I.settled hok' hstep
  refine ⟨⟨K.inv, I.latched, fun t r hr => ?_, I.alone⟩, Or.inr ⟨sec, hok', hstep⟩, ?_⟩
  · obtain ⟨hL, n, hid, hload⟩ := I.reading t r hr
    refine ⟨hL, n, hid, hload.next I.settled hok' (fun hpage => ?_) hstep⟩
    rw [hfree n r.frame_id hpage hload.table] at hL
    cases hL
  · intro f n hg
    rw [LoadingPool.gives_enter hswap] at hg
    have hg' : s.settled.gives sec = some (f, n) := by
      cases sec with
      | swap thread => exact absurd rfl (hswap thread)
      | find | allocate | write | unpin | delete | flush_all => exact hg
    refine (K.gives f n hg').of_settle ?_
    cases sec with
    | find thread m =>
      obtain ⟨g, hc, heq⟩ := Option.map_eq_some_iff.mp hg
      cases heq
      exact hfree n f rfl hc
    | swap thread => exact absurd rfl (hswap thread)
    | allocate | write | unpin | delete | flush_all => cases hg

/-- A page that comes into a frame without its bytes is on its way, if it is to be read. -/
theorem loading_of_swapped {s : ThreadStore} (I : ThreadInv s) {b : BufferPoolManager} {n f : Nat}
    (W : Swapped s.flat.pool b s.flat.pins n f true) (hu : s.flat.pool.page_table (some n) = none) :
    Loading (s.flat.brought b n s.flat.stored) n f := by
  refine ⟨W.cached, ?_, ?_, fun data hs => ?_⟩
  · show 0 < pinMore s.flat.pins n n
    rw [pinMore_apply, if_pos rfl]
    omega
  · show (b.frames f).is_dirty = false
    rw [W.frames, Function.update_self]
  · have hv := I.flat.stored n data hs W.fresh
    rw [view_uncached hu] at hv
    show b.disk_manager.file n = data
    rw [W.disk, ← hv]
    exact written_other (I.flat.inv.uncached hu f)

theorem LoadInv.other (I : LoadInv s) {thread : Nat} (hok : ThreadsKeepPages s.settled (.swap thread))
    {t : ThreadStore} (hstep : s.settled.next (.swap thread) = some t) {u : Nat} {r : Read}
    (hr : s.reading u = some r) : ∃ n, r.page_id = some n ∧ Loading t.flat n r.frame_id := by
  obtain ⟨_, n, hid, hload⟩ := I.reading u r hr
  have hpage : (PoolSection.swap thread).page ≠ some n := by
    intro h
    cases h
  exact ⟨n, hid, hload.next I.settled hok hpage hstep⟩

/-- `swap_page` with no read, or without a frame. -/
theorem LoadInv.swap_same (I : LoadInv s) {thread : Nat}
    (hok : ThreadsKeepPages s.settled (.swap thread)) {store : ThreadStore}
    (hstep : s.settled.next (.swap thread) = some (settle s.latched store))
    (hgives : ∀ f n, s.gives (.enter (.swap thread)) = some (f, n) →
      s.settled.gives (.swap thread) = some (f, n) ∧ s.latched f = false) :
    Simulated s (.enter (.swap thread)) { s with store } := by
  have K := threadInv_next I.settled hok hstep
  refine ⟨⟨K.inv, I.latched, fun u r hr => ⟨(I.reading u r hr).1, I.other hok hstep hr⟩, I.alone⟩,
    Or.inr ⟨_, hok, hstep⟩, fun f n hg => ?_⟩
  obtain ⟨hg', hf⟩ := hgives f n hg
  exact (K.gives f n hg').of_settle hf

/-- `swap_page` up to the read of its page. -/
theorem LoadInv.swap_read (I : LoadInv s) {thread : Nat} (hidle : s.reading thread = none)
    (hok : ThreadsKeepPages s.settled (.swap thread)) {store : ThreadStore} {n f : Nat}
    (hf : s.latched f = false)
    (hstep : s.settled.next (.swap thread) = some (settle (Function.update s.latched f true) store))
    (hload : Loading (settle (Function.update s.latched f true) store).flat n f)
    (hgives : s.gives (.enter (.swap thread)) = none) :
    Simulated s (.enter (.swap thread)) ⟨store, Function.update s.reading thread (some ⟨some n, f⟩),
      Function.update s.latched f true⟩ := by
  have K := threadInv_next I.settled hok hstep
  have hold : ∀ u r, u ≠ thread → Function.update s.reading thread (some ⟨some n, f⟩) u = some r →
      s.reading u = some r ∧ r.frame_id ≠ f := by
    intro u r hu hr
    rw [Function.update_of_ne hu] at hr
    refine ⟨hr, fun he => ?_⟩
    have hL := (I.reading u r hr).1
    rw [he, hf] at hL
    cases hL
  refine ⟨⟨K.inv, fun g hg => ?_, fun u r hr => ?_, fun u v r r' hr hr' he => ?_⟩,
    Or.inr ⟨_, hok, hstep⟩, fun g m hg => ?_⟩
  · simp only at hg ⊢
    by_cases hgf : g = f
    · exact ⟨thread, n, by rw [hgf, Function.update_self]⟩
    · rw [Function.update_of_ne hgf] at hg
      obtain ⟨u, m, hu⟩ := I.latched g hg
      refine ⟨u, m, ?_⟩
      have hne : u ≠ thread := by
        rintro rfl
        rw [hidle] at hu
        cases hu
      rw [Function.update_of_ne hne, hu]
  · simp only at hr ⊢
    by_cases hu : u = thread
    · subst hu
      rw [Function.update_self] at hr
      cases hr
      exact ⟨Function.update_self .., n, rfl, hload⟩
    · obtain ⟨hr, hne⟩ := hold u r hu hr
      refine ⟨?_, I.other hok hstep hr⟩
      rw [Function.update_of_ne hne]
      exact (I.reading u r hr).1
  · simp only at hr hr'
    by_cases hu : u = thread
    · by_cases hv : v = thread
      · rw [hu, hv]
      · obtain ⟨_, hne⟩ := hold v r' hv hr'
        rw [hu, Function.update_self] at hr
        cases hr
        exact absurd he.symm hne
    · obtain ⟨hr, hne⟩ := hold u r hu hr
      by_cases hv : v = thread
      · rw [hv, Function.update_self] at hr'
        cases hr'
        exact absurd he hne
      · exact I.alone u v r r' hr (hold v r' hv hr').1 he
  · rw [hgives] at hg
    cases hg

theorem LoadInv.swap (I : LoadInv s) {thread : Nat} (hok : ThreadsKeepPages s.store (.swap thread))
    {t : LoadingPool} (h : s.next (.enter (.swap thread)) = some t) :
    Simulated s (.enter (.swap thread)) t := by
  have hmay := LoadingPool.may_enter_of_next h
  have hidle : s.reading thread = none := by
    unfold LoadingPool.may_enter at hmay
    simpa [PoolSection.page, PoolSection.thread] using hmay
  unfold LoadingPool.next at h
  simp only [hmay, if_true] at h
  obtain ⟨p, hp, h⟩ := Option.bind_eq_some_iff.mp h
  have hok' : ThreadsKeepPages s.settled (.swap thread) := threadsKeepPages_settle hok
  obtain ⟨n, hid, ha⟩ := I.settled.missed thread p hp
  have hu : s.settled.flat.pool.page_table (some n) = none := by
    rw [← hid]
    exact hok p hp
  have alone := alone_of_uncached I.settled.flat.inv hu
  have hnext : s.settled.next (.swap thread) = s.settled.swapped thread p
      ((fill s.store.flat.pool s.latched).swap_page (some n) p.read_from_disk) := by
    rw [← hid]
    unfold ThreadStore.next
    show (s.store.missed thread).bind _ = _
    rw [hp]
    rfl
  have hfill := fill_swap_page I.takesFree (some n)
  rcases hr : s.store.flat.pool.swap_page (some n) false with ⟨r, b⟩
  rw [hr] at hfill
  unfold LoadingPool.swap at h
  rw [hid, hr] at h
  rcases I.settled.flat.inv.swap_page I.settled.flat.faults ha.1 false alone with
    ⟨f, b1, hswap, W⟩ | ⟨hswap, _⟩
  · have hpair : (r, fill b s.latched) = (.ok (some f), b1) := hfill.symm.trans hswap
    cases hpair
    have hf : s.latched f = false := by
      have hfind : (fill s.store.flat.pool s.latched).find_next_frame.1 = some f := W.next
      rw [fill_find_next_frame] at hfind
      exact (I.takesFree f hfind).1
    unfold ThreadStore.swapped at h
    simp only [hid, Option.map_some, Option.some.injEq] at h
    subst h
    rcases hrd : p.read_from_disk with _ | _
    · have hstep := hnext
      rw [hrd, hfill] at hstep
      unfold ThreadStore.swapped at hstep
      simp only [hid, Option.map_some, hrd] at hstep
      unfold LoadingPool.begin_read
      simp only [hrd, Bool.false_eq_true, if_false]
      refine I.swap_same hok' hstep fun g m hg => ?_
      unfold LoadingPool.gives ThreadStore.gives at hg
      simp only [hp, Option.bind_some, hrd, Bool.false_eq_true, if_false, hid, hr] at hg
      cases hg
      refine ⟨?_, hf⟩
      unfold ThreadStore.gives
      show (s.store.missed thread).bind _ = _
      rw [hp]
      simp only [Option.bind_some, hid, hrd]
      rw [show s.settled.flat.pool.swap_page (some n) false = _ from hfill]
      rfl
    · have hread : b.disk_manager.read_page (some n) = .ok (b.disk_manager.file n) := by
        have hdisk : b.disk_manager = { s.store.flat.pool.disk_manager with
            file := written (fill s.store.flat.pool s.latched) f } := W.disk
        have hlt : n < s.store.flat.pool.disk_manager.capacity := ha.1
        have hpread : s.store.flat.pool.disk_manager.pread_fails n = false :=
          I.settled.flat.faults.pread n
        unfold DiskManager.read_page
        rw [hdisk]
        simp only
        rw [if_neg (by omega), hpread]
        rfl
      have hpage : (b.frames f).page_id = some n := by
        rw [← fill_page_id (L := s.latched)]
        exact W.page_id
      have hswap' : (fill s.store.flat.pool s.latched).swap_page (some n) true =
          (.ok (some f), fill b (Function.update s.latched f true)) := by
        rw [swap_page_read hfill hread]
        exact congrArg (Prod.mk _) (fill_latch hf hpage)
      have hstep := hnext
      rw [hrd, hswap'] at hstep
      unfold ThreadStore.swapped at hstep
      simp only [hid, Option.map_some, hrd, if_true] at hstep
      unfold LoadingPool.begin_read
      simp only [hrd, if_true, hid]
      refine I.swap_read hidle hok' hf hstep ?_ ?_
      · rcases I.settled.flat.inv.swap_page I.settled.flat.faults ha.1 true alone with
          ⟨g, b2, hg, W'⟩ | ⟨hg, _⟩
        · cases hswap'.symm.trans hg
          exact loading_of_swapped I.settled W' hu
        · cases hswap'.symm.trans hg
      · unfold LoadingPool.gives
        simp only [hp, Option.bind_some, hrd, if_true]
  · have hpair : (r, fill b s.latched) = (.ok none, s.settled.flat.pool) := hfill.symm.trans hswap
    obtain rfl : r = .ok none := congrArg Prod.fst hpair
    have hswap' : (fill s.store.flat.pool s.latched).swap_page (some n) p.read_from_disk =
        (.ok none, fill b s.latched) := by
      rcases p.read_from_disk with _ | _
      · exact hfill
      · exact swap_page_none hfill
    rw [hswap'] at hnext
    unfold ThreadStore.swapped at h hnext
    simp only [Option.map_some, Option.some.injEq] at h hnext
    subst h
    refine I.swap_same hok' hnext fun g m hg => ?_
    unfold LoadingPool.gives ThreadStore.gives at hg
    simp only [hp, Option.bind_some, hid] at hg
    split at hg
    · cases hg
    · rename_i hrd
      rw [Bool.not_eq_true] at hrd
      rw [hrd, hr] at hg
      cases hg

/-- The end of a read does not show in the pool whose reads are done. -/
theorem LoadInv.load (I : LoadInv s) {thread : Nat} {t : LoadingPool}
    (h : s.next (.load thread) = some t) : Simulated s (.load thread) t := by
  obtain ⟨r, hr, rfl⟩ := Option.map_eq_some_iff.mp h
  obtain ⟨hL, n, hid, hload⟩ := I.reading thread r hr
  have hpage : (s.store.flat.pool.frames r.frame_id).page_id = some n := by
    rw [← fill_page_id (L := s.latched)]
    exact (I.settled.flat.inv.holds n r.frame_id).mp hload.table
  have hread : s.read r = s.store.flat.pool.set_data r.frame_id
      (s.store.flat.pool.disk_manager.file n) := by
    have hlt : n < s.store.flat.pool.disk_manager.capacity :=
      I.settled.flat.inv.known n r.frame_id hload.table
    have hpread : s.store.flat.pool.disk_manager.pread_fails n = false :=
      I.settled.flat.faults.pread n
    unfold LoadingPool.read DiskManager.read_page
    rw [hid]
    simp only
    rw [if_neg (by omega), hpread]
    rfl
  have hfill : fill (s.read r) (Function.update s.latched r.frame_id false) =
      fill s.store.flat.pool s.latched := by
    rw [hread]
    have hframes : (fill (s.store.flat.pool.set_data r.frame_id
        (s.store.flat.pool.disk_manager.file n))
        (Function.update s.latched r.frame_id false)).frames =
        (fill s.store.flat.pool s.latched).frames := by
      funext g
      simp only [set_data, set_frame, fill]
      by_cases hg : g = r.frame_id
      · subst hg
        simp [hL, on_disk, hpage]
      · simp [Function.update_of_ne hg]
    exact congrArg (fun frames => { s.store.flat.pool with frames }) hframes
  have hsame : (s.end_read thread r).settled = s.settled := by
    unfold LoadingPool.settled LoadingPool.end_read settle
    simp only
    rw [hfill]
  have hold : ∀ u r', Function.update s.reading thread none u = some r' →
      s.reading u = some r' ∧ r'.frame_id ≠ r.frame_id := by
    intro u r' hu
    have hne : u ≠ thread := by
      rintro rfl
      rw [Function.update_self] at hu
      cases hu
    rw [Function.update_of_ne hne] at hu
    exact ⟨hu, fun he => hne (I.alone u thread r' r hu hr he)⟩
  refine ⟨⟨by rw [hsame]; exact I.settled, fun g hg => ?_, fun u r' hu => ?_,
    fun u v r1 r2 h1 h2 he => ?_⟩, Or.inl hsame, fun f m hg => ?_⟩
  · change Function.update s.latched r.frame_id false g = true at hg
    have hne : g ≠ r.frame_id := by
      rintro rfl
      rw [Function.update_self] at hg
      cases hg
    rw [Function.update_of_ne hne] at hg
    obtain ⟨u, m, hu⟩ := I.latched g hg
    refine ⟨u, m, ?_⟩
    have hthread : u ≠ thread := by
      rintro rfl
      rw [hr] at hu
      cases hu
      exact hne rfl
    show Function.update s.reading thread none u = _
    rw [Function.update_of_ne hthread, hu]
  · obtain ⟨hu, hne⟩ := hold u r' hu
    obtain ⟨hL', hload'⟩ := I.reading u r' hu
    refine ⟨?_, by rw [hsame]; exact hload'⟩
    show Function.update s.latched r.frame_id false r'.frame_id = true
    rw [Function.update_of_ne hne, hL']
  · exact I.alone u v r1 r2 (hold u r1 h1).1 (hold v r2 h2).1 he
  · unfold LoadingPool.gives at hg
    simp only [hr, Option.bind_some, hid, Option.map_some] at hg
    cases hg
    show GivesSaved ⟨{ s.store.flat with pool := s.read r }, s.store.missed⟩ r.frame_id n
    rw [hread]
    have hframe : (s.store.flat.pool.set_data r.frame_id
        (s.store.flat.pool.disk_manager.file n)).frames r.frame_id =
        { s.store.flat.pool.frames r.frame_id with data := s.store.flat.pool.disk_manager.file n } :=
      Function.update_self ..
    refine ⟨hload.table, ?_, fun _ data hs => ?_⟩
    · simp only [hframe]
      exact hpage
    · simp only [hframe]
      exact hload.saved data hs

/-- One step of any thread. -/
theorem loadInv_next (I : LoadInv s) {e : LoadEvent} (hok : LoadersKeepPages s e)
    {t : LoadingPool} (h : s.next e = some t) : Simulated s e t := by
  cases e with
  | enter sec =>
    by_cases hswap : ∃ thread, sec = .swap thread
    · obtain ⟨thread, rfl⟩ := hswap
      exact I.swap hok h
    · exact I.enter (fun thread he => hswap ⟨thread, he⟩) hok h
  | load thread => exact I.load h

theorem settled_start (h : loadMachine.start s) : threadMachine.start s.settled := by
  obtain ⟨hs, _, hL⟩ := h
  have hsame : s.settled = s.store := by
    unfold LoadingPool.settled settle fill
    rw [hL]
    rfl
  rw [hsame]
  exact hs

theorem loadInv_start (h : loadMachine.start s) : LoadInv s := by
  refine ⟨threadInv_start (settled_start h), fun f hf => ?_, fun t r hr => ?_,
    fun t u r r' hr _ _ => ?_⟩
  · rw [h.2.2] at hf
    cases hf
  · rw [h.2.1] at hr
    cases hr
  · rw [h.2.1] at hr
    cases hr

theorem loadInv_reach (h : loadMachine.Reach LoadersKeepPages s) : LoadInv s :=
  h.invariant (fun _ h0 => loadInv_start h0) fun _ _ _ I hok hn => (loadInv_next I hok hn).inv

/-! ## The laws -/

/-- The frames of the pool are those of the pool with its reads done, but for the bytes that
are still on their way, and a page that is brought in takes a frame whose latch is free. -/
def LooksSettled (s : LoadingPool) : Prop :=
  threadMachine.Reach ThreadsKeepPages s.settled ∧
  (∀ f, s.latched f = false → s.store.flat.pool.frames f = s.settled.flat.pool.frames f) ∧
  ∀ f, s.store.flat.pool.find_next_frame.1 = some f → s.latched f = false

/-- Reading pages outside of the latch of the pool is like reading them inside. -/
theorem reads_outside_the_latch_look_instant (h : loadMachine.Reach LoadersKeepPages s) :
    LooksSettled s := by
  refine ⟨?_, fun f hf => (fill_frame hf).symm, fun f hf => ((loadInv_reach h).takesFree f hf).1⟩
  exact h.map LoadingPool.settled (fun _ hr => loadInv_reach hr) (fun _ h0 => settled_start h0)
    fun _ _ _ I hok hn => (loadInv_next I hok hn).step

/-- A thread gets a page with the bytes it had at its last unpin, when nobody else holds it,
and a pinned page stays in its frame. -/
def ReadsSaved (s : LoadingPool) : Prop :=
  ∀ e t, LoadersKeepPages s e → LoadsFitWords s e → loadMachine.next s e = some t →
    (∀ f n, s.gives e = some (f, n) → GivesSaved t.store f n) ∧
      KeepsPinned s.store.flat t.store.flat

theorem threads_read_what_was_saved
    (h : loadMachine.Reach (fun s e => LoadersKeepPages s e ∧ LoadsFitWords s e) s) :
    ReadsSaved s := by
  intro e t hok _ hn
  have I := loadInv_reach (h.mono fun _ _ hk => hk.1)
  have S := loadInv_next I hok hn
  refine ⟨S.gives, fun n f hpos hc => ?_⟩
  have hpinned : KeepsPinned s.settled.flat t.settled.flat := by
    rcases S.step with hsame | ⟨sec, hsec, hstep⟩
    · rw [hsame]
      exact keepsPinned_refl I.settled.flat
    · exact (threadInv_next I.settled hsec hstep).pinned
  obtain ⟨htable, hid⟩ := hpinned n f hpos hc
  refine ⟨htable, ?_⟩
  rw [← fill_page_id (L := t.latched)]
  exact hid

end

/-! ## A read that other threads go past -/

/-- A check of the rules, for calls that delete nothing, and of the words. -/
def keeps_pages (s : LoadingPool) : LoadEvent → Bool
  | .enter sec =>
    match sec with
    | .find _ n => decide (Allocated s.store.flat.pool.disk_manager n ∧
        FitsWords s.store.flat (.fetch_page n))
    | .allocate _ => decide (FitsWords s.store.flat .new_page)
    | .swap thread => (s.store.missed thread).all fun p =>
        (s.store.flat.pool.page_table p.page_id).isNone &&
          p.page_id.all fun n => decide (FitsWords s.store.flat (.fetch_page n))
    | .write n data => decide (CallersKeepPages s.store.flat (.write n data))
    | .unpin n dirty => decide (CallersKeepPages s.store.flat (.unpin_page n dirty))
    | .flush_all => true
    | .delete _ => false
  | .load _ => true

theorem keepsPages_of_check (s : LoadingPool) (e : LoadEvent) (h : keeps_pages s e = true) :
    LoadersKeepPages s e ∧ LoadsFitWords s e := by
  cases e with
  | load thread => exact ⟨trivial, trivial⟩
  | enter sec =>
    cases sec with
    | find _ n =>
      exact of_decide_eq_true (p := Allocated s.store.flat.pool.disk_manager n ∧
        FitsWords s.store.flat (.fetch_page n)) h
    | allocate _ => exact ⟨trivial, of_decide_eq_true (p := FitsWords s.store.flat .new_page) h⟩
    | swap thread =>
      unfold keeps_pages at h
      simp only at h
      refine ⟨fun p hp => ?_, fun p n hp hid => ?_⟩
      · simp only [hp, Option.all_some, Bool.and_eq_true, Option.isNone_iff_eq_none] at h
        exact h.1
      · simp only [hp, hid, Option.all_some, Bool.and_eq_true, decide_eq_true_eq] at h
        exact h.2
    | write n data =>
      exact ⟨of_decide_eq_true (p := CallersKeepPages s.store.flat (.write n data)) h, trivial⟩
    | unpin n dirty =>
      exact ⟨of_decide_eq_true (p := CallersKeepPages s.store.flat (.unpin_page n dirty)) h, trivial⟩
    | delete n => cases h
    | flush_all => exact ⟨trivial, trivial⟩

/-- An empty pool of two frames, and no thread in a call. -/
def idle_pool : LoadingPool := ⟨⟨new_pool 2, fun _ => none⟩, fun _ => none, fun _ => false⟩

/-- Page 1 is saved and evicted. One thread brings it back, and before its bytes are there
another one finds page 3. -/
def read_in_progress : List LoadEvent :=
  [.enter (.allocate 0), .enter (.swap 0), .enter (.write 1 sevenSlots), .enter (.unpin 1 true),
    .enter (.allocate 0), .enter (.swap 0), .enter (.unpin 2 true),
    .enter (.allocate 1), .enter (.swap 1), .enter (.unpin 3 true),
    .enter (.find 0 1), .enter (.swap 0), .enter (.find 1 3)]

/-- What the pool is then. -/
def reads_page_1 (s : LoadingPool) : Bool :=
  s.gives (.load 0) == some (1, 1) && s.latched 1 && (s.reading 0).isSome &&
    s.store.flat.pins 1 == 1 && (s.store.flat.stored 1).any (fun d => d.header.slot_count == 7) &&
    (s.store.flat.pool.frames 1).data.header.slot_count == 0

theorem read_in_progress_reaches :
    ∃ s, loadMachine.Reach (fun s e => LoadersKeepPages s e ∧ LoadsFitWords s e) s ∧
      reads_page_1 s = true := by
  obtain ⟨s, hr, hs⟩ := Machine.run_of_execIf_check (m := loadMachine) keepsPages_of_check
    (s := idle_pool) (l := read_in_progress) (p := reads_page_1) (by decide +kernel)
  exact ⟨s, Machine.Reach.run (.start ⟨⟨new_pool_starts 2, rfl⟩, rfl, rfl⟩) hr, hs⟩

theorem a_read_in_progress_looks_done : ∃ s, s.latched 1 = true ∧ LooksSettled s := by
  obtain ⟨s, h, hs⟩ := read_in_progress_reaches
  unfold reads_page_1 at hs
  simp only [Bool.and_eq_true] at hs
  exact ⟨s, hs.1.1.1.1.2, reads_outside_the_latch_look_instant (h.mono fun _ _ hk => hk.1)⟩

/-- Before the read the frame has no slots, and after it the seven that were saved. -/
theorem a_thread_reads_the_seven_slots : ∃ s t, loadMachine.next s (.load 0) = some t ∧
    (s.store.flat.pool.frames 1).data.header.slot_count = 0 ∧
    (t.store.flat.pool.frames 1).data.header.slot_count = 7 := by
  obtain ⟨s, h, hs⟩ := read_in_progress_reaches
  unfold reads_page_1 at hs
  simp only [Bool.and_eq_true, beq_iff_eq] at hs
  obtain ⟨⟨⟨⟨⟨hgives, _⟩, hreading⟩, hpins⟩, hstored⟩, hzero⟩ := hs
  obtain ⟨r, hr⟩ := Option.isSome_iff_exists.mp hreading
  obtain ⟨d, hd, h7⟩ := (Option.any_eq_true _ _).mp hstored
  have hn : loadMachine.next s (.load 0) = some (s.end_read 0 r) := by
    show (s.reading 0).map (s.end_read 0) = _
    rw [hr]
    rfl
  refine ⟨s, s.end_read 0 r, hn, hzero, ?_⟩
  have hsaved := (threads_read_what_was_saved h (.load 0) _ trivial trivial hn).1 1 1 hgives
  rw [hsaved.2.2 hpins d hd]
  exact beq_iff_eq.mp h7

end duck.buffer_pool
