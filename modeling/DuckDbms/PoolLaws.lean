-- The laws of the buffer pool: the page table, the frames and the pins tell
-- one story, and each call keeps it that way as long as no page comes into
-- two frames.
import DuckDbms.BufferPool
import Mathlib.Data.List.Basic

open duck.slotted_page duck.disk_manager

namespace duck.buffer_pool

open BufferPoolManager

/-- The system reads and writes what it is asked to. -/
structure NoFaults (d : DiskManager) : Prop where
  pread : ∀ n, d.pread_fails n = false
  pwrite : ∀ n, d.pwrite_fails n = false

/-- The page table, the frames, the free frames, the replacer and the pins agree. `pins`
counts, page by page, the pins that callers still hold. -/
structure PoolInv (b : BufferPoolManager) (pins : Nat → Nat) : Prop where
  table_invalid : b.page_table INVALID_PAGE_ID = none
  holds : ∀ n f, b.page_table (some n) = some f ↔ (b.frames f).page_id = some n
  pinned : ∀ n f, (b.frames f).page_id = some n → (b.frames f).pin_count = pins n
  absent : ∀ n, b.page_table (some n) = none → pins n = 0
  empty : ∀ f, (b.frames f).page_id = none →
    (b.frames f).pin_count = 0 ∧ (b.frames f).is_dirty = false
  used : ∀ n (f : Nat), (b.frames f).page_id = some n → f < b.pool_size
  size_le : b.pool_size ≤ b.pool_capacity
  free_nodup : b.free_frames_list.Nodup
  free : ∀ f : Nat, f ∈ b.free_frames_list ↔ f < b.pool_size ∧ (b.frames f).page_id = none
  mru : ∀ p, p ∈ b.mru_pages ↔ (b.page_table p).isSome
  known : ∀ n f, b.page_table (some n) = some f → n < b.disk_manager.capacity

section
variable {b : BufferPoolManager} {pins : Nat → Nat}

theorem poolInv_make (d : DiskManager) (k : Nat) : PoolInv (.make d k) fun _ => 0 := by
  constructor <;> simp [make, Page.reset_memory, INVALID_PAGE_ID]

/-- A page is in one frame at most. -/
theorem PoolInv.unique (I : PoolInv b pins) {n f g : Nat} (hf : (b.frames f).page_id = some n)
    (hg : (b.frames g).page_id = some n) : f = g := by
  have h1 := (I.holds n f).mpr hf
  have h2 := (I.holds n g).mpr hg
  rw [h1] at h2
  exact Option.some.inj h2

theorem PoolInv.uncached (I : PoolInv b pins) {n : Nat} (h : b.page_table (some n) = none)
    (f : FrameID) : (b.frames f).page_id ≠ some n := by
  intro hf
  rw [(I.holds n f).mpr hf] at h
  cases h

theorem PoolInv.cached_of_pins (I : PoolInv b pins) {n : Nat} (h : 0 < pins n) :
    ∃ f, b.page_table (some n) = some f := by
  rcases hc : b.page_table (some n) with _ | f
  · have := I.absent n hc
    omega
  · exact ⟨f, rfl⟩

/-- A page that somebody holds stands in a frame, with the pins of its holders. -/
theorem PoolInv.pin_count_eq (I : PoolInv b pins) {n f : Nat}
    (h : b.page_table (some n) = some f) : (b.frames f).pin_count = pins n :=
  I.pinned n f ((I.holds n f).mp h)

/-! ## The frame for a page -/

theorem find_lru_some {p : Nat} (h : b.find_lru = some p) :
    ∃ f, b.page_table (some p) = some f ∧ (b.frames f).pin_count = 0 := by
  unfold find_lru at h
  have h1 := List.find?_some (Option.join_eq_some_iff.mp h)
  unfold evictable at h1
  split at h1
  · rename_i f hf
    exact ⟨f, hf, by simpa using h1⟩
  · cases h1

theorem PoolInv.find_lru_none (I : PoolInv b pins) (h : b.find_lru = none) {n f : Nat}
    (hf : b.page_table (some n) = some f) : pins n ≠ 0 := by
  intro h0
  unfold find_lru at h
  have hev : b.evictable (some n) = true := by
    unfold evictable
    rw [hf]
    simp [I.pin_count_eq hf, h0]
  rcases hfind : b.mru_pages.find? b.evictable with _ | p
  · have := List.find?_eq_none.mp hfind (some n) ((I.mru _).mpr (by rw [hf]; rfl))
    exact this hev
  · rw [hfind] at h
    -- the page that the search finds is a cached one
    have hp : p = none := h
    have h1 := List.find?_some hfind
    rw [hp] at h1
    unfold evictable at h1
    rw [show b.page_table none = none from I.table_invalid] at h1
    cases h1

/-- The frame that `find_next_frame` gives: it is empty, or it holds a page that nobody
has pinned. -/
structure NextFrame (b b' : BufferPoolManager) (pins : Nat → Nat) (f : Nat) : Prop where
  frames : b'.frames = b.frames
  table : b'.page_table = b.page_table
  mru : b'.mru_pages = b.mru_pages
  disk : b'.disk_manager = b.disk_manager
  capacity : b'.pool_capacity = b.pool_capacity
  size_ge : b.pool_size ≤ b'.pool_size
  size_le : b'.pool_size ≤ b.pool_capacity
  lt : f < b'.pool_size
  unpinned : ∀ n, (b.frames f).page_id = some n → pins n = 0
  free_nodup : b'.free_frames_list.Nodup
  free : ∀ g : Nat, g ∈ b'.free_frames_list ↔ g < b'.pool_size ∧ (b.frames g).page_id = none ∧ g ≠ f
  /-- A page leaves its frame only when the pool is full. -/
  victim : ∀ n, (b.frames f).page_id = some n →
    b.free_frames_list = [] ∧ b.pool_size = b.pool_capacity

theorem PoolInv.find_next_frame (I : PoolInv b pins) :
    (∃ f b', b.find_next_frame = (some f, b') ∧ NextFrame b b' pins f) ∨
    (b.find_next_frame = (none, b) ∧ b.free_frames_list = [] ∧ b.pool_size = b.pool_capacity ∧
      ∀ n f, b.page_table (some n) = some f → pins n ≠ 0) := by
  unfold BufferPoolManager.find_next_frame
  have hcap := I.size_le
  split
  · rename_i f rest hfree
    have hf := (I.free f).mp (by simp [hfree])
    have hnd := I.free_nodup
    rw [hfree, List.nodup_cons] at hnd
    refine Or.inl ⟨f, _, rfl, rfl, rfl, rfl, rfl, rfl, Nat.le_refl _, hcap, hf.1, ?_, hnd.2, ?_, ?_⟩
    · intro n hn
      rw [hf.2] at hn
      cases hn
    · intro g
      have hg := I.free g
      rw [hfree, List.mem_cons] at hg
      constructor
      · intro h
        have := hg.mp (Or.inr h)
        exact ⟨this.1, this.2, fun he => hnd.1 (he ▸ h)⟩
      · rintro ⟨h1, h2, h3⟩
        exact (hg.mpr ⟨h1, h2⟩).resolve_left h3
    · intro n hn
      rw [hf.2] at hn
      cases hn
  · rename_i hfree
    split
    · rename_i hlt
      have hnone : (b.frames b.pool_size).page_id = none := by
        rcases h : (b.frames b.pool_size).page_id with _ | n
        · rfl
        · have := I.used n _ h
          omega
      refine Or.inl ⟨b.pool_size, _, rfl, rfl, rfl, rfl, rfl, rfl, by simp, by simp; omega,
        by simp, ?_, by simp [hfree], ?_, ?_⟩
      · intro n hn
        rw [hnone] at hn
        cases hn
      · intro g
        have hg := I.free g
        simp only [hfree, List.not_mem_nil, false_iff, not_and] at hg ⊢
        intro h1 h2 h3
        exact hg (by omega) h2
      · intro n hn
        rw [hnone] at hn
        cases hn
    · rename_i hfull
      split
      · rename_i hlru
        rcases hp : b.find_lru with _ | p
        · exact absurd hp hlru
        · obtain ⟨f, hf, hpin⟩ := find_lru_some hp
          have hid := (I.holds p f).mp hf
          refine Or.inl ⟨f, b, by rw [hf], rfl, rfl, rfl, rfl, rfl, Nat.le_refl _, hcap,
            I.used p f hid, ?_, I.free_nodup, ?_, ?_⟩
          · intro n hn
            rw [hid] at hn
            cases hn
            rw [← I.pin_count_eq hf, hpin]
          · intro g
            rw [I.free g]
            refine ⟨fun h => ⟨h.1, h.2, fun he => ?_⟩, fun h => ⟨h.1, h.2.1⟩⟩
            have h2 := h.2
            rw [he, hid] at h2
            cases h2
          · intro n _
            exact ⟨hfree, by omega⟩
      · rename_i hlru
        have hnone : b.find_lru = none := by
          simpa [INVALID_PAGE_ID] using hlru
        exact Or.inr ⟨rfl, hfree, by omega, fun n f hf => I.find_lru_none hnone hf⟩

/-! ## Bringing a page in -/

/-- The file after the page in frame `f` has left it. -/
def written (b : BufferPoolManager) (f : FrameID) : Nat → PageData :=
  match (b.frames f).page_id with
  | some v =>
    if (b.frames f).is_dirty then Function.update b.disk_manager.file v (b.frames f).data
    else b.disk_manager.file
  | none => b.disk_manager.file

/-- What `swap_page` does when it puts page `n` into frame `f`. -/
structure Swapped (b b' : BufferPoolManager) (pins : Nat → Nat) (n f : Nat) (rd : Bool) : Prop where
  next : b.find_next_frame.1 = some f
  inv : PoolInv b' (Function.update pins n (pins n + 1))
  fresh : pins n = 0
  frames : b'.frames = Function.update b.frames f
    ⟨some n, if rd then written b f n else zeroPage, 1, false⟩
  disk : b'.disk_manager = { b.disk_manager with file := written b f }
  table : ∀ m, b'.page_table (some m) = if m = n then some f
    else if (b.frames f).page_id = some m then none else b.page_table (some m)
  capacity : b'.pool_capacity = b.pool_capacity
  unpinned : ∀ v, (b.frames f).page_id = some v → pins v = 0
  victim : ∀ v, (b.frames f).page_id = some v →
    b.free_frames_list = [] ∧ b.pool_size = b.pool_capacity

theorem Swapped.page_id {b' : BufferPoolManager} {n f : Nat} {rd : Bool}
    (W : Swapped b b' pins n f rd) : (b'.frames f).page_id = some n := by
  rw [W.frames, Function.update_self]

theorem Swapped.cached {b' : BufferPoolManager} {n f : Nat} {rd : Bool}
    (W : Swapped b b' pins n f rd) : b'.page_table (some n) = some f := by
  rw [W.table, if_pos rfl]

/-- What taking the page out of a frame leaves. -/
theorem PoolInv.evict (I : PoolInv b pins) (F : NoFaults b.disk_manager)
    {b' : BufferPoolManager} {f : Nat} (N : NextFrame b b' pins f) :
    ∃ b1, b'.evict f = (.ok (), b1) ∧ b1.frames = b.frames ∧
      b1.page_table none = none ∧
      (∀ m, b1.page_table (some m) =
        if (b.frames f).page_id = some m then none else b.page_table (some m)) ∧
      (∀ p, p ∈ b1.mru_pages ↔ p ∈ b.mru_pages ∧ (b.frames f).page_id ≠ p) ∧
      b1.disk_manager = { b.disk_manager with file := written b f } ∧
      b1.pool_capacity = b'.pool_capacity ∧ b1.pool_size = b'.pool_size ∧
      b1.free_frames_list = b'.free_frames_list := by
  unfold BufferPoolManager.evict written
  simp only [N.frames]
  rcases hid : (b.frames f).page_id with _ | v
  · obtain ⟨_, hclean⟩ := I.empty f hid
    rw [if_neg (show ¬ (b.frames f).is_dirty = true by rw [hclean]; simp),
      if_neg (show ¬ (none : PageID) ≠ INVALID_PAGE_ID by simp [INVALID_PAGE_ID])]
    refine ⟨b', rfl, N.frames, ?_, ?_, ?_, ?_, rfl, rfl, rfl⟩
    · rw [N.table]
      exact I.table_invalid
    · intro m
      rw [N.table]
      simp
    · intro p
      rw [N.mru, I.mru]
      refine ⟨fun h => ⟨h, fun hp => ?_⟩, fun h => h.1⟩
      rw [← hp, show b.page_table none = none from I.table_invalid] at h
      cases h
    · rw [N.disk]
  · have hlt := I.known v f ((I.holds v f).mpr hid)
    have htable : ∀ m, Function.update b'.page_table (some v) none (some m) =
        if some v = some m then none else b.page_table (some m) := by
      intro m
      rw [N.table]
      by_cases h : m = v
      · subst h
        simp
      · rw [Function.update_of_ne (by simpa using h), if_neg (by simpa using Ne.symm h)]
    have hnone : Function.update b'.page_table (some v) none none = none := by
      rw [Function.update_of_ne (by simp), N.table]
      exact I.table_invalid
    have hmru : ∀ p, p ∈ b'.mru_pages.filter (· ≠ some v) ↔ p ∈ b.mru_pages ∧ some v ≠ p := by
      intro p
      rw [N.mru, List.mem_filter]
      simp only [ne_eq, decide_not, Bool.not_eq_eq_eq_not, Bool.not_true, decide_eq_false_iff_not]
      exact and_congr_right fun _ => ⟨fun h he => h he.symm, fun h he => h he.symm⟩
    rw [if_pos (show (some v : PageID) ≠ INVALID_PAGE_ID by simp [INVALID_PAGE_ID])]
    by_cases hdirty : (b.frames f).is_dirty = true
    · -- the file takes the page
      have hflush : ((b'.erase (some v)).remove (some v)).flush_page (b.frames f) =
          .ok { (b'.erase (some v)).remove (some v) with
            disk_manager := { b.disk_manager with
              file := Function.update b.disk_manager.file v (b.frames f).data } } := by
        unfold flush_page erase remove DiskManager.write_page
        simp only [N.disk, hid]
        rw [if_neg (by omega), if_neg (by simp [F.pwrite])]
        rfl
      rw [if_pos hdirty, hflush]
      simp only [hdirty, ite_true]
      exact ⟨_, rfl, N.frames, hnone, htable, hmru, rfl, rfl, rfl, rfl⟩
    · rw [if_neg hdirty]
      simp only [hdirty, Bool.false_eq_true, ite_false]
      exact ⟨_, rfl, N.frames, hnone, htable, hmru, N.disk, rfl, rfl, rfl⟩

/-- A frame that its page has left holds page `n`, pinned once. -/
structure Loaded (b b' : BufferPoolManager) (n f : Nat) (data : PageData) : Prop where
  frames : ∀ g, b'.frames g = if g = f then ⟨some n, data, 1, false⟩ else b.frames g
  invalid : b'.page_table none = none
  table : ∀ m, b'.page_table (some m) = if m = n then some f
    else if (b.frames f).page_id = some m then none else b.page_table (some m)
  mru : ∀ p, p ∈ b'.mru_pages ↔ p = some n ∨ (p ∈ b.mru_pages ∧ (b.frames f).page_id ≠ p)

section
variable {b' : BufferPoolManager} {n f : Nat} {data : PageData}

theorem Loaded.holds (L : Loaded b b' n f data) (I : PoolInv b pins)
    (alone : ∀ g, g ≠ f → (b.frames g).page_id ≠ some n) (m : Nat) (g : FrameID) :
    b'.page_table (some m) = some g ↔ (b'.frames g).page_id = some m := by
  rw [L.table, L.frames]
  by_cases hm : m = n
  · subst hm
    rw [if_pos rfl]
    by_cases hg : g = f
    · subst hg
      simp
    · rw [if_neg hg]
      simp only [Option.some.injEq]
      exact ⟨fun h => absurd h.symm hg, fun h => absurd h (alone g hg)⟩
  · rw [if_neg hm]
    by_cases hg : g = f
    · subst hg
      rw [if_pos rfl]
      simp only [Option.some.injEq]
      refine ⟨fun h => ?_, fun h => absurd h.symm hm⟩
      split at h
      · cases h
      · rename_i hne
        exact absurd ((I.holds m g).mp h) hne
    · rw [if_neg hg, ← I.holds m g]
      split
      · rename_i hid
        refine ⟨fun h => (by cases h), fun h => ?_⟩
        exact absurd (I.unique ((I.holds m g).mp h) hid) hg
      · rfl

theorem Loaded.pinned (L : Loaded b b' n f data) (I : PoolInv b pins) (hzero : pins n = 0)
    (alone : ∀ g, g ≠ f → (b.frames g).page_id ≠ some n) (m : Nat) (g : FrameID)
    (h : (b'.frames g).page_id = some m) :
    (b'.frames g).pin_count = Function.update pins n (pins n + 1) m := by
  rw [L.frames] at h ⊢
  by_cases hg : g = f
  · rw [if_pos hg] at h ⊢
    obtain rfl : n = m := by simpa using h
    simp [hzero]
  · rw [if_neg hg] at h ⊢
    have hm : m ≠ n := fun he => alone g hg (he ▸ h)
    rw [Function.update_of_ne hm]
    exact I.pinned m g h

theorem Loaded.absent (L : Loaded b b' n f data) (I : PoolInv b pins)
    (hunpinned : ∀ m, (b.frames f).page_id = some m → pins m = 0) (m : Nat)
    (h : b'.page_table (some m) = none) : Function.update pins n (pins n + 1) m = 0 := by
  rw [L.table] at h
  by_cases hm : m = n
  · rw [if_pos hm] at h
    cases h
  · rw [if_neg hm] at h
    rw [Function.update_of_ne hm]
    split at h
    · rename_i hid
      exact hunpinned m hid
    · exact I.absent m h

theorem Loaded.mru_iff (L : Loaded b b' n f data) (I : PoolInv b pins) (p : PageID) :
    p ∈ b'.mru_pages ↔ (b'.page_table p).isSome := by
  rw [L.mru, I.mru]
  rcases p with _ | m
  · rw [L.invalid, show b.page_table none = none from I.table_invalid]
    simp
  · rw [L.table]
    by_cases hm : m = n
    · simp [hm]
    · simp only [Option.some.injEq, hm, ite_false, false_or]
      split <;> simp_all

theorem PoolInv.loaded (I : PoolInv b pins) {b0 : BufferPoolManager} (N : NextFrame b b0 pins f)
    (L : Loaded b b' n f data) (hn : n < b.disk_manager.capacity) (hzero : pins n = 0)
    (alone : ∀ g, g ≠ f → (b.frames g).page_id ≠ some n)
    (hdisk : b'.disk_manager = { b.disk_manager with file := written b f })
    (hrest : b'.pool_capacity = b0.pool_capacity ∧ b'.pool_size = b0.pool_size ∧
      b'.free_frames_list = b0.free_frames_list) :
    PoolInv b' (Function.update pins n (pins n + 1)) := by
  obtain ⟨hcapacity, hsize, hfree⟩ := hrest
  refine ⟨L.invalid, L.holds I alone, L.pinned I hzero alone, L.absent I N.unpinned, fun g => ?_,
    fun m g => ?_, ?_, ?_, fun g => ?_, L.mru_iff I, fun m g => ?_⟩
  · rw [L.frames]
    split
    · intro h
      cases h
    · exact I.empty g
  · rw [L.frames, hsize]
    split
    · rename_i hg
      intro _
      exact hg ▸ N.lt
    · intro h
      have h1 := I.used m g h
      have h2 := N.size_ge
      omega
  · rw [hcapacity, hsize, N.capacity]
    exact N.size_le
  · rw [hfree]
    exact N.free_nodup
  · rw [hfree, N.free, L.frames, hsize]
    split
    · rename_i hg
      simp [hg]
    · rename_i hg
      simp [hg]
  · rw [L.table, hdisk]
    split
    · rename_i hm
      exact fun _ => hm ▸ hn
    · split
      · intro h
        cases h
      · exact I.known m g

end

/-- What `swap_page` leaves in the frame once the page before has left it. -/
theorem loaded_frame {b1 : BufferPoolManager} {n f : Nat} (rd : Bool) (data : Nat → PageData)
    (hframes : b1.frames = b.frames) (hinvalid : b1.page_table none = none)
    (htable : ∀ m, b1.page_table (some m) =
      if (b.frames f).page_id = some m then none else b.page_table (some m))
    (hmru : ∀ p, p ∈ b1.mru_pages ↔ p ∈ b.mru_pages ∧ (b.frames f).page_id ≠ p) :
    Loaded b (if rd then (b1.load f (some n)).set_data f (data n) else b1.load f (some n)) n f
      (if rd then data n else zeroPage) := by
  generalize hb2 : (if rd then (b1.load f (some n)).set_data f (data n)
    else b1.load f (some n)) = b2
  have h1 : b2.frames = Function.update b.frames f
      ⟨some n, if rd then data n else zeroPage, 1, false⟩ := by
    rw [← hb2]
    split <;> rename_i hrd <;>
      simp [load, record, set_data, set_frame, Page.reset_memory, Page.inc_pin_count, hframes]
  have h2 : b2.page_table = Function.update b1.page_table (some n) (some f) := by
    rw [← hb2]
    split <;> rfl
  have h3 : b2.mru_pages = b1.mru_pages.filter (· ≠ some n) ++ [some n] := by
    rw [← hb2]
    split <;> rfl
  refine ⟨fun g => ?_, ?_, fun m => ?_, fun p => ?_⟩
  · rw [h1]
    by_cases h : g = f
    · subst h
      simp
    · rw [Function.update_of_ne h, if_neg h]
  · rw [h2, Function.update_of_ne (by simp), hinvalid]
  · rw [h2]
    by_cases h : m = n
    · subst h
      simp
    · rw [Function.update_of_ne (by simpa using h), htable, if_neg h]
  · rw [h3, List.mem_append, List.mem_filter, hmru, List.mem_singleton]
    by_cases hp : p = some n <;> simp [hp]

/-- `swap_page` brings a page in and pins it once, or finds every frame pinned. -/
theorem PoolInv.swap_page (I : PoolInv b pins) (F : NoFaults b.disk_manager) {n : Nat}
    (hn : n < b.disk_manager.capacity) (rd : Bool)
    (alone : ∀ f, b.find_next_frame.1 = some f → ∀ g, g ≠ f → (b.frames g).page_id ≠ some n) :
    (∃ f b', b.swap_page (some n) rd = (.ok (some f), b') ∧ Swapped b b' pins n f rd) ∨
    (b.swap_page (some n) rd = (.ok none, b) ∧ b.free_frames_list = [] ∧
      b.pool_size = b.pool_capacity ∧ ∀ m f, b.page_table (some m) = some f → pins m ≠ 0) := by
  unfold BufferPoolManager.swap_page
  rcases I.find_next_frame with ⟨f, b0, hfind, N⟩ | ⟨hfind, h⟩
  swap
  · rw [hfind]
    exact Or.inr ⟨rfl, h⟩
  left
  replace alone := alone f (by rw [hfind])
  rw [hfind]
  simp only
  obtain ⟨b1, hev, e1, e2, e3, e4, e5, e6, e7, e8⟩ := I.evict F N
  rw [hev]
  simp only
  have hzero : pins n = 0 := by
    by_cases hfn : (b.frames f).page_id = some n
    · exact N.unpinned n hfn
    · refine I.absent n ?_
      rcases hc : b.page_table (some n) with _ | g
      · rfl
      · have hg := (I.holds n g).mp hc
        by_cases hgf : g = f
        · exact absurd (hgf ▸ hg) hfn
        · exact absurd hg (alone g hgf)
  have hread : b1.disk_manager.read_page (some n) = .ok (written b f n) := by
    unfold DiskManager.read_page
    rw [e5]
    simp only
    rw [if_neg (by omega), if_neg (by simp [F.pread])]
  have L := loaded_frame (n := n) rd (written b f) e1 e2 e3 e4
  generalize hb2 : (if rd then (b1.load f (some n)).set_data f (written b f n)
    else b1.load f (some n)) = b2 at L
  have hrest : b2.disk_manager = b1.disk_manager ∧ b2.pool_capacity = b1.pool_capacity ∧
      b2.pool_size = b1.pool_size ∧ b2.free_frames_list = b1.free_frames_list := by
    rw [← hb2]
    split <;> exact ⟨rfl, rfl, rfl, rfl⟩
  obtain ⟨r1, r2, r3, r4⟩ := hrest
  have hdisk : b2.disk_manager = { b.disk_manager with file := written b f } := by rw [r1, e5]
  have hframes : b2.frames = Function.update b.frames f
      ⟨some n, if rd then written b f n else zeroPage, 1, false⟩ := by
    funext g
    rw [L.frames, Function.update_apply]
  refine ⟨f, b2, ?_, ⟨by rw [hfind], ?_, hzero, hframes, hdisk, L.table,
    by rw [r2, e6, N.capacity], N.unpinned, N.victim⟩⟩
  · rw [← hb2]
    cases rd with
    | true =>
      have : (b1.load f (some n)).disk_manager.read_page (some n) = .ok (written b f n) := hread
      simp only [this, ite_true]
    | false => simp
  · exact I.loaded N L hn hzero alone hdisk ⟨by rw [r2, e6], by rw [r3, e7], by rw [r4, e8]⟩

/-! ## Hits, pins and data -/

/-- A frame that keeps its page may change its data, its flag, and its pins if they are
counted. -/
theorem PoolInv.set_frame (I : PoolInv b pins) {n : Nat} {f : FrameID} {p : Page}
    (h : b.page_table (some n) = some f) (hp : p.page_id = some n) :
    PoolInv (b.set_frame f p) (Function.update pins n p.pin_count) := by
  have hf := (I.holds n f).mp h
  have hid : ∀ g, ((b.set_frame f p).frames g).page_id = (b.frames g).page_id := by
    intro g
    unfold BufferPoolManager.set_frame
    by_cases hg : g = f
    · subst hg
      simp [hp, hf]
    · simp [Function.update_of_ne hg]
  have hother : ∀ g, g ≠ f → (b.set_frame f p).frames g = b.frames g := fun g hg =>
    Function.update_of_ne hg _ _
  refine ⟨I.table_invalid, ?_, ?_, ?_, ?_, ?_, I.size_le, I.free_nodup, ?_, I.mru, I.known⟩
  · intro m g
    rw [hid]
    exact I.holds m g
  · intro m g hm
    rw [hid] at hm
    by_cases hg : g = f
    · subst hg
      rw [hf] at hm
      cases hm
      simp [BufferPoolManager.set_frame]
    · have hne : m ≠ n := fun he => hg (I.unique hm (he ▸ hf))
      rw [hother g hg, Function.update_of_ne hne]
      exact I.pinned m g hm
  · intro m hm
    have hne : m ≠ n := by
      rintro rfl
      have : b.page_table (some m) = none := hm
      rw [h] at this
      cases this
    rw [Function.update_of_ne hne]
    exact I.absent m hm
  · intro g hg
    rw [hid] at hg
    have hne : g ≠ f := by
      rintro rfl
      rw [hf] at hg
      cases hg
    rw [hother g hne]
    exact I.empty g hg
  · intro m g
    rw [hid]
    exact I.used m g
  · intro g
    rw [hid]
    exact I.free g

theorem PoolInv.set_data (I : PoolInv b pins) {n : Nat} {f : FrameID}
    (h : b.page_table (some n) = some f) (data : PageData) : PoolInv (b.set_data f data) pins := by
  have hid := (I.holds n f).mp h
  have := I.set_frame (p := { b.frames f with data }) h hid
  rwa [show ({ b.frames f with data } : Page).pin_count = pins n from I.pin_count_eq h,
    Function.update_eq_self] at this

/-- The order of use is the replacer's own affair. -/
theorem PoolInv.record (I : PoolInv b pins) {n : Nat} {f : FrameID}
    (h : b.page_table (some n) = some f) : PoolInv (b.record (some n)) pins := by
  refine ⟨I.table_invalid, I.holds, I.pinned, I.absent, I.empty, I.used, I.size_le, I.free_nodup,
    I.free, ?_, I.known⟩
  intro p
  show p ∈ b.mru_pages.filter (· ≠ some n) ++ [some n] ↔ _
  rw [List.mem_append, List.mem_filter, I.mru]
  by_cases hp : p = some n
  · subst hp
    have : (b.page_table (some n)).isSome := by rw [h]; rfl
    simp [BufferPoolManager.record, this]
  · simp [BufferPoolManager.record, hp]

theorem PoolInv.find_cached_page (I : PoolInv b pins) (n : Nat) :
    (∃ f b', b.find_cached_page (some n) = (some f, b') ∧ b.page_table (some n) = some f ∧
      PoolInv b' (Function.update pins n (pins n + 1)) ∧
      b'.frames = Function.update b.frames f (b.frames f).inc_pin_count ∧
      b'.page_table = b.page_table ∧ b'.disk_manager = b.disk_manager ∧
      b'.pool_capacity = b.pool_capacity) ∨
    (b.find_cached_page (some n) = (none, b) ∧ b.page_table (some n) = none) := by
  unfold BufferPoolManager.find_cached_page
  rcases h : b.page_table (some n) with _ | f
  · exact Or.inr ⟨rfl, rfl⟩
  · refine Or.inl ⟨f, _, rfl, rfl, ?_, rfl, rfl, rfl, rfl⟩
    have hid := (I.holds n f).mp h
    have h1 := I.set_frame (p := (b.frames f).inc_pin_count) h hid
    rw [show (b.frames f).inc_pin_count.pin_count = pins n + 1 from
      congrArg (· + 1) (I.pin_count_eq h)] at h1
    exact h1.record h

theorem PoolInv.unpin_page (I : PoolInv b pins) {n : Nat} (h : 0 < pins n) (dirty : Bool) :
    ∃ f, b.page_table (some n) = some f ∧
      b.unpin_page (some n) dirty = b.set_frame f ⟨some n, (b.frames f).data, pins n - 1,
        dirty || (b.frames f).is_dirty⟩ ∧
      PoolInv (b.unpin_page (some n) dirty) (Function.update pins n (pins n - 1)) := by
  obtain ⟨f, hf⟩ := I.cached_of_pins h
  have hid := (I.holds n f).mp hf
  have hpin := I.pin_count_eq hf
  have heq : b.unpin_page (some n) dirty = b.set_frame f ⟨some n, (b.frames f).data, pins n - 1,
      dirty || (b.frames f).is_dirty⟩ := by
    unfold BufferPoolManager.unpin_page
    rw [hf]
    simp only
    congr 1
    unfold Page.dec_pin_count
    cases dirty <;> simp only [Page.set_dirty, hid, hpin, Bool.false_eq_true, ite_false, ite_true,
      Bool.true_or, Bool.false_or] <;> rw [if_neg (by omega)]
  refine ⟨f, hf, heq, ?_⟩
  rw [heq]
  exact I.set_frame hf rfl

/-! ## Deletes and new ids -/

/-- The pool reads the capacity of the disk, which never shrinks, and nothing else. -/
theorem PoolInv.set_disk (I : PoolInv b pins) {d : DiskManager}
    (h : b.disk_manager.capacity ≤ d.capacity) : PoolInv { b with disk_manager := d } pins :=
  ⟨I.table_invalid, I.holds, I.pinned, I.absent, I.empty, I.used, I.size_le, I.free_nodup,
    I.free, I.mru, fun n f hf => Nat.lt_of_lt_of_le (I.known n f hf) h⟩

theorem PoolInv.drop_frame (I : PoolInv b pins) {n : Nat} {f : FrameID}
    (h : b.page_table (some n) = some f) (hpin : pins n = 0) :
    PoolInv (b.drop_frame (some n) f) pins := by
  have hid := (I.holds n f).mp h
  have htable : ∀ m, (b.drop_frame (some n) f).page_table (some m) =
      if m = n then none else b.page_table (some m) := by
    intro m
    show Function.update b.page_table (some n) none (some m) = _
    by_cases hm : m = n
    · simp [hm]
    · rw [Function.update_of_ne (by simpa using hm), if_neg hm]
  have hinvalid : (b.drop_frame (some n) f).page_table none = none := by
    show Function.update b.page_table (some n) none none = none
    rw [Function.update_of_ne (by simp)]
    exact I.table_invalid
  have hframe : ∀ g, (b.drop_frame (some n) f).frames g =
      if g = f then Page.reset_memory INVALID_PAGE_ID else b.frames g := by
    intro g
    show Function.update b.frames f _ g = _
    by_cases hg : g = f
    · simp [hg]
    · rw [Function.update_of_ne hg, if_neg hg]
  have hreset : (Page.reset_memory INVALID_PAGE_ID).page_id = none := rfl
  refine ⟨hinvalid, ?_, ?_, ?_, ?_, ?_, I.size_le, ?_, ?_, ?_, ?_⟩
  · intro m g
    rw [htable, hframe]
    by_cases hm : m = n
    · rw [if_pos hm, hm]
      split
      · simp [hreset]
      · rename_i hg
        refine ⟨fun h => (by cases h), fun h' => absurd (I.unique h' hid) hg⟩
    · rw [if_neg hm, I.holds]
      split
      · rename_i hg
        rw [hg, hid, hreset]
        simp [Ne.symm hm]
      · rfl
  · intro m g
    rw [hframe]
    split
    · intro h'
      cases h'
    · exact I.pinned m g
  · intro m
    rw [htable]
    split
    · rename_i hm
      exact fun _ => hm ▸ hpin
    · exact I.absent m
  · intro g
    rw [hframe]
    split
    · exact fun _ => ⟨rfl, rfl⟩
    · exact I.empty g
  · intro m g
    rw [hframe]
    split
    · intro h'
      cases h'
    · exact I.used m g
  · show (f :: b.free_frames_list).Nodup
    rw [List.nodup_cons]
    refine ⟨fun hm => ?_, I.free_nodup⟩
    have := ((I.free f).mp hm).2
    rw [hid] at this
    cases this
  · intro g
    show g ∈ f :: b.free_frames_list ↔ g < b.pool_size ∧ _
    rw [List.mem_cons, I.free, hframe]
    by_cases hg : g = f
    · have := I.used n f hid
      simp [hg, hreset, this]
    · simp [hg]
  · intro p
    show p ∈ b.mru_pages.filter (· ≠ some n) ↔ _
    rw [List.mem_filter, I.mru]
    rcases p with _ | m
    · rw [hinvalid, show b.page_table none = none from I.table_invalid]
      simp
    · rw [htable]
      by_cases hm : m = n
      · simp [hm]
      · simp [hm]
  · intro m g
    rw [htable]
    split
    · intro h'
      cases h'
    · exact I.known m g

/-- The disk after a page was given back, when the page is not the one of the disk's header. -/
def returned (d : DiskManager) (n : Nat) : DiskManager :=
  if d.free_list.length > 1024 then d else { d with free_list := some n :: d.free_list }

theorem deallocate_page_eq (d : DiskManager) {n : Nat} (h : n ≠ 0) :
    d.deallocate_page (some n) = .ok (returned d n) := by
  unfold DiskManager.deallocate_page returned
  rw [if_neg (by simpa [kDISK_METADATA_PAGE_ID] using h)]
  split <;> rfl

theorem returned_capacity (d : DiskManager) (n : Nat) :
    (returned d n).capacity = d.capacity ∧ (returned d n).file = d.file ∧
      ((returned d n).free_list = d.free_list ∨
        (returned d n).free_list = some n :: d.free_list) := by
  unfold returned
  split
  · exact ⟨rfl, rfl, Or.inl rfl⟩
  · exact ⟨rfl, rfl, Or.inr rfl⟩

/-- Whatever page is deleted, and however the call ends, the parts of the pool agree. -/
theorem PoolInv.delete_page (I : PoolInv b pins) (n : Nat) :
    PoolInv (b.delete_page (some n)).2 pins ∧
      (b.delete_page (some n)).2.pool_capacity = b.pool_capacity ∧
      (b.delete_page (some n)).2.disk_manager.capacity = b.disk_manager.capacity := by
  have hdealloc : ∀ b1 : BufferPoolManager, PoolInv b1 pins →
      PoolInv (b1.deallocate (some n)).2 pins ∧
      (b1.deallocate (some n)).2.pool_capacity = b1.pool_capacity ∧
      (b1.deallocate (some n)).2.disk_manager.capacity = b1.disk_manager.capacity := by
    intro b1 I1
    unfold deallocate
    by_cases hn : n = 0
    · subst hn
      exact ⟨I1, rfl, rfl⟩
    · rw [deallocate_page_eq _ hn]
      have hc := (returned_capacity b1.disk_manager n).1
      exact ⟨I1.set_disk (by omega), rfl, hc⟩
  unfold BufferPoolManager.delete_page
  rcases h : b.page_table (some n) with _ | f
  · exact hdealloc b I
  · simp only
    split
    · exact ⟨I, rfl, rfl⟩
    · rename_i hpin
      exact hdealloc _ (I.drop_frame h (by rw [← I.pin_count_eq h]; omega))

theorem PoolInv.allocate_page (I : PoolInv b pins) : PoolInv b.allocate_page.2 pins := by
  unfold BufferPoolManager.allocate_page
  refine I.set_disk ?_
  unfold DiskManager.allocate_page
  split <;> simp

end

/-! ## The ids of the disk -/

/-- What a call keeps that brings pages in: it writes pages to the file, and leaves the ids and
the number of the frames alone. -/
structure KeepsIds (b b' : BufferPoolManager) : Prop where
  frames : b'.pool_capacity = b.pool_capacity
  disk : b'.disk_manager = { b.disk_manager with file := b'.disk_manager.file }

theorem keepsIds_refl (b : BufferPoolManager) : KeepsIds b b := ⟨rfl, rfl⟩

theorem KeepsIds.trans {b b' b2 : BufferPoolManager} (h : KeepsIds b b') (h' : KeepsIds b' b2) :
    KeepsIds b b2 := by
  refine ⟨h'.frames.trans h.frames, h'.disk.trans ?_⟩
  rw [h.disk]

theorem keepsIds_find_next_frame (b : BufferPoolManager) : KeepsIds b b.find_next_frame.2 := by
  unfold BufferPoolManager.find_next_frame
  split
  · exact ⟨rfl, rfl⟩
  · split
    · exact ⟨rfl, rfl⟩
    · split <;> exact ⟨rfl, rfl⟩

theorem write_page_keeps {d d' : DiskManager} {p : PageID} {data : PageData}
    (h : d.write_page p data = .ok d') : d' = { d with file := d'.file } := by
  unfold DiskManager.write_page at h
  split at h
  · cases h
  · split at h
    · cases h
    · split at h
      · cases h
      · cases h
        rfl

theorem keepsIds_evict (b : BufferPoolManager) (f : FrameID) : KeepsIds b (b.evict f).2 := by
  unfold BufferPoolManager.evict flush_page
  simp only
  generalize hb : (if (b.frames f).page_id ≠ INVALID_PAGE_ID then
    (b.erase (b.frames f).page_id).remove (b.frames f).page_id else b) = b1
  have h1 : KeepsIds b b1 := by
    rw [← hb]
    split <;> exact ⟨rfl, rfl⟩
  split
  · rcases hw : b1.disk_manager.write_page (b.frames f).page_id (b.frames f).data with e | d
    · exact h1
    · exact h1.trans ⟨rfl, write_page_keeps hw⟩
  · exact h1

theorem keepsIds_swap_page (b : BufferPoolManager) (p : PageID) (rd : Bool) :
    KeepsIds b (b.swap_page p rd).2 := by
  unfold BufferPoolManager.swap_page
  have hnext := keepsIds_find_next_frame b
  generalize b.find_next_frame = r at hnext ⊢
  obtain ⟨_ | f, b0⟩ := r
  · exact hnext
  · have hev := hnext.trans (keepsIds_evict b0 f)
    rcases he : b0.evict f with ⟨e | _, b1⟩ <;> rw [he] at hev
    · simp only [he]
      exact hev
    · simp only [he]
      have hload : KeepsIds b (b1.load f p) := hev.trans ⟨rfl, rfl⟩
      split
      · split
        · exact hload
        · exact hload.trans ⟨rfl, rfl⟩
      · exact hload

theorem keepsIds_fetch_page (b : BufferPoolManager) (p : PageID) :
    KeepsIds b (b.fetch_page p).2 := by
  unfold BufferPoolManager.fetch_page find_cached_page
  split
  · rename_i h
    split at h
    · cases h
      exact ⟨rfl, rfl⟩
    · cases h
  · rename_i h
    split at h
    · cases h
    · cases h
      exact keepsIds_swap_page b p true

theorem KeepsIds.capacity {b b' : BufferPoolManager} (h : KeepsIds b b') :
    b'.disk_manager.capacity = b.disk_manager.capacity := by
  rw [h.disk]

theorem KeepsIds.free_list {b b' : BufferPoolManager} (h : KeepsIds b b') :
    b'.disk_manager.free_list = b.disk_manager.free_list := by
  rw [h.disk]

theorem capacity_fetch_page (b : BufferPoolManager) (p : PageID) :
    (b.fetch_page p).2.disk_manager.capacity = b.disk_manager.capacity :=
  (keepsIds_fetch_page b p).capacity

theorem capacity_new_page (b : BufferPoolManager) :
    b.new_page.2.disk_manager.capacity = b.allocate_page.2.disk_manager.capacity := by
  unfold BufferPoolManager.new_page
  exact (keepsIds_swap_page _ _ _).capacity

theorem capacity_deallocate (b : BufferPoolManager) (p : PageID) :
    (b.deallocate p).2.disk_manager.capacity = b.disk_manager.capacity := by
  unfold BufferPoolManager.deallocate DiskManager.deallocate_page
  split
  · rfl
  · rename_i h
    split at h
    · cases h
    · split at h
      all_goals
        cases h
        rfl

theorem capacity_delete_page (b : BufferPoolManager) (p : PageID) :
    (b.delete_page p).2.disk_manager.capacity = b.disk_manager.capacity := by
  unfold BufferPoolManager.delete_page
  split
  · split
    · rfl
    · exact capacity_deallocate _ _
  · exact capacity_deallocate _ _

theorem capacity_unpin_page (b : BufferPoolManager) (p : PageID) (dirty : Bool) :
    (b.unpin_page p dirty).disk_manager = b.disk_manager := by
  unfold BufferPoolManager.unpin_page
  split <;> rfl

theorem page_table_unpin_page (b : BufferPoolManager) (p : PageID) (dirty : Bool) :
    (b.unpin_page p dirty).page_table = b.page_table := by
  unfold BufferPoolManager.unpin_page
  split <;> rfl

theorem keepsIds_unpin_page (b : BufferPoolManager) (p : PageID) (dirty : Bool) :
    KeepsIds b (b.unpin_page p dirty) := by
  unfold BufferPoolManager.unpin_page
  split <;> exact ⟨rfl, rfl⟩

theorem capacity_allocate_page (b : BufferPoolManager) :
    b.disk_manager.capacity ≤ b.allocate_page.2.disk_manager.capacity := by
  unfold BufferPoolManager.allocate_page DiskManager.allocate_page
  split
  · exact Nat.le_refl _
  · exact Nat.le_succ _

end duck.buffer_pool
