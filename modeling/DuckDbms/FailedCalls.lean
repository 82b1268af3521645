-- What calls of the pool leave behind when they fail: a page that is not on the
-- disk keeps the frame that was taken for it, and a page whose write fails is
-- taken out of the page table all the same.
import DuckDbms.Lib.Machine
import DuckDbms.PoolRefinement

open machine

open duck.slotted_page duck.disk_manager

namespace duck.buffer_pool

open BufferPoolManager

/-! ## Calls of any kind -/

/-- A call of anybody, also of those who unpin what they have not pinned, or delete or fetch what
nobody has allocated. -/
inductive AnyCall
  | new_page
  | fetch_page (page_id : PageID)
  | unpin_page (page_id : PageID) (dirty : Bool)
  | delete_page (page_id : PageID)
  | flush_all
  /-- somebody who has a frame writes to it -/
  | write (frame_id : FrameID) (data : PageData)

def BufferPoolManager.after (b : BufferPoolManager) : AnyCall → BufferPoolManager
  | .new_page => b.new_page.2
  | .fetch_page page_id => (b.fetch_page page_id).2
  | .unpin_page page_id dirty => b.unpin_page page_id dirty
  | .delete_page page_id => (b.delete_page page_id).2
  | .flush_all => b.flush_all.2
  | .write frame_id data => b.set_data frame_id data

/-- An empty pool over a disk that works. -/
def callMachine : Machine BufferPoolManager AnyCall where
  start b := ∃ d k, NoFaults d ∧ b = .make d k
  next b call := some (b.after call)

/-! ## What any call keeps -/

/-- What the page table says of a frame is true, and frames that are not in use are empty. A frame
may be lost: it holds a page then, but no page is found in it. -/
structure Linked (b : BufferPoolManager) : Prop where
  works : NoFaults b.disk_manager
  table : ∀ p f, b.page_table p = some f → (b.frames f).page_id = p
  used : ∀ p (f : Nat), b.page_table p = some f → f < b.pool_size
  free_nodup : b.free_frames_list.Nodup
  free : ∀ f : Nat, f ∈ b.free_frames_list → f < b.pool_size ∧ ∀ p, b.page_table p ≠ some f
  clean : ∀ f : Nat, f ∈ b.free_frames_list ∨ b.pool_size ≤ f →
    (b.frames f).page_id = none ∧ (b.frames f).is_dirty = false

/-- Frame `f` is in use, and no page is found in it. -/
structure Ready (b : BufferPoolManager) (f : Nat) : Prop where
  linked : Linked b
  lt : f < b.pool_size
  taken : f ∉ b.free_frames_list
  unmapped : ∀ p, b.page_table p ≠ some f

/-- Every frame holds a page, and `find_lru` finds none to evict. -/
def NoFrame (b : BufferPoolManager) : Prop :=
  b.free_frames_list = [] ∧ b.pool_capacity ≤ b.pool_size ∧ b.find_lru = INVALID_PAGE_ID

/-- Page `v` in frame `f` has to leave for the next page. -/
structure Victim (b : BufferPoolManager) (v f : Nat) : Prop where
  full : b.free_frames_list = [] ∧ b.pool_capacity ≤ b.pool_size
  lru : b.find_lru = some v
  table : b.page_table (some v) = some f

/-- A page that has to leave, and to be written, is one of the disk. -/
def VictimOnDisk (b : BufferPoolManager) : Prop :=
  ∀ v f, Victim b v f → (b.frames f).is_dirty = true → v < b.disk_manager.capacity

section
variable {b : BufferPoolManager}

theorem linked_make {d : DiskManager} (h : NoFaults d) (k : Nat) : Linked (.make d k) := by
  refine ⟨h, ?_, ?_, List.nodup_nil, ?_, ?_⟩ <;> simp [make, Page.reset_memory, INVALID_PAGE_ID]

theorem Linked.set_disk (L : Linked b) {d : DiskManager} (h : NoFaults d) :
    Linked { b with disk_manager := d } :=
  ⟨h, L.table, L.used, L.free_nodup, L.free, L.clean⟩

/-- A frame in use may change everything but its page. -/
theorem Linked.set_frame (L : Linked b) {p : PageID} {f : Nat} {page : Page}
    (hf : b.page_table p = some f) (hp : page.page_id = p) : Linked (b.set_frame f page) := by
  have hused := L.used p f hf
  have hfree : f ∉ b.free_frames_list := fun h => (L.free f h).2 p hf
  refine ⟨L.works, fun q g hg => ?_, L.used, L.free_nodup, L.free, fun g hg => ?_⟩
  · show (Function.update b.frames f page g).page_id = q
    have hq := L.table q g hg
    by_cases hgf : g = f
    · subst hgf
      rw [Function.update_self, hp, ← hq, L.table p g hf]
    · rw [Function.update_of_ne hgf, hq]
  · have hgf : g ≠ f := by
      rintro rfl
      rcases hg with hg | hg
      · exact hfree hg
      · exact absurd hused (Nat.not_lt.mpr hg)
    have hframe : (b.set_frame f page).frames g = b.frames g := Function.update_of_ne hgf _ _
    rw [hframe]
    exact L.clean g hg

/-- What a frame holds is nobody's concern here. -/
theorem Linked.set_data (L : Linked b) (f : FrameID) (data : PageData) :
    Linked (b.set_data f data) := by
  have hframe : ∀ g, ((b.set_data f data).frames g).page_id = (b.frames g).page_id ∧
      ((b.set_data f data).frames g).is_dirty = (b.frames g).is_dirty := by
    intro g
    show (Function.update b.frames f _ g).page_id = _ ∧ (Function.update b.frames f _ g).is_dirty = _
    by_cases hgf : g = f
    · subst hgf
      rw [Function.update_self]
      exact ⟨rfl, rfl⟩
    · rw [Function.update_of_ne hgf]
      exact ⟨rfl, rfl⟩
  refine ⟨L.works, fun p g hg => ?_, L.used, L.free_nodup, L.free, fun g hg => ?_⟩
  · rw [(hframe g).1]
    exact L.table p g hg
  · rw [(hframe g).1, (hframe g).2]
    exact L.clean g hg

theorem Linked.record (L : Linked b) (p : PageID) : Linked (b.record p) :=
  ⟨L.works, L.table, L.used, L.free_nodup, L.free, L.clean⟩

theorem Linked.remove (L : Linked b) (p : PageID) : Linked (b.remove p) :=
  ⟨L.works, L.table, L.used, L.free_nodup, L.free, L.clean⟩

theorem page_table_erase {p q : PageID} {f : FrameID} (h : (b.erase p).page_table q = some f) :
    q ≠ p ∧ b.page_table q = some f := by
  change Function.update b.page_table p none q = some f at h
  by_cases hq : q = p
  · rw [hq, Function.update_self] at h
    cases h
  · rw [Function.update_of_ne hq] at h
    exact ⟨hq, h⟩

/-- Nothing is found in the frame of a page that was taken out of the table. -/
theorem Linked.erase (L : Linked b) {p : PageID} {f : Nat} (hf : b.page_table p = some f) :
    Ready (b.erase p) f := by
  refine ⟨⟨L.works, ?_, ?_, L.free_nodup, ?_, L.clean⟩, L.used p f hf,
    fun h => (L.free f h).2 p hf, ?_⟩
  · exact fun q g h => L.table q g (page_table_erase h).2
  · exact fun q g h => L.used q g (page_table_erase h).2
  · exact fun g hg => ⟨(L.free g hg).1, fun q h => (L.free g hg).2 q (page_table_erase h).2⟩
  · intro q h
    obtain ⟨hne, h⟩ := page_table_erase h
    exact hne ((L.table q f h).symm.trans (L.table p f hf))

/-- A page is put into a frame in which no page is found. -/
theorem Ready.load {f : Nat} (R : Ready b f) (p : PageID) :
    Linked (b.load f p) ∧ (b.load f p).page_table p = some f ∧
      ((b.load f p).frames f).page_id = p := by
  have htable : ∀ q, (b.load f p).page_table q = if q = p then some f else b.page_table q := by
    intro q
    show Function.update b.page_table p (some f) q = _
    by_cases hq : q = p
    · rw [hq, Function.update_self, if_pos rfl]
    · rw [Function.update_of_ne hq, if_neg hq]
  have hself : (b.load f p).frames f = (Page.reset_memory p).inc_pin_count := by
    show Function.update b.frames f _ f = _
    rw [Function.update_self]
  have hother : ∀ g, g ≠ f → (b.load f p).frames g = b.frames g := fun g hg => by
    show Function.update b.frames f _ g = _
    rw [Function.update_of_ne hg]
  have L := R.linked
  refine ⟨⟨L.works, fun q g h => ?_, fun q g h => ?_, L.free_nodup, fun g hg => ⟨(L.free g hg).1,
    fun q h => ?_⟩, fun g hg => ?_⟩, ?_, ?_⟩
  · rw [htable] at h
    split at h
    · rename_i hq
      cases h
      rw [hself, hq]
      rfl
    · have hgf : g ≠ f := by
        rintro rfl
        exact R.unmapped q h
      rw [hother g hgf]
      exact L.table q g h
  · rw [htable] at h
    split at h
    · cases h
      exact R.lt
    · exact L.used q g h
  · rw [htable] at h
    split at h
    · cases h
      exact R.taken hg
    · exact (L.free g hg).2 q h
  · have hgf : g ≠ f := by
      rintro rfl
      rcases hg with hg | hg
      · exact R.taken hg
      · exact absurd R.lt (Nat.not_lt.mpr hg)
    rw [hother g hgf]
    exact L.clean g hg
  · rw [htable, if_pos rfl]
  · rw [hself]
    rfl

/-- A frame comes from the free ones, or is a new one, or is that of a page that has to leave. -/
theorem Linked.find_next_frame (L : Linked b) :
    (NoFrame b ∧ b.find_next_frame = (none, b)) ∨
    (¬ NoFrame b ∧ (∀ v f, ¬ Victim b v f) ∧ ∃ f b', b.find_next_frame = (some f, b') ∧
      Ready b' f ∧ (b'.frames f).page_id = none ∧ (b'.frames f).is_dirty = false ∧
      b'.page_table = b.page_table ∧ b'.disk_manager = b.disk_manager) ∨
    (∃ v f, Victim b v f ∧ b.find_next_frame = (some f, b)) := by
  unfold BufferPoolManager.find_next_frame
  split
  · rename_i f rest hfree
    have hmem : f ∈ b.free_frames_list := by
      rw [hfree]
      exact List.mem_cons_self
    have hnd := L.free_nodup
    rw [hfree, List.nodup_cons] at hnd
    have hsub : ∀ g, g ∈ rest → g ∈ b.free_frames_list := fun g hg => by
      rw [hfree]
      exact List.mem_cons_of_mem _ hg
    have hne : b.free_frames_list ≠ [] := List.ne_nil_of_mem hmem
    exact .inr (.inl ⟨fun h => hne h.1, fun v g V => hne V.full.1, f, _, rfl, ⟨⟨L.works, L.table,
      L.used, hnd.2, fun g hg => L.free g (hsub g hg), fun g hg => L.clean g (hg.imp_left (hsub g))⟩,
      (L.free f hmem).1, hnd.1, (L.free f hmem).2⟩, (L.clean f (.inl hmem)).1,
      (L.clean f (.inl hmem)).2, rfl, rfl⟩)
  rename_i hfree
  by_cases hsize : b.pool_size < b.pool_capacity
  · rw [if_pos hsize]
    refine .inr (.inl ⟨fun h => absurd h.2.1 (Nat.not_le.mpr hsize),
      fun v f V => absurd V.full.2 (Nat.not_le.mpr hsize), b.pool_size, _, rfl, ?_, ?_⟩)
    · have hlinked : Linked { b with pool_size := b.pool_size + 1 } := by
        refine ⟨L.works, L.table, fun p f h => Nat.lt_succ_of_lt (L.used p f h), L.free_nodup,
          fun f h => ⟨Nat.lt_succ_of_lt (L.free f h).1, (L.free f h).2⟩, fun f h => ?_⟩
        exact L.clean f (h.imp_right fun h => Nat.le_of_succ_le h)
      refine ⟨hlinked, Nat.lt_succ_self _, fun h => ?_, fun p h => ?_⟩
      · exact absurd (L.free _ h).1 (Nat.lt_irrefl _)
      · exact absurd (L.used p _ h) (Nat.lt_irrefl _)
    · have hclean := L.clean b.pool_size (.inr (Nat.le_refl _))
      exact ⟨hclean.1, hclean.2, rfl, rfl⟩
  rw [if_neg hsize]
  by_cases hlru : b.find_lru = INVALID_PAGE_ID
  · rw [if_neg (not_not.mpr hlru)]
    exact .inl ⟨⟨hfree, Nat.not_lt.mp hsize, hlru⟩, rfl⟩
  · rw [if_pos hlru]
    obtain ⟨v, hv⟩ := Option.ne_none_iff_exists'.mp hlru
    obtain ⟨f, hf, _⟩ := find_lru_some hv
    rw [hv, hf]
    exact .inr (.inr ⟨v, f, ⟨⟨hfree, Nat.not_lt.mp hsize⟩, hv, hf⟩, rfl⟩)

/-- Nothing leaves a frame that is empty. -/
theorem evict_clean {f : FrameID} (hid : (b.frames f).page_id = none)
    (hclean : (b.frames f).is_dirty = false) : b.evict f = (.ok (), b) := by
  unfold BufferPoolManager.evict
  simp only [hid, hclean, INVALID_PAGE_ID, ne_eq, not_true_eq_false, if_false, Bool.false_eq_true]

/-- A page leaves the page table first. Then it is written, if it is one of the disk. -/
theorem Linked.evict_victim (L : Linked b) {v f : Nat} (hf : b.page_table (some v) = some f) :
    (∃ b', b.evict f = (.ok (), b') ∧ Ready b' f ∧
      ((b.frames f).is_dirty = true → v < b.disk_manager.capacity) ∧
      b'.disk_manager.capacity = b.disk_manager.capacity ∧
      ∀ p, b.page_table p = none → b'.page_table p = none) ∨
    ((b.frames f).is_dirty = true ∧ b.disk_manager.capacity ≤ v ∧
      ∃ e b', b.evict f = (.error e, b') ∧ Linked b' ∧ b'.page_table (some v) = none) := by
  have hid := L.table _ f hf
  have R := L.erase hf
  have hnone : ((b.erase (some v)).remove (some v)).page_table (some v) = none :=
    Function.update_self ..
  have hkeeps : ∀ p, b.page_table p = none → (b.erase (some v)).page_table p = none := by
    intro p hp
    rcases hq : (b.erase (some v)).page_table p with _ | g
    · rfl
    · have := (page_table_erase hq).2
      rw [hp] at this
      cases this
  unfold BufferPoolManager.evict
  simp only [hid, if_pos (show some v ≠ INVALID_PAGE_ID from nofun)]
  cases hdirty : (b.frames f).is_dirty with
  | false =>
    rw [if_neg Bool.false_ne_true]
    exact .inl ⟨_, rfl, ⟨R.linked.remove _, R.lt, R.taken, R.unmapped⟩, nofun, rfl, hkeeps⟩
  | true =>
    rw [if_pos rfl]
    have hflush : ((b.erase (some v)).remove (some v)).flush_page (b.frames f) =
        (if v ≥ b.disk_manager.capacity then
          .error ("DiskManager: trying to write into not allocated page: " ++ to_string (some v))
        else .ok { (b.erase (some v)).remove (some v) with
          disk_manager := { b.disk_manager with
            file := Function.update b.disk_manager.file v (b.frames f).data } }) := by
      unfold BufferPoolManager.flush_page DiskManager.write_page
      simp only [BufferPoolManager.remove, BufferPoolManager.erase, hid]
      split
      · rfl
      · rw [if_neg (by simp [L.works.pwrite])]
        rfl
    rw [hflush]
    by_cases hv : v ≥ b.disk_manager.capacity
    · rw [if_pos hv]
      exact .inr ⟨rfl, hv, _, _, rfl, R.linked.remove _, hnone⟩
    · rw [if_neg hv]
      refine .inl ⟨_, rfl, ⟨(R.linked.remove _).set_disk ⟨L.works.pread, L.works.pwrite⟩, R.lt,
        R.taken, R.unmapped⟩, fun _ => Nat.lt_of_not_le hv, rfl, hkeeps⟩

/-- The end of `swap_page`. -/
def BufferPoolManager.read (b : BufferPoolManager) (f : FrameID) (p : PageID)
    (read_from_disk : Bool) : Except String (Option FrameID) × BufferPoolManager :=
  if read_from_disk then
    match b.disk_manager.read_page p with
    | .error e => (.error e, b)
    | .ok data => (.ok (some f), b.set_data f data)
  else (.ok (some f), b)

/-- No frame is found, or the page that has to leave is not one of the disk, or the new page has a
frame, and is read if need be. -/
theorem Linked.swap_page (L : Linked b) (p : PageID) (rd : Bool) :
    (NoFrame b ∧ b.swap_page p rd = (.ok none, b)) ∨
    (¬ NoFrame b ∧ ¬ VictimOnDisk b ∧ ∃ v e b', b.page_table (some v) ≠ none ∧
      b.swap_page p rd = (.error e, b') ∧ Linked b' ∧ b'.page_table (some v) = none) ∨
    (¬ NoFrame b ∧ VictimOnDisk b ∧ ∃ f b', b.swap_page p rd = b'.read f p rd ∧ Linked b' ∧
      b'.page_table p = some f ∧ b'.disk_manager.capacity = b.disk_manager.capacity) := by
  unfold BufferPoolManager.swap_page
  rcases L.find_next_frame with ⟨hno, hfind⟩ | ⟨hno, hvictim, f, b0, hfind, R, hid, hclean, htable,
    hdisk⟩ | ⟨v, f, V, hfind⟩
  · rw [hfind]
    exact .inl ⟨hno, rfl⟩
  · rw [hfind]
    simp only [evict_clean hid hclean]
    obtain ⟨L', ht, _⟩ := R.load p
    refine .inr (.inr ⟨hno, fun v g V => absurd V (hvictim v g), f, b0.load f p, rfl, L', ht, ?_⟩)
    show b0.disk_manager.capacity = _
    rw [hdisk]
  · have hno : ¬ NoFrame b := fun h => nomatch h.2.2.symm.trans V.lru
    rw [hfind]
    simp only
    rcases L.evict_victim V.table with ⟨b1, hev, R, hdisk, hcap, _⟩ | ⟨hdirty, hcap, e, b1, hev, L1, ht⟩
    · rw [hev]
      obtain ⟨L', ht, _⟩ := R.load p
      refine .inr (.inr ⟨hno, fun w g W hw => ?_, f, b1.load f p, rfl, L', ht, hcap⟩)
      obtain rfl : w = v := Option.some.inj (W.lru.symm.trans V.lru)
      obtain rfl : g = f := Option.some.inj (W.table.symm.trans V.table)
      exact hdisk hw
    · rw [hev]
      refine .inr (.inl ⟨hno, fun h => ?_, v, e, b1, by rw [V.table]; nofun, rfl, L1, ht⟩)
      exact absurd (h v f V hdirty) (Nat.not_lt.mpr hcap)

theorem Linked.read (L : Linked b) (f : FrameID) (p : PageID) (rd : Bool) :
    Linked (b.read f p rd).2 := by
  unfold BufferPoolManager.read
  split
  · split
    · exact L
    · exact L.set_data f _
  · exact L

theorem Linked.after_swap_page (L : Linked b) (p : PageID) (rd : Bool) :
    Linked (b.swap_page p rd).2 := by
  rcases L.swap_page p rd with ⟨_, h⟩ | ⟨_, _, _, _, _, _, h, L', _⟩ | ⟨_, _, f, _, h, L', _⟩
  · rw [h]
    exact L
  · rw [h]
    exact L'
  · rw [h]
    exact L'.read f p rd

theorem noFaults_write_page {d d' : DiskManager} {p : PageID} {data : PageData} (h : NoFaults d)
    (hw : d.write_page p data = .ok d') : NoFaults d' := by
  rw [write_page_keeps hw]
  exact ⟨h.pread, h.pwrite⟩

theorem Linked.flush_page (L : Linked b) {page : Page} {b' : BufferPoolManager}
    (h : b.flush_page page = .ok b') : Linked b' := by
  unfold BufferPoolManager.flush_page at h
  rcases hw : b.disk_manager.write_page page.page_id page.data with e | d
  · rw [hw] at h
    cases h
  · rw [hw] at h
    cases h
    exact L.set_disk (noFaults_write_page L.works hw)

theorem Linked.flush_frames (L : Linked b) (ids : List FrameID) :
    Linked (BufferPoolManager.flush_frames ids b).2 := by
  induction ids generalizing b with
  | nil => exact L
  | cons id ids ih =>
    unfold BufferPoolManager.flush_frames
    split
    · split
      · exact L
      · rename_i b' hb
        exact ih (L.flush_page hb)
    · exact ih L

theorem Linked.allocate_page (L : Linked b) : Linked b.allocate_page.2 := by
  refine L.set_disk ?_
  unfold DiskManager.allocate_page
  split
  · exact ⟨L.works.pread, L.works.pwrite⟩
  · exact ⟨L.works.pread, L.works.pwrite⟩

theorem Linked.find_cached_page (L : Linked b) (p : PageID) :
    (∃ f b', b.page_table p = some f ∧ b.find_cached_page p = (some f, b') ∧ Linked b') ∨
      (b.page_table p = none ∧ b.find_cached_page p = (none, b)) := by
  unfold BufferPoolManager.find_cached_page
  rcases hf : b.page_table p with _ | f
  · exact .inr ⟨rfl, rfl⟩
  · have hframe : Linked (b.set_frame f (b.frames f).inc_pin_count) := L.set_frame hf (L.table p f hf)
    exact .inl ⟨f, _, rfl, rfl, hframe.record p⟩

theorem Linked.fetch_page (L : Linked b) (p : PageID) : Linked (b.fetch_page p).2 := by
  unfold BufferPoolManager.fetch_page
  rcases L.find_cached_page p with ⟨f, b', _, h, L'⟩ | ⟨_, h⟩
  · rw [h]
    exact L'
  · rw [h]
    exact L.after_swap_page p true

theorem Linked.unpin_page (L : Linked b) (p : PageID) (dirty : Bool) :
    Linked (b.unpin_page p dirty) := by
  unfold BufferPoolManager.unpin_page
  split
  · rename_i f hf
    refine L.set_frame hf ?_
    split <;> exact L.table p f hf
  · exact L

theorem Linked.deallocate (L : Linked b) (p : PageID) : Linked (b.deallocate p).2 := by
  unfold BufferPoolManager.deallocate DiskManager.deallocate_page
  split
  · exact L
  rename_i d hd
  split at hd
  · cases hd
  split at hd
  · cases hd
    exact L
  · cases hd
    exact L.set_disk ⟨L.works.pread, L.works.pwrite⟩

/-- The frame of a deleted page is empty, and free again. -/
theorem Linked.drop_frame (L : Linked b) {p : PageID} {f : Nat} (hf : b.page_table p = some f) :
    Linked (b.drop_frame p f) := by
  have R := L.erase hf
  have hother : ∀ g, g ≠ f → (b.drop_frame p f).frames g = b.frames g := fun g hg =>
    Function.update_of_ne hg _ _
  have hself : (b.drop_frame p f).frames f = Page.reset_memory INVALID_PAGE_ID :=
    Function.update_self ..
  refine ⟨L.works, fun q g h => ?_, R.linked.used, List.nodup_cons.mpr ⟨R.taken, L.free_nodup⟩,
    fun g hg => ?_, fun g hg => ?_⟩
  · have hgf : g ≠ f := by
      rintro rfl
      exact R.unmapped q h
    rw [hother g hgf]
    exact R.linked.table q g h
  · rcases List.mem_cons.mp hg with rfl | hg
    · exact ⟨R.lt, R.unmapped⟩
    · exact R.linked.free g hg
  · by_cases hgf : g = f
    · rw [hgf, hself]
      exact ⟨rfl, rfl⟩
    · rw [hother g hgf]
      exact L.clean g (hg.imp_left fun hg => (List.mem_cons.mp hg).resolve_left hgf)

theorem Linked.delete_page (L : Linked b) (p : PageID) : Linked (b.delete_page p).2 := by
  unfold BufferPoolManager.delete_page
  split
  · rename_i f hf
    split
    · exact L
    · exact (L.drop_frame hf).deallocate p
  · exact L.deallocate p

theorem Linked.after (L : Linked b) (call : AnyCall) : Linked (b.after call) := by
  cases call with
  | new_page => exact L.allocate_page.after_swap_page _ _
  | fetch_page p => exact L.fetch_page p
  | unpin_page p dirty => exact L.unpin_page p dirty
  | delete_page p => exact L.delete_page p
  | flush_all => exact L.flush_frames _
  | write f data => exact L.set_data f data

theorem linked_reach (h : callMachine.Reach always b) : Linked b := by
  refine h.invariant ?_ ?_
  · rintro _ ⟨d, k, hd, rfl⟩
    exact linked_make hd k
  · rintro s call t L _ ht
    cases ht
    exact L.after call

/-! ## Calls that fail -/

/-- The frames that a new page could have. -/
def BufferPoolManager.usable_frames (b : BufferPoolManager) : Nat :=
  b.free_frames_list.length + (b.pool_capacity - b.pool_size) +
    (b.mru_pages.filter b.evictable).length

/-- The pages that are found, the pins, the frames to use, and the pages of the disk are the same. -/
structure Untouched (b b' : BufferPoolManager) : Prop where
  table : b'.page_table = b.page_table
  pins : ∀ f, (b'.frames f).pin_count = (b.frames f).pin_count
  usable : b'.usable_frames = b.usable_frames
  allocated : ∀ n, Allocated b'.disk_manager n ↔ Allocated b.disk_manager n

/-- The call throws, or returns no page. -/
def Fails (r : Except String (Option FrameID)) : Prop := ∀ f, r ≠ .ok (some f)

/-- A fetch that fails changes nothing, and fails again. -/
def FailedFetchIsUndone (b : BufferPoolManager) (p : PageID) : Prop :=
  Fails (b.fetch_page p).1 →
    Untouched b (b.fetch_page p).2 ∧ Fails ((b.fetch_page p).2.fetch_page p).1

/-- A new page that is not returned changes nothing. -/
def FailedNewPageIsUndone (b : BufferPoolManager) : Prop :=
  b.new_page.1 = .ok none → Untouched b b.new_page.2

def OnDisk (d : DiskManager) (p : PageID) : Prop := ∃ n, p = some n ∧ n < d.capacity

/-- The id that is given out next is not allocated. On a free list it may be there twice, or be one
that nobody has allocated. -/
def TakesFreeId (d : DiskManager) : Prop :=
  match d.free_list with
  | [] => True
  | p :: rest => OnDisk d p ∧ p ∉ rest

theorem untouched_refl (b : BufferPoolManager) : Untouched b b :=
  ⟨rfl, fun _ => rfl, rfl, fun _ => Iff.rfl⟩

theorem Linked.read_page_iff (L : Linked b) (p : PageID) :
    (∃ data, b.disk_manager.read_page p = .ok data) ↔ OnDisk b.disk_manager p := by
  unfold DiskManager.read_page OnDisk
  rcases p with _ | n
  · constructor
    · rintro ⟨data, h⟩
      cases h
    · rintro ⟨n, h, _⟩
      cases h
  simp only
  by_cases hn : n ≥ b.disk_manager.capacity
  · rw [if_pos hn]
    constructor
    · rintro ⟨data, h⟩
      cases h
    · rintro ⟨m, hm, hlt⟩
      cases hm
      exact absurd hlt (Nat.not_lt.mpr hn)
  · rw [if_neg hn, if_neg (by simp [L.works.pread])]
    exact ⟨fun _ => ⟨n, rfl, Nat.lt_of_not_le hn⟩, fun _ => ⟨_, rfl⟩⟩

/-- Of a page that was put into its frame the read is left. -/
theorem Linked.read_fails_iff (L : Linked b) (f : FrameID) (p : PageID) :
    (¬ OnDisk b.disk_manager p ∧ ∃ e, b.read f p true = (.error e, b)) ∨
      (OnDisk b.disk_manager p ∧ (b.read f p true).1 = .ok (some f)) := by
  unfold BufferPoolManager.read
  rw [← L.read_page_iff, if_pos rfl]
  rcases b.disk_manager.read_page p with e | data
  · exact .inl ⟨fun h => (by obtain ⟨_, h⟩ := h; cases h), e, rfl⟩
  · exact .inr ⟨⟨data, rfl⟩, rfl⟩

/-- A failed fetch is undone when the page is cached, or there is no frame for it, or else it is on
the disk and so is the page that has to leave. -/
theorem Linked.failedFetch_iff (L : Linked b) (p : PageID) : FailedFetchIsUndone b p ↔
    b.page_table p ≠ none ∨ NoFrame b ∨ (OnDisk b.disk_manager p ∧ VictimOnDisk b) := by
  unfold FailedFetchIsUndone
  rcases L.find_cached_page p with ⟨f, b', hf, hfind, _⟩ | ⟨hp, hfind⟩
  · have hfetch : b.fetch_page p = (.ok (some f), b') := by
      unfold BufferPoolManager.fetch_page
      rw [hfind]
    rw [hfetch]
    exact ⟨fun _ => .inl (by rw [hf]; nofun), fun _ h => absurd rfl (h f)⟩
  have hfetch : b.fetch_page p = b.swap_page p true := by
    unfold BufferPoolManager.fetch_page
    rw [hfind]
  rw [hfetch]
  have hcached : ¬ b.page_table p ≠ none := not_not.mpr hp
  rcases L.swap_page p true with ⟨hno, h⟩ | ⟨hno, hvictim, v, e, b', hv, h, _, hv'⟩ |
    ⟨hno, hvictim, f, b', h, L', hp', hcap⟩
  · -- nothing has happened yet
    rw [h]
    refine ⟨fun _ => .inr (.inl hno), fun _ _ => ⟨untouched_refl b, ?_⟩⟩
    rw [hfetch, h]
    nofun
  · -- the page that had to leave is not found any more
    rw [h]
    refine ⟨fun hk => ?_, fun hor => ?_⟩
    · obtain ⟨U, _⟩ := hk nofun
      exact absurd (U.table ▸ hv') hv
    · rcases hor with hor | hor | hor
      · exact absurd hor hcached
      · exact absurd hor hno
      · exact absurd hor.2 hvictim
  · have hdisk : OnDisk b'.disk_manager p ↔ OnDisk b.disk_manager p := by
      unfold OnDisk
      rw [hcap]
    rw [h]
    rcases L'.read_fails_iff f p with ⟨hoff, e, hread⟩ | ⟨hon, hread⟩
    · -- the page is found now, and its read has failed
      rw [hread]
      refine ⟨fun hk => ?_, fun hor => ?_⟩
      · obtain ⟨U, _⟩ := hk nofun
        have htable := congrFun U.table p
        rw [hp', hp] at htable
        cases htable
      · rcases hor with hor | hor | hor
        · exact absurd hor hcached
        · exact absurd hor hno
        · exact absurd (hdisk.mpr hor.1) hoff
    · rw [hread]
      exact ⟨fun _ => .inr (.inr ⟨hdisk.mp hon, hvictim⟩), fun _ hfail => absurd rfl (hfail f)⟩

/-- The id that is given out becomes an allocated one, unless it is on the free list again. -/
theorem allocated_same_iff (d : DiskManager) :
    (∀ n, Allocated d.allocate_page.2 n ↔ Allocated d n) ↔ ¬ TakesFreeId d := by
  unfold DiskManager.allocate_page TakesFreeId Allocated OnDisk
  rcases hfree : d.free_list with _ | ⟨p, rest⟩
  · simp only [not_true_eq_false, iff_false]
    intro h
    have hlast := (h d.capacity).mp ⟨Nat.lt_succ_self _, List.not_mem_nil⟩
    exact absurd hlast.1 (Nat.lt_irrefl _)
  simp only [List.mem_cons, not_or]
  constructor
  · rintro h ⟨⟨n, rfl, hlt⟩, hrest⟩
    exact ((h n).mp ⟨hlt, hrest⟩).2.1 rfl
  · intro h n
    refine ⟨fun hn => ⟨hn.1, fun hp => ?_, hn.2⟩, fun hn => ⟨hn.1, hn.2.2⟩⟩
    exact h ⟨⟨n, hp.symm, hn.1⟩, hp ▸ hn.2⟩

theorem Linked.failedNewPage_iff (L : Linked b) : FailedNewPageIsUndone b ↔
    ¬ (NoFrame b ∧ TakesFreeId b.disk_manager) := by
  unfold FailedNewPageIsUndone BufferPoolManager.new_page
  rcases L.allocate_page.swap_page b.allocate_page.1 false with ⟨hno, h⟩ |
    ⟨hno, _, v, e, b', _, h, _⟩ | ⟨hno, _, f, b', h, _⟩
  · rw [h]
    change NoFrame b at hno
    have hsame := allocated_same_iff b.disk_manager
    constructor
    · rintro hk ⟨_, htakes⟩
      exact hsame.mp (hk rfl).allocated htakes
    · intro hnot _
      exact ⟨rfl, fun _ => rfl, rfl, hsame.mpr fun htakes => hnot ⟨hno, htakes⟩⟩
  · rw [h]
    exact ⟨fun _ hnot => hno hnot.1, fun _ => nofun⟩
  · rw [h]
    exact ⟨fun _ hnot => hno hnot.1, fun _ => nofun⟩

/-- Whatever has been called before: a fetch that fails has changed nothing if and only if the page
is cached (then it does not fail), or there is no frame for it, or it and the page that has to leave
for it are on the disk. A new page that is not returned has changed nothing if and only if there is
a frame, or the id that was taken is one that is not free. -/
theorem failed_calls_are_undone_when (h : callMachine.Reach always b) :
    (∀ p, FailedFetchIsUndone b p ↔
      b.page_table p ≠ none ∨ NoFrame b ∨ (OnDisk b.disk_manager p ∧ VictimOnDisk b)) ∧
    (FailedNewPageIsUndone b ↔ ¬ (NoFrame b ∧ TakesFreeId b.disk_manager)) := by
  have L := linked_reach h
  exact ⟨L.failedFetch_iff, L.failedNewPage_iff⟩

end

/-- A pool of one frame, over a new disk. -/
def one_frame : BufferPoolManager := .make new_disk 1

theorem one_frame_reach : callMachine.Reach always one_frame :=
  .start ⟨new_disk, 1, ⟨fun _ => rfl, fun _ => rfl⟩, rfl⟩

/-- Its frame is pinned. -/
def full_pool : BufferPoolManager := one_frame.after .new_page

theorem full_pool_reach : callMachine.Reach always full_pool :=
  .step (e := .new_page) one_frame_reach trivial rfl

theorem a_fetch_without_a_frame_is_undone :
    (full_pool.fetch_page (some 0)).1 = .ok none ∧ FailedFetchIsUndone full_pool (some 0) := by
  refine ⟨rfl, ((failed_calls_are_undone_when full_pool_reach).1 (some 0)).mpr (.inr (.inl ?_))⟩
  exact ⟨rfl, Nat.le_refl _, rfl⟩

/-- The fetch of a page that nobody has allocated throws, and takes the only frame; the next fetch
of it returns the frame. A new page that gets no frame keeps its id. -/
theorem a_fetch_that_throws_takes_a_frame :
    (callMachine.Reach always one_frame ∧
      (one_frame.fetch_page (some 7)).1 = .error "DiskManager: trying to read not allocated page: 7" ∧
      ((one_frame.fetch_page (some 7)).2.fetch_page (some 7)).1 = .ok (some 0) ∧
      ((one_frame.fetch_page (some 7)).2.fetch_page (some 0)).1 = .ok none ∧
      ¬ FailedFetchIsUndone one_frame (some 7)) ∧
    (callMachine.Reach always full_pool ∧ full_pool.new_page.1 = .ok none ∧
      ¬ Allocated full_pool.disk_manager 2 ∧ Allocated full_pool.new_page.2.disk_manager 2 ∧
      ¬ FailedNewPageIsUndone full_pool) := by
  have herror : (one_frame.fetch_page (some 7)).1
      = .error "DiskManager: trying to read not allocated page: 7" := by decide +kernel
  have hagain : ((one_frame.fetch_page (some 7)).2.fetch_page (some 7)).1 = .ok (some 0) := by
    decide +kernel
  refine ⟨⟨one_frame_reach, herror, hagain, ?_, fun h => ?_⟩,
    ⟨full_pool_reach, rfl, by decide, by decide, fun h => ?_⟩⟩
  · decide +kernel
  · have hfails : Fails (one_frame.fetch_page (some 7)).1 := by
      rw [herror]
      nofun
    exact (h hfails).2 0 hagain
  · exact absurd (((h rfl).allocated 2).mp (by decide)) (by decide)

/-! ## Evictions that fail -/

/-- The next page takes the frame of a dirty page, whose write comes back incomplete. -/
structure EvictionFails (b : BufferPoolManager) (v f : Nat) : Prop extends Victim b v f where
  page : (b.frames f).page_id = some v
  dirty : (b.frames f).is_dirty = true
  known : v < b.disk_manager.capacity
  incomplete : b.disk_manager.pwrite_fails v = true

/-- The page is in its frame as before, dirty, and is found there, by a fetch and by the next
eviction. -/
structure VictimKept (b b' : BufferPoolManager) (v f : Nat) : Prop where
  table : b'.page_table (some v) = some f
  listed : some v ∈ b'.mru_pages
  frame : b'.frames f = b.frames f
  fetched : ∃ g b2, b'.fetch_page (some v) = (.ok (some g), b2) ∧
    (b2.frames g).data = (b.frames f).data

/-- The call has thrown, and neither the page table nor the replacer has the page. -/
def LosesVictim (v : Nat) (r : Except String (Option FrameID) × BufferPoolManager) : Prop :=
  r.1 = .error ("DiskManager: incomplete write for page: " ++ to_string (some v)) ∧
    r.2.page_table (some v) = none ∧ some v ∉ r.2.mru_pages

section
variable {b : BufferPoolManager} {v f : Nat}

/-- The page is taken out of the table and the replacer before it is written. -/
theorem EvictionFails.swap_page (E : EvictionFails b v f) (p : PageID) (rd : Bool) :
    LosesVictim v (b.swap_page p rd) := by
  have hfind : b.find_next_frame = (some f, b) := by
    unfold BufferPoolManager.find_next_frame
    rw [E.full.1]
    simp only
    rw [if_neg (Nat.not_lt.mpr E.full.2), E.lru, if_pos (show some v ≠ INVALID_PAGE_ID from nofun),
      E.table]
  have hflush : ((b.erase (some v)).remove (some v)).flush_page (b.frames f) =
      .error ("DiskManager: incomplete write for page: " ++ to_string (some v)) := by
    unfold BufferPoolManager.flush_page DiskManager.write_page
    simp only [BufferPoolManager.remove, BufferPoolManager.erase, E.page]
    rw [if_neg (Nat.not_le.mpr E.known), if_pos E.incomplete]
    rfl
  have hevict : b.evict f =
      (.error ("DiskManager: incomplete write for page: " ++ to_string (some v)),
        (b.erase (some v)).remove (some v)) := by
    unfold BufferPoolManager.evict
    simp only [E.page, if_pos (show some v ≠ INVALID_PAGE_ID from nofun), E.dirty, if_true, hflush]
  unfold BufferPoolManager.swap_page
  rw [hfind]
  simp only [hevict]
  refine ⟨rfl, Function.update_self .., ?_⟩
  show some v ∉ b.mru_pages.filter (· ≠ some v)
  simp

theorem EvictionFails.allocate_page (E : EvictionFails b v f) :
    EvictionFails b.allocate_page.2 v f := by
  have hcap := capacity_allocate_page b
  refine ⟨⟨E.full, E.lru, E.table⟩, E.page, E.dirty, Nat.lt_of_lt_of_le E.known hcap, ?_⟩
  show b.disk_manager.allocate_page.2.pwrite_fails v = true
  rcases allocate_page_cases b.disk_manager with ⟨_, _, _, h⟩ | ⟨_, h⟩ <;> rw [h] <;>
    exact E.incomplete

theorem LosesVictim.not_kept {r : Except String (Option FrameID) × BufferPoolManager}
    (h : LosesVictim v r) (b : BufferPoolManager) (f : Nat) : ¬ VictimKept b r.2 v f :=
  fun K => absurd (K.table.symm.trans h.2.1) nofun

/-- Whenever the write of an evicted page fails, the call throws, and the page is not found any
more. -/
theorem a_victim_is_lost_when_its_write_fails (E : EvictionFails b v f) :
    (LosesVictim v b.new_page ∧ ¬ VictimKept b b.new_page.2 v f) ∧
      ∀ p, b.page_table p = none →
        LosesVictim v (b.fetch_page p) ∧ ¬ VictimKept b (b.fetch_page p).2 v f := by
  have hnew : LosesVictim v b.new_page := E.allocate_page.swap_page _ _
  refine ⟨⟨hnew, hnew.not_kept b f⟩, fun p hp => ?_⟩
  have hfetch : LosesVictim v (b.fetch_page p) := by
    unfold BufferPoolManager.fetch_page BufferPoolManager.find_cached_page
    rw [hp]
    exact E.swap_page p true
  exact ⟨hfetch, hfetch.not_kept b f⟩

end

/-- The writes of page 1 come back incomplete. -/
def broken_disk : DiskManager := ⟨1, [], fun _ => zeroPage, fun _ => false, fun n => n == 1⟩

/-- Page 1 was written and let go of, and page 2 is in the other frame. -/
def dirty_pool : BufferPoolManager :=
  [AnyCall.new_page, .write 0 sevenSlots, .unpin_page (some 1) true, .new_page,
    .unpin_page (some 2) false].foldl BufferPoolManager.after (.make broken_disk 2)

theorem dirty_pool_fails : EvictionFails dirty_pool 1 0 := by
  refine ⟨⟨⟨?_, ?_⟩, ?_, ?_⟩, ?_, ?_, ?_, ?_⟩ <;> decide +kernel

theorem a_new_page_loses_a_dirty_page :
    LosesVictim 1 dirty_pool.new_page ∧ ¬ VictimKept dirty_pool dirty_pool.new_page.2 1 0 :=
  (a_victim_is_lost_when_its_write_fails dirty_pool_fails).1

/-- After the call that failed a fetch returns the page as it is on the disk. -/
theorem a_lost_page_is_read_from_the_disk :
    EvictionFails dirty_pool 1 0 ∧ (dirty_pool.frames 0).data.header.slot_count = 7 ∧
      dirty_pool.new_page.2.page_table (some 1) = none ∧
      (dirty_pool.new_page.2.fetch_page (some 1)).1 = .ok (some 1) ∧
      ((dirty_pool.new_page.2.fetch_page (some 1)).2.frames 1).data.header.slot_count = 0 ∧
      ¬ VictimKept dirty_pool dirty_pool.new_page.2 1 0 := by
  have hgone : dirty_pool.new_page.2.page_table (some 1) = none := by decide +kernel
  refine ⟨dirty_pool_fails, ?_, hgone, ?_, ?_, fun K => absurd (K.table.symm.trans hgone) nofun⟩
  · decide +kernel
  · decide +kernel
  · decide +kernel

end duck.buffer_pool
