-- A pool in order: its parts agree, and no free id is in a frame. That is all
-- that callers who match their pins have to keep; what each call does is said
-- once here, whether the callers save what they write or not.
import DuckDbms.PoolRefinement

open machine duck.slotted_page duck.disk_manager

namespace duck.buffer_pool

open BufferPoolManager

/-- `pins` counts the pins that callers hold. -/
structure InOrder (b : BufferPoolManager) (pins : Nat → Nat) : Prop where
  inv : PoolInv b pins
  faults : NoFaults b.disk_manager
  free_nodup : b.disk_manager.free_list.Nodup
  free : ∀ p ∈ b.disk_manager.free_list,
    ∃ n, p = some n ∧ n < b.disk_manager.capacity ∧ b.page_table p = none

section
variable {b : BufferPoolManager} {pins : Nat → Nat}

/-- Another disk, with more pages and fewer free ids. -/
theorem InOrder.set_disk (O : InOrder b pins) {d : DiskManager} (hfaults : NoFaults d)
    (hcap : b.disk_manager.capacity ≤ d.capacity) (hnd : d.free_list.Nodup)
    (hsub : ∀ p ∈ d.free_list, p ∈ b.disk_manager.free_list) :
    InOrder { b with disk_manager := d } pins := by
  refine ⟨O.inv.set_disk hcap, hfaults, hnd, fun p hp => ?_⟩
  obtain ⟨n, rfl, hn, hc⟩ := O.free p (hsub p hp)
  exact ⟨n, rfl, Nat.lt_of_lt_of_le hn hcap, hc⟩

/-- The id that the disk gives out is in no frame, and no longer free. -/
theorem InOrder.allocate_page (O : InOrder b pins) : ∃ n, b.allocate_page.1 = some n ∧
    n < b.allocate_page.2.disk_manager.capacity ∧ b.page_table (some n) = none ∧
    some n ∉ b.allocate_page.2.disk_manager.free_list ∧ InOrder b.allocate_page.2 pins := by
  have hf := O.faults
  have hnd := O.free_nodup
  unfold BufferPoolManager.allocate_page
  simp only
  rcases allocate_page_cases b.disk_manager with ⟨p, rest, hfree, heq⟩ | ⟨hfree, heq⟩
  · rw [heq]
    rw [hfree, List.nodup_cons] at hnd
    obtain ⟨n, rfl, hn, hu⟩ := O.free p (by simp [hfree])
    exact ⟨n, rfl, hn, hu, hnd.1, O.set_disk ⟨hf.pread, hf.pwrite⟩ (Nat.le_refl _) hnd.2
      fun p hp => by simp [hfree, hp]⟩
  · rw [heq]
    refine ⟨_, rfl, Nat.lt_succ_self _, ?_, by simp [hfree],
      O.set_disk ⟨hf.pread, hf.pwrite⟩ (Nat.le_succ _) hnd fun p hp => hp⟩
    rcases hc : b.page_table (some b.disk_manager.capacity) with _ | f
    · rfl
    · have := O.inv.known _ f hc
      omega

theorem InOrder.swapped (O : InOrder b pins) {b' : BufferPoolManager} {n f : Nat} {rd : Bool}
    (W : Swapped b b' pins n f rd) (hout : some n ∉ b.disk_manager.free_list) :
    InOrder b' (pinMore pins n) := by
  refine ⟨W.inv, ?_, ?_, fun p hp => ?_⟩
  · rw [W.disk]
    exact ⟨O.faults.pread, O.faults.pwrite⟩
  · rw [W.disk]
    exact O.free_nodup
  · rw [W.disk] at hp ⊢
    obtain ⟨m, rfl, hm, hc⟩ := O.free p hp
    have hne : m ≠ n := fun he => hout (he ▸ hp)
    exact ⟨m, rfl, hm, by rw [W.table, if_neg hne, hc, ite_self]⟩

theorem allPinned_of_table (I : PoolInv b pins) (hfree : b.free_frames_list = [])
    (hsize : b.pool_size = b.pool_capacity)
    (h : ∀ m f, b.page_table (some m) = some f → pins m ≠ 0) : AllPinned b := by
  refine ⟨hfree, hsize, fun m g hc => ?_⟩
  rw [I.pin_count_eq hc]
  exact h m g hc

/-- A new page comes into a frame under an id that was in none, or every frame is pinned. -/
theorem InOrder.new_page (O : InOrder b pins) : ∃ n, b.allocate_page.1 = some n ∧
    b.page_table (some n) = none ∧ n < b.allocate_page.2.disk_manager.capacity ∧
    InOrder b.allocate_page.2 pins ∧
    ((∃ f b', b.new_page = (.ok (some f), b') ∧ Swapped b.allocate_page.2 b' pins n f false ∧
      InOrder b' (pinMore pins n)) ∨
    (b.new_page = (.ok none, b.allocate_page.2) ∧ AllPinned b)) := by
  obtain ⟨n, hid, hlt, hu, hout, O1⟩ := O.allocate_page
  refine ⟨n, hid, hu, hlt, O1, ?_⟩
  unfold BufferPoolManager.new_page
  rw [hid]
  rcases O1.inv.swap_page O1.faults hlt false (alone_of_uncached O1.inv hu) with
    ⟨f, b', hswap, W⟩ | ⟨hswap, hfree, hsize, hall⟩
  · exact Or.inl ⟨f, b', hswap, W, O1.swapped W hout⟩
  · exact Or.inr ⟨hswap, allPinned_of_table O.inv hfree hsize hall⟩

/-- A fetch finds the page in its frame, or brings it in, or every frame is pinned. -/
theorem InOrder.fetch_page (O : InOrder b pins) {n : Nat} (ha : Allocated b.disk_manager n) :
    (∃ f, b.page_table (some n) = some f ∧
      b.fetch_page (some n) =
        (.ok (some f), (b.set_frame f (b.frames f).inc_pin_count).record (some n)) ∧
      InOrder ((b.set_frame f (b.frames f).inc_pin_count).record (some n)) (pinMore pins n)) ∨
    (b.page_table (some n) = none ∧
      ((∃ f b', b.fetch_page (some n) = (.ok (some f), b') ∧ Swapped b b' pins n f true ∧
        InOrder b' (pinMore pins n)) ∨
      (b.fetch_page (some n) = (.ok none, b) ∧ AllPinned b))) := by
  rcases hc : b.page_table (some n) with _ | f
  · right
    have hfetch : b.fetch_page (some n) = b.swap_page (some n) true := by
      unfold BufferPoolManager.fetch_page find_cached_page
      rw [hc]
    rw [hfetch]
    refine ⟨rfl, ?_⟩
    rcases O.inv.swap_page O.faults ha.1 true (alone_of_uncached O.inv hc) with
      ⟨f, b', hswap, W⟩ | ⟨hswap, hfree, hsize, hall⟩
    · exact Or.inl ⟨f, b', hswap, W, O.swapped W ha.2⟩
    · exact Or.inr ⟨hswap, allPinned_of_table O.inv hfree hsize hall⟩
  · left
    have hfetch : b.fetch_page (some n) =
        (.ok (some f), (b.set_frame f (b.frames f).inc_pin_count).record (some n)) := by
      unfold BufferPoolManager.fetch_page find_cached_page
      rw [hc]
    refine ⟨f, rfl, hfetch, ?_⟩
    have hid := (O.inv.holds n f).mp hc
    have h1 := O.inv.set_frame (p := (b.frames f).inc_pin_count) hc hid
    have hpin : (b.frames f).inc_pin_count.pin_count = pins n + 1 :=
      congrArg (· + 1) (O.inv.pin_count_eq hc)
    rw [hpin] at h1
    exact ⟨h1.record hc, O.faults, O.free_nodup, O.free⟩

theorem InOrder.unpin_page (O : InOrder b pins) {n : Nat} (hpos : 0 < pins n) (dirty : Bool) :
    InOrder (b.unpin_page (some n) dirty) (pinLess pins n) := by
  obtain ⟨f, _, heq, hinv⟩ := O.inv.unpin_page hpos dirty
  refine ⟨hinv, ?_, ?_, ?_⟩
  all_goals rw [heq]
  · exact O.faults
  · exact O.free_nodup
  · exact O.free

theorem InOrder.set_data (O : InOrder b pins) {n f : Nat} (h : b.page_table (some n) = some f)
    (data : PageData) : InOrder (b.set_data f data) pins :=
  ⟨O.inv.set_data h data, O.faults, O.free_nodup, O.free⟩

/-- What a call does that deletes page `n`. -/
structure Deleted (b b' : BufferPoolManager) (pins : Nat → Nat) (n : Nat) : Prop where
  inorder : InOrder b' pins
  pinned : pins n = 0
  gone : b'.page_table (some n) = none
  table : ∀ m, m ≠ n → b'.page_table (some m) = b.page_table (some m)
  frames : ∀ g, (b.frames g).page_id ≠ some n → b'.frames g = b.frames g
  freed : b'.free_frames_list = (b.page_table (some n)).toList ++ b.free_frames_list
  size : b'.pool_size = b.pool_size ∧ b'.pool_capacity = b.pool_capacity
  mru : b'.mru_pages = if (b.page_table (some n)).isSome then b.mru_pages.filter (· ≠ some n)
    else b.mru_pages
  file : b'.disk_manager.file = b.disk_manager.file
  capacity : b'.disk_manager.capacity = b.disk_manager.capacity

theorem InOrder.drop_frame (O : InOrder b pins) {n f : Nat} (h : b.page_table (some n) = some f)
    (hpin : pins n = 0) : InOrder (b.drop_frame (some n) f) pins := by
  refine ⟨O.inv.drop_frame h hpin, O.faults, O.free_nodup, fun p hp => ?_⟩
  obtain ⟨m, rfl, hm, hc⟩ := O.free p hp
  refine ⟨m, rfl, hm, ?_⟩
  show Function.update b.page_table (some n) none (some m) = none
  by_cases he : (some m : PageID) = some n
  · rw [he, Function.update_self]
  · rw [Function.update_of_ne he, hc]

/-- The id goes back to the disk, unless it is the one of the disk's header. -/
theorem InOrder.deallocate (O : InOrder b pins) {n : Nat} (ha : Allocated b.disk_manager n)
    (hu : b.page_table (some n) = none) : (b.deallocate (some n)).1 ≠ .ok false ∧
    InOrder (b.deallocate (some n)).2 pins ∧ ∃ d, (b.deallocate (some n)).2 = { b with disk_manager := d } ∧
      d.file = b.disk_manager.file ∧ d.capacity = b.disk_manager.capacity := by
  unfold BufferPoolManager.deallocate
  by_cases h0 : n = 0
  · subst h0
    refine ⟨?_, O, b.disk_manager, rfl, rfl, rfl⟩
    intro h
    cases h
  · obtain ⟨hcap, hfile, hlist⟩ := returned_capacity b.disk_manager n
    rw [deallocate_page_eq _ h0]
    have hfaults : NoFaults (returned b.disk_manager n) := by
      unfold returned
      split <;> exact ⟨O.faults.pread, O.faults.pwrite⟩
    refine ⟨by simp, ⟨O.inv.set_disk (by rw [hcap]), hfaults, ?_, fun p hp => ?_⟩,
      returned b.disk_manager n, rfl, hfile, hcap⟩
    · simp only
      rcases hlist with h | h <;> rw [h]
      · exact O.free_nodup
      · exact List.nodup_cons.mpr ⟨ha.2, O.free_nodup⟩
    · simp only at hp ⊢
      rw [hcap]
      rcases hlist with h | h <;> rw [h] at hp
      · exact O.free p hp
      · rcases List.mem_cons.mp hp with rfl | hp
        · exact ⟨n, rfl, ha.1, hu⟩
        · exact O.free p hp

/-- A delete is refused while the page is pinned. Otherwise the frame of the page, if it has one,
is given back, whatever becomes of the id. -/
theorem InOrder.delete_page (O : InOrder b pins) {n : Nat} (ha : Allocated b.disk_manager n) :
    (b.delete_page (some n) = (.ok false, b) ∧ 0 < pins n) ∨
    ((b.delete_page (some n)).1 ≠ .ok false ∧ Deleted b (b.delete_page (some n)).2 pins n) := by
  unfold BufferPoolManager.delete_page
  rcases hc : b.page_table (some n) with _ | f
  · right
    obtain ⟨hok, O1, d, heq, hfile, hcap⟩ := O.deallocate ha hc
    simp only
    refine ⟨hok, O1, O.inv.absent n hc, ?_, fun m _ => ?_, fun g _ => ?_, ?_, ?_, ?_, ?_, ?_⟩
    all_goals rw [heq]
    · exact hc
    · rw [hc]
      rfl
    · exact ⟨rfl, rfl⟩
    · rw [hc]
      rfl
    · exact hfile
    · exact hcap
  · have hcount := O.inv.pin_count_eq hc
    simp only
    by_cases hpos : (b.frames f).pin_count > 0
    · rw [if_pos hpos]
      exact Or.inl ⟨rfl, by omega⟩
    · right
      rw [if_neg hpos]
      have hpin : pins n = 0 := by omega
      have hgone : (b.drop_frame (some n) f).page_table (some n) = none := Function.update_self ..
      obtain ⟨hok, O1, d, heq, hfile, hcap⟩ := (O.drop_frame hc hpin).deallocate ha hgone
      have hid := (O.inv.holds n f).mp hc
      refine ⟨hok, O1, hpin, ?_, fun m hm => ?_, fun g hg => ?_, ?_, ?_, ?_, ?_, ?_⟩
      all_goals rw [heq]
      · exact hgone
      · have hne : (some m : PageID) ≠ some n := by simpa using hm
        exact Function.update_of_ne hne _ _
      · have hne : g ≠ f := by
          rintro rfl
          exact hg hid
        exact Function.update_of_ne hne _ _
      · rw [hc]
        rfl
      · exact ⟨rfl, rfl⟩
      · rw [hc]
        rfl
      · exact hfile
      · exact hcap

/-- `flush_all` changes the file only, and no page changes its data. -/
theorem InOrder.flush_all (O : InOrder b pins) : ∃ file,
    b.flush_all.2 = { b with disk_manager := { b.disk_manager with file } } ∧
    InOrder b.flush_all.2 pins ∧ ∀ n, view b.flush_all.2 n = view b n := by
  obtain ⟨file, hf, hfile, _⟩ := PoolInv.flushed (List.range b.pool_size) O.inv O.faults
  have heq : b.flush_all.2 = { b with disk_manager := { b.disk_manager with file } } := by
    unfold BufferPoolManager.flush_all
    rw [hf]
  refine ⟨file, heq, ?_, fun n => ?_⟩
  · rw [heq]
    exact O.set_disk ⟨O.faults.pread, O.faults.pwrite⟩ (Nat.le_refl _) O.free_nodup fun p hp => hp
  · rw [heq]
    unfold view
    simp only
    rcases hc : b.page_table (some n) with _ | g
    · rcases hfile n with h | ⟨f, hf, _⟩
      · exact h
      · rw [hc] at hf
        cases hf
    · rfl

end

/-! ## Callers who match their pins -/

/-- Callers fetch allocated pages, and write and unpin pages that they hold. -/
def CallersMatchPins (s : FlatStore) : PoolCall → Prop
  | .fetch_page n => Allocated s.pool.disk_manager n
  | .write n _ => 0 < s.pins n
  | .unpin_page n _ => 0 < s.pins n
  | .new_page | .delete_page _ | .flush_all => True

instance (s : FlatStore) (call : PoolCall) : Decidable (CallersMatchPins s call) :=
  match call with
  | .fetch_page n => inferInstanceAs (Decidable (Allocated s.pool.disk_manager n))
  | .write n _ => inferInstanceAs (Decidable (0 < s.pins n))
  | .unpin_page n _ => inferInstanceAs (Decidable (0 < s.pins n))
  | .new_page => .isTrue trivial
  | .delete_page _ => .isTrue trivial
  | .flush_all => .isTrue trivial

theorem inOrder_start {s : FlatStore} (h : flatMachine.start s) : InOrder s.pool s.pins := by
  have I := flatInv_start h
  exact ⟨I.inv, I.faults, I.free_nodup, I.free⟩

end duck.buffer_pool
