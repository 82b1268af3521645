-- Updates with tuples of any length: when the new tuple finds room on the page
-- of the old one, and what the old one and the others read when it does not.
import DuckDbms.HeapMap

open byte_mem duck.slotted_page duck.disk_manager duck.buffer_pool chain

namespace duck.table_heap

/-! ## Room on the page of the old tuple -/

/-- The page once the tuple of the slot is deleted and the page is compacted. -/
def freed_page (d : PageData) (slot : Nat) : PageData :=
  let deleted := (slotted_page.delete_tuple d slot).2
  if is_compacted deleted then deleted else compact deleted

/-- The tuple takes the bytes of the old one, or the bytes that are free without the old one.
`size` is the length as the slot keeps it. -/
def fits_on_page (d : PageData) (slot size : Nat) : Bool :=
  size ≤ (d.slot slot).length || decide ((size : Int) ≤ free_space_bytes (freed_page d slot))

/-- The slot of the old tuple is free, so that only the bytes count. -/
theorem freed_page_spec {d : PageData} {slot : Nat} (g : Good d) (hlive : has_slot d slot = true) :
    (slotted_page.delete_tuple d slot).1 = true ∧ Good (freed_page d slot) ∧
      slot < (freed_page d slot).header.slot_count ∧ rowOf (freed_page d slot) slot = none := by
  obtain ⟨hlt, hrow⟩ := (has_slot_eq d slot).mp hlive
  rcases delete_tuple_spec g slot with ⟨old, _, d2, d3, d4, _⟩ | ⟨_, d2⟩
  swap
  · obtain ⟨old, hold⟩ := Option.ne_none_iff_exists'.mp hrow
    refine absurd ?_ (d2 old)
    rw [rowsOf_getElem?, if_pos hlt, hold]
  obtain ⟨c1, c2, _⟩ := compacted_spec d3
  have hcount : slot < (freed_page d slot).header.slot_count := by
    unfold freed_page
    rw [← length_rowsOf, c2, d4, List.length_set, length_rowsOf]
    exact hlt
  refine ⟨d2, c1, hcount, ?_⟩
  have hrow' : (rowsOf (freed_page d slot))[slot]? = some none := by
    unfold freed_page
    rw [c2, d4, List.getElem?_set_self (by rw [length_rowsOf]; exact hlt)]
  rw [rowsOf_getElem?, if_pos hcount] at hrow'
  exact Option.some.inj hrow'

section
variable {heads : Nat → Prop} {pins : Nat → Nat} {pending : Nat → Prop} {b : BufferPoolManager}
  {n h : Nat}

/-- A page is fetched as it is in the pool or in the file. -/
theorem fetched_view {evicts : Prop} (S : Store evicts pins pending b)
    (ha : Allocated b.disk_manager n) {f : FrameID} {b' : BufferPoolManager}
    (hf : b.fetch_page (some n) = (.ok (some f), b')) : (b'.frames f).data = view b n := by
  unfold BufferPoolManager.fetch_page at hf
  rcases S.inv.find_cached_page n with ⟨g, b1, hfind, hc, _, hfr, _⟩ | ⟨hfind, hu⟩
  · rw [hfind] at hf
    cases hf
    rw [hfr, Function.update_self, view_cached hc]
    rfl
  · rw [hfind] at hf
    simp only at hf
    rcases S.inv.swap_page S.faults ha.1 true (alone_of_uncached S.inv hu) with
      ⟨g, b1, hswap, W⟩ | ⟨hswap, _⟩
    · rw [hswap] at hf
      cases hf
      rw [W.frames, Function.update_self]
      unfold view
      rw [hu]
      -- the page that leaves the frame is another one
      simp only [if_true]
      unfold written
      rcases hv : (b.frames f).page_id with _ | v
      · rfl
      have hne : n ≠ v := by
        rintro rfl
        rw [(S.inv.holds n f).mpr hv] at hu
        cases hu
      simp only
      split
      · rw [Function.update_of_ne hne]
      · rfl
    · rw [hswap] at hf
      cases hf

theorem try_update_in_place_live {d : PageData} (rid : RID) (t : List UInt8)
    (hlive : has_slot d rid.slot_num = true) : (try_update_in_place d rid t).1 =
      decide (t.length % 65536 ≤ (d.slot rid.slot_num).length) := by
  obtain ⟨hlt, hrow⟩ := (has_slot_eq d rid.slot_num).mp hlive
  have hoff : (d.slot rid.slot_num).offset ≠ INVALID_SLOT_OFFSET := fun h => hrow (rowOf_eq_none.mpr h)
  unfold try_update_in_place
  rw [if_neg (by omega)]
  simp only
  rw [if_neg hoff]
  split
  · rw [eq_comm, decide_eq_false_iff_not]
    omega
  · rw [eq_comm, decide_eq_true_eq]
    omega

/-- A tuple whose cut size has room stays on its page; the others leave it. -/
theorem update_section_fits {page : Page} {slot : Nat} (g : Good page.data)
    (hlive : has_slot page.data slot = true) (t : List UInt8) :
    (update_section ⟨page.page_id, slot⟩ t page).1 =
      if fits_on_page page.data slot (t.length % 65536) then .placed ⟨page.page_id, slot⟩
      else .no_room := by
  have hin := try_update_in_place_live ⟨page.page_id, slot⟩ t hlive
  unfold update_section fits_on_page
  simp only at hin ⊢
  rw [if_neg (by simp [hlive])]
  by_cases hfit : t.length % 65536 ≤ (page.data.slot slot).length
  · rw [decide_eq_true hfit] at hin
    generalize try_update_in_place page.data ⟨page.page_id, slot⟩ t = r at hin ⊢
    obtain ⟨_, d⟩ := r
    subst hin
    simp [hfit]
  · rw [decide_eq_false hfit] at hin
    rw [try_update_in_place_eq hin]
    simp only
    obtain ⟨hdeleted, _, hcount, hfree⟩ := freed_page_spec g hlive
    unfold freed_page at hcount hfree ⊢
    generalize slotted_page.delete_tuple page.data slot = r at hdeleted hcount hfree ⊢
    obtain ⟨_, d⟩ := r
    subst hdeleted
    simp only [decide_eq_false hfit, Bool.false_or] at hcount hfree ⊢
    generalize (if is_compacted d = true then d else compact d) = e at *
    unfold slotted_page.insert_tuple
    simp only
    rw [choose_slot_prefered hcount hfree]
    by_cases hroom : free_space_bytes e < (t.length % 65536 : Nat)
    · rw [if_pos hroom]
      simp only
      rw [if_neg (by simpa using hroom)]
    · rw [if_neg hroom]
      simp only
      rw [if_pos (by simpa using hroom)]

/-- No page has room for more than the 8180 bytes that `insert_tuple` lets through. -/
theorem le_of_fits_on_page {d : PageData} {slot size : Nat} (g : Good d)
    (hlive : has_slot d slot = true) (hfit : fits_on_page d slot size = true) : size ≤ 8180 := by
  obtain ⟨hlt, hrow⟩ := (has_slot_eq d slot).mp hlive
  obtain ⟨_, g', hcount, _⟩ := freed_page_spec g hlive
  unfold fits_on_page at hfit
  rw [Bool.or_eq_true, decide_eq_true_eq, decide_eq_true_eq] at hfit
  rcases hfit with hfit | hfit
  · have hoff : (d.slot slot).offset ≠ INVALID_SLOT_OFFSET := fun h => hrow (rowOf_eq_none.mpr h)
    have hdir := g.dir_le
    have hin := g.inside slot hlt hoff
    unfold kPAGE_SIZE at hin
    unfold sizeofPageHeader sizeofSlot at hdir
    omega
  · have hfree := g'.free_le
    unfold free_space_bytes at hfit
    unfold kPAGE_SIZE at hfree
    unfold sizeofPageHeader sizeofSlot at hfit
    omega

/-- A section gets the page as it is in the pool or in the file. -/
theorem with_page_view {α : Type} {evicts : Prop} (S : Store evicts pins pending b)
    (ha : Allocated b.disk_manager n) {section_ : Page → α × PageData × Bool} {a : α}
    {b' : BufferPoolManager} (h : table_heap.with_page b (some n) section_ = (.ok (some a), b')) :
    ∃ page : Page, page.page_id = some n ∧ page.data = view b n ∧ a = (section_ page).1 := by
  unfold table_heap.with_page at h
  rcases S.fetch_page ha with ⟨f, b1, hf, B, _⟩ | ⟨hf, _⟩
  · have hview := fetched_view S ha hf
    rw [hf] at h
    cases h
    exact ⟨b1.frames f, (B.store.inv.holds n f).mp B.table, hview, rfl⟩
  · rw [hf] at h
    cases h

/-- A section that finds no room does the same for the part of the tuple that its size is the
size of. -/
theorem update_section_no_room {page : Page} {rid : RID} {t : List UInt8}
    (h : (update_section rid t page).1 = .no_room) (g : Good page.data) :
    update_section rid t page = update_section rid (cutTuple t) page := by
  have hcut := (update_section_cut page rid t g).1
  rw [h] at hcut
  unfold update_section at h hcut ⊢
  split
  · rfl
  rename_i hlive
  rw [if_neg hlive] at h hcut
  rcases hu : (try_update_in_place page.data rid t).1 with _ | _
  · have hu' := (try_update_in_place_cut g rid t).1.symm.trans hu
    rw [try_update_in_place_eq hu] at h ⊢
    rw [try_update_in_place_eq hu'] at hcut ⊢
    simp only at h hcut ⊢
    generalize slotted_page.delete_tuple page.data rid.slot_num = r at h hcut ⊢
    obtain ⟨_ | _, d⟩ := r
    · rfl
    simp only at h hcut ⊢
    generalize (if is_compacted d = true then d else compact d) = e at h hcut ⊢
    have hnone : ∀ t : List UInt8, (slotted_page.insert_tuple e t (some rid.slot_num)).1 = none →
        slotted_page.insert_tuple e t (some rid.slot_num) = (none, e) := by
      intro t ht
      unfold slotted_page.insert_tuple at ht ⊢
      simp only at ht ⊢
      split
      · rfl
      rename_i hroom
      rw [if_neg hroom] at ht
      split
      · rfl
      · rename_i hc
        rw [hc] at ht
        cases ht
    have hnone1 : (slotted_page.insert_tuple e t (some rid.slot_num)).1 = none := by
      generalize slotted_page.insert_tuple e t (some rid.slot_num) = x at h ⊢
      obtain ⟨_ | slot, d'⟩ := x
      · rfl
      · cases h
    have hnone2 : (slotted_page.insert_tuple e (cutTuple t) (some rid.slot_num)).1 = none := by
      generalize slotted_page.insert_tuple e (cutTuple t) (some rid.slot_num) = x at hcut ⊢
      obtain ⟨_ | slot, d'⟩ := x
      · rfl
      · cases hcut
    rw [hnone _ hnone1, hnone _ hnone2]
  · generalize try_update_in_place page.data rid t = x at hu h
    obtain ⟨_, d⟩ := x
    subst hu
    cases h

theorem has_slot_live {slot : Nat} {old : List UInt8} (hn : OnChain (succ b) heads n)
    (hlive : tupleOf (rows heads b n) slot = some old) : has_slot (view b n) slot = true := by
  rw [rows_on hn] at hlive
  have hrow : (rowsOf (view b n))[slot]? = some (some old) := tupleOf_eq_some.mp hlive
  rw [has_slot_eq]
  rw [rowsOf_getElem?] at hrow
  split at hrow
  · rename_i hlt
    exact ⟨hlt, by rw [Option.some.inj hrow]; simp⟩
  · cases hrow

/-- The first part of `update_tuple` of a tuple that is there. -/
theorem HeapState.update_page_fits (H : HeapState True pins pending heads b)
    (hn : OnChain (succ b) heads n) (hall : ¬ AllPinned b) {slot : Nat} {old : List UInt8}
    (hlive : tupleOf (rows heads b n) slot = some old) (t : List UInt8) :
    ∃ b', Ran True heads pins pending b b' ∧
      if fits_on_page (view b n) slot (t.length % 65536) then
        table_heap.with_page b (some n) (update_section ⟨some n, slot⟩ t) =
          (.ok (some (.placed ⟨some n, slot⟩)), b')
      else
        table_heap.with_page b (some n) (update_section ⟨some n, slot⟩ t) =
            (.ok (some .no_room), b') ∧
          rows heads b' = Function.update (rows heads b) n ((rows heads b n).set slot none) := by
  rcases H.with_page hn _ (fun page hid hm _ => H.update_section_keeps hn slot t page hid hm) with
    ⟨page, b', h1, hid, g, hrows, R, hafter⟩ | ⟨_, h⟩
  swap
  · exact absurd h hall
  refine ⟨b', R, ?_⟩
  obtain ⟨page', hid', hview, hfirst⟩ := with_page_view H.store (H.pages n hn).2 h1
  have hgood : Good (view b n) := (H.pages n hn).1
  have hfits : (update_section ⟨page'.page_id, slot⟩ t page').1 = _ :=
    update_section_fits (by rw [hview]; exact hgood) (by rw [hview]; exact has_slot_live hn hlive) t
  rw [hid', hview] at hfits
  rw [hfits] at hfirst
  rw [h1]
  split
  · rename_i hfit
    rw [if_pos hfit] at hfirst
    rw [hfirst]
  · rename_i hfit
    rw [if_neg hfit] at hfirst
    rw [hfirst]
    refine ⟨rfl, ?_⟩
    rw [hafter, update_section_no_room hfirst g]
    have hcut := congrArg Prod.fst (update_section_no_room hfirst g)
    rw [hfirst] at hcut
    rcases update_section_spec slot g hid (length_cutTuple_lt t) with
      ⟨d, u, _⟩ | ⟨_, d, u, _⟩ | ⟨_, d, u, _, _, _, u5⟩
    · rw [u] at hcut
      cases hcut
    · rw [u] at hcut
      cases hcut
    · rw [u, u5, hrows]

theorem insert_tuple_too_long (b : BufferPoolManager) (first_page_id : PageID) {t : List UInt8}
    (ht : 8180 < t.length) : table_heap.insert_tuple b first_page_id t =
      some (.error "TableHeap::insert_tuple: tuple exceeds maximum page capacity", b) := by
  have hpc : (begin_insert first_page_id t).pc =
      .done (.error "TableHeap::insert_tuple: tuple exceeds maximum page capacity") := if_pos ht
  have hfuel : 8 * (b.disk_manager.capacity + 2) = (8 * b.disk_manager.capacity + 15) + 1 := by omega
  unfold table_heap.insert_tuple
  rw [hfuel, run_insert, hpc]

/-- A tuple that is too long to be inserted keeps its RID, if the call returns one. -/
theorem HeapState.update_too_long (H : HeapState True pins pending heads b)
    (hn : OnChain (succ b) heads n) {slot : Nat} {t : List UInt8} (ht : 8180 < t.length)
    {first : PageID} {ret : RID} {b' : BufferPoolManager}
    (hr : table_heap.update_tuple b first ⟨some n, slot⟩ t = some (.ok (some ret), b')) :
    ret = ⟨some n, slot⟩ := by
  unfold table_heap.update_tuple at hr
  rcases H.with_page hn _ (fun page hid hm _ => H.update_section_keeps hn slot t page hid hm) with
    ⟨page, b1, h1, hid, g, _⟩ | ⟨h1, _⟩
  swap
  · rw [h1] at hr
    cases hr
  rw [h1, (update_section_cut page _ t g).1] at hr
  rcases update_section_spec slot g hid (length_cutTuple_lt t) with
    ⟨d, u, _⟩ | ⟨_, d, u, _⟩ | ⟨_, d, u, _⟩
  · rw [u] at hr
    cases hr
  · rw [u] at hr
    cases hr
    rfl
  · rw [u] at hr
    simp only [insert_tuple_too_long b1 first ht] at hr
    cases hr

end

/-! ## Updates in a pool that nobody else uses -/

/-- Heaps in a pool of two frames, of which nobody has a page pinned. -/
structure Unshared (heads : Nat → Prop) (b : BufferPoolManager) : Prop where
  heap : HeapState True (fun _ => 0) (fun _ => False) heads b
  frames : 2 ≤ b.pool_capacity

/-- What a failed update leaves: every RID reads what it read before. -/
def FailsCleanly (heads : Nat → Prop) (b b' : BufferPoolManager)
    (r : Except String (Option RID)) : Prop :=
  (∀ rid, r ≠ .ok (some rid)) → ∀ n slot, OnChain (succ b) heads n →
    (table_heap.get_tuple b' ⟨some n, slot⟩).1 = (table_heap.get_tuple b ⟨some n, slot⟩).1

/-- What an update leaves that returned `rid`: the RID reads the tuple, whose bytes are copied
into a slot of their number, inside the page, and the other RIDs read what they read before. -/
structure UpdatesExactly (heads : Nat → Prop) (b b' : BufferPoolManager) (t : List UInt8)
    (updated rid : RID) : Prop where
  reads : (table_heap.get_tuple b' rid).1 = .ok (some t)
  inside : ∀ n, rid.page_id = some n → ((view b' n).slot rid.slot_num).length = t.length ∧
    ((view b' n).slot rid.slot_num).offset + t.length ≤ kPAGE_SIZE
  others : ∀ n slot, OnChain (succ b) heads n → (⟨some n, slot⟩ : RID) ≠ updated →
    (⟨some n, slot⟩ : RID) ≠ rid →
    (table_heap.get_tuple b' ⟨some n, slot⟩).1 = (table_heap.get_tuple b ⟨some n, slot⟩).1

section
variable {heads : Nat → Prop} {b b' : BufferPoolManager} {n h slot : Nat} {t old : List UInt8}

theorem Unshared.has_frame (U : Unshared heads b) : ¬ AllPinned b :=
  not_allPinned U.heap.store.inv (p := 0) U.frames fun _ hn => absurd rfl hn

theorem Unshared.ran (U : Unshared heads b)
    (R : Ran True heads (fun _ => 0) (fun _ => False) b b') : Unshared heads b' :=
  ⟨R.heap, by rw [R.capacity]; exact U.frames⟩

theorem Unshared.get_tuple (U : Unshared heads b) (hn : OnChain (succ b) heads n) (slot : Nat) :
    (table_heap.get_tuple b ⟨some n, slot⟩).1 =
      .ok ((tupleOf (rows heads b n) slot).filter (! ·.isEmpty)) := by
  rcases U.heap.get_tuple hn slot with ⟨b', hg, _⟩ | ⟨_, hall⟩
  · rw [hg]
  · exact absurd hall U.has_frame

theorem Unshared.live (U : Unshared heads b) (hn : OnChain (succ b) heads n)
    (hlive : (table_heap.get_tuple b ⟨some n, slot⟩).1 = .ok (some old)) :
    tupleOf (rows heads b n) slot = some old ∧ old ≠ [] := by
  rw [U.get_tuple hn slot, Except.ok.injEq, Option.filter_eq_some_iff] at hlive
  refine ⟨hlive.1, ?_⟩
  rintro rfl
  exact absurd hlive.2 (by decide)

/-- No slot reads as many bytes as 16 bits cannot count. -/
theorem Unshared.get_tuple_ne (U : Unshared heads b) (hn : OnChain (succ b) heads n)
    (ht : 65536 ≤ t.length) : (table_heap.get_tuple b ⟨some n, slot⟩).1 ≠ .ok (some t) := by
  intro hget
  obtain ⟨hrow, _⟩ := U.live hn hget
  rw [rows_on hn] at hrow
  have hsize : t.length ≤ liveBytes (rowsOf (view b n)) :=
    rowSize_le_liveBytes (tupleOf_eq_some.mp hrow)
  have hgood : Good (view b n) := (U.heap.pages n hn).1
  have := hgood.live_le
  unfold kPAGE_SIZE at this
  omega

/-- The slot of a row has the bytes of the row. -/
theorem Unshared.slot_inside (U : Unshared heads b) (hn : OnChain (succ b) heads n)
    (hrow : tupleOf (rows heads b n) slot = some t) :
    ((view b n).slot slot).length = t.length ∧
      ((view b n).slot slot).offset + t.length ≤ kPAGE_SIZE := by
  have hgood : Good (view b n) := (U.heap.pages n hn).1
  rw [rows_on hn] at hrow
  have hat : (rowsOf (view b n))[slot]? = some (some t) := tupleOf_eq_some.mp hrow
  rw [rowsOf_getElem?] at hat
  split at hat
  swap
  · cases hat
  rename_i hlt
  have hrow' := Option.some.inj hat
  unfold rowOf at hrow'
  split at hrow'
  · cases hrow'
  rename_i hoff
  have hlen : ((view b n).slot slot).length = t.length := by
    rw [← Option.some.inj hrow', length_readBytes]
  exact ⟨hlen, hlen ▸ (hgood.inside slot hlt hoff).2⟩

/-- The rows after an insert into a pool that nobody else uses. -/
theorem Unshared.inserted (U : Unshared heads b) (hh : heads h) (ht : t.length ≤ 8180) :
    ∃ m j b', table_heap.insert_tuple b (some h) t = some (.ok (some ⟨some m, j⟩), b') ∧
      Ran True heads (fun _ => 0) (fun _ => False) b b' ∧ OnPath (succ b') h m ∧
      MayTake (rows heads b m) j ∧
      rows heads b' = Function.update (rows heads b) m (place (rows heads b m) j t) := by
  obtain ⟨r, b', hr⟩ := U.heap.insert_tuple_returns hh trivial t
  obtain ⟨R, hins⟩ := U.heap.insert_tuple hh hr fun he => absurd trivial he
  cases hins with
  | @placed m j hon htake hrows => exact ⟨m, j, b', hr, R, hon, htake, hrows⟩
  | refused _ _ hno => exact absurd ⟨ht, U.frames, fun _ => rfl⟩ hno

/-- An update that places its tuple on the page of the old one. -/
theorem Unshared.update_fits (U : Unshared heads b) (hn : OnChain (succ b) heads n)
    (hlive : (table_heap.get_tuple b ⟨some n, slot⟩).1 = .ok (some old))
    (hfit : fits_on_page (view b n) slot (t.length % 65536) = true) :
    ∃ b', table_heap.update_tuple b (some h) ⟨some n, slot⟩ t =
        some (.ok (some ⟨some n, slot⟩), b') ∧
      Ran True heads (fun _ => 0) (fun _ => False) b b' ∧
      (t.length < 65536 →
        rows heads b' = Function.update (rows heads b) n ((rows heads b n).set slot (some t))) := by
  obtain ⟨b', R, hcase⟩ := U.heap.update_page_fits hn U.has_frame (U.live hn hlive).1 t
  rw [if_pos hfit] at hcase
  refine ⟨b', ?_, R, fun ht => ?_⟩
  · unfold table_heap.update_tuple
    rw [hcase]
  · rcases U.heap.update_page hn slot ht with
      ⟨_, h1, _⟩ | ⟨b1, _, h1, _, _, hrows⟩ | ⟨_, _, h1, _⟩ | ⟨h1, _⟩
    all_goals
      rw [hcase] at h1
      cases h1
    exact hrows

/-- An update that finds no room there inserts its tuple anew, and throws when the tuple is too
long. -/
theorem Unshared.update_moves (U : Unshared heads b) (hh : heads h) (hn : OnChain (succ b) heads n)
    (hlive : (table_heap.get_tuple b ⟨some n, slot⟩).1 = .ok (some old))
    (hfit : ¬ fits_on_page (view b n) slot (t.length % 65536) = true) :
    ∃ b1, Ran True heads (fun _ => 0) (fun _ => False) b b1 ∧
      rows heads b1 = Function.update (rows heads b) n ((rows heads b n).set slot none) ∧
      if t.length ≤ 8180 then
        ∃ m j b', table_heap.update_tuple b (some h) ⟨some n, slot⟩ t =
            some (.ok (some ⟨some m, j⟩), b') ∧
          Ran True heads (fun _ => 0) (fun _ => False) b b' ∧ OnPath (succ b') h m ∧
          MayTake (rows heads b1 m) j ∧
          rows heads b' = Function.update (rows heads b1) m (place (rows heads b1 m) j t)
      else
        table_heap.update_tuple b (some h) ⟨some n, slot⟩ t =
          some (.error "TableHeap::insert_tuple: tuple exceeds maximum page capacity", b1) := by
  obtain ⟨b1, R, hcase⟩ := U.heap.update_page_fits hn U.has_frame (U.live hn hlive).1 t
  rw [if_neg hfit] at hcase
  obtain ⟨hpage, hrows⟩ := hcase
  have hup : table_heap.update_tuple b (some h) ⟨some n, slot⟩ t =
      table_heap.insert_tuple b1 (some h) t := by
    unfold table_heap.update_tuple
    rw [hpage]
  refine ⟨b1, R, hrows, ?_⟩
  rw [hup]
  split
  · rename_i ht
    obtain ⟨m, j, b', h1, R', h2, h3, h4⟩ := (U.ran R).inserted hh ht
    exact ⟨m, j, b', h1, R.trans R', h2, h3, h4⟩
  · rename_i ht
    exact insert_tuple_too_long b1 (some h) (by omega)

theorem Unshared.fits_le (U : Unshared heads b) (hn : OnChain (succ b) heads n)
    (hlive : (table_heap.get_tuple b ⟨some n, slot⟩).1 = .ok (some old)) {size : Nat}
    (hfit : fits_on_page (view b n) slot size = true) : size ≤ 8180 :=
  le_of_fits_on_page (U.heap.pages n hn).1 (has_slot_live hn (U.live hn hlive).1) hfit

/-! ## Updates that fail -/

/-- The old tuple is gone when the call throws. -/
theorem Unshared.loses (U : Unshared heads b) (hh : heads h) (hn : OnPath (succ b) h n)
    (hlive : (table_heap.get_tuple b ⟨some n, slot⟩).1 = .ok (some old))
    (hfit : ¬ fits_on_page (view b n) slot (t.length % 65536) = true) (ht : 8180 < t.length) :
    ∃ b', table_heap.update_tuple b (some h) ⟨some n, slot⟩ t =
        some (.error "TableHeap::insert_tuple: tuple exceeds maximum page capacity", b') ∧
      (table_heap.get_tuple b' ⟨some n, slot⟩).1 = .ok none := by
  obtain ⟨b1, R, hrows, hcase⟩ := U.update_moves hh ⟨h, hh, hn⟩ hlive hfit
  rw [if_neg (by omega)] at hcase
  refine ⟨b1, hcase, ?_⟩
  rw [(U.ran R).get_tuple ⟨h, hh, R.onPath h hh n hn⟩, hrows, Function.update_self,
    tupleOf_set_none, if_pos rfl]
  rfl

/-- An update that throws or returns nothing leaves every tuple as it was if and only if the new
tuple has at most the 8180 bytes that `insert_tuple` lets through, or its size as the slot keeps
it finds room on the page of the old one: the others delete the old tuple and then throw. -/
theorem an_update_fails_cleanly_iff_its_tuple_can_be_placed (U : Unshared heads b) (hh : heads h)
    (hn : OnPath (succ b) h n)
    (hlive : (table_heap.get_tuple b ⟨some n, slot⟩).1 = .ok (some old)) (t : List UInt8) :
    ∃ r b', table_heap.update_tuple b (some h) ⟨some n, slot⟩ t = some (r, b') ∧
      (FailsCleanly heads b b' r ↔
        t.length ≤ 8180 ∨ fits_on_page (view b n) slot (t.length % 65536) = true) := by
  have hon : OnChain (succ b) heads n := ⟨h, hh, hn⟩
  by_cases hfit : fits_on_page (view b n) slot (t.length % 65536) = true
  · obtain ⟨b', hup, _⟩ := U.update_fits (h := h) hon hlive hfit
    exact ⟨_, b', hup, fun _ => Or.inr hfit, fun _ hfail => absurd rfl (hfail _)⟩
  · obtain ⟨b1, R, hrows, hcase⟩ := U.update_moves hh hon hlive hfit
    split at hcase
    · rename_i ht
      obtain ⟨m, j, b', hup, _⟩ := hcase
      exact ⟨_, b', hup, fun _ => Or.inl ht, fun _ hfail => absurd rfl (hfail _)⟩
    · rename_i ht
      obtain ⟨b', hup, hgone⟩ := U.loses hh hn hlive hfit (by omega)
      refine ⟨_, b', hup, fun hclean => ?_, ?_⟩
      · have hread := hclean (by simp) n slot hon
        rw [hlive, hgone] at hread
        cases hread
      · rintro (h8 | hf)
        · exact absurd h8 ht
        · exact absurd hf hfit

/-- A heap of one page with the tuple `[7]`. -/
theorem heap_of_one_tuple : ∃ b, Unshared (· = 1) b ∧ OnPath (succ b) 1 1 ∧
    (table_heap.get_tuple b ⟨some 1, 0⟩).1 = .ok (some [7]) := by
  have U : Unshared (· = 1) (create (empty_pool 2)).2 := ⟨new_heap_start.1, new_heap_start.2.1⟩
  obtain ⟨m, j, b, hins, R, hon, htake, hrows⟩ :=
    U.inserted (h := 1) (t := [7]) rfl (by decide)
  have hplace : (insert_tuple (create (empty_pool 2)).2 (some 1) [7]).map (·.1.toOption) =
      some (some (some ⟨some 1, 0⟩)) := by decide +kernel
  rw [hins] at hplace
  simp only [Option.map_some, Except.toOption, Option.some.injEq, RID.mk.injEq] at hplace
  obtain ⟨rfl, rfl⟩ := hplace
  refine ⟨b, U.ran R, hon, ?_⟩
  rw [(U.ran R).get_tuple ⟨1, rfl, hon⟩, hrows, Function.update_self, tupleOf_place htake,
    if_pos rfl]
  rfl

/-- A tuple of 8181 bytes: the update throws, and the old tuple is gone. -/
theorem an_update_that_throws_loses_the_old_tuple :
    ¬ ∀ (heads : Nat → Prop) (b : BufferPoolManager) (h n slot : Nat) (old t : List UInt8),
      Unshared heads b → heads h → OnPath (succ b) h n →
      (table_heap.get_tuple b ⟨some n, slot⟩).1 = .ok (some old) →
      ∃ r b', table_heap.update_tuple b (some h) ⟨some n, slot⟩ t = some (r, b') ∧
        FailsCleanly heads b b' r := by
  intro hall
  obtain ⟨b, U, hon, hlive⟩ := heap_of_one_tuple
  have hsize : (List.replicate 8181 (0 : UInt8)).length = 8181 := List.length_replicate
  obtain ⟨b1, hup, hgone⟩ := U.loses (t := List.replicate 8181 0) rfl hon hlive (fun hfit => by
    have := U.fits_le ⟨1, rfl, hon⟩ hlive hfit
    omega) (by omega)
  obtain ⟨r, b2, hup', hclean⟩ := hall _ b 1 1 0 [7] (List.replicate 8181 0) U rfl hon hlive
  rw [hup] at hup'
  cases hup'
  have hread := hclean (by simp) 1 0 ⟨1, rfl, hon⟩
  rw [hgone, hlive] at hread
  cases hread

/-- A tuple of 8180 bytes is not lost. -/
theorem an_update_to_the_capacity_fails_cleanly :
    ∃ b r b', table_heap.update_tuple b (some 1) ⟨some 1, 0⟩ (List.replicate 8180 0) =
        some (r, b') ∧ FailsCleanly (· = 1) b b' r := by
  obtain ⟨b, U, hon, hlive⟩ := heap_of_one_tuple
  obtain ⟨r, b', hup, hiff⟩ := an_update_fails_cleanly_iff_its_tuple_can_be_placed U
    (h := 1) rfl hon hlive (List.replicate 8180 0)
  exact ⟨b, r, b', hup, hiff.mpr (Or.inl (by rw [List.length_replicate]))⟩

/-! ## Updates that return a RID -/

/-- A slot got the tuple, after the slot of the old one was emptied, and no other changed. -/
theorem Unshared.updates_exactly (U : Unshared heads b) (hn : OnChain (succ b) heads n)
    (R : Ran True heads (fun _ => 0) (fun _ => False) b b') {m j : Nat}
    (hm : OnChain (succ b') heads m) (ht : 1 ≤ t.length)
    (hrows : ∀ k i, tupleOf (rows heads b' k) i =
      if k = m ∧ i = j then some t else if k = n ∧ i = slot then none
      else tupleOf (rows heads b k) i) :
    UpdatesExactly heads b b' t ⟨some n, slot⟩ ⟨some m, j⟩ := by
  have hne : t.isEmpty = false := by
    cases t with
    | nil => cases ht
    | cons => rfl
  have hat : tupleOf (rows heads b' m) j = some t := by rw [hrows, if_pos ⟨rfl, rfl⟩]
  refine ⟨?_, ?_, ?_⟩
  · rw [(U.ran R).get_tuple hm, hat, Option.filter_some]
    simp [hne]
  · rintro _ ⟨⟩
    exact (U.ran R).slot_inside hm hat
  · intro k i hk hold hnew
    obtain ⟨k0, hk0, hk1⟩ := hk
    rw [U.get_tuple ⟨k0, hk0, hk1⟩, (U.ran R).get_tuple ⟨k0, hk0, R.onPath k0 hk0 k hk1⟩, hrows,
      if_neg, if_neg]
    · rintro ⟨rfl, rfl⟩
      exact hold rfl
    · rintro ⟨rfl, rfl⟩
      exact hnew rfl

/-- An update that returns a RID has put exactly the bytes of the tuple there, and nothing
elsewhere, if and only if the tuple has 1 to 65535 bytes or its size as the slot keeps it, which
is cut to 16 bits, finds no room on the page of the old one. -/
theorem an_update_is_exact_iff_its_size_is_not_cut (U : Unshared heads b) (hh : heads h)
    (hn : OnPath (succ b) h n)
    (hlive : (table_heap.get_tuple b ⟨some n, slot⟩).1 = .ok (some old)) (t : List UInt8) :
    ∃ r b', table_heap.update_tuple b (some h) ⟨some n, slot⟩ t = some (r, b') ∧
      ((∀ rid, r = .ok (some rid) → UpdatesExactly heads b b' t ⟨some n, slot⟩ rid) ↔
        (1 ≤ t.length ∧ t.length < 65536) ∨
          fits_on_page (view b n) slot (t.length % 65536) = false) := by
  have hon : OnChain (succ b) heads n := ⟨h, hh, hn⟩
  by_cases hfit : fits_on_page (view b n) slot (t.length % 65536) = true
  · obtain ⟨b', hup, R, hrows⟩ := U.update_fits (h := h) hon hlive hfit
    have hon' : OnChain (succ b') heads n := ⟨h, hh, R.onPath h hh n hn⟩
    refine ⟨_, b', hup, fun hexact => ?_, ?_⟩
    · have hreads := (hexact _ rfl).reads
      have hlt : t.length < 65536 := by
        by_contra hge
        exact (U.ran R).get_tuple_ne hon' (by omega) hreads
      refine Or.inl ⟨?_, hlt⟩
      -- no RID reads as the empty tuple
      apply List.length_pos_iff.mpr
      exact ((U.ran R).live hon' hreads).2
    · rintro (⟨h1, hlt⟩ | hno)
      · rintro _ ⟨⟩
        refine U.updates_exactly hon R hon' h1 fun k i => ?_
        rw [hrows hlt]
        by_cases hk : k = n
        · subst hk
          rw [Function.update_self, tupleOf_set (U.live hon hlive).1]
          by_cases hi : i = slot <;> simp [hi]
        · rw [Function.update_of_ne hk, if_neg (by tauto), if_neg (by tauto)]
      · rw [hfit] at hno
        cases hno
  · have hno : fits_on_page (view b n) slot (t.length % 65536) = false := by simpa using hfit
    obtain ⟨b1, R, hrows, hcase⟩ := U.update_moves hh hon hlive hfit
    split at hcase
    swap
    · exact ⟨_, b1, hcase, fun _ => Or.inr hno, fun _ rid hr => by cases hr⟩
    obtain ⟨m, j, b', hup, R', hm, htake, hrows'⟩ := hcase
    refine ⟨_, b', hup, fun _ => Or.inr hno, ?_⟩
    rintro - _ ⟨⟩
    -- the empty tuple fits everywhere
    have h1 : 1 ≤ t.length := by
      by_contra h0
      apply hfit
      unfold fits_on_page
      rw [show t.length % 65536 = 0 by omega]
      simp
    refine U.updates_exactly hon R' ⟨h, hh, hm⟩ h1 fun k i => ?_
    have hmid : tupleOf (rows heads b1 k) i =
        if k = n ∧ i = slot then none else tupleOf (rows heads b k) i := by
      rw [hrows]
      by_cases hk : k = n
      · subst hk
        rw [Function.update_self, tupleOf_set_none]
        simp
      · rw [Function.update_of_ne hk, if_neg (by tauto)]
    rw [hrows', ← hmid]
    by_cases hk : k = m
    · subst hk
      rw [Function.update_self, tupleOf_place htake]
      by_cases hi : i = j <;> simp [hi]
    · rw [Function.update_of_ne hk, if_neg (by tauto)]

/-- A tuple of 65537 bytes takes the one byte of the old tuple. -/
theorem an_update_cuts_the_size_of_its_tuple :
    ¬ ∀ (heads : Nat → Prop) (b : BufferPoolManager) (h n slot : Nat) (old t : List UInt8),
      Unshared heads b → heads h → OnPath (succ b) h n →
      (table_heap.get_tuple b ⟨some n, slot⟩).1 = .ok (some old) →
      ∃ r b', table_heap.update_tuple b (some h) ⟨some n, slot⟩ t = some (r, b') ∧
        ∀ rid, r = .ok (some rid) → UpdatesExactly heads b b' t ⟨some n, slot⟩ rid := by
  intro hall
  obtain ⟨b, U, hon, hlive⟩ := heap_of_one_tuple
  have hsize : (List.replicate 65537 (0 : UInt8)).length = 65537 := List.length_replicate
  have hslot := (U.slot_inside ⟨1, rfl, hon⟩ (U.live ⟨1, rfl, hon⟩ hlive).1).1
  have hfit : fits_on_page (view b 1) 0 ((List.replicate 65537 (0 : UInt8)).length % 65536) =
      true := by
    unfold fits_on_page
    rw [hslot, hsize]
    rfl
  obtain ⟨b1, hup, R, _⟩ := U.update_fits (h := 1) ⟨1, rfl, hon⟩ hlive hfit
  obtain ⟨r, b2, hup', hexact⟩ := hall _ b 1 1 0 [7] (List.replicate 65537 0) U rfl hon hlive
  rw [hup] at hup'
  cases hup'
  refine (U.ran R).get_tuple_ne ⟨1, rfl, R.onPath 1 rfl 1 hon⟩ ?_ (hexact _ rfl).reads
  omega

/-- A tuple of two bytes leaves the slot of the old one, and takes another on its page. -/
theorem an_update_to_two_bytes_is_exact :
    ∃ b r b', table_heap.update_tuple b (some 1) ⟨some 1, 0⟩ [1, 2] = some (r, b') ∧
      ∀ rid, r = .ok (some rid) → UpdatesExactly (· = 1) b b' [1, 2] ⟨some 1, 0⟩ rid := by
  obtain ⟨b, U, hon, hlive⟩ := heap_of_one_tuple
  obtain ⟨r, b', hup, hiff⟩ := an_update_is_exact_iff_its_size_is_not_cut U
    (h := 1) rfl hon hlive [1, 2]
  exact ⟨b, r, b', hup, hiff.mpr (Or.inl ⟨by decide, by decide⟩)⟩

end

end duck.table_heap
