-- What every call keeps of the pool's disk: the free list never has more ids than
-- the header page has room for, and no page is written past the capacity.
import DuckDbms.CatalogChains

open duck.slotted_page duck.disk_manager duck.buffer_pool duck.table_heap duck.table
open duck.tuple

/-! ## The calls of the pool -/

namespace duck.buffer_pool

/-- A pool over a disk that can be closed: `deallocate_page` keeps at most 1025 ids. -/
structure Tidy (frames : Nat) (b : BufferPoolManager) : Prop where
  frames : b.pool_capacity = frames
  few : b.disk_manager.free_list.length ≤ 1025
  blank : ∀ n, b.disk_manager.capacity ≤ n → b.disk_manager.file n = zeroPage

section
variable {k : Nat} {b b' : BufferPoolManager}

theorem Tidy.congr (T : Tidy k b) (hframes : b'.pool_capacity = b.pool_capacity)
    (hdisk : b'.disk_manager = b.disk_manager) : Tidy k b' := by
  obtain ⟨h1, h2, h3⟩ := T
  rw [← hdisk] at h2 h3
  exact ⟨hframes.trans h1, h2, h3⟩

theorem Tidy.write_page (T : Tidy k b) {p : PageID} {data : PageData} {d : DiskManager}
    (h : b.disk_manager.write_page p data = .ok d) : Tidy k { b with disk_manager := d } := by
  unfold DiskManager.write_page at h
  split at h
  · cases h
  split at h
  · cases h
  split at h
  · cases h
  rename_i n hn _
  cases h
  refine ⟨T.frames, T.few, fun m hm => ?_⟩
  rw [← T.blank m hm]
  apply Function.update_of_ne
  rintro rfl
  exact hn hm

theorem Tidy.find_next_frame (T : Tidy k b) : Tidy k b.find_next_frame.2 := by
  unfold BufferPoolManager.find_next_frame
  split
  · exact T.congr rfl rfl
  · split
    · exact T.congr rfl rfl
    · split <;> exact T

theorem Tidy.evict (T : Tidy k b) (f : FrameID) : Tidy k (b.evict f).2 := by
  unfold BufferPoolManager.evict BufferPoolManager.flush_page
  simp only
  generalize hb : (if (b.frames f).page_id ≠ INVALID_PAGE_ID then
    (b.erase (b.frames f).page_id).remove (b.frames f).page_id else b) = b1
  have T1 : Tidy k b1 := by
    rw [← hb]
    split
    · exact T.congr rfl rfl
    · exact T
  split
  · rcases hw : b1.disk_manager.write_page (b.frames f).page_id (b.frames f).data with e | d
    · exact T1
    · exact T1.write_page hw
  · exact T1

theorem Tidy.swap_page (T : Tidy k b) (p : PageID) (rd : Bool) : Tidy k (b.swap_page p rd).2 := by
  unfold BufferPoolManager.swap_page
  have hnext := T.find_next_frame
  generalize b.find_next_frame = r at hnext ⊢
  obtain ⟨_ | f, b0⟩ := r
  · exact hnext
  have hev := hnext.evict f
  rcases he : b0.evict f with ⟨e | _, b1⟩ <;> rw [he] at hev
  · simp only [he]
    exact hev
  simp only [he]
  have hload : Tidy k (b1.load f p) := hev.congr rfl rfl
  split
  · split
    · exact hload
    · exact hload.congr rfl rfl
  · exact hload

theorem Tidy.fetch_page (T : Tidy k b) (p : PageID) : Tidy k (b.fetch_page p).2 := by
  unfold BufferPoolManager.fetch_page BufferPoolManager.find_cached_page
  rcases b.page_table p with _ | f
  · exact T.swap_page p true
  · exact T.congr rfl rfl

/-- A new page was blank before, and the capacity only grows. -/
theorem Tidy.new_page (T : Tidy k b) : Tidy k b.new_page.2 := by
  unfold BufferPoolManager.new_page
  apply Tidy.swap_page
  obtain ⟨h1, h2, h3⟩ := T
  unfold BufferPoolManager.allocate_page DiskManager.allocate_page
  split
  · rename_i rest hl
    rw [hl, List.length_cons] at h2
    exact ⟨h1, Nat.le_of_succ_le h2, h3⟩
  · exact ⟨h1, h2, fun n hn => h3 n (Nat.le_of_succ_le hn)⟩

theorem Tidy.unpin_page (T : Tidy k b) (p : PageID) (dirty : Bool) : Tidy k (b.unpin_page p dirty) := by
  unfold BufferPoolManager.unpin_page
  split
  · exact T.congr rfl rfl
  · exact T

theorem Tidy.deallocate (T : Tidy k b) (p : PageID) : Tidy k (b.deallocate p).2 := by
  unfold BufferPoolManager.deallocate DiskManager.deallocate_page
  split
  · exact T
  rename_i h
  split at h
  · cases h
  split at h
  · cases h
    exact T
  · rename_i hfew
    cases h
    exact ⟨T.frames, Nat.succ_le_succ (Nat.le_of_not_lt hfew), T.blank⟩

theorem Tidy.delete_page (T : Tidy k b) (p : PageID) : Tidy k (b.delete_page p).2 := by
  unfold BufferPoolManager.delete_page
  split
  · split
    · exact T
    · rename_i f _ _
      have Tf : Tidy k (b.drop_frame p f) := T.congr rfl rfl
      exact Tf.deallocate p
  · exact T.deallocate p

theorem Tidy.flush_frames (T : Tidy k b) (ids : List FrameID) :
    Tidy k (BufferPoolManager.flush_frames ids b).2 := by
  induction ids generalizing b with
  | nil => exact T
  | cons id rest ih =>
    unfold BufferPoolManager.flush_frames BufferPoolManager.flush_page
    split
    · rcases hw : b.disk_manager.write_page (b.frames id).page_id (b.frames id).data with e | d
      · exact T
      · exact ih (T.write_page hw)
    · exact ih T

end

theorem tidy_empty_pool (frames : Nat) : Tidy frames (empty_pool frames) :=
  ⟨rfl, Nat.zero_le _, fun _ _ => rfl⟩

/-! ## The calls of a heap -/

section
variable {k : Nat} {b b' : BufferPoolManager}

theorem Tidy.with_page {α : Type} (T : Tidy k b) (p : PageID)
    (section_ : Page → α × PageData × Bool) : Tidy k (table_heap.with_page b p section_).2 := by
  have hf := T.fetch_page p
  unfold table_heap.with_page
  generalize b.fetch_page p = r at hf ⊢
  obtain ⟨_ | _ | f, b1⟩ := r
  · exact hf
  · exact hf
  · exact Tidy.unpin_page (b := b1.set_data f (section_ (b1.frames f)).2.1) (hf.congr rfl rfl) _ _

theorem Tidy.get_tuple (T : Tidy k b) (rid : RID) : Tidy k (table_heap.get_tuple b rid).2 := by
  unfold table_heap.get_tuple
  exact T.with_page _ _

theorem Tidy.insert_step (T : Tidy k b) {c c' : InsertCall}
    (h : table_heap.insert_step b c = some (b', c')) : Tidy k b' := by
  unfold table_heap.insert_step at h
  rcases hpc : c.pc with _ | page | page | ⟨page, g⟩ | ⟨page, g⟩ | ⟨page, g⟩ | ⟨page, g, q⟩ |
    ⟨page, p, q⟩ | ⟨page, dirty, after⟩ | r
  all_goals rw [hpc] at h; simp only at h
  · have hf := T.fetch_page c.page_id
    generalize b.fetch_page c.page_id = r at hf h
    obtain ⟨_ | _ | _, b1⟩ := r
    all_goals
      cases h
      exact hf
  · generalize try_insert (b.frames page).data c.tuple_data = r at h
    obtain ⟨_ | slot, d⟩ := r
    · simp only at h
      split at h
      · split at h
        all_goals
          cases h
          exact T.congr rfl rfl
      · cases h
        exact T.congr rfl rfl
    · cases h
      exact T.congr rfl rfl
  · have hn := T.new_page
    generalize b.new_page = r at hn h
    obtain ⟨_ | _ | _, b1⟩ := r
    all_goals
      cases h
      exact hn
  · cases h
    exact T.congr rfl rfl
  · cases h
    exact T.unpin_page _ _
  · split at h
    all_goals
      cases h
      exact T.congr rfl rfl
  · cases h
    exact T
  · have hd := T.delete_page p
    generalize b.delete_page p = r at hd h
    obtain ⟨_ | _, b1⟩ := r
    all_goals
      cases h
      exact hd
  · split at h
    all_goals
      cases h
      exact T.unpin_page _ _
  · cases h

theorem Tidy.run_insert (T : Tidy k b) {fuel : Nat} {c : InsertCall}
    {r : Except String (Option RID)} (h : table_heap.run_insert fuel b c = some (r, b')) :
    Tidy k b' := by
  induction fuel generalizing b c with
  | zero => cases h
  | succ fuel ih =>
    unfold table_heap.run_insert at h
    split at h
    · cases h
      exact T
    · obtain ⟨⟨b1, c1⟩, hstep, h⟩ := Option.bind_eq_some_iff.mp h
      exact ih (T.insert_step hstep) h

theorem Tidy.update_tuple (T : Tidy k b) {p : PageID} {rid : RID} {t : List UInt8}
    {r : Except String (Option RID)} (h : table_heap.update_tuple b p rid t = some (r, b')) :
    Tidy k b' := by
  have hw := T.with_page rid.page_id (update_section rid t)
  unfold table_heap.update_tuple at h
  generalize table_heap.with_page b rid.page_id _ = w at hw h
  obtain ⟨_ | _ | _ | _ | _, b1⟩ := w
  all_goals simp only at h
  all_goals try
    cases h
    exact hw
  exact hw.run_insert h

theorem Tidy.create (T : Tidy k b) : Tidy k (table_heap.create b).2 := by
  have hn := T.new_page
  unfold table_heap.create
  generalize b.new_page = r at hn ⊢
  obtain ⟨_ | _ | f, b1⟩ := r
  · exact hn
  · exact hn
  · exact Tidy.unpin_page (b := b1.set_data f (init (b1.frames f).data)) (hn.congr rfl rfl) _ _

theorem Tidy.all_pages_from (T : Tidy k b) {fuel : Nat} {p : PageID} {result : List PageID}
    {r : Except String (List PageID × TableHeapFetchStatus)}
    (h : table_heap.all_pages_from fuel b p result = some (r, b')) : Tidy k b' := by
  induction fuel generalizing b p result with
  | zero => cases h
  | succ fuel ih =>
    unfold table_heap.all_pages_from at h
    have hw := T.with_page p fun page => (slotted_page.next_page page.data, page.data, false)
    generalize table_heap.with_page b p _ = w at hw h
    obtain ⟨_ | _ | next_page, b1⟩ := w
    · cases h
      exact hw
    · cases h
      exact hw
    · simp only at h
      split at h
      · cases h
        exact hw
      · exact ih hw h

theorem Tidy.drop_all (T : Tidy k b) (failed : Nat) (page_ids : List PageID) :
    Tidy k (table.drop_all b failed page_ids).2 := by
  induction page_ids generalizing b failed with
  | nil => exact T
  | cons p rest ih =>
    have hd := T.delete_page p
    unfold table.drop_all table_heap.drop_page
    generalize b.delete_page p = r at hd ⊢
    obtain ⟨_ | dropped, b1⟩ := r
    · exact hd
    · exact ih hd _

theorem Tidy.drop_pages (T : Tidy k b) {p : PageID} {r : Except String (Nat × DropTableStatus)}
    (h : table.drop_pages b p = some (r, b')) : Tidy k b' := by
  obtain ⟨⟨r1, b1⟩, hall, hr⟩ := Option.map_eq_some_iff.mp h
  have T1 := T.all_pages_from hall
  rcases r1 with e | ⟨page_ids, _ | _⟩
  · cases hr
    exact T1
  · cases hr
    exact T1
  · cases hr
    exact T1.drop_all 0 page_ids

/-! ## Scans -/

theorem Tidy.next_page (T : Tidy k b) (scan : Scan) : Tidy k (Scan.next_page b scan).2.1 := by
  unfold Scan.next_page
  split
  · exact T
  split
  · exact T
  rename_i page _ _
  have h := (T.unpin_page (b.frames page).page_id false).fetch_page
    (slotted_page.next_page (b.frames page).data)
  simp only
  split <;> rename_i hf <;> rw [hf] at h <;> exact h

theorem Tidy.scan_next (T : Tidy k b) {fuel : Nat} {scan scan' : Scan}
    {r : Except String (Option (RID × List UInt8))}
    (h : Scan.next fuel b scan = some (r, b', scan')) : Tidy k b' := by
  induction fuel generalizing b scan with
  | zero => cases h
  | succ fuel ih =>
    unfold Scan.next at h
    rcases hp : scan.current_page with _ | page
    · rw [hp] at h
      cases h
      exact T
    simp only [hp] at h
    generalize (if has_slot (b.frames page).data scan.current_rid.slot_num = true
      then scan.current_rid.slot_num
      else (next_occupied_slot (b.frames page).data scan.current_rid.slot_num).getD
        scan.current_rid.slot_num) = j at h
    split at h
    · cases h
      exact T
    have hn := T.next_page ⟨⟨scan.current_rid.page_id, j⟩, some page⟩
    generalize Scan.next_page b ⟨⟨scan.current_rid.page_id, j⟩, some page⟩ = x at h hn
    obtain ⟨_ | _ | _, b1, scan1⟩ := x
    · cases h
      exact hn
    · cases h
      exact hn
    · exact ih hn h

theorem Tidy.close (T : Tidy k b) (scan : Scan) : Tidy k (scan.close b) := by
  unfold Scan.close
  split
  · exact T.unpin_page _ _
  · exact T

/-! ## The calls of a catalog -/

open duck.catalog

theorem Tidy.load_tables (T : Tidy k b) {fuel : Nat} {scan : Scan}
    {tables : List UInt8 → Option TableEntry}
    {r : Except Failure (List UInt8 → Option TableEntry)}
    (h : catalog.load_tables fuel b scan tables = some (r, b')) : Tidy k b' := by
  induction fuel generalizing b scan tables with
  | zero => cases h
  | succ fuel ih =>
    unfold catalog.load_tables at h
    split at h
    · cases h
    · rename_i hs
      cases h
      exact (T.scan_next hs).close _
    · rename_i hs
      cases h
      exact (T.scan_next hs).close _
    · rename_i hs
      have T1 := T.scan_next hs
      split at h
      · cases h
        exact T1.close _
      · exact ih T1 h

theorem Tidy.make (T : Tidy k b) {s : CatalogSystem} (h : CatalogSystem.make b = some (.ok s)) :
    Tidy k s.heap.pool ∧ ∀ n, s.heap.outside n = 0 := by
  have hinit : Tidy k (init_table b).2 := by
    unfold init_table
    split
    · exact T.create
    · exact T
  unfold CatalogSystem.make at h
  generalize init_table b = i at hinit h
  obtain ⟨_ | catalog_table, b1⟩ := i
  · cases h
  obtain ⟨⟨r, b2⟩, hload, hr⟩ := Option.map_eq_some_iff.mp h
  rcases r with e | tables
  · cases hr
  cases hr
  refine ⟨?_, fun _ => rfl⟩
  have ho := hinit.fetch_page catalog_table.table_heap
  unfold load_existing_tables Scan.open_ at hload
  generalize b1.fetch_page catalog_table.table_heap = f at ho hload
  obtain ⟨_ | _, b3⟩ := f
  · cases hload
  · exact ho.load_tables hload

theorem Tidy.table_insert (T : Tidy k b) {table : Table} {schema : Schema} {tuple : Tuple schema}
    {r : Except Failure (Option RID)} (h : table.insert_tuple b tuple = some (r, b')) :
    Tidy k b' := by
  unfold Table.insert_tuple at h
  split at h
  · cases h
    exact T
  split at h
  · cases h
    exact T
  · obtain ⟨⟨r1, b1⟩, hi, hr⟩ := Option.map_eq_some_iff.mp h
    cases hr
    exact T.run_insert hi

theorem Tidy.table_delete (T : Tidy k b) (rid : RID) : Tidy k (Table.delete_tuple b rid).2 := by
  have hg := T.get_tuple rid
  unfold Table.delete_tuple
  generalize table_heap.get_tuple b rid = g at hg ⊢
  obtain ⟨_ | _ | _, b1⟩ := g
  · exact hg
  · exact hg
  · exact hg.with_page _ _

theorem Tidy.table_update (T : Tidy k b) {table : Table} {rid : RID} {schema : Schema}
    {tuple : Tuple schema} {r : Except Failure (Option RID)}
    (h : table.update_tuple b rid tuple = some (r, b')) : Tidy k b' := by
  have hg := T.get_tuple rid
  unfold Table.update_tuple at h
  generalize table_heap.get_tuple b rid = g at hg h
  split at h
  · cases h
    exact T
  obtain ⟨_ | _ | _, b1⟩ := g
  · cases h
    exact hg
  · cases h
    exact hg
  · simp only at h
    split at h
    · cases h
      exact hg
    · obtain ⟨⟨r1, b2⟩, hu, hr⟩ := Option.map_eq_some_iff.mp h
      cases hr
      exact hg.update_tuple hu

end

end duck.buffer_pool

namespace duck.catalog

/-- A call of the one user of the pool. -/
def OneUser : CatalogEvent → Prop
  | .fetch _ | .unpin _ => False
  | _ => True

/-- What a call leaves to the catalog: its own table, the pins of others, and a disk that can be
closed. -/
structure Keeps (k : Nat) (s t : CatalogSystem) : Prop where
  catalog_table : t.catalog_table = s.catalog_table
  outside : t.heap.outside = s.heap.outside
  tidy : Tidy k t.heap.pool

section
variable {k : Nat} {s t : CatalogSystem} {name : List UInt8} {b : BufferPoolManager}

theorem keeps_pool (T : Tidy k b) : Keeps k s (s.with_pool b) := ⟨rfl, rfl, T⟩

theorem keeps_create_table (T : Tidy k s.heap.pool) {schema : Schema} {r : Except Failure Unit}
    (h : s.create_table name schema none = some (r, t)) : Keeps k s t := by
  unfold CatalogSystem.create_table at h
  split at h
  · cases h
    exact ⟨rfl, rfl, T⟩
  have hc := T.create
  generalize table_heap.create s.heap.pool = c at hc h
  obtain ⟨_ | first_page_id, b1⟩ := c
  · cases h
    exact keeps_pool hc
  simp only at h
  split at h
  · cases h
    exact keeps_pool hc
  obtain ⟨⟨r1, t1⟩, hi, h⟩ := Option.map_eq_some_iff.mp h
  obtain ⟨⟨r2, b2⟩, hinsert, he⟩ := Option.map_eq_some_iff.mp hi
  cases he
  have T2 : Tidy k b2 := hc.table_insert hinsert
  rcases r2 with e | _ | rid
  · cases h
    exact keeps_pool T2
  · cases h
    exact keeps_pool T2
  · cases h
    exact ⟨rfl, rfl, T2⟩

theorem keeps_drop_table (T : Tidy k s.heap.pool) {r : Except Failure Bool}
    (h : s.drop_table name = some (r, t)) : Keeps k s t := by
  unfold CatalogSystem.drop_table at h
  split at h
  · cases h
    exact ⟨rfl, rfl, T⟩
  rename_i entry _
  have hd := T.table_delete entry.rid
  generalize Table.delete_tuple s.heap.pool entry.rid = d at hd h
  obtain ⟨_ | _ | _, b1⟩ := d
  · cases h
    exact keeps_pool hd
  · cases h
    exact keeps_pool hd
  obtain ⟨⟨r1, t1⟩, hentry, h⟩ := Option.map_eq_some_iff.mp h
  obtain ⟨⟨r2, b2⟩, hpages, he⟩ := Option.map_eq_some_iff.mp hentry
  have T2 : Tidy k b2 := hd.drop_pages hpages
  rcases r2 with e | ⟨n, _ | _⟩
  all_goals
    cases he
    cases h
    exact ⟨rfl, rfl, T2⟩

theorem keeps_next (T : Tidy k s.heap.pool) {e : CatalogEvent} (hone : OneUser e)
    (hnext : s.next e = some t) : Keeps k s t := by
  cases e with
  | create_table name schema =>
    obtain ⟨⟨r, t'⟩, hr, rfl⟩ := Option.map_eq_some_iff.mp hnext
    exact keeps_create_table T hr
  | drop_table name =>
    obtain ⟨⟨r, t'⟩, hr, rfl⟩ := Option.map_eq_some_iff.mp hnext
    exact keeps_drop_table T hr
  | insert_tuple name schema tuple =>
    obtain ⟨entry, he, hnext⟩ := Option.bind_eq_some_iff.mp hnext
    obtain ⟨⟨r, b⟩, hr, rfl⟩ := Option.map_eq_some_iff.mp hnext
    exact keeps_pool (T.table_insert hr)
  | update_tuple name rid schema tuple =>
    obtain ⟨entry, he, hnext⟩ := Option.bind_eq_some_iff.mp hnext
    obtain ⟨⟨r, b⟩, hr, rfl⟩ := Option.map_eq_some_iff.mp hnext
    exact keeps_pool (T.table_update hr)
  | delete_tuple name rid =>
    obtain ⟨entry, he, rfl⟩ := Option.map_eq_some_iff.mp hnext
    exact keeps_pool (T.table_delete rid)
  | fetch n => exact hone.elim
  | unpin n => exact hone.elim

end

end duck.catalog
