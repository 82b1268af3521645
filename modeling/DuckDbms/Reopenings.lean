-- A database that is destroyed and opened again over its file: the catalog finds
-- in its rows the tables that were registered, if it could count their columns.
import DuckDbms.CatalogDrops
import DuckDbms.CatalogUndo
import DuckDbms.DatabaseFile
import DuckDbms.PoolRefinement
import DuckDbms.SchemaBytes
import DuckDbms.TidyDisks

open machine duck.slotted_page duck.disk_manager duck.buffer_pool duck.table_heap duck.table
open duck.tuple chain byte_mem

/-! ## A pool that is destroyed -/

namespace duck.buffer_pool

/-- `~BufferPoolManager` brings the file up to date with what every page means. -/
theorem Store.flushed {pins : Nat → Nat} {b : BufferPoolManager}
    (S : Store True pins (fun _ => False) b) : ∃ file,
      b.flush_all = (.ok (), { b with disk_manager := { b.disk_manager with file } }) ∧
      ∀ n, meaning (file n) = contents b n := by
  obtain ⟨file, hflush, hold, hnew⟩ := PoolInv.flushed (List.range b.pool_size) S.inv S.faults
  refine ⟨file, hflush, fun n => ?_⟩
  unfold contents
  rcases hc : b.page_table (some n) with _ | f
  · rw [view_uncached hc]
    rcases hold n with h | ⟨f, hf, _⟩
    · rw [h]
    · rw [hc] at hf
      cases hf
  rw [view_cached hc]
  have hused : f ∈ List.range b.pool_size :=
    List.mem_range.mpr (S.inv.used n f ((S.inv.holds n f).mp hc))
  by_cases hd : (b.frames f).is_dirty = true
  · rw [hnew n f hc hused hd]
  · -- a clean frame has what the file has
    have hfile : file n = b.disk_manager.file n := by
      rcases hold n with h | ⟨g, hg, hd', _⟩
      · exact h
      · obtain rfl : f = g := Option.some.inj (hc.symm.trans hg)
        exact absurd hd' hd
    rw [hfile]
    exact (S.clean trivial n f hc (by simpa using hd) id).symm

end duck.buffer_pool

/-! ## What the catalog has to read again -/

namespace duck.catalog

open duck.disk_file

/-- A row that fits on a page has the bytes of a schema that fit on it. -/
theorem IsRow.schema_fits {name bytes : List UInt8} {table : Table} (h : IsRow name table bytes) :
    table.schema.serialize.length ≤ 8180 := by
  obtain ⟨entry, hmake, hs, hlen⟩ := h
  obtain ⟨ps, rfl, hps⟩ := serialize_pieces hs
  rw [values_of_make hmake] at hps
  cases hps with
  | cons _ _ hps =>
  cases hps with
  | cons _ _ hps =>
  cases hps with
  | cons hpiece _ hps =>
  cases hps
  cases hpiece with
  | fixed hfixed => cases hfixed
  | varlen _ hpayload =>
    cases hpayload
    simp only [List.length_append, List.flatten_cons] at hlen
    omega

/-- A page id that is not the largest one of 32 bits is kept. -/
theorem pageOfCode_pageCode {n : Nat} (h : n < 2 ^ 32 - 1) : pageOfCode (pageCode (some n)) = some n := by
  have hcode : (UInt32.ofNat n).toNat = n := UInt32.toNat_ofNat_of_lt' (by
    show n < 2 ^ 32
    omega)
  unfold pageOfCode pageCode
  rw [if_neg, hcode]
  intro (hmax : UInt32.ofNat n = 4294967295)
  rw [hmax] at hcode
  have : (4294967295 : UInt32).toNat = 2 ^ 32 - 1 := rfl
  omega

/-- A row that was written for a table is read as that table. -/
theorem IsRow.entry {name bytes : List UInt8} {table : Table} (h : IsRow name table bytes)
    (hcount : table.schema.column_count < 65536) {n : Nat} (hpage : table.table_heap = some n)
    (hn : n < 2 ^ 32 - 1) : read_entry bytes = .ok (name, table) := by
  have hfits := h.schema_fits
  obtain ⟨restored, hread, hvalues⟩ := h.read
  obtain ⟨first_page_id, schema⟩ := table
  obtain rfl : first_page_id = some n := hpage
  have hname : get restored 0 = .ok (.of (.string name)) := by
    unfold get
    rw [hvalues]
    rfl
  have hid : get restored 1 = .ok (.of (.uint32 (pageCode (some n)))) := by
    unfold get
    rw [hvalues]
    rfl
  have hbytes : get restored 2 = .ok (.of (.bytes schema.serialize)) := by
    unfold get
    rw [hvalues]
    rfl
  have hschema : Schema.of_raw schema.serialize = .ok schema :=
    Schema.of_raw_serialize hcount (Nat.lt_of_le_of_lt hfits (by decide))
  unfold read_entry
  rw [hread]
  show (get restored 0 >>= _) = _
  rw [hname]
  show (get restored 1 >>= _) = _
  rw [hid]
  show (get restored 2 >>= _) = _
  rw [hbytes]
  show (Schema.of_raw schema.serialize >>= _) = _
  rw [hschema]
  show Except.ok (name, (⟨pageOfCode (pageCode (some n)), schema⟩ : Table)) = _
  rw [pageOfCode_pageCode hn]

/-! ## The invariant -/

/-- The rows of the tables are those that `create_table` wrote, with columns that it could count. -/
def Recorded (s : CatalogSystem) : Prop :=
  ∀ name entry bytes, s.tables name = some entry → s.catalog_rows entry.rid = some bytes →
    IsRow name entry.table bytes ∧ entry.table.schema.column_count < 65536

/-- What holds between the calls of the one user of a database. -/
structure Kept (s : CatalogSystem) : Prop where
  sound : Sound s
  matched : Matched s
  recorded : Recorded s
  own : s.catalog_table = ⟨kCATALOG_FIRST_PAGE_ID, catalog_schema⟩
  alone : ∀ n, s.heap.outside n = 0
  tidy : ∃ frames, 1 ≤ frames ∧ Tidy frames s.heap.pool

section
variable {s t : CatalogSystem} {name : List UInt8}

theorem Recorded.congr (R : Recorded s) (htables : t.tables = s.tables)
    (hrows : t.catalog_rows = s.catalog_rows) : Recorded t := by
  intro name entry bytes he hrow
  rw [htables] at he
  rw [hrows] at hrow
  exact R name entry bytes he hrow

/-- A new row is beside those of the other tables. -/
theorem Recorded.register (R : Recorded s) (M : Matched s) {entry : TableEntry} {bytes : List UInt8}
    (hfree : s.catalog_rows entry.rid = none) (hrow : IsRow name entry.table bytes)
    (hcount : entry.table.schema.column_count < 65536)
    (htables : t.tables = Function.update s.tables name (some entry))
    (hrows : t.catalog_rows = Function.update s.catalog_rows entry.rid (some bytes)) :
    Recorded t := by
  intro name' entry' bytes' he' hrow'
  rw [htables] at he'
  rw [hrows] at hrow'
  by_cases hn : name' = name
  · subst hn
    rw [Function.update_self, Option.some.injEq] at he'
    subst he'
    rw [Function.update_self, Option.some.injEq] at hrow'
    subst hrow'
    exact ⟨hrow, hcount⟩
  · rw [Function.update_of_ne hn] at he'
    rw [Function.update_of_ne] at hrow'
    · exact R name' entry' bytes' he' hrow'
    · intro hrid
      obtain ⟨_, hold, _⟩ := M.named name' entry' he'
      rw [hrid, hfree] at hold
      cases hold

theorem Recorded.unregister (R : Recorded s) {rid : RID}
    (htables : t.tables = Function.update s.tables name none)
    (hrows : t.catalog_rows = Function.update s.catalog_rows rid none) : Recorded t := by
  intro name' entry' bytes' he' hrow'
  rw [htables] at he'
  rw [hrows] at hrow'
  by_cases hn : name' = name
  · subst hn
    rw [Function.update_self] at he'
    cases he'
  by_cases hr : entry'.rid = rid
  · rw [hr, Function.update_self] at hrow'
    cases hrow'
  · rw [Function.update_of_ne hn] at he'
    rw [Function.update_of_ne hr] at hrow'
    exact R name' entry' bytes' he' hrow'

/-- The columns of the tables that a call creates can be counted with 16 bits. -/
def Countable : CatalogEvent → Prop
  | .create_table _ schema => schema.column_count < 65536
  | _ => True

/-- A call of a table changes no table and no row of the catalog. -/
theorem tableKept_next (S : Sound s) {e : CatalogEvent} (hown : OwnRids s e) (hone : OneUser e)
    (hcreate : ∀ name schema, e ≠ .create_table name schema) (hdrop : ∀ name, e ≠ .drop_table name)
    (hnext : s.next e = some t) : TableKept s t := by
  cases e with
  | create_table name schema => exact absurd rfl (hcreate name schema)
  | drop_table name => exact absurd rfl (hdrop name)
  | insert_tuple name schema tuple =>
    obtain ⟨entry, he, hnext⟩ := Option.bind_eq_some_iff.mp hnext
    obtain ⟨⟨r, b⟩, hr, rfl⟩ := Option.map_eq_some_iff.mp hnext
    exact S.insert_kept he hr
  | update_tuple name rid schema tuple =>
    obtain ⟨entry, he, hnext⟩ := Option.bind_eq_some_iff.mp hnext
    obtain ⟨⟨r, b⟩, hr, rfl⟩ := Option.map_eq_some_iff.mp hnext
    exact S.update_kept he (hown entry he) hr
  | delete_tuple name rid =>
    obtain ⟨entry, he, rfl⟩ := Option.map_eq_some_iff.mp hnext
    exact S.delete_kept he (hown entry he)
  | fetch n => exact hone.elim
  | unpin n => exact hone.elim

/-- A drop takes the row of its table with it. -/
theorem Kept.drop_table (K : Kept s) (hnext : s.next (.drop_table name) = some t) :
    Matched t ∧ Recorded t := by
  obtain ⟨⟨r, t'⟩, hr, rfl⟩ := Option.map_eq_some_iff.mp hnext
  rcases he : s.tables name with _ | entry
  · unfold CatalogSystem.drop_table at hr
    rw [he] at hr
    cases hr
    exact ⟨K.matched, K.recorded⟩
  obtain ⟨frames, hframes, T⟩ := K.tidy
  obtain ⟨t1, ht, htables, hrows⟩ := K.sound.drop_table_succeeds K.matched he
    (by rw [T.frames]; exact hframes) K.alone
  rw [hr] at ht
  cases ht
  exact ⟨K.matched.unregister he htables hrows, K.recorded.unregister htables hrows⟩

theorem Kept.next (K : Kept s) {e : CatalogEvent} (hown : OwnRids s e) (hone : OneUser e)
    (hcount : Countable e) (hnext : s.next e = some t) : Kept t := by
  have S := K.sound
  obtain ⟨frames, hframes, T⟩ := K.tidy
  have hkeeps := keeps_next T hone hnext
  have hrows : Matched t ∧ Recorded t := by
    cases e with
    | create_table name schema =>
      obtain ⟨⟨r, t'⟩, hr, rfl⟩ := Option.map_eq_some_iff.mp hnext
      refine ⟨K.matched.create_table S hr, ?_⟩
      rcases S.create_table_rows hr with ⟨h1, h2⟩ | ⟨entry, bytes, _, hfree, hrow, rfl, h1, h2⟩
      · exact K.recorded.congr h1 h2
      · exact K.recorded.register K.matched hfree hrow hcount h1 h2
    | drop_table name => exact K.drop_table hnext
    | insert_tuple | update_tuple | delete_tuple | fetch | unpin =>
      have hkept := tableKept_next S hown hone (by simp) (by simp) hnext
      exact ⟨K.matched.congr hkept.tables hkept.rows, K.recorded.congr hkept.tables hkept.rows⟩
  exact ⟨sound_next S hown hnext, hrows.1, hrows.2, hkeeps.catalog_table.trans K.own,
    by rw [hkeeps.outside]; exact K.alone, frames, hframes, hkeeps.tidy⟩

/-- The first page of a new catalog is the page behind the header. -/
theorem own_start (h : catalogMachine.start s) :
    s.catalog_table = ⟨kCATALOG_FIRST_PAGE_ID, catalog_schema⟩ ∧ (∀ n, s.heap.outside n = 0) ∧
      ∃ frames, 1 ≤ frames ∧ Tidy frames s.heap.pool := by
  obtain ⟨frames, hmake⟩ := h
  obtain ⟨T, halone⟩ := (tidy_empty_pool frames).make hmake
  cases frames with
  | zero => cases hmake
  | succ k =>
    refine ⟨?_, halone, k + 1, Nat.succ_pos k, T⟩
    have hcreate : (create (empty_pool (k + 1))).1 = .ok (some 1) := rfl
    have hnew : (empty_pool (k + 1)).disk_manager.capacity ≤ 1 := Nat.le_refl 1
    unfold CatalogSystem.make init_table at hmake
    rw [if_pos hnew] at hmake
    generalize create (empty_pool (k + 1)) = c at hcreate hmake
    obtain ⟨_, b⟩ := c
    obtain rfl := hcreate
    obtain ⟨⟨r, b'⟩, _, hr⟩ := Option.map_eq_some_iff.mp hmake
    rcases r with e | tables
    · cases hr
    · cases hr
      rfl

end

/-! ## The database is opened again -/

/-- What `~BufferPoolManager` leaves of the disk. -/
def CatalogSystem.closed (s : CatalogSystem) : disk_manager.DiskManager :=
  s.heap.pool.flush_all.2.disk_manager

section
variable {s : CatalogSystem} {d : disk_file.DiskManager} {k : Nat}

theorem Sound.closed (S : Sound s) : (∀ n, meaning (s.closed.file n) = contents s.heap.pool n) ∧
    s.closed.capacity = s.heap.pool.disk_manager.capacity ∧
    s.closed.free_list = s.heap.pool.disk_manager.free_list := by
  obtain ⟨file, hflush, hfile⟩ := S.heap.store.flushed
  unfold CatalogSystem.closed
  rw [hflush]
  exact ⟨hfile, rfl, rfl⟩

/-- There is a file that stores what was written. -/
theorem Sound.stored (S : Sound s) (T : Tidy k s.heap.pool) : Holds (stored s.closed) s.closed := by
  refine holds_stored ?_ (T.flush_frames _).blank
  intro p hp
  rw [S.closed.2.2] at hp
  obtain ⟨n, rfl, _⟩ := S.heap.store.free p hp
  exact Option.some_ne_none n

/-- The pages of the chains mean in the file what they meant in the pool. -/
theorem Sound.pages_reopened (S : Sound s) (H : Holds d s.closed)
    (hids : s.heap.pool.disk_manager.capacity < 2 ^ 32) (hfew : d.free_list.length ≤ 1025) {n : Nat}
    (hn : OnChain (succ s.heap.pool) s.heads n) (frames : Nat) :
    contents (.make d.flush_all.pages frames) n = contents s.heap.pool n := by
  have h0 : n ≠ 0 := by
    rintro rfl
    exact S.metadata hn
  have hmeans := S.closed.1 n
  have hpage : view (.make d.flush_all.pages frames) n = page_of (bytes_of (s.closed.file n)) := by
    rw [← H.pages n h0, ← pages_flush_all hfew h0]
    rfl
  have g : Good (s.closed.file n) := (congrArg Meaning.good hmeans).mpr (S.heap.pages n hn).1
  show meaning (view _ n) = _
  rw [hpage, meaning_page_of g, hmeans]
  -- the next page is allocated too
  intro m hm
  have hsucc : succ s.heap.pool n = some m := (congrArg Meaning.next hmeans).symm.trans hm
  obtain ⟨h, hh, hp⟩ := hn
  have := (S.heap.pages m ⟨h, hh, hp.follow hsucc⟩).2.1
  omega

/-- The heaps are those that there were. -/
theorem Sound.heap_reopened (S : Sound s) (H : Holds d s.closed)
    (hids : s.heap.pool.disk_manager.capacity < 2 ^ 32) (hfew : d.free_list.length ≤ 1025)
    (frames : Nat) :
    HeapState True (fun _ => 0) (fun _ => False) s.heads (.make d.flush_all.pages frames) ∧
      ∀ h, s.heads h → ∀ m, OnPath (succ (.make d.flush_all.pages frames)) h m ↔
        OnPath (succ s.heap.pool) h m := by
  obtain ⟨_, hcap, hfree⟩ := S.closed
  have hdisk : d.flush_all.pages.capacity = s.heap.pool.disk_manager.capacity ∧
      d.flush_all.pages.free_list = s.heap.pool.disk_manager.free_list :=
    ⟨H.capacity.trans hcap, H.free_list.trans hfree⟩
  have hal : ∀ n, Allocated s.heap.pool.disk_manager n → Allocated d.flush_all.pages n := by
    intro n hn
    unfold Allocated
    rw [hdisk.1, hdisk.2]
    exact hn
  have H0 : HeapState True (fun _ => 0) (fun _ => False) (fun _ => False)
      (.make d.flush_all.pages frames) := by
    refine heapState_make ⟨fun _ => rfl, fun _ => rfl⟩ ?_ ?_ (hal 0 S.heap.metadata)
      fun h => absurd trivial h
    · rw [hdisk.2]
      exact S.heap.store.free_nodup
    · rw [hdisk.1, hdisk.2]
      intro p hp
      obtain ⟨n, hn, hlt, _⟩ := S.heap.store.free p hp
      exact ⟨n, hn, hlt⟩
  obtain ⟨F, hpath⟩ := S.heap.forest.congr (f := succ (.make d.flush_all.pages frames)) fun n hn =>
    congrArg Meaning.next (S.pages_reopened H hids hfew hn frames)
  refine ⟨⟨H0.store, F, ?_, hal 0 S.heap.metadata⟩, hpath⟩
  rintro n ⟨h, hh, hp⟩
  have hon : OnChain (succ s.heap.pool) s.heads n := ⟨h, hh, (hpath h hh n).mp hp⟩
  rw [S.pages_reopened H hids hfew hon frames]
  exact ⟨(S.heap.pages n hon).1, hal n (S.heap.pages n hon).2⟩

end

/-! ## The tables that are loaded -/

/-- The rows that a scan from the first page has before it are those of the chain. -/
theorem mem_leftOver_first {own : Nat → Prop} {b : BufferPoolManager} {c : Nat} {post : List Nat}
    (hpath : Path (succ b) (some c) (c :: post)) (hown : ∀ h, own h ↔ h = c) {rid : RID}
    {t : List UInt8} : (rid, t) ∈ leftOver b c 0 post ↔ tuplesOf (rows own b) rid = some t := by
  have hon : ∀ m, OnChain (succ b) own m ↔ m ∈ c :: post := by
    intro m
    constructor
    · rintro ⟨h, hh, l, hl, hm⟩
      obtain rfl := (hown h).mp hh
      rwa [hl.unique hpath] at hm
    · exact fun hm => ⟨c, (hown c).mpr rfl, _, hpath, hm⟩
  obtain ⟨p, slot⟩ := rid
  rw [mem_leftOver]
  constructor
  · rintro ⟨hahead, m, hp, ht⟩
    obtain rfl : p = some m := hp
    have hm : m ∈ c :: post := by
      rcases hahead with ⟨h1, _⟩ | ⟨n, hn, h1⟩
      · obtain rfl := Option.some.inj h1
        exact List.mem_cons_self
      · obtain rfl := Option.some.inj h1
        exact List.mem_cons_of_mem _ hn
    rw [tuplesOf_on ((hon m).mpr hm)]
    exact ht
  · intro ht
    rcases p with _ | m
    · cases ht
    have hm : m ∈ c :: post := by
      rw [← hon]
      by_contra hoff
      rw [tuplesOf_off hoff] at ht
      cases ht
    rw [tuplesOf_on ((hon m).mpr hm)] at ht
    refine ⟨?_, m, rfl, ht⟩
    rcases List.mem_cons.mp hm with rfl | hm
    · exact Or.inl ⟨rfl, Nat.zero_le _⟩
    · exact Or.inr ⟨m, hm, rfl⟩

/-- Rows that are read as the tables of a map, each of them once, make the map again. -/
theorem foldl_enter {tables acc : List UInt8 → Option TableEntry} {l : List (RID × List UInt8)}
    (hread : ∀ row ∈ l, ∃ name table, read_entry row.2 = .ok (name, table) ∧
      tables name = some ⟨row.1, table⟩)
    (hacc : ∀ name, acc name = tables name ∨ (acc name = none ∧ ∀ entry, tables name = some entry →
      ∃ row ∈ l, read_entry row.2 = .ok (name, entry.table))) : l.foldl enter acc = tables := by
  induction l generalizing acc with
  | nil =>
    funext name
    rcases hacc name with h | ⟨hnone, hrow⟩
    · exact h
    rcases he : tables name with _ | entry
    · exact hnone
    · obtain ⟨_, hmem, _⟩ := hrow entry he
      cases hmem
  | cons row l ih =>
    obtain ⟨name, table, hentry, he⟩ := hread row List.mem_cons_self
    have henter : enter acc row = Function.update acc name (some ⟨row.1, table⟩) := by
      unfold enter
      rw [hentry]
    rw [List.foldl_cons, henter]
    refine ih (fun r hr => hread r (List.mem_cons_of_mem _ hr)) fun name' => ?_
    by_cases hn : name' = name
    · subst hn
      rw [Function.update_self]
      exact Or.inl he.symm
    rw [Function.update_of_ne hn]
    rcases hacc name' with h | ⟨hnone, hrow⟩
    · exact Or.inl h
    · refine Or.inr ⟨hnone, fun entry he' => ?_⟩
      obtain ⟨r, hr, hr'⟩ := hrow entry he'
      rcases List.mem_cons.mp hr with rfl | hr
      · -- the row that was entered has another name
        rw [hentry] at hr'
        cases hr'
        exact absurd rfl hn
      · exact ⟨r, hr, hr'⟩

/-- The tuples of a table, by their RIDs. -/
noncomputable def CatalogSystem.tuples_of (s : CatalogSystem) (table : Table) :
    RID → Option (List UInt8) :=
  tuplesOf (rows (fun h => table.table_heap = some h) s.heap.pool)

/-- The tables have the same names, schemas, first pages and tuples, and the disk has the same
ids. -/
structure SameDatabase (s t : CatalogSystem) : Prop where
  tables : ∀ name, (t.tables name).map TableEntry.table = (s.tables name).map TableEntry.table
  tuples : ∀ name entry, s.tables name = some entry →
    t.tuples_of entry.table = s.tuples_of entry.table
  capacity : t.heap.pool.disk_manager.capacity = s.heap.pool.disk_manager.capacity
  free_list : t.heap.pool.disk_manager.free_list = s.heap.pool.disk_manager.free_list

section
variable {s t : CatalogSystem} {d : disk_file.DiskManager}

/-- The parts of a catalog that its rows and its heaps depend on. -/
theorem Sound.of_parts (S : Sound s) (hheap : t.heap = s.heap)
    (htable : t.catalog_table = s.catalog_table) (htables : t.tables = s.tables) : Sound t := by
  obtain ⟨heap, locks, undo_log, catalog_table, tables⟩ := t
  simp only at hheap htable htables
  subst hheap htable htables
  exact ⟨S.heap, S.metadata, S.own, S.table, S.apart⟩

/-- The rows are read as the tables that are registered, which are all entered. -/
theorem Kept.loads (K : Kept s) (hids : s.heap.pool.disk_manager.capacity < 2 ^ 32)
    {l : List (RID × List UInt8)} (hl : ∀ rid t, (rid, t) ∈ l ↔ s.catalog_rows rid = some t) :
    (∀ row ∈ l, ∃ r, read_entry row.2 = .ok r) ∧ (l.foldl enter fun _ => none) = s.tables := by
  have hentry : ∀ name entry bytes, s.tables name = some entry →
      s.catalog_rows entry.rid = some bytes → read_entry bytes = .ok (name, entry.table) := by
    intro name entry bytes he hrow
    obtain ⟨hbytes, hcount⟩ := K.recorded name entry bytes he hrow
    obtain ⟨x, hx, hh⟩ := K.sound.head he
    have := (K.sound.heap.pages x ⟨x, hh, K.sound.heap.forest.onPath_head hh⟩).2.1
    exact hbytes.entry hcount hx (by omega)
  have hread : ∀ row ∈ l, ∃ name table, read_entry row.2 = .ok (name, table) ∧
      s.tables name = some ⟨row.1, table⟩ := by
    rintro ⟨rid, bytes⟩ hrow
    have hrow := (hl rid bytes).mp hrow
    obtain ⟨name, ⟨_, table⟩, he, rfl⟩ := K.matched.listed rid bytes hrow
    exact ⟨name, table, hentry name _ bytes he hrow, he⟩
  refine ⟨fun row hrow => ?_, foldl_enter hread fun name => Or.inr ⟨rfl, fun entry he => ?_⟩⟩
  · obtain ⟨name, table, h, _⟩ := hread row hrow
    exact ⟨_, h⟩
  · obtain ⟨bytes, hrow, _⟩ := K.matched.named name entry he
    exact ⟨_, (hl _ _).mpr hrow, hentry name entry bytes he hrow⟩

/-- The disk manager reads its header and its free list again. -/
theorem Kept.disk_reopened (K : Kept s) (H : Holds d s.closed)
    (hids : s.heap.pool.disk_manager.capacity < 2 ^ 32) :
    1 < d.capacity ∧ d.free_list.length ≤ 1025 ∧ d.reopen = some (.ok d.flush_all) := by
  have S := K.sound
  obtain ⟨_, _, T⟩ := K.tidy
  obtain ⟨hmeans, hcap, hfree⟩ := S.closed
  have hhead := s.own_heads 1 (congrArg Table.table_heap K.own)
  have hone := S.heap.pages 1 ⟨1, hhead, S.heap.forest.onPath_head hhead⟩
  have hfew : d.free_list.length ≤ 1025 := by
    have hlen := congrArg List.length (H.free_list.trans hfree)
    rw [List.length_map] at hlen
    rw [hlen]
    exact T.few
  have hvalid : ∀ n ∈ d.free_list, n < 2 ^ 32 := by
    intro n hn
    have hmem : some n ∈ s.heap.pool.disk_manager.free_list := by
      rw [← hfree, ← H.free_list]
      exact List.mem_map_of_mem hn
    obtain ⟨m, hm, hlt, _⟩ := S.heap.store.free _ hmem
    obtain rfl := Option.some.inj hm
    omega
  have hsize := H.has_page Nat.one_ne_zero ((congrArg Meaning.good (hmeans 1)).mpr hone.1)
  have hcapacity : d.capacity = s.heap.pool.disk_manager.capacity := H.capacity.trans hcap
  rw [← hcapacity] at hids
  exact ⟨by rw [hcapacity]; exact hone.2.1, hfew, open_flushed H.header hids hvalid hfew hsize⟩

/-- The pool that the database is opened with is over a disk that can be closed. -/
theorem Sound.tidy_reopened (S : Sound s) {k : Nat} (T : Tidy k s.heap.pool) (H : Holds d s.closed)
    (hfew : d.free_list.length ≤ 1025) (frames : Nat) :
    Tidy frames (.make d.flush_all.pages frames) := by
  refine ⟨rfl, (List.length_map ..).trans_le hfew, fun n hn => ?_⟩
  have hn : d.capacity ≤ n := hn
  have h0 : n ≠ 0 := by
    have := S.heap.metadata.1
    rw [H.capacity, S.closed.2.1] at hn
    omega
  have hblank : s.closed.file n = zeroPage :=
    (T.flush_frames (List.range s.heap.pool.pool_size)).blank n (H.capacity.symm.trans_le hn)
  show page_of (readBytes d.flush_all.file.bytes (n * kPAGE_SIZE) kPAGE_SIZE) = zeroPage
  rw [pages_flush_all hfew h0, H.pages n h0, hblank, bytes_of_zeroPage, page_of_zeros]

/-- The rows of the heaps are those that there were. -/
theorem Sound.rows_reopened (S : Sound s) (H : Holds d s.closed)
    (hids : s.heap.pool.disk_manager.capacity < 2 ^ 32) (hfew : d.free_list.length ≤ 1025)
    {frames : Nat} {b : BufferPoolManager} (hsame : contents b = contents (.make d.flush_all.pages frames))
    {own : Nat → Prop} (hown : ∀ h, own h → s.heads h) :
    tuplesOf (rows own b) = tuplesOf (rows own s.heap.pool) := by
  obtain ⟨_, hpath⟩ := S.heap_reopened H hids hfew frames
  refine own_tuples_congr (fun h hh m => ?_) fun m ⟨h, hh, hm⟩ => ?_
  · rw [succ_congr hsame]
    exact hpath h (hown h hh) m
  · rw [hsame]
    exact S.pages_reopened H hids hfew ⟨h, hown h hh, hm⟩ frames

/-- The catalog loads the tables that were registered. -/
theorem Kept.loaded (K : Kept s) (H : Holds d s.closed)
    (hids : s.heap.pool.disk_manager.capacity < 2 ^ 32) (hfew : d.free_list.length ≤ 1025)
    {frames : Nat} (hframes : 1 ≤ frames) :
    ∃ b, load_existing_tables (.make d.flush_all.pages frames)
        ⟨kCATALOG_FIRST_PAGE_ID, catalog_schema⟩ = some (.ok s.tables, b) ∧
      HeapState True (fun _ => 0) (fun _ => False) s.heads b ∧
      contents b = contents (.make d.flush_all.pages frames) ∧
      KeepsIds (.make d.flush_all.pages frames) b := by
  have S := K.sound
  have hhead := s.own_heads 1 (congrArg Table.table_heap K.own)
  obtain ⟨HS, _⟩ := S.heap_reopened H hids hfew frames
  obtain ⟨l, hl⟩ := HS.forest.ends 1 hhead
  obtain ⟨post, rfl⟩ : ∃ post, l = 1 :: post := by
    cases hl
    exact ⟨_, rfl⟩
  have hleft : ∀ rid t, (rid, t) ∈ leftOver (.make d.flush_all.pages frames) 1 0 post ↔
      s.catalog_rows rid = some t := by
    intro rid t
    unfold CatalogSystem.catalog_rows
    rw [← S.rows_reopened H hids hfew (b := .make d.flush_all.pages frames) rfl s.own_heads]
    refine mem_leftOver_first hl fun h => ?_
    unfold CatalogSystem.own
    rw [K.own]
    exact ⟨fun he => (Option.some.inj he).symm, fun he => he ▸ rfl⟩
  obtain ⟨hread, htables⟩ := K.loads hids hleft
  obtain ⟨b, hload, hrest⟩ := load_existing_tables_spec HS hframes hhead hl
    ⟨kCATALOG_FIRST_PAGE_ID, catalog_schema⟩ rfl hread
  rw [htables] at hload
  exact ⟨b, hload, hrest⟩

/-- The database that is opened over the file is the one that was destroyed. -/
theorem Kept.reopened (K : Kept s) (H : Holds d s.closed)
    (hids : s.heap.pool.disk_manager.capacity < 2 ^ 32) {frames : Nat} (hframes : 1 ≤ frames) :
    ∃ t, database.open_ d.close frames = some (.ok t) ∧ SameDatabase s t ∧ Kept t := by
  have S := K.sound
  obtain ⟨_, _, T⟩ := K.tidy
  obtain ⟨_, hcap, hfree⟩ := S.closed
  obtain ⟨hmany, hfew, hopen⟩ := K.disk_reopened H hids
  obtain ⟨b, hload, HS, hsame, hkeeps⟩ := K.loaded H hids hfew hframes
  have hinit : init_table (.make d.flush_all.pages frames) =
      (.ok ⟨kCATALOG_FIRST_PAGE_ID, catalog_schema⟩, .make d.flush_all.pages frames) :=
    if_neg (Nat.not_le_of_lt hmany)
  obtain ⟨t, ht, hheap, htable, htables⟩ : ∃ t : CatalogSystem,
      CatalogSystem.make (.make d.flush_all.pages frames) = some (.ok t) ∧
        t.heap = ⟨b, fun _ => 0⟩ ∧ t.catalog_table = s.catalog_table ∧ t.tables = s.tables := by
    unfold CatalogSystem.make
    simp only [hinit, hload, K.own]
    exact ⟨_, rfl, rfl, rfl, rfl⟩
  have hpool : t.heap.pool = b := congrArg HeapPool.pool hheap
  have htuples : ∀ own : Nat → Prop, (∀ h, own h → s.heads h) →
      tuplesOf (rows own t.heap.pool) = tuplesOf (rows own s.heap.pool) := by
    intro own hown
    rw [hpool]
    exact S.rows_reopened H hids hfew hsame hown
  have hrows : t.catalog_rows = s.catalog_rows := by
    have hown : t.own = s.own := by
      funext h
      unfold CatalogSystem.own
      rw [htable]
    unfold CatalogSystem.catalog_rows
    rw [hown]
    exact htuples s.own s.own_heads
  obtain ⟨_, hpath⟩ := S.heap_reopened H hids hfew frames
  rw [← succ_congr hsame] at hpath
  have St : Sound t := Sound.of_parts
    (S.with_heap (p := ⟨b, fun _ => 0⟩) HS (fun h hh m => (hpath h hh m).mpr)
      fun h hh => (hpath h hh 0).mp) hheap htable htables
  obtain ⟨Tt, halone⟩ := (S.tidy_reopened T H hfew frames).make ht
  refine ⟨t, ?_, ⟨fun name => by rw [htables], fun name entry he => ?_, ?_, ?_⟩, St,
    K.matched.congr htables hrows, K.recorded.congr htables hrows, htable.trans K.own, halone,
    frames, hframes, Tt⟩
  · unfold database.open_
    have hclose : disk_file.DiskManager.open_ d.close = some (.ok d.flush_all) := hopen
    simp only [hclose, ht]
  · exact htuples _ fun h hh => Or.inr ⟨name, entry, he, hh⟩
  · rw [hpool, hkeeps.capacity]
    exact H.capacity.trans hcap
  · rw [hpool, hkeeps.free_list]
    exact H.free_list.trans hfree

end

/-! ## Runs of a database -/

inductive DatabaseEvent
  | call (e : CatalogEvent)
  /-- the database is destroyed over a file, and opened again with a pool of some frames -/
  | reopen (disk : disk_file.DiskManager) (frames : Nat)

/-- A constructor that throws leaves no database. -/
def CatalogSystem.next_event (s : CatalogSystem) : DatabaseEvent → Option CatalogSystem
  | .call e => s.next e
  | .reopen disk frames =>
    match database.open_ disk.close frames with
    | some (.ok t) => some t
    | _ => none

/-- A database over a new file, through its calls and through the ends of its processes. -/
def databaseMachine : Machine CatalogSystem DatabaseEvent where
  start := catalogMachine.start
  next := CatalogSystem.next_event

/-- Nobody else has pages pinned, the RIDs are those of their tables, and the file stores what
was written to it. -/
def UsedAlone (s : CatalogSystem) : DatabaseEvent → Prop
  | .call e => OneUser e ∧ OwnRids s e
  | .reopen disk frames => Holds disk s.closed ∧ 2 ≤ frames

/-- The columns of a new table are counted with 16 bits, as are the bytes of an update, and the ids
of a file have 32 bits. -/
def Counted (s : CatalogSystem) : DatabaseEvent → Prop
  | .call e => Countable e ∧ UpdatesFit e
  | .reopen _ _ => s.heap.pool.disk_manager.capacity < 2 ^ 32

/-- The database that is destroyed and opened again is the same. -/
def Reopens (s : CatalogSystem) : Prop :=
  ∀ disk frames, UsedAlone s (.reopen disk frames) →
    ∃ t, databaseMachine.next s (.reopen disk frames) = some t ∧ SameDatabase s t

section
variable {s t : CatalogSystem}

theorem kept_start (h : databaseMachine.start s) : Kept s := by
  have htables := (start_spec h).2.1
  obtain ⟨hown, halone, T⟩ := own_start h
  refine ⟨sound_start h, matched_start h, fun name entry bytes he _ => ?_, hown, halone, T⟩
  rw [htables] at he
  cases he

theorem kept_next (K : Kept s) {e : DatabaseEvent} (halone : UsedAlone s e) (hcount : Counted s e)
    (hnext : databaseMachine.next s e = some t) : Kept t := by
  cases e with
  | call e => exact K.next halone.2 halone.1 hcount.1 hnext
  | reopen disk frames =>
    obtain ⟨t', ht, _, K'⟩ := K.reopened halone.1 hcount (Nat.le_of_succ_le halone.2)
    simp only [databaseMachine, CatalogSystem.next_event, ht, Option.some.injEq] at hnext
    exact hnext ▸ K'

theorem kept_reach (h : databaseMachine.Reach (fun s e => UsedAlone s e ∧ Counted s e) s) : Kept s :=
  h.invariant (fun _ => kept_start) fun _ _ _ K hok hnext => kept_next K hok.1 hok.2 hnext

/-- While the columns of the tables and the bytes of the updates are counted with 16 bits, a database
is found again. -/
theorem a_database_is_found_again_when_its_columns_are_counted
    (h : databaseMachine.Reach (fun s e => UsedAlone s e ∧ Counted s e) s)
    (hids : s.heap.pool.disk_manager.capacity < 2 ^ 32) : Reopens s := by
  intro disk frames halone
  obtain ⟨t, ht, hsame, _⟩ := (kept_reach h).reopened halone.1 hids (Nat.le_of_succ_le halone.2)
  refine ⟨t, ?_, hsame⟩
  simp only [databaseMachine, CatalogSystem.next_event, ht]

end

/-- Calls of one user, with RIDs on the first pages of the tables and few columns. Nothing is
updated. -/
def calls_alone (s : CatalogSystem) : DatabaseEvent → Bool
  | .call (.fetch _) | .call (.unpin _) | .call (.update_tuple ..) | .reopen _ _ => false
  | .call (.create_table _ schema) => decide (schema.column_count < 65536)
  | .call e => on_own_first_page s e

theorem usedAlone_of_check {s : CatalogSystem} (e : DatabaseEvent) (S : Sound s)
    (h : calls_alone s e = true) : UsedAlone s e ∧ Counted s e := by
  cases e with
  | reopen => cases h
  | call e =>
    cases e with
    | create_table name schema =>
      have hcount : schema.column_count < 65536 := of_decide_eq_true h
      exact ⟨⟨trivial, trivial⟩, hcount, trivial⟩
    | update_tuple | fetch | unpin => cases h
    | drop_table | insert_tuple | delete_tuple =>
      exact ⟨⟨trivial, ownRids_of_check _ S h⟩, trivial, trivial⟩

/-- Two tables, one of which is dropped, and a row that is put in the place of another one. -/
def two_tables : List DatabaseEvent :=
  [.call (.create_table [97] numbers), .call (.create_table [98] three_columns),
    .call (.insert_tuple [97] numbers (number_tuple 1)), .call (.delete_tuple [97] ⟨some 2, 0⟩),
    .call (.insert_tuple [97] numbers (number_tuple 7)), .call (.drop_table [98])]

theorem a_table_and_its_row_are_found_again : ∃ s t, UsedAlone s (.reopen (stored s.closed) 3) ∧
    (s.tables [97]).map (·.table.table_heap) = some (some 2) ∧
    databaseMachine.next s (.reopen (stored s.closed) 3) = some t ∧ SameDatabase s t := by
  obtain ⟨s0, s, hmade, hs, hp⟩ := of_new_catalog (b := empty_pool 2)
    (f := (databaseMachine.execIf calls_alone · two_tables))
    (p := fun s => (s.tables [97]).map (·.table.table_heap) == some (some 2) &&
      decide (s.heap.pool.disk_manager.capacity < 2 ^ 32)) (by decide +kernel)
  rw [Bool.and_eq_true, decide_eq_true_eq] at hp
  have hr : databaseMachine.Reach (fun s e => UsedAlone s e ∧ Counted s e) s :=
    Machine.Reach.execIf (fun _ h => (kept_reach h).sound) (fun _ e => usedAlone_of_check e)
      (.start ⟨2, hmade⟩) hs
  obtain ⟨_, _, T⟩ := (kept_reach hr).tidy
  have halone : UsedAlone s (.reopen (stored s.closed) 3) :=
    ⟨(kept_reach hr).sound.stored T, Nat.le_succ 2⟩
  obtain ⟨t, ht, hsame⟩ := a_database_is_found_again_when_its_columns_are_counted hr hp.2 _ _ halone
  exact ⟨s, t, halone, eq_of_beq hp.1, ht, hsame⟩

/-! ## A table with too many columns -/

/-- `create_table` looks only at the bytes of a schema. -/
theorem create_table_bytes {s t : CatalogSystem} {name : List UInt8} {schema schema' : Schema}
    (hbytes : schema'.serialize = schema.serialize)
    (h : s.create_table name schema none = some (.ok (), t)) :
    ∃ entry, s.create_table name schema' none = some (.ok (), t.set_table name (some entry)) ∧
      entry.table.schema = schema' := by
  unfold CatalogSystem.create_table at h ⊢
  split at h
  · cases h
  rename_i hnew
  rw [if_neg hnew]
  generalize table_heap.create s.heap.pool = c at h ⊢
  obtain ⟨_ | first_page_id, b⟩ := c
  · cases h
  have hentry : entry_tuple name first_page_id schema' = entry_tuple name first_page_id schema := by
    unfold entry_tuple entryValues
    rw [hbytes]
  simp only at h ⊢
  rw [hentry]
  generalize entry_tuple name first_page_id schema = entry at h ⊢
  rcases entry with _ | entry
  · cases h
  obtain ⟨⟨r, s1⟩, hinsert, hr⟩ := Option.map_eq_some_iff.mp h
  simp only [hinsert]
  rcases r with _ | _ | rid
  · cases hr
  · cases hr
  · cases hr
    refine ⟨⟨rid, ⟨first_page_id, schema'⟩⟩, ?_, rfl⟩
    unfold CatalogSystem.register CatalogSystem.set_table
    simp only [Option.map_some, Function.update_idem]

/-- The tables of a database that was opened again have schemas that were read from bytes. -/
theorem reopened_from_bytes {s t : CatalogSystem} {disk : disk_file.DiskManager} {frames : Nat}
    (h : databaseMachine.next s (.reopen disk frames) = some t) : FromBytes t.tables := by
  simp only [databaseMachine, CatalogSystem.next_event, database.open_] at h
  split at h
  swap
  · cases h
  rename_i made hmade
  cases h
  split at hmade
  · cases hmade
  · cases hmade
  unfold CatalogSystem.make at hmade
  split at hmade
  · cases hmade
  obtain ⟨⟨r, b⟩, hload, hr⟩ := Option.map_eq_some_iff.mp hmade
  rcases r with _ | tables
  · cases hr
  · cases hr
    exact load_existing_tables_from_bytes hload

/-- A table with 65537 columns is found again with one. -/
theorem a_table_of_many_columns_is_not_found_again :
    ¬ ∀ s, databaseMachine.Reach UsedAlone s → Reopens s := by
  intro hall
  obtain ⟨s0, ⟨r, t0⟩, hmade, hcreate, hp⟩ := of_new_catalog (b := empty_pool 4)
    (f := fun s => s.create_table [97] ⟨[⟨[], .INT32, 0⟩]⟩ none)
    (p := fun r => r.1.isOk) (by decide +kernel)
  rcases r with _ | _
  · cases hp
  obtain ⟨entry, hmany, hschema⟩ := create_table_bytes too_many_columns_bytes hcreate
  have hnext : s0.next (.create_table [97] too_many_columns) = some (t0.set_table [97] (some entry)) := by
    show Option.map _ _ = _
    rw [hmany]
    rfl
  have hr : databaseMachine.Reach UsedAlone (t0.set_table [97] (some entry)) :=
    Machine.Reach.step (.start ⟨4, hmade⟩) (e := .call (.create_table [97] too_many_columns))
      ⟨trivial, trivial⟩ hnext
  have S := sound_next (sound_start ⟨4, hmade⟩) (e := .create_table [97] too_many_columns) trivial hnext
  have T := (keeps_next ((tidy_empty_pool 4).make hmade).1 (e := .create_table [97] too_many_columns)
    trivial hnext).tidy
  obtain ⟨t, ht, hsame⟩ := hall _ hr _ 2 ⟨S.stored T, Nat.le_refl 2⟩
  have hfound := hsame.tables [97]
  have hentry : (t0.set_table [97] (some entry)).tables [97] = some entry := by
    unfold CatalogSystem.set_table
    simp only [Function.update_self]
  rw [hentry] at hfound
  obtain ⟨entry', he', htable⟩ := Option.map_eq_some_iff.mp hfound
  obtain ⟨raw, hraw⟩ := reopened_from_bytes ht [97] entry' he'
  rw [htable, hschema] at hraw
  have hcount : too_many_columns.column_count = 65537 := List.length_replicate
  have := Schema.count_of_raw hraw
  omega

end duck.catalog
