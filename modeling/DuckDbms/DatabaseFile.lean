-- The file of a database: the bytes of its pages, the file that holds what a disk
-- of the pool holds, and the database that is opened over a file.
import DuckDbms.Catalog
import DuckDbms.DiskFileLaws
import DuckDbms.PoolStore

open byte_mem byte_file layout duck.slotted_page duck.buffer_pool

/-! ## The bytes of a page -/

namespace duck.disk_file

/-- The bytes of `data()`: the header, and what stands behind it. -/
def bytes_of (d : PageData) : List UInt8 :=
  leBytes 4 (d.header.next_page_id.getD 0xFFFFFFFF) ++ (leBytes 2 d.header.slot_count ++
    (leBytes 2 d.header.free_space_offset ++
      readBytes d.body sizeofPageHeader (kPAGE_SIZE - sizeofPageHeader)))

/-- The fields of the header are as wide as the source has them. -/
structure Fits (d : PageData) : Prop where
  next : ∀ n, d.header.next_page_id = some n → n < 0xFFFFFFFF
  count : d.header.slot_count < 65536
  offset : d.header.free_space_offset < 65536

section
variable {d d' : PageData}

theorem length_bytes_of (d : PageData) : (bytes_of d).length = kPAGE_SIZE := by
  unfold bytes_of
  simp only [List.length_append, length_leBytes, length_readBytes]
  unfold kPAGE_SIZE sizeofPageHeader
  omega

theorem bytes_of_zeroPage : bytes_of zeroPage = List.replicate kPAGE_SIZE 0 := by
  have hnumber : ∀ w, leBytes w 0 = List.replicate w 0 := by
    intro w
    induction w with
    | zero => rfl
    | succ w ih =>
      rw [leBytes, Nat.zero_div, ih]
      rfl
  unfold bytes_of zeroPage readBytes
  simp only [Option.getD_some, hnumber, List.map_const', List.length_range, List.replicate_append_replicate]
  rfl

theorem header_page_of (F : Fits d) : (page_of (bytes_of d)).header = d.header := by
  have hnext : (bytes_of d).take 4 = leBytes 4 (d.header.next_page_id.getD 0xFFFFFFFF) :=
    List.take_left' (length_leBytes 4 _)
  have hcount : ((bytes_of d).drop 4).take 2 = leBytes 2 d.header.slot_count := by
    unfold bytes_of
    rw [List.drop_left' (length_leBytes 4 _), List.take_left' (length_leBytes 2 _)]
  have hoffset : ((bytes_of d).drop 6).take 2 = leBytes 2 d.header.free_space_offset := by
    unfold bytes_of
    rw [← List.append_assoc, List.drop_left' (by simp), List.take_left' (length_leBytes 2 _)]
  obtain ⟨⟨next, count, offset⟩, body⟩ := d
  unfold page_of
  rw [hnext, hcount, hoffset, ofLeBytes_leBytes 2 _ F.count, ofLeBytes_leBytes 2 _ F.offset]
  rcases next with _ | n
  · have hread : ofLeBytes (leBytes 4 0xFFFFFFFF) = 0xFFFFFFFF := ofLeBytes_leBytes 4 _ (by decide)
    simp only [Option.getD_none, hread, if_true]
    rfl
  · have hn := F.next n rfl
    have hread : ofLeBytes (leBytes 4 n) = n := ofLeBytes_leBytes 4 n (by omega)
    simp only [Option.getD_some, hread, if_neg (Nat.ne_of_lt hn)]

theorem body_page_of {i : Nat} (h8 : sizeofPageHeader ≤ i) (hi : i < kPAGE_SIZE) :
    (page_of (bytes_of d)).body i = d.body i := by
  obtain ⟨k, rfl⟩ := Nat.exists_eq_add_of_le h8
  have hparts : bytes_of d = (leBytes 4 (d.header.next_page_id.getD 0xFFFFFFFF) ++
      (leBytes 2 d.header.slot_count ++ leBytes 2 d.header.free_space_offset)) ++
      readBytes d.body sizeofPageHeader (kPAGE_SIZE - sizeofPageHeader) := by
    simp [bytes_of]
  have hlen : (leBytes 4 (d.header.next_page_id.getD 0xFFFFFFFF) ++
      (leBytes 2 d.header.slot_count ++ leBytes 2 d.header.free_space_offset)).length =
        sizeofPageHeader := by
    simp [sizeofPageHeader]
  show (bytes_of d).getD (sizeofPageHeader + k) 0 = _
  rw [List.getD_eq_getElem?_getD, hparts, List.getElem?_append_right (by omega), hlen,
    Nat.add_sub_cancel_left, getElem?_readBytes, if_pos (by omega)]
  rfl

/-- What a page means is in its header and in the bytes of the page behind it. -/
theorem meaning_on_page (g : Good d) (hheader : d'.header = d.header)
    (hbody : ∀ i, sizeofPageHeader ≤ i → i < kPAGE_SIZE → d'.body i = d.body i) :
    meaning d' = meaning d := by
  have hslot : ∀ i < d.header.slot_count, d'.slot i = d.slot i := by
    intro i hi
    have hplace : PageData.slotAt i + 4 ≤ kPAGE_SIZE ∧ sizeofPageHeader ≤ PageData.slotAt i := by
      have h1 := g.dir_le
      have h2 := g.free_le
      unfold PageData.slotAt
      unfold sizeofSlot at h1 ⊢
      omega
    unfold PageData.slot
    rw [read16_congr fun j h1 h2 => hbody j (by omega) (by omega),
      read16_congr fun j h1 h2 => hbody j (by omega) (by omega)]
  have hrow : ∀ i < d.header.slot_count, rowOf d' i = rowOf d i := by
    intro i hi
    unfold rowOf
    rw [hslot i hi]
    split
    · rfl
    · rename_i hlive
      obtain ⟨h1, h2⟩ := g.inside i hi hlive
      have h3 := g.dir_le
      congr 1
      exact readBytes_congr fun j hj hk => hbody j (by omega) (by omega)
  have hcount : d'.header.slot_count = d.header.slot_count := by rw [hheader]
  have hrows : rowsOf d' = rowsOf d := rowsOf_congr hcount hrow
  have g' : Good d' := by
    refine ⟨?_, ?_, ?_, ?_, ?_, ?_⟩
    · rw [hheader]
      exact g.dir_le
    · rw [hheader]
      exact g.free_le
    · intro i hi
      rw [hcount] at hi
      rw [hheader, hslot i hi]
      exact g.inside i hi
    · intro i hi j hj
      rw [hcount] at hi hj
      rw [hslot i hi, hslot j hj]
      exact g.apart i hi j hj
    · rw [hheader, hrows]
      exact g.live_le
    · rw [hheader]
      exact g.unused
  unfold meaning
  rw [eq_true g', eq_true g, hrows, hheader]

/-- A page that is read from its bytes means what it meant. -/
theorem meaning_page_of (g : Good d) (hnext : ∀ n, d.header.next_page_id = some n → n < 0xFFFFFFFF) :
    meaning (page_of (bytes_of d)) = meaning d := by
  have h1 := g.dir_le
  have h2 := g.free_le
  unfold sizeofSlot at h1
  unfold kPAGE_SIZE at h2
  exact meaning_on_page g (header_page_of ⟨hnext, by omega, by omega⟩) fun i => body_page_of

end

/-! ## The file of a disk -/

/-- The file stores what was written to the pages of a disk, but for the header page, which the
disk manager keeps in its own fields. -/
structure Holds (d : DiskManager) (disk : disk_manager.DiskManager) : Prop where
  header : d.disk_header.magic = kDB_MAGIC ∧ d.disk_header.version = kDB_FORMAT_VERSION
  capacity : d.capacity = disk.capacity
  free_list : d.free_list.map some = disk.free_list
  pages : ∀ n, n ≠ 0 →
    readBytes d.file.bytes (n * kPAGE_SIZE) kPAGE_SIZE = bytes_of (disk.file n)

section
variable {d : DiskManager} {disk disk' : disk_manager.DiskManager} {n : Nat}

/-- Ids are given out alike, while they have 32 bits. -/
theorem Holds.allocate_page (H : Holds d disk) (h : d.free_list ≠ [] ∨ d.capacity + 1 < 2 ^ 32) :
    disk.allocate_page.1 = some d.allocate_page.1 ∧ Holds d.allocate_page.2 disk.allocate_page.2 := by
  obtain ⟨hheader, hcap, hfree, hpages⟩ := H
  unfold disk_manager.DiskManager.allocate_page
  rw [← hfree]
  rcases allocate_page_cases d with ⟨m, rest, hl, heq⟩ | ⟨hl, heq⟩
  · rw [heq, hl]
    exact ⟨rfl, hheader, hcap, rfl, hpages⟩
  · rw [heq, hl, Nat.mod_eq_of_lt (h.resolve_left (absurd hl)), ← hcap]
    exact ⟨rfl, hheader, rfl, by simp, hpages⟩

theorem Holds.deallocate_page (H : Holds d disk)
    (h : disk.deallocate_page (some n) = .ok disk') :
    ∃ d', d.deallocate_page n = .ok d' ∧ Holds d' disk' := by
  obtain ⟨hheader, hcap, hfree, hpages⟩ := H
  have hlen : disk.free_list.length = d.free_list.length := by rw [← hfree, List.length_map]
  have hzero : (some n : PageID) = kDISK_METADATA_PAGE_ID ↔ n = 0 := Option.some_inj
  unfold disk_manager.DiskManager.deallocate_page at h
  unfold DiskManager.deallocate_page
  rw [hlen] at h
  split at h
  · cases h
  rename_i h0
  rw [if_neg (mt hzero.mpr h0)]
  split at h
  · rename_i hmany
    cases h
    rw [if_pos hmany]
    exact ⟨d, rfl, hheader, hcap, hfree, hpages⟩
  · rename_i hfew
    cases h
    rw [if_neg hfew]
    exact ⟨_, rfl, hheader, hcap, by rw [List.map_cons, hfree], hpages⟩

/-- A page is written with its bytes. -/
theorem Holds.write_page (H : Holds d disk) {data : PageData}
    (h : disk.write_page (some n) data = .ok disk') :
    ∃ d', d.write_page n (bytes_of data) = .ok d' ∧ Holds d' disk' := by
  obtain ⟨hheader, hcap, hfree, hpages⟩ := H
  have hlen := length_bytes_of data
  unfold disk_manager.DiskManager.write_page at h
  simp only at h
  split at h
  · cases h
  rename_i hn
  split at h
  · cases h
  cases h
  unfold DiskManager.write_page
  rw [if_neg (by omega), if_neg (by omega)]
  refine ⟨_, rfl, hheader, hcap, hfree, fun m hm => ?_⟩
  have htake : (bytes_of data).take kPAGE_SIZE = bytes_of data := by rw [← hlen, List.take_length]
  simp only [htake, ByteFile.bytes_pwrite]
  by_cases hmn : m = n
  · subst hmn
    rw [Function.update_self]
    have hread := readBytes_writeBytes d.file.bytes (m * kPAGE_SIZE) (bytes_of data)
    rwa [hlen] at hread
  · rw [Function.update_of_ne hmn, readBytes_writeBytes_apart]
    · exact hpages m hm
    · rw [hlen]
      exact pages_apart (Ne.symm hmn)

theorem Holds.read_page (H : Holds d disk) {data : PageData} (h0 : n ≠ 0)
    (h : disk.read_page (some n) = .ok data) : d.read_page n = .ok (bytes_of data) := by
  unfold disk_manager.DiskManager.read_page at h
  simp only at h
  split at h
  · cases h
  rename_i hn
  split at h
  · cases h
  cases h
  rw [read_page_eq (by rw [H.capacity]; omega), H.pages n h0]

/-- A disk of the pool as it would stand in a file that has all of its pages. -/
def stored (disk : disk_manager.DiskManager) : DiskManager where
  file :=
    { size := disk.capacity * kPAGE_SIZE
      bytes := fun i => if i < disk.capacity * kPAGE_SIZE then
        (bytes_of (disk.file (i / kPAGE_SIZE))).getD (i % kPAGE_SIZE) 0 else 0
      beyond := fun i hi => if_neg (by omega) }
  disk_header := ⟨kDB_MAGIC, kDB_FORMAT_VERSION, 0, 0⟩
  capacity := disk.capacity
  free_list := disk.free_list.filterMap id

theorem holds_stored (hfree : ∀ p ∈ disk.free_list, p ≠ none)
    (hblank : ∀ n, disk.capacity ≤ n → disk.file n = zeroPage) : Holds (stored disk) disk := by
  refine ⟨⟨rfl, rfl⟩, rfl, ?_, fun n _ => ?_⟩
  · show (disk.free_list.filterMap id).map some = disk.free_list
    generalize disk.free_list = ids at hfree
    induction ids with
    | nil => rfl
    | cons p rest ih =>
      obtain ⟨n, rfl⟩ := Option.ne_none_iff_exists'.mp (hfree p List.mem_cons_self)
      show some n :: (rest.filterMap id).map some = _
      rw [ih fun q hq => hfree q (List.mem_cons_of_mem _ hq)]
  · have hlen := length_bytes_of (disk.file n)
    apply List.ext_getElem?
    intro i
    rw [getElem?_readBytes]
    split
    swap
    · rw [List.getElem?_eq_none (by omega)]
    rename_i hi
    have hdiv : (n * kPAGE_SIZE + i) / kPAGE_SIZE = n := by
      rw [Nat.mul_comm, Nat.mul_add_div (by decide), Nat.div_eq_of_lt hi, Nat.add_zero]
    have hmod : (n * kPAGE_SIZE + i) % kPAGE_SIZE = i := by
      rw [Nat.mul_comm, Nat.mul_add_mod, Nat.mod_eq_of_lt hi]
    simp only [stored, hdiv, hmod]
    rw [List.getD_eq_getElem?_getD, List.getElem?_eq_getElem (by omega), Option.getD_some]
    split
    · rfl
    · rename_i hpast
      -- a page past the capacity is blank
      have hn : disk.capacity ≤ n := by
        by_contra hlt
        apply hpast
        have h1 := Nat.mul_le_mul_right kPAGE_SIZE (show n + 1 ≤ disk.capacity by omega)
        rw [Nat.succ_mul] at h1
        omega
      simp only [hblank n hn, bytes_of_zeroPage, List.getElem_replicate]

end

/-- A file that holds a slotted page behind the first one has more than a page. -/
theorem Holds.has_page {d : DiskManager} {disk : disk_manager.DiskManager} (H : Holds d disk) {n : Nat}
    (hn : n ≠ 0) (g : Good (disk.file n)) : kPAGE_SIZE ≤ d.file.size := by
  by_contra hsize
  have h1 := g.dir_le
  have h2 := g.free_le
  unfold sizeofSlot sizeofPageHeader at h1
  unfold kPAGE_SIZE at h2
  -- the offset of the free space is not zero
  have hoffset : ofLeBytes (((bytes_of (disk.file n)).drop 6).take 2) ≠ 0 := by
    have hcount : ((bytes_of (disk.file n)).drop 6).take 2 =
        leBytes 2 (disk.file n).header.free_space_offset := by
      unfold bytes_of
      rw [← List.append_assoc, List.drop_left' (by simp), List.take_left' (length_leBytes 2 _)]
    rw [hcount, ofLeBytes_leBytes 2 _ (by omega)]
    omega
  apply hoffset
  have hmul := Nat.mul_le_mul_right kPAGE_SIZE (show 1 ≤ n by omega)
  have hzeros : readBytes d.file.bytes (n * kPAGE_SIZE) kPAGE_SIZE = List.replicate kPAGE_SIZE 0 := by
    rw [readBytes_congr (w := fun _ => 0) fun i h3 h4 => d.file.beyond i (by omega)]
    unfold readBytes
    rw [List.map_const', List.length_range]
  rw [← H.pages n hn, hzeros, List.drop_replicate, List.take_replicate]
  rfl

end duck.disk_file

/-! ## The database -/

namespace duck.database

open duck.catalog duck.disk_file

/-- The constructor of `Database`: the disk manager, the pool and the catalog over it. -/
def open_ (file : ByteFile) (pool_size : Nat) : Option (Except duck.tuple.Failure CatalogSystem) :=
  match DiskManager.open_ file with
  | none => none
  | some (.error e) => some (.error (.thrown e))
  | some (.ok disk_manager) => CatalogSystem.make (.make disk_manager.pages pool_size)

end duck.database
