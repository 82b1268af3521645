-- The laws of the disk file: what a header and a list of ids read once they are
-- written, and what a run of calls and reopenings keeps of the pages.
import DuckDbms.DiskFile

open machine byte_mem byte_file layout

namespace duck.disk_file

/-! ## Bytes and back -/

section
variable {h : DiskHeader} {ids : List Nat} {d : DiskManager} {n : Nat}

theorem length_to_bytes (h : DiskHeader) : h.to_bytes.length = sizeofDiskHeader := by
  simp [DiskHeader.to_bytes, sizeofDiskHeader]

theorem of_bytes_to_bytes (rest : List UInt8) (h1 : h.magic < 2 ^ 64) (h2 : h.version < 2 ^ 64)
    (h3 : h.capacity < 2 ^ 64) (h4 : h.free_list_size < 2 ^ 64) :
    DiskHeader.of_bytes (h.to_bytes ++ rest) = h := by
  have hnumber : ∀ (before after : List UInt8) (k v : Nat), before.length = k → v < 2 ^ 64 →
      ofLeBytes (((before ++ (leBytes 8 v ++ after)).drop k).take 8) = v := by
    rintro before after k v rfl hv
    rw [List.drop_left, List.take_left' (length_leBytes 8 v)]
    exact ofLeBytes_leBytes 8 v hv
  unfold DiskHeader.of_bytes DiskHeader.to_bytes
  have hm := hnumber [] (leBytes 8 h.version ++ leBytes 8 h.capacity ++ leBytes 8 h.free_list_size
    ++ rest) 0 h.magic rfl h1
  have hv := hnumber (leBytes 8 h.magic) (leBytes 8 h.capacity ++ leBytes 8 h.free_list_size
    ++ rest) 8 h.version (by simp) h2
  have hc := hnumber (leBytes 8 h.magic ++ leBytes 8 h.version) (leBytes 8 h.free_list_size
    ++ rest) 16 h.capacity (by simp) h3
  have hf := hnumber (leBytes 8 h.magic ++ leBytes 8 h.version ++ leBytes 8 h.capacity) rest 24
    h.free_list_size (by simp) h4
  simp only [List.append_assoc, List.nil_append, List.drop_zero] at hm hv hc hf ⊢
  rw [hm, hv, hc, hf]

@[simp] theorem length_ids_to_bytes (ids : List Nat) :
    (ids_to_bytes ids).length = ids.length * sizeofPageID := by
  induction ids with
  | nil => rfl
  | cons n ids ih =>
    unfold ids_to_bytes at ih ⊢
    rw [List.flatMap_cons, List.length_append, length_leBytes, ih, List.length_cons, Nat.add_mul]
    omega

theorem ids_of_bytes_ids_to_bytes (ids : List Nat) (rest : List UInt8) (hids : ∀ n ∈ ids, n < 2 ^ 32) :
    ids_of_bytes ids.length (ids_to_bytes ids ++ rest) = ids := by
  induction ids with
  | nil => rfl
  | cons n ids ih =>
    have hbytes : ids_to_bytes (n :: ids) ++ rest =
        leBytes sizeofPageID n ++ (ids_to_bytes ids ++ rest) := by
      unfold ids_to_bytes
      rw [List.flatMap_cons, List.append_assoc]
    rw [hbytes, List.length_cons, ids_of_bytes, List.take_left' (length_leBytes _ n),
      List.drop_left' (length_leBytes _ n), ih fun m hm => hids m (by simp [hm])]
    rw [show ofLeBytes (leBytes sizeofPageID n) = n from
      ofLeBytes_leBytes _ n (hids n (by simp))]

/-! ## One call -/

/-- Two pages have no byte in common. -/
theorem pages_apart {m : Nat} (h : n ≠ m) :
    Apart (n * kPAGE_SIZE) kPAGE_SIZE (m * kPAGE_SIZE) kPAGE_SIZE := by
  unfold Apart
  rcases Nat.lt_or_gt_of_ne h with hlt | hlt
  · left
    have := Nat.mul_le_mul_right kPAGE_SIZE (show n + 1 ≤ m by omega)
    rwa [Nat.succ_mul] at this
  · right
    have := Nat.mul_le_mul_right kPAGE_SIZE (show m + 1 ≤ n by omega)
    rwa [Nat.succ_mul] at this

theorem read_page_eq (hn : n < d.capacity) :
    d.read_page n = .ok (readBytes d.file.bytes (n * kPAGE_SIZE) kPAGE_SIZE) := by
  unfold DiskManager.read_page
  rw [if_neg (by omega)]
  simp only [ByteFile.pread_filled]

/-- A flush writes the header and the ids, one behind the other. -/
theorem bytes_flush_all (d : DiskManager) : d.flush_all.file.bytes =
    writeBytes d.file.bytes 0
      (d.flush_all.disk_header.to_bytes ++ ids_to_bytes d.free_list.reverse) := by
  have hlen := length_to_bytes d.flush_all.disk_header
  rw [← writeBytes_append, hlen]
  rfl

theorem length_flushed (hfew : d.free_list.length ≤ 1025) :
    (d.flush_all.disk_header.to_bytes ++ ids_to_bytes d.free_list.reverse).length ≤ kPAGE_SIZE := by
  rw [List.length_append, length_to_bytes, length_ids_to_bytes, List.length_reverse]
  unfold sizeofDiskHeader sizeofPageID kPAGE_SIZE
  omega

/-- A flush leaves the pages behind the first one as they are. -/
theorem pages_flush_all (hfew : d.free_list.length ≤ 1025) (hn : n ≠ 0) :
    readBytes d.flush_all.file.bytes (n * kPAGE_SIZE) kPAGE_SIZE =
      readBytes d.file.bytes (n * kPAGE_SIZE) kPAGE_SIZE := by
  have hlen := length_flushed hfew
  rw [bytes_flush_all]
  apply readBytes_writeBytes_apart
  left
  have : 1 * kPAGE_SIZE ≤ n * kPAGE_SIZE := Nat.mul_le_mul_right _ (by omega)
  omega

theorem size_flush_all (hfew : d.free_list.length ≤ 1025) :
    kPAGE_SIZE ≤ d.flush_all.file.size ↔ kPAGE_SIZE ≤ d.file.size := by
  have hids : (ids_to_bytes d.free_list.reverse).length ≤ 4100 := by
    rw [length_ids_to_bytes, List.length_reverse]
    unfold sizeofPageID
    omega
  have hheader := length_to_bytes d.flush_all.disk_header
  unfold sizeofDiskHeader at hheader
  have h1 := d.file.size_pwrite_le (n := 4132) 0 d.flush_all.disk_header.to_bytes (by omega)
  have h2 := (d.file.pwrite 0 d.flush_all.disk_header.to_bytes).size_pwrite_le (n := 4132)
    sizeofDiskHeader (ids_to_bytes d.free_list.reverse) (by unfold sizeofDiskHeader; omega)
  have h3 := d.file.le_size_pwrite 0 d.flush_all.disk_header.to_bytes
  have h4 := (d.file.pwrite 0 d.flush_all.disk_header.to_bytes).le_size_pwrite sizeofDiskHeader
    (ids_to_bytes d.free_list.reverse)
  have hfile : d.flush_all.file = (d.file.pwrite 0 d.flush_all.disk_header.to_bytes).pwrite
    sizeofDiskHeader (ids_to_bytes d.free_list.reverse) := rfl
  rw [hfile]
  unfold kPAGE_SIZE
  omega

end

/-! ## The invariant -/

/-- The ids below the capacity are those of the users, those on the free list and those that
nobody knows any more, and the pages hold what was written to them. -/
structure DiskInv (s : DiskRun) : Prop where
  header : s.disk.disk_header.magic = kDB_MAGIC ∧
    s.disk.disk_header.version = kDB_FORMAT_VERSION
  capacity : 1 ≤ s.disk.capacity ∧ s.disk.capacity < 2 ^ 32
  free : ∀ n ∈ s.disk.free_list, n ≠ 0 ∧ n < s.disk.capacity ∧ n ∉ s.allocated
  free_nodup : s.disk.free_list.Nodup
  few : s.disk.free_list.length ≤ 1025
  allocated : ∀ n ∈ s.allocated, n ≠ 0 ∧ n < s.disk.capacity
  allocated_nodup : s.allocated.Nodup
  pages : ∀ n, n ≠ 0 → readBytes s.disk.file.bytes (n * kPAGE_SIZE) kPAGE_SIZE = s.page n

section
variable {s t : DiskRun} {n : Nat}

theorem allocate_page_cases (d : DiskManager) :
    (∃ n rest, d.free_list = n :: rest ∧ d.allocate_page = (n, { d with free_list := rest })) ∨
    (d.free_list = [] ∧
      d.allocate_page = (d.capacity, { d with capacity := (d.capacity + 1) % 2 ^ 32 })) := by
  unfold DiskManager.allocate_page
  split
  · rename_i n rest h
    exact Or.inl ⟨n, rest, h, rfl⟩
  · rename_i h
    exact Or.inr ⟨h, rfl⟩

theorem DiskInv.allocate_page (I : DiskInv s) (hok : KeepsIds s .allocate_page) :
    DiskInv ⟨s.disk.allocate_page.2, s.disk.allocate_page.1 :: s.allocated, s.written⟩ := by
  obtain ⟨header, hcap, hfree, hnd, hfew, hal, hand, hpages⟩ := I
  rcases allocate_page_cases s.disk with ⟨n, rest, hl, heq⟩ | ⟨hl, heq⟩
  · rw [hl] at hfree hnd hfew
    obtain ⟨hn, hnd⟩ := List.nodup_cons.mp hnd
    obtain ⟨h0, hlt, hna⟩ := hfree n (by simp)
    rw [heq]
    refine ⟨header, hcap, ?_, hnd, Nat.le_of_succ_le hfew, ?_, List.nodup_cons.mpr ⟨hna, hand⟩,
      hpages⟩
    · intro m hm
      obtain ⟨k0, klt, kna⟩ := hfree m (by simp [show m ∈ rest from hm])
      refine ⟨k0, klt, ?_⟩
      rw [List.mem_cons, not_or]
      refine ⟨?_, kna⟩
      rintro rfl
      exact hn hm
    · intro m hm
      rcases List.mem_cons.mp hm with rfl | hm
      · exact ⟨h0, hlt⟩
      · exact hal m hm
  · have hbound : s.disk.capacity + 1 < 2 ^ 32 := hok.resolve_left (absurd hl)
    rw [heq, Nat.mod_eq_of_lt hbound]
    have hno : ∀ m, m ∉ s.disk.free_list := by
      rw [hl]
      exact fun m => List.not_mem_nil
    refine ⟨header, ⟨Nat.le_add_left 1 _, hbound⟩, fun m hm => absurd hm (hno m), hnd, hfew, ?_,
      ?_, hpages⟩
    · intro n hn
      show n ≠ 0 ∧ n < s.disk.capacity + 1
      rcases List.mem_cons.mp hn with rfl | hn
      · have h1 := hcap.1
        exact ⟨by omega, Nat.lt_succ_self _⟩
      · obtain ⟨h0, hlt⟩ := hal n hn
        exact ⟨h0, Nat.lt_succ_of_lt hlt⟩
    · refine List.nodup_cons.mpr ⟨fun hn => ?_, hand⟩
      have := (hal _ hn).2
      omega

theorem DiskInv.deallocate_page (I : DiskInv s) {n : Nat} (hn : n ∈ s.allocated)
    {disk : DiskManager} (h : s.disk.deallocate_page n = .ok disk) :
    DiskInv ⟨disk, s.allocated.erase n, s.written⟩ := by
  obtain ⟨header, hcap, hfree, hnd, hfew, hal, hand, hpages⟩ := I
  obtain ⟨h0, hlt⟩ := hal n hn
  have hgone : n ∉ s.allocated.erase n := hand.not_mem_erase
  have hsub : ∀ m, m ∈ s.allocated.erase n → m ∈ s.allocated := fun m => List.mem_of_mem_erase
  unfold DiskManager.deallocate_page at h
  rw [if_neg h0] at h
  split at h
  · cases h
    exact ⟨header, hcap, fun m hm => ⟨(hfree m hm).1, (hfree m hm).2.1,
      mt (hsub m) (hfree m hm).2.2⟩, hnd, hfew, fun m hm => hal m (hsub m hm), hand.erase n, hpages⟩
  · rename_i hsmall
    cases h
    refine ⟨header, hcap, ?_, ?_, ?_, fun m hm => hal m (hsub m hm), hand.erase n, hpages⟩
    · intro m hm
      rcases List.mem_cons.mp hm with rfl | hm
      · exact ⟨h0, hlt, hgone⟩
      · exact ⟨(hfree m hm).1, (hfree m hm).2.1, mt (hsub m) (hfree m hm).2.2⟩
    · refine List.nodup_cons.mpr ⟨fun hm => ?_, hnd⟩
      exact (hfree n hm).2.2 hn
    · show (n :: s.disk.free_list).length ≤ 1025
      rw [List.length_cons]
      omega

theorem DiskInv.write_page (I : DiskInv s) {n : Nat} {buffer : List UInt8} {disk : DiskManager}
    (h : s.disk.write_page n buffer = .ok disk) :
    DiskInv ⟨disk, s.allocated, Function.update s.written n (some (buffer.take kPAGE_SIZE))⟩ := by
  obtain ⟨header, hcap, hfree, hnd, hfew, hal, hand, hpages⟩ := I
  unfold DiskManager.write_page at h
  split at h
  · cases h
  split at h
  · cases h
  rename_i hlen
  cases h
  have htake : (buffer.take kPAGE_SIZE).length = kPAGE_SIZE := by
    rw [List.length_take]
    omega
  refine ⟨header, hcap, hfree, hnd, hfew, hal, hand, fun m hm => ?_⟩
  show readBytes (writeBytes s.disk.file.bytes (n * kPAGE_SIZE) (buffer.take kPAGE_SIZE))
    (m * kPAGE_SIZE) kPAGE_SIZE = (Function.update s.written n _ m).getD _
  by_cases hmn : m = n
  · subst hmn
    have hread := readBytes_writeBytes s.disk.file.bytes (m * kPAGE_SIZE) (buffer.take kPAGE_SIZE)
    rw [htake] at hread
    rw [hread, Function.update_self]
    rfl
  · rw [Function.update_of_ne hmn, readBytes_writeBytes_apart]
    · exact hpages m hm
    · rw [htake]
      exact pages_apart (Ne.symm hmn)

theorem DiskInv.flush_all (I : DiskInv s) : DiskInv { s with disk := s.disk.flush_all } := by
  obtain ⟨header, hcap, hfree, hnd, hfew, hal, hand, hpages⟩ := I
  exact ⟨header, hcap, hfree, hnd, hfew, hal, hand, fun n hn =>
    (pages_flush_all hfew hn).trans (hpages n hn)⟩

/-! ## Reopening -/

/-- The first page of a flushed file. -/
theorem first_page_flush_all {d : DiskManager} (hfew : d.free_list.length ≤ 1025) :
    ∃ rest, readBytes d.flush_all.file.bytes 0 kPAGE_SIZE =
      d.flush_all.disk_header.to_bytes ++ (ids_to_bytes d.free_list.reverse ++ rest) := by
  obtain ⟨k, hk⟩ := Nat.exists_eq_add_of_le (length_flushed hfew)
  rw [bytes_flush_all, hk, readBytes_writeBytes_more, List.append_assoc]
  exact ⟨_, rfl⟩

/-- A file that is shorter than a page is a new one. -/
theorem open_short {file : ByteFile} (h : file.size < kPAGE_SIZE) :
    DiskManager.open_ file = some (.ok
      (DiskManager.flush_all ⟨file, ⟨kDB_MAGIC, kDB_FORMAT_VERSION, 0, 0⟩, 1, []⟩)) := by
  unfold DiskManager.open_ DiskManager.open_with
  rw [Nat.div_eq_of_lt h, if_pos Nat.one_pos]
  rfl

/-- A file that has a page has its header there. -/
theorem open_flushed {d : DiskManager} (hheader : d.disk_header.magic = kDB_MAGIC ∧
    d.disk_header.version = kDB_FORMAT_VERSION) (hcap : d.capacity < 2 ^ 32)
    (hfree : ∀ n ∈ d.free_list, n < 2 ^ 32) (hfew : d.free_list.length ≤ 1025)
    (hsize : kPAGE_SIZE ≤ d.file.size) : d.reopen = some (.ok d.flush_all) := by
  obtain ⟨rest, hpage⟩ := first_page_flush_all hfew
  have hread : ∀ header, DiskManager.init_header ⟨d.flush_all.file, header, 1, []⟩ (fun _ => true) =
      some (.ok d.flush_all) := by
    intro header
    have hheader' : DiskHeader.of_bytes (d.flush_all.disk_header.to_bytes ++
        (ids_to_bytes d.free_list.reverse ++ rest)) = d.flush_all.disk_header := by
      apply of_bytes_to_bytes
      · show d.disk_header.magic < _
        rw [hheader.1]
        decide
      · show d.disk_header.version < _
        rw [hheader.2]
        decide
      · show d.capacity < _
        omega
      · show d.free_list.length < _
        omega
    have hids := ids_of_bytes_ids_to_bytes d.free_list.reverse rest
      fun n hn => hfree n (List.mem_reverse.mp hn)
    rw [List.length_reverse] at hids
    unfold DiskManager.init_header
    rw [read_page_eq Nat.one_pos]
    simp only [Nat.zero_mul, hpage, hheader']
    have hfits : ¬ sizeofDiskHeader + d.free_list.length * sizeofPageID > kPAGE_SIZE := by
      unfold sizeofDiskHeader sizeofPageID kPAGE_SIZE
      omega
    have hvector : ¬ d.free_list.length > max_size := by
      unfold max_size
      omega
    have hallocated : ¬ (!true) = true := by decide
    have hsize' : d.flush_all.disk_header.free_list_size = d.free_list.length := rfl
    have hcap' : d.flush_all.disk_header.capacity = d.capacity := rfl
    rw [hsize', hcap', if_neg hvector, if_neg hallocated, if_neg hfits, List.drop_left' (length_to_bytes _), hids,
      List.reverse_reverse, Nat.mod_eq_of_lt hcap]
    rfl
  unfold DiskManager.reopen DiskManager.close DiskManager.open_ DiskManager.open_with
  have hdiv : ¬ d.flush_all.file.size / kPAGE_SIZE < 1 := by
    have := (Nat.one_le_div_iff (by decide)).mpr ((size_flush_all hfew).mpr hsize)
    omega
  rw [if_neg hdiv]
  simp only [hread]
  have hmagic : d.flush_all.disk_header.magic = kDB_MAGIC := hheader.1
  have hversion : d.flush_all.disk_header.version = kDB_FORMAT_VERSION := hheader.2
  show some (DiskManager.check_header d.flush_all) = _
  unfold DiskManager.check_header
  rw [if_neg (not_not.mpr hmagic), if_neg (not_not.mpr hversion)]

/-- What the next opening finds: the ids of a file with a page, and no ids of a shorter one. -/
theorem DiskInv.reopen (I : DiskInv s) : ∃ disk, s.disk.reopen = some (.ok disk) ∧
    (disk.disk_header.magic = kDB_MAGIC ∧ disk.disk_header.version = kDB_FORMAT_VERSION) ∧
    (∀ n, n ≠ 0 → readBytes disk.file.bytes (n * kPAGE_SIZE) kPAGE_SIZE =
      readBytes s.disk.file.bytes (n * kPAGE_SIZE) kPAGE_SIZE) ∧
    (kPAGE_SIZE ≤ s.disk.file.size ∧ disk.capacity = s.disk.capacity ∧
        disk.free_list = s.disk.free_list ∨
      s.disk.file.size < kPAGE_SIZE ∧ disk.capacity = 1 ∧ disk.free_list = []) := by
  have hfree : ∀ n ∈ s.disk.free_list, n < 2 ^ 32 := by
    intro n hn
    have h1 := (I.free n hn).2.1
    have h2 := I.capacity.2
    omega
  by_cases hsize : kPAGE_SIZE ≤ s.disk.file.size
  · refine ⟨_, open_flushed I.header I.capacity.2 hfree I.few hsize, I.header, ?_,
      Or.inl ⟨hsize, rfl, rfl⟩⟩
    exact fun n hn => pages_flush_all I.few hn
  · have hshort : s.disk.close.size < kPAGE_SIZE :=
      Nat.lt_of_not_le (mt (size_flush_all I.few).mp hsize)
    refine ⟨_, open_short hshort, ⟨rfl, rfl⟩, fun n hn => ?_, Or.inr ⟨Nat.lt_of_not_le hsize, rfl, rfl⟩⟩
    rw [pages_flush_all (by simp) hn]
    exact pages_flush_all I.few hn

/-- Without allocated pages there are no free ones. -/
theorem DiskInv.free_of_one (I : DiskInv s) (h : s.disk.capacity = 1) : s.disk.free_list = [] := by
  apply List.eq_nil_iff_forall_not_mem.mpr
  intro n hn
  obtain ⟨h0, hlt, _⟩ := I.free n hn
  omega

theorem DiskInv.reopens_iff (I : DiskInv s) :
    (∃ disk, s.disk.reopen = some (.ok disk) ∧ disk.capacity = s.disk.capacity ∧
      disk.free_list = s.disk.free_list) ↔ KeepsIds s .reopen := by
  obtain ⟨disk, hr, _, _, hcases⟩ := I.reopen
  unfold KeepsIds
  constructor
  · rintro ⟨disk', hr', hcap, _⟩
    rw [hr] at hr'
    cases hr'
    rcases hcases with ⟨hsize, _⟩ | ⟨_, hone, _⟩
    · exact Or.inl hsize
    · exact Or.inr (hcap.symm.trans hone)
  · intro hok
    refine ⟨disk, hr, ?_⟩
    rcases hcases with ⟨_, hsame⟩ | ⟨hshort, hone, hnil⟩
    · exact hsame
    · have h1 := hok.resolve_left (Nat.not_le_of_lt hshort)
      exact ⟨hone.trans h1.symm, hnil.trans (I.free_of_one h1).symm⟩

theorem DiskInv.next (I : DiskInv s) {e : DiskEvent} (hok : KeepsIds s e)
    (hnext : diskMachine.next s e = some t) : DiskInv t := by
  cases e with
  | allocate_page =>
    cases hnext
    exact I.allocate_page hok
  | deallocate_page n =>
    simp only [diskMachine, DiskRun.next] at hnext
    split at hnext
    · rename_i hn
      split at hnext
      · cases hnext
        exact I
      · rename_i disk hd
        cases hnext
        exact I.deallocate_page hn hd
    · cases hnext
  | write_page n buffer =>
    simp only [diskMachine, DiskRun.next] at hnext
    split at hnext
    · cases hnext
      exact I
    · rename_i disk hd
      cases hnext
      exact I.write_page hd
  | flush_all =>
    cases hnext
    exact I.flush_all
  | reopen =>
    simp only [diskMachine, DiskRun.next] at hnext
    obtain ⟨disk, hr, hcap, hlist⟩ := I.reopens_iff.mpr hok
    obtain ⟨_, hr', hheader, hpages, _⟩ := I.reopen
    rw [hr] at hr' hnext
    cases hr'
    cases hnext
    refine ⟨hheader, ?_, ?_, ?_, ?_, ?_, I.allocated_nodup, fun n hn => ?_⟩
    · rw [hcap]
      exact I.capacity
    · rw [hcap, hlist]
      exact I.free
    · rw [hlist]
      exact I.free_nodup
    · rw [hlist]
      exact I.few
    · rw [hcap]
      exact I.allocated
    · exact (hpages n hn).trans (I.pages n hn)

theorem diskInv_start (h : diskMachine.start s) : DiskInv s := by
  obtain ⟨hopen, hal, hw⟩ := h
  rw [open_short (by decide)] at hopen
  cases s with
  | mk disk allocated written =>
  simp only at hopen hal hw
  obtain rfl := Except.ok.inj (Option.some.inj hopen)
  subst hal hw
  refine ⟨⟨rfl, rfl⟩, ⟨Nat.le_refl 1, by decide⟩, ?_, List.nodup_nil, Nat.zero_le _, ?_,
    List.nodup_nil, fun n hn => ?_⟩
  · intro n hn
    cases hn
  · intro n hn
    cases hn
  · rw [pages_flush_all (Nat.zero_le _) hn]
    unfold readBytes DiskRun.page ByteFile.empty
    rw [List.map_const', List.length_range]
    rfl

/-- In every run in which files are opened again once they have a page, or while no page was
allocated, and in which the ids of 32 bits do not run out, the ids and the pages stay. -/
theorem a_disk_keeps_its_pages (h : diskMachine.Reach KeepsIds s) : DiskKept s := by
  have I : DiskInv s :=
    h.invariant (fun _ => diskInv_start) fun _ _ _ I hok hnext => I.next hok hnext
  refine ⟨?_, fun n hn => ?_, I.reopens_iff⟩
  · rcases allocate_page_cases s.disk with ⟨n, rest, hl, heq⟩ | ⟨_, heq⟩
    · rw [heq]
      obtain ⟨h0, _, hna⟩ := I.free n (by simp [hl])
      exact ⟨h0, hna⟩
    · rw [heq]
      refine ⟨?_, fun hn => ?_⟩
      · have := I.capacity.1
        show s.disk.capacity ≠ 0
        omega
      · exact absurd (I.allocated _ hn).2 (Nat.lt_irrefl _)
  · obtain ⟨h0, hlt⟩ := I.allocated n hn
    rw [read_page_eq hlt, I.pages n h0]

end

/-! ## The disk of the pool -/

/-- A page as `SlottedPage` lays it out. -/
def page_of (bytes : List UInt8) : slotted_page.PageData where
  header :=
    { next_page_id :=
        if ofLeBytes (bytes.take 4) = 0xFFFFFFFF then INVALID_PAGE_ID else some (ofLeBytes (bytes.take 4))
      slot_count := ofLeBytes ((bytes.drop 4).take 2)
      free_space_offset := ofLeBytes ((bytes.drop 6).take 2) }
  body i := bytes.getD i 0

/-- The disk that the pool works on: the ids, and what each page of the file means. -/
def DiskManager.pages (d : DiskManager) : disk_manager.DiskManager where
  capacity := d.capacity
  free_list := d.free_list.map some
  file n := page_of (readBytes d.file.bytes (n * kPAGE_SIZE) kPAGE_SIZE)

section
variable (d : DiskManager) (n : Nat)

/-- A page that was never written is a page of zeros. -/
theorem page_of_zeros : page_of (List.replicate kPAGE_SIZE 0) = slotted_page.zeroPage := by
  unfold page_of slotted_page.zeroPage
  have hbody : (fun i => (List.replicate kPAGE_SIZE (0 : UInt8)).getD i 0) = fun _ => 0 := by
    funext i
    rw [List.getD_eq_getElem?_getD, List.getElem?_replicate]
    split <;> rfl
  have hheader : ∀ a b : Nat, b ≤ 8 → ofLeBytes (((List.replicate kPAGE_SIZE 0).drop a).take b) =
      ofLeBytes (List.replicate (min b (kPAGE_SIZE - a)) 0) := by
    intro a b _
    rw [List.drop_replicate, List.take_replicate]
  have h0 := hheader 0 4 (by omega)
  have h4 := hheader 4 2 (by omega)
  have h6 := hheader 6 2 (by omega)
  rw [List.drop_zero] at h0
  rw [h0, h4, h6, hbody]
  rfl

theorem pages_allocate_page (h : d.free_list ≠ [] ∨ d.capacity + 1 < 2 ^ 32) :
    d.pages.allocate_page = (some d.allocate_page.1, d.allocate_page.2.pages) := by
  unfold disk_manager.DiskManager.allocate_page
  rcases allocate_page_cases d with ⟨m, rest, hl, heq⟩ | ⟨hl, heq⟩
  · rw [heq]
    unfold DiskManager.pages
    simp only [hl, List.map_cons]
  · rw [heq, Nat.mod_eq_of_lt (h.resolve_left (absurd hl))]
    unfold DiskManager.pages
    simp only [hl, List.map_nil]

theorem pages_deallocate_page :
    d.pages.deallocate_page (some n) = (d.deallocate_page n).map DiskManager.pages := by
  unfold disk_manager.DiskManager.deallocate_page DiskManager.deallocate_page
  have hzero : (some n : PageID) = kDISK_METADATA_PAGE_ID ↔ n = 0 := Option.some_inj
  have hlen : d.pages.free_list.length = d.free_list.length := List.length_map ..
  rw [hlen]
  by_cases h0 : n = 0
  · rw [if_pos (hzero.mpr h0), if_pos h0]
    rfl
  · rw [if_neg (mt hzero.mp h0), if_neg h0]
    split <;> rfl

theorem pages_read_page : d.pages.read_page (some n) = (d.read_page n).map page_of := by
  unfold disk_manager.DiskManager.read_page
  by_cases hn : n ≥ d.capacity
  · have hn' : n ≥ d.pages.capacity := hn
    unfold DiskManager.read_page
    rw [if_pos hn]
    simp only [if_pos hn']
    rfl
  · have hn' : ¬ n ≥ d.pages.capacity := hn
    rw [read_page_eq (by omega)]
    simp only [if_neg hn']
    rfl

/-- Writes change one page. -/
theorem pages_write_page {buffer : List UInt8} (hlen : buffer.length = kPAGE_SIZE) :
    d.pages.write_page (some n) (page_of buffer) = (d.write_page n buffer).map DiskManager.pages := by
  unfold disk_manager.DiskManager.write_page DiskManager.write_page
  by_cases hn : n ≥ d.capacity
  · have hn' : n ≥ d.pages.capacity := hn
    rw [if_pos hn]
    simp only [if_pos hn']
    rfl
  · have hn' : ¬ n ≥ d.pages.capacity := hn
    have htake : buffer.take kPAGE_SIZE = buffer := by
      rw [← hlen, List.take_length]
    have hfile : Function.update d.pages.file n (page_of buffer) = fun m => page_of (readBytes
        (d.file.pwrite (n * kPAGE_SIZE) buffer).bytes (m * kPAGE_SIZE) kPAGE_SIZE) := by
      funext m
      rw [ByteFile.bytes_pwrite]
      by_cases hmn : m = n
      · subst hmn
        have hread := readBytes_writeBytes d.file.bytes (m * kPAGE_SIZE) buffer
        rw [hlen] at hread
        rw [Function.update_self, hread]
      · rw [Function.update_of_ne hmn, readBytes_writeBytes_apart]
        · rfl
        · rw [hlen]
          exact pages_apart (Ne.symm hmn)
    have hfaults : d.pages.pwrite_fails n = false := rfl
    rw [if_neg hn, if_neg (by omega), htake]
    simp only [if_neg hn', hfaults, Bool.false_eq_true, if_false, hfile]
    rfl

end

/-- A new file, and one page that was allocated on it. -/
def new_disk : DiskRun :=
  ⟨DiskManager.flush_all ⟨ByteFile.empty, ⟨kDB_MAGIC, kDB_FORMAT_VERSION, 0, 0⟩, 1, []⟩, [],
    fun _ => none⟩

theorem new_disk_start : diskMachine.start new_disk := ⟨open_short (by decide), rfl, rfl⟩

def one_page : DiskRun :=
  ⟨new_disk.disk.allocate_page.2, new_disk.disk.allocate_page.1 :: new_disk.allocated,
    new_disk.written⟩

/-- The page is written before the file is opened again. -/
theorem a_written_page_is_kept : ∃ s buffer, diskMachine.Reach KeepsIds s ∧ s.allocated = [1] ∧
    s.page 1 = buffer ∧ buffer[0]? = some 7 ∧ DiskKept s := by
  have h1 : diskMachine.Reach KeepsIds one_page :=
    .step (e := .allocate_page) (.start new_disk_start) (Or.inr (by decide)) rfl
  obtain ⟨buffer, hlen, hfirst⟩ : ∃ buffer : List UInt8, buffer.length = kPAGE_SIZE ∧
      buffer[0]? = some 7 := ⟨7 :: List.replicate 8191 0, by
    rw [List.length_cons, List.length_replicate]
    rfl, rfl⟩
  have htake : buffer.take kPAGE_SIZE = buffer := by
    rw [← hlen, List.take_length]
  obtain ⟨disk, hwrite, hsize⟩ : ∃ disk, one_page.disk.write_page 1 buffer = .ok disk ∧
      kPAGE_SIZE ≤ disk.file.size := by
    have hcap : ¬ 1 ≥ one_page.disk.capacity := by decide
    have hne : buffer ≠ [] := by
      rintro rfl
      cases hfirst
    unfold DiskManager.write_page
    rw [if_neg hcap, if_neg (by omega), htake]
    refine ⟨_, rfl, ?_⟩
    show _ ≤ (one_page.disk.file.pwrite (1 * kPAGE_SIZE) buffer).size
    rw [ByteFile.size_pwrite, if_neg hne, hlen]
    omega
  have h2 : diskMachine.Reach KeepsIds
      ⟨disk, [1], Function.update one_page.written 1 (some buffer)⟩ := by
    refine .step (e := .write_page 1 buffer) h1 trivial ?_
    simp only [diskMachine, DiskRun.next, hwrite, htake]
    rfl
  have I2 : DiskInv _ :=
    h2.invariant (fun _ => diskInv_start) fun _ _ _ I hok hnext => I.next hok hnext
  obtain ⟨disk', hreopen, _⟩ := I2.reopen
  have h3 : diskMachine.Reach KeepsIds
      ⟨disk', [1], Function.update one_page.written 1 (some buffer)⟩ := by
    refine .step (e := .reopen) h2 (Or.inl hsize) ?_
    simp only [diskMachine, DiskRun.next, hreopen]
  refine ⟨_, buffer, h3, rfl, ?_, hfirst, a_disk_keeps_its_pages h3⟩
  show (Function.update one_page.written 1 (some buffer) 1).getD _ = _
  rw [Function.update_self]
  rfl

/-- Without a page that was written, the file is taken for a new one, and the id is given out
again. -/
theorem a_reopened_disk_gives_out_a_page_twice :
    ¬ ∀ s, diskMachine.Reach always s → s.disk.allocate_page.1 ∉ s.allocated := by
  intro hall
  have h1 : diskMachine.Reach always one_page :=
    .step (e := .allocate_page) (.start new_disk_start) trivial rfl
  obtain ⟨disk, hreopen, hone, hnil⟩ : ∃ disk, one_page.disk.reopen = some (.ok disk) ∧
      disk.capacity = 1 ∧ disk.free_list = [] := ⟨_, open_short (by decide), rfl, rfl⟩
  have h2 : diskMachine.Reach always ⟨disk, [1], one_page.written⟩ := by
    refine .step (e := .reopen) h1 trivial ?_
    simp only [diskMachine, DiskRun.next, hreopen]
    rfl
  have hfirst : disk.allocate_page.1 = 1 := by
    unfold DiskManager.allocate_page
    rw [hnil]
    exact hone
  exact hall _ h2 (by rw [hfirst]; exact List.mem_singleton_self 1)

end duck.disk_file
