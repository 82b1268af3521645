-- What the disk manager makes of a file that it has not written: which of them
-- it refuses, and which of them it overwrites or reads past its buffer.
import DuckDbms.DiskFileLaws

open byte_mem byte_file layout

namespace duck.disk_file

/-! ## The constructor, up to its checks -/

namespace DiskManager

/-- The disk manager before the last two checks of its constructor. -/
def load (allocates : Nat → Bool) (file : ByteFile) : Option (Except String DiskManager) :=
  let d : DiskManager := ⟨file, ⟨kDB_MAGIC, kDB_FORMAT_VERSION, 0, 0⟩, 0, []⟩
  if file.size / kPAGE_SIZE < 1 then some (.ok d.allocate_page.2.flush_all)
  else ({ d with capacity := 1 } : DiskManager).init_header allocates

theorem open_eq (allocates : Nat → Bool) (file : ByteFile) :
    open_with allocates file = (load allocates file).map fun r => r.bind check_header := by
  unfold open_with load
  split <;> rfl

end DiskManager

/-- The file after a constructor that threw. A destructor does not run then, and a step that throws
has written nothing. -/
def left_behind (allocates : Nat → Bool) (file : ByteFile) : ByteFile :=
  match DiskManager.load allocates file with
  | some (.ok d) => d.file
  | _ => file

/-! ## Foreign files -/

/-- The file begins with the magic number and the version. -/
def HasHeader (file : ByteFile) : Prop :=
  file.pread 0 16 = leBytes 8 kDB_MAGIC ++ leBytes 8 kDB_FORMAT_VERSION

/-- What the file has where a header has the size of its free list. -/
def free_list_size (file : ByteFile) : Nat := ofLeBytes (file.pread 24 8)

/-- The constructor throws, without a read past its buffer, and the file is as before. -/
def Refused (allocates : Nat → Bool) (file : ByteFile) : Prop :=
  (∃ e, DiskManager.open_with allocates file = some (.error e)) ∧ left_behind allocates file = file

section
variable {allocates : Nat → Bool} {file : ByteFile}

theorem pread_page (h : kPAGE_SIZE ≤ file.size) {k n : Nat} (hk : k + n ≤ kPAGE_SIZE) :
    file.pread k n = ((readBytes file.bytes 0 kPAGE_SIZE).drop k).take n := by
  unfold ByteFile.pread
  rw [drop_readBytes, take_readBytes _ _ (by omega), Nat.zero_add, Nat.min_eq_left (by omega)]

/-- The header on the first page of a file. -/
theorem of_bytes_page (h : kPAGE_SIZE ≤ file.size) :
    DiskHeader.of_bytes (readBytes file.bytes 0 kPAGE_SIZE) =
      ⟨ofLeBytes (file.pread 0 8), ofLeBytes (file.pread 8 8), ofLeBytes (file.pread 16 8),
        free_list_size file⟩ := by
  unfold DiskHeader.of_bytes free_list_size
  rw [pread_page h (by decide), pread_page h (by decide), pread_page h (by decide),
    pread_page h (by decide), List.drop_zero]

theorem ofLeBytes_eq_iff {bs : List UInt8} {n : Nat} (hlen : bs.length = 8) (hn : n < 256 ^ 8) :
    ofLeBytes bs = n ↔ bs = leBytes 8 n := by
  constructor
  · rintro rfl
    rw [← hlen, leBytes_ofLeBytes]
  · rintro rfl
    exact ofLeBytes_leBytes 8 n hn

theorem hasHeader_iff (h : kPAGE_SIZE ≤ file.size) :
    HasHeader file ↔
      ofLeBytes (file.pread 0 8) = kDB_MAGIC ∧ ofLeBytes (file.pread 8 8) = kDB_FORMAT_VERSION := by
  have hsize : 8192 ≤ file.size := h
  have hlen : ∀ k, k ≤ 24 → (file.pread k 8).length = 8 := by
    intro k hk
    rw [ByteFile.length_pread]
    omega
  have hparts : file.pread 0 16 = file.pread 0 8 ++ file.pread 8 8 := by
    rw [pread_page h (by decide), pread_page h (by decide), pread_page h (by decide), List.drop_zero,
      ← List.take_add]
  unfold HasHeader
  rw [ofLeBytes_eq_iff (hlen 0 (by omega)) (by decide), ofLeBytes_eq_iff (hlen 8 (by omega)) (by decide),
    hparts]
  constructor
  · intro heq
    exact List.append_inj heq (by rw [hlen 0 (by omega), length_leBytes])
  · rintro ⟨h1, h2⟩
    rw [h1, h2]

/-- A header that is not that of a database is found out by the last checks. -/
theorem check_header_foreign {d : DiskManager}
    (h : ¬ (d.disk_header.magic = kDB_MAGIC ∧ d.disk_header.version = kDB_FORMAT_VERSION)) :
    ∃ e, d.check_header = .error e := by
  unfold DiskManager.check_header
  by_cases hm : d.disk_header.magic = kDB_MAGIC
  · rw [if_neg (not_not.mpr hm), if_pos fun hv => h ⟨hm, hv⟩]
    exact ⟨_, rfl⟩
  · rw [if_pos hm]
    exact ⟨_, rfl⟩

/-- A file that is shorter than a page becomes a new one. -/
theorem open_with_short (h : file.size < kPAGE_SIZE) :
    DiskManager.open_with allocates file = DiskManager.open_ file := by
  unfold DiskManager.open_ DiskManager.open_with
  rw [Nat.div_eq_of_lt h, if_pos Nat.one_pos, if_pos Nat.one_pos]

theorem not_refused_short (h : file.size < kPAGE_SIZE) : ¬ Refused allocates file := by
  rintro ⟨⟨e, he⟩, -⟩
  rw [open_with_short h, open_short h] at he
  cases he

/-- From a file with a page the header is read first, and the list of free ids with it. -/
theorem load_page (h : kPAGE_SIZE ≤ file.size) :
    DiskManager.load allocates file =
      if free_list_size file > max_size then some (.error "vector::_M_default_append")
      else if !allocates (free_list_size file) then some (.error "std::bad_alloc")
      else if sizeofDiskHeader + free_list_size file * sizeofPageID > kPAGE_SIZE then none
      else some (.ok ⟨file, ⟨ofLeBytes (file.pread 0 8), ofLeBytes (file.pread 8 8),
          ofLeBytes (file.pread 16 8), free_list_size file⟩, ofLeBytes (file.pread 16 8) % 2 ^ 32,
        (ids_of_bytes (free_list_size file)
          ((readBytes file.bytes 0 kPAGE_SIZE).drop sizeofDiskHeader)).reverse⟩) := by
  have hdiv : ¬ file.size / kPAGE_SIZE < 1 := by
    have := (Nat.one_le_div_iff (by decide)).mpr h
    omega
  unfold DiskManager.load
  simp only [if_neg hdiv]
  unfold DiskManager.init_header
  rw [read_page_eq Nat.one_pos]
  simp only [Nat.zero_mul, of_bytes_page h]

/-- Where there is memory for its list, a file is opened as where there is memory for every list. -/
theorem open_with_page (h : kPAGE_SIZE ≤ file.size)
    (hmemory : allocates (free_list_size file) = true) :
    DiskManager.open_with allocates file = DiskManager.open_ file := by
  unfold DiskManager.open_
  rw [DiskManager.open_eq, DiskManager.open_eq, load_page h, load_page h, hmemory]

/-- The ids that fit behind the header on its page. -/
theorem fits_iff (n : Nat) : ¬ sizeofDiskHeader + n * sizeofPageID > kPAGE_SIZE ↔ n ≤ 2040 := by
  unfold sizeofDiskHeader sizeofPageID kPAGE_SIZE
  omega

theorem refused_page_iff (h : kPAGE_SIZE ≤ file.size) (hforeign : ¬ HasHeader file) :
    Refused allocates file ↔ free_list_size file ≤ 2040 ∨ max_size < free_list_size file ∨
      allocates (free_list_size file) = false := by
  rw [hasHeader_iff h] at hforeign
  unfold Refused left_behind
  rw [DiskManager.open_eq, load_page h]
  by_cases hbig : free_list_size file > max_size
  · rw [if_pos hbig]
    exact ⟨fun _ => .inr (.inl hbig), fun _ => ⟨⟨_, rfl⟩, rfl⟩⟩
  rw [if_neg hbig]
  by_cases hmemory : allocates (free_list_size file) = true
  swap
  · -- the vector throws before anything is copied
    rw [Bool.not_eq_true] at hmemory
    rw [if_pos (by rw [hmemory]; rfl)]
    exact ⟨fun _ => .inr (.inr hmemory), fun _ => ⟨⟨_, rfl⟩, rfl⟩⟩
  rw [if_neg (by rw [hmemory]; decide)]
  by_cases hfits : free_list_size file ≤ 2040
  · rw [if_neg ((fits_iff _).mpr hfits)]
    obtain ⟨e, he⟩ := check_header_foreign (d := ⟨file, ⟨_, _, _, _⟩, _, _⟩) hforeign
    exact ⟨fun _ => .inl hfits, fun _ => ⟨⟨e, congrArg some he⟩, rfl⟩⟩
  · rw [if_pos (not_not.mp (mt (fits_iff _).mp hfits))]
    refine ⟨?_, ?_⟩
    · rintro ⟨⟨e, he⟩, -⟩
      cases he
    · rintro (hle | hlt | hno)
      · exact absurd hle hfits
      · exact absurd hlt hbig
      · rw [hmemory] at hno
        cases hno

/-- A file without the header is refused, and left as it was, if and only if it has a page and the
list of free ids that its bytes announce fits on that page, is longer than any vector, or is longer
than there is memory for. -/
theorem a_foreign_file_is_refused_when_its_list_fits (hforeign : ¬ HasHeader file) :
    Refused allocates file ↔ kPAGE_SIZE ≤ file.size ∧
      (free_list_size file ≤ 2040 ∨ max_size < free_list_size file ∨
        allocates (free_list_size file) = false) := by
  by_cases h : kPAGE_SIZE ≤ file.size
  · rw [refused_page_iff h hforeign]
    exact ⟨fun hr => ⟨h, hr⟩, fun hr => hr.2⟩
  · exact ⟨fun hr => absurd hr (not_refused_short (Nat.lt_of_not_le h)), fun hr => absurd hr.1 h⟩

end

/-- A page of zeros. -/
def blank_page : ByteFile := ⟨8192, fun _ => 0, fun _ _ => rfl⟩

theorem a_blank_page_is_refused : Refused (fun _ => true) blank_page := by
  refine (a_foreign_file_is_refused_when_its_list_fits ?_).mpr ⟨Nat.le_refl _, .inl ?_⟩
  · unfold HasHeader
    decide +kernel
  · decide +kernel

/-- The five bytes of a text. -/
def text_file : ByteFile := ByteFile.empty.pwrite 0 [104, 101, 108, 108, 111]

/-- A page of zeros, but for the size of a free list that has one id too many for the page. -/
def long_list : ByteFile := blank_page.pwrite 24 [249, 7]

/-- A short text is taken for a new file and overwritten by a header. With a list of 2041 ids the
constructor reads past its buffer. -/
theorem a_text_file_is_overwritten :
    (¬ HasHeader text_file ∧ text_file.size = 5 ∧ (∃ d, DiskManager.open_ text_file = some (.ok d)) ∧
      (left_behind (fun _ => true) text_file).pread 0 5 = [75, 67, 85, 68, 0] ∧
      ¬ Refused (fun _ => true) text_file) ∧
    (¬ HasHeader long_list ∧ DiskManager.open_ long_list = none) := by
  have hshort : text_file.size < kPAGE_SIZE := by decide +kernel
  refine ⟨⟨?_, rfl, ⟨_, open_short hshort⟩, ?_, not_refused_short hshort⟩, ?_, ?_⟩
  · unfold HasHeader
    decide +kernel
  · decide +kernel
  · unfold HasHeader
    decide +kernel
  · have hsize : free_list_size long_list = 2041 := by decide +kernel
    unfold DiskManager.open_
    rw [DiskManager.open_eq, load_page (by decide +kernel), hsize, if_neg (by decide),
      if_neg (by decide), if_pos (by decide)]
    rfl

end duck.disk_file
