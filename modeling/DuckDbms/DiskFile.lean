-- The file of the disk manager, byte for byte: the header and the free ids on
-- its first page, the pages behind it, and what is found when it is opened again.
import DuckDbms.DiskManager
import DuckDbms.Lib.ByteFile
import DuckDbms.Lib.Layout
import DuckDbms.Lib.Machine

open machine byte_mem byte_file layout

namespace duck.disk_file

/-! ## The header -/

def kDB_MAGIC : Nat := 0x4455434B

def kDB_FORMAT_VERSION : Nat := 1

/-- Four numbers of 64 bits. -/
structure DiskHeader where
  magic : Nat
  version : Nat
  capacity : Nat
  free_list_size : Nat

def sizeofDiskHeader : Nat := 32

def sizeofPageID : Nat := 4

/-- `std::vector<PageID>::max_size`. -/
def max_size : Nat := 2 ^ 61 - 1

def DiskHeader.to_bytes (h : DiskHeader) : List UInt8 :=
  leBytes 8 h.magic ++ leBytes 8 h.version ++ leBytes 8 h.capacity ++ leBytes 8 h.free_list_size

/-- The header in the first bytes of a page. -/
def DiskHeader.of_bytes (buffer : List UInt8) : DiskHeader where
  magic := ofLeBytes (buffer.take 8)
  version := ofLeBytes ((buffer.drop 8).take 8)
  capacity := ofLeBytes ((buffer.drop 16).take 8)
  free_list_size := ofLeBytes ((buffer.drop 24).take 8)

/-- The bytes of a vector of page ids. -/
def ids_to_bytes (ids : List Nat) : List UInt8 := ids.flatMap (leBytes sizeofPageID)

def ids_of_bytes : Nat → List UInt8 → List Nat
  | 0, _ => []
  | n + 1, bytes => ofLeBytes (bytes.take sizeofPageID) :: ids_of_bytes n (bytes.drop sizeofPageID)

/-! ## The disk manager -/

/-- A page id is its number, which has 32 bits. `free_list` has the back of the vector first. -/
structure DiskManager where
  file : ByteFile
  disk_header : DiskHeader
  capacity : Nat
  free_list : List Nat

namespace DiskManager

variable (d : DiskManager)

/-- The capacity is a page id, which starts again after the last one. -/
def allocate_page : Nat × DiskManager :=
  match d.free_list with
  | page_id :: rest => (page_id, { d with free_list := rest })
  | [] => (d.capacity, { d with capacity := (d.capacity + 1) % 2 ^ 32 })

def deallocate_page (page_id : Nat) : Except String DiskManager :=
  if page_id = 0 then
    .error "DiskManager::deallocate_page: deallocating disk meta page is not allowed"
  -- past this size the page is never given out again
  else if d.free_list.length > 1024 then .ok d
  else .ok { d with free_list := page_id :: d.free_list }

def flush_all : DiskManager :=
  let disk_header := { d.disk_header with
    capacity := d.capacity
    free_list_size := d.free_list.length }
  { d with
    disk_header
    file := (d.file.pwrite 0 disk_header.to_bytes).pwrite sizeofDiskHeader
      (ids_to_bytes d.free_list.reverse) }

def write_page (page_id : Nat) (buffer : List UInt8) : Except String DiskManager :=
  if page_id ≥ d.capacity then
    .error s!"DiskManager: trying to write into not allocated page: {page_id}"
  else if buffer.length < kPAGE_SIZE then
    .error s!"DiskManager: write buffer is smaller than page: {page_id}; buffer size: {buffer.length}"
  else .ok { d with file := d.file.pwrite (page_id * kPAGE_SIZE) (buffer.take kPAGE_SIZE) }

/-- The bytes that the buffer of a page has after the call. -/
def read_page (page_id : Nat) : Except String (List UInt8) :=
  if page_id ≥ d.capacity then
    .error s!"DiskManager: trying to read not allocated page: {page_id}"
  else
    let found := d.file.pread (page_id * kPAGE_SIZE) kPAGE_SIZE
    .ok (found ++ List.replicate (kPAGE_SIZE - found.length) 0)

/-- There is memory for a vector of the page ids of the header where `allocates` says so. `none`
when the copy of the free list goes past the end of the buffer. -/
def init_header (allocates : Nat → Bool) : Option (Except String DiskManager) :=
  match d.read_page 0 with
  | .error e => some (.error e)
  | .ok buffer =>
    let disk_header := DiskHeader.of_bytes buffer
    if disk_header.free_list_size > max_size then some (.error "vector::_M_default_append")
    else if !allocates disk_header.free_list_size then some (.error "std::bad_alloc")
    else if sizeofDiskHeader + disk_header.free_list_size * sizeofPageID > kPAGE_SIZE then none
    else some (.ok { d with
      disk_header
      capacity := disk_header.capacity % 2 ^ 32
      free_list := (ids_of_bytes disk_header.free_list_size (buffer.drop sizeofDiskHeader)).reverse })

/-- The last checks of the constructor. -/
def check_header : Except String DiskManager :=
  if d.disk_header.magic ≠ kDB_MAGIC then
    .error "DiskManager::DiskManager: Database file is not recognized by DUCKDB."
  else if d.disk_header.version ≠ kDB_FORMAT_VERSION then
    .error "DiskManager::DiskManager: Database file version not supported."
  else .ok d

/-- The constructor. -/
def open_with (allocates : Nat → Bool) (file : ByteFile) : Option (Except String DiskManager) :=
  let d : DiskManager := ⟨file, ⟨kDB_MAGIC, kDB_FORMAT_VERSION, 0, 0⟩, 0, []⟩
  if file.size / kPAGE_SIZE < 1 then some d.allocate_page.2.flush_all.check_header
  else (({ d with capacity := 1 } : DiskManager).init_header allocates).map fun r =>
    r.bind check_header

/-- The constructor, where there is memory for every vector that it asks for. -/
def open_ (file : ByteFile) : Option (Except String DiskManager) := open_with (fun _ => true) file

/-- The destructor leaves the file. -/
def close : ByteFile := d.flush_all.file

/-- The file is closed, and opened again. -/
def reopen : Option (Except String DiskManager) := open_ d.close

end DiskManager

/-! ## The users of a disk -/

/-- A disk, with the pages that its users have allocated and the last bytes that they have written
to each page. -/
structure DiskRun where
  disk : DiskManager
  allocated : List Nat
  written : Nat → Option (List UInt8)

inductive DiskEvent
  | allocate_page
  | deallocate_page (page_id : Nat)
  | write_page (page_id : Nat) (buffer : List UInt8)
  | flush_all
  | reopen

namespace DiskRun

variable (s : DiskRun)

/-- A call that throws changes nothing. Users give back what they have allocated. -/
def next : DiskEvent → Option DiskRun
  | .allocate_page => some ⟨s.disk.allocate_page.2, s.disk.allocate_page.1 :: s.allocated, s.written⟩
  | .deallocate_page page_id =>
    if page_id ∈ s.allocated then
      match s.disk.deallocate_page page_id with
      | .error _ => some s
      | .ok disk => some ⟨disk, s.allocated.erase page_id, s.written⟩
    else none
  | .write_page page_id buffer =>
    match s.disk.write_page page_id buffer with
    | .error _ => some s
    | .ok disk => some ⟨disk, s.allocated,
        Function.update s.written page_id (some (buffer.take kPAGE_SIZE))⟩
  | .flush_all => some { s with disk := s.disk.flush_all }
  | .reopen =>
    match s.disk.reopen with
    | some (.ok disk) => some { s with disk }
    | _ => none

/-- What a page has to read. -/
def page (n : Nat) : List UInt8 := (s.written n).getD (List.replicate kPAGE_SIZE 0)

end DiskRun

def diskMachine : Machine DiskRun DiskEvent where
  start s := DiskManager.open_ ByteFile.empty = some (.ok s.disk) ∧ s.allocated = [] ∧
    s.written = fun _ => none
  next := DiskRun.next

/-- A file that is opened again has a whole page, or no page was allocated, and the last id of 32
bits is not given out. -/
def KeepsIds (s : DiskRun) : DiskEvent → Prop
  | .allocate_page => s.disk.free_list ≠ [] ∨ s.disk.capacity + 1 < 2 ^ 32
  | .reopen => kPAGE_SIZE ≤ s.disk.file.size ∨ s.disk.capacity = 1
  | _ => True

/-- The next page is a new one, each allocated page reads what was last written to it, and the
ids are the same once the file is opened again, if it is one that keeps them. -/
structure DiskKept (s : DiskRun) : Prop where
  fresh : s.disk.allocate_page.1 ≠ 0 ∧ s.disk.allocate_page.1 ∉ s.allocated
  reads : ∀ n ∈ s.allocated, s.disk.read_page n = .ok (s.page n)
  reopens : (∃ disk, s.disk.reopen = some (.ok disk) ∧ disk.capacity = s.disk.capacity ∧
    disk.free_list = s.disk.free_list) ↔ KeepsIds s .reopen

end duck.disk_file
