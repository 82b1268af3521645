-- The disk manager: the file that stores the pages, the capacity, and the ids
-- that are free to be given out again.
import DuckDbms.SlottedPage

open duck.slotted_page

namespace duck.disk_manager

/-- `free_list` has the back of the vector first. `file` gives what `pread` finds, with
zeros past the end of the file. `pread_fails` and `pwrite_fails` are the system's part:
the pages whose next read or write comes back incomplete. -/
structure DiskManager where
  capacity : Nat
  free_list : List PageID
  file : Nat → PageData
  pread_fails : Nat → Bool := fun _ => false
  pwrite_fails : Nat → Bool := fun _ => false

/-- `std::to_string(page_id)`. -/
def to_string : PageID → String
  | some n => toString n
  | none => "4294967295"

namespace DiskManager

/-- `next_page_id_` is a `std::uint32_t`: a new id is the one of the code as long as there are
less than 2^32 pages. -/
def allocate_page (d : DiskManager) : PageID × DiskManager :=
  match d.free_list with
  | page_id :: rest => (page_id, { d with free_list := rest })
  | [] => (some d.capacity, { d with capacity := d.capacity + 1 })

def deallocate_page (d : DiskManager) (page_id : PageID) : Except String DiskManager :=
  if page_id = kDISK_METADATA_PAGE_ID then
    .error "DiskManager::deallocate_page: deallocating disk meta page is not allowed"
  -- past this size the page is never given out again
  else if d.free_list.length > 1024 then .ok d
  else .ok { d with free_list := page_id :: d.free_list }

/-- `INVALID_PAGE_ID` is above every capacity. An incomplete write leaves the page as it was. -/
def write_page (d : DiskManager) (page_id : PageID) (buffer : PageData) :
    Except String DiskManager :=
  match page_id with
  | none => .error ("DiskManager: trying to write into not allocated page: " ++ to_string page_id)
  | some n =>
    if n ≥ d.capacity then
      .error ("DiskManager: trying to write into not allocated page: " ++ to_string page_id)
    else if d.pwrite_fails n then
      .error ("DiskManager: incomplete write for page: " ++ to_string page_id)
    else .ok { d with file := Function.update d.file n buffer }

def read_page (d : DiskManager) (page_id : PageID) : Except String PageData :=
  match page_id with
  | none => .error ("DiskManager: trying to read not allocated page: " ++ to_string page_id)
  | some n =>
    if n ≥ d.capacity then
      .error ("DiskManager: trying to read not allocated page: " ++ to_string page_id)
    else if d.pread_fails n then
      .error ("DiskManager: incomplete read for page: " ++ to_string page_id)
    else .ok (d.file n)

end DiskManager

end duck.disk_manager
