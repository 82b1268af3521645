-- The buffer pool: frames that cache pages, the page table, the frames that
-- were given back, and the replacer that picks the page to evict. A call
-- returns its result or the text of its exception, and the pool after it.
import DuckDbms.DiskManager

open duck.slotted_page duck.disk_manager

namespace duck.buffer_pool

/-- A frame of the pool, with the page that it holds. -/
structure Page where
  page_id : PageID
  data : PageData
  pin_count : Nat
  is_dirty : Bool

namespace Page

def reset_memory (page_id : PageID) : Page := ⟨page_id, zeroPage, 0, false⟩

/-- The counter is a `std::uint32_t` here too: the sum is the one of the code as long as a page
has less than 2^32 pins. -/
def inc_pin_count (p : Page) : Page := { p with pin_count := p.pin_count + 1 }

/-- The counter is a `std::uint32_t`. -/
def dec_pin_count (p : Page) : Page :=
  { p with pin_count := if p.pin_count = 0 then 4294967295 else p.pin_count - 1 }

def set_dirty (p : Page) (dirty : Bool) : Page := { p with is_dirty := dirty }

end Page

/-- `free_frames_list` has the back of the vector first, `mru_pages` is the list of the
replacer, with the page that was used last at its end. -/
structure BufferPoolManager where
  disk_manager : DiskManager
  pool_capacity : Nat
  pool_size : Nat
  frames : FrameID → Page
  page_table : PageID → Option FrameID
  free_frames_list : List FrameID
  mru_pages : List PageID

/-- The pool that the constructor makes. -/
def BufferPoolManager.make (disk_manager : DiskManager) (pool_capacity : Nat) :
    BufferPoolManager :=
  ⟨disk_manager, pool_capacity, 0, fun _ => Page.reset_memory INVALID_PAGE_ID, fun _ => none, [], []⟩

namespace BufferPoolManager

variable (b : BufferPoolManager)

def set_frame (f : FrameID) (p : Page) : BufferPoolManager :=
  { b with frames := Function.update b.frames f p }

/-- A holder of a page writes its data. -/
def set_data (f : FrameID) (data : PageData) : BufferPoolManager :=
  b.set_frame f { b.frames f with data }

/-- `replacer_.remove`. -/
def remove (page_id : PageID) : BufferPoolManager :=
  { b with mru_pages := b.mru_pages.filter (· ≠ page_id) }

/-- `replacer_.record`. -/
def record (page_id : PageID) : BufferPoolManager :=
  { b with mru_pages := b.mru_pages.filter (· ≠ page_id) ++ [page_id] }

/-- `page_table_.erase`. -/
def erase (page_id : PageID) : BufferPoolManager :=
  { b with page_table := Function.update b.page_table page_id none }

/-- The test of `find_lru`: the page is cached and nobody has it pinned. -/
def evictable (page_id : PageID) : Bool :=
  match b.page_table page_id with
  | some frame_id => (b.frames frame_id).pin_count == 0
  | none => false

def find_lru : PageID := (b.mru_pages.find? b.evictable).join

def find_next_frame : Option FrameID × BufferPoolManager :=
  match b.free_frames_list with
  | frame_id :: rest => (some frame_id, { b with free_frames_list := rest })
  | [] =>
    if b.pool_size < b.pool_capacity then
      (some b.pool_size, { b with pool_size := b.pool_size + 1 })
    else if b.find_lru ≠ INVALID_PAGE_ID then (b.page_table b.find_lru, b)
    else (none, b)

def flush_page (page : Page) : Except String BufferPoolManager :=
  (b.disk_manager.write_page page.page_id page.data).map fun disk_manager =>
    { b with disk_manager }

def find_cached_page (page_id : PageID) : Option FrameID × BufferPoolManager :=
  match b.page_table page_id with
  | some frame_id =>
    (some frame_id, (b.set_frame frame_id (b.frames frame_id).inc_pin_count).record page_id)
  | none => (none, b)

/-- The part of `swap_page` that takes the old page out of its frame. -/
def evict (frame_id : FrameID) : Except String Unit × BufferPoolManager :=
  let page := b.frames frame_id
  let b := if page.page_id ≠ INVALID_PAGE_ID then (b.erase page.page_id).remove page.page_id else b
  if page.is_dirty then
    match b.flush_page page with
    | .error e => (.error e, b)
    | .ok b => (.ok (), b)
  else (.ok (), b)

/-- The part of `swap_page` that puts the new page, still empty, into the frame. -/
def load (frame_id : FrameID) (page_id : PageID) : BufferPoolManager :=
  ({ b with page_table := Function.update b.page_table page_id (some frame_id) }.set_frame frame_id
    (Page.reset_memory page_id).inc_pin_count).record page_id

def swap_page (page_id : PageID) (read_from_disk : Bool) :
    Except String (Option FrameID) × BufferPoolManager :=
  match b.find_next_frame with
  | (none, b) => (.ok none, b)
  | (some frame_id, b) =>
    match b.evict frame_id with
    | (.error e, b) => (.error e, b)
    | (.ok (), b) =>
      let b := b.load frame_id page_id
      if read_from_disk then
        match b.disk_manager.read_page page_id with
        | .error e => (.error e, b)
        | .ok data => (.ok (some frame_id), b.set_data frame_id data)
      else (.ok (some frame_id), b)

/-- `disk_manager_.allocate_page`, the first step of `new_page`. -/
def allocate_page : PageID × BufferPoolManager :=
  (b.disk_manager.allocate_page.1, { b with disk_manager := b.disk_manager.allocate_page.2 })

def new_page : Except String (Option FrameID) × BufferPoolManager :=
  b.allocate_page.2.swap_page b.allocate_page.1 false

def fetch_page (page_id : PageID) : Except String (Option FrameID) × BufferPoolManager :=
  match b.find_cached_page page_id with
  | (some page, b) => (.ok (some page), b)
  | (none, b) => b.swap_page page_id true

/-- The part of `delete_page` that takes the page out of its frame. -/
def drop_frame (page_id : PageID) (frame_id : FrameID) : BufferPoolManager :=
  let b := ((b.erase page_id).remove page_id).set_frame frame_id
    (Page.reset_memory INVALID_PAGE_ID)
  { b with free_frames_list := frame_id :: b.free_frames_list }

/-- The end of `delete_page`. -/
def deallocate (page_id : PageID) : Except String Bool × BufferPoolManager :=
  match b.disk_manager.deallocate_page page_id with
  | .error e => (.error e, b)
  | .ok disk_manager => (.ok true, { b with disk_manager })

def delete_page (page_id : PageID) : Except String Bool × BufferPoolManager :=
  match b.page_table page_id with
  | some frame_id =>
    if (b.frames frame_id).pin_count > 0 then (.ok false, b)
    else (b.drop_frame page_id frame_id).deallocate page_id
  | none => b.deallocate page_id

def unpin_page (page_id : PageID) (dirty : Bool) : BufferPoolManager :=
  match b.page_table page_id with
  | some frame_id =>
    let page := b.frames frame_id
    let page := if dirty then page.set_dirty true else page
    b.set_frame frame_id page.dec_pin_count
  | none => b

/-- The loop of `flush_all`, over the frames that are left. -/
def flush_frames : List FrameID → BufferPoolManager → Except String Unit × BufferPoolManager
  | [], b => (.ok (), b)
  | id :: rest, b =>
    if (b.frames id).is_dirty then
      match b.flush_page (b.frames id) with
      | .error e => (.error e, b)
      | .ok b => flush_frames rest b
    else flush_frames rest b

/-- The flags stay as they are. -/
def flush_all : Except String Unit × BufferPoolManager := flush_frames (List.range b.pool_size) b

end BufferPoolManager

end duck.buffer_pool
