-- The table heap: a chain of slotted pages in the buffer pool. A call returns
-- its result or the text of its exception, and the pool after it.
import DuckDbms.BufferPool

open duck.slotted_page duck.buffer_pool

namespace duck.table_heap

/-! ## Calls that visit one page -/

/-- `fetch_page`, a section under the page latch while the page is pinned, and the unpin of
`~PinnedPage`. The section gives its result, the data, and whether it marked the page dirty. -/
def with_page {α : Type} (b : BufferPoolManager) (page_id : PageID)
    (section_ : Page → α × PageData × Bool) : Except String (Option α) × BufferPoolManager :=
  match b.fetch_page page_id with
  | (.error e, b) => (.error e, b)
  | (.ok none, b) => (.ok none, b)
  | (.ok (some page), b) =>
    let r := section_ (b.frames page)
    let b := b.set_data page r.2.1
    (.ok (some r.1), b.unpin_page (b.frames page).page_id r.2.2)

def get_tuple (b : BufferPoolManager) (rid : RID) :
    Except String (Option (List UInt8)) × BufferPoolManager :=
  let r := with_page b rid.page_id fun page =>
    let view := slotted_page.get_tuple page.data rid.slot_num
    (if view.isEmpty then none else some view, page.data, false)
  (r.1.map Option.join, r.2)

def delete_tuple (b : BufferPoolManager) (rid : RID) : Except String Bool × BufferPoolManager :=
  let r := with_page b rid.page_id fun page =>
    let deleted := slotted_page.delete_tuple page.data rid.slot_num
    (deleted.1, deleted.2, deleted.1)
  (r.1.map fun deleted => deleted.getD false, r.2)

/-- `none` when an assertion of `SlottedPage::restore_tuple` fails. The page is not marked
dirty. -/
def restore_tuple (b : BufferPoolManager) (rid : RID) (tuple : List UInt8) :
    Option (Except String Unit × BufferPoolManager) :=
  let r := with_page b rid.page_id fun page =>
    let restored := slotted_page.restore_tuple page.data rid.slot_num tuple
    (restored.isSome, restored.getD page.data, false)
  match r.1 with
  | .error e => some (.error e, r.2)
  | .ok (some false) => none
  | .ok _ => some (.ok (), r.2)

/-! ## Inserts -/

/-- What `insert_tuple` does once it has let go of a page. -/
inductive After
  | return_ (result : Except String (Option RID))
  | continue_ (page_id : PageID)

/-- Where a call of `insert_tuple` stands. Each place is left by one call of the buffer pool
or by one section under a page latch. -/
inductive Pc
  /-- `bpm_.fetch_page(page_id)` -/
  | fetch
  /-- the section from `page->latch()` on, up to the return or to `lock.unlock()` -/
  | try_page (page : FrameID)
  /-- `bpm_.new_page()` -/
  | create (page : FrameID)
  /-- the section under `next_page->latch()` -/
  | init_new (page next_page : FrameID)
  /-- the unpin of `pinned_new` -/
  | unpin_new (page next_page : FrameID)
  /-- the section from `lock.lock()` on -/
  | relink (page next_page : FrameID)
  /-- `next_page->page_id()`, the argument of `delete_page` -/
  | read_new (page next_page : FrameID) (next_id : PageID)
  /-- `bpm_.delete_page` -/
  | delete_new (page : FrameID) (page_id next_id : PageID)
  /-- the unpin of `pinned` -/
  | leave (page : FrameID) (dirty : Bool) (after : After)
  | done (result : Except String (Option RID))

/-- A call of `insert_tuple`, with its variables. The last three fields are a record of what
it did: the pages that it got from `new_page`, linked, and gave back. -/
structure InsertCall where
  first_page_id : PageID
  tuple_data : List UInt8
  page_id : PageID
  created_new_page : Bool
  pc : Pc
  obtained : List PageID
  linked : List PageID
  given_back : List PageID

def begin_insert (first_page_id : PageID) (tuple_data : List UInt8) : InsertCall where
  first_page_id
  tuple_data
  page_id := first_page_id
  created_new_page := false
  pc :=
    if tuple_data.length > kPAGE_SIZE - sizeofPageHeader - sizeofSlot then
      .done (.error "TableHeap::insert_tuple: tuple exceeds maximum page capacity")
    else .fetch
  obtained := []
  linked := []
  given_back := []

/-- The two tries of `insert_tuple` on a page, before and after its compaction. -/
def try_insert (d : PageData) (tuple_data : List UInt8) : Option Nat × PageData :=
  match slotted_page.insert_tuple d tuple_data none with
  | (some slot, d) => (some slot, d)
  | (none, d) =>
    if is_compacted d then (none, d)
    else slotted_page.insert_tuple (compact d) tuple_data none

/-- One step of a call that is not done. -/
def insert_step (b : BufferPoolManager) (c : InsertCall) : Option (BufferPoolManager × InsertCall) :=
  match c.pc with
  | .fetch =>
    match b.fetch_page c.page_id with
    | (.error e, b) => some (b, { c with pc := .done (.error e) })
    | (.ok none, b) => some (b, { c with pc := .done (.ok none) })
    | (.ok (some page), b) => some (b, { c with pc := .try_page page })
  | .try_page page =>
    match try_insert (b.frames page).data c.tuple_data with
    | (some slot, d) =>
      some (b.set_data page d,
        { c with pc := .leave page true (.return_ (.ok (some ⟨(b.frames page).page_id, slot⟩))) })
    | (none, d) =>
      if next_page d = INVALID_PAGE_ID then
        if c.created_new_page then
          some (b.set_data page d, { c with pc := .leave page false (.return_ (.error
            ("TableHeap::insert_tuple: tuple failed to fit even on a freshly created page — " ++
              "this indicates a bug in SlottedPage size accounting"))) })
        else some (b.set_data page d, { c with pc := .create page })
      else some (b.set_data page d, { c with pc := .leave page false (.continue_ (next_page d)) })
  | .create page =>
    match b.new_page with
    | (.error e, b) => some (b, { c with pc := .leave page false (.return_ (.error e)) })
    | (.ok none, b) =>
      some (b, { c with
        created_new_page := true
        pc := .leave page false (.return_ (.error "TableHeap: failed to create next page")) })
    | (.ok (some next_page), b) =>
      some (b, { c with
        created_new_page := true
        pc := .init_new page next_page
        obtained := (b.frames next_page).page_id :: c.obtained })
  | .init_new page next_page =>
    some (b.set_data next_page (init (b.frames next_page).data),
      { c with pc := .unpin_new page next_page })
  | .unpin_new page next_page =>
    some (b.unpin_page (b.frames next_page).page_id true, { c with pc := .relink page next_page })
  | .relink page next_page =>
    if slotted_page.next_page (b.frames page).data = INVALID_PAGE_ID then
      -- `page_id = slotted.next_page()` reads what was just written
      some (b.set_data page (set_next_page (b.frames page).data (b.frames next_page).page_id),
        { c with
          pc := .leave page true (.continue_ (b.frames next_page).page_id)
          linked := (b.frames next_page).page_id :: c.linked })
    else some (b, { c with
      pc := .read_new page next_page (slotted_page.next_page (b.frames page).data) })
  | .read_new page next_page next_id =>
    some (b, { c with pc := .delete_new page (b.frames next_page).page_id next_id })
  | .delete_new page page_id next_id =>
    match b.delete_page page_id with
    | (.error e, b) => some (b, { c with pc := .leave page false (.return_ (.error e)) })
    | (.ok _, b) =>
      some (b, { c with
        pc := .leave page false (.continue_ next_id)
        given_back := page_id :: c.given_back })
  | .leave page dirty after =>
    let b' := b.unpin_page (b.frames page).page_id dirty
    match after with
    | .return_ result => some (b', { c with pc := .done result })
    | .continue_ page_id => some (b', { c with page_id, pc := .fetch })
  | .done _ => none

/-- The steps of a call that runs alone, to its end or for as long as the fuel lasts. -/
def run_insert : Nat → BufferPoolManager → InsertCall →
    Option (Except String (Option RID) × BufferPoolManager)
  | 0, _, _ => none
  | fuel + 1, b, c =>
    match c.pc with
    | .done result => some (result, b)
    | _ => (insert_step b c).bind fun s => run_insert fuel s.1 s.2

/-- The loop visits a page of the chain once, and at most one new page: eight steps for each
page of the disk are more than it takes. -/
def insert_tuple (b : BufferPoolManager) (first_page_id : PageID) (tuple_data : List UInt8) :
    Option (Except String (Option RID) × BufferPoolManager) :=
  run_insert (8 * (b.disk_manager.capacity + 2)) b (begin_insert first_page_id tuple_data)

/-! ## Updates -/

inductive Updated
  | not_found
  | placed (rid : RID)
  /-- the tuple was deleted, and its page has no room for the new one -/
  | no_room

def update_section (rid : RID) (tuple : List UInt8) (page : Page) : Updated × PageData × Bool :=
  if ¬ has_slot page.data rid.slot_num then (.not_found, page.data, false)
  else
    match try_update_in_place page.data rid tuple with
    | (true, d) => (.placed rid, d, true)
    | (false, d) =>
      match slotted_page.delete_tuple d rid.slot_num with
      | (false, d) => (.not_found, d, false)
      | (true, d) =>
        let d := if is_compacted d then d else compact d
        match slotted_page.insert_tuple d tuple (some rid.slot_num) with
        | (some slot, d) => (.placed ⟨page.page_id, slot⟩, d, true)
        | (none, d) => (.no_room, d, true)

def update_tuple (b : BufferPoolManager) (first_page_id : PageID) (rid : RID)
    (tuple : List UInt8) : Option (Except String (Option RID) × BufferPoolManager) :=
  match with_page b rid.page_id (update_section rid tuple) with
  | (.error e, b) => some (.error e, b)
  | (.ok none, b) => some (.ok none, b)
  | (.ok (some .not_found), b) => some (.ok none, b)
  | (.ok (some (.placed rid)), b) => some (.ok (some rid), b)
  | (.ok (some .no_room), b) => insert_tuple b first_page_id tuple

/-! ## New heaps -/

/-- The first page of the new heap. -/
def create (b : BufferPoolManager) : Except String PageID × BufferPoolManager :=
  match b.new_page with
  | (.error e, b) => (.error e, b)
  | (.ok none, b) => (.error "TableHeap: failed to create next page", b)
  | (.ok (some page), b) =>
    let b := b.set_data page (init (b.frames page).data)
    (.ok (b.frames page).page_id, b.unpin_page (b.frames page).page_id true)

end duck.table_heap
