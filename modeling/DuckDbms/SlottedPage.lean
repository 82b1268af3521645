-- The slotted page, byte for byte: the header, the slot directory that grows
-- up from it, and the tuples that grow down from the end of the page.
import DuckDbms.Common
import DuckDbms.Lib.ByteMem

open byte_mem

namespace duck.slotted_page

def INVALID_SLOT_OFFSET : Nat := 0

structure PageHeader where
  next_page_id : PageID
  slot_count : Nat
  free_space_offset : Nat
  deriving DecidableEq

structure Slot where
  offset : Nat
  length : Nat
  deriving DecidableEq

def sizeofPageHeader : Nat := 8

def sizeofSlot : Nat := 4

/-- The data of a page as `SlottedPage` lays it out. The header stands in bytes 0 to 7, as
its own record; every other byte of the page is in `body`, at its own place. The places from
8192 on are not in the page: a tuple of 65536 bytes or more, of which only the low bits of the
size are checked, is written over them, and in the code over what lies behind the page. -/
structure PageData where
  header : PageHeader
  body : ByteMem

/-- What `memset(data, 0, kPAGE_SIZE)` leaves. -/
def zeroPage : PageData := ⟨⟨some 0, 0, 0⟩, fun _ => 0⟩

namespace PageData

variable (d : PageData)

/-- The place of a slot in the directory. -/
def slotAt (i : Nat) : Nat := sizeofPageHeader + i * sizeofSlot

def slot (i : Nat) : Slot := ⟨read16 d.body (slotAt i), read16 d.body (slotAt i + 2)⟩

def set_offset (i v : Nat) : PageData := { d with body := write16 d.body (slotAt i) v }

def set_length (i v : Nat) : PageData := { d with body := write16 d.body (slotAt i + 2) v }

end PageData

def init (d : PageData) : PageData := { d with header := ⟨INVALID_PAGE_ID, 0, kPAGE_SIZE⟩ }

def free_space_bytes (d : PageData) : Int :=
  (d.header.free_space_offset : Int) - (sizeofPageHeader + d.header.slot_count * sizeofSlot : Nat)

def find_empty_slot (d : PageData) : Option Nat :=
  (List.range d.header.slot_count).find? fun i => (d.slot i).offset = INVALID_SLOT_OFFSET

def allocate_slot (d : PageData) : Nat × PageData :=
  let slot_idx := d.header.slot_count
  let d := { d with header := { d.header with slot_count := (slot_idx + 1) % 65536 } }
  (slot_idx, d.set_offset slot_idx INVALID_SLOT_OFFSET)

/-- The slot that `insert_tuple` takes: the preferred one when it is free, the first free
one, or a new one when the directory has room to grow. -/
def choose_slot (d : PageData) (available_space : Int) (tuple_size : Nat)
    (prefered_slot : Option Nat) : Option (Nat × PageData) :=
  match prefered_slot.filter fun p =>
      p < d.header.slot_count ∧ (d.slot p).offset = INVALID_SLOT_OFFSET with
  | some p => some (p, d)
  | none =>
    match find_empty_slot d with
    | some slot => some (slot, d)
    | none =>
      if available_space - tuple_size < sizeofSlot then none else some (allocate_slot d)

/-- The end of `insert_tuple`: the slot and the header get the place below the tuples, and
the bytes are copied there whole. -/
def fill_slot (d : PageData) (slot_idx tuple_size : Nat) (tuple_data : List UInt8) : PageData :=
  let d := d.set_length slot_idx tuple_size
  let offset := (d.header.free_space_offset + 65536 - tuple_size) % 65536
  let d := d.set_offset slot_idx offset
  { header := { d.header with free_space_offset := offset }
    body := writeBytes d.body offset tuple_data }

/-- The size is cut to 16 bits. -/
def insert_tuple (d : PageData) (tuple_data : List UInt8) (prefered_slot : Option Nat) :
    Option Nat × PageData :=
  let available_space := free_space_bytes d
  let tuple_size := tuple_data.length % 65536
  if available_space < tuple_size then (none, d)
  else
    match choose_slot d available_space tuple_size prefered_slot with
    | none => (none, d)
    | some (slot_idx, d) => (some slot_idx, fill_slot d slot_idx tuple_size tuple_data)

def get_tuple (d : PageData) (slot_num : Nat) : List UInt8 :=
  if slot_num ≥ d.header.slot_count then []
  else if (d.slot slot_num).offset = INVALID_SLOT_OFFSET then []
  else readBytes d.body (d.slot slot_num).offset (d.slot slot_num).length

def try_update_in_place (d : PageData) (rid : RID) (tuple_data : List UInt8) : Bool × PageData :=
  if rid.slot_num ≥ d.header.slot_count then (false, d)
  else
    let slot := d.slot rid.slot_num
    if slot.offset = INVALID_SLOT_OFFSET then (false, d)
    else
      let tuple_size := tuple_data.length % 65536
      if tuple_size > slot.length then (false, d)
      else
        let d := { d with body := writeBytes d.body slot.offset tuple_data }
        (true, d.set_length rid.slot_num tuple_size)

def delete_tuple (d : PageData) (slot_num : Nat) : Bool × PageData :=
  if slot_num ≥ d.header.slot_count then (false, d)
  else if (d.slot slot_num).offset = INVALID_SLOT_OFFSET then (false, d)
  else (true, d.set_offset slot_num INVALID_SLOT_OFFSET)

/-- The loop of `is_compacted`, over the slots that are left. -/
def is_compacted_loop (d : PageData) : List Nat → Nat → Bool
  | [], next_offset => next_offset == kPAGE_SIZE
  | i :: rest, next_offset =>
    if (d.slot i).offset = INVALID_SLOT_OFFSET then is_compacted_loop d rest next_offset
    else if next_offset ≠ (d.slot i).offset then false
    else is_compacted_loop d rest ((next_offset + (d.slot i).length) % 65536)

def is_compacted (d : PageData) : Bool :=
  if d.header.slot_count = 0 then true
  else is_compacted_loop d (List.range d.header.slot_count) (d.slot 0).offset

/-- What the loop of `compact` has built so far. -/
structure Compacted where
  offset : Nat
  compacted_slots : List Slot
  compacted : ByteMem

/-- One turn of the loop of `compact`. -/
def compact_step (d : PageData) (c : Compacted) (i : Nat) : Compacted :=
  let slot := d.slot i
  if slot.offset = INVALID_SLOT_OFFSET then
    { c with compacted_slots := c.compacted_slots ++ [⟨INVALID_SLOT_OFFSET, 0⟩] }
  else
    let offset := (c.offset + 65536 - slot.length) % 65536
    { offset
      compacted_slots := c.compacted_slots ++ [⟨offset, slot.length⟩]
      compacted := writeBytes c.compacted offset (readBytes d.body slot.offset slot.length) }

/-- The slots of a list, from slot `i` on, copied into the directory. -/
def put_slots (m : ByteMem) : Nat → List Slot → ByteMem
  | _, [] => m
  | i, s :: rest =>
    put_slots (write16 (write16 m (PageData.slotAt i) s.offset) (PageData.slotAt i + 2) s.length)
      (i + 1) rest

def compact (d : PageData) : PageData :=
  let c := (List.range d.header.slot_count).foldl (compact_step d) ⟨kPAGE_SIZE, [], fun _ => 0⟩
  { header := { d.header with free_space_offset := c.offset }
    body := writeBytes (put_slots (fun _ => 0) 0 c.compacted_slots) c.offset
      (readBytes c.compacted c.offset (kPAGE_SIZE - c.offset)) }

/-- `none` when an `assert` fails. -/
def restore_tuple (d : PageData) (slot_num : Nat) (tuple_data : List UInt8) : Option PageData :=
  if ¬ slot_num < d.header.slot_count then none
  else if (d.slot slot_num).offset ≠ INVALID_SLOT_OFFSET then none
  else
    let tuple_size := tuple_data.length % 65536
    let d := if free_space_bytes d < tuple_size then compact d else d
    if free_space_bytes d < tuple_size then none
    else
      match insert_tuple d tuple_data (some slot_num) with
      | (some _, d) => some d
      | (none, _) => none

def set_next_page (d : PageData) (page_id : PageID) : PageData :=
  { d with header := { d.header with next_page_id := page_id } }

def next_page (d : PageData) : PageID := d.header.next_page_id

def has_slot (d : PageData) (slot_num : Nat) : Bool :=
  slot_num < d.header.slot_count && (d.slot slot_num).offset != INVALID_SLOT_OFFSET

def next_occupied_slot (d : PageData) (slot_num : Nat) : Option Nat :=
  let slot_num := (slot_num + 1) % 65536
  (List.range' slot_num (d.header.slot_count - slot_num)).find? fun i =>
    (d.slot i).offset != INVALID_SLOT_OFFSET

def has_next_page (d : PageData) : Bool := d.header.next_page_id != INVALID_PAGE_ID

end duck.slotted_page
