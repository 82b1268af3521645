-- Tuples that are longer than the length of a slot can say. Their bytes go past
-- the end of the page, over the rest of its frame and the frames behind it.
import DuckDbms.ScanRuns
import DuckDbms.Lib.Layout

open machine layout duck.slotted_page duck.disk_manager

namespace duck.buffer_pool

/-! ## Frames in memory -/

/-- What the platform has behind `is_dirty_` in a frame, up to the next frame: the padding and the
latch, when somebody holds it exclusively and when it is free. -/
structure FrameLayout where
  held : List UInt8
  free : List UInt8
  same_size : held.length = free.length

/-! `page_id_` stands at place 0 of a frame, `data_` behind it, and then the other members. -/

def data_at : Nat := 4

def pin_count_at : Nat := data_at + kPAGE_SIZE

def is_dirty_at : Nat := pin_count_at + 4

def latch_at : Nat := is_dirty_at + 1

def sizeofPage (L : FrameLayout) : Nat := latch_at + L.free.length

/-- A page id as a number of 32 bits. -/
def idWord : PageID → Nat
  | some n => n
  | none => 4294967295

def wordId (n : Nat) : PageID := if n = 4294967295 then none else some n

/-- The byte at place `i` of a frame, if `bytes` were copied over the frame from place `start` on. -/
def copied (start : Nat) (bytes : List UInt8) (i : Nat) : Option UInt8 :=
  if i < start then none else bytes[i - start]?

/-- The number in the `n` bytes from place `k` on, which was `v` before. -/
def overwrite (w : Nat → Option UInt8) (k n v : Nat) : Nat :=
  ofLeBytes ((leBytes n v).mapIdx fun i old => (w (k + i)).getD old)

/-- The frame after `bytes` were copied over it from place `start` on. -/
def Page.overwritten (p : Page) (start : Nat) (bytes : List UInt8) : Page :=
  let w := copied start bytes
  { page_id := wordId (overwrite w 0 4 (idWord p.page_id))
    data :=
      { header :=
          { next_page_id := wordId (overwrite w data_at 4 (idWord p.data.header.next_page_id))
            slot_count := overwrite w (data_at + 4) 2 p.data.header.slot_count
            free_space_offset := overwrite w (data_at + 6) 2 p.data.header.free_space_offset }
        body := fun i =>
          if i < kPAGE_SIZE then (w (data_at + i)).getD (p.data.body i) else p.data.body i }
    pin_count := overwrite w pin_count_at 4 p.pin_count
    is_dirty := ((w is_dirty_at).map (· != 0)).getD p.is_dirty }

/-- `is_dirty_` stays a `bool`, and the latch is left as it is. -/
def leaves_latch (latch : List UInt8) (start : Nat) (bytes : List UInt8) : Bool :=
  (bytes[is_dirty_at - start]?).all (· ≤ 1) &&
    ((bytes.drop (latch_at - start)).take latch.length).isPrefixOf latch

/-- The frames of a pool from `f` on, after bytes were copied over them from place `start` of the
first one on. `none` where nothing is known of what comes then: past the last frame, or over a
latch that is not left as it is. -/
def overwrite_frames (L : FrameLayout) (latch : List UInt8) (start : Nat) :
    List FrameID → (FrameID → Page) → List UInt8 → Option (FrameID → Page)
  | [], frames, bytes => if bytes.isEmpty then some frames else none
  | f :: rest, frames, bytes =>
    if leaves_latch latch start bytes then
      overwrite_frames L L.free 0 rest
        (Function.update frames f ((frames f).overwritten start bytes))
        (bytes.drop (sizeofPage L - start))
    else none

/-- The bytes of a tuple past the data of frame `f`, whose latch the writer holds. -/
def BufferPoolManager.write_past (L : FrameLayout) (b : BufferPoolManager) (f : FrameID)
    (bytes : List UInt8) : Option BufferPoolManager :=
  if bytes.isEmpty then some b
  else
    (overwrite_frames L L.held pin_count_at (List.range' f (b.pool_capacity - f)) b.frames bytes).map
      fun frames => { b with frames }

section
variable {L : FrameLayout}

/-- Zeros from the flag on leave a latch that is zeros when it is free. -/
theorem leaves_latch_zeros (k start : Nat) {bytes : List UInt8} (h : bytes.length ≤ is_dirty_at - start)
    (n : Nat) : leaves_latch (List.replicate k 0) start (bytes ++ List.replicate n 0) = true := by
  unfold leaves_latch
  have hlatch : bytes.length ≤ latch_at - start := by
    unfold latch_at
    omega
  rw [Bool.and_eq_true, List.getElem?_append_right h, List.getElem?_replicate, List.drop_append,
    List.drop_of_length_le hlatch, List.nil_append, List.drop_replicate, List.take_replicate]
  refine ⟨?_, ?_⟩
  · split <;> rfl
  · rw [List.isPrefixOf_iff_prefix, List.prefix_replicate_iff]
    simp

/-- The frames after zeros were copied over them. -/
def zero_frames (L : FrameLayout) : List FrameID → (FrameID → Page) → Nat → FrameID → Page
  | [], frames, _ => frames
  | f :: rest, frames, n =>
    zero_frames L rest
      (Function.update frames f ((frames f).overwritten 0 (List.replicate n 0))) (n - sizeofPage L)

/-- Zeros go over latches that are zeros when they are free. -/
theorem overwrite_frames_zeros {k : Nat} (hfree : L.free = List.replicate k 0) {fs : List FrameID}
    {frames : FrameID → Page} {n : Nat} (hn : n ≤ fs.length * sizeofPage L) :
    overwrite_frames L L.free 0 fs frames (List.replicate n 0) = some (zero_frames L fs frames n) := by
  induction fs generalizing frames n with
  | nil =>
    obtain rfl : n = 0 := by simpa using hn
    rfl
  | cons f fs ih =>
    have hlatch : leaves_latch L.free 0 (List.replicate n 0) = true := by
      rw [hfree]
      exact @leaves_latch_zeros k 0 [] (Nat.zero_le _) n
    unfold overwrite_frames
    rw [if_pos hlatch, List.drop_replicate]
    refine ih ?_
    rw [List.length_cons, Nat.succ_mul] at hn
    omega

/-- A tuple whose first bytes fill a place at the end of its page. The next ones go over the fields
behind the page in its frame, then some over the beginning of the next frame, and zeros behind them. -/
structure LongTuple where
  own : List UInt8
  fields : List UInt8
  next : List UInt8
  zeros : Nat

namespace LongTuple

variable (t : LongTuple)

def behind : List UInt8 := t.next ++ List.replicate t.zeros 0

def past : List UInt8 := t.fields ++ t.behind

def bytes : List UInt8 := t.own ++ t.past

theorem length_bytes :
    t.bytes.length = t.own.length + (t.fields.length + (t.next.length + t.zeros)) := by
  simp [bytes, past, behind]

/-- It leaves the latches as they are, and ends in one of the `m` frames behind its own. -/
structure Ends (L : FrameLayout) (m : Nat) : Prop where
  fields : t.fields.length = sizeofPage L - pin_count_at
  latch : leaves_latch L.held pin_count_at t.past = true
  next : t.next.length ≤ is_dirty_at
  frames : t.next.length + t.zeros ≤ m * sizeofPage L

/-- The pool after such a tuple was written to frame `f`, which has `m + 1` frames behind it. -/
def over_frames (L : FrameLayout) (b : BufferPoolManager) (f m : Nat) : BufferPoolManager :=
  { b with
    frames := zero_frames L (List.range' (f + 2) m)
      (Function.update
        (Function.update b.frames f ((b.frames f).overwritten pin_count_at t.past)) (f + 1)
        ((b.frames (f + 1)).overwritten 0 t.behind))
      (t.zeros - (sizeofPage L - t.next.length)) }

theorem write_past {t : LongTuple} {k : Nat} (hfree : L.free = List.replicate k 0)
    {b : BufferPoolManager} {f m : Nat} (E : t.Ends L (m + 1))
    (hcap : b.pool_capacity = f + (m + 2)) :
    b.write_past L f t.past = some (t.over_frames L b f m) := by
  obtain ⟨hover, hlatch, hnext, hn⟩ := E
  have hpage : t.next.length ≤ sizeofPage L ∧ pin_count_at + 5 ≤ sizeofPage L := by
    unfold sizeofPage latch_at is_dirty_at at *
    omega
  have hempty : t.past.isEmpty = false := by
    rw [List.isEmpty_eq_false_iff]
    intro h
    unfold past at h
    rw [List.append_eq_nil_iff] at h
    rw [h.1, List.length_nil] at hover
    omega
  have hframes : List.range' f (b.pool_capacity - f) = f :: (f + 1) :: List.range' (f + 2) m := by
    rw [hcap, Nat.add_sub_cancel_left]
    rfl
  have hrest : t.past.drop (sizeofPage L - pin_count_at) = t.behind := List.drop_left' hover
  -- the latch of the next frame lies behind the bytes that are not zero
  have hfreed : leaves_latch L.free 0 t.behind = true := by
    rw [hfree]
    exact leaves_latch_zeros k 0 hnext t.zeros
  have hzeros : t.behind.drop (sizeofPage L - 0) =
      List.replicate (t.zeros - (sizeofPage L - t.next.length)) 0 := by
    unfold behind
    rw [Nat.sub_zero, List.drop_append, List.drop_of_length_le hpage.1, List.nil_append,
      List.drop_replicate]
  have hsecond : ∀ p, Function.update b.frames f p (f + 1) = b.frames (f + 1) := fun p =>
    Function.update_of_ne (Nat.succ_ne_self f) _ _
  unfold BufferPoolManager.write_past
  rw [hempty, hframes]
  simp only [Bool.false_eq_true, if_false]
  rw [overwrite_frames, if_pos hlatch, hrest, overwrite_frames, if_pos hfreed, hzeros,
    overwrite_frames_zeros hfree, Option.map_some, hsecond]
  · rfl
  · rw [List.length_range']
    rw [Nat.succ_mul] at hn
    omega

end LongTuple

end

end duck.buffer_pool

namespace duck.table_heap

open duck.buffer_pool chain

/-! ## Updates in memory -/

/-- The bytes of a placed tuple that lie past the end of its page. -/
def past_page (u : Updated) (d : PageData) (tuple : List UInt8) : List UInt8 :=
  match u with
  | .placed rid => tuple.drop (kPAGE_SIZE - (d.slot rid.slot_num).offset)
  | .not_found | .no_room => []

/-- `TableHeap::update_tuple`, where the copy of the tuple goes past the end of the page. -/
def update_tuple_in_memory (L : FrameLayout) (b : BufferPoolManager) (first_page_id : PageID)
    (rid : RID) (tuple : List UInt8) :
    Option (Except String (Option RID) × BufferPoolManager) :=
  match b.fetch_page rid.page_id with
  | (.error e, b) => some (.error e, b)
  | (.ok none, b) => some (.ok none, b)
  | (.ok (some page), b) =>
    let r := update_section rid tuple (b.frames page)
    ((b.set_data page r.2.1).write_past L page (past_page r.1 r.2.1 tuple)).bind fun b =>
      let b := b.unpin_page (b.frames page).page_id r.2.2
      match r.1 with
      | .not_found => some (.ok none, b)
      | .placed rid => some (.ok (some rid), b)
      | .no_room => insert_tuple b first_page_id tuple

section
variable {evicts : Prop} {pins : Nat → Nat} {pending heads : Nat → Prop} {b : BufferPoolManager}
  {L : FrameLayout}

/-- A tuple whose length a slot can say stays on its page. -/
theorem past_page_short {n : Nat} {page : Page} (slot : Nat) {t : List UInt8} (g : Good page.data)
    (hid : page.page_id = some n) (ht : t.length < 65536) :
    past_page (update_section ⟨some n, slot⟩ t page).1 (update_section ⟨some n, slot⟩ t page).2.1 t =
      [] := by
  rcases update_section_spec slot g hid ht with ⟨d, h, _⟩ | ⟨old, d, h, hold, gd, _, hrows⟩ |
    ⟨old, d, h, _⟩ <;> rw [h]
  · rfl
  · -- the tuple of the slot is the new one, and it ends on the page
    have hrow : tupleOf (rowsOf d) slot = some t := by
      rw [hrows, tupleOf_set hold, if_pos rfl]
    rw [tupleOf_eq_some, rowsOf_getElem?] at hrow
    split at hrow
    swap
    · cases hrow
    rename_i hslot
    have hrow := Option.some.inj hrow
    unfold rowOf at hrow
    split at hrow
    · cases hrow
    rename_i hlive
    have hlen : (d.slot slot).length = t.length := by
      rw [← Option.some.inj hrow, byte_mem.length_readBytes]
    obtain ⟨_, hend⟩ := gd.inside slot hslot hlive
    show t.drop (kPAGE_SIZE - (d.slot slot).offset) = []
    exact List.drop_of_length_le (by omega)
  · rfl

/-- In memory such an update does what it does on a page of its own. -/
theorem HeapState.update_in_memory (H : HeapState evicts pins pending heads b) {n : Nat}
    (hn : OnChain (succ b) heads n) (first_page_id : PageID) (slot : Nat) {t : List UInt8}
    (ht : t.length < 65536) :
    update_tuple_in_memory L b first_page_id ⟨some n, slot⟩ t =
      table_heap.update_tuple b first_page_id ⟨some n, slot⟩ t := by
  obtain ⟨hgood, ha⟩ := H.pages n hn
  unfold update_tuple_in_memory table_heap.update_tuple table_heap.with_page
  rcases H.store.fetch_page ha with ⟨f, b1, hf, B, hc⟩ | ⟨hf, _⟩ <;> simp only [hf]
  have hid : (b1.frames f).page_id = some n := (B.store.inv.holds n f).mp B.table
  have hm : meaning (b1.frames f).data = contents b n := by
    rw [← hc]
    unfold contents
    rw [view_cached B.table]
  have g : Good (b1.frames f).data := (congrArg Meaning.good hm).mpr hgood
  rw [past_page_short slot g hid ht]
  unfold BufferPoolManager.write_past
  simp only [List.isEmpty_nil, if_true, Option.bind_some]
  rcases update_section ⟨some n, slot⟩ t (b1.frames f) with ⟨_ | _ | _, d, dirty⟩ <;> rfl

/-- The page after an update in place, with the length that is left in 16 bits. -/
def in_place (d : PageData) (slot len : Nat) (t : List UInt8) : PageData :=
  ({ d with body := byte_mem.writeBytes d.body (d.slot slot).offset t } : PageData).set_length slot len

/-- The pool after an update in place of a tuple in frame `f`. -/
def updated_past (L : FrameLayout) (b : BufferPoolManager) (f m slot len : Nat) (t : LongTuple) :
    BufferPoolManager :=
  let b := t.over_frames L (b.set_data f (in_place (b.frames f).data slot len t.bytes)) f m
  b.unpin_page (b.frames f).page_id true

/-- The slot is live, has room for the length that is left, and lies at the end of its page. -/
structure TakesInPlace (d : PageData) (slot len : Nat) (t : LongTuple) : Prop where
  live : has_slot d slot = true
  length : t.bytes.length % 65536 = len
  fits : len ≤ (d.slot slot).length
  place : kPAGE_SIZE - ((in_place d slot len t.bytes).slot slot).offset = t.own.length

theorem TakesInPlace.placed {page : Page} {n slot len : Nat} {t : LongTuple}
    (T : TakesInPlace page.data slot len t) :
    update_section ⟨some n, slot⟩ t.bytes page =
      (.placed ⟨some n, slot⟩, in_place page.data slot len t.bytes, true) := by
  have hocc := T.live
  unfold has_slot at hocc
  rw [Bool.and_eq_true, decide_eq_true_eq, bne_iff_ne] at hocc
  unfold update_section try_update_in_place
  simp only [T.live, not_true_eq_false, if_false, ge_iff_le, Nat.not_le.mpr hocc.1, hocc.2, T.length,
    gt_iff_lt, Nat.not_lt.mpr T.fits]
  rfl

theorem update_past_page {k : Nat} (hfree : L.free = List.replicate k 0) {b1 : BufferPoolManager}
    {f m n slot len : Nat} {t : LongTuple} (hfetch : b.fetch_page (some n) = (.ok (some f), b1))
    (T : TakesInPlace (b1.frames f).data slot len t) (E : t.Ends L (m + 1))
    (hcap : b1.pool_capacity = f + (m + 2)) (first_page_id : PageID) :
    update_tuple_in_memory L b first_page_id ⟨some n, slot⟩ t.bytes =
      some (.ok (some ⟨some n, slot⟩), updated_past L b1 f m slot len t) := by
  have hpast : t.bytes.drop (kPAGE_SIZE -
      ((in_place (b1.frames f).data slot len t.bytes).slot slot).offset) = t.past := by
    rw [T.place]
    exact List.drop_left' rfl
  unfold update_tuple_in_memory
  simp only [hfetch, T.placed, past_page, hpast]
  rw [LongTuple.write_past hfree E (b := b1.set_data f _) hcap]
  rfl

end

/-! ## Scans and calls in memory -/

def HeapCall.run_in_memory (L : FrameLayout) (b : BufferPoolManager) (first_page_id : PageID) :
    HeapCall → Option (Except String HeapResult × BufferPoolManager)
  | .update rid tuple =>
    (update_tuple_in_memory L b first_page_id rid tuple).map fun r => (r.1.map .placed, r.2)
  | call => call.run b first_page_id

def ScanRun.next_in_memory (L : FrameLayout) (h : Nat) (s : ScanRun) : ScanCall → Option ScanRun
  | .next => s.next h .next
  | .heap call => (call.run_in_memory L s.pool (some h)).map fun r =>
      ⟨r.2, s.scan, s.returned, s.stay h r.2⟩

/-- The scans and the calls of a heap whose frames lie one behind the other. -/
def scanMemory (L : FrameLayout) (h : Nat) : Machine ScanRun ScanCall where
  start := (scanRunMachine h).start
  next s call := s.next_in_memory L h call

/-- RIDs are on pages of the heap, and the scan gets a frame for every page that it fetches. -/
def RidsOnHeap (h : Nat) (s : ScanRun) : ScanCall → Prop
  | .heap (.update rid _) => ∃ n, rid.page_id = some n ∧ OnPath (succ s.pool) h n
  | call => OnScannedHeap h s call

theorem OnScannedHeap.rids {h : Nat} {s : ScanRun} {call : ScanCall} (hok : OnScannedHeap h s call) :
    RidsOnHeap h s call := by
  cases call with
  | next => exact hok
  | heap call =>
    cases call with
    | insert | get | delete => exact hok
    | update => exact hok.1

section
variable {L : FrameLayout} {h : Nat} {s t : ScanRun}

/-- A step whose tuple fits into the length of a slot is the same in memory. -/
theorem next_in_memory_eq (hs : Scanning h s) {call : ScanCall} (hok : OnScannedHeap h s call) :
    s.next_in_memory L h call = s.next h call := by
  obtain ⟨outside, pending, pre, n, post, A⟩ := hs
  cases call with
  | next => rfl
  | heap call =>
    cases call with
    | insert | get | delete => rfl
    | update rid tuple =>
      obtain ⟨⟨m, hrid, hon⟩, hlen⟩ := hok
      obtain ⟨p, slot⟩ := rid
      cases hrid
      obtain ⟨f, S⟩ := A.standing
      unfold ScanRun.next_in_memory ScanRun.next HeapCall.run_in_memory HeapCall.run
      simp only [S.heap.update_in_memory ⟨h, rfl, hon⟩ (some h) slot hlen]

theorem scanMemory_reach (hr : (scanMemory L h).Reach (OnScannedHeap h) s) :
    (scanRunMachine h).Reach (OnScannedHeap h) s := by
  induction hr with
  | start h0 => exact .start h0
  | step _ hok hn ih =>
    refine ih.step hok ?_
    rw [← hn]
    exact (next_in_memory_eq (scanning_reach ih) hok).symm

theorem scanMemory_undisturbed {s0 : ScanRun} {calls : List ScanCall}
    (hr : (scanMemory L h).Run (Undisturbed h) s0 calls s) :
    (scanRunMachine h).Run (Undisturbed h) s0 calls s := by
  induction hr with
  | nil => exact .nil
  | snoc _ hok hn ih =>
    obtain ⟨hok, rfl⟩ := hok
    exact ih.snoc ⟨hok, rfl⟩ hn

/-- Whatever other calls do to the heap between its steps, as long as their tuples fit into the
length of a slot, a scan returns no RID twice, returns the bytes that a RID has at that step, and
ends when every RID that stayed live is returned. A scan that nobody disturbs returns the rows of
the heap in their order. -/
theorem a_scan_returns_every_row_that_stays (L : FrameLayout) (h : Nat) (s : ScanRun)
    (hr : (scanMemory L h).Reach (OnScannedHeap h) s) :
    (s.returned.map (·.1)).Nodup ∧
    (OnScannedHeap h s .next → ∃ r pool scan, s.scan_next = some (.ok r, pool, scan) ∧
      ReturnsRows h s r ∧
      ∀ s0 calls, (scanMemory L h).start s0 →
        (scanMemory L h).Run (Undisturbed h) s0 calls s → r = none →
        RowsInOrder h s0.pool s.returned) := by
  obtain ⟨honce, hnext⟩ := scan_returns_rows h s (scanMemory_reach hr)
  refine ⟨honce, fun hok => ?_⟩
  obtain ⟨r, pool, scan, hstep, hrows, horder⟩ := hnext hok
  exact ⟨r, pool, scan, hstep, hrows, fun s0 calls h0 hrun => horder s0 calls h0
    (scanMemory_undisturbed hrun)⟩

end

/-! ## A tuple that is written over the next page -/

/-- Seven bytes of padding and a latch of 56 bytes, the first of which says that it is held. -/
def padded_latch : FrameLayout :=
  ⟨List.replicate 7 0 ++ 3 :: List.replicate 55 0, List.replicate 63 0, rfl⟩

/-- What leaves a frame dirty and as it is, with a number of pins, while its latch is held. -/
def rest_of_frame (pins : UInt8) : List UInt8 := [pins, 0, 0, 0, 1] ++ padded_latch.held

/-- The slot takes a tuple of any length with `len` as its last 16 bits. -/
def takes_in_place (d : PageData) (slot len : Nat) (t : LongTuple) : Bool :=
  has_slot d slot && decide (len ≤ (d.slot slot).length) &&
    kPAGE_SIZE - ((in_place d slot len t.bytes).slot slot).offset == t.own.length

theorem takesInPlace_of_check {d : PageData} {slot len : Nat} {t : LongTuple}
    (hlen : t.bytes.length % 65536 = len) (h : takes_in_place d slot len t = true) :
    TakesInPlace d slot len t := by
  unfold takes_in_place at h
  simp only [Bool.and_eq_true, decide_eq_true_eq, beq_iff_eq] at h
  exact ⟨h.1.1, hlen, h.1.2, h.2⟩

/-- A call that names page 1, or a scan that finds its frames. -/
def on_page_one (s : ScanRun) : ScanCall → Bool
  | .heap (.insert _) => true
  | .heap _ => false
  | .next => Scan.fetches_succeed (s.pool.disk_manager.capacity + 1) s.pool s.scan

theorem onScannedHeap_of_check {h : Nat} (s : ScanRun) (call : ScanCall)
    (hc : on_page_one s call = true) : OnScannedHeap h s call := by
  cases call with
  | next => exact hc
  | heap call =>
    cases call with
    | insert => trivial
    | get | update | delete => cases hc

/-- A new heap in a pool of some frames, and a scan of it. -/
def scan_of_new_heap (frames : Nat) : Option ScanRun :=
  match Scan.open_ (create (empty_pool frames)).2 (some 1) with
  | (.ok scan, pool) => some ⟨pool, scan, [], fun rid => tuples 1 pool rid ≠ none⟩
  | _ => none

theorem scan_of_new_heap_start {frames : Nat} {s : ScanRun} (hs : scan_of_new_heap frames = some s)
    (hnew : (create (empty_pool frames)).1 = .ok (some 1)) (hpage : s.scan.current_page ≠ none) :
    (scanRunMachine 1).start s := by
  unfold scan_of_new_heap at hs
  split at hs
  · rename_i scan pool ho
    cases hs
    exact ⟨rfl, rfl, hpage, _, _, fun _ => False, (new_heap_state hnew).1, fun m hm => hm.elim, ho⟩
  · cases hs

/-- A row that is put in after the scan was made is returned, once. -/
theorem a_scan_returns_a_row_that_came_after_it :
    ∃ s, s.returned.map (·.2) = [[7]] ∧ (s.returned.map (·.1)).Nodup ∧
      (OnScannedHeap 1 s .next → ∃ r pool scan, s.scan_next = some (.ok r, pool, scan) ∧
        ReturnsRows 1 s r ∧
        ∀ s0 calls, (scanMemory padded_latch 1).start s0 →
          (scanMemory padded_latch 1).Run (Undisturbed 1) s0 calls s → r = none →
          RowsInOrder 1 s0.pool s.returned) := by
  obtain ⟨u, hb, hp⟩ : ∃ u, ((scan_of_new_heap 2).bind fun s =>
      if s.scan.current_page.isSome then
        (scanMemory padded_latch 1).execIf on_page_one s [.heap (.insert [7]), .next]
      else none) = some u ∧ (u.returned.map (·.2) == [[7]]) = true := by
    apply Option.map_eq_some_iff.mp
    decide +kernel
  obtain ⟨s, hs, hb⟩ := Option.bind_eq_some_iff.mp hb
  split at hb
  swap
  · cases hb
  rename_i hpage
  have hstart := scan_of_new_heap_start hs rfl (Option.isSome_iff_ne_none.mp hpage)
  exact ⟨u, beq_iff_eq.mp hp, a_scan_returns_every_row_that_stays padded_latch 1 u
    (Machine.Reach.run (.start hstart) (Machine.run_of_execIf onScannedHeap_of_check hb))⟩

/-- A tuple of 65546 bytes. It leaves page 1 with its two pins, and page 2 with page 1 as the next
one. -/
def long_tuple : LongTuple :=
  ⟨List.replicate 20 9, rest_of_frame 2, [2, 0, 0, 0, 1, 0, 0, 0], 65450⟩

/-- The update of the first row of page 1, in frame 0, by that tuple. -/
def with_long_tuple (s : ScanRun) : ScanRun :=
  let pool := updated_past padded_latch (s.pool.fetch_page (some 1)).2 0 10 0 10 long_tuple
  ⟨pool, s.scan, s.returned, s.stay 1 pool⟩

def takes_long_tuple (s : ScanRun) : Bool :=
  match s.pool.fetch_page (some 1) with
  | (.ok (some 0), b) =>
    takes_in_place (b.frames 0).data 0 10 long_tuple && b.pool_capacity == 12
  | _ => false

theorem next_with_long_tuple {s : ScanRun} (h : takes_long_tuple s = true) :
    (scanMemory padded_latch 1).next s (.heap (.update ⟨some 1, 0⟩ long_tuple.bytes)) =
      some (with_long_tuple s) := by
  have hlen : long_tuple.bytes.length % 65536 = 10 := by
    rw [LongTuple.length_bytes]
    decide
  have hends : long_tuple.Ends padded_latch 11 := by
    refine ⟨by decide, by decide +kernel, by decide, by decide⟩
  unfold takes_long_tuple at h
  split at h
  swap
  · cases h
  rename_i b hfetch
  rw [Bool.and_eq_true, beq_iff_eq] at h
  have hupdate := update_past_page (k := 63) rfl hfetch (takesInPlace_of_check hlen h.1) hends h.2
    (some 1)
  show ((update_tuple_in_memory padded_latch s.pool (some 1) ⟨some 1, 0⟩ long_tuple.bytes).map _).map
    _ = _
  rw [hupdate]
  unfold with_long_tuple
  rw [hfetch]
  rfl

/-- Page 1 has a row of 20 bytes, and page 2 one that fills it. The scan has returned the first, and
then a tuple of 65546 bytes is put in its place, which is written over page 2 and makes page 1 its
next page. The scan comes back to page 1, and returns the row again. -/
theorem a_scan_returns_a_row_twice :
    ¬ ∀ (L : FrameLayout) (h : Nat) (s : ScanRun), (scanMemory L h).Reach (RidsOnHeap h) s →
      (s.returned.map (·.1)).Nodup := by
  intro hall
  obtain ⟨u, hb, hp⟩ : ∃ u, ((scan_of_new_heap 12).bind fun s =>
      if s.scan.current_page.isSome then
        ((scanMemory padded_latch 1).execIf on_page_one s [.heap (.insert (List.replicate 20 7)),
          .heap (.insert (List.replicate 8180 7)), .next]).bind fun s1 =>
        if takes_long_tuple s1 then
          (scanMemory padded_latch 1).execIf on_page_one (with_long_tuple s1) [.next]
        else none
      else none) = some u ∧
      (u.returned.map (·.1) == [⟨some 1, 0⟩, ⟨some 1, 0⟩]) = true := by
    apply Option.map_eq_some_iff.mp
    decide +kernel
  obtain ⟨s, hs, hb⟩ := Option.bind_eq_some_iff.mp hb
  split at hb
  swap
  · cases hb
  rename_i hpage
  obtain ⟨s1, hs1, hb⟩ := Option.bind_eq_some_iff.mp hb
  split at hb
  swap
  · cases hb
  rename_i htakes
  have hstart := scan_of_new_heap_start hs rfl (Option.isSome_iff_ne_none.mp hpage)
  have hreach : (scanMemory padded_latch 1).Reach (OnScannedHeap 1) s1 :=
    Machine.Reach.run (.start hstart) (Machine.run_of_execIf onScannedHeap_of_check hs1)
  obtain ⟨_, _, _, _, _, A⟩ := scanning_reach (scanMemory_reach hreach)
  obtain ⟨_, S⟩ := A.standing
  have hrids : RidsOnHeap 1 s1 (.heap (.update ⟨some 1, 0⟩ long_tuple.bytes)) :=
    ⟨1, rfl, S.heap.forest.onPath_head rfl⟩
  have hlast : (scanMemory padded_latch 1).Reach (RidsOnHeap 1) u :=
    ((hreach.mono fun _ _ hok => hok.rids).step hrids (next_with_long_tuple htakes)).run
      ((Machine.run_of_execIf onScannedHeap_of_check hb).mono fun _ _ hok => hok.rids)
  have honce := hall padded_latch 1 u hlast
  rw [beq_iff_eq.mp hp] at honce
  exact absurd honce (by decide)

end duck.table_heap
