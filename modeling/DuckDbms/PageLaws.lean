-- The laws of the slotted page. A page means a list of rows, one for each
-- slot of its directory, and the operations do to the rows what their names
-- say as long as directory and tuples keep apart.
import DuckDbms.SlottedPage
import Mathlib.Algebra.BigOperators.Group.List.Basic

open byte_mem

namespace duck.slotted_page

/-! ## The meaning of a page -/

/-- A row is the tuple of a live slot, or `none` for a free one. -/
abbrev Row := Option (List UInt8)

/-- The row that slot `i` of a page holds. -/
def rowOf (d : PageData) (i : Nat) : Row :=
  if (d.slot i).offset = INVALID_SLOT_OFFSET then none
  else some (readBytes d.body (d.slot i).offset (d.slot i).length)

def rowsOf (d : PageData) : List Row := (List.range d.header.slot_count).map (rowOf d)

def rowSize : Row → Nat
  | none => 0
  | some t => t.length

/-- The bytes of the live tuples. -/
def liveBytes (rows : List Row) : Nat := (rows.map rowSize).sum

/-- The bytes that a page needs for its header, its directory and its live tuples. -/
def usedBytes (rows : List Row) : Nat :=
  sizeofPageHeader + rows.length * sizeofSlot + liveBytes rows

/-- Directory and tuples keep apart, and the live tuples keep apart from each other. -/
structure Good (d : PageData) : Prop where
  dir_le : sizeofPageHeader + d.header.slot_count * sizeofSlot ≤ d.header.free_space_offset
  free_le : d.header.free_space_offset ≤ kPAGE_SIZE
  inside : ∀ i < d.header.slot_count, (d.slot i).offset ≠ INVALID_SLOT_OFFSET →
    d.header.free_space_offset ≤ (d.slot i).offset ∧
      (d.slot i).offset + (d.slot i).length ≤ kPAGE_SIZE
  apart : ∀ i < d.header.slot_count, ∀ j < d.header.slot_count, i ≠ j →
    (d.slot i).offset ≠ INVALID_SLOT_OFFSET → (d.slot j).offset ≠ INVALID_SLOT_OFFSET →
    Apart (d.slot i).offset (d.slot i).length (d.slot j).offset (d.slot j).length
  live_le : liveBytes (rowsOf d) + d.header.free_space_offset ≤ kPAGE_SIZE
  unused : d.header.slot_count = 0 → d.header.free_space_offset = kPAGE_SIZE

/-! ## Rows -/

@[simp] theorem length_rowsOf (d : PageData) : (rowsOf d).length = d.header.slot_count := by
  simp [rowsOf]

theorem rowsOf_getElem? (d : PageData) (i : Nat) :
    (rowsOf d)[i]? = if i < d.header.slot_count then some (rowOf d i) else none := by
  unfold rowsOf
  rw [List.getElem?_map]
  split
  · rw [List.getElem?_range ‹_›]; rfl
  · rw [List.getElem?_eq_none (by simp; omega)]; rfl

theorem rowOf_eq_none {d : PageData} {i : Nat} :
    rowOf d i = none ↔ (d.slot i).offset = INVALID_SLOT_OFFSET := by
  unfold rowOf
  split <;> simp_all

theorem rowSize_rowOf (d : PageData) (i : Nat) : rowSize (rowOf d i) =
    if (d.slot i).offset = INVALID_SLOT_OFFSET then 0 else (d.slot i).length := by
  unfold rowOf
  split <;> simp [rowSize]

theorem get_tuple_eq (d : PageData) (i : Nat) :
    get_tuple d i = if i < d.header.slot_count then (rowOf d i).getD [] else [] := by
  unfold get_tuple rowOf
  by_cases h : i < d.header.slot_count
  · rw [if_neg (by omega), if_pos h]
    split <;> rfl
  · rw [if_pos (by omega), if_neg h]

theorem has_slot_eq (d : PageData) (i : Nat) :
    has_slot d i = true ↔ i < d.header.slot_count ∧ rowOf d i ≠ none := by
  unfold has_slot
  rw [ne_eq, rowOf_eq_none]
  simp

/-- A page whose rows are those of another one but for slot `i`. -/
theorem rowsOf_eq_set {d d' : PageData} {i : Nat} {r : Row}
    (hc : d'.header.slot_count = d.header.slot_count) (hi : i < d.header.slot_count)
    (hr : rowOf d' i = r) (ho : ∀ j < d.header.slot_count, j ≠ i → rowOf d' j = rowOf d j) :
    rowsOf d' = (rowsOf d).set i r := by
  apply List.ext_getElem?
  intro j
  rw [rowsOf_getElem?, hc, List.getElem?_set, length_rowsOf]
  by_cases hj : j < d.header.slot_count
  · by_cases hij : i = j
    · subst hij
      simp [hi, hr]
    · rw [if_pos hj, if_neg hij, rowsOf_getElem?, if_pos hj, ho j hj (Ne.symm hij)]
  · have hij : i ≠ j := by omega
    rw [if_neg hj, if_neg hij, rowsOf_getElem?, if_neg hj]

/-- A page whose rows are those of another one and a new one. -/
theorem rowsOf_eq_append {d d' : PageData} {r : Row}
    (hc : d'.header.slot_count = d.header.slot_count + 1)
    (hr : rowOf d' d.header.slot_count = r)
    (ho : ∀ j < d.header.slot_count, rowOf d' j = rowOf d j) :
    rowsOf d' = rowsOf d ++ [r] := by
  unfold rowsOf
  rw [hc, List.range_succ, List.map_append, List.map_singleton, hr]
  congr 1
  apply List.map_congr_left
  intro j hj
  exact ho j (List.mem_range.mp hj)

theorem rowsOf_congr {d d' : PageData} (hc : d'.header.slot_count = d.header.slot_count)
    (ho : ∀ j < d.header.slot_count, rowOf d' j = rowOf d j) : rowsOf d' = rowsOf d := by
  unfold rowsOf
  rw [hc]
  apply List.map_congr_left
  intro j hj
  exact ho j (List.mem_range.mp hj)

theorem liveBytes_append (rows : List Row) (r : Row) :
    liveBytes (rows ++ [r]) = liveBytes rows + rowSize r := by
  simp [liveBytes]

theorem liveBytes_set {rows : List Row} {i : Nat} {old : Row} (h : rows[i]? = some old)
    (r : Row) : liveBytes (rows.set i r) + rowSize old = liveBytes rows + rowSize r := by
  induction rows generalizing i with
  | nil => simp at h
  | cons x xs ih =>
    cases i with
    | zero =>
      obtain rfl : x = old := by simpa using h
      simp only [liveBytes, List.set_cons_zero, List.map_cons, List.sum_cons]
      omega
    | succ i =>
      have := ih (i := i) (by simpa using h)
      simp only [liveBytes, List.set_cons_succ, List.map_cons, List.sum_cons] at this ⊢
      omega

theorem rowSize_le_liveBytes {rows : List Row} {i : Nat} {r : Row} (h : rows[i]? = some r) :
    rowSize r ≤ liveBytes rows := by
  have h1 := liveBytes_set h none
  have h2 : rowSize none = 0 := rfl
  omega

/-! ## Slots and the writes that leave them alone -/

theorem slotAt_apart {i j : Nat} (h : i ≠ j) :
    Apart (PageData.slotAt i) 4 (PageData.slotAt j) 4 := by
  unfold Apart PageData.slotAt sizeofSlot
  omega

@[simp] theorem set_offset_header (d : PageData) (i v : Nat) :
    (d.set_offset i v).header = d.header := rfl

@[simp] theorem set_length_header (d : PageData) (i v : Nat) :
    (d.set_length i v).header = d.header := rfl

theorem slot_congr {d d' : PageData} {i : Nat}
    (h : ∀ a, PageData.slotAt i ≤ a → a < PageData.slotAt i + 4 → d'.body a = d.body a) :
    d'.slot i = d.slot i := by
  unfold PageData.slot
  rw [read16_congr (w := d.body) fun a h1 h2 => h a (by omega) (by omega),
    read16_congr (w := d.body) fun a h1 h2 => h a (by omega) (by omega)]

theorem slot_set_offset (d : PageData) (i j : Nat) {v : Nat} (hv : v < 65536) :
    (d.set_offset i v).slot j = if j = i then ⟨v, (d.slot i).length⟩ else d.slot j := by
  split
  · rename_i h
    subst h
    unfold PageData.slot PageData.set_offset
    rw [read16_write16 _ _ hv, read16_write16_apart (by unfold Apart; omega)]
  · rename_i h
    have := slotAt_apart h
    unfold Apart at this
    exact slot_congr fun a h1 h2 => write16_other (by omega)

theorem slot_set_length (d : PageData) (i j : Nat) {v : Nat} (hv : v < 65536) :
    (d.set_length i v).slot j = if j = i then ⟨(d.slot i).offset, v⟩ else d.slot j := by
  split
  · rename_i h
    subst h
    unfold PageData.slot PageData.set_length
    rw [read16_write16 _ _ hv, read16_write16_apart (by unfold Apart; omega)]
  · rename_i h
    have := slotAt_apart h
    unfold Apart at this
    exact slot_congr fun a h1 h2 => write16_other (by omega)

theorem body_set_offset_other {d : PageData} {i v a : Nat}
    (h : a < PageData.slotAt i ∨ PageData.slotAt i + 4 ≤ a) :
    (d.set_offset i v).body a = d.body a := write16_other (by omega)

theorem body_set_length_other {d : PageData} {i v a : Nat}
    (h : a < PageData.slotAt i ∨ PageData.slotAt i + 4 ≤ a) :
    (d.set_length i v).body a = d.body a := write16_other (by omega)

/-- The directory entry of slot `i` ends where the tuples may start. -/
theorem Good.slotAt_le {d : PageData} (g : Good d) {i : Nat} (h : i < d.header.slot_count) :
    PageData.slotAt i + 4 ≤ d.header.free_space_offset := by
  have := g.dir_le
  unfold PageData.slotAt sizeofSlot at *
  omega

theorem Good.count_lt {d : PageData} (g : Good d) : d.header.slot_count < 2047 := by
  have h1 := g.dir_le
  have h2 := g.free_le
  unfold sizeofPageHeader sizeofSlot kPAGE_SIZE at *
  omega

theorem slot_length_lt (d : PageData) (i : Nat) : (d.slot i).length < 65536 := read16_lt _ _

/-- A row reads the same when its slot and its bytes do. -/
theorem rowOf_congr {d d' : PageData} {i : Nat} (hs : d'.slot i = d.slot i)
    (hb : (d.slot i).offset ≠ INVALID_SLOT_OFFSET → ∀ a, (d.slot i).offset ≤ a →
      a < (d.slot i).offset + (d.slot i).length → d'.body a = d.body a) :
    rowOf d' i = rowOf d i := by
  unfold rowOf
  rw [hs]
  split
  · rfl
  · rename_i h
    rw [readBytes_congr (hb h)]

theorem good_init (d : PageData) : Good (init d) := by
  constructor <;> simp [init, rowsOf, liveBytes, sizeofPageHeader, kPAGE_SIZE]

/-! ## Inserts -/

/-- What an insert does to the rows: it fills a free slot, or a new one at the end. -/
def place (rows : List Row) (i : Nat) (t : List UInt8) : List Row :=
  if i < rows.length then rows.set i (some t) else rows ++ [some t]

/-- The directory has no free slot. -/
def NoFreeSlot (rows : List Row) : Prop := ∀ r ∈ rows, r ≠ none

instance (rows : List Row) : Decidable (NoFreeSlot rows) :=
  inferInstanceAs (Decidable (∀ r ∈ rows, r ≠ none))

theorem noFreeSlot_rowsOf {d : PageData} :
    NoFreeSlot (rowsOf d) ↔ ∀ i < d.header.slot_count, rowOf d i ≠ none := by
  unfold NoFreeSlot rowsOf
  simp

/-- The page on which `fill_slot` works: slot `i` is free, and the tuple fits below the
tuples of `d`. -/
structure Chosen (d d1 : PageData) (i size : Nat) : Prop where
  next : d1.header.next_page_id = d.header.next_page_id
  free : d1.header.free_space_offset = d.header.free_space_offset
  lt : i < d1.header.slot_count
  slot : ∀ j < d1.header.slot_count, j ≠ i → j < d.header.slot_count ∧ d1.slot j = d.slot j
  body : ∀ a, d.header.free_space_offset ≤ a → d1.body a = d.body a
  room : sizeofPageHeader + d1.header.slot_count * sizeofSlot + size ≤ d.header.free_space_offset
  which : (i < d.header.slot_count ∧ rowOf d i = none ∧
      d1.header.slot_count = d.header.slot_count) ∨
    (i = d.header.slot_count ∧ NoFreeSlot (rowsOf d) ∧
      d1.header.slot_count = d.header.slot_count + 1)

theorem find_empty_slot_some {d : PageData} {i : Nat} (h : find_empty_slot d = some i) :
    i < d.header.slot_count ∧ rowOf d i = none := by
  unfold find_empty_slot at h
  have h1 := List.mem_of_find?_eq_some h
  have h2 := List.find?_some h
  exact ⟨List.mem_range.mp h1, rowOf_eq_none.mpr (by simpa using h2)⟩

theorem find_empty_slot_none {d : PageData} (h : find_empty_slot d = none) :
    NoFreeSlot (rowsOf d) := by
  unfold find_empty_slot at h
  rw [noFreeSlot_rowsOf]
  intro i hi
  rw [List.find?_eq_none] at h
  rw [ne_eq, rowOf_eq_none]
  simpa using h i (List.mem_range.mpr hi)

/-- A new slot at the end of the directory. -/
theorem chosen_allocate {d : PageData} {size : Nat} (g : Good d) (hfull : NoFreeSlot (rowsOf d))
    (hroom : sizeofPageHeader + (d.header.slot_count + 1) * sizeofSlot + size ≤
      d.header.free_space_offset) :
    Chosen d (allocate_slot d).2 d.header.slot_count size := by
  have hlt := g.count_lt
  have hcount : (allocate_slot d).2.header.slot_count = d.header.slot_count + 1 := by
    simp only [allocate_slot, set_offset_header]
    omega
  refine ⟨rfl, rfl, by omega, ?_, ?_, by rw [hcount]; exact hroom, Or.inr ⟨rfl, hfull, hcount⟩⟩
  · intro j hj hne
    refine ⟨by omega, ?_⟩
    unfold allocate_slot
    simp only
    rw [slot_set_offset _ _ _ (by decide), if_neg hne]
    rfl
  · intro a ha
    unfold allocate_slot
    simp only
    rw [body_set_offset_other]
    right
    unfold PageData.slotAt sizeofPageHeader sizeofSlot at *
    omega

theorem choose_slot_some {d d1 : PageData} {i size : Nat} {p : Option Nat} (g : Good d)
    (hs : (size : Int) ≤ free_space_bytes d)
    (h : choose_slot d (free_space_bytes d) size p = some (i, d1)) : Chosen d d1 i size := by
  have hold : ∀ {i}, i < d.header.slot_count → rowOf d i = none → Chosen d d i size := by
    intro i hi hr
    refine ⟨rfl, rfl, hi, fun j hj _ => ⟨hj, rfl⟩, fun _ _ => rfl, ?_, Or.inl ⟨hi, hr, rfl⟩⟩
    unfold free_space_bytes at hs
    omega
  unfold choose_slot at h
  split at h
  · rename_i q hq
    cases h
    obtain ⟨_, hq⟩ := Option.filter_eq_some_iff.mp hq
    simp only [decide_eq_true_eq] at hq
    exact hold hq.1 (rowOf_eq_none.mpr hq.2)
  · split at h
    · rename_i q hq
      cases h
      obtain ⟨h1, h2⟩ := find_empty_slot_some hq
      exact hold h1 h2
    · rename_i hno
      split at h
      · cases h
      · rename_i hroom
        cases h
        exact chosen_allocate g (find_empty_slot_none hno) (by
          unfold free_space_bytes at hroom
          unfold sizeofPageHeader sizeofSlot at *
          omega)

theorem choose_slot_none {d : PageData} {size : Nat} {available : Int} {p : Option Nat}
    (h : choose_slot d available size p = none) :
    NoFreeSlot (rowsOf d) ∧ available - size < sizeofSlot := by
  unfold choose_slot at h
  split at h
  · cases h
  · split at h
    · cases h
    · rename_i hno
      split at h
      · exact ⟨find_empty_slot_none hno, ‹_›⟩
      · cases h

/-- The preferred slot is taken when it is free. -/
theorem choose_slot_prefered {d : PageData} {size i : Nat} {available : Int}
    (hi : i < d.header.slot_count) (hr : rowOf d i = none) :
    choose_slot d available size (some i) = some (i, d) := by
  unfold choose_slot
  rw [Option.filter_some, if_pos (by simpa [hi] using rowOf_eq_none.mp hr)]

theorem fill_slot_spec {d d1 : PageData} {i : Nat} {t : List UInt8} (g : Good d)
    (ht : t.length < 65536) (c : Chosen d d1 i t.length) :
    Good (fill_slot d1 i t.length t) ∧
      rowsOf (fill_slot d1 i t.length t) = place (rowsOf d) i t ∧
      (fill_slot d1 i t.length t).header.next_page_id = d.header.next_page_id := by
  obtain ⟨c1, c2, c3, c4, c5, c6, c7⟩ := c
  generalize hd2 : fill_slot d1 i t.length t = d2
  have hfree := g.free_le
  have hk : kPAGE_SIZE = 8192 := rfl
  have hoff : (d1.header.free_space_offset + 65536 - t.length) % 65536 =
      d.header.free_space_offset - t.length := by omega
  have hhead : d2.header = ⟨d.header.next_page_id, d1.header.slot_count,
      d.header.free_space_offset - t.length⟩ := by
    rw [← hd2]
    simp only [fill_slot, set_length_header, set_offset_header, hoff, c1]
  have hslotAt : ∀ j < d1.header.slot_count,
      PageData.slotAt j + 4 ≤ d.header.free_space_offset - t.length := by
    intro j hj
    unfold PageData.slotAt sizeofPageHeader sizeofSlot at *
    omega
  have hbody : d2.body = writeBytes ((d1.set_length i t.length).set_offset i
      (d.header.free_space_offset - t.length)).body (d.header.free_space_offset - t.length) t := by
    rw [← hd2]
    simp only [fill_slot, set_length_header, hoff]
  have hslot : ∀ j < d1.header.slot_count, d2.slot j =
      if j = i then ⟨d.header.free_space_offset - t.length, t.length⟩ else d1.slot j := by
    intro j hj
    have h1 : d2.slot j = ((d1.set_length i t.length).set_offset i
        (d.header.free_space_offset - t.length)).slot j := by
      refine slot_congr fun a _ ha => ?_
      have := hslotAt j hj
      rw [hbody, writeBytes_other (by omega)]
    rw [h1, slot_set_offset _ _ _ (by omega), slot_set_length _ _ _ ht, slot_set_length _ _ _ ht]
    split <;> simp
  have hrow : rowOf d2 i = some t := by
    unfold rowOf
    rw [hslot i c3, if_pos rfl, if_neg, hbody, readBytes_writeBytes]
    have := hslotAt i c3
    unfold INVALID_SLOT_OFFSET
    simp only
    omega
  have hother : ∀ j < d1.header.slot_count, j ≠ i → rowOf d2 j = rowOf d j := by
    intro j hj hne
    obtain ⟨hj', hs⟩ := c4 j hj hne
    have hs2 : d2.slot j = d.slot j := by rw [hslot j hj, if_neg hne, hs]
    refine rowOf_congr hs2 fun hl a h1 h2 => ?_
    have hin := g.inside j hj' hl
    have hi := hslotAt i c3
    rw [hbody, writeBytes_other (by omega), body_set_offset_other (by omega),
      body_set_length_other (by omega), c5 a (by omega)]
  have hrows : rowsOf d2 = place (rowsOf d) i t := by
    unfold place
    rw [length_rowsOf]
    rcases c7 with ⟨h1, _, h3⟩ | ⟨h1, _, h3⟩
    · rw [if_pos h1]
      refine rowsOf_eq_set (by rw [hhead]; exact h3) h1 hrow fun j hj hne => hother j (by omega) hne
    · subst h1
      rw [if_neg (by omega)]
      refine rowsOf_eq_append (by rw [hhead]; exact h3) hrow fun j hj => ?_
      exact hother j (by omega) (by omega)
  refine ⟨⟨?_, ?_, ?_, ?_, ?_, ?_⟩, hrows, by rw [hhead]⟩
  · rw [hhead]
    simp only
    omega
  · rw [hhead]
    simp only
    omega
  · intro j hj hl
    rw [hhead] at hj ⊢
    simp only at hj ⊢
    rw [hslot j hj] at hl ⊢
    split at hl
    · rename_i hji
      simp only [hji, ite_true]
      omega
    · rename_i hji
      obtain ⟨hj', hs⟩ := c4 j hj hji
      rw [hs] at hl
      have := g.inside j hj' hl
      rw [if_neg hji, hs]
      omega
  · intro j hj k hk' hne hl hl'
    rw [hhead] at hj hk'
    simp only at hj hk'
    rw [hslot j hj] at hl ⊢
    rw [hslot k hk'] at hl' ⊢
    -- the new tuple stands below every other one
    by_cases hji : j = i
    · have hki : k ≠ i := fun h => hne (hji.trans h.symm)
      rw [if_neg hki] at hl' ⊢
      rw [if_pos hji]
      obtain ⟨hk2, hs⟩ := c4 k hk' hki
      rw [hs] at hl' ⊢
      have := g.inside k hk2 hl'
      left
      simp only
      omega
    · rw [if_neg hji] at hl ⊢
      obtain ⟨hj2, hs⟩ := c4 j hj hji
      rw [hs] at hl ⊢
      by_cases hki : k = i
      · rw [if_pos hki]
        have := g.inside j hj2 hl
        right
        simp only
        omega
      · rw [if_neg hki] at hl' ⊢
        obtain ⟨hk2, hs'⟩ := c4 k hk' hki
        rw [hs'] at hl' ⊢
        exact g.apart j hj2 k hk2 hne hl hl'
  · have hlive := g.live_le
    have hpl : liveBytes (place (rowsOf d) i t) = liveBytes (rowsOf d) + t.length := by
      unfold place
      rw [length_rowsOf]
      rcases c7 with ⟨h1, h2, _⟩ | ⟨h1, _, _⟩
      · rw [if_pos h1]
        have h3 := liveBytes_set (i := i) (r := some t) (by rw [rowsOf_getElem?, if_pos h1, h2])
        have h4 : rowSize none = 0 := rfl
        have h5 : rowSize (some t) = t.length := rfl
        omega
      · rw [if_neg (by omega), liveBytes_append]
        rfl
    rw [hrows, hpl, hhead]
    simp only
    omega
  · rw [hhead]
    simp only
    omega

/-- The slot that an insert may take: a free one, or a new one when there is none. -/
def MayTake (rows : List Row) (i : Nat) : Prop :=
  rows[i]? = some none ∨ (i = rows.length ∧ NoFreeSlot rows)

/-- The bytes that an insert of `n` bytes takes from the free space. -/
def need (rows : List Row) (n : Nat) : Nat := n + if NoFreeSlot rows then sizeofSlot else 0

theorem insert_tuple_spec {d : PageData} {t : List UInt8} (g : Good d) (ht : t.length < 65536)
    (p : Option Nat) :
    (∃ i, (insert_tuple d t p).1 = some i ∧ Good (insert_tuple d t p).2 ∧
      rowsOf (insert_tuple d t p).2 = place (rowsOf d) i t ∧
      (insert_tuple d t p).2.header.next_page_id = d.header.next_page_id ∧
      MayTake (rowsOf d) i ∧ (need (rowsOf d) t.length : Int) ≤ free_space_bytes d) ∨
    (insert_tuple d t p = (none, d) ∧ free_space_bytes d < need (rowsOf d) t.length) := by
  have hmod : t.length % 65536 = t.length := Nat.mod_eq_of_lt ht
  unfold insert_tuple
  simp only [hmod]
  split
  · rename_i hlt
    refine Or.inr ⟨rfl, ?_⟩
    unfold need
    omega
  · rename_i hge
    rcases hc : choose_slot d (free_space_bytes d) t.length p with _ | ⟨i, d1⟩
    · obtain ⟨h1, h2⟩ := choose_slot_none hc
      refine Or.inr ⟨rfl, ?_⟩
      unfold need
      rw [if_pos h1]
      push_cast
      omega
    · have c := choose_slot_some g (by omega) hc
      obtain ⟨h1, h2, h3⟩ := fill_slot_spec g ht c
      refine Or.inl ⟨i, rfl, h1, h2, h3, ?_, ?_⟩
      · rcases c.which with ⟨w1, w2, _⟩ | ⟨w1, w2, _⟩
        · left
          rw [rowsOf_getElem?, if_pos w1, w2]
        · exact Or.inr ⟨by rw [length_rowsOf, w1], w2⟩
      · have hroom := c.room
        unfold need free_space_bytes
        rcases c.which with ⟨w1, w2, w3⟩ | ⟨_, w2, w3⟩
        · rw [if_neg fun hf => noFreeSlot_rowsOf.mp hf i w1 w2]
          rw [w3] at hroom
          omega
        · rw [if_pos w2]
          rw [w3, Nat.add_mul] at hroom
          push_cast at *
          omega

/-- An insert with a preferred slot that is free takes it. -/
theorem insert_tuple_prefered {d : PageData} {t : List UInt8} {i : Nat}
    (ht : t.length < 65536) (hi : i < d.header.slot_count) (hr : rowOf d i = none)
    (hroom : (t.length : Int) ≤ free_space_bytes d) :
    (insert_tuple d t (some i)).1 = some i := by
  unfold insert_tuple
  simp only [Nat.mod_eq_of_lt ht]
  rw [if_neg (by omega), choose_slot_prefered hi hr]

/-! ## Updates in place and deletes -/

theorem try_update_in_place_spec {d : PageData} (rid : RID) {t : List UInt8} (g : Good d)
    (ht : t.length < 65536) :
    (∃ old, (rowsOf d)[rid.slot_num]? = some (some old) ∧ t.length ≤ old.length ∧
      (try_update_in_place d rid t).1 = true ∧ Good (try_update_in_place d rid t).2 ∧
      rowsOf (try_update_in_place d rid t).2 = (rowsOf d).set rid.slot_num (some t) ∧
      (try_update_in_place d rid t).2.header = d.header) ∨
    (try_update_in_place d rid t = (false, d) ∧
      ∀ old, (rowsOf d)[rid.slot_num]? = some (some old) → old.length < t.length) := by
  unfold try_update_in_place
  split
  · rename_i hge
    refine Or.inr ⟨rfl, fun old h => ?_⟩
    rw [rowsOf_getElem?, if_neg (by omega)] at h
    cases h
  · rename_i hlt
    generalize hi : rid.slot_num = i at *
    have hi' : i < d.header.slot_count := by omega
    simp only [Nat.mod_eq_of_lt ht]
    split
    · rename_i hfree
      refine Or.inr ⟨rfl, fun old h => ?_⟩
      rw [rowsOf_getElem?, if_pos hi', rowOf_eq_none.mpr hfree] at h
      cases h
    · rename_i hlive
      have hrow : rowOf d i = some (readBytes d.body (d.slot i).offset (d.slot i).length) := by
        unfold rowOf
        rw [if_neg hlive]
      split
      · rename_i hbig
        refine Or.inr ⟨rfl, fun old h => ?_⟩
        rw [rowsOf_getElem?, if_pos hi', hrow] at h
        cases h
        rw [length_readBytes]
        omega
      · rename_i hfit
        left
        generalize hd2 : PageData.set_length { d with body := writeBytes d.body (d.slot i).offset t }
          i t.length = d2
        have hin := g.inside i hi' hlive
        have hdir := @Good.slotAt_le d g
        have hhead : d2.header = d.header := by rw [← hd2]; rfl
        have hbody : ∀ a, d.header.free_space_offset ≤ a →
            a < (d.slot i).offset ∨ (d.slot i).offset + (d.slot i).length ≤ a →
            d2.body a = d.body a := by
          intro a ha h
          have := hdir hi'
          rw [← hd2, body_set_length_other (by omega)]
          exact writeBytes_other (by omega)
        have hslot1 : ∀ j < d.header.slot_count,
            PageData.slot { d with body := writeBytes d.body (d.slot i).offset t } j = d.slot j := by
          intro j hj
          have := hdir hj
          exact slot_congr fun a _ h => writeBytes_other (by omega)
        have hslot : ∀ j < d.header.slot_count, d2.slot j =
            if j = i then ⟨(d.slot i).offset, t.length⟩ else d.slot j := by
          intro j hj
          rw [← hd2, slot_set_length _ _ _ ht, hslot1 i hi', hslot1 j hj]
        have hnew : rowOf d2 i = some t := by
          unfold rowOf
          rw [hslot i hi', if_pos rfl, if_neg hlive]
          have hd := hdir hi'
          simp only [Option.some.injEq]
          rw [← hd2]
          rw [readBytes_congr (w := writeBytes d.body (d.slot i).offset t)]
          · exact readBytes_writeBytes _ _ _
          · intro a h1 h2
            exact body_set_length_other (by omega)
        have hother : ∀ j < d.header.slot_count, j ≠ i → rowOf d2 j = rowOf d j := by
          intro j hj hne
          have hs : d2.slot j = d.slot j := by rw [hslot j hj, if_neg hne]
          refine rowOf_congr hs fun hl a h1 h2 => hbody a ?_ ?_
          · have := g.inside j hj hl
            omega
          · have := g.apart i hi' j hj (Ne.symm hne) hlive hl
            unfold Apart at this
            omega
        have hrows : rowsOf d2 = (rowsOf d).set i (some t) :=
          rowsOf_eq_set (by rw [hhead]) hi' hnew hother
        have hget : (rowsOf d)[i]? =
            some (some (readBytes d.body (d.slot i).offset (d.slot i).length)) := by
          rw [rowsOf_getElem?, if_pos hi', hrow]
        refine ⟨_, hget, by rw [length_readBytes]; omega, rfl, ⟨?_, ?_, ?_, ?_, ?_, ?_⟩, hrows,
          hhead⟩
        · rw [hhead]; exact g.dir_le
        · rw [hhead]; exact g.free_le
        · intro j hj hl
          rw [hhead] at hj ⊢
          rw [hslot j hj] at hl ⊢
          split
          · exact ⟨hin.1, by simp only; omega⟩
          · rename_i hne
            rw [if_neg hne] at hl
            exact g.inside j hj hl
        · intro j hj k hk hne hl hl'
          rw [hhead] at hj hk
          have hlj : (d.slot j).offset ≠ INVALID_SLOT_OFFSET := by
            rw [hslot j hj] at hl
            split at hl
            · rename_i h; rw [h]; exact hl
            · exact hl
          have hlk : (d.slot k).offset ≠ INVALID_SLOT_OFFSET := by
            rw [hslot k hk] at hl'
            split at hl'
            · rename_i h; rw [h]; exact hl'
            · exact hl'
          have hap := g.apart j hj k hk hne hlj hlk
          rw [hslot j hj, hslot k hk]
          unfold Apart at hap ⊢
          by_cases hji : j = i
          · subst hji
            rw [if_pos rfl, if_neg (Ne.symm hne)]
            simp only
            omega
          · rw [if_neg hji]
            split
            · rename_i hki
              subst hki
              simp only
              omega
            · exact hap
        · have hlive' := g.live_le
          have hsum := liveBytes_set hget (some t)
          have h1 : rowSize (some t) = t.length := rfl
          have h2 : rowSize (some (readBytes d.body (d.slot i).offset (d.slot i).length)) =
              (d.slot i).length := length_readBytes _ _ _
          rw [hrows, hhead]
          omega
        · rw [hhead]; exact g.unused

theorem delete_tuple_spec {d : PageData} (g : Good d) (i : Nat) :
    (∃ old, (rowsOf d)[i]? = some (some old) ∧ (delete_tuple d i).1 = true ∧
      Good (delete_tuple d i).2 ∧ rowsOf (delete_tuple d i).2 = (rowsOf d).set i none ∧
      (delete_tuple d i).2.header = d.header) ∨
    (delete_tuple d i = (false, d) ∧ ∀ old, (rowsOf d)[i]? ≠ some (some old)) := by
  unfold delete_tuple
  split
  · refine Or.inr ⟨rfl, fun old h => ?_⟩
    rw [rowsOf_getElem?, if_neg (by omega)] at h
    cases h
  · rename_i hlt
    have hi : i < d.header.slot_count := by omega
    split
    · rename_i hfree
      refine Or.inr ⟨rfl, fun old h => ?_⟩
      rw [rowsOf_getElem?, if_pos hi, rowOf_eq_none.mpr hfree] at h
      cases h
    · rename_i hlive
      left
      generalize hd2 : d.set_offset i INVALID_SLOT_OFFSET = d2
      have hhead : d2.header = d.header := by rw [← hd2]; rfl
      have hslot : ∀ j, d2.slot j = if j = i then ⟨0, (d.slot i).length⟩ else d.slot j := by
        intro j
        rw [← hd2, slot_set_offset _ _ _ (by decide)]
        rfl
      have hlive_of : ∀ j, (d2.slot j).offset ≠ INVALID_SLOT_OFFSET →
          j ≠ i ∧ (d.slot j).offset ≠ INVALID_SLOT_OFFSET ∧ d2.slot j = d.slot j := by
        intro j hl
        rw [hslot j] at hl ⊢
        split at hl
        · exact absurd rfl hl
        · rename_i hne
          exact ⟨hne, hl, by rw [if_neg hne]⟩
      have hnew : rowOf d2 i = none := by
        rw [rowOf_eq_none, hslot i, if_pos rfl]
        rfl
      have hother : ∀ j < d.header.slot_count, j ≠ i → rowOf d2 j = rowOf d j := by
        intro j hj hne
        refine rowOf_congr (by rw [hslot j, if_neg hne]) fun hl a h1 h2 => ?_
        have := g.inside j hj hl
        have := g.slotAt_le hi
        rw [← hd2]
        exact body_set_offset_other (by omega)
      have hrows : rowsOf d2 = (rowsOf d).set i none :=
        rowsOf_eq_set (by rw [hhead]) hi hnew hother
      have hget : (rowsOf d)[i]? =
          some (some (readBytes d.body (d.slot i).offset (d.slot i).length)) := by
        rw [rowsOf_getElem?, if_pos hi]
        unfold rowOf
        rw [if_neg hlive]
      refine ⟨_, hget, rfl, ⟨?_, ?_, ?_, ?_, ?_, ?_⟩, hrows, hhead⟩
      · rw [hhead]; exact g.dir_le
      · rw [hhead]; exact g.free_le
      · intro j hj hl
        obtain ⟨_, hl', hs⟩ := hlive_of j hl
        rw [hhead] at hj ⊢
        rw [hs]
        exact g.inside j hj hl'
      · intro j hj k hk hne hl hl'
        obtain ⟨_, h1, h2⟩ := hlive_of j hl
        obtain ⟨_, h3, h4⟩ := hlive_of k hl'
        rw [hhead] at hj hk
        rw [h2, h4]
        exact g.apart j hj k hk hne h1 h3
      · have := g.live_le
        have hsum := liveBytes_set hget none
        have h1 : rowSize none = 0 := rfl
        rw [hrows, hhead]
        omega
      · rw [hhead]; exact g.unused

/-! ## Tuples whose size does not fit -/

/-- The pages have the same header, and the same bytes below the tuples. -/
def SameBelow (d d' : PageData) : Prop :=
  d'.header = d.header ∧ ∀ a < d.header.free_space_offset, d'.body a = d.body a

theorem sameBelow_refl (d : PageData) : SameBelow d d := ⟨rfl, fun _ _ => rfl⟩

/-- What is written over the tuples leaves the directory alone. -/
theorem Good.sameBelow {d d' : PageData} (g : Good d) (h : SameBelow d d') : Good d' := by
  obtain ⟨hhead, hbody⟩ := h
  have hslot : ∀ i < d.header.slot_count, d'.slot i = d.slot i := by
    intro i hi
    apply slot_congr
    intro a _ ha
    have := g.slotAt_le hi
    exact hbody a (by omega)
  have hsize : (rowsOf d').map rowSize = (rowsOf d).map rowSize := by
    unfold rowsOf
    rw [hhead, List.map_map, List.map_map]
    apply List.map_congr_left
    intro i hi
    have hs := hslot i (List.mem_range.mp hi)
    simp only [Function.comp_apply, rowSize_rowOf, hs]
  refine ⟨?_, ?_, ?_, ?_, ?_, ?_⟩
  · rw [hhead]; exact g.dir_le
  · rw [hhead]; exact g.free_le
  · rw [hhead]
    intro i hi
    rw [hslot i hi]
    exact g.inside i hi
  · rw [hhead]
    intro i hi j hj
    rw [hslot i hi, hslot j hj]
    exact g.apart i hi j hj
  · have := g.live_le
    unfold liveBytes at this ⊢
    rw [hsize, hhead]
    exact this
  · rw [hhead]; exact g.unused

/-- The part of a tuple that its size, cut to 16 bits, is the size of. -/
def cutTuple (t : List UInt8) : List UInt8 := t.take (t.length % 65536)

@[simp] theorem length_cutTuple (t : List UInt8) : (cutTuple t).length = t.length % 65536 := by
  unfold cutTuple
  rw [List.length_take]
  exact Nat.min_eq_left (Nat.mod_le _ _)

theorem length_cutTuple_lt (t : List UInt8) : (cutTuple t).length < 65536 := by
  rw [length_cutTuple]
  exact Nat.mod_lt _ (by omega)

theorem insert_tuple_cut (d : PageData) (t : List UInt8) (p : Option Nat) :
    (insert_tuple d t p).1 = (insert_tuple d (cutTuple t) p).1 ∧
      SameBelow (insert_tuple d (cutTuple t) p).2 (insert_tuple d t p).2 := by
  unfold insert_tuple
  simp only [length_cutTuple, Nat.mod_mod]
  split
  · exact ⟨rfl, sameBelow_refl d⟩
  · rcases choose_slot d (free_space_bytes d) (t.length % 65536) p with _ | ⟨i, d1⟩
    · exact ⟨rfl, sameBelow_refl d⟩
    · refine ⟨rfl, rfl, fun a ha => ?_⟩
      exact (writeBytes_other (Or.inl ha)).trans (writeBytes_other (Or.inl ha)).symm

theorem try_update_in_place_cut {d : PageData} (g : Good d) (rid : RID) (t : List UInt8) :
    (try_update_in_place d rid t).1 = (try_update_in_place d rid (cutTuple t)).1 ∧
      SameBelow (try_update_in_place d rid (cutTuple t)).2 (try_update_in_place d rid t).2 := by
  unfold try_update_in_place
  simp only [length_cutTuple, Nat.mod_mod]
  split
  · exact ⟨rfl, sameBelow_refl d⟩
  split
  · exact ⟨rfl, sameBelow_refl d⟩
  rename_i hlt hlive
  split
  · exact ⟨rfl, sameBelow_refl d⟩
  · refine ⟨rfl, rfl, fun a ha => ?_⟩
    have hin := (g.inside _ (by omega) hlive).1
    have hle : a < d.header.free_space_offset := ha
    have hsame : ∀ bs, writeBytes d.body (d.slot rid.slot_num).offset bs a = d.body a :=
      fun bs => writeBytes_other (by omega)
    unfold PageData.set_length write16
    simp only [hsame]

/-- An update that finds no place writes nothing. -/
theorem try_update_in_place_eq {d : PageData} {rid : RID} {t : List UInt8}
    (h : (try_update_in_place d rid t).1 = false) : try_update_in_place d rid t = (false, d) := by
  unfold try_update_in_place at h ⊢
  split
  · rfl
  rename_i hlt
  rw [if_neg hlt] at h
  simp only at h ⊢
  split
  · rfl
  rename_i hlive
  rw [if_neg hlive] at h
  split
  · rfl
  · rename_i hfit
    rw [if_neg hfit] at h
    cases h

end duck.slotted_page
