-- Compaction: it moves the live tuples to the end of the page, keeps every
-- row, and leaves all the other bytes free. A restore makes room with it.
import DuckDbms.PageLaws

open byte_mem

namespace duck.slotted_page

/-! ## The loop of `compact` -/

/-- The live bytes of the first `n` slots. -/
def liveUpTo (d : PageData) (n : Nat) : Nat := liveBytes ((rowsOf d).take n)

theorem liveUpTo_succ {d : PageData} {n : Nat} (h : n < d.header.slot_count) :
    liveUpTo d (n + 1) = liveUpTo d n + rowSize (rowOf d n) := by
  unfold liveUpTo
  rw [List.take_add_one, rowsOf_getElem?, if_pos h]
  exact liveBytes_append _ _

theorem liveUpTo_mono {d : PageData} {n m : Nat} (h : n ≤ m) : liveUpTo d n ≤ liveUpTo d m := by
  unfold liveUpTo liveBytes
  obtain ⟨k, rfl⟩ := Nat.exists_eq_add_of_le h
  rw [List.take_add, List.map_append, List.sum_append]
  omega

theorem liveUpTo_count (d : PageData) :
    liveUpTo d d.header.slot_count = liveBytes (rowsOf d) := by
  unfold liveUpTo
  rw [List.take_of_length_le (by simp)]

/-- The entry that `compact` makes for slot `i`. -/
def compactedSlot (d : PageData) (i : Nat) : Slot :=
  if (d.slot i).offset = INVALID_SLOT_OFFSET then ⟨INVALID_SLOT_OFFSET, 0⟩
  else ⟨kPAGE_SIZE - liveUpTo d (i + 1), (d.slot i).length⟩

/-- What the loop has built after `n` slots: they are laid out downwards from the end of
the page, in slot order. -/
structure CompactedUpTo (d : PageData) (n : Nat) (c : Compacted) : Prop where
  offset : c.offset = kPAGE_SIZE - liveUpTo d n
  slots : c.compacted_slots = (List.range n).map (compactedSlot d)
  bytes : ∀ i < n, (d.slot i).offset ≠ INVALID_SLOT_OFFSET →
    readBytes c.compacted (kPAGE_SIZE - liveUpTo d (i + 1)) (d.slot i).length =
      readBytes d.body (d.slot i).offset (d.slot i).length

theorem Good.liveUpTo_le {d : PageData} (g : Good d) {n : Nat} (h : n ≤ d.header.slot_count) :
    liveUpTo d n + sizeofPageHeader ≤ kPAGE_SIZE := by
  have h1 := liveUpTo_mono (d := d) h
  rw [liveUpTo_count] at h1
  have h2 := g.live_le
  have h3 := g.dir_le
  omega

theorem compact_step_spec {d : PageData} {n : Nat} {c : Compacted} (g : Good d)
    (hn : n < d.header.slot_count) (h : CompactedUpTo d n c) :
    CompactedUpTo d (n + 1) (compact_step d c n) := by
  obtain ⟨h1, h2, h3⟩ := h
  have hsucc := liveUpTo_succ hn
  have hle := g.liveUpTo_le (show n + 1 ≤ d.header.slot_count from hn)
  have hk : kPAGE_SIZE = 8192 := rfl
  rw [rowSize_rowOf] at hsucc
  unfold compact_step
  simp only
  split
  · rename_i hfree
    rw [if_pos hfree] at hsucc
    refine ⟨?_, ?_, ?_⟩
    · simp only [h1, hsucc, Nat.add_zero]
    · simp only [h2, List.range_succ, List.map_append, List.map_singleton, compactedSlot, hfree,
        ite_true]
    · intro i hi hl
      have hne : i ≠ n := fun he => hl (he ▸ hfree)
      exact h3 i (by omega) hl
  · rename_i hlive
    rw [if_neg hlive] at hsucc
    have hoff : (c.offset + 65536 - (d.slot n).length) % 65536 =
        kPAGE_SIZE - liveUpTo d (n + 1) := by
      have := slot_length_lt d n
      omega
    refine ⟨hoff, ?_, ?_⟩
    · simp only [h2, List.range_succ, List.map_append, List.map_singleton, compactedSlot, hlive,
        ite_false, hoff]
    · intro i hi hl
      simp only [hoff]
      by_cases hin : i = n
      · subst hin
        have := readBytes_writeBytes c.compacted (kPAGE_SIZE - liveUpTo d (i + 1))
          (readBytes d.body (d.slot i).offset (d.slot i).length)
        rwa [length_readBytes] at this
      · -- an earlier tuple stands above the new one
        have hm := liveUpTo_mono (d := d) (show i + 1 ≤ n by omega)
        rw [readBytes_writeBytes_apart, h3 i (by omega) hl]
        rw [length_readBytes]
        unfold Apart
        omega

theorem compact_loop_spec {d : PageData} (g : Good d) (n : Nat) (hn : n ≤ d.header.slot_count) :
    CompactedUpTo d n
      ((List.range n).foldl (compact_step d) ⟨kPAGE_SIZE, [], fun _ => 0⟩) := by
  induction n with
  | zero =>
    refine ⟨?_, rfl, fun i hi => absurd hi (by omega)⟩
    simp [liveUpTo, liveBytes]
  | succ n ih =>
    rw [List.range_succ, List.foldl_append]
    exact compact_step_spec g (by omega) (ih (by omega))

/-- The directory that `put_slots` writes. -/
theorem slot_put_slots (ss : List Slot) (h : PageHeader) (m : ByteMem) (k j : Nat)
    (hs : ∀ s ∈ ss, s.offset < 65536 ∧ s.length < 65536) :
    PageData.slot ⟨h, put_slots m k ss⟩ j =
      if k ≤ j then (ss[j - k]?).getD (PageData.slot ⟨h, m⟩ j) else PageData.slot ⟨h, m⟩ j := by
  induction ss generalizing m k with
  | nil => simp [put_slots]
  | cons s rest ih =>
    obtain ⟨hs1, hs2⟩ := hs s (by simp)
    unfold put_slots
    rw [ih _ _ fun t ht => hs t (by simp [ht])]
    have hput : PageData.slot ⟨h, write16 (write16 m (PageData.slotAt k) s.offset)
        (PageData.slotAt k + 2) s.length⟩ j = if j = k then s else PageData.slot ⟨h, m⟩ j := by
      have h1 := slot_set_length (PageData.set_offset ⟨h, m⟩ k s.offset) k j hs2
      rw [slot_set_offset _ _ _ hs1, slot_set_offset _ _ _ hs1] at h1
      rw [if_pos rfl] at h1
      unfold PageData.set_length PageData.set_offset at h1
      simp only at h1
      rw [h1]
      split <;> rfl
    rw [hput]
    by_cases hlt : j < k
    · rw [if_neg (by omega), if_neg (by omega), if_neg (by omega)]
    · rw [if_pos (show k ≤ j by omega)]
      by_cases he : j = k
      · subst he
        rw [if_neg (by omega), if_pos rfl, Nat.sub_self]
        rfl
      · rw [if_pos (by omega), if_neg he]
        have hsub : j - k = (j - (k + 1)) + 1 := by omega
        rw [hsub, List.getElem?_cons_succ]

/-- The directory of a compacted page. -/
theorem slot_compact {d : PageData} (g : Good d) {j : Nat} (hj : j < d.header.slot_count) :
    (compact d).slot j = compactedSlot d j := by
  have hloop := compact_loop_spec g _ (Nat.le_refl _)
  unfold compact
  simp only
  generalize (List.range d.header.slot_count).foldl (compact_step d)
    ⟨kPAGE_SIZE, [], fun _ => 0⟩ = c at hloop
  obtain ⟨h1, h2, _⟩ := hloop
  rw [liveUpTo_count] at h1
  have hlive := g.live_le
  have hdir := g.dir_le
  have hat := g.slotAt_le hj
  have hdirpart : PageData.slot ⟨{ d.header with free_space_offset := c.offset },
      writeBytes (put_slots (fun _ => 0) 0 c.compacted_slots) c.offset
        (readBytes c.compacted c.offset (kPAGE_SIZE - c.offset))⟩ j = PageData.slot
      ⟨{ d.header with free_space_offset := c.offset }, put_slots (fun _ => 0) 0 c.compacted_slots⟩ j := by
    refine slot_congr fun a _ ha => ?_
    exact writeBytes_other (by omega)
  rw [hdirpart, slot_put_slots]
  · rw [if_pos (Nat.zero_le _), h2, Nat.sub_zero, List.getElem?_map, List.getElem?_range hj]
    rfl
  · intro s hs
    rw [h2] at hs
    obtain ⟨i, _, rfl⟩ := List.mem_map.mp hs
    unfold compactedSlot
    split
    · exact ⟨by decide, by simp⟩
    · have hk : kPAGE_SIZE = 8192 := rfl
      exact ⟨by simp only; omega, slot_length_lt d i⟩

/-- Where `compact` puts a live tuple: it ends where the tuple before it begins. -/
theorem compactedSlot_place {d : PageData} (g : Good d) {j : Nat} (hj : j < d.header.slot_count)
    (hl : (d.slot j).offset ≠ INVALID_SLOT_OFFSET) :
    (compactedSlot d j).length = (d.slot j).length ∧
    (compactedSlot d j).offset + liveUpTo d (j + 1) = kPAGE_SIZE ∧
    liveUpTo d j + (d.slot j).length = liveUpTo d (j + 1) ∧
    liveUpTo d (j + 1) ≤ liveBytes (rowsOf d) ∧
    (compactedSlot d j).offset ≠ INVALID_SLOT_OFFSET := by
  have hle := g.liveUpTo_le (show j + 1 ≤ d.header.slot_count from hj)
  have hm := liveUpTo_mono (d := d) (show j + 1 ≤ d.header.slot_count from hj)
  rw [liveUpTo_count] at hm
  have hsucc := liveUpTo_succ hj
  rw [rowSize_rowOf, if_neg hl] at hsucc
  unfold compactedSlot
  rw [if_neg hl]
  unfold INVALID_SLOT_OFFSET
  unfold sizeofPageHeader at hle
  simp only
  refine ⟨trivial, ?_, hsucc.symm, hm, ?_⟩ <;> omega

/-- A later tuple lies below an earlier one. -/
theorem compactedSlot_below {d : PageData} (g : Good d) {i j : Nat} (hij : i < j)
    (hi : i < d.header.slot_count) (hj : j < d.header.slot_count)
    (hli : (d.slot i).offset ≠ INVALID_SLOT_OFFSET)
    (hlj : (d.slot j).offset ≠ INVALID_SLOT_OFFSET) :
    (compactedSlot d j).offset + (compactedSlot d j).length ≤ (compactedSlot d i).offset := by
  obtain ⟨_, hi2, _⟩ := compactedSlot_place g hi hli
  obtain ⟨hj1, hj2, hj3, _⟩ := compactedSlot_place g hj hlj
  have := liveUpTo_mono (d := d) (show i + 1 ≤ j from hij)
  omega

theorem compact_spec {d : PageData} (g : Good d) :
    Good (compact d) ∧ rowsOf (compact d) = rowsOf d ∧
      (compact d).header = { d.header with free_space_offset := kPAGE_SIZE - liveBytes (rowsOf d) } := by
  have hloop := compact_loop_spec g _ (Nat.le_refl _)
  have hslot : ∀ j < d.header.slot_count, (compact d).slot j = compactedSlot d j :=
    fun j hj => slot_compact g hj
  unfold compact at hslot ⊢
  simp only at hslot ⊢
  generalize (List.range d.header.slot_count).foldl (compact_step d)
    ⟨kPAGE_SIZE, [], fun _ => 0⟩ = c at hloop hslot ⊢
  obtain ⟨h1, _, h3⟩ := hloop
  rw [liveUpTo_count] at h1
  generalize hd2 : (⟨{ d.header with free_space_offset := c.offset },
    writeBytes (put_slots (fun _ => 0) 0 c.compacted_slots) c.offset
      (readBytes c.compacted c.offset (kPAGE_SIZE - c.offset))⟩ : PageData) = d2 at hslot ⊢
  have hlive := g.live_le
  have hdir := g.dir_le
  have hcount : d2.header.slot_count = d.header.slot_count := by rw [← hd2]
  have hfree : d2.header.free_space_offset = c.offset := by rw [← hd2]
  have hlive_iff : ∀ j < d.header.slot_count, ((d2.slot j).offset = INVALID_SLOT_OFFSET ↔
      (d.slot j).offset = INVALID_SLOT_OFFSET) := by
    intro j hj
    rw [hslot j hj]
    by_cases hl : (d.slot j).offset = INVALID_SLOT_OFFSET
    · unfold compactedSlot
      simp [hl]
    · obtain ⟨_, _, _, _, hvalid⟩ := compactedSlot_place g hj hl
      simp only [hvalid, hl]
  have hrow : ∀ j < d.header.slot_count, rowOf d2 j = rowOf d j := by
    intro j hj
    unfold rowOf
    simp only [hlive_iff j hj]
    split
    · rfl
    · rename_i hl
      obtain ⟨hlen, hend, hnext, hm, _⟩ := compactedSlot_place g hj hl
      have hoff : (compactedSlot d j).offset = kPAGE_SIZE - liveUpTo d (j + 1) := by omega
      rw [hslot j hj, hlen, hoff, ← h3 j hj hl, ← hd2]
      exact congrArg some (readBytes_writeBytes_readBytes (by omega) (by omega))
  have hrows : rowsOf d2 = rowsOf d := rowsOf_congr hcount hrow
  refine ⟨⟨?_, ?_, ?_, ?_, ?_, ?_⟩, hrows, by rw [h1]⟩
  · rw [hcount, hfree]
    omega
  · rw [hfree]
    omega
  · intro j hj hl
    rw [hcount] at hj
    have hl' := fun h => hl ((hlive_iff j hj).mpr h)
    obtain ⟨hlen, hend, hnext, hm, _⟩ := compactedSlot_place g hj hl'
    rw [hslot j hj, hfree, hlen]
    omega
  · intro i hi j hj hne hli hlj
    rw [hcount] at hi hj
    have hli' := fun h => hli ((hlive_iff i hi).mpr h)
    have hlj' := fun h => hlj ((hlive_iff j hj).mpr h)
    rw [hslot i hi, hslot j hj]
    rcases Nat.lt_or_gt_of_ne hne with h | h
    · exact Or.inr (compactedSlot_below g h hi hj hli' hlj')
    · exact Or.inl (compactedSlot_below g h hj hi hlj' hli')
  · rw [hrows, hfree]
    omega
  · intro h0
    rw [hcount] at h0
    have hzero : liveBytes (rowsOf d) = 0 := by
      unfold rowsOf
      rw [h0]
      rfl
    rw [hfree]
    omega

/-- A compacted page has all the bytes free that its rows do not use. -/
theorem free_space_bytes_compact {d : PageData} (g : Good d) :
    free_space_bytes (compact d) = kPAGE_SIZE - usedBytes (rowsOf d) := by
  obtain ⟨_, _, h⟩ := compact_spec g
  have hl := g.live_le
  unfold free_space_bytes usedBytes
  rw [h, length_rowsOf]
  push_cast
  omega

/-- A page never has more free bytes than its compacted form. -/
theorem free_space_bytes_le {d : PageData} (g : Good d) :
    free_space_bytes d ≤ kPAGE_SIZE - usedBytes (rowsOf d) := by
  have hl := g.live_le
  unfold free_space_bytes usedBytes
  rw [length_rowsOf]
  push_cast
  omega

theorem usedBytes_le {d : PageData} (g : Good d) : usedBytes (rowsOf d) ≤ kPAGE_SIZE := by
  have hl := g.live_le
  have hd := g.dir_le
  unfold usedBytes
  rw [length_rowsOf]
  omega

/-- The `is_compacted` and `compact` of an update or an insert change no row. -/
theorem compacted_spec {d : PageData} (g : Good d) :
    Good (if is_compacted d then d else compact d) ∧
      rowsOf (if is_compacted d then d else compact d) = rowsOf d ∧
      (if is_compacted d then d else compact d).header.next_page_id = d.header.next_page_id := by
  split
  · exact ⟨g, rfl, rfl⟩
  · obtain ⟨h1, h2, h3⟩ := compact_spec g
    exact ⟨h1, h2, by rw [h3]⟩

/-- The link of a page is not part of its layout. -/
theorem good_set_next_page {d : PageData} (p : PageID) : Good (set_next_page d p) ↔ Good d :=
  ⟨fun g => ⟨g.dir_le, g.free_le, g.inside, g.apart, g.live_le, g.unused⟩,
    fun g => ⟨g.dir_le, g.free_le, g.inside, g.apart, g.live_le, g.unused⟩⟩

/-! ## Restores -/

/-- A restore runs into no assertion exactly when its slot is free and the page has room
for the tuple next to its rows; then it puts the tuple into its slot. -/
theorem restore_tuple_spec {d : PageData} {t : List UInt8} (g : Good d) (ht : t.length < 65536)
    (i : Nat) :
    (∃ d', restore_tuple d i t = some d' ∧ Good d' ∧ rowsOf d' = (rowsOf d).set i (some t) ∧
      d'.header.next_page_id = d.header.next_page_id ∧ (rowsOf d)[i]? = some none ∧
      usedBytes (rowsOf d) + t.length ≤ kPAGE_SIZE) ∨
    (restore_tuple d i t = none ∧
      ¬ ((rowsOf d)[i]? = some none ∧ usedBytes (rowsOf d) + t.length ≤ kPAGE_SIZE)) := by
  unfold restore_tuple
  simp only [Nat.mod_eq_of_lt ht]
  by_cases hi : i < d.header.slot_count
  swap
  · rw [if_pos hi]
    refine Or.inr ⟨rfl, ?_⟩
    rw [rowsOf_getElem?, if_neg hi]
    rintro ⟨h, _⟩
    cases h
  rw [if_neg (by omega)]
  by_cases hfree : (d.slot i).offset = INVALID_SLOT_OFFSET
  swap
  · rw [if_pos hfree]
    refine Or.inr ⟨rfl, ?_⟩
    rw [rowsOf_getElem?, if_pos hi]
    rintro ⟨h, _⟩
    exact hfree (rowOf_eq_none.mp (Option.some.inj h))
  rw [if_neg (by simpa using hfree)]
  have hrow : rowOf d i = none := rowOf_eq_none.mpr hfree
  have hget : (rowsOf d)[i]? = some none := by rw [rowsOf_getElem?, if_pos hi, hrow]
  -- the page that the insert works on has the rows of `d`, compacted or not
  obtain ⟨d1, hd1, g1, hr1, hn1, hroom⟩ : ∃ d1,
      (if free_space_bytes d < t.length then compact d else d) = d1 ∧ Good d1 ∧
      rowsOf d1 = rowsOf d ∧ d1.header.next_page_id = d.header.next_page_id ∧
      ((t.length : Int) ≤ free_space_bytes d1 ↔ usedBytes (rowsOf d) + t.length ≤ kPAGE_SIZE) := by
    split
    · obtain ⟨c1, c2, c3⟩ := compact_spec g
      refine ⟨_, rfl, c1, c2, by rw [c3], ?_⟩
      rw [free_space_bytes_compact g]
      omega
    · refine ⟨_, rfl, g, rfl, rfl, ?_⟩
      have := free_space_bytes_le g
      omega
  rw [hd1]
  have hc1 : d1.header.slot_count = d.header.slot_count := by
    rw [← length_rowsOf, hr1, length_rowsOf]
  split
  · rename_i hlt
    refine Or.inr ⟨rfl, ?_⟩
    rintro ⟨_, h⟩
    have := hroom.mpr h
    omega
  · rename_i hge
    have hi1 : i < d1.header.slot_count := by omega
    have hrow1 : rowOf d1 i = none := by
      have : (rowsOf d1)[i]? = some none := by rw [hr1, hget]
      rw [rowsOf_getElem?, if_pos hi1] at this
      exact Option.some.inj this
    have hsome := insert_tuple_prefered ht hi1 hrow1 (by omega)
    rcases insert_tuple_spec g1 ht (some i) with ⟨k, h1, h2, h3, h4, _, _⟩ | ⟨h1, _⟩
    · rw [hsome] at h1
      obtain rfl := Option.some.inj h1
      left
      generalize insert_tuple d1 t (some i) = r at *
      obtain ⟨o, d2⟩ := r
      simp only at hsome h2 h3 h4
      subst hsome
      refine ⟨d2, rfl, h2, ?_, by rw [h4, hn1], hget, hroom.mp (by omega)⟩
      rw [h3, hr1]
      unfold place
      rw [if_pos (by rw [length_rowsOf]; exact hi)]
    · rw [h1] at hsome
      cases hsome

end duck.slotted_page
