-- The space of a page: what its rows leave, what an insert can come to, and
-- the layout that the scan of `is_compacted` takes for a compacted one.
import DuckDbms.HeapState

open duck.slotted_page

namespace duck.table_heap

/-! ## What `is_compacted` recognises -/

/-- The live bytes from slot `i` on. -/
def bytesFrom (d : PageData) (i : Nat) : Nat := liveBytes ((rowsOf d).drop i)

theorem bytesFrom_succ {d : PageData} {i : Nat} (hi : i < d.header.slot_count) :
    bytesFrom d i = rowSize (rowOf d i) + bytesFrom d (i + 1) := by
  have hlen : i < (rowsOf d).length := by rwa [length_rowsOf]
  have hrow : (rowsOf d)[i] = rowOf d i := by
    have := rowsOf_getElem? d i
    rw [if_pos hi, List.getElem?_eq_getElem hlen] at this
    exact Option.some.inj this
  unfold bytesFrom liveBytes
  rw [List.drop_eq_getElem_cons hlen, List.map_cons, List.sum_cons, hrow]

theorem bytesFrom_count (d : PageData) : bytesFrom d d.header.slot_count = 0 := by
  unfold bytesFrom
  rw [List.drop_eq_nil_of_le (by rw [length_rowsOf])]
  rfl

/-- The tuple of slot `i` and those of the later slots reach to the end of the page. -/
def UpToTheEnd (d : PageData) (i : Nat) : Prop :=
  (d.slot i).offset ≠ INVALID_SLOT_OFFSET → (d.slot i).offset + bytesFrom d i = kPAGE_SIZE

/-- The live tuples stand in slot order from the tuple of slot 0 to the end of the page. What
lies between the free space and that tuple is not asked. -/
def InSlotOrder (d : PageData) : Prop :=
  (d.slot 0).offset ≠ INVALID_SLOT_OFFSET ∧ ∀ i < d.header.slot_count, UpToTheEnd d i

/-- The scan, from slot `i` on. -/
theorem is_compacted_loop_iff {d : PageData} (g : Good d) (k : Nat) :
    ∀ i next_offset, i + k = d.header.slot_count →
      (is_compacted_loop d (List.range' i k) next_offset = true ↔
        next_offset + bytesFrom d i = kPAGE_SIZE ∧
          ∀ j, i ≤ j → j < d.header.slot_count → UpToTheEnd d j) := by
  induction k with
  | zero =>
    intro i next_offset hi
    obtain rfl : i = d.header.slot_count := hi
    rw [bytesFrom_count]
    unfold is_compacted_loop
    simp only [List.range'_zero, beq_iff_eq, Nat.add_zero]
    exact ⟨fun h => ⟨h, fun j h1 h2 => absurd h2 (by omega)⟩, fun h => h.1⟩
  | succ k ih =>
    intro i next_offset hi
    have hlt : i < d.header.slot_count := by omega
    have hsucc := bytesFrom_succ hlt
    rw [rowSize_rowOf] at hsucc
    -- slot `i`, and the slots behind it
    have hsplit : (∀ j, i ≤ j → j < d.header.slot_count → UpToTheEnd d j) ↔
        UpToTheEnd d i ∧ ∀ j, i + 1 ≤ j → j < d.header.slot_count → UpToTheEnd d j := by
      refine ⟨fun h => ⟨h i (Nat.le_refl i) hlt, fun j h1 h2 => h j (by omega) h2⟩, ?_⟩
      rintro ⟨h, hrest⟩ j h1 h2
      rcases Nat.eq_or_lt_of_le h1 with rfl | h1
      · exact h
      · exact hrest j h1 h2
    rw [List.range'_succ, hsplit]
    unfold is_compacted_loop
    split
    · rename_i hfree
      rw [if_pos hfree, Nat.zero_add] at hsucc
      rw [ih (i + 1) next_offset (by omega), hsucc]
      refine and_congr_right fun _ => ⟨fun h => ⟨fun hl => absurd hfree hl, h⟩, fun h => h.2⟩
    · rename_i hlive
      rw [if_neg hlive] at hsucc
      split
      · rename_i hne
        refine ⟨fun h => (by cases h), ?_⟩
        rintro ⟨h1, h2, _⟩
        have := h2 hlive
        omega
      · rename_i heq
        have heq : next_offset = (d.slot i).offset := not_not.mp heq
        obtain ⟨_, hend⟩ := g.inside i hlt hlive
        have hk : kPAGE_SIZE = 8192 := rfl
        rw [Nat.mod_eq_of_lt (by omega), ih (i + 1) _ (by omega)]
        unfold UpToTheEnd
        constructor
        · rintro ⟨h1, h2⟩
          exact ⟨by omega, fun _ => by omega, h2⟩
        · rintro ⟨h1, _, h2⟩
          exact ⟨by omega, h2⟩

/-- The scan starts at the tuple of slot 0, and so it takes dead bytes that lie below all the
tuples for free space. -/
theorem is_compacted_iff {d : PageData} (g : Good d) :
    is_compacted d = true ↔ d.header.slot_count = 0 ∨ InSlotOrder d := by
  unfold is_compacted
  split
  · rename_i h0
    exact ⟨fun _ => Or.inl h0, fun _ => rfl⟩
  · rename_i hcount
    have hall : bytesFrom d 0 = liveBytes (rowsOf d) := by
      unfold bytesFrom
      rw [List.drop_zero]
    have hlive := g.live_le
    have hdir := g.dir_le
    have hhead : sizeofPageHeader = 8 := rfl
    rw [List.range_eq_range', is_compacted_loop_iff g _ 0 _ (by omega)]
    unfold InSlotOrder
    constructor
    · rintro ⟨h1, h2⟩
      refine Or.inr ⟨fun h0 => ?_, fun i hi => h2 i (Nat.zero_le i) hi⟩
      -- the rows alone do not fill a page
      rw [h0] at h1
      unfold INVALID_SLOT_OFFSET at h1
      omega
    · rintro (h | ⟨h1, h2⟩)
      · exact absurd h hcount
      · exact ⟨h2 0 (by omega) h1, fun j _ hj => h2 j hj⟩

/-! ## The space of a page -/

/-- The header, the directory and the live tuples leave room for `n` bytes, and for a directory
entry when no slot is free. -/
def CanHold (d : PageData) (n : Nat) : Prop :=
  8 + 4 * d.header.slot_count + liveBytes (rowsOf d) + need (rowsOf d) n ≤ 8192

/-- The free space that an insert can come to: it compacts a page that does not look compacted. -/
def usable_space (d : PageData) : Int :=
  if is_compacted d then free_space_bytes d else free_space_bytes (compact d)

theorem free_space_bytes_le_compact {d : PageData} (g : Good d) :
    free_space_bytes d ≤ free_space_bytes (compact d) := by
  rw [free_space_bytes_compact g]
  have := g.live_le
  unfold free_space_bytes usedBytes
  rw [length_rowsOf]
  omega

theorem canHold_iff {d : PageData} (g : Good d) {n : Nat} :
    CanHold d n ↔ (need (rowsOf d) n : Int) ≤ free_space_bytes (compact d) := by
  rw [free_space_bytes_compact g]
  unfold CanHold usedBytes sizeofPageHeader sizeofSlot kPAGE_SIZE
  rw [length_rowsOf]
  omega

theorem hasRoom_iff_usable {d : PageData} (g : Good d) {n : Nat} :
    HasRoom d n ↔ (need (rowsOf d) n : Int) ≤ usable_space d := by
  have hle := free_space_bytes_le_compact g
  unfold HasRoom usable_space
  split
  · rename_i hc
    simp [hc]
  · rename_i hc
    have hc : is_compacted d = false := by simpa using hc
    rw [hc]
    simp only [true_and]
    omega

/-- A page that can hold a tuple takes it, unless its dead bytes lie below all its tuples. -/
theorem hasRoom_iff {d : PageData} (g : Good d) {n : Nat} :
    HasRoom d n ↔ CanHold d n ∧
      ((need (rowsOf d) n : Int) ≤ free_space_bytes d ∨ ¬ InSlotOrder d) := by
  have hle := free_space_bytes_le_compact g
  have hc := is_compacted_iff g
  have hcan := canHold_iff g (n := n)
  unfold HasRoom
  constructor
  · rintro (h | ⟨hno, h⟩)
    · exact ⟨hcan.mpr (by omega), Or.inl h⟩
    · refine ⟨hcan.mpr h, Or.inr fun ho => ?_⟩
      rw [hc.mpr (Or.inr ho)] at hno
      cases hno
  · rintro ⟨h, hfree | hno⟩
    · exact Or.inl hfree
    · by_cases h0 : d.header.slot_count = 0
      · -- a page without slots has all its space free
        left
        have hfull := g.unused h0
        unfold CanHold at h
        unfold free_space_bytes sizeofPageHeader sizeofSlot
        rw [hfull]
        unfold kPAGE_SIZE
        omega
      · refine Or.inr ⟨?_, hcan.mp h⟩
        rw [Bool.eq_false_iff, ne_eq, hc]
        rintro (h | h)
        · exact h0 h
        · exact hno h

theorem usable_space_compact {d : PageData} (g : Good d) :
    usable_space (compact d) = free_space_bytes (compact d) := by
  obtain ⟨g1, hrows, _⟩ := compact_spec g
  unfold usable_space
  split
  · rfl
  · rw [free_space_bytes_compact g1, free_space_bytes_compact g, hrows]

/-- A page that did not take a tuple is left with the space that it had. -/
theorem usable_space_try_insert {d : PageData} {t : List UInt8} (g : Good d)
    (ht : t.length < 65536) (h : (try_insert d t).1 = none) :
    usable_space (try_insert d t).2 = usable_space d := by
  unfold try_insert at h ⊢
  rcases insert_tuple_spec g ht none with ⟨i, h1, _⟩ | ⟨h1, _⟩
  · generalize slotted_page.insert_tuple d t none = r at *
    obtain ⟨o, d'⟩ := r
    simp only at h1
    subst h1
    cases h
  · rw [h1] at h ⊢
    simp only at h ⊢
    by_cases hc : is_compacted d = true
    · rw [if_pos hc]
    · rw [if_neg hc] at h ⊢
      rcases insert_tuple_spec (compact_spec g).1 ht none with ⟨i, h2, _⟩ | ⟨h2, _⟩
      · rw [h2] at h
        cases h
      · rw [h2]
        simp only
        rw [usable_space_compact g]
        unfold usable_space
        rw [if_neg hc]

end duck.table_heap
