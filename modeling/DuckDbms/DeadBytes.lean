-- The dead bytes of a page: `compact` gives all of them back and keeps every
-- row, and `is_compacted` looks for them from the wrong end.
import DuckDbms.PageHistory
import DuckDbms.PageSpace

open machine byte_mem duck.table_heap

namespace duck.slotted_page

/-! ## Pages that any calls reach -/

theorem good_insert_tuple {d : PageData} (g : Good d) (t : List UInt8) (p : Option Nat) :
    Good (insert_tuple d t p).2 := by
  have hcut : Good (insert_tuple d (cutTuple t) p).2 := by
    rcases insert_tuple_spec g (length_cutTuple_lt t) p with ⟨_, _, h, _⟩ | ⟨h, _⟩
    · exact h
    · rw [h]
      exact g
  exact hcut.sameBelow (insert_tuple_cut d t p).2

theorem good_try_update_in_place {d : PageData} (g : Good d) (rid : RID) (t : List UInt8) :
    Good (try_update_in_place d rid t).2 := by
  have hcut : Good (try_update_in_place d rid (cutTuple t)).2 := by
    rcases try_update_in_place_spec rid g (length_cutTuple_lt t) with ⟨_, _, _, _, h, _⟩ | ⟨h, _⟩
    · exact h
    · rw [h]
      exact g
  exact hcut.sameBelow (try_update_in_place_cut g rid t).2

theorem good_restore_tuple {d d' : PageData} (g : Good d) {i : Nat} {t : List UInt8}
    (h : restore_tuple d i t = some d') : Good d' := by
  unfold restore_tuple at h
  split at h
  · cases h
  split at h
  · cases h
  simp only at h
  have g1 : Good (if free_space_bytes d < (t.length % 65536 : Nat) then compact d else d) := by
    split
    · exact (compact_spec g).1
    · exact g
  generalize (if free_space_bytes d < (t.length % 65536 : Nat) then compact d else d) = d1 at h g1
  split at h
  · cases h
  have g2 := good_insert_tuple g1 t (some i)
  generalize insert_tuple d1 t (some i) = r at h g2
  obtain ⟨_ | slot, d2⟩ := r
  · cases h
  · cases h
    exact g2

/-- Tuples of any size leave the layout of a page in order. -/
theorem good_run {d d' : PageData} {op : PageOp} {own : Option Nat} (g : Good d)
    (h : run_op d op = some (own, d')) : Good d' := by
  cases op with
  | insert_tuple t p =>
    have := good_insert_tuple g t p
    rwa [Option.some.inj h] at this
  | try_update_in_place rid t =>
    obtain ⟨_, rfl⟩ := Prod.mk.inj (Option.some.inj h)
    exact good_try_update_in_place g rid t
  | delete_tuple i =>
    obtain ⟨_, rfl⟩ := Prod.mk.inj (Option.some.inj h)
    rcases delete_tuple_spec g i with ⟨_, _, _, h, _⟩ | ⟨h, _⟩
    · exact h
    · rw [h]
      exact g
  | restore_tuple i t =>
    obtain ⟨d1, hd1, hr⟩ := Option.map_eq_some_iff.mp h
    cases hr
    exact good_restore_tuple g hd1
  | compact =>
    cases h
    exact (compact_spec g).1
  | set_next_page p =>
    cases h
    exact (good_set_next_page p).mpr g

theorem good_reach {s : PageHistory} (h : pageMachine.Reach always s) : Good s.page := by
  apply h.invariant
  · rintro _ ⟨d, rfl⟩
    exact good_init d
  · intro s op t I _ hn
    obtain ⟨⟨own, d'⟩, hr, rfl⟩ := Option.map_eq_some_iff.mp hn
    exact good_run I hr

/-! ## `compact` sees the rows of a page only -/

/-- One turn of the loop of `compact`, told by the row of the slot. -/
def compact_row (c : Compacted) : Row → Compacted
  | none => { c with compacted_slots := c.compacted_slots ++ [⟨INVALID_SLOT_OFFSET, 0⟩] }
  | some t =>
    let offset := (c.offset + 65536 - t.length) % 65536
    { offset
      compacted_slots := c.compacted_slots ++ [⟨offset, t.length⟩]
      compacted := writeBytes c.compacted offset t }

theorem compact_step_eq (d : PageData) (c : Compacted) (i : Nat) :
    compact_step d c i = compact_row c (rowOf d i) := by
  unfold compact_step rowOf
  simp only
  split
  · rfl
  · unfold compact_row
    simp only [length_readBytes]

/-- The first `n` turns of the loop of `compact`. -/
def compact_loop (d : PageData) (n : Nat) : Compacted :=
  (List.range n).foldl (compact_step d) ⟨kPAGE_SIZE, [], fun _ => 0⟩

theorem compact_loop_count (d : PageData) : compact_loop d d.header.slot_count =
    (rowsOf d).foldl compact_row ⟨kPAGE_SIZE, [], fun _ => 0⟩ := by
  unfold compact_loop rowsOf
  rw [List.foldl_map]
  congr 1
  funext c i
  exact compact_step_eq d c i

/-- Pages with the same rows and the same next page are compacted to the same bytes. -/
theorem compact_congr {d e : PageData} (hrows : rowsOf d = rowsOf e)
    (hnext : d.header.next_page_id = e.header.next_page_id) : compact d = compact e := by
  have hcount : d.header.slot_count = e.header.slot_count := by
    rw [← length_rowsOf, hrows, length_rowsOf]
  have hloop : compact_loop d d.header.slot_count = compact_loop e e.header.slot_count := by
    rw [compact_loop_count, compact_loop_count, hrows]
  unfold compact_loop at hloop
  unfold compact
  rw [hloop]
  simp only [hcount, hnext]

theorem compact_compact {d : PageData} (g : Good d) : compact (compact d) = compact d := by
  obtain ⟨_, hrows, hhead⟩ := compact_spec g
  exact compact_congr hrows (by rw [hhead])

theorem get_tuple_congr {d e : PageData} (h : rowsOf d = rowsOf e) (i : Nat) :
    get_tuple d i = get_tuple e i ∧ has_slot d i = has_slot e i := by
  have hcount : d.header.slot_count = e.header.slot_count := by
    rw [← length_rowsOf, h, length_rowsOf]
  have hrow : i < e.header.slot_count → rowOf d i = rowOf e i := by
    intro hi
    have hget := congrArg (·[i]?) h
    simp only [rowsOf_getElem?, hcount, if_pos hi] at hget
    exact Option.some.inj hget
  constructor
  · rw [get_tuple_eq, get_tuple_eq, hcount]
    split
    · rename_i hi
      rw [hrow hi]
    · rfl
  · rw [Bool.eq_iff_iff, has_slot_eq, has_slot_eq, hcount]
    exact and_congr_right fun hi => by rw [hrow hi]

/-- The bytes of the live tuples of a page. A free slot reads as no bytes. -/
def tuple_bytes (d : PageData) : Nat :=
  ((List.range d.header.slot_count).map fun i => (get_tuple d i).length).sum

theorem tuple_bytes_eq (d : PageData) : tuple_bytes d = liveBytes (rowsOf d) := by
  unfold tuple_bytes liveBytes rowsOf
  rw [List.map_map]
  congr 1
  apply List.map_congr_left
  intro i hi
  rw [get_tuple_eq, if_pos (List.mem_range.mp hi), Function.comp_apply]
  cases rowOf d i <;> rfl

/-- The loop of `compact` goes down from the end of the page, tuple by tuple, and stays above
the directory: no offset wraps around. -/
theorem compact_loop_offset {d : PageData} (g : Good d) {n : Nat} (h : n ≤ d.header.slot_count) :
    (compact_loop d n).offset = kPAGE_SIZE - liveUpTo d n :=
  (compact_loop_spec g n h).offset

theorem compact_loop_above {d : PageData} (g : Good d) {i : Nat} (h : i < d.header.slot_count) :
    8 + 4 * d.header.slot_count ≤ (compact_loop d (i + 1)).offset ∧
      (compact_loop d (i + 1)).offset + (get_tuple d i).length = (compact_loop d i).offset := by
  have hlen : (get_tuple d i).length = rowSize (rowOf d i) := by
    rw [get_tuple_eq, if_pos h]
    cases rowOf d i <;> rfl
  have hle : i + 1 ≤ d.header.slot_count := h
  have hm := liveUpTo_mono (d := d) hle
  rw [liveUpTo_count] at hm
  have hsucc := liveUpTo_succ h
  have hlive := g.live_le
  have hdir := g.dir_le
  rw [compact_loop_offset g hle, compact_loop_offset g (Nat.le_of_lt h), hlen]
  unfold sizeofPageHeader sizeofSlot at hdir
  unfold kPAGE_SIZE at *
  omega

/-! ## The law of `compact` -/

/-- A compaction keeps what each slot reads, which slots are free, the directory's size and the
next page. Its tuples go from the end of the page down to the first free byte and stay above the
directory, all the bytes that no live tuple uses are free after it, and another compaction changes
no byte. -/
theorem compact_gives_back_every_dead_byte (s : PageHistory) (h : pageMachine.Reach always s) :
    (∀ i, get_tuple (compact s.page) i = get_tuple s.page i ∧
      has_slot (compact s.page) i = has_slot s.page i) ∧
    (compact s.page).header.slot_count = s.page.header.slot_count ∧
    next_page (compact s.page) = next_page s.page ∧
    free_space_bytes (compact s.page) =
      8192 - 8 - 4 * s.page.header.slot_count - tuple_bytes s.page ∧
    (∀ i < s.page.header.slot_count,
      8 + 4 * s.page.header.slot_count ≤ (compact_loop s.page (i + 1)).offset ∧
      (compact_loop s.page (i + 1)).offset + (get_tuple s.page i).length =
        (compact_loop s.page i).offset) ∧
    compact (compact s.page) = compact s.page := by
  have g := good_reach h
  obtain ⟨_, hrows, hhead⟩ := compact_spec g
  refine ⟨get_tuple_congr hrows, by rw [hhead], ?_, ?_, fun i hi => compact_loop_above g hi,
    compact_compact g⟩
  · unfold next_page
    rw [hhead]
  · rw [free_space_bytes_compact g, tuple_bytes_eq]
    unfold usedBytes kPAGE_SIZE sizeofPageHeader sizeofSlot
    rw [length_rowsOf]
    push_cast
    omega

/-- Two tuples are placed and the first one leaves. -/
theorem compact_gives_back_the_bytes_of_a_deleted_tuple : ∃ s,
    pageMachine.exec ⟨init zeroPage, fun _ => none⟩ [.insert_tuple [1, 2, 3] none,
      .insert_tuple [4, 5] none, .delete_tuple 0] = some s ∧
    free_space_bytes s.page = 8171 ∧ free_space_bytes (compact s.page) = 8174 ∧
    get_tuple (compact s.page) 1 = [4, 5] := by
  have hrun : ∃ s, pageMachine.exec ⟨init zeroPage, fun _ => none⟩ [.insert_tuple [1, 2, 3] none,
      .insert_tuple [4, 5] none, .delete_tuple 0] = some s ∧
      (s.page.header.slot_count = 2 ∧ free_space_bytes s.page = 8171 ∧
        tuple_bytes s.page = 2 ∧ get_tuple s.page 1 = [4, 5]) := by
    refine ⟨_, rfl, ?_⟩
    decide +kernel
  obtain ⟨s, hs, hcount, hfree, hbytes, hget⟩ := hrun
  have hstart : pageMachine.start ⟨init zeroPage, fun _ => none⟩ := ⟨zeroPage, rfl⟩
  have hlaw := compact_gives_back_every_dead_byte s
    ((Machine.Reach.start hstart).run (Machine.run_of_exec hs))
  refine ⟨s, hs, hfree, ?_, ?_⟩
  · rw [hlaw.2.2.2.1, hcount, hbytes]
    rfl
  · rw [(hlaw.1 1).1, hget]

/-! ## What `is_compacted` takes for compacted -/

/-- No dead byte lies between the free space and the end of the page: `compact` finds nothing to
give back. -/
def NoDeadBytes (d : PageData) : Prop := free_space_bytes (compact d) = free_space_bytes d

theorem noDeadBytes_iff {d : PageData} (g : Good d) :
    NoDeadBytes d ↔ d.header.free_space_offset + liveBytes (rowsOf d) = kPAGE_SIZE := by
  have hlive := g.live_le
  unfold NoDeadBytes
  rw [free_space_bytes_compact g]
  unfold free_space_bytes usedBytes
  rw [length_rowsOf]
  push_cast
  omega

/-- The slot has a tuple. -/
def Live (d : PageData) (i : Nat) : Prop :=
  i < d.header.slot_count ∧ (d.slot i).offset ≠ INVALID_SLOT_OFFSET

/-- Slot 0 has a tuple, and either it is the only one, or no tuple has a byte. -/
def OneTupleFirst (d : PageData) : Prop :=
  Live d 0 ∧ ((∀ i, Live d i → i = 0) ∨ ∀ i, Live d i → (d.slot i).length = 0)

/-- When all tuples end where the page ends, the free space goes up to them. -/
def NothingBelow (d : PageData) : Prop :=
  (∀ i, Live d i → (d.slot i).offset + (d.slot i).length = kPAGE_SIZE) →
    d.header.free_space_offset = (d.slot 0).offset

section
variable {d : PageData}

theorem live_split (d : PageData) (i : Nat) :
    liveUpTo d i + bytesFrom d i = liveBytes (rowsOf d) := by
  unfold liveUpTo bytesFrom liveBytes
  rw [← List.sum_append, ← List.map_append, List.take_append_drop]

theorem bytesFrom_live {i : Nat} (h : Live d i) :
    bytesFrom d i = (d.slot i).length + bytesFrom d (i + 1) := by
  rw [bytesFrom_succ h.1, rowSize_rowOf, if_neg h.2]

theorem bytesFrom_zero_iff (i : Nat) :
    bytesFrom d i = 0 ↔ ∀ j, i ≤ j → Live d j → (d.slot j).length = 0 := by
  constructor
  · intro h j hij hj
    -- the tuple is one of those that are counted
    have hsum := live_split d i
    have hmono := liveUpTo_mono (d := d) (show i ≤ j from hij)
    have hsplit := live_split d j
    have hlive := bytesFrom_live hj
    omega
  · intro h
    unfold bytesFrom liveBytes
    rw [List.sum_eq_zero]
    intro n hn
    obtain ⟨r, hr, rfl⟩ := List.mem_map.mp hn
    obtain ⟨k, hk⟩ := List.mem_iff_getElem?.mp hr
    rw [List.getElem?_drop, rowsOf_getElem?] at hk
    split at hk
    · rename_i hlt
      cases hk
      rw [rowSize_rowOf]
      split
      · rfl
      · rename_i hl
        exact h _ (Nat.le_add_right i k) ⟨hlt, hl⟩
    · cases hk

/-- Behind slot 0 there is no byte, and no tuple has more bytes than the one of slot 0. -/
theorem OneTupleFirst.sizes (o : OneTupleFirst d) {i : Nat} (h : Live d i) :
    bytesFrom d (i + 1) = 0 ∧ (d.slot i).length = (d.slot 0).length := by
  obtain ⟨h0, hone | hempty⟩ := o
  · obtain rfl := hone i h
    refine ⟨(bytesFrom_zero_iff 1).mpr fun j hj hl => ?_, rfl⟩
    have := hone j hl
    omega
  · exact ⟨(bytesFrom_zero_iff _).mpr fun j _ hl => hempty j hl, by rw [hempty i h, hempty 0 h0]⟩

theorem OneTupleFirst.liveBytes (o : OneTupleFirst d) :
    liveBytes (rowsOf d) = (d.slot 0).length := by
  have hsplit := live_split d 0
  have hsucc := bytesFrom_live o.1
  have hnone := (o.sizes o.1).1
  have hzero : liveUpTo d 0 = 0 := rfl
  omega

theorem OneTupleFirst.inSlotOrder_iff (o : OneTupleFirst d) :
    InSlotOrder d ↔ ∀ i, Live d i → (d.slot i).offset + (d.slot i).length = kPAGE_SIZE := by
  have hfrom : ∀ i, Live d i → bytesFrom d i = (d.slot i).length := by
    intro i h
    rw [bytesFrom_live h, (o.sizes h).1, Nat.add_zero]
  constructor
  · rintro ⟨_, h⟩ i hi
    rw [← hfrom i hi]
    exact h i hi.1 hi.2
  · intro h
    refine ⟨o.1.2, fun i hi hl => ?_⟩
    rw [hfrom i ⟨hi, hl⟩]
    exact h i ⟨hi, hl⟩

/-- With one tuple the scan takes the page for compacted exactly when the tuple ends where the
page ends. -/
theorem OneTupleFirst.noDeadBytes_iff (g : Good d) (o : OneTupleFirst d) :
    (InSlotOrder d ↔ NoDeadBytes d) ↔ NothingBelow d := by
  have hends : NoDeadBytes d → InSlotOrder d := by
    intro h
    rw [slotted_page.noDeadBytes_iff g, o.liveBytes] at h
    refine o.inSlotOrder_iff.mpr fun i hi => ?_
    have := g.inside i hi.1 hi.2
    have := (o.sizes hi).2
    omega
  have hall : ∀ h : InSlotOrder d, NoDeadBytes d ↔ d.header.free_space_offset = (d.slot 0).offset := by
    intro h
    have h0 := o.inSlotOrder_iff.mp h 0 o.1
    rw [slotted_page.noDeadBytes_iff g, o.liveBytes]
    omega
  unfold NothingBelow
  rw [← o.inSlotOrder_iff]
  constructor
  · intro h ho
    exact (hall ho).mp (h.mp ho)
  · intro h
    exact ⟨fun ho => (hall ho).mpr (h ho), hends⟩

/-- `compact` puts a tuple where it stands in slot order when as many bytes lie before it as
behind it. -/
theorem compact_ends_iff (g : Good d) {i : Nat} (h : Live d i) :
    ((compact d).slot i).offset + bytesFrom (compact d) i = kPAGE_SIZE ↔
      liveUpTo d i = bytesFrom d (i + 1) := by
  have hlive := bytesFrom_live h
  have hsplit := live_split d i
  have hsplit' := live_split d (i + 1)
  have hle := g.liveUpTo_le (show i + 1 ≤ d.header.slot_count from h.1)
  have hfrom : bytesFrom (compact d) i = bytesFrom d i := by
    unfold bytesFrom
    rw [(compact_spec g).2.1]
  rw [slot_compact g h.1, hfrom]
  unfold compactedSlot
  rw [if_neg h.2]
  simp only
  omega

theorem live_compact_iff (g : Good d) (i : Nat) : Live (compact d) i ↔ Live d i := by
  have hsame := (get_tuple_congr (compact_spec g).2.1 i).2
  rwa [Bool.eq_iff_iff, has_slot_eq, has_slot_eq, ne_eq, ne_eq, rowOf_eq_none, rowOf_eq_none] at hsame

/-- Before and behind each tuple lie as many bytes: then there is one tuple, or no tuple has a
byte. -/
theorem oneTupleFirst_iff (h0 : Live d 0) :
    OneTupleFirst d ↔ ∀ i, Live d i → liveUpTo d i = bytesFrom d (i + 1) := by
  have hfirst : bytesFrom d 0 = (d.slot 0).length + bytesFrom d 1 := bytesFrom_live h0
  have hall := live_split d 0
  have hnone : liveUpTo d 0 = 0 := rfl
  constructor
  · intro o i hi
    have hsplit := live_split d i
    have hlive := bytesFrom_live hi
    have hbytes := o.liveBytes
    obtain ⟨hbehind, hlength⟩ := o.sizes hi
    omega
  · intro h
    refine ⟨h0, ?_⟩
    have hlater := (bytesFrom_zero_iff 1).mp (h 0 h0).symm
    by_cases hone : ∀ i, Live d i → i = 0
    · exact Or.inl hone
    · right
      obtain ⟨k, hk⟩ := not_forall.mp hone
      obtain ⟨hk, hne⟩ := Classical.not_imp.mp hk
      -- the bytes of slot 0 lie before slot `k`, and none lie behind it
      have h1 := h k hk
      have h2 := (bytesFrom_zero_iff (k + 1)).mpr fun j hj hl => hlater j (by omega) hl
      have h3 := liveUpTo_mono (d := d) (show 1 ≤ k by omega)
      have h4 := live_split d 1
      intro i hi
      rcases Nat.eq_zero_or_pos i with rfl | hpos
      · omega
      · exact hlater i hpos hi

/-- In a compacted page a later tuple lies below an earlier one, so the scan takes the page for
compacted when there is no such pair of tuples with bytes in them. -/
theorem is_compacted_compact_iff (g : Good d) :
    is_compacted (compact d) = true ↔ d.header.slot_count = 0 ∨ OneTupleFirst d := by
  obtain ⟨g1, _, hhead⟩ := compact_spec g
  have hcount : (compact d).header.slot_count = d.header.slot_count := by rw [hhead]
  have hslot : ∀ i < d.header.slot_count, ((compact d).slot i).offset ≠ INVALID_SLOT_OFFSET →
      Live d i := by
    intro i hi hl
    exact (live_compact_iff g i).mp ⟨by omega, hl⟩
  rw [is_compacted_iff g1, hcount]
  by_cases hzero : d.header.slot_count = 0
  · simp [hzero]
  refine or_congr_right ?_
  unfold InSlotOrder UpToTheEnd
  rw [hcount]
  constructor
  · rintro ⟨hl, h⟩
    have h0 := hslot 0 (by omega) hl
    refine (oneTupleFirst_iff h0).mpr fun i hi => ?_
    exact (compact_ends_iff g hi).mp (h i hi.1 ((live_compact_iff g i).mpr hi).2)
  · intro o
    refine ⟨((live_compact_iff g 0).mpr o.1).2, fun i hi hl => ?_⟩
    have hli := hslot i hi hl
    exact (compact_ends_iff g hli).mpr ((oneTupleFirst_iff o.1).mp o i hli)

end

/-! ## The law of `is_compacted` -/

/-- The scan tells compacted pages from the others, and recognises what `compact` leaves, exactly
on pages without slots and on pages with one tuple, in slot 0, below which no tuple was deleted.
(Tuples without bytes may stand next to each other.) -/
theorem is_compacted_is_right_iff_one_tuple (s : PageHistory) (h : pageMachine.Reach always s) :
    ((is_compacted s.page = true ↔ free_space_bytes (compact s.page) = free_space_bytes s.page) ∧
      is_compacted (compact s.page) = true) ↔
    s.page.header.slot_count = 0 ∨ OneTupleFirst s.page ∧ NothingBelow s.page := by
  have g := good_reach h
  rw [is_compacted_compact_iff g, is_compacted_iff g]
  by_cases hzero : s.page.header.slot_count = 0
  · -- a page without slots has all its space free
    have hdead : NoDeadBytes s.page := by
      have hrows : rowsOf s.page = [] := List.eq_nil_of_length_eq_zero (by rw [length_rowsOf, hzero])
      rw [noDeadBytes_iff g, g.unused hzero, hrows]
      rfl
    unfold NoDeadBytes at hdead
    simp [hzero, hdead]
  · simp only [hzero, false_or]
    constructor
    · rintro ⟨hscan, o⟩
      exact ⟨o, (o.noDeadBytes_iff g).mp hscan⟩
    · rintro ⟨o, hbelow⟩
      exact ⟨(o.noDeadBytes_iff g).mpr hbelow, o⟩

theorem is_compacted_is_right_on_a_page_of_one_tuple : ∃ s,
    pageMachine.exec ⟨init zeroPage, fun _ => none⟩ [.insert_tuple [1, 2] none] = some s ∧
    is_compacted s.page = true ∧ is_compacted (compact s.page) = true := by
  have hrun : ∃ s, pageMachine.exec ⟨init zeroPage, fun _ => none⟩ [.insert_tuple [1, 2] none] =
      some s ∧ (s.page.header.slot_count = 1 ∧ (s.page.slot 0).offset = 8190 ∧
        s.page.header.free_space_offset = 8190 ∧ is_compacted s.page = true) := by
    refine ⟨_, rfl, ?_⟩
    decide +kernel
  obtain ⟨s, hs, hcount, hoff, hfree, hscan⟩ := hrun
  have hstart : pageMachine.start ⟨init zeroPage, fun _ => none⟩ := ⟨zeroPage, rfl⟩
  have hlaw := is_compacted_is_right_iff_one_tuple s
    ((Machine.Reach.start hstart).run (Machine.run_of_exec hs))
  have hone : OneTupleFirst s.page := by
    refine ⟨⟨by omega, by rw [hoff]; decide⟩, Or.inl fun i hi => ?_⟩
    have := hi.1
    omega
  have hbelow : NothingBelow s.page := fun _ => hfree.trans hoff.symm
  exact ⟨s, hs, hscan, (hlaw.mpr (Or.inr ⟨hone, hbelow⟩)).2⟩

/-- The scan goes up through the slots and `compact` goes down, so two tuples are enough for a
compacted page that does not look like one. The bytes of a deleted tuple below the tuple of slot 0
are not looked at. -/
theorem a_compacted_page_of_two_tuples_does_not_look_compacted :
    ¬ (∀ s, pageMachine.Reach always s → is_compacted (compact s.page) = true) ∧
    ¬ (∀ s, pageMachine.Reach always s → is_compacted s.page = true →
      free_space_bytes (compact s.page) = free_space_bytes s.page) := by
  have hstart : pageMachine.start ⟨init zeroPage, fun _ => none⟩ := ⟨zeroPage, rfl⟩
  constructor
  · intro h
    obtain ⟨s, hs, hscan⟩ : ∃ s, pageMachine.exec ⟨init zeroPage, fun _ => none⟩
        [.insert_tuple [1] none, .insert_tuple [2] none] = some s ∧
        is_compacted (compact s.page) = false := by
      refine ⟨_, rfl, ?_⟩
      decide +kernel
    rw [h s ((Machine.Reach.start hstart).run (Machine.run_of_exec hs))] at hscan
    cases hscan
  · intro h
    obtain ⟨s, hs, hscan, hfree⟩ : ∃ s, pageMachine.exec ⟨init zeroPage, fun _ => none⟩
        [.insert_tuple [1] none, .insert_tuple [2, 3] none, .delete_tuple 1] = some s ∧
        is_compacted s.page = true ∧
        free_space_bytes (compact s.page) ≠ free_space_bytes s.page := by
      refine ⟨_, rfl, ?_⟩
      decide +kernel
    exact hfree (h s ((Machine.Reach.start hstart).run (Machine.run_of_exec hs)) hscan)

end duck.slotted_page
