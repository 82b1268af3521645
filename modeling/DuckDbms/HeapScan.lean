-- The scan of a heap: a cursor on a pinned page, that goes from one live slot
-- to the next one, page after page.
import DuckDbms.HeapLaws

open duck.slotted_page duck.disk_manager duck.buffer_pool chain

namespace duck.table_heap

/-! ## The model -/

structure Scan where
  current_rid : RID
  current_page : Option FrameID

/-- The constructor. `fetch_page` may find no frame, or throw. -/
def Scan.open_ (b : BufferPoolManager) (first_page_id : PageID) :
    Except String Scan × BufferPoolManager :=
  let r := b.fetch_page first_page_id
  (r.1.map fun current_page => ⟨⟨first_page_id, 0⟩, current_page⟩, r.2)

/-- `Scan::next_page`. When the fetch fails, `current_page_` still points to the frame of the
page that was unpinned. -/
def Scan.next_page (b : BufferPoolManager) (scan : Scan) :
    Except String Bool × BufferPoolManager × Scan :=
  match scan.current_page with
  | none => (.ok false, b, scan)
  | some page =>
    if ¬ has_next_page (b.frames page).data then (.ok false, b, scan)
    else
      let next_page_id := slotted_page.next_page (b.frames page).data
      match (b.unpin_page (b.frames page).page_id false).fetch_page next_page_id with
      | (.error e, b) => (.error e, b, scan)
      | (.ok none, b) => (.ok false, b, scan)
      | (.ok (some next_page), b) =>
        (.ok true, b, ⟨⟨(b.frames next_page).page_id, 0⟩, some next_page⟩)

/-- The loop of `Scan::next`; `none` when the fuel runs out before the loop ends. -/
def Scan.next : Nat → BufferPoolManager → Scan →
    Option (Except String (Option (RID × List UInt8)) × BufferPoolManager × Scan)
  | 0, _, _ => none
  | fuel + 1, b, scan =>
    match scan.current_page with
    | none => some (.ok none, b, scan)
    | some page =>
      let slotted := (b.frames page).data
      let slot_num := scan.current_rid.slot_num
      -- try to find next occupied because current became deleted
      let slot_num := if has_slot slotted slot_num then slot_num
        else (next_occupied_slot slotted slot_num).getD slot_num
      let rid : RID := ⟨scan.current_rid.page_id, slot_num⟩
      if has_slot slotted slot_num then
        some (.ok (some (rid, slotted_page.get_tuple slotted slot_num)), b,
          ⟨⟨rid.page_id, (slot_num + 1) % 65536⟩, some page⟩)
      else
        match Scan.next_page b ⟨rid, some page⟩ with
        | (.error e, b, scan) => some (.error e, b, scan)
        | (.ok false, b, scan) => some (.ok none, b, scan)
        | (.ok true, b, scan) => Scan.next fuel b scan

def Scan.next_rid (scan : Scan) : RID := scan.current_rid

/-! ## The first live slot -/

/-- The first live slot from slot `k` of page `n` on: on this page, or from the start of the
next one. -/
inductive FirstLive (b : BufferPoolManager) : Nat → Nat → RID → Prop
  | here {n k j : Nat} : k ≤ j → (∀ i, k ≤ i → i < j → tupleOf (contents b n).rows i = none) →
      tupleOf (contents b n).rows j ≠ none → FirstLive b n k ⟨some n, j⟩
  | next {n k m : Nat} {rid : RID} : (∀ i, k ≤ i → tupleOf (contents b n).rows i = none) →
      succ b n = some m → FirstLive b m 0 rid → FirstLive b n k rid

theorem FirstLive.unique {b : BufferPoolManager} {n k : Nat} {rid rid' : RID}
    (h : FirstLive b n k rid) (h' : FirstLive b n k rid') : rid = rid' := by
  induction h with
  | here h1 h2 h3 =>
    cases h' with
    | here h1' h2' h3' =>
      rename_i n k j j'
      rcases Nat.lt_trichotomy j j' with hlt | rfl | hlt
      · exact absurd (h2' j h1 hlt) h3
      · rfl
      · exact absurd (h2 j' h1' hlt) h3'
    | next h2' => exact absurd (h2' _ h1) h3
  | next h2 h3 _ ih =>
    cases h' with
    | here h1' _ h3' => exact absurd (h2 _ h1') h3'
    | next _ h3' h4' =>
      rw [h3] at h3'
      cases h3'
      exact ih h4'

/-- The meaning of the pages decides. -/
theorem FirstLive.live {b : BufferPoolManager} {n k m : Nat} {rid : RID} (h : FirstLive b n k rid)
    (hm : rid.page_id = some m) : tupleOf (contents b m).rows rid.slot_num ≠ none := by
  induction h with
  | here _ _ hlive =>
    cases hm
    exact hlive
  | next _ _ _ ih => exact ih hm

theorem FirstLive.congr {b b' : BufferPoolManager} {n k : Nat} {rid : RID}
    (h : FirstLive b n k rid) (hc : contents b' = contents b) : FirstLive b' n k rid := by
  induction h with
  | here h1 h2 h3 => exact .here h1 (by rw [hc]; exact h2) (by rw [hc]; exact h3)
  | next h2 h3 _ ih => exact .next (by rw [hc]; exact h2) (by rw [succ_congr hc, h3]) ih

theorem has_slot_iff (d : PageData) (i : Nat) :
    has_slot d i = true ↔ tupleOf (rowsOf d) i ≠ none := by
  rw [has_slot_eq]
  unfold tupleOf
  rw [rowsOf_getElem?]
  split
  · rename_i h
    rcases rowOf d i <;> simp [h]
  · rename_i h
    simp [h]

/-- The slot after `k` that `next_occupied_slot` finds is the first live one. -/
theorem next_occupied_slot_spec (d : PageData) {k : Nat} (hk : k < 65535) :
    (∃ j, next_occupied_slot d k = some j ∧ k < j ∧ tupleOf (rowsOf d) j ≠ none ∧
      ∀ i, k < i → i < j → tupleOf (rowsOf d) i = none) ∨
    (next_occupied_slot d k = none ∧ ∀ i, k < i → tupleOf (rowsOf d) i = none) := by
  have hdead : ∀ i, (i < d.header.slot_count → (d.slot i).offset = INVALID_SLOT_OFFSET) →
      tupleOf (rowsOf d) i = none := by
    intro i h
    unfold tupleOf
    rw [rowsOf_getElem?]
    split
    · rename_i hlt
      rw [rowOf_eq_none.mpr (h hlt)]
      rfl
    · rfl
  unfold next_occupied_slot
  simp only
  rw [Nat.mod_eq_of_lt (by omega)]
  rcases hf : (List.range' (k + 1) (d.header.slot_count - (k + 1))).find? fun i =>
      (d.slot i).offset != INVALID_SLOT_OFFSET with _ | j
  · right
    refine ⟨rfl, fun i hi => hdead i fun hlt => ?_⟩
    rw [List.find?_range'_eq_none] at hf
    have := hf i (by omega) (by omega)
    simpa using this
  · left
    rw [List.find?_range'_eq_some] at hf
    obtain ⟨h1, h2, h3⟩ := hf
    rw [List.mem_range'_1] at h2
    refine ⟨j, rfl, by omega, ?_, fun i hi hij => hdead i fun _ => ?_⟩
    · rw [← has_slot_iff, has_slot_eq]
      exact ⟨by omega, fun h => by simp [rowOf_eq_none.mp h] at h1⟩
    · have := h3 i (by omega) hij
      simpa using this

/-! ## The scan of a well-formed heap -/

/-- The scan stands on page `n`, which it has pinned in frame `f`. -/
structure ScanOn (heads : Nat → Prop) (outside : Nat → Nat) (pending : Nat → Prop)
    (b : BufferPoolManager) (scan : Scan) (n f : Nat) : Prop where
  heap : HeapState True (pinMore outside n) pending heads b
  held : ∀ m, pending m → 0 < outside m
  on : OnChain (succ b) heads n
  page : scan.current_page = some f
  table : b.page_table (some n) = some f
  rid : scan.current_rid.page_id = some n
  slot : scan.current_rid.slot_num ≤ 2047

section
variable {heads : Nat → Prop} {outside : Nat → Nat} {pending : Nat → Prop}
  {b b' : BufferPoolManager} {scan : Scan} {n f : Nat}

/-- A scan that is opened stands on the first page of its heap, or finds no frame for it. -/
theorem HeapState.opens {h : Nat} (H : HeapState True outside pending heads b) (hh : heads h)
    (hheld : ∀ m, pending m → 0 < outside m) :
    (∃ f b', Scan.open_ b (some h) = (.ok ⟨⟨some h, 0⟩, some f⟩, b') ∧ contents b' = contents b ∧
      ScanOn heads outside pending b' ⟨⟨some h, 0⟩, some f⟩ h f) ∨
    Scan.open_ b (some h) = (.ok ⟨⟨some h, 0⟩, none⟩, b) ∧ AllPinned b := by
  have hon : OnChain (succ b) heads h := ⟨h, hh, H.forest.onPath_head hh⟩
  unfold Scan.open_
  rcases H.store.fetch_page (H.pages h hon).2 with ⟨f, b', hf, B, hc⟩ | ⟨hf, hall⟩
  · rw [hf]
    have K := H.same_contents B.store hc (allocated_congr B.disk)
    refine Or.inl ⟨f, b', rfl, hc, K, hheld, ?_, rfl, B.table, rfl, Nat.zero_le _⟩
    rw [succ_congr hc]
    exact hon
  · rw [hf]
    exact Or.inr ⟨rfl, hall⟩

/-- What `next_page` does: it stands on the next page, or it has come to the end, or it has
found no frame. -/
theorem ScanOn.next_page (S : ScanOn heads outside pending b scan n f) :
    (Scan.next_page b scan = (.ok false, b, scan) ∧ succ b n = none) ∨
    ∃ m, succ b n = some m ∧
      ((∃ b' scan' g, Scan.next_page b scan = (.ok true, b', scan') ∧ contents b' = contents b ∧
          ScanOn heads outside pending b' scan' m g ∧ scan'.current_rid.slot_num = 0) ∨
        ∃ b', Scan.next_page b scan = (.ok false, b', scan) ∧ contents b' = contents b ∧
          PoolInv b' outside ∧ b'.pool_capacity = b.pool_capacity ∧ AllPinned b') := by
  have hid : (b.frames f).page_id = some n := (S.heap.store.inv.holds n f).mp S.table
  have hnext : (b.frames f).data.header.next_page_id = succ b n := by
    unfold succ contents
    rw [view_cached S.table]
    rfl
  unfold Scan.next_page has_next_page slotted_page.next_page
  simp only [S.page, hnext, hid]
  rcases hs : succ b n with _ | m
  · left
    exact ⟨rfl, rfl⟩
  right
  refine ⟨m, rfl, ?_⟩
  rw [if_neg (by simp [INVALID_PAGE_ID])]
  have hpos : 0 < pinMore outside n n := by
    rw [pinMore_apply, if_pos rfl]
    omega
  obtain ⟨S1, hc1, _, hd1, hk1⟩ := S.heap.store.unpin_page pending hpos false (fun m => id)
    (fun m hm => Or.inl hm) fun hm => by
      have := S.held n hm
      rw [pinMore_apply, if_pos rfl]
      omega
  rw [pinLess_pinMore] at S1
  have hon : OnChain (succ b) heads m := by
    obtain ⟨h, hh, hp⟩ := S.on
    exact ⟨h, hh, hp.follow hs⟩
  have ha : Allocated (b.unpin_page (some n) false).disk_manager m := by
    rw [hd1]
    exact (S.heap.pages m hon).2
  have K1 := S.heap.same_contents S1 hc1 fun k => by
    rw [hd1]
    exact id
  rcases S1.fetch_page ha with ⟨g, b', hf, B, hc⟩ | ⟨hf, hall⟩
  · left
    have hcc : contents b' = contents b := by rw [hc, hc1]
    have K := K1.same_contents B.store hc (allocated_congr B.disk)
    have hid' : (b'.frames g).page_id = some m := (B.store.inv.holds m g).mp B.table
    rw [hf]
    simp only [hid']
    refine ⟨b', _, g, rfl, hcc, ⟨K, S.held, ?_, rfl, B.table, rfl, Nat.zero_le _⟩, rfl⟩
    rw [succ_congr hcc]
    exact hon
  · right
    rw [hf]
    exact ⟨_, rfl, hc1, S1.inv, hk1, hall⟩

/-- The loop of the scan gives the first live slot from its cursor on. -/
theorem ScanOn.next {fuel : Nat} (S : ScanOn heads outside pending b scan n f)
    (hfuel : pathLength (succ b) (some n) ≤ fuel) :
    ∃ r b' scan', Scan.next fuel b scan = some (.ok r, b', scan') ∧
      ∀ rid t, r = some (rid, t) → FirstLive b n scan.current_rid.slot_num rid ∧
        ∃ m g, ScanOn heads outside pending b' scan' m g := by
  induction fuel generalizing b scan n f with
  | zero =>
    obtain ⟨h, hh, hp⟩ := S.on
    obtain ⟨l, hl⟩ := hp.path
    rw [hl.pathLength_eq] at hfuel
    have := List.length_pos_of_mem hl.head_mem
    omega
  | succ fuel ih =>
    have hrows : rowsOf (b.frames f).data = (contents b n).rows := by
      unfold contents
      rw [view_cached S.table]
      rfl
    have hgood : Good (b.frames f).data := by
      have h := (S.heap.pages n S.on).1
      unfold contents at h
      rw [view_cached S.table] at h
      exact h
    have hlive : ∀ i, has_slot (b.frames f).data i = true ↔
        tupleOf (contents b n).rows i ≠ none := by
      intro i
      rw [has_slot_iff, hrows]
    -- the scan returns slot `j` and goes on after it
    have hstop : ∀ j, has_slot (b.frames f).data j = true → ScanOn heads outside pending b
        ⟨⟨scan.current_rid.page_id, (j + 1) % 65536⟩, some f⟩ n f := by
      intro j hj
      have h1 := ((has_slot_eq _ _).mp hj).1
      have h2 := hgood.count_lt
      refine ⟨S.heap, S.held, S.on, rfl, S.table, S.rid, ?_⟩
      show (j + 1) % 65536 ≤ 2047
      rw [Nat.mod_eq_of_lt (by omega)]
      omega
    generalize hk : scan.current_rid.slot_num = k at *
    have hk' : k ≤ 2047 := hk ▸ S.slot
    unfold Scan.next
    simp only [S.page, hk]
    by_cases hcur : has_slot (b.frames f).data k = true
    · rw [if_pos hcur, if_pos hcur]
      refine ⟨_, _, _, rfl, ?_⟩
      rintro rid t ⟨⟩
      rw [S.rid]
      exact ⟨.here (Nat.le_refl k) (fun i h1 h2 => by omega) ((hlive k).mp hcur), n, f,
        S.rid ▸ hstop k hcur⟩
    · rw [if_neg hcur]
      have hdead : tupleOf (contents b n).rows k = none := by
        by_contra h
        exact hcur ((hlive k).mpr h)
      rcases next_occupied_slot_spec (b.frames f).data (k := k) (by omega) with
        ⟨j, h1, h2, h3, h4⟩ | ⟨h1, h2⟩
      · have hj : has_slot (b.frames f).data j = true := (has_slot_iff _ _).mpr h3
        rw [h1]
        simp only [Option.getD_some]
        rw [if_pos hj]
        refine ⟨_, _, _, rfl, ?_⟩
        rintro rid t ⟨⟩
        rw [S.rid]
        refine ⟨.here (Nat.le_of_lt h2) (fun i hi hij => ?_) ((hlive j).mp hj), n, f,
          S.rid ▸ hstop j hj⟩
        rcases Nat.eq_or_lt_of_le hi with rfl | hi
        · exact hdead
        · rw [← hrows]
          exact h4 i hi hij
      · rw [h1]
        simp only [Option.getD_none]
        rw [if_neg hcur]
        have hsame : (⟨⟨scan.current_rid.page_id, k⟩, some f⟩ : Scan) = scan := by
          rw [← hk, ← S.page]
        rw [hsame]
        have hall : ∀ i, k ≤ i → tupleOf (contents b n).rows i = none := by
          intro i hi
          rcases Nat.eq_or_lt_of_le hi with rfl | hi
          · exact hdead
          · rw [← hrows]
            exact h2 i hi
        rcases S.next_page with ⟨hp, _⟩ | ⟨m, hm, ⟨b', scan', g, hp, hc, S', hzero⟩ | ⟨b', hp, _⟩⟩
        · rw [hp]
          exact ⟨none, b, scan, rfl, by simp⟩
        · rw [hp]
          simp only
          obtain ⟨h, hh, hpath⟩ := S.on
          obtain ⟨l, hl⟩ := hpath.path
          rw [hl.pathLength_eq] at hfuel
          have hlen : pathLength (succ b') (some m) ≤ fuel := by
            cases hl with
            | cons hl =>
              rw [hm] at hl
              rw [succ_congr hc, hl.pathLength_eq]
              exact Nat.le_of_succ_le_succ hfuel
          obtain ⟨r, b2, scan2, hn, hr⟩ := ih S' hlen
          refine ⟨r, b2, scan2, hn, fun rid t he => ?_⟩
          obtain ⟨hf, hS⟩ := hr rid t he
          rw [hzero] at hf
          exact ⟨.next hall hm (hf.congr hc.symm), hS⟩
        · rw [hp]
          exact ⟨none, b', scan, rfl, by simp⟩

end

end duck.table_heap
