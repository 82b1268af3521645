-- A page over its whole history: any operations in any order, next to a record
-- of what each slot was given last.
import DuckDbms.PageCompaction
import DuckDbms.Lib.Machine

open machine byte_mem

namespace duck.slotted_page

/-! ## Operations -/

inductive PageOp
  | insert_tuple (tuple_data : List UInt8) (prefered_slot : Option Nat)
  | try_update_in_place (rid : RID) (tuple_data : List UInt8)
  | delete_tuple (slot_num : Nat)
  | restore_tuple (slot_num : Nat) (tuple_data : List UInt8)
  | compact
  | set_next_page (page_id : PageID)

/-- The slot that an operation changed, if it changed one, and the page after it. There is none
when an assertion fails. -/
def run_op (d : PageData) : PageOp → Option (Option Nat × PageData)
  | .insert_tuple tuple_data prefered_slot => some (insert_tuple d tuple_data prefered_slot)
  | .try_update_in_place rid tuple_data =>
    let r := try_update_in_place d rid tuple_data
    some (if r.1 then some rid.slot_num else none, r.2)
  | .delete_tuple slot_num =>
    let r := delete_tuple d slot_num
    some (if r.1 then some slot_num else none, r.2)
  | .restore_tuple slot_num tuple_data =>
    (restore_tuple d slot_num tuple_data).map fun d => (some slot_num, d)
  | .compact => some (none, compact d)
  | .set_next_page page_id => some (none, set_next_page d page_id)

/-- What an operation gives to the slot that it changes. -/
def PageOp.gives : PageOp → Option (List UInt8)
  | .insert_tuple tuple_data _ | .try_update_in_place _ tuple_data
  | .restore_tuple _ tuple_data => some tuple_data
  | .delete_tuple _ | .compact | .set_next_page _ => none

/-- A page, and the tuple that each slot was given last and has not lost since. -/
structure PageHistory where
  page : PageData
  held : Nat → Option (List UInt8)

def PageHistory.next (s : PageHistory) (op : PageOp) : Option PageHistory :=
  (run_op s.page op).map fun r => ⟨r.2, match r.1 with
    | some slot => Function.update s.held slot op.gives
    | none => s.held⟩

def pageMachine : Machine PageHistory PageOp where
  start s := ∃ d, s = ⟨init d, fun _ => none⟩
  next := PageHistory.next

/-- Tuples have 65535 bytes at most. -/
def SizesFit (_ : PageHistory) (op : PageOp) : Prop := ∀ t, op.gives = some t → t.length ≤ 65535

/-! ## What an operation does -/

/-- An operation changes the row of its own slot only, and the next page only when it says so. -/
theorem run_spec {d d' : PageData} {op : PageOp} {own : Option Nat} (g : Good d)
    (ht : ∀ t, op.gives = some t → t.length ≤ 65535) (h : run_op d op = some (own, d')) :
    Good d' ∧
      (∀ i, (rowsOf d')[i]?.join = if own = some i then op.gives else (rowsOf d)[i]?.join) ∧
      ((∀ p, op ≠ .set_next_page p) → next_page d' = next_page d) := by
  have hset : ∀ (r : Row) (i : Nat) (old : Row), (rowsOf d)[i]? = some old → ∀ j,
      ((rowsOf d).set i r)[j]?.join = if some i = some j then r else (rowsOf d)[j]?.join := by
    intro r i old hold j
    have hlt := (List.getElem?_eq_some_iff.mp hold).1
    rw [List.getElem?_set]
    by_cases hij : i = j
    · subst hij
      simp only [if_pos hlt, if_true, Option.join_some]
    · rw [if_neg hij, if_neg (by simpa using hij)]
  have hsame : ∀ i, (rowsOf d)[i]?.join = if (none : Option Nat) = some i then op.gives
      else (rowsOf d)[i]?.join := by
    intro i
    rw [if_neg (by simp)]
  cases op with
  | insert_tuple t p =>
    have ht' : t.length < 65536 := Nat.lt_succ_of_le (ht t rfl)
    have hr : insert_tuple d t p = (own, d') := Option.some.inj h
    rcases insert_tuple_spec g ht' p with ⟨i, h1, h2, h3, h4, h5, _⟩ | ⟨h1, _⟩
    · rw [hr] at h1 h2 h3 h4
      simp only at h1 h2 h3 h4
      subst h1
      refine ⟨h2, ?_, fun _ => h4⟩
      intro j
      rw [h3]
      unfold place
      rcases h5 with hfree | ⟨rfl, _⟩
      · rw [if_pos (List.getElem?_eq_some_iff.mp hfree).1]
        exact hset _ _ _ hfree j
      · rw [if_neg (Nat.lt_irrefl _), List.getElem?_append]
        by_cases hj : j < (rowsOf d).length
        · rw [if_pos hj, if_neg (by simpa using Nat.ne_of_gt hj)]
        · rw [if_neg hj, List.getElem?_eq_none (Nat.le_of_not_lt hj)]
          by_cases he : (rowsOf d).length = j
          · subst he
            simp [PageOp.gives]
          · rw [if_neg (by simpa using he), List.getElem?_eq_none]
            rw [List.length_singleton]
            omega
    · rw [hr] at h1
      cases h1
      exact ⟨g, hsame, fun _ => rfl⟩
  | try_update_in_place rid t =>
    have ht' : t.length < 65536 := Nat.lt_succ_of_le (ht t rfl)
    have hr := Prod.mk.inj (Option.some.inj h)
    rcases try_update_in_place_spec rid g ht' with ⟨old, h1, _, h3, h4, h5, h6⟩ | ⟨h1, _⟩
    · rw [h3, if_pos rfl] at hr
      obtain ⟨rfl, rfl⟩ := hr
      refine ⟨h4, ?_, fun _ => congrArg PageHeader.next_page_id h6⟩
      intro j
      rw [h5]
      exact hset _ _ _ h1 j
    · rw [h1] at hr
      obtain ⟨rfl, rfl⟩ := hr
      exact ⟨g, hsame, fun _ => rfl⟩
  | delete_tuple i =>
    have hr := Prod.mk.inj (Option.some.inj h)
    rcases delete_tuple_spec g i with ⟨old, h1, h2, h3, h4, h5⟩ | ⟨h1, _⟩
    · rw [h2, if_pos rfl] at hr
      obtain ⟨rfl, rfl⟩ := hr
      refine ⟨h3, ?_, fun _ => congrArg PageHeader.next_page_id h5⟩
      intro j
      rw [h4]
      exact hset _ _ _ h1 j
    · rw [h1] at hr
      obtain ⟨rfl, rfl⟩ := hr
      exact ⟨g, hsame, fun _ => rfl⟩
  | restore_tuple i t =>
    have ht' : t.length < 65536 := Nat.lt_succ_of_le (ht t rfl)
    obtain ⟨d1, hd1, hr⟩ := Option.map_eq_some_iff.mp h
    cases hr
    rcases restore_tuple_spec g ht' i with ⟨d2, h1, h2, h3, h4, h5, _⟩ | ⟨h1, _⟩
    · rw [hd1] at h1
      cases h1
      refine ⟨h2, ?_, fun _ => h4⟩
      intro j
      rw [h3]
      exact hset _ _ _ h5 j
    · rw [hd1] at h1
      cases h1
  | compact =>
    cases h
    obtain ⟨h1, h2, h3⟩ := compact_spec g
    rw [h2]
    refine ⟨h1, hsame, fun _ => ?_⟩
    unfold next_page
    rw [h3]
  | set_next_page p =>
    cases h
    exact ⟨⟨g.dir_le, g.free_le, g.inside, g.apart, g.live_le, g.unused⟩, hsame,
      fun hno => absurd rfl (hno p)⟩

/-! ## The invariant of a history -/

/-- The page keeps its layout, and its rows are what the slots were given. -/
def HistoryInv (s : PageHistory) : Prop :=
  Good s.page ∧ ∀ i, s.held i = (rowsOf s.page)[i]?.join

theorem historyInv_reach {s : PageHistory} (h : pageMachine.Reach SizesFit s) : HistoryInv s := by
  apply h.invariant
  · rintro _ ⟨d, rfl⟩
    exact ⟨good_init d, fun i => by simp [rowsOf, init]⟩
  · intro s op t I hok hn
    obtain ⟨⟨own, d'⟩, hr, rfl⟩ := Option.map_eq_some_iff.mp hn
    obtain ⟨h1, h2, _⟩ := run_spec I.1 hok hr
    refine ⟨h1, fun i => ?_⟩
    rw [h2 i]
    cases own with
    | none => exact I.2 i
    | some slot =>
      simp only [Option.some.injEq]
      by_cases hi : slot = i
      · subst hi
        rw [if_pos rfl, Function.update_self]
      · rw [if_neg hi, Function.update_of_ne (Ne.symm hi)]
        exact I.2 i

theorem HistoryInv.row {s : PageHistory} (I : HistoryInv s) {i : Nat} {t : List UInt8}
    (h : s.held i = some t) : i < s.page.header.slot_count ∧ rowOf s.page i = some t := by
  rw [I.2 i, rowsOf_getElem?] at h
  split at h
  · exact ⟨‹_›, h⟩
  · cases h

theorem HistoryInv.get_tuple {s : PageHistory} (I : HistoryInv s) (i : Nat) :
    get_tuple s.page i = (s.held i).getD [] := by
  rw [get_tuple_eq, I.2 i, rowsOf_getElem?]
  split <;> rfl

/-! ## The law -/

/-- The byte of a page belongs to the tuple of a slot. -/
def InSlot (d : PageData) (i a : Nat) : Prop :=
  (d.slot i).offset ≤ a ∧ a < (d.slot i).offset + (d.slot i).length

/-- The directory stays below the tuples. A slot that holds a tuple is in the directory, has its
own bytes in the tuple area and never the offset that marks a free slot. No operation changes
what another slot reads. -/
theorem the_slots_of_a_page_keep_apart (s : PageHistory) (h : pageMachine.Reach SizesFit s) :
    (8 + 4 * s.page.header.slot_count ≤ s.page.header.free_space_offset ∧
      s.page.header.free_space_offset ≤ 8192) ∧
    (∀ i t, s.held i = some t → i < s.page.header.slot_count ∧
      (s.page.slot i).offset ≠ INVALID_SLOT_OFFSET ∧
      s.page.header.free_space_offset ≤ (s.page.slot i).offset ∧
      (s.page.slot i).offset + (s.page.slot i).length ≤ 8192 ∧ get_tuple s.page i = t) ∧
    (∀ i j, i ≠ j → s.held i ≠ none → s.held j ≠ none →
      ∀ a, ¬ (InSlot s.page i a ∧ InSlot s.page j a)) ∧
    (∀ i, has_slot s.page i = true ↔ s.held i ≠ none) ∧
    ∀ op own d', SizesFit s op → run_op s.page op = some (own, d') →
      (∀ i, own ≠ some i → get_tuple d' i = get_tuple s.page i) ∧
      ((∀ p, op ≠ .set_next_page p) → next_page d' = next_page s.page) := by
  have I := historyInv_reach h
  have g := I.1
  refine ⟨⟨?_, g.free_le⟩, ?_, ?_, ?_, ?_⟩
  · have := g.dir_le
    unfold sizeofPageHeader sizeofSlot at this
    omega
  · intro i t ht
    obtain ⟨hi, hrow⟩ := I.row ht
    have hlive : (s.page.slot i).offset ≠ INVALID_SLOT_OFFSET := by
      rw [ne_eq, ← rowOf_eq_none, hrow]
      simp
    obtain ⟨h1, h2⟩ := g.inside i hi hlive
    exact ⟨hi, hlive, h1, h2, by rw [I.get_tuple, ht]; rfl⟩
  · intro i j hij hi hj a ⟨⟨a1, a2⟩, b1, b2⟩
    obtain ⟨t, ht⟩ := Option.ne_none_iff_exists'.mp hi
    obtain ⟨u, hu⟩ := Option.ne_none_iff_exists'.mp hj
    obtain ⟨hi', hri⟩ := I.row ht
    obtain ⟨hj', hrj⟩ := I.row hu
    have := g.apart i hi' j hj' hij (by rw [ne_eq, ← rowOf_eq_none, hri]; simp)
      (by rw [ne_eq, ← rowOf_eq_none, hrj]; simp)
    unfold Apart at this
    omega
  · intro i
    rw [has_slot_eq, I.2 i, rowsOf_getElem?]
    by_cases hi : i < s.page.header.slot_count
    · simp [hi]
    · simp [hi]
  · intro op own d' hok hr
    obtain ⟨_, h2, h3⟩ := run_spec g hok hr
    refine ⟨fun i hi => ?_, h3⟩
    have hrow := h2 i
    rw [if_neg hi] at hrow
    have hget : ∀ d : PageData, get_tuple d i = ((rowsOf d)[i]?.join).getD [] := by
      intro d
      rw [get_tuple_eq, rowsOf_getElem?]
      split <;> rfl
    rw [hget, hget, hrow]

/-- Two tuples are placed, the first one shrinks, the second one leaves, and the page is
compacted. -/
theorem the_slots_of_a_short_history_keep_apart : ∃ s,
    pageMachine.exec ⟨init zeroPage, fun _ => none⟩ [.insert_tuple [1, 2, 3] none,
      .insert_tuple [4, 5] (some 7), .try_update_in_place ⟨none, 0⟩ [6], .delete_tuple 1,
      .compact, .restore_tuple 1 [8]] = some s ∧
    s.held 1 = some [8] ∧ get_tuple s.page 1 = [8] := by
  have hrun : ∃ s, pageMachine.execIf (fun _ op => op.gives.all fun t => decide (t.length ≤ 65535))
      ⟨init zeroPage, fun _ => none⟩ [.insert_tuple [1, 2, 3] none,
        .insert_tuple [4, 5] (some 7), .try_update_in_place ⟨none, 0⟩ [6], .delete_tuple 1,
        .compact, .restore_tuple 1 [8]] = some s ∧ s.held 1 = some [8] := by
    refine ⟨_, rfl, ?_⟩
    decide +kernel
  obtain ⟨s, hs, hheld⟩ := hrun
  have hreach : pageMachine.Reach SizesFit s := by
    have hstart : pageMachine.start ⟨init zeroPage, fun _ => none⟩ := ⟨zeroPage, rfl⟩
    refine (Machine.Reach.start hstart).run (Machine.run_of_execIf ?_ hs)
    intro s op hc t ht
    rw [ht] at hc
    simpa using hc
  have hlaw := the_slots_of_a_page_keep_apart s hreach
  exact ⟨s, hs, hheld, (hlaw.2.1 1 [8] hheld).2.2.2.2⟩

end duck.slotted_page
