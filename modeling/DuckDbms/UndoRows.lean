-- Undo logs on the rows of the pages: what it takes to undo a log, and how the
-- rows may change beside the rows of the log without getting in its way.
import DuckDbms.Table

open duck.slotted_page duck.table_heap

namespace duck.table

/-! ## Rows by their RIDs -/

/-- The rows of every page. -/
abbrev Pages := Nat → List Row

def rowAt (R : Pages) (rid : RID) : Option Row := rid.page_id.bind fun n => (R n)[rid.slot_num]?

/-- A slot that the page has gets another row. -/
def putRow (R : Pages) (rid : RID) (r : Row) : Pages :=
  match rid.page_id with
  | some n => Function.update R n ((R n).set rid.slot_num r)
  | none => R

/-- A tuple is placed, into a new slot if its page does not have the slot yet. -/
def placeRow (R : Pages) (rid : RID) (t : List UInt8) : Pages :=
  match rid.page_id with
  | some n => Function.update R n (place (R n) rid.slot_num t)
  | none => R

/-- The bytes that are used on the page of a RID. -/
def usedOn (R : Pages) (rid : RID) : Nat := (rid.page_id.map fun n => usedBytes (R n)).getD 0

def UndoRecord.rid : UndoRecord → RID
  | .DeleteUndoRecord rid | .RestoreUndoRecord rid _ => rid

section
variable {R R' : Pages} {rid rid' : RID} {r r' old : Row} {t : List UInt8}

theorem rowAt_putRow (R : Pages) (rid rid' : RID) (r : Row) :
    rowAt (putRow R rid r) rid' =
      if rid' = rid then (rowAt R rid).map fun _ => r else rowAt R rid' := by
  obtain ⟨p, i⟩ := rid
  obtain ⟨q, j⟩ := rid'
  unfold rowAt putRow
  rcases p with _ | n
  · rcases q with _ | m <;> simp
  rcases q with _ | m
  · simp
  simp only [Option.bind_some, RID.mk.injEq, Option.some.injEq]
  by_cases hm : m = n
  · subst hm
    rw [Function.update_self, List.getElem?_set]
    by_cases hj : j = i
    · subst hj
      simp only [and_self, if_true]
      split
      · rename_i hlt
        rw [List.getElem?_eq_getElem hlt]
        rfl
      · rename_i hge
        rw [List.getElem?_eq_none (by omega)]
        rfl
    · rw [if_neg (Ne.symm hj), if_neg (fun h => hj h.2)]
  · rw [Function.update_of_ne hm, if_neg (fun h => hm h.1)]

theorem rowAt_putRow_of_ne (h : rid' ≠ rid) : rowAt (putRow R rid r) rid' = rowAt R rid' := by
  rw [rowAt_putRow, if_neg h]

theorem rowAt_putRow_self (h : rowAt R rid = some old) : rowAt (putRow R rid r) rid = some r := by
  rw [rowAt_putRow, if_pos rfl, h]
  rfl

theorem putRow_putRow (R : Pages) (rid : RID) (r r' : Row) :
    putRow (putRow R rid r) rid r' = putRow R rid r' := by
  obtain ⟨_ | n, i⟩ := rid
  · rfl
  · simp [putRow]

theorem putRow_comm (h : rid ≠ rid') (R : Pages) (r r' : Row) :
    putRow (putRow R rid r) rid' r' = putRow (putRow R rid' r') rid r := by
  obtain ⟨_ | n, i⟩ := rid
  · rfl
  obtain ⟨_ | m, j⟩ := rid'
  · rfl
  simp only [putRow]
  by_cases hm : m = n
  · subst hm
    have hij : i ≠ j := by
      rintro rfl
      exact h rfl
    simp only [Function.update_self, Function.update_idem]
    rw [List.set_comm _ _ hij]
  · rw [Function.update_of_ne hm, Function.update_of_ne (Ne.symm hm), Function.update_comm hm]

/-- The row that is there already, or a slot that is not there at all. -/
theorem putRow_eq (h : rowAt R rid = some r ∨ rowAt R rid = none) : putRow R rid r = R := by
  obtain ⟨_ | n, i⟩ := rid
  · rfl
  simp only [rowAt, Option.bind_some] at h
  simp only [putRow]
  have : (R n).set i r = R n := by
    apply List.ext_getElem?
    intro j
    rw [List.getElem?_set]
    split
    · rename_i hij
      subst hij
      split
      · rename_i hlt
        rcases h with h | h
        · exact h.symm
        · rw [List.getElem?_eq_none_iff] at h
          omega
      · rename_i hge
        rw [List.getElem?_eq_none (by omega)]
    · rfl
  rw [this, Function.update_eq_self]

/-- A row that is put in takes its bytes on its page, and those of the old row are free. -/
theorem usedOn_putRow (h : rowAt R rid = some old) (r : Row) :
    usedOn (putRow R rid r) rid + rowSize old = usedOn R rid + rowSize r := by
  obtain ⟨_ | n, i⟩ := rid
  · cases h
  simp only [rowAt, Option.bind_some] at h
  have := liveBytes_set h r
  simp only [usedOn, putRow, Option.map_some, Option.getD_some, Function.update_self]
  unfold usedBytes
  rw [List.length_set]
  omega

/-- What is put in or not, a row changes the bytes of no page but its own. -/
theorem used_putRow_le (hrow : rowAt R' rid = rowAt R rid)
    (hle : ∀ n, usedBytes (R' n) ≤ usedBytes (R n)) (r : Row) (n : Nat) :
    usedBytes (putRow R' rid r n) ≤ usedBytes (putRow R rid r n) := by
  rcases hold : rowAt R rid with _ | old
  · rw [putRow_eq (Or.inr hold), putRow_eq (Or.inr (hrow.trans hold))]
    exact hle n
  · have h1 := usedOn_putRow hold r
    have h2 := usedOn_putRow (hrow.trans hold) r
    obtain ⟨_ | m, i⟩ := rid
    · cases hold
    by_cases hn : n = m
    · subst hn
      have := hle n
      simp only [usedOn, Option.map_some, Option.getD_some] at h1 h2
      omega
    · simp only [putRow]
      rw [Function.update_of_ne hn, Function.update_of_ne hn]
      exact hle n

/-- A row that is cleared gives its bytes back. -/
theorem used_clear_le (R : Pages) (rid : RID) (n : Nat) :
    usedBytes (putRow R rid none n) ≤ usedBytes (R n) := by
  rcases hold : rowAt R rid with _ | old
  · rw [putRow_eq (Or.inr hold)]
  · have h := usedOn_putRow hold none
    obtain ⟨_ | m, i⟩ := rid
    · cases hold
    by_cases hn : n = m
    · subst hn
      simp only [usedOn, Option.map_some, Option.getD_some, rowSize] at h
      omega
    · simp only [putRow]
      rw [Function.update_of_ne hn]

/-! ## Undoing a log -/

/-- What `SlottedPage::restore_tuple` asserts: the slot is free, and the page has room. -/
def Restorable (R : Pages) (rid : RID) (t : List UInt8) : Prop :=
  rowAt R rid = some none ∧ usedOn R rid + t.length ≤ kPAGE_SIZE

def undoRow (R : Pages) : UndoRecord → Pages
  | .DeleteUndoRecord rid => putRow R rid none
  | .RestoreUndoRecord rid t => putRow R rid (some t)

/-- The records can be undone one after the other. -/
def Fits : List UndoRecord → Pages → Prop
  | [], _ => True
  | .DeleteUndoRecord rid :: rest, R => Fits rest (putRow R rid none)
  | .RestoreUndoRecord rid t :: rest, R => Restorable R rid t ∧ Fits rest (putRow R rid (some t))

/-- The most bytes that the page of a restored tuple holds while the records are undone. -/
def fullest : List UndoRecord → Pages → Nat
  | [], _ => 0
  | .DeleteUndoRecord rid :: rest, R => fullest rest (putRow R rid none)
  | .RestoreUndoRecord rid t :: rest, R =>
    max (usedOn (putRow R rid (some t)) rid) (fullest rest (putRow R rid (some t)))

/-- The rows of the log are the same. -/
def AgreeOn (l : List UndoRecord) (R R' : Pages) : Prop :=
  ∀ u ∈ l, rowAt R' u.rid = rowAt R u.rid

variable {l : List UndoRecord} {u : UndoRecord}

theorem agreeOn_undoRow (h : AgreeOn (u :: l) R R') : AgreeOn l (undoRow R u) (undoRow R' u) := by
  intro v hv
  have h1 := h u (by simp)
  have h2 := h v (by simp [hv])
  generalize v.rid = rid' at h2 ⊢
  rcases u with rid | ⟨rid, t⟩ <;>
    simp only [undoRow, rowAt_putRow, UndoRecord.rid] at h1 ⊢ <;>
    rw [h1, h2]

/-- The slots that the records fill are free when their turns come. -/
def Frees : List UndoRecord → Pages → Prop
  | [], _ => True
  | .DeleteUndoRecord rid :: rest, R => Frees rest (putRow R rid none)
  | .RestoreUndoRecord rid t :: rest, R => rowAt R rid = some none ∧ Frees rest (putRow R rid (some t))

/-- The slots of the log are still there, and those that were free are free. -/
def KeepsFree (l : List UndoRecord) (R R' : Pages) : Prop :=
  ∀ u ∈ l, ∀ r, rowAt R u.rid = some r → ∃ r', rowAt R' u.rid = some r' ∧ (r = none → r' = none)

theorem keepsFree_undoRow (h : KeepsFree (u :: l) R R') :
    KeepsFree l (undoRow R u) (undoRow R' u) := by
  have hput : ∀ filled, KeepsFree l (putRow R u.rid filled) (putRow R' u.rid filled) := by
    intro filled v hv r hr
    rw [rowAt_putRow] at hr ⊢
    by_cases he : v.rid = u.rid
    · rw [if_pos he] at hr ⊢
      obtain ⟨old, hold, rfl⟩ := Option.map_eq_some_iff.mp hr
      obtain ⟨old', hold', _⟩ := h u List.mem_cons_self old hold
      rw [hold']
      exact ⟨filled, rfl, id⟩
    · rw [if_neg he] at hr ⊢
      exact h v (List.mem_cons_of_mem _ hv) r hr
  cases u with
  | DeleteUndoRecord rid => exact hput none
  | RestoreUndoRecord rid t => exact hput (some t)

theorem Frees.mono (h : Frees l R) (hkeeps : KeepsFree l R R') : Frees l R' := by
  induction l generalizing R R' with
  | nil => trivial
  | cons u l ih =>
    have hrest := keepsFree_undoRow hkeeps
    cases u with
    | DeleteUndoRecord rid => exact ih h hrest
    | RestoreUndoRecord rid t =>
      obtain ⟨r, hr, hfree⟩ := hkeeps _ List.mem_cons_self none h.1
      rw [hfree rfl] at hr
      exact ⟨hr, ih h.2 hrest⟩

/-- A row that is cleared takes no slot away. -/
theorem keepsFree_clear (l : List UndoRecord) (R : Pages) (rid : RID) :
    KeepsFree l R (putRow R rid none) := by
  intro u _ r hr
  rw [rowAt_putRow]
  by_cases he : u.rid = rid
  · subst he
    rw [if_pos rfl, hr]
    exact ⟨none, rfl, fun _ => rfl⟩
  · rw [if_neg he]
    exact ⟨r, hr, id⟩

theorem Fits.cons (h : Fits (u :: l) R) : Fits l (undoRow R u) := by
  cases u with
  | DeleteUndoRecord rid => exact h
  | RestoreUndoRecord rid t => exact h.2

/-- A row is cleared beside the log, or on it: the log can still be undone. -/
theorem Fits.clear (h : Fits l R) (rid : RID) : Fits l (putRow R rid none) := by
  induction l generalizing R with
  | nil => trivial
  | cons u l ih =>
    cases u with
    | DeleteUndoRecord rid' =>
      have h' : Fits l (putRow R rid' none) := h
      show Fits l (putRow (putRow R rid none) rid' none)
      by_cases hne : rid = rid'
      · subst hne
        rw [putRow_putRow]
        exact h'
      · rw [putRow_comm hne]
        exact ih h'
    | RestoreUndoRecord rid' t =>
      obtain ⟨⟨hfree, hroom⟩, h'⟩ := h
      by_cases hne : rid = rid'
      · -- the slot is free already
        subst hne
        rw [putRow_eq (Or.inl hfree)]
        exact ⟨⟨hfree, hroom⟩, h'⟩
      · refine ⟨⟨?_, ?_⟩, ?_⟩
        · rw [rowAt_putRow_of_ne (Ne.symm hne)]
          exact hfree
        · refine Nat.le_trans (Nat.add_le_add_right ?_ _) hroom
          obtain ⟨_ | m, j⟩ := rid'
          · exact Nat.le_refl 0
          · exact used_clear_le R rid m
        · rw [putRow_comm hne]
          exact ih h'

/-- Rows that agree on the log and use no more bytes need no more to undo it. -/
theorem fullest_le (h : AgreeOn l R R') (hle : ∀ n, usedBytes (R' n) ≤ usedBytes (R n)) :
    fullest l R' ≤ fullest l R := by
  induction l generalizing R R' with
  | nil => exact Nat.le_refl 0
  | cons u l ih =>
    have hrow := h u (by simp)
    have ha := agreeOn_undoRow h
    cases u with
    | DeleteUndoRecord rid => exact ih ha (used_putRow_le hrow hle none)
    | RestoreUndoRecord rid t =>
      have hput := used_putRow_le hrow hle (some t)
      refine max_le_max ?_ (ih ha hput)
      obtain ⟨_ | n, i⟩ := rid
      · exact Nat.le_refl 0
      · exact hput n

/-- A log that can be undone fits on its pages, all the way. -/
theorem Fits.fullest_le (h : Fits l R) : fullest l R ≤ kPAGE_SIZE := by
  induction l generalizing R with
  | nil => exact Nat.zero_le _
  | cons u l ih =>
    cases u with
    | DeleteUndoRecord rid => exact ih h
    | RestoreUndoRecord rid t =>
      obtain ⟨⟨hfree, hroom⟩, h'⟩ := h
      have := usedOn_putRow hfree (some t)
      refine max_le ?_ (ih h')
      simp only [rowSize] at this
      omega

/-- Rows may change beside the log as long as the log still fits on its pages. -/
theorem Fits.beside (h : Fits l R) (ha : AgreeOn l R R') (hf : fullest l R' ≤ kPAGE_SIZE) :
    Fits l R' := by
  induction l generalizing R R' with
  | nil => trivial
  | cons u l ih =>
    have hrow := ha u (by simp)
    cases u with
    | DeleteUndoRecord rid => exact ih h (agreeOn_undoRow ha) hf
    | RestoreUndoRecord rid t =>
      obtain ⟨⟨hfree, _⟩, h'⟩ := h
      obtain ⟨h1, h2⟩ := max_le_iff.mp hf
      have hfree' : rowAt R' rid = some none := hrow.trans hfree
      have := usedOn_putRow hfree' (some t)
      refine ⟨⟨hfree', ?_⟩, ih h' (agreeOn_undoRow ha) h2⟩
      simp only [rowSize] at this
      omega

end

end duck.table
