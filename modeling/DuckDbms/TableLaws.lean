-- What the steps of a table call do: the rows of the heaps, the undo log and
-- the place of the call, said once for all the heap calls, and the locks, said
-- once for all the lock calls.
import DuckDbms.UndoRows
import DuckDbms.HeapMap
import DuckDbms.LockLaws

open machine duck.slotted_page duck.disk_manager duck.buffer_pool duck.lock_manager duck.table_heap
open chain

namespace duck.table

/-! ## The disk never gets smaller -/

theorem capacity_with_page {α : Type} (b : BufferPoolManager) (p : PageID)
    (section_ : Page → α × PageData × Bool) :
    (with_page b p section_).2.disk_manager.capacity = b.disk_manager.capacity := by
  have hc := capacity_fetch_page b p
  unfold with_page
  generalize b.fetch_page p = r at hc ⊢
  obtain ⟨_ | _ | f, b'⟩ := r
  · exact hc
  · exact hc
  · simp only [capacity_unpin_page]
    exact hc

theorem capacity_get_tuple (b : BufferPoolManager) (rid : RID) :
    (table_heap.get_tuple b rid).2.disk_manager.capacity = b.disk_manager.capacity :=
  capacity_with_page b _ _

theorem capacity_delete_tuple (b : BufferPoolManager) (rid : RID) :
    (table_heap.delete_tuple b rid).2.disk_manager.capacity = b.disk_manager.capacity :=
  capacity_with_page b _ _

theorem capacity_restore_tuple {b b' : BufferPoolManager} {rid : RID} {t : List UInt8}
    {r : Except String Unit} (h : table_heap.restore_tuple b rid t = some (r, b')) :
    b'.disk_manager.capacity = b.disk_manager.capacity := by
  have hc := capacity_with_page b rid.page_id fun page =>
    let restored := slotted_page.restore_tuple page.data rid.slot_num t
    (restored.isSome, restored.getD page.data, false)
  unfold table_heap.restore_tuple at h
  generalize with_page b rid.page_id _ = w at hc h
  obtain ⟨_ | _ | _ | _, b1⟩ := w
  all_goals
    cases h
    try exact hc

theorem capacity_update_tuple {b b' : BufferPoolManager} {h : PageID} {rid : RID}
    {t : List UInt8} {r : Except String (Option RID)}
    (hr : table_heap.update_tuple b h rid t = some (r, b')) :
    b.disk_manager.capacity ≤ b'.disk_manager.capacity := by
  have hc := capacity_with_page b rid.page_id (update_section rid t)
  unfold table_heap.update_tuple at hr
  generalize with_page b rid.page_id _ = w at hc hr
  obtain ⟨_ | _ | _ | _ | _, b1⟩ := w
  all_goals simp only at hr
  all_goals try
    cases hr
    exact Nat.le_of_eq hc.symm
  exact Nat.le_trans (Nat.le_of_eq hc.symm) (capacity_run_insert hr)

theorem heap_lock (s : TableSystem) (tx : TransactionID) (rid : RID) (mode : LockMode)
    (expired : Bool) {answered : Bool → TableSystem → TableSystem}
    (h : ∀ granted s, (answered granted s).heap = s.heap) :
    (s.lock tx rid mode expired answered).heap = s.heap := by
  unfold TableSystem.lock
  simp only
  split
  · rw [h]
  · rfl

theorem capacity_table_step {s t : TableSystem} {tx : TransactionID} {expired : Bool}
    (h : table_step s tx expired = some t) :
    s.heap.pool.disk_manager.capacity ≤ t.heap.pool.disk_manager.capacity := by
  have hlock : ∀ (rid : RID) (mode : LockMode) (answered : Bool → TableSystem → TableSystem),
      (∀ granted s, (answered granted s).heap = s.heap) →
      s.heap.pool.disk_manager.capacity ≤
        (s.lock tx rid mode expired answered).heap.pool.disk_manager.capacity := by
    intro rid mode answered hsame
    rw [heap_lock s tx rid mode expired hsame]
  unfold table_step at h
  split at h
  · cases h
  · cases h
  · obtain ⟨⟨r, b⟩, hr, rfl⟩ := Option.map_eq_some_iff.mp h
    have := capacity_run_insert hr
    rcases r with e | _ | rid <;> exact this
  · cases h
    apply hlock
    intro granted s
    split <;> rfl
  · have hc := capacity_delete_tuple s.heap.pool ‹RID›
    split at h <;> cases h <;> simp_all [TableSystem.go_on]
  · cases h
    apply hlock
    intro granted s
    rfl
  · have hc := capacity_get_tuple s.heap.pool ‹RID›
    split at h <;> cases h <;> simp_all [TableSystem.go_on]
  · cases h
    apply hlock
    intro granted s
    rfl
  · have hc := capacity_get_tuple s.heap.pool ‹RID›
    split at h <;> cases h <;> simp_all [TableSystem.go_on]
  · have hc := capacity_delete_tuple s.heap.pool ‹RID›
    split at h <;> cases h <;> simp_all [TableSystem.go_on, TableSystem.push_undo]
  · cases h
    apply hlock
    intro granted s
    rfl
  · have hc := capacity_get_tuple s.heap.pool ‹RID›
    split at h <;> cases h <;> simp_all [TableSystem.go_on]
  · obtain ⟨⟨r, b⟩, hr, rfl⟩ := Option.map_eq_some_iff.mp h
    have := capacity_update_tuple hr
    rcases r with e | _ | rid
    · exact this
    · exact this
    · simp only
      split <;> exact this
  · cases h
    apply hlock
    intro granted s
    split <;> rfl
  · cases h
    exact Nat.le_refl _
  · cases h
    exact Nat.le_refl _
  · cases h
    exact Nat.le_refl _
  · have hc := capacity_delete_tuple s.heap.pool ‹RID›
    split at h <;> cases h <;> simp_all [TableSystem.go_on]
  · obtain ⟨⟨r, b⟩, hr, rfl⟩ := Option.map_eq_some_iff.mp h
    have := capacity_restore_tuple hr
    rcases r with e | _ <;> exact Nat.le_of_eq this.symm

/-! ## What a heap call does -/

/-- The slot that an insert takes is free, or the next one of a page without a free slot. -/
def MayPlace (R : Pages) (rid : RID) : Prop := ∃ n, rid.page_id = some n ∧ MayTake (R n) rid.slot_num

/-- The call changed a row. -/
def TableResult.changed : TableResult → Bool
  | .placed rid => rid.isSome
  | .found _ => false
  | .deleted d => d

/-- The call failed, or found nothing to change. -/
def Refused (r : Except String TableResult) : Prop := ∀ res, r = .ok res → res.changed = false

/-- What a step that calls the heap does to the rows, to the call and to its log. `stuck` tells
that no frame could be had. -/
inductive TableMove (stuck : Prop) (R R' : Pages) (log : List UndoRecord) :
    TableCall → TableCall → List UndoRecord → Prop
  | inserted {h : PageID} {t : List UInt8} {rid : RID} : MayPlace R rid → R' = placeRow R rid t →
      TableMove stuck R R' log (.insert h t) (.lock_inserted rid) log
  | returned {c : TableCall} {r : Except String TableResult} : R' = R → Refused r →
      (∀ l, c ≠ .undo l) → TableMove stuck R R' log c (.done r) log
  | removed {rid : RID} : R' = putRow R rid none →
      TableMove stuck R R' log (.delete_inserted rid) (.done (.ok (.placed none))) log
  | found_deleted {rid : RID} {old : List UInt8} : rowAt R rid = some (some old) → R' = R →
      TableMove stuck R R' log (.read_deleted rid) (.delete rid old) log
  | deleted {rid : RID} {bytes old : List UInt8} : rowAt R rid = some (some old) →
      R' = putRow R rid none → TableMove stuck R R' log (.delete rid bytes)
        (.done (.ok (.deleted true))) (.RestoreUndoRecord rid bytes :: log)
  | found_updated {h : PageID} {rid : RID} {t old : List UInt8} :
      rowAt R rid = some (some old) → R' = R →
      TableMove stuck R R' log (.read_updated h rid t) (.update h rid t old) log
  | updated {h : PageID} {rid : RID} {t bytes old : List UInt8} : rowAt R rid = some (some old) →
      R' = putRow R rid (some t) → TableMove stuck R R' log (.update h rid t bytes)
        (.done (.ok (.placed (some rid))))
        (.DeleteUndoRecord rid :: .RestoreUndoRecord rid bytes :: log)
  | moved {h : PageID} {rid ret_rid : RID} {t bytes old : List UInt8} : ret_rid ≠ rid →
      rowAt R rid = some (some old) → MayPlace (putRow R rid none) ret_rid →
      R' = placeRow (putRow R rid none) ret_rid t →
      TableMove stuck R R' log (.update h rid t bytes) (.lock_moved rid bytes ret_rid) log
  | lost {h : PageID} {rid : RID} {t bytes old : List UInt8} {r : Except String TableResult} :
      rowAt R rid = some (some old) → R' = putRow R rid none → Refused r →
      TableMove stuck R R' log (.update h rid t bytes) (.done r) log
  | undone {rid : RID} {rest : List UndoRecord} : R' = putRow R rid none →
      TableMove stuck R R' log (.undo (.DeleteUndoRecord rid :: rest)) (.undo rest) log
  | restored {rid : RID} {t : List UInt8} {rest : List UndoRecord} : Restorable R rid t →
      R' = putRow R rid (some t) →
      TableMove stuck R R' log (.undo (.RestoreUndoRecord rid t :: rest)) (.undo rest) log
  | skipped {u : UndoRecord} {rest : List UndoRecord} : stuck → R' = R →
      TableMove stuck R R' log (.undo (u :: rest)) (.undo rest) log

/-! ## Calls on the heaps -/

/-- The RID is on a page of the heaps. -/
def RidOn (heads : Nat → Prop) (b : BufferPoolManager) (rid : RID) : Prop :=
  ∃ n, rid.page_id = some n ∧ OnChain (succ b) heads n

def UndoRecord.On (heads : Nat → Prop) (b : BufferPoolManager) : UndoRecord → Prop
  | .DeleteUndoRecord rid => RidOn heads b rid
  | .RestoreUndoRecord rid t => RidOn heads b rid ∧ t.length < 65536

/-- The RIDs of a call are on pages of the heaps, and the sizes of its tuples fit into a slot. -/
def TableCall.On (heads : Nat → Prop) (b : BufferPoolManager) : TableCall → Prop
  | .insert h _ => ∃ k, h = some k ∧ heads k
  | .lock_inserted rid | .delete_inserted rid | .lock_read rid | .read rid | .lock_deleted rid
  | .read_deleted rid => RidOn heads b rid
  | .delete rid bytes => RidOn heads b rid ∧ bytes.length < 65536
  | .lock_updated h rid t | .read_updated h rid t =>
    (∃ k, h = some k ∧ heads k) ∧ RidOn heads b rid ∧ t.length < 65536
  | .update h rid t old =>
    (∃ k, h = some k ∧ heads k) ∧ RidOn heads b rid ∧ t.length < 65536 ∧ old.length < 65536
  | .lock_moved rid old ret_rid => RidOn heads b rid ∧ old.length < 65536 ∧ RidOn heads b ret_rid
  | .undo records => ∀ u ∈ records, u.On heads b
  | .done _ | .ended | .commit | .abort => True

/-- The step calls the heap. -/
def TableCall.calls_heap : TableCall → Bool
  | .insert _ _ | .delete_inserted _ | .read _ | .read_deleted _ | .delete _ _ | .read_updated _ _ _
  | .update _ _ _ _ | .undo (_ :: _) => true
  | _ => false

/-- The lock that the call asks for. -/
def TableCall.wants : TableCall → Option (RID × LockMode)
  | .lock_inserted rid | .lock_deleted rid | .lock_updated _ rid _ => some (rid, .EXCLUSIVE)
  | .lock_moved _ _ ret_rid => some (ret_rid, .EXCLUSIVE)
  | .lock_read rid => some (rid, .SHARED)
  | _ => none

/-- Where the call goes when it gets its lock. -/
def TableCall.granted : TableCall → TableCall
  | .lock_inserted rid => .done (.ok (.placed rid))
  | .lock_read rid => .read rid
  | .lock_deleted rid => .read_deleted rid
  | .lock_updated h rid t => .read_updated h rid t
  | .lock_moved _ _ ret_rid => .done (.ok (.placed ret_rid))
  | c => c

/-- The records that the call logs when it gets its lock. -/
def TableCall.logs : TableCall → List UndoRecord
  | .lock_inserted rid => [.DeleteUndoRecord rid]
  | .lock_moved rid old ret_rid => [.DeleteUndoRecord ret_rid, .RestoreUndoRecord rid old]
  | _ => []

/-- Where the call goes when its lock is refused. -/
def TableCall.refused : TableCall → TableCall
  | .lock_inserted rid => .delete_inserted rid
  | .lock_read _ => .done (.ok (.found none))
  | .lock_deleted _ => .done (.ok (.deleted false))
  | .lock_updated _ _ _ | .lock_moved _ _ _ => .done (.ok (.placed none))
  | c => c

/-- The state after a step that called the heap. -/
def TableSystem.after (s : TableSystem) (b : BufferPoolManager) (tx : TransactionID)
    (log : List UndoRecord) (call : TableCall) : TableSystem :=
  { s with heap := ⟨b, s.heap.outside⟩, txs := Function.update s.txs tx ⟨log, call⟩ }

@[simp] theorem after_txs_self (s : TableSystem) (b : BufferPoolManager) (tx : TransactionID)
    (log : List UndoRecord) (call : TableCall) : (s.after b tx log call).txs tx = ⟨log, call⟩ :=
  Function.update_self ..

section
variable {evicts : Prop} {heads : Nat → Prop} {pins : Nat → Nat} {pending : Nat → Prop}
  {b b' : BufferPoolManager} {s t : TableSystem} {tx : TransactionID}

/-- More heaps, and longer chains. -/
theorem RidOn.mono {heads' : Nat → Prop} {rid : RID} (h : RidOn heads b rid)
    (hheads : ∀ k, heads k → heads' k)
    (hpath : ∀ k, heads k → ∀ m, OnPath (succ b) k m → OnPath (succ b') k m) :
    RidOn heads' b' rid := by
  obtain ⟨n, hp, k, hk, hn⟩ := h
  exact ⟨n, hp, k, hheads k hk, hpath k hk n hn⟩

theorem RidOn.ran {rid : RID} (h : RidOn heads b rid) (R : Ran evicts heads pins pending b b') :
    RidOn heads b' rid :=
  h.mono (fun _ => id) R.onPath

theorem UndoRecord.On.mono {heads' : Nat → Prop} {u : UndoRecord} (h : u.On heads b)
    (hheads : ∀ k, heads k → heads' k)
    (hpath : ∀ k, heads k → ∀ m, OnPath (succ b) k m → OnPath (succ b') k m) :
    u.On heads' b' := by
  cases u with
  | DeleteUndoRecord rid => exact RidOn.mono h hheads hpath
  | RestoreUndoRecord rid t => exact ⟨h.1.mono hheads hpath, h.2⟩

theorem UndoRecord.On.ran {u : UndoRecord} (h : u.On heads b)
    (R : Ran evicts heads pins pending b b') : u.On heads b' :=
  h.mono (fun _ => id) R.onPath

theorem TableCall.On.ran {c : TableCall} (h : c.On heads b)
    (R : Ran evicts heads pins pending b b') : c.On heads b' := by
  cases c with
  | insert h' t => exact h
  | lock_inserted rid | delete_inserted rid | lock_read rid | read rid | lock_deleted rid
  | read_deleted rid => exact RidOn.ran h R
  | delete rid bytes => exact ⟨h.1.ran R, h.2⟩
  | lock_updated | read_updated => exact ⟨h.1, h.2.1.ran R, h.2.2⟩
  | update => exact ⟨h.1, h.2.1.ran R, h.2.2⟩
  | lock_moved => exact ⟨h.1.ran R, h.2.1, h.2.2.ran R⟩
  | undo records => exact fun u hu => (h u hu).ran R
  | done | ended | commit | abort => trivial

theorem go_on_eq (s : TableSystem) (b : BufferPoolManager) (tx : TransactionID)
    (call : TableCall) : s.go_on b tx call = s.after b tx (s.txs tx).undo_log call := rfl

theorem push_undo_go_on (s : TableSystem) (b : BufferPoolManager) (tx : TransactionID)
    (records : List UndoRecord) (call : TableCall) :
    (s.push_undo tx records).go_on b tx call =
      s.after b tx (records.reverse ++ (s.txs tx).undo_log) call := by
  simp [TableSystem.push_undo, TableSystem.go_on, TableSystem.after]

/-- A step that asks for a lock. -/
theorem table_step_lock {rid : RID} {mode : LockMode} {expired : Bool}
    (hw : (s.txs tx).call.wants = some (rid, mode)) : table_step s tx expired =
      some (s.lock tx rid mode expired fun granted s' => s'.after s'.heap.pool tx
        ((if granted then (s.txs tx).call.logs else []) ++ (s'.txs tx).undo_log)
        (if granted then (s.txs tx).call.granted else (s.txs tx).call.refused)) := by
  unfold table_step
  generalize (s.txs tx).call = c at hw ⊢
  cases c with
  | lock_inserted | lock_moved =>
    cases hw
    simp only [Option.some.injEq, push_undo_go_on]
    congr 1
    funext granted s'
    cases granted <;> rfl
  | lock_read | lock_deleted | lock_updated =>
    cases hw
    simp only [Option.some.injEq]
    congr 1
    funext granted s'
    cases granted <;> rfl
  | done | ended | insert | delete_inserted | read | read_deleted | delete | read_updated | update
  | commit | abort | undo => cases hw

theorem rowAt_rows (b : BufferPoolManager) (n slot : Nat) :
    rowAt (rows heads b) ⟨some n, slot⟩ = (rows heads b n)[slot]? := rfl

theorem rowAt_of_tupleOf {n slot : Nat} {old : List UInt8}
    (h : tupleOf (rows heads b n) slot = some old) :
    rowAt (rows heads b) ⟨some n, slot⟩ = some (some old) := tupleOf_eq_some.mp h

/-- The rows of a page of the heaps fit on the page. -/
theorem used_rows_le (H : HeapState evicts pins pending heads b) {n : Nat}
    (hn : OnChain (succ b) heads n) : usedBytes (rows heads b n) ≤ kPAGE_SIZE := by
  rw [rows_on hn]
  exact usedBytes_le (d := view b n) (H.pages n hn).1

theorem length_lt_of_row (H : HeapState evicts pins pending heads b) {rid : RID}
    {old : List UInt8} (h : rowAt (rows heads b) rid = some (some old)) : old.length < 65536 := by
  obtain ⟨_ | n, slot⟩ := rid
  · cases h
  have hrow : (rows heads b n)[slot]? = some (some old) := h
  have hsize : old.length ≤ liveBytes (rows heads b n) := rowSize_le_liveBytes hrow
  by_cases hn : OnChain (succ b) heads n
  · have := used_rows_le H hn
    unfold usedBytes kPAGE_SIZE sizeofPageHeader at this
    omega
  · rw [rows_off hn] at hrow
    cases hrow

/-- A free slot that gets a tuple. -/
theorem placeRow_of_free {R : Pages} {rid : RID} (h : rowAt R rid = some none) (t : List UInt8) :
    placeRow R rid t = putRow R rid (some t) := by
  obtain ⟨_ | n, slot⟩ := rid
  · rfl
  · have hlt : slot < (R n).length := (List.getElem?_eq_some_iff.mp h).1
    simp only [placeRow, putRow, place]
    rw [if_pos hlt]

/-! ## The heap calls, one by one -/

/-- What a step that called the heap leaves. -/
structure Worked (evicts : Prop) (heads : Nat → Prop) (s : TableSystem) (tx : TransactionID)
    (b : BufferPoolManager) (log : List UndoRecord) (call : TableCall) : Prop where
  ran : Ran evicts heads s.heap.outside (fun _ => False) s.heap.pool b
  move : TableMove (AllPinned s.heap.pool) (rows heads s.heap.pool) (rows heads b)
    (s.txs tx).undo_log (s.txs tx).call call log
  call_on : call.On heads b
  log_on : (∀ u ∈ (s.txs tx).undo_log, u.On heads s.heap.pool) → ∀ u ∈ log, u.On heads b

/-- A step that leaves the log as it is. -/
theorem Worked.keep {call : TableCall}
    (R : Ran evicts heads s.heap.outside (fun _ => False) s.heap.pool b)
    (M : TableMove (AllPinned s.heap.pool) (rows heads s.heap.pool) (rows heads b)
      (s.txs tx).undo_log (s.txs tx).call call (s.txs tx).undo_log)
    (hon : call.On heads b) : Worked evicts heads s tx b (s.txs tx).undo_log call :=
  ⟨R, M, hon, fun hl u hu => (hl u hu).ran R⟩

theorem get_spec (H : HeapState evicts pins pending heads b) {rid : RID} (hon : RidOn heads b rid) :
    ∃ b', Ran evicts heads pins pending b b' ∧ rows heads b' = rows heads b ∧
      ((∃ old, table_heap.get_tuple b rid = (.ok (some old), b') ∧
          rowAt (rows heads b) rid = some (some old)) ∨
        table_heap.get_tuple b rid = (.ok none, b')) := by
  obtain ⟨_, slot⟩ := rid
  obtain ⟨n, rfl, hn⟩ := hon
  rcases H.get_tuple hn slot with ⟨b', hg, R, hrows⟩ | ⟨hg, _⟩
  · refine ⟨b', R, hrows, ?_⟩
    rcases ht : (tupleOf (rows heads b n) slot).filter (! ·.isEmpty) with _ | old
    · rw [hg, ht]
      exact Or.inr rfl
    · rw [hg, ht]
      exact Or.inl ⟨old, rfl, rowAt_of_tupleOf (Option.filter_eq_some_iff.mp ht).1⟩
  · exact ⟨b, ran_refl H, rfl, Or.inr hg⟩

theorem delete_spec (H : HeapState evicts pins pending heads b) {rid : RID}
    (hon : RidOn heads b rid) :
    ∃ b', Ran evicts heads pins pending b b' ∧
      ((table_heap.delete_tuple b rid = (.ok true, b') ∧
          rows heads b' = putRow (rows heads b) rid none ∧
          ∃ old, rowAt (rows heads b) rid = some (some old)) ∨
        (table_heap.delete_tuple b rid = (.ok false, b') ∧ rows heads b' = rows heads b ∧
          (AllPinned b ∧ (b.fetch_page rid.page_id).1 = .ok none ∨
            rows heads b' = putRow (rows heads b) rid none))) := by
  obtain ⟨_, slot⟩ := rid
  obtain ⟨n, rfl, hn⟩ := hon
  rcases H.delete_tuple hn slot with ⟨b', hd, R, hrows⟩ | ⟨hd, hall⟩
  · refine ⟨b', R, ?_⟩
    rcases ht : tupleOf (rows heads b n) slot with _ | old
    · rw [hd, ht]
      refine Or.inr ⟨rfl, ?_, Or.inr hrows⟩
      rw [hrows, set_none_eq, Function.update_eq_self]
      intro old ho
      rw [tupleOf_eq_some.mpr ho] at ht
      cases ht
    · rw [hd, ht]
      exact Or.inl ⟨rfl, hrows, old, rowAt_of_tupleOf ht⟩
  · exact ⟨b, ran_refl H, Or.inr ⟨hd, rfl, Or.inl hall⟩⟩

theorem restore_spec (H : HeapState evicts pins pending heads b) {rid : RID} {t : List UInt8}
    (hon : RidOn heads b rid) (ht : t.length < 65536)
    (hdirty : evicts → ∃ f, b.page_table rid.page_id = some f ∧ (b.frames f).is_dirty = true) :
    (∃ b', table_heap.restore_tuple b rid t = some (.ok (), b') ∧
      Ran evicts heads pins pending b b' ∧
      ((Restorable (rows heads b) rid t ∧ rows heads b' = putRow (rows heads b) rid (some t)) ∨
        (AllPinned b ∧ (b.fetch_page rid.page_id).1 = .ok none ∧ rows heads b' = rows heads b))) ∨
    (table_heap.restore_tuple b rid t = none ∧ ¬ Restorable (rows heads b) rid t) := by
  obtain ⟨_, slot⟩ := rid
  obtain ⟨n, rfl, hn⟩ := hon
  rcases H.restore_tuple hn slot ht hdirty with
    ⟨b', hr, hcan, R, hrows⟩ | ⟨hr, hno⟩ | ⟨hr, hall, hno⟩
  · exact Or.inl ⟨b', hr, R, Or.inl ⟨hcan, hrows⟩⟩
  · exact Or.inr ⟨hr, hno⟩
  · exact Or.inl ⟨b, hr, ran_refl H, Or.inr ⟨hall, hno, rfl⟩⟩

variable (H : HeapState evicts s.heap.outside (fun _ => False) heads s.heap.pool)

include H

theorem step_insert {h : PageID} {tuple : List UInt8} {expired : Bool}
    (hcall : (s.txs tx).call = .insert h tuple) (hon : (s.txs tx).call.On heads s.heap.pool)
    (hstep : table_step s tx expired = some t)
    (hroom : ¬ evicts → t.heap.pool.disk_manager.capacity ≤ s.heap.pool.pool_capacity) :
    ∃ b log call, t = s.after b tx log call ∧ Worked evicts heads s tx b log call := by
  rw [hcall] at hon
  obtain ⟨k, rfl, hk⟩ := hon
  unfold table_step at hstep
  rw [hcall] at hstep
  obtain ⟨⟨r, b⟩, hr, rfl⟩ := Option.map_eq_some_iff.mp hstep
  rcases r with e | _ | rid
  all_goals
    simp only [go_on_eq] at hroom
    obtain ⟨R, hins⟩ := H.insert_tuple hk hr hroom
    refine ⟨b, _, _, rfl, .keep R ?_ ?_⟩
    all_goals try rw [hcall]
  · cases hins with
    | refused _ hrows => exact .returned hrows (by simp [Refused]) (by simp)
  · trivial
  · cases hins with
    | refused _ hrows => exact .returned hrows (by simp [Refused, TableResult.changed]) (by simp)
  · trivial
  · cases hins with
    | @placed n slot _ htake hrows => exact .inserted ⟨n, rfl, htake⟩ hrows
    | refused hno => exact absurd rfl (hno rid)
  · cases hins with
    | @placed n slot hn _ _ => exact ⟨n, rfl, k, hk, hn⟩
    | refused hno => exact absurd rfl (hno rid)

theorem step_delete_inserted {rid : RID} {expired : Bool}
    (hcall : (s.txs tx).call = .delete_inserted rid) (hon : RidOn heads s.heap.pool rid)
    (hstep : table_step s tx expired = some t) :
    ∃ b log call, t = s.after b tx log call ∧ Worked evicts heads s tx b log call := by
  unfold table_step at hstep
  rw [hcall] at hstep
  obtain ⟨b, R, ⟨hd, hrows, _⟩ | ⟨hd, hrows, _⟩⟩ := delete_spec H hon
  all_goals
    simp only [hd, Option.some.injEq] at hstep
    subst hstep
    refine ⟨b, _, _, rfl, .keep R ?_ trivial⟩
    rw [hcall]
  · exact .removed hrows
  · exact .returned hrows (by simp [Refused, TableResult.changed]) (by simp)

theorem step_read {rid : RID} {expired : Bool}
    (hcall : (s.txs tx).call = .read rid) (hon : RidOn heads s.heap.pool rid)
    (hstep : table_step s tx expired = some t) :
    ∃ b log call, t = s.after b tx log call ∧ Worked evicts heads s tx b log call := by
  unfold table_step at hstep
  rw [hcall] at hstep
  obtain ⟨b, R, hrows, ⟨old, hg, _⟩ | hg⟩ := get_spec H hon
  all_goals
    simp only [hg, Option.some.injEq] at hstep
    subst hstep
    refine ⟨b, _, _, rfl, .keep R ?_ trivial⟩
    rw [hcall]
    exact .returned hrows (by simp [Refused, TableResult.changed]) (by simp)

theorem step_read_deleted {rid : RID} {expired : Bool}
    (hcall : (s.txs tx).call = .read_deleted rid) (hon : RidOn heads s.heap.pool rid)
    (hstep : table_step s tx expired = some t) :
    ∃ b log call, t = s.after b tx log call ∧ Worked evicts heads s tx b log call := by
  unfold table_step at hstep
  rw [hcall] at hstep
  obtain ⟨b, R, hrows, ⟨old, hg, hold⟩ | hg⟩ := get_spec H hon
  all_goals
    simp only [hg, Option.some.injEq] at hstep
    subst hstep
    refine ⟨b, _, _, rfl, .keep R ?_ ?_⟩
    all_goals try rw [hcall]
  · exact .found_deleted hold hrows
  · exact ⟨hon.ran R, length_lt_of_row H hold⟩
  · exact .returned hrows (by simp [Refused, TableResult.changed]) (by simp)
  · trivial

theorem step_read_updated {h : PageID} {rid : RID} {tuple : List UInt8} {expired : Bool}
    (hcall : (s.txs tx).call = .read_updated h rid tuple)
    (hon : (s.txs tx).call.On heads s.heap.pool) (hstep : table_step s tx expired = some t) :
    ∃ b log call, t = s.after b tx log call ∧ Worked evicts heads s tx b log call := by
  rw [hcall] at hon
  obtain ⟨hh, hrid, htuple⟩ := hon
  unfold table_step at hstep
  rw [hcall] at hstep
  obtain ⟨b, R, hrows, ⟨old, hg, hold⟩ | hg⟩ := get_spec H hrid
  all_goals
    simp only [hg, Option.some.injEq] at hstep
    subst hstep
    refine ⟨b, _, _, rfl, .keep R ?_ ?_⟩
    all_goals try rw [hcall]
  · exact .found_updated hold hrows
  · exact ⟨hh, hrid.ran R, htuple, length_lt_of_row H hold⟩
  · exact .returned hrows (by simp [Refused, TableResult.changed]) (by simp)
  · trivial

theorem step_delete {rid : RID} {bytes : List UInt8} {expired : Bool}
    (hcall : (s.txs tx).call = .delete rid bytes)
    (hon : (s.txs tx).call.On heads s.heap.pool) (hstep : table_step s tx expired = some t) :
    ∃ b log call, t = s.after b tx log call ∧ Worked evicts heads s tx b log call := by
  rw [hcall] at hon
  obtain ⟨hrid, hbytes⟩ := hon
  unfold table_step at hstep
  rw [hcall] at hstep
  obtain ⟨b, R, ⟨hd, hrows, old, hold⟩ | ⟨hd, hrows, _⟩⟩ := delete_spec H hrid
  all_goals simp only [hd, Option.some.injEq, push_undo_go_on] at hstep
  · subst hstep
    refine ⟨b, _, _, rfl, R, ?_, trivial, ?_⟩
    · rw [hcall]
      exact .deleted hold hrows
    · intro hl u hu
      rcases List.mem_cons.mp hu with rfl | hu
      · exact ⟨hrid.ran R, hbytes⟩
      · exact (hl u hu).ran R
  · subst hstep
    refine ⟨b, _, _, rfl, .keep R ?_ trivial⟩
    rw [hcall]
    exact .returned hrows (by simp [Refused, TableResult.changed]) (by simp)

theorem step_update {h : PageID} {rid : RID} {tuple old : List UInt8} {expired : Bool}
    (hcall : (s.txs tx).call = .update h rid tuple old)
    (hon : (s.txs tx).call.On heads s.heap.pool) (hstep : table_step s tx expired = some t)
    (hroom : ¬ evicts → t.heap.pool.disk_manager.capacity ≤ s.heap.pool.pool_capacity) :
    ∃ b log call, t = s.after b tx log call ∧ Worked evicts heads s tx b log call := by
  rw [hcall] at hon
  obtain ⟨⟨k, rfl, hk⟩, hrid, htuple, hold⟩ := hon
  have hrid' := hrid
  obtain ⟨_, slot⟩ := rid
  obtain ⟨n, rfl, hn⟩ := hrid'
  unfold table_step at hstep
  rw [hcall] at hstep
  obtain ⟨⟨r, b⟩, hr, rfl⟩ := Option.map_eq_some_iff.mp hstep
  -- the two records of an update whose tuple kept its RID
  have hpush : Ran evicts heads s.heap.outside (fun _ => False) s.heap.pool b →
      (∀ u ∈ (s.txs tx).undo_log, u.On heads s.heap.pool) →
      ∀ u ∈ .DeleteUndoRecord ⟨some n, slot⟩ :: .RestoreUndoRecord ⟨some n, slot⟩ old ::
        (s.txs tx).undo_log, u.On heads b := by
    intro R hl u hu
    rcases List.mem_cons.mp hu with rfl | hu
    · exact hrid.ran R
    rcases List.mem_cons.mp hu with rfl | hu
    · exact ⟨hrid.ran R, hold⟩
    · exact (hl u hu).ran R
  rcases r with e | _ | ret_rid
  · obtain ⟨R, hup⟩ := H.update_tuple hk hn htuple hr hroom
    refine ⟨b, _, _, go_on_eq s b tx _, .keep R ?_ trivial⟩
    rw [hcall]
    cases hup with
    | moved hlive hmid _ hins =>
      cases hins with
      | refused _ hrows =>
        exact .lost (rowAt_of_tupleOf hlive) (hrows.trans hmid) (by simp [Refused])
  · obtain ⟨R, hup⟩ := H.update_tuple hk hn htuple hr hroom
    refine ⟨b, _, _, go_on_eq s b tx _, .keep R ?_ trivial⟩
    rw [hcall]
    have hno : Refused (.ok (.placed none)) := by simp [Refused, TableResult.changed]
    cases hup with
    | not_found _ hrows => exact .returned hrows hno (by simp)
    | no_frame _ hrows => exact .returned hrows hno (by simp)
    | moved hlive hmid _ hins =>
      cases hins with
      | refused _ hrows => exact .lost (rowAt_of_tupleOf hlive) (hrows.trans hmid) hno
  · have hroom' : ¬ evicts → b.disk_manager.capacity ≤ s.heap.pool.pool_capacity := by
      intro he
      have := hroom he
      simp only at this
      split at this
      · exact this
      · rw [push_undo_go_on] at this
        exact this
    obtain ⟨R, hup⟩ := H.update_tuple hk hn htuple hr hroom'
    simp only [push_undo_go_on]
    cases hup with
    | in_place hlive hrows =>
      rw [if_neg (by simp)]
      refine ⟨b, _, _, rfl, R, ?_, trivial, hpush R⟩
      rw [hcall]
      exact .updated (rowAt_of_tupleOf hlive) hrows
    | moved hlive hmid _ hins =>
      cases hins with
      | refused hno => exact absurd rfl (hno ret_rid)
      | @placed m slot' hon' htake hrows =>
        have hlive' := rowAt_of_tupleOf hlive
        rw [hmid] at htake hrows
        have hplaced : rows heads b = placeRow (putRow (rows heads s.heap.pool) ⟨some n, slot⟩ none)
            ⟨some m, slot'⟩ tuple := hrows
        by_cases hne : (⟨some m, slot'⟩ : RID) = ⟨some n, slot⟩
        · -- the tuple went back to its own slot
          rw [if_neg (by simp [hne]), hne]
          refine ⟨b, _, _, rfl, R, ?_, trivial, hpush R⟩
          rw [hcall]
          apply TableMove.updated hlive'
          rw [hne, placeRow_of_free (rowAt_putRow_self hlive'), putRow_putRow] at hplaced
          exact hplaced
        · rw [if_pos hne]
          refine ⟨b, _, _, rfl, .keep R ?_ ⟨hrid.ran R, hold, m, rfl, k, hk, hon'⟩⟩
          rw [hcall]
          exact .moved hne hlive' ⟨m, rfl, htake⟩ hplaced

/-- The undo of a record that deletes a tuple always goes on, and deletes the tuple when it can
fetch the page. -/
theorem step_undo_delete {rid : RID} {rest : List UndoRecord} (expired : Bool)
    (hcall : (s.txs tx).call = .undo (.DeleteUndoRecord rid :: rest))
    (hon : (s.txs tx).call.On heads s.heap.pool) :
    ∃ b, table_step s tx expired = some (s.after b tx (s.txs tx).undo_log (.undo rest)) ∧
      Worked evicts heads s tx b (s.txs tx).undo_log (.undo rest) ∧
      ((s.heap.pool.fetch_page rid.page_id).1 ≠ .ok none →
        rows heads b = putRow (rows heads s.heap.pool) rid none) := by
  rw [hcall] at hon
  have hrid : RidOn heads s.heap.pool rid := hon (.DeleteUndoRecord rid) (by simp)
  have hrest : ∀ b, Ran evicts heads s.heap.outside (fun _ => False) s.heap.pool b →
      TableCall.On heads b (.undo rest) :=
    fun b R u hu => (hon u (by simp [hu])).ran R
  unfold table_step
  rw [hcall]
  obtain ⟨b, R, ⟨hd, hrows, _⟩ | ⟨hd, hrows, hstuck⟩⟩ := delete_spec H hrid
  all_goals
    simp only [hd]
    refine ⟨b, rfl, .keep R ?_ (hrest b R), fun hf => ?_⟩
    all_goals try rw [hcall]
  · exact .undone hrows
  · exact hrows
  · rcases hstuck with ⟨hall, _⟩ | hrows'
    · exact .skipped hall hrows
    · exact .undone hrows'
  · exact hstuck.resolve_left fun h => hf h.2

/-- The undo of a record that restores a tuple goes on when the assertions hold, and puts the tuple
back when it can fetch the page. -/
theorem step_undo_restore {rid : RID} {tuple : List UInt8} {rest : List UndoRecord}
    (expired : Bool) (hcall : (s.txs tx).call = .undo (.RestoreUndoRecord rid tuple :: rest))
    (hon : (s.txs tx).call.On heads s.heap.pool)
    (hdirty : evicts → ∃ f, s.heap.pool.page_table rid.page_id = some f ∧
      (s.heap.pool.frames f).is_dirty = true) :
    (∃ b, table_step s tx expired = some (s.after b tx (s.txs tx).undo_log (.undo rest)) ∧
      Worked evicts heads s tx b (s.txs tx).undo_log (.undo rest) ∧
      ((s.heap.pool.fetch_page rid.page_id).1 ≠ .ok none →
        rows heads b = putRow (rows heads s.heap.pool) rid (some tuple))) ∨
    (table_step s tx expired = none ∧ ¬ Restorable (rows heads s.heap.pool) rid tuple) := by
  rw [hcall] at hon
  obtain ⟨hrid, htuple⟩ := hon (.RestoreUndoRecord rid tuple) (by simp)
  unfold table_step
  rw [hcall]
  rcases restore_spec H hrid htuple hdirty with ⟨b, hr, R, hcases⟩ | ⟨hr, hno⟩
  · left
    simp only [hr]
    refine ⟨b, rfl, .keep R ?_ fun u hu => (hon u (by simp [hu])).ran R, fun hf => ?_⟩
    · rw [hcall]
      rcases hcases with ⟨hcan, hrows⟩ | ⟨hall, _, hrows⟩
      · exact .restored hcan hrows
      · exact .skipped hall hrows
    · exact (hcases.resolve_right fun h => hf h.2.1).2
  · right
    simp only [hr]
    exact ⟨rfl, hno⟩

/-- Every step that calls the heap. -/
theorem table_step_works {expired : Bool} (hon : (s.txs tx).call.On heads s.heap.pool)
    (hheap : (s.txs tx).call.calls_heap = true) (hstep : table_step s tx expired = some t)
    (hroom : ¬ evicts → t.heap.pool.disk_manager.capacity ≤ s.heap.pool.pool_capacity)
    (hdirty : evicts → ∀ rid tuple rest,
      (s.txs tx).call = .undo (.RestoreUndoRecord rid tuple :: rest) →
      ∃ f, s.heap.pool.page_table rid.page_id = some f ∧ (s.heap.pool.frames f).is_dirty = true) :
    ∃ b log call, t = s.after b tx log call ∧ Worked evicts heads s tx b log call := by
  have hrid : ∀ {c : TableCall}, (s.txs tx).call = c → c.On heads s.heap.pool := by
    rintro c rfl
    exact hon
  cases hcall : (s.txs tx).call with
  | insert h tuple => exact step_insert H hcall hon hstep hroom
  | delete_inserted rid => exact step_delete_inserted H hcall (hrid hcall) hstep
  | read rid => exact step_read H hcall (hrid hcall) hstep
  | read_deleted rid => exact step_read_deleted H hcall (hrid hcall) hstep
  | delete rid bytes => exact step_delete H hcall hon hstep
  | read_updated h rid tuple => exact step_read_updated H hcall hon hstep
  | update h rid tuple old => exact step_update H hcall hon hstep hroom
  | undo records =>
    rcases records with _ | ⟨⟨rid⟩ | ⟨rid, tuple⟩, rest⟩
    · rw [hcall] at hheap
      cases hheap
    · obtain ⟨b, hs, W, _⟩ := step_undo_delete H expired hcall hon
      rw [hs] at hstep
      exact ⟨b, _, _, (Option.some.inj hstep).symm, W⟩
    · rcases step_undo_restore H expired hcall hon fun he => hdirty he rid tuple rest hcall with
        ⟨b, hs, W, _⟩ | ⟨hs, _⟩
      · rw [hs] at hstep
        exact ⟨b, _, _, (Option.some.inj hstep).symm, W⟩
      · rw [hs] at hstep
        cases hstep
  | done | ended | lock_inserted | lock_read | lock_deleted | lock_updated | lock_moved | commit
  | abort =>
    rw [hcall] at hheap
    cases hheap

end

end duck.table
