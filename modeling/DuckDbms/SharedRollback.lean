-- Undo logs of transactions that share pages. The locks of a transaction keep
-- the others off its RIDs, but not off the bytes that it freed on their pages:
-- what it needs to be rolled back is that the others leave it that room.
import DuckDbms.TableLocks
import DuckDbms.Rollback

open machine duck.slotted_page duck.buffer_pool duck.lock_manager duck.table_heap chain

namespace duck.table

/-! ## Before-images -/

/-- The transactions, and for each one the tuples that its RIDs had before it first changed
them. -/
structure ImageHistory where
  system : TableSystem
  before : TransactionID → RID → Option (List UInt8)

/-- The tuple of a RID, from its page in the pool. -/
def tupleAt (b : BufferPoolManager) (rid : RID) : Option (List UInt8) :=
  rid.page_id.bind fun n => tupleOf (rowsOf (view b n)) rid.slot_num

/-- The RID of the tuple that a step changed. -/
def changed : TableCall → TableCall → Option RID
  | .delete rid _, .done (.ok (.deleted true)) => some rid
  | .update _ rid _ _, .done (.ok (.placed (some _))) => some rid
  | .update _ rid _ _, .lock_moved _ _ _ => some rid
  | _, _ => none

namespace ImageHistory

variable (s : ImageHistory)

/-- A step of a transaction. What it changed first is kept. -/
def note (tx : TransactionID) (t : TableSystem) : ImageHistory where
  system := t
  before :=
    match changed (s.system.txs tx).call (t.txs tx).call with
    | some rid => Function.update s.before tx (Function.update (s.before tx) rid
        ((s.before tx rid).or (tupleAt s.system.heap.pool rid)))
    | none => s.before

def next : TableEvent → Option ImageHistory
  | .step tx expired => (table_step s.system tx expired).map (s.note tx)
  | e => (s.system.next e).map fun t => { s with system := t }

end ImageHistory

/-- Every transaction begins, over the heaps of a pool. -/
def imageMachine (evicts : Prop) (heads : Nat → Prop) : Machine ImageHistory TableEvent where
  start s := HeapState evicts s.system.heap.outside (fun _ => False) heads s.system.heap.pool ∧
    s.system.locks = fresh ∧ (s.system.txs = fun _ => {}) ∧ s.before = fun _ _ => none
  next := ImageHistory.next

/-- The records that a transaction has yet to undo. -/
def TableTx.remaining (x : TableTx) : List UndoRecord :=
  match x.call with
  | .undo l => l
  | .ended => []
  | _ => x.undo_log

/-- The abort of a transaction goes on from record to record, finds the slot of each tuple free
and enough room on its page, and leaves every RID that the transaction changed with the tuple
that it had before. -/
structure PutsBack (heads : Nat → Prop) (tx : TransactionID) (s : ImageHistory) : Prop where
  goes_on : ∀ u rest expired, (s.system.txs tx).call = .undo (u :: rest) →
    ∃ t, table_step s.system tx expired = some t ∧ (t.txs tx).call = .undo rest
  restores : ∀ rid tuple rest, (s.system.txs tx).call = .undo (.RestoreUndoRecord rid tuple :: rest) →
    Restorable (rows heads s.system.heap.pool) rid tuple
  images : (s.system.txs tx).call = .undo [] → ∀ rid old, s.before tx rid = some old →
    tupleAt s.system.heap.pool rid = some old

/-! ## Room for the others -/

/-- The tuples that undo logs restore are not lost when their pages are written back: the pool has
a frame for every page, or a restore finds its page dirty. -/
structure RestoresStay (evicts : Prop) (s t : TableSystem) (tx : TransactionID) : Prop where
  frames : ¬ evicts → t.heap.pool.disk_manager.capacity ≤ s.heap.pool.pool_capacity
  dirty : evicts → ∀ rid tuple rest, (s.txs tx).call = .undo (.RestoreUndoRecord rid tuple :: rest) →
    ∃ f, s.heap.pool.page_table rid.page_id = some f ∧ (s.heap.pool.frames f).is_dirty = true

/-- A step of the transaction `tx` beside the transaction `T`, on rows of its own. -/
structure OnOwnRows (evicts : Prop) (heads : Nat → Prop) (T : TransactionID) (s t : TableSystem)
    (tx : TransactionID) : Prop extends RestoresStay evicts s t tx where
  /-- no tuple is placed on a RID that another transaction has locked for itself, nor taken back
  from one -/
  placed : ∀ rid, (s.txs tx).call.placed = none → (t.txs tx).call.placed = some rid →
    ∀ V, V ≠ tx → rid ∉ (s.locks.txs V).exclusive_locks
  taken_back : ∀ rid, (s.txs tx).call = .delete_inserted rid →
    ∀ V, V ≠ tx → rid ∉ (s.locks.txs V).exclusive_locks
  /-- the updates of `T` keep their RID, or change nothing, and its undo fetches its pages -/
  in_place : tx = T → ∀ h rid tuple old, (s.txs tx).call = .update h rid tuple old →
    (t.txs tx).call = .done (.ok (.placed (some rid))) ∨
      rows heads t.heap.pool = rows heads s.heap.pool
  fetches : tx = T → ∀ u rest, (s.txs tx).call = .undo (u :: rest) →
    reaches s.heap.pool u.rid = true

/-- When another transaction uses more bytes of a page, the log of `T` still fits. -/
structure LeavesRoom (evicts : Prop) (heads : Nat → Prop) (T : TransactionID) (s t : TableSystem)
    (tx : TransactionID) : Prop extends OnOwnRows evicts heads T s t tx where
  room : tx ≠ T → (∀ n, usedBytes (rows heads t.heap.pool n) ≤ usedBytes (rows heads s.heap.pool n)) ∨
    fullest (s.txs T).remaining (rows heads t.heap.pool) ≤ kPAGE_SIZE

/-- The calls work on the heaps, those of `T` insert nothing, and the steps meet `ok`. -/
def SharesPages (heads : Nat → Prop) (T : TransactionID)
    (ok : TableSystem → TableSystem → TransactionID → Prop) (s : ImageHistory) : TableEvent → Prop
  | .call tx op => op.call.On heads s.system.heap.pool ∧
      (tx = T → ∀ h tuple, op ≠ .insert_tuple h tuple)
  | .step tx expired => ∀ t, table_step s.system tx expired = some t → ok s.system t tx
  | .fetch _ | .unpin _ => True

theorem SharesPages.mono {heads : Nat → Prop} {T : TransactionID} {s : ImageHistory}
    {e : TableEvent} {ok ok' : TableSystem → TableSystem → TransactionID → Prop}
    (h : SharesPages heads T ok s e) (hle : ∀ s t tx, ok s t tx → ok' s t tx) :
    SharesPages heads T ok' s e := by
  cases e with
  | call => exact h
  | step tx expired => exact fun t ht => hle _ _ _ (h t ht)
  | fetch | unpin => trivial

/-! ## What the transactions hold -/

/-- The RID that a call has locked for itself while it works on it. -/
def TableCall.locked : TableCall → Option RID
  | .read_deleted rid | .delete rid _ | .read_updated _ rid _ | .update _ rid _ _
  | .lock_moved rid _ _ => some rid
  | _ => none

/-- The RIDs of a call and of its log are locked until the transaction ends. -/
structure TxHolds (s : TableSystem) (tx : TransactionID) : Prop where
  locked : ∀ rid, (s.txs tx).call.locked = some rid → rid ∈ (s.locks.txs tx).exclusive_locks
  log : (s.txs tx).call ≠ .ended → ∀ u ∈ (s.txs tx).undo_log,
    u.rid ∈ (s.locks.txs tx).exclusive_locks
  undo : ∀ l, (s.txs tx).call = .undo l → ∀ u ∈ l, u.rid ∈ (s.locks.txs tx).exclusive_locks

section
variable {s t : TableSystem} {tx : TransactionID} {expired : Bool}

theorem TxHolds.remaining (T : TxHolds s tx) : ∀ u ∈ (s.txs tx).remaining,
    u.rid ∈ (s.locks.txs tx).exclusive_locks := by
  have hlog := T.log
  have hundo := T.undo
  unfold TableTx.remaining
  cases hc : (s.txs tx).call with
  | undo l => exact hundo l hc
  | ended => simp
  | _ => exact hlog (by rw [hc]; simp)

theorem TxHolds.congr {U : TransactionID} (T : TxHolds s U) (htx : t.txs U = s.txs U)
    (hl : ∀ rid ∈ (s.locks.txs U).exclusive_locks, rid ∈ (t.locks.txs U).exclusive_locks) :
    TxHolds t U := by
  refine ⟨?_, ?_, ?_⟩ <;> rw [htx]
  · exact fun rid h => hl rid (T.locked rid h)
  · exact fun hne u hu => hl _ (T.log hne u hu)
  · exact fun l h u hu => hl _ (T.undo l h u hu)

/-- The call of the transaction goes to a place without a lock of its own, with the same log. -/
theorem TxHolds.go_on (T : TxHolds s tx) (b : BufferPoolManager) {call : TableCall}
    (hne : (s.txs tx).call ≠ .ended) (hlocked : call.locked = none)
    (hundo : ∀ l, call = .undo l → ∀ u ∈ l, u.rid ∈ (s.locks.txs tx).exclusive_locks) :
    TxHolds (s.after b tx (s.txs tx).undo_log call) tx := by
  refine ⟨fun rid h => ?_, fun _ => ?_, fun l h => ?_⟩ <;>
    simp only [TableSystem.after, Function.update_self] at *
  · rw [hlocked] at h
    cases h
  · exact T.log hne
  · exact hundo l h

theorem txHolds_heap (T : TxHolds s tx) {b : BufferPoolManager} {log : List UndoRecord}
    {call : TableCall} (M : HeapMove (s.txs tx).undo_log (s.txs tx).call call log)
    (hheap : (s.txs tx).call.calls_heap = true) : TxHolds (s.after b tx log call) tx := by
  have hlocked := T.locked
  have hundo := T.undo
  have hlog := T.log (by rintro h; rw [h] at hheap; cases hheap)
  have after : (((s.after b tx log call).txs tx).call = call ∧
      ((s.after b tx log call).txs tx).undo_log = log) ∧
      (s.after b tx log call).locks = s.locks := by
    simp [TableSystem.after]
  obtain ⟨⟨hcall, hlog'⟩, hlocks⟩ := after
  generalize (s.txs tx).call = c at M hlocked hundo
  generalize (s.txs tx).undo_log = log0 at M hlog
  refine ⟨?_, ?_, ?_⟩ <;> rw [hcall, hlocks]
  · cases M with
    | inserted | returned | deleted | updated | undone | failed => exact fun rid h => by cases h
    | found_deleted | found_updated => exact fun rid h => hlocked rid h
    | moved => exact fun rid h => hlocked rid h
  · rw [hlog']
    intro _
    cases M with
    | deleted =>
      refine List.forall_mem_cons.mpr ⟨hlocked _ rfl, hlog⟩
    | updated =>
      refine List.forall_mem_cons.mpr ⟨hlocked _ rfl, ?_⟩
      exact List.forall_mem_cons.mpr ⟨hlocked _ rfl, hlog⟩
    | inserted | returned | found_deleted | found_updated | moved | undone | failed => exact hlog
  · intro l h
    cases M with
    | undone =>
      cases h
      exact (List.forall_mem_cons.mp (hundo _ rfl)).2
    | inserted | returned | deleted | updated | found_deleted | found_updated | moved | failed =>
      cases h

/-- A step keeps the locks under the calls and the logs of all transactions. -/
theorem txHolds_step (I : TableLocked s) (H : ∀ U, TxHolds s U)
    (hstep : table_step s tx expired = some t) (U : TransactionID) : TxHolds t U := by
  by_cases hU : U = tx
  swap
  · obtain ⟨htx, hl⟩ := table_step_other hstep hU
    exact (H U).congr htx fun rid h => by rwa [hl]
  subst hU
  have T := H U
  have hgrows : ∀ {rid mode l r}, lockCall s.locks U rid mode expired = (l, r) →
      ∀ rid ∈ (s.locks.txs U).exclusive_locks, rid ∈ (l.txs U).exclusive_locks := by
    intro rid mode l r hl rid' h
    have := exclusive_lockCall U rid mode expired h
    rwa [hl] at this
  cases table_step_cases hstep with
  | asleep hw hl => exact T.congr rfl (hgrows hl)
  | @granted rid mode l hw hl =>
    have hcov := (I.answered hw hl).1
    have hg := hgrows hl
    have hlog := T.log (by intro h; rw [h] at hw; cases hw)
    have hlocked := T.locked
    have after : ∀ log call, (((({ s with locks := l } : TableSystem).after s.heap.pool U log
        call).txs U).call = call ∧ ((({ s with locks := l } : TableSystem).after s.heap.pool U log
        call).txs U).undo_log = log) := by
      simp [TableSystem.after]
    refine ⟨?_, ?_, ?_⟩ <;> rw [(after _ _).1]
    · intro rid' h
      cases hc : (s.txs U).call <;> rw [hc] at hw h <;> cases hw <;> cases h <;> exact hcov
    · rw [(after _ _).2]
      intro _ u hu
      rcases List.mem_append.mp hu with hu | hu
      · cases hc : (s.txs U).call with
        | lock_inserted =>
          rw [hc] at hw hu
          cases hw
          obtain rfl := List.mem_singleton.mp hu
          exact hcov
        | lock_moved =>
          rw [hc] at hw hu hlocked
          cases hw
          rcases List.mem_cons.mp hu with rfl | hu
          · exact hcov
          · obtain rfl := List.mem_singleton.mp hu
            exact hg _ (hlocked _ rfl)
        | _ =>
          rw [hc] at hu
          cases hu
      · exact hg _ (hlog u hu)
    · intro l' h
      cases hc : (s.txs U).call <;> rw [hc] at hw h <;> cases hw <;> cases h
  | @refused rid mode l hw hl =>
    have T' : TxHolds { s with locks := l } U := T.congr rfl (hgrows hl)
    refine T'.go_on s.heap.pool (by intro h; rw [h] at hw; cases hw) ?_ ?_
    · cases hc : (s.txs U).call <;> rw [hc] at hw <;> cases hw <;> rfl
    · intro l' h
      cases hc : (s.txs U).call <;> rw [hc] at hw h <;> cases hw <;> cases h
  | committed hc | aborted hc =>
    refine ⟨?_, ?_, ?_⟩ <;> simp [TableSystem.finish, TableSystem.go_on, TableCall.locked]
  | aborting hc =>
    have T' : TxHolds (s.set_state U .SHRINKING) U := by
      refine T.congr rfl fun rid h => ?_
      simpa [TableSystem.set_state, LockSystem.set_tx] using h
    have hne : (s.txs U).call ≠ .ended := by rw [hc]; simp
    refine T'.go_on s.heap.pool hne rfl fun l h => ?_
    cases h
    exact T'.log hne
  | heap hm hh => exact txHolds_heap T hm hh

end

/-! ## Where the transactions work -/

/-- The calls and the logs of all transactions are on pages of the heaps. -/
structure CallsOn (evicts : Prop) (heads : Nat → Prop) (s : TableSystem) : Prop where
  heap : HeapState evicts s.heap.outside (fun _ => False) heads s.heap.pool
  call : ∀ tx, (s.txs tx).call.On heads s.heap.pool
  log : ∀ tx, ∀ u ∈ (s.txs tx).undo_log, u.On heads s.heap.pool

section
variable {evicts : Prop} {heads : Nat → Prop} {s t : TableSystem} {tx : TransactionID}
  {expired : Bool}

theorem CallsOn.worked (C : CallsOn evicts heads s) {b : BufferPoolManager}
    {log : List UndoRecord} {call : TableCall} (W : Worked evicts heads s tx b log call) :
    CallsOn evicts heads (s.after b tx log call) := by
  refine ⟨W.ran.heap, fun U => ?_, fun U => ?_⟩ <;> simp only [TableSystem.after]
  · by_cases hU : U = tx
    · subst hU
      rw [Function.update_self]
      exact W.call_on
    · rw [Function.update_of_ne hU]
      exact (C.call U).ran W.ran
  · by_cases hU : U = tx
    · subst hU
      rw [Function.update_self]
      exact W.log_on (C.log U)
    · rw [Function.update_of_ne hU]
      exact fun u hu => (C.log U u hu).ran W.ran

/-- A step that leaves the pool alone. -/
theorem CallsOn.stay (C : CallsOn evicts heads s) (hheap : t.heap = s.heap)
    (hother : ∀ U, U ≠ tx → t.txs U = s.txs U) (hcall : (t.txs tx).call.On heads s.heap.pool)
    (hlog : ∀ u ∈ (t.txs tx).undo_log, u.On heads s.heap.pool) : CallsOn evicts heads t := by
  refine ⟨by rw [hheap]; exact C.heap, fun U => ?_, fun U => ?_⟩ <;> rw [hheap]
  · by_cases hU : U = tx
    · subst hU
      exact hcall
    · rw [hother U hU]
      exact C.call U
  · by_cases hU : U = tx
    · subst hU
      exact hlog
    · rw [hother U hU]
      exact C.log U

theorem on_lock {c : TableCall} {rid : RID} {mode : LockMode} {b : BufferPoolManager}
    (hw : c.wants = some (rid, mode)) (hon : c.On heads b) :
    c.granted.On heads b ∧ c.refused.On heads b ∧ ∀ u ∈ c.logs, u.On heads b := by
  cases c with
  | lock_inserted => exact ⟨trivial, hon, List.forall_mem_singleton.mpr hon⟩
  | lock_read => exact ⟨hon, trivial, by simp [TableCall.logs]⟩
  | lock_deleted => exact ⟨hon, trivial, by simp [TableCall.logs]⟩
  | lock_updated => exact ⟨hon, trivial, by simp [TableCall.logs]⟩
  | lock_moved =>
    refine ⟨trivial, trivial, List.forall_mem_cons.mpr ⟨hon.2.2, ?_⟩⟩
    exact List.forall_mem_singleton.mpr ⟨hon.1, hon.2.1⟩
  | done | ended | insert | delete_inserted | read | read_deleted | delete | read_updated | update
  | commit | abort | undo => cases hw

/-- A step calls the heap, or leaves it as it is. -/
theorem heap_step (C : CallsOn evicts heads s) (hstep : table_step s tx expired = some t)
    (hroom : ¬ evicts → t.heap.pool.disk_manager.capacity ≤ s.heap.pool.pool_capacity)
    (hdirty : evicts → ∀ rid tuple rest,
      (s.txs tx).call = .undo (.RestoreUndoRecord rid tuple :: rest) →
      ∃ f, s.heap.pool.page_table rid.page_id = some f ∧ (s.heap.pool.frames f).is_dirty = true) :
    (∃ b log call, t = s.after b tx log call ∧ Worked evicts heads s tx b log call) ∨
      t.heap = s.heap := by
  cases hh : (s.txs tx).call.calls_heap with
  | true => exact Or.inl (table_step_works C.heap (C.call tx) hh hstep hroom hdirty)
  | false =>
    right
    cases table_step_cases hstep with
    | heap _ hheap =>
      rw [hh] at hheap
      cases hheap
    | asleep | granted | refused | committed | aborting | aborted => rfl

theorem callsOn_step (C : CallsOn evicts heads s) (hstep : table_step s tx expired = some t)
    (hroom : ¬ evicts → t.heap.pool.disk_manager.capacity ≤ s.heap.pool.pool_capacity)
    (hdirty : evicts → ∀ rid tuple rest,
      (s.txs tx).call = .undo (.RestoreUndoRecord rid tuple :: rest) →
      ∃ f, s.heap.pool.page_table rid.page_id = some f ∧ (s.heap.pool.frames f).is_dirty = true) :
    CallsOn evicts heads t := by
  have hother := fun U (hU : U ≠ tx) => (table_step_other hstep hU).1
  cases table_step_cases hstep with
  | heap _ hh =>
    obtain ⟨b, log, call, ht, W⟩ := table_step_works C.heap (C.call tx) hh hstep hroom hdirty
    rw [ht]
    exact C.worked W
  | asleep => exact C.stay rfl hother (C.call tx) (C.log tx)
  | granted hw =>
    obtain ⟨h1, _, h3⟩ := on_lock hw (C.call tx)
    refine C.stay rfl hother ?_ ?_ <;> simp only [TableSystem.after, Function.update_self]
    · exact h1
    · intro u hu
      exact (List.mem_append.mp hu).elim (h3 u) (C.log tx u)
  | refused hw =>
    obtain ⟨_, h2, _⟩ := on_lock hw (C.call tx)
    refine C.stay rfl hother ?_ ?_ <;> simp only [TableSystem.after, Function.update_self]
    · exact h2
    · exact C.log tx
  | committed | aborted =>
    refine C.stay rfl hother ?_ ?_ <;>
      simp only [TableSystem.finish, TableSystem.go_on, TableSystem.set_state, Function.update_self]
    · trivial
    · exact C.log tx
  | aborting =>
    refine C.stay rfl hother ?_ ?_ <;>
      simp only [TableSystem.go_on, TableSystem.set_state, Function.update_self]
    · exact C.log tx
    · exact C.log tx

theorem CallsOn.remaining_on (C : CallsOn evicts heads s) (tx : TransactionID) :
    ∀ u ∈ (s.txs tx).remaining, u.On heads s.heap.pool := by
  have hcall := C.call tx
  unfold TableTx.remaining
  cases hc : (s.txs tx).call with
  | undo l =>
    rw [hc] at hcall
    exact hcall
  | ended => simp
  | _ => exact C.log tx

theorem UndoRecord.On.rid {u : UndoRecord} {b : BufferPoolManager} (h : u.On heads b) :
    RidOn heads b u.rid := by
  cases u with
  | DeleteUndoRecord => exact h
  | RestoreUndoRecord => exact h.1

theorem callsOn_call (C : CallsOn evicts heads s) {op : TableOp} (hop : op.call.On heads s.heap.pool) :
    CallsOn evicts heads (s.begin_call tx op) := by
  have hsys : s.begin_call tx op = s.after s.heap.pool tx (s.txs tx).undo_log op.call := rfl
  refine C.stay rfl (fun U hU => Function.update_of_ne hU _ _) ?_ ?_ <;> rw [hsys, after_txs_self]
  · exact hop
  · exact C.log tx

/-- The pool may change in any way that leaves the rows and the links alone. -/
theorem CallsOn.heap_same (C : CallsOn evicts heads s) {heap : HeapPool}
    (H : HeapState evicts heap.outside (fun _ => False) heads heap.pool)
    (hc : contents heap.pool = contents s.heap.pool) :
    CallsOn evicts heads { s with heap } := by
  have hsucc : succ heap.pool = succ s.heap.pool := by
    unfold succ
    rw [hc]
  have hrid : ∀ rid, RidOn heads heap.pool rid = RidOn heads s.heap.pool rid := by
    intro rid
    unfold RidOn
    rw [hsucc]
  have hu : ∀ u : UndoRecord, u.On heads heap.pool = u.On heads s.heap.pool := by
    intro u
    cases u <;> simp [UndoRecord.On, hrid]
  refine ⟨H, fun U => ?_, fun U u h => (hu u).mpr (C.log U u h)⟩
  have hon := C.call U
  have hcall : ∀ c : TableCall, c.On heads heap.pool = c.On heads s.heap.pool := by
    intro c
    cases c <;> simp [TableCall.On, hrid, hu]
  exact (hcall _).mpr hon

/-- The calls work on the heaps. -/
def OnHeaps (evicts : Prop) (heads : Nat → Prop) (s : TableSystem) : TableEvent → Prop
  | .call _ op => op.call.On heads s.heap.pool
  | .step tx expired => ∀ t, table_step s tx expired = some t → RestoresStay evicts s t tx
  | .fetch _ | .unpin _ => True

theorem CallsOn.next {e : TableEvent} (C : CallsOn evicts heads s) (hok : OnHeaps evicts heads s e)
    (h : s.next e = some t) : CallsOn evicts heads t := by
  cases e with
  | call tx op =>
    unfold TableSystem.next at h
    simp only at h
    split at h
    · cases h
      exact callsOn_call C hok
    · cases h
  | step tx expired => exact callsOn_step C h (hok t h).frames (hok t h).dirty
  | fetch n =>
    obtain ⟨heap, hheap, rfl⟩ := Option.map_eq_some_iff.mp h
    obtain ⟨H, hc⟩ := evict_fetch C.heap hheap
    exact C.heap_same H hc
  | unpin n =>
    obtain ⟨heap, hheap, rfl⟩ := Option.map_eq_some_iff.mp h
    obtain ⟨H, hc⟩ := evict_unpin C.heap hheap
    exact C.heap_same H hc

theorem callsOn_start (H : HeapState evicts s.heap.outside (fun _ => False) heads s.heap.pool)
    (htx : s.txs = fun _ => {}) : CallsOn evicts heads s := by
  refine ⟨H, fun tx => ?_, fun tx => ?_⟩
  · rw [htx]
    trivial
  · simp [htx]

end

/-! ## What the undo log of a transaction needs -/

section
variable {R R' : Pages} {rid : RID} {l : List UndoRecord} {u : UndoRecord}

/-- What the records put back at a RID depends on the row of that RID only. -/
theorem rowAt_undo_congr (h : rowAt R' rid = rowAt R rid) :
    rowAt (l.foldl undoRow R') rid = rowAt (l.foldl undoRow R) rid := by
  induction l generalizing R R' with
  | nil => exact h
  | cons u l ih =>
    apply ih
    have hput : ∀ r : Row, rowAt (putRow R' u.rid r) rid = rowAt (putRow R u.rid r) rid := by
      intro r
      simp only [rowAt_putRow]
      split
      · rename_i he
        rw [← he, h]
      · exact h
    cases u with
    | DeleteUndoRecord => exact hput none
    | RestoreUndoRecord _ t => exact hput (some t)

theorem rowAt_undo_beside (h : ∀ u ∈ l, u.rid ≠ rid) :
    rowAt (l.foldl undoRow R) rid = rowAt R rid := by
  induction l generalizing R with
  | nil => rfl
  | cons u l ih =>
    obtain ⟨hu, hl⟩ := List.forall_mem_cons.mp h
    rw [List.foldl_cons, ih hl]
    cases u with
    | DeleteUndoRecord => exact rowAt_putRow_of_ne (Ne.symm hu)
    | RestoreUndoRecord => exact rowAt_putRow_of_ne (Ne.symm hu)

theorem rowAt_placeRow_self (h : MayPlace R rid) (t : List UInt8) :
    rowAt (placeRow R rid t) rid = some (some t) := by
  obtain ⟨_, i⟩ := rid
  obtain ⟨n, rfl, hi⟩ := h
  simp only [rowAt, placeRow, Option.bind_some, Function.update_self]
  have hplace := tupleOf_place hi t i
  rw [if_pos rfl] at hplace
  exact tupleOf_eq_some.mp hplace

theorem rowAt_placeRow_of_ne {rid' : RID} (h : MayPlace R rid') (hne : rid ≠ rid')
    (t : List UInt8) : rowAt (placeRow R rid' t) rid = rowAt R rid := by
  obtain ⟨_, i⟩ := rid'
  obtain ⟨n, rfl, hi⟩ := h
  obtain ⟨_ | m, j⟩ := rid
  · rfl
  simp only [rowAt, placeRow, Option.bind_some]
  by_cases hm : m = n
  · subst hm
    have hj : j ≠ i := by
      rintro rfl
      exact hne rfl
    rw [Function.update_self]
    unfold place
    split
    · exact List.getElem?_set_ne (Ne.symm hj)
    · rename_i hlt
      -- the slot that was added is not the one of the RID
      have hlen : i = (R m).length := by
        rcases hi with hfree | hlast
        · obtain ⟨hlt', _⟩ := List.getElem?_eq_some_iff.mp hfree
          exact absurd hlt' hlt
        · exact hlast.1
      rw [List.getElem?_append]
      split
      · rfl
      · rw [List.getElem?_eq_none (by simp; omega), List.getElem?_eq_none (by omega)]
  · rw [Function.update_of_ne hm]

/-- The before-images with the one of a RID that a transaction changes. -/
def keepImage (before : RID → Option (List UInt8)) (rid : RID) (old : List UInt8) :
    RID → Option (List UInt8) :=
  Function.update before rid ((before rid).or (some old))

/-- The records can be undone, and put the before-images back. They are about RIDs that have
one. -/
structure Reserved (R : Pages) (l : List UndoRecord) (before : RID → Option (List UInt8)) :
    Prop where
  fits : Fits l R
  images : ∀ rid old, before rid = some old → rowAt (l.foldl undoRow R) rid = some (some old)
  logged : ∀ u ∈ l, before u.rid ≠ none

variable {before : RID → Option (List UInt8)} {old : List UInt8}

/-- Rows that have no before-image may change, as long as the log fits. -/
theorem Reserved.beside (h : Reserved R l before)
    (hrows : ∀ rid, before rid ≠ none → rowAt R' rid = rowAt R rid)
    (hroom : (∀ n, usedBytes (R' n) ≤ usedBytes (R n)) ∨ fullest l R' ≤ kPAGE_SIZE) :
    Reserved R' l before := by
  have hagree : AgreeOn l R R' := fun u hu => hrows _ (h.logged u hu)
  have hfull : fullest l R' ≤ kPAGE_SIZE := by
    rcases hroom with hle | hfull
    · exact Nat.le_trans (fullest_le hagree hle) h.fits.fullest_le
    · exact hfull
  refine ⟨h.fits.beside hagree hfull, fun rid old hb => ?_, h.logged⟩
  rw [rowAt_undo_congr (hrows rid (by rw [hb]; simp))]
  exact h.images rid old hb

theorem Reserved.undo (h : Reserved R (u :: l) before) : Reserved (undoRow R u) l before :=
  ⟨h.fits.cons, h.images, fun v hv => h.logged v (List.mem_cons_of_mem u hv)⟩

/-- A tuple is deleted, and the log gets the record that puts it back. -/
theorem Reserved.deleted (h : Reserved R l before) (hrow : rowAt R rid = some (some old))
    (hpage : usedOn R rid ≤ kPAGE_SIZE) :
    Reserved (putRow R rid none) (.RestoreUndoRecord rid old :: l) (keepImage before rid old) := by
  have hback : undoRow (putRow R rid none) (.RestoreUndoRecord rid old) = R := by
    show putRow (putRow R rid none) rid (some old) = R
    rw [putRow_putRow, putRow_eq (Or.inl hrow)]
  refine ⟨⟨⟨rowAt_putRow_self hrow, ?_⟩, ?_⟩, fun rid' old' hb => ?_, fun u hu => ?_⟩
  · -- the bytes that the delete frees are those that the restore takes
    have hused := usedOn_putRow hrow none
    simp only [rowSize] at hused
    omega
  · have hfits := h.fits
    rw [← hback] at hfits
    exact hfits
  · rw [List.foldl_cons, hback]
    unfold keepImage at hb
    by_cases hr : rid' = rid
    · subst hr
      rw [Function.update_self] at hb
      cases hfirst : before rid' with
      | some first =>
        rw [hfirst] at hb
        cases hb
        exact h.images rid' _ hfirst
      | none =>
        rw [hfirst] at hb
        cases hb
        rw [rowAt_undo_beside]
        · exact hrow
        · intro u hu he
          exact h.logged u hu (by rw [he]; exact hfirst)
    · rw [Function.update_of_ne hr] at hb
      exact h.images rid' old' hb
  · unfold keepImage
    rcases List.mem_cons.mp hu with rfl | hu
    · rw [UndoRecord.rid, Function.update_self]
      cases before rid <;> simp
    · by_cases hr : u.rid = rid
      · rw [hr, Function.update_self]
        cases before rid <;> simp
      · rw [Function.update_of_ne hr]
        exact h.logged u hu

/-- A tuple is updated, and the log gets the records that take it out and put the old one back. -/
theorem Reserved.updated (h : Reserved R l before) (hrow : rowAt R rid = some (some old))
    (hpage : usedOn R rid ≤ kPAGE_SIZE) (t : List UInt8) :
    Reserved (putRow R rid (some t)) (.DeleteUndoRecord rid :: .RestoreUndoRecord rid old :: l)
      (keepImage before rid old) := by
  have hdel := h.deleted hrow hpage
  have hback : undoRow (putRow R rid (some t)) (.DeleteUndoRecord rid) = putRow R rid none :=
    putRow_putRow ..
  refine ⟨?_, ?_, ?_⟩
  · have hfits := hdel.fits
    rw [← hback] at hfits
    exact hfits
  · rw [List.foldl_cons, hback]
    exact hdel.images
  · refine List.forall_mem_cons.mpr ⟨?_, hdel.logged⟩
    exact hdel.logged (.RestoreUndoRecord rid old) List.mem_cons_self

/-- A step of a call leaves the row of a RID alone that it has not locked, that is not in its
log, and where it takes nothing back and places nothing. -/
theorem rowAt_move {stuck : Prop} {log log' : List UndoRecord} {c call : TableCall}
    (M : TableMove stuck R R' log c call log') (hlocked : c.locked ≠ some rid)
    (hundo : ∀ u rest, c = .undo (u :: rest) → u.rid ≠ rid)
    (htaken : c ≠ .delete_inserted rid) (hplaced : c.placed = none → call.placed ≠ some rid) :
    rowAt R' rid = rowAt R rid := by
  have hne : ∀ {rid'}, some rid' ≠ some rid → rid ≠ rid' := by
    rintro rid' h rfl
    exact h rfl
  cases M with
  | inserted hmay hrows =>
    rw [hrows]
    exact rowAt_placeRow_of_ne hmay (hne (hplaced rfl)) _
  | returned hrows | found_deleted _ hrows | found_updated _ hrows | skipped _ hrows => rw [hrows]
  | @removed rid' hrows =>
    rw [hrows]
    apply rowAt_putRow_of_ne
    rintro rfl
    exact htaken rfl
  | deleted _ hrows | updated _ hrows | lost _ hrows =>
    rw [hrows]
    exact rowAt_putRow_of_ne (hne hlocked)
  | moved _ _ hmay hrows =>
    rw [hrows, rowAt_placeRow_of_ne hmay (hne (hplaced rfl))]
    exact rowAt_putRow_of_ne (hne hlocked)
  | undone hrows | restored _ hrows =>
    rw [hrows]
    exact rowAt_putRow_of_ne (Ne.symm (hundo _ _ rfl))

end

/-! ## What the steps keep -/

/-- The call places a tuple, or has placed one. -/
def TableCall.inserts : TableCall → Bool
  | .insert _ _ | .lock_inserted _ | .delete_inserted _ | .lock_moved _ _ _ => true
  | _ => false

/-- The tuple that a call has read, and is about to change. -/
def TableCall.seen : TableCall → Option (RID × List UInt8)
  | .delete rid bytes | .update _ rid _ bytes => some (rid, bytes)
  | _ => none

structure Shares (evicts : Prop) (heads : Nat → Prop) (T : TransactionID) (s : ImageHistory) :
    Prop where
  on : CallsOn evicts heads s.system
  locked : TableLocked s.system
  holds : ∀ tx, TxHolds s.system tx
  calm : (s.system.txs T).call.inserts = false
  reserved : (s.system.txs T).call ≠ .ended →
    Reserved (rows heads s.system.heap.pool) (s.system.txs T).remaining (s.before T)
  held : (s.system.txs T).call ≠ .ended → ∀ rid, s.before T rid ≠ none →
    rid ∈ (s.system.locks.txs T).exclusive_locks
  seen : ∀ rid bytes, (s.system.txs T).call.seen = some (rid, bytes) →
    rowAt (rows heads s.system.heap.pool) rid = some (some bytes)

section
variable {evicts : Prop} {heads : Nat → Prop} {T : TransactionID} {s : ImageHistory}
  {t : TableSystem} {tx : TransactionID} {expired : Bool}

theorem held_by_one {l : LockSystem} (I : LockInv l) {U V : TransactionID} {rid : RID}
    (hU : rid ∈ (l.txs U).exclusive_locks) (hV : rid ∈ (l.txs V).exclusive_locks) : U = V := by
  by_contra hne
  exact I.excludes ((I.exclusive rid U).mp hU) (Ne.symm hne) .EXCLUSIVE ((I.exclusive rid V).mp hV)

/-- A step of another transaction leaves the rows alone that `T` has locked for itself. -/
theorem Shares.rows_kept (S : Shares evicts heads T s) (hne : tx ≠ T)
    (hok : LeavesRoom evicts heads T s.system t tx)
    (hstep : table_step s.system tx expired = some t) (rid : RID)
    (hrid : rid ∈ (s.system.locks.txs T).exclusive_locks) :
    rowAt (rows heads t.heap.pool) rid = rowAt (rows heads s.system.heap.pool) rid := by
  have hother : rid ∉ (s.system.locks.txs tx).exclusive_locks := fun h =>
    hne (held_by_one S.locked.inv h hrid)
  rcases heap_step S.on hstep hok.frames hok.dirty with ⟨b, log, call, ht, W⟩ | hsame
  swap
  · rw [hsame]
  have hplaced := hok.placed rid
  have hcall : (t.txs tx).call = call := by
    rw [ht]
    simp [TableSystem.after]
  rw [hcall] at hplaced
  rw [ht]
  apply rowAt_move W.move
  · exact fun h => hother ((S.holds tx).locked rid h)
  · intro u rest hc he
    exact hother (he ▸ (S.holds tx).undo _ hc u List.mem_cons_self)
  · exact fun hc => hok.taken_back rid hc T (Ne.symm hne) hrid
  · exact fun h1 h2 => hplaced h1 h2 T (Ne.symm hne) hrid

theorem shares_other (S : Shares evicts heads T s) (hne : tx ≠ T)
    (hok : LeavesRoom evicts heads T s.system t tx)
    (hstep : table_step s.system tx expired = some t) : Shares evicts heads T (s.note tx t) := by
  obtain ⟨htx, hl⟩ := table_step_other hstep (Ne.symm hne)
  have hkept := S.rows_kept hne hok hstep
  have hbefore : (s.note tx t).before T = s.before T := by
    unfold ImageHistory.note
    cases changed (s.system.txs tx).call (t.txs tx).call with
    | some rid => exact Function.update_of_ne (Ne.symm hne) _ _
    | none => rfl
  have hsys : (s.note tx t).system = t := rfl
  refine ⟨callsOn_step S.on hstep hok.frames hok.dirty, tableLocked_step S.locked hstep,
    txHolds_step S.locked S.holds hstep, ?_, ?_, ?_, ?_⟩ <;> rw [hsys, htx]
  · exact S.calm
  · rw [hbefore]
    intro hc
    exact (S.reserved hc).beside (fun rid hb => hkept rid (S.held hc rid hb)) (hok.room hne)
  · rw [hbefore, hl]
    exact S.held
  · intro rid bytes hs
    rw [hkept rid ?_]
    · exact S.seen rid bytes hs
    · apply (S.holds T).locked
      cases hc : (s.system.txs T).call <;> rw [hc] at hs <;> cases hs <;> rfl

theorem note_before_of_seen (h : (s.system.txs tx).call.seen = none) :
    (s.note tx t).before = s.before := by
  have hc : changed (s.system.txs tx).call (t.txs tx).call = none := by
    generalize (s.system.txs tx).call = c at h
    cases c with
    | delete | update => cases h
    | _ => rfl
  unfold ImageHistory.note
  rw [hc]

/-- The transaction goes on without a call of the heap, or ends. -/
theorem Shares.stay (S : Shares evicts heads T s) (hon : CallsOn evicts heads t)
    (hlocked : TableLocked t) (hholds : ∀ U, TxHolds t U) (hheap : t.heap = s.system.heap)
    (hseen : (s.system.txs T).call.seen = none) (hcalm : (t.txs T).call.inserts = false)
    (hseen' : (t.txs T).call.seen = none)
    (hgoes : (t.txs T).call = .ended ∨ (s.system.txs T).call ≠ .ended ∧
      (t.txs T).remaining = (s.system.txs T).remaining ∧
      ∀ rid ∈ (s.system.locks.txs T).exclusive_locks, rid ∈ (t.locks.txs T).exclusive_locks) :
    Shares evicts heads T (s.note T t) := by
  have hsys : (s.note T t).system = t := rfl
  refine ⟨hon, hlocked, hholds, hcalm, ?_, ?_, ?_⟩ <;>
    rw [hsys]
  · rw [note_before_of_seen hseen, hheap]
    intro hc
    obtain ⟨hne, hrem, _⟩ := hgoes.resolve_left hc
    rw [hrem]
    exact S.reserved hne
  · rw [note_before_of_seen hseen]
    intro hc rid hb
    obtain ⟨hne, _, hkeep⟩ := hgoes.resolve_left hc
    exact hkeep rid (S.held hne rid hb)
  · intro rid bytes hs
    rw [hseen'] at hs
    cases hs

theorem calm_lock {c : TableCall} {x : RID × LockMode} (hw : c.wants = some x)
    (hcalm : c.inserts = false) : c.seen = none ∧ c.logs = [] ∧
      c.granted.inserts = false ∧ c.granted.seen = none ∧
      c.refused.inserts = false ∧ c.refused.seen = none := by
  cases c with
  | lock_inserted | lock_moved => cases hcalm
  | lock_read | lock_deleted | lock_updated => exact ⟨rfl, rfl, rfl, rfl, rfl, rfl⟩
  | done | ended | insert | delete_inserted | read | read_deleted | delete | read_updated | update
  | commit | abort | undo => cases hw

theorem remaining_of_ending {x : TableTx} (h : x.call.ending = false) : x.remaining = x.undo_log := by
  obtain ⟨log, c⟩ := x
  cases c with
  | undo | ended => cases h
  | _ => rfl

/-- The steps of the transaction itself that do not call the heap. -/
theorem shares_own_stay (S : Shares evicts heads T s)
    (hok : LeavesRoom evicts heads T s.system t T)
    (hstep : table_step s.system T expired = some t)
    (hheap : (s.system.txs T).call.calls_heap = false) : Shares evicts heads T (s.note T t) := by
  have hon := callsOn_step S.on hstep hok.frames hok.dirty
  have hlocked := tableLocked_step S.locked hstep
  have hholds := txHolds_step S.locked S.holds hstep
  have hcalm := S.calm
  have hgrows : ∀ {rid mode l r}, lockCall s.system.locks T rid mode expired = (l, r) →
      ∀ rid ∈ (s.system.locks.txs T).exclusive_locks, rid ∈ (l.txs T).exclusive_locks := by
    intro rid mode l r hl rid' h
    have := exclusive_lockCall T rid mode expired h
    rwa [hl] at this
  cases table_step_cases hstep with
  | heap _ hh =>
    rw [hheap] at hh
    cases hh
  | asleep hw hl =>
    obtain ⟨h1, _⟩ := calm_lock hw hcalm
    have hne : (s.system.txs T).call ≠ .ended := by
      intro h
      rw [h] at hw
      cases hw
    exact S.stay hon hlocked hholds rfl h1 hcalm h1 (Or.inr ⟨hne, rfl, hgrows hl⟩)
  | granted hw hl =>
    obtain ⟨h1, h2, h3, h4, _⟩ := calm_lock hw hcalm
    obtain ⟨e1, _, e3⟩ := ending_of_wants hw
    have hne : (s.system.txs T).call ≠ .ended := by
      intro h
      rw [h] at hw
      cases hw
    refine S.stay hon hlocked hholds rfl h1 ?_ ?_ (Or.inr ⟨hne, ?_, hgrows hl⟩)
    · rw [after_txs_self]
      exact h3
    · rw [after_txs_self]
      exact h4
    · rw [after_txs_self, remaining_of_ending e1, h2, List.nil_append]
      exact remaining_of_ending e3
  | refused hw hl =>
    obtain ⟨h1, _, _, _, h5, h6⟩ := calm_lock hw hcalm
    obtain ⟨e1, e2, _⟩ := ending_of_wants hw
    have hne : (s.system.txs T).call ≠ .ended := by
      intro h
      rw [h] at hw
      cases hw
    refine S.stay hon hlocked hholds rfl h1 ?_ ?_ (Or.inr ⟨hne, ?_, hgrows hl⟩)
    · rw [after_txs_self]
      exact h5
    · rw [after_txs_self]
      exact h6
    · rw [after_txs_self, remaining_of_ending e1]
      exact remaining_of_ending e2
  | committed hc | aborted hc =>
    refine S.stay hon hlocked hholds rfl (by rw [hc]; rfl) ?_ ?_ (Or.inl ?_) <;>
      simp [TableSystem.finish, TableSystem.go_on, TableCall.inserts, TableCall.seen]
  | aborting hc =>
    refine S.stay hon hlocked hholds rfl (by rw [hc]; rfl) ?_ ?_ (Or.inr ⟨?_, ?_, ?_⟩)
    · rw [go_on_eq, after_txs_self]
      rfl
    · rw [go_on_eq, after_txs_self]
      rfl
    · rw [hc]
      simp
    · rw [go_on_eq, after_txs_self]
      unfold TableTx.remaining
      rw [hc]
    · intro rid h
      simpa [TableSystem.go_on, TableSystem.set_state, LockSystem.set_tx] using h

/-- The transaction goes on after a call of the heap. -/
theorem Shares.worked (S : Shares evicts heads T s) (hon : CallsOn evicts heads t)
    (hlocked : TableLocked t) (hholds : ∀ U, TxHolds t U) {b : BufferPoolManager}
    {log : List UndoRecord} {call : TableCall} (ht : t = s.system.after b T log call)
    (hheap : (s.system.txs T).call.calls_heap = true) (hcalm : call.inserts = false)
    (hres : Reserved (rows heads b) (TableTx.remaining ⟨log, call⟩) ((s.note T t).before T))
    (hheld : ∀ rid, (s.note T t).before T rid ≠ none →
      s.before T rid ≠ none ∨ rid ∈ (s.system.locks.txs T).exclusive_locks)
    (hseen : ∀ rid bytes, call.seen = some (rid, bytes) →
      rowAt (rows heads b) rid = some (some bytes)) : Shares evicts heads T (s.note T t) := by
  have hne : (s.system.txs T).call ≠ .ended := by
    intro h
    rw [h] at hheap
    cases hheap
  have hsys : (s.note T t).system = t := rfl
  have htx : t.txs T = ⟨log, call⟩ := by rw [ht, after_txs_self]
  have hpool : t.heap.pool = b := by rw [ht]; rfl
  have hlocks : t.locks = s.system.locks := by rw [ht]; rfl
  refine ⟨hon, hlocked, hholds, ?_, ?_, ?_, ?_⟩ <;> rw [hsys, htx]
  · exact hcalm
  · rw [hpool]
    exact fun _ => hres
  · rw [hlocks]
    exact fun _ rid hb => (hheld rid hb).elim (S.held hne rid) id
  · rw [hpool]
    exact hseen

theorem fetch_of_reaches {b : BufferPoolManager} {rid : RID} (h : reaches b rid = true) :
    (b.fetch_page rid.page_id).1 ≠ .ok none := by
  intro hno
  unfold reaches at h
  split at h
  · rename_i hf
    rw [hf] at hno
    cases hno
  · cases h

/-- A record of the transaction is undone on its page. -/
theorem undo_step_rows {s : TableSystem} {u : UndoRecord} {rest : List UndoRecord}
    (C : CallsOn evicts heads s) (hc : (s.txs tx).call = .undo (u :: rest))
    (hreach : reaches s.heap.pool u.rid = true)
    (hdirty : evicts → ∀ rid tuple rest,
      (s.txs tx).call = .undo (.RestoreUndoRecord rid tuple :: rest) →
      ∃ f, s.heap.pool.page_table rid.page_id = some f ∧ (s.heap.pool.frames f).is_dirty = true)
    (hstep : table_step s tx expired = some t) :
    ∃ b, t = s.after b tx (s.txs tx).undo_log (.undo rest) ∧
      rows heads b = undoRow (rows heads s.heap.pool) u := by
  have hfetch := fetch_of_reaches hreach
  cases u with
  | DeleteUndoRecord rid =>
    obtain ⟨b, hs, _, hrows⟩ := step_undo_delete C.heap expired hc (C.call tx)
    rw [hs] at hstep
    exact ⟨b, (Option.some.inj hstep).symm, hrows hfetch⟩
  | RestoreUndoRecord rid tuple =>
    rcases step_undo_restore C.heap expired hc (C.call tx) fun he => hdirty he rid tuple rest hc with
      ⟨b, hs, _, hrows⟩ | ⟨hs, _⟩
    · rw [hs] at hstep
      exact ⟨b, (Option.some.inj hstep).symm, hrows hfetch⟩
    · rw [hs] at hstep
      cases hstep

/-- A restore that cannot fetch its page leaves the pool as it is. -/
theorem undo_step_unreached {s : TableSystem} {rid : RID} {old : List UInt8}
    {rest : List UndoRecord} (C : CallsOn evicts heads s)
    (hc : (s.txs tx).call = .undo (.RestoreUndoRecord rid old :: rest))
    (hreach : reaches s.heap.pool rid = false) (hstep : table_step s tx expired = some t) :
    t = s.after s.heap.pool tx (s.txs tx).undo_log (.undo rest) := by
  have hon := C.call tx
  rw [hc] at hon
  obtain ⟨⟨n, hpage, hn⟩, _⟩ := hon (.RestoreUndoRecord rid old) List.mem_cons_self
  rcases C.heap.store.fetch_page (C.heap.pages n hn).2 with ⟨f, b, hf, _⟩ | ⟨hf, _⟩
  · unfold reaches at hreach
    rw [hpage, hf] at hreach
    cases hreach
  · unfold table_step table_heap.restore_tuple with_page at hstep
    simp only [hc, hpage, hf] at hstep
    exact (Option.some.inj hstep).symm

/-- What is taken back is gone. -/
theorem removed_rows {s : TableSystem} {rid : RID} (C : CallsOn evicts heads s)
    (hc : (s.txs tx).call = .delete_inserted rid) (hreach : reaches s.heap.pool rid = true)
    (hstep : table_step s tx expired = some t) :
    rows heads t.heap.pool = putRow (rows heads s.heap.pool) rid none := by
  have hon := C.call tx
  rw [hc] at hon
  unfold table_step at hstep
  rw [hc] at hstep
  obtain ⟨b, _, ⟨hd, hrows, _⟩ | ⟨hd, _, hrows⟩⟩ := delete_spec C.heap hon
  all_goals
    simp only [hd, Option.some.injEq] at hstep
    subst hstep
  · exact hrows
  · exact hrows.resolve_left fun hno => fetch_of_reaches hreach hno.2

theorem tupleAt_of_row {b : BufferPoolManager} {rid : RID} {old : List UInt8}
    (h : rowAt (rows heads b) rid = some (some old)) : tupleAt b rid = some old := by
  obtain ⟨_ | n, slot⟩ := rid
  · cases h
  have hrow : (rows heads b n)[slot]? = some (some old) := h
  by_cases hn : OnChain (succ b) heads n
  · rw [rows_on hn] at hrow
    exact tupleOf_eq_some.mpr hrow
  · rw [rows_off hn] at hrow
    cases hrow

theorem usedOn_row_le {outside : Nat → Nat} {b : BufferPoolManager}
    (H : HeapState evicts outside (fun _ => False) heads b) {rid : RID} {r : Row}
    (h : rowAt (rows heads b) rid = some r) : usedOn (rows heads b) rid ≤ kPAGE_SIZE := by
  obtain ⟨_ | n, slot⟩ := rid
  · cases h
  have hrow : (rows heads b n)[slot]? = some r := h
  by_cases hn : OnChain (succ b) heads n
  · exact used_rows_le H hn
  · rw [rows_off hn] at hrow
    cases hrow

theorem note_before_of_changed {rid : RID} {old : List UInt8}
    (h : changed (s.system.txs T).call (t.txs T).call = some rid)
    (hrow : rowAt (rows heads s.system.heap.pool) rid = some (some old)) :
    (s.note T t).before T = keepImage (s.before T) rid old := by
  unfold ImageHistory.note keepImage
  rw [h]
  simp only [tupleAt_of_row hrow, Function.update_self]

/-- A call of the heap that changes no row leaves the log and the before-images as they are. -/
theorem Shares.unchanged (S : Shares evicts heads T s) (hon : CallsOn evicts heads t)
    (hlocked : TableLocked t) (hholds : ∀ U, TxHolds t U) {b : BufferPoolManager}
    {call : TableCall} (ht : t = s.system.after b T (s.system.txs T).undo_log call)
    (hheap : (s.system.txs T).call.calls_heap = true)
    (hending : (s.system.txs T).call.ending = false) (hending' : call.ending = false)
    (hcalm : call.inserts = false) (hrows : rows heads b = rows heads s.system.heap.pool)
    (hchanged : changed (s.system.txs T).call call = none)
    (hseen : ∀ rid bytes, call.seen = some (rid, bytes) →
      rowAt (rows heads s.system.heap.pool) rid = some (some bytes)) :
    Shares evicts heads T (s.note T t) := by
  have hbefore : (s.note T t).before = s.before := by
    unfold ImageHistory.note
    rw [ht, after_txs_self, hchanged]
  have hne : (s.system.txs T).call ≠ .ended := by
    intro h
    rw [h] at hending
    cases hending
  apply S.worked hon hlocked hholds ht hheap hcalm <;> try rw [hbefore]
  · have hres := S.reserved hne
    rw [remaining_of_ending hending] at hres
    rw [remaining_of_ending hending', hrows]
    exact hres
  · exact fun rid => Or.inl
  · rw [hrows]
    exact hseen

/-- A call of the heap that changes the row of a RID logs how to undo that. -/
theorem Shares.changes (S : Shares evicts heads T s) (hon : CallsOn evicts heads t)
    (hlocked : TableLocked t) (hholds : ∀ U, TxHolds t U) {b : BufferPoolManager}
    (recs : List UndoRecord) (r : Except String TableResult) (rid : RID) (old : List UInt8)
    (ht : t = s.system.after b T (recs ++ (s.system.txs T).undo_log) (.done r))
    (hheap : (s.system.txs T).call.calls_heap = true)
    (hseen : (s.system.txs T).call.seen = some (rid, old))
    (hchanged : changed (s.system.txs T).call (.done r) = some rid)
    (hres : Reserved (rows heads s.system.heap.pool) (s.system.txs T).undo_log (s.before T) →
      Reserved (rows heads b) (recs ++ (s.system.txs T).undo_log)
        (keepImage (s.before T) rid old)) : Shares evicts heads T (s.note T t) := by
  have hrow := S.seen rid old hseen
  have hbefore : (s.note T t).before T = keepImage (s.before T) rid old :=
    note_before_of_changed (by rw [ht, after_txs_self]; exact hchanged) hrow
  have hcall : (s.system.txs T).call.locked = some rid ∧ (s.system.txs T).call.ending = false := by
    cases hc : (s.system.txs T).call <;> rw [hc] at hseen <;> cases hseen <;> exact ⟨rfl, rfl⟩
  have hne : (s.system.txs T).call ≠ .ended := by
    intro h
    rw [h] at hheap
    cases hheap
  apply S.worked hon hlocked hholds ht hheap rfl
  · have hlog := S.reserved hne
    rw [remaining_of_ending hcall.2] at hlog
    rw [hbefore]
    exact hres hlog
  · rw [hbefore]
    intro rid' hb
    by_cases hr : rid' = rid
    · exact Or.inr (hr ▸ (S.holds T).locked rid hcall.1)
    · unfold keepImage at hb
      rw [Function.update_of_ne hr] at hb
      exact Or.inl hb
  · exact fun _ _ h => by cases h

theorem shares_undo (S : Shares evicts heads T s) (hok : LeavesRoom evicts heads T s.system t T)
    (hstep : table_step s.system T expired = some t) {u : UndoRecord} {rest : List UndoRecord}
    (hc : (s.system.txs T).call = .undo (u :: rest)) : Shares evicts heads T (s.note T t) := by
  obtain ⟨b, ht, hrows⟩ := undo_step_rows S.on hc (hok.fetches rfl u rest hc) hok.dirty hstep
  have hbefore : (s.note T t).before = s.before := note_before_of_seen (by rw [hc]; rfl)
  apply S.worked (callsOn_step S.on hstep hok.frames hok.dirty) (tableLocked_step S.locked hstep)
    (txHolds_step S.locked S.holds hstep) ht (by rw [hc]; rfl) rfl
  · have hlog := S.reserved (by rw [hc]; simp)
    unfold TableTx.remaining at hlog
    rw [hc] at hlog
    rw [hbefore, hrows]
    exact hlog.undo
  · rw [hbefore]
    exact fun rid => Or.inl
  · exact fun _ _ h => by cases h

theorem not_changed_of_refused {c : TableCall} {r : Except String TableResult} (h : Refused r) :
    changed c (.done r) = none := by
  rcases r with e | res
  · cases c <;> rfl
  · have hno := h res rfl
    cases res with
    | placed rid =>
      obtain rfl : rid = none := by simpa [TableResult.changed] using hno
      cases c <;> rfl
    | found => cases c <;> rfl
    | deleted d =>
      obtain rfl : d = false := hno
      cases c <;> rfl

/-- The steps of the transaction itself. -/
theorem shares_own (S : Shares evicts heads T s) (hok : LeavesRoom evicts heads T s.system t T)
    (hstep : table_step s.system T expired = some t) : Shares evicts heads T (s.note T t) := by
  cases hheap : (s.system.txs T).call.calls_heap with
  | false => exact shares_own_stay S hok hstep hheap
  | true =>
    have hon := callsOn_step S.on hstep hok.frames hok.dirty
    have hlocked := tableLocked_step S.locked hstep
    have hholds := txHolds_step S.locked S.holds hstep
    obtain ⟨b, log, call, ht, W⟩ :=
      table_step_works S.on.heap (S.on.call T) hheap hstep hok.frames hok.dirty
    have M := W.move
    have hcalm := S.calm
    have hplaced := hok.in_place rfl
    rw [ht, after_txs_self] at hplaced
    have hsame := fun (ht : t = s.system.after b T (s.system.txs T).undo_log call) =>
      S.unchanged hon hlocked hholds ht
    have hlogs := S.changes hon hlocked hholds (b := b)
    have hrow := S.seen
    have hpage := fun (rid : RID) (old : List UInt8)
      (h : rowAt (rows heads s.system.heap.pool) rid = some (some old)) => usedOn_row_le S.on.heap h
    cases hc : (s.system.txs T).call with
    | undo records =>
      rcases records with _ | ⟨u, rest⟩
      · rw [hc] at hheap
        cases hheap
      · exact shares_undo S hok hstep hc
    | insert | delete_inserted =>
      rw [hc] at hcalm
      cases hcalm
    | done | ended | lock_inserted | lock_read | lock_deleted | lock_updated | lock_moved | commit
    | abort =>
      rw [hc] at hheap
      cases hheap
    | read rid =>
      rw [hc] at M hsame
      cases M with
      | returned hrows hno => exact hsame ht rfl rfl rfl rfl hrows rfl fun _ _ h => by cases h
    | read_deleted rid =>
      rw [hc] at M hsame
      cases M with
      | returned hrows hno => exact hsame ht rfl rfl rfl rfl hrows rfl fun _ _ h => by cases h
      | found_deleted hold hrows =>
        refine hsame ht rfl rfl rfl rfl hrows rfl fun rid' bytes h => ?_
        cases h
        exact hold
    | read_updated h rid t' =>
      rw [hc] at M hsame
      cases M with
      | returned hrows hno => exact hsame ht rfl rfl rfl rfl hrows rfl fun _ _ h => by cases h
      | found_updated hold hrows =>
        refine hsame ht rfl rfl rfl rfl hrows rfl fun rid' bytes h => ?_
        cases h
        exact hold
    | delete rid bytes =>
      rw [hc] at M hsame hlogs hrow
      have hold := hrow rid bytes rfl
      cases M with
      | returned hrows hno =>
        exact hsame ht rfl rfl rfl rfl hrows (not_changed_of_refused hno) fun _ _ h => by cases h
      | deleted _ hrows =>
        refine hlogs [.RestoreUndoRecord rid bytes] _ rid bytes ht rfl rfl rfl fun hres => ?_
        rw [hrows]
        exact hres.deleted hold (hpage rid bytes hold)
    | update h rid t' bytes =>
      rw [hc] at M hsame hlogs hrow hplaced
      have hold := hrow rid bytes rfl
      -- what takes the tuple off its RID changes the rows
      have hgone : rowAt (rows heads b) rid = some none →
          rows heads b ≠ rows heads s.system.heap.pool := by
        intro hnone he
        rw [he, hold] at hnone
        cases hnone
      cases M with
      | returned hrows hno =>
        exact hsame ht rfl rfl rfl rfl hrows (not_changed_of_refused hno) fun _ _ h => by cases h
      | updated _ hrows =>
        refine hlogs [.DeleteUndoRecord rid, .RestoreUndoRecord rid bytes] _ rid bytes ht rfl rfl rfl
          fun hres => ?_
        rw [hrows]
        exact hres.updated hold (hpage rid bytes hold) t'
      | lost _ hrows hno =>
        rcases hplaced h rid t' bytes rfl with hdone | hrows'
        · cases hdone
          cases hno _ rfl
        · refine absurd hrows' (hgone ?_)
          rw [hrows]
          exact rowAt_putRow_self hold
      | moved hne _ hmay hrows =>
        rcases hplaced h rid t' bytes rfl with hdone | hrows'
        · cases hdone
        · refine absurd hrows' (hgone ?_)
          rw [hrows, rowAt_placeRow_of_ne hmay (Ne.symm hne)]
          exact rowAt_putRow_self hold

theorem shares_start (h : (imageMachine evicts heads).start s) : Shares evicts heads T s := by
  obtain ⟨H, hl, htx, hb⟩ := h
  refine ⟨⟨H, ?_, ?_⟩, ⟨by rw [hl]; exact lockInv_fresh, ?_, ?_⟩, fun U => ⟨?_, ?_, ?_⟩, ?_, ?_,
    ?_, ?_⟩
  · rw [htx]
    exact fun _ => trivial
  · simp [htx]
  · intro tx rid mode up hcall
    rw [hl] at hcall
    cases hcall
  · intro tx hcall
    rw [hl] at hcall
    exact absurd rfl hcall
  · simp [htx, TableCall.locked]
  · simp [htx]
  · simp [htx]
  · rw [htx]
    rfl
  · intro _
    rw [htx, hb]
    refine ⟨trivial, fun _ _ h => ?_, fun _ h => ?_⟩ <;> cases h
  · simp [hb]
  · simp [htx, TableCall.seen]

/-- A call begins. -/
theorem shares_call (S : Shares evicts heads T s) {op : TableOp} {r : Except String TableResult}
    (hok : SharesPages heads T (LeavesRoom evicts heads T) s (.call tx op)) (hc : (s.system.txs tx).call = .done r) :
    Shares evicts heads T { s with system := s.system.begin_call tx op } := by
  obtain ⟨hop, hins⟩ := hok
  have hsys : s.system.begin_call tx op =
      s.system.after s.system.heap.pool tx (s.system.txs tx).undo_log op.call := rfl
  have hother : ∀ U, U ≠ tx → (s.system.begin_call tx op).txs U = s.system.txs U :=
    fun U hU => Function.update_of_ne hU _ _
  have hnew : op.call.locked = none ∧ op.call.seen = none ∧ (∀ l, op.call ≠ .undo l) ∧
      op.call ≠ .ended := by
    cases op <;> simp [TableOp.call, TableCall.locked, TableCall.seen]
  refine ⟨?_, ?_, fun U => ?_, ?_, ?_, ?_, ?_⟩
  · exact callsOn_call S.on hop
  · exact S.locked.go_on (S.locked.idle (by rw [hc]; rfl)) _ _ _
  · by_cases hU : U = tx
    · subst hU
      refine (S.holds U).go_on _ (by rw [hc]; simp) hnew.1 fun l h => absurd h (hnew.2.2.1 l)
    · exact (S.holds U).congr (hother U hU) fun _ => id
  all_goals simp only
  all_goals by_cases hT : T = tx
  -- the call of the transaction itself, and that of another one
  · subst hT
    rw [hsys, after_txs_self]
    cases op with
    | insert_tuple h tuple => exact absurd rfl (hins rfl h tuple)
    | get_tuple | delete_tuple | update_tuple | commit | abort => rfl
  · rw [hother T hT]
    exact S.calm
  · subst hT
    have hlog := S.reserved (by rw [hc]; simp)
    rw [remaining_of_ending (by rw [hc]; rfl)] at hlog
    have hrem : TableTx.remaining ⟨(s.system.txs T).undo_log, op.call⟩ =
        (s.system.txs T).undo_log := by
      cases op <;> rfl
    rw [hsys, after_txs_self, hrem]
    exact fun _ => hlog
  · rw [hother T hT]
    exact S.reserved
  · subst hT
    exact fun _ => S.held (by rw [hc]; simp)
  · rw [hother T hT]
    exact S.held
  · subst hT
    rw [hsys, after_txs_self, hnew.2.1]
    exact fun _ _ h => by cases h
  · rw [hother T hT]
    exact S.seen

/-- A scan brings pages in and lets go of them, and changes no row. -/
theorem shares_heap (S : Shares evicts heads T s) {heap : HeapPool}
    (H : HeapState evicts heap.outside (fun _ => False) heads heap.pool)
    (hcont : contents heap.pool = contents s.system.heap.pool) :
    Shares evicts heads T { s with system := { s.system with heap } } := by
  have hrows : rows heads heap.pool = rows heads s.system.heap.pool := by
    funext n
    unfold rows succ
    rw [hcont]
  refine ⟨S.on.heap_same H hcont, ⟨S.locked.inv, S.locked.waits, S.locked.growing⟩,
    fun U => (S.holds U).congr rfl fun _ => id, S.calm, ?_, S.held, ?_⟩ <;> simp only [hrows]
  · exact S.reserved
  · exact S.seen

theorem shares_next {e : TableEvent} {s' : ImageHistory} (S : Shares evicts heads T s)
    (hok : SharesPages heads T (LeavesRoom evicts heads T) s e) (h : s.next e = some s') :
    Shares evicts heads T s' := by
  cases e with
  | call tx op =>
    obtain ⟨t, hn, rfl⟩ := Option.map_eq_some_iff.mp h
    unfold TableSystem.next at hn
    simp only at hn
    split at hn
    · rename_i r hc
      cases hn
      exact shares_call S hok hc
    · cases hn
  | step tx expired =>
    obtain ⟨t, hn, rfl⟩ := Option.map_eq_some_iff.mp h
    by_cases hT : tx = T
    · subst hT
      exact shares_own S (hok t hn) hn
    · exact shares_other S hT (hok t hn) hn
  | fetch n =>
    obtain ⟨t, hn, rfl⟩ := Option.map_eq_some_iff.mp h
    obtain ⟨heap, hheap, rfl⟩ := Option.map_eq_some_iff.mp hn
    obtain ⟨H, hc⟩ := evict_fetch S.on.heap hheap
    exact shares_heap S H hc
  | unpin n =>
    obtain ⟨t, hn, rfl⟩ := Option.map_eq_some_iff.mp h
    obtain ⟨heap, hheap, rfl⟩ := Option.map_eq_some_iff.mp hn
    obtain ⟨H, hc⟩ := evict_unpin S.on.heap hheap
    exact shares_heap S H hc

/-! ## The law -/

/-- A transaction that only deletes rows and updates them in place can be rolled back, as long as
the others leave its log the room that it needs. -/
theorem an_abort_puts_back_what_the_others_left_room_for
    (h : (imageMachine evicts heads).Reach (SharesPages heads T (LeavesRoom evicts heads T)) s) :
    PutsBack heads T s := by
  have S : Shares evicts heads T s := h.invariant (fun _ => shares_start) fun _ _ _ S hok hn =>
    shares_next S hok hn
  have hfits : ∀ l, (s.system.txs T).call = .undo l →
      Reserved (rows heads s.system.heap.pool) l (s.before T) := by
    intro l hc
    have hres := S.reserved (by rw [hc]; simp)
    unfold TableTx.remaining at hres
    rwa [hc] at hres
  refine ⟨fun u rest expired hc => ?_, fun rid tuple rest hc => (hfits _ hc).fits.1,
    fun hc rid old hb => tupleAt_of_row ((hfits _ hc).images rid old hb)⟩
  cases u with
  | DeleteUndoRecord rid =>
    obtain ⟨b, hs, _⟩ := step_undo_delete S.on.heap expired hc (S.on.call T)
    exact ⟨_, hs, by rw [after_txs_self]⟩
  | RestoreUndoRecord rid tuple =>
    have hon := S.on.call T
    rw [hc] at hon
    obtain ⟨hrid, hlen⟩ := hon (.RestoreUndoRecord rid tuple) List.mem_cons_self
    have hcan := (hfits _ hc).fits.1
    obtain ⟨_, slot⟩ := rid
    obtain ⟨n, rfl, hn⟩ := hrid
    obtain ⟨b, hr⟩ := S.on.heap.restore_returns hn hlen hcan
    refine ⟨s.system.go_on b T (.undo rest), ?_, by rw [go_on_eq, after_txs_self]⟩
    unfold table_step
    rw [hc]
    simp only [hr]
    rfl

end

/-! ## Runs on fixed inputs -/

/-- Transactions over a table of one page. -/
def images_open : ImageHistory := ⟨new_table, fun _ _ => none⟩

theorem images_open_start : (imageMachine False (· = 1)).start images_open :=
  ⟨new_table_begins.heap, rfl, rfl, rfl⟩

theorem system_next {s s' : ImageHistory} {e : TableEvent} (h : s.next e = some s') :
    s.system.next e = some s'.system := by
  cases e with
  | call | step | fetch | unpin =>
    obtain ⟨t, ht, rfl⟩ := Option.map_eq_some_iff.mp h
    exact ht

theorem SharesPages.onHeaps {evicts : Prop} {heads : Nat → Prop} {T : TransactionID}
    {s : ImageHistory} {e : TableEvent} (h : SharesPages heads T (OnOwnRows evicts heads T) s e) :
    OnHeaps evicts heads s.system e := by
  cases e with
  | call => exact h.1
  | step => exact fun t ht => (h t ht).toRestoresStay
  | fetch | unpin => trivial

/-- A call on the first page, or a step that leaves the disk no larger than the pool. -/
def on_heaps_check (who : List TransactionID) (s : TableSystem) (e : TableEvent) : Bool :=
  e.among who && match e with
    | .call _ op => match op with
      | .insert_tuple h _ => h == some 1
      | .get_tuple rid | .delete_tuple rid => rid.page_id == some 1
      | .update_tuple h rid t => h == some 1 && rid.page_id == some 1 && decide (t.length < 65536)
      | .commit | .abort => true
    | .step tx expired => (table_step s tx expired).all fun t =>
      decide (t.heap.pool.disk_manager.capacity ≤ s.heap.pool.pool_capacity)
    | .fetch _ | .unpin _ => true

theorem onHeaps_of_check {who : List TransactionID} {s : TableSystem} {e : TableEvent}
    (C : CallsOn False (· = 1) s) (h : on_heaps_check who s e = true) :
    OnHeaps False (· = 1) s e ∧ e.among who = true := by
  obtain ⟨hamong, h⟩ := Bool.and_eq_true_iff.mp h
  refine ⟨?_, hamong⟩
  have hon : ∀ {rid : RID}, rid.page_id = some 1 → RidOn (· = 1) s.heap.pool rid :=
    fun hp => ⟨1, hp, 1, rfl, C.heap.forest.onPath_head rfl⟩
  cases e with
  | fetch | unpin => trivial
  | call tx op =>
    cases op with
    | commit | abort => trivial
    | get_tuple rid | delete_tuple rid => exact hon (beq_iff_eq.mp h)
    | insert_tuple k t => exact ⟨1, beq_iff_eq.mp h, rfl⟩
    | update_tuple k rid t =>
      simp only [Bool.and_eq_true, beq_iff_eq, decide_eq_true_eq] at h
      exact ⟨⟨1, h.1.1, rfl⟩, hon h.1.2, h.2⟩
  | step tx expired =>
    intro t ht
    simp only [ht, Option.all_some, decide_eq_true_eq] at h
    exact ⟨fun _ => h, fun he => he.elim⟩

/-- The calls of some transactions on the first page, where the pool has a frame for every page. -/
def FewOnFirstPage (who : List TransactionID) (s : ImageHistory) : Prop :=
  CallsOn False (· = 1) s.system ∧ Bystanders who s.system

theorem few_on_first_page {who : List TransactionID} {s : ImageHistory}
    (h : (imageMachine False (· = 1)).Reach (fun s e =>
      SharesPages (· = 1) 1 (OnOwnRows False (· = 1) 1) s e ∧ e.among who = true) s) :
    FewOnFirstPage who s := by
  refine h.invariant (I := FewOnFirstPage who) (fun s hs => ?_) fun s e s' B he hn => ⟨?_, ?_⟩
  · obtain ⟨H, hl, htx, _⟩ := hs
    exact ⟨callsOn_start H htx, fun U _ =>
      ⟨congrFun htx U, congrFun (congrArg LockSystem.txs hl) U⟩⟩
  · exact B.1.next he.1.onHeaps (system_next hn)
  · exact bystanders_next B.2 he.2 (system_next hn)

/-- An update that has placed its tuple has placed it on its own RID. -/
def keeps_rid : TableCall → TableCall → Bool
  | .update _ rid _ _, .done (.ok (.placed (some ret_rid))) => ret_rid == rid
  | .update _ _ _ _, _ => false
  | _, _ => true

theorem keeps_rid_update {h : PageID} {rid : RID} {t old : List UInt8} {c : TableCall}
    (hk : keeps_rid (.update h rid t old) c = true) : c = .done (.ok (.placed (some rid))) := by
  unfold keeps_rid at hk
  split at hk
  · rename_i heq
    cases heq
    rw [beq_iff_eq.mp hk]
  · cases hk
  · rename_i hno _
    exact (hno _ _ _ _ rfl).elim

/-- Transaction 1 inserts nothing, and no step places a tuple on a RID that another transaction has
locked, or takes one back. The updates of transaction 1 keep their RID. -/
def own_rows_check (who : List TransactionID) (s : ImageHistory) (e : TableEvent) : Bool :=
  on_heaps_check who s.system e && match e with
    | .call tx (.insert_tuple _ _) => tx != 1
    | .step tx expired => (table_step s.system tx expired).all fun t =>
      ((t.txs tx).call.placed.all fun rid =>
        who.all fun V => V == tx || !(s.system.locks.txs V).exclusive_locks.contains rid) &&
      (tx != 1 || keeps_rid (s.system.txs tx).call (t.txs tx).call) &&
      match (s.system.txs tx).call with
      | .delete_inserted _ => false
      | .undo (u :: _) => reaches s.system.heap.pool u.rid
      | _ => true
    | _ => true

theorem onOwnRows_of_check {who : List TransactionID} {s : ImageHistory} {e : TableEvent}
    (F : FewOnFirstPage who s) (h : own_rows_check who s e = true) :
    SharesPages (· = 1) 1 (OnOwnRows False (· = 1) 1) s e ∧ e.among who = true := by
  obtain ⟨hon, h⟩ := Bool.and_eq_true_iff.mp h
  obtain ⟨hon, hamong⟩ := onHeaps_of_check F.1 hon
  refine ⟨?_, hamong⟩
  cases e with
  | fetch | unpin => trivial
  | call tx op =>
    refine ⟨hon, ?_⟩
    rintro rfl k tuple rfl
    cases h
  | step tx expired =>
    intro t ht
    simp only [ht, Option.all_some, Bool.and_eq_true] at h
    obtain ⟨⟨hplaced, hkeeps⟩, hcall⟩ := h
    refine ⟨hon t ht, fun rid _ hrid V hV hx => ?_,
      fun rid hc => ?_, fun hT k rid tuple old hc => ?_, fun hT u rest hc => ?_⟩
    · rw [hrid, Option.all_some, List.all_eq_true] at hplaced
      by_cases hwho : V ∈ who
      · have := hplaced V hwho
        simp [hV, hx] at this
      · rw [(F.2 V hwho).2] at hx
        cases hx
    · rw [hc] at hcall
      cases hcall
    · rw [hc, hT, Bool.or_eq_true] at hkeeps
      exact Or.inl (hT ▸ keeps_rid_update (hkeeps.resolve_left (by simp)))
    · rw [hc] at hcall
      exact hcall

/-- The same, where the log of transaction 1 still fits after the steps of the others. -/
def room_check (who : List TransactionID) (s : ImageHistory) (e : TableEvent) : Bool :=
  own_rows_check who s e && match e with
    | .step tx expired => tx == 1 || (table_step s.system tx expired).all fun t =>
      decide (fullest (s.system.txs 1).remaining (fun n => rowsOf (view t.heap.pool n)) ≤ kPAGE_SIZE)
    | _ => true

/-- What the records need depends on the rows of their pages only. -/
theorem fullest_congr {R R' : Pages} {l : List UndoRecord}
    (h : ∀ u ∈ l, ∀ n, u.rid.page_id = some n → R' n = R n) : fullest l R' = fullest l R := by
  induction l generalizing R R' with
  | nil => rfl
  | cons u l ih =>
    obtain ⟨hu, hl⟩ := List.forall_mem_cons.mp h
    have hput : ∀ (r : Row) n, (R' n = R n) → putRow R' u.rid r n = putRow R u.rid r n := by
      intro r n hn
      unfold putRow
      cases hp : u.rid.page_id with
      | none => exact hn
      | some m =>
        simp only
        by_cases hm : n = m
        · subst hm
          rw [Function.update_self, Function.update_self, hn]
        · rw [Function.update_of_ne hm, Function.update_of_ne hm]
          exact hn
    have hrest : ∀ r : Row, fullest l (putRow R' u.rid r) = fullest l (putRow R u.rid r) :=
      fun r => ih fun v hv n hn => hput r n (hl v hv n hn)
    cases u with
    | DeleteUndoRecord rid => exact hrest none
    | RestoreUndoRecord rid t =>
      have hused : usedOn (putRow R' rid (some t)) rid = usedOn (putRow R rid (some t)) rid := by
        unfold usedOn
        cases hp : rid.page_id with
        | none => rfl
        | some n =>
          simp only [Option.map_some]
          exact congrArg usedBytes (hput (some t) n (hu n hp))
      exact congrArg₂ max hused (hrest (some t))

theorem leavesRoom_of_check {who : List TransactionID} {s : ImageHistory} {e : TableEvent}
    (F : FewOnFirstPage who s) (h : room_check who s e = true) :
    SharesPages (· = 1) 1 (LeavesRoom False (· = 1) 1) s e ∧ e.among who = true := by
  obtain ⟨hown, hroom⟩ := Bool.and_eq_true_iff.mp h
  obtain ⟨hshares, hamong⟩ := onOwnRows_of_check F hown
  refine ⟨?_, hamong⟩
  cases e with
  | fetch | unpin | call => exact hshares
  | step tx expired =>
    intro t ht
    have hstep := hshares t ht
    refine ⟨hstep, fun hne => Or.inr ?_⟩
    simp only [ht, Option.all_some, Bool.or_eq_true, beq_iff_eq, decide_eq_true_eq] at hroom
    have C := callsOn_step F.1 ht hstep.frames hstep.dirty
    have hrows : ∀ u ∈ (s.system.txs 1).remaining, ∀ n, u.rid.page_id = some n →
        rows (· = 1) t.heap.pool n = rowsOf (view t.heap.pool n) := by
      rw [← (table_step_other ht (Ne.symm hne)).1]
      intro u hu n hn
      obtain ⟨m, hm, hon⟩ := (C.remaining_on 1 u hu).rid
      obtain rfl : m = n := by
        rw [hm] at hn
        exact Option.some.inj hn
      exact rows_on hon
    rw [fullest_congr hrows]
    exact hroom.resolve_left hne

/-- Transaction 2 inserts a row of six bytes and commits, transaction 1 makes it shorter, and
transaction 3 inserts a row beside it and commits. The abort of transaction 1 has undone its whole
log. -/
theorem an_abort_beside_a_small_insert_puts_the_row_back : ∃ s,
    (imageMachine False (· = 1)).Reach (SharesPages (· = 1) 1 (LeavesRoom False (· = 1) 1)) s ∧
    s.before 1 ⟨some 1, 0⟩ = some [1, 2, 3, 4, 5, 6] ∧
    tupleAt s.system.heap.pool ⟨some 1, 0⟩ = some [1, 2, 3, 4, 5, 6] ∧ PutsBack (· = 1) 1 s := by
  obtain ⟨s, hx, hp⟩ : ∃ s, (imageMachine False (· = 1)).execIf (room_check [1, 2, 3]) images_open
      [.call 2 (.insert_tuple (some 1) [1, 2, 3, 4, 5, 6]), .step 2 false, .step 2 false,
        .call 2 .commit, .step 2 false,
        .call 1 (.update_tuple (some 1) ⟨some 1, 0⟩ [9]), .step 1 false, .step 1 false,
        .step 1 false,
        .call 3 (.insert_tuple (some 1) [7, 8]), .step 3 false, .step 3 false, .call 3 .commit,
        .step 3 false,
        .call 1 .abort, .step 1 false, .step 1 false, .step 1 false] = some s ∧
      (decide (s.before 1 ⟨some 1, 0⟩ = some [1, 2, 3, 4, 5, 6]) &&
        decide (tupleAt s.system.heap.pool ⟨some 1, 0⟩ = some [1, 2, 3, 4, 5, 6])) = true := by
    apply Option.map_eq_some_iff.mp
    decide +kernel
  rw [Bool.and_eq_true, decide_eq_true_eq, decide_eq_true_eq] at hp
  have hr : (imageMachine False (· = 1)).Reach (fun s e =>
      SharesPages (· = 1) 1 (LeavesRoom False (· = 1) 1) s e ∧ e.among [1, 2, 3] = true) s :=
    Machine.Reach.execIf
      (fun _ h => few_on_first_page (h.mono fun _ _ he => he.imp_left fun hs =>
        hs.mono fun _ _ _ hl => hl.toOnOwnRows))
      (fun _ _ F h => leavesRoom_of_check F h) (.start images_open_start) hx
  have hr := hr.mono fun _ _ h => h.1
  exact ⟨s, hr, hp.1, hp.2, an_abort_puts_back_what_the_others_left_room_for hr⟩

/-- An abort with records left. -/
def has_records : TableCall → Bool
  | .undo (_ :: _) => true
  | _ => false

/-- Transaction 1 makes a row of 8000 bytes shorter, transaction 3 inserts a row of 5000 bytes on
the same page and commits, and there is no room to put the row of 8000 bytes back. -/
theorem an_insert_takes_the_room_of_an_undo : ¬ ∀ (evicts : Prop) (heads : Nat → Prop)
    (T : TransactionID) (s : ImageHistory), (imageMachine evicts heads).Reach
      (SharesPages heads T (OnOwnRows evicts heads T)) s → PutsBack heads T s := by
  intro h
  obtain ⟨s, hx, hp⟩ : ∃ s, (imageMachine False (· = 1)).execIf (own_rows_check [1, 2, 3])
      images_open
      [.call 2 (.insert_tuple (some 1) (List.replicate 8000 7)), .step 2 false, .step 2 false,
        .call 2 .commit, .step 2 false,
        .call 1 (.update_tuple (some 1) ⟨some 1, 0⟩ [9]), .step 1 false, .step 1 false,
        .step 1 false,
        .call 3 (.insert_tuple (some 1) (List.replicate 5000 8)), .step 3 false, .step 3 false,
        .call 3 .commit, .step 3 false,
        .call 1 .abort, .step 1 false, .step 1 false] = some s ∧
      (has_records (s.system.txs 1).call && (table_step s.system 1 false).isNone) = true := by
    apply Option.map_eq_some_iff.mp
    decide +kernel
  rw [Bool.and_eq_true, Option.isNone_iff_eq_none] at hp
  have hr : (imageMachine False (· = 1)).Reach (fun s e =>
      SharesPages (· = 1) 1 (OnOwnRows False (· = 1) 1) s e ∧ e.among [1, 2, 3] = true) s :=
    Machine.Reach.execIf (fun _ => few_on_first_page) (fun _ _ F h => onOwnRows_of_check F h)
      (.start images_open_start) hx
  have hback := h False (· = 1) 1 s (hr.mono fun _ _ h => h.1)
  obtain ⟨hundo, hstuck⟩ := hp
  unfold has_records at hundo
  split at hundo
  · rename_i u rest hc
    obtain ⟨t, ht, _⟩ := hback.goes_on u rest false hc
    rw [hstuck] at ht
    cases ht
  · cases hundo

end duck.table
