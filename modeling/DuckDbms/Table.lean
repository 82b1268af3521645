-- The calls of a table under transactions: each one takes its row locks, works
-- on the heap, and logs how to undo its work. A call of the lock manager and a
-- call of the heap are one step each, and a lock call that has to wait takes
-- its next step when it wakes.
import DuckDbms.LockManager
import DuckDbms.HeapEvictions

open duck.buffer_pool duck.lock_manager duck.table_heap

namespace duck.table

/-! ## Transactions and their calls -/

/-- How a call of a table is undone. The table of a record only leads to its heap, and the
calls of the heap that a record makes find their page by its RID. -/
inductive UndoRecord
  | DeleteUndoRecord (rid : RID)
  | RestoreUndoRecord (rid : RID) (tuple : List UInt8)
  deriving DecidableEq

/-- What a call of a table returns. -/
inductive TableResult
  | placed (rid : Option RID)
  | found (tuple : Option (List UInt8))
  | deleted (deleted : Bool)
  deriving DecidableEq

/-- Where a transaction stands in a call. -/
inductive TableCall
  /-- it makes no call; the last one returned the result -/
  | done (result : Except String TableResult)
  /-- `commit` or `abort` is over -/
  | ended
  /-- `Table::insert_tuple`: the insert, the lock of its RID, and the delete when that lock
  is refused -/
  | insert (first_page_id : PageID) (tuple : List UInt8)
  | lock_inserted (rid : RID)
  | delete_inserted (rid : RID)
  /-- `Table::get_tuple` -/
  | lock_read (rid : RID)
  | read (rid : RID)
  /-- `Table::delete_tuple` -/
  | lock_deleted (rid : RID)
  | read_deleted (rid : RID)
  | delete (rid : RID) (bytes : List UInt8)
  /-- `Table::update_tuple`: a tuple that moves has a second RID to lock -/
  | lock_updated (first_page_id : PageID) (rid : RID) (tuple : List UInt8)
  | read_updated (first_page_id : PageID) (rid : RID) (tuple : List UInt8)
  | update (first_page_id : PageID) (rid : RID) (tuple old_tuple_bytes : List UInt8)
  | lock_moved (rid : RID) (old_tuple_bytes : List UInt8) (ret_rid : RID)
  | commit
  | abort
  /-- `Transaction::undo`, with the records that are left -/
  | undo (records : List UndoRecord)

/-- A transaction starts with no log, and as if a call had returned. `undo_log` has the back
of the vector first. -/
structure TableTx where
  undo_log : List UndoRecord := []
  call : TableCall := .done (.ok (.placed none))

/-- The pool with the pins that scans hold in it, less than 2^32 a page, over less than 2^32 pages,
the locks, and the transactions. -/
structure TableSystem where
  heap : HeapPool
  locks : LockSystem
  txs : TransactionID → TableTx

namespace TableSystem

variable (s : TableSystem)

/-- The call of a transaction goes on, over the pool that its step left. -/
def go_on (b : BufferPoolManager) (tx : TransactionID) (call : TableCall) : TableSystem :=
  { s with
    heap := ⟨b, s.heap.outside⟩
    txs := Function.update s.txs tx ⟨(s.txs tx).undo_log, call⟩ }

/-- `push_undo`, one record after the other. -/
def push_undo (tx : TransactionID) (records : List UndoRecord) : TableSystem :=
  { s with
    txs := Function.update s.txs tx
      ⟨records.reverse ++ (s.txs tx).undo_log, (s.txs tx).call⟩ }

/-- A lock call starts, or wakes up. It goes on with its answer, and sleeps when it has none. -/
def lock (tx : TransactionID) (rid : RID) (mode : LockMode) (expired : Bool)
    (answered : Bool → TableSystem → TableSystem) : TableSystem :=
  let r := match wake s.locks tx expired with
    | some r => r
    | none =>
      match mode with
      | .SHARED => lock_shared s.locks tx rid
      | .EXCLUSIVE => lock_exclusive s.locks tx rid
  let s := { s with locks := r.1 }
  match r.2 with
  | some granted => answered granted s
  | none => s

/-- `set_state` of a transaction. -/
def set_state (tx : TransactionID) (state : TransactionState) : TableSystem :=
  { s with locks := s.locks.set_tx tx { s.locks.txs tx with state } }

/-- The end of `commit` and of `abort`, as one step: the locks are released, the state is set, and
the transaction leaves `active_txs_`. -/
def finish (tx : TransactionID) (state : TransactionState) : TableSystem :=
  (({ s with locks := unlock_all s.locks tx }).set_state tx state).go_on s.heap.pool tx .ended

end TableSystem

/-! ## Steps -/

/-- The next step of the call of a transaction. A lock call that finds its time over gives up.
An assertion that fails has no next state. -/
def table_step (s : TableSystem) (tx : TransactionID) (expired : Bool) : Option TableSystem :=
  match (s.txs tx).call with
  | .done _ | .ended => none
  | .insert first_page_id tuple =>
    (insert_tuple s.heap.pool first_page_id tuple).map fun
      | (.error e, b) => s.go_on b tx (.done (.error e))
      | (.ok none, b) => s.go_on b tx (.done (.ok (.placed none)))
      | (.ok (some rid), b) => s.go_on b tx (.lock_inserted rid)
  | .lock_inserted rid => some <| s.lock tx rid .EXCLUSIVE expired fun granted s =>
      if granted then
        (s.push_undo tx [.DeleteUndoRecord rid]).go_on s.heap.pool tx (.done (.ok (.placed rid)))
      else s.go_on s.heap.pool tx (.delete_inserted rid)
  | .delete_inserted rid =>
    match delete_tuple s.heap.pool rid with
    | (.error e, b) => some (s.go_on b tx (.done (.error e)))
    | (.ok _, b) => some (s.go_on b tx (.done (.ok (.placed none))))
  | .lock_read rid => some <| s.lock tx rid .SHARED expired fun granted s =>
      s.go_on s.heap.pool tx (if granted then .read rid else .done (.ok (.found none)))
  | .read rid =>
    match get_tuple s.heap.pool rid with
    | (.error e, b) => some (s.go_on b tx (.done (.error e)))
    | (.ok bytes, b) => some (s.go_on b tx (.done (.ok (.found bytes))))
  | .lock_deleted rid => some <| s.lock tx rid .EXCLUSIVE expired fun granted s =>
      s.go_on s.heap.pool tx (if granted then .read_deleted rid else .done (.ok (.deleted false)))
  | .read_deleted rid =>
    match get_tuple s.heap.pool rid with
    | (.error e, b) => some (s.go_on b tx (.done (.error e)))
    | (.ok none, b) => some (s.go_on b tx (.done (.ok (.deleted false))))
    | (.ok (some bytes), b) => some (s.go_on b tx (.delete rid bytes))
  | .delete rid bytes =>
    match delete_tuple s.heap.pool rid with
    | (.error e, b) => some (s.go_on b tx (.done (.error e)))
    | (.ok false, b) => some (s.go_on b tx (.done (.ok (.deleted false))))
    | (.ok true, b) =>
      some ((s.push_undo tx [.RestoreUndoRecord rid bytes]).go_on b tx (.done (.ok (.deleted true))))
  | .lock_updated first_page_id rid tuple => some <| s.lock tx rid .EXCLUSIVE expired
      fun granted s => s.go_on s.heap.pool tx
        (if granted then .read_updated first_page_id rid tuple else .done (.ok (.placed none)))
  | .read_updated first_page_id rid tuple =>
    match get_tuple s.heap.pool rid with
    | (.error e, b) => some (s.go_on b tx (.done (.error e)))
    | (.ok none, b) => some (s.go_on b tx (.done (.ok (.placed none))))
    | (.ok (some old), b) => some (s.go_on b tx (.update first_page_id rid tuple old))
  | .update first_page_id rid tuple old =>
    (update_tuple s.heap.pool first_page_id rid tuple).map fun
      | (.error e, b) => s.go_on b tx (.done (.error e))
      | (.ok none, b) => s.go_on b tx (.done (.ok (.placed none)))
      | (.ok (some ret_rid), b) =>
        if ret_rid ≠ rid then s.go_on b tx (.lock_moved rid old ret_rid)
        else (s.push_undo tx [.RestoreUndoRecord rid old, .DeleteUndoRecord rid]).go_on b tx
          (.done (.ok (.placed ret_rid)))
  | .lock_moved rid old ret_rid => some <| s.lock tx ret_rid .EXCLUSIVE expired fun granted s =>
      if granted then
        (s.push_undo tx [.RestoreUndoRecord rid old, .DeleteUndoRecord ret_rid]).go_on s.heap.pool tx
          (.done (.ok (.placed ret_rid)))
      else s.go_on s.heap.pool tx (.done (.ok (.placed none)))
  | .commit => some ((s.set_state tx .SHRINKING).finish tx .COMMITTED)
  | .abort =>
    some ((s.set_state tx .SHRINKING).go_on s.heap.pool tx (.undo (s.txs tx).undo_log))
  | .undo [] => some (s.finish tx .ABORTED)
  | .undo (.DeleteUndoRecord rid :: rest) =>
    match delete_tuple s.heap.pool rid with
    | (.error e, b) => some (s.go_on b tx (.done (.error e)))
    | (.ok _, b) => some (s.go_on b tx (.undo rest))
  | .undo (.RestoreUndoRecord rid tuple :: rest) =>
    (restore_tuple s.heap.pool rid tuple).map fun
      | (.error e, b) => s.go_on b tx (.done (.error e))
      | (.ok _, b) => s.go_on b tx (.undo rest)

/-! ## Calls -/

/-- What a caller may ask for. -/
inductive TableOp
  | insert_tuple (first_page_id : PageID) (tuple : List UInt8)
  | get_tuple (rid : RID)
  | delete_tuple (rid : RID)
  | update_tuple (first_page_id : PageID) (rid : RID) (tuple : List UInt8)
  | commit
  | abort

/-- The first place of a call. -/
def TableOp.call : TableOp → TableCall
  | .insert_tuple first_page_id tuple => .insert first_page_id tuple
  | .get_tuple rid => .lock_read rid
  | .delete_tuple rid => .lock_deleted rid
  | .update_tuple first_page_id rid tuple => .lock_updated first_page_id rid tuple
  | .commit => .commit
  | .abort => .abort

def TableSystem.begin_call (s : TableSystem) (tx : TransactionID) (op : TableOp) : TableSystem :=
  s.go_on s.heap.pool tx op.call

/-- The steps of a call that runs alone, to its end or for as long as the fuel lasts. -/
def run_call : Nat → TableSystem → TransactionID → Option TableSystem
  | 0, _, _ => none
  | fuel + 1, s, tx =>
    match (s.txs tx).call with
    | .done _ | .ended => some s
    | _ => (table_step s tx false).bind fun s => run_call fuel s tx

/-! ## Transactions side by side -/

inductive TableEvent
  | call (tx : TransactionID) (op : TableOp)
  | step (tx : TransactionID) (expired : Bool)
  /-- a scan brings a page in and keeps it pinned, or lets go of it; what it locks and reads is
  like a call of `get_tuple` -/
  | fetch (page_id : Nat)
  | unpin (page_id : Nat)

/-- A transaction makes one call at a time, and none once it has ended. -/
def TableSystem.next (s : TableSystem) : TableEvent → Option TableSystem
  | .call tx op =>
    match (s.txs tx).call with
    | .done _ => some (s.begin_call tx op)
    | _ => none
  | .step tx expired => table_step s tx expired
  | .fetch n => (s.heap.next (.fetch n)).map fun heap => { s with heap }
  | .unpin n => (s.heap.next (.unpin n)).map fun heap => { s with heap }

end duck.table
