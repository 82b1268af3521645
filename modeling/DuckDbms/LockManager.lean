-- The lock manager: the queues of `lock_table_`, the lock sets of the
-- transactions, and the calls that wait. Each section that runs under
-- `LockManager::latch_` between two waits is one event of the machine.
import DuckDbms.Common
import DuckDbms.Lib.Machine

open machine

namespace duck.lock_manager

inductive LockMode
  | SHARED
  | EXCLUSIVE
  deriving DecidableEq

inductive TransactionState
  | GROWING
  | SHRINKING
  | COMMITTED
  | ABORTED
  deriving DecidableEq

structure LockRequest where
  tx_id : TransactionID
  lock_mode : LockMode
  granted : Bool
  deriving DecidableEq

/-- What the lock manager reads and writes of a transaction. -/
structure Transaction where
  state : TransactionState := .GROWING
  shared_locks : List RID := []
  exclusive_locks : List RID := []
  deriving DecidableEq

/-- A call that waits in `wait_for`. It sleeps from the moment it finds `can_grant` false
until a `notify_all` of its queue. `upgrade` tells that the call came through the branch
that gives up a shared lock. -/
structure Wait where
  rid : RID
  lock_mode : LockMode
  upgrade : Bool
  asleep : Bool
  deriving DecidableEq

/-- The lock table, the transactions, and the call of each transaction that waits. A
transaction makes one call at a time. -/
structure LockSystem where
  lock_table : RID → List LockRequest
  txs : TransactionID → Transaction
  waits : TransactionID → Option Wait

namespace LockSystem

def set_queue (s : LockSystem) (rid : RID) (q : List LockRequest) : LockSystem :=
  { s with lock_table := Function.update s.lock_table rid q }

def set_tx (s : LockSystem) (tx : TransactionID) (t : Transaction) : LockSystem :=
  { s with txs := Function.update s.txs tx t }

def set_wait (s : LockSystem) (tx : TransactionID) (w : Option Wait) : LockSystem :=
  { s with waits := Function.update s.waits tx w }

/-- `queue.cv.notify_all()`: every call that waits on the queue evaluates `can_grant` again. -/
def notify_all (s : LockSystem) (rid : RID) : LockSystem :=
  { s with waits := fun tx => (s.waits tx).map fun w =>
      if w.rid = rid then { w with asleep := false } else w }

end LockSystem

def can_grant : List LockRequest → LockRequest → Bool
  | [], _ => true
  | it :: rest, request =>
    if !it.granted || it.tx_id == request.tx_id then can_grant rest request
    else if request.lock_mode = .EXCLUSIVE then false
    else if it.lock_mode = .EXCLUSIVE then false
    else can_grant rest request

/-- `queue.requests.insert(queue.requests.end(), request)`, and the call enters `wait_for`. -/
def enqueue (s : LockSystem) (tx : TransactionID) (rid : RID) (mode : LockMode)
    (upgrade : Bool) : LockSystem :=
  (s.set_queue rid (s.lock_table rid ++ [⟨tx, mode, false⟩])).set_wait tx
    (some ⟨rid, mode, upgrade, true⟩)

/-- `it->granted = true`. The iterator of a call names the one request of its transaction
that is not granted. -/
def mark_granted (tx : TransactionID) (q : List LockRequest) : List LockRequest :=
  q.map fun r => if r.tx_id = tx then { r with granted := true } else r

/-- The end of a call that gets its lock. -/
def grant (s : LockSystem) (tx : TransactionID) (rid : RID) : LockMode → LockSystem
  | .SHARED =>
    ((s.set_queue rid (mark_granted tx (s.lock_table rid))).set_tx tx
      { s.txs tx with shared_locks := (s.txs tx).shared_locks.insert rid }).set_wait tx none
  | .EXCLUSIVE =>
    ((s.set_queue rid (mark_granted tx (s.lock_table rid))).set_tx tx
      { s.txs tx with exclusive_locks := (s.txs tx).exclusive_locks.insert rid }).set_wait tx none

/-- The end of a call whose wait ran out: `queue.requests.erase(it)`, the transaction is
aborted, and the queue is notified. -/
def time_out (s : LockSystem) (tx : TransactionID) (rid : RID) : LockSystem :=
  (((s.set_queue rid ((s.lock_table rid).filter fun r => !(r.tx_id == tx && !r.granted))).set_tx tx
    { s.txs tx with state := .ABORTED }).set_wait tx none).notify_all rid

/-- The common tail of the two lock calls, up to the first sleep: the request enters the
queue, and is granted at once when `can_grant` allows it. The result is `none` when the
call sleeps. -/
def request_lock (s : LockSystem) (tx : TransactionID) (rid : RID) (mode : LockMode)
    (upgrade : Bool) : LockSystem × Option Bool :=
  let s := enqueue s tx rid mode upgrade
  if can_grant (s.lock_table rid) ⟨tx, mode, false⟩ then (grant s tx rid mode, some true)
  else (s, none)

def lock_shared (s : LockSystem) (tx : TransactionID) (rid : RID) : LockSystem × Option Bool :=
  if (s.txs tx).state ≠ .GROWING then (s, some false)
  else if rid ∈ (s.txs tx).shared_locks ∨ rid ∈ (s.txs tx).exclusive_locks then (s, some true)
  else request_lock s tx rid .SHARED false

/-- The branch of `lock_exclusive` that upgrades: the requests of the transaction leave
the queue, and the shared lock leaves its set. Nobody is notified. -/
def release_shared (s : LockSystem) (tx : TransactionID) (rid : RID) : LockSystem :=
  (s.set_queue rid ((s.lock_table rid).filter fun r => r.tx_id ≠ tx)).set_tx tx
    { s.txs tx with shared_locks := (s.txs tx).shared_locks.filter fun r => r ≠ rid }

def lock_exclusive (s : LockSystem) (tx : TransactionID) (rid : RID) :
    LockSystem × Option Bool :=
  if (s.txs tx).state ≠ .GROWING then (s, some false)
  else if rid ∈ (s.txs tx).exclusive_locks then (s, some true)
  else if rid ∈ (s.txs tx).shared_locks then
    request_lock (release_shared s tx rid) tx rid .EXCLUSIVE true
  else request_lock s tx rid .EXCLUSIVE false

def remove_and_notify (tx : TransactionID) (s : LockSystem) (rid : RID) : LockSystem :=
  (s.set_queue rid ((s.lock_table rid).filter fun r => r.tx_id ≠ tx)).notify_all rid

def unlock_all (s : LockSystem) (tx : TransactionID) : LockSystem :=
  let s' := (s.txs tx).exclusive_locks.foldl (remove_and_notify tx) s
  let s' := (s.txs tx).shared_locks.foldl (remove_and_notify tx) s'
  s'.set_tx tx { s'.txs tx with shared_locks := [], exclusive_locks := [] }

/-- A waiting call evaluates the predicate of `wait_for` again. When it is still false the
call sleeps on, or gives up when its time is over. -/
def wake (s : LockSystem) (tx : TransactionID) (expired : Bool) : Option (LockSystem × Option Bool) :=
  (s.waits tx).map fun w =>
    if can_grant (s.lock_table w.rid) ⟨tx, w.lock_mode, false⟩ then
      (grant s tx w.rid w.lock_mode, some true)
    else if expired then (time_out s tx w.rid, some false)
    else (s.set_wait tx (some { w with asleep := true }), none)

inductive Event
  | lock_shared (tx : TransactionID) (rid : RID)
  | lock_exclusive (tx : TransactionID) (rid : RID)
  | wake (tx : TransactionID)
  | timeout (tx : TransactionID)
  | unlock_all (tx : TransactionID)
  /-- `set_state` of `TransactionManager::commit` and `abort`, which never set `GROWING`. -/
  | set_state (tx : TransactionID) (state : TransactionState)
  deriving DecidableEq

/-- A transaction that waits makes no other call. -/
def next (s : LockSystem) : Event → Option LockSystem
  | .lock_shared tx rid => if s.waits tx = none then some (lock_shared s tx rid).1 else none
  | .lock_exclusive tx rid => if s.waits tx = none then some (lock_exclusive s tx rid).1 else none
  | .wake tx => (wake s tx false).map (·.1)
  | .timeout tx => (wake s tx true).map (·.1)
  | .unlock_all tx => if s.waits tx = none then some (unlock_all s tx) else none
  | .set_state tx state =>
    if state ≠ .GROWING then some (s.set_tx tx { s.txs tx with state }) else none

/-- No lock is held or asked for, and every transaction is growing. -/
def fresh : LockSystem := ⟨fun _ => [], fun _ => {}, fun _ => none⟩

def lockMachine : Machine LockSystem Event := ⟨(· = fresh), next⟩

end duck.lock_manager
