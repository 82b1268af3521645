-- Calls of a table whose locks are refused: what they have changed by then, and
-- what of it the undo log knows, whatever the lock manager answers.
import DuckDbms.TableLocks
import DuckDbms.UpdateSizes

open machine duck.slotted_page duck.disk_manager duck.buffer_pool duck.lock_manager duck.table_heap
open chain

namespace duck.table

/-! ## A call and the answers to its lock requests -/

/-- A call of one transaction. `refused` is its request that was refused, and `missed` tells that
the delete which follows a refused insert got no frame for its page. -/
structure Attempt where
  system : TableSystem
  refused : Option TableCall := none
  missed : Bool := false

inductive AttemptEvent
  | step (expired : Bool)
  /-- the other transactions take locks and give them back, and the state of any may change -/
  | locks (locks : LockSystem)
  /-- another user brings a page in and keeps it pinned, or lets go of it -/
  | fetch (page_id : Nat)
  | unpin (page_id : Nat)

/-- The lock request that the next step gets refused. -/
def refusal (s : TableSystem) (tx : TransactionID) (expired : Bool) : Option TableCall :=
  match (s.txs tx).call.wants with
  | some (rid, mode) =>
    if (lockCall s.locks tx rid mode expired).2 = some false then some (s.txs tx).call else none
  | none => none

/-- The next step deletes an inserted tuple, and no frame can be had for its page. -/
def misses (s : TableSystem) (tx : TransactionID) : Bool :=
  match (s.txs tx).call with
  | .delete_inserted rid =>
    match (s.heap.pool.fetch_page rid.page_id).1 with
    | .ok none => true
    | _ => false
  | _ => false

/-- A call from its first step on, while others use the lock manager and the pool. -/
def attemptMachine (s0 : TableSystem) (tx : TransactionID) (op : TableOp) :
    Machine Attempt AttemptEvent where
  start s := s = { system := s0.begin_call tx op }
  next s
    | .step expired => (table_step s.system tx expired).map fun system =>
        { system
          refused := (refusal s.system tx expired).or s.refused
          missed := s.missed || misses s.system tx }
    | .locks locks => some { s with system.locks := locks }
    | .fetch n => (s.system.next (.fetch n)).map fun system => { s with system }
    | .unpin n => (s.system.next (.unpin n)).map fun system => { s with system }

/-- An insert into a heap, or a delete or an update of a RID on the pages of the heaps. -/
def TableOp.On (heads : Nat → Prop) (b : BufferPoolManager) : TableOp → Prop
  | .insert_tuple h _ => ∃ k, h = some k ∧ heads k
  | .delete_tuple rid => RidOn heads b rid
  | .update_tuple h rid _ => (∃ k, h = some k ∧ heads k) ∧ RidOn heads b rid
  | .get_tuple _ | .commit | .abort => False

/-- The tuples by their RIDs. -/
def tuplesOf (R : Pages) (rid : RID) : Option (List UInt8) := (rowAt R rid).join

/-- The heaps have the tuples that they had before, or the log has got records that bring them
back. -/
def LeavesNoTrace (heads : Nat → Prop) (tx : TransactionID) (s0 s : TableSystem) : Prop :=
  tuplesOf (rows heads s.heap.pool) = tuplesOf (rows heads s0.heap.pool) ∨
    ∃ recs, (s.txs tx).undo_log = recs ++ (s0.txs tx).undo_log ∧
      tuplesOf (recs.foldl undoRow (rows heads s.heap.pool)) = tuplesOf (rows heads s0.heap.pool)

/-- The request is the first one of its call: an update whose tuple moved makes a second. -/
def TableCall.first_request : TableCall → Bool
  | .lock_moved _ _ _ => false
  | _ => true

/-! ## What the call has changed so far -/

/-- The call has read the heap at most. -/
def TableCall.only_read : TableCall → Bool
  | .lock_deleted _ | .read_deleted _ | .delete _ _ | .lock_updated _ _ _ | .read_updated _ _ _
  | .update _ _ _ _ => true
  | _ => false

/-- The pages of the call are pages of the heaps. -/
def TableCall.Rids (heads : Nat → Prop) (b : BufferPoolManager) : TableCall → Prop
  | .insert h _ => ∃ k, h = some k ∧ heads k
  | .lock_inserted rid | .delete_inserted rid | .lock_deleted rid | .read_deleted rid
  | .delete rid _ => RidOn heads b rid
  | .lock_updated h rid _ | .read_updated h rid _ | .update h rid _ _ =>
    (∃ k, h = some k ∧ heads k) ∧ RidOn heads b rid
  | .lock_moved _ _ _ | .done _ => True
  | _ => False

/-- Where the call stands that found the rows `R0`, the rows now, its request that was refused,
and whether its delete missed the page. -/
inductive AttemptAt (R0 : Pages) : TableCall → Pages → Option TableCall → Bool → Prop
  | insert {h : PageID} {t : List UInt8} : AttemptAt R0 (.insert h t) R0 none false
  | lock_inserted {rid : RID} {t : List UInt8} : MayPlace R0 rid →
      AttemptAt R0 (.lock_inserted rid) (placeRow R0 rid t) none false
  | delete_inserted {rid : RID} {t : List UInt8} : MayPlace R0 rid →
      AttemptAt R0 (.delete_inserted rid) (placeRow R0 rid t) (some (.lock_inserted rid)) false
  | deleted_again {rid : RID} {t : List UInt8} {r : Except String TableResult} : MayPlace R0 rid →
      AttemptAt R0 (.done r) (putRow (placeRow R0 rid t) rid none) (some (.lock_inserted rid)) false
  | left_over {rid : RID} {t : List UInt8} {r : Except String TableResult} : MayPlace R0 rid →
      AttemptAt R0 (.done r) (placeRow R0 rid t) (some (.lock_inserted rid)) true
  | unchanged {call : TableCall} : call.only_read = true → AttemptAt R0 call R0 none false
  | refused {call : TableCall} {r : Except String TableResult} : call.first_request = true →
      AttemptAt R0 (.done r) R0 (some call) false
  | lock_moved {rid ret_rid : RID} {old old' t : List UInt8} : ret_rid ≠ rid →
      rowAt R0 rid = some (some old') → MayPlace (putRow R0 rid none) ret_rid →
      AttemptAt R0 (.lock_moved rid old ret_rid) (placeRow (putRow R0 rid none) ret_rid t) none false
  | moved {rid ret_rid : RID} {old old' t : List UInt8} {r : Except String TableResult} :
      ret_rid ≠ rid → rowAt R0 rid = some (some old') → MayPlace (putRow R0 rid none) ret_rid →
      AttemptAt R0 (.done r) (placeRow (putRow R0 rid none) ret_rid t)
        (some (.lock_moved rid old ret_rid)) false

/-- What a call keeps that has not returned, or whose request was refused. -/
structure Trying (heads : Nat → Prop) (tx : TransactionID) (s0 : TableSystem) (s : Attempt) :
    Prop where
  heap : HeapState True s.system.heap.outside (fun _ => False) heads s.system.heap.pool
  log : (s.system.txs tx).undo_log = (s0.txs tx).undo_log
  rids : (s.system.txs tx).call.Rids heads s.system.heap.pool
  stands : AttemptAt (rows heads s0.heap.pool) (s.system.txs tx).call
    (rows heads s.system.heap.pool) s.refused s.missed

/-! ## The tuples of changed rows -/

section
variable {R : Pages} {rid : RID}

theorem tuplesOf_mayPlace (h : MayPlace R rid) : tuplesOf R rid = none := by
  obtain ⟨_, slot⟩ := rid
  obtain ⟨n, rfl, htake⟩ := h
  exact tupleOf_mayTake htake

theorem tuplesOf_placeRow (h : MayPlace R rid) (t : List UInt8) :
    tuplesOf (placeRow R rid t) = Function.update (tuplesOf R) rid (some t) := by
  obtain ⟨_, slot⟩ := rid
  obtain ⟨n, rfl, htake⟩ := h
  funext ⟨p, j⟩
  by_cases hr : (⟨p, j⟩ : RID) = ⟨some n, slot⟩
  · cases hr
    rw [Function.update_self]
    unfold tuplesOf placeRow
    simp only [rowAt, Option.bind_some, Function.update_self]
    exact (tupleOf_place htake t slot).trans (if_pos rfl)
  · rw [Function.update_of_ne hr]
    unfold tuplesOf placeRow
    rcases p with _ | m
    · rfl
    simp only [rowAt, Option.bind_some]
    by_cases hm : m = n
    · subst hm
      rw [Function.update_self]
      refine (tupleOf_place htake t j).trans (if_neg ?_)
      rintro rfl
      exact hr rfl
    · rw [Function.update_of_ne hm]

theorem tuplesOf_clear (R : Pages) (rid : RID) :
    tuplesOf (putRow R rid none) = Function.update (tuplesOf R) rid none := by
  funext rid'
  unfold tuplesOf
  rw [rowAt_putRow]
  by_cases hr : rid' = rid
  · subst hr
    rw [if_pos rfl, Function.update_self]
    cases rowAt R rid' <;> rfl
  · rw [if_neg hr, Function.update_of_ne hr]

/-- A tuple that was placed and deleted again leaves the tuples as they were. -/
theorem tuplesOf_place_clear (h : MayPlace R rid) (t : List UInt8) :
    tuplesOf (putRow (placeRow R rid t) rid none) = tuplesOf R := by
  rw [tuplesOf_clear, tuplesOf_placeRow h, Function.update_idem, ← tuplesOf_mayPlace h,
    Function.update_eq_self]

end

/-! ## Steps -/

section
variable {heads : Nat → Prop} {tx : TransactionID} {s0 : TableSystem} {s : Attempt}
  {t : TableSystem} {expired : Bool}

theorem TableCall.Rids.ran {c : TableCall} {b b' : BufferPoolManager} {pins : Nat → Nat}
    (h : c.Rids heads b) (R : Ran True heads pins (fun _ => False) b b') : c.Rids heads b' := by
  cases c with
  | insert h' t => exact h
  | lock_inserted rid | delete_inserted rid | lock_deleted rid | read_deleted rid
  | delete rid bytes => exact RidOn.ran h R
  | lock_updated h' rid t | read_updated h' rid t => exact ⟨h.1, RidOn.ran h.2 R⟩
  | update h' rid t old => exact ⟨h.1, RidOn.ran h.2 R⟩
  | lock_moved | done => trivial
  | ended | lock_read | read | commit | abort | undo => exact h.elim

/-- A step that called the heap and left the log alone. -/
theorem Trying.after (T : Trying heads tx s0 s) {b : BufferPoolManager} {call : TableCall}
    {refused : Option TableCall} {missed : Bool}
    (R : Ran True heads s.system.heap.outside (fun _ => False) s.system.heap.pool b)
    (hrids : call.Rids heads b)
    (hstands : AttemptAt (rows heads s0.heap.pool) call (rows heads b) refused missed) :
    Trying heads tx s0 ⟨s.system.after b tx (s.system.txs tx).undo_log call, refused, missed⟩ := by
  refine ⟨R.heap, ?_, ?_, ?_⟩ <;> simp only [after_txs_self]
  · exact T.log
  · exact hrids
  · exact hstands

/-- What a step of the call leaves: a call that goes on, or that has returned with all its
requests granted. -/
def Tried (heads : Nat → Prop) (tx : TransactionID) (s0 : TableSystem) (s : Attempt) : Prop :=
  Trying heads tx s0 s ∨ (s.refused = none ∧ ∃ r, (s.system.txs tx).call = .done r)

theorem refusal_of_wants_none (hw : (s.system.txs tx).call.wants = none) :
    refusal s.system tx expired = none := by
  unfold refusal
  rw [hw]

theorem misses_of_wants {x : RID × LockMode} (hw : (s.system.txs tx).call.wants = some x) :
    misses s.system tx = false := by
  unfold misses
  cases hc : (s.system.txs tx).call with
  | delete_inserted rid =>
    rw [hc] at hw
    cases hw
  | _ => rfl

/-- What a lock request of a call leads to that has only read the heap. -/
theorem TableCall.only_read_asks {call : TableCall} {x : RID × LockMode}
    (honly : call.only_read = true) (hw : call.wants = some x) :
    call.logs = [] ∧ call.granted.only_read = true ∧ call.first_request = true ∧
      (∀ heads b, call.Rids heads b → call.granted.Rids heads b) ∧
      ∃ r, call.refused = .done r := by
  cases call with
  | lock_deleted | lock_updated => exact ⟨rfl, rfl, rfl, fun _ _ => id, _, rfl⟩
  | read_deleted | delete | read_updated | update => cases hw
  | _ => cases honly

/-- The rows are the same after a lock request, and the call goes on. -/
theorem AttemptAt.refuse {R0 R : Pages} {call : TableCall} {refused : Option TableCall}
    {missed : Bool} {x : RID × LockMode} (h : AttemptAt R0 call R refused missed)
    (hw : call.wants = some x) : AttemptAt R0 call.refused R (some call) missed := by
  cases h with
  | insert | delete_inserted | deleted_again | left_over | refused | moved => cases hw
  | lock_inserted htake => exact .delete_inserted htake
  | lock_moved hne hold htake => exact .moved hne hold htake
  | unchanged honly =>
    obtain ⟨_, _, hfirst, _, r, hr⟩ := TableCall.only_read_asks honly hw
    rw [hr]
    exact .refused hfirst

theorem AttemptAt.grant {R0 R : Pages} {call : TableCall} {refused : Option TableCall}
    {missed : Bool} {x : RID × LockMode} (h : AttemptAt R0 call R refused missed)
    (hw : call.wants = some x) : refused = none ∧ missed = false ∧
      ((∃ r, call.granted = .done r) ∨
        (call.only_read = true ∧ AttemptAt R0 call.granted R none false)) := by
  cases h with
  | insert | delete_inserted | deleted_again | left_over | refused | moved => cases hw
  | lock_inserted | lock_moved => exact ⟨rfl, rfl, Or.inl ⟨_, rfl⟩⟩
  | unchanged honly =>
    exact ⟨rfl, rfl, Or.inr ⟨honly, .unchanged (TableCall.only_read_asks honly hw).2.1⟩⟩

/-- A lock request: it sleeps on, or it is granted or refused. -/
theorem Trying.asks (T : Trying heads tx s0 s) {x : RID × LockMode}
    (hw : (s.system.txs tx).call.wants = some x)
    (hstep : table_step s.system tx expired = some t) :
    Tried heads tx s0 ⟨t, (refusal s.system tx expired).or s.refused,
      s.missed || misses s.system tx⟩ := by
  obtain ⟨rid, mode⟩ := x
  rw [misses_of_wants hw, Bool.or_false]
  have hrefusal : refusal s.system tx expired =
      if (lockCall s.system.locks tx rid mode expired).2 = some false then
        some (s.system.txs tx).call else none := by
    unfold refusal
    rw [hw]
  rw [hrefusal]
  rw [table_step_lock hw, lock_eq] at hstep
  clear hrefusal
  generalize lockCall s.system.locks tx rid mode expired = r at hstep ⊢
  obtain ⟨l, _ | _ | _⟩ := r
  all_goals
    simp only [Option.some.injEq] at hstep
    subst hstep
  · exact Or.inl ⟨T.heap, T.log, T.rids, T.stands⟩
  · left
    refine ⟨T.heap, ?_, ?_, ?_⟩ <;> simp only [after_txs_self]
    · exact T.log
    · have hrids := T.rids
      generalize (s.system.txs tx).call = call at hw hrids ⊢
      cases call <;> first | exact hrids | trivial
    · exact T.stands.refuse hw
  · obtain ⟨hrefused, hmissed, ⟨r, hr⟩ | ⟨honly, hstands⟩⟩ := T.stands.grant hw
    · refine Or.inr ⟨?_, r, ?_⟩
      · rw [hrefused]
        rfl
      · rw [← hr]
        simp
    · obtain ⟨hlogs, _, _, hrids, _⟩ := TableCall.only_read_asks honly hw
      left
      refine ⟨T.heap, ?_, ?_, ?_⟩ <;> simp only [after_txs_self]
      · simp only [if_true, hlogs]
        exact T.log
      · exact hrids _ _ T.rids
      · rw [hrefused, hmissed]
        exact hstands

/-- A call that has not changed anything yet finds the rows as they were. -/
theorem AttemptAt.before {R0 R : Pages} {call : TableCall} {refused : Option TableCall}
    {missed : Bool} (h : AttemptAt R0 call R refused missed)
    (hc : call.only_read = true ∨ ∃ h t, call = .insert h t) :
    R = R0 ∧ refused = none ∧ missed = false := by
  rcases hc with hc | ⟨h', t, rfl⟩
  · cases h with
    | insert | lock_inserted | delete_inserted | deleted_again | left_over | refused | lock_moved
    | moved => cases hc
    | unchanged => exact ⟨rfl, rfl, rfl⟩
  · cases h
    · exact ⟨rfl, rfl, rfl⟩
    · rename_i honly
      cases honly

theorem misses_of_ne (hc : ∀ rid, (s.system.txs tx).call ≠ .delete_inserted rid) :
    misses s.system tx = false := by
  unfold misses
  split
  · rename_i rid hcall
    exact absurd hcall (hc rid)
  · rfl

/-- A step of a call that has not changed anything yet, and that changes nothing. -/
theorem Trying.reads (T : Trying heads tx s0 s) {b : BufferPoolManager} {call : TableCall}
    (hc : (s.system.txs tx).call.only_read = true)
    (R : Ran True heads s.system.heap.outside (fun _ => False) s.system.heap.pool b)
    (hrows : rows heads b = rows heads s.system.heap.pool)
    (hnext : (call.only_read = true ∧ call.Rids heads s.system.heap.pool) ∨ ∃ r, call = .done r) :
    Tried heads tx s0 ⟨s.system.after b tx (s.system.txs tx).undo_log call, s.refused, s.missed⟩ := by
  obtain ⟨hsame, hrefused, hmissed⟩ := T.stands.before (Or.inl hc)
  rcases hnext with ⟨honly, hrids⟩ | ⟨r, rfl⟩
  · refine Or.inl (T.after R (hrids.ran R) ?_)
    rw [hrows, hsame, hrefused, hmissed]
    exact .unchanged honly
  · exact Or.inr ⟨hrefused, r, by rw [after_txs_self]⟩

theorem Trying.inserts (T : Trying heads tx s0 s) {h : PageID} {tuple : List UInt8}
    (hcall : (s.system.txs tx).call = .insert h tuple)
    (hstep : table_step s.system tx expired = some t) :
    Tried heads tx s0 ⟨t, s.refused, s.missed⟩ := by
  obtain ⟨hsame, hrefused, hmissed⟩ := T.stands.before (Or.inr ⟨h, tuple, hcall⟩)
  have hrids := T.rids
  rw [hcall] at hrids
  obtain ⟨b, log, call, rfl, W⟩ := step_insert T.heap hcall (by rw [hcall]; exact hrids) hstep
    fun he => absurd trivial he
  have hmove := W.move
  have hon := W.call_on
  rw [hcall, hsame] at hmove
  cases hmove with
  | inserted htake hrows =>
    refine Or.inl (T.after W.ran hon ?_)
    rw [hrows, hrefused, hmissed]
    exact .lock_inserted htake
  | returned => exact Or.inr ⟨hrefused, _, by rw [after_txs_self]⟩

theorem delete_tuple_no_frame {b : BufferPoolManager} {rid : RID}
    (h : (b.fetch_page rid.page_id).1 = .ok none) : (table_heap.delete_tuple b rid).1 = .ok false := by
  unfold table_heap.delete_tuple with_page
  generalize b.fetch_page rid.page_id = r at h
  obtain ⟨_, b'⟩ := r
  subst h
  rfl

theorem misses_eq {rid : RID} (hcall : (s.system.txs tx).call = .delete_inserted rid) :
    misses s.system tx = true ↔ (s.system.heap.pool.fetch_page rid.page_id).1 = .ok none := by
  unfold misses
  rw [hcall]
  simp only
  split
  · rename_i h
    simp [h]
  · rename_i h
    simpa using h

/-- The delete that follows a refused insert, which misses the page when it gets no frame. -/
theorem Trying.deletes_inserted (T : Trying heads tx s0 s) {rid : RID}
    (hcall : (s.system.txs tx).call = .delete_inserted rid)
    (hstep : table_step s.system tx expired = some t) :
    Tried heads tx s0 ⟨t, s.refused, s.missed || misses s.system tx⟩ := by
  have hrids := T.rids
  have hstands := T.stands
  have hmisses := misses_eq hcall
  rw [hcall] at hrids hstands
  obtain ⟨b, R, hd⟩ := delete_spec T.heap hrids
  have ht : t = s.system.after b tx (s.system.txs tx).undo_log (.done (.ok (.placed none))) := by
    unfold table_step at hstep
    rw [hcall] at hstep
    rcases hd with ⟨hd, _⟩ | ⟨hd, _⟩
    all_goals
      simp only [hd] at hstep
      exact (Option.some.inj hstep).symm
  subst ht
  refine Or.inl (T.after R trivial ?_)
  generalize rows heads s0.heap.pool = R0 at hstands ⊢
  generalize hrows : rows heads s.system.heap.pool = R1 at hstands
  generalize s.missed = missed at hstands ⊢
  generalize s.refused = refused at hstands ⊢
  cases hstands with
  | unchanged honly => cases honly
  | @delete_inserted _ tuple htake =>
    rw [Bool.false_or]
    by_cases hf : (s.system.heap.pool.fetch_page rid.page_id).1 = .ok none
    · have hno := delete_tuple_no_frame hf
      rcases hd with ⟨hd, _⟩ | ⟨_, hsame, _⟩
      · rw [hd] at hno
        cases hno
      · rw [hmisses.mpr hf, hsame, hrows]
        exact .left_over htake
    · have hput : rows heads b = putRow (rows heads s.system.heap.pool) rid none := by
        rcases hd with ⟨_, hput, _⟩ | ⟨_, _, hno | hput⟩
        · exact hput
        · exact absurd hno.2 hf
        · exact hput
      rw [Bool.eq_false_iff.mpr (mt hmisses.mp hf), hput, hrows]
      exact .deleted_again htake

/-- The steps of a delete and of an update up to their change. -/
theorem Trying.reads_old (T : Trying heads tx s0 s) {rid : RID} (found : List UInt8 → TableCall)
    (absent : Except String TableResult) (hc : (s.system.txs tx).call.only_read = true)
    (hrid : RidOn heads s.system.heap.pool rid)
    (hfound : ∀ old, (found old).only_read = true ∧ (found old).Rids heads s.system.heap.pool)
    (hget : ∀ b, (table_heap.get_tuple s.system.heap.pool rid = (.ok none, b) →
        t = s.system.after b tx (s.system.txs tx).undo_log (.done absent)) ∧
      ∀ old, table_heap.get_tuple s.system.heap.pool rid = (.ok (some old), b) →
        t = s.system.after b tx (s.system.txs tx).undo_log (found old)) :
    Tried heads tx s0 ⟨t, s.refused, s.missed⟩ := by
  obtain ⟨b, R, hrows, ⟨old, hg, _⟩ | hg⟩ := get_spec T.heap hrid
  · rw [(hget b).2 old hg]
    exact T.reads hc R hrows (Or.inl (hfound old))
  · rw [(hget b).1 hg]
    exact T.reads hc R hrows (Or.inr ⟨_, rfl⟩)

/-- The change of an update: a tuple that moved has a second lock to ask for. -/
theorem Trying.updates (T : Trying heads tx s0 s) {h : PageID} {rid : RID} {tuple old : List UInt8}
    (hcall : (s.system.txs tx).call = .update h rid tuple old)
    (hstep : table_step s.system tx expired = some t) :
    Tried heads tx s0 ⟨t, s.refused, s.missed⟩ := by
  have hrids := T.rids
  obtain ⟨hsame, hrefused, hmissed⟩ := T.stands.before (Or.inl (by rw [hcall]; rfl))
  rw [hcall] at hrids
  obtain ⟨⟨k, rfl, hk⟩, hrid⟩ := hrids
  obtain ⟨_, slot⟩ := rid
  obtain ⟨n, rfl, hn⟩ := hrid
  unfold table_step at hstep
  rw [hcall] at hstep
  obtain ⟨⟨r, b⟩, hr, rfl⟩ := Option.map_eq_some_iff.mp hstep
  rcases r with e | _ | ret_rid
  · exact Or.inr ⟨hrefused, _, congrArg TableTx.call (after_txs_self ..)⟩
  · exact Or.inr ⟨hrefused, _, congrArg TableTx.call (after_txs_self ..)⟩
  simp only [push_undo_go_on]
  split
  swap
  · exact Or.inr ⟨hrefused, _, by rw [after_txs_self]⟩
  rename_i hne
  by_cases hlong : 8180 < tuple.length
  · exact absurd (HeapState.update_too_long T.heap hn hlong hr) hne
  obtain ⟨R, hup⟩ := T.heap.update_tuple hk hn (by omega) hr fun he => absurd trivial he
  cases hup with
  | in_place => exact absurd rfl hne
  | moved hlive hmid _ hins =>
    cases hins with
    | refused hno => exact absurd rfl (hno ret_rid)
    | @placed m j _ htake hrows =>
      refine Or.inl (T.after R trivial ?_)
      rw [hrefused, hmissed, ← hsame]
      rw [hmid] at htake hrows
      have hplaced : rows heads b = placeRow (putRow (rows heads s.system.heap.pool)
          ⟨some n, slot⟩ none) ⟨some m, j⟩ tuple := hrows
      rw [hplaced]
      exact .lock_moved hne (rowAt_of_tupleOf hlive) ⟨m, rfl, htake⟩

theorem Trying.step (T : Trying heads tx s0 s) (hstep : table_step s.system tx expired = some t) :
    Tried heads tx s0 ⟨t, (refusal s.system tx expired).or s.refused,
      s.missed || misses s.system tx⟩ := by
  rcases hw : (s.system.txs tx).call.wants with _ | x
  swap
  · exact T.asks hw hstep
  rw [refusal_of_wants_none hw, Option.none_or]
  have hrids := T.rids
  have hquiet : (∀ rid, (s.system.txs tx).call ≠ .delete_inserted rid) →
      Tried heads tx s0 ⟨t, s.refused, s.missed⟩ →
      Tried heads tx s0 ⟨t, s.refused, s.missed || misses s.system tx⟩ := by
    intro hc h
    rw [misses_of_ne hc, Bool.or_false]
    exact h
  cases hcall : (s.system.txs tx).call with
  | insert h tuple =>
    apply hquiet (by simp [hcall])
    exact T.inserts hcall hstep
  | delete_inserted rid => exact T.deletes_inserted hcall hstep
  | read_deleted rid =>
    rw [hcall] at hrids
    apply hquiet (by simp [hcall])
    apply T.reads_old (fun old => .delete rid old) (.ok (.deleted false)) (by rw [hcall]; rfl) hrids
      fun old => ⟨rfl, hrids⟩
    intro b
    unfold table_step at hstep
    rw [hcall] at hstep
    constructor
    · intro hg
      simp only [hg] at hstep
      exact (Option.some.inj hstep).symm
    · intro old hg
      simp only [hg] at hstep
      exact (Option.some.inj hstep).symm
  | read_updated h rid tuple =>
    rw [hcall] at hrids
    apply hquiet (by simp [hcall])
    apply T.reads_old (fun old => .update h rid tuple old) (.ok (.placed none))
      (by rw [hcall]; rfl) hrids.2 fun old => ⟨rfl, hrids⟩
    intro b
    unfold table_step at hstep
    rw [hcall] at hstep
    constructor
    · intro hg
      simp only [hg] at hstep
      exact (Option.some.inj hstep).symm
    · intro old hg
      simp only [hg] at hstep
      exact (Option.some.inj hstep).symm
  | delete rid bytes =>
    apply hquiet (by simp [hcall])
    obtain ⟨_, hrefused, _⟩ := T.stands.before (Or.inl (by rw [hcall]; rfl))
    unfold table_step at hstep
    rw [hcall] at hstep
    simp only at hstep
    right
    refine ⟨hrefused, ?_⟩
    split at hstep <;> cases hstep
    · exact ⟨_, congrArg TableTx.call (after_txs_self ..)⟩
    · exact ⟨_, congrArg TableTx.call (after_txs_self ..)⟩
    · exact ⟨_, by rw [push_undo_go_on, after_txs_self]⟩
  | update h rid tuple old =>
    apply hquiet (by simp [hcall])
    exact T.updates hcall hstep
  | done r =>
    unfold table_step at hstep
    rw [hcall] at hstep
    cases hstep
  | lock_inserted | lock_deleted | lock_updated | lock_moved =>
    rw [hcall] at hw
    cases hw
  | ended | lock_read | read | commit | abort | undo =>
    rw [hcall] at hrids
    exact hrids.elim

/-- Another user of the pool changes no row. -/
theorem Trying.same_contents (T : Trying heads tx s0 s) {heap : HeapPool}
    (H : HeapState True heap.outside (fun _ => False) heads heap.pool)
    (hc : contents heap.pool = contents s.system.heap.pool) :
    Trying heads tx s0 { s with system.heap := heap } := by
  have hsucc : succ heap.pool = succ s.system.heap.pool := by
    funext n
    unfold succ
    rw [hc]
  have hrows : rows heads heap.pool = rows heads s.system.heap.pool :=
    rows_congr (fun n => by rw [hsucc]) fun n _ => by rw [hc]
  refine ⟨H, T.log, ?_, ?_⟩
  · have hrids := T.rids
    show TableCall.Rids heads heap.pool (s.system.txs tx).call
    generalize (s.system.txs tx).call = call at hrids ⊢
    unfold TableCall.Rids RidOn at hrids ⊢
    simp only [hsucc]
    exact hrids
  · show AttemptAt _ _ (rows heads heap.pool) _ _
    rw [hrows]
    exact T.stands

theorem trying_start {op : TableOp} (H : HeapState True s0.heap.outside (fun _ => False) heads s0.heap.pool)
    (hop : op.On heads s0.heap.pool) : Trying heads tx s0 { system := s0.begin_call tx op } := by
  refine ⟨H, ?_, ?_, ?_⟩ <;>
    simp only [TableSystem.begin_call, TableSystem.go_on, Function.update_self]
  · cases op with
    | insert_tuple | delete_tuple | update_tuple => exact hop
    | get_tuple | commit | abort => exact hop.elim
  · cases op with
    | insert_tuple => exact .insert
    | delete_tuple | update_tuple => exact .unchanged rfl
    | get_tuple | commit | abort => exact hop.elim

theorem tried_reach {op : TableOp}
    (H : HeapState True s0.heap.outside (fun _ => False) heads s0.heap.pool)
    (hop : op.On heads s0.heap.pool) (hr : (attemptMachine s0 tx op).Reach always s) :
    Tried heads tx s0 s := by
  refine hr.invariant (fun s hs => ?_) fun s e s' I _ hnext => ?_
  · cases hs
    exact Or.inl (trying_start H hop)
  rcases I with T | ⟨hrefused, r, hdone⟩
  · cases e with
    | step expired =>
      obtain ⟨t, hstep, rfl⟩ := Option.map_eq_some_iff.mp hnext
      exact T.step hstep
    | locks locks =>
      cases hnext
      exact Or.inl ⟨T.heap, T.log, T.rids, T.stands⟩
    | fetch n =>
      obtain ⟨_, hn, rfl⟩ := Option.map_eq_some_iff.mp hnext
      obtain ⟨heap, hp, rfl⟩ := Option.map_eq_some_iff.mp hn
      obtain ⟨H', hc⟩ := evict_fetch T.heap hp
      exact Or.inl (T.same_contents H' hc)
    | unpin n =>
      obtain ⟨_, hn, rfl⟩ := Option.map_eq_some_iff.mp hnext
      obtain ⟨heap, hp, rfl⟩ := Option.map_eq_some_iff.mp hn
      obtain ⟨H', hc⟩ := evict_unpin T.heap hp
      exact Or.inl (T.same_contents H' hc)
  · -- the call has returned
    right
    cases e with
    | step expired =>
      obtain ⟨t, hstep, rfl⟩ := Option.map_eq_some_iff.mp hnext
      unfold table_step at hstep
      rw [hdone] at hstep
      cases hstep
    | locks locks =>
      cases hnext
      exact ⟨hrefused, r, hdone⟩
    | fetch n =>
      obtain ⟨_, hn, rfl⟩ := Option.map_eq_some_iff.mp hnext
      obtain ⟨heap, _, rfl⟩ := Option.map_eq_some_iff.mp hn
      exact ⟨hrefused, r, hdone⟩
    | unpin n =>
      obtain ⟨_, hn, rfl⟩ := Option.map_eq_some_iff.mp hnext
      obtain ⟨heap, _, rfl⟩ := Option.map_eq_some_iff.mp hn
      exact ⟨hrefused, r, hdone⟩

/-! ## Refused calls -/

/-- The heaps have the tuples that they had, unless the tuple of a refused insert is left over, or
a tuple that has moved stays where it is. -/
theorem Trying.trace_iff (T : Trying heads tx s0 s) {r : Except String TableResult}
    {request : TableCall} (hdone : (s.system.txs tx).call = .done r)
    (hrefused : s.refused = some request) :
    LeavesNoTrace heads tx s0 s.system ↔ request.first_request = true ∧ s.missed = false := by
  have hstands := T.stands
  have hlog := T.log
  have htrace : ∀ rid, tuplesOf (rows heads s.system.heap.pool) rid ≠
      tuplesOf (rows heads s0.heap.pool) rid → ¬ LeavesNoTrace heads tx s0 s.system := by
    rintro rid hne (hsame | ⟨recs, hrecs, hsame⟩)
    · exact hne (congrFun hsame rid)
    · -- nothing was logged
      rw [hlog, List.self_eq_append_left] at hrecs
      rw [hrecs] at hsame
      exact hne (congrFun hsame rid)
  have hclean : tuplesOf (rows heads s.system.heap.pool) = tuplesOf (rows heads s0.heap.pool) →
      LeavesNoTrace heads tx s0 s.system := Or.inl
  rw [hdone, hrefused] at hstands
  generalize rows heads s0.heap.pool = R0 at *
  generalize rows heads s.system.heap.pool = R at *
  generalize s.missed = missed at *
  cases hstands with
  | deleted_again htake =>
    exact ⟨fun _ => ⟨rfl, rfl⟩, fun _ => hclean (tuplesOf_place_clear htake _)⟩
  | @left_over rid _ _ htake =>
    refine ⟨fun h => absurd h (htrace rid ?_), fun h => by cases h.2⟩
    rw [tuplesOf_placeRow htake, Function.update_self, tuplesOf_mayPlace htake]
    simp
  | refused hfirst => exact ⟨fun _ => ⟨hfirst, rfl⟩, fun _ => hclean rfl⟩
  | @moved rid _ _ _ _ _ hne hold htake =>
    refine ⟨fun h => absurd h (htrace rid ?_), fun h => by cases h.1⟩
    rw [tuplesOf_placeRow htake, Function.update_of_ne hne.symm, tuplesOf_clear,
      Function.update_self]
    unfold tuplesOf
    rw [hold]
    simp

theorem Tried.trying (h : Tried heads tx s0 s) {request : TableCall}
    (hrefused : s.refused = some request) : Trying heads tx s0 s := by
  rcases h with T | ⟨hno, _⟩
  · exact T
  · rw [hno] at hrefused
    cases hrefused

/-- A call that returned after one of its lock requests was refused has left the tuples as they
were, or logged how to bring them back, if and only if the refused request was the first of the
call and the delete that follows a refused insert got a frame. The second request comes from an
update whose tuple has moved by then. -/
theorem a_refused_call_leaves_no_trace_iff {op : TableOp} {r : Except String TableResult}
    {request : TableCall} (H : HeapState True s0.heap.outside (fun _ => False) heads s0.heap.pool)
    (hop : op.On heads s0.heap.pool) (hr : (attemptMachine s0 tx op).Reach always s)
    (hdone : (s.system.txs tx).call = .done r) (hrefused : s.refused = some request) :
    LeavesNoTrace heads tx s0 s.system ↔ request.first_request = true ∧ s.missed = false :=
  ((tried_reach H hop hr).trying hrefused).trace_iff hdone hrefused

theorem attempt_step {op : TableOp} (expired : Bool) (hr : (attemptMachine s0 tx op).Reach always s)
    (hstep : table_step s.system tx expired = some t) :
    (attemptMachine s0 tx op).Reach always ⟨t, (refusal s.system tx expired).or s.refused,
      s.missed || misses s.system tx⟩ := by
  apply hr.step (e := .step expired) trivial
  simp only [attemptMachine, hstep, Option.map_some]

/-- A transaction that may not lock any more is refused. -/
theorem attempt_refused {op : TableOp} {rid : RID} {call : TableCall}
    (hr : (attemptMachine s0 tx op).Reach always s) (hcall : (s.system.txs tx).call = call)
    (hw : call.wants = some (rid, .EXCLUSIVE)) (hwaits : s.system.locks.waits tx = none)
    (hstate : (s.system.locks.txs tx).state ≠ .GROWING) :
    (attemptMachine s0 tx op).Reach always ⟨s.system.after s.system.heap.pool tx
      (s.system.txs tx).undo_log call.refused, some call, s.missed⟩ := by
  subst hcall
  have hlock : lockCall s.system.locks tx rid .EXCLUSIVE false = (s.system.locks, some false) := by
    unfold lockCall wake lock_exclusive
    rw [hwaits]
    simp only [Option.map_none]
    rw [if_pos hstate]
  have hstep : table_step s.system tx false = _ := table_step_lock hw
  rw [lock_eq, hlock] at hstep
  have hr' := attempt_step false hr hstep
  have hrefusal : refusal s.system tx false = some (s.system.txs tx).call := by
    unfold refusal
    rw [hw]
    simp only
    rw [hlock]
    rfl
  rw [hrefusal, misses_of_wants hw, Bool.or_false] at hr'
  exact hr'

end

/-- Every transaction is aborted, and holds no lock. -/
def aborted : LockSystem := ⟨fun _ => [], fun _ => { state := .ABORTED }, fun _ => none⟩

/-- A new heap, and transactions that may not lock any more. -/
def table_of_aborted : TableSystem := ⟨⟨(create (empty_pool 2)).2, fun _ => 0⟩, aborted, fun _ => {}⟩

/-- Whether the insert of transaction 0 has ended after the lock of its tuple was refused. -/
def Attempt.refused_insert (s : Attempt) (rid : RID) : Bool :=
  match (s.system.txs 0).call, s.refused with
  | .done _, some (.lock_inserted inserted) => inserted == rid
  | _, _ => false

theorem Attempt.refused_insert_iff {s : Attempt} {rid : RID} : s.refused_insert rid = true ↔
    (∃ r, (s.system.txs 0).call = .done r) ∧ s.refused = some (.lock_inserted rid) := by
  unfold Attempt.refused_insert
  split
  · rename_i r inserted hcall hrefused
    simp [hcall, hrefused]
  · rename_i hother
    refine iff_of_false (by decide) ?_
    rintro ⟨⟨r, hcall⟩, hrefused⟩
    exact hother r rid hcall hrefused

/-- An insert that is refused the lock of the tuple it has placed, and that a page was brought in
beside, takes the tuple back. -/
theorem a_refused_insert_leaves_no_trace :
    ∃ (s : Attempt) (r : Except String TableResult),
      (attemptMachine table_of_aborted 0 (.insert_tuple (some 1) [7])).Reach always s ∧
      (s.system.txs 0).call = .done r ∧ s.refused = some (.lock_inserted ⟨some 1, 0⟩) ∧
      LeavesNoTrace (· = 1) 0 table_of_aborted s.system := by
  obtain ⟨s, hrun, hp⟩ := Machine.run_of_exec_check
    (m := attemptMachine table_of_aborted 0 (.insert_tuple (some 1) [7]))
    (s := { system := table_of_aborted.begin_call 0 (.insert_tuple (some 1) [7]) })
    (l := [.step false, .fetch 0, .step false, .unpin 0, .step false])
    (p := fun s => s.refused_insert ⟨some 1, 0⟩ && !s.missed) (by decide +kernel)
  have hr := Machine.Reach.run (.start rfl) hrun
  rw [Bool.and_eq_true, Bool.not_eq_true', Attempt.refused_insert_iff] at hp
  obtain ⟨⟨⟨r, hcall⟩, hrefused⟩, hmissed⟩ := hp
  have H := (new_heap_state (k := 2) rfl).1
  have hop : TableOp.On (· = 1) table_of_aborted.heap.pool (.insert_tuple (some 1) [7]) :=
    ⟨1, rfl, rfl⟩
  exact ⟨s, r, hr, hcall, hrefused,
    (a_refused_call_leaves_no_trace_iff H hop hr hcall hrefused).mpr ⟨rfl, hmissed⟩⟩

/-- A heap of one page with the tuples `[7]` and `[8]`. -/
theorem heap_of_two_tuples : ∃ b, Unshared (· = 1) b ∧ OnPath (succ b) 1 1 ∧
    rows (· = 1) b 1 = [some [7], some [8]] := by
  obtain ⟨H, hempty⟩ := new_heap_state (k := 2) rfl
  have U : Unshared (· = 1) (create (empty_pool 2)).2 := ⟨H, Nat.le_refl 2⟩
  obtain ⟨m, j, b1, hins, R, _, _, hrows⟩ := U.inserted (h := 1) (t := [7]) rfl (by decide)
  obtain ⟨m', j', b2, hins', R', hon, _, hrows'⟩ :=
    (U.ran R).inserted (h := 1) (t := [8]) rfl (by decide)
  have hplace : (insert_tuple (create (empty_pool 2)).2 (some 1) [7]).bind (fun r =>
      (insert_tuple r.2 (some 1) [8]).map fun r' => (r.1.toOption, r'.1.toOption)) =
      some (some (some ⟨some 1, 0⟩), some (some ⟨some 1, 1⟩)) := by decide +kernel
  rw [hins, Option.bind_some, hins'] at hplace
  simp only [Option.map_some, Except.toOption, Option.some.injEq, Prod.mk.injEq,
    RID.mk.injEq] at hplace
  obtain ⟨⟨rfl, rfl⟩, rfl, rfl⟩ := hplace
  refine ⟨b2, (U.ran R).ran R', hon, ?_⟩
  rw [hrows', Function.update_self, hrows, Function.update_self, hempty]
  rfl

section
variable {b : BufferPoolManager}

/-- The page has no room for 8176 bytes in the place of `[7]`. -/
theorem full_page {b' : BufferPoolManager} {t : List UInt8} (U : Unshared (· = 1) b')
    (hon : OnPath (succ b') 1 1) (ht : t.length = 8176)
    (hrows : rows (· = 1) b' 1 = [some t, some [8]]) : False := by
  have hused := used_rows_le U.heap ⟨1, rfl, hon⟩
  rw [hrows] at hused
  simp [usedBytes, liveBytes, rowSize, ht, sizeofPageHeader, sizeofSlot, kPAGE_SIZE] at hused

theorem moves_from_full_page {t : List UInt8} (U : Unshared (· = 1) b) (hon : OnPath (succ b) 1 1)
    (hsize : t.length = 8176) (hrows : rows (· = 1) b 1 = [some [7], some [8]]) :
    ∃ ret b', update_tuple b (some 1) ⟨some 1, 0⟩ t = some (.ok (some ret), b') ∧
      ret ≠ ⟨some 1, 0⟩ := by
  have hlive : (table_heap.get_tuple b ⟨some 1, 0⟩).1 = .ok (some [7]) := by
    rw [U.get_tuple ⟨1, rfl, hon⟩, hrows]
    rfl
  have hfit : ¬ fits_on_page (view b 1) 0 (t.length % 65536) = true := by
    intro hfit
    obtain ⟨b', _, R, hafter⟩ := U.update_fits (h := 1) ⟨1, rfl, hon⟩ hlive hfit
    refine full_page (U.ran R) (R.onPath 1 rfl 1 hon) hsize ?_
    rw [hafter (by omega), Function.update_self, hrows]
    rfl
  obtain ⟨b1, _, hrows1, hcase⟩ := U.update_moves (h := 1) rfl ⟨1, rfl, hon⟩ hlive hfit
  rw [if_pos (by omega)] at hcase
  obtain ⟨m, j, b', hup, R, _, _, hrows'⟩ := hcase
  refine ⟨_, b', hup, ?_⟩
  rintro hsame
  simp only [RID.mk.injEq, Option.some.injEq] at hsame
  obtain ⟨rfl, rfl⟩ := hsame
  refine full_page (U.ran R) (R.onPath 1 rfl 1 hon) hsize ?_
  rw [hrows', Function.update_self, hrows1, Function.update_self, hrows]
  rfl

end

/-- A tuple moves to a new page, and the lock of its new RID is refused. -/
theorem an_update_that_moved_leaves_a_trace :
    ¬ ∀ (heads : Nat → Prop) (tx : TransactionID) (s0 : TableSystem) (op : TableOp) (s : Attempt)
      (r : Except String TableResult) (request : TableCall),
      HeapState True s0.heap.outside (fun _ => False) heads s0.heap.pool →
      op.On heads s0.heap.pool → (attemptMachine s0 tx op).Reach always s →
      (s.system.txs tx).call = .done r → s.refused = some request →
      LeavesNoTrace heads tx s0 s.system := by
  intro hall
  obtain ⟨b, U, hon, hrows⟩ := heap_of_two_tuples
  have hsize : (List.replicate 8176 (0 : UInt8)).length = 8176 := List.length_replicate
  generalize List.replicate 8176 (0 : UInt8) = tuple at hsize
  -- the transaction has locked the RID that it updates
  let locked : LockSystem :=
    ⟨fun _ => [], fun _ => { exclusive_locks := [⟨some 1, 0⟩] }, fun _ => none⟩
  let s0 : TableSystem := ⟨⟨b, fun _ => 0⟩, locked, fun _ => {}⟩
  let op : TableOp := .update_tuple (some 1) ⟨some 1, 0⟩ tuple
  have hop : op.On (· = 1) s0.heap.pool := ⟨⟨1, rfl, rfl⟩, 1, rfl, 1, rfl, hon⟩
  have hr0 : (attemptMachine s0 0 op).Reach always { system := s0.begin_call 0 op } := .start rfl
  let s1 := (s0.begin_call 0 op).after b 0 [] (.read_updated (some 1) ⟨some 1, 0⟩ tuple)
  have hr1 : (attemptMachine s0 0 op).Reach always ⟨s1, none, false⟩ :=
    attempt_step false hr0 rfl
  obtain ⟨b1, R, hrows1, ⟨old, hget, _⟩ | hget⟩ :=
    get_spec U.heap (show RidOn (· = 1) b ⟨some 1, 0⟩ from ⟨1, rfl, 1, rfl, hon⟩)
  swap
  · have hlive := U.get_tuple ⟨1, rfl, hon⟩ 0
    rw [hget, hrows] at hlive
    cases hlive
  let s2 := s1.after b1 0 [] (.update (some 1) ⟨some 1, 0⟩ tuple old)
  have hr2 : (attemptMachine s0 0 op).Reach always ⟨s2, none, false⟩ := by
    refine attempt_step (t := s2) false hr1 ?_
    have hcall : (s1.txs 0).call = .read_updated (some 1) ⟨some 1, 0⟩ tuple := rfl
    have hpool : s1.heap.pool = b := rfl
    unfold table_step
    simp only [hcall, hpool, hget]
    rfl
  obtain ⟨ret, b2, hup, hne⟩ := moves_from_full_page (U.ran R) (R.onPath 1 rfl 1 hon) hsize
    (by rw [hrows1, hrows])
  let s3 := s2.after b2 0 [] (.lock_moved ⟨some 1, 0⟩ old ret)
  have hr3 : (attemptMachine s0 0 op).Reach always ⟨s3, none, false⟩ := by
    refine attempt_step (t := s3) false hr2 ?_
    have hcall : (s2.txs 0).call = .update (some 1) ⟨some 1, 0⟩ tuple old := rfl
    have hpool : s2.heap.pool = b1 := rfl
    unfold table_step
    simp only [hcall, hpool, hup, Option.map_some]
    rw [if_pos hne]
    rfl
  have hr4 : (attemptMachine s0 0 op).Reach always ⟨{ s3 with locks := aborted }, none, false⟩ :=
    .step hr3 (e := .locks aborted) trivial rfl
  have hcall4 : (s3.txs 0).call = .lock_moved ⟨some 1, 0⟩ old ret := rfl
  have hr5 := attempt_refused hr4 hcall4 rfl rfl
    (show TransactionState.ABORTED ≠ .GROWING by decide)
  have hclean := hall (· = 1) 0 s0 op _ _ _ U.heap hop hr5 rfl rfl
  have hfirst := ((((tried_reach U.heap hop hr5).trying rfl).trace_iff rfl rfl).mp hclean).1
  cases hfirst

end duck.table
