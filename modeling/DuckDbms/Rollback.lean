-- The rollback of a transaction that runs alone. Its undo log is an exact
-- inverse of its calls but for one thing: the slot directory of a page grows
-- and never shrinks, and a tuple that goes back needs room next to it.
import DuckDbms.TableLaws

open machine duck.slotted_page duck.disk_manager duck.buffer_pool duck.lock_manager duck.table_heap
open chain

namespace duck.table

/-! ## Pages with longer directories -/

/-- The pages with free slots added up to `L n` slots on page `n`. -/
def pad (L : Nat → Nat) (R : Pages) : Pages := fun n => R n ++ List.replicate (L n - (R n).length) none

section
variable {L : Nat → Nat} {R R' : Pages} {rid : RID} {r : Row}

theorem pad_self (R : Pages) : pad (fun n => (R n).length) R = R := by
  funext n
  simp [pad]

theorem tupleOf_pad (L : Nat → Nat) (R : Pages) (n slot : Nat) :
    tupleOf (pad L R n) slot = tupleOf (R n) slot := by
  unfold tupleOf pad
  rw [List.getElem?_append]
  split
  · rfl
  · rename_i hge
    rw [List.getElem?_eq_none (l := R n) (by omega), List.getElem?_replicate]
    split <;> rfl

theorem rowAt_pad (h : rowAt R rid = some r) : rowAt (pad L R) rid = some r := by
  obtain ⟨_ | n, slot⟩ := rid
  · cases h
  · have hlt : slot < (R n).length := (List.getElem?_eq_some_iff.mp h).1
    show (R n ++ _)[slot]? = some r
    rw [List.getElem?_append_left hlt]
    exact h

theorem pad_putRow (h : rowAt R rid ≠ none) (r : Row) :
    pad L (putRow R rid r) = putRow (pad L R) rid r := by
  obtain ⟨_ | n, slot⟩ := rid
  · rfl
  have hlt : slot < (R n).length := by
    by_contra hge
    exact h (List.getElem?_eq_none (Nat.le_of_not_lt hge))
  funext m
  unfold pad putRow
  by_cases hm : m = n
  · subst hm
    simp only [Function.update_self, List.length_set]
    rw [List.set_append_left _ _ hlt]
  · simp only [Function.update_of_ne hm]

/-- A tuple that was placed leaves, and its slot stays. -/
theorem clear_placed (h : MayPlace R rid) {t : List UInt8}
    (hL : ∀ n, (placeRow R rid t n).length ≤ L n) :
    putRow (pad L (placeRow R rid t)) rid none = pad L R := by
  obtain ⟨_, slot⟩ := rid
  obtain ⟨n, rfl, hfree | ⟨hslot, _⟩⟩ := h
  · have hrow : rowAt R ⟨some n, slot⟩ = some none := hfree
    rw [placeRow_of_free hrow, pad_putRow (by rw [hrow]; simp), putRow_putRow,
      putRow_eq (Or.inl (rowAt_pad hrow))]
  · simp only at hslot
    subst hslot
    have hn := hL n
    simp only [placeRow, place, Nat.lt_irrefl, if_false, Function.update_self, List.length_append,
      List.length_singleton] at hn
    funext m
    by_cases hm : m = n
    · subst hm
      simp only [putRow, placeRow, place, pad, Nat.lt_irrefl, if_false, Function.update_self,
        List.length_append, List.length_singleton]
      rw [List.append_assoc, List.set_append_right _ _ (Nat.le_refl _), Nat.sub_self,
        List.singleton_append, List.set_cons_zero, ← List.replicate_succ]
      congr 2
      omega
    · simp [putRow, placeRow, pad, Function.update_of_ne hm]

/-- The bytes that are used on a page with a longer directory. -/
theorem usedOn_pad {n : Nat} (slot : Nat) (hL : (R n).length ≤ L n) : usedOn (pad L R) ⟨some n, slot⟩ =
    sizeofPageHeader + L n * sizeofSlot + liveBytes (R n) := by
  have hlive : liveBytes (List.replicate (L n - (R n).length) (none : Row)) = 0 := by
    simp [liveBytes, rowSize]
  have happ : liveBytes (R n ++ List.replicate (L n - (R n).length) none) =
      liveBytes (R n) + liveBytes (List.replicate (L n - (R n).length) (none : Row)) := by
    simp [liveBytes]
  simp only [usedOn, Option.map_some, Option.getD_some, pad, usedBytes]
  rw [happ, hlive, List.length_append, List.length_replicate]
  congr 3
  omega

/-! ## One call and its records -/

/-- What a call that returned success did to the rows, and the records that it logged. The
first argument is the RID that it took a tuple from. -/
inductive Logged (R : Pages) : Option RID → Pages → List UndoRecord → Prop
  | inserted {rid : RID} {t : List UInt8} : MayPlace R rid →
      Logged R none (placeRow R rid t) [.DeleteUndoRecord rid]
  | deleted {rid : RID} {old : List UInt8} : rowAt R rid = some (some old) →
      Logged R (some rid) (putRow R rid none) [.RestoreUndoRecord rid old]
  | updated {rid : RID} {old t : List UInt8} : rowAt R rid = some (some old) →
      Logged R (some rid) (putRow R rid (some t)) [.DeleteUndoRecord rid, .RestoreUndoRecord rid old]
  | moved {rid ret_rid : RID} {old t : List UInt8} : rowAt R rid = some (some old) →
      MayPlace (putRow R rid none) ret_rid →
      Logged R (some rid) (placeRow (putRow R rid none) ret_rid t)
        [.DeleteUndoRecord ret_rid, .RestoreUndoRecord rid old]

theorem fits_append {l l' : List UndoRecord} :
    Fits (l ++ l') R ↔ Fits l R ∧ Fits l' (l.foldl undoRow R) := by
  induction l generalizing R with
  | nil => simp [Fits]
  | cons u l ih =>
    cases u with
    | DeleteUndoRecord rid => exact ih
    | RestoreUndoRecord rid t => simp only [List.cons_append, Fits, ih, and_assoc]; rfl

/-- A tuple that was taken out goes back, if its page has room for all that it held. -/
theorem undo_taken {old : List UInt8} (h : rowAt R rid = some (some old)) :
    putRow (putRow (pad L R) rid none) rid (some old) = pad L R ∧
      (Restorable (putRow (pad L R) rid none) rid old ↔ usedOn (pad L R) rid ≤ kPAGE_SIZE) := by
  have hrow := rowAt_pad (L := L) h
  have hused := usedOn_putRow hrow none
  refine ⟨by rw [putRow_putRow, putRow_eq (Or.inl hrow)], ?_⟩
  unfold Restorable
  rw [rowAt_putRow_self hrow]
  simp only [rowSize, Nat.add_zero] at hused
  rw [hused]
  simp

/-- The records of a call undo it, if the page that it took a tuple from has room for it. -/
theorem Logged.undo {o : Option RID} {recs : List UndoRecord} (h : Logged R o R' recs)
    (hL : ∀ n, (R' n).length ≤ L n) :
    recs.foldl undoRow (pad L R') = pad L R ∧
      (Fits recs (pad L R') ↔ ∀ rid, o = some rid → usedOn (pad L R) rid ≤ kPAGE_SIZE) := by
  cases h with
  | inserted hplace =>
    refine ⟨clear_placed hplace hL, ?_⟩
    simp [Fits]
  | @deleted rid old hlive =>
    obtain ⟨h1, h2⟩ := undo_taken (L := L) hlive
    rw [pad_putRow (by rw [hlive]; simp)]
    refine ⟨h1, ?_⟩
    simp [Fits, h2]
  | @updated rid old t hlive =>
    obtain ⟨h1, h2⟩ := undo_taken (L := L) hlive
    rw [pad_putRow (by rw [hlive]; simp)]
    simp only [List.foldl_cons, List.foldl_nil, undoRow, Fits, putRow_putRow _ _ (some t) none]
    refine ⟨h1, ?_⟩
    simp [h2]
  | @moved rid ret_rid old t hlive hplace =>
    obtain ⟨h1, h2⟩ := undo_taken (L := L) hlive
    have hmid := clear_placed hplace hL
    rw [pad_putRow (by rw [hlive]; simp)] at hmid
    simp only [List.foldl_cons, List.foldl_nil, undoRow, Fits, hmid]
    refine ⟨h1, ?_⟩
    simp [h2]

/-- What a call logs finds its slots free, and leaves those of the log below free. -/
theorem Logged.frees {o : Option RID} {recs log : List UndoRecord} (h : Logged R o R' recs)
    (hlog : Frees log R) : Frees (recs ++ log) R' := by
  have hundo := (h.undo fun n => Nat.le_refl (R' n).length).1
  rw [pad_self] at hundo
  have hbelow : Frees log (recs.foldl undoRow R') := by
    rw [hundo]
    exact hlog.mono fun u _ r hr => ⟨r, rowAt_pad hr, id⟩
  cases h with
  | inserted hplace => exact hbelow
  | deleted hlive => exact ⟨rowAt_putRow_self hlive, hbelow⟩
  | @updated rid old t hlive =>
    refine ⟨?_, hbelow⟩
    rw [putRow_putRow]
    exact rowAt_putRow_self hlive
  | @moved rid ret_rid old t hlive hplace =>
    refine ⟨?_, hbelow⟩
    have hclear := clear_placed hplace (t := t) fun n => Nat.le_refl _
    rw [pad_self] at hclear
    rw [hclear]
    exact rowAt_pad (rowAt_putRow_self hlive)

/-- No call makes a directory shorter. -/
theorem Logged.length_le {o : Option RID} {recs : List UndoRecord} (h : Logged R o R' recs)
    (n : Nat) : (R n).length ≤ (R' n).length := by
  have hput : ∀ (R : Pages) (rid : RID) (r : Row), (putRow R rid r n).length = (R n).length := by
    intro R rid r
    obtain ⟨_ | m, slot⟩ := rid
    · rfl
    · by_cases hn : n = m
      · subst hn
        simp [putRow]
      · simp [putRow, Function.update_of_ne hn]
  have hplace : ∀ (R : Pages) (rid : RID) (t : List UInt8),
      (R n).length ≤ (placeRow R rid t n).length := by
    intro R rid t
    obtain ⟨_ | m, slot⟩ := rid
    · exact Nat.le_refl _
    · by_cases hn : n = m
      · subst hn
        simp only [placeRow, Function.update_self, place]
        split <;> simp
      · simp [placeRow, Function.update_of_ne hn]
  cases h with
  | inserted => exact hplace _ _ _
  | deleted => exact Nat.le_of_eq (hput _ _ _).symm
  | updated => exact Nat.le_of_eq (hput _ _ _).symm
  | moved => exact Nat.le_trans (Nat.le_of_eq (hput _ _ _).symm) (hplace _ _ _)

end

/-! ## A transaction that runs alone -/

/-- All the lock requests are those of one transaction, which is growing and does not wait. -/
structure LocksAlone (s : LockSystem) (tx : TransactionID) : Prop where
  requests : ∀ rid, ∀ r ∈ s.lock_table rid, r.tx_id = tx
  growing : (s.txs tx).state = .GROWING
  awake : s.waits tx = none

/-- A transaction that runs alone gets every lock at once. -/
theorem LocksAlone.request_lock {s : LockSystem} {tx : TransactionID} (A : LocksAlone s tx)
    (rid : RID) (mode : LockMode) (up : Bool) :
    ∃ s', lock_manager.request_lock s tx rid mode up = (s', some true) ∧ LocksAlone s' tx := by
  have hown : ∀ r ∈ (enqueue s tx rid mode up).lock_table rid, r.tx_id = tx := by
    intro r hr
    simp only [enqueue, LockSystem.set_queue, LockSystem.set_wait, Function.update_self,
      List.mem_append, List.mem_singleton] at hr
    rcases hr with hr | rfl
    · exact A.requests rid r hr
    · rfl
  have hgrant : can_grant ((enqueue s tx rid mode up).lock_table rid) ⟨tx, mode, false⟩ = true := by
    rw [can_grant_iff]
    intro r hr _ hne
    exact absurd (hown r hr) hne
  unfold lock_manager.request_lock
  simp only [hgrant, if_true]
  refine ⟨_, rfl, ?_, ?_, ?_⟩
  · intro rid' r hr
    rw [grant_queue] at hr
    split at hr
    · obtain ⟨q, hq, rfl⟩ := List.mem_map.mp hr
      have := hown q hq
      split <;> exact this
    · rename_i hne
      simp only [enqueue, LockSystem.set_queue, LockSystem.set_wait,
        Function.update_of_ne hne] at hr
      exact A.requests rid' r hr
  · cases mode <;>
      · simp only [grant, LockSystem.set_wait, LockSystem.set_tx, Function.update_self]
        exact A.growing
  · cases mode <;> simp [grant, LockSystem.set_wait]

theorem LocksAlone.lock_exclusive {s : LockSystem} {tx : TransactionID} (A : LocksAlone s tx)
    (rid : RID) : ∃ s', lock_manager.lock_exclusive s tx rid = (s', some true) ∧ LocksAlone s' tx := by
  unfold lock_manager.lock_exclusive
  rw [if_neg (by rw [A.growing]; simp)]
  split
  · exact ⟨s, rfl, A⟩
  split
  · apply LocksAlone.request_lock
    refine ⟨?_, ?_, A.awake⟩
    · intro rid' r hr
      simp only [release_shared, LockSystem.set_queue, LockSystem.set_tx] at hr
      by_cases hne : rid' = rid
      · subst hne
        rw [Function.update_self] at hr
        exact A.requests rid' r (List.mem_filter.mp hr).1
      · rw [Function.update_of_ne hne] at hr
        exact A.requests rid' r hr
    · simp only [release_shared, LockSystem.set_tx, Function.update_self]
      exact A.growing
  · exact A.request_lock rid .EXCLUSIVE false

theorem LocksAlone.lock_shared {s : LockSystem} {tx : TransactionID} (A : LocksAlone s tx)
    (rid : RID) : ∃ s', lock_manager.lock_shared s tx rid = (s', some true) ∧ LocksAlone s' tx := by
  unfold lock_manager.lock_shared
  rw [if_neg (by rw [A.growing]; simp)]
  split
  · exact ⟨s, rfl, A⟩
  · exact A.request_lock rid .SHARED false

/-- The calls of one transaction, each of which runs to its end and returns success. -/
def opMachine (tx : TransactionID) : Machine TableSystem TableOp where
  start _ := True
  next s op := (run_call 8 (s.begin_call tx op) tx).filter fun t =>
    match (t.txs tx).call with
    | .done (.ok res) => res.changed
    | _ => false

/-- Between the steps of a call: what it has done so far to the rows `R` and to the log, from
the rows `R0` and the log `log0` that it started with. The call takes a tuple from `o`. -/
inductive Midway (o : Option RID) (R0 : Pages) (log0 : List UndoRecord) :
    TableCall → Pages → List UndoRecord → Prop
  | insert {h : PageID} {t : List UInt8} : o = none → Midway o R0 log0 (.insert h t) R0 log0
  | lock_inserted {rid : RID} {t : List UInt8} : o = none → MayPlace R0 rid →
      Midway o R0 log0 (.lock_inserted rid) (placeRow R0 rid t) log0
  | lock_deleted {rid : RID} : o = some rid → Midway o R0 log0 (.lock_deleted rid) R0 log0
  | read_deleted {rid : RID} : o = some rid → Midway o R0 log0 (.read_deleted rid) R0 log0
  | delete {rid : RID} {old : List UInt8} : o = some rid → rowAt R0 rid = some (some old) →
      Midway o R0 log0 (.delete rid old) R0 log0
  | lock_updated {h : PageID} {rid : RID} {t : List UInt8} : o = some rid →
      Midway o R0 log0 (.lock_updated h rid t) R0 log0
  | read_updated {h : PageID} {rid : RID} {t : List UInt8} : o = some rid →
      Midway o R0 log0 (.read_updated h rid t) R0 log0
  | update {h : PageID} {rid : RID} {t old : List UInt8} : o = some rid →
      rowAt R0 rid = some (some old) → Midway o R0 log0 (.update h rid t old) R0 log0
  | lock_moved {rid ret_rid : RID} {t old : List UInt8} : o = some rid →
      rowAt R0 rid = some (some old) → MayPlace (putRow R0 rid none) ret_rid →
      Midway o R0 log0 (.lock_moved rid old ret_rid)
        (placeRow (putRow R0 rid none) ret_rid t) log0
  | refused {r : Except String TableResult} {R : Pages} {log : List UndoRecord} : Refused r →
      Midway o R0 log0 (.done r) R log
  | logged {r : Except String TableResult} {R : Pages} {recs : List UndoRecord} :
      Logged R0 o R recs → Midway o R0 log0 (.done r) R (recs ++ log0)

theorem Midway.of_logged {o : Option RID} {R0 R : Pages} {log0 recs log : List UndoRecord}
    {r : Except String TableResult} (h : Logged R0 o R recs) (hlog : log = recs ++ log0 := by rfl) :
    Midway o R0 log0 (.done r) R log := by
  rw [hlog]
  exact .logged h

/-- A call on the heaps of a pool that has a frame for every page, and that nobody else uses. -/
structure Roomy (heads : Nat → Prop) (frames : Nat) (tx : TransactionID) (s : TableSystem) :
    Prop where
  heap : HeapState False s.heap.outside (fun _ => False) heads s.heap.pool
  idle : ∀ n, s.heap.outside n = 0
  frames : s.heap.pool.pool_capacity = frames
  call_on : (s.txs tx).call.On heads s.heap.pool

/-- A transaction that runs alone. -/
structure RunsAlone (heads : Nat → Prop) (frames : Nat) (tx : TransactionID) (s : TableSystem) :
    Prop extends Roomy heads frames tx s where
  locks : LocksAlone s.locks tx
  log_on : ∀ u ∈ (s.txs tx).undo_log, u.On heads s.heap.pool

section
variable {heads : Nat → Prop} {frames : Nat} {tx : TransactionID} {s t : TableSystem}

theorem lock_alone (A : LocksAlone s.locks tx) (rid : RID) (mode : LockMode) :
    ∃ locks, LocksAlone locks tx ∧ ∀ answered : Bool → TableSystem → TableSystem,
      s.lock tx rid mode false answered = answered true { s with locks } := by
  have hwake : wake s.locks tx false = none := by
    unfold wake
    rw [A.awake]
    rfl
  cases mode with
  | SHARED =>
    obtain ⟨locks, hlock, A'⟩ := A.lock_shared rid
    refine ⟨locks, A', fun answered => ?_⟩
    unfold TableSystem.lock
    simp only [hwake, hlock]
  | EXCLUSIVE =>
    obtain ⟨locks, hlock, A'⟩ := A.lock_exclusive rid
    refine ⟨locks, A', fun answered => ?_⟩
    unfold TableSystem.lock
    simp only [hwake, hlock]

theorem Roomy.worked (A : Roomy heads frames tx s) {b : BufferPoolManager}
    {log : List UndoRecord} {call : TableCall} (W : Worked False heads s tx b log call) :
    Roomy heads frames tx (s.after b tx log call) where
  heap := W.ran.heap
  idle := A.idle
  frames := W.ran.capacity.trans A.frames
  call_on := by
    simp only [TableSystem.after, Function.update_self]
    exact W.call_on

theorem RunsAlone.worked (A : RunsAlone heads frames tx s) {b : BufferPoolManager}
    {log : List UndoRecord} {call : TableCall} (W : Worked False heads s tx b log call) :
    RunsAlone heads frames tx (s.after b tx log call) where
  toRoomy := A.toRoomy.worked W
  locks := A.locks
  log_on := by
    simp only [TableSystem.after, Function.update_self]
    exact W.log_on A.log_on

end

/-- A call that is under way, and that no other transaction disturbs. It started at `s0`. -/
structure Undisturbed (heads : Nat → Prop) (frames : Nat) (tx : TransactionID) (o : Option RID)
    (s0 s : TableSystem) : Prop where
  alone : RunsAlone heads frames tx s
  midway : Midway o (rows heads s0.heap.pool) (s0.txs tx).undo_log (s.txs tx).call
    (rows heads s.heap.pool) (s.txs tx).undo_log
  chains : ∀ n, OnChain (succ s0.heap.pool) heads n → OnChain (succ s.heap.pool) heads n

section
variable {heads : Nat → Prop} {frames : Nat} {tx : TransactionID} {s t s0 : TableSystem}
  {o : Option RID}

/-- The end of a heap call. -/
theorem Undisturbed.worked (U : Undisturbed heads frames tx o s0 s)
    (h : ∃ b log call, t = s.after b tx log call ∧ Worked False heads s tx b log call)
    (hmid : ∀ (R' : Pages) (log : List UndoRecord) (call : TableCall),
      TableMove (AllPinned s.heap.pool) (rows heads s.heap.pool) R' (s.txs tx).undo_log
        (s.txs tx).call call log →
      Midway o (rows heads s0.heap.pool) (s0.txs tx).undo_log call R' log) :
    Undisturbed heads frames tx o s0 t := by
  obtain ⟨b, log, call, rfl, W⟩ := h
  refine ⟨U.alone.worked W, ?_, fun n hn => W.ran.onChain (U.chains n hn)⟩
  simp only [TableSystem.after, Function.update_self]
  exact hmid _ _ _ W.move

/-- A lock call gets its lock at once. -/
theorem Undisturbed.locked (U : Undisturbed heads frames tx o s0 s) {rid : RID}
    (hw : (s.txs tx).call.wants = some (rid, .EXCLUSIVE))
    (hstep : table_step s tx false = some t)
    (hcall : (s.txs tx).call.granted.On heads s.heap.pool)
    (hlog : ∀ u ∈ (s.txs tx).call.logs, u.On heads s.heap.pool)
    (hmid : Midway o (rows heads s0.heap.pool) (s0.txs tx).undo_log (s.txs tx).call.granted
      (rows heads s.heap.pool) ((s.txs tx).call.logs ++ (s.txs tx).undo_log)) :
    Undisturbed heads frames tx o s0 t := by
  have A := U.alone
  obtain ⟨locks, A', hlock⟩ := lock_alone A.locks rid .EXCLUSIVE
  rw [table_step_lock hw, hlock] at hstep
  cases hstep
  refine ⟨⟨⟨A.heap, A.idle, A.frames, ?_⟩, A', ?_⟩, ?_, U.chains⟩ <;>
    simp only [TableSystem.after, Function.update_self, if_true]
  · exact hcall
  · intro u hu
    rcases List.mem_append.mp hu with hu | hu
    · exact hlog u hu
    · exact A.log_on u hu
  · exact hmid

/-- Every step takes the call further. -/
theorem undisturbed_step (U : Undisturbed heads frames tx o s0 s)
    (hstep : table_step s tx false = some t)
    (hroom : t.heap.pool.disk_manager.capacity ≤ frames) :
    Undisturbed heads frames tx o s0 t := by
  have A := U.alone
  have M := U.midway
  have hfits : ¬ False → t.heap.pool.disk_manager.capacity ≤ s.heap.pool.pool_capacity := by
    intro _
    rw [A.frames]
    exact hroom
  have hon := A.call_on
  generalize hcall : (s.txs tx).call = c at M hon
  generalize hR : rows heads s.heap.pool = R at M
  generalize hl : (s.txs tx).undo_log = log at M
  cases M with
  | insert ho =>
    refine U.worked (step_insert A.heap hcall A.call_on hstep hfits) fun R' log call M => ?_
    rw [hcall, hR, hl] at M
    cases M with
    | inserted hplace hrows =>
      rw [hrows]
      exact .lock_inserted ho hplace
    | returned _ hno => exact .refused hno
  | @lock_inserted rid t' ho hplace =>
    refine U.locked (by rw [hcall]; rfl) hstep ?_ ?_ ?_ <;> rw [hcall]
    · trivial
    · simp only [TableCall.logs, List.forall_mem_singleton]
      exact hon
    · rw [hR, hl, ho]
      exact .logged (.inserted hplace)
  | @lock_deleted rid ho =>
    refine U.locked (by rw [hcall]; rfl) hstep ?_ ?_ ?_ <;> rw [hcall]
    · exact hon
    · simp [TableCall.logs]
    · rw [hR, hl]
      exact .read_deleted ho
  | @lock_updated k rid t' ho =>
    refine U.locked (by rw [hcall]; rfl) hstep ?_ ?_ ?_ <;> rw [hcall]
    · exact hon
    · simp [TableCall.logs]
    · rw [hR, hl]
      exact .read_updated ho
  | @lock_moved rid ret_rid t' old ho hlive hplace =>
    refine U.locked (by rw [hcall]; rfl) hstep ?_ ?_ ?_ <;> rw [hcall]
    · trivial
    · simp only [TableCall.logs, List.forall_mem_cons]
      exact ⟨hon.2.2, ⟨hon.1, hon.2.1⟩, by simp⟩
    · rw [hR, hl, ho]
      exact .logged (.moved hlive hplace)
  | @read_deleted rid ho =>
    refine U.worked (step_read_deleted A.heap hcall hon hstep) fun R' log call M => ?_
    rw [hcall, hR, hl] at M
    cases M with
    | found_deleted hlive hrows =>
      rw [hrows]
      exact .delete ho hlive
    | returned _ hno => exact .refused hno
  | @read_updated k rid t' ho =>
    refine U.worked (step_read_updated A.heap hcall A.call_on hstep) fun R' log call M => ?_
    rw [hcall, hR, hl] at M
    cases M with
    | found_updated hlive hrows =>
      rw [hrows]
      exact .update ho hlive
    | returned _ hno => exact .refused hno
  | @delete rid old ho hlive =>
    refine U.worked (step_delete A.heap hcall A.call_on hstep) fun R' log call M => ?_
    rw [hcall, hR, hl] at M
    cases M with
    | deleted _ hrows =>
      rw [hrows, ho]
      exact .of_logged (.deleted hlive)
    | returned _ hno => exact .refused hno
  | @update k rid t' old ho hlive =>
    refine U.worked (step_update A.heap hcall A.call_on hstep hfits) fun R' log call M => ?_
    rw [hcall, hR, hl] at M
    cases M with
    | updated _ hrows =>
      rw [hrows, ho]
      exact .of_logged (.updated hlive)
    | moved _ _ hplace hrows =>
      rw [hrows]
      exact .lock_moved ho hlive hplace
    | lost _ _ hno => exact .refused hno
    | returned _ hno => exact .refused hno
  | refused =>
    unfold table_step at hstep
    rw [hcall] at hstep
    cases hstep
  | logged =>
    unfold table_step at hstep
    rw [hcall] at hstep
    cases hstep

theorem capacity_run_call {fuel : Nat} (hrun : run_call fuel s tx = some t) :
    s.heap.pool.disk_manager.capacity ≤ t.heap.pool.disk_manager.capacity := by
  induction fuel generalizing s with
  | zero => cases hrun
  | succ fuel ih =>
    unfold run_call at hrun
    split at hrun
    · cases hrun
      exact Nat.le_refl _
    · cases hrun
      exact Nat.le_refl _
    · obtain ⟨u, hstep, hrun⟩ := Option.bind_eq_some_iff.mp hrun
      exact Nat.le_trans (capacity_table_step hstep) (ih hrun)

/-- And so does a whole run. -/
theorem undisturbed_run {fuel : Nat} (h : Undisturbed heads frames tx o s0 s)
    (hrun : run_call fuel s tx = some t)
    (hroom : t.heap.pool.disk_manager.capacity ≤ frames) :
    Undisturbed heads frames tx o s0 t := by
  induction fuel generalizing s with
  | zero => cases hrun
  | succ fuel ih =>
    unfold run_call at hrun
    split at hrun
    · cases hrun
      exact h
    · cases hrun
      exact h
    · obtain ⟨u, hstep, hrun⟩ := Option.bind_eq_some_iff.mp hrun
      exact ih (undisturbed_step h hstep (Nat.le_trans (capacity_run_call hrun) hroom)) hrun

end

/-! ## The rollback -/

/-- A transaction that has just begun, in a pool with a frame for every page, while no other
transaction runs. -/
structure Begins (heads : Nat → Prop) (tx : TransactionID) (s : TableSystem) : Prop where
  heap : HeapState False s.heap.outside (fun _ => False) heads s.heap.pool
  idle : ∀ n, s.heap.outside n = 0
  locks : LocksAlone s.locks tx
  new : s.txs tx = {}

/-- The row calls, on RIDs of the heaps, with tuples of 1 to 8180 bytes. -/
def RowCall (heads : Nat → Prop) (s : TableSystem) : TableOp → Prop
  | .insert_tuple h t => (∃ k, h = some k ∧ heads k) ∧ 1 ≤ t.length ∧ t.length ≤ 8180
  | .delete_tuple rid => RidOn heads s.heap.pool rid
  | .update_tuple h rid t =>
    (∃ k, h = some k ∧ heads k) ∧ RidOn heads s.heap.pool rid ∧ 1 ≤ t.length ∧ t.length ≤ 8180
  | .get_tuple _ | .commit | .abort => False

/-- The RID that a call takes a tuple from. -/
def TableOp.takes : TableOp → Option RID
  | .delete_tuple rid | .update_tuple _ rid _ => some rid
  | _ => none

/-- The abort runs to its end, and every RID reads what it read when the transaction began. A
page that joined the heaps since then had nothing to read. -/
def AbortRestores (heads : Nat → Prop) (tx : TransactionID) (s t : TableSystem) : Prop :=
  ∃ fuel u, run_call fuel (t.begin_call tx .abort) tx = some u ∧ (u.txs tx).call = .ended ∧
    ∀ n slot,
      (OnChain (succ s.heap.pool) heads n →
        (table_heap.get_tuple u.heap.pool ⟨some n, slot⟩).1 =
          (table_heap.get_tuple s.heap.pool ⟨some n, slot⟩).1) ∧
      (OnChain (succ u.heap.pool) heads n → ¬ OnChain (succ s.heap.pool) heads n →
        (table_heap.get_tuple u.heap.pool ⟨some n, slot⟩).1 = .ok none)

/-- A delete or an update finds its page with room for a larger slot directory: the one that
the page has at the state `t`. -/
def KeepsRoom (heads : Nat → Prop) (t s : TableSystem) (op : TableOp) : Prop :=
  ∀ n slot, op.takes = some ⟨some n, slot⟩ →
    sizeofPageHeader + (rows heads t.heap.pool n).length * sizeofSlot +
      liveBytes (rows heads s.heap.pool n) ≤ kPAGE_SIZE

section
variable {heads : Nat → Prop} {frames : Nat} {tx : TransactionID} {s t u : TableSystem}

/-- A call that returned success has logged how to undo it. -/
theorem op_logged {op : TableOp} (A : RunsAlone heads frames tx s) (hop : RowCall heads s op)
    (hnext : (opMachine tx).next s op = some t)
    (hroom : t.heap.pool.disk_manager.capacity ≤ frames) :
    RunsAlone heads frames tx t ∧
      (∀ n, OnChain (succ s.heap.pool) heads n → OnChain (succ t.heap.pool) heads n) ∧
      ∃ recs, (t.txs tx).undo_log = recs ++ (s.txs tx).undo_log ∧
      Logged (rows heads s.heap.pool) op.takes (rows heads t.heap.pool) recs := by
  obtain ⟨hrun, hdone⟩ := Option.filter_eq_some_iff.mp hnext
  have hstart : Undisturbed heads frames tx op.takes s (s.begin_call tx op) := by
    refine ⟨⟨⟨A.heap, A.idle, A.frames, ?_⟩, A.locks, ?_⟩, ?_, fun n => id⟩ <;>
      simp only [TableSystem.begin_call, TableSystem.go_on, Function.update_self]
    · cases op with
      | insert_tuple h t => exact hop.1
      | delete_tuple rid => exact hop
      | update_tuple h rid t => exact ⟨hop.1, hop.2.1, by have := hop.2.2.2; omega⟩
      | get_tuple | commit | abort => cases hop
    · exact A.log_on
    · cases op with
      | insert_tuple h t => exact .insert rfl
      | delete_tuple rid => exact .lock_deleted rfl
      | update_tuple h rid t => exact .lock_updated rfl
      | get_tuple | commit | abort => cases hop
  obtain ⟨A', M, hchains⟩ := undisturbed_run hstart hrun hroom
  refine ⟨A', hchains, ?_⟩
  generalize (t.txs tx).undo_log = log at M ⊢
  generalize (t.txs tx).call = call at M hdone
  generalize rows heads t.heap.pool = R at M ⊢
  cases M with
  | @logged r R recs hlogged => exact ⟨recs, rfl, hlogged⟩
  | @refused r R log hno =>
    rcases r with e | res
    · cases hdone
    · have hchanged : res.changed = true := hdone
      rw [hno res rfl] at hchanged
      cases hchanged
  | insert | lock_inserted | lock_deleted | read_deleted | delete | lock_updated | read_updated
  | update | lock_moved => cases hdone

/-- A whole run of calls: its log undoes it on pages with directories of `L n` slots, if every
page that a tuple was taken from has room for such a directory. -/
theorem ops_logged {ops : List TableOp} (A : RunsAlone heads frames tx s)
    (hr : (opMachine tx).Run (RowCall heads) s ops t)
    (hroom : t.heap.pool.disk_manager.capacity ≤ frames) :
    RunsAlone heads frames tx t ∧
      (∀ n, OnChain (succ s.heap.pool) heads n → OnChain (succ t.heap.pool) heads n) ∧
      ∃ recs, (t.txs tx).undo_log = recs ++ (s.txs tx).undo_log ∧
        ∀ L : Nat → Nat, (∀ n, (rows heads t.heap.pool n).length ≤ L n) →
          recs.foldl undoRow (pad L (rows heads t.heap.pool)) = pad L (rows heads s.heap.pool) ∧
          (Fits recs (pad L (rows heads t.heap.pool)) ↔
            (opMachine tx).Run (fun s op => ∀ n slot, op.takes = some ⟨some n, slot⟩ →
              sizeofPageHeader + L n * sizeofSlot + liveBytes (rows heads s.heap.pool n) ≤
                kPAGE_SIZE) s ops t) := by
  induction hr with
  | nil => exact ⟨A, fun n => id, [], rfl, fun L hL => ⟨rfl, fun _ => .nil, fun _ => trivial⟩⟩
  | @snoc ops v w op hr hop hnext ih =>
    have hle := capacity_run_call (Option.filter_eq_some_iff.mp hnext).1
    obtain ⟨Av, hchain, recs, hlog, hundo⟩ := ih (Nat.le_trans hle hroom)
    obtain ⟨Aw, hchain', last, hlast, hlogged⟩ := op_logged Av hop hnext hroom
    refine ⟨Aw, fun n hn => hchain' n (hchain n hn), last ++ recs, by rw [hlast, hlog, List.append_assoc], fun L hL => ?_⟩
    have hLv : ∀ n, (rows heads v.heap.pool n).length ≤ L n := fun n =>
      Nat.le_trans (hlogged.length_le n) (hL n)
    obtain ⟨h1, h2⟩ := hundo L hLv
    obtain ⟨k1, k2⟩ := hlogged.undo hL
    refine ⟨by rw [List.foldl_append, k1, h1], ?_⟩
    rw [fits_append, k1, k2, h2, hr.snoc_iff hnext, and_comm]
    refine and_congr_right fun _ => ⟨fun h n slot ho => ?_, fun h rid ho => ?_⟩
    · rw [← usedOn_pad slot (hLv n)]
      exact h _ ho
    · obtain ⟨_ | n, slot⟩ := rid
      · exact Nat.zero_le _
      · rw [usedOn_pad slot (hLv n)]
        exact h n slot ho

theorem not_allPinned_alone (A : Roomy heads frames tx s) {n : Nat}
    (hn : n < s.heap.pool.disk_manager.capacity) : ¬ AllPinned s.heap.pool := by
  refine not_allPinned_idle A.heap.store.inv ?_ A.idle
  have := A.heap.store.roomy id
  omega

/-- What is left of an abort: it ends when the rest of the log fits, with the rows of the
undone log, and stops at an assertion when it does not. -/
def EndsIfFits (heads : Nat → Prop) (tx : TransactionID) (l : List UndoRecord)
    (s : TableSystem) : Prop :=
  (Fits l (rows heads s.heap.pool) → ∃ fuel u, run_call fuel s tx = some u ∧
    (u.txs tx).call = .ended ∧
    HeapState False u.heap.outside (fun _ => False) heads u.heap.pool ∧
    (∀ n, u.heap.outside n = 0) ∧ rows heads u.heap.pool = l.foldl undoRow (rows heads s.heap.pool) ∧
    ∀ n, OnChain (succ s.heap.pool) heads n → OnChain (succ u.heap.pool) heads n) ∧
  (¬ Fits l (rows heads s.heap.pool) → ∀ fuel, run_call fuel s tx = none)

theorem undo_run {l : List UndoRecord} (A : Roomy heads frames tx s)
    (hcall : (s.txs tx).call = .undo l) : EndsIfFits heads tx l s := by
  induction l generalizing s with
  | nil =>
    refine ⟨fun _ => ⟨2, s.finish tx .ABORTED, ?_, ?_, A.heap, A.idle, rfl, fun _ => id⟩,
      fun h => absurd trivial h⟩
    · have hstep : table_step s tx false = some (s.finish tx .ABORTED) := by
        unfold table_step
        rw [hcall]
      have hend : ((s.finish tx .ABORTED).txs tx).call = .ended := by
        simp [TableSystem.finish, TableSystem.go_on]
      unfold run_call
      rw [hcall]
      simp only [hstep, Option.bind_some]
      unfold run_call
      rw [hend]
    · simp [TableSystem.finish, TableSystem.go_on]
  | cons v l ih =>
    -- one record, and then the rest
    have hrest : ∀ b, Worked False heads s tx b (s.txs tx).undo_log (.undo l) →
        table_step s tx false = some (s.after b tx (s.txs tx).undo_log (.undo l)) →
        rows heads b = undoRow (rows heads s.heap.pool) v →
        (Fits (v :: l) (rows heads s.heap.pool) ↔ Fits l (undoRow (rows heads s.heap.pool) v)) →
        EndsIfFits heads tx (v :: l) s := by
      intro b W hstep hrows hfits
      have A' := A.worked W
      have hcall' : ((s.after b tx (s.txs tx).undo_log (.undo l)).txs tx).call = .undo l := by
        simp [TableSystem.after]
      obtain ⟨h1, h2⟩ := ih A' hcall'
      have hrows' : rows heads (s.after b tx (s.txs tx).undo_log (.undo l)).heap.pool =
          undoRow (rows heads s.heap.pool) v := hrows
      rw [hrows'] at h1 h2
      have hchain : ∀ n, OnChain (succ s.heap.pool) heads n → OnChain (succ b) heads n :=
        fun n hn => by
          obtain ⟨k, hk, hon⟩ := hn
          exact ⟨k, hk, W.ran.onPath k hk n hon⟩
      have hrun : ∀ fuel, run_call (fuel + 1) s tx =
          run_call fuel (s.after b tx (s.txs tx).undo_log (.undo l)) tx := by
        intro fuel
        conv_lhs => unfold run_call
        rw [hcall]
        simp only [hstep, Option.bind_some]
      refine ⟨fun hf => ?_, fun hf fuel => ?_⟩
      · obtain ⟨fuel, u, k1, k2, k3, k4, k5, k6⟩ := h1 (hfits.mp hf)
        refine ⟨fuel + 1, u, by rw [hrun, k1], k2, k3, k4, k5, fun n hn => k6 n (hchain n hn)⟩
      · cases fuel with
        | zero => rfl
        | succ fuel => rw [hrun, h2 fun h => hf (hfits.mpr h)]
    have hon := A.call_on
    rw [hcall] at hon
    have hv : v.On heads s.heap.pool := hon v (by simp)
    have hall : ¬ AllPinned s.heap.pool := by
      have hrid : ∃ n, OnChain (succ s.heap.pool) heads n := by
        rcases v with rid | ⟨rid, t⟩
        · obtain ⟨n, _, hn⟩ := hv
          exact ⟨n, hn⟩
        · obtain ⟨⟨n, _, hn⟩, _⟩ := hv
          exact ⟨n, hn⟩
      obtain ⟨n, hn⟩ := hrid
      exact not_allPinned_alone A (A.heap.pages n hn).2.1
    cases v with
    | DeleteUndoRecord rid =>
      obtain ⟨b, hstep, W, _⟩ := step_undo_delete A.heap false hcall A.call_on
      refine hrest b W hstep ?_ Iff.rfl
      have M := W.move
      rw [hcall] at M
      cases M with
      | undone hrows => exact hrows
      | skipped hstuck _ => exact absurd hstuck hall
    | RestoreUndoRecord rid t =>
      rcases step_undo_restore A.heap false hcall A.call_on (fun h => h.elim) with
        ⟨b, hstep, W, _⟩ | ⟨hstep, hno⟩
      · have M := W.move
        rw [hcall] at M
        cases M with
        | restored hcan hrows => exact hrest b W hstep hrows ⟨fun h => h.2, fun h => ⟨hcan, h⟩⟩
        | skipped hstuck _ => exact absurd hstuck hall
      · refine ⟨fun h => absurd h.1 hno, ?_⟩
        intro _ fuel
        cases fuel with
        | zero => rfl
        | succ fuel =>
          unfold run_call
          rw [hcall]
          simp only [hstep, Option.bind_none]

theorem get_tuple_alone (H : HeapState False s.heap.outside (fun _ => False) heads s.heap.pool)
    (hidle : ∀ n, s.heap.outside n = 0) {n : Nat} (hn : OnChain (succ s.heap.pool) heads n)
    (slot : Nat) : (table_heap.get_tuple s.heap.pool ⟨some n, slot⟩).1 =
      .ok ((tupleOf (rows heads s.heap.pool n) slot).filter (! ·.isEmpty)) := by
  rcases H.get_tuple hn slot with ⟨b, hg, _⟩ | ⟨_, hall⟩
  · rw [hg]
  · refine absurd hall (not_allPinned_idle H.store.inv ?_ hidle)
    have := H.store.roomy id
    have := (H.pages n hn).2.1
    omega

/-- The rollback of a transaction that ran alone is exact, if and only if every delete and
every update found its page with room for the slot directory that the page has at the end. -/
theorem an_abort_restores_the_heap_when_pages_keep_room {ops : List TableOp}
    (h0 : Begins heads tx s) (hr : (opMachine tx).Run (RowCall heads) s ops t)
    (hroom : t.heap.pool.disk_manager.capacity ≤ s.heap.pool.pool_capacity) :
    AbortRestores heads tx s t ↔ (opMachine tx).Run (KeepsRoom heads t) s ops t := by
  have hnew := h0.new
  have A : RunsAlone heads s.heap.pool.pool_capacity tx s :=
    ⟨⟨h0.heap, h0.idle, rfl, by rw [hnew]; trivial⟩, h0.locks, by rw [hnew]; simp⟩
  obtain ⟨At, hgrow, recs, hlog, hundo⟩ := ops_logged A hr hroom
  rw [hnew, List.append_nil] at hlog
  obtain ⟨hrows, hfits⟩ := hundo (fun n => (rows heads t.heap.pool n).length) fun n => Nat.le_refl _
  rw [pad_self] at hrows hfits
  unfold KeepsRoom
  rw [← hfits]
  -- the abort starts, and undoes the log
  obtain ⟨v, hv, hcall, hpool, houtside⟩ : ∃ v, table_step (t.begin_call tx .abort) tx false = some v ∧
      (v.txs tx).call = .undo recs ∧ v.heap.pool = t.heap.pool ∧ v.heap.outside = t.heap.outside := by
    have hb : ((t.begin_call tx .abort).txs tx).call = .abort := by
      simp [TableSystem.begin_call, TableSystem.go_on, TableOp.call]
    unfold table_step
    rw [hb]
    refine ⟨_, rfl, ?_, rfl, rfl⟩
    simp [TableSystem.begin_call, TableSystem.go_on, TableSystem.set_state, hlog]
  have hrun : ∀ fuel, run_call (fuel + 1) (t.begin_call tx .abort) tx = run_call fuel v tx := by
    intro fuel
    have hb : ((t.begin_call tx .abort).txs tx).call = .abort := by
      simp [TableSystem.begin_call, TableSystem.go_on, TableOp.call]
    conv_lhs => unfold run_call
    rw [hb]
    simp only [hv, Option.bind_some]
  have hlogv : ∀ u ∈ recs, u.On heads v.heap.pool := by
    rw [hpool, ← hlog]
    exact At.log_on
  have Av : Roomy heads s.heap.pool.pool_capacity tx v := by
    refine ⟨?_, ?_, ?_, ?_⟩
    · rw [hpool, houtside]
      exact At.heap
    · rw [houtside]
      exact At.idle
    · rw [hpool]
      exact At.frames
    · rw [hcall]
      exact hlogv
  obtain ⟨hends, hstops⟩ := undo_run Av hcall
  rw [hpool] at hends hstops
  constructor
  · rintro ⟨fuel, u, hu, _⟩
    by_contra hno
    cases fuel with
    | zero => cases hu
    | succ fuel =>
      rw [hrun, hstops hno fuel] at hu
      cases hu
  · intro hf
    obtain ⟨fuel, u, hu, hended, Hu, hidle, hrowsu, hchain⟩ := hends hf
    rw [hrows] at hrowsu
    have hread : ∀ n slot, tupleOf (rows heads u.heap.pool n) slot =
        tupleOf (rows heads s.heap.pool n) slot := by
      intro n slot
      rw [hrowsu, tupleOf_pad]
    refine ⟨fuel + 1, u, by rw [hrun, hu], hended, fun n slot => ⟨fun hn => ?_, fun hn hno => ?_⟩⟩
    · rw [get_tuple_alone Hu hidle (hchain n (hgrow n hn)), get_tuple_alone h0.heap h0.idle hn, hread]
    · rw [get_tuple_alone Hu hidle hn, hread, rows_off hno]
      rfl

end

/-! ## Runs on fixed inputs -/

/-- A new table with one page, in a pool of four frames. -/
def new_table : TableSystem :=
  ⟨⟨(create (empty_pool 4)).2, fun _ => 0⟩, fresh, fun _ => {}⟩

theorem new_table_begins : Begins (· = 1) 1 new_table := by
  refine ⟨?_, fun _ => rfl, ⟨?_, rfl, rfl⟩, rfl⟩
  swap
  · intro rid r hr
    cases hr
  have h1 : (create (empty_pool 4)).1 = .ok (some 1) := by rfl
  have H0 : HeapState False (fun _ => 0) (fun _ => False) (fun _ => False) (empty_pool 4) :=
    heapState_make ⟨fun _ => rfl, fun _ => rfl⟩ List.nodup_nil (by simp)
      ⟨Nat.zero_lt_one, by simp⟩ fun _ => by decide
  obtain ⟨H, _⟩ := H0.created (fun _ => by decide) h1
  have hheads : (fun h : Nat => False ∨ h = 1) = (· = 1) := by
    funext h
    simp
  rw [hheads] at H
  exact H

/-- A row call on the first page, which leaves the disk no larger than the pool. -/
def on_first_page (h frames : Nat) (tx : TransactionID) (s : TableSystem) (op : TableOp) : Bool :=
  (match op with
    | .insert_tuple k t => k == some h && decide (1 ≤ t.length ∧ t.length ≤ 8180)
    | .delete_tuple rid => rid.page_id == some h
    | .update_tuple k rid t =>
      k == some h && rid.page_id == some h && decide (1 ≤ t.length ∧ t.length ≤ 8180)
    | _ => false) &&
  ((opMachine tx).next s op).all fun t => t.heap.pool.disk_manager.capacity ≤ frames

section
variable {h frames : Nat} {tx : TransactionID} {s t : TableSystem} {ops : List TableOp}

theorem onChain_first (A : RunsAlone (· = h) frames tx s) :
    OnChain (succ s.heap.pool) (· = h) h := ⟨h, rfl, A.heap.forest.onPath_head rfl⟩

theorem rowCall_of_check (A : RunsAlone (· = h) frames tx s) {op : TableOp}
    (hc : on_first_page h frames tx s op = true) : RowCall (· = h) s op ∧
      ∀ t, (opMachine tx).next s op = some t → t.heap.pool.disk_manager.capacity ≤ frames := by
  obtain ⟨hop, hfits⟩ := Bool.and_eq_true_iff.mp hc
  refine ⟨?_, fun t ht => ?_⟩
  · have hon := onChain_first A
    cases op with
    | insert_tuple k t =>
      simp only [Bool.and_eq_true, beq_iff_eq, decide_eq_true_eq] at hop
      exact ⟨⟨h, hop.1, rfl⟩, hop.2⟩
    | delete_tuple rid =>
      simp only [beq_iff_eq] at hop
      exact ⟨h, hop, hon⟩
    | update_tuple k rid t =>
      simp only [Bool.and_eq_true, beq_iff_eq, decide_eq_true_eq] at hop
      exact ⟨⟨h, hop.1.1, rfl⟩, ⟨h, hop.1.2, hon⟩, hop.2⟩
    | get_tuple | commit | abort => cases hop
  · rw [ht] at hfits
    simpa using hfits

/-- A list of calls that pass the check is a run. -/
theorem run_of_calls {check : TableSystem → TableOp → Bool} {ok : TableSystem → TableOp → Prop}
    (hc : ∀ s op, check s op = true → on_first_page h frames tx s op = true)
    (hok : ∀ s op, RunsAlone (· = h) frames tx s → check s op = true → ok s op)
    (A : RunsAlone (· = h) frames tx s) (hx : (opMachine tx).execIf check s ops = some t) :
    (opMachine tx).Run ok s ops t := by
  induction ops generalizing s with
  | nil =>
    obtain rfl : s = t := by simpa [Machine.execIf] using hx
    exact .nil
  | cons op ops ih =>
    unfold Machine.execIf at hx
    split at hx
    · rename_i hop
      obtain ⟨u, hu, hx⟩ := Option.bind_eq_some_iff.mp hx
      obtain ⟨hrow, hfits⟩ := rowCall_of_check A (hc s op hop)
      exact Machine.Run.cons (hok s op A hop) hu (ih (op_logged A hrow hu (hfits u hu)).1 hx)
    · cases hx

end

/-- The call takes steps, and gets stuck after some of them. -/
def stuck_after : Nat → TableSystem → TransactionID → Bool
  | 0, s, tx =>
    match (s.txs tx).call with
    | .done _ | .ended => false
    | _ => (table_step s tx false).isNone
  | n + 1, s, tx =>
    match (s.txs tx).call with
    | .done _ | .ended => false
    | _ => (table_step s tx false).any fun s => stuck_after n s tx

theorem run_call_of_step {s : TableSystem} {tx : TransactionID} {fuel : Nat}
    (h1 : ∀ r, (s.txs tx).call ≠ .done r) (h2 : (s.txs tx).call ≠ .ended) :
    run_call (fuel + 1) s tx = (table_step s tx false).bind fun s => run_call fuel s tx := by
  rw [run_call]
  split
  · exact absurd ‹_› (h1 _)
  · exact absurd ‹_› h2
  · rfl

theorem run_call_stuck {n : Nat} {s : TableSystem} {tx : TransactionID}
    (h : stuck_after n s tx = true) (fuel : Nat) : run_call fuel s tx = none := by
  induction n generalizing s fuel with
  | zero =>
    cases fuel with
    | zero => rfl
    | succ fuel =>
      unfold stuck_after at h
      split at h
      · cases h
      · cases h
      · rename_i h1 h2
        rw [run_call_of_step h1 h2, Option.isNone_iff_eq_none.mp h]
        rfl
  | succ n ih =>
    cases fuel with
    | zero => rfl
    | succ fuel =>
      unfold stuck_after at h
      split at h
      · cases h
      · cases h
      · rename_i h1 h2
        obtain ⟨t, ht, hs⟩ := Option.any_eq_true _ _ |>.mp h
        rw [run_call_of_step h1 h2, ht]
        exact ih hs fuel

theorem new_table_alone : RunsAlone (· = 1) 4 1 new_table := by
  have h0 := new_table_begins
  exact ⟨⟨h0.heap, h0.idle, rfl, trivial⟩, h0.locks, by simp [new_table]⟩

/-- A tuple that fills its page is deleted, and two small ones come in. The page now has two
slots, and there is no room for both of them and the large tuple. -/
theorem a_longer_directory_keeps_a_tuple_out :
    ¬ ∀ (heads : Nat → Prop) (tx : TransactionID) (s t : TableSystem) (ops : List TableOp),
      Begins heads tx s → (opMachine tx).Run (RowCall heads) s ops t →
      t.heap.pool.disk_manager.capacity ≤ s.heap.pool.pool_capacity →
      AbortRestores heads tx s t := by
  intro h
  obtain ⟨t, ht, hstuck⟩ : ∃ t, (opMachine 1).execIf (on_first_page 1 4 1) new_table
      [.insert_tuple (some 1) (List.replicate 8180 7), .delete_tuple ⟨some 1, 0⟩,
        .insert_tuple (some 1) [1], .insert_tuple (some 1) [2]] = some t ∧
      (stuck_after 3 (t.begin_call 1 .abort) 1 &&
        decide (t.heap.pool.disk_manager.capacity ≤ 4)) = true := by
    apply Option.map_eq_some_iff.mp
    decide +kernel
  rw [Bool.and_eq_true, decide_eq_true_eq] at hstuck
  have hrun := run_of_calls (fun _ _ => id) (fun s op A hc => (rowCall_of_check A hc).1)
    new_table_alone ht
  obtain ⟨fuel, u, hu, _⟩ := h _ 1 new_table t _ new_table_begins hrun hstuck.2
  rw [run_call_stuck hstuck.1 fuel] at hu
  cases hu

/-- A row call on the first page, while that page has room for a directory of two slots. -/
def on_roomy_page (s : TableSystem) (op : TableOp) : Bool :=
  on_first_page 1 4 1 s op && decide
    (sizeofPageHeader + 2 * sizeofSlot + liveBytes (rowsOf (view s.heap.pool 1)) ≤ kPAGE_SIZE)

/-- A transaction that inserts, updates and deletes, on a page with room to spare. -/
theorem a_transaction_on_a_roomy_page_is_rolled_back : ∃ ops t,
    (opMachine 1).Run (RowCall (· = 1)) new_table ops t ∧ AbortRestores (· = 1) 1 new_table t := by
  obtain ⟨t, ht, hp⟩ : ∃ t, (opMachine 1).execIf on_roomy_page new_table [.insert_tuple (some 1) [1, 2, 3],
      .insert_tuple (some 1) [4], .update_tuple (some 1) ⟨some 1, 0⟩ [5, 6, 7, 8],
      .delete_tuple ⟨some 1, 1⟩] = some t ∧
      ((rowsOf (view t.heap.pool 1)).length == 2 &&
        decide (t.heap.pool.disk_manager.capacity ≤ 4)) = true := by
    apply Option.map_eq_some_iff.mp
    decide +kernel
  rw [Bool.and_eq_true, beq_iff_eq, decide_eq_true_eq] at hp
  have hc : ∀ s op, on_roomy_page s op = true → on_first_page 1 4 1 s op = true :=
    fun s op h => (Bool.and_eq_true_iff.mp h).1
  have hrun := run_of_calls hc (fun s op A h => (rowCall_of_check A (hc s op h)).1) new_table_alone ht
  obtain ⟨At, _⟩ := ops_logged new_table_alone hrun hp.2
  refine ⟨_, t, hrun, (an_abort_restores_the_heap_when_pages_keep_room new_table_begins hrun hp.2).mpr
    (run_of_calls hc (fun s op A h => ?_) new_table_alone ht)⟩
  obtain ⟨h1, h2⟩ := Bool.and_eq_true_iff.mp h
  intro n slot htakes
  obtain rfl : n = 1 := by
    unfold on_first_page at h1
    cases op with
    | delete_tuple rid =>
      obtain rfl := Option.some.inj htakes
      simpa using (Bool.and_eq_true_iff.mp h1).1
    | update_tuple k rid t =>
      obtain rfl := Option.some.inj htakes
      have := (Bool.and_eq_true_iff.mp h1).1
      simp only [Bool.and_eq_true, beq_iff_eq] at this
      exact Option.some.inj this.1.2
    | insert_tuple | get_tuple | commit | abort => cases htakes
  rw [rows_on (onChain_first A), rows_on (onChain_first At)]
  show sizeofPageHeader + (rowsOf (view t.heap.pool 1)).length * sizeofSlot + _ ≤ _
  rw [hp.1]
  exact of_decide_eq_true h2

end duck.table
