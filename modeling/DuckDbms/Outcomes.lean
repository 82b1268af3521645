-- The outcome of a transaction. Commit and abort take a transaction in any
-- state, so what was aborted can be committed, and what was committed can be
-- undone, unless the callers see to it that each transaction is ended once.
import DuckDbms.TableLocks
import DuckDbms.Rollback

open machine duck.buffer_pool duck.lock_manager duck.table_heap

namespace duck.table

/-! ## Calls in any order -/

/-- The transactions, whether each of them has ever been aborted or committed, and how often
each record of its undo log has run. The oldest record of a log has number zero. -/
structure TxHistory where
  system : TableSystem
  was_aborted : TransactionID → Bool
  was_committed : TransactionID → Bool
  executed : TransactionID → Nat → Nat

/-- A transaction makes one call at a time, and may make another one when it has ended. -/
def next_in_any_order (s : TableSystem) : TableEvent → Option TableSystem
  | .call tx op =>
    match (s.txs tx).call with
    | .done _ | .ended => some (s.begin_call tx op)
    | _ => none
  | e => s.next e

/-- A step of `Transaction::undo` runs the next record. -/
def runRecord (executed : TransactionID → Nat → Nat) (tx : TransactionID) :
    TableCall → TransactionID → Nat → Nat
  | .undo (_ :: rest) => Function.update executed tx
      (Function.update (executed tx) rest.length (executed tx rest.length + 1))
  | _ => executed

namespace TxHistory

variable (s : TxHistory)

def count : TableEvent → TransactionID → Nat → Nat
  | .step tx _ => runRecord s.executed tx (s.system.txs tx).call
  | _ => s.executed

def next (e : TableEvent) : Option TxHistory :=
  (next_in_any_order s.system e).map fun t =>
    { system := t
      was_aborted := fun tx => s.was_aborted tx || (t.locks.txs tx).state = .ABORTED
      was_committed := fun tx => s.was_committed tx || (t.locks.txs tx).state = .COMMITTED
      executed := s.count e }

end TxHistory

/-- Every transaction begins, over any heap. -/
def outcomeMachine : Machine TxHistory TableEvent where
  start s := s.system.locks = fresh ∧ (s.system.txs = fun _ => {}) ∧
    (s.was_aborted = fun _ => false) ∧ (s.was_committed = fun _ => false) ∧
    s.executed = fun _ _ => 0
  next := TxHistory.next

/-- Nobody commits a transaction that was aborted, nor aborts one that was committed or that has
begun to run its undo log. -/
def EndsOnce (s : TxHistory) : TableEvent → Prop
  | .call tx .commit => s.was_aborted tx = false
  | .call tx .abort => s.was_committed tx = false ∧ ∀ i, s.executed tx i = 0
  | _ => True

/-- No transaction was both aborted and committed, none runs its undo log after it was
committed, and no record of an undo log runs twice. -/
def OutcomesAreFinal (s : TxHistory) : Prop := ∀ tx,
  ¬ (s.was_aborted tx = true ∧ s.was_committed tx = true) ∧
  (s.was_committed tx = true → ∀ u rest, (s.system.txs tx).call ≠ .undo (u :: rest)) ∧
  ∀ i, s.executed tx i ≤ 1

/-! ## What the steps keep of one transaction -/

/-- The call and the state of a transaction agree with its history. -/
structure Outcome (call : TableCall) (state : TransactionState) (aborted committed : Bool)
    (executed : Nat → Nat) : Prop where
  aborts : state = .ABORTED → aborted = true
  commits : state = .COMMITTED → committed = true
  committed_stays : committed = true → state ≠ .GROWING ∧ aborted = false ∧ call ≠ .abort ∧
    ∀ l, call ≠ .undo l
  aborted_stays : aborted = true → call ≠ .commit
  once : ∀ i, executed i ≤ 1
  not_begun : call = .abort → ∀ i, executed i = 0
  left : ∀ l, call = .undo l → ∀ i < l.length, executed i = 0

section
variable {call call' : TableCall} {state : TransactionState} {aborted committed : Bool}
  {executed : Nat → Nat}

/-- A call that ends no transaction keeps its outcome open. -/
theorem Outcome.go_on (O : Outcome call state aborted committed executed)
    (h : call'.ending = false ∨ call' = .ended ∨ ∃ r, call' = .done r) :
    Outcome call' state aborted committed executed := by
  have hne : call' ≠ .abort ∧ call' ≠ .commit ∧ ∀ l, call' ≠ .undo l := by
    rcases h with h | rfl | ⟨r, rfl⟩
    · refine ⟨?_, ?_, fun l => ?_⟩ <;> rintro rfl <;> cases h
    · simp
    · simp
  refine ⟨O.aborts, O.commits, fun hc => ?_, fun _ => hne.2.1, O.once,
    fun ha => absurd ha hne.1, fun l hl => absurd hl (hne.2.2 l)⟩
  obtain ⟨h1, h2, _⟩ := O.committed_stays hc
  exact ⟨h1, h2, hne.1, hne.2.2⟩

/-- The state becomes what it is, and the history takes note of it. -/
theorem Outcome.noted (O : Outcome call state aborted committed executed)
    (state' : TransactionState) (ha : state' = .ABORTED → committed = false)
    (hac : state' = .ABORTED → call ≠ .commit)
    (hc : state' = .COMMITTED → aborted = false ∧ call ≠ .abort ∧ ∀ l, call ≠ .undo l)
    (hg : state' = .GROWING → state = .GROWING) :
    Outcome call state' (aborted || decide (state' = .ABORTED))
      (committed || decide (state' = .COMMITTED)) executed := by
  refine ⟨fun h => by simp [h], fun h => by simp [h], fun h => ?_, fun h => ?_, O.once,
    O.not_begun, O.left⟩
  · rw [Bool.or_eq_true, decide_eq_true_eq] at h
    rcases h with h | h
    · obtain ⟨h1, h2, h3⟩ := O.committed_stays h
      refine ⟨fun hs => h1 (hg hs), ?_, h3⟩
      rw [h2, Bool.false_or, decide_eq_false_iff_not]
      intro hs
      rw [ha hs] at h
      cases h
    · obtain ⟨h1, h2⟩ := hc h
      refine ⟨by rw [h]; simp, ?_, h2⟩
      rw [h1, h]
      rfl
  · rw [Bool.or_eq_true, decide_eq_true_eq] at h
    exact h.elim O.aborted_stays hac

/-- The history takes note of a state that it knows. -/
theorem Outcome.known (state : TransactionState)
    (O : Outcome call state aborted committed executed) :
    Outcome call state (aborted || decide (state = .ABORTED))
      (committed || decide (state = .COMMITTED)) executed := by
  have ha : (aborted || decide (state = .ABORTED)) = aborted := by
    by_cases h : state = .ABORTED
    · simp [h, O.aborts h]
    · simp [h]
  have hc : (committed || decide (state = .COMMITTED)) = committed := by
    by_cases h : state = .COMMITTED
    · simp [h, O.commits h]
    · simp [h]
  rw [ha, hc]
  exact O

/-- A record runs. -/
theorem Outcome.ran {u : UndoRecord} {rest : List UndoRecord}
    (O : Outcome (.undo (u :: rest)) state aborted committed executed) :
    Outcome (.undo rest) state aborted committed
      (Function.update executed rest.length (executed rest.length + 1)) := by
  have hzero := O.left _ rfl
  refine ⟨O.aborts, O.commits, fun h => ?_, fun _ => by simp, fun i => ?_, by simp, ?_⟩
  · exact absurd rfl ((O.committed_stays h).2.2.2 _)
  · by_cases hi : i = rest.length
    · rw [hi, Function.update_self, hzero _ (by simp)]
    · rw [Function.update_of_ne hi]
      exact O.once i
  · rintro l hl i hi
    cases hl
    rw [Function.update_of_ne (Nat.ne_of_lt hi)]
    exact hzero i (Nat.lt_succ_of_lt hi)

end

/-! ## What the steps keep of the whole -/

structure OutcomeInv (s : TxHistory) : Prop where
  locked : TableLocked s.system
  outcome : ∀ tx, Outcome (s.system.txs tx).call (s.system.locks.txs tx).state
    (s.was_aborted tx) (s.was_committed tx) (s.executed tx)

/-- The history after a step that led to the system `t`. -/
def TxHistory.noting (s : TxHistory) (t : TableSystem) (executed : TransactionID → Nat → Nat) :
    TxHistory where
  system := t
  was_aborted tx := s.was_aborted tx || (t.locks.txs tx).state = .ABORTED
  was_committed tx := s.was_committed tx || (t.locks.txs tx).state = .COMMITTED
  executed := executed

section
variable {s : TxHistory} {t : TableSystem} {tx : TransactionID} {expired : Bool}

/-- The outcome of a transaction that a step leaves alone. -/
theorem OutcomeInv.other (I : OutcomeInv s) {U : TransactionID} {ex : TransactionID → Nat → Nat}
    (htx : t.txs U = s.system.txs U) (hl : t.locks.txs U = s.system.locks.txs U)
    (hex : ex U = s.executed U) : Outcome (t.txs U).call (t.locks.txs U).state
      ((s.noting t ex).was_aborted U) ((s.noting t ex).was_committed U) (ex U) := by
  simp only [TxHistory.noting]
  rw [htx, hl, hex]
  exact (I.outcome U).known _

/-- A step of one transaction keeps the invariant when it keeps the outcome of that one. -/
theorem OutcomeInv.of_own (tx : TransactionID) (I : OutcomeInv s) {ex : TransactionID → Nat → Nat}
    (hlocked : TableLocked t) (htx : ∀ U, U ≠ tx → t.txs U = s.system.txs U)
    (hl : ∀ U, U ≠ tx → t.locks.txs U = s.system.locks.txs U)
    (hex : ∀ U, U ≠ tx → ex U = s.executed U)
    (hown : Outcome (t.txs tx).call (t.locks.txs tx).state ((s.noting t ex).was_aborted tx)
      ((s.noting t ex).was_committed tx) (ex tx)) : OutcomeInv (s.noting t ex) := by
  refine ⟨hlocked, fun U => ?_⟩
  by_cases hU : U = tx
  · subst hU
    exact hown
  · exact I.other (htx U hU) (hl U hU) (hex U hU)

theorem count_eq (h : ∀ u rest, (s.system.txs tx).call ≠ .undo (u :: rest)) :
    s.count (.step tx expired) = s.executed := by
  show runRecord s.executed tx (s.system.txs tx).call = _
  generalize (s.system.txs tx).call = c at h
  cases c with
  | undo l =>
    cases l with
    | nil => rfl
    | cons u rest => exact absurd rfl (h u rest)
  | _ => rfl

theorem count_other {U : TransactionID} (hU : U ≠ tx) :
    s.count (.step tx expired) U = s.executed U := by
  show runRecord s.executed tx (s.system.txs tx).call U = _
  cases (s.system.txs tx).call with
  | undo l =>
    cases l with
    | nil => rfl
    | cons u rest => exact Function.update_of_ne hU _ _
  | _ => rfl

/-- A lock call that ends, sleeps or gives up. -/
theorem OutcomeInv.answered (I : OutcomeInv s) {rid : RID} {mode : LockMode} {l : LockSystem}
    {r : Option Bool} {call : TableCall}
    (hl : lockCall s.system.locks tx rid mode expired = (l, r)) (hcall : call.ending = false) :
    Outcome call (l.txs tx).state (s.was_aborted tx || decide ((l.txs tx).state = .ABORTED))
      (s.was_committed tx || decide ((l.txs tx).state = .COMMITTED)) (s.executed tx) := by
  have O := (I.outcome tx).go_on (Or.inl hcall)
  have hne : call ≠ .commit := by
    rintro rfl
    cases hcall
  have hstate := state_lockCall s.system.locks tx rid mode expired
  rw [hl] at hstate
  rcases hstate with h | ⟨hc, h⟩
  · rw [h]
    exact O.known _
  · -- the wait ran out, so the transaction was growing
    have hg := I.locked.growing tx hc
    rw [h]
    refine O.noted .ABORTED (fun _ => ?_) (fun _ => hne) (by simp) (by simp)
    by_contra hcom
    exact (O.committed_stays (by simpa using hcom)).1 hg

theorem outcomeInv_step (I : OutcomeInv s) (h : table_step s.system tx expired = some t) :
    OutcomeInv (s.noting t (s.count (.step tx expired))) := by
  have hother := fun U (hU : U ≠ tx) => table_step_other h hU
  refine I.of_own tx (tableLocked_step I.locked h) (fun U hU => (hother U hU).1)
    (fun U hU => (hother U hU).2) (fun U hU => count_other hU) ?_
  have hstate : ∀ s' : TableSystem, ∀ state,
      (((s'.finish tx state).locks.txs tx).state = state) ∧
        ((s'.finish tx state).txs tx).call = .ended := by
    intro s' state
    refine ⟨by rw [finish_locks, txs_set_tx, if_pos rfl], ?_⟩
    simp [TableSystem.finish, TableSystem.go_on]
  have hupdate : ∀ (b : BufferPoolManager) (s' : TableSystem) log call,
      ((s'.after b tx log call).txs tx).call = call := by simp [TableSystem.after]
  simp only [TxHistory.noting]
  have hasks : ∀ {x}, (s.system.txs tx).call.wants = some x →
      s.count (.step tx expired) = s.executed := by
    intro x hw
    refine count_eq fun u rest hc => ?_
    rw [hc] at hw
    cases hw
  cases table_step_cases h with
  | asleep hw hl =>
    rw [hasks hw]
    exact I.answered hl (ending_of_wants hw).1
  | granted hw hl =>
    rw [hasks hw, hupdate]
    exact I.answered hl (ending_of_wants hw).2.2
  | refused hw hl =>
    rw [hasks hw, hupdate]
    exact I.answered hl (ending_of_wants hw).2.1
  | committed hc =>
    obtain ⟨h1, h2⟩ := hstate (s.system.set_state tx .SHRINKING) .COMMITTED
    have O := I.outcome tx
    have hno : s.was_aborted tx = false := by
      by_contra ha
      exact O.aborted_stays (by simpa using ha) hc
    rw [h1, h2, count_eq (by rw [hc]; simp)]
    exact (O.go_on (Or.inr (Or.inl rfl))).noted .COMMITTED (by simp) (by simp)
      (fun _ => ⟨hno, by simp, by simp⟩) (by simp)
  | aborting hc =>
    have O := I.outcome tx
    have hzero := O.not_begun hc
    have hno : s.was_committed tx = false := by
      by_contra hcom
      exact (O.committed_stays (by simpa using hcom)).2.2.1 hc
    rw [count_eq (by rw [hc]; simp)]
    have hsh : (((s.system.set_state tx .SHRINKING).go_on s.system.heap.pool tx
        (.undo (s.system.txs tx).undo_log)).locks.txs tx).state = .SHRINKING := by
      show ((s.system.set_state tx .SHRINKING).locks.txs tx).state = _
      rw [TableSystem.set_state, txs_set_tx, if_pos rfl]
    rw [hsh, go_on_eq, hupdate]
    refine ⟨by simp, by simp, fun hcom => ?_, by simp, O.once, by simp, fun _ _ i _ => hzero i⟩
    rw [hno] at hcom
    cases hcom
  | aborted hc =>
    obtain ⟨h1, h2⟩ := hstate s.system .ABORTED
    have O := I.outcome tx
    have hno : s.was_committed tx = false := by
      by_contra hcom
      exact (O.committed_stays (by simpa using hcom)).2.2.2 _ hc
    rw [h1, h2, count_eq (by rw [hc]; simp)]
    exact (O.go_on (Or.inr (Or.inl rfl))).noted .ABORTED (fun _ => hno) (by simp) (by simp) (by simp)
  | heap hm _ =>
    rw [hupdate]
    show Outcome _ (s.system.locks.txs tx).state _ _ _
    have O := I.outcome tx
    have hcount : s.count (.step tx expired) = runRecord s.executed tx (s.system.txs tx).call := rfl
    rw [hcount]
    generalize (s.system.txs tx).call = c at hm O
    cases hm with
    | inserted | found_deleted | deleted | found_updated | updated | moved =>
      exact (O.go_on (Or.inl rfl)).known _
    | returned hc =>
      have hsame : runRecord s.executed tx c = s.executed := by
        cases c with
        | undo => cases hc
        | _ => rfl
      rw [hsame]
      exact (O.go_on (Or.inl rfl)).known _
    | undone =>
      simp only [runRecord, Function.update_self]
      exact O.ran.known _
    | failed =>
      simp only [runRecord, Function.update_self]
      exact (O.ran.go_on (Or.inr (Or.inr ⟨_, rfl⟩))).known _

theorem outcomeInv_start (h : outcomeMachine.start s) : OutcomeInv s := by
  obtain ⟨hl, htx, ha, hc, hex⟩ := h
  refine ⟨⟨by rw [hl]; exact lockInv_fresh, ?_, ?_⟩, fun tx => ?_⟩
  · intro tx rid mode up hcall
    rw [hl] at hcall
    cases hcall
  · intro tx hcall
    rw [hl] at hcall
    exact absurd rfl hcall
  · rw [hl, htx, ha, hc, hex]
    refine ⟨by simp [fresh], by simp [fresh], by simp, by simp, by simp, by simp, by simp⟩

/-- A call begins. Those that end the transaction need that it was not ended another way. -/
theorem outcomeInv_call (I : OutcomeInv s) {op : TableOp} (hok : EndsOnce s (.call tx op))
    (hidle : (s.system.txs tx).call.wants = none) :
    OutcomeInv (s.noting (s.system.begin_call tx op) (s.count (.call tx op))) := by
  refine I.of_own tx (I.locked.go_on (I.locked.idle hidle) _ _ _)
    (fun U hU => Function.update_of_ne hU _ _) (fun _ _ => rfl) (fun _ _ => rfl) ?_
  have hcall : ((s.system.begin_call tx op).txs tx).call = op.call := by
    simp [TableSystem.begin_call, TableSystem.go_on]
  rw [hcall]
  have O := I.outcome tx
  refine Outcome.known (s.system.locks.txs tx).state ?_
  cases op with
  | insert_tuple | get_tuple | delete_tuple | update_tuple => exact O.go_on (Or.inl rfl)
  | commit =>
    have hno : s.was_aborted tx = false := hok
    refine ⟨O.aborts, O.commits, fun hc => ?_, fun ha => ?_, O.once, by simp [TableOp.call],
      by simp [TableOp.call]⟩
    · obtain ⟨h1, h2, _⟩ := O.committed_stays hc
      exact ⟨h1, h2, by simp [TableOp.call], by simp [TableOp.call]⟩
    · rw [hno] at ha
      cases ha
  | abort =>
    obtain ⟨hno, hzero⟩ : s.was_committed tx = false ∧ ∀ i, s.executed tx i = 0 := hok
    refine ⟨O.aborts, O.commits, fun hc => ?_, by simp [TableOp.call], O.once, fun _ => hzero,
      by simp [TableOp.call]⟩
    rw [hno] at hc
    cases hc

/-- A step of a scan leaves the calls and the locks alone. -/
theorem outcomeInv_heap (I : OutcomeInv s) (heap : HeapPool) :
    OutcomeInv (s.noting { s.system with heap } s.executed) :=
  ⟨⟨I.locked.inv, I.locked.waits, I.locked.growing⟩, fun _ => I.other rfl rfl rfl⟩

theorem outcomeInv_next {s' : TxHistory} {e : TableEvent} (I : OutcomeInv s)
    (hok : EndsOnce s e) (h : s.next e = some s') : OutcomeInv s' := by
  obtain ⟨t, hn, rfl⟩ := Option.map_eq_some_iff.mp h
  cases e with
  | call tx op =>
    unfold next_in_any_order at hn
    simp only at hn
    split at hn
    · rename_i hc
      cases hn
      exact outcomeInv_call I hok (by rw [hc]; rfl)
    · rename_i hc
      cases hn
      exact outcomeInv_call I hok (by rw [hc]; rfl)
    · cases hn
  | step tx expired => exact outcomeInv_step I hn
  | fetch n | unpin n =>
    obtain ⟨heap, _, rfl⟩ := Option.map_eq_some_iff.mp hn
    exact outcomeInv_heap I heap

end

/-! ## The law -/

/-- When callers end each transaction once, every outcome is final, however the calls of the
transactions take turns and whichever locks time out. -/
theorem outcomes_are_final_when_transactions_end_once {s : TxHistory}
    (h : outcomeMachine.Reach EndsOnce s) : OutcomesAreFinal s := by
  have I : OutcomeInv s := h.invariant (fun _ => outcomeInv_start) fun _ _ _ I hok hn =>
    outcomeInv_next I hok hn
  intro tx
  have O := I.outcome tx
  refine ⟨fun ⟨ha, hc⟩ => ?_, fun hc u rest hcall => ?_, O.once⟩
  · rw [(O.committed_stays hc).2.1] at ha
    cases ha
  · exact (O.committed_stays hc).2.2.2 _ hcall

/-! ## Runs on fixed inputs -/

/-- Transactions over a table of one page. -/
def outcomes_open : TxHistory := ⟨new_table, fun _ => false, fun _ => false, fun _ _ => 0⟩

theorem outcomes_open_start : outcomeMachine.start outcomes_open := ⟨rfl, rfl, rfl, rfl, rfl⟩

/-- Nobody aborts, and nobody commits what was aborted. -/
def commits_once (s : TxHistory) : TableEvent → Bool
  | .call tx .commit => !s.was_aborted tx
  | .call _ .abort => false
  | _ => true

theorem endsOnce_of_check (s : TxHistory) (e : TableEvent) (h : commits_once s e = true) :
    EndsOnce s e := by
  cases e with
  | call tx op =>
    cases op with
    | commit =>
      have hno : (!s.was_aborted tx) = true := h
      rwa [Bool.not_eq_true'] at hno
    | abort => cases h
    | insert_tuple | get_tuple | delete_tuple | update_tuple => trivial
  | step | fetch | unpin => trivial

/-- Transaction 1 inserts a row. The read of transaction 2 waits until its time is over, and
transaction 1 commits. -/
theorem a_commit_beside_a_timeout_is_final : ∃ s : TxHistory, s.was_aborted 2 = true ∧
    s.was_committed 1 = true ∧ OutcomesAreFinal s := by
  obtain ⟨s, hr, hp⟩ := Machine.run_of_execIf_check (m := outcomeMachine) (s := outcomes_open)
    endsOnce_of_check
    (l := [.call 1 (.insert_tuple (some 1) [7]), .step 1 false, .step 1 false,
      .call 2 (.get_tuple ⟨some 1, 0⟩), .step 2 false, .step 2 true, .call 1 .commit, .step 1 false])
    (p := fun s => s.was_aborted 2 && s.was_committed 1) (by decide +kernel)
  rw [Bool.and_eq_true] at hp
  exact ⟨s, hp.1, hp.2, outcomes_are_final_when_transactions_end_once
    (Machine.Reach.run (.start outcomes_open_start) hr)⟩

/-- The lock request of transaction 2 times out, which aborts the transaction. Its commit asks for
no state, and sets its own. -/
theorem a_transaction_that_timed_out_commits :
    ¬ ∀ s, outcomeMachine.Reach always s → OutcomesAreFinal s := by
  intro h
  obtain ⟨s, hr, hp⟩ := Machine.run_of_exec_check (m := outcomeMachine) (s := outcomes_open)
    (l := [.call 1 (.delete_tuple ⟨some 1, 0⟩), .step 1 false, .call 2 (.get_tuple ⟨some 1, 0⟩),
      .step 2 false, .step 2 true, .call 2 .commit, .step 2 false])
    (p := fun s => s.was_aborted 2 && s.was_committed 2) (by decide +kernel)
  rw [Bool.and_eq_true] at hp
  exact (h s (Machine.Reach.run (.start outcomes_open_start) hr) 2).1 hp

end duck.table
