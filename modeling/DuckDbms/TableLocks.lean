-- The locks under the calls of a table: what the answer of the lock manager
-- says about the lock sets, and what each step of a call does to the locks.
import DuckDbms.TableLaws
import DuckDbms.LockLaws

open machine duck.buffer_pool duck.lock_manager duck.table_heap

namespace duck.table

/-! ## The answers of a lock call -/

/-- The transaction has a lock that allows what a lock of the mode allows. -/
def Covered (l : LockSystem) (tx : TransactionID) (rid : RID) : LockMode → Prop
  | .SHARED => rid ∈ (l.txs tx).shared_locks ∨ rid ∈ (l.txs tx).exclusive_locks
  | .EXCLUSIVE => rid ∈ (l.txs tx).exclusive_locks

/-- What a lock call leaves, for each of its answers, and for none. -/
def Answered (l : LockSystem) (tx : TransactionID) (rid : RID) (mode : LockMode) :
    Option Bool → Prop
  | some true => Covered l tx rid mode ∧ l.call tx = none ∧ (l.txs tx).state = .GROWING
  | some false => (l.txs tx).state ≠ .GROWING ∧ l.call tx = none
  | none => (∃ up, l.call tx = some (rid, mode, up)) ∧ (l.txs tx).state = .GROWING

/-- A lock call from its start, or from where it wakes up. -/
def lockCall (l : LockSystem) (tx : TransactionID) (rid : RID) (mode : LockMode)
    (expired : Bool) : LockSystem × Option Bool :=
  match wake l tx expired with
  | some r => r
  | none =>
    match mode with
    | .SHARED => lock_shared l tx rid
    | .EXCLUSIVE => lock_exclusive l tx rid

section
variable {l l' : LockSystem} {tx : TransactionID} {rid : RID} {mode : LockMode} {expired : Bool}

theorem covered_congr {U : TransactionID} (h : l'.txs U = l.txs U)
    (rid : RID) (mode : LockMode) : Covered l' U rid mode = Covered l U rid mode := by
  cases mode <;> simp [Covered, h]

theorem covered_grant (l : LockSystem) (tx : TransactionID) (rid : RID) (mode : LockMode) :
    Covered (grant l tx rid mode) tx rid mode := by
  cases mode with
  | SHARED => exact Or.inl ((grant_shared_locks _ _ _ _ _ _).mpr (Or.inr ⟨rfl, rfl, rfl⟩))
  | EXCLUSIVE => exact (grant_exclusive_locks _ _ _ _ _ _).mpr (Or.inr ⟨rfl, rfl, rfl⟩)

theorem state_grant (l : LockSystem) (tx U : TransactionID) (rid : RID) (mode : LockMode) :
    ((grant l tx rid mode).txs U).state = (l.txs U).state := by
  cases mode <;> by_cases h : U = tx <;> simp [grant, h]

theorem answered_request_lock (hg : (l.txs tx).state = .GROWING) (up : Bool) :
    Answered (request_lock l tx rid mode up).1 tx rid mode (request_lock l tx rid mode up).2 := by
  unfold request_lock
  simp only
  split
  · refine ⟨covered_grant _ _ _ _, ?_, ?_⟩
    · rw [grant_call, if_pos rfl]
    · rw [state_grant]
      exact hg
  · exact ⟨⟨up, by simp [enqueue, call_set_wait]⟩, by simpa [enqueue] using hg⟩

theorem answered_lock_shared (hc : l.call tx = none) :
    Answered (lock_shared l tx rid).1 tx rid .SHARED (lock_shared l tx rid).2 := by
  unfold lock_shared
  split
  · rename_i hs
    exact ⟨hs, hc⟩
  · rename_i hs
    rw [ne_eq, not_not] at hs
    split
    · rename_i hheld
      exact ⟨hheld, hc, hs⟩
    · exact answered_request_lock hs false

theorem answered_lock_exclusive (hc : l.call tx = none) :
    Answered (lock_exclusive l tx rid).1 tx rid .EXCLUSIVE (lock_exclusive l tx rid).2 := by
  unfold lock_exclusive
  split
  · rename_i hs
    exact ⟨hs, hc⟩
  · rename_i hs
    rw [ne_eq, not_not] at hs
    split
    · rename_i hheld
      exact ⟨hheld, hc, hs⟩
    · split
      · exact answered_request_lock (by simpa [release_shared] using hs) true
      · exact answered_request_lock hs false

theorem answered_wake {r : Option Bool} {up : Bool} (hc : l.call tx = some (rid, mode, up))
    (hg : (l.txs tx).state = .GROWING) (h : wake l tx expired = some (l', r)) :
    Answered l' tx rid mode r := by
  unfold wake at h
  obtain ⟨w, hw, he⟩ := Option.map_eq_some_iff.mp h
  have hcall : l.call tx = some (w.rid, w.lock_mode, w.upgrade) := by
    simp [LockSystem.call, hw]
  rw [hc] at hcall
  cases hcall
  split at he
  · cases he
    refine ⟨covered_grant _ _ _ _, ?_, ?_⟩
    · rw [grant_call, if_pos rfl]
    · rw [state_grant]
      exact hg
  · split at he
    · cases he
      refine ⟨?_, ?_⟩ <;> simp [time_out, call_set_wait]
    · cases he
      refine ⟨⟨w.upgrade, ?_⟩, hg⟩
      rw [call_set_wait, if_pos rfl]
      rfl

/-- A lock call leaves what its answer says. -/
theorem answered_lockCall (expired : Bool)
    (hc : ∀ r m up, l.call tx = some (r, m, up) → r = rid ∧ m = mode)
    (hg : l.call tx ≠ none → (l.txs tx).state = .GROWING) :
    Answered (lockCall l tx rid mode expired).1 tx rid mode
      (lockCall l tx rid mode expired).2 := by
  unfold lockCall
  cases hcall : l.call tx with
  | none =>
    have hw : wake l tx expired = none := by
      unfold wake
      rw [call_eq_none.mp hcall]
      rfl
    rw [hw]
    cases mode with
    | SHARED => exact answered_lock_shared hcall
    | EXCLUSIVE => exact answered_lock_exclusive hcall
  | some x =>
    obtain ⟨r, m, up⟩ := x
    obtain ⟨rfl, rfl⟩ := hc r m up hcall
    cases hw : wake l tx expired with
    | none =>
      rw [wake, Option.map_eq_none_iff] at hw
      rw [call_eq_none.mpr hw] at hcall
      cases hcall
    | some res => exact answered_wake hcall (hg (by rw [hcall]; simp)) hw

/-- A lock call is one section of the lock manager. -/
theorem lockCall_next (l : LockSystem) (tx : TransactionID) (rid : RID) (mode : LockMode)
    (expired : Bool) : ∃ e, e.tx = tx ∧ e ≠ .unlock_all tx ∧ (∀ state, e ≠ .set_state tx state) ∧
      lock_manager.next l e = some (lockCall l tx rid mode expired).1 := by
  unfold lockCall
  cases hw : wake l tx expired with
  | none =>
    rw [wake, Option.map_eq_none_iff] at hw
    cases mode with
    | SHARED => exact ⟨.lock_shared tx rid, rfl, by simp, by simp, by simp [next, hw]⟩
    | EXCLUSIVE => exact ⟨.lock_exclusive tx rid, rfl, by simp, by simp, by simp [next, hw]⟩
  | some r =>
    cases expired with
    | false => exact ⟨.wake tx, rfl, by simp, by simp, by simp [next, hw]⟩
    | true => exact ⟨.timeout tx, rfl, by simp, by simp, by simp [next, hw]⟩

/-- A lock call leaves the state of its transaction, or aborts it. -/
theorem state_lockCall (l : LockSystem) (tx : TransactionID) (rid : RID) (mode : LockMode)
    (expired : Bool) : ((lockCall l tx rid mode expired).1.txs tx).state = (l.txs tx).state ∨
      (l.call tx ≠ none ∧ ((lockCall l tx rid mode expired).1.txs tx).state = .ABORTED) := by
  have hreq : ∀ (k : LockSystem) (m : LockMode) (up : Bool),
      ((request_lock k tx rid m up).1.txs tx).state = (k.txs tx).state := by
    intro k m up
    rcases request_lock_cases k tx rid m up with ⟨_, h⟩ | h <;> rw [h]
    · rw [state_grant]
      rfl
    · rfl
  unfold lockCall
  cases hw : wake l tx expired with
  | none =>
    left
    cases mode with
    | SHARED =>
      rcases lock_shared_cases l tx rid with h | ⟨_, h⟩ <;> simp only [h]
      rw [hreq]
    | EXCLUSIVE =>
      rcases lock_exclusive_cases l tx rid with h | ⟨_, _, ⟨_, h⟩ | ⟨_, h⟩⟩ <;> simp only [h]
      · rw [hreq]
        simp [release_shared]
      · rw [hreq]
  | some r =>
    obtain ⟨w, hwait, ⟨_, h⟩ | h | h⟩ := wake_cases (t := r.1) (by rw [hw]; rfl) <;> simp only [h]
    · exact Or.inl (state_grant _ _ _ _ _)
    · refine Or.inr ⟨?_, by simp [time_out]⟩
      rw [ne_eq, call_eq_none, hwait]
      simp
    · exact Or.inl rfl

/-! ## The locks that a lock call takes -/

theorem held_grant {U : TransactionID} {r : RID}
    (h : Covered (grant l tx rid mode) U r .SHARED) :
    Covered l U r .SHARED ∨ (U = tx ∧ r = rid) := by
  rcases h with h | h
  · rw [grant_shared_locks] at h
    exact h.imp Or.inl fun h => ⟨h.1, h.2.1⟩
  · rw [grant_exclusive_locks] at h
    exact h.imp Or.inr fun h => ⟨h.1, h.2.1⟩

theorem held_request_lock {U : TransactionID} {r : RID} {up : Bool}
    (h : Covered (request_lock l tx rid mode up).1 U r .SHARED) :
    Covered l U r .SHARED ∨ (U = tx ∧ r = rid ∧ (request_lock l tx rid mode up).2 = some true) := by
  unfold request_lock at h ⊢
  simp only at h ⊢
  split at h
  · rename_i hg
    rw [if_pos hg]
    exact (held_grant h).imp (fun h => h) fun h => ⟨h.1, h.2, rfl⟩
  · exact Or.inl h

/-- A lock call takes the lock that it asks for, when it is granted, and no other one. -/
theorem held_lockCall (l : LockSystem) (tx : TransactionID) (rid : RID) (mode : LockMode)
    (expired : Bool) {U : TransactionID} {r : RID}
    (h : Covered (lockCall l tx rid mode expired).1 U r .SHARED) :
    Covered l U r .SHARED ∨ (U = tx ∧ (lockCall l tx rid mode expired).2 = some true ∧
      (r = rid ∨ ∃ w, l.waits tx = some w ∧ r = w.rid)) := by
  unfold lockCall at h ⊢
  cases hw : wake l tx expired with
  | none =>
    rw [hw] at h
    cases mode with
    | SHARED =>
      simp only at h ⊢
      unfold lock_shared at h ⊢
      split at h
      · exact Or.inl h
      · split at h
        · exact Or.inl h
        · rename_i h1 h2
          rw [if_neg h1, if_neg h2]
          exact (held_request_lock h).imp (fun h => h) fun h => ⟨h.1, h.2.2, Or.inl h.2.1⟩
    | EXCLUSIVE =>
      simp only at h ⊢
      unfold lock_exclusive at h ⊢
      split at h
      · exact Or.inl h
      · split at h
        · exact Or.inl h
        · rename_i h1 h2
          rw [if_neg h1, if_neg h2]
          split at h
          · rename_i h3
            rw [if_pos h3]
            refine (held_request_lock h).imp (fun h => ?_) fun h => ⟨h.1, h.2.2, Or.inl h.2.1⟩
            -- what is left after the shared lock is given up
            by_cases hU : U = tx
            · subst hU
              simp only [Covered, release_shared, txs_set_tx, if_pos] at h
              exact h.imp (fun h => (List.mem_filter.mp h).1) fun h => h
            · simpa [Covered, release_shared, hU] using h
          · rename_i h3
            rw [if_neg h3]
            exact (held_request_lock h).imp (fun h => h) fun h => ⟨h.1, h.2.2, Or.inl h.2.1⟩
  | some res =>
    rw [hw] at h
    simp only at h ⊢
    unfold wake at hw
    obtain ⟨w, hwait, he⟩ := Option.map_eq_some_iff.mp hw
    split at he
    · cases he
      exact (held_grant h).imp (fun h => h) fun h => ⟨h.1, rfl, Or.inr ⟨w, hwait, h.2⟩⟩
    · left
      split at he
      · cases he
        by_cases hU : U = tx
        · subst hU
          simpa [Covered, time_out] using h
        · simpa [Covered, time_out, hU] using h
      · cases he
        exact h

theorem exclusive_lockCall (tx : TransactionID) (rid : RID) (mode : LockMode) (expired : Bool)
    {U : TransactionID} {r : RID}
    (h : r ∈ (l.txs U).exclusive_locks) :
    r ∈ ((lockCall l tx rid mode expired).1.txs U).exclusive_locks := by
  obtain ⟨e, he, hne, _, hn⟩ := lockCall_next l tx rid mode expired
  refine exclusive_kept hn (fun heq => ?_) h
  rw [heq] at he
  cases he
  exact hne heq

theorem can_grant_free (I : LockInv l) (hfree : ∀ U, U ≠ tx → ¬ Covered l U rid .SHARED)
    {q : List LockRequest} (hq : ∀ x ∈ q, x ∈ l.lock_table rid) :
    can_grant q ⟨tx, mode, false⟩ = true := by
  rw [can_grant_iff]
  intro x hx hgr hne
  exfalso
  obtain ⟨U, m, g⟩ := x
  simp only at hgr hne
  subst hgr
  apply hfree U hne
  cases m with
  | SHARED => exact Or.inl ((I.shared rid U).mpr (hq _ hx))
  | EXCLUSIVE => exact Or.inr ((I.exclusive rid U).mpr (hq _ hx))

/-- A growing transaction gets a lock on a tuple that nobody else has locked. -/
theorem lockCall_grants (mode : LockMode) (expired : Bool) (I : LockInv l) (hg : (l.txs tx).state = .GROWING)
    (hc : ∀ r m up, l.call tx = some (r, m, up) → r = rid)
    (hfree : ∀ U, U ≠ tx → ¬ Covered l U rid .SHARED) :
    (lockCall l tx rid mode expired).2 = some true := by
  have hgrant : ∀ (k : LockSystem) (m : LockMode) (up : Bool),
      (∀ q ∈ k.lock_table rid, q ∈ l.lock_table rid) → (request_lock k tx rid m up).2 = some true := by
    intro k m up hsub
    unfold request_lock
    simp only
    rw [if_pos]
    simp only [enqueue, queue_set_wait, queue_set_queue, if_pos]
    rw [can_grant_append_own]
    exact can_grant_free I hfree hsub
  unfold lockCall
  cases hw : wake l tx expired with
  | some res =>
    unfold wake at hw
    obtain ⟨w, hwait, he⟩ := Option.map_eq_some_iff.mp hw
    obtain rfl := hc w.rid w.lock_mode w.upgrade (by simp [LockSystem.call, hwait])
    rw [if_pos (can_grant_free I hfree fun _ h => h)] at he
    cases he
    rfl
  | none =>
    cases mode with
    | SHARED =>
      simp only [lock_shared, hg, ne_eq, not_true_eq_false, if_false]
      split
      · rfl
      · exact hgrant l _ _ fun q hq => hq
    | EXCLUSIVE =>
      simp only [lock_exclusive, hg, ne_eq, not_true_eq_false, if_false]
      split
      · rfl
      · split
        · refine hgrant _ _ _ fun q hq => ?_
          simp only [release_shared, queue_set_tx, queue_set_queue, if_pos] at hq
          exact (List.mem_filter.mp hq).1
        · exact hgrant l _ _ fun q hq => hq

end

/-! ## What a step does to the locks -/

/-- The call is one of those that end a transaction. -/
def TableCall.ending : TableCall → Bool
  | .commit | .abort | .undo _ | .ended => true
  | _ => false

/-- The RID on which the call has placed a tuple and has yet to get its lock, or to take the
tuple back. -/
def TableCall.placed : TableCall → Option RID
  | .lock_inserted rid | .delete_inserted rid => some rid
  | .lock_moved _ _ ret_rid => some ret_rid
  | _ => none

/-- The page of a RID can be fetched. -/
def reaches (b : BufferPoolManager) (rid : RID) : Bool :=
  match b.fetch_page rid.page_id with
  | (.ok (some _), _) => true
  | _ => false

theorem ending_of_wants {c : TableCall} {x : RID × LockMode} (h : c.wants = some x) :
    c.ending = false ∧ c.refused.ending = false ∧ c.granted.ending = false := by
  cases c with
  | lock_inserted | lock_read | lock_deleted | lock_updated | lock_moved => exact ⟨rfl, rfl, rfl⟩
  | done | ended | insert | delete_inserted | read | read_deleted | delete | read_updated | update
  | commit | abort | undo => cases h

/-- How a call and its log go on after a call of the heap, whatever the heap holds. -/
inductive HeapMove (log : List UndoRecord) : TableCall → TableCall → List UndoRecord → Prop
  | inserted {h : PageID} {t : List UInt8} {rid : RID} :
      HeapMove log (.insert h t) (.lock_inserted rid) log
  | returned {c : TableCall} {r : Except String TableResult} : c.ending = false → Refused r →
      HeapMove log c (.done r) log
  | found_deleted {rid : RID} {old : List UInt8} :
      HeapMove log (.read_deleted rid) (.delete rid old) log
  | deleted {rid : RID} {old : List UInt8} : HeapMove log (.delete rid old)
      (.done (.ok (.deleted true))) (.RestoreUndoRecord rid old :: log)
  | found_updated {h : PageID} {rid : RID} {t old : List UInt8} :
      HeapMove log (.read_updated h rid t) (.update h rid t old) log
  | updated {h : PageID} {rid : RID} {t old : List UInt8} : HeapMove log (.update h rid t old)
      (.done (.ok (.placed (some rid))))
      (.DeleteUndoRecord rid :: .RestoreUndoRecord rid old :: log)
  | moved {h : PageID} {rid ret_rid : RID} {t old : List UInt8} : ret_rid ≠ rid →
      HeapMove log (.update h rid t old) (.lock_moved rid old ret_rid) log
  | undone {u : UndoRecord} {rest : List UndoRecord} :
      HeapMove log (.undo (u :: rest)) (.undo rest) log
  | failed {u : UndoRecord} {rest : List UndoRecord} {e : String} :
      HeapMove log (.undo (u :: rest)) (.done (.error e)) log

/-- Everything that a step can do, with what the heap holds left open. -/
inductive TableStep (s : TableSystem) (tx : TransactionID) (expired : Bool) : TableSystem → Prop
  | asleep {rid : RID} {mode : LockMode} {l : LockSystem} :
      (s.txs tx).call.wants = some (rid, mode) →
      lockCall s.locks tx rid mode expired = (l, none) →
      TableStep s tx expired { s with locks := l }
  | granted {rid : RID} {mode : LockMode} {l : LockSystem} :
      (s.txs tx).call.wants = some (rid, mode) →
      lockCall s.locks tx rid mode expired = (l, some true) →
      TableStep s tx expired (({ s with locks := l } : TableSystem).after s.heap.pool tx
        ((s.txs tx).call.logs ++ (s.txs tx).undo_log) (s.txs tx).call.granted)
  | refused {rid : RID} {mode : LockMode} {l : LockSystem} :
      (s.txs tx).call.wants = some (rid, mode) →
      lockCall s.locks tx rid mode expired = (l, some false) →
      TableStep s tx expired (({ s with locks := l } : TableSystem).after s.heap.pool tx
        (s.txs tx).undo_log (s.txs tx).call.refused)
  | committed : (s.txs tx).call = .commit →
      TableStep s tx expired ((s.set_state tx .SHRINKING).finish tx .COMMITTED)
  | aborting : (s.txs tx).call = .abort →
      TableStep s tx expired
        ((s.set_state tx .SHRINKING).go_on s.heap.pool tx (.undo (s.txs tx).undo_log))
  | aborted : (s.txs tx).call = .undo [] → TableStep s tx expired (s.finish tx .ABORTED)
  | heap {b : BufferPoolManager} {log : List UndoRecord} {call : TableCall} :
      HeapMove (s.txs tx).undo_log (s.txs tx).call call log →
      (s.txs tx).call.calls_heap = true → TableStep s tx expired (s.after b tx log call)

section
variable {s t : TableSystem} {tx : TransactionID} {expired : Bool}

theorem refused_error (e : String) : Refused (.error e) := fun _ h => by cases h

theorem refused_ok {r : TableResult} (h : r.changed = false) : Refused (.ok r) := by
  intro r' hr
  cases hr
  exact h

theorem lock_eq (s : TableSystem) (tx : TransactionID) (rid : RID) (mode : LockMode)
    (expired : Bool) (answered : Bool → TableSystem → TableSystem) :
    s.lock tx rid mode expired answered =
      match lockCall s.locks tx rid mode expired with
      | (l, some granted) => answered granted { s with locks := l }
      | (l, none) => { s with locks := l } := by
  unfold TableSystem.lock lockCall
  simp only
  generalize wake s.locks tx expired = woken
  rcases woken with _ | ⟨l, _ | granted⟩
  · simp only
    cases mode with
    | SHARED =>
      simp only
      obtain ⟨l, _ | granted⟩ := lock_shared s.locks tx rid <;> rfl
    | EXCLUSIVE =>
      simp only
      obtain ⟨l, _ | granted⟩ := lock_exclusive s.locks tx rid <;> rfl
  · rfl
  · rfl

theorem table_step_asks {rid : RID} {mode : LockMode}
    (hw : (s.txs tx).call.wants = some (rid, mode)) (h : table_step s tx expired = some t) :
    TableStep s tx expired t := by
  rw [table_step_lock hw, lock_eq] at h
  cases h
  cases hl : lockCall s.locks tx rid mode expired with
  | mk l r =>
    cases r with
    | none => exact .asleep hw hl
    | some granted =>
      cases granted with
      | true => exact .granted hw hl
      | false => exact .refused hw hl

theorem table_step_cases (h : table_step s tx expired = some t) : TableStep s tx expired t := by
  cases hw : (s.txs tx).call.wants with
  | some x => exact table_step_asks hw h
  | none =>
    -- a move of the call that it stands at
    have heap : ∀ {c call : TableCall} {b : BufferPoolManager} {log : List UndoRecord},
        (s.txs tx).call = c → HeapMove (s.txs tx).undo_log c call log → c.calls_heap = true →
        TableStep s tx expired (s.after b tx log call) := by
      rintro c call b log rfl hm hh
      exact .heap hm hh
    unfold table_step at h
    cases hc : (s.txs tx).call with
    | lock_inserted | lock_moved | lock_read | lock_deleted | lock_updated =>
      rw [hc] at hw
      cases hw
    | done | ended =>
      rw [hc] at h
      cases h
    | insert =>
      simp only [hc] at h
      obtain ⟨⟨r, b⟩, _, rfl⟩ := Option.map_eq_some_iff.mp h
      rcases r with e | _ | rid
      · exact heap hc (.returned rfl (refused_error e)) rfl
      · exact heap hc (.returned rfl (refused_ok rfl)) rfl
      · exact heap hc .inserted rfl
    | delete_inserted =>
      simp only [hc] at h
      split at h <;> cases h
      · exact heap hc (.returned rfl (refused_error _)) rfl
      · exact heap hc (.returned rfl (refused_ok rfl)) rfl
    | read =>
      simp only [hc] at h
      split at h <;> cases h
      · exact heap hc (.returned rfl (refused_error _)) rfl
      · exact heap hc (.returned rfl (refused_ok rfl)) rfl
    | read_deleted =>
      simp only [hc] at h
      split at h <;> cases h
      · exact heap hc (.returned rfl (refused_error _)) rfl
      · exact heap hc (.returned rfl (refused_ok rfl)) rfl
      · exact heap hc .found_deleted rfl
    | read_updated =>
      simp only [hc] at h
      split at h <;> cases h
      · exact heap hc (.returned rfl (refused_error _)) rfl
      · exact heap hc (.returned rfl (refused_ok rfl)) rfl
      · exact heap hc .found_updated rfl
    | delete =>
      simp only [hc] at h
      split at h <;> cases h
      · exact heap hc (.returned rfl (refused_error _)) rfl
      · exact heap hc (.returned rfl (refused_ok rfl)) rfl
      · rw [push_undo_go_on]
        exact heap hc .deleted rfl
    | update =>
      simp only [hc] at h
      obtain ⟨⟨r, b⟩, _, rfl⟩ := Option.map_eq_some_iff.mp h
      rcases r with e | _ | ret_rid
      · exact heap hc (.returned rfl (refused_error e)) rfl
      · exact heap hc (.returned rfl (refused_ok rfl)) rfl
      · simp only
        split
        · rename_i hne
          exact heap hc (.moved hne) rfl
        · rename_i hsame
          obtain rfl := not_not.mp hsame
          rw [push_undo_go_on]
          exact heap hc .updated rfl
    | commit =>
      simp only [hc] at h
      cases h
      exact .committed hc
    | abort =>
      simp only [hc] at h
      cases h
      exact .aborting hc
    | undo records =>
      rcases records with _ | ⟨⟨rid⟩ | ⟨rid, tuple⟩, rest⟩
      · simp only [hc] at h
        cases h
        exact .aborted hc
      · simp only [hc] at h
        split at h <;> cases h
        · exact heap hc .failed rfl
        · exact heap hc .undone rfl
      · simp only [hc] at h
        obtain ⟨⟨r, b⟩, _, rfl⟩ := Option.map_eq_some_iff.mp h
        rcases r with e | _
        · exact heap hc .failed rfl
        · exact heap hc .undone rfl

end

/-! ## Calls and the locks that they wait for -/

/-- The lock table is sound, a transaction waits for the lock that its call asks for, and only
growing transactions wait. -/
structure TableLocked (s : TableSystem) : Prop where
  inv : LockInv s.locks
  waits : ∀ tx rid mode up, s.locks.call tx = some (rid, mode, up) →
    (s.txs tx).call.wants = some (rid, mode)
  growing : ∀ tx, s.locks.call tx ≠ none → (s.locks.txs tx).state = .GROWING

section
variable {s t : TableSystem} {tx : TransactionID} {expired : Bool}

theorem TableLocked.idle (I : TableLocked s) (h : (s.txs tx).call.wants = none) :
    s.locks.call tx = none := by
  by_contra hne
  obtain ⟨⟨rid, mode, up⟩, hc⟩ := Option.ne_none_iff_exists'.mp hne
  have hw := I.waits tx rid mode up hc
  rw [h] at hw
  cases hw

theorem TableLocked.answered (I : TableLocked s) {rid : RID} {mode : LockMode} {l : LockSystem}
    {r : Option Bool} (hw : (s.txs tx).call.wants = some (rid, mode))
    (hl : lockCall s.locks tx rid mode expired = (l, r)) : Answered l tx rid mode r := by
  have h := answered_lockCall expired (fun r m up hc => by
      have hw' := I.waits tx r m up hc
      rw [hw] at hw'
      cases hw'
      exact ⟨rfl, rfl⟩) (I.growing tx)
  rw [hl] at h
  exact h

/-- The locks of the others stay, and those of the transaction itself are as its new call says. -/
theorem TableLocked.own (tx : TransactionID) (I : TableLocked s) (hinv : LockInv t.locks)
    (htxs : ∀ U, U ≠ tx → t.txs U = s.txs U)
    (hothers : ∀ U, U ≠ tx → t.locks.txs U = s.locks.txs U ∧ t.locks.call U = s.locks.call U)
    (hown : t.locks.call tx = none ∨ (t.locks.txs tx).state = .GROWING ∧
      ∃ rid mode up, t.locks.call tx = some (rid, mode, up) ∧
        (t.txs tx).call.wants = some (rid, mode)) : TableLocked t := by
  refine ⟨hinv, fun U rid mode up hc => ?_, fun U hc => ?_⟩
  · by_cases hU : U = tx
    · subst hU
      rcases hown with h | ⟨_, r, m, u, h, hw⟩
      · rw [h] at hc
        cases hc
      · rw [h] at hc
        cases hc
        exact hw
    · rw [htxs U hU]
      rw [(hothers U hU).2] at hc
      exact I.waits U rid mode up hc
  · by_cases hU : U = tx
    · subst hU
      rcases hown with h | ⟨hg, _⟩
      · exact absurd h hc
      · exact hg
    · rw [(hothers U hU).1]
      rw [(hothers U hU).2] at hc
      exact I.growing U hc

theorem lockInv_set_state {l : LockSystem} (h : LockInv l) (tx : TransactionID)
    {state : TransactionState} (hs : state ≠ .GROWING) :
    LockInv (l.set_tx tx { l.txs tx with state }) :=
  lockInv_next (e := .set_state tx state) h (by rw [next, if_pos hs])

theorem finish_locks (s : TableSystem) (tx : TransactionID) (state : TransactionState) :
    (s.finish tx state).locks =
      (unlock_all s.locks tx).set_tx tx { (unlock_all s.locks tx).txs tx with state } := rfl

theorem finish_other {U : TransactionID} (hU : U ≠ tx) (s : TableSystem)
    (state : TransactionState) : (s.finish tx state).txs U = s.txs U ∧
      (s.finish tx state).locks.txs U = s.locks.txs U := by
  refine ⟨Function.update_of_ne hU _ _, ?_⟩
  rw [finish_locks, txs_set_tx, if_neg hU, unlock_all_txs, if_neg hU]

theorem TableLocked.finish (I : TableLocked s) (hc : s.locks.call tx = none)
    {state : TransactionState} (hs : state ≠ .GROWING) : TableLocked (s.finish tx state) := by
  refine I.own tx ?_ (fun U hU => (finish_other hU s state).1) (fun U hU => ?_) (Or.inl ?_)
  · rw [finish_locks]
    exact lockInv_set_state (lockInv_unlock_all I.inv hc) tx hs
  · refine ⟨(finish_other hU s state).2, ?_⟩
    rw [finish_locks, call_set_tx, unlock_all_call]
  · rw [finish_locks, call_set_tx, unlock_all_call]
    exact hc

theorem TableLocked.set_state (I : TableLocked s) (hc : s.locks.call tx = none)
    {state : TransactionState} (hs : state ≠ .GROWING) : TableLocked (s.set_state tx state) := by
  refine I.own tx (lockInv_set_state I.inv tx hs) (fun _ _ => rfl) (fun U hU => ⟨?_, rfl⟩)
    (Or.inl hc)
  exact (txs_set_tx ..).trans (if_neg hU)

theorem TableLocked.go_on (I : TableLocked s) (hc : s.locks.call tx = none)
    (b : BufferPoolManager) (log : List UndoRecord) (call : TableCall) :
    TableLocked (s.after b tx log call) :=
  I.own tx I.inv (fun _ hU => Function.update_of_ne hU _ _) (fun _ _ => ⟨rfl, rfl⟩)
    (Or.inl hc)

theorem tableLocked_step (I : TableLocked s) (h : table_step s tx expired = some t) :
    TableLocked t := by
  have hlock : ∀ {rid mode l r}, lockCall s.locks tx rid mode expired = (l, r) →
      LockInv l ∧ ∀ U, U ≠ tx → l.txs U = s.locks.txs U ∧ l.call U = s.locks.call U := by
    intro rid mode l r hl
    obtain ⟨e, he, _, _, hn⟩ := lockCall_next s.locks tx rid mode expired
    rw [hl] at hn
    exact ⟨lockInv_next I.inv hn, fun U hU => next_other hn (by rwa [he])⟩
  cases table_step_cases h with
  | asleep hw hl =>
    obtain ⟨⟨up, hc⟩, hg⟩ := I.answered hw hl
    exact I.own tx (hlock hl).1 (fun _ _ => rfl) (hlock hl).2 (Or.inr ⟨hg, _, _, up, hc, hw⟩)
  | granted hw hl =>
    exact I.own tx (hlock hl).1 (fun _ hU => Function.update_of_ne hU _ _) (hlock hl).2
      (Or.inl (I.answered hw hl).2.1)
  | refused hw hl =>
    exact I.own tx (hlock hl).1 (fun _ hU => Function.update_of_ne hU _ _) (hlock hl).2
      (Or.inl (I.answered hw hl).2)
  | committed hc =>
    have hidle : s.locks.call tx = none := I.idle (by rw [hc]; rfl)
    exact (I.set_state hidle (by simp)).finish hidle (by simp)
  | aborting hc =>
    have hidle : s.locks.call tx = none := I.idle (by rw [hc]; rfl)
    exact (I.set_state hidle (by simp)).go_on hidle _ _ _
  | aborted hc => exact I.finish (I.idle (by rw [hc]; rfl)) (by simp)
  | heap _ hc =>
    refine I.go_on (I.idle ?_) _ _ _
    cases hcall : (s.txs tx).call <;> rw [hcall] at hc <;> first | rfl | cases hc

/-- A step changes the call, the log and the locks of its own transaction only. -/
theorem table_step_other (h : table_step s tx expired = some t) {U : TransactionID}
    (hU : U ≠ tx) : t.txs U = s.txs U ∧ t.locks.txs U = s.locks.txs U := by
  have hlock : ∀ {rid mode l r}, lockCall s.locks tx rid mode expired = (l, r) →
      l.txs U = s.locks.txs U := by
    intro rid mode l r hl
    obtain ⟨e, he, _, _, hn⟩ := lockCall_next s.locks tx rid mode expired
    rw [hl] at hn
    exact (next_other hn (by rwa [he])).1
  have hstate : ∀ state, (s.set_state tx state).locks.txs U = s.locks.txs U :=
    fun state => (txs_set_tx ..).trans (if_neg hU)
  cases table_step_cases h with
  | asleep _ hl => exact ⟨rfl, hlock hl⟩
  | granted _ hl | refused _ hl => exact ⟨Function.update_of_ne hU _ _, hlock hl⟩
  | committed =>
    obtain ⟨h1, h2⟩ := finish_other hU (s.set_state tx .SHRINKING) .COMMITTED
    exact ⟨h1, h2.trans (hstate _)⟩
  | aborting => exact ⟨Function.update_of_ne hU _ _, hstate _⟩
  | aborted => exact finish_other hU s .ABORTED
  | heap => exact ⟨Function.update_of_ne hU _ _, rfl⟩

/-! ## Transactions that take no part -/

/-- The transactions of the calls and the steps. -/
def TableEvent.among (who : List TransactionID) : TableEvent → Bool
  | .call tx _ | .step tx _ => who.contains tx
  | .fetch _ | .unpin _ => true

/-- The others stand in no call, and have locked nothing. -/
def Bystanders (who : List TransactionID) (s : TableSystem) : Prop :=
  ∀ U, U ∉ who → s.txs U = {} ∧ s.locks.txs U = {}

theorem bystanders_next {who : List TransactionID} {e : TableEvent} (B : Bystanders who s)
    (he : e.among who = true) (h : s.next e = some t) : Bystanders who t := by
  intro U hU
  rw [← (B U hU).1, ← (B U hU).2]
  cases e with
  | fetch | unpin =>
    obtain ⟨heap, _, rfl⟩ := Option.map_eq_some_iff.mp h
    exact ⟨rfl, rfl⟩
  | call tx op =>
    have hne : U ≠ tx := by
      rintro rfl
      exact hU (List.contains_iff_mem.mp he)
    unfold TableSystem.next at h
    simp only at h
    split at h
    · cases h
      exact ⟨Function.update_of_ne hne _ _, rfl⟩
    · cases h
  | step tx expired =>
    have hne : U ≠ tx := by
      rintro rfl
      exact hU (List.contains_iff_mem.mp he)
    exact table_step_other h hne

end

end duck.table
