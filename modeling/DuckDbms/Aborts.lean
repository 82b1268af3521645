-- The transaction manager: how a transaction ends, what an exception of an undo
-- record leaves behind, and what the records do when others hold the frames.
import DuckDbms.CatalogChains
import DuckDbms.LockLaws
import DuckDbms.RefusedLocks

open machine duck.slotted_page duck.disk_manager duck.buffer_pool duck.lock_manager
open duck.table_heap duck.table duck.tuple chain

namespace duck.catalog

/-! ## The transaction manager -/

/-- `active_txs_` has the ids of its transactions. -/
structure TransactionManager where
  system : CatalogSystem
  next_tx_id : TransactionID
  active_txs : List TransactionID

namespace TransactionManager

variable (m : TransactionManager)

/-- A new transaction is growing, holds no lock and has no log. -/
def begin_ : TransactionID × TransactionManager :=
  (m.next_tx_id,
    { system := { m.system with
        locks := m.system.locks.set_tx m.next_tx_id {}
        undo_log := Function.update m.system.undo_log m.next_tx_id [] }
      next_tx_id := m.next_tx_id + 1
      active_txs := m.active_txs.insert m.next_tx_id })

/-- The end of `commit` and of `abort`. -/
def finish (tx : TransactionID) (state : TransactionState) : TransactionManager :=
  { m with
    system := ({ m.system with locks := unlock_all m.system.locks tx }).set_state tx state
    active_txs := m.active_txs.filter fun id => id ≠ tx }

def commit (tx : TransactionID) : TransactionManager :=
  { m with system := m.system.set_state tx .SHRINKING }.finish tx .COMMITTED

/-- An exception of a record leaves `abort` at once. -/
def abort (tx : TransactionID) : Option (Except Failure Unit × TransactionManager) :=
  (undo (m.system.set_state tx .SHRINKING) (m.system.undo_log tx)).map fun
    | (.error e, s) => (.error e, { m with system := s })
    | (.ok (), s) => (.ok (), { m with system := s }.finish tx .ABORTED)

end TransactionManager

/-! ## Exceptions of the records -/

/-- All the records are undone, also after one that throws. -/
inductive RunsAll : CatalogSystem → List UndoRecord → CatalogSystem → Prop
  | nil {s : CatalogSystem} : RunsAll s [] s
  | cons {s t u : CatalogSystem} {record : UndoRecord} {rest : List UndoRecord}
      {r : Except Failure Unit} : s.undo_record record = some (r, t) → RunsAll t rest u →
      RunsAll s (record :: rest) u

/-- What an abort owes its transaction: every record of the log was undone, its locks are
released, and it is aborted and not active any more. -/
structure CleansUp (m : TransactionManager) (tx : TransactionID) (m' : TransactionManager) :
    Prop where
  undone : ∃ u, RunsAll (m.system.set_state tx .SHRINKING) (m.system.undo_log tx) u ∧
    m'.system.heap = u.heap ∧ m'.system.tables = u.tables
  released : (m'.system.locks.txs tx).shared_locks = [] ∧
    (m'.system.locks.txs tx).exclusive_locks = [] ∧
    ∀ rid, ∀ r ∈ m'.system.locks.lock_table rid, r.tx_id ≠ tx
  aborted : (m'.system.locks.txs tx).state = .ABORTED
  inactive : tx ∉ m'.active_txs

/-- No record throws when its turn comes, after the ones before it. -/
def NoneThrows (s : CatalogSystem) : List UndoRecord → Prop
  | [] => True
  | record :: rest => ∃ t, s.undo_record record = some (.ok (), t) ∧ NoneThrows t rest

section
variable {s t : CatalogSystem} {m m' : TransactionManager} {tx : TransactionID}

/-- A record takes and releases no lock, and adds nothing to a log. -/
theorem undo_record_keeps {record : UndoRecord} {r : Except Failure Unit}
    (h : s.undo_record record = some (r, t)) : t.locks = s.locks ∧ t.undo_log = s.undo_log := by
  rcases record with (rid | ⟨rid, tuple⟩) | name
  · cases h
    exact ⟨rfl, rfl⟩
  · obtain ⟨⟨r, b⟩, _, hr⟩ := Option.map_eq_some_iff.mp h
    cases hr
    exact ⟨rfl, rfl⟩
  · unfold CatalogSystem.undo_record CatalogSystem.delete_table at h
    simp only at h
    split at h
    · cases h
    · obtain ⟨⟨r, b⟩, _, hr⟩ := Option.map_eq_some_iff.mp h
      rcases r with e | ⟨_, _ | _⟩ <;>
      · cases hr
        exact ⟨rfl, rfl⟩

theorem undo_locks {records : List UndoRecord} {r : Except Failure Unit}
    (h : undo s records = some (r, t)) : t.locks = s.locks := by
  induction records generalizing s with
  | nil =>
    cases h
    rfl
  | cons record rest ih =>
    obtain ⟨⟨r1, s1⟩, h1, h2⟩ := Option.bind_eq_some_iff.mp h
    have hk := (undo_record_keeps h1).1
    rcases r1 with e | _
    · cases h2
      exact hk
    · exact (ih h2).trans hk

/-- The loop comes to its end if and only if no record throws. -/
theorem undo_ok_iff {records : List UndoRecord} :
    (∃ t, undo s records = some (.ok (), t)) ↔ NoneThrows s records := by
  induction records generalizing s with
  | nil => exact ⟨fun _ => trivial, fun _ => ⟨s, rfl⟩⟩
  | cons record rest ih =>
    constructor
    · rintro ⟨t, h⟩
      obtain ⟨⟨r1, s1⟩, h1, h2⟩ := Option.bind_eq_some_iff.mp h
      rcases r1 with e | _
      · cases h2
      · exact ⟨s1, h1, ih.mp ⟨t, h2⟩⟩
    · rintro ⟨s1, h1, h2⟩
      obtain ⟨t, ht⟩ := ih.mpr h2
      refine ⟨t, ?_⟩
      unfold undo
      rw [h1]
      exact ht

theorem runsAll_of_undo {records : List UndoRecord} (h : undo s records = some (.ok (), t)) :
    RunsAll s records t := by
  induction records generalizing s with
  | nil =>
    cases h
    exact .nil
  | cons record rest ih =>
    obtain ⟨⟨r1, s1⟩, h1, h2⟩ := Option.bind_eq_some_iff.mp h
    rcases r1 with e | _
    · cases h2
    · exact .cons h1 (ih h2)

/-- The locks that are left when a transaction has ended. -/
theorem finish_releases (hl : lockMachine.Reach always m.system.locks)
    (hw : m.system.locks.waits tx = none) (state : TransactionState) :
    (((m.finish tx state).system.locks.txs tx).shared_locks = [] ∧
      ((m.finish tx state).system.locks.txs tx).exclusive_locks = [] ∧
      ∀ rid, ∀ r ∈ (m.finish tx state).system.locks.lock_table rid, r.tx_id ≠ tx) ∧
    ((m.finish tx state).system.locks.txs tx).state = state ∧ tx ∉ (m.finish tx state).active_txs := by
  have hx := unlock_all_txs m.system.locks tx tx
  rw [if_pos rfl] at hx
  refine ⟨⟨?_, ?_, ?_⟩, ?_, ?_⟩
  · simp [TransactionManager.finish, CatalogSystem.set_state, LockSystem.set_tx, hx]
  · simp [TransactionManager.finish, CatalogSystem.set_state, LockSystem.set_tx, hx]
  · intro rid r hr
    exact ((unlock_all_mem (lockInv_reach hl) (call_eq_none.mpr hw) rid r).mp hr).2
  · simp [TransactionManager.finish, CatalogSystem.set_state, LockSystem.set_tx]
  · simp [TransactionManager.finish]

theorem set_state_reach (hl : lockMachine.Reach always m.system.locks) {state : TransactionState}
    (hne : state ≠ .GROWING) :
    lockMachine.Reach always (m.system.set_state tx state).locks :=
  hl.step (e := .set_state tx state) trivial (if_pos hne)

/-- A record that throws ends the abort: the transaction keeps its locks and stays active. -/
theorem abort_throws {e : Failure} (h : m.abort tx = some (.error e, m')) :
    m'.active_txs = m.active_txs ∧ m'.system.locks = (m.system.set_state tx .SHRINKING).locks ∧
      ¬ NoneThrows (m.system.set_state tx .SHRINKING) (m.system.undo_log tx) := by
  obtain ⟨⟨r, s⟩, hu, hr⟩ := Option.map_eq_some_iff.mp h
  rcases r with e' | _
  · cases hr
    refine ⟨rfl, undo_locks hu, fun hn => ?_⟩
    obtain ⟨t, ht⟩ := undo_ok_iff.mpr hn
    rw [hu] at ht
    cases ht
  · cases hr

theorem abort_returns (h : m.abort tx = some (.ok (), m')) :
    ∃ s, undo (m.system.set_state tx .SHRINKING) (m.system.undo_log tx) = some (.ok (), s) ∧
      m' = { m with system := s }.finish tx .ABORTED := by
  obtain ⟨⟨r, s⟩, hu, hr⟩ := Option.map_eq_some_iff.mp h
  rcases r with e | _
  · cases hr
  · cases hr
    exact ⟨s, hu, rfl⟩

/-- An abort undoes every record, releases the locks of its transaction and leaves it aborted and
not active if and only if no undo record throws when its turn comes. -/
theorem an_abort_cleans_up_iff_no_record_throws {r : Except Failure Unit}
    (hl : lockMachine.Reach always m.system.locks) (hw : m.system.locks.waits tx = none)
    (h : m.abort tx = some (r, m')) :
    CleansUp m tx m' ↔ NoneThrows (m.system.set_state tx .SHRINKING) (m.system.undo_log tx) := by
  rcases r with e | _
  · obtain ⟨_, hlocks, hthrows⟩ := abort_throws h
    refine ⟨fun hclean => ?_, fun hn => absurd hn hthrows⟩
    have hstate := hclean.aborted
    rw [hlocks] at hstate
    simp [CatalogSystem.set_state, LockSystem.set_tx] at hstate
  · obtain ⟨s, hu, rfl⟩ := abort_returns h
    have hlocks := undo_locks hu
    obtain ⟨hreleased, hstate, hgone⟩ := finish_releases (m := { m with system := s })
      (by simp only [hlocks]; exact set_state_reach hl (by decide))
      (by simp only [hlocks]; exact hw) .ABORTED
    exact ⟨fun _ => undo_ok_iff.mp ⟨s, hu⟩,
      fun _ => ⟨⟨s, runsAll_of_undo hu, rfl, rfl⟩, hreleased, hstate, hgone⟩⟩

/-- A commit leaves no lock of its transaction either. -/
theorem commit_releases (hl : lockMachine.Reach always m.system.locks)
    (hw : m.system.locks.waits tx = none) :
    (((m.commit tx).system.locks.txs tx).shared_locks = [] ∧
      ((m.commit tx).system.locks.txs tx).exclusive_locks = [] ∧
      ∀ rid, ∀ r ∈ (m.commit tx).system.locks.lock_table rid, r.tx_id ≠ tx) ∧
    ((m.commit tx).system.locks.txs tx).state = .COMMITTED ∧ tx ∉ (m.commit tx).active_txs :=
  finish_releases (m := { m with system := m.system.set_state tx .SHRINKING })
    (set_state_reach hl (by decide)) hw .COMMITTED

end

/-- A transaction that created the table `a`, and holds the lock of its row. -/
def creator (s : CatalogSystem) : TransactionManager where
  system := { s with
    locks := (lock_exclusive fresh 0 ⟨some 1, 0⟩).1
    undo_log := fun _ => [.DropTableUndoRecord [97], .row (.DeleteUndoRecord ⟨some 1, 0⟩)] }
  next_tx_id := 1
  active_txs := [0]

theorem creator_locks (s : CatalogSystem) : lockMachine.Reach always (creator s).system.locks :=
  .step (.start rfl) (e := .lock_exclusive 0 ⟨some 1, 0⟩) trivial rfl

/-- The abort of the creator of a table. -/
theorem an_abort_of_a_creator_cleans_up : ∃ s m', (creator s).abort 0 = some (.ok (), m') ∧
    CleansUp (creator s) 0 m' := by
  obtain ⟨s, _, hp⟩ : ∃ s, ((CatalogSystem.make (empty_pool 2)).bind fun made =>
      made.toOption.bind (catalogMachine.exec · [.create_table [97] numbers])) = some s ∧
      (((creator s).abort 0).map fun r => r.1.toOption.isSome) = some true := by
    apply Option.map_eq_some_iff.mp
    decide +kernel
  obtain ⟨⟨r, m'⟩, h, hr⟩ := Option.map_eq_some_iff.mp hp
  rcases r with e | _
  · cases hr
  obtain ⟨u, hu, _⟩ := abort_returns h
  exact ⟨s, m', h, (an_abort_cleans_up_iff_no_record_throws (creator_locks s) rfl h).mpr
    (undo_ok_iff.mp ⟨u, hu⟩)⟩

/-- Others hold both frames of the pool, so that the pages of the table cannot be read. -/
theorem an_abort_that_throws_cleans_nothing_up :
    ¬ ∀ (m m' : TransactionManager) (tx : TransactionID) (r : Except Failure Unit),
      lockMachine.Reach always m.system.locks → m.system.locks.waits tx = none →
      m.abort tx = some (r, m') → CleansUp m tx m' := by
  intro hall
  obtain ⟨s, _, hp⟩ : ∃ s, ((CatalogSystem.make (empty_pool 2)).bind fun made =>
      made.toOption.bind
        (catalogMachine.exec · [.create_table [97] numbers, .fetch 0, .fetch 1])) = some s ∧
      (((creator s).abort 0).map fun r => r.1.toOption.isNone) = some true := by
    apply Option.map_eq_some_iff.mp
    decide +kernel
  obtain ⟨⟨r, m'⟩, h, hr⟩ := Option.map_eq_some_iff.mp hp
  rcases r with e | _
  swap
  · cases hr
  obtain ⟨hactive, _⟩ := abort_throws h
  refine (hall _ _ 0 _ (creator_locks s) rfl h).inactive ?_
  rw [hactive]
  exact List.mem_singleton.mpr rfl

end duck.catalog
