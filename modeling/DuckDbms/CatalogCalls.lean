-- The calls of a table under a transaction that runs alone: every lock is
-- granted at once, so that what is left of a call are its calls of the heap.
import DuckDbms.CatalogChains
import DuckDbms.Rollback

open machine duck.slotted_page duck.disk_manager duck.buffer_pool duck.lock_manager
open duck.table_heap duck.table duck.tuple chain

namespace duck.catalog

/-! ## The steps of a call -/

/-- The system of a call, of which only its transaction knows. -/
def calling (heap : HeapPool) (locks : LockSystem) (tx : TransactionID)
    (log : List table.UndoRecord) (call : TableCall) : TableSystem :=
  ⟨heap, locks, Function.update (fun _ => {}) tx ⟨log, call⟩⟩

/-- The catalog after a call that logged the records. -/
def CatalogSystem.after (s : CatalogSystem) (b : BufferPoolManager) (locks : LockSystem)
    (tx : TransactionID) (recs : List table.UndoRecord) : CatalogSystem :=
  ({ s with heap := ⟨b, s.heap.outside⟩, locks } : CatalogSystem).push_undo tx (recs.map .row)

section
variable {heap : HeapPool} {locks : LockSystem} {tx : TransactionID} {log : List table.UndoRecord}
  {call : TableCall} {fuel : Nat}

@[simp] theorem calling_call : ((calling heap locks tx log call).txs tx).call = call := by
  simp [calling]

@[simp] theorem calling_log : ((calling heap locks tx log call).txs tx).undo_log = log := by
  simp [calling]

@[simp] theorem calling_heap : (calling heap locks tx log call).heap = heap := rfl

@[simp] theorem go_on_calling (b : BufferPoolManager) (call' : TableCall) :
    (calling heap locks tx log call).go_on b tx call' =
      calling ⟨b, heap.outside⟩ locks tx log call' := by
  unfold TableSystem.go_on
  rw [calling_log]
  unfold calling
  rw [Function.update_idem]

@[simp] theorem push_undo_calling (records : List table.UndoRecord) :
    (calling heap locks tx log call).push_undo tx records =
      calling heap locks tx (records.reverse ++ log) call := by
  unfold TableSystem.push_undo
  rw [calling_log, calling_call]
  unfold calling
  rw [Function.update_idem]

theorem begin_call_eq (heap : HeapPool) (locks : LockSystem) (tx : TransactionID) (op : TableOp) :
    (⟨heap, locks, fun _ => {}⟩ : TableSystem).begin_call tx op =
      calling heap locks tx [] op.call := rfl

theorem run_done (r : Except String TableResult) : run_call (fuel + 1)
    (calling heap locks tx log (.done r)) tx = some (calling heap locks tx log (.done r)) := by
  unfold run_call
  rw [calling_call]

theorem run_next {heap' : HeapPool} {locks' : LockSystem} {log' : List table.UndoRecord}
    {call' : TableCall} (hstep : table_step (calling heap locks tx log call) tx false =
      some (calling heap' locks' tx log' call')) :
    run_call (fuel + 1) (calling heap locks tx log call) tx =
      run_call fuel (calling heap' locks' tx log' call') tx := by
  rw [run_call_of_step, hstep, Option.bind_some]
  all_goals
    intros
    intro hcall
    unfold table_step at hstep
    rw [hcall] at hstep
    cases hstep

/-- A lock call gets its lock. -/
theorem step_locked (A : LocksAlone locks tx) (heap : HeapPool) (log : List table.UndoRecord)
    (call : TableCall) {rid : RID} {mode : LockMode} (hw : call.wants = some (rid, mode)) : ∃ locks', LocksAlone locks' tx ∧
      table_step (calling heap locks tx log call) tx false =
        some (calling heap locks' tx (call.logs ++ log) call.granted) := by
  obtain ⟨locks', A', hlock⟩ := lock_alone (s := calling heap locks tx log call) A rid mode
  refine ⟨locks', A', ?_⟩
  rw [table_step_lock (by rw [calling_call]; exact hw), hlock]
  simp only [if_true, calling_call]
  show some (TableSystem.after (calling heap locks' tx log call) _ _ _ _) = _
  unfold TableSystem.after
  simp only [calling_log]
  unfold calling
  simp only [Function.update_idem]

end

/-! ## What a call leaves -/

/-- Where an insert goes with the result of its heap. -/
def inserted : Except String (Option RID) → TableCall
  | .error e => .done (.error e)
  | .ok none => .done (.ok (.placed none))
  | .ok (some rid) => .lock_inserted rid

theorem step_inserted {heap : HeapPool} (locks : LockSystem) (tx : TransactionID)
    (log : List table.UndoRecord) {h : PageID} {t : List UInt8} {b : BufferPoolManager}
    {r : Except String (Option RID)} (hr : table_heap.insert_tuple heap.pool h t = some (r, b)) :
    table_step (calling heap locks tx log (.insert h t)) tx false =
      some (calling ⟨b, heap.outside⟩ locks tx log (inserted r)) := by
  rcases r with e | _ | rid <;> simp [table_step, inserted, hr]


/-- The rows after a call, and the records that it logged. An update whose tuple finds no place
has lost the old one, and logs nothing. -/
inductive RowsLeft (op : TableOp) (frames : Nat) (R : Pages) :
    Pages → List table.UndoRecord → Prop
  | kept : RowsLeft op frames R R []
  | logged {R' : Pages} {recs : List table.UndoRecord} : Logged R op.takes R' recs →
      RowsLeft op frames R R' recs
  | lost {h : PageID} {rid : RID} {t old : List UInt8} : op = .update_tuple h rid t →
      rowAt R rid = some (some old) → ¬ (t.length ≤ 8180 ∧ 2 ≤ frames) →
      RowsLeft op frames R (putRow R rid none) []

/-- What a call on the heap `h` leaves, of a transaction that runs alone. -/
structure CallLeft (heads : Nat → Prop) (h : Nat) (s : CatalogSystem) (tx : TransactionID)
    (op : TableOp) (b : BufferPoolManager) (locks : LockSystem) (recs : List table.UndoRecord) :
    Prop where
  alone : LocksAlone locks tx
  ran : Ran True heads s.heap.outside (fun _ => False) s.heap.pool b
  records_on : ∀ u ∈ recs, u.On (· = h) b
  left : RowsLeft op s.heap.pool.pool_capacity (rows heads s.heap.pool) (rows heads b) recs

section
variable {s : CatalogSystem} {heads : Nat → Prop} {tx : TransactionID} {h : Nat} {rid : RID}

theorem table_call_of_run {op : TableOp} {b : BufferPoolManager} {locks : LockSystem}
    {recs : List table.UndoRecord} {r : Except String TableResult}
    (hrun : run_call 8 (calling s.heap s.locks tx [] op.call) tx =
      some (calling ⟨b, s.heap.outside⟩ locks tx recs (.done r))) :
    s.table_call tx op = some (r, s.after b locks tx recs) := by
  unfold CatalogSystem.table_call
  simp only [begin_call_eq, hrun, Option.bind_some, calling_call, calling_log]
  rfl

/-- An insert logs the RID that it returns. -/
theorem insert_alone (H : HeapState True s.heap.outside (fun _ => False) heads s.heap.pool)
    (A : LocksAlone s.locks tx) (hh : heads h) (t : List UInt8) :
    ∃ (r : Except String (Option RID)) (b : BufferPoolManager) (locks : LockSystem)
      (recs : List table.UndoRecord), s.table_call tx (.insert_tuple (some h) t) =
        some (r.map .placed, s.after b locks tx recs) ∧
      CallLeft heads h s tx (.insert_tuple (some h) t) b locks recs ∧
      recs = r.toOption.join.toList.map .DeleteUndoRecord := by
  obtain ⟨r, b, hr⟩ := H.insert_tuple_returns hh trivial t
  obtain ⟨R, I⟩ := H.insert_tuple hh hr fun he => absurd trivial he
  have hstep := step_inserted s.locks tx [] hr
  cases I with
  | @placed n slot hon htake hrows =>
    obtain ⟨locks, A', hlock⟩ := step_locked A ⟨b, s.heap.outside⟩ []
      (.lock_inserted ⟨some n, slot⟩) rfl
    refine ⟨.ok (some ⟨some n, slot⟩), b, locks, [.DeleteUndoRecord ⟨some n, slot⟩],
      table_call_of_run ?_, ⟨A', R, ?_, ?_⟩, rfl⟩
    · exact (run_next hstep).trans ((run_next hlock).trans (run_done _))
    · rw [List.forall_mem_singleton]
      exact ⟨n, rfl, h, rfl, hon⟩
    · have L : Logged (rows heads s.heap.pool) none
          (placeRow (rows heads s.heap.pool) ⟨some n, slot⟩ t)
          [.DeleteUndoRecord ⟨some n, slot⟩] := .inserted ⟨n, rfl, htake⟩
      rw [hrows]
      exact .logged L
  | refused hno hrows =>
    have hkept : RowsLeft (.insert_tuple (some h) t) s.heap.pool.pool_capacity
        (rows heads s.heap.pool) (rows heads b) [] := by
      rw [hrows]
      exact .kept
    rcases r with e | _ | rid
    · exact ⟨.error e, b, s.locks, [], table_call_of_run ((run_next hstep).trans (run_done _)),
        ⟨A, R, by simp, hkept⟩, rfl⟩
    · exact ⟨.ok none, b, s.locks, [], table_call_of_run ((run_next hstep).trans (run_done _)),
        ⟨A, R, by simp, hkept⟩, rfl⟩
    · exact absurd rfl (hno rid)

/-- A RID of one of the heaps stays one of its RIDs. -/
theorem ridOn_ran (hh : heads h) {pins : Nat → Nat} {pending : Nat → Prop}
    {b b' : BufferPoolManager} (hrid : RidOn (· = h) b rid)
    (R : Ran True heads pins pending b b') : RidOn (· = h) b' rid :=
  hrid.mono (fun _ => id) fun k hk => R.onPath k (hk ▸ hh)

theorem ridOn_heads (hh : heads h) {b : BufferPoolManager} (hrid : RidOn (· = h) b rid) :
    RidOn heads b rid :=
  hrid.mono (fun _ hk => hk ▸ hh) fun _ _ _ => id

theorem get_alone (H : HeapState True s.heap.outside (fun _ => False) heads s.heap.pool)
    (A : LocksAlone s.locks tx) (hh : heads h) (hown : RidOn (· = h) s.heap.pool rid) :
    ∃ r b locks recs, s.table_call tx (.get_tuple rid) = some (r, s.after b locks tx recs) ∧
      CallLeft heads h s tx (.get_tuple rid) b locks recs := by
  have hrid := ridOn_heads hh hown
  obtain ⟨locks, A', hlock⟩ := step_locked A s.heap [] (.lock_read rid) rfl
  obtain ⟨b, R, hrows, hget⟩ := get_spec H hrid
  have hkept : RowsLeft (.get_tuple rid) s.heap.pool.pool_capacity (rows heads s.heap.pool)
      (rows heads b) [] := by
    rw [hrows]
    exact .kept
  have hread : ∃ bytes, table_step (calling s.heap locks tx [] (.read rid)) tx false =
      some (calling ⟨b, s.heap.outside⟩ locks tx [] (.done (.ok (.found bytes)))) := by
    have hg : ∃ bytes, table_heap.get_tuple s.heap.pool rid = (.ok bytes, b) := by
      rcases hget with ⟨old, hg, _⟩ | hg
      · exact ⟨some old, hg⟩
      · exact ⟨none, hg⟩
    obtain ⟨bytes, hg⟩ := hg
    refine ⟨bytes, ?_⟩
    simp [table_step, hg]
  obtain ⟨bytes, hread⟩ := hread
  exact ⟨_, b, locks, [], table_call_of_run
    ((run_next hlock).trans ((run_next hread).trans (run_done _))), A', R, by simp, hkept⟩

theorem delete_alone (H : HeapState True s.heap.outside (fun _ => False) heads s.heap.pool)
    (A : LocksAlone s.locks tx) (hh : heads h) (hown : RidOn (· = h) s.heap.pool rid) :
    ∃ r b locks recs, s.table_call tx (.delete_tuple rid) = some (r, s.after b locks tx recs) ∧
      CallLeft heads h s tx (.delete_tuple rid) b locks recs := by
  have hrid := ridOn_heads hh hown
  obtain ⟨locks, A', hlock⟩ := step_locked A s.heap [] (.lock_deleted rid) rfl
  obtain ⟨b1, R1, hrows1, ⟨old, hg, hold⟩ | hg⟩ := get_spec H hrid
  swap
  · -- there is no tuple
    have hread : table_step (calling s.heap locks tx [] (.read_deleted rid)) tx false =
        some (calling ⟨b1, s.heap.outside⟩ locks tx [] (.done (.ok (.deleted false)))) := by
      simp [table_step, hg]
    refine ⟨_, b1, locks, [], table_call_of_run
      ((run_next hlock).trans ((run_next hread).trans (run_done _))), A', R1, by simp, ?_⟩
    rw [hrows1]
    exact .kept
  have hread : table_step (calling s.heap locks tx [] (.read_deleted rid)) tx false =
      some (calling ⟨b1, s.heap.outside⟩ locks tx [] (.delete rid old)) := by
    simp [table_step, hg]
  obtain ⟨b2, R2, ⟨hd, hrows2, _⟩ | ⟨hd, hrows2, _⟩⟩ := delete_spec R1.heap (hrid.ran R1)
  · have hdelete : table_step (calling ⟨b1, s.heap.outside⟩ locks tx [] (.delete rid old)) tx false =
        some (calling ⟨b2, s.heap.outside⟩ locks tx [.RestoreUndoRecord rid old]
          (.done (.ok (.deleted true)))) := by
      simp [table_step, hd]
    refine ⟨_, b2, locks, [.RestoreUndoRecord rid old], table_call_of_run
      ((run_next hlock).trans ((run_next hread).trans ((run_next hdelete).trans (run_done _)))),
      A', R1.trans R2, ?_, ?_⟩
    · rw [List.forall_mem_singleton]
      exact ⟨ridOn_ran hh hown (R1.trans R2), length_lt_of_row H hold⟩
    · rw [hrows2, hrows1]
      exact .logged (.deleted hold)
  · have hdelete : table_step (calling ⟨b1, s.heap.outside⟩ locks tx [] (.delete rid old)) tx false =
        some (calling ⟨b2, s.heap.outside⟩ locks tx [] (.done (.ok (.deleted false)))) := by
      simp [table_step, hd]
    refine ⟨_, b2, locks, [], table_call_of_run
      ((run_next hlock).trans ((run_next hread).trans ((run_next hdelete).trans (run_done _)))),
      A', R1.trans R2, by simp, ?_⟩
    rw [hrows2, hrows1]
    exact .kept

/-- Where an update goes with the result of its heap, and the records that it logs. -/
def updated (rid : RID) (old : List UInt8) :
    Except String (Option RID) → TableCall × List table.UndoRecord
  | .error e => (.done (.error e), [])
  | .ok none => (.done (.ok (.placed none)), [])
  | .ok (some ret_rid) =>
    if ret_rid ≠ rid then (.lock_moved rid old ret_rid, [])
    else (.done (.ok (.placed ret_rid)), [.DeleteUndoRecord rid, .RestoreUndoRecord rid old])

theorem step_updated (heap : HeapPool) (locks : LockSystem) (tx : TransactionID)
    {k : PageID} {t : List UInt8} (old : List UInt8) {b : BufferPoolManager}
    {r : Except String (Option RID)}
    (hr : table_heap.update_tuple heap.pool k rid t = some (r, b)) :
    table_step (calling heap locks tx [] (.update k rid t old)) tx false =
      some (calling ⟨b, heap.outside⟩ locks tx (updated rid old r).2 (updated rid old r).1) := by
  rcases r with e | _ | ret_rid
  · simp [table_step, updated, hr]
  · simp [table_step, updated, hr]
  · by_cases hne : ret_rid = rid <;> simp [table_step, updated, hr, hne]

theorem update_alone (H : HeapState True s.heap.outside (fun _ => False) heads s.heap.pool)
    (A : LocksAlone s.locks tx) (hh : heads h) (hown : RidOn (· = h) s.heap.pool rid)
    {t : List UInt8} (ht : t.length < 65536) (hidle : ∀ n, s.heap.outside n = 0) :
    ∃ r b locks recs, s.table_call tx (.update_tuple (some h) rid t) =
        some (r, s.after b locks tx recs) ∧
      CallLeft heads h s tx (.update_tuple (some h) rid t) b locks recs := by
  have hrid := ridOn_heads hh hown
  obtain ⟨locks, A', hlock⟩ := step_locked A s.heap [] (.lock_updated (some h) rid t) rfl
  obtain ⟨b1, R1, hrows1, ⟨old, hg, hold⟩ | hg⟩ := get_spec H hrid
  swap
  · -- there is no tuple
    have hread : table_step (calling s.heap locks tx [] (.read_updated (some h) rid t)) tx false =
        some (calling ⟨b1, s.heap.outside⟩ locks tx [] (.done (.ok (.placed none)))) := by
      simp [table_step, hg]
    refine ⟨_, b1, locks, [], table_call_of_run
      ((run_next hlock).trans ((run_next hread).trans (run_done _))), A', R1, by simp, ?_⟩
    rw [hrows1]
    exact .kept
  have hread : table_step (calling s.heap locks tx [] (.read_updated (some h) rid t)) tx false =
      some (calling ⟨b1, s.heap.outside⟩ locks tx [] (.update (some h) rid t old)) := by
    simp [table_step, hg]
  have hrid1 := hrid.ran R1
  have hlen := length_lt_of_row H hold
  obtain ⟨_, slot⟩ := rid
  obtain ⟨n, rfl, hn⟩ := hrid1
  obtain ⟨r, b2, hr⟩ := R1.heap.update_tuple_returns hh trivial hn slot ht
  obtain ⟨R2, U⟩ := R1.heap.update_tuple hh hn ht hr fun he => absurd trivial he
  have hstep := step_updated ⟨b1, s.heap.outside⟩ locks tx old hr
  have hback := ridOn_ran hh hown (R1.trans R2)
  have hlogs : ∀ ret_rid, RidOn (· = h) b2 ret_rid →
      ∀ u ∈ [table.UndoRecord.DeleteUndoRecord ret_rid, .RestoreUndoRecord ⟨some n, slot⟩ old],
        u.On (· = h) b2 := by
    intro ret_rid hret u hu
    simp only [List.mem_cons, List.not_mem_nil, or_false] at hu
    rcases hu with rfl | rfl
    · exact hret
    · exact ⟨hback, hlen⟩
  have hdone : ∀ res {recs}, updated ⟨some n, slot⟩ old r = (.done res, recs) →
      s.table_call tx (.update_tuple (some h) ⟨some n, slot⟩ t) =
        some (res, s.after b2 locks tx recs) := by
    intro res recs hu
    rw [hu] at hstep
    exact table_call_of_run
      ((run_next hlock).trans ((run_next hread).trans ((run_next hstep).trans (run_done _))))
  cases U with
  | not_found _ hrows | no_frame _ hrows =>
    refine ⟨_, b2, locks, [], hdone _ rfl, A', R1.trans R2, by simp, ?_⟩
    rw [hrows, hrows1]
    exact .kept
  | in_place _ hrows =>
    have hret : updated ⟨some n, slot⟩ old (.ok (some ⟨some n, slot⟩)) =
        (.done (.ok (.placed (some ⟨some n, slot⟩))),
          [.DeleteUndoRecord ⟨some n, slot⟩, .RestoreUndoRecord ⟨some n, slot⟩ old]) := by
      simp [updated]
    refine ⟨_, b2, locks, _, hdone _ hret, A', R1.trans R2, hlogs _ hback, ?_⟩
    rw [hrows, hrows1]
    exact .logged (.updated hold)
  | @moved _ b' _ hlive hmid hcap I =>
    rw [hrows1] at hmid
    cases I with
    | refused hno hrows hmay =>
      refine ⟨_, b2, locks, [], hdone (r.map .placed) ?_, A', R1.trans R2, by simp, ?_⟩
      · rcases r with e | _ | ret_rid
        · rfl
        · rfl
        · exact absurd rfl (hno ret_rid)
      · rw [hrows, hmid]
        refine .lost rfl hold fun hfits => hmay ⟨hfits.1, ?_, hidle⟩
        rw [hcap, R1.capacity]
        exact hfits.2
    | @placed m slot' hon htake hrows =>
      rw [hmid] at htake hrows
      have hplaced : rows heads b2 = placeRow (putRow (rows heads s.heap.pool) ⟨some n, slot⟩ none)
          ⟨some m, slot'⟩ t := hrows
      have hret : RidOn (· = h) b2 ⟨some m, slot'⟩ := ⟨m, rfl, h, rfl, hon⟩
      by_cases hne : (⟨some m, slot'⟩ : RID) = ⟨some n, slot⟩
      · -- the tuple went back to its own slot
        refine ⟨_, b2, locks, [.DeleteUndoRecord ⟨some m, slot'⟩,
          .RestoreUndoRecord ⟨some n, slot⟩ old], hdone (.ok (.placed (some ⟨some m, slot'⟩)))
            (by simp [updated, hne]), A', R1.trans R2, hlogs _ hret, ?_⟩
        rw [hplaced, hne, placeRow_of_free (rowAt_putRow_self hold), putRow_putRow]
        exact .logged (.updated hold)
      · have hu : updated ⟨some n, slot⟩ old (.ok (some ⟨some m, slot'⟩)) =
            (.lock_moved ⟨some n, slot⟩ old ⟨some m, slot'⟩, []) := if_pos hne
        rw [hu] at hstep
        obtain ⟨locks', A2, hlock'⟩ := step_locked A' ⟨b2, s.heap.outside⟩ []
          (.lock_moved ⟨some n, slot⟩ old ⟨some m, slot'⟩) rfl
        refine ⟨_, b2, locks', [.DeleteUndoRecord ⟨some m, slot'⟩,
          .RestoreUndoRecord ⟨some n, slot⟩ old], table_call_of_run ((run_next hlock).trans
            ((run_next hread).trans ((run_next hstep).trans ((run_next hlock').trans
              (run_done _))))), A2, R1.trans R2, hlogs _ hret, ?_⟩
        rw [hplaced]
        exact .logged (.moved hold ⟨m, rfl, htake⟩)

end

end duck.catalog
