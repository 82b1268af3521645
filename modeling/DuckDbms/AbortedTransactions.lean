-- Transactions that abort leave no trace: what the others read and leave is what
-- they read and leave when only they run, one after the other.
import DuckDbms.Serializability

open machine duck.slotted_page duck.buffer_pool duck.lock_manager duck.table_heap chain serial

namespace duck.table

/-! ## What a transaction would undo -/

/-- What a record does to the tuples by their RIDs. -/
def undoValue (m : RID → Option (List UInt8)) : UndoRecord → RID → Option (List UInt8)
  | .DeleteUndoRecord rid => Function.update m rid none
  | .RestoreUndoRecord rid tuple => Function.update m rid (some tuple)

/-- The records that a transaction has to undo to take back what it did so far. A tuple that
moved gets its records when its new RID is locked. -/
def TableTx.owed (x : TableTx) : List UndoRecord :=
  match x.call with
  | .lock_moved rid old _ => .RestoreUndoRecord rid old :: x.undo_log
  | _ => x.remaining

/-- The transaction was aborted, and all its records are undone. -/
def TableSystem.rolledBack (s : TableSystem) (tx : TransactionID) : Bool :=
  match (s.txs tx).call with
  | .ended => decide ((s.locks.txs tx).state = .ABORTED)
  | _ => false

/-- A step can be taken back: an update that fails leaves its tuple, and what is undone is
reached. -/
structure StepTakesBack (s t : TableSystem) (tx : TransactionID) : Prop where
  kept : ∀ h rid tuple old r, (s.txs tx).call = .update h rid tuple old →
    (t.txs tx).call = .done r → Refused r →
    visibleAt t.heap.pool rid = visibleAt s.heap.pool rid
  reached : ∀ u rest, (s.txs tx).call = .undo (u :: rest) → reaches s.heap.pool u.rid = true

/-- The steps keep apart what the locks do not, and can be taken back. -/
def TakesBack (evicts : Prop) (heads : Nat → Prop) (s : AccessHistory) : TableEvent → Prop
  | .step tx expired => Apart evicts heads s (.step tx expired) ∧
      ∀ t, table_step s.system tx expired = some t → StepTakesBack s.system t tx
  | e => Apart evicts heads s e

theorem TakesBack.apart {evicts : Prop} {heads : Nat → Prop} {s : AccessHistory} {e : TableEvent}
    (h : TakesBack evicts heads s e) : Apart evicts heads s e := by
  cases e with
  | step => exact h.1
  | call | fetch | unpin => exact h

/-! ## One step -/

/-- The accesses of a step, and what its transaction would undo before and after it, fit. -/
structure Repays (x y : TableTx) (l : List TupleAccess) : Prop where
  back : ∀ m m' : RID → Option (List UInt8),
    (∀ rid bytes, x.call.seen = some (rid, bytes) → m rid = some bytes) → run m l = some m' →
    y.owed.foldl undoValue m' = x.owed.foldl undoValue m
  seen : ∀ rid bytes, y.call.seen = some (rid, bytes) → bytes ≠ [] ∧
    ∀ m m' : RID → Option (List UInt8), run m l = some m' → m' rid = some bytes
  tuples : ∀ rid tuple, .RestoreUndoRecord rid tuple ∈ y.owed →
    .RestoreUndoRecord rid tuple ∈ x.owed ∨ x.call.seen = some (rid, tuple)

section
variable {evicts : Prop} {heads : Nat → Prop} {s t : TableSystem} {tx : TransactionID}
  {expired : Bool} {x y : TableTx} {l : List TupleAccess}

/-- Nothing is changed, and nothing is logged. -/
theorem repays_reads (hl : ∀ a ∈ l, a.before = a.after) (howed : y.owed = x.owed)
    (hseen : y.call.seen = none) : Repays x y l := by
  refine ⟨fun m m' _ hr => ?_, fun rid bytes h => ?_, fun rid tuple h => Or.inl (howed ▸ h)⟩
  · rw [howed, run_reads hl hr]
  · rw [hseen] at h
    cases h

/-- A tuple was found that is to be changed. -/
theorem repays_found {rid : RID} {old : List UInt8} (hne : old ≠ []) (howed : y.owed = x.owed)
    (hseen : y.call.seen = some (rid, old)) :
    Repays x y [⟨tx, rid, some old, some old⟩] := by
  refine ⟨fun m m' _ hr => ?_, fun rid' bytes h => ?_, fun rid tuple h => Or.inl (howed ▸ h)⟩
  · rw [howed, run_reads (by simp) hr]
  · rw [hseen] at h
    cases h
    refine ⟨hne, fun m m' hr => ?_⟩
    rw [(run_single hr).2, Function.update_self]

/-- A lock is there, and what was placed or moved under it is logged. -/
theorem repays_granted {c : TableCall} {log : List UndoRecord} {rid : RID} {mode : LockMode}
    (hw : c.wants = some (rid, mode)) (v : Option (List UInt8)) :
    Repays ⟨log, c⟩ ⟨c.logs ++ log, c.granted⟩
      (if c.placed = some rid then [⟨tx, rid, none, v⟩] else []) := by
  -- the record of a new tuple takes it out
  have hnew : ∀ m m' : RID → Option (List UInt8), run m [(⟨tx, rid, none, v⟩ : TupleAccess)] = some m' →
      Function.update m' rid none = m := by
    intro m m' hr
    obtain ⟨hb, rfl⟩ := run_single hr
    rw [Function.update_idem, ← hb, Function.update_eq_self]
  cases c with
  | lock_inserted rid' =>
    cases hw
    have hplaced : (TableCall.lock_inserted rid).placed = some rid := rfl
    rw [if_pos hplaced]
    refine ⟨fun m m' _ hr => ?_, fun _ _ h => (by cases h), fun r t h => Or.inl ?_⟩
    · exact congrArg (log.foldl undoValue) (hnew m m' hr)
    · simpa [TableTx.owed, TableTx.remaining, TableCall.logs, TableCall.granted] using h
  | lock_moved rid' old ret_rid =>
    cases hw
    have hplaced : (TableCall.lock_moved rid' old rid).placed = some rid := rfl
    rw [if_pos hplaced]
    refine ⟨fun m m' _ hr => ?_, fun _ _ h => (by cases h), fun r t h => Or.inl ?_⟩
    · exact congrArg (fun m => log.foldl undoValue (Function.update m rid' (some old))) (hnew m m' hr)
    · simpa [TableTx.owed, TableTx.remaining, TableCall.logs, TableCall.granted] using h
  | lock_read | lock_deleted | lock_updated =>
    rw [if_neg (by simp [TableCall.placed])]
    exact repays_reads (by simp) rfl rfl
  | done | ended | insert | delete_inserted | read | read_deleted | delete | read_updated | update
  | commit | abort | undo => cases hw

/-- A lock is not there yet, or is refused. -/
theorem repays_refused {c : TableCall} {log : List UndoRecord} {x : RID × LockMode}
    (hw : c.wants = some x) (hmoved : ∀ rid old ret_rid, c ≠ .lock_moved rid old ret_rid) :
    Repays ⟨log, c⟩ ⟨log, c.refused⟩ [] := by
  cases c with
  | lock_moved rid old ret_rid => exact absurd rfl (hmoved rid old ret_rid)
  | lock_inserted | lock_read | lock_deleted | lock_updated => exact repays_reads (by simp) rfl rfl
  | done | ended | insert | delete_inserted | read | read_deleted | delete | read_updated | update
  | commit | abort | undo => cases hw

theorem undo_deletes {recs : List UndoRecord} {rid : RID}
    (hrecs : ∀ u ∈ recs, u = .DeleteUndoRecord rid) (m : RID → Option (List UInt8))
    (v : Option (List UInt8)) :
    ∃ v', recs.foldl undoValue (Function.update m rid v) = Function.update m rid v' := by
  induction recs generalizing v with
  | nil => exact ⟨v, rfl⟩
  | cons u recs ih =>
    obtain ⟨rfl, hrest⟩ := List.forall_mem_cons.mp hrecs
    rw [List.foldl_cons, undoValue, Function.update_idem]
    exact ih hrest none

/-- A tuple is changed, and the log gets the record that puts it back, after others that are
about it too. -/
theorem repays_changed {c : TableCall} {log : List UndoRecord} (recs : List UndoRecord) {rid : RID}
    {bytes : List UInt8} {before after : Option (List UInt8)}
    (hseen : c.seen = some (rid, bytes)) (howed : TableTx.owed ⟨log, c⟩ = log)
    (hrecs : ∀ u ∈ recs, u = .DeleteUndoRecord rid)
    (hlog : TableTx.owed y = recs ++ .RestoreUndoRecord rid bytes :: log)
    (hseen' : y.call.seen = none) :
    Repays ⟨log, c⟩ y [⟨tx, rid, before, after⟩] := by
  refine ⟨fun m m' hm hr => ?_, fun _ _ h => ?_, fun r t h => ?_⟩
  · obtain ⟨hb, rfl⟩ := run_single hr
    obtain ⟨v, hv⟩ := undo_deletes hrecs m after
    rw [hlog, howed, List.foldl_append, hv, List.foldl_cons, undoValue, Function.update_idem,
      ← hm rid bytes hseen, Function.update_eq_self]
  · rw [hseen'] at h
    cases h
  · rw [hlog] at h
    rcases List.mem_append.mp h with h | h
    · cases hrecs _ h
    · rcases List.mem_cons.mp h with h | h
      · cases h
        exact Or.inr hseen
      · exact Or.inl (by rwa [howed])

/-- A record is undone. -/
theorem repays_undone {log rest : List UndoRecord} {u : UndoRecord}
    {before after : Option (List UInt8)}
    (hv : ∀ m : RID → Option (List UInt8), Function.update m u.rid after = undoValue m u) :
    Repays ⟨log, .undo (u :: rest)⟩ ⟨log, .undo rest⟩ [⟨tx, u.rid, before, after⟩] := by
  refine ⟨fun m m' _ hr => ?_, fun _ _ h => (by cases h), fun r t h =>
    Or.inl (List.mem_cons_of_mem u h)⟩
  obtain ⟨_, rfl⟩ := run_single hr
  exact congrArg (rest.foldl undoValue) (hv m)

theorem valueOf_ne_nil {R : Pages} {rid : RID} {tuple : List UInt8}
    (h : valueOf R rid = some tuple) : tuple ≠ [] := by
  rintro rfl
  unfold valueOf at h
  have hp := Option.filter_eq_some_iff.mp h
  cases hp.2

theorem valueOf_restored {R : Pages} {rid : RID} {tuple : List UInt8}
    (hcan : Restorable R rid tuple) (hne : tuple ≠ []) :
    valueOf (putRow R rid (some tuple)) rid = some tuple := by
  unfold valueOf
  rw [rowAt_putRow_self hcan.1]
  cases tuple with
  | nil => exact absurd rfl hne
  | cons => rfl

/-- A restore that reaches its page and returns found its slot free. -/
theorem restorable_step (C : CallsOn evicts heads s) {rid : RID} {tuple : List UInt8}
    {rest : List UndoRecord} (hc : (s.txs tx).call = .undo (.RestoreUndoRecord rid tuple :: rest))
    (hreach : reaches s.heap.pool rid = true)
    (hdirty : evicts → ∃ f, s.heap.pool.page_table rid.page_id = some f ∧
      (s.heap.pool.frames f).is_dirty = true)
    (hstep : table_step s tx expired = some t) :
    Restorable (rows heads s.heap.pool) rid tuple := by
  have hon := C.call tx
  rw [hc] at hon
  obtain ⟨hrid, hlen⟩ := hon (.RestoreUndoRecord rid tuple) List.mem_cons_self
  unfold table_step at hstep
  rw [hc] at hstep
  obtain ⟨r, hr, _⟩ := Option.map_eq_some_iff.mp hstep
  rcases restore_spec C.heap hrid hlen hdirty with ⟨_, _, _, ⟨hcan, _⟩ | ⟨_, hno, _⟩⟩ | ⟨hnone, _⟩
  · exact hcan
  · exact absurd hno (fetch_of_reaches hreach)
  · rw [hnone] at hr
    cases hr

/-- An undo of a record that is reached takes it back. -/
theorem repays_undo (C : CallsOn evicts heads s) (hok : StepsApart evicts s t tx expired)
    {u : UndoRecord} {rest : List UndoRecord} (hc : (s.txs tx).call = .undo (u :: rest))
    (hreach : reaches s.heap.pool u.rid = true)
    (hne : ∀ rid tuple, u = .RestoreUndoRecord rid tuple → tuple ≠ [])
    (hstep : table_step s tx expired = some t) :
    Repays (s.txs tx) (t.txs tx)
      (accesses s.heap.pool t.heap.pool tx (s.txs tx).call (t.txs tx).call) := by
  have hheap : (s.txs tx).call.calls_heap = true := by rw [hc]; rfl
  obtain ⟨b', log, call, ht', W⟩ :=
    table_step_works C.heap (C.call tx) hheap hstep hok.frames hok.dirty
  have T := (told_step C hheap ht' W hstep).one
  obtain ⟨b, ht, hrows⟩ := undo_step_rows C hc hreach hok.dirty hstep
  have hpool : t.heap.pool = b := by rw [ht]; rfl
  have htx : t.txs tx = ⟨(s.txs tx).undo_log, .undo rest⟩ := by rw [ht, after_txs_self]
  have hx : s.txs tx = ⟨(s.txs tx).undo_log, .undo (u :: rest)⟩ := by rw [← hc]
  have hl : accesses s.heap.pool t.heap.pool tx (.undo (u :: rest)) (.undo rest) =
      [⟨tx, u.rid, visibleAt s.heap.pool u.rid, visibleAt t.heap.pool u.rid⟩] := rfl
  rw [hc, htx, hl] at T
  rw [hc, htx, hl, hx]
  refine repays_undone fun m => ?_
  obtain h | ⟨a, mode, hone, _, _, _, hafter, _⟩ := T
  · cases h
  obtain rfl := (List.cons.inj hone).1
  simp only [hpool, hrows] at hafter
  rw [hpool, hafter]
  cases u with
  | DeleteUndoRecord rid =>
    show Function.update m rid (valueOf (putRow _ rid none) rid) = Function.update m rid none
    rw [valueOf_putRow_none]
  | RestoreUndoRecord rid tuple =>
    show Function.update m rid (valueOf (putRow _ rid (some tuple)) rid) =
      Function.update m rid (some tuple)
    have hcan := restorable_step C hc hreach (fun he => hok.dirty he rid tuple rest hc) hstep
    rw [valueOf_restored hcan (hne rid tuple rfl)]

/-- A step of the heap. -/
theorem repays_heap (C : CallsOn evicts heads s) (hok : StepsApart evicts s t tx expired)
    (K : StepTakesBack s t tx) (hheap : (s.txs tx).call.calls_heap = true)
    (hne : ∀ rid tuple, .RestoreUndoRecord rid tuple ∈ (s.txs tx).owed → tuple ≠ [])
    (hstep : table_step s tx expired = some t) :
    Repays (s.txs tx) (t.txs tx)
      (accesses s.heap.pool t.heap.pool tx (s.txs tx).call (t.txs tx).call) := by
  obtain ⟨b, log, call, ht, W⟩ :=
    table_step_works C.heap (C.call tx) hheap hstep hok.frames hok.dirty
  have T := (told_step C hheap ht W hstep).one
  have M := W.move
  have hkept := K.kept
  have hundo : ∀ u rest, (s.txs tx).call = .undo (u :: rest) →
      (∀ rid tuple, u = .RestoreUndoRecord rid tuple → tuple ≠ []) →
      Repays (s.txs tx) (t.txs tx)
        (accesses s.heap.pool t.heap.pool tx (s.txs tx).call (t.txs tx).call) :=
    fun u rest hc hu => repays_undo C hok hc (K.reached u rest hc) hu hstep
  have hvisible : ∀ rid, RidOn heads s.heap.pool rid →
      visibleAt s.heap.pool rid = valueOf (rows heads s.heap.pool) rid ∧
      visibleAt b rid = valueOf (rows heads b) rid := fun rid hon =>
    ⟨visibleAt_eq hon, visibleAt_eq (hon.ran W.ran)⟩
  have hcall := C.call tx
  have htx : t.txs tx = ⟨log, call⟩ := by rw [ht, after_txs_self]
  have hpool : t.heap.pool = b := by rw [ht]; rfl
  rw [htx, hpool] at T hkept hundo ⊢
  generalize s.txs tx = x at T M hkept hundo hheap hne hcall ⊢
  obtain ⟨log0, c⟩ := x
  simp only at T M hkept hundo hheap hcall ⊢
  -- what leaves its tuple alone only reads it
  have hreads : (∀ rid mode, c.touches = some (rid, mode) →
      valueOf (rows heads b) rid = valueOf (rows heads s.heap.pool) rid) →
      ∀ a ∈ accesses s.heap.pool b tx c call, a.before = a.after := by
    intro hsame a ha
    rcases T with h | ⟨a', mode, h, _, htouch, hbefore, hafter, _⟩
    · rw [h] at ha
      cases ha
    · rw [h, List.mem_singleton] at ha
      subst ha
      rw [hbefore, hafter, hsame _ mode htouch]
  -- what is found is a tuple that can be seen
  have hfound : ∀ rid old, accesses s.heap.pool b tx c call = [⟨tx, rid, some old, some old⟩] →
      old ≠ [] := by
    intro rid old hl
    rcases T with h | ⟨a', mode, h, _, _, hbefore, _⟩
    · rw [hl] at h
      cases h
    · rw [hl] at h
      obtain rfl := (List.cons.inj h).1
      exact valueOf_ne_nil hbefore.symm
  cases M with
  | inserted | removed => exact repays_reads (by simp [accesses]) rfl rfl
  | returned hrows _ hnot =>
    refine repays_reads (hreads fun _ _ _ => by rw [hrows]) ?_ rfl
    cases c with
    | undo l => exact absurd rfl (hnot l)
    | ended | lock_moved => cases hheap
    | _ => rfl
  | found_deleted | found_updated => exact repays_found (hfound _ _ rfl) rfl rfl
  | deleted => exact repays_changed [] rfl rfl (by simp) rfl rfl
  | @updated h rid tuple bytes =>
    exact repays_changed [.DeleteUndoRecord rid] rfl rfl (by simp) rfl rfl
  | moved => exact repays_changed [] rfl rfl (by simp) rfl rfl
  | @lost h rid tuple bytes old r _ hrows hno =>
    refine repays_reads (hreads ?_) rfl rfl
    rintro _ mode ⟨⟩
    obtain ⟨h1, h2⟩ := hvisible rid hcall.2.1
    rw [← h1, ← h2]
    exact hkept h rid tuple bytes r rfl rfl hno
  | @undone rid rest => exact hundo _ _ rfl (by simp)
  | @restored rid tuple rest =>
    refine hundo _ _ rfl ?_
    rintro _ _ ⟨⟩
    exact hne rid tuple List.mem_cons_self
  | @skipped u rest =>
    refine hundo _ _ rfl ?_
    rintro rid tuple rfl
    exact hne rid tuple List.mem_cons_self

end

/-! ## What holds in every run -/

/-- What a transaction did so far, and then the records that it would undo, leave no trace, until
it commits. -/
structure PaysBack (s : AccessHistory) (T : TransactionID) : Prop where
  back : ((s.system.txs T).call = .ended → (s.system.locks.txs T).state = .ABORTED) →
    ∀ m m', run m (own s.history T) = some m' → (s.system.txs T).owed.foldl undoValue m' = m
  seen : ∀ rid bytes, (s.system.txs T).call.seen = some (rid, bytes) → bytes ≠ [] ∧
    ∀ m m', run m (own s.history T) = some m' → m' rid = some bytes
  tuples : ∀ rid tuple, .RestoreUndoRecord rid tuple ∈ (s.system.txs T).owed → tuple ≠ []

theorem accesses_tx (b b' : BufferPoolManager) (tx : TransactionID) (c c' : TableCall) :
    ∀ a ∈ accesses b b' tx c c', a.tx = tx := by
  unfold accesses
  split <;> try split
  all_goals simp

section
variable {evicts : Prop} {heads : Nat → Prop} {s s' : AccessHistory} {t : TableSystem}
  {tx : TransactionID} {expired : Bool}

/-- A step that pays back what it does. -/
theorem PaysBack.repays (P : PaysBack s tx) (hlive : (s.system.txs tx).call ≠ .ended)
    (R : Repays (s.system.txs tx) (t.txs tx)
      (accesses s.system.heap.pool t.heap.pool tx (s.system.txs tx).call (t.txs tx).call)) :
    PaysBack (s.note tx t) tx := by
  have hown : own (s.note tx t).history tx = own s.history tx ++
      accesses s.system.heap.pool t.heap.pool tx (s.system.txs tx).call (t.txs tx).call :=
    own_append_self (accesses_tx _ _ _ _ _)
  have hsplit : ∀ m m', run m (own (s.note tx t).history tx) = some m' →
      ∃ m1, run m (own s.history tx) = some m1 ∧ run m1 (accesses s.system.heap.pool t.heap.pool tx
        (s.system.txs tx).call (t.txs tx).call) = some m' := by
    intro m m' hr
    rw [hown, run_append] at hr
    exact Option.bind_eq_some_iff.mp hr
  refine ⟨fun _ m m' hr => ?_, fun rid bytes h => ?_, fun rid tuple h => ?_⟩
  · obtain ⟨m1, hr1, hr2⟩ := hsplit m m' hr
    refine (R.back m1 m' (fun rid bytes h => (P.seen rid bytes h).2 m m1 hr1) hr2).trans ?_
    exact P.back (fun h => absurd h hlive) m m1 hr1
  · refine ⟨(R.seen rid bytes h).1, fun m m' hr => ?_⟩
    obtain ⟨m1, _, hr2⟩ := hsplit m m' hr
    exact (R.seen rid bytes h).2 m1 m' hr2
  · rcases R.tuples rid tuple h with h | h
    · exact P.tuples rid tuple h
    · exact (P.seen rid tuple h).1

/-- What the others do is nothing to it. -/
theorem PaysBack.other {U : TransactionID} (P : PaysBack s U) (hU : U ≠ tx)
    (hstep : table_step s.system tx expired = some t) : PaysBack (s.note tx t) U := by
  obtain ⟨htx, hl⟩ := table_step_other hstep hU
  have hown : own (s.note tx t).history U = own s.history U :=
    own_append_other fun a ha he => hU (he.symm.trans (accesses_tx _ _ _ _ _ a ha))
  have hsys : (s.note tx t).system = t := rfl
  refine ⟨?_, ?_, ?_⟩ <;> rw [hsys, htx]
  · rw [hown, hl]
    exact P.back
  · rw [hown]
    exact P.seen
  · exact P.tuples

theorem paysBack_step (S : Serializes evicts heads s) (P : PaysBack s tx)
    (hok : StepsApart evicts s.system t tx expired) (K : StepTakesBack s.system t tx)
    (hstep : table_step s.system tx expired = some t) : PaysBack (s.note tx t) tx := by
  cases hheap : (s.system.txs tx).call.calls_heap with
  | true =>
    refine P.repays ?_ (repays_heap S.on hok K hheap P.tuples hstep)
    intro h
    rw [h] at hheap
    cases hheap
  | false =>
    have hlive : ∀ {x}, (s.system.txs tx).call.wants = some x → (s.system.txs tx).call ≠ .ended := by
      intro x hw h
      rw [h] at hw
      cases hw
    cases table_step_cases hstep with
    | heap _ hh =>
      rw [hheap] at hh
      cases hh
    | asleep hw =>
      refine P.repays (hlive hw) ?_
      simp only
      rw [(accesses_lock _ _ _ hw).1]
      refine repays_reads (by simp) rfl ?_
      cases hc : (s.system.txs tx).call <;> rw [hc] at hw <;> cases hw <;> rfl
    | @granted rid mode l hw hl =>
      refine P.repays (hlive hw) ?_
      rw [after_txs_self]
      simp only
      rw [(accesses_lock _ _ _ hw).2.2]
      exact repays_granted hw _
    | @refused rid mode l hw hl =>
      refine P.repays (hlive hw) ?_
      rw [after_txs_self]
      simp only
      rw [(accesses_lock _ _ _ hw).2.1]
      refine repays_refused hw fun rid' old ret_rid hc => ?_
      rw [hc] at hw
      cases hw
      have hyes : (lockCall s.system.locks tx rid .EXCLUSIVE expired).2 = some true :=
        moved_not_refused S.locked S.growing S.apart hc
      rw [hl] at hyes
      cases hyes
    | committed hc =>
      -- what it did is there to stay
      have hend : ∀ u : TableSystem, (u.finish tx .COMMITTED).txs tx = ⟨(u.txs tx).undo_log, .ended⟩ :=
        fun _ => Function.update_self ..
      refine ⟨fun hno => ?_, fun rid bytes h => ?_, fun rid tuple h => ?_⟩
      · have hstate := hno (congrArg TableTx.call (hend _))
        simp [AccessHistory.note, finish_locks, txs_set_tx] at hstate
      · simp only [AccessHistory.note, hend] at h
        cases h
      · simp only [AccessHistory.note, hend] at h
        cases h
    | aborting hc =>
      have hnext : ((s.system.set_state tx .SHRINKING).go_on s.system.heap.pool tx
          (.undo (s.system.txs tx).undo_log)).txs tx =
          ⟨(s.system.txs tx).undo_log, .undo (s.system.txs tx).undo_log⟩ := Function.update_self ..
      refine P.repays (by rw [hc]; simp) ?_
      rw [hnext, hc]
      refine repays_reads (by simp [accesses]) ?_ rfl
      unfold TableTx.owed TableTx.remaining
      simp only [hc]
    | aborted hc =>
      have hend : (s.system.finish tx .ABORTED).txs tx = ⟨(s.system.txs tx).undo_log, .ended⟩ :=
        Function.update_self ..
      refine P.repays (by rw [hc]; simp) ?_
      rw [hend, hc]
      refine repays_reads (by simp [accesses]) ?_ rfl
      unfold TableTx.owed TableTx.remaining
      simp only [hc]

/-- What the others keep from each other, and what each one owes. -/
structure Rewindable (evicts : Prop) (heads : Nat → Prop) (s : AccessHistory) : Prop where
  serializes : Serializes evicts heads s
  back : ∀ T, PaysBack s T

theorem rewindable_next {e : TableEvent} (W : Rewindable evicts heads s)
    (hok : TakesBack evicts heads s e) (h : s.next e = some s') : Rewindable evicts heads s' := by
  refine ⟨serializes_next W.serializes hok.apart h, fun T => ?_⟩
  have P := W.back T
  cases e with
  | call tx op =>
    obtain ⟨t, hn, rfl⟩ := Option.map_eq_some_iff.mp h
    unfold TableSystem.next at hn
    simp only at hn
    split at hn
    swap
    · cases hn
    rename_i r hc
    cases hn
    by_cases hT : T = tx
    swap
    · have hother : (s.system.begin_call tx op).txs T = s.system.txs T :=
        Function.update_of_ne hT _ _
      refine ⟨?_, ?_, ?_⟩ <;> simp only [hother]
      · exact P.back
      · exact P.seen
      · exact P.tuples
    subst hT
    have hown : (s.system.begin_call T op).txs T = ⟨(s.system.txs T).undo_log, op.call⟩ :=
      Function.update_self ..
    have howed : TableTx.owed ⟨(s.system.txs T).undo_log, op.call⟩ = (s.system.txs T).owed := by
      unfold TableTx.owed TableTx.remaining
      rw [hc]
      cases op <;> rfl
    refine ⟨fun _ => ?_, fun rid bytes h => ?_, ?_⟩
    · simp only [hown, howed]
      exact P.back (by rw [hc]; simp)
    · simp only [hown] at h
      cases op <;> cases h
    · simp only [hown, howed]
      exact P.tuples
  | step tx expired =>
    obtain ⟨t, hn, rfl⟩ := Option.map_eq_some_iff.mp h
    by_cases hT : T = tx
    · subst hT
      exact paysBack_step W.serializes P (hok.1 t hn) (hok.2 t hn) hn
    · exact P.other hT hn
  | fetch | unpin =>
    obtain ⟨t, hn, rfl⟩ := Option.map_eq_some_iff.mp h
    obtain ⟨heap, _, rfl⟩ := Option.map_eq_some_iff.mp hn
    exact ⟨P.back, P.seen, P.tuples⟩

theorem rewindable_start (h : (accessMachine evicts heads).start s) : Rewindable evicts heads s := by
  refine ⟨serializes_start h, fun T => ?_⟩
  obtain ⟨_, _, htx, _, hh, _⟩ := h
  have hnone : s.system.txs T = {} := congrFun htx T
  refine ⟨fun _ m m' hr => ?_, fun rid bytes h => ?_, fun rid tuple h => ?_⟩
  · rw [hh] at hr
    rw [hnone]
    exact (Option.some.inj hr).symm
  · rw [hnone] at h
    cases h
  · rw [hnone] at h
    cases h

theorem rewindable_reach (h : (accessMachine evicts heads).Reach (TakesBack evicts heads) s) :
    Rewindable evicts heads s :=
  h.invariant (fun _ => rewindable_start) fun _ _ _ W hok hn => rewindable_next W hok hn

theorem PaysBack.noTrace {T : TransactionID} (P : PaysBack s T)
    (h : s.system.rolledBack T = true) : LeavesNoTrace (own s.history T) := by
  unfold TableSystem.rolledBack at h
  split at h
  · rename_i hc
    intro m m' hr
    have hback := P.back (fun _ => of_decide_eq_true h) m m' hr
    unfold TableTx.owed TableTx.remaining at hback
    rw [hc] at hback
    exact hback
  · cases h

/-! ## The law -/

/-- The transactions that were rolled back might as well not have run: the others, one after the
other, find and leave what they found and left beside them. -/
theorem aborted_transactions_leave_no_trace
    (h : (accessMachine evicts heads).Reach (TakesBack evicts heads) s) (rest : List TransactionID)
    (hnodup : (s.closed ++ rest).Nodup) (hall : ∀ a ∈ s.history, a.tx ∈ s.closed ++ rest) :
    ∃ m, run s.initial (serially ((s.closed ++ rest).filter fun tx => !s.system.rolledBack tx)
        s.history) = some m ∧
      ∀ rid, (∀ W, (s.system.txs W).call.placed ≠ some rid) →
        m rid = valueOf (rows heads s.system.heap.pool) rid := by
  have W := rewindable_reach h
  obtain ⟨m, hrun, V⟩ := W.serializes.tuples
  have hserial := W.serializes.twoPhase.run_serially rest hnodup hall hrun
  exact ⟨m, run_serially_without (fun T _ hT => (W.back T).noTrace hT) hserial, V.settled⟩

end

/-! ## A run on fixed inputs -/

/-- The check of the accesses, for steps that can be taken back. -/
def takes_back_check (who : List TransactionID) (s : AccessHistory) (e : TableEvent) : Bool :=
  apart_calls_check who s e && match e with
    | .step tx expired => (table_step s.system tx expired).all fun t =>
      match (s.system.txs tx).call, (t.txs tx).call with
      | .undo (u :: _), _ => reaches s.system.heap.pool u.rid
      | .update _ _ _ _, .done (.ok (.placed (some _))) => true
      | .update _ rid _ _, .done _ =>
        visibleAt t.heap.pool rid == visibleAt s.system.heap.pool rid
      | _, _ => true
    | _ => true

theorem takesBack_of_check {who : List TransactionID} {s : AccessHistory} {e : TableEvent}
    (F : FewTakePart who s) (h : takes_back_check who s e = true) :
    TakesBack False (· = 1) s e ∧ e.among who = true := by
  obtain ⟨h1, h2⟩ := Bool.and_eq_true_iff.mp h
  obtain ⟨hapart, hamong⟩ := apart_of_check F h1
  refine ⟨?_, hamong⟩
  cases e with
  | call | fetch | unpin => exact hapart
  | step tx expired =>
    refine ⟨hapart, fun t ht => ⟨fun h rid tuple old r hc hr hno => ?_, fun u rest hc => ?_⟩⟩
    · simp only [ht, Option.all_some, hc, hr] at h2
      split at h2
      · rename_i hc'
        cases hc'
      · rename_i hc' hr'
        cases hr'
        cases hno _ rfl
      · rename_i hc' hr'
        cases hc'
        exact beq_iff_eq.mp h2
      · rename_i hno' _ hother
        exact absurd rfl (hother _ _ _ _ _ rfl)
    · simp only [ht, Option.all_some, hc] at h2
      exact h2

/-- Transaction 1 inserts a row and commits. Transaction 2 updates it, inserts another one and
aborts, while 3 waits to read the first. -/
theorem a_reader_finds_what_an_abort_put_back : ∃ s m,
    (accessMachine False (· = 1)).Reach (TakesBack False (· = 1)) s ∧ s.closed = [1, 2, 3] ∧
    s.history.map (·.tx) = [1, 2, 2, 2, 2, 2, 2, 3] ∧
    run s.initial (serially [1, 3] s.history) = some m ∧ m ⟨some 1, 0⟩ = some [7, 7, 7] := by
  obtain ⟨s, hx, hp⟩ : ∃ s, (accessMachine False (· = 1)).execIf (takes_back_check [1, 2, 3])
      accesses_open
      [.call 1 (.insert_tuple (some 1) [7, 7, 7]), .step 1 false, .step 1 false,
        .call 1 .commit, .step 1 false,
        .call 2 (.update_tuple (some 1) ⟨some 1, 0⟩ [9, 9]), .step 2 false, .step 2 false,
        .step 2 false,
        .call 3 (.get_tuple ⟨some 1, 0⟩), .step 3 false,
        .call 2 (.insert_tuple (some 1) [5]), .step 2 false, .step 2 false,
        .call 2 .abort, .step 2 false, .step 2 false, .step 2 false, .step 2 false, .step 2 false,
        .step 3 false, .step 3 false, .call 3 .commit, .step 3 false] = some s ∧
      (decide (s.closed = [1, 2, 3]) &&
        decide (s.history.map (·.tx) = [1, 2, 2, 2, 2, 2, 2, 3]) &&
        decide (visibleAt s.system.heap.pool ⟨some 1, 0⟩ = some [7, 7, 7]) &&
        decide ([1, 2, 3].map s.system.rolledBack = [false, true, false]) &&
        [1, 2, 3].all fun W => (s.system.txs W).call.placed.isNone) = true := by
    apply Option.map_eq_some_iff.mp
    decide +kernel
  simp only [Bool.and_eq_true, decide_eq_true_eq, List.all_eq_true] at hp
  obtain ⟨⟨⟨⟨hclosed, htxs⟩, hvalue⟩, hgone⟩, hplaced⟩ := hp
  have few : ∀ s, (accessMachine False (· = 1)).Reach (fun s e =>
      TakesBack False (· = 1) s e ∧ e.among [1, 2, 3] = true) s → FewTakePart [1, 2, 3] s :=
    fun _ h => few_take_part (h.mono fun _ _ he => ⟨he.1.apart, he.2⟩)
  have hr := Machine.Reach.execIf few (fun _ _ F h => takesBack_of_check F h)
    (.start accesses_open_start) hx
  have F := few s hr
  have hr := hr.mono fun _ _ h => h.1
  have hall : ∀ a ∈ s.history, a.tx ∈ s.closed ++ [] := by
    intro a ha
    have hmem : a.tx ∈ s.history.map (·.tx) := List.mem_map_of_mem ha
    rw [htxs] at hmem
    rw [hclosed, List.append_nil]
    simp only [List.mem_cons, List.not_mem_nil, or_false] at hmem ⊢
    tauto
  obtain ⟨m, hm, hsettled⟩ := aborted_transactions_leave_no_trace hr []
    (by rw [hclosed]; decide) hall
  have hleft : ([1, 2, 3] : List TransactionID).filter (fun tx => !s.system.rolledBack tx) =
      [1, 3] := by
    simp only [List.map_cons, List.map_nil, List.cons.injEq, and_true] at hgone
    simp [hgone]
  rw [List.append_nil, hclosed, hleft] at hm
  refine ⟨s, m, hr, hclosed, htxs, hm, ?_⟩
  have hon : RidOn (· = 1) s.system.heap.pool ⟨some 1, 0⟩ :=
    ⟨1, rfl, 1, rfl, F.1.on.heap.forest.onPath_head rfl⟩
  rw [hsettled ⟨some 1, 0⟩ fun W hW => ?_, ← visibleAt_eq hon, hvalue]
  by_cases hwho : W ∈ [1, 2, 3]
  · have := hplaced W hwho
    rw [hW] at this
    cases this
  · rw [(F.2 W hwho).1] at hW
    cases hW

end duck.table
