-- Who wrote the tuples that the reads of a table return. A tuple is in the heap
-- before its transaction has asked for its lock, so the locks keep reads off it
-- only when nobody else holds or gets a lock on its RID in between.
import DuckDbms.SharedRollback

open machine duck.buffer_pool duck.lock_manager duck.table_heap

namespace duck.table

/-! ## The writers of the tuples -/

/-- Who wrote the tuple of a RID, none for a tuple that was there before, and its bytes. -/
structure Written where
  writer : Option TransactionID
  bytes : List UInt8

/-- The last tuple that was written to each RID, or none where it was deleted. -/
abbrev Writers := RID → Option Written

def writerOf (w : Option Written) : Option TransactionID := w.bind Written.writer

/-- What was written beside the transactions, and what the undo log of each transaction puts
back, in the order of the log. `left` goes with the records that an abort has left. -/
structure WriteHistory where
  system : TableSystem
  written : Writers
  saved : TransactionID → List (Option Written)
  left : TransactionID → List (Option Written)

namespace WriteHistory

variable (s : WriteHistory)

def writer (rid : RID) : Option TransactionID := writerOf (s.written rid)

/-- What was written, with `w` at a RID if its page can be fetched. -/
def putAt (rid : RID) (w : Option Written) : Writers :=
  if reaches s.system.heap.pool rid then Function.update s.written rid w else s.written

/-- A step of a transaction that took it from one place of its call to another. -/
def noteCalls (tx : TransactionID) (t : TableSystem) : TableCall → TableCall → WriteHistory
  | .insert _ tuple, .lock_inserted rid =>
    ⟨t, Function.update s.written rid (some ⟨some tx, tuple⟩),
      Function.update s.saved tx (none :: s.saved tx), s.left⟩
  | .delete_inserted rid, .done (.ok _) =>
    ⟨t, s.putAt rid none, Function.update s.saved tx (s.saved tx).tail, s.left⟩
  | .delete rid _, .done (.ok (.deleted true)) =>
    ⟨t, Function.update s.written rid none,
      Function.update s.saved tx (s.written rid :: s.saved tx), s.left⟩
  | .update _ rid tuple _, .lock_moved _ _ ret_rid =>
    ⟨t, Function.update (Function.update s.written rid none) ret_rid (some ⟨some tx, tuple⟩),
      Function.update s.saved tx (none :: s.written rid :: s.saved tx), s.left⟩
  | .update _ rid tuple _, .done (.ok (.placed (some _))) =>
    ⟨t, Function.update s.written rid (some ⟨some tx, tuple⟩),
      Function.update s.saved tx (none :: s.written rid :: s.saved tx), s.left⟩
  | .abort, .undo _ => ⟨t, s.written, s.saved, Function.update s.left tx (s.saved tx)⟩
  | .undo (.DeleteUndoRecord rid :: _), .undo _ =>
    ⟨t, s.putAt rid none, s.saved, Function.update s.left tx (s.left tx).tail⟩
  | .undo (.RestoreUndoRecord rid _ :: _), .undo _ =>
    ⟨t, s.putAt rid (s.left tx).head?.join, s.saved, Function.update s.left tx (s.left tx).tail⟩
  | _, _ => { s with system := t }

def note (tx : TransactionID) (t : TableSystem) : WriteHistory :=
  s.noteCalls tx t (s.system.txs tx).call (t.txs tx).call

def next : TableEvent → Option WriteHistory
  | .step tx expired => (table_step s.system tx expired).map (s.note tx)
  | e => (s.system.next e).map fun t => { s with system := t }

end WriteHistory

/-- Every transaction begins, over the heaps of a pool. -/
def writeMachine (evicts : Prop) (heads : Nat → Prop) : Machine WriteHistory TableEvent where
  start s := HeapState evicts s.system.heap.outside (fun _ => False) heads s.system.heap.pool ∧
    s.system.locks = fresh ∧ (s.system.txs = fun _ => {}) ∧
    (s.written = fun rid => (tupleAt s.system.heap.pool rid).map (⟨none, ·⟩)) ∧
    (s.saved = fun _ => []) ∧ s.left = fun _ => []
  next := WriteHistory.next

def Committed (s : TableSystem) (tx : TransactionID) : Prop :=
  (s.locks.txs tx).state = .COMMITTED

/-- What `get_tuple` returns are the bytes that were last written to its RID, by its own
transaction, by one that has committed, or before all of them. -/
def NoDirtyRead (s : WriteHistory) : Prop :=
  ∀ tx rid bytes b, (s.system.txs tx).call = .read rid →
    get_tuple s.system.heap.pool rid = (.ok (some bytes), b) →
    ∃ W, s.written rid = some ⟨W, bytes⟩ ∧ ∀ V, W = some V → V = tx ∨ Committed s.system V

/-! ## Tuples without a lock -/

/-- What a step must keep apart: a tuple is placed only where no other transaction has a lock, and
no other transaction gets a lock there before its own does. What is taken back is reached. -/
structure TuplesApart (evicts : Prop) (s t : TableSystem) (tx : TransactionID) (expired : Bool) :
    Prop extends RestoresStay evicts s t tx where
  placed : ∀ rid, (s.txs tx).call.placed = none → (t.txs tx).call.placed = some rid →
    ∀ U, U ≠ tx → ¬ Covered s.locks U rid .SHARED
  unseen : ∀ rid mode, (s.txs tx).call.wants = some (rid, mode) →
    (lockCall s.locks tx rid mode expired).2 = some true →
    ∀ U, U ≠ tx → (s.txs U).call.placed ≠ some rid
  removed : ∀ rid, (s.txs tx).call = .delete_inserted rid → reaches s.heap.pool rid = true

/-- The calls work on the heaps, and the steps keep apart what the locks do not. The deletes of an
undo log are reached, and an abort that threw is not started again. -/
def KeepsApart (evicts : Prop) (heads : Nat → Prop) (s : WriteHistory) : TableEvent → Prop
  | .call tx op => op.call.On heads s.system.heap.pool ∧
      (op = .abort → (s.system.locks.txs tx).state ≠ .SHRINKING)
  | .step tx expired =>
    (∀ t, table_step s.system tx expired = some t → TuplesApart evicts s.system t tx expired) ∧
    ∀ rid rest, (s.system.txs tx).call = .undo (.DeleteUndoRecord rid :: rest) →
      reaches s.system.heap.pool rid = true
  | .fetch _ | .unpin _ => True

/-! ## What an undo log puts back -/

/-- The records take back everything that the transaction wrote, whether or not they reach the
page of what they restore. What they restore is the transaction's own, under its lock, or
committed. -/
inductive Rewinds (tx : TransactionID) (committed : TransactionID → Prop) (held : RID → Prop) :
    List UndoRecord → List (Option Written) → Writers → Prop
  | clean {m : Writers} : (∀ rid, writerOf (m rid) ≠ some tx) → Rewinds tx committed held [] [] m
  | deletes {l : List UndoRecord} {ws : List (Option Written)} {m : Writers} {rid : RID} :
      Rewinds tx committed held l ws (Function.update m rid none) →
      Rewinds tx committed held (.DeleteUndoRecord rid :: l) (none :: ws) m
  | restores {l : List UndoRecord} {ws : List (Option Written)} {m : Writers} {rid : RID}
      {W : Option TransactionID} {old : List UInt8} : writerOf (m rid) ≠ some tx →
      (∀ V, W = some V → committed V ∨ (V = tx ∧ held rid)) →
      Rewinds tx committed held l ws (Function.update m rid (some ⟨W, old⟩)) →
      Rewinds tx committed held (.RestoreUndoRecord rid old :: l) (some ⟨W, old⟩ :: ws) m

section
variable {tx : TransactionID} {committed committed' : TransactionID → Prop}
  {held held' : RID → Prop} {l : List UndoRecord} {ws : List (Option Written)}
  {m m' : Writers}

theorem writerOf_update_mono (h : ∀ rid, writerOf (m' rid) = some tx → writerOf (m rid) = some tx)
    (rid : RID) (w : Option Written) (r : RID)
    (hr : writerOf (Function.update m' rid w r) = some tx) :
    writerOf (Function.update m rid w r) = some tx := by
  by_cases hrid : r = rid
  · subst hrid
    rw [Function.update_self] at hr ⊢
    exact hr
  · rw [Function.update_of_ne hrid] at hr ⊢
    exact h r hr

/-- The others write over tuples of the transaction at most, commit, and leave its locks. -/
theorem Rewinds.mono (R : Rewinds tx committed held l ws m)
    (hc : ∀ V, committed V → committed' V) (hh : ∀ rid, held rid → held' rid)
    (hm : ∀ rid, writerOf (m' rid) = some tx → writerOf (m rid) = some tx) :
    Rewinds tx committed' held' l ws m' := by
  induction R generalizing m' with
  | clean hclean => exact .clean fun rid h => hclean rid (hm rid h)
  | deletes _ ih => exact .deletes (ih (writerOf_update_mono hm _ _))
  | restores hgone hW _ ih =>
    exact .restores (fun h => hgone (hm _ h))
      (fun V hV => (hW V hV).imp (hc V) fun h => ⟨h.1, hh _ h.2⟩)
      (ih (writerOf_update_mono hm _ _))

theorem Rewinds.nothing_left (R : Rewinds tx committed held [] ws m) (rid : RID) :
    writerOf (m rid) ≠ some tx := by
  cases R with
  | clean h => exact h rid

/-- A tuple that the transaction deletes, and the record that restores it. -/
theorem Rewinds.delete (R : Rewinds tx committed held l ws m) {rid : RID} {old : List UInt8}
    {W : Option TransactionID} (hold : m rid = some ⟨W, old⟩)
    (hw : ∀ V, W = some V → committed V ∨ (V = tx ∧ held rid)) :
    Rewinds tx committed held (.RestoreUndoRecord rid old :: l) (m rid :: ws)
      (Function.update m rid none) := by
  rw [hold]
  refine .restores (by rw [Function.update_self]; simp [writerOf]) hw ?_
  rwa [Function.update_idem, ← hold, Function.update_eq_self]

/-- A tuple that the transaction places, and the record that deletes it. -/
theorem Rewinds.place (R : Rewinds tx committed held l ws m) (rid : RID) (w : Option Written) :
    Rewinds tx committed held (.DeleteUndoRecord rid :: l) (none :: ws)
      (Function.update m rid w) := by
  refine .deletes (R.mono (fun _ h => h) (fun _ h => h) fun r hr => ?_)
  rw [Function.update_idem] at hr
  by_cases h : r = rid
  · subst h
    rw [Function.update_self] at hr
    cases hr
  · rwa [Function.update_of_ne h] at hr

end

/-! ## What the steps keep -/

/-- The locks that a call has at each of its places. -/
def TableCall.Holds (l : LockSystem) (tx : TransactionID) : TableCall → Prop
  | .read rid => Covered l tx rid .SHARED
  | .read_deleted rid | .delete rid _ => Covered l tx rid .EXCLUSIVE
  | .read_updated _ rid _ | .update _ rid _ _ | .lock_moved rid _ _ =>
    Covered l tx rid .EXCLUSIVE ∧ (l.txs tx).state = .GROWING
  | _ => True

/-- The records that stand for a tuple whose lock is not there yet. -/
def TableCall.owes : TableCall → List UndoRecord
  | .lock_inserted rid | .delete_inserted rid => [.DeleteUndoRecord rid]
  | .lock_moved rid old ret_rid => [.DeleteUndoRecord ret_rid, .RestoreUndoRecord rid old]
  | _ => []

/-- What holds of one transaction: the state fits the call, and its records, as long as they may
still run, take back what it wrote. -/
structure TxWrites (s : WriteHistory) (tx : TransactionID) : Prop where
  holds : (s.system.txs tx).call.Holds s.system.locks tx
  ended : Committed s.system tx → (s.system.txs tx).call = .ended
  abortable : (s.system.txs tx).call = .abort → (s.system.locks.txs tx).state ≠ .SHRINKING
  undoes : ∀ l, (s.system.txs tx).call = .undo l → (s.system.locks.txs tx).state = .SHRINKING
  open_ : (s.system.locks.txs tx).state ≠ .SHRINKING → (s.system.txs tx).call ≠ .ended →
    Rewinds tx (Committed s.system) (· ∈ (s.system.locks.txs tx).exclusive_locks)
      ((s.system.txs tx).call.owes ++ (s.system.txs tx).undo_log) (s.saved tx) s.written
  undo : ∀ l, (s.system.txs tx).call = .undo l →
    Rewinds tx (Committed s.system) (· ∈ (s.system.locks.txs tx).exclusive_locks) l (s.left tx)
      s.written

/-- The tuple of a transaction is under its exclusive lock, or it was placed and its lock is yet
to come. -/
def Kept (s : TableSystem) (rid : RID) (W : TransactionID) : Prop :=
  Committed s W ∨ rid ∈ (s.locks.txs W).exclusive_locks ∨ (s.txs W).call.placed = some rid

structure WriteInv (s : WriteHistory) : Prop where
  locked : TableLocked s.system
  window : ∀ W rid, (s.system.txs W).call.placed = some rid → ∀ U, U ≠ W →
    ¬ Covered s.system.locks U rid .SHARED
  kept : ∀ rid W, s.writer rid = some W → Kept s.system rid W
  txs : ∀ tx, TxWrites s tx

section
variable {evicts : Prop} {heads : Nat → Prop} {s s' : WriteHistory} {t : TableSystem}
  {tx : TransactionID} {expired : Bool}

/-- A step of one transaction writes only tuples of its own, or puts back tuples that are
committed or its own. -/
structure Writes (s s' : WriteHistory) (tx : TransactionID) : Prop where
  txs : ∀ U, U ≠ tx → s'.system.txs U = s.system.txs U ∧
    s'.system.locks.txs U = s.system.locks.txs U ∧ s'.saved U = s.saved U ∧ s'.left U = s.left U
  others : ∀ rid V, V ≠ tx → s'.writer rid = some V → s.writer rid = some V ∨ Committed s.system V
  own : ∀ rid, s'.writer rid = some tx → Kept s'.system rid tx
  window : ∀ rid, (s'.system.txs tx).call.placed = some rid → ∀ U, U ≠ tx →
    ¬ Covered s.system.locks U rid .SHARED
  locks : ∀ rid, Covered s'.system.locks tx rid .SHARED →
    Covered s.system.locks tx rid .SHARED ∨ ∀ U, U ≠ tx → (s.system.txs U).call.placed ≠ some rid

theorem holds_congr {l l' : LockSystem} {U : TransactionID} (h : l'.txs U = l.txs U)
    (c : TableCall) : c.Holds l' U = c.Holds l U := by
  cases c <;> simp [TableCall.Holds, Covered, h]

theorem WriteInv.of_writes (I : WriteInv s) (hlocked : TableLocked s'.system)
    (hactive : ¬ Committed s.system tx) (W : Writes s s' tx) (hown : TxWrites s' tx) :
    WriteInv s' := by
  have hcom : ∀ V, Committed s.system V → Committed s'.system V := by
    intro V hV
    have hne : V ≠ tx := fun h => hactive (h ▸ hV)
    unfold Committed
    rw [(W.txs V hne).2.1]
    exact hV
  refine ⟨hlocked, fun V rid hp U hU => ?_, fun rid V hV => ?_, fun U => ?_⟩
  · by_cases hV : V = tx
    · subst hV
      rw [covered_congr (W.txs U hU).2.1]
      exact W.window rid hp U hU
    · rw [(W.txs V hV).1] at hp
      by_cases hUtx : U = tx
      · subst hUtx
        intro hc
        rcases W.locks rid hc with h | h
        · exact I.window V rid hp U hU h
        · exact h V hV hp
      · rw [covered_congr (W.txs U hUtx).2.1]
        exact I.window V rid hp U hU
  · by_cases hne : V = tx
    · subst hne
      exact W.own rid hV
    · rcases W.others rid V hne hV with h | h
      · have hk := I.kept rid V h
        unfold Kept Committed at hk ⊢
        rwa [(W.txs V hne).1, (W.txs V hne).2.1]
      · exact Or.inl (hcom V h)
  · by_cases hne : U = tx
    · subst hne
      exact hown
    obtain ⟨htx, hl, hsaved, hleft⟩ := W.txs U hne
    have T := I.txs U
    -- the others write no tuple of a transaction that has not committed
    have hmono : ¬ Committed s.system U → ∀ rid, s'.writer rid = some U → s.writer rid = some U :=
      fun hno rid hw => (W.others rid U hne hw).resolve_right hno
    have hc : Committed s'.system U ↔ Committed s.system U := by
      unfold Committed
      rw [hl]
    refine ⟨?_, ?_, ?_, ?_, ?_, ?_⟩
    · rw [htx, holds_congr hl]
      exact T.holds
    · rw [htx, hc]
      exact T.ended
    · rw [htx, hl]
      exact T.abortable
    · rw [htx, hl]
      exact T.undoes
    · rw [htx, hl, hsaved]
      intro h1 h2
      exact (T.open_ h1 h2).mono hcom (fun _ h => h) (hmono fun h => h2 (T.ended h))
    · rw [htx, hl, hleft]
      intro l hcall
      refine (T.undo l hcall).mono hcom (fun _ h => h) (hmono fun h => ?_)
      rw [T.ended h] at hcall
      cases hcall

theorem noteCalls_other (s : WriteHistory) (tx : TransactionID) (t : TableSystem)
    (c c' : TableCall) :
    (s.noteCalls tx t c c').system = t ∧ ∀ U, U ≠ tx →
      (s.noteCalls tx t c c').saved U = s.saved U ∧ (s.noteCalls tx t c c').left U = s.left U := by
  unfold WriteHistory.noteCalls
  split <;> refine ⟨rfl, fun U hU => ?_⟩ <;> simp [Function.update_of_ne hU]

theorem writerOf_update {m : Writers} {rid r : RID} {w : Option Written} {V : TransactionID}
    (h : writerOf (Function.update m rid w r) = some V) :
    (r = rid ∧ writerOf w = some V) ∨ (r ≠ rid ∧ writerOf (m r) = some V) := by
  by_cases hr : r = rid
  · subst hr
    rw [Function.update_self] at h
    exact Or.inl ⟨rfl, h⟩
  · rw [Function.update_of_ne hr] at h
    exact Or.inr ⟨hr, h⟩

theorem delete_tuple_reaches {b : BufferPoolManager} {rid : RID} (h : reaches b rid = true) :
    ∃ d b', delete_tuple b rid = (.ok d, b') := by
  unfold reaches at h
  unfold delete_tuple with_page
  split at h
  · rename_i f b' hf
    rw [hf]
    exact ⟨_, _, rfl⟩
  · cases h

/-- What a transaction wrote before a step is under its lock, or placed. -/
theorem WriteInv.own (I : WriteInv s) (hactive : ¬ Committed s.system tx) {rid : RID}
    (h : s.writer rid = some tx) : rid ∈ (s.system.locks.txs tx).exclusive_locks ∨
      (s.system.txs tx).call.placed = some rid :=
  (I.kept rid tx h).resolve_left hactive

/-- The writer of a tuple that a transaction has locked for itself. -/
theorem WriteInv.writer_under_lock (I : WriteInv s) {rid : RID}
    (hx : Covered s.system.locks tx rid .EXCLUSIVE) {V : TransactionID}
    (hV : s.writer rid = some V) :
    Committed s.system V ∨ (V = tx ∧ rid ∈ (s.system.locks.txs tx).exclusive_locks) := by
  by_contra hno
  rw [not_or] at hno
  have hne : V ≠ tx := fun h => hno.2 ⟨h, hx⟩
  rcases I.kept rid V hV with h | h | h
  · exact hno.1 h
  · have hheld := (I.locked.inv.exclusive rid tx).mp hx
    exact I.locked.inv.excludes hheld hne .EXCLUSIVE ((I.locked.inv.exclusive rid V).mp h)
  · exact I.window V rid h tx (Ne.symm hne) (Or.inr hx)

section
variable {b : BufferPoolManager} {log : List UndoRecord} {c call : TableCall}

/-- A step of the heap: the locks stay, and the call goes on. -/
theorem Writes.of_heap (hs' : s' = s.noteCalls tx (s.system.after b tx log call) c call)
    (hothers : ∀ rid V, V ≠ tx → s'.writer rid = some V →
      s.writer rid = some V ∨ Committed s.system V)
    (hown : ∀ rid, s'.writer rid = some tx →
      rid ∈ (s.system.locks.txs tx).exclusive_locks ∨ call.placed = some rid)
    (hwindow : ∀ rid, call.placed = some rid → ∀ U, U ≠ tx →
      ¬ Covered s.system.locks U rid .SHARED) : Writes s s' tx := by
  obtain ⟨hsys, hrest⟩ := noteCalls_other s tx (s.system.after b tx log call) c call
  rw [← hs'] at hsys hrest
  have hcall : (s'.system.txs tx).call = call := by
    rw [hsys]
    simp [TableSystem.after]
  refine ⟨fun U hU => ⟨?_, ?_, hrest U hU⟩, hothers, fun rid hw => ?_, fun rid hp => ?_,
    fun rid hc => ?_⟩
  · rw [hsys]
    exact Function.update_of_ne hU _ _
  · rw [hsys]
    rfl
  · unfold Kept
    rw [hcall, hsys]
    exact Or.inr (hown rid hw)
  · rw [hcall] at hp
    exact hwindow rid hp
  · rw [hsys] at hc
    exact Or.inl hc

/-- A step of the heap of a call that had placed no tuple. -/
theorem Writes.of_call (I : WriteInv s) (hactive : ¬ Committed s.system tx)
    (hs' : s' = s.noteCalls tx (s.system.after b tx log call) c call)
    (hc : (s.system.txs tx).call = c) (hnone : c.placed = none)
    (hwrote : ∀ rid V, s'.writer rid = some V → s.writer rid = some V ∨
      (V = tx ∧ (rid ∈ (s.system.locks.txs tx).exclusive_locks ∨ call.placed = some rid)))
    (hwindow : ∀ rid, call.placed = some rid → ∀ U, U ≠ tx →
      ¬ Covered s.system.locks U rid .SHARED) : Writes s s' tx := by
  refine .of_heap hs' (fun rid V hV hw => Or.inl ?_) (fun rid hw => ?_) hwindow
  · exact (hwrote rid V hw).resolve_right fun h => hV h.1
  · rcases hwrote rid tx hw with h | ⟨_, h⟩
    · rcases I.own hactive h with h | h
      · exact Or.inl h
      · rw [hc, hnone] at h
        cases h
    · exact h

/-- The transaction itself after a step of the heap outside of its end. -/
theorem TxWrites.of_heap (T : TxWrites s tx) (hc : (s.system.txs tx).call = c)
    (hs' : s' = s.noteCalls tx (s.system.after b tx log call) c call)
    (hactive : ¬ Committed s.system tx) (hend : call.ending = false)
    (hne : c ≠ .ended) (hholds : call.Holds s.system.locks tx)
    (hopen : Rewinds tx (Committed s.system)
        (· ∈ (s.system.locks.txs tx).exclusive_locks)
        (c.owes ++ (s.system.txs tx).undo_log) (s.saved tx) s.written →
      Rewinds tx (Committed s.system) (· ∈ (s.system.locks.txs tx).exclusive_locks)
        (call.owes ++ log) (s'.saved tx) s'.written) : TxWrites s' tx := by
  obtain ⟨hsys, _⟩ := noteCalls_other s tx (s.system.after b tx log call) c call
  rw [← hs'] at hsys
  have hcall : (s'.system.txs tx).call = call := by
    rw [hsys]
    simp [TableSystem.after]
  have hlog : (s'.system.txs tx).undo_log = log := by
    rw [hsys]
    simp [TableSystem.after]
  have hlocks : s'.system.locks = s.system.locks := by
    rw [hsys]
    rfl
  have hcom : Committed s'.system = Committed s.system := by
    unfold Committed
    rw [hlocks]
  refine ⟨?_, ?_, ?_, ?_, ?_, ?_⟩
  · rw [hcall, hlocks]
    exact hholds
  · rw [hcom]
    exact fun h => absurd h hactive
  · rw [hcall]
    rintro rfl
    cases hend
  · rw [hcall]
    rintro l rfl
    cases hend
  · rw [hcall, hlocks, hcom, hlog]
    intro hst _
    exact hopen (hc ▸ T.open_ hst (hc ▸ hne))
  · rw [hcall]
    rintro l rfl
    cases hend

end

/-! ## The steps of the heap -/

/-- A step of the heap that wrote nothing. -/
theorem heap_quiet {b : BufferPoolManager} {log : List UndoRecord} {c call : TableCall}
    (I : WriteInv s) (hc : (s.system.txs tx).call = c) (hactive : ¬ Committed s.system tx)
    (hquiet : s.noteCalls tx (s.system.after b tx log call) c call =
      { s with system := s.system.after b tx log call })
    (hplaced : c.placed = none) (hplaced' : call.placed = none) (hend : call.ending = false)
    (hne : c ≠ .ended) (hholds : call.Holds s.system.locks tx) (hlog : log = (s.system.txs tx).undo_log)
    (howes : c.owes = []) (howes' : call.owes = []) :
    Writes s (s.noteCalls tx (s.system.after b tx log call) c call) tx ∧
      TxWrites (s.noteCalls tx (s.system.after b tx log call) c call) tx := by
  refine ⟨.of_call I hactive rfl hc hplaced (fun rid V h => Or.inl ?_) (fun rid h => ?_),
    (I.txs tx).of_heap hc rfl hactive hend hne hholds ?_⟩
  · rwa [hquiet] at h
  · rw [hplaced'] at h
    cases h
  · rw [hquiet, howes, howes', hlog]
    exact fun R => R

theorem noteCalls_refused (s : WriteHistory) (tx : TransactionID) (c : TableCall)
    (t : TableSystem) (r : Except String TableResult) (hc : ∀ rid, c ≠ .delete_inserted rid) (hr : Refused r) :
    s.noteCalls tx t c (.done r) = { s with system := t } := by
  rcases r with e | r
  · cases c with
    | undo l => rcases l with _ | ⟨_ | _, l⟩ <;> rfl
    | _ => rfl
  · have hno := hr r rfl
    cases c with
    | delete_inserted rid => exact absurd rfl (hc rid)
    | undo l => rcases l with _ | ⟨_ | _, l⟩ <;> rfl
    | delete =>
      cases r with
      | deleted d =>
        obtain rfl : d = false := hno
        rfl
      | _ => rfl
    | update =>
      cases r with
      | placed rid =>
        obtain rfl : rid = none := by simpa [TableResult.changed] using hno
        rfl
      | _ => rfl
    | _ => rfl

/-- A tuple that was not locked is taken back. -/
theorem heap_taken_back {b : BufferPoolManager} {log : List UndoRecord} {rid : RID}
    {r : Except String TableResult} (I : WriteInv s) (hreach : reaches s.system.heap.pool rid = true)
    (hstep : table_step s.system tx expired = some (s.system.after b tx log (.done r)))
    (hc : (s.system.txs tx).call = .delete_inserted rid) (hactive : ¬ Committed s.system tx)
    (hlog : log = (s.system.txs tx).undo_log) :
    Writes s (s.noteCalls tx (s.system.after b tx log (.done r)) (.delete_inserted rid) (.done r))
        tx ∧
      TxWrites (s.noteCalls tx (s.system.after b tx log (.done r)) (.delete_inserted rid)
        (.done r)) tx := by
  obtain ⟨d, b', hd⟩ := delete_tuple_reaches hreach
  -- the delete did not throw
  obtain ⟨res, rfl⟩ : ∃ res, r = .ok res := by
    unfold table_step at hstep
    simp only [hc, hd, Option.some.injEq] at hstep
    have hcall := congrArg (fun s : TableSystem => (s.txs tx).call) hstep
    simp only [TableSystem.go_on, TableSystem.after, Function.update_self] at hcall
    cases hcall
    exact ⟨_, rfl⟩
  have hput : s.putAt rid none = Function.update s.written rid none := by
    unfold WriteHistory.putAt
    rw [hreach, if_pos rfl]
  have hleft : ∀ {r V}, writerOf (Function.update s.written rid none r) = some V →
      r ≠ rid ∧ s.writer r = some V := by
    intro r V h
    rcases writerOf_update h with ⟨_, h⟩ | h
    · cases h
    · exact h
  refine ⟨.of_heap rfl ?_ ?_ (fun _ h => by cases h),
    (I.txs tx).of_heap hc rfl hactive rfl (by simp) trivial ?_⟩
  · intro r V _ hV
    simp only [WriteHistory.noteCalls, WriteHistory.writer, hput] at hV
    exact Or.inl (hleft hV).2
  · intro r hV
    simp only [WriteHistory.noteCalls, WriteHistory.writer, hput] at hV
    obtain ⟨hr, hV⟩ := hleft hV
    rcases I.own hactive hV with h | h
    · exact Or.inl h
    · rw [hc] at h
      exact absurd (Option.some.inj h).symm hr
  · intro R
    generalize hsaved : s.saved tx = ws at R
    cases R with
    | deletes R =>
      simp only [WriteHistory.noteCalls, Function.update_self, hput, hsaved, List.tail_cons, hlog]
      exact R

section
variable {b : BufferPoolManager} {h : PageID} {rid ret_rid : RID} {tuple old : List UInt8}
  {W : Option TransactionID}

theorem heap_inserted (I : WriteInv s) (hc : (s.system.txs tx).call = .insert h tuple)
    (hactive : ¬ Committed s.system tx)
    (hfree : ∀ U, U ≠ tx → ¬ Covered s.system.locks U rid .SHARED) (t : TableSystem)
    (ht : t = s.system.after b tx (s.system.txs tx).undo_log (.lock_inserted rid)) :
    Writes s (s.noteCalls tx t (.insert h tuple) (.lock_inserted rid)) tx ∧
      TxWrites (s.noteCalls tx t (.insert h tuple) (.lock_inserted rid)) tx := by
  subst ht
  refine ⟨.of_call I hactive rfl hc rfl (fun r V hw => ?_) (fun r hr => ?_),
    (I.txs tx).of_heap hc rfl hactive rfl (by simp) trivial fun R => ?_⟩
  · rcases writerOf_update hw with ⟨rfl, hV⟩ | ⟨_, hV⟩
    · exact Or.inr ⟨(Option.some.inj hV).symm, Or.inr rfl⟩
    · exact Or.inl hV
  · cases hr
    exact hfree
  · simp only [WriteHistory.noteCalls, Function.update_self]
    exact R.place rid _

theorem heap_deleted (I : WriteInv s) (hc : (s.system.txs tx).call = .delete rid old)
    (hactive : ¬ Committed s.system tx) (hold : s.written rid = some ⟨W, old⟩) (t : TableSystem)
    (ht : t = s.system.after b tx (.RestoreUndoRecord rid old :: (s.system.txs tx).undo_log)
      (.done (.ok (.deleted true)))) :
    Writes s (s.noteCalls tx t (.delete rid old) (.done (.ok (.deleted true)))) tx ∧
      TxWrites (s.noteCalls tx t (.delete rid old) (.done (.ok (.deleted true)))) tx := by
  subst ht
  have hx := (I.txs tx).holds
  rw [hc] at hx
  refine ⟨.of_call I hactive rfl hc rfl (fun r V hw => ?_) (fun r hr => by cases hr),
    (I.txs tx).of_heap hc rfl hactive rfl (by simp) trivial fun R => ?_⟩
  · rcases writerOf_update hw with ⟨_, hV⟩ | ⟨_, hV⟩
    · cases hV
    · exact Or.inl hV
  · simp only [WriteHistory.noteCalls, Function.update_self]
    exact R.delete hold fun V hV => I.writer_under_lock hx (by
      unfold WriteHistory.writer
      rw [hold]
      exact hV)

theorem heap_updated (I : WriteInv s) (hc : (s.system.txs tx).call = .update h rid tuple old)
    (hactive : ¬ Committed s.system tx) (hold : s.written rid = some ⟨W, old⟩) (t : TableSystem)
    (ht : t = s.system.after b tx
      (.DeleteUndoRecord rid :: .RestoreUndoRecord rid old :: (s.system.txs tx).undo_log)
      (.done (.ok (.placed (some rid))))) :
    Writes s (s.noteCalls tx t (.update h rid tuple old) (.done (.ok (.placed (some rid))))) tx ∧
      TxWrites (s.noteCalls tx t (.update h rid tuple old) (.done (.ok (.placed (some rid))))) tx := by
  subst ht
  have hx := (I.txs tx).holds
  rw [hc] at hx
  refine ⟨.of_call I hactive rfl hc rfl (fun r V hw => ?_) (fun r hr => by cases hr),
    (I.txs tx).of_heap hc rfl hactive rfl (by simp) trivial fun R => ?_⟩
  · rcases writerOf_update hw with ⟨rfl, hV⟩ | ⟨_, hV⟩
    · exact Or.inr ⟨(Option.some.inj hV).symm, Or.inl hx.1⟩
    · exact Or.inl hV
  · simp only [WriteHistory.noteCalls, Function.update_self]
    have R' := (R.delete hold fun V hV => I.writer_under_lock hx.1 (by
      unfold WriteHistory.writer
      rw [hold]
      exact hV)).place rid (some ⟨some tx, tuple⟩)
    rwa [Function.update_idem] at R'

theorem heap_moved (I : WriteInv s) (hc : (s.system.txs tx).call = .update h rid tuple old)
    (hactive : ¬ Committed s.system tx) (hold : s.written rid = some ⟨W, old⟩)
    (hfree : ∀ U, U ≠ tx → ¬ Covered s.system.locks U ret_rid .SHARED) (t : TableSystem)
    (ht : t = s.system.after b tx (s.system.txs tx).undo_log (.lock_moved rid old ret_rid)) :
    Writes s (s.noteCalls tx t (.update h rid tuple old) (.lock_moved rid old ret_rid)) tx ∧
      TxWrites (s.noteCalls tx t (.update h rid tuple old) (.lock_moved rid old ret_rid)) tx := by
  subst ht
  have hx := (I.txs tx).holds
  rw [hc] at hx
  refine ⟨.of_call I hactive rfl hc rfl (fun r V hw => ?_) (fun r hr => ?_),
    (I.txs tx).of_heap hc rfl hactive rfl (by simp) hx fun R => ?_⟩
  · rcases writerOf_update hw with ⟨rfl, hV⟩ | ⟨_, hV⟩
    · exact Or.inr ⟨(Option.some.inj hV).symm, Or.inr rfl⟩
    · rcases writerOf_update hV with ⟨_, hV⟩ | ⟨_, hV⟩
      · cases hV
      · exact Or.inl hV
  · cases hr
    exact hfree
  · simp only [WriteHistory.noteCalls, Function.update_self]
    exact (R.delete hold fun V hV => I.writer_under_lock hx.1 (by
      unfold WriteHistory.writer
      rw [hold]
      exact hV)).place ret_rid _

end

/-- A step of the heap outside of an undo. -/
theorem heap_writes {b : BufferPoolManager} {log : List UndoRecord} {c call : TableCall}
    (I : WriteInv s) (hok : TuplesApart evicts s.system (s.system.after b tx log call) tx expired)
    (hread : ∀ rid old, (s.system.txs tx).call.seen = some (rid, old) →
      ∃ W, s.written rid = some ⟨W, old⟩)
    (hstep : table_step s.system tx expired = some (s.system.after b tx log call))
    (hc : (s.system.txs tx).call = c) (hactive : ¬ Committed s.system tx)
    (hm : HeapMove (s.system.txs tx).undo_log c call log) (hheap : c.calls_heap = true)
    (hend : c.ending = false) :
    Writes s (s.noteCalls tx (s.system.after b tx log call) c call) tx ∧
      TxWrites (s.noteCalls tx (s.system.after b tx log call) c call) tx := by
  have hcall : ((s.system.after b tx log call).txs tx).call = call := by
    simp [TableSystem.after]
  have hfree : ∀ rid, c.placed = none → call.placed = some rid → ∀ U, U ≠ tx →
      ¬ Covered s.system.locks U rid .SHARED := by
    intro rid h1 h2
    exact hok.placed rid (by rw [hc]; exact h1) (by rw [hcall]; exact h2)
  have hholds := (I.txs tx).holds
  rw [hc] at hholds hread
  cases hm with
  | undone | failed => cases hend
  | found_deleted | found_updated =>
    exact heap_quiet I hc hactive rfl rfl rfl rfl (by simp) hholds rfl rfl rfl
  | inserted => exact heap_inserted I hc hactive (hfree _ rfl rfl) _ rfl
  | deleted =>
    obtain ⟨W, hold⟩ := hread _ _ rfl
    exact heap_deleted I hc hactive hold _ rfl
  | updated =>
    obtain ⟨W, hold⟩ := hread _ _ rfl
    exact heap_updated I hc hactive hold _ rfl
  | moved =>
    obtain ⟨W, hold⟩ := hread _ _ rfl
    exact heap_moved I hc hactive hold (hfree _ rfl rfl) _ rfl
  | @returned _ r _ href =>
    by_cases hdel : ∃ rid, c = .delete_inserted rid
    · obtain ⟨rid, rfl⟩ := hdel
      exact heap_taken_back I (hok.removed rid hc) hstep hc hactive rfl
    · have hquiet := noteCalls_refused s tx c
        (s.system.after b tx (s.system.txs tx).undo_log (.done r)) r
        (fun rid h => hdel ⟨rid, h⟩) href
      have hnone : c.placed = none ∧ c.owes = [] ∧ c ≠ .ended := by
        cases c with
        | delete_inserted rid => exact absurd ⟨rid, rfl⟩ hdel
        | insert | read | read_deleted | delete | read_updated | update =>
          simp [TableCall.placed, TableCall.owes]
        | undo => cases hend
        | done | ended | lock_inserted | lock_read | lock_deleted | lock_updated | lock_moved | commit
        | abort => cases hheap
      exact heap_quiet I hc hactive hquiet hnone.1 rfl rfl hnone.2.2 trivial rfl hnone.2.1 rfl

/-- The transaction itself after a step of its undo log. -/
theorem TxWrites.of_undo {b : BufferPoolManager} {c call : TableCall}
    (hs' : s' = s.noteCalls tx (s.system.after b tx (s.system.txs tx).undo_log call) c call)
    (hactive : ¬ Committed s.system tx) (hstate : (s.system.locks.txs tx).state = .SHRINKING)
    (hcall' : call ≠ .abort) (hholds : call.Holds s.system.locks tx)
    (hundo : ∀ l, call = .undo l → Rewinds tx (Committed s.system)
      (· ∈ (s.system.locks.txs tx).exclusive_locks) l (s'.left tx) s'.written) : TxWrites s' tx := by
  obtain ⟨hsys, _⟩ := noteCalls_other s tx
    (s.system.after b tx (s.system.txs tx).undo_log call) c call
  rw [← hs'] at hsys
  have hcall : (s'.system.txs tx).call = call := by
    rw [hsys]
    simp [TableSystem.after]
  have hlocks : s'.system.locks = s.system.locks := by
    rw [hsys]
    rfl
  have hcom : Committed s'.system = Committed s.system := by
    unfold Committed
    rw [hlocks]
  refine ⟨?_, ?_, ?_, ?_, ?_, ?_⟩
  · rw [hcall, hlocks]
    exact hholds
  · rw [hcom]
    exact fun h => absurd h hactive
  · rw [hcall]
    exact fun h => absurd h hcall'
  · rw [hlocks]
    exact fun _ _ => hstate
  · rw [hlocks]
    exact fun h => absurd hstate h
  · rw [hcall, hlocks, hcom]
    exact hundo

/-- What a record leaves as written, and the records behind it. -/
structure PutsRecord (s s' : WriteHistory) (tx : TransactionID) (rest : List UndoRecord) : Prop where
  wrote : ∀ rid V, s'.writer rid = some V → s.writer rid = some V ∨ Committed s.system V ∨
    (V = tx ∧ rid ∈ (s.system.locks.txs tx).exclusive_locks)
  rewinds : Rewinds tx (Committed s.system) (· ∈ (s.system.locks.txs tx).exclusive_locks) rest
    (s'.left tx) s'.written

/-- A restore that cannot fetch its page is passed over. -/
theorem putsRecord (R : Rewinds tx (Committed s.system)
      (· ∈ (s.system.locks.txs tx).exclusive_locks) (u :: rest) (s.left tx) s.written)
    (hreach : ∀ rid, u = .DeleteUndoRecord rid → reaches s.system.heap.pool rid = true)
    (t : TableSystem) : PutsRecord s (s.noteCalls tx t (.undo (u :: rest)) (.undo rest)) tx rest := by
  generalize hleft : s.left tx = ws at R
  cases R with
  | @deletes _ ws _ rid R =>
    have hput : s.putAt rid none = Function.update s.written rid none := by
      unfold WriteHistory.putAt
      rw [hreach rid rfl, if_pos rfl]
    refine ⟨fun r V h => ?_, ?_⟩
    · simp only [WriteHistory.noteCalls, WriteHistory.writer, hput] at h
      rcases writerOf_update h with ⟨_, h⟩ | ⟨_, h⟩
      · cases h
      · exact Or.inl h
    · simp only [WriteHistory.noteCalls, hput, hleft, Function.update_self, List.tail_cons]
      exact R
  | @restores _ ws _ rid W old hgone hW R =>
    have hhead : (s.left tx).head?.join = some ⟨W, old⟩ := by
      rw [hleft]
      rfl
    refine ⟨fun r V h => ?_, ?_⟩
    all_goals simp only [WriteHistory.noteCalls, WriteHistory.writer, WriteHistory.putAt, hhead] at *
    · split at h
      · rcases writerOf_update h with ⟨rfl, hV⟩ | ⟨_, hV⟩
        · exact Or.inr (hW V hV)
        · exact Or.inl hV
      · exact Or.inl h
    · rw [hleft, Function.update_self, List.tail_cons]
      split
      · exact R
      · refine R.mono (fun _ h => h) (fun _ h => h) fun r hr => ?_
        by_cases h : r = rid
        · exact absurd (h ▸ hr) hgone
        · rwa [Function.update_of_ne h]

/-- A record of the undo log runs, or throws. -/
theorem undo_writes {b : BufferPoolManager} {log : List UndoRecord} {u : UndoRecord}
    {rest : List UndoRecord} {call : TableCall} (I : WriteInv s)
    (hreach : ∀ rid, u = .DeleteUndoRecord rid → reaches s.system.heap.pool rid = true)
    (hc : (s.system.txs tx).call = .undo (u :: rest)) (hactive : ¬ Committed s.system tx)
    (hm : HeapMove (s.system.txs tx).undo_log (.undo (u :: rest)) call log) :
    Writes s (s.noteCalls tx (s.system.after b tx log call) (.undo (u :: rest)) call) tx ∧
      TxWrites (s.noteCalls tx (s.system.after b tx log call) (.undo (u :: rest)) call) tx := by
  have T := I.txs tx
  have hstate := T.undoes _ hc
  have hown : ∀ {rid}, s.writer rid = some tx →
      rid ∈ (s.system.locks.txs tx).exclusive_locks := by
    intro rid h
    rcases I.own hactive h with h | h
    · exact h
    · rw [hc] at h
      cases h
  cases hm with
  | returned hend => cases hend
  | failed =>
    rename_i e
    have hquiet := noteCalls_refused s tx (.undo (u :: rest))
      (s.system.after b tx (s.system.txs tx).undo_log (.done (.error e))) (.error e) (by simp) (refused_error e)
    refine ⟨.of_heap rfl ?_ ?_ (fun _ h => by cases h),
      .of_undo rfl hactive hstate (by simp) trivial (by simp)⟩
    · rw [hquiet]
      exact fun _ _ _ h => Or.inl h
    · rw [hquiet]
      exact fun _ h => Or.inl (hown h)
  | undone =>
    obtain ⟨hwrote, R⟩ := putsRecord (T.undo _ hc) hreach
      (s.system.after b tx (s.system.txs tx).undo_log (.undo rest))
    refine ⟨.of_heap rfl (fun r V hV h => ?_) (fun r h => Or.inl ?_) (fun _ h => by cases h),
      .of_undo rfl hactive hstate (by simp) trivial ?_⟩
    · exact (hwrote r V h).imp_right fun h => h.resolve_right fun h => hV h.1
    · rcases hwrote r tx h with h | h | h
      · exact hown h
      · exact absurd h hactive
      · exact h.2
    · rintro l hl
      cases hl
      exact R

/-! ## The steps of the locks -/

/-- A lock call writes nothing. -/
theorem noteCalls_lock {x : RID × LockMode} {c : TableCall} (hw : c.wants = some x)
    (c' : TableCall) : s.noteCalls tx t c c' = { s with system := t } := by
  cases c with
  | lock_inserted | lock_moved | lock_read | lock_deleted | lock_updated => rfl
  | done | ended | insert | delete_inserted | read | read_deleted | delete | read_updated | update
  | commit | abort | undo => cases hw

theorem owes_of_wants {x : RID × LockMode} {c : TableCall} (hw : c.wants = some x) :
    c.owes = c.logs ∧ c.granted.owes = [] ∧ c.granted.placed = none ∧ c ≠ .ended := by
  cases c with
  | lock_inserted | lock_moved | lock_read | lock_deleted | lock_updated =>
    exact ⟨rfl, rfl, rfl, by simp⟩
  | done | ended | insert | delete_inserted | read | read_deleted | delete | read_updated | update
  | commit | abort | undo => cases hw

theorem placed_of_wants {rid rid' : RID} {mode : LockMode} {c : TableCall}
    (hw : c.wants = some (rid, mode)) (hp : c.placed = some rid') :
    rid' = rid ∧ mode = .EXCLUSIVE := by
  cases c with
  | lock_inserted | lock_moved =>
    cases hw
    cases hp
    exact ⟨rfl, rfl⟩
  | lock_read | lock_deleted | lock_updated => cases hp
  | done | ended | insert | delete_inserted | read | read_deleted | delete | read_updated | update
  | commit | abort | undo => cases hw

/-- What a call that is granted its lock goes on with. -/
theorem holds_granted {l : LockSystem} {rid : RID} {mode : LockMode} {c : TableCall}
    (hw : c.wants = some (rid, mode)) (h : Covered l tx rid mode)
    (hg : (l.txs tx).state = .GROWING) : c.granted.Holds l tx := by
  cases c with
  | lock_inserted | lock_moved => trivial
  | lock_read | lock_deleted =>
    cases hw
    exact h
  | lock_updated =>
    cases hw
    exact ⟨h, hg⟩
  | done | ended | insert | delete_inserted | read | read_deleted | delete | read_updated | update
  | commit | abort | undo => cases hw

section
variable {rid : RID} {mode : LockMode} {l : LockSystem} {r : Option Bool} {call : TableCall}
  {log : List UndoRecord}

/-- A section of the lock manager, and what the call does with its answer. -/
theorem lock_writes {k : TableSystem} (I : WriteInv s)
    (hok : TuplesApart evicts s.system k tx expired) (hactive : ¬ Committed s.system tx)
    (hw : (s.system.txs tx).call.wants = some (rid, mode))
    (hl : lockCall s.system.locks tx rid mode expired = (l, r)) (hlocks : t.locks = l)
    (htxs : ∀ U, U ≠ tx → t.txs U = s.system.txs U) (hcall : (t.txs tx).call = call)
    (hlog : (t.txs tx).undo_log = log) (hend : call.ending = false)
    (hholds : call.Holds l tx)
    (hplaced : ∀ rid', (s.system.txs tx).call.placed = some rid' →
      rid' ∈ (l.txs tx).exclusive_locks ∨ call.placed = some rid')
    (hplaced' : ∀ rid', call.placed = some rid' → (s.system.txs tx).call.placed = some rid')
    (howes : call.owes ++ log = (s.system.txs tx).call.owes ++ (s.system.txs tx).undo_log) :
    Writes s { s with system := t } tx ∧ TxWrites { s with system := t } tx := by
  have T := I.txs tx
  obtain ⟨e, he, _, _, hn⟩ := lockCall_next s.system.locks tx rid mode expired
  rw [hl] at hn
  have hother : ∀ U, U ≠ tx → l.txs U = s.system.locks.txs U :=
    fun U hU => (next_other hn (by rwa [he])).1
  have hx : ∀ rid', rid' ∈ (s.system.locks.txs tx).exclusive_locks →
      rid' ∈ (l.txs tx).exclusive_locks := by
    intro rid' h
    have := exclusive_lockCall tx rid mode expired h
    rwa [hl] at this
  have hstate := state_lockCall s.system.locks tx rid mode expired
  rw [hl] at hstate
  have hcom : ∀ V, Committed s.system V → Committed t V := by
    intro V hV
    have hne : V ≠ tx := fun h => hactive (h ▸ hV)
    unfold Committed
    rw [hlocks, hother V hne]
    exact hV
  have hcom' : ¬ Committed t tx := by
    intro h
    unfold Committed at h
    rw [hlocks] at h
    rcases hstate with hs | ⟨_, hs⟩
    · exact hactive (hs.symm.trans h)
    · rw [hs] at h
      cases h
  have hshrink : (l.txs tx).state ≠ .SHRINKING → (s.system.locks.txs tx).state ≠ .SHRINKING := by
    intro h1 h2
    rcases hstate with hs | ⟨hc, _⟩
    · exact h1 (hs.trans h2)
    · rw [I.locked.growing tx hc] at h2
      cases h2
  refine ⟨⟨fun U hU => ⟨htxs U hU, ?_, rfl, rfl⟩, fun _ _ _ h => Or.inl h, fun rid' h => ?_,
    fun rid' h => ?_, fun rid' h => ?_⟩, ⟨?_, ?_, ?_, ?_, ?_, ?_⟩⟩
  · exact (congrArg (fun k : LockSystem => k.txs U) hlocks).trans (hother U hU)
  · unfold Kept
    simp only [hcall, hlocks]
    rcases I.own hactive h with h | h
    · exact Or.inr (Or.inl (hx rid' h))
    · exact Or.inr (hplaced rid' h)
  · simp only [hcall] at h
    exact I.window tx rid' (hplaced' rid' h)
  · simp only [hlocks] at h
    have hheld := held_lockCall s.system.locks tx rid mode expired (by rw [hl]; exact h)
    rcases hheld with h | ⟨_, hgr, hrid⟩
    · exact Or.inl h
    · right
      have hsame : rid' = rid := by
        rcases hrid with h | ⟨w, hwait, h⟩
        · exact h
        · have hw' := I.locked.waits tx w.rid w.lock_mode w.upgrade
            (by simp [LockSystem.call, hwait])
          rw [hw] at hw'
          cases hw'
          exact h
      rw [hsame]
      exact hok.unseen rid mode hw hgr
  · simp only [hcall, hlocks]
    exact hholds
  · exact fun h => absurd h hcom'
  · simp only [hcall]
    rintro rfl
    cases hend
  · simp only [hcall]
    rintro k rfl
    cases hend
  · simp only [hcall, hlocks, hlog]
    intro hs _
    rw [howes]
    exact (T.open_ (hshrink hs) (owes_of_wants hw).2.2.2).mono hcom hx fun _ h => h
  · simp only [hcall]
    rintro k rfl
    cases hend

theorem lock_step_writes (I : WriteInv s) (hok : TuplesApart evicts s.system t tx expired)
    (hactive : ¬ Committed s.system tx)
    (hw : (s.system.txs tx).call.wants = some (rid, mode)) (h : TableStep s.system tx expired t) :
    Writes s { s with system := t } tx ∧ TxWrites { s with system := t } tx := by
  have T := I.txs tx
  have hends := ending_of_wants hw
  have howes := owes_of_wants hw
  have hlog : ∀ (k : TableSystem) b log call, ((k.after b tx log call).txs tx).undo_log = log :=
    fun k b log call => by simp [TableSystem.after]
  have hcall : ∀ (k : TableSystem) b log call, ((k.after b tx log call).txs tx).call = call :=
    fun k b log call => by simp [TableSystem.after]
  have hnone : ∀ {c : TableCall}, (s.system.txs tx).call = c → c.wants = none → False := by
    intro c hc hn
    rw [hc, hn] at hw
    cases hw
  cases h with
  | @asleep _ _ l hw' hl =>
    rw [hw] at hw'
    cases hw'
    obtain ⟨_, hg⟩ := I.locked.answered hw hl
    refine lock_writes I hok hactive hw hl rfl (fun _ _ => rfl) rfl rfl hends.1 ?_
      (fun _ h => Or.inr h) (fun _ h => h) rfl
    have hx : ∀ {r}, Covered s.system.locks tx r .EXCLUSIVE → Covered l tx r .EXCLUSIVE := by
      intro r h
      have := exclusive_lockCall tx rid mode expired h
      rw [hl] at this
      exact this
    have hholds := T.holds
    cases hc : (s.system.txs tx).call with
    | lock_moved =>
      rw [hc] at hholds
      exact ⟨hx hholds.1, hg⟩
    | lock_inserted | lock_read | lock_deleted | lock_updated => trivial
    | done | ended | insert | delete_inserted | read | read_deleted | delete | read_updated | update
    | commit | abort | undo => exact (hnone hc rfl).elim
  | granted hw' hl =>
    rw [hw] at hw'
    cases hw'
    obtain ⟨hcov, _, hg⟩ := I.locked.answered hw hl
    refine lock_writes I hok hactive hw hl rfl (fun _ hU => Function.update_of_ne hU _ _)
      (hcall _ _ _ _) (hlog _ _ _ _) hends.2.2 (holds_granted hw hcov hg) (fun rid' hp => ?_)
      (fun rid' hp => ?_) ?_
    · obtain ⟨rfl, rfl⟩ := placed_of_wants hw hp
      exact Or.inl hcov
    · rw [howes.2.2.1] at hp
      cases hp
    · rw [howes.1, howes.2.1, List.nil_append]
  | @refused _ _ l hw' hl =>
    rw [hw] at hw'
    cases hw'
    have hgo := lock_writes (t := ({ s.system with locks := l } : TableSystem).after
        s.system.heap.pool tx (s.system.txs tx).undo_log (s.system.txs tx).call.refused)
      I hok hactive hw hl rfl (fun _ hU => Function.update_of_ne hU _ _) (hcall _ _ _ _)
      (hlog _ _ _ _) hends.2.1
    cases hc : (s.system.txs tx).call with
    | lock_inserted | lock_read | lock_deleted | lock_updated =>
      rw [hc] at hgo
      exact hgo trivial (fun _ h => Or.inr h) (fun _ h => h) rfl
    | lock_moved =>
      -- the transaction is growing, and nobody else has a lock on the RID
      exfalso
      have hholds := T.holds
      rw [hc] at hholds hw
      cases hw
      have hgr := lockCall_grants .EXCLUSIVE expired I.locked.inv hholds.2 (fun r m up h => by
          have := I.locked.waits tx r m up h
          rw [hc] at this
          cases this
          rfl) (I.window tx rid (by rw [hc]; rfl))
      rw [hl] at hgr
      cases hgr
    | done | ended | insert | delete_inserted | read | read_deleted | delete | read_updated | update
    | commit | abort | undo => exact (hnone hc rfl).elim
  | committed hc | aborting hc | aborted hc => exact (hnone hc rfl).elim
  | heap _ hh =>
    exfalso
    cases hc : (s.system.txs tx).call with
    | lock_inserted | lock_read | lock_deleted | lock_updated | lock_moved =>
      rw [hc] at hh
      cases hh
    | done | ended | insert | delete_inserted | read | read_deleted | delete | read_updated | update
    | commit | abort | undo => exact hnone hc rfl

end

/-! ## The ends of transactions -/

/-- A transaction that has ended, and left no tuple that others may not read. -/
theorem finish_writes {k : TableSystem}
    {state : TransactionState} (hk : k.txs = s.system.txs)
    (hkl : ∀ U, U ≠ tx → k.locks.txs U = s.system.locks.txs U)
    (hstate : state = .COMMITTED ∨ (state = .ABORTED ∧ ∀ rid, s.writer rid ≠ some tx)) :
    Writes s { s with system := k.finish tx state } tx ∧
      TxWrites { s with system := k.finish tx state } tx := by
  have hlocks : ((k.finish tx state).locks.txs tx).state = state ∧
      ((k.finish tx state).locks.txs tx).exclusive_locks = [] ∧
      ((k.finish tx state).locks.txs tx).shared_locks = [] := by
    rw [finish_locks, txs_set_tx, if_pos rfl, unlock_all_txs, if_pos rfl]
    exact ⟨rfl, rfl, rfl⟩
  have hcall : ((k.finish tx state).txs tx).call = .ended := by
    simp [TableSystem.finish, TableSystem.go_on]
  refine ⟨⟨fun U hU => ?_, fun _ _ _ h => Or.inl h, fun rid h => ?_, fun rid h => ?_,
    fun rid h => ?_⟩, ⟨?_, fun _ => hcall, ?_, ?_, ?_, ?_⟩⟩
  · obtain ⟨h1, h2⟩ := finish_other hU k state
    exact ⟨h1.trans (by rw [hk]), h2.trans (hkl U hU), rfl, rfl⟩
  · rcases hstate with rfl | ⟨_, hno⟩
    · exact Or.inl hlocks.1
    · exact absurd h (hno rid)
  · simp only [hcall] at h
    cases h
  · simp only [Covered, hlocks.2.1, hlocks.2.2] at h
    simp at h
  · simp only [hcall]
    trivial
  · simp [hcall]
  · simp [hcall]
  · intro _ h
    exact absurd hcall h
  · simp [hcall]

theorem note_finish {k : TableSystem} {state : TransactionState}
    (hc : (s.system.txs tx).call = .commit ∨ (s.system.txs tx).call = .undo []) :
    s.note tx (k.finish tx state) = { s with system := k.finish tx state } := by
  have hcall : ((k.finish tx state).txs tx).call = .ended := by
    simp [TableSystem.finish, TableSystem.go_on]
  unfold WriteHistory.note
  rw [hcall]
  rcases hc with hc | hc <;> rw [hc] <;> rfl

/-- The state after `abort` has set the transaction to shrink. -/
def TableSystem.aborting (s : TableSystem) (tx : TransactionID) : TableSystem :=
  (s.set_state tx .SHRINKING).go_on s.heap.pool tx (.undo (s.txs tx).undo_log)

theorem note_abort (hc : (s.system.txs tx).call = .abort) :
    s.note tx (s.system.aborting tx) = { s with
      system := s.system.aborting tx
      left := Function.update s.left tx (s.saved tx) } := by
  have hcall : ((s.system.aborting tx).txs tx).call = .undo (s.system.txs tx).undo_log := by
    simp [TableSystem.aborting, TableSystem.go_on]
  unfold WriteHistory.note
  rw [hcall, hc]
  rfl

theorem abort_writes (I : WriteInv s) (hactive : ¬ Committed s.system tx)
    (hc : (s.system.txs tx).call = .abort) :
    Writes s { s with
        system := s.system.aborting tx
        left := Function.update s.left tx (s.saved tx) } tx ∧
      TxWrites { s with
        system := s.system.aborting tx
        left := Function.update s.left tx (s.saved tx) } tx := by
  have T := I.txs tx
  have hcall : ((s.system.aborting tx).txs tx).call = .undo (s.system.txs tx).undo_log := by
    simp [TableSystem.aborting, TableSystem.go_on]
  have hlocks : (s.system.aborting tx).locks.txs tx =
      { s.system.locks.txs tx with state := .SHRINKING } := (txs_set_tx ..).trans (if_pos rfl)
  have hcom : ∀ V, Committed s.system V → Committed (s.system.aborting tx) V := by
    intro V hV
    have hne : V ≠ tx := fun h => hactive (h ▸ hV)
    exact (congrArg Transaction.state ((txs_set_tx ..).trans (if_neg hne))).trans hV
  refine ⟨⟨fun U hU => ⟨Function.update_of_ne hU _ _, (txs_set_tx ..).trans (if_neg hU), rfl,
    Function.update_of_ne hU _ _⟩, fun _ _ _ h => Or.inl h, fun rid h => ?_, fun rid h => ?_,
    fun rid h => Or.inl ?_⟩, ⟨?_, fun h => ?_, ?_, ?_, ?_, ?_⟩⟩
  · rcases I.own hactive h with h | h
    · refine Or.inr (Or.inl ?_)
      simp only [hlocks]
      exact h
    · rw [hc] at h
      cases h
  · simp only [hcall] at h
    cases h
  · simpa only [Covered, hlocks] using h
  · simp only [hcall]
    trivial
  · unfold Committed at h
    simp only [hlocks] at h
    cases h
  · simp [hcall]
  · simp [hlocks]
  · simp [hlocks]
  · simp only [hcall, hlocks, Function.update_self]
    rintro l hl
    cases hl
    have R := T.open_ (T.abortable hc) (by rw [hc]; simp)
    rw [hc] at R
    exact R.mono hcom (fun _ h => h) fun _ h => h

theorem writeInv_step (I : WriteInv s) (hok : TuplesApart evicts s.system t tx expired)
    (hread : ∀ rid old, (s.system.txs tx).call.seen = some (rid, old) →
      ∃ W, s.written rid = some ⟨W, old⟩)
    (hreach : ∀ rid rest, (s.system.txs tx).call = .undo (.DeleteUndoRecord rid :: rest) →
      reaches s.system.heap.pool rid = true)
    (h : table_step s.system tx expired = some t) : WriteInv (s.note tx t) := by
  have T := I.txs tx
  have hactive : ¬ Committed s.system tx := by
    intro hcom
    unfold table_step at h
    rw [T.ended hcom] at h
    cases h
  have hlocked := tableLocked_step I.locked h
  have hcases := table_step_cases h
  have hdone : ∀ {s'}, s.note tx t = s' → s'.system = t → Writes s s' tx ∧ TxWrites s' tx →
      WriteInv (s.note tx t) := by
    rintro s' rfl hs hp
    exact I.of_writes (by rw [hs]; exact hlocked) hactive hp.1 hp.2
  cases hwants : (s.system.txs tx).call.wants with
  | some x =>
    obtain ⟨rid, mode⟩ := x
    exact hdone (noteCalls_lock hwants _) rfl (lock_step_writes I hok hactive hwants hcases)
  | none =>
    cases hcases with
    | asleep hw | granted hw | refused hw =>
      rw [hwants] at hw
      cases hw
    | committed hc =>
      exact hdone (note_finish (Or.inl hc)) rfl (finish_writes rfl
        (fun U hU => (txs_set_tx ..).trans (if_neg hU)) (Or.inl rfl))
    | aborted hc =>
      exact hdone (note_finish (Or.inr hc)) rfl (finish_writes rfl
        (fun _ _ => rfl) (Or.inr ⟨rfl, (T.undo _ hc).nothing_left⟩))
    | aborting hc => exact hdone (note_abort hc) rfl (abort_writes I hactive hc)
    | @heap b log call hm hh =>
      have hcall : ((s.system.after b tx log call).txs tx).call = call := by
        simp [TableSystem.after]
      have hsys := (noteCalls_other s tx (s.system.after b tx log call)
        (s.system.txs tx).call call).1
      refine hdone (by rw [WriteHistory.note, hcall]) hsys ?_
      cases hend : (s.system.txs tx).call.ending with
      | false => exact heap_writes I hok hread h rfl hactive hm hh hend
      | true =>
        cases hc : (s.system.txs tx).call with
        | undo l =>
          rcases l with _ | ⟨u, rest⟩
          · rw [hc] at hh
            cases hh
          · rw [hc] at hm
            exact undo_writes I (fun rid hu => hreach rid rest (by rw [hc, hu])) hc hactive hm
        | ended | commit | abort =>
          rw [hc] at hh
          cases hh
        | done | lock_inserted | lock_read | lock_deleted | lock_updated | lock_moved | insert
        | delete_inserted | read | read_deleted | delete | read_updated | update =>
          rw [hc] at hend
          cases hend

end

/-! ## The bytes of the tuples -/

/-- The rows hold what was written, where they hold a tuple. -/
def AsWritten (R : Pages) (m : Writers) : Prop :=
  ∀ rid t, rowAt R rid = some (some t) → ∃ W, m rid = some ⟨W, t⟩

section
variable {R R' : Pages} {m m' : Writers} {rid : RID} {t : List UInt8}

theorem AsWritten.erase (h : AsWritten R m) (hm : ∀ r, r ≠ rid → m' r = m r) :
    AsWritten (putRow R rid none) m' := by
  intro r t hr
  by_cases hrid : r = rid
  · subst hrid
    rw [rowAt_putRow, if_pos rfl] at hr
    cases hrow : rowAt R r <;> rw [hrow] at hr <;> cases hr
  · rw [rowAt_putRow_of_ne hrid] at hr
    rw [hm r hrid]
    exact h r t hr

theorem AsWritten.put (h : AsWritten R m) (rid : RID) (t : List UInt8) (W : Option TransactionID) :
    AsWritten (putRow R rid (some t)) (Function.update m rid (some ⟨W, t⟩)) := by
  intro r t' hr
  by_cases hrid : r = rid
  · subst hrid
    rw [rowAt_putRow, if_pos rfl] at hr
    rw [Function.update_self]
    cases hrow : rowAt R r <;> rw [hrow] at hr <;> cases hr
    exact ⟨W, rfl⟩
  · rw [rowAt_putRow_of_ne hrid] at hr
    rw [Function.update_of_ne hrid]
    exact h r t' hr

theorem AsWritten.place (h : AsWritten R m) (hmay : MayPlace R rid) (t : List UInt8)
    (W : Option TransactionID) :
    AsWritten (placeRow R rid t) (Function.update m rid (some ⟨W, t⟩)) := by
  intro r t' hr
  by_cases hrid : r = rid
  · subst hrid
    rw [rowAt_placeRow_self hmay] at hr
    cases hr
    rw [Function.update_self]
    exact ⟨W, rfl⟩
  · rw [rowAt_placeRow_of_ne hmay hrid] at hr
    rw [Function.update_of_ne hrid]
    exact h r t' hr

end

/-- What holds in every run. A call that has read the tuple it changes has it under its lock. -/
structure CleanReads (evicts : Prop) (heads : Nat → Prop) (s : WriteHistory) : Prop
    extends WriteInv s where
  on : CallsOn evicts heads s.system
  holds : ∀ tx, TxHolds s.system tx
  seen : ∀ tx rid old, (s.system.txs tx).call.seen = some (rid, old) →
    rowAt (rows heads s.system.heap.pool) rid = some (some old)
  bytes : AsWritten (rows heads s.system.heap.pool) s.written

section
variable {evicts : Prop} {heads : Nat → Prop} {s s' : WriteHistory} {t : TableSystem}
  {tx : TransactionID} {expired : Bool}

/-- A step of a call that neither takes a tuple back nor undoes one. -/
theorem bytes_move {stuck : Prop} {R R' : Pages} {log log' : List UndoRecord} {c call : TableCall}
    (h : AsWritten R s.written) (M : TableMove stuck R R' log c call log')
    (hundo : c.ending = false) (htaken : ∀ rid, c ≠ .delete_inserted rid) :
    AsWritten R' (s.noteCalls tx t c call).written := by
  cases M with
  | undone | restored | skipped => cases hundo
  | removed => exact absurd rfl (htaken _)
  | returned hrows href =>
    rw [hrows, noteCalls_refused s tx c t _ htaken href]
    exact h
  | found_deleted _ hrows | found_updated _ hrows =>
    rw [hrows]
    exact h
  | inserted hmay hrows =>
    rw [hrows]
    exact h.place hmay _ _
  | deleted _ hrows =>
    rw [hrows]
    exact h.erase fun r hr => Function.update_of_ne hr _ _
  | updated _ hrows =>
    rw [hrows]
    exact h.put _ _ _
  | moved _ _ hmay hrows =>
    rw [hrows]
    exact (h.erase fun r hr => Function.update_of_ne hr _ _).place hmay _ _
  | lost _ hrows href =>
    rw [hrows, noteCalls_refused s tx _ t _ htaken href]
    exact h.erase fun _ _ => rfl

/-- A record puts back what was written. -/
theorem bytes_undo {u : UndoRecord} {rest : List UndoRecord} (S : CleanReads evicts heads s)
    (hc : (s.system.txs tx).call = .undo (u :: rest))
    (hreach : ∀ rid, u = .DeleteUndoRecord rid → reaches s.system.heap.pool rid = true)
    (hdirty : evicts → ∀ rid tuple rest,
      (s.system.txs tx).call = .undo (.RestoreUndoRecord rid tuple :: rest) →
      ∃ f, s.system.heap.pool.page_table rid.page_id = some f ∧
        (s.system.heap.pool.frames f).is_dirty = true)
    (hstep : table_step s.system tx expired = some t) :
    AsWritten (rows heads t.heap.pool) (s.note tx t).written := by
  have hreached : reaches s.system.heap.pool u.rid = true →
      (t.txs tx).call = .undo rest ∧
        rows heads t.heap.pool = undoRow (rows heads s.system.heap.pool) u := by
    intro h
    obtain ⟨b, rfl, hrows⟩ := undo_step_rows S.on hc h hdirty hstep
    exact ⟨by rw [after_txs_self], hrows⟩
  cases u with
  | DeleteUndoRecord rid =>
    obtain ⟨hcall, hrows⟩ := hreached (hreach rid rfl)
    rw [hrows, WriteHistory.note, hc, hcall]
    simp only [WriteHistory.noteCalls, WriteHistory.putAt, hreach rid rfl, if_true]
    exact S.bytes.erase fun r hr => Function.update_of_ne hr _ _
  | RestoreUndoRecord rid old =>
    have R := (S.txs tx).undo _ hc
    generalize hleft : s.left tx = ws at R
    cases R with
    | @restores _ ws _ _ W _ _ _ _ =>
    have hhead : (s.left tx).head?.join = some ⟨W, old⟩ := by
      rw [hleft]
      rfl
    cases hr : reaches s.system.heap.pool rid with
    | true =>
      obtain ⟨hcall, hrows⟩ := hreached hr
      rw [hrows, WriteHistory.note, hc, hcall]
      simp only [WriteHistory.noteCalls, WriteHistory.putAt, hr, if_true, hhead]
      exact S.bytes.put rid old W
    | false =>
      have ht := undo_step_unreached S.on hc hr hstep
      rw [WriteHistory.note, hc, ht, after_txs_self]
      simp only [WriteHistory.noteCalls, WriteHistory.putAt, hr]
      exact S.bytes

theorem noteCalls_written {c : TableCall} (hheap : c.calls_heap = false) (c' : TableCall) :
    (s.noteCalls tx t c c').written = s.written := by
  cases c with
  | abort => cases c' <;> rfl
  | undo l =>
    rcases l with _ | ⟨u, l⟩
    · rfl
    · cases hheap
  | done | ended | lock_inserted | lock_read | lock_deleted | lock_updated | lock_moved
  | commit => rfl
  | insert | delete_inserted | read | read_deleted | delete | read_updated | update => cases hheap

theorem written_taken_back {rid r : RID} (hr : r ≠ rid) (c' : TableCall) :
    (s.noteCalls tx t (.delete_inserted rid) c').written r = s.written r := by
  have hput : s.putAt rid none r = s.written r := by
    unfold WriteHistory.putAt
    split
    · exact Function.update_of_ne hr _ _
    · rfl
  cases c' with
  | done res =>
    cases res with
    | error => rfl
    | ok => exact hput
  | _ => rfl

theorem bytes_step (S : CleanReads evicts heads s) (hok : TuplesApart evicts s.system t tx expired)
    (hreach : ∀ rid rest, (s.system.txs tx).call = .undo (.DeleteUndoRecord rid :: rest) →
      reaches s.system.heap.pool rid = true)
    (hstep : table_step s.system tx expired = some t) :
    AsWritten (rows heads t.heap.pool) (s.note tx t).written := by
  cases hheap : (s.system.txs tx).call.calls_heap with
  | false =>
    have hsame : t.heap = s.system.heap := by
      cases table_step_cases hstep with
      | heap _ hh =>
        rw [hheap] at hh
        cases hh
      | asleep | granted | refused | committed | aborting | aborted => rfl
    rw [WriteHistory.note, noteCalls_written hheap, hsame]
    exact S.bytes
  | true =>
    by_cases htaken : ∃ rid, (s.system.txs tx).call = .delete_inserted rid
    · obtain ⟨rid, hc⟩ := htaken
      rw [removed_rows S.on hc (hok.removed rid hc) hstep, WriteHistory.note, hc]
      exact S.bytes.erase fun r hr => written_taken_back hr _
    cases hend : (s.system.txs tx).call.ending with
    | false =>
      obtain ⟨b, log, call, ht, W⟩ :=
        table_step_works S.on.heap (S.on.call tx) hheap hstep hok.frames hok.dirty
      have hpool : t.heap.pool = b := by
        rw [ht]
        rfl
      have hcall : (t.txs tx).call = call := by
        rw [ht, after_txs_self]
      rw [hpool, WriteHistory.note, hcall]
      exact bytes_move S.bytes W.move hend fun rid h => htaken ⟨rid, h⟩
    | true =>
      cases hc : (s.system.txs tx).call with
      | undo l =>
        rcases l with _ | ⟨u, rest⟩
        · rw [hc] at hheap
          cases hheap
        · exact bytes_undo S hc (fun rid hu => hreach rid rest (by rw [hc, hu])) hok.dirty hstep
      | ended | commit | abort =>
        rw [hc] at hheap
        cases hheap
      | done | lock_inserted | lock_read | lock_deleted | lock_updated | lock_moved | insert
      | delete_inserted | read | read_deleted | delete | read_updated | update =>
        rw [hc] at hend
        cases hend

/-- The others leave the rows alone that a transaction has locked for itself. -/
theorem row_under_lock (S : CleanReads evicts heads s)
    (hok : TuplesApart evicts s.system t tx expired)
    (hstep : table_step s.system tx expired = some t) {U : TransactionID} (hne : U ≠ tx) {rid : RID}
    (hrid : rid ∈ (s.system.locks.txs U).exclusive_locks) :
    rowAt (rows heads t.heap.pool) rid = rowAt (rows heads s.system.heap.pool) rid := by
  have hother : rid ∉ (s.system.locks.txs tx).exclusive_locks := fun h =>
    hne (held_by_one S.locked.inv hrid h)
  have hfree : (s.system.txs tx).call.placed ≠ some rid := fun h =>
    S.window tx rid h U hne (Or.inr hrid)
  rcases heap_step S.on hstep hok.frames hok.dirty with ⟨b, log, call, ht, W⟩ | hsame
  swap
  · rw [hsame]
  have hplaced := hok.placed rid
  rw [ht, after_txs_self] at hplaced
  rw [ht]
  apply rowAt_move W.move
  · exact fun h => hother ((S.holds tx).locked rid h)
  · intro u rest hc he
    exact hother (he ▸ (S.holds tx).undo _ hc u List.mem_cons_self)
  · exact fun hc => hfree (by rw [hc]; rfl)
  · exact fun h1 h2 => hplaced h1 h2 U hne (Or.inr hrid)

theorem seen_of_wants {x : RID × LockMode} {c : TableCall} (hw : c.wants = some x) :
    c.granted.seen = none ∧ c.refused.seen = none := by
  cases c with
  | lock_inserted | lock_read | lock_deleted | lock_updated | lock_moved => exact ⟨rfl, rfl⟩
  | done | ended | insert | delete_inserted | read | read_deleted | delete | read_updated | update
  | commit | abort | undo => cases hw

/-- What the call has read after a step. -/
theorem seen_step (S : CleanReads evicts heads s) (hok : TuplesApart evicts s.system t tx expired)
    (hstep : table_step s.system tx expired = some t) {rid : RID} {old : List UInt8}
    (hseen : (t.txs tx).call.seen = some (rid, old)) :
    rowAt (rows heads t.heap.pool) rid = some (some old) := by
  cases table_step_cases hstep with
  | asleep => exact S.seen tx rid old hseen
  | granted hw =>
    rw [after_txs_self, (seen_of_wants hw).1] at hseen
    cases hseen
  | refused hw =>
    rw [after_txs_self, (seen_of_wants hw).2] at hseen
    cases hseen
  | committed | aborting | aborted =>
    simp only [TableSystem.finish, TableSystem.go_on, Function.update_self] at hseen
    cases hseen
  | heap _ hh =>
    obtain ⟨b, log, call, ht, W⟩ :=
      table_step_works S.on.heap (S.on.call tx) hh hstep hok.frames hok.dirty
    have hM := W.move
    rw [ht, after_txs_self] at hseen
    rw [ht]
    show rowAt (rows heads b) rid = some (some old)
    generalize (s.system.txs tx).call = c at hM
    cases hM with
    | found_deleted hrow hrows | found_updated hrow hrows =>
      cases hseen
      rw [hrows]
      exact hrow
    | inserted | returned | removed | deleted | updated | moved | lost | undone | restored
    | skipped => cases hseen

theorem cleanReads_step (S : CleanReads evicts heads s)
    (hok : TuplesApart evicts s.system t tx expired)
    (hreach : ∀ rid rest, (s.system.txs tx).call = .undo (.DeleteUndoRecord rid :: rest) →
      reaches s.system.heap.pool rid = true)
    (h : table_step s.system tx expired = some t) : CleanReads evicts heads (s.note tx t) := by
  have hsys : (s.note tx t).system = t := (noteCalls_other s tx t _ _).1
  have hread : ∀ rid old, (s.system.txs tx).call.seen = some (rid, old) →
      ∃ W, s.written rid = some ⟨W, old⟩ :=
    fun rid old hseen => S.bytes rid old (S.seen tx rid old hseen)
  refine ⟨writeInv_step S.toWriteInv hok hread hreach h, ?_, ?_, ?_, ?_⟩ <;> rw [hsys]
  · exact callsOn_step S.on h hok.frames hok.dirty
  · exact txHolds_step S.locked S.holds h
  · intro U rid old hseen
    by_cases hU : U = tx
    · subst hU
      exact seen_step S hok h hseen
    · rw [(table_step_other h hU).1] at hseen
      rw [row_under_lock S hok h hU ((S.holds U).locked rid ?_)]
      · exact S.seen U rid old hseen
      · cases hc : (s.system.txs U).call <;> rw [hc] at hseen <;> cases hseen <;> rfl
  · exact bytes_step S hok hreach h

theorem cleanReads_start (h : (writeMachine evicts heads).start s) : CleanReads evicts heads s := by
  obtain ⟨H, hl, htx, hw, hsaved, hleft⟩ := h
  have hnone : ∀ U, s.system.txs U = {} := fun U => congrFun htx U
  have hwriter : ∀ rid, s.writer rid = none := by
    intro rid
    simp only [WriteHistory.writer, hw]
    cases tupleAt s.system.heap.pool rid <;> rfl
  refine ⟨⟨⟨by rw [hl]; exact lockInv_fresh, ?_, ?_⟩, ?_, ?_, fun tx => ?_⟩, ⟨H, ?_, ?_⟩,
    fun U => ⟨?_, ?_, ?_⟩, ?_, fun rid t hrow => ⟨none, ?_⟩⟩
  · intro tx rid mode up hcall
    rw [hl] at hcall
    cases hcall
  · intro tx hcall
    rw [hl] at hcall
    exact absurd rfl hcall
  · intro W rid hp
    rw [htx] at hp
    cases hp
  · intro rid W h
    rw [hwriter] at h
    cases h
  · refine ⟨?_, ?_, ?_, ?_, ?_, ?_⟩
    · rw [htx]
      trivial
    · intro h
      unfold Committed at h
      rw [hl] at h
      cases h
    · simp [htx]
    · simp [htx]
    · intro _ _
      rw [htx, hsaved]
      refine .clean fun rid h => ?_
      have hno := hwriter rid
      unfold WriteHistory.writer at hno
      rw [hno] at h
      cases h
    · simp [htx]
  · intro U
    rw [hnone]
    trivial
  · simp [hnone]
  · simp [hnone, TableCall.locked]
  · simp [hnone]
  · simp [hnone]
  · simp [hnone, TableCall.seen]
  · simp only [hw, tupleAt_of_row hrow]
    rfl

/-- A call begins. -/
theorem writeInv_call (I : WriteInv s) {op : TableOp} {r : Except String TableResult}
    (hok : op = .abort → (s.system.locks.txs tx).state ≠ .SHRINKING)
    (hc : (s.system.txs tx).call = .done r) :
    WriteInv { s with system := s.system.begin_call tx op } := by
  have T := I.txs tx
  have hactive : ¬ Committed s.system tx := by
    intro h
    rw [T.ended h] at hc
    cases hc
  have hcall : ((s.system.begin_call tx op).txs tx).call = op.call := by
    simp [TableSystem.begin_call, TableSystem.go_on]
  have hlog : ((s.system.begin_call tx op).txs tx).undo_log = (s.system.txs tx).undo_log := by
    simp [TableSystem.begin_call, TableSystem.go_on]
  have hop : op.call.placed = none ∧ op.call.owes = [] ∧ op.call.Holds s.system.locks tx ∧
      (∀ l, op.call ≠ .undo l) ∧ op.call ≠ .ended := by
    cases op <;> simp [TableOp.call, TableCall.placed, TableCall.owes, TableCall.Holds]
  refine I.of_writes (I.locked.go_on (I.locked.idle (by rw [hc]; rfl)) _ _ _) hactive
    ⟨fun U hU => ⟨Function.update_of_ne hU _ _, rfl, rfl, rfl⟩, fun _ _ _ h => Or.inl h,
      fun rid h => ?_, fun rid h => ?_, fun _ h => Or.inl h⟩
    ⟨?_, fun h => absurd h hactive, ?_, ?_, ?_, ?_⟩
  · rcases I.own hactive h with h | h
    · exact Or.inr (Or.inl h)
    · rw [hc] at h
      cases h
  · simp only [hcall, hop.1] at h
    cases h
  · simp only [hcall]
    exact hop.2.2.1
  · simp only [hcall]
    intro hab
    cases op with
    | abort => exact hok rfl
    | insert_tuple | get_tuple | delete_tuple | update_tuple | commit => cases hab
  · simp only [hcall]
    exact fun l h => absurd h (hop.2.2.2.1 l)
  · simp only [hcall, hlog, hop.2.1]
    intro hst _
    have R := T.open_ hst (by rw [hc]; simp)
    rwa [hc] at R
  · simp only [hcall]
    exact fun l h => absurd h (hop.2.2.2.1 l)

theorem cleanReads_call (S : CleanReads evicts heads s) {op : TableOp}
    {r : Except String TableResult} (hok : KeepsApart evicts heads s (.call tx op))
    (hc : (s.system.txs tx).call = .done r) :
    CleanReads evicts heads { s with system := s.system.begin_call tx op } := by
  have hother : ∀ U, U ≠ tx → (s.system.begin_call tx op).txs U = s.system.txs U :=
    fun U hU => Function.update_of_ne hU _ _
  have hcall : ((s.system.begin_call tx op).txs tx).call = op.call := by
    simp [TableSystem.begin_call, TableSystem.go_on]
  have hnew : op.call.locked = none ∧ op.call.seen = none ∧ ∀ l, op.call ≠ .undo l := by
    cases op <;> simp [TableOp.call, TableCall.locked, TableCall.seen]
  refine ⟨writeInv_call S.toWriteInv hok.2 hc, callsOn_call S.on hok.1, fun U => ?_,
    fun U rid old hseen => ?_, S.bytes⟩
  · by_cases hU : U = tx
    · subst hU
      exact (S.holds U).go_on _ (by rw [hc]; simp) hnew.1 fun l h => absurd h (hnew.2.2 l)
    · exact (S.holds U).congr (hother U hU) fun _ => id
  · by_cases hU : U = tx
    · subst hU
      simp only [hcall, hnew.2.1] at hseen
      cases hseen
    · simp only [hother U hU] at hseen
      exact S.seen U rid old hseen

/-- A step of a scan writes nothing and locks nothing. -/
theorem cleanReads_heap (S : CleanReads evicts heads s) {heap : HeapPool}
    (H : HeapState evicts heap.outside (fun _ => False) heads heap.pool)
    (hcont : contents heap.pool = contents s.system.heap.pool) :
    CleanReads evicts heads { s with system := { s.system with heap } } := by
  have hrows : rows heads heap.pool = rows heads s.system.heap.pool := by
    funext n
    unfold rows succ
    rw [hcont]
  refine ⟨⟨⟨S.locked.inv, S.locked.waits, S.locked.growing⟩, S.window, S.kept, fun tx => ?_⟩,
    S.on.heap_same H hcont, fun U => (S.holds U).congr rfl fun _ => id, ?_, ?_⟩
  · have T := S.txs tx
    exact ⟨T.holds, T.ended, T.abortable, T.undoes, T.open_, T.undo⟩
  · simp only [hrows]
    exact S.seen
  · simp only [hrows]
    exact S.bytes

theorem cleanReads_next {e : TableEvent} (S : CleanReads evicts heads s)
    (hok : KeepsApart evicts heads s e) (h : s.next e = some s') : CleanReads evicts heads s' := by
  cases e with
  | call tx op =>
    obtain ⟨t, hn, rfl⟩ := Option.map_eq_some_iff.mp h
    unfold TableSystem.next at hn
    simp only at hn
    split at hn
    · rename_i r hc
      cases hn
      exact cleanReads_call S hok hc
    · cases hn
  | step tx expired =>
    obtain ⟨t, hn, rfl⟩ := Option.map_eq_some_iff.mp h
    exact cleanReads_step S (hok.1 t hn) hok.2 hn
  | fetch n =>
    obtain ⟨t, hn, rfl⟩ := Option.map_eq_some_iff.mp h
    obtain ⟨heap, hheap, rfl⟩ := Option.map_eq_some_iff.mp hn
    obtain ⟨H, hc⟩ := evict_fetch S.on.heap hheap
    exact cleanReads_heap S H hc
  | unpin n =>
    obtain ⟨t, hn, rfl⟩ := Option.map_eq_some_iff.mp h
    obtain ⟨heap, hheap, rfl⟩ := Option.map_eq_some_iff.mp hn
    obtain ⟨H, hc⟩ := evict_unpin S.on.heap hheap
    exact cleanReads_heap S H hc

/-! ## The law -/

/-- A read returns the bytes that were last written to its RID, and those were not written by
another transaction that has not committed, as long as nobody else holds or gets a lock on a tuple
that is in the heap and not yet locked. -/
theorem no_dirty_read_when_new_tuples_are_kept_apart
    (h : (writeMachine evicts heads).Reach (KeepsApart evicts heads) s) : NoDirtyRead s := by
  have S : CleanReads evicts heads s := h.invariant (fun _ => cleanReads_start)
    fun _ _ _ S hok hn => cleanReads_next S hok hn
  intro tx rid bytes b hc hget
  have hon := S.on.call tx
  rw [hc] at hon
  obtain ⟨b', _, _, ⟨old, hold, hrow⟩ | hnone⟩ := get_spec S.on.heap hon
  swap
  · rw [hnone] at hget
    cases hget
  obtain rfl : old = bytes := by
    rw [hold] at hget
    cases hget
    rfl
  obtain ⟨W, hW⟩ := S.bytes rid old hrow
  refine ⟨W, hW, fun V hV => ?_⟩
  have hwriter : s.writer rid = some V := by
    unfold WriteHistory.writer
    rw [hW]
    exact hV
  have hheld : Covered s.system.locks tx rid .SHARED := by
    have hholds := (S.txs tx).holds
    rwa [hc] at hholds
  by_contra hno
  rw [not_or] at hno
  rcases S.kept rid V hwriter with h | h | h
  · exact hno.2 h
  · have hx := (S.locked.inv.exclusive rid V).mp h
    have hex := fun mode => S.locked.inv.excludes hx (Ne.symm hno.1) mode
    rcases hheld with hs | hs
    · exact hex .SHARED ((S.locked.inv.shared rid tx).mp hs)
    · exact hex .EXCLUSIVE ((S.locked.inv.exclusive rid tx).mp hs)
  · exact S.window V rid h tx (Ne.symm hno.1) hheld

end

/-! ## Runs on fixed inputs -/

/-- Transactions over a table of one page. -/
def writers_open : WriteHistory where
  system := new_table
  written rid := (tupleAt new_table.heap.pool rid).map (⟨none, ·⟩)
  saved _ := []
  left _ := []

theorem writers_open_start : (writeMachine False (· = 1)).start writers_open :=
  ⟨new_table_begins.heap, rfl, rfl, rfl, rfl, rfl⟩

/-- No step places anything where another transaction has a lock, locks what another one has
placed, or takes anything back. -/
def tuples_apart_check (who : List TransactionID) (s : TableSystem) (e : TableEvent) : Bool :=
  on_heaps_check who s e && match e with
    | .step tx expired => (table_step s tx expired).all fun t =>
      ((t.txs tx).call.placed.all fun rid => who.all fun V => V == tx ||
        !((s.locks.txs V).shared_locks.contains rid ||
          (s.locks.txs V).exclusive_locks.contains rid)) &&
      ((s.txs tx).call.wants.all fun x =>
        who.all fun U => U == tx || (s.txs U).call.placed != some x.1) &&
      match (s.txs tx).call with
      | .delete_inserted _ => false
      | _ => true
    | _ => true

theorem tuplesApart_of_check {who : List TransactionID} {s t : TableSystem} {tx : TransactionID}
    {expired : Bool} (C : CallsOn False (· = 1) s) (B : Bystanders who s)
    (h : tuples_apart_check who s (.step tx expired) = true)
    (ht : table_step s tx expired = some t) : TuplesApart False s t tx expired := by
  obtain ⟨hon, h⟩ := Bool.and_eq_true_iff.mp h
  simp only [ht, Option.all_some, Bool.and_eq_true] at h
  obtain ⟨⟨hplaced, hlocks⟩, hcall⟩ := h
  refine ⟨(onHeaps_of_check C hon).1 t ht, fun rid _ hrid V hV hc => ?_,
    fun rid mode hw _ U hU hp => ?_, fun rid hc => ?_⟩
  · rw [hrid, Option.all_some, List.all_eq_true] at hplaced
    by_cases hwho : V ∈ who
    · have hfree := hplaced V hwho
      simp only [Bool.or_eq_true, beq_iff_eq, Bool.not_eq_true', Bool.or_eq_false_iff,
        List.contains_eq_mem, decide_eq_false_iff_not] at hfree
      have hno := hfree.resolve_left hV
      exact hc.elim hno.1 hno.2
    · rw [Covered, (B V hwho).2] at hc
      rcases hc with h | h <;> cases h
  · rw [hw, Option.all_some, List.all_eq_true] at hlocks
    by_cases hwho : U ∈ who
    · have := hlocks U hwho
      simp [hU, hp] at this
    · rw [(B U hwho).1] at hp
      cases hp
  · rw [hc] at hcall
    cases hcall

/-- The next record of an abort takes no tuple back. -/
def deletes_none : TableCall → Bool
  | .undo (.DeleteUndoRecord _ :: _) => false
  | _ => true

/-- The same for a few transactions, of which none aborts. -/
def apart_check (who : List TransactionID) (s : WriteHistory) (e : TableEvent) : Bool :=
  tuples_apart_check who s.system e && match e with
    | .step tx _ => deletes_none (s.system.txs tx).call
    | .call _ .abort => false
    | _ => true

theorem keepsApart_of_check {who : List TransactionID} {s : WriteHistory} {e : TableEvent}
    (C : CallsOn False (· = 1) s.system) (B : Bystanders who s.system)
    (h : apart_check who s e = true) : KeepsApart False (· = 1) s e ∧ e.among who = true := by
  obtain ⟨happart, h⟩ := Bool.and_eq_true_iff.mp h
  obtain ⟨hon, hamong⟩ := onHeaps_of_check C (Bool.and_eq_true_iff.mp happart).1
  refine ⟨?_, hamong⟩
  cases e with
  | fetch | unpin => trivial
  | call tx op =>
    refine ⟨hon, ?_⟩
    rintro rfl
    cases h
  | step tx expired =>
    refine ⟨fun t ht => tuplesApart_of_check C B happart ht, fun rid rest hc => ?_⟩
    simp only [hc] at h
    cases h

/-- A read of this transaction is about to return a tuple that `W` wrote. -/
def reads_tuple_of (s : WriteHistory) (tx W : TransactionID) : Bool :=
  match (s.system.txs tx).call with
  | .read rid => decide (s.writer rid = some W) && match get_tuple s.system.heap.pool rid with
    | (.ok (some _), _) => true
    | _ => false
  | _ => false

theorem KeepsApart.onHeaps {evicts : Prop} {heads : Nat → Prop} {s : WriteHistory} {e : TableEvent}
    (h : KeepsApart evicts heads s e) : OnHeaps evicts heads s.system e := by
  cases e with
  | call => exact h.1
  | step => exact fun t ht => (h.1 t ht).toRestoresStay
  | fetch | unpin => trivial

theorem WriteHistory.system_next {s s' : WriteHistory} {e : TableEvent} (h : s.next e = some s') :
    s.system.next e = some s'.system := by
  cases e with
  | call | fetch | unpin =>
    obtain ⟨t, ht, rfl⟩ := Option.map_eq_some_iff.mp h
    exact ht
  | step tx =>
    obtain ⟨t, ht, rfl⟩ := Option.map_eq_some_iff.mp h
    rw [WriteHistory.note, (noteCalls_other _ _ _ _ _).1]
    exact ht

/-- The calls of some transactions on the first page. -/
theorem few_writers {who : List TransactionID} {s : WriteHistory}
    (h : (writeMachine False (· = 1)).Reach (fun s e =>
      OnHeaps False (· = 1) s.system e ∧ e.among who = true) s) :
    CallsOn False (· = 1) s.system ∧ Bystanders who s.system := by
  refine h.invariant (I := fun s => CallsOn False (· = 1) s.system ∧ Bystanders who s.system)
    (fun s hs => ?_) fun s e s' B he hn => ⟨?_, ?_⟩
  · obtain ⟨H, hl, htx, _⟩ := hs
    exact ⟨callsOn_start H htx, fun U _ =>
      ⟨congrFun htx U, congrFun (congrArg LockSystem.txs hl) U⟩⟩
  · exact B.1.next he.1 (WriteHistory.system_next hn)
  · exact bystanders_next B.2 he.2 (WriteHistory.system_next hn)

/-- Transaction 2 waits to read the row of transaction 1 until 1 has committed. -/
theorem a_read_after_the_commit_is_clean : ∃ s,
    (writeMachine False (· = 1)).Reach (KeepsApart False (· = 1)) s ∧
    reads_tuple_of s 2 1 = true ∧ NoDirtyRead s := by
  obtain ⟨s, hx, hp⟩ : ∃ s, (writeMachine False (· = 1)).execIf (apart_check [1, 2]) writers_open
      [.call 1 (.insert_tuple (some 1) [7]), .step 1 false, .step 1 false,
        .call 2 (.get_tuple ⟨some 1, 0⟩), .step 2 false, .call 1 .commit, .step 1 false,
        .step 2 false] = some s ∧
      reads_tuple_of s 2 1 = true := by
    apply Option.map_eq_some_iff.mp
    decide +kernel
  have hr : (writeMachine False (· = 1)).Reach (fun s e =>
      KeepsApart False (· = 1) s e ∧ e.among [1, 2] = true) s :=
    Machine.Reach.execIf
      (fun _ h => few_writers (h.mono fun _ _ he => ⟨he.1.onHeaps, he.2⟩))
      (fun _ _ B h => keepsApart_of_check B.1 B.2 h) (.start writers_open_start) hx
  have hr := hr.mono fun _ _ h => h.1
  exact ⟨s, hr, hp, no_dirty_read_when_new_tuples_are_kept_apart hr⟩

/-- The row of transaction 1 is in the heap, and its lock is not asked for yet. Transaction 2 gets
a shared lock, and reads the row. -/
theorem a_read_gets_a_tuple_before_its_lock : ¬ ∀ s,
    (writeMachine False (· = 1)).Reach (fun s => OnHeaps False (· = 1) s.system) s →
    NoDirtyRead s := by
  intro h
  obtain ⟨s, hx, hp⟩ : ∃ s, (writeMachine False (· = 1)).execIf (fun s => on_heaps_check [1, 2] s.system)
      writers_open
      [.call 1 (.insert_tuple (some 1) [7]), .step 1 false, .call 2 (.get_tuple ⟨some 1, 0⟩),
        .step 2 false] = some s ∧
      (reads_tuple_of s 2 1 && !decide ((s.system.locks.txs 1).state = .COMMITTED)) = true := by
    apply Option.map_eq_some_iff.mp
    decide +kernel
  have hr : (writeMachine False (· = 1)).Reach (fun s e =>
      OnHeaps False (· = 1) s.system e ∧ e.among [1, 2] = true) s :=
    Machine.Reach.execIf (fun _ => few_writers) (fun _ _ B h => onHeaps_of_check B.1 h)
      (.start writers_open_start) hx
  rw [Bool.and_eq_true, Bool.not_eq_true', decide_eq_false_iff_not] at hp
  obtain ⟨hread, hopen⟩ := hp
  have hclean := h s (hr.mono fun _ _ h => h.1)
  unfold reads_tuple_of at hread
  split at hread
  · rename_i rid hc
    rw [Bool.and_eq_true, decide_eq_true_eq] at hread
    obtain ⟨hW, hread⟩ := hread
    split at hread
    · rename_i bytes b hg
      obtain ⟨W, hwritten, hclean⟩ := hclean 2 rid bytes b hc hg
      unfold WriteHistory.writer at hW
      rw [hwritten] at hW
      rcases hclean 1 hW with h | h
      · cases h
      · exact hopen h
    · cases hread
  · cases hread

end duck.table
