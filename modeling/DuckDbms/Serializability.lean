-- Transactions side by side on the tables of a pool amount to transactions one
-- after the other, in the order in which they stop locking: what each of their
-- reads finds, and the tuples that they leave.
import DuckDbms.TupleAccesses

open machine duck.slotted_page duck.buffer_pool duck.lock_manager duck.table_heap chain serial

namespace duck.table

/-! ## Histories of accesses -/

/-- The transactions, what they have done, and which of them have stopped locking, in that
order, over the tuples that were there before. -/
structure AccessHistory where
  system : TableSystem
  initial : RID → Option (List UInt8)
  history : List TupleAccess
  closed : List TransactionID

namespace AccessHistory

variable (s : AccessHistory)

/-- A step of a transaction. -/
def note (tx : TransactionID) (t : TableSystem) : AccessHistory where
  system := t
  initial := s.initial
  history := s.history ++
    accesses s.system.heap.pool t.heap.pool tx (s.system.txs tx).call (t.txs tx).call
  closed := stopped s.system.locks t.locks tx s.closed

def next : TableEvent → Option AccessHistory
  | .step tx expired => (table_step s.system tx expired).map (s.note tx)
  | e => (s.system.next e).map fun t => { s with system := t }

end AccessHistory

/-- Every transaction begins, over the heaps of a pool. -/
def accessMachine (evicts : Prop) (heads : Nat → Prop) : Machine AccessHistory TableEvent where
  start s := HeapState evicts s.system.heap.outside (fun _ => False) heads s.system.heap.pool ∧
    s.system.locks = fresh ∧ (s.system.txs = fun _ => {}) ∧
    s.initial = valueOf (rows heads s.system.heap.pool) ∧ s.history = [] ∧ s.closed = []
  next := AccessHistory.next

/-- The calls work on the heaps, and the steps keep apart what the locks do not. -/
def Apart (evicts : Prop) (heads : Nat → Prop) (s : AccessHistory) : TableEvent → Prop
  | .call _ op => op.call.On heads s.system.heap.pool
  | .step tx expired => ∀ t, table_step s.system tx expired = some t →
      StepsApart evicts s.system t tx expired
  | .fetch _ | .unpin _ => True

/-! ## What holds in every run -/

/-- The objects of the history are the tuples of the rows. A tuple that was placed appears when
its lock is there. -/
structure ToldTuples (R : Pages) (s : TableSystem) (m : RID → Option (List UInt8)) : Prop where
  settled : ∀ rid, (∀ W, (s.txs W).call.placed ≠ some rid) → m rid = valueOf R rid
  placed : ∀ W rid, (s.txs W).call.placed = some rid → m rid = none

/-- What a call has placed, and has yet to lock, is there, and nobody else has a lock on it or has
placed it too. -/
def PlacedAlone (R : Pages) (s : TableSystem) : Prop :=
  ∀ W rid, (s.txs W).call.placed = some rid → Live R rid ∧ ∀ U, U ≠ W →
    ¬ Covered s.locks U rid .SHARED ∧ (s.txs U).call.placed ≠ some rid

/-- The call works on a tuple under its lock. -/
def TouchesLocked (s : TableSystem) : Prop :=
  ∀ tx rid mode, (s.txs tx).call.touches = some (rid, mode) → Covered s.locks tx rid mode

theorem covered_shared {l : LockSystem} {tx : TransactionID} {rid : RID} {mode : LockMode}
    (h : Covered l tx rid mode) : Covered l tx rid .SHARED := by
  cases mode with
  | SHARED => exact h
  | EXCLUSIVE => exact Or.inr h

section
variable {R R' : Pages} {s t : TableSystem} {tx : TransactionID}
  {initial m : RID → Option (List UInt8)} {h l : List TupleAccess}

/-- A step that does nothing to a tuple, and places none. -/
theorem toldTuples_quiet (V : ToldTuples R s m)
    (hplaced : ∀ W, (t.txs W).call.placed = (s.txs W).call.placed) : ToldTuples R t m :=
  ⟨fun rid hr => V.settled rid fun W => hplaced W ▸ hr W,
    fun W rid hr => V.placed W rid (hplaced W ▸ hr)⟩

theorem touches_not_placed {c : TableCall} {x : RID × LockMode} (h : c.touches = some x) :
    c.placed = none := by
  cases c with
  | lock_inserted | delete_inserted | lock_moved => cases h
  | _ => rfl

/-- A step of the heap. -/
theorem toldTuples_heap (V : ToldTuples R s m) (P : PlacedAlone R s) (L : TouchesLocked s)
    (T : Told R R' tx (s.txs tx).call (t.txs tx).call l)
    (hothers : ∀ U, U ≠ tx → t.txs U = s.txs U)
    (hheap : (s.txs tx).call.calls_heap = true)
    (hremoved : ∀ rid, (s.txs tx).call = .delete_inserted rid → valueOf R' rid = none)
    (hnew : ∀ rid, (t.txs tx).call.placed = some rid → (s.txs tx).call.placed = some rid ∨
      (s.txs tx).call.placed = none ∧ (∀ mode, (s.txs tx).call.touches ≠ some (rid, mode)) ∧
        ¬ Live R rid ∧ valueOf R rid = none)
    (hrun : run initial h = some m) :
    ∃ m', run initial (h ++ l) = some m' ∧ ToldTuples R' t m' := by
  -- what is placed has not been worked on
  have haway : ∀ a mode, (s.txs tx).call.touches = some (a, mode) →
      ∀ W, (s.txs W).call.placed ≠ some a := by
    intro a mode ha W hW
    by_cases hWtx : W = tx
    · subst hWtx
      rw [touches_not_placed ha] at hW
      cases hW
    · exact ((P W a hW).2 tx (Ne.symm hWtx)).1 (covered_shared (L tx a mode ha))
  -- a call of the heap that has placed a tuple takes it back
  have hback : ∀ rid, (s.txs tx).call.placed = some rid →
      (s.txs tx).call = .delete_inserted rid := by
    intro rid hr
    cases hc : (s.txs tx).call <;> rw [hc] at hr hheap <;> cases hr <;> first | rfl | cases hheap
  obtain ⟨m', hrun', hsame, haccess⟩ : ∃ m', run initial (h ++ l) = some m' ∧
      (∀ rid, (∀ a ∈ l, a.object ≠ rid) → m' rid = m rid) ∧
      ∀ a ∈ l, m' a.object = valueOf R' a.object := by
    rcases T.one with rfl | ⟨a, mode, rfl, _, ha, hbefore, hafter, _⟩
    · exact ⟨m, by rw [List.append_nil]; exact hrun, fun _ _ => rfl, by simp⟩
    · refine ⟨_, run_snoc hrun ?_, fun rid hr => ?_, fun b hb => ?_⟩
      · rw [hbefore]
        exact V.settled _ (haway a.object mode ha)
      · exact Function.update_of_ne (Ne.symm (hr a List.mem_cons_self)) _ _
      · obtain rfl := List.mem_singleton.mp hb
        rw [Function.update_self, hafter]
  have htouched : ∀ a ∈ l, ∃ mode, (s.txs tx).call.touches = some (a.object, mode) := by
    intro a ha
    rcases T.one with rfl | ⟨b, mode, rfl, _, hb, _⟩
    · cases ha
    · obtain rfl := List.mem_singleton.mp ha
      exact ⟨mode, hb⟩
  refine ⟨m', hrun', fun rid hr => ?_, fun W rid hr => ?_⟩
  · by_cases hacc : ∃ a ∈ l, a.object = rid
    · obtain ⟨a, ha, rfl⟩ := hacc
      exact haccess a ha
    rw [hsame rid fun a ha he => hacc ⟨a, ha, he⟩]
    by_cases hdel : (s.txs tx).call = .delete_inserted rid
    · rw [hremoved rid hdel]
      exact V.placed tx rid (by rw [hdel]; rfl)
    · rw [valueOf_congr (T.rest rid (fun a ha he => hacc ⟨a, ha, he⟩) hdel fun _ => hr tx)]
      refine V.settled rid fun W => ?_
      by_cases hW : W = tx
      · subst hW
        exact fun hp => hdel (hback rid hp)
      · rw [← hothers W hW]
        exact hr W
  · have hfree : ∀ a ∈ l, a.object ≠ rid := by
      rintro a ha rfl
      obtain ⟨mode, hm⟩ := htouched a ha
      by_cases hW : W = tx
      · subst hW
        rcases hnew _ hr with hp | ⟨_, hno, _⟩
        · exact haway _ mode hm W hp
        · exact hno mode hm
      · rw [hothers W hW] at hr
        exact haway _ mode hm W hr
    rw [hsame rid hfree]
    by_cases hW : W = tx
    · subst hW
      rcases hnew rid hr with hp | ⟨hno, _, hdead, hvalue⟩
      · exact V.placed W rid hp
      · rw [← hvalue]
        refine V.settled rid fun U hU => ?_
        by_cases hUW : U = W
        · subst hUW
          rw [hno] at hU
          cases hU
        · exact hdead (P U rid hU).1
    · rw [hothers W hW] at hr
      exact V.placed W rid hr

/-- The lock of a tuple that was placed is there. -/
theorem toldTuples_granted (V : ToldTuples R s m) (P : PlacedAlone R s) {rid : RID}
    (hplaced : (s.txs tx).call.placed = some rid) (hdone : (t.txs tx).call.placed = none)
    (hothers : ∀ U, U ≠ tx → t.txs U = s.txs U) (hrun : run initial h = some m)
    {found : Option (List UInt8)} (hfound : found = valueOf R rid) :
    ∃ m', run initial (h ++ [⟨tx, rid, none, found⟩]) = some m' ∧ ToldTuples R t m' := by
  refine ⟨_, run_snoc hrun (V.placed tx rid hplaced), fun r hr => ?_, fun W r hr => ?_⟩
  · by_cases hne : r = rid
    · subst hne
      rw [Function.update_self]
      exact hfound
    · rw [Function.update_of_ne hne]
      refine V.settled r fun W hW => ?_
      by_cases hWtx : W = tx
      · subst hWtx
        rw [hplaced] at hW
        exact hne (Option.some.inj hW).symm
      · exact hr W (hothers W hWtx ▸ hW)
  · have hWtx : W ≠ tx := by
      rintro rfl
      rw [hdone] at hr
      cases hr
    rw [hothers W hWtx] at hr
    have hne : r ≠ rid := by
      rintro rfl
      exact ((P tx r hplaced).2 W hWtx).2 hr
    rw [Function.update_of_ne hne]
    exact V.placed W r hr

end

/-- A call that reads for an update, updates, or moves a tuple belongs to a growing
transaction. -/
def TableCall.updates : TableCall → Bool
  | .read_updated _ _ _ | .update _ _ _ _ | .lock_moved _ _ _ => true
  | _ => false

structure Serializes (evicts : Prop) (heads : Nat → Prop) (s : AccessHistory) : Prop where
  on : CallsOn evicts heads s.system
  locked : TableLocked s.system
  holds : ∀ tx, TxHolds s.system tx
  touches : TouchesLocked s.system
  growing : ∀ tx, (s.system.txs tx).call.updates = true → (s.system.locks.txs tx).state = .GROWING
  upgrades : UpgradesAlone s.system.locks
  apart : PlacedAlone (rows heads s.system.heap.pool) s.system
  stopped : SaysWhoStopped s.system.locks s.closed
  twoPhase : TwoPhase (Guards s.system.locks) (Owns s.system.locks) s.closed s.history
  tuples : ∃ m, run s.initial s.history = some m ∧
    ToldTuples (rows heads s.system.heap.pool) s.system m

section
variable {evicts : Prop} {heads : Nat → Prop} {s t : TableSystem} {tx : TransactionID}
  {expired : Bool}

/-- A step takes locks only as far as nobody else has placed a tuple there. -/
theorem covered_step (I : TableLocked s) (hok : StepsApart evicts s t tx expired)
    (hstep : table_step s tx expired = some t) {rid : RID} (h : Covered t.locks tx rid .SHARED) :
    Covered s.locks tx rid .SHARED ∨ ∀ U, U ≠ tx → (s.txs U).call.placed ≠ some rid := by
  have hlock : ∀ {r mode l res}, (s.txs tx).call.wants = some (r, mode) →
      lockCall s.locks tx r mode expired = (l, res) → Covered l tx rid .SHARED →
      Covered s.locks tx rid .SHARED ∨ ∀ U, U ≠ tx → (s.txs U).call.placed ≠ some rid := by
    intro r mode l res hw hl hc
    have hheld := held_lockCall s.locks tx r mode expired (U := tx) (r := rid) (by rw [hl]; exact hc)
    refine hheld.imp_right fun ⟨_, hgranted, hrid⟩ => ?_
    have hr : rid = r := by
      rcases hrid with hrid | ⟨w, hwait, hrid⟩
      · exact hrid
      · have hcall := I.waits tx w.rid w.lock_mode w.upgrade (by simp [LockSystem.call, hwait])
        rw [hw] at hcall
        cases hcall
        exact hrid
    subst hr
    exact hok.unseen rid mode hw hgranted
  cases table_step_cases hstep with
  | asleep hw hl | granted hw hl | refused hw hl => exact hlock hw hl h
  | committed | aborted => simp [Covered, finish_locks, unlock_all_txs] at h
  | aborting => exact Or.inl (by simpa [Covered, TableSystem.go_on, TableSystem.set_state] using h)
  | heap => exact Or.inl h

/-- The tuples that the others have placed are still there, and still alone. -/
theorem placedAlone_step (C : CallsOn evicts heads s) (I : TableLocked s) (L : TouchesLocked s)
    (P : PlacedAlone (rows heads s.heap.pool) s) (hok : StepsApart evicts s t tx expired)
    (hstep : table_step s tx expired = some t) : PlacedAlone (rows heads t.heap.pool) t := by
  have hother := fun U (hU : U ≠ tx) => table_step_other hstep hU
  have hplaced := placed_step C hstep hok
  -- a tuple that another transaction has placed
  have hlive : ∀ W rid, W ≠ tx → (s.txs W).call.placed = some rid →
      Live (rows heads t.heap.pool) rid := by
    intro W rid hW hp
    obtain ⟨hl, halone⟩ := P W rid hp
    obtain ⟨hfree, hnot⟩ := halone tx (Ne.symm hW)
    cases hheap : (s.txs tx).call.calls_heap with
    | true =>
      obtain ⟨b, log, call, ht, W'⟩ :=
        table_step_works C.heap (C.call tx) hheap hstep hok.frames hok.dirty
      have T := told_step C hheap ht W' hstep
      unfold Live
      rw [T.rest rid (fun a ha he => ?_) (fun hc => ?_) fun hno hp' => ?_]
      · exact hl
      · rcases T.one with hnil | ⟨a', mode, hone, _, htouch, _⟩
        · rw [hnil] at ha
          cases ha
        · rw [hone] at ha
          obtain rfl := List.mem_singleton.mp ha
          exact hfree (covered_shared (L tx _ mode (he ▸ htouch)))
      · rw [hc] at hnot
        exact hnot rfl
      · rcases hplaced with h | ⟨_, h⟩ | ⟨r, _, h, _, hdead, _⟩
        · rw [h] at hp'
          cases hp'
        · exact hnot (h ▸ hp')
        · rw [h] at hp'
          cases hp'
          exact hdead hl
    | false =>
      have hsame : t.heap = s.heap := by
        cases table_step_cases hstep with
        | heap _ hh =>
          rw [hheap] at hh
          cases hh
        | asleep | granted | refused | committed | aborting | aborted => rfl
      rw [hsame]
      exact hl
  intro W rid hp
  by_cases hW : W = tx
  · subst hW
    rcases hplaced with h | ⟨hheap, h⟩ | ⟨r, hno, h, _, hdead, _, hl⟩
    · rw [h] at hp
      cases hp
    · rw [h] at hp
      obtain ⟨hl, halone⟩ := P W rid hp
      rw [hheap]
      refine ⟨hl, fun U hU => ?_⟩
      rw [(hother U hU).1, covered_congr (hother U hU).2]
      exact halone U hU
    · rw [h] at hp
      cases hp
      refine ⟨hl, fun U hU => ?_⟩
      rw [(hother U hU).1, covered_congr (hother U hU).2]
      exact ⟨hok.placed rid hno h U hU, fun hp => hdead (P U rid hp).1⟩
  · rw [(hother W hW).1] at hp
    refine ⟨hlive W rid hW hp, fun U hU => ?_⟩
    by_cases hUtx : U = tx
    · subst hUtx
      obtain ⟨hfree, hnot⟩ := (P W rid hp).2 U hU
      refine ⟨fun hc => ?_, fun hp' => ?_⟩
      · rcases covered_step I hok hstep hc with h | h
        · exact hfree h
        · exact h W hW hp
      · rcases hplaced with h | ⟨_, h⟩ | ⟨r, _, h, _, hdead, _⟩
        · rw [h] at hp'
          cases hp'
        · exact hnot (h ▸ hp')
        · rw [h] at hp'
          cases hp'
          exact hdead (P W rid hp).1
    · rw [(hother U hUtx).1, covered_congr (hother U hUtx).2]
      exact (P W rid hp).2 U hU

/-- The lock under a call that works on a tuple. -/
theorem touchesLocked_step (I : TableLocked s) (H : ∀ U, TxHolds t U) (L : TouchesLocked s)
    (hstep : table_step s tx expired = some t) : TouchesLocked t := by
  intro U rid mode hc
  by_cases hU : U = tx
  swap
  · obtain ⟨h1, h2⟩ := table_step_other hstep hU
    rw [h1] at hc
    rw [covered_congr h2]
    exact L U rid mode hc
  subst hU
  cases hcall : (t.txs U).call with
  | read_deleted | delete | read_updated | update =>
    rw [hcall] at hc
    cases hc
    exact (H U).locked rid (by rw [hcall]; rfl)
  | undo records =>
    rcases records with _ | ⟨u, rest⟩ <;> rw [hcall] at hc <;> cases hc
    exact (H U).undo _ hcall u List.mem_cons_self
  | read rid' =>
    rw [hcall] at hc
    cases hc
    -- a read starts when its lock is there
    cases table_step_cases hstep with
    | asleep hw =>
      simp only at hcall
      rw [hcall] at hw
      cases hw
    | granted hw hl =>
      have hans := I.answered hw hl
      rw [after_txs_self] at hcall
      cases hc : (s.txs U).call <;> rw [hc] at hw hcall <;> cases hw <;> cases hcall
      exact hans.1
    | refused hw =>
      rw [after_txs_self] at hcall
      cases hc : (s.txs U).call <;> rw [hc] at hw hcall <;> cases hw <;> cases hcall
    | committed | aborted => simp [TableSystem.finish, TableSystem.go_on] at hcall
    | aborting => simp [TableSystem.go_on] at hcall
    | heap hm =>
      rw [after_txs_self] at hcall
      simp only at hcall
      rw [hcall] at hm
      generalize (s.txs U).call = c at hm
      cases hm
  | done | ended | insert | lock_inserted | delete_inserted | lock_read | lock_deleted
  | lock_updated | lock_moved | commit | abort =>
    rw [hcall] at hc
    cases hc

theorem growing_step (I : TableLocked s)
    (G : ∀ U, (s.txs U).call.updates = true → (s.locks.txs U).state = .GROWING)
    (hstep : table_step s tx expired = some t) (U : TransactionID)
    (hup : (t.txs U).call.updates = true) : (t.locks.txs U).state = .GROWING := by
  by_cases hU : U = tx
  swap
  · obtain ⟨h1, h2⟩ := table_step_other hstep hU
    rw [h1] at hup
    rw [h2]
    exact G U hup
  subst hU
  cases table_step_cases hstep with
  | asleep hw hl => exact (I.answered hw hl).2
  | granted hw hl => exact (I.answered hw hl).2.2
  | refused hw =>
    rw [after_txs_self] at hup
    cases hc : (s.txs U).call <;> rw [hc] at hw hup <;> cases hw <;> cases hup
  | committed | aborted =>
    simp [TableSystem.finish, TableSystem.go_on, TableCall.updates] at hup
  | aborting => simp [TableSystem.go_on, TableCall.updates] at hup
  | heap hm =>
    rw [after_txs_self] at hup
    have hG := G U
    generalize (s.txs U).call = c at hm hG
    cases hm with
    | found_updated | moved => exact hG rfl
    | _ => cases hup

/-- A moved tuple gets its lock, since nobody else has one. -/
theorem moved_not_refused (I : TableLocked s)
    (G : ∀ U, (s.txs U).call.updates = true → (s.locks.txs U).state = .GROWING)
    {R : Pages} (P : PlacedAlone R s) {rid ret_rid : RID} {old : List UInt8}
    (hc : (s.txs tx).call = .lock_moved rid old ret_rid) :
    (lockCall s.locks tx ret_rid .EXCLUSIVE expired).2 = some true := by
  refine lockCall_grants .EXCLUSIVE expired I.inv (G tx (by rw [hc]; rfl)) (fun r m up hr => ?_)
    fun U hU => ((P tx ret_rid (by rw [hc]; rfl)).2 U hU).1
  have hw := I.waits tx r m up hr
  rw [hc] at hw
  cases hw
  rfl

theorem accesses_lock (b b' : BufferPoolManager) (tx : TransactionID) {c : TableCall}
    {x : RID × LockMode} (hw : c.wants = some x) :
    accesses b b' tx c c = [] ∧ accesses b b' tx c c.refused = [] ∧
      accesses b b' tx c c.granted =
        if c.placed = some x.1 then [⟨tx, x.1, none, visibleAt b' x.1⟩] else [] := by
  cases c with
  | lock_inserted | lock_moved | lock_read | lock_deleted | lock_updated =>
    cases hw
    simp [accesses, TableCall.refused, TableCall.granted, TableCall.placed]
  | done | ended | insert | delete_inserted | read | read_deleted | delete | read_updated | update
  | commit | abort | undo => cases hw

variable {initial : RID → Option (List UInt8)} {h : List TupleAccess}

/-- What a step tells of the tuples. -/
theorem toldTuples_step (C : CallsOn evicts heads s) (I : TableLocked s) (L : TouchesLocked s)
    (G : ∀ U, (s.txs U).call.updates = true → (s.locks.txs U).state = .GROWING)
    (P : PlacedAlone (rows heads s.heap.pool) s) (hok : StepsApart evicts s t tx expired)
    (hstep : table_step s tx expired = some t) {m : RID → Option (List UInt8)}
    (V : ToldTuples (rows heads s.heap.pool) s m) (hrun : run initial h = some m) :
    ∃ m', run initial (h ++ accesses s.heap.pool t.heap.pool tx (s.txs tx).call (t.txs tx).call) =
        some m' ∧ ToldTuples (rows heads t.heap.pool) t m' := by
  have hothers := fun U (hU : U ≠ tx) => (table_step_other hstep hU).1
  have hplaced := placed_step C hstep hok
  -- a step that does nothing to a tuple
  have hquiet : t.heap = s.heap → (t.txs tx).call.placed = (s.txs tx).call.placed →
      accesses s.heap.pool t.heap.pool tx (s.txs tx).call (t.txs tx).call = [] →
      ∃ m', run initial (h ++ accesses s.heap.pool t.heap.pool tx (s.txs tx).call
          (t.txs tx).call) = some m' ∧ ToldTuples (rows heads t.heap.pool) t m' := by
    intro hheap hp hl
    rw [hl, List.append_nil, hheap]
    refine ⟨m, hrun, toldTuples_quiet V fun W => ?_⟩
    by_cases hW : W = tx
    · subst hW
      exact hp
    · rw [hothers W hW]
  cases hheap : (s.txs tx).call.calls_heap with
  | true =>
    obtain ⟨b, log, call, ht, W⟩ :=
      table_step_works C.heap (C.call tx) hheap hstep hok.frames hok.dirty
    refine toldTuples_heap V P L (told_step C hheap ht W hstep) hothers hheap
      (fun rid hc => removed_step C hc (hok.removed rid hc) hstep) (fun rid hp => ?_) hrun
    rcases hplaced with h | ⟨_, h⟩ | ⟨r, hno, h, htouch, hdead, hvalue, _⟩
    · rw [h] at hp
      cases hp
    · exact Or.inl (h ▸ hp)
    · rw [h] at hp
      cases hp
      exact Or.inr ⟨hno, htouch, hdead, hvalue⟩
  | false =>
    cases table_step_cases hstep with
    | heap _ hh =>
      rw [hheap] at hh
      cases hh
    | asleep hw => exact hquiet rfl rfl (accesses_lock _ _ _ hw).1
    | @refused rid mode l hw hl =>
      rw [after_txs_self] at hquiet ⊢
      have hacc := (accesses_lock s.heap.pool s.heap.pool tx hw).2.1
      cases hc : (s.txs tx).call with
      | lock_moved rid' old ret_rid =>
        rw [hc] at hw
        cases hw
        have hyes : (lockCall s.locks tx rid .EXCLUSIVE expired).2 = some true :=
          moved_not_refused I G P hc
        rw [hl] at hyes
        cases hyes
      | lock_inserted | lock_read | lock_deleted | lock_updated =>
        rw [hc] at hquiet hacc
        exact hquiet rfl rfl hacc
      | done | ended | insert | delete_inserted | read | read_deleted | delete | read_updated
      | update | commit | abort | undo =>
        rw [hc] at hw
        cases hw
    | @granted rid mode l hw hl =>
      have hacc := (accesses_lock s.heap.pool s.heap.pool tx hw).2.2
      have hdone : (s.txs tx).call.granted.placed = none := by
        cases hc : (s.txs tx).call <;> rw [hc] at hw <;> cases hw <;> rfl
      by_cases hp : (s.txs tx).call.placed = some rid
      · have hon : RidOn heads s.heap.pool rid := by
          have hcall := C.call tx
          cases hc : (s.txs tx).call with
          | lock_inserted =>
            rw [hc] at hcall hp
            cases hp
            exact hcall
          | lock_moved =>
            rw [hc] at hcall hp
            cases hp
            exact hcall.2.2
          | delete_inserted =>
            rw [hc] at hw
            cases hw
          | _ =>
            rw [hc] at hp
            cases hp
        rw [if_pos hp] at hacc
        have hgrant := toldTuples_granted (t := ({ s with locks := l } : TableSystem).after
          s.heap.pool tx ((s.txs tx).call.logs ++ (s.txs tx).undo_log) (s.txs tx).call.granted)
          V P hp (by rw [after_txs_self]; exact hdone) hothers hrun (visibleAt_eq hon)
        rw [← hacc] at hgrant
        rw [after_txs_self]
        exact hgrant
      · rw [if_neg hp] at hacc
        refine hquiet rfl ?_ (by rw [after_txs_self]; exact hacc)
        rw [after_txs_self, hdone]
        cases hc : (s.txs tx).call with
        | lock_inserted | lock_moved =>
          rw [hc] at hw hp
          cases hw
          exact absurd rfl hp
        | lock_read | lock_deleted | lock_updated => rfl
        | done | ended | insert | delete_inserted | read | read_deleted | delete | read_updated
        | update | commit | abort | undo =>
          rw [hc] at hw
          cases hw
    | committed hc =>
      refine hquiet rfl ?_ ?_ <;> rw [hc] <;>
        simp [TableSystem.finish, TableSystem.go_on, TableCall.placed, accesses]
    | aborted hc =>
      refine hquiet rfl ?_ ?_ <;> rw [hc] <;>
        simp [TableSystem.finish, TableSystem.go_on, TableCall.placed, accesses]
    | aborting hc =>
      refine hquiet rfl ?_ ?_ <;> rw [hc] <;>
        simp [TableSystem.go_on, TableCall.placed, accesses]

/-- An access of a step is under the lock that it needs, and a step makes one at most. -/
theorem accesses_locked (C : CallsOn evicts heads s) (I : TableLocked s) (L : TouchesLocked s)
    (hok : StepsApart evicts s t tx expired) (hstep : table_step s tx expired = some t) :
    accesses s.heap.pool t.heap.pool tx (s.txs tx).call (t.txs tx).call = [] ∨
    ∃ a, accesses s.heap.pool t.heap.pool tx (s.txs tx).call (t.txs tx).call = [a] ∧
      Guards t.locks a.tx a.object ∧ (a.Writes → Owns t.locks a.tx a.object) := by
  cases hheap : (s.txs tx).call.calls_heap with
  | true =>
    obtain ⟨b, log, call, ht, W⟩ :=
      table_step_works C.heap (C.call tx) hheap hstep hok.frames hok.dirty
    have hlocks : t.locks = s.locks := by rw [ht]; rfl
    rcases (told_step C hheap ht W hstep).one with h | ⟨a, mode, hl, htx, htouch, _, _, hread⟩
    · exact Or.inl h
    · have hcov := L tx a.object mode htouch
      rw [hlocks]
      refine Or.inr ⟨a, hl, Or.inl (htx ▸ covered_shared hcov), fun hw => ?_⟩
      cases mode with
      | SHARED => exact absurd hw (hread rfl)
      | EXCLUSIVE => exact htx ▸ hcov
  | false =>
    cases table_step_cases hstep with
    | heap _ hh =>
      rw [hheap] at hh
      cases hh
    | asleep hw => exact Or.inl (accesses_lock _ _ _ hw).1
    | refused hw =>
      rw [after_txs_self]
      exact Or.inl (accesses_lock _ _ _ hw).2.1
    | @granted rid mode l hw hl =>
      rw [after_txs_self]
      have hacc := (accesses_lock s.heap.pool s.heap.pool tx hw).2.2
      by_cases hp : (s.txs tx).call.placed = some rid
      · rw [if_pos hp] at hacc
        refine Or.inr ⟨_, hacc, ?_⟩
        -- what was placed is locked exclusively
        have hmode : mode = .EXCLUSIVE := by
          cases hc : (s.txs tx).call <;> rw [hc] at hw hp <;> cases hw <;> first | rfl | cases hp
        subst hmode
        have hcov : Covered l tx rid .EXCLUSIVE := (I.answered hw hl).1
        exact ⟨Or.inl (Or.inr hcov), fun _ => hcov⟩
      · rw [if_neg hp] at hacc
        exact Or.inl hacc
    | committed hc | aborted hc | aborting hc =>
      left
      rw [hc]
      simp [accesses]

variable {s s' : AccessHistory} {t : TableSystem}

theorem serializes_step (S : Serializes evicts heads s)
    (hok : StepsApart evicts s.system t tx expired)
    (hstep : table_step s.system tx expired = some t) : Serializes evicts heads (s.note tx t) := by
  have M := lockMove_step S.locked S.upgrades hok.upgrades hstep
  have hholds := txHolds_step S.locked S.holds hstep
  obtain ⟨m, hrun, V⟩ := S.tuples
  refine ⟨callsOn_step S.on hstep hok.frames hok.dirty, tableLocked_step S.locked hstep, hholds,
    touchesLocked_step S.locked hholds S.touches hstep, growing_step S.locked S.growing hstep,
    M.upgrades, placedAlone_step S.on S.locked S.touches S.apart hok hstep,
    saysWhoStopped_move M S.stopped, ?_,
    toldTuples_step S.on S.locked S.touches S.growing S.apart hok hstep V hrun⟩
  have P := twoPhase_move M S.stopped S.twoPhase
  unfold AccessHistory.note
  simp only
  rcases accesses_locked S.on S.locked S.touches hok hstep with h | ⟨a, h, hguards, howns⟩
  · rw [h, List.append_nil]
    exact P
  · rw [h]
    exact P.access hguards howns

theorem serializes_start (h : (accessMachine evicts heads).start s) :
    Serializes evicts heads s := by
  obtain ⟨H, hl, htx, hi, hh, hc⟩ := h
  have hnone : ∀ U, s.system.txs U = {} := fun U => congrFun htx U
  refine ⟨⟨H, ?_, ?_⟩, ⟨by rw [hl]; exact lockInv_fresh, ?_, ?_⟩, fun U => ⟨?_, ?_, ?_⟩,
    fun U rid mode h => ?_, fun U h => ?_, fun T r h => ?_, fun W rid h => ?_, fun U => ?_, ?_,
    ⟨s.initial, ?_, fun rid _ => ?_, fun W rid h => ?_⟩⟩
  · intro U
    rw [hnone]
    trivial
  · simp [hnone]
  · intro U rid mode up hcall
    rw [hl] at hcall
    cases hcall
  · intro U hcall
    rw [hl] at hcall
    exact absurd rfl hcall
  · simp [hnone, TableCall.locked]
  · simp [hnone]
  · simp [hnone]
  · rw [hnone] at h
    cases h
  · rw [hnone] at h
    cases h
  · rw [hl] at h
    cases h
  · rw [hnone] at h
    cases h
  · rw [hc, hl]
    simp [fresh]
  · rw [hl, hh, hc]
    refine twoPhase_start (fun t o ho => ?_) fun t o ho => ?_ <;>
      · unfold Owns fresh at ho
        cases ho
  · rw [hh]
    rfl
  · rw [hi]
  · rw [hnone] at h
    cases h

/-- A call begins. -/
theorem serializes_call (S : Serializes evicts heads s) {op : TableOp}
    {r : Except String TableResult} (hon : op.call.On heads s.system.heap.pool)
    (hc : (s.system.txs tx).call = .done r) :
    Serializes evicts heads { s with system := s.system.begin_call tx op } := by
  have hother : ∀ U, U ≠ tx → (s.system.begin_call tx op).txs U = s.system.txs U :=
    fun U hU => Function.update_of_ne hU _ _
  have hcall : ((s.system.begin_call tx op).txs tx).call = op.call := by
    simp [TableSystem.begin_call, TableSystem.go_on]
  have hnew : op.call.placed = none ∧ op.call.touches = none ∧ op.call.updates = false ∧
      op.call.locked = none ∧ ∀ l, op.call ≠ .undo l := by
    cases op <;> simp [TableOp.call, TableCall.placed, TableCall.touches, TableCall.updates,
      TableCall.locked]
  have hplaced : ∀ W, ((s.system.begin_call tx op).txs W).call.placed =
      (s.system.txs W).call.placed := by
    intro W
    by_cases hW : W = tx
    · subst hW
      rw [hcall, hnew.1, hc]
      rfl
    · rw [hother W hW]
  obtain ⟨m, hrun, V⟩ := S.tuples
  refine ⟨callsOn_call S.on hon, S.locked.go_on (S.locked.idle (by rw [hc]; rfl)) _ _ _,
    fun U => ?_, fun U rid mode h => ?_, fun U h => ?_, S.upgrades, fun W rid h => ?_, S.stopped,
    S.twoPhase, ⟨m, hrun, toldTuples_quiet V hplaced⟩⟩
  · by_cases hU : U = tx
    · subst hU
      exact (S.holds U).go_on _ (by rw [hc]; simp) hnew.2.2.2.1 fun l h =>
        absurd h (hnew.2.2.2.2 l)
    · exact (S.holds U).congr (hother U hU) fun _ => id
  · by_cases hU : U = tx
    · subst hU
      simp only [hcall, hnew.2.1] at h
      cases h
    · simp only [hother U hU] at h
      exact S.touches U rid mode h
  · by_cases hU : U = tx
    · subst hU
      simp only [hcall, hnew.2.2.1] at h
      cases h
    · simp only [hother U hU] at h
      exact S.growing U h
  · simp only [hplaced] at h ⊢
    exact S.apart W rid h

/-- A scan brings pages in and lets go of them, and changes no row. -/
theorem serializes_heap (S : Serializes evicts heads s) {heap : HeapPool}
    (H : HeapState evicts heap.outside (fun _ => False) heads heap.pool)
    (hcont : contents heap.pool = contents s.system.heap.pool) :
    Serializes evicts heads { s with system := { s.system with heap } } := by
  have hrows : rows heads heap.pool = rows heads s.system.heap.pool := by
    funext n
    unfold rows succ
    rw [hcont]
  obtain ⟨m, hrun, V⟩ := S.tuples
  refine ⟨S.on.heap_same H hcont, ⟨S.locked.inv, S.locked.waits, S.locked.growing⟩,
    fun U => (S.holds U).congr rfl fun _ => id, S.touches, S.growing, S.upgrades, ?_, S.stopped,
    S.twoPhase, ⟨m, hrun, ?_⟩⟩ <;> simp only [hrows]
  · exact S.apart
  · exact ⟨V.settled, V.placed⟩

theorem serializes_next {e : TableEvent} (S : Serializes evicts heads s)
    (hok : Apart evicts heads s e) (h : s.next e = some s') : Serializes evicts heads s' := by
  cases e with
  | call tx op =>
    obtain ⟨t, hn, rfl⟩ := Option.map_eq_some_iff.mp h
    unfold TableSystem.next at hn
    simp only at hn
    split at hn
    · rename_i r hc
      cases hn
      exact serializes_call S hok hc
    · cases hn
  | step tx expired =>
    obtain ⟨t, hn, rfl⟩ := Option.map_eq_some_iff.mp h
    exact serializes_step S (hok t hn) hn
  | fetch n =>
    obtain ⟨t, hn, rfl⟩ := Option.map_eq_some_iff.mp h
    obtain ⟨heap, hheap, rfl⟩ := Option.map_eq_some_iff.mp hn
    obtain ⟨H, hc⟩ := evict_fetch S.on.heap hheap
    exact serializes_heap S H hc
  | unpin n =>
    obtain ⟨t, hn, rfl⟩ := Option.map_eq_some_iff.mp h
    obtain ⟨heap, hheap, rfl⟩ := Option.map_eq_some_iff.mp hn
    obtain ⟨H, hc⟩ := evict_unpin S.on.heap hheap
    exact serializes_heap S H hc

theorem serializes_reach (h : (accessMachine evicts heads).Reach (Apart evicts heads) s) :
    Serializes evicts heads s :=
  h.invariant (fun _ => serializes_start) fun _ _ _ S hok hn => serializes_next S hok hn

/-! ## The law -/

/-- What transactions do side by side is what they do one after the other, those that have
stopped locking in that order and then the rest in any order: every read finds the tuple that it
finds there, and all tuples that are not yet to be locked are left as they are left there. -/
theorem transactions_amount_to_one_after_the_other
    (h : (accessMachine evicts heads).Reach (Apart evicts heads) s) (rest : List TransactionID)
    (hnodup : (s.closed ++ rest).Nodup) (hall : ∀ a ∈ s.history, a.tx ∈ s.closed ++ rest) :
    ∃ m, run s.initial (serially (s.closed ++ rest) s.history) = some m ∧
      ∀ rid, (∀ W, (s.system.txs W).call.placed ≠ some rid) →
        m rid = valueOf (rows heads s.system.heap.pool) rid := by
  have S := serializes_reach h
  obtain ⟨m, hrun, V⟩ := S.tuples
  exact ⟨m, S.twoPhase.run_serially rest hnodup hall hrun, V.settled⟩

end

/-! ## Runs on fixed inputs -/

/-- Transactions over a table of one page. -/
noncomputable def accesses_open : AccessHistory :=
  ⟨new_table, valueOf (rows (· = 1) new_table.heap.pool), [], []⟩

theorem accesses_open_start : (accessMachine False (· = 1)).start accesses_open :=
  ⟨new_table_begins.heap, rfl, rfl, rfl, rfl, rfl⟩

/-- The steps keep their tuples apart, and lock nothing that another transaction waits to
upgrade. -/
def apart_calls_check (who : List TransactionID) (s : AccessHistory) (e : TableEvent) : Bool :=
  tuples_apart_check who s.system e && match e with
    | .step tx expired => (s.system.txs tx).call.wants.all fun x =>
      (asks_exclusive s.system.locks (lockEvent s.system.locks tx x.1 x.2 expired)).all fun y =>
        who.all fun T => T == y.1 || s.system.locks.call T != some (y.2, .EXCLUSIVE, true)
    | _ => true

/-- What the check needs of the states before: nobody but a few transactions takes part. -/
def FewTakePart (who : List TransactionID) (s : AccessHistory) : Prop :=
  Serializes False (· = 1) s ∧ Bystanders who s.system

theorem few_take_part {who : List TransactionID} {s : AccessHistory}
    (h : (accessMachine False (· = 1)).Reach (fun s e =>
      Apart False (· = 1) s e ∧ e.among who = true) s) : FewTakePart who s := by
  refine ⟨serializes_reach (h.mono fun _ _ he => he.1), ?_⟩
  refine h.invariant (I := fun s => Bystanders who s.system) (fun s hs U _ => ?_)
    fun s e s' B he hn => ?_
  · obtain ⟨_, hl, htx, _⟩ := hs
    exact ⟨congrFun htx U, congrFun (congrArg LockSystem.txs hl) U⟩
  · cases e with
    | call | fetch | unpin | step =>
      obtain ⟨t, ht, rfl⟩ := Option.map_eq_some_iff.mp hn
      exact bystanders_next B he.2 ht

theorem apart_of_check {who : List TransactionID} {s : AccessHistory} {e : TableEvent}
    (F : FewTakePart who s) (h : apart_calls_check who s e = true) :
    Apart False (· = 1) s e ∧ e.among who = true := by
  obtain ⟨happart, hups⟩ := Bool.and_eq_true_iff.mp h
  obtain ⟨S, B⟩ := F
  obtain ⟨hon, hamong⟩ := onHeaps_of_check S.on (Bool.and_eq_true_iff.mp happart).1
  refine ⟨?_, hamong⟩
  cases e with
  | fetch | unpin => trivial
  | call => exact hon
  | step tx expired =>
    intro t ht
    refine ⟨tuplesApart_of_check S.on B happart ht, fun rid mode hw U r hasks _ T hT hup => ?_⟩
    simp only [hw, Option.all_some, hasks, List.all_eq_true] at hups
    by_cases hwho : T ∈ who
    · have := hups T hwho
      simp [hT, hup] at this
    · have hwants := S.locked.waits T r .EXCLUSIVE true hup
      rw [(B T hwho).1] at hwants
      cases hwants

/-- Transaction 1 inserts a row and commits. Transactions 2 and 3 read it, 2 waits to update it
until 3 commits, and ends after it. -/
theorem a_reader_that_commits_first_comes_first : ∃ s m,
    (accessMachine False (· = 1)).Reach (Apart False (· = 1)) s ∧ s.closed = [1, 3, 2] ∧
    s.history.map (·.tx) = [1, 2, 3, 2, 2, 2] ∧
    run s.initial (serially [1, 3, 2] s.history) = some m ∧ m ⟨some 1, 0⟩ = some [9, 9] := by
  obtain ⟨s, hx, hp⟩ : ∃ s, (accessMachine False (· = 1)).execIf (apart_calls_check [1, 2, 3])
      accesses_open
      [.call 1 (.insert_tuple (some 1) [7, 7, 7]), .step 1 false, .step 1 false,
        .call 1 .commit, .step 1 false,
        .call 2 (.get_tuple ⟨some 1, 0⟩), .step 2 false, .step 2 false,
        .call 3 (.get_tuple ⟨some 1, 0⟩), .step 3 false, .step 3 false,
        .call 2 (.update_tuple (some 1) ⟨some 1, 0⟩ [9, 9]), .step 2 false,
        .call 3 .commit, .step 3 false, .step 2 false, .step 2 false, .step 2 false,
        .call 2 (.get_tuple ⟨some 1, 0⟩), .step 2 false, .step 2 false,
        .call 2 .commit, .step 2 false] = some s ∧
      (decide (s.closed = [1, 3, 2]) && decide (s.history.map (·.tx) = [1, 2, 3, 2, 2, 2]) &&
        decide (visibleAt s.system.heap.pool ⟨some 1, 0⟩ = some [9, 9]) &&
        [1, 2, 3].all fun W => (s.system.txs W).call.placed.isNone) = true := by
    apply Option.map_eq_some_iff.mp
    decide +kernel
  simp only [Bool.and_eq_true, decide_eq_true_eq, List.all_eq_true] at hp
  obtain ⟨⟨⟨hclosed, htxs⟩, hvalue⟩, hplaced⟩ := hp
  have hr : (accessMachine False (· = 1)).Reach (fun s e =>
      Apart False (· = 1) s e ∧ e.among [1, 2, 3] = true) s :=
    Machine.Reach.execIf (fun _ h => few_take_part h) (fun _ _ F h => apart_of_check F h)
      (.start accesses_open_start) hx
  have F := few_take_part hr
  have hr := hr.mono fun _ _ h => h.1
  have hall : ∀ a ∈ s.history, a.tx ∈ s.closed ++ [] := by
    intro a ha
    have hmem : a.tx ∈ s.history.map (·.tx) := List.mem_map_of_mem ha
    rw [htxs] at hmem
    simp only [List.mem_cons, List.not_mem_nil, or_false] at hmem
    rw [hclosed, List.append_nil]
    rcases hmem with h | h | h | h | h | h <;> rw [h] <;> decide
  obtain ⟨m, hm, hsettled⟩ := transactions_amount_to_one_after_the_other hr []
    (by rw [hclosed]; decide) hall
  rw [List.append_nil, hclosed] at hm
  refine ⟨s, m, hr, hclosed, htxs, hm, ?_⟩
  have hon : RidOn (· = 1) s.system.heap.pool ⟨some 1, 0⟩ :=
    ⟨1, rfl, 1, rfl, F.1.on.heap.forest.onPath_head rfl⟩
  rw [hsettled ⟨some 1, 0⟩ fun W hW => ?_, ← visibleAt_eq hon, hvalue]
  by_cases hwho : W ∈ [1, 2, 3]
  · have := hplaced W hwho
    rw [hW] at this
    cases this
  · rw [(F.2 W hwho).1] at hW
    cases hW

end duck.table
