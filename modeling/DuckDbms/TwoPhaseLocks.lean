-- The locks of a table's transactions as two-phase locking: a transaction gets
-- locks until a lock is refused, it commits or it aborts, and keeps them until
-- then, as long as nobody gets a lock past an upgrade that waits.
import DuckDbms.Lib.Serial
import DuckDbms.TableLocks

open machine duck.buffer_pool duck.lock_manager serial

namespace duck.table

/-! ## The locks of the transactions -/

/-- The section of the lock manager that a lock call runs. -/
def lockEvent (l : LockSystem) (tx : TransactionID) (rid : RID) (mode : LockMode)
    (expired : Bool) : Event :=
  if (l.waits tx).isSome then if expired then .timeout tx else .wake tx
  else match mode with
    | .SHARED => .lock_shared tx rid
    | .EXCLUSIVE => .lock_exclusive tx rid

/-- The transaction keeps the others from changing the tuple: it has a lock, or it waits to
upgrade one. -/
def Guards (l : LockSystem) (tx : TransactionID) (rid : RID) : Prop :=
  Covered l tx rid .SHARED ∨ l.call tx = some (rid, .EXCLUSIVE, true)

def Owns (l : LockSystem) (tx : TransactionID) (rid : RID) : Prop :=
  rid ∈ (l.txs tx).exclusive_locks

/-- While an upgrade waits, nobody else has the tuple for itself. -/
def UpgradesAlone (l : LockSystem) : Prop :=
  ∀ T r, l.call T = some (r, .EXCLUSIVE, true) → ∀ U, U ≠ T → ¬ Owns l U r

section
variable {l l' : LockSystem} {e : Event} {tx T U : TransactionID} {rid r : RID} {mode : LockMode}
  {expired : Bool}

theorem Owns.guards (h : Owns l tx rid) : Guards l tx rid := Or.inl (Or.inr h)

theorem Owns.alone (I : LockInv l) (A : UpgradesAlone l) (h : Owns l tx rid) (hne : U ≠ tx) :
    ¬ Guards l U rid := by
  have hx := (I.exclusive rid tx).mp h
  rintro ((hs | ho) | hup)
  · exact I.excludes hx hne .SHARED ((I.shared rid U).mp hs)
  · exact I.excludes hx hne .EXCLUSIVE ((I.exclusive rid U).mp ho)
  · exact A U rid hup tx (Ne.symm hne) h

/-- Between a shared lock and the exclusive one. -/
theorem upgrading_of_guards (A : UpgradesAlone l) (h : Guards l T r) : Upgrading l T r := by
  rcases h with (hs | ho) | hup
  · exact .shared hs
  · exact .exclusive ho
  · exact .waiting hup (A T r hup)

theorem guards_of_upgrading (h : Upgrading l T r) (hg : (l.txs T).state = .GROWING) :
    Guards l T r := by
  rcases h with hs | ⟨hc, _⟩ | ho | ⟨hst, _⟩
  · exact Or.inl (Or.inl hs)
  · exact Or.inr hc
  · exact Or.inl (Or.inr ho)
  · exact absurd hg hst

theorem call_request_lock {up : Bool}
    (h : (request_lock l tx rid mode up).1.call tx = some (r, .EXCLUSIVE, true)) :
    r = rid ∧ up = true := by
  rcases request_lock_cases l tx rid mode up with ⟨_, he⟩ | he <;> rw [he] at h
  · rw [grant_call, if_pos rfl] at h
    cases h
  · simp only [enqueue, call_set_wait, if_pos, Option.map_some, Option.some.injEq,
      Prod.mk.injEq] at h
    exact ⟨h.1.symm, h.2.2⟩

/-- An upgrade starts from a shared lock. -/
theorem upgrade_from_shared (hn : next l e = some l')
    (h : l'.call T = some (r, .EXCLUSIVE, true)) :
    l.call T = some (r, .EXCLUSIVE, true) ∨ r ∈ (l.txs T).shared_locks := by
  by_cases hT : T = e.tx
  swap
  · rw [(next_other hn hT).2] at h
    exact Or.inl h
  rcases e with ⟨tx, rid⟩ | ⟨tx, rid⟩ | tx | tx | tx | ⟨tx, state⟩ <;>
    simp only [next, Event.tx] at hn hT <;> subst hT
  · split at hn
    · cases hn
      rcases lock_shared_cases l T rid with he | ⟨_, he⟩ <;> rw [he] at h
      · exact Or.inl h
      · cases (call_request_lock h).2
    · cases hn
  · split at hn
    · cases hn
      rcases lock_exclusive_cases l T rid with he | ⟨_, _, ⟨hs, he⟩ | ⟨_, he⟩⟩ <;> rw [he] at h
      · exact Or.inl h
      · obtain ⟨rfl, _⟩ := call_request_lock h
        exact Or.inr hs
      · cases (call_request_lock h).2
    · cases hn
  all_goals try
    obtain ⟨w, hw, ⟨_, rfl⟩ | rfl | rfl⟩ := wake_cases hn
    · rw [grant_call, if_pos rfl] at h
      cases h
    · simp [time_out, call_set_wait] at h
    · left
      rw [call_set_wait, if_pos rfl] at h
      rw [← h, LockSystem.call, hw]
      rfl
  · split at hn
    · cases hn
      rw [unlock_all_call] at h
      exact Or.inl h
    · cases hn
  · split at hn
    · cases hn
      exact Or.inl h
    · cases hn

theorem upgradesAlone_next (I : LockInv l) (A : UpgradesAlone l) (hok : NoGrantPastUpgrade l e)
    (hn : next l e = some l') : UpgradesAlone l' := by
  intro T r hup U hU hx
  have I' := lockInv_next I hn
  have hu : e ≠ .unlock_all T := by
    rintro rfl
    simp only [next] at hn
    split at hn
    · rename_i hw
      cases hn
      rw [unlock_all_call, call_eq_none.mpr hw] at hup
      cases hup
    · cases hn
  have hbefore : Upgrading l T r := by
    rcases upgrade_from_shared hn hup with h | h
    · exact .waiting h (A T r h)
    · exact .shared h
  rcases upgrading_next I hok hn hu hbefore with hs | ⟨_, hno⟩ | ho | ⟨_, hc, _⟩
  · exact I'.exclusive_of_shared hs hU hx
  · exact hno U hU hx
  · exact I'.exclusive_alone ho hU hx
  · rw [hc] at hup
    cases hup

theorem lockEvent_tx : (lockEvent l tx rid mode expired).tx = tx := by
  unfold lockEvent
  split
  · split <;> rfl
  · cases mode <;> rfl

theorem lockEvent_next :
    next l (lockEvent l tx rid mode expired) = some (lockCall l tx rid mode expired).1 := by
  unfold lockEvent lockCall
  cases hw : l.waits tx with
  | none =>
    have hwake : wake l tx expired = none := by
      unfold wake
      rw [hw]
      rfl
    rw [hwake]
    cases mode <;> simp [next, hw]
  | some w =>
    cases expired <;> simp [next, wake, hw]

theorem lockEvent_not_unlock : lockEvent l tx rid mode expired ≠ .unlock_all T := by
  unfold lockEvent
  split
  · split <;> simp
  · cases mode <;> simp

/-- A lock call that is refused takes no lock. -/
theorem refused_lockCall (h : (lockCall l tx rid mode expired).2 = some false) :
    (lockCall l tx rid mode expired).1 = l ∨
      ∃ w, l.waits tx = some w ∧ (lockCall l tx rid mode expired).1 = time_out l tx w.rid := by
  have hreq : ∀ (k : LockSystem) (m : LockMode) (up : Bool),
      (request_lock k tx rid m up).2 ≠ some false := by
    intro k m up
    unfold request_lock
    simp only
    split <;> simp
  unfold lockCall at h ⊢
  cases hw : wake l tx expired with
  | none =>
    rw [hw] at h
    left
    cases mode with
    | SHARED =>
      simp only [lock_shared] at h ⊢
      split
      · rfl
      · rename_i h1
        rw [if_neg h1] at h
        split
        · rfl
        · rename_i h2
          rw [if_neg h2] at h
          exact absurd h (hreq _ _ _)
    | EXCLUSIVE =>
      simp only [lock_exclusive] at h ⊢
      split
      · rfl
      · rename_i h1
        rw [if_neg h1] at h
        split
        · rfl
        · rename_i h2
          rw [if_neg h2] at h
          split at h
          · exact absurd h (hreq _ _ _)
          · exact absurd h (hreq _ _ _)
  | some res =>
    rw [hw] at h
    unfold wake at hw
    obtain ⟨w, hwait, he⟩ := Option.map_eq_some_iff.mp hw
    right
    split at he
    · cases he
      cases h
    · split at he
      · cases he
        exact ⟨w, hwait, rfl⟩
      · cases he
        cases h

/-- What a step of a transaction does to the locks: it gets locks while it is growing, and loses
them when it has stopped. -/
structure LockMove (l l' : LockSystem) (tx : TransactionID) : Prop where
  inv : LockInv l'
  upgrades : UpgradesAlone l'
  others : ∀ U, U ≠ tx → l'.txs U = l.txs U ∧ l'.call U = l.call U
  gains : ∀ r, (Guards l' tx r → Guards l tx r ∨ (l'.txs tx).state = .GROWING) ∧
    (Owns l' tx r → Owns l tx r ∨ (l'.txs tx).state = .GROWING)
  keeps : (l'.txs tx).state = .GROWING →
    ∀ r, (Guards l tx r → Guards l' tx r) ∧ (Owns l tx r → Owns l' tx r)
  stays : (l.txs tx).state ≠ .GROWING → (l'.txs tx).state ≠ .GROWING

theorem lockMove_refl (I : LockInv l) (A : UpgradesAlone l) : LockMove l l tx :=
  ⟨I, A, fun _ _ => ⟨rfl, rfl⟩, fun _ => ⟨Or.inl, Or.inl⟩, fun _ _ => ⟨id, id⟩, id⟩

theorem lockMove_lockCall (I : LockInv l) (A : UpgradesAlone l)
    (hok : NoGrantPastUpgrade l (lockEvent l tx rid mode expired))
    (hans : Answered (lockCall l tx rid mode expired).1 tx rid mode
      (lockCall l tx rid mode expired).2) :
    LockMove l (lockCall l tx rid mode expired).1 tx := by
  have hn : next l (lockEvent l tx rid mode expired) =
      some (lockCall l tx rid mode expired).1 := lockEvent_next
  have hothers : ∀ U, U ≠ tx → (lockCall l tx rid mode expired).1.txs U = l.txs U ∧
      (lockCall l tx rid mode expired).1.call U = l.call U :=
    fun U hU => next_other hn (by rwa [lockEvent_tx])
  refine ⟨lockInv_next I hn, upgradesAlone_next I A hok hn, hothers, fun r => ?_, fun hg r => ?_,
    fun hst => ?_⟩
  · cases hres : (lockCall l tx rid mode expired).2 with
    | none =>
      rw [hres] at hans
      exact ⟨fun _ => Or.inr hans.2, fun _ => Or.inr hans.2⟩
    | some granted =>
      cases granted with
      | true =>
        rw [hres] at hans
        exact ⟨fun _ => Or.inr hans.2.2, fun _ => Or.inr hans.2.2⟩
      | false =>
        rcases refused_lockCall hres with he | ⟨w, _, he⟩ <;> rw [he]
        · exact ⟨Or.inl, Or.inl⟩
        · refine ⟨fun h => Or.inl ?_, fun h => Or.inl ?_⟩
          · rcases h with h | h
            · exact Or.inl (by simpa [Covered, time_out] using h)
            · simp [time_out, call_set_wait] at h
          · simpa [Owns, time_out] using h
  · refine ⟨fun h => ?_, exclusive_kept hn lockEvent_not_unlock⟩
    exact guards_of_upgrading (upgrading_next I hok hn lockEvent_not_unlock
      (upgrading_of_guards A h)) hg
  · rcases state_lockCall l tx rid mode expired with h | ⟨_, h⟩ <;> rw [h]
    · exact hst
    · simp

/-- The transaction stops locking, and may lose its locks. -/
theorem lockMove_stop (I' : LockInv l') (A : UpgradesAlone l)
    (hothers : ∀ U, U ≠ tx → l'.txs U = l.txs U ∧ l'.call U = l.call U)
    (hcall : l'.call tx = none)
    (hlocks : ∀ r mode, Covered l' tx r mode → Covered l tx r mode)
    (hst : (l'.txs tx).state ≠ .GROWING) : LockMove l l' tx := by
  refine ⟨I', fun T r hup U hU hx => ?_, hothers, fun r => ⟨fun h => Or.inl ?_, fun h => Or.inl ?_⟩,
    fun hg => absurd hg hst, fun _ => hst⟩
  · have hT : T ≠ tx := by
      rintro rfl
      rw [hcall] at hup
      cases hup
    rw [(hothers T hT).2] at hup
    refine A T r hup U hU ?_
    by_cases hUtx : U = tx
    · subst hUtx
      exact hlocks r .EXCLUSIVE hx
    · unfold Owns at hx
      rwa [(hothers U hUtx).1] at hx
  · rcases h with h | h
    · exact Or.inl (hlocks r .SHARED h)
    · rw [hcall] at h
      cases h
  · exact hlocks r .EXCLUSIVE h

/-- The transactions that have stopped locking, after a step of one of them. A lock that was not
granted, `commit` and `abort` end its growing phase. -/
def stopped (l l' : LockSystem) (tx : TransactionID) (closed : List TransactionID) :
    List TransactionID :=
  if (l.txs tx).state = .GROWING ∧ (l'.txs tx).state ≠ .GROWING then closed ++ [tx] else closed

/-- The list of those that have stopped says who is not growing. -/
def SaysWhoStopped (l : LockSystem) (closed : List TransactionID) : Prop :=
  ∀ U, U ∈ closed ↔ (l.txs U).state ≠ .GROWING

variable {α : Type} {closed : List TransactionID} {h : List (Access TransactionID RID α)}

theorem saysWhoStopped_move (M : LockMove l l' tx) (C : SaysWhoStopped l closed) :
    SaysWhoStopped l' (stopped l l' tx closed) := by
  intro U
  unfold stopped
  by_cases hU : U = tx
  · subst hU
    split
    · rename_i hs
      simp [hs.2]
    · rename_i hs
      rw [C U]
      constructor
      · exact M.stays
      · intro hg hg0
        exact hs ⟨hg0, hg⟩
  · rw [(M.others U hU).1]
    split
    · rw [List.mem_append, List.mem_singleton, C U]
      exact or_iff_left hU
    · exact C U

/-- A step keeps the history two-phase. -/
theorem twoPhase_move (M : LockMove l l' tx) (C : SaysWhoStopped l closed)
    (P : TwoPhase (Guards l) (Owns l) closed h) :
    TwoPhase (Guards l') (Owns l') (stopped l l' tx closed) h := by
  have C' := saysWhoStopped_move M C
  have hclose : TwoPhase (Guards l) (Owns l) (stopped l l' tx closed) h := by
    unfold stopped
    split
    · rename_i hs
      exact P.close fun hmem => (C tx).mp hmem hs.1
    · exact P
  have hother : ∀ U, U ≠ tx → ∀ r, (Guards l' U r ↔ Guards l U r) ∧ (Owns l' U r ↔ Owns l U r) := by
    intro U hU r
    obtain ⟨h1, h2⟩ := M.others U hU
    unfold Guards Owns Covered
    rw [h1, h2]
    exact ⟨Iff.rfl, Iff.rfl⟩
  have hopen : (l'.txs tx).state = .GROWING → tx ∉ stopped l l' tx closed :=
    fun hg hmem => (C' tx).mp hmem hg
  refine hclose.locks (fun t o ho u hu => ho.alone M.inv M.upgrades hu) (fun t o ho => ho.guards)
    (fun t o hs => ?_) (fun t o ho => ?_) fun t ht o => ?_
  · by_cases hU : t = tx
    · subst hU
      exact ((M.gains o).1 hs).imp_right hopen
    · exact Or.inl ((hother t hU o).1.mp hs)
  · by_cases hU : t = tx
    · subst hU
      exact ((M.gains o).2 ho).imp_right hopen
    · exact Or.inl ((hother t hU o).2.mp ho)
  · by_cases hU : t = tx
    · subst hU
      refine M.keeps ?_ o
      by_contra hst
      exact ht ((C' t).mpr hst)
    · exact ⟨(hother t hU o).1.mpr, (hother t hU o).2.mpr⟩

end

/-! ## The steps of the calls -/

section
variable {s t : TableSystem} {tx : TransactionID} {expired : Bool}

theorem lockMove_finish (s0 : TableSystem) (I : TableLocked s) (A : UpgradesAlone s0.locks)
    (hothers : ∀ U, U ≠ tx → s.locks.txs U = s0.locks.txs U) (hcalls : s.locks.call = s0.locks.call)
    (hidle : s.locks.call tx = none) {state : TransactionState} (hst : state ≠ .GROWING) :
    LockMove s0.locks (s.finish tx state).locks tx := by
  refine lockMove_stop (I.finish hidle hst).inv A (fun U hU => ⟨?_, ?_⟩) ?_ (fun r mode hc => ?_) ?_
  · rw [(finish_other hU s state).2, hothers U hU]
  · rw [finish_locks, call_set_tx, unlock_all_call, hcalls]
  · rw [finish_locks, call_set_tx, unlock_all_call]
    exact hidle
  · cases mode <;> simp [Covered, finish_locks, unlock_all_txs] at hc
  · rw [finish_locks, txs_set_tx, if_pos rfl]
    exact hst

/-- What a step of a call does to the locks. -/
theorem lockMove_step (I : TableLocked s) (A : UpgradesAlone s.locks)
    (hok : ∀ rid mode, (s.txs tx).call.wants = some (rid, mode) →
      NoGrantPastUpgrade s.locks (lockEvent s.locks tx rid mode expired))
    (hstep : table_step s tx expired = some t) : LockMove s.locks t.locks tx := by
  have hlock : ∀ {rid mode l r}, (s.txs tx).call.wants = some (rid, mode) →
      lockCall s.locks tx rid mode expired = (l, r) → LockMove s.locks l tx := by
    intro rid mode l r hw hl
    have M := lockMove_lockCall I.inv A (hok rid mode hw) (by rw [hl]; exact I.answered hw hl)
    rwa [hl] at M
  have hidle : (s.txs tx).call.wants = none → s.locks.call tx = none := I.idle
  cases table_step_cases hstep with
  | asleep hw hl | granted hw hl | refused hw hl => exact hlock hw hl
  | committed hc =>
    have hno := hidle (by rw [hc]; rfl)
    exact lockMove_finish s (I.set_state hno (by simp)) A
      (fun U hU => (txs_set_tx ..).trans (if_neg hU)) rfl hno (by simp)
  | aborted hc => exact lockMove_finish s I A (fun _ _ => rfl) rfl (hidle (by rw [hc]; rfl)) (by simp)
  | aborting hc =>
    have hno := hidle (by rw [hc]; rfl)
    have hset : ((s.set_state tx .SHRINKING).go_on s.heap.pool tx
        (.undo (s.txs tx).undo_log)).locks =
          s.locks.set_tx tx { s.locks.txs tx with state := .SHRINKING } := rfl
    rw [hset]
    refine lockMove_stop (lockInv_set_state I.inv tx (by simp)) A (fun U hU => ⟨?_, rfl⟩) hno
      (fun r mode hc => ?_) ?_
    · exact (txs_set_tx ..).trans (if_neg hU)
    · cases mode <;> simpa [Covered] using hc
    · rw [txs_set_tx, if_pos rfl]
      simp
  | heap => exact lockMove_refl I.inv A

end

end duck.table
