-- Deadlocks of the lock manager, which has no detector: a call whose waits lead
-- into a cycle leaves by a timeout only, every other call can get its lock, and
-- transactions that lock in one order never come into a cycle.
import DuckDbms.Lib.WaitsFor
import DuckDbms.LockWakeups
import Mathlib.Order.WithBot

open machine waits_for

namespace duck.lock_manager

/-! ## Who waits for whom -/

/-- The call of a transaction waits, and the other transaction holds a lock against it. -/
def WaitsFor (s : LockSystem) (tx U : TransactionID) : Prop :=
  ∃ rid mode up, s.call tx = some (rid, mode, up) ∧
    ∃ r, BlockedBy (s.lock_table rid) tx mode r ∧ r.tx_id = U

/-- No call of a transaction that is deadlocked in `s` gives up. -/
def SparesDeadlocked (s : LockSystem) (_ : LockSystem) (e : Event) : Prop :=
  ∀ T, e = .timeout T → ¬ Deadlocked (WaitsFor s) T

/-- Calls wake up, and the others release their locks. -/
def OthersRelease (tx : TransactionID) (_ : LockSystem) : Event → Prop
  | .wake _ => True
  | .unlock_all U => U ≠ tx
  | _ => False

/-! ## Requests of the others -/

section
variable {s t : LockSystem} {e : Event} {tx T U : TransactionID} {rid : RID} {r : LockRequest}

theorem request_lock_mem (s : LockSystem) {tx : TransactionID} (rid' : RID) (mode : LockMode)
    (up : Bool) (hr : r.tx_id ≠ tx) :
    r ∈ (request_lock s tx rid' mode up).1.lock_table rid ↔ r ∈ s.lock_table rid := by
  have henq : r ∈ (enqueue s tx rid' mode up).lock_table rid ↔ r ∈ s.lock_table rid := by
    simp only [enqueue, queue_set_wait, queue_set_queue]
    split
    · rename_i h
      subst h
      rw [List.mem_append, List.mem_singleton]
      refine or_iff_left ?_
      rintro rfl
      exact hr rfl
    · rfl
  rcases request_lock_cases s tx rid' mode up with ⟨_, h⟩ | h <;> rw [h]
  · rw [grant_queue]
    split
    · rename_i h
      subst h
      rw [mem_mark_granted, henq]
      simp [hr]
    · exact henq
  · exact henq

theorem filter_mem (hr : r.tx_id ≠ tx) (q : List LockRequest) :
    r ∈ q.filter (fun x => x.tx_id ≠ tx) ↔ r ∈ q := by
  simp [hr]

/-- An event leaves the requests of the other transactions where they are. -/
theorem next_mem_other (hi : LockInv s) (hn : next s e = some t) (hr : r.tx_id ≠ e.tx) :
    r ∈ t.lock_table rid ↔ r ∈ s.lock_table rid := by
  rcases e with ⟨tx, rid'⟩ | ⟨tx, rid'⟩ | tx | tx | tx | ⟨tx, state⟩ <;>
    simp only [next, Event.tx] at hn hr
  · split at hn
    · cases hn
      rcases lock_shared_cases s tx rid' with h | ⟨_, h⟩ <;> rw [h]
      exact request_lock_mem s rid' .SHARED false hr
    · cases hn
  · split at hn
    · cases hn
      rcases lock_exclusive_cases s tx rid' with h | ⟨_, _, ⟨_, h⟩ | ⟨_, h⟩⟩ <;> rw [h]
      · rw [request_lock_mem _ rid' .EXCLUSIVE true hr]
        simp only [release_shared, queue_set_tx, queue_set_queue]
        split
        · rename_i h
          rw [filter_mem hr, h]
        · rfl
      · exact request_lock_mem s rid' .EXCLUSIVE false hr
    · cases hn
  all_goals try
    obtain ⟨w, hw, ⟨_, rfl⟩ | rfl | rfl⟩ := wake_cases hn
    · rw [grant_queue]
      split
      · rename_i h
        subst h
        rw [mem_mark_granted]
        simp [hr]
      · rfl
    · simp only [time_out, queue_notify_all, queue_set_wait, queue_set_tx, queue_set_queue]
      split
      · rename_i h
        rw [List.mem_filter, h]
        simp [hr]
      · rfl
    · rfl
  · split at hn
    · rename_i hc
      cases hn
      rw [unlock_all_mem hi (call_eq_none.mpr hc)]
      exact and_iff_left hr
    · cases hn
  · split at hn
    · cases hn
      rfl
    · cases hn

/-- A call that waits and is blocked does nothing but sleep on, as long as it does not give
up. -/
theorem blocked_sleeps_on (hn : next s e = some t) (hU : WaitsFor s e.tx U)
    (hno : e ≠ .timeout e.tx) : (∀ rid, t.lock_table rid = s.lock_table rid) ∧
      ∀ T, t.call T = s.call T := by
  obtain ⟨rid, mode, up, hc, r, hb, _⟩ := hU
  have hwaits : s.waits e.tx ≠ none := fun h => by rw [call_eq_none.mpr h] at hc; cases hc
  rcases e with ⟨tx, rid'⟩ | ⟨tx, rid'⟩ | tx | tx | tx | ⟨tx, state⟩ <;>
    simp only [next, Event.tx] at hn hc hb hno hwaits
  · rw [if_neg hwaits] at hn
    cases hn
  · rw [if_neg hwaits] at hn
    cases hn
  · obtain ⟨⟨t', res⟩, hw, rfl⟩ := Option.map_eq_some_iff.mp hn
    unfold wake at hw
    obtain ⟨w, hwait, he⟩ := Option.map_eq_some_iff.mp hw
    have hcall : s.call tx = some (w.rid, w.lock_mode, w.upgrade) := by
      simp [LockSystem.call, hwait]
    rw [hc] at hcall
    cases hcall
    rw [if_neg (by rw [(can_grant_false_iff _ _ _).mpr ⟨r, hb⟩]; simp)] at he
    cases he
    refine ⟨fun _ => rfl, fun T => ?_⟩
    rw [call_set_wait]
    split
    · rename_i hT
      rw [hT, hc]
      rfl
    · rfl
  · exact absurd rfl hno
  · rw [if_neg hwaits] at hn
    cases hn
  · split at hn
    · cases hn
      exact ⟨fun _ => rfl, fun _ => rfl⟩
    · cases hn

/-- An event that is no timeout of a knot leaves the knot. -/
theorem knot_next {D : Set TransactionID} (hi : LockInv s) (hk : Knot (WaitsFor s) D)
    (hspare : ∀ T ∈ D, e ≠ .timeout T) (hn : next s e = some t) :
    Knot (WaitsFor t) D ∧ ∀ T ∈ D, t.call T = s.call T := by
  by_cases he : e.tx ∈ D
  · obtain ⟨U, _, hU⟩ := hk _ he
    obtain ⟨hqueues, hcalls⟩ := blocked_sleeps_on hn hU (hspare _ he)
    refine ⟨hk.mono fun T V => ?_, fun T _ => hcalls T⟩
    rintro ⟨rid, mode, up, hc, hr⟩
    exact ⟨rid, mode, up, (hcalls T).trans hc, by rwa [hqueues]⟩
  · have hcalls : ∀ T ∈ D, t.call T = s.call T :=
      fun T hT => (next_other hn fun h => he (h ▸ hT)).2
    refine ⟨fun T hT => ?_, hcalls⟩
    obtain ⟨U, hU, rid, mode, up, hc, r, ⟨hr, hb⟩, rfl⟩ := hk T hT
    have hmem := (next_mem_other hi hn (fun h => he (h ▸ hU))).mpr hr
    exact ⟨r.tx_id, hU, rid, mode, up, (hcalls T hT).trans hc, r, ⟨hmem, hb⟩, rfl⟩

end

/-! ## Those who wait, and those who hold -/

/-- Only the transactions of the list have requests. -/
def OnlyRequests (s : LockSystem) (L : List TransactionID) : Prop :=
  ∀ T, T ∉ L → s.call T = none ∧ ∀ rid, ∀ r ∈ s.lock_table rid, r.tx_id ≠ T

theorem onlyRequests_reach {ok : LockSystem → Event → Prop} {s : LockSystem}
    (h : lockMachine.Reach ok s) : ∃ L, OnlyRequests s L := by
  induction h with
  | start h0 =>
    obtain rfl : _ = fresh := h0
    exact ⟨[], fun T _ => ⟨rfl, fun _ _ hr => by cases hr⟩⟩
  | @step s t e hs _ hn ih =>
    obtain ⟨L, hL⟩ := ih
    refine ⟨e.tx :: L, fun T hT => ?_⟩
    obtain ⟨hne, hT⟩ := not_or.mp (List.mem_cons.not.mp hT)
    refine ⟨(next_other hn hne).2.trans (hL T hT).1, fun rid r hr he => ?_⟩
    subst he
    exact (hL r.tx_id hT).2 rid r ((next_mem_other (lockInv_reach hs) hn hne).mp hr) rfl

/-- The granted requests and the calls that wait are among those of another state. -/
structure Fewer (t s : LockSystem) : Prop where
  requests : ∀ rid, ∀ r ∈ t.lock_table rid, r.granted = true → r ∈ s.lock_table rid
  calls : ∀ T, t.call T = s.call T ∨ t.call T = none

section
variable {s t u : LockSystem} {tx T U : TransactionID} {L : List TransactionID}

theorem fewer_refl (s : LockSystem) : Fewer s s := ⟨fun _ _ hr _ => hr, fun _ => Or.inl rfl⟩

theorem Fewer.trans (h : Fewer u t) (h' : Fewer t s) : Fewer u s := by
  refine ⟨fun rid r hr hg => h'.requests rid r (h.requests rid r hr hg) hg, fun T => ?_⟩
  rcases h.calls T with h1 | h1
  · rw [h1]
    exact h'.calls T
  · exact Or.inr h1

theorem Fewer.waitsFor (h : Fewer t s) (hw : WaitsFor t T U) : WaitsFor s T U := by
  obtain ⟨rid, mode, up, hc, r, hb, rfl⟩ := hw
  rcases h.calls T with h1 | h1
  · exact ⟨rid, mode, up, h1 ▸ hc, r, ⟨h.requests rid r hb.1 hb.2.1, hb.2⟩, rfl⟩
  · rw [h1] at hc
    cases hc

theorem Fewer.only (h : Fewer t s) (hL : OnlyRequests s L)
    (hmem : ∀ rid, ∀ r ∈ t.lock_table rid, r.tx_id ∈ L) : OnlyRequests t L := by
  refine fun T hT => ⟨?_, fun rid r hr he => hT (he ▸ hmem rid r hr)⟩
  rcases h.calls T with h1 | h1
  · rw [h1]
    exact (hL T hT).1
  · exact h1

theorem OnlyRequests.mem (hL : OnlyRequests s L) {rid : RID} {r : LockRequest}
    (hr : r ∈ s.lock_table rid) : r.tx_id ∈ L := by
  by_contra hno
  exact (hL _ hno).2 rid r hr rfl

theorem fewer_unlock_all (hi : LockInv s) (hc : s.call U = none) : Fewer (unlock_all s U) s :=
  ⟨fun rid r hr _ => ((unlock_all_mem hi hc rid r).mp hr).1,
    fun T => Or.inl (unlock_all_call s U T)⟩

/-- Transactions that do not wait release their locks, one after the other. -/
theorem release_those (hi : LockInv s) (L' : List TransactionID)
    (hidle : ∀ U ∈ L', s.call U = none) (hne : tx ∉ L') :
    ∃ es t, lockMachine.Run (OthersRelease tx) s es t ∧ LockInv t ∧ Fewer t s ∧
      (∀ T, t.call T = s.call T) ∧
      ∀ rid r, r ∈ t.lock_table rid ↔ r ∈ s.lock_table rid ∧ r.tx_id ∉ L' := by
  induction L' with
  | nil => exact ⟨[], s, .nil, hi, fewer_refl s, fun _ => rfl, by simp⟩
  | cons U L' ih =>
    obtain ⟨hU, hidle⟩ := List.forall_mem_cons.mp hidle
    obtain ⟨hneU, hne⟩ := not_or.mp (List.mem_cons.not.mp hne)
    obtain ⟨es, t, hrun, hit, hfew, hcalls, hmem⟩ := ih hidle hne
    have hUt : t.call U = none := (hcalls U).trans hU
    have hok : OthersRelease tx t (.unlock_all U) := Ne.symm hneU
    refine ⟨es ++ [.unlock_all U], unlock_all t U, hrun.snoc hok ?_,
      lockInv_unlock_all hit hUt, (fewer_unlock_all hit hUt).trans hfew,
      fun T => (unlock_all_call t U T).trans (hcalls T), fun rid r => ?_⟩
    · show next t (.unlock_all U) = _
      rw [next, if_pos (call_eq_none.mp hUt)]
    · rw [unlock_all_mem hit hUt, hmem, List.mem_cons, not_or, and_assoc]
      exact and_congr_right fun _ => and_comm

/-- A call that waits and can be granted wakes up and gets its lock. -/
theorem wake_grants {rid : RID} {mode : LockMode} {up : Bool} (hw : s.call U = some (rid, mode, up))
    (hg : can_grant (s.lock_table rid) ⟨U, mode, false⟩ = true) :
    next s (.wake U) = some (grant s U rid mode) := by
  obtain ⟨w, hwait, he⟩ := Option.map_eq_some_iff.mp hw
  cases he
  simp only [next, wake, hwait, Option.map_some]
  rw [if_pos hg]

/-- How many transactions of the list wait. -/
def waiting (s : LockSystem) (L : List TransactionID) : Nat :=
  L.countP fun T => (s.call T).isSome

theorem Fewer.waiting_le (h : Fewer t s) (L : List TransactionID) : waiting t L ≤ waiting s L := by
  refine List.countP_mono_left fun T _ hT => ?_
  rcases h.calls T with h1 | h1
  · rwa [← h1]
  · rw [h1] at hT
    cases hT

theorem Fewer.waiting_lt (h : Fewer t s) (hU : U ∈ L) (hs : s.call U ≠ none)
    (ht : t.call U = none) : waiting t L < waiting s L := by
  obtain ⟨l, r, rfl⟩ := List.append_of_mem hU
  have hl := h.waiting_le l
  have hr := h.waiting_le r
  have hsome : (s.call U).isSome = true := Option.isSome_iff_ne_none.mpr hs
  unfold waiting at *
  simp only [List.countP_append, List.countP_cons, ht, hsome, Option.isSome_none,
    Bool.false_eq_true, if_false, if_true]
  omega

/-- A call that is not deadlocked gets its lock when the others release theirs: as long as it
waits, some call can be granted. -/
theorem others_release (n : Nat) (hi : LockInv s) (hL : OnlyRequests s L) (hn : waiting s L ≤ n)
    {rid : RID} {mode : LockMode} {up : Bool} (hc : s.call tx = some (rid, mode, up))
    (hfree : ¬ Deadlocked (WaitsFor s) tx) :
    ∃ es t, lockMachine.Run (OthersRelease tx) s es t ∧ t.call tx = none ∧ Holds t tx rid mode := by
  induction n generalizing s with
  | zero =>
    have htx : tx ∈ L := by
      by_contra hno
      rw [(hL tx hno).1] at hc
      cases hc
    have hpos : 0 < waiting s L := List.countP_pos_iff.mpr ⟨tx, htx, by rw [hc]; rfl⟩
    omega
  | succ n ih =>
    -- first those release that do not wait
    obtain ⟨es, t, hrun, hit, hfew, hcalls, hmem⟩ := release_those hi
      (L.filter fun U => (s.call U).isNone) (fun U hU => by simpa using (List.mem_filter.mp hU).2)
      (fun h : tx ∈ _ => by simpa [hc] using (List.mem_filter.mp h).2)
    have hwaits : ∀ r' r, r ∈ t.lock_table r' → t.call r.tx_id ≠ none := by
      intro r' r hr hnone
      obtain ⟨hrs, hno⟩ := (hmem r' r).mp hr
      rw [hcalls] at hnone
      exact hno (List.mem_filter.mpr ⟨hL.mem hrs, by rw [hnone]; rfl⟩)
    have hLt : OnlyRequests t L := hfew.only hL fun r' r hr => hL.mem ((hmem r' r).mp hr).1
    by_cases hgrant : ∃ U r' m' up', t.call U = some (r', m', up') ∧
        can_grant (t.lock_table r') ⟨U, m', false⟩ = true
    swap
    · -- who still waits waits for someone who waits
      exfalso
      apply hfree
      have hknot : Knot (WaitsFor t) {T | t.call T ≠ none} := by
        intro T hT
        obtain ⟨⟨r', m', up'⟩, hT⟩ := Option.ne_none_iff_exists'.mp hT
        have hno : can_grant (t.lock_table r') ⟨T, m', false⟩ = false := by
          rw [← Bool.not_eq_true]
          exact fun h => hgrant ⟨T, r', m', up', hT, h⟩
        obtain ⟨r, hb⟩ := (can_grant_false_iff _ _ _).mp hno
        exact ⟨r.tx_id, hwaits r' r hb.1, r', m', up', hT, r, hb, rfl⟩
      refine deadlocked_of_knot ((List.finite_toSet L).subset ?_)
        (hknot.mono fun _ _ => hfew.waitsFor) (by simp [hcalls, hc])
      rintro T ⟨U, r', m', up', hT, _⟩
      by_contra hno
      rw [(hL T hno).1] at hT
      cases hT
    obtain ⟨U, r', m', up', hU, hg⟩ := hgrant
    have hwake := wake_grants hU hg
    have hok1 : OthersRelease tx t (.wake U) := trivial
    have hrun1 : lockMachine.Run (OthersRelease tx) s (es ++ [.wake U]) (grant t U r' m') :=
      hrun.snoc hok1 hwake
    have hig := lockInv_next hit hwake
    have hnone : (grant t U r' m').call U = none := by rw [grant_call, if_pos rfl]
    by_cases hUtx : U = tx
    · subst hUtx
      rw [hcalls, hc] at hU
      cases hU
      refine ⟨_, _, hrun1, hnone, ?_⟩
      unfold Holds
      rw [grant_queue, if_pos rfl, mem_mark_granted]
      refine Or.inr ⟨rfl, rfl, false, ?_⟩
      exact (hit.waiting rid U mode).mpr ⟨up, (hcalls U).trans hc⟩
    -- it was another one, which releases its locks in turn
    have hok : OthersRelease tx (grant t U r' m') (.unlock_all U) := hUtx
    have hrun2 : lockMachine.Run (OthersRelease tx) s (es ++ [.wake U] ++ [.unlock_all U])
        (unlock_all (grant t U r' m') U) := by
      refine hrun1.snoc hok ?_
      show next (grant t U r' m') (.unlock_all U) = _
      rw [next, if_pos (call_eq_none.mp hnone)]
    have hfew2 : Fewer (unlock_all (grant t U r' m') U) t := by
      refine ⟨fun r0 r hr hgr => ?_, fun T => ?_⟩
      · obtain ⟨hr, hne⟩ := (unlock_all_mem hig hnone r0 r).mp hr
        exact (next_mem_other hit hwake hne).mp hr
      · rw [unlock_all_call, grant_call]
        split
        · exact Or.inr rfl
        · exact Or.inl rfl
    have hc2 : (unlock_all (grant t U r' m') U).call tx = some (rid, mode, up) := by
      rw [unlock_all_call, grant_call, if_neg (Ne.symm hUtx), hcalls, hc]
    have hL2 : OnlyRequests (unlock_all (grant t U r' m') U) L := by
      refine hfew2.only hLt fun r0 r hr => ?_
      obtain ⟨hr, hne⟩ := (unlock_all_mem hig hnone r0 r).mp hr
      exact hLt.mem ((next_mem_other hit hwake hne).mp hr)
    have hlt : waiting (unlock_all (grant t U r' m') U) L < waiting t L := by
      refine hfew2.waiting_lt ?_ (by rw [hU]; simp) (by rw [unlock_all_call]; exact hnone)
      by_contra hno
      rw [(hLt U hno).1] at hU
      cases hU
    have hfree2 : ¬ Deadlocked (WaitsFor (unlock_all (grant t U r' m') U)) tx :=
      fun hd => hfree (hd.mono fun _ _ hab => hfew.waitsFor (hfew2.waitsFor hab))
    have hle := hfew.waiting_le L
    obtain ⟨es', u, hrun3, h1, h2⟩ := ih (lockInv_unlock_all hig hnone) hL2 (by omega) hc2 hfree2
    exact ⟨_, u, hrun2.trans hrun3, h1, h2⟩

end

/-! ## Locking in one order -/

/-- The transaction has a lock on the tuple. -/
def Has (s : LockSystem) (tx : TransactionID) (rid : RID) : Prop :=
  rid ∈ (s.txs tx).shared_locks ∨ rid ∈ (s.txs tx).exclusive_locks

/-- A lock that a transaction asks for, and does not have yet, is above all others that it has.
An upgrade is one of its highest lock. -/
def InOrder {ρ : Type} [Preorder ρ] (rank : RID → ρ) (s : LockSystem) : Event → Prop
  | .lock_shared tx rid => Has s tx rid ∨ ∀ r, Has s tx r → rank r < rank rid
  | .lock_exclusive tx rid =>
    rid ∈ (s.txs tx).exclusive_locks ∨ ∀ r, Has s tx r → r ≠ rid → rank r < rank rid
  | _ => True

/-- A call waits for a lock above all that its transaction has. -/
def WaitsAbove {ρ : Type} [Preorder ρ] (rank : RID → ρ) (s : LockSystem) : Prop :=
  ∀ T rid mode up, s.call T = some (rid, mode, up) → ∀ r, Has s T r → rank r < rank rid

section
variable {ρ : Type} [Preorder ρ] {rank : RID → ρ} {s t : LockSystem} {e : Event}
  {tx : TransactionID} {rid : RID}

/-- A request waits where it was made, and takes nothing meanwhile. -/
theorem request_lock_waits {mode m : LockMode} {up u : Bool} {r : RID}
    (h : (request_lock s tx rid mode up).1.call tx = some (r, m, u)) :
    r = rid ∧ (request_lock s tx rid mode up).1.txs tx = s.txs tx := by
  rcases request_lock_cases s tx rid mode up with ⟨_, he⟩ | he <;> rw [he] at h ⊢
  · rw [grant_call, if_pos rfl] at h
    cases h
  · simp only [enqueue, call_set_wait, if_pos, Option.map_some, Option.some.injEq,
      Prod.mk.injEq] at h
    exact ⟨h.1.symm, rfl⟩

theorem waitsAbove_next (W : WaitsAbove rank s) (hok : InOrder rank s e)
    (hn : next s e = some t) : WaitsAbove rank t := by
  intro T rid mode up hc r hr
  by_cases hT : T = e.tx
  swap
  · obtain ⟨h1, h2⟩ := next_other hn hT
    unfold Has at hr
    rw [h1] at hr
    rw [h2] at hc
    exact W T rid mode up hc r hr
  rcases e with ⟨tx, rid'⟩ | ⟨tx, rid'⟩ | tx | tx | tx | ⟨tx, state⟩ <;>
    simp only [next, Event.tx] at hn hT <;> subst hT
  · split at hn
    · rename_i hw
      cases hn
      rcases lock_shared_cases s T rid' with he | ⟨_, he⟩
      · rw [he, call_eq_none.mpr hw] at hc
        cases hc
      · -- the call asks for a lock, so it has none on the tuple
        rw [he] at hc
        obtain ⟨rfl, hsame⟩ := request_lock_waits hc
        unfold Has at hr
        rw [he, hsame] at hr
        refine hok.resolve_left (fun hhas => ?_) r hr
        unfold Has at hhas
        have hfound : (lock_shared s T rid).1 = s := by
          unfold lock_shared
          rw [if_pos hhas]
          split <;> rfl
        rw [← he, hfound, call_eq_none.mpr hw] at hc
        cases hc
    · cases hn
  · split at hn
    · rename_i hw
      cases hn
      rcases lock_exclusive_cases s T rid' with he | ⟨_, hx, ⟨_, he⟩ | ⟨hs, he⟩⟩
      · rw [he, call_eq_none.mpr hw] at hc
        cases hc
      · -- the shared lock on the tuple itself is given up
        rw [he] at hc
        obtain ⟨rfl, hsame⟩ := request_lock_waits hc
        unfold Has at hr
        rw [he, hsame] at hr
        simp only [release_shared, txs_set_tx, if_pos, List.mem_filter, decide_eq_true_eq] at hr
        rcases hr with ⟨hr, hne⟩ | hr
        · exact hok.resolve_left hx r (Or.inl hr) hne
        · exact hok.resolve_left hx r (Or.inr hr) fun heq => hx (heq ▸ hr)
      · rw [he] at hc
        obtain ⟨rfl, hsame⟩ := request_lock_waits hc
        unfold Has at hr
        rw [he, hsame] at hr
        refine hok.resolve_left hx r hr fun heq => ?_
        subst heq
        exact hr.elim hs hx
    · cases hn
  all_goals try
    obtain ⟨w, hw, ⟨_, rfl⟩ | rfl | rfl⟩ := wake_cases hn
    · rw [grant_call, if_pos rfl] at hc
      cases hc
    · simp [time_out, call_set_wait] at hc
    · rw [call_set_wait, if_pos rfl] at hc
      refine W T rid mode up ?_ r hr
      rw [← hc, LockSystem.call, hw]
      rfl
  · split at hn
    · rename_i hw
      cases hn
      rw [unlock_all_call, call_eq_none.mpr hw] at hc
      cases hc
    · cases hn
  · split at hn
    · cases hn
      unfold Has at hr
      simp only [txs_set_tx, if_pos] at hr
      exact W T rid mode up hc r hr
    · cases hn

theorem WaitsAbove.not_deadlocked (hi : LockInv s) (W : WaitsAbove rank s) (tx : TransactionID) :
    ¬ Deadlocked (WaitsFor s) tx := by
  refine not_deadlocked_of_rank
    (fun T => ((s.call T).map fun c => (rank c.1 : WithBot ρ)).getD ⊥) (fun T U V hT hU => ?_) tx
  obtain ⟨rid, mode, up, hc, r, ⟨hr, hg, _⟩, rfl⟩ := hT
  obtain ⟨rid', mode', up', hc', _⟩ := hU
  simp only [hc, hc', Option.map_some, Option.getD_some]
  refine WithBot.coe_lt_coe.mpr (W r.tx_id rid' mode' up' hc' rid ?_)
  obtain ⟨U, m, g⟩ := r
  simp only at hg
  subst hg
  cases m with
  | SHARED => exact Or.inl ((hi.shared rid U).mpr hr)
  | EXCLUSIVE => exact Or.inr ((hi.exclusive rid U).mpr hr)

end

/-! ## The laws -/

section
variable {s : LockSystem} {tx : TransactionID} {rid : RID} {mode : LockMode} {up : Bool}

theorem call_gets_lock (h : lockMachine.Reach always s)
    (hc : s.call tx = some (rid, mode, up)) (hfree : ¬ Deadlocked (WaitsFor s) tx) :
    ∃ es t, lockMachine.Run (OthersRelease tx) s es t ∧ t.call tx = none ∧ Holds t tx rid mode := by
  obtain ⟨L, hL⟩ := onlyRequests_reach h
  exact others_release _ (lockInv_reach h) hL le_rfl hc hfree

/-- A call that is deadlocked waits for the same lock for as long as no call of a deadlocked
transaction gives up, and a call that is not gets its lock once the others release theirs. -/
theorem a_call_gets_its_lock_unless_it_is_deadlocked (h : lockMachine.Reach always s)
    (hc : s.call tx = some (rid, mode, up)) :
    (Deadlocked (WaitsFor s) tx → ∀ es t, lockMachine.Run (SparesDeadlocked s) s es t →
      t.call tx = some (rid, mode, up)) ∧
    (¬ Deadlocked (WaitsFor s) tx → ∃ es t, lockMachine.Run (OthersRelease tx) s es t ∧
      t.call tx = none ∧ Holds t tx rid mode) := by
  refine ⟨fun hd es t hrun => ?_, call_gets_lock h hc⟩
  have I : LockInv t ∧ Knot (WaitsFor t) {T | Deadlocked (WaitsFor s) T} ∧
      t.call tx = some (rid, mode, up) := by
    refine hrun.invariant (I := fun t => LockInv t ∧
      Knot (WaitsFor t) {T | Deadlocked (WaitsFor s) T} ∧ t.call tx = some (rid, mode, up))
      ⟨lockInv_reach h, knot_deadlocked _, hc⟩ ?_
    rintro u e v _ ⟨hi, hk, hcall⟩ hspare hn
    obtain ⟨hk', hcalls⟩ := knot_next hi hk (fun T hT he => hspare T he hT) hn
    exact ⟨lockInv_next hi hn, hk', (hcalls tx hd).trans hcall⟩
  exact I.2.2

/-- Where all transactions lock in one order nobody is deadlocked, so every call gets its lock
once the others release theirs. -/
theorem locking_in_one_order_never_deadlocks {ρ : Type} [Preorder ρ] (rank : RID → ρ)
    (h : lockMachine.Reach (InOrder rank) s) (tx : TransactionID) :
    ¬ Deadlocked (WaitsFor s) tx ∧ ∀ rid mode up, s.call tx = some (rid, mode, up) →
      ∃ es t, lockMachine.Run (OthersRelease tx) s es t ∧ t.call tx = none ∧
        Holds t tx rid mode := by
  have W : WaitsAbove rank s := h.invariant (I := WaitsAbove rank)
    (fun _ h0 T rid mode up hc => by rw [h0] at hc; cases hc)
    fun _ _ _ W hok hn => waitsAbove_next W hok hn
  have hfree := W.not_deadlocked (lockInv_reach h) tx
  exact ⟨hfree, fun rid mode up hc => call_gets_lock (h.mono fun _ _ _ => trivial) hc hfree⟩

end

/-! ## Runs on fixed inputs -/

/-- Transactions 1 and 2 wait for each other, and 4 waits for 3, which waits for nobody. -/
theorem two_wait_for_each_other_and_one_is_free : ∃ s, lockMachine.Reach always s ∧
    Deadlocked (WaitsFor s) 1 ∧ (∀ es t, lockMachine.Run (SparesDeadlocked s) s es t →
      t.call 1 = some (⟨some 1, 1⟩, .EXCLUSIVE, false)) ∧
    ∃ es t, lockMachine.Run (OthersRelease 4) s es t ∧ t.call 4 = none ∧
      Holds t 4 ⟨some 1, 2⟩ .SHARED := by
  obtain ⟨s, hs⟩ : ∃ s, lockMachine.exec fresh
      [.lock_exclusive 1 ⟨some 1, 0⟩, .lock_exclusive 2 ⟨some 1, 1⟩,
        .lock_exclusive 3 ⟨some 1, 2⟩, .lock_exclusive 1 ⟨some 1, 1⟩,
        .lock_exclusive 2 ⟨some 1, 0⟩, .lock_shared 4 ⟨some 1, 2⟩] = some s := ⟨_, rfl⟩
  have hr : lockMachine.Reach always s := (Machine.Reach.start rfl).run (Machine.run_of_exec hs)
  have h1 : s.call 1 = some (⟨some 1, 1⟩, .EXCLUSIVE, false) := by cases hs; decide
  have h2 : s.call 2 = some (⟨some 1, 0⟩, .EXCLUSIVE, false) := by cases hs; decide
  have h3 : s.call 3 = none := by cases hs; decide
  have h4 : s.call 4 = some (⟨some 1, 2⟩, .SHARED, false) := by cases hs; decide
  have h12 : WaitsFor s 1 2 := by
    refine ⟨_, _, _, h1, ⟨2, .EXCLUSIVE, true⟩, ⟨?_, rfl, by decide, Or.inl rfl⟩, rfl⟩
    cases hs
    decide
  have h21 : WaitsFor s 2 1 := by
    refine ⟨_, _, _, h2, ⟨1, .EXCLUSIVE, true⟩, ⟨?_, rfl, by decide, Or.inl rfl⟩, rfl⟩
    cases hs
    decide
  have hdead : Deadlocked (WaitsFor s) 1 := ⟨1, .refl, .tail (.single h12) h21⟩
  have hfree : ¬ Deadlocked (WaitsFor s) 4 := by
    intro hd
    obtain ⟨u, hu, hwait⟩ := knot_deadlocked _ 4 hd
    obtain ⟨rid, mode, up, hc, r, ⟨hq, hg, _⟩, rfl⟩ := hwait
    rw [h4] at hc
    cases hc
    have hq' : r ∈ [(⟨3, .EXCLUSIVE, true⟩ : LockRequest), ⟨4, .SHARED, false⟩] := by
      cases hs
      exact hq
    simp only [List.mem_cons, List.not_mem_nil, or_false] at hq'
    rcases hq' with rfl | rfl
    · obtain ⟨v, rid, mode, up, hc, _⟩ := Deadlocked.waits hu
      rw [h3] at hc
      cases hc
    · cases hg
  exact ⟨s, hr, hdead, (a_call_gets_its_lock_unless_it_is_deadlocked hr h1).1 hdead,
    (a_call_gets_its_lock_unless_it_is_deadlocked hr h4).2 hfree⟩

/-- A lock is asked for above all that the transaction has. -/
def in_order_check (s : LockSystem) : Event → Bool
  | .lock_shared tx rid | .lock_exclusive tx rid =>
    ((s.txs tx).shared_locks ++ (s.txs tx).exclusive_locks).all fun r => r.slot_num < rid.slot_num
  | _ => true

theorem inOrder_of_check (s : LockSystem) (e : Event) (h : in_order_check s e = true) :
    InOrder (·.slot_num) s e := by
  cases e with
  | lock_shared tx rid =>
    simp only [in_order_check, List.all_eq_true, List.mem_append, decide_eq_true_eq] at h
    exact Or.inr fun r hr => h r hr
  | lock_exclusive tx rid =>
    simp only [in_order_check, List.all_eq_true, List.mem_append, decide_eq_true_eq] at h
    exact Or.inr fun r hr _ => h r hr
  | wake | timeout | unlock_all | set_state => trivial

/-- Transactions 1 and 2 lock the same two tuples in the same order, and 1 waits. -/
theorem the_second_tuple_is_locked_in_the_end : ∃ s,
    lockMachine.Reach (InOrder (·.slot_num)) s ∧
    s.call 1 = some (⟨some 1, 1⟩, .EXCLUSIVE, false) ∧ ∃ es t,
      lockMachine.Run (OthersRelease 1) s es t ∧ t.call 1 = none ∧
        Holds t 1 ⟨some 1, 1⟩ .EXCLUSIVE := by
  obtain ⟨s, hrun, hp⟩ := Machine.run_of_execIf_check (m := lockMachine) inOrder_of_check
    (s := fresh)
    (l := [.lock_exclusive 1 ⟨some 1, 0⟩, .lock_exclusive 2 ⟨some 1, 1⟩,
      .lock_exclusive 1 ⟨some 1, 1⟩])
    (p := fun s => decide (s.call 1 = some (⟨some 1, 1⟩, .EXCLUSIVE, false))) (by decide +kernel)
  have hr : lockMachine.Reach (InOrder (·.slot_num)) s := (Machine.Reach.start rfl).run hrun
  have hc := of_decide_eq_true hp
  exact ⟨s, hr, hc, (locking_in_one_order_never_deadlocks _ hr 1).2 _ _ _ hc⟩

end duck.lock_manager
