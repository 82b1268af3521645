-- No wake-up is lost: a request leaves a queue with a notification, but for
-- the shared lock that an upgrade gives up, and that one frees nobody.
import DuckDbms.LockLaws

open machine

namespace duck.lock_manager

/-! ## Who blocks a sleeper -/

/-- Another transaction holds a lock that the call cannot have beside its own. -/
def BlockedBy (q : List LockRequest) (tx : TransactionID) (mode : LockMode) (r : LockRequest) :
    Prop :=
  r ∈ q ∧ r.granted = true ∧ r.tx_id ≠ tx ∧ (mode = .EXCLUSIVE ∨ r.lock_mode = .EXCLUSIVE)

theorem can_grant_false_iff (q : List LockRequest) (tx : TransactionID) (mode : LockMode) :
    can_grant q ⟨tx, mode, false⟩ = false ↔ ∃ r, BlockedBy q tx mode r := by
  rw [← Bool.not_eq_true, can_grant_iff]
  unfold BlockedBy
  constructor
  · intro h
    by_contra hno
    apply h
    intro r hr hg hne
    rcases hm : mode with _ | _ <;> rcases hl : r.lock_mode with _ | _
    · exact ⟨rfl, rfl⟩
    all_goals
      refine absurd ⟨r, hr, hg, hne, ?_⟩ hno
      simp [hm, hl]
  · rintro ⟨r, hr, hg, hne, hc⟩ h
    obtain ⟨h1, h2⟩ := h r hr hg hne
    simp only at h1
    rcases hc with hc | hc
    · rw [h1] at hc
      cases hc
    · rw [h2] at hc
      cases hc

/-- Every call that sleeps is blocked. -/
def SleepersBlocked (s : LockSystem) : Prop :=
  ∀ tx w, s.waits tx = some w → w.asleep = true →
    ∃ r, BlockedBy (s.lock_table w.rid) tx w.lock_mode r

/-! ## What each section does to the sleepers -/

theorem waits_notify_all {s : LockSystem} {rid : RID} {tx : TransactionID} {w : Wait}
    (h : (s.notify_all rid).waits tx = some w) (ha : w.asleep = true) :
    s.waits tx = some w ∧ w.rid ≠ rid := by
  unfold LockSystem.notify_all at h
  obtain ⟨v, hv, rfl⟩ := Option.map_eq_some_iff.mp h
  split at ha
  · cases ha
  · rename_i hne
    rw [if_neg hne]
    exact ⟨hv, hne⟩

theorem blockedBy_append {q q' : List LockRequest} {tx : TransactionID} {mode : LockMode}
    {r : LockRequest} (h : BlockedBy q tx mode r) : BlockedBy (q ++ q') tx mode r :=
  ⟨List.mem_append_left q' h.1, h.2⟩

/-- A grant takes no lock from a queue. -/
theorem blockedBy_mark_granted {q : List LockRequest} {tx U : TransactionID} {mode : LockMode}
    {r : LockRequest} (h : BlockedBy q U mode r) : BlockedBy (mark_granted tx q) U mode r := by
  obtain ⟨hr, hg, hne, hc⟩ := h
  refine ⟨mem_mark_granted.mpr ?_, hg, hne, hc⟩
  by_cases ht : r.tx_id = tx
  · refine Or.inr ⟨ht, hg, r.granted, ?_⟩
    rw [← ht]
    exact hr
  · exact Or.inl ⟨hr, ht⟩

/-- The queue of another call after a request. -/
theorem blockedBy_request_lock {s : LockSystem} {tx U : TransactionID} {rid rid' : RID}
    {mode mode' : LockMode} (up : Bool) {r : LockRequest}
    (h : BlockedBy (s.lock_table rid') U mode' r) :
    BlockedBy ((request_lock s tx rid mode up).1.lock_table rid') U mode' r := by
  have henq : BlockedBy ((enqueue s tx rid mode up).lock_table rid') U mode' r := by
    simp only [enqueue, queue_set_wait, queue_set_queue]
    split
    · rename_i he
      rw [← he]
      exact blockedBy_append h
    · exact h
  rcases request_lock_cases s tx rid mode up with ⟨_, he⟩ | he <;> rw [he]
  · rw [grant_queue]
    split
    · rename_i he
      subst he
      exact blockedBy_mark_granted henq
    · exact henq
  · exact henq

theorem waits_request_lock {s : LockSystem} {tx : TransactionID} {rid : RID} {mode : LockMode}
    {up : Bool} {U : TransactionID} (hU : U ≠ tx) :
    (request_lock s tx rid mode up).1.waits U = s.waits U := by
  rcases request_lock_cases s tx rid mode up with ⟨_, he⟩ | he <;> rw [he]
  · rcases mode with _ | _ <;>
      simp [grant, enqueue, LockSystem.set_wait, LockSystem.set_tx, LockSystem.set_queue, hU]
  · simp [enqueue, LockSystem.set_wait, LockSystem.set_queue, hU]

/-- A call that a request leaves asleep has found `can_grant` false. -/
theorem request_lock_sleeps {s : LockSystem} {tx : TransactionID} {rid : RID} {mode : LockMode}
    {up : Bool} {w : Wait} (h : (request_lock s tx rid mode up).1.waits tx = some w) :
    ∃ r, BlockedBy ((request_lock s tx rid mode up).1.lock_table w.rid) tx w.lock_mode r := by
  unfold request_lock at h ⊢
  simp only at h ⊢
  split at h
  · rcases mode with _ | _ <;> simp [grant, LockSystem.set_wait] at h
  · rename_i hno
    rw [if_neg hno]
    obtain rfl : (⟨rid, mode, up, true⟩ : Wait) = w := by
      simpa [enqueue, LockSystem.set_wait] using h
    rw [← can_grant_false_iff]
    exact Bool.not_eq_true _ ▸ hno

theorem sleepersBlocked_request_lock {s : LockSystem} (h : SleepersBlocked s)
    (tx : TransactionID) (rid : RID) (mode : LockMode) (up : Bool) :
    SleepersBlocked (request_lock s tx rid mode up).1 := by
  intro U w hw ha
  by_cases hU : U = tx
  · subst hU
    exact request_lock_sleeps hw
  · rw [waits_request_lock hU] at hw
    obtain ⟨r, hr⟩ := h U w hw ha
    exact ⟨r, blockedBy_request_lock up hr⟩

theorem sleepersBlocked_grant {s : LockSystem} (h : SleepersBlocked s) (tx : TransactionID)
    (rid : RID) (mode : LockMode) : SleepersBlocked (grant s tx rid mode) := by
  intro U w hw ha
  have hw' : s.waits U = some w := by
    by_cases hU : U = tx
    · subst hU
      rcases mode with _ | _ <;> simp [grant, LockSystem.set_wait] at hw
    · rcases mode with _ | _ <;>
        simpa [grant, LockSystem.set_wait, LockSystem.set_tx, LockSystem.set_queue, hU] using hw
  obtain ⟨r, hr⟩ := h U w hw' ha
  rw [grant_queue]
  split
  · rename_i he
    rw [← he]
    exact ⟨r, blockedBy_mark_granted hr⟩
  · exact ⟨r, hr⟩

/-- An upgrade gives up a shared lock and notifies nobody. The calls that this lock blocked ask
for exclusive locks, and the request of the upgrade or the lock that it waits for blocks them. -/
theorem sleepersBlocked_upgrade {s : LockSystem} (hi : LockInv s) (h : SleepersBlocked s)
    {tx : TransactionID} {rid : RID} (hs : rid ∈ (s.txs tx).shared_locks) :
    SleepersBlocked (request_lock (release_shared s tx rid) tx rid .EXCLUSIVE true).1 := by
  intro U w hw ha
  by_cases hU : U = tx
  · subst hU
    exact request_lock_sleeps hw
  rw [waits_request_lock hU] at hw
  have hwait : s.waits U = some w := hw
  obtain ⟨r, hr⟩ := h U w hwait ha
  by_cases hfree : w.rid = rid ∧ r.tx_id = tx
  swap
  · -- the lock that blocks the sleeper stays
    refine ⟨r, blockedBy_request_lock true ?_⟩
    simp only [release_shared, queue_set_tx, queue_set_queue]
    split
    · rename_i he
      rw [← he]
      refine ⟨List.mem_filter.mpr ⟨hr.1, ?_⟩, hr.2⟩
      simpa using fun ht => hfree ⟨he, ht⟩
    · exact hr
  obtain ⟨rfl, ht⟩ := hfree
  obtain rfl : r = ⟨tx, .SHARED, true⟩ := hi.request_eq hr.1 ((hi.shared _ _).mp hs) ht
  have hmode : w.lock_mode = .EXCLUSIVE := by
    rcases hr.2.2.2 with hm | hm
    · exact hm
    · cases hm
  by_cases hgot : can_grant ((release_shared s tx w.rid).lock_table w.rid)
      ⟨tx, .EXCLUSIVE, false⟩ = true
  · -- the upgrade has the lock
    refine ⟨⟨tx, .EXCLUSIVE, true⟩, ?_, rfl, Ne.symm hU, Or.inl hmode⟩
    have hgot' : can_grant ((enqueue (release_shared s tx w.rid) tx w.rid .EXCLUSIVE true).lock_table
        w.rid) ⟨tx, .EXCLUSIVE, false⟩ = true := by
      simp only [enqueue, queue_set_wait, queue_set_queue, if_true, can_grant_append_own]
      exact hgot
    unfold request_lock
    simp only [hgot', if_true]
    rw [grant_queue, if_pos rfl]
    refine mem_mark_granted.mpr (Or.inr ⟨rfl, rfl, false, ?_⟩)
    simp [enqueue]
  · -- the lock that the upgrade waits for is not the sleeper's, which has none
    obtain ⟨r', hr'⟩ := (can_grant_false_iff _ _ _).mp (Bool.not_eq_true _ ▸ hgot)
    refine ⟨r', blockedBy_request_lock true ⟨hr'.1, hr'.2.1, ?_, Or.inl hmode⟩⟩
    intro hU'
    have hmem : r' ∈ s.lock_table w.rid := by
      have := hr'.1
      simp only [release_shared, queue_set_tx, queue_set_queue, if_true] at this
      exact (List.mem_filter.mp this).1
    have hcall : s.call U = some (w.rid, w.lock_mode, w.upgrade) := by
      simp [LockSystem.call, hwait]
    have := hi.waiting_request hcall hmem hU'
    rw [this] at hr'
    cases hr'.2.1

/-- A transaction that is taken out of a queue leaves the other queues as they are. -/
theorem sleepersBlocked_remove_and_notify {s : LockSystem} (h : SleepersBlocked s)
    (tx : TransactionID) (rid : RID) : SleepersBlocked (remove_and_notify tx s rid) := by
  intro U w hw ha
  obtain ⟨hw', hne⟩ := waits_notify_all hw ha
  simp only [remove_and_notify, queue_notify_all, queue_set_queue, if_neg hne]
  exact h U w hw' ha

theorem sleepersBlocked_time_out {s : LockSystem} (h : SleepersBlocked s) (tx : TransactionID)
    (rid : RID) : SleepersBlocked (time_out s tx rid) := by
  intro U w hw ha
  obtain ⟨hw', hne⟩ := waits_notify_all hw ha
  simp only [time_out, queue_notify_all, queue_set_wait, queue_set_tx, queue_set_queue, if_neg hne]
  apply h U w _ ha
  by_cases hU : U = tx
  · subst hU
    simp [LockSystem.set_wait] at hw'
  · simpa [LockSystem.set_wait, LockSystem.set_tx, LockSystem.set_queue, hU] using hw'

theorem sleepersBlocked_unlock_all {s : LockSystem} (h : SleepersBlocked s) (tx : TransactionID) :
    SleepersBlocked (unlock_all s tx) := by
  have hfold : ∀ (rids : List RID) (s : LockSystem), SleepersBlocked s →
      SleepersBlocked (rids.foldl (remove_and_notify tx) s) := by
    intro rids
    induction rids with
    | nil => exact fun s h => h
    | cons rid rest ih =>
      intro s h
      apply ih
      exact sleepersBlocked_remove_and_notify h tx rid
  exact hfold _ _ (hfold _ _ h)

theorem sleepersBlocked_wake {s t : LockSystem} (h : SleepersBlocked s) {tx : TransactionID}
    {expired : Bool} (hn : (wake s tx expired).map (·.1) = some t) : SleepersBlocked t := by
  unfold wake at hn
  rcases hw : s.waits tx with _ | w
  · simp [hw] at hn
  simp only [hw, Option.map_some, Option.some.injEq] at hn
  subst hn
  split
  · exact sleepersBlocked_grant h tx w.rid w.lock_mode
  rename_i hno
  split
  · exact sleepersBlocked_time_out h tx w.rid
  · intro U v hv ha
    by_cases hU : U = tx
    · subst hU
      obtain rfl : { w with asleep := true } = v := by
        simpa [LockSystem.set_wait] using hv
      rw [← can_grant_false_iff]
      exact Bool.not_eq_true _ ▸ hno
    · apply h U v _ ha
      simpa [LockSystem.set_wait, hU] using hv

theorem sleepersBlocked_next {s t : LockSystem} {e : Event} (hi : LockInv s)
    (h : SleepersBlocked s) (hn : next s e = some t) : SleepersBlocked t := by
  rcases e with ⟨tx, rid⟩ | ⟨tx, rid⟩ | tx | tx | tx | ⟨tx, state⟩ <;> simp only [next] at hn
  · split at hn
    · cases hn
      rcases lock_shared_cases s tx rid with he | ⟨_, he⟩ <;> rw [he]
      · exact h
      · exact sleepersBlocked_request_lock h tx rid .SHARED false
    · cases hn
  · split at hn
    · cases hn
      rcases lock_exclusive_cases s tx rid with he | ⟨_, _, ⟨hs, he⟩ | ⟨_, he⟩⟩ <;> rw [he]
      · exact h
      · exact sleepersBlocked_upgrade hi h hs
      · exact sleepersBlocked_request_lock h tx rid .EXCLUSIVE false
    · cases hn
  · exact sleepersBlocked_wake h hn
  · exact sleepersBlocked_wake h hn
  · split at hn
    · cases hn
      exact sleepersBlocked_unlock_all h tx
    · cases hn
  · split at hn
    · cases hn
      exact h
    · cases hn

/-! ## The law -/

/-- A request that sleeps cannot be granted, and one that sleeps until its time is over leaves
while another transaction holds a lock against it. -/
theorem a_request_sleeps_only_while_its_lock_is_taken (s : LockSystem)
    (h : lockMachine.Reach always s) (tx : TransactionID) (w : Wait) (hw : s.waits tx = some w)
    (ha : w.asleep = true) :
    can_grant (s.lock_table w.rid) ⟨tx, w.lock_mode, false⟩ = false ∧
      ∃ tx' mode, tx' ≠ tx ∧ Holds s tx' w.rid mode ∧
        (w.lock_mode = .EXCLUSIVE ∨ mode = .EXCLUSIVE) := by
  have hb : SleepersBlocked s ∧ LockInv s := by
    apply h.invariant
    · rintro _ rfl
      refine ⟨?_, lockInv_fresh⟩
      intro tx w hw
      simp [fresh] at hw
    · intro s e t I _ hn
      exact ⟨sleepersBlocked_next I.2 I.1 hn, lockInv_next I.2 hn⟩
  obtain ⟨⟨tx', mode, granted⟩, hr⟩ := hb.1 tx w hw ha
  refine ⟨(can_grant_false_iff _ _ _).mpr ⟨_, hr⟩, tx', mode, hr.2.2.1, ?_, hr.2.2.2⟩
  obtain rfl : granted = true := hr.2.1
  exact hr.1

/-- Two transactions share a tuple and a third one waits for it. One of the two upgrades, and
the third sleeps on. -/
theorem a_request_sleeps_while_another_one_upgrades : ∃ s w,
    lockMachine.exec fresh [.lock_shared 1 ⟨some 1, 0⟩, .lock_shared 2 ⟨some 1, 0⟩,
      .lock_exclusive 3 ⟨some 1, 0⟩, .lock_exclusive 1 ⟨some 1, 0⟩] = some s ∧
    s.waits 3 = some w ∧ w.asleep = true ∧
    can_grant (s.lock_table w.rid) ⟨3, w.lock_mode, false⟩ = false := by
  obtain ⟨s, hs⟩ : ∃ s, lockMachine.exec fresh [.lock_shared 1 ⟨some 1, 0⟩,
      .lock_shared 2 ⟨some 1, 0⟩, .lock_exclusive 3 ⟨some 1, 0⟩,
      .lock_exclusive 1 ⟨some 1, 0⟩] = some s := ⟨_, rfl⟩
  have hw : s.waits 3 = some ⟨⟨some 1, 0⟩, .EXCLUSIVE, false, true⟩ := by
    cases hs
    decide
  refine ⟨s, _, hs, hw, rfl, ?_⟩
  exact (a_request_sleeps_only_while_its_lock_is_taken s
    ((Machine.Reach.start rfl).run (Machine.run_of_exec hs)) 3 _ hw rfl).1

end duck.lock_manager
