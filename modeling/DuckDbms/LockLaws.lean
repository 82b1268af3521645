-- The laws of the lock manager: an exclusive lock excludes every other lock,
-- the lock sets and the queues agree, and an upgrade is two-phase as long as
-- nobody gets an exclusive lock past a waiting upgrade.
import DuckDbms.LockManager
import Mathlib.Data.List.Nodup

open machine

namespace duck.lock_manager

/-! ## The invariant of the lock table -/

/-- What the waiting call of a transaction asks for, and whether it upgrades. -/
def LockSystem.call (s : LockSystem) (tx : TransactionID) : Option (RID × LockMode × Bool) :=
  (s.waits tx).map fun w => (w.rid, w.lock_mode, w.upgrade)

structure LockInv (s : LockSystem) : Prop where
  one : ∀ rid, ((s.lock_table rid).map (·.tx_id)).Nodup
  shared : ∀ rid tx, rid ∈ (s.txs tx).shared_locks ↔ ⟨tx, .SHARED, true⟩ ∈ s.lock_table rid
  exclusive : ∀ rid tx,
    rid ∈ (s.txs tx).exclusive_locks ↔ ⟨tx, .EXCLUSIVE, true⟩ ∈ s.lock_table rid
  waiting : ∀ rid tx mode,
    ⟨tx, mode, false⟩ ∈ s.lock_table rid ↔ ∃ up, s.call tx = some (rid, mode, up)
  alone : ∀ rid r r', r ∈ s.lock_table rid → r' ∈ s.lock_table rid → r.granted = true →
    r'.granted = true → r.lock_mode = .EXCLUSIVE → r'.tx_id = r.tx_id

theorem call_eq_none {s : LockSystem} {tx : TransactionID} :
    s.call tx = none ↔ s.waits tx = none := by
  simp [LockSystem.call]

theorem call_set_wait (s : LockSystem) (tx t : TransactionID) (w : Option Wait) :
    (s.set_wait tx w).call t =
      if t = tx then w.map fun w => (w.rid, w.lock_mode, w.upgrade) else s.call t := by
  unfold LockSystem.call LockSystem.set_wait
  by_cases h : t = tx
  · subst h; simp
  · simp [h]

@[simp] theorem call_set_queue (s : LockSystem) (rid : RID) (q : List LockRequest)
    (t : TransactionID) : (s.set_queue rid q).call t = s.call t := rfl

@[simp] theorem call_set_tx (s : LockSystem) (tx : TransactionID) (x : Transaction)
    (t : TransactionID) : (s.set_tx tx x).call t = s.call t := rfl

/-- A notification wakes calls, it does not change what they ask for. -/
@[simp] theorem call_notify_all (s : LockSystem) (rid : RID) (t : TransactionID) :
    (s.notify_all rid).call t = s.call t := by
  unfold LockSystem.call LockSystem.notify_all
  rw [Option.map_map]
  congr 1
  funext w
  simp only [Function.comp_apply]
  split <;> rfl

@[simp] theorem queue_set_queue (s : LockSystem) (rid r : RID) (q : List LockRequest) :
    (s.set_queue rid q).lock_table r = if r = rid then q else s.lock_table r := by
  unfold LockSystem.set_queue
  by_cases h : r = rid
  · subst h; simp
  · simp [h]

@[simp] theorem queue_set_tx (s : LockSystem) (tx : TransactionID) (x : Transaction) (r : RID) :
    (s.set_tx tx x).lock_table r = s.lock_table r := rfl

@[simp] theorem queue_set_wait (s : LockSystem) (tx : TransactionID) (w : Option Wait) (r : RID) :
    (s.set_wait tx w).lock_table r = s.lock_table r := rfl

@[simp] theorem queue_notify_all (s : LockSystem) (rid r : RID) :
    (s.notify_all rid).lock_table r = s.lock_table r := rfl

@[simp] theorem txs_set_queue (s : LockSystem) (rid : RID) (q : List LockRequest)
    (t : TransactionID) : (s.set_queue rid q).txs t = s.txs t := rfl

@[simp] theorem txs_set_tx (s : LockSystem) (tx t : TransactionID) (x : Transaction) :
    (s.set_tx tx x).txs t = if t = tx then x else s.txs t := by
  unfold LockSystem.set_tx
  by_cases h : t = tx
  · subst h; simp
  · simp [h]

@[simp] theorem txs_set_wait (s : LockSystem) (tx t : TransactionID) (w : Option Wait) :
    (s.set_wait tx w).txs t = s.txs t := rfl

@[simp] theorem txs_notify_all (s : LockSystem) (rid : RID) (t : TransactionID) :
    (s.notify_all rid).txs t = s.txs t := rfl

/-- The lock table, the lock sets and the calls are all that the invariant reads. -/
theorem LockInv.congr {s s' : LockSystem} (h : LockInv s)
    (hq : ∀ rid, s'.lock_table rid = s.lock_table rid)
    (hs : ∀ tx, (s'.txs tx).shared_locks = (s.txs tx).shared_locks)
    (hx : ∀ tx, (s'.txs tx).exclusive_locks = (s.txs tx).exclusive_locks)
    (hc : ∀ tx, s'.call tx = s.call tx) : LockInv s' := by
  refine ⟨?_, ?_, ?_, ?_, ?_⟩
  · intro rid; rw [hq]; exact h.one rid
  · intro rid tx; rw [hq, hs]; exact h.shared rid tx
  · intro rid tx; rw [hq, hx]; exact h.exclusive rid tx
  · intro rid tx mode; rw [hq, hc]; exact h.waiting rid tx mode
  · intro rid; rw [hq]; exact h.alone rid

theorem lockInv_fresh : LockInv fresh := by
  constructor <;> simp [fresh, LockSystem.call]

/-- A transaction has one request at most in a queue. -/
theorem LockInv.request_eq {s : LockSystem} (h : LockInv s) {rid : RID} {r r' : LockRequest}
    (hr : r ∈ s.lock_table rid) (hr' : r' ∈ s.lock_table rid) (he : r.tx_id = r'.tx_id) :
    r = r' :=
  List.inj_on_of_nodup_map (h.one rid) hr hr' he

/-- A transaction that holds no lock on a tuple and waits for none has no request in its queue. -/
theorem LockInv.absent {s : LockSystem} (h : LockInv s) {tx : TransactionID} {rid : RID}
    (hc : ∀ mode up, s.call tx ≠ some (rid, mode, up))
    (hs : rid ∉ (s.txs tx).shared_locks) (hx : rid ∉ (s.txs tx).exclusive_locks) :
    ∀ r ∈ s.lock_table rid, r.tx_id ≠ tx := by
  rintro ⟨t, mode, granted⟩ hr rfl
  rcases granted with _ | _
  · obtain ⟨up, hup⟩ := (h.waiting rid t mode).mp hr
    exact hc mode up hup
  · rcases mode with _ | _
    · exact hs ((h.shared rid t).mpr hr)
    · exact hx ((h.exclusive rid t).mpr hr)

theorem can_grant_iff (q : List LockRequest) (request : LockRequest) :
    can_grant q request = true ↔ ∀ r ∈ q, r.granted = true → r.tx_id ≠ request.tx_id →
      request.lock_mode = .SHARED ∧ r.lock_mode = .SHARED := by
  induction q with
  | nil => simp [can_grant]
  | cons it rest ih =>
    simp only [can_grant, List.forall_mem_cons, ← ih]
    rcases it with ⟨t, mode, granted⟩
    rcases granted with _ | _
    · simp
    · by_cases ht : t = request.tx_id
      · simp [ht]
      · rcases hm : request.lock_mode with _ | _ <;> rcases mode with _ | _ <;> simp [ht]

/-! ## What each section keeps -/

theorem lockInv_enqueue {s : LockSystem} (h : LockInv s) {tx : TransactionID} {rid : RID}
    (mode : LockMode) (up : Bool) (hc : s.call tx = none)
    (hnew : ∀ r ∈ s.lock_table rid, r.tx_id ≠ tx) : LockInv (enqueue s tx rid mode up) := by
  have hmem : ∀ r, ∀ q : LockRequest, q.granted = true →
      (q ∈ (enqueue s tx rid mode up).lock_table r ↔ q ∈ s.lock_table r) := by
    rintro r ⟨t, m, g⟩ hg
    simp only [enqueue, queue_set_wait, queue_set_queue]
    split
    · rename_i he
      simp_all
    · rfl
  refine ⟨?_, ?_, ?_, ?_, ?_⟩
  · intro r
    simp only [enqueue, queue_set_wait, queue_set_queue]
    split
    · rw [List.map_append, List.nodup_append]
      refine ⟨h.one rid, List.nodup_singleton _, ?_⟩
      intro a ha b hb hab
      obtain ⟨q, hq, rfl⟩ := List.mem_map.mp ha
      have hb' : b = tx := by simpa using hb
      exact hnew q hq (hab.trans hb')
    · exact h.one r
  · intro r t
    rw [hmem r _ rfl]
    exact h.shared r t
  · intro r t
    rw [hmem r _ rfl]
    exact h.exclusive r t
  · intro r t m
    simp only [enqueue, queue_set_wait, queue_set_queue, call_set_wait, call_set_queue]
    by_cases ht : t = tx
    · subst ht
      have hold : ∀ m, (⟨t, m, false⟩ : LockRequest) ∉ s.lock_table r := by
        intro m hm
        obtain ⟨u, hu⟩ := (h.waiting r t m).mp hm
        rw [hc] at hu
        cases hu
      by_cases hr : r = rid
      · subst hr
        simp [hold, eq_comm]
      · simp [hr, hold, Ne.symm hr]
    · rw [if_neg ht, ← h.waiting r t m]
      split
      · rename_i hr
        subst hr
        simp [ht]
      · rfl
  · intro r q q' hq hq' hg hg'
    rw [hmem r q hg] at hq
    rw [hmem r q' hg'] at hq'
    exact h.alone r q q' hq hq' hg hg'

theorem mem_mark_granted {tx : TransactionID} {q : List LockRequest} {r : LockRequest} :
    r ∈ mark_granted tx q ↔ (r ∈ q ∧ r.tx_id ≠ tx) ∨
      (r.tx_id = tx ∧ r.granted = true ∧ ∃ g, (⟨tx, r.lock_mode, g⟩ : LockRequest) ∈ q) := by
  unfold mark_granted
  rw [List.mem_map]
  constructor
  · rintro ⟨x, hx, rfl⟩
    split
    · rename_i he
      refine Or.inr ⟨he, rfl, x.granted, ?_⟩
      rw [← he]
      exact hx
    · rename_i he
      exact Or.inl ⟨hx, he⟩
  · rintro (⟨hr, hne⟩ | ⟨he, hg, g, hm⟩)
    · exact ⟨r, hr, by simp [hne]⟩
    · refine ⟨_, hm, ?_⟩
      rcases r with ⟨t, m, gr⟩
      simp_all

theorem grant_queue (s : LockSystem) (tx : TransactionID) (rid r : RID) (mode : LockMode) :
    (grant s tx rid mode).lock_table r =
      if r = rid then mark_granted tx (s.lock_table rid) else s.lock_table r := by
  rcases mode with _ | _ <;> simp [grant]

theorem grant_call (s : LockSystem) (tx t : TransactionID) (rid : RID) (mode : LockMode) :
    (grant s tx rid mode).call t = if t = tx then none else s.call t := by
  rcases mode with _ | _ <;> simp [grant, call_set_wait]

theorem grant_shared_locks (s : LockSystem) (tx t : TransactionID) (rid r : RID) (mode : LockMode) :
    r ∈ ((grant s tx rid mode).txs t).shared_locks ↔
      r ∈ (s.txs t).shared_locks ∨ (t = tx ∧ r = rid ∧ mode = .SHARED) := by
  rcases mode with _ | _ <;> by_cases ht : t = tx <;> simp [grant, ht, or_comm]

theorem grant_exclusive_locks (s : LockSystem) (tx t : TransactionID) (rid r : RID)
    (mode : LockMode) :
    r ∈ ((grant s tx rid mode).txs t).exclusive_locks ↔
      r ∈ (s.txs t).exclusive_locks ∨ (t = tx ∧ r = rid ∧ mode = .EXCLUSIVE) := by
  rcases mode with _ | _ <;> by_cases ht : t = tx <;> simp [grant, ht, or_comm]

/-- The request that a call waits with is the only one of its transaction in the queue. -/
theorem LockInv.waiting_request {s : LockSystem} (h : LockInv s) {tx : TransactionID} {rid : RID}
    {mode : LockMode} {up : Bool} (hc : s.call tx = some (rid, mode, up)) {r : LockRequest}
    (hr : r ∈ s.lock_table rid) (ht : r.tx_id = tx) : r = ⟨tx, mode, false⟩ :=
  h.request_eq hr ((h.waiting rid tx mode).mpr ⟨up, hc⟩) ht

theorem lockInv_grant {s : LockSystem} (h : LockInv s) {tx : TransactionID} {rid : RID}
    {mode : LockMode} {up : Bool} (hc : s.call tx = some (rid, mode, up))
    (hg : can_grant (s.lock_table rid) ⟨tx, mode, false⟩ = true) :
    LockInv (grant s tx rid mode) := by
  have hw := (h.waiting rid tx mode).mpr ⟨up, hc⟩
  have hmem : ∀ r, r ∈ (grant s tx rid mode).lock_table rid ↔
      (r ∈ s.lock_table rid ∧ r.tx_id ≠ tx) ∨ r = ⟨tx, mode, true⟩ := by
    intro r
    rw [grant_queue, if_pos rfl, mem_mark_granted]
    constructor
    · rintro (h1 | ⟨h1, h2, g, h3⟩)
      · exact Or.inl h1
      · have h4 := h.waiting_request hc h3 rfl
        rcases r with ⟨t, m, gr⟩
        simp_all
    · rintro (h1 | rfl)
      · exact Or.inl h1
      · exact Or.inr ⟨rfl, rfl, false, hw⟩
  have hother : ∀ r, r ≠ rid → (grant s tx rid mode).lock_table r = s.lock_table r := by
    intro r hr
    rw [grant_queue, if_neg hr]
  refine ⟨?_, ?_, ?_, ?_, ?_⟩
  · intro r
    rw [grant_queue]
    split
    · have hmap : (mark_granted tx (s.lock_table rid)).map (·.tx_id) =
          (s.lock_table rid).map (·.tx_id) := by
        unfold mark_granted
        rw [List.map_map]
        apply List.map_congr_left
        intro x _
        simp only [Function.comp_apply]
        split <;> rfl
      rw [hmap]
      exact h.one rid
    · exact h.one r
  · intro r t
    rw [grant_shared_locks, h.shared r t]
    by_cases hr : r = rid
    · subst hr
      rw [hmem]
      by_cases ht : t = tx
      · subst ht
        have : (⟨t, .SHARED, true⟩ : LockRequest) ∉ s.lock_table r := fun hm => by
          simpa using h.waiting_request hc hm rfl
        simp [this, eq_comm]
      · simp [ht]
    · rw [hother r hr]
      simp [hr]
  · intro r t
    rw [grant_exclusive_locks, h.exclusive r t]
    by_cases hr : r = rid
    · subst hr
      rw [hmem]
      by_cases ht : t = tx
      · subst ht
        have : (⟨t, .EXCLUSIVE, true⟩ : LockRequest) ∉ s.lock_table r := fun hm => by
          simpa using h.waiting_request hc hm rfl
        simp [this, eq_comm]
      · simp [ht]
    · rw [hother r hr]
      simp [hr]
  · intro r t m
    rw [grant_call]
    by_cases ht : t = tx
    · subst ht
      rw [if_pos rfl]
      by_cases hr : r = rid
      · subst hr
        rw [hmem]
        simp
      · rw [hother r hr, h.waiting r t m, hc]
        simp [Ne.symm hr]
    · rw [if_neg ht, ← h.waiting r t m]
      by_cases hr : r = rid
      · subst hr
        rw [hmem]
        simp [ht]
      · rw [hother r hr]
  · intro r q q' hq hq' hgq hgq' hx
    by_cases hr : r = rid
    · subst hr
      rw [hmem] at hq hq'
      rw [can_grant_iff] at hg
      -- another granted request next to the new one would have refused it
      rcases hq with ⟨hq, hqt⟩ | rfl <;> rcases hq' with ⟨hq', hqt'⟩ | rfl
      · exact h.alone r q q' hq hq' hgq hgq' hx
      · have := (hg q hq hgq hqt).2
        rw [hx] at this
        cases this
      · have := (hg q' hq' hgq' hqt').1
        simp only at hx this
        rw [hx] at this
        cases this
      · rfl
    · rw [hother r hr] at hq hq'
      exact h.alone r q q' hq hq' hgq hgq' hx

/-- Every request of one transaction leaves a queue, and the lock it held leaves its set. -/
theorem lockInv_release_shared {s : LockSystem} (h : LockInv s) {tx : TransactionID} {rid : RID}
    (hc : s.call tx = none) (hx : rid ∉ (s.txs tx).exclusive_locks) :
    LockInv (release_shared s tx rid) := by
  have hmem : ∀ r q, q ∈ (release_shared s tx rid).lock_table r ↔
      q ∈ s.lock_table r ∧ (r = rid → q.tx_id ≠ tx) := by
    intro r q
    simp only [release_shared, queue_set_tx, queue_set_queue]
    split
    · rename_i hr
      subst hr
      simp
    · rename_i hr
      simp [hr]
  refine ⟨?_, ?_, ?_, ?_, ?_⟩
  · intro r
    simp only [release_shared, queue_set_tx, queue_set_queue]
    split
    · exact (h.one rid).sublist (List.filter_sublist.map _)
    · exact h.one r
  · intro r t
    rw [hmem, ← h.shared r t]
    by_cases ht : t = tx
    · subst ht; simp [release_shared]
    · simp [release_shared, ht]
  · intro r t
    rw [hmem, ← h.exclusive r t]
    by_cases ht : t = tx
    · subst ht
      simp only [release_shared, txs_set_tx, ite_true, txs_set_queue]
      refine ⟨fun hm => ⟨hm, ?_⟩, fun hm => hm.1⟩
      rintro rfl
      exact absurd hm hx
    · simp [release_shared, ht]
  · intro r t m
    rw [hmem, h.waiting r t m]
    simp only [release_shared, call_set_tx, call_set_queue, ne_eq, and_iff_left_iff_imp]
    rintro ⟨up, hup⟩ - rfl
    rw [hc] at hup
    cases hup
  · intro r q q' hq hq'
    exact h.alone r q q' ((hmem r q).mp hq).1 ((hmem r q').mp hq').1

theorem lockInv_time_out {s : LockSystem} (h : LockInv s) {tx : TransactionID} {rid : RID}
    {mode : LockMode} {up : Bool} (hc : s.call tx = some (rid, mode, up)) :
    LockInv (time_out s tx rid) := by
  have hmem : ∀ r q, q ∈ (time_out s tx rid).lock_table r ↔
      q ∈ s.lock_table r ∧ (r = rid → ¬ (q.tx_id = tx ∧ q.granted = false)) := by
    intro r q
    simp only [time_out, queue_notify_all, queue_set_wait, queue_set_tx, queue_set_queue]
    split
    · rename_i hr
      subst hr
      rw [List.mem_filter]
      rcases q with ⟨t, m, g⟩
      rcases g with _ | _ <;> simp
    · rename_i hr
      simp [hr]
  refine ⟨?_, ?_, ?_, ?_, ?_⟩
  · intro r
    simp only [time_out, queue_notify_all, queue_set_wait, queue_set_tx, queue_set_queue]
    split
    · exact (h.one rid).sublist (List.filter_sublist.map _)
    · exact h.one r
  · intro r t
    rw [hmem, ← h.shared r t]
    by_cases ht : t = tx <;> simp [time_out, ht]
  · intro r t
    rw [hmem, ← h.exclusive r t]
    by_cases ht : t = tx <;> simp [time_out, ht]
  · intro r t m
    rw [hmem, h.waiting r t m]
    simp only [time_out, call_notify_all, call_set_wait, call_set_tx, call_set_queue]
    by_cases ht : t = tx
    · subst ht
      simp only [hc, Option.some.injEq, Prod.mk.injEq, and_true, not_true_eq_false,
        imp_false, ite_true, Option.map_none, reduceCtorEq, exists_false, iff_false, not_and,
        not_not, forall_exists_index, and_imp]
      intro u hr _ _
      exact hr.symm
    · simp [ht]
  · intro r q q' hq hq'
    exact h.alone r q q' ((hmem r q).mp hq).1 ((hmem r q').mp hq').1

/-- The loop of `unlock_all` over one lock set. -/
theorem foldl_remove_and_notify (tx : TransactionID) (rids : List RID) (s : LockSystem) :
    (∀ r, (rids.foldl (remove_and_notify tx) s).lock_table r =
      if r ∈ rids then (s.lock_table r).filter fun q => q.tx_id ≠ tx else s.lock_table r) ∧
    (∀ t, (rids.foldl (remove_and_notify tx) s).txs t = s.txs t) ∧
    ∀ t, (rids.foldl (remove_and_notify tx) s).call t = s.call t := by
  induction rids generalizing s with
  | nil => simp
  | cons rid rest ih =>
    obtain ⟨h1, h2, h3⟩ := ih (remove_and_notify tx s rid)
    refine ⟨fun r => ?_, fun t => ?_, fun t => ?_⟩
    · rw [List.foldl_cons, h1]
      by_cases hr : r = rid
      · subst hr
        simp [remove_and_notify]
      · simp [remove_and_notify, hr]
    · rw [List.foldl_cons, h2]; rfl
    · rw [List.foldl_cons, h3]; simp [remove_and_notify]

theorem unlock_all_queue (s : LockSystem) (tx : TransactionID) (r : RID) :
    (unlock_all s tx).lock_table r =
      if r ∈ (s.txs tx).exclusive_locks ∨ r ∈ (s.txs tx).shared_locks then
        (s.lock_table r).filter fun q => q.tx_id ≠ tx
      else s.lock_table r := by
  unfold unlock_all
  simp only [queue_set_tx]
  rw [(foldl_remove_and_notify _ _ _).1, (foldl_remove_and_notify _ _ _).1]
  by_cases h1 : r ∈ (s.txs tx).exclusive_locks <;> by_cases h2 : r ∈ (s.txs tx).shared_locks <;>
    simp [h1, h2]

theorem unlock_all_txs (s : LockSystem) (tx t : TransactionID) :
    (unlock_all s tx).txs t =
      if t = tx then { s.txs tx with shared_locks := [], exclusive_locks := [] } else s.txs t := by
  unfold unlock_all
  simp only [txs_set_tx, (foldl_remove_and_notify _ _ _).2.1]

theorem unlock_all_call (s : LockSystem) (tx t : TransactionID) :
    (unlock_all s tx).call t = s.call t := by
  unfold unlock_all
  simp only [call_set_tx, (foldl_remove_and_notify _ _ _).2.2]

theorem unlock_all_mem {s : LockSystem} (h : LockInv s) {tx : TransactionID}
    (hc : s.call tx = none) (r : RID) (q : LockRequest) :
    q ∈ (unlock_all s tx).lock_table r ↔ q ∈ s.lock_table r ∧ q.tx_id ≠ tx := by
  rw [unlock_all_queue]
  split
  · simp
  · rename_i hn
    refine ⟨fun hq => ⟨hq, ?_⟩, fun hq => hq.1⟩
    exact h.absent (by simp [hc]) (fun h2 => hn (Or.inr h2)) (fun h1 => hn (Or.inl h1)) q hq

theorem lockInv_unlock_all {s : LockSystem} (h : LockInv s) {tx : TransactionID}
    (hc : s.call tx = none) : LockInv (unlock_all s tx) := by
  have hmem := unlock_all_mem h hc
  refine ⟨?_, ?_, ?_, ?_, ?_⟩
  · intro r
    rw [unlock_all_queue]
    split
    · exact (h.one r).sublist (List.filter_sublist.map _)
    · exact h.one r
  · intro r t
    rw [hmem, ← h.shared r t, unlock_all_txs]
    by_cases ht : t = tx <;> simp [ht]
  · intro r t
    rw [hmem, ← h.exclusive r t, unlock_all_txs]
    by_cases ht : t = tx <;> simp [ht]
  · intro r t m
    rw [hmem, h.waiting r t m, unlock_all_call]
    simp only [ne_eq, and_iff_left_iff_imp]
    rintro ⟨up, hup⟩ rfl
    rw [hc] at hup
    cases hup
  · intro r q q' hq hq'
    exact h.alone r q q' ((hmem r q).mp hq).1 ((hmem r q').mp hq').1

/-! ## The two lock calls -/

theorem lockInv_request_lock {s : LockSystem} (h : LockInv s) {tx : TransactionID} {rid : RID}
    (mode : LockMode) (up : Bool) (hc : s.call tx = none)
    (hnew : ∀ r ∈ s.lock_table rid, r.tx_id ≠ tx) :
    LockInv (request_lock s tx rid mode up).1 := by
  have he := lockInv_enqueue h mode up hc hnew
  unfold request_lock
  simp only
  split
  · rename_i hg
    have hc' : (enqueue s tx rid mode up).call tx = some (rid, mode, up) := by
      simp [enqueue, call_set_wait]
    exact lockInv_grant he hc' hg
  · exact he

theorem lockInv_lock_shared {s : LockSystem} (h : LockInv s) {tx : TransactionID} {rid : RID}
    (hc : s.call tx = none) : LockInv (lock_shared s tx rid).1 := by
  unfold lock_shared
  split
  · exact h
  · split
    · exact h
    · rename_i hn
      refine lockInv_request_lock h _ _ hc (h.absent (by simp [hc]) ?_ ?_)
      · exact fun h1 => hn (Or.inl h1)
      · exact fun h1 => hn (Or.inr h1)

theorem release_shared_absent (s : LockSystem) (tx : TransactionID) (rid : RID) :
    ∀ r ∈ (release_shared s tx rid).lock_table rid, r.tx_id ≠ tx := by
  intro r hr
  simp only [release_shared, queue_set_tx, queue_set_queue, ite_true, ne_eq, decide_not,
    List.mem_filter, Bool.not_eq_eq_eq_not, Bool.not_true, decide_eq_false_iff_not] at hr
  exact hr.2

theorem lockInv_lock_exclusive {s : LockSystem} (h : LockInv s) {tx : TransactionID} {rid : RID}
    (hc : s.call tx = none) : LockInv (lock_exclusive s tx rid).1 := by
  unfold lock_exclusive
  split
  · exact h
  · split
    · exact h
    · rename_i hx
      split
      · exact lockInv_request_lock (lockInv_release_shared h hc hx) _ _ hc
          (release_shared_absent s tx rid)
      · rename_i hs
        exact lockInv_request_lock h _ _ hc (h.absent (by simp [hc]) hs hx)

theorem lockInv_wake {s t : LockSystem} (h : LockInv s) {tx : TransactionID} {expired : Bool}
    {res : Option Bool} (hw : wake s tx expired = some (t, res)) : LockInv t := by
  unfold wake at hw
  obtain ⟨w, hw', he⟩ := Option.map_eq_some_iff.mp hw
  have hc : s.call tx = some (w.rid, w.lock_mode, w.upgrade) := by simp [LockSystem.call, hw']
  split at he
  · rename_i hg
    cases he
    exact lockInv_grant h hc hg
  · split at he
    · cases he
      exact lockInv_time_out h hc
    · cases he
      refine h.congr (fun _ => rfl) (fun _ => rfl) (fun _ => rfl) fun t => ?_
      rw [call_set_wait]
      split
      · rename_i ht
        rw [ht, hc]
        rfl
      · rfl

theorem lockInv_next {s t : LockSystem} {e : Event} (h : LockInv s) (hn : next s e = some t) :
    LockInv t := by
  rcases e with ⟨tx, rid⟩ | ⟨tx, rid⟩ | tx | tx | tx | ⟨tx, state⟩ <;> simp only [next] at hn
  · split at hn
    · rename_i hc
      cases hn
      exact lockInv_lock_shared h (call_eq_none.mpr hc)
    · cases hn
  · split at hn
    · rename_i hc
      cases hn
      exact lockInv_lock_exclusive h (call_eq_none.mpr hc)
    · cases hn
  · obtain ⟨⟨t', res⟩, hw, rfl⟩ := Option.map_eq_some_iff.mp hn
    exact lockInv_wake h hw
  · obtain ⟨⟨t', res⟩, hw, rfl⟩ := Option.map_eq_some_iff.mp hn
    exact lockInv_wake h hw
  · split at hn
    · rename_i hc
      cases hn
      exact lockInv_unlock_all h (call_eq_none.mpr hc)
    · cases hn
  · split at hn
    · cases hn
      refine h.congr (fun _ => rfl) (fun t => ?_) (fun t => ?_) (fun _ => rfl) <;>
        (rw [txs_set_tx]; split <;> simp_all)
    · cases hn

theorem lockInv_reach {ok : LockSystem → Event → Prop} {s : LockSystem}
    (h : lockMachine.Reach ok s) : LockInv s :=
  h.invariant (fun _ h0 => h0 ▸ lockInv_fresh) fun _ _ _ hi _ hn => lockInv_next hi hn

/-! ## The laws of every reachable state -/

/-- The lock that a granted request stands for. -/
def Holds (s : LockSystem) (tx : TransactionID) (rid : RID) (mode : LockMode) : Prop :=
  ⟨tx, mode, true⟩ ∈ s.lock_table rid

theorem LockInv.excludes {s : LockSystem} (h : LockInv s) {rid : RID} {tx tx' : TransactionID}
    (hx : Holds s tx rid .EXCLUSIVE) (hne : tx' ≠ tx) (mode : LockMode) :
    ¬ Holds s tx' rid mode :=
  fun hm => hne (h.alone rid _ _ hx hm rfl rfl rfl)

/-- An exclusive lock excludes every other lock, the lock sets say what the queues say, and
`unlock_all` leaves no request behind. -/
theorem the_lock_sets_say_what_the_queues_say (s : LockSystem) (h : lockMachine.Reach always s) :
    (∀ rid tx, Holds s tx rid .EXCLUSIVE → ∀ tx', tx' ≠ tx → ∀ mode, ¬ Holds s tx' rid mode) ∧
    (∀ rid tx, (rid ∈ (s.txs tx).shared_locks ↔ Holds s tx rid .SHARED) ∧
      (rid ∈ (s.txs tx).exclusive_locks ↔ Holds s tx rid .EXCLUSIVE) ∧
      ¬ (rid ∈ (s.txs tx).shared_locks ∧ rid ∈ (s.txs tx).exclusive_locks)) ∧
    ∀ tx t, lockMachine.next s (.unlock_all tx) = some t →
      ∀ rid, ∀ r ∈ t.lock_table rid, r.tx_id ≠ tx := by
  have hi := lockInv_reach h
  refine ⟨fun rid tx hx tx' hne mode => hi.excludes hx hne mode, ?_, ?_⟩
  · intro rid tx
    refine ⟨hi.shared rid tx, hi.exclusive rid tx, ?_⟩
    rintro ⟨hs, hx⟩
    have := hi.request_eq ((hi.shared rid tx).mp hs) ((hi.exclusive rid tx).mp hx) rfl
    cases this
  · intro tx t hn rid r hr
    simp only [lockMachine, next] at hn
    split at hn
    · rename_i hc
      cases hn
      exact ((unlock_all_mem hi (call_eq_none.mpr hc) rid r).mp hr).2
    · cases hn

/-- A transaction that holds an exclusive lock while another one waits for the tuple. -/
theorem the_lock_sets_say_what_the_queues_say_while_one_waits :
    ∃ s, lockMachine.exec fresh [.lock_exclusive 1 ⟨some 1, 0⟩, .lock_shared 2 ⟨some 1, 0⟩] = some s ∧
      Holds s 1 ⟨some 1, 0⟩ .EXCLUSIVE ∧ ∀ tx', tx' ≠ 1 → ∀ mode, ¬ Holds s tx' ⟨some 1, 0⟩ mode := by
  obtain ⟨s, hs⟩ : ∃ s, lockMachine.exec fresh
      [.lock_exclusive 1 ⟨some 1, 0⟩, .lock_shared 2 ⟨some 1, 0⟩] = some s := ⟨_, rfl⟩
  have hx : Holds s 1 ⟨some 1, 0⟩ .EXCLUSIVE := by
    cases hs
    unfold Holds
    decide
  refine ⟨s, hs, hx, ?_⟩
  exact (the_lock_sets_say_what_the_queues_say s
    ((Machine.Reach.start rfl).run (Machine.run_of_exec hs))).1 _ _ hx

/-! ## What one event changes of a transaction -/

/-- The transaction that makes the call of an event. -/
def Event.tx : Event → TransactionID
  | .lock_shared tx _ | .lock_exclusive tx _ | .wake tx | .timeout tx | .unlock_all tx
  | .set_state tx _ => tx

theorem can_grant_append_own (q : List LockRequest) (tx : TransactionID) (mode mode' : LockMode)
    (g : Bool) : can_grant (q ++ [⟨tx, mode, g⟩]) ⟨tx, mode', false⟩ =
      can_grant q ⟨tx, mode', false⟩ := by
  induction q with
  | nil => simp [can_grant]
  | cons it rest ih => simp only [List.cons_append, can_grant, ih]

/-- A request enters the queue, and is granted when nobody holds a lock against it. -/
theorem request_lock_cases (s : LockSystem) (tx : TransactionID) (rid : RID) (mode : LockMode)
    (up : Bool) :
    (can_grant (s.lock_table rid) ⟨tx, mode, false⟩ = true ∧
      (request_lock s tx rid mode up).1 = grant (enqueue s tx rid mode up) tx rid mode) ∨
    (request_lock s tx rid mode up).1 = enqueue s tx rid mode up := by
  unfold request_lock
  simp only
  split
  · rename_i hg
    refine Or.inl ⟨?_, rfl⟩
    simpa [enqueue, can_grant_append_own] using hg
  · exact Or.inr rfl

/-- A lock call that is not refused and does not find its lock asks for it. -/
theorem lock_exclusive_cases (s : LockSystem) (tx : TransactionID) (rid : RID) :
    (lock_exclusive s tx rid).1 = s ∨
    ((s.txs tx).state = .GROWING ∧ rid ∉ (s.txs tx).exclusive_locks ∧
      ((rid ∈ (s.txs tx).shared_locks ∧ (lock_exclusive s tx rid).1 =
          (request_lock (release_shared s tx rid) tx rid .EXCLUSIVE true).1) ∨
        (rid ∉ (s.txs tx).shared_locks ∧ (lock_exclusive s tx rid).1 =
          (request_lock s tx rid .EXCLUSIVE false).1))) := by
  unfold lock_exclusive
  split
  · exact Or.inl rfl
  · rename_i hg
    split
    · exact Or.inl rfl
    · rename_i hx
      refine Or.inr ⟨by simpa using hg, hx, ?_⟩
      split
      · rename_i hs
        exact Or.inl ⟨hs, rfl⟩
      · rename_i hs
        exact Or.inr ⟨hs, rfl⟩

theorem lock_shared_cases (s : LockSystem) (tx : TransactionID) (rid : RID) :
    (lock_shared s tx rid).1 = s ∨
    ((s.txs tx).state = .GROWING ∧
      (lock_shared s tx rid).1 = (request_lock s tx rid .SHARED false).1) := by
  unfold lock_shared
  split
  · exact Or.inl rfl
  · rename_i hg
    split
    · exact Or.inl rfl
    · exact Or.inr ⟨by simpa using hg, rfl⟩

/-- A call that waits is granted, gives up, or sleeps on. -/
theorem wake_cases {s t : LockSystem} {tx : TransactionID} {expired : Bool}
    (h : (wake s tx expired).map (·.1) = some t) :
    ∃ w, s.waits tx = some w ∧
      ((can_grant (s.lock_table w.rid) ⟨tx, w.lock_mode, false⟩ = true ∧
          t = grant s tx w.rid w.lock_mode) ∨
        t = time_out s tx w.rid ∨ t = s.set_wait tx (some { w with asleep := true })) := by
  unfold wake at h
  rcases hw : s.waits tx with _ | w
  · simp [hw] at h
  · refine ⟨w, rfl, ?_⟩
    simp only [hw, Option.map_some, Option.some.injEq] at h
    subst h
    split
    · exact Or.inl ⟨‹_›, rfl⟩
    · split
      · exact Or.inr (Or.inl rfl)
      · exact Or.inr (Or.inr rfl)

theorem request_lock_other (s : LockSystem) {tx t : TransactionID} (rid : RID) (mode : LockMode)
    (up : Bool) (ht : t ≠ tx) :
    (request_lock s tx rid mode up).1.txs t = s.txs t ∧
      (request_lock s tx rid mode up).1.call t = s.call t := by
  rcases request_lock_cases s tx rid mode up with ⟨_, h⟩ | h <;> rw [h]
  · rcases mode with _ | _ <;> simp [grant, enqueue, call_set_wait, ht]
  · simp [enqueue, call_set_wait, ht]

/-- An event changes the locks and the call of its own transaction only. -/
theorem next_other {s t : LockSystem} {e : Event} (hn : next s e = some t) {T : TransactionID}
    (hT : T ≠ e.tx) : t.txs T = s.txs T ∧ t.call T = s.call T := by
  rcases e with ⟨tx, rid⟩ | ⟨tx, rid⟩ | tx | tx | tx | ⟨tx, state⟩ <;>
    simp only [next, Event.tx] at hn hT
  · split at hn
    · cases hn
      rcases lock_shared_cases s tx rid with h | ⟨_, h⟩ <;> rw [h]
      · exact ⟨rfl, rfl⟩
      · exact request_lock_other s rid _ _ hT
    · cases hn
  · split at hn
    · cases hn
      rcases lock_exclusive_cases s tx rid with h | ⟨_, _, ⟨_, h⟩ | ⟨_, h⟩⟩ <;> rw [h]
      · exact ⟨rfl, rfl⟩
      · obtain ⟨h1, h2⟩ := request_lock_other (release_shared s tx rid) rid .EXCLUSIVE true hT
        rw [h1, h2]
        simp [release_shared, hT]
      · exact request_lock_other s rid _ _ hT
    · cases hn
  all_goals try
    obtain ⟨w, hw, ⟨_, rfl⟩ | rfl | rfl⟩ := wake_cases hn
    · refine ⟨?_, by rw [grant_call, if_neg hT]⟩
      rcases w.lock_mode with _ | _ <;> simp [grant, hT]
    · simp [time_out, call_set_wait, hT]
    · simp [call_set_wait, hT]
  · split at hn
    · cases hn
      rw [unlock_all_txs, unlock_all_call, if_neg hT]
      exact ⟨rfl, rfl⟩
    · cases hn
  · split at hn
    · cases hn
      simp [hT]
    · cases hn

/-! ## Upgrades -/

/-- The exclusive lock that an event asks for: a call that is not refused, or a waiting
call that evaluates `can_grant` again. -/
def asks_exclusive (s : LockSystem) : Event → Option (TransactionID × RID)
  | .lock_exclusive tx rid =>
    if s.waits tx = none ∧ (s.txs tx).state = .GROWING ∧ rid ∉ (s.txs tx).exclusive_locks then
      some (tx, rid)
    else none
  | .wake tx | .timeout tx =>
    match s.waits tx with
    | some w => if w.lock_mode = .EXCLUSIVE then some (tx, w.rid) else none
    | none => none
  | _ => none

/-- Nobody gets an exclusive lock on a tuple while an upgrade of another transaction waits
for it. -/
def NoGrantPastUpgrade (s : LockSystem) (e : Event) : Prop :=
  ∀ U r, asks_exclusive s e = some (U, r) →
    can_grant (s.lock_table r) ⟨U, .EXCLUSIVE, false⟩ = true →
    ∀ T, T ≠ U → s.call T ≠ some (r, .EXCLUSIVE, true)

/-- At no state of a run from `s` does anyone but `T` hold `r` exclusively. -/
def NobodyElseHolds (ok : LockSystem → Event → Prop) (s : LockSystem) (es : List Event)
    (T : TransactionID) (r : RID) : Prop :=
  ∀ (as bs : List Event) (u : LockSystem), es = as ++ bs → lockMachine.Run ok s as u →
    ∀ U, U ≠ T → r ∉ (u.txs U).exclusive_locks

/-- Between the shared lock of a transaction and the exclusive lock that it later gets
without an `unlock_all`, nobody else holds the tuple exclusively. -/
def UpgradeIsTwoPhase (ok : LockSystem → Event → Prop) : Prop :=
  ∀ (s t : LockSystem) (es : List Event) (T : TransactionID) (r : RID),
    lockMachine.Reach ok s → lockMachine.Run ok s es t → .unlock_all T ∉ es →
    r ∈ (s.txs T).shared_locks → r ∈ (t.txs T).exclusive_locks → NobodyElseHolds ok s es T r

theorem LockInv.exclusive_of_shared {s : LockSystem} (h : LockInv s) {T U : TransactionID}
    {r : RID} (hs : r ∈ (s.txs T).shared_locks) (hne : U ≠ T) :
    r ∉ (s.txs U).exclusive_locks := by
  intro hx
  exact h.excludes ((h.exclusive r U).mp hx) hne.symm .SHARED ((h.shared r T).mp hs)

theorem LockInv.exclusive_alone {s : LockSystem} (h : LockInv s) {T U : TransactionID}
    {r : RID} (hs : r ∈ (s.txs T).exclusive_locks) (hne : U ≠ T) :
    r ∉ (s.txs U).exclusive_locks := by
  intro hx
  exact h.excludes ((h.exclusive r U).mp hx) hne.symm .EXCLUSIVE ((h.exclusive r T).mp hs)

/-- An exclusive lock that an event adds was asked for, and nobody held a lock against it. -/
theorem next_gains_exclusive {s t : LockSystem} {e : Event} (hn : next s e = some t)
    {U : TransactionID} {r : RID} (h0 : r ∉ (s.txs U).exclusive_locks)
    (h1 : r ∈ (t.txs U).exclusive_locks) :
    asks_exclusive s e = some (U, r) ∧
      can_grant (s.lock_table r) ⟨U, .EXCLUSIVE, false⟩ = true := by
  by_cases hU : U = e.tx
  swap
  · rw [(next_other hn hU).1] at h1
    exact absurd h1 h0
  rcases e with ⟨tx, rid⟩ | ⟨tx, rid⟩ | tx | tx | tx | ⟨tx, state⟩ <;>
    simp only [next, Event.tx] at hn hU <;> subst hU
  · split at hn
    · cases hn
      rcases lock_shared_cases s U rid with h | ⟨_, h⟩ <;> rw [h] at h1
      · exact absurd h1 h0
      · rcases request_lock_cases s U rid .SHARED false with ⟨_, h⟩ | h <;> rw [h] at h1
        · rw [grant_exclusive_locks] at h1
          simp [enqueue, h0] at h1
        · simp [enqueue, h0] at h1
    · cases hn
  · split at hn
    · rename_i hw
      cases hn
      rcases lock_exclusive_cases s U rid with h | ⟨hg, hx, h⟩
      · rw [h] at h1
        exact absurd h1 h0
      have hasks : asks_exclusive s (.lock_exclusive U rid) = some (U, rid) := by
        simp [asks_exclusive, hw, hg, hx]
      rcases h with ⟨_, h⟩ | ⟨_, h⟩ <;> rw [h] at h1
      · rcases request_lock_cases (release_shared s U rid) U rid .EXCLUSIVE true with
          ⟨hc, h⟩ | h <;> rw [h] at h1
        · rw [grant_exclusive_locks] at h1
          have hr : r = rid := by simpa [enqueue, release_shared, h0] using h1
          subst hr
          refine ⟨hasks, ?_⟩
          rw [can_grant_iff] at hc ⊢
          intro q hq hqg hqt
          exact hc q (by simpa [release_shared] using ⟨hq, hqt⟩) hqg hqt
        · simp [enqueue, release_shared, h0] at h1
      · rcases request_lock_cases s U rid .EXCLUSIVE false with ⟨hc, h⟩ | h <;> rw [h] at h1
        · rw [grant_exclusive_locks] at h1
          have hr : r = rid := by simpa [enqueue, h0] using h1
          subst hr
          exact ⟨hasks, hc⟩
        · simp [enqueue, h0] at h1
    · cases hn
  all_goals try
    obtain ⟨w, hw, ⟨hc, rfl⟩ | rfl | rfl⟩ := wake_cases hn
    · rw [grant_exclusive_locks] at h1
      have hr : r = w.rid ∧ w.lock_mode = .EXCLUSIVE := by simpa [h0] using h1
      rw [hr.2] at hc
      simp only [asks_exclusive, hw, hr.2, hr.1, ite_true]
      exact ⟨trivial, hc⟩
    · simp [time_out, h0] at h1
    · simp [h0] at h1
  · split at hn
    · cases hn
      simp [unlock_all_txs] at h1
    · cases hn
  · split at hn
    · cases hn
      simp [h0] at h1
    · cases hn

/-- Where a transaction is between its shared lock and its exclusive lock. Once an upgrade
timed out the transaction is aborted, and gets no further lock. -/
inductive Upgrading (s : LockSystem) (T : TransactionID) (r : RID) : Prop
  | shared : r ∈ (s.txs T).shared_locks → Upgrading s T r
  | waiting : s.call T = some (r, .EXCLUSIVE, true) →
      (∀ U, U ≠ T → r ∉ (s.txs U).exclusive_locks) → Upgrading s T r
  | exclusive : r ∈ (s.txs T).exclusive_locks → Upgrading s T r
  | gone : (s.txs T).state ≠ .GROWING → s.call T = none →
      r ∉ (s.txs T).exclusive_locks → Upgrading s T r

/-- A transaction that is no longer growing and waits for nothing gets no lock. -/
theorem gone_next {s t : LockSystem} {e : Event} (hn : next s e = some t) {T : TransactionID}
    {r : RID} (hst : (s.txs T).state ≠ .GROWING) (hc : s.call T = none)
    (hx : r ∉ (s.txs T).exclusive_locks) :
    (t.txs T).state ≠ .GROWING ∧ t.call T = none ∧ r ∉ (t.txs T).exclusive_locks := by
  by_cases hT : T = e.tx
  swap
  · obtain ⟨h1, h2⟩ := next_other hn hT
    rw [h1, h2]
    exact ⟨hst, hc, hx⟩
  have hw : s.waits T = none := call_eq_none.mp hc
  rcases e with ⟨tx, rid⟩ | ⟨tx, rid⟩ | tx | tx | tx | ⟨tx, state⟩ <;>
    simp only [next, Event.tx] at hn hT <;> subst hT
  · simp only [hw, ite_true, Option.some.injEq, lock_shared, ne_eq, hst, not_false_eq_true] at hn
    subst hn
    exact ⟨hst, hc, hx⟩
  · simp only [hw, ite_true, Option.some.injEq, lock_exclusive, ne_eq, hst,
      not_false_eq_true] at hn
    subst hn
    exact ⟨hst, hc, hx⟩
  · simp [wake, hw] at hn
  · simp [wake, hw] at hn
  · simp only [hw, ite_true, Option.some.injEq] at hn
    subst hn
    rw [unlock_all_txs, unlock_all_call, if_pos rfl]
    exact ⟨hst, hc, by simp⟩
  · split at hn
    · rename_i hs
      cases hn
      simp only [txs_set_tx, ite_true, call_set_tx]
      exact ⟨hs, hc, hx⟩
    · cases hn

/-- The events of the transaction itself, from the shared lock to the exclusive one. -/
theorem upgrading_own {s t : LockSystem} {e : Event} (hi : LockInv s)
    (hn : next s e = some t) {r : RID} (hu : e ≠ .unlock_all e.tx)
    (hs : r ∈ (s.txs e.tx).shared_locks) : Upgrading t e.tx r := by
  rcases e with ⟨tx, rid⟩ | ⟨tx, rid⟩ | tx | tx | tx | ⟨tx, state⟩ <;>
    simp only [next, Event.tx] at hn hs hu ⊢
  · split at hn
    · cases hn
      refine .shared ?_
      rcases lock_shared_cases s tx rid with h | ⟨_, h⟩ <;> rw [h]
      · exact hs
      · rcases request_lock_cases s tx rid .SHARED false with ⟨_, h⟩ | h <;> rw [h]
        · rw [grant_shared_locks]
          exact Or.inl hs
        · exact hs
    · cases hn
  · split at hn
    · rename_i hw
      cases hn
      by_cases hr : r = rid
      · subst hr
        rcases lock_exclusive_cases s tx r with h | ⟨_, _, ⟨_, h⟩ | ⟨h, _⟩⟩
        · rw [h]
          exact .shared hs
        · rw [h]
          -- the upgrade is granted at once, or waits with nobody in its way yet
          rcases request_lock_cases (release_shared s tx r) tx r .EXCLUSIVE true with
            ⟨_, h⟩ | h <;> rw [h]
          · refine .exclusive ?_
            rw [grant_exclusive_locks]
            exact Or.inr ⟨rfl, rfl, rfl⟩
          · refine .waiting (by simp [enqueue, call_set_wait]) ?_
            intro U hU
            have := hi.exclusive_of_shared hs hU
            simpa [enqueue, release_shared, hU] using this
        · exact absurd hs h
      · refine .shared ?_
        rcases lock_exclusive_cases s tx rid with h | ⟨_, _, ⟨_, h⟩ | ⟨_, h⟩⟩ <;> rw [h]
        · exact hs
        · rcases request_lock_cases (release_shared s tx rid) tx rid .EXCLUSIVE true with
            ⟨_, h⟩ | h <;> rw [h]
          · rw [grant_shared_locks]
            simp [enqueue, release_shared, hs, hr]
          · simp [enqueue, release_shared, hs, hr]
        · rcases request_lock_cases s tx rid .EXCLUSIVE false with ⟨_, h⟩ | h <;> rw [h]
          · rw [grant_shared_locks]
            exact Or.inl hs
          · exact hs
    · cases hn
  all_goals try
    obtain ⟨w, hw, ⟨_, rfl⟩ | rfl | rfl⟩ := wake_cases hn
    · exact .shared ((grant_shared_locks _ _ _ _ _ _).mpr (Or.inl hs))
    · exact .shared (by simpa [time_out] using hs)
    · exact .shared hs
  · exact absurd rfl hu
  · split at hn
    · cases hn
      exact .shared (by simpa using hs)
    · cases hn

/-- An exclusive lock is kept until `unlock_all`. -/
theorem exclusive_kept {s t : LockSystem} {e : Event} (hn : next s e = some t)
    {T : TransactionID} {r : RID} (hu : e ≠ .unlock_all T)
    (hx : r ∈ (s.txs T).exclusive_locks) : r ∈ (t.txs T).exclusive_locks := by
  by_cases hT : T = e.tx
  swap
  · rw [(next_other hn hT).1]
    exact hx
  rcases e with ⟨tx, rid⟩ | ⟨tx, rid⟩ | tx | tx | tx | ⟨tx, state⟩ <;>
    simp only [next, Event.tx] at hn hT <;> subst hT
  · split at hn
    · cases hn
      rcases lock_shared_cases s T rid with h | ⟨_, h⟩ <;> rw [h]
      · exact hx
      · rcases request_lock_cases s T rid .SHARED false with ⟨_, h⟩ | h <;> rw [h]
        · rw [grant_exclusive_locks]
          exact Or.inl hx
        · exact hx
    · cases hn
  · split at hn
    · cases hn
      rcases lock_exclusive_cases s T rid with h | ⟨_, _, ⟨_, h⟩ | ⟨_, h⟩⟩ <;> rw [h]
      · exact hx
      · rcases request_lock_cases (release_shared s T rid) T rid .EXCLUSIVE true with
          ⟨_, h⟩ | h <;> rw [h]
        · rw [grant_exclusive_locks]
          simp [enqueue, release_shared, hx]
        · simp [enqueue, release_shared, hx]
      · rcases request_lock_cases s T rid .EXCLUSIVE false with ⟨_, h⟩ | h <;> rw [h]
        · rw [grant_exclusive_locks]
          exact Or.inl hx
        · exact hx
    · cases hn
  all_goals try
    obtain ⟨w, hw, ⟨_, rfl⟩ | rfl | rfl⟩ := wake_cases hn
    · exact (grant_exclusive_locks _ _ _ _ _ _).mpr (Or.inl hx)
    · simpa [time_out] using hx
    · exact hx
  · exact absurd rfl hu
  · split at hn
    · cases hn
      simpa using hx
    · cases hn

theorem upgrading_next {s t : LockSystem} {e : Event} (hi : LockInv s)
    (hok : NoGrantPastUpgrade s e) (hn : next s e = some t) {T : TransactionID} {r : RID}
    (hu : e ≠ .unlock_all T) (h : Upgrading s T r) : Upgrading t T r := by
  rcases h with hs | ⟨hc, hno⟩ | hx | ⟨hst, hc, hx⟩
  · by_cases hT : T = e.tx
    · subst hT
      exact upgrading_own hi hn hu hs
    · exact .shared (by rw [(next_other hn hT).1]; exact hs)
  · by_cases hT : T = e.tx
    · -- the waiting call gets its lock, gives up, or sleeps on
      have hw : s.waits T ≠ none := fun h0 => by simp [LockSystem.call, h0] at hc
      rcases e with ⟨tx, rid⟩ | ⟨tx, rid⟩ | tx | tx | tx | ⟨tx, state⟩ <;>
        simp only [next, Event.tx] at hn hT <;> subst hT
      · simp [hw] at hn
      · simp [hw] at hn
      all_goals try
        obtain ⟨w, hw', hcase⟩ := wake_cases hn
        have hcall : s.call T = some (w.rid, w.lock_mode, w.upgrade) := by
          simp [LockSystem.call, hw']
        rw [hc] at hcall
        simp only [Option.some.injEq, Prod.mk.injEq] at hcall
        obtain ⟨hr, hm, hup⟩ := hcall
        rcases hcase with ⟨_, rfl⟩ | rfl | rfl
        · exact .exclusive ((grant_exclusive_locks _ _ _ _ _ _).mpr (Or.inr ⟨rfl, hr, hm.symm⟩))
        · refine .gone (by simp [time_out]) (by simp [time_out, call_set_wait]) ?_
          intro hx
          have hx' : r ∈ (s.txs T).exclusive_locks := by simpa [time_out] using hx
          have := hi.waiting_request hc ((hi.exclusive r T).mp hx') rfl
          cases this
        · refine .waiting ?_ hno
          rw [call_set_wait, if_pos rfl]
          simp [← hr, ← hm, ← hup]
      · exact absurd rfl hu
      · split at hn
        · cases hn
          refine .waiting hc ?_
          intro U hU
          simpa [hU] using hno U hU
        · cases hn
    · refine .waiting (by rw [(next_other hn hT).2]; exact hc) ?_
      intro U hU hx
      obtain ⟨hask, hgrant⟩ := next_gains_exclusive hn (hno U hU) hx
      exact hok U r hask hgrant T hU.symm hc
  · exact .exclusive (exclusive_kept hn hu hx)
  · obtain ⟨h1, h2, h3⟩ := gone_next hn hst hc hx
    exact .gone h1 h2 h3

/-- An upgrade is two-phase in every run in which nobody gets an exclusive lock past a
waiting upgrade. -/
theorem an_upgrade_is_two_phase_when_nobody_passes_it (s t : LockSystem) (es : List Event)
    (T : TransactionID) (r : RID) (hs : lockMachine.Reach NoGrantPastUpgrade s)
    (hrun : lockMachine.Run NoGrantPastUpgrade s es t) (hu : .unlock_all T ∉ es)
    (h0 : r ∈ (s.txs T).shared_locks) (h1 : r ∈ (t.txs T).exclusive_locks) :
    NobodyElseHolds NoGrantPastUpgrade s es T r := by
  intro as bs u hsplit hu' U hU hx
  have hstep : ∀ (s t : LockSystem) (es : List Event), .unlock_all T ∉ es →
      lockMachine.Reach NoGrantPastUpgrade s → lockMachine.Run NoGrantPastUpgrade s es t →
      Upgrading s T r → Upgrading t T r := by
    intro s t es hes hreach hr h
    refine (hr.invariant (I := fun s => LockInv s ∧ Upgrading s T r) ⟨lockInv_reach hreach, h⟩
      ?_).2
    intro s e t he ⟨hi, hup⟩ hok hn
    refine ⟨lockInv_next hi hn, upgrading_next hi hok hn ?_ hup⟩
    rintro rfl
    exact hes he
  subst hsplit
  have has : .unlock_all T ∉ as := fun h => hu (List.mem_append_left _ h)
  obtain ⟨u', hsu, hut⟩ := hrun.split rfl
  obtain rfl := hu'.det hsu
  have hi := lockInv_reach (hs.run hsu)
  rcases hstep _ _ _ has hs hsu (.shared h0) with hs' | ⟨_, hno⟩ | hx' | ⟨hst, hc, hnx⟩
  · exact hi.exclusive_of_shared hs' hU hx
  · exact hno U hU hx
  · exact hi.exclusive_alone hx' hU hx
  · -- the upgrade timed out before this state, so the exclusive lock never came
    have hgone := hut.invariant
      (I := fun s => (s.txs T).state ≠ .GROWING ∧ s.call T = none ∧
        r ∉ (s.txs T).exclusive_locks) ⟨hst, hc, hnx⟩
      fun s e t _ h _ hn => gone_next hn h.1 h.2.1 h.2.2
    exact hgone.2.2 h1

/-- A call of one of a few transactions, with no upgrade of another one of them that waits for the
tuple where it asks for an exclusive lock. -/
def passes_no_upgrade (who : List TransactionID) (s : LockSystem) (e : Event) : Bool :=
  who.contains e.tx && (asks_exclusive s e).all fun y =>
    who.all fun T => T == y.1 || s.call T != some (y.2, .EXCLUSIVE, true)

theorem noGrantPastUpgrade_of_check {who : List TransactionID} {s t : LockSystem} {e : Event}
    (hidle : ∀ T, T ∉ who → s.call T = none) (h : passes_no_upgrade who s e = true)
    (hn : lockMachine.next s e = some t) :
    NoGrantPastUpgrade s e ∧ ∀ T, T ∉ who → t.call T = none := by
  obtain ⟨hwho, h⟩ := Bool.and_eq_true_iff.mp h
  refine ⟨fun U r hasks _ T hT hup => ?_, fun T hT => ?_⟩
  · rw [hasks, Option.all_some, List.all_eq_true] at h
    by_cases hmem : T ∈ who
    · have := h T hmem
      simp [hT, hup] at this
    · rw [hidle T hmem] at hup
      cases hup
  · rw [(next_other hn fun he => hT (by simpa [he] using hwho)).2]
    exact hidle T hT

/-- Transactions 1 and 2 share a tuple. The upgrade of 1 waits until 2 lets go of it. -/
theorem an_upgrade_is_two_phase_beside_a_reader : ∃ s t : LockSystem,
    lockMachine.Run NoGrantPastUpgrade s
      [.lock_exclusive 1 ⟨some 1, 0⟩, .unlock_all 2, .wake 1] t ∧
    ⟨some 1, 0⟩ ∈ (s.txs 1).shared_locks ∧ ⟨some 1, 0⟩ ∈ (s.txs 2).shared_locks ∧
    ⟨some 1, 0⟩ ∈ (t.txs 1).exclusive_locks ∧
    NobodyElseHolds NoGrantPastUpgrade s
      [.lock_exclusive 1 ⟨some 1, 0⟩, .unlock_all 2, .wake 1] 1 ⟨some 1, 0⟩ := by
  obtain ⟨s, t, hs, ht, hp⟩ : ∃ s t,
      lockMachine.execIf (passes_no_upgrade [1, 2]) fresh
        [.lock_shared 1 ⟨some 1, 0⟩, .lock_shared 2 ⟨some 1, 0⟩] = some s ∧
      lockMachine.execIf (passes_no_upgrade [1, 2]) s
        [.lock_exclusive 1 ⟨some 1, 0⟩, .unlock_all 2, .wake 1] = some t ∧
      (decide (⟨some 1, 0⟩ ∈ (s.txs 1).shared_locks) &&
        decide (⟨some 1, 0⟩ ∈ (s.txs 2).shared_locks) &&
        decide (⟨some 1, 0⟩ ∈ (t.txs 1).exclusive_locks)) = true :=
    ⟨_, _, rfl, rfl, by decide⟩
  simp only [Bool.and_eq_true, decide_eq_true_eq] at hp
  obtain ⟨⟨h1, h2⟩, h3⟩ := hp
  obtain ⟨hstart, hidle⟩ := Machine.run_of_execIf_keeps
    (fun _ _ _ hidle h hn => noGrantPastUpgrade_of_check hidle h hn) (fun _ _ => rfl) hs
  obtain ⟨hrun, _⟩ := Machine.run_of_execIf_keeps
    (fun _ _ _ hidle h hn => noGrantPastUpgrade_of_check hidle h hn) hidle ht
  exact ⟨s, t, hrun, h1, h2, h3, an_upgrade_is_two_phase_when_nobody_passes_it s t _ 1 _
    (Machine.Reach.run (.start rfl) hstart) hrun (by decide) h1 h3⟩

/-- Transactions 1 and 2 share a tuple. Both upgrade: 1 gives up its shared lock and waits,
2 gives up its own and gets the exclusive lock at once. -/
theorem two_upgrades_pass_each_other : ¬ UpgradeIsTwoPhase always := by
  intro h
  let both : List Event := [.lock_exclusive 1 ⟨some 1, 0⟩, .lock_exclusive 2 ⟨some 1, 0⟩]
  let rest : List Event := [.unlock_all 2, .wake 1]
  obtain ⟨s, hs, hp⟩ := lockMachine.run_of_exec_check (s := fresh)
    (l := [.lock_shared 1 ⟨some 1, 0⟩, .lock_shared 2 ⟨some 1, 0⟩])
    (p := fun s => decide (⟨some 1, 0⟩ ∈ (s.txs 1).shared_locks) &&
      ((lockMachine.exec s both).map fun u => decide (⟨some 1, 0⟩ ∈ (u.txs 2).exclusive_locks)) == some true &&
      ((lockMachine.exec s (both ++ rest)).map fun t =>
        decide (⟨some 1, 0⟩ ∈ (t.txs 1).exclusive_locks)) == some true)
    (by decide +kernel)
  simp only [Bool.and_eq_true, beq_iff_eq, decide_eq_true_eq] at hp
  obtain ⟨u, hu, hpu⟩ := Machine.run_of_exec_check hp.1.2
  obtain ⟨t, ht, hpt⟩ := Machine.run_of_exec_check hp.2
  exact h s t (both ++ rest) 1 ⟨some 1, 0⟩ ((Machine.Reach.start rfl).run hs) ht (by decide) hp.1.1
    (by simpa using hpt) both rest u rfl hu 2 (by decide) (by simpa using hpu)

end duck.lock_manager
