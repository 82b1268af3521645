-- The scan of a table by a transaction. It locks the RID under its cursor, and
-- then the scan of the heap returns the first live slot from there on.
import DuckDbms.HeapScan
import DuckDbms.HeapEvictions
import DuckDbms.LockLaws

open machine duck.slotted_page duck.disk_manager duck.buffer_pool duck.table_heap chain

namespace duck.table

open lock_manager (LockSystem Holds LockInv)

/-! ## The machine -/

/-- Where `Table::Scan::next` stands. -/
inductive ScanPhase
  /-- between two calls -/
  | idle
  /-- in `lock_shared`, asleep -/
  | waiting
  /-- before `heap_scan_.next()` -/
  | locked
  /-- a call returned `nullopt`; callers do not call again -/
  | ended
  deriving DecidableEq

/-- The scan of transaction `tx`, the locks of all transactions, and the pool. `outside` are
the pins of everybody but the scan. -/
structure ScanSystem where
  locks : LockSystem
  pool : BufferPoolManager
  outside : Nat → Nat
  scan : Scan
  phase : ScanPhase

inductive ScanEvent
  /-- a step of the lock manager that is no part of the scan -/
  | locks (e : lock_manager.Event)
  /-- anybody else changes pages, or brings some in -/
  | others (pool : BufferPoolManager) (outside : Nat → Nat)
  /-- `Table::Scan::next`, up to the first sleep of `lock_shared` -/
  | call
  /-- `lock_shared` wakes up, or its time is over -/
  | wake (expired : Bool)
  /-- `heap_scan_.next()` -/
  | read

/-- What comes after `lock_shared`. -/
def ScanPhase.after : Option Bool → ScanPhase
  | some true => .locked
  | some false => .ended
  | none => .waiting

/-- `heap_scan_.next()`. The loop visits each page of the chain once. -/
def ScanSystem.heap_next (s : ScanSystem) :
    Option (Except String (Option (RID × List UInt8)) × BufferPoolManager × Scan) :=
  Scan.next (s.pool.disk_manager.capacity + 1) s.pool s.scan

def ScanSystem.next (tx : TransactionID) (s : ScanSystem) : ScanEvent → Option ScanSystem
  | .locks e =>
    if e.tx = tx ∧ (s.phase = .waiting ∨ s.phase = .locked) then none
    else (lock_manager.next s.locks e).map fun locks => { s with locks }
  | .others pool outside => some { s with pool, outside }
  | .call =>
    if s.phase = .idle ∧ s.locks.waits tx = none then
      let r := lock_manager.lock_shared s.locks tx s.scan.next_rid
      some { s with locks := r.1, phase := .after r.2 }
    else none
  | .wake expired =>
    if s.phase = .waiting then
      (lock_manager.wake s.locks tx expired).map fun r =>
        { s with locks := r.1, phase := .after r.2 }
    else none
  | .read =>
    if s.phase = .locked then
      s.heap_next.map fun r =>
        { s with
          pool := r.2.1
          scan := r.2.2
          phase := match r.1 with
            | .ok (some _) => .idle
            | _ => .ended }
    else none

/-- The scan stands on a page of the heaps that it has pinned. -/
def Standing (heads : Nat → Prop) (s : ScanSystem) : Prop :=
  ∃ pending n f, ScanOn heads s.outside pending s.pool s.scan n f

/-- A scan that was opened on a heap, whatever its pages hold. -/
def scanMachine (heads : Nat → Prop) (tx : TransactionID) : Machine ScanSystem ScanEvent where
  start s := s.locks = lock_manager.fresh ∧ s.phase = .idle ∧
    ∃ b h pending, heads h ∧ HeapState True s.outside pending heads b ∧
      (∀ m, pending m → 0 < s.outside m) ∧ Scan.open_ b (some h) = (.ok s.scan, s.pool)
  next := ScanSystem.next tx

/-- Whatever the others do, the heaps stay well formed, and the page that the scan has pinned
stays in its frame and in its heap. -/
def OthersKeepHeaps (heads : Nat → Prop) (s : ScanSystem) : ScanEvent → Prop
  | .others pool outside => Standing heads s → Standing heads { s with pool, outside }
  | _ => True

/-- A step before the read of one call of `Table::Scan::next`. -/
def InCall (heads : Nat → Prop) (s : ScanSystem) (e : ScanEvent) : Prop :=
  OthersKeepHeaps heads s e ∧ e ≠ .read

/-- The transaction holds a lock on the RID. -/
def Locked (l : LockSystem) (tx : TransactionID) (rid : RID) : Prop :=
  rid ∈ (l.txs tx).shared_locks ∨ rid ∈ (l.txs tx).exclusive_locks

/-! ## The lock of the cursor -/

theorem locked_grant (s : LockSystem) (tx : TransactionID) (rid : RID) :
    Locked (lock_manager.grant s tx rid .SHARED) tx rid := by
  left
  simp [lock_manager.grant_shared_locks]

/-- The locks that a call ends with: those from before, and the one that it got. -/
def LocksGained (l l' : LockSystem) (tx : TransactionID) (rid : RID) : Option Bool → Prop
  | some true => ∀ r, Locked l' tx r ↔ Locked l tx r ∨ r = rid
  | some false => True
  | none => ∀ r, Locked l' tx r ↔ Locked l tx r

theorem grant_gains (s : LockSystem) (tx : TransactionID) (rid : RID) :
    LocksGained s (lock_manager.grant s tx rid .SHARED) tx rid (some true) := by
  intro r
  unfold Locked
  rw [lock_manager.grant_shared_locks, lock_manager.grant_exclusive_locks]
  simp only [true_and, reduceCtorEq, and_false, or_false, and_true]
  exact or_right_comm

theorem lock_shared_gains (s : LockSystem) (tx : TransactionID) (rid : RID) :
    LocksGained s (lock_manager.lock_shared s tx rid).1 tx rid
      (lock_manager.lock_shared s tx rid).2 := by
  unfold lock_manager.lock_shared
  split
  · trivial
  split
  · rename_i h
    intro r
    refine ⟨Or.inl, ?_⟩
    rintro (hr | rfl)
    · exact hr
    · exact h
  unfold lock_manager.request_lock
  simp only
  split
  · -- the request is granted at once, and it has changed no lock set before
    exact grant_gains (lock_manager.enqueue s tx rid .SHARED false) tx rid
  · exact fun r => Iff.rfl

theorem wake_gains {s t : LockSystem} {tx : TransactionID} {rid : RID} {expired : Bool}
    {r : Option Bool} (hc : s.call tx = some (rid, .SHARED, false))
    (h : lock_manager.wake s tx expired = some (t, r)) : LocksGained s t tx rid r := by
  unfold lock_manager.wake at h
  unfold LockSystem.call at hc
  obtain ⟨w, hw, he⟩ := Option.map_eq_some_iff.mp h
  rw [hw] at hc
  simp only [Option.map_some, Option.some.injEq, Prod.mk.injEq] at hc
  obtain ⟨rfl, hmode, _⟩ := hc
  split at he
  · cases he
    rw [hmode]
    exact grant_gains _ _ _
  · split at he
    · cases he
      trivial
    · cases he
      exact fun r => Iff.rfl

/-- `lock_shared` ends with the lock, or without it, or it sleeps. -/
theorem lock_shared_result (s : LockSystem) (tx : TransactionID) (rid : RID) :
    ((lock_manager.lock_shared s tx rid).2 = some true →
      Locked (lock_manager.lock_shared s tx rid).1 tx rid) ∧
    ((lock_manager.lock_shared s tx rid).2 = none →
      (lock_manager.lock_shared s tx rid).1.call tx = some (rid, .SHARED, false)) := by
  unfold lock_manager.lock_shared
  split
  · simp
  · split
    · rename_i h
      exact ⟨fun _ => h, by simp⟩
    · unfold lock_manager.request_lock
      simp only
      split
      · exact ⟨fun _ => locked_grant _ _ _, by simp⟩
      · refine ⟨by simp, fun _ => ?_⟩
        simp [lock_manager.enqueue, lock_manager.call_set_wait]

theorem wake_result {s t : LockSystem} {tx : TransactionID} {rid : RID} {expired : Bool}
    {r : Option Bool} (hc : s.call tx = some (rid, .SHARED, false))
    (h : lock_manager.wake s tx expired = some (t, r)) :
    (r = some true → Locked t tx rid) ∧ (r = none → t.call tx = some (rid, .SHARED, false)) := by
  unfold lock_manager.wake at h
  unfold LockSystem.call at hc
  obtain ⟨w, hw, he⟩ := Option.map_eq_some_iff.mp h
  rw [hw] at hc
  simp only [Option.map_some, Option.some.injEq, Prod.mk.injEq] at hc
  obtain ⟨rfl, hmode, hup⟩ := hc
  split at he
  · cases he
    rw [hmode]
    exact ⟨fun _ => locked_grant _ _ _, by simp⟩
  · split at he
    · cases he
      simp
    · cases he
      refine ⟨by simp, fun _ => ?_⟩
      rw [lock_manager.call_set_wait, if_pos rfl]
      simp [hmode, hup]

theorem after_eq_locked {o : Option Bool} (h : ScanPhase.after o = .locked) : o = some true := by
  rcases o with _ | _ | _ <;> first | rfl | cases h

theorem after_eq_waiting {o : Option Bool} (h : ScanPhase.after o = .waiting) : o = none := by
  rcases o with _ | _ | _ <;> first | rfl | cases h

/-! ## What every step keeps -/

structure ScanInv (heads : Nat → Prop) (tx : TransactionID) (s : ScanSystem) : Prop where
  locks : LockInv s.locks
  standing : s.phase ≠ .ended → Standing heads s ∨ s.scan.current_page = none
  locked : s.phase = .locked → Locked s.locks tx s.scan.current_rid
  waiting : s.phase = .waiting →
    s.locks.call tx = some (s.scan.current_rid, .SHARED, false)

section
variable {heads : Nat → Prop} {tx : TransactionID} {s t : ScanSystem}

theorem scanInv_start (h : (scanMachine heads tx).start s) : ScanInv heads tx s := by
  obtain ⟨hl, hp, b, h, pending, hh, H, hheld, ho⟩ := h
  refine ⟨by rw [hl]; exact lock_manager.lockInv_fresh, fun _ => ?_, by rw [hp]; simp,
    by rw [hp]; simp⟩
  rcases H.opens hh hheld with ⟨f, b', ho', hc, S⟩ | ⟨ho', _⟩ <;> rw [ho'] at ho <;>
    simp only [Prod.mk.injEq, Except.ok.injEq] at ho
  · obtain ⟨hscan, rfl⟩ := ho
    rw [hscan] at S
    exact Or.inl ⟨pending, h, f, S⟩
  · right
    rw [← ho.1]

/-- What `heap_scan_.next()` returns. -/
theorem Standing.read (h : Standing heads s) :
    ∃ n, s.scan.current_rid.page_id = some n ∧
      ∃ r b' scan', s.heap_next = some (.ok r, b', scan') ∧
        ∀ rid t, r = some (rid, t) →
          FirstLive s.pool n s.scan.current_rid.slot_num rid ∧
            ∀ locks phase, Standing heads ⟨locks, b', s.outside, scan', phase⟩ := by
  obtain ⟨pending, n, f, S⟩ := h
  have hlen : pathLength (succ s.pool) (some n) ≤ s.pool.disk_manager.capacity + 1 := by
    obtain ⟨h, hh, hp⟩ := S.on
    obtain ⟨l, hl⟩ := hp.path
    rw [hl.pathLength_eq]
    exact Nat.le_succ_of_le (S.heap.length_le S.on hl)
  obtain ⟨r, b', scan', hr, hrest⟩ := S.next hlen
  refine ⟨n, S.rid, r, b', scan', hr, fun rid t he => ?_⟩
  obtain ⟨hf, m, g, S'⟩ := hrest rid t he
  exact ⟨hf, fun _ _ => ⟨pending, m, g, S'⟩⟩

theorem scanInv_next {e : ScanEvent} (I : ScanInv heads tx s) (hok : OthersKeepHeaps heads s e)
    (h : s.next tx e = some t) : ScanInv heads tx t := by
  cases e with
  | locks e =>
    unfold ScanSystem.next at h
    simp only at h
    split at h
    · cases h
    rename_i hown
    obtain ⟨l, hl, rfl⟩ := Option.map_eq_some_iff.mp h
    have hother : (s.phase = .waiting ∨ s.phase = .locked) →
        l.txs tx = s.locks.txs tx ∧ l.call tx = s.locks.call tx := by
      intro hphase
      refine lock_manager.next_other hl fun he => hown ⟨he.symm, hphase⟩
    refine ⟨lock_manager.lockInv_next I.locks hl, I.standing, fun hp => ?_, fun hp => ?_⟩
    · unfold Locked
      simp only
      rw [(hother (Or.inr hp)).1]
      exact I.locked hp
    · simp only
      rw [(hother (Or.inl hp)).2]
      exact I.waiting hp
  | others pool outside =>
    cases h
    refine ⟨I.locks, fun hp => ?_, I.locked, I.waiting⟩
    exact (I.standing hp).imp (fun hs => hok hs) id
  | call =>
    unfold ScanSystem.next at h
    simp only at h
    split at h
    swap
    · cases h
    rename_i hcall
    cases h
    obtain ⟨r1, r2⟩ := lock_shared_result s.locks tx s.scan.next_rid
    refine ⟨lock_manager.lockInv_lock_shared I.locks (lock_manager.call_eq_none.mpr hcall.2),
      fun _ => I.standing (by rw [hcall.1]; simp), fun hp => r1 (after_eq_locked hp),
      fun hp => r2 (after_eq_waiting hp)⟩
  | wake expired =>
    unfold ScanSystem.next at h
    simp only at h
    split at h
    swap
    · cases h
    rename_i hphase
    obtain ⟨⟨l, r⟩, hw, rfl⟩ := Option.map_eq_some_iff.mp h
    obtain ⟨r1, r2⟩ := wake_result (I.waiting hphase) hw
    refine ⟨lock_manager.lockInv_wake I.locks hw, fun _ => I.standing (by rw [hphase]; simp),
      fun hp => r1 (after_eq_locked hp), fun hp => r2 (after_eq_waiting hp)⟩
  | read =>
    unfold ScanSystem.next at h
    simp only at h
    split at h
    swap
    · cases h
    rename_i hphase
    obtain ⟨⟨r, b', scan'⟩, hr, rfl⟩ := Option.map_eq_some_iff.mp h
    refine ⟨I.locks, fun hp => ?_, fun hp => ?_, fun hp => ?_⟩
    · rcases I.standing (by rw [hphase]; simp) with hs | hs
      · obtain ⟨n, _, r', b1, scan1, hr', hrest⟩ := hs.read
        rw [hr] at hr'
        cases hr'
        rcases r' with _ | ⟨rid, t⟩
        · exact absurd rfl hp
        · exact Or.inl ((hrest rid t rfl).2 _ _)
      · unfold ScanSystem.heap_next Scan.next at hr
        simp only [hs] at hr
        cases hr
        exact absurd rfl hp
    · exfalso
      simp only at hp
      split at hp <;> cases hp
    · exfalso
      simp only at hp
      split at hp <;> cases hp

theorem scanInv_reach (h : (scanMachine heads tx).Reach (OthersKeepHeaps heads) s) :
    ScanInv heads tx s :=
  h.invariant (fun _ => scanInv_start) fun _ _ _ I hok hn => scanInv_next I hok hn

/-! ## The locks of one call -/

/-- Inside a call the scan has the locks from before it, and in the end that of its cursor too. -/
structure CallInv (tx : TransactionID) (s0 s : ScanSystem) : Prop where
  busy : s.phase ≠ .idle
  scan : s.scan = s0.scan
  waiting : s.phase = .waiting → ∀ r, Locked s.locks tx r ↔ Locked s0.locks tx r
  locked : s.phase = .locked →
    ∀ r, Locked s.locks tx r ↔ Locked s0.locks tx r ∨ r = s0.scan.current_rid

/-- What a step of `lock_shared` returns decides where the call stands after it. -/
theorem callInv_of_gains {s0 s : ScanSystem} {l : LockSystem} {r : Option Bool}
    (hscan : s.scan = s0.scan) (hg : LocksGained s0.locks l tx s0.scan.current_rid r) :
    CallInv tx s0 { s with locks := l, phase := .after r } := by
  rcases r with _ | _ | _
  · exact ⟨by simp [ScanPhase.after], hscan, fun _ => hg, fun h => by cases h⟩
  · exact ⟨by simp [ScanPhase.after], hscan, fun h => (by cases h), fun h => (by cases h)⟩
  · exact ⟨by simp [ScanPhase.after], hscan, fun h => (by cases h), fun _ => hg⟩

theorem callInv_start (h : s.next tx .call = some t) : CallInv tx s t := by
  unfold ScanSystem.next at h
  simp only at h
  split at h
  swap
  · cases h
  cases h
  exact callInv_of_gains rfl (lock_shared_gains _ _ _)

theorem callInv_next {s0 : ScanSystem} {e : ScanEvent} (I : ScanInv heads tx s)
    (C : CallInv tx s0 s) (hread : e ≠ .read) (h : s.next tx e = some t) : CallInv tx s0 t := by
  cases e with
  | locks e =>
    unfold ScanSystem.next at h
    simp only at h
    split at h
    · cases h
    rename_i hown
    obtain ⟨l, hl, rfl⟩ := Option.map_eq_some_iff.mp h
    -- the locks of others come and go, those of the scan's transaction stay
    have hsame : (s.phase = .waiting ∨ s.phase = .locked) →
        ∀ r, Locked l tx r ↔ Locked s.locks tx r := by
      intro hphase r
      unfold Locked
      rw [(lock_manager.next_other hl fun he => hown ⟨he.symm, hphase⟩).1]
    exact ⟨C.busy, C.scan, fun hp r => (hsame (Or.inl hp) r).trans (C.waiting hp r),
      fun hp r => (hsame (Or.inr hp) r).trans (C.locked hp r)⟩
  | others pool outside =>
    cases h
    exact ⟨C.busy, C.scan, C.waiting, C.locked⟩
  | call =>
    unfold ScanSystem.next at h
    simp only at h
    split at h
    · rename_i hcall
      exact absurd hcall.1 C.busy
    · cases h
  | wake expired =>
    unfold ScanSystem.next at h
    simp only at h
    split at h
    swap
    · cases h
    rename_i hphase
    obtain ⟨⟨l, r⟩, hw, rfl⟩ := Option.map_eq_some_iff.mp h
    have hg := wake_gains (I.waiting hphase) hw
    rw [C.scan] at hg
    refine callInv_of_gains C.scan ?_
    rcases r with _ | _ | _
    · exact fun r => (hg r).trans (C.waiting hphase r)
    · trivial
    · exact fun r => (hg r).trans (or_congr_left (C.waiting hphase r))
  | read => exact absurd rfl hread

/-- The call that begins at `s0` and has come to `s`. -/
theorem callInv_run {s0 s1 : ScanSystem} {es : List ScanEvent}
    (h0 : (scanMachine heads tx).Reach (OthersKeepHeaps heads) s0) (hcall : s0.next tx .call = some s1)
    (hrun : (scanMachine heads tx).Run (InCall heads) s1 es s) :
    ScanInv heads tx s ∧ CallInv tx s0 s := by
  have h1 : (scanMachine heads tx).Reach (OthersKeepHeaps heads) s1 :=
    h0.step (e := .call) trivial hcall
  refine hrun.invariant (I := fun s => ScanInv heads tx s ∧ CallInv tx s0 s)
    ⟨scanInv_reach h1, callInv_start hcall⟩ ?_
  intro s e t _ h hok hn
  exact ⟨scanInv_next h.1 hok.1 hn, callInv_next h.1 h.2 hok.2 hn⟩

/-! ## Rows that the scan returns -/

/-- The slot under the cursor is live. -/
def CursorOccupied (s : ScanSystem) : Prop :=
  ∃ f, s.scan.current_page = some f ∧
    has_slot (s.pool.frames f).data s.scan.current_rid.slot_num = true

/-- The first live slot from the cursor on is one that the transaction has locked. -/
def FirstLiveLocked (l : LockSystem) (tx : TransactionID) (s : ScanSystem) : Prop :=
  ∃ n rid, s.scan.current_rid.page_id = some n ∧
    FirstLive s.pool n s.scan.current_rid.slot_num rid ∧ Locked l tx rid

/-- The slot under the cursor is live when it is the first live one. -/
theorem Standing.cursorOccupied (h : Standing heads s) {n : Nat}
    (hn : s.scan.current_rid.page_id = some n)
    (hfirst : FirstLive s.pool n s.scan.current_rid.slot_num s.scan.current_rid) :
    CursorOccupied s := by
  obtain ⟨_, n', f, S⟩ := h
  obtain rfl : n = n' := Option.some.inj (hn.symm.trans S.rid)
  refine ⟨f, S.page, (has_slot_iff _ _).mpr ?_⟩
  have hlive := hfirst.live hn
  unfold contents at hlive
  rwa [view_cached S.table] at hlive

theorem Standing.firstLive_cursor (h : Standing heads s) {n : Nat} {rid : RID}
    (hn : s.scan.current_rid.page_id = some n)
    (hfirst : FirstLive s.pool n s.scan.current_rid.slot_num rid) (hocc : CursorOccupied s) :
    rid = s.scan.current_rid := by
  obtain ⟨_, n', f', S⟩ := h
  obtain ⟨f, hf, hocc⟩ := hocc
  obtain rfl : n = n' := Option.some.inj (hn.symm.trans S.rid)
  obtain rfl : f = f' := Option.some.inj (hf.symm.trans S.page)
  have hlive : tupleOf (contents s.pool n).rows s.scan.current_rid.slot_num ≠ none := by
    unfold contents
    rw [view_cached S.table]
    exact (has_slot_iff _ _).mp hocc
  have hhere := FirstLive.here (Nat.le_refl _) (fun i h1 h2 => by omega) hlive
  rw [hfirst.unique hhere, ← hn]

/-- The row that a scan returns is locked when the slot under the cursor is live, or when the
next live slot is one that was locked before the call, and only then; and then nobody else holds
an exclusive lock on it. -/
theorem a_scan_returns_a_locked_row_when_its_cursor_is_on_it {s0 s1 : ScanSystem}
    {es : List ScanEvent} (h : (scanMachine heads tx).Reach (OthersKeepHeaps heads) s0)
    (hcall : s0.next tx .call = some s1)
    (hrun : (scanMachine heads tx).Run (InCall heads) s1 es s) (hp : s.phase = .locked) :
    ∃ r b' scan', s.heap_next = some (.ok r, b', scan') ∧ ∀ rid t, r = some (rid, t) →
      (Locked s.locks tx rid ↔ CursorOccupied s ∨ FirstLiveLocked s0.locks tx s) ∧
      (Locked s.locks tx rid → ∀ tx', tx' ≠ tx → ¬ Holds s.locks tx' rid .EXCLUSIVE) := by
  obtain ⟨I, C⟩ := callInv_run h hcall hrun
  rcases I.standing (by rw [hp]; simp) with hs | hs
  swap
  · refine ⟨none, s.pool, s.scan, ?_, by simp⟩
    unfold ScanSystem.heap_next Scan.next
    simp only [hs]
  obtain ⟨n, hn, r, b', scan', hr, hrest⟩ := hs.read
  refine ⟨r, b', scan', hr, fun rid t he => ?_⟩
  obtain ⟨hfirst, _⟩ := hrest rid t he
  have hgained := C.locked hp
  rw [← C.scan] at hgained
  refine ⟨⟨fun hl => ?_, ?_⟩, ?_⟩
  · rcases (hgained rid).mp hl with hl | rfl
    · exact Or.inr ⟨n, rid, hn, hfirst, hl⟩
    · exact Or.inl (hs.cursorOccupied hn hfirst)
  · rintro (hocc | ⟨n', rid', hn', hfirst', hl⟩)
    · exact (hgained rid).mpr (Or.inr (hs.firstLive_cursor hn hfirst hocc))
    · obtain rfl : n = n' := Option.some.inj (hn.symm.trans hn')
      rw [hfirst.unique hfirst']
      exact (hgained rid').mpr (Or.inl hl)
  · intro hl tx' hne hx
    rcases hl with hl | hl
    · exact I.locks.excludes hx (Ne.symm hne) _ ((I.locks.shared rid tx).mp hl)
    · exact I.locks.excludes hx (Ne.symm hne) _ ((I.locks.exclusive rid tx).mp hl)

end

/-- A scan opened on page 1 after some calls on the heaps. -/
def scan_after (es : List HeapEvent) : Option ScanSystem :=
  ((evictionMachine (· ∈ [1, 2, 3])).execIf (on_first_pages [1, 2, 3]) three_heaps es).bind fun p =>
    match Scan.open_ p.pool (some 1) with
    | (.ok scan, pool) => some ⟨lock_manager.fresh, pool, p.outside, scan, .idle⟩
    | _ => none

theorem scan_after_start {es : List HeapEvent} {s : ScanSystem} (h : scan_after es = some s)
    (tx : TransactionID) : (scanMachine (· ∈ [1, 2, 3]) tx).start s := by
  obtain ⟨p, hp, h⟩ := Option.bind_eq_some_iff.mp h
  have hr := Machine.Reach.execIf (fun _ => evict_reach) (onHeaps_of_check _)
    (.start three_heaps_start) hp
  split at h
  · rename_i scan pool ho
    cases h
    exact ⟨rfl, rfl, p.pool, 1, fun _ => False, by simp, evict_reach hr, fun m hm => hm.elim, ho⟩
  · cases h

/-- A step of a lock call, of the scan's own or of another one. -/
def stays_in_call (_ : ScanSystem) : ScanEvent → Bool
  | .locks _ | .wake _ => true
  | _ => false

theorem inCall_of_check {heads : Nat → Prop} (s : ScanSystem) (e : ScanEvent)
    (h : stays_in_call s e = true) : InCall heads s e := by
  cases e with
  | locks | wake => exact ⟨trivial, by simp⟩
  | others | call | read => cases h

/-- The scan of a table with two rows stands on the first one, and waits until transaction 2 has
released it. -/
theorem a_scan_locks_the_first_row :
    ∃ s0 s1 s : ScanSystem, s0.next 1 .call = some s1 ∧ s1.phase = .waiting ∧
      (scanMachine (· ∈ [1, 2, 3]) 1).execIf stays_in_call s1 [.locks (.unlock_all 2), .wake false] = some s ∧
      CursorOccupied s ∧
      ∃ r b' scan', s.heap_next = some (.ok r, b', scan') ∧ ∀ rid u, r = some (rid, u) →
        (Locked s.locks 1 rid ↔ CursorOccupied s ∨ FirstLiveLocked s0.locks 1 s) ∧
        (Locked s.locks 1 rid → ∀ tx', tx' ≠ 1 → ¬ Holds s.locks tx' rid .EXCLUSIVE) := by
  obtain ⟨s, hb, hp⟩ : ∃ s, ((scan_after [.insert 1 [5], .insert 1 [6]]).bind fun s =>
      (s.next 1 (.locks (.lock_exclusive 2 ⟨some 1, 0⟩))).bind fun s0 =>
      (s0.next 1 .call).bind fun s1 => if s1.phase = .waiting then
        (scanMachine (· ∈ [1, 2, 3]) 1).execIf stays_in_call s1 [.locks (.unlock_all 2), .wake false]
      else none) = some s ∧
      (s.phase == .locked && s.scan.current_page.any fun f =>
        has_slot (s.pool.frames f).data s.scan.current_rid.slot_num) = true := by
    apply Option.map_eq_some_iff.mp
    decide +kernel
  obtain ⟨s', hs, hb⟩ := Option.bind_eq_some_iff.mp hb
  obtain ⟨s0, hs0, hb⟩ := Option.bind_eq_some_iff.mp hb
  obtain ⟨s1, hs1, hb⟩ := Option.bind_eq_some_iff.mp hb
  split at hb
  swap
  · cases hb
  rename_i hwaits
  rw [Bool.and_eq_true, beq_iff_eq] at hp
  obtain ⟨f, hf, hocc⟩ := Option.any_eq_true _ _ |>.mp hp.2
  have h0 : (scanMachine (· ∈ [1, 2, 3]) 1).Reach (OthersKeepHeaps (· ∈ [1, 2, 3])) s0 :=
    .step (e := .locks (.lock_exclusive 2 ⟨some 1, 0⟩)) (.start (scan_after_start hs 1)) trivial hs0
  have hrun : (scanMachine (· ∈ [1, 2, 3]) 1).Run (InCall (· ∈ [1, 2, 3])) s1
      [.locks (.unlock_all 2), .wake false] s :=
    Machine.run_of_execIf inCall_of_check hb
  exact ⟨s0, s1, s, hs1, hwaits, hb, ⟨f, hf, hocc⟩,
    a_scan_returns_a_locked_row_when_its_cursor_is_on_it h0 hs1 hrun hp.1⟩

/-- The scan returns a row that transaction 2 has locked. -/
def others_row (locks : LockSystem) : Except String (Option (RID × List UInt8)) → Bool
  | .ok (some (rid, _)) => (lock_manager.LockRequest.mk 2 .EXCLUSIVE true) ∈ locks.lock_table rid
  | _ => false

/-- The first row was deleted, and transaction 2 has locked the second one. The scan locks the
RID of the first, and returns the second. -/
theorem a_scan_returns_a_row_that_another_transaction_locked :
    ¬ ∀ (heads : Nat → Prop) (tx : TransactionID) (s : ScanSystem),
      (scanMachine heads tx).Reach (OthersKeepHeaps heads) s → s.phase = .locked →
      ∀ rid u b' scan', s.heap_next = some (.ok (some (rid, u)), b', scan') →
        Locked s.locks tx rid ∧ ∀ tx', tx' ≠ tx → ¬ Holds s.locks tx' rid .EXCLUSIVE := by
  intro h
  obtain ⟨t, hb, hp⟩ : ∃ t, ((scan_after [.insert 1 [5], .insert 1 [6],
      .delete ⟨some 1, 0⟩]).bind fun s =>
        (s.next 1 (.locks (.lock_exclusive 2 ⟨some 1, 1⟩))).bind fun s => s.next 1 .call) = some t ∧
      (t.phase == .locked && t.heap_next.any fun r => others_row t.locks r.1) = true := by
    apply Option.map_eq_some_iff.mp
    decide +kernel
  obtain ⟨s, hs, ht⟩ := Option.bind_eq_some_iff.mp hb
  obtain ⟨s', hs', ht⟩ := Option.bind_eq_some_iff.mp ht
  rw [Bool.and_eq_true, beq_iff_eq] at hp
  obtain ⟨⟨r, b', scan'⟩, hr, hx⟩ := Option.any_eq_true _ _ |>.mp hp.2
  unfold others_row at hx
  split at hx
  · rename_i rid u he
    simp only at he
    rw [he] at hr
    have hreach : (scanMachine (· ∈ [1, 2, 3]) 1).Reach (OthersKeepHeaps (· ∈ [1, 2, 3])) t :=
      .step (e := .call) (.step (e := .locks (.lock_exclusive 2 ⟨some 1, 1⟩))
        (.start (scan_after_start hs 1)) trivial hs') trivial ht
    have hheld : Holds t.locks 2 rid .EXCLUSIVE := by
      unfold Holds
      exact of_decide_eq_true hx
    exact (h _ 1 t hreach hp.1 rid u b' scan' hr).2 2 (by decide) hheld
  · cases hx

end duck.table
