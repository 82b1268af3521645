-- What the steps of a table call find and leave at the RIDs that they have
-- locked, as accesses to tuples.
import DuckDbms.TwoPhaseLocks
import DuckDbms.DirtyReads

open machine duck.slotted_page duck.buffer_pool duck.lock_manager duck.table_heap chain serial

namespace duck.table

/-! ## Accesses -/

/-- What a transaction found at a RID and left there. An empty tuple reads like none. -/
abbrev TupleAccess := Access TransactionID RID (Option (List UInt8))

/-- The tuple of a RID as `get_tuple` returns it. -/
def visibleAt (b : BufferPoolManager) (rid : RID) : Option (List UInt8) :=
  (tupleAt b rid).filter (! ·.isEmpty)

/-- What a step of a call did to a tuple that is locked: it goes from one place of the call to
another, over the pool before and after. A read that cannot fetch its page finds out nothing. A
tuple that the call placed appears when its lock is there. -/
def accesses (b b' : BufferPoolManager) (tx : TransactionID) :
    TableCall → TableCall → List TupleAccess
  | .read rid, .done (.ok (.found tuple)) =>
    if reaches b rid then [⟨tx, rid, tuple, tuple⟩] else []
  | .read_deleted rid, .delete _ old | .read_updated _ rid _, .update _ _ _ old =>
    [⟨tx, rid, some old, some old⟩]
  | .read_deleted rid, .done _ | .read_updated _ rid _, .done _ =>
    if reaches b rid then [⟨tx, rid, none, none⟩] else []
  | .delete rid _, _ | .update _ rid _ _, _ => [⟨tx, rid, visibleAt b rid, visibleAt b' rid⟩]
  | .undo (u :: _), _ => [⟨tx, u.rid, visibleAt b u.rid, visibleAt b' u.rid⟩]
  | .lock_inserted rid, .done _ => [⟨tx, rid, none, visibleAt b' rid⟩]
  | .lock_moved _ _ ret_rid, .done (.ok (.placed (some _))) =>
    [⟨tx, ret_rid, none, visibleAt b' ret_rid⟩]
  | _, _ => []

/-- The tuple of a RID as a call of the heap sees it, from the rows of the heaps. -/
def valueOf (R : Pages) (rid : RID) : Option (List UInt8) :=
  (rowAt R rid).join.filter (! ·.isEmpty)

/-- What a step must keep apart, where nobody gets a lock past an upgrade that waits. -/
structure StepsApart (evicts : Prop) (s t : TableSystem) (tx : TransactionID) (expired : Bool) :
    Prop extends TuplesApart evicts s t tx expired where
  upgrades : ∀ rid mode, (s.txs tx).call.wants = some (rid, mode) →
    NoGrantPastUpgrade s.locks (lockEvent s.locks tx rid mode expired)

/-! ## Tuples by their RIDs -/

section
variable {R R' : Pages} {rid rid' : RID}

theorem valueOf_congr (h : rowAt R' rid = rowAt R rid) : valueOf R' rid = valueOf R rid := by
  unfold valueOf
  rw [h]

/-- The slot of the RID holds a tuple. -/
def Live (R : Pages) (rid : RID) : Prop := ∃ t, rowAt R rid = some (some t)

theorem rowAt_mayPlace (h : MayPlace R rid) : rowAt R rid = some none ∨ rowAt R rid = none := by
  obtain ⟨_, i⟩ := rid
  obtain ⟨n, rfl, hfree | ⟨hlast, _⟩⟩ := h
  · exact Or.inl hfree
  · exact Or.inr (List.getElem?_eq_none (Nat.le_of_eq hlast.symm))

theorem valueOf_mayPlace (h : MayPlace R rid) : valueOf R rid = none := by
  unfold valueOf
  rcases rowAt_mayPlace h with hr | hr <;> rw [hr] <;> rfl

theorem MayPlace.not_live (h : MayPlace R rid) : ¬ Live R rid := by
  rintro ⟨t, ht⟩
  rcases rowAt_mayPlace h with hr | hr <;> rw [hr] at ht <;> cases ht

theorem valueOf_putRow_none (R : Pages) (rid : RID) : valueOf (putRow R rid none) rid = none := by
  unfold valueOf
  rw [rowAt_putRow, if_pos rfl]
  cases rowAt R rid <;> rfl

theorem live_placeRow (h : MayPlace R rid) (t : List UInt8) : Live (placeRow R rid t) rid :=
  ⟨t, rowAt_placeRow_self h t⟩

variable {evicts : Prop} {heads : Nat → Prop} {pins : Nat → Nat} {pending : Nat → Prop}
  {b : BufferPoolManager}

theorem visibleAt_eq (hon : RidOn heads b rid) :
    visibleAt b rid = valueOf (rows heads b) rid := by
  obtain ⟨_, slot⟩ := rid
  obtain ⟨n, rfl, hn⟩ := hon
  unfold visibleAt valueOf tupleAt rowAt
  rw [Option.bind_some, Option.bind_some, rows_on hn]
  rfl

/-- A read finds the tuple of its RID when it reaches its page, and nothing when it does not. -/
theorem get_value (H : HeapState evicts pins pending heads b) (hon : RidOn heads b rid) :
    ∃ b', Ran evicts heads pins pending b b' ∧ rows heads b' = rows heads b ∧
      table_heap.get_tuple b rid =
        (.ok (if reaches b rid then valueOf (rows heads b) rid else none), b') := by
  obtain ⟨_, slot⟩ := rid
  obtain ⟨n, rfl, hn⟩ := hon
  rcases H.store.fetch_page (H.pages n hn).2 with ⟨f, b1, hf, _⟩ | ⟨hf, _⟩
  · have hreach : reaches b ⟨some n, slot⟩ = true := by
      unfold reaches
      rw [hf]
    rcases H.with_page hn (fun page =>
      let view := slotted_page.get_tuple page.data slot
      (if view.isEmpty then none else some view, page.data, false)) (fun page _ hm _ =>
        ⟨(congrArg Meaning.good hm).mpr (H.pages n hn).1, congrArg Meaning.next hm,
          fun _ => Or.inr (Or.inr hm)⟩) with ⟨page, b', h1, _, _, h4, h5, h6⟩ | ⟨h1, _⟩
    swap
    · unfold table_heap.with_page at h1
      rw [hf] at h1
      cases h1
    refine ⟨b', h5, ?_, ?_⟩
    · rw [h6]
      simp only [h4, Function.update_eq_self]
    · unfold table_heap.get_tuple
      rw [h1, hreach]
      simp only [Except.map, Prod.mk.injEq, Except.ok.injEq, Option.join_some, and_true, if_true]
      rw [get_tuple_eq, valueOf, rowAt_rows, ← h4, rowsOf_getElem?]
      split
      · rcases rowOf page.data slot with _ | _ | ⟨x, t⟩ <;> rfl
      · rfl
  · have hreach : reaches b ⟨some n, slot⟩ = false := by
      unfold reaches
      rw [hf]
    refine ⟨b, ran_refl H, rfl, ?_⟩
    unfold table_heap.get_tuple table_heap.with_page
    rw [hreach, hf]
    rfl

end

/-! ## What the steps do to the tuples -/

/-- The tuple that the call works on, with the lock that it has for that. -/
def TableCall.touches : TableCall → Option (RID × LockMode)
  | .read rid => some (rid, .SHARED)
  | .read_deleted rid | .delete rid _ | .read_updated _ rid _ | .update _ rid _ _ =>
    some (rid, .EXCLUSIVE)
  | .undo (u :: _) => some (u.rid, .EXCLUSIVE)
  | _ => none

/-- A step of the heap is told as at most one access, which finds what the rows say and leaves
what they say then. The other tuples are as they were, but for one that is placed or taken
back. -/
structure Told (R R' : Pages) (tx : TransactionID) (c c' : TableCall) (l : List TupleAccess) :
    Prop where
  one : l = [] ∨ ∃ a mode, l = [a] ∧ a.tx = tx ∧ c.touches = some (a.object, mode) ∧
    a.before = valueOf R a.object ∧ a.after = valueOf R' a.object ∧
    (mode = .SHARED → ¬ a.Writes)
  rest : ∀ rid, (∀ a ∈ l, a.object ≠ rid) → c ≠ .delete_inserted rid →
    (c.placed = none → c'.placed ≠ some rid) → rowAt R' rid = rowAt R rid

section
variable {evicts : Prop} {heads : Nat → Prop} {s t : TableSystem} {tx : TransactionID}
  {expired : Bool}

/-- Nothing was found out, and nothing changed. -/
theorem told_nothing {R : Pages} {c c' : TableCall} : Told R R tx c c' [] :=
  ⟨Or.inl rfl, fun _ _ _ _ => rfl⟩

/-- The tuple was read, and nothing changed. -/
theorem told_read {R : Pages} {c c' : TableCall} {rid : RID} {mode : LockMode}
    {found : Option (List UInt8)} (hc : c.touches = some (rid, mode))
    (hfound : found = valueOf R rid) : Told R R tx c c' [⟨tx, rid, found, found⟩] :=
  ⟨Or.inr ⟨_, mode, rfl, rfl, hc, hfound, hfound, fun _ h => h rfl⟩, fun _ _ _ _ => rfl⟩

theorem told_reading (C : CallsOn evicts heads s) (hstep : table_step s tx expired = some t)
    (hc : ∃ rid, (s.txs tx).call = .read rid ∨ (s.txs tx).call = .read_deleted rid ∨
      ∃ h tuple, (s.txs tx).call = .read_updated h rid tuple) :
    Told (rows heads s.heap.pool) (rows heads t.heap.pool) tx (s.txs tx).call (t.txs tx).call
      (accesses s.heap.pool t.heap.pool tx (s.txs tx).call (t.txs tx).call) := by
  obtain ⟨rid, hc⟩ := hc
  have hon : RidOn heads s.heap.pool rid := by
    have hcall := C.call tx
    rcases hc with hc | hc | ⟨h, tuple, hc⟩ <;> rw [hc] at hcall
    · exact hcall
    · exact hcall
    · exact hcall.2.1
  obtain ⟨b, _, hrows, hg⟩ := get_value C.heap hon
  unfold table_step at hstep
  rcases hc with hc | hc | ⟨h, tuple, hc⟩ <;> rw [hc] at hstep ⊢ <;> simp only [hg] at hstep
  · cases hstep
    simp only [go_on_eq, after_txs_self, accesses]
    rw [TableSystem.after, hrows]
    split
    · exact told_read rfl rfl
    · exact told_nothing
  all_goals
    cases hreach : reaches s.heap.pool rid with
    | false =>
      simp only [hreach, Bool.false_eq_true, if_false, Option.some.injEq] at hstep
      subst hstep
      simp only [go_on_eq, after_txs_self, accesses, hreach, Bool.false_eq_true, if_false]
      rw [TableSystem.after, hrows]
      exact told_nothing
    | true =>
      cases hv : valueOf (rows heads s.heap.pool) rid with
      | none =>
        simp only [hreach, hv, if_true, Option.some.injEq] at hstep
        subst hstep
        simp only [go_on_eq, after_txs_self, accesses, hreach, if_true]
        rw [TableSystem.after, hrows]
        exact told_read rfl hv.symm
      | some old =>
        simp only [hreach, hv, if_true, Option.some.injEq] at hstep
        subst hstep
        simp only [go_on_eq, after_txs_self, accesses]
        rw [TableSystem.after, hrows]
        exact told_read rfl hv.symm

/-- The tuple that the call works on is changed, if any. -/
theorem told_writing {b : BufferPoolManager} {log : List UndoRecord} {call : TableCall}
    (W : Worked evicts heads s tx b log call) (rid : RID)
    (hc : (s.txs tx).call.touches = some (rid, .EXCLUSIVE)) (hon : RidOn heads s.heap.pool rid)
    (hl : accesses s.heap.pool b tx (s.txs tx).call call =
      [⟨tx, rid, visibleAt s.heap.pool rid, visibleAt b rid⟩]) :
    Told (rows heads s.heap.pool) (rows heads b) tx (s.txs tx).call call
      (accesses s.heap.pool b tx (s.txs tx).call call) := by
  rw [hl]
  refine ⟨Or.inr ⟨_, .EXCLUSIVE, rfl, rfl, hc, visibleAt_eq hon, visibleAt_eq (hon.ran W.ran),
    fun h => by cases h⟩, fun r hr htaken hnew => ?_⟩
  have hne : rid ≠ r := hr _ List.mem_cons_self
  have hM := W.move
  generalize (s.txs tx).call = c at hM hc htaken hnew
  refine rowAt_move hM (fun he => ?_) ?_ htaken hnew
  · cases c with
    | read_deleted | delete | read_updated | update =>
      cases hc
      cases he
      exact hne rfl
    | lock_moved => cases hc
    | _ => cases he
  · rintro u rest rfl
    cases hc
    exact hne

theorem told_step (C : CallsOn evicts heads s) (hheap : (s.txs tx).call.calls_heap = true)
    {b : BufferPoolManager} {log : List UndoRecord} {call : TableCall}
    (ht : t = s.after b tx log call) (W : Worked evicts heads s tx b log call)
    (hstep : table_step s tx expired = some t) :
    Told (rows heads s.heap.pool) (rows heads t.heap.pool) tx (s.txs tx).call (t.txs tx).call
      (accesses s.heap.pool t.heap.pool tx (s.txs tx).call (t.txs tx).call) := by
  have hon := C.call tx
  have htold := told_writing W
  have hreading := told_reading C hstep
  have hmove := W.move
  subst ht
  rw [after_txs_self] at *
  simp only [TableSystem.after] at *
  cases hc : (s.txs tx).call with
  | read rid => exact hc ▸ hreading ⟨rid, Or.inl hc⟩
  | read_deleted rid => exact hc ▸ hreading ⟨rid, Or.inr (Or.inl hc)⟩
  | read_updated h rid tuple => exact hc ▸ hreading ⟨rid, Or.inr (Or.inr ⟨h, tuple, hc⟩)⟩
  | delete rid bytes =>
    rw [hc] at hon htold
    exact htold rid rfl hon.1 (by cases call <;> rfl)
  | update h rid tuple old =>
    rw [hc] at hon htold
    exact htold rid rfl hon.2.1 (by cases call <;> rfl)
  | undo records =>
    rcases records with _ | ⟨u, rest⟩
    · rw [hc] at hheap
      cases hheap
    · rw [hc] at hon htold
      exact htold u.rid rfl (hon u List.mem_cons_self).rid (by cases call <;> rfl)
  | insert h tuple =>
    rw [hc] at hmove
    have hl : accesses s.heap.pool b tx (.insert h tuple) call = [] := by cases call <;> rfl
    rw [hl]
    exact ⟨Or.inl rfl, fun rid _ htaken hnew =>
      rowAt_move hmove (by simp [TableCall.locked]) (by simp) htaken hnew⟩
  | delete_inserted rid' =>
    rw [hc] at hmove
    have hl : accesses s.heap.pool b tx (.delete_inserted rid') call = [] := by cases call <;> rfl
    rw [hl]
    exact ⟨Or.inl rfl, fun rid _ htaken hnew =>
      rowAt_move hmove (by simp [TableCall.locked]) (by simp) htaken hnew⟩
  | done | ended | lock_inserted | lock_read | lock_deleted | lock_updated | lock_moved | commit
  | abort =>
    rw [hc] at hheap
    cases hheap

/-- A step of a call leaves no tuple placed, or what it had placed, or places one in a slot that
was free. -/
theorem placed_step (C : CallsOn evicts heads s) (hstep : table_step s tx expired = some t)
    (hok : StepsApart evicts s t tx expired) :
    (t.txs tx).call.placed = none ∨
    (t.heap = s.heap ∧ (t.txs tx).call.placed = (s.txs tx).call.placed) ∨
    ∃ rid, (s.txs tx).call.placed = none ∧ (t.txs tx).call.placed = some rid ∧
      (∀ mode, (s.txs tx).call.touches ≠ some (rid, mode)) ∧
      ¬ Live (rows heads s.heap.pool) rid ∧ valueOf (rows heads s.heap.pool) rid = none ∧
      Live (rows heads t.heap.pool) rid := by
  cases hheap : (s.txs tx).call.calls_heap with
  | true =>
    obtain ⟨b, log, call, ht, W⟩ :=
      table_step_works C.heap (C.call tx) hheap hstep hok.frames hok.dirty
    have hM := W.move
    have hpool : t.heap.pool = b := by rw [ht]; rfl
    rw [ht, after_txs_self, ← ht, hpool]
    generalize (s.txs tx).call = c at hM
    generalize rows heads b = R' at hM
    cases hM with
    | inserted hmay hrows =>
      refine Or.inr (Or.inr ⟨_, rfl, rfl, by simp [TableCall.touches], hmay.not_live,
        valueOf_mayPlace hmay, ?_⟩)
      rw [hrows]
      exact live_placeRow hmay _
    | @moved h rid ret_rid t' bytes old hne _ hmay hrows =>
      have hback : rowAt (putRow (rows heads s.heap.pool) rid none) ret_rid =
          rowAt (rows heads s.heap.pool) ret_rid := rowAt_putRow_of_ne hne
      refine Or.inr (Or.inr ⟨ret_rid, rfl, rfl, ?_, ?_, ?_, ?_⟩)
      · simp [TableCall.touches, Ne.symm hne]
      · have hno := hmay.not_live
        unfold Live at hno ⊢
        rwa [hback] at hno
      · rw [← valueOf_congr hback]
        exact valueOf_mayPlace hmay
      · rw [hrows]
        exact live_placeRow hmay _
    | returned | removed | found_deleted | deleted | found_updated | updated | lost | undone
    | restored | skipped => exact Or.inl rfl
  | false =>
    -- a lock call goes on, or the transaction ends
    cases table_step_cases hstep with
    | asleep => exact Or.inr (Or.inl ⟨rfl, rfl⟩)
    | granted hw =>
      left
      rw [after_txs_self]
      cases hc : (s.txs tx).call <;> rw [hc] at hw <;> cases hw <;> rfl
    | refused hw =>
      rw [after_txs_self]
      cases hc : (s.txs tx).call with
      | lock_inserted => exact Or.inr (Or.inl ⟨rfl, rfl⟩)
      | _ =>
        rw [hc] at hw
        cases hw <;> exact Or.inl rfl
    | committed | aborted => exact Or.inl (by simp [TableSystem.finish, TableSystem.go_on,
        TableCall.placed])
    | aborting => exact Or.inl (by simp [TableSystem.go_on, TableCall.placed])
    | heap _ hh =>
      rw [hheap] at hh
      cases hh

theorem removed_step (C : CallsOn evicts heads s) {rid : RID}
    (hc : (s.txs tx).call = .delete_inserted rid) (hreach : reaches s.heap.pool rid = true)
    (hstep : table_step s tx expired = some t) : valueOf (rows heads t.heap.pool) rid = none := by
  rw [removed_rows C hc hreach hstep]
  exact valueOf_putRow_none _ _

end

end duck.table
