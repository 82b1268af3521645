-- Creates of tables that throw, under a transaction or without one: the page
-- that was allocated for the table is not given back.
import DuckDbms.CatalogCalls
import DuckDbms.CatalogRows

open machine duck.slotted_page duck.disk_manager duck.buffer_pool duck.lock_manager
open duck.table_heap duck.table duck.tuple chain

namespace duck.catalog

/-! ## Creates with any answer of the lock manager -/

/-- What the lock manager tells a transaction in the end, however long it has waited, and the
locks that it leaves. -/
structure LockAnswer where
  tx : TransactionID
  locks : LockSystem
  granted : Bool

namespace CatalogSystem

variable (s : CatalogSystem)

/-- `catalog_table_.insert_tuple(entry, tx)`; the lock of the new RID comes after its row. -/
def insert_answered (entry : Tuple catalog_schema) :
    Option LockAnswer → Option (Except Failure (Option RID) × CatalogSystem)
  | none => s.insert_entry entry none
  | some answer =>
    match entry.serialize with
    | .error e => some (.error e, s)
    | .ok bytes => (table_heap.insert_tuple s.heap.pool s.catalog_table.table_heap bytes).map fun
      | (.error e, b) => (.error (.thrown e), s.with_pool b)
      | (.ok none, b) => (.ok none, s.with_pool b)
      | (.ok (some rid), b) =>
        let s := { s.with_pool b with locks := answer.locks }
        if answer.granted then (.ok (some rid), s.push_undo answer.tx [.row (.DeleteUndoRecord rid)])
        else (raised ((delete_tuple b rid).1.map fun _ => none), s.with_pool (delete_tuple b rid).2)

/-- `create_table`, where the lock manager gives the answer. -/
def create_answered (name : List UInt8) (schema : Schema) (answer : Option LockAnswer) :
    Option (Except Failure Unit × CatalogSystem) :=
  if (s.tables name).isSome then
    some (.error (.thrown s!"Catalog::create_table: table with name {text name} already exists"), s)
  else
    match create s.heap.pool with
    | (.error e, b) => some (.error (.thrown e), s.with_pool b)
    | (.ok first_page_id, b) =>
      match entry_tuple name first_page_id schema with
      | .error e => some (.error e, s.with_pool b)
      | .ok entry =>
        ((s.with_pool b).insert_answered entry answer).map fun
          | (.error e, s) => (.error e, s)
          | (.ok none, s) =>
            (.error (.thrown "Catalog::CreateTable: failed to write catalog entry"), s)
          | (.ok (some rid), s) =>
            (.ok (), s.register name ⟨rid, ⟨first_page_id, schema⟩⟩ (answer.map (·.tx)))

end CatalogSystem

section
variable {s t : CatalogSystem} {heap : HeapPool} {locks : LockSystem} {tx : TransactionID}
  {rid : RID} {name : List UInt8} {schema : Schema}

theorem of_run_done {fuel : Nat} {log : List table.UndoRecord} {r : Except String TableResult}
    {u : TableSystem} (h : run_call fuel (calling heap locks tx log (.done r)) tx = some u) :
    u = calling heap locks tx log (.done r) := by
  cases fuel with
  | zero => cases h
  | succ fuel =>
    rw [run_done] at h
    exact (Option.some.inj h).symm

/-- A call that waits for the lock of its new row gets it in the end, or takes the row back. -/
theorem run_lock_inserted {fuel : Nat} {u : TableSystem}
    (h : run_call fuel (calling heap locks tx [] (.lock_inserted rid)) tx = some u) :
    ∃ locks',
      u = calling heap locks' tx [.DeleteUndoRecord rid] (.done (.ok (.placed (some rid)))) ∨
      u = calling ⟨(delete_tuple heap.pool rid).2, heap.outside⟩ locks' tx []
        (.done ((delete_tuple heap.pool rid).1.map fun _ => .placed none)) := by
  induction fuel generalizing locks with
  | zero => cases h
  | succ fuel ih =>
    have hcalling : ∀ l log call, TableSystem.after { calling heap locks tx [] (.lock_inserted rid)
        with locks := l } heap.pool tx log call = calling heap l tx log call := by
      intro l log call
      unfold TableSystem.after calling
      simp only [Function.update_idem]
    unfold run_call at h
    rw [calling_call] at h
    obtain ⟨v, hstep, hrun⟩ := Option.bind_eq_some_iff.mp h
    rw [table_step_lock (by rw [calling_call]; rfl), lock_eq] at hstep
    cases hl : lockCall (calling heap locks tx [] (.lock_inserted rid)).locks tx rid .EXCLUSIVE
      false with
    | mk l answer =>
      rw [hl] at hstep
      simp only [calling_call, Option.some.injEq] at hstep
      rcases answer with _ | _ | _
      · -- it sleeps
        subst hstep
        exact ih hrun
      · -- refused: the row is deleted again
        simp only [Bool.false_eq_true, if_false, List.nil_append, calling_log] at hstep
        obtain rfl : v = calling heap l tx [] (.delete_inserted rid) :=
          hstep.symm.trans (hcalling l [] _)
        have hdelete : table_step (calling heap l tx [] (.delete_inserted rid)) tx false =
            some (calling ⟨(delete_tuple heap.pool rid).2, heap.outside⟩ l tx []
              (.done ((delete_tuple heap.pool rid).1.map fun _ => .placed none))) := by
          unfold table_step
          rw [calling_call]
          simp only [calling_heap]
          rcases delete_tuple heap.pool rid with ⟨_ | _, b⟩ <;> simp [Except.map]
        cases fuel with
        | zero => cases hrun
        | succ fuel =>
          rw [run_next hdelete] at hrun
          exact ⟨l, Or.inr (of_run_done hrun)⟩
      · simp only [if_true, calling_log, List.append_nil] at hstep
        obtain rfl : v = calling heap l tx [.DeleteUndoRecord rid]
            (.done (.ok (.placed (some rid)))) := hstep.symm.trans (hcalling l _ _)
        exact ⟨l, Or.inl (of_run_done hrun)⟩

theorem push_undo_nil (s : CatalogSystem) (tx : TransactionID) : s.push_undo tx [] = s := by
  unfold CatalogSystem.push_undo
  rw [List.nil_append, Function.update_eq_self]

/-- What a call of a table that has run returns, and the catalog that it leaves. -/
theorem of_table_call {op : TableOp} {r : Except String TableResult}
    (h : s.table_call tx op = some (r, t)) : ∃ u,
      run_call 8 (calling s.heap s.locks tx [] op.call) tx = some u ∧ (u.txs tx).call = .done r ∧
      t = ({ s with heap := u.heap, locks := u.locks } : CatalogSystem).push_undo tx
        ((u.txs tx).undo_log.map .row) := by
  unfold CatalogSystem.table_call at h
  simp only [begin_call_eq] at h
  obtain ⟨u, hu, h⟩ := Option.bind_eq_some_iff.mp h
  refine ⟨u, hu, ?_⟩
  split at h
  · rename_i hcall
    cases h
    exact ⟨hcall, rfl⟩
  · cases h

/-- The insert of the row of a table under a transaction. -/
theorem insert_entry_is_answered {entry : Tuple catalog_schema} {r : Except Failure (Option RID)}
    (h : s.insert_entry entry (some tx) = some (r, t)) :
    ∃ answer : LockAnswer, answer.tx = tx ∧ s.insert_answered entry (some answer) = some (r, t) := by
  unfold CatalogSystem.insert_entry at h
  unfold CatalogSystem.insert_answered
  simp only at h ⊢
  generalize entry.serialize = written at h ⊢
  obtain e | bytes := written
  · cases h
    exact ⟨⟨tx, s.locks, true⟩, rfl, rfl⟩
  simp only at h ⊢
  obtain ⟨⟨r1, t1⟩, hcall, hr⟩ := Option.bind_eq_some_iff.mp h
  obtain ⟨u, hrun, hdone, rfl⟩ := of_table_call hcall
  simp only [TableOp.call] at hrun
  rw [run_call_of_step (by simp) (by simp)] at hrun
  obtain ⟨v, hstep, hrun⟩ := Option.bind_eq_some_iff.mp hrun
  rcases hi : table_heap.insert_tuple s.heap.pool s.catalog_table.table_heap bytes with _ | ⟨r2, b⟩
  · unfold table_step at hstep
    rw [calling_call] at hstep
    simp only [calling_heap, hi] at hstep
    cases hstep
  rw [step_inserted s.locks tx [] hi] at hstep
  obtain rfl := Option.some.inj hstep
  rcases r2 with e | _ | rid
  · obtain rfl := of_run_done hrun
    rw [calling_call] at hdone
    cases hdone
    rw [calling_log, List.map_nil, push_undo_nil] at hr
    cases hr
    exact ⟨⟨tx, s.locks, true⟩, rfl, rfl⟩
  · obtain rfl := of_run_done hrun
    rw [calling_call] at hdone
    cases hdone
    rw [calling_log, List.map_nil, push_undo_nil] at hr
    cases hr
    exact ⟨⟨tx, s.locks, true⟩, rfl, rfl⟩
  · obtain ⟨locks', rfl | rfl⟩ := run_lock_inserted hrun
    · rw [calling_call] at hdone
      cases hdone
      rw [calling_log] at hr
      cases hr
      exact ⟨⟨tx, locks', true⟩, rfl, rfl⟩
    · rw [calling_call] at hdone
      rw [calling_log, List.map_nil, push_undo_nil] at hr
      refine ⟨⟨tx, locks', false⟩, rfl, ?_⟩
      simp only [Option.map_some, Bool.false_eq_true, if_false]
      rcases hd : delete_tuple b rid with ⟨e | deleted, b'⟩
      · simp only [hd, Except.map, TableCall.done.injEq] at hdone
        subst hdone
        cases hr
        simp only [hd]
        rfl
      · simp only [hd, Except.map, TableCall.done.injEq] at hdone
        subst hdone
        cases hr
        simp only [hd]
        rfl

/-- A create that returns is one with the answer that the lock manager gave. -/
theorem create_table_is_answered {tx : Option TransactionID} {r : Except Failure Unit}
    (h : s.create_table name schema tx = some (r, t)) :
    ∃ answer : Option LockAnswer, answer.map (·.tx) = tx ∧
      s.create_answered name schema answer = some (r, t) := by
  rcases tx with _ | tx
  · exact ⟨none, rfl, h⟩
  unfold CatalogSystem.create_table at h
  unfold CatalogSystem.create_answered
  split at h
  · rename_i hname
    exact ⟨some ⟨tx, s.locks, true⟩, rfl, by rw [if_pos hname]; exact h⟩
  rename_i hname
  simp only [if_neg hname]
  generalize create s.heap.pool = created at h ⊢
  obtain ⟨e | first_page_id, b⟩ := created
  · exact ⟨some ⟨tx, s.locks, true⟩, rfl, h⟩
  simp only at h ⊢
  generalize entry_tuple name first_page_id schema = made at h ⊢
  obtain e | entry := made
  · exact ⟨some ⟨tx, s.locks, true⟩, rfl, h⟩
  simp only at h ⊢
  obtain ⟨⟨r1, t1⟩, hi, hr⟩ := Option.map_eq_some_iff.mp h
  obtain ⟨answer, rfl, ha⟩ := insert_entry_is_answered hi
  refine ⟨some answer, rfl, ?_⟩
  rw [ha, Option.map_some]
  exact congrArg some hr

/-! ## What a create that throws leaves -/

/-- The tables, the live rows of the catalog, and the pages that are allocated and not on the
free list are the same. -/
structure Unchanged (s t : CatalogSystem) : Prop where
  tables : t.tables = s.tables
  rows : t.catalog_rows = s.catalog_rows
  pages : ∀ n, Allocated t.heap.pool.disk_manager n ↔ Allocated s.heap.pool.disk_manager n

/-- The insert of the row keeps the pages that are allocated. -/
theorem insert_answered_allocated {heads : Nat → Prop}
    (H : HeapState True s.heap.outside (fun _ => False) heads s.heap.pool)
    {c : Nat} (hc : s.catalog_table.table_heap = some c) (hh : heads c)
    {entry : Tuple catalog_schema} {answer : Option LockAnswer} {r : Except Failure (Option RID)}
    (h : s.insert_answered entry answer = some (r, t)) {n : Nat}
    (hn : Allocated s.heap.pool.disk_manager n) : Allocated t.heap.pool.disk_manager n := by
  rcases answer with _ | answer
  · obtain ⟨⟨r1, b⟩, hi, hr⟩ := Option.map_eq_some_iff.mp h
    cases hr
    obtain ⟨_, _, hi', R, _⟩ := insert_ran H hh hc entry
    rw [hi] at hi'
    cases hi'
    exact R.allocated n hn
  unfold CatalogSystem.insert_answered at h
  simp only [hc] at h
  rcases hs : entry.serialize with e | bytes
  · rw [hs] at h
    cases h
    exact hn
  rw [hs] at h
  obtain ⟨⟨r1, b⟩, hi, hr⟩ := Option.map_eq_some_iff.mp h
  obtain ⟨R, I⟩ := H.insert_tuple hh hi fun he => absurd trivial he
  have hb : Allocated b.disk_manager n := R.allocated n hn
  cases I with
  | @placed m slot hon _ _ =>
    simp only at hr
    split at hr
    · cases hr
      exact hb
    · -- the row is taken back
      cases hr
      rcases R.heap.delete_tuple ⟨c, hh, hon⟩ slot with ⟨b', hd, R', _⟩ | ⟨hd, _⟩
      · show Allocated (delete_tuple b ⟨some m, slot⟩).2.disk_manager n
        rw [hd]
        exact R'.allocated n hb
      · show Allocated (delete_tuple b ⟨some m, slot⟩).2.disk_manager n
        rw [hd]
        exact hb
  | refused hno _ _ =>
    rcases r1 with e | _ | rid
    · cases hr
      exact hb
    · cases hr
      exact hb
    · exact absurd rfl (hno rid)

/-- A create that throws leaves everything as it was if and only if its name was registered.
Every other one has allocated a page that nobody knows. -/
theorem a_create_that_throws_leaves_a_page_unless_its_name_is_registered (S : Sound s)
    {answer : Option LockAnswer} {e : Failure}
    (h : s.create_answered name schema answer = some (.error e, t)) :
    Unchanged s t ↔ (s.tables name).isSome := by
  unfold CatalogSystem.create_answered at h
  split at h
  · rename_i hname
    cases h
    exact ⟨fun _ => hname, fun _ => ⟨rfl, rfl, fun _ => Iff.rfl⟩⟩
  rename_i hname
  refine ⟨fun U => ?_, fun h => absurd h hname⟩
  exfalso
  -- the page of the table is a new one
  suffices hnew : ∃ x, ¬ Allocated s.heap.pool.disk_manager x ∧
      Allocated t.heap.pool.disk_manager x by
    obtain ⟨x, hx, ht⟩ := hnew
    exact hx ((U.pages x).mp ht)
  rcases S.heap.create fun h => absurd trivial h with
    ⟨x, b, hc, hx, H, _⟩ | ⟨e', hc, _⟩
  swap
  · rw [hc] at h
    cases h
    obtain ⟨x, _, hg, _⟩ := S.heap.store.allocate_page fun h => absurd trivial h
    exact ⟨x, hg.fresh, (hg.allocated x).mpr (Or.inr rfl)⟩
  refine ⟨x, hx, ?_⟩
  have ha : Allocated b.disk_manager x := (H.pages x ⟨x, Or.inr rfl, H.forest.onPath_head (Or.inr rfl)⟩).2
  rw [hc] at h
  simp only at h
  generalize entry_tuple name (some x) schema = made at h
  obtain e' | entry := made
  · cases h
    exact ha
  obtain ⟨c, hcat, hcc⟩ := S.catalog_head
  obtain ⟨⟨r1, t1⟩, hi, hr⟩ := Option.map_eq_some_iff.mp h
  have ht := insert_answered_allocated (s := s.with_pool b) H hcat (Or.inl hcc) hi ha
  rcases r1 with e' | _ | rid
  · cases hr
    exact ht
  · cases hr
    exact ht
  · cases hr

end

/-- The name `a` is registered already. -/
theorem a_second_create_leaves_everything : ∃ s t e, catalogMachine.Reach OwnRids s ∧
    s.create_answered [97] numbers none = some (.error e, t) ∧ Unchanged s t := by
  obtain ⟨s, hr, hp⟩ := reached_catalog 2 (l := [.create_table [97] numbers])
    (p := fun s => (s.tables [97]).isSome) (by decide +kernel)
  have hcall : s.create_answered [97] numbers none = some (.error (.thrown
      s!"Catalog::create_table: table with name {CatalogSystem.text [97]} already exists"), s) := if_pos hp
  exact ⟨s, s, _, hr, hcall,
    (a_create_that_throws_leaves_a_page_unless_its_name_is_registered (sound_reach hr) hcall).mpr hp⟩

/-- The table of a long name is not created, and page 2 is allocated. -/
def loses_second_page (s : CatalogSystem) : Bool :=
  match s.create_table (List.replicate 129 97) numbers none with
  | some (.error _, t) => decide (Allocated t.heap.pool.disk_manager 2 ∧
      ¬ Allocated s.heap.pool.disk_manager 2)
  | _ => false

/-- The row of a name of 129 bytes is refused once the page of its table is allocated. -/
theorem a_long_name_loses_a_page : ¬ ∀ (s t : CatalogSystem) (name : List UInt8) (schema : Schema)
    (tx : Option TransactionID) (e : Failure), catalogMachine.Reach OwnRids s →
    s.create_table name schema tx = some (.error e, t) → Unchanged s t := by
  intro hall
  obtain ⟨s, hr, hp⟩ := reached_catalog 2 (l := [])
    (p := loses_second_page) (by decide +kernel)
  unfold loses_second_page at hp
  split at hp
  · rename_i e t hcall
    obtain ⟨h2, h0⟩ := of_decide_eq_true hp
    exact h0 (((hall s t _ _ _ e hr hcall).pages 2).mp h2)
  · cases hp

end duck.catalog
