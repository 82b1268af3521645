-- The rollback of a transaction that runs alone and makes and drops tables: its
-- undo log leads back to the tables and to the rows that were there when it
-- began, but for the tables that it dropped, as long as it drops no table that
-- its own log still needs.
import DuckDbms.CatalogCalls
import DuckDbms.CatalogRows
import DuckDbms.CatalogUndo

open machine duck.slotted_page duck.disk_manager duck.buffer_pool duck.lock_manager
open duck.table_heap duck.table duck.tuple chain

namespace duck.catalog

/-! ## The runs of one transaction -/

/-- A transaction begins that runs alone: it has logged nothing, every lock is its own, and
nobody else has a page pinned. -/
structure Begun (tx : TransactionID) (s : CatalogSystem) : Prop where
  sound : Sound s
  idle : ∀ n, s.heap.outside n = 0
  frames : 2 ≤ s.heap.pool.pool_capacity
  alone : LocksAlone s.locks tx
  log : s.undo_log tx = []

def txMachine (tx : TransactionID) (s0 : CatalogSystem) : Machine TxSystem TxEvent where
  start d := d = ⟨s0, []⟩
  next d e := d.next tx e

/-- The RIDs are on pages of their table. -/
def TxOwn (d : TxSystem) : TxEvent → Prop
  | .get_tuple name rid | .delete_tuple name rid | .update_tuple name rid _ =>
    ∀ entry, d.system.tables name = some entry → RidOf d.system.heap.pool entry.table rid
  | _ => True

/-- A dropped table is one that the transaction did not create, and of whose rows its log knows
nothing. The tuple of an update has at most the bytes that `insert_tuple` lets through. -/
def LogStays (tx : TransactionID) (d : TxSystem) : TxEvent → Prop
  | .drop_table name => ∀ entry, d.system.tables name = some entry →
    .DropTableUndoRecord name ∉ d.system.undo_log tx ∧
      ∀ u, .row u ∈ d.system.undo_log tx → ¬ RidOf d.system.heap.pool entry.table u.rid
  | .update_tuple _ _ tuple => tuple.length ≤ 8180
  | _ => True

/-- The registered tables and the rows of the catalog are those from the begin without the dropped
ones, and the tables that are left have their tuples. -/
structure RolledBack (s0 : CatalogSystem) (dropped : List (List UInt8)) (t : CatalogSystem) :
    Prop where
  tables : ∀ name, t.tables name = if name ∈ dropped then none else s0.tables name
  row_gone : ∀ name ∈ dropped, ∀ entry, s0.tables name = some entry →
    t.catalog_rows entry.rid = none
  row_stays : ∀ rid, (∀ name ∈ dropped, ∀ entry, s0.tables name = some entry → entry.rid ≠ rid) →
    t.catalog_rows rid = s0.catalog_rows rid
  tuples : ∀ name entry h, name ∉ dropped → s0.tables name = some entry →
    entry.table.table_heap = some h →
    tuplesOf (rows (· = h) t.heap.pool) = tuplesOf (rows (· = h) s0.heap.pool)

/-! ## What the log leads back to -/

/-- The heaps that are there in the end. -/
def Survives (s0 : CatalogSystem) (dropped : List (List UInt8)) (h : Nat) : Prop :=
  s0.own h ∨ ∃ name entry, name ∉ dropped ∧ s0.tables name = some entry ∧
    entry.table.table_heap = some h

/-- The RID of the row of a table that was dropped. -/
def RowDropped (s0 : CatalogSystem) (dropped : List (List UInt8)) (rid : RID) : Prop :=
  ∃ name ∈ dropped, ∃ entry, s0.tables name = some entry ∧ entry.rid = rid

open Classical in
/-- What a RID of the heap reads in the end. -/
noncomputable def remains (s0 : CatalogSystem) (dropped : List (List UInt8)) (h : Nat) (rid : RID) :
    Option (List UInt8) :=
  if s0.own h ∧ RowDropped s0 dropped rid then none else tuplesOf (rows (· = h) s0.heap.pool) rid

/-- The before-images of the log, and the tuples that it has no image of, are what remains. -/
def Recovers (s0 : CatalogSystem) (dropped : List (List UInt8)) (heads : Nat → Prop)
    (b : BufferPoolManager) (log : List UndoRecord) : Prop :=
  ∀ h, Survives s0 dropped h → heads h ∧
    (∀ m, OnPath (succ s0.heap.pool) h m → OnPath (succ b) h m) ∧
    ∀ n slot, OnPath (succ b) h n →
      (beforeImage log ⟨some n, slot⟩).getD (tuplesOf (rows heads b) ⟨some n, slot⟩) =
        remains s0 dropped h ⟨some n, slot⟩

section
variable {s0 : CatalogSystem} {dropped : List (List UInt8)} {h n : Nat}
  {tables : List UInt8 → Option TableEntry} {heads heads' : Nat → Prop} {b b' : BufferPoolManager}
  {log log' : List UndoRecord}

theorem remains_off (hn : ¬ OnPath (succ s0.heap.pool) h n) (slot : Nat) :
    remains s0 dropped h ⟨some n, slot⟩ = none := by
  unfold remains
  split
  · rfl
  · apply tuplesOf_off
    rintro ⟨k, rfl, hp⟩
    exact hn hp

/-- A page that is not on a chain yet has nothing to be read. -/
theorem Recovers.before (J : Recovers s0 dropped heads b log) (L : LogOn tables b heads log)
    (hs : Survives s0 dropped h) (slot : Nat)
    (hn : OnPath (succ b) h n ∨ ¬ OnChain (succ b) heads n) :
    (beforeImage log ⟨some n, slot⟩).getD (tuplesOf (rows heads b) ⟨some n, slot⟩) =
      remains s0 dropped h ⟨some n, slot⟩ := by
  obtain ⟨hh, hgrows, hreads⟩ := J h hs
  rcases hn with hn | hoff
  · exact hreads n slot hn
  · rw [L.beforeImage_off hoff, tuplesOf_off hoff, remains_off]
    · rfl
    · intro hp
      exact hoff ⟨h, hh, hgrows n hp⟩

/-- A step that makes the chains longer, and whose records bring back what it changed. -/
theorem Recovers.step (J : Recovers s0 dropped heads b log) (L : LogOn tables b heads log)
    (hheads : ∀ k, Survives s0 dropped k → heads' k)
    (hpath : ∀ k, heads k → ∀ m, OnPath (succ b) k m → OnPath (succ b') k m)
    (hjoined : ∀ k, heads k → ∀ m, OnPath (succ b') k m →
      OnPath (succ b) k m ∨ ¬ OnChain (succ b) heads m)
    (himages : ∀ k, Survives s0 dropped k → ∀ n slot, OnPath (succ b') k n →
      (beforeImage log' ⟨some n, slot⟩).getD (tuplesOf (rows heads' b') ⟨some n, slot⟩) =
        (beforeImage log ⟨some n, slot⟩).getD (tuplesOf (rows heads b) ⟨some n, slot⟩)) :
    Recovers s0 dropped heads' b' log' := by
  intro k hs
  obtain ⟨hk, hgrows, _⟩ := J k hs
  refine ⟨hheads k hs, fun m hp => hpath k hk m (hgrows m hp), fun n slot hn => ?_⟩
  rw [himages k hs n slot hn]
  exact J.before L hs slot (hjoined k hk n hn)

end

/-! ## The images of one call -/

section
variable {R R' : Pages} {op : TableOp} {o : Option RID} {recs : List table.UndoRecord} {frames : Nat}

theorem beforeImage_nil (rid : RID) : beforeImage [] rid = none := rfl

theorem beforeImage_delete (rest : List UndoRecord) (rid rid' : RID) :
    beforeImage (.row (.DeleteUndoRecord rid) :: rest) rid' =
      (beforeImage rest rid').or (if rid = rid' then some none else none) := rfl

theorem beforeImage_restore (rest : List UndoRecord) (rid rid' : RID) (t : List UInt8) :
    beforeImage (.row (.RestoreUndoRecord rid t) :: rest) rid' =
      (beforeImage rest rid').or (if rid = rid' then some (some t) else none) := rfl

theorem beforeImage_rows_none {rid : RID} (h : ∀ u ∈ recs, u.rid ≠ rid) :
    beforeImage (recs.map .row) rid = none := by
  induction recs with
  | nil => rfl
  | cons u rest ih =>
    simp only [List.map_cons, beforeImage]
    rw [ih fun v hv => h v (List.mem_cons_of_mem _ hv), if_neg (h u List.mem_cons_self)]
    rfl

/-- The records of a call have the images of what it changed. -/
theorem logged_images (L : Logged R o R' recs) (rid : RID) :
    (beforeImage (recs.map .row) rid).getD (tuplesOf R' rid) = tuplesOf R rid := by
  cases L with
  | @inserted rid' t hplace =>
    rw [tuplesOf_placeRow hplace]
    simp only [List.map_cons, List.map_nil, beforeImage_delete, beforeImage_nil, Option.none_or]
    by_cases he : rid' = rid
    · subst he
      rw [if_pos rfl, tuplesOf_mayPlace hplace]
      rfl
    · rw [if_neg he, Function.update_of_ne (Ne.symm he)]
      rfl
  | @deleted rid' old hlive =>
    rw [tuplesOf_clear]
    simp only [List.map_cons, List.map_nil, beforeImage_restore, beforeImage_nil, Option.none_or]
    by_cases he : rid' = rid
    · subst he
      rw [if_pos rfl]
      simp only [tuplesOf, hlive, Option.join_some, Option.getD_some]
    · rw [if_neg he, Function.update_of_ne (Ne.symm he)]
      rfl
  | @updated rid' old t hlive =>
    simp only [List.map_cons, List.map_nil, beforeImage_delete, beforeImage_restore, beforeImage_nil,
      Option.none_or]
    by_cases he : rid' = rid
    · subst he
      rw [if_pos rfl]
      simp only [tuplesOf, hlive, Option.join_some, Option.getD_some, Option.some_or]
    · rw [if_neg he, if_neg he]
      simp only [tuplesOf, rowAt_putRow, if_neg (Ne.symm he), Option.or_none, Option.getD_none]
  | @moved rid' ret_rid old t hlive hplace =>
    rw [tuplesOf_placeRow hplace, tuplesOf_clear]
    simp only [List.map_cons, List.map_nil, beforeImage_delete, beforeImage_restore, beforeImage_nil,
      Option.none_or]
    by_cases he : rid' = rid
    · subst he
      rw [if_pos rfl]
      simp only [tuplesOf, hlive, Option.join_some, Option.getD_some, Option.some_or]
    · rw [if_neg he, Option.none_or]
      by_cases hr : ret_rid = rid
      · subst hr
        have hfree := tuplesOf_mayPlace hplace
        rw [tuplesOf_clear, Function.update_of_ne (Ne.symm he)] at hfree
        rw [if_pos rfl, hfree]
        rfl
      · rw [if_neg hr, Function.update_of_ne (Ne.symm hr), Function.update_of_ne (Ne.symm he)]
        rfl

theorem RowsLeft.images (L : RowsLeft op frames R R' recs)
    (hop : ∀ k rid t, op = .update_tuple k rid t → t.length ≤ 8180 ∧ 2 ≤ frames) (rid : RID) :
    (beforeImage (recs.map .row) rid).getD (tuplesOf R' rid) = tuplesOf R rid := by
  cases L with
  | kept => rfl
  | logged hlogged => exact logged_images hlogged rid
  | lost h _ hno => exact absurd (hop _ _ _ h) hno

theorem RowsLeft.frees (L : RowsLeft op frames R R' recs)
    (hop : ∀ k rid t, op = .update_tuple k rid t → t.length ≤ 8180 ∧ 2 ≤ frames)
    {log : List table.UndoRecord} (hlog : Frees log R) : Frees (recs ++ log) R' := by
  cases L with
  | kept => exact hlog
  | logged hlogged => exact hlogged.frees hlog
  | lost h _ hno => exact absurd (hop _ _ _ h) hno

theorem logged_ne_nil (L : Logged R o R' recs) : recs ≠ [] := by
  cases L <;> exact List.cons_ne_nil _ _

/-- A call without records has changed no row, unless it is an update. -/
theorem RowsLeft.unlogged (L : RowsLeft op frames R R' [])
    (hop : ∀ k rid t, op ≠ .update_tuple k rid t) : R' = R := by
  cases L with
  | kept => rfl
  | logged hlogged => exact absurd rfl (logged_ne_nil hlogged)
  | lost h _ _ => exact absurd h (hop _ _ _)

/-- The records of a call come on top of the log. -/
theorem getD_beforeImage (log : List UndoRecord) (l : List UndoRecord) (rid : RID)
    (image : Option (List UInt8)) : (beforeImage (l ++ log) rid).getD image =
      (beforeImage log rid).getD ((beforeImage l rid).getD image) := by
  rw [beforeImage_append]
  rcases beforeImage log rid with _ | image' <;> rfl

theorem LogOn.append_rows {tables : List UInt8 → Option TableEntry} {b : BufferPoolManager}
    {heads : Nat → Prop} {log : List UndoRecord} (L : LogOn tables b heads log)
    (hrecs : ∀ u ∈ recs, u.On heads b) : LogOn tables b heads (recs.map .row ++ log) := by
  induction recs with
  | nil => exact L
  | cons u rest ih =>
    exact ⟨hrecs u List.mem_cons_self, ih fun v hv => hrecs v (List.mem_cons_of_mem _ hv)⟩

theorem mem_rows_append {name : List UInt8} {log : List UndoRecord} :
    UndoRecord.DropTableUndoRecord name ∈ recs.map .row ++ log ↔ .DropTableUndoRecord name ∈ log := by
  simp

end

/-! ## What every call keeps -/

/-- The log of the transaction can be undone, and leads back to the tables and rows from when it
began, without the tables that it dropped. -/
structure Traced (tx : TransactionID) (s0 : CatalogSystem) (dropped : List (List UInt8))
    (s : CatalogSystem) : Prop where
  sound : Sound s
  own : s.catalog_table = s0.catalog_table
  idle : ∀ n, s.heap.outside n = 0
  frames : 2 ≤ s.heap.pool.pool_capacity
  alone : LocksAlone s.locks tx
  log_on : LogOn s.tables s.heap.pool s.heads (s.undo_log tx)
  tables : ∀ name, .DropTableUndoRecord name ∉ s.undo_log tx →
    s.tables name = if name ∈ dropped then none else s0.tables name
  created : ∀ name, .DropTableUndoRecord name ∈ s.undo_log tx →
    name ∈ dropped ∨ s0.tables name = none
  rows_kept : ∀ name entry, s.tables name = some entry →
    .DropTableUndoRecord name ∉ s.undo_log tx →
      (beforeImage (s.undo_log tx) entry.rid).getD none = none
  recovers : Recovers s0 dropped s.heads s.heap.pool (s.undo_log tx)
  frees : Frees (rowRecords (s.undo_log tx)) (rows s.heads s.heap.pool)

/-- A catalog is sound when its pool and its tables are. -/
theorem sound_congr {s t : CatalogSystem} (S : Sound s) (hheap : t.heap = s.heap)
    (hown : t.catalog_table = s.catalog_table) (htables : t.tables = s.tables) : Sound t := by
  obtain ⟨heap, locks, undo_log, catalog_table, tables⟩ := t
  simp only at hheap hown htables
  subst hheap hown htables
  exact ⟨S.heap, S.metadata, S.own, S.table, S.apart⟩

theorem heads_congr {s t : CatalogSystem} (hown : t.catalog_table = s.catalog_table)
    (htables : t.tables = s.tables) : t.heads = s.heads := by
  unfold CatalogSystem.heads
  rw [hown, htables]

theorem own_eq {s : CatalogSystem} {c : Nat} (hc : s.catalog_table.table_heap = some c) :
    s.own = (· = c) := by
  funext k
  unfold CatalogSystem.own
  rw [hc, Option.some.injEq]
  exact propext eq_comm

section
variable {tx : TransactionID} {s0 s t : CatalogSystem} {dropped : List (List UInt8)}
  {name : List UInt8} {entry : TableEntry} {b : BufferPoolManager} {recs : List table.UndoRecord}

theorem traced_start (B : Begun tx s0) : Traced tx s0 [] s0 := by
  have hlog := B.log
  refine ⟨B.sound, rfl, B.idle, B.frames, B.alone, ?_, fun name _ => by simp, ?_, ?_, ?_, ?_⟩
  · rw [hlog]
    trivial
  · rw [hlog]
    intro name hm
    cases hm
  · rw [hlog]
    exact fun _ _ _ _ => rfl
  · rw [hlog]
    intro h hs
    have hh : s0.heads h := by
      rcases hs with hown | ⟨name, entry, _, he, hx⟩
      · exact Or.inl hown
      · exact Or.inr ⟨name, entry, he, hx⟩
    refine ⟨hh, fun _ => id, fun n slot hn => ?_⟩
    have hone : OnChain (succ s0.heap.pool) (· = h) n := ⟨h, rfl, hn⟩
    unfold remains
    rw [if_neg, tuplesOf_on ⟨h, hh, hn⟩, tuplesOf_on hone]
    · rfl
    · rintro ⟨_, name, hm, _⟩
      cases hm
  · rw [hlog]
    trivial

/-- A table that the transaction did not create was there when it began. -/
theorem Traced.was_there (T : Traced tx s0 dropped s) (he : s.tables name = some entry)
    (hm : .DropTableUndoRecord name ∉ s.undo_log tx) :
    s0.tables name = some entry ∧ name ∉ dropped := by
  have htable := T.tables name hm
  rw [he] at htable
  split at htable
  · cases htable
  · exact ⟨htable.symm, ‹_›⟩

/-- A call that changes rows and logs how to bring them back. -/
theorem Traced.ran (T : Traced tx s0 dropped s)
    (R : Ran True s.heads s.heap.outside (fun _ => False) s.heap.pool b)
    (hheap : t.heap = ⟨b, s.heap.outside⟩) (hown : t.catalog_table = s.catalog_table)
    (htables : t.tables = s.tables) (halone : LocksAlone t.locks tx)
    (hlog : t.undo_log tx = recs.map .row ++ s.undo_log tx) (hrecs : ∀ u ∈ recs, u.On s.heads b)
    (hapart : ∀ name entry, s.tables name = some entry →
      .DropTableUndoRecord name ∉ s.undo_log tx → ∀ u ∈ recs, u.rid ≠ entry.rid)
    (himages : ∀ rid, (beforeImage (recs.map .row) rid).getD (tuplesOf (rows s.heads b) rid) =
      tuplesOf (rows s.heads s.heap.pool) rid)
    (hfrees : Frees (recs ++ rowRecords (s.undo_log tx)) (rows s.heads b)) :
    Traced tx s0 dropped t := by
  have hmem : ∀ name, UndoRecord.DropTableUndoRecord name ∈ t.undo_log tx ↔
      .DropTableUndoRecord name ∈ s.undo_log tx := by
    intro name
    rw [hlog]
    exact mem_rows_append
  have hheads := heads_congr hown htables
  have hpool : t.heap.pool = b := by rw [hheap]
  refine ⟨sound_congr (T.sound.ran R) hheap hown htables, hown.trans T.own, ?_, ?_, halone, ?_, ?_,
    ?_, ?_, ?_, ?_⟩
  · rw [hheap]
    exact T.idle
  · rw [hpool, R.capacity]
    exact T.frames
  · rw [hlog, hheads, hpool, htables]
    exact (T.log_on.mono (fun _ => id) R.onPath fun _ _ => rfl).append_rows hrecs
  · intro name hm
    rw [htables]
    exact T.tables name (mt (hmem name).mpr hm)
  · intro name hm
    exact T.created name ((hmem name).mp hm)
  · intro name entry he hm
    rw [htables] at he
    have hm' := mt (hmem name).mpr hm
    rw [hlog, beforeImage_append, beforeImage_rows_none (hapart name entry he hm'), Option.or_none]
    exact T.rows_kept name entry he hm'
  · rw [hlog, hheads, hpool]
    refine T.recovers.step T.log_on (fun k hs => (T.recovers k hs).1) R.onPath ?_ ?_
    · intro k hk m hp
      rcases R.joined k hk m hp with hp | hno
      · exact Or.inl hp
      · exact Or.inr fun hon => hno (T.sound.heap.pages m hon).2
    · intro k hs n slot hn
      rw [getD_beforeImage, himages]
  · rw [hlog, hheads, hpool, rowRecords_append_rows]
    exact hfrees

/-- A call of a registered table. -/
theorem Traced.called (T : Traced tx s0 dropped s) (he : s.tables name = some entry) {h : Nat}
    (hx : entry.table.table_heap = some h) {op : TableOp} {locks : LockSystem}
    (C : CallLeft s.heads h s tx op b locks recs)
    (hop : ∀ k rid t, op = .update_tuple k rid t → t.length ≤ 8180) :
    Traced tx s0 dropped (s.after b locks tx recs) := by
  have hh : s.heads h := Or.inr ⟨name, entry, he, hx⟩
  have hlog : (s.after b locks tx recs).undo_log tx = recs.map .row ++ s.undo_log tx := by
    simp [CatalogSystem.after, CatalogSystem.push_undo]
  have hop' : ∀ k rid t, op = .update_tuple k rid t →
      t.length ≤ 8180 ∧ 2 ≤ s.heap.pool.pool_capacity := fun k rid t h => ⟨hop k rid t h, T.frames⟩
  refine T.ran C.ran rfl rfl rfl C.alone hlog ?_ ?_ (C.left.images hop') (C.left.frees hop' T.frees)
  · exact fun u hu => (C.records_on u hu).mono (fun _ hk => hk ▸ hh) fun _ _ _ => id
  · -- the row of a table is on the chain of the catalog
    intro name' entry' he' _ u hu heq
    obtain ⟨c, n, hc, hn, hp⟩ := (T.sound.table name' entry' he').2.2
    have hrid : RidOn (· = h) b u.rid := by
      have hon := C.records_on u hu
      cases u with
      | DeleteUndoRecord rid => exact hon
      | RestoreUndoRecord rid t => exact hon.1
    obtain ⟨m, hm, k, rfl, hkm⟩ := hrid
    rw [heq, hn] at hm
    cases hm
    obtain rfl := C.ran.heap.forest.unique hh (Or.inl hc) hkm (C.ran.onPath c (Or.inl hc) n hp)
    exact (T.sound.table name entry he).2.1 (hx.trans hc.symm)

/-! ## Tables that the transaction makes -/

/-- The new page has no rows. -/
theorem Created.rows_eq {x : Nat} {b1 : BufferPoolManager} (C : Created s x b1) (S : Sound s) :
    rows (fun h => s.heads h ∨ h = x) b1 = rows s.heads s.heap.pool := by
  funext n
  by_cases hn : OnChain (succ s.heap.pool) s.heads n
  · obtain ⟨k, hk, hp⟩ := hn
    have hne : n ≠ x := by
      rintro rfl
      exact C.new S ⟨k, hk, hp⟩
    rw [rows_on ⟨k, hk, hp⟩, rows_on ⟨k, Or.inl hk, (C.onPath k hk n).mpr hp⟩, C.contents_eq,
      Function.update_of_ne hne]
  · rw [rows_off hn]
    by_cases hx : n = x
    · subst hx
      rw [rows_on ⟨n, Or.inr rfl, (C.onPath_new n).mpr rfl⟩, C.contents_eq, Function.update_self]
      rfl
    · apply rows_off
      rintro ⟨k, hk | rfl, hp⟩
      · exact hn ⟨k, hk, (C.onPath k hk n).mp hp⟩
      · exact hx ((C.onPath_new n).mp hp)

section
variable {x : Nat} {b1 : BufferPoolManager}

theorem Created.joined (C : Created s x b1) (S : Sound s)
    (R : Ran True (fun h => s.heads h ∨ h = x) s.heap.outside (fun _ => False) b1 b) {k : Nat}
    (hk : s.heads k) {m : Nat} (hp : OnPath (succ b) k m) :
    OnPath (succ s.heap.pool) k m ∨ ¬ OnChain (succ s.heap.pool) s.heads m := by
  rcases R.joined k (Or.inl hk) m hp with hp | hno
  · exact Or.inl ((C.onPath k hk m).mp hp)
  · exact Or.inr fun hon => hno (C.allocated m (S.heap.pages m hon).2)

theorem Created.grows (C : Created s x b1)
    (R : Ran True (fun h => s.heads h ∨ h = x) s.heap.outside (fun _ => False) b1 b) {k : Nat}
    (hk : s.heads k) {m : Nat} (hp : OnPath (succ s.heap.pool) k m) : OnPath (succ b) k m :=
  R.onPath k (Or.inl hk) m ((C.onPath k hk m).mpr hp)

/-- A page that was taken for a table that could not be registered. -/
theorem Traced.lost (T : Traced tx s0 dropped s) (C : Created s x b1)
    (R : Ran True (fun h => s.heads h ∨ h = x) s.heap.outside (fun _ => False) b1 b)
    (hrows : rows (fun h => s.heads h ∨ h = x) b = rows (fun h => s.heads h ∨ h = x) b1)
    (hheap : t.heap = ⟨b, s.heap.outside⟩) (hown : t.catalog_table = s.catalog_table)
    (htables : t.tables = s.tables) (halone : LocksAlone t.locks tx)
    (hlog : t.undo_log tx = s.undo_log tx) : Traced tx s0 dropped t := by
  have hheads := heads_congr hown htables
  have hpool : t.heap.pool = b := by rw [hheap]
  -- the page is on no chain that is left
  have hleft : rows s.heads b = rows s.heads s.heap.pool := by
    funext n
    by_cases hn : OnChain (succ b) s.heads n
    · obtain ⟨k, hk, hp⟩ := hn
      rw [← C.rows_eq T.sound, ← hrows, rows_on ⟨k, hk, hp⟩, rows_on ⟨k, Or.inl hk, hp⟩]
    · rw [rows_off hn, rows_off]
      rintro ⟨k, hk, hp⟩
      exact hn ⟨k, hk, C.grows R hk hp⟩
  refine ⟨sound_congr (C.sound T.sound R) hheap hown htables, hown.trans T.own, ?_, ?_, halone, ?_,
    ?_, ?_, ?_, ?_, ?_⟩
  · rw [hheap]
    exact T.idle
  · rw [hpool, R.capacity, C.capacity]
    exact T.frames
  · rw [hlog, hheads, hpool, htables]
    exact T.log_on.mono (fun _ => id) (fun _ hk _ hp => C.grows R hk hp) fun _ _ => rfl
  · rw [hlog, htables]
    exact T.tables
  · rw [hlog]
    exact T.created
  · rw [hlog, htables]
    exact T.rows_kept
  · rw [hlog, hheads, hpool]
    refine T.recovers.step T.log_on (fun k hs => (T.recovers k hs).1)
      (fun _ hk _ hp => C.grows R hk hp) (fun _ hk _ hp => C.joined T.sound R hk hp) ?_
    intro k hs n slot hn
    rw [hleft]
  · rw [hlog, hheads, hpool, hleft]
    exact T.frees

/-- A table that is registered, with the record that drops it again. -/
theorem Traced.register (T : Traced tx s0 dropped s) (C : Created s x b1)
    (hnew : s.tables name = none) {c : Nat} (hc : s.catalog_table.table_heap = some c)
    {bytes : List UInt8} {rid : RID} {locks : LockSystem}
    (K : CallLeft (fun h => s.heads h ∨ h = x) c (s.with_pool b1) tx
      (.insert_tuple (some c) bytes) b locks [.DeleteUndoRecord rid]) (schema : Schema) :
    Traced tx s0 dropped (((s.with_pool b1).after b locks tx [.DeleteUndoRecord rid]).register name
      ⟨rid, ⟨some x, schema⟩⟩ tx) := by
  have R : Ran True (fun h => s.heads h ∨ h = x) s.heap.outside (fun _ => False) b1 b := K.ran
  have hlog : (((s.with_pool b1).after b locks tx [.DeleteUndoRecord rid]).register name
      ⟨rid, ⟨some x, schema⟩⟩ tx).undo_log tx =
        .DropTableUndoRecord name :: .row (.DeleteUndoRecord rid) :: s.undo_log tx := by
    simp [CatalogSystem.after, CatalogSystem.push_undo, CatalogSystem.register,
      CatalogSystem.set_table, CatalogSystem.with_pool]
  generalize ht : ((s.with_pool b1).after b locks tx [.DeleteUndoRecord rid]).register name
    ⟨rid, ⟨some x, schema⟩⟩ tx = t at hlog ⊢
  have hheap : t.heap = ⟨b, s.heap.outside⟩ := by rw [← ht]; rfl
  have hown : t.catalog_table = s.catalog_table := by rw [← ht]; rfl
  have hlocks : t.locks = locks := by rw [← ht]; rfl
  have htables : t.tables = Function.update s.tables name (some ⟨rid, ⟨some x, schema⟩⟩) := by
    rw [← ht]
    rfl
  have hpool : t.heap.pool = b := by rw [hheap]
  -- the heads are those from before, and the new page
  have hheads : ∀ k, t.heads k ↔ s.heads k ∨ k = x := heads_with hown htables hnew rfl
  have hnox : ¬ s.heads x := fun hh =>
    C.new T.sound ⟨x, hh, T.sound.heap.forest.onPath_head hh⟩
  have hno := T.log_on.not_mem hnew
  have hon : RidOn (· = c) b rid := K.records_on _ (List.mem_singleton.mpr rfl)
  have himages : ∀ rid', (beforeImage [.row (.DeleteUndoRecord rid)] rid').getD
      (tuplesOf (rows (fun h => s.heads h ∨ h = x) b) rid') =
        tuplesOf (rows (fun h => s.heads h ∨ h = x) b1) rid' :=
    K.left.images fun _ _ _ h => by cases h
  have hmem : ∀ name', UndoRecord.DropTableUndoRecord name' ∈ t.undo_log tx ↔
      name' = name ∨ .DropTableUndoRecord name' ∈ s.undo_log tx := by
    intro name'
    rw [hlog]
    simp
  refine ⟨?_, hown.trans T.own, ?_, ?_, ?_, ?_, fun name' hm => ?_, fun name' hm => ?_,
    fun name' entry he hm => ?_, ?_, ?_⟩
  · have hrid : RidOf b s.catalog_table rid := by
      obtain ⟨n, hn, k, rfl, hp⟩ := hon
      exact ⟨k, n, hc, hn, hp⟩
    exact sound_congr (C.register T.sound R hnew hrid schema) hheap hown htables
  · rw [hheap]
    exact T.idle
  · rw [hpool, R.capacity]
    show 2 ≤ b1.pool_capacity
    rw [C.capacity]
    exact T.frames
  · rw [hlocks]
    exact K.alone
  · rw [hlog, hpool, htables]
    exact T.log_on.register hnew rfl hnox hheads (fun _ hk _ hp => C.grows R hk hp)
      (hon.mono (fun k hk => hk ▸ Or.inl hc) fun _ _ _ => id)
  · rw [hmem, not_or] at hm
    rw [htables, Function.update_of_ne hm.1]
    exact T.tables name' hm.2
  · rcases (hmem name').mp hm with rfl | hm
    · have hnone := T.tables name' hno
      rw [hnew] at hnone
      split at hnone
      · exact Or.inl ‹_›
      · exact Or.inr hnone.symm
    · exact T.created name' hm
  · rw [hmem, not_or] at hm
    rw [htables, Function.update_of_ne hm.1] at he
    rw [hlog]
    show (beforeImage (.row (.DeleteUndoRecord rid) :: s.undo_log tx) entry.rid).getD none = none
    have hkept := T.rows_kept name' entry he hm.2
    rw [beforeImage_delete]
    generalize beforeImage (s.undo_log tx) entry.rid = o at hkept ⊢
    rcases o with _ | image
    · rw [Option.none_or]
      split <;> rfl
    · rw [Option.some_or]
      exact hkept
  · rw [hpool]
    refine T.recovers.step T.log_on (fun k hs => (hheads k).mpr (Or.inl (T.recovers k hs).1))
      (fun _ hk _ hp => C.grows R hk hp) (fun _ hk _ hp => C.joined T.sound R hk hp) ?_
    intro k hs n slot hn
    have hk := (T.recovers k hs).1
    rw [hlog]
    show (beforeImage ([.row (.DeleteUndoRecord rid)] ++ s.undo_log tx) _).getD _ = _
    rw [getD_beforeImage, tuplesOf_on ⟨k, (hheads k).mpr (Or.inl hk), hn⟩,
      ← tuplesOf_on (⟨k, Or.inl hk, hn⟩ : OnChain (succ b) (fun h => s.heads h ∨ h = x) n),
      ← C.rows_eq T.sound]
    exact congrArg _ (himages _)
  · have hfrees := T.frees
    rw [← C.rows_eq T.sound] at hfrees
    rw [hlog, hpool, show t.heads = fun h => s.heads h ∨ h = x from funext fun k => propext (hheads k)]
    exact K.left.frees (fun _ _ _ h => by cases h) hfrees

end

theorem Traced.create_table (T : Traced tx s0 dropped s) {schema : Schema}
    {r : Except Failure Unit} (h : s.create_table name schema tx = some (r, t)) :
    Traced tx s0 dropped t := by
  unfold CatalogSystem.create_table at h
  split at h
  · cases h
    exact T
  rename_i hnew
  have hnone : s.tables name = none := by simpa using hnew
  rcases T.sound.create with ⟨x, b1, hcreate, C⟩ | ⟨e, b1, _, hall, _⟩
  swap
  · exact absurd hall (not_allPinned_idle T.sound.heap.store.inv
      (Nat.le_trans (by omega) T.frames) T.idle)
  rw [hcreate] at h
  simp only at h
  have hlost := T.lost (t := s.with_pool b1) C (ran_refl C.heap) rfl rfl rfl rfl T.alone rfl
  split at h
  · cases h
    exact hlost
  rename_i entry _
  obtain ⟨⟨r1, s1⟩, hinsert, h⟩ := Option.map_eq_some_iff.mp h
  unfold CatalogSystem.insert_entry at hinsert
  simp only at hinsert
  split at hinsert
  · cases hinsert
    cases h
    exact hlost
  rename_i bytes _
  obtain ⟨c, hc, hcc⟩ := T.sound.catalog_head
  obtain ⟨placed, b, locks, recs, hcall, K, rfl⟩ := insert_alone (s := s.with_pool b1) C.heap
    T.alone (Or.inl hcc) bytes
  have hcall' : (s.with_pool b1).table_call tx
      (.insert_tuple (s.with_pool b1).catalog_table.table_heap bytes) =
        some (placed.map .placed, (s.with_pool b1).after b locks tx
          (placed.toOption.join.toList.map .DeleteUndoRecord)) := by
    show (s.with_pool b1).table_call tx (.insert_tuple s.catalog_table.table_heap bytes) = _
    rw [hc]
    exact hcall
  rw [hcall', Option.bind_some] at hinsert
  -- without a RID nothing was logged
  have hnothing : placed.toOption.join = none →
      Traced tx s0 dropped ((s.with_pool b1).after b locks tx []) := by
    intro hno
    rw [hno] at K
    have hrows := K.left.unlogged fun _ _ _ h => by cases h
    refine T.lost C K.ran hrows rfl rfl rfl K.alone ?_
    simp [CatalogSystem.after, CatalogSystem.push_undo, CatalogSystem.with_pool]
  rcases placed with e | _ | rid
  · cases hinsert
    cases h
    exact hnothing rfl
  · cases hinsert
    cases h
    exact hnothing rfl
  · cases hinsert
    cases h
    exact T.register C hnone hc K schema

/-! ## Tables that the transaction drops -/

/-- A delete of a row returns `true` if the row is gone, and changes nothing otherwise. -/
theorem delete_row_cases {heads : Nat → Prop} {pins : Nat → Nat} {pending : Nat → Prop}
    {b : BufferPoolManager} (H : HeapState True pins pending heads b) {rid : RID}
    (hon : RidOn heads b rid) :
    ∃ r b', Table.delete_tuple b rid = (r, b') ∧ Ran True heads pins pending b b' ∧
      (r = .ok true ∧ rows heads b' = putRow (rows heads b) rid none ∨
        r ≠ .ok true ∧ rows heads b' = rows heads b) := by
  unfold Table.delete_tuple
  obtain ⟨b1, R1, hrows1, ⟨old, hg, _⟩ | hg⟩ := get_spec H hon
  · obtain ⟨b2, R2, ⟨hd, hrows2, _⟩ | ⟨hd, hrows2, _⟩⟩ := delete_spec R1.heap (hon.ran R1)
    · simp only [hg, hd]
      exact ⟨_, b2, rfl, R1.trans R2, Or.inl ⟨rfl, by rw [hrows2, hrows1]⟩⟩
    · simp only [hg, hd]
      exact ⟨_, b2, rfl, R1.trans R2, Or.inr ⟨by simp [raised], by rw [hrows2, hrows1]⟩⟩
  · simp only [hg]
    exact ⟨_, b1, rfl, R1, Or.inr ⟨by simp, hrows1⟩⟩

/-- The tables and the rows that are left when a table is dropped. -/
theorem Traced.drops (T : Traced tx s0 dropped s) (B : Begun tx s0)
    (he : s.tables name = some entry) (hno : .DropTableUndoRecord name ∉ s.undo_log tx)
    (hrecs : ∀ u, .row u ∈ s.undo_log tx → ¬ RidOf s.heap.pool entry.table u.rid)
    (R : Ran True s.heads s.heap.outside (fun _ => False) s.heap.pool b)
    (hrow : rows s.heads b = putRow (rows s.heads s.heap.pool) entry.rid none) {x : Nat}
    (hx : entry.table.table_heap = some x) {l : List Nat} (hl : Path (succ b) (some x) l)
    {b' : BufferPoolManager}
    (D : Dropped True (fun h => s.heads h ∧ h ≠ x) s.heap.outside (fun _ => False) l b b') :
    Traced tx s0 (name :: dropped) ((s.with_pool b').set_table name none) := by
  obtain ⟨hs0, _⟩ := T.was_there he hno
  have hh : s.heads x := Or.inr ⟨name, entry, he, hx⟩
  obtain ⟨hpath, St⟩ := (T.sound.ran R).gives_up he hx hl D
  have hpath : ∀ h, s.heads h → h ≠ x → ∀ m, OnPath (succ b') h m ↔ OnPath (succ b) h m := hpath
  have htables : ∀ name', name' ≠ name →
      ((s.with_pool b').set_table name none).tables name' = s.tables name' := fun name' hn =>
    Function.update_of_ne hn _ _
  -- the heaps that are there in the end are not the dropped one
  have hsurvives : ∀ h, Survives s0 (name :: dropped) h → Survives s0 dropped h ∧ h ≠ x := by
    rintro h (hown | ⟨name', entry', hm, he', hx'⟩)
    · refine ⟨Or.inl hown, ?_⟩
      rintro rfl
      refine (T.sound.table name entry he).2.1 (hx.trans ?_)
      rw [T.own]
      exact hown.symm
    · rw [List.mem_cons, not_or] at hm
      refine ⟨Or.inr ⟨name', entry', hm.2, he', hx'⟩, ?_⟩
      rintro rfl
      exact hm.1 (B.sound.apart name' name entry' entry he' hs0 (hx'.trans hx.symm))
  have hoff : LogOn s.tables b (fun k => s.heads k ∧ k ≠ x) (s.undo_log tx) := by
    refine (T.log_on.without (x := x) fun u hm hon => ?_).mono (fun _ => id)
      (fun k hk => R.onPath k hk.1) fun _ _ => rfl
    obtain ⟨n, hn, k, rfl, hp⟩ := hon
    exact hrecs u hm ⟨k, n, hx, hn, hp⟩
  refine ⟨St, T.own, T.idle, ?_, T.alone, ?_, fun name' hm => ?_, fun name' hm => ?_,
    fun name' entry' he' hm => ?_, ?_, ?_⟩
  · show 2 ≤ b'.pool_capacity
    rw [D.frames, R.capacity]
    exact T.frames
  · refine hoff.mono (fun k hk => (T.sound.heads_without he hx k).mpr hk)
      (fun k hk m hp => (hpath k hk.1 hk.2 m).mpr hp) fun name' hm => htables name' ?_
    rintro rfl
    exact hno hm
  · by_cases hn : name' = name
    · subst hn
      rw [if_pos List.mem_cons_self]
      exact Function.update_self ..
    · rw [htables name' hn, T.tables name' hm]
      simp [hn]
  · exact (T.created name' hm).imp_left (List.mem_cons_of_mem _)
  · have hn : name' ≠ name := by
      rintro rfl
      rw [show ((s.with_pool b').set_table name' none).tables name' = none from
        Function.update_self ..] at he'
      cases he'
    rw [htables name' hn] at he'
    exact T.rows_kept name' entry' he' hm
  · intro h hs
    obtain ⟨hs', hne⟩ := hsurvives h hs
    obtain ⟨hk, hgrows, _⟩ := T.recovers h hs'
    have hk' : ((s.with_pool b').set_table name none).heads h :=
      (T.sound.heads_without he hx h).mpr ⟨hk, hne⟩
    refine ⟨hk', fun m hp => (hpath h hk hne m).mpr (R.onPath h hk m (hgrows m hp)), ?_⟩
    intro n slot hn
    have hn1 : OnPath (succ b) h n := (hpath h hk hne n).mp hn
    have hnl : n ∉ l := by
      intro hm
      exact hne (R.heap.forest.unique hk hh hn1 ⟨l, hl, hm⟩)
    have hread : tuplesOf (rows ((s.with_pool b').set_table name none).heads b') ⟨some n, slot⟩ =
        Function.update (tuplesOf (rows s.heads s.heap.pool)) entry.rid none ⟨some n, slot⟩ := by
      have hon : OnChain (succ b') ((s.with_pool b').set_table name none).heads n := ⟨h, hk', hn⟩
      rw [tuplesOf_on hon, D.same n hnl, ← tuplesOf_on ⟨h, hk, hn1⟩, hrow, tuplesOf_clear]
    show (beforeImage (s.undo_log tx) _).getD (tuplesOf (rows _ b') _) = _
    rw [hread]
    by_cases hrid : (⟨some n, slot⟩ : RID) = entry.rid
    · -- the row of the dropped table is on the chain of the catalog
      rw [hrid, Function.update_self, T.rows_kept name entry he hno, remains, if_pos]
      obtain ⟨c, m, hc, hm, hp⟩ := (T.sound.table name entry he).2.2
      rw [← hrid] at hm
      cases hm
      obtain rfl := R.heap.forest.unique hk (Or.inl hc) hn1 (R.onPath c (Or.inl hc) n hp)
      rw [T.own] at hc
      exact ⟨hc, name, List.mem_cons_self, entry, hs0, rfl⟩
    · rw [Function.update_of_ne hrid, T.recovers.before T.log_on hs' slot]
      · have hsame : RowDropped s0 dropped ⟨some n, slot⟩ ↔
            RowDropped s0 (name :: dropped) ⟨some n, slot⟩ := by
          constructor
          · rintro ⟨name', hm, entry', he', heq⟩
            exact ⟨name', List.mem_cons_of_mem _ hm, entry', he', heq⟩
          · rintro ⟨name', hm, entry', he', heq⟩
            rcases List.mem_cons.mp hm with rfl | hm
            · rw [hs0] at he'
              cases he'
              exact absurd heq.symm hrid
            · exact ⟨name', hm, entry', he', heq⟩
        unfold remains
        by_cases hd : s0.own h ∧ RowDropped s0 dropped ⟨some n, slot⟩
        · rw [if_pos hd, if_pos (hd.imp_right hsame.mp)]
        · rw [if_neg hd, if_neg (mt (And.imp_right hsame.mpr) hd)]
      · rcases R.joined h hk n hn1 with hp | hfresh
        · exact Or.inl hp
        · exact Or.inr fun hon => hfresh (T.sound.heap.pages n hon).2
  · have hfrees := T.frees.mono (keepsFree_clear _ _ entry.rid)
    rw [← hrow] at hfrees
    exact hfrees.mono (hoff.keepsFree
      (fun k hk hne m hp hm => hne (R.heap.forest.unique hk hh hp ⟨l, hl, hm⟩))
      D.same hpath (T.sound.heads_without he hx))

/-- A drop that does not come to its end changes no table and no row. -/
theorem Traced.drop_table (T : Traced tx s0 dropped s) (B : Begun tx s0)
    (hok : LogStays tx ⟨s, dropped⟩ (.drop_table name)) {r : Except Failure Bool}
    (h : s.drop_table name = some (r, t)) :
    r = .ok true ∧ Traced tx s0 (name :: dropped) t ∨ r ≠ .ok true ∧ Traced tx s0 dropped t := by
  unfold CatalogSystem.drop_table at h
  rcases he : s.tables name with _ | entry
  · rw [he] at h
    cases h
    exact Or.inr ⟨by simp, T⟩
  obtain ⟨hno, hrecs⟩ := hok entry he
  have hon : RidOn s.heads s.heap.pool entry.rid :=
    (T.sound.table name entry he).2.2.onChain fun k hk => Or.inl hk
  obtain ⟨r1, b, hd, R, hrows⟩ := delete_row_cases T.sound.heap hon
  simp only [he, hd] at h
  rcases hrows with ⟨rfl, hrow⟩ | ⟨hr1, hsame⟩
  · obtain ⟨⟨r2, t2⟩, hentry, h⟩ := Option.map_eq_some_iff.mp h
    rcases Sound.drop_entry_cases (T.sound.ran R) he "Catalog::drop_table" with
      ⟨x, l, b', _, hd2, hx, _, hl, _, D, _⟩ | ⟨_, b', _, hall, K, _⟩
    · rw [hd2] at hentry
      cases hentry
      cases h
      exact Or.inl ⟨rfl, T.drops B he hno hrecs R hrow hx hl D⟩
    · refine absurd hall (not_allPinned_idle K.heap.store.inv ?_ T.idle)
      have hk : b'.pool_capacity = s.heap.pool.pool_capacity := K.frames.trans R.capacity
      rw [hk]
      exact Nat.le_trans (by omega) T.frames
  · have T1 : Traced tx s0 dropped (s.with_pool b) :=
      T.ran R rfl rfl rfl T.alone (show _ = List.map .row [] ++ s.undo_log tx from rfl) (by simp)
        (by simp) (fun rid => by
          rw [hsame]
          rfl) (by rw [hsame]; exact T.frees)
    rcases r1 with e | _ | _
    · cases h
      exact Or.inr ⟨by simp, T1⟩
    · cases h
      exact Or.inr ⟨by simp, T1⟩
    · exact absurd rfl hr1

/-! ## Whole transactions -/

/-- A call of a registered table. -/
theorem Traced.table_call {d d' : TxSystem} (T : Traced tx s0 d.dropped d.system)
    (op : PageID → TableOp) (h : d.table_call tx name op = some d')
    (hcall : ∀ entry k, d.system.tables name = some entry → entry.table.table_heap = some k →
      d.system.heads k → ∃ r b locks recs, d.system.table_call tx (op (some k)) =
          some (r, d.system.after b locks tx recs) ∧
        CallLeft d.system.heads k d.system tx (op (some k)) b locks recs)
    (hop : ∀ k k' rid t, op k = .update_tuple k' rid t → t.length ≤ 8180) :
    Traced tx s0 d'.dropped d'.system := by
  obtain ⟨entry, he, h⟩ := Option.bind_eq_some_iff.mp h
  obtain ⟨k, hk, hh⟩ := T.sound.head he
  obtain ⟨r, b, locks, recs, hc, K⟩ := hcall entry k he hk hh
  rw [hk, hc] at h
  cases h
  exact T.called he hk K fun k' rid t => hop _ k' rid t

theorem Traced.next {d d' : TxSystem} (T : Traced tx s0 d.dropped d.system) (B : Begun tx s0)
    {e : TxEvent} (hown : TxOwn d e) (hok : LogStays tx d e) (h : d.next tx e = some d') :
    Traced tx s0 d'.dropped d'.system := by
  have hrid : ∀ {rid : RID} {entry : TableEntry} {k : Nat}, entry.table.table_heap = some k →
      RidOf d.system.heap.pool entry.table rid → RidOn (· = k) d.system.heap.pool rid := by
    rintro rid entry k hk ⟨k', n, hk', hn, hp⟩
    rw [hk] at hk'
    cases hk'
    exact ⟨n, hn, k, rfl, hp⟩
  cases e with
  | create_table name schema =>
    obtain ⟨⟨r, c⟩, hc, rfl⟩ := Option.map_eq_some_iff.mp h
    exact T.create_table hc
  | drop_table name =>
    obtain ⟨⟨r, c⟩, hc, hd⟩ := Option.map_eq_some_iff.mp h
    rcases T.drop_table B hok hc with ⟨rfl, T'⟩ | ⟨hr, T'⟩
    · cases hd
      exact T'
    · rcases r with e | _ | _
      · cases hd
        exact T'
      · cases hd
        exact T'
      · exact absurd rfl hr
  | insert_tuple name tuple =>
    refine T.table_call (fun k => .insert_tuple k tuple) h (fun entry k he hk hh => ?_) fun _ _ _ _ h => by cases h
    obtain ⟨r, b, locks, recs, hc, K, _⟩ := insert_alone T.sound.heap T.alone hh tuple
    exact ⟨_, b, locks, recs, hc, K⟩
  | get_tuple name rid =>
    refine T.table_call (fun _ => .get_tuple rid) h (fun entry k he hk hh => ?_) fun _ _ _ _ h => by cases h
    exact get_alone T.sound.heap T.alone hh (hrid hk (hown entry he))
  | delete_tuple name rid =>
    refine T.table_call (fun _ => .delete_tuple rid) h (fun entry k he hk hh => ?_) fun _ _ _ _ h => by cases h
    exact delete_alone T.sound.heap T.alone hh (hrid hk (hown entry he))
  | update_tuple name rid tuple =>
    have hlen : tuple.length ≤ 8180 := hok
    refine T.table_call (fun k => .update_tuple k rid tuple) h (fun entry k he hk hh => ?_)
      fun _ _ _ t h => by cases h; exact hlen
    exact update_alone T.sound.heap T.alone hh (hrid hk (hown entry he)) (by omega) T.idle

theorem traced_reach (B : Begun tx s0) {d : TxSystem}
    (hr : (txMachine tx s0).Reach (fun d e => TxOwn d e ∧ LogStays tx d e) d) :
    Traced tx s0 d.dropped d.system := by
  refine hr.invariant (I := fun d => Traced tx s0 d.dropped d.system) (fun d hd => ?_)
    fun d e d' T hok hn => T.next B hok.1 hok.2 hn
  cases hd
  exact traced_start B

/-- A heap that is there in the end has no record of the log that drops it. -/
theorem Traced.stays (T : Traced tx s0 dropped s) {h : Nat} (hs : Survives s0 dropped h) :
    Stays (s.undo_log tx) s h := by
  refine ⟨(T.recovers h hs).1, fun name entry hm he hx => ?_⟩
  rcases hs with hown | ⟨name', entry', hnd, he', hx'⟩
  · refine (T.sound.table name entry he).2.1 (hx.trans ?_)
    rw [T.own]
    exact hown.symm
  · have hm' : .DropTableUndoRecord name' ∉ s.undo_log tx := by
      intro hm'
      rcases T.created name' hm' with hd | hnone
      · exact hnd hd
      · rw [hnone] at he'
        cases he'
    have hkept := T.tables name' hm'
    rw [if_neg hnd, he'] at hkept
    obtain rfl := T.sound.apart name name' entry entry' he hkept (hx.trans hx'.symm)
    exact hm' hm

/-- What an undone log leaves of the heaps that are there in the end. -/
theorem Traced.undone (T : Traced tx s0 dropped s) (U : Undone (s.undo_log tx) s t) {h : Nat}
    (hs : Survives s0 dropped h) :
    tuplesOf (rows (· = h) t.heap.pool) = remains s0 dropped h := by
  have hstays := T.stays hs
  obtain ⟨hh, hgrows, hreads⟩ := T.recovers h hs
  have hpath := U.onPath h hstays
  funext ⟨p, slot⟩
  rcases p with _ | n
  · unfold remains
    split <;> rfl
  by_cases hn : OnPath (succ s.heap.pool) h n
  · have hon : OnChain (succ t.heap.pool) (· = h) n := ⟨h, rfl, (hpath n).mpr hn⟩
    rw [tuplesOf_on hon, U.reads h hstays n slot hn, ← tuplesOf_on ⟨h, hh, hn⟩]
    exact hreads n slot hn
  · rw [remains_off fun hp => hn (hgrows n hp)]
    apply tuplesOf_off
    rintro ⟨k, rfl, hp⟩
    exact hn ((hpath n).mp hp)

theorem Traced.rolledBack (T : Traced tx s0 dropped s) (B : Begun tx s0)
    (U : Undone (s.undo_log tx) s t) : RolledBack s0 dropped t := by
  obtain ⟨c, hc⟩ := Option.ne_none_iff_exists'.mp B.sound.own
  have hown : t.catalog_table.table_heap = some c := by rw [U.own, T.own, hc]
  have hrows : t.catalog_rows = remains s0 dropped c := by
    unfold CatalogSystem.catalog_rows
    rw [own_eq hown]
    exact T.undone U (Or.inl hc)
  refine ⟨fun name => ?_, fun name hm entry he => ?_, fun rid hrid => ?_,
    fun name entry h hnd he hx => ?_⟩
  · rw [U.tables]
    split
    · rename_i hm
      rcases T.created name hm with hd | hnone
      · rw [if_pos hd]
      · rw [hnone, ite_self]
    · rename_i hm
      exact T.tables name hm
  · rw [hrows, remains, if_pos ⟨hc, name, hm, entry, he, rfl⟩]
  · rw [hrows, remains, if_neg]
    · unfold CatalogSystem.catalog_rows
      rw [own_eq hc]
    · rintro ⟨_, name, hm, entry, he, heq⟩
      exact hrid name hm entry he heq
  · rw [T.undone U (Or.inr ⟨name, entry, hnd, he, hx⟩)]
    funext rid
    rw [remains, if_neg]
    rintro ⟨hown, _⟩
    exact (B.sound.table name entry he).2.1 (hx.trans hown.symm)

/-- A transaction that runs alone and drops only tables that its log does not need can be aborted,
when each restore finds its page with room. The abort leaves the tables and rows that were there,
without the dropped ones. -/
theorem an_abort_leaves_what_was_not_dropped (B : Begun tx s0) {d : TxSystem}
    (hr : (txMachine tx s0).Reach (fun d e => TxOwn d e ∧ LogStays tx d e) d)
    (hfit : RestoresFit (d.system.set_state tx .SHRINKING) (d.system.undo_log tx)) :
    ∃ t, abort d.system tx = some (.ok (), t) ∧ RolledBack s0 d.dropped t := by
  have T := traced_reach B hr
  have S : Sound (d.system.set_state tx .SHRINKING) := sound_congr T.sound rfl rfl rfl
  obtain ⟨t, ht, _, U⟩ := undo_spec (d.system.undo_log tx) S T.idle
    (Nat.le_trans (by omega) T.frames) T.log_on hfit T.frees
  refine ⟨({ t with locks := unlock_all t.locks tx } : CatalogSystem).set_state tx .ABORTED, ?_,
    T.rolledBack B ⟨U.own, U.tables, U.onPath, U.reads⟩⟩
  unfold abort
  rw [ht]
  rfl

end

/-! ## Tables that are dropped, and dropped again -/

/-- A new catalog has no pins, no locks and no logs, and a create of a table adds none. -/
theorem made_alone {b : BufferPoolManager} {s : CatalogSystem}
    (h : CatalogSystem.make b = some (.ok s)) :
    s.heap.outside = (fun _ => 0) ∧ s.locks = ⟨fun _ => [], fun _ => {}, fun _ => none⟩ ∧
      s.undo_log = fun _ => [] := by
  unfold CatalogSystem.make at h
  split at h
  · cases h
  · obtain ⟨⟨r, b'⟩, _, h⟩ := Option.map_eq_some_iff.mp h
    rcases r with e | tables
    · cases h
    · cases h
      exact ⟨rfl, rfl, rfl⟩

theorem create_alone {s t : CatalogSystem} {name : List UInt8} {schema : Schema}
    {r : Except Failure Unit} (h : s.create_table name schema none = some (r, t)) :
    t.heap.outside = s.heap.outside ∧ t.locks = s.locks ∧ t.undo_log = s.undo_log := by
  unfold CatalogSystem.create_table at h
  split at h
  · cases h
    exact ⟨rfl, rfl, rfl⟩
  split at h
  · cases h
    exact ⟨rfl, rfl, rfl⟩
  split at h
  · cases h
    exact ⟨rfl, rfl, rfl⟩
  obtain ⟨⟨r1, s1⟩, hinsert, h⟩ := Option.map_eq_some_iff.mp h
  obtain ⟨⟨r2, b2⟩, _, hs1⟩ := Option.map_eq_some_iff.mp hinsert
  cases hs1
  rcases r2 with e | _ | rid
  all_goals
    cases h
    exact ⟨rfl, rfl, rfl⟩

theorem begun_made {b : BufferPoolManager} {s t : CatalogSystem} (S : Sound t)
    (h : CatalogSystem.make b = some (.ok s)) (hframes : 2 ≤ t.heap.pool.pool_capacity)
    (halone : t.heap.outside = s.heap.outside ∧ t.locks = s.locks ∧ t.undo_log = s.undo_log) :
    Begun 0 t := by
  obtain ⟨h1, h2, h3⟩ := made_alone h
  obtain ⟨k1, k2, k3⟩ := halone
  refine ⟨S, fun n => by rw [k1, h1], hframes, ?_, by rw [k3, h3]⟩
  rw [k2, h2]
  refine ⟨fun rid r hm => ?_, rfl, rfl⟩
  cases hm

/-- The calls that make tables and fill them. -/
def makes : CatalogEvent → Bool
  | .create_table _ _ | .insert_tuple _ _ _ => true
  | _ => false

/-- Tables that are made and filled without a transaction leave none behind. -/
theorem makes_alone {s t : CatalogSystem} {e : CatalogEvent} (he : makes e = true)
    (h : s.next e = some t) :
    t.heap.outside = s.heap.outside ∧ t.locks = s.locks ∧ t.undo_log = s.undo_log := by
  cases e with
  | create_table name schema =>
    obtain ⟨⟨r, t'⟩, hr, rfl⟩ := Option.map_eq_some_iff.mp h
    exact create_alone hr
  | insert_tuple name schema tuple =>
    obtain ⟨entry, _, h⟩ := Option.bind_eq_some_iff.mp h
    obtain ⟨⟨r, b⟩, _, rfl⟩ := Option.map_eq_some_iff.mp h
    exact ⟨rfl, rfl, rfl⟩
  | drop_table | update_tuple | delete_tuple | fetch | unpin => cases he

/-- A transaction begins after tables were made and filled. -/
theorem begun_filled {k : Nat} {s t : CatalogSystem} {l : List CatalogEvent}
    (h : CatalogSystem.make (empty_pool k) = some (.ok s))
    (hrun : catalogMachine.execIf (fun _ e => makes e) s l = some t)
    (hframes : 2 ≤ t.heap.pool.pool_capacity) : Begun 0 t := by
  have hstep : ∀ (u : CatalogSystem) (e : CatalogEvent) (v : CatalogSystem),
      (Sound u ∧ u.heap.outside = s.heap.outside ∧ u.locks = s.locks ∧ u.undo_log = s.undo_log) →
      makes e = true → catalogMachine.next u e = some v → OwnRids u e ∧
        (Sound v ∧ v.heap.outside = s.heap.outside ∧ v.locks = s.locks ∧
          v.undo_log = s.undo_log) := by
    rintro u e v ⟨S, h1, h2, h3⟩ he hn
    obtain ⟨k1, k2, k3⟩ := makes_alone he hn
    have hown : OwnRids u e := by
      cases e with
      | create_table | insert_tuple => trivial
      | drop_table | update_tuple | delete_tuple | fetch | unpin => cases he
    exact ⟨hown, sound_next S hown hn, k1.trans h1, k2.trans h2, k3.trans h3⟩
  obtain ⟨_, S, halone⟩ := Machine.run_of_execIf_keeps hstep
    ⟨sound_start ⟨k, h⟩, rfl, rfl, rfl⟩ hrun
  exact begun_made S h hframes halone

/-- The transaction has logged nothing when it drops a table, and deletes rows of first pages. -/
def drops_first (d : TxSystem) : TxEvent → Bool
  | .drop_table _ => (d.system.undo_log 0).isEmpty
  | .create_table _ _ | .insert_tuple _ _ => true
  | .delete_tuple name rid => on_own_first_page d.system (.delete_tuple name rid)
  | .get_tuple _ _ | .update_tuple _ _ _ => false

theorem logStays_of_check {s0 : CatalogSystem} {d : TxSystem} {e : TxEvent}
    (T : Traced 0 s0 d.dropped d.system) (h : drops_first d e = true) : TxOwn d e ∧ LogStays 0 d e := by
  cases e with
  | create_table | insert_tuple => exact ⟨trivial, trivial⟩
  | drop_table name =>
    have hnil : d.system.undo_log 0 = [] := List.isEmpty_iff.mp h
    refine ⟨trivial, fun entry _ => ?_⟩
    rw [hnil]
    exact ⟨List.not_mem_nil, fun u hm => absurd hm List.not_mem_nil⟩
  | delete_tuple name rid => exact ⟨ownRids_of_check (.delete_tuple name rid) T.sound h, trivial⟩
  | get_tuple | update_tuple => cases h

/-- The table has this first page, which is dirty in its frame and has room for the tuple. -/
def has_room (s : CatalogSystem) (name : List UInt8) (n : Nat) (tuple : List UInt8) : Bool :=
  (s.tables name).map (·.table.table_heap) == some (some n) &&
    decide (usedBytes (rowsOf (view s.heap.pool n)) + tuple.length ≤ kPAGE_SIZE) &&
    (s.heap.pool.page_table (some n)).any fun f => (s.heap.pool.frames f).is_dirty

theorem restoresFit_of_check {s : CatalogSystem} (S : Sound s) {name : List UInt8} {n slot : Nat}
    {tuple : List UInt8} (h : has_room s name n tuple = true) :
    RestoresFit (s.set_state 0 .SHRINKING) [.row (.RestoreUndoRecord ⟨some n, slot⟩ tuple)] := by
  unfold has_room at h
  simp only [Bool.and_eq_true, beq_iff_eq, decide_eq_true_eq, Option.any_eq_true] at h
  obtain ⟨⟨hname, hroom⟩, hdirty⟩ := h
  obtain ⟨entry, he, hn⟩ := Option.map_eq_some_iff.mp hname
  obtain ⟨k, hk, hh⟩ := S.head he
  obtain rfl : k = n := Option.some.inj (hk.symm.trans hn)
  have hon : OnChain (succ s.heap.pool) s.heads k := ⟨k, hh, S.heap.forest.onPath_head hh⟩
  refine ⟨fun rid t heq => ?_, fun _ _ => trivial⟩
  cases heq
  refine ⟨?_, hdirty⟩
  show usedBytes (rows s.heads s.heap.pool k) + tuple.length ≤ kPAGE_SIZE
  rw [rows_on hon]
  exact hroom

/-- One table is dropped, and the row that was deleted from another one comes back. -/
theorem an_abort_leaves_a_dropped_table_dropped : ∃ s0 d t, Begun 0 s0 ∧
    (txMachine 0 s0).Reach (fun d e => TxOwn d e ∧ LogStays 0 d e) d ∧ d.dropped = [[97]] ∧
    d.system.undo_log 0 = [.row (.RestoreUndoRecord ⟨some 3, 0⟩ [0, 7, 0, 0, 0])] ∧
    abort d.system 0 = some (.ok (), t) ∧ RolledBack s0 d.dropped t := by
  obtain ⟨s, ⟨s0, d⟩, hmade, hf, hp⟩ := of_new_catalog (b := empty_pool 2)
    (f := fun s => (catalogMachine.execIf (fun _ e => makes e) s [.create_table [97] numbers,
        .create_table [98] numbers, .insert_tuple [98] numbers (number_tuple 7)]).bind fun s0 =>
      ((txMachine 0 s0).execIf drops_first ⟨s0, []⟩
        [.drop_table [97], .delete_tuple [98] ⟨some 3, 0⟩]).map fun d => (s0, d))
    (p := fun x => decide (2 ≤ x.1.heap.pool.pool_capacity) && x.2.dropped == [[97]] &&
      x.2.system.undo_log 0 == [.row (.RestoreUndoRecord ⟨some 3, 0⟩ [0, 7, 0, 0, 0])] &&
      has_room x.2.system [98] 3 [0, 7, 0, 0, 0]) (by decide +kernel)
  obtain ⟨t0, hfilled, hf⟩ := Option.bind_eq_some_iff.mp hf
  obtain ⟨_, hd, heq⟩ := Option.map_eq_some_iff.mp hf
  cases heq
  simp only [Bool.and_eq_true, beq_iff_eq, decide_eq_true_eq] at hp
  obtain ⟨⟨⟨hframes, hdropped⟩, hlog⟩, hroom⟩ := hp
  have B : Begun 0 s0 := begun_filled hmade hfilled hframes
  have hstep : ∀ (u : TxSystem) (e : TxEvent) (v : TxSystem), Traced 0 s0 u.dropped u.system →
      drops_first u e = true → (txMachine 0 s0).next u e = some v →
        (TxOwn u e ∧ LogStays 0 u e) ∧ Traced 0 s0 v.dropped v.system := by
    intro u e v T he hn
    have hok := logStays_of_check T he
    exact ⟨hok, T.next B hok.1 hok.2 hn⟩
  obtain ⟨hrun, T⟩ := Machine.run_of_execIf_keeps
    (I := fun d : TxSystem => Traced 0 s0 d.dropped d.system) hstep (traced_start B) hd
  have hr := (Machine.Reach.start (m := txMachine 0 s0) rfl).run hrun
  obtain ⟨t, ht, hrolled⟩ := an_abort_leaves_what_was_not_dropped B hr
    (by rw [hlog]; exact restoresFit_of_check T.sound hroom)
  exact ⟨s0, d, t, B, hr, hdropped, hlog, ht, hrolled⟩

/-- No call names a RID. -/
def creates_and_drops (_ : TxSystem) : TxEvent → Bool
  | .create_table _ _ | .drop_table _ => true
  | _ => false

theorem txOwn_of_check (d : TxSystem) (e : TxEvent) (h : creates_and_drops d e = true) :
    TxOwn d e := by
  cases e with
  | create_table | drop_table => trivial
  | insert_tuple | get_tuple | delete_tuple | update_tuple => cases h

/-- A table that the transaction made is dropped, and the abort wants to drop it once more. -/
theorem an_abort_fails_after_a_drop : ¬ ∀ (tx : TransactionID) (s0 : CatalogSystem) (d : TxSystem),
    Begun tx s0 → (txMachine tx s0).Reach TxOwn d →
    ∃ t, abort d.system tx = some (.ok (), t) ∧ RolledBack s0 d.dropped t := by
  intro hall
  obtain ⟨s, ⟨s0, d⟩, hmade, hf, hp⟩ := of_new_catalog (b := empty_pool 2)
    (f := fun s => ((txMachine 0 s).execIf creates_and_drops ⟨s, []⟩
      [.create_table [97] numbers, .drop_table [97]]).map fun d => (s, d))
    (p := fun x => decide (2 ≤ x.1.heap.pool.pool_capacity) && (abort x.2.system 0).isNone)
    (by decide +kernel)
  obtain ⟨_, hd, heq⟩ := Option.map_eq_some_iff.mp hf
  cases heq
  rw [Bool.and_eq_true, decide_eq_true_eq] at hp
  have B : Begun 0 s := begun_made (sound_start ⟨2, hmade⟩) hmade hp.1 ⟨rfl, rfl, rfl⟩
  obtain ⟨t, ht, _⟩ := hall 0 s d B
    ((Machine.Reach.start rfl).run (Machine.run_of_execIf txOwn_of_check hd))
  rw [ht] at hp
  cases hp.2

end duck.catalog
