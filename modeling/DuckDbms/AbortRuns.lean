-- The records of an abort while others bring pages in and keep them pinned: a
-- record whose page finds no frame returns as if it had done its work.
import DuckDbms.Aborts

open machine duck.slotted_page duck.disk_manager duck.buffer_pool duck.lock_manager
open duck.table_heap duck.table duck.tuple chain

namespace duck.catalog

/-! ## The loop of the records, with others in between -/

/-- The records that are left, and the pages of the tables that records have dropped. -/
structure Aborting where
  system : CatalogSystem
  records : List UndoRecord
  given_up : List PageID := []

inductive AbortEvent
  /-- the next record is undone -/
  | undo
  /-- another user brings a page in and keeps it pinned, or lets go of it -/
  | fetch (page_id : Nat)
  | unpin (page_id : Nat)

/-- The pages that a record gives up with its table. -/
def pages_of (s : CatalogSystem) : UndoRecord → List PageID
  | .DropTableUndoRecord name =>
    match (s.tables name).map fun entry => all_pages s.heap.pool entry.table.table_heap with
    | some (some (.ok (pages, _), _)) => pages
    | _ => []
  | .row _ => []

/-- A record that throws leaves the loop for good, and so does an assertion that fails. -/
def abortMachine (s0 : Aborting) : Machine Aborting AbortEvent where
  start s := s = s0
  next s
    | .undo =>
      match s.records with
      | [] => none
      | record :: rest => (s.system.undo_record record).bind fun
        | (.ok (), system) =>
          some ⟨system, rest, pages_of s.system record ++ s.given_up⟩
        | (.error _, _) => none
    | .fetch n => (s.system.next (.fetch n)).map fun system => { s with system }
    | .unpin n => (s.system.next (.unpin n)).map fun system => { s with system }

/-- A row record is about a page of the catalog or of a registered table. A delete finds a frame
for it, and a restore finds the page in a frame, with changes that are not written yet. -/
def FindsFrame (s : Aborting) : AbortEvent → Prop
  | .undo =>
    match s.records with
    | .row (.DeleteUndoRecord rid) :: _ => RidOn s.system.heads s.system.heap.pool rid ∧
        (s.system.heap.pool.fetch_page rid.page_id).1 ≠ .ok none
    | .row (.RestoreUndoRecord rid tuple) :: _ => RidOn s.system.heads s.system.heap.pool rid ∧
        tuple.length < 65536 ∧ ∃ f, s.system.heap.pool.page_table rid.page_id = some f ∧
          (s.system.heap.pool.frames f).is_dirty = true
    | _ => True
  | _ => True

/-! ## Before-images -/

/-- What the RID reads once the record is undone. -/
def imageOf : table.UndoRecord → Option (List UInt8)
  | .DeleteUndoRecord _ => none
  | .RestoreUndoRecord _ tuple => some tuple

/-- What a RID reads once the records are undone: the last one about it decides, which is the
first that the transaction logged. -/
def beforeImage : List UndoRecord → RID → Option (Option (List UInt8))
  | [], _ => none
  | .DropTableUndoRecord _ :: rest, rid => beforeImage rest rid
  | .row record :: rest, rid =>
    (beforeImage rest rid).or (if record.rid = rid then some (imageOf record) else none)

/-- The inserted RIDs of the records are gone, the deleted and updated RIDs read their
before-images, as far as their pages were not given up with their table, and the tables that the
records drop are not registered any more. -/
def TakenBack (records : List UndoRecord) (s : Aborting) : Prop :=
  (∀ rid image, beforeImage records rid = some image → rid.page_id ∉ s.given_up →
    tuplesOf (rows s.system.heads s.system.heap.pool) rid = image) ∧
  ∀ name, .DropTableUndoRecord name ∈ records → s.system.tables name = none

theorem beforeImage_row (records : List UndoRecord) (record : table.UndoRecord) (rid : RID) :
    beforeImage (records ++ [.row record]) rid =
      if record.rid = rid then some (imageOf record) else beforeImage records rid := by
  induction records with
  | nil =>
    simp only [List.nil_append, beforeImage, Option.none_or]
  | cons first rest ih =>
    cases first with
    | DropTableUndoRecord name => exact ih
    | row first =>
      simp only [List.cons_append, beforeImage, ih]
      split <;> simp

theorem beforeImage_drop (records : List UndoRecord) (name : List UInt8) (rid : RID) :
    beforeImage (records ++ [.DropTableUndoRecord name]) rid = beforeImage records rid := by
  induction records with
  | nil => rfl
  | cons first rest ih =>
    cases first with
    | DropTableUndoRecord name' => exact ih
    | row first => simp only [List.cons_append, beforeImage, ih]

theorem tuplesOf_fill {R : Pages} {rid : RID} (h : rowAt R rid = some none) (t : List UInt8) :
    tuplesOf (putRow R rid (some t)) = Function.update (tuplesOf R) rid (some t) := by
  funext rid'
  unfold tuplesOf
  rw [rowAt_putRow]
  by_cases hr : rid' = rid
  · subst hr
    rw [if_pos rfl, Function.update_self, h]
    rfl
  · rw [if_neg hr, Function.update_of_ne hr]

/-! ## One record -/

/-- A row record that is undone takes effect, if its page is found. -/
theorem Sound.undo_row {c t : CatalogSystem} (S : Sound c) {u : table.UndoRecord}
    (hon : u.On c.heads c.heap.pool) (hfetch : (c.heap.pool.fetch_page u.rid.page_id).1 ≠ .ok none)
    (hdirty : ∀ rid tuple, u = .RestoreUndoRecord rid tuple →
      ∃ f, c.heap.pool.page_table rid.page_id = some f ∧ (c.heap.pool.frames f).is_dirty = true)
    (hundo : c.undo_record (.row u) = some (.ok (), t)) :
    ∃ b, t = c.with_pool b ∧
      Ran True c.heads c.heap.outside (fun _ => False) c.heap.pool b ∧
      rows c.heads b = undoRow (rows c.heads c.heap.pool) u ∧
      tuplesOf (rows c.heads b) =
        Function.update (tuplesOf (rows c.heads c.heap.pool)) u.rid (imageOf u) := by
  cases u with
  | DeleteUndoRecord rid =>
    obtain ⟨b, R, hd⟩ := delete_spec S.heap hon
    have hput : rows c.heads b = putRow (rows c.heads c.heap.pool) rid none := by
      rcases hd with ⟨_, hput, _⟩ | ⟨_, _, hno | hput⟩
      · exact hput
      · exact absurd hno.2 hfetch
      · exact hput
    have hpool : (table_heap.delete_tuple c.heap.pool rid).2 = b := by
      rcases hd with ⟨hd, _⟩ | ⟨hd, _⟩ <;> rw [hd]
    simp only [CatalogSystem.undo_record, hpool] at hundo
    refine ⟨b, (Prod.mk.inj (Option.some.inj hundo)).2.symm, R, hput, ?_⟩
    rw [hput]
    exact tuplesOf_clear _ _
  | RestoreUndoRecord rid tuple =>
    rcases restore_spec S.heap hon.1 hon.2 fun _ => hdirty rid tuple rfl with
      ⟨b, hr, R, hcases⟩ | ⟨hr, _⟩
    swap
    · simp only [CatalogSystem.undo_record, hr] at hundo
      cases hundo
    simp only [CatalogSystem.undo_record, hr] at hundo
    rcases hcases with ⟨hcan, hput⟩ | ⟨_, hno, _⟩
    · refine ⟨b, (Prod.mk.inj (Option.some.inj hundo)).2.symm, R, hput, ?_⟩
      rw [hput]
      exact tuplesOf_fill hcan.1 _
    · exact absurd hno hfetch

/-- A page that is in a frame is found. -/
theorem fetch_cached {b : BufferPoolManager} {p : PageID} {f : FrameID}
    (hf : b.page_table p = some f) : (b.fetch_page p).1 ≠ .ok none := by
  intro hno
  unfold BufferPoolManager.fetch_page BufferPoolManager.find_cached_page at hno
  rw [hf] at hno
  cases hno

/-- The invariant of the loop: the records so far have taken effect. -/
structure Undoing (log : List UndoRecord) (s : Aborting) : Prop where
  sound : Sound s.system
  so_far : ∃ records, log = records ++ s.records ∧ TakenBack records s

section
variable {log : List UndoRecord} {s t : Aborting}

/-- A row record that has done its work. -/
theorem Undoing.row (U : Undoing log s) {record : table.UndoRecord} {rest : List UndoRecord}
    (hrecords : s.records = .row record :: rest) {b : BufferPoolManager}
    (R : Ran True s.system.heads s.system.heap.outside (fun _ => False) s.system.heap.pool b)
    (hrows : tuplesOf (rows s.system.heads b) = Function.update
      (tuplesOf (rows s.system.heads s.system.heap.pool)) record.rid (imageOf record)) :
    Undoing log ⟨s.system.with_pool b, rest, s.given_up⟩ := by
  obtain ⟨records, hlog, hrid, hname⟩ := U.so_far
  refine ⟨U.sound.ran R, records ++ [.row record], ?_, ?_, ?_⟩
  · rw [hlog, hrecords, List.append_assoc]
    rfl
  · intro rid image himage hpage
    rw [beforeImage_row] at himage
    show tuplesOf (rows s.system.heads b) rid = image
    rw [hrows]
    split at himage
    · rename_i he
      subst he
      rw [Function.update_self]
      exact Option.some.inj himage
    · rename_i hne
      rw [Function.update_of_ne (Ne.symm hne)]
      exact hrid rid image himage hpage
  · intro name hmem
    rcases List.mem_append.mp hmem with hmem | hmem
    · exact hname name hmem
    · simp at hmem

/-- A record that has dropped its table. -/
theorem Undoing.drop (U : Undoing log s) {name : List UInt8} {rest : List UndoRecord}
    (hrecords : s.records = .DropTableUndoRecord name :: rest) {system : CatalogSystem}
    (hundo : s.system.undo_record (.DropTableUndoRecord name) = some (.ok (), system)) :
    Undoing log ⟨system, rest, pages_of s.system (.DropTableUndoRecord name) ++ s.given_up⟩ := by
  obtain ⟨records, hlog, hrid, hname⟩ := U.so_far
  have S := U.sound
  have hdelete : s.system.delete_table name = some (.ok (), system) := hundo
  unfold CatalogSystem.delete_table at hdelete
  rcases he : s.system.tables name with _ | entry
  · rw [he] at hdelete
    cases hdelete
  rw [he] at hdelete
  simp only at hdelete
  rcases S.drop_entry_cases he "Catalog::delete_table" with
    ⟨x, l, b', b1, hd, hx, hh, hl, hpages, D, hpath, St⟩ | ⟨e, b', hd, _⟩
  swap
  · rw [hd] at hdelete
    cases hdelete
  rw [hd] at hdelete
  cases hdelete
  have hgiven : pages_of s.system (.DropTableUndoRecord name) = l.map some := by
    simp only [pages_of, he, Option.map_some, hpages]
  rw [hgiven]
  -- the chains that are left have the pages that they had
  have hon : ∀ n, n ∉ l → (OnChain (succ b') ((s.system.with_pool b').set_table name none).heads n ↔
      OnChain (succ s.system.heap.pool) s.system.heads n) := by
    intro n hn
    constructor
    · rintro ⟨k, hk, hp⟩
      obtain ⟨h1, h2⟩ := (S.heads_without he hx k).mp hk
      exact ⟨k, h1, (hpath k h1 h2 n).mp hp⟩
    · rintro ⟨k, hk, hp⟩
      have hne : k ≠ x := by
        rintro rfl
        obtain ⟨l', hl', hm⟩ := hp
        rw [hl'.unique hl] at hm
        exact hn hm
      exact ⟨k, (S.heads_without he hx k).mpr ⟨hk, hne⟩, (hpath k hk hne n).mpr hp⟩
  refine ⟨St, records ++ [.DropTableUndoRecord name], ?_, ?_, ?_⟩
  · rw [hlog, hrecords, List.append_assoc]
    rfl
  · intro rid image himage hpage
    rw [beforeImage_drop] at himage
    rw [List.mem_append, not_or] at hpage
    rw [← hrid rid image himage hpage.2]
    obtain ⟨_ | n, slot⟩ := rid
    · rfl
    have hn : n ∉ l := fun hm => hpage.1 (List.mem_map_of_mem hm)
    have hsame : rows ((s.system.with_pool b').set_table name none).heads b' n =
        rows s.system.heads s.system.heap.pool n := by
      by_cases hc : OnChain (succ s.system.heap.pool) s.system.heads n
      · rw [rows_on hc, rows_on ((hon n hn).mpr hc), D.same n hn]
      · rw [rows_off hc, rows_off (mt (hon n hn).mp hc)]
    show (rowAt (rows ((s.system.with_pool b').set_table name none).heads b') ⟨some n, slot⟩).join = _
    unfold tuplesOf
    rw [rowAt_rows, rowAt_rows, hsame]
  · intro name' hmem
    simp only [CatalogSystem.set_table, CatalogSystem.with_pool]
    by_cases hne : name' = name
    · subst hne
      rw [Function.update_self]
    · rw [Function.update_of_ne hne]
      apply hname
      simpa [hne] using hmem

/-- Another user of the pool changes no row. -/
theorem Undoing.same_contents (U : Undoing log s) {heap : HeapPool}
    (H : HeapState True heap.outside (fun _ => False) s.system.heads heap.pool)
    (hc : contents heap.pool = contents s.system.heap.pool) :
    Undoing log { s with system := { s.system with heap } } := by
  obtain ⟨records, hlog, hrid, hname⟩ := U.so_far
  refine ⟨U.sound.same_contents H hc, records, hlog, ?_, hname⟩
  intro rid image himage hpage
  have hrows : rows s.system.heads heap.pool = rows s.system.heads s.system.heap.pool :=
    rows_congr (fun n => by rw [succ_congr hc]) fun n _ => by rw [hc]
  show tuplesOf (rows s.system.heads heap.pool) rid = image
  rw [hrows]
  exact hrid rid image himage hpage

theorem Undoing.next {s0 : Aborting} (U : Undoing log s) {e : AbortEvent} (hok : FindsFrame s e)
    (hnext : (abortMachine s0).next s e = some t) : Undoing log t := by
  cases e with
  | undo =>
    simp only [abortMachine] at hnext
    unfold FindsFrame at hok
    rcases hrecords : s.records with _ | ⟨record, rest⟩
    · rw [hrecords] at hnext
      cases hnext
    rw [hrecords] at hnext hok
    obtain ⟨⟨r, system⟩, hundo, hr⟩ := Option.bind_eq_some_iff.mp hnext
    rcases r with e | _
    · cases hr
    cases hr
    rcases record with (rid | ⟨rid, tuple⟩) | name
    · obtain ⟨hrid, hfetch⟩ := hok
      obtain ⟨b, rfl, R, _, hrows⟩ := U.sound.undo_row (u := .DeleteUndoRecord rid) hrid hfetch
        (fun _ _ h => by cases h) hundo
      exact U.row hrecords R hrows
    · obtain ⟨hrid, hsize, f, hf, hd⟩ := hok
      obtain ⟨b, rfl, R, _, hrows⟩ := U.sound.undo_row (u := .RestoreUndoRecord rid tuple)
        ⟨hrid, hsize⟩ (fetch_cached hf) (fun _ _ h => by cases h; exact ⟨f, hf, hd⟩) hundo
      exact U.row hrecords R hrows
    · exact U.drop hrecords hundo
  | fetch n =>
    obtain ⟨_, hn, rfl⟩ := Option.map_eq_some_iff.mp hnext
    obtain ⟨heap, hp, rfl⟩ := Option.map_eq_some_iff.mp hn
    obtain ⟨H, hc⟩ := evict_fetch U.sound.heap hp
    exact U.same_contents H hc
  | unpin n =>
    obtain ⟨_, hn, rfl⟩ := Option.map_eq_some_iff.mp hnext
    obtain ⟨heap, hp, rfl⟩ := Option.map_eq_some_iff.mp hn
    obtain ⟨H, hc⟩ := evict_unpin U.sound.heap hp
    exact U.same_contents H hc

/-! ## Whole aborts -/

/-- An abort whose records come to their end has taken them all back, whatever pages others bring
in and keep pinned between them, when each row record finds a frame for its page, and a restore
finds its page in a frame with changes that are not written yet. -/
theorem an_abort_takes_its_records_back_when_they_find_frames {s0 s : Aborting}
    (S : Sound s0.system) (hr : (abortMachine s0).Reach FindsFrame s) (hend : s.records = []) :
    TakenBack s0.records s := by
  have U : Undoing s0.records s := by
    refine hr.invariant (fun s hs => ?_) fun s e t U hok hnext => U.next hok hnext
    cases hs
    refine ⟨S, [], rfl, ?_, ?_⟩
    · intro rid image himage
      cases himage
    · intro name hmem
      cases hmem
  obtain ⟨records, hlog, hback⟩ := U.so_far
  rw [hend, List.append_nil] at hlog
  rw [hlog]
  exact hback

/-- `abort` without others in between is such a run, and then the end of the transaction. -/
theorem abort_is_a_run {m m' : TransactionManager} {tx : TransactionID}
    (h : m.abort tx = some (.ok (), m')) :
    ∃ s, (abortMachine ⟨m.system.set_state tx .SHRINKING, m.system.undo_log tx, []⟩).Reach always s ∧
      s.records = [] ∧ m' = { m with system := s.system }.finish tx .ABORTED := by
  obtain ⟨system, hu, rfl⟩ := abort_returns h
  have hrun : ∀ (s0 s : Aborting) (system : CatalogSystem), (abortMachine s0).Reach always s →
      undo s.system s.records = some (.ok (), system) →
      ∃ t, (abortMachine s0).Reach always t ∧ t.records = [] ∧ t.system = system := by
    intro s0 s system hr hundo
    obtain ⟨c, records, pages⟩ := s
    induction records generalizing c pages with
    | nil =>
      cases hundo
      exact ⟨_, hr, rfl, rfl⟩
    | cons record rest ih =>
      obtain ⟨⟨r, c1⟩, h1, h2⟩ := Option.bind_eq_some_iff.mp hundo
      rcases r with e | _
      · cases h2
      refine ih c1 (pages_of c record ++ pages) (hr.step (e := .undo) trivial ?_) h2
      simp only [abortMachine]
      rw [h1]
      rfl
  obtain ⟨t, ht, hend, rfl⟩ := hrun _
    ⟨m.system.set_state tx .SHRINKING, m.system.undo_log tx, []⟩ system (.start rfl) hu
  exact ⟨t, ht, hend, rfl⟩

end

/-- A row was put into the table `a`, and the transaction that did it is aborted. -/
def inserter (s : CatalogSystem) : Aborting := ⟨s, [.row (.DeleteUndoRecord ⟨some 2, 0⟩)], []⟩

def with_one_row : List CatalogEvent :=
  [.create_table [97] numbers, .insert_tuple [97] numbers (number_tuple 1)]

/-- The table `a` is a page with a row in its first slot, or without one. -/
def row_is_there (s : CatalogSystem) (there : Bool) : Bool :=
  (s.tables [97]).map (·.table.table_heap) == some (some 2) &&
    (view s.heap.pool 2).header.next_page_id == none &&
    ((rowsOf (view s.heap.pool 2))[0]?.join).isSome == there

section
variable {s : CatalogSystem} {there : Bool}

theorem onChain_of_row (h : row_is_there s there = true) : OnChain (succ s.heap.pool) s.heads 2 := by
  simp only [row_is_there, Bool.and_eq_true, beq_iff_eq] at h
  obtain ⟨⟨htable, hnext⟩, _⟩ := h
  obtain ⟨entry, he, hpage⟩ := Option.map_eq_some_iff.mp htable
  refine ⟨2, Or.inr ⟨_, entry, he, hpage⟩, [2], .cons ?_, by simp⟩
  have : succ s.heap.pool 2 = none := hnext
  rw [this]
  exact .nil

theorem tuple_of_row (h : row_is_there s true = true) :
    tuplesOf (rows s.heads s.heap.pool) ⟨some 2, 0⟩ ≠ none := by
  unfold tuplesOf
  rw [rowAt_rows, rows_on (onChain_of_row h)]
  simp only [row_is_there, Bool.and_eq_true, beq_iff_eq] at h
  intro hno
  have hrow : ((rowsOf (view s.heap.pool 2))[0]?).join = none := hno
  rw [hrow] at h
  cases h.2

end

/-- The row of the table `a` is there, in a catalog over two frames. -/
theorem catalog_with_one_row {p : CatalogSystem → Bool}
    (h : ((CatalogSystem.make (empty_pool 2)).bind fun made => made.toOption.bind
      (catalogMachine.execIf on_own_first_page · with_one_row)).map
        (fun s => row_is_there s true && p s) = some true) :
    ∃ s, Sound s ∧ row_is_there s true = true ∧ p s = true := by
  obtain ⟨s, hr, hp⟩ := reached_catalog 2 h
  rw [Bool.and_eq_true] at hp
  exact ⟨s, sound_reach hr, hp⟩

/-- No frame is left for the page of the row. -/
def finds_no_frame (s : CatalogSystem) : Bool :=
  match (s.heap.pool.fetch_page (some 2)).1 with
  | .ok none => true
  | _ => false

/-- The abort of an insert, in a pool that nobody else uses. -/
theorem an_insert_is_taken_back : ∃ s0 s, (abortMachine s0).Reach FindsFrame s ∧
    s.records = [] ∧ TakenBack s0.records s := by
  obtain ⟨c, S, hrow, hp⟩ := catalog_with_one_row (p := fun s =>
      ((abortMachine (inserter s)).next (inserter s) .undo).map (·.records.isEmpty) == some true &&
      !finds_no_frame s) (by decide +kernel)
  rw [Bool.and_eq_true, beq_iff_eq, Bool.not_eq_true'] at hp
  obtain ⟨hnext, hfetch⟩ := hp
  obtain ⟨s, hnext, hend⟩ := Option.map_eq_some_iff.mp hnext
  have hok : FindsFrame (inserter c) .undo := by
    refine ⟨⟨2, rfl, onChain_of_row hrow⟩, fun hno => ?_⟩
    have hno' : (c.heap.pool.fetch_page (some 2)).1 = .ok none := hno
    unfold finds_no_frame at hfetch
    rw [hno'] at hfetch
    cases hfetch
  have hr : (abortMachine (inserter c)).Reach FindsFrame s := .step (.start rfl) hok hnext
  have hnil : s.records = [] := List.isEmpty_iff.mp hend
  exact ⟨inserter c, s, hr, hnil, an_abort_takes_its_records_back_when_they_find_frames S hr hnil⟩

/-- Others hold both frames of the pool, and the row stays. -/
theorem an_insert_is_not_taken_back :
    ¬ ∀ (s0 s : Aborting), Sound s0.system →
      (∀ u, .row u ∈ s0.records → u.On s0.system.heads s0.system.heap.pool) →
      (abortMachine s0).Reach always s → s.records = [] → TakenBack s0.records s := by
  intro hall
  obtain ⟨c, S, hrow, hp⟩ := catalog_with_one_row (p := fun s =>
      (((abortMachine (inserter s)).exec (inserter s) [.fetch 0, .fetch 1, .undo]).map fun t =>
        row_is_there t.system true && t.records.isEmpty && t.given_up.isEmpty) == some true)
    (by decide +kernel)
  obtain ⟨s, hr, hs⟩ := Machine.run_of_exec_check (eq_of_beq hp)
  simp only [Bool.and_eq_true, List.isEmpty_iff] at hs
  obtain ⟨⟨hthere, hend⟩, hgiven⟩ := hs
  have hreach : (abortMachine (inserter c)).Reach always s := (Machine.Reach.start rfl).run hr
  have hon : RidOn c.heads c.heap.pool ⟨some 2, 0⟩ := ⟨2, rfl, onChain_of_row hrow⟩
  have hback := hall (inserter c) s S (fun u hu => by
    simp only [inserter, List.mem_singleton, UndoRecord.row.injEq] at hu
    rw [hu]
    exact hon) hreach hend
  refine tuple_of_row hthere (hback.1 ⟨some 2, 0⟩ none rfl ?_)
  rw [hgiven]
  simp

end duck.catalog
