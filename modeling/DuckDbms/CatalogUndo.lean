-- The undo log of a transaction of the catalog, record by record: which records
-- it may hold so that an abort comes to its end, and what the abort makes of the
-- chains that it leaves.
import DuckDbms.AbortRuns

open machine duck.slotted_page duck.disk_manager duck.buffer_pool duck.lock_manager
open duck.table_heap duck.table duck.tuple chain

/-! ## Calls that take no page -/

namespace duck.table_heap

theorem keepsIds_with_page {α : Type} (b : BufferPoolManager) (page_id : PageID)
    (section_ : Page → α × PageData × Bool) : KeepsIds b (with_page b page_id section_).2 := by
  have hids := keepsIds_fetch_page b page_id
  unfold with_page
  generalize b.fetch_page page_id = r at hids ⊢
  obtain ⟨_ | _ | f, b1⟩ := r
  · exact hids
  · exact hids
  · have hdata : KeepsIds b1 (b1.set_data f (section_ (b1.frames f)).2.1) := ⟨rfl, rfl⟩
    exact (KeepsIds.trans hids hdata).trans (keepsIds_unpin_page _ _ _)

theorem keepsIds_delete (b : BufferPoolManager) (rid : RID) : KeepsIds b (delete_tuple b rid).2 :=
  keepsIds_with_page b rid.page_id _

theorem keepsIds_restore {b b' : BufferPoolManager} {rid : RID} {tuple : List UInt8}
    {r : Except String Unit} (h : restore_tuple b rid tuple = some (r, b')) : KeepsIds b b' := by
  have hids := keepsIds_with_page b rid.page_id fun page =>
    let restored := slotted_page.restore_tuple page.data rid.slot_num tuple
    (restored.isSome, restored.getD page.data, false)
  unfold restore_tuple at h
  simp only at h hids
  split at h
  · cases h
    exact hids
  · cases h
  · cases h
    exact hids

section
variable {evicts : Prop} {heads : Nat → Prop} {pins : Nat → Nat} {pending : Nat → Prop}
  {b b' : BufferPoolManager}

/-- Without a new page no chain gets longer. -/
theorem Ran.onPath_iff (R : Ran evicts heads pins pending b b') (hids : KeepsIds b b') {h : Nat}
    (hh : heads h) (m : Nat) : OnPath (succ b') h m ↔ OnPath (succ b) h m := by
  refine ⟨fun hp => ?_, R.onPath h hh m⟩
  rcases R.joined h hh m hp with hp | hno
  · exact hp
  · exact absurd (allocated_congr ⟨hids.capacity.symm, hids.free_list.symm⟩ m
      (R.heap.pages m ⟨h, hh, hp⟩).2) hno

theorem tuplesOf_on {n : Nat} (hn : OnChain (succ b) heads n) (slot : Nat) :
    tuplesOf (rows heads b) ⟨some n, slot⟩ = tupleOf (contents b n).rows slot := by
  unfold tuplesOf
  rw [rowAt_rows, rows_on hn]
  rfl

theorem tuplesOf_off {n : Nat} (hn : ¬ OnChain (succ b) heads n) (slot : Nat) :
    tuplesOf (rows heads b) ⟨some n, slot⟩ = none := by
  unfold tuplesOf
  rw [rowAt_rows, rows_off hn]
  rfl

end

end duck.table_heap

namespace duck.catalog

/-! ## Logs whose records find what they undo -/

theorem beforeImage_append (l l' : List UndoRecord) (rid : RID) :
    beforeImage (l ++ l') rid = (beforeImage l' rid).or (beforeImage l rid) := by
  induction l with
  | nil => simp [beforeImage]
  | cons record rest ih =>
    cases record with
    | DropTableUndoRecord name => exact ih
    | row u => simp only [List.cons_append, beforeImage, ih, Option.or_assoc]

/-- Each row record is on a page of the heaps, and each record of a new table finds the table,
whose pages no older record is about. -/
def LogOn (tables : List UInt8 → Option TableEntry) (b : BufferPoolManager) :
    (Nat → Prop) → List UndoRecord → Prop
  | _, [] => True
  | heads, .row u :: rest => u.On heads b ∧ LogOn tables b heads rest
  | heads, .DropTableUndoRecord name :: rest =>
    .DropTableUndoRecord name ∉ rest ∧ ∃ entry, tables name = some entry ∧
      LogOn tables b (fun h => heads h ∧ entry.table.table_heap ≠ some h) rest

section
variable {tables tables' : List UInt8 → Option TableEntry} {b b' : BufferPoolManager}
  {heads heads' : Nat → Prop} {l : List UndoRecord}

/-- More heaps and longer chains, with the tables of the log as they were. -/
theorem LogOn.mono (h : LogOn tables b heads l) (hheads : ∀ k, heads k → heads' k)
    (hpath : ∀ k, heads k → ∀ m, OnPath (succ b) k m → OnPath (succ b') k m)
    (htables : ∀ name, .DropTableUndoRecord name ∈ l → tables' name = tables name) :
    LogOn tables' b' heads' l := by
  induction l generalizing heads heads' with
  | nil => trivial
  | cons record rest ih =>
    have hrest : ∀ name, .DropTableUndoRecord name ∈ rest → tables' name = tables name :=
      fun name hm => htables name (List.mem_cons_of_mem _ hm)
    cases record with
    | row u => exact ⟨h.1.mono hheads hpath, ih h.2 hheads hpath hrest⟩
    | DropTableUndoRecord name =>
      obtain ⟨hno, entry, he, hon⟩ := h
      refine ⟨hno, entry, (htables name List.mem_cons_self).trans he, ?_⟩
      exact ih hon (fun k hk => ⟨hheads k hk.1, hk.2⟩) (fun k hk => hpath k hk.1) hrest

/-- A heap that no row record is about. -/
theorem LogOn.without (h : LogOn tables b heads l) {x : Nat}
    (hx : ∀ u, .row u ∈ l → ¬ RidOn (· = x) b u.rid) :
    LogOn tables b (fun k => heads k ∧ k ≠ x) l := by
  induction l generalizing heads with
  | nil => trivial
  | cons record rest ih =>
    have hrest : ∀ u, .row u ∈ rest → ¬ RidOn (· = x) b u.rid :=
      fun u hm => hx u (List.mem_cons_of_mem _ hm)
    cases record with
    | row u =>
      refine ⟨?_, ih h.2 hrest⟩
      have hoff := hx u List.mem_cons_self
      have hrid : RidOn heads b u.rid → RidOn (fun k => heads k ∧ k ≠ x) b u.rid := by
        rintro ⟨n, hn, k, hk, hp⟩
        refine ⟨n, hn, k, ⟨hk, ?_⟩, hp⟩
        rintro rfl
        exact hoff ⟨n, hn, k, rfl, hp⟩
      cases u with
      | DeleteUndoRecord rid => exact hrid h.1
      | RestoreUndoRecord rid t => exact ⟨hrid h.1.1, h.1.2⟩
    | DropTableUndoRecord name =>
      obtain ⟨hno, entry, he, hon⟩ := h
      refine ⟨hno, entry, he, (ih hon hrest).mono ?_ (fun _ _ _ => id) fun _ _ => rfl⟩
      exact fun k hk => ⟨⟨hk.1.1, hk.2⟩, hk.1.2⟩

theorem LogOn.registered (h : LogOn tables b heads l) {name : List UInt8}
    (hm : .DropTableUndoRecord name ∈ l) : ∃ entry, tables name = some entry := by
  induction l generalizing heads with
  | nil => cases hm
  | cons record rest ih =>
    cases record with
    | row u =>
      apply ih h.2
      simpa using hm
    | DropTableUndoRecord name' =>
      obtain ⟨_, entry, he, hon⟩ := h
      rcases List.mem_cons.mp hm with heq | hm
      · cases heq
        exact ⟨entry, he⟩
      · exact ih hon hm

theorem LogOn.not_mem (h : LogOn tables b heads l) {name : List UInt8}
    (hnone : tables name = none) : .DropTableUndoRecord name ∉ l := by
  intro hm
  obtain ⟨entry, he⟩ := h.registered hm
  rw [hnone] at he
  cases he

/-- A table is registered, and the records of its row and of its name come on top. -/
theorem LogOn.register (h : LogOn tables b heads l) {name : List UInt8} {entry : TableEntry}
    {x : Nat} {rid : RID} (hnew : tables name = none) (hentry : entry.table.table_heap = some x)
    (hx : ¬ heads x) (hheads : ∀ k, heads' k ↔ heads k ∨ k = x)
    (hpath : ∀ k, heads k → ∀ m, OnPath (succ b) k m → OnPath (succ b') k m)
    (hrid : RidOn heads b' rid) : LogOn (Function.update tables name (some entry)) b' heads'
      (.DropTableUndoRecord name :: .row (.DeleteUndoRecord rid) :: l) := by
  have hno := h.not_mem hnew
  have hother : ∀ k, heads k → heads' k ∧ entry.table.table_heap ≠ some k := by
    refine fun k hk => ⟨(hheads k).mpr (Or.inl hk), fun heq => hx ?_⟩
    rw [Option.some.inj (hentry.symm.trans heq)]
    exact hk
  refine ⟨by simpa using hno, entry, Function.update_self .., ?_, ?_⟩
  · exact hrid.mono hother fun _ _ _ => id
  · refine h.mono hother hpath fun name' hm => ?_
    rw [Function.update_of_ne]
    rintro rfl
    exact hno hm

/-- The row records of a log. -/
def rowRecords (l : List UndoRecord) : List table.UndoRecord :=
  l.filterMap fun
    | .row u => some u
    | .DropTableUndoRecord _ => none

theorem mem_rowRecords {u : table.UndoRecord} : u ∈ rowRecords l ↔ .row u ∈ l := by
  unfold rowRecords
  rw [List.mem_filterMap]
  constructor
  · rintro ⟨record, hm, he⟩
    cases record with
    | row v =>
      cases he
      exact hm
    | DropTableUndoRecord name => cases he
  · exact fun hm => ⟨_, hm, rfl⟩

theorem rowRecords_append_rows (recs : List table.UndoRecord) (l : List UndoRecord) :
    rowRecords (recs.map .row ++ l) = recs ++ rowRecords l := by
  simp [rowRecords, List.filterMap_map]

theorem LogOn.ridOn (h : LogOn tables b heads l) {u : table.UndoRecord} (hm : .row u ∈ l) :
    RidOn heads b u.rid := by
  induction l generalizing heads with
  | nil => cases hm
  | cons record rest ih =>
    cases record with
    | row v =>
      rcases List.mem_cons.mp hm with heq | hm
      · cases heq
        cases u with
        | DeleteUndoRecord rid => exact h.1
        | RestoreUndoRecord rid t => exact h.1.1
      · exact ih h.2 hm
    | DropTableUndoRecord name =>
      obtain ⟨_, entry, _, hon⟩ := h
      obtain ⟨n, hn, k, hk, hp⟩ := ih hon (by simpa using hm)
      exact ⟨n, hn, k, hk.1, hp⟩

/-- A heap that is given up takes no slot from a log that is about other heaps. -/
theorem LogOn.keepsFree {x : Nat} (h : LogOn tables b (fun k => heads k ∧ k ≠ x) l)
    {pages : List Nat} (hpages : ∀ k, heads k → k ≠ x → ∀ m, OnPath (succ b) k m → m ∉ pages)
    (hsame : ∀ m, m ∉ pages → contents b' m = contents b m)
    (hpath : ∀ k, heads k → k ≠ x → ∀ m, OnPath (succ b') k m ↔ OnPath (succ b) k m)
    (hheads : ∀ k, heads' k ↔ heads k ∧ k ≠ x) :
    KeepsFree (rowRecords l) (rows heads b) (rows heads' b') := by
  intro u hu r hr
  obtain ⟨n, hn, k, hk, hp⟩ := h.ridOn (mem_rowRecords.mp hu)
  have hrows : rows heads' b' n = rows heads b n := by
    rw [rows_on ⟨k, hk.1, hp⟩, rows_on ⟨k, (hheads k).mpr hk, (hpath k hk.1 hk.2 n).mpr hp⟩,
      hsame n (hpages k hk.1 hk.2 n hp)]
  refine ⟨r, ?_, id⟩
  rw [← hr]
  unfold rowAt
  rw [hn, Option.bind_some, Option.bind_some, hrows]

/-- No record is about a page of no heap. -/
theorem LogOn.beforeImage_off (h : LogOn tables b heads l) {n : Nat}
    (hn : ¬ OnChain (succ b) heads n) (slot : Nat) : beforeImage l ⟨some n, slot⟩ = none := by
  induction l generalizing heads with
  | nil => rfl
  | cons record rest ih =>
    cases record with
    | row u =>
      have hne : u.rid ≠ ⟨some n, slot⟩ := by
        have hrid : RidOn heads b u.rid := by
          cases u with
          | DeleteUndoRecord rid => exact h.1
          | RestoreUndoRecord rid t => exact h.1.1
        obtain ⟨m, hm, hon⟩ := hrid
        intro heq
        rw [heq] at hm
        exact hn (Option.some.inj hm ▸ hon)
      simp only [beforeImage, ih h.2 hn, if_neg hne, Option.or_none]
    | DropTableUndoRecord name =>
      obtain ⟨_, entry, _, hon⟩ := h
      apply ih hon
      rintro ⟨k, hk, hp⟩
      exact hn ⟨k, hk.1, hp⟩

end

/-! ## What an abort needs, and what it leaves -/

/-- Each restore finds its page in a frame, with changes that are not written yet and with room
for the tuple, when its turn comes. -/
def RestoresFit : CatalogSystem → List UndoRecord → Prop
  | _, [] => True
  | s, record :: rest =>
    (∀ rid tuple, record = .row (.RestoreUndoRecord rid tuple) →
      usedOn (rows s.heads s.heap.pool) rid + tuple.length ≤ kPAGE_SIZE ∧
        ∃ f, s.heap.pool.page_table rid.page_id = some f ∧
          (s.heap.pool.frames f).is_dirty = true) ∧
    ∀ t, s.undo_record record = some (.ok (), t) → RestoresFit t rest

/-- A heap that no record of the log drops. -/
def Stays (l : List UndoRecord) (s : CatalogSystem) (h : Nat) : Prop :=
  s.heads h ∧ ∀ name entry, .DropTableUndoRecord name ∈ l → s.tables name = some entry →
    entry.table.table_heap ≠ some h

/-- What the records of a log make of a catalog. -/
structure Undone (l : List UndoRecord) (s t : CatalogSystem) : Prop where
  own : t.catalog_table = s.catalog_table
  tables : ∀ name, t.tables name = if .DropTableUndoRecord name ∈ l then none else s.tables name
  onPath : ∀ h, Stays l s h → ∀ m, OnPath (succ t.heap.pool) h m ↔ OnPath (succ s.heap.pool) h m
  reads : ∀ h, Stays l s h → ∀ n slot, OnPath (succ s.heap.pool) h n →
    tupleOf (contents t.heap.pool n).rows slot =
      (beforeImage l ⟨some n, slot⟩).getD (tupleOf (contents s.heap.pool n).rows slot)

section
variable {s t : CatalogSystem} {u : table.UndoRecord} {name : List UInt8} {rest : List UndoRecord}

/-- In a pool that nobody else uses, a row record does not throw. -/
theorem Sound.undo_row_alone (S : Sound s) (hidle : ∀ n, s.heap.outside n = 0)
    (hframes : 1 ≤ s.heap.pool.pool_capacity) (hon : u.On s.heads s.heap.pool)
    (hfit : ∀ rid tuple, u = .RestoreUndoRecord rid tuple →
      Restorable (rows s.heads s.heap.pool) rid tuple ∧
        ∃ f, s.heap.pool.page_table rid.page_id = some f ∧
          (s.heap.pool.frames f).is_dirty = true) :
    ∃ b, s.undo_record (.row u) = some (.ok (), s.with_pool b) ∧
      Ran True s.heads s.heap.outside (fun _ => False) s.heap.pool b ∧
      KeepsIds s.heap.pool b ∧ rows s.heads b = undoRow (rows s.heads s.heap.pool) u ∧
      tuplesOf (rows s.heads b) =
        Function.update (tuplesOf (rows s.heads s.heap.pool)) u.rid (imageOf u) := by
  have hfree : ¬ AllPinned s.heap.pool := not_allPinned_idle S.heap.store.inv hframes hidle
  have hrow : ∀ {b}, s.undo_record (.row u) = some (.ok (), s.with_pool b) →
      (s.heap.pool.fetch_page u.rid.page_id).1 ≠ .ok none →
      Ran True s.heads s.heap.outside (fun _ => False) s.heap.pool b ∧
        rows s.heads b = undoRow (rows s.heads s.heap.pool) u ∧ tuplesOf (rows s.heads b) =
          Function.update (tuplesOf (rows s.heads s.heap.pool)) u.rid (imageOf u) := by
    intro b hundo hfetch
    obtain ⟨b', hb, R, hrows⟩ :=
      S.undo_row hon hfetch (fun rid tuple h => (hfit rid tuple h).2) hundo
    have hpool : b = b' := congrArg (fun c : CatalogSystem => c.heap.pool) hb
    exact hpool ▸ ⟨R, hrows⟩
  cases u with
  | DeleteUndoRecord rid =>
    have hfetch : (s.heap.pool.fetch_page rid.page_id).1 ≠ .ok none := by
      obtain ⟨n, hn, hp⟩ := hon
      rw [hn]
      rcases S.heap.store.fetch_page (S.heap.pages n hp).2 with ⟨f, b', hf, _⟩ | ⟨_, hall⟩
      · rw [hf]
        simp
      · exact absurd hall hfree
    obtain ⟨b, _, ⟨hd, _⟩ | ⟨hd, _⟩⟩ := delete_spec S.heap hon
    all_goals
      have hundo : s.undo_record (.row (.DeleteUndoRecord rid)) = some (.ok (), s.with_pool b) := by
        simp only [CatalogSystem.undo_record, hd]
        rfl
      obtain ⟨R, hrows⟩ := hrow hundo hfetch
      refine ⟨b, hundo, R, ?_, hrows⟩
      have hids := keepsIds_delete s.heap.pool rid
      rwa [hd] at hids
  | RestoreUndoRecord rid tuple =>
    obtain ⟨hcan, f, hf, hd⟩ := hfit rid tuple rfl
    rcases restore_spec S.heap hon.1 hon.2 fun _ => ⟨f, hf, hd⟩ with ⟨b, hr, _⟩ | ⟨_, hno⟩
    swap
    · exact absurd hcan hno
    have hundo : s.undo_record (.row (.RestoreUndoRecord rid tuple)) =
        some (.ok (), s.with_pool b) := by
      simp only [CatalogSystem.undo_record, hr]
      rfl
    obtain ⟨R, hrows⟩ := hrow hundo (fetch_cached hf)
    exact ⟨b, hundo, R, keepsIds_restore hr, hrows⟩

/-- A row record, and then the rest. -/
theorem Undone.row {b : BufferPoolManager}
    (R : Ran True s.heads s.heap.outside (fun _ => False) s.heap.pool b)
    (hids : KeepsIds s.heap.pool b) (hrows : tuplesOf (rows s.heads b) =
      Function.update (tuplesOf (rows s.heads s.heap.pool)) u.rid (imageOf u))
    (U : Undone rest (s.with_pool b) t) : Undone (.row u :: rest) s t := by
  have hstays : ∀ h, Stays (.row u :: rest) s h → Stays rest (s.with_pool b) h := fun h hs =>
    ⟨hs.1, fun name entry hm he => hs.2 name entry (List.mem_cons_of_mem _ hm) he⟩
  refine ⟨U.own, fun name => ?_, fun h hs m => ?_, fun h hs n slot hn => ?_⟩
  · rw [U.tables]
    simp [CatalogSystem.with_pool]
  · exact (U.onPath h (hstays h hs) m).trans (R.onPath_iff hids hs.1 m)
  · have hon : OnChain (succ s.heap.pool) s.heads n := ⟨h, hs.1, hn⟩
    have hon' : OnChain (succ b) s.heads n := R.onChain hon
    rw [U.reads h (hstays h hs) n slot (R.onPath h hs.1 n hn), ← tuplesOf_on hon]
    show (beforeImage rest ⟨some n, slot⟩).getD (tupleOf (contents b n).rows slot) = _
    rw [← tuplesOf_on hon', hrows]
    simp only [beforeImage]
    rcases beforeImage rest ⟨some n, slot⟩ with _ | image
    · by_cases he : u.rid = ⟨some n, slot⟩
      · rw [if_pos he, he, Function.update_self]
        rfl
      · rw [if_neg he, Function.update_of_ne (Ne.symm he)]
        rfl
    · rfl

/-- A record of a new table, and then the rest. -/
theorem Undone.drop (S : Sound s) {entry : TableEntry} (he : s.tables name = some entry) {x : Nat}
    (hx : entry.table.table_heap = some x) {l : List Nat} (hl : Path (succ s.heap.pool) (some x) l)
    {b : BufferPoolManager} (hsame : ∀ m, m ∉ l → contents b m = contents s.heap.pool m)
    (hpath : ∀ h, s.heads h → h ≠ x → ∀ m, OnPath (succ b) h m ↔ OnPath (succ s.heap.pool) h m)
    (U : Undone rest ((s.with_pool b).set_table name none) t) :
    Undone (.DropTableUndoRecord name :: rest) s t := by
  have hne : ∀ h, Stays (.DropTableUndoRecord name :: rest) s h → h ≠ x := by
    rintro h hs rfl
    exact hs.2 name entry List.mem_cons_self he hx
  have hstays : ∀ h, Stays (.DropTableUndoRecord name :: rest) s h →
      Stays rest ((s.with_pool b).set_table name none) h := by
    intro h hs
    refine ⟨(S.heads_without he hx h).mpr ⟨hs.1, hne h hs⟩, fun name' entry' hm he' => ?_⟩
    simp only [CatalogSystem.set_table, CatalogSystem.with_pool] at he'
    by_cases hn : name' = name
    · subst hn
      rw [Function.update_self] at he'
      cases he'
    · rw [Function.update_of_ne hn] at he'
      exact hs.2 name' entry' (List.mem_cons_of_mem _ hm) he'
  refine ⟨U.own, fun name' => ?_, fun h hs m => ?_, fun h hs n slot hn => ?_⟩
  · rw [U.tables]
    simp only [CatalogSystem.set_table, CatalogSystem.with_pool, List.mem_cons,
      UndoRecord.DropTableUndoRecord.injEq]
    by_cases hn : name' = name
    · subst hn
      rw [Function.update_self]
      simp
    · rw [Function.update_of_ne hn]
      simp only [hn, false_or]
  · exact (U.onPath h (hstays h hs) m).trans (hpath h hs.1 (hne h hs) m)
  · have hnl : n ∉ l := by
      intro hm
      have hh : s.heads x := Or.inr ⟨name, entry, he, hx⟩
      exact hne h hs (S.heap.forest.unique hs.1 hh hn ⟨l, hl, hm⟩)
    have hn' := (hpath h hs.1 (hne h hs) n).mpr hn
    rw [U.reads h (hstays h hs) n slot hn']
    show _ = (beforeImage rest ⟨some n, slot⟩).getD _
    rw [← hsame n hnl]
    rfl

/-- In a pool that nobody else uses, the records of a log are undone one after the other. -/
theorem undo_spec (l : List UndoRecord) (S : Sound s) (hidle : ∀ n, s.heap.outside n = 0)
    (hframes : 1 ≤ s.heap.pool.pool_capacity) (L : LogOn s.tables s.heap.pool s.heads l)
    (hfit : RestoresFit s l) (hfrees : Frees (rowRecords l) (rows s.heads s.heap.pool)) :
    ∃ t, undo s l = some (.ok (), t) ∧ Sound t ∧ Undone l s t := by
  induction l generalizing s with
  | nil =>
    refine ⟨s, rfl, S, rfl, fun name => ?_, fun _ _ _ => Iff.rfl, fun _ _ _ _ _ => rfl⟩
    simp
  | cons record rest ih =>
    obtain ⟨hrecord, hrest⟩ := hfit
    cases record with
    | row u =>
      obtain ⟨b, hundo, R, hids, hput, hrows⟩ := S.undo_row_alone hidle hframes L.1
        fun rid tuple h => by
          subst h
          obtain ⟨hroom, hframe⟩ := hrecord rid tuple rfl
          exact ⟨⟨hfrees.1, hroom⟩, hframe⟩
      have hleft : Frees (rowRecords rest) (rows s.heads b) := by
        rw [hput]
        cases u with
        | DeleteUndoRecord rid => exact hfrees
        | RestoreUndoRecord rid tuple => exact hfrees.2
      have hlog := L.2.mono (fun _ => id) R.onPath fun _ _ => rfl
      obtain ⟨t, ht, St, U⟩ := ih (S.ran R) hidle (hframes.trans (Nat.le_of_eq R.capacity.symm))
        hlog (hrest _ hundo) hleft
      refine ⟨t, ?_, St, U.row R hids hrows⟩
      simp only [undo, hundo, Option.bind_some]
      exact ht
    | DropTableUndoRecord name =>
      obtain ⟨hno, entry, he, hon⟩ := L
      rcases S.drop_entry_cases he "Catalog::delete_table" with
        ⟨x, l, b', b1, hd, hx, hh, hl, _, D, hpath, S1⟩ | ⟨_, b', _, hall, K, _⟩
      swap
      · exact absurd hall (not_allPinned_idle K.heap.store.inv (by rw [K.frames]; exact hframes) hidle)
      have hundo : s.undo_record (.DropTableUndoRecord name) =
          some (.ok (), (s.with_pool b').set_table name none) := by
        simp only [CatalogSystem.undo_record, CatalogSystem.delete_table, he]
        exact hd
      have hlog : LogOn ((s.with_pool b').set_table name none).tables b'
          ((s.with_pool b').set_table name none).heads rest := by
        refine hon.mono (fun k hk => ?_) (fun k hk m hp => ?_) fun name' hm => ?_
        · refine (S.heads_without he hx k).mpr ⟨hk.1, ?_⟩
          rintro rfl
          exact hk.2 hx
        · refine (hpath k hk.1 ?_ m).mpr hp
          rintro rfl
          exact hk.2 hx
        · simp only [CatalogSystem.set_table, CatalogSystem.with_pool]
          rw [Function.update_of_ne]
          rintro rfl
          exact hno hm
      have hoff : LogOn s.tables s.heap.pool (fun k => s.heads k ∧ k ≠ x) rest := by
        refine hon.mono (fun k hk => ⟨hk.1, ?_⟩) (fun _ _ _ => id) fun _ _ => rfl
        rintro rfl
        exact hk.2 hx
      have hkeeps : KeepsFree (rowRecords rest) (rows s.heads s.heap.pool)
          (rows ((s.with_pool b').set_table name none).heads b') := hoff.keepsFree
        (fun k hk hne m hp hm => hne (S.heap.forest.unique hk hh hp ⟨l, hl, hm⟩))
        D.same hpath (S.heads_without he hx)
      have hleft : Frees (rowRecords rest) (rows s.heads s.heap.pool) := hfrees
      obtain ⟨t, ht, St, U⟩ := ih S1 hidle (hframes.trans (Nat.le_of_eq D.frames.symm)) hlog
        (hrest _ hundo) (hleft.mono hkeeps)
      refine ⟨t, ?_, St, U.drop S he hx hl D.same hpath⟩
      simp only [undo, hundo, Option.bind_some]
      exact ht

end

end duck.catalog
