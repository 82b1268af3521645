-- What a query denotes, and that pulling it gives the records it denotes, in
-- their order, each with the values that its schema says.
import DuckDbms.Operators
import DuckDbms.CatalogChains

open machine pull chain

open duck.disk_manager duck.buffer_pool duck.table_heap duck.table duck.tuple

namespace duck.execution

/-! ## The denotation -/

/-- The comparator is TRUE. -/
def passes (comparator : Expression) (record : Record) : Bool :=
  match comparator.evaluate record with
  | .ok v => !v.is_null && v.data = .bool true
  | .error _ => false

/-- The comparator is TRUE, FALSE or NULL. -/
def Decides (comparator : Expression) (record : Record) : Prop :=
  ∃ v, comparator.evaluate record = .ok v ∧ v.type = .BOOL ∧
    (v.is_null = true ∨ ∃ b, v.data = .bool b)

/-- The values in the listed columns. -/
def pick (columns : List Nat) (record : Record) : Record :=
  ⟨columns.filterMap (record.values[·]?)⟩

namespace Operator

/-- What an operator gives, from the records of the scan. -/
def denotation (records : List Record) : Operator → List Record
  | .seq_scan _ => records
  | .filter child comparator => (child.denotation records).filter (passes comparator)
  | .projection child columns => (child.denotation records).map (pick columns)

/-- Each comparator is TRUE, FALSE or NULL for each record that it gets. -/
def Evaluates (records : List Record) : Operator → Prop
  | .seq_scan _ => True
  | .filter child comparator =>
    child.Evaluates records ∧ ∀ record ∈ child.denotation records, Decides comparator record
  | .projection child _ => child.Evaluates records

end Operator

/-- The values are as many as the columns, and have their types. -/
def Fits (schema : Schema) (record : Record) : Prop :=
  List.Forall₂ Typed record.values schema.columns

/-- The record of a row. -/
def record_of (table : Table) (row : RID × List UInt8) : Except Failure Record :=
  (Tuple.of_raw row.2 table.schema).map fun tuple => ⟨tuple.values⟩

theorem keeps_of_decides {comparator : Expression} {record : Record}
    (h : Decides comparator record) :
    keeps comparator record = some (.ok (passes comparator record)) := by
  obtain ⟨v, hv, htype, hdata⟩ := h
  unfold keeps passes
  rw [hv]
  simp only
  rw [if_neg (by simp [htype])]
  unfold reads as_bool
  cases hnull : v.is_null with
  | true => rfl
  | false =>
    obtain ⟨b, hb⟩ := hdata.resolve_left (by simp [hnull])
    rw [hb]
    cases b <;> rfl

theorem Operator.length_denotation_le (records : List Record) (op : Operator) :
    (op.denotation records).length ≤ records.length := by
  induction op with
  | seq_scan => exact Nat.le_refl _
  | filter child comparator ih => exact (List.length_filter_le _ _).trans ih
  | projection child columns ih =>
    unfold denotation
    rw [List.length_map]
    exact ih

/-! ## Records and schemas -/

section
variable {schema schema' : Schema} {record : Record}

theorem fits_of_record_of {table : Table} {row : RID × List UInt8}
    (h : record_of table row = .ok record) : Fits table.schema record := by
  obtain ⟨tuple, _, rfl⟩ := map_ok h
  exact tuple.typed

theorem fits_of_records {table : Table} {rows : List (RID × List UInt8)} {records : List Record}
    (h : rows.mapM (record_of table) = .ok records) : ∀ record ∈ records, Fits table.schema record := by
  induction mapM_ok.mp h with
  | nil =>
    intro record hmem
    cases hmem
  | cons hrow hrest ih =>
    intro record hmem
    rcases List.mem_cons.mp hmem with rfl | hmem
    · exact fits_of_record_of hrow
    · exact ih (mapM_ok.mpr hrest) record hmem

/-- A scan reads the tuples of the rows first, and takes their values then. -/
theorem tuples_of_records {table : Table} {rows : List (RID × List UInt8)} {records : List Record}
    (h : List.Forall₂ (fun row record => record_of table row = .ok record) rows records) :
    ∃ tuples, List.Forall₂ (fun row t => read_tuple table row = .ok t) rows tuples ∧
      List.Forall₂ (fun t record => take_values t = .ok record) tuples records := by
  induction h with
  | nil => exact ⟨[], .nil, .nil⟩
  | @cons row record _ _ hrow _ ih =>
    obtain ⟨tuples, hread, htake⟩ := ih
    obtain ⟨tuple, htuple, rfl⟩ := map_ok hrow
    refine ⟨(row.1, tuple) :: tuples, .cons ?_ hread, .cons rfl htake⟩
    unfold read_tuple
    rw [htuple]
    rfl

/-- A column of the schema has its value in the record. -/
theorem Fits.get (h : Fits schema record) {i : Nat} {c : Column} (hc : column schema i = .ok c) :
    ∃ v, record.get i = .ok v ∧ record.values[i]? = some v ∧ Typed v c := by
  obtain ⟨hlen, hget⟩ := List.forall₂_iff_get.mp h
  unfold column at hc
  split at hc
  swap
  · cases hc
  rename_i c' hsome
  cases hc
  obtain ⟨hi, rfl⟩ := List.getElem?_eq_some_iff.mp hsome
  have hlt : i < record.values.length := by omega
  have hv : record.values[i]? = some record.values[i] := List.getElem?_eq_getElem hlt
  refine ⟨_, ?_, hv, hget i hlt hi⟩
  unfold Record.get
  rw [hv]

/-- The values that are picked are there, and have the types of their columns. -/
theorem Fits.picked (h : Fits schema record) {columns : List Nat} {cs : List Column}
    (hcs : List.Forall₂ (fun i c => column schema i = .ok c) columns cs) :
    List.Forall₂ (fun i v => record.get i = .ok v) columns (pick columns record).values ∧
      List.Forall₂ Typed (pick columns record).values cs := by
  unfold pick
  induction hcs with
  | nil => exact ⟨.nil, .nil⟩
  | cons hc _ ih =>
    obtain ⟨v, hv, hsome, htyped⟩ := h.get hc
    rw [List.filterMap_cons_some hsome]
    exact ⟨.cons hv ih.1, .cons htyped ih.2⟩

/-- A projection onto columns of the schema picks their values, which fit the projected schema. -/
theorem Fits.project (h : Fits schema record) {columns : List Nat}
    (hs : projected schema columns = .ok schema') :
    project columns record = .ok (pick columns record) ∧ Fits schema' (pick columns record) := by
  obtain ⟨cs, hcs, hmake⟩ := bind_ok hs
  obtain ⟨hget, htyped⟩ := h.picked (mapM_ok.mp hcs)
  unfold Schema.make at hmake
  split at hmake
  · cases hmake
  · cases hmake
    unfold execution.project
    rw [mapM_ok.mpr hget]
    exact ⟨rfl, htyped⟩

end

/-- What an operator denotes fits its schema. -/
theorem Operator.denotation_fits {op : Operator} {schema : Schema} {records : List Record}
    (hs : op.output_schema = .ok schema) (hrecords : ∀ record ∈ records, Fits op.table.schema record) :
    ∀ record ∈ op.denotation records, Fits schema record := by
  induction op generalizing schema with
  | seq_scan table =>
    cases hs
    exact hrecords
  | filter child comparator ih =>
    intro record hmem
    exact ih hs hrecords record (List.mem_of_mem_filter hmem)
  | projection child columns ih =>
    obtain ⟨schema0, hchild, hprojected⟩ := bind_ok hs
    intro record hmem
    obtain ⟨record0, hmem0, rfl⟩ := List.mem_map.mp hmem
    exact ((ih hchild hrecords record0 hmem0).project hprojected).2

/-! ## What is left of a query -/

/-- The rows that the scan has before it. `outside` are the pins of everybody but the scan. -/
def ScanLeft (outside : Nat → Nat) (capacity : Nat) (s : ScanState)
    (rows : List (RID × List UInt8)) : Prop :=
  s.pool.disk_manager.capacity = capacity ∧ ∃ heads n f post,
    ScanOn heads outside (fun _ => False) s.pool s.scanner n f ∧
    Path (succ s.pool) (some n) (n :: post) ∧
    rows = leftOver s.pool n s.scanner.current_rid.slot_num post

/-- What an operator has left, when the scan has left what `base` says. -/
def Operator.Left (fuel : Nat) (base : ScanState → List (RID × List UInt8) → Prop) :
    Operator → ScanState → List Record → Prop
  | .seq_scan table =>
    MapLeft take_values (MapLeft (read_tuple table) base)
  | .filter child comparator =>
    FilterLeft (keeps comparator) (passes comparator) fuel (child.Left fuel base)
  | .projection child columns => MapLeft (project columns) (child.Left fuel base)

section
variable {fuel capacity : Nat} {outside outside' : Nat → Nat} {s s' : ScanState}
  {base base' : ScanState → List (RID × List UInt8) → Prop} {l : List Record}

/-- The scan gives the first row that it has before it, and stands before the others. -/
theorem gives_row {heads : Nat → Prop} {n f : Nat} {post : List Nat}
    (S : ScanOn heads outside (fun _ => False) s.pool s.scanner n f)
    (hpath : Path (succ s.pool) (some n) (n :: post))
    (hok : Scan.fetches_succeed (s.pool.disk_manager.capacity + 1) s.pool s.scanner = true) :
    ∃ s' m g post',
      heap_scan_next s = some
        (.ok (leftOver s.pool n s.scanner.current_rid.slot_num post).head?, s') ∧
      contents s'.pool = contents s.pool ∧ KeepsIds s.pool s'.pool ∧
      ScanOn heads outside (fun _ => False) s'.pool s'.scanner m g ∧
      Path (succ s'.pool) (some m) (m :: post') ∧
      (leftOver s.pool n s.scanner.current_rid.slot_num post).tail =
        leftOver s'.pool m s'.scanner.current_rid.slot_num post' := by
  have hlen := S.heap.length_le S.on hpath
  rw [List.length_cons] at hlen
  obtain ⟨r, b', scan', mid, m, post', hnext, St⟩ := S.next_left hpath (by omega) hok
  obtain ⟨g, S'⟩ := St.standing
  have hpath' : Path (succ b') (some m) (m :: post') := by
    rw [succ_congr St.same]
    rw [St.pages] at hpath
    exact hpath.from_node
  have hstate : heap_scan_next s = some (.ok r, ⟨b', scan'⟩) := by
    unfold heap_scan_next
    rw [hnext]
    rfl
  refine ⟨⟨b', scan'⟩, m, g, post', ?_, St.same, keepsIds_scan_next hnext, S', hpath', ?_⟩
  · rw [hstate, St.left]
    cases r with
    | none =>
      rw [St.ended rfl]
      rfl
    | some row => rfl
  · rw [St.left, leftOver_congr St.same]
    cases r with
    | none =>
      rw [St.ended rfl]
      rfl
    | some row => rfl

/-- The scan gives the rows that it has before it. -/
theorem heap_scan_gives : Gives heap_scan_next
    (fun s => Scan.fetches_succeed (s.pool.disk_manager.capacity + 1) s.pool s.scanner)
    (ScanLeft outside capacity) := by
  refine ⟨?_⟩
  rintro s _ ⟨hcap, heads, n, f, post, S, hpath, rfl⟩ hok
  obtain ⟨s', m, g, post', hnext, _, hids, S', hpath', htail⟩ := gives_row S hpath hok
  refine ⟨s', hnext, ?_, heads, m, g, post', S', hpath', htail⟩
  rw [hids.disk]
  exact hcap

/-- Each operator gives what it has left. -/
theorem Operator.gives (G : Gives heap_scan_next
    (fun s => Scan.fetches_succeed (s.pool.disk_manager.capacity + 1) s.pool s.scanner) base)
    (op : Operator) : Gives (op.next fuel) (op.fetches_succeed fuel) (op.Left fuel base) := by
  induction op with
  | seq_scan table => exact (G.mapPull _).mapPull _
  | filter child comparator ih => exact ih.filterLoop fuel
  | projection child columns ih => exact ih.mapPull _

/-- The rows of the scan decide what is left. -/
theorem Operator.Left.mono {op : Operator} (h : op.Left fuel base s l)
    (hb : ∀ rows, base s rows → base' s' rows) : op.Left fuel base' s' l := by
  induction op generalizing l with
  | seq_scan table =>
    obtain ⟨tuples, ⟨rows, hrows, htuples⟩, hrecords⟩ := h
    exact ⟨tuples, ⟨rows, hb rows hrows, htuples⟩, hrecords⟩
  | filter child comparator ih =>
    obtain ⟨all, hall, hrest⟩ := h
    exact ⟨all, ih hall, hrest⟩
  | projection child columns ih =>
    obtain ⟨all, hall, hrest⟩ := h
    exact ⟨all, ih hall, hrest⟩

theorem Operator.Left.has_base {op : Operator} (h : op.Left fuel base s l) :
    ∃ rows, base s rows := by
  induction op generalizing l with
  | seq_scan table =>
    obtain ⟨_, ⟨rows, hrows, _⟩, _⟩ := h
    exact ⟨rows, hrows⟩
  | filter child comparator ih =>
    obtain ⟨all, hall, _⟩ := h
    exact ih hall
  | projection child columns ih =>
    obtain ⟨all, hall, _⟩ := h
    exact ih hall

/-- Before the first pull all that the operator denotes is left. -/
theorem Operator.left_of_records {op : Operator} {schema : Schema} {rows : List (RID × List UInt8)}
    {records : List Record} (hs : op.output_schema = .ok schema)
    (hrecords : rows.mapM (record_of op.table) = .ok records) (he : op.Evaluates records)
    (hfuel : records.length < fuel) (hb : base s rows) :
    op.Left fuel base s (op.denotation records) := by
  induction op generalizing schema with
  | seq_scan table =>
    obtain ⟨tuples, hread, htake⟩ := tuples_of_records (mapM_ok.mp hrecords)
    exact ⟨tuples, ⟨rows, hb, hread⟩, htake⟩
  | filter child comparator ih =>
    refine ⟨_, ih hs hrecords he.1, fun record hmem => keeps_of_decides (he.2 record hmem), ?_, rfl⟩
    exact Nat.lt_of_le_of_lt (child.length_denotation_le records) hfuel
  | projection child columns ih =>
    obtain ⟨schema0, hchild, hprojected⟩ := bind_ok hs
    have hfits := denotation_fits hchild (fits_of_records hrecords)
    refine ⟨_, ih hchild hrecords he, List.forall₂_map_right_iff.mpr (List.forall₂_same.mpr ?_)⟩
    exact fun record hmem => ((hfits record hmem).project hprojected).1

end

/-! ## Others between the pulls -/

theorem pinMore_comm (pins : Nat → Nat) (n m : Nat) :
    pinMore (pinMore pins n) m = pinMore (pinMore pins m) n := by
  funext k
  simp only [pinMore_apply]
  grind

theorem pinLess_pinMore_comm {pins : Nat → Nat} {n m : Nat} (h : 0 < pins m) :
    pinLess (pinMore pins n) m = pinMore (pinLess pins m) n := by
  funext k
  simp only [pinMore_apply, pinLess_apply]
  grind

section
variable {capacity q : Nat} {outside : Nat → Nat} {s : ScanState}
  {rows : List (RID × List UInt8)}

/-- A page that comes in leaves the page of the scan where it is. -/
theorem ScanLeft.fetch (h : ScanLeft outside capacity s rows)
    (ha : Allocated s.pool.disk_manager q) {g : Nat} {b : BufferPoolManager}
    (hf : s.pool.fetch_page (some q) = (.ok (some g), b)) :
    ScanLeft (pinMore outside q) capacity ⟨b, s.scanner⟩ rows := by
  obtain ⟨hcap, heads, n, f, post, S, hpath, rfl⟩ := h
  rcases S.heap.store.fetch_page ha with ⟨g', b', hf', B, hc⟩ | ⟨hf', _⟩
  swap
  · rw [hf] at hf'
    cases hf'
  rw [hf] at hf'
  cases hf'
  have H := S.heap.same_contents B.store hc (allocated_congr B.disk)
  rw [pinMore_comm] at H
  refine ⟨B.disk.1.trans hcap, heads, n, f, post, ⟨H, fun m hm => hm.elim, ?_, S.page, ?_, S.rid,
    S.slot⟩, ?_, (leftOver_congr hc post).symm⟩
  · rw [succ_congr hc]
    exact S.on
  · refine B.pinned n f S.table ?_
    rw [pinMore_apply, if_pos rfl]
    exact Nat.succ_pos _
  · rw [succ_congr hc]
    exact hpath

/-- There are not more rows than slots. -/
theorem ScanLeft.length_le (h : ScanLeft outside capacity s rows) :
    rows.length ≤ 2047 * capacity := by
  obtain ⟨rfl, heads, n, f, post, S, hpath, rfl⟩ := h
  have hlen := S.heap.length_le S.on hpath
  obtain ⟨h, hh, l, hl, hn⟩ := S.on
  obtain ⟨pre, suf, rfl, hs⟩ := hl.suffix hn
  have hon : ∀ m ∈ n :: post, OnChain (succ s.pool) heads m := fun m hm =>
    ⟨h, hh, _, hl, List.mem_append_right pre (hs.unique hpath ▸ hm)⟩
  have hrows := length_leftOver_le (fun m hm => (S.heap.pages m (hon m hm)).1)
    s.scanner.current_rid.slot_num
  exact hrows.trans (Nat.mul_le_mul_left 2047 hlen)

theorem ScanLeft.unpin (h : ScanLeft outside capacity s rows) (hpos : 0 < outside q) :
    ScanLeft (pinLess outside q) capacity ⟨s.pool.unpin_page (some q) false, s.scanner⟩ rows := by
  obtain ⟨hcap, heads, n, f, post, S, hpath, rfl⟩ := h
  have hpins : 0 < pinMore outside n q := by
    rw [pinMore_apply]
    split <;> omega
  obtain ⟨S1, hc, ht, hd, _⟩ := S.heap.store.unpin_page (fun _ => False) hpins false
    (fun m => id) (fun m hm => hm.elim) fun hm => hm.elim
  have H := S.heap.same_contents S1 hc fun k => by
    rw [hd]
    exact id
  rw [pinLess_pinMore_comm hpos] at H
  refine ⟨by rw [hd]; exact hcap, heads, n, f, post, ⟨H, fun m hm => hm.elim, ?_, S.page, ?_, S.rid,
    S.slot⟩, ?_, (leftOver_congr hc post).symm⟩
  · rw [succ_congr hc]
    exact S.on
  · rw [ht]
    exact S.table
  · rw [succ_congr hc]
    exact hpath

end

/-! ## Queries -/

section
variable {h : Nat} {s0 s t : Query} {rows : List (RID × List UInt8)}

/-- A scan that was opened has the rows of its table before it. -/
theorem scanLeft_start (hs : (queryMachine h).start s) (hrows : RowsInOrder h s.state.pool rows) :
    ScanLeft s.outside s.state.pool.disk_manager.capacity s.state rows := by
  obtain ⟨_, _, hpage, b, heads, hh, H, ho⟩ := hs
  rcases H.opens hh fun m hm => hm.elim with ⟨f, b', ho', hc, S⟩ | ⟨ho', _⟩ <;> rw [ho'] at ho <;>
    simp only [Prod.mk.injEq, Except.ok.injEq] at ho
  · obtain ⟨hscan, rfl⟩ := ho
    obtain ⟨l, hl, rfl⟩ := hrows
    obtain ⟨post, rfl⟩ : ∃ post, l = h :: post := by
      cases hl
      exact ⟨_, rfl⟩
    refine ⟨rfl, heads, h, f, post, hscan ▸ S, hl, ?_⟩
    rw [← hscan, List.flatMap_cons]
    rfl
  · rw [← ho.1] at hpage
    exact absurd rfl hpage

/-- What was returned and what is left is what the query denotes. -/
structure QueryAt (capacity : Nat) (root : Operator) (expected : List Record) (s : Query)
    (left : List Record) : Prop where
  same : s.root = root
  split : s.returned ++ left = expected
  left : root.Left (2048 * capacity + 1) (ScanLeft s.outside capacity) s.state left

section
variable {capacity : Nat} {root : Operator} {expected left : List Record}

theorem QueryAt.fuel (Q : QueryAt capacity root expected s left) :
    s.fuel = 2048 * capacity + 1 := by
  obtain ⟨rows, hcap, _⟩ := Q.left.has_base
  unfold Query.fuel
  rw [hcap]

/-- A pull returns the first record that is left. -/
theorem QueryAt.pulls (Q : QueryAt capacity root expected s left) (hok : FetchesSucceed s .next) :
    ∃ state, s.query_next = some (.ok left.head?, state) ∧
      root.Left (2048 * capacity + 1) (ScanLeft s.outside capacity) state left.tail := by
  unfold FetchesSucceed at hok
  unfold Query.query_next
  rw [Q.same, Q.fuel] at hok ⊢
  exact (Operator.gives heap_scan_gives root).first Q.left hok

theorem QueryAt.next (Q : QueryAt capacity root expected s left) {e : QueryEvent}
    (hok : FetchesSucceed s e) (hn : (queryMachine h).next s e = some t) :
    ∃ left', QueryAt capacity root expected t left' := by
  cases e with
  | next =>
    obtain ⟨state, hpull, hleft⟩ := Q.pulls hok
    change (s.query_next.map _) = _ at hn
    rw [hpull] at hn
    cases hn
    refine ⟨left.tail, Q.same, ?_, hleft⟩
    rw [← Q.split]
    cases left with
    | nil => simp
    | cons record left => simp
  | fetch n =>
    change (if _ then _ else _) = _ at hn
    split at hn
    swap
    · cases hn
    rename_i ha
    obtain ⟨_, _, _, _, _, _, S, _⟩ := Q.left.has_base
    rcases S.heap.store.fetch_page ha with ⟨f, b, hf, _⟩ | ⟨hf, _⟩
    · rw [hf] at hn
      cases hn
      exact ⟨left, Q.same, Q.split, Q.left.mono fun rows hrows => hrows.fetch ha hf⟩
    · rw [hf] at hn
      cases hn
      exact ⟨left, Q⟩
  | unpin n =>
    change (if _ then _ else _) = _ at hn
    split at hn
    swap
    · cases hn
    rename_i hpos
    cases hn
    exact ⟨left, Q.same, Q.split, Q.left.mono fun rows hrows => hrows.unpin hpos⟩

/-- For every table whose rows have records, and every tree of operators over a scan of it: as
long as the pages that it fetches get a frame, a query returns the records that it denotes, one
after the other, and then none. Each of them fits its schema. -/
theorem a_query_returns_what_it_denotes {rows : List (RID × List UInt8)} {records : List Record}
    {schema : Schema} {events : List QueryEvent} (h0 : (queryMachine h).start s0)
    (hrows : RowsInOrder h s0.state.pool rows)
    (hrecords : rows.mapM (record_of s0.root.table) = .ok records)
    (hschema : s0.root.output_schema = .ok schema) (hevaluates : s0.root.Evaluates records)
    (hrun : (queryMachine h).Run FetchesSucceed s0 events s) :
    (∀ record ∈ s.returned, Fits schema record) ∧
    ∃ left, s.returned ++ left = s0.root.denotation records ∧
      (FetchesSucceed s .next → ∃ state, s.query_next = some (.ok left.head?, state)) := by
  have hleft := scanLeft_start h0 hrows
  have hlen : records.length < 2048 * s0.state.pool.disk_manager.capacity + 1 := by
    have := hleft.length_le
    rw [← (mapM_ok.mp hrecords).length_eq]
    omega
  have Q0 : QueryAt s0.state.pool.disk_manager.capacity s0.root (s0.root.denotation records) s0
      (s0.root.denotation records) := by
    refine ⟨rfl, ?_, Operator.left_of_records hschema hrecords hevaluates hlen hleft⟩
    rw [h0.2.1, List.nil_append]
  obtain ⟨left, Q⟩ := hrun.invariant (I := fun s => ∃ left, QueryAt _ _ _ s left) ⟨_, Q0⟩
    fun s e t _ ⟨left, Q⟩ hok hn => Q.next hok hn
  refine ⟨fun record hmem => ?_, left, Q.split, fun hok => ?_⟩
  · apply Operator.denotation_fits hschema (fits_of_records hrecords)
    rw [← Q.split]
    exact List.mem_append_left left hmem
  · obtain ⟨state, hpull, _⟩ := Q.pulls hok
    exact ⟨state, hpull⟩

end

end

/-- A query of any table of a catalog that is reached, when its scan gets a first frame, is one
of the machine. -/
theorem query_of_a_catalog_table {system : duck.catalog.CatalogSystem}
    (hr : duck.catalog.catalogMachine.Reach duck.catalog.OwnRids system) {name : List UInt8}
    {entry : duck.catalog.TableEntry} (he : system.tables name = some entry) {root : Operator}
    (hroot : root.table = entry.table) {state : ScanState}
    (ho : Scan.open_ system.heap.pool entry.table.table_heap = (.ok state.scanner, state.pool))
    (hpage : state.scanner.current_page ≠ none) :
    ∃ h, (queryMachine h).start ⟨root, state, system.heap.outside, []⟩ := by
  have S := duck.catalog.sound_reach hr
  obtain ⟨h, hh, hhead⟩ := S.head he
  rw [hh] at ho
  refine ⟨h, ?_, rfl, hpage, system.heap.pool, system.heads, hhead, S.heap, ho⟩
  rw [hroot, hh]

/-! ## A query of a table with two rows -/

def numbers : Table := ⟨some 1, ⟨[⟨"n".toUTF8.toList, .INT32, 0⟩]⟩⟩

/-- The numbers from 2 on, twice. -/
def large_numbers : Operator :=
  .projection (.filter (.seq_scan numbers)
    (.comparison (.column 0) .GREATER_EQ (.constant (.of (.int32 2))))) [0, 0]

/-- A new heap with two rows. -/
def heap_of_rows (t u : List UInt8) : Option BufferPoolManager :=
  (insert_tuple (create (empty_pool 2)).2 (some 1) t).bind fun r =>
    (insert_tuple r.2 (some 1) u).map (·.2)

theorem heap_of_rows_state {b : BufferPoolManager} {t u : List UInt8} (h : heap_of_rows t u = some b) :
    HeapState True (fun _ => 0) (fun _ => False) (· = 1) b := by
  obtain ⟨⟨_, b1⟩, h1, h⟩ := Option.bind_eq_some_iff.mp h
  obtain ⟨⟨_, b2⟩, h2, rfl⟩ := Option.map_eq_some_iff.mp h
  have H1 := (new_heap_start.1.insert_tuple rfl h1 fun he => absurd trivial he).1.heap
  exact (H1.insert_tuple rfl h2 fun he => absurd trivial he).1.heap

/-- The rows 1 and 3. -/
def two_numbers : Option BufferPoolManager := heap_of_rows [0, 1, 0, 0, 0] [0, 3, 0, 0, 0]

def query_of (root : Operator) (b : BufferPoolManager) : Option Query :=
  match Scan.open_ b (some 1) with
  | (.ok scanner, pool) => some ⟨root, ⟨pool, scanner⟩, fun _ => 0, []⟩
  | _ => none

theorem query_of_start {b : BufferPoolManager} {root : Operator} {s : Query} {t u : List UInt8}
    (hb : heap_of_rows t u = some b) (hroot : root.table.table_heap = some 1) (hs : query_of root b = some s)
    (hpage : s.state.scanner.current_page.isSome = true) : (queryMachine 1).start s := by
  unfold query_of at hs
  split at hs
  · rename_i scanner pool ho
    cases hs
    exact ⟨hroot, rfl, Option.isSome_iff_ne_none.mp hpage, b, (· = 1), rfl, heap_of_rows_state hb, ho⟩
  · cases hs

/-- Whether a comparator is TRUE, FALSE or NULL. -/
def decides (comparator : Expression) (record : Record) : Bool :=
  match comparator.evaluate record with
  | .ok ⟨.BOOL, true, _⟩ | .ok ⟨.BOOL, _, .bool _⟩ => true
  | _ => false

theorem decides_of_check {comparator : Expression} {record : Record}
    (h : decides comparator record = true) : Decides comparator record := by
  unfold decides at h
  split at h
  · rename_i hv
    exact ⟨_, hv, rfl, .inl rfl⟩
  · rename_i hv
    exact ⟨_, hv, rfl, .inr ⟨_, rfl⟩⟩
  · cases h

theorem toOption_eq_some {α : Type} {x : Except Failure α} {a : α} (h : x.toOption = some a) :
    x = .ok a := by
  cases x with
  | error e => cases h
  | ok b =>
    cases h
    rfl

/-- The filter skips the first number. -/
theorem a_query_returns_the_number_that_passes : ∃ s0 records left s,
    (queryMachine 1).Run FetchesSucceed s0 [.next] s ∧ records.length = 2 ∧ s.returned.length = 1 ∧
      s.returned ++ left = s0.root.denotation records ∧
      (FetchesSucceed s .next → ∃ state, s.query_next = some (.ok left.head?, state)) := by
  obtain ⟨⟨s0, records, s⟩, hx, hp⟩ : ∃ x : Query × List Record × Query,
      (two_numbers.bind fun b => (query_of large_numbers b).bind fun s0 =>
        ((liveFrom s0.state.pool 1 0).mapM (record_of numbers)).toOption.bind fun records =>
          ((queryMachine 1).execIf (fun s _ => s.root.fetches_succeed s.fuel s.state) s0
            [.next]).map fun s => (s0, records, s)) = some x ∧
      (x.1.state.scanner.current_page.isSome && (succ x.1.state.pool 1).isNone &&
        x.2.1.all (decides (.comparison (.column 0) .GREATER_EQ (.constant (.of (.int32 2))))) &&
        x.2.1.length == 2 && x.2.2.returned.length == 1) = true := by
    apply Option.map_eq_some_iff.mp
    decide +kernel
  obtain ⟨b, hb, hx⟩ := Option.bind_eq_some_iff.mp hx
  obtain ⟨s1, hs1, hx⟩ := Option.bind_eq_some_iff.mp hx
  obtain ⟨records1, hrecords, hx⟩ := Option.bind_eq_some_iff.mp hx
  obtain ⟨s2, hrun, hx⟩ := Option.map_eq_some_iff.mp hx
  cases hx
  simp only [Bool.and_eq_true, Option.isNone_iff_eq_none, List.all_eq_true, beq_iff_eq] at hp
  obtain ⟨⟨⟨⟨hpage, hend⟩, hall⟩, htwo⟩, hone⟩ := hp
  have hroot : s0.root = large_numbers := by
    unfold query_of at hs1
    split at hs1
    · cases hs1
      rfl
    · cases hs1
  have hstart := query_of_start hb rfl hs1 hpage
  have hrows : RowsInOrder 1 s0.state.pool (liveFrom s0.state.pool 1 0) := by
    refine ⟨[1], .cons ?_, by simp⟩
    rw [hend]
    exact .nil
  have hevents : (queryMachine 1).Run FetchesSucceed s0 [.next] s :=
    Machine.run_of_execIf (fun s e he => by cases e <;> first | exact he | trivial) hrun
  have hdecode : (liveFrom s0.state.pool 1 0).mapM (record_of s0.root.table) = .ok records := by
    rw [hroot]
    exact toOption_eq_some hrecords
  have hevaluates : s0.root.Evaluates records := by
    rw [hroot]
    exact ⟨trivial, fun record hmem => decides_of_check (hall record hmem)⟩
  have hschema : s0.root.output_schema = .ok ⟨numbers.schema.columns ++ numbers.schema.columns⟩ := by
    rw [hroot]
    rfl
  obtain ⟨_, left, hleft, hnext⟩ := a_query_returns_what_it_denotes hstart hrows hdecode hschema
    hevaluates hevents
  exact ⟨s0, records, left, s, hevents, htwo, hone, hleft, hnext⟩

end duck.execution
