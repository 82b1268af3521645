-- A query that is run to its end: the operators are put over a table, all the
-- records are pulled, and the scan lets go of its page. Nobody else has a page
-- pinned, so that no pull is without a frame.
import DuckDbms.QueryErrors
import DuckDbms.TidyDisks

open machine pull chain

open duck.disk_manager duck.buffer_pool duck.table_heap duck.table duck.tuple

namespace duck.execution

/-! ## The model -/

/-- The operators of a query, before they are put over a table. -/
inductive Plan
  | scan
  | filter (child : Plan) (comparator : Expression)
  | projection (child : Plan) (columns : List Nat)

namespace Plan

/-- The operators over a scan of the table. -/
def operator (table : Table) : Plan → Operator
  | .scan => .seq_scan table
  | .filter child comparator => .filter (child.operator table) comparator
  | .projection child columns => .projection (child.operator table) columns

/-- The columns of the records, which are those of the table below. -/
def schema (source : Schema) (plan : Plan) : Except Failure Schema :=
  (plan.operator ⟨none, source⟩).output_schema

/-- What the operators make of records, each of them one or an error in its place. It is the same
over every table. -/
def outcomes (records : List (Except Failure Record)) (plan : Plan) :
    List (Except Failure Record) :=
  (plan.operator ⟨none, ⟨[]⟩⟩).outcomes records

/-- A comparator that has a value for a record has a BOOL. -/
def Asserts (records : List (Except Failure Record)) (plan : Plan) : Prop :=
  (plan.operator ⟨none, ⟨[]⟩⟩).Asserts records

/-- What a query over a table with these columns returns. -/
def result (source : Schema) (records : List (Except Failure Record)) (plan : Plan) :
    Except Failure (List Record) :=
  (plan.schema source).bind fun _ => allOf (plan.outcomes records)

end Plan

/-- The operators are made, pulled until the end or an exception, and destroyed. A projection
that is made throws when it has no such column. -/
def select (b : BufferPoolManager) (table : Table) (plan : Plan) :
    Option (Except Failure (List Record) × BufferPoolManager) :=
  match Scan.open_ b table.table_heap with
  | (.error e, b) => some (.error (.thrown e), b)
  | (.ok scan, b) =>
    match (plan.operator table).output_schema with
    | .error e => some (.error e, scan.close b)
    | .ok _ =>
      let fuel := 2048 * b.disk_manager.capacity + 1
      (pullAll ((plan.operator table).next fuel) fuel ⟨b, scan⟩).map fun r =>
        (r.1, r.2.scanner.close r.2.pool)

/-! ## Operators over a table -/

section
variable {table : Table} {records : List (Except Failure Record)}

theorem Plan.table_operator (plan : Plan) : (plan.operator table).table = table := by
  induction plan with
  | scan => rfl
  | filter child comparator ih => exact ih
  | projection child columns ih => exact ih

theorem Plan.output_schema_operator (plan : Plan) :
    (plan.operator table).output_schema = plan.schema table.schema := by
  induction plan with
  | scan => rfl
  | filter child comparator ih => exact ih
  | projection child columns ih => exact congrArg (·.bind (projected · columns)) ih

theorem Plan.outcomes_operator (plan : Plan) :
    (plan.operator table).outcomes records = plan.outcomes records := by
  induction plan with
  | scan => rfl
  | filter child comparator ih => exact congrArg (List.filterMap (sift (keeps comparator))) ih
  | projection child columns ih => exact congrArg (List.map (·.bind (project columns))) ih

theorem Plan.asserts_operator {plan : Plan} (h : plan.Asserts records) :
    (plan.operator table).Asserts records := by
  induction plan with
  | scan => trivial
  | filter child comparator ih =>
    refine ⟨ih h.1, ?_⟩
    rw [child.outcomes_operator]
    exact h.2
  | projection child columns ih => exact ih h

end

/-! ## Comparators that are operators -/

/-- A comparison or a connective, which has a BOOL if it has a value. -/
def Expression.is_boolean : Expression → Bool
  | .comparison _ _ _ | .binary _ _ _ | .unary _ _ => true
  | .column _ | .constant _ => false

/-- Every comparator of the plan is a comparison or a connective. -/
def Plan.is_boolean : Plan → Bool
  | .scan => true
  | .filter child comparator => child.is_boolean && comparator.is_boolean
  | .projection child _ => child.is_boolean

section
variable {v : Value}

theorem comparison_type {op : ComparisonOperator} {left right : Value}
    (h : evaluate_comparison op left right = .ok v) : v.type = .BOOL := by
  obtain ⟨cmp, _, h⟩ := bind_ok h
  split at h <;> cases h <;> rfl

theorem case_type {b : Bool} {left right : Value} (h : evaluate_case b left right = .ok v) :
    v.type = .BOOL := by
  obtain ⟨first, _, h⟩ := bind_ok h
  cases first with
  | true =>
    cases h
    rfl
  | false =>
    obtain ⟨second, _, h⟩ := bind_ok h
    cases second with
    | true =>
      cases h
      rfl
    | false =>
      have h : (if (left.is_null || right.is_null) = true then .ok (.null .BOOL)
        else .ok (.of (.bool !b))) = Except.ok v := h
      split at h <;> cases h <;> rfl

theorem binary_type {op : BinaryOperator} {left right : Value}
    (h : evaluate_binary op left right = .ok v) : v.type = .BOOL := by
  unfold evaluate_binary at h
  split at h
  · cases h
    rfl
  split at h
  · cases h
  cases op with
  | AND => exact case_type h
  | OR => exact case_type h

theorem unary_type {op : UnaryOperator} {value : Value} (h : evaluate_unary op value = .ok v) :
    v.type = .BOOL := by
  unfold evaluate_unary at h
  split at h
  · cases h
    rfl
  split at h
  · cases h
  cases op with
  | NOT =>
    rcases hb : as_bool value with e | b
    · rw [hb] at h
      cases h
    · rw [hb] at h
      cases h
      rfl

theorem Expression.is_boolean_type {e : Expression} (he : e.is_boolean = true) {record : Record}
    (h : e.evaluate record = .ok v) : v.type = .BOOL := by
  cases e with
  | column | constant => cases he
  | comparison left op right =>
    obtain ⟨_, _, h⟩ := bind_ok h
    obtain ⟨_, _, h⟩ := bind_ok h
    exact comparison_type h
  | binary left op right =>
    obtain ⟨_, _, h⟩ := bind_ok h
    obtain ⟨_, _, h⟩ := bind_ok h
    exact binary_type h
  | unary e op =>
    obtain ⟨_, _, h⟩ := bind_ok h
    exact unary_type h

end

/-- A comparator that is an operator passes the assertion of its filter. -/
theorem keeps_boolean {comparator : Expression} (h : comparator.is_boolean = true)
    (record : Record) : keeps comparator record ≠ none := by
  unfold keeps
  rcases he : comparator.evaluate record with e | v
  · exact Option.some_ne_none _
  · simp only
    rw [if_neg (not_not_intro (Expression.is_boolean_type h he))]
    exact Option.some_ne_none _

theorem Plan.asserts_boolean {plan : Plan} (h : plan.is_boolean = true)
    (records : List (Except Failure Record)) : plan.Asserts records := by
  induction plan with
  | scan => trivial
  | filter child comparator ih =>
    unfold Plan.is_boolean at h
    rw [Bool.and_eq_true] at h
    exact ⟨ih h.1, fun record _ => keeps_boolean h.2 record⟩
  | projection child columns ih => exact ih h

/-! ## The scan in a pool that nobody else uses -/

/-- The rows that a scan has before it, since it was opened in the pool `b0`. -/
def ScanFrom (heads : Nat → Prop) (b0 : BufferPoolManager) (s : ScanState)
    (rows : List (RID × List UInt8)) : Prop :=
  contents s.pool = contents b0 ∧ KeepsIds b0 s.pool ∧ ∃ n f post,
    ScanOn heads (fun _ => 0) (fun _ => False) s.pool s.scanner n f ∧
    Path (succ s.pool) (some n) (n :: post) ∧
    rows = leftOver s.pool n s.scanner.current_rid.slot_num post

section
variable {heads : Nat → Prop} {b0 : BufferPoolManager} {s : ScanState}
  {rows : List (RID × List UInt8)}

theorem ScanFrom.fetches (hframes : 1 ≤ b0.pool_capacity) (h : ScanFrom heads b0 s rows) :
    Scan.fetches_succeed (s.pool.disk_manager.capacity + 1) s.pool s.scanner = true := by
  obtain ⟨_, hids, n, f, post, S, _⟩ := h
  refine S.fetches_succeed ?_ _
  rw [hids.frames]
  exact hframes

theorem scan_from_gives : Gives heap_scan_next
    (fun s => Scan.fetches_succeed (s.pool.disk_manager.capacity + 1) s.pool s.scanner)
    (ScanFrom heads b0) := by
  refine ⟨?_⟩
  rintro s _ ⟨hsame, hids, n, f, post, S, hpath, rfl⟩ hok
  obtain ⟨s', m, g, post', hnext, hsame', hids', S', hpath', htail⟩ := gives_row S hpath hok
  exact ⟨s', hnext, hsame'.trans hsame, hids.trans hids', m, g, post', S', hpath', htail⟩

/-- Every pull of every operator finds its frames. -/
theorem Operator.fetches {fuel : Nat} (hframes : 1 ≤ b0.pool_capacity) (op : Operator) :
    ∀ s l, op.LeftEach fuel (ScanFrom heads b0) s l → op.fetches_succeed fuel s = true := by
  induction op with
  | seq_scan table =>
    rintro s l ⟨_, ⟨_, ⟨rows, hrows, _⟩, _⟩, _⟩
    exact hrows.fetches hframes
  | filter child comparator ih =>
    rintro s l ⟨all, hall, _⟩
    exact (child.gives_each scan_from_gives).filterOk ih hall fuel
  | projection child columns ih =>
    rintro s l ⟨all, hall, _⟩
    exact ih s all hall

/-- The disk stays one that can be closed. -/
theorem Operator.keeps_tidy {k fuel : Nat} (op : Operator) :
    KeepsState (op.next fuel) fun s => Tidy k s.pool := by
  have hscan : KeepsState heap_scan_next fun s => Tidy k s.pool := by
    intro s r T hr
    obtain ⟨⟨r0, b, scan⟩, hnext, rfl⟩ := Option.map_eq_some_iff.mp hr
    exact Tidy.scan_next T hnext
  induction op with
  | seq_scan table => exact (hscan.mapPull _).mapPull _
  | filter child comparator ih => exact ih.filterLoop fuel
  | projection child columns ih => exact ih.mapPull _

end

/-! ## What a query returns -/

section
variable {heads : Nat → Prop} {b : BufferPoolManager} {h k : Nat} {table : Table} {plan : Plan}

/-- A query returns what its operators make of the rows in the order of the scan, or the first
error. It changes no page, and lets go of all of them. -/
theorem select_spec (H : HeapState True (fun _ => 0) (fun _ => False) heads b)
    (T : Tidy k b) (hframes : 1 ≤ b.pool_capacity) (hh : heads h)
    (htable : table.table_heap = some h) {post : List Nat}
    (hpath : Path (succ b) (some h) (h :: post))
    (hasserts : plan.Asserts ((leftOver b h 0 post).map (record_of table))) :
    ∃ b', select b table plan = some (plan.result table.schema
        ((leftOver b h 0 post).map (record_of table)), b') ∧
      HeapState True (fun _ => 0) (fun _ => False) heads b' ∧ contents b' = contents b ∧
      KeepsIds b b' ∧ Tidy k b' := by
  unfold select
  rw [htable, plan.output_schema_operator]
  rcases H.opens hh fun m hm => hm.elim with ⟨f, b1, ho, hcont, S⟩ | ⟨_, hall⟩
  swap
  · exact absurd hall (not_allPinned_idle H.store.inv hframes fun _ => rfl)
  have hb1 : (b.fetch_page (some h)).2 = b1 := congrArg Prod.snd ho
  have hids : KeepsIds b b1 := hb1 ▸ keepsIds_fetch_page b (some h)
  have T1 : Tidy k b1 := hb1 ▸ T.fetch_page (some h)
  have hclose : ∀ {b2 : BufferPoolManager} {scan : Scan} {n f : Nat}, contents b2 = contents b →
      KeepsIds b b2 → Tidy k b2 → ScanOn heads (fun _ => 0) (fun _ => False) b2 scan n f →
      HeapState True (fun _ => 0) (fun _ => False) heads (scan.close b2) ∧
        contents (scan.close b2) = contents b ∧ KeepsIds b (scan.close b2) ∧
        Tidy k (scan.close b2) := by
    intro b2 scan n f hc hk T2 S2
    obtain ⟨H2, hc2⟩ := S2.close
    exact ⟨H2, hc2.trans hc, hk.trans (keepsIds_close b2 scan), T2.close scan⟩
  simp only [ho]
  unfold Plan.result
  rcases plan.schema table.schema with e | schema
  · exact ⟨_, rfl, hclose hcont hids T1 S⟩
  -- the rows that the scan has before it when it is opened
  have hsame := leftOver_congr (n := h) (k := 0) hcont post
  rw [← succ_congr hcont] at hpath
  have hfrom : ScanFrom heads b ⟨b1, ⟨⟨some h, 0⟩, some f⟩⟩ (leftOver b h 0 post) :=
    ⟨hcont, hids, h, f, post, S, hpath, hsame.symm⟩
  have hlen : (leftOver b h 0 post).length < 2048 * b1.disk_manager.capacity + 1 := by
    have hgood : ∀ m ∈ h :: post, (contents b1 m).good := fun m hm =>
      (S.heap.pages m ⟨h, hh, _, hpath, hm⟩).1
    have hrows := length_leftOver_le hgood 0
    have hpages := S.heap.length_le S.on hpath
    rw [List.length_cons] at hpages
    rw [hsame] at hrows
    exact Nat.lt_succ_of_le (Nat.le_trans hrows (Nat.mul_le_mul (by omega) hpages))
  have hover : (plan.operator table).Asserts
      ((leftOver b h 0 post).map (record_of (plan.operator table).table)) := by
    rw [plan.table_operator]
    exact Plan.asserts_operator hasserts
  have hleft := Operator.leftEach_of_rows hover hlen hfrom
  rw [plan.table_operator, plan.outcomes_operator] at hleft
  have hcount : (plan.outcomes ((leftOver b h 0 post).map (record_of table))).length <
      2048 * b1.disk_manager.capacity + 1 := by
    have hle := (plan.operator table).length_outcomes_le ((leftOver b h 0 post).map (record_of table))
    rw [plan.outcomes_operator, List.length_map] at hle
    exact Nat.lt_of_le_of_lt hle hlen
  obtain ⟨s, rest, hpull, hrest⟩ := ((plan.operator table).gives_each scan_from_gives).pullAll
    ((plan.operator table).fetches hframes) hleft hcount
  have T2 : Tidy k s.pool := (plan.operator table).keeps_tidy.pullAll T1 hpull
  obtain ⟨_, hc2, hids2, n, g, _, S2, _⟩ := hrest.has_base
  simp only [hpull]
  exact ⟨_, rfl, hclose hc2 hids2 T2 S2⟩

end

end duck.execution
