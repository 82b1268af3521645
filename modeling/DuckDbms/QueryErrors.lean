-- Queries whose records cannot all be made: a row that does not decode, a value
-- that a comparator throws at, a column that is not there. A pull raises the
-- error in the place of its record, and the next one goes on behind it.
import DuckDbms.Queries

open machine pull chain

open duck.disk_manager duck.buffer_pool duck.table_heap duck.table duck.tuple

namespace duck.execution

/-! ## The denotation -/

namespace Operator

/-- What an operator gives from what the scan gives, each record or the error in its place. -/
def outcomes (records : List (Except Failure Record)) : Operator → List (Except Failure Record)
  | .seq_scan _ => records
  | .filter child comparator => (child.outcomes records).filterMap (sift (keeps comparator))
  | .projection child columns => (child.outcomes records).map (·.bind (project columns))

/-- The assertion of `FilterOperator::next` holds: a comparator that has a value for a record
has a BOOL. -/
def Asserts (records : List (Except Failure Record)) : Operator → Prop
  | .seq_scan _ => True
  | .filter child comparator => child.Asserts records ∧
      ∀ record, .ok record ∈ child.outcomes records → keeps comparator record ≠ none
  | .projection child _ => child.Asserts records

theorem length_outcomes_le (records : List (Except Failure Record)) (op : Operator) :
    (op.outcomes records).length ≤ records.length := by
  induction op with
  | seq_scan => exact Nat.le_refl _
  | filter child comparator ih => exact (List.length_filterMap_le _ _).trans ih
  | projection child columns ih =>
    unfold outcomes
    rw [List.length_map]
    exact ih

/-- Where nothing fails the outcomes are the records that the operator denotes. -/
theorem outcomes_of_evaluates {op : Operator} {schema : Schema} {records : List Record}
    (hs : op.output_schema = .ok schema) (hrecords : ∀ record ∈ records, Fits op.table.schema record)
    (he : op.Evaluates records) :
    op.outcomes (records.map .ok) = (op.denotation records).map .ok := by
  induction op generalizing schema with
  | seq_scan table => rfl
  | filter child comparator ih =>
    unfold outcomes denotation
    rw [ih hs hrecords he.1]
    have hdecides := he.2
    generalize child.denotation records = l at hdecides
    induction l with
    | nil => rfl
    | cons record l ihl =>
      have hkeep := keeps_of_decides (hdecides record List.mem_cons_self)
      have hrest := ihl fun r hr => hdecides r (List.mem_cons_of_mem _ hr)
      cases hp : passes comparator record with
      | true =>
        have hsift : sift (keeps comparator) (.ok record) = some (.ok record) := by
          unfold sift
          simp only [hkeep, hp]
        rw [List.map_cons, List.filterMap_cons_some hsift, List.filter_cons_of_pos hp,
          List.map_cons, hrest]
      | false =>
        have hsift : sift (keeps comparator) (.ok record) = none := by
          unfold sift
          simp only [hkeep, hp]
        rw [List.map_cons, List.filterMap_cons_none hsift, List.filter_cons_of_neg (by simp [hp]),
          hrest]
  | projection child columns ih =>
    obtain ⟨schema0, hchild, hprojected⟩ := bind_ok hs
    have hfits := denotation_fits hchild hrecords
    unfold outcomes denotation
    rw [ih hchild hrecords he, List.map_map, List.map_map]
    refine List.map_congr_left fun record hmem => ?_
    exact ((hfits record hmem).project hprojected).1

end Operator

/-! ## What is left of a query -/

/-- What an operator has left, when the scan has the rows left that `base` says. -/
def Operator.LeftEach (fuel : Nat) (base : ScanState → List (RID × List UInt8) → Prop) :
    Operator → ScanState → List (Except Failure Record) → Prop
  | .seq_scan table => MapEach take_values (MapEach (read_tuple table) (AllOk base))
  | .filter child comparator => SiftEach (keeps comparator) fuel (child.LeftEach fuel base)
  | .projection child columns => MapEach (project columns) (child.LeftEach fuel base)

section
variable {fuel capacity : Nat} {outside outside' : Nat → Nat} {s s' : ScanState}
  {base base' : ScanState → List (RID × List UInt8) → Prop} {l : List (Except Failure Record)}

/-- Each operator gives what it has left. -/
theorem Operator.gives_each (G : Gives heap_scan_next
    (fun s => Scan.fetches_succeed (s.pool.disk_manager.capacity + 1) s.pool s.scanner) base)
    (op : Operator) : GivesEach (op.next fuel) (op.fetches_succeed fuel) (op.LeftEach fuel base) := by
  induction op with
  | seq_scan table => exact (G.each.mapPull _).mapPull _
  | filter child comparator ih => exact ih.filterLoop fuel
  | projection child columns ih => exact ih.mapPull _

/-- The rows of the scan decide what is left. -/
theorem Operator.LeftEach.mono {op : Operator} (h : op.LeftEach fuel base s l)
    (hb : ∀ rows, base s rows → base' s' rows) : op.LeftEach fuel base' s' l := by
  induction op generalizing l with
  | seq_scan table =>
    obtain ⟨_, ⟨_, ⟨rows, hrows, rfl⟩, rfl⟩, rfl⟩ := h
    exact ⟨_, ⟨_, ⟨rows, hb rows hrows, rfl⟩, rfl⟩, rfl⟩
  | filter child comparator ih =>
    obtain ⟨all, hall, hrest⟩ := h
    exact ⟨all, ih hall, hrest⟩
  | projection child columns ih =>
    obtain ⟨all, hall, hrest⟩ := h
    exact ⟨all, ih hall, hrest⟩

theorem Operator.LeftEach.has_base {op : Operator} (h : op.LeftEach fuel base s l) :
    ∃ rows, base s rows := by
  induction op generalizing l with
  | seq_scan table =>
    obtain ⟨_, ⟨_, ⟨rows, hrows, _⟩, _⟩, _⟩ := h
    exact ⟨rows, hrows⟩
  | filter child comparator ih =>
    obtain ⟨all, hall, _⟩ := h
    exact ih hall
  | projection child columns ih =>
    obtain ⟨all, hall, _⟩ := h
    exact ih hall

/-- The scan decodes its rows one by one. -/
theorem take_values_of_rows (table : Table) (rows : List (RID × List UInt8)) :
    (((rows.map (.ok : _ → Except Failure (RID × List UInt8))).map (·.bind (read_tuple table))).map
      (·.bind take_values)) = rows.map (record_of table) := by
  rw [List.map_map, List.map_map]
  refine List.map_congr_left fun row _ => ?_
  simp only [Function.comp_apply, Except.bind]
  unfold read_tuple record_of
  rcases Tuple.of_raw row.2 table.schema with e | tuple <;> rfl

/-- Before the first pull everything is left. -/
theorem Operator.leftEach_of_rows {op : Operator} {rows : List (RID × List UInt8)}
    (ha : op.Asserts (rows.map (record_of op.table))) (hfuel : rows.length < fuel)
    (hb : base s rows) :
    op.LeftEach fuel base s (op.outcomes (rows.map (record_of op.table))) := by
  induction op with
  | seq_scan table => exact ⟨_, ⟨_, ⟨rows, hb, rfl⟩, rfl⟩, (take_values_of_rows table rows).symm⟩
  | filter child comparator ih =>
    refine ⟨_, ih ha.1, ha.2, ?_, rfl⟩
    have hle := child.length_outcomes_le (rows.map (record_of child.table))
    rw [List.length_map] at hle
    exact Nat.lt_of_le_of_lt hle hfuel
  | projection child columns ih => exact ⟨_, ih ha, rfl⟩

end

/-! ## Queries -/

/-- The number of pulls among the events. -/
def pulls (events : List QueryEvent) : Nat :=
  events.countP fun e =>
    match e with
    | .next => true
    | _ => false

section
variable {h : Nat} {s0 s t : Query}

/-- After `k` pulls the first `k` outcomes are over, and the records among them were returned. -/
structure PulledTo (capacity : Nat) (root : Operator) (expected : List (Except Failure Record))
    (s : Query) (k : Nat) : Prop where
  same : s.root = root
  returned : s.returned = (expected.take k).filterMap Except.toOption
  left : root.LeftEach (2048 * capacity + 1) (ScanLeft s.outside capacity) s.state (expected.drop k)

section
variable {capacity k : Nat} {root : Operator} {expected : List (Except Failure Record)}

/-- A pull gives the outcome that is next. -/
theorem PulledTo.pulls (Q : PulledTo capacity root expected s k) (hok : FetchesSucceed s .next) :
    ∃ state, s.query_next = some (firstOf (expected.drop k), state) ∧
      root.LeftEach (2048 * capacity + 1) (ScanLeft s.outside capacity) state
        (expected.drop (k + 1)) := by
  have hfuel : s.fuel = 2048 * capacity + 1 := by
    obtain ⟨rows, hcap, _⟩ := Q.left.has_base
    unfold Query.fuel
    rw [hcap]
  unfold FetchesSucceed at hok
  unfold Query.query_next
  rw [Q.same, hfuel] at hok ⊢
  rw [← List.tail_drop]
  exact (Operator.gives_each heap_scan_gives root).first Q.left hok

/-- The records among the first outcomes, with one more. -/
theorem returned_snoc (expected : List (Except Failure Record)) (k : Nat) :
    (expected.take k).filterMap Except.toOption ++ ((firstOf (expected.drop k)).toOption.join).toList =
      (expected.take (k + 1)).filterMap Except.toOption := by
  rw [List.take_add_one, List.filterMap_append, ← List.head?_drop]
  rcases expected.drop k with _ | ⟨e | record, rest⟩ <;> rfl

theorem PulledTo.next (Q : PulledTo capacity root expected s k) {e : QueryEvent}
    (hok : FetchesSucceed s e) (hn : (queryMachine h).next s e = some t) :
    PulledTo capacity root expected t (k + execution.pulls [e]) := by
  cases e with
  | next =>
    obtain ⟨state, hpull, hleft⟩ := Q.pulls hok
    change (s.query_next.map _) = _ at hn
    rw [hpull] at hn
    cases hn
    refine ⟨Q.same, ?_, hleft⟩
    show s.returned ++ _ = (expected.take (k + 1)).filterMap Except.toOption
    rw [← returned_snoc, Q.returned]
    rcases firstOf (expected.drop k) with e | _ | record <;> rfl
  | fetch n =>
    change (if _ then _ else _) = _ at hn
    split at hn
    swap
    · cases hn
    rename_i ha
    obtain ⟨_, _, _, _, _, _, S, _⟩ := Q.left.has_base
    rcases S.heap.store.fetch_page ha with ⟨f, b, hf, _⟩ | ⟨hf, _⟩
    · rw [hf] at hn
      cases hn
      exact ⟨Q.same, Q.returned, Q.left.mono fun rows hrows => hrows.fetch ha hf⟩
    · rw [hf] at hn
      cases hn
      exact Q
  | unpin n =>
    change (if _ then _ else _) = _ at hn
    split at hn
    swap
    · cases hn
    rename_i hpos
    cases hn
    exact ⟨Q.same, Q.returned, Q.left.mono fun rows hrows => hrows.unpin hpos⟩

theorem PulledTo.run {events : List QueryEvent} (Q : PulledTo capacity root expected s0 0)
    (hrun : (queryMachine h).Run FetchesSucceed s0 events s) :
    PulledTo capacity root expected s (execution.pulls events) := by
  induction hrun with
  | nil => exact Q
  | snoc _ hok hn ih =>
    unfold execution.pulls
    rw [List.countP_append]
    exact ih.next hok hn

/-- For every table and every tree of operators over a scan of it, whether or not its records
can be made: as long as the pages that it fetches get a frame, each pull gives the next of the
outcomes, and an error that was raised does not stop the pulls after it. -/
theorem a_query_raises_its_errors_and_goes_on {rows : List (RID × List UInt8)}
    {events : List QueryEvent} (h0 : (queryMachine h).start s0)
    (hrows : RowsInOrder h s0.state.pool rows)
    (hasserts : s0.root.Asserts (rows.map (record_of s0.root.table)))
    (hrun : (queryMachine h).Run FetchesSucceed s0 events s) :
    s.returned = ((s0.root.outcomes (rows.map (record_of s0.root.table))).take
      (execution.pulls events)).filterMap Except.toOption ∧
    (FetchesSucceed s .next → ∃ state, s.query_next = some (firstOf
      ((s0.root.outcomes (rows.map (record_of s0.root.table))).drop (execution.pulls events)),
      state)) := by
  have hleft := scanLeft_start h0 hrows
  have hlen := hleft.length_le
  have Q0 : PulledTo s0.state.pool.disk_manager.capacity s0.root
      (s0.root.outcomes (rows.map (record_of s0.root.table))) s0 0 := by
    refine ⟨rfl, ?_, Operator.leftEach_of_rows hasserts (by omega) hleft⟩
    rw [h0.2.1]
    rfl
  have Q := Q0.run hrun
  refine ⟨Q.returned, fun hok => ?_⟩
  obtain ⟨state, hpull, _⟩ := Q.pulls hok
  exact ⟨state, hpull⟩

end

end

/-! ## A query that raises an error for its first record -/

/-- NOT of the number, or TRUE. The operand of NOT has to be a BOOL, unless it is NULL. -/
def not_number : Expression :=
  .binary (.unary (.column 0) .NOT) .OR (.constant (.of (.bool true)))

/-- The rows 1 and NULL. -/
def number_and_null : Option BufferPoolManager := heap_of_rows [0, 1, 0, 0, 0] [1, 0, 0, 0, 0]

/-- An error, and then a record. -/
def raises_once : List (Except Failure Record) → Bool
  | [.error _, .ok _] => true
  | _ => false

theorem raisesOnce_of_check {l : List (Except Failure Record)} (h : raises_once l = true) :
    ∃ e record, l = [.error e, .ok record] := by
  unfold raises_once at h
  split at h
  · exact ⟨_, _, rfl⟩
  · cases h

/-- Whether the comparator has a BOOL, or throws. -/
def asserts (comparator : Expression) (record : Except Failure Record) : Bool :=
  match record with
  | .ok record => (keeps comparator record).isSome
  | .error _ => true

theorem the_record_after_an_error_is_returned : ∃ s0 s record state,
    (queryMachine 1).Run FetchesSucceed s0 [.next] s ∧ s.returned = [] ∧
      s.query_next = some (.ok (some record), state) := by
  obtain ⟨⟨s0, s⟩, hx, hp⟩ : ∃ x : Query × Query,
      (number_and_null.bind fun b => (query_of (.filter (.seq_scan numbers) not_number) b).bind
        fun s0 => ((queryMachine 1).execIf (fun s _ => s.root.fetches_succeed s.fuel s.state) s0
          [.next]).map fun s => (s0, s)) = some x ∧
      (x.1.state.scanner.current_page.isSome && (succ x.1.state.pool 1).isNone &&
        ((liveFrom x.1.state.pool 1 0).map (record_of numbers)).all (asserts not_number) &&
        raises_once (x.1.root.outcomes ((liveFrom x.1.state.pool 1 0).map (record_of numbers))) &&
        x.2.root.fetches_succeed x.2.fuel x.2.state) = true := by
    apply Option.map_eq_some_iff.mp
    decide +kernel
  obtain ⟨b, hb, hx⟩ := Option.bind_eq_some_iff.mp hx
  obtain ⟨s1, hs1, hx⟩ := Option.bind_eq_some_iff.mp hx
  obtain ⟨s2, hrun, hx⟩ := Option.map_eq_some_iff.mp hx
  cases hx
  simp only [Bool.and_eq_true, Option.isNone_iff_eq_none, List.all_eq_true] at hp
  obtain ⟨⟨⟨⟨hpage, hend⟩, hall⟩, hraises⟩, hok⟩ := hp
  have hroot : s0.root = .filter (.seq_scan numbers) not_number := by
    unfold query_of at hs1
    split at hs1
    · cases hs1
      rfl
    · cases hs1
  have hstart : (queryMachine 1).start s0 := query_of_start hb rfl hs1 hpage
  have hrows : RowsInOrder 1 s0.state.pool (liveFrom s0.state.pool 1 0) := by
    refine ⟨[1], .cons ?_, by simp⟩
    rw [hend]
    exact .nil
  have hevents : (queryMachine 1).Run FetchesSucceed s0 [.next] s :=
    Machine.run_of_execIf (fun s e he => by cases e <;> first | exact he | trivial) hrun
  have hasserts : s0.root.Asserts ((liveFrom s0.state.pool 1 0).map (record_of s0.root.table)) := by
    rw [hroot]
    refine ⟨trivial, fun record hmem => ?_⟩
    have hsome : (keeps not_number record).isSome = true := hall (.ok record) hmem
    exact Option.isSome_iff_ne_none.mp hsome
  obtain ⟨hreturned, hnext⟩ := a_query_raises_its_errors_and_goes_on hstart hrows hasserts hevents
  obtain ⟨e, record, hout⟩ := raisesOnce_of_check hraises
  rw [show numbers = s0.root.table by rw [hroot]; rfl] at hout
  rw [hout] at hreturned hnext
  obtain ⟨state, hstate⟩ := hnext hok
  exact ⟨s0, s, record, state, hevents, hreturned, hstate⟩

end duck.execution
