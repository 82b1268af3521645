-- Operators over a scan of a table: a filter, a projection, and the query that
-- pulls records out of them.
import DuckDbms.Lib.Pulls
import DuckDbms.Expressions
import DuckDbms.CatalogLoad

open machine pull

open duck.disk_manager duck.buffer_pool duck.table_heap duck.table duck.tuple

namespace duck.execution

/-! ## Projected schemas -/

/-- `Schema::column`. -/
def column (schema : Schema) (index : Nat) : Except Failure Column :=
  match schema.columns[index]? with
  | some column => .ok column
  | none => .error (.thrown "vector::_M_range_check")

/-- `Schema::projected`. -/
def projected (schema : Schema) (column_idxs : List Nat) : Except Failure Schema := do
  let columns ← column_idxs.mapM (column schema)
  Schema.make columns

/-! ## The scan -/

/-- The pool, and the scan of the heap that the operators pull their records from. -/
structure ScanState where
  pool : BufferPoolManager
  scanner : Scan

/-- `TableHeap::Scan::next`. The loop visits each page of the chain once. -/
def heap_scan_next : Pull ScanState Failure (RID × List UInt8) := fun s =>
  (Scan.next (s.pool.disk_manager.capacity + 1) s.pool s.scanner).map fun r =>
    (raised r.1, ⟨r.2.1, r.2.2⟩)

def read_tuple (table : Table) (row : RID × List UInt8) :
    Except Failure (RID × Tuple table.schema) :=
  (Tuple.of_raw row.2 table.schema).map (row.1, ·)

/-- `Table::Scan::next` without a transaction, which takes no lock. -/
def table_scan_next (table : Table) : Pull ScanState Failure (RID × Tuple table.schema) :=
  mapPull heap_scan_next (read_tuple table)

def take_values {schema : Schema} (row : RID × Tuple schema) : Except Failure Record :=
  .ok ⟨row.2.values⟩

/-- `SequentialScanOperator::next`. -/
def seq_scan_next (table : Table) : Pull ScanState Failure Record :=
  mapPull (table_scan_next table) take_values

/-! ## Operators -/

/-- The classes that are an `Operator`. Each has one child, but for the scan at the bottom. -/
inductive Operator
  | seq_scan (table : Table)
  | filter (child : Operator) (comparator : Expression)
  | projection (child : Operator) (columns : List Nat)

/-- What the loop of `FilterOperator::next` does with a record: it is returned, or skipped when
the comparator is NULL or false. An assertion that fails has no result. -/
def keeps (comparator : Expression) (record : Record) : Option (Except Failure Bool) :=
  match comparator.evaluate record with
  | .error e => some (.error e)
  | .ok comp => if comp.type ≠ .BOOL then none else some (reads comp true)

/-- What `ProjectionOperator::next` makes of a record. -/
def project (columns : List Nat) (record : Record) : Except Failure Record :=
  (columns.mapM record.get).map Record.mk

namespace Operator

/-- `output_schema`. A projection makes its own when it is made. -/
def output_schema : Operator → Except Failure Schema
  | .seq_scan table => .ok table.schema
  | .filter child _ => child.output_schema
  | .projection child columns => do
    let schema ← child.output_schema
    projected schema columns

/-- `next`. A filter has the fuel for its loop. -/
def next (fuel : Nat) : Operator → Pull ScanState Failure Record
  | .seq_scan table => seq_scan_next table
  | .filter child comparator => filterLoop (child.next fuel) (keeps comparator) fuel
  | .projection child columns => mapPull (child.next fuel) (project columns)

/-- Every page that `next` fetches on the way gets a frame. -/
def fetches_succeed (fuel : Nat) : Operator → ScanState → Bool
  | .seq_scan _ => fun s =>
    Scan.fetches_succeed (s.pool.disk_manager.capacity + 1) s.pool s.scanner
  | .filter child comparator =>
    filterOk (child.next fuel) (keeps comparator) (child.fetches_succeed fuel) fuel
  | .projection child _ => child.fetches_succeed fuel

/-- The table of the scan. -/
def table : Operator → Table
  | .seq_scan table => table
  | .filter child _ | .projection child _ => child.table

end Operator

/-! ## Queries -/

/-- A query, the pins of everybody else, of which a page has less than 2^32 with its own, over less
than 2^32 pages, and the records that it returned so far. -/
structure Query where
  root : Operator
  state : ScanState
  outside : Nat → Nat
  returned : List Record

inductive QueryEvent
  /-- `QueryResult::next` -/
  | next
  /-- another user of the pool brings a page in, or lets go of it -/
  | fetch (page_id : Nat)
  | unpin (page_id : Nat)

namespace Query

variable (s : Query)

/-- More than the slots of all pages, so more than the turns of any loop. -/
def fuel : Nat := 2048 * s.state.pool.disk_manager.capacity + 1

/-- `QueryResult::next`. -/
def query_next : Option (Except Failure (Option Record) × ScanState) :=
  s.root.next s.fuel s.state

def next : QueryEvent → Option Query
  | .next => s.query_next.map fun r =>
    { s with
      state := r.2
      returned := s.returned ++ match r.1 with
        | .ok record => record.toList
        | .error _ => [] }
  | .fetch n =>
    if Allocated s.state.pool.disk_manager n then
      match s.state.pool.fetch_page (some n) with
      | (.ok (some _), b) => some { s with state.pool := b, outside := pinMore s.outside n }
      | (_, b) => some { s with state.pool := b }
    else none
  | .unpin n =>
    if 0 < s.outside n then
      some { s with
        state.pool := s.state.pool.unpin_page (some n) false
        outside := pinLess s.outside n }
    else none

end Query

/-- A query on a table whose first page is `h`. The pages of its heap, and of all others, are
those that calls of heaps leave. -/
def queryMachine (h : Nat) : Machine Query QueryEvent where
  start s := s.root.table.table_heap = some h ∧ s.returned = [] ∧
    s.state.scanner.current_page ≠ none ∧ ∃ b heads, heads h ∧
      HeapState True s.outside (fun _ => False) heads b ∧
      Scan.open_ b (some h) = (.ok s.state.scanner, s.state.pool)
  next := Query.next

/-- The pages that the query fetches get a frame. -/
def FetchesSucceed (s : Query) : QueryEvent → Prop
  | .next => s.root.fetches_succeed s.fuel s.state = true
  | _ => True

end duck.execution
