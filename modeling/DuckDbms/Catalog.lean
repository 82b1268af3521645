-- The catalog: the tables by their names, and the table of the catalog itself,
-- which has a row for each of them. A table is made and dropped page by page,
-- and an exception leaves what was done before it.
import DuckDbms.HeapScan
import DuckDbms.Table
import DuckDbms.SchemaCodec

open duck.buffer_pool duck.lock_manager duck.table_heap duck.tuple

/-! ## All the pages of a heap -/

namespace duck.table_heap

inductive TableHeapFetchStatus
  | FAILED
  | SUCCESS
  deriving DecidableEq

/-- The loop of `all_pages`; `none` when the fuel runs out before the loop ends. -/
def all_pages_from : Nat → BufferPoolManager → PageID → List PageID →
    Option (Except String (List PageID × TableHeapFetchStatus) × BufferPoolManager)
  | 0, _, _, _ => none
  | fuel + 1, b, page_id, result =>
    match with_page b page_id fun page => (slotted_page.next_page page.data, page.data, false) with
    | (.error e, b) => some (.error e, b)
    -- fetch failed, did not reach the end
    | (.ok none, b) => some (.ok (result, .FAILED), b)
    | (.ok (some next_page), b) =>
      let result := result ++ [page_id]
      if next_page = INVALID_PAGE_ID then some (.ok (result, .SUCCESS), b)
      else all_pages_from fuel b next_page result

/-- The loop visits each page of the chain once. -/
def all_pages (b : BufferPoolManager) (first_page_id : PageID) :
    Option (Except String (List PageID × TableHeapFetchStatus) × BufferPoolManager) :=
  all_pages_from (b.disk_manager.capacity + 1) b first_page_id []

def drop_page (b : BufferPoolManager) (page_id : PageID) : Except String Bool × BufferPoolManager :=
  b.delete_page page_id

/-- `~Scan`. -/
def Scan.close (b : BufferPoolManager) (scan : Scan) : BufferPoolManager :=
  match scan.current_page with
  | some page => b.unpin_page (b.frames page).page_id false
  | none => b

end duck.table_heap

/-! ## Tables without a transaction -/

namespace duck.table

/-- A table leads to its heap, and its values are checked against its schema. -/
structure Table where
  table_heap : PageID
  schema : Schema

/-- An exception of the heap goes through. -/
def raised {α : Type} : Except String α → Except Failure α
  | .error e => .error (.thrown e)
  | .ok a => .ok a

namespace Table

variable (table : Table)

def insert_tuple (b : BufferPoolManager) {schema : Schema} (tuple : Tuple schema) :
    Option (Except Failure (Option RID) × BufferPoolManager) :=
  if ¬ table.schema.compatible_with schema then
    some (.error (.thrown "Table::insert_tuple: schemas not compatible"), b)
  else
    match tuple.serialize with
    | .error e => some (.error e, b)
    | .ok bytes => (table_heap.insert_tuple b table.table_heap bytes).map fun r => (raised r.1, r.2)

def delete_tuple (b : BufferPoolManager) (rid : RID) : Except Failure Bool × BufferPoolManager :=
  match table_heap.get_tuple b rid with
  | (.error e, b) => (.error (.thrown e), b)
  | (.ok none, b) => (.ok false, b)
  | (.ok (some _), b) => (raised (table_heap.delete_tuple b rid).1, (table_heap.delete_tuple b rid).2)

def update_tuple (b : BufferPoolManager) (rid : RID) {schema : Schema} (tuple : Tuple schema) :
    Option (Except Failure (Option RID) × BufferPoolManager) :=
  if ¬ table.schema.compatible_with schema then
    some (.error (.thrown "Table::update_tuple: schemas not compatible"), b)
  else
    match table_heap.get_tuple b rid with
    | (.error e, b) => some (.error (.thrown e), b)
    -- no data to be updated
    | (.ok none, b) => some (.ok none, b)
    | (.ok (some _), b) =>
      match tuple.serialize with
      | .error e => some (.error e, b)
      | .ok bytes =>
        (table_heap.update_tuple b table.table_heap rid bytes).map fun r => (raised r.1, r.2)

end Table

inductive DropTableStatus
  | READ_PAGES_FAILED
  | SUCCESS
  deriving DecidableEq

/-- The loop of `drop_pages`, which counts the pages that stay. -/
def drop_all (b : BufferPoolManager) (failed : Nat) :
    List PageID → Except String Nat × BufferPoolManager
  | [] => (.ok failed, b)
  | page_id :: rest =>
    match drop_page b page_id with
    | (.error e, b) => (.error e, b)
    | (.ok dropped, b) => drop_all b (if dropped then failed else failed + 1) rest

def drop_pages (b : BufferPoolManager) (first_page_id : PageID) :
    Option (Except String (Nat × DropTableStatus) × BufferPoolManager) :=
  (all_pages b first_page_id).map fun
    | (.error e, b) => (.error e, b)
    -- because we cannot be sure how many pages are left to fail we abort
    | (.ok (_, .FAILED), b) => (.ok (0, .READ_PAGES_FAILED), b)
    | (.ok (page_ids, .SUCCESS), b) =>
      ((drop_all b 0 page_ids).1.map (·, .SUCCESS), (drop_all b 0 page_ids).2)

end duck.table

/-! ## The rows of the catalog -/

namespace duck.catalog

open duck.table

/-- `catalog_schema_`; the names of the columns are their bytes. -/
def catalog_schema : Schema :=
  ⟨[⟨"table_name".toUTF8.toList, .VARCHAR, 128⟩, ⟨"first_page_id".toUTF8.toList, .UINT32, 0⟩,
    ⟨"schema_bytes".toUTF8.toList, .VARBINARY, 4096⟩]⟩

/-- A page id has 32 bits, and `INVALID_PAGE_ID` is the largest of them. -/
def pageCode : PageID → UInt32
  | some n => UInt32.ofNat n
  | none => 4294967295

def pageOfCode (v : UInt32) : PageID := if v = 4294967295 then none else some v.toNat

/-- The values of the row of a table. -/
def entryValues (name : List UInt8) (first_page_id : PageID) (schema : Schema) : List Value :=
  [.of (.string name), .of (.uint32 (pageCode first_page_id)), .of (.bytes schema.serialize)]

def entry_tuple (name : List UInt8) (first_page_id : PageID) (schema : Schema) :
    Except Failure (Tuple catalog_schema) :=
  Tuple.make (entryValues name first_page_id schema) catalog_schema

/-- `Value::as_string`. -/
def as_string (v : Value) : Except Failure (List UInt8) :=
  if v.is_null then .error (.thrown "Value::as_string: tried to read null value")
  else
    match v.data with
    | .string s => .ok s
    | _ => .error Value.bad_variant_access

/-- `Value::as_uint32`. -/
def as_uint32 (v : Value) : Except Failure UInt32 :=
  if v.is_null then .error (.thrown "Value::as_uint32: tried to read null value")
  else
    match v.data with
    | .uint32 n => .ok n
    | _ => .error Value.bad_variant_access

/-- `Value::as_bytes`. -/
def as_bytes (v : Value) : Except Failure (List UInt8) :=
  if v.is_null then .error (.thrown "Value::as_bytes: tried to read null value")
  else
    match v.data with
    | .bytes bytes => .ok bytes
    | _ => .error Value.bad_variant_access

/-- `Tuple::get`. -/
def get (tuple : Tuple catalog_schema) (column_index : Nat) : Except Failure Value :=
  match tuple.values[column_index]? with
  | some v => .ok v
  | none => .error (.thrown "vector::_M_range_check")

/-- What the loop of `load_existing_tables` reads in a row: the name of a table, and the
table. -/
def read_entry (bytes : List UInt8) : Except Failure (List UInt8 × Table) := do
  let tuple ← Tuple.of_raw bytes catalog_schema
  let name ← get tuple 0
  let table_name ← as_string name
  let page ← get tuple 1
  let first_page_id ← as_uint32 page
  let columns ← get tuple 2
  let schema_bytes ← as_bytes columns
  let schema ← Schema.of_raw schema_bytes
  .ok (table_name, ⟨pageOfCode first_page_id, schema⟩)

/-! ## The catalog -/

structure TableEntry where
  rid : RID
  table : Table

/-- How a transaction undoes what it did, to a row or to a table. -/
inductive UndoRecord
  | row (record : table.UndoRecord)
  | DropTableUndoRecord (name : List UInt8)
  deriving DecidableEq

/-- The pool with the pins of its other users, less than 2^32 a page, over less than 2^32 pages, the
locks, the undo logs, which have the back of the vector first, and the catalog: its own table, and
the tables by their names. -/
structure CatalogSystem where
  heap : HeapPool
  locks : LockSystem
  undo_log : TransactionID → List UndoRecord
  catalog_table : Table
  tables : List UInt8 → Option TableEntry

namespace CatalogSystem

variable (s : CatalogSystem)

/-- The system over the pool that a call left. -/
def with_pool (b : BufferPoolManager) : CatalogSystem := { s with heap := ⟨b, s.heap.outside⟩ }

def push_undo (tx : TransactionID) (records : List UndoRecord) : CatalogSystem :=
  { s with undo_log := Function.update s.undo_log tx (records ++ s.undo_log tx) }

def set_table (name : List UInt8) (entry : Option TableEntry) : CatalogSystem :=
  { s with tables := Function.update s.tables name entry }

/-- A call of a table under a transaction, with the locks that it takes. The records that it
logs come on top of the log. -/
def table_call (tx : TransactionID) (op : TableOp) :
    Option (Except String TableResult × CatalogSystem) :=
  let t : TableSystem := ⟨s.heap, s.locks, fun _ => {}⟩
  (run_call 8 (t.begin_call tx op) tx).bind fun t =>
    match (t.txs tx).call with
    | .done r => some (r, ({ s with heap := t.heap, locks := t.locks } : CatalogSystem).push_undo tx
        ((t.txs tx).undo_log.map .row))
    | _ => none

/-- `catalog_table_.insert_tuple(entry, tx)`. -/
def insert_entry (entry : Tuple catalog_schema) :
    Option TransactionID → Option (Except Failure (Option RID) × CatalogSystem)
  | none => (s.catalog_table.insert_tuple s.heap.pool entry).map fun r => (r.1, s.with_pool r.2)
  | some tx =>
    match entry.serialize with
    | .error e => some (.error e, s)
    | .ok bytes =>
      (s.table_call tx (.insert_tuple s.catalog_table.table_heap bytes)).bind fun
        | (.error e, s) => some (.error (.thrown e), s)
        | (.ok (.placed rid), s) => some (.ok rid, s)
        | _ => none

/-- The bytes of a name in a message. -/
def text (name : List UInt8) : String := String.ofList (name.map fun c => Char.ofNat c.toNat)

/-- The end of `create_table`, once the row of the table has its place. -/
def register (name : List UInt8) (entry : TableEntry) (tx : Option TransactionID) :
    CatalogSystem :=
  match tx with
  | some tx => (s.set_table name (some entry)).push_undo tx [.DropTableUndoRecord name]
  | none => s.set_table name (some entry)

def create_table (name : List UInt8) (schema : Schema) (tx : Option TransactionID) :
    Option (Except Failure Unit × CatalogSystem) :=
  if (s.tables name).isSome then
    some (.error (.thrown s!"Catalog::create_table: table with name {text name} already exists"), s)
  else
    match create s.heap.pool with
    | (.error e, b) => some (.error (.thrown e), s.with_pool b)
    | (.ok first_page_id, b) =>
      match entry_tuple name first_page_id schema with
      | .error e => some (.error e, s.with_pool b)
      | .ok entry =>
        ((s.with_pool b).insert_entry entry tx).map fun
          | (.error e, s) => (.error e, s)
          | (.ok none, s) =>
            (.error (.thrown "Catalog::CreateTable: failed to write catalog entry"), s)
          | (.ok (some rid), s) => (.ok (), s.register name ⟨rid, ⟨first_page_id, schema⟩⟩ tx)

/-- The end of `drop_table` and of `delete_table`: the pages, and the entry of the map. -/
def drop_entry (name : List UInt8) (table : Table) (who : String) :
    Option (Except Failure Unit × CatalogSystem) :=
  (drop_pages s.heap.pool table.table_heap).map fun
    | (.error e, b) => (.error (.thrown e), s.with_pool b)
    | (.ok (_, .READ_PAGES_FAILED), b) =>
      (.error (.thrown (who ++ ": Table::drop_pages failed to fetch all pages before deletion")),
        s.with_pool b)
    -- pages that could not be dropped are only counted
    | (.ok (_, .SUCCESS), b) => (.ok (), (s.with_pool b).set_table name none)

def drop_table (name : List UInt8) : Option (Except Failure Bool × CatalogSystem) :=
  match s.tables name with
  | none => some (.ok false, s)
  | some entry =>
    match Table.delete_tuple s.heap.pool entry.rid with
    | (.error e, b) => some (.error e, s.with_pool b)
    | (.ok false, b) => some (.ok false, s.with_pool b)
    | (.ok true, b) => ((s.with_pool b).drop_entry name entry.table "Catalog::drop_table").map fun r =>
        (r.1.map fun _ => true, r.2)

/-- `none` when the assertion fails. -/
def delete_table (name : List UInt8) : Option (Except Failure Unit × CatalogSystem) :=
  match s.tables name with
  | none => none
  | some entry => s.drop_entry name entry.table "Catalog::delete_table"

end CatalogSystem

/-! ## The start of a catalog -/

def init_table (b : BufferPoolManager) : Except String Table × BufferPoolManager :=
  if b.disk_manager.capacity ≤ 1 then
    ((create b).1.map fun first_page_id => ⟨first_page_id, catalog_schema⟩, (create b).2)
  else (.ok ⟨kCATALOG_FIRST_PAGE_ID, catalog_schema⟩, b)

/-- The loop of `load_existing_tables`, and the end of its scan. -/
def load_tables : Nat → BufferPoolManager → Scan → (List UInt8 → Option TableEntry) →
    Option (Except Failure (List UInt8 → Option TableEntry) × BufferPoolManager)
  | 0, _, _, _ => none
  | fuel + 1, b, scan, tables =>
    match Scan.next (b.disk_manager.capacity + 1) b scan with
    | none => none
    | some (.error e, b, scan) => some (.error (.thrown e), scan.close b)
    | some (.ok none, b, scan) => some (.ok tables, scan.close b)
    | some (.ok (some (rid, bytes)), b, scan) =>
      match read_entry bytes with
      | .error e => some (.error e, scan.close b)
      | .ok (table_name, table) =>
        load_tables fuel b scan (Function.update tables table_name (some ⟨rid, table⟩))

/-- A page has 2047 slots at most. -/
def load_existing_tables (b : BufferPoolManager) (catalog_table : Table) :
    Option (Except Failure (List UInt8 → Option TableEntry) × BufferPoolManager) :=
  match Scan.open_ b catalog_table.table_heap with
  | (.error e, b) => some (.error (.thrown e), b)
  | (.ok scan, b) => load_tables (2048 * b.disk_manager.capacity + 1) b scan fun _ => none

/-- The constructor, over a pool that nobody else uses yet. -/
def CatalogSystem.make (b : BufferPoolManager) : Option (Except Failure CatalogSystem) :=
  match init_table b with
  | (.error e, _) => some (.error (.thrown e))
  | (.ok catalog_table, b) => (load_existing_tables b catalog_table).map fun r =>
      r.1.map fun tables =>
        ⟨⟨r.2, fun _ => 0⟩, ⟨fun _ => [], fun _ => {}, fun _ => none⟩, fun _ => [], catalog_table,
          tables⟩

/-! ## Calls without a transaction -/

inductive CatalogEvent
  | create_table (name : List UInt8) (schema : Schema)
  | drop_table (name : List UInt8)
  /-- the calls of a table that `get_table` gives -/
  | insert_tuple (name : List UInt8) (schema : Schema) (tuple : Tuple schema)
  | update_tuple (name : List UInt8) (rid : RID) (schema : Schema) (tuple : Tuple schema)
  | delete_tuple (name : List UInt8) (rid : RID)
  /-- another user of the pool brings a page in and keeps it pinned, or lets go of it -/
  | fetch (page_id : Nat)
  | unpin (page_id : Nat)

/-- A call that throws leaves what it did before. A table that is not registered has no
calls. -/
def CatalogSystem.next (s : CatalogSystem) : CatalogEvent → Option CatalogSystem
  | .create_table name schema => (s.create_table name schema none).map (·.2)
  | .drop_table name => (s.drop_table name).map (·.2)
  | .insert_tuple name _ tuple => (s.tables name).bind fun entry =>
      (entry.table.insert_tuple s.heap.pool tuple).map fun r => s.with_pool r.2
  | .update_tuple name rid _ tuple => (s.tables name).bind fun entry =>
      (entry.table.update_tuple s.heap.pool rid tuple).map fun r => s.with_pool r.2
  | .delete_tuple name rid => (s.tables name).map fun _ =>
      s.with_pool (Table.delete_tuple s.heap.pool rid).2
  | .fetch n => (s.heap.next (.fetch n)).map fun heap => { s with heap }
  | .unpin n => (s.heap.next (.unpin n)).map fun heap => { s with heap }

/-! ## A transaction that is rolled back -/

namespace CatalogSystem

variable (s : CatalogSystem)

def set_state (tx : TransactionID) (state : TransactionState) : CatalogSystem :=
  { s with locks := s.locks.set_tx tx { s.locks.txs tx with state } }

def undo_record : UndoRecord → Option (Except Failure Unit × CatalogSystem)
  | .row (.DeleteUndoRecord rid) =>
    some (raised ((table_heap.delete_tuple s.heap.pool rid).1.map fun _ => ()),
      s.with_pool (table_heap.delete_tuple s.heap.pool rid).2)
  | .row (.RestoreUndoRecord rid tuple) =>
    (restore_tuple s.heap.pool rid tuple).map fun r => (raised r.1, s.with_pool r.2)
  | .DropTableUndoRecord name => s.delete_table name

end CatalogSystem

/-- `Transaction::undo`, with the records that are left. -/
def undo (s : CatalogSystem) : List UndoRecord → Option (Except Failure Unit × CatalogSystem)
  | [] => some (.ok (), s)
  | record :: rest => (s.undo_record record).bind fun
    | (.error e, s) => some (.error e, s)
    | (.ok (), s) => undo s rest

def abort (s : CatalogSystem) (tx : TransactionID) :
    Option (Except Failure Unit × CatalogSystem) :=
  (undo (s.set_state tx .SHRINKING) (s.undo_log tx)).map fun
    | (.error e, s) => (.error e, s)
    | (.ok (), s) => (.ok (), ({ s with locks := unlock_all s.locks tx }).set_state tx .ABORTED)

/-- What a transaction does with the catalog and with the tables that `get_table` gives. The
tuples are those that `Tuple::serialize` gave. -/
inductive TxEvent
  | create_table (name : List UInt8) (schema : Schema)
  | drop_table (name : List UInt8)
  | insert_tuple (name : List UInt8) (tuple : List UInt8)
  | get_tuple (name : List UInt8) (rid : RID)
  | delete_tuple (name : List UInt8) (rid : RID)
  | update_tuple (name : List UInt8) (rid : RID) (tuple : List UInt8)

/-- The catalog while a transaction runs alone, with the names of the tables that it dropped. -/
structure TxSystem where
  system : CatalogSystem
  dropped : List (List UInt8)

/-- A call of a table, which goes to its heap. -/
def TxSystem.table_call (s : TxSystem) (tx : TransactionID) (name : List UInt8)
    (op : PageID → TableOp) : Option TxSystem :=
  (s.system.tables name).bind fun entry =>
    (s.system.table_call tx (op entry.table.table_heap)).map fun r => ⟨r.2, s.dropped⟩

/-- `drop_table` takes no transaction, also when one runs. -/
def TxSystem.next (s : TxSystem) (tx : TransactionID) : TxEvent → Option TxSystem
  | .create_table name schema =>
    (s.system.create_table name schema (some tx)).map fun r => ⟨r.2, s.dropped⟩
  | .drop_table name => (s.system.drop_table name).map fun
    | (.ok true, c) => ⟨c, name :: s.dropped⟩
    | (_, c) => ⟨c, s.dropped⟩
  | .insert_tuple name tuple => s.table_call tx name fun h => .insert_tuple h tuple
  | .get_tuple name rid => s.table_call tx name fun _ => .get_tuple rid
  | .delete_tuple name rid => s.table_call tx name fun _ => .delete_tuple rid
  | .update_tuple name rid tuple => s.table_call tx name fun h => .update_tuple h rid tuple

end duck.catalog
