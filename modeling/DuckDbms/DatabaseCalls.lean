-- The calls of a database without transactions, and what they are for: a map
-- from names to tables, where a table is a map from RIDs to tuples.
import DuckDbms.Reopenings
import DuckDbms.Selects

open machine
open duck.disk_manager duck.buffer_pool duck.table_heap duck.table duck.tuple duck.execution

/-! ## The calls -/

namespace duck.table

def Table.get_tuple (table : Table) (b : BufferPoolManager) (rid : RID) :
    Except Failure (Option (Tuple table.schema)) × BufferPoolManager :=
  match table_heap.get_tuple b rid with
  | (.error e, b) => (.error (.thrown e), b)
  | (.ok none, b) => (.ok none, b)
  | (.ok (some bytes), b) => ((Tuple.of_raw bytes table.schema).map some, b)

end duck.table

namespace duck.database

open duck.catalog

/-- What is asked of a table that `get_table` gives. -/
inductive TableRequest
  | insert_tuple (schema : Schema) (tuple : Tuple schema)
  | get_tuple (rid : RID)
  | update_tuple (rid : RID) (schema : Schema) (tuple : Tuple schema)
  | delete_tuple (rid : RID)
  /-- a query over the table, run to its end -/
  | select (plan : Plan)

inductive TableAnswer
  | placed (rid : Except Failure (Option RID))
  | found (values : Except Failure (Option (List Value)))
  | deleted (was_live : Except Failure Bool)
  | selected (records : Except Failure (List Record))

def TableRequest.run (table : Table) (b : BufferPoolManager) :
    TableRequest → Option (TableAnswer × BufferPoolManager)
  | .insert_tuple _ tuple => (table.insert_tuple b tuple).map fun r => (.placed r.1, r.2)
  | .get_tuple rid =>
    let r := table.get_tuple b rid
    some (.found (r.1.map fun tuple => tuple.map Tuple.values), r.2)
  | .update_tuple rid _ tuple => (table.update_tuple b rid tuple).map fun r => (.placed r.1, r.2)
  | .delete_tuple rid =>
    let r := Table.delete_tuple b rid
    some (.deleted r.1, r.2)
  | .select plan => (execution.select b table plan).map fun r => (.selected r.1, r.2)

inductive DatabaseCall
  | get_table (name : List UInt8)
  | create_table (name : List UInt8) (schema : Schema)
  | drop_table (name : List UInt8)
  | ask (name : List UInt8) (request : TableRequest)
  /-- the database is destroyed over a file, and opened again with a pool of some frames -/
  | reopen (disk : disk_file.DiskManager) (frames : Nat)

/-- What a call returns. Of a table that is found a caller sees its columns. -/
inductive DatabaseResult
  | table (schema : Option Schema)
  | created (r : Except Failure Unit)
  | dropped (was_there : Except Failure Bool)
  | no_table
  | answered (answer : TableAnswer)
  | opened

/-- Nobody calls a table that is not registered, and a constructor that throws leaves no
database. -/
def answer (s : CatalogSystem) : DatabaseCall → Option (DatabaseResult × CatalogSystem)
  | .get_table name => some (.table ((s.tables name).map fun entry => entry.table.schema), s)
  | .create_table name schema => (s.create_table name schema none).map fun r => (.created r.1, r.2)
  | .drop_table name => (s.drop_table name).map fun r => (.dropped r.1, r.2)
  | .ask name request =>
    match s.tables name with
    | none => some (.no_table, s)
    | some entry =>
      (request.run entry.table s.heap.pool).map fun r => (.answered r.1, s.with_pool r.2)
  | .reopen disk frames =>
    match database.open_ disk.close frames with
    | some (.ok t) => some (.opened, t)
    | _ => none

/-- A database, with the calls that it has answered since its file was new. -/
structure Session where
  system : CatalogSystem
  history : List (DatabaseCall × DatabaseResult)

def Session.next (s : Session) (call : DatabaseCall) : Option Session :=
  (answer s.system call).map fun r => ⟨r.2, s.history ++ [(call, r.1)]⟩

/-- A database over a new file, with a pool of two frames or more, through its calls and through
the ends of its processes. -/
def sessionMachine : Machine Session DatabaseCall where
  start s := s.history = [] ∧ ∃ frames, 2 ≤ frames ∧
    CatalogSystem.make (empty_pool frames) = some (.ok s.system)
  next := Session.next

/-! ## Tables of tuples -/

/-- A tuple with the values that its bytes are read as. -/
def decoded {schema : Schema} (tuple : Tuple schema) : Tuple schema where
  values := tuple.values.map Value.decoded
  typed := by
    rw [List.forall₂_map_left_iff]
    refine tuple.typed.imp fun v column h => ?_
    unfold Value.decoded
    split <;> exact h

/-- The bytes of the tuple fit on a page. -/
def Storable {schema : Schema} (tuple : Tuple schema) : Prop :=
  ∃ bytes, tuple.serialize = .ok bytes ∧ bytes.length ≤ 8180

/-- A table: its columns, and the tuples that it has, by their RIDs. -/
structure Relation where
  schema : Schema
  rows : RID → Option (Tuple schema)

namespace Relation

def empty (schema : Schema) : Relation := ⟨schema, fun _ => none⟩

variable (r : Relation)

def put (rid : RID) (tuple : Tuple r.schema) : Relation :=
  ⟨r.schema, Function.update r.rows rid (some tuple)⟩

def erase (rid : RID) : Relation := ⟨r.schema, Function.update r.rows rid none⟩

/-- The list has every row of the table once. -/
def Lists (l : List (RID × Tuple r.schema)) : Prop :=
  (l.map (·.1)).Nodup ∧ ∀ rid tuple, (rid, tuple) ∈ l ↔ r.rows rid = some tuple

/-- A tuple with these columns that fits on a page. -/
def Takes {schema : Schema} (tuple : Tuple schema) : Prop := schema = r.schema ∧ Storable tuple

end Relation

/-- The records of a list of rows. -/
def records {schema : Schema} (l : List (RID × Tuple schema)) : List (Except Failure Record) :=
  l.map fun row => .ok ⟨row.2.values⟩

/-- What a table answers, and what it has then. The rows of a query may come in any order. -/
inductive Relation.Does (r : Relation) : TableRequest → TableAnswer → Relation → Prop
  | inserted {tuple : Tuple r.schema} {rid : RID} : Storable tuple → r.rows rid = none →
      Does r (.insert_tuple r.schema tuple) (.placed (.ok (some rid))) (r.put rid (decoded tuple))
  | insert_refused {schema : Schema} {tuple : Tuple schema} {e : Failure} : ¬ r.Takes tuple →
      Does r (.insert_tuple schema tuple) (.placed (.error e)) r
  | found {rid : RID} : Does r (.get_tuple rid) (.found (.ok ((r.rows rid).map Tuple.values))) r
  | updated {tuple : Tuple r.schema} {rid rid' : RID} : Storable tuple → r.rows rid ≠ none →
      (rid' = rid ∨ r.rows rid' = none) →
      Does r (.update_tuple rid r.schema tuple) (.placed (.ok (some rid')))
        ((r.erase rid).put rid' (decoded tuple))
  | nothing_updated {tuple : Tuple r.schema} {rid : RID} : r.rows rid = none →
      Does r (.update_tuple rid r.schema tuple) (.placed (.ok none)) r
  | update_refused {schema : Schema} {tuple : Tuple schema} {rid : RID} {e : Failure} :
      ¬ r.Takes tuple → Does r (.update_tuple rid schema tuple) (.placed (.error e)) r
  | deleted {rid : RID} :
      Does r (.delete_tuple rid) (.deleted (.ok (r.rows rid).isSome)) (r.erase rid)
  | selected {plan : Plan} {l : List (RID × Tuple r.schema)} : r.Lists l →
      Does r (.select plan) (.selected (plan.result r.schema (records l))) r

/-! ## Tables by their names -/

abbrev Database := List UInt8 → Option Relation

/-- The row of the table fits in the catalog: a name of at most 128 bytes, and a page for it and
the columns. -/
def Registrable (name : List UInt8) (schema : Schema) : Prop :=
  name.length ≤ 128 ∧ name.length + schema.serialize.length + 9 ≤ 8180

/-- What a database returns, and what it has then. Nothing is lost when it is opened again. -/
inductive Database.Does (d : Database) : DatabaseCall → DatabaseResult → Database → Prop
  | get_table {name : List UInt8} :
      Does d (.get_table name) (.table ((d name).map Relation.schema)) d
  | created {name : List UInt8} {schema : Schema} : d name = none → Registrable name schema →
      Does d (.create_table name schema) (.created (.ok ()))
        (Function.update d name (some (.empty schema)))
  | not_created {name : List UInt8} {schema : Schema} {e : Failure} :
      d name ≠ none ∨ ¬ Registrable name schema →
      Does d (.create_table name schema) (.created (.error e)) d
  | dropped {name : List UInt8} : d name ≠ none →
      Does d (.drop_table name) (.dropped (.ok true)) (Function.update d name none)
  | nothing_dropped {name : List UInt8} : d name = none →
      Does d (.drop_table name) (.dropped (.ok false)) d
  | no_table {name : List UInt8} {request : TableRequest} : d name = none →
      Does d (.ask name request) .no_table d
  | answered {name : List UInt8} {request : TableRequest} {a : TableAnswer} {r r' : Relation} :
      d name = some r → r.Does request a r' →
      Does d (.ask name request) (.answered a) (Function.update d name (some r'))
  | opened {disk : disk_file.DiskManager} {frames : Nat} :
      Does d (.reopen disk frames) .opened d

/-- The calls of the history in their order, from no tables on. -/
inductive Database.Ran : List (DatabaseCall × DatabaseResult) → Database → Prop
  | new : Ran [] fun _ => none
  | call {history : List (DatabaseCall × DatabaseResult)} {d d' : Database} {call : DatabaseCall}
      {r : DatabaseResult} : Ran history d → d.Does call r d' → Ran (history ++ [(call, r)]) d'

/-! ## What a catalog means -/

/-- Rows, read with the columns of their table. -/
def decode_rows (schema : Schema) (rows : RID → Option (List UInt8)) (rid : RID) :
    Option (Tuple schema) :=
  (rows rid).bind fun bytes => (Tuple.of_raw bytes schema).toOption

noncomputable def relation_of (s : CatalogSystem) (table : Table) : Relation :=
  ⟨table.schema, decode_rows table.schema (s.tuples_of table)⟩

noncomputable def database_of (s : CatalogSystem) : Database := fun name =>
  (s.tables name).map fun entry => relation_of s entry.table

/-! ## What is asked of the callers -/

/-- No value of a CHAR column ends in a NUL byte, which would be read as padding. -/
def Unpadded {schema : Schema} (tuple : Tuple schema) : Prop :=
  List.Forall₂ NoTrailingNul schema.columns tuple.values

/-- RIDs are on pages of the table, an update brings a tuple that fits on a page, and the
comparators of a query are BOOLs. -/
def Asked (s : CatalogSystem) (table : Table) : TableRequest → Prop
  | .insert_tuple _ tuple => Unpadded tuple
  | .get_tuple rid | .delete_tuple rid => RidOf s.heap.pool table rid
  | .update_tuple rid _ tuple => RidOf s.heap.pool table rid ∧ Unpadded tuple ∧
      ∀ bytes, tuple.serialize = .ok bytes → bytes.length ≤ 8180
  | .select plan => ∀ l, (relation_of s table).Lists l → plan.Asserts (records l)

/-- A new table has columns, as many as 16 bits can count, and no CHAR column of length zero. The
file of a database that is opened again stores what was written, and the pool has two frames. -/
def Proper (s : CatalogSystem) : DatabaseCall → Prop
  | .get_table _ | .drop_table _ => True
  | .create_table _ schema =>
    0 < schema.column_count ∧ schema.column_count < 65536 ∧ CharsHaveLength schema
  | .ask name request => ∀ entry, s.tables name = some entry → Asked s entry.table request
  | .reopen disk frames =>
    UsedAlone s (.reopen disk frames) ∧ Counted s (.reopen disk frames)

end duck.database
