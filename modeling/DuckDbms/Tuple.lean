-- Values, schemas and tuples, and the bytes of a tuple: a bitmap of the NULLs,
-- then the columns in the order of the schema.
import Mathlib.Data.List.DropRight
import Mathlib.Data.List.Forall2
import DuckDbms.Lib.Layout

open layout

namespace duck.tuple

/-- How a function ends without a result: it throws, or it reads outside of its bytes, where
nothing says what happens. -/
inductive Failure
  | thrown (what : String)
  | outside
  deriving DecidableEq

theorem bind_ok {α β : Type} {x : Except Failure α} {f : α → Except Failure β} {r : β}
    (h : (x >>= f) = .ok r) : ∃ a, x = .ok a ∧ f a = .ok r := by
  cases x with
  | error e => cases h
  | ok a => exact ⟨a, rfl, h⟩

theorem map_ok {α β : Type} {x : Except Failure α} {f : α → β} {r : β}
    (h : x.map f = .ok r) : ∃ a, x = .ok a ∧ f a = r := by
  cases x with
  | error e => cases h
  | ok a => exact ⟨a, rfl, Except.ok.inj h⟩

theorem mapM_ok {α β : Type} {f : α → Except Failure β} {xs : List α} {ys : List β} :
    xs.mapM f = .ok ys ↔ List.Forall₂ (fun x y => f x = .ok y) xs ys := by
  constructor
  · intro h
    induction xs generalizing ys with
    | nil =>
      cases h
      exact .nil
    | cons x xs ih =>
      rw [List.mapM_cons] at h
      obtain ⟨y, hy, h⟩ := bind_ok h
      obtain ⟨ys', hys, h⟩ := bind_ok h
      cases h
      exact .cons hy (ih hys)
  · intro h
    induction h with
    | nil => rfl
    | cons hx _ ih =>
      rw [List.mapM_cons, hx, ih]
      rfl

/-! ## Types -/

/-- `TypeId`. The enumeration holds any 16-bit code, so a type may have no name. -/
inductive TypeId
  | INT32
  | INT64
  | UINT32
  | UINT64
  | FLOAT
  | DOUBLE
  | BOOL
  | CHAR
  | VARCHAR
  | VARBINARY
  | other (code : { c : UInt16 // 10 ≤ c })
  deriving DecidableEq

def TypeId.code : TypeId → UInt16
  | .INT32 => 0
  | .INT64 => 1
  | .UINT32 => 2
  | .UINT64 => 3
  | .FLOAT => 4
  | .DOUBLE => 5
  | .BOOL => 6
  | .CHAR => 7
  | .VARCHAR => 8
  | .VARBINARY => 9
  | .other code => code.val

inductive ValueType
  | INT64
  | UINT64
  | INT32
  | UINT32
  | DOUBLE
  | FLOAT
  | BOOL
  | STRING
  | BYTES
  deriving DecidableEq

def ValueType.code : ValueType → Nat
  | .INT64 => 0
  | .UINT64 => 1
  | .INT32 => 2
  | .UINT32 => 3
  | .DOUBLE => 4
  | .FLOAT => 5
  | .BOOL => 6
  | .STRING => 7
  | .BYTES => 8

def type_id_to_value_type : TypeId → Except Failure ValueType
  | .BOOL => .ok .BOOL
  | .DOUBLE => .ok .DOUBLE
  | .FLOAT => .ok .FLOAT
  | .INT64 => .ok .INT64
  | .UINT64 => .ok .UINT64
  | .INT32 => .ok .INT32
  | .UINT32 => .ok .UINT32
  | .CHAR | .VARCHAR => .ok .STRING
  | .VARBINARY => .ok .BYTES
  | .other _ => .error (.thrown "type_id_to_value_type: invalid type id")

/-! ## Values -/

/-- The alternatives of `value_variant`. A float or a double is its bit pattern, and a string
its bytes. -/
inductive value_variant
  | uint64 (v : UInt64)
  | int64 (v : Int64)
  | uint32 (v : UInt32)
  | int32 (v : Int32)
  | double (bits : UInt64)
  | float (bits : UInt32)
  | bool (v : Bool)
  | string (v : List UInt8)
  | bytes (v : List UInt8)
  deriving DecidableEq

structure Value where
  type : ValueType
  is_null : Bool
  data : value_variant

/-- `operator==`. -/
instance : BEq Value where
  beq a b :=
    if a.is_null != b.is_null then false
    else if a.is_null then a.type == b.type
    else a.type == b.type && a.data == b.data

namespace Value

/-- An empty initializer makes the first alternative. -/
def null (type : ValueType) : Value := ⟨type, true, .uint64 0⟩

/-- The overloads of `Value::of`. -/
def of : value_variant → Value
  | .int64 v => ⟨.INT64, false, .int64 v⟩
  | .uint64 v => ⟨.UINT64, false, .uint64 v⟩
  | .int32 v => ⟨.INT32, false, .int32 v⟩
  | .uint32 v => ⟨.UINT32, false, .uint32 v⟩
  | .double bits => ⟨.DOUBLE, false, .double bits⟩
  | .float bits => ⟨.FLOAT, false, .float bits⟩
  | .bool v => ⟨.BOOL, false, .bool v⟩
  | .string v => ⟨.STRING, false, .string v⟩
  | .bytes v => ⟨.BYTES, false, .bytes v⟩

/-- `std::get` of another alternative than the one that is there. -/
def bad_variant_access : Failure := .thrown "std::get: wrong index for variant"

def serialized_size (v : Value) : Except Failure Nat :=
  match v.type with
  | .INT64 | .UINT64 | .DOUBLE => .ok 8
  | .INT32 | .UINT32 | .FLOAT => .ok 4
  | .BOOL => .ok 1
  | .STRING =>
    match v.data with
    | .string s => .ok s.length
    | _ => .error bad_variant_access
  | .BYTES =>
    match v.data with
    | .bytes b => .ok b.length
    | _ => .error bad_variant_access

/-- The bytes of the value come after those of `out`. -/
def serialize_to (v : Value) (out : List UInt8) : Except Failure (List UInt8) :=
  match v.type, v.data with
  | .INT64, .int64 n => .ok (out ++ leBytes 8 n.toUInt64.toNat)
  | .UINT64, .uint64 n => .ok (out ++ leBytes 8 n.toNat)
  | .DOUBLE, .double bits => .ok (out ++ leBytes 8 bits.toNat)
  | .INT32, .int32 n => .ok (out ++ leBytes 4 n.toUInt32.toNat)
  | .UINT32, .uint32 n => .ok (out ++ leBytes 4 n.toNat)
  | .FLOAT, .float bits => .ok (out ++ leBytes 4 bits.toNat)
  | .BOOL, .bool b => .ok (out ++ [if b then 1 else 0])
  | .STRING, .string s => .ok (out ++ s)
  | .BYTES, .bytes b => .ok (out ++ b)
  | _, _ => .error bad_variant_access

end Value

/-! ## Schemas -/

/-- The length of a CHAR column is its size; that of a VARCHAR or VARBINARY column is its
largest size, or zero for none. -/
structure Column where
  name : List UInt8
  type : TypeId
  length : UInt16
  deriving DecidableEq

def Column.is_fixed_size (column : Column) : Bool :=
  column.type = .INT64 || column.type = .UINT64 || column.type = .INT32 ||
    column.type = .UINT32 || column.type = .DOUBLE || column.type = .FLOAT ||
    column.type = .BOOL || column.type = .CHAR

structure Schema where
  columns : List Column
  deriving DecidableEq

namespace Schema

variable (schema : Schema)

/-- The constructor from a list of columns. -/
def make (columns : List Column) : Except Failure Schema :=
  if columns.length = 0 then
    .error (.thrown "Schema::Schema: tried to create schema with 0 columns")
  else .ok ⟨columns⟩

def column_count : Nat := schema.columns.length

/-- `fixed_size_of` of the index of a column. -/
def fixed_size_of (column : Column) : Except Failure UInt16 :=
  match column.type with
  | .INT64 | .UINT64 | .DOUBLE => .ok 8
  | .INT32 | .UINT32 | .FLOAT => .ok 4
  | .BOOL => .ok 1
  | .CHAR => .ok column.length
  | .VARCHAR | .VARBINARY => .ok 0
  | .other _ => .error (.thrown "Schema::fixed_size_of: unknown typeId")

end Schema

/-! ## NULLs -/

namespace NullBitmap

def size (column_count : Nat) : Nat := (column_count + 7) / 8

def is_null (bitmap : List UInt8) (column : Nat) : Except Failure Bool :=
  match bit bitmap column with
  | some b => .ok b
  | none => .error .outside

def set_null (bitmap : List UInt8) (column : Nat) : List UInt8 := setBit bitmap column

end NullBitmap

/-! ## From a tuple to its bytes -/

/-- The first loop of `Tuple::serialize`, from column `i` on. -/
def set_nulls (out : List UInt8) (i : Nat) : List Value → List UInt8
  | [] => out
  | v :: values => set_nulls (if v.is_null then NullBitmap.set_null out i else out) (i + 1) values

/-- The checks of a value that is not NULL. -/
def check_size (column : Column) (v : Value) : Except Failure Unit :=
  if v.is_null then .ok ()
  else if column.type = .CHAR ∨ column.type = .VARCHAR then do
    let value_size ← v.serialized_size
    if column.type = .CHAR ∧ value_size > column.length.toNat then
      .error (.thrown "Tuple::serialize: CHAR value exceeds defined size")
    else if column.type = .VARCHAR ∧ column.length > 0 ∧ value_size > column.length.toNat then
      .error (.thrown "Tuple::serialize: VARCHAR value exceeds defined maximum size")
    else if column.type = .VARCHAR ∧ value_size > 0xFFFF then
      .error (.thrown "Tuple::serialize: VARCHAR value exceeds 65535-byte protocol limit")
    -- these two are inside of the branch for the other types
    else if column.type = .VARBINARY ∧ column.length > 0 ∧ value_size > column.length.toNat then
      .error (.thrown "Tuple::serialize: VARBINARY value exceeds defined maximum size")
    else if column.type = .VARBINARY ∧ value_size > 0xFFFF then
      .error (.thrown "Tuple::serialize: VARBINARY value exceeds 65535-byte protocol limit")
    else .ok ()
  else .ok ()

/-- One turn of the second loop of `Tuple::serialize`. -/
def serialize_column (out : List UInt8) (column : Column) (v : Value) :
    Except Failure (List UInt8) := do
  check_size column v
  if column.is_fixed_size then
    let fixed ← Schema.fixed_size_of column
    let written ← (if v.is_null then .ok out else v.serialize_to out)
    -- padding up to the size of the column
    .ok (written ++ List.replicate (fixed.toNat - (written.length - out.length)) 0)
  else
    let len ← (if v.is_null then .ok 0 else v.serialized_size.map UInt16.ofNat)
    let out := out ++ leBytes 2 len.toNat
    if v.is_null then .ok out else v.serialize_to out

def serialize_columns (out : List UInt8) : List Column → List Value → Except Failure (List UInt8)
  | column :: columns, v :: values => do
    let out ← serialize_column out column v
    serialize_columns out columns values
  | _, _ => .ok out

/-! ## From bytes to values -/

/-- `size` bytes of a span from `offset` on, which have to be inside of it. -/
def subspan (raw : List UInt8) (offset size : Nat) : Except Failure (List UInt8) :=
  match slice raw offset size with
  | some bytes => .ok bytes
  | none => .error .outside

def read_length (raw : List UInt8) (offset : UInt16) : Except Failure UInt16 :=
  (subspan raw offset.toNat 2).map fun bytes => UInt16.ofNat (ofLeBytes bytes)

/-- The loop of `compute_offsets`. -/
def compute_offsets_from (raw : List UInt8) (offset : Nat) :
    List Column → Except Failure (List UInt16)
  | [] => .ok []
  | column :: columns => do
    let fixed ← Schema.fixed_size_of column
    let size ← (if fixed > 0 then .ok fixed.toNat
      else (read_length raw (UInt16.ofNat offset)).map fun len => len.toNat + 2)
    let offsets ← compute_offsets_from raw (offset + size) columns
    .ok (UInt16.ofNat offset :: offsets)

def compute_offsets (schema : Schema) (raw : List UInt8) : Except Failure (List UInt16) :=
  compute_offsets_from raw (NullBitmap.size schema.column_count) schema.columns

/-- The number in the first `n` bytes of a span. -/
def read_number (value_bytes : List UInt8) (n : Nat) : Except Failure Nat :=
  (subspan value_bytes 0 n).map ofLeBytes

/-- The switch of `deserialize_value`. -/
def value_of (type : TypeId) (value_bytes : List UInt8) : Except Failure Value :=
  match type with
  | .INT64 => (read_number value_bytes 8).map fun n => .of (.int64 (UInt64.ofNat n).toInt64)
  | .UINT64 => (read_number value_bytes 8).map fun n => .of (.uint64 (UInt64.ofNat n))
  | .DOUBLE => (read_number value_bytes 8).map fun n => .of (.double (UInt64.ofNat n))
  | .INT32 => (read_number value_bytes 4).map fun n => .of (.int32 (UInt32.ofNat n).toInt32)
  | .UINT32 => (read_number value_bytes 4).map fun n => .of (.uint32 (UInt32.ofNat n))
  | .FLOAT => (read_number value_bytes 4).map fun n => .of (.float (UInt32.ofNat n))
  | .BOOL => (read_number value_bytes 1).map fun n => .of (.bool (n != 0))
  -- the padding is cut off
  | .CHAR => .ok (.of (.string (value_bytes.rdropWhile (· == 0))))
  | .VARCHAR => .ok (.of (.string value_bytes))
  | .VARBINARY => .ok (.of (.bytes value_bytes))
  | .other _ => .error (.thrown "Tuple::get: unknown TypeId")

def deserialize_value (schema : Schema) (raw : List UInt8) (offsets : List UInt16)
    (column_index : Nat) : Except Failure Value :=
  match schema.columns[column_index]?, offsets[column_index]? with
  | some column, some offset => do
    let is_null ← NullBitmap.is_null raw column_index
    if is_null then (type_id_to_value_type column.type).map .null
    else
      let fixed ← Schema.fixed_size_of column
      let (offset, size) ← (if column.is_fixed_size then .ok (offset, fixed.toNat)
        else (read_length raw offset).map fun len => (offset + 2, len.toNat))
      let value_bytes ← subspan raw offset.toNat size
      value_of column.type value_bytes
  | _, _ => .error .outside

def deserialize (schema : Schema) (raw : List UInt8) : Except Failure (List Value) := do
  let offsets ← compute_offsets schema raw
  (List.range schema.column_count).mapM (deserialize_value schema raw offsets)

/-! ## Tuples -/

/-- The type of a value is that of its column. -/
def Typed (v : Value) (column : Column) : Prop := type_id_to_value_type column.type = .ok v.type

/-- The loop of the constructor. -/
def check_types : List Value → List Column → Except Failure Unit
  | v :: values, column :: columns => do
    let type ← type_id_to_value_type column.type
    if v.type = type then check_types values columns
    else .error (.thrown s!"Tuple::Tuple: value type {v.type.code} is not supported by column type {column.type.code}")
  | _, _ => .ok ()

theorem typed_of_check_types {values : List Value} {columns : List Column}
    (hlen : values.length = columns.length) (h : check_types values columns = .ok ()) :
    List.Forall₂ Typed values columns := by
  induction values generalizing columns with
  | nil =>
    rw [List.length_nil] at hlen
    rw [List.length_eq_zero_iff.mp hlen.symm]
    exact .nil
  | cons v values ih =>
    cases columns with
    | nil => cases hlen
    | cons column columns =>
      unfold check_types at h
      cases ht : type_id_to_value_type column.type with
      | error e =>
        rw [ht] at h
        cases h
      | ok type =>
        rw [ht] at h
        change (if v.type = type then _ else _) = _ at h
        split at h
        · rename_i heq
          refine .cons ?_ (ih (Nat.succ.inj hlen) h)
          unfold Typed
          rw [ht, heq]
        · cases h

theorem value_of_typed {type : TypeId} {value_bytes : List UInt8} {v : Value}
    (h : value_of type value_bytes = .ok v) : type_id_to_value_type type = .ok v.type := by
  cases type with
  | other => cases h
  | CHAR | VARCHAR | VARBINARY =>
    cases h
    rfl
  | INT64 | UINT64 | INT32 | UINT32 | FLOAT | DOUBLE | BOOL =>
    obtain ⟨n, _, rfl⟩ := map_ok h
    rfl

theorem deserialize_value_typed {schema : Schema} {raw : List UInt8} {offsets : List UInt16}
    {i : Nat} {v : Value} (h : deserialize_value schema raw offsets i = .ok v) :
    ∃ column, schema.columns[i]? = some column ∧ Typed v column := by
  unfold deserialize_value at h
  split at h
  · rename_i column offset hc _
    refine ⟨column, hc, ?_⟩
    obtain ⟨null, _, h⟩ := bind_ok h
    split at h
    · obtain ⟨type, ht, rfl⟩ := map_ok h
      exact ht
    · obtain ⟨fixed, _, h⟩ := bind_ok h
      obtain ⟨place, _, h⟩ := bind_ok h
      obtain ⟨value_bytes, _, h⟩ := bind_ok h
      exact value_of_typed h
  · cases h

theorem deserialize_typed {schema : Schema} {raw : List UInt8} {values : List Value}
    (h : deserialize schema raw = .ok values) : List.Forall₂ Typed values schema.columns := by
  unfold deserialize at h
  obtain ⟨offsets, _, h⟩ := bind_ok h
  obtain ⟨hlen, hget⟩ := List.forall₂_iff_get.mp (mapM_ok.mp h)
  rw [List.length_range] at hlen
  refine List.forall₂_iff_get.mpr ⟨hlen.symm, fun i h1 h2 => ?_⟩
  obtain ⟨column, hc, ht⟩ := deserialize_value_typed (hget i (by simpa [hlen] using h1) h1)
  simp only [List.get_eq_getElem, List.getElem_range] at hc
  obtain ⟨_, rfl⟩ := List.getElem?_eq_some_iff.mp hc
  exact ht

/-- The values of a row. Each has the type of its column. -/
structure Tuple (schema : Schema) where
  values : List Value
  typed : List.Forall₂ Typed values schema.columns

namespace Tuple

variable {schema : Schema}

/-- The constructor from a list of values. -/
def make (values : List Value) (schema : Schema) : Except Failure (Tuple schema) :=
  if hlen : values.length = schema.column_count then
    match h : check_types values schema.columns with
    | .ok () => .ok ⟨values, typed_of_check_types hlen h⟩
    | .error e => .error e
  else .error (.thrown "Tuple::Tuple: value vector size doesn't match schema column count")

/-- The constructor from bytes. -/
def of_raw (raw : List UInt8) (schema : Schema) : Except Failure (Tuple schema) :=
  match h : deserialize schema raw with
  | .ok values => .ok ⟨values, deserialize_typed h⟩
  | .error e => .error e

def serialize (tuple : Tuple schema) : Except Failure (List UInt8) :=
  let out := List.replicate (NullBitmap.size schema.column_count) 0
  serialize_columns (set_nulls out 0 tuple.values) schema.columns tuple.values

end Tuple

end duck.tuple
