-- The bytes of a schema, as the catalog keeps them: the number of its columns,
-- then the columns. Lengths and counts have two bytes.
import DuckDbms.TupleLaws

open layout

namespace duck.tuple

/-! ## The model -/

/-- The type with a code; `std::bit_cast` gives every code a type. -/
def TypeId.of_code (code : UInt16) : TypeId :=
  if h : 10 ≤ code then .other ⟨code, h⟩
  else
    match code.toNat with
    | 0 => .INT32
    | 1 => .INT64
    | 2 => .UINT32
    | 3 => .UINT64
    | 4 => .FLOAT
    | 5 => .DOUBLE
    | 6 => .BOOL
    | 7 => .CHAR
    | 8 => .VARCHAR
    | _ => .VARBINARY

/-- `name_length`, `type` and `length` are 16 bits wide. -/
def Column.serialize (column : Column) : List UInt8 :=
  leBytes 2 column.name.length ++ (column.name ++
    (leBytes 2 column.type.code.toNat ++ leBytes 2 column.length.toNat))

/-- A column from the start of its bytes, and how many bytes it has. -/
def Column.deserialize (raw : List UInt8) : Except Failure (Column × UInt16) :=
  if raw.length < 2 then
    .error (.thrown "Column::deserialize: raw data too small for name length")
  else do
    let name_length ← read_number raw 2
    if raw.length < 2 + name_length + 4 then
      .error (.thrown "Column::deserialize: raw data too small for column body")
    else
      let name ← subspan raw 2 name_length
      let type_arr ← subspan raw (2 + name_length) 2
      let length_arr ← subspan raw (2 + name_length + 2) 2
      .ok (⟨name, TypeId.of_code (UInt16.ofNat (ofLeBytes type_arr)),
        UInt16.ofNat (ofLeBytes length_arr)⟩, UInt16.ofNat (2 + name_length + 2 + 2))

namespace Schema

def compatible_with (schema other : Schema) : Bool := schema.columns == other.columns

/-- The count is cut to 16 bits, and the loop goes over that many columns. -/
def serialize (schema : Schema) : List UInt8 :=
  leBytes 2 schema.column_count ++
    (schema.columns.take (schema.column_count % 65536)).flatMap Column.serialize

/-- The loop of `Schema::deserialize`, with the columns that are left. -/
def deserialize_columns (raw : List UInt8) (column_count : Nat) :
    Nat → UInt16 → Except Failure (List Column)
  | 0, _ => .ok []
  | left + 1, offset =>
    if raw.length < offset.toNat then
      .error (.thrown
        s!"Schema::deserialize: raw data too small for specified column count ({column_count})")
    else do
      let (column, size) ← Column.deserialize (raw.drop offset.toNat)
      let columns ← deserialize_columns raw column_count left (offset + size)
      .ok (column :: columns)

def deserialize (raw : List UInt8) : Except Failure (List Column) :=
  if raw.length < 2 then
    .error (.thrown "Schema::deserialize: raw data too small for column count")
  else do
    let column_count ← read_number raw 2
    deserialize_columns raw column_count column_count 2

/-- The constructor from bytes, which lets a schema without columns through. -/
def of_raw (raw : List UInt8) : Except Failure Schema := (deserialize raw).map .mk

end Schema

/-! ## Round trips -/

theorem TypeId.of_code_code (type : TypeId) : TypeId.of_code type.code = type := by
  cases type with
  | other code =>
    exact dif_pos code.property
  | _ => rfl

@[simp] theorem Column.length_serialize (column : Column) :
    column.serialize.length = column.name.length + 6 := by
  simp only [serialize, List.length_append, length_leBytes]
  omega

theorem read_number_at (n : Nat) (rest : List UInt8) (h : n < 65536) :
    read_number (leBytes 2 n ++ rest) 2 = .ok n := by
  have hat : subspan (leBytes 2 n ++ rest) 0 2 = .ok (leBytes 2 n) :=
    subspan_at [] _ rest rfl rfl (length_leBytes 2 n)
  unfold read_number
  rw [hat, Except.map, ofLeBytes_leBytes 2 n h]

theorem ofNat_ofLeBytes (v : UInt16) : UInt16.ofNat (ofLeBytes (leBytes 2 v.toNat)) = v := by
  rw [ofLeBytes_leBytes 2 _ v.toNat_lt, UInt16.ofNat_toNat]

/-- A column whose name has a length of 16 bits is read as it was written, whatever follows. -/
theorem Column.deserialize_serialize (column : Column) (rest : List UInt8)
    (h : column.name.length < 65536) :
    Column.deserialize (column.serialize ++ rest) =
      .ok (column, UInt16.ofNat column.serialize.length) := by
  have hlen : (column.serialize ++ rest).length = column.name.length + 6 + rest.length := by simp
  have hparts : column.serialize ++ rest = leBytes 2 column.name.length ++ (column.name ++
      (leBytes 2 column.type.code.toNat ++ (leBytes 2 column.length.toNat ++ rest))) := by
    simp [serialize]
  have hcount : read_number (column.serialize ++ rest) 2 = .ok column.name.length := by
    rw [hparts]
    exact read_number_at _ _ h
  have hname : subspan (column.serialize ++ rest) 2 column.name.length = .ok column.name :=
    subspan_at _ _ _ hparts (length_leBytes 2 _) rfl
  have htype : subspan (column.serialize ++ rest) (2 + column.name.length) 2 =
      .ok (leBytes 2 column.type.code.toNat) :=
    subspan_at (leBytes 2 column.name.length ++ column.name) _
      (leBytes 2 column.length.toNat ++ rest) (by rw [hparts]; simp) (by simp) (length_leBytes 2 _)
  have hlength : subspan (column.serialize ++ rest) (2 + column.name.length + 2) 2 =
      .ok (leBytes 2 column.length.toNat) :=
    subspan_at (leBytes 2 column.name.length ++ (column.name ++ leBytes 2 column.type.code.toNat)) _
      rest (by rw [hparts]; simp) (by simp; omega) (length_leBytes 2 _)
  have hsize : 2 + column.name.length + 2 + 2 = column.serialize.length := by
    rw [Column.length_serialize]
    omega
  unfold Column.deserialize
  rw [if_neg (by omega), hcount]
  show (if _ then _ else _) = _
  rw [if_neg (by omega), hname, htype, hlength]
  show Except.ok (_, _) = _
  rw [ofNat_ofLeBytes, ofNat_ofLeBytes, TypeId.of_code_code, hsize]

theorem Schema.deserialize_columns_serialize {columns : List Column} {raw : List UInt8}
    (before : List UInt8) (hraw : raw = before ++ columns.flatMap Column.serialize) (hlen : raw.length < 65536)
    (column_count : Nat) :
    Schema.deserialize_columns raw column_count columns.length (UInt16.ofNat before.length) =
      .ok columns := by
  induction columns generalizing before with
  | nil => rfl
  | cons column columns ih =>
    rw [List.flatMap_cons] at hraw
    have hsum := congrArg List.length hraw
    simp only [List.length_append, Column.length_serialize] at hsum
    have hoffset : (UInt16.ofNat before.length).toNat = before.length := by
      apply UInt16.toNat_ofNat_of_lt'
      show _ < 65536
      omega
    have hdrop : raw.drop before.length =
        column.serialize ++ columns.flatMap Column.serialize := by
      rw [hraw, List.drop_left]
    have hcolumn := column.deserialize_serialize (columns.flatMap Column.serialize) (by omega)
    have hrest := ih (before ++ column.serialize) (by rw [hraw, List.append_assoc])
    rw [List.length_append, UInt16.ofNat_add] at hrest
    unfold deserialize_columns
    rw [List.length_cons]
    simp only
    rw [hoffset, if_neg (by omega), hdrop, hcolumn]
    show (Schema.deserialize_columns _ _ _ _ >>= _) = _
    rw [hrest]
    rfl

/-- A schema with a count of 16 bits is read as it was written. -/
theorem Schema.of_raw_serialize {schema : Schema} (hcount : schema.column_count < 65536)
    (hlen : schema.serialize.length < 65536) : Schema.of_raw schema.serialize = .ok schema := by
  have hall : schema.serialize =
      leBytes 2 schema.column_count ++ schema.columns.flatMap Column.serialize := by
    unfold serialize
    rw [Nat.mod_eq_of_lt hcount, column_count, List.take_length]
  have hsum := congrArg List.length hall
  rw [List.length_append, length_leBytes] at hsum
  have hread : read_number schema.serialize 2 = .ok schema.column_count := by
    rw [hall]
    exact read_number_at _ _ hcount
  have hcolumns : Schema.deserialize_columns schema.serialize schema.column_count
      schema.column_count 2 = .ok schema.columns :=
    deserialize_columns_serialize (leBytes 2 schema.column_count) hall hlen _
  unfold of_raw deserialize
  rw [if_neg (by omega), hread]
  show Except.map _ (Schema.deserialize_columns _ _ _ _) = _
  rw [hcolumns]
  rfl

end duck.tuple
