-- Which bytes the constructor of a schema accepts: those that begin with the
-- encoding of some columns, be they none, or of types without a name.
import DuckDbms.Catalog

open layout

open duck.buffer_pool duck.table_heap duck.catalog

namespace duck.tuple

/-! ## What is read -/

theorem TypeId.code_of_code (code : UInt16) : (TypeId.of_code code).code = code := by
  unfold of_code
  split
  · rfl
  rename_i h
  have hlt : code.toNat < 10 := by
    rw [UInt16.le_iff_toNat_le] at h
    exact Nat.lt_of_not_le h
  have hcode : code = UInt16.ofNat code.toNat := UInt16.ofNat_toNat.symm
  generalize code.toNat = n at hlt hcode
  subst hcode
  match n, hlt with
  | 0, _ | 1, _ | 2, _ | 3, _ | 4, _ | 5, _ | 6, _ | 7, _ | 8, _ | 9, _ => rfl

theorem subspan_ok {raw p : List UInt8} {k n : Nat} (h : subspan raw k n = .ok p) :
    p.length = n ∧ raw.drop k = p ++ raw.drop (k + n) := by
  unfold subspan at h
  split at h
  · rename_i bytes hs
    cases h
    exact slice_split hs
  · cases h

theorem subspan_inside (raw : List UInt8) {k n : Nat} (h : k + n ≤ raw.length) :
    ∃ p, subspan raw k n = .ok p := by
  unfold subspan slice
  rw [if_pos h]
  exact ⟨_, rfl⟩

/-- Two bytes are the number that is read from them. -/
theorem subspan_two {raw p : List UInt8} {k : Nat} (h : subspan raw k 2 = .ok p) :
    raw.drop k = leBytes 2 (ofLeBytes p) ++ raw.drop (k + 2) ∧ ofLeBytes p < 65536 := by
  obtain ⟨hlen, hdrop⟩ := subspan_ok h
  have hbytes := leBytes_ofLeBytes p
  have hlt := ofLeBytes_lt p
  rw [hlen] at hbytes hlt
  exact ⟨by rw [hbytes, hdrop], hlt⟩

theorem read_number_two {raw : List UInt8} {n : Nat} (h : read_number raw 2 = .ok n) :
    raw = leBytes 2 n ++ raw.drop 2 ∧ n < 65536 := by
  obtain ⟨p, hp, rfl⟩ := map_ok h
  exact subspan_two hp

/-- A column that is read was written there. -/
theorem Column.deserialize_ok {raw : List UInt8} {column : Column} {size : UInt16}
    (h : Column.deserialize raw = .ok (column, size)) :
    ∃ rest, raw = column.serialize ++ rest ∧ size = UInt16.ofNat column.serialize.length ∧
      column.name.length < 65536 := by
  unfold Column.deserialize at h
  split at h
  · cases h
  obtain ⟨name_length, hn, h⟩ := bind_ok h
  split at h
  · cases h
  obtain ⟨name, hname, h⟩ := bind_ok h
  obtain ⟨type_arr, htype, h⟩ := bind_ok h
  obtain ⟨length_arr, hlength, h⟩ := bind_ok h
  cases h
  obtain ⟨hraw, hlt⟩ := read_number_two hn
  obtain ⟨hlen, hname⟩ := subspan_ok hname
  obtain ⟨htype, htlt⟩ := subspan_two htype
  obtain ⟨hlength, hllt⟩ := subspan_two hlength
  subst hlen
  refine ⟨raw.drop (2 + name.length + 2 + 2), ?_, ?_, hlt⟩
  · unfold Column.serialize
    rw [TypeId.code_of_code, UInt16.toNat_ofNat', UInt16.toNat_ofNat', Nat.mod_eq_of_lt htlt,
      Nat.mod_eq_of_lt hllt, List.append_assoc, List.append_assoc, List.append_assoc, ← hlength,
      ← htype, ← hname]
    exact hraw
  · rw [Column.length_serialize]
    refine congrArg UInt16.ofNat ?_
    show 2 + name.length + 2 + 2 = name.length + 6
    omega

/-- A column is read inside of its bytes. -/
theorem Column.deserialize_inside (raw : List UInt8) : Column.deserialize raw ≠ .error .outside := by
  unfold Column.deserialize
  split
  · nofun
  rename_i h2
  obtain ⟨p, hp⟩ := subspan_inside raw (k := 0) (n := 2) (by omega)
  have hn : read_number raw 2 = .ok (ofLeBytes p) := by
    unfold read_number
    rw [hp]
    rfl
  rw [hn]
  show (if _ then _ else _) ≠ _
  split
  · nofun
  rename_i hbody
  obtain ⟨name, hname⟩ := subspan_inside raw (k := 2) (n := ofLeBytes p) (by omega)
  obtain ⟨type_arr, htype⟩ := subspan_inside raw (k := 2 + ofLeBytes p) (n := 2) (by omega)
  obtain ⟨length_arr, hlength⟩ :=
    subspan_inside raw (k := 2 + ofLeBytes p + 2) (n := 2) (by omega)
  rw [hname, htype, hlength]
  nofun

/-! ## Columns one after the other -/

/-- `raw` has these columns one after the other, each at the place of 16 bits where the one before
it ends. -/
inductive ColumnsAt (raw : List UInt8) : UInt16 → List Column → Prop
  | nil (offset : UInt16) : ColumnsAt raw offset []
  | cons {offset : UInt16} {column : Column} {columns : List Column} (rest : List UInt8) :
      raw.drop offset.toNat = column.serialize ++ rest → column.name.length < 65536 →
      ColumnsAt raw (offset + UInt16.ofNat column.serialize.length) columns →
      ColumnsAt raw offset (column :: columns)

/-- `raw` is the encoding of these columns, up to what comes after it. -/
structure Encodes (raw : List UInt8) (columns : List Column) : Prop where
  count : columns.length < 65536
  begins : ∃ rest, raw = leBytes 2 columns.length ++ rest
  columns : ColumnsAt raw 2 columns

theorem Schema.deserialize_columns_ok {raw : List UInt8} {column_count left : Nat}
    {offset : UInt16} {columns : List Column}
    (h : deserialize_columns raw column_count left offset = .ok columns) :
    columns.length = left ∧ ColumnsAt raw offset columns := by
  induction left generalizing offset columns with
  | zero =>
    cases h
    exact ⟨rfl, .nil offset⟩
  | succ left ih =>
    unfold deserialize_columns at h
    split at h
    · cases h
    obtain ⟨⟨column, size⟩, hcolumn, h⟩ := bind_ok h
    obtain ⟨rest, hrest, h⟩ := bind_ok h
    cases h
    obtain ⟨after, hraw, rfl, hname⟩ := Column.deserialize_ok hcolumn
    obtain ⟨hlen, hat⟩ := ih hrest
    exact ⟨congrArg Nat.succ hlen, .cons after hraw hname hat⟩

theorem ColumnsAt.deserialize_columns {raw : List UInt8} {offset : UInt16} {columns : List Column}
    (h : ColumnsAt raw offset columns) (column_count : Nat) :
    Schema.deserialize_columns raw column_count columns.length offset = .ok columns := by
  induction h with
  | nil => rfl
  | @cons offset column columns rest hraw hname _ ih =>
    have hinside : ¬ raw.length < offset.toNat := by
      intro hlt
      rw [List.drop_of_length_le (by omega)] at hraw
      have hlen := congrArg List.length hraw
      rw [List.length_append, Column.length_serialize, List.length_nil] at hlen
      omega
    rw [List.length_cons]
    unfold Schema.deserialize_columns
    rw [if_neg hinside, hraw, Column.deserialize_serialize _ _ hname]
    show (Schema.deserialize_columns _ _ _ _ >>= _) = _
    rw [ih]
    rfl

theorem Schema.deserialize_columns_inside (raw : List UInt8) (column_count left : Nat)
    (offset : UInt16) : deserialize_columns raw column_count left offset ≠ .error .outside := by
  induction left generalizing offset with
  | zero =>
    intro h
    cases h
  | succ left ih =>
    unfold deserialize_columns
    split
    · intro h
      cases h
    rcases hc : Column.deserialize (raw.drop offset.toNat) with e | ⟨column, size⟩
    · intro h
      cases h
      exact Column.deserialize_inside _ hc
    show (deserialize_columns _ _ _ _ >>= _) ≠ _
    rcases hr : deserialize_columns raw column_count left (offset + size) with e | columns
    · intro h
      cases h
      exact ih _ hr
    · intro h
      cases h

/-- What is accepted is what encodes some columns, and these are what is read. -/
theorem Schema.deserialize_ok_iff {raw : List UInt8} {columns : List Column} :
    deserialize raw = .ok columns ↔ Encodes raw columns := by
  unfold deserialize
  constructor
  · intro h
    split at h
    · cases h
    obtain ⟨n, hn, h⟩ := bind_ok h
    obtain ⟨hraw, hlt⟩ := read_number_two hn
    obtain ⟨rfl, hat⟩ := deserialize_columns_ok h
    exact ⟨hlt, ⟨_, hraw⟩, hat⟩
  · rintro ⟨hcount, ⟨rest, hraw⟩, hat⟩
    have hlen := congrArg List.length hraw
    rw [List.length_append, length_leBytes] at hlen
    have hread : read_number raw 2 = .ok columns.length := by
      rw [hraw]
      exact read_number_at _ _ hcount
    rw [if_neg (by omega), hread]
    exact hat.deserialize_columns _

theorem Schema.deserialize_inside (raw : List UInt8) : deserialize raw ≠ .error .outside := by
  unfold deserialize
  split
  · nofun
  rename_i h2
  obtain ⟨p, hp⟩ := subspan_inside raw (k := 0) (n := 2) (by omega)
  have hread : read_number raw 2 = .ok (ofLeBytes p) := by
    unfold read_number
    rw [hp]
    rfl
  rw [hread]
  exact deserialize_columns_inside _ _ _ _

/-- In less than 65536 bytes no place is cut to 16 bits. -/
theorem ColumnsAt.split {raw : List UInt8} {offset : UInt16} {columns : List Column}
    (h : ColumnsAt raw offset columns) (hlen : raw.length < 65536) :
    ∃ rest, raw.drop offset.toNat = columns.flatMap Column.serialize ++ rest := by
  induction h with
  | nil offset => exact ⟨_, rfl⟩
  | @cons offset column columns rest hraw hname _ ih =>
    obtain ⟨after, hafter⟩ := ih
    have hsum := congrArg List.length hraw
    rw [List.length_drop, List.length_append, Column.length_serialize] at hsum
    have hnext : (offset + UInt16.ofNat column.serialize.length).toNat
        = offset.toNat + column.serialize.length := by
      rw [UInt16.toNat_add, UInt16.toNat_ofNat', Column.length_serialize]
      have := offset.toNat_lt
      omega
    refine ⟨after, ?_⟩
    rw [hnext, ← List.drop_drop, hraw, List.drop_left] at hafter
    rw [hraw, hafter, List.flatMap_cons, List.append_assoc]

/-- The decoder reads inside of the bytes, and only what an encoder has written. -/
def ReadsEncodings (raw : List UInt8) : Prop :=
  Schema.deserialize raw ≠ .error .outside ∧
    ∀ columns, Schema.deserialize raw = .ok columns → ∃ rest, raw = Schema.serialize ⟨columns⟩ ++ rest

theorem readsEncodings {raw : List UInt8} (hlen : raw.length < 65536) : ReadsEncodings raw := by
  refine ⟨Schema.deserialize_inside raw, fun columns h => ?_⟩
  obtain ⟨hcount, ⟨rest, hraw⟩, hat⟩ := Schema.deserialize_ok_iff.mp h
  obtain ⟨after, hafter⟩ := hat.split hlen
  change raw.drop 2 = _ at hafter
  refine ⟨after, ?_⟩
  unfold Schema.serialize
  have hdrop : raw.drop 2 = rest := by
    rw [hraw, List.drop_left' (length_leBytes 2 _)]
  rw [Schema.column_count, Nat.mod_eq_of_lt hcount, List.take_length, List.append_assoc, ← hafter,
    hdrop]
  exact hraw

theorem Schema.count_of_raw {schema : Schema} {raw : List UInt8} (h : Schema.of_raw raw = .ok schema) :
    schema.column_count < 65536 := by
  obtain ⟨columns, hcolumns, rfl⟩ := map_ok h
  exact (Schema.deserialize_ok_iff.mp hcolumns).count

/-- A schema in at most 65535 bytes is read back, and any such bytes are refused or begin with the
encoding of what is read, if and only if the schema has less than 65536 columns. -/
theorem a_schema_is_read_back_when_its_count_fits {schema : Schema} {raw : List UInt8}
    (hs : schema.serialize.length ≤ 65535) (hraw : raw.length ≤ 65535) :
    (Schema.of_raw schema.serialize = .ok schema ∧ ReadsEncodings raw) ↔
      schema.column_count < 65536 := by
  constructor
  · rintro ⟨hread, -⟩
    exact Schema.count_of_raw hread
  · intro hcount
    exact ⟨Schema.of_raw_serialize hcount (by omega), readsEncodings (by omega)⟩

theorem three_columns_are_read_back :
    Schema.of_raw three_columns.serialize = .ok three_columns ∧
      ReadsEncodings (three_columns.serialize ++ [0, 1, 2]) :=
  (a_schema_is_read_back_when_its_count_fits (by decide) (by decide)).mpr (by decide)

/-- A number without a name, 65537 times. -/
def too_many_columns : Schema := ⟨List.replicate 65537 ⟨[], .INT32, 0⟩⟩

theorem too_many_columns_bytes :
    too_many_columns.serialize = Schema.serialize ⟨[⟨[], .INT32, 0⟩]⟩ := by
  have hcount : too_many_columns.column_count = 65537 := List.length_replicate
  unfold Schema.serialize
  rw [hcount]
  show _ ++ ((List.replicate 65537 _).take 1).flatMap _ = _
  rw [List.take_replicate]
  rfl

/-- The count is cut to one, and one column is written and read. -/
theorem too_many_columns_are_read_as_one :
    Schema.make (List.replicate 65537 ⟨[], .INT32, 0⟩) = .ok too_many_columns ∧
      too_many_columns.serialize.length = 8 ∧
      Schema.of_raw too_many_columns.serialize = .ok ⟨[⟨[], .INT32, 0⟩]⟩ ∧
      Schema.of_raw too_many_columns.serialize ≠ .ok too_many_columns := by
  have hcount : too_many_columns.column_count = 65537 := List.length_replicate
  have hread : Schema.of_raw too_many_columns.serialize = .ok ⟨[⟨[], .INT32, 0⟩]⟩ := by
    rw [too_many_columns_bytes]
    rfl
  refine ⟨?_, by rw [too_many_columns_bytes]; rfl, hread, fun h => ?_⟩
  · unfold Schema.make
    rw [if_neg (by rw [List.length_replicate]; decide)]
    rfl
  · rw [hread] at h
    rw [← Except.ok.inj h] at hcount
    cases hcount

/-! ## Schemas that can be used -/

/-- One of the ten types that have a name. -/
def TypeId.Named (type : TypeId) : Prop := type.code < 10

/-- There is a column, and all columns are of the ten types. -/
def Usable (schema : Schema) : Prop :=
  1 ≤ schema.column_count ∧ ∀ column ∈ schema.columns, column.type.Named

theorem TypeId.named_iff {type : TypeId} : type.Named ↔ ∀ code, type ≠ .other code := by
  unfold Named
  cases type with
  | other code =>
    refine ⟨fun h => absurd code.property (UInt16.not_le.mpr h), fun h => absurd rfl (h code)⟩
  | _ => exact ⟨fun _ => nofun, fun _ => by decide⟩

/-- Of the types with a name neither switch throws. -/
theorem TypeId.Named.known {column : Column} (h : column.type.Named) :
    (∃ n, Schema.fixed_size_of column = .ok n) ∧ ∃ t, type_id_to_value_type column.type = .ok t := by
  obtain ⟨name, type, length⟩ := column
  cases type with
  | other code => exact absurd rfl (TypeId.named_iff.mp h code)
  | _ => exact ⟨⟨_, rfl⟩, _, rfl⟩

/-- What the bytes encode is at least one column, of the ten types. -/
def EncodesUsable (raw : List UInt8) : Prop :=
  ∀ columns, Encodes raw columns → columns ≠ [] ∧ ∀ column ∈ columns, column.type.Named

theorem usable_of_raw_iff (raw : List UInt8) :
    (∀ schema, Schema.of_raw raw = .ok schema → Usable schema) ↔ EncodesUsable raw := by
  constructor
  · intro h columns hc
    have hread : Schema.of_raw raw = .ok ⟨columns⟩ := by
      unfold Schema.of_raw
      rw [Schema.deserialize_ok_iff.mpr hc]
      rfl
    obtain ⟨hone, htypes⟩ := h _ hread
    exact ⟨List.length_pos_iff.mp hone, htypes⟩
  · intro h schema hread
    obtain ⟨columns, hcolumns, rfl⟩ := map_ok hread
    obtain ⟨hne, htypes⟩ := h columns (Schema.deserialize_ok_iff.mp hcolumns)
    exact ⟨List.length_pos_iff.mpr hne, htypes⟩

theorem usable_make_iff (columns : List Column) :
    (∀ schema, Schema.make columns = .ok schema → Usable schema) ↔
      ∀ column ∈ columns, column.type.Named := by
  unfold Schema.make
  split
  · rename_i hnil
    rw [List.length_eq_zero_iff.mp hnil]
    exact ⟨fun _ => nofun, fun _ => nofun⟩
  · rename_i hne
    refine ⟨fun h => (h _ rfl).2, fun h schema hs => ?_⟩
    cases hs
    exact ⟨Nat.pos_of_ne_zero hne, h⟩

/-- A table that was loaded has a schema that was read from bytes. -/
def FromBytes (tables : List UInt8 → Option TableEntry) : Prop :=
  ∀ name entry, tables name = some entry → ∃ raw, Schema.of_raw raw = .ok entry.table.schema

theorem read_entry_from_bytes {bytes name : List UInt8} {table : table.Table}
    (h : read_entry bytes = .ok (name, table)) : ∃ raw, Schema.of_raw raw = .ok table.schema := by
  obtain ⟨_, _, h⟩ := bind_ok h
  obtain ⟨_, _, h⟩ := bind_ok h
  obtain ⟨_, _, h⟩ := bind_ok h
  obtain ⟨_, _, h⟩ := bind_ok h
  obtain ⟨_, _, h⟩ := bind_ok h
  obtain ⟨_, _, h⟩ := bind_ok h
  obtain ⟨raw, _, h⟩ := bind_ok h
  obtain ⟨schema, hschema, h⟩ := bind_ok h
  cases h
  exact ⟨raw, hschema⟩

theorem load_tables_from_bytes {fuel : Nat} {b b' : BufferPoolManager} {scan : Scan}
    {tables tables' : List UInt8 → Option TableEntry} (hf : FromBytes tables)
    (h : load_tables fuel b scan tables = some (.ok tables', b')) : FromBytes tables' := by
  induction fuel generalizing b scan tables with
  | zero => cases h
  | succ fuel ih =>
    unfold load_tables at h
    split at h
    · cases h
    · cases h
    · cases h
      exact hf
    rename_i rid bytes b1 scan1 _
    split at h
    · cases h
    rename_i table_name table hentry
    refine ih (fun name entry hname => ?_) h
    by_cases heq : name = table_name
    · subst heq
      rw [Function.update_self] at hname
      cases hname
      exact read_entry_from_bytes hentry
    · rw [Function.update_of_ne heq] at hname
      exact hf name entry hname

theorem load_existing_tables_from_bytes {b b' : BufferPoolManager} {catalog_table : table.Table}
    {tables : List UInt8 → Option TableEntry}
    (h : load_existing_tables b catalog_table = some (.ok tables, b')) : FromBytes tables := by
  unfold load_existing_tables at h
  split at h
  · cases h
  · exact load_tables_from_bytes (fun _ _ hnone => absurd hnone.symm (Option.some_ne_none _)) h

/-- The schema that a constructor makes is usable if and only if the columns it is given have types
with a name, or the bytes it is given do not encode no columns or a column without such a type. The
tables of a catalog come from the bytes of its rows: where these are so neither switch throws. -/
theorem schemas_are_usable_when_their_columns_are (columns : List Column) (raw : List UInt8) :
    ((∀ schema, Schema.make columns = .ok schema → Usable schema) ↔
      ∀ column ∈ columns, column.type.Named) ∧
    ((∀ schema, Schema.of_raw raw = .ok schema → Usable schema) ↔ EncodesUsable raw) ∧
    ∀ b b' catalog_table tables, load_existing_tables b catalog_table = some (.ok tables, b') →
      ∀ name entry, tables name = some entry →
        ∃ bytes, Schema.of_raw bytes = .ok entry.table.schema ∧ (EncodesUsable bytes →
          ∀ column ∈ entry.table.schema.columns, (∃ n, Schema.fixed_size_of column = .ok n) ∧
            ∃ t, type_id_to_value_type column.type = .ok t) := by
  refine ⟨usable_make_iff columns, usable_of_raw_iff raw,
    fun b b' catalog_table tables hload name entry he => ?_⟩
  obtain ⟨bytes, hbytes⟩ := load_existing_tables_from_bytes hload name entry he
  refine ⟨bytes, hbytes, fun husable column hmem => ?_⟩
  exact (((usable_of_raw_iff bytes).mpr husable _ hbytes).2 column hmem).known

/-- No columns, and a column of a type without a name. -/
theorem unusable_schemas_are_read :
    (∃ schema, Schema.of_raw [0, 0] = .ok schema ∧ ¬ Usable schema) ∧
      ∃ column, Schema.of_raw [1, 0, 0, 0, 42, 0, 0, 0] = .ok ⟨[column]⟩ ∧ ¬ Usable ⟨[column]⟩ ∧
        Schema.fixed_size_of column = .error (.thrown "Schema::fixed_size_of: unknown typeId") ∧
        type_id_to_value_type column.type
          = .error (.thrown "type_id_to_value_type: invalid type id") := by
  refine ⟨⟨⟨[]⟩, rfl, fun h => absurd h.1 (by decide)⟩, ⟨[], .other ⟨42, by decide⟩, 0⟩, rfl, ?_, rfl,
    rfl⟩
  exact fun h => absurd rfl (TypeId.named_iff.mp (h.2 _ List.mem_cons_self) ⟨42, by decide⟩)

end duck.tuple
