-- The bytes of a tuple say what its values are: a decode of what was encoded
-- gives the values back.
import DuckDbms.Tuple

open layout

namespace duck.tuple

/-! ## The bytes of a value -/

/-- What a type and the data of that type are in bytes. -/
inductive Encoded : ValueType → value_variant → List UInt8 → Prop
  | int64 (n : Int64) : Encoded .INT64 (.int64 n) (leBytes 8 n.toUInt64.toNat)
  | uint64 (n : UInt64) : Encoded .UINT64 (.uint64 n) (leBytes 8 n.toNat)
  | double (bits : UInt64) : Encoded .DOUBLE (.double bits) (leBytes 8 bits.toNat)
  | int32 (n : Int32) : Encoded .INT32 (.int32 n) (leBytes 4 n.toUInt32.toNat)
  | uint32 (n : UInt32) : Encoded .UINT32 (.uint32 n) (leBytes 4 n.toNat)
  | float (bits : UInt32) : Encoded .FLOAT (.float bits) (leBytes 4 bits.toNat)
  | bool (b : Bool) : Encoded .BOOL (.bool b) [if b then 1 else 0]
  | string (s : List UInt8) : Encoded .STRING (.string s) s
  | bytes (b : List UInt8) : Encoded .BYTES (.bytes b) b

theorem encoded_of_serialize_to {v : Value} {out out' : List UInt8}
    (h : v.serialize_to out = .ok out') :
    ∃ p, out' = out ++ p ∧ Encoded v.type v.data p := by
  unfold Value.serialize_to at h
  split at h
  case h_10 => cases h
  all_goals
    rename_i ht hd
    rw [ht, hd]
    refine ⟨_, (Except.ok.inj h).symm, ?_⟩
    constructor

theorem Encoded.serialized_size {v : Value} {p : List UInt8} (h : Encoded v.type v.data p) :
    v.serialized_size = .ok p.length := by
  obtain ⟨type, null, data⟩ := v
  cases h <;> simp [Value.serialized_size]

/-- The bytes of a value before they are padded. A NULL has none. -/
def Payload (v : Value) (p : List UInt8) : Prop :=
  if v.is_null then p = [] else Encoded v.type v.data p

theorem payload_null {v : Value} (h : v.is_null = true) : Payload v [] := by
  rw [Payload, if_pos h]

theorem payload_encoded {v : Value} {p : List UInt8} (h : ¬ v.is_null = true)
    (he : Encoded v.type v.data p) : Payload v p := by
  rw [Payload, if_neg h]
  exact he

/-! ## The bytes of a column -/

/-- The part of a row that belongs to a column: the bytes of its value, padded to the size of
the column, or after their length. -/
inductive Piece (column : Column) (v : Value) : List UInt8 → Prop
  | fixed {n : UInt16} {p : List UInt8} :
      column.is_fixed_size = true → Schema.fixed_size_of column = .ok n → Payload v p →
      p.length ≤ n.toNat → Piece column v (p ++ List.replicate (n.toNat - p.length) 0)
  | varlen {p : List UInt8} :
      column.is_fixed_size = false → Payload v p →
      Piece column v (leBytes 2 (UInt16.ofNat p.length).toNat ++ p)

/-- A value fills a column of its type, except for a CHAR. -/
theorem Encoded.fills {column : Column} {v : Value} {p : List UInt8} {n : UInt16}
    (h : Encoded v.type v.data p) (ht : Typed v column) (hchar : column.type ≠ .CHAR)
    (hf : column.is_fixed_size = true) (hn : Schema.fixed_size_of column = .ok n) :
    p.length = n.toNat := by
  obtain ⟨name, type, length⟩ := column
  obtain ⟨vtype, null, data⟩ := v
  cases type with
  | CHAR => exact absurd rfl hchar
  | VARCHAR | VARBINARY | other => cases hf
  | INT64 | UINT64 | INT32 | UINT32 | FLOAT | DOUBLE | BOOL =>
    obtain rfl := Except.ok.inj ht
    obtain rfl := Except.ok.inj hn
    cases h
    simp

/-- A CHAR that was checked fits. -/
theorem Encoded.length_le {column : Column} {v : Value} {p : List UInt8} {n : UInt16}
    (h : Encoded v.type v.data p) (ht : Typed v column) (hc : check_size column v = .ok ())
    (hnull : v.is_null = false) (hf : column.is_fixed_size = true)
    (hn : Schema.fixed_size_of column = .ok n) : p.length ≤ n.toNat := by
  by_cases hchar : column.type = .CHAR
  · simp only [Schema.fixed_size_of, hchar, Except.ok.injEq] at hn
    subst hn
    unfold check_size at hc
    rw [hnull, if_neg Bool.false_ne_true, if_pos (Or.inl hchar)] at hc
    obtain ⟨size, hs, hc⟩ := bind_ok hc
    rw [h.serialized_size] at hs
    cases hs
    split at hc
    · cases hc
    · rename_i hle
      exact Nat.le_of_not_lt fun hlt => hle ⟨hchar, hlt⟩
  · exact (h.fills ht hchar hf hn).le

theorem serialize_column_piece {out out' : List UInt8} {column : Column} {v : Value}
    (ht : Typed v column) (h : serialize_column out column v = .ok out') :
    ∃ piece, out' = out ++ piece ∧ Piece column v piece := by
  unfold serialize_column at h
  obtain ⟨_, hc, h⟩ := bind_ok h
  split at h
  · rename_i hf
    obtain ⟨n, hn, h⟩ := bind_ok h
    obtain ⟨written, hw, h⟩ := bind_ok h
    cases h
    by_cases hnull : v.is_null = true
    · rw [if_pos hnull] at hw
      cases hw
      refine ⟨[] ++ List.replicate (n.toNat - [].length) 0, by simp,
        .fixed hf hn (payload_null hnull) (Nat.zero_le _)⟩
    · rw [if_neg hnull] at hw
      obtain ⟨p, rfl, he⟩ := encoded_of_serialize_to hw
      have hlen := he.length_le ht hc (Bool.not_eq_true _ ▸ hnull) hf hn
      exact ⟨p ++ List.replicate (n.toNat - p.length) 0, by simp,
        .fixed hf hn (payload_encoded hnull he) hlen⟩
  · rename_i hf
    rw [Bool.not_eq_true] at hf
    obtain ⟨len, hl, h⟩ := bind_ok h
    by_cases hnull : v.is_null = true
    · rw [if_pos hnull] at hl h
      cases hl
      cases h
      exact ⟨_, by simp, .varlen (p := []) hf (payload_null hnull)⟩
    · rw [if_neg hnull] at hl h
      obtain ⟨p, rfl, he⟩ := encoded_of_serialize_to h
      rw [he.serialized_size] at hl
      cases hl
      exact ⟨_, List.append_assoc .., .varlen hf (payload_encoded hnull he)⟩

/-- The pieces of a row, column after column. -/
inductive Pieces : List Column → List Value → List (List UInt8) → Prop
  | nil : Pieces [] [] []
  | cons {column : Column} {v : Value} {p : List UInt8} {columns : List Column}
      {values : List Value} {ps : List (List UInt8)} :
      Piece column v p → Typed v column → Pieces columns values ps →
      Pieces (column :: columns) (v :: values) (p :: ps)

/-- The first columns give the first pieces. -/
theorem serialize_columns_pieces {out out' : List UInt8} {columns : List Column}
    {values : List Value} (ht : List.Forall₂ Typed values columns)
    (h : serialize_columns out columns values = .ok out') :
    ∃ ps, out' = out ++ ps.flatten ∧ Pieces columns values ps ∧ ∀ i,
      serialize_columns out (columns.take i) (values.take i) = .ok (out ++ (ps.take i).flatten) := by
  induction ht generalizing out with
  | nil =>
    cases h
    exact ⟨[], by simp, .nil, fun i => by simp [serialize_columns]⟩
  | cons ht _ ih =>
    unfold serialize_columns at h
    obtain ⟨out2, hp, h⟩ := bind_ok h
    obtain ⟨p, rfl, hpiece⟩ := serialize_column_piece ht hp
    obtain ⟨ps, rfl, hps, htake⟩ := ih h
    refine ⟨p :: ps, by simp, .cons hpiece ht hps, fun i => ?_⟩
    cases i with
    | zero => simp [serialize_columns]
    | succ i =>
      rw [List.take_succ_cons, List.take_succ_cons, List.take_succ_cons, serialize_columns, hp]
      refine (htake i).trans ?_
      rw [List.flatten_cons, List.append_assoc]

/-- A column of a row has its value and its piece. -/
theorem Pieces.get {columns : List Column} {values : List Value} {ps : List (List UInt8)}
    (h : Pieces columns values ps) {i : Nat} {column : Column} (hi : columns[i]? = some column) :
    ∃ v p, values[i]? = some v ∧ ps[i]? = some p ∧ Piece column v p ∧ Typed v column := by
  induction h generalizing i with
  | nil => cases hi
  | cons hp ht _ ih =>
    cases i with
    | zero =>
      obtain rfl := Option.some.inj hi
      exact ⟨_, _, rfl, rfl, hp, ht⟩
    | succ i => exact ih hi

/-! ## The places of the columns -/

theorem subspan_at {raw : List UInt8} (before p after : List UInt8) {k n : Nat}
    (h : raw = before ++ (p ++ after)) (hk : before.length = k) (hn : p.length = n) : subspan raw k n = .ok p := by
  subst h hk hn
  unfold subspan
  rw [slice_at]

/-- A length that was written is the length that is read. -/
theorem read_length_at {raw before p after : List UInt8} {k : UInt16}
    (h : raw = before ++ ((leBytes 2 (UInt16.ofNat p.length).toNat ++ p) ++ after))
    (hk : before.length = k.toNat) : read_length raw k = .ok (UInt16.ofNat p.length) := by
  have hlen : (UInt16.ofNat p.length).toNat < 256 ^ 2 := (UInt16.ofNat p.length).toNat_lt
  have hat : subspan raw k.toNat 2 = .ok (leBytes 2 (UInt16.ofNat p.length).toNat) :=
    subspan_at before _ (p ++ after) (by rw [h, List.append_assoc]) hk (length_leBytes 2 _)
  unfold read_length
  rw [hat, Except.map, ofLeBytes_leBytes 2 _ hlen, UInt16.ofNat_toNat]

/-- No CHAR column is empty, so a column has a size exactly when its size is fixed. -/
def CharsHaveLength (schema : Schema) : Prop :=
  ∀ column ∈ schema.columns, column.type = .CHAR → 1 ≤ column.length

theorem fixed_size_pos {column : Column} (hc : column.type = .CHAR → 1 ≤ column.length)
    {n : UInt16} (hn : Schema.fixed_size_of column = .ok n) :
    (n > 0) = (column.is_fixed_size = true) := by
  obtain ⟨name, type, length⟩ := column
  cases type with
  | other => cases hn
  | CHAR =>
    cases hn
    have h1 := hc rfl
    have h0 : length > 0 := by
      rw [gt_iff_lt, UInt16.lt_iff_toNat_lt]
      rw [UInt16.le_iff_toNat_le] at h1
      exact h1
    simp [Column.is_fixed_size, h0]
  | INT64 | UINT64 | INT32 | UINT32 | FLOAT | DOUBLE | BOOL | VARCHAR | VARBINARY =>
    cases hn
    simp [Column.is_fixed_size]

theorem Typed.fixed_size {v : Value} {column : Column} (h : Typed v column) :
    ∃ n, Schema.fixed_size_of column = .ok n := by
  obtain ⟨name, type, length⟩ := column
  cases type with
  | other => cases h
  | INT64 | UINT64 | INT32 | UINT32 | FLOAT | DOUBLE | BOOL | CHAR | VARCHAR | VARBINARY =>
    exact ⟨_, rfl⟩

/-- The decoder comes to the places where the encoder put the columns. -/
theorem compute_offsets_from_pieces {columns : List Column} {values : List Value}
    {ps : List (List UInt8)} (h : Pieces columns values ps) {raw : List UInt8}
    (before : List UInt8) (hraw : raw = before ++ ps.flatten) (hlen : raw.length < 65536)
    (hc : ∀ column ∈ columns, column.type = .CHAR → 1 ≤ column.length) :
    compute_offsets_from raw before.length columns =
      .ok ((starts before.length ps).map UInt16.ofNat) := by
  induction h generalizing before with
  | nil => rfl
  | @cons column v p columns values ps hp ht _ ih =>
    obtain ⟨n, hn⟩ := ht.fixed_size
    have hpos := fixed_size_pos (hc _ List.mem_cons_self) hn
    rw [List.flatten_cons] at hraw
    have hrest := ih (before ++ p) (by rw [hraw, List.append_assoc])
      fun c hm => hc c (List.mem_cons_of_mem _ hm)
    rw [List.length_append] at hrest
    -- the size that the decoder takes for the piece is its length
    have hsize : (if n > 0 then Except.ok n.toNat
        else (read_length raw (UInt16.ofNat before.length)).map fun len => len.toNat + 2) =
        .ok p.length := by
      have hle := congrArg List.length hraw
      simp only [List.length_append] at hle
      cases hp with
      | fixed hf hn' _ hpad =>
        rw [if_pos (hpos ▸ hf)]
        rw [hn] at hn'
        cases hn'
        simp
        omega
      | varlen hf _ =>
        rename_i p
        rw [if_neg (by rw [hpos, hf]; exact Bool.false_ne_true), read_length_at hraw (by
          rw [UInt16.toNat_ofNat']; omega)]
        simp only [List.length_append, length_leBytes] at hle
        simp only [Except.map, List.length_append, length_leBytes, UInt16.toNat_ofNat']
        congr 1
        omega
    rw [compute_offsets_from, hn]
    show (_ >>= _) = _
    rw [starts, List.map_cons]
    simp only [bind, Except.bind, hsize, hrest]

/-! ## The bitmap -/

@[simp] theorem length_set_nulls (out : List UInt8) (i : Nat) (values : List Value) :
    (set_nulls out i values).length = out.length := by
  induction values generalizing out i with
  | nil => rfl
  | cons v values ih =>
    rw [set_nulls, ih]
    split
    · exact length_setBit out i
    · rfl

theorem bit_set_nulls {out : List UInt8} {i : Nat} {values : List Value} {j : Nat} :
    bit (set_nulls out i values) j =
      (bit out j).map (· || decide (i ≤ j) && values[j - i]?.any (·.is_null)) := by
  induction values generalizing out i with
  | nil => simp [set_nulls]
  | cons v values ih =>
    have hstep : bit (if v.is_null then NullBitmap.set_null out i else out) j =
        (bit out j).map (· || (v.is_null && j == i)) := by
      split
      · rename_i hnull
        rw [NullBitmap.set_null, bit_setBit, hnull, Bool.true_and]
      · rename_i hnull
        rw [Bool.not_eq_true] at hnull
        simp [hnull]
    rw [set_nulls, ih, hstep, Option.map_map]
    refine congrArg (fun f => Option.map f (bit out j)) (funext fun b => ?_)
    rw [Function.comp_apply, Bool.or_assoc]
    refine congrArg (b || ·) ?_
    rcases Nat.lt_trichotomy j i with h | rfl | h
    · have h1 : ¬ i + 1 ≤ j := by omega
      have h2 : ¬ i ≤ j := by omega
      have h3 : (j == i) = false := beq_eq_false_iff_ne.mpr (by omega)
      simp [h1, h2, h3]
    · have h1 : ¬ j + 1 ≤ j := by omega
      simp [h1]
    · have h1 : i + 1 ≤ j := by omega
      have h2 : i ≤ j := by omega
      have h3 : (j == i) = false := beq_eq_false_iff_ne.mpr (by omega)
      obtain ⟨k, hk⟩ : ∃ k, j - i = k + 1 := ⟨j - i - 1, by omega⟩
      have h4 : j - (i + 1) = k := by omega
      simp [h1, h2, h3, hk, h4]

/-- The bitmap says which values are NULL, whatever comes after it. -/
theorem is_null_of_set_nulls {values : List Value} {i : Nat} {v : Value} (after : List UInt8)
    (h : values[i]? = some v) :
    NullBitmap.is_null (set_nulls (List.replicate (NullBitmap.size values.length) 0) 0 values ++
      after) i = .ok v.is_null := by
  obtain ⟨hi, _⟩ := List.getElem?_eq_some_iff.mp h
  have hbyte : i / 8 < NullBitmap.size values.length := by
    unfold NullBitmap.size
    omega
  have hbit : bit (set_nulls (List.replicate (NullBitmap.size values.length) 0) 0 values ++ after)
      i = some v.is_null := by
    rw [bit_append _ _ (by simpa using hbyte), bit_set_nulls, bit_replicate_zero hbyte]
    simp [h]
  unfold NullBitmap.is_null
  rw [hbit]

/-! ## The values of the columns -/

theorem rdropWhile_padded {s : List UInt8} (k : Nat) (h : s.getLast? ≠ some 0) :
    (s ++ List.replicate k 0).rdropWhile (· == 0) = s := by
  induction k with
  | zero =>
    rw [List.replicate_zero, List.append_nil, List.rdropWhile_eq_self_iff]
    intro hl heq
    rw [List.getLast?_eq_some_getLast hl] at h
    exact h (congrArg some (beq_iff_eq.mp heq))
  | succ k ih =>
    rw [List.replicate_succ', ← List.append_assoc, List.rdropWhile_concat_pos _ _ _ (by simp), ih]

theorem read_number_leBytes (w n : Nat) (h : n < 256 ^ w) :
    read_number (leBytes w n) w = .ok n := by
  have hat : subspan (leBytes w n) 0 w = .ok (leBytes w n) :=
    subspan_at [] (leBytes w n) [] (by simp) rfl (length_leBytes w n)
  unfold read_number
  rw [hat, Except.map, ofLeBytes_leBytes w n h]

theorem read_number_64 (n : UInt64) : read_number (leBytes 8 n.toNat) 8 = .ok n.toNat :=
  read_number_leBytes 8 _ n.toNat_lt

theorem read_number_32 (n : UInt32) : read_number (leBytes 4 n.toNat) 4 = .ok n.toNat :=
  read_number_leBytes 4 _ n.toNat_lt

/-- The value of a CHAR column does not end in a NUL byte. -/
def NoTrailingNul (column : Column) (v : Value) : Prop :=
  column.type = .CHAR → v.is_null = false → ∀ s, v.data = .string s → s.getLast? ≠ some 0

/-- The bytes of a value, with the padding of a CHAR, are read as the value. -/
theorem value_of_encoded {column : Column} {v : Value} {p : List UInt8} {k : Nat}
    (h : Encoded v.type v.data p) (ht : Typed v column) (hnull : v.is_null = false)
    (hnul : NoTrailingNul column v) (hk : column.type ≠ .CHAR → k = 0) :
    value_of column.type (p ++ List.replicate k 0) = .ok v := by
  obtain ⟨name, type, length⟩ := column
  obtain ⟨vtype, null, data⟩ := v
  simp only at hnull
  subst hnull
  cases type with
  | other => cases ht
  | CHAR =>
    obtain rfl := Except.ok.inj ht
    cases h
    rw [value_of, rdropWhile_padded k (hnul rfl rfl p rfl)]
    rfl
  | VARCHAR | VARBINARY =>
    obtain rfl := hk (by simp)
    obtain rfl := Except.ok.inj ht
    cases h
    rw [List.replicate_zero, List.append_nil]
    rfl
  | INT64 | UINT64 | DOUBLE =>
    obtain rfl := hk (by simp)
    obtain rfl := Except.ok.inj ht
    cases h
    rw [List.replicate_zero, List.append_nil, value_of, read_number_64]
    simp [Value.of, Except.map]
  | INT32 | UINT32 | FLOAT =>
    obtain rfl := hk (by simp)
    obtain rfl := Except.ok.inj ht
    cases h
    rw [List.replicate_zero, List.append_nil, value_of, read_number_32]
    simp [Value.of, Except.map]
  | BOOL =>
    obtain rfl := hk (by simp)
    obtain rfl := Except.ok.inj ht
    cases h with
    | bool b => cases b <;> rfl

/-- What a value is in bytes: a NULL keeps its type only. -/
def Value.decoded (v : Value) : Value := if v.is_null then .null v.type else v

theorem Value.decoded_beq (v : Value) : (v.decoded == v) = true := by
  unfold decoded
  by_cases h : v.is_null = true
  · rw [if_pos h]
    simp [BEq.beq, Value.null, h]
  · rw [if_neg h]
    simp [BEq.beq, h]

section
variable {schema : Schema} {values : List Value} {ps : List (List UInt8)} {bitmap raw : List UInt8}

/-- The decoder of one column reads the piece of that column. -/
theorem deserialize_value_piece (h : Pieces schema.columns values ps)
    (hraw : raw = bitmap ++ ps.flatten) (hlen : raw.length < 65536) {i : Nat} {v : Value}
    (hv : values[i]? = some v) (hnull : NullBitmap.is_null raw i = .ok v.is_null)
    (hnul : ∀ column, schema.columns[i]? = some column → NoTrailingNul column v)
    {column : Column} (hi : schema.columns[i]? = some column) :
    deserialize_value schema raw ((starts bitmap.length ps).map UInt16.ofNat) i =
      .ok v.decoded := by
  obtain ⟨v', piece, hv', hpiece, hp, ht⟩ := h.get hi
  obtain rfl : v = v' := Option.some.inj (hv.symm.trans hv')
  have hraw' : raw = (bitmap ++ (ps.take i).flatten) ++ (piece ++ (ps.drop (i + 1)).flatten) := by
    rw [hraw, split_at_piece hpiece, List.append_assoc]
  have hoff : ((starts bitmap.length ps).map UInt16.ofNat)[i]? =
      some (UInt16.ofNat (bitmap ++ (ps.take i).flatten).length) := by
    rw [List.getElem?_map, getElem?_starts hpiece, List.length_append]
    rfl
  obtain ⟨n, hn⟩ := ht.fixed_size
  unfold deserialize_value
  rw [hi, hoff]
  simp only [hnull]
  show (if v.is_null = true then _ else _) = _
  by_cases hnull' : v.is_null = true
  · rw [if_pos hnull', Value.decoded, if_pos hnull', ht]
    rfl
  · rw [if_neg hnull', Value.decoded, if_neg hnull', hn]
    rw [Bool.not_eq_true] at hnull'
    generalize bitmap ++ (ps.take i).flatten = before at hraw'
    have hle := congrArg List.length hraw'
    simp only [List.length_append] at hle
    have hbefore : (UInt16.ofNat before.length).toNat = before.length := by
      rw [UInt16.toNat_ofNat']
      omega
    cases hp with
    | @fixed n' p hf hn' hp hpad =>
      rw [hn] at hn'
      cases hn'
      rw [Payload, if_neg (by rw [hnull']; exact Bool.false_ne_true)] at hp
      have hspan : subspan raw (UInt16.ofNat before.length).toNat n.toNat =
          .ok (p ++ List.replicate (n.toNat - p.length) 0) := by
        apply subspan_at _ _ _ hraw' hbefore.symm
        simp
        omega
      have hval := value_of_encoded hp ht hnull' (hnul _ hi) (k := n.toNat - p.length) fun hc => by
        have := hp.fills ht hc hf hn
        omega
      simp only [bind, Except.bind, hf, if_true, hspan, hval]
    | @varlen p hf hp =>
      rw [Payload, if_neg (by rw [hnull']; exact Bool.false_ne_true)] at hp
      simp only [List.length_append, length_leBytes] at hle
      have hp16 : (UInt16.ofNat p.length).toNat = p.length := by
        rw [UInt16.toNat_ofNat']
        omega
      have hread := read_length_at hraw' hbefore.symm
      have hspan : subspan raw (UInt16.ofNat before.length + 2).toNat
          (UInt16.ofNat p.length).toNat = .ok p := by
        apply subspan_at (before ++ leBytes 2 (UInt16.ofNat p.length).toNat) p (ps.drop (i + 1)).flatten
        · rw [hraw']
          simp
        · rw [UInt16.toNat_add, hbefore, List.length_append, length_leBytes]
          show _ = (before.length + 2) % 65536
          omega
        · exact hp16.symm
      have hval := value_of_encoded hp ht hnull' (hnul _ hi) (k := 0) fun _ => rfl
      rw [List.replicate_zero, List.append_nil] at hval
      simp only [bind, Except.bind, hf, Bool.false_eq_true, if_false, hread, Except.map, hspan,
        hval]

end

/-! ## The law -/

section
variable {schema : Schema} {tuple : Tuple schema}

theorem values_of_make {values : List Value} (h : Tuple.make values schema = .ok tuple) :
    tuple.values = values := by
  unfold Tuple.make at h
  split at h
  · split at h
    · cases h
      rfl
    · cases h
  · cases h

/-- The bytes of a tuple are its bitmap and the pieces of its columns. -/
theorem serialize_pieces {bytes : List UInt8} (h : tuple.serialize = .ok bytes) :
    ∃ ps, bytes = set_nulls (List.replicate (NullBitmap.size tuple.values.length) 0) 0 tuple.values ++
        ps.flatten ∧ Pieces schema.columns tuple.values ps := by
  obtain ⟨ps, hbytes, hps, -⟩ := serialize_columns_pieces tuple.typed h
  rw [Schema.column_count, ← tuple.typed.length_eq] at hbytes
  exact ⟨ps, hbytes, hps⟩

/-- The bytes of a tuple that fit on a page are decoded to its values. -/
theorem of_raw_of_serialize {bytes : List UInt8} (hchar : CharsHaveLength schema)
    (hnul : List.Forall₂ NoTrailingNul schema.columns tuple.values)
    (hs : tuple.serialize = .ok bytes) (hlen : bytes.length ≤ 8180) :
    ∃ restored, Tuple.of_raw bytes schema = .ok restored ∧
      restored.values = tuple.values.map Value.decoded := by
  obtain ⟨ps, hbytes, hps⟩ := serialize_pieces hs
  have hcount := tuple.typed.length_eq
  have hoffsets := compute_offsets_from_pieces hps _ hbytes (by omega) hchar
  rw [length_set_nulls, List.length_replicate] at hoffsets
  -- one column after the other
  have hvalues : List.Forall₂ (fun i v => deserialize_value schema bytes
      ((starts (NullBitmap.size tuple.values.length) ps).map UInt16.ofNat) i = .ok v)
      (List.range schema.column_count) (tuple.values.map Value.decoded) := by
    refine List.forall₂_iff_get.mpr ⟨?_, fun i hi hi' => ?_⟩
    · rw [List.length_range, List.length_map, Schema.column_count, hcount]
    simp only [List.get_eq_getElem, List.getElem_range, List.getElem_map]
    rw [List.length_range, Schema.column_count] at hi
    have hi2 : i < tuple.values.length := by omega
    have hv : tuple.values[i]? = some tuple.values[i] := List.getElem?_eq_getElem hi2
    have hnull := is_null_of_set_nulls ps.flatten hv
    rw [← hbytes] at hnull
    have hpiece := deserialize_value_piece hps hbytes (by omega) hv hnull (fun column hc => by
      obtain ⟨_, rfl⟩ := List.getElem?_eq_some_iff.mp hc
      exact List.forall₂_iff_get.mp hnul |>.2 i _ hi2) (List.getElem?_eq_getElem hi)
    rwa [length_set_nulls, List.length_replicate] at hpiece
  have hread : deserialize schema bytes = .ok (tuple.values.map Value.decoded) := by
    unfold deserialize compute_offsets
    rw [Schema.column_count, ← hcount, hoffsets]
    rw [Schema.column_count, ← hcount] at hvalues
    exact mapM_ok.mpr hvalues
  refine ⟨⟨_, deserialize_typed hread⟩, ?_, rfl⟩
  unfold Tuple.of_raw
  split
  · rename_i read hr
    rw [hread] at hr
    cases hr
    rfl
  · rename_i e he
    rw [hread] at he
    cases he

/-- The decode of a tuple whose bytes fit on a page reads only inside of them, and gives the
values that were encoded, where a NULL is equal to a NULL of its type. -/
theorem a_tuple_that_fits_decodes_to_its_values {values : List Value} {bytes : List UInt8}
    (hmake : Tuple.make values schema = .ok tuple) (hchar : CharsHaveLength schema)
    (hnul : List.Forall₂ NoTrailingNul schema.columns values)
    (hs : tuple.serialize = .ok bytes) (hlen : bytes.length ≤ 8180) :
    ∃ restored, Tuple.of_raw bytes schema = .ok restored ∧
      List.Forall₂ (fun v w => (v == w) = true) restored.values values := by
  obtain rfl := values_of_make hmake
  obtain ⟨restored, hread, hvalues⟩ := of_raw_of_serialize hchar hnul hs hlen
  refine ⟨restored, hread, ?_⟩
  rw [hvalues, List.forall₂_map_left_iff, List.forall₂_same]
  exact fun v _ => v.decoded_beq

end

/-- An id, a name of at most ten bytes, and a note. -/
def three_columns : Schema :=
  ⟨[⟨[105], .INT32, 0⟩, ⟨[110], .CHAR, 10⟩, ⟨[116], .VARCHAR, 100⟩]⟩

def one_row : List Value := [.of (.int32 (-7)), .of (.string [97, 98]), .null .STRING]

/-- The name is padded, and the note is NULL. -/
theorem a_tuple_with_a_null_decodes_to_its_values :
    ∃ bytes restored, bytes.length = 17 ∧ Tuple.of_raw bytes three_columns = .ok restored ∧
      List.Forall₂ (fun v w => (v == w) = true) restored.values one_row := by
  have htyped : List.Forall₂ Typed one_row three_columns.columns := by
    refine .cons ?_ (.cons ?_ (.cons ?_ .nil)) <;> rfl
  have hchar : CharsHaveLength three_columns := by
    unfold CharsHaveLength
    decide
  have hnul : List.Forall₂ NoTrailingNul three_columns.columns one_row := by
    refine .cons ?_ (.cons ?_ (.cons ?_ .nil))
    · rintro ⟨⟩
    · rintro _ _ s hs
      cases hs
      decide
    · rintro ⟨⟩
  have hmake : Tuple.make one_row three_columns = .ok ⟨one_row, htyped⟩ := rfl
  obtain ⟨bytes, hs, hlen⟩ : ∃ bytes, Tuple.serialize ⟨one_row, htyped⟩ = .ok bytes ∧
      bytes.length = 17 := ⟨_, rfl, rfl⟩
  obtain ⟨restored, hread, hsame⟩ :=
    a_tuple_that_fits_decodes_to_its_values hmake hchar hnul hs (by omega)
  exact ⟨bytes, restored, hlen, hread, hsame⟩

end duck.tuple
