-- Where the encoder of a tuple puts its columns, and where the decoder looks for
-- them; and which values the encoder refuses.
import DuckDbms.TupleLaws

open layout

namespace duck.tuple

/-! ## The places of the encoder -/

section
variable {schema : Schema} (tuple : Tuple schema)

/-- The bytes that `serialize` has emitted before column `i`. -/
def emitted (i : Nat) : Except Failure (List UInt8) :=
  let out := List.replicate (NullBitmap.size schema.column_count) 0
  serialize_columns (set_nulls out 0 tuple.values) (schema.columns.take i) (tuple.values.take i)

/-- A length prefix was written at this place. -/
def PrefixAt (place : Nat) : Prop :=
  ∃ k column out, schema.columns[k]? = some column ∧ column.is_fixed_size = false ∧
    emitted tuple k = .ok out ∧ out.length = place

/-- The decoder finds each column where the encoder has put it, and reads no length where the
encoder has written none. It reads one for each column that has no size. -/
def LayoutsAgree (bytes : List UInt8) : Prop :=
  ∃ offsets, compute_offsets schema bytes = .ok offsets ∧
    ∀ i column, schema.columns[i]? = some column → ∃ offset out, offsets[i]? = some offset ∧
      emitted tuple i = .ok out ∧ offset.toNat = out.length ∧
      (Schema.fixed_size_of column = .ok 0 → PrefixAt tuple offset.toNat)

end

/-- What the decoder goes on by after a column without a size. -/
theorem compute_offsets_from_next {raw : List UInt8} {columns : List Column} {offset : Nat}
    {offsets : List UInt16} (h : compute_offsets_from raw offset columns = .ok offsets) {j : Nat}
    {column : Column} {o : UInt16} (hc : columns[j]? = some column)
    (hsize : Schema.fixed_size_of column = .ok 0) (ho : offsets[j]? = some o)
    (hnext : j + 1 < columns.length) :
    ∃ len, read_length raw o = .ok len ∧ offsets[j + 1]? = some (o + (len + 2)) := by
  induction columns generalizing offset offsets j with
  | nil => cases hc
  | cons c columns ih =>
    rw [compute_offsets_from] at h
    obtain ⟨fixed, hfixed, h⟩ := bind_ok h
    obtain ⟨size, hread, h⟩ := bind_ok h
    obtain ⟨rest, hrest, h⟩ := bind_ok h
    cases h
    cases j with
    | succ j =>
      rw [List.getElem?_cons_succ] at hc ho
      rw [List.length_cons] at hnext
      obtain ⟨len, hlen, hoff⟩ := ih hrest hc ho (by omega)
      exact ⟨len, hlen, hoff⟩
    | zero =>
      cases hc
      cases ho
      rw [hsize] at hfixed
      cases hfixed
      rw [if_neg (by decide)] at hread
      obtain ⟨len, hlen, rfl⟩ := map_ok hread
      refine ⟨len, hlen, ?_⟩
      -- the next column starts where this one ends
      cases columns with
      | nil => simp at hnext
      | cons c' columns =>
        rw [compute_offsets_from] at hrest
        obtain ⟨_, _, hrest⟩ := bind_ok hrest
        obtain ⟨_, _, hrest⟩ := bind_ok hrest
        obtain ⟨_, _, hrest⟩ := bind_ok hrest
        cases hrest
        rw [List.getElem?_cons_succ, List.getElem?_cons_zero, UInt16.ofNat_add, UInt16.ofNat_add,
          UInt16.ofNat_toNat]
        rfl

section
variable {schema : Schema} {tuple : Tuple schema} {bytes : List UInt8}

theorem emitted_pieces (hs : tuple.serialize = .ok bytes) :
    ∃ before ps, bytes = before ++ ps.flatten ∧
      before.length = NullBitmap.size schema.column_count ∧
      Pieces schema.columns tuple.values ps ∧
      ∀ i, emitted tuple i = .ok (before ++ (ps.take i).flatten) := by
  obtain ⟨ps, hbytes, hps, htake⟩ := serialize_columns_pieces tuple.typed hs
  exact ⟨_, ps, hbytes, by simp, hps, htake⟩

/-- The encoder emits its columns one after the other. -/
theorem length_take_flatten_le {α : Type} (ps : List (List α)) {i j : Nat} (h : i ≤ j) :
    (ps.take i).flatten.length ≤ (ps.take j).flatten.length := by
  obtain ⟨k, rfl⟩ := Nat.exists_eq_add_of_le h
  rw [List.take_add, List.flatten_append, List.length_append]
  exact Nat.le_add_right _ _

theorem length_take_succ {α : Type} {ps : List (List α)} {i : Nat} {p : List α}
    (h : ps[i]? = some p) :
    (ps.take (i + 1)).flatten.length = (ps.take i).flatten.length + p.length := by
  rw [List.take_add_one, h, List.flatten_append, List.length_append]
  simp

theorem layoutsAgree_of_chars (hs : tuple.serialize = .ok bytes) (hlen : bytes.length < 65536)
    (hc : CharsHaveLength schema) : LayoutsAgree tuple bytes := by
  obtain ⟨before, ps, hbytes, hbefore, hps, hemitted⟩ := emitted_pieces hs
  have hoffsets := compute_offsets_from_pieces hps before hbytes hlen hc
  rw [hbefore] at hoffsets
  refine ⟨_, hoffsets, fun i column hi => ?_⟩
  obtain ⟨v, p, _, hp, _, _⟩ := hps.get hi
  have hle : (before ++ (ps.take i).flatten).length ≤ bytes.length := by
    rw [hbytes, List.length_append, List.length_append, split_at_piece hp]
    simp
  have hplace : (UInt16.ofNat (NullBitmap.size schema.column_count
      + (ps.take i).flatten.length)).toNat = (before ++ (ps.take i).flatten).length := by
    rw [List.length_append] at hle
    rw [UInt16.toNat_ofNat', List.length_append, ← hbefore]
    exact Nat.mod_eq_of_lt (by omega)
  refine ⟨_, _, ?_, hemitted i, hplace, fun hsize => ?_⟩
  · rw [List.getElem?_map, getElem?_starts hp]
    rfl
  · refine ⟨i, column, _, hi, ?_, hemitted i, hplace.symm⟩
    have hpos := fixed_size_pos (hc column (List.mem_of_getElem? hi)) hsize
    rw [Bool.eq_false_iff]
    intro hfixed
    rw [hfixed] at hpos
    exact absurd (hpos.symm ▸ rfl : (0 : UInt16) > 0) (by decide)

/-- The piece of a column without a size is its length and its value. -/
theorem varlen_piece {column : Column} {v : Value} {q : List UInt8} (h : Piece column v q)
    (hvar : column.is_fixed_size = false) :
    ∃ p, q = leBytes 2 (UInt16.ofNat p.length).toNat ++ p ∧ Payload v p := by
  cases h with
  | fixed hf => exact absurd (hf.symm.trans hvar) nofun
  | varlen _ hp => exact ⟨_, rfl, hp⟩

/-- A column that starts where a length was written is before the column of that length. -/
theorem before_of_same_place {ps : List (List UInt8)} {j k : Nat} {p : List UInt8} (hne : k ≠ j)
    (hk : ps[k]? = some (leBytes 2 (UInt16.ofNat p.length).toNat ++ p))
    (hsame : (ps.take k).flatten.length = (ps.take j).flatten.length) :
    j < k ∧ (ps.take (j + 1)).flatten.length = (ps.take j).flatten.length := by
  have hnext := length_take_succ hk
  rw [List.length_append, length_leBytes] at hnext
  rcases Nat.lt_or_gt_of_ne hne with hlt | hgt
  · have := length_take_flatten_le ps (show k + 1 ≤ j from hlt)
    omega
  · have := length_take_flatten_le ps (show j ≤ j + 1 by omega)
    have := length_take_flatten_le ps (show j + 1 ≤ k from hgt)
    omega

theorem char_of_no_length {column : Column} (hchar : column.type = .CHAR)
    (h : ¬ 1 ≤ column.length) : Schema.fixed_size_of column = .ok 0 := by
  have hlength : column.length = 0 := by
    rw [UInt16.le_iff_toNat_le] at h
    change ¬ 1 ≤ column.length.toNat at h
    refine UInt16.toNat_inj.mp ?_
    show column.length.toNat = 0
    omega
  unfold Schema.fixed_size_of
  rw [hchar, hlength]

/-- A CHAR of length zero is emitted with no bytes, and the decoder takes the bytes there for a
length. If a later column has put its length there, the column after the CHAR is not found. -/
theorem chars_of_layoutsAgree (hs : tuple.serialize = .ok bytes) (hlen : bytes.length ≤ 8180)
    (h : LayoutsAgree tuple bytes) : CharsHaveLength schema := by
  obtain ⟨before, ps, hbytes, _, hps, hemitted⟩ := emitted_pieces hs
  obtain ⟨offsets, hoffsets, hagree⟩ := h
  intro column hmem hchar
  by_contra hzero
  have hsize := char_of_no_length hchar hzero
  obtain ⟨j, hj⟩ := List.getElem?_of_mem hmem
  obtain ⟨o, out, ho, hout, hplace, hprefix⟩ := hagree j column hj
  obtain ⟨k, column', out', hk, hvar, hout', hplace'⟩ := hprefix hsize
  rw [hemitted] at hout hout'
  cases hout
  cases hout'
  obtain ⟨v, q, _, hq, hpiece, _⟩ := hps.get hk
  obtain ⟨p, rfl, _⟩ := varlen_piece hpiece hvar
  have hsame : (ps.take k).flatten.length = (ps.take j).flatten.length := by
    rw [hplace, List.length_append, List.length_append] at hplace'
    omega
  have hne : k ≠ j := by
    rintro rfl
    rw [hj] at hk
    cases hk
    unfold Column.is_fixed_size at hvar
    simp [hchar] at hvar
  obtain ⟨hjk, hempty⟩ := before_of_same_place hne hq hsame
  -- the length that the decoder reads is that of the later column
  have hp : bytes = (before ++ (ps.take k).flatten) ++
      ((leBytes 2 (UInt16.ofNat p.length).toNat ++ p) ++ (ps.drop (k + 1)).flatten) := by
    rw [hbytes, split_at_piece hq]
    exact (List.append_assoc ..).symm
  have hread : read_length bytes o = .ok (UInt16.ofNat p.length) := by
    refine read_length_at hp ?_
    rw [hplace, List.length_append, List.length_append, hsame]
  have hfits := congrArg List.length hp
  rw [List.length_append, List.length_append, List.length_append, List.length_append,
    length_leBytes, hsame] at hfits
  obtain ⟨hklt, _⟩ := List.getElem?_eq_some_iff.mp hk
  obtain ⟨len, hlen', ho'⟩ := compute_offsets_from_next hoffsets hj hsize ho (by omega)
  rw [hread] at hlen'
  cases hlen'
  -- and the column after the CHAR starts where the CHAR does
  obtain ⟨o', out', ho'', hout', hplace', _⟩ := hagree (j + 1) _
    (List.getElem?_eq_getElem (show j + 1 < schema.columns.length by omega))
  rw [ho'] at ho''
  cases ho''
  rw [hemitted] at hout'
  cases hout'
  rw [List.length_append] at hplace hplace'
  rw [UInt16.toNat_add, UInt16.toNat_add, UInt16.toNat_ofNat', hplace, hempty] at hplace'
  change (_ + (p.length % 65536 + 2) % 65536) % 65536 = _ at hplace'
  omega

/-- The encoder and the decoder agree on where the columns of a row on a page are, if and only if
every CHAR column has a length. -/
theorem layouts_agree_when_chars_have_length (hs : tuple.serialize = .ok bytes)
    (hlen : bytes.length ≤ 8180) : LayoutsAgree tuple bytes ↔ CharsHaveLength schema :=
  ⟨chars_of_layoutsAgree hs hlen, layoutsAgree_of_chars hs (by omega)⟩

end

theorem a_padded_name_is_found : ∃ bytes, bytes.length = 17 ∧
    LayoutsAgree (⟨one_row, .cons rfl (.cons rfl (.cons rfl .nil))⟩ : Tuple three_columns) bytes := by
  refine ⟨_, ?_, (layouts_agree_when_chars_have_length rfl ?_).mpr ?_⟩
  · rfl
  · decide
  · unfold CharsHaveLength
    decide

/-- A name of no bytes, and a number. -/
def empty_name : Schema := ⟨[⟨[110], .CHAR, 0⟩, ⟨[105], .INT32, 0⟩]⟩

/-- The decoder takes the number for the length of the name, and looks for the number behind it. -/
theorem the_column_after_an_empty_char_is_not_found :
    ∃ tuple : Tuple empty_name, Tuple.make [.of (.string []), .of (.int32 7)] empty_name = .ok tuple ∧
      tuple.serialize = .ok [0, 7, 0, 0, 0] ∧
      compute_offsets empty_name [0, 7, 0, 0, 0] = .ok [1, 10] ∧
      ¬ LayoutsAgree tuple [0, 7, 0, 0, 0] := by
  have htyped : List.Forall₂ Typed [.of (.string []), .of (.int32 7)] empty_name.columns :=
    .cons rfl (.cons rfl .nil)
  refine ⟨⟨_, htyped⟩, rfl, rfl, rfl, ?_⟩
  rintro ⟨offsets, hoffsets, hagree⟩
  have htwo : offsets = [1, 10] := (Except.ok.inj (hoffsets.symm.trans rfl))
  obtain ⟨offset, out, hoffset, hout, hplace, _⟩ := hagree 1 _ rfl
  rw [htwo] at hoffset
  cases hoffset
  have hone : out = [0] := Except.ok.inj (hout.symm.trans rfl)
  rw [hone] at hplace
  cases hplace

/-! ## The values that are refused -/

/-- So many bytes are more than the column takes. -/
def over_limit (column : Column) (size : Nat) : Prop :=
  match column.type with
  | .CHAR => column.length.toNat < size
  | .VARCHAR | .VARBINARY => (0 < column.length ∧ column.length.toNat < size) ∨ 65535 < size
  | _ => False

/-- The bytes of the value are over the limit of its column. -/
def Breaks (column : Column) (v : Value) : Prop :=
  v.is_null = false ∧ ∃ p, Encoded v.type v.data p ∧ over_limit column p.length

/-- What the value holds is not of its type, which the constructor of a value does not check. -/
def Malformed (v : Value) : Prop := v.is_null = false ∧ ∀ p, ¬ Encoded v.type v.data p

/-- The encoder checks the limits of CHAR and VARCHAR columns only. -/
def Refused (column : Column) (v : Value) : Prop :=
  Malformed v ∨ (column.type ≠ .VARBINARY ∧ Breaks column v)

def Throws {α : Type} (x : Except Failure α) : Prop := ∃ what, x = .error (.thrown what)

section
variable {column : Column} {v : Value}

theorem serialize_to_of_encoded {p : List UInt8} (h : Encoded v.type v.data p) (out : List UInt8) :
    v.serialize_to out = .ok (out ++ p) := by
  obtain ⟨type, null, data⟩ := v
  cases h <;> rfl

theorem serialize_to_of_malformed (h : ∀ p, ¬ Encoded v.type v.data p) (out : List UInt8) :
    v.serialize_to out = .error Value.bad_variant_access := by
  unfold Value.serialize_to
  split
  case h_10 => rfl
  all_goals
    rename_i ht hd
    rw [ht, hd] at h
    exact absurd (by constructor) (h _)

theorem serialized_size_of_malformed (h : ∀ p, ¬ Encoded v.type v.data p)
    (ht : v.type = .STRING ∨ v.type = .BYTES) :
    v.serialized_size = .error Value.bad_variant_access := by
  obtain ⟨type, null, data⟩ := v
  rcases ht with rfl | rfl
  · cases data with
    | string s => exact absurd (.string s) (h s)
    | _ => rfl
  · cases data with
    | bytes b => exact absurd (.bytes b) (h b)
    | _ => rfl

/-- The type of what a column without a fixed size holds. -/
theorem Typed.varlen (ht : Typed v column) (hf : column.is_fixed_size = false) :
    v.type = .STRING ∨ v.type = .BYTES := by
  obtain ⟨name, type, length⟩ := column
  cases type with
  | VARCHAR => exact .inl (Except.ok.inj ht).symm
  | VARBINARY => exact .inr (Except.ok.inj ht).symm
  | other => cases ht
  | _ => cases hf

theorem Typed.text (ht : Typed v column) (hc : column.type = .CHAR ∨ column.type = .VARCHAR) :
    v.type = .STRING := by
  unfold Typed at ht
  rcases hc with hc | hc <;>
  · rw [hc] at ht
    exact (Except.ok.inj ht).symm

/-- Of the columns that have a limit only two are checked. -/
theorem check_size_cases (column : Column) {p : List UInt8} (hnull : v.is_null = false)
    (he : Encoded v.type v.data p) :
    (column.type ≠ .VARBINARY ∧ over_limit column p.length ∧ Throws (check_size column v)) ∨
      (¬ (column.type ≠ .VARBINARY ∧ over_limit column p.length) ∧
        check_size column v = .ok ()) := by
  obtain ⟨name, type, length⟩ := column
  cases type with
  | CHAR =>
    have hcheck : check_size ⟨name, .CHAR, length⟩ v = if length.toNat < p.length then
        .error (.thrown "Tuple::serialize: CHAR value exceeds defined size") else .ok () := by
      simp [check_size, hnull, he.serialized_size, bind, Except.bind]
    rw [hcheck]
    split
    · rename_i h
      exact .inl ⟨nofun, h, _, rfl⟩
    · rename_i h
      exact .inr ⟨fun hc => h hc.2, rfl⟩
  | VARCHAR =>
    have hcheck : check_size ⟨name, .VARCHAR, length⟩ v =
        if 0 < length ∧ length.toNat < p.length then
          .error (.thrown "Tuple::serialize: VARCHAR value exceeds defined maximum size")
        else if 65535 < p.length then
          .error (.thrown "Tuple::serialize: VARCHAR value exceeds 65535-byte protocol limit")
        else .ok () := by
      simp [check_size, hnull, he.serialized_size, bind, Except.bind]
    rw [hcheck]
    split
    · rename_i h
      exact .inl ⟨nofun, .inl h, _, rfl⟩
    split
    · rename_i h
      exact .inl ⟨nofun, .inr h, _, rfl⟩
    · rename_i h1 h2
      exact .inr ⟨fun hc => hc.2.elim h1 h2, rfl⟩
  | VARBINARY =>
    refine .inr ⟨fun hc => hc.1 rfl, ?_⟩
    simp [check_size, hnull]
  | _ =>
    refine .inr ⟨fun hc => hc.2, ?_⟩
    simp [check_size, hnull]

theorem serialize_column_malformed (ht : Typed v column) (h : Malformed v) (out : List UInt8) :
    Throws (serialize_column out column v) := by
  obtain ⟨hnull, hdata⟩ := h
  refine ⟨"std::get: wrong index for variant", ?_⟩
  unfold serialize_column check_size
  rw [hnull, if_neg Bool.false_ne_true]
  by_cases hc : column.type = .CHAR ∨ column.type = .VARCHAR
  · rw [if_pos hc, serialized_size_of_malformed hdata (.inl (ht.text hc))]
    rfl
  rw [if_neg hc]
  cases hf : column.is_fixed_size with
  | true =>
    obtain ⟨n, hn⟩ := ht.fixed_size
    rw [hn, if_neg Bool.false_ne_true, serialize_to_of_malformed hdata]
    rfl
  | false =>
    rw [if_neg Bool.false_ne_true, serialized_size_of_malformed hdata (ht.varlen hf)]
    rfl

theorem serialize_column_checked (ht : Typed v column) (hcheck : check_size column v = .ok ())
    (h : v.is_null = true ∨ ∃ p, Encoded v.type v.data p) (out : List UInt8) :
    ∃ out', serialize_column out column v = .ok out' := by
  unfold serialize_column
  rw [hcheck]
  obtain ⟨n, hn⟩ := ht.fixed_size
  rcases h with hnull | ⟨p, he⟩
  · rw [hn, hnull]
    cases column.is_fixed_size <;> exact ⟨_, rfl⟩
  · rw [hn, he.serialized_size]
    simp only [serialize_to_of_encoded he]
    cases column.is_fixed_size <;> cases v.is_null <;> exact ⟨_, rfl⟩

theorem serialize_column_cases (ht : Typed v column) (out : List UInt8) :
    (Refused column v ∧ Throws (serialize_column out column v)) ∨
      (¬ Refused column v ∧ ∃ out', serialize_column out column v = .ok out') := by
  cases hnull : v.is_null with
  | true =>
    refine .inr ⟨?_, serialize_column_checked ht ?_ (.inl hnull) out⟩
    · rintro (h | h)
      · exact absurd (hnull.symm.trans h.1) nofun
      · exact absurd (hnull.symm.trans h.2.1) nofun
    · unfold check_size
      rw [if_pos hnull]
  | false =>
    by_cases he : ∃ p, Encoded v.type v.data p
    swap
    · have hm : Malformed v := ⟨hnull, fun p hp => he ⟨p, hp⟩⟩
      exact .inl ⟨.inl hm, serialize_column_malformed ht hm out⟩
    obtain ⟨p, he⟩ := he
    rcases check_size_cases column hnull he with ⟨hvb, hover, what, hthrow⟩ | ⟨hno, hok⟩
    · refine .inl ⟨.inr ⟨hvb, hnull, p, he, hover⟩, what, ?_⟩
      unfold serialize_column
      rw [hthrow]
      rfl
    · refine .inr ⟨?_, serialize_column_checked ht hok (.inr ⟨p, he⟩) out⟩
      rintro (hm | ⟨hvb, _, q, hq, hover⟩)
      · exact hm.2 p he
      · have hlen := he.serialized_size.symm.trans hq.serialized_size
        rw [← Except.ok.inj hlen] at hover
        exact hno ⟨hvb, hover⟩

end

/-- The encoder throws when it comes to a value that it refuses, and returns without one. -/
theorem serialize_columns_cases {columns : List Column} {values : List Value}
    (ht : List.Forall₂ Typed values columns) (out : List UInt8) :
    ((∃ cv ∈ columns.zip values, Refused cv.1 cv.2) ∧
        Throws (serialize_columns out columns values)) ∨
      ((¬ ∃ cv ∈ columns.zip values, Refused cv.1 cv.2) ∧
        ∃ out', serialize_columns out columns values = .ok out') := by
  induction ht generalizing out with
  | nil => exact .inr ⟨by simp, out, rfl⟩
  | @cons v column values columns ht _ ih =>
    rw [List.zip_cons_cons]
    unfold serialize_columns
    rcases serialize_column_cases ht out with ⟨hr, what, hthrow⟩ | ⟨hr, out', hok⟩
    · refine .inl ⟨⟨(column, v), List.mem_cons_self, hr⟩, what, ?_⟩
      rw [hthrow]
      rfl
    rw [hok]
    rcases ih out' with ⟨⟨cv, hmem, hcv⟩, hthrow⟩ | ⟨hno, hret⟩
    · exact .inl ⟨⟨cv, List.mem_cons_of_mem _ hmem, hcv⟩, hthrow⟩
    · refine .inr ⟨?_, hret⟩
      rintro ⟨cv, hmem, hcv⟩
      rcases List.mem_cons.mp hmem with rfl | hmem
      · exact hr hcv
      · exact hno ⟨cv, hmem, hcv⟩

section
variable {schema : Schema}

/-- Some value of the tuple, in its column. -/
def SomeValue (P : Column → Value → Prop) (tuple : Tuple schema) : Prop :=
  ∃ cv ∈ schema.columns.zip tuple.values, P cv.1 cv.2

/-- Each length that `serialize` has written is that of the value behind it. -/
def PrefixesTrue (tuple : Tuple schema) (bytes : List UInt8) : Prop :=
  ∀ k column v out, schema.columns[k]? = some column → tuple.values[k]? = some v →
    column.is_fixed_size = false → emitted tuple k = .ok out →
    ∃ length_bytes p, subspan bytes out.length 2 = .ok length_bytes ∧
      subspan bytes (out.length + 2) p.length = .ok p ∧ Payload v p ∧
      ofLeBytes length_bytes = p.length

/-- `serialize` throws exactly when some value is over its limit, and writes true lengths when
none is. -/
def LimitsKept (tuple : Tuple schema) : Prop :=
  (Throws tuple.serialize ↔ SomeValue Breaks tuple) ∧
    (¬ SomeValue Breaks tuple → ∃ bytes, tuple.serialize = .ok bytes ∧ PrefixesTrue tuple bytes)

variable {tuple : Tuple schema}

theorem serialize_cases (tuple : Tuple schema) :
    (SomeValue Refused tuple ∧ Throws tuple.serialize) ∨
      (¬ SomeValue Refused tuple ∧ ∃ bytes, tuple.serialize = .ok bytes) :=
  serialize_columns_cases tuple.typed _

theorem not_throws_of_ok {bytes : List UInt8} (h : tuple.serialize = .ok bytes) :
    ¬ Throws tuple.serialize := by
  rintro ⟨what, hw⟩
  rw [h] at hw
  cases hw

theorem throws_iff : Throws tuple.serialize ↔ SomeValue Refused tuple := by
  rcases serialize_cases tuple with ⟨hr, ht⟩ | ⟨hr, bytes, hok⟩
  · exact ⟨fun _ => hr, fun _ => ht⟩
  · exact ⟨fun ht => absurd ht (not_throws_of_ok hok), fun h => absurd h hr⟩

theorem SomeValue.or (tuple : Tuple schema) {P Q : Column → Value → Prop} :
    SomeValue (fun c v => P c v ∨ Q c v) tuple ↔ SomeValue P tuple ∨ SomeValue Q tuple := by
  unfold SomeValue
  constructor
  · rintro ⟨cv, hmem, h | h⟩
    · exact .inl ⟨cv, hmem, h⟩
    · exact .inr ⟨cv, hmem, h⟩
  · rintro (⟨cv, hmem, h⟩ | ⟨cv, hmem, h⟩)
    · exact ⟨cv, hmem, .inl h⟩
    · exact ⟨cv, hmem, .inr h⟩

/-- A value that keeps its limit is no longer than its length can say. -/
theorem length_of_payload {column : Column} {v : Value} {p : List UInt8} (ht : Typed v column)
    (hvar : column.is_fixed_size = false) (hp : Payload v p) (h : ¬ Breaks column v) :
    p.length < 65536 := by
  unfold Payload at hp
  split at hp
  · rw [hp]
    decide
  rename_i hnull
  by_contra hlong
  refine h ⟨Bool.eq_false_iff.mpr hnull, p, hp, ?_⟩
  obtain ⟨name, type, length⟩ := column
  cases type with
  | VARCHAR | VARBINARY => exact .inr (by omega)
  | other => cases ht
  | _ => cases hvar

theorem prefixesTrue_of_limits {bytes : List UInt8} (hs : tuple.serialize = .ok bytes)
    (h : ¬ SomeValue Breaks tuple) : PrefixesTrue tuple bytes := by
  obtain ⟨before, ps, hbytes, _, hps, hemitted⟩ := emitted_pieces hs
  intro k column v out hc hv hvar hout
  rw [hemitted] at hout
  cases hout
  obtain ⟨v', q, hv', hq, hpiece, ht⟩ := hps.get hc
  cases hv.symm.trans hv'
  obtain ⟨p, rfl, hp⟩ := varlen_piece hpiece hvar
  have hzip : (column, v) ∈ schema.columns.zip tuple.values :=
    List.mem_of_getElem? (List.getElem?_zip_eq_some.mpr ⟨hc, hv⟩)
  have hlen := length_of_payload ht hvar hp fun hb => h ⟨_, hzip, hb⟩
  rw [split_at_piece hq, List.append_assoc, ← List.append_assoc before] at hbytes
  refine ⟨_, p, subspan_at _ _ _ hbytes rfl (length_leBytes 2 _), ?_, hp, ?_⟩
  · rw [← List.append_assoc (before ++ _)] at hbytes
    exact subspan_at _ _ _ hbytes (by rw [List.length_append, length_leBytes]) rfl
  · rw [ofLeBytes_leBytes 2 _ (UInt16.ofNat p.length).toNat_lt, UInt16.toNat_ofNat']
    exact Nat.mod_eq_of_lt hlen

/-- The limits are kept if and only if a CHAR or VARCHAR value breaks one, or values of VARBINARY
columns that break theirs come with values that are malformed, and the other way round. -/
theorem limits_are_kept_but_for_binaries (tuple : Tuple schema) :
    LimitsKept tuple ↔
      SomeValue (fun column v => column.type ≠ .VARBINARY ∧ Breaks column v) tuple ∨
      (SomeValue (fun column v => column.type = .VARBINARY ∧ Breaks column v) tuple ↔
        SomeValue (fun _ v => Malformed v) tuple) := by
  have hrefused := SomeValue.or tuple (P := fun _ v => Malformed v)
    (Q := fun column v => column.type ≠ .VARBINARY ∧ Breaks column v)
  change SomeValue Refused tuple ↔ _ at hrefused
  have hbreaks : SomeValue Breaks tuple ↔
      SomeValue (fun column v => column.type ≠ .VARBINARY ∧ Breaks column v) tuple ∨
        SomeValue (fun column v => column.type = .VARBINARY ∧ Breaks column v) tuple := by
    rw [← SomeValue.or]
    refine exists_congr fun cv => and_congr_right fun _ => ?_
    tauto
  unfold LimitsKept
  rw [throws_iff, hrefused, hbreaks]
  constructor
  · rintro ⟨hthrows, -⟩
    tauto
  · intro h
    have hthrows : SomeValue (fun _ v => Malformed v) tuple ∨
        SomeValue (fun column v => column.type ≠ .VARBINARY ∧ Breaks column v) tuple ↔
        SomeValue (fun column v => column.type ≠ .VARBINARY ∧ Breaks column v) tuple ∨
        SomeValue (fun column v => column.type = .VARBINARY ∧ Breaks column v) tuple := by
      tauto
    refine ⟨hthrows, fun hno => ?_⟩
    rcases serialize_cases tuple with ⟨hr, _⟩ | ⟨_, bytes, hok⟩
    · exact absurd (hthrows.mp (hrefused.mp hr)) hno
    · exact ⟨bytes, hok, prefixesTrue_of_limits hok fun hb => hno (hbreaks.mp hb)⟩

end

/-- Bytes, at most two of them. -/
def two_bytes : Schema := ⟨[⟨[98], .VARBINARY, 2⟩]⟩

/-- Three bytes are written to a column of at most two. -/
theorem a_binary_over_its_limit_is_written :
    ∃ tuple : Tuple two_bytes, Tuple.make [.of (.bytes [1, 2, 3])] two_bytes = .ok tuple ∧
      SomeValue Breaks tuple ∧ tuple.serialize = .ok [0, 3, 0, 1, 2, 3] ∧ ¬ LimitsKept tuple := by
  have htyped : List.Forall₂ Typed [.of (.bytes [1, 2, 3])] two_bytes.columns := .cons rfl .nil
  have hbreaks : SomeValue Breaks ⟨_, htyped⟩ :=
    ⟨_, List.mem_cons_self, rfl, _, .bytes _, .inl ⟨by decide, by decide⟩⟩
  have hs : Tuple.serialize ⟨_, htyped⟩ = .ok [0, 3, 0, 1, 2, 3] := rfl
  exact ⟨⟨_, htyped⟩, rfl, hbreaks, hs, fun h => not_throws_of_ok hs (h.1.mpr hbreaks)⟩

end duck.tuple
