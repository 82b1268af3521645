-- The logical operators over comparisons and boolean leaves are the logic of
-- three truth values, and two filters are the filter of a conjunction.
import DuckDbms.Lib.Kleene
import DuckDbms.Comparisons
import DuckDbms.Queries

open pull binary_float

open kleene (Truth)

open duck.tuple

namespace duck.execution

/-! ## The denotation -/

/-- What a value holds is of its type, unless the value is NULL. -/
def WellFormed (v : Value) : Prop := v.is_null = true ∨ v = .of v.data

/-- A value of the type BOOL: TRUE, FALSE or NULL. -/
def Boolean (v : Value) : Prop := v.type = .BOOL ∧ (v.is_null = true ∨ ∃ b, v.data = .bool b)

inductive Kind
  | number
  | boolean
  | string
  | bytes
  deriving DecidableEq

def kind : ValueType → Kind
  | .BOOL => .boolean
  | .STRING => .string
  | .BYTES => .bytes
  | _ => .number

/-- There is an order between the values: none of them is NULL or a NaN, and both are numbers, or
both are of one other type. -/
def Comparable (left right : Value) : Prop :=
  left.is_null = false ∧ right.is_null = false ∧ kind left.type = kind right.type ∧
    floating left.data ≠ some .nan ∧ floating right.data ≠ some .nan

instance (left right : Value) : Decidable (Comparable left right) := by
  unfold Comparable
  infer_instance

/-- The truth of a comparison. -/
def compared (op : ComparisonOperator) (left right : Value) : Truth :=
  if Comparable left right then (compare left right).toOption.map op.holds else none

/-- The truth of a value. -/
def truth (v : Value) : Truth :=
  if v.is_null then none
  else
    match v.data with
    | .bool b => some b
    | _ => none

/-- The value of a truth. -/
def ofTruth : Truth → Value
  | none => .null .BOOL
  | some b => .of (.bool b)

def BinaryOperator.meaning : BinaryOperator → Truth → Truth → Truth
  | .AND => Truth.and
  | .OR => Truth.or

def UnaryOperator.meaning : UnaryOperator → Truth → Truth
  | .NOT => Truth.not

/-- The truth of an expression. What throws has none. -/
def Expression.truth (record : Record) : Expression → Truth
  | .column index => (record.get index).toOption.bind execution.truth
  | .constant value => execution.truth value
  | .comparison left op right => do
    let l ← (left.evaluate record).toOption
    let r ← (right.evaluate record).toOption
    compared op l r
  | .binary left op right => op.meaning (left.truth record) (right.truth record)
  | .unary expr op => op.meaning (expr.truth record)

/-- Logical operators over comparisons whose operands have values, and over leaves that are TRUE,
FALSE or NULL. -/
inductive Logical (record : Record) : Expression → Prop
  | column {index : Nat} {v : Value} : record.get index = .ok v → Boolean v →
      Logical record (.column index)
  | constant {v : Value} : Boolean v → Logical record (.constant v)
  | comparison {left right : Expression} {l r : Value} (op : ComparisonOperator) :
      left.evaluate record = .ok l → right.evaluate record = .ok r → WellFormed l →
      WellFormed r → Logical record (.comparison left op right)
  | binary {left right : Expression} (op : BinaryOperator) : Logical record left →
      Logical record right → Logical record (.binary left op right)
  | unary {expr : Expression} (op : UnaryOperator) : Logical record expr →
      Logical record (.unary expr op)

/-! ## Comparisons -/

theorem compare_generic_known {T : Type} [LT T] [DecidableLT T] (x y : T) :
    compare_generic x y ≠ .UNKNOWN := by
  unfold compare_generic
  split
  · nofun
  · split <;> nofun

theorem ordered_known (p q : ℚ) : ordered p q ≠ .UNKNOWN := by
  rw [← compare_generic_finite]
  exact compare_generic_known _ _

theorem compare_doubles_unknown (x y : Number) :
    compare_doubles x y = .UNKNOWN ↔ x = .nan ∨ y = .nan := by
  unfold compare_doubles
  split
  · rename_i h
    exact ⟨fun _ => h, fun _ => rfl⟩
  · rename_i h
    exact ⟨fun hc => absurd hc (compare_generic_known x y), fun hn => absurd hn h⟩

/-- A number is an integer or a floating number. -/
theorem number_cases {d : value_variant} (h : kind (Value.of d).type = .number) :
    (∃ n, integer d = some n ∧ floating d = none) ∨ ∃ x, floating d = some x ∧ integer d = none := by
  cases d with
  | bool | string | bytes => cases h
  | uint64 | int64 | uint32 | int32 => exact .inl ⟨_, rfl, rfl⟩
  | double | float => exact .inr ⟨_, rfl, rfl⟩

theorem of_not_null (d : value_variant) : (Value.of d).is_null = false := by
  cases d <;> rfl

theorem of_data (d : value_variant) : (Value.of d).data = d := by
  cases d <;> rfl

theorem compare_floats {f g : value_variant} {x y : Number} (hf : floating f = some x)
    (hg : floating g = some y) : compare (.of f) (.of g) = .ok (compare_doubles x y) := by
  obtain ⟨hf1, hf2⟩ := is_floating_of hf
  obtain ⟨hg1, hg2⟩ := is_floating_of hg
  unfold compare
  simp only [hf1, hf2, hg1, hg2, floating_double_of hf, floating_double_of hg]
  rfl

theorem compare_numbers {d e : value_variant} (hd : kind (Value.of d).type = .number)
    (he : kind (Value.of e).type = .number) : ∃ cmp, compare (.of d) (.of e) = .ok cmp ∧
      (cmp = .UNKNOWN ↔ floating d = some .nan ∨ floating e = some .nan) := by
  rcases number_cases hd with ⟨n, hn, hnf⟩ | ⟨x, hx, -⟩ <;>
    rcases number_cases he with ⟨m, hm, hmf⟩ | ⟨y, hy, -⟩
  · refine ⟨_, compare_integers hn hm, fun h => absurd h (ordered_known _ _), ?_⟩
    rw [hnf, hmf]
    rintro (h | h) <;> cases h
  · refine ⟨_, (compare_integer_float hn hy).1, ?_⟩
    rw [compare_doubles_unknown, hnf, hy, Option.some.injEq]
    exact or_congr ⟨nofun, nofun⟩ Iff.rfl
  · refine ⟨_, (compare_integer_float hm hx).2, ?_⟩
    rw [compare_doubles_unknown, hmf, hx, Option.some.injEq]
    exact or_congr Iff.rfl ⟨nofun, nofun⟩
  · refine ⟨_, compare_floats hx hy, ?_⟩
    rw [compare_doubles_unknown, hx, hy, Option.some.injEq, Option.some.injEq]

/-- A comparison of values that are well formed has a result, and it is UNKNOWN where there is no
order between them. -/
theorem compare_cases {left right : Value} (hl : WellFormed left)
    (hr : WellFormed right) :
    ∃ cmp, compare left right = .ok cmp ∧ (cmp = .UNKNOWN ↔ ¬ Comparable left right) := by
  by_cases hnull : left.is_null = true ∨ right.is_null = true
  · refine ⟨.UNKNOWN, ?_, fun _ h => ?_, fun _ => rfl⟩
    · unfold compare
      rw [if_pos (Bool.or_eq_true_iff.mpr hnull)]
    · rcases hnull with hn | hn
      · exact absurd (h.1.symm.trans hn) nofun
      · exact absurd (h.2.1.symm.trans hn) nofun
  rw [not_or] at hnull
  rw [hl.resolve_left hnull.1, hr.resolve_left hnull.2]
  generalize left.data = d
  generalize right.data = e
  have hcomparable : Comparable (.of d) (.of e) ↔ kind (Value.of d).type = kind (Value.of e).type ∧
      floating d ≠ some .nan ∧ floating e ≠ some .nan := by
    unfold Comparable
    rw [of_not_null, of_not_null, of_data, of_data]
    exact ⟨fun h => h.2.2, fun h => ⟨rfl, rfl, h⟩⟩
  rw [hcomparable]
  by_cases hnum : kind (Value.of d).type = .number ∧ kind (Value.of e).type = .number
  · obtain ⟨cmp, hcmp, hunknown⟩ := compare_numbers hnum.1 hnum.2
    refine ⟨cmp, hcmp, ?_⟩
    rw [hunknown, hnum.1, hnum.2]
    tauto
  -- the other types are compared among themselves only
  cases d with
  | bool b =>
    cases e with
    | bool c => exact ⟨_, rfl, fun h => absurd h (compare_generic_known b c), fun h => absurd ⟨rfl, nofun, nofun⟩ h⟩
    | _ => exact ⟨.UNKNOWN, rfl, fun _ h => absurd h.1 nofun, fun _ => rfl⟩
  | string b =>
    cases e with
    | string c => exact ⟨_, rfl, fun h => absurd h (compare_generic_known b c), fun h => absurd ⟨rfl, nofun, nofun⟩ h⟩
    | _ => exact ⟨.UNKNOWN, rfl, fun _ h => absurd h.1 nofun, fun _ => rfl⟩
  | bytes b =>
    cases e with
    | bytes c => exact ⟨_, rfl, fun h => absurd h (compare_generic_known b c), fun h => absurd ⟨rfl, nofun, nofun⟩ h⟩
    | _ => exact ⟨.UNKNOWN, rfl, fun _ h => absurd h.1 nofun, fun _ => rfl⟩
  | _ =>
    cases e with
    | bool | string | bytes => exact ⟨.UNKNOWN, rfl, fun _ h => absurd h.1 nofun, fun _ => rfl⟩
    | _ => exact absurd ⟨rfl, rfl⟩ hnum

theorem evaluate_comparison_eq {left right : Value} (op : ComparisonOperator)
    (hl : WellFormed left) (hr : WellFormed right) :
    evaluate_comparison op left right = .ok (ofTruth (compared op left right)) := by
  obtain ⟨cmp, hcmp, hunknown⟩ := compare_cases hl hr
  unfold evaluate_comparison compared
  rw [hcmp]
  by_cases hc : Comparable left right
  · have hknown : cmp ≠ .UNKNOWN := fun h => hunknown.mp h hc
    rw [if_pos hc]
    show (if cmp = .UNKNOWN then _ else _) = _
    rw [if_neg hknown]
    rfl
  · rw [if_neg hc, hunknown.mpr hc]
    rfl

/-! ## The logical operators -/

/-- TRUE and FALSE are two values, and NULL may hold anything. -/
theorem Boolean.cases {v : Value} (h : Boolean v) :
    (v.is_null = true ∧ v.type = .BOOL ∧ truth v = none) ∨
      ∃ b, v = .of (.bool b) ∧ truth v = some b := by
  obtain ⟨htype, hdata⟩ := h
  rcases v with ⟨type, is_null, data⟩
  cases htype
  cases is_null with
  | true => exact .inl ⟨rfl, rfl, rfl⟩
  | false =>
    obtain ⟨b, hb⟩ := hdata.resolve_left nofun
    cases hb
    exact .inr ⟨b, rfl, rfl⟩

theorem boolean_ofTruth (t : Truth) : Boolean (ofTruth t) := by
  cases t with
  | none => exact ⟨rfl, .inl rfl⟩
  | some b => exact ⟨rfl, .inr ⟨b, rfl⟩⟩

theorem truth_ofTruth (t : Truth) : truth (ofTruth t) = t := by
  cases t <;> rfl

/-- `operator==` finds a boolean value equal to that of its truth. -/
theorem Boolean.beq_ofTruth {v : Value} (h : Boolean v) : (v == ofTruth (truth v)) = true := by
  rcases h.cases with ⟨hnull, htype, htruth⟩ | ⟨b, rfl, htruth⟩
  · rw [htruth]
    rcases v with ⟨type, is_null, data⟩
    cases hnull
    cases htype
    rfl
  · rw [htruth]
    cases b <;> rfl

theorem evaluate_binary_eq (op : BinaryOperator) {left right : Value} (hl : Boolean left)
    (hr : Boolean right) :
    evaluate_binary op left right = .ok (ofTruth (op.meaning (truth left) (truth right))) := by
  unfold evaluate_binary evaluate_case reads
  rcases hl.cases with ⟨hnl, htl, htruthl⟩ | ⟨b, rfl, htruthl⟩ <;>
    rcases hr.cases with ⟨hnr, htr, htruthr⟩ | ⟨c, rfl, htruthr⟩ <;>
      rw [htruthl, htruthr]
  · simp only [hnl, hnr, Bool.and_self, if_true]
    cases op <;> rfl
  · simp only [hnl, htl]
    cases op <;> cases c <;> rfl
  · simp only [hnr, htr]
    cases op <;> cases b <;> rfl
  · cases op <;> cases b <;> cases c <;> rfl

theorem evaluate_unary_eq (op : UnaryOperator) {v : Value} (h : Boolean v) :
    evaluate_unary op v = .ok (ofTruth (op.meaning (truth v))) := by
  unfold evaluate_unary
  rcases h.cases with ⟨hnull, _, htruth⟩ | ⟨b, rfl, htruth⟩
  · rw [htruth, if_pos hnull]
    cases op
    rfl
  · rw [htruth]
    cases op
    rfl

/-! ## Trees of logical operators -/

/-- The expression has a boolean value, and that has its truth. -/
def HasTruth (record : Record) (p : Expression) : Prop :=
  ∃ v, p.evaluate record = .ok v ∧ Boolean v ∧ truth v = p.truth record

section
variable {record : Record} {p q : Expression}

theorem hasTruth_of_eq (h : p.evaluate record = .ok (ofTruth (p.truth record))) :
    HasTruth record p :=
  ⟨_, h, boolean_ofTruth _, truth_ofTruth _⟩

theorem HasTruth.binary_eq (op : BinaryOperator) (hp : HasTruth record p)
    (hq : HasTruth record q) : (Expression.binary p op q).evaluate record
      = .ok (ofTruth (op.meaning (p.truth record) (q.truth record))) := by
  obtain ⟨l, hl, hbl, htl⟩ := hp
  obtain ⟨r, hr, hbr, htr⟩ := hq
  unfold Expression.evaluate
  rw [hl, hr, ← htl, ← htr]
  exact evaluate_binary_eq op hbl hbr

theorem HasTruth.unary_eq (op : UnaryOperator) (hp : HasTruth record p) :
    (Expression.unary p op).evaluate record = .ok (ofTruth (op.meaning (p.truth record))) := by
  obtain ⟨v, hv, hb, ht⟩ := hp
  unfold Expression.evaluate
  rw [hv, ← ht]
  exact evaluate_unary_eq op hb

theorem HasTruth.binary (op : BinaryOperator) (hp : HasTruth record p) (hq : HasTruth record q) :
    HasTruth record (.binary p op q) :=
  hasTruth_of_eq (hp.binary_eq op hq)

theorem HasTruth.unary (op : UnaryOperator) (hp : HasTruth record p) :
    HasTruth record (.unary p op) :=
  hasTruth_of_eq (hp.unary_eq op)

/-- By induction on the tree. -/
theorem Logical.hasTruth (h : Logical record p) : HasTruth record p := by
  induction h with
  | column hget hv =>
    refine ⟨_, hget, hv, ?_⟩
    unfold Expression.truth
    rw [hget]
    rfl
  | constant hv => exact ⟨_, rfl, hv, rfl⟩
  | comparison op hl hr hwl hwr =>
    refine hasTruth_of_eq ?_
    unfold Expression.evaluate Expression.truth
    rw [hl, hr]
    exact evaluate_comparison_eq op hwl hwr
  | binary op _ _ ihl ihr => exact ihl.binary op ihr
  | unary op _ ih => exact ih.unary op

/-- The comparison that holds where this one does not. -/
def ComparisonOperator.complement : ComparisonOperator → ComparisonOperator
  | .GREATER => .LESS_EQ
  | .LESS => .GREATER_EQ
  | .GREATER_EQ => .LESS
  | .LESS_EQ => .GREATER
  | .EQUAL => .NOT_EQ
  | .NOT_EQ => .EQUAL

/-- This needs nothing of the operands: where one side throws, the other does. -/
theorem evaluate_not_comparison (record : Record) (left right : Expression)
    (op : ComparisonOperator) :
    (Expression.unary (.comparison left op right) .NOT).evaluate record
      = (Expression.comparison left op.complement right).evaluate record := by
  simp only [Expression.evaluate]
  rcases left.evaluate record with e | l
  · rfl
  rcases right.evaluate record with e | r
  · rfl
  show (do let v ← evaluate_comparison op l r; evaluate_unary .NOT v)
    = evaluate_comparison op.complement l r
  unfold evaluate_comparison
  rcases compare l r with e | cmp
  · rfl
  cases cmp <;> cases op <;> rfl

theorem HasTruth.not_and (hp : HasTruth record p) (hq : HasTruth record q) :
    (Expression.unary (.binary p .AND q) .NOT).evaluate record
      = (Expression.binary (.unary p .NOT) .OR (.unary q .NOT)).evaluate record := by
  rw [(hp.binary .AND hq).unary_eq, (hp.unary .NOT).binary_eq .OR (hq.unary .NOT)]
  exact congrArg (fun t => Except.ok (ofTruth t)) (Truth.not_and _ _)

theorem HasTruth.not_or (hp : HasTruth record p) (hq : HasTruth record q) :
    (Expression.unary (.binary p .OR q) .NOT).evaluate record
      = (Expression.binary (.unary p .NOT) .AND (.unary q .NOT)).evaluate record := by
  rw [(hp.binary .OR hq).unary_eq, (hp.unary .NOT).binary_eq .AND (hq.unary .NOT)]
  exact congrArg (fun t => Except.ok (ofTruth t)) (Truth.not_or _ _)

/-! ## Filters -/

/-- A filter keeps the records for which its comparator is true. -/
theorem HasTruth.keeps (h : HasTruth record p) :
    keeps p record = some (.ok (p.truth record = some true)) := by
  obtain ⟨v, hv, hb, ht⟩ := h
  unfold execution.keeps
  rw [hv]
  simp only
  rw [if_neg (not_not.mpr hb.1), ← ht]
  unfold reads
  rcases hb.cases with ⟨hnull, _, htruth⟩ | ⟨b, rfl, htruth⟩
  · rw [if_pos hnull, htruth]
    rfl
  · rw [htruth]
    cases b <;> rfl

theorem HasTruth.keeps_and (hp : HasTruth record p) (hq : HasTruth record q) :
    execution.keeps (.binary p .AND q) record
      = some (.ok (p.truth record = some true && q.truth record = some true)) := by
  rw [(hp.binary .AND hq).keeps]
  refine congrArg (fun b => some (Except.ok b)) ?_
  rw [← Bool.decide_and]
  exact decide_eq_decide.mpr (Truth.and_eq_true _ _)

end

/-- More fuel for the loops changes no result. -/
theorem Operator.steady (op : Operator) : Steady fun fuel => op.next fuel := by
  induction op with
  | seq_scan table =>
    intro n m s r _ h
    exact h
  | filter child comparator ih => exact ih.filterLoop
  | projection child columns ih => exact ih.mapPull

/-- What `next` returns, with the fuel that its loops need. -/
def Operator.NextReturns (op : Operator) :
    ScanState → Except Failure (Option Record) × ScanState → Prop :=
  Returns fun fuel => op.next fuel

theorem filter_returns (child : Operator) (comparator : Expression) :
    (Operator.filter child comparator).NextReturns
      = Filtered child.NextReturns (keeps comparator) := by
  funext s r
  exact propext (returns_filterLoop child.steady)

/-- A filter over a filter is the filter of the conjunction. -/
theorem filter_filter {child : Operator} {p q : Expression}
    (h : ∀ s record s', child.NextReturns s (.ok (some record), s') →
      HasTruth record p ∧ HasTruth record q) :
    (Operator.filter (.filter child q) p).NextReturns
      = (Operator.filter child (.binary q .AND p)).NextReturns := by
  rw [filter_returns, filter_returns, filter_returns]
  funext s r
  refine propext (filtered_twice fun s record s' hnext => ?_)
  obtain ⟨hp, hq⟩ := h s record s' hnext
  exact ⟨_, _, hq.keeps, hp.keeps, hq.keeps_and hp⟩

/-! ## The records of a scan -/

theorem value_of_wellFormed {type : TypeId} {value_bytes : List UInt8} {v : Value}
    (h : value_of type value_bytes = .ok v) : WellFormed v := by
  cases type with
  | other => cases h
  | CHAR | VARCHAR | VARBINARY =>
    cases h
    exact .inr rfl
  | INT64 | UINT64 | INT32 | UINT32 | FLOAT | DOUBLE | BOOL =>
    obtain ⟨n, _, rfl⟩ := map_ok h
    exact .inr rfl

theorem deserialize_value_wellFormed {schema : Schema} {raw : List UInt8} {offsets : List UInt16}
    {i : Nat} {v : Value} (h : deserialize_value schema raw offsets i = .ok v) : WellFormed v := by
  unfold deserialize_value at h
  split at h
  · obtain ⟨null, _, h⟩ := bind_ok h
    split at h
    · obtain ⟨type, _, rfl⟩ := map_ok h
      exact .inl rfl
    · obtain ⟨fixed, _, h⟩ := bind_ok h
      obtain ⟨place, _, h⟩ := bind_ok h
      obtain ⟨value_bytes, _, h⟩ := bind_ok h
      exact value_of_wellFormed h
  · cases h

theorem of_raw_wellFormed {schema : Schema} {raw : List UInt8} {tuple : Tuple schema}
    (h : Tuple.of_raw raw schema = .ok tuple) : ∀ v ∈ tuple.values, WellFormed v := by
  unfold Tuple.of_raw at h
  split at h
  · rename_i values hvalues
    cases h
    unfold deserialize at hvalues
    obtain ⟨offsets, _, hvalues⟩ := bind_ok hvalues
    intro v hv
    obtain ⟨hlen, hget⟩ := List.forall₂_iff_get.mp (mapM_ok.mp hvalues)
    obtain ⟨i, hi, rfl⟩ := List.getElem_of_mem hv
    exact deserialize_value_wellFormed (hget i (hlen ▸ hi) hi)
  · cases h

/-- The values of a record of a scan are those of a row, which has one for each column. -/
theorem scanned_values {table : duck.table.Table} {s s' : ScanState} {record : Record}
    (h : (Operator.seq_scan table).NextReturns s (.ok (some record), s')) :
    record.values.length = table.schema.columns.length ∧ ∀ v ∈ record.values, WellFormed v := by
  obtain ⟨fuel, h⟩ := h
  obtain ⟨⟨rid, tuple⟩, hrow, hrecord⟩ := mapPull_ok h
  cases hrecord
  obtain ⟨⟨rid', raw⟩, _, hread⟩ := mapPull_ok hrow
  obtain ⟨tuple', hraw, heq⟩ := map_ok hread
  cases heq
  exact ⟨tuple.typed.length_eq, of_raw_wellFormed hraw⟩

/-- A column of a scan may be compared with any value. -/
theorem Logical.of_scan {table : duck.table.Table} {s s' : ScanState} {record : Record} {index : Nat}
    {r : Value} (h : (Operator.seq_scan table).NextReturns s (.ok (some record), s'))
    (hindex : index < table.schema.columns.length) (op : ComparisonOperator) (hr : WellFormed r) :
    Logical record (.comparison (.column index) op (.constant r)) := by
  obtain ⟨hlen, hwell⟩ := scanned_values h
  rw [← hlen] at hindex
  refine .comparison op (l := record.values[index]) ?_ rfl (hwell _ (List.getElem_mem hindex)) hr
  show record.get index = _
  unfold Record.get
  rw [List.getElem?_eq_getElem hindex]

/-! ## The laws -/

/-- Logical operators over comparisons whose operands have values, and over boolean leaves that
are there, never throw, and their values have the truths of Kleene's logic. The negation of a
comparison is the complementary comparison, the laws of De Morgan hold, and filtering by `q` and
then by `p` returns what filtering by `q AND p` returns, call by call and record by record. -/
theorem expressions_have_three_truths :
    (∀ record p, Logical record p →
      ∃ v, p.evaluate record = .ok v ∧ (v == ofTruth (p.truth record)) = true) ∧
    (∀ record left op right, (Expression.unary (.comparison left op right) .NOT).evaluate record
      = (Expression.comparison left op.complement right).evaluate record) ∧
    (∀ record p q, Logical record p → Logical record q →
      (Expression.unary (.binary p .AND q) .NOT).evaluate record
          = (Expression.binary (.unary p .NOT) .OR (.unary q .NOT)).evaluate record ∧
        (Expression.unary (.binary p .OR q) .NOT).evaluate record
          = (Expression.binary (.unary p .NOT) .AND (.unary q .NOT)).evaluate record) ∧
    ∀ child p q, (∀ s record s', Operator.NextReturns child s (.ok (some record), s') →
        Logical record p ∧ Logical record q) → ∀ s,
      (∀ r, (Operator.filter (.filter child q) p).NextReturns s r ↔
        (Operator.filter child (.binary q .AND p)).NextReturns s r) ∧
      ∀ records, Drains (Operator.filter (.filter child q) p).NextReturns s records ↔
        Drains (Operator.filter child (.binary q .AND p)).NextReturns s records := by
  refine ⟨?_, ?_, ?_, ?_⟩
  · intro record p h
    obtain ⟨v, hv, hb, ht⟩ := h.hasTruth
    refine ⟨v, hv, ?_⟩
    rw [← ht]
    exact hb.beq_ofTruth
  · intro record left op right
    exact evaluate_not_comparison record left right op
  · intro record p q hp hq
    exact ⟨hp.hasTruth.not_and hq.hasTruth, hp.hasTruth.not_or hq.hasTruth⟩
  · intro child p q h s
    have heq := filter_filter fun s record s' hnext =>
      ⟨(h s record s' hnext).1.hasTruth, (h s record s' hnext).2.hasTruth⟩
    rw [heq]
    exact ⟨fun _ => Iff.rfl, fun _ => Iff.rfl⟩

/-- A NaN compared with a number is unknown, and so is its conjunction with TRUE. -/
def less_than_nan : Expression :=
  .comparison (.column 0) .LESS (.constant (.of (.double 0x7FF8000000000000)))

def at_least_two : Expression :=
  .comparison (.column 0) .GREATER_EQ (.constant (.of (.int32 2)))

/-- The numbers that are at least 2 and less than a NaN. -/
theorem a_comparison_with_a_nan_is_null :
    (∃ v, (Expression.binary less_than_nan .AND (.column 1)).evaluate
        ⟨[.of (.int32 5), .of (.bool true)]⟩ = .ok v ∧ (v == .null .BOOL) = true) ∧
    ∀ s records,
      Drains (Operator.filter (.filter (.seq_scan numbers) at_least_two) less_than_nan).NextReturns
          s records ↔
        Drains (Operator.filter (.seq_scan numbers)
          (.binary at_least_two .AND less_than_nan)).NextReturns s records := by
  obtain ⟨htruth, -, -, hfilters⟩ := expressions_have_three_truths
  have htrue : Boolean (.of (.bool true)) := ⟨rfl, .inr ⟨true, rfl⟩⟩
  refine ⟨?_, fun s => (hfilters _ _ _ (fun _ _ _ h => ⟨?_, ?_⟩) s).2⟩
  · exact htruth _ _ (.binary .AND (.comparison (l := .of (.int32 5))
      (r := .of (.double 0x7FF8000000000000)) .LESS rfl rfl (.inr rfl) (.inr rfl))
      (.column rfl htrue))
  · exact .of_scan h (by decide) .LESS (.inr rfl)
  · exact .of_scan h (by decide) .GREATER_EQ (.inr rfl)

/-- A comparison throws when the record has no such column. -/
theorem a_comparison_past_the_record_throws :
    (Expression.comparison (.column 1) .EQUAL (.constant (.of (.int32 5)))).evaluate
      ⟨[.of (.int32 5)]⟩ = .error (.thrown "vector::_M_range_check") :=
  rfl

end duck.execution
