-- Expressions over the values of a record: columns, constants, comparisons and
-- the logical operators.
import DuckDbms.Lib.BinaryFloat
import DuckDbms.Catalog

open binary_float

open duck.tuple duck.catalog

namespace duck.execution

/-! ## The contents of a value -/

def as_int64 (v : Value) : Except Failure Int64 :=
  if v.is_null then .error (.thrown "Value::as_int64: tried to read null value")
  else
    match v.data with
    | .int64 n => .ok n
    | _ => .error Value.bad_variant_access

def as_uint64 (v : Value) : Except Failure UInt64 :=
  if v.is_null then .error (.thrown "Value::as_uint64: tried to read null value")
  else
    match v.data with
    | .uint64 n => .ok n
    | _ => .error Value.bad_variant_access

def as_int32 (v : Value) : Except Failure Int32 :=
  if v.is_null then .error (.thrown "Value::as_int32: tried to read null value")
  else
    match v.data with
    | .int32 n => .ok n
    | _ => .error Value.bad_variant_access

/-- Of the four integer types all but UINT64. -/
def as_integral (v : Value) : Except Failure Int64 :=
  match v.type with
  | .INT32 => (as_int32 v).map Int32.toInt64
  | .UINT32 => (as_uint32 v).map fun n => n.toUInt64.toInt64
  | .INT64 => as_int64 v
  | _ => .error (.thrown "Value::as_integral: is not a non-uint64 integral")

/-- The bits of a double. -/
def as_double (v : Value) : Except Failure UInt64 :=
  if v.is_null then .error (.thrown "Value::as_double: tried to read null value")
  else
    match v.data with
    | .double bits => .ok bits
    | _ => .error Value.bad_variant_access

/-- The bits of a float. -/
def as_float (v : Value) : Except Failure UInt32 :=
  if v.is_null then .error (.thrown "Value::as_float: tried to read null value")
  else
    match v.data with
    | .float bits => .ok bits
    | _ => .error Value.bad_variant_access

def as_bool (v : Value) : Except Failure Bool :=
  if v.is_null then .error (.thrown "Value::as_bool: tried to read null value")
  else
    match v.data with
    | .bool b => .ok b
    | _ => .error Value.bad_variant_access

def is_integral (v : Value) : Bool :=
  v.type = .INT32 || v.type = .INT64 || v.type = .UINT32 || v.type = .UINT64

def is_floating (v : Value) : Bool := v.type = .FLOAT || v.type = .DOUBLE

def is_numeric (v : Value) : Bool := is_integral v || is_floating v

/-! ## Records -/

structure Record where
  values : List Value

namespace Record

variable (record : Record)

def get (index : Nat) : Except Failure Value :=
  match record.values[index]? with
  | some v => .ok v
  | none => .error (.thrown "vector::_M_range_check")

def size : Nat := record.values.length

end Record

/-! ## Comparisons -/

inductive ComparisonOperator
  | GREATER
  | LESS
  | GREATER_EQ
  | LESS_EQ
  | EQUAL
  | NOT_EQ
  deriving DecidableEq

inductive CompareResult
  | LESS
  | EQ
  | GREATER
  | UNKNOWN
  deriving DecidableEq

section compare_generic

variable {T : Type} [LT T] [DecidableLT T]

def compare_generic (left right : T) : CompareResult :=
  if left < right then .LESS
  else if right < left then .GREATER
  else .EQ

end compare_generic

/-- The double of a floating value. Every float is a double. -/
def floating_double (v : Value) : Except Failure Number :=
  if v.type = .FLOAT then (as_float v).map fun bits => single.decode bits.toNat
  else (as_double v).map fun bits => double.decode bits.toNat

/-- The double of an integral value. The conditional has one arm of type `std::uint64_t`, so
its other arm becomes a `std::uint64_t` as well, before the cast. -/
def integral_double (v : Value) : Except Failure Number := do
  let n ← (if v.type = .UINT64 then as_uint64 v else (as_integral v).map Int64.toUInt64)
  .ok (.finite (nearest 53 n.toNat))

/-- The comparison of two doubles, unless one of them is a NaN. -/
def compare_doubles (l_val r_val : Number) : CompareResult :=
  if l_val = .nan ∨ r_val = .nan then .UNKNOWN else compare_generic l_val r_val

/-- The largest `std::int64_t`. -/
def int64_max : UInt64 := 9223372036854775807

/-- `ComparisonExpression::compare`. -/
def compare (left right : Value) : Except Failure CompareResult :=
  if left.is_null || right.is_null then .ok .UNKNOWN
  else if is_floating left && is_floating right then do
    let l_val ← floating_double left
    let r_val ← floating_double right
    .ok (compare_doubles l_val r_val)
  else if is_floating left && is_numeric right then do
    let l_val ← floating_double left
    let r_val ← integral_double right
    .ok (compare_doubles l_val r_val)
  else if is_numeric left && is_floating right then do
    let l_val ← integral_double left
    let r_val ← floating_double right
    .ok (compare_doubles l_val r_val)
  else if is_integral left && is_integral right then
    if left.type = .UINT64 ∧ right.type = .UINT64 then do
      let l_val ← as_uint64 left
      let r_val ← as_uint64 right
      .ok (compare_generic l_val r_val)
    else if left.type = .UINT64 then do
      let l_val ← as_uint64 left
      if l_val > int64_max then .ok .GREATER
      else
        let r_val ← as_integral right
        .ok (compare_generic l_val.toInt64 r_val)
    else if right.type = .UINT64 then do
      let r_val ← as_uint64 right
      if r_val > int64_max then .ok .LESS
      else
        let l_val ← as_integral left
        .ok (compare_generic l_val r_val.toInt64)
    else do
      let l_val ← as_integral left
      let r_val ← as_integral right
      .ok (compare_generic l_val r_val)
  else if left.type = .BOOL ∧ right.type = .BOOL then do
    let l_val ← as_bool left
    let r_val ← as_bool right
    .ok (compare_generic l_val r_val)
  else if left.type = .STRING ∧ right.type = .STRING then do
    let l_val ← as_string left
    let r_val ← as_string right
    .ok (compare_generic l_val r_val)
  else if left.type = .BYTES ∧ right.type = .BYTES then do
    let l_val ← as_bytes left
    let r_val ← as_bytes right
    .ok (compare_generic l_val r_val)
  else .ok .UNKNOWN

/-- The switch of `ComparisonExpression::evaluate`. -/
def ComparisonOperator.holds (op : ComparisonOperator) (cmp : CompareResult) : Bool :=
  match op with
  | .EQUAL => cmp = .EQ
  | .NOT_EQ => cmp ≠ .EQ
  | .GREATER => cmp = .GREATER
  | .LESS => cmp = .LESS
  | .GREATER_EQ => cmp = .GREATER || cmp = .EQ
  | .LESS_EQ => cmp = .LESS || cmp = .EQ

/-! ## Expressions -/

inductive BinaryOperator
  | AND
  | OR
  deriving DecidableEq

inductive UnaryOperator
  | NOT
  deriving DecidableEq

/-- The classes that are an `Expression`. -/
inductive Expression
  | column (index : Nat)
  | constant (value : Value)
  | comparison (left : Expression) (op : ComparisonOperator) (right : Expression)
  | binary (left : Expression) (op : BinaryOperator) (right : Expression)
  | unary (expr : Expression) (op : UnaryOperator)

/-- `ComparisonExpression::evaluate`, from the values of its operands. -/
def evaluate_comparison (op : ComparisonOperator) (left right : Value) : Except Failure Value := do
  let cmp ← compare left right
  if cmp = .UNKNOWN then .ok (.null .BOOL) else .ok (.of (.bool (op.holds cmp)))

/-- A value that is not NULL, and that holds `b`. -/
def reads (v : Value) (b : Bool) : Except Failure Bool :=
  if v.is_null then .ok false else (as_bool v).map (· == b)

/-- One case of the switch of `BinaryExpression::evaluate`: the operand `b` decides, and
without one NULL is stronger than the other. -/
def evaluate_case (b : Bool) (left right : Value) : Except Failure Value := do
  if ← reads left b then .ok (.of (.bool b))
  else if ← reads right b then .ok (.of (.bool b))
  else if left.is_null || right.is_null then .ok (.null .BOOL)
  else .ok (.of (.bool !b))

/-- `BinaryExpression::evaluate`, from the values of its operands. -/
def evaluate_binary (op : BinaryOperator) (left right : Value) : Except Failure Value :=
  if left.is_null && right.is_null then .ok (.null .BOOL)
  else if left.type ≠ .BOOL ∨ right.type ≠ .BOOL then
    .error (.thrown "BinaryExpression expects boolean operands")
  else
    match op with
    | .AND => evaluate_case false left right
    | .OR => evaluate_case true left right

/-- `UnaryExpression::evaluate`, from the value of its operand. -/
def evaluate_unary (op : UnaryOperator) (value : Value) : Except Failure Value :=
  if value.is_null then .ok (.null .BOOL)
  else if value.type ≠ .BOOL then .error (.thrown "UnaryExpression expects boolean operand")
  else
    match op with
    | .NOT => (as_bool value).map fun b => .of (.bool !b)

/-- `Expression::evaluate`. -/
def Expression.evaluate (record : Record) : Expression → Except Failure Value
  | .column index => record.get index
  | .constant value => .ok value
  | .comparison left_expr op right_expr => do
    let left ← left_expr.evaluate record
    let right ← right_expr.evaluate record
    evaluate_comparison op left right
  | .binary left_expr op right_expr => do
    let left ← left_expr.evaluate record
    let right ← right_expr.evaluate record
    evaluate_binary op left right
  | .unary expr op => do
    let value ← expr.evaluate record
    evaluate_unary op value

end duck.execution
