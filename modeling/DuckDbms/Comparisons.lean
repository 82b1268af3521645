-- A comparison of an integer with a float reads both as numbers, unless the
-- integer is negative: then it compares the float with the integer plus 2^64.
-- Two integers are compared as numbers, whatever their types.
import Mathlib.Algebra.Order.Ring.Rat
import Mathlib.Data.Nat.Cast.Order.Ring
import Mathlib.Algebra.Order.Ring.Int
import Mathlib.Algebra.Order.Ring.Cast
import DuckDbms.Expressions

open binary_float

open duck.tuple

namespace duck.execution

/-! ## What values stand for -/

/-- The integer that a value holds. -/
def integer : value_variant → Option ℤ
  | .int32 n => some n.toInt
  | .uint32 n => some n.toNat
  | .int64 n => some n.toInt
  | .uint64 n => some n.toNat
  | _ => none

/-- The number that a float or a double stands for. -/
def floating : value_variant → Option Number
  | .float bits => some (single.decode bits.toNat)
  | .double bits => some (double.decode bits.toNat)
  | _ => none

/-- The result of a comparison that agrees with the order. -/
def ordered (p q : ℚ) : CompareResult :=
  if p < q then .LESS else if q < p then .GREATER else .EQ

/-! ## What the code compares -/

theorem compare_generic_finite (p q : ℚ) :
    compare_generic (Number.finite p) (Number.finite q) = ordered p q := by
  simp [compare_generic, ordered]

theorem compare_doubles_finite (p q : ℚ) :
    compare_doubles (.finite p) (.finite q) = ordered p q := by
  unfold compare_doubles
  rw [if_neg (by simp), compare_generic_finite]

/-- The cast of a `std::int64_t` to a `std::uint64_t`. -/
theorem toNat_toUInt64 (n : Int64) : (n.toUInt64.toNat : ℤ) = n.toInt % 2 ^ 64 := by
  rw [Int64.toInt, BitVec.toInt_eq_toNat_bmod, Int64.toNat_toBitVec]
  have h := n.toUInt64.toNat_lt
  have hcast : (2 ^ 64 : ℤ) = ((2 ^ 64 : Nat) : ℤ) := (Int.natCast_pow 2 64).symm
  rw [hcast, Int.bmod_emod, Int.emod_eq_of_lt (by omega) (by omega)]

/-- The cast of a `std::uint32_t` to a `std::int64_t` keeps its value. -/
theorem toInt_toInt64 (n : UInt32) : n.toUInt64.toInt64.toInt = n.toNat := by
  have h := n.toNat_lt
  rw [Int64.toInt, UInt64.toBitVec_toInt64, BitVec.toInt_eq_toNat_bmod, UInt64.toNat_toBitVec,
    UInt32.toNat_toUInt64, Int.bmod_eq_emod_of_lt]
  · rw [Int.emod_eq_of_lt (by omega) (by omega)]
  · rw [Int.emod_eq_of_lt (by omega) (by omega)]
    omega

/-- An integer goes to a double by way of the numbers below `2 ^ 64`. -/
theorem integral_double_of {i : value_variant} {n : ℤ} (h : integer i = some n) :
    integral_double (.of i) = .ok (.finite (nearest 53 (n % 2 ^ 64).toNat)) := by
  cases i with
  | uint64 v =>
    cases h
    have hv : ((v.toNat : ℤ) % 2 ^ 64).toNat = v.toNat := by
      have := v.toNat_lt
      omega
    rw [hv]
    rfl
  | int64 v =>
    cases h
    rw [← toNat_toUInt64, Int.toNat_natCast]
    rfl
  | uint32 v =>
    cases h
    rw [← toInt_toInt64, ← toNat_toUInt64, Int.toNat_natCast]
    rfl
  | int32 v =>
    cases h
    rw [← Int32.toInt_toInt64, ← toNat_toUInt64, Int.toNat_natCast]
    rfl
  | _ => cases h

theorem floating_double_of {f : value_variant} {x : Number} (h : floating f = some x) :
    floating_double (.of f) = .ok x := by
  cases f <;> cases h
  · rfl
  · rfl

theorem is_integral_of {i : value_variant} {n : ℤ} (h : integer i = some n) :
    is_integral (.of i) = true ∧ is_floating (.of i) = false ∧ (Value.of i).is_null = false := by
  cases i <;> cases h <;> exact ⟨rfl, rfl, rfl⟩

theorem is_floating_of {f : value_variant} {x : Number} (h : floating f = some x) :
    is_floating (.of f) = true ∧ (Value.of f).is_null = false := by
  cases f <;> cases h <;> exact ⟨rfl, rfl⟩

theorem compare_integer_float {i f : value_variant} {n : ℤ} {x : Number}
    (hi : integer i = some n) (hf : floating f = some x) :
    compare (.of i) (.of f)
        = .ok (compare_doubles (.finite (nearest 53 (n % 2 ^ 64).toNat)) x) ∧
      compare (.of f) (.of i)
        = .ok (compare_doubles x (.finite (nearest 53 (n % 2 ^ 64).toNat))) := by
  obtain ⟨hint, hnot, hi0⟩ := is_integral_of hi
  obtain ⟨hfl, hf0⟩ := is_floating_of hf
  unfold compare
  simp only [hi0, hf0, hint, hnot, hfl, is_numeric, integral_double_of hi, floating_double_of hf]
  exact ⟨rfl, rfl⟩

/-! ## Where that is the order of the numbers -/

/-- A number from zero on is compared as it is. -/
theorem nearest_natural {n : ℤ} (h0 : 0 ≤ n) (hn : |n| ≤ 2 ^ 53) :
    (nearest 53 (n % 2 ^ 64).toNat : ℚ) = n := by
  rw [abs_of_nonneg h0] at hn
  rw [Int.emod_eq_of_lt h0 (by omega), nearest_of_le (by decide) (by omega)]
  exact_mod_cast Int.toNat_of_nonneg h0

theorem mod_negative {n : ℤ} (h0 : n < 0) (hn : |n| ≤ 2 ^ 53) : n % 2 ^ 64 = 2 ^ 64 + n := by
  rw [abs_of_neg h0] at hn
  rw [← Int.add_emod_left, Int.emod_eq_of_lt (by omega) (by omega)]

theorem negative_below {n : ℤ} (h : n < 0) (d : Nat) : (n : ℚ) < d :=
  (Int.cast_lt_zero.mpr h).trans_le (Nat.cast_nonneg d)

/-- Two numbers are on one side of a third when it is below both or above both. -/
theorem ordered_alike {n d q : ℚ} (h : n < d) :
    (ordered d q = ordered n q ∧ ordered q d = ordered q n) ↔ q < n ∨ d < q := by
  unfold ordered
  constructor
  · rintro ⟨hleft, -⟩
    by_contra hno
    rw [not_or, not_lt, not_lt] at hno
    obtain ⟨hnq, hqd⟩ := hno
    rcases lt_or_eq_of_le hnq with hlt | rfl
    · rw [if_neg (not_lt.mpr hqd), if_pos hlt] at hleft
      split at hleft
      · cases hleft
      · cases hleft
    · rw [if_neg (not_lt.mpr hqd), if_pos h] at hleft
      simp at hleft
  · rintro (hq | hq)
    · have hd := hq.trans h
      simp [hq, hd, not_lt_of_gt]
    · have hn := h.trans hq
      simp [hq, hn, not_lt_of_gt]

/-- An integer of at most `2 ^ 53` and a finite float are compared as the numbers they are if
and only if the integer is not negative, or the float is below it, or the float is above the
double of the integer plus `2 ^ 64`. -/
theorem an_integer_and_a_float_compare_as_numbers {i f : value_variant} {n : ℤ} {q : ℚ}
    (hi : integer i = some n) (hf : floating f = some (.finite q)) (hn : |n| ≤ 2 ^ 53) :
    (compare (.of i) (.of f) = .ok (ordered n q) ∧ compare (.of f) (.of i) = .ok (ordered q n)) ↔
      0 ≤ n ∨ q < n ∨ (nearest 53 (2 ^ 64 + n).toNat : ℚ) < q := by
  obtain ⟨hleft, hright⟩ := compare_integer_float hi hf
  rw [hleft, hright, compare_doubles_finite, compare_doubles_finite, Except.ok.injEq,
    Except.ok.injEq]
  by_cases h0 : 0 ≤ n
  · rw [nearest_natural h0 hn]
    exact ⟨fun _ => .inl h0, fun _ => ⟨rfl, rfl⟩⟩
  · have hneg : n < 0 := not_le.mp h0
    rw [mod_negative hneg hn, ordered_alike]
    · exact ⟨.inr, fun h => h.resolve_left h0⟩
    · exact negative_below hneg _

theorem two_is_less_than_two_and_a_half :
    compare (.of (.uint32 2)) (.of (.double 0x4004000000000000)) = .ok (ordered 2 (5 / 2)) ∧
      compare (.of (.double 0x4004000000000000)) (.of (.uint32 2)) = .ok (ordered (5 / 2) 2) :=
  (an_integer_and_a_float_compare_as_numbers (n := 2) (q := 5 / 2) rfl (by decide +kernel)
    (by decide)).mpr (.inl (by decide))

/-- Minus one is above one half. -/
theorem minus_one_is_greater_than_one_half :
    integer (.int32 (-1)) = some (-1) ∧
      floating (.double 0x3FE0000000000000) = some (.finite (1 / 2)) ∧
      ordered (-1) (1 / 2) = .LESS ∧
      compare (.of (.int32 (-1))) (.of (.double 0x3FE0000000000000)) = .ok .GREATER ∧
      compare (.of (.double 0x3FE0000000000000)) (.of (.int32 (-1))) = .ok .LESS := by
  refine ⟨rfl, by decide +kernel, by decide +kernel, ?_, ?_⟩
  · decide +kernel
  · decide +kernel

/-! ## Integers among themselves -/

/-- The result for the operands the other way round. -/
def CompareResult.swap : CompareResult → CompareResult
  | .LESS => .GREATER
  | .EQ => .EQ
  | .GREATER => .LESS
  | .UNKNOWN => .UNKNOWN

/-- The comparison finds the left value less or equal. -/
def AtMost (left right : Value) : Prop :=
  compare left right = .ok .LESS ∨ compare left right = .ok .EQ

/-- Types whose order is that of the integers that they stand for. -/
theorem compare_generic_integers {T : Type} [LT T] [DecidableLT T] (f : T → ℤ)
    (hf : ∀ x y : T, x < y ↔ f x < f y) (x y : T) :
    compare_generic x y = ordered (f x) (f y) := by
  unfold compare_generic ordered
  simp only [hf, Int.cast_lt]

theorem compare_generic_int64 (x y : Int64) : compare_generic x y = ordered x.toInt y.toInt :=
  compare_generic_integers Int64.toInt (fun _ _ => Int64.lt_iff_toInt_lt) x y

theorem compare_generic_uint64 (x y : UInt64) :
    compare_generic x y = ordered (x.toNat : ℤ) (y.toNat : ℤ) :=
  compare_generic_integers (fun x : UInt64 => (x.toNat : ℤ))
    (fun _ _ => UInt64.lt_iff_toNat_lt.trans Int.ofNat_lt.symm) x y

/-- The cast of a `std::uint64_t` that a `std::int64_t` can hold keeps its value. -/
theorem toInt_toInt64_of_le {n : UInt64} (h : ¬ n > int64_max) : n.toInt64.toInt = n.toNat := by
  have hle : n.toNat ≤ 9223372036854775807 := by
    rw [gt_iff_lt, UInt64.lt_iff_toNat_lt, not_lt] at h
    exact h
  rw [Int64.toInt, UInt64.toBitVec_toInt64, BitVec.toInt_eq_toNat_bmod, UInt64.toNat_toBitVec,
    Int.bmod_eq_emod_of_lt]
  · rw [Int.emod_eq_of_lt (by omega) (by omega)]
  · rw [Int.emod_eq_of_lt (by omega) (by omega)]
    omega

/-- A value of one of the four integer types is a `std::uint64_t`, or is widened to a
`std::int64_t`. -/
theorem integer_cases {i : value_variant} {n : ℤ} (h : integer i = some n) :
    (∃ v : UInt64, i = .uint64 v ∧ n = v.toNat) ∨
      ((Value.of i).type ≠ .UINT64 ∧ ∃ v : Int64, as_integral (.of i) = .ok v ∧ n = v.toInt) := by
  cases i with
  | uint64 v =>
    cases h
    exact .inl ⟨v, rfl, rfl⟩
  | int64 v =>
    cases h
    exact .inr ⟨nofun, v, rfl, rfl⟩
  | int32 v =>
    cases h
    exact .inr ⟨nofun, v.toInt64, rfl, (Int32.toInt_toInt64 v).symm⟩
  | uint32 v =>
    cases h
    exact .inr ⟨nofun, v.toUInt64.toInt64, rfl, (toInt_toInt64 v).symm⟩
  | _ => cases h

/-- Past the largest `std::int64_t` an unsigned integer is above every signed one. -/
theorem int64_below {n : UInt64} (h : n > int64_max) (v : Int64) : v.toInt < n.toNat := by
  have hlt : (9223372036854775807 : ℤ) < n.toNat := by
    rw [gt_iff_lt, UInt64.lt_iff_toNat_lt] at h
    exact Int.ofNat_lt.mpr h
  have hle := v.toInt_le
  exact lt_of_le_of_lt hle hlt

theorem ordered_of_lt {a b : ℤ} (h : a < b) : ordered a b = .LESS ∧ ordered b a = .GREATER := by
  have hcast : (a : ℚ) < b := Int.cast_lt.mpr h
  unfold ordered
  rw [if_pos hcast, if_neg (not_lt.mpr hcast.le), if_pos hcast]
  exact ⟨rfl, rfl⟩

theorem compare_integers {i j : value_variant} {a b : ℤ} (hi : integer i = some a)
    (hj : integer j = some b) : compare (.of i) (.of j) = .ok (ordered a b) := by
  obtain ⟨hi1, hi2, hi3⟩ := is_integral_of hi
  obtain ⟨hj1, hj2, hj3⟩ := is_integral_of hj
  unfold compare
  simp only [hi1, hi2, hi3, hj1, hj2, hj3, Bool.or_false, Bool.false_and, Bool.and_false,
    Bool.and_self, if_true, Bool.false_eq_true, if_false]
  rcases integer_cases hi with ⟨v, rfl, rfl⟩ | ⟨hi4, v, hv, rfl⟩ <;>
    rcases integer_cases hj with ⟨w, rfl, rfl⟩ | ⟨hj4, w, hw, rfl⟩
  · rw [if_pos ⟨rfl, rfl⟩, ← compare_generic_uint64]
    rfl
  · have htype : (Value.of (.uint64 v)).type = .UINT64 := rfl
    rw [if_neg fun h => hj4 h.2, if_pos htype]
    show (if v > int64_max then _ else _) = _
    split
    · rename_i hbig
      rw [(ordered_of_lt (int64_below hbig w)).2]
    · rename_i hsmall
      rw [hw, ← toInt_toInt64_of_le hsmall, ← compare_generic_int64]
      rfl
  · have htype : (Value.of (.uint64 w)).type = .UINT64 := rfl
    rw [if_neg fun h => hi4 h.1, if_neg hi4, if_pos htype]
    show (if w > int64_max then _ else _) = _
    split
    · rename_i hbig
      rw [(ordered_of_lt (int64_below hbig v)).1]
    · rename_i hsmall
      rw [hv, ← toInt_toInt64_of_le hsmall, ← compare_generic_int64]
      rfl
  · rw [if_neg fun h => hi4 h.1, if_neg hi4, if_neg hj4, hv, hw, ← compare_generic_int64]
    rfl

theorem ordered_swap (p q : ℚ) : ordered q p = (ordered p q).swap := by
  unfold ordered
  rcases lt_trichotomy p q with h | rfl | h
  · rw [if_pos h, if_neg (not_lt.mpr h.le), if_pos h]
    rfl
  · rw [if_neg (lt_irrefl p), if_neg (lt_irrefl p)]
    rfl
  · rw [if_pos h, if_neg (not_lt.mpr h.le), if_pos h]
    rfl

theorem atMost_iff {i j : value_variant} {a b : ℤ} (hi : integer i = some a)
    (hj : integer j = some b) : AtMost (.of i) (.of j) ↔ a ≤ b := by
  unfold AtMost
  rw [compare_integers hi hj]
  rcases lt_trichotomy a b with h | rfl | h
  · rw [(ordered_of_lt h).1]
    exact ⟨fun _ => h.le, fun _ => .inl rfl⟩
  · refine ⟨fun _ => le_rfl, fun _ => .inr ?_⟩
    unfold ordered
    rw [if_neg (lt_irrefl _), if_neg (lt_irrefl _)]
  · rw [(ordered_of_lt h).2]
    refine ⟨?_, fun hle => absurd h hle.not_gt⟩
    rintro (hc | hc) <;> cases hc

/-- Values of the four integer types are compared as the integers that they stand for. Across
the types this is a total preorder, and the operands the other way round give the result the
other way round. -/
theorem integers_compare_as_numbers {i j k : value_variant} {a b c : ℤ} (hi : integer i = some a)
    (hj : integer j = some b) (hk : integer k = some c) :
    compare (.of i) (.of j) = .ok (ordered a b) ∧
      (AtMost (.of i) (.of j) ∨ AtMost (.of j) (.of i)) ∧
      (AtMost (.of i) (.of j) → AtMost (.of j) (.of k) → AtMost (.of i) (.of k)) ∧
      compare (.of j) (.of i) = (compare (.of i) (.of j)).map CompareResult.swap := by
  refine ⟨compare_integers hi hj, ?_, ?_, ?_⟩
  · rw [atMost_iff hi hj, atMost_iff hj hi]
    exact le_total a b
  · rw [atMost_iff hi hj, atMost_iff hj hk, atMost_iff hi hk]
    exact le_trans
  · rw [compare_integers hi hj, compare_integers hj hi, ordered_swap]
    rfl

/-- Minus one is below the largest `std::int64_t`, and that is below the number after it. -/
theorem minus_one_is_below_two_to_the_63 :
    compare (.of (.int32 (-1))) (.of (.int64 9223372036854775807)) = .ok .LESS ∧
      AtMost (.of (.int64 9223372036854775807)) (.of (.uint64 9223372036854775808)) ∧
      AtMost (.of (.int32 (-1))) (.of (.uint64 9223372036854775808)) := by
  obtain ⟨hless, -, htrans, -⟩ := integers_compare_as_numbers (i := .int32 (-1))
    (j := .int64 9223372036854775807) (k := .uint64 9223372036854775808) (a := -1)
    (b := 9223372036854775807) (c := 9223372036854775808) (by decide) (by decide) (by decide)
  rw [(ordered_of_lt (by decide)).1] at hless
  have hnext : AtMost (.of (.int64 9223372036854775807)) (.of (.uint64 9223372036854775808)) :=
    .inl (by decide)
  exact ⟨hless, hnext, htrans (.inl hless) hnext⟩

end duck.execution
