-- Binary floating point: the number that a bit pattern stands for, the order
-- of these numbers, and the rounding of a natural number to so many bits.
import Mathlib.Data.Rat.Defs
import Mathlib.Algebra.Order.Ring.Rat

namespace binary_float

/-- A sign, then the bits of the exponent, then those of the fraction. -/
structure Format where
  exponent : Nat
  fraction : Nat

def single : Format := ⟨8, 23⟩

def double : Format := ⟨11, 52⟩

/-- What a bit pattern stands for. A finite number is the exact rational. -/
inductive Number
  | nan
  | infinite (negative : Bool)
  | finite (q : ℚ)
  deriving DecidableEq

namespace Format

variable (f : Format)

/-- The units of the smallest exponent, as a power of two. -/
def places : Nat := 2 ^ (f.exponent - 1) - 2 + f.fraction

/-- A normal number has a one before its fraction, and a subnormal one has a zero there. -/
def magnitude (exponent fraction : Nat) : ℚ :=
  if exponent = 0 then (fraction : ℚ) / (2 ^ f.places : Nat)
  else (((2 ^ f.fraction + fraction) * 2 ^ (exponent - 1) : Nat) : ℚ) / (2 ^ f.places : Nat)

def decode (bits : Nat) : Number :=
  let fraction := bits % 2 ^ f.fraction
  let exponent := bits / 2 ^ f.fraction % 2 ^ f.exponent
  let negative := bits.testBit (f.exponent + f.fraction)
  if exponent = 2 ^ f.exponent - 1 then
    if fraction = 0 then .infinite negative else .nan
  else .finite (if negative then -f.magnitude exponent fraction else f.magnitude exponent fraction)

end Format

/-! ## The order -/

namespace Number

/-- A comparison with a NaN fails. -/
def lt : Number → Number → Bool
  | .nan, _ | _, .nan => false
  | .infinite a, .infinite b => a && !b
  | .infinite a, .finite _ => a
  | .finite _, .infinite b => !b
  | .finite p, .finite q => p < q

instance : LT Number := ⟨fun a b => lt a b = true⟩

instance (a b : Number) : Decidable (a < b) := inferInstanceAs (Decidable (lt a b = true))

@[simp] theorem finite_lt_finite (p q : ℚ) : (finite p < finite q) ↔ p < q := by
  change decide (p < q) = true ↔ p < q
  rw [decide_eq_true_iff]

end Number

/-! ## Rounding -/

/-- The closest multiple of `2 ^ k`, of two that are as close the even one. -/
def roundAt (k n : Nat) : Nat :=
  let quotient := n / 2 ^ k
  let rest := 2 * (n % 2 ^ k)
  if rest < 2 ^ k then quotient * 2 ^ k
  else if rest = 2 ^ k then (quotient + quotient % 2) * 2 ^ k
  else (quotient + 1) * 2 ^ k

/-- The closest number with `precision` bits. -/
def nearest (precision n : Nat) : Nat := roundAt (n.log2 + 1 - precision) n

theorem roundAt_zero (n : Nat) : roundAt 0 n = n := by
  simp [roundAt, Nat.mod_one]

/-- A number that fits is its own rounding, and so is the first one with one more bit. -/
theorem nearest_of_le {precision n : Nat} (h0 : 0 < precision) (h : n ≤ 2 ^ precision) :
    nearest precision n = n := by
  unfold nearest
  rcases Nat.lt_or_eq_of_le h with hlt | rfl
  · have hlog : n.log2 + 1 - precision = 0 := by
      by_cases hn : n = 0
      · rw [hn, Nat.log2_zero]
        omega
      · have := (Nat.log2_lt hn).mpr hlt
        omega
    rw [hlog, roundAt_zero]
  · rw [Nat.log2_two_pow, show precision + 1 - precision = 1 by omega]
    obtain ⟨p, rfl⟩ : ∃ p, precision = p + 1 := ⟨precision - 1, by omega⟩
    have hrest : 2 ^ (p + 1) % 2 ^ 1 = 0 := by
      rw [Nat.pow_succ]
      omega
    unfold roundAt
    simp only [hrest]
    rw [if_pos (by decide), Nat.pow_succ]
    omega

end binary_float
