-- Pieces that lie one after the other in a list: where each of them starts, and
-- what a read of that place returns. Numbers as bytes, the smallest byte first,
-- and lists of bytes as rows of bits.
import Mathlib.Data.List.Basic
import Mathlib.Algebra.Order.Ring.Nat

namespace layout

/-! ## Places -/

section
variable {α : Type}

/-- The `n` elements from place `k` on, when they are all there. -/
def slice (l : List α) (k n : Nat) : Option (List α) :=
  if k + n ≤ l.length then some ((l.drop k).take n) else none

theorem slice_at (before p after : List α) :
    slice (before ++ (p ++ after)) before.length p.length = some p := by
  unfold slice
  rw [if_pos (by simp), List.drop_left, List.take_left]

/-- What was read lies between what comes before and what comes after. -/
theorem slice_split {l p : List α} {k n : Nat} (h : slice l k n = some p) :
    p.length = n ∧ l.drop k = p ++ l.drop (k + n) := by
  unfold slice at h
  split at h
  · rename_i hle
    cases h
    refine ⟨?_, ?_⟩
    · rw [List.length_take, List.length_drop]
      omega
    · rw [← List.drop_drop, List.take_append_drop]
  · cases h

/-- Where each of the pieces starts, the first of them at place `k`. -/
def starts (k : Nat) : List (List α) → List Nat
  | [] => []
  | p :: ps => k :: starts (k + p.length) ps

theorem getElem?_starts {ps : List (List α)} {k i : Nat} {p : List α} (h : ps[i]? = some p) :
    (starts k ps)[i]? = some (k + (ps.take i).flatten.length) := by
  induction ps generalizing k i with
  | nil => cases h
  | cons q ps ih =>
    cases i with
    | zero => simp [starts]
    | succ i =>
      rw [List.getElem?_cons_succ] at h
      rw [starts, List.getElem?_cons_succ, ih h]
      simp [Nat.add_assoc]

/-- A piece lies between those before it and those after it. -/
theorem split_at_piece {ps : List (List α)} {i : Nat} {p : List α} (h : ps[i]? = some p) :
    ps.flatten = (ps.take i).flatten ++ (p ++ (ps.drop (i + 1)).flatten) := by
  obtain ⟨hi, rfl⟩ := List.getElem?_eq_some_iff.mp h
  rw [← List.flatten_cons, ← List.flatten_append, ← List.drop_eq_getElem_cons hi,
    List.take_append_drop]

end

/-! ## Numbers as bytes -/

/-- The `w` lowest bytes of a number, the smallest first. -/
def leBytes : Nat → Nat → List UInt8
  | 0, _ => []
  | w + 1, n => UInt8.ofNat n :: leBytes w (n / 256)

def ofLeBytes : List UInt8 → Nat
  | [] => 0
  | b :: bs => b.toNat + 256 * ofLeBytes bs

@[simp] theorem length_leBytes (w n : Nat) : (leBytes w n).length = w := by
  induction w generalizing n with
  | zero => rfl
  | succ w ih => simp [leBytes, ih]

theorem ofLeBytes_leBytes (w n : Nat) (h : n < 256 ^ w) : ofLeBytes (leBytes w n) = n := by
  induction w generalizing n with
  | zero =>
    rw [Nat.pow_zero, Nat.lt_one_iff] at h
    exact h.symm
  | succ w ih =>
    have hn : n / 256 < 256 ^ w := by
      apply Nat.div_lt_of_lt_mul
      rwa [Nat.pow_succ'] at h
    rw [leBytes, ofLeBytes, ih _ hn, UInt8.toNat_ofNat']
    omega

theorem ofLeBytes_lt (bs : List UInt8) : ofLeBytes bs < 256 ^ bs.length := by
  induction bs with
  | nil => exact Nat.one_pos
  | cons b bs ih =>
    have hb := b.toNat_lt
    rw [ofLeBytes, List.length_cons, Nat.pow_succ']
    omega

theorem leBytes_ofLeBytes (bs : List UInt8) : leBytes bs.length (ofLeBytes bs) = bs := by
  induction bs with
  | nil => rfl
  | cons b bs ih =>
    have hb := b.toNat_lt
    have hdiv : (b.toNat + 256 * ofLeBytes bs) / 256 = ofLeBytes bs := by omega
    have hmod : UInt8.ofNat (b.toNat + 256 * ofLeBytes bs) = b := by
      refine UInt8.toNat_inj.mp ?_
      rw [UInt8.toNat_ofNat']
      omega
    rw [List.length_cons, ofLeBytes, leBytes, hdiv, hmod, ih]

/-! ## Rows of bits -/

/-- Bit `j` of a list of bytes. -/
def bit (bs : List UInt8) (j : Nat) : Option Bool :=
  bs[j / 8]?.map fun b => b.toBitVec.getLsbD (j % 8)

def setBit (bs : List UInt8) (j : Nat) : List UInt8 :=
  bs.modify (j / 8) fun b => b ||| (1 <<< UInt8.ofNat (j % 8))

@[simp] theorem length_setBit (bs : List UInt8) (j : Nat) : (setBit bs j).length = bs.length := by
  simp [setBit]

theorem getLsbD_or_one_shift (b : UInt8) {i j : Nat} (hi : i < 8) (hj : j < 8) :
    (b ||| (1 <<< UInt8.ofNat j)).toBitVec.getLsbD i = (b.toBitVec.getLsbD i || i == j) := by
  have hone : ∀ i j : Fin 8,
      ((1 : UInt8) <<< UInt8.ofNat j.val).toBitVec.getLsbD i.val = (i.val == j.val) := by
    decide
  rw [UInt8.toBitVec_or, BitVec.getLsbD_or, hone ⟨i, hi⟩ ⟨j, hj⟩]

theorem bit_setBit (bs : List UInt8) (j k : Nat) :
    bit (setBit bs k) j = (bit bs j).map (· || j == k) := by
  unfold bit setBit
  rw [List.getElem?_modify]
  by_cases hk : k / 8 = j / 8
  · have heq : (j % 8 == k % 8) = (j == k) := by
      rw [Bool.eq_iff_iff, beq_iff_eq, beq_iff_eq]
      omega
    cases bs[j / 8]? with
    | none => rfl
    | some b =>
      simp only [hk, if_true, Option.map_eq_map, Option.map_some]
      rw [getLsbD_or_one_shift b (Nat.mod_lt _ (by omega)) (Nat.mod_lt _ (by omega)), heq]
  · have hne : (j == k) = false := by
      rw [beq_eq_false_iff_ne]
      omega
    cases bs[j / 8]? <;> simp [hk, hne]

theorem bit_append (bs cs : List UInt8) {j : Nat} (h : j / 8 < bs.length) :
    bit (bs ++ cs) j = bit bs j := by
  unfold bit
  rw [List.getElem?_append_left h]

theorem bit_replicate_zero {n j : Nat} (h : j / 8 < n) :
    bit (List.replicate n 0) j = some false := by
  unfold bit
  rw [List.getElem?_replicate, if_pos h]
  simp

end layout
