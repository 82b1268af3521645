-- Byte memory: reads and writes of 16-bit little-endian words and of byte
-- strings, and which of them a write leaves as they were.
import Mathlib.Data.List.Basic

namespace byte_mem

abbrev ByteMem := Nat → UInt8

def read16 (m : ByteMem) (a : Nat) : Nat := (m a).toNat + 256 * (m (a + 1)).toNat

/-- The word is cut to 16 bits. -/
def write16 (m : ByteMem) (a v : Nat) : ByteMem := fun i =>
  if i = a then UInt8.ofNat v else if i = a + 1 then UInt8.ofNat (v / 256) else m i

/-- The `n` bytes from `a` on. -/
def readBytes (m : ByteMem) (a n : Nat) : List UInt8 := (List.range n).map fun i => m (a + i)

def writeBytes (m : ByteMem) (a : Nat) (bs : List UInt8) : ByteMem := fun i =>
  if i < a then m i else (bs[i - a]?).getD (m i)

/-- The ranges of `n` bytes at `a` and of `k` bytes at `b` have no byte in common. -/
def Apart (a n b k : Nat) : Prop := a + n ≤ b ∨ b + k ≤ a

theorem read16_lt (m : ByteMem) (a : Nat) : read16 m a < 65536 := by
  have h1 := (m a).toNat_lt
  have h2 := (m (a + 1)).toNat_lt
  unfold read16
  omega

@[simp] theorem length_readBytes (m : ByteMem) (a n : Nat) : (readBytes m a n).length = n := by
  simp [readBytes]

theorem getElem?_readBytes (m : ByteMem) (a n i : Nat) :
    (readBytes m a n)[i]? = if i < n then some (m (a + i)) else none := by
  unfold readBytes
  rw [List.getElem?_map]
  split
  · rw [List.getElem?_range ‹_›]; rfl
  · rw [List.getElem?_eq_none (by simp; omega)]; rfl

/-- Memories that agree on a range read the same there. -/
theorem readBytes_congr {m w : ByteMem} {a n : Nat} (h : ∀ i, a ≤ i → i < a + n → m i = w i) :
    readBytes m a n = readBytes w a n := by
  unfold readBytes
  apply List.map_congr_left
  intro i hi
  rw [List.mem_range] at hi
  exact h _ (by omega) (by omega)

theorem take_readBytes (m : ByteMem) (a : Nat) {k n : Nat} (h : k ≤ n) :
    (readBytes m a n).take k = readBytes m a k := by
  unfold readBytes
  rw [← List.map_take, List.take_range, Nat.min_eq_left h]

theorem drop_readBytes (m : ByteMem) (a k n : Nat) :
    (readBytes m a n).drop k = readBytes m (a + k) (n - k) := by
  refine List.ext_getElem? fun i => ?_
  rw [List.getElem?_drop, getElem?_readBytes, getElem?_readBytes, Nat.add_assoc]
  by_cases h : k + i < n
  · rw [if_pos h, if_pos (by omega)]
  · rw [if_neg h, if_neg (by omega)]

theorem read16_congr {m w : ByteMem} {a : Nat} (h : ∀ i, a ≤ i → i < a + 2 → m i = w i) :
    read16 m a = read16 w a := by
  unfold read16
  rw [h a (by omega) (by omega), h (a + 1) (by omega) (by omega)]

/-! ## Writes of a word -/

theorem write16_other {m : ByteMem} {a v i : Nat} (h : i < a ∨ a + 2 ≤ i) :
    write16 m a v i = m i := by
  unfold write16
  rw [if_neg (by omega), if_neg (by omega)]

theorem read16_write16 (m : ByteMem) (a : Nat) {v : Nat} (h : v < 65536) :
    read16 (write16 m a v) a = v := by
  unfold read16 write16
  rw [if_pos rfl, if_neg (by omega), if_pos rfl]
  simp only [UInt8.toNat_ofNat']
  omega

theorem read16_write16_apart {m : ByteMem} {a b v : Nat} (h : Apart a 2 b 2) :
    read16 (write16 m a v) b = read16 m b := by
  unfold Apart at h
  exact read16_congr fun i h1 h2 => write16_other (by omega)

/-! ## Writes of a byte string -/

theorem writeBytes_other {m : ByteMem} {a i : Nat} {bs : List UInt8}
    (h : i < a ∨ a + bs.length ≤ i) : writeBytes m a bs i = m i := by
  unfold writeBytes
  split
  · rfl
  · rw [List.getElem?_eq_none (by omega)]; rfl

theorem writeBytes_at {m : ByteMem} {a i : Nat} {bs : List UInt8} (h : i < bs.length) :
    writeBytes m a bs (a + i) = bs[i] := by
  unfold writeBytes
  rw [if_neg (by omega), Nat.add_sub_cancel_left, List.getElem?_eq_getElem h]
  rfl

theorem readBytes_writeBytes_apart {m : ByteMem} {a b n : Nat} {bs : List UInt8}
    (h : Apart a bs.length b n) : readBytes (writeBytes m a bs) b n = readBytes m b n := by
  unfold Apart at h
  exact readBytes_congr fun i h1 h2 => writeBytes_other (by omega)

theorem readBytes_writeBytes (m : ByteMem) (a : Nat) (bs : List UInt8) :
    readBytes (writeBytes m a bs) a bs.length = bs := by
  apply List.ext_getElem?
  intro i
  rw [getElem?_readBytes]
  split
  · rename_i h
    rw [writeBytes_at h, List.getElem?_eq_getElem h]
  · rw [List.getElem?_eq_none (by omega)]

/-- Bytes that are copied to where they came from read as they did. -/
theorem readBytes_writeBytes_readBytes {m w : ByteMem} {a n b k : Nat} (h1 : a ≤ b)
    (h2 : b + k ≤ a + n) : readBytes (writeBytes m a (readBytes w a n)) b k = readBytes w b k := by
  refine readBytes_congr fun i hi hk => ?_
  have hlt : i - a < (readBytes w a n).length := by simp; omega
  have he : a + (i - a) = i := by omega
  have h := writeBytes_at (m := m) (a := a) hlt
  rw [he] at h
  rw [h]
  simp [readBytes, he]

/-- Two writes, one behind the other. -/
theorem writeBytes_append (m : ByteMem) (a : Nat) (bs cs : List UInt8) :
    writeBytes (writeBytes m a bs) (a + bs.length) cs = writeBytes m a (bs ++ cs) := by
  funext i
  unfold writeBytes
  split
  · rename_i hi
    split
    · rfl
    · rw [List.getElem?_append_left (by omega)]
  · rename_i hi
    have hlen : ¬ i < a := by omega
    have he : i - (a + bs.length) = i - a - bs.length := by omega
    rw [if_neg hlen, if_neg hlen, List.getElem?_append_right (by omega), he,
      List.getElem?_eq_none (show bs.length ≤ i - a by omega)]
    rfl

/-- A read of more bytes than were written. -/
theorem readBytes_writeBytes_more (m : ByteMem) (a : Nat) (bs : List UInt8) (n : Nat) :
    readBytes (writeBytes m a bs) a (bs.length + n) = bs ++ readBytes m (a + bs.length) n := by
  apply List.ext_getElem?
  intro i
  rw [getElem?_readBytes]
  by_cases hi : i < bs.length
  · rw [if_pos (by omega), writeBytes_at hi, List.getElem?_append_left hi,
      List.getElem?_eq_getElem hi]
  · have he : a + i = a + bs.length + (i - bs.length) := by omega
    rw [List.getElem?_append_right (by omega), getElem?_readBytes, writeBytes_other (by omega), he]
    congr 1
    rw [eq_iff_iff]
    omega

end byte_mem
