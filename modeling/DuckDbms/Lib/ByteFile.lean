-- Files of bytes: writes at any place, also past the end, and reads that stop
-- at the end.
import DuckDbms.Lib.ByteMem

open byte_mem

namespace byte_file

/-- A file reads as zeros where nothing was written yet. -/
structure ByteFile where
  size : Nat
  bytes : ByteMem
  beyond : ∀ i, size ≤ i → bytes i = 0

namespace ByteFile

def empty : ByteFile := ⟨0, fun _ => 0, fun _ _ => rfl⟩

variable (f : ByteFile)

/-- A write of no bytes does nothing. -/
def pwrite (a : Nat) (bs : List UInt8) : ByteFile where
  size := if bs = [] then f.size else max f.size (a + bs.length)
  bytes := writeBytes f.bytes a bs
  beyond i hi := by
    by_cases hbs : bs = []
    · rw [if_pos hbs] at hi
      rw [writeBytes_other (by rw [hbs, List.length_nil]; omega), f.beyond i hi]
    · rw [if_neg hbs] at hi
      rw [writeBytes_other (by omega), f.beyond i (by omega)]

/-- At most `n` bytes from `a` on, as far as the file goes. -/
def pread (a n : Nat) : List UInt8 := readBytes f.bytes a (min n (f.size - a))

theorem length_pread (a n : Nat) : (f.pread a n).length = min n (f.size - a) := by
  unfold pread
  rw [length_readBytes]

/-- A read with zeros for the bytes past the end. -/
theorem pread_filled (a n : Nat) :
    f.pread a n ++ List.replicate (n - (f.pread a n).length) 0 = readBytes f.bytes a n := by
  rw [length_pread]
  apply List.ext_getElem?
  intro i
  rw [getElem?_readBytes]
  by_cases hi : i < min n (f.size - a)
  · rw [List.getElem?_append_left (by rw [length_pread]; exact hi), if_pos (by omega)]
    unfold pread
    rw [getElem?_readBytes, if_pos hi]
  · rw [List.getElem?_append_right (by rw [length_pread]; omega), length_pread,
      List.getElem?_replicate]
    split
    · rw [if_pos (by omega), f.beyond (a + i) (by omega)]
    · rw [if_neg (by omega)]

@[simp] theorem bytes_pwrite (a : Nat) (bs : List UInt8) :
    (f.pwrite a bs).bytes = writeBytes f.bytes a bs := rfl

theorem size_pwrite (a : Nat) (bs : List UInt8) :
    (f.pwrite a bs).size = if bs = [] then f.size else max f.size (a + bs.length) := rfl

theorem le_size_pwrite (a : Nat) (bs : List UInt8) : f.size ≤ (f.pwrite a bs).size := by
  rw [size_pwrite]
  split <;> omega

/-- A write inside of a part of a file makes the file no longer than that part. -/
theorem size_pwrite_le {n : Nat} (a : Nat) (bs : List UInt8) (h : a + bs.length ≤ n) :
    (f.pwrite a bs).size ≤ max f.size n := by
  rw [size_pwrite]
  split <;> omega

end ByteFile

end byte_file
