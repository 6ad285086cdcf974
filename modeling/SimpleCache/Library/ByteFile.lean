import Mathlib.Data.List.Basic
import Mathlib.Order.Lattice.Nat

/-!
# Files as byte sequences

A file has a length and reads as zero past its end, so extending it by
truncation or by a write past the end leaves a hole of zeros.
-/

namespace SimpleCache

structure ByteFile where
  length : Nat
  byte : Nat → UInt8
  zero_beyond : ∀ position, length ≤ position → byte position = 0

namespace ByteFile

/-- The file with no bytes. -/
def empty : ByteFile where
  length := 0
  byte := fun _ => 0
  zero_beyond := fun _ _ => rfl

/-- Cut or extend the file to a given length. -/
def truncate (file : ByteFile) (length : Nat) : ByteFile where
  length := length
  byte := fun position => if position < length then file.byte position else 0
  zero_beyond := by
    intro position beyond
    rw [if_neg (by omega)]

/-- Store bytes from a position on, extending the file when they reach past
its end. -/
def write (file : ByteFile) (start : Nat) (bytes : List UInt8) : ByteFile where
  length := if bytes = [] then file.length
    else max file.length (start + bytes.length)
  byte := fun position =>
    if start ≤ position then
      (bytes[position - start]?).getD (file.byte position)
    else file.byte position
  zero_beyond := by
    intro position beyond
    have past : file.length ≤ position ∧ bytes.length ≤ position - start := by
      split at beyond
      · next noBytes => simp [noBytes, beyond]
      · omega
    rw [List.getElem?_eq_none past.2, Option.getD_none,
      file.zero_beyond position past.1]
    simp

/-- The `count` bytes that start at a position. -/
def slice (file : ByteFile) (start count : Nat) : List UInt8 :=
  (List.range count).map fun offset => file.byte (start + offset)

variable {file : ByteFile} {start count : Nat}

@[simp]
theorem slice_length : (file.slice start count).length = count := by
  simp [slice]

theorem slice_congr {other : ByteFile}
    (agree : ∀ position, start ≤ position → position < start + count →
      other.byte position = file.byte position) :
    other.slice start count = file.slice start count := by
  apply List.map_congr_left
  intro offset member
  have := List.mem_range.mp member
  exact agree (start + offset) (by omega) (by omega)

/-- A longer slice is the shorter slice followed by the rest. -/
theorem slice_add (more : Nat) :
    file.slice start (count + more) =
      file.slice start count ++ file.slice (start + count) more := by
  simp [slice, List.range_add, Function.comp_def, Nat.add_assoc]

/-- Truncation keeps every slice below the new length. -/
theorem slice_truncate {length : Nat} (kept : start + count ≤ length) :
    (file.truncate length).slice start count = file.slice start count := by
  apply slice_congr
  intro position _ below
  simp only [truncate]
  rw [if_pos (by omega)]

/-- A write does not show in a slice it does not touch. -/
theorem slice_write_of_disjoint {at_ : Nat} {bytes : List UInt8}
    (apart : start + count ≤ at_ ∨ at_ + bytes.length ≤ start) :
    (file.write at_ bytes).slice start count = file.slice start count := by
  apply slice_congr
  intro position above below
  simp only [write]
  split
  · rw [List.getElem?_eq_none (by omega), Option.getD_none]
  · rfl

/-- A write that continues a slice appends its bytes to it. -/
theorem slice_write_append {bytes : List UInt8} :
    (file.write (start + count) bytes).slice start (count + bytes.length) =
      file.slice start count ++ bytes := by
  rw [slice_add, slice_write_of_disjoint (Or.inl (Nat.le_refl _))]
  congr 1
  apply List.ext_getElem
  · simp
  · intro offset _ inRange
    simp [slice, write, inRange]

end ByteFile

end SimpleCache
