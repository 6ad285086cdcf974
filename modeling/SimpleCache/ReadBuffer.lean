import SimpleCache.Store

/-!
# The read buffer

`struct read_buffer` is a circular buffer with two free-running 16-bit
positions.  Its size divides their range, so that positions may wrap, and the
bytes between them are the ones that have arrived and are not yet consumed.
-/

namespace SimpleCache

def bufferSize : Nat := 16384

/-- `struct read_buffer`. -/
structure ReadBuffer where
  buffer : Nat → UInt8
  readPosition : Nat
  writePosition : Nat

namespace ReadBuffer

/-- `RBUF_READLEN`. -/
def rbufReadRemaining (input : ReadBuffer) : Nat :=
  u16 (input.writePosition + 65536 - input.readPosition)

/-- `RBUF_WRITELEN`. -/
def rbufWriteRemaining (input : ReadBuffer) : Int :=
  bufferSize - input.rbufReadRemaining

/-- The positions are promoted to `int` before they are subtracted. -/
def rbufReadToEnd (input : ReadBuffer) : Int :=
  let toEnd := input.readPosition % bufferSize
  if toEnd ≤ input.writePosition % bufferSize then
    (input.writePosition : Int) - input.readPosition
  else
    (bufferSize : Int) - toEnd

def rbufWriteToEnd (input : ReadBuffer) : Nat :=
  let toEnd := input.writePosition % bufferSize
  let readPos := input.readPosition % bufferSize
  if toEnd ≤ readPos ∧ input.readPosition ≠ input.writePosition then
    readPos - toEnd
  else
    bufferSize - toEnd

/-- `RBUF_READMOVE`. -/
def readMove (input : ReadBuffer) (count : Int) : ReadBuffer :=
  { input with
    readPosition := ((input.readPosition + count) % 65536).toNat }

/-- `count` bytes from `RBUF_READ` on. -/
def bytesAt (input : ReadBuffer) (count : Nat) : Bytes :=
  (List.range count).map fun offset =>
    input.buffer (input.readPosition % bufferSize + offset)

/-- Store bytes from `RBUF_WRITE` on, then `RBUF_WRITEMOVE`. -/
def store (input : ReadBuffer) (bytes : Bytes) : ReadBuffer :=
  let toEnd := input.writePosition % bufferSize
  { input with
    buffer := fun position =>
      if toEnd ≤ position then
        (bytes[position - toEnd]?).getD (input.buffer position)
      else input.buffer position
    writePosition := u16 (input.writePosition + bytes.length) }

/-- `http_read_handle` before it reads: an empty buffer starts over. -/
def rewind (input : ReadBuffer) : ReadBuffer :=
  if input.writePosition = input.readPosition then
    { input with readPosition := 0, writePosition := 0 }
  else input

/-- The bytes between the positions. -/
structure Holds (input : ReadBuffer) (bytes : Bytes) : Prop where
  read_lt : input.readPosition < 65536
  length_le : bytes.length ≤ 16384
  write_eq : input.writePosition =
    (input.readPosition + bytes.length) % 65536
  byte_eq : ∀ offset (inRange : offset < bytes.length),
    input.buffer ((input.readPosition + offset) % 16384) = bytes[offset]

/-- A full buffer starts at its first byte, and its end does not wrap. -/
def Straight (input : ReadBuffer) : Prop :=
  input.rbufReadRemaining = bufferSize →
    input.readPosition % bufferSize = 0 ∧ input.readPosition < 49152

instance (input : ReadBuffer) : Decidable input.Straight :=
  inferInstanceAs (Decidable (_ → _ ∧ _))

section Holds

variable {input : ReadBuffer} {bytes : Bytes}

theorem Holds.readRemaining (holds : input.Holds bytes) :
    input.rbufReadRemaining = bytes.length := by
  obtain ⟨readLt, lengthLe, writeEq, -⟩ := holds
  unfold rbufReadRemaining u16
  omega

/-- The bytes that can be read in one piece. -/
theorem Holds.readToEnd (holds : input.Holds bytes)
    (straight : input.Straight) :
    input.rbufReadToEnd =
      min bytes.length (16384 - input.readPosition % 16384) := by
  have full := straight
  unfold Straight at full
  rw [holds.readRemaining] at full
  obtain ⟨readLt, lengthLe, writeEq, -⟩ := holds
  unfold rbufReadToEnd
  unfold bufferSize at *
  dsimp only
  split <;> omega

/-- In one piece the buffer gives its first bytes. -/
theorem Holds.bytesAt (holds : input.Holds bytes) {count : Nat}
    (available : count ≤ bytes.length)
    (inside : count ≤ 16384 - input.readPosition % 16384) :
    input.bytesAt count = bytes.take count := by
  apply List.ext_getElem
  · simp [ReadBuffer.bytesAt, available]
  · intro offset inRange _
    have bound : offset < count := by
      simpa [ReadBuffer.bytesAt] using inRange
    have place : (input.readPosition + offset) % 16384 =
        input.readPosition % bufferSize + offset := by
      unfold bufferSize
      omega
    have byte := holds.byte_eq offset (by omega)
    rw [place] at byte
    simpa [ReadBuffer.bytesAt] using byte

/-- Consuming bytes drops them. -/
theorem Holds.readMove (holds : input.Holds bytes) {count : Nat}
    (available : count ≤ bytes.length) :
    (input.readMove count).Holds (bytes.drop count) := by
  obtain ⟨readLt, lengthLe, writeEq, byteEq⟩ := holds
  refine ⟨?_, ?_, ?_, fun offset inRange => ?_⟩
  · simp only [ReadBuffer.readMove]
    omega
  · rw [List.length_drop]
    omega
  · simp only [ReadBuffer.readMove, List.length_drop]
    omega
  · rw [List.length_drop] at inRange
    rw [List.getElem_drop, ← byteEq (count + offset) (by omega)]
    simp only [ReadBuffer.readMove]
    congr 1
    omega

theorem Holds.rewind (holds : input.Holds bytes) : input.rewind.Holds bytes := by
  unfold ReadBuffer.rewind
  split
  · next same =>
      obtain ⟨readLt, lengthLe, writeEq, -⟩ := holds
      obtain rfl : bytes = [] := by
        apply List.eq_nil_of_length_eq_zero
        omega
      exact ⟨by simp, by simp, by simp, by simp⟩
  · exact holds

/-- What is read from the socket goes behind what is there. -/
theorem Holds.store (holds : input.Holds bytes) {more : Bytes}
    (fits : more.length ≤ input.rbufWriteToEnd) :
    (input.store more).Holds (bytes ++ more) := by
  obtain ⟨readLt, lengthLe, writeEq, byteEq⟩ := holds
  have room : bytes.length + more.length ≤ 16384 ∧
      input.writePosition % 16384 + more.length ≤ 16384 := by
    unfold rbufWriteToEnd bufferSize at fits
    dsimp only at fits
    split at fits <;> omega
  refine ⟨readLt, ?_, ?_, fun offset inRange => ?_⟩
  · rw [List.length_append]
    exact room.1
  · simp only [ReadBuffer.store, u16, List.length_append]
    omega
  · rw [List.length_append] at inRange
    change (if input.writePosition % 16384 ≤
        (input.readPosition + offset) % 16384 then
      (more[(input.readPosition + offset) % 16384 -
        input.writePosition % 16384]?).getD
          (input.buffer ((input.readPosition + offset) % 16384))
      else input.buffer ((input.readPosition + offset) % 16384)) = _
    by_cases old : offset < bytes.length
    · rw [List.getElem_append_left old, ← byteEq offset old]
      split
      · rw [List.getElem?_eq_none (by omega), Option.getD_none]
      · rfl
    · rw [List.getElem_append_right (by omega)]
      have place : (input.readPosition + offset) % 16384 -
          input.writePosition % 16384 = offset - bytes.length := by
        omega
      rw [if_pos (by omega), place, List.getElem?_eq_getElem (by omega),
        Option.getD_some]

end Holds

end ReadBuffer

end SimpleCache
