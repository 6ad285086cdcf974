import SimpleCache.ReadBuffer
import SimpleCache.Index
import SimpleCache.Library.Machine

/-!
# Reading from and writing to the read buffer

The functions over `struct read_buffer` that copy, compare and convert what
has arrived, with the array as the only memory they may touch, and the region
that a socket is read into.
-/

namespace SimpleCache

namespace ReadBuffer

/-- What ends a function over the buffer early. -/
inductive RingFault
  | assertion
  | outside
  deriving DecidableEq

variable (input : ReadBuffer)

/-- The positions are 16 bits wide, and `rbuf_debug_check` holds. -/
structure Valid : Prop where
  read_lt : input.readPosition < 65536
  write_lt : input.writePosition < 65536
  remaining_le : input.rbufReadRemaining ≤ bufferSize

/-- The bytes that have arrived and are not consumed, in their order. -/
def content : Bytes :=
  (List.range input.rbufReadRemaining).map fun offset =>
    input.buffer ((input.readPosition + offset) % bufferSize)

/-- The cells from `RBUF_READ` to the end of the array. -/
def cellsToEnd : Nat := bufferSize - input.readPosition % bufferSize

def readByte (index : Nat) : Except RingFault UInt8 :=
  if index < bufferSize then .ok (input.buffer index) else .error .outside

/-- Conversion of an `int` to `size_t`. -/
def sizeT (count : Int) : Nat := (count % 18446744073709551616).toNat

/-- `memcpy` out of the array. -/
def copyFrom (index count : Nat) : Except RingFault Bytes :=
  (List.range count).mapM fun offset => input.readByte (index + offset)

/-- `strncmp` of a string with the array from `index` on. -/
def strncmpAt : Nat → Bytes → Nat → Except RingFault Int
  | _, _, 0 => return 0
  | _, [], _ + 1 => throw .outside
  | index, char :: rest, count + 1 => do
      let byte ← input.readByte index
      if char ≠ byte then return (char.toNat : Int) - byte.toNat
      else if char = 0 then return 0
      else strncmpAt (index + 1) rest count

/-- The number of bytes that were copied, and the bytes. -/
def rbufCopyn (n : Int) : Except RingFault (Int × Bytes) := do
  if n < 0 then throw .assertion
  if bufferSize < input.rbufReadRemaining then throw .assertion
  if bufferSize < n then throw .assertion
  let toEnd := input.rbufReadToEnd
  if n = 0 then return (0, [])
  let toRead := if n > toEnd then toEnd else n
  let first ← input.copyFrom (input.readPosition % bufferSize) (sizeT toRead)
  let n := n - toRead
  if n = 0 then return (toRead, first)
  let toEnd := input.rbufReadRemaining - toEnd
  if toEnd = 0 then return (toRead + toEnd, first)
  if n < toEnd then throw .assertion
  let toEnd := if toEnd > n then n else toEnd
  let second ← input.copyFrom 0 (sizeT toEnd)
  return (toRead + toEnd, first ++ second)

def rbufCmpn (with_ : Bytes) (n : Int) : Except RingFault Int := do
  if n < 0 then throw .assertion
  if bufferSize < input.rbufReadRemaining then throw .assertion
  if bufferSize < n then throw .assertion
  if n = 0 then return 0
  if input.rbufReadRemaining < n then return -1
  let toEnd := input.rbufReadToEnd
  let toEnd := if n < toEnd then n else toEnd
  let result ← input.strncmpAt (input.readPosition % bufferSize) with_
    (sizeT toEnd)
  let n := n - toEnd
  if n = 0 ∨ result ≠ 0 then return result
  input.strncmpAt 0 (with_.drop toEnd.toNat) (sizeT n)

end ReadBuffer

/-- How `rbuf_strntol` ends: it stores a number and returns true, returns
false, or does what has no meaning. -/
inductive Parsed
  | number (value : Int)
  | rejected
  | outside
  | overflow
  | assertion
  deriving DecidableEq

namespace ReadBuffer

def intMax : Int := 2147483647

/-- `while (n--)` over the digits from the cell that `cells` cells precede the
end of the array, with the cells that are inspected.  A negative `n` does not
end the loop inside the array. -/
def scanDigits (input : ReadBuffer) : Nat → Int → Int → Parsed × List Nat
  | 0, n, result =>
      if n = 0 then (.number result, []) else (.outside, [bufferSize])
  | cells + 1, n, result =>
      let index := bufferSize - (cells + 1)
      if n = 0 then (.number result, [])
      else if intMax < result * 10 then (.overflow, [])
      else if ¬isDigit (input.buffer index) then (.rejected, [index])
      else
        let result := result * 10 + ((input.buffer index).toNat - 48)
        if intMax < result then (.overflow, [index])
        else
          let (parsed, inspected) := scanDigits input cells (n - 1) result
          (parsed, index :: inspected)

def rbufStrntol (input : ReadBuffer) (max : Int) : Parsed × List Nat :=
  if bufferSize < input.rbufReadRemaining then (.assertion, [])
  else
    let toEnd := input.rbufReadToEnd
    let (n, max) :=
      if max ≠ -1 ∧ max < toEnd then (max, max - max) else (toEnd, max)
    match input.scanDigits input.cellsToEnd n 0 with
    | (.number result, inspected) =>
        if max ≠ 0 then
          -- `while (n--)` has left `n` at -1
          let n := input.rbufReadRemaining - (-1 : Int)
          let (parsed, more) := input.scanDigits bufferSize n result
          (parsed, inspected ++ more)
        else (.number result, inspected)
    | stopped => stopped

section Content

variable {input : ReadBuffer}

theorem length_content (input : ReadBuffer) :
    input.content.length = input.rbufReadRemaining := by
  simp [content]

theorem Valid.holds (valid : input.Valid) : input.Holds input.content := by
  obtain ⟨readLt, writeLt, remaining⟩ := valid
  refine ⟨readLt, ?_, ?_, ?_⟩
  · rw [length_content]
    exact remaining
  · rw [length_content]
    unfold rbufReadRemaining u16
    omega
  · intro offset inRange
    simp [content, bufferSize]

/-- The logical content of a valid buffer is unique. -/
theorem Holds.eq_content {bytes : Bytes} (holds : input.Holds bytes) :
    bytes = input.content := by
  apply List.ext_getElem
  · rw [length_content, holds.readRemaining]
  · intro offset inRange _
    rw [← holds.byte_eq offset inRange]
    simp [content, bufferSize]

theorem Holds.valid {bytes : Bytes} (holds : input.Holds bytes) :
    input.Valid where
  read_lt := holds.read_lt
  write_lt := by
    rw [holds.write_eq]
    exact Nat.mod_lt _ (by decide)
  remaining_le := by
    rw [holds.readRemaining]
    exact holds.length_le

end Content

section Consumer

variable {input : ReadBuffer} {bytes : Bytes}

/-- `rbuf_read_to_end` is right exactly when a full buffer starts at its first
cell and its end does not wrap. -/
theorem Holds.readToEnd_iff (holds : input.Holds bytes) :
    input.rbufReadToEnd = min bytes.length input.cellsToEnd ↔
      input.Straight := by
  constructor
  · intro isMin full
    rw [holds.readRemaining] at full
    obtain ⟨readLt, lengthLe, writeEq, -⟩ := holds
    unfold rbufReadToEnd cellsToEnd bufferSize at isMin
    unfold bufferSize at full ⊢
    dsimp only at isMin
    split at isMin <;> omega
  · intro straight
    rw [holds.readToEnd straight]
    unfold cellsToEnd bufferSize
    omega

theorem copyFrom_ok {index count : Nat} (inside : index + count ≤ bufferSize) :
    input.copyFrom index count =
      .ok ((List.range count).map fun offset =>
        input.buffer (index + offset)) := by
  unfold copyFrom
  have each : ∀ offsets : List Nat, (∀ offset ∈ offsets, offset < count) →
      offsets.mapM (fun offset => input.readByte (index + offset)) =
        .ok (offsets.map fun offset => input.buffer (index + offset)) := by
    intro offsets
    induction offsets with
    | nil => exact fun _ => rfl
    | cons offset offsets ih =>
        intro bounded
        have first := bounded offset List.mem_cons_self
        rw [List.mapM_cons, ih fun other member =>
          bounded other (List.mem_cons_of_mem _ member)]
        unfold readByte
        rw [if_pos (by omega)]
        rfl
  exact each _ fun offset member => List.mem_range.mp member

/-- The first cells hold the first bytes. -/
theorem Holds.front (holds : input.Holds bytes) {count : Nat}
    (available : count ≤ bytes.length) (inside : count ≤ input.cellsToEnd) :
    ((List.range count).map fun offset =>
      input.buffer (input.readPosition % bufferSize + offset)) =
        bytes.take count :=
  holds.bytesAt available inside

/-- From the first cell of the array on lie the bytes after them. -/
theorem Holds.wrapped (holds : input.Holds bytes) {count : Nat}
    (available : input.cellsToEnd + count ≤ bytes.length) :
    ((List.range count).map fun offset => input.buffer (0 + offset)) =
      (bytes.drop input.cellsToEnd).take count := by
  unfold cellsToEnd bufferSize at available ⊢
  apply List.ext_getElem
  · rw [List.length_map, List.length_range, List.length_take,
      List.length_drop]
    omega
  · intro offset inRange _
    rw [List.length_map, List.length_range] at inRange
    rw [List.getElem_map, List.getElem_range, List.getElem_take,
      List.getElem_drop, ← holds.byte_eq _ (by omega)]
    congr 1
    have lengthLe := holds.length_le
    omega

/-- `strncmp` inside the array. -/
theorem strncmpAt_ok {index : Nat} {with_ : Bytes} {count : Nat}
    (inside : index + count ≤ bufferSize) (enough : count ≤ with_.length)
    (plain : ∀ char ∈ with_.take count, char ≠ 0) :
    ∃ result, input.strncmpAt index with_ count = .ok result ∧
      (result = 0 ↔ with_.take count =
        (List.range count).map fun offset =>
          input.buffer (index + offset)) := by
  induction count generalizing index with_ with
  | zero => exact ⟨0, rfl, by simp⟩
  | succ count ih =>
      cases with_ with
      | nil => simp at enough
      | cons char rest =>
          have shifted : ((List.range (count + 1)).map fun offset =>
              input.buffer (index + offset)) = input.buffer index ::
                (List.range count).map fun offset =>
                  input.buffer (index + 1 + offset) := by
            rw [List.range_succ_eq_map, List.map_cons, List.map_map]
            congr 1
            apply List.map_congr_left
            intro offset _
            simp only [Function.comp]
            congr 1
            omega
          have nonzero : char ≠ 0 := plain char (by simp)
          have reads : input.readByte index = .ok (input.buffer index) := by
            unfold readByte
            rw [if_pos (by omega)]
          rw [shifted]
          unfold strncmpAt
          rw [reads]
          simp only [bind, Except.bind, List.take_succ_cons, List.cons.injEq]
          by_cases same : char = input.buffer index
          · obtain ⟨result, runs, isZero⟩ := @ih (index + 1) rest
              (by omega) (by simpa using enough)
              fun other member => plain other (by simp [member])
            refine ⟨result, ?_, ?_⟩
            · rw [if_neg (by simpa using same), if_neg nonzero]
              exact runs
            · rw [isZero]
              exact ⟨fun rest => ⟨same, rest⟩, And.right⟩
          · refine ⟨(char.toNat : Int) - (input.buffer index).toNat, ?_, ?_⟩
            · rw [if_pos same]
              rfl
            · constructor
              · intro equal
                have : char.toNat = (input.buffer index).toNat := by omega
                exact absurd (UInt8.toNat_inj.mp this) same
              · exact fun both => absurd both.1 same

theorem sizeT_ofNat {count : Nat} (small : count ≤ 16384) :
    sizeT count = count := by
  unfold sizeT
  omega

/-- Copying from a straight buffer. -/
theorem Holds.copyn (holds : input.Holds bytes) (straight : input.Straight)
    {n : Nat} (small : n ≤ 16384) :
    input.rbufCopyn n =
      if input.cellsToEnd < n ∧ n < bytes.length then .error .assertion
      else .ok (min n bytes.length, bytes.take n) := by
  have remaining := holds.readRemaining
  have toEnd := (holds.readToEnd_iff.mpr straight)
  have lengthLe := holds.length_le
  have cells : input.cellsToEnd ≤ 16384 ∧ 0 < input.cellsToEnd ∧
      input.readPosition % bufferSize + input.cellsToEnd = bufferSize := by
    unfold cellsToEnd bufferSize
    omega
  have bound : bufferSize = 16384 := rfl
  have nonneg : ¬((n : Int) < 0) := by omega
  have noOverflow : ¬(bufferSize < bytes.length) := by omega
  have notLarge : ¬((bufferSize : Int) < n) := by omega
  unfold rbufCopyn
  rw [toEnd, remaining]
  simp only [bind, Except.bind, pure, Except.pure, throw, throwThe,
    MonadExceptOf.throw, if_neg nonneg, if_neg noOverflow, if_neg notLarge]
  by_cases none_ : n = 0
  · subst none_
    rw [if_pos (by omega), if_neg (by omega)]
    simp
  rw [if_neg (by omega)]
  by_cases onePiece : n ≤ min bytes.length input.cellsToEnd
  · have whole : ¬((n : Int) > (min bytes.length input.cellsToEnd : Nat)) := by
      omega
    simp only [if_neg whole, sizeT_ofNat small]
    rw [copyFrom_ok (by omega), holds.front (by omega) (by omega)]
    simp only [sub_self, if_true]
    rw [if_neg (by omega)]
    congr 2
    omega
  have beyond : (n : Int) > (min bytes.length input.cellsToEnd : Nat) := by omega
  simp only [if_pos beyond]
  rw [sizeT_ofNat (by omega), copyFrom_ok (by omega),
    holds.front (by omega) (by omega)]
  dsimp only
  rw [if_neg (by omega)]
  by_cases straightOn : bytes.length ≤ input.cellsToEnd
  · rw [if_pos (by omega), if_neg (by omega), Nat.min_eq_left straightOn,
      List.take_length, List.take_of_length_le (by omega)]
    congr 2
    omega
  rw [if_neg (by omega), Nat.min_eq_right (by omega)]
  by_cases between : n < bytes.length
  · rw [if_pos (by omega), if_pos (by omega)]
  have rest : ((bytes.length : Int) - input.cellsToEnd) =
      (bytes.length - input.cellsToEnd : Nat) := by omega
  rw [if_neg (by omega), if_neg (by omega), rest]
  rw [sizeT_ofNat (by omega), copyFrom_ok (by omega), holds.wrapped (by omega)]
  have all : bytes.take input.cellsToEnd ++ (bytes.drop input.cellsToEnd).take
      (bytes.length - input.cellsToEnd) = bytes := by
    rw [← List.length_drop, List.take_length, List.take_append_drop]
  dsimp only
  rw [all, List.take_of_length_le (by omega), if_neg (by omega), ← rest]
  congr 2
  omega

/-- Two fronts agree when they agree before and after a place. -/
theorem take_eq_iff {first second : Bytes} {place n : Nat} (le : place ≤ n) :
    first.take n = second.take n ↔ second.take place = first.take place ∧
      (second.drop place).take (n - place) =
        (first.drop place).take (n - place) := by
  constructor
  · intro same
    refine ⟨?_, ?_⟩
    · have taken := congrArg (List.take place) same
      rw [List.take_take, List.take_take, Nat.min_eq_left le] at taken
      exact taken.symm
    · rw [← List.drop_take, ← List.drop_take, same]
  · rintro ⟨before, behind⟩
    obtain ⟨more, rfl⟩ := Nat.exists_eq_add_of_le le
    rw [Nat.add_sub_cancel_left] at behind
    rw [List.take_add, List.take_add, before, behind]

/-- Comparing with the bytes of a straight buffer. -/
theorem Holds.cmpn (holds : input.Holds bytes) (straight : input.Straight)
    {with_ : Bytes} {n : Nat} (small : n ≤ 16384) (enough : n ≤ with_.length)
    (plain : ∀ char ∈ with_.take n, char ≠ 0) :
    ∃ result, input.rbufCmpn with_ n = .ok result ∧
      (result = 0 ↔ n ≤ bytes.length ∧ bytes.take n = with_.take n) := by
  have remaining := holds.readRemaining
  have toEnd := (holds.readToEnd_iff.mpr straight)
  have lengthLe := holds.length_le
  have cells : input.cellsToEnd ≤ 16384 ∧ 0 < input.cellsToEnd ∧
      input.readPosition % bufferSize + input.cellsToEnd = bufferSize := by
    unfold cellsToEnd bufferSize
    omega
  have bound : bufferSize = 16384 := rfl
  have nonneg : ¬((n : Int) < 0) := by omega
  have noOverflow : ¬(bufferSize < bytes.length) := by omega
  have notLarge : ¬((bufferSize : Int) < n) := by omega
  unfold rbufCmpn
  rw [toEnd, remaining]
  simp only [bind, Except.bind, pure, Except.pure, throw, throwThe,
    MonadExceptOf.throw, if_neg nonneg, if_neg noOverflow, if_neg notLarge]
  by_cases none_ : n = 0
  · subst none_
    exact ⟨0, by simp, by simp⟩
  rw [if_neg (by omega)]
  by_cases short : bytes.length < n
  · rw [if_pos (by omega)]
    exact ⟨-1, rfl, by constructor <;> omega⟩
  rw [if_neg (by omega)]
  by_cases onePiece : n ≤ input.cellsToEnd
  · have piece : (if (n : Int) < (min bytes.length input.cellsToEnd : Nat) then
        (n : Int) else (min bytes.length input.cellsToEnd : Nat)) = n := by
      split <;> omega
    rw [piece, sizeT_ofNat small]
    obtain ⟨result, compares, isZero⟩ := @strncmpAt_ok input
      (input.readPosition % bufferSize) _ _ (by omega) enough plain
    rw [holds.front (by omega) onePiece] at isZero
    rw [compares]
    dsimp only
    rw [if_pos (by omega)]
    refine ⟨result, rfl, isZero.trans ⟨fun same => ⟨by omega, same.symm⟩,
      fun same => same.2.symm⟩⟩
  have piece : (if (n : Int) < (min bytes.length input.cellsToEnd : Nat) then
      (n : Int) else (min bytes.length input.cellsToEnd : Nat)) =
        input.cellsToEnd := by
    split <;> omega
  rw [piece, sizeT_ofNat cells.1]
  have plainFirst : ∀ char ∈ with_.take input.cellsToEnd, char ≠ 0 :=
    fun char member =>
      plain char ((List.take_subset_take_left _ (by omega)) member)
  obtain ⟨result, compares, isZero⟩ := @strncmpAt_ok input
    (input.readPosition % bufferSize) _ _ (by omega) (by omega) plainFirst
  rw [holds.front (by omega) le_rfl] at isZero
  rw [compares]
  dsimp only
  have split_ := @take_eq_iff bytes with_ _ _
    (show input.cellsToEnd ≤ n by omega)
  by_cases differs : result = 0
  · rw [if_neg (by omega)]
    have count : ((n : Int) - input.cellsToEnd) =
        (n - input.cellsToEnd : Nat) := by omega
    rw [count, sizeT_ofNat (by omega), Int.toNat_natCast]
    have plainRest : ∀ char ∈ (with_.drop input.cellsToEnd).take
        (n - input.cellsToEnd), char ≠ 0 := by
      intro char member
      refine plain char ?_
      rw [List.take_drop, Nat.add_sub_cancel' (by omega)] at member
      exact List.mem_of_mem_drop member
    obtain ⟨second, comparesRest, isZeroRest⟩ := @strncmpAt_ok input
      0 (with_.drop input.cellsToEnd) (n - input.cellsToEnd) (by omega)
      (by rw [List.length_drop]; omega) plainRest
    rw [holds.wrapped (by omega)] at isZeroRest
    refine ⟨second, comparesRest, ?_⟩
    rw [isZeroRest, split_]
    exact ⟨fun same => ⟨by omega, isZero.mp differs, same⟩,
      fun same => same.2.2⟩
  · rw [if_pos (Or.inr differs)]
    refine ⟨result, rfl, ⟨fun zero => absurd zero differs, fun same => ?_⟩⟩
    exact isZero.mpr (split_.mp same.2).1

/-- What the reading functions promise for `n` bytes and a string. -/
structure ReadsWell (input : ReadBuffer) (n : Nat) (with_ : Bytes) : Prop where
  toEnd : input.rbufReadToEnd =
    min input.content.length (bufferSize - input.readPosition % bufferSize)
  copyn : input.rbufCopyn n =
    .ok (min n input.content.length, input.content.take n)
  cmpn : input.rbufCmpn with_ n = .ok 0 ↔
    n ≤ input.content.length ∧ input.content.take n = with_.take n

/-- The reading functions keep their promises exactly when the buffer is
straight and `n` bytes are not more than one piece and less than all. -/
theorem readsWell_iff (input : ReadBuffer) (valid : input.Valid) (n : Nat)
    (small : n ≤ bufferSize) (with_ : Bytes) (enough : n ≤ with_.length)
    (plain : ∀ char ∈ with_.take n, char ≠ 0) :
    input.ReadsWell n with_ ↔ input.Straight ∧
      ¬(input.cellsToEnd < n ∧ n < input.content.length) := by
  have holds := valid.holds
  constructor
  · rintro ⟨toEnd, copyn, -⟩
    have straight : input.Straight :=
      holds.readToEnd_iff.mp (by rw [toEnd]; unfold cellsToEnd; omega)
    refine ⟨straight, fun between => ?_⟩
    rw [holds.copyn straight small, if_pos between] at copyn
    simp at copyn
  · rintro ⟨straight, outside⟩
    refine ⟨?_, ?_, ?_⟩
    · rw [holds.readToEnd_iff.mpr straight]
      unfold cellsToEnd
      omega
    · rw [holds.copyn straight small, if_neg outside]
    · obtain ⟨result, compares, isZero⟩ :=
        holds.cmpn straight small enough plain
      rw [compares, ← isZero]
      exact ⟨Except.ok.inj, congrArg Except.ok⟩

/-- Two bytes of three that lie on both sides of the end of the array. -/
def wrappedBuffer : ReadBuffer where
  buffer := fun _ => 120
  readPosition := 16383
  writePosition := 16386

/-- All three bytes can be read. -/
theorem readsWell_iff_wrapped : wrappedBuffer.ReadsWell 3 [120, 120, 120] :=
  (readsWell_iff wrappedBuffer ⟨by decide, by decide, by decide⟩ 3 (by decide)
    [120, 120, 120] (by decide +kernel) (by decide +kernel)).mpr (by decide)

/-- Copying two of them fails an assertion. -/
theorem readsWell_lost : wrappedBuffer.Valid ∧
    ¬wrappedBuffer.ReadsWell 2 [120, 120] := by
  refine ⟨⟨by decide, by decide, by decide⟩, fun reads => ?_⟩
  have copied := reads.copyn
  have fails : wrappedBuffer.rbufCopyn 2 = .error .assertion := by
    decide +kernel
  rw [show ((2 : Nat) : Int) = 2 from rfl, fails] at copied
  simp at copied

end Consumer

section Producer

variable {input : ReadBuffer}

/-- `count` cells from `RBUF_WRITE` on are in the array, and hold nothing that
is still to be read. -/
def FreeRegion (input : ReadBuffer) (count : Nat) : Prop :=
  ∀ index < count, input.writePosition % bufferSize + index < bufferSize ∧
    ∀ offset < input.content.length,
      (input.readPosition + offset) % bufferSize ≠
        input.writePosition % bufferSize + index

/-- `rbuf_write_to_end` is the size of the largest free region. -/
theorem Valid.freeRegion_iff (valid : input.Valid) (count : Nat) :
    input.FreeRegion count ↔ count ≤ input.rbufWriteToEnd := by
  obtain ⟨readLt, lengthLe, writeEq, -⟩ := valid.holds
  unfold FreeRegion rbufWriteToEnd bufferSize
  dsimp only
  constructor
  · intro free
    by_contra beyond
    rw [not_le] at beyond
    split at beyond
    · next behind =>
        -- the cell after the region is the first that is still to be read
        have first := (free _ beyond).2 0 (by omega)
        omega
    · have last := (free _ beyond).1
      omega
  · intro le index inRegion
    split at le
    · refine ⟨by omega, fun offset inRange => ?_⟩
      omega
    · refine ⟨by omega, fun offset inRange => ?_⟩
      omega

theorem Valid.writeToEnd_eq_zero_iff (valid : input.Valid) :
    input.rbufWriteToEnd = 0 ↔ input.content.length = bufferSize := by
  obtain ⟨readLt, lengthLe, writeEq, -⟩ := valid.holds
  unfold rbufWriteToEnd bufferSize
  dsimp only
  split <;> omega

/-- The region that a socket is read into is the largest free one, it is empty
only in a full buffer, and what is stored in it goes behind what is there. -/
theorem write_of_valid (input : ReadBuffer) (valid : input.Valid) :
    (∀ count, input.FreeRegion count ↔ count ≤ input.rbufWriteToEnd) ∧
      (input.rbufWriteToEnd = 0 ↔ input.content.length = bufferSize) ∧
      ∀ bytes : Bytes, bytes.length ≤ input.rbufWriteToEnd →
        (input.store bytes).Valid ∧
          (input.store bytes).content = input.content ++ bytes := by
  refine ⟨valid.freeRegion_iff, valid.writeToEnd_eq_zero_iff, ?_⟩
  intro bytes fits
  have holds := valid.holds.store fits
  exact ⟨holds.valid, holds.eq_content.symm⟩

/-- A buffer whose content wraps, with a byte more. -/
theorem write_of_valid_wrapped :
    (wrappedBuffer.store [121]).content = wrappedBuffer.content ++ [121] :=
  ((write_of_valid wrappedBuffer ⟨by decide, by decide, by decide⟩).2.2 [121]
    (by decide)).2

end Producer

/-- Bytes are stored behind the content, or consumed from its front. -/
inductive Move
  | write (bytes : Bytes)
  | read (count : Nat)

def move (input : ReadBuffer) : Move → ReadBuffer
  | .write bytes => input.store bytes
  | .read count => input.readMove count

/-- The region has room for what is written, and what is read is there. -/
def Permits (input : ReadBuffer) : Move → Prop
  | .write bytes => bytes.length ≤ input.rbufWriteToEnd
  | .read count => count ≤ input.rbufReadRemaining

/-- What a move does to a queue. -/
def queueMove (queue : Bytes) : Move → Bytes
  | .write bytes => queue ++ bytes
  | .read count => queue.drop count

/-- The buffer as a machine. -/
def ring : Machine ReadBuffer Move Empty where
  initial := Valid
  step := fun input next => .ok (input.move next)

theorem Holds.move {input : ReadBuffer} {queue : Bytes}
    (holds : input.Holds queue) {next : Move} (permits : input.Permits next) :
    (input.move next).Holds (queueMove queue next) := by
  cases next with
  | write bytes => exact holds.store permits
  | read count =>
      exact holds.readMove (holds.readRemaining ▸ permits)

/-- The buffer is a queue through every run of permitted moves. -/
theorem holds_of_run {input final : ReadBuffer} {queue : Bytes}
    {moves : List Move} (holds : input.Holds queue)
    (permitted : ring.Along Permits input moves)
    (run : ring.run input moves = .ok final) :
    final.Holds (moves.foldl queueMove queue) := by
  induction moves generalizing input queue with
  | nil =>
      obtain rfl := Except.ok.inj run
      exact holds
  | cons next moves ih =>
      obtain ⟨moved, stepped, rest⟩ := Machine.run_cons.mp run
      obtain rfl := Except.ok.inj stepped
      exact ih (holds.move permitted.1) (permitted.2 _ rfl) rest

end ReadBuffer

end SimpleCache
