import SimpleCache.Ring
import Mathlib.Data.FinEnum
import Mathlib.Data.Finset.Card
import Mathlib.Data.Finset.Range
import Mathlib.Data.List.TakeWhile

/-!
# Numbers in the read buffer

When `rbuf_strntol` extracts the number at the front of the buffer, and what
else it looks at.
-/

namespace SimpleCache

namespace ReadBuffer

variable {input : ReadBuffer} {bytes : Bytes}

/-- The value of digits behind others. -/
def accumulate (result : Nat) (digits : Bytes) : Nat :=
  digits.foldl (fun value digit => 10 * value + (digit.toNat - 48)) result

theorem accumulate_cons (result : Nat) (digit : UInt8) (digits : Bytes) :
    accumulate result (digit :: digits) =
      accumulate (10 * result + (digit.toNat - 48)) digits :=
  List.foldl_cons ..

theorem accumulate_append (result : Nat) (first second : Bytes) :
    accumulate result (first ++ second) =
      accumulate (accumulate result first) second :=
  List.foldl_append

theorem le_accumulate (result : Nat) (digits : Bytes) :
    result ≤ accumulate result digits := by
  induction digits generalizing result with
  | nil => exact le_rfl
  | cons digit digits ih =>
      rw [accumulate_cons]
      exact le_trans (by omega) (ih _)

theorem isDigit_iff {byte : UInt8} :
    isDigit byte = true ↔ 48 ≤ byte.toNat ∧ byte.toNat ≤ 57 := by
  unfold isDigit
  rw [decide_eq_true_iff, UInt8.le_iff_toNat_le, UInt8.le_iff_toNat_le]
  rfl

/-- The cells before the end of the array hold these bytes. -/
def Located (input : ReadBuffer) (cells : Nat) (bytes : Bytes) : Prop :=
  bytes.length ≤ cells ∧ cells ≤ bufferSize ∧
    ∀ offset (inRange : offset < bytes.length),
      input.buffer (bufferSize - cells + offset) = bytes[offset]

theorem Located.tail {cells : Nat} {byte : UInt8}
    (located : input.Located (cells + 1) (byte :: bytes)) :
    input.buffer (bufferSize - (cells + 1)) = byte ∧
      input.Located cells bytes := by
  obtain ⟨length, cellsLe, atCell⟩ := located
  refine ⟨atCell 0 (by simp), by simpa using length, by omega, ?_⟩
  intro offset inRange
  have next := atCell (offset + 1) (by simpa using inRange)
  rw [List.getElem_cons_succ] at next
  rw [← next]
  congr 1
  omega

/-- The cells of `count` bytes. -/
def cellsFrom (cells count : Nat) : List Nat :=
  (List.range count).map (bufferSize - cells + ·)

theorem cellsFrom_succ {cells count : Nat} (inside : cells + 1 ≤ bufferSize) :
    cellsFrom (cells + 1) (count + 1) =
      (bufferSize - (cells + 1)) :: cellsFrom cells count := by
  unfold cellsFrom
  rw [List.range_succ_eq_map, List.map_cons, List.map_map]
  congr 1
  apply List.map_congr_left
  intro offset _
  simp only [Function.comp]
  omega

theorem scanDigits_zero (cells : Nat) (result : Int) :
    input.scanDigits cells 0 result = (.number result, []) := by
  cases cells <;> simp [scanDigits]

/-- The loop passes digits whose number fits. -/
theorem Located.scan {cells : Nat} {digits : Bytes} {n : Int} {result : Nat}
    (located : input.Located cells digits)
    (all : ∀ digit ∈ digits, isDigit digit = true)
    (goes : n < 0 ∨ (digits.length : Int) ≤ n)
    (fits : (accumulate result digits : Int) ≤ intMax) :
    input.scanDigits cells n result =
      ((input.scanDigits (cells - digits.length) (n - digits.length)
          (accumulate result digits)).1,
        cellsFrom cells digits.length ++
          (input.scanDigits (cells - digits.length) (n - digits.length)
            (accumulate result digits)).2) := by
  induction digits generalizing cells n result with
  | nil => simp [accumulate, cellsFrom]
  | cons digit digits ih =>
      obtain ⟨cells, rfl⟩ : ∃ fewer, cells = fewer + 1 :=
        ⟨cells - 1, by have := located.1; simp at this; omega⟩
      have inside := located.2.1
      obtain ⟨atCell, rest⟩ := located.tail
      have isDig := isDigit_iff.mp (all digit List.mem_cons_self)
      rw [accumulate_cons] at fits ⊢
      have reached := le_accumulate (10 * result + (digit.toNat - 48)) digits
      have value : (result : Int) * 10 + ((digit.toNat : Int) - 48) =
          ((10 * result + (digit.toNat - 48) : Nat) : Int) := by omega
      have length : (digit :: digits).length = digits.length + 1 := rfl
      have goesRest : n - 1 < 0 ∨ (digits.length : Int) ≤ n - 1 := by
        rw [length] at goes
        omega
      have step := ih (n := n - 1) rest
        (fun other member => all other (List.mem_cons_of_mem _ member))
        goesRest fits
      have count : n - 1 - (digits.length : Int) =
          n - ((digit :: digits).length : Nat) := by
        rw [length]
        omega
      have cellsLeft : cells + 1 - (digit :: digits).length =
          cells - digits.length := by
        rw [length]
        omega
      rw [count] at step
      rw [cellsLeft, length, cellsFrom_succ inside]
      conv_lhs => unfold scanDigits
      dsimp only
      rw [atCell, if_neg (by rw [length] at goes; omega), if_neg (by omega),
        if_neg (by simpa using all digit List.mem_cons_self), value,
        if_neg (by omega), step]
      rfl

/-- The loop does not pass digits whose number does not fit. -/
theorem Located.overflows {cells : Nat} {digits : Bytes} {n : Int}
    {result : Nat} (located : input.Located cells digits)
    (all : ∀ digit ∈ digits, isDigit digit = true)
    (goes : n < 0 ∨ (digits.length : Int) ≤ n)
    (start : (result : Int) ≤ intMax)
    (large : intMax < (accumulate result digits : Int)) :
    (input.scanDigits cells n result).1 = .overflow := by
  induction digits generalizing cells n result with
  | nil =>
      change intMax < (result : Int) at large
      omega
  | cons digit digits ih =>
      obtain ⟨cells, rfl⟩ : ∃ fewer, cells = fewer + 1 :=
        ⟨cells - 1, by have := located.1; simp at this; omega⟩
      obtain ⟨atCell, rest⟩ := located.tail
      have isDig := isDigit_iff.mp (all digit List.mem_cons_self)
      rw [accumulate_cons] at large
      have value : (result : Int) * 10 + ((digit.toNat : Int) - 48) =
          ((10 * result + (digit.toNat - 48) : Nat) : Int) := by omega
      have length : (digit :: digits).length = digits.length + 1 := rfl
      rw [length] at goes
      unfold scanDigits
      dsimp only
      rw [atCell, if_neg (by omega)]
      split
      · rfl
      rw [if_neg (by simpa using all digit List.mem_cons_self), value]
      split
      · rfl
      · next fits =>
          exact ih (n := n - 1) rest
            (fun other member => all other (List.mem_cons_of_mem _ member))
            (by omega) (by omega) large

/-- The loop ends at a byte that is no digit. -/
theorem Located.stops {cells : Nat} {byte : UInt8} {n : Int} {result : Int}
    (located : input.Located (cells + 1) [byte]) (other : isDigit byte = false)
    (goes : n ≠ 0) :
    input.scanDigits (cells + 1) n result =
      if intMax < result * 10 then (.overflow, [])
      else (.rejected, [bufferSize - (cells + 1)]) := by
  obtain ⟨atCell, -⟩ := located.tail
  unfold scanDigits
  dsimp only
  rw [atCell, if_neg goes]
  simp [other]

/-- A number comes from as many cells as the loop was to read. -/
theorem scanDigits_number {cells : Nat} {n result value : Int}
    {inspected : List Nat} (inside : cells ≤ bufferSize)
    (scan : input.scanDigits cells n result = (.number value, inspected)) :
    ∃ count : Nat, n = count ∧ count ≤ cells ∧
      inspected = cellsFrom cells count := by
  induction cells generalizing n result inspected with
  | zero =>
      unfold scanDigits at scan
      split at scan
      · next isZero =>
          obtain ⟨-, rfl⟩ := Prod.mk.inj scan
          exact ⟨0, isZero, le_rfl, rfl⟩
      · simp at scan
  | succ cells ih =>
      unfold scanDigits at scan
      dsimp only at scan
      split at scan
      · next isZero =>
          obtain ⟨-, rfl⟩ := Prod.mk.inj scan
          exact ⟨0, isZero, by omega, rfl⟩
      split at scan
      · simp at scan
      split at scan
      · simp at scan
      split at scan
      · simp at scan
      · obtain ⟨parsed, rfl⟩ := Prod.mk.inj scan
        obtain ⟨count, isCount, le, same⟩ := ih (by omega)
          (Prod.ext parsed rfl)
        refine ⟨count + 1, by omega, by omega, ?_⟩
        rw [cellsFrom_succ inside]
        exact congrArg _ same

/-- A rejection comes from a byte that is no digit. -/
theorem scanDigits_rejected {cells : Nat} {n result : Int}
    {inspected : List Nat} (inside : cells ≤ bufferSize)
    (scan : input.scanDigits cells n result = (.rejected, inspected)) :
    ∃ offset < cells, bufferSize - cells + offset ∈ inspected ∧
      isDigit (input.buffer (bufferSize - cells + offset)) = false := by
  induction cells generalizing n result inspected with
  | zero =>
      unfold scanDigits at scan
      split at scan <;> simp at scan
  | succ cells ih =>
      unfold scanDigits at scan
      dsimp only at scan
      split at scan
      · simp at scan
      split at scan
      · simp at scan
      split at scan
      · next other =>
          obtain ⟨-, rfl⟩ := Prod.mk.inj scan
          exact ⟨0, by omega, List.mem_singleton.mpr rfl, by simpa using other⟩
      split at scan
      · simp at scan
      · obtain ⟨parsed, rfl⟩ := Prod.mk.inj scan
        obtain ⟨offset, within, member, other⟩ := ih (by omega)
          (Prod.ext parsed rfl)
        have place : bufferSize - (cells + 1) + (offset + 1) =
            bufferSize - cells + offset := by omega
        refine ⟨offset + 1, by omega, ?_, ?_⟩
        · rw [place]
          exact List.mem_cons_of_mem _ member
        · rw [place]
          exact other

/-- How many bytes a number has to come from. -/
def extractLength (input : ReadBuffer) (max : Int) : Nat :=
  if max = -1 then input.content.length else max.toNat

/-- The limit is below what the buffer reports to be in one piece. -/
def Limited (input : ReadBuffer) (max : Int) : Prop :=
  max ≠ -1 ∧ max < input.rbufReadToEnd

instance (input : ReadBuffer) (max : Int) : Decidable (input.Limited max) :=
  inferInstanceAs (Decidable (_ ∧ _))

/-- What the first loop counts down. -/
def firstCount (input : ReadBuffer) (max : Int) : Int :=
  if input.Limited max then max else input.rbufReadToEnd

theorem rbufStrntol_eq (valid : input.Valid) {max : Int} (nonzero : max ≠ 0) :
    input.rbufStrntol max =
      match input.scanDigits input.cellsToEnd (input.firstCount max) 0 with
      | (.number result, inspected) =>
          if input.Limited max then (.number result, inspected)
          else
            ((input.scanDigits bufferSize (input.rbufReadRemaining + 1)
                result).1,
              inspected ++ (input.scanDigits bufferSize
                (input.rbufReadRemaining + 1) result).2)
      | stopped => stopped := by
  unfold rbufStrntol
  rw [if_neg (not_lt.mpr valid.remaining_le)]
  by_cases limited : input.Limited max
  · have both : max ≠ -1 ∧ max < input.rbufReadToEnd := limited
    unfold firstCount
    simp only [if_pos both, if_pos limited, sub_self]
    rcases input.scanDigits input.cellsToEnd max 0 with ⟨parsed, inspected⟩
    cases parsed <;> simp
  · have neither : ¬(max ≠ -1 ∧ max < input.rbufReadToEnd) := limited
    unfold firstCount
    simp only [if_neg neither, if_neg limited, if_pos nonzero]
    rcases input.scanDigits input.cellsToEnd input.rbufReadToEnd 0 with
      ⟨parsed, inspected⟩
    cases parsed <;> simp

/-- What the buffer reports to be in one piece: what is, or for a full buffer
that is not straight a negative number or the whole buffer. -/
theorem Holds.readToEnd_cases (holds : input.Holds bytes) :
    (input.Straight ∧ input.rbufReadToEnd =
        min bytes.length input.cellsToEnd) ∨
      ¬input.Straight ∧ bytes.length = bufferSize ∧
        (input.rbufReadToEnd < 0 ∨ input.rbufReadToEnd = bufferSize ∧
          input.cellsToEnd < bufferSize) := by
  by_cases straight : input.Straight
  · exact Or.inl ⟨straight, holds.readToEnd_iff.mpr straight⟩
  · refine Or.inr ⟨straight, ?_⟩
    unfold Straight at straight
    rw [holds.readRemaining] at straight
    obtain ⟨readLt, lengthLe, writeEq, -⟩ := holds
    unfold rbufReadToEnd cellsToEnd
    unfold bufferSize at straight ⊢
    dsimp only
    split <;> omega

theorem cellsToEnd_le (input : ReadBuffer) :
    0 < input.cellsToEnd ∧ input.cellsToEnd ≤ bufferSize ∧
      bufferSize - input.cellsToEnd = input.readPosition % bufferSize := by
  unfold cellsToEnd bufferSize
  omega

/-- The cell of a byte in the first piece. -/
theorem first_cell {offset : Nat} (inside : offset < input.cellsToEnd) :
    bufferSize - input.cellsToEnd + offset =
      (input.readPosition + offset) % bufferSize := by
  unfold cellsToEnd bufferSize at *
  omega

/-- The cell of a byte behind the end of the array. -/
theorem second_cell {offset : Nat} (inside : offset < bufferSize) :
    bufferSize - bufferSize + offset =
      (input.readPosition + (input.cellsToEnd + offset)) % bufferSize := by
  unfold cellsToEnd bufferSize at *
  omega

theorem Holds.located (holds : input.Holds bytes) {count : Nat}
    (inside : count ≤ input.cellsToEnd) :
    input.Located input.cellsToEnd (bytes.take count) := by
  refine ⟨?_, input.cellsToEnd_le.2.1, ?_⟩
  · rw [List.length_take]
    omega
  · intro offset inRange
    rw [List.length_take] at inRange
    rw [first_cell (by omega), List.getElem_take]
    exact holds.byte_eq offset (by omega)

theorem Holds.locatedBehind (holds : input.Holds bytes) :
    input.Located bufferSize (bytes.drop input.cellsToEnd) := by
  have lengthLe : bytes.length ≤ bufferSize := holds.length_le
  refine ⟨?_, le_rfl, ?_⟩
  · rw [List.length_drop]
    omega
  · intro offset inRange
    rw [List.length_drop] at inRange
    rw [second_cell (by omega), List.getElem_drop]
    exact holds.byte_eq _ (by omega)

theorem Located.append {cells : Nat} {first second : Bytes}
    (located : input.Located cells (first ++ second)) :
    input.Located cells first ∧
      input.Located (cells - first.length) second := by
  obtain ⟨length, cellsLe, atCell⟩ := located
  rw [List.length_append] at length
  refine ⟨⟨by omega, cellsLe, ?_⟩, ⟨by omega, by omega, ?_⟩⟩
  · intro offset inRange
    have here := atCell offset (by rw [List.length_append]; omega)
    rw [here, List.getElem_append_left inRange]
  · intro offset inRange
    have here := atCell (first.length + offset)
      (by rw [List.length_append]; omega)
    rw [List.getElem_append_right (by omega)] at here
    simp only [Nat.add_sub_cancel_left] at here
    rw [← here]
    congr 1
    omega

/-- The number of the first bytes, if they are digits and it fits an `int`;
nothing else is looked at. -/
structure ExtractsWell (input : ReadBuffer) (max : Int) : Prop where
  parsed : (input.rbufStrntol max).1 =
    let front := input.content.take (input.extractLength max)
    if (∀ byte ∈ front, isDigit byte = true) ∧
        (digitsValue front : Int) ≤ intMax then
      .number (digitsValue front)
    else .rejected
  inspected : ∀ cell ∈ (input.rbufStrntol max).2,
    ∃ offset < input.extractLength max,
      cell = (input.readPosition + offset) % bufferSize

/-- The digits in front. -/
def leadingDigits (input : ReadBuffer) (max : Int) : Bytes :=
  (input.content.take (input.extractLength max)).takeWhile isDigit

/-- There is a byte that is no digit, whose predecessors are ten times below
the limit, and it is in the first piece or the buffer is straight; or there
are digits only, their number fits, and the limit is below what is in one
piece. -/
def Extractable (input : ReadBuffer) (max : Int) : Prop :=
  let digits := input.leadingDigits max
  if digits.length < input.extractLength max then
    (digitsValue digits * 10 : Int) ≤ intMax ∧
      (digits.length < input.cellsToEnd ∨ input.Straight)
  else
    (digitsValue digits : Int) ≤ intMax ∧ input.Limited max ∧
      max ≤ input.cellsToEnd

section Cases

variable {max : Int}

theorem digitsValue_eq (digits : Bytes) :
    digitsValue digits = accumulate 0 digits := rfl

/-- A byte in the first piece that is no digit. -/
theorem Holds.stops_first (holds : input.Holds bytes) {digits rest : Bytes}
    {byte : UInt8} (isBytes : bytes = digits ++ byte :: rest)
    (all : ∀ digit ∈ digits, isDigit digit = true)
    (other : isDigit byte = false)
    (inside : digits.length < input.cellsToEnd)
    (within : max = -1 ∨ digits.length < max) :
    if (digitsValue digits * 10 : Int) ≤ intMax then
      input.rbufStrntol max = (.rejected,
        cellsFrom input.cellsToEnd digits.length ++
          [bufferSize - input.cellsToEnd + digits.length])
    else (input.rbufStrntol max).1 = .overflow := by
  have located : input.Located input.cellsToEnd (digits ++ [byte]) := by
    have front := @Holds.located _ _ holds (digits.length + 1) inside
    have isFront : bytes.take (digits.length + 1) = digits ++ [byte] := by
      rw [isBytes, List.take_append, List.take_of_length_le (by omega)]
      simp
    rwa [isFront] at front
  obtain ⟨locatedDigits, locatedByte⟩ := located.append
  have available : digits.length < bytes.length := by
    rw [isBytes, List.length_append, List.length_cons]
    omega
  have goes : input.firstCount max < 0 ∨
      (digits.length : Int) < input.firstCount max := by
    unfold firstCount
    split
    · next limited => exact Or.inr (within.resolve_left limited.1)
    · have bound := holds.length_le
      have size : bufferSize = 16384 := rfl
      rcases holds.readToEnd_cases with ⟨-, isMin⟩ | ⟨-, full, negative | whole⟩
      · omega
      · exact Or.inl negative
      · omega
  have nonzero : max ≠ 0 := by omega
  rw [rbufStrntol_eq holds.valid nonzero]
  by_cases fits : (digitsValue digits : Int) ≤ intMax
  · have first := @Located.scan _ _ _ (input.firstCount max) 0
      locatedDigits all (by omega) fits
    obtain ⟨cells, isCells⟩ : ∃ cells,
        input.cellsToEnd - digits.length = cells + 1 :=
      ⟨input.cellsToEnd - digits.length - 1, by omega⟩
    rw [isCells] at first locatedByte
    have second := @Located.stops _ _ _
      (input.firstCount max - digits.length) (accumulate 0 digits) locatedByte
      other (by omega)
    have place : bufferSize - (cells + 1) =
        bufferSize - input.cellsToEnd + digits.length := by
      have le := input.cellsToEnd_le
      omega
    rw [second, place] at first
    have value : ((0 : Nat) : Int) = 0 := rfl
    rw [value, ← digitsValue_eq] at first
    rw [first]
    by_cases small : (digitsValue digits * 10 : Int) ≤ intMax
    · rw [if_pos small, if_neg (by omega)]
    · rw [if_neg small, if_pos (by omega)]
  · have first := @Located.overflows _ _ _ (input.firstCount max) 0
      locatedDigits all (by omega) (by decide) (by
        rw [← digitsValue_eq]
        omega)
    rw [if_neg (by omega)]
    have value : ((0 : Nat) : Int) = 0 := rfl
    rw [value] at first
    revert first
    rcases input.scanDigits input.cellsToEnd (input.firstCount max) 0 with
      ⟨parsed, inspected⟩
    rintro rfl
    rfl

/-- A byte behind the end of the array that is no digit. -/
theorem Holds.stops_second (holds : input.Holds bytes)
    (straight : input.Straight) {digits rest : Bytes} {byte : UInt8}
    (isBytes : bytes = digits ++ byte :: rest)
    (all : ∀ digit ∈ digits, isDigit digit = true)
    (other : isDigit byte = false)
    (behind : input.cellsToEnd ≤ digits.length)
    (within : max = -1 ∨ digits.length < max) :
    if (digitsValue digits * 10 : Int) ≤ intMax then
      input.rbufStrntol max = (.rejected,
        cellsFrom input.cellsToEnd input.cellsToEnd ++
          (cellsFrom bufferSize (digits.length - input.cellsToEnd) ++
            [bufferSize - bufferSize +
              (digits.length - input.cellsToEnd)]))
    else (input.rbufStrntol max).1 = .overflow := by
  have available : digits.length < bytes.length := by
    rw [isBytes, List.length_append, List.length_cons]
    omega
  have toEnd : input.rbufReadToEnd = input.cellsToEnd := by
    rw [holds.readToEnd_iff.mpr straight]
    omega
  have unlimited : ¬input.Limited max := by
    rintro ⟨limit, below⟩
    rw [toEnd] at below
    have beyond := within.resolve_left limit
    omega
  have count : input.firstCount max = input.cellsToEnd := by
    unfold firstCount
    rw [if_neg unlimited, toEnd]
  have lengthLe : bytes.length ≤ bufferSize := holds.length_le
  have cells := input.cellsToEnd_le
  -- the digits on both sides of the end of the array
  obtain ⟨first, second, isSplit, firstLength⟩ : ∃ first second,
      digits = first ++ second ∧ first.length = input.cellsToEnd :=
    ⟨digits.take input.cellsToEnd, digits.drop input.cellsToEnd,
      (List.take_append_drop ..).symm, by rw [List.length_take]; omega⟩
  have allFirst : ∀ digit ∈ first, isDigit digit = true := fun digit member =>
    all digit (isSplit ▸ List.mem_append_left _ member)
  have allSecond : ∀ digit ∈ second, isDigit digit = true :=
    fun digit member => all digit (isSplit ▸ List.mem_append_right _ member)
  have locatedFirst : input.Located input.cellsToEnd first := by
    have front := holds.located le_rfl
    rwa [isBytes, isSplit, List.append_assoc, ← firstLength,
      List.take_left, firstLength] at front
  have locatedSecond : input.Located bufferSize (second ++ ([byte] ++ rest)) := by
    have behindEnd := holds.locatedBehind
    rwa [isBytes, isSplit, List.append_assoc, ← firstLength,
      List.drop_left] at behindEnd
  obtain ⟨locatedDigits, locatedRest⟩ := locatedSecond.append
  obtain ⟨locatedByte, -⟩ := locatedRest.append
  have secondLength : second.length = digits.length - input.cellsToEnd := by
    rw [isSplit, List.length_append]
    omega
  have total : digitsValue digits = accumulate (accumulate 0 first) second := by
    rw [digitsValue_eq, isSplit, accumulate_append]
  have partial_ := le_accumulate (accumulate 0 first) second
  have nonzero : max ≠ 0 := by omega
  have zero : ((0 : Nat) : Int) = 0 := rfl
  rw [rbufStrntol_eq holds.valid nonzero, count, total]
  by_cases fitsFirst : (accumulate 0 first : Int) ≤ intMax
  · have scanFirst := @Located.scan _ _ _ input.cellsToEnd 0
      locatedFirst allFirst (by omega) fitsFirst
    rw [firstLength, Nat.sub_self, sub_self, scanDigits_zero, zero] at scanFirst
    rw [scanFirst]
    dsimp only
    rw [if_neg unlimited, holds.readRemaining, List.append_nil]
    by_cases fits : (accumulate (accumulate 0 first) second : Int) ≤ intMax
    · have scanSecond := @Located.scan _ _ _ (bytes.length + 1)
        (accumulate 0 first) locatedDigits allSecond (by omega) fits
      obtain ⟨left, isLeft⟩ : ∃ left,
          bufferSize - second.length = left + 1 :=
        ⟨bufferSize - second.length - 1, by omega⟩
      rw [isLeft] at scanSecond locatedByte
      have stopped := @Located.stops _ _ _ (bytes.length + 1 - second.length)
        (accumulate (accumulate 0 first) second) locatedByte other (by omega)
      have place : bufferSize - (left + 1) =
          bufferSize - bufferSize + (digits.length - input.cellsToEnd) := by
        omega
      rw [stopped, place] at scanSecond
      rw [scanSecond, secondLength]
      by_cases small :
          ((accumulate (accumulate 0 first) second : Nat) * 10 : Int) ≤ intMax
      · rw [if_pos small, if_neg (by omega)]
      · rw [if_neg small, if_pos (by omega)]
    · have scanSecond := @Located.overflows _ _ _ (bytes.length + 1)
        (accumulate 0 first) locatedDigits allSecond (by omega) fitsFirst (by omega)
      rw [if_neg (by omega)]
      exact scanSecond
  · have scanFirst := @Located.overflows _ _ _ input.cellsToEnd 0
      locatedFirst allFirst (by omega) (by decide) (by omega)
    rw [if_neg (by omega)]
    rw [zero] at scanFirst
    revert scanFirst
    rcases input.scanDigits input.cellsToEnd input.cellsToEnd 0 with
      ⟨parsed, inspected⟩
    rintro rfl
    rfl

/-- A number is read from digits only, within the limit and the first piece,
or the second loop reads as many cells as there are bytes, and one more. -/
theorem rbufStrntol_number (valid : input.Valid) (nonzero : max ≠ 0)
    {value : Int} (parsed : (input.rbufStrntol max).1 = .number value) :
    input.Limited max ∧ max ≤ input.cellsToEnd ∨
      ∀ cell ≤ input.content.length, cell ∈ (input.rbufStrntol max).2 := by
  rw [rbufStrntol_eq valid nonzero] at parsed ⊢
  cases first : input.scanDigits input.cellsToEnd (input.firstCount max) 0 with
  | mk outcome inspected =>
      cases outcome with
      | number result =>
          simp only [first] at parsed ⊢
          obtain ⟨count, isCount, le, -⟩ :=
            scanDigits_number input.cellsToEnd_le.2.1 first
          by_cases limited : input.Limited max
          · refine Or.inl ⟨limited, ?_⟩
            unfold firstCount at isCount
            rw [if_pos limited] at isCount
            omega
          · rw [if_neg limited] at parsed ⊢
            obtain ⟨more, isMore, -, cells⟩ :=
              scanDigits_number le_rfl (Prod.ext parsed rfl)
            refine Or.inr fun cell inRange => ?_
            have inMore : cell ∈ cellsFrom bufferSize more := by
              refine List.mem_map.mpr ⟨cell, ?_, ?_⟩
              · rw [List.mem_range]
                rw [length_content] at inRange
                omega
              · omega
            rw [← cells] at inMore
            exact List.mem_append_right _ inMore
      | _ =>
          simp only [first] at parsed
          simp at parsed

/-- A byte that is no digit was looked at when a number is rejected. -/
theorem rbufStrntol_rejected (valid : input.Valid) (nonzero : max ≠ 0)
    (parsed : (input.rbufStrntol max).1 = .rejected) :
    ∃ cell ∈ (input.rbufStrntol max).2,
      isDigit (input.buffer cell) = false := by
  rw [rbufStrntol_eq valid nonzero] at parsed ⊢
  cases first : input.scanDigits input.cellsToEnd (input.firstCount max) 0 with
  | mk outcome inspected =>
      cases outcome with
      | number result =>
          simp only [first] at parsed ⊢
          by_cases limited : input.Limited max
          · rw [if_pos limited] at parsed
            simp at parsed
          · rw [if_neg limited] at parsed ⊢
            obtain ⟨offset, -, member, other⟩ :=
              scanDigits_rejected le_rfl (Prod.ext parsed rfl)
            exact ⟨_, List.mem_append_right _ member, other⟩
      | rejected =>
          obtain ⟨offset, -, member, other⟩ :=
            scanDigits_rejected input.cellsToEnd_le.2.1 first
          exact ⟨_, member, other⟩
      | _ =>
          simp only [first] at parsed
          simp at parsed

/-- When the first piece is digits, a rejection comes from behind it, and then
the buffer is straight. -/
theorem Holds.straight_of_rejected (holds : input.Holds bytes)
    (limit : max = -1 ∨ input.cellsToEnd < max)
    (available : input.cellsToEnd ≤ bytes.length)
    (all : ∀ digit ∈ bytes.take input.cellsToEnd, isDigit digit = true)
    (parsed : (input.rbufStrntol max).1 = .rejected) : input.Straight := by
  have cells := input.cellsToEnd_le
  have nonzero : max ≠ 0 := by omega
  rw [rbufStrntol_eq holds.valid nonzero] at parsed
  cases first : input.scanDigits input.cellsToEnd (input.firstCount max) 0 with
  | mk outcome inspected =>
      cases outcome with
      | number result =>
          obtain ⟨count, isCount, le, -⟩ := scanDigits_number cells.2.1 first
          unfold firstCount at isCount
          split at isCount
          · next limited =>
              have beyond := limit.resolve_left limited.1
              omega
          · rcases holds.readToEnd_cases with
              ⟨straight, -⟩ | ⟨-, -, negative | whole⟩
            · exact straight
            · omega
            · omega
      | rejected =>
          obtain ⟨offset, inside, -, other⟩ :=
            scanDigits_rejected cells.2.1 first
          have located := @Holds.located _ _ holds input.cellsToEnd le_rfl
          have inFront : offset < (bytes.take input.cellsToEnd).length := by
            rw [List.length_take]
            omega
          rw [located.2.2 offset inFront,
            all _ (List.getElem_mem inFront)] at other
          exact absurd other.symm Bool.false_ne_true
      | _ =>
          simp only [first] at parsed
          simp at parsed

end Cases

section Exact

variable {max : Int}

/-- Digits in front, and what follows them. -/
theorem leading_cases (front : Bytes) :
    (∃ byte rest, front = front.takeWhile isDigit ++ byte :: rest ∧
      isDigit byte = false) ∨ ∀ byte ∈ front, isDigit byte = true := by
  cases behind : front.dropWhile isDigit with
  | nil => exact Or.inr (List.dropWhile_eq_nil_iff.mp behind)
  | cons byte rest =>
      refine Or.inl ⟨byte, rest, ?_, ?_⟩
      · rw [← behind, List.takeWhile_append_dropWhile]
      · have stops := List.head_dropWhile_not isDigit
          (l := front) (by rw [behind]; exact List.cons_ne_nil _ _)
        simpa [behind] using stops

/-- The cells of `count` bytes from the first piece are theirs. -/
theorem cells_first {count cell : Nat} (inside : count ≤ input.cellsToEnd)
    (member : cell ∈ cellsFrom input.cellsToEnd count) :
    ∃ offset < count, cell = (input.readPosition + offset) % bufferSize := by
  obtain ⟨offset, inRange, rfl⟩ := List.mem_map.mp member
  rw [List.mem_range] at inRange
  exact ⟨offset, inRange, first_cell (by omega)⟩

/-- A number with a byte that is no digit. -/
theorem extractsWell_stops (valid : input.Valid) {rest : Bytes} {byte : UInt8}
    (limit : max = -1 ∨ 0 < max ∧ max ≤ input.content.length)
    (isFront : input.content.take (input.extractLength max) =
      input.leadingDigits max ++ byte :: rest)
    (other : isDigit byte = false) :
    input.ExtractsWell max ↔
      (digitsValue (input.leadingDigits max) * 10 : Int) ≤ intMax ∧
        ((input.leadingDigits max).length < input.cellsToEnd ∨
          input.Straight) := by
  have holds := valid.holds
  have lengthLe : input.content.length ≤ bufferSize := holds.length_le
  have nonzero : max ≠ 0 := by omega
  have length : input.extractLength max ≤ input.content.length := by
    unfold extractLength
    split <;> omega
  generalize isDigits : input.leadingDigits max = digits at isFront ⊢
  have all : ∀ digit ∈ digits, isDigit digit = true := by
    intro digit member
    rw [← isDigits] at member
    exact List.mem_takeWhile_imp member
  have within : digits.length < input.extractLength max := by
    have lengths := congrArg List.length isFront
    rw [List.length_take, List.length_append, List.length_cons] at lengths
    omega
  have limited : max = -1 ∨ (digits.length : Int) < max := by
    unfold extractLength at within
    split at within <;> omega
  have isContent : input.content = digits ++ byte ::
      (rest ++ input.content.drop (input.extractLength max)) := by
    rw [← List.cons_append, ← List.append_assoc, ← isFront,
      List.take_append_drop]
  have notAll : ¬∀ digit ∈ input.content.take (input.extractLength max),
      isDigit digit = true := by
    intro every
    have isDig := every byte (isFront ▸ List.mem_append_right _ List.mem_cons_self)
    exact Bool.false_ne_true (other.symm.trans isDig)
  have isRejected (extracts : input.ExtractsWell max) :
      (input.rbufStrntol max).1 = .rejected := by
    have parsed := extracts.parsed
    dsimp only at parsed
    rwa [if_neg fun both => notAll both.1] at parsed
  by_cases inside : digits.length < input.cellsToEnd
  · have stops := holds.stops_first isContent all other inside limited
    constructor
    · intro extracts
      refine ⟨?_, Or.inl inside⟩
      by_contra large
      rw [if_neg large, isRejected extracts] at stops
      exact Parsed.noConfusion stops
    · rintro ⟨small, -⟩
      rw [if_pos small] at stops
      refine ⟨?_, ?_⟩
      · dsimp only
        rw [stops, if_neg fun both => notAll both.1]
      · intro cell member
        rw [stops] at member
        rcases List.mem_append.mp member with digit | last
        · obtain ⟨offset, inRange, isCell⟩ := cells_first (by omega) digit
          exact ⟨offset, by omega, isCell⟩
        · obtain rfl := List.mem_singleton.mp last
          exact ⟨digits.length, within, first_cell inside⟩
  · rw [not_lt] at inside
    constructor
    · intro extracts
      have straight : input.Straight := by
        refine @Holds.straight_of_rejected _ _ max holds ?_ ?_ ?_
          (isRejected extracts)
        · exact limited.imp_right fun beyond => by omega
        · omega
        · intro digit member
          rw [isContent, List.take_append_of_le_length inside] at member
          exact all digit (List.mem_of_mem_take member)
      have stops := holds.stops_second straight isContent all other inside
        limited
      refine ⟨?_, Or.inr straight⟩
      by_contra large
      rw [if_neg large, isRejected extracts] at stops
      exact Parsed.noConfusion stops
    · rintro ⟨small, beyond | straight⟩
      · omega
      have stops := holds.stops_second straight isContent all other inside
        limited
      rw [if_pos small] at stops
      refine ⟨?_, ?_⟩
      · dsimp only
        rw [stops, if_neg fun both => notAll both.1]
      · intro cell member
        rw [stops] at member
        rcases List.mem_append.mp member with first | behind
        · obtain ⟨offset, inRange, isCell⟩ := cells_first le_rfl first
          exact ⟨offset, by omega, isCell⟩
        · have bound : ∃ offset ≤ digits.length - input.cellsToEnd,
              cell = bufferSize - bufferSize + offset := by
            rcases List.mem_append.mp behind with digit | last
            · obtain ⟨offset, inRange, rfl⟩ := List.mem_map.mp digit
              rw [List.mem_range] at inRange
              exact ⟨offset, by omega, rfl⟩
            · exact ⟨_, le_rfl, List.mem_singleton.mp last⟩
          obtain ⟨offset, le, rfl⟩ := bound
          exact ⟨input.cellsToEnd + offset, by omega,
            second_cell (by omega)⟩

/-- The cells of fewer bytes than the buffer has cells are not all of the
first ones. -/
theorem not_all_cells {count length : Nat} (few : count ≤ length)
    (each : ∀ cell ≤ length, ∃ offset < count,
      cell = (input.readPosition + offset) % bufferSize) : False := by
  have subset : Finset.range (length + 1) ⊆ (Finset.range count).image
      fun offset => (input.readPosition + offset) % bufferSize := by
    intro cell member
    rw [Finset.mem_range] at member
    obtain ⟨offset, inRange, isCell⟩ := each cell (by omega)
    exact Finset.mem_image.mpr
      ⟨offset, Finset.mem_range.mpr inRange, isCell.symm⟩
  have cards := (Finset.card_le_card subset).trans Finset.card_image_le
  rw [Finset.card_range, Finset.card_range] at cards
  omega

/-- A number with digits only. -/
theorem extractsWell_digits (valid : input.Valid)
    (limit : max = -1 ∨ 0 < max ∧ max ≤ input.content.length)
    (all : ∀ byte ∈ input.content.take (input.extractLength max),
      isDigit byte = true) :
    input.ExtractsWell max ↔
      (digitsValue (input.content.take (input.extractLength max)) : Int) ≤
          intMax ∧
        input.Limited max ∧ max ≤ input.cellsToEnd := by
  have holds := valid.holds
  have nonzero : max ≠ 0 := by omega
  have length : input.extractLength max ≤ input.content.length := by
    unfold extractLength
    split <;> omega
  generalize isFront : input.content.take (input.extractLength max) = front
    at all ⊢
  constructor
  · rintro ⟨parsed, inspected⟩
    rw [isFront] at parsed
    dsimp only at parsed
    by_cases fits : (digitsValue front : Int) ≤ intMax
    · rw [if_pos ⟨all, fits⟩] at parsed
      refine ⟨fits, ?_⟩
      rcases rbufStrntol_number valid nonzero parsed with isLimited | every
      · exact isLimited
      · exact (not_all_cells length fun cell le =>
          inspected cell (every cell le)).elim
    · rw [if_neg fun both => fits both.2] at parsed
      obtain ⟨cell, member, other⟩ :=
        rbufStrntol_rejected valid nonzero parsed
      obtain ⟨offset, inRange, rfl⟩ := inspected cell member
      have inContent : offset < input.content.length := by omega
      have inFront : offset < front.length := by
        rw [← isFront, List.length_take]
        omega
      have isDig := all _ (List.getElem_mem inFront)
      simp only [← isFront, List.getElem_take] at isDig
      rw [← holds.byte_eq offset inContent] at isDig
      exact absurd (other.symm.trans isDig) Bool.false_ne_true
  · rintro ⟨fits, limited, inside⟩
    have unequal : max ≠ -1 := limited.1
    have isLength : (input.extractLength max : Int) = max := by
      unfold extractLength
      rw [if_neg unequal]
      omega
    have frontLength : front.length = input.extractLength max := by
      rw [← isFront, List.length_take]
      omega
    have located := @Holds.located _ _ holds (input.extractLength max)
      (by omega)
    rw [isFront] at located
    have scan := @Located.scan _ _ _ max 0 located all (by omega)
      (by rw [← digitsValue_eq]; exact fits)
    have left : max - (front.length : Int) = 0 := by omega
    have zero : ((0 : Nat) : Int) = 0 := rfl
    rw [left, scanDigits_zero, zero, ← digitsValue_eq, frontLength,
      List.append_nil] at scan
    have runs : input.rbufStrntol max = (.number (digitsValue front),
        cellsFrom input.cellsToEnd (input.extractLength max)) := by
      rw [rbufStrntol_eq valid nonzero]
      unfold firstCount
      rw [if_pos limited, scan]
      dsimp only
      rw [if_pos limited]
    refine ⟨?_, ?_⟩
    · rw [runs, isFront]
      dsimp only
      rw [if_pos ⟨all, fits⟩]
    · rw [runs]
      exact fun cell member => cells_first (by omega) member

/-- `rbuf_strntol` extracts exactly the number in front exactly when it is
extractable. -/
theorem extractsWell_iff (input : ReadBuffer) (valid : input.Valid) (max : Int)
    (limit : max = -1 ∨ 0 < max ∧ max ≤ input.content.length) :
    input.ExtractsWell max ↔ input.Extractable max := by
  have length : input.extractLength max ≤ input.content.length := by
    unfold extractLength
    split <;> omega
  have frontLength : (input.content.take (input.extractLength max)).length =
      input.extractLength max := by
    rw [List.length_take]
    omega
  unfold Extractable
  dsimp only
  rcases leading_cases (input.content.take (input.extractLength max)) with
    ⟨byte, rest, isFront, other⟩ | all
  · have fewer : (input.leadingDigits max).length <
        input.extractLength max := by
      have lengths := congrArg List.length isFront
      rw [frontLength, List.length_append, List.length_cons] at lengths
      change _ = (input.leadingDigits max).length + _ at lengths
      omega
    rw [if_pos fewer]
    exact extractsWell_stops valid limit isFront other
  · have whole : input.leadingDigits max =
        input.content.take (input.extractLength max) :=
      List.takeWhile_eq_self_iff.mpr all
    rw [whole, frontLength, if_neg (lt_irrefl _)]
    exact extractsWell_digits valid limit all

/-- The digits `12` with a line end behind them. -/
def numberBuffer : ReadBuffer where
  buffer := fun position => if position = 0 then 49 else
    if position = 1 then 50 else 10
  readPosition := 0
  writePosition := 3

theorem extractsWell_iff_number : numberBuffer.ExtractsWell 2 := by
  have valid : numberBuffer.Valid := ⟨by decide, by decide, by decide⟩
  have limit : (2 : Int) = -1 ∨
      0 < (2 : Int) ∧ 2 ≤ (numberBuffer.content.length : Int) := by
    decide +kernel
  refine (extractsWell_iff numberBuffer valid 2 limit).mpr ?_
  unfold Extractable
  dsimp only
  rw [if_neg (by decide +kernel)]
  exact ⟨by decide +kernel, ⟨by decide, by decide +kernel⟩, by decide⟩

/-- Two digits at the end of what has arrived. -/
def lastNumberBuffer : ReadBuffer :=
  { numberBuffer with writePosition := 2 }

/-- The number is rejected for the byte behind it. -/
theorem extractsWell_lost : lastNumberBuffer.Valid ∧
    ¬lastNumberBuffer.ExtractsWell 2 := by
  refine ⟨⟨by decide, by decide, by decide⟩, fun extracts => ?_⟩
  have fails : (lastNumberBuffer.rbufStrntol 2).1 = .rejected := by
    decide +kernel
  have parsed := extracts.parsed
  rw [fails] at parsed
  revert parsed
  decide +kernel

end Exact

end ReadBuffer

end SimpleCache
