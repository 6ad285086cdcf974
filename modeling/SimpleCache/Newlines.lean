import SimpleCache.Ring
import Mathlib.Data.List.TakeWhile

/-!
# Newlines before a request

`skip_over_newlines` runs before every request.  It has one loop for the bytes
up to the end of the array and one for the bytes behind it.
-/

namespace SimpleCache

namespace ReadBuffer

/-- `'\r'` or `'\n'`. -/
def isNewline (byte : UInt8) : Bool := byte = 13 ∨ byte = 10

/-- A loop of `skip_over_newlines` from the cell that `buffer` points to, with
the cells that are inspected and whether the loop has come to its end. -/
def skipLoop : (rounds : Nat) → ReadBuffer → (buffer : Nat) →
    Except RingFault (ReadBuffer × Bool × List Nat)
  | 0, input, _ => return (input, true, [])
  | rounds + 1, input, buffer => do
      let byte ← input.readByte buffer
      if byte ≠ 13 ∧ byte ≠ 10 then return (input, false, [buffer])
      let input := input.readMove 1
      if bufferSize < input.rbufReadRemaining then throw .assertion
      let (input, ended, inspected) ← skipLoop rounds input (buffer + 1)
      return (input, ended, buffer :: inspected)

/-- The second loop goes on where the first one has left `buffer`. -/
def skipOverNewlines (input : ReadBuffer) :
    Except RingFault (ReadBuffer × List Nat) := do
  let toEnd := input.rbufReadToEnd
  if toEnd = 0 then return (input, [])
  let buffer := input.readPosition % bufferSize
  let (input, ended, inspected) ← skipLoop toEnd.toNat input buffer
  if ended then
    let buffer := buffer + toEnd.toNat
    let toEnd := input.rbufReadRemaining - toEnd
    let (input, _, more) ← skipLoop toEnd.toNat input buffer
    return (input, inspected ++ more)
  else return (input, inspected)

/-- The newlines in front of what is to be read. -/
def leading (bytes : Bytes) : Bytes := bytes.takeWhile isNewline

section Loop

variable {input : ReadBuffer} {buffer : Nat} {byte : UInt8}
  {newlines rest : Bytes}

/-- The content, with `buffer` at its first byte unless that has wrapped. -/
structure FromCell (input : ReadBuffer) (buffer : Nat) (bytes : Bytes) :
    Prop where
  holds : input.Holds bytes
  place : buffer < bufferSize → input.readPosition % bufferSize = buffer

theorem FromCell.readByte (fromCell : input.FromCell buffer (byte :: rest))
    (inside : buffer < bufferSize) : input.readByte buffer = .ok byte := by
  have isByte := fromCell.holds.byte_eq 0 (by simp)
  have place := fromCell.place inside
  unfold bufferSize at place
  rw [Nat.add_zero, place, List.getElem_cons_zero] at isByte
  unfold ReadBuffer.readByte
  rw [if_pos inside, isByte]

theorem FromCell.next (fromCell : input.FromCell buffer (byte :: rest))
    (inside : buffer < bufferSize) :
    (input.readMove 1).FromCell (buffer + 1) rest where
  holds := by
    have moved := fromCell.holds.readMove (show 1 ≤ (byte :: rest).length by simp)
    exact moved
  place := by
    intro inside'
    have place := fromCell.place inside
    unfold bufferSize at *
    change ((input.readPosition + (1 : Int)) % 65536).toNat % 16384 = buffer + 1
    omega

/-- One round over a newline. -/
theorem skipLoop_succ (fromCell : input.FromCell buffer (byte :: rest))
    (inside : buffer < bufferSize) (isEol : isNewline byte = true)
    (rounds : Nat) :
    skipLoop (rounds + 1) input buffer =
      (skipLoop rounds (input.readMove 1) (buffer + 1)).map
        fun result => (result.1, result.2.1, buffer :: result.2.2) := by
  have skipped : ¬(byte ≠ 13 ∧ byte ≠ 10) := by
    intro other
    simp [isNewline, other.1, other.2] at isEol
  have few : ¬bufferSize < (input.readMove 1).rbufReadRemaining := by
    have moved := (fromCell.next inside).holds
    rw [moved.readRemaining]
    exact Nat.not_lt.mpr moved.length_le
  rw [skipLoop, fromCell.readByte inside]
  change (if byte ≠ 13 ∧ byte ≠ 10 then _ else _) = _
  rw [if_neg skipped]
  dsimp only
  rw [if_neg few]
  cases skipLoop rounds (input.readMove 1) (buffer + 1) <;> rfl

theorem readMove_succ (input : ReadBuffer) (count : Nat) :
    (input.readMove 1).readMove count = input.readMove (count + 1 : Nat) := by
  unfold readMove
  congr 1
  push_cast
  omega

theorem Holds.readMove_zero {bytes : Bytes} (holds : input.Holds bytes) :
    input.readMove (0 : Nat) = input := by
  obtain ⟨buffer, readPosition, writePosition⟩ := input
  have readLt : readPosition < 65536 := holds.read_lt
  unfold ReadBuffer.readMove
  congr 1
  dsimp only
  omega

/-- The loop stops at the first byte that is not a newline. -/
theorem skipLoop_stops
    (fromCell : input.FromCell buffer (newlines ++ byte :: rest))
    (inside : buffer + newlines.length < bufferSize)
    (all : ∀ newline ∈ newlines, isNewline newline = true)
    (other : isNewline byte = false) {rounds : Nat}
    (enough : newlines.length < rounds) :
    skipLoop rounds input buffer = .ok (input.readMove newlines.length, false,
      List.range' buffer (newlines.length + 1)) := by
  induction newlines generalizing input buffer rounds with
  | nil =>
      obtain ⟨rounds, rfl⟩ : ∃ left, rounds = left + 1 :=
        ⟨rounds - 1, by simp at enough; omega⟩
      have stops : byte ≠ 13 ∧ byte ≠ 10 := by
        simpa [isNewline] using other
      rw [skipLoop, fromCell.readByte (by simpa using inside)]
      change (if byte ≠ 13 ∧ byte ≠ 10 then _ else _) = _
      rw [if_pos stops, List.length_nil, fromCell.holds.readMove_zero]
      rfl
  | cons newline newlines ih =>
      rw [List.length_cons] at inside enough ⊢
      obtain ⟨rounds, rfl⟩ : ∃ left, rounds = left + 1 := ⟨rounds - 1, by omega⟩
      have later := ih (fromCell.next (by omega)) (by omega)
        (fun other member => all other (List.mem_cons_of_mem _ member))
        (by omega : newlines.length < rounds)
      rw [skipLoop_succ fromCell (by omega) (all newline List.mem_cons_self),
        later, readMove_succ]
      rfl

/-- The loop comes to its end behind as many newlines. -/
theorem skipLoop_ends (fromCell : input.FromCell buffer (newlines ++ rest))
    (inside : buffer + newlines.length ≤ bufferSize)
    (all : ∀ newline ∈ newlines, isNewline newline = true) :
    skipLoop newlines.length input buffer =
      .ok (input.readMove newlines.length, true,
        List.range' buffer newlines.length) := by
  induction newlines generalizing input buffer with
  | nil =>
      rw [List.length_nil, fromCell.holds.readMove_zero]
      rfl
  | cons newline newlines ih =>
      rw [List.length_cons] at inside ⊢
      have later := ih (fromCell.next (by omega)) (by omega)
        fun other member => all other (List.mem_cons_of_mem _ member)
      rw [skipLoop_succ fromCell (by omega) (all newline List.mem_cons_self),
        later, readMove_succ]
      rfl

/-- The loop leaves the array behind newlines up to its end. -/
theorem skipLoop_leaves (fromCell : input.FromCell buffer (newlines ++ rest))
    (upToEnd : buffer + newlines.length = bufferSize)
    (all : ∀ newline ∈ newlines, isNewline newline = true) {rounds : Nat}
    (enough : newlines.length < rounds) :
    skipLoop rounds input buffer = .error .outside := by
  induction newlines generalizing input buffer rounds with
  | nil =>
      obtain ⟨rounds, rfl⟩ : ∃ left, rounds = left + 1 :=
        ⟨rounds - 1, by simp at enough; omega⟩
      have behind : ¬buffer < bufferSize := by
        rw [List.length_nil] at upToEnd
        omega
      rw [skipLoop]
      unfold readByte
      rw [if_neg behind]
      rfl
  | cons newline newlines ih =>
      rw [List.length_cons] at upToEnd enough
      obtain ⟨rounds, rfl⟩ : ∃ left, rounds = left + 1 := ⟨rounds - 1, by omega⟩
      have later := ih (fromCell.next (by omega)) (by omega)
        (fun other member => all other (List.mem_cons_of_mem _ member))
        (by omega : newlines.length < rounds)
      rw [skipLoop_succ fromCell (by omega) (all newline List.mem_cons_self),
        later]
      rfl

end Loop

section Skip

variable {input : ReadBuffer} {bytes : Bytes}

theorem leading_all {byte : UInt8} (member : byte ∈ leading bytes) :
    isNewline byte = true :=
  List.mem_takeWhile_imp member

/-- Behind the leading newlines there is nothing, or another byte. -/
theorem eq_leading_append (bytes : Bytes) :
    bytes = leading bytes ∨
      ∃ byte rest, bytes = leading bytes ++ byte :: rest ∧
        isNewline byte = false := by
  induction bytes with
  | nil => exact Or.inl rfl
  | cons first bytes ih =>
      unfold leading at ih ⊢
      rw [List.takeWhile_cons]
      split
      · rcases ih with same | ⟨byte, rest, same, other⟩
        · exact Or.inl (congrArg _ same)
        · exact Or.inr ⟨byte, rest, congrArg _ same, other⟩
      · next other =>
          exact Or.inr ⟨first, bytes, rfl, by simpa using other⟩

theorem length_leading_le (bytes : Bytes) :
    (leading bytes).length ≤ bytes.length :=
  (List.takeWhile_sublist _).length_le

/-- Some of the leading newlines, and what lies behind them. -/
theorem eq_take_leading_append {count : Nat}
    (few : count ≤ (leading bytes).length) :
    bytes = (leading bytes).take count ++ bytes.drop count := by
  have front : leading bytes = bytes.take (leading bytes).length :=
    List.prefix_iff_eq_take.mp (List.takeWhile_prefix _)
  rw [front, List.take_take, Nat.min_eq_left few, List.take_append_drop]

theorem Holds.fromCell (holds : input.Holds bytes) :
    input.FromCell (input.readPosition % bufferSize) bytes :=
  ⟨holds, fun _ => rfl⟩

theorem cellsToEnd_bounds (input : ReadBuffer) :
    0 < input.cellsToEnd ∧ input.cellsToEnd ≤ 16384 ∧
      input.readPosition % bufferSize + input.cellsToEnd = bufferSize := by
  unfold cellsToEnd bufferSize
  omega

/-- The two loops, one behind the other. -/
theorem skipOverNewlines_eq (some_ : input.rbufReadToEnd ≠ 0) :
    input.skipOverNewlines = (do
      let (after, ended, inspected) ← skipLoop input.rbufReadToEnd.toNat input
        (input.readPosition % bufferSize)
      if ended then
        let (last, _, more) ← skipLoop
          (after.rbufReadRemaining - input.rbufReadToEnd).toNat after
          (input.readPosition % bufferSize + input.rbufReadToEnd.toNat)
        return (last, inspected ++ more)
      else return (after, inspected)) := by
  unfold skipOverNewlines
  dsimp only
  rw [if_neg some_]

/-- `rbuf_read_to_end` of a full buffer that is not straight. -/
theorem Holds.readToEnd_full (holds : input.Holds bytes)
    (bent : ¬input.Straight) : bytes.length = 16384 ∧
      (input.rbufReadToEnd = 16384 ∧ input.cellsToEnd < 16384 ∨
        input.rbufReadToEnd = -49152) := by
  unfold Straight at bent
  rw [holds.readRemaining] at bent
  obtain ⟨full, bent⟩ := Classical.not_imp.mp bent
  obtain ⟨readLt, lengthLe, writeEq, -⟩ := holds
  unfold rbufReadToEnd cellsToEnd
  unfold bufferSize at *
  refine ⟨full, ?_⟩
  dsimp only
  split <;> omega

/-- Newlines that end before the end of the array are skipped. -/
theorem Holds.skip_stops {newlines rest : Bytes} {byte : UInt8}
    (holds : input.Holds (newlines ++ byte :: rest))
    (all : ∀ newline ∈ newlines, isNewline newline = true)
    (other : isNewline byte = false)
    (before : newlines.length < input.cellsToEnd) :
    input.skipOverNewlines = .ok (input.readMove newlines.length,
      List.range' (input.readPosition % bufferSize) (newlines.length + 1)) := by
  have bounds := input.cellsToEnd_bounds
  have loop := fun rounds => @skipLoop_stops input
    (input.readPosition % bufferSize) byte newlines rest holds.fromCell
      (by omega) all other rounds
  have length : (newlines ++ byte :: rest).length =
      newlines.length + rest.length + 1 := by
    rw [List.length_append, List.length_cons]
    omega
  by_cases straight : input.Straight
  · have toEnd := holds.readToEnd_iff.mpr straight
    rw [skipOverNewlines_eq (by omega), loop _ (by omega)]
    rfl
  · obtain ⟨full, ⟨toEnd, -⟩ | toEnd⟩ := holds.readToEnd_full straight
    · rw [skipOverNewlines_eq (by omega), toEnd, loop _ (by omega)]
      rfl
    · -- the first loop has no rounds and the second one 65536
      have remaining := holds.readRemaining
      rw [skipOverNewlines_eq (by omega), toEnd]
      change (skipLoop (input.rbufReadRemaining - (-49152 : Int)).toNat input
        (input.readPosition % bufferSize) >>= fun result =>
          pure (result.1, [] ++ result.2.2)) = _
      rw [loop _ (by omega)]
      rfl

/-- Newlines alone are skipped where they do not reach the end of the array. -/
theorem Holds.skip_all (holds : input.Holds bytes)
    (all : ∀ newline ∈ bytes, isNewline newline = true)
    (before : bytes.length < input.cellsToEnd) :
    input.skipOverNewlines = .ok (input.readMove bytes.length,
      List.range' (input.readPosition % bufferSize) bytes.length) := by
  have bounds := input.cellsToEnd_bounds
  have straight : input.Straight := by
    intro full
    rw [holds.readRemaining] at full
    unfold bufferSize at full
    omega
  have toEnd := holds.readToEnd_iff.mpr straight
  rw [Nat.min_eq_left (by omega)] at toEnd
  cases bytes with
  | nil =>
      unfold skipOverNewlines
      rw [toEnd, List.length_nil, holds.readMove_zero]
      rfl
  | cons newline newlines =>
      have loop := @skipLoop_ends input (input.readPosition % bufferSize)
        (newline :: newlines) [] (by simpa using holds.fromCell) (by omega) all
      have moved := (holds.readMove le_rfl).readRemaining
      rw [List.drop_length, List.length_nil] at moved
      have done : (((0 : Nat) : Int) - (newline :: newlines).length).toNat = 0 := by
        omega
      rw [skipOverNewlines_eq (by rw [toEnd, List.length_cons]; omega), toEnd,
        Int.toNat_natCast, loop]
      change (skipLoop _ _ _ >>= fun result =>
        pure (result.1, _ ++ result.2.2)) = _
      rw [moved, done]
      change Except.ok (_, _ ++ []) = _
      rw [List.append_nil]

/-- Newlines up to the end of the array are skipped, and those behind it are
not: as many bytes are passed over as have been skipped. -/
theorem Holds.skip_cells {newlines rest : Bytes}
    (holds : input.Holds (newlines ++ rest))
    (all : ∀ newline ∈ newlines, isNewline newline = true)
    (upToEnd : newlines.length = input.cellsToEnd)
    (straight : input.Straight) :
    input.skipOverNewlines =
      if rest.length ≤ newlines.length then
        .ok (input.readMove newlines.length,
          List.range' (input.readPosition % bufferSize) newlines.length)
      else .error .outside := by
  have bounds := input.cellsToEnd_bounds
  have toEnd := holds.readToEnd_iff.mpr straight
  rw [List.length_append, Nat.min_eq_right (by omega), ← upToEnd] at toEnd
  have loop := @skipLoop_ends input (input.readPosition % bufferSize)
    newlines rest holds.fromCell (by omega) all
  have moved := holds.readMove (show newlines.length ≤ _ by
    rw [List.length_append]
    omega)
  rw [List.drop_left] at moved
  have behind : input.readPosition % bufferSize + newlines.length =
      bufferSize := by omega
  rw [skipOverNewlines_eq (by omega), toEnd, Int.toNat_natCast, loop]
  change (skipLoop _ _ _ >>= fun result =>
    pure (result.1, _ ++ result.2.2)) = _
  rw [moved.readRemaining, behind]
  by_cases few : rest.length ≤ newlines.length
  · have done : ((rest.length : Int) - newlines.length).toNat = 0 := by omega
    rw [if_pos few, done]
    change Except.ok (_, _ ++ []) = _
    rw [List.append_nil]
  · have leaves := @skipLoop_leaves (input.readMove newlines.length) bufferSize
      [] rest ⟨moved, fun inside => absurd inside (lt_irrefl _)⟩ rfl
      (fun newline member => absurd member List.not_mem_nil)
      ((rest.length : Int) - newlines.length).toNat (by
        rw [List.length_nil]
        omega)
    rw [if_neg few, leaves]
    rfl

/-- In a full buffer that is not straight the newlines up to the end of the
array are skipped, and `buffer` leaves it. -/
theorem Holds.skip_full {newlines rest : Bytes}
    (holds : input.Holds (newlines ++ rest))
    (all : ∀ newline ∈ newlines, isNewline newline = true)
    (upToEnd : newlines.length = input.cellsToEnd)
    (bent : ¬input.Straight) :
    input.skipOverNewlines = .error .outside := by
  have bounds := input.cellsToEnd_bounds
  have leaves := fun rounds => @skipLoop_leaves input
    (input.readPosition % bufferSize) newlines rest holds.fromCell (by omega)
      all rounds
  obtain ⟨full, ⟨toEnd, fewer⟩ | toEnd⟩ := holds.readToEnd_full bent
  · rw [skipOverNewlines_eq (by omega), toEnd, leaves _ (by omega)]
    rfl
  · rw [skipOverNewlines_eq (by omega), toEnd]
    change (skipLoop (input.rbufReadRemaining - (-49152 : Int)).toNat input
      (input.readPosition % bufferSize) >>= fun result =>
        pure (result.1, [] ++ result.2.2)) = _
    rw [leaves _ (by omega)]
    rfl

/-- What `skip_over_newlines` promises: to move past the leading newlines and
to look at no other cell than those of the content. -/
def SkipsWell (input : ReadBuffer) : Prop :=
  ∃ inspected, input.skipOverNewlines =
      .ok (input.readMove (leading input.content).length, inspected) ∧
    ∀ cell ∈ inspected, ∃ offset < input.content.length,
      cell = (input.readPosition + offset) % bufferSize

/-- Cells from the first one on hold content. -/
theorem range_content {count : Nat} (available : count ≤ input.content.length)
    (inside : count ≤ input.cellsToEnd) :
    ∀ cell ∈ List.range' (input.readPosition % bufferSize) count,
      ∃ offset < input.content.length,
        cell = (input.readPosition + offset) % bufferSize := by
  intro cell member
  have bounds := input.cellsToEnd_bounds
  obtain ⟨offset, bound, rfl⟩ := List.mem_range'.mp member
  refine ⟨offset, by omega, ?_⟩
  unfold bufferSize at *
  omega

/-- The newlines are skipped exactly when they end before the end of the
array, or with it and no more bytes lie behind the end than before it. -/
theorem skipsWell_iff (input : ReadBuffer) (valid : input.Valid) :
    input.SkipsWell ↔
      (leading input.content).length < input.cellsToEnd ∨
        input.Straight ∧
          (leading input.content).length = input.cellsToEnd ∧
          input.content.length ≤ 2 * input.cellsToEnd := by
  have holds := valid.holds
  have bounds := input.cellsToEnd_bounds
  have short := length_leading_le input.content
  have all : ∀ newline ∈ leading input.content, isNewline newline = true :=
    fun newline member => leading_all member
  by_cases before : (leading input.content).length < input.cellsToEnd
  · refine ⟨fun _ => Or.inl before, fun _ => ?_⟩
    rcases eq_leading_append input.content with same | ⟨byte, rest, same, other⟩
    · rw [← same] at all before
      refine ⟨_, ?_, range_content le_rfl before.le⟩
      rw [← same]
      exact holds.skip_all all before
    · rw [same] at holds
      refine ⟨_, holds.skip_stops all other before, range_content ?_ before⟩
      have length := congrArg List.length same
      rw [List.length_append, List.length_cons] at length
      omega
  · -- the newlines come to the end of the array
    obtain ⟨newlines, rest, same, length, isFirst⟩ :
        ∃ newlines rest, input.content = newlines ++ rest ∧
          newlines.length = input.cellsToEnd ∧
          ∀ newline ∈ newlines, isNewline newline = true :=
      ⟨(leading input.content).take input.cellsToEnd,
        input.content.drop input.cellsToEnd,
        eq_take_leading_append (by omega), by
          rw [List.length_take]
          omega, fun newline member => all newline (List.mem_of_mem_take member)⟩
    have total := congrArg List.length same
    rw [List.length_append, length] at total
    rw [same] at holds
    constructor
    · rintro ⟨inspected, run, -⟩
      right
      by_cases straight : input.Straight
      · rw [holds.skip_cells isFirst length straight] at run
        split at run
        · next few =>
            have places := congrArg ReadBuffer.readPosition
              (congrArg Prod.fst (Except.ok.inj run))
            have lengthLe := holds.length_le
            rw [← same] at lengthLe
            change ((input.readPosition + (newlines.length : Int)) % 65536).toNat =
              ((input.readPosition + ((leading input.content).length : Int)) %
                65536).toNat at places
            exact ⟨straight, by omega, by omega⟩
        · cases run
      · rw [holds.skip_full isFirst length straight] at run
        cases run
    · rintro (impossible | ⟨straight, isLast, few⟩)
      · exact absurd impossible before
      · refine ⟨_, ?_, range_content (by omega) le_rfl⟩
        rw [holds.skip_cells isFirst length straight, if_pos (by omega), isLast,
          length]

/-- A newline in the last cell, and the request behind it. -/
def newlineBefore : ReadBuffer where
  buffer := fun cell => if cell = 16383 then 10 else 71
  readPosition := 16383
  writePosition := 16385

theorem skipsWell_iff_newlineBefore : newlineBefore.SkipsWell :=
  (skipsWell_iff newlineBefore ⟨by decide, by decide, by decide⟩).mpr
    (by decide +kernel)

/-- Two newlines on both sides of the end of the array. -/
def newlinesApart : ReadBuffer where
  buffer := fun _ => 10
  readPosition := 16383
  writePosition := 16385

/-- Only the first of them is skipped. -/
theorem skipsWell_lost : newlinesApart.Valid ∧ ¬newlinesApart.SkipsWell := by
  refine ⟨⟨by decide, by decide, by decide⟩, ?_⟩
  rintro ⟨inspected, run, -⟩
  have stays : newlinesApart.skipOverNewlines.map
      (fun result => result.1.readPosition) = .ok 16384 := by decide +kernel
  have moved : (newlinesApart.readMove
      (leading newlinesApart.content).length).readPosition = 16385 := by
    decide +kernel
  rw [run] at stays
  have same := Except.ok.inj stays
  dsimp only at same
  omega

end Skip

end ReadBuffer

end SimpleCache
