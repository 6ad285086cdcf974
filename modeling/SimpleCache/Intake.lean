import SimpleCache.Library.ByteFile
import SimpleCache.Library.Machine
import SimpleCache.Library.Outcome
import SimpleCache.ReadBuffer
import SimpleCache.Requests

/-!
# The body of an upload

`http_cache_handle_request_body` writes what the read buffer holds to the file
of the target and moves both positions by what `write` returns.  Here it runs
on the buffer of one connection, whatever arrives and whatever `write`
returns.
-/

namespace SimpleCache

/-- What the connection does next: read, send the response that is queued, or
nothing. -/
inductive Stage
  | reading
  | answered (template : Template)
  | closed
  deriving DecidableEq

/-- An upload after its headers.  `body` are the bytes that have arrived behind
them and `writes` the positions and bytes that were written. -/
structure Intake where
  input : ReadBuffer
  file : ByteFile
  position : Int
  endPosition : Int
  stage : Stage
  body : Bytes
  writes : List (Int × Bytes)

/-- The handler runs on what has come with the headers, or the socket is
readable with these bytes.  `written` is what `write` returns, if it is called:
-1 when it is negative, and as much as it was given at most. -/
inductive Arrival
  | resume (written : Int)
  | readable (bytes : Bytes) (written : Int)

namespace Intake

/-- `to_write` of `http_cache_handle_request_body`. -/
def toWrite (intake : Intake) : Int :=
  min (toInt (intake.endPosition - intake.position)) intake.input.rbufReadToEnd

/-- The end of `http_cache_handle_request_body`. -/
def finish (intake : Intake) : Intake :=
  if intake.endPosition = intake.position then
    { intake with stage := .answered .full200Ok }
  else intake

/-- `lseek64` refuses a negative position.  A length that is negative, or goes
past the end of the buffer, makes `write` read other memory. -/
def httpCacheHandleRequestBody (intake : Intake) (written : Int) :
    Except Fault Intake :=
  if intake.toWrite = 0 then
    return intake.finish
  else if intake.position < 0 then
    return { intake with stage := .answered .full404 }
  else if intake.toWrite < 0 ∨
      bufferSize < intake.input.readPosition % bufferSize + intake.toWrite then
    throw .overrun
  else if written < 0 then
    return finish { intake with
      input := intake.input.readMove (-1)
      position := intake.position - 1 }
  else
    let accepted := min written intake.toWrite
    let bytes := intake.input.bytesAt accepted.toNat
    return finish { intake with
      input := intake.input.readMove accepted
      file := intake.file.write intake.position.toNat bytes
      position := intake.position + accepted
      writes := intake.writes ++ [(intake.position, bytes)] }

/-- What `http_read_handle` reads before it calls the handler. -/
def receive (intake : Intake) (bytes : Bytes) : Intake :=
  let input := intake.input.rewind
  let arrived := bytes.take input.rbufWriteToEnd
  { intake with input := input.store arrived, body := intake.body ++ arrived }

/-- The intake that the handler runs on. -/
def ready (intake : Intake) : Arrival → Intake
  | .resume _ => intake
  | .readable bytes _ => intake.receive bytes

def Arrival.written : Arrival → Int
  | .resume written => written
  | .readable _ written => written

/-- A full buffer that the handler does not take from closes the
connection. -/
def closeFull (before after : Intake) : Intake :=
  if after.stage = .reading ∧ before.input.rewind.rbufWriteToEnd = 0 ∧
      after.input.rbufWriteRemaining = 0 then
    { after with stage := .closed }
  else after

def step (intake : Intake) (arrival : Arrival) : Except Fault Intake := do
  if intake.stage ≠ .reading then
    return intake
  else
    match arrival with
    | .resume written => intake.httpCacheHandleRequestBody written
    | .readable bytes written =>
        if bytes = [] ∧ intake.input.rewind.rbufWriteToEnd ≠ 0 then
          return { intake with stage := .closed }
        else
          let after ←
            (intake.receive bytes).httpCacheHandleRequestBody written
          return intake.closeFull after

/-- The headers have ended with the target at `start` and so many bytes to
come, of which the buffer holds the first. -/
def Begins (start length : Nat) (intake : Intake) : Prop :=
  intake.input.Holds intake.body ∧ intake.position = start ∧
    intake.endPosition = start + length ∧ intake.stage = .reading ∧
      intake.writes = []

/-- The uploads to the range from `start` on. -/
def machine (start length : Nat) : Machine Intake Arrival Fault where
  initial := Begins start length
  step := step

/-- If the handler calls `write`, less than 2^31 bytes of the body are left, a
full buffer starts at its first byte, and `write` does not fail. -/
def WritesWell (intake : Intake) (arrival : Arrival) : Prop :=
  intake.stage = .reading → (intake.ready arrival).toWrite ≠ 0 →
    intake.endPosition - intake.position < 2147483648 ∧
      (intake.ready arrival).input.Straight ∧ 0 ≤ Arrival.written arrival

/-- Everything written is in the range, and when the upload is acknowledged
the range holds the body. -/
def Exact (start length : Nat) (intake : Intake) : Prop :=
  (∀ position bytes, (position, bytes) ∈ intake.writes →
      (start : Int) ≤ position ∧
        position + bytes.length ≤ (start + length : Nat)) ∧
    (intake.stage = .answered .full200Ok →
      intake.file.slice start length = intake.body.take length)

/-- So many bytes of the body are in the file, and the buffer holds the
rest. -/
structure Taken (start length count : Nat) (intake : Intake) : Prop where
  count_le : count ≤ length
  received : count ≤ intake.body.length
  position_eq : intake.position = (start + count : Nat)
  end_eq : intake.endPosition = (start + length : Nat)
  holds : intake.input.Holds (intake.body.drop count)
  slice_eq : intake.file.slice start count = intake.body.take count
  confined : ∀ position bytes, (position, bytes) ∈ intake.writes →
    (start : Int) ≤ position ∧
      position + bytes.length ≤ (start + length : Nat)
  acknowledged : intake.stage = .answered .full200Ok → count = length

section Runs

variable {start length count : Nat} {intake after : Intake}

theorem Taken.exact (taken : Taken start length count intake) :
    Exact start length intake := by
  refine ⟨taken.confined, fun acknowledged => ?_⟩
  rw [← taken.acknowledged acknowledged]
  exact taken.slice_eq

theorem taken_of_begins (begins : Begins start length intake) :
    Taken start length 0 intake := by
  obtain ⟨holds, positionEq, endEq, reading, noWrites⟩ := begins
  refine ⟨Nat.zero_le _, Nat.zero_le _, by simpa using positionEq,
    by simpa using endEq, by simpa using holds, rfl, ?_, ?_⟩
  · simp [noWrites]
  · simp [reading]

theorem Taken.receive (taken : Taken start length count intake)
    (bytes : Bytes) : Taken start length count (intake.receive bytes) := by
  have fits : (bytes.take intake.input.rewind.rbufWriteToEnd).length ≤
      intake.input.rewind.rbufWriteToEnd := by
    rw [List.length_take]
    exact Nat.min_le_left ..
  have holds := taken.holds.rewind.store fits
  rw [← List.drop_append_of_le_length taken.received] at holds
  have longer : count ≤ (intake.receive bytes).body.length := by
    have received := taken.received
    simp only [Intake.receive, List.length_append]
    omega
  refine ⟨taken.count_le, longer, taken.position_eq, taken.end_eq, holds, ?_,
    taken.confined, taken.acknowledged⟩
  simp only [Intake.receive]
  rw [List.take_append_of_le_length taken.received]
  exact taken.slice_eq

theorem Taken.ready (taken : Taken start length count intake)
    (arrival : Arrival) : Taken start length count (intake.ready arrival) := by
  cases arrival with
  | resume written => exact taken
  | readable bytes written => exact taken.receive bytes

theorem Taken.finish (taken : Taken start length count intake) :
    Taken start length count intake.finish := by
  unfold Intake.finish
  split
  · next done =>
      have all : count = length := by
        have positionEq := taken.position_eq
        have endEq := taken.end_eq
        omega
      exact ⟨taken.count_le, taken.received, taken.position_eq, taken.end_eq,
        taken.holds, taken.slice_eq, taken.confined, fun _ => all⟩
  · exact taken

/-- The length that the handler writes: what is left of the body, as far as it
has arrived and lies in one piece. -/
theorem Taken.toWrite_eq (taken : Taken start length count intake)
    (small : intake.endPosition - intake.position < 2147483648)
    (straight : intake.input.Straight) :
    intake.toWrite = (min (length - count) (min (intake.body.length - count)
      (16384 - intake.input.readPosition % 16384)) : Nat) := by
  have left : toInt (intake.endPosition - intake.position) =
      (length - count : Nat) := by
    have positionEq := taken.position_eq
    have endEq := taken.end_eq
    have countLe := taken.count_le
    unfold toInt i32 u32OfInt
    split <;> omega
  have readable := taken.holds.readToEnd straight
  rw [List.length_drop] at readable
  unfold Intake.toWrite
  rw [left, readable]
  omega

/-- The handler moves the next bytes of the body to the file. -/
theorem Taken.handle (taken : Taken start length count intake)
    {written : Int}
    (well : intake.toWrite ≠ 0 →
      intake.endPosition - intake.position < 2147483648 ∧
        intake.input.Straight ∧ 0 ≤ written) :
    ∃ after more, intake.httpCacheHandleRequestBody written = .ok after ∧
      Taken start length (count + more) after := by
  unfold Intake.httpCacheHandleRequestBody
  by_cases none_ : intake.toWrite = 0
  · rw [if_pos none_]
    exact ⟨_, 0, rfl, taken.finish⟩
  obtain ⟨small, straight, succeeds⟩ := well none_
  have toWriteEq := taken.toWrite_eq small straight
  have positionEq := taken.position_eq
  have countLe := taken.count_le
  have received := taken.received
  rw [if_neg none_, if_neg (by omega), if_neg (by unfold bufferSize; omega),
    if_neg (by omega)]
  obtain ⟨more, moreEq⟩ : ∃ more : Nat, min written intake.toWrite = more :=
    ⟨(min written intake.toWrite).toNat, by omega⟩
  dsimp only
  rw [moreEq, Int.toNat_natCast]
  have available : more ≤ (intake.body.drop count).length := by
    rw [List.length_drop]
    omega
  have bytesEq : intake.input.bytesAt more =
      (intake.body.drop count).take more :=
    taken.holds.bytesAt available (by omega)
  have bytesLength : (intake.input.bytesAt more).length = more := by
    rw [bytesEq, List.length_take]
    omega
  have place : intake.position.toNat = start + count := by omega
  refine ⟨_, more, rfl, Taken.finish ⟨by omega, ?_, ?_, taken.end_eq, ?_, ?_,
    ?_, ?_⟩⟩
  · rw [List.length_drop] at available
    change count + more ≤ intake.body.length
    omega
  · change intake.position + more = (start + (count + more) : Nat)
    omega
  · have rest := taken.holds.readMove available
    rw [List.drop_drop] at rest
    exact rest
  · have slice : (intake.file.write (start + count)
        (intake.input.bytesAt more)).slice start
          (count + (intake.input.bytesAt more).length) = _ :=
      ByteFile.slice_write_append
    rw [bytesLength, taken.slice_eq] at slice
    change (intake.file.write intake.position.toNat _).slice start
      (count + more) = intake.body.take (count + more)
    rw [place, slice, bytesEq, List.take_add]
  · intro position bytes member
    rcases List.mem_append.mp member with old | new
    · exact taken.confined position bytes old
    · obtain ⟨rfl, rfl⟩ := Prod.mk.inj (List.mem_singleton.mp new)
      rw [bytesLength]
      omega
  · intro acknowledged
    have same := taken.acknowledged acknowledged
    omega

theorem Taken.close (taken : Taken start length count after) :
    Taken start length count (intake.closeFull after) := by
  unfold Intake.closeFull
  split
  · exact ⟨taken.count_le, taken.received, taken.position_eq, taken.end_eq,
      taken.holds, taken.slice_eq, taken.confined, by simp⟩
  · exact taken

/-- A step that writes well goes on with the body. -/
theorem Taken.step (taken : Taken start length count intake)
    {arrival : Arrival} (well : intake.WritesWell arrival) :
    ∃ after more, intake.step arrival = .ok after ∧
      Taken start length (count + more) after := by
  unfold Intake.step
  by_cases reading : intake.stage = .reading
  · rw [if_neg (by simp [reading])]
    cases arrival with
    | resume written => exact taken.handle (well reading)
    | readable bytes written =>
        dsimp only
        split
        · exact ⟨_, 0, rfl, taken.count_le, taken.received, taken.position_eq,
            taken.end_eq, taken.holds, taken.slice_eq, taken.confined, by simp⟩
        · obtain ⟨after, more, run, takenAfter⟩ :
              ∃ after more, (intake.receive bytes).httpCacheHandleRequestBody
                written = .ok after ∧
                  Taken start length (count + more) after :=
            (taken.receive bytes).handle (well reading)
          rw [run, ok_bind]
          exact ⟨_, more, rfl, takenAfter.close⟩
  · rw [if_pos reading]
    exact ⟨intake, 0, rfl, taken⟩

theorem taken_of_reachable
    (reachable : (machine start length).Reachable WritesWell intake) :
    ∃ count, Taken start length count intake := by
  induction reachable with
  | start begins => exact ⟨0, taken_of_begins begins⟩
  | next _ well stepped ih =>
      obtain ⟨count, taken⟩ := ih
      obtain ⟨other, more, run, takenAfter⟩ := taken.step well
      obtain rfl := Except.ok.inj (stepped.symm.trans run)
      exact ⟨count + more, takenAfter⟩

end Runs

/-- An upload whose steps write well stays in its range and in the read
buffer, and is acknowledged when the range holds the body. -/
theorem exact_of_reachable {start length : Nat} {intake : Intake}
    (reachable : (machine start length).Reachable WritesWell intake) :
    Exact start length intake ∧
      ∀ arrival, WritesWell intake arrival →
        ∃ after, intake.step arrival = .ok after := by
  obtain ⟨count, taken⟩ := taken_of_reachable reachable
  refine ⟨taken.exact, fun arrival well => ?_⟩
  obtain ⟨after, more, run, -⟩ := taken.step well
  exact ⟨after, run⟩

/-- Two bytes for the second block, of which the first has arrived. -/
def secondBlock : Intake where
  input :=
    { buffer := fun position => if position = 0 then 7 else 0
      readPosition := 0
      writePosition := 1 }
  file := ByteFile.empty
  position := 4096
  endPosition := 4098
  stage := .reading
  body := [7]
  writes := []

theorem secondBlock_begins : Begins 4096 2 secondBlock := by
  refine ⟨⟨by decide, by decide, rfl, fun offset inRange => ?_⟩, rfl, rfl, rfl,
    rfl⟩
  obtain rfl : offset = 0 := Nat.lt_one_iff.mp inRange
  rfl

theorem exact_of_reachable_secondBlock :
    ∃ intake, (machine 4096 2).run secondBlock
        [.resume 1, .readable [8] 1] = .ok intake ∧
      intake.stage = .answered .full200Ok ∧ Exact 4096 2 intake := by
  refine ⟨_, rfl, by decide +kernel, ?_⟩
  have begins : (machine 4096 2).Reachable WritesWell secondBlock :=
    .start secondBlock_begins
  have first := begins.next
    (show secondBlock.WritesWell (.resume 1) from
      fun _ _ => ⟨by decide +kernel, by decide +kernel, by decide +kernel⟩)
    (show (machine 4096 2).step secondBlock (.resume 1) = .ok _ from rfl)
  have second := first.next
    (show WritesWell _ (.readable [8] 1) from
      fun _ _ => ⟨by decide +kernel, by decide +kernel, by decide +kernel⟩)
    (show (machine 4096 2).step _ (.readable [8] 1) = .ok _ from rfl)
  exact (exact_of_reachable second).1

/-- `write` fails at the start of the range: the next byte goes to the last
byte of the block before it. -/
theorem not_exact_secondBlock :
    ¬∀ (start length : Nat) (before : Intake) (arrivals : List Arrival),
      1 ≤ length → Begins start length before →
        ∃ after, (machine start length).run before arrivals = .ok after ∧
          Exact start length after := by
  intro claim
  obtain ⟨after, run, confined, -⟩ := claim 4096 2 secondBlock
    [.resume (-1), .readable [8] 1] (by decide) secondBlock_begins
  have wrote : ((machine 4096 2).run secondBlock
      [.resume (-1), .readable [8] 1]).map Intake.writes =
        .ok [(4095, [0])] := by
    decide +kernel
  rw [run] at wrote
  have wrote : after.writes = [(4095, [0])] := Except.ok.inj wrote
  have low := (confined 4095 [0] (by simp [wrote])).1
  omega

end Intake

end SimpleCache
