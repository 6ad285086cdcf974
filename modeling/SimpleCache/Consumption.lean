import SimpleCache.Asked

/-!
# What the handlers touch

A handler looks at cells of the buffer, takes bytes from the read position on
and moves the read position.  It keeps to the bytes that have arrived unless it
counts on one that has not.
-/

namespace SimpleCache

namespace Parsing

variable {kh : KHash}

/-- What a handler does to the buffer: it looks at a cell, hands over bytes from
the read position on, or moves that with `RBUF_READMOVE`. -/
inductive Touch
  | look (cell : Nat)
  | take (count : Int)
  | move (count : Int)

def touched (input : ReadBuffer) : Touch → ReadBuffer
  | .look _ => input
  | .take _ => input
  | .move count => input.readMove count

/-- Everything touched has arrived and is not yet consumed. -/
def Within (input : ReadBuffer) : List Touch → Prop
  | [] => True
  | .look cell :: rest =>
      (∃ offset < input.rbufReadRemaining,
        cell = (input.readPosition + offset) % bufferSize) ∧ Within input rest
  | .take count :: rest =>
      (0 ≤ count ∧ count ≤ input.rbufReadRemaining) ∧ Within input rest
  | .move count :: rest =>
      (0 ≤ count ∧ count ≤ input.rbufReadRemaining) ∧
        Within (input.readMove count) rest

/-- How far the read position is moved. -/
def moved : List Touch → Int
  | [] => 0
  | .look _ :: rest => moved rest
  | .take _ :: rest => moved rest
  | .move count :: rest => count + moved rest

/-- What a function that runs at one byte touches besides that byte. -/
abbrev Touches (kh : KHash) := Reading kh → (index n : Nat) → List Touch

def touchesRequeststartmethod : Touches kh := fun reading index n =>
  if longestReqmethod < n then [.move (n + 1)]
  else if reading.input.buffer index = space then [.take n, .move (n + 1)]
  else []

/-- Behind a `/` the read position only moves on when a key follows. -/
def touchesRequeststarturl1 (env : Env) (outcome : FlushOutcome) :
    Touches env.kh := fun reading index n =>
  let byte := reading.input.buffer index
  if n = 0 ∨ (byte ≠ slash ∧ byte ≠ space) then []
  else if byte = slash then
    match httpReadRequeststarturl1 env outcome reading index n with
    | .ok (after, _) =>
        if after.session.connection.handler = .handleUrlKey then
          [.move 1, .take (n - 1), .move n]
        else [.move 1, .take (n - 1)]
    | .error _ => [.move 1, .take (n - 1)]
  else [.move 1, .take (n - 1), .move (n + 1)]

def touchesRequeststarturl2 : Touches kh := fun reading index n =>
  if reading.input.buffer index = space then [.take n, .move (n + 1)] else []

def touchesVersion : Touches kh := fun reading index n =>
  if reading.input.buffer index = newline then [.move (n + 1)] else []

def touchesHeaders : Touches kh := fun reading index n =>
  let byte := reading.input.buffer index
  if byte = colon then
    let bytes := distance reading.input index
    let bytes :=
      if bytes < 0 then reading.input.rbufReadToEnd + index else bytes
    match findHeader reading.input bytes
        (headerNames reading.session.connection) with
    | .ok (some _) => [.take bytes, .move (bytes + 1)]
    | _ => [.take bytes]
  else if byte = newline then [.move (n + 1)]
  else []

def touchesHeaderExtraction : Touches kh := fun reading index _ =>
  let byte := reading.input.buffer index
  if byte = space then [.move 1]
  else if byte = newline ∨ byte = carriageReturn then
    let temporary : Int := if byte = carriageReturn then 2 else 1
    let length := distance reading.input index
    [.take length, .move (length + temporary)]
  else []

def touchesEoltoend : Touches kh := fun reading index n =>
  match httpReadEoltoend reading index n with
  | .ok (_, .registeredWrite) => [.move n]
  | _ => []

/-- The rounds of `RBUF_ITERATE`. -/
def rbufIterateTouches (inner : Inner kh) (touches : Touches kh) (toEnd : Int) :
    (rounds : Nat) → Reading kh → (index n : Nat) → List Touch
  | 0, _, _, _ => []
  | rounds + 1, reading, index, n =>
      if n < reading.input.rbufReadRemaining then
        let index := if toEnd = n then 0 else index
        .look index :: touches reading index n ++
          match inner reading index n with
          | .ok (after, .continueProcessing) =>
              rbufIterateTouches inner touches toEnd rounds after (index + 1)
                (n + 1)
          | _ => []
      else []

def iterateTouches (inner : Inner kh) (touches : Touches kh)
    (reading : Reading kh) : List Touch :=
  let toEnd := reading.input.rbufReadToEnd
  if toEnd = 0 then []
  else
    rbufIterateTouches inner touches toEnd 65536 reading
      (reading.input.readPosition % bufferSize) 0

/-- A cell that `skip_over_newlines` inspects, and skips if it can. -/
def inspect (input : ReadBuffer) (cell : Nat) : List Touch :=
  if ReadBuffer.isNewline (input.buffer cell) then [.look cell, .move 1]
  else [.look cell]

def skipTouches (input : ReadBuffer) : List Touch :=
  match input.skipOverNewlines with
  | .ok (_, inspected) => inspected.flatMap (inspect input)
  -- a loop has left the array
  | .error _ => [.look bufferSize]

/-- A handler that moves over all it has looked at when it needs more. -/
def consumingTouches (inner : Inner kh) (touches : Touches kh)
    (reading : Reading kh) : List Touch :=
  iterateTouches inner touches reading ++
    match iterate inner reading with
    | .ok (_, .continueProcessing, n) => [.move n]
    | _ => []

def requestBodyTouches (reading : Reading kh) (written : Int) : List Touch :=
  let connection := reading.session.connection
  let available := reading.input.rbufReadToEnd.toNat
  [.take (min (toInt (connection.endPosition - connection.position)) available),
    .move (bodyTaken connection available written)]

/-- What `runHandler` touches, in this order. -/
def handlerTouches (env : Env) (outcome : FlushOutcome) (written : Int)
    (reading : Reading env.kh) : List Touch :=
  match reading.extracting, reading.session.connection.handler with
  | some code, _ =>
      iterateTouches (httpReadHeaderExtraction env code) touchesHeaderExtraction
        reading
  | none, .handleMethod =>
      skipTouches reading.input ++
        match skipOverNewlines reading.input with
        | .ok input =>
            iterateTouches httpReadRequeststartmethod touchesRequeststartmethod
              { reading with input }
        | .error _ => []
  | none, .handleUrl =>
      iterateTouches (httpReadRequeststarturl1 env outcome)
        (touchesRequeststarturl1 env outcome) reading
  | none, .handleUrlKey =>
      iterateTouches (httpReadRequeststarturl2 env outcome)
        touchesRequeststarturl2 reading
  | none, .handleHttpversion =>
      consumingTouches httpReadVersion touchesVersion reading
  | none, .handleHeaders =>
      iterateTouches httpReadHeaders touchesHeaders reading
  | none, .handleRequestBody => requestBodyTouches reading written
  | none, .handleEolstats =>
      consumingTouches httpReadEoltoend touchesEoltoend reading
  | none, .handleEolwritetoend =>
      consumingTouches httpReadEoltoend touchesEoltoend reading
  | none, _ => []

section Within

variable {input : ReadBuffer} {bytes : Bytes} {first second : List Touch}

theorem within_append :
    Within input (first ++ second) ↔
      Within input first ∧ Within (first.foldl touched input) second := by
  induction first generalizing input with
  | nil => exact (true_and _).to_iff.symm
  | cons touch first ih =>
      cases touch with
      | look cell =>
          change _ ∧ Within input (first ++ second) ↔ (_ ∧ _) ∧ _
          rw [ih]
          exact and_assoc.symm
      | take count =>
          change _ ∧ Within input (first ++ second) ↔ (_ ∧ _) ∧ _
          rw [ih]
          exact and_assoc.symm
      | move count =>
          change _ ∧ Within (input.readMove count) (first ++ second) ↔
            (_ ∧ _) ∧ _
          rw [ih]
          exact and_assoc.symm

/-- All moves together are one over what has arrived. -/
theorem Within.moves (within : Within input first) (holds : input.Holds bytes) :
    ∃ count ≤ bytes.length, moved first = count ∧
      first.foldl touched input = input.readMove (count : Nat) := by
  induction first generalizing input bytes with
  | nil => exact ⟨0, Nat.zero_le _, rfl, holds.readMove_zero.symm⟩
  | cons touch first ih =>
      cases touch with
      | look cell => exact ih within.2 holds
      | take count => exact ih within.2 holds
      | move count =>
          obtain ⟨⟨nonneg, le⟩, rest⟩ := within
          rw [holds.readRemaining] at le
          obtain ⟨count, rfl⟩ := Int.eq_ofNat_of_zero_le nonneg
          obtain ⟨more, moreLe, isMore, both⟩ :=
            ih rest (holds.readMove (show count ≤ bytes.length by omega))
          rw [List.length_drop] at moreLe
          refine ⟨count + more, by omega, ?_, ?_⟩
          · change count + moved first = _
            rw [isMore]
            push_cast
            rfl
          change first.foldl touched (input.readMove count) = _
          rw [both, readMove_readMove]
          push_cast
          rfl

/-- What is consumed is gone, and the rest is as it was. -/
theorem Within.holds (within : Within input first) (holds : input.Holds bytes) :
    ∃ count ≤ bytes.length,
      (first.foldl touched input).Holds (bytes.drop count) := by
  obtain ⟨count, le, -, both⟩ := within.moves holds
  rw [both]
  exact ⟨count, le, holds.readMove le⟩

theorem moved_append (first second : List Touch) :
    moved (first ++ second) = moved first + moved second := by
  induction first with
  | nil => exact (zero_add _).symm
  | cons touch first ih =>
      cases touch with
      | look cell => exact ih
      | take count => exact ih
      | move count =>
          change count + moved (first ++ second) = count + moved first + _
          rw [ih, add_assoc]

theorem Within.moved_nonneg (within : Within input first)
    (holds : input.Holds bytes) : 0 ≤ moved first := by
  obtain ⟨count, -, same, -⟩ := within.moves holds
  rw [same]
  exact Int.natCast_nonneg count

/-- What is left to be read. -/
theorem Within.remaining (within : Within input first)
    (holds : input.Holds bytes) :
    ((first.foldl touched input).rbufReadRemaining : Int) =
      bytes.length - moved first := by
  obtain ⟨count, le, same, both⟩ := within.moves holds
  rw [both, (holds.readMove le).readRemaining, List.length_drop, same]
  omega

end Within

section Iteration

variable {inner : Inner kh} {touches : Touches kh} {input : ReadBuffer}
  {bytes : Bytes} {States : Nat → Reading kh → Prop}

/-- Round `n` looks at byte `n` as long as the rounds before it have moved the
read position over no more than their bytes. -/
theorem within_look {current : ReadBuffer} {n skipped : Nat}
    (fewer : skipped ≤ n) (moved : current = input.readMove skipped)
    (more : n < current.rbufReadRemaining) :
    ∃ offset < current.rbufReadRemaining,
      (input.readPosition % bufferSize + n) % bufferSize =
        (current.readPosition + offset) % bufferSize := by
  refine ⟨n - skipped, by omega, ?_⟩
  subst moved
  change _ = (((input.readPosition + (skipped : Int)) % 65536).toNat +
    (n - skipped)) % bufferSize
  unfold bufferSize
  omega

section Round

variable {toEnd : Int} {rounds n index cell : Nat} {current next : Reading kh}

theorem rbufIterateTouches_goes (more : n < current.input.rbufReadRemaining)
    (place : (if toEnd = n then 0 else index) = cell)
    (once : inner current cell n = .ok (next, .continueProcessing)) :
    rbufIterateTouches inner touches toEnd (rounds + 1) current index n =
      (.look cell :: touches current cell n) ++
        rbufIterateTouches inner touches toEnd rounds next (cell + 1)
          (n + 1) := by
  rw [rbufIterateTouches, if_pos more]
  dsimp only
  rw [place, once]

theorem rbufIterateTouches_ends (more : n < current.input.rbufReadRemaining)
    (place : (if toEnd = n then 0 else index) = cell)
    (ends : ∀ next, inner current cell n ≠ .ok (next, .continueProcessing)) :
    rbufIterateTouches inner touches toEnd (rounds + 1) current index n =
      .look cell :: touches current cell n := by
  rw [rbufIterateTouches, if_pos more]
  dsimp only
  rw [place]
  cases once : inner current cell n with
  | error fault => exact List.append_nil _
  | ok result =>
      obtain ⟨next, did⟩ := result
      cases did with
      | continueProcessing => exact absurd once (ends next)
      | needsMoreRead => exact List.append_nil _
      | registeredWrite => exact List.append_nil _

end Round

/-- The rounds of `RBUF_ITERATE` over a straight buffer. -/
theorem rbufIterate_within (holds : input.Holds bytes)
    (straight : input.Straight)
    (places : ∀ n current, States n current →
      ∃ skipped ≤ n, current.input = input.readMove (skipped : Nat))
    (within : ∀ n < bytes.length, ∀ current, States n current →
      n < current.input.rbufReadRemaining →
        Within current.input (touches current
          ((input.readPosition % bufferSize + n) % bufferSize) n))
    (same : ∀ n < bytes.length, ∀ current after action, States n current →
      n < current.input.rbufReadRemaining →
      inner current ((input.readPosition % bufferSize + n) % bufferSize) n =
        .ok (after, action) →
          after.input = (touches current
            ((input.readPosition % bufferSize + n) % bufferSize) n).foldl
              touched current.input ∧
            (action = .continueProcessing → States (n + 1) after) ∧
            (action = .needsMoreRead → 0 < moved (touches current
              ((input.readPosition % bufferSize + n) % bufferSize) n)))
    {rounds n index : Nat} {current : Reading kh}
    (isIndex : index =
      if n ≤ 16384 - input.readPosition % bufferSize then
        input.readPosition % bufferSize + n
      else n - (16384 - input.readPosition % bufferSize))
    (le : n ≤ bytes.length) (state : States n current)
    (enough : 65536 ≤ n + rounds) :
    Within current.input
        (rbufIterateTouches inner touches input.rbufReadToEnd rounds current
          index n) ∧
      ∀ after action count,
        rbufIterate inner input.rbufReadToEnd rounds current index n =
          .ok (after, action, count) →
            after.input = (rbufIterateTouches inner touches
              input.rbufReadToEnd rounds current index n).foldl touched
                current.input ∧
              (action = .continueProcessing → count ≤ bytes.length ∧
                after.input.rbufReadRemaining ≤ count ∧ States count after) ∧
              (action = .needsMoreRead → 0 < moved (rbufIterateTouches inner
                touches input.rbufReadToEnd rounds current index n)) := by
  induction rounds generalizing current index n with
  | zero =>
      have lengthLe := holds.length_le
      omega
  | succ rounds ih =>
      have toEnd := holds.readToEnd straight
      have lengthLe := holds.length_le
      obtain ⟨skipped, fewer, moved⟩ := places n current state
      by_cases more : n < current.input.rbufReadRemaining
      · have inRange : n < bytes.length := by
          have remaining := (holds.readMove (fewer.trans le)).readRemaining
          rw [← moved, List.length_drop] at remaining
          omega
        have place : (if input.rbufReadToEnd = n then 0 else index) =
            (input.readPosition % bufferSize + n) % bufferSize := by
          unfold bufferSize at *
          split <;> split at isIndex <;> omega
        have looks := within_look fewer moved more
        have here := within n inRange current state more
        have iterates : rbufIterate inner input.rbufReadToEnd (rounds + 1)
            current index n = (do
          let result ← inner current
            ((input.readPosition % bufferSize + n) % bufferSize) n
          if result.2 = .continueProcessing then
            rbufIterate inner input.rbufReadToEnd rounds result.1
              ((input.readPosition % bufferSize + n) % bufferSize + 1) (n + 1)
          else
            return (result.1, result.2, n + 1)) := by
          rw [rbufIterate, if_pos more]
          dsimp only
          rw [place]
        rw [iterates]
        cases once : inner current
            ((input.readPosition % bufferSize + n) % bufferSize) n with
        | error fault =>
            rw [rbufIterateTouches_ends more place fun next going => by
              rw [once] at going
              cases going]
            exact ⟨⟨looks, here⟩, fun after action count run => by cases run⟩
        | ok result =>
            obtain ⟨next, did⟩ := result
            obtain ⟨isNext, goes, ended⟩ :=
              same n inRange current next did state more once
            by_cases isGoing : did = .continueProcessing
            · subst isGoing
              obtain ⟨later, ends⟩ := @ih (n + 1)
                ((input.readPosition % bufferSize + n) % bufferSize + 1) next
                  (by unfold bufferSize at *; split <;> omega) inRange (goes rfl)
                    (by omega)
              rw [isNext] at later ends
              rw [rbufIterateTouches_goes more place once, List.foldl_append,
                moved_append]
              refine ⟨within_append.mpr ⟨⟨looks, here⟩, later⟩,
                fun after action count run => ?_⟩
              obtain ⟨last, went, positive⟩ := ends after action count run
              refine ⟨last, went, fun needs => ?_⟩
              have nonneg := here.moved_nonneg (moved ▸
                holds.readMove (fewer.trans le))
              have later := positive needs
              change 0 < Parsing.moved (touches current _ n) + _
              omega
            · rw [rbufIterateTouches_ends more place fun next going => by
                rw [once] at going
                exact isGoing (Prod.mk.inj (Except.ok.inj going)).2]
              refine ⟨⟨looks, here⟩, fun after action count run => ?_⟩
              change (if did = .continueProcessing then _ else _) = _ at run
              rw [if_neg isGoing] at run
              obtain ⟨rfl, rfl, rfl⟩ := by
                simpa using pure_eq_ok.mp run
              exact ⟨isNext, fun going => absurd going isGoing, ended⟩
      · unfold rbufIterate rbufIterateTouches
        rw [if_neg more, if_neg more]
        refine ⟨trivial, fun after action count run => ?_⟩
        obtain ⟨rfl, rfl, rfl⟩ := by
          simpa using pure_eq_ok.mp run
        exact ⟨rfl, fun _ => ⟨le, Nat.not_lt.mp more, state⟩,
          fun needs => by cases needs⟩

/-- `RBUF_ITERATE` over a straight buffer. -/
theorem iterate_within {reading : Reading kh}
    (holds : reading.input.Holds bytes) (straight : reading.input.Straight)
    (places : ∀ n current, States n current →
      ∃ skipped ≤ n, current.input = reading.input.readMove (skipped : Nat))
    (within : ∀ n < bytes.length, ∀ current, States n current →
      n < current.input.rbufReadRemaining →
        Within current.input (touches current
          ((reading.input.readPosition % bufferSize + n) % bufferSize) n))
    (same : ∀ n < bytes.length, ∀ current after action, States n current →
      n < current.input.rbufReadRemaining →
      inner current
        ((reading.input.readPosition % bufferSize + n) % bufferSize) n =
          .ok (after, action) →
            after.input = (touches current
              ((reading.input.readPosition % bufferSize + n) % bufferSize)
                n).foldl touched current.input ∧
              (action = .continueProcessing → States (n + 1) after) ∧
              (action = .needsMoreRead → 0 < moved (touches current
                ((reading.input.readPosition % bufferSize + n) % bufferSize) n)))
    (begins : States 0 reading) :
    Within reading.input (iterateTouches inner touches reading) ∧
      ∀ after action count, iterate inner reading = .ok (after, action, count) →
        after.input =
            (iterateTouches inner touches reading).foldl touched reading.input ∧
          (action = .continueProcessing → count ≤ bytes.length ∧
            after.input.rbufReadRemaining ≤ count ∧ States count after) ∧
          (action = .needsMoreRead →
            0 < moved (iterateTouches inner touches reading)) := by
  unfold iterate iterateTouches
  dsimp only
  split
  · next atEnd =>
      refine ⟨trivial, fun after action count run => ?_⟩
      obtain ⟨rfl, rfl, rfl⟩ := by
        simpa using pure_eq_ok.mp run
      have toEnd := holds.readToEnd straight
      have lengthLe := holds.length_le
      refine ⟨rfl, fun _ => ⟨Nat.zero_le _, ?_, begins⟩,
        fun needs => by cases needs⟩
      rw [holds.readRemaining]
      omega
  · refine rbufIterate_within holds straight places within same ?_
      (Nat.zero_le _) begins (by omega)
    rw [if_pos (Nat.zero_le _), Nat.add_zero]

end Iteration

section Inner

variable {env : Env} {outcome : FlushOutcome} {written : Int}
  {input : ReadBuffer} {bytes : Bytes}

/-- Nothing but the number `state` has changed. -/
structure Alike (before after : Reading kh) : Prop where
  input : after.input = before.input
  session : after.session = before.session
  extracting : after.extracting = before.extracting

theorem Alike.refl (reading : Reading kh) : Alike reading reading :=
  ⟨rfl, rfl, rfl⟩

theorem Alike.trans {before between after : Reading kh}
    (first : Alike before between) (second : Alike between after) :
    Alike before after :=
  ⟨second.input.trans first.input, second.session.trans first.session,
    second.extracting.trans first.extracting⟩

/-- A round keeps to what has arrived, and it passes over a byte and leaves the
buffer alone, or it ends. -/
structure Consumes (inner : Inner kh) (touches : Touches kh)
    (passes : Nat → UInt8 → Prop) (input : ReadBuffer) : Prop where
  within : ∀ n < input.rbufReadRemaining, ∀ current : Reading kh,
    current.input = input → Within current.input (touches current
      ((input.readPosition % bufferSize + n) % bufferSize) n)
  same : ∀ n < input.rbufReadRemaining, ∀ current after action,
    current.input = input →
      inner current ((input.readPosition % bufferSize + n) % bufferSize) n =
        .ok (after, action) →
          after.input = (touches current
            ((input.readPosition % bufferSize + n) % bufferSize) n).foldl
              touched current.input ∧
            (action = .continueProcessing → Alike current after ∧
              passes n (current.input.buffer
                ((input.readPosition % bufferSize + n) % bufferSize))) ∧
            (action = .needsMoreRead → 0 < moved (touches current
              ((input.readPosition % bufferSize + n) % bufferSize) n))

theorem within_move {count : Int}
    (le : 0 ≤ count ∧ count ≤ input.rbufReadRemaining) :
    Within input [.move count] := ⟨le, trivial⟩

theorem within_take_move {count length : Int}
    (has : 0 ≤ length ∧ length ≤ input.rbufReadRemaining)
    (le : 0 ≤ count ∧ count ≤ input.rbufReadRemaining) :
    Within input [.take length, .move count] := ⟨has, le, trivial⟩

theorem holds_cell (holds : input.Holds bytes) {n : Nat}
    (inRange : n < bytes.length) :
    input.buffer ((input.readPosition % bufferSize + n) % bufferSize) =
      bytes[n] := by
  have isByte := holds.byte_eq n inRange
  rw [← isByte]
  congr 1
  unfold bufferSize
  omega

section Iterate

variable {inner : Inner kh} {touches : Touches kh}
  {passes : Nat → UInt8 → Prop} {reading : Reading kh}

/-- When the iteration goes on, it has passed over all bytes. -/
theorem Consumes.iterate
    (consumes : Consumes inner touches passes reading.input)
    (holds : reading.input.Holds bytes) (straight : reading.input.Straight) :
    Within reading.input (iterateTouches inner touches reading) ∧
      ∀ after action count,
        Parsing.iterate inner reading = .ok (after, action, count) →
          after.input = (iterateTouches inner touches reading).foldl touched
            reading.input ∧
          (action = .continueProcessing → count = bytes.length ∧
            Alike reading after ∧
            ∀ n (inRange : n < bytes.length), passes n bytes[n]) ∧
          (action = .needsMoreRead →
            0 < moved (iterateTouches inner touches reading)) := by
  have remaining := holds.readRemaining
  have both := @iterate_within _ inner touches _
    (fun n current => Alike reading current ∧
      ∀ m (below : m < n) (inRange : m < bytes.length), passes m bytes[m])
    reading holds straight ?_ ?_ ?_
      ⟨Alike.refl reading, fun m below => absurd below (Nat.not_lt_zero m)⟩
  · refine ⟨both.1, fun after action count run => ?_⟩
    obtain ⟨same, goes, needs⟩ := both.2 after action count run
    refine ⟨same, fun going => ?_, needs⟩
    obtain ⟨le, all, alike, passed⟩ := goes going
    rw [alike.input, remaining] at all
    exact ⟨le.antisymm all, alike,
      fun n inRange => passed n (by omega) inRange⟩
  · intro n current state
    exact ⟨0, Nat.zero_le n, state.1.input.trans holds.readMove_zero.symm⟩
  · intro n _ current state more
    rw [state.1.input] at more
    exact consumes.within n more current state.1.input
  · intro n inRange current after action state _ once
    obtain ⟨same, goes, needs⟩ :=
      consumes.same n (by omega) current after action state.1.input once
    refine ⟨same, fun going => ?_, needs⟩
    obtain ⟨alike, passed⟩ := goes going
    rw [state.1.input, holds_cell holds inRange] at passed
    refine ⟨state.1.trans alike, fun m below inBytes => ?_⟩
    by_cases isLast : m = n
    · subst isLast
      exact passed
    · exact state.2 m (by omega) inBytes

theorem roundOf_ok {after : Reading kh} {action : StateAction}
    (run : roundOf inner reading = .ok (after, action)) :
    ∃ did count, iterate inner reading = .ok (after, did, count) ∧
      goOn did = action := by
  unfold roundOf at run
  simp only [bind_eq_ok, Prod.exists] at run
  obtain ⟨ended, did, count, iterates, run⟩ := run
  obtain ⟨rfl, same⟩ := Prod.mk.inj (pure_eq_ok.mp run)
  exact ⟨did, count, iterates, same⟩

/-- A handler that does nothing behind its iteration. -/
theorem Consumes.roundOf (consumes : Consumes inner touches passes reading.input)
    (holds : reading.input.Holds bytes) (straight : reading.input.Straight)
    {after : Reading kh} {action : StateAction}
    (run : roundOf inner reading = .ok (after, action)) :
    after.input =
      (iterateTouches inner touches reading).foldl touched reading.input := by
  obtain ⟨did, count, iterates, -⟩ := roundOf_ok run
  exact ((consumes.iterate holds straight).2 _ _ _ iterates).1

theorem Consumes.consuming_within
    (consumes : Consumes inner touches passes reading.input)
    (holds : reading.input.Holds bytes) (straight : reading.input.Straight) :
    Within reading.input (consumingTouches inner touches reading) := by
  obtain ⟨within, ends⟩ := consumes.iterate holds straight
  refine within_append.mpr ⟨within, ?_⟩
  split
  · next ended n iterates =>
      obtain ⟨same, goes, -⟩ := ends _ _ _ iterates
      obtain ⟨isCount, alike, -⟩ := goes rfl
      rw [← same, alike.input]
      refine within_move ?_
      rw [holds.readRemaining]
      omega
  · trivial

/-- A handler that moves over all it has looked at when it goes on. -/
theorem Consumes.consuming (consumes : Consumes inner touches passes reading.input)
    (holds : reading.input.Holds bytes) (straight : reading.input.Straight)
    {ended : Reading kh} {did : StateAction} {count : Nat}
    (iterates : Parsing.iterate inner reading = .ok (ended, did, count)) :
    (if did = .continueProcessing then ended.input.readMove count
        else ended.input) =
      (consumingTouches inner touches reading).foldl touched
        reading.input := by
  obtain ⟨same, -⟩ := (consumes.iterate holds straight).2 _ _ _ iterates
  unfold consumingTouches
  rw [List.foldl_append, iterates, ← same]
  cases did with
  | continueProcessing => rfl
  | needsMoreRead => rfl
  | registeredWrite => rfl

theorem Consumes.consumingHandler
    (consumes : Consumes inner touches passes reading.input)
    (holds : reading.input.Holds bytes) (straight : reading.input.Straight)
    {after : Reading kh} {action : StateAction}
    (run : (do
      let (reading, action, n) ← Parsing.iterate inner reading
      if action = .continueProcessing then
        return (reading.move n, .needsMoreRead)
      else return (reading, action) : Except Fault (Reading kh × StateAction)) =
        .ok (after, action)) :
    after.input =
      (consumingTouches inner touches reading).foldl touched
        reading.input := by
  simp only [bind_eq_ok, Prod.exists] at run
  obtain ⟨ended, did, count, iterates, run⟩ := run
  have same := consumes.consuming holds straight iterates
  split at run
  · next goes =>
      obtain ⟨rfl, -⟩ := Prod.mk.inj (pure_eq_ok.mp run)
      rw [if_pos goes] at same
      exact same
  · next ends =>
      obtain ⟨rfl, -⟩ := Prod.mk.inj (pure_eq_ok.mp run)
      rw [if_neg ends] at same
      exact same

end Iterate

theorem moved_move (count : Int) : moved [.move count] = count :=
  add_zero count

theorem moved_take_move (length count : Int) :
    moved [.take length, .move count] = count := add_zero count

/-- A word that is longer than a method is not looked at. -/
theorem consumes_method : Consumes (httpReadRequeststartmethod : Inner kh)
    touchesRequeststartmethod (fun _ byte => byte ≠ space) input where
  within := by
    intro n more current same
    rw [← same] at more
    unfold touchesRequeststartmethod
    split
    · exact within_move (by omega)
    · split
      · exact within_take_move (by omega) (by omega)
      · trivial
  same := by
    intro n more current after action same run
    unfold httpReadRequeststartmethod at run
    unfold touchesRequeststartmethod
    split at run
    · next long =>
        obtain ⟨rfl, rfl⟩ := Prod.mk.inj (pure_eq_ok.mp run)
        rw [if_pos long, moved_move]
        exact ⟨rfl, nofun, fun _ => by omega⟩
    · next short =>
        rw [if_neg short]
        split at run
        · next isSpace =>
            simp only [bind_eq_ok] at run
            obtain ⟨word, -, run⟩ := run
            obtain ⟨rfl, rfl⟩ := Prod.mk.inj (pure_eq_ok.mp run)
            rw [if_pos isSpace, moved_take_move]
            exact ⟨rfl, nofun, fun _ => by omega⟩
        · next other =>
            obtain ⟨rfl, rfl⟩ := Prod.mk.inj (pure_eq_ok.mp run)
            rw [if_neg other]
            exact ⟨rfl, fun _ => ⟨Alike.refl _, other⟩,
              fun needs => by cases needs⟩

theorem consumes_url2 : Consumes (httpReadRequeststarturl2 env outcome)
    touchesRequeststarturl2 (fun _ byte => byte ≠ space) input where
  within := by
    intro n more current same
    rw [← same] at more
    unfold touchesRequeststarturl2
    split
    · exact within_take_move (by omega) (by omega)
    · trivial
  same := by
    intro n more current after action same run
    unfold httpReadRequeststarturl2 at run
    unfold touchesRequeststarturl2
    split at run
    · next isSpace =>
        rw [if_pos isSpace, moved_take_move]
        simp only [bind_eq_ok] at run
        obtain ⟨key, -, run⟩ := run
        split at run
        · simp only [bind_eq_ok] at run
          obtain ⟨session, -, run⟩ := run
          obtain ⟨rfl, rfl⟩ := Prod.mk.inj (pure_eq_ok.mp run)
          exact ⟨rfl, nofun, fun _ => by omega⟩
        · simp only [bind_eq_ok] at run
          obtain ⟨session, -, run⟩ := run
          obtain ⟨rfl, rfl⟩ := Prod.mk.inj (pure_eq_ok.mp run)
          exact ⟨rfl, nofun, fun _ => by omega⟩
    · next other =>
        obtain ⟨rfl, rfl⟩ := Prod.mk.inj (pure_eq_ok.mp run)
        rw [if_neg other]
        exact ⟨rfl, fun _ => ⟨Alike.refl _, other⟩,
          fun needs => by cases needs⟩

theorem consumes_version : Consumes (httpReadVersion : Inner kh)
    touchesVersion (fun _ byte => byte ≠ newline) input where
  within := by
    intro n more current same
    rw [← same] at more
    unfold touchesVersion
    split
    · exact within_move (by omega)
    · trivial
  same := by
    intro n more current after action same run
    unfold httpReadVersion at run
    unfold touchesVersion
    split at run
    · next isNewline =>
        obtain ⟨rfl, rfl⟩ := Prod.mk.inj (pure_eq_ok.mp run)
        rw [if_pos isNewline, moved_move]
        exact ⟨rfl, nofun, fun _ => by omega⟩
    · next other =>
        obtain ⟨rfl, rfl⟩ := Prod.mk.inj (pure_eq_ok.mp run)
        rw [if_neg other]
        exact ⟨rfl, fun _ => ⟨Alike.refl _, other⟩,
          fun needs => by cases needs⟩

/-- The end of a refused request has been found, or the search goes on. -/
theorem httpReadEoltoend_ok {current after : Reading kh} {index n : Nat}
    {action : StateAction}
    (run : httpReadEoltoend current index n = .ok (after, action)) :
    action = .registeredWrite ∧ after.input = current.input.readMove n ∨
      action = .continueProcessing ∧ Alike current after := by
  have either : ∀ target reached : Nat, (if target = reached then
      (pure ({ current.move n with
        session := current.session.moveTo .respondWriteonly, state := 0 },
          .registeredWrite) : Except Fault (Reading kh × StateAction))
      else pure ({ current with state := target + reached * 65536 },
        .continueProcessing)) = .ok (after, action) →
      action = .registeredWrite ∧ after.input = current.input.readMove n ∨
        action = .continueProcessing ∧ Alike current after := by
    intro target reached run
    split at run
    · obtain ⟨rfl, rfl⟩ := Prod.mk.inj (pure_eq_ok.mp run)
      exact Or.inl ⟨rfl, rfl⟩
    · obtain ⟨rfl, rfl⟩ := Prod.mk.inj (pure_eq_ok.mp run)
      exact Or.inr ⟨rfl, rfl, rfl, rfl⟩
  exact either _ _ run

theorem consumes_eoltoend : Consumes (httpReadEoltoend : Inner kh)
    touchesEoltoend (fun _ _ => True) input where
  within := by
    intro n more current same
    rw [← same] at more
    unfold touchesEoltoend
    split
    · exact within_move (by omega)
    · trivial
  same := by
    intro n more current after action same run
    unfold touchesEoltoend
    rw [run]
    rcases httpReadEoltoend_ok run with ⟨rfl, moves⟩ | ⟨rfl, alike⟩
    · exact ⟨moves, nofun, fun needs => by cases needs⟩
    · exact ⟨alike.input, fun _ => ⟨alike, trivial⟩,
        fun needs => by cases needs⟩

/-- A colon is `bytes` behind the read position, also where it has wrapped. -/
theorem colon_place (holds : input.Holds bytes) (straight : input.Straight)
    {n : Nat} (inRange : n < bytes.length) {index : Nat}
    (isIndex : index = (input.readPosition % bufferSize + n) % bufferSize) :
    (if distance input index < 0 then input.rbufReadToEnd + index
      else distance input index) = n := by
  have toEnd := holds.readToEnd straight
  have lengthLe := holds.length_le
  unfold distance
  unfold bufferSize at *
  split <;> omega

theorem consumes_headers (holds : input.Holds bytes)
    (straight : input.Straight) :
    Consumes (httpReadHeaders : Inner kh) touchesHeaders
      (fun _ byte => byte ≠ newline) input where
  within := by
    intro n more current same
    have inRange : n < bytes.length := by
      rw [← holds.readRemaining]
      exact more
    unfold touchesHeaders
    dsimp only
    rw [same]
    split
    · rw [colon_place holds straight inRange rfl]
      split
      · exact within_take_move (by omega) (by omega)
      · exact ⟨by omega, trivial⟩
    · split
      · exact within_move (by omega)
      · trivial
  same := by
    intro n more current after action same run
    have inRange : n < bytes.length := by
      rw [← holds.readRemaining]
      exact more
    unfold httpReadHeaders at run
    unfold touchesHeaders
    dsimp only at run ⊢
    split at run
    · next isColon =>
        have notNewline : current.input.buffer
            ((input.readPosition % bufferSize + n) % bufferSize) ≠ newline := by
          rw [isColon]
          decide
        rw [if_pos isColon]
        rw [same, colon_place holds straight inRange rfl] at run ⊢
        simp only [bind_eq_ok] at run
        obtain ⟨found, isFound, run⟩ := run
        rw [isFound]
        cases found with
        | some code =>
            obtain ⟨rfl, rfl⟩ := Prod.mk.inj (pure_eq_ok.mp run)
            dsimp only
            rw [moved_take_move]
            exact ⟨congrArg (ReadBuffer.readMove · (n + 1)) same,
              nofun, fun _ => by omega⟩
        | none =>
            obtain ⟨rfl, rfl⟩ := Prod.mk.inj (pure_eq_ok.mp run)
            exact ⟨same, fun _ => ⟨Alike.refl _, same ▸ notNewline⟩,
              fun needs => by cases needs⟩
    · next notColon =>
        rw [if_neg notColon]
        split at run
        · next isNewline =>
            rw [if_pos isNewline, moved_move]
            split at run
            · simp only [bind_eq_ok] at run
              obtain ⟨session, -, run⟩ := run
              obtain ⟨rfl, rfl⟩ := Prod.mk.inj (pure_eq_ok.mp run)
              refine ⟨rfl, fun going => ?_, fun _ => by omega⟩
              unfold routed at going
              split at going <;> cases going
            · obtain ⟨rfl, rfl⟩ := Prod.mk.inj (pure_eq_ok.mp run)
              exact ⟨rfl, nofun, fun _ => by omega⟩
        · next notNewline =>
            rw [if_neg notNewline]
            split at run
            · obtain ⟨rfl, rfl⟩ := Prod.mk.inj (pure_eq_ok.mp run)
              exact ⟨rfl, fun _ => ⟨⟨rfl, rfl, rfl⟩, notNewline⟩,
                fun needs => by cases needs⟩
            · obtain ⟨rfl, rfl⟩ := Prod.mk.inj (pure_eq_ok.mp run)
              exact ⟨rfl, fun _ => ⟨Alike.refl _, notNewline⟩,
                fun needs => by cases needs⟩

/-- The end of a URL without a key is followed by a byte. -/
def UrlFollowed (content : Bytes) : Prop :=
  ∀ n (inRange : n < content.length), 1 ≤ n → content[n] = space →
    (∀ m (below : m < n), 1 ≤ m → content[m] ≠ slash ∧ content[m] ≠ space) →
      n + 1 < content.length

/-- Where the name of a table ends. -/
theorem within_url1 {current : Reading env.kh} {index n : Nat}
    (holds : current.input.Holds bytes)
    (more : n < current.input.rbufReadRemaining)
    (followed : n ≠ 0 → current.input.buffer index = space →
      n + 1 < current.input.rbufReadRemaining) :
    Within current.input
      (touchesRequeststarturl1 env outcome current index n) := by
  have remaining : (current.input.readMove 1).rbufReadRemaining =
      current.input.rbufReadRemaining - 1 := by
    have length := holds.readRemaining
    rw [length, ← List.length_drop]
    exact (holds.readMove (show 1 ≤ bytes.length by omega)).readRemaining
  unfold touchesRequeststarturl1
  dsimp only
  split
  · trivial
  · next special =>
      have positive : n ≠ 0 := fun zero => special (Or.inl zero)
      split
      · split
        · split
          · exact ⟨by omega, within_take_move (by omega) (by omega)⟩
          · exact ⟨by omega, by omega, trivial⟩
        · exact ⟨by omega, by omega, trivial⟩
      · next notSlash =>
          have isSpace : current.input.buffer index = space := by
            by_contra other
            exact special (Or.inr ⟨notSlash, other⟩)
          have enough := followed positive isSpace
          exact ⟨by omega, within_take_move (by omega) (by omega)⟩

theorem httpReadRequeststarturl1_same {current after : Reading env.kh}
    {index n : Nat} {action : StateAction}
    (run : httpReadRequeststarturl1 env outcome current index n =
      .ok (after, action)) :
    after.input = (touchesRequeststarturl1 env outcome current index n).foldl
        touched current.input ∧
      (action = .continueProcessing → after = current ∧
        (n = 0 ∨ current.input.buffer index ≠ slash ∧
          current.input.buffer index ≠ space)) ∧
      (action = .needsMoreRead →
        0 < moved (touchesRequeststarturl1 env outcome current index n)) := by
  have result := run
  unfold httpReadRequeststarturl1 at run
  unfold touchesRequeststarturl1
  dsimp only at run ⊢
  split at run
  · next passed =>
      obtain ⟨rfl, rfl⟩ := Prod.mk.inj (pure_eq_ok.mp run)
      rw [if_pos passed]
      exact ⟨rfl, fun _ => ⟨rfl, passed⟩, nofun⟩
  · next special =>
      rw [if_neg special]
      simp only [bind_eq_ok] at run
      obtain ⟨name, -, run⟩ := run
      split at run
      · next isSlash =>
          rw [if_pos isSlash, result]
          simp only [bind_eq_ok] at run
          obtain ⟨session, -, run⟩ := run
          split at run
          · next follows =>
              obtain ⟨rfl, rfl⟩ := Prod.mk.inj (pure_eq_ok.mp run)
              dsimp only
              rw [if_pos follows]
              exact ⟨rfl, nofun, fun _ => by
                change (0 : Int) < 1 + (n + 0)
                omega⟩
          · next none_ =>
              obtain ⟨rfl, rfl⟩ := Prod.mk.inj (pure_eq_ok.mp run)
              dsimp only
              rw [if_neg none_]
              exact ⟨rfl, nofun, fun _ => by
                change (0 : Int) < 1 + 0
                omega⟩
      · next notSlash =>
          rw [if_neg notSlash]
          simp only [bind_eq_ok] at run
          obtain ⟨session, -, run⟩ := run
          obtain ⟨rfl, rfl⟩ := Prod.mk.inj (pure_eq_ok.mp run)
          exact ⟨rfl, nofun, fun _ => by
            change (0 : Int) < 1 + (n + 1 + 0)
            omega⟩

/-- When the iteration goes on, no name has ended. -/
theorem url1_within {reading : Reading env.kh}
    (holds : reading.input.Holds bytes) (straight : reading.input.Straight)
    (followed : UrlFollowed bytes) :
    Within reading.input
        (iterateTouches (httpReadRequeststarturl1 env outcome)
          (touchesRequeststarturl1 env outcome) reading) ∧
      ∀ after action count,
        iterate (httpReadRequeststarturl1 env outcome) reading =
          .ok (after, action, count) →
            after.input = (iterateTouches (httpReadRequeststarturl1 env outcome)
              (touchesRequeststarturl1 env outcome) reading).foldl touched
                reading.input ∧
            (action = .continueProcessing → after = reading ∧
              ∀ n (inRange : n < bytes.length), 1 ≤ n →
                bytes[n] ≠ slash ∧ bytes[n] ≠ space) ∧
            (action = .needsMoreRead → 0 < moved
              (iterateTouches (httpReadRequeststarturl1 env outcome)
                (touchesRequeststarturl1 env outcome) reading)) := by
  have both := @iterate_within _ (httpReadRequeststarturl1 env outcome)
    (touchesRequeststarturl1 env outcome) _
    (fun n current => current = reading ∧
      ∀ m (below : m < n) (inRange : m < bytes.length), 1 ≤ m →
        bytes[m] ≠ slash ∧ bytes[m] ≠ space) reading holds straight ?_ ?_ ?_
      ⟨rfl, fun m below => absurd below (Nat.not_lt_zero m)⟩
  · refine ⟨both.1, fun after action count run => ?_⟩
    obtain ⟨same, goes, needs⟩ := both.2 after action count run
    refine ⟨same, fun going => ?_, needs⟩
    obtain ⟨-, all, rfl, plain⟩ := goes going
    rw [holds.readRemaining] at all
    exact ⟨rfl, fun n inRange => plain n (by omega) inRange⟩
  · rintro n current ⟨rfl, -⟩
    exact ⟨0, Nat.zero_le n, holds.readMove_zero.symm⟩
  · rintro n inRange current ⟨rfl, plain⟩ more
    refine within_url1 holds more fun positive isSpace => ?_
    rw [holds_cell holds inRange] at isSpace
    rw [holds.readRemaining]
    exact followed n inRange (Nat.pos_of_ne_zero positive) isSpace
      fun m below some_ => plain m below (by omega) some_
  · rintro n inRange current after action ⟨rfl, plain⟩ - once
    obtain ⟨same, goes, needs⟩ := httpReadRequeststarturl1_same once
    refine ⟨same, fun going => ?_, needs⟩
    obtain ⟨rfl, passed⟩ := goes going
    rw [holds_cell holds inRange] at passed
    refine ⟨rfl, fun m below inBytes some_ => ?_⟩
    by_cases isLast : m = n
    · subst isLast
      exact passed.resolve_left (by omega)
    · exact plain m (by omega) inBytes some_

/-- A header value ends before the end of the array, or nothing but spaces
lies before that end, and a byte has arrived behind a carriage return. -/
def ValueEnds (input : ReadBuffer) (content : Bytes) : Prop :=
  ∀ n (inRange : n < content.length),
    n + (content.take n).count space < content.length →
      ReadBuffer.isNewline content[n] = true →
        (∀ m (below : m < n), ReadBuffer.isNewline content[m] = false) →
          (n < input.cellsToEnd ∨
            input.cellsToEnd ≤ (content.take n).count space) ∧
            (content[n] = carriageReturn → n + 1 < content.length)

theorem isNewline_iff (byte : UInt8) :
    ReadBuffer.isNewline byte = true ↔
      byte = newline ∨ byte = carriageReturn := by
  simp [ReadBuffer.isNewline, newline, carriageReturn, or_comm]

/-- Behind `skipped` spaces the end of the value is that much closer. -/
theorem distance_skipped (holds : input.Holds bytes) {skipped n : Nat}
    (le : skipped ≤ n) (inRange : n < bytes.length)
    (inPiece : n < input.cellsToEnd ∨ input.cellsToEnd ≤ skipped) :
    distance (input.readMove skipped)
        ((input.readPosition % bufferSize + n) % bufferSize) =
      n - skipped := by
  have readLt := holds.read_lt
  have lengthLe := holds.length_le
  unfold ReadBuffer.cellsToEnd at inPiece
  unfold distance ReadBuffer.readMove
  dsimp only
  unfold bufferSize at *
  omega

/-- The spaces among one byte more. -/
theorem count_take_succ {n : Nat} (inRange : n < bytes.length) :
    (bytes.take (n + 1)).count space = (bytes.take n).count space +
      if bytes[n] = space then 1 else 0 := by
  rw [List.take_succ_eq_append_getElem inRange, List.count_append,
    List.count_singleton]
  congr 1
  simp [beq_iff_eq]

theorem httpReadHeaderExtraction_same {code : HeaderCode}
    {current after : Reading env.kh} {index n : Nat} {action : StateAction}
    (run : httpReadHeaderExtraction env code current index n =
      .ok (after, action)) :
    after.input =
        (touchesHeaderExtraction current index n).foldl touched current.input ∧
      (action = .continueProcessing → after.session = current.session ∧
        after.extracting = current.extracting ∧
        ReadBuffer.isNewline (current.input.buffer index) = false) := by
  unfold httpReadHeaderExtraction at run
  unfold touchesHeaderExtraction
  dsimp only at run ⊢
  split at run
  · next isSpace =>
      obtain ⟨rfl, rfl⟩ := Prod.mk.inj (pure_eq_ok.mp run)
      rw [if_pos isSpace, isSpace]
      exact ⟨rfl, fun _ => ⟨rfl, rfl, by decide⟩⟩
  · next notSpace =>
      rw [if_neg notSpace]
      split at run
      · next ends =>
          rw [if_pos ends]
          simp only [bind_eq_ok] at run
          obtain ⟨header, -, run⟩ := run
          have either : ∀ (session : Session env.kh) (moved : Reading env.kh),
              (if session.connection.handler = .handleHeaders then
                (pure ({ moved with session, extracting := none, state := 1 },
                  .needsMoreRead) : Except Fault (Reading env.kh × StateAction))
              else pure ({ moved with session, extracting := none, state := 0 },
                .registeredWrite)) = .ok (after, action) →
              after.input = moved.input ∧ action ≠ .continueProcessing := by
            intro session moved run
            split at run
            · obtain ⟨rfl, rfl⟩ := Prod.mk.inj (pure_eq_ok.mp run)
              exact ⟨rfl, by simp⟩
            · obtain ⟨rfl, rfl⟩ := Prod.mk.inj (pure_eq_ok.mp run)
              exact ⟨rfl, by simp⟩
          split at run
          · simp only [bind_eq_ok] at run
            obtain ⟨session, -, run⟩ := run
            obtain ⟨same, stops⟩ := either session (current.move _) run
            exact ⟨same, fun going => absurd going stops⟩
          · simp only [bind_eq_ok] at run
            obtain ⟨session, -, run⟩ := run
            obtain ⟨same, stops⟩ := either session (current.move _) run
            exact ⟨same, fun going => absurd going stops⟩
      · next goes =>
          obtain ⟨rfl, rfl⟩ := Prod.mk.inj (pure_eq_ok.mp run)
          rw [if_neg goes]
          refine ⟨rfl, fun _ => ⟨rfl, rfl,
            Bool.eq_false_iff.mpr fun isEnd => ?_⟩⟩
          exact goes ((isNewline_iff _).mp isEnd)

theorem httpReadHeaderExtraction_goesOn {code : HeaderCode}
    {current after : Reading env.kh} {index n : Nat} {action : StateAction}
    {byte : UInt8}
    (run : httpReadHeaderExtraction env code current index n =
      .ok (after, action))
    (isByte : current.input.buffer index = byte)
    (goes : ¬(byte = newline ∨ byte = carriageReturn)) :
    action = .continueProcessing := by
  unfold httpReadHeaderExtraction at run
  dsimp only at run
  rw [isByte] at run
  by_cases isSpace : byte = space
  · rw [if_pos isSpace] at run
    exact (Prod.mk.inj (pure_eq_ok.mp run)).2.symm
  · rw [if_neg isSpace, if_neg goes] at run
    exact (Prod.mk.inj (pure_eq_ok.mp run)).2.symm

/-- When the iteration goes on, it has moved over the spaces that it has
passed. -/
theorem extraction_within {code : HeaderCode} {reading : Reading env.kh}
    (holds : reading.input.Holds bytes) (straight : reading.input.Straight)
    (inPiece : ValueEnds reading.input bytes) :
    Within reading.input
        (iterateTouches (httpReadHeaderExtraction env code)
          touchesHeaderExtraction reading) ∧
      ∀ after action count,
        iterate (httpReadHeaderExtraction env code) reading =
          .ok (after, action, count) →
            after.input = (iterateTouches (httpReadHeaderExtraction env code)
              touchesHeaderExtraction reading).foldl touched reading.input ∧
            (action = .continueProcessing → count ≤ bytes.length ∧
              after.input.rbufReadRemaining ≤ count ∧
              after.session = reading.session ∧
              after.extracting = reading.extracting ∧
              ∀ n (inRange : n < bytes.length), n < count →
                ReadBuffer.isNewline bytes[n] = false) ∧
            (action = .needsMoreRead → 0 < moved
              (iterateTouches (httpReadHeaderExtraction env code)
                touchesHeaderExtraction reading)) := by
  have fewer : ∀ n, (bytes.take n).count space ≤ n := fun n =>
    List.count_le_length.trans (List.length_take_le n bytes)
  have isByte : ∀ n (inRange : n < bytes.length) (current : Reading env.kh),
      current.input = reading.input.readMove
        ((bytes.take n).count space : Nat) →
          current.input.buffer ((reading.input.readPosition % bufferSize + n) %
            bufferSize) = bytes[n] := by
    intro n inRange current moves
    rw [moves]
    exact holds_cell holds inRange
  -- how far the end of a value is from where the spaces have been moved over
  have isLength : ∀ n (inRange : n < bytes.length) (current : Reading env.kh),
      n < current.input.rbufReadRemaining →
      current.input = reading.input.readMove
        ((bytes.take n).count space : Nat) →
      bytes[n] = newline ∨ bytes[n] = carriageReturn →
      (∀ m (below : m < n) (inRange : m < bytes.length),
        ReadBuffer.isNewline bytes[m] = false) →
      distance current.input ((reading.input.readPosition % bufferSize + n) %
          bufferSize) = n - (bytes.take n).count space ∧
        n + (if bytes[n] = carriageReturn then 2 else 1) ≤ bytes.length := by
    intro n inRange current more moves ends plain
    have few := fewer n
    have remaining := (holds.readMove (few.trans inRange.le)).readRemaining
    rw [List.length_drop, ← moves] at remaining
    obtain ⟨before, followed⟩ := inPiece n inRange (by omega)
      ((isNewline_iff _).mpr ends) fun m below => plain m below (by omega)
    refine ⟨moves ▸ distance_skipped holds few inRange before, ?_⟩
    split
    · next isReturn => exact followed isReturn
    · exact inRange
  have both := @iterate_within _ (httpReadHeaderExtraction env code)
    touchesHeaderExtraction _
    (fun n current =>
      current.input = reading.input.readMove
        ((bytes.take n).count space : Nat) ∧
      (current.session = reading.session ∧
        current.extracting = reading.extracting) ∧
      ∀ m (below : m < n) (inRange : m < bytes.length),
        ReadBuffer.isNewline bytes[m] = false) reading holds straight ?_ ?_ ?_
      ⟨holds.readMove_zero.symm, ⟨rfl, rfl⟩,
        fun m below => absurd below (Nat.not_lt_zero m)⟩
  · refine ⟨both.1, fun after action count run => ?_⟩
    obtain ⟨same, goes, needs⟩ := both.2 after action count run
    refine ⟨same, fun going => ?_, needs⟩
    obtain ⟨le, all, -, ⟨session, extracting⟩, plain⟩ := goes going
    exact ⟨le, all, session, extracting,
      fun n inRange below => plain n below inRange⟩
  · rintro n current ⟨moves, -⟩
    exact ⟨_, fewer n, moves⟩
  · rintro n inRange current ⟨moves, -, plain⟩ more
    have few := fewer n
    have remaining := (holds.readMove (few.trans inRange.le)).readRemaining
    rw [List.length_drop, ← moves] at remaining
    unfold touchesHeaderExtraction
    dsimp only
    rw [isByte n inRange current moves]
    split
    · exact within_move (by omega)
    · split
      · next ends =>
          obtain ⟨length, enough⟩ :=
            isLength n inRange current more moves ends plain
          rw [length]
          refine within_take_move (by omega) ?_
          split
          · next isReturn =>
              rw [if_pos isReturn] at enough
              omega
          · omega
      · trivial
  · rintro n inRange current after action ⟨moves, ⟨session, extracting⟩, plain⟩
      more once
    obtain ⟨same, goes⟩ := httpReadHeaderExtraction_same once
    refine ⟨same, fun going => ?_, ?_⟩
    · obtain ⟨sameSession, sameCode, other⟩ := goes going
      rw [isByte n inRange current moves] at other
      refine ⟨?_, ⟨sameSession.trans session, sameCode.trans extracting⟩,
        fun m below inBytes => ?_⟩
      · have spaces := count_take_succ inRange
        have notEnd : ¬(bytes[n] = newline ∨ bytes[n] = carriageReturn) :=
          fun ends => by
            rw [(isNewline_iff _).mpr ends] at other
            cases other
        rw [same]
        unfold touchesHeaderExtraction
        dsimp only
        rw [isByte n inRange current moves]
        by_cases isSpace : bytes[n] = space
        · rw [if_pos isSpace] at spaces ⊢
          change current.input.readMove 1 = _
          rw [moves, readMove_readMove, spaces]
          push_cast
          rfl
        · rw [if_neg isSpace] at spaces ⊢
          rw [if_neg notEnd, spaces]
          exact moves
      · by_cases isLast : m = n
        · subst isLast
          exact other
        · exact plain m (by omega) inBytes
    · intro needs
      have few := fewer n
      have ends : bytes[n] = newline ∨ bytes[n] = carriageReturn := by
        by_contra goes
        have stays := httpReadHeaderExtraction_goesOn once
          (isByte n inRange current moves) goes
        rw [needs] at stays
        cases stays
      have notSpace : bytes[n] ≠ space := by
        rcases ends with isEnd | isEnd <;> rw [isEnd] <;> decide
      obtain ⟨length, -⟩ := isLength n inRange current more moves ends plain
      unfold touchesHeaderExtraction
      dsimp only
      rw [isByte n inRange current moves, if_neg notSpace, if_pos ends,
        moved_take_move, length]
      split <;> omega

/-- What the body handler takes is there, unless `write` fails. -/
theorem bodyTaken_le {connection : Connection} {available : Nat}
    (left : 0 ≤ toInt (connection.endPosition - connection.position))
    (accepts : connection.isWriting = true → 0 ≤ written) :
    ∃ count ≤ available,
      bodyTaken connection available written = (count : Nat) := by
  have bounds : 0 ≤ bodyTaken connection available written ∧
      bodyTaken connection available written ≤ available := by
    unfold bodyTaken
    dsimp only
    split
    · omega
    · split
      · next isWriting =>
          have written_nonneg := accepts isWriting
          split
          · omega
          · rw [if_neg (by omega)]
            omega
      · omega
  exact ⟨(bodyTaken connection available written).toNat, by omega, by omega⟩

theorem body_within {reading : Reading kh}
    (holds : reading.input.Holds bytes) (straight : reading.input.Straight)
    (left : 0 ≤ toInt (reading.session.connection.endPosition -
      reading.session.connection.position))
    (accepts : reading.session.connection.isWriting = true → 0 ≤ written) :
    Within reading.input (requestBodyTouches reading written) := by
  have toEnd := holds.readToEnd straight
  have remaining := holds.readRemaining
  obtain ⟨count, le, taken⟩ := @bodyTaken_le written
    reading.session.connection reading.input.rbufReadToEnd.toNat left accepts
  unfold requestBodyTouches
  dsimp only
  rw [taken]
  exact within_take_move (by omega) (by omega)

theorem handleRequestBody_same {reading after : Reading kh}
    {action : StateAction}
    (run : handleRequestBody reading written = .ok (after, action)) :
    after.input =
      (requestBodyTouches reading written).foldl touched reading.input := by
  unfold handleRequestBody at run
  simp only [bind_eq_ok] at run
  obtain ⟨session, -, run⟩ := run
  split at run
  · obtain ⟨rfl, -⟩ := Prod.mk.inj (pure_eq_ok.mp run)
    rfl
  · obtain ⟨rfl, -⟩ := Prod.mk.inj (pure_eq_ok.mp run)
    rfl

/-- The touches lead from one buffer to the other. -/
structure Touching (before after : ReadBuffer) (touches : List Touch) :
    Prop where
  within : Within before touches
  same : after = touches.foldl touched before

theorem Touching.append {before between after : ReadBuffer}
    {first second : List Touch} (one : Touching before between first)
    (two : Touching between after second) :
    Touching before after (first ++ second) := by
  obtain ⟨within, rfl⟩ := one
  obtain ⟨later, rfl⟩ := two
  exact ⟨within_append.mpr ⟨within, later⟩, (List.foldl_append).symm⟩

section Newlines

variable {cell : Nat} {newlines rest : Bytes}

theorem look_touching {byte : UInt8}
    (fromCell : input.FromCell cell (byte :: rest))
    (inside : cell < bufferSize) : Touching input input [.look cell] := by
  refine ⟨⟨⟨0, ?_, ?_⟩, trivial⟩, rfl⟩
  · rw [fromCell.holds.readRemaining]
    exact Nat.succ_pos _
  · exact (fromCell.place inside).symm

theorem newlines_touching (fromCell : input.FromCell cell (newlines ++ rest))
    (inside : cell + newlines.length ≤ bufferSize)
    (all : ∀ newline ∈ newlines, ReadBuffer.isNewline newline = true) :
    Touching input (input.readMove newlines.length)
      ((List.range' cell newlines.length).flatMap (inspect input)) := by
  induction newlines generalizing input cell with
  | nil =>
      rw [List.length_nil, fromCell.holds.readMove_zero]
      exact ⟨trivial, rfl⟩
  | cons newline newlines ih =>
      rw [List.length_cons] at inside ⊢
      have inArray : cell < bufferSize := by omega
      have later := ih (fromCell.next inArray) (by omega)
        fun other member => all other (List.mem_cons_of_mem _ member)
      have isNewline : ReadBuffer.isNewline (input.buffer cell) = true := by
        have isByte := fromCell.readByte inArray
        unfold ReadBuffer.readByte at isByte
        rw [if_pos inArray] at isByte
        rw [Except.ok.inj isByte]
        exact all newline List.mem_cons_self
      have enough : 1 ≤ input.rbufReadRemaining := by
        rw [fromCell.holds.readRemaining]
        exact Nat.succ_pos _
      rw [ReadBuffer.readMove_succ] at later
      rw [List.range'_succ, List.flatMap_cons]
      refine Touching.append ?_ later
      unfold inspect
      rw [if_pos isNewline]
      exact (look_touching fromCell inArray).append
        ⟨within_move (by omega), rfl⟩

/-- The loop has looked at the byte that stops it. -/
theorem stop_touching {byte : UInt8}
    (fromCell : input.FromCell cell (newlines ++ byte :: rest))
    (inside : cell + newlines.length < bufferSize)
    (all : ∀ newline ∈ newlines, ReadBuffer.isNewline newline = true)
    (other : ReadBuffer.isNewline byte = false) :
    Touching input (input.readMove newlines.length)
      ((List.range' cell (newlines.length + 1)).flatMap (inspect input)) := by
  have behind : (input.readMove newlines.length).FromCell
      (cell + newlines.length) (byte :: rest) := by
    refine ⟨?_, fun _ => ?_⟩
    · have moved := @ReadBuffer.Holds.readMove _ _ fromCell.holds
        newlines.length (by simp)
      rw [List.drop_left] at moved
      exact moved
    · have place := fromCell.place (by omega)
      change ((input.readPosition + (newlines.length : Int)) % 65536).toNat %
        bufferSize = _
      unfold bufferSize at *
      omega
  have notNewline : ReadBuffer.isNewline
      (input.buffer (cell + newlines.length)) = false := by
    have isByte := behind.readByte inside
    unfold ReadBuffer.readByte at isByte
    rw [if_pos inside] at isByte
    have same : input.buffer (cell + newlines.length) = byte :=
      Except.ok.inj isByte
    rw [same]
    exact other
  rw [List.range'_1_concat, List.flatMap_append, List.flatMap_singleton]
  refine (newlines_touching fromCell inside.le all).append ?_
  unfold inspect
  rw [notNewline]
  exact look_touching behind inside

end Newlines

/-- The newlines may come to the end of the array as long as no more bytes lie
behind it than before it. -/
def NewlinesEnd (input : ReadBuffer) (content : Bytes) : Prop :=
  (ReadBuffer.leading content).length < input.cellsToEnd ∨
    content.length ≤ 2 * input.cellsToEnd

theorem skip_touching (holds : input.Holds bytes) (straight : input.Straight)
    (few : NewlinesEnd input bytes) :
    ∃ count ≤ bytes.length,
      skipOverNewlines input = .ok (input.readMove (count : Nat)) ∧
        Touching input (input.readMove (count : Nat)) (skipTouches input) ∧
        (count = 0 → ReadBuffer.leading bytes = []) := by
  have bounds := input.cellsToEnd_bounds
  have short := ReadBuffer.length_leading_le bytes
  have all : ∀ newline ∈ ReadBuffer.leading bytes,
      ReadBuffer.isNewline newline = true :=
    fun newline member => ReadBuffer.leading_all member
  unfold skipTouches skipOverNewlines
  by_cases before : (ReadBuffer.leading bytes).length < input.cellsToEnd
  · rcases ReadBuffer.eq_leading_append bytes with same | ⟨byte, rest, same, other⟩
    · rw [← same] at all before
      rw [holds.skip_all all before]
      have fromCell := holds.fromCell
      rw [← List.append_nil bytes] at fromCell
      exact ⟨bytes.length, le_rfl, rfl,
        newlines_touching fromCell (by omega) all,
        fun none_ => same ▸ List.eq_nil_of_length_eq_zero none_⟩
    · have parted := holds
      rw [same] at parted
      rw [parted.skip_stops all other before]
      exact ⟨_, short, rfl,
        stop_touching parted.fromCell (by omega) all other,
        List.eq_nil_of_length_eq_zero⟩
  · -- the newlines come to the end of the array
    have same := @ReadBuffer.eq_take_leading_append bytes input.cellsToEnd
      (by omega)
    have length : ((ReadBuffer.leading bytes).take input.cellsToEnd).length =
        input.cellsToEnd := by
      rw [List.length_take]
      omega
    have isFirst : ∀ newline ∈ (ReadBuffer.leading bytes).take input.cellsToEnd,
        ReadBuffer.isNewline newline = true :=
      fun newline member => all newline (List.mem_of_mem_take member)
    have behind : (bytes.drop input.cellsToEnd).length ≤
        ((ReadBuffer.leading bytes).take input.cellsToEnd).length := by
      have enough := few.resolve_left before
      rw [length, List.length_drop]
      omega
    have parted := holds
    rw [same] at parted
    rw [parted.skip_cells isFirst length straight, if_pos behind]
    refine ⟨_, ?_, rfl, newlines_touching parted.fromCell (by omega) isFirst,
      fun none_ => ?_⟩
    · omega
    · omega

/-- Consuming keeps a buffer straight. -/
theorem Touching.straight {after : ReadBuffer} {touches : List Touch}
    (touching : Touching input after touches) (holds : input.Holds bytes)
    (straight : input.Straight) : after.Straight := by
  obtain ⟨within, rfl⟩ := touching
  obtain ⟨count, le, -, both⟩ := within.moves holds
  have lengthLe := holds.length_le
  intro full
  rw [both, (holds.readMove le).readRemaining, List.length_drop] at full
  obtain rfl : count = 0 := by
    unfold bufferSize at full
    omega
  rw [both, holds.readMove_zero]
  apply straight
  rw [holds.readRemaining]
  exact full

end Inner

section Handlers

variable {env : Env} {outcome : FlushOutcome} {written : Int}
  {reading after : Reading env.kh} {action : StateAction} {bytes : Bytes}

/-- The handlers that read. -/
def reads : Handler → Bool
  | .handleMethod | .handleUrl | .handleUrlKey | .handleHttpversion
  | .handleHeaders | .handleRequestBody | .handleEolstats
  | .handleEolwritetoend => true
  | _ => false

/-- Nothing that a handler counts on is still to come: `rbuf_read_to_end` is
right about the buffer, the URL of a table has been followed by a byte, a
header value ends in one piece with all of its line end, and `write` takes
bytes of the body.  Newlines before a request are no more than can be skipped. -/
structure Bounded (reading : Reading kh) (written : Int) : Prop where
  straight : reading.extracting ≠ none ∨
    reads reading.session.connection.handler = true → reading.input.Straight
  newlines : reading.extracting = none →
    reading.session.connection.handler = .handleMethod →
      NewlinesEnd reading.input reading.input.content
  url : reading.extracting = none →
    reading.session.connection.handler = .handleUrl →
      UrlFollowed reading.input.content
  value : reading.extracting ≠ none →
    ValueEnds reading.input reading.input.content
  body : reading.extracting = none →
    reading.session.connection.handler = .handleRequestBody →
      0 ≤ toInt (reading.session.connection.endPosition -
        reading.session.connection.position) ∧
      (reading.session.connection.isWriting = true → 0 ≤ written)

theorem runHandler_handleEolstats
    (isHandler : reading.session.connection.handler = .handleEolstats)
    (idle : reading.extracting = none) :
    runHandler env outcome written reading = (do
      let (reading, action, n) ← iterate httpReadEoltoend reading
      if action = .continueProcessing then
        return (reading.move n, .needsMoreRead)
      else
        return ({ reading with
          session := reading.session.moveTo .respondStats }, action)) := by
  obtain ⟨session, input, state, extracting⟩ := reading
  subst idle
  unfold runHandler
  rw [isHandler]

/-- The other handlers are not run on what arrives. -/
theorem runHandler_responds (idle : reading.extracting = none)
    (other : reads reading.session.connection.handler = false) :
    runHandler env outcome written reading =
      .ok (reading, .continueProcessing) := by
  unfold runHandler
  rw [idle]
  cases isHandler : reading.session.connection.handler <;>
    first
    | rfl
    | (rw [isHandler] at other; cases other)

/-- The end of the headers leaves the buffer alone. -/
theorem finishHeaders_input {ended : Reading kh} {after : Reading kh}
    {did action : StateAction}
    (run : finishHeaders ended did = .ok (after, action)) :
    after.input = ended.input := by
  unfold finishHeaders at run
  split at run
  · obtain ⟨rfl, -⟩ := Prod.mk.inj (pure_eq_ok.mp run)
    rfl
  · obtain ⟨rfl, -⟩ := Prod.mk.inj (pure_eq_ok.mp run)
    rfl

/-- What a handler touches has arrived and is not yet consumed. -/
theorem runHandler_within (holds : reading.input.Holds bytes)
    (bounded : Bounded reading written) :
    Within reading.input (handlerTouches env outcome written reading) := by
  obtain ⟨straight, newlines, url, value, body⟩ := bounded
  rw [← holds.eq_content] at newlines url value
  obtain ⟨session, input, state, extracting⟩ := reading
  unfold handlerTouches
  cases extracting with
  | some code =>
      exact (extraction_within holds (straight (Or.inl (by simp)))
        (value (by simp))).1
  | none =>
      cases isHandler : session.connection.handler with
      | handleMethod =>
          have straight := straight (Or.inr (by rw [isHandler]; rfl))
          obtain ⟨count, le, skips, first, -⟩ :=
            skip_touching holds straight (newlines rfl isHandler)
          refine within_append.mpr ⟨first.within, ?_⟩
          rw [← first.same]
          dsimp only at skips ⊢
          rw [skips]
          have later := @Consumes.iterate _ _ _ _ _
            ⟨session, input.readMove count, state, none⟩ consumes_method
              (holds.readMove le) (first.straight holds straight)
          exact later.1
      | handleUrl =>
          have straight := straight (Or.inr (by rw [isHandler]; rfl))
          exact (url1_within holds straight (url rfl isHandler)).1
      | handleUrlKey =>
          have straight := straight (Or.inr (by rw [isHandler]; rfl))
          exact (consumes_url2.iterate holds straight).1
      | handleHttpversion =>
          have straight := straight (Or.inr (by rw [isHandler]; rfl))
          exact consumes_version.consuming_within holds straight
      | handleHeaders =>
          have straight := straight (Or.inr (by rw [isHandler]; rfl))
          exact ((consumes_headers holds straight).iterate holds straight).1
      | handleRequestBody =>
          have straight := straight (Or.inr (by rw [isHandler]; rfl))
          obtain ⟨left, accepts⟩ := body rfl isHandler
          exact body_within holds straight left accepts
      | handleEolwritetoend | handleEolstats =>
          have straight := straight (Or.inr (by rw [isHandler]; rfl))
          exact consumes_eoltoend.consuming_within holds straight
      | respondExpires | respondContentlength | respondResponseend
      | respondContentbody | respondResetConnection | respondWriteonly
      | respondStats | respondListingentries | respondListingtotal
      | respondListingSeparator | respondListing | respondCloseConnection =>
          trivial

/-- A handler leaves the rest of the buffer as it was. -/
theorem runHandler_same (holds : reading.input.Holds bytes)
    (bounded : Bounded reading written)
    (run : runHandler env outcome written reading = .ok (after, action)) :
    after.input = (handlerTouches env outcome written reading).foldl touched
      reading.input := by
  obtain ⟨straight, newlines, url, value, body⟩ := bounded
  rw [← holds.eq_content] at newlines url value
  obtain ⟨session, input, state, extracting⟩ := reading
  unfold handlerTouches
  cases extracting with
  | some code =>
      rw [runHandler_extract rfl] at run
      obtain ⟨did, count, iterates, -⟩ := roundOf_ok run
      exact ((extraction_within holds (straight (Or.inl (by simp)))
        (value (by simp))).2 _ _ _ iterates).1
  | none =>
      cases isHandler : session.connection.handler with
      | handleMethod =>
          have straight := straight (Or.inr (by rw [isHandler]; rfl))
          obtain ⟨count, le, skips, first, -⟩ :=
            skip_touching holds straight (newlines rfl isHandler)
          rw [runHandler_handleMethod isHandler rfl, skips] at run
          dsimp only at skips ⊢
          rw [List.foldl_append, ← first.same, skips]
          exact consumes_method.roundOf (holds.readMove le)
            (first.straight holds straight) run
      | handleUrl =>
          have straight := straight (Or.inr (by rw [isHandler]; rfl))
          rw [runHandler_handleUrl isHandler rfl] at run
          obtain ⟨did, count, iterates, -⟩ := roundOf_ok run
          exact ((url1_within holds straight (url rfl isHandler)).2
            _ _ _ iterates).1
      | handleUrlKey =>
          have straight := straight (Or.inr (by rw [isHandler]; rfl))
          rw [runHandler_handleUrlKey isHandler rfl] at run
          exact consumes_url2.roundOf holds straight run
      | handleHttpversion =>
          have straight := straight (Or.inr (by rw [isHandler]; rfl))
          rw [runHandler_handleHttpversion isHandler rfl] at run
          exact consumes_version.consumingHandler holds straight run
      | handleHeaders =>
          have straight := straight (Or.inr (by rw [isHandler]; rfl))
          rw [runHandler_handleHeaders isHandler rfl] at run
          simp only [bind_eq_ok, Prod.exists] at run
          obtain ⟨ended, did, count, iterates, run⟩ := run
          rw [finishHeaders_input run]
          exact (((consumes_headers holds straight).iterate holds straight).2
            _ _ _ iterates).1
      | handleRequestBody =>
          rw [runHandler_handleRequestBody isHandler rfl] at run
          exact handleRequestBody_same run
      | handleEolwritetoend =>
          have straight := straight (Or.inr (by rw [isHandler]; rfl))
          rw [runHandler_handleEolwritetoend isHandler rfl] at run
          exact consumes_eoltoend.consumingHandler holds straight run
      | handleEolstats =>
          have straight := straight (Or.inr (by rw [isHandler]; rfl))
          rw [runHandler_handleEolstats isHandler rfl] at run
          simp only [bind_eq_ok, Prod.exists] at run
          obtain ⟨ended, did, count, iterates, run⟩ := run
          have same := consumes_eoltoend.consuming holds straight iterates
          split at run
          · next goes =>
              obtain ⟨rfl, -⟩ := Prod.mk.inj (pure_eq_ok.mp run)
              rw [if_pos goes] at same
              exact same
          · next ends =>
              obtain ⟨rfl, -⟩ := Prod.mk.inj (pure_eq_ok.mp run)
              rw [if_neg ends] at same
              exact same
      | respondExpires | respondContentlength | respondResponseend
      | respondContentbody | respondResetConnection | respondWriteonly
      | respondStats | respondListingentries | respondListingtotal
      | respondListingSeparator | respondListing | respondCloseConnection =>
          rw [runHandler_responds rfl (by rw [isHandler]; decide)] at run
          obtain ⟨rfl, -⟩ := Prod.mk.inj (pure_eq_ok.mp run)
          rfl

end Handlers

/-- A connection with all that `read` has returned for it. -/
structure Receiving (kh : KHash) where
  reading : Reading kh
  received : Bytes

/-- `read` returns some of what the peer has sent, a handler runs on what is
there, or something else changes all but the buffer. -/
inductive InputEvent (kh : KHash)
  | arrives (bytes : Bytes)
  | handle (outcome : FlushOutcome) (written : Int)
  | elsewhere (session : Session kh) (state : Nat)
      (extracting : Option HeaderCode)

/-- The bytes of a connection, from `rbuf_init` on. -/
def receive (env : Env) : Machine (Receiving env.kh) (InputEvent env.kh) Fault
    where
  initial := fun state =>
    state.reading.input.readPosition = 0 ∧
      state.reading.input.writePosition = 0 ∧ state.received = []
  step := fun state event =>
    match event with
    | .arrives bytes =>
        let input := state.reading.input.rewind
        let bytes := bytes.take input.rbufWriteToEnd
        .ok {
          reading := { state.reading with input := input.store bytes }
          received := state.received ++ bytes }
    | .handle outcome written => do
        let (reading, _) ← runHandler env outcome written state.reading
        return { state with reading }
    | .elsewhere session counted extracting =>
        .ok { state with
          reading := { state.reading with
            session, state := counted, extracting } }

/-- Handlers run where nothing that they count on is still to come. -/
def BoundedStep (state : Receiving kh) : InputEvent kh → Prop
  | .arrives _ => True
  | .handle _ written => Bounded state.reading written
  | .elsewhere _ _ _ => True

instance (content : Bytes) : Decidable (UrlFollowed content) :=
  inferInstanceAs (Decidable (∀ n (_ : n < content.length), _ → _ → _ → _))

instance (input : ReadBuffer) (content : Bytes) :
    Decidable (ValueEnds input content) :=
  inferInstanceAs (Decidable (∀ n (_ : n < content.length), _ → _ → _ → _))

instance (input : ReadBuffer) (content : Bytes) :
    Decidable (NewlinesEnd input content) :=
  inferInstanceAs (Decidable (_ ∨ _))

instance (reading : Reading kh) (written : Int) :
    Decidable (Bounded reading written) :=
  decidable_of_iff
    ((reading.extracting ≠ none ∨
        reads reading.session.connection.handler = true →
          reading.input.Straight) ∧
      (reading.extracting = none →
        reading.session.connection.handler = .handleMethod →
          NewlinesEnd reading.input reading.input.content) ∧
      (reading.extracting = none →
        reading.session.connection.handler = .handleUrl →
          UrlFollowed reading.input.content) ∧
      (reading.extracting ≠ none →
        ValueEnds reading.input reading.input.content) ∧
      (reading.extracting = none →
        reading.session.connection.handler = .handleRequestBody →
          0 ≤ toInt (reading.session.connection.endPosition -
            reading.session.connection.position) ∧
          (reading.session.connection.isWriting = true → 0 ≤ written)))
    ⟨fun ⟨straight, newlines, url, value, body⟩ =>
        ⟨straight, newlines, url, value, body⟩,
      fun ⟨straight, newlines, url, value, body⟩ =>
        ⟨straight, newlines, url, value, body⟩⟩

instance (state : Receiving kh) :
    ∀ event, Decidable (BoundedStep state event)
  | .arrives _ | .elsewhere .. => inferInstanceAs (Decidable True)
  | .handle _ written => inferInstanceAs (Decidable (Bounded _ written))

/-- The buffer holds what has been received and not been consumed. -/
def Unread (state : Receiving kh) : Prop :=
  ∃ consumed ≤ state.received.length,
    state.reading.input.Holds (state.received.drop consumed)

/-- What a handler does to the buffer is to touch what has arrived. -/
def TouchesUnread (env : Env) (written : Int) (reading : Reading env.kh) :
    Prop :=
  ∀ outcome,
    Within reading.input (handlerTouches env outcome written reading) ∧
      ∀ after action, runHandler env outcome written reading =
        .ok (after, action) →
          after.input = (handlerTouches env outcome written reading).foldl
            touched reading.input

section Receive

variable {env : Env} {state successor : Receiving env.kh}

theorem Unread.touches (unread : Unread state) {written : Int}
    (bounded : Bounded state.reading written) :
    TouchesUnread env written state.reading := by
  obtain ⟨consumed, -, holds⟩ := unread
  exact fun outcome => ⟨runHandler_within holds bounded,
    fun after action run => runHandler_same holds bounded run⟩

/-- One event. -/
theorem Unread.step {event : InputEvent env.kh} (unread : Unread state)
    (meets : BoundedStep state event)
    (stepped : (receive env).step state event = .ok successor) :
    Unread successor := by
  have touches := fun written => @Unread.touches env state unread written
  obtain ⟨consumed, le, holds⟩ := unread
  cases event with
  | arrives bytes =>
      obtain rfl := Except.ok.inj stepped
      have stored := holds.rewind.store (List.length_take_le
        state.reading.input.rewind.rbufWriteToEnd bytes)
      rw [← List.drop_append_of_le_length le] at stored
      refine ⟨consumed, ?_, stored⟩
      rw [List.length_append]
      omega
  | handle outcome written =>
      change (do
        let result ← runHandler env outcome written state.reading
        return { state with reading := result.1 }) = _ at stepped
      simp only [bind_eq_ok, Prod.exists] at stepped
      obtain ⟨after, action, run, stepped⟩ := stepped
      obtain rfl := pure_eq_ok.mp stepped
      obtain ⟨within, same⟩ := touches written meets outcome
      obtain ⟨count, few, left⟩ := within.holds holds
      rw [← same after action run, List.drop_drop] at left
      rw [List.length_drop] at few
      exact ⟨consumed + count, by dsimp only; omega, left⟩
  | elsewhere session counted extracting =>
      obtain rfl := Except.ok.inj stepped
      exact ⟨consumed, le, holds⟩

/-- At every time the buffer holds what has been received and not been
consumed, and the next handler touches nothing else. -/
theorem touchesUnread_of_reachable
    (reachable : (receive env).Reachable BoundedStep state) :
    state.reading.input.rbufReadRemaining ≤ bufferSize ∧ Unread state ∧
      ∀ written, Bounded state.reading written →
        TouchesUnread env written state.reading := by
  have unread : Unread state := by
    refine reachable.invariant ?_ fun _ _ _ unread meets stepped =>
      unread.step meets stepped
    rintro state ⟨readStart, writeStart, received⟩
    refine ⟨0, Nat.zero_le _, ?_⟩
    rw [received]
    exact ⟨by omega, by simp, by rw [readStart, writeStart]; rfl,
      fun offset inRange => absurd inRange (Nat.not_lt_zero offset)⟩
  refine ⟨?_, unread, fun written bounded => unread.touches bounded⟩
  obtain ⟨consumed, -, holds⟩ := unread
  rw [holds.readRemaining]
  exact holds.length_le

end Receive

/-- Nothing has been received. -/
def freshReceiving : Receiving listHash := ⟨freshReading, []⟩

/-- An upload arrives in two pieces that are cut in the name of a header, and
its body is stored. -/
theorem touchesUnread_of_reachable_upload :
    ∃ state : Receiving listHash,
      (receive listEnv).Reachable BoundedStep state ∧
      (state.received =
          literal "PUT /t/k H\nContent-Length: 2\n\nabGE" ∧
        state.reading.input.content = literal "GE" ∧
        state.reading.session.connection.handler = .respondWriteonly) ∧
      state.reading.input.rbufReadRemaining ≤ bufferSize ∧ Unread state ∧
        ∀ written, Bounded state.reading written →
          TouchesUnread listEnv written state.reading := by
  let handles (count : Nat) : List (InputEvent listHash) :=
    List.replicate count (.handle unforked 2)
  have passes : ((receive listEnv).runWithin
      (fun state event => decide (BoundedStep state event)) freshReceiving
      ([.arrives (literal "PUT /t/k H\nContent-")] ++ handles 5 ++
        [.arrives (literal "Length: 2\n\nabGE")] ++ handles 4)).any
      (fun state => decide (state.received =
          literal "PUT /t/k H\nContent-Length: 2\n\nabGE" ∧
        state.reading.input.content = literal "GE" ∧
        state.reading.session.connection.handler = .respondWriteonly)) =
      true := by decide +kernel
  rw [Option.any_eq_true] at passes
  obtain ⟨state, runs, test⟩ := passes
  have starts : (receive listEnv).Reachable BoundedStep freshReceiving :=
    .start ⟨rfl, rfl, rfl⟩
  have reachable := starts.leads
    (Machine.Leads.runWithin (fun _ _ => of_decide_eq_true) runs)
  exact ⟨state, reachable, of_decide_eq_true test,
    touchesUnread_of_reachable reachable⟩

/-- Where the name of a table is the last that has arrived, the space behind it
is consumed with one byte more. -/
theorem not_touchesUnread :
    ¬∀ (env : Env) (state : Receiving env.kh),
      (receive env).Reachable Machine.anyStep state →
        state.reading.input.rbufReadRemaining ≤ bufferSize := by
  intro safe
  have moves : endsIn ((receive listEnv).run freshReceiving
      [.arrives (literal "GET /t "), .handle unforked 0, .handle unforked 0])
        (fun state => decide (state.reading.input.rbufReadRemaining = 65535)) =
          true := by decide +kernel
  cases run : (receive listEnv).run freshReceiving
      [.arrives (literal "GET /t "), .handle unforked 0,
        .handle unforked 0] with
  | error fault =>
      rw [run] at moves
      cases moves
  | ok state =>
      have moved := endsIn_ok moves run
      have remaining : state.reading.input.rbufReadRemaining = 65535 :=
        of_decide_eq_true moved
      have starts : (receive listEnv).Reachable Machine.anyStep
          freshReceiving := .start ⟨rfl, rfl, rfl⟩
      have few := safe listEnv state (starts.run (fun _ _ _ => trivial) run)
      unfold bufferSize at few
      omega

end Parsing

end SimpleCache
