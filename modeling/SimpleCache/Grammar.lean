import SimpleCache.Parsing
import SimpleCache.Unfold.Storage

/-!
# Requests on bytes and requests on parts

A request that lies whole in the read buffer is taken apart into its method,
its names, its header lines and its body, and each of them has the effect that
the request handlers give it.
-/

namespace SimpleCache

namespace Parsing

variable {kh : KHash}

/-- The bytes that are left, where they do not wrap. -/
structure Placed (input : ReadBuffer) (rest : Bytes) : Prop where
  holds : input.Holds rest
  inside : input.readPosition + rest.length ≤ 16384

section Placed

variable {input : ReadBuffer} {first rest : Bytes}

theorem Placed.remaining (placed : Placed input rest) :
    input.rbufReadRemaining = rest.length :=
  placed.holds.readRemaining

theorem Placed.straight (placed : Placed input rest) : input.Straight := by
  intro full
  have inside := placed.inside
  rw [placed.remaining] at full
  unfold bufferSize at full ⊢
  omega

theorem Placed.toEnd (placed : Placed input rest) :
    input.rbufReadToEnd = rest.length := by
  have inside := placed.inside
  rw [placed.holds.readToEnd placed.straight]
  omega

theorem Placed.byte (placed : Placed input (first ++ rest)) {byte : UInt8}
    {more : Bytes} (isRest : rest = byte :: more) :
    input.buffer (input.readPosition % bufferSize + first.length) = byte := by
  subst isRest
  have inside := placed.inside
  have inRange : first.length < (first ++ byte :: more).length := by simp
  have isByte := placed.holds.byte_eq first.length inRange
  simp only [List.length_append, List.length_cons] at inside
  rw [List.getElem_append_right (Nat.le_refl _)] at isByte
  simp only [Nat.sub_self, List.getElem_cons_zero] at isByte
  rw [← isByte]
  congr 1
  unfold bufferSize
  omega

theorem Placed.move (placed : Placed input (first ++ rest)) :
    Placed (input.readMove first.length) rest := by
  have inside := placed.inside
  have moved := placed.holds.readMove
    (show first.length ≤ (first ++ rest).length by simp)
  rw [List.drop_left] at moved
  refine ⟨moved, ?_⟩
  rw [List.length_append] at inside
  change ((input.readPosition + (first.length : Int)) % 65536).toNat +
    rest.length ≤ 16384
  omega

/-- Past a part and the byte that ends it. -/
theorem Placed.moveBehind {byte : UInt8}
    (placed : Placed input (first ++ byte :: rest)) :
    Placed (input.readMove (first.length + 1)) rest := by
  have whole : Placed input ((first ++ [byte]) ++ rest) := by
    simpa using placed
  have moved := whole.move
  rw [List.length_append] at moved
  exact moved

theorem Placed.cellsToEnd (placed : Placed input rest) :
    rest.length ≤ input.cellsToEnd := by
  have inside := placed.inside
  unfold ReadBuffer.cellsToEnd bufferSize
  omega

theorem readMove_readMove (input : ReadBuffer) (first second : Int) :
    (input.readMove first).readMove second = input.readMove (first + second) := by
  unfold ReadBuffer.readMove
  congr 1
  dsimp only
  omega

theorem Placed.copyBytes (placed : Placed input (first ++ rest)) :
    copyBytes input first.length = .ok first := by
  have inside := placed.inside
  have cells := placed.cellsToEnd
  rw [List.length_append] at inside cells
  unfold Parsing.copyBytes
  rw [placed.holds.copyn placed.straight (by omega), if_neg (by omega)]
  simp

theorem Placed.sameBytes (placed : Placed input (first ++ rest))
    {word : Bytes} (plain : ∀ char ∈ word, char ≠ 0)
    (sameLength : word.length = first.length) :
    sameBytes input word = .ok (decide (first = word)) := by
  have inside := placed.inside
  rw [List.length_append] at inside
  obtain ⟨result, run, isZero⟩ := placed.holds.cmpn placed.straight
    (show word.length ≤ 16384 by omega)
    (show word.length ≤ word.length from Nat.le_refl _)
    (fun char member => plain char (List.mem_of_mem_take member))
  unfold Parsing.sameBytes
  rw [run]
  have same : result = 0 ↔ first = word := by
    rw [isZero, List.take_length, sameLength, List.take_left,
      List.length_append]
    constructor
    · exact fun both => both.2
    · exact fun isWord => ⟨by omega, isWord⟩
  simp only [same]

end Placed

section Iteration

variable {inner : Inner kh} {states : Nat → Reading kh} {count : Nat}

/-- The rounds from the `n`-th on: up to the one that stops, or until as many
have been made as there are bytes left to read. -/
theorem rbufIterate_run {toEnd : Int} {start : Nat}
    (passes : ∀ n < count, inner (states n) (start + n) n =
      .ok (states (n + 1), .continueProcessing))
    (before : (count : Int) < toEnd)
    (ends : ∀ result, inner (states count) (start + count) count =
      .ok result → result.2 ≠ .continueProcessing)
    {rounds n : Nat} (le : n ≤ count) (enough : count - n < rounds) :
    rbufIterate inner toEnd rounds (states n) (start + n) n =
        (inner (states count) (start + count) count).map
          (fun result => (result.1, result.2, count + 1)) ∨
      ∃ last ≤ count, (states last).input.rbufReadRemaining ≤ last ∧
        rbufIterate inner toEnd rounds (states n) (start + n) n =
          .ok (states last, .continueProcessing, last) := by
  induction rounds generalizing n with
  | zero => omega
  | succ rounds ih =>
      unfold rbufIterate
      by_cases more : n < (states n).input.rbufReadRemaining
      · rw [if_pos more, if_neg (by omega)]
        dsimp only
        by_cases last : n = count
        · subst last
          refine Or.inl ?_
          cases outcome : inner (states n) (start + n) n with
          | error fault => rfl
          | ok result =>
              have stops := ends result outcome
              change (if result.2 = .continueProcessing then _ else _) = _
              rw [if_neg stops]
              rfl
        · rw [passes n (by omega)]
          exact ih (show n + 1 ≤ count by omega) (by omega)
      · rw [if_neg more]
        exact Or.inr ⟨n, le, Nat.le_of_not_lt more, rfl⟩

/-- A handler that looks at the bytes of `first` and acts at the one behind
them. -/
theorem iterate_run {first rest : Bytes} {byte : UInt8}
    (placed : Placed (states 0).input (first ++ byte :: rest))
    (passes : ∀ n < first.length, inner (states n)
      ((states 0).input.readPosition % bufferSize + n) n =
        .ok (states (n + 1), .continueProcessing))
    (sameInput : ∀ n, (states n).input = (states 0).input)
    (ends : ∀ result, inner (states first.length)
      ((states 0).input.readPosition % bufferSize + first.length)
        first.length = .ok result → result.2 ≠ .continueProcessing) :
    iterate inner (states 0) =
      (inner (states first.length)
        ((states 0).input.readPosition % bufferSize + first.length)
          first.length).map
        fun result => (result.1, result.2, first.length + 1) := by
  have toEnd := placed.toEnd
  have remaining := placed.remaining
  have inside := placed.inside
  rw [List.length_append, List.length_cons] at toEnd remaining inside
  unfold iterate
  dsimp only
  rw [if_neg (by omega)]
  refine (rbufIterate_run passes (by omega) ends (Nat.zero_le _)
    (by omega)).resolve_right ?_
  rintro ⟨last, le, few, -⟩
  rw [sameInput last, remaining] at few
  omega

end Iteration

section Rounds

variable {env : Env} {outcome : FlushOutcome} {written : Int}

/-- One round consumes bytes and leaves some. -/
def Steps (env : Env) (outcome : FlushOutcome) (written : Int)
    (before after : Reading env.kh × Bytes) : Prop :=
  runHandler env outcome written before.1 = .ok (after.1, .needsMoreRead) ∧
    Placed after.1.input after.2 ∧ after.2 ≠ [] ∧
    after.2.length < before.2.length

abbrev Leads (env : Env) (outcome : FlushOutcome) (written : Int) :
    Reading env.kh × Bytes → Reading env.kh × Bytes → Prop :=
  Relation.ReflTransGen (Steps env outcome written)

/-- What the loop makes of these bytes. -/
def Behaves (env : Env) (outcome : FlushOutcome) (written : Int)
    (reading : Reading env.kh) (bytes : Bytes)
    (result : Except Fault (Reading env.kh × StateAction)) : Prop :=
  ∀ (rounds : Nat) (toEnd : Int), bytes.length ≤ rounds →
    (toEnd = -1 ∨ (bytes.length : Int) ≤ toEnd) →
      readLoop env outcome written rounds reading toEnd = result

variable {result : Except Fault (Reading env.kh × StateAction)}

/-- One more round before the loop goes on. -/
theorem Behaves.step {before after : Reading env.kh × Bytes}
    (behaves : Behaves env outcome written after.1 after.2 result)
    (step : Steps env outcome written before after) :
    Behaves env outcome written before.1 before.2 result := by
  obtain ⟨run, placed, nonempty, fewer⟩ := step
  intro rounds toEnd enough fresh
  have some_ : after.2.length ≠ 0 :=
    fun none_ => nonempty (List.eq_nil_of_length_eq_zero none_)
  cases rounds with
  | zero => omega
  | succ rounds =>
      change (runHandler env outcome written before.1 >>= fun result => _) = _
      rw [run]
      change (if StateAction.needsMoreRead = .needsMoreRead ∧
        after.1.input.rbufReadRemaining ≠ 0 ∧
          (after.1.input.rbufReadRemaining : Int) ≠ toEnd then _ else _) = _
      rw [placed.remaining, if_pos ⟨rfl, some_, by omega⟩]
      exact behaves rounds _ (by omega) (Or.inr (Int.le_refl _))

theorem Behaves.leads {before after : Reading env.kh × Bytes}
    (behaves : Behaves env outcome written after.1 after.2 result)
    (leads : Leads env outcome written before after) :
    Behaves env outcome written before.1 before.2 result := by
  induction leads using Relation.ReflTransGen.head_induction_on with
  | refl => exact behaves
  | head step _ ih => exact ih.step step

/-- A round that registers a write ends the loop. -/
theorem behaves_ends {reading after : Reading env.kh} {bytes : Bytes}
    (nonempty : bytes ≠ [])
    (run : runHandler env outcome written reading =
      .ok (after, .registeredWrite)) :
    Behaves env outcome written reading bytes (.ok (after, .registeredWrite)) := by
  have positive : 0 < bytes.length := List.length_pos_of_ne_nil nonempty
  intro rounds toEnd enough _
  cases rounds with
  | zero => omega
  | succ rounds =>
      change (runHandler env outcome written reading >>= fun result => _) = _
      rw [run]
      rfl

theorem behaves_fails {reading : Reading env.kh} {bytes : Bytes}
    {fault : Fault} (nonempty : bytes ≠ [])
    (run : runHandler env outcome written reading = .error fault) :
    Behaves env outcome written reading bytes (.error fault) := by
  have positive : 0 < bytes.length := List.length_pos_of_ne_nil nonempty
  intro rounds toEnd enough _
  cases rounds with
  | zero => omega
  | succ rounds =>
      change (runHandler env outcome written reading >>= fun result => _) = _
      rw [run]
      rfl

end Rounds

section Handlers

variable {env : Env} {outcome : FlushOutcome} {written : Int}
  {reading : Reading env.kh}

/-- A round with a handler that does nothing behind its iteration. -/
def roundOf (inner : Inner kh) (reading : Reading kh) :
    Except Fault (Reading kh × StateAction) := do
  let (reading, action, _) ← iterate inner reading
  return (reading, goOn action)

theorem runHandler_handleMethod
    (isHandler : reading.session.connection.handler = .handleMethod)
    (idle : reading.extracting = none) :
    runHandler env outcome written reading = (do
      let input ← skipOverNewlines reading.input
      roundOf httpReadRequeststartmethod { reading with input }) := by
  obtain ⟨session, input, state, extracting⟩ := reading
  subst idle
  unfold runHandler
  rw [isHandler]
  rfl

theorem runHandler_handleUrl
    (isHandler : reading.session.connection.handler = .handleUrl)
    (idle : reading.extracting = none) :
    runHandler env outcome written reading = 
      roundOf (httpReadRequeststarturl1 env outcome) reading := by
  obtain ⟨session, input, state, extracting⟩ := reading
  subst idle
  unfold runHandler
  rw [isHandler]
  rfl

theorem runHandler_handleUrlKey
    (isHandler : reading.session.connection.handler = .handleUrlKey)
    (idle : reading.extracting = none) :
    runHandler env outcome written reading = 
      roundOf (httpReadRequeststarturl2 env outcome) reading := by
  obtain ⟨session, input, state, extracting⟩ := reading
  subst idle
  unfold runHandler
  rw [isHandler]
  rfl

theorem runHandler_handleHttpversion
    (isHandler : reading.session.connection.handler = .handleHttpversion)
    (idle : reading.extracting = none) :
    runHandler env outcome written reading = (do
      let (reading, action, n) ← iterate httpReadVersion reading
      if action = .continueProcessing then
        return (reading.move n, .needsMoreRead)
      else return (reading, action)) := by
  obtain ⟨session, input, state, extracting⟩ := reading
  subst idle
  unfold runHandler
  rw [isHandler]

/-- What `http_cache_handle_headers` does behind its iteration. -/
def finishHeaders (reading : Reading kh) (action : StateAction) :
    Except Fault (Reading kh × StateAction) :=
  if reading.extracting = none ∧
      reading.session.connection.handler = .handleHeaders ∧
      reading.input.rbufWriteRemaining = 0 then
    .ok ({ reading with
      session := reading.session.writeResponse .fullRequestTooLarge
      state := 0 }, .registeredWrite)
  else .ok (reading, goOn action)

theorem finishHeaders_notFull {kh : KHash} {reading : Reading kh}
    {action : StateAction}
    (notFull : reading.input.rbufWriteRemaining ≠ 0) :
    finishHeaders reading action = .ok (reading, goOn action) := by
  unfold finishHeaders
  rw [if_neg fun full => notFull full.2.2]

theorem runHandler_handleHeaders
    (isHandler : reading.session.connection.handler = .handleHeaders)
    (idle : reading.extracting = none) :
    runHandler env outcome written reading = (do
      let result ← iterate httpReadHeaders reading
      finishHeaders result.1 result.2.1) := by
  obtain ⟨session, input, state, extracting⟩ := reading
  subst idle
  unfold runHandler
  rw [isHandler]
  rfl

theorem runHandler_handleRequestBody
    (isHandler : reading.session.connection.handler = .handleRequestBody)
    (idle : reading.extracting = none) :
    runHandler env outcome written reading = 
      handleRequestBody reading written := by
  obtain ⟨session, input, state, extracting⟩ := reading
  subst idle
  unfold runHandler
  rw [isHandler]

theorem runHandler_handleEolwritetoend
    (isHandler : reading.session.connection.handler = .handleEolwritetoend)
    (idle : reading.extracting = none) :
    runHandler env outcome written reading = (do
      let (reading, action, n) ← iterate httpReadEoltoend reading
      if action = .continueProcessing then
        return (reading.move n, .needsMoreRead)
      else return (reading, action)) := by
  obtain ⟨session, input, state, extracting⟩ := reading
  subst idle
  unfold runHandler
  rw [isHandler]

theorem runHandler_extract {code : HeaderCode}
    (isCode : reading.extracting = some code) :
    runHandler env outcome written reading =
      roundOf (httpReadHeaderExtraction env code) reading := by
  obtain ⟨session, input, state, extracting⟩ := reading
  subst isCode
  rfl

end Handlers

section RequestLine

variable {env : Env} {outcome : FlushOutcome} {written : Int}
  {reading : Reading env.kh} {rest : Bytes}

/-- The words of the four methods that act on a key. -/
def methodText : Method → Bytes
  | .get => literal "GET"
  | .head => literal "HEAD"
  | .put => literal "PUT"
  | .delete => literal "DELETE"
  | .purge => literal "PURGE"
  | .admin => literal "ADMIN"

/-- The word is looked up in the list. -/
theorem findMethod_eq {input : ReadBuffer} {first rest : Bytes}
    (placed : Placed input (first ++ rest)) (names : List (Bytes × Method))
    (plain : ∀ entry ∈ names, ∀ char ∈ entry.1, char ≠ 0) :
    findMethod input first.length names =
      .ok (match names.find? fun entry => first = entry.1 with
        | some (_, method) => .known method
        | none => .unknown) := by
  induction names with
  | nil => rfl
  | cons entry names ih =>
      obtain ⟨name, method⟩ := entry
      have later := ih fun other member =>
        plain other (List.mem_cons_of_mem _ member)
      unfold findMethod
      by_cases same : first = name
      · subst same
        rw [if_pos rfl, placed.sameBytes
          (plain (first, method) List.mem_cons_self) rfl]
        simp [List.find?, bind, Except.bind, pure, Except.pure]
      · have skips : (List.find? (fun entry => decide (first = entry.1))
            ((name, method) :: names)) =
              names.find? fun entry => first = entry.1 := by
          simp [List.find?, same]
        rw [skips, ← later]
        split
        · next sameLength =>
            rw [placed.sameBytes (plain (name, method) List.mem_cons_self)
              sameLength.symm]
            simp [same, bind, Except.bind]
        · rfl

theorem findHeader_eq {input : ReadBuffer} {first rest : Bytes}
    (placed : Placed input (first ++ rest)) (names : List (Bytes × HeaderCode))
    (plain : ∀ entry ∈ names, ∀ char ∈ entry.1, char ≠ 0) :
    findHeader input first.length names =
      .ok ((names.find? fun entry => first = entry.1).map Prod.snd) := by
  induction names with
  | nil => rfl
  | cons entry names ih =>
      obtain ⟨name, code⟩ := entry
      have later := ih fun other member =>
        plain other (List.mem_cons_of_mem _ member)
      unfold findHeader
      by_cases same : first = name
      · subst same
        rw [if_pos rfl, placed.sameBytes
          (plain (first, code) List.mem_cons_self) rfl]
        simp [List.find?, bind, Except.bind, pure, Except.pure]
      · have skips : (List.find? (fun entry => decide (first = entry.1))
            ((name, code) :: names)) =
              names.find? fun entry => first = entry.1 := by
          simp [List.find?, same]
        rw [skips, ← later]
        split
        · next sameLength =>
            rw [placed.sameBytes (plain (name, code) List.mem_cons_self)
              (by exact_mod_cast sameLength.symm)]
            simp [same, bind, Except.bind]
        · rfl

theorem findMethod_methodText {input : ReadBuffer} {rest : Bytes}
    (method : Method) (placed : Placed input (methodText method ++ rest)) :
    findMethod input (methodText method).length methodNames =
      .ok (.known method) := by
  rw [findMethod_eq placed methodNames (by decide +kernel)]
  cases method <;> rfl

/-- The constant run of states. -/
theorem iterate_constant {inner : Inner env.kh} {first : Bytes} {byte : UInt8}
    (placed : Placed reading.input (first ++ byte :: rest))
    (passes : ∀ n, n < first.length → inner reading
      (reading.input.readPosition % bufferSize + n) n =
        .ok (reading, .continueProcessing))
    (ends : ∀ result, inner reading
      (reading.input.readPosition % bufferSize + first.length) first.length =
        .ok result → result.2 ≠ .continueProcessing) :
    iterate inner reading =
      (inner reading
        (reading.input.readPosition % bufferSize + first.length)
          first.length).map
        fun result => (result.1, result.2, first.length + 1) :=
  @iterate_run _ _ (fun _ => reading) _ _ _ placed passes (fun _ => rfl) ends

/-- The bytes before the one that ends a part. -/
theorem Placed.before {input : ReadBuffer} {first rest : Bytes}
    (placed : Placed input (first ++ rest)) {n : Nat}
    (inRange : n < first.length) :
    input.buffer (input.readPosition % bufferSize + n) = first[n] := by
  have split_ : first ++ rest =
      first.take n ++ first[n] :: (first.drop (n + 1) ++ rest) := by
    rw [← List.cons_append, ← List.drop_eq_getElem_cons inRange,
      ← List.append_assoc, List.take_append_drop]
  rw [split_] at placed
  have isByte := placed.byte rfl
  rwa [List.length_take_of_le inRange.le] at isByte

theorem skipOverNewlines_placed {input : ReadBuffer} {byte : UInt8}
    {rest : Bytes} (placed : Placed input (byte :: rest))
    (other : byte ≠ carriageReturn ∧ byte ≠ newline) :
    skipOverNewlines input = .ok input := by
  have isOther : ReadBuffer.isNewline byte = false := by
    simpa [ReadBuffer.isNewline, carriageReturn, newline] using other
  have skips := @ReadBuffer.Holds.skip_stops input [] rest byte placed.holds
    (fun newline member => absurd member List.not_mem_nil) isOther
      input.cellsToEnd_bounds.1
  unfold skipOverNewlines
  rw [skips]
  exact congrArg Except.ok placed.holds.readMove_zero

/-- After the method. -/
theorem runHandler_method {method : Method}
    (isHandler : reading.session.connection.handler = .handleMethod)
    (idle : reading.extracting = none)
    (placed : Placed reading.input (methodText method ++ space :: rest)) :
    runHandler env outcome written reading = .ok
      ({ reading.move ((methodText method).length + 1) with
        session := SimpleCache.httpReadRequeststartmethod reading.session
          (.known method)
        state := 0 }, .needsMoreRead) := by
  have skips : skipOverNewlines reading.input = .ok reading.input := by
    cases method <;> exact skipOverNewlines_placed placed (by decide)
  have short : (methodText method).length ≤ longestReqmethod := by
    cases method <;> decide
  have found : httpReadRequeststartmethod reading
      (reading.input.readPosition % bufferSize + (methodText method).length)
        (methodText method).length = .ok
      ({ reading.move ((methodText method).length + 1) with
        session := SimpleCache.httpReadRequeststartmethod reading.session
          (.known method)
        state := 0 }, .needsMoreRead) := by
    unfold httpReadRequeststartmethod
    rw [if_neg (by omega), if_pos (placed.byte rfl),
      findMethod_methodText method placed]
    rfl
  have iterates := @iterate_constant env _ _ httpReadRequeststartmethod _ _
    placed (fun n inRange => by
      have isByte := placed.before inRange
      have noSpace : (methodText method)[n] ≠ space := by
        have member := List.getElem_mem inRange
        revert member
        generalize (methodText method)[n] = byte
        cases method <;> revert byte <;> decide +kernel
      unfold httpReadRequeststartmethod
      rw [if_neg (by omega), isByte, if_neg noSpace]
      rfl)
    (fun result run => by
      rw [found] at run
      obtain rfl := Except.ok.inj run
      simp)
  rw [runHandler_handleMethod isHandler idle, skips, ok_bind]
  unfold roundOf
  change (iterate httpReadRequeststartmethod reading >>= fun result =>
    pure (result.1, goOn result.2.1)) = _
  rw [iterates, found]
  rfl

/-- The handler acts at the byte that ends its part. -/
theorem roundOf_constant {inner : Inner env.kh} {first : Bytes} {byte : UInt8}
    (placed : Placed reading.input (first ++ byte :: rest))
    (passes : ∀ n, n < first.length → inner reading
      (reading.input.readPosition % bufferSize + n) n =
        .ok (reading, .continueProcessing))
    (ends : ∀ result, inner reading
      (reading.input.readPosition % bufferSize + first.length) first.length =
        .ok result → result.2 ≠ .continueProcessing) :
    roundOf inner reading = inner reading
      (reading.input.readPosition % bufferSize + first.length)
        first.length := by
  unfold roundOf
  rw [iterate_constant placed passes ends]
  cases outcome : inner reading
      (reading.input.readPosition % bufferSize + first.length) first.length with
  | error fault => rfl
  | ok result =>
      obtain ⟨after, action⟩ := result
      have stops := ends _ outcome
      cases action with
      | continueProcessing => exact absurd rfl stops
      | needsMoreRead => rfl
      | registeredWrite => rfl

/-- After the name of a table. -/
theorem runHandler_url1 {name : Bytes}
    (isHandler : reading.session.connection.handler = .handleUrl)
    (idle : reading.extracting = none)
    (placed : Placed reading.input (slash :: name ++ slash :: rest))
    (plain : ∀ byte ∈ name, byte ≠ slash ∧ byte ≠ space) :
    runHandler env outcome written reading = (do
      let session ←
        httpReadTableSegment env.hashString reading.session name
      if session.connection.handler = .handleUrlKey then
        return ({ reading.move (name.length + 2) with
          session, state := reading.state + 1 }, .needsMoreRead)
      else
        return ({ reading.move 1 with session, state := 2 },
          .needsMoreRead)) := by
  have found : httpReadRequeststarturl1 env outcome reading
      (reading.input.readPosition % bufferSize + (slash :: name).length)
        (slash :: name).length = (do
      let session ←
        httpReadTableSegment env.hashString reading.session name
      if session.connection.handler = .handleUrlKey then
        return ({ reading.move (name.length + 2) with
          session, state := reading.state + 1 }, .needsMoreRead)
      else
        return ({ reading.move 1 with session, state := 2 },
          .needsMoreRead)) := by
    have isByte := placed.byte rfl
    have copies : copyBytes (reading.move 1).input
        (((slash :: name).length : Nat) - 1) = .ok name := by
      have moved : Placed (reading.input.readMove 1)
          (name ++ slash :: rest) := @Placed.move _ [slash] _ placed
      have length : (((slash :: name).length : Nat) : Int) - 1 =
          name.length := by
        rw [List.length_cons]
        omega
      rw [length]
      exact moved.copyBytes
    have length : (1 : Int) + ((slash :: name).length : Nat) =
        name.length + 2 := by
      rw [List.length_cons]
      omega
    unfold httpReadRequeststarturl1
    dsimp only
    rw [isByte, if_neg (by simp), copies, ok_bind, if_pos rfl]
    unfold Reading.move
    dsimp only
    rw [readMove_readMove, length]
  have ends : ∀ result, httpReadRequeststarturl1 env outcome reading
      (reading.input.readPosition % bufferSize + (slash :: name).length)
        (slash :: name).length = .ok result →
          result.2 ≠ .continueProcessing := by
    intro result run
    rw [found, bind_eq_ok] at run
    obtain ⟨session, -, run⟩ := run
    split at run <;> obtain rfl := pure_eq_ok.mp run <;> simp
  rw [runHandler_handleUrl isHandler idle,
    roundOf_constant placed (fun n inRange => ?_) ends, found]
  have isByte := placed.before inRange
  unfold httpReadRequeststarturl1
  dsimp only
  rw [isByte]
  cases n with
  | zero => rw [if_pos (Or.inl rfl)]; rfl
  | succ n =>
      have bound : n < name.length := by simpa using inRange
      have other : (slash :: name)[n + 1] ≠ slash ∧
          (slash :: name)[n + 1] ≠ space :=
        plain _ (List.getElem_mem bound)
      rw [if_pos (Or.inr other)]
      rfl

/-- After the key. -/
theorem runHandler_url2 {key : Bytes} {table : Nat}
    (isHandler : reading.session.connection.handler = .handleUrlKey)
    (idle : reading.extracting = none)
    (held : reading.session.connection.target = .table table)
    (placed : Placed reading.input (key ++ space :: rest))
    (plain : space ∉ key) :
    runHandler env outcome written reading = (do
      let session ← httpKeyLookup env reading.session table key outcome
      return ({ reading.move (key.length + 1) with session, state := 0 },
        .needsMoreRead)) := by
  have found : httpReadRequeststarturl2 env outcome reading
      (reading.input.readPosition % bufferSize + key.length) key.length = (do
      let session ← httpKeyLookup env reading.session table key outcome
      return ({ reading.move (key.length + 1) with session, state := 0 },
        .needsMoreRead)) := by
    unfold httpReadRequeststarturl2
    rw [placed.byte rfl, if_pos rfl, placed.copyBytes, ok_bind, held]
  have ends : ∀ result, httpReadRequeststarturl2 env outcome reading
      (reading.input.readPosition % bufferSize + key.length) key.length =
        .ok result → result.2 ≠ .continueProcessing := by
    intro result run
    rw [found, bind_eq_ok] at run
    obtain ⟨session, -, run⟩ := run
    obtain rfl := pure_eq_ok.mp run
    simp
  rw [runHandler_handleUrlKey isHandler idle,
    roundOf_constant placed (fun n inRange => ?_) ends, found]
  have other : key[n] ≠ space := fun same =>
    plain (same ▸ List.getElem_mem inRange)
  unfold httpReadRequeststarturl2
  rw [placed.before inRange, if_neg other]
  rfl

/-- After the version. -/
theorem runHandler_version {version : Bytes}
    (isHandler : reading.session.connection.handler = .handleHttpversion)
    (idle : reading.extracting = none)
    (placed : Placed reading.input (version ++ newline :: rest))
    (plain : newline ∉ version) :
    runHandler env outcome written reading = .ok
      ({ reading.move (version.length + 1) with
        session := reading.session.moveTo .handleHeaders
        state := 1 }, .needsMoreRead) := by
  have found : httpReadVersion reading
      (reading.input.readPosition % bufferSize + version.length)
        version.length = .ok
      ({ reading.move (version.length + 1) with
        session := reading.session.moveTo .handleHeaders
        state := 1 }, .needsMoreRead) := by
    unfold httpReadVersion
    rw [placed.byte rfl, if_pos rfl]
    rfl
  have iterates := @iterate_constant env _ _ httpReadVersion _ _ placed
    (fun n inRange => by
      have other : version[n] ≠ newline := fun same =>
        plain (same ▸ List.getElem_mem inRange)
      unfold httpReadVersion
      rw [placed.before inRange, if_neg other]
      rfl)
    (fun result run => by
      rw [found] at run
      obtain rfl := Except.ok.inj run
      simp)
  rw [runHandler_handleHttpversion isHandler idle, iterates, found]
  rfl

end RequestLine

section Lines

variable {env : Env} {outcome : FlushOutcome} {written : Int}
  {reading : Reading env.kh} {text rest : Bytes}

/-- The state word after a byte that ends no line. -/
def lineState (state : Nat) (byte : UInt8) : Nat :=
  if byte = colon ∨ byte = carriageReturn then state else 0

/-- The state word is zero behind a byte of a name. -/
theorem foldl_lineState {state : Nat}
    (visible : ∃ byte ∈ text, byte ≠ colon ∧ byte ≠ carriageReturn) :
    text.foldl lineState state = 0 := by
  have zero : ∀ bytes : Bytes, bytes.foldl lineState 0 = 0 := by
    intro bytes
    induction bytes with
    | nil => rfl
    | cons byte bytes ih =>
        have stays : lineState 0 byte = 0 := by
          unfold lineState
          split <;> rfl
        rw [List.foldl_cons, stays]
        exact ih
  induction text generalizing state with
  | nil => simp at visible
  | cons byte bytes ih =>
      rw [List.foldl_cons]
      obtain ⟨found, member, other⟩ := visible
      rcases List.mem_cons.mp member with rfl | member
      · have isZero : lineState state found = 0 := by
          unfold lineState
          rw [if_neg (by simpa using other)]
        rw [isZero]
        exact zero bytes
      · exact ih ⟨found, member, other⟩

/-- No `:` of the line ends a name that the request looks for. -/
def Unrecognised (connection : Connection) (text : Bytes) : Prop :=
  ∀ n (inRange : n < text.length), text[n] = colon →
    ∀ entry ∈ headerNames connection, text.take n ≠ entry.1

theorem headerNames_plain (connection : Connection) :
    ∀ entry ∈ headerNames connection, ∀ char ∈ entry.1, char ≠ 0 := by
  unfold headerNames
  split <;> decide +kernel

/-- The states in which the bytes of a line are read. -/
def lineStates (reading : Reading env.kh) (text : Bytes) (n : Nat) :
    Reading env.kh :=
  { reading with state := (text.take n).foldl lineState reading.state }

theorem httpReadHeaders_passes {byte : UInt8}
    (placed : Placed reading.input (text ++ byte :: rest))
    (plain : newline ∉ text)
    (unknown : Unrecognised reading.session.connection text) {n : Nat}
    (inRange : n < text.length) :
    httpReadHeaders (lineStates reading text n)
        (reading.input.readPosition % bufferSize + n) n =
      .ok (lineStates reading text (n + 1), .continueProcessing) := by
  have isByte := placed.before inRange
  have other : text[n] ≠ newline := fun same =>
    plain (same ▸ List.getElem_mem inRange)
  have next : (lineStates reading text (n + 1)) =
      { lineStates reading text n with
        state := lineState (lineStates reading text n).state text[n] } := by
    unfold lineStates
    rw [List.take_succ_eq_append_getElem inRange, List.foldl_append]
    rfl
  have away : distance reading.input
      (reading.input.readPosition % bufferSize + n) = n := by
    unfold distance
    omega
  unfold httpReadHeaders
  dsimp only
  change (if reading.input.buffer
    (reading.input.readPosition % bufferSize + n) = colon then _ else _) = _
  rw [isByte, next]
  by_cases isColon : text[n] = colon
  · rw [if_pos isColon]
    have split_ : Placed reading.input
        (text.take n ++ (text.drop n ++ byte :: rest)) := by
      rw [← List.append_assoc, List.take_append_drop]
      exact placed
    have looks := findHeader_eq split_
      (headerNames reading.session.connection) (headerNames_plain _)
    rw [List.length_take_of_le inRange.le] at looks
    have absent : (headerNames reading.session.connection).find?
        (fun entry => text.take n = entry.1) = none := by
      rw [List.find?_eq_none]
      intro entry member same
      exact unknown n inRange isColon entry member (of_decide_eq_true same)
    rw [absent] at looks
    have same : (lineStates reading text n).input = reading.input := rfl
    have sameConnection : (lineStates reading text n).session.connection =
        reading.session.connection := rfl
    have keeps : lineState (lineStates reading text n).state text[n] =
        (lineStates reading text n).state := by
      unfold lineState
      rw [if_pos (Or.inl isColon)]
    rw [same, sameConnection, away, if_neg (by omega), looks, keeps]
    rfl
  · rw [if_neg isColon]
    change (if reading.input.buffer
      (reading.input.readPosition % bufferSize + n) = newline then _
        else _) = _
    rw [isByte, if_neg other]
    change (if reading.input.buffer
      (reading.input.readPosition % bufferSize + n) ≠ carriageReturn then _
        else _) = _
    rw [isByte]
    by_cases isReturn : text[n] = carriageReturn
    · have keeps : lineState (lineStates reading text n).state text[n] =
          (lineStates reading text n).state := by
        unfold lineState
        rw [if_pos (Or.inr isReturn)]
      rw [if_neg (by simpa using isReturn), keeps]
      rfl
    · have resets : lineState (lineStates reading text n).state text[n] =
          0 := by
        unfold lineState
        rw [if_neg (by simp [isColon, isReturn])]
      rw [if_pos isReturn, resets]
      rfl

theorem iterate_headers {byte : UInt8}
    (placed : Placed reading.input (text ++ byte :: rest))
    (plain : newline ∉ text)
    (unknown : Unrecognised reading.session.connection text)
    (ends : ∀ result, httpReadHeaders (lineStates reading text text.length)
      (reading.input.readPosition % bufferSize + text.length) text.length =
        .ok result → result.2 ≠ .continueProcessing) :
    iterate httpReadHeaders reading =
      (httpReadHeaders (lineStates reading text text.length)
        (reading.input.readPosition % bufferSize + text.length)
          text.length).map
        fun result => (result.1, result.2, text.length + 1) :=
  @iterate_run _ _ (lineStates reading text) _ _ _ placed
    (fun _ inRange => httpReadHeaders_passes placed plain unknown inRange)
    (fun _ => rfl) ends

theorem lineStates_last :
    (lineStates reading text text.length) =
      { reading with state := text.foldl lineState reading.state } := by
  unfold lineStates
  rw [List.take_length]

/-- The buffer is not full behind a byte that was consumed. -/
theorem Placed.notFull {input : ReadBuffer} {first rest : Bytes} {byte : UInt8}
    (placed : Placed input (first ++ byte :: rest)) :
    (input.readMove (first.length + 1)).rbufWriteRemaining ≠ 0 := by
  have inside := placed.inside
  rw [List.length_append, List.length_cons] at inside
  unfold ReadBuffer.rbufWriteRemaining
  rw [placed.moveBehind.remaining]
  unfold bufferSize
  omega

/-- A header line that the request does not look for is passed. -/
theorem runHandler_line
    (isHandler : reading.session.connection.handler = .handleHeaders)
    (idle : reading.extracting = none)
    (placed : Placed reading.input (text ++ newline :: rest))
    (plain : newline ∉ text)
    (visible : ∃ byte ∈ text, byte ≠ colon ∧ byte ≠ carriageReturn)
    (unknown : Unrecognised reading.session.connection text) :
    runHandler env outcome written reading = .ok
      ({ reading.move (text.length + 1) with state := 1 },
        .needsMoreRead) := by
  have isByte := placed.byte rfl
  have found : httpReadHeaders (lineStates reading text text.length)
      (reading.input.readPosition % bufferSize + text.length) text.length =
      .ok ({ reading.move (text.length + 1) with state := 1 },
        .needsMoreRead) := by
    rw [lineStates_last, foldl_lineState visible]
    unfold httpReadHeaders
    dsimp only
    rw [isByte, if_neg (by decide), if_pos rfl]
    rfl
  have iterates := iterate_headers placed plain unknown (fun result run => by
    rw [found] at run
    obtain rfl := Except.ok.inj run
    simp)
  rw [runHandler_handleHeaders isHandler idle, iterates, found]
  exact finishHeaders_notFull placed.notFull

/-- The empty line ends the headers. -/
theorem runHandler_blank
    (isHandler : reading.session.connection.handler = .handleHeaders)
    (idle : reading.extracting = none) (counted : reading.state = 1)
    (isBlank : text = [] ∨ text = [carriageReturn])
    (placed : Placed reading.input (text ++ newline :: rest)) :
    runHandler env outcome written reading = (do
      let session ← SimpleCache.httpReadHeaders reading.session
      let state := if routed session = .registeredWrite then 0 else 2
      return ({ reading.move (text.length + 1) with session, state },
        routed session)) := by
  have isByte := placed.byte rfl
  have plain : newline ∉ text := by
    rcases isBlank with rfl | rfl <;> decide
  have unknown : Unrecognised reading.session.connection text := by
    intro n inRange same
    have member : colon ∈ text := same ▸ List.getElem_mem inRange
    rcases isBlank with rfl | rfl <;> exact absurd member (by decide)
  have stays : text.foldl lineState reading.state = 1 := by
    rcases isBlank with rfl | rfl
    · exact counted
    · exact counted
  have found : httpReadHeaders (lineStates reading text text.length)
      (reading.input.readPosition % bufferSize + text.length) text.length =
      (do
      let session ← SimpleCache.httpReadHeaders reading.session
      let state := if routed session = .registeredWrite then 0 else 2
      return ({ reading.move (text.length + 1) with session, state },
        routed session)) := by
    rw [lineStates_last, stays]
    unfold httpReadHeaders
    dsimp only
    rw [isByte, if_neg (by decide), if_pos rfl]
    rfl
  have routes : ∀ session : Session env.kh, goOn (routed session) =
      routed session ∧ routed session ≠ .continueProcessing := by
    intro session
    unfold routed
    split
    · exact ⟨rfl, by simp⟩
    · exact ⟨rfl, by simp⟩
  have iterates := iterate_headers placed plain unknown (fun result run => by
    rw [found, bind_eq_ok] at run
    obtain ⟨session, -, run⟩ := run
    obtain rfl := pure_eq_ok.mp run
    exact (routes session).2)
  rw [runHandler_handleHeaders isHandler idle, iterates, found]
  cases outcome : SimpleCache.httpReadHeaders reading.session with
  | error fault => rfl
  | ok session =>
      have finishes : finishHeaders
          { reading.move (text.length + 1) with
            session
            state := if routed session = .registeredWrite then 0 else 2 }
          (routed session) = .ok
            ({ reading.move (text.length + 1) with
              session
              state := if routed session = .registeredWrite then 0 else 2 },
              goOn (routed session)) :=
        finishHeaders_notFull placed.notFull
      rw [(routes session).1] at finishes
      exact finishes

/-- A name that the request looks for is followed by the extraction of its
value. -/
theorem runHandler_name {code : HeaderCode} {spelling : Bytes × HeaderCode}
    (isHandler : reading.session.connection.handler = .handleHeaders)
    (idle : reading.extracting = none)
    (placed : Placed reading.input (text ++ colon :: rest))
    (plain : newline ∉ text) (noColon : colon ∉ text)
    (known : (headerNames reading.session.connection).find?
      (fun entry => text = entry.1) = some spelling)
    (isCode : spelling.2 = code) :
    ∃ state, runHandler env outcome written reading = .ok
      ({ reading.move (text.length + 1) with
        state, extracting := some code }, .needsMoreRead) := by
  have isByte := placed.byte rfl
  have unknown : Unrecognised reading.session.connection text :=
    fun n inRange same => absurd (same ▸ List.getElem_mem inRange) noColon
  have away : distance reading.input
      (reading.input.readPosition % bufferSize + text.length) =
        text.length := by
    unfold distance
    omega
  have looks := findHeader_eq placed
    (headerNames reading.session.connection) (headerNames_plain _)
  rw [known] at looks
  have found : httpReadHeaders (lineStates reading text text.length)
      (reading.input.readPosition % bufferSize + text.length) text.length =
      .ok ({ reading.move (text.length + 1) with
        state := text.foldl lineState reading.state
        extracting := some code }, .needsMoreRead) := by
    rw [lineStates_last]
    unfold httpReadHeaders
    dsimp only
    rw [isByte, if_pos rfl, away, if_neg (by omega), looks]
    subst isCode
    rfl
  have iterates := iterate_headers placed plain unknown (fun result run => by
    rw [found] at run
    obtain rfl := Except.ok.inj run
    simp)
  refine ⟨text.foldl lineState reading.state, ?_⟩
  rw [runHandler_handleHeaders isHandler idle, iterates, found]
  rfl

/-- The number in front of a byte that ends the value. -/
theorem headerNumber_digits {input : ReadBuffer} {digits rest : Bytes}
    {byte : UInt8} (placed : Placed input (digits ++ byte :: rest))
    (nonempty : digits ≠ [])
    (all : ∀ digit ∈ digits, isDigit digit = true)
    (small : digitsValue digits < 2147483648) :
    headerNumber input digits.length =
      .ok (some ⟨digitsValue digits, small⟩) := by
  have positive : 0 < digits.length := List.length_pos_of_ne_nil nonempty
  have cells := placed.cellsToEnd
  rw [List.length_append, List.length_cons] at cells
  have located : input.Located input.cellsToEnd digits := by
    have front := placed.holds.located
      (show digits.length ≤ input.cellsToEnd by omega)
    rwa [List.take_left] at front
  have limited : input.Limited digits.length := by
    refine ⟨by omega, ?_⟩
    rw [placed.toEnd, List.length_append, List.length_cons]
    omega
  have fits : ((ReadBuffer.accumulate 0 digits : Nat) : Int) ≤
      ReadBuffer.intMax := by
    rw [← ReadBuffer.digitsValue_eq]
    unfold ReadBuffer.intMax
    omega
  have scans := located.scan all
    (Or.inr (Int.le_refl (digits.length : Int))) fits
  rw [Int.sub_self, ReadBuffer.scanDigits_zero, ← ReadBuffer.digitsValue_eq]
    at scans
  have parsed : (input.rbufStrntol digits.length).1 =
      .number (digitsValue digits) := by
    have value : ((0 : Nat) : Int) = 0 := rfl
    rw [value] at scans
    rw [ReadBuffer.rbufStrntol_eq placed.holds.valid (by omega)]
    unfold ReadBuffer.firstCount
    rw [if_pos limited, scans]
    simp only [if_pos limited]
  unfold headerNumber
  rw [parsed]
  simp [small]
  rfl

/-- The bytes that end the line of a value. -/
inductive Ending
  | bare
  | withReturn

def Ending.bytes : Ending → Bytes
  | .bare => [newline]
  | .withReturn => [carriageReturn, newline]

def spaces (count : Nat) : Bytes := List.replicate count space

/-- The header whose number was read. -/
def numberHeader (ttl : Bool) (value : Digits) : Header :=
  if ttl then .xTtl (some value) else .contentLength (some value)

def numberCode (ttl : Bool) : HeaderCode :=
  if ttl then .xTtl else .contentLength

/-- A number that arrived is read for the header of an upload. -/
theorem readHeader_number {ttl : Bool} {digits : Bytes} {byte : UInt8}
    (placed : Placed reading.input (digits ++ byte :: rest))
    (nonempty : digits ≠ [])
    (all : ∀ digit ∈ digits, isDigit digit = true)
    (small : digitsValue digits < 2147483648)
    (isPut : reading.session.connection.method = some .put)
    (isKey : reading.session.connection.level = .key) :
    (readHeader reading (numberCode ttl) digits.length >>= fun header =>
      match header with
      | some header =>
          SimpleCache.httpReadHeaderExtraction env.hashString reading.session
            header
      | none => pure reading.session) =
      SimpleCache.httpReadHeaderExtraction env.hashString reading.session
        (numberHeader ttl ⟨digitsValue digits, small⟩) := by
  have number := headerNumber_digits placed nonempty all small
  cases ttl with
  | false =>
      change (headerNumber reading.input digits.length >>= fun value =>
        pure (some (Header.contentLength value))) >>= _ = _
      rw [number]
      rfl
  | true =>
      unfold readHeader numberCode
      cases held : reading.session.connection.target with
      | entry entry =>
          simp only [if_true, number]
          rfl
      | null =>
          simp only [if_true]
          unfold SimpleCache.httpReadHeaderExtraction numberHeader readTtl
          simp only [isPut, isKey, if_true, held]
          rfl
      | table table =>
          simp only [if_true]
          unfold SimpleCache.httpReadHeaderExtraction numberHeader readTtl
          simp only [isPut, isKey, if_true, held]
          rfl

/-- The reading after the value of a header. -/
def afterValue (reading : Reading env.kh) (session : Session env.kh)
    (count : Nat) : Reading env.kh :=
  { reading.move count with session, state := 1, extracting := none }

/-- The bytes up to the end of a value, as the handler meets them: its spaces
are consumed one by one. -/
def valueStates (reading : Reading env.kh) (blanks n : Nat) :
    Reading env.kh :=
  reading.move (min n blanks : Nat)

theorem Reading.move_move (reading : Reading kh) (first second : Int) :
    (reading.move first).move second = reading.move (first + second) := by
  unfold Reading.move
  rw [readMove_readMove]

theorem Placed.moveSpaces {input : ReadBuffer} {blanks count : Nat}
    {rest : Bytes} (placed : Placed input (spaces blanks ++ rest))
    (le : count ≤ blanks) :
    Placed (input.readMove count) (spaces (blanks - count) ++ rest) := by
  have split_ : spaces blanks ++ rest =
      spaces count ++ (spaces (blanks - count) ++ rest) := by
    unfold spaces
    rw [← List.append_assoc, List.replicate_append_replicate,
      Nat.add_sub_cancel' le]
  rw [split_] at placed
  have moved := placed.move
  unfold spaces at moved
  rw [List.length_replicate] at moved
  exact moved

/-- What the handler does at the byte behind the digits. -/
def valueEnds (env : Env) (reading : Reading env.kh) (ttl : Bool)
    (value : Digits) (count : Nat) :
    Except Fault (Reading env.kh × StateAction) := do
  let session ← SimpleCache.httpReadHeaderExtraction env.hashString
    reading.session (numberHeader ttl value)
  if session.connection.handler = .handleHeaders then
    return (afterValue reading session count, .needsMoreRead)
  else
    return ({ reading.move count with
      session, state := 0, extracting := none }, .registeredWrite)

theorem valueEnds_move {ttl : Bool} {value : Digits} {first second : Nat} :
    valueEnds env (reading.move first) ttl value second =
      valueEnds env reading ttl value (first + second) := by
  unfold valueEnds afterValue
  rw [Reading.move_move]
  rfl

variable {ttl : Bool} {digits : Bytes} {ending : Ending} {blanks : Nat}

/-- One round over a value: it is read, or the round ends among the spaces,
because every space that is consumed also shortens the round. -/
theorem runHandler_value
    (isCode : reading.extracting = some (numberCode ttl))
    (isPut : reading.session.connection.method = some .put)
    (isKey : reading.session.connection.level = .key)
    (placed : Placed reading.input
      (spaces blanks ++ (digits ++ (ending.bytes ++ rest))))
    (nonempty : digits ≠ [])
    (all : ∀ digit ∈ digits, isDigit digit = true)
    (small : digitsValue digits < 2147483648) :
    runHandler env outcome written reading =
        valueEnds env reading ttl ⟨digitsValue digits, small⟩
          (blanks + (digits.length + ending.bytes.length)) ∨
      ∃ count, 0 < count ∧ count ≤ blanks ∧
        runHandler env outcome written reading =
          .ok (reading.move count, .needsMoreRead) := by
  obtain ⟨stop, more, isEnding, isStop⟩ : ∃ stop more,
      ending.bytes ++ rest = stop :: more ∧
        (stop = newline ∧ ending.bytes.length = 1 ∨
          stop = carriageReturn ∧ ending.bytes.length = 2) := by
    cases ending with
    | bare => exact ⟨newline, rest, rfl, Or.inl ⟨rfl, rfl⟩⟩
    | withReturn => exact ⟨carriageReturn, newline :: rest, rfl, Or.inr ⟨rfl, rfl⟩⟩
  rw [isEnding] at placed
  have stopOther : stop ≠ space ∧ isDigit stop = false := by
    rcases isStop with ⟨rfl, -⟩ | ⟨rfl, -⟩ <;> decide
  have length : (spaces blanks).length = blanks := List.length_replicate
  have whole : Placed reading.input
      ((spaces blanks ++ digits) ++ stop :: more) := by
    rw [List.append_assoc]
    exact placed
  have wholeLength : (spaces blanks ++ digits).length =
      blanks + digits.length := by
    rw [List.length_append, length]
  have behind : Placed (reading.input.readMove blanks)
      (digits ++ stop :: more) := by
    have moved := placed.moveSpaces (Nat.le_refl blanks)
    rwa [Nat.sub_self] at moved
  -- the bytes before the stop
  have passes : ∀ n < blanks + digits.length,
      httpReadHeaderExtraction env (numberCode ttl)
        (valueStates reading blanks n)
        (reading.input.readPosition % bufferSize + n) n =
          .ok (valueStates reading blanks (n + 1), .continueProcessing) := by
    intro n lt
    have inRange : n < (spaces blanks ++ digits).length := by omega
    have isByte : (valueStates reading blanks n).input.buffer
        (reading.input.readPosition % bufferSize + n) =
          (spaces blanks ++ digits)[n] := whole.before inRange
    unfold httpReadHeaderExtraction
    dsimp only
    rw [isByte]
    by_cases inSpaces : n < blanks
    · have isSpace : (spaces blanks ++ digits)[n] = space := by
        rw [List.getElem_append_left (by omega)]
        exact List.getElem_replicate ..
      rw [if_pos isSpace]
      unfold valueStates
      rw [Reading.move_move, Nat.min_eq_left inSpaces.le,
        Nat.min_eq_left inSpaces]
      rfl
    · have digit : isDigit (spaces blanks ++ digits)[n] = true := by
        rw [List.getElem_append_right (by omega)]
        exact all _ (List.getElem_mem _)
      have other : (spaces blanks ++ digits)[n] ≠ space ∧
          ¬((spaces blanks ++ digits)[n] = newline ∨
            (spaces blanks ++ digits)[n] = carriageReturn) := by
        generalize (spaces blanks ++ digits)[n] = byte at digit ⊢
        refine ⟨?_, ?_⟩
        · rintro rfl
          exact absurd digit (by decide)
        · rintro (rfl | rfl) <;> exact absurd digit (by decide)
      rw [if_neg other.1, if_neg other.2]
      unfold valueStates
      rw [Nat.min_eq_right (by omega), Nat.min_eq_right (by omega)]
      rfl
  have found : httpReadHeaderExtraction env (numberCode ttl)
      (valueStates reading blanks (blanks + digits.length))
      (reading.input.readPosition % bufferSize + (blanks + digits.length))
      (blanks + digits.length) =
        valueEnds env reading ttl ⟨digitsValue digits, small⟩
          (blanks + (digits.length + ending.bytes.length)) := by
    have isByte : (reading.move blanks).input.buffer
        (reading.input.readPosition % bufferSize +
          (blanks + digits.length)) = stop := by
      have atStop := whole.byte rfl
      rw [wholeLength] at atStop
      exact atStop
    have away : distance (reading.move blanks).input
        (reading.input.readPosition % bufferSize +
          (blanks + digits.length)) = digits.length := by
      have inside := whole.inside
      rw [List.length_append, wholeLength, List.length_cons] at inside
      change ((reading.input.readPosition % bufferSize +
        (blanks + digits.length) : Nat) : Int) -
          ((((reading.input.readPosition + (blanks : Int)) % 65536).toNat %
            bufferSize : Nat) : Int) = digits.length
      unfold bufferSize
      omega
    have temporary : (if stop = carriageReturn then (2 : Int) else 1) =
        ending.bytes.length := by
      rcases isStop with ⟨rfl, one⟩ | ⟨rfl, two⟩
      · rw [one]
        rfl
      · rw [two]
        rfl
    have isEnd : stop = newline ∨ stop = carriageReturn :=
      isStop.imp And.left And.left
    have count : ((blanks : Nat) : Int) + (digits.length +
        ending.bytes.length) =
          ((blanks + (digits.length + ending.bytes.length) : Nat) : Int) := by
      push_cast
      rfl
    have read := @readHeader_number env (reading.move blanks) _
      ttl _ _ behind nonempty all small isPut isKey
    have same : valueStates reading blanks (blanks + digits.length) =
        reading.move blanks := by
      unfold valueStates
      rw [Nat.min_eq_right (by omega)]
    rw [same]
    unfold httpReadHeaderExtraction valueEnds afterValue
    dsimp only
    rw [isByte, if_neg stopOther.1, if_pos isEnd, temporary, away,
      Reading.move_move, count]
    change (readHeader (reading.move blanks) (numberCode ttl) digits.length >>=
      fun header => _) = _
    have session : (reading.move blanks).session = reading.session := rfl
    rw [session] at read
    rw [← read]
    cases outcome : readHeader (reading.move blanks) (numberCode ttl)
      digits.length with
    | error fault => rfl
    | ok header => cases header <;> rfl
  have ends : ∀ result, httpReadHeaderExtraction env (numberCode ttl)
      (valueStates reading blanks (blanks + digits.length))
      (reading.input.readPosition % bufferSize + (blanks + digits.length))
      (blanks + digits.length) = .ok result →
        result.2 ≠ .continueProcessing := by
    intro result run
    rw [found] at run
    unfold valueEnds at run
    rw [bind_eq_ok] at run
    obtain ⟨session, -, run⟩ := run
    split at run <;> obtain rfl := pure_eq_ok.mp run <;> simp
  have inside := whole.inside
  have toEnd := whole.toEnd
  rw [List.length_append, wholeLength, List.length_cons] at inside
  rw [List.length_append, wholeLength, List.length_cons] at toEnd
  have before : ((blanks + digits.length : Nat) : Int) <
      reading.input.rbufReadToEnd := by omega
  have rounds := rbufIterate_run passes before ends (Nat.zero_le _)
    (show blanks + digits.length - 0 < 65536 by omega)
  have isIterate : iterate (httpReadHeaderExtraction env (numberCode ttl))
      reading = rbufIterate (httpReadHeaderExtraction env (numberCode ttl))
        reading.input.rbufReadToEnd 65536 (valueStates reading blanks 0)
          (reading.input.readPosition % bufferSize + 0) 0 := by
    have start : valueStates reading blanks 0 = reading := by
      unfold valueStates Reading.move ReadBuffer.readMove
      have readLt := placed.holds.read_lt
      obtain ⟨session, ⟨buffer, readPosition, writePosition⟩, _, _⟩ := reading
      simp only [Nat.zero_min]
      congr 2
      dsimp only at readLt
      omega
    unfold iterate
    dsimp only
    rw [if_neg (by omega), start]
    rfl
  rw [runHandler_extract isCode]
  unfold roundOf
  rw [isIterate]
  rcases rounds with stops | ⟨last, le, few, stops⟩
  · refine Or.inl ?_
    rw [stops, found]
    cases outcome : valueEnds env reading ttl ⟨digitsValue digits, small⟩
        (blanks + (digits.length + ending.bytes.length)) with
    | error fault => rfl
    | ok result =>
        obtain ⟨after, action⟩ := result
        have noContinue := ends (after, action) (found.trans outcome)
        cases action with
        | continueProcessing => exact absurd rfl noContinue
        | needsMoreRead => rfl
        | registeredWrite => rfl
  · have moved : (valueStates reading blanks last).input.rbufReadRemaining =
        (spaces (blanks - min last blanks) ++ (digits ++ stop :: more)).length :=
      (placed.moveSpaces (Nat.min_le_right last blanks)).remaining
    rw [moved] at few
    simp only [List.length_append, List.length_cons] at few
    have spaceLength : (spaces (blanks - min last blanks)).length =
        blanks - min last blanks := List.length_replicate
    rw [spaceLength] at few
    refine Or.inr ⟨min last blanks, by omega, Nat.min_le_right _ _, ?_⟩
    rw [stops]
    rfl

/-- Rounds over the spaces lead to one that reads the value. -/
theorem leads_value
    (isCode : reading.extracting = some (numberCode ttl))
    (isPut : reading.session.connection.method = some .put)
    (isKey : reading.session.connection.level = .key)
    (placed : Placed reading.input
      (spaces blanks ++ (digits ++ (ending.bytes ++ rest))))
    (nonempty : digits ≠ [])
    (all : ∀ digit ∈ digits, isDigit digit = true)
    (small : digitsValue digits < 2147483648) :
    ∃ mid : Reading env.kh × Bytes, Leads env outcome written
        (reading, spaces blanks ++ (digits ++ (ending.bytes ++ rest))) mid ∧
      mid.2 ≠ [] ∧ rest.length < mid.2.length ∧
      runHandler env outcome written mid.1 =
        valueEnds env reading ttl ⟨digitsValue digits, small⟩
          (blanks + (digits.length + ending.bytes.length)) := by
  have positive : 0 < digits.length := List.length_pos_of_ne_nil nonempty
  induction blanks using Nat.strong_induction_on generalizing reading with
  | _ blanks ih =>
      rcases @runHandler_value env outcome written _ _ _ _ _ _ isCode
          isPut isKey placed nonempty all small with
        stops | ⟨count, some_, le, moves⟩
      · refine ⟨_, .refl, ?_, ?_, stops⟩
        · simp [nonempty]
        · simp only [List.length_append]
          omega
      · have moved := placed.moveSpaces le
        obtain ⟨mid, leads, midNonempty, longer, run⟩ := @ih (blanks - count)
          (by omega) (reading.move count) isCode isPut isKey moved
        refine ⟨mid, .head ⟨moves, moved, by simp [nonempty], ?_⟩ leads,
          midNonempty, longer, ?_⟩
        · simp only [List.length_append, spaces, List.length_replicate]
          omega
        · rw [run, valueEnds_move]
          congr 1
          omega

end Lines

section Requests

variable {env : Env} {outcome : FlushOutcome} {written : Int}

/-- A reading at the end of a request, with a response to write. -/
def respond (final : ReadBuffer) (session : Except Fault (Session kh)) :
    Except Fault (Reading kh × StateAction) :=
  session.map fun session =>
    ({ session, input := final, state := 0, extracting := none },
      .registeredWrite)

/-- A handler that moves to the end of the request. -/
theorem move_ends {reading : Reading kh} {count : Int} {final : ReadBuffer}
    (idle : reading.extracting = none)
    (isFinal : reading.input.readMove count = final) (session : Session kh) :
    ({ reading.move count with session, state := 0 } : Reading kh) =
      { session, input := final, state := 0, extracting := none } := by
  unfold Reading.move
  dsimp only
  rw [isFinal, idle]

/-- A round whose outcome depends on the store. -/
theorem behaves_bind {reading : Reading env.kh} {bytes rest : Bytes}
    {session : Except Fault (Session env.kh)}
    {next : Session env.kh → Reading env.kh}
    {more : Session env.kh → Except Fault (Session env.kh)}
    {final : ReadBuffer} (nonempty : bytes ≠ [])
    (run : runHandler env outcome written reading =
      session >>= fun session => pure (next session, .needsMoreRead))
    (placed : ∀ result, session = .ok result → Placed (next result).input rest)
    (left : rest ≠ []) (fewer : rest.length < bytes.length)
    (behaves : ∀ result, session = .ok result →
      Behaves env outcome written (next result) rest
        (respond final (more result))) :
    Behaves env outcome written reading bytes
      (respond final (session >>= more)) := by
  cases session with
  | error fault => exact behaves_fails nonempty run
  | ok session =>
      exact @Behaves.step env outcome written _ (reading, bytes)
        (next session, rest) (behaves session rfl)
        ⟨run, placed session rfl, left, fewer⟩

/-- A header line: one that is not looked for, or a number. -/
inductive Line
  | other (name value : Bytes)
  | number (ttl : Bool) (name : Bytes) (blanks : Nat) (digits : Bytes)
      (ending : Ending)

def Line.bytes : Line → Bytes
  | .other name value => name ++ colon :: (value ++ [newline])
  | .number _ name blanks digits ending =>
      name ++ colon :: (spaces blanks ++ (digits ++ ending.bytes))

/-- What the header of the line does. -/
def Line.perform (env : Env) (session : Session env.kh) :
    Line → Except Fault (Session env.kh)
  | .other _ _ => return session
  | .number ttl _ _ digits _ =>
      if small : digitsValue digits < 2147483648 then
        SimpleCache.httpReadHeaderExtraction env.hashString session
          (numberHeader ttl ⟨digitsValue digits, small⟩)
      else throw .overrun

def performLines (env : Env) :
    List Line → Session env.kh → Except Fault (Session env.kh)
  | [], session => return session
  | line :: lines, session => do
      let session ← line.perform env session
      performLines env lines session

/-- The names that are looked for in an upload. -/
def numberNames (ttl : Bool) : List Bytes :=
  if ttl then [literal "X-Ttl", literal "x-ttl"] else [literal "Content-Length"]

/-- A line of a request with this method. -/
def Line.WellFormed (method : Method) : Line → Prop
  | .other name value =>
      (∃ byte ∈ name, byte ≠ carriageReturn) ∧ colon ∉ name ∧
        newline ∉ name ∧ newline ∉ value ∧
        (method = .put →
          name ∉ numberNames false ∧ name ∉ numberNames true)
  | .number ttl name _ digits _ =>
      method = .put ∧ name ∈ numberNames ttl ∧ digits ≠ [] ∧
        (∀ digit ∈ digits, isDigit digit = true) ∧
        digitsValue digits < 2147483648

/-- A connection that reads the headers of a request with a key. -/
structure ReadsKey (connection : Connection) (method : Method) : Prop where
  handler : connection.handler = .handleHeaders
  isMethod : connection.method = some method
  level : connection.level = .key

/-- What a number leaves of the connection. -/
theorem extraction_keeps {hashString : Bytes → UInt32}
    {session after : Session kh} {ttl : Bool} {value : Digits}
    (isPut : session.connection.method = some .put)
    (isKey : session.connection.level = .key)
    (run : SimpleCache.httpReadHeaderExtraction hashString session
      (numberHeader ttl value) = .ok after) :
    after.connection.handler = session.connection.handler ∧
      after.connection.method = session.connection.method ∧
      after.connection.level = session.connection.level ∧
      after.connection.target = session.connection.target := by
  unfold SimpleCache.httpReadHeaderExtraction numberHeader at run
  rw [isPut, isKey] at run
  cases ttl with
  | false =>
      simp only [Bool.false_eq_true, if_false] at run
      unfold readContentLength at run
      cases held : session.connection.target with
      | entry entry =>
          simp only [held, bind_eq_ok, pure_eq_ok] at run
          obtain ⟨result, -, rfl⟩ := run
          exact ⟨rfl, rfl, rfl, rfl⟩
      | null =>
          simp only [held, pure_eq_ok] at run
          subst run
          exact ⟨rfl, rfl, rfl, rfl⟩
      | table table =>
          simp only [held, pure_eq_ok] at run
          subst run
          exact ⟨rfl, rfl, rfl, rfl⟩
  | true =>
      simp only [if_true, pure_eq_ok] at run
      subst run
      unfold readTtl
      split
      · next isNone => cases isNone
      · split <;> exact ⟨rfl, rfl, rfl, rfl⟩
      · exact ⟨rfl, rfl, rfl, rfl⟩

theorem Line.perform_keeps {method : Method} {line : Line}
    {session after : Session env.kh} (wellFormed : line.WellFormed method)
    (reads : ReadsKey session.connection method)
    (run : line.perform env session = .ok after) :
    ReadsKey after.connection method ∧
      after.connection.target = session.connection.target := by
  cases line with
  | other name value =>
      obtain rfl := pure_eq_ok.mp run
      exact ⟨reads, rfl⟩
  | number ttl name blanks digits ending =>
      obtain ⟨rfl, -, -, -, small⟩ := wellFormed
      unfold Line.perform at run
      dsimp only at run
      rw [dif_pos small] at run
      obtain ⟨handler, method, level, target⟩ :=
        extraction_keeps reads.isMethod reads.level run
      exact ⟨⟨handler.trans reads.handler, method.trans reads.isMethod,
        level.trans reads.level⟩, target⟩

theorem headerNames_key {connection : Connection} {method : Method}
    (reads : ReadsKey connection method) :
    headerNames connection =
      if method = .put then
        [(literal "Content-Length", .contentLength), (literal "X-Ttl", .xTtl),
          (literal "x-ttl", .xTtl)]
      else [] := by
  unfold headerNames
  rw [reads.isMethod, reads.level]
  cases method <;> rfl

/-- One line, and what follows it. -/
theorem behaves_line {method : Method} {line : Line}
    {reading : Reading env.kh} {rest : Bytes} {final : ReadBuffer}
    {more : Session env.kh → Except Fault (Session env.kh)}
    (wellFormed : line.WellFormed method)
    (reads : ReadsKey reading.session.connection method)
    (idle : reading.extracting = none)
    (placed : Placed reading.input (line.bytes ++ rest)) (left : rest ≠ [])
    (next : ∀ session, line.perform env reading.session = .ok session →
      Behaves env outcome written
        { reading.move line.bytes.length with session, state := 1 } rest
        (respond final (more session))) :
    Behaves env outcome written reading (line.bytes ++ rest)
      (respond final (line.perform env reading.session >>= more)) := by
  have names := headerNames_key reads
  cases line with
  | other name value =>
      obtain ⟨⟨byte, member, visible⟩, noColon, noNewline, plain, unknown⟩ :=
        wellFormed
      have text : Line.bytes (.other name value) ++ rest =
          (name ++ colon :: value) ++ newline :: rest := by
        unfold Line.bytes
        simp
      have length : (Line.bytes (.other name value)).length =
          (name ++ colon :: value).length + 1 := by
        simp [Line.bytes]
        omega
      rw [text] at placed ⊢
      have inLine : newline ∉ name ++ colon :: value := by
        simp only [List.mem_append, List.mem_cons, not_or]
        exact ⟨noNewline, by decide, plain⟩
      have seen : ∃ byte ∈ name ++ colon :: value,
          byte ≠ colon ∧ byte ≠ carriageReturn :=
        ⟨byte, List.mem_append_left _ member,
          fun same => noColon (same ▸ member), visible⟩
      have unrecognised : Unrecognised reading.session.connection
          (name ++ colon :: value) := by
        intro n inRange isColon entry known same
        rw [names] at known
        split at known
        · next isPut =>
            have entries : entry.1 ∈ numberNames false ∨
                entry.1 ∈ numberNames true := by
              simp only [List.mem_cons, List.not_mem_nil, or_false] at known
              rcases known with rfl | rfl | rfl <;> decide
            have plainNames : colon ∉ entry.1 := by
              simp only [List.mem_cons, List.not_mem_nil, or_false] at known
              rcases known with rfl | rfl | rfl <;> decide
            rcases Nat.lt_trichotomy n name.length with lt | rfl | gt
            · rw [List.getElem_append_left lt] at isColon
              exact noColon (isColon ▸ List.getElem_mem lt)
            · rw [List.take_left] at same
              obtain ⟨notFalse, notTrue⟩ := unknown isPut
              rcases entries with member | member
              · exact notFalse (same ▸ member)
              · exact notTrue (same ▸ member)
            · refine plainNames (same ▸ ?_)
              rw [List.take_append]
              refine List.mem_append_right _ ?_
              obtain ⟨k, isK⟩ := Nat.exists_eq_succ_of_ne_zero
                (show n - name.length ≠ 0 by omega)
              rw [isK, List.take_succ_cons]
              exact List.mem_cons_self
        · cases known
      have run := @runHandler_line env outcome written _ _ _
        reads.handler idle placed inLine seen unrecognised
      have moved : Placed (reading.input.readMove
          ((name ++ colon :: value).length + 1)) rest :=
        placed.moveBehind
      have goes := next reading.session rfl
      rw [length] at goes
      exact @Behaves.step env outcome written _
        (reading, (name ++ colon :: value) ++ newline :: rest) (_, rest) goes
          ⟨run, moved, left, by
            simp only [List.length_append, List.length_cons]
            omega⟩
  | number ttl name blanks digits ending =>
      obtain ⟨rfl, isName, nonempty, all, small⟩ := wellFormed
      have text : Line.bytes (.number ttl name blanks digits ending) ++ rest =
          name ++ colon ::
            (spaces blanks ++ (digits ++ (ending.bytes ++ rest))) := by
        simp [Line.bytes]
      have length : (Line.bytes (.number ttl name blanks digits ending)).length =
          name.length + 1 + (blanks + (digits.length + ending.bytes.length)) := by
        simp [Line.bytes, spaces]
        omega
      rw [text] at placed ⊢
      have known : ∃ spelling,
          (headerNames reading.session.connection).find?
            (fun entry => name = entry.1) = some spelling ∧
              spelling.2 = numberCode ttl := by
        rw [names, if_pos rfl]
        cases ttl with
        | false =>
            simp only [numberNames, Bool.false_eq_true, if_false,
              List.mem_singleton] at isName
            subst isName
            exact ⟨_, rfl, rfl⟩
        | true =>
            simp only [numberNames, if_true, List.mem_cons, List.not_mem_nil,
              or_false] at isName
            rcases isName with rfl | rfl
            · exact ⟨_, rfl, rfl⟩
            · exact ⟨_, rfl, rfl⟩
      have plainName : newline ∉ name ∧ colon ∉ name := by
        cases ttl with
        | false =>
            simp only [numberNames, Bool.false_eq_true, if_false,
              List.mem_singleton] at isName
            subst isName
            decide
        | true =>
            simp only [numberNames, if_true, List.mem_cons, List.not_mem_nil,
              or_false] at isName
            rcases isName with rfl | rfl <;> decide
      obtain ⟨spelling, found, isCode⟩ := known
      obtain ⟨state, run⟩ := @runHandler_name env outcome
        written _ _ _ _ _ reads.handler idle placed plainName.1 plainName.2
        found isCode
      have moved : Placed (reading.input.readMove (name.length + 1))
          (spaces blanks ++ (digits ++ (ending.bytes ++ rest))) :=
        placed.moveBehind
      obtain ⟨mid, leads, midNonempty, longer, ends⟩ := @leads_value env
        outcome written
        { reading.move (name.length + 1) with
          state, extracting := some (numberCode ttl) } _ _ _ _ _
        rfl reads.isMethod reads.level moved nonempty all small
      have perform : Line.perform env reading.session
          (.number ttl name blanks digits ending) =
            SimpleCache.httpReadHeaderExtraction env.hashString reading.session
              (numberHeader ttl ⟨digitsValue digits, small⟩) := by
        unfold Line.perform
        dsimp only
        rw [dif_pos small]
      rw [perform]
      rw [perform] at next
      refine @Behaves.step env outcome written _
        (reading, name ++ colon ::
          (spaces blanks ++ (digits ++ (ending.bytes ++ rest)))) (_, _) ?_
          ⟨run, moved, by simp [nonempty], by
            simp only [List.length_append, List.length_cons]
            omega⟩
      refine Behaves.leads ?_ leads
      unfold valueEnds at ends
      dsimp only at ends
      cases outcomeEq : SimpleCache.httpReadHeaderExtraction env.hashString
          reading.session (numberHeader ttl ⟨digitsValue digits, small⟩) with
      | error fault =>
          have fails : runHandler env outcome written mid.1 = .error fault := by
            rw [ends]
            change (SimpleCache.httpReadHeaderExtraction env.hashString
              reading.session _ >>= _) = _
            rw [outcomeEq]
            rfl
          exact behaves_fails midNonempty fails
      | ok session =>
          obtain ⟨handler, -⟩ := extraction_keeps reads.isMethod reads.level
            outcomeEq
          have stays : session.connection.handler = .handleHeaders :=
            handler.trans reads.handler
          have same : afterValue { reading.move (name.length + 1) with
              state, extracting := some (numberCode ttl) } session
                (blanks + (digits.length + ending.bytes.length)) =
              { reading.move (Line.bytes
                  (.number ttl name blanks digits ending)).length with
                session, state := 1 } := by
            unfold afterValue Reading.move
            dsimp only
            rw [readMove_readMove, length, idle]
            rfl
          have goes : runHandler env outcome written mid.1 = .ok
              ({ reading.move (Line.bytes
                  (.number ttl name blanks digits ending)).length with
                session, state := 1 }, .needsMoreRead) := by
            rw [ends]
            change (SimpleCache.httpReadHeaderExtraction env.hashString
              reading.session _ >>= _) = _
            rw [outcomeEq, ok_bind, if_pos stays, same]
            rfl
          have whole : Placed reading.input
              (Line.bytes (.number ttl name blanks digits ending) ++ rest) := by
            rw [text]
            exact placed
          exact @Behaves.step env outcome written _ mid (_, rest)
            (next session outcomeEq) ⟨goes, whole.move, left, longer⟩

def linesBytes (lines : List Line) : Bytes :=
  lines.flatMap Line.bytes

theorem performLines_keeps {method : Method} {lines : List Line}
    {session after : Session env.kh}
    (wellFormed : ∀ line ∈ lines, line.WellFormed method)
    (reads : ReadsKey session.connection method)
    (run : performLines env lines session = .ok after) :
    ReadsKey after.connection method ∧
      after.connection.target = session.connection.target := by
  induction lines generalizing session with
  | nil =>
      obtain rfl := pure_eq_ok.mp run
      exact ⟨reads, rfl⟩
  | cons line lines ih =>
      unfold performLines at run
      rw [bind_eq_ok] at run
      obtain ⟨mid, first, run⟩ := run
      obtain ⟨midReads, midTarget⟩ := Line.perform_keeps
        (wellFormed line List.mem_cons_self) reads first
      obtain ⟨afterReads, afterTarget⟩ := ih
        (fun other member => wellFormed other (List.mem_cons_of_mem _ member))
        midReads run
      exact ⟨afterReads, afterTarget.trans midTarget⟩

/-- The header lines, and what follows them. -/
theorem behaves_lines {method : Method} {lines : List Line}
    {reading : Reading env.kh} {rest : Bytes} {final : ReadBuffer}
    {more : Session env.kh → Except Fault (Session env.kh)}
    (wellFormed : ∀ line ∈ lines, line.WellFormed method)
    (reads : ReadsKey reading.session.connection method)
    (idle : reading.extracting = none) (counted : reading.state = 1)
    (placed : Placed reading.input (linesBytes lines ++ rest))
    (left : rest ≠ [])
    (next : ∀ session, performLines env lines reading.session = .ok session →
      Behaves env outcome written
        { reading.move (linesBytes lines).length with session, state := 1 } rest
        (respond final (more session))) :
    Behaves env outcome written reading (linesBytes lines ++ rest)
      (respond final (performLines env lines reading.session >>= more)) := by
  induction lines generalizing reading with
  | nil =>
      have same : ({ reading.move (linesBytes []).length with
          session := reading.session, state := 1 } : Reading env.kh) =
            reading := by
        have readLt := placed.holds.read_lt
        unfold Reading.move ReadBuffer.readMove linesBytes
        obtain ⟨session, ⟨buffer, readPosition, writePosition⟩, state, _⟩ :=
          reading
        dsimp only at readLt counted
        subst counted
        simp only [List.flatMap_nil, List.length_nil]
        congr 2
        omega
      have goes := next reading.session rfl
      rw [same] at goes
      exact goes
  | cons line lines ih =>
      have text : linesBytes (line :: lines) ++ rest =
          line.bytes ++ (linesBytes lines ++ rest) := by
        simp [linesBytes]
      have length : (linesBytes (line :: lines)).length =
          line.bytes.length + (linesBytes lines).length := by
        simp [linesBytes]
      have others : ∀ other ∈ lines, other.WellFormed method :=
        fun other member => wellFormed other (List.mem_cons_of_mem _ member)
      have assoc : (performLines env (line :: lines) reading.session >>= more) =
          (line.perform env reading.session >>= fun session =>
            performLines env lines session >>= more) := by
        change ((line.perform env reading.session >>= fun session =>
          performLines env lines session) >>= more) = _
        cases line.perform env reading.session <;> rfl
      rw [text] at placed ⊢
      rw [assoc]
      refine behaves_line (wellFormed line List.mem_cons_self) reads idle placed
        (by simp [left]) fun session first => ?_
      have midReads := (Line.perform_keeps
        (wellFormed line List.mem_cons_self) reads first).1
      refine @ih { reading.move line.bytes.length with
        session, state := 1 } others midReads idle rfl placed.move
        fun last run => ?_
      have goes := next last (by
        unfold performLines
        rw [first]
        exact run)
      have same : (({ reading.move line.bytes.length with
          session, state := 1 } : Reading env.kh).move
            (linesBytes lines).length) =
          { reading.move (linesBytes (line :: lines)).length with
            session, state := 1 } := by
        unfold Reading.move
        dsimp only
        rw [readMove_readMove, length]
        rfl
      rw [same]
      exact goes

def Line.lengths : Line → List Nat
  | .other _ _ => []
  | .number ttl _ _ digits _ => if ttl then [] else [digitsValue digits]

/-- The range of the target, and what is reserved for it. -/
structure Sized (session : Session kh) (length : Nat) : Prop where
  range : session.connection.endPosition =
    session.connection.position + length
  reserved : ∀ entry, session.connection.target = .entry entry →
    session.db.entry.dataLength entry = length

theorem dbTargetWriteAllocate_sized {db after : Db kh} {target : Target}
    {entry length : Nat}
    (run : dbTargetWriteAllocate db entry length = .ok (after, target)) :
    after.entry.dataLength entry = length := by
  unfold dbTargetWriteAllocate at run
  simp only [bind_eq_ok, Prod.exists] at run
  obtain ⟨chosen, -, opened, opening, openingEq, run⟩ := run
  have sameEntry : after.entry = opened.entry := by
    split at run
    · obtain ⟨rfl, -⟩ := Prod.mk.inj (pure_eq_ok.mp run)
      cases opening.fd <;> rfl
    · obtain ⟨rfl, -⟩ := Prod.mk.inj (pure_eq_ok.mp run)
      rfl
  have counted : (countLength chosen entry length).entry.dataLength entry =
      length := by
    rw [countLength_eq]
    simp [Db.setLength]
  have sameLength : opened.entry.dataLength entry = length := by
    unfold dbTargetOpen at openingEq
    dsimp only at openingEq
    split at openingEq
    · simp only [if_true, bind_eq_ok, pure_eq_ok, Prod.exists,
        Prod.mk.injEq] at openingEq
      obtain ⟨created, fd, creates, rfl, -⟩ := openingEq
      obtain ⟨it, disk, createdEq, -⟩ := dbEntryOpenCreate_eq creates
      rw [createdEq]
      exact counted
    · obtain ⟨rfl, -⟩ := Prod.mk.inj (pure_eq_ok.mp openingEq)
      exact counted
  rw [sameEntry]
  exact sameLength

/-- A length sizes the target. -/
theorem readContentLength_sized {session after : Session kh} {value : Digits}
    (run : readContentLength session (some value) = .ok after) :
    Sized after value.val := by
  unfold readContentLength at run
  cases held : session.connection.target with
  | entry entry =>
      simp only [held, bind_eq_ok, Prod.exists, pure_eq_ok] at run
      obtain ⟨db, target, allocation, rfl⟩ := run
      have reserved := dbTargetWriteAllocate_sized allocation
      refine ⟨?_, ?_⟩
      · dsimp only
        split
        · next single =>
            rw [dbTargetWriteAllocate_position allocation single, reserved]
            omega
        · rw [reserved]
      · intro other same
        obtain rfl : entry = other := Held.entry.inj same
        exact reserved
  | null =>
      simp only [held, pure_eq_ok] at run
      subst run
      exact ⟨by simp, fun entry same => by cases same⟩
  | table table =>
      simp only [held, pure_eq_ok] at run
      subst run
      exact ⟨by simp, fun entry same => by cases same⟩

theorem readTtl_sized {session : Session kh} {value : Option Digits}
    {length : Nat} (sized : Sized session length) :
    Sized (readTtl session value) length := by
  unfold readTtl
  split
  · exact ⟨sized.range, sized.reserved⟩
  · split
    · exact sized
    · exact ⟨sized.range, sized.reserved⟩
  · exact sized

theorem Line.perform_sized {line : Line} {session after : Session env.kh}
    (wellFormed : line.WellFormed .put)
    (reads : ReadsKey session.connection .put)
    (run : line.perform env session = .ok after) :
    (∀ length, line.lengths = [] → Sized session length → Sized after length) ∧
      ∀ length, line.lengths = [length] → Sized after length := by
  cases line with
  | other name value =>
      obtain rfl := pure_eq_ok.mp run
      refine ⟨fun length _ sized => sized, fun length isLength => ?_⟩
      cases isLength
  | number ttl name blanks digits ending =>
      obtain ⟨-, -, -, -, small⟩ := wellFormed
      unfold Line.perform at run
      dsimp only at run
      rw [dif_pos small] at run
      unfold SimpleCache.httpReadHeaderExtraction numberHeader at run
      rw [reads.isMethod, reads.level] at run
      cases ttl with
      | false =>
          simp only [Bool.false_eq_true, if_false] at run
          refine ⟨fun length isLength => ?_, fun length isLength => ?_⟩
          · cases isLength
          · obtain rfl := List.singleton_inj.mp isLength
            exact readContentLength_sized run
      | true =>
          simp only [if_true, pure_eq_ok] at run
          subst run
          refine ⟨fun length _ sized => readTtl_sized sized,
            fun length isLength => ?_⟩
          cases isLength

/-- A single length among the lines sizes the target. -/
theorem performLines_sized {lines : List Line} {session after : Session env.kh}
    (wellFormed : ∀ line ∈ lines, line.WellFormed .put)
    (reads : ReadsKey session.connection .put)
    (run : performLines env lines session = .ok after) :
    (∀ length, lines.flatMap Line.lengths = [] → Sized session length →
        Sized after length) ∧
      ∀ length, lines.flatMap Line.lengths = [length] → Sized after length := by
  induction lines generalizing session with
  | nil =>
      obtain rfl := pure_eq_ok.mp run
      refine ⟨fun length _ sized => sized, fun length isLength => ?_⟩
      cases isLength
  | cons line lines ih =>
      unfold performLines at run
      rw [bind_eq_ok] at run
      obtain ⟨mid, first, run⟩ := run
      have isLine := wellFormed line List.mem_cons_self
      have midReads := (Line.perform_keeps isLine reads first).1
      obtain ⟨keeps, sizes⟩ := Line.perform_sized isLine reads first
      obtain ⟨laterKeeps, laterSizes⟩ := ih
        (fun other member => wellFormed other (List.mem_cons_of_mem _ member))
        midReads run
      simp only [List.flatMap_cons]
      refine ⟨fun length none_ sized => ?_, fun length one => ?_⟩
      · obtain ⟨noLine, noLater⟩ := List.append_eq_nil_iff.mp none_
        exact laterKeeps length noLater (keeps length noLine sized)
      · rcases List.append_eq_singleton_iff.mp one with
          ⟨noLine, later⟩ | ⟨here, noLater⟩
        · exact laterSizes length later
        · exact laterKeeps length noLater (sizes length here)

/-- The router sends a sized upload to its body. -/
theorem httpReadHeaders_put {session : Session kh} {length : Nat}
    (isPut : session.connection.method = some .put)
    (isKey : session.connection.level = .key) (sized : Sized session length)
    (positive : 0 < length) :
    SimpleCache.httpReadHeaders session =
      .ok (session.moveTo .handleRequestBody) := by
  unfold SimpleCache.httpReadHeaders routeKey
  rw [if_pos isKey, isPut]
  cases held : session.connection.target with
  | entry entry =>
      have reserved := sized.reserved entry held
      simp only
      rw [if_neg (by omega)]
      rfl
  | null => rfl
  | table table => rfl

/-- The router answers every other request at once. -/
theorem httpReadHeaders_routed {session after : Session kh} {method : Method}
    (isMethod : session.connection.method = some method)
    (isKey : session.connection.level = .key) (other : method ≠ .put)
    (run : SimpleCache.httpReadHeaders session = .ok after) :
    routed after = .registeredWrite := by
  unfold SimpleCache.httpReadHeaders routeKey at run
  rw [if_pos isKey, isMethod] at run
  have answers : after.connection.handler ≠ .handleRequestBody := by
    cases held : session.connection.target with
    | entry entry =>
        rw [held] at run
        cases method with
        | put => exact absurd rfl other
        | get =>
            obtain rfl := pure_eq_ok.mp run
            simp
        | head =>
            obtain rfl := pure_eq_ok.mp run
            simp
        | delete =>
            simp only [bind_eq_ok, pure_eq_ok] at run
            obtain ⟨result, -, rfl⟩ := run
            simp [Session.writeResponse]
        | purge =>
            obtain rfl := pure_eq_ok.mp run
            simp [Session.writeResponse]
        | admin =>
            obtain rfl := pure_eq_ok.mp run
            simp [Session.writeResponse]
    | null =>
        rw [held] at run
        cases method with
        | put => exact absurd rfl other
        | _ =>
            obtain rfl := pure_eq_ok.mp run
            simp [Session.writeResponse]
    | table table =>
        rw [held] at run
        cases method with
        | put => exact absurd rfl other
        | _ =>
            obtain rfl := pure_eq_ok.mp run
            simp [Session.writeResponse]
  unfold routed
  rw [if_neg answers]

/-- An upload has the space that was reserved for it. -/
def Seekable (connection : Connection) : Prop :=
  connection.isWriting = true →
    connection.fd ≠ .closed ∧ 0 ≤ connection.position

/-- The whole body is taken at once. -/
theorem handleRequestBody_whole {session : Session kh} {body : Bytes}
    {written : Int} (sized : Sized session body.length)
    (short : body.length ≤ 16384) (nonempty : body ≠ [])
    (seekable : Seekable session.connection)
    (accepts : (body.length : Int) ≤ written) :
    bodyTaken session.connection body.length written = body.length ∧
      ∃ after, httpCacheHandleRequestBody session body written = .ok after ∧
        after.connection.handler = .respondWriteonly := by
  have positive : 0 < body.length := List.length_pos_of_ne_nil nonempty
  have toWrite : min (toInt (session.connection.endPosition -
      session.connection.position)) (body.length : Int) = body.length := by
    rw [sized.range]
    unfold toInt i32 u32OfInt
    split <;> omega
  have finishes : ∀ other : Session kh,
      other.connection.endPosition = other.connection.position →
        (finishUpload other).connection.handler = .respondWriteonly := by
    intro other same
    unfold finishUpload
    dsimp only
    rw [if_pos same]
    rfl
  refine ⟨?_, ?_⟩
  · unfold bodyTaken
    dsimp only
    rw [toWrite, if_neg (by omega)]
    split
    · next writes =>
        obtain ⟨isOpen, nonneg⟩ := seekable writes
        rw [if_neg (by rintro (closed | negative); exact isOpen closed; omega),
          if_neg (by omega)]
        omega
    · rfl
  · unfold httpCacheHandleRequestBody
    dsimp only
    rw [toWrite, if_neg (by omega)]
    have range := sized.range
    by_cases writes : session.connection.isWriting = true
    · obtain ⟨isOpen, nonneg⟩ := seekable writes
      rw [if_pos writes,
        if_neg (by rintro (closed | negative); exact isOpen closed; omega),
        if_neg (by omega), if_neg (by omega)]
      refine ⟨_, rfl, finishes _ ?_⟩
      dsimp only
      omega
    · rw [if_neg writes]
      refine ⟨_, rfl, finishes _ ?_⟩
      dsimp only
      omega

/-- The handler of the body. -/
theorem runHandler_body {reading : Reading env.kh} {body : Bytes}
    (isHandler : reading.session.connection.handler = .handleRequestBody)
    (idle : reading.extracting = none) (placed : Placed reading.input body)
    (sized : Sized reading.session body.length) (nonempty : body ≠ [])
    (seekable : Seekable reading.session.connection)
    (accepts : (body.length : Int) ≤ written) :
    ∃ after, httpCacheHandleRequestBody reading.session body written =
        .ok after ∧
      runHandler env outcome written reading = .ok
        ({ reading.move body.length with session := after, state := 0 },
          .registeredWrite) := by
  have inside := placed.inside
  have toEnd := placed.toEnd
  have bytes : reading.input.bytesAt body.length = body := by
    have cells := placed.cellsToEnd
    have all := placed.holds.bytesAt (Nat.le_refl body.length) cells
    rwa [List.take_length] at all
  obtain ⟨taken, after, run, handler⟩ := handleRequestBody_whole sized
    (by omega) nonempty seekable accepts
  refine ⟨after, run, ?_⟩
  have other : after.connection.handler ≠ .handleRequestBody := by
    rw [handler]
    simp
  rw [runHandler_handleRequestBody isHandler idle]
  unfold handleRequestBody
  dsimp only
  rw [toEnd, Int.toNat_natCast, bytes, run, ok_bind, if_neg other, taken]
  rfl

/-- The blank line of an upload, and its body. -/
theorem behaves_upload {reading : Reading env.kh} {blank body : Bytes}
    {final : ReadBuffer}
    (reads : ReadsKey reading.session.connection .put)
    (idle : reading.extracting = none) (counted : reading.state = 1)
    (isBlank : blank = [] ∨ blank = [carriageReturn])
    (placed : Placed reading.input (blank ++ newline :: body))
    (sized : Sized reading.session body.length) (nonempty : body ≠ [])
    (seekable : Seekable reading.session.connection)
    (accepts : (body.length : Int) ≤ written)
    (isFinal : reading.input.readMove (blank.length + 1 + body.length) =
      final) :
    Behaves env outcome written reading (blank ++ newline :: body)
      (respond final (do
        let session ← SimpleCache.httpReadHeaders reading.session
        httpCacheHandleRequestBody session body written)) := by
  have routes := httpReadHeaders_put reads.isMethod reads.level sized
    (List.length_pos_of_ne_nil nonempty)
  have run := @runHandler_blank env outcome written _ _ _
    reads.handler idle counted isBlank placed
  rw [routes, ok_bind] at run
  rw [routes, ok_bind]
  have moved : Placed (reading.input.readMove (blank.length + 1)) body :=
    placed.moveBehind
  obtain ⟨after, takes, bodyRun⟩ := @runHandler_body env
    outcome written
    { reading.move (blank.length + 1) with
      session := reading.session.moveTo .handleRequestBody, state := 2 } _
    rfl idle moved ⟨sized.range, sized.reserved⟩ nonempty seekable accepts
  refine @Behaves.step env outcome written _ (reading, blank ++ newline :: body)
    (_, body) ?_ ⟨run, moved, nonempty, by
      simp only [List.length_append, List.length_cons]
      omega⟩
  have ends := @behaves_ends env outcome written _ _ body nonempty bodyRun
  have takes' : httpCacheHandleRequestBody
      (reading.session.moveTo .handleRequestBody) body written = .ok after :=
    takes
  rw [takes']
  have isEnd : (reading.input.readMove (blank.length + 1)).readMove
      body.length = final := by
    rw [readMove_readMove]
    exact isFinal
  have same := @move_ends _ { reading.move (blank.length + 1) with
    session := reading.session.moveTo .handleRequestBody, state := 2 } _ _
      idle isEnd after
  rw [same] at ends
  exact ends

/-- The blank line of any other request. -/
theorem behaves_answer {reading : Reading env.kh} {blank : Bytes}
    {method : Method} {final : ReadBuffer}
    (reads : ReadsKey reading.session.connection method)
    (other : method ≠ .put)
    (idle : reading.extracting = none) (counted : reading.state = 1)
    (isBlank : blank = [] ∨ blank = [carriageReturn])
    (placed : Placed reading.input (blank ++ [newline]))
    (isFinal : reading.input.readMove (blank.length + 1) = final) :
    Behaves env outcome written reading (blank ++ [newline])
      (respond final (SimpleCache.httpReadHeaders reading.session)) := by
  have run := @runHandler_blank env outcome written _ _ _
    reads.handler idle counted isBlank placed
  cases answer : SimpleCache.httpReadHeaders reading.session with
  | error fault =>
      rw [answer] at run
      exact behaves_fails (by simp) run
  | ok session =>
      have registers := httpReadHeaders_routed reads.isMethod reads.level other
        answer
      rw [answer, ok_bind, registers] at run
      dsimp only at run
      rw [if_pos rfl] at run
      rw [move_ends idle isFinal] at run
      exact behaves_ends (by simp) run

/-- The newlines in a row after a byte. -/
def eolCount (current : Nat) (byte : UInt8) : Nat :=
  if byte = newline then u16 (current + 1)
  else if byte ≠ carriageReturn then 0
  else current

/-- No two newlines in a row, and `last` of them at the end. -/
structure Quiet (current : Nat) (bytes : Bytes) (last : Nat) : Prop where
  ends : bytes.foldl eolCount current = last
  few : ∀ n ≤ bytes.length, (bytes.take n).foldl eolCount current ≤ 1

theorem Quiet.append {current middle last : Nat} {first second : Bytes}
    (quiet : Quiet current first middle) (more : Quiet middle second last) :
    Quiet current (first ++ second) last where
  ends := by
    rw [List.foldl_append, quiet.ends]
    exact more.ends
  few := by
    intro n le
    rw [List.length_append] at le
    rw [List.take_append]
    by_cases inFirst : n ≤ first.length
    · rw [Nat.sub_eq_zero_of_le inFirst, List.take_zero, List.append_nil]
      exact quiet.few n inFirst
    · rw [List.take_of_length_le (by omega), List.foldl_append, quiet.ends]
      exact more.few (n - first.length) (by omega)

/-- A line with a byte that shows ends in one newline. -/
theorem Quiet.line {current : Nat} {line : Bytes} (small : current ≤ 1)
    (plain : newline ∉ line) (visible : ∃ byte ∈ line, byte ≠ carriageReturn) :
    Quiet current (line ++ [newline]) 1 := by
  have decreases : ∀ (bytes : Bytes) (start : Nat), newline ∉ bytes →
      bytes.foldl eolCount start ≤ start := by
    intro bytes
    induction bytes with
    | nil => exact fun start _ => Nat.le_refl start
    | cons byte bytes ih =>
        intro start absent
        rw [List.mem_cons, not_or] at absent
        rw [List.foldl_cons]
        refine (ih _ absent.2).trans ?_
        unfold eolCount
        rw [if_neg fun same => absent.1 same.symm]
        split
        · exact Nat.zero_le _
        · exact Nat.le_refl _
  have zero : line.foldl eolCount current = 0 := by
    obtain ⟨byte, member, shows⟩ := visible
    obtain ⟨before, behind, rfl⟩ := List.append_of_mem member
    have absent : newline ∉ behind := fun inside =>
      plain (List.mem_append_right _ (List.mem_cons_of_mem _ inside))
    have isOther : byte ≠ newline := fun same => plain (same ▸ member)
    rw [List.foldl_append, List.foldl_cons]
    have resets : eolCount (before.foldl eolCount current) byte = 0 := by
      unfold eolCount
      rw [if_neg isOther, if_pos shows]
    rw [resets]
    exact Nat.le_zero.mp (decreases behind 0 absent)
  have lineQuiet : Quiet current line 0 := by
    refine ⟨zero, fun n _ => ?_⟩
    have absent : newline ∉ line.take n :=
      fun inside => plain (List.mem_of_mem_take inside)
    exact (decreases _ current absent).trans small
  refine lineQuiet.append ⟨rfl, fun n le => ?_⟩
  simp only [List.length_singleton] at le
  obtain rfl | rfl : n = 0 ∨ n = 1 := by omega
  · exact Nat.zero_le _
  · exact Nat.le_refl 1

theorem Quiet.lines {method : Method} {lines : List Line}
    (wellFormed : ∀ line ∈ lines, line.WellFormed method)
    (other : method ≠ .put) : Quiet 1 (linesBytes lines) 1 := by
  induction lines with
  | nil =>
      refine ⟨rfl, fun n le => ?_⟩
      simp [linesBytes]
  | cons line lines ih =>
      have rest := ih fun other member =>
        wellFormed other (List.mem_cons_of_mem _ member)
      have isLine := wellFormed line List.mem_cons_self
      unfold linesBytes at rest ⊢
      rw [List.flatMap_cons]
      refine Quiet.append ?_ rest
      cases line with
      | other name value =>
          obtain ⟨⟨byte, member, shows⟩, -, noNewline, plain, -⟩ := isLine
          have text : Line.bytes (.other name value) =
              (name ++ colon :: value) ++ [newline] := by
            unfold Line.bytes
            simp
          rw [text]
          refine Quiet.line (Nat.le_refl 1) ?_
            ⟨byte, List.mem_append_left _ member, shows⟩
          simp only [List.mem_append, List.mem_cons, not_or]
          exact ⟨noNewline, by decide, plain⟩
      | number ttl name blanks digits ending => exact absurd isLine.1 other

/-- The states in which a refused request is read to its end. -/
def eolStates (reading : Reading env.kh) (text : Bytes) (n : Nat) :
    Reading env.kh :=
  { reading with state := 2 + (text.take n).foldl eolCount 0 * 65536 }

/-- A refused request is read up to its last newline. -/
theorem runHandler_refused {reading : Reading env.kh} {text : Bytes}
    (isHandler : reading.session.connection.handler = .handleEolwritetoend)
    (idle : reading.extracting = none) (waits : reading.state = 2)
    (placed : Placed reading.input (text ++ [newline]))
    (quiet : Quiet 0 text 1) :
    runHandler env outcome written reading = .ok
      ({ reading.move text.length with
        session := reading.session.moveTo .respondWriteonly, state := 0 },
        .registeredWrite) := by
  have target : ∀ current, (2 + current * 65536) % 65536 = 2 ∧
      (2 + current * 65536) / 65536 = current := by omega
  have start : eolStates reading text 0 = reading := by
    have value : 2 + (text.take 0).foldl eolCount 0 * 65536 = 2 := by simp
    unfold eolStates
    rw [value, ← waits]
  have passes : ∀ n < text.length, httpReadEoltoend
      (eolStates reading text n)
        ((eolStates reading text 0).input.readPosition % bufferSize + n) n =
          .ok (eolStates reading text (n + 1), .continueProcessing) := by
    intro n inRange
    have isByte : (eolStates reading text n).input.buffer
        ((eolStates reading text 0).input.readPosition % bufferSize + n) =
          text[n] := placed.before inRange
    have next : (text.take (n + 1)).foldl eolCount 0 =
        eolCount ((text.take n).foldl eolCount 0) text[n] := by
      rw [List.take_succ_eq_append_getElem inRange, List.foldl_append]
      rfl
    have few := quiet.few (n + 1) inRange
    rw [next] at few
    have isState : (eolStates reading text n).state =
        2 + (text.take n).foldl eolCount 0 * 65536 := rfl
    unfold httpReadEoltoend
    dsimp only
    rw [isByte, isState, (target _).1, (target _).2]
    change (if 2 = eolCount ((text.take n).foldl eolCount 0) text[n] then _
      else _) = _
    rw [if_neg (by omega)]
    unfold eolStates
    rw [next]
    rfl
  have found : httpReadEoltoend (eolStates reading text text.length)
      ((eolStates reading text 0).input.readPosition % bufferSize +
        text.length) text.length = .ok
      ({ reading.move text.length with
        session := reading.session.moveTo .respondWriteonly, state := 0 },
        .registeredWrite) := by
    have isByte : (eolStates reading text text.length).input.buffer
        ((eolStates reading text 0).input.readPosition % bufferSize +
          text.length) = newline := placed.byte rfl
    have isState : (eolStates reading text text.length).state =
        2 + 1 * 65536 := by
      unfold eolStates
      rw [List.take_length, quiet.ends]
    unfold httpReadEoltoend
    dsimp only
    have two : 2 = (if newline = newline then u16 (1 + 1)
        else if newline ≠ carriageReturn then 0 else 1) := by
      rw [if_pos rfl]
      unfold u16
      omega
    rw [isByte, isState, (target _).1, (target _).2]
    refine (if_pos two).trans ?_
    unfold eolStates Reading.move
    rfl
  have begins : Placed (eolStates reading text 0).input
      (text ++ newline :: []) := by
    rw [start]
    exact placed
  have iterates := iterate_run begins passes (fun _ => rfl) (fun result run => by
      rw [found] at run
      obtain rfl := Except.ok.inj run
      simp)
  rw [start] at iterates
  have foundHere : httpReadEoltoend (eolStates reading text text.length)
      (reading.input.readPosition % bufferSize + text.length) text.length =
        _ := found
  rw [runHandler_handleEolwritetoend isHandler idle, iterates, foundHere]
  rfl

end Requests

end Parsing

end SimpleCache
