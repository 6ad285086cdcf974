import SimpleCache.Consumption

/-!
# Waiting for input

The loop of `http_read_handle` runs handlers as long as they need more and have
consumed something.  What is unread when it ends is not enough for the handler,
and what is unread when a response ends has not been looked at.
-/

namespace SimpleCache

namespace Parsing

variable {kh : KHash}

/-- Header lines with their newlines, up to an empty line. -/
inductive HeaderLines : Bytes → Prop
  | empty {rest : Bytes} : HeaderLines (newline :: rest)
  | emptyReturn {rest : Bytes} :
      HeaderLines (carriageReturn :: newline :: rest)
  | line {text rest : Bytes} :
      HeaderLines rest → HeaderLines (text ++ newline :: rest)

def ValueAndLines (bytes : Bytes) : Prop :=
  ∃ value rest, bytes = value ++ newline :: rest ∧ HeaderLines rest

def VersionAndLines (bytes : Bytes) : Prop :=
  ∃ version rest, bytes = version ++ newline :: rest ∧ HeaderLines rest

def KeyAndLines (bytes : Bytes) : Prop :=
  ∃ key rest, bytes = key ++ space :: rest ∧ VersionAndLines rest

/-- A table, or a table and a key. -/
def UrlAndLines (bytes : Bytes) : Prop :=
  ∃ name rest,
    bytes = slash :: name ++ space :: rest ∧ VersionAndLines rest ∨
      bytes = slash :: name ++ slash :: rest ∧ KeyAndLines rest

/-- All of a request up to its body, behind newlines that are skipped. -/
def WholeRequest (bytes : Bytes) : Prop :=
  ∃ newlines method rest,
    bytes = newlines ++ (method ++ space :: rest) ∧
      (∀ byte ∈ newlines, ReadBuffer.isNewline byte = true) ∧
      UrlAndLines rest

/-- The bytes complete what the handler is at: a request, the rest of one, or
some of a body. -/
def Completes (reading : Reading kh) (bytes : Bytes) : Prop :=
  match reading.extracting, reading.session.connection.handler with
  | some _, _ => ValueAndLines bytes
  | none, .handleMethod => WholeRequest bytes
  | none, .handleUrl => UrlAndLines bytes
  | none, .handleUrlKey => KeyAndLines bytes
  | none, .handleHttpversion => VersionAndLines bytes
  | none, .handleHeaders => HeaderLines bytes
  | none, .handleRequestBody => bytes ≠ []
  | none, .handleEolstats => HeaderLines bytes
  | none, .handleEolwritetoend => HeaderLines bytes
  | none, _ => False

section Completes

variable {bytes : Bytes} {reading : Reading kh}

theorem HeaderLines.newline_mem (lines : HeaderLines bytes) :
    newline ∈ bytes := by
  cases lines with
  | empty => exact List.mem_cons_self
  | emptyReturn => exact List.mem_cons_of_mem _ List.mem_cons_self
  | line later =>
      exact List.mem_append_right _ List.mem_cons_self

theorem VersionAndLines.newline_mem (lines : VersionAndLines bytes) :
    newline ∈ bytes := by
  obtain ⟨version, rest, rfl, -⟩ := lines
  exact List.mem_append_right _ List.mem_cons_self

theorem ValueAndLines.newline_mem (lines : ValueAndLines bytes) :
    newline ∈ bytes := by
  obtain ⟨value, rest, rfl, -⟩ := lines
  exact List.mem_append_right _ List.mem_cons_self

theorem KeyAndLines.space_mem (lines : KeyAndLines bytes) : space ∈ bytes := by
  obtain ⟨key, rest, rfl, -⟩ := lines
  exact List.mem_append_right _ List.mem_cons_self

theorem WholeRequest.space_mem (whole : WholeRequest bytes) :
    space ∈ bytes := by
  obtain ⟨newlines, method, rest, rfl, -, -⟩ := whole
  exact List.mem_append_right _
    (List.mem_append_right _ List.mem_cons_self)

/-- Behind the first byte of a URL there is a byte that ends a name. -/
theorem UrlAndLines.ends (lines : UrlAndLines bytes) :
    ∃ n, ∃ inRange : n < bytes.length, 1 ≤ n ∧
      (bytes[n] = slash ∨ bytes[n] = space) := by
  have at_ : ∀ (name rest : Bytes) (byte : UInt8),
      bytes = slash :: name ++ byte :: rest →
        ∃ inRange : name.length + 1 < bytes.length,
          bytes[name.length + 1] = byte := by
    rintro name rest byte rfl
    refine ⟨by simp, ?_⟩
    rw [List.getElem_append_right (by simp)]
    simp
  obtain ⟨name, rest, ⟨same, -⟩ | ⟨same, -⟩⟩ := lines
  · obtain ⟨inRange, isByte⟩ := at_ name rest space same
    exact ⟨_, inRange, by omega, Or.inr isByte⟩
  · obtain ⟨inRange, isByte⟩ := at_ name rest slash same
    exact ⟨_, inRange, by omega, Or.inl isByte⟩

theorem not_completes_nil : ¬Completes reading [] := by
  intro completes
  unfold Completes at completes
  split at completes
  · exact absurd completes.newline_mem List.not_mem_nil
  · exact absurd completes.space_mem List.not_mem_nil
  · obtain ⟨n, inRange, -⟩ := completes.ends
    exact absurd inRange (Nat.not_lt_zero n)
  · exact absurd completes.space_mem List.not_mem_nil
  · exact absurd completes.newline_mem List.not_mem_nil
  · exact absurd completes.newline_mem List.not_mem_nil
  · exact completes rfl
  · exact absurd completes.newline_mem List.not_mem_nil
  · exact absurd completes.newline_mem List.not_mem_nil
  · exact completes

end Completes

section Stays

variable {env : Env} {outcome : FlushOutcome} {written : Int}
  {reading after : Reading env.kh} {bytes : Bytes}

theorem goOn_needs {action : StateAction}
    (needs : goOn action = .needsMoreRead) :
    action = .continueProcessing ∨ action = .needsMoreRead := by
  cases action with
  | continueProcessing => exact Or.inl rfl
  | needsMoreRead => exact Or.inr rfl
  | registeredWrite => cases needs

/-- Where as much remains as before, the read position has not moved. -/
theorem Within.unmoved {input last : ReadBuffer} {touches : List Touch}
    (within : Within input touches) (holds : input.Holds bytes)
    (same : last = touches.foldl touched input)
    (stays : last.rbufReadRemaining = bytes.length) :
    moved touches = 0 ∧ last = input := by
  obtain ⟨count, le, isCount, both⟩ := within.moves holds
  rw [same, both, (holds.readMove le).readRemaining, List.length_drop] at stays
  obtain rfl : count = 0 := by omega
  rw [same, both, holds.readMove_zero]
  exact ⟨isCount, rfl⟩

/-- A search that has passed over all bytes has not met the one it is for. -/
theorem not_mem_of_passed {byte : UInt8}
    (passed : ∀ n (inRange : n < bytes.length), bytes[n] ≠ byte) :
    byte ∉ bytes := by
  intro member
  obtain ⟨n, inRange, isByte⟩ := List.mem_iff_getElem.mp member
  exact passed n inRange isByte

section Iteration

variable {inner : Inner env.kh} {touches : Touches env.kh}
  {passes : Nat → UInt8 → Prop} {did : StateAction} {count : Nat}

/-- The iteration has passed over all bytes. -/
theorem Consumes.stays (consumes : Consumes inner touches passes reading.input)
    (holds : reading.input.Holds bytes) (straight : reading.input.Straight)
    (run : Parsing.iterate inner reading = .ok (after, did, count))
    (needs : goOn did = .needsMoreRead)
    (stays : after.input.rbufReadRemaining = bytes.length) :
    Alike reading after ∧
      ∀ n (inRange : n < bytes.length), passes n bytes[n] := by
  obtain ⟨within, ends⟩ := consumes.iterate holds straight
  obtain ⟨same, goes, positive⟩ := ends _ _ _ run
  obtain ⟨none_, -⟩ := within.unmoved holds same stays
  rcases goOn_needs needs with going | ended
  · exact (goes going).2
  · have some_ := positive ended
    omega

/-- A handler that consumes all it has looked at had nothing to look at. -/
theorem Consumes.nothingStays
    (consumes : Consumes inner touches passes reading.input)
    (holds : reading.input.Holds bytes) (straight : reading.input.Straight)
    {ended other : Reading env.kh}
    (iterates : Parsing.iterate inner reading = .ok (ended, did, count))
    (run : (if did = .continueProcessing then
        pure (ended.move count, .needsMoreRead)
      else pure (other, did) : Except Fault _) = .ok (after, .needsMoreRead))
    (sameInput : other.input = ended.input)
    (stays : after.input.rbufReadRemaining = bytes.length) :
    bytes = [] ∧ Alike reading after := by
  obtain ⟨within, ends⟩ := consumes.iterate holds straight
  obtain ⟨same, goes, positive⟩ := ends _ _ _ iterates
  split at run
  · next going =>
      obtain ⟨rfl, -⟩ := Prod.mk.inj (pure_eq_ok.mp run)
      obtain ⟨rfl, alike, -⟩ := goes going
      have left := (holds.readMove le_rfl).readRemaining
      have isInput : (ended.move bytes.length).input =
          reading.input.readMove bytes.length :=
        congrArg (ReadBuffer.readMove · _) alike.input
      rw [← isInput, stays, List.drop_length, List.length_nil] at left
      have nothing := List.eq_nil_of_length_eq_zero left
      subst nothing
      exact ⟨rfl, isInput.trans holds.readMove_zero, alike.session,
        alike.extracting⟩
  · obtain ⟨rfl, needs⟩ := Prod.mk.inj (pure_eq_ok.mp run)
    rw [sameInput] at stays
    obtain ⟨none_, -⟩ := within.unmoved holds same stays
    have some_ := positive needs
    omega

end Iteration

/-- A handler that needs more and has consumed nothing does not have what
completes its part. -/
theorem runHandler_stays (holds : reading.input.Holds bytes)
    (bounded : Bounded reading written)
    (run : runHandler env outcome written reading =
      .ok (after, .needsMoreRead))
    (stays : after.input.rbufReadRemaining = bytes.length) :
    Alike reading after ∧ ¬Completes reading bytes := by
  obtain ⟨straight, newlines, url, value, body⟩ := bounded
  rw [← holds.eq_content] at newlines url value
  obtain ⟨session, input, state, extracting⟩ := reading
  unfold Completes
  cases extracting with
  | some code =>
      rw [runHandler_extract rfl] at run
      obtain ⟨did, count, iterates, needs⟩ := roundOf_ok run
      obtain ⟨within, ends⟩ : _ ∧ ∀ after did count,
          Parsing.iterate (httpReadHeaderExtraction env code) _ = _ → _ :=
        extraction_within holds (straight (Or.inl (by simp)))
          (value (by simp))
      obtain ⟨same, goes, positive⟩ := ends _ _ _ iterates
      obtain ⟨none_, isInput⟩ := within.unmoved holds same stays
      rcases goOn_needs needs with going | finished
      · obtain ⟨-, all, sameSession, sameCode, plain⟩ := goes going
        refine ⟨⟨isInput, sameSession, sameCode⟩, fun completes => ?_⟩
        obtain ⟨n, inRange, isNewline⟩ :=
          List.mem_iff_getElem.mp completes.newline_mem
        have other := plain n inRange (by omega)
        rw [isNewline] at other
        cases other
      · have some_ := positive finished
        omega
  | none =>
      cases isHandler : session.connection.handler with
      | handleMethod =>
          have straight := straight (Or.inr (by rw [isHandler]; rfl))
          obtain ⟨count, le, skips, first, -⟩ :=
            skip_touching holds straight (newlines rfl isHandler)
          rw [runHandler_handleMethod isHandler rfl, skips, ok_bind] at run
          obtain ⟨did, rounds, iterates, needs⟩ := roundOf_ok run
          have skipped := holds.readMove le
          obtain ⟨within, ends⟩ := @Consumes.iterate _ _ _ _ _
            ⟨session, input.readMove count, state, none⟩ consumes_method
              skipped (first.straight holds straight)
          obtain ⟨same, -⟩ := ends _ _ _ iterates
          have remaining := within.remaining skipped
          have nonneg := within.moved_nonneg skipped
          rw [← same, stays, List.length_drop] at remaining
          obtain rfl : count = 0 := by omega
          rw [holds.readMove_zero] at iterates
          obtain ⟨alike, passed⟩ :=
            consumes_method.stays holds straight iterates needs stays
          exact ⟨alike, fun completes =>
            not_mem_of_passed passed (WholeRequest.space_mem completes)⟩
      | handleUrl =>
          have straight := straight (Or.inr (by rw [isHandler]; rfl))
          rw [runHandler_handleUrl isHandler rfl] at run
          obtain ⟨did, count, iterates, needs⟩ := roundOf_ok run
          obtain ⟨within, ends⟩ :=
            url1_within holds straight (url rfl isHandler)
          obtain ⟨same, goes, positive⟩ := ends _ _ _ iterates
          obtain ⟨none_, -⟩ := within.unmoved holds same stays
          rcases goOn_needs needs with going | finished
          · obtain ⟨rfl, plain⟩ := goes going
            refine ⟨Alike.refl _, fun completes => ?_⟩
            obtain ⟨n, inRange, behind, ends⟩ := UrlAndLines.ends completes
            have other := plain n inRange behind
            exact ends.elim other.1 other.2
          · have some_ := positive finished
            omega
      | handleUrlKey =>
          have straight := straight (Or.inr (by rw [isHandler]; rfl))
          rw [runHandler_handleUrlKey isHandler rfl] at run
          obtain ⟨did, count, iterates, needs⟩ := roundOf_ok run
          obtain ⟨alike, passed⟩ :=
            consumes_url2.stays holds straight iterates needs stays
          exact ⟨alike, fun completes =>
            not_mem_of_passed passed (KeyAndLines.space_mem completes)⟩
      | handleHttpversion =>
          have straight := straight (Or.inr (by rw [isHandler]; rfl))
          rw [runHandler_handleHttpversion isHandler rfl] at run
          simp only [bind_eq_ok, Prod.exists] at run
          obtain ⟨ended, did, count, iterates, run⟩ := run
          obtain ⟨rfl, alike⟩ :=
            consumes_version.nothingStays holds straight iterates run rfl stays
          exact ⟨alike, fun completes =>
            List.not_mem_nil (VersionAndLines.newline_mem completes)⟩
      | handleHeaders =>
          have straight := straight (Or.inr (by rw [isHandler]; rfl))
          rw [runHandler_handleHeaders isHandler rfl] at run
          simp only [bind_eq_ok, Prod.exists] at run
          obtain ⟨ended, did, count, iterates, run⟩ := run
          unfold finishHeaders at run
          split at run
          · cases (Prod.mk.inj (Except.ok.inj run)).2
          · obtain ⟨rfl, needs⟩ := Prod.mk.inj (Except.ok.inj run)
            obtain ⟨alike, passed⟩ := (consumes_headers holds straight).stays
              holds straight iterates needs stays
            exact ⟨alike, fun completes =>
              not_mem_of_passed passed (HeaderLines.newline_mem completes)⟩
      | handleRequestBody =>
          rw [runHandler_handleRequestBody isHandler rfl] at run
          unfold handleRequestBody at run
          simp only [bind_eq_ok] at run
          obtain ⟨served, -, run⟩ := run
          split at run
          · cases (Prod.mk.inj (pure_eq_ok.mp run)).2
          · cases (Prod.mk.inj (pure_eq_ok.mp run)).2
      | handleEolwritetoend =>
          have straight := straight (Or.inr (by rw [isHandler]; rfl))
          rw [runHandler_handleEolwritetoend isHandler rfl] at run
          simp only [bind_eq_ok, Prod.exists] at run
          obtain ⟨ended, did, count, iterates, run⟩ := run
          obtain ⟨rfl, alike⟩ :=
            consumes_eoltoend.nothingStays holds straight iterates run rfl stays
          exact ⟨alike, fun completes =>
            List.not_mem_nil (HeaderLines.newline_mem completes)⟩
      | handleEolstats =>
          have straight := straight (Or.inr (by rw [isHandler]; rfl))
          rw [runHandler_handleEolstats isHandler rfl] at run
          simp only [bind_eq_ok, Prod.exists] at run
          obtain ⟨ended, did, count, iterates, run⟩ := run
          obtain ⟨rfl, alike⟩ :=
            consumes_eoltoend.nothingStays holds straight iterates run rfl stays
          exact ⟨alike, fun completes =>
            List.not_mem_nil (HeaderLines.newline_mem completes)⟩
      | respondExpires | respondContentlength | respondResponseend
      | respondContentbody | respondResetConnection | respondWriteonly
      | respondStats | respondListingentries | respondListingtotal
      | respondListingSeparator | respondListing | respondCloseConnection =>
          rw [runHandler_responds rfl (by rw [isHandler]; decide)] at run
          cases (Prod.mk.inj (pure_eq_ok.mp run)).2

/-- All that there is of a body lies in one piece, or all that is still to come
does, and `write` takes what it is given. -/
structure TakesBody (reading : Reading kh) (written : Int) : Prop where
  fits : toInt (reading.session.connection.endPosition -
      reading.session.connection.position) =
    reading.session.connection.endPosition -
      reading.session.connection.position
  whole : reading.input.rbufReadRemaining ≤ reading.input.cellsToEnd ∨
    reading.session.connection.endPosition -
      reading.session.connection.position ≤ reading.input.rbufReadToEnd
  accepts : reading.session.connection.isWriting = true →
    min (toInt (reading.session.connection.endPosition -
      reading.session.connection.position)) reading.input.rbufReadToEnd ≤
        written

theorem finishUpload_unfinished {session : Session kh}
    (stays : (finishUpload session).connection.handler = .handleRequestBody) :
    session.connection.endPosition ≠ session.connection.position := by
  intro done
  unfold finishUpload at stays
  dsimp only at stays
  rw [if_pos done] at stays
  cases stays

/-- A body handler that is not done has taken all that there was. -/
theorem handleRequestBody_continues {reading after : Reading kh}
    (holds : reading.input.Holds bytes) (straight : reading.input.Straight)
    (left : 0 ≤ toInt (reading.session.connection.endPosition -
      reading.session.connection.position))
    (accepting : reading.session.connection.isWriting = true → 0 ≤ written)
    (takes : TakesBody reading written)
    (run : handleRequestBody reading written =
      .ok (after, .continueProcessing)) :
    bodyTaken reading.session.connection reading.input.rbufReadToEnd.toNat
      written = bytes.length := by
  obtain ⟨fits, whole, accepts⟩ := takes
  have toEnd := holds.readToEnd straight
  have remaining := holds.readRemaining
  unfold ReadBuffer.cellsToEnd bufferSize at whole
  rw [remaining] at whole
  rw [fits] at accepts left
  unfold handleRequestBody at run
  simp only [bind_eq_ok] at run
  obtain ⟨session, serves, run⟩ := run
  split at run
  · next unfinished =>
      have given : (reading.input.bytesAt
          reading.input.rbufReadToEnd.toNat).length =
            reading.input.rbufReadToEnd.toNat := by
        simp [ReadBuffer.bytesAt]
      unfold httpCacheHandleRequestBody at serves
      unfold bodyTaken
      dsimp only at serves ⊢
      rw [given, fits] at serves
      rw [fits]
      split at serves
      · next nothing =>
          obtain rfl := pure_eq_ok.mp serves
          have more := finishUpload_unfinished unfinished
          rw [if_pos nothing]
          omega
      · next something =>
          rw [if_neg something]
          split at serves
          · next isWriting =>
              have enough := accepts isWriting
              have nonneg := accepting isWriting
              rw [if_pos isWriting]
              split at serves
              · obtain rfl := pure_eq_ok.mp serves
                cases unfinished
              · next open_ =>
                  rw [if_neg open_, if_neg (by omega)]
                  rw [if_neg (by omega), if_neg (by omega)] at serves
                  obtain rfl := pure_eq_ok.mp serves
                  have more := finishUpload_unfinished unfinished
                  dsimp only at more
                  omega
          · next notWriting =>
              rw [if_neg notWriting]
              obtain rfl := pure_eq_ok.mp serves
              have more := finishUpload_unfinished unfinished
              dsimp only at more
              omega
  · cases (Prod.mk.inj (pure_eq_ok.mp run)).2

theorem goOn_ne (action : StateAction) :
    goOn action ≠ .continueProcessing := by
  cases action <;> decide

theorem roundOf_ne {inner : Inner env.kh} :
    roundOf inner reading ≠ .ok (after, .continueProcessing) := by
  intro run
  obtain ⟨did, count, -, goes⟩ := roundOf_ok run
  exact goOn_ne did goes

/-- A handler that goes on is not one that reads, or has taken what there was
of a body. -/
theorem runHandler_continues (holds : reading.input.Holds bytes)
    (bounded : Bounded reading written)
    (takes : reading.extracting = none →
      reading.session.connection.handler = .handleRequestBody →
        TakesBody reading written)
    (run : runHandler env outcome written reading =
      .ok (after, .continueProcessing)) :
    after.input.Holds [] ∨ ∀ content, ¬Completes after content := by
  obtain ⟨straight, newlines, url, value, body⟩ := bounded
  obtain ⟨session, input, state, extracting⟩ := reading
  cases extracting with
  | some code =>
      rw [runHandler_extract rfl] at run
      exact absurd run roundOf_ne
  | none =>
      cases isHandler : session.connection.handler with
      | handleMethod =>
          rw [runHandler_handleMethod isHandler rfl] at run
          simp only [bind_eq_ok] at run
          obtain ⟨skipped, -, run⟩ := run
          exact absurd run roundOf_ne
      | handleUrl =>
          rw [runHandler_handleUrl isHandler rfl] at run
          exact absurd run roundOf_ne
      | handleUrlKey =>
          rw [runHandler_handleUrlKey isHandler rfl] at run
          exact absurd run roundOf_ne
      | handleHttpversion =>
          rw [runHandler_handleHttpversion isHandler rfl] at run
          simp only [bind_eq_ok, Prod.exists] at run
          obtain ⟨ended, did, count, -, run⟩ := run
          split at run
          · cases (Prod.mk.inj (pure_eq_ok.mp run)).2
          · next ends => exact absurd (Prod.mk.inj (pure_eq_ok.mp run)).2 ends
      | handleHeaders =>
          rw [runHandler_handleHeaders isHandler rfl] at run
          simp only [bind_eq_ok, Prod.exists] at run
          obtain ⟨ended, did, count, -, run⟩ := run
          unfold finishHeaders at run
          split at run
          · cases (Prod.mk.inj (Except.ok.inj run)).2
          · exact absurd (Prod.mk.inj (Except.ok.inj run)).2 (goOn_ne did)
      | handleRequestBody =>
          have straight := straight (Or.inr (by rw [isHandler]; rfl))
          obtain ⟨left, accepting⟩ := body rfl isHandler
          rw [runHandler_handleRequestBody isHandler rfl] at run
          have taken := handleRequestBody_continues holds straight left
            accepting (takes rfl isHandler) run
          have same := handleRequestBody_same run
          have moves : after.input = input.readMove bytes.length := by
            rw [← taken]
            exact same
          have rest := holds.readMove le_rfl
          rw [List.drop_length] at rest
          rw [moves]
          exact Or.inl rest
      | handleEolwritetoend =>
          rw [runHandler_handleEolwritetoend isHandler rfl] at run
          simp only [bind_eq_ok, Prod.exists] at run
          obtain ⟨ended, did, count, -, run⟩ := run
          split at run
          · cases (Prod.mk.inj (pure_eq_ok.mp run)).2
          · next ends => exact absurd (Prod.mk.inj (pure_eq_ok.mp run)).2 ends
      | handleEolstats =>
          rw [runHandler_handleEolstats isHandler rfl] at run
          simp only [bind_eq_ok, Prod.exists] at run
          obtain ⟨ended, did, count, -, run⟩ := run
          split at run
          · cases (Prod.mk.inj (pure_eq_ok.mp run)).2
          · next ends => exact absurd (Prod.mk.inj (pure_eq_ok.mp run)).2 ends
      | respondExpires | respondContentlength | respondResponseend
      | respondContentbody | respondResetConnection | respondWriteonly
      | respondStats | respondListingentries | respondListingtotal
      | respondListingSeparator | respondListing | respondCloseConnection =>
          rw [runHandler_responds rfl (by rw [isHandler]; decide)] at run
          obtain ⟨rfl, -⟩ := Prod.mk.inj (pure_eq_ok.mp run)
          refine Or.inr fun content completes => ?_
          unfold Completes at completes
          rw [isHandler] at completes
          exact completes

end Stays

/-- What the event loop waits for or does: for input, one more round of the loop
of `http_read_handle`, output, or the read behind a response.  A round has
`to_end` of the round before and whether a full buffer disconnects. -/
inductive Phase
  | waiting
  | reading (disconnects : Bool) (toEnd : Int)
  | writing
  | responded
  | closed
  deriving DecidableEq

structure Attended (kh : KHash) where
  reading : Reading kh
  received : Bytes
  phase : Phase

/-- What `read` returns: at least a byte, `EAGAIN`, or the end of the stream or
an error. -/
inductive ReadOutcome
  | bytes (first : UInt8) (rest : Bytes)
  | again
  | ends

/-- Events of one connection.  `elsewhere` changes the store under it. -/
inductive AttendEvent (kh : KHash)
  | read (outcome : ReadOutcome)
  | handle (flushed : FlushOutcome) (written : Int)
  | writable (outcome : SendOutcome)
  | elsewhere (session : Session kh)

/-- `http_read_handle` up to its loop.  Nothing is read where there is no room,
and the loop is not reached where `read` has nothing. -/
def Attended.receive (state : Attended kh) (heeded : Bool)
    (outcome : ReadOutcome) : Attended kh :=
  let input := state.reading.input.rewind
  let state := { state with reading := { state.reading with input } }
  if input.rbufWriteToEnd = 0 then
    { state with phase := .reading heeded (-1) }
  else
    match outcome with
    | .bytes first rest =>
        let bytes := (first :: rest).take input.rbufWriteToEnd
        { reading := { state.reading with input := input.store bytes }
          received := state.received ++ bytes
          phase := .reading false (-1) }
    | .again => { state with phase := .waiting }
    | .ends => { state with phase := if heeded then .closed else .waiting }

/-- The condition of the loop and what comes behind it. -/
def nextPhase (action : StateAction) (input : ReadBuffer) (disconnects : Bool)
    (toEnd : Int) : Phase :=
  if action = .needsMoreRead ∧ input.rbufReadRemaining ≠ 0 ∧
      (input.rbufReadRemaining : Int) ≠ toEnd then
    .reading disconnects input.rbufReadRemaining
  else if action = .registeredWrite then .writing
  else if disconnects = true ∧ input.rbufWriteRemaining = 0 then .closed
  else .waiting

/-- `http_register_read`, which does not heed what `http_read_handle` returns. -/
def Attended.registerRead (state : Attended kh) (outcome : ReadOutcome) :
    Attended kh :=
  if state.reading.input.rbufWriteRemaining = 0 then
    { state with phase := .waiting }
  else state.receive false outcome

/-- A connection from its acceptance on. -/
def attend (env : Env) : Machine (Attended env.kh) (AttendEvent env.kh) Fault
    where
  initial := fun state =>
    state.reading.input.readPosition = 0 ∧
      state.reading.input.writePosition = 0 ∧ state.received = [] ∧
        state.phase = .waiting
  step := fun state event =>
    match event, state.phase with
    | .read outcome, .waiting => .ok (state.receive true outcome)
    | .read outcome, .responded => .ok (state.registerRead outcome)
    | .handle flushed written, .reading disconnects toEnd => do
        let (reading, action) ← runHandler env flushed written state.reading
        return { state with
          reading
          phase := nextPhase action reading.input disconnects toEnd }
    | .writable outcome, .writing => do
        let session ← httpWriteHandle state.reading.session outcome
        let state := { state with reading := { state.reading with session } }
        if session.connection.live = false then
          return { state with phase := .closed }
        else if session.connection.handler = .handleMethod then
          let reading := { state.reading with extracting := none }
          return { state with reading, phase := .responded }
        else return state
    | .elsewhere session, _ =>
        .ok { state with
          reading := { state.reading with
            session := { session with
              connection := state.reading.session.connection } } }
    | _, _ => .ok state

/-- Handlers run where nothing that they count on is still to come and take
what there is of a body.  Behind a response `read` has something and there is
room for it, or no request has already arrived. -/
def AttendedStep (state : Attended kh) : AttendEvent kh → Prop
  | .read outcome =>
      state.phase = .responded →
        outcome = .again ∨ outcome = .ends ∨
            state.reading.input.rbufWriteRemaining = 0 →
          ¬WholeRequest state.reading.input.content
  | .handle _ written =>
      Bounded state.reading written ∧
        (state.reading.extracting = none →
          state.reading.session.connection.handler = .handleRequestBody →
            TakesBody state.reading written)
  | .writable _ => True
  | .elsewhere _ => True

instance (reading : Reading kh) (written : Int) :
    Decidable (TakesBody reading written) :=
  decidable_of_iff
    ((toInt (reading.session.connection.endPosition -
          reading.session.connection.position) =
        reading.session.connection.endPosition -
          reading.session.connection.position) ∧
      (reading.input.rbufReadRemaining ≤ reading.input.cellsToEnd ∨
        reading.session.connection.endPosition -
          reading.session.connection.position ≤
            reading.input.rbufReadToEnd) ∧
      (reading.session.connection.isWriting = true →
        min (toInt (reading.session.connection.endPosition -
          reading.session.connection.position)) reading.input.rbufReadToEnd ≤
            written))
    ⟨fun ⟨fits, whole, accepts⟩ => ⟨fits, whole, accepts⟩,
      fun ⟨fits, whole, accepts⟩ => ⟨fits, whole, accepts⟩⟩

/-- A test of a step.  Behind a response it wants `read` to have something. -/
def attends (state : Attended kh) : AttendEvent kh → Bool
  | .read (.bytes ..) =>
      decide (state.phase = .responded →
        state.reading.input.rbufWriteRemaining ≠ 0)
  | .read _ => decide (state.phase ≠ .responded)
  | .handle _ written =>
      decide (Bounded state.reading written ∧
        (state.reading.extracting = none →
          state.reading.session.connection.handler = .handleRequestBody →
            TakesBody state.reading written))
  | .writable _ | .elsewhere _ => true

theorem attends_sound (state : Attended kh) (event : AttendEvent kh)
    (passes : attends state event = true) : AttendedStep state event := by
  cases event with
  | read outcome =>
      intro responded nothing
      cases outcome with
      | bytes first rest =>
          have room := of_decide_eq_true passes responded
          rcases nothing with other | other | full
          · cases other
          · cases other
          · exact absurd full room
      | again | ends => exact absurd responded (of_decide_eq_true passes)
  | handle flushed written =>
      have meets := of_decide_eq_true (p := _ ∧ _) passes
      exact meets
  | writable outcome => trivial
  | elsewhere session => trivial

/-- The invariant.  In the loop, `to_end` is what remained before the round. -/
structure Patient (state : Attended kh) : Prop where
  unread : ∃ consumed ≤ state.received.length,
    state.reading.input.Holds (state.received.drop consumed)
  round : ∀ disconnects toEnd, state.phase = .reading disconnects toEnd →
    toEnd = -1 ∨ toEnd = state.reading.input.rbufReadRemaining
  idle : state.phase = .responded → state.reading.extracting = none ∧
    state.reading.session.connection.handler = .handleMethod
  waits : state.phase = .waiting →
    ¬Completes state.reading state.reading.input.content

section Attend

variable {env : Env} {state successor : Attended env.kh}

theorem Patient.receive (patient : Patient state) {heeded : Bool}
    {outcome : ReadOutcome}
    (lacks : outcome = .again ∨ outcome = .ends →
      ¬Completes state.reading state.reading.input.content) :
    Patient (state.receive heeded outcome) := by
  obtain ⟨⟨consumed, le, holds⟩, -, -, -⟩ := patient
  have rewound := holds.rewind
  have stays : outcome = .again ∨ outcome = .ends →
      ¬Completes state.reading state.reading.input.rewind.content := by
    intro nothing
    rw [← rewound.eq_content, holds.eq_content]
    exact lacks nothing
  unfold Attended.receive
  dsimp only
  split
  · refine ⟨⟨consumed, le, rewound⟩, fun _ toEnd isPhase => ?_, nofun, nofun⟩
    cases isPhase
    exact Or.inl rfl
  · cases outcome with
    | bytes first rest =>
        have stored := rewound.store (List.length_take_le
          state.reading.input.rewind.rbufWriteToEnd (first :: rest))
        rw [← List.drop_append_of_le_length le] at stored
        refine ⟨⟨consumed, ?_, stored⟩, fun _ toEnd isPhase => ?_, nofun,
          nofun⟩
        · dsimp only
          rw [List.length_append]
          omega
        · cases isPhase
          exact Or.inl rfl
    | again =>
        exact ⟨⟨consumed, le, rewound⟩, nofun, nofun,
          fun _ => stays (Or.inl rfl)⟩
    | ends =>
        cases heeded with
        | true => exact ⟨⟨consumed, le, rewound⟩, nofun, nofun, nofun⟩
        | false =>
            exact ⟨⟨consumed, le, rewound⟩, nofun, nofun,
              fun _ => stays (Or.inr rfl)⟩

/-- The read behind a response. -/
theorem Patient.registerRead (patient : Patient state)
    {outcome : ReadOutcome} (isPhase : state.phase = .responded)
    (lacks : outcome = .again ∨ outcome = .ends ∨
        state.reading.input.rbufWriteRemaining = 0 →
      ¬WholeRequest state.reading.input.content) :
    Patient (state.registerRead outcome) := by
  obtain ⟨idle, isHandler⟩ := patient.idle isPhase
  have stays : ¬WholeRequest state.reading.input.content →
      ¬Completes state.reading state.reading.input.content := by
    intro lacks completes
    unfold Completes at completes
    rw [idle, isHandler] at completes
    exact lacks completes
  unfold Attended.registerRead
  split
  · next full =>
      exact ⟨patient.unread, nofun, nofun,
        fun _ => stays (lacks (Or.inr (Or.inr full)))⟩
  · exact patient.receive fun nothing =>
      stays (lacks (nothing.imp id Or.inl))

/-- Where the loop ends without a response, it was not for `to_end` alone. -/
theorem nextPhase_waiting {action : StateAction} {input : ReadBuffer}
    {disconnects : Bool} {toEnd : Int}
    (waiting : nextPhase action input disconnects toEnd = .waiting) :
    action = .continueProcessing ∨ action = .needsMoreRead ∧
      (input.rbufReadRemaining = 0 ∨
        (input.rbufReadRemaining : Int) = toEnd) := by
  unfold nextPhase at waiting
  split at waiting
  · cases waiting
  · next ends =>
      split at waiting
      · cases waiting
      · next other =>
          cases action with
          | continueProcessing => exact Or.inl rfl
          | registeredWrite => exact absurd rfl other
          | needsMoreRead =>
              refine Or.inr ⟨rfl, ?_⟩
              by_contra neither
              exact ends ⟨rfl, not_or.mp neither⟩

theorem nextPhase_reading {action : StateAction} {input : ReadBuffer}
    {disconnects again : Bool} {toEnd next : Int}
    (isNext : nextPhase action input disconnects toEnd =
      .reading again next) :
    next = input.rbufReadRemaining := by
  unfold nextPhase at isNext
  split at isNext
  · exact ((Phase.reading.inj isNext).2).symm
  · split at isNext
    · cases isNext
    · split at isNext
      · cases isNext
      · cases isNext

theorem nextPhase_ne {action : StateAction} {input : ReadBuffer}
    {disconnects : Bool} {toEnd : Int} :
    nextPhase action input disconnects toEnd ≠ .responded := by
  intro isNext
  unfold nextPhase at isNext
  split at isNext
  · cases isNext
  · split at isNext
    · cases isNext
    · split at isNext
      · cases isNext
      · cases isNext

/-- One round of the loop. -/
theorem Patient.handle (patient : Patient state) {outcome : FlushOutcome}
    {written toEnd : Int} {disconnects : Bool}
    (isPhase : state.phase = .reading disconnects toEnd)
    (bounded : Bounded state.reading written)
    (takes : state.reading.extracting = none →
      state.reading.session.connection.handler = .handleRequestBody →
        TakesBody state.reading written)
    {after : Reading env.kh} {action : StateAction}
    (run : runHandler env outcome written state.reading =
      .ok (after, action)) :
    Patient { state with
      reading := after
      phase := nextPhase action after.input disconnects toEnd } := by
  obtain ⟨⟨consumed, le, holds⟩, round, -, -⟩ := patient
  obtain ⟨count, few, left⟩ :=
    (@runHandler_within env outcome written state.reading _ holds
      bounded).holds holds
  rw [← runHandler_same holds bounded run] at left
  refine ⟨?_, ?_, ?_, ?_⟩
  · rw [List.drop_drop] at left
    rw [List.length_drop] at few
    exact ⟨consumed + count, by dsimp only; omega, left⟩
  · intro again next isNext
    exact Or.inr (nextPhase_reading isNext)
  · intro responded
    exact absurd responded nextPhase_ne
  · intro waiting
    dsimp only
    rcases nextPhase_waiting waiting with rfl | ⟨rfl, none_ | same⟩
    · rcases runHandler_continues holds bounded takes run with nothing | never
      · rw [← nothing.eq_content]
        exact not_completes_nil
      · exact never _
    · rw [left.readRemaining] at none_
      have nothing := List.eq_nil_of_length_eq_zero none_
      rw [← left.eq_content, nothing]
      exact not_completes_nil
    · -- as much remains as before this round
      have stays : after.input.rbufReadRemaining =
          (state.received.drop consumed).length := by
        rw [← holds.readRemaining]
        rcases round disconnects toEnd isPhase with start | before
        · omega
        · omega
      obtain ⟨alike, lacks⟩ := runHandler_stays holds bounded run stays
      rw [alike.input, ← holds.eq_content]
      unfold Completes at lacks ⊢
      rw [alike.session, alike.extracting]
      exact lacks

theorem Patient.step {event : AttendEvent env.kh} (patient : Patient state)
    (meets : AttendedStep state event)
    (stepped : (attend env).step state event = .ok successor) :
    Patient successor := by
  obtain ⟨reading, received, phase⟩ := state
  cases event with
  | read outcome =>
      cases phase with
      | waiting =>
          obtain rfl := Except.ok.inj stepped
          exact patient.receive fun _ => patient.waits rfl
      | responded =>
          obtain rfl := Except.ok.inj stepped
          exact patient.registerRead rfl (meets rfl)
      | reading disconnects toEnd | writing | closed =>
          obtain rfl := Except.ok.inj stepped
          exact patient
  | handle flushed written =>
      cases phase with
      | reading disconnects toEnd =>
          change (runHandler env flushed written reading >>= fun result =>
            pure _) = _ at stepped
          simp only [bind_eq_ok, Prod.exists] at stepped
          obtain ⟨after, action, run, stepped⟩ := stepped
          obtain rfl := pure_eq_ok.mp stepped
          exact patient.handle rfl meets.1 meets.2 run
      | waiting | writing | responded | closed =>
          obtain rfl := Except.ok.inj stepped
          exact patient
  | writable outcome =>
      cases phase with
      | writing =>
          change (httpWriteHandle reading.session outcome >>= fun session =>
            _) = _ at stepped
          simp only [bind_eq_ok] at stepped
          obtain ⟨session, -, stepped⟩ := stepped
          split at stepped
          · obtain rfl := pure_eq_ok.mp stepped
            exact ⟨patient.unread, nofun, nofun, nofun⟩
          · split at stepped
            · next isHandler =>
                obtain rfl := pure_eq_ok.mp stepped
                exact ⟨patient.unread, nofun, fun _ => ⟨rfl, isHandler⟩,
                  nofun⟩
            · obtain rfl := pure_eq_ok.mp stepped
              exact ⟨patient.unread, nofun, nofun, nofun⟩
      | waiting | reading disconnects toEnd | responded | closed =>
          obtain rfl := Except.ok.inj stepped
          exact patient
  | elsewhere session =>
      cases phase with
      | waiting | reading disconnects toEnd | writing | responded | closed =>
          obtain rfl := Except.ok.inj stepped
          exact ⟨patient.unread, patient.round, patient.idle, patient.waits⟩

/-- Whenever the event loop waits for input, what is unread completes nothing:
no request, no rest of one and no part of a body. -/
theorem waits_of_reachable
    (reachable : (attend env).Reachable AttendedStep state)
    (waiting : state.phase = .waiting) :
    ∃ consumed ≤ state.received.length,
      state.reading.input.Holds (state.received.drop consumed) ∧
        ¬Completes state.reading (state.received.drop consumed) := by
  have patient : Patient state := by
    refine reachable.invariant ?_ fun _ _ _ patient meets stepped =>
      patient.step meets stepped
    rintro state ⟨readStart, writeStart, received, isPhase⟩
    have holds : state.reading.input.Holds [] :=
      ⟨by omega, by simp, by rw [readStart, writeStart]; rfl,
        fun offset inRange => absurd inRange (Nat.not_lt_zero offset)⟩
    refine ⟨⟨0, Nat.zero_le _, ?_⟩, fun _ toEnd isReading => ?_,
      fun isResponded => ?_, fun _ => ?_⟩
    · rw [received]
      exact holds
    · rw [isPhase] at isReading
      cases isReading
    · rw [isPhase] at isResponded
      cases isResponded
    · rw [← holds.eq_content]
      exact not_completes_nil
  obtain ⟨consumed, le, holds⟩ := patient.unread
  have lacks := patient.waits waiting
  rw [← holds.eq_content] at lacks
  exact ⟨consumed, le, holds, lacks⟩

end Attend

/-- A connection that nothing has arrived on. -/
def freshAttended : Attended listHash := ⟨freshReading, [], .waiting⟩

/-- An upload is stored and answered, and behind the response the rest of a
method and the start of a URL arrive. -/
theorem waits_of_reachable_second :
    ∃ state : Attended listHash,
      (attend listEnv).Reachable AttendedStep state ∧
      (state.phase = .waiting ∧
        state.received =
          literal "PUT /t/k H\nContent-Length: 2\n\nabGET /t" ∧
        state.reading.input.content = literal "/t" ∧
        state.reading.session.connection.handler = .handleUrl) ∧
      ∃ consumed ≤ state.received.length,
        state.reading.input.Holds (state.received.drop consumed) ∧
          ¬Completes state.reading (state.received.drop consumed) := by
  let handles (count : Nat) : List (AttendEvent listHash) :=
    List.replicate count (.handle unforked 2)
  have passes : ((attend listEnv).runWithin attends freshAttended
      ([.read (.bytes (charByte 'P') (literal "UT /t/k H\nContent-"))] ++
        handles 5 ++
        [.read (.bytes (charByte 'L') (literal "ength: 2\n\nabGE"))] ++
        handles 4 ++ [.writable (.sent 1000)] ++
        [.read (.bytes (charByte 'T') (literal " /t"))] ++ handles 2)).any
      (fun state => decide (state.phase = .waiting ∧
        state.received =
          literal "PUT /t/k H\nContent-Length: 2\n\nabGET /t" ∧
        state.reading.input.content = literal "/t" ∧
        state.reading.session.connection.handler = .handleUrl)) = true := by
    decide +kernel
  rw [Option.any_eq_true] at passes
  obtain ⟨state, runs, test⟩ := passes
  have ends := of_decide_eq_true test
  have starts : (attend listEnv).Reachable AttendedStep freshAttended :=
    .start ⟨rfl, rfl, rfl, rfl⟩
  have reachable := starts.leads (Machine.Leads.runWithin attends_sound runs)
  exact ⟨state, reachable, ends, waits_of_reachable reachable ends.1⟩

/-- What is unread of two requests that arrive at once, behind the first. -/
def secondRequest : Bytes := newline :: literal "GET /t/k H\n\n"

theorem wholeRequest_second : WholeRequest secondRequest := by
  have version : literal "H\n\n" = literal "H" ++ newline :: [newline] := by
    decide +kernel
  have key : literal "k H\n\n" = literal "k" ++ space :: literal "H\n\n" := by
    decide +kernel
  have table : literal "/t/k H\n\n" =
      slash :: literal "t" ++ slash :: literal "k H\n\n" := by decide +kernel
  have request : secondRequest =
      [newline] ++ (literal "GET" ++ space :: literal "/t/k H\n\n") := by
    decide +kernel
  have skipped : ∀ byte ∈ [newline], ReadBuffer.isNewline byte = true := by
    decide +kernel
  have lines : VersionAndLines (literal "H\n\n") :=
    ⟨_, _, version, HeaderLines.empty⟩
  have keyLines : KeyAndLines (literal "k H\n\n") :=
    ⟨_, _, key, lines⟩
  have url : UrlAndLines (literal "/t/k H\n\n") :=
    ⟨_, _, Or.inr ⟨table, keyLines⟩⟩
  exact ⟨_, _, _, request, skipped, url⟩

/-- The second of two requests that arrive at once is not looked at behind the
response to the first. -/
theorem not_waits :
    ¬∀ (env : Env) (state : Attended env.kh),
      (attend env).Reachable Machine.anyStep state →
        state.phase = .waiting →
          ¬Completes state.reading state.reading.input.content := by
  intro waits
  have ends : endsIn ((attend listEnv).run freshAttended
      [.read (.bytes (charByte 'G') (literal "ET /t/k H\n\nGET /t/k H\n\n")),
        .handle unforked 0, .handle unforked 0, .handle unforked 0,
        .writable .again, .read .again]) (fun state => decide
          (state.phase = .waiting ∧ state.reading.extracting = none ∧
            state.reading.session.connection.handler = .handleMethod ∧
            state.reading.input.content = secondRequest)) = true := by
    decide +kernel
  cases run : (attend listEnv).run freshAttended
      [.read (.bytes (charByte 'G') (literal "ET /t/k H\n\nGET /t/k H\n\n")),
        .handle unforked 0, .handle unforked 0, .handle unforked 0,
        .writable .again, .read .again] with
  | error fault =>
      rw [run] at ends
      cases ends
  | ok state =>
      have passes := endsIn_ok ends run
      have facts : state.phase = .waiting ∧ state.reading.extracting = none ∧
          state.reading.session.connection.handler = .handleMethod ∧
          state.reading.input.content = secondRequest :=
        of_decide_eq_true passes
      obtain ⟨isWaiting, idle, isHandler, isContent⟩ := facts
      have starts : (attend listEnv).Reachable Machine.anyStep
          freshAttended := .start ⟨rfl, rfl, rfl, rfl⟩
      refine waits listEnv state (starts.run (fun _ _ _ => trivial) run)
        isWaiting ?_
      unfold Completes
      rw [idle, isHandler, isContent]
      exact wholeRequest_second

end Parsing

end SimpleCache
