import SimpleCache.Flush
import SimpleCache.Library.Machine
import SimpleCache.Library.Outcome
import SimpleCache.Responses

/-!
# What reaches the socket

A response leaves through `output_buffer` and `output_length`, one buffer
after another, and the body of an entry through `sendfile`.  Both calls may
take fewer bytes than they are given.  Here the handlers of a response run on
the bytes of its buffers, with the counts that `write` and `sendfile` return.
-/

namespace SimpleCache

variable {kh : KHash}

def printText (text : String) : Bytes := text.toList.map charByte

/-- `SCACHE_VERSION` and `SCACHE_REVISION`. -/
structure Build where
  version : Bytes
  revision : Bytes

/-- The entry of `http_templates`. -/
def Template.text : Template → String
  | .headers200 => "HTTP/1.1 200 OK\r\nConnection: Keep-Alive\r\n"
  | .full404 =>
      "HTTP/1.1 404 Not Found\r\nConnection: Keep-Alive\r\nContent-Length: 15\r\n\r\nKey not Found\r\n"
  | .full200Ok =>
      "HTTP/1.1 200 OK\r\nConnection: Keep-Alive\r\nContent-Length: 4\r\n\r\nOK\r\n"
  | .newline => "\r\n"
  | .fullInvalidMethod =>
      "HTTP/1.1 400 Bad Request\r\nConnection: Close\r\nContent-Length: 16\r\n\r\nInvalid Method\r\n"
  | .fullHttp200Deleted =>
      "HTTP/1.1 200 OK\r\nConnection: Keep-Alive\r\nContent-Length: 9\r\n\r\nDELETED\r\n"
  | .headers200ConClose => "HTTP/1.1 200 OK\r\nConnection: Close\r\n"
  | .fullInvalidContentLength =>
      "HTTP/1.1 400 Bad Request\r\nConnection: Close\r\nContent-Length: 24\r\n\r\nInvalid Content-Length\r\n"
  | .bulkOk =>
      "HTTP/1.1 200 OK\r\nConnection: Keep-Alive\r\nContent-Length: 9\r\n\r\nBULK OK\r\n"
  | .fullLongMethod =>
      "HTTP/1.1 400 Bad Request\r\nConnection: Close\r\nContent-Length: 17\r\n\r\nMethod too Long\r\n"
  | .fullUnknownMethod =>
      "HTTP/1.1 400 Bad Request\r\nConnection: Close\r\nContent-Length: 16\r\n\r\nUnknown Method\r\n"
  | .fullRequestTooLarge =>
      "HTTP/1.1 400 Bad Request\r\nConnection: Close\r\nContent-Length: 19\r\n\r\nRequest too large\r\n"
  | .fullUnknownRequest =>
      "HTTP/1.1 400 Bad Request\r\nConnection: Close\r\nContent-Length: 17\r\n\r\nUnknown Request\r\n"

/-- The lines of `http_respond_stats`. -/
def Stats.bytes (stats : Stats) (build : Build) : Bytes :=
  printText "DB Keys: " ++ printNat stats.keys ++
    printText "\r\nDB Tables: " ++ printNat stats.tables ++
    printText "\r\nDB Size Bytes: " ++ printNat stats.sizeBytes ++
    printText "\r\nDB Blocks Free: " ++ printNat stats.blocksFree ++
    printText "/" ++ printNat stats.blocksExist ++
    printText "\r\nDB Stats Deletes: " ++ printNat stats.deletes ++
    printText "\r\nDB Stats Gets: " ++ printNat stats.gets ++
    printText "\r\nDB Stats Inserts: " ++ printNat stats.inserts ++
    printText "\r\nScache Version: " ++ build.version ++
    printText "\r\nScache Revision: " ++ build.revision ++ printText "\r\n"

/-- What `output_buffer` points to. -/
def Chunk.bytes (build : Build) : Chunk → Bytes
  | .template kind => printText kind.text
  | .xTtl seconds => printText "X-Ttl: " ++ printInt seconds ++ printText "\r\n"
  | .contentLength length =>
      printText "Content-Length: " ++ printInt length ++ printText "\r\n"
  | .body bytes => bytes
  | .stats numbers =>
      let content := numbers.bytes build
      printText "HTTP/1.1 200 OK\r\nConnection: Keep-Alive\r\nContent-Length: " ++
        printNat content.length ++ printText "\r\n\r\n" ++ content
  | .xEntries number =>
      printText "X-Entries: " ++ printInt (i32 number) ++ printText "\r\n"
  | .xTotal number =>
      printText "X-Total: " ++ printInt (i32 number) ++ printText "\r\n"
  | .separator => printText "\r\n"
  | .key bytes => bytes

/-- A connection with `output_length`, the bytes its socket has accepted for
the response and the buffers queued for it, one after another. -/
structure Wire (kh : KHash) where
  session : Session kh
  outputLength : Nat
  accepted : Bytes
  queued : Bytes

/-- What `write` and `sendfile` would return in one write event if they were
asked for enough. -/
structure Counts where
  wrote : Nat
  sent : Nat

/-- The current buffer. -/
def Session.buffer (session : Session kh) (build : Build) : Bytes :=
  session.connection.output.elim [] (Chunk.bytes build)

/-- The bytes `sendfile` passes on when the handler calls it. -/
def sendfileBytes (session : Session kh) (sent : Nat) : Bytes :=
  if session.connection.handler = .respondContentbody then
    (fileOf session.db session.connection.fd).slice
      session.connection.position.toNat (sentCount session sent)
  else []

/-- The handler runs on a connection with no buffer left. -/
def runHandler (build : Build) (wire : Wire kh) (sent : Nat) :
    Except Fault (Wire kh) := do
  let session ← httpWriteHandle wire.session (.sent sent)
  return {
    session
    outputLength := (session.buffer build).length
    accepted := wire.accepted ++ sendfileBytes wire.session sent
    queued := wire.queued ++ session.buffer build }

/-- The request is finished or the connection is closed. -/
def Session.Ended (session : Session kh) : Prop :=
  session.connection.live = false ∨
    session.connection.handler = .handleMethod

instance (session : Session kh) : Decidable session.Ended :=
  inferInstanceAs (Decidable (_ ∨ _))

/-- `http_write_handle`, as long as writing is registered.  What is left of a
buffer is counted in `output_length`, and `output_buffer` stays at the first
byte. -/
def writeEvent (build : Build) (wire : Wire kh) (counts : Counts) :
    Except Fault (Wire kh) :=
  if wire.session.Ended then return wire
  else
    let num := min counts.wrote wire.outputLength
    let wire :=
      { wire with
        accepted := wire.accepted ++ (wire.session.buffer build).take num
        outputLength := wire.outputLength - num }
    if wire.outputLength = 0 then runHandler build wire counts.sent
    else return wire

/-- A response before its first write event. -/
def respondWire (session : Session kh) (build : Build) : Wire kh where
  session := session
  outputLength := (session.buffer build).length
  accepted := []
  queued := session.buffer build

/-- A response from its first write event on. -/
def delivery (kh : KHash) (build : Build) :
    Machine (Wire kh) Counts Fault where
  initial wire := ∃ session : Session kh, wire = respondWire session build
  step := writeEvent build

/-- The part of the current buffer that the socket has not accepted. -/
def Wire.due (wire : Wire kh) (build : Build) : Bytes :=
  let buffer := wire.session.buffer build
  buffer.drop (buffer.length - wire.outputLength)

/-- The response has a body that is not sent to its end. -/
def Session.HasBody (session : Session kh) : Prop :=
  session.connection.live = true ∧
    (session.connection.handler = .respondContentbody ∨
      session.connection.method = some .get ∧
        (session.connection.handler = .respondExpires ∨
          session.connection.handler = .respondContentlength ∨
          session.connection.handler = .respondResponseend))

instance (session : Session kh) : Decidable session.HasBody :=
  inferInstanceAs (Decidable (_ ∧ _))

/-- The range from `position` to `end_position`. -/
def Session.bodyRange (session : Session kh) : Bytes :=
  (fileOf session.db session.connection.fd).slice
    session.connection.position.toNat (bodyLeft session.connection)

def Session.bodyDue (session : Session kh) : Bytes :=
  if session.HasBody then session.bodyRange else []

/-- The range that a lookup for reading sets up. -/
def Session.Ranged (session : Session kh) : Prop :=
  session.HasBody → 0 ≤ session.connection.position ∧
    session.connection.position ≤ session.connection.endPosition ∧
    session.connection.endPosition < 9223372036854775808

/-- The bytes at the start of the buffer are those that are due, as they are
when nothing or all that went before was accepted, and `sendfile` passes on
something while there is something left. -/
def Resumes (build : Build) (wire : Wire kh) (counts : Counts) : Prop :=
  let buffer := wire.session.buffer build
  let num := min counts.wrote wire.outputLength
  buffer.take num = (wire.due build).take num ∧
    (wire.session.connection.live = true →
      wire.session.connection.handler = .respondContentbody →
        num = wire.outputLength → bodyLeft wire.session.connection ≠ 0 →
          sentCount wire.session counts.sent ≠ 0)

section Handlers

variable {session after : Session kh}

theorem cacheDestroy_output (run : cacheDestroy session = .ok after) :
    after.connection.output = session.connection.output := by
  unfold cacheDestroy at run
  dsimp only at run
  split at run
  · simp only [bind_eq_ok, pure_eq_ok] at run
    obtain ⟨_, -, _, -, rfl⟩ := run
    rfl
  · obtain rfl := pure_eq_ok.mp run
    rfl
  · obtain rfl := pure_eq_ok.mp run
    rfl

/-- What a handler leaves behind: nothing more to write once the request has
ended, and the body due before it passed on or still due. -/
structure Delivers (session : Session kh) (sent : Nat)
    (after : Session kh) : Prop where
  ranged : after.Ranged
  ends : after.Ended → after.connection.output = none
  body : (session.connection.handler = .respondContentbody →
      bodyLeft session.connection ≠ 0 → sentCount session sent ≠ 0) →
    session.bodyDue = sendfileBytes session sent ++ after.bodyDue
  stops : session.connection.handler = .respondContentbody →
    bodyLeft session.connection ≠ 0 → sentCount session sent = 0 →
      after.Ended
  last : session.connection.handler = .respondContentbody →
    after.connection.output = none ∧
      (after.Ended ∨ after.connection.handler = .respondContentbody)

theorem bodyDue_of_ended (ended : session.Ended) : session.bodyDue = [] := by
  unfold Session.bodyDue
  rw [if_neg]
  rintro ⟨live, getting⟩
  rcases ended with dead | method
  · simp [live] at dead
  · simp [method] at getting

theorem ranged_of_ended (ended : session.Ended) : session.Ranged := by
  rintro ⟨live, getting⟩
  rcases ended with dead | method
  · simp [live] at dead
  · simp [method] at getting

/-- A request that ends has nothing left of its body. -/
theorem delivers_of_ends {sent : Nat} (ended : after.Ended)
    (quiet : after.connection.output = none)
    (noBody : ¬session.HasBody)
    (notSending : session.connection.handler ≠ .respondContentbody) :
    Delivers session sent after where
  ranged := ranged_of_ended ended
  ends := fun _ => quiet
  body := by
    intro _
    rw [bodyDue_of_ended ended]
    simp [Session.bodyDue, noBody, sendfileBytes, notSending]
  stops := fun sending => absurd sending notSending
  last := fun sending => absurd sending notSending

theorem finishRequest_ended (run : finishRequest session = .ok after) :
    after.Ended ∧ after.connection.output = session.connection.output := by
  unfold finishRequest at run
  simp only [bind_eq_ok, pure_eq_ok] at run
  obtain ⟨ended, ending, rfl⟩ := run
  have same := cacheDestroy_output ending
  exact ⟨.inr rfl, same⟩

theorem closeConnection_ended (run : closeConnection session = .ok after) :
    after.Ended ∧ after.connection.output = session.connection.output := by
  unfold closeConnection at run
  simp only [bind_eq_ok, pure_eq_ok] at run
  obtain ⟨ended, ending, rfl⟩ := run
  have same := cacheDestroy_output ending
  exact ⟨.inl rfl, same⟩

/-- The next handler sends the same range. -/
theorem delivers_of_same {sent : Nat} (ranged : session.Ranged)
    (running : ¬after.Ended) (same : after.HasBody ↔ session.HasBody)
    (notSending : session.connection.handler ≠ .respondContentbody)
    (db : after.db = session.db)
    (fd : after.connection.fd = session.connection.fd)
    (position : after.connection.position = session.connection.position)
    (endPosition : after.connection.endPosition =
      session.connection.endPosition) :
    Delivers session sent after where
  ranged := by
    intro hasBody
    rw [position, endPosition]
    exact ranged (same.mp hasBody)
  ends := fun ended => absurd ended running
  body := by
    intro _
    have rangeEq : after.bodyRange = session.bodyRange := by
      unfold Session.bodyRange bodyLeft
      rw [db, fd, position, endPosition]
    simp only [Session.bodyDue, same, rangeEq, sendfileBytes, notSending,
      if_false, List.nil_append]
  stops := fun sending => absurd sending notSending
  last := fun sending => absurd sending notSending

/-- Of a range, what is left once its first bytes are passed on. -/
theorem bodyLeft_of_ranged {connection : Connection}
    (ordered : connection.position ≤ connection.endPosition)
    (fits : connection.endPosition < 9223372036854775808)
    (nonnegative : 0 ≤ connection.position) :
    (bodyLeft connection : Int) =
      connection.endPosition - connection.position := by
  unfold bodyLeft
  omega

theorem sentCount_le (session : Session kh) (sent : Nat) :
    sentCount session sent ≤ bodyLeft session.connection := by
  exact (Nat.min_le_left _ _).trans (Nat.min_le_right _ _)

theorem httpRespondContentbody_delivers {sent : Nat}
    (quiet : session.connection.output = none)
    (live : session.connection.live = true)
    (sending : session.connection.handler = .respondContentbody)
    (ranged : session.Ranged)
    (run : httpRespondContentbody session (.sent sent) = .ok after) :
    Delivers session sent after := by
  have hasBody : session.HasBody := ⟨live, .inl sending⟩
  obtain ⟨nonnegative, ordered, fits⟩ := ranged hasBody
  have left := bodyLeft_of_ranged ordered fits nonnegative
  have due : session.bodyDue = session.bodyRange := if_pos hasBody
  unfold httpRespondContentbody at run
  dsimp only at run
  split at run
  · next nothing =>
      obtain ⟨ended, same⟩ := finishRequest_ended run
      have noCount : sentCount session sent = 0 := by
        have := sentCount_le session sent
        omega
      refine ⟨ranged_of_ended ended, fun _ => same.trans quiet, fun _ => ?_,
        fun _ some => absurd nothing some,
        fun _ => ⟨same.trans quiet, .inl ended⟩⟩
      rw [due, bodyDue_of_ended ended, List.append_nil]
      simp [Session.bodyRange, nothing, sendfileBytes, sending, noCount]
  · next something =>
      split at run
      · next stuck =>
          -- nothing was passed on, so the connection is closed
          obtain ⟨ended, same⟩ := closeConnection_ended run
          have none_ : sentCount session sent = 0 := by
            rcases stuck with closed | negative | none_
            · simp [sentCount, closed, fileOf, ByteFile.empty]
            · omega
            · exact none_
          exact ⟨ranged_of_ended ended, fun _ => same.trans quiet,
            fun some => absurd none_ (some sending something),
            fun _ _ _ => ended, fun _ => ⟨same.trans quiet, .inl ended⟩⟩
      · next passes =>
          simp only [not_or] at passes
          have some_ : sentCount session sent ≠ 0 := passes.2.2
          have most := sentCount_le session sent
          obtain ⟨more, splits⟩ := Nat.exists_eq_add_of_le most
          have rangeEq : session.bodyRange = sendfileBytes session sent ++
              (fileOf session.db session.connection.fd).slice
                (session.connection.position.toNat +
                  sentCount session sent) more := by
            simp only [Session.bodyRange, sendfileBytes, sending, if_true]
            rw [splits, ByteFile.slice_add]
          split at run
          · next atEnd =>
              obtain ⟨ended, same⟩ := finishRequest_ended run
              have noMore : more = 0 := by omega
              refine ⟨ranged_of_ended ended, fun _ => same.trans quiet,
                fun _ => ?_, fun _ _ none_ => absurd none_ some_,
                fun _ => ⟨same.trans quiet, .inl ended⟩⟩
              rw [due, rangeEq, noMore, bodyDue_of_ended ended]
              rfl
          · next notYet =>
              have afterEq := (pure_eq_ok.mp run).symm
              have method : after.connection.handler =
                  .respondContentbody := by rw [afterEq]; exact sending
              have alive : after.connection.live = true := by
                rw [afterEq]; exact live
              have position : after.connection.position =
                  session.connection.position + sentCount session sent := by
                rw [afterEq]
              have endPosition : after.connection.endPosition =
                  session.connection.endPosition := by rw [afterEq]
              have file : fileOf after.db after.connection.fd =
                  fileOf session.db session.connection.fd := by rw [afterEq]
              have leftAfter : (bodyLeft after.connection : Int) =
                  after.connection.endPosition - after.connection.position :=
                bodyLeft_of_ranged (by omega) (by omega) (by omega)
              have stillQuiet : after.connection.output = none := by
                rw [afterEq]
                exact quiet
              refine ⟨fun _ => by omega, ?_, fun _ => ?_,
                fun _ _ none_ => absurd none_ some_,
                fun _ => ⟨stillQuiet, .inr method⟩⟩
              · rintro (dead | finished)
                · simp [alive] at dead
                · simp [method] at finished
              · have startEq : after.connection.position.toNat =
                    session.connection.position.toNat +
                      sentCount session sent := by omega
                have moreEq : bodyLeft after.connection = more := by omega
                have dueAfter : after.bodyDue = after.bodyRange :=
                  if_pos ⟨alive, .inl method⟩
                rw [due, rangeEq, dueAfter, Session.bodyRange, file, startEq,
                  moreEq]

/-- A handler that queues the next buffer. -/
theorem queue_delivers {sent : Nat} {chunk : Chunk} {next : Handler}
    (live : session.connection.live = true) (ranged : session.Ranged)
    (running : next ≠ .handleMethod)
    (notSending : session.connection.handler ≠ .respondContentbody)
    (same : (session.queue chunk next).HasBody ↔ session.HasBody) :
    Delivers session sent (session.queue chunk next) := by
  refine delivers_of_same ranged ?_ same notSending rfl rfl rfl rfl
  rintro (dead | finished)
  · simp [Session.queue, live] at dead
  · exact running finished

/-- A handler of a listing, a statistic or a finished response has no body to
send. -/
theorem not_hasBody (notSending :
      session.connection.handler ≠ .respondContentbody)
    (notExpires : session.connection.handler ≠ .respondExpires)
    (notLength : session.connection.handler ≠ .respondContentlength)
    (notEnd : session.connection.handler ≠ .respondResponseend) :
    ¬session.HasBody := by
  rintro ⟨-, sending | ⟨-, expires | length | end_⟩⟩
  · exact notSending sending
  · exact notExpires expires
  · exact notLength length
  · exact notEnd end_

theorem httpRespondResponseend_hasBody
    (stands : session.connection.handler = .respondResponseend) :
    (httpRespondResponseend session).HasBody ↔ session.HasBody := by
  unfold httpRespondResponseend Session.HasBody
  dsimp only [Session.queue]
  cases method : session.connection.method with
  | none => simp [stands]
  | some kind => cases kind <;> simp [stands]

theorem httpRespondListing_delivers {table sent : Nat}
    (quiet : session.connection.output = none)
    (live : session.connection.live = true)
    (stands : session.connection.handler = .respondListing)
    (run : httpRespondListing session table = .ok after) :
    Delivers session sent after := by
  have notSending : session.connection.handler ≠ .respondContentbody := by
    simp [stands]
  have noBody : ¬session.HasBody := by
    apply not_hasBody <;> simp [stands]
  unfold httpRespondListing at run
  rw [bind_eq_ok] at run
  obtain ⟨set, -, run⟩ := run
  dsimp only at run
  split at run
  · obtain ⟨ended, same⟩ := closeConnection_ended run
    exact delivers_of_ends ended (same.trans quiet) noBody notSending
  rw [bind_eq_ok] at run
  obtain ⟨⟨limit, found⟩, -, run⟩ := run
  dsimp only at run
  split at run
  · obtain ⟨ended, same⟩ := closeConnection_ended run
    exact delivers_of_ends ended (same.trans quiet) noBody notSending
  · have afterEq := (pure_eq_ok.mp run).symm
    have alive : after.connection.live = true := by
      rw [afterEq]
      exact live
    have handler : after.connection.handler = .respondCloseConnection ∨
        after.connection.handler = .respondListingSeparator := by
      rw [afterEq]
      dsimp only [Session.queue]
      split
      · exact .inl rfl
      · exact .inr rfl
    have noBodyAfter : ¬after.HasBody := by
      rcases handler with close | separator
      · apply not_hasBody <;> simp [close]
      · apply not_hasBody <;> simp [separator]
    refine ⟨fun some_ => absurd some_ noBodyAfter, ?_, fun _ => ?_,
      fun sending => absurd sending notSending,
      fun sending => absurd sending notSending⟩
    · rintro (dead | finished)
      · simp [alive] at dead
      · simp [finished] at handler
    · rw [Session.bodyDue, if_neg noBody, Session.bodyDue,
        if_neg noBodyAfter]
      simp [sendfileBytes, notSending]

theorem runRespond_delivers {sent : Nat}
    (quiet : session.connection.output = none)
    (running : ¬session.Ended) (ranged : session.Ranged)
    (run : runRespond session (.sent sent) = .ok after) :
    Delivers session sent after := by
  have live : session.connection.live = true := by
    by_contra dead
    exact running (.inl (by simpa using dead))
  unfold runRespond at run
  split at run
  · next stands held =>
      obtain rfl := pure_eq_ok.mp run
      refine queue_delivers live ranged nofun (by simp [stands]) ?_
      simp [Session.HasBody, Session.queue, stands]
  · next stands held =>
      obtain rfl := pure_eq_ok.mp run
      refine queue_delivers live ranged nofun (by simp [stands]) ?_
      simp [Session.HasBody, Session.queue, stands]
  · next stands =>
      obtain rfl := pure_eq_ok.mp run
      refine queue_delivers live ranged ?_ (by simp [stands])
        (httpRespondResponseend_hasBody stands)
      split <;> nofun
  · next stands =>
      exact httpRespondContentbody_delivers quiet live stands ranged run
  · next stands =>
      obtain ⟨ended, same⟩ := finishRequest_ended run
      exact delivers_of_ends ended (same.trans quiet)
        (by apply not_hasBody <;> simp [stands]) (by simp [stands])
  · next stands =>
      obtain ⟨ended, same⟩ := finishRequest_ended run
      exact delivers_of_ends ended (same.trans quiet)
        (by apply not_hasBody <;> simp [stands]) (by simp [stands])
  · next stands =>
      obtain rfl := pure_eq_ok.mp run
      refine queue_delivers live ranged nofun (by simp [stands]) ?_
      simp [Session.HasBody, Session.queue, stands]
  · next stands held =>
      unfold httpRespondListingentries at run
      simp only [bind_eq_ok, pure_eq_ok] at run
      obtain ⟨set, -, rfl⟩ := run
      refine queue_delivers live ranged nofun (by simp [stands]) ?_
      simp [Session.HasBody, Session.queue, stands]
  · next stands held =>
      unfold httpRespondListingtotal at run
      simp only [bind_eq_ok, pure_eq_ok] at run
      obtain ⟨set, -, rfl⟩ := run
      refine queue_delivers live ranged nofun (by simp [stands]) ?_
      simp [Session.HasBody, Session.queue, stands]
  · next stands =>
      obtain rfl := pure_eq_ok.mp run
      refine queue_delivers live ranged nofun (by simp [stands]) ?_
      simp [Session.HasBody, Session.queue, stands]
  · next stands held =>
      exact httpRespondListing_delivers quiet live stands run
  · next stands =>
      obtain ⟨ended, same⟩ := closeConnection_ended run
      exact delivers_of_ends ended (same.trans quiet)
        (by apply not_hasBody <;> simp [stands]) (by simp [stands])
  · next notSending _ _ _ _ _ _ _ _ _ _ =>
      obtain rfl := pure_eq_ok.mp run
      exact delivers_of_same ranged running Iff.rfl notSending rfl rfl rfl rfl

/-- Dropping the buffer that was accepted leaves the body as it is. -/
theorem httpWriteHandle_delivers {sent : Nat} (running : ¬session.Ended)
    (ranged : session.Ranged)
    (run : httpWriteHandle session (.sent sent) = .ok after) :
    Delivers session sent after := by
  unfold httpWriteHandle at run
  have running' : ¬Session.Ended { session with
      connection := { session.connection with
        output := none
        reply := session.connection.reply ++
          session.connection.output.toList } } := running
  have ranged' : Session.Ranged { session with
      connection := { session.connection with
        output := none
        reply := session.connection.reply ++
          session.connection.output.toList } } := ranged
  have delivers := runRespond_delivers rfl running' ranged' run
  exact ⟨delivers.ranged, delivers.ends, delivers.body, delivers.stops,
    delivers.last⟩

end Handlers

section Runs

variable {build : Build} {wire after : Wire kh}

/-- A connection between two write events. -/
structure Wire.Steady (wire : Wire kh) (build : Build) : Prop where
  short : wire.outputLength ≤ (wire.session.buffer build).length
  quiet : wire.session.Ended → wire.session.connection.output = none
  ranged : wire.session.Ranged

theorem due_length (steady : wire.Steady build) :
    (wire.due build).length = wire.outputLength := by
  have short := steady.short
  simp only [Wire.due, List.length_drop]
  omega

theorem buffer_of_quiet {session : Session kh}
    (quiet : session.connection.output = none) :
    session.buffer build = [] := by
  simp [Session.buffer, quiet]

theorem due_of_quiet (quiet : wire.session.connection.output = none) :
    wire.due build = [] := by
  simp [Wire.due, buffer_of_quiet quiet]

/-- The buffer is not accepted to its end. -/
theorem due_partial (steady : wire.Steady build) {num : Nat}
    (some_ : num ≤ wire.outputLength) (accepted : Bytes) :
    Wire.due { wire with
      accepted
      outputLength := wire.outputLength - num } build =
        (wire.due build).drop num := by
  have short := steady.short
  simp only [Wire.due, List.drop_drop]
  congr 1
  omega

/-- Two texts that start with parts of one length are equal when the parts
and the rests are. -/
theorem append_eq_iff {first other rest otherRest : Bytes}
    (same : first.length = other.length) :
    first ++ rest = other ++ otherRest ↔ first = other ∧ rest = otherRest :=
  ⟨fun equal => List.append_inj equal same,
    fun ⟨parts, rests⟩ => by rw [parts, rests]⟩

/-- What one write event accepts and queues, and what is due after it. -/
theorem writeEvent_cases {counts : Counts} (running : ¬wire.session.Ended)
    (steady : wire.Steady build)
    (stepped : writeEvent build wire counts = .ok after) :
    (min counts.wrote wire.outputLength ≠ wire.outputLength ∧
      after = { wire with
        accepted := wire.accepted ++ (wire.session.buffer build).take
          (min counts.wrote wire.outputLength)
        outputLength :=
          wire.outputLength - min counts.wrote wire.outputLength }) ∨
    (min counts.wrote wire.outputLength = wire.outputLength ∧
      Delivers wire.session counts.sent after.session ∧
      after.outputLength = (after.session.buffer build).length ∧
      after.accepted = wire.accepted ++
        (wire.session.buffer build).take wire.outputLength ++
          sendfileBytes wire.session counts.sent ∧
      after.queued = wire.queued ++ after.session.buffer build) := by
  unfold writeEvent at stepped
  rw [if_neg running] at stepped
  dsimp only at stepped
  split at stepped
  · next all =>
      right
      have allEq : min counts.wrote wire.outputLength = wire.outputLength := by
        omega
      unfold runHandler at stepped
      simp only [bind_eq_ok, pure_eq_ok] at stepped
      obtain ⟨session, run, rfl⟩ := stepped
      have delivers := httpWriteHandle_delivers running steady.ranged run
      exact ⟨allEq, delivers, rfl, by rw [allEq], rfl⟩
  · next partial_ =>
      left
      obtain rfl := pure_eq_ok.mp stepped
      exact ⟨by omega, rfl⟩

theorem steady_writeEvent {counts : Counts} (steady : wire.Steady build)
    (stepped : writeEvent build wire counts = .ok after) :
    after.Steady build := by
  by_cases ended : wire.session.Ended
  · unfold writeEvent at stepped
    rw [if_pos ended] at stepped
    obtain rfl := pure_eq_ok.mp stepped
    exact steady
  · rcases writeEvent_cases ended steady stepped with
      ⟨-, rfl⟩ | ⟨-, delivers, lengthEq, -, -⟩
    · have short := steady.short
      refine ⟨?_, steady.quiet, steady.ranged⟩
      dsimp only
      omega
    · exact ⟨lengthEq.le, delivers.ends, delivers.ranged⟩

theorem resumes_of_ended (counts : Counts) (steady : wire.Steady build)
    (ended : wire.session.Ended) : Resumes build wire counts := by
  have quiet := steady.quiet ended
  refine ⟨by rw [buffer_of_quiet quiet, due_of_quiet quiet], ?_⟩
  intro live sending
  rcases ended with dead | finished
  · simp [live] at dead
  · simp [sending] at finished

theorem part_length {num : Nat} (most : num ≤ wire.outputLength)
    (steady : wire.Steady build) :
    ((wire.session.buffer build).take num).length =
      ((wire.due build).take num).length := by
  have bufferLength := steady.short
  have dueLength := due_length steady
  simp only [List.length_take]
  omega

theorem split_due {num : Nat} {rest body : Bytes} :
    wire.due build ++ rest ++ body =
      (wire.due build).take num ++
        ((wire.due build).drop num ++ rest ++ body) := by
  rw [List.append_assoc, List.append_assoc, ← List.append_assoc (List.take _ _),
    List.take_append_drop]

/-- One event accepts the rest of a buffer, and the handler runs. -/
theorem delivers_all {counts : Counts} {next : Wire kh}
    {gained added : Bytes} (steady : wire.Steady build)
    (running : ¬wire.session.Ended)
    (all : min counts.wrote wire.outputLength = wire.outputLength)
    (delivers : Delivers wire.session counts.sent next.session)
    (lengthEq : next.outputLength = (next.session.buffer build).length)
    (acceptedEq : next.accepted = wire.accepted ++
      (wire.session.buffer build).take wire.outputLength ++
        sendfileBytes wire.session counts.sent)
    (queuedEq : next.queued = wire.queued ++ next.session.buffer build)
    (accepted : after.accepted = next.accepted ++ gained)
    (queued : after.queued = next.queued ++ added)
    (stopped : next.session.Ended → gained = [] ∧ added = [])
    (noneAdded : next.session.connection.handler = .respondContentbody →
      added = []) :
    ∃ gainedAll addedAll, after.accepted = wire.accepted ++ gainedAll ∧
      after.queued = wire.queued ++ addedAll ∧
      (wire.session.Ended → gainedAll = [] ∧ addedAll = []) ∧
      (wire.session.connection.handler = .respondContentbody →
        addedAll = []) ∧
      (gainedAll = wire.due build ++ addedAll ++ wire.session.bodyDue ↔
        Resumes build wire counts ∧
          gained = next.due build ++ added ++ next.session.bodyDue) := by
  have live : wire.session.connection.live = true := by
    by_contra dead
    exact running (.inl (by simpa using dead))
  have dueNext : next.due build = next.session.buffer build := by
    simp [Wire.due, lengthEq]
  have dueLength := due_length steady
  have bufferLength := steady.short
  have same : ((wire.session.buffer build).take wire.outputLength).length =
      (wire.due build).length := by
    rw [List.length_take, dueLength]
    omega
  have whole : (wire.due build).take wire.outputLength = wire.due build :=
    List.take_of_length_le dueLength.le
  refine ⟨(wire.session.buffer build).take wire.outputLength ++
      (sendfileBytes wire.session counts.sent ++ gained),
    next.session.buffer build ++ added, ?_, ?_, fun ended => absurd ended running,
    ?_, ?_⟩
  · rw [accepted, acceptedEq]
    simp only [List.append_assoc]
  · rw [queued, queuedEq, List.append_assoc]
  · intro sending
    obtain ⟨quiet, ended | still⟩ := delivers.last sending
    · rw [buffer_of_quiet quiet, (stopped ended).2]
      rfl
    · rw [buffer_of_quiet quiet, noneAdded still]
      rfl
  · rw [List.append_assoc, append_eq_iff same, dueNext]
    by_cases sending :
        wire.session.connection.handler = .respondContentbody
    · have quiet := (delivers.last sending).1
      have none_ : added = [] := by
        obtain ⟨-, ended | still⟩ := delivers.last sending
        · exact (stopped ended).2
        · exact noneAdded still
      rw [buffer_of_quiet quiet, none_]
      by_cases stuck : bodyLeft wire.session.connection ≠ 0 ∧
          sentCount wire.session counts.sent = 0
      · -- `sendfile` passed on nothing and the connection was closed
        have ended := delivers.stops sending stuck.1 stuck.2
        have rangeLength : wire.session.bodyDue.length ≠ 0 := by
          rw [Session.bodyDue, if_pos ⟨live, .inl sending⟩]
          simpa [Session.bodyRange] using stuck.1
        have nothing : sendfileBytes wire.session counts.sent = [] := by
          simp [sendfileBytes, sending, stuck.2, ByteFile.slice]
        have notDelivered : ¬([] : Bytes) = wire.session.bodyDue := by
          intro empty
          rw [← empty] at rangeLength
          exact rangeLength rfl
        have notResumes : ¬Resumes build wire counts := fun resumes =>
          resumes.2 live sending all stuck.1 stuck.2
        simp [nothing, (stopped ended).1, notDelivered, notResumes]
      · have passes : bodyLeft wire.session.connection ≠ 0 →
            sentCount wire.session counts.sent ≠ 0 := fun some none_ =>
          stuck ⟨some, none_⟩
        rw [delivers.body fun _ => passes]
        simp only [Resumes, all, whole, live, sending, forall_true_left,
          List.nil_append, List.append_cancel_left_eq]
        exact ⟨fun equal => ⟨⟨equal.1, passes⟩, equal.2⟩,
          fun equal => ⟨equal.1.1, equal.2⟩⟩
    · have nothing : sendfileBytes wire.session counts.sent = [] := by
        simp [sendfileBytes, sending]
      have bodyEq := delivers.body fun isSending => absurd isSending sending
      rw [bodyEq, nothing]
      simp only [Resumes, all, whole, sending, List.nil_append,
        List.append_assoc]
      simp

/-- A run accepts the bytes that were due, then the buffers it queues, then
the body, exactly when each of its events resumes where the last one
stopped. -/
theorem delivers_run {events : List Counts} {wire after : Wire kh}
    (steady : wire.Steady build)
    (runs : (delivery kh build).run wire events = .ok after)
    (ended : after.session.Ended) :
    ∃ gained added, after.accepted = wire.accepted ++ gained ∧
      after.queued = wire.queued ++ added ∧
      (wire.session.Ended → gained = [] ∧ added = []) ∧
      (wire.session.connection.handler = .respondContentbody → added = []) ∧
      (gained = wire.due build ++ added ++ wire.session.bodyDue ↔
        (delivery kh build).Along (Resumes build) wire events) := by
  induction events generalizing wire with
  | nil =>
      obtain rfl := Except.ok.inj runs
      refine ⟨[], [], by simp, by simp, by simp, by simp, ?_⟩
      rw [due_of_quiet (steady.quiet ended), bodyDue_of_ended ended]
      simp [Machine.Along]
  | cons counts events ih =>
      obtain ⟨next, stepped, rest⟩ := Machine.run_cons.mp runs
      have steadyNext := steady_writeEvent steady stepped
      obtain ⟨gained, added, accepted, queued, stopped, noneAdded, exact_⟩ :=
        ih steadyNext rest
      rw [Machine.along_cons stepped, ← exact_]
      by_cases ended : wire.session.Ended
      · -- nothing happens on a connection that is not written to
        have same : next = wire := by
          have stepped' : writeEvent build wire counts = .ok next := stepped
          unfold writeEvent at stepped'
          rw [if_pos ended] at stepped'
          exact (pure_eq_ok.mp stepped').symm
        subst same
        have resumes := resumes_of_ended counts steady ended
        exact ⟨gained, added, accepted, queued, stopped, noneAdded,
          by simp [resumes]⟩
      rcases writeEvent_cases ended steady stepped with
        ⟨less, rfl⟩ | ⟨all, delivers, lengthEq, acceptedEq, queuedEq⟩
      · -- a part of the buffer is accepted and the handler does not run
        have most := Nat.min_le_right counts.wrote wire.outputLength
        refine ⟨(wire.session.buffer build).take
            (min counts.wrote wire.outputLength) ++ gained, added, ?_, queued,
          fun again => absurd again ended, noneAdded, ?_⟩
        · rw [accepted, List.append_assoc]
        · have dueEq := due_partial steady most (wire.accepted ++
            (wire.session.buffer build).take
              (min counts.wrote wire.outputLength))
          rw [dueEq, split_due, append_eq_iff
            (part_length most steady)]
          simp [Resumes, less]
      · exact delivers_all steady ended all delivers lengthEq acceptedEq
          queuedEq accepted queued stopped noneAdded

/-- The socket gets the queued buffers and the range of the body, each byte
once and in order, exactly when every `write` and `sendfile` of the response
resumes where the last one stopped. -/
theorem delivered_iff {session : Session kh} {events : List Counts}
    (running : ¬session.Ended) (ranged : session.Ranged)
    (runs : (delivery kh build).run (respondWire session build) events =
      .ok after)
    (ended : after.session.Ended) :
    after.accepted = after.queued ++ session.bodyDue ↔
      (delivery kh build).Along (Resumes build) (respondWire session build)
        events := by
  have steady : (respondWire session build).Steady build :=
    ⟨le_rfl, fun ended => absurd ended running, ranged⟩
  obtain ⟨gained, added, accepted, queued, -, -, exact_⟩ :=
    delivers_run steady runs ended
  have dueEq : (respondWire session build).due build =
      session.buffer build := by
    simp [Wire.due, respondWire]
  rw [← exact_, accepted, queued, dueEq]
  simp [respondWire]

end Runs

/-- A key that is not found, about to be answered. -/
def notFound : Session listHash :=
  Session.writeResponse
    { db := emptyDb emptyDisk
      connection := { newConnection with method := some .get, level := .key }
      completions := [] } .full404

/-- A build for examples. -/
def someBuild : Build where
  version := printText "0.0.0"
  revision := printText "<unknown>"

/-- A key in the third block, found by a reader that holds it, about to be
answered. -/
def foundKey : Session listHash where
  db := { keyedStore with
    entry.refs := fun _ => 1
    table.refs := fun _ => 2
    disk.blockfile :=
      ByteFile.empty.write (2 * blockLength) [1, 2, 3, 4, 5, 6, 7, 8] }
  connection := { newConnection with
    method := some .get
    level := .key
    target := .entry 0
    fd := .blockfile
    position := 2 * blockLength
    endPosition := 2 * blockLength + 8
    output := some (.template .headers200)
    handler := .respondExpires }
  completions := []

/-- The state after the response satisfies a test. -/
def deliversWith (session : Session listHash) (events : List Counts)
    (test : Wire listHash → Bool) : Bool :=
  match (delivery listHash someBuild).run (respondWire session someBuild)
      events with
  | .ok wire => test wire
  | .error _ => false

theorem run_of_deliversWith {session : Session listHash}
    {events : List Counts} {test : Wire listHash → Bool}
    (delivers : deliversWith session events test = true) :
    ∃ wire, (delivery listHash someBuild).run
        (respondWire session someBuild) events = .ok wire ∧
      test wire = true := by
  unfold deliversWith at delivers
  split at delivers
  · next wire runs => exact ⟨wire, runs, delivers⟩
  · exact absurd delivers Bool.false_ne_true

/-- The buffers are taken one after another, the second at its second write,
and `sendfile` passes on the body in two pieces. -/
theorem delivered_iff_found :
    ∃ after, (delivery listHash someBuild).run
        (respondWire foundKey someBuild)
        [⟨1000, 0⟩, ⟨0, 0⟩, ⟨1000, 0⟩, ⟨1000, 0⟩, ⟨1000, 3⟩, ⟨0, 5⟩] =
          .ok after ∧
      (delivery listHash someBuild).Along (Resumes someBuild)
        (respondWire foundKey someBuild)
        [⟨1000, 0⟩, ⟨0, 0⟩, ⟨1000, 0⟩, ⟨1000, 0⟩, ⟨1000, 3⟩, ⟨0, 5⟩] ∧
      foundKey.bodyDue = [1, 2, 3, 4, 5, 6, 7, 8] := by
  obtain ⟨after, runs, test⟩ := run_of_deliversWith
    (show deliversWith foundKey
      [⟨1000, 0⟩, ⟨0, 0⟩, ⟨1000, 0⟩, ⟨1000, 0⟩, ⟨1000, 3⟩, ⟨0, 5⟩]
      (fun wire =>
        decide (wire.session.Ended ∧
          wire.accepted = wire.queued ++ foundKey.bodyDue)) = true from by
      decide +kernel)
  obtain ⟨ended, delivered⟩ := of_decide_eq_true test
  have running : ¬foundKey.Ended := by decide
  have ranged : foundKey.Ranged := fun _ => by decide
  exact ⟨after, runs,
    (delivered_iff running ranged runs ended).mp delivered,
    by decide +kernel⟩

/-- The first write takes one byte, and the second starts running. -/
theorem delivered_short :
    ∃ after, (delivery listHash someBuild).run
        (respondWire notFound someBuild) [⟨1, 0⟩, ⟨200, 0⟩] = .ok after ∧
      after.session.Ended ∧
      after.accepted ≠ after.queued ++ notFound.bodyDue := by
  obtain ⟨after, runs, test⟩ := run_of_deliversWith
    (show deliversWith notFound [⟨1, 0⟩, ⟨200, 0⟩] (fun wire =>
      decide (wire.session.Ended ∧
        wire.accepted ≠ wire.queued ++ notFound.bodyDue)) = true from by
      decide +kernel)
  obtain ⟨ended, differ⟩ := of_decide_eq_true test
  exact ⟨after, runs, ended, differ⟩

end SimpleCache
