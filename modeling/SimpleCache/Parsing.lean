import SimpleCache.Server
import SimpleCache.Strntol
import SimpleCache.Newlines

/-!
# Reading requests byte by byte

The handlers of `http_parse_cache.cpp` on the bytes of the read buffer: each
of them looks for the byte that ends its part of the request, and the loop of
`http_read_handle` runs one after the other on what has arrived.
-/

namespace SimpleCache

namespace Parsing

variable {kh : KHash}

/-- `state_action`. -/
inductive StateAction
  | continueProcessing
  | needsMoreRead
  | registeredWrite
  deriving DecidableEq

/-- `HEADER_CONTENTLENGTH` and so on. -/
inductive HeaderCode
  | contentLength
  | xTtl
  | xLimit
  | xStart
  | xDelete
  deriving DecidableEq

/-- A connection while its input is read.  `state` is `connection->state` as
long as it counts newlines; with the handler
`http_cache_handle_headers_extract` it is the code in `extracting`. -/
structure Reading (kh : KHash) where
  session : Session kh
  input : ReadBuffer
  state : Nat
  extracting : Option HeaderCode

def space : UInt8 := charByte ' '
def slash : UInt8 := charByte '/'
def colon : UInt8 := charByte ':'
def newline : UInt8 := 10
def carriageReturn : UInt8 := 13

def longestReqmethod : Nat := 6

/-- The characters of a string literal of the source. -/
def literal (text : String) : Bytes := text.toList.map charByte

/-- `RBUF_READMOVE`. -/
def Reading.move (reading : Reading kh) (count : Int) : Reading kh :=
  { reading with input := reading.input.readMove count }

/-- `rbuf_cmpn(...) == 0` with a literal of `n` characters. -/
def sameBytes (input : ReadBuffer) (word : Bytes) : Except Fault Bool :=
  match input.rbufCmpn word word.length with
  | .ok result => .ok (result = 0)
  | .error _ => .error .overrun

/-- `rbuf_copyn` of `n` bytes. -/
def copyBytes (input : ReadBuffer) (n : Int) : Except Fault Bytes :=
  match input.rbufCopyn n with
  | .ok (_, bytes) => .ok bytes
  | .error _ => .error .overrun

/-- The function that a handler runs at one byte, with the index of the byte
in the array and its number `n`. -/
abbrev Inner (kh : KHash) :=
  Reading kh → (index n : Nat) → Except Fault (Reading kh × StateAction)

/-- The loop of `RBUF_ITERATE`, with `n` as it is behind the loop.  What
remains to be read is a 16-bit number, so that 65536 rounds are enough. -/
def rbufIterate (inner : Inner kh) (toEnd : Int) :
    (rounds : Nat) → Reading kh → (index n : Nat) →
      Except Fault (Reading kh × StateAction × Nat)
  | 0, reading, _, n => return (reading, .continueProcessing, n)
  | rounds + 1, reading, index, n =>
      if n < reading.input.rbufReadRemaining then do
        let index := if toEnd = n then 0 else index
        let (reading, action) ← inner reading index n
        if action = .continueProcessing then
          rbufIterate inner toEnd rounds reading (index + 1) (n + 1)
        else
          return (reading, action, n + 1)
      else
        return (reading, .continueProcessing, n)

def iterate (inner : Inner kh) (reading : Reading kh) :
    Except Fault (Reading kh × StateAction × Nat) :=
  let toEnd := reading.input.rbufReadToEnd
  if toEnd = 0 then
    return (reading, .continueProcessing, 0)
  else
    rbufIterate inner toEnd 65536 reading
      (reading.input.readPosition % bufferSize) 0

/-- The end of `RBUF_ITERATE`. -/
def goOn : StateAction → StateAction
  | .continueProcessing => .needsMoreRead
  | action => action

/-- The methods in the order in which they are tried. -/
def methodNames : List (Bytes × Method) :=
  [(literal "GET", .get), (literal "PUT", .put), (literal "HEAD", .head),
    (literal "DELETE", .delete), (literal "BULK", .purge),
    (literal "PURGE", .purge), (literal "ADMIN", .admin)]

def findMethod (input : ReadBuffer) (n : Nat) :
    List (Bytes × Method) → Except Fault MethodWord
  | [] => return .unknown
  | (name, method) :: rest =>
      if n = name.length then do
        if ← sameBytes input name then return .known method
        else findMethod input n rest
      else findMethod input n rest

def httpReadRequeststartmethod : Inner kh := fun reading index n => do
  if longestReqmethod < n then
    return ({ reading.move (n + 1) with
      session := SimpleCache.httpReadRequeststartmethod reading.session .tooLong
      state := 1 }, .needsMoreRead)
  else if reading.input.buffer index = space then
    let word ← findMethod reading.input n methodNames
    return ({ reading.move (n + 1) with
      session := SimpleCache.httpReadRequeststartmethod reading.session word
      state := if word = .unknown then 1 else 0 }, .needsMoreRead)
  else
    return (reading, .continueProcessing)

/-- The name of a table ends at a `/` when a key follows, and else at a
space. -/
def httpReadRequeststarturl1 (env : Env) (outcome : FlushOutcome) :
    Inner env.kh := fun reading index n => do
  let byte := reading.input.buffer index
  if n = 0 ∨ (byte ≠ slash ∧ byte ≠ space) then
    return (reading, .continueProcessing)
  else
    let reading := reading.move 1
    let name ← copyBytes reading.input (n - 1)
    if byte = slash then
      let session ←
        httpReadTableSegment env.hashString reading.session name
      if session.connection.handler = .handleUrlKey then
        return ({ reading.move n with
          session, state := reading.state + 1 }, .needsMoreRead)
      else
        return ({ reading with session, state := 2 }, .needsMoreRead)
    else
      let session ← httpReadTableOnly env reading.session name outcome
      let afterEol := session.connection.handler = .handleEolwritetoend
      return ({ reading.move (n + 1) with
        session, state := if afterEol then 1 else 0 }, .needsMoreRead)

def httpReadRequeststarturl2 (env : Env) (outcome : FlushOutcome) :
    Inner env.kh := fun reading index n => do
  if reading.input.buffer index = space then
    let key ← copyBytes reading.input n
    let session ←
      match reading.session.connection.target with
      | .table table => httpKeyLookup env reading.session table key outcome
      | _ => pure reading.session
    return ({ reading.move (n + 1) with session, state := 0 }, .needsMoreRead)
  else
    return (reading, .continueProcessing)

def httpReadVersion : Inner kh := fun reading index n => do
  if reading.input.buffer index = newline then
    return ({ reading.move (n + 1) with
      session := reading.session.moveTo .handleHeaders
      state := 1 }, .needsMoreRead)
  else
    return (reading, .continueProcessing)

/-- `buffer - RBUF_READ`, which is negative behind the end of the array. -/
def distance (input : ReadBuffer) (index : Nat) : Int :=
  (index : Int) - (input.readPosition % bufferSize : Nat)

/-- The headers that a method looks for, with their spellings. -/
def headerNames (connection : Connection) : List (Bytes × HeaderCode) :=
  match connection.method, connection.level with
  | some .put, .key =>
      [(literal "Content-Length", .contentLength), (literal "X-Ttl", .xTtl),
        (literal "x-ttl", .xTtl)]
  | some .get, .table =>
      [(literal "X-Start", .xStart), (literal "x-start", .xStart),
        (literal "X-Limit", .xLimit), (literal "x-limit", .xLimit)]
  | some .purge, .table =>
      [(literal "X-Delete", .xDelete), (literal "x-delete", .xDelete)]
  | _, _ => []

def findHeader (input : ReadBuffer) (bytes : Int) :
    List (Bytes × HeaderCode) → Except Fault (Option HeaderCode)
  | [] => return none
  | (name, code) :: rest =>
      if bytes = name.length then do
        if ← sameBytes input name then return some code
        else findHeader input bytes rest
      else findHeader input bytes rest

/-- The action after the router, by the handler it has chosen. -/
def routed (session : Session kh) : StateAction :=
  if session.connection.handler = .handleRequestBody then .needsMoreRead
  else .registeredWrite

def httpReadHeaders : Inner kh := fun reading index n => do
  let byte := reading.input.buffer index
  if byte = colon then
    let bytes := distance reading.input index
    let bytes :=
      if bytes < 0 then reading.input.rbufReadToEnd + index else bytes
    match ← findHeader reading.input bytes
        (headerNames reading.session.connection) with
    | some code =>
        return ({ reading.move (bytes + 1) with extracting := some code },
          .needsMoreRead)
    | none => return (reading, .continueProcessing)
  else if byte = newline then
    let state := reading.state + 1
    if state = 2 then
      let session ← SimpleCache.httpReadHeaders reading.session
      let action := routed session
      let state := if action = .registeredWrite then 0 else state
      return ({ reading.move (n + 1) with session, state }, action)
    else
      return ({ reading.move (n + 1) with state }, .needsMoreRead)
  else if byte ≠ carriageReturn then
    return ({ reading with state := 0 }, .continueProcessing)
  else
    return (reading, .continueProcessing)

/-- `rbuf_strntol` of a header value: nothing where it returns false. -/
def headerNumber (input : ReadBuffer) (length : Int) :
    Except Fault (Option Digits) :=
  match (input.rbufStrntol length).1 with
  | .number value =>
      if small : value.toNat < 2147483648 then return some ⟨value.toNat, small⟩
      else throw .overrun
  | .rejected => return none
  | _ => throw .overrun

/-- The header as the method and the target let it be read. -/
def readHeader (reading : Reading kh) (code : HeaderCode) (length : Int) :
    Except Fault (Option Header) := do
  match code with
  | .contentLength =>
      return some (.contentLength (← headerNumber reading.input length))
  | .xTtl =>
      match reading.session.connection.target with
      | .entry _ => return some (.xTtl (← headerNumber reading.input length))
      | _ => return none
  | .xLimit => return some (.xLimit (← headerNumber reading.input length))
  | .xStart => return some (.xStart (← headerNumber reading.input length))
  | .xDelete =>
      match reading.session.connection.target with
      | .table _ =>
          let key ← copyBytes reading.input length
          if small : key.length < 16384 then
            return some (.xDelete ⟨key, small⟩)
          else throw .overrun
      | _ => return none

def httpReadHeaderExtraction (env : Env) (code : HeaderCode) :
    Inner env.kh := fun reading index _ => do
  let byte := reading.input.buffer index
  if byte = space then
    return (reading.move 1, .continueProcessing)
  else if byte = newline ∨ byte = carriageReturn then
    let temporary : Int := if byte = carriageReturn then 2 else 1
    let length := distance reading.input index
    let session ←
      match ← readHeader reading code length with
      | some header =>
          SimpleCache.httpReadHeaderExtraction env.hashString reading.session
            header
      | none => pure reading.session
    let reading :=
      { reading.move (length + temporary) with session, extracting := none }
    if session.connection.handler = .handleHeaders then
      return ({ reading with state := 1 }, .needsMoreRead)
    else
      return ({ reading with state := 0 }, .registeredWrite)
  else
    return (reading, .continueProcessing)

/-- `current` newlines in a row have been seen, in the upper half of the state
word, and `target` of them are waited for, in the lower half. -/
def httpReadEoltoend : Inner kh := fun reading index n => do
  let byte := reading.input.buffer index
  let target := reading.state % 65536
  let current := reading.state / 65536
  let current :=
    if byte = newline then u16 (current + 1)
    else if byte ≠ carriageReturn then 0
    else current
  if target = current then
    return ({ reading.move n with
      session := reading.session.moveTo .respondWriteonly
      state := 0 }, .registeredWrite)
  else
    return ({ reading with state := target + current * 65536 },
      .continueProcessing)

def skipOverNewlines (input : ReadBuffer) : Except Fault ReadBuffer :=
  match input.skipOverNewlines with
  | .ok (input, _) => .ok input
  | .error _ => .error .overrun

/-- What `http_cache_handle_request_body` takes from the buffer. -/
def bodyTaken (connection : Connection) (available : Nat) (written : Int) :
    Int :=
  let toWrite :=
    min (toInt (connection.endPosition - connection.position)) available
  if toWrite = 0 then 0
  else if connection.isWriting then
    if connection.fd = .closed ∨ connection.position < 0 then 0
    else if written < 0 then -1
    else min written toWrite
  else toWrite

def handleRequestBody (reading : Reading kh) (written : Int) :
    Except Fault (Reading kh × StateAction) := do
  let available := reading.input.rbufReadToEnd.toNat
  let session ← httpCacheHandleRequestBody reading.session
    (reading.input.bytesAt available) written
  let reading :=
    { reading.move (bodyTaken reading.session.connection available written) with
      session }
  if session.connection.handler = .handleRequestBody then
    return (reading, .continueProcessing)
  else
    return ({ reading with state := 0 }, .registeredWrite)

/-- `connection->handler`, while it reads.  `written` is what `write` returns
for the body, `outcome` what a flush meets in the collector. -/
def runHandler (env : Env) (outcome : FlushOutcome) (written : Int)
    (reading : Reading env.kh) :
    Except Fault (Reading env.kh × StateAction) := do
  match reading.extracting, reading.session.connection.handler with
  | some code, _ =>
      let (reading, action, _) ←
        iterate (httpReadHeaderExtraction env code) reading
      return (reading, goOn action)
  | none, .handleMethod =>
      let input ← skipOverNewlines reading.input
      let (reading, action, _) ←
        iterate httpReadRequeststartmethod { reading with input }
      return (reading, goOn action)
  | none, .handleUrl =>
      let (reading, action, _) ←
        iterate (httpReadRequeststarturl1 env outcome) reading
      return (reading, goOn action)
  | none, .handleUrlKey =>
      let (reading, action, _) ←
        iterate (httpReadRequeststarturl2 env outcome) reading
      return (reading, goOn action)
  | none, .handleHttpversion =>
      let (reading, action, n) ← iterate httpReadVersion reading
      if action = .continueProcessing then
        return (reading.move n, .needsMoreRead)
      else return (reading, action)
  | none, .handleHeaders =>
      let (reading, action, _) ← iterate httpReadHeaders reading
      if reading.extracting = none ∧
          reading.session.connection.handler = .handleHeaders ∧
          reading.input.rbufWriteRemaining = 0 then
        return ({ reading with
          session := reading.session.writeResponse .fullRequestTooLarge
          state := 0 }, .registeredWrite)
      else return (reading, goOn action)
  | none, .handleRequestBody => handleRequestBody reading written
  | none, .handleEolstats =>
      let (reading, action, n) ← iterate httpReadEoltoend reading
      if action = .continueProcessing then
        return (reading.move n, .needsMoreRead)
      else
        return ({ reading with
          session := reading.session.moveTo .respondStats }, action)
  | none, .handleEolwritetoend =>
      let (reading, action, n) ← iterate httpReadEoltoend reading
      if action = .continueProcessing then
        return (reading.move n, .needsMoreRead)
      else return (reading, action)
  | none, _ => return (reading, .continueProcessing)

/-- The loop of `http_read_handle`, with `to_end` of the round before. -/
def readLoop (env : Env) (outcome : FlushOutcome) (written : Int) :
    (rounds : Nat) → Reading env.kh → (toEnd : Int) →
      Except Fault (Reading env.kh × StateAction)
  | 0, _, _ => throw .endless
  | rounds + 1, reading, toEnd => do
      let (reading, run) ← runHandler env outcome written reading
      let remaining := reading.input.rbufReadRemaining
      if run = .needsMoreRead ∧ remaining ≠ 0 ∧ (remaining : Int) ≠ toEnd then
        readLoop env outcome written rounds reading remaining
      else
        return (reading, run)

end Parsing

end SimpleCache
