import SimpleCache.Connection

/-!
# Reading requests

The handlers that take a request apart, one function for each place where the
parser acts: after the method, after each part of the URL, after a header line
it recognises, after the headers, and for each piece of an upload.
-/

namespace SimpleCache

variable {kh : KHash}

/-- A number that `rbuf_strntol` can return: an `int` read from digits. -/
abbrev Digits := Fin 2147483648

/-- A name, a key or a header value: part of a request that is taken from the
input ring at once, and so is shorter than the ring. -/
abbrev Word := { bytes : Bytes // bytes.length < 16384 }

/-- The word before the first space of a request. -/
inductive MethodWord
  | known (method : Method)
  | unknown
  | tooLong
  deriving DecidableEq

/-- A recognised header line; a number is missing when the value is not made
of digits. -/
inductive Header
  | contentLength (value : Option Digits)
  | xTtl (value : Option Digits)
  | xLimit (value : Option Digits)
  | xStart (value : Option Digits)
  | xDelete (key : Word)
  deriving DecidableEq

def httpReadRequeststartmethod (session : Session kh) (word : MethodWord) :
    Session kh :=
  let session :=
    { session with
      connection.method := none
      connection.level := .unresolved
      connection.reply := []
      connection.served := none }
  match word with
  | .known method =>
      { session with
        connection.method := some method
        connection.handler := .handleUrl }
  | .unknown => session.writeResponseAfterEol .fullUnknownMethod
  | .tooLong => session.writeResponseAfterEol .fullLongMethod

/-- The table of a URL with a key, which uploads create. -/
def tableOfKey (hashString : Bytes → UInt32) (method : Option Method)
    (db : Db kh) (name : Bytes) : Except Fault (Db kh × Option Nat) :=
  match method with
  | some .get | some .delete | some .head => dbTableGetRead hashString db name
  | _ => do
      let (db, table) ← dbTableGetWrite hashString db name
      return (db, some table)

/-- `http_read_requeststarturl1` at a `/`: the name of the table of a key. -/
def httpReadTableSegment (hashString : Bytes → UInt32) (session : Session kh)
    (name : Bytes) : Except Fault (Session kh) := do
  let connection := { session.connection with level := .table }
  let (db, table) ←
    tableOfKey hashString connection.method session.db name
  match table with
  | some table =>
      return { session with
        db
        connection :=
          { connection with
            target := .table table
            handler := .handleUrlKey } }
  | none =>
      let session :=
        { session with
          db
          connection := { connection with target := .null } }
      return session.writeResponseAfterEol .full404

/-- A request on a whole table, with its default listing range. -/
def holdTable (hashString : Bytes → UInt32) (session : Session kh)
    (name : Bytes) : Except Fault (Session kh) := do
  let (db, table) ← dbTableGetRead hashString session.db name
  let connection :=
    { session.connection with
      level := .table
      target := (table.map Held.table).getD .null
      handler := .handleHeaders }
  return { session with
    db
    connection := setListing connection 0 defaultListingLimit }

/-- `http_read_requeststarturl1` at a space: a URL without a key. -/
def httpReadTableOnly (env : Env) (session : Session env.kh) (name : Bytes)
    (outcome : FlushOutcome) : Except Fault (Session env.kh) := do
  let noTable := { session with connection.level := .table }
  match session.connection.method with
  | some .get | some .delete | some .purge =>
      if name = [] then
        return noTable.statsAfterEol
      else
        holdTable env.hashString session name
  | some .admin =>
      if name = [charByte 'g', charByte 'c'] then
        let db ← dbLruGc env.maxSize env.bytesToRemove session.db outcome
        return { noTable with db }.statsAfterEol
      else
        return noTable.writeResponseAfterEol .fullInvalidMethod
  | _ => return noTable.writeResponseAfterEol .fullInvalidMethod

/-- The end of `http_key_lookup`: hold the entry instead of the table, or
nothing. -/
def holdEntry (session : Session kh) (table : Nat) (entry : Option Nat) :
    Except Fault (Session kh) := do
  let connection :=
    { session.connection with
      level := .key
      handler := .handleHttpversion }
  match entry with
  | some entry =>
      if connection.method = some .put then
        return { session with
          connection :=
            { connection with target := .entry entry, fd := .closed } }
      else
        let (db, target) ← dbTargetOpen session.db entry false
        return { session with
          db
          connection :=
            { connection with
              target := .entry entry
              fd := target.fd
              position := target.position
              endPosition := target.endPosition } }
  | none =>
      return { session with
        db := dbTableDeref session.db table false
        connection := { connection with target := .null, fd := .closed } }

def httpKeyLookup (env : Env) (session : Session env.kh) (table : Nat)
    (key : Bytes) (outcome : FlushOutcome) :
    Except Fault (Session env.kh) := do
  match session.connection.method with
  | some .get | some .head =>
      let (db, entry) ← dbEntryGetRead env.hashString session.db table key
      holdEntry { session with db, connection.served := entry } table entry
  | some .put =>
      let (db, entry) ← dbEntryGetWrite env session.db table key outcome
      holdEntry { session with db, connection.isWriting := entry.isSome }
        table entry
  | some .delete =>
      let (db, entry) ← dbEntryGetDelete env.hashString session.db table key
      let output := some (Chunk.template .fullHttp200Deleted)
      holdEntry { session with db, connection.output := output } table entry
  | _ => return session.writeResponseAfterEol .fullInvalidMethod

def readContentLength (session : Session kh) (value : Option Digits) :
    Except Fault (Session kh) := do
  match value, session.connection.target with
  | none, _ => return session.writeResponse .fullInvalidMethod
  | some length, .entry entry =>
      let (db, target) ← dbTargetWriteAllocate session.db entry length.val
      let dataLength : Int := db.entry.dataLength entry
      return { session with
        db
        connection :=
          { session.connection with
            fd := target.fd
            position := target.position
            endPosition :=
              if isSingleFile db entry then dataLength
              else target.position + dataLength } }
  | some length, _ =>
      return { session with
        connection :=
          { session.connection with
            position := 0
            endPosition := length.val } }

def readTtl (session : Session kh) (value : Option Digits) : Session kh :=
  match session.connection.target, value with
  | .entry _, none => session.writeResponse .fullInvalidMethod
  | .entry entry, some ttl =>
      if ttl.val = 0 then session
      else
        { session with
          db.entry.expires := Function.update session.db.entry.expires entry
            (ttl.val + session.db.currentTime) }
  | _, _ => session

def readListingBound (session : Session kh) (value : Option Digits)
    (store : Connection → Nat → Connection) : Session kh :=
  match value with
  | none => session.writeResponse .fullInvalidMethod
  | some bound =>
      { session with connection := store session.connection bound.val }

def readDelete (hashString : Bytes → UInt32) (session : Session kh)
    (table : Nat) (key : Bytes) : Except Fault (Session kh) := do
  let (db, entry) ← dbEntryGetDelete hashString session.db table key
  match entry with
  | none => return { session with db }
  | some entry =>
      let (db, tableDeleted) ← dbEntryHandleDelete db entry
      let target := if tableDeleted then Held.null else .table table
      return { session with
        db := dbEntryDeref db entry false
        connection := { session.connection with target } }

/-- `http_read_header_extraction`: a header that the method does not know has
no effect. -/
def httpReadHeaderExtraction (hashString : Bytes → UInt32)
    (session : Session kh) (header : Header) : Except Fault (Session kh) :=
  match session.connection.method, session.connection.level, header with
  | some .put, .key, .contentLength value => readContentLength session value
  | some .put, .key, .xTtl value => return readTtl session value
  | some .get, .table, .xLimit value =>
      return readListingBound session value
        fun connection limit => setListing connection connection.start limit
  | some .get, .table, .xStart value =>
      return readListingBound session value
        fun connection start => setListing connection start connection.limit
  | some .purge, .table, .xDelete key =>
      match session.connection.target with
      | .table table => readDelete hashString session table key.val
      | _ => return session
  | _, _, _ => return session

/-- The router of `http_read_headers`, for requests with a key. -/
def routeKey (session : Session kh) : Except Fault (Session kh) := do
  match session.connection.method, session.connection.target with
  | some .put, .entry entry =>
      if session.db.entry.dataLength entry = 0 then
        return session.writeResponse .fullInvalidContentLength
      else
        return session.moveTo .handleRequestBody
  | some .put, _ => return session.moveTo .handleRequestBody
  | some .get, .entry _ | some .head, .entry _ =>
      return { session with
        connection.output := some (.template .headers200)
        connection.handler := .respondExpires }
  | some .delete, .entry entry =>
      let (db, _) ← dbEntryHandleDelete session.db entry
      return { session with db }.writeResponse .fullHttp200Deleted
  | _, .entry _ => return session.writeResponse .fullUnknownRequest
  | _, _ => return session.writeResponse .full404

/-- The router of `http_read_headers`, for requests without a key. -/
def routeTable (session : Session kh) : Except Fault (Session kh) := do
  match session.connection.method, session.connection.target with
  | some .get, .table _ =>
      return { session with
        connection.output := some (.template .headers200ConClose)
        connection.handler := .respondListingentries }
  | some .get, _ => return session.writeResponse .full404
  | some .delete, .table table =>
      let db ← dbTableHandleDelete session.db table
      return { session with db }.writeResponse .fullHttp200Deleted
  | some .delete, _ => return session.writeResponse .full404
  | some .purge, _ | some .admin, _ => return session.writeResponse .bulkOk
  | _, _ => return session.writeResponse .fullUnknownRequest

def httpReadHeaders (session : Session kh) : Except Fault (Session kh) :=
  if session.connection.level = .key then routeKey session
  else routeTable session

/-- Conversion to `int`. -/
def toInt (number : Int) : Int := i32 (u32OfInt number)

/-- What `db_complete_writing` completes, as its range holds it now. -/
def completion (session : Session kh) (entry : Nat) : Completion :=
  let db := session.db
  let length := db.entry.dataLength entry
  { entry
    table := (db.entry.table entry).map db.table.key
    key := db.entry.key entry
    bytes := (fileOf db session.connection.fd).slice
      (session.connection.endPosition - length).toNat length }

/-- The end of `http_cache_handle_request_body`. -/
def finishUpload (session : Session kh) : Session kh :=
  let connection := session.connection
  if connection.endPosition = connection.position then
    let session : Session kh :=
      match connection.isWriting, connection.target with
      | true, .entry entry =>
          { db := dbCompleteWriting session.db entry
            connection := { connection with isWriting := false }
            completions := session.completions ++ [completion session entry] }
      | _, _ => session
    session.writeResponse .full200Ok
  else session

/-- `http_cache_handle_request_body` on the bytes that are next in the input
ring, where `write` returns `written`, or -1 when that is negative.  A negative
length would write what lies past the ring. -/
def httpCacheHandleRequestBody (session : Session kh) (input : Bytes)
    (written : Int) : Except Fault (Session kh) := do
  let connection := session.connection
  let toWrite :=
    min (toInt (connection.endPosition - connection.position)) input.length
  if toWrite = 0 then
    return finishUpload session
  else if connection.isWriting then
    if connection.fd = .closed ∨ connection.position < 0 then
      return session.writeResponse .full404
    else if toWrite < 0 then
      throw .overrun
    else if written < 0 then
      return finishUpload { session with
        connection := { connection with position := connection.position - 1 } }
    else
      let accepted := min written toWrite
      return finishUpload { session with
        db := writeFd session.db connection.fd connection.position.toNat
          (input.take accepted.toNat)
        connection :=
          { connection with position := connection.position + accepted } }
  else
    return finishUpload { session with
      connection :=
        { connection with position := connection.position + toWrite } }

end SimpleCache
