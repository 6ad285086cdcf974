import SimpleCache.Requests

/-!
# Writing responses

The handlers that produce a response piece by piece.  Each runs when the
socket has accepted the piece before, and either queues the next piece or ends
the request.
-/

namespace SimpleCache

variable {kh : KHash}

/-- The result of `sendfile`, which sends at most `count` bytes. -/
inductive SendOutcome
  | again
  | failed
  | sent (count : Nat)
  deriving DecidableEq

namespace Session

def queue (session : Session kh) (chunk : Chunk) (handler : Handler) :
    Session kh :=
  { session with
    connection.output := some chunk
    connection.handler := handler }

end Session

def httpRespondExpires (session : Session kh) (entry : Nat) : Session kh :=
  let expires := session.db.entry.expires entry
  session.queue
    (.xTtl (if expires = 0 then expires else expires - session.db.currentTime))
    .respondContentlength

def httpRespondContentlength (session : Session kh) (entry : Nat) :
    Session kh :=
  session.queue (.contentLength (i32 (session.db.entry.dataLength entry)))
    .respondResponseend

def httpRespondResponseend (session : Session kh) : Session kh :=
  session.queue (.template .newline)
    (match session.connection.method with
      | some .get => .respondContentbody
      | some .head => .respondResetConnection
      | _ => .respondWriteonly)

/-- The rest of the body, as a `size_t`. -/
def bodyLeft (connection : Connection) : Nat :=
  ((connection.endPosition - connection.position) %
    18446744073709551616).toNat

/-- How many bytes `sendfile` passes on when it could send `count`. -/
def sentCount (session : Session kh) (count : Nat) : Nat :=
  let connection := session.connection
  min (min count (bodyLeft connection))
    ((fileOf session.db connection.fd).length - connection.position.toNat)

/-- Pass the body on with `sendfile`; the end of the file or an error closes
the connection. -/
def httpRespondContentbody (session : Session kh) (outcome : SendOutcome) :
    Except Fault (Session kh) :=
  let connection := session.connection
  if bodyLeft connection = 0 then
    finishRequest session
  else
    match outcome with
    | .again => return session
    | .failed => closeConnection session
    | .sent count =>
        let count := sentCount session count
        if connection.fd = .closed ∨ connection.position < 0 ∨ count = 0 then
          closeConnection session
        else
          let bytes := (fileOf session.db connection.fd).slice
            connection.position.toNat count
          let session :=
            { session with
              connection :=
                { connection with
                  position := connection.position + count
                  reply := connection.reply ++ [.body bytes] } }
          if connection.position + count = connection.endPosition then
            finishRequest session
          else
            return session

def httpRespondStats (session : Session kh) : Session kh :=
  let db := session.db
  session.queue
    (.stats
      { keys := db.dbKeys
        tables := kh.size db.tables
        sizeBytes := db.dbSizeBytes
        blocksFree := db.blocksFree
        blocksExist := db.blocksExist
        deletes := db.statsDeletes
        gets := db.statsGets
        inserts := db.statsInserts })
    .respondWriteonly

def httpRespondListingentries (session : Session kh) (table : Nat) :
    Except Fault (Session kh) := do
  let set ← keyMap session.db table
  return session.queue (.xEntries (kh.size set)) .respondListingtotal

def httpRespondListingtotal (session : Session kh) (table : Nat) :
    Except Fault (Session kh) := do
  let set ← keyMap session.db table
  return session.queue (.xTotal (kh.endIndex set)) .respondListingSeparator

/-- How many buckets `kh_exist` can be asked about: the flags of 16 buckets
share a word. -/
def flagsLength (set : kh.Map) : Nat :=
  if kh.endIndex set = 0 then 0 else max 16 (kh.endIndex set)

/-- The range of a listing, cut to the buckets of the table. -/
def listingRange (set : kh.Map) (start limit : Nat) : Nat × Nat :=
  if kh.endIndex set < start then (kh.endIndex set, 0)
  else if kh.endIndex set < u32 (limit + start) then
    (start, u32 (kh.endIndex set + 4294967296 - (start + 1)))
  else (start, limit)

/-- The loop of `http_respond_listing`: walk down from bucket `index` to one
that holds an entry, or until the limit is used up. -/
def listingScan (set : kh.Map) :
    (limit : Nat) → (index : Int) → Except Fault (Nat × Option Nat)
  | limit, index =>
      if index < 0 ∨ flagsLength set ≤ index then .error .overrun
      else
        match kh.value set index.toNat with
        | some entry => .ok (limit, some entry)
        | none =>
            match limit with
            | 0 => .ok (0, none)
            | limit + 1 => listingScan set limit (index - 1)

def httpRespondListing (session : Session kh) (table : Nat) :
    Except Fault (Session kh) := do
  let set ← keyMap session.db table
  let (start, limit) :=
    listingRange set session.connection.start session.connection.limit
  if limit = 0 then
    closeConnection
      { session with connection := setListing session.connection start 0 }
  else
    let (limit, found) ← listingScan set limit (i32 (u32 (limit + start)))
    let session :=
      { session with
        connection := setListing session.connection start (limit - 1) }
    match found with
    | none => closeConnection session
    | some entry =>
        let key := (session.db.entry.key entry).take
          (session.db.entry.keyLength entry)
        return session.queue (.key key)
          (if limit = 0 then .respondCloseConnection
            else .respondListingSeparator)

/-- The handler that runs once the socket has accepted the queued piece. -/
def runRespond (session : Session kh) (outcome : SendOutcome) :
    Except Fault (Session kh) :=
  match session.connection.handler, session.connection.target with
  | .respondExpires, .entry entry => return httpRespondExpires session entry
  | .respondContentlength, .entry entry =>
      return httpRespondContentlength session entry
  | .respondResponseend, _ => return httpRespondResponseend session
  | .respondContentbody, _ => httpRespondContentbody session outcome
  | .respondResetConnection, _ | .respondWriteonly, _ => finishRequest session
  | .respondStats, _ => return httpRespondStats session
  | .respondListingentries, .table table =>
      httpRespondListingentries session table
  | .respondListingtotal, .table table => httpRespondListingtotal session table
  | .respondListingSeparator, _ =>
      return session.queue .separator .respondListing
  | .respondListing, .table table => httpRespondListing session table
  | .respondCloseConnection, _ => closeConnection session
  | _, _ => return session

/-- `http_write_handle`, when the socket accepts all of the queued piece. -/
def httpWriteHandle (session : Session kh) (outcome : SendOutcome) :
    Except Fault (Session kh) :=
  let connection := session.connection
  runRespond
    { session with
      connection :=
        { connection with
          output := none
          reply := connection.reply ++ connection.output.toList } }
    outcome

end SimpleCache
