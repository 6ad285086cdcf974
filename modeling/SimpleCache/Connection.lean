import SimpleCache.Upload

/-!
# Connections

A connection carries the request it is serving: the handler that receives its
next input, the request method and level, and the table or entry it holds.
`cache.target` is a union: its first word points to a table or to an entry,
and the listing range of a table overlays the position of an entry.
-/

namespace SimpleCache

variable {kh : KHash}

/-- The method bits of `connection->method`. -/
inductive Method
  | get
  | head
  | put
  | delete
  | purge
  | admin
  deriving DecidableEq

/-- The level bits of `connection->method`. -/
inductive Level
  | unresolved
  | table
  | key
  deriving DecidableEq

/-- `http_templates`. -/
inductive Template
  | headers200
  | full404
  | full200Ok
  | newline
  | fullInvalidMethod
  | fullHttp200Deleted
  | headers200ConClose
  | fullInvalidContentLength
  | bulkOk
  | fullLongMethod
  | fullUnknownMethod
  | fullRequestTooLarge
  | fullUnknownRequest
  deriving DecidableEq

/-- The numbers of `http_respond_stats`. -/
structure Stats where
  keys : Nat
  tables : Nat
  sizeBytes : Nat
  blocksFree : Nat
  blocksExist : Nat
  deletes : Nat
  gets : Nat
  inserts : Nat
  deriving DecidableEq

/-- What is handed to the socket at once. -/
inductive Chunk
  | template (template : Template)
  | xTtl (seconds : Int)
  | contentLength (length : Int)
  | body (bytes : Bytes)
  | stats (stats : Stats)
  | xEntries (number : Nat)
  | xTotal (number : Nat)
  | separator
  | key (bytes : Bytes)
  deriving DecidableEq

/-- `connection->handler`, with the two stages of `http_cache_handle_url`
apart. -/
inductive Handler
  | handleMethod
  | handleUrl
  | handleUrlKey
  | handleHttpversion
  | handleHeaders
  | handleRequestBody
  | handleEolstats
  | handleEolwritetoend
  | respondExpires
  | respondContentlength
  | respondResponseend
  | respondContentbody
  | respondResetConnection
  | respondWriteonly
  | respondStats
  | respondListingentries
  | respondListingtotal
  | respondListingSeparator
  | respondListing
  | respondCloseConnection
  deriving DecidableEq

/-- The pointer in the first word of `cache.target`. -/
inductive Held
  | null
  | table (table : Nat)
  | entry (entry : Nat)
  deriving DecidableEq

/-- `scache_connection`.  `reply` collects what the socket accepted for the
current request, `served` the entry that its lookup found for reading. -/
structure Connection where
  live : Bool
  handler : Handler
  method : Option Method
  level : Level
  target : Held
  start : Nat
  limit : Nat
  fd : Fd
  position : Int
  endPosition : Int
  isWriting : Bool
  output : Option Chunk
  reply : List Chunk
  served : Option Nat
  deriving DecidableEq

/-- `connection_add` and `http_connection_handler`. -/
def newConnection : Connection where
  live := true
  handler := .handleMethod
  method := none
  level := .unresolved
  target := .null
  start := 0
  limit := 0
  fd := .closed
  position := 0
  endPosition := 0
  isWriting := false
  output := none
  reply := []
  served := none

/-- An upload that `db_complete_writing` completed: what the block or the file
of the entry held then. -/
structure Completion where
  entry : Nat
  table : Option Bytes
  key : Bytes
  bytes : Bytes

/-- What one handler of one connection works on. -/
structure Session (kh : KHash) where
  db : Db kh
  connection : Connection
  completions : List Completion

namespace Session

def writeResponse (session : Session kh) (template : Template) : Session kh :=
  { session with
    connection.handler := .respondWriteonly
    connection.output := some (.template template) }

def writeResponseAfterEol (session : Session kh) (template : Template) :
    Session kh :=
  { session with
    connection.handler := .handleEolwritetoend
    connection.output := some (.template template) }

def statsAfterEol (session : Session kh) : Session kh :=
  { session with connection.handler := .handleEolstats }

def moveTo (session : Session kh) (handler : Handler) : Session kh :=
  { session with connection.handler := handler }

end Session

/-- Store the listing range, which overlays the position. -/
def setListing (connection : Connection) (start limit : Nat) : Connection :=
  { connection with
    start
    limit
    position := start + i32 limit * 4294967296 }

/-- Give up an upload that is not complete. -/
def abandonUpload (session : Session kh) (entry : Nat) :
    Except Fault (Db kh) := do
  if session.connection.isWriting then
    let db ←
      if session.db.entry.deleted entry then pure session.db
      else do
        let (db, _) ← dbEntryHandleDelete session.db entry
        pure db
    return { db with
      entry.writing := Function.update db.entry.writing entry false }
  else
    return session.db

/-- `cache_destroy`: end the request and release what it holds. -/
def cacheDestroy (session : Session kh) : Except Fault (Session kh) := do
  let connection := session.connection
  match connection.level, connection.target with
  | .key, .entry entry =>
      let db ← abandonUpload session entry
      let db ← dbTargetEntryClose db entry connection.fd
      return { session with
        db
        connection :=
          { connection with
            isWriting := false
            target := .null
            fd := .closed
            position := 0 } }
  | .table, .table table =>
      return { session with
        db := dbTableDeref session.db table false
        connection := { connection with target := .null } }
  | _, _ => return session

/-- `http_cleanup` and wait for the next request. -/
def finishRequest (session : Session kh) : Except Fault (Session kh) := do
  let session ← cacheDestroy session
  return session.moveTo .handleMethod

/-- `http_cleanup` and `connection_remove`. -/
def closeConnection (session : Session kh) : Except Fault (Session kh) := do
  let session ← cacheDestroy session
  return { session with connection.live := false }

end SimpleCache
