import SimpleCache.Responses
import SimpleCache.Library.Machine

/-!
# The server as a machine

The state is the store, all connections that were ever accepted, and the log
of completed uploads.  An event is one piece of input or output of one
connection, a timer or signal handler, or a step of a flush child; handlers
run to their end before the next event.
-/

namespace SimpleCache

/-- The input or output that a connection is ready for. -/
inductive Action
  | requestMethod (word : MethodWord)
  | tableSegment (name : Word)
  | tableOnly (name : Word) (outcome : FlushOutcome)
  | keySegment (key : Word) (outcome : FlushOutcome)
  | httpVersion
  | header (header : Header)
  | endOfHeaders
  | requestTooLarge
  | endOfLine
  | requestBody (input : Bytes) (written : Int)
  | writeReady (outcome : SendOutcome)
  | disconnect

inductive Event
  | accept
  | request (connection : Nat) (action : Action)
  | tick (seconds : Int) (microseconds : Nat)
  | signalFlush (outcome : FlushOutcome)
  | signalChild (pid : Nat)
  | childUnlinks
  | childRenames (child : Nat)
  | childFails (child : Nat)

structure Server (kh : KHash) where
  db : Db kh
  connections : Nat → Connection
  connectionCount : Nat
  completions : List Completion

variable {kh : KHash}

/-- Whether the connection waits for the socket to take output. -/
def Handler.writes : Handler → Bool
  | .respondExpires | .respondContentlength | .respondResponseend
  | .respondContentbody | .respondResetConnection | .respondWriteonly
  | .respondStats | .respondListingentries | .respondListingtotal
  | .respondListingSeparator | .respondListing | .respondCloseConnection => true
  | _ => false

/-- Run the handler of the connection; input that the handler does not wait
for is left for later. -/
def handle (env : Env) (session : Session env.kh) (action : Action) :
    Except Fault (Session env.kh) :=
  match session.connection.handler, action with
  | _, .disconnect => closeConnection session
  | .handleMethod, .requestMethod word =>
      return httpReadRequeststartmethod session word
  | .handleUrl, .tableSegment name =>
      httpReadTableSegment env.hashString session name.val
  | .handleUrl, .tableOnly name outcome =>
      httpReadTableOnly env session name.val outcome
  | .handleUrlKey, .keySegment key outcome =>
      match session.connection.target with
      | .table table => httpKeyLookup env session table key.val outcome
      | _ => return session
  | .handleHttpversion, .httpVersion => return session.moveTo .handleHeaders
  | .handleHeaders, .header header =>
      httpReadHeaderExtraction env.hashString session header
  | .handleHeaders, .endOfHeaders => httpReadHeaders session
  | .handleHeaders, .requestTooLarge =>
      return session.writeResponse .fullRequestTooLarge
  | .handleRequestBody, .requestBody input written =>
      httpCacheHandleRequestBody session input written
  | .handleEolstats, .endOfLine => return session.moveTo .respondStats
  | .handleEolwritetoend, .endOfLine => return session.moveTo .respondWriteonly
  | handler, .writeReady outcome =>
      if handler.writes then httpWriteHandle session outcome
      else return session
  | _, _ => return session

namespace Server

/-- The part of the server that the handlers of one connection work on. -/
def session (server : Server kh) (connection : Nat) : Session kh where
  db := server.db
  connection := server.connections connection
  completions := server.completions

def withSession (server : Server kh) (connection : Nat)
    (session : Session kh) : Server kh :=
  { server with
    db := session.db
    connections :=
      Function.update server.connections connection session.connection
    completions := session.completions }

/-- The server right after `db_open`. -/
def opened (db : Db kh) : Server kh where
  db
  connections := fun _ => { newConnection with live := false }
  connectionCount := 0
  completions := []

end Server

def serverStep (env : Env) (server : Server env.kh) :
    Event → Except Fault (Server env.kh)
  | .accept =>
      return { server with
        connections :=
          Function.update server.connections server.connectionCount
            newConnection
        connectionCount := server.connectionCount + 1 }
  | .request connection action => do
      if (server.connections connection).live then
        let session ← handle env (server.session connection) action
        return server.withSession connection session
      else
        return server
  | .tick seconds microseconds =>
      return { server with
        db.currentTime := seconds
        db.currentUsec := microseconds }
  | .signalFlush outcome => do
      let db ← dbLruGc env.maxSize env.bytesToRemove server.db outcome
      return { server with db }
  | .signalChild pid =>
      if pid = server.db.flush.currentFlush then
        return { server with db.flush.currentFlush := 0 }
      else
        return server
  | .childUnlinks =>
      if server.db.flush.children = [] then return server
      else return { server with db.disk.indexSave := none }
  | .childRenames child =>
      match server.db.flush.children[child]? with
      | none => return server
      | some text =>
          return { server with
            db.disk.indexSave := some text
            db.flush.children := server.db.flush.children.eraseIdx child }
  | .childFails child =>
      return { server with
        db.flush.children := server.db.flush.children.eraseIdx child }

/-- The server started on one of the given directories. -/
def serverMachine (env : Env) (directory : Disk → Prop) :
    Machine (Server env.kh) Event Fault where
  initial := fun server =>
    ∃ disk db, directory disk ∧ dbOpen env.hashString disk = .ok db ∧
      server = .opened db
  step := serverStep env

end SimpleCache
