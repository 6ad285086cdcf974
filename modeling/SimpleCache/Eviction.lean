import SimpleCache.Index

/-!
# Eviction, expiry and index flushes

`db_lru_gc` sweeps a part of the tables for expired entries, removes entries
from the old end of the LRU list when the store is over its limit, and starts
a process that writes the index.
-/

namespace SimpleCache

variable {kh : KHash}

/-- Remove an entry that a sweep found, keeping it allocated through the
removal when nobody holds it. -/
def removeSwept (db : Db kh) (entry : Nat) : Except Fault (Db kh × Bool) := do
  if db.entry.refs entry = 0 then
    let db ← dbEntryIncref db entry true
    let (db, tableDeleted) ← dbEntryHandleDelete db entry
    return (dbEntryDeref db entry true, tableDeleted)
  else
    dbEntryHandleDelete db entry

/-- The loop of `db_expire_cursor_table` over the given buckets.  Returns the
number of entries it visited. -/
def expireBuckets (table : Nat) :
    List Nat → Db kh → Nat → Except Fault (Db kh × Nat)
  | [], db, visited => return (db, visited)
  | ke :: buckets, db, visited => do
      let set ← keyMap db table
      match kh.value set ke with
      | none => expireBuckets table buckets db visited
      | some entry =>
          if db.entry.deleted entry = false ∧ expired db entry then
            let endEarly := kh.size set = 1 ∧ db.entry.refs entry = 0
            let (db, tableDeleted) ← removeSwept db entry
            if endEarly ∨ tableDeleted then
              return (db, visited + 1)
            else
              expireBuckets table buckets db (visited + 1)
          else
            expireBuckets table buckets db (visited + 1)

def dbExpireCursorTable (db : Db kh) (table : Nat) :
    Except Fault (Db kh × Nat) := do
  let set ← keyMap db table
  expireBuckets table (List.range (kh.endIndex set)) db 0

/-- Sweep the table at the cursor, if there is one. -/
def expireAtCursor (db : Db kh) : Except Fault (Db kh × Nat) :=
  match kh.value db.tables db.tableGc with
  | none => return (db, 0)
  | some table => dbExpireCursorTable db table

def nextCursor (db : Db kh) : Nat :=
  if kh.endIndex db.tables ≤ db.tableGc + 1 then 0 else db.tableGc + 1

/-- The loop of `db_expire_cursor`.  Every pass moves the cursor on, so it is
back at `start` after as many passes as there are buckets. -/
def expireTables (start : Nat) :
    (passes : Nat) → Db kh → Nat → Except Fault (Db kh × Bool)
  | 0, _, _ => throw .endless
  | passes + 1, db, visited => do
      let (db, more) ← expireAtCursor db
      let db := { db with tableGc := nextCursor db }
      if db.tableGc ≠ start ∧ visited + more < 4096 then
        expireTables start passes db (visited + more)
      else
        return (db, db.tableGc = start)

def startCursor (db : Db kh) : Nat :=
  if kh.endIndex db.tables ≤ db.tableGc then 0 else db.tableGc

/-- Returns whether the cursor went through all tables. -/
def dbExpireCursor (db : Db kh) : Except Fault (Db kh × Bool) := do
  let db := { db with tableGc := startCursor db }
  if db.tableGc = kh.endIndex db.tables then
    return (db, true)
  else
    expireTables db.tableGc (kh.endIndex db.tables) db 0

/-- The loop of `db_lru_cleanup_percent`.  `int` arithmetic wraps. -/
def lruCleanup : (passes : Nat) → Db kh → Int → Except Fault (Db kh)
  | 0, _, _ => throw .endless
  | passes + 1, db, bytesToRemove =>
      match db.lru.head with
      | none => return db
      | some entry =>
          if bytesToRemove ≤ 0 then
            return db
          else if db.entry.writing entry ∨ db.entry.deleted entry then
            lruCleanup passes (dbLruRemoveNode db entry) bytesToRemove
          else do
            let bytesToRemove :=
              i32 (u32OfInt (bytesToRemove - db.entry.dataLength entry))
            let (db, _) ← removeSwept db entry
            lruCleanup passes db bytesToRemove

/-- Every pass clears a link of the entry it unlinks, so no list, well formed
or not, takes more passes than this. -/
def dbLruCleanupPercent (db : Db kh) (bytesToRemove : Int) :
    Except Fault (Db kh) :=
  lruCleanup (2 * db.entry.count + 2) db bytesToRemove

/-- What the system calls of one flush return: `waitpid`, whether the status
word then says that the process exited, and `fork`. -/
structure FlushOutcome where
  waitpid : Int
  exited : Bool
  fork : Int

def currentlyFlushing (db : Db kh) (outcome : FlushOutcome) : Db kh × Bool :=
  if db.flush.currentFlush = 0 then (db, false)
  else if outcome.waitpid ≠ 0 ∧ outcome.exited then
    ({ db with flush.currentFlush := 0 }, false)
  else (db, true)

def dbNowMs (db : Db kh) : Nat :=
  u64 ((db.currentTime % 18446744073709551616).toNat * 1000 +
    db.currentUsec / 1000)

/-- `db_index_flush(true)`: the child writes the index of the store as it is
now. -/
def dbIndexFlush (db : Db kh) (outcome : FlushOutcome) :
    Except Fault (Db kh) := do
  if outcome.fork < 0 then
    return db
  else
    let text ← indexText db
    return { db with flush.children := db.flush.children ++ [text] }

/-- Whether the last flush is too recent for another one. -/
def flushTooSoon (db : Db kh) : Bool :=
  db.flush.lastFlushMs ≠ 0 ∧
    u64 (dbNowMs db + 18446744073709551616 - db.flush.lastFlushMs) <
      dbFlushMinIntervalMs

/-- The end of `db_lru_gc`. -/
def flushIndex (db : Db kh) (outcome : FlushOutcome) : Except Fault (Db kh) := do
  let (db, flushing) := currentlyFlushing db outcome
  if flushing then
    return db
  else if flushTooSoon db then
    return { db with flush.flushPending := true }
  else
    let db ← dbIndexFlush { db with flush.flushPending := false } outcome
    if outcome.fork < 0 then
      return db
    else
      return { db with
        flush.currentFlush := outcome.fork.toNat
        flush.lastFlushMs := dbNowMs db }

/-- Up to `rounds` expiry sweeps, until one of them has seen every table. -/
def expireRounds : (rounds : Nat) → Db kh → Except Fault (Db kh)
  | 0, db => return db
  | rounds + 1, db => do
      let (db, fullCycle) ← dbExpireCursor db
      if fullCycle then return db else expireRounds rounds db

/-- Make room when the store is over its limit, otherwise sweep on. -/
def collect (maxSize : Nat) (bytesToRemove : Nat → Int) (db : Db kh) :
    Except Fault (Db kh) := do
  if 0 < maxSize ∧ maxSize < db.dbSizeBytes then
    let db ← expireRounds 5 db
    let bytes := bytesToRemove db.dbSizeBytes
    if 0 < bytes then dbLruCleanupPercent db bytes else return db
  else
    let (db, _) ← dbExpireCursor db
    return db

def dbLruGc (maxSize : Nat) (bytesToRemove : Nat → Int) (db : Db kh)
    (outcome : FlushOutcome) : Except Fault (Db kh) := do
  let db ← collect maxSize bytesToRemove db
  flushIndex db outcome

end SimpleCache
