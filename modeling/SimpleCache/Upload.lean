import SimpleCache.Eviction

/-!
# Entries being written

A `PUT` enters a new entry under its key at once, in place of the entry that
was there, and completes it when the last byte has arrived.
-/

namespace SimpleCache

variable {kh : KHash}

/-- What `db_entry_get_write` enters under a key. -/
def newUpload (hashString : Bytes → UInt32) (key : Bytes) : NewEntry where
  hash := hashString key
  key
  block := -2
  dataLength := 0
  expires := 0

/-- The middle of `db_entry_get_write`: the new entry takes its place in the
table, and the first entry of a table takes a reference to it. -/
def enterNew (hashString : Bytes → UInt32) (db : Db kh) (table : Nat)
    (key : Bytes) (isFirstInTable : Bool) : Except Fault (Db kh × Nat) := do
  let (db, entry) := dbEntryNew db table (newUpload hashString key)
  let db := if isFirstInTable then dbTableIncref db table else db
  let set ← keyMap db table
  let db := setKeyMap db table (kh.put set (hashString key) entry)
  let db ← dbEntryIncref db entry false
  return ({ db with
    entry.writing := Function.update db.entry.writing entry true }, entry)

/-- `db_entry_get_write` up to the collector, which it calls at every
`DB_LRU_EVERY`-th insert.  Returns no entry while the key is being written. -/
def enterWrite (hashString : Bytes → UInt32) (db : Db kh) (table : Nat)
    (key : Bytes) : Except Fault (Db kh × Option Nat) := do
  let set ← keyMap db table
  let db :=
    { db with
      statsInserts := u64 (db.statsInserts + 1)
      statsOperations := u64 (db.statsOperations + 1) }
  match kh.lookup set (hashString key) with
  | some entry =>
      if db.entry.writing entry then
        return (db, none)
      else
        let db ←
          dbEntryHandleSoftdelete db entry (kh.find set (hashString key))
        let (db, entry) ←
          enterNew hashString db table key (kh.size set = 0)
        return (db, some entry)
  | none =>
      let db := { db with dbKeys := u64 (db.dbKeys + 1) }
      let (db, entry) ← enterNew hashString db table key (kh.size set = 0)
      return (db, some entry)

def dbEntryGetWrite (env : Env) (db : Db env.kh) (table : Nat) (key : Bytes)
    (outcome : FlushOutcome) : Except Fault (Db env.kh × Option Nat) := do
  let (db, entry) ← enterWrite env.hashString db table key
  if entry.isSome ∧ db.statsInserts % dbLruEvery = 0 then
    let db ← dbLruGc env.maxSize env.bytesToRemove db outcome
    return (db, entry)
  else
    return (db, entry)

def dbCompleteWriting (db : Db kh) (entry : Nat) : Db kh :=
  let db :=
    { db with entry.writing := Function.update db.entry.writing entry false }
  if db.entry.deleted entry then db else dbLruInsert db entry

end SimpleCache
