import SimpleCache.Removal

/-!
# Looking up tables and entries

Names and keys are found by their 32-bit hash and then compared with
`strncmp`, which stops at the first zero byte.  Tables whose hash is taken are
probed at the following hashes; entries are not.
-/

namespace SimpleCache

variable {kh : KHash}

/-- `strncmp(first, second, length) == 0`, where both strings end in a zero
byte that is not part of the list. -/
def strncmpEqual : (length : Nat) → (first second : Bytes) → Bool
  | 0, _, _ => true
  | _ + 1, [], [] => true
  | _ + 1, byte :: _, [] => byte == 0
  | _ + 1, [], byte :: _ => byte == 0
  | length + 1, first :: firsts, second :: seconds =>
      first == second && (first == 0 || strncmpEqual length firsts seconds)

def tableMatches (db : Db kh) (table : Nat) (name : Bytes) : Bool :=
  db.table.keyLength table == name.length &&
    strncmpEqual name.length (db.table.key table) name

def entryMatches (db : Db kh) (entry : Nat) (key : Bytes) : Bool :=
  db.entry.keyLength entry == key.length &&
    strncmpEqual key.length key (db.entry.key entry)

/-- The probing loop that `db_table_get_read` and `db_table_get_write` share:
the table found under `hash` or a later one, or the first free hash. -/
def probeTable (db : Db kh) (name : Bytes) :
    (probes : Nat) → UInt32 → Except Fault (Sum UInt32 Nat)
  | 0, _ => .error .endless
  | probes + 1, hash =>
      match kh.lookup db.tables hash with
      | none => .ok (.inl hash)
      | some table =>
          if tableMatches db table name then .ok (.inr table)
          else probeTable db name probes (hash + 1)

def dbTableNew (db : Db kh) (name : Bytes) (hash : UInt32) : Db kh × Nat :=
  let table := db.table.count
  ({ db with
      table :=
        { count := table + 1
          hash := Function.update db.table.hash table hash
          key := Function.update db.table.key table name
          keyLength :=
            Function.update db.table.keyLength table (u16 name.length)
          cacheHashSet :=
            Function.update db.table.cacheHashSet table kh.empty
          refs := Function.update db.table.refs table 1
          deleted := Function.update db.table.deleted table false
          destroyed := Function.update db.table.destroyed table false
          freed := Function.update db.table.freed table false }
      tables := kh.put db.tables hash table }, table)

def dbTableGetRead (hashString : Bytes → UInt32) (db : Db kh) (name : Bytes) :
    Except Fault (Db kh × Option Nat) := do
  match ← probeTable db name (kh.size db.tables + 1) (hashString name) with
  | .inl _ => return (db, none)
  | .inr table => return (dbTableIncref db table, some table)

def dbTableGetWrite (hashString : Bytes → UInt32) (db : Db kh) (name : Bytes) :
    Except Fault (Db kh × Nat) := do
  match ← probeTable db name (kh.size db.tables + 1) (hashString name) with
  | .inl hash => return dbTableNew db name hash
  | .inr table => return (dbTableIncref db table, table)

/-- What a new entry is filled in with. -/
structure NewEntry where
  hash : UInt32
  key : Bytes
  block : Int
  dataLength : Nat
  expires : Int

/-- `db_entry_new`, with the fields its two callers assign next. -/
def dbEntryNew (db : Db kh) (table : Nat) (new : NewEntry) : Db kh × Nat :=
  let entry := db.entry.count
  ({ db with
      entry :=
        { count := entry + 1
          table := Function.update db.entry.table entry (some table)
          hash := Function.update db.entry.hash entry new.hash
          key := Function.update db.entry.key entry new.key
          keyLength :=
            Function.update db.entry.keyLength entry (new.key.length % 16384)
          writing := Function.update db.entry.writing entry false
          deleted := Function.update db.entry.deleted entry false
          refs := Function.update db.entry.refs entry 0
          dataLength :=
            Function.update db.entry.dataLength entry new.dataLength
          block := Function.update db.entry.block entry new.block
          expires := Function.update db.entry.expires entry new.expires
          it := Function.update db.entry.it entry db.nextit
          freed := Function.update db.entry.freed entry false }
      lru :=
        { db.lru with
          next := Function.update db.lru.next entry none
          prev := Function.update db.lru.prev entry none }
      nextit := u16 (db.nextit + 1) }, entry)

def expired (db : Db kh) (entry : Nat) : Bool :=
  db.entry.expires entry ≠ 0 ∧ db.entry.expires entry < db.currentTime

def dbEntryGetRead (hashString : Bytes → UInt32) (db : Db kh) (table : Nat)
    (key : Bytes) : Except Fault (Db kh × Option Nat) := do
  let set ← keyMap db table
  match kh.lookup set (hashString key) with
  | none => return (db, none)
  | some entry =>
      if expired db entry then
        let db ← dbEntryIncref db entry false
        let (db, _) ← dbEntryHandleDelete db entry
        return (dbEntryDeref db entry false, none)
      else if entryMatches db entry key = false then
        return (db, none)
      else
        let db :=
          { db with
            statsGets := u64 (db.statsGets + 1)
            statsOperations := u64 (db.statsOperations + 1) }
        if db.entry.writing entry then
          return (db, none)
        else
          let db ← dbEntryIncref (dbLruHit db entry) entry false
          return (db, some entry)

def dbEntryGetDelete (hashString : Bytes → UInt32) (db : Db kh) (table : Nat)
    (key : Bytes) : Except Fault (Db kh × Option Nat) := do
  let set ← keyMap db table
  match kh.lookup set (hashString key) with
  | none => return (db, none)
  | some entry =>
      if entryMatches db entry key = false then
        return (db, none)
      else
        let db :=
          { db with
            statsDeletes := u64 (db.statsDeletes + 1)
            statsOperations := u64 (db.statsOperations + 1) }
        let db ← dbEntryIncref db entry false
        return (db, some entry)

end SimpleCache
