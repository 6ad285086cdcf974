import SimpleCache.Files

/-!
# Removing entries and tables

The two ways an entry leaves its table.  A soft delete serves replacement and
table deletion; the other serves every other removal and takes the table with
it when it removes the last key.
-/

namespace SimpleCache

variable {kh : KHash}

/-- The middle of `db_entry_handle_softdelete`: the key map, the counter and
the list. -/
def softTakeOut (db : Db kh) (table entry k : Nat) : Db kh :=
  let db := setKeyMap db table (kh.del (db.table.cacheHashSet table) k)
  let db :=
    { db with
      dbSizeBytes := u64 (db.dbSizeBytes + 18446744073709551616 -
        db.entry.dataLength entry) }
  if db.entry.writing entry then db else dbLruRemoveNode db entry

def dbEntryHandleSoftdelete (db : Db kh) (entry k : Nat) :
    Except Fault (Db kh) := do
  if db.entry.deleted entry then
    return db
  let db ← if isSingleFile db entry then dbEntryDelete db entry else pure db
  let db :=
    { db with entry.deleted := Function.update db.entry.deleted entry true }
  let table ← entryTable db entry
  let _ ← keyMap db table
  let db := softTakeOut db table entry k
  if db.entry.refs entry = 0 then
    return dbEntryActuallyDelete db entry
  else
    return db

def dbEntryCleanup (db : Db kh) (entry : Nat) : Except Fault (Db kh) := do
  if isSingleFile db entry then
    let path ← getKeyPath db entry
    return unlinkPath db path
  else
    return db

def dbDeleteTableEntry (db : Db kh) (table k : Nat) (actuallyDelete : Bool) :
    Except Fault (Db kh) := do
  let _ ← keyMap db table
  let db :=
    { db with table.destroyed := Function.update db.table.destroyed table true }
  let db :=
    if db.table.refs table = 0 then db
    else { db with tables := kh.del db.tables k }
  return dbTableDeref db table actuallyDelete

/-- One pass of the loop in `db_table_handle_delete` over bucket `ke`. -/
def deleteBucket (table : Nat) (db : Db kh) (ke : Nat) :
    Except Fault (Db kh) := do
  let set ← keyMap db table
  match kh.value set ke with
  | none => return db
  | some entry =>
      if db.entry.deleted entry then
        return db
      else
        let db ← dbEntryHandleSoftdelete db entry ke
        dbEntryCleanup db entry

def dbTableHandleDelete (db : Db kh) (table : Nat) : Except Fault (Db kh) := do
  let k := kh.find db.tables (db.table.hash table)
  let db :=
    { db with table.deleted := Function.update db.table.deleted table true }
  let set ← keyMap db table
  let db ← (List.range (kh.endIndex set)).foldlM (deleteBucket table) db
  dbDeleteTableEntry db table k true

/-- The middle of `db_entry_handle_delete`: the counters, the key map, the mark
and the list. -/
def takeOut (db : Db kh) (table entry k : Nat) : Db kh :=
  let db :=
    { db with
      dbSizeBytes := u64 (db.dbSizeBytes + 18446744073709551616 -
        db.entry.dataLength entry)
      dbKeys := u64 (db.dbKeys + 18446744073709551615) }
  let db := setKeyMap db table (kh.del (db.table.cacheHashSet table) k)
  let db :=
    { db with entry.deleted := Function.update db.entry.deleted entry true }
  if db.entry.writing entry then db else dbLruRemoveNode db entry

/-- Returns whether the table went with its last key. -/
def dbEntryHandleDelete (db : Db kh) (entry : Nat) :
    Except Fault (Db kh × Bool) := do
  let table ← entryTable db entry
  let set ← keyMap db table
  let k := kh.find set (db.entry.hash entry)
  let db ← dbEntryCleanup db entry
  let db := takeOut db table entry k
  if kh.size (db.table.cacheHashSet table) = 0 then
    let db :=
      { db with table.deleted := Function.update db.table.deleted table true }
    let k := kh.find db.tables (db.table.hash table)
    let db ← dbDeleteTableEntry db table k true
    return ({ db with entry.table := Function.update db.entry.table entry none },
      true)
  else
    return (db, false)

end SimpleCache
