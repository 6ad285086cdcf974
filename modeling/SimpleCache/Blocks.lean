import SimpleCache.Store

/-!
# Block allocation, the LRU list and reference counts

The primitives of `db.cpp` that the request handlers are built from: the
block allocator with its free list, the recently-used list, and the reference
counts that decide when an entry or a table object is released.
-/

namespace SimpleCache

variable {kh : KHash}

/-- The length `db_block_size` passes to `ftruncate`: a product of two 32-bit
numbers, computed in 32 bits. -/
def ftruncateLength (blocksExist : Nat) : Nat :=
  u32 (blocksExist * blockLength)

def dbBlockSize (db : Db kh) : Db kh :=
  { db with
    disk.blockfile := db.disk.blockfile.truncate (ftruncateLength db.blocksExist) }

def dbBlockFree (db : Db kh) (block : Int) : Db kh :=
  if u32 (u32OfInt block + 1) = db.blocksExist ∧ 256 < db.blocksFree then
    dbBlockSize { db with blocksExist := u32 (db.blocksExist + 4294967295) }
  else
    { db with
      freeBlocks := u32OfInt block :: db.freeBlocks
      blocksFree := u32 (db.blocksFree + 1) }

def dbBlockAllocateNew (db : Db kh) : Db kh × Int :=
  match db.freeBlocks with
  | block :: rest =>
      ({ db with
          freeBlocks := rest
          blocksFree := u32 (db.blocksFree + 4294967295) }, i32 block)
  | [] =>
      if 2147483647 ≤ db.blocksExist then (db, -1)
      else
        (dbBlockSize { db with blocksExist := u32 (db.blocksExist + 1) },
          i32 db.blocksExist)

def dbLruRemoveNode (db : Db kh) (entry : Nat) : Db kh :=
  { db with lru := db.lru.unlink entry }

def dbLruInsert (db : Db kh) (entry : Nat) : Db kh :=
  { db with lru := db.lru.append entry }

def dbLruHit (db : Db kh) (entry : Nat) : Db kh :=
  dbLruInsert (dbLruRemoveNode db entry) entry

def dbEntryActuallyDelete (db : Db kh) (entry : Nat) : Db kh :=
  let db :=
    if isSingleFile db entry = false ∧ 0 ≤ db.entry.block entry then
      let freed := dbBlockFree db (db.entry.block entry)
      { freed with entry.block := Function.update freed.entry.block entry (-1) }
    else db
  { db with entry.freed := Function.update db.entry.freed entry true }

/-- The registered table is looked up by its hash alone. -/
def dbTableActuallyDelete (db : Db kh) (table : Nat) : Db kh :=
  let k := kh.find db.tables (db.table.hash table)
  { db with
    tables := if k = kh.endIndex db.tables then db.tables
      else kh.del db.tables k
    table.freed := Function.update db.table.freed table true }

def dbTableDeref (db : Db kh) (table : Nat) (actuallyDelete : Bool) : Db kh :=
  let refs := u15 (db.table.refs table + 32767)
  let db := { db with table.refs := Function.update db.table.refs table refs }
  if refs = 0 ∧ (actuallyDelete ∨ db.table.deleted table) then
    dbTableActuallyDelete db table
  else db

def dbTableIncref (db : Db kh) (table : Nat) : Db kh :=
  { db with
    table.refs :=
      Function.update db.table.refs table (u15 (db.table.refs table + 1)) }

def dbEntryDeref (db : Db kh) (entry : Nat) (table : Bool) : Db kh :=
  let db :=
    { db with
      entry.refs :=
        Function.update db.entry.refs entry (u16 (db.entry.refs entry + 65535)) }
  let db :=
    match table, db.entry.table entry with
    | true, some held => dbTableDeref db held false
    | _, _ => db
  if db.entry.refs entry = 0 ∧ db.entry.deleted entry then
    dbEntryActuallyDelete db entry
  else db

def dbEntryIncref (db : Db kh) (entry : Nat) (table : Bool) :
    Except Fault (Db kh) := do
  let db :=
    { db with
      entry.refs :=
        Function.update db.entry.refs entry (u16 (db.entry.refs entry + 1)) }
  if table then
    let held ← entryTable db entry
    return dbTableIncref db held
  else
    return db

end SimpleCache
