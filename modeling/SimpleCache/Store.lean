import SimpleCache.Library.BucketMap
import SimpleCache.Library.ByteFile
import SimpleCache.Library.Links

/-!
# The store: entries, tables, blocks and key files

Heap objects are named by the order in which they were allocated.  The fields
of the `cache_entry` and `db_table` records are kept as one function per
field, so that an assignment to one field visibly leaves the others alone.
Releasing an object marks it and keeps its fields readable: what the code
reads from memory it has freed is the value last stored there.
-/

namespace SimpleCache

abbrev Bytes := List UInt8

/-- `khash_t(entry)` and `khash_t(table)`: 32-bit keys, object pointers as
values. -/
abbrev KHash := BucketMap UInt32 Nat

def blockLength : Nat := 4096
def blockMaxLoad : Nat := 8192
def dbLruEvery : Nat := 50
def dbFlushMinIntervalMs : Nat := 1000
def defaultListingLimit : Nat := 10000

/-- Conversions to the unsigned integer types of the records. -/
def u15 (number : Nat) : Nat := number % 32768
def u16 (number : Nat) : Nat := number % 65536
def u32 (number : Nat) : Nat := number % 4294967296
def u64 (number : Nat) : Nat := number % 18446744073709551616

/-- Conversion of an `int` to `uint32_t`. -/
def u32OfInt (number : Int) : Nat := (number % 4294967296).toNat

/-- Conversion of a `uint32_t` to `int32_t`. -/
def i32 (number : Nat) : Int :=
  if number < 2147483648 then number else (number : Int) - 4294967296

/-- A key file path, as the parts `get_key_path` prints: two directory
letters, the two hashes in hexadecimal with nothing between them, and the
iteration number. -/
structure KeyPath where
  letter1 : Nat
  letter2 : Nat
  hashes : List Char
  it : Nat
  deriving DecidableEq

/-- `cache_target.fd`: no file, the shared block file, or an open key file. -/
inductive Fd
  | closed
  | blockfile
  | file (inode : Nat)
  deriving DecidableEq

/-- The files under `path_root`.  An unlinked key file stays readable through
the descriptors that are open on it. -/
structure Disk where
  paths : KeyPath → Option Nat
  inodes : Nat → ByteFile
  inodeCount : Nat
  blockfile : ByteFile
  indexSave : Option Bytes

/-- `struct cache_entry`, one function per field.  `freed` marks the objects
that `db_entry_actually_delete` released. -/
structure EntryHeap where
  count : Nat
  table : Nat → Option Nat
  hash : Nat → UInt32
  key : Nat → Bytes
  keyLength : Nat → Nat
  writing : Nat → Bool
  deleted : Nat → Bool
  refs : Nat → Nat
  dataLength : Nat → Nat
  block : Nat → Int
  expires : Nat → Int
  it : Nat → Nat
  freed : Nat → Bool

/-- `struct db_table`, one function per field.  `destroyed` marks the tables
whose key map `db_delete_table_entry` destroyed, `freed` those that
`db_table_actually_delete` released. -/
structure TableHeap (kh : KHash) where
  count : Nat
  hash : Nat → UInt32
  key : Nat → Bytes
  keyLength : Nat → Nat
  cacheHashSet : Nat → kh.Map
  refs : Nat → Nat
  deleted : Nat → Bool
  destroyed : Nat → Bool
  freed : Nat → Bool

/-- The variables of the index flush, and the index text that each running
flush child will leave in `index.save`. -/
structure FlushState where
  currentFlush : Nat
  lastFlushMs : Nat
  flushPending : Bool
  children : List Bytes

/-- `struct db_details`, the heap it points into, and the files. -/
structure Db (kh : KHash) where
  entry : EntryHeap
  table : TableHeap kh
  lru : Links Nat
  freeBlocks : List Nat
  blocksExist : Nat
  blocksFree : Nat
  dbSizeBytes : Nat
  dbKeys : Nat
  statsInserts : Nat
  statsGets : Nat
  statsDeletes : Nat
  statsOperations : Nat
  tables : kh.Map
  tableGc : Nat
  nextit : Nat
  currentTime : Int
  currentUsec : Nat
  flush : FlushState
  disk : Disk

/-- What ends a run: reading or destroying a key map that is already
destroyed, following `entry->table` when it is NULL, a loop that does not end,
and reading or writing past a buffer. -/
inductive Fault
  | destroyedKeyMap
  | nullTable
  | endless
  | overrun
  deriving DecidableEq

/-- What the store is configured with.  `bytesToRemove size` is the `int`
that `db_lru_gc` computes in floating point from the size of the store. -/
structure Env where
  kh : KHash
  hashString : Bytes → UInt32
  maxSize : Nat
  bytesToRemove : Nat → Int

variable {kh : KHash}

/-- `IS_SINGLE_FILE`. -/
def isSingleFile (db : Db kh) (entry : Nat) : Bool :=
  blockLength < db.entry.dataLength entry

/-- Follow `entry->table`. -/
def entryTable (db : Db kh) (entry : Nat) : Except Fault Nat :=
  match db.entry.table entry with
  | some table => .ok table
  | none => .error .nullTable

/-- Access `table->cache_hash_set`. -/
def keyMap (db : Db kh) (table : Nat) : Except Fault kh.Map :=
  if db.table.destroyed table then .error .destroyedKeyMap
  else .ok (db.table.cacheHashSet table)

/-- Assign `table->cache_hash_set`. -/
def setKeyMap (db : Db kh) (table : Nat) (map : kh.Map) : Db kh :=
  { db with
    table.cacheHashSet := Function.update db.table.cacheHashSet table map }

end SimpleCache
