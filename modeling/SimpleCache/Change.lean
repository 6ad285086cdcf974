import Mathlib.Logic.Relation
import SimpleCache.Server

/-!
# What a step is made of

A handler calls many functions, and each of them changes the store in a few
places.  A `Change` is one such place: what it updates, and what the code has
checked by then.  A step of the server is a sequence of changes, so an
invariant of the server is proved one change at a time.

Three ghost fields say where in a handler the state is: the entry that running
code holds besides the connections, the table whose keys are being removed or
the entry whose storage is being chosen, and how many entries the index
loaded.
-/

namespace SimpleCache

variable {kh : KHash}

/-- The situations in which the code leaves its own design, and `opening`, in
which only the loader is.  Runs that avoid some of them are the subject of the
results. -/
inductive Defect
  | staleDelete
  | clobber
  | entryWrap
  | tableWrap
  | lateLength
  | shrink
  | steal
  | reuse
  | writeFailed
  | tableCollision
  | keyCollision
  | blockCollision
  | keyDrift
  | keyWrap
  | sizeWrap
  | opening
  deriving DecidableEq

/-- What running code holds besides the connections: nothing, a table while
the index is loaded, an entry with or without its table, or an entry that was
just entered for an upload. -/
inductive Aux
  | null
  | table (table : Nat)
  | entry (entry : Nat) (withTable : Bool)
  | entered (entry : Nat)
  deriving DecidableEq

/-- What running code is in the middle of: removing keys of a table that had
some (`keyed`) or none, `uncounted` of them without counting them off, or
choosing the storage of an entry. -/
inductive Pending
  | idle
  | removing (table : Nat) (keyed : Bool) (uncounted : Nat)
  | storing (entry : Nat)
  deriving DecidableEq

/-- A session in the middle of a handler, and the connections beside it. -/
structure Work (kh : KHash) extends Session kh where
  others : Nat → Connection
  current : Nat
  connectionCount : Nat
  loaded : Nat
  aux : Aux
  pending : Pending

namespace Work

def connections (work : Work kh) : Nat → Connection :=
  Function.update work.others work.current work.connection

/-- The server as it is when a handler of a connection starts or ends. -/
def atRest (server : Server kh) (current loaded : Nat) : Work kh where
  toSession := server.session current
  others := server.connections
  current
  connectionCount := server.connectionCount
  loaded
  aux := .null
  pending := .idle

end Work

namespace Db

def decTable (db : Db kh) (table : Nat) : Db kh :=
  { db with
    table.refs := Function.update db.table.refs table
      (u15 (db.table.refs table + 32767)) }

def incEntry (db : Db kh) (entry : Nat) : Db kh :=
  { db with
    entry.refs := Function.update db.entry.refs entry
      (u16 (db.entry.refs entry + 1)) }

def decEntry (db : Db kh) (entry : Nat) : Db kh :=
  { db with
    entry.refs := Function.update db.entry.refs entry
      (u16 (db.entry.refs entry + 65535)) }

def setBlock (db : Db kh) (entry : Nat) (block : Int) : Db kh :=
  { db with entry.block := Function.update db.entry.block entry block }

/-- The block file and the block lists after a block operation. -/
def setBlocks (db : Db kh) (freeBlocks : List Nat)
    (blocksExist blocksFree : Nat) (blockfile : ByteFile) : Db kh :=
  { db with
    freeBlocks, blocksExist, blocksFree
    disk.blockfile := blockfile }

/-- The files after a write or a truncation. -/
def setFiles (db : Db kh) (inodes : Nat → ByteFile) (blockfile : ByteFile) :
    Db kh :=
  { db with
    disk.inodes := inodes
    disk.blockfile := blockfile }

def markFreed (db : Db kh) (entry : Nat) : Db kh :=
  { db with entry.freed := Function.update db.entry.freed entry true }

def setWriting (db : Db kh) (entry : Nat) (writing : Bool) : Db kh :=
  { db with entry.writing := Function.update db.entry.writing entry writing }

/-- What both ways of removing an entry do: remove its file, take it out of
its table and its size out of the total, mark it, and unlink it. -/
def remove (db : Db kh) (table entry index : Nat) : Db kh :=
  { db with
    disk.paths :=
      if isSingleFile db entry then
        Function.update db.disk.paths (keyPathIn db table entry) none
      else db.disk.paths
    entry.deleted := Function.update db.entry.deleted entry true
    table.cacheHashSet := Function.update db.table.cacheHashSet table
      (kh.del (db.table.cacheHashSet table) index)
    dbSizeBytes := u64 (db.dbSizeBytes + 18446744073709551616 -
      db.entry.dataLength entry)
    lru := if db.entry.writing entry then db.lru else db.lru.unlink entry }

/-- Count a key off, or not. -/
def countOff (db : Db kh) (counted : Bool) : Db kh :=
  { db with
    dbKeys :=
      bif counted then u64 (db.dbKeys + 18446744073709551615) else db.dbKeys }

/-- Count a key, or not. -/
def countOn (db : Db kh) (counted : Bool) : Db kh :=
  { db with dbKeys := bif counted then u64 (db.dbKeys + 1) else db.dbKeys }

def doom (db : Db kh) (table : Nat) : Db kh :=
  { db with table.deleted := Function.update db.table.deleted table true }

def destroy (db : Db kh) (table : Nat) : Db kh :=
  { db with
    table.destroyed := Function.update db.table.destroyed table true
    tables :=
      if db.table.refs table = 0 then db.tables
      else kh.del db.tables (kh.find db.tables (db.table.hash table)) }

def detach (db : Db kh) (entry : Nat) : Db kh :=
  { db with entry.table := Function.update db.entry.table entry none }

/-- Enter a new entry under its key, with one reference; the first entry of a
table takes a reference to the table. -/
def enter (db : Db kh) (table : Nat) (new : NewEntry) (first : Bool) : Db kh :=
  let created := (dbEntryNew db table new).1
  { created with
    table.refs :=
      if first then
        Function.update db.table.refs table (u15 (db.table.refs table + 1))
      else db.table.refs
    table.cacheHashSet := Function.update db.table.cacheHashSet table
      (kh.put (db.table.cacheHashSet table) new.hash db.entry.count)
    entry.refs := Function.update db.entry.refs db.entry.count 1 }

/-- Count a new length, and give up the mark of an entry without storage. -/
def setLength (db : Db kh) (entry length : Nat) : Db kh :=
  { db with
    dbSizeBytes := u64 (db.dbSizeBytes +
      if db.entry.block entry = -2 then length
      else u32 (length + 4294967296 - db.entry.dataLength entry))
    entry.block := Function.update db.entry.block entry
      (if db.entry.block entry = -2 then -1 else db.entry.block entry)
    entry.dataLength := Function.update db.entry.dataLength entry length }

/-- End the upload of an entry, which is listed unless it is deleted. -/
def complete (db : Db kh) (entry : Nat) : Db kh :=
  { db with
    entry.writing := Function.update db.entry.writing entry false
    lru :=
      if db.entry.deleted entry then db.lru else db.lru.append entry }

def setIt (db : Db kh) (entry it : Nat) : Db kh :=
  { db with entry.it := Function.update db.entry.it entry it }

end Db

theorem dbBlockFree_eq (db : Db kh) (block : Int) :
    ∃ freeBlocks blocksExist blocksFree blockfile,
      dbBlockFree db block =
        db.setBlocks freeBlocks blocksExist blocksFree blockfile := by
  unfold dbBlockFree
  split
  · exact ⟨_, _, _, _, rfl⟩
  · exact ⟨_, _, _, db.disk.blockfile, rfl⟩

section Blocks

variable {db : Db kh}

/-- Whether a free of this block shrinks the block file. -/
abbrev Shrinks (db : Db kh) (value : Int) : Prop :=
  u32 (u32OfInt value + 1) = db.blocksExist ∧ 256 < db.blocksFree

theorem dbBlockSize_freeBlocks :
    (dbBlockSize db).freeBlocks = db.freeBlocks := rfl

theorem dbBlockSize_blocksFree :
    (dbBlockSize db).blocksFree = db.blocksFree := rfl

theorem dbBlockFree_freeBlocks (value : Int) :
    (dbBlockFree db value).freeBlocks =
      if Shrinks db value then db.freeBlocks
      else u32OfInt value :: db.freeBlocks := by
  unfold dbBlockFree
  by_cases shrinks : Shrinks db value
  · rw [if_pos shrinks, if_pos shrinks]
    exact dbBlockSize_freeBlocks
  · rw [if_neg shrinks, if_neg shrinks]

theorem dbBlockFree_blocksExist (value : Int) :
    (dbBlockFree db value).blocksExist =
      if Shrinks db value then u32 (db.blocksExist + 4294967295)
      else db.blocksExist := by
  unfold dbBlockFree
  by_cases shrinks : Shrinks db value
  · rw [if_pos shrinks, if_pos shrinks]
    rfl
  · rw [if_neg shrinks, if_neg shrinks]

theorem dbBlockFree_blocksFree (value : Int) :
    (dbBlockFree db value).blocksFree =
      if Shrinks db value then db.blocksFree
      else u32 (db.blocksFree + 1) := by
  unfold dbBlockFree
  by_cases shrinks : Shrinks db value
  · rw [if_pos shrinks, if_pos shrinks]
    exact dbBlockSize_blocksFree
  · rw [if_neg shrinks, if_neg shrinks]

theorem dbBlockFree_entry (value : Int) :
    (dbBlockFree db value).entry = db.entry := by
  obtain ⟨_, _, _, _, isSet⟩ := dbBlockFree_eq db value
  rw [isSet]
  rfl

end Blocks

theorem dbBlockAllocateNew_eq (db : Db kh) :
    ∃ freeBlocks blocksExist blocksFree blockfile block,
      dbBlockAllocateNew db =
        (db.setBlocks freeBlocks blocksExist blocksFree blockfile, block) := by
  unfold dbBlockAllocateNew
  split
  · exact ⟨_, _, _, db.disk.blockfile, _, rfl⟩
  · split
    · exact ⟨_, _, _, db.disk.blockfile, _, rfl⟩
    · exact ⟨_, _, _, _, _, rfl⟩

/-- Blanking the store affects its blocks only. -/
theorem blankDb_eq (db : Db kh) :
    ∃ freeBlocks blocksExist blocksFree blockfile,
      blankDb db =
        db.setBlocks freeBlocks blocksExist blocksFree blockfile := by
  have freed : ∀ (blocks : List Nat) (start : Db kh),
      (∃ freeBlocks blocksExist blocksFree blockfile,
        start = db.setBlocks freeBlocks blocksExist blocksFree blockfile) →
      ∃ freeBlocks blocksExist blocksFree blockfile,
        blocks.foldl (fun db block => dbBlockFree db (i32 block)) start =
          db.setBlocks freeBlocks blocksExist blocksFree blockfile := by
    intro blocks
    induction blocks with
    | nil => exact fun _ isSet => isSet
    | cons block blocks ih =>
        rintro _ ⟨freeBlocks, blocksExist, blocksFree, blockfile, rfl⟩
        apply ih
        obtain ⟨freeAfter, existAfter, countAfter, fileAfter, eq⟩ :=
          dbBlockFree_eq
            (db.setBlocks freeBlocks blocksExist blocksFree blockfile)
            (i32 block)
        exact ⟨freeAfter, existAfter, countAfter, fileAfter, eq⟩
  have counted : ∀ start : Db kh,
      (∃ freeBlocks blocksExist blocksFree blockfile,
        start = db.setBlocks freeBlocks blocksExist blocksFree blockfile) →
      ∃ freeBlocks blocksExist blocksFree blockfile,
        { start with blocksFree := start.blocksExist } =
          db.setBlocks freeBlocks blocksExist blocksFree blockfile := by
    rintro _ ⟨freeBlocks, blocksExist, blocksFree, blockfile, rfl⟩
    exact ⟨freeBlocks, blocksExist, blocksExist, blockfile, rfl⟩
  unfold blankDb
  dsimp only
  apply counted
  apply freed
  split
  · split
    · exact ⟨_, _, _, _, rfl⟩
    · exact ⟨_, _, _, _, rfl⟩
  · split
    · exact ⟨_, _, _, _, rfl⟩
    · exact ⟨_, _, _, _, rfl⟩
theorem writeFd_eq (db : Db kh) (fd : Fd) (position : Nat) (bytes : Bytes) :
    ∃ inodes blockfile,
      writeFd db fd position bytes = db.setFiles inodes blockfile := by
  cases fd with
  | closed => exact ⟨db.disk.inodes, db.disk.blockfile, rfl⟩
  | blockfile => exact ⟨db.disk.inodes, _, rfl⟩
  | file inode => exact ⟨_, db.disk.blockfile, rfl⟩

/-- The key map of a table holds this entry. -/
def Holds (db : Db kh) (table entry : Nat) : Prop :=
  ∃ hash, kh.lookup (db.table.cacheHashSet table) hash = some entry

/-- Whether another undeleted entry expects its file under this path. -/
def Expected (db : Db kh) (entry : Nat) (path : KeyPath) : Prop :=
  ∃ other table, other ≠ entry ∧ other < db.entry.count ∧
    db.entry.deleted other = false ∧ isSingleFile db other ∧
    db.entry.table other = some table ∧ keyPathIn db table other = path

/-- The key file of an index entry, when no two table names share a hash. -/
def IndexEntry.path (hashString : Bytes → UInt32) (named : IndexEntry) :
    KeyPath :=
  let hash := (hashString named.key).toNat
  { letter1 := hash % 26
    letter2 := hash / 256 % 26
    hashes := Nat.toDigits 16 (hashString named.table).toNat ++
      Nat.toDigits 16 hash
    it := named.it }

/-- The saved index and those that flush children are about to save. -/
def indexes (db : Db kh) : List Bytes :=
  db.disk.indexSave.toList ++ db.flush.children

def NamesBlock (db : Db kh) (block : Int) : Prop :=
  ∃ text ∈ indexes db, ∃ named ∈ readIndex text, named.block = block

def NamesFile (hashString : Bytes → UInt32) (db : Db kh) (path : KeyPath) :
    Prop :=
  ∃ text ∈ indexes db, ∃ named ∈ readIndex text,
    named.block < 0 ∧ named.path hashString = path

variable (hashString : Bytes → UInt32) (allowed : Defect → Prop)

inductive Change : Work kh → Work kh → Prop
  /-- Counters, cursors and times that no other part depends on. -/
  | bookkeep (work : Work kh) (statsInserts statsGets statsDeletes
      statsOperations tableGc nextit currentFlush lastFlushMs : Nat)
      (flushPending : Bool) (expires : Nat → Int) :
      Change work { work with
        db := { work.db with
          statsInserts, statsGets, statsDeletes, statsOperations
          tableGc, nextit
          flush.currentFlush := currentFlush
          flush.lastFlushMs := lastFlushMs
          flush.flushPending := flushPending
          entry.expires := expires } }
  /-- A flush child starts with the index of the store. -/
  | fork (work : Work kh) (text : Bytes) (isIndex : indexText work.db = .ok text) :
      Change work { work with
        db.flush.children := work.db.flush.children ++ [text] }
  /-- The connection goes on; what it holds and writes stays. -/
  | talk (work : Work kh) (connection : Connection)
      (sameTarget : connection.target = work.connection.target)
      (sameWriting : connection.isWriting = work.connection.isWriting)
      (sameFile : connection.target = .null ∨
        connection.fd = work.connection.fd)
      (samePosition : connection.isWriting = true →
        connection.position = work.connection.position ∧
          connection.endPosition = work.connection.endPosition) :
      Change work { work with connection }
  -- Tables and their references.
  | takeTable (work : Work kh) (table : Nat)
      (null : work.connection.target = .null)
      (registered : ∃ hash, kh.lookup work.db.tables hash = some table)
      (fits : work.db.table.refs table ≠ 32767 ∨ allowed .tableWrap) :
      Change work { work with
        db := dbTableIncref work.db table
        connection.target := .table table }
  | createTable (work : Work kh) (name : Bytes) (hash : UInt32)
      (null : work.connection.target = .null)
      (unused : kh.lookup work.db.tables hash = none)
      (probed : hash = hashString name ∨ allowed .tableCollision)
      (short : name.length < 16384) :
      Change work { work with
        db := (dbTableNew work.db name hash).1
        connection.target := .table work.db.table.count }
  | dropTable (work : Work kh) (table : Nat)
      (held : work.connection.target = .table table) :
      Change work { work with
        db := work.db.decTable table
        connection.target := .null }
  /-- A bulk delete that took the table away forgets its reference. -/
  | forgetTable (work : Work kh) (table : Nat)
      (held : work.connection.target = .table table)
      (gone : work.db.table.destroyed table = true) :
      Change work { work with connection.target := .null }
  | freeTable (work : Work kh) (table : Nat)
      (idle : work.pending = .idle)
      (unheld : work.db.table.refs table = 0)
      (isDeleted : work.db.table.deleted table = true)
      (alone : (∀ other,
        kh.lookup work.db.tables (work.db.table.hash table) = some other →
          other = table) ∨ allowed .clobber) :
      Change work { work with
        db := dbTableActuallyDelete work.db table }
  | loadTakeTable (work : Work kh) (table : Nat)
      (null : work.aux = .null)
      (registered : ∃ hash, kh.lookup work.db.tables hash = some table)
      (fits : work.db.table.refs table ≠ 32767 ∨ allowed .tableWrap)
      (opening : allowed .opening) :
      Change work { work with
        db := dbTableIncref work.db table
        aux := .table table }
  | loadCreateTable (work : Work kh) (name : Bytes) (hash : UInt32)
      (null : work.aux = .null)
      (unused : kh.lookup work.db.tables hash = none)
      (probed : hash = hashString name ∨ allowed .tableCollision)
      (short : name.length < 16384)
      (opening : allowed .opening) :
      Change work { work with
        db := (dbTableNew work.db name hash).1
        aux := .table work.db.table.count }
  | loadDropTable (work : Work kh) (table : Nat)
      (held : work.aux = .table table)
      (opening : allowed .opening) :
      Change work { work with
        db := work.db.decTable table
        aux := .null }
  /-- A table line without entries leaves no table. -/
  | loadFreeTable (work : Work kh) (table : Nat)
      (null : work.aux = .null) (idle : work.pending = .idle)
      (untouched : ∀ other, (work.connections other).target = .null)
      (unused : ∀ entry, work.db.entry.table entry ≠ some table)
      (unheld : work.db.table.refs table = 0)
      (empty : kh.size (work.db.table.cacheHashSet table) = 0)
      (registered :
        kh.lookup work.db.tables (work.db.table.hash table) = some table)
      (opening : allowed .opening) :
      Change work { work with db := dbTableActuallyDelete work.db table }
  -- References to entries.
  | take (work : Work kh) (entry : Nat)
      (null : work.aux = .null)
      (inTable : work.db.entry.table entry ≠ none)
      (fits : work.db.entry.refs entry ≠ 65535 ∨ allowed .entryWrap) :
      Change work { work with
        db := work.db.incEntry entry
        aux := .entry entry false }
  | takeWithTable (work : Work kh) (entry table : Nat)
      (null : work.aux = .null)
      (inTable : work.db.entry.table entry = some table)
      (fits : work.db.entry.refs entry ≠ 65535 ∨ allowed .entryWrap)
      (tableFits : work.db.table.refs table ≠ 32767 ∨ allowed .tableWrap) :
      Change work { work with
        db := dbTableIncref (work.db.incEntry entry) table
        aux := .entry entry true }
  | drop (work : Work kh) (entry : Nat) (withTable : Bool)
      (held : work.aux = .entry entry withTable)
      (tableKept : withTable = true → work.db.entry.table entry = none) :
      Change work { work with
        db := work.db.decEntry entry
        aux := .null }
  | dropWithTable (work : Work kh) (entry table : Nat)
      (held : work.aux = .entry entry true)
      (inTable : work.db.entry.table entry = some table) :
      Change work { work with
        db := (work.db.decEntry entry).decTable table
        aux := .null }
  /-- The connection holds the entry in place of its table. -/
  | claim (work : Work kh) (entry table : Nat)
      (held : work.aux = .entry entry false)
      (heldTable : work.connection.target = .table table)
      (inTable : work.db.entry.table entry = some table) :
      Change work { work with
        connection := { work.connection with target := .entry entry }
        aux := .null }
  /-- The connection that entered an entry becomes its writer. -/
  | claimWrite (work : Work kh) (entry table : Nat)
      (held : work.aux = .entered entry)
      (heldTable : work.connection.target = .table table)
      (inTable : work.db.entry.table entry = some table)
      (alone : ∀ other, (work.connections other).target ≠ .entry entry) :
      Change work { work with
        connection :=
          { work.connection with
            target := .entry entry
            fd := .closed
            isWriting := true }
        aux := .null }
  | release (work : Work kh) (entry table : Nat)
      (held : work.connection.target = .entry entry)
      (notWriting : work.connection.isWriting = false)
      (inTable : work.db.entry.table entry = some table) :
      Change work { work with
        db := (work.db.decEntry entry).decTable table
        connection := { work.connection with target := .null } }
  | releaseDetached (work : Work kh) (entry : Nat)
      (held : work.connection.target = .entry entry)
      (notWriting : work.connection.isWriting = false)
      (detached : work.db.entry.table entry = none) :
      Change work { work with
        db := work.db.decEntry entry
        connection := { work.connection with target := .null } }
  | freeBlock (work : Work kh) (entry : Nat) (freeBlocks : List Nat)
      (blocksExist blocksFree : Nat) (blockfile : ByteFile)
      (unheld : work.db.entry.refs entry = 0)
      (isDeleted : work.db.entry.deleted entry = true)
      (inBlock : isSingleFile work.db entry = false)
      (owned : 0 ≤ work.db.entry.block entry)
      (freed : dbBlockFree work.db (work.db.entry.block entry) =
        work.db.setBlocks freeBlocks blocksExist blocksFree blockfile) :
      Change work { work with
        db := (work.db.setBlocks freeBlocks blocksExist blocksFree
          blockfile).setBlock entry (-1) }
  | free (work : Work kh) (entry : Nat)
      (unheld : work.db.entry.refs entry = 0)
      (isDeleted : work.db.entry.deleted entry = true)
      (unowned : isSingleFile work.db entry = true ∨
        work.db.entry.block entry < 0) :
      Change work { work with db := work.db.markFreed entry }
  -- Removing entries and tables.
  | beginRemoval (work : Work kh) (table : Nat)
      (idle : work.pending = .idle)
      (allocated : table < work.db.table.count)
      (present : work.db.table.destroyed table = false)
      (reached : work.connection.target = .table table ∨
        ∃ entry, work.db.entry.table entry = some table) :
      Change work { work with
        pending := .removing table
          (decide (kh.size (work.db.table.cacheHashSet table) ≠ 0)) 0 }
  /-- Replacements and table deletions do not count the keys off. -/
  | remove (work : Work kh) (table entry index : Nat) (keyed : Bool)
      (uncounted : Nat) (counted : Bool)
      (removing : work.pending = .removing table keyed uncounted)
      (inTable : work.db.entry.table entry = some table)
      (present : work.db.table.destroyed table = false)
      (found : kh.value (work.db.table.cacheHashSet table) index = some entry ∨
        index = kh.find (work.db.table.cacheHashSet table)
          (work.db.entry.hash entry))
      (fresh : work.db.entry.deleted entry = false ∨
        Holds work.db table entry ∨ allowed .staleDelete) :
      Change work { work with
        db := (work.db.remove table entry index).countOff counted
        pending := .removing table keyed
          (bif counted then uncounted else uncounted + 1) }
  | keepTable (work : Work kh) (table : Nat)
      (removing : work.pending = .removing table true 0)
      (live : work.db.table.deleted table = false)
      (keyed : kh.size (work.db.table.cacheHashSet table) ≠ 0) :
      Change work { work with pending := .idle }
  | doom (work : Work kh) (table : Nat) (keyed : Bool) (uncounted : Nat)
      (removing : work.pending = .removing table keyed uncounted) :
      Change work { work with db := work.db.doom table }
  | destroy (work : Work kh) (table : Nat) (keyed : Bool) (uncounted : Nat)
      (removing : work.pending = .removing table keyed uncounted)
      (isDeleted : work.db.table.deleted table = true)
      (removed : ∀ entry, Holds work.db table entry →
        work.db.entry.deleted entry = true)
      (counted : uncounted = 0 ∨ allowed .keyDrift) :
      Change work { work with
        db := (work.db.destroy table).decTable table
        pending := .idle }
  | detach (work : Work kh) (entry table : Nat)
      (inTable : work.db.entry.table entry = some table)
      (gone : work.db.table.destroyed table = true)
      (isDeleted : work.db.entry.deleted entry = true) :
      Change work { work with db := work.db.detach entry }
  -- Entries.
  | enter (work : Work kh) (table : Nat) (new : NewEntry)
      (first counted : Bool)
      (null : work.aux = .null)
      (live : work.db.table.deleted table = false)
      (held : work.connection.target = .table table)
      (empty : new.dataLength = 0 ∧ new.block = -2)
      (keyed : (work.pending = .idle ∧ counted = true ∧
          first = decide (kh.size (work.db.table.cacheHashSet table) = 0)) ∨
        (work.pending = .removing table true 1 ∧ counted = false ∧
          first = false))
      (room : counted = true → work.db.dbKeys + 1 < 18446744073709551616 ∨
        allowed .keyWrap)
      (unused : kh.lookup (work.db.table.cacheHashSet table) new.hash = none)
      (fits : first = true →
        work.db.table.refs table ≠ 32767 ∨ allowed .tableWrap) :
      Change work { work with
        db := ((work.db.enter table new first).setWriting
          work.db.entry.count true).countOn counted
        aux := .entered work.db.entry.count
        pending := .idle }
  | load (work : Work kh) (table : Nat) (new : NewEntry) (it : Nat)
      (held : work.aux = .table table)
      (live : work.db.table.deleted table = false)
      (unloaded : work.loaded = work.db.entry.count)
      (placed : new.block < 0 ∨
        (new.block < work.db.blocksExist ∧
          (∀ entry, work.db.entry.block entry ≠ new.block) ∧
          new.block.toNat ∉ work.db.freeBlocks) ∨ allowed .blockCollision)
      (unused :
        kh.lookup (work.db.table.cacheHashSet table) new.hash = none ∨
          allowed .keyCollision)
      (fits : kh.size (work.db.table.cacheHashSet table) = 0 →
        work.db.table.refs table ≠ 32767 ∨ allowed .tableWrap)
      (room : work.db.dbKeys + 1 < 18446744073709551616 ∨ allowed .keyWrap)
      (sizes : work.db.dbSizeBytes + new.dataLength < 18446744073709551616 ∨
        allowed .sizeWrap)
      (opening : allowed .opening) :
      Change work { work with
        db := dbLruInsert
          { (work.db.enter table new
              (decide (kh.size (work.db.table.cacheHashSet table) = 0))).setIt
                work.db.entry.count it with
            dbSizeBytes := u64 (work.db.dbSizeBytes + new.dataLength)
            dbKeys := u64 (work.db.dbKeys + 1) }
          work.db.entry.count
        loaded := work.db.entry.count + 1 }
  | hit (work : Work kh) (entry table : Nat)
      (held : Holds work.db table entry)
      (complete : work.db.entry.writing entry = false) :
      Change work { work with db := dbLruHit work.db entry }
  | skip (work : Work kh) (entry : Nat)
      (head : work.db.lru.head = some entry)
      (unlisted : work.db.entry.writing entry = true ∨
        work.db.entry.deleted entry = true) :
      Change work { work with db := dbLruRemoveNode work.db entry }
  | complete (work : Work kh) (entry : Nat)
      (held : work.connection.target = .entry entry)
      (isWriting : work.connection.isWriting = true)
      (written : work.connection.position = work.connection.endPosition) :
      Change work { work with
        db := work.db.complete entry
        connection := { work.connection with isWriting := false }
        completions :=
          work.completions ++ [completion work.toSession entry] }
  | abandon (work : Work kh) (entry : Nat)
      (held : work.connection.target = .entry entry)
      (isWriting : work.connection.isWriting = true)
      (isDeleted : work.db.entry.deleted entry = true) :
      Change work { work with
        db := work.db.setWriting entry false
        connection := { work.connection with isWriting := false } }
  -- Storage.
  | freeUnused (work : Work kh) (block : Nat) (freeBlocks : List Nat)
      (blocksExist blocksFree : Nat) (blockfile : ByteFile)
      (exists_ : block < work.db.blocksExist)
      (unowned : ∀ entry, work.db.entry.block entry ≠ block)
      (unlisted : block ∉ work.db.freeBlocks)
      (freed : dbBlockFree work.db (i32 block) =
        work.db.setBlocks freeBlocks blocksExist blocksFree blockfile)
      (opening : allowed .opening) :
      Change work { work with
        db := work.db.setBlocks freeBlocks blocksExist blocksFree blockfile }
  | openRead (work : Work kh) (entry : Nat) (target : Target)
      (held : work.connection.target = .entry entry)
      (reads : work.connection.isWriting = false)
      (opened : dbTargetOpen work.db entry false = .ok (work.db, target)) :
      Change work { work with
        connection :=
          { work.connection with
            fd := target.fd
            position := target.position
            endPosition := target.endPosition } }
  | unlinkOpen (work : Work kh) (entry table : Nat)
      (held : work.connection.target = .entry entry)
      (inTable : work.db.entry.table entry = some table) :
      Change work { work with
        db := unlinkPath work.db (keyPathIn work.db table entry) }
  | beginStoring (work : Work kh) (entry : Nat)
      (idle : work.pending = .idle)
      (held : work.connection.target = .entry entry)
      (isWriting : work.connection.isWriting = true) :
      Change work { work with
        connection := { work.connection with fd := .closed }
        pending := .storing entry }
  | acquireBlock (work : Work kh) (entry : Nat) (freeBlocks : List Nat)
      (blocksExist blocksFree : Nat) (blockfile : ByteFile) (block : Int)
      (storing : work.pending = .storing entry)
      (unowned : work.db.entry.block entry < 0 ∨ isSingleFile work.db entry)
      (unstored : work.db.entry.block entry = -2 ∨ allowed .shrink)
      (allocated : dbBlockAllocateNew work.db =
        (work.db.setBlocks freeBlocks blocksExist blocksFree blockfile, block))
      (unnamed : ¬NamesBlock work.db block ∨ allowed .reuse) :
      Change work { work with
        db := (work.db.setBlocks freeBlocks blocksExist blocksFree
          blockfile).setBlock entry block }
  | releaseBlock (work : Work kh) (entry : Nat) (freeBlocks : List Nat)
      (blocksExist blocksFree : Nat) (blockfile : ByteFile)
      (storing : work.pending = .storing entry)
      (inBlock : isSingleFile work.db entry = false)
      (owned : 0 ≤ work.db.entry.block entry)
      (freed : dbBlockFree work.db (work.db.entry.block entry) =
        work.db.setBlocks freeBlocks blocksExist blocksFree blockfile) :
      Change work { work with
        db := (work.db.setBlocks freeBlocks blocksExist blocksFree
          blockfile).setBlock entry (-1) }
  | noBlock (work : Work kh) (entry : Nat)
      (storing : work.pending = .storing entry)
      (unowned : work.db.entry.block entry < 0 ∨ isSingleFile work.db entry) :
      Change work { work with db := work.db.setBlock entry (-1) }
  | setLength (work : Work kh) (entry length : Nat)
      (storing : work.pending = .storing entry)
      (bounded : length < 2147483648)
      (fits : length ≤ blockLength ∨ work.db.entry.block entry < 0)
      (live : work.db.entry.deleted entry = false ∨ allowed .lateLength)
      (grows : work.db.entry.dataLength entry ≤ length ∨ allowed .shrink)
      (sizes : work.db.dbSizeBytes + length <
          18446744073709551616 + work.db.entry.dataLength entry ∨
        allowed .sizeWrap) :
      Change work { work with db := work.db.setLength entry length }
  | nextPath (work : Work kh) (entry : Nat)
      (storing : work.pending = .storing entry) :
      Change work { work with
        db := work.db.setIt entry (u16 (work.db.entry.it entry + 1)) }
  | createFile (work : Work kh) (entry table : Nat)
      (storing : work.pending = .storing entry)
      (held : work.connection.target = .entry entry)
      (inTable : work.db.entry.table entry = some table)
      (unused : work.db.disk.paths (keyPathIn work.db table entry) = none)
      (unclaimed : ¬Expected work.db entry (keyPathIn work.db table entry) ∨
        allowed .steal)
      (unnamed : ¬NamesFile hashString work.db (keyPathIn work.db table entry) ∨
        allowed .reuse) :
      Change work { work with
        db := (createFile work.db (keyPathIn work.db table entry)).1
        connection :=
          { work.connection with
            fd := (createFile work.db (keyPathIn work.db table entry)).2 } }
  | truncateFile (work : Work kh) (inode length : Nat)
      (isWriting : work.connection.isWriting = true)
      (opened : work.connection.fd = .file inode) :
      Change work { work with
        db := truncateFd work.db (.file inode) length }
  /-- Storage is chosen: a block in the block file, a fresh key file, or
  nothing that can be written. -/
  | endStoring (work : Work kh) (entry : Nat) (fd : Fd) (position : Int)
      (storing : work.pending = .storing entry)
      (chosen : fd = if isSingleFile work.db entry then work.connection.fd
        else .blockfile)
      (placed : position = if isSingleFile work.db entry then 0
        else work.db.entry.block entry * blockLength) :
      Change work { work with
        connection :=
          { work.connection with
            fd
            position
            endPosition := position + work.db.entry.dataLength entry }
        pending := .idle }
  | write (work : Work kh) (bytes : Bytes) (inodes : Nat → ByteFile)
      (blockfile : ByteFile)
      (isWriting : work.connection.isWriting = true)
      (opened : work.connection.fd ≠ .closed)
      (placed : 0 ≤ work.connection.position)
      (within : (bytes.length : Int) ≤
        toInt (work.connection.endPosition - work.connection.position))
      (written : writeFd work.db work.connection.fd
        work.connection.position.toNat bytes =
          work.db.setFiles inodes blockfile) :
      Change work { work with
        db := work.db.setFiles inodes blockfile
        connection :=
          { work.connection with
            position := work.connection.position + bytes.length } }
  | writeFails (work : Work kh) (failed : allowed .writeFailed) :
      Change work { work with
        connection.position := work.connection.position - 1 }

/-- A sequence of changes. -/
abbrev Changes : Work kh → Work kh → Prop :=
  Relation.ReflTransGen (Change hashString allowed)

end SimpleCache
