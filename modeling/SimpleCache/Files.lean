import SimpleCache.Blocks

/-!
# Key files, targets and space for an upload

Values longer than one block live in files of their own.  A target is the
open file and the byte range that a request reads or writes.
-/

namespace SimpleCache

variable {kh : KHash}

/-- `cache_target` without the entry pointer, which overlays the table
pointer and is kept in the connection. -/
structure Target where
  fd : Fd
  position : Int
  endPosition : Int

/-- What `get_key_path` prints for an entry of the given table. -/
def keyPathIn (db : Db kh) (table entry : Nat) : KeyPath :=
  let hash := (db.entry.hash entry).toNat
  { letter1 := hash % 26
    letter2 := hash / 256 % 26
    hashes := Nat.toDigits 16 (db.table.hash table).toNat ++ Nat.toDigits 16 hash
    it := db.entry.it entry }

def getKeyPath (db : Db kh) (entry : Nat) : Except Fault KeyPath := do
  let table ← entryTable db entry
  return keyPathIn db table entry

/-- `unlink` of a key file. -/
def unlinkPath (db : Db kh) (path : KeyPath) : Db kh :=
  { db with disk.paths := Function.update db.disk.paths path none }

/-- `open` of a path that does not exist, with `O_CREAT`. -/
def createFile (db : Db kh) (path : KeyPath) : Db kh × Fd :=
  let inode := db.disk.inodeCount
  ({ db with
      disk.paths := Function.update db.disk.paths path (some inode)
      disk.inodes := Function.update db.disk.inodes inode ByteFile.empty
      disk.inodeCount := inode + 1 }, .file inode)

def dbEntryOpen (db : Db kh) (entry : Nat) : Except Fault Fd := do
  let path ← getKeyPath db entry
  match db.disk.paths path with
  | some inode => return .file inode
  | none => return .closed

/-- Try `attempts` iteration numbers, starting from the entry's own. -/
def dbEntryOpenCreate (db : Db kh) (entry : Nat) :
    (attempts : Nat) → Except Fault (Db kh × Fd)
  | 0 => return (db, .closed)
  | attempts + 1 => do
      let path ← getKeyPath db entry
      match db.disk.paths path with
      | none => return createFile db path
      | some _ =>
          let it := u16 (db.entry.it entry + 1)
          dbEntryOpenCreate
            { db with entry.it := Function.update db.entry.it entry it }
            entry attempts

def openCreateAttempts : Nat := 65500

def dbTargetOpen (db : Db kh) (entry : Nat) (write : Bool) :
    Except Fault (Db kh × Target) := do
  let length : Int := db.entry.dataLength entry
  if isSingleFile db entry then
    let (db, fd) ←
      if write then dbEntryOpenCreate db entry openCreateAttempts
      else do
        let fd ← dbEntryOpen db entry
        pure (db, fd)
    return (db, { fd, position := 0, endPosition := 0 + length })
  else
    let position := db.entry.block entry * blockLength
    return (db, { fd := .blockfile, position, endPosition := position + length })

def dbEntryDelete (db : Db kh) (entry : Nat) : Except Fault (Db kh) := do
  let path ← getKeyPath db entry
  return unlinkPath db path

/-- Close the target of a request and drop the references it holds. -/
def dbTargetEntryClose (db : Db kh) (entry : Nat) (fd : Fd) :
    Except Fault (Db kh) := do
  let db ←
    match fd with
    | .file _ =>
        if db.entry.writing entry then dbEntryDelete db entry else pure db
    | _ => pure db
  return dbEntryDeref db entry true

/-- `ftruncate` through a descriptor. -/
def truncateFd (db : Db kh) (fd : Fd) (length : Nat) : Db kh :=
  match fd with
  | .closed => db
  | .blockfile => { db with disk.blockfile := db.disk.blockfile.truncate length }
  | .file inode =>
      { db with
        disk.inodes := Function.update db.disk.inodes inode
          ((db.disk.inodes inode).truncate length) }

/-- `write` through a descriptor, at a position it was moved to. -/
def writeFd (db : Db kh) (fd : Fd) (position : Nat) (bytes : Bytes) : Db kh :=
  match fd with
  | .closed => db
  | .blockfile =>
      { db with disk.blockfile := db.disk.blockfile.write position bytes }
  | .file inode =>
      { db with
        disk.inodes := Function.update db.disk.inodes inode
          ((db.disk.inodes inode).write position bytes) }

/-- The file a descriptor reads from. -/
def fileOf (db : Db kh) : Fd → ByteFile
  | .closed => ByteFile.empty
  | .blockfile => db.disk.blockfile
  | .file inode => db.disk.inodes inode

/-- The first half of `db_target_write_allocate`: give up the space that the
new length does not fit, and take a block where it fits one. -/
def chooseStorage (db : Db kh) (entry : Nat) (dataLength : Nat) :
    Except Fault (Db kh) := do
  if db.entry.block entry = -2 then
    if dataLength ≤ blockLength then
      let (db, block) := dbBlockAllocateNew db
      return { db with entry.block := Function.update db.entry.block entry block }
    else
      return db
  else if blockLength < dataLength then
    let db :=
      if isSingleFile db entry = false ∧ 0 ≤ db.entry.block entry then
        dbBlockFree db (db.entry.block entry)
      else db
    return { db with entry.block := Function.update db.entry.block entry (-1) }
  else if isSingleFile db entry then
    let path ← getKeyPath db entry
    let (db, block) := dbBlockAllocateNew (unlinkPath db path)
    return { db with entry.block := Function.update db.entry.block entry block }
  else
    return db

/-- The counters of `db_target_write_allocate`.  The change in length is a
32-bit difference before it is added to the 64-bit size. -/
def countLength (db : Db kh) (entry : Nat) (dataLength : Nat) : Db kh :=
  let db :=
    if db.entry.block entry = -2 then
      { db with
        dbSizeBytes := u64 (db.dbSizeBytes + dataLength)
        entry.block := Function.update db.entry.block entry (-1) }
    else
      { db with
        dbSizeBytes := u64 (db.dbSizeBytes +
          u32 (dataLength + 4294967296 - db.entry.dataLength entry)) }
  { db with
    entry.dataLength := Function.update db.entry.dataLength entry dataLength }

def dbTargetWriteAllocate (db : Db kh) (entry : Nat) (dataLength : Nat) :
    Except Fault (Db kh × Target) := do
  let db ← chooseStorage db entry dataLength
  let db := countLength db entry dataLength
  let (db, target) ← dbTargetOpen db entry true
  if isSingleFile db entry then
    return (truncateFd db target.fd dataLength, target)
  else
    return (db, target)

end SimpleCache
