import SimpleCache.Lookup

/-!
# The index file and opening a database

`index.save` lists the tables and the entries that are neither being written
nor deleted, one line each.  Opening a database reads it back against the
block file and the key files that exist; without an index the database starts
empty and every block is free.
-/

namespace SimpleCache

variable {kh : KHash}

def charByte (char : Char) : UInt8 := UInt8.ofNat char.toNat

/-- `%u`. -/
def printNat (number : Nat) : Bytes := (Nat.toDigits 10 number).map charByte

/-- `%d`. -/
def printInt (number : Int) : Bytes :=
  if number < 0 then charByte '-' :: printNat number.natAbs
  else printNat number.natAbs

/-- What `snprintf` prints before the key of an entry. -/
def entryHead (db : Db kh) (entry : Nat) : Bytes :=
  [charByte (if 0 ≤ db.entry.block entry then 'b' else 'e'), charByte ':'] ++
    printInt (db.entry.block entry) ++ [charByte ':'] ++
    printNat (db.entry.dataLength entry) ++ [charByte ':'] ++
    printNat (db.entry.expires entry % 18446744073709551616).toNat ++
    [charByte ':'] ++ printNat (db.entry.it entry) ++ [charByte ':']

def entryLine (db : Db kh) (entry : Nat) : Bytes :=
  entryHead db entry ++
    (db.entry.key entry).take (db.entry.keyLength entry) ++ [charByte '\n']

def tableLine (db : Db kh) (table : Nat) : Bytes :=
  [charByte 't', charByte ':'] ++
    (db.table.key table).take (db.table.keyLength table) ++ [charByte '\n']

/-- The line of one entry, if the index has one. -/
def flushEntry (db : Db kh) (entry : Nat) : Bytes :=
  if db.entry.writing entry ∨ db.entry.deleted entry then []
  else entryLine db entry

def flushTable (db : Db kh) (table : Nat) : Except Fault Bytes := do
  if db.table.deleted table then
    return []
  let set ← keyMap db table
  return tableLine db table ++ (kh.values set).flatMap (flushEntry db)

/-- The text that a flush child writes from its copy of the store. -/
def indexText (db : Db kh) : Except Fault Bytes := do
  let lines ← (kh.values db.tables).mapM (flushTable db)
  return lines.flatten

/-- What one line of the index asks for. -/
inductive IndexLine
  | table (name : Bytes)
  | entry (block : Int) (dataLength expires it : Nat) (key : Bytes)
  | ignored

/-- Lines as `getline` returns them, with their newline. -/
def splitLines : Bytes → List Bytes
  | [] => []
  | byte :: rest =>
      if byte = charByte '\n' then
        [byte] :: splitLines rest
      else
        match splitLines rest with
        | [] => [[byte]]
        | line :: lines => (byte :: line) :: lines

def isSpace (byte : UInt8) : Bool :=
  byte = 32 ∨ (9 ≤ byte ∧ byte ≤ 13)

def isDigit (byte : UInt8) : Bool := 48 ≤ byte ∧ byte ≤ 57

def digitsValue (digits : Bytes) : Nat :=
  digits.foldl (fun value digit => 10 * value + (digit.toNat - 48)) 0

/-- The literal `:` of a format. -/
def scanColon : Bytes → Option Bytes
  | byte :: rest => if byte = charByte ':' then some rest else none
  | [] => none

/-- Optional white space, optional sign and at least one digit. -/
def scanInteger (text : Bytes) : Option (Int × Bytes) :=
  let text := text.dropWhile isSpace
  let (negative, text) :=
    match text with
    | byte :: rest =>
        if byte = charByte '-' then (true, rest)
        else if byte = charByte '+' then (false, rest)
        else (false, text)
    | [] => (false, text)
  let digits := text.takeWhile isDigit
  if digits = [] then none
  else
    let value : Int := digitsValue digits
    some (if negative then -value else value, text.dropWhile isDigit)

/-- `%d`: the value as a `long`, cut to its low 32 bits. -/
def scanInt32 (text : Bytes) : Option (Int × Bytes) :=
  (scanInteger text).map fun (value, rest) =>
    let clamped := max (-9223372036854775808) (min value 9223372036854775807)
    (i32 (u32OfInt clamped), rest)

/-- `%u`: the value as an `unsigned long`, cut to its low 32 bits. -/
def scanUInt32 (text : Bytes) : Option (Nat × Bytes) :=
  (scanInteger text).map fun (value, rest) =>
    (if 18446744073709551615 < value.natAbs then 4294967295
      else u32OfInt value, rest)

/-- `%s`: white space, then a word that is not empty. -/
def scanWord (text : Bytes) : Option Bytes :=
  let word := (text.dropWhile isSpace).takeWhile (!isSpace ·)
  if word = [] then none else some word

/-- The format `:%d:%u:%u:%u:%s`. -/
def scanEntry (text : Bytes) : Option IndexLine := do
  let (block, text) ← scanInt32 (← scanColon text)
  let (dataLength, text) ← scanUInt32 (← scanColon text)
  let (expires, text) ← scanUInt32 (← scanColon text)
  let (it, text) ← scanUInt32 (← scanColon text)
  let key ← scanWord (← scanColon text)
  return .entry block dataLength expires (u16 it) key

def parseLine (line : Bytes) : IndexLine :=
  if line.length ≤ 2 then .ignored
  else
    match line with
    | kind :: colon :: _ =>
        let text := line.takeWhile (· != 0)
        if colon ≠ charByte ':' then .ignored
        else if kind = charByte 't' then
          match scanWord (text.drop 2) with
          | some name => .table name
          | none => .ignored
        else if kind = charByte 'b' ∨ kind = charByte 'e' then
          (scanEntry (text.drop 1)).getD .ignored
        else .ignored
    | _ => .ignored

/-- An entry as an index describes it: a line and the table line above it. -/
structure IndexEntry where
  table : Bytes
  key : Bytes
  block : Int
  dataLength : Nat
  expires : Nat
  it : Nat
  deriving DecidableEq

/-- The entries that a list of lines describes, below the given table line. -/
def readLines : Option Bytes → List Bytes → List IndexEntry
  | _, [] => []
  | table, line :: lines =>
      match parseLine line, table with
      | .table name, _ => readLines (some name) lines
      | .entry block dataLength expires it key, some name =>
          { table := name, key, block, dataLength, expires, it } ::
            readLines table lines
      | _, _ => readLines table lines

def readIndex (text : Bytes) : List IndexEntry :=
  readLines none (splitLines text)

/-- The variables of the loading loop: the table of the last table line and
the blocks that loaded entries use. -/
structure Loading (kh : KHash) where
  db : Db kh
  table : Option Nat
  blockInUse : List Nat

def dbLoadFromSaveInsert (db : Db kh) (table entry : Nat) :
    Except Fault (Db kh) := do
  let db := { db with dbKeys := u64 (db.dbKeys + 1) }
  let set ← keyMap db table
  let db := if kh.size set = 0 then dbTableIncref db table else db
  let db := setKeyMap db table (kh.put set (db.entry.hash entry) entry)
  let db ← dbEntryIncref db entry false
  return { db with
    dbSizeBytes := u64 (db.dbSizeBytes + db.entry.dataLength entry) }

/-- The word that `%s` reads must fit its buffer. -/
def loadBufferLength : Nat := 2048

def closeLoadedTable (db : Db kh) : Option Nat → Db kh
  | some table => dbTableDeref db table true
  | none => db

def loadTable (hashString : Bytes → UInt32) (loading : Loading kh)
    (name : Bytes) : Except Fault (Loading kh) := do
  if loadBufferLength ≤ name.length then throw .overrun
  let db := closeLoadedTable loading.db loading.table
  let (db, table) ← dbTableGetWrite hashString db name
  return { loading with db, table := some table }

def dbLoadFromSaveEntry (db : Db kh) (table : Nat) (new : NewEntry)
    (it : Nat) : Db kh × Nat :=
  let (db, entry) := dbEntryNew db table new
  ({ db with entry.it := Function.update db.entry.it entry it }, entry)

/-- What an entry line asks for.  A skipped entry leaves only the iteration
counter behind. -/
def loadEntry (hashString : Bytes → UInt32) (loading : Loading kh)
    (block : Int) (dataLength expires it : Nat) (key : Bytes) :
    Except Fault (Loading kh) := do
  match loading.table with
  | none => return loading
  | some table =>
      if loadBufferLength ≤ key.length then throw .overrun
      let db := loading.db
      let (created, entry) :=
        dbLoadFromSaveEntry db table
          { hash := hashString key, key, block, dataLength, expires } it
      let skipped : Loading kh :=
        { loading with db := { db with nextit := created.nextit } }
      if block < 0 then
        let path ← getKeyPath created entry
        if created.disk.paths path = none then return skipped
        let db ← dbLoadFromSaveInsert created table entry
        return { loading with db := dbLruInsert db entry }
      else if db.blocksExist ≤ u32OfInt block then
        return skipped
      else
        let db ← dbLoadFromSaveInsert created table entry
        return { loading with
          db := dbLruInsert db entry
          blockInUse := block.toNat :: loading.blockInUse }

def loadLine (hashString : Bytes → UInt32) (loading : Loading kh)
    (line : Bytes) : Except Fault (Loading kh) :=
  match parseLine line with
  | .table name => loadTable hashString loading name
  | .entry block dataLength expires it key =>
      loadEntry hashString loading block dataLength expires it key
  | .ignored => return loading

/-- The loop that frees the blocks no loaded entry uses; its bound is read
again on every pass. -/
def freeUnused (db : Db kh) (blockInUse : List Nat) : Db kh :=
  (List.range db.blocksExist).foldl
    (fun db block =>
      if block < db.blocksExist ∧ block ∉ blockInUse then
        dbBlockFree db (i32 block)
      else db) db

def dbLoadFromSave (hashString : Bytes → UInt32) (db : Db kh) (text : Bytes) :
    Except Fault (Db kh) := do
  let loading ← (splitLines text).foldlM (loadLine hashString)
    { db, table := none, blockInUse := [] }
  return closeLoadedTable (freeUnused loading.db loading.blockInUse) loading.table

/-- The state `db_open` sets up before it reads the index. -/
def emptyDb (disk : Disk) : Db kh where
  entry :=
    { count := 0
      table := fun _ => none
      hash := fun _ => 0
      key := fun _ => []
      keyLength := fun _ => 0
      writing := fun _ => false
      deleted := fun _ => false
      refs := fun _ => 0
      dataLength := fun _ => 0
      block := fun _ => -1
      expires := fun _ => 0
      it := fun _ => 0
      freed := fun _ => false }
  table :=
    { count := 0
      hash := fun _ => 0
      key := fun _ => []
      keyLength := fun _ => 0
      cacheHashSet := fun _ => kh.empty
      refs := fun _ => 0
      deleted := fun _ => false
      destroyed := fun _ => false
      freed := fun _ => false }
  lru := Links.empty
  freeBlocks := []
  blocksExist := u32 (disk.blockfile.length / blockLength)
  blocksFree := 0
  dbSizeBytes := 0
  dbKeys := 0
  statsInserts := 0
  statsGets := 0
  statsDeletes := 0
  statsOperations := 0
  tables := kh.empty
  tableGc := 0
  nextit := 0
  currentTime := 0
  currentUsec := 0
  flush :=
    { currentFlush := 0
      lastFlushMs := 0
      flushPending := false
      children := [] }
  disk

/-- What `db_open` does when there is no index to load. -/
def blankDb (db : Db kh) : Db kh :=
  let size := db.disk.blockfile.length
  let limit := blockMaxLoad * blockLength
  let db :=
    if limit < size then
      { db with
        disk.blockfile := db.disk.blockfile.truncate limit
        blocksExist := u32 (limit / blockLength) }
    else db
  let size := min size limit
  let whole := size / blockLength * blockLength
  let db :=
    if size % blockLength ≠ 0 then
      { db with disk.blockfile := db.disk.blockfile.truncate whole }
    else db
  let db := (List.range (whole / blockLength)).foldl
    (fun db block => dbBlockFree db (i32 block)) db
  { db with blocksFree := db.blocksExist }

def dbOpen (hashString : Bytes → UInt32) (disk : Disk) : Except Fault (Db kh) :=
  match disk.indexSave with
  | some text => dbLoadFromSave hashString (emptyDb disk) text
  | none => return blankDb (emptyDb disk)

end SimpleCache
