import SimpleCache.Ownership

/-!
# Several lengths for one upload

A request can carry more than one `Content-Length`.  Each of them moves the
entry to the storage its value needs, so that a block or a key file taken for
an earlier one has to be given up again.
-/

namespace SimpleCache

variable {kh : KHash}

/-- `db_target_write_allocate` for each of the lengths in turn, on the target
the request was set up with. -/
def writeAllocates (db : Db kh) (entry : Nat) (target : Target) :
    (lengths : List Nat) → Except Fault (Db kh × Target)
  | [] => .ok (db, target)
  | length :: rest => do
      let (db, target) ← dbTargetWriteAllocate db entry length
      writeAllocates db entry target rest

/-- A block of the block file that is not on the free list. -/
def InUse (db : Db kh) (block : Nat) : Prop :=
  block < db.blocksExist ∧ block ∉ db.freeBlocks

/-- A block is free, or the block file can grow by one. -/
def RoomForBlock (db : Db kh) : Prop :=
  db.freeBlocks ≠ [] ∨ db.blocksExist < 2147483647

/-- One of the file names that are tried is not taken. -/
def RoomForFile (db : Db kh) (table entry : Nat) : Prop :=
  freshPath db table entry openCreateAttempts (db.entry.it entry) ≠ none

/-- Where a call has to take a block it can have one, and where it has to
create a file there is a name for it. -/
def CanStore (db : Db kh) (table entry length : Nat) : Prop :=
  if length ≤ blockLength then
    db.entry.block entry = -2 ∨ isSingleFile db entry = true →
      RoomForBlock db
  else RoomForFile db table entry

/-- Every call finds the space it has to take. -/
def CanStoreAll (table entry : Nat) : Db kh → (lengths : List Nat) → Prop
  | _, [] => True
  | db, length :: rest =>
      CanStore db table entry length ∧
        ∀ after next, dbTargetWriteAllocate db entry length =
          .ok (after, next) → CanStoreAll table entry after rest

section Blocks

variable {db : Db kh}

/-- An allocation puts one block in use that was not in use before. -/
theorem dbBlockAllocateNew_inUse (sound : db.BlocksSound)
    (few : db.blocksExist ≤ 2147483647) (room : RoomForBlock db) :
    ∃ block : Nat, (dbBlockAllocateNew db).2 = block ∧ ¬InUse db block ∧
      (∀ other, InUse (dbBlockAllocateNew db).1 other ↔
        InUse db other ∨ other = block) ∧
      (dbBlockAllocateNew db).1.blocksExist ≤ 2147483647 := by
  unfold dbBlockAllocateNew
  split
  · next block rest listed =>
      have nodup := sound.nodup
      have below := sound.free_lt
      rw [listed] at nodup below
      have exists_ := below block List.mem_cons_self
      have unlisted := (List.nodup_cons.mp nodup).1
      refine ⟨block, ?_, ?_, ?_, few⟩
      · unfold i32
        rw [if_pos (by omega)]
      · rintro ⟨-, absent⟩
        exact absent (listed ▸ List.mem_cons_self)
      · intro other
        simp only [InUse, listed, List.mem_cons, not_or]
        constructor
        · rintro ⟨lt, absent⟩
          by_cases same : other = block
          · exact Or.inr same
          · exact Or.inl ⟨lt, same, absent⟩
        · rintro (⟨lt, -, absent⟩ | rfl)
          · exact ⟨lt, absent⟩
          · exact ⟨exists_, unlisted⟩
  · next none_ =>
      have grows : db.blocksExist < 2147483647 :=
        room.resolve_left fun some_ => some_ none_
      have grown : u32 (db.blocksExist + 1) = db.blocksExist + 1 := by
        unfold u32
        omega
      rw [if_neg (by omega)]
      refine ⟨db.blocksExist, ?_, ?_, ?_, ?_⟩
      · unfold i32
        rw [if_pos (by omega)]
      · rintro ⟨lt, -⟩
        omega
      · intro other
        simp only [InUse, dbBlockSize, grown, none_, List.not_mem_nil,
          not_false_eq_true, and_true]
        omega
      · change u32 (db.blocksExist + 1) ≤ 2147483647
        omega

/-- A release takes one block out of use and makes room for another. -/
theorem dbBlockFree_inUse (sound : db.BlocksSound)
    (few : db.blocksExist ≤ 2147483647) {entry block : Nat}
    (owned : db.entry.block entry = block) :
    (∀ other, InUse (dbBlockFree db block) other ↔
        InUse db other ∧ other ≠ block) ∧
      (dbBlockFree db block).blocksExist ≤ 2147483647 := by
  have exists_ : block < db.blocksExist := by
    have below := sound.owned_lt entry (by omega)
    omega
  have isBlock : u32OfInt (block : Int) = block := by
    unfold u32OfInt
    omega
  have last : u32 (db.blocksExist + 4294967295) = db.blocksExist - 1 := by
    unfold u32
    omega
  unfold InUse
  rw [dbBlockFree_freeBlocks, dbBlockFree_blocksExist]
  split
  · next shrinks =>
      have isLast : block + 1 = db.blocksExist := by
        have wraps := shrinks.1
        rw [isBlock] at wraps
        unfold u32 at wraps
        omega
      rw [last]
      refine ⟨fun other => ?_, by omega⟩
      constructor
      · rintro ⟨lt, absent⟩
        exact ⟨⟨by omega, absent⟩, by omega⟩
      · rintro ⟨⟨lt, absent⟩, different⟩
        exact ⟨by omega, absent⟩
  · rw [isBlock]
    refine ⟨fun other => ?_, few⟩
    simp only [List.mem_cons, not_or]
    constructor
    · rintro ⟨lt, different, absent⟩
      exact ⟨⟨lt, absent⟩, different⟩
    · rintro ⟨⟨lt, absent⟩, different⟩
      exact ⟨lt, different, absent⟩

end Blocks

theorem freshPath_of_free {db : Db kh} {table entry : Nat}
    (free : db.disk.paths (keyPathIn db table entry) = none) (attempts : Nat) :
    freshPath db table entry (attempts + 1) (db.entry.it entry) =
      some (keyPathIn db table entry) := by
  have path : { keyPathIn db table entry with it := db.entry.it entry } =
      keyPathIn db table entry := rfl
  unfold freshPath
  dsimp only
  rw [path, free]

theorem freshPath_of_used {db : Db kh} {table entry inode : Nat}
    (used : db.disk.paths (keyPathIn db table entry) = some inode)
    (attempts : Nat) :
    freshPath db table entry (attempts + 1) (db.entry.it entry) =
      freshPath db table entry attempts (u16 (db.entry.it entry + 1)) := by
  have path : { keyPathIn db table entry with it := db.entry.it entry } =
      keyPathIn db table entry := rfl
  rw [freshPath]
  dsimp only
  rw [path, used]

/-- The search creates the first path that is not taken, and leaves the entry
with the iteration number of that path. -/
theorem dbEntryOpenCreate_fresh {attempts : Nat} {db : Db kh}
    {table entry : Nat} {path : KeyPath}
    (inTable : db.entry.table entry = some table)
    (fresh : freshPath db table entry attempts (db.entry.it entry) =
      some path) :
    dbEntryOpenCreate db entry attempts =
        .ok (createFile (db.setIt entry path.it) path) ∧
      path = keyPathIn (db.setIt entry path.it) table entry ∧
      db.disk.paths path = none := by
  induction attempts generalizing db with
  | zero => cases fresh
  | succ attempts ih =>
      have keyPath : getKeyPath db entry = .ok (keyPathIn db table entry) :=
        getKeyPath_eq_ok.mpr ⟨table, inTable, rfl⟩
      unfold dbEntryOpenCreate
      rw [keyPath]
      cases used : db.disk.paths (keyPathIn db table entry) with
      | none =>
          rw [freshPath_of_free used] at fresh
          obtain rfl := Option.some.inj fresh
          have same : db.setIt entry (keyPathIn db table entry).it = db := by
            unfold Db.setIt keyPathIn
            rw [Function.update_eq_self]
          rw [same]
          refine ⟨?_, rfl, used⟩
          rw [ok_bind, used]
          rfl
      | some inode =>
          have later : freshPath (db.setIt entry (u16 (db.entry.it entry + 1)))
              table entry attempts
              ((db.setIt entry (u16 (db.entry.it entry + 1))).entry.it
                entry) = some path := by
            rw [freshPath_setIt, ← fresh, freshPath_of_used used]
            simp [Db.setIt]
          have stays : (db.setIt entry
              (u16 (db.entry.it entry + 1))).entry.table entry = some table :=
            inTable
          obtain ⟨creates, pathEq, free⟩ := ih stays later
          have again : (db.setIt entry (u16 (db.entry.it entry + 1))).setIt
              entry path.it = db.setIt entry path.it := by
            simp [Db.setIt]
          rw [again] at creates pathEq
          refine ⟨?_, pathEq, free⟩
          rw [ok_bind, used]
          exact creates

/-- The files are those of `base`, and others under these names. -/
structure Beside (base db : Db kh) (others : List KeyPath) : Prop where
  fresh : ∀ path ∈ others, base.disk.paths path = none
  taken : ∀ path ∈ others, db.disk.paths path ≠ none
  same : ∀ path, path ∉ others → db.disk.paths path = base.disk.paths path

namespace Beside

variable {base db after : Db kh} {others : List KeyPath} {path : KeyPath}

theorem of_paths (beside : Beside base db others)
    (paths : after.disk.paths = db.disk.paths) : Beside base after others := by
  obtain ⟨fresh, taken, same⟩ := beside
  rw [← paths] at taken same
  exact ⟨fresh, taken, same⟩

/-- A name that is not taken is none of the others. -/
theorem not_mem_of_free (beside : Beside base db others)
    (free : db.disk.paths path = none) : path ∉ others :=
  fun member => beside.taken path member free

theorem create (beside : Beside base db others) {inode : Nat}
    (free : db.disk.paths path = none)
    (paths : after.disk.paths =
      Function.update db.disk.paths path (some inode)) :
    Beside base after (path :: others) where
  fresh := by
    intro other member
    rcases List.mem_cons.mp member with rfl | member
    · rw [← beside.same _ (beside.not_mem_of_free free)]
      exact free
    · exact beside.fresh other member
  taken := by
    intro other member
    rw [paths]
    rcases List.mem_cons.mp member with isPath | isOther
    · rw [isPath, Function.update_self]
      exact Option.some_ne_none _
    · have different : other ≠ path := by
        rintro rfl
        exact beside.not_mem_of_free free isOther
      rw [Function.update_of_ne different]
      exact beside.taken other isOther
  same := by
    intro other absent
    have different := List.ne_of_not_mem_cons absent
    rw [paths, Function.update_of_ne different]
    exact beside.same other (List.not_mem_of_not_mem_cons absent)

theorem unlink (beside : Beside base db (path :: others))
    (absent : path ∉ others)
    (paths : after.disk.paths = Function.update db.disk.paths path none) :
    Beside base after others where
  fresh := fun other member =>
    beside.fresh other (List.mem_cons_of_mem _ member)
  taken := by
    intro other member
    have different : other ≠ path := by
      rintro rfl
      exact absent member
    rw [paths, Function.update_of_ne different]
    exact beside.taken other (List.mem_cons_of_mem _ member)
  same := by
    intro other otherAbsent
    rw [paths]
    by_cases isPath : other = path
    · rw [isPath, Function.update_self]
      exact (beside.fresh path List.mem_cons_self).symm
    · rw [Function.update_of_ne isPath]
      exact beside.same other fun member =>
        (List.mem_cons.mp member).elim isPath otherAbsent

end Beside

/-- The entry owns a block that was not in use, and its target is that
block. -/
structure OwnsBlock (base db : Db kh) (target : Target)
    (table entry block : Nat) (left : List KeyPath) : Prop where
  block_eq : db.entry.block entry = block
  fresh : ¬InUse base block
  inUse_iff : ∀ other, InUse db other ↔ InUse base other ∨ other = block
  files : Beside base db left
  fd : target.fd = .blockfile
  position : target.position = block * blockLength

/-- The entry owns a key file under a name that was not taken, and its target
is that file. -/
structure OwnsFile (base db : Db kh) (target : Target)
    (table entry inode length : Nat) (left : List KeyPath) : Prop where
  noBlock : db.entry.block entry = -1
  inUse_iff : ∀ other, InUse db other ↔ InUse base other
  own : keyPathIn db table entry ∉ left
  exists_ : db.disk.paths (keyPathIn db table entry) = some inode
  files : Beside base db (keyPathIn db table entry :: left)
  fileLength : (db.disk.inodes inode).length = length
  fd : target.fd = .file inode
  position : target.position = 0

/-- The entry is stored for this length: beside the blocks and the files of
`base` there is its one block, or its one key file, and what files were left
behind. -/
structure Stored (base db : Db kh) (target : Target)
    (table entry length : Nat) (left : List KeyPath) : Prop where
  inTable : db.entry.table entry = some table
  sound : db.BlocksSound
  few : db.blocksExist ≤ 2147483647
  dataLength : db.entry.dataLength entry = length
  inBlock : length ≤ blockLength →
    ∃ block, OwnsBlock base db target table entry block left
  inFile : blockLength < length →
    ∃ inode, OwnsFile base db target table entry inode length left

/-- The entry owns nothing: the blocks in use are those of `base`, and the files
too but for those left behind. -/
structure Cleared (base db : Db kh) (table entry : Nat)
    (left : List KeyPath) : Prop where
  inTable : db.entry.table entry = some table
  sound : db.BlocksSound
  few : db.blocksExist ≤ 2147483647
  inUse_iff : ∀ other, InUse db other ↔ InUse base other
  files : Beside base db left

section OneLength

variable {base db chosen : Db kh} {target : Target}
  {table entry length former : Nat} {left : List KeyPath}

/-- The size counts the growth of the entry. -/
theorem countLength_dbSizeBytes
    (unstored : db.entry.block entry = -2 → db.entry.dataLength entry = 0)
    (grows : db.entry.dataLength entry ≤ length)
    (small : length < 2147483648) :
    (countLength db entry length).dbSizeBytes =
      u64 (db.dbSizeBytes + (length - db.entry.dataLength entry)) := by
  have growth : u32 (length + 4294967296 - db.entry.dataLength entry) =
      length - db.entry.dataLength entry := by
    unfold u32
    omega
  unfold countLength
  split
  · next isUnstored =>
      rw [unstored isUnstored]
      rfl
  · change u64 (db.dbSizeBytes +
      u32 (length + 4294967296 - db.entry.dataLength entry)) = _
    rw [growth]

theorem countLength_dataLength :
    (countLength db entry length).entry.dataLength entry = length := by
  rw [countLength_eq]
  simp [Db.setLength]

/-- The block of an entry that has been stored stays. -/
theorem countLength_stored (stored : db.entry.block entry ≠ -2) :
    countLength db entry length =
      { db with
        dbSizeBytes := u64 (db.dbSizeBytes +
          u32 (length + 4294967296 - db.entry.dataLength entry))
        entry.dataLength :=
          Function.update db.entry.dataLength entry length } := by
  unfold countLength
  rw [if_neg stored]

/-- A value that fits a block is written to the block file. -/
theorem dbTargetWriteAllocate_block (small : length ≤ blockLength)
    (choice : chooseStorage db entry length = .ok chosen) :
    dbTargetWriteAllocate db entry length =
      .ok (countLength chosen entry length,
        { fd := .blockfile
          position := (countLength chosen entry length).entry.block entry *
            blockLength
          endPosition := (countLength chosen entry length).entry.block entry *
            blockLength + length }) := by
  have block : isSingleFile (countLength chosen entry length) entry =
      false := by
    unfold isSingleFile
    rw [countLength_dataLength]
    simpa using small
  unfold dbTargetWriteAllocate
  rw [choice]
  change (dbTargetOpen (countLength chosen entry length) entry true >>=
    fun opened => _) = _
  unfold dbTargetOpen
  rw [block, countLength_dataLength]
  change (if isSingleFile (countLength chosen entry length) entry = true then
    _ else _) = _
  rw [block]
  rfl

/-- A larger value gets a key file of its length. -/
theorem dbTargetWriteAllocate_file (large : blockLength < length)
    (choice : chooseStorage db entry length = .ok chosen)
    {created : Db kh} {fd : Fd}
    (creates : dbEntryOpenCreate (countLength chosen entry length) entry
        openCreateAttempts = .ok (created, fd))
    (sameLength : created.entry.dataLength entry = length) :
    dbTargetWriteAllocate db entry length =
      .ok (truncateFd created fd length,
        { fd, position := 0, endPosition := 0 + length }) := by
  have singleOf : ∀ {other : Db kh}, other.entry.dataLength entry = length →
      isSingleFile other entry = true := by
    intro other lengthEq
    unfold isSingleFile
    rw [lengthEq]
    simpa using large
  unfold dbTargetWriteAllocate
  rw [choice]
  change (dbTargetOpen (countLength chosen entry length) entry true >>=
    fun opened => _) = _
  unfold dbTargetOpen
  rw [singleOf countLength_dataLength, countLength_dataLength, if_pos rfl,
    if_pos rfl, creates]
  change (if isSingleFile created entry = true then _ else _) = _
  rw [if_pos (singleOf sameLength)]
  rfl

theorem RoomForFile.congr {other : Db kh}
    (room : RoomForFile db table entry)
    (paths : other.disk.paths = db.disk.paths)
    (path : keyPathIn other table entry = keyPathIn db table entry) :
    RoomForFile other table entry := by
  have itEq : other.entry.it entry = db.entry.it entry :=
    congrArg KeyPath.it path
  unfold RoomForFile
  rw [freshPath_congr db other table entry paths (fun it => by rw [path]),
    itEq]
  exact room

/-- An entry that owns nothing takes a block. -/
theorem Cleared.takeBlock (cleared : Cleared base db table entry left)
    (room : RoomForBlock db) (small : length ≤ blockLength)
    (isChosen : chosen =
      (dbBlockAllocateNew db).1.setBlock entry (dbBlockAllocateNew db).2)
    (isTarget : target =
      { fd := .blockfile
        position := (countLength chosen entry length).entry.block entry *
          blockLength
        endPosition := (countLength chosen entry length).entry.block entry *
          blockLength + length }) :
    Stored base (countLength chosen entry length) target table entry length
      left := by
  obtain ⟨block, isBlock, fresh, inUse, few⟩ := dbBlockAllocateNew_inUse
    cleared.sound cleared.few room
  obtain ⟨freeBlocks, blocksExist, blocksFree, blockfile, _, taken⟩ :=
    dbBlockAllocateNew_eq db
  have allocated := cleared.sound.allocate entry
  rw [taken] at isBlock inUse few isChosen allocated
  dsimp only at isBlock inUse few isChosen allocated
  subst isBlock
  have owned : chosen.entry.block entry = block := by
    rw [isChosen]
    simp [Db.setBlock]
  have counted := @countLength_stored _ chosen entry length (by omega)
  have blockEq : (countLength chosen entry length).entry.block entry =
      block := by
    rw [counted]
    exact owned
  rw [blockEq] at isTarget
  subst isTarget
  refine ⟨?_, ?_, ?_, countLength_dataLength, fun _ => ⟨block, ?_⟩,
    fun large => absurd large (Nat.not_lt.mpr small)⟩
  · rw [counted, isChosen]
    exact cleared.inTable
  · rw [counted, isChosen]
    exact allocated
  · rw [counted, isChosen]
    exact few
  · refine ⟨blockEq, ?_, ?_, ?_, rfl, rfl⟩
    · rw [← cleared.inUse_iff]
      exact fresh
    · intro other
      rw [counted, isChosen, ← cleared.inUse_iff]
      exact inUse other
    · rw [counted, isChosen]
      exact cleared.files.of_paths rfl

/-- An entry that owns nothing gets a key file. -/
theorem Cleared.takeFile (cleared : Cleared base chosen table entry left)
    (room : RoomForFile chosen table entry) (large : blockLength < length)
    (unowned : chosen.entry.block entry = -1 ∨
      chosen.entry.block entry = -2)
    (choice : chooseStorage db entry length = .ok chosen) :
    ∃ after target, dbTargetWriteAllocate db entry length =
        .ok (after, target) ∧
      Stored base after target table entry length left := by
  have blocks : (countLength chosen entry length).entry.block =
      Function.update chosen.entry.block entry (-1) := by
    rw [countLength_eq]
    unfold Db.setLength
    rcases unowned with noBlock | noBlock <;> rw [noBlock] <;> rfl
  have roomCounted : RoomForFile (countLength chosen entry length) table
      entry := by
    rw [countLength_eq]
    exact room.congr rfl rfl
  obtain ⟨path, fresh⟩ := Option.ne_none_iff_exists'.mp roomCounted
  have inTable : (countLength chosen entry length).entry.table entry =
      some table := by
    rw [countLength_eq]
    exact cleared.inTable
  obtain ⟨creates, pathEq, free⟩ := dbEntryOpenCreate_fresh inTable fresh
  have sameLength : (createFile ((countLength chosen entry length).setIt entry
      path.it) path).1.entry.dataLength entry = length :=
    countLength_dataLength
  refine ⟨_, _, dbTargetWriteAllocate_file large choice creates sameLength,
    ?_⟩
  have lists : (countLength chosen entry length).freeBlocks =
      chosen.freeBlocks ∧
      (countLength chosen entry length).blocksExist = chosen.blocksExist ∧
      (countLength chosen entry length).blocksFree = chosen.blocksFree := by
    rw [countLength_eq]
    exact ⟨rfl, rfl, rfl⟩
  have files : Beside base (countLength chosen entry length) left := by
    rw [countLength_eq]
    exact cleared.files.of_paths rfl
  generalize countLength chosen entry length = counted at *
  refine ⟨inTable, ?_, ?_, sameLength,
    fun small => absurd large (Nat.not_lt.mpr small),
    fun _ => ⟨counted.disk.inodeCount, ?_⟩⟩
  · change BlocksSound counted.entry.block counted.freeBlocks
      counted.blocksExist counted.blocksFree
    rw [blocks, lists.1, lists.2.1, lists.2.2]
    exact cleared.sound.disown entry (by decide)
  · change counted.blocksExist ≤ 2147483647
    rw [lists.2.1]
    exact cleared.few
  · refine ⟨?_, ?_, ?_, ?_, ?_, ?_, rfl, rfl⟩
    · change counted.entry.block entry = -1
      rw [blocks, Function.update_self]
    · intro other
      rw [← cleared.inUse_iff]
      change other < counted.blocksExist ∧ other ∉ counted.freeBlocks ↔ _
      rw [lists.1, lists.2.1]
      rfl
    · change keyPathIn (counted.setIt entry path.it) table entry ∉ left
      rw [← pathEq]
      exact files.not_mem_of_free free
    · change Function.update counted.disk.paths path
        (some counted.disk.inodeCount)
          (keyPathIn (counted.setIt entry path.it) table entry) = _
      rw [← pathEq]
      exact Function.update_self ..
    · change Beside base _
        (keyPathIn (counted.setIt entry path.it) table entry :: left)
      rw [← pathEq]
      exact files.create free rfl
    · change ((Function.update _ counted.disk.inodeCount _ : Nat → ByteFile)
        counted.disk.inodeCount).length = length
      rw [Function.update_self]

/-- The first length of an upload. -/
theorem Cleared.start (cleared : Cleared base db table entry left)
    (unstored : db.entry.block entry = -2)
    (room : CanStore db table entry length) :
    ∃ after target, dbTargetWriteAllocate db entry length =
        .ok (after, target) ∧
      Stored base after target table entry length left := by
  unfold CanStore at room
  by_cases small : length ≤ blockLength
  · rw [if_pos small] at room
    have choice : chooseStorage db entry length =
        .ok ((dbBlockAllocateNew db).1.setBlock entry
          (dbBlockAllocateNew db).2) := by
      unfold chooseStorage
      rw [if_pos unstored, if_pos small]
      rfl
    exact ⟨_, _, dbTargetWriteAllocate_block small choice,
      cleared.takeBlock (room (Or.inl unstored)) small rfl rfl⟩
  · rw [if_neg small] at room
    have large : blockLength < length := Nat.lt_of_not_le small
    have choice : chooseStorage db entry length = .ok db := by
      unfold chooseStorage
      rw [if_pos unstored, if_neg small]
      rfl
    exact cleared.takeFile room large (Or.inr unstored) choice

/-- A value that fits a block again keeps the block. -/
theorem Stored.keepBlock
    (stored : Stored base db target table entry former left)
    (smallFormer : former ≤ blockLength) (small : length ≤ blockLength) :
    ∃ after next, dbTargetWriteAllocate db entry length =
        .ok (after, next) ∧
      Stored base after next table entry length left := by
  obtain ⟨block, owns⟩ := stored.inBlock smallFormer
  have owned := owns.block_eq
  have choice : chooseStorage db entry length = .ok db := by
    unfold chooseStorage isSingleFile
    rw [stored.dataLength, if_neg (by omega), if_neg (Nat.not_lt.mpr small),
      if_neg (by simpa using smallFormer)]
    rfl
  have counted := @countLength_stored _ db entry length (by omega)
  have blockEq : (countLength db entry length).entry.block entry = block := by
    rw [counted]
    exact owned
  refine ⟨_, _, dbTargetWriteAllocate_block small choice, ?_⟩
  rw [blockEq]
  refine ⟨?_, ?_, ?_, countLength_dataLength, fun _ => ⟨block, ?_⟩,
    fun large => absurd large (Nat.not_lt.mpr small)⟩
  · rw [counted]
    exact stored.inTable
  · rw [counted]
    exact stored.sound
  · rw [counted]
    exact stored.few
  · refine ⟨blockEq, owns.fresh, ?_, ?_, rfl, rfl⟩
    · rw [counted]
      exact owns.inUse_iff
    · rw [counted]
      exact owns.files.of_paths rfl

/-- A value that no longer fits its block gives the block up. -/
theorem Stored.leaveBlock
    (stored : Stored base db target table entry former left)
    (smallFormer : former ≤ blockLength) (large : blockLength < length)
    (room : RoomForFile db table entry) :
    ∃ after next, dbTargetWriteAllocate db entry length =
        .ok (after, next) ∧
      Stored base after next table entry length left := by
  obtain ⟨block, owns⟩ := stored.inBlock smallFormer
  have owned := owns.block_eq
  have single : isSingleFile db entry = false := by
    unfold isSingleFile
    rw [stored.dataLength]
    simpa using smallFormer
  have choice : chooseStorage db entry length =
      .ok ((dbBlockFree db block).setBlock entry (-1)) := by
    unfold chooseStorage
    rw [if_neg (by omega), if_pos large, if_pos ⟨single, by omega⟩, owned]
    rfl
  obtain ⟨inUse, few⟩ := dbBlockFree_inUse stored.sound stored.few owned
  have released := stored.sound.release
    (show 0 ≤ db.entry.block entry by omega)
  obtain ⟨freeBlocks, blocksExist, blocksFree, blockfile, freed⟩ :=
    dbBlockFree_eq db block
  rw [owned] at released
  rw [freed] at inUse few released choice
  have cleared : Cleared base
      ((db.setBlocks freeBlocks blocksExist blocksFree blockfile).setBlock
        entry (-1)) table entry left := by
    refine ⟨stored.inTable, released, few, fun other => ?_,
      owns.files.of_paths rfl⟩
    refine (inUse other).trans ?_
    rw [owns.inUse_iff]
    constructor
    · rintro ⟨used, different⟩
      exact used.resolve_right different
    · intro used
      exact ⟨Or.inl used, fun same => owns.fresh (same ▸ used)⟩
  have unowned : ((db.setBlocks freeBlocks blocksExist blocksFree
      blockfile).setBlock entry (-1)).entry.block entry = -1 := by
    simp [Db.setBlock]
  exact cleared.takeFile (room.congr rfl rfl) large (Or.inl unowned) choice

/-- A value that fits a block gives its key file up. -/
theorem Stored.leaveFile
    (stored : Stored base db target table entry former left)
    (largeFormer : blockLength < former) (small : length ≤ blockLength)
    (room : RoomForBlock db) :
    ∃ after next, dbTargetWriteAllocate db entry length =
        .ok (after, next) ∧
      Stored base after next table entry length left := by
  obtain ⟨inode, owns⟩ := stored.inFile largeFormer
  have noBlock := owns.noBlock
  have single : isSingleFile db entry = true := by
    unfold isSingleFile
    rw [stored.dataLength]
    simpa using largeFormer
  have keyPath : getKeyPath db entry = .ok (keyPathIn db table entry) :=
    getKeyPath_eq_ok.mpr ⟨table, stored.inTable, rfl⟩
  have choice : chooseStorage db entry length =
      .ok ((dbBlockAllocateNew
          (unlinkPath db (keyPathIn db table entry))).1.setBlock entry
        (dbBlockAllocateNew
          (unlinkPath db (keyPathIn db table entry))).2) := by
    unfold chooseStorage
    rw [if_neg (by omega), if_neg (Nat.not_lt.mpr small), if_pos single,
      keyPath]
    rfl
  have cleared : Cleared base (unlinkPath db (keyPathIn db table entry)) table
      entry left :=
    ⟨stored.inTable, stored.sound, stored.few, owns.inUse_iff,
      owns.files.unlink owns.own rfl⟩
  exact ⟨_, _, dbTargetWriteAllocate_block small choice,
    cleared.takeBlock room small rfl rfl⟩

/-- A file that replaces a file leaves that one behind. -/
theorem Stored.replaceFile
    (stored : Stored base db target table entry former left)
    (largeFormer : blockLength < former) (large : blockLength < length)
    (room : RoomForFile db table entry) :
    ∃ after next, dbTargetWriteAllocate db entry length =
        .ok (after, next) ∧
      Stored base after next table entry length
        (keyPathIn db table entry :: left) := by
  obtain ⟨inode, owns⟩ := stored.inFile largeFormer
  have noBlock := owns.noBlock
  have single : isSingleFile db entry = true := by
    unfold isSingleFile
    rw [stored.dataLength]
    simpa using largeFormer
  have choice : chooseStorage db entry length =
      .ok (db.setBlock entry (-1)) := by
    unfold chooseStorage
    rw [if_neg (by omega), if_pos large, if_neg (by simp [single])]
    rfl
  have cleared : Cleared base (db.setBlock entry (-1)) table entry
      (keyPathIn db table entry :: left) := by
    refine ⟨stored.inTable, ?_, stored.few, owns.inUse_iff,
      owns.files.of_paths rfl⟩
    exact stored.sound.disown entry (by decide)
  have unowned : (db.setBlock entry (-1)).entry.block entry = -1 := by
    simp [Db.setBlock]
  exact cleared.takeFile (room.congr rfl rfl) large (Or.inl unowned) choice

/-- The next length moves the entry to the storage it needs, and leaves a file
behind only where it goes from a file to a file. -/
theorem Stored.next (stored : Stored base db target table entry former left)
    (room : CanStore db table entry length) :
    ∃ after next others, dbTargetWriteAllocate db entry length =
        .ok (after, next) ∧
      Stored base after next table entry length others ∧
      others.length ≤ left.length +
        if blockLength < former ∧ blockLength < length then 1 else 0 := by
  unfold CanStore at room
  by_cases small : length ≤ blockLength
  · rw [if_pos small] at room
    have single : (if blockLength < former ∧ blockLength < length then 1
        else 0) = 0 := if_neg fun both => absurd both.2 (Nat.not_lt.mpr small)
    rw [single]
    by_cases smallFormer : former ≤ blockLength
    · obtain ⟨after, next, run, stored⟩ := stored.keepBlock smallFormer small
      exact ⟨after, next, left, run, stored, Nat.le_refl _⟩
    · have largeFormer := Nat.lt_of_not_le smallFormer
      have single : isSingleFile db entry = true := by
        unfold isSingleFile
        rw [stored.dataLength]
        simpa using largeFormer
      obtain ⟨after, next, run, stored⟩ :=
        stored.leaveFile largeFormer small (room (Or.inr single))
      exact ⟨after, next, left, run, stored, Nat.le_refl _⟩
  · rw [if_neg small] at room
    have large := Nat.lt_of_not_le small
    by_cases smallFormer : former ≤ blockLength
    · obtain ⟨after, next, run, stored⟩ :=
        stored.leaveBlock smallFormer large room
      exact ⟨after, next, left, run, stored, Nat.le_add_right _ _⟩
    · have largeFormer := Nat.lt_of_not_le smallFormer
      obtain ⟨after, next, run, stored⟩ :=
        stored.replaceFile largeFormer large room
      refine ⟨after, next, _, run, stored, ?_⟩
      rw [if_pos ⟨largeFormer, large⟩, List.length_cons]

end OneLength

section Sizes

variable {db chosen : Db kh} {table entry length : Nat}

/-- What every call needs of the entry, and leaves, also where no space can be
had. -/
structure Resizable (db : Db kh) (table entry : Nat) : Prop where
  inTable : db.entry.table entry = some table
  sound : db.BlocksSound
  few : db.blocksExist ≤ 2147483647
  unstored : db.entry.block entry = -2 → db.entry.dataLength entry = 0

/-- An allocation hands out a block, or -1. -/
theorem dbBlockAllocateNew_keeps (sound : db.BlocksSound)
    (few : db.blocksExist ≤ 2147483647) :
    (dbBlockAllocateNew db).2 ≠ -2 ∧
      (dbBlockAllocateNew db).1.blocksExist ≤ 2147483647 := by
  by_cases room : RoomForBlock db
  · obtain ⟨block, isBlock, -, -, stillFew⟩ :=
      dbBlockAllocateNew_inUse sound few room
    exact ⟨by omega, stillFew⟩
  · obtain ⟨empty, full⟩ := not_or.mp room
    unfold dbBlockAllocateNew
    split
    · next listed => exact absurd (by simp [listed]) empty
    · rw [if_pos (by omega)]
      exact ⟨show (-1 : Int) ≠ -2 by decide, few⟩

/-- The first half of a call. -/
theorem Resizable.choose (ready : Resizable db table entry) (length : Nat) :
    ∃ chosen, chooseStorage db entry length = .ok chosen ∧
      chosen.BlocksSound ∧ chosen.blocksExist ≤ 2147483647 ∧
      chosen.entry.table = db.entry.table ∧
      (chosen.entry.block entry = -2 → db.entry.block entry = -2) := by
  obtain ⟨inTable, sound, few, -⟩ := ready
  have allocated := sound.allocate entry
  obtain ⟨notUnstored, stillFew⟩ := dbBlockAllocateNew_keeps sound few
  obtain ⟨freeBlocks, blocksExist, blocksFree, blockfile, block, taken⟩ :=
    dbBlockAllocateNew_eq db
  have keyPath : getKeyPath db entry = .ok (keyPathIn db table entry) :=
    getKeyPath_eq_ok.mpr ⟨table, inTable, rfl⟩
  by_cases unstored : db.entry.block entry = -2
  · by_cases small : length ≤ blockLength
    · refine ⟨(dbBlockAllocateNew db).1.setBlock entry
        (dbBlockAllocateNew db).2, ?_, ?_, stillFew, ?_, fun _ => unstored⟩
      · unfold chooseStorage
        rw [if_pos unstored, if_pos small]
        rfl
      · rw [taken] at allocated ⊢
        exact allocated
      · rw [taken]
        rfl
    · refine ⟨db, ?_, sound, few, rfl, id⟩
      unfold chooseStorage
      rw [if_pos unstored, if_neg small]
      rfl
  · by_cases large : blockLength < length
    · by_cases owns : isSingleFile db entry = false ∧ 0 ≤ db.entry.block entry
      · obtain ⟨number, owned⟩ := Int.eq_ofNat_of_zero_le owns.2
        have released := sound.release owns.2
        obtain ⟨-, fewer⟩ := dbBlockFree_inUse sound few owned
        rw [← owned] at fewer
        obtain ⟨freeBlocks, blocksExist, blocksFree, blockfile, freed⟩ :=
          dbBlockFree_eq db (db.entry.block entry)
        rw [freed] at released fewer
        refine ⟨(dbBlockFree db (db.entry.block entry)).setBlock entry (-1),
          ?_, ?_, ?_, ?_, fun isUnstored => ?_⟩
        · unfold chooseStorage
          rw [if_neg unstored, if_pos large, if_pos owns]
          rfl
        · rw [freed]
          exact released
        · rw [freed]
          exact fewer
        · rw [freed]
          rfl
        · simp [Db.setBlock] at isUnstored
      · refine ⟨db.setBlock entry (-1), ?_, sound.disown entry (by decide),
          few, rfl, fun isUnstored => ?_⟩
        · unfold chooseStorage
          rw [if_neg unstored, if_pos large, if_neg owns]
          rfl
        · simp [Db.setBlock] at isUnstored
    · by_cases single : isSingleFile db entry = true
      · refine ⟨(dbBlockAllocateNew
            (unlinkPath db (keyPathIn db table entry))).1.setBlock entry
          (dbBlockAllocateNew
            (unlinkPath db (keyPathIn db table entry))).2, ?_, ?_, ?_, ?_,
          fun isUnstored => ?_⟩
        · unfold chooseStorage
          rw [if_neg unstored, if_neg large, if_pos single, keyPath]
          rfl
        · rw [dbBlockAllocateNew_unlinkPath]
          rw [taken] at allocated ⊢
          exact allocated
        · rw [dbBlockAllocateNew_unlinkPath]
          exact stillFew
        · rw [dbBlockAllocateNew_unlinkPath, taken]
          rfl
        · rw [dbBlockAllocateNew_unlinkPath] at isUnstored
          simp only [Db.setBlock, Function.update_self] at isUnstored
          exact absurd isUnstored notUnstored
      · refine ⟨db, ?_, sound, few, rfl, id⟩
        unfold chooseStorage
        rw [if_neg unstored, if_neg large, if_neg single]
        rfl

/-- Choosing storage leaves the counters alone. -/
theorem chooseStorage_counters
    (choice : chooseStorage db entry length = .ok chosen) :
    chosen.dbSizeBytes = db.dbSizeBytes ∧
      chosen.entry.dataLength = db.entry.dataLength := by
  obtain ⟨_, _, _, _, _, _, chosenEq, -⟩ := chooseStorage_eq choice
  rw [chosenEq]
  exact ⟨rfl, rfl⟩

/-- The search for a file name changes the iteration number and the files. -/
theorem dbEntryOpenCreate_frame (inTable : db.entry.table entry = some table)
    (attempts : Nat) :
    ∃ it disk fd, dbEntryOpenCreate db entry attempts =
      .ok ({ db with entry.it := it, disk }, fd) := by
  induction attempts generalizing db with
  | zero => exact ⟨db.entry.it, db.disk, .closed, rfl⟩
  | succ attempts ih =>
      unfold dbEntryOpenCreate
      rw [getKeyPath_eq_ok.mpr ⟨table, inTable, rfl⟩]
      cases used : db.disk.paths (keyPathIn db table entry) with
      | none =>
          rw [ok_bind, used]
          exact ⟨db.entry.it, _, _, rfl⟩
      | some inode =>
          rw [ok_bind, used]
          have stays : (db.setIt entry
              (u16 (db.entry.it entry + 1))).entry.table entry = some table :=
            inTable
          exact ih stays

theorem truncateFd_frame (db : Db kh) (fd : Fd) (length : Nat) :
    ∃ disk, truncateFd db fd length = { db with disk } := by
  cases fd with
  | closed => exact ⟨db.disk, rfl⟩
  | blockfile => exact ⟨_, rfl⟩
  | file inode => exact ⟨_, rfl⟩

/-- The second half of a call. -/
theorem dbTargetWriteAllocate_counted
    (choice : chooseStorage db entry length = .ok chosen)
    (inTable : chosen.entry.table entry = some table) :
    ∃ it disk next, dbTargetWriteAllocate db entry length =
        .ok ({ countLength chosen entry length with entry.it := it, disk },
          next) ∧
      next.endPosition = next.position + length := by
  by_cases small : length ≤ blockLength
  · exact ⟨(countLength chosen entry length).entry.it,
      (countLength chosen entry length).disk, _,
      dbTargetWriteAllocate_block small choice, rfl⟩
  · have counted : (countLength chosen entry length).entry.table entry =
        some table := by
      rw [countLength_eq]
      exact inTable
    obtain ⟨it, disk, fd, creates⟩ :=
      dbEntryOpenCreate_frame counted openCreateAttempts
    have run := dbTargetWriteAllocate_file (Nat.lt_of_not_le small) choice
      creates countLength_dataLength
    obtain ⟨truncated, frame⟩ := truncateFd_frame
      { countLength chosen entry length with entry.it := it, disk } fd length
    rw [frame] at run
    exact ⟨it, truncated, _, run, rfl⟩

/-- A call sets the length and the range of its target, and counts the growth
of the entry, whatever space it finds. -/
theorem Resizable.step (ready : Resizable db table entry)
    (small : length < 2147483648) :
    ∃ after next, dbTargetWriteAllocate db entry length =
        .ok (after, next) ∧
      Resizable after table entry ∧
      after.entry.dataLength entry = length ∧
      next.endPosition = next.position + length ∧
      (db.entry.dataLength entry ≤ length → after.dbSizeBytes =
        u64 (db.dbSizeBytes + (length - db.entry.dataLength entry))) := by
  obtain ⟨chosen, choice, sound, few, tables, unstored⟩ := ready.choose length
  obtain ⟨sizeEq, lengthEq⟩ := chooseStorage_counters choice
  have inTable : chosen.entry.table entry = some table := by
    rw [tables]
    exact ready.inTable
  obtain ⟨it, disk, next, run, range⟩ :=
    dbTargetWriteAllocate_counted choice inTable
  refine ⟨_, next, run, ?_, countLength_dataLength, range, fun grows => ?_⟩
  · have blocks : ∃ value : Int, value ≠ -2 ∧
        (countLength chosen entry length).entry.block =
          Function.update chosen.entry.block entry value ∧
        (value < 0 ∨ value = chosen.entry.block entry) := by
      unfold countLength
      by_cases isUnstored : chosen.entry.block entry = -2
      · rw [if_pos isUnstored]
        exact ⟨-1, by decide, rfl, Or.inl (by decide)⟩
      · rw [if_neg isUnstored]
        exact ⟨_, isUnstored, (Function.update_eq_self ..).symm, Or.inr rfl⟩
    obtain ⟨value, notUnstored, isBlock, isValue⟩ := blocks
    refine ⟨?_, ?_, ?_, fun isUnstored => ?_⟩
    · rw [countLength_eq]
      exact inTable
    · change BlocksSound (countLength chosen entry length).entry.block _ _ _
      rw [isBlock, countLength_eq]
      rcases isValue with negative | rfl
      · exact sound.disown entry negative
      · rw [Function.update_eq_self]
        exact sound
    · rw [countLength_eq]
      exact few
    · change (countLength chosen entry length).entry.block entry = -2
        at isUnstored
      rw [isBlock, Function.update_self] at isUnstored
      exact absurd isUnstored notUnstored
  · have sameLength : chosen.entry.dataLength entry =
        db.entry.dataLength entry := congrFun lengthEq entry
    change (countLength chosen entry length).dbSizeBytes = _
    rw [countLength_dbSizeBytes
      (fun isUnstored => sameLength.trans (ready.unstored (unstored isUnstored)))
      (sameLength ▸ grows) small, sizeEq, sameLength]

end Sizes

/-- An entry of an upload that has no length yet. -/
structure Begins (db : Db kh) (table entry : Nat) : Prop where
  inTable : db.entry.table entry = some table
  unstored : db.entry.block entry = -2
  blank : db.entry.dataLength entry = 0

theorem enterNew_begins {hashString : Bytes → UInt32} {db after : Db kh}
    {table entry : Nat} {key : Bytes} {first : Bool}
    (run : enterNew hashString db table key first = .ok (after, entry)) :
    Begins after table entry := by
  rw [enterNew_eq] at run
  split at run
  · cases run
  · obtain ⟨rfl, rfl⟩ := Prod.mk.inj (Except.ok.inj run)
    exact ⟨Function.update_self .., Function.update_self ..,
      Function.update_self ..⟩

/-- The entry that `db_entry_get_write` enters. -/
theorem enterWrite_begins {hashString : Bytes → UInt32} {db after : Db kh}
    {table entry : Nat} {key : Bytes}
    (run : enterWrite hashString db table key = .ok (after, some entry)) :
    Begins after table entry := by
  unfold enterWrite at run
  simp only [bind_eq_ok] at run
  obtain ⟨set, -, run⟩ := run
  split at run
  · split at run
    · cases (Prod.mk.inj (pure_eq_ok.mp run)).2
    · simp only [bind_eq_ok, Prod.exists] at run
      obtain ⟨cleared, -, entered, held, enters, run⟩ := run
      obtain ⟨rfl, same⟩ := Prod.mk.inj (pure_eq_ok.mp run)
      obtain rfl := Option.some.inj same
      exact enterNew_begins enters
  · simp only [bind_eq_ok, Prod.exists] at run
    obtain ⟨entered, held, enters, run⟩ := run
    obtain ⟨rfl, same⟩ := Prod.mk.inj (pure_eq_ok.mp run)
    obtain rfl := Option.some.inj same
    exact enterNew_begins enters

/-- How often a length that needs a key file directly follows another one that
does. -/
def replacedFiles : (lengths : List Nat) → Nat
  | [] => 0
  | [_] => 0
  | former :: length :: rest =>
      (if blockLength < former ∧ blockLength < length then 1 else 0) +
        replacedFiles (length :: rest)

/-- From storage for one length to storage for the last one. -/
theorem Stored.run {base db : Db kh} {target : Target}
    {table entry former last : Nat} {lengths : List Nat} {left : List KeyPath}
    (stored : Stored base db target table entry former left)
    (room : CanStoreAll table entry db lengths)
    (isLast : (former :: lengths).getLast? = some last) :
    ∃ after next others, writeAllocates db entry target lengths =
        .ok (after, next) ∧
      Stored base after next table entry last others ∧
      others.length ≤ left.length + replacedFiles (former :: lengths) := by
  induction lengths generalizing db target former left with
  | nil =>
      obtain rfl := Option.some.inj isLast
      exact ⟨db, target, left, rfl, stored, Nat.le_refl _⟩
  | cons length rest ih =>
      obtain ⟨room, roomLater⟩ := room
      obtain ⟨mid, midTarget, midLeft, first, midStored, fewer⟩ :=
        stored.next room
      obtain ⟨after, next, others, run, isStored, few⟩ :=
        ih midStored (roomLater mid midTarget first) isLast
      refine ⟨after, next, others, ?_, isStored, ?_⟩
      · unfold writeAllocates
        rw [first]
        exact run
      · unfold replacedFiles
        omega

/-- The length and the range after the last call, and the size where no length
was below the one before it. -/
theorem Resizable.run {db : Db kh} {target : Target}
    {table entry former last : Nat} {lengths : List Nat}
    (ready : Resizable db table entry)
    (dataLength : db.entry.dataLength entry = former)
    (range : target.endPosition = target.position + former)
    (bounded : ∀ length ∈ lengths, length < 2147483648)
    (isLast : (former :: lengths).getLast? = some last) :
    ∃ after next, writeAllocates db entry target lengths = .ok (after, next) ∧
      after.entry.dataLength entry = last ∧
      next.endPosition = next.position + last ∧
      ∀ size, (former :: lengths).IsChain (· ≤ ·) →
        db.dbSizeBytes = u64 (size + former) →
        after.dbSizeBytes = u64 (size + last) := by
  induction lengths generalizing db target former with
  | nil =>
      obtain rfl := Option.some.inj isLast
      exact ⟨db, target, rfl, dataLength, range, fun _ _ counted => counted⟩
  | cons length rest ih =>
      obtain ⟨mid, midTarget, first, midReady, midLength, midRange, growth⟩ :=
        ready.step (bounded length List.mem_cons_self)
      obtain ⟨after, next, run, isLength, isRange, counts⟩ := ih midReady
        midLength midRange
        (fun other member => bounded other (List.mem_cons_of_mem _ member))
        isLast
      refine ⟨after, next, ?_, isLength, isRange, fun size grows counted => ?_⟩
      · unfold writeAllocates
        rw [first]
        exact run
      · obtain ⟨le, grows⟩ := List.isChain_cons_cons.mp grows
        refine counts size grows ?_
        rw [growth (dataLength ▸ le), dataLength, counted]
        unfold u64
        omega

/-- However often the length of an upload is given, the entry has the last one
in the end, and one that never shrank has been counted once.  Where every call
finds the space it needs, the entry owns the one block or the one key file that
the last length needs, and nothing else is left of the earlier ones but key
files that a key file replaced. -/
theorem writeAllocates_stored {db : Db kh} {table entry last : Nat}
    {lengths : List Nat} (target : Target) (begins : Begins db table entry)
    (sound : db.BlocksSound) (few : db.blocksExist ≤ 2147483647)
    (bounded : ∀ length ∈ lengths, length < 2147483648)
    (isLast : lengths.getLast? = some last) :
    ∃ after next, writeAllocates db entry target lengths = .ok (after, next) ∧
      after.entry.dataLength entry = last ∧
      next.endPosition = next.position + last ∧
      (lengths.IsChain (· ≤ ·) →
        after.dbSizeBytes = u64 (db.dbSizeBytes + last)) ∧
      (CanStoreAll table entry db lengths →
        ∃ left, left.length ≤ replacedFiles lengths ∧
          Stored db after next table entry last left) := by
  cases lengths with
  | nil => cases isLast
  | cons length rest =>
      have ready : Resizable db table entry :=
        ⟨begins.inTable, sound, few, fun _ => begins.blank⟩
      obtain ⟨mid, midTarget, first, midReady, midLength, midRange, growth⟩ :=
        ready.step (bounded length List.mem_cons_self)
      obtain ⟨after, next, run, isLength, isRange, counts⟩ := midReady.run
        midLength midRange
        (fun other member => bounded other (List.mem_cons_of_mem _ member))
        isLast
      have blank := begins.blank
      have counted : mid.dbSizeBytes = u64 (db.dbSizeBytes + length) := by
        rw [growth (by omega), blank]
        rfl
      refine ⟨after, next, ?_, isLength, isRange,
        fun grows => counts _ grows counted, ?_⟩
      · unfold writeAllocates
        rw [first]
        exact run
      · rintro ⟨room, roomLater⟩
        have cleared : Cleared db db table entry [] :=
          ⟨begins.inTable, sound, few, fun _ => Iff.rfl,
            ⟨by simp, by simp, fun _ _ => rfl⟩⟩
        obtain ⟨stored, storedTarget, storing, isStored⟩ :=
          cleared.start begins.unstored room
        obtain ⟨rfl, rfl⟩ :=
          Prod.mk.inj (Except.ok.inj (storing.symm.trans first))
        obtain ⟨last, lastTarget, left, ends, lastStored, fewer⟩ :=
          isStored.run (roomLater _ _ first) isLast
        obtain ⟨rfl, rfl⟩ := Prod.mk.inj (Except.ok.inj (ends.symm.trans run))
        exact ⟨left, by simpa using fewer, lastStored⟩

/-- A store with one entry that waits for its length. -/
def awaitingLength : Db listHash :=
  { emptyDb emptyDisk with
    entry :=
      { (emptyDb emptyDisk : Db listHash).entry with
        count := 1
        table := fun _ => some 0
        block := fun _ => -2 } }

theorem awaitingLength_begins : Begins awaitingLength 0 0 := ⟨rfl, rfl, rfl⟩

theorem awaitingLength_sound : awaitingLength.BlocksSound where
  nodup := List.nodup_nil
  counted := rfl
  free_lt := fun _ member => absurd member List.not_mem_nil
  owned_lt := fun _ owned => absurd owned (show ¬(0 : Int) ≤ -2 by decide)
  distinct := fun _ _ owned _ =>
    absurd owned (show ¬(0 : Int) ≤ -2 by decide)
  unlisted := fun _ _ => List.not_mem_nil
  exist_lt := by decide

/-- A test of the space that every call finds. -/
def findsSpace (table entry : Nat) : Db listHash → List Nat → Bool
  | _, [] => true
  | db, length :: rest =>
      decide (db.freeBlocks ≠ [] ∨ db.blocksExist < 2147483647) &&
        (freshPath db table entry 2 (db.entry.it entry)).isSome &&
        match dbTargetWriteAllocate db entry length with
        | .ok (after, _) => findsSpace table entry after rest
        | .error _ => true

theorem freshPath_mono {db : Db kh} {table entry attempts more it : Nat}
    (le : attempts ≤ more)
    (fresh : freshPath db table entry attempts it ≠ none) :
    freshPath db table entry more it ≠ none := by
  induction attempts generalizing more it with
  | zero => exact absurd rfl fresh
  | succ attempts ih =>
      obtain ⟨more, rfl⟩ : ∃ fewer, more = fewer + 1 := ⟨more - 1, by omega⟩
      unfold freshPath at fresh ⊢
      dsimp only at fresh ⊢
      split
      · exact Option.some_ne_none _
      · next inode used =>
          rw [used] at fresh
          exact ih (by omega) fresh

theorem findsSpace_sound {table entry : Nat} {db : Db listHash}
    {lengths : List Nat} (passes : findsSpace table entry db lengths = true) :
    CanStoreAll table entry db lengths := by
  induction lengths generalizing db with
  | nil => trivial
  | cons length rest ih =>
      unfold findsSpace at passes
      simp only [Bool.and_eq_true, decide_eq_true_eq] at passes
      obtain ⟨⟨block, file⟩, later⟩ := passes
      refine ⟨?_, fun after next run => ih ?_⟩
      · unfold CanStore
        split
        · exact fun _ => block
        · exact freshPath_mono (by decide) (Option.isSome_iff_ne_none.mp file)
      · rw [run] at later
        exact later

/-- A file, a block, and two files after each other, the first of which stays
behind. -/
theorem writeAllocates_stored_switch :
    ∃ after next left,
      writeAllocates awaitingLength 0 ⟨.closed, 0, 0⟩
        [5000, 5, 100, 5000, 6000] = .ok (after, next) ∧
      after.entry.dataLength 0 = 6000 ∧
      next.endPosition = next.position + 6000 ∧ left.length ≤ 1 ∧
      Stored awaitingLength after next 0 0 6000 left := by
  have bounded : ∀ length ∈ [5000, 5, 100, 5000, 6000],
      length < 2147483648 := by
    decide
  obtain ⟨after, next, run, length, range, -, stored⟩ :=
    writeAllocates_stored ⟨.closed, 0, 0⟩ awaitingLength_begins
      awaitingLength_sound (by decide) bounded rfl
  have space : findsSpace 0 0 awaitingLength [5000, 5, 100, 5000, 6000] =
      true := by
    decide +kernel
  obtain ⟨left, fewer, isStored⟩ := stored (findsSpace_sound space)
  exact ⟨after, next, left, run, length, range, fewer, isStored⟩

/-- The storage the last length alone asks for, where an empty value has a
key file too. -/
def OwnsWhatFits (base db : Db kh) (target : Target)
    (table entry length : Nat) : Prop :=
  if 1 ≤ length ∧ length ≤ blockLength then
    ∃ block, OwnsBlock base db target table entry block []
  else ∃ inode, OwnsFile base db target table entry inode length []

/-- The store when no block can be had. -/
def fullStore : Db listHash :=
  { awaitingLength with blocksExist := 2147483647 }

/-- The store when every file name is taken. -/
def crowdedStore : Db listHash :=
  { awaitingLength with disk.paths := fun _ => some 0 }

/-- A search among names that are all taken finds none. -/
theorem dbEntryOpenCreate_crowded {db : Db kh} {table entry : Nat}
    (inTable : db.entry.table entry = some table)
    (crowded : ∀ path, db.disk.paths path ≠ none) (attempts : Nat) :
    ∃ after, dbEntryOpenCreate db entry attempts = .ok (after, .closed) ∧
      after.entry.dataLength = db.entry.dataLength := by
  induction attempts generalizing db with
  | zero => exact ⟨db, rfl, rfl⟩
  | succ attempts ih =>
      obtain ⟨inode, used⟩ := Option.ne_none_iff_exists'.mp
        (crowded (keyPathIn db table entry))
      unfold dbEntryOpenCreate
      rw [getKeyPath_eq_ok.mpr ⟨table, inTable, rfl⟩, ok_bind, used]
      have stays : (db.setIt entry
          (u16 (db.entry.it entry + 1))).entry.table entry = some table :=
        inTable
      exact ih stays crowded

/-- An empty value is put into a block; a file that replaces a file leaves the
earlier one behind; a length that shrinks adds `2 ^ 32` to the size; where no
block or no file name can be had, the entry owns none. -/
theorem writeAllocates_not_last :
    (¬∃ after next, writeAllocates awaitingLength 0 ⟨.closed, 0, 0⟩ [0] =
        .ok (after, next) ∧ OwnsWhatFits awaitingLength after next 0 0 0) ∧
    (¬∃ after next,
      writeAllocates awaitingLength 0 ⟨.closed, 0, 0⟩ [5000, 6000] =
        .ok (after, next) ∧ OwnsWhatFits awaitingLength after next 0 0 6000) ∧
    (¬∃ after next,
      writeAllocates awaitingLength 0 ⟨.closed, 0, 0⟩ [5000, 100] =
        .ok (after, next) ∧
      after.dbSizeBytes = u64 (awaitingLength.dbSizeBytes + 100)) ∧
    (¬∃ after next, writeAllocates fullStore 0 ⟨.closed, 0, 0⟩ [100] =
        .ok (after, next) ∧ OwnsWhatFits fullStore after next 0 0 100) ∧
    ¬∃ after next, writeAllocates crowdedStore 0 ⟨.closed, 0, 0⟩ [5000] =
        .ok (after, next) ∧ OwnsWhatFits crowdedStore after next 0 0 5000 := by
  refine ⟨?_, ?_, ?_, ?_, ?_⟩
  · rintro ⟨after, next, run, owns⟩
    have isBlock : endsIn
        (writeAllocates awaitingLength 0 ⟨.closed, 0, 0⟩ [0])
        (fun result => result.2.fd = .blockfile) = true := by decide +kernel
    have ends := endsIn_ok isBlock run
    have fd := of_decide_eq_true ends
    obtain ⟨inode, owns⟩ := owns
    rw [owns.fd] at fd
    cases fd
  · rintro ⟨after, next, run, owns⟩
    have bothThere : endsIn
        (writeAllocates awaitingLength 0 ⟨.closed, 0, 0⟩ [5000, 6000])
        (fun result => (result.1.disk.paths
            { keyPathIn awaitingLength 0 0 with it := 0 }).isSome ∧
          (result.1.disk.paths
            { keyPathIn awaitingLength 0 0 with it := 1 }).isSome) =
          true := by decide +kernel
    have ends := endsIn_ok bothThere run
    have there := of_decide_eq_true ends
    obtain ⟨inode, owns⟩ := owns
    have onlyOwn : ∀ path, (after.disk.paths path).isSome →
        path = keyPathIn after 0 0 := by
      intro path some_
      by_contra different
      have absent : path ∉ [keyPathIn after 0 0] := by simpa using different
      rw [owns.files.same path absent] at some_
      cases some_
    have same := (onlyOwn _ there.1).trans (onlyOwn _ there.2).symm
    exact absurd (congrArg KeyPath.it same) (by decide)
  · rintro ⟨after, next, run, counted⟩
    have size : endsIn
        (writeAllocates awaitingLength 0 ⟨.closed, 0, 0⟩ [5000, 100])
        (fun result => result.1.dbSizeBytes = 4294967396) = true := by
      decide +kernel
    have ends := endsIn_ok size run
    have large := of_decide_eq_true ends
    rw [large] at counted
    exact absurd counted (by decide)
  · rintro ⟨after, next, run, owns⟩
    have unowned : endsIn
        (writeAllocates fullStore 0 ⟨.closed, 0, 0⟩ [100])
        (fun result => result.1.entry.block 0 = -1) = true := by
      decide +kernel
    have ends := endsIn_ok unowned run
    have noBlock : after.entry.block 0 = -1 := of_decide_eq_true ends
    obtain ⟨block, owns⟩ := owns
    have isBlock := owns.block_eq
    omega
  · rintro ⟨after, next, run, owns⟩
    have choice : chooseStorage crowdedStore 0 5000 = .ok crowdedStore := rfl
    have inTable : (countLength crowdedStore 0 5000).entry.table 0 = some 0 :=
      rfl
    obtain ⟨created, creates, sameLength⟩ := dbEntryOpenCreate_crowded inTable
      (fun _ => Option.some_ne_none _) openCreateAttempts
    have isLength : created.entry.dataLength 0 = 5000 := by
      rw [sameLength]
      rfl
    have called := dbTargetWriteAllocate_file (by decide) choice creates
      isLength
    unfold writeAllocates at run
    rw [called] at run
    obtain ⟨rfl, rfl⟩ := Prod.mk.inj (Except.ok.inj run)
    obtain ⟨inode, owns⟩ := owns
    cases owns.fd

end SimpleCache
