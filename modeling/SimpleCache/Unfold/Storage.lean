import SimpleCache.Unfold.Release

/-!
# Choosing storage as changes

What a `Content-Length` header does to the entry being written: it takes or
gives up a block, counts the length, and opens a key file for a value that
does not fit a block.
-/

namespace SimpleCache

variable {kh : KHash} {hashString : Bytes → UInt32}
  {allowed : Defect → Prop}

/-- Whether `db_target_write_allocate` takes a block for this length. -/
def acquiresBlock (db : Db kh) (entry length : Nat) : Bool :=
  length ≤ blockLength ∧
    (db.entry.block entry = -2 ∨ isSingleFile db entry)

/-- The first path among `attempts` iteration numbers that has no file. -/
def freshPath (db : Db kh) (table entry : Nat) :
    (attempts it : Nat) → Option KeyPath
  | 0, _ => none
  | attempts + 1, it =>
      let path := { keyPathIn db table entry with it }
      match db.disk.paths path with
      | none => some path
      | some _ => freshPath db table entry attempts (u16 (it + 1))

theorem countLength_eq (db : Db kh) (entry length : Nat) :
    countLength db entry length = db.setLength entry length := by
  unfold countLength Db.setLength
  by_cases unstored : db.entry.block entry = -2
  · simp only [if_pos unstored]
  · simp only [if_neg unstored, Function.update_eq_self]

/-- The two ways to take a block agree on the block lists. -/
theorem dbBlockAllocateNew_unlinkPath (db : Db kh) (path : KeyPath) :
    dbBlockAllocateNew (unlinkPath db path) =
      (unlinkPath (dbBlockAllocateNew db).1 path,
        (dbBlockAllocateNew db).2) := by
  unfold dbBlockAllocateNew unlinkPath
  dsimp only
  split
  · rfl
  · split <;> rfl

/-- The parts of the store that `chooseStorage` changes. -/
def Db.withStorage (db : Db kh) (freeBlocks : List Nat)
    (blocksExist blocksFree : Nat) (blockfile : ByteFile)
    (block : Nat → Int) (paths : KeyPath → Option Nat) : Db kh :=
  { db with
    freeBlocks, blocksExist, blocksFree
    entry.block := block
    disk.blockfile := blockfile
    disk.paths := paths }

/-- A block is taken for the entry. -/
private theorem acquire_changes (work : Work kh) {entry : Nat}
    (storing : work.pending = .storing entry)
    (unowned : work.db.entry.block entry < 0 ∨ isSingleFile work.db entry)
    (unstored : work.db.entry.block entry = -2 ∨ allowed .shrink)
    (unnamed : ¬NamesBlock work.db (dbBlockAllocateNew work.db).2 ∨
      allowed .reuse) :
    Changes hashString allowed work
      { work with
        db := (dbBlockAllocateNew work.db).1.setBlock entry
          (dbBlockAllocateNew work.db).2 } := by
  obtain ⟨freeBlocks, blocksExist, blocksFree, blockfile, block, eq⟩ :=
    dbBlockAllocateNew_eq work.db
  rw [eq] at unnamed ⊢
  exact .single (.acquireBlock work entry freeBlocks blocksExist blocksFree
    blockfile block storing unowned unstored eq unnamed)

theorem chooseStorage_eq {db after : Db kh} {entry length : Nat}
    (run : chooseStorage db entry length = .ok after) :
    ∃ freeBlocks blocksExist blocksFree blockfile block paths,
      after = db.withStorage freeBlocks blocksExist blocksFree blockfile block
        paths ∧
      (length ≤ blockLength ∨
        (paths = db.disk.paths ∧ block entry < 0)) := by
  unfold chooseStorage at run
  by_cases unstored : db.entry.block entry = -2
  · rw [if_pos unstored] at run
    by_cases small : length ≤ blockLength
    · rw [if_pos small] at run
      obtain ⟨freeBlocks, blocksExist, blocksFree, blockfile, block, eq⟩ :=
        dbBlockAllocateNew_eq db
      rw [eq] at run
      obtain rfl := pure_eq_ok.mp run
      exact ⟨_, _, _, _, _, _, rfl, Or.inl small⟩
    · rw [if_neg small] at run
      obtain rfl := pure_eq_ok.mp run
      have unowned : db.entry.block entry < 0 := by omega
      exact ⟨_, _, _, _, _, _, rfl, Or.inr ⟨rfl, unowned⟩⟩
  · rw [if_neg unstored] at run
    by_cases large : blockLength < length
    · rw [if_pos large] at run
      obtain rfl := pure_eq_ok.mp run
      split
      · obtain ⟨freeBlocks, blocksExist, blocksFree, blockfile, eq⟩ :=
          dbBlockFree_eq db (db.entry.block entry)
        rw [eq]
        exact ⟨_, _, _, _, _, _, rfl, Or.inr ⟨rfl, by simp⟩⟩
      · exact ⟨_, _, _, _, _, _, rfl, Or.inr ⟨rfl, by simp⟩⟩
    · have small : length ≤ blockLength := Nat.le_of_not_lt large
      rw [if_neg large] at run
      by_cases single : isSingleFile db entry = true
      · rw [if_pos single] at run
        simp only [bind_eq_ok, getKeyPath_eq_ok] at run
        obtain ⟨path, ⟨table, inTable, rfl⟩, run⟩ := run
        obtain ⟨freeBlocks, blocksExist, blocksFree, blockfile, block, eq⟩ :=
          dbBlockAllocateNew_eq (unlinkPath db (keyPathIn db table entry))
        rw [eq] at run
        obtain rfl := pure_eq_ok.mp run
        exact ⟨_, _, _, _, _, _, rfl, Or.inl small⟩
      · rw [if_neg single] at run
        obtain rfl := pure_eq_ok.mp run
        exact ⟨_, _, _, _, _, _, rfl, Or.inl small⟩

theorem chooseStorage_changes (work : Work kh) {entry length : Nat}
    {after : Db kh} (storing : work.pending = .storing entry)
    (held : work.connection.target = .entry entry)
    (grows : work.db.entry.dataLength entry ≤ length ∨ allowed .shrink)
    (unnamed : acquiresBlock work.db entry length = true →
      ¬NamesBlock work.db (dbBlockAllocateNew work.db).2 ∨ allowed .reuse)
    (run : chooseStorage work.db entry length = .ok after) :
    Changes hashString allowed work { work with db := after } := by
  unfold chooseStorage at run
  by_cases unstored : work.db.entry.block entry = -2
  · rw [if_pos unstored] at run
    by_cases small : length ≤ blockLength
    · rw [if_pos small] at run
      obtain rfl := pure_eq_ok.mp run
      exact acquire_changes work storing (Or.inl (by omega))
        (Or.inl unstored) (unnamed (by simp [acquiresBlock, small, unstored]))
    · rw [if_neg small] at run
      obtain rfl := pure_eq_ok.mp run
      exact .refl
  · rw [if_neg unstored] at run
    by_cases large : blockLength < length
    · rw [if_pos large] at run
      obtain rfl := pure_eq_ok.mp run
      by_cases inBlock : isSingleFile work.db entry = false ∧
          0 ≤ work.db.entry.block entry
      · rw [if_pos inBlock]
        obtain ⟨freeBlocks, blocksExist, blocksFree, blockfile, freed⟩ :=
          dbBlockFree_eq work.db (work.db.entry.block entry)
        rw [freed]
        exact .single (.releaseBlock work entry freeBlocks blocksExist
          blocksFree blockfile storing inBlock.1 inBlock.2 freed)
      · rw [if_neg inBlock]
        refine .single (.noBlock work entry storing ?_)
        by_cases single : isSingleFile work.db entry = true
        · exact Or.inr single
        · left
          by_contra owned
          exact inBlock ⟨by simpa using single, not_lt.mp owned⟩
    · rw [if_neg large] at run
      by_cases single : isSingleFile work.db entry = true
      · rw [if_pos single] at run
        simp only [bind_eq_ok, getKeyPath_eq_ok, pure_eq_ok] at run
        obtain ⟨path, ⟨table, inTable, rfl⟩, rfl⟩ := run
        have wasLarge : blockLength < work.db.entry.dataLength entry := by
          simpa [isSingleFile] using single
        have shrinks : allowed .shrink := grows.resolve_left (by omega)
        refine .head (.unlinkOpen work entry table held inTable) ?_
        have unnamed := unnamed (by
          simp only [acquiresBlock, single, or_true, and_true, decide_eq_true_eq]
          omega)
        refine acquire_changes { work with
          db := unlinkPath work.db (keyPathIn work.db table entry) }
          storing (Or.inr single) (Or.inr shrinks) ?_
        rw [dbBlockAllocateNew_unlinkPath]
        exact unnamed
      · rw [if_neg single] at run
        obtain rfl := pure_eq_ok.mp run
        exact .refl

/-- The path of an entry, with another iteration number. -/
theorem keyPathIn_setIt (db : Db kh) (table entry it : Nat) :
    keyPathIn (db.setIt entry it) table entry =
      { keyPathIn db table entry with it } := by
  simp [keyPathIn, Db.setIt]

/-- The search for a path depends on the entry's hashes and the files. -/
theorem freshPath_congr (db other : Db kh) (table entry : Nat)
    (paths : other.disk.paths = db.disk.paths)
    (same : ∀ it, ({ keyPathIn other table entry with it } : KeyPath) =
      { keyPathIn db table entry with it })
    (attempts it : Nat) :
    freshPath other table entry attempts it =
      freshPath db table entry attempts it := by
  induction attempts generalizing it with
  | zero => rfl
  | succ attempts ih =>
      unfold freshPath
      simp only [same, paths, ih]

theorem freshPath_setIt (db : Db kh) (table entry other : Nat)
    (attempts it : Nat) :
    freshPath (db.setIt entry other) table entry attempts it =
      freshPath db table entry attempts it :=
  freshPath_congr db (db.setIt entry other) table entry rfl
    (fun _ => by simp only [keyPathIn_setIt]) attempts it

/-- Another iteration number of this entry is nothing to other entries. -/
theorem expected_setIt {db : Db kh} {entry it : Nat} {path : KeyPath} :
    Expected (db.setIt entry it) entry path ↔ Expected db entry path := by
  have same : ∀ {other table : Nat}, other ≠ entry →
      keyPathIn (db.setIt entry it) table other = keyPathIn db table other := by
    intro other table different
    simp [keyPathIn, Db.setIt, different]
  constructor
  · rintro ⟨other, table, different, lt, live, single, inTable, rfl⟩
    exact ⟨other, table, different, lt, live, single, inTable,
      (same different).symm⟩
  · rintro ⟨other, table, different, lt, live, single, inTable, rfl⟩
    exact ⟨other, table, different, lt, live, single, inTable,
      same different⟩

/-- The length and the storage of this entry are nothing to other entries. -/
theorem expected_setLength {db : Db kh} {freeBlocks : List Nat}
    {blocksExist blocksFree : Nat} {blockfile : ByteFile} {block : Nat → Int}
    {paths : KeyPath → Option Nat} {entry length : Nat} {path : KeyPath} :
    Expected ((db.withStorage freeBlocks blocksExist blocksFree blockfile block
        paths).setLength entry length) entry path ↔
      Expected db entry path := by
  have same : ∀ {other : Nat}, other ≠ entry →
      isSingleFile ((db.withStorage freeBlocks blocksExist blocksFree blockfile
        block paths).setLength entry length) other = isSingleFile db other := by
    intro other different
    simp [isSingleFile, Db.setLength, Db.withStorage, different]
  constructor
  · rintro ⟨other, table, different, lt, live, single, rest⟩
    rw [same different] at single
    exact ⟨other, table, different, lt, live, single, rest⟩
  · rintro ⟨other, table, different, lt, live, single, rest⟩
    rw [← same different] at single
    exact ⟨other, table, different, lt, live, single, rest⟩

/-- The file of an upload: a fresh one under the first free path, or none. -/
theorem dbEntryOpenCreate_changes {attempts : Nat} (work : Work kh)
    {entry table : Nat} {after : Db kh} {fd : Fd}
    (storing : work.pending = .storing entry)
    (held : work.connection.target = .entry entry)
    (inTable : work.db.entry.table entry = some table)
    (closed : work.connection.fd = .closed)
    (unclaimed : ∀ path,
      freshPath work.db table entry attempts (work.db.entry.it entry) =
        some path →
      (¬Expected work.db entry path ∨ allowed .steal) ∧
        (¬NamesFile hashString work.db path ∨ allowed .reuse))
    (run : dbEntryOpenCreate work.db entry attempts = .ok (after, fd)) :
    Changes hashString allowed work
      { work with
        db := after
        connection := { work.connection with fd } } := by
  induction attempts generalizing work with
  | zero =>
      obtain ⟨rfl, rfl⟩ := Prod.mk.inj (pure_eq_ok.mp run)
      rw [← closed]
  | succ attempts ih =>
      unfold dbEntryOpenCreate at run
      simp only [bind_eq_ok, getKeyPath_eq_ok] at run
      obtain ⟨path, ⟨held', heldEq, rfl⟩, run⟩ := run
      obtain rfl : table = held' :=
        Option.some.inj (inTable.symm.trans heldEq)
      have first : ∀ inode,
          work.db.disk.paths (keyPathIn work.db table entry) = inode →
          freshPath work.db table entry (attempts + 1)
              (work.db.entry.it entry) =
            match inode with
            | none => some (keyPathIn work.db table entry)
            | some _ => freshPath work.db table entry attempts
                (u16 (work.db.entry.it entry + 1)) := by
        rintro _ rfl
        rfl
      cases used : work.db.disk.paths (keyPathIn work.db table entry) with
      | none =>
          simp only [used] at run
          obtain ⟨unexpected, unnamed⟩ := unclaimed _ (first none used)
          obtain ⟨rfl, rfl⟩ := Prod.mk.inj (pure_eq_ok.mp run)
          exact .single (.createFile work entry table storing held inTable used
            unexpected unnamed)
      | some inode =>
          simp only [used] at run
          refine .head (.nextPath work entry storing) ?_
          refine ih
            { work with
              db := work.db.setIt entry (u16 (work.db.entry.it entry + 1)) }
            storing held inTable closed ?_ run
          intro path found
          rw [freshPath_setIt] at found
          rw [expected_setIt]
          refine unclaimed path ((first _ used).trans ?_)
          rw [← found]
          simp [Db.setIt]

theorem dbEntryOpenCreate_inTable {attempts : Nat} (positive : 0 < attempts)
    {db after : Db kh} {entry : Nat} {fd : Fd}
    (run : dbEntryOpenCreate db entry attempts = .ok (after, fd)) :
    ∃ table, db.entry.table entry = some table := by
  obtain ⟨attempts, rfl⟩ := Nat.exists_eq_succ_of_ne_zero positive.ne'
  unfold dbEntryOpenCreate at run
  simp only [bind_eq_ok, getKeyPath_eq_ok] at run
  obtain ⟨path, ⟨table, inTable, rfl⟩, -⟩ := run
  exact ⟨table, inTable⟩

/-- Opening a key file changes files and an iteration number. -/
theorem dbEntryOpenCreate_eq {attempts : Nat} {db after : Db kh}
    {entry : Nat} {fd : Fd}
    (run : dbEntryOpenCreate db entry attempts = .ok (after, fd)) :
    ∃ it disk, after = { db with entry := { db.entry with it }, disk } ∧
      fd ≠ .blockfile := by
  induction attempts generalizing db with
  | zero =>
      obtain ⟨rfl, rfl⟩ := Prod.mk.inj (pure_eq_ok.mp run)
      exact ⟨_, _, rfl, by simp⟩
  | succ attempts ih =>
      unfold dbEntryOpenCreate at run
      rw [bind_eq_ok] at run
      obtain ⟨path, -, run⟩ := run
      cases used : db.disk.paths path with
      | none =>
          simp only [used] at run
          obtain ⟨rfl, rfl⟩ := Prod.mk.inj (pure_eq_ok.mp run)
          exact ⟨_, _, rfl, by simp⟩
      | some inode =>
          simp only [used] at run
          obtain ⟨it, disk, afterEq, isFile⟩ := ih run
          exact ⟨it, disk, afterEq, isFile⟩

/-- What a length makes of the storage of an entry that stays clear of other
entries and of saved indexes, as far as it has to. -/
structure StoresClear (hashString : Bytes → UInt32) (allowed : Defect → Prop)
    (db : Db kh) (entry length : Nat) : Prop where
  live : db.entry.deleted entry = false ∨ allowed .lateLength
  grows : db.entry.dataLength entry ≤ length ∨ allowed .shrink
  sizes : db.dbSizeBytes + length <
      18446744073709551616 + db.entry.dataLength entry ∨ allowed .sizeWrap
  unnamed : acquiresBlock db entry length = true →
    ¬NamesBlock db (dbBlockAllocateNew db).2 ∨ allowed .reuse
  unclaimed : blockLength < length → ∀ table path,
    db.entry.table entry = some table →
    freshPath db table entry openCreateAttempts (db.entry.it entry) =
      some path →
    (¬Expected db entry path ∨ allowed .steal) ∧
      (¬NamesFile hashString db path ∨ allowed .reuse)

/-- The second half of `db_target_write_allocate`. -/
private theorem openTarget_changes (work : Work kh) {entry length : Nat}
    {opened after : Db kh} {target result : Target}
    (storing : work.pending = .storing entry)
    (held : work.connection.target = .entry entry)
    (isWriting : work.connection.isWriting = true)
    (closed : work.connection.fd = .closed)
    (lengthEq : work.db.entry.dataLength entry = length)
    (unclaimed : blockLength < length → ∀ table path,
      work.db.entry.table entry = some table →
      freshPath work.db table entry openCreateAttempts
        (work.db.entry.it entry) = some path →
      (¬Expected work.db entry path ∨ allowed .steal) ∧
        (¬NamesFile hashString work.db path ∨ allowed .reuse))
    (opening : dbTargetOpen work.db entry true = .ok (opened, target))
    (run : (if isSingleFile opened entry then
        pure (truncateFd opened target.fd length, target)
      else pure (opened, target)) = Except.ok (ε := Fault) (after, result)) :
    Changes hashString allowed work
      { work with
        db := after
        connection :=
          { work.connection with
            fd := result.fd
            position := result.position
            endPosition := result.position + after.entry.dataLength entry }
        pending := .idle } := by
  unfold dbTargetOpen at opening
  cases single : isSingleFile work.db entry with
  | false =>
      simp only [single, Bool.false_eq_true, if_false] at opening
      obtain ⟨rfl, rfl⟩ := Prod.mk.inj (pure_eq_ok.mp opening)
      rw [single, if_neg (by simp)] at run
      obtain ⟨rfl, rfl⟩ := Prod.mk.inj (pure_eq_ok.mp run)
      refine .single (.endStoring work entry .blockfile _ storing ?_ ?_)
      · simp [single]
      · simp [single]
  | true =>
      simp only [single, if_true, bind_eq_ok, pure_eq_ok, Prod.exists,
        Prod.mk.injEq] at opening
      obtain ⟨created, fd, creation, rfl, rfl⟩ := opening
      have large : blockLength < length := by
        simpa [isSingleFile, lengthEq] using single
      obtain ⟨table, inTable⟩ := dbEntryOpenCreate_inTable
        (by decide : 0 < openCreateAttempts) creation
      have creates := dbEntryOpenCreate_changes work storing held inTable
        closed (unclaimed large table · inTable) creation
      obtain ⟨it, disk, createdEq, isFile⟩ := dbEntryOpenCreate_eq creation
      have stillSingle : isSingleFile created entry = true := by
        rw [createdEq]
        exact single
      rw [stillSingle, if_pos rfl] at run
      obtain ⟨rfl, rfl⟩ := Prod.mk.inj (pure_eq_ok.mp run)
      have truncates : Changes hashString allowed
          { work with
            db := created
            connection := { work.connection with fd } }
          { work with
            db := truncateFd created fd length
            connection := { work.connection with fd } } := by
        cases fd with
        | closed => exact .refl
        | blockfile => exact absurd rfl isFile
        | file inode =>
            exact .single (.truncateFile _ inode length isWriting rfl)
      have sameEntry : (truncateFd created fd length).entry = created.entry := by
        cases fd <;> rfl
      have singleAfter :
          isSingleFile (truncateFd created fd length) entry = true := by
        unfold isSingleFile
        rw [sameEntry]
        exact stillSingle
      refine creates.trans (truncates.trans (.single (.endStoring _ entry fd 0
        storing ?_ ?_)))
      · exact (if_pos singleAfter).symm
      · exact (if_pos singleAfter).symm

theorem dbTargetWriteAllocate_changes (work : Work kh) {entry length : Nat}
    {after : Db kh} {target : Target} (idle : work.pending = .idle)
    (held : work.connection.target = .entry entry)
    (isWriting : work.connection.isWriting = true)
    (bounded : length < 2147483648)
    (clear : StoresClear hashString allowed work.db entry length)
    (run : dbTargetWriteAllocate work.db entry length = .ok (after, target)) :
    Changes hashString allowed work
      { work with
        db := after
        connection :=
          { work.connection with
            fd := target.fd
            position := target.position
            endPosition := target.position + after.entry.dataLength entry } } := by
  unfold dbTargetWriteAllocate at run
  simp only [bind_eq_ok, countLength_eq] at run
  obtain ⟨chosen, choice, ⟨opened, target'⟩, opening, run⟩ := run
  have chooses : Changes hashString allowed work
      { work with
        db := chosen
        connection := { work.connection with fd := .closed }
        pending := .storing entry } :=
    .head (.beginStoring work entry idle held isWriting)
      (chooseStorage_changes
        { work with
          connection := { work.connection with fd := .closed }
          pending := .storing entry } rfl held clear.grows
        clear.unnamed choice)
  obtain ⟨freeBlocks, blocksExist, blocksFree, blockfile, block, paths, rfl,
    placed⟩ := chooseStorage_eq choice
  generalize countedEq : Db.setLength (work.db.withStorage freeBlocks
    blocksExist blocksFree blockfile block paths) entry length = counted
    at opening
  have counts : Changes hashString allowed
      { work with
        db := work.db.withStorage freeBlocks blocksExist blocksFree blockfile
          block paths
        connection := { work.connection with fd := .closed }
        pending := .storing entry }
      { work with
        db := counted
        connection := { work.connection with fd := .closed }
        pending := .storing entry } :=
    countedEq ▸ .single (.setLength _ entry length rfl bounded
      (placed.imp_right fun large => large.2) clear.live
      clear.grows clear.sizes)
  have lengthEq : counted.entry.dataLength entry = length := by
    rw [← countedEq]
    exact Function.update_self ..
  have unclaimed : blockLength < length → ∀ table path,
      counted.entry.table entry = some table →
      freshPath counted table entry openCreateAttempts
        (counted.entry.it entry) = some path →
      (¬Expected counted entry path ∨ allowed .steal) ∧
        (¬NamesFile hashString counted path ∨ allowed .reuse) := by
    intro large table path inTable found
    obtain ⟨rfl, -⟩ := placed.resolve_left (by omega)
    subst countedEq
    have sameSearch := freshPath_congr work.db
      ((work.db.withStorage freeBlocks blocksExist blocksFree blockfile block
        work.db.disk.paths).setLength entry length) table entry rfl
      (fun _ => rfl) openCreateAttempts (work.db.entry.it entry)
    obtain ⟨unexpected, unnamed⟩ := clear.unclaimed large table path inTable
      (sameSearch.symm.trans found)
    refine ⟨unexpected.imp_left fun free => ?_, unnamed⟩
    rw [expected_setLength]
    exact free
  have opens : Changes hashString allowed _ _ := openTarget_changes
    { work with
      db := counted
      connection := { work.connection with fd := .closed }
      pending := .storing entry }
    rfl held isWriting rfl lengthEq unclaimed opening run
  rw [← idle] at opens
  exact chooses.trans (counts.trans opens)

/-- A key file is written from its start. -/
theorem dbTargetWriteAllocate_position {db after : Db kh}
    {entry length : Nat} {target : Target}
    (run : dbTargetWriteAllocate db entry length = .ok (after, target))
    (single : isSingleFile after entry = true) : target.position = 0 := by
  unfold dbTargetWriteAllocate at run
  simp only [bind_eq_ok, Prod.exists] at run
  obtain ⟨chosen, -, opened, opening, openingEq, run⟩ := run
  have sameEntry : after.entry = opened.entry ∧ target = opening := by
    split at run
    · obtain ⟨rfl, rfl⟩ := Prod.mk.inj (pure_eq_ok.mp run)
      refine ⟨?_, rfl⟩
      cases opening.fd <;> rfl
    · obtain ⟨rfl, rfl⟩ := Prod.mk.inj (pure_eq_ok.mp run)
      exact ⟨rfl, rfl⟩
  obtain ⟨entryEq, rfl⟩ := sameEntry
  unfold dbTargetOpen at openingEq
  dsimp only at openingEq
  split at openingEq
  · simp only [if_true, bind_eq_ok, pure_eq_ok, Prod.exists,
      Prod.mk.injEq] at openingEq
    obtain ⟨created, fd, -, -, rfl⟩ := openingEq
    rfl
  · next block =>
      obtain ⟨rfl, -⟩ := Prod.mk.inj (pure_eq_ok.mp openingEq)
      unfold isSingleFile at single block
      rw [entryEq] at single
      exact absurd single block

/-- A response that ends the request leaves the target alone. -/
theorem writeResponse_change (work : Work kh) (template : Template) :
    Change hashString allowed work
      { work with
        toSession := work.toSession.writeResponse template } :=
  .talk work _ rfl rfl (Or.inr rfl) fun _ => ⟨rfl, rfl⟩

theorem writeResponseAfterEol_change (work : Work kh) (template : Template) :
    Change hashString allowed work
      { work with
        toSession := work.toSession.writeResponseAfterEol template } :=
  .talk work _ rfl rfl (Or.inr rfl) fun _ => ⟨rfl, rfl⟩

/-- A connection that holds no entry writes none. -/
theorem Work.HoldersConsistent.reads {work : Work kh}
    (consistent : work.HoldersConsistent)
    (noEntry : ∀ entry, work.connection.target ≠ .entry entry) :
    work.connection.isWriting = false := by
  cases isWriting : work.connection.isWriting with
  | false => rfl
  | true =>
      rw [← work.isWriting_current] at isWriting
      obtain ⟨entry, held, -⟩ := consistent.writes isWriting
      rw [work.target_current] at held
      exact absurd held (noEntry entry)

theorem readContentLength_changes (work : Work kh) {value : Option Digits}
    {after : Session kh} (consistent : work.Consistent)
    (idle : work.pending = .idle)
    (writes : ∀ entry, work.connection.target = .entry entry →
      work.connection.isWriting = true)
    (clear : ∀ entry length, work.connection.target = .entry entry →
      value = some length →
        StoresClear hashString allowed work.db entry length.val)
    (run : readContentLength work.toSession value = .ok after) :
    Changes hashString allowed work { work with toSession := after } := by
  unfold readContentLength at run
  cases value with
  | none =>
      obtain rfl := pure_eq_ok.mp run
      exact .single (writeResponse_change work .fullInvalidMethod)
  | some length =>
      cases held : work.connection.target with
      | entry entry =>
          simp only [held, bind_eq_ok, Prod.exists, pure_eq_ok] at run
          obtain ⟨db, target, allocation, rfl⟩ := run
          have endEq : (if isSingleFile db entry then
              (db.entry.dataLength entry : Int)
            else target.position + db.entry.dataLength entry) =
              target.position + db.entry.dataLength entry := by
            split
            · next single =>
                rw [dbTargetWriteAllocate_position allocation single, zero_add]
            · rfl
          rw [endEq, ← held]
          exact dbTargetWriteAllocate_changes work idle held
            (writes entry held) length.isLt (clear entry length held rfl)
            allocation
      | null =>
          have reads := consistent.holders.reads fun entry heldEntry => by
            simp [held] at heldEntry
          simp only [held] at run
          obtain rfl := pure_eq_ok.mp run
          exact .single (.talk work _ held.symm rfl (Or.inr rfl)
            fun isWriting => absurd isWriting (by simp [reads]))
      | table table =>
          have reads := consistent.holders.reads fun entry heldEntry => by
            simp [held] at heldEntry
          simp only [held] at run
          obtain rfl := pure_eq_ok.mp run
          exact .single (.talk work _ held.symm rfl (Or.inr rfl)
            fun isWriting => absurd isWriting (by simp [reads]))

end SimpleCache
