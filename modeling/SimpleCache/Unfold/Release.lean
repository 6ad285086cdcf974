import SimpleCache.Consistent.Holders
import SimpleCache.Library.Outcome

/-!
# Releases as changes

The functions that drop references and release what nobody holds, each as the
sequence of changes it makes.
-/

namespace SimpleCache

variable {kh : KHash} {hashString : Bytes → UInt32}
  {allowed : Defect → Prop} {work : Work kh}

theorem entryTable_eq_ok {db : Db kh} {entry table : Nat} :
    entryTable db entry = .ok table ↔ db.entry.table entry = some table := by
  unfold entryTable
  cases db.entry.table entry with
  | none => simp
  | some held => simp

theorem keyMap_eq_ok {db : Db kh} {table : Nat} {set : kh.Map} :
    keyMap db table = .ok set ↔
      db.table.destroyed table = false ∧ db.table.cacheHashSet table = set := by
  unfold keyMap
  cases db.table.destroyed table with
  | true => simp
  | false => simp

theorem getKeyPath_eq_ok {db : Db kh} {entry : Nat} {path : KeyPath} :
    getKeyPath db entry = .ok path ↔
      ∃ table, db.entry.table entry = some table ∧
        keyPathIn db table entry = path := by
  simp only [getKeyPath, bind_eq_ok, entryTable_eq_ok, pure_eq_ok]

theorem decTable_refs (db : Db kh) (table : Nat) :
    (db.decTable table).table.refs table =
      u15 (db.table.refs table + 32767) := by
  simp [Db.decTable]

theorem dbTableDeref_eq (db : Db kh) (table : Nat) (actuallyDelete : Bool) :
    dbTableDeref db table actuallyDelete =
      if (db.decTable table).table.refs table = 0 ∧
          (actuallyDelete ∨ db.table.deleted table) then
        dbTableActuallyDelete (db.decTable table) table
      else db.decTable table := by
  rw [decTable_refs]
  rfl

section Deref

variable (db : Db kh) (table : Nat) (actuallyDelete : Bool)

@[simp]
theorem dbTableDeref_entry :
    (dbTableDeref db table actuallyDelete).entry = db.entry := by
  rw [dbTableDeref_eq]
  split <;> rfl

@[simp]
theorem dbTableDeref_count :
    (dbTableDeref db table actuallyDelete).table.count = db.table.count := by
  rw [dbTableDeref_eq]
  split <;> rfl

@[simp]
theorem dbTableDeref_deleted :
    (dbTableDeref db table actuallyDelete).table.deleted =
      db.table.deleted := by
  rw [dbTableDeref_eq]
  split <;> rfl

@[simp]
theorem dbTableDeref_destroyed :
    (dbTableDeref db table actuallyDelete).table.destroyed =
      db.table.destroyed := by
  rw [dbTableDeref_eq]
  split <;> rfl

@[simp]
theorem dbTableDeref_cacheHashSet :
    (dbTableDeref db table actuallyDelete).table.cacheHashSet =
      db.table.cacheHashSet := by
  rw [dbTableDeref_eq]
  split <;> rfl

@[simp]
theorem dbTableDeref_refs :
    (dbTableDeref db table actuallyDelete).table.refs =
      Function.update db.table.refs table
        (u15 (db.table.refs table + 32767)) := by
  rw [dbTableDeref_eq]
  split <;> rfl

@[simp]
theorem dbTableDeref_hash :
    (dbTableDeref db table actuallyDelete).table.hash = db.table.hash := by
  rw [dbTableDeref_eq]
  split <;> rfl

/-- Dropping a reference registers no table. -/
theorem dbTableDeref_registered {hash : UInt32} {other : Nat}
    (registered : kh.lookup (dbTableDeref db table actuallyDelete).tables hash =
      some other) : kh.lookup db.tables hash = some other := by
  rw [dbTableDeref_eq] at registered
  split at registered
  · rw [lookup_dbTableActuallyDelete] at registered
    split at registered
    · simp at registered
    · exact registered
  · exact registered

end Deref

/-- Whether no other table is registered under the hash of this one. -/
def Unshared (db : Db kh) (table : Nat) : Prop :=
  ∀ other, kh.lookup db.tables (db.table.hash table) = some other →
    other = table

/-- The end of `db_table_deref`. -/
theorem freeTable_changes (work : Work kh) (table : Nat)
    (actuallyDelete : Bool) (idle : work.pending = .idle)
    (doomed : actuallyDelete = true → work.db.table.deleted table = true)
    (unshared : work.db.table.refs table = 0 →
      work.db.table.deleted table = true →
        Unshared work.db table ∨ allowed .clobber) :
    Changes hashString allowed work { work with
      db :=
        if work.db.table.refs table = 0 ∧
            (actuallyDelete ∨ work.db.table.deleted table) then
          dbTableActuallyDelete work.db table
        else work.db } := by
  by_cases freed : work.db.table.refs table = 0 ∧
      (actuallyDelete ∨ work.db.table.deleted table)
  · have isDeleted : work.db.table.deleted table = true := by
      rcases freed.2 with actually | isDeleted
      · exact doomed actually
      · exact isDeleted
    rw [if_pos freed]
    exact .single (.freeTable work table idle freed.1 isDeleted
      (unshared freed.1 isDeleted))
  · rw [if_neg freed]

/-- Whether the reference that is dropped is the last one to the table, as
the counter has it. -/
def LastReference (db : Db kh) (table : Nat) : Prop :=
  u15 (db.table.refs table + 32767) = 0

/-- The part of `db_table_deref` after the reference is dropped. -/
theorem dbTableDeref_changes (work : Work kh) {db : Db kh} (table : Nat)
    (actuallyDelete : Bool) (idle : work.pending = .idle)
    (doomed : actuallyDelete = true → db.table.deleted table = true)
    (unshared : LastReference db table → db.table.deleted table = true →
      Unshared db table ∨ allowed .clobber) :
    Changes hashString allowed { work with db := db.decTable table }
      { work with db := dbTableDeref db table actuallyDelete } := by
  rw [dbTableDeref_eq]
  have unsharedAfter : (db.decTable table).table.refs table = 0 →
      (db.decTable table).table.deleted table = true →
        Unshared (db.decTable table) table ∨ allowed .clobber := by
    intro unheld
    rw [decTable_refs] at unheld
    exact unshared unheld
  exact freeTable_changes { work with db := db.decTable table } table
    actuallyDelete idle doomed unsharedAfter

theorem dbEntryActuallyDelete_changes (work : Work kh) (entry : Nat)
    (unheld : work.db.entry.refs entry = 0)
    (isDeleted : work.db.entry.deleted entry = true) :
    Changes hashString allowed work
      { work with db := dbEntryActuallyDelete work.db entry } := by
  unfold dbEntryActuallyDelete
  dsimp only
  by_cases inBlock : isSingleFile work.db entry = false ∧
      0 ≤ work.db.entry.block entry
  · rw [if_pos inBlock]
    obtain ⟨freeBlocks, blocksExist, blocksFree, blockfile, freed⟩ :=
      dbBlockFree_eq work.db (work.db.entry.block entry)
    refine Relation.ReflTransGen.head (.freeBlock work entry freeBlocks
      blocksExist blocksFree blockfile unheld isDeleted inBlock.1 inBlock.2
      freed) ?_
    rw [freed]
    exact .single (.free _ entry unheld isDeleted
      (Or.inr (by simp [Db.setBlock])))
  · rw [if_neg inBlock]
    refine .single (.free work entry unheld isDeleted ?_)
    by_cases single : isSingleFile work.db entry = true
    · exact Or.inl single
    · right
      by_contra owned
      exact inBlock ⟨by simpa using single, not_lt.mp owned⟩

/-- The end of `db_entry_deref`. -/
def Db.freeUnheld (db : Db kh) (entry : Nat) : Db kh :=
  if db.entry.refs entry = 0 ∧ db.entry.deleted entry then
    dbEntryActuallyDelete db entry
  else db

/-- What is released affects the block lists and the entry itself. -/
theorem freeUnheld_eq (db : Db kh) (entry : Nat) :
    ∃ freeBlocks blocksExist blocksFree blockfile block freed,
      db.freeUnheld entry =
        { db.setBlocks freeBlocks blocksExist blocksFree blockfile with
          entry := { db.entry with block, freed } } := by
  unfold Db.freeUnheld dbEntryActuallyDelete
  dsimp only
  split
  · split
    · obtain ⟨freeBlocks, blocksExist, blocksFree, blockfile, freedEq⟩ :=
        dbBlockFree_eq db (db.entry.block entry)
      rw [freedEq]
      exact ⟨freeBlocks, blocksExist, blocksFree, blockfile, _, _, rfl⟩
    · exact ⟨db.freeBlocks, db.blocksExist, db.blocksFree, db.disk.blockfile,
        db.entry.block, _, rfl⟩
  · exact ⟨db.freeBlocks, db.blocksExist, db.blocksFree, db.disk.blockfile,
      db.entry.block, db.entry.freed, rfl⟩

theorem freeUnheld_table (db : Db kh) (entry : Nat) :
    (db.freeUnheld entry).table = db.table := by
  obtain ⟨_, _, _, _, _, _, eq⟩ := freeUnheld_eq db entry
  rw [eq]
  rfl

theorem freeUnheld_tables (db : Db kh) (entry : Nat) :
    (db.freeUnheld entry).tables = db.tables := by
  obtain ⟨_, _, _, _, _, _, eq⟩ := freeUnheld_eq db entry
  rw [eq]
  rfl

theorem freeUnheld_changes (work : Work kh) (db : Db kh) (entry : Nat) :
    Changes hashString allowed { work with db }
      { work with db := db.freeUnheld entry } := by
  unfold Db.freeUnheld
  by_cases freed : db.entry.refs entry = 0 ∧ db.entry.deleted entry = true
  · rw [if_pos freed]
    exact dbEntryActuallyDelete_changes { work with db } entry freed.1 freed.2
  · rw [if_neg freed]

theorem dbEntryDeref_eq (db : Db kh) (entry : Nat) (withTable : Bool) :
    dbEntryDeref db entry withTable =
      Db.freeUnheld (match withTable, db.entry.table entry with
        | true, some held => dbTableDeref (db.decEntry entry) held false
        | _, _ => db.decEntry entry) entry := rfl

theorem dbEntryDeref_false (db : Db kh) (entry : Nat) :
    dbEntryDeref db entry false = (db.decEntry entry).freeUnheld entry :=
  dbEntryDeref_eq db entry false

theorem dbEntryDeref_false_table (db : Db kh) (entry : Nat) :
    (dbEntryDeref db entry false).table = db.table := by
  rw [dbEntryDeref_false, freeUnheld_table]
  rfl

theorem dbEntryDeref_false_tables (db : Db kh) (entry : Nat) :
    (dbEntryDeref db entry false).tables = db.tables := by
  rw [dbEntryDeref_false, freeUnheld_tables]
  rfl

theorem dbEntryDeref_detached {db : Db kh} {entry : Nat}
    (detached : db.entry.table entry = none) :
    dbEntryDeref db entry true = (db.decEntry entry).freeUnheld entry := by
  rw [dbEntryDeref_eq, detached]

theorem dbEntryDeref_inTable {db : Db kh} {entry table : Nat}
    (inTable : db.entry.table entry = some table) :
    dbEntryDeref db entry true =
      (dbTableDeref (db.decEntry entry) table false).freeUnheld entry := by
  rw [dbEntryDeref_eq, inTable]

theorem dbEntryDeref_table_detached {db : Db kh} {entry : Nat}
    (detached : db.entry.table entry = none) :
    (dbEntryDeref db entry true).table = db.table := by
  rw [dbEntryDeref_detached detached, freeUnheld_table]
  rfl

theorem dbEntryDeref_table {db : Db kh} {entry table : Nat}
    (inTable : db.entry.table entry = some table) :
    (dbEntryDeref db entry true).table.destroyed = db.table.destroyed ∧
      (dbEntryDeref db entry true).table.refs =
        Function.update db.table.refs table
          (u15 (db.table.refs table + 32767)) := by
  rw [dbEntryDeref_inTable inTable, freeUnheld_table, dbTableDeref_destroyed,
    dbTableDeref_refs]
  exact ⟨rfl, rfl⟩

/-- Running code drops an entry it holds without its table. -/
theorem dropEntry_changes (work : Work kh) (entry : Nat)
    (held : work.aux = .entry entry false) :
    Changes hashString allowed work
      { work with
        db := dbEntryDeref work.db entry false
        aux := .null } := by
  rw [dbEntryDeref_false]
  exact .head (.drop work entry false held (by simp))
    (freeUnheld_changes { work with aux := .null } _ entry)

/-- Running code drops an entry it holds with its table. -/
theorem dropWithTable_changes (work : Work kh) (entry : Nat)
    (held : work.aux = .entry entry true) (idle : work.pending = .idle)
    (unshared : ∀ table, work.db.entry.table entry = some table →
      LastReference work.db table → work.db.table.deleted table = true →
        Unshared work.db table ∨ allowed .clobber) :
    Changes hashString allowed work
      { work with
        db := dbEntryDeref work.db entry true
        aux := .null } := by
  cases inTable : work.db.entry.table entry with
  | none =>
      rw [dbEntryDeref_detached inTable]
      exact .head (.drop work entry true held fun _ => inTable)
        (freeUnheld_changes { work with aux := .null } _ entry)
  | some table =>
      rw [dbEntryDeref_inTable inTable]
      refine .head (.dropWithTable work entry table held inTable) ?_
      exact .trans
        (dbTableDeref_changes { work with aux := .null } table false idle (by simp)
          (unshared table inTable))
        (freeUnheld_changes { work with aux := .null } _ entry)

/-- A connection drops the entry it holds. -/
theorem release_changes (work : Work kh) (entry : Nat)
    (held : work.connection.target = .entry entry)
    (reads : work.connection.isWriting = false) (idle : work.pending = .idle)
    (unshared : ∀ table, work.db.entry.table entry = some table →
      LastReference work.db table → work.db.table.deleted table = true →
        Unshared work.db table ∨ allowed .clobber) :
    Changes hashString allowed work
      { work with
        db := dbEntryDeref work.db entry true
        connection := { work.connection with target := .null } } := by
  cases inTable : work.db.entry.table entry with
  | none =>
      rw [dbEntryDeref_detached inTable]
      exact .head (.releaseDetached work entry held reads inTable)
        (freeUnheld_changes { work with
          connection := { work.connection with target := .null } } _ entry)
  | some table =>
      rw [dbEntryDeref_inTable inTable]
      refine .head (.release work entry table held reads inTable) ?_
      exact .trans
        (dbTableDeref_changes { work with
          connection := { work.connection with target := .null } } table false
          idle (by simp) (unshared table inTable))
        (freeUnheld_changes { work with
          connection := { work.connection with target := .null } } _ entry)

/-- A connection drops the table it holds. -/
theorem dropTable_changes (work : Work kh) (table : Nat)
    (held : work.connection.target = .table table)
    (idle : work.pending = .idle)
    (unshared : LastReference work.db table →
      work.db.table.deleted table = true →
        Unshared work.db table ∨ allowed .clobber) :
    Changes hashString allowed work
      { work with
        db := dbTableDeref work.db table false
        connection := { work.connection with target := .null } } :=
  .head (.dropTable work table held)
    (dbTableDeref_changes { work with
      connection := { work.connection with target := .null } } table false
      idle (by simp) unshared)

end SimpleCache
