import Mathlib.Algebra.BigOperators.Group.Finset.Basic
import Mathlib.Algebra.Order.BigOperators.Group.Finset
import SimpleCache.Loading
import SimpleCache.Unfold.Eviction

/-!
# What a sweep does

The expiry sweep and the eviction loop remove entries one by one.  Here each
removal is given with everything it changes, and is shown to succeed on a
store whose key maps and lists are in order, so that a sweep can be followed
to its end.
-/

namespace SimpleCache

variable {kh : KHash}

/-- The key map of a table without an entry. -/
def Db.setWithout (db : Db kh) (table entry : Nat) : kh.Map :=
  kh.del (db.table.cacheHashSet table)
    (kh.find (db.table.cacheHashSet table) (db.entry.hash entry))

/-- What the removal of an entry changes, `emptied` when its table goes with
it.  What is not listed is what no sweep looks at. -/
structure Swept (db : Db kh) (table entry : Nat) (emptied : Bool)
    (after : Db kh) : Prop where
  emptied_eq : emptied = decide (kh.size (db.setWithout table entry) = 0)
  lru : after.lru =
    if db.entry.writing entry then db.lru else db.lru.unlink entry
  size : after.dbSizeBytes = u64 (db.dbSizeBytes + 18446744073709551616 -
    db.entry.dataLength entry)
  clock : after.currentTime = db.currentTime
  cursor : after.tableGc = db.tableGc
  count : after.entry.count = db.entry.count
  hash : after.entry.hash = db.entry.hash
  dataLength : after.entry.dataLength = db.entry.dataLength
  writing : after.entry.writing = db.entry.writing
  expires : after.entry.expires = db.entry.expires
  deleted : after.entry.deleted = Function.update db.entry.deleted entry true
  entryTable : after.entry.table =
    if emptied then Function.update db.entry.table entry none
    else db.entry.table
  tableHash : after.table.hash = db.table.hash
  sets : after.table.cacheHashSet =
    Function.update db.table.cacheHashSet table (db.setWithout table entry)
  destroyed : after.table.destroyed =
    if emptied then Function.update db.table.destroyed table true
    else db.table.destroyed
  tables : after.tables =
    if emptied then
      kh.del db.tables (kh.find db.tables (db.table.hash table))
    else db.tables
  refs : ∀ other, emptied = false ∨ other ≠ table →
    after.table.refs other = db.table.refs other
  undoomed : ∀ other, emptied = false ∨ other ≠ table →
    after.table.deleted other = db.table.deleted other
  entryRefs : ∀ other, other ≠ entry →
    after.entry.refs other = db.entry.refs other

section Removal

variable {db : Db kh} {table entry : Nat}

theorem removed_set :
    (db.removed table entry).table.cacheHashSet table =
      db.setWithout table entry :=
  Function.update_self ..

theorem dbDeleteTableEntry_succeeds {k : Nat} {actuallyDelete : Bool}
    (present : db.table.destroyed table = false) :
    ∃ result, dbDeleteTableEntry db table k actuallyDelete = .ok result := by
  unfold dbDeleteTableEntry
  exact bind_succeeds (keyMap_eq_ok.mpr ⟨present, rfl⟩) ⟨_, rfl⟩

/-- A removal from a table that is there succeeds. -/
theorem dbEntryHandleDelete_succeeds
    (inTable : db.entry.table entry = some table)
    (present : db.table.destroyed table = false) :
    ∃ result, dbEntryHandleDelete db entry = .ok result := by
  unfold dbEntryHandleDelete
  refine bind_succeeds (entryTable_eq_ok.mpr inTable) ?_
  refine bind_succeeds (keyMap_eq_ok.mpr ⟨present, rfl⟩) ?_
  refine bind_succeeds (dbEntryCleanup_eq inTable) ?_
  rw [takeOut_eq]
  dsimp only
  split
  · have deletes : ∃ result, dbDeleteTableEntry
        ((db.removed table entry).doom table) table
        (kh.find (db.removed table entry).tables
          ((db.removed table entry).table.hash table)) true = .ok result :=
      dbDeleteTableEntry_succeeds present
    obtain ⟨gone, goneEq⟩ := deletes
    exact bind_succeeds goneEq ⟨_, rfl⟩
  · exact ⟨_, rfl⟩

/-- A registered table that loses its reference is not found by its hash a
second time. -/
theorem removedLast_tables (held : db.table.refs table ≠ 0) :
    (db.removedLast table entry).tables =
      kh.del db.tables (kh.find db.tables (db.table.hash table)) := by
  have destroyedTables :
      (((db.removed table entry).doom table).destroy table).tables =
        kh.del db.tables (kh.find db.tables (db.table.hash table)) :=
    if_neg held
  unfold Db.removedLast
  rw [detach_tables, dbTableDeref_eq]
  split
  · have gone : kh.lookup (kh.del db.tables
        (kh.find db.tables (db.table.hash table))) (db.table.hash table) =
          none := by
      rw [BucketMap.lookup_del_find, if_pos rfl]
    have notFound := BucketMap.find_of_lookup_eq_none gone
    change (if kh.find (((db.removed table entry).doom table).destroy
        table).tables (db.table.hash table) = kh.endIndex
          (((db.removed table entry).doom table).destroy table).tables
      then (((db.removed table entry).doom table).destroy table).tables
      else _) = _
    rw [destroyedTables, if_pos notFound]
  · exact destroyedTables

/-- Dropping a reference to a table leaves everything but the table and the
registry alone. -/
theorem dbTableDeref_frame (db : Db kh) (table : Nat) (actuallyDelete : Bool) :
    ∃ freed tables, dbTableDeref db table actuallyDelete =
      { db with
        table := { db.table with
          refs := Function.update db.table.refs table
            (u15 (db.table.refs table + 32767))
          freed }
        tables } := by
  rw [dbTableDeref_eq]
  split
  · exact ⟨_, _, rfl⟩
  · exact ⟨db.table.freed, db.tables, rfl⟩

theorem handleDelete_kept
    (keyed : kh.size (db.setWithout table entry) ≠ 0) :
    Swept db table entry false (db.removed table entry) where
  emptied_eq := by simp [keyed]
  lru := rfl
  size := rfl
  clock := rfl
  cursor := rfl
  count := rfl
  hash := rfl
  dataLength := rfl
  writing := rfl
  expires := rfl
  deleted := rfl
  entryTable := rfl
  tableHash := rfl
  sets := rfl
  destroyed := rfl
  tables := rfl
  refs := fun _ _ => rfl
  undoomed := fun _ _ => rfl
  entryRefs := fun _ _ => rfl

theorem handleDelete_emptied (held : db.table.refs table ≠ 0)
    (empty : kh.size (db.setWithout table entry) = 0) :
    Swept db table entry true (db.removedLast table entry) := by
  have tablesEq : (db.removedLast table entry).tables = _ :=
    removedLast_tables held
  obtain ⟨freed, tables, derefEq⟩ := dbTableDeref_frame
    (((db.removed table entry).doom table).destroy table) table true
  have lastEq : db.removedLast table entry = _ :=
    congrArg (Db.detach · entry) derefEq
  rw [lastEq] at tablesEq ⊢
  exact
    { emptied_eq := by simp [empty]
      lru := rfl
      size := rfl
      clock := rfl
      cursor := rfl
      count := rfl
      hash := rfl
      dataLength := rfl
      writing := rfl
      expires := rfl
      deleted := rfl
      entryTable := rfl
      tableHash := rfl
      sets := rfl
      destroyed := rfl
      tables := tablesEq
      refs := by
        rintro other (kept | different)
        · cases kept
        · exact Function.update_of_ne different ..
      undoomed := by
        rintro other (kept | different)
        · cases kept
        · exact Function.update_of_ne different ..
      entryRefs := fun _ _ => rfl }

/-- Dropping a reference to an entry without a table changes nothing that a
sweep looks at. -/
theorem Swept.derefDetached {emptied : Bool} {after : Db kh}
    (swept : Swept db table entry emptied after)
    (detached : after.entry.table entry = none) :
    Swept db table entry emptied (dbEntryDeref after entry true) := by
  rw [dbEntryDeref_detached detached]
  obtain ⟨freeBlocks, blocksExist, blocksFree, blockfile, block, freed,
    freeEq⟩ := freeUnheld_eq (after.decEntry entry) entry
  rw [freeEq]
  refine ⟨swept.emptied_eq, swept.lru, swept.size, swept.clock, swept.cursor,
    swept.count, swept.hash, swept.dataLength, swept.writing, swept.expires,
    swept.deleted, swept.entryTable, swept.tableHash, swept.sets,
    swept.destroyed, swept.tables, swept.refs, swept.undoomed,
    fun other different => ?_⟩
  rw [← swept.entryRefs other different]
  exact Function.update_of_ne different ..

/-- A sweep holds an idle entry, and through it the table, while it removes
it. -/
theorem Swept.derefHeld {after : Db kh} (fits : db.table.refs table < 32768)
    (live : db.table.deleted table = false)
    (inTable : db.entry.table entry = some table)
    (swept : Swept (dbTableIncref (db.incEntry entry) table) table entry false
      after) :
    Swept db table entry false (dbEntryDeref after entry true) := by
  have stillIn : after.entry.table entry = some table := by
    rw [swept.entryTable]
    exact inTable
  have refsAfter : after.table.refs table = u15 (db.table.refs table + 1) := by
    rw [swept.refs table (Or.inl rfl)]
    simp only [dbTableIncref, Db.incEntry, Function.update_self]
  have refsBack : u15 (after.table.refs table + 32767) =
      db.table.refs table := by
    rw [refsAfter]
    unfold u15
    omega
  have derefEq : dbTableDeref (after.decEntry entry) table false =
      (after.decEntry entry).decTable table := by
    have stillLive : after.table.deleted table = false :=
      (swept.undoomed table (Or.inl rfl)).trans live
    rw [dbTableDeref_eq, if_neg]
    rintro ⟨-, deletes | isDeleted⟩
    · cases deletes
    · exact Bool.false_ne_true (stillLive.symm.trans isDeleted)
  rw [dbEntryDeref_inTable stillIn, derefEq]
  obtain ⟨freeBlocks, blocksExist, blocksFree, blockfile, block, freed,
    freeEq⟩ := freeUnheld_eq ((after.decEntry entry).decTable table) entry
  rw [freeEq]
  refine ⟨swept.emptied_eq, swept.lru, swept.size, swept.clock, swept.cursor,
    swept.count, swept.hash, swept.dataLength, swept.writing, swept.expires,
    swept.deleted, swept.entryTable, swept.tableHash, swept.sets,
    swept.destroyed, swept.tables, ?_,
    fun other _ => swept.undoomed other (Or.inl rfl), ?_⟩
  · intro other _
    change Function.update after.table.refs table
      (u15 (after.table.refs table + 32767)) other = _
    by_cases same : other = table
    · rw [same, Function.update_self, refsBack]
    · rw [Function.update_of_ne same, swept.refs other (Or.inl rfl)]
      simp [dbTableIncref, Db.incEntry, same]
  · intro other different
    change Function.update after.entry.refs entry _ other = _
    rw [Function.update_of_ne different, swept.entryRefs other different]
    exact Function.update_of_ne different ..

/-- The removal of an entry that was held for it is the removal of the
entry. -/
theorem Swept.ofHeld {emptied : Bool} {after : Db kh}
    (swept : Swept (dbTableIncref (db.incEntry entry) table) table entry
      emptied after) (gone : emptied = true) :
    Swept db table entry emptied after := by
  refine ⟨swept.emptied_eq, swept.lru, swept.size, swept.clock, swept.cursor,
    swept.count, swept.hash, swept.dataLength, swept.writing, swept.expires,
    swept.deleted, swept.entryTable, swept.tableHash, swept.sets,
    swept.destroyed, swept.tables, ?_, swept.undoomed, ?_⟩
  · rintro other (kept | different)
    · rw [gone] at kept
      cases kept
    · rw [swept.refs other (Or.inr different)]
      simp [dbTableIncref, Db.incEntry, different]
  · intro other different
    rw [swept.entryRefs other different]
    exact Function.update_of_ne different ..

/-- The counter of the table is zero when its key map is destroyed: the
reference that holds an idle entry through its removal is one more than it can
count, or an entry that is held is removed after the counter has wrapped. -/
def Overflows (db : Db kh) (table entry : Nat) : Prop :=
  (db.table.refs table = 32767 ∧ db.entry.refs entry = 0) ∨
    (db.table.refs table = 0 ∧ db.entry.refs entry ≠ 0)

/-- The same counters, the same overflow. -/
theorem Overflows.congr {after : Db kh} (overflows : Overflows db table entry)
    (refs : after.table.refs table = db.table.refs table)
    (entryRefs : after.entry.refs entry = db.entry.refs entry) :
    Overflows after table entry := by
  unfold Overflows
  rw [refs, entryRefs]
  exact overflows

/-- The removals of a sweep succeed, whether the entry is held or not. -/
theorem removeSwept_swept (inTable : db.entry.table entry = some table)
    (present : db.table.destroyed table = false)
    (live : db.table.deleted table = false)
    (fits : db.table.refs table < 32768)
    (counts : ¬Overflows db table entry ∨
      kh.size (db.setWithout table entry) ≠ 0) :
    ∃ after emptied, removeSwept db entry = .ok (after, emptied) ∧
      Swept db table entry emptied after := by
  by_cases unheld : db.entry.refs entry = 0
  · have taken : dbEntryIncref db entry true =
        .ok (dbTableIncref (db.incEntry entry) table) := by
      unfold dbEntryIncref
      rw [if_pos rfl]
      exact bind_eq_ok.mpr ⟨table, entryTable_eq_ok.mpr inTable, rfl⟩
    have removes : ∃ result, dbEntryHandleDelete
        (dbTableIncref (db.incEntry entry) table) entry = .ok result :=
      dbEntryHandleDelete_succeeds inTable present
    obtain ⟨⟨removed, emptied⟩, removal⟩ := removes
    have runs : removeSwept db entry =
        .ok (dbEntryDeref removed entry true, emptied) := by
      unfold removeSwept
      rw [if_pos unheld]
      exact bind_eq_ok.mpr ⟨_, taken, bind_eq_ok.mpr ⟨_, removal, rfl⟩⟩
    refine ⟨_, _, runs, ?_⟩
    obtain ⟨other, otherEq, -, ⟨keyed, rfl, rfl⟩ | ⟨empty, rfl, rfl⟩⟩ :=
      dbEntryHandleDelete_ok removal
    · obtain rfl : table = other :=
        Option.some.inj (inTable.symm.trans otherEq)
      rw [removed_set] at keyed
      exact (handleDelete_kept keyed).derefHeld fits live inTable
    · obtain rfl : table = other :=
        Option.some.inj (inTable.symm.trans otherEq)
      rw [removed_set] at empty
      have heldOne :
          (dbTableIncref (db.incEntry entry) table).table.refs table ≠ 0 := by
        have counted := counts.resolve_right (absurd empty)
        simp only [Overflows, unheld, and_true, ne_eq, not_true, and_false,
          or_false] at counted
        simp only [dbTableIncref, Db.incEntry, Function.update_self, u15]
        omega
      have swept := (handleDelete_emptied heldOne empty).ofHeld rfl
      apply swept.derefDetached
      rw [swept.entryTable]
      exact Function.update_self ..
  · have removes : ∃ result, dbEntryHandleDelete db entry = .ok result :=
      dbEntryHandleDelete_succeeds inTable present
    obtain ⟨⟨removed, emptied⟩, removal⟩ := removes
    have runs : removeSwept db entry = .ok (removed, emptied) := by
      unfold removeSwept
      rw [if_neg unheld]
      exact removal
    refine ⟨_, _, runs, ?_⟩
    obtain ⟨other, otherEq, -, ⟨keyed, rfl, rfl⟩ | ⟨empty, rfl, rfl⟩⟩ :=
      dbEntryHandleDelete_ok removal
    · obtain rfl : table = other :=
        Option.some.inj (inTable.symm.trans otherEq)
      rw [removed_set] at keyed
      exact handleDelete_kept keyed
    · obtain rfl : table = other :=
        Option.some.inj (inTable.symm.trans otherEq)
      rw [removed_set] at empty
      have held : db.table.refs table ≠ 0 := fun none_ =>
        counts.resolve_right (absurd empty) (Or.inr ⟨none_, unheld⟩)
      exact handleDelete_emptied held empty

end Removal

/-- A table is registered. -/
def Tabled (db : Db kh) (table : Nat) : Prop :=
  ∃ slot, kh.lookup db.tables slot = some table

/-- Registered tables and their entries are found under their hashes. -/
structure Indexed (db : Db kh) : Prop where
  tables : ∀ slot table, kh.lookup db.tables slot = some table →
    db.table.hash table = slot
  entries : ∀ table, Tabled db table → ∀ hash entry,
    kh.lookup (db.table.cacheHashSet table) hash = some entry →
      db.entry.hash entry = hash ∧ db.entry.table entry = some table

/-- Registered tables have their key map and count references in fifteen bits,
and neither they nor what they hold is deleted. -/
structure Shelved (db : Db kh) : Prop extends Indexed db where
  present : ∀ table, Tabled db table → db.table.destroyed table = false ∧
    db.table.deleted table = false ∧ db.table.refs table < 32768
  kept : ∀ table, Tabled db table → ∀ entry, Holds db table entry →
    db.entry.deleted entry = false

/-- In a store at rest the list holds the registered entries that are not
being written, and the size is the total length of the registered ones. -/
structure Settled (db : Db kh) : Prop extends Shelved db where
  allocated : ∀ entry, Registered db entry → entry < db.entry.count
  lru : ∃ order, db.lru.Represents order ∧ ∀ entry, entry ∈ order ↔
    Registered db entry ∧ db.entry.writing entry = false
  sizes : ∃ entries : Finset Nat, (∀ entry, entry ∈ entries ↔
    Registered db entry) ∧ db.dbSizeBytes < 18446744073709551616 ∧
      db.dbSizeBytes = ∑ entry ∈ entries, db.entry.dataLength entry

section Shelved

variable {db after : Db kh} {table entry : Nat} {emptied : Bool}

theorem registered_iff_tabled (db : Db kh) (entry : Nat) :
    Registered db entry ↔ ∃ table, Tabled db table ∧ Holds db table entry := by
  constructor
  · rintro ⟨slot, table, registered, held⟩
    exact ⟨table, ⟨slot, registered⟩, held⟩
  · rintro ⟨table, ⟨slot, registered⟩, held⟩
    exact ⟨slot, table, registered, held⟩

/-- A registered table is found under its hash. -/
theorem Indexed.lookup_hash (indexed : Indexed db) (tabled : Tabled db table) :
    kh.lookup db.tables (db.table.hash table) = some table := by
  obtain ⟨slot, registered⟩ := tabled
  rw [indexed.tables slot table registered]
  exact registered

theorem Indexed.of_holds (indexed : Indexed db) (tabled : Tabled db table)
    (held : Holds db table entry) :
    kh.lookup (db.table.cacheHashSet table) (db.entry.hash entry) =
        some entry ∧
      db.entry.table entry = some table := by
  obtain ⟨hash, found⟩ := held
  obtain ⟨hashEq, rest⟩ := indexed.entries table tabled hash entry found
  rw [hashEq]
  exact ⟨found, rest⟩

/-- The registered tables after a removal: all but one that it empties. -/
theorem Swept.tabled (swept : Swept db table entry emptied after)
    (indexed : Indexed db) (tabled : Tabled db table) (other : Nat) :
    Tabled after other ↔
      Tabled db other ∧ ¬(emptied = true ∧ other = table) := by
  have here := indexed.lookup_hash tabled
  unfold Tabled
  rw [swept.tables]
  cases emptied with
  | false => simp
  | true =>
      simp only [if_true, BucketMap.lookup_del_find, true_and]
      constructor
      · rintro ⟨slot, registered⟩
        split at registered
        · cases registered
        · next different =>
            refine ⟨⟨slot, registered⟩, ?_⟩
            rintro rfl
            exact different (indexed.tables slot other registered).symm
      · rintro ⟨⟨slot, registered⟩, different⟩
        refine ⟨slot, ?_⟩
        rw [if_neg, registered]
        rintro rfl
        exact different (Option.some.inj (registered.symm.trans here))

/-- The key maps after a removal. -/
theorem Swept.lookup_set (swept : Swept db table entry emptied after)
    (other : Nat) (hash : UInt32) :
    kh.lookup (after.table.cacheHashSet other) hash =
      if other = table ∧ hash = db.entry.hash entry then none
      else kh.lookup (db.table.cacheHashSet other) hash := by
  rw [swept.sets]
  by_cases same : other = table
  · subst same
    rw [Function.update_self, Db.setWithout, BucketMap.lookup_del_find]
    simp
  · rw [Function.update_of_ne same, if_neg fun both => same both.1]

/-- An emptied table held nothing else. -/
theorem Swept.only (swept : Swept db table entry emptied after)
    (gone : emptied = true) {hash : UInt32} {other : Nat}
    (found : kh.lookup (db.table.cacheHashSet table) hash = some other) :
    hash = db.entry.hash entry := by
  by_contra different
  have empty : kh.size (db.setWithout table entry) = 0 := by
    have := swept.emptied_eq
    rw [gone] at this
    exact of_decide_eq_true this.symm
  have missing := BucketMap.size_eq_zero_iff.mp empty hash
  rw [Db.setWithout, BucketMap.lookup_del_find, if_neg different,
    found] at missing
  cases missing

/-- A removal takes one entry out of the registered ones. -/
theorem Swept.holds (swept : Swept db table entry emptied after)
    (indexed : Indexed db) (tabled : Tabled db table)
    (held : Holds db table entry) {other : Nat} (otherTabled : Tabled db other)
    (member : Nat) :
    Holds after other member ↔ Holds db other member ∧ member ≠ entry := by
  obtain ⟨found, inTable⟩ := indexed.of_holds tabled held
  unfold Holds
  constructor
  · rintro ⟨hash, foundAfter⟩
    rw [swept.lookup_set] at foundAfter
    split at foundAfter
    · cases foundAfter
    · next elsewhere =>
        refine ⟨⟨hash, foundAfter⟩, ?_⟩
        rintro rfl
        obtain ⟨hashEq, otherEq⟩ :=
          indexed.entries other otherTabled hash member foundAfter
        apply elsewhere
        rw [inTable] at otherEq
        exact ⟨(Option.some.inj otherEq).symm, hashEq.symm⟩
  · rintro ⟨⟨hash, foundBefore⟩, different⟩
    refine ⟨hash, ?_⟩
    rw [swept.lookup_set, if_neg]
    · exact foundBefore
    · rintro ⟨rfl, rfl⟩
      exact different (Option.some.inj (foundBefore.symm.trans found))

theorem Swept.registered (swept : Swept db table entry emptied after)
    (indexed : Indexed db) (tabled : Tabled db table)
    (held : Holds db table entry) (member : Nat) :
    Registered after member ↔ Registered db member ∧ member ≠ entry := by
  rw [registered_iff_tabled, registered_iff_tabled]
  constructor
  · rintro ⟨other, tabledAfter, heldAfter⟩
    have otherTabled := ((swept.tabled indexed tabled other).mp tabledAfter).1
    obtain ⟨heldBefore, different⟩ :=
      (swept.holds indexed tabled held otherTabled member).mp heldAfter
    exact ⟨⟨other, otherTabled, heldBefore⟩, different⟩
  · rintro ⟨⟨other, otherTabled, heldBefore⟩, different⟩
    refine ⟨other, (swept.tabled indexed tabled other).mpr ⟨otherTabled, ?_⟩,
      (swept.holds indexed tabled held otherTabled member).mpr
        ⟨heldBefore, different⟩⟩
    rintro ⟨gone, rfl⟩
    obtain ⟨hash, foundOther⟩ := heldBefore
    have hashEq := swept.only gone foundOther
    obtain ⟨found, -⟩ := indexed.of_holds tabled held
    rw [hashEq] at foundOther
    exact different (Option.some.inj (foundOther.symm.trans found))

/-- A removal leaves the registered tables and entries under their hashes. -/
theorem Swept.indexed (swept : Swept db table entry emptied after)
    (indexed : Indexed db) (tabled : Tabled db table)
    (held : Holds db table entry) : Indexed after where
  tables := by
    intro slot other registered
    rw [swept.tableHash]
    rw [swept.tables] at registered
    split at registered
    · rw [BucketMap.lookup_del_find] at registered
      split at registered
      · cases registered
      · exact indexed.tables slot other registered
    · exact indexed.tables slot other registered
  entries := by
    intro other tabledAfter hash member found
    have tabledBefore :=
      ((swept.tabled indexed tabled other).mp tabledAfter).1
    have different : member ≠ entry :=
      ((swept.holds indexed tabled held tabledBefore member).mp
        ⟨hash, found⟩).2
    have foundBefore :
        kh.lookup (db.table.cacheHashSet other) hash = some member := by
      rw [swept.lookup_set] at found
      split at found
      · cases found
      · exact found
    obtain ⟨hashEq, inTable⟩ :=
      indexed.entries other tabledBefore hash member foundBefore
    rw [swept.hash, swept.entryTable]
    refine ⟨hashEq, ?_⟩
    split
    · rw [Function.update_of_ne different]
      exact inTable
    · exact inTable

/-- A removal leaves the registered tables and entries in order. -/
theorem Swept.shelved (swept : Swept db table entry emptied after)
    (shelved : Shelved db) (tabled : Tabled db table)
    (held : Holds db table entry) : Shelved after where
  toIndexed := swept.indexed shelved.toIndexed tabled held
  present := by
    intro other tabledAfter
    obtain ⟨tabledBefore, notGone⟩ :=
      (swept.tabled shelved.toIndexed tabled other).mp tabledAfter
    obtain ⟨present, live, fits⟩ := shelved.present other tabledBefore
    have away : emptied = false ∨ other ≠ table := by
      cases emptied with
      | false => exact Or.inl rfl
      | true => exact Or.inr fun same => notGone ⟨rfl, same⟩
    rw [swept.destroyed, swept.refs other away, swept.undoomed other away]
    refine ⟨?_, live, fits⟩
    split
    · next gone =>
        rw [Function.update_of_ne fun same => notGone ⟨gone, same⟩]
        exact present
    · exact present
  kept := by
    intro other tabledAfter member heldAfter
    have tabledBefore :=
      ((swept.tabled shelved.toIndexed tabled other).mp tabledAfter).1
    obtain ⟨heldBefore, different⟩ := (swept.holds shelved.toIndexed tabled
      held tabledBefore member).mp heldAfter
    rw [swept.deleted, Function.update_of_ne different]
    exact shelved.kept other tabledBefore member heldBefore

/-- A removal leaves the list and the size of a store at rest in order. -/
theorem Swept.settled (swept : Swept db table entry emptied after)
    (settled : Settled db) (tabled : Tabled db table)
    (held : Holds db table entry) : Settled after where
  toShelved := swept.shelved settled.toShelved tabled held
  allocated := by
    intro member registered
    rw [swept.count]
    exact settled.allocated member
      ((swept.registered settled.toIndexed tabled held member).mp registered).1
  lru := by
    have registeredAfter :=
      swept.registered settled.toIndexed tabled held
    have registered : Registered db entry :=
      (registered_iff_tabled db entry).mpr ⟨table, tabled, held⟩
    obtain ⟨order, represents, members⟩ := settled.lru
    rw [swept.lru, swept.writing]
    cases writing : db.entry.writing entry with
    | true =>
        refine ⟨order, represents, fun member => ?_⟩
        rw [members, registeredAfter]
        constructor
        · rintro ⟨isRegistered, idle⟩
          refine ⟨⟨isRegistered, ?_⟩, idle⟩
          rintro rfl
          rw [writing] at idle
          cases idle
        · rintro ⟨⟨isRegistered, -⟩, idle⟩
          exact ⟨isRegistered, idle⟩
    | false =>
        obtain ⟨front, back, rfl⟩ :=
          List.append_of_mem ((members entry).mpr ⟨registered, writing⟩)
        refine ⟨front ++ back, represents.unlink, fun member => ?_⟩
        have notTwice := List.nodup_middle.mp represents.nodup
        rw [registeredAfter, and_right_comm, ← members]
        constructor
        · intro isMember
          refine ⟨by simp only [List.mem_append, List.mem_cons] at *; tauto,
            ?_⟩
          rintro rfl
          exact (List.nodup_cons.mp notTwice).1 isMember
        · rintro ⟨isMember, different⟩
          simp only [List.mem_append, List.mem_cons] at *
          tauto
  sizes := by
    have registered : Registered db entry :=
      (registered_iff_tabled db entry).mpr ⟨table, tabled, held⟩
    obtain ⟨entries, members, fits, total⟩ := settled.sizes
    have counted := (members entry).mpr registered
    have split := Finset.add_sum_erase entries db.entry.dataLength counted
    refine ⟨entries.erase entry, fun member => ?_, ?_, ?_⟩
    · rw [Finset.mem_erase, members, and_comm]
      exact (swept.registered settled.toIndexed tabled held member).symm
    · rw [swept.size]
      exact Nat.mod_lt _ (by decide)
    · rw [swept.size, swept.dataLength]
      unfold u64
      omega

end Shelved

end SimpleCache
