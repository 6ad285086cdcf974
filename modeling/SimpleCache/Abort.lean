import SimpleCache.Expiry

/-!
# Requests that are cut off

A `GET`, `HEAD` or `DELETE` takes references while its URL is read, and gives
them back in `cache_destroy` when the connection closes before the headers
end.
-/

namespace SimpleCache

variable {kh : KHash} {base db after : Db kh} {table entry : Nat}

/-- The registered tables and entries, the counters, the members of the list,
the free blocks and the key files are the same. -/
structure SameStore (before after : Db kh) : Prop where
  tables : after.tables = before.tables
  sets : after.table.cacheHashSet = before.table.cacheHashSet
  size : after.dbSizeBytes = before.dbSizeBytes
  keys : after.dbKeys = before.dbKeys
  lru : ∀ order, before.lru.Represents order →
    ∃ other, after.lru.Represents other ∧
      ∀ entry, entry ∈ other ↔ entry ∈ order
  freeBlocks : after.freeBlocks = before.freeBlocks
  paths : after.disk.paths = before.disk.paths

/-- What `db_entry_get_read` does with an expired entry. -/
def expireEntry (db : Db kh) (entry : Nat) : Except Fault (Db kh) := do
  let db ← dbEntryIncref db entry false
  let (db, _) ← dbEntryHandleDelete db entry
  return dbEntryDeref db entry false

/-- The store with one reference to each table. -/
def Db.heldOnce (db : Db kh) : Db kh :=
  { db with table.refs := fun _ => 1 }

/-- The same store, or the one without an entry that had expired, as it is
removed where no counter overflows. -/
def LeftAlone (before after : Db kh) : Prop :=
  SameStore before after ∨
    ∃ entry without, Registered before entry ∧ expired before entry = true ∧
      expireEntry before.heldOnce entry = .ok without ∧ SameStore without after

/-- A store in which tables and entries are found, none of them deleted, and
the list holds the complete entries. -/
structure InOrder (db : Db kh) : Prop extends Shelved db where
  lru : ∃ order, db.lru.Represents order ∧ ∀ entry, entry ∈ order ↔
    Registered db entry ∧ db.entry.writing entry = false
  room : kh.size db.tables < 4294967296

/-- References, statistics and the order of the list differ. -/
structure Borrowed (base db : Db kh) : Prop where
  eq : ∃ entryRefs tableRefs lru statsGets statsDeletes statsOperations,
    db = { base with
      entry.refs := entryRefs
      table.refs := tableRefs
      lru, statsGets, statsDeletes, statsOperations }
  lru : ∀ order, base.lru.Represents order →
    ∃ other, db.lru.Represents other ∧ ∀ entry, entry ∈ other ↔ entry ∈ order

theorem SameStore.refl (db : Db kh) : SameStore db db :=
  ⟨rfl, rfl, rfl, rfl, fun order represents => ⟨order, represents,
    fun _ => Iff.rfl⟩, rfl, rfl⟩

theorem SameStore.trans {first second third : Db kh}
    (before : SameStore first second) (next : SameStore second third) :
    SameStore first third where
  tables := next.tables.trans before.tables
  sets := next.sets.trans before.sets
  size := next.size.trans before.size
  keys := next.keys.trans before.keys
  lru := by
    intro order represents
    obtain ⟨middle, middleRepresents, members⟩ := before.lru order represents
    obtain ⟨last, lastRepresents, lastMembers⟩ :=
      next.lru middle middleRepresents
    exact ⟨last, lastRepresents, fun entry =>
      (lastMembers entry).trans (members entry)⟩
  freeBlocks := next.freeBlocks.trans before.freeBlocks
  paths := next.paths.trans before.paths

theorem Borrowed.refl (db : Db kh) : Borrowed db db :=
  ⟨⟨db.entry.refs, db.table.refs, db.lru, db.statsGets, db.statsDeletes,
    db.statsOperations, rfl⟩, fun order represents => ⟨order, represents,
    fun _ => Iff.rfl⟩⟩

theorem Borrowed.same (borrowed : Borrowed base db) : SameStore base db := by
  obtain ⟨⟨entryRefs, tableRefs, lru, statsGets, statsDeletes, statsOperations,
    rfl⟩, members⟩ := borrowed
  exact ⟨rfl, rfl, rfl, rfl, members, rfl, rfl⟩

section Borrowing

theorem Borrowed.countRead (borrowed : Borrowed base db)
    (statsGets statsOperations : Nat) :
    Borrowed base { db with statsGets, statsOperations } := by
  obtain ⟨⟨entryRefs, tableRefs, lru, _, statsDeletes, _, rfl⟩, members⟩ :=
    borrowed
  exact ⟨⟨entryRefs, tableRefs, lru, statsGets, statsDeletes, statsOperations,
    rfl⟩, members⟩

theorem Borrowed.countDelete (borrowed : Borrowed base db)
    (statsDeletes statsOperations : Nat) :
    Borrowed base { db with statsDeletes, statsOperations } := by
  obtain ⟨⟨entryRefs, tableRefs, lru, statsGets, _, _, rfl⟩, members⟩ :=
    borrowed
  exact ⟨⟨entryRefs, tableRefs, lru, statsGets, statsDeletes, statsOperations,
    rfl⟩, members⟩

theorem Borrowed.entryRefs (borrowed : Borrowed base db)
    (refs : Nat → Nat) : Borrowed base { db with entry.refs := refs } := by
  obtain ⟨⟨_, tableRefs, lru, statsGets, statsDeletes, statsOperations, rfl⟩,
    members⟩ := borrowed
  exact ⟨⟨refs, tableRefs, lru, statsGets, statsDeletes, statsOperations, rfl⟩,
    members⟩

theorem Borrowed.tableRefs (borrowed : Borrowed base db)
    (refs : Nat → Nat) : Borrowed base { db with table.refs := refs } := by
  obtain ⟨⟨entryRefs, _, lru, statsGets, statsDeletes, statsOperations, rfl⟩,
    members⟩ := borrowed
  exact ⟨⟨entryRefs, refs, lru, statsGets, statsDeletes, statsOperations, rfl⟩,
    members⟩

/-- A hit moves an entry of the list to its end. -/
theorem Borrowed.hit (borrowed : Borrowed base db) {order : List Nat}
    (represents : base.lru.Represents order) (listed : entry ∈ order) :
    Borrowed base (dbLruHit db entry) := by
  obtain ⟨other, represented, members⟩ := borrowed.lru order represents
  obtain ⟨front, back, rfl⟩ := List.append_of_mem ((members entry).mpr listed)
  have notTwice := (List.nodup_cons.mp
    (List.nodup_middle.mp represented.nodup)).1
  have moved := represented.unlink.append notTwice
  obtain ⟨⟨entryRefs, tableRefs, lru, statsGets, statsDeletes, statsOperations,
    rfl⟩, -⟩ := borrowed
  refine ⟨⟨entryRefs, tableRefs, (lru.unlink entry).append entry, statsGets,
    statsDeletes, statsOperations, rfl⟩, fun order' represents' => ?_⟩
  obtain rfl := represents.unique represents'
  refine ⟨_, moved, fun member => ?_⟩
  rw [← members member]
  simp only [List.mem_append, List.mem_cons, List.not_mem_nil, or_false]
  tauto

end Borrowing

/-- A table that is not deleted stays when a reference to it is dropped. -/
theorem Borrowed.derefTable (borrowed : Borrowed base db)
    (undeleted : base.table.deleted table = false) :
    Borrowed base (dbTableDeref db table false) := by
  have kept : dbTableDeref db table false = db.decTable table := by
    rw [dbTableDeref_eq, if_neg]
    rintro ⟨-, actually | isDeleted⟩
    · cases actually
    · obtain ⟨entryRefs, tableRefs, lru, statsGets, statsDeletes,
        statsOperations, rfl⟩ := borrowed.eq
      have isDeleted : base.table.deleted table = true := isDeleted
      rw [undeleted] at isDeleted
      cases isDeleted
  rw [kept]
  exact borrowed.tableRefs _

theorem Borrowed.derefEntry (borrowed : Borrowed base db)
    (inTable : base.entry.table entry = some table)
    (kept : base.entry.deleted entry = false)
    (undeleted : base.table.deleted table = false) :
    Borrowed base (dbEntryDeref db entry true) := by
  have inTableNow : db.entry.table entry = some table ∧
      db.entry.deleted entry = false := by
    obtain ⟨entryRefs, tableRefs, lru, statsGets, statsDeletes,
      statsOperations, rfl⟩ := borrowed.eq
    exact ⟨inTable, kept⟩
  rw [dbEntryDeref_inTable inTableNow.1]
  unfold Db.freeUnheld
  rw [if_neg]
  · exact Borrowed.derefTable (borrowed.entryRefs _) undeleted
  · rintro ⟨-, isDeleted⟩
    rw [dbTableDeref_entry] at isDeleted
    have isDeleted : db.entry.deleted entry = true := isDeleted
    rw [inTableNow.2] at isDeleted
    cases isDeleted

theorem dbBlockFree_tableHeap (db : Db kh) (block : Int) (table : TableHeap kh)
    (tables : kh.Map) :
    dbBlockFree { db with table, tables } block =
      { dbBlockFree db block with table, tables } := by
  unfold dbBlockFree
  by_cases last : Shrinks db block
  · rw [if_pos last, if_pos last]
    rfl
  · rw [if_neg last, if_neg last]

theorem dbEntryActuallyDelete_inBlock (db : Db kh) (entry : Nat)
    (inBlock : isSingleFile db entry = false ∧ 0 ≤ db.entry.block entry) :
    dbEntryActuallyDelete db entry =
      ((dbBlockFree db (db.entry.block entry)).setBlock entry
        (-1)).markFreed entry := by
  unfold dbEntryActuallyDelete
  dsimp only
  rw [if_pos inBlock]
  rfl

theorem dbEntryActuallyDelete_noBlock (db : Db kh) (entry : Nat)
    (noBlock : ¬(isSingleFile db entry = false ∧ 0 ≤ db.entry.block entry)) :
    dbEntryActuallyDelete db entry = db.markFreed entry := by
  unfold dbEntryActuallyDelete
  dsimp only
  rw [if_neg noBlock]
  rfl

/-- Freeing an entry does not look at the tables. -/
theorem freeUnheld_tableHeap (db : Db kh) (entry : Nat) (table : TableHeap kh)
    (tables : kh.Map) :
    Db.freeUnheld { db with table, tables } entry =
      { db.freeUnheld entry with table, tables } := by
  unfold Db.freeUnheld
  by_cases gone : db.entry.refs entry = 0 ∧ db.entry.deleted entry = true
  · rw [if_pos gone, if_pos gone]
    by_cases inBlock :
        isSingleFile db entry = false ∧ 0 ≤ db.entry.block entry
    · rw [dbEntryActuallyDelete_inBlock db entry inBlock,
        dbEntryActuallyDelete_inBlock { db with table, tables } entry inBlock,
        dbBlockFree_tableHeap]
      rfl
    · rw [dbEntryActuallyDelete_noBlock db entry inBlock,
        dbEntryActuallyDelete_noBlock { db with table, tables } entry inBlock]
      rfl
  · rw [if_neg gone, if_neg gone]

/-- The removal of an expired entry, when its table keeps other keys and when
it does not. -/
theorem expireEntry_eq (db : Db kh) (inTable : db.entry.table entry = some table)
    (present : db.table.destroyed table = false) :
    expireEntry db entry = .ok
      (if kh.size (db.setWithout table entry) = 0 then
        (((db.incEntry entry).removedLast table entry).decEntry
          entry).freeUnheld entry
      else
        (((db.incEntry entry).removed table entry).decEntry
          entry).freeUnheld entry) := by
  have removes : ∃ result,
      dbEntryHandleDelete (db.incEntry entry) entry = .ok result :=
    dbEntryHandleDelete_succeeds inTable present
  obtain ⟨⟨removed, emptied⟩, removal⟩ := removes
  have runs : expireEntry db entry = .ok (dbEntryDeref removed entry false) :=
    bind_eq_ok.mpr ⟨_, rfl, bind_eq_ok.mpr ⟨_, removal, rfl⟩⟩
  rw [runs, dbEntryDeref_false]
  obtain ⟨other, otherEq, -, ⟨keyed, -, rfl⟩ | ⟨empty, -, rfl⟩⟩ :=
    dbEntryHandleDelete_ok removal
  · obtain rfl : table = other := Option.some.inj (inTable.symm.trans otherEq)
    rw [removed_set] at keyed
    have keyed : kh.size (db.setWithout table entry) ≠ 0 := keyed
    rw [if_neg keyed]
  · obtain rfl : table = other := Option.some.inj (inTable.symm.trans otherEq)
    rw [removed_set] at empty
    have empty : kh.size (db.setWithout table entry) = 0 := empty
    rw [if_pos empty]

theorem sameStore_freeUnheld (db : Db kh) (entry : Nat) {heap : TableHeap kh}
    (sets : heap.cacheHashSet = db.table.cacheHashSet) :
    SameStore (db.freeUnheld entry)
      (Db.freeUnheld { db with table := heap } entry) := by
  have heapEq : Db.freeUnheld { db with table := heap } entry =
      { db.freeUnheld entry with table := heap, tables := db.tables } :=
    freeUnheld_tableHeap db entry heap db.tables
  rw [heapEq]
  refine ⟨(freeUnheld_tables db entry).symm, ?_, rfl, rfl,
    fun order represents => ⟨order, represents, fun _ => Iff.rfl⟩, rfl, rfl⟩
  rw [freeUnheld_table]
  exact sets

/-- What the removal of the last key makes of a store, up to the records of
the tables. -/
theorem removedLast_eq (db : Db kh) (entry : Nat)
    (held : db.table.refs table ≠ 0) :
    ∃ heap : TableHeap kh, db.removedLast table entry =
        { (db.removed table entry).detach entry with
          table := heap
          tables := kh.del db.tables
            (kh.find db.tables (db.table.hash table)) } ∧
      heap.cacheHashSet = (db.removed table entry).table.cacheHashSet ∧
      heap.hash = db.table.hash := by
  have tablesEq : (db.removedLast table entry).tables = _ :=
    removedLast_tables held
  obtain ⟨freed, tables, derefEq⟩ := dbTableDeref_frame
    (((db.removed table entry).doom table).destroy table) table true
  have lastEq : db.removedLast table entry = _ :=
    congrArg (Db.detach · entry) derefEq
  rw [lastEq] at tablesEq ⊢
  have tablesEq : tables = kh.del db.tables
      (kh.find db.tables (db.table.hash table)) := tablesEq
  rw [← tablesEq]
  exact ⟨_, rfl, rfl, rfl⟩

/-- Another number of references to tables makes no difference, where it is
not zero or the table keeps other keys. -/
theorem expireEntry_tableRefs (refs : Nat → Nat)
    (inTable : db.entry.table entry = some table)
    (present : db.table.destroyed table = false)
    (held : db.table.refs table ≠ 0)
    (heldToo : kh.size (db.setWithout table entry) = 0 → refs table ≠ 0)
    (undeleted : db.table.deleted table = false) :
    ∃ without other, expireEntry db entry = .ok without ∧
      expireEntry { db with table.refs := refs } entry = .ok other ∧
      SameStore without other ∧
      (other.table.deleted table = false ∨
        kh.lookup other.tables (other.table.hash table) = none) := by
  refine ⟨_, _, expireEntry_eq db inTable present,
    expireEntry_eq { db with table.refs := refs } inTable present, ?_⟩
  have sameSet : Db.setWithout { db with table.refs := refs } table entry =
      db.setWithout table entry := rfl
  rw [sameSet]
  by_cases empty : kh.size (db.setWithout table entry) = 0
  · rw [if_pos empty, if_pos empty]
    obtain ⟨heap, lastEq, sets, -⟩ := removedLast_eq
      (db.incEntry entry) entry held
    obtain ⟨heapToo, lastEqToo, setsToo, hashToo⟩ := removedLast_eq
      (Db.incEntry { db with table.refs := refs } entry) entry
      (heldToo empty)
    rw [lastEq, lastEqToo]
    refine ⟨sameStore_freeUnheld _ entry (setsToo.trans sets.symm), Or.inr ?_⟩
    rw [freeUnheld_tables, freeUnheld_table]
    change kh.lookup (kh.del db.tables
      (kh.find db.tables (db.table.hash table))) (heapToo.hash table) = none
    rw [hashToo]
    exact (BucketMap.lookup_del_find ..).trans (if_pos rfl)
  · rw [if_neg empty, if_neg empty]
    refine ⟨sameStore_freeUnheld
      (((db.incEntry entry).removed table entry).decEntry entry) entry rfl, Or.inl ?_⟩
    rw [freeUnheld_table]
    exact undeleted

/-- Dropping a reference to a table that is not registered changes nothing of
the store. -/
theorem sameStore_derefTable
    (kept : db.table.deleted table = false ∨
      kh.lookup db.tables (db.table.hash table) = none) :
    SameStore db (dbTableDeref db table false) := by
  rw [dbTableDeref_eq]
  split
  · next gone =>
      have missing := kept.resolve_left (by
        rcases gone.2 with actually | isDeleted
        · cases actually
        · simp [isDeleted])
      have notFound := BucketMap.find_of_lookup_eq_none missing
      refine ⟨if_pos notFound, rfl, rfl, rfl, fun order represents =>
        ⟨order, represents, fun _ => Iff.rfl⟩, rfl, rfl⟩
  · exact ⟨rfl, rfl, rfl, rfl, fun order represents =>
      ⟨order, represents, fun _ => Iff.rfl⟩, rfl, rfl⟩

theorem decEntry_table (db : Db kh) (entry : Nat) :
    (db.decEntry entry).table = db.table := rfl

theorem decEntry_tables (db : Db kh) (entry : Nat) :
    (db.decEntry entry).tables = db.tables := rfl

/-- An expired entry is gone from its table. -/
theorem expireEntry_sets (inTable : db.entry.table entry = some table)
    (present : db.table.destroyed table = false)
    (run : expireEntry db entry = .ok after) :
    after.table.cacheHashSet = Function.update db.table.cacheHashSet table
      (db.setWithout table entry) := by
  rw [expireEntry_eq db inTable present] at run
  obtain rfl := Except.ok.inj run
  by_cases empty : kh.size (db.setWithout table entry) = 0
  · rw [if_pos empty, freeUnheld_table, decEntry_table, removedLast_keys]
    rfl
  · rw [if_neg empty, freeUnheld_table, decEntry_table]
    rfl

/-- A table that loses its last key to expiry is no longer registered. -/
theorem expireEntry_tables (inTable : db.entry.table entry = some table)
    (present : db.table.destroyed table = false)
    (held : db.table.refs table ≠ 0)
    (empty : kh.size (db.setWithout table entry) = 0)
    (run : expireEntry db entry = .ok after) :
    kh.lookup after.tables (db.table.hash table) = none := by
  have heldNow : (db.incEntry entry).table.refs table ≠ 0 := held
  have emptied : ((db.incEntry entry).removedLast table entry).tables = _ :=
    removedLast_tables heldNow
  have gone := congrArg (kh.lookup · (db.table.hash table)) emptied
  rw [expireEntry_eq db inTable present, if_pos empty] at run
  obtain rfl := Except.ok.inj run
  rw [freeUnheld_tables, decEntry_tables]
  refine gone.trans ?_
  exact (BucketMap.lookup_del_find ..).trans (if_pos rfl)

theorem expireEntry_heldOnce_sets (inTable : db.entry.table entry = some table)
    (present : db.table.destroyed table = false)
    (run : expireEntry db.heldOnce entry = .ok after) :
    after.table.cacheHashSet = Function.update db.table.cacheHashSet table
      (db.setWithout table entry) := by
  have inTableOnce : db.heldOnce.entry.table entry = some table := inTable
  have sets := expireEntry_sets inTableOnce present run
  exact sets

theorem expireEntry_heldOnce_tables
    (inTable : db.entry.table entry = some table)
    (present : db.table.destroyed table = false)
    (empty : kh.size (db.setWithout table entry) = 0)
    (run : expireEntry db.heldOnce entry = .ok after) :
    kh.lookup after.tables (db.table.hash table) = none := by
  have inTableOnce : db.heldOnce.entry.table entry = some table := inTable
  have held : db.heldOnce.table.refs table ≠ 0 := Nat.one_ne_zero
  have gone := expireEntry_tables inTableOnce present held empty run
  exact gone

/-- A table whose counter is zero stays registered, and its counter wraps. -/
theorem expireEntry_unheld (inTable : db.entry.table entry = some table)
    (present : db.table.destroyed table = false)
    (unheld : db.table.refs table = 0)
    (empty : kh.size (db.setWithout table entry) = 0)
    (run : expireEntry db entry = .ok after) :
    after.tables = db.tables ∧ after.table.refs table = 32767 := by
  rw [expireEntry_eq db inTable present, if_pos empty] at run
  obtain rfl := Except.ok.inj run
  rw [freeUnheld_tables, freeUnheld_table, decEntry_table, decEntry_tables,
    removedLast_refs]
  constructor
  · unfold Db.removedLast
    rw [detach_tables, dbTableDeref_eq, if_neg]
    · exact if_pos unheld
    · rintro ⟨none_, -⟩
      rw [decTable_refs] at none_
      change u15 (db.table.refs table + 32767) = 0 at none_
      rw [unheld] at none_
      cases none_
  · rw [Function.update_self]
    change u15 (db.table.refs table + 32767) = _
    rw [unheld]
    rfl

section Lookups

/-- The search for a table ends, at a registered table or at a free hash. -/
theorem InOrder.probeTable_ends (inOrder : InOrder base) (name : Bytes)
    (hash : UInt32) :
    ∃ found, probeTable base name (kh.size base.tables + 1) hash = .ok found ∧
      ∀ table, found = .inr table → Tabled base table := by
  have all : ∀ slot, kh.lookup base.tables slot ≠ none →
      slot ∈ kh.keys base.tables := fun slot => BucketMap.mem_keys_iff.mpr
  have room : (kh.keys base.tables).length < 4294967296 := by
    rw [BucketMap.length_keys]
    exact inOrder.room
  obtain ⟨stop, passes, ends, near⟩ := Probing.exists_end
    (fun table => tableMatches base table name) all room hash
  have probed := Probing.probe_eq passes ends near
  rw [BucketMap.length_keys] at probed
  rw [probeTable_eq_probe, probed]
  cases content : kh.lookup base.tables stop with
  | none => exact ⟨_, rfl, fun table isTable => by cases isTable⟩
  | some found =>
      refine ⟨_, rfl, fun table isTable => ?_⟩
      obtain rfl := Sum.inr.inj isTable
      exact ⟨stop, content⟩

/-- The store while a request holds a table. -/
theorem borrowed_incref (base : Db kh) (table : Nat) :
    Borrowed base (dbTableIncref base table) :=
  (Borrowed.refl base).tableRefs _

/-- What a lookup for reading does to a store whose table is held, when the key
is not that of an expired entry. -/
theorem InOrder.getRead (inOrder : InOrder base) (tabled : Tabled base table)
    (hashString : Bytes → UInt32) (key : Bytes)
    (fresh : ∀ entry, kh.lookup (base.table.cacheHashSet table)
      (hashString key) = some entry → expired base entry = false) :
    (∃ after, dbEntryGetRead hashString (dbTableIncref base table) table key =
        .ok (after, none) ∧ Borrowed base after) ∨
      ∃ after entry,
        dbEntryGetRead hashString (dbTableIncref base table) table key =
          .ok (after, some entry) ∧
        Borrowed base after ∧ Holds base table entry ∧
        base.entry.writing entry = false := by
  obtain ⟨present, -, -⟩ := inOrder.present table tabled
  have keyMapEq : keyMap (dbTableIncref base table) table =
      .ok (base.table.cacheHashSet table) :=
    keyMap_eq_ok.mpr ⟨present, rfl⟩
  unfold dbEntryGetRead
  rw [keyMapEq, ok_bind]
  cases found : kh.lookup (base.table.cacheHashSet table) (hashString key) with
  | none => exact Or.inl ⟨_, rfl, borrowed_incref base table⟩
  | some entry =>
      dsimp only
      have isHeld : Holds base table entry := ⟨_, found⟩
      have registered : Registered base entry :=
        (registered_iff_tabled base entry).mpr ⟨table, tabled, isHeld⟩
      have expiredNow : ¬expired (dbTableIncref base table) entry = true :=
        ne_true_of_eq_false (fresh entry found)
      rw [if_neg expiredNow]
      by_cases differs :
          entryMatches (dbTableIncref base table) entry key = false
      · rw [if_pos differs]
        exact Or.inl ⟨_, rfl, borrowed_incref base table⟩
      · rw [if_neg differs]
        have counted := (borrowed_incref base table).countRead
          (u64 (base.statsGets + 1)) (u64 (base.statsOperations + 1))
        by_cases isWriting : base.entry.writing entry = true
        · have writingNow :
              (dbTableIncref base table).entry.writing entry = true :=
            isWriting
          rw [if_pos writingNow]
          exact Or.inl ⟨_, rfl, counted⟩
        · have writingNow :
              ¬(dbTableIncref base table).entry.writing entry = true :=
            isWriting
          rw [if_neg writingNow]
          have idle : base.entry.writing entry = false :=
            eq_false_of_ne_true isWriting
          obtain ⟨order, represents, members⟩ := inOrder.lru
          have listed := (members entry).mpr ⟨registered, idle⟩
          exact Or.inr ⟨_, entry, rfl,
            (counted.hit represents listed).entryRefs _, isHeld, idle⟩

/-- A lookup for reading removes an expired entry. -/
theorem getRead_expired {hashString : Bytes → UInt32} {key : Bytes}
    (present : db.table.destroyed table = false)
    (found : kh.lookup (db.table.cacheHashSet table) (hashString key) =
      some entry)
    (isExpired : expired db entry = true)
    (run : expireEntry db entry = .ok after) :
    dbEntryGetRead hashString db table key = .ok (after, none) := by
  unfold expireEntry at run
  unfold dbEntryGetRead
  rw [bind_eq_ok] at run ⊢
  refine ⟨_, keyMap_eq_ok.mpr ⟨present, rfl⟩, ?_⟩
  rw [found]
  dsimp only
  rw [if_pos isExpired, bind_eq_ok]
  obtain ⟨taken, takenEq, run⟩ := run
  refine ⟨taken, takenEq, ?_⟩
  rw [bind_eq_ok] at run ⊢
  obtain ⟨⟨removed, emptied⟩, removal, run⟩ := run
  refine ⟨⟨removed, emptied⟩, removal, ?_⟩
  rw [pure_eq_ok] at run ⊢
  rw [run]

/-- What a lookup for deleting does to a store whose table is held. -/
theorem InOrder.getDelete (inOrder : InOrder base)
    (tabled : Tabled base table) (hashString : Bytes → UInt32) (key : Bytes) :
    ∃ after found,
      dbEntryGetDelete hashString (dbTableIncref base table) table key =
        .ok (after, found) ∧
      Borrowed base after ∧ ∀ entry, found = some entry ↔
        kh.lookup (base.table.cacheHashSet table) (hashString key) =
            some entry ∧
          entryMatches base entry key = true := by
  obtain ⟨present, -, -⟩ := inOrder.present table tabled
  have keyMapEq : keyMap (dbTableIncref base table) table =
      .ok (base.table.cacheHashSet table) :=
    keyMap_eq_ok.mpr ⟨present, rfl⟩
  unfold dbEntryGetDelete
  rw [keyMapEq, ok_bind]
  cases found : kh.lookup (base.table.cacheHashSet table) (hashString key) with
  | none =>
      exact ⟨_, none, rfl, borrowed_incref base table, fun entry => by simp⟩
  | some entry =>
      dsimp only
      by_cases differs :
          entryMatches (dbTableIncref base table) entry key = false
      · rw [if_pos differs]
        have differs : entryMatches base entry key = false := differs
        refine ⟨_, none, rfl, borrowed_incref base table, fun other => ?_⟩
        constructor
        · intro isSome
          cases isSome
        · rintro ⟨same, isSame⟩
          obtain rfl := Option.some.inj same
          rw [differs] at isSame
          cases isSame
      · rw [if_neg differs]
        have same : entryMatches base entry key = true :=
          eq_true_of_ne_false differs
        refine ⟨_, some entry, rfl, ((borrowed_incref base
          table).countDelete _ _).entryRefs _, fun other => ?_⟩
        constructor
        · intro isSame
          obtain rfl := Option.some.inj isSame
          exact ⟨rfl, same⟩
        · exact fun both => both.1

end Lookups

/-- What is read before the headers end. -/
def Action.early : Action → Bool
  | .requestMethod _ | .tableSegment _ | .tableOnly .. | .keySegment ..
  | .httpVersion | .header _ | .requestTooLarge => true
  | _ => false

/-- The key of a URL, after its table. -/
def keyOf : List Action → Option Bytes
  | [] => none
  | .keySegment key _ :: _ => some key.val
  | _ :: rest => keyOf rest

/-- The table and the key of a URL. -/
def urlOf : List Action → Option (Bytes × Bytes)
  | [] => none
  | .tableSegment name :: rest => (keyOf rest).map (name.val, ·)
  | .tableOnly .. :: _ => none
  | _ :: rest => urlOf rest

/-- The entry of a table that a request to delete a key finds. -/
def FindsIn (hashString : Bytes → UInt32) (db : Db kh) (table : Nat)
    (key : Bytes) (entry : Nat) : Prop :=
  kh.lookup (db.table.cacheHashSet table) (hashString key) = some entry ∧
    entryMatches db entry key = true

/-- An entry is being written, to a file of its own that is there. -/
def InFile (db : Db kh) (entry : Nat) : Prop :=
  db.entry.writing entry = true ∧ isSingleFile db entry = true ∧
    ∃ path, getKeyPath db entry = .ok path ∧ db.disk.paths path ≠ none

/-- The key is to be deleted while an upload to its file is in progress. -/
def Interrupts (hashString : Bytes → UInt32) (db : Db kh) (method : Method)
    (table : Nat) (key : Bytes) : Prop :=
  method = .delete ∧ ∃ entry, FindsIn hashString db table key entry ∧
    InFile db entry

/-- The key is that of an expired entry, the last one of a table with as many
references as can be counted. -/
def Overfills (hashString : Bytes → UInt32) (db : Db kh) (method : Method)
    (table : Nat) (key : Bytes) : Prop :=
  method ≠ .delete ∧ db.table.refs table = 32767 ∧ ∃ entry,
    kh.lookup (db.table.cacheHashSet table) (hashString key) = some entry ∧
      expired db entry = true ∧ kh.size (db.setWithout table entry) = 0

def HarmsKey (hashString : Bytes → UInt32) (db : Db kh) (method : Method)
    (table : Nat) (key : Bytes) : Prop :=
  Interrupts hashString db method table key ∨
    Overfills hashString db method table key

/-- What the URL names, if it is read, is not to be touched. -/
def Harms (hashString : Bytes → UInt32) (db : Db kh) (method : Method)
    (actions : List Action) : Prop :=
  ∃ name key table, urlOf actions = some (name, key) ∧
    probeTable db name (kh.size db.tables + 1) (hashString name) =
      .ok (.inr table) ∧ HarmsKey hashString db method table key

/-- Take the actions as they come, and then the end of the connection. -/
def cutOff (env : Env) (session : Session env.kh) (actions : List Action) :
    Except Fault (Session env.kh) := do
  let session ← actions.foldlM (handle env) session
  handle env session .disconnect

/-- The end of the connection leaves a store of a kind. -/
inductive Closing (outcome : Db kh → Prop) (session : Session kh) : Prop
  | null (target : session.connection.target = .null)
      (left : outcome session.db)
  | table (table : Nat) (target : session.connection.target = .table table)
      (level : session.connection.level = .table)
      (left : outcome (dbTableDeref session.db table false))
  | entry (entry : Nat) (after : Db kh)
      (target : session.connection.target = .entry entry)
      (level : session.connection.level = .key)
      (reads : session.connection.isWriting = false)
      (closed : dbTargetEntryClose session.db entry session.connection.fd =
        .ok after)
      (left : outcome after)

/-- The parts of a session that its end depends on are the same. -/
structure Keeps (session next : Session kh) : Prop where
  db : next.db = session.db
  method : next.connection.method = session.connection.method
  level : next.connection.level = session.connection.level
  target : next.connection.target = session.connection.target
  fd : next.connection.fd = session.connection.fd
  isWriting : next.connection.isWriting = session.connection.isWriting

theorem Keeps.refl (session : Session kh) : Keeps session session :=
  ⟨rfl, rfl, rfl, rfl, rfl, rfl⟩

section Closing

variable {outcome : Db kh → Prop} {session next : Session kh}

theorem Closing.keep (closing : Closing outcome session)
    (keeps : Keeps session next) : Closing outcome next := by
  cases closing with
  | null target left =>
      refine .null (keeps.target.trans target) ?_
      rw [keeps.db]
      exact left
  | table table target level left =>
      refine .table table (keeps.target.trans target)
        (keeps.level.trans level) ?_
      rw [keeps.db]
      exact left
  | entry entry after target level reads closed left =>
      refine .entry entry after (keeps.target.trans target)
        (keeps.level.trans level) (keeps.isWriting.trans reads) ?_ left
      rw [keeps.db, keeps.fd]
      exact closed

theorem Closing.ends {outcome : Db kh → Prop} {session : Session kh}
    (closing : Closing outcome session) :
    ∃ after, closeConnection session = .ok after ∧ outcome after.db := by
  have destroys : ∃ after, cacheDestroy session = .ok after ∧
      outcome after.db := by
    unfold cacheDestroy
    dsimp only
    cases closing with
    | null target left =>
        refine ⟨session, ?_, left⟩
        rw [target]
        cases session.connection.level <;> rfl
    | table table target level left =>
        rw [target, level]
        refine ⟨_, rfl, ?_⟩
        dsimp only
        exact left
    | entry entry after target level reads closed left =>
        rw [target, level]
        have kept : abandonUpload session entry = .ok session.db := by
          unfold abandonUpload
          rw [if_neg (by rw [reads]; exact Bool.false_ne_true)]
          rfl
        dsimp only
        rw [kept, ok_bind, closed, ok_bind]
        exact ⟨_, rfl, left⟩
  obtain ⟨after, destroysEq, left⟩ := destroys
  unfold closeConnection
  rw [destroysEq, ok_bind]
  exact ⟨_, rfl, left⟩

end Closing

/-- A request that has its table or entry, or none. -/
structure Parked (method : Method) (session : Session kh) : Prop where
  handler : session.connection.handler = .handleHttpversion ∨
    session.connection.handler = .handleHeaders ∨
    session.connection.handler = .handleEolstats ∨
    session.connection.handler = .handleEolwritetoend ∨
    session.connection.handler = .respondWriteonly
  method : session.connection.method = some method

/-- The methods that do not write. -/
def Method.quiet : Method → Bool
  | .get | .head | .delete => true
  | _ => false

section Stages

variable {env : Env} {method : Method} {base : Db env.kh}
  {session : Session env.kh} {outcome : Db env.kh → Prop}

theorem cutOff_cons {action : Action} {next : Session env.kh}
    (run : handle env session action = .ok next) (rest : List Action) :
    cutOff env session (action :: rest) = cutOff env next rest := by
  unfold cutOff
  rw [List.foldlM_cons, run, ok_bind]

/-- A header of a quiet request sets a range of a listing, if anything. -/
theorem header_keeps (quiet : method.quiet) (parked : Parked method session)
    (header : Header) :
    ∃ next, httpReadHeaderExtraction env.hashString session header =
        .ok next ∧
      Parked method next ∧ Keeps session next := by
  have unchanged : ∃ next : Session env.kh, (.ok session : Except Fault _) =
      .ok next ∧ Parked method next ∧ Keeps session next :=
    ⟨session, rfl, parked, .refl session⟩
  have bounds (value : Option Digits)
      (store : Connection → Nat → Connection)
      (stores : ∀ connection bound,
        (store connection bound).handler = connection.handler ∧
        (store connection bound).method = connection.method ∧
        (store connection bound).level = connection.level ∧
        (store connection bound).target = connection.target ∧
        (store connection bound).fd = connection.fd ∧
        (store connection bound).isWriting = connection.isWriting) :
      ∃ next : Session env.kh,
        (.ok (readListingBound session value store) : Except Fault _) =
          .ok next ∧ Parked method next ∧ Keeps session next := by
    refine ⟨_, rfl, ?_⟩
    unfold readListingBound
    cases value with
    | none =>
        exact ⟨⟨by simp [Session.writeResponse], parked.method⟩,
          rfl, rfl, rfl, rfl, rfl, rfl⟩
    | some bound =>
        obtain ⟨sameHandler, sameMethod, sameLevel, sameTarget, sameFd,
          sameWriting⟩ := stores session.connection bound.val
        exact ⟨⟨by rw [sameHandler]; exact parked.handler,
          sameMethod.trans parked.method⟩, rfl, sameMethod, sameLevel,
          sameTarget, sameFd, sameWriting⟩
  unfold httpReadHeaderExtraction
  rw [parked.method]
  cases method with
  | get =>
      cases session.connection.level with
      | table =>
          cases header with
          | xLimit value =>
              exact bounds value _ fun _ _ => ⟨rfl, rfl, rfl, rfl, rfl, rfl⟩
          | xStart value =>
              exact bounds value _ fun _ _ => ⟨rfl, rfl, rfl, rfl, rfl, rfl⟩
          | _ => exact unchanged
      | _ => exact unchanged
  | head => exact unchanged
  | delete => exact unchanged
  | _ => cases quiet

theorem parked_step (quiet : method.quiet) (parked : Parked method session)
    {action : Action} (early : action.early) :
    ∃ next, handle env session action = .ok next ∧ Parked method next ∧
      Keeps session next := by
  have unchanged : ∃ next : Session env.kh, (.ok session : Except Fault _) =
      .ok next ∧ Parked method next ∧ Keeps session next :=
    ⟨session, rfl, parked, .refl session⟩
  unfold handle
  rcases parked.handler with handler | handler | handler | handler | handler
  · rw [handler]
    cases action with
    | httpVersion =>
        exact ⟨_, rfl, ⟨by simp [Session.moveTo], parked.method⟩,
          rfl, rfl, rfl, rfl, rfl, rfl⟩
    | endOfHeaders | endOfLine | requestBody | writeReady | disconnect =>
        cases early
    | _ => exact unchanged
  · rw [handler]
    cases action with
    | header header => exact header_keeps quiet parked header
    | requestTooLarge =>
        exact ⟨_, rfl, ⟨by simp [Session.writeResponse], parked.method⟩,
          rfl, rfl, rfl, rfl, rfl, rfl⟩
    | endOfHeaders | endOfLine | requestBody | writeReady | disconnect =>
        cases early
    | _ => exact unchanged
  all_goals
    rw [handler]
    cases action with
    | endOfHeaders | endOfLine | requestBody | writeReady | disconnect =>
        cases early
    | _ => exact unchanged

theorem parked_ends (quiet : method.quiet) (parked : Parked method session)
    (closing : Closing outcome session) {actions : List Action}
    (early : ∀ action ∈ actions, action.early) :
    ∃ after, cutOff env session actions = .ok after ∧ outcome after.db := by
  induction actions generalizing session with
  | nil => exact closing.ends
  | cons action rest ih =>
      obtain ⟨next, run, parkedNext, keeps⟩ :=
        parked_step quiet parked (early action List.mem_cons_self)
      obtain ⟨after, runRest, left⟩ := ih parkedNext (closing.keep keeps)
        fun other member => early other (List.mem_cons_of_mem _ member)
      exact ⟨after, (cutOff_cons run rest).trans runRest, left⟩

end Stages

/-- The store is left alone, except where something is interrupted. -/
def Cut (base : Db kh) (interrupted : Prop) (after : Db kh) : Prop :=
  LeftAlone base after ↔ ¬interrupted

theorem LeftAlone.cut {interrupted : Prop} (left : LeftAlone base after)
    (free : ¬interrupted) : Cut base interrupted after :=
  iff_of_true left free

/-- Opening an entry for reading finds its file, if it has one. -/
theorem dbTargetOpen_reads (inTable : db.entry.table entry = some table) :
    ∃ target, dbTargetOpen db entry false = .ok (db, target) ∧
      ((∃ inode, target.fd = .file inode) ↔ isSingleFile db entry = true ∧
        db.disk.paths (keyPathIn db table entry) ≠ none) := by
  unfold dbTargetOpen
  by_cases single : isSingleFile db entry = true
  · rw [if_pos single, if_neg Bool.false_ne_true]
    have pathEq : getKeyPath db entry = .ok (keyPathIn db table entry) :=
      getKeyPath_eq_ok.mpr ⟨table, inTable, rfl⟩
    unfold dbEntryOpen
    rw [pathEq, ok_bind]
    cases found : db.disk.paths (keyPathIn db table entry) with
    | none => exact ⟨_, rfl, by simp⟩
    | some inode => exact ⟨_, rfl, by simp [single]⟩
  · rw [if_neg single]
    exact ⟨_, rfl, by simp [single]⟩

theorem setWithout_ne
    (found : kh.lookup (base.table.cacheHashSet table)
      (base.entry.hash entry) = some entry) :
    base.setWithout table entry ≠ base.table.cacheHashSet table := by
  intro same
  rw [← same, Db.setWithout, BucketMap.lookup_del_find, if_pos rfl] at found
  cases found

/-- Without its file an entry whose upload is in progress is not left
alone. -/
theorem not_leftAlone_unlinked {path : KeyPath} (inOrder : InOrder base)
    (present : base.disk.paths path ≠ none)
    (same : SameStore (unlinkPath base path) after) :
    ¬LeftAlone base after := by
  have unlinked : after.disk.paths path = none := by
    rw [same.paths]
    exact Function.update_self ..
  rintro (kept | ⟨entry, without, registered, -, run, kept⟩)
  · rw [kept.paths] at unlinked
    exact present unlinked
  · obtain ⟨table, tabled, isHeld⟩ :=
      (registered_iff_tabled base entry).mp registered
    obtain ⟨found, inTable⟩ := inOrder.of_holds tabled isHeld
    have sets := expireEntry_heldOnce_sets inTable
      (inOrder.present table tabled).1 run
    have sameSets : without.table.cacheHashSet = base.table.cacheHashSet :=
      kept.sets.symm.trans same.sets
    apply setWithout_ne found
    rw [← sameSets, sets, Function.update_self]

/-- An emptied table that stays registered is not left alone. -/
theorem not_leftAlone_emptied (inOrder : InOrder base)
    (tabled : Tabled base table) (isHeld : Holds base table entry)
    (empty : kh.size (base.setWithout table entry) = 0)
    (tables : after.tables = base.tables)
    (sets : after.table.cacheHashSet = Function.update base.table.cacheHashSet
      table (base.setWithout table entry)) :
    ¬LeftAlone base after := by
  obtain ⟨found, -⟩ := inOrder.of_holds tabled isHeld
  have setAfter : after.table.cacheHashSet table =
      base.setWithout table entry := by
    rw [sets, Function.update_self]
  rintro (kept | ⟨other, without, registered, -, run, kept⟩)
  · apply setWithout_ne found
    rw [← setAfter, kept.sets]
  · obtain ⟨otherTable, otherTabled, otherHeld⟩ :=
      (registered_iff_tabled base other).mp registered
    obtain ⟨otherFound, otherIn⟩ := inOrder.of_holds otherTabled otherHeld
    obtain ⟨present, -, -⟩ := inOrder.present otherTable otherTabled
    have setsWithout := expireEntry_heldOnce_sets otherIn present run
    rw [← kept.sets] at setsWithout
    by_cases same : otherTable = table
    · subst same
      have gone := expireEntry_heldOnce_tables otherIn present (by
        rw [← Function.update_self otherTable
          (base.setWithout otherTable other) base.table.cacheHashSet,
          ← setsWithout, setAfter]
        exact empty) run
      rw [← kept.tables, tables, inOrder.lookup_hash tabled] at gone
      cases gone
    · apply setWithout_ne found
      rw [← setAfter, setsWithout, Function.update_of_ne (Ne.symm same)]

/-- Closing an entry that was opened for reading unlinks the file of an upload
in progress. -/
theorem closeEntry_cut {target : Target} (inOrder : InOrder base)
    (tabled : Tabled base table) (isHeld : Holds base table entry)
    (borrowed : Borrowed base db)
    (opens : (∃ inode, target.fd = .file inode) ↔
      isSingleFile base entry = true ∧
        base.disk.paths (keyPathIn base table entry) ≠ none) :
    ∃ after, dbTargetEntryClose db entry target.fd = .ok after ∧
      Cut base (InFile base entry) after := by
  obtain ⟨-, inTable⟩ := inOrder.of_holds tabled isHeld
  have kept := inOrder.kept table tabled entry isHeld
  obtain ⟨-, undeleted, -⟩ := inOrder.present table tabled
  have pathEq : getKeyPath base entry = .ok (keyPathIn base table entry) :=
    getKeyPath_eq_ok.mpr ⟨table, inTable, rfl⟩
  have inFile : InFile base entry ↔ base.entry.writing entry = true ∧
      ∃ inode, target.fd = .file inode := by
    unfold InFile
    rw [opens, pathEq]
    simp
  rw [inFile]
  obtain ⟨entryRefs, tableRefs, lru, statsGets, statsDeletes, statsOperations,
    dbEq⟩ := borrowed.eq
  have writingEq : db.entry.writing entry = base.entry.writing entry := by
    rw [dbEq]
  unfold dbTargetEntryClose
  cases fdEq : target.fd with
  | closed =>
      have left := (borrowed.derefEntry inTable kept undeleted).same
      exact ⟨_, rfl, LeftAlone.cut (Or.inl left) (by simp)⟩
  | blockfile =>
      have left := (borrowed.derefEntry inTable kept undeleted).same
      exact ⟨_, rfl, LeftAlone.cut (Or.inl left) (by simp)⟩
  | file inode =>
      dsimp only
      by_cases isWriting : base.entry.writing entry = true
      · rw [if_pos (writingEq.trans isWriting)]
        have deletes : dbEntryDelete db entry =
            .ok (unlinkPath db (keyPathIn base table entry)) := by
          unfold dbEntryDelete
          have pathNow : getKeyPath db entry = getKeyPath base entry := by
            rw [dbEq]
            rfl
          rw [pathNow, pathEq]
          rfl
        rw [deletes, ok_bind]
        have unlinked : Borrowed
            (unlinkPath base (keyPathIn base table entry))
            (unlinkPath db (keyPathIn base table entry)) := by
          refine ⟨⟨entryRefs, tableRefs, lru, statsGets, statsDeletes,
            statsOperations, ?_⟩, borrowed.lru⟩
          rw [dbEq]
          rfl
        refine ⟨_, rfl, iff_of_false ?_ ?_⟩
        · exact not_leftAlone_unlinked inOrder (opens.mp ⟨inode, fdEq⟩).2
            (unlinked.derefEntry inTable kept undeleted).same
        · exact not_not_intro ⟨isWriting, inode, rfl⟩
      · rw [if_neg fun isWritingNow =>
          isWriting (writingEq.symm.trans isWritingNow)]
        have left := (borrowed.derefEntry inTable kept undeleted).same
        exact ⟨_, rfl, LeftAlone.cut (Or.inl left)
          fun both => isWriting both.1⟩

section Keys

variable {env : Env} {method : Method} {base : Db env.kh}
  {session : Session env.kh} {table entry : Nat} {interrupted : Prop}

theorem holdEntry_none (session : Session env.kh)
    (ofMethod : session.connection.method = some method)
    (left : Cut base interrupted (dbTableDeref session.db table false)) :
    ∃ next, holdEntry session table none = .ok next ∧ Parked method next ∧
      Closing (Cut base interrupted) next := by
  unfold holdEntry
  dsimp only
  refine ⟨_, rfl, ⟨Or.inl rfl, ofMethod⟩, .null rfl ?_⟩
  dsimp only
  exact left

theorem holdEntry_some (session : Session env.kh) (quiet : method.quiet)
    (inOrder : InOrder base) (tabled : Tabled base table)
    (isHeld : Holds base table entry)
    (borrowed : Borrowed base session.db)
    (ofMethod : session.connection.method = some method)
    (reads : session.connection.isWriting = false)
    (ofEntry : interrupted ↔ InFile base entry) :
    ∃ next, holdEntry session table (some entry) = .ok next ∧
      Parked method next ∧ Closing (Cut base interrupted) next := by
  obtain ⟨-, inTable⟩ := inOrder.of_holds tabled isHeld
  obtain ⟨entryRefs, tableRefs, lru, statsGets, statsDeletes, statsOperations,
    dbEq⟩ := borrowed.eq
  have inTableNow : session.db.entry.table entry = some table := by
    rw [dbEq]
    exact inTable
  obtain ⟨target, opened, opens⟩ := dbTargetOpen_reads inTableNow
  have opensBase : (∃ inode, target.fd = .file inode) ↔
      isSingleFile base entry = true ∧
        base.disk.paths (keyPathIn base table entry) ≠ none := by
    rw [opens, dbEq]
    rfl
  obtain ⟨after, closed, left⟩ :=
    closeEntry_cut inOrder tabled isHeld borrowed opensBase
  have reading : ¬session.connection.method = some .put := by
    rw [ofMethod]
    rintro isPut
    obtain rfl := Option.some.inj isPut
    cases quiet
  unfold holdEntry
  dsimp only
  rw [if_neg reading, opened, ok_bind]
  rw [← ofEntry] at left
  exact ⟨_, rfl, ⟨Or.inl rfl, ofMethod⟩,
    .entry entry after rfl rfl reads closed left⟩

/-- A key that is read. -/
theorem keySegment_parks (quiet : method.quiet) (inOrder : InOrder base)
    (tabled : Tabled base table)
    (held : session.db = dbTableIncref base table)
    (ofMethod : session.connection.method = some method)
    (reads : session.connection.isWriting = false) (key : Bytes)
    (outcome : FlushOutcome) :
    ∃ next, httpKeyLookup env session table key outcome = .ok next ∧
      Parked method next ∧
      Closing (Cut base (HarmsKey env.hashString base method table key))
        next := by
  obtain ⟨present, undeleted, fits⟩ := inOrder.present table tabled
  have reading (isRead : method ≠ .delete) :
      ∃ next, (dbEntryGetRead env.hashString session.db table key >>=
        fun found => holdEntry { session with
          db := found.1
          connection.served := found.2 } table found.2) = .ok next ∧
        Parked method next ∧
        Closing (Cut base (HarmsKey env.hashString base method table key))
          next := by
    have uninterrupted : ¬Interrupts env.hashString base method table key :=
      fun both => isRead both.1
    rw [held]
    by_cases stale : ∃ entry, env.kh.lookup (base.table.cacheHashSet table)
        (env.hashString key) = some entry ∧ expired base entry = true
    · obtain ⟨entry, found, isExpired⟩ := stale
      have isHeld : Holds base table entry := ⟨_, found⟩
      obtain ⟨-, inTable⟩ := inOrder.of_holds tabled isHeld
      have registered : Registered base entry :=
        (registered_iff_tabled base entry).mpr ⟨table, tabled, isHeld⟩
      by_cases overfills : base.table.refs table = 32767 ∧
          env.kh.size (base.setWithout table entry) = 0
      · obtain ⟨full, empty⟩ := overfills
        have unheld : (dbTableIncref base table).table.refs table = 0 := by
          simp [dbTableIncref, full, u15]
        have inTableNow : (dbTableIncref base table).entry.table entry =
            some table := inTable
        have presentNow :
            (dbTableIncref base table).table.destroyed table = false := present
        have run := expireEntry_eq _ inTableNow presentNow
        obtain ⟨tables, wrapped⟩ :=
          expireEntry_unheld inTableNow presentNow unheld empty run
        have sets := expireEntry_sets inTableNow presentNow run
        rw [getRead_expired presentNow found isExpired run, ok_bind]
        have harms : HarmsKey env.hashString base method table key :=
          Or.inr ⟨isRead, full, entry, found, isExpired, empty⟩
        apply holdEntry_none { session with
          db := _
          connection.served := none } ofMethod
        refine iff_of_false (not_leftAlone_emptied inOrder tabled isHeld empty
          ?_ ?_) (not_not_intro harms)
        · rw [dbTableDeref_eq, if_neg]
          · exact tables
          · rintro ⟨none_, -⟩
            rw [decTable_refs] at none_
            rw [wrapped] at none_
            cases none_
        · rw [dbTableDeref_cacheHashSet]
          exact sets
      · have heldToo : env.kh.size (base.setWithout table entry) = 0 →
            Function.update base.table.refs table
              (u15 (base.table.refs table + 1)) table ≠ 0 := by
          intro empty
          have room : base.table.refs table ≠ 32767 :=
            fun full => overfills ⟨full, empty⟩
          rw [Function.update_self]
          unfold u15
          omega
        have inTableOnce : base.heldOnce.entry.table entry = some table :=
          inTable
        obtain ⟨without, after, expire, run, same, unfound⟩ :=
          expireEntry_tableRefs _ inTableOnce present Nat.one_ne_zero heldToo
            undeleted
        have lookup : dbEntryGetRead env.hashString (dbTableIncref base table)
            table key = .ok (after, none) :=
          getRead_expired present found isExpired run
        rw [lookup, ok_bind]
        apply holdEntry_none
          { session with db := after, connection.served := none } ofMethod
        have dropped := sameStore_derefTable unfound
        refine LeftAlone.cut (Or.inr ⟨entry, without, registered, isExpired,
          expire, same.trans dropped⟩) ?_
        rintro (interrupts | ⟨-, full, other, otherFound, -, empty⟩)
        · exact uninterrupted interrupts
        · obtain rfl := Option.some.inj (otherFound.symm.trans found)
          exact overfills ⟨full, empty⟩
    · have free : ¬HarmsKey env.hashString base method table key := by
        rintro (interrupts | ⟨-, -, entry, found, isExpired, -⟩)
        · exact uninterrupted interrupts
        · exact stale ⟨entry, found, isExpired⟩
      have fresh : ∀ entry, env.kh.lookup (base.table.cacheHashSet table)
          (env.hashString key) = some entry → expired base entry = false :=
        fun entry found => eq_false_of_ne_true
          fun isExpired => stale ⟨entry, found, isExpired⟩
      rcases inOrder.getRead tabled env.hashString key fresh with
        ⟨after, run, borrowed⟩ | ⟨after, entry, run, borrowed, isHeld, idle⟩
      · rw [run, ok_bind]
        apply holdEntry_none
          { session with db := after, connection.served := none } ofMethod
        exact LeftAlone.cut (Or.inl (borrowed.derefTable undeleted).same) free
      · rw [run, ok_bind]
        apply holdEntry_some
          { session with db := after, connection.served := some entry } quiet
          inOrder tabled isHeld borrowed ofMethod reads
        refine iff_of_false free fun inFile => ?_
        exact Bool.false_ne_true (idle.symm.trans inFile.1)
  unfold httpKeyLookup
  rw [ofMethod]
  cases method with
  | get => exact reading (by simp)
  | head => exact reading (by simp)
  | delete =>
      obtain ⟨after, found, run, borrowed, finds⟩ :=
        inOrder.getDelete tabled env.hashString key
      dsimp only
      rw [held, run, ok_bind]
      cases found with
      | none =>
          apply holdEntry_none { session with
            db := after
            connection.output := some (.template .fullHttp200Deleted) }
            ofMethod
          refine LeftAlone.cut
            (Or.inl (borrowed.derefTable undeleted).same) ?_
          rintro (⟨-, entry, found, -⟩ | ⟨isRead, -⟩)
          · cases (finds entry).mpr found
          · exact isRead rfl
      | some entry =>
          have found := (finds entry).mp rfl
          have isHeld : Holds base table entry := ⟨_, found.1⟩
          apply holdEntry_some { session with
            db := after
            connection.output := some (.template .fullHttp200Deleted) }
            quiet inOrder tabled isHeld borrowed ofMethod reads
          constructor
          · rintro (⟨-, other, otherFound, inFile⟩ | ⟨isRead, -⟩)
            · obtain rfl := Option.some.inj
                (otherFound.1.symm.trans found.1)
              exact inFile
            · exact absurd rfl isRead
          · exact fun inFile => Or.inl ⟨rfl, entry, found, inFile⟩
  | _ => cases quiet

/-- A request that holds its table and waits for its key. -/
theorem urlKey_ends (quiet : method.quiet) (inOrder : InOrder base)
    (tabled : Tabled base table)
    (handler : session.connection.handler = .handleUrlKey)
    (target : session.connection.target = .table table)
    (level : session.connection.level = .table)
    (held : session.db = dbTableIncref base table)
    (ofMethod : session.connection.method = some method)
    (reads : session.connection.isWriting = false) {actions : List Action}
    (early : ∀ action ∈ actions, action.early) :
    ∃ after, cutOff env session actions = .ok after ∧
      Cut base (∃ key, keyOf actions = some key ∧
        HarmsKey env.hashString base method table key) after.db := by
  obtain ⟨-, undeleted, -⟩ := inOrder.present table tabled
  induction actions with
  | nil =>
      have dropped : Borrowed base (dbTableDeref session.db table false) := by
        rw [held]
        exact (borrowed_incref base table).derefTable undeleted
      have left : Cut base (∃ key, keyOf [] = some key ∧
          HarmsKey env.hashString base method table key)
          (dbTableDeref session.db table false) :=
        LeftAlone.cut (Or.inl dropped.same) (by simp [keyOf])
      exact (Closing.table table target level left).ends
  | cons action rest ih =>
      have earlyRest : ∀ action ∈ rest, action.early := fun other member =>
        early other (List.mem_cons_of_mem _ member)
      have ignored (run : handle env session action = .ok session)
          (sameKey : keyOf (action :: rest) = keyOf rest) :
          ∃ after, cutOff env session (action :: rest) = .ok after ∧
            Cut base (∃ key, keyOf (action :: rest) = some key ∧
              HarmsKey env.hashString base method table key) after.db := by
        rw [cutOff_cons run, sameKey]
        exact ih earlyRest
      cases action with
      | keySegment key outcome =>
          obtain ⟨next, run, parked, closing⟩ := keySegment_parks quiet
            inOrder tabled held ofMethod reads key.val outcome
          have handles : handle env session (.keySegment key outcome) =
              .ok next := by
            unfold handle
            rw [handler, target]
            exact run
          rw [cutOff_cons handles]
          have ended := parked_ends quiet parked closing earlyRest
          simpa only [keyOf, Option.some.injEq, exists_eq_left'] using ended
      | endOfHeaders | endOfLine | requestBody | writeReady | disconnect =>
          cases early _ List.mem_cons_self
      | _ =>
          apply ignored
          · unfold handle
            rw [handler]
            rfl
          · rfl

/-- A request on a whole table. -/
theorem tableOnly_parks (quiet : method.quiet) (inOrder : InOrder base)
    (target : session.connection.target = .null) (same : session.db = base)
    (ofMethod : session.connection.method = some method) (name : Bytes)
    (outcome : FlushOutcome) (free : ¬interrupted) :
    ∃ next, httpReadTableOnly env session name outcome = .ok next ∧
      Parked method next ∧ Closing (Cut base interrupted) next := by
  have unchanged : Cut base interrupted session.db := by
    rw [same]
    exact LeftAlone.cut (Or.inl (.refl base)) free
  have refused : ∃ next : Session env.kh,
      (.ok ({ session with connection.level := .table }.writeResponseAfterEol
        .fullInvalidMethod) : Except Fault _) = .ok next ∧
      Parked method next ∧ Closing (Cut base interrupted) next :=
    ⟨_, rfl, ⟨by simp [Session.writeResponseAfterEol], ofMethod⟩,
      .null target unchanged⟩
  have holds : ∃ next,
      (if name = [] then
        (.ok { session with connection.level := .table }.statsAfterEol :
          Except Fault (Session env.kh))
      else holdTable env.hashString session name) = .ok next ∧
      Parked method next ∧ Closing (Cut base interrupted) next := by
    by_cases unnamed : name = []
    · rw [if_pos unnamed]
      exact ⟨_, rfl, ⟨by simp [Session.statsAfterEol], ofMethod⟩,
        .null target unchanged⟩
    · rw [if_neg unnamed]
      obtain ⟨found, probe, tabled⟩ :=
        inOrder.probeTable_ends name (env.hashString name)
      unfold holdTable dbTableGetRead
      rw [same, probe, ok_bind]
      cases found with
      | inl hash =>
          rw [same] at unchanged
          exact ⟨_, rfl, ⟨by simp [setListing], ofMethod⟩,
            .null rfl unchanged⟩
      | inr table =>
          have tabled := tabled table rfl
          have dropped := (borrowed_incref base table).derefTable
            (inOrder.present table tabled).2.1
          exact ⟨_, rfl, ⟨by simp [setListing], ofMethod⟩,
            .table table rfl rfl (LeftAlone.cut (Or.inl dropped.same) free)⟩
  unfold httpReadTableOnly
  rw [ofMethod]
  cases method with
  | get => exact holds
  | delete => exact holds
  | head => exact refused
  | _ => cases quiet

theorem harms_tableSegment (hashString : Bytes → UInt32) (db : Db env.kh)
    (method : Method) (name : Word) (rest : List Action) :
    Harms hashString db method (.tableSegment name :: rest) ↔
      ∃ key table, keyOf rest = some key ∧
        probeTable db name.val (env.kh.size db.tables + 1)
          (hashString name.val) = .ok (.inr table) ∧
        HarmsKey hashString db method table key := by
  unfold Harms urlOf
  cases keyOf rest with
  | none => simp
  | some key => simp [and_assoc]

/-- A request that waits for its URL. -/
theorem url_ends (quiet : method.quiet) (inOrder : InOrder base)
    (handler : session.connection.handler = .handleUrl)
    (target : session.connection.target = .null) (same : session.db = base)
    (ofMethod : session.connection.method = some method)
    (reads : session.connection.isWriting = false) {actions : List Action}
    (early : ∀ action ∈ actions, action.early) :
    ∃ after, cutOff env session actions = .ok after ∧
      Cut base (Harms env.hashString base method actions) after.db := by
  induction actions with
  | nil =>
      have left : Cut base (Harms env.hashString base method [])
          session.db := by
        rw [same]
        exact LeftAlone.cut (Or.inl (.refl base)) (by simp [Harms, urlOf])
      exact (Closing.null target left).ends
  | cons action rest ih =>
      have earlyRest : ∀ action ∈ rest, action.early := fun other member =>
        early other (List.mem_cons_of_mem _ member)
      have ignored (run : handle env session action = .ok session)
          (sameUrl : urlOf (action :: rest) = urlOf rest) :
          ∃ after, cutOff env session (action :: rest) = .ok after ∧
            Cut base (Harms env.hashString base method (action :: rest))
              after.db := by
        unfold Harms
        rw [cutOff_cons run, sameUrl]
        exact ih earlyRest
      cases action with
      | tableSegment name =>
          obtain ⟨found, probe, tabled⟩ :=
            inOrder.probeTable_ends name.val (env.hashString name.val)
          have ofRead : tableOfKey env.hashString
              { session.connection with level := .table }.method session.db
              name.val = dbTableGetRead env.hashString base name.val := by
            dsimp only
            rw [ofMethod, same]
            cases method with
            | get | head | delete => rfl
            | _ => cases quiet
          have handles : handle env session (.tableSegment name) =
              httpReadTableSegment env.hashString session name.val := by
            unfold handle
            rw [handler]
          unfold httpReadTableSegment at handles
          unfold dbTableGetRead at ofRead
          rw [probe, ok_bind] at ofRead
          dsimp only at handles ofRead
          rw [ofRead] at handles
          cases found with
          | inl hash =>
              let next : Session env.kh := Session.writeResponseAfterEol
                { session with
                  db := base
                  connection.level := .table
                  connection.target := .null } .full404
              have parked : Parked method next :=
                ⟨by simp [next, Session.writeResponseAfterEol], ofMethod⟩
              have free : ¬Harms env.hashString base method
                  (.tableSegment name :: rest) := by
                rw [harms_tableSegment]
                rintro ⟨key, table, -, found, -⟩
                rw [probe] at found
                cases found
              have closing : Closing (Cut base (Harms env.hashString base
                  method (.tableSegment name :: rest))) next :=
                .null rfl (LeftAlone.cut (Or.inl (.refl base)) free)
              rw [cutOff_cons handles]
              exact parked_ends quiet parked closing earlyRest
          | inr table =>
              let next : Session env.kh :=
                { session with
                  db := dbTableIncref base table
                  connection :=
                    { session.connection with
                      level := .table
                      target := .table table
                      handler := .handleUrlKey } }
              have ended := urlKey_ends quiet inOrder (tabled table rfl)
                (show next.connection.handler = .handleUrlKey from rfl)
                rfl rfl rfl ofMethod reads earlyRest
              have sameHarms : Harms env.hashString base method
                  (.tableSegment name :: rest) ↔
                    ∃ key, keyOf rest = some key ∧
                      HarmsKey env.hashString base method table key := by
                rw [harms_tableSegment, probe]
                simp
              rw [cutOff_cons handles, sameHarms]
              exact ended
      | tableOnly name outcome =>
          have free : ¬Harms env.hashString base method
              (.tableOnly name outcome :: rest) := by
            simp [Harms, urlOf]
          obtain ⟨next, run, parked, closing⟩ := tableOnly_parks quiet inOrder
            target same ofMethod name.val outcome free
          have handles : handle env session (.tableOnly name outcome) =
              .ok next := by
            unfold handle
            rw [handler]
            exact run
          rw [cutOff_cons handles]
          exact parked_ends quiet parked closing earlyRest
      | endOfHeaders | endOfLine | requestBody | writeReady | disconnect =>
          cases early _ List.mem_cons_self
      | _ =>
          apply ignored
          · unfold handle
            rw [handler]
            rfl
          · rfl

end Keys

/-- A connection between two requests. -/
structure Resting (connection : Connection) : Prop where
  handler : connection.handler = .handleMethod
  target : connection.target = .null
  reads : connection.isWriting = false

/-- A request that does not write and is cut off before its headers end leaves
the store alone, unless what it names is not to be touched. -/
theorem cutOff_leftAlone_iff (env : Env) (session : Session env.kh)
    (method : Method) (actions : List Action) (inOrder : InOrder session.db)
    (resting : Resting session.connection) (quiet : method.quiet)
    (early : ∀ action ∈ actions, action.early) :
    ∃ after, cutOff env session
        (.requestMethod (.known method) :: actions) = .ok after ∧
      (LeftAlone session.db after.db ↔
        ¬Harms env.hashString session.db method actions) := by
  have handles : handle env session (.requestMethod (.known method)) =
      .ok (httpReadRequeststartmethod session (.known method)) := by
    unfold handle
    rw [resting.handler]
    rfl
  rw [cutOff_cons handles]
  have started : (httpReadRequeststartmethod session
      (.known method)).connection.handler = .handleUrl := rfl
  exact url_ends quiet inOrder started resting.target rfl rfl resting.reads
    early

/-- An upload of 5000 bytes to a file is in progress. -/
def uploadDb : Db listHash :=
  let db := loneDb 2 0 5000
  { db with
    entry :=
      { db.entry with
        writing := fun _ => true
        refs := fun _ => 1
        expires := fun _ => 0 }
    lru := Links.empty
    disk.paths := Function.update (fun _ => none) (keyPathIn db 0 0) (some 0)
    disk.inodeCount := 1 }

theorem uploadDb_inOrder : InOrder uploadDb where
  tables := fun slot table registered => (lookup_lone.mp registered).1.symm
  entries := by
    rintro table ⟨slot, registered⟩ hash entry found
    rw [(lookup_lone.mp registered).2]
    exact ⟨(lookup_lone.mp found).1.symm, rfl⟩
  present := fun _ _ => ⟨rfl, rfl, by change 2 < 32768; decide⟩
  kept := fun _ _ _ _ => rfl
  lru := by
    refine ⟨[], Links.represents_empty, fun entry => ?_⟩
    simp [uploadDb]
  room := by decide +kernel

def noHash : Env where
  kh := listHash
  hashString := fun _ => 0
  maxSize := 0
  bytesToRemove := fun _ => 0

/-- The second connection, while the first one uploads. -/
def uploadSession : Session listHash where
  db := uploadDb
  connection := newConnection
  completions := []

theorem uploadSession_resting : Resting uploadSession.connection :=
  ⟨rfl, rfl, rfl⟩

/-- The URL of the upload. -/
def uploadUrl : List Action :=
  [.tableSegment ⟨[], by decide⟩, .keySegment ⟨[], by decide⟩ ⟨0, true, 0⟩]

theorem cutOff_leftAlone_upload :
    ∃ after, cutOff noHash uploadSession
        (.requestMethod (.known .get) :: uploadUrl) = .ok after ∧
      (LeftAlone uploadSession.db after.db ↔
        ¬Harms noHash.hashString uploadSession.db .get uploadUrl) :=
  cutOff_leftAlone_iff noHash uploadSession .get uploadUrl uploadDb_inOrder
    uploadSession_resting (by decide) (by decide)

/-- A `DELETE` that is cut off removes the file of the upload. -/
theorem not_leftAlone_upload :
    ¬∀ (env : Env) (session : Session env.kh) (method : Method)
      (actions : List Action), InOrder session.db →
        Resting session.connection → method.quiet →
          (∀ action ∈ actions, action.early) →
            ∃ after, cutOff env session
                (.requestMethod (.known method) :: actions) = .ok after ∧
              LeftAlone session.db after.db := by
  intro claim
  obtain ⟨after, run, left⟩ := claim noHash uploadSession .delete uploadUrl
    uploadDb_inOrder uploadSession_resting (by decide) (by decide)
  have ends : (cutOff noHash uploadSession (.requestMethod (.known .delete) ::
      uploadUrl)).map (fun session =>
        session.db.disk.paths (keyPathIn uploadDb 0 0)) = .ok none := by
    decide +kernel
  rw [run] at ends
  have unlinked : after.db.disk.paths (keyPathIn uploadDb 0 0) = none :=
    Except.ok.inj ends
  rcases left with kept | ⟨entry, -, -, isExpired, -, -⟩
  · rw [kept.paths] at unlinked
    revert unlinked
    decide +kernel
  · have never : expired uploadDb entry = false := by
      simp [expired, uploadDb]
    exact Bool.false_ne_true (never.symm.trans isExpired)

end SimpleCache
