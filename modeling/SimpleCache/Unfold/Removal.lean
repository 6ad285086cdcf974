import SimpleCache.Unfold.Release

/-!
# Removals as changes

The functions that remove entries and tables, each as the sequence of changes
it makes.
-/

namespace SimpleCache

variable {kh : KHash} {hashString : Bytes → UInt32}
  {allowed : Defect → Prop} {work : Work kh}

/-- The paths after the file of an entry is removed, if it has one. -/
def Db.pathsWithout (db : Db kh) (table entry : Nat) : KeyPath → Option Nat :=
  if isSingleFile db entry then
    Function.update db.disk.paths (keyPathIn db table entry) none
  else db.disk.paths

theorem dbEntryCleanup_eq {db : Db kh} {entry table : Nat}
    (inTable : db.entry.table entry = some table) :
    dbEntryCleanup db entry =
      .ok { db with disk.paths := db.pathsWithout table entry } := by
  unfold dbEntryCleanup Db.pathsWithout
  cases isSingleFile db entry with
  | false => rfl
  | true => simp [getKeyPath, entryTable, inTable, unlinkPath, bind, pure,
      Except.bind, Except.pure]

/-- The store after `db_entry_handle_delete` has taken the entry out, before
it looks at the table. -/
def Db.removed (db : Db kh) (table entry : Nat) : Db kh :=
  { db.remove table entry
      (kh.find (db.table.cacheHashSet table) (db.entry.hash entry)) with
    dbKeys := u64 (db.dbKeys + 18446744073709551615) }

theorem takeOut_eq (db : Db kh) (table entry : Nat) :
    takeOut { db with disk.paths := db.pathsWithout table entry } table entry
        (kh.find (db.table.cacheHashSet table) (db.entry.hash entry)) =
      db.removed table entry := by
  unfold takeOut Db.removed Db.remove Db.pathsWithout
  dsimp only [setKeyMap]
  cases db.entry.writing entry with
  | true => rfl
  | false => rfl

theorem dbDeleteTableEntry_ok {db after : Db kh} {table : Nat}
    {actuallyDelete : Bool}
    (run : dbDeleteTableEntry db table
      (kh.find db.tables (db.table.hash table)) actuallyDelete = .ok after) :
    db.table.destroyed table = false ∧
      after = dbTableDeref (db.destroy table) table actuallyDelete := by
  unfold dbDeleteTableEntry at run
  rw [bind_eq_ok] at run
  obtain ⟨set, present, run⟩ := run
  refine ⟨(keyMap_eq_ok.mp present).1, ?_⟩
  rw [pure_eq_ok] at run
  rw [← run]
  unfold Db.destroy
  by_cases unheld : db.table.refs table = 0
  · simp [unheld]
  · simp [unheld]

/-- The store after `db_entry_handle_delete` has taken the last entry of a
table out. -/
def Db.removedLast (db : Db kh) (table entry : Nat) : Db kh :=
  (dbTableDeref (((db.removed table entry).doom table).destroy table) table
    true).detach entry

theorem detach_table (db : Db kh) (entry : Nat) :
    (db.detach entry).table = db.table := rfl

theorem detach_tables (db : Db kh) (entry : Nat) :
    (db.detach entry).tables = db.tables := rfl

theorem removedLast_destroyed (db : Db kh) (table entry : Nat) :
    (db.removedLast table entry).table.destroyed =
      Function.update db.table.destroyed table true := by
  unfold Db.removedLast
  rw [detach_table, dbTableDeref_destroyed]
  rfl

theorem removedLast_refs (db : Db kh) (table entry : Nat) :
    (db.removedLast table entry).table.refs =
      Function.update db.table.refs table
        (u15 (db.table.refs table + 32767)) := by
  unfold Db.removedLast
  rw [detach_table, dbTableDeref_refs]
  rfl

theorem removedLast_entry (db : Db kh) (table entry : Nat) :
    (db.removedLast table entry).entry =
      { db.entry with
        table := Function.update db.entry.table entry none
        deleted := Function.update db.entry.deleted entry true } := by
  unfold Db.removedLast Db.detach
  rw [dbTableDeref_entry]
  rfl

theorem removedLast_keys (db : Db kh) (table entry : Nat) :
    (db.removedLast table entry).table.cacheHashSet =
      (db.removed table entry).table.cacheHashSet := by
  unfold Db.removedLast
  rw [detach_table, dbTableDeref_cacheHashSet]
  rfl

theorem dbEntryHandleDelete_ok {db after : Db kh} {entry : Nat}
    {tableDeleted : Bool}
    (run : dbEntryHandleDelete db entry = .ok (after, tableDeleted)) :
    ∃ table, db.entry.table entry = some table ∧
      db.table.destroyed table = false ∧
      ((kh.size ((db.removed table entry).table.cacheHashSet table) ≠ 0 ∧
          tableDeleted = false ∧ after = db.removed table entry) ∨
        (kh.size ((db.removed table entry).table.cacheHashSet table) = 0 ∧
          tableDeleted = true ∧ after = db.removedLast table entry)) := by
  unfold dbEntryHandleDelete at run
  rw [bind_eq_ok] at run
  obtain ⟨table, inTable, run⟩ := run
  rw [entryTable_eq_ok] at inTable
  rw [bind_eq_ok] at run
  obtain ⟨set, present, run⟩ := run
  rw [keyMap_eq_ok] at present
  obtain ⟨present, rfl⟩ := present
  rw [bind_eq_ok] at run
  obtain ⟨cleaned, cleanedEq, run⟩ := run
  rw [dbEntryCleanup_eq inTable] at cleanedEq
  obtain rfl := Except.ok.inj cleanedEq
  refine ⟨table, inTable, present, ?_⟩
  rw [takeOut_eq] at run
  by_cases empty :
      kh.size ((db.removed table entry).table.cacheHashSet table) = 0
  · rw [if_pos empty, bind_eq_ok] at run
    obtain ⟨gone, goneEq, run⟩ := run
    change dbDeleteTableEntry ((db.removed table entry).doom table) table
      (kh.find ((db.removed table entry).doom table).tables
        (((db.removed table entry).doom table).table.hash table)) true = _
      at goneEq
    have goneEq := (dbDeleteTableEntry_ok goneEq).2
    rw [pure_eq_ok, Prod.mk.injEq] at run
    refine Or.inr ⟨empty, run.2.symm, ?_⟩
    rw [← run.1, goneEq]
    rfl
  · rw [if_neg empty, pure_eq_ok] at run
    obtain ⟨rfl, rfl⟩ := Prod.mk.inj run
    exact Or.inl ⟨empty, rfl, rfl⟩

/-- A table whose key map exists is not deleted between two removals. -/
theorem Work.Consistent.live (consistent : work.Consistent)
    (idle : work.pending = .idle) {table : Nat}
    (present : work.db.table.destroyed table = false) :
    work.db.table.deleted table = false := by
  cases isDeleted : work.db.table.deleted table with
  | false => rfl
  | true =>
      rcases consistent.tables.deleted_destroyed isDeleted with
        destroyed | ⟨keyed, uncounted, removing⟩
      · rw [present] at destroyed
        simp at destroyed
      · rw [idle] at removing
        simp at removing

/-- A table that is destroyed while it has references is unregistered. -/
theorem unshared_destroy {db : Db kh} {table : Nat}
    (last : LastReference (db.destroy table) table) :
    Unshared (db.destroy table) table := by
  have held : db.table.refs table ≠ 0 := by
    intro zero
    change u15 (db.table.refs table + 32767) = 0 at last
    simp [zero, u15] at last
  intro other found
  change kh.lookup (db.destroy table).tables (db.table.hash table) =
    some other at found
  rw [lookup_destroy, if_pos ⟨held, rfl⟩] at found
  simp at found

/-- `db_delete_table_entry`, once the keys of the table are removed. -/
theorem destroyTable_changes (work : Work kh) {table : Nat} {keyed : Bool}
    {uncounted : Nat}
    (removing : work.pending = .removing table keyed uncounted)
    (isDeleted : work.db.table.deleted table = true)
    (removed : ∀ entry, Holds work.db table entry →
      work.db.entry.deleted entry = true)
    (counted : uncounted = 0 ∨ allowed .keyDrift) :
    Changes hashString allowed work { work with
      db := dbTableDeref (work.db.destroy table) table true
      pending := .idle } :=
  .head (.destroy work table keyed uncounted removing isDeleted removed
      counted)
    (dbTableDeref_changes { work with pending := .idle } table true rfl
      (fun _ => isDeleted) fun last _ => Or.inl (unshared_destroy last))

private theorem detach_changes (work : Work kh) {db : Db kh} {entry : Nat}
    (table : Nat)
    (inTable : db.entry.table entry = some table)
    (gone : db.table.destroyed table = true)
    (isDeleted : db.entry.deleted entry = true) :
    Changes hashString allowed { work with db }
      { work with db := db.detach entry } :=
  .single (.detach { work with db } entry table inTable gone isDeleted)

theorem remove_dbKeys (db : Db kh) (table entry index : Nat) :
    (db.remove table entry index).dbKeys = db.dbKeys := rfl

theorem countOff_dbKeys (db : Db kh) (counted : Bool) :
    (db.countOff counted).dbKeys =
      bif counted then u64 (db.dbKeys + 18446744073709551615)
      else db.dbKeys := rfl

theorem removed_eq (db : Db kh) (table entry : Nat) :
    db.removed table entry =
      (db.remove table entry (kh.find (db.table.cacheHashSet table)
        (db.entry.hash entry))).countOff true := by
  unfold Db.removed Db.countOff
  rw [cond_true, remove_dbKeys]

/-- Taking an entry out counts its key off. -/
private theorem removed_change (work : Work kh) {entry table : Nat}
    {keyed : Bool} (removing : work.pending = .removing table keyed 0)
    (inTable : work.db.entry.table entry = some table)
    (present : work.db.table.destroyed table = false)
    (fresh : work.db.entry.deleted entry = false ∨
      Holds work.db table entry ∨ allowed .staleDelete) :
    Change hashString allowed work
      { work with
        db := work.db.removed table entry
        pending := .removing table keyed 0 } := by
  have change : Change hashString allowed work _ := .remove work table entry
    (kh.find (work.db.table.cacheHashSet table) (work.db.entry.hash entry))
    keyed 0 true removing inTable present (Or.inr rfl) fresh
  rw [← removed_eq, cond_true] at change
  exact change

theorem dbEntryHandleDelete_changes (work : Work kh) {entry : Nat}
    {after : Db kh} {tableDeleted : Bool} (consistent : work.Consistent)
    (idle : work.pending = .idle)
    (fresh : work.db.entry.deleted entry = false ∨
      (∀ table, work.db.entry.table entry = some table →
        Holds work.db table entry) ∨ allowed .staleDelete)
    (run : dbEntryHandleDelete work.db entry = .ok (after, tableDeleted)) :
    Changes hashString allowed work { work with db := after } := by
  obtain ⟨table, inTable, present, outcome⟩ := dbEntryHandleDelete_ok run
  have allocated := (consistent.keys.table_lt inTable).2
  have fresh : work.db.entry.deleted entry = false ∨
      Holds work.db table entry ∨ allowed .staleDelete :=
    fresh.imp_right (Or.imp_left fun held => held table inTable)
  refine .head (.beginRemoval work table idle allocated present
    (Or.inr ⟨entry, inTable⟩)) ?_
  refine .head (removed_change _ rfl inTable present fresh) ?_
  have sets : (work.db.removed table entry).table.cacheHashSet table =
      kh.del (work.db.table.cacheHashSet table)
        (kh.find (work.db.table.cacheHashSet table)
          (work.db.entry.hash entry)) := Function.update_self ..
  rcases outcome with ⟨keyed, -, rfl⟩ | ⟨empty, -, rfl⟩
  · have wasKeyed : kh.size (work.db.table.cacheHashSet table) ≠ 0 := by
      intro empty
      rw [sets] at keyed
      exact keyed (BucketMap.size_eq_zero_of_del empty)
    refine .trans (.single (.keepTable _ table ?_
      (consistent.live idle present) keyed)) ?_
    · simp [wasKeyed]
    · rw [← idle]
  · refine .head (.doom _ table _ 0 rfl) ?_
    refine .trans (destroyTable_changes _ rfl (Function.update_self ..) ?_
      (Or.inl rfl)) ?_
    · rintro other ⟨hash, held⟩
      rw [BucketMap.size_eq_zero_iff] at empty
      change kh.lookup ((work.db.removed table entry).table.cacheHashSet table)
        hash = some other at held
      rw [empty hash] at held
      simp at held
    · rw [← idle]
      refine detach_changes work table ?_ ?_ ?_
      · rw [dbTableDeref_entry]
        exact inTable
      · rw [dbTableDeref_destroyed]
        exact Function.update_self ..
      · rw [dbTableDeref_entry]
        exact Function.update_self ..

/-- An entry that keeps its table through its removal keeps a live one. -/
theorem dbEntryHandleDelete_live (consistent : work.Consistent)
    (idle : work.pending = .idle) {entry : Nat} {after : Db kh}
    {tableDeleted : Bool}
    (run : dbEntryHandleDelete work.db entry = .ok (after, tableDeleted))
    {table : Nat} (inTable : after.entry.table entry = some table) :
    after.table.deleted table = false := by
  obtain ⟨held, heldEq, present, ⟨-, -, rfl⟩ | ⟨-, -, rfl⟩⟩ :=
    dbEntryHandleDelete_ok run
  · obtain rfl : held = table := Option.some.inj (heldEq.symm.trans inTable)
    exact consistent.live idle present
  · rw [removedLast_entry] at inTable
    simp at inTable

theorem dbEntryDelete_eq {db : Db kh} {entry table : Nat}
    (inTable : db.entry.table entry = some table) :
    dbEntryDelete db entry =
      .ok (unlinkPath db (keyPathIn db table entry)) := by
  simp [dbEntryDelete, getKeyPath, entryTable, inTable, bind, pure,
    Except.bind, Except.pure]

theorem dbEntryHandleSoftdelete_deleted {db : Db kh} {entry k : Nat}
    (isDeleted : db.entry.deleted entry = true) :
    dbEntryHandleSoftdelete db entry k = .ok db := by
  simp [dbEntryHandleSoftdelete, isDeleted, pure, Except.pure]

theorem softTakeOut_eq (db : Db kh) (table entry k : Nat) :
    softTakeOut
        { db with
          disk.paths := db.pathsWithout table entry
          entry.deleted := Function.update db.entry.deleted entry true }
        table entry k =
      db.remove table entry k := by
  unfold softTakeOut Db.remove Db.pathsWithout
  dsimp only [setKeyMap]
  cases db.entry.writing entry with
  | true => rfl
  | false => rfl

theorem dbEntryHandleSoftdelete_eq {db : Db kh} {entry table : Nat}
    (k : Nat) (inTable : db.entry.table entry = some table)
    (fresh : db.entry.deleted entry = false) :
    dbEntryHandleSoftdelete db entry k =
      if db.table.destroyed table then .error .destroyedKeyMap
      else .ok ((db.remove table entry k).freeUnheld entry) := by
  -- what runs once the file of the entry is gone
  have rest : (do
      let cleaned ← Except.ok
        { db with disk.paths := db.pathsWithout table entry }
      let marked : Db kh :=
        { cleaned with
          entry.deleted := Function.update cleaned.entry.deleted entry true }
      let held ← entryTable marked entry
      let _ ← keyMap marked held
      let taken := softTakeOut marked held entry k
      if taken.entry.refs entry = 0 then
        return dbEntryActuallyDelete taken entry
      else
        return taken) =
      if db.table.destroyed table then .error Fault.destroyedKeyMap
      else .ok ((db.remove table entry k).freeUnheld entry) := by
    cases present : db.table.destroyed table with
    | true =>
        simp [bind, Except.bind, entryTable, inTable, keyMap, present]
    | false =>
        simp only [bind, Except.bind, entryTable, inTable, keyMap, present,
          softTakeOut_eq]
        unfold Db.freeUnheld
        have isDeleted : (db.remove table entry k).entry.deleted entry = true :=
          Function.update_self ..
        simp only [isDeleted, and_true, Bool.false_eq_true, if_false]
        split <;> rfl
  unfold dbEntryHandleSoftdelete
  rw [if_neg (by simp [fresh]), ← rest]
  unfold Db.pathsWithout
  cases single : isSingleFile db entry with
  | false => rfl
  | true =>
      rw [if_pos rfl, dbEntryDelete_eq inTable]
      rfl

/-- A soft delete of an entry that a bucket shows. -/
theorem softdelete_changes (work : Work kh) {entry k table : Nat}
    {keyed : Bool} {uncounted : Nat}
    (removing : work.pending = .removing table keyed uncounted)
    (inTable : work.db.entry.table entry = some table)
    (fresh : work.db.entry.deleted entry = false)
    (present : work.db.table.destroyed table = false)
    (found : kh.value (work.db.table.cacheHashSet table) k = some entry) :
    Changes hashString allowed work
      { work with
        db := (work.db.remove table entry k).freeUnheld entry
        pending := .removing table keyed (uncounted + 1) } :=
  .head (.remove work table entry k keyed uncounted false removing inTable
      present (Or.inl found) (Or.inl fresh))
    (freeUnheld_changes { work with
      pending := .removing table keyed (uncounted + 1) } _ entry)

/-- The store after one pass of the loop in `db_table_handle_delete`. -/
def Db.bucketRemoved (db : Db kh) (table ke : Nat) : Db kh :=
  match kh.value (db.table.cacheHashSet table) ke with
  | none => db
  | some entry => (db.remove table entry ke).freeUnheld entry

theorem dbEntryCleanup_gone {db : Db kh} {entry table : Nat}
    (inTable : db.entry.table entry = some table)
    (gone : isSingleFile db entry = true →
      db.disk.paths (keyPathIn db table entry) = none) :
    dbEntryCleanup db entry = .ok db := by
  have same : db.pathsWithout table entry = db.disk.paths := by
    unfold Db.pathsWithout
    cases single : isSingleFile db entry with
    | false => rfl
    | true => exact Function.update_eq_self_iff.mpr (gone single).symm
  rw [dbEntryCleanup_eq inTable, same]

/-- The second unlink of the same file changes nothing. -/
private theorem cleanup_again {db : Db kh} {entry table k : Nat}
    (inTable : db.entry.table entry = some table) :
    dbEntryCleanup ((db.remove table entry k).freeUnheld entry) entry =
      .ok ((db.remove table entry k).freeUnheld entry) := by
  obtain ⟨freeBlocks, blocksExist, blocksFree, blockfile, block, freed, eq⟩ :=
    freeUnheld_eq (db.remove table entry k) entry
  rw [eq]
  refine dbEntryCleanup_gone inTable fun single => ?_
  have single : isSingleFile db entry = true := single
  change (if isSingleFile db entry then
    Function.update db.disk.paths (keyPathIn db table entry) none
    else db.disk.paths) (keyPathIn db table entry) = none
  rw [if_pos single, Function.update_self]

theorem deleteBucket_eq {db : Db kh} {table ke : Nat}
    (present : db.table.destroyed table = false)
    (inTable : ∀ entry,
      kh.value (db.table.cacheHashSet table) ke = some entry →
        db.entry.table entry = some table ∧ db.entry.deleted entry = false) :
    deleteBucket table db ke = .ok (db.bucketRemoved table ke) := by
  unfold deleteBucket Db.bucketRemoved
  rw [keyMap_eq_ok.mpr ⟨present, rfl⟩, ok_bind]
  cases found : kh.value (db.table.cacheHashSet table) ke with
  | none => rfl
  | some entry =>
      obtain ⟨inTable, fresh⟩ := inTable entry found
      dsimp only
      rw [if_neg (by simp [fresh]), dbEntryHandleSoftdelete_eq ke inTable fresh,
        present, if_neg (by simp), ok_bind, cleanup_again inTable]

theorem deleteBucket_ok {db after : Db kh} {table ke : Nat}
    (inTable : ∀ entry,
      kh.value (db.table.cacheHashSet table) ke = some entry →
        db.entry.table entry = some table ∧ db.entry.deleted entry = false)
    (run : deleteBucket table db ke = .ok after) :
    db.table.destroyed table = false ∧ after = db.bucketRemoved table ke := by
  have present : db.table.destroyed table = false := by
    unfold deleteBucket at run
    obtain ⟨set, setEq, -⟩ := bind_eq_ok.mp run
    exact (keyMap_eq_ok.mp setEq).1
  rw [deleteBucket_eq present inTable] at run
  exact ⟨present, (Except.ok.inj run).symm⟩

section BucketRemoved

variable (db : Db kh) (table ke : Nat)

/-- One pass removes from the tables' key maps only, and empties its own
bucket. -/
theorem bucketRemoved_fields :
    (db.bucketRemoved table ke).tables = db.tables ∧
      (db.bucketRemoved table ke).table.hash = db.table.hash ∧
      (db.bucketRemoved table ke).table.deleted = db.table.deleted := by
  unfold Db.bucketRemoved
  split
  · exact ⟨rfl, rfl, rfl⟩
  · next entry _ =>
      obtain ⟨_, _, _, _, _, _, eq⟩ :=
        freeUnheld_eq (db.remove table entry ke) entry
      rw [eq]
      exact ⟨rfl, rfl, rfl⟩

theorem bucketRemoved_value (index : Nat) :
    kh.value ((db.bucketRemoved table ke).table.cacheHashSet table) index =
      if index = ke then none
      else kh.value (db.table.cacheHashSet table) index := by
  unfold Db.bucketRemoved
  split
  · next empty =>
      split
      · next same => rw [same, empty]
      · rfl
  · next entry _ =>
      obtain ⟨_, _, _, _, _, _, eq⟩ :=
        freeUnheld_eq (db.remove table entry ke) entry
      rw [eq]
      have set : (db.remove table entry ke).table.cacheHashSet table =
          kh.del (db.table.cacheHashSet table) ke := Function.update_self ..
      change kh.value ((db.remove table entry ke).table.cacheHashSet table)
        index = _
      rw [set, BucketMap.value_del]

end BucketRemoved

/-- The loop of `db_table_handle_delete` over some buckets. -/
private theorem deleteBuckets_changes (hashString : Bytes → UInt32)
    (allowed : Defect → Prop) {table : Nat} {keyed : Bool} {uncounted : Nat}
    (buckets : List Nat) (work : Work kh) {after : Db kh}
    (consistent : work.Consistent)
    (removing : work.pending = .removing table keyed uncounted)
    (run : buckets.foldlM (deleteBucket table) work.db = .ok after) :
    (∃ final, Changes hashString allowed work
        { work with
          db := after
          pending := .removing table keyed final } ∧
      ((∀ index, kh.value (work.db.table.cacheHashSet table) index = none) →
        final = uncounted)) ∧
      after.tables = work.db.tables ∧
      after.table.hash = work.db.table.hash ∧
      after.table.deleted = work.db.table.deleted ∧
      ∀ index, kh.value (after.table.cacheHashSet table) index =
        if index ∈ buckets then none
        else kh.value (work.db.table.cacheHashSet table) index := by
  induction buckets generalizing work uncounted with
  | nil =>
      obtain rfl := pure_eq_ok.mp run
      refine ⟨⟨uncounted, ?_, fun _ => rfl⟩, rfl, rfl, rfl, by simp⟩
      rw [← removing]
  | cons ke buckets ih =>
      rw [List.foldlM_cons, bind_eq_ok] at run
      obtain ⟨middle, passed, run⟩ := run
      have inTable : ∀ entry,
          kh.value (work.db.table.cacheHashSet table) ke = some entry →
            work.db.entry.table entry = some table ∧
              work.db.entry.deleted entry = false := by
        intro entry found
        obtain ⟨key, held, -⟩ := BucketMap.exists_key_of_value found
        exact ⟨consistent.keys.table_held held, consistent.keys.live_held held⟩
      obtain ⟨present, rfl⟩ := deleteBucket_ok inTable passed
      obtain ⟨more, first, none_⟩ : ∃ more, Changes hashString allowed work
          { work with
            db := work.db.bucketRemoved table ke
            pending := .removing table keyed more } ∧
          (kh.value (work.db.table.cacheHashSet table) ke = none →
            more = uncounted) := by
        unfold Db.bucketRemoved
        cases found : kh.value (work.db.table.cacheHashSet table) ke with
        | none =>
            refine ⟨uncounted, ?_, fun _ => rfl⟩
            rw [← removing]
        | some entry =>
            exact ⟨uncounted + 1,
              softdelete_changes work removing (inTable entry found).1
                (inTable entry found).2 present found, by simp⟩
      obtain ⟨⟨final, rest, same⟩, tables, hash, deleted, value⟩ :=
        ih { work with
          db := work.db.bucketRemoved table ke
          pending := .removing table keyed more }
          (first.consistent consistent) rfl run
      obtain ⟨tablesEq, hashEq, deletedEq⟩ :=
        bucketRemoved_fields work.db table ke
      have empty : (∀ index,
          kh.value (work.db.table.cacheHashSet table) index = none) →
            final = uncounted := by
        intro empty
        refine (same fun index => ?_).trans (none_ (empty ke))
        rw [bucketRemoved_value, empty index]
        exact ite_self none
      refine ⟨⟨final, first.trans rest, empty⟩, tables.trans tablesEq,
        hash.trans hashEq, deleted.trans deletedEq, fun index => ?_⟩
      rw [value, bucketRemoved_value]
      by_cases later : index ∈ buckets
      · simp [later]
      · by_cases now : index = ke
        · simp [now]
        · simp [later, now]

theorem dbTableHandleDelete_changes (work : Work kh) {table : Nat}
    {after : Db kh} (consistent : work.Consistent)
    (idle : work.pending = .idle) (allocated : table < work.db.table.count)
    (held : work.connection.target = .table table)
    (counted : kh.size (work.db.table.cacheHashSet table) = 0 ∨
      allowed .keyDrift)
    (run : dbTableHandleDelete work.db table = .ok after) :
    Changes hashString allowed work { work with db := after } := by
  unfold dbTableHandleDelete at run
  simp only [bind_eq_ok, keyMap_eq_ok] at run
  obtain ⟨set, ⟨present, rfl⟩, emptied, loop, run⟩ := run
  have begin : Changes hashString allowed work
      { work with
        db := work.db.doom table
        pending := .removing table
          (decide (kh.size (work.db.table.cacheHashSet table) ≠ 0)) 0 } :=
    .head (.beginRemoval work table idle allocated present (Or.inl held))
      (.single (.doom _ table _ 0 rfl))
  obtain ⟨⟨final, removals, same⟩, tables, hash, deleted, value⟩ :=
    deleteBuckets_changes hashString allowed _ _
      (begin.consistent consistent) rfl loop
  have sameIndex : kh.find work.db.tables (work.db.table.hash table) =
      kh.find emptied.tables (emptied.table.hash table) := by
    rw [tables, hash]
    rfl
  rw [sameIndex] at run
  have afterEq := (dbDeleteTableEntry_ok run).2
  have empty : ∀ entry, Holds emptied table entry →
      emptied.entry.deleted entry = true := by
    rintro entry ⟨key, held⟩
    change kh.value (emptied.table.cacheHashSet table)
      (kh.find (emptied.table.cacheHashSet table) key) = some entry at held
    rw [value] at held
    split at held
    · simp at held
    · next outside =>
        exact absurd (List.mem_range.mpr (BucketMap.lt_endIndex_of_value held))
          outside
  have uncounted : final = 0 ∨ allowed .keyDrift := by
    refine counted.imp_left fun noKeys => same fun index => ?_
    cases found : kh.value (work.db.table.cacheHashSet table) index with
    | none => exact found
    | some entry =>
        obtain ⟨key, held, -⟩ := BucketMap.exists_key_of_value found
        rw [BucketMap.size_eq_zero_iff.mp noKeys] at held
        simp at held
  have last : Changes hashString allowed
      { work with
        db := emptied
        pending := .removing table
          (decide (kh.size (work.db.table.cacheHashSet table) ≠ 0)) final }
      { work with
        db := after
        pending := .idle } := by
    rw [afterEq]
    refine destroyTable_changes { work with
      db := emptied
      pending := .removing table _ final } rfl ?_ empty uncounted
    change emptied.table.deleted table = true
    rw [deleted]
    exact Function.update_self ..
  rw [← idle] at last
  exact (begin.trans removals).trans last

end SimpleCache
