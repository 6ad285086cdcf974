import SimpleCache.Checked
import SimpleCache.History

/-!
# Key files

Values longer than a block are in files of their own, whose paths are printed
from the hashes of the table and of the entry and from an iteration number of
16 bits.  Two entries can print the same path, and what keeps their files
apart is that a file is created under a path that is free.
-/

namespace SimpleCache

variable {kh : KHash} {db after : Db kh} {table entry : Nat}

/-- The fields that decide which files the entries have. -/
structure FileView where
  deleted : Nat → Bool
  dataLength : Nat → Nat
  table : Nat → Option Nat
  hash : Nat → UInt32
  it : Nat → Nat
  tableHash : Nat → UInt32
  paths : KeyPath → Option Nat

namespace FileView

/-- An entry that is not deleted and needs a file. -/
def Filed (view : FileView) (entry table : Nat) : Prop :=
  view.deleted entry = false ∧ blockLength < view.dataLength entry ∧
    view.table entry = some table

def path (view : FileView) (table entry : Nat) : KeyPath :=
  let hash := (view.hash entry).toNat
  { letter1 := hash % 26
    letter2 := hash / 256 % 26
    hashes := Nat.toDigits 16 (view.tableHash table).toNat ++
      Nat.toDigits 16 hash
    it := view.it entry }

/-- Entries go with their files, and nothing else does. -/
structure Purges (before after : FileView) : Prop where
  filed : ∀ entry table, after.Filed entry table →
    before.Filed entry table ∧ after.path table entry = before.path table entry
  paths : ∀ path, after.paths path = before.paths path ∨
    after.paths path = none ∧ ∃ entry table, before.Filed entry table ∧
      before.path table entry = path ∧ ∀ other, ¬after.Filed entry other

theorem Purges.refl (view : FileView) : view.Purges view :=
  ⟨fun _ _ filed => ⟨filed, rfl⟩, fun _ => Or.inl rfl⟩

theorem Purges.trans {first second third : FileView}
    (purges : first.Purges second) (further : second.Purges third) :
    first.Purges third where
  filed := by
    intro entry table filed
    obtain ⟨filedSecond, samePath⟩ := further.filed entry table filed
    obtain ⟨filedFirst, same⟩ := purges.filed entry table filedSecond
    exact ⟨filedFirst, samePath.trans same⟩
  paths := by
    intro path
    rcases further.paths path with
      same | ⟨gone, entry, table, filed, isPath, unfiled⟩
    · rw [same]
      rcases purges.paths path with
        kept | ⟨gone, entry, table, filed, isPath, unfiled⟩
      · exact Or.inl kept
      · exact Or.inr ⟨gone, entry, table, filed, isPath, fun other filed =>
          unfiled other (further.filed entry other filed).1⟩
    · obtain ⟨filedFirst, same⟩ := purges.filed entry table filed
      exact Or.inr ⟨gone, entry, table, filedFirst, same.symm.trans isPath,
        unfiled⟩

/-- Every entry that needs a file has one, and no two the same. -/
structure Apart (view : FileView) : Prop where
  exists_ : ∀ entry table, view.Filed entry table →
    view.paths (view.path table entry) ≠ none
  unique : ∀ first firstTable second secondTable,
    view.Filed first firstTable → view.Filed second secondTable →
      view.path firstTable first = view.path secondTable second →
        first = second

/-- What is left has the files it had. -/
theorem Purges.keeps {before after : FileView} (purges : before.Purges after)
    (apart : before.Apart) {entry table : Nat} (filed : after.Filed entry table) :
    after.path table entry = before.path table entry ∧
      after.paths (after.path table entry) =
        before.paths (before.path table entry) := by
  obtain ⟨filedBefore, samePath⟩ := purges.filed entry table filed
  refine ⟨samePath, ?_⟩
  rw [samePath]
  rcases purges.paths (before.path table entry) with
    same | ⟨-, other, otherTable, otherFiled, isPath, unfiled⟩
  · exact same
  · obtain rfl := apart.unique other otherTable entry table otherFiled
      filedBefore isPath
    exact absurd filed (unfiled table)

theorem Purges.apart {before after : FileView} (purges : before.Purges after)
    (apart : before.Apart) : after.Apart where
  exists_ := by
    intro entry table filed
    rw [(purges.keeps apart filed).2]
    exact apart.exists_ entry table (purges.filed entry table filed).1
  unique := by
    intro first firstTable second secondTable firstFiled secondFiled same
    obtain ⟨firstBefore, firstPath⟩ := purges.filed _ _ firstFiled
    obtain ⟨secondBefore, secondPath⟩ := purges.filed _ _ secondFiled
    exact apart.unique first firstTable second secondTable firstBefore
      secondBefore (firstPath.symm.trans (same.trans secondPath))

/-- An entry goes, with its file if it has one. -/
theorem purges_remove {view : FileView} {entry table : Nat}
    (live : view.deleted entry = false) (inTable : view.table entry = some table) :
    view.Purges { view with
      deleted := Function.update view.deleted entry true
      paths := if blockLength < view.dataLength entry then
          Function.update view.paths (view.path table entry) none
        else view.paths } where
  filed := by
    rintro other otherTable ⟨otherLive, needs, inOther⟩
    change Function.update view.deleted entry true other = false at otherLive
    by_cases same : other = entry
    · rw [same, Function.update_self] at otherLive
      cases otherLive
    · rw [Function.update_of_ne same] at otherLive
      exact ⟨⟨otherLive, needs, inOther⟩, rfl⟩
  paths := by
    intro path
    dsimp only
    split
    · next needs =>
        by_cases isPath : path = view.path table entry
        · refine Or.inr ⟨?_, entry, table, ⟨live, needs, inTable⟩,
            isPath.symm, ?_⟩
          · rw [isPath, Function.update_self]
          · rintro other ⟨otherLive, -⟩
            change Function.update view.deleted entry true entry = false
              at otherLive
            rw [Function.update_self] at otherLive
            cases otherLive
        · exact Or.inl (Function.update_of_ne isPath ..)
    · exact Or.inl rfl

/-- What becomes of an entry that is deleted does not matter. -/
theorem purges_detach {view : FileView} {entry : Nat} :
    view.Purges { view with
      table := Function.update view.table entry none } where
  filed := by
    rintro other otherTable ⟨live, needs, inTable⟩
    change Function.update view.table entry none other = some otherTable
      at inTable
    by_cases same : other = entry
    · rw [same, Function.update_self] at inTable
      cases inTable
    · rw [Function.update_of_ne same] at inTable
      exact ⟨⟨live, needs, inTable⟩, rfl⟩
  paths := fun _ => Or.inl rfl

/-- A new entry has no file yet. -/
theorem purges_enter {view : FileView} (entry : Nat) (table : Option Nat)
    (hash : UInt32) (it : Nat) :
    view.Purges { view with
      deleted := Function.update view.deleted entry false
      dataLength := Function.update view.dataLength entry 0
      table := Function.update view.table entry table
      hash := Function.update view.hash entry hash
      it := Function.update view.it entry it } where
  filed := by
    rintro other otherTable ⟨live, needs, inTable⟩
    dsimp only at live needs inTable
    have different : other ≠ entry := by
      rintro rfl
      rw [Function.update_self] at needs
      exact absurd needs (Nat.not_lt_zero _)
    rw [Function.update_of_ne different] at live needs inTable
    refine ⟨⟨live, needs, inTable⟩, ?_⟩
    unfold path
    dsimp only
    rw [Function.update_of_ne different, Function.update_of_ne different]
  paths := fun _ => Or.inl rfl

end FileView

def Db.fileView (db : Db kh) : FileView where
  deleted := db.entry.deleted
  dataLength := db.entry.dataLength
  table := db.entry.table
  hash := db.entry.hash
  it := db.entry.it
  tableHash := db.table.hash
  paths := db.disk.paths

theorem fileView_path (db : Db kh) (table entry : Nat) :
    db.fileView.path table entry = keyPathIn db table entry := rfl

/-- Entries go with their files, and nothing else does. -/
def Purges (before after : Db kh) : Prop :=
  before.fileView.Purges after.fileView

theorem Purges.of_eq (same : after.fileView = db.fileView) :
    Purges db after := by
  unfold Purges
  rw [same]
  exact .refl _

theorem Purges.trans {first second third : Db kh}
    (purges : Purges first second) (further : Purges second third) :
    Purges first third :=
  FileView.Purges.trans purges further

theorem dbTableDeref_purges (actuallyDelete : Bool) :
    Purges db (dbTableDeref db table actuallyDelete) := by
  obtain ⟨freed, tables, derefEq⟩ := dbTableDeref_frame db table actuallyDelete
  rw [derefEq]
  exact .of_eq rfl

theorem freeUnheld_purges : Purges db (db.freeUnheld entry) := by
  obtain ⟨_, _, _, _, _, _, freeEq⟩ := freeUnheld_eq db entry
  rw [freeEq]
  exact .of_eq rfl

theorem dbEntryDeref_purges (withTable : Bool) :
    Purges db (dbEntryDeref db entry withTable) := by
  have dropped : Purges db (db.decEntry entry) := .of_eq rfl
  cases withTable with
  | false =>
      rw [dbEntryDeref_false]
      exact dropped.trans freeUnheld_purges
  | true =>
      cases inTable : db.entry.table entry with
      | none =>
          rw [dbEntryDeref_detached inTable]
          exact dropped.trans freeUnheld_purges
      | some table =>
          rw [dbEntryDeref_inTable inTable]
          exact (dropped.trans (dbTableDeref_purges false)).trans
            freeUnheld_purges

theorem dbEntryIncref_purges {withTable : Bool}
    (run : dbEntryIncref db entry withTable = .ok after) :
    Purges db after := by
  cases withTable with
  | false =>
      obtain rfl := Except.ok.inj run
      exact .of_eq rfl
  | true =>
      obtain ⟨table, -, rfl⟩ := dbEntryIncref_ok run
      exact .of_eq rfl

theorem remove_fileView (db : Db kh) (table entry index : Nat) :
    (db.remove table entry index).fileView =
      { db.fileView with
        deleted := Function.update db.entry.deleted entry true
        paths := if blockLength < db.entry.dataLength entry then
            Function.update db.disk.paths (keyPathIn db table entry) none
          else db.disk.paths } := by
  unfold Db.remove Db.fileView isSingleFile
  simp only [decide_eq_true_eq]

theorem remove_purges (index : Nat) (live : db.entry.deleted entry = false)
    (inTable : db.entry.table entry = some table) :
    Purges db (db.remove table entry index) := by
  unfold Purges
  rw [remove_fileView]
  exact FileView.purges_remove live inTable

theorem removed_purges (live : db.entry.deleted entry = false)
    (inTable : db.entry.table entry = some table) :
    Purges db (db.removed table entry) := by
  have same : (db.removed table entry).fileView =
      (db.remove table entry (kh.find (db.table.cacheHashSet table)
        (db.entry.hash entry))).fileView := by
    unfold Db.removed Db.fileView
    rfl
  unfold Purges
  rw [same]
  exact remove_purges _ live inTable

theorem destroyed_purges (db : Db kh) (table : Nat) :
    Purges db ((db.doom table).destroy table) := .of_eq rfl

theorem detach_purges (db : Db kh) (entry : Nat) :
    Purges db (db.detach entry) := FileView.purges_detach

theorem dbEntryHandleDelete_purges {tableDeleted : Bool}
    (live : db.entry.deleted entry = false)
    (run : dbEntryHandleDelete db entry = .ok (after, tableDeleted)) :
    Purges db after := by
  obtain ⟨table, inTable, -, ⟨-, -, rfl⟩ | ⟨-, -, rfl⟩⟩ :=
    dbEntryHandleDelete_ok run
  · exact removed_purges live inTable
  · unfold Db.removedLast
    exact (((removed_purges live inTable).trans (destroyed_purges _ table)).trans
      (dbTableDeref_purges true)).trans (detach_purges _ entry)

/-- A soft delete takes an entry out, unless it is out already. -/
theorem softdelete_cases {k : Nat}
    (run : dbEntryHandleSoftdelete db entry k = .ok after) :
    db.entry.deleted entry = true ∧ after = db ∨
      db.entry.deleted entry = false ∧ ∃ table,
        db.entry.table entry = some table ∧
          after = (db.remove table entry k).freeUnheld entry := by
  cases live : db.entry.deleted entry with
  | true =>
      rw [dbEntryHandleSoftdelete_deleted live] at run
      exact Or.inl ⟨rfl, (Except.ok.inj run).symm⟩
  | false =>
      refine Or.inr ⟨rfl, ?_⟩
      cases inTable : db.entry.table entry with
      | none =>
          exfalso
          unfold dbEntryHandleSoftdelete dbEntryDelete getKeyPath at run
          by_cases single : isSingleFile db entry = true <;>
          simp [live, single, entryTable, inTable, bind, Except.bind, pure,
            Except.pure] at run
      | some table =>
          rw [dbEntryHandleSoftdelete_eq k inTable live] at run
          split at run
          · cases run
          · exact ⟨table, rfl, (Except.ok.inj run).symm⟩

theorem dbEntryHandleSoftdelete_purges {k : Nat}
    (run : dbEntryHandleSoftdelete db entry k = .ok after) :
    Purges db after := by
  rcases softdelete_cases run with ⟨-, rfl⟩ | ⟨live, table, inTable, rfl⟩
  · exact .of_eq rfl
  · exact (remove_purges k live inTable).trans freeUnheld_purges

/-- What a soft delete leaves to clean up is gone already. -/
theorem softdelete_gone {k held : Nat}
    (live : db.entry.deleted entry = false)
    (run : dbEntryHandleSoftdelete db entry k = .ok after)
    (inTable : after.entry.table entry = some held)
    (single : isSingleFile after entry = true) :
    after.disk.paths (keyPathIn after held entry) = none := by
  rcases softdelete_cases run with ⟨gone, -⟩ | ⟨-, table, isTable, rfl⟩
  · exact absurd (live.symm.trans gone) Bool.false_ne_true
  obtain ⟨_, _, _, _, _, _, freeEq⟩ :=
    freeUnheld_eq (db.remove table entry k) entry
  rw [freeEq] at inTable single ⊢
  obtain rfl : table = held := Option.some.inj (isTable.symm.trans inTable)
  have single : isSingleFile db entry = true := single
  change (if isSingleFile db entry = true then
      Function.update db.disk.paths (keyPathIn db table entry) none
    else db.disk.paths) (keyPathIn db table entry) = none
  rw [if_pos single, Function.update_self]

theorem deleteBucket_purges {ke : Nat}
    (pass : deleteBucket table db ke = .ok after) : Purges db after := by
  unfold deleteBucket at pass
  simp only [bind_eq_ok] at pass
  obtain ⟨set, -, pass⟩ := pass
  split at pass
  · obtain rfl := pure_eq_ok.mp pass
    exact .of_eq rfl
  next entry _ =>
  split at pass
  · obtain rfl := pure_eq_ok.mp pass
    exact .of_eq rfl
  · next live =>
      rw [bind_eq_ok] at pass
      obtain ⟨removed, removal, pass⟩ := pass
      refine (dbEntryHandleSoftdelete_purges removal).trans ?_
      unfold dbEntryCleanup at pass
      split at pass
      · next single =>
          simp only [bind_eq_ok, pure_eq_ok] at pass
          obtain ⟨path, pathEq, rfl⟩ := pass
          obtain ⟨held, inTable, rfl⟩ := getKeyPath_eq_ok.mp pathEq
          have gone := softdelete_gone (eq_false_of_ne_true live) removal
            inTable single
          have same : Function.update removed.disk.paths
              (keyPathIn removed held entry) none = removed.disk.paths := by
            rw [← gone]
            exact Function.update_eq_self ..
          refine .of_eq ?_
          unfold unlinkPath
          rw [same]
      · obtain rfl := pure_eq_ok.mp pass
        exact .of_eq rfl

theorem dbTableHandleDelete_purges
    (run : dbTableHandleDelete db table = .ok after) : Purges db after := by
  unfold dbTableHandleDelete at run
  simp only [bind_eq_ok] at run
  obtain ⟨set, -, emptied, loop, run⟩ := run
  have doomed : Purges db (db.doom table) := .of_eq rfl
  have purges : Purges db emptied :=
    foldlM_induction (fun ke _ before next purges pass =>
      Purges.trans purges (deleteBucket_purges pass)) doomed loop
  unfold dbDeleteTableEntry at run
  simp only [bind_eq_ok, pure_eq_ok] at run
  obtain ⟨set, -, rfl⟩ := run
  refine purges.trans (Purges.trans ?_ (dbTableDeref_purges true))
  split
  · exact .of_eq rfl
  · exact .of_eq rfl

theorem removeSwept_purges {tableDeleted : Bool}
    (live : db.entry.deleted entry = false)
    (run : removeSwept db entry = .ok (after, tableDeleted)) :
    Purges db after := by
  unfold removeSwept at run
  split at run
  · simp only [bind_eq_ok, pure_eq_ok, Prod.exists, Prod.mk.injEq] at run
    obtain ⟨held, hold, removed, gone, removal, rfl, rfl⟩ := run
    have stillLive : held.entry.deleted entry = false := by
      obtain ⟨table, -, rfl⟩ := dbEntryIncref_ok hold
      exact live
    exact ((dbEntryIncref_purges hold).trans
      (dbEntryHandleDelete_purges stillLive removal)).trans
        (dbEntryDeref_purges true)
  · exact dbEntryHandleDelete_purges live run

theorem expireBuckets_purges {buckets : List Nat} {visited more : Nat}
    (run : expireBuckets table buckets db visited = .ok (after, more)) :
    Purges db after := by
  induction buckets generalizing db visited with
  | nil =>
      obtain ⟨rfl, -⟩ := Prod.mk.inj (pure_eq_ok.mp run)
      exact .of_eq rfl
  | cons ke buckets ih =>
      unfold expireBuckets at run
      simp only [bind_eq_ok] at run
      obtain ⟨set, -, run⟩ := run
      split at run
      · exact ih run
      split at run
      · next isExpired =>
        simp only [bind_eq_ok, Prod.exists] at run
        obtain ⟨removed, tableDeleted, removal, run⟩ := run
        have purges := removeSwept_purges isExpired.1 removal
        split at run
        · obtain ⟨rfl, -⟩ := Prod.mk.inj (pure_eq_ok.mp run)
          exact purges
        · exact purges.trans (ih run)
      · exact ih run

theorem expireAtCursor_purges {more : Nat}
    (run : expireAtCursor db = .ok (after, more)) : Purges db after := by
  unfold expireAtCursor at run
  split at run
  · obtain ⟨rfl, -⟩ := Prod.mk.inj (pure_eq_ok.mp run)
    exact .of_eq rfl
  · unfold dbExpireCursorTable at run
    rw [bind_eq_ok] at run
    obtain ⟨set, -, run⟩ := run
    exact expireBuckets_purges run

theorem expireTables_purges {start passes visited : Nat} {full : Bool}
    (run : expireTables start passes db visited = .ok (after, full)) :
    Purges db after := by
  induction passes generalizing db visited with
  | zero => exact (throw_eq_ok.mp run).elim
  | succ passes ih =>
      unfold expireTables at run
      simp only [bind_eq_ok, Prod.exists] at run
      obtain ⟨swept, more, sweep, run⟩ := run
      have purges : Purges db swept := expireAtCursor_purges sweep
      have moved : Purges db { swept with tableGc := nextCursor swept } :=
        purges
      split at run
      · exact moved.trans (ih run)
      · obtain ⟨rfl, -⟩ := Prod.mk.inj (pure_eq_ok.mp run)
        exact moved

theorem dbExpireCursor_purges {full : Bool}
    (run : dbExpireCursor db = .ok (after, full)) : Purges db after := by
  unfold dbExpireCursor at run
  dsimp only at run
  have moved : Purges db { db with tableGc := startCursor db } := .of_eq rfl
  split at run
  · obtain ⟨rfl, -⟩ := Prod.mk.inj (pure_eq_ok.mp run)
    exact moved
  · exact moved.trans (expireTables_purges run)

theorem expireRounds_purges {rounds : Nat}
    (run : expireRounds rounds db = .ok after) : Purges db after := by
  induction rounds generalizing db with
  | zero =>
      obtain rfl := pure_eq_ok.mp run
      exact .of_eq rfl
  | succ rounds ih =>
      unfold expireRounds at run
      simp only [bind_eq_ok, Prod.exists] at run
      obtain ⟨swept, full, sweep, run⟩ := run
      have purges := dbExpireCursor_purges sweep
      split at run
      · obtain rfl := pure_eq_ok.mp run
        exact purges
      · exact purges.trans (ih run)

theorem lruCleanup_purges {passes : Nat} {bytes : Int}
    (run : lruCleanup passes db bytes = .ok after) : Purges db after := by
  induction passes generalizing db bytes with
  | zero => exact (throw_eq_ok.mp run).elim
  | succ passes ih =>
      unfold lruCleanup at run
      split at run
      · obtain rfl := pure_eq_ok.mp run
        exact .of_eq rfl
      · next entry _ =>
          split at run
          · obtain rfl := pure_eq_ok.mp run
            exact .of_eq rfl
          split at run
          · have skipped : Purges db (dbLruRemoveNode db entry) := .of_eq rfl
            exact skipped.trans (ih run)
          · next goes =>
              simp only [bind_eq_ok, Prod.exists] at run
              obtain ⟨removed, tableDeleted, removal, run⟩ := run
              have live : db.entry.deleted entry = false :=
                eq_false_of_ne_true fun gone => goes (Or.inr gone)
              exact (removeSwept_purges live removal).trans (ih run)

theorem flushIndex_purges {outcome : FlushOutcome}
    (run : flushIndex db outcome = .ok after) : Purges db after := by
  obtain ⟨currentFlush, polledEq⟩ := currentlyFlushing_eq db outcome
  unfold flushIndex at run
  generalize currentlyFlushing db outcome = polled at run polledEq
  obtain ⟨polled, flushing⟩ := polled
  have polls : Purges db polled := by
    have polledEq : polled = _ := polledEq
    rw [polledEq]
    exact .of_eq rfl
  dsimp only at run
  split at run
  · obtain rfl := pure_eq_ok.mp run
    exact polls
  split at run
  · obtain rfl := pure_eq_ok.mp run
    exact polls
  · rw [bind_eq_ok] at run
    obtain ⟨forked, fork, run⟩ := run
    have forks : Purges db forked := by
      unfold dbIndexFlush at fork
      split at fork
      · obtain rfl := pure_eq_ok.mp fork
        exact polls
      · simp only [bind_eq_ok, pure_eq_ok] at fork
        obtain ⟨text, -, rfl⟩ := fork
        exact polls
    split at run
    · obtain rfl := pure_eq_ok.mp run
      exact forks
    · obtain rfl := pure_eq_ok.mp run
      exact forks

theorem dbLruGc_purges {maxSize : Nat} {bytesToRemove : Nat → Int}
    {outcome : FlushOutcome}
    (run : dbLruGc maxSize bytesToRemove db outcome = .ok after) :
    Purges db after := by
  unfold dbLruGc at run
  rw [bind_eq_ok] at run
  obtain ⟨collected, collection, run⟩ := run
  refine Purges.trans ?_ (flushIndex_purges run)
  unfold collect at collection
  split at collection
  · rw [bind_eq_ok] at collection
    obtain ⟨swept, sweep, collection⟩ := collection
    have purges := expireRounds_purges sweep
    dsimp only at collection
    split at collection
    · exact purges.trans (lruCleanup_purges collection)
    · obtain rfl := pure_eq_ok.mp collection
      exact purges
  · simp only [bind_eq_ok, pure_eq_ok, Prod.exists] at collection
    obtain ⟨swept, full, sweep, rfl⟩ := collection
    exact dbExpireCursor_purges sweep

/-- A new entry has no file. -/
theorem enterUpload_purges {hashString : Bytes → UInt32} {key : Bytes}
    {first : Bool} : Purges db (db.enterUpload hashString table key first) :=
  FileView.purges_enter db.entry.count (some table) (hashString key) db.nextit

theorem enterNew_purges {hashString : Bytes → UInt32} {key : Bytes}
    {first : Bool}
    (run : enterNew hashString db table key first = .ok (after, entry)) :
    Purges db after := by
  rw [enterNew_eq] at run
  split at run
  · cases run
  · obtain ⟨rfl, -⟩ := Prod.mk.inj (Except.ok.inj run)
    exact enterUpload_purges

theorem enterWrite_purges {hashString : Bytes → UInt32} {key : Bytes}
    {entered : Option Nat}
    (run : enterWrite hashString db table key = .ok (after, entered)) :
    Purges db after := by
  unfold enterWrite at run
  simp only [bind_eq_ok] at run
  obtain ⟨set, -, run⟩ := run
  split at run
  · split at run
    · obtain ⟨rfl, -⟩ := Prod.mk.inj (pure_eq_ok.mp run)
      exact .of_eq rfl
    · simp only [bind_eq_ok, Prod.exists, pure_eq_ok, Prod.mk.injEq] at run
      obtain ⟨removed, removal, stored, new, enters, rfl, -⟩ := run
      have purges : Purges _ removed :=
        dbEntryHandleSoftdelete_purges removal
      have entered : Purges removed stored := enterNew_purges enters
      exact purges.trans entered
  · simp only [bind_eq_ok, Prod.exists, pure_eq_ok, Prod.mk.injEq] at run
    obtain ⟨stored, new, enters, rfl, -⟩ := run
    have entered : Purges _ stored := enterNew_purges enters
    exact entered

theorem dbEntryGetWrite_purges {env : Env} {db after : Db env.kh}
    {key : Bytes} {outcome : FlushOutcome} {entered : Option Nat}
    (run : dbEntryGetWrite env db table key outcome = .ok (after, entered)) :
    Purges db after := by
  unfold dbEntryGetWrite at run
  simp only [bind_eq_ok, Prod.exists] at run
  obtain ⟨written, entry, write, run⟩ := run
  have purges := enterWrite_purges write
  split at run
  · simp only [bind_eq_ok, pure_eq_ok, Prod.mk.injEq] at run
    obtain ⟨collected, collection, rfl, -⟩ := run
    exact purges.trans (dbLruGc_purges collection)
  · obtain ⟨rfl, -⟩ := Prod.mk.inj (pure_eq_ok.mp run)
    exact purges

namespace FileView

/-- One entry gets another file, under a path that was free. -/
structure Stores (before after : FileView) (entry : Nat) : Prop where
  filed : ∀ other table, other ≠ entry → after.Filed other table →
    before.Filed other table ∧ after.path table other = before.path table other
  paths : ∀ path, after.paths path = before.paths path ∨
    before.paths path = none
  own : ∀ table, after.Filed entry table →
    before.paths (after.path table entry) = none ∧
      after.paths (after.path table entry) ≠ none

theorem Stores.keeps {before after : FileView} {entry : Nat}
    (stores : before.Stores after entry) (apart : before.Apart)
    {other table : Nat} (different : other ≠ entry)
    (filed : after.Filed other table) :
    after.path table other = before.path table other ∧
      after.paths (after.path table other) =
        before.paths (before.path table other) := by
  obtain ⟨filedBefore, samePath⟩ := stores.filed other table different filed
  refine ⟨samePath, ?_⟩
  rw [samePath]
  rcases stores.paths (before.path table other) with same | free
  · exact same
  · exact absurd free (apart.exists_ other table filedBefore)

theorem Stores.apart {before after : FileView} {entry : Nat}
    (stores : before.Stores after entry) (apart : before.Apart) :
    after.Apart where
  exists_ := by
    intro other table filed
    by_cases same : other = entry
    · subst same
      exact (stores.own table filed).2
    · rw [(stores.keeps apart same filed).2]
      exact apart.exists_ other table (stores.filed other table same filed).1
  unique := by
    have free {other table ownTable : Nat} (different : other ≠ entry)
        (filed : after.Filed other table) (own : after.Filed entry ownTable)
        (same : after.path table other = after.path ownTable entry) : False := by
      obtain ⟨filedBefore, samePath⟩ := stores.filed other table different filed
      have unused := (stores.own ownTable own).1
      rw [← same, samePath] at unused
      exact apart.exists_ other table filedBefore unused
    intro first firstTable second secondTable firstFiled secondFiled same
    by_cases isFirst : first = entry
    · by_cases isSecond : second = entry
      · exact isFirst.trans isSecond.symm
      · rw [isFirst] at firstFiled same
        exact (free isSecond secondFiled firstFiled same.symm).elim
    · by_cases isSecond : second = entry
      · rw [isSecond] at secondFiled same
        exact (free isFirst firstFiled secondFiled same).elim
      · obtain ⟨firstBefore, firstPath⟩ :=
          stores.filed _ _ isFirst firstFiled
        obtain ⟨secondBefore, secondPath⟩ :=
          stores.filed _ _ isSecond secondFiled
        exact apart.unique first firstTable second secondTable firstBefore
          secondBefore (firstPath.symm.trans (same.trans secondPath))

/-- The entry gives up its file, if it has one, for a block. -/
theorem purges_small {view : FileView} {entry length : Nat}
    {paths : KeyPath → Option Nat} (small : length ≤ blockLength)
    (given : paths = view.paths ∨ ∃ table, view.Filed entry table ∧
      paths = Function.update view.paths (view.path table entry) none) :
    view.Purges { view with
      dataLength := Function.update view.dataLength entry length
      paths } := by
  have unfiled : ∀ table, ¬({ view with
      dataLength := Function.update view.dataLength entry length
      paths } : FileView).Filed entry table := by
    rintro table ⟨-, needs, -⟩
    dsimp only at needs
    rw [Function.update_self] at needs
    omega
  refine ⟨fun other table filed => ?_, fun path => ?_⟩
  · have different : other ≠ entry := by
      rintro rfl
      exact unfiled table filed
    obtain ⟨live, needs, inTable⟩ := filed
    dsimp only at live needs inTable
    rw [Function.update_of_ne different] at needs
    exact ⟨⟨live, needs, inTable⟩, rfl⟩
  · rcases given with rfl | ⟨table, filed, rfl⟩
    · exact Or.inl rfl
    · by_cases isPath : path = view.path table entry
      · refine Or.inr ⟨?_, entry, table, filed, isPath.symm, unfiled⟩
        rw [isPath]
        exact Function.update_self ..
      · exact Or.inl (Function.update_of_ne isPath ..)

theorem stores_large {view : FileView} {entry length it : Nat}
    {paths : KeyPath → Option Nat}
    (others : ∀ path, paths path = view.paths path ∨ view.paths path = none)
    (own : ∀ table, view.deleted entry = false →
      view.table entry = some table →
        view.paths { view.path table entry with it } = none ∧
          paths { view.path table entry with it } ≠ none) :
    view.Stores { view with
      dataLength := Function.update view.dataLength entry length
      it := Function.update view.it entry it
      paths } entry := by
  refine ⟨fun other table different filed => ?_, others, fun table filed => ?_⟩
  · obtain ⟨live, needs, inTable⟩ := filed
    dsimp only at live needs inTable
    rw [Function.update_of_ne different] at needs
    refine ⟨⟨live, needs, inTable⟩, ?_⟩
    unfold path
    dsimp only
    rw [Function.update_of_ne different]
  · obtain ⟨live, -, inTable⟩ := filed
    unfold path
    dsimp only
    rw [Function.update_self]
    exact own table live inTable

end FileView

/-- The iteration number that is tried next. -/
def nextIt (it : Nat) : Nat :=
  u16 (it + 1)

/-- The path of an entry with another iteration number. -/
def pathWithIt (db : Db kh) (table entry it : Nat) : KeyPath :=
  { keyPathIn db table entry with it }

/-- One of the iteration numbers that are tried is free. -/
def Creates (db : Db kh) (table entry attempts : Nat) : Prop :=
  ∃ attempt < attempts, db.disk.paths
    (pathWithIt db table entry (nextIt^[attempt] (db.entry.it entry))) = none

theorem dbEntryOpenCreate_files {attempts : Nat} {fd : Fd}
    (run : dbEntryOpenCreate db entry attempts = .ok (after, fd))
    (inTable : db.entry.table entry = some table) :
    ∃ it paths, after.fileView =
        { db.fileView with
          it := Function.update db.entry.it entry it, paths } ∧
      ((∃ inode, db.disk.paths (pathWithIt db table entry it) = none ∧
          paths = Function.update db.disk.paths
            (pathWithIt db table entry it) (some inode)) ∨
        paths = db.disk.paths ∧ ¬Creates db table entry attempts) := by
  induction attempts generalizing db with
  | zero =>
      obtain ⟨rfl, -⟩ := Prod.mk.inj (pure_eq_ok.mp run)
      refine ⟨db.entry.it entry, db.disk.paths, ?_, Or.inr ⟨rfl, ?_⟩⟩
      · rw [Function.update_eq_self]
        rfl
      · rintro ⟨attempt, few, -⟩
        exact absurd few (Nat.not_lt_zero _)
  | succ attempts ih =>
      unfold dbEntryOpenCreate at run
      have pathEq : getKeyPath db entry = .ok (keyPathIn db table entry) :=
        getKeyPath_eq_ok.mpr ⟨table, inTable, rfl⟩
      rw [pathEq, ok_bind] at run
      cases used : db.disk.paths (keyPathIn db table entry) with
      | none =>
          rw [used] at run
          obtain ⟨rfl, -⟩ := Prod.mk.inj (pure_eq_ok.mp run)
          refine ⟨db.entry.it entry, _, ?_, Or.inl ⟨db.disk.inodeCount, used,
            rfl⟩⟩
          rw [Function.update_eq_self]
          rfl
      | some inode =>
          rw [used] at run
          dsimp only at run
          obtain ⟨it, paths, viewEq, created⟩ := ih run inTable
          refine ⟨it, paths, ?_, ?_⟩
          · rw [viewEq]
            unfold Db.fileView
            dsimp only
            rw [Function.update_idem]
          · refine created.imp_right fun failed => ⟨failed.1, ?_⟩
            rintro ⟨attempt, few, free⟩
            cases attempt with
            | zero =>
                have taken : db.disk.paths (keyPathIn db table entry) = none :=
                  free
                rw [used] at taken
                cases taken
            | succ attempt =>
                refine failed.2 ⟨attempt, by omega, ?_⟩
                rw [Function.iterate_succ_apply] at free
                change db.disk.paths (pathWithIt db table entry (nextIt^[attempt]
                  (Function.update db.entry.it entry
                    (nextIt (db.entry.it entry)) entry))) = none
                rw [Function.update_self]
                exact free

theorem dbEntryOpenCreate_table (attempts : Nat) {fd : Fd}
    (run : dbEntryOpenCreate db entry (attempts + 1) = .ok (after, fd)) :
    ∃ table, db.entry.table entry = some table := by
  unfold dbEntryOpenCreate at run
  rw [bind_eq_ok] at run
  obtain ⟨path, pathEq, -⟩ := run
  obtain ⟨table, inTable, -⟩ := getKeyPath_eq_ok.mp pathEq
  exact ⟨table, inTable⟩

/-- The path of an entry that shrinks into a block is given up. -/
theorem chooseStorage_small {length : Nat} (small : length ≤ blockLength)
    (run : chooseStorage db entry length = .ok after) :
    ∃ paths, after.fileView = { db.fileView with paths } ∧
      (paths = db.disk.paths ∨ isSingleFile db entry = true ∧
        ∃ table, db.entry.table entry = some table ∧
          paths = Function.update db.disk.paths (keyPathIn db table entry)
            none) := by
  unfold chooseStorage at run
  split at run
  · obtain ⟨_, _, _, _, block, blockEq⟩ := dbBlockAllocateNew_eq db
    rw [blockEq] at run
    obtain rfl := pure_eq_ok.mp run
    exact ⟨db.disk.paths, rfl, Or.inl rfl⟩
  rw [if_neg (Nat.not_lt.mpr small)] at run
  split at run
  · next single =>
      simp only [bind_eq_ok] at run
      obtain ⟨path, pathEq, run⟩ := run
      obtain ⟨table, inTable, rfl⟩ := getKeyPath_eq_ok.mp pathEq
      obtain ⟨_, _, _, _, block, blockEq⟩ :=
        dbBlockAllocateNew_eq (unlinkPath db (keyPathIn db table entry))
      rw [blockEq] at run
      obtain rfl := pure_eq_ok.mp run
      exact ⟨_, rfl, Or.inr ⟨single, table, inTable, rfl⟩⟩
  · obtain rfl := pure_eq_ok.mp run
    exact ⟨db.disk.paths, rfl, Or.inl rfl⟩

theorem truncateFd_fileView (db : Db kh) (fd : Fd) (length : Nat) :
    (truncateFd db fd length).fileView = db.fileView := by
  unfold truncateFd
  split <;> rfl

/-- A new length: the entry goes into a block, or gets a file. -/
theorem dbTargetWriteAllocate_files {length : Nat} {target : Target}
    (shrinks : db.entry.deleted entry = true → isSingleFile db entry = true →
      blockLength < length)
    (creates : ∀ table, db.entry.table entry = some table →
      db.entry.deleted entry = false → blockLength < length →
        Creates db table entry openCreateAttempts)
    (run : dbTargetWriteAllocate db entry length = .ok (after, target)) :
    Purges db after ∨ db.fileView.Stores after.fileView entry := by
  unfold dbTargetWriteAllocate at run
  simp only [bind_eq_ok, Prod.exists] at run
  obtain ⟨chosen, choice, opened, opening, opens, run⟩ := run
  have ended : after.fileView = opened.fileView := by
    split at run
    · obtain ⟨rfl, -⟩ := Prod.mk.inj (pure_eq_ok.mp run)
      exact truncateFd_fileView opened opening.fd length
    · obtain ⟨rfl, -⟩ := Prod.mk.inj (pure_eq_ok.mp run)
      rfl
  have counted : (countLength chosen entry length).fileView =
      { chosen.fileView with
        dataLength := Function.update chosen.entry.dataLength entry length } := by
    rw [countLength_eq]
    unfold Db.setLength Db.fileView
    rfl
  have single : isSingleFile (countLength chosen entry length) entry =
      decide (blockLength < length) := by
    have lengthEq : (countLength chosen entry length).entry.dataLength entry =
        length :=
      (congrFun (congrArg FileView.dataLength counted) entry).trans
        (Function.update_self ..)
    unfold isSingleFile
    rw [lengthEq]
  by_cases small : length ≤ blockLength
  · refine Or.inl ?_
    obtain ⟨paths, chosenView, given⟩ := chooseStorage_small small choice
    unfold dbTargetOpen at opens
    rw [single, if_neg (by simpa using small)] at opens
    obtain ⟨rfl, -⟩ := Prod.mk.inj (pure_eq_ok.mp opens)
    have chosenLength : chosen.entry.dataLength = db.entry.dataLength :=
      congrArg FileView.dataLength chosenView
    unfold Purges
    rw [ended, counted, chosenView, chosenLength]
    refine FileView.purges_small small (given.imp_right ?_)
    rintro ⟨isSingle, held, isTable, pathsEq⟩
    have live : db.entry.deleted entry = false := by
      cases isDeleted : db.entry.deleted entry with
      | false => rfl
      | true => exact absurd (shrinks isDeleted isSingle) (Nat.not_lt.mpr small)
    exact ⟨held, ⟨live, of_decide_eq_true isSingle, isTable⟩, pathsEq⟩
  · refine Or.inr ?_
    have large : blockLength < length := Nat.lt_of_not_le small
    obtain ⟨_, _, _, _, block, paths, chosenEq, side⟩ :=
      chooseStorage_eq choice
    obtain ⟨rfl, -⟩ := side.resolve_left small
    have chosenView : chosen.fileView = db.fileView := by
      rw [chosenEq]
      rfl
    unfold dbTargetOpen at opens
    rw [single, if_pos (by simpa using large), if_pos rfl] at opens
    simp only [bind_eq_ok, pure_eq_ok, Prod.exists, Prod.mk.injEq] at opens
    obtain ⟨created, fd, creation, rfl, -⟩ := opens
    have countedView : (countLength chosen entry length).fileView =
        { db.fileView with
          dataLength := Function.update db.entry.dataLength entry length } := by
      rw [counted, chosenView, show chosen.entry.dataLength =
        db.entry.dataLength from congrArg FileView.dataLength chosenView]
    have sameTable : (countLength chosen entry length).entry.table =
        db.entry.table := congrArg FileView.table countedView
    obtain ⟨table, countedTable⟩ := dbEntryOpenCreate_table 65499 creation
    have inTable : db.entry.table entry = some table :=
      (congrFun sameTable entry).symm.trans countedTable
    have countedIt : (countLength chosen entry length).entry.it =
        db.entry.it := congrArg FileView.it countedView
    have countedPaths : (countLength chosen entry length).disk.paths =
        db.disk.paths := congrArg FileView.paths countedView
    have countedPath : keyPathIn (countLength chosen entry length) table entry =
        keyPathIn db table entry := by
      rw [← fileView_path, countedView]
      rfl
    obtain ⟨it, paths, createdView, created | ⟨pathsEq, failed⟩⟩ :=
      dbEntryOpenCreate_files creation countedTable
    · obtain ⟨inode, free, pathsEq⟩ := created
      rw [countedPaths] at free pathsEq
      unfold pathWithIt at free pathsEq
      rw [countedPath] at free pathsEq
      rw [ended, createdView, countedView, countedIt, pathsEq]
      refine FileView.stores_large (fun path => ?_) fun held _ isTable => ?_
      · by_cases isPath : path = { keyPathIn db table entry with it }
        · exact Or.inr (isPath ▸ free)
        · exact Or.inl (Function.update_of_ne isPath ..)
      · obtain rfl : table = held :=
          Option.some.inj (inTable.symm.trans isTable)
        refine ⟨free, ?_⟩
        change Function.update db.disk.paths
          { keyPathIn db table entry with it } (some inode)
            { keyPathIn db table entry with it } ≠ none
        rw [Function.update_self]
        simp
    · rw [ended, createdView, countedView, countedIt, pathsEq, countedPaths]
      refine FileView.stores_large (fun path => Or.inl rfl) fun held live _ => ?_
      refine absurd ?_ failed
      obtain ⟨attempt, few, free⟩ := creates table inTable live large
      refine ⟨attempt, few, ?_⟩
      unfold pathWithIt at free ⊢
      rw [countedPaths, countedPath, countedIt]
      exact free

namespace FileView

/-- A new table has no entries yet. -/
theorem purges_table {view : FileView} {table : Nat} (hash : UInt32)
    (unused : ∀ entry, view.table entry ≠ some table) :
    view.Purges { view with
      tableHash := Function.update view.tableHash table hash } where
  filed := by
    intro entry held filed
    refine ⟨filed, ?_⟩
    have different : held ≠ table := by
      rintro rfl
      exact unused entry filed.2.2
    unfold path
    dsimp only
    rw [Function.update_of_ne different]
  paths := fun _ => Or.inl rfl

end FileView

/-- Whether a step ends the request of its connection. -/
def endsRequest (connection : Connection) : Action → Bool
  | .disconnect => true
  | .writeReady _ => connection.handler.writes
  | _ => false

/-- A step that announces the length of an upload to an entry. -/
def AnnouncesTo (connection : Connection) (action : Action) (entry : Nat) :
    Prop :=
  connection.target = .entry entry ∧
    ∃ length : Digits, action = .header (.contentLength (some length))

/-- No request ends with the open file of an entry that another connection
writes. -/
def ClosesIdle (session : Session kh) : Prop :=
  ∀ entry inode, session.connection.target = .entry entry →
    session.connection.fd = .file inode →
      session.connection.isWriting = false →
        session.db.entry.writing entry = false

/-- What a step of a connection needs for files to stay apart: a request does
not end with the open file of an entry that another connection writes, a
`DELETE` finds its entry undeleted, an upload whose entry is deleted does not
shrink into a block, and a file can be created for one that is not. -/
structure FilesSafe (session : Session kh) (action : Action) : Prop where
  closes : endsRequest session.connection action = true → ClosesIdle session
  deletes : ∀ entry, action = .endOfHeaders →
    session.connection.method = some .delete →
      session.connection.target = .entry entry →
        session.db.entry.deleted entry = false
  shrinks : ∀ entry (length : Digits),
    action = .header (.contentLength (some length)) →
      session.connection.method = some .put →
      session.connection.target = .entry entry →
        session.db.entry.deleted entry = true →
          isSingleFile session.db entry = true → blockLength < length.val
  creates : ∀ entry table (length : Digits),
    action = .header (.contentLength (some length)) →
      session.connection.method = some .put →
      session.connection.target = .entry entry →
        session.db.entry.table entry = some table →
          session.db.entry.deleted entry = false → blockLength < length.val →
            Creates session.db table entry openCreateAttempts

section Handlers

variable {session next : Session kh}

theorem cacheDestroy_purges (closes : ClosesIdle session)
    (run : cacheDestroy session = .ok next) :
    Purges session.db next.db := by
  unfold cacheDestroy at run
  dsimp only at run
  split at run
  · next entry level held =>
      simp only [bind_eq_ok, pure_eq_ok] at run
      obtain ⟨abandoned, abandons, closed, closing, rfl⟩ := run
      have given : Purges session.db abandoned ∧
          (∀ inode, session.connection.fd = .file inode →
            abandoned.entry.writing entry = false) := by
        unfold abandonUpload at abandons
        dsimp only at abandons
        split at abandons
        · split at abandons
          · simp only [bind_eq_ok, pure_eq_ok] at abandons
            obtain ⟨kept, rfl, rfl⟩ := abandons
            exact ⟨.of_eq rfl, fun _ _ => Function.update_self ..⟩
          · next live =>
              simp only [bind_eq_ok, pure_eq_ok, Prod.exists] at abandons
              obtain ⟨gone, tableDeleted, removal, kept, rfl, rfl⟩ := abandons
              have purges : Purges session.db gone :=
                dbEntryHandleDelete_purges (eq_false_of_ne_true live) removal
              exact ⟨purges, fun _ _ => Function.update_self ..⟩
        · next reads =>
            obtain rfl := pure_eq_ok.mp abandons
            exact ⟨.of_eq rfl, fun inode isFile =>
              closes entry inode held isFile (eq_false_of_ne_true reads)⟩
      obtain ⟨given, complete⟩ := given
      refine given.trans ?_
      unfold dbTargetEntryClose at closing
      dsimp only at closing
      split at closing
      · next inode isFile =>
        rw [complete inode isFile, if_neg Bool.false_ne_true] at closing
        · simp only [bind_eq_ok, pure_eq_ok] at closing
          obtain ⟨kept, rfl, rfl⟩ := closing
          exact dbEntryDeref_purges true
      · simp only [bind_eq_ok, pure_eq_ok] at closing
        obtain ⟨kept, rfl, rfl⟩ := closing
        exact dbEntryDeref_purges true
  · obtain rfl := pure_eq_ok.mp run
    dsimp only
    exact dbTableDeref_purges false
  · obtain rfl := pure_eq_ok.mp run
    exact .of_eq rfl

theorem finishRequest_purges (run : finishRequest session = .ok next)
    (closes : ClosesIdle session) (same : session.db = db) : Purges db next.db := by
  unfold finishRequest at run
  simp only [bind_eq_ok, pure_eq_ok] at run
  obtain ⟨destroyed, destroys, rfl⟩ := run
  have purges : Purges session.db destroyed.db :=
    cacheDestroy_purges closes destroys
  rw [← same]
  exact purges

theorem closeConnection_purges (run : closeConnection session = .ok next)
    (closes : ClosesIdle session) (same : session.db = db) : Purges db next.db := by
  unfold closeConnection at run
  simp only [bind_eq_ok, pure_eq_ok] at run
  obtain ⟨destroyed, destroys, rfl⟩ := run
  have purges : Purges session.db destroyed.db :=
    cacheDestroy_purges closes destroys
  rw [← same]
  exact purges

theorem dbTableGetRead_purges {hashString : Bytes → UInt32} {name : Bytes}
    {found : Option Nat}
    (run : dbTableGetRead hashString db name = .ok (after, found)) :
    Purges db after := by
  unfold dbTableGetRead at run
  rw [bind_eq_ok] at run
  obtain ⟨result, -, run⟩ := run
  split at run
  · obtain ⟨rfl, -⟩ := Prod.mk.inj (pure_eq_ok.mp run)
    exact .of_eq rfl
  · obtain ⟨rfl, -⟩ := Prod.mk.inj (pure_eq_ok.mp run)
    exact .of_eq rfl

theorem dbTableGetWrite_purges {hashString : Bytes → UInt32} {name : Bytes}
    (unused : ∀ entry, db.entry.table entry ≠ some db.table.count)
    (run : dbTableGetWrite hashString db name = .ok (after, table)) :
    Purges db after := by
  unfold dbTableGetWrite at run
  rw [bind_eq_ok] at run
  obtain ⟨result, -, run⟩ := run
  split at run
  · obtain ⟨rfl, -⟩ := Prod.mk.inj (pure_eq_ok.mp run)
    exact FileView.purges_table _ unused
  · obtain ⟨rfl, -⟩ := Prod.mk.inj (pure_eq_ok.mp run)
    exact .of_eq rfl

theorem tableOfKey_purges {hashString : Bytes → UInt32} {name : Bytes}
    {method : Option Method} {found : Option Nat}
    (unused : ∀ entry, db.entry.table entry ≠ some db.table.count)
    (run : tableOfKey hashString method db name = .ok (after, found)) :
    Purges db after := by
  unfold tableOfKey at run
  split at run
  · exact dbTableGetRead_purges run
  · exact dbTableGetRead_purges run
  · exact dbTableGetRead_purges run
  · simp only [bind_eq_ok, pure_eq_ok, Prod.exists, Prod.mk.injEq] at run
    obtain ⟨written, table, writes, rfl, -⟩ := run
    exact dbTableGetWrite_purges unused writes

theorem httpReadTableSegment_purges {hashString : Bytes → UInt32}
    {name : Bytes}
    (unused : ∀ entry, session.db.entry.table entry ≠
      some session.db.table.count)
    (run : httpReadTableSegment hashString session name = .ok next) :
    Purges session.db next.db := by
  unfold httpReadTableSegment at run
  simp only [bind_eq_ok, Prod.exists] at run
  obtain ⟨looked, found, lookup, run⟩ := run
  have purges := tableOfKey_purges unused lookup
  split at run
  · obtain rfl := pure_eq_ok.mp run
    exact purges
  · obtain rfl := pure_eq_ok.mp run
    exact purges

theorem httpReadTableOnly_purges {env : Env} {session next : Session env.kh}
    {name : Bytes} {outcome : FlushOutcome}
    (run : httpReadTableOnly env session name outcome = .ok next) :
    Purges session.db next.db := by
  unfold httpReadTableOnly at run
  have holds (run : (if name = [] then
        (pure { session with connection.level := .table }.statsAfterEol :
          Except Fault (Session env.kh))
      else holdTable env.hashString session name) = .ok next) :
      Purges session.db next.db := by
    split at run
    · obtain rfl := pure_eq_ok.mp run
      exact .of_eq rfl
    · unfold holdTable at run
      simp only [bind_eq_ok, pure_eq_ok, Prod.exists] at run
      obtain ⟨looked, found, lookup, rfl⟩ := run
      exact dbTableGetRead_purges lookup
  dsimp only at run
  split at run
  · exact holds run
  · exact holds run
  · exact holds run
  · split at run
    · simp only [bind_eq_ok, pure_eq_ok] at run
      obtain ⟨collected, collection, rfl⟩ := run
      exact dbLruGc_purges collection
    · obtain rfl := pure_eq_ok.mp run
      exact .of_eq rfl
  · obtain rfl := pure_eq_ok.mp run
    exact .of_eq rfl

theorem holdEntry_purges {found : Option Nat}
    (run : holdEntry session table found = .ok next) :
    Purges session.db next.db := by
  unfold holdEntry at run
  dsimp only at run
  split at run
  · split at run
    · obtain rfl := pure_eq_ok.mp run
      exact .of_eq rfl
    · simp only [bind_eq_ok, pure_eq_ok, Prod.exists] at run
      obtain ⟨opened, target, opens, rfl⟩ := run
      obtain rfl := dbTargetOpen_read opens
      exact .of_eq rfl
  · obtain rfl := pure_eq_ok.mp run
    dsimp only
    exact dbTableDeref_purges false

theorem dbEntryGetDelete_purges {hashString : Bytes → UInt32} {key : Bytes}
    {found : Option Nat}
    (run : dbEntryGetDelete hashString db table key = .ok (after, found)) :
    Purges db after := by
  unfold dbEntryGetDelete at run
  rw [bind_eq_ok] at run
  obtain ⟨set, -, run⟩ := run
  split at run
  · obtain ⟨rfl, -⟩ := Prod.mk.inj (pure_eq_ok.mp run)
    exact .of_eq rfl
  split at run
  · obtain ⟨rfl, -⟩ := Prod.mk.inj (pure_eq_ok.mp run)
    exact .of_eq rfl
  · simp only [bind_eq_ok, pure_eq_ok, Prod.mk.injEq] at run
    obtain ⟨taken, takes, rfl, -⟩ := run
    have counted : Purges _ taken := dbEntryIncref_purges takes
    exact counted

theorem readDelete_purges {hashString : Bytes → UInt32} {key : Bytes}
    (live : ∀ entry, Holds session.db table entry →
      session.db.entry.deleted entry = false)
    (run : readDelete hashString session table key = .ok next) :
    Purges session.db next.db := by
  unfold readDelete at run
  simp only [bind_eq_ok, Prod.exists] at run
  obtain ⟨looked, found, lookup, run⟩ := run
  have purges := dbEntryGetDelete_purges lookup
  split at run
  · obtain rfl := pure_eq_ok.mp run
    exact purges
  · next entry =>
      simp only [bind_eq_ok, pure_eq_ok, Prod.exists] at run
      obtain ⟨removed, tableDeleted, removal, rfl⟩ := run
      obtain ⟨held, same⟩ := dbEntryGetDelete_found lookup
      have stillLive : looked.entry.deleted entry = false := by
        rw [same]
        exact live entry held
      exact (purges.trans (dbEntryHandleDelete_purges stillLive removal)).trans
        (dbEntryDeref_purges false)

/-- A header line, which may announce the length of an upload. -/
theorem httpReadHeaderExtraction_files {hashString : Bytes → UInt32}
    {header : Header}
    (safe : FilesSafe session (.header header))
    (live : ∀ table entry, Holds session.db table entry →
      session.db.entry.deleted entry = false)
    (run : httpReadHeaderExtraction hashString session header = .ok next) :
    Purges session.db next.db ∨ ∃ entry,
      AnnouncesTo session.connection (.header header) entry ∧
        session.db.fileView.Stores next.db.fileView entry := by
  have kept (run : (.ok session : Except Fault _) = .ok next) :
      Purges session.db next.db := by
    obtain rfl := Except.ok.inj run
    exact .of_eq rfl
  unfold httpReadHeaderExtraction at run
  split at run
  · next value isPut _ =>
      unfold readContentLength at run
      split at run
      · obtain rfl := pure_eq_ok.mp run
        exact Or.inl (.of_eq rfl)
      · next length entry held =>
          simp only [bind_eq_ok, pure_eq_ok, Prod.exists] at run
          obtain ⟨stored, target, allocates, rfl⟩ := run
          exact (dbTargetWriteAllocate_files
            (safe.shrinks entry length rfl isPut held)
            (fun table => safe.creates entry table length rfl isPut held)
            allocates).imp_right fun stores =>
              ⟨entry, ⟨held, length, rfl⟩, stores⟩
      · obtain rfl := pure_eq_ok.mp run
        exact Or.inl (.of_eq rfl)
  · obtain rfl := pure_eq_ok.mp run
    refine Or.inl ?_
    unfold readTtl
    split
    · exact .of_eq rfl
    · split
      · exact .of_eq rfl
      · exact .of_eq rfl
    · exact .of_eq rfl
  · obtain rfl := pure_eq_ok.mp run
    refine Or.inl ?_
    unfold readListingBound
    split <;> exact .of_eq rfl
  · obtain rfl := pure_eq_ok.mp run
    refine Or.inl ?_
    unfold readListingBound
    split <;> exact .of_eq rfl
  · split at run
    · next table _ => exact Or.inl (readDelete_purges (live table) run)
    · exact Or.inl (kept run)
  · exact Or.inl (kept run)

theorem httpReadHeaders_purges (safe : FilesSafe session .endOfHeaders)
    (run : httpReadHeaders session = .ok next) :
    Purges session.db next.db := by
  unfold httpReadHeaders at run
  split at run
  · unfold routeKey at run
    split at run
    · split at run
      · obtain rfl := pure_eq_ok.mp run
        exact .of_eq rfl
      · obtain rfl := pure_eq_ok.mp run
        exact .of_eq rfl
    · obtain rfl := pure_eq_ok.mp run
      exact .of_eq rfl
    · obtain rfl := pure_eq_ok.mp run
      exact .of_eq rfl
    · obtain rfl := pure_eq_ok.mp run
      exact .of_eq rfl
    · next entry isDelete held =>
        simp only [bind_eq_ok, pure_eq_ok, Prod.exists] at run
        obtain ⟨removed, tableDeleted, removal, rfl⟩ := run
        exact dbEntryHandleDelete_purges
          (safe.deletes entry rfl isDelete held) removal
    · obtain rfl := pure_eq_ok.mp run
      exact .of_eq rfl
    · obtain rfl := pure_eq_ok.mp run
      exact .of_eq rfl
  · unfold routeTable at run
    split at run
    · obtain rfl := pure_eq_ok.mp run
      exact .of_eq rfl
    · obtain rfl := pure_eq_ok.mp run
      exact .of_eq rfl
    · simp only [bind_eq_ok, pure_eq_ok] at run
      obtain ⟨removed, removal, rfl⟩ := run
      exact dbTableHandleDelete_purges removal
    all_goals
      obtain rfl := pure_eq_ok.mp run
      exact .of_eq rfl

theorem httpWriteHandle_purges {outcome : SendOutcome}
    (closes : ClosesIdle session)
    (run : httpWriteHandle session outcome = .ok next) :
    Purges session.db next.db := by
  unfold httpWriteHandle runRespond at run
  dsimp only at run
  split at run
  · obtain rfl := pure_eq_ok.mp run
    exact .of_eq rfl
  · obtain rfl := pure_eq_ok.mp run
    exact .of_eq rfl
  · obtain rfl := pure_eq_ok.mp run
    exact .of_eq rfl
  · unfold httpRespondContentbody at run
    dsimp only at run
    split at run
    · exact finishRequest_purges run closes rfl
    split at run
    · obtain rfl := pure_eq_ok.mp run
      exact .of_eq rfl
    · exact closeConnection_purges run closes rfl
    · split at run
      · exact closeConnection_purges run closes rfl
      split at run
      · exact finishRequest_purges run closes rfl
      · obtain rfl := pure_eq_ok.mp run
        exact .of_eq rfl
  · exact finishRequest_purges run closes rfl
  · exact finishRequest_purges run closes rfl
  · obtain rfl := pure_eq_ok.mp run
    exact .of_eq rfl
  · unfold httpRespondListingentries at run
    simp only [bind_eq_ok, pure_eq_ok] at run
    obtain ⟨set, -, rfl⟩ := run
    exact .of_eq rfl
  · unfold httpRespondListingtotal at run
    simp only [bind_eq_ok, pure_eq_ok] at run
    obtain ⟨set, -, rfl⟩ := run
    exact .of_eq rfl
  · obtain rfl := pure_eq_ok.mp run
    exact .of_eq rfl
  · unfold httpRespondListing at run
    rw [bind_eq_ok] at run
    obtain ⟨set, -, run⟩ := run
    dsimp only at run
    split at run
    · exact closeConnection_purges run closes rfl
    rw [bind_eq_ok] at run
    obtain ⟨⟨limit, found⟩, -, run⟩ := run
    dsimp only at run
    split at run
    · exact closeConnection_purges run closes rfl
    · obtain rfl := pure_eq_ok.mp run
      exact .of_eq rfl
  · exact closeConnection_purges run closes rfl
  · obtain rfl := pure_eq_ok.mp run
    exact .of_eq rfl

end Handlers

section Handle

variable {env : Env} {session next : Session env.kh}

theorem dbEntryGetRead_purges {db after : Db env.kh} {key : Bytes}
    {found : Option Nat}
    (live : ∀ entry, Holds db table entry → db.entry.deleted entry = false)
    (run : dbEntryGetRead env.hashString db table key = .ok (after, found)) :
    Purges db after := by
  unfold dbEntryGetRead at run
  simp only [bind_eq_ok, keyMap_eq_ok] at run
  obtain ⟨set, ⟨-, rfl⟩, run⟩ := run
  split at run
  · obtain ⟨rfl, rfl⟩ := Prod.mk.inj (pure_eq_ok.mp run)
    exact .of_eq rfl
  next entry lookup =>
  split at run
  · simp only [bind_eq_ok, pure_eq_ok, Prod.exists, Prod.mk.injEq] at run
    obtain ⟨taken, takes, removed, tableDeleted, removal, rfl, rfl⟩ := run
    have stillLive : taken.entry.deleted entry = false := by
      obtain rfl := Except.ok.inj takes
      exact live entry ⟨_, lookup⟩
    exact ((dbEntryIncref_purges takes).trans
      (dbEntryHandleDelete_purges stillLive removal)).trans
        (dbEntryDeref_purges false)
  split at run
  · obtain ⟨rfl, rfl⟩ := Prod.mk.inj (pure_eq_ok.mp run)
    exact .of_eq rfl
  split at run
  · obtain ⟨rfl, rfl⟩ := Prod.mk.inj (pure_eq_ok.mp run)
    exact .of_eq rfl
  · simp only [bind_eq_ok, pure_eq_ok, Prod.mk.injEq] at run
    obtain ⟨taken, takes, rfl, rfl⟩ := run
    obtain rfl := Except.ok.inj takes
    exact .of_eq rfl

theorem httpKeyLookup_purges {key : Bytes} {outcome : FlushOutcome}
    (live : ∀ entry, Holds session.db table entry →
      session.db.entry.deleted entry = false)
    (run : httpKeyLookup env session table key outcome = .ok next) :
    Purges session.db next.db := by
  unfold httpKeyLookup at run
  split at run
  · simp only [bind_eq_ok, Prod.exists] at run
    obtain ⟨looked, found, lookup, run⟩ := run
    have held : Purges looked next.db := holdEntry_purges run
    exact (dbEntryGetRead_purges live lookup).trans held
  · simp only [bind_eq_ok, Prod.exists] at run
    obtain ⟨looked, found, lookup, run⟩ := run
    have held : Purges looked next.db := holdEntry_purges run
    exact (dbEntryGetRead_purges live lookup).trans held
  · simp only [bind_eq_ok, Prod.exists] at run
    obtain ⟨looked, found, lookup, run⟩ := run
    have held : Purges looked next.db := holdEntry_purges run
    exact (dbEntryGetWrite_purges lookup).trans held
  · simp only [bind_eq_ok, Prod.exists] at run
    obtain ⟨looked, found, lookup, run⟩ := run
    have held : Purges looked next.db := holdEntry_purges run
    exact (dbEntryGetDelete_purges lookup).trans held
  · obtain rfl := pure_eq_ok.mp run
    exact .of_eq rfl

theorem finishUpload_purges (session : Session env.kh) :
    Purges session.db (finishUpload session).db := by
  unfold finishUpload
  dsimp only
  split
  · split
    · dsimp only [Session.writeResponse]
      rw [dbCompleteWriting_eq]
      exact .of_eq rfl
    · exact .of_eq rfl
  · exact .of_eq rfl

theorem writeFd_purges {db : Db kh} (fd : Fd) (position : Nat)
    (bytes : Bytes) : Purges db (writeFd db fd position bytes) := by
  obtain ⟨inodes, blockfile, writtenEq⟩ := writeFd_eq db fd position bytes
  rw [writtenEq]
  exact .of_eq rfl

theorem httpCacheHandleRequestBody_purges {input : Bytes} {written : Int}
    (run : httpCacheHandleRequestBody session input written = .ok next) :
    Purges session.db next.db := by
  have ends : ∀ ending : Session env.kh, Purges session.db ending.db →
      Purges session.db (finishUpload ending).db := fun ending purges =>
    purges.trans (finishUpload_purges ending)
  unfold httpCacheHandleRequestBody at run
  dsimp only at run
  split at run
  · obtain rfl := pure_eq_ok.mp run
    exact finishUpload_purges session
  split at run
  · split at run
    · obtain rfl := pure_eq_ok.mp run
      exact .of_eq rfl
    split at run
    · exact (throw_eq_ok.mp run).elim
    split at run
    · obtain rfl := pure_eq_ok.mp run
      exact ends _ (.of_eq rfl)
    · obtain rfl := pure_eq_ok.mp run
      exact ends _ (writeFd_purges ..)
  · obtain rfl := pure_eq_ok.mp run
    exact ends _ (.of_eq rfl)

/-- A step of a connection lets entries go with their files, or gives one
another file. -/
theorem handle_files {action : Action} (safe : FilesSafe session action)
    (live : ∀ table entry, Holds session.db table entry →
      session.db.entry.deleted entry = false)
    (unused : ∀ entry, session.db.entry.table entry ≠
      some session.db.table.count)
    (run : handle env session action = .ok next) :
    Purges session.db next.db ∨ ∃ entry,
      AnnouncesTo session.connection action entry ∧
        session.db.fileView.Stores next.db.fileView entry := by
  unfold handle at run
  split at run
  · exact Or.inl (closeConnection_purges run (safe.closes rfl) rfl)
  · next word _ =>
      obtain rfl := pure_eq_ok.mp run
      refine Or.inl ?_
      cases word <;> exact .of_eq rfl
  · exact Or.inl (httpReadTableSegment_purges unused run)
  · exact Or.inl (httpReadTableOnly_purges run)
  · split at run
    · next table _ => exact Or.inl (httpKeyLookup_purges (live table) run)
    · obtain rfl := pure_eq_ok.mp run
      exact Or.inl (.of_eq rfl)
  · obtain rfl := pure_eq_ok.mp run
    exact Or.inl (.of_eq rfl)
  · exact httpReadHeaderExtraction_files safe live run
  · exact Or.inl (httpReadHeaders_purges safe run)
  · obtain rfl := pure_eq_ok.mp run
    exact Or.inl (.of_eq rfl)
  · exact Or.inl (httpCacheHandleRequestBody_purges run)
  · obtain rfl := pure_eq_ok.mp run
    exact Or.inl (.of_eq rfl)
  · obtain rfl := pure_eq_ok.mp run
    exact Or.inl (.of_eq rfl)
  · split at run
    · next writes =>
        exact Or.inl (httpWriteHandle_purges (safe.closes writes) run)
    · obtain rfl := pure_eq_ok.mp run
      exact Or.inl (.of_eq rfl)
  · obtain rfl := pure_eq_ok.mp run
    exact Or.inl (.of_eq rfl)

end Handle

/-- One entry takes a file that no other has. -/
theorem FileView.Apart.take {before after : FileView} {entry : Nat}
    (apart : before.Apart)
    (filed : ∀ other table, other ≠ entry → after.Filed other table →
      before.Filed other table ∧
        after.path table other = before.path table other)
    (paths : after.paths = before.paths)
    (own : ∀ table, after.Filed entry table →
      before.paths (after.path table entry) ≠ none ∧
        ∀ other otherTable, before.Filed other otherTable →
          before.path otherTable other ≠ after.path table entry) :
    after.Apart where
  exists_ := by
    intro other table isFiled
    rw [paths]
    by_cases same : other = entry
    · subst same
      exact (own table isFiled).1
    · obtain ⟨filedBefore, samePath⟩ := filed other table same isFiled
      rw [samePath]
      exact apart.exists_ other table filedBefore
  unique := by
    intro first firstTable second secondTable firstFiled secondFiled same
    by_cases isFirst : first = entry
    · by_cases isSecond : second = entry
      · exact isFirst.trans isSecond.symm
      · obtain ⟨filedBefore, samePath⟩ :=
          filed second secondTable isSecond secondFiled
        rw [isFirst] at firstFiled same
        exact absurd (samePath.symm.trans same.symm)
          ((own firstTable firstFiled).2 second secondTable filedBefore)
    · obtain ⟨firstBefore, firstPath⟩ :=
        filed first firstTable isFirst firstFiled
      by_cases isSecond : second = entry
      · rw [isSecond] at secondFiled same
        exact absurd (firstPath.symm.trans same)
          ((own secondTable secondFiled).2 first firstTable firstBefore)
      · obtain ⟨secondBefore, secondPath⟩ :=
          filed second secondTable isSecond secondFiled
        exact apart.unique first firstTable second secondTable firstBefore
          secondBefore (firstPath.symm.trans (same.trans secondPath))

section Load

variable {hashString : Bytes → UInt32}

/-- An accepted entry that needs a file names one that no loaded entry has. -/
def LineNamesOwn (hashString : Bytes → UInt32) (loading : Loading kh)
    (line : Bytes) : Prop :=
  match parseLine line, loading.table with
  | .entry block dataLength _ it key, some table =>
      Accepts loading.db table (hashString key) block it →
        blockLength < dataLength → block < 0 ∧ ∀ entry other,
          loading.db.fileView.Filed entry other →
            keyPathIn loading.db other entry ≠
              loadedPath loading.db table (hashString key) it
  | _, _ => True

/-- Every line names its own file where the loader takes it. -/
def LinesNameOwn (hashString : Bytes → UInt32) : Loading kh → List Bytes → Prop
  | _, [] => True
  | loading, line :: lines =>
      LineNamesOwn hashString loading line ∧
        ∀ next, loadLine hashString loading line = .ok next →
          LinesNameOwn hashString next lines

/-- The index of a directory, if it has one, names each key file once. -/
def IndexNamesOwn (kh : KHash) (hashString : Bytes → UInt32) (disk : Disk) :
    Prop :=
  ∀ text, disk.indexSave = some text →
    LinesNameOwn hashString (Tracing.start (emptyDb disk : Db kh)).loading
      (splitLines text)

theorem linesClear_all (loading : Loading kh) (lines : List Bytes) :
    LinesClear hashString (fun _ => True) loading lines := by
  induction lines generalizing loading with
  | nil => trivial
  | cons line lines ih =>
      refine ⟨?_, fun next _ => ih next⟩
      unfold LineClear
      split
      · exact Or.inl trivial
      · intro _
        exact ⟨fun _ => Or.inr trivial, Or.inr trivial, Or.inr trivial,
          Or.inr trivial⟩
      · trivial

theorem closeLoadedTable_purges (db : Db kh) (table : Option Nat) :
    Purges db (closeLoadedTable db table) := by
  cases table with
  | none => exact .of_eq rfl
  | some table =>
      have closes : closeLoadedTable db (some table) =
          dbTableDeref db table true := rfl
      rw [closes]
      exact dbTableDeref_purges true

theorem load_apart (apart : db.fileView.Apart) (new : NewEntry) {it : Nat}
    (own : blockLength < new.dataLength →
      db.disk.paths (loadedPath db table new.hash it) ≠ none ∧
        ∀ entry other, db.fileView.Filed entry other →
          keyPathIn db other entry ≠ loadedPath db table new.hash it) :
    (db.load table new it).fileView.Apart := by
  have paths : (db.load table new it).fileView.paths = db.fileView.paths := by
    unfold Db.load
    rfl
  refine @FileView.Apart.take _ _ db.entry.count apart ?_ paths ?_
  · intro other otherTable different filed
    unfold FileView.Filed Db.fileView at filed ⊢
    unfold FileView.path
    dsimp only [Db.load, Db.enter, Db.setIt, dbEntryNew] at filed ⊢
    simp only [Function.update_of_ne different] at filed ⊢
    exact ⟨filed, trivial⟩
  · intro otherTable filed
    unfold FileView.Filed Db.fileView at filed
    dsimp only [Db.load, Db.enter, Db.setIt, dbEntryNew] at filed
    simp only [Function.update_self, Option.some.injEq] at filed
    obtain ⟨-, large, rfl⟩ := filed
    have isPath : (db.load table new it).fileView.path table db.entry.count =
        loadedPath db table new.hash it := by
      unfold FileView.path Db.fileView loadedPath
      dsimp only [Db.load, Db.enter, Db.setIt, dbEntryNew]
      simp only [Function.update_self]
    rw [isPath]
    exact own large

/-- One line of the index. -/
theorem loadLine_apart {limit : Nat} {tracing : Tracing kh}
    {names : Bytes → Option Nat} {entries : List Nat} {line : Bytes}
    {next : Loading kh}
    (keeps : tracing.Keeps hashString limit names entries)
    (fills : tracing.loading.Fills)
    (own : LineNamesOwn hashString tracing.loading line)
    (run : loadLine hashString tracing.loading line = .ok next)
    (apart : tracing.loading.db.fileView.Apart) : next.db.fileView.Apart := by
  unfold loadLine at run
  unfold LineNamesOwn at own
  cases parsed : parseLine line with
  | ignored =>
      simp only [parsed] at run
      obtain rfl := pure_eq_ok.mp run
      exact apart
  | table name =>
      simp only [parsed] at run
      obtain ⟨-, db, table, written, rfl⟩ := loadTable_ok.mp run
      have closes : Purges tracing.loading.db tracing.loading.closed :=
        closeLoadedTable_purges _ _
      obtain ⟨sameEntry, sameCount, -⟩ :=
        closeLoadedTable_keeps tracing.loading.db tracing.loading.table
      have unused : ∀ entry, tracing.loading.closed.entry.table entry ≠
          some tracing.loading.closed.table.count := by
        intro entry inTable
        unfold Loading.closed at inTable
        rw [sameEntry, sameCount] at inTable
        exact lt_irrefl _ (fills entry _ inTable).1
      exact (closes.trans (dbTableGetWrite_purges unused written)).apart apart
  | entry block dataLength expires it key =>
      simp only [parsed] at run own
      cases current : tracing.loading.table with
      | none =>
          unfold loadEntry at run
          rw [current] at run
          obtain rfl := pure_eq_ok.mp run
          exact apart
      | some table =>
          simp only [current] at own
          rw [loadEntry_eq current (keeps.present table)] at run
          split at run
          · simp at run
          split at run
          · next accepts =>
              obtain rfl := Except.ok.inj run
              refine load_apart apart _ ?_
              intro large
              obtain ⟨inFile, others⟩ := own accepts large
              unfold Accepts at accepts
              rw [if_pos inFile] at accepts
              exact ⟨accepts, others⟩
          · obtain rfl := Except.ok.inj run
            exact apart

/-- All lines of the index. -/
theorem traceLines_apart {limit : Nat} {tracing final : Tracing kh}
    {names : Bytes → Option Nat} {entries : List Nat} {lines : List Bytes}
    (keeps : tracing.Keeps hashString limit names entries)
    (tracks : tracing.loading.Tracks) (fills : tracing.loading.Fills)
    (own : LinesNameOwn hashString tracing.loading lines)
    (run : traceLines hashString tracing lines = .ok final)
    (apart : tracing.loading.db.fileView.Apart) :
    final.loading.db.fileView.Apart := by
  induction lines generalizing tracing limit names entries with
  | nil =>
      obtain rfl := pure_eq_ok.mp run
      exact apart
  | cons line lines ih =>
      unfold traceLines at run
      rw [List.foldlM_cons, bind_eq_ok] at run
      obtain ⟨next, first, rest⟩ := run
      obtain ⟨_, _, _, keepsNext, -⟩ := keeps.step first
      unfold traceLine at first
      rw [bind_eq_ok] at first
      obtain ⟨loading, loads, first⟩ := first
      obtain rfl := pure_eq_ok.mp first
      obtain ⟨-, tracksNext, fillsNext⟩ := traceLine_changes trivial keeps
        tracks fills (linesClear_all _ [line]).1 loads
      exact ih keepsNext tracksNext fillsNext (own.2 loading loads) rest
        (loadLine_apart keeps fills own.1 loads apart)

theorem emptyDb_apart (disk : Disk) : (emptyDb disk : Db kh).fileView.Apart where
  exists_ := fun _ _ filed => absurd filed.2.2 (Option.some_ne_none _).symm
  unique := fun _ _ _ _ filed =>
    absurd filed.2.2 (Option.some_ne_none _).symm

theorem blankDb_fileView (disk : Disk) :
    (blankDb (emptyDb disk : Db kh)).fileView =
      (emptyDb disk : Db kh).fileView := by
  obtain ⟨freeBlocks, blocksExist, blocksFree, blockfile, isSet⟩ :=
    blankDb_eq (emptyDb disk : Db kh)
  rw [isSet]
  rfl

theorem freeUnused_fileView (db : Db kh) (blockInUse : List Nat) :
    (freeUnused db blockInUse).fileView = db.fileView := by
  have loop : ∀ (blocks : List Nat) (start : Db kh),
      (blocks.foldl (fun db block =>
        if block < db.blocksExist ∧ block ∉ blockInUse then
          dbBlockFree db (i32 block)
        else db) start).fileView = start.fileView := by
    intro blocks
    induction blocks with
    | nil => exact fun _ => rfl
    | cons block blocks ih =>
        intro start
        rw [List.foldl_cons, ih]
        split
        · obtain ⟨freeBlocks, blocksExist, blocksFree, blockfile, isSet⟩ :=
            dbBlockFree_eq start (i32 block)
          rw [isSet]
          rfl
        · rfl
  exact loop _ db

/-- An opened store has its files apart. -/
theorem dbOpen_apart {disk : Disk} (own : IndexNamesOwn kh hashString disk)
    (run : dbOpen hashString disk = .ok db) : db.fileView.Apart := by
  cases saved : disk.indexSave with
  | none =>
      rw [dbOpen_blank saved] at run
      obtain rfl := Except.ok.inj run
      rw [blankDb_fileView]
      exact emptyDb_apart disk
  | some text =>
      rw [dbOpen_saved saved] at run
      cases traced : traceLines hashString (Tracing.start (emptyDb disk : Db kh))
          (splitLines text) with
      | error fault =>
          rw [traced] at run
          simp [Except.map] at run
      | ok final =>
          rw [traced] at run
          obtain rfl := Except.ok.inj run
          have tracks : (Tracing.start (emptyDb disk : Db kh)).loading.Tracks := by
            intro entry owned
            change (0 : Int) ≤ -1 at owned
            omega
          have fills : (Tracing.start (emptyDb disk : Db kh)).loading.Fills := by
            intro entry table inTable
            simp [Tracing.start, emptyDb] at inTable
          have apart := traceLines_apart (Tracing.Keeps.start disk) tracks
            fills (own text saved) traced (emptyDb_apart disk)
          exact ((Purges.of_eq (freeUnused_fileView _ _)).trans
            (closeLoadedTable_purges _ _)).apart apart

end Load

section Runs

variable {env : Env} {server after : Server env.kh} {event : Event}

/-- The connection that an event is about meets what files need. -/
def KeepsFiles (env : Env) (server : Server env.kh) (event : Event) : Prop :=
  ∀ connection action, event = .request connection action →
    (server.connections connection).live = true →
      FilesSafe (server.session connection) action

/-- The entry that a step may give another file: the one whose length it
announces. -/
def Restores (server : Server kh) (event : Event) (entry : Nat) : Prop :=
  ∃ connection action, event = .request connection action ∧
    AnnouncesTo (server.connections connection) action entry

/-- A step of the server lets entries go with their files, or gives the entry
of its request another one. -/
theorem serverStep_files (sound : server.Sound)
    (keeps : KeepsFiles env server event)
    (run : serverStep env server event = .ok after) :
    Purges server.db after.db ∨ ∃ entry, Restores server event entry ∧
      server.db.fileView.Stores after.db.fileView entry := by
  have keys := sound.consistent.keys
  by_cases outside : event.outside
  · obtain ⟨⟨currentTime, currentUsec, flush, indexSave, same⟩, -, -⟩ :=
      serverStep_outside outside sound run
    refine Or.inl (.of_eq ?_)
    rw [same]
    rfl
  · cases event with
    | request connection action =>
        unfold serverStep at run
        dsimp only at run
        split at run
        · next live =>
            rw [bind_eq_ok] at run
            obtain ⟨session, handles, run⟩ := run
            obtain rfl := pure_eq_ok.mp run
            rcases handle_files (keeps connection action rfl live)
                (fun table entry ⟨hash, held⟩ => keys.live_held held)
                (fun entry inTable =>
                  lt_irrefl _ (keys.table_lt inTable).2) handles with
              purges | ⟨entry, announces, storesEntry⟩
            · exact Or.inl purges
            · exact Or.inr ⟨entry, ⟨connection, action, rfl, announces⟩,
                storesEntry⟩
        · obtain rfl := pure_eq_ok.mp run
          exact Or.inl (.of_eq rfl)
    | signalFlush outcome =>
        unfold serverStep at run
        dsimp only at run
        rw [bind_eq_ok] at run
        obtain ⟨db, collects, run⟩ := run
        obtain rfl := pure_eq_ok.mp run
        exact Or.inl (dbLruGc_purges collects)
    | _ => exact absurd trivial outside

/-- Entries that need a file have one, no two the same, and a step removes or
replaces no file but those of the entries it deletes or stores. -/
def FilesOwned (env : Env) (server : Server env.kh) : Prop :=
  server.db.fileView.Apart ∧
    ∀ event after, KeepsFiles env server event →
      serverStep env server event = .ok after → ∀ entry table,
        ¬Restores server event entry → after.db.fileView.Filed entry table →
          server.db.fileView.Filed entry table ∧
            keyPathIn after.db table entry = keyPathIn server.db table entry ∧
            after.db.disk.paths (keyPathIn server.db table entry) =
              server.db.disk.paths (keyPathIn server.db table entry)

theorem filesOwned_of_apart (sound : server.Sound)
    (apart : server.db.fileView.Apart) : FilesOwned env server := by
  refine ⟨apart, ?_⟩
  intro event after keeps run entry table others filed
  rcases serverStep_files sound keeps run with
    purges | ⟨stored, restores, storesEntry⟩
  · obtain ⟨samePath, sameFile⟩ := FileView.Purges.keeps purges apart filed
    rw [samePath] at sameFile
    exact ⟨(FileView.Purges.filed purges entry table filed).1, samePath,
      sameFile⟩
  · have different : entry ≠ stored := by
      rintro rfl
      exact others restores
    obtain ⟨samePath, sameFile⟩ := storesEntry.keeps apart different filed
    rw [samePath] at sameFile
    exact ⟨(storesEntry.filed entry table different filed).1, samePath,
      sameFile⟩

theorem serverStep_apart (sound : server.Sound)
    (keeps : KeepsFiles env server event)
    (run : serverStep env server event = .ok after)
    (apart : server.db.fileView.Apart) : after.db.fileView.Apart := by
  rcases serverStep_files sound keeps run with purges | ⟨_, -, storesEntry⟩
  · exact FileView.Purges.apart purges apart
  · exact FileView.Stores.apart storesEntry apart

/-- In every run from an index that names each key file once, in which no
request closes the open file of an entry that another connection writes,
deletions find their entries, deleted uploads do not shrink into blocks and
files can be created, every entry owns its file. -/
theorem filesOwned_of_reachable (env : Env) {server : Server env.kh}
    (reachable : (serverMachine env
      (IndexNamesOwn env.kh env.hashString)).Reachable (KeepsFiles env)
        server) : FilesOwned env server := by
  have both : server.Sound ∧ server.db.fileView.Apart := by
    refine @Machine.Reachable.invariant _ _ _ _ _
      (fun server => server.Sound ∧ server.db.fileView.Apart) ?_ ?_ _ reachable
    · rintro state ⟨disk, db, own, opens, rfl⟩
      exact ⟨dbOpen_sound trivial (fun text _ => linesClear_all _ _) opens,
        dbOpen_apart own opens⟩
    · rintro state event successor ⟨sound, apart⟩ keeps run
      exact ⟨serverStep_sound sound
        (eventClear_all (fun _ _ => trivial) state event) run,
        serverStep_apart sound keeps run apart⟩
  exact filesOwned_of_apart both.1 both.2

end Runs

/-- The tests of a step that keeps files apart; a new file gets the first name
that is tried. -/
def filesSafe (session : Session kh) (action : Action) : Bool :=
  let db := session.db
  match session.connection.target with
  | .entry entry =>
      decide (endsRequest session.connection action = true →
        session.connection.fd = .closed ∨
          session.connection.fd = .blockfile ∨
          session.connection.isWriting = true ∨
          db.entry.writing entry = false) &&
        match action with
        | .endOfHeaders =>
            decide (session.connection.method = some .delete →
              db.entry.deleted entry = false)
        | .header (.contentLength (some length)) =>
            decide (blockLength < length.val ∨
              db.entry.deleted entry = false) &&
              (db.entry.table entry).all fun table =>
                (db.disk.paths (pathWithIt db table entry
                  (db.entry.it entry))).isNone
        | _ => true
  | _ => true

theorem filesSafe_sound {session : Session kh} {action : Action}
    (passes : filesSafe session action = true) :
    FilesSafe session action where
  closes := by
    intro ends entry inode held open_ reads
    unfold filesSafe at passes
    simp only [held, Bool.and_eq_true] at passes
    rcases of_decide_eq_true passes.1 ends with
      closed | inBlock | writes | complete
    · cases open_.symm.trans closed
    · cases open_.symm.trans inBlock
    · cases reads.symm.trans writes
    · exact complete
  deletes := by
    intro entry isEnd method held
    subst isEnd
    unfold filesSafe at passes
    simp only [held, Bool.and_eq_true] at passes
    exact of_decide_eq_true passes.2 method
  shrinks := by
    intro entry length isLength method held isDeleted single
    subst isLength
    unfold filesSafe at passes
    simp only [held, Bool.and_eq_true] at passes
    refine (of_decide_eq_true passes.2.1).resolve_right fun live => ?_
    cases live.symm.trans isDeleted
  creates := by
    intro entry table length isLength method held inTable live large
    subst isLength
    unfold filesSafe at passes
    simp only [held, Bool.and_eq_true, inTable, Option.all_some] at passes
    exact ⟨0, by decide, Option.isNone_iff_eq_none.mp passes.2.2⟩

/-- The same of a step of the server. -/
def keepsFiles (env : Env) (server : Server env.kh) (event : Event) : Bool :=
  match event with
  | .request connection action =>
      filesSafe (server.session connection) action
  | _ => true

theorem keepsFiles_sound {env : Env} {server : Server env.kh} {event : Event}
    (passes : keepsFiles env server event = true) :
    KeepsFiles env server event := by
  intro connection action isRequest live
  subst isRequest
  exact filesSafe_sound passes

/-- An upload of 5000 bytes. -/
def uploadsFile (connection : Nat) (table key byte : UInt8) : List Event :=
  resolves connection .put table key ++
    [.request connection (.header (.contentLength (some ⟨5000, by decide⟩))),
      .request connection .endOfHeaders,
      .request connection (.requestBody (List.replicate 5000 byte) 5000),
      .request connection (.writeReady (.sent 100))]

/-- Two keys have files.  One is replaced while it is read, and the other one
is deleted, which removes its file. -/
theorem filesOwned_of_reachable_replace :
    ∃ server : Server listHash,
      (server.connections 1).target = .entry 0 ∧
        server.db.entry.deleted 0 = true ∧
        server.db.entry.deleted 1 = true ∧
        server.db.disk.paths (keyPathIn server.db 0 1) = none ∧
        server.db.fileView.Filed 2 0 ∧
        server.db.disk.paths (keyPathIn server.db 0 2) ≠ none ∧
        FilesOwned listEnv server := by
  have ends : endsWithin emptyDisk (keepsFiles listEnv)
      ([.accept, .accept] ++ uploadsFile 0 97 107 1 ++
        uploadsFile 0 97 108 2 ++ resolves 1 .get 97 107 ++
        uploadsFile 0 97 107 3 ++ deletes 0 97 108)
      (fun server => decide ((server.connections 1).target = .entry 0 ∧
        server.db.entry.deleted 0 = true ∧
        server.db.entry.deleted 1 = true ∧
        server.db.disk.paths (keyPathIn server.db 0 1) = none ∧
        (server.db.entry.deleted 2 = false ∧
          blockLength < server.db.entry.dataLength 2 ∧
          server.db.entry.table 2 = some 0) ∧
        server.db.disk.paths (keyPathIn server.db 0 2) ≠ none)) = true := by
    decide +kernel
  have empty : IndexNamesOwn listHash letterHash emptyDisk := by
    intro text saved
    simp [emptyDisk] at saved
  obtain ⟨server, reachable, final⟩ :=
    reachable_of_endsWithin empty (fun _ _ => keepsFiles_sound) ends
  obtain ⟨reads, replaced, gone, unlinked, filed, there⟩ :=
    of_decide_eq_true final
  exact ⟨server, reads, replaced, gone, unlinked, filed, there,
    filesOwned_of_reachable listEnv reachable⟩

/-- A directory with a key file that no index names. -/
def orphanDisk : Disk :=
  { emptyDisk with paths := fun path => if path.it = 1 then some 0 else none }

/-- The key of an upload is deleted, and uploaded again before the deletion is
answered. -/
def deleteDuringUpload : List Event :=
  [.accept, .accept, .accept] ++ uploads 2 97 108 120 ++
    resolves 0 .put 97 107 ++
    [.request 0 (.header (.contentLength (some ⟨5000, by decide⟩)))] ++
    resolves 1 .delete 97 107 ++ [.request 1 .endOfHeaders] ++
    resolves 2 .put 97 107 ++
    [.request 2 (.header (.contentLength (some ⟨5000, by decide⟩))),
      .request 1 (.writeReady (.sent 1000))]

/-- The deletion unlinks the file of the second upload. -/
theorem filesOwned_lost :
    ∃ server : Server listHash,
      (serverMachine listEnv fun disk => disk.indexSave = none).Reachable
        Machine.anyStep server ∧ ¬FilesOwned listEnv server := by
  let machine := serverMachine listEnv fun disk => disk.indexSave = none
  let start : Server listHash := .opened (blankDb (emptyDb orphanDisk))
  let lost (server : Server listHash) : Bool :=
    decide (server.db.entry.deleted 2 = false ∧
      server.db.entry.dataLength 2 = 5000 ∧
      server.db.entry.table 2 = some 0 ∧
      server.db.disk.paths (keyPathIn server.db 0 2) = none)
  have ends : (machine.run start deleteDuringUpload).map lost = .ok true := by
    decide +kernel
  cases runs : machine.run start deleteDuringUpload with
  | error fault =>
      rw [runs] at ends
      cases ends
  | ok server =>
      rw [runs] at ends
      have isLost : lost server = true := Except.ok.inj ends
      have reachable : machine.Reachable Machine.anyStep server :=
        Machine.Reachable.run (.start ⟨orphanDisk, _, rfl, rfl, rfl⟩)
          (fun _ _ _ => trivial) runs
      obtain ⟨live, length, inTable, missing⟩ := of_decide_eq_true isLost
      refine ⟨server, reachable, ?_⟩
      rintro ⟨apart, -⟩
      have long : blockLength < server.db.entry.dataLength 2 := by
        rw [length]
        decide
      exact apart.exists_ 2 0 ⟨live, long, inTable⟩ missing

end SimpleCache
