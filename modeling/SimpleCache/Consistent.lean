import SimpleCache.Change
import SimpleCache.Library.Update

/-!
# Consistency of tables, keys and holders

What holds in every state of every run, defects included: which tables are
registered, what the key maps hold, and what connections point to.  The three
parts are stated over the fields they read, so that a change to other fields
preserves them as they stand.
-/

namespace SimpleCache

variable {kh : KHash}

/-- Registered tables are allocated, registered under their hash and not
released; a table is deleted when it is destroyed, and destroyed by the end of
the handler that deletes it. -/
structure TablesConsistent (tables : kh.Map) (count : Nat)
    (hash : Nat → UInt32) (freed destroyed deleted : Nat → Bool)
    (pending : Pending) : Prop where
  registered_lt : ∀ {key table}, kh.lookup tables key = some table →
    table < count
  registered_hash : ∀ {key table}, kh.lookup tables key = some table →
    hash table = key
  registered_freed : ∀ {key table}, kh.lookup tables key = some table →
    freed table = false
  destroyed_deleted : ∀ {table}, destroyed table = true → deleted table = true
  deleted_destroyed : ∀ {table}, deleted table = true →
    destroyed table = true ∨
      ∃ keyed uncounted, pending = .removing table keyed uncounted
  removing_present : ∀ {table keyed uncounted},
    pending = .removing table keyed uncounted → destroyed table = false
  removing_lt : ∀ {table keyed uncounted},
    pending = .removing table keyed uncounted → table < count
  deleted_lt : ∀ {table}, deleted table = true → table < count

def Work.TablesConsistent (work : Work kh) : Prop :=
  SimpleCache.TablesConsistent work.db.tables work.db.table.count
    work.db.table.hash work.db.table.freed work.db.table.destroyed
    work.db.table.deleted work.pending

/-- The key maps hold undeleted entries under their hash, in the table that
the entry names. -/
structure KeysConsistent (entryCount tableCount : Nat)
    (entryTable : Nat → Option Nat) (hash : Nat → UInt32)
    (deleted freed : Nat → Bool) (cacheHashSet : Nat → kh.Map) : Prop where
  table_lt : ∀ {entry table}, entryTable entry = some table →
    entry < entryCount ∧ table < tableCount
  table_none : ∀ {entry}, entry < entryCount → entryTable entry = none →
    deleted entry = true
  table_held : ∀ {table key entry},
    kh.lookup (cacheHashSet table) key = some entry →
      entryTable entry = some table
  hash_held : ∀ {table key entry},
    kh.lookup (cacheHashSet table) key = some entry → hash entry = key
  live_held : ∀ {table key entry},
    kh.lookup (cacheHashSet table) key = some entry → deleted entry = false
  freed_deleted : ∀ {entry}, freed entry = true → deleted entry = true
  deleted_lt : ∀ {entry}, deleted entry = true → entry < entryCount

def Work.KeysConsistent (work : Work kh) : Prop :=
  SimpleCache.KeysConsistent work.db.entry.count work.db.table.count
    work.db.entry.table work.db.entry.hash work.db.entry.deleted
    work.db.entry.freed work.db.table.cacheHashSet

def Work.target (work : Work kh) (connection : Nat) : Held :=
  (work.connections connection).target

def Work.isWriting (work : Work kh) (connection : Nat) : Bool :=
  (work.connections connection).isWriting

/-- Connections point to allocated objects, and an entry that is being
written has one writer. -/
structure HoldersConsistent (target : Nat → Held) (isWriting : Nat → Bool)
    (aux : Aux) (entryCount tableCount : Nat) (writing : Nat → Bool) :
    Prop where
  target_table : ∀ {connection table},
    target connection = .table table → table < tableCount
  target_entry : ∀ {connection entry},
    target connection = .entry entry → entry < entryCount
  aux_table : ∀ {table}, aux = .table table → table < tableCount
  aux_entry : ∀ {entry withTable}, aux = .entry entry withTable →
    entry < entryCount
  aux_entered : ∀ {entry}, aux = .entered entry →
    entry < entryCount ∧ writing entry = true ∧
      ∀ connection, target connection ≠ .entry entry
  writes : ∀ {connection}, isWriting connection = true →
    ∃ entry, target connection = .entry entry ∧ writing entry = true
  writer_unique : ∀ {first second}, isWriting first = true →
    isWriting second = true → target first = target second → first = second
  writer : ∀ {entry}, writing entry = true → aux = .entered entry ∨
    ∃ connection, isWriting connection = true ∧
      target connection = .entry entry

def Work.HoldersConsistent (work : Work kh) : Prop :=
  SimpleCache.HoldersConsistent work.target work.isWriting work.aux
    work.db.entry.count work.db.table.count work.db.entry.writing

/-- The parts together. -/
structure Work.Consistent (work : Work kh) : Prop where
  tables : work.TablesConsistent
  keys : work.KeysConsistent
  holders : work.HoldersConsistent

theorem Work.target_current (work : Work kh) :
    work.target work.current = work.connection.target := by
  simp [Work.target, Work.connections]

theorem Work.isWriting_current (work : Work kh) :
    work.isWriting work.current = work.connection.isWriting := by
  simp [Work.isWriting, Work.connections]

variable {before after : Work kh}

/-- A handler moves the target of its own connection only. -/
theorem Work.target_eq (others : after.others = before.others)
    (current : after.current = before.current) :
    after.target =
      Function.update before.target before.current after.connection.target := by
  unfold Work.target Work.connections
  rw [others, current, update_apply_comp, update_apply_comp]
  simp

theorem Work.isWriting_eq (others : after.others = before.others)
    (current : after.current = before.current) :
    after.isWriting =
      Function.update before.isWriting before.current
        after.connection.isWriting := by
  unfold Work.isWriting Work.connections
  rw [others, current, update_apply_comp, update_apply_comp]
  simp

/-- Releasing a table takes its hash out of the registered tables. -/
theorem lookup_dbTableActuallyDelete (db : Db kh) (table : Nat)
    (key : UInt32) :
    kh.lookup (dbTableActuallyDelete db table).tables key =
      if key = db.table.hash table then none else kh.lookup db.tables key := by
  unfold dbTableActuallyDelete
  dsimp only
  split
  · next absent =>
      split
      · next keyEq =>
          subst key
          exact BucketMap.lookup_eq_none_of_find absent
      · rfl
  · exact BucketMap.lookup_del_find key

theorem lookup_destroy (db : Db kh) (table : Nat) (key : UInt32) :
    kh.lookup (db.destroy table).tables key =
      if db.table.refs table ≠ 0 ∧ key = db.table.hash table then none
      else kh.lookup db.tables key := by
  unfold Db.destroy
  by_cases unheld : db.table.refs table = 0
  · simp [unheld]
  · simp [unheld, BucketMap.lookup_del_find]

end SimpleCache
