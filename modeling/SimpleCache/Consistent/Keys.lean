import SimpleCache.Consistent

/-!
# Keys stay consistent

Every change keeps the key maps to undeleted entries of their own table, each
under its hash.
-/

namespace SimpleCache

variable {kh : KHash} {hashString : Bytes → UInt32}
  {allowed : Defect → Prop} {before after : Work kh}

private theorem keysConsistent_new (consistent : before.KeysConsistent)
    (name : Bytes) (hash : UInt32) :
    Work.KeysConsistent
      { before with db := (dbTableNew before.db name hash).1 } := by
  have kept : ∀ {table key entry},
      kh.lookup ((dbTableNew before.db name hash).1.table.cacheHashSet table)
        key = some entry →
      kh.lookup (before.db.table.cacheHashSet table) key = some entry := by
    intro table key entry found
    simp only [dbTableNew] at found
    by_cases same : table = before.db.table.count
    · simp [same] at found
    · rwa [Function.update_of_ne same] at found
  exact {
    table_lt := fun inTable =>
      ⟨(consistent.table_lt inTable).1,
        Nat.lt_succ_of_lt (consistent.table_lt inTable).2⟩
    table_none := consistent.table_none
    table_held := fun found => consistent.table_held (kept found)
    hash_held := fun found => consistent.hash_held (kept found)
    live_held := fun found => consistent.live_held (kept found)
    freed_deleted := consistent.freed_deleted
    deleted_lt := consistent.deleted_lt }

/-- The bucket that a removal empties is the one that holds the entry, if its
table holds it at all. -/
theorem Work.KeysConsistent.find_of_found (consistent : before.KeysConsistent)
    {table entry index : Nat} {key : UInt32}
    (found : kh.value (before.db.table.cacheHashSet table) index =
        some entry ∨
      index = kh.find (before.db.table.cacheHashSet table)
        (before.db.entry.hash entry))
    (held : kh.lookup (before.db.table.cacheHashSet table) key = some entry) :
    kh.find (before.db.table.cacheHashSet table) key = index := by
  have keyEq := consistent.hash_held held
  rcases found with shown | rfl
  · obtain ⟨other, otherHeld, otherFind⟩ :=
      BucketMap.exists_key_of_value shown
    rw [← keyEq, consistent.hash_held otherHeld, otherFind]
  · rw [keyEq]

private theorem keysConsistent_remove (consistent : before.KeysConsistent)
    {table entry index : Nat}
    (inTable : before.db.entry.table entry = some table)
    (found : kh.value (before.db.table.cacheHashSet table) index =
        some entry ∨
      index = kh.find (before.db.table.cacheHashSet table)
        (before.db.entry.hash entry)) :
    Work.KeysConsistent
      { before with db := before.db.remove table entry index } := by
  have kept : ∀ {other key held},
      kh.lookup ((before.db.remove table entry index).table.cacheHashSet other)
        key = some held →
      kh.lookup (before.db.table.cacheHashSet other) key = some held ∧
        held ≠ entry := by
    intro other key held heldAfter
    simp only [Db.remove] at heldAfter
    by_cases same : other = table
    · subst other
      rw [Function.update_self, BucketMap.lookup_del] at heldAfter
      split at heldAfter
      · simp at heldAfter
      · next elsewhere =>
          refine ⟨heldAfter, ?_⟩
          rintro rfl
          exact elsewhere (consistent.find_of_found found heldAfter)
    · rw [Function.update_of_ne same] at heldAfter
      refine ⟨heldAfter, ?_⟩
      rintro rfl
      have := consistent.table_held heldAfter
      rw [inTable] at this
      exact same (Option.some.inj this).symm
  have stillDeleted : ∀ {other}, before.db.entry.deleted other = true →
      Function.update before.db.entry.deleted entry true other = true := by
    intro other isDeleted
    by_cases same : other = entry
    · simp [same]
    · rwa [Function.update_of_ne same]
  exact {
    table_lt := consistent.table_lt
    table_none := fun allocated detached =>
      stillDeleted (consistent.table_none allocated detached)
    table_held := fun heldAfter => consistent.table_held (kept heldAfter).1
    hash_held := fun heldAfter => consistent.hash_held (kept heldAfter).1
    live_held := by
      intro other key held heldAfter
      change Function.update _ _ _ _ = _
      rw [Function.update_of_ne (kept heldAfter).2]
      exact consistent.live_held (kept heldAfter).1
    freed_deleted := fun isFreed =>
      stillDeleted (consistent.freed_deleted isFreed)
    deleted_lt := by
      intro other isDeleted
      change Function.update _ _ _ _ = _ at isDeleted
      by_cases same : other = entry
      · exact same ▸ (consistent.table_lt inTable).1
      · rw [Function.update_of_ne same] at isDeleted
        exact consistent.deleted_lt isDeleted }

private theorem keysConsistent_enter (consistent : before.KeysConsistent)
    {table : Nat} (allocated : table < before.db.table.count)
    (new : NewEntry) (first : Bool) :
    Work.KeysConsistent
      { before with db := before.db.enter table new first } := by
  have kept : ∀ {other key entry},
      kh.lookup ((before.db.enter table new first).table.cacheHashSet other)
        key = some entry →
      (other = table ∧ key = new.hash ∧ entry = before.db.entry.count) ∨
        (kh.lookup (before.db.table.cacheHashSet other) key = some entry ∧
          entry ≠ before.db.entry.count) := by
    intro other key entry held
    simp only [Db.enter] at held
    have old : kh.lookup (before.db.table.cacheHashSet other) key =
        some entry → entry ≠ before.db.entry.count := fun heldBefore =>
      (consistent.table_lt (consistent.table_held heldBefore)).1.ne
    by_cases same : other = table
    · subst other
      rw [Function.update_self, BucketMap.lookup_put] at held
      split at held
      · next keyEq => exact Or.inl ⟨rfl, keyEq, (Option.some.inj held).symm⟩
      · exact Or.inr ⟨held, old held⟩
    · rw [Function.update_of_ne same] at held
      exact Or.inr ⟨held, old held⟩
  have fresh : ∀ {entry}, before.db.entry.deleted entry = true →
      Function.update before.db.entry.deleted before.db.entry.count false
        entry = true := by
    intro entry isDeleted
    rwa [Function.update_of_ne (consistent.deleted_lt isDeleted).ne]
  exact {
    table_lt := by
      intro entry other inTable
      change Function.update _ _ _ _ = _ at inTable
      by_cases same : entry = before.db.entry.count
      · subst same
        rw [Function.update_self] at inTable
        exact ⟨Nat.lt_succ_self _, Option.some.inj inTable ▸ allocated⟩
      · rw [Function.update_of_ne same] at inTable
        have := consistent.table_lt inTable
        exact ⟨Nat.lt_succ_of_lt this.1, this.2⟩
    table_none := by
      intro entry entryLt detached
      change entry < before.db.entry.count + 1 at entryLt
      change Function.update _ _ _ _ = _ at detached
      by_cases same : entry = before.db.entry.count
      · simp [same] at detached
      · rw [Function.update_of_ne same] at detached
        exact fresh (consistent.table_none (by omega) detached)
    table_held := by
      intro other key entry held
      change Function.update _ _ _ _ = _
      rcases kept held with ⟨rfl, -, rfl⟩ | ⟨heldBefore, old⟩
      · exact Function.update_self ..
      · rw [Function.update_of_ne old]
        exact consistent.table_held heldBefore
    hash_held := by
      intro other key entry held
      change Function.update _ _ _ _ = _
      rcases kept held with ⟨-, rfl, rfl⟩ | ⟨heldBefore, old⟩
      · exact Function.update_self ..
      · rw [Function.update_of_ne old]
        exact consistent.hash_held heldBefore
    live_held := by
      intro other key entry held
      change Function.update _ _ _ _ = _
      rcases kept held with ⟨-, -, rfl⟩ | ⟨heldBefore, old⟩
      · exact Function.update_self ..
      · rw [Function.update_of_ne old]
        exact consistent.live_held heldBefore
    freed_deleted := by
      intro entry isFreed
      change Function.update _ _ _ _ = _ at isFreed
      by_cases same : entry = before.db.entry.count
      · simp [same] at isFreed
      · rw [Function.update_of_ne same] at isFreed
        exact fresh (consistent.freed_deleted isFreed)
    deleted_lt := by
      intro entry isDeleted
      change Function.update _ _ _ _ = _ at isDeleted
      by_cases same : entry = before.db.entry.count
      · simp [same] at isDeleted
      · rw [Function.update_of_ne same] at isDeleted
        exact Nat.lt_succ_of_lt (consistent.deleted_lt isDeleted) }

theorem Change.keysConsistent
    (change : Change hashString allowed before after)
    (holders : before.HoldersConsistent)
    (consistent : before.KeysConsistent) : after.KeysConsistent := by
  cases change with
  | createTable name hash => exact keysConsistent_new consistent name hash
  | loadCreateTable name hash => exact keysConsistent_new consistent name hash
  | free entry unheld isDeleted =>
      exact {
        consistent with
        freed_deleted := by
          intro other isFreed
          change Function.update _ _ _ _ = _ at isFreed
          by_cases same : other = entry
          · exact same ▸ isDeleted
          · rw [Function.update_of_ne same] at isFreed
            exact consistent.freed_deleted isFreed }
  | remove table entry index keyed uncounted counted removing inTable present found =>
      exact keysConsistent_remove consistent inTable found
  | detach entry table inTable gone isDeleted =>
      exact {
        consistent with
        table_lt := by
          intro other table inTable
          change Function.update _ _ _ _ = _ at inTable
          by_cases same : other = entry
          · simp [same] at inTable
          · rw [Function.update_of_ne same] at inTable
            exact consistent.table_lt inTable
        table_none := by
          intro other allocated detached
          change Function.update _ _ _ _ = _ at detached
          by_cases same : other = entry
          · exact same ▸ isDeleted
          · rw [Function.update_of_ne same] at detached
            exact consistent.table_none allocated detached
        table_held := by
          intro other key held found
          change Function.update _ _ _ _ = _
          have notEntry : held ≠ entry := by
            rintro rfl
            have live := consistent.live_held found
            change before.db.entry.deleted held = false at live
            rw [isDeleted] at live
            simp at live
          rw [Function.update_of_ne notEntry]
          exact consistent.table_held found }
  | enter table new first counted null live held =>
      exact keysConsistent_enter consistent
        (holders.target_table (before.target_current.trans held)) new first
  | load table new it held =>
      exact keysConsistent_enter consistent (holders.aux_table held) new _
  | _ => exact consistent

end SimpleCache
