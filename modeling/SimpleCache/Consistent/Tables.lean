import SimpleCache.Consistent

/-!
# Tables stay consistent

Every change keeps the registered tables allocated and unreleased, and links
the deletion of a table to its destruction.
-/

namespace SimpleCache

variable {kh : KHash} {hashString : Bytes → UInt32}
  {allowed : Defect → Prop} {before after : Work kh}

private theorem tablesConsistent_actuallyDelete
    (consistent : before.TablesConsistent) (table : Nat) :
    Work.TablesConsistent
      { before with db := dbTableActuallyDelete before.db table } := by
  have kept : ∀ {key other},
      kh.lookup (dbTableActuallyDelete before.db table).tables key =
        some other →
      kh.lookup before.db.tables key = some other ∧
        key ≠ before.db.table.hash table := by
    intro key other found
    rw [lookup_dbTableActuallyDelete] at found
    split at found
    · simp at found
    · next different => exact ⟨found, different⟩
  exact {
    registered_lt := fun found => consistent.registered_lt (kept found).1
    registered_hash := fun found => consistent.registered_hash (kept found).1
    registered_freed := by
      intro key other found
      obtain ⟨registered, different⟩ := kept found
      have otherNe : other ≠ table := by
        rintro rfl
        exact different (consistent.registered_hash registered).symm
      change Function.update _ _ _ _ = _
      rw [Function.update_of_ne otherNe]
      exact consistent.registered_freed registered
    destroyed_deleted := consistent.destroyed_deleted
    deleted_destroyed := consistent.deleted_destroyed
    removing_present := consistent.removing_present
    removing_lt := consistent.removing_lt
    deleted_lt := consistent.deleted_lt }

private theorem tablesConsistent_new (consistent : before.TablesConsistent)
    (name : Bytes) (hash : UInt32) :
    Work.TablesConsistent
      { before with db := (dbTableNew before.db name hash).1 } := by
  have kept : ∀ {key table},
      kh.lookup (dbTableNew before.db name hash).1.tables key = some table →
      (key = hash ∧ table = before.db.table.count) ∨
        (kh.lookup before.db.tables key = some table ∧
          table ≠ before.db.table.count) := by
    intro key table found
    change kh.lookup (kh.put _ _ _) _ = _ at found
    rw [BucketMap.lookup_put] at found
    split at found
    · next keyEq => exact Or.inl ⟨keyEq, (Option.some.inj found).symm⟩
    · exact Or.inr ⟨found, (consistent.registered_lt found).ne⟩
  have oldDeleted : ∀ {table},
      Function.update before.db.table.deleted before.db.table.count false
          table = true →
        table ≠ before.db.table.count ∧
          before.db.table.deleted table = true := by
    intro table isDeleted
    by_cases same : table = before.db.table.count
    · simp [same] at isDeleted
    · exact ⟨same, by simpa [Function.update_of_ne same] using isDeleted⟩
  exact {
    registered_lt := by
      intro key table found
      rcases kept found with ⟨-, rfl⟩ | ⟨old, -⟩
      · exact Nat.lt_succ_self _
      · exact Nat.lt_succ_of_lt (consistent.registered_lt old)
    registered_hash := by
      intro key table found
      change Function.update _ _ _ _ = _
      rcases kept found with ⟨rfl, rfl⟩ | ⟨old, different⟩
      · exact Function.update_self ..
      · rw [Function.update_of_ne different]
        exact consistent.registered_hash old
    registered_freed := by
      intro key table found
      change Function.update _ _ _ _ = _
      rcases kept found with ⟨-, rfl⟩ | ⟨old, different⟩
      · exact Function.update_self ..
      · rw [Function.update_of_ne different]
        exact consistent.registered_freed old
    destroyed_deleted := by
      intro table destroyed
      change Function.update _ _ _ _ = _ at destroyed
      change Function.update _ _ _ _ = _
      by_cases same : table = before.db.table.count
      · simp [same] at destroyed
      · rw [Function.update_of_ne same] at destroyed ⊢
        exact consistent.destroyed_deleted destroyed
    deleted_destroyed := by
      intro table isDeleted
      obtain ⟨different, isDeleted⟩ := oldDeleted isDeleted
      change Function.update _ _ _ _ = _ ∨ _
      rw [Function.update_of_ne different]
      exact consistent.deleted_destroyed isDeleted
    removing_present := by
      intro table keyed uncounted removing
      change Function.update _ _ _ _ = _
      by_cases same : table = before.db.table.count
      · simp [same]
      · rw [Function.update_of_ne same]
        exact consistent.removing_present removing
    removing_lt := fun removing =>
      Nat.lt_succ_of_lt (consistent.removing_lt removing)
    deleted_lt := fun isDeleted =>
      Nat.lt_succ_of_lt (consistent.deleted_lt (oldDeleted isDeleted).2) }

/-- A table that is being removed is destroyed by the end of the removal. -/
private theorem tablesConsistent_destroy
    (consistent : before.TablesConsistent) {table : Nat} {keyed : Bool}
    {uncounted : Nat}
    (removing : before.pending = .removing table keyed uncounted)
    (isDeleted : before.db.table.deleted table = true) :
    Work.TablesConsistent
      { before with
        db := (before.db.destroy table).decTable table
        pending := .idle } := by
  have kept : ∀ {key other},
      kh.lookup (before.db.destroy table).tables key = some other →
        kh.lookup before.db.tables key = some other := by
    intro key other found
    rw [lookup_destroy] at found
    split at found
    · simp at found
    · exact found
  exact {
    registered_lt := fun found => consistent.registered_lt (kept found)
    registered_hash := fun found => consistent.registered_hash (kept found)
    registered_freed := fun found => consistent.registered_freed (kept found)
    destroyed_deleted := by
      intro other destroyed
      change Function.update _ _ _ _ = _ at destroyed
      by_cases same : other = table
      · exact same ▸ isDeleted
      · rw [Function.update_of_ne same] at destroyed
        exact consistent.destroyed_deleted destroyed
    deleted_destroyed := by
      intro other otherDeleted
      left
      change Function.update _ _ _ _ = _
      by_cases same : other = table
      · simp [same]
      · rw [Function.update_of_ne same]
        rcases consistent.deleted_destroyed otherDeleted with
          destroyed | ⟨otherKeyed, otherUncounted, otherRemoving⟩
        · exact destroyed
        · rw [removing] at otherRemoving
          exact absurd (Pending.removing.inj otherRemoving).1.symm same
    removing_present := fun removing => by simp at removing
    removing_lt := fun removing => by simp at removing
    deleted_lt := consistent.deleted_lt }

/-- Ending a removal that left the table in place. -/
private theorem tablesConsistent_kept (consistent : before.TablesConsistent)
    {table : Nat} {keyed : Bool} {uncounted : Nat}
    (removing : before.pending = .removing table keyed uncounted)
    (live : before.db.table.deleted table = false) :
    Work.TablesConsistent { before with pending := .idle } :=
  { consistent with
    deleted_destroyed := by
      intro other isDeleted
      rcases consistent.deleted_destroyed isDeleted with
        destroyed | ⟨otherKeyed, otherUncounted, otherRemoving⟩
      · exact Or.inl destroyed
      · rw [removing] at otherRemoving
        have tableEq : table = other := (Pending.removing.inj otherRemoving).1
        change before.db.table.deleted other = true at isDeleted
        rw [← tableEq, live] at isDeleted
        simp at isDeleted
    removing_present := fun removing => by simp at removing
    removing_lt := fun removing => by simp at removing }

/-- Choosing storage removes no table. -/
private theorem tablesConsistent_stored (consistent : before.TablesConsistent)
    (pending : Pending)
    (notRemoving : ∀ table keyed uncounted,
      before.pending ≠ .removing table keyed uncounted)
    (notRemovingNext : ∀ table keyed uncounted,
      pending ≠ .removing table keyed uncounted) :
    Work.TablesConsistent { before with pending } :=
  { consistent with
    deleted_destroyed := by
      intro table isDeleted
      rcases consistent.deleted_destroyed isDeleted with
        destroyed | ⟨keyed, uncounted, removing⟩
      · exact Or.inl destroyed
      · exact absurd removing (notRemoving table keyed uncounted)
    removing_present := fun removing =>
      absurd removing (notRemovingNext _ _ _)
    removing_lt := fun removing => absurd removing (notRemovingNext _ _ _) }

theorem Change.tablesConsistent
    (change : Change hashString allowed before after)
    (consistent : before.TablesConsistent) : after.TablesConsistent := by
  cases change with
  | createTable name hash => exact tablesConsistent_new consistent name hash
  | loadCreateTable name hash =>
      exact tablesConsistent_new consistent name hash
  | freeTable table => exact tablesConsistent_actuallyDelete consistent table
  | loadFreeTable table =>
      exact tablesConsistent_actuallyDelete consistent table
  | destroy table keyed uncounted removing isDeleted =>
      exact tablesConsistent_destroy consistent removing isDeleted
  | beginRemoval table idle allocated present =>
      exact {
        consistent with
        deleted_destroyed := by
          intro other isDeleted
          rcases consistent.deleted_destroyed isDeleted with
            destroyed | ⟨keyed, uncounted, removing⟩
          · exact Or.inl destroyed
          · rw [idle] at removing
            simp at removing
        removing_present := by
          intro other keyed uncounted removing
          exact (Pending.removing.inj removing).1 ▸ present
        removing_lt := by
          intro other keyed uncounted removing
          exact (Pending.removing.inj removing).1 ▸ allocated }
  | remove table entry index keyed uncounted counted removing =>
      exact {
        consistent with
        deleted_destroyed := by
          intro other isDeleted
          rcases consistent.deleted_destroyed isDeleted with
            destroyed | ⟨otherKeyed, otherUncounted, otherRemoving⟩
          · exact Or.inl destroyed
          · obtain ⟨rfl, -, -⟩ :=
              Pending.removing.inj (removing.symm.trans otherRemoving)
            exact Or.inr ⟨keyed, _, rfl⟩
        removing_present := by
          intro other otherKeyed otherUncounted otherRemoving
          exact (Pending.removing.inj otherRemoving).1 ▸
            consistent.removing_present removing
        removing_lt := by
          intro other otherKeyed otherUncounted otherRemoving
          exact (Pending.removing.inj otherRemoving).1 ▸
            consistent.removing_lt removing }
  | keepTable table removing live =>
      exact tablesConsistent_kept consistent removing live
  | doom table keyed uncounted removing =>
      exact {
        consistent with
        destroyed_deleted := by
          intro other destroyed
          change Function.update _ _ _ _ = _
          by_cases same : other = table
          · simp [same]
          · rw [Function.update_of_ne same]
            exact consistent.destroyed_deleted destroyed
        deleted_destroyed := by
          intro other isDeleted
          change Function.update _ _ _ _ = _ at isDeleted
          by_cases same : other = table
          · exact Or.inr ⟨keyed, uncounted, same ▸ removing⟩
          · rw [Function.update_of_ne same] at isDeleted
            exact consistent.deleted_destroyed isDeleted
        deleted_lt := by
          intro other isDeleted
          change Function.update _ _ _ _ = _ at isDeleted
          by_cases same : other = table
          · rw [same]
            exact consistent.removing_lt removing
          · rw [Function.update_of_ne same] at isDeleted
            exact consistent.deleted_lt isDeleted }
  | enter table new first counted null live held empty keyed =>
      have entered : Work.TablesConsistent
          { before with
            db := ((before.db.enter table new first).setWriting
              before.db.entry.count true).countOn counted } := by
        exact consistent
      rcases keyed with ⟨idle, -⟩ | ⟨removing, -⟩
      · exact idle ▸ entered
      · exact tablesConsistent_kept entered removing
          live
  | beginStoring entry idle =>
      exact tablesConsistent_stored consistent (.storing entry)
        (by simp [idle]) (by simp)
  | endStoring entry fd position storing =>
      exact tablesConsistent_stored consistent .idle
        (by simp [storing]) (by simp)
  | _ => exact consistent

end SimpleCache
