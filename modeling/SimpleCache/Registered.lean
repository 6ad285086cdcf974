import SimpleCache.Checked
import SimpleCache.Listed

/-!
# The tables that are registered

As long as letting go of a deleted table leaves other tables alone, a table is
registered under its hash until it is deleted.  The exception is a table that
the loader let go of because the index had no key of it: nothing leads to such
a table any more.
-/

namespace SimpleCache

variable {kh : KHash}

/-- What leads to a table leads to one that is not released, or is destroyed;
and a table that is neither is registered under its hash. -/
structure TablesKept (tables : kh.Map) (count : Nat) (hash : Nat → UInt32)
    (freed destroyed : Nat → Bool) (entryTable : Nat → Option Nat)
    (target : Nat → Held) (aux : Aux) (pending : Pending) : Prop where
  registered : ∀ {table}, table < count → destroyed table = false →
    freed table = false → kh.lookup tables (hash table) = some table
  target : ∀ {connection table}, target connection = .table table →
    freed table = true → destroyed table = true
  aux : ∀ {table}, aux = .table table → freed table = true →
    destroyed table = true
  entry : ∀ {entry table}, entryTable entry = some table →
    freed table = true → destroyed table = true
  removing : ∀ {table keyed uncounted},
    pending = .removing table keyed uncounted → freed table = false

def Work.TablesKept (work : Work kh) : Prop :=
  SimpleCache.TablesKept work.db.tables work.db.table.count work.db.table.hash
    work.db.table.freed work.db.table.destroyed work.db.entry.table work.target
    work.aux work.pending

section Changes

variable {hashString : Bytes → UInt32} {allowed : Defect → Prop}
  {before after : Work kh}

/-- A table comes into hand by being registered, or by being new. -/
def Found (before after : Work kh) (table : Nat) : Prop :=
  (∃ hash, kh.lookup before.db.tables hash = some table) ∨
    after.db.table.freed table = false

theorem Change.target_table (change : Change hashString allowed before after)
    {connection table : Nat} (held : after.target connection = .table table) :
    before.target connection = .table table ∨ Found before after table := by
  have moved : after.target = Function.update before.target before.current
      after.connection.target := by
    cases change <;> exact Work.target_eq rfl rfl
  rw [moved] at held
  by_cases other : connection = before.current
  · subst other
    rw [Function.update_self] at held
    rw [before.target_current]
    cases change with
    | talk connection sameTarget => exact Or.inl (sameTarget.symm.trans held)
    | takeTable taken null registered =>
        obtain rfl := Held.table.inj held
        exact Or.inr (Or.inl registered)
    | createTable name hash =>
        obtain rfl := Held.table.inj held
        exact Or.inr (Or.inr (Function.update_self ..))
    | dropTable | forgetTable | claim | claimWrite | release
    | releaseDetached => exact Held.noConfusion held
    | _ => exact Or.inl held
  · rw [Function.update_of_ne other] at held
    exact Or.inl held

theorem Change.aux_table (change : Change hashString allowed before after)
    {table : Nat} (held : after.aux = .table table) :
    before.aux = .table table ∨ Found before after table := by
  cases change with
  | loadTakeTable taken null registered =>
      obtain rfl := Aux.table.inj held
      exact Or.inr (Or.inl registered)
  | loadCreateTable name hash =>
      obtain rfl := Aux.table.inj held
      exact Or.inr (Or.inr (Function.update_self ..))
  | loadDropTable | take | takeWithTable | drop | dropWithTable | claim
  | claimWrite | enter => exact Aux.noConfusion held
  | _ => exact Or.inl held

/-- An entry gets its table from who enters it. -/
theorem Change.entry_table (change : Change hashString allowed before after)
    {entry table : Nat} (inTable : after.db.entry.table entry = some table) :
    before.db.entry.table entry = some table ∨
      before.connection.target = .table table ∨ before.aux = .table table := by
  cases change with
  | detach other held =>
      change Function.update _ _ _ _ = _ at inTable
      by_cases same : entry = other
      · rw [same, Function.update_self] at inTable
        simp at inTable
      · rw [Function.update_of_ne same] at inTable
        exact Or.inl inTable
  | enter other new first counted null live held =>
      change Function.update _ _ _ _ = _ at inTable
      by_cases same : entry = before.db.entry.count
      · rw [same, Function.update_self] at inTable
        obtain rfl := Option.some.inj inTable
        exact Or.inr (Or.inl held)
      · rw [Function.update_of_ne same] at inTable
        exact Or.inl inTable
  | load other new it held =>
      change Function.update _ _ _ _ = _ at inTable
      by_cases same : entry = before.db.entry.count
      · rw [same, Function.update_self] at inTable
        obtain rfl := Option.some.inj inTable
        exact Or.inr (Or.inr held)
      · rw [Function.update_of_ne same] at inTable
        exact Or.inl inTable
  | _ => exact Or.inl inTable

/-- What leads to a table after a change that releases none. -/
theorem Work.TablesKept.leads (kept : before.TablesKept)
    (consistent : before.Consistent)
    (change : Change hashString allowed before after)
    (freed : ∀ {table}, after.db.table.freed table = true →
      after.db.table.destroyed table = false →
        before.db.table.freed table = true ∧
          before.db.table.destroyed table = false) :
    (∀ {connection table}, after.target connection = .table table →
      after.db.table.freed table = true →
        after.db.table.destroyed table = true) ∧
    (∀ {table}, after.aux = .table table →
      after.db.table.freed table = true →
        after.db.table.destroyed table = true) ∧
    ∀ {entry table}, after.db.entry.table entry = some table →
      after.db.table.freed table = true →
        after.db.table.destroyed table = true := by
  have unfound : ∀ {table}, Found before after table →
      after.db.table.freed table = true →
        after.db.table.destroyed table = true := by
    intro table found isFreed
    by_contra present
    rcases found with ⟨hash, registered⟩ | new
    · have live := consistent.tables.registered_freed registered
      have wasFreed := (freed isFreed (by simpa using present)).1
      exact Bool.false_ne_true (live.symm.trans wasFreed)
    · exact Bool.false_ne_true (new.symm.trans isFreed)
  have unheld : ∀ {table}, (before.db.table.freed table = true →
      before.db.table.destroyed table = true) →
        after.db.table.freed table = true →
          after.db.table.destroyed table = true := by
    intro table held isFreed
    by_contra present
    obtain ⟨wasFreed, wasPresent⟩ := freed isFreed (by simpa using present)
    exact Bool.false_ne_true (wasPresent.symm.trans (held wasFreed))
  refine ⟨fun held => ?_, fun held => ?_, fun inTable => ?_⟩
  · rcases change.target_table held with old | found
    · exact unheld (kept.target old)
    · exact unfound found
  · rcases change.aux_table held with old | found
    · exact unheld (kept.aux old)
    · exact unfound found
  · rcases change.entry_table inTable with old | held | held
    · exact unheld (kept.entry old)
    · exact unheld (kept.target (before.target_current.trans held))
    · exact unheld (kept.aux held)

/-- A new table is registered under a hash that was free. -/
theorem tablesKept_new (kept : before.TablesKept)
    (consistent : before.Consistent)
    (change : Change hashString allowed before after) (name : Bytes)
    {hash : UInt32} (unused : kh.lookup before.db.tables hash = none)
    (created : after.db = (dbTableNew before.db name hash).1)
    (samePending : after.pending = before.pending) : after.TablesKept := by
  have freed : after.db.table.freed = Function.update before.db.table.freed
      before.db.table.count false := by rw [created]; rfl
  have destroyed : after.db.table.destroyed = Function.update
      before.db.table.destroyed before.db.table.count false := by
    rw [created]; rfl
  have leads := kept.leads consistent change (by
    intro table isFreed present
    rw [freed] at isFreed
    rw [destroyed] at present
    by_cases new : table = before.db.table.count
    · rw [new, Function.update_self] at isFreed
      exact absurd isFreed Bool.false_ne_true
    · rw [Function.update_of_ne new] at isFreed present
      exact ⟨isFreed, present⟩)
  refine ⟨?_, leads.1, leads.2.1, leads.2.2, ?_⟩
  · intro table allocated present live
    rw [freed] at live
    rw [destroyed] at present
    rw [created] at allocated ⊢
    change kh.lookup (kh.put before.db.tables hash before.db.table.count)
      (Function.update before.db.table.hash before.db.table.count hash table) =
        some table
    by_cases new : table = before.db.table.count
    · rw [new, Function.update_self, BucketMap.lookup_put, if_pos rfl]
    · rw [Function.update_of_ne new] at present live ⊢
      have allocated : table < before.db.table.count + 1 := allocated
      have registered := kept.registered (by omega) present live
      rw [BucketMap.lookup_put, if_neg]
      · exact registered
      · intro same
        rw [same, unused] at registered
        simp at registered
  · intro table keyed uncounted removing
    rw [samePending] at removing
    have old := consistent.tables.removing_lt removing
    rw [freed, Function.update_of_ne old.ne]
    exact kept.removing removing

/-- Releasing a table that nothing leads to takes its own hash only. -/
theorem tablesKept_free (kept : before.TablesKept) {table : Nat}
    (idle : before.pending = .idle)
    (alone : ∀ other,
      kh.lookup before.db.tables (before.db.table.hash table) = some other →
        other = table)
    (target : ∀ connection, before.target connection = .table table →
      before.db.table.destroyed table = true)
    (aux : before.aux = .table table → before.db.table.destroyed table = true)
    (entry : ∀ entry, before.db.entry.table entry = some table →
      before.db.table.destroyed table = true) :
    Work.TablesKept
      { before with db := dbTableActuallyDelete before.db table } := by
  have freed : (dbTableActuallyDelete before.db table).table.freed =
      Function.update before.db.table.freed table true := rfl
  have same : (dbTableActuallyDelete before.db table).table.destroyed =
        before.db.table.destroyed ∧
      (dbTableActuallyDelete before.db table).table.count =
        before.db.table.count ∧
      (dbTableActuallyDelete before.db table).table.hash =
        before.db.table.hash ∧
      (dbTableActuallyDelete before.db table).entry = before.db.entry :=
    ⟨rfl, rfl, rfl, rfl⟩
  obtain ⟨destroyed, count, hash, entries⟩ := same
  have keep : ∀ {other}, (before.db.table.freed other = true →
      before.db.table.destroyed other = true) →
        (other = table → before.db.table.destroyed table = true) →
          (dbTableActuallyDelete before.db table).table.freed other = true →
            before.db.table.destroyed other = true := by
    intro other old own isFreed
    rw [freed] at isFreed
    by_cases isTable : other = table
    · exact isTable ▸ own isTable
    · rw [Function.update_of_ne isTable] at isFreed
      exact old isFreed
  unfold Work.TablesKept
  constructor
  · intro other allocated present live
    dsimp only at allocated present live ⊢
    rw [count] at allocated
    rw [destroyed] at present
    rw [freed] at live
    have different : other ≠ table := by
      rintro rfl
      rw [Function.update_self] at live
      exact absurd live.symm Bool.false_ne_true
    rw [Function.update_of_ne different] at live
    have registered := kept.registered allocated present live
    rw [hash, lookup_dbTableActuallyDelete, if_neg]
    · exact registered
    · intro sameHash
      rw [sameHash] at registered
      exact different (alone other registered)
  · intro connection other held
    dsimp only
    rw [destroyed]
    exact keep (kept.target held)
      fun isTable => target connection (isTable ▸ held)
  · intro other held
    dsimp only
    rw [destroyed]
    exact keep (kept.aux held) fun isTable => aux (isTable ▸ held)
  · intro entry' other inTable
    dsimp only at inTable ⊢
    rw [entries] at inTable
    rw [destroyed]
    exact keep (kept.entry inTable)
      fun isTable => entry entry' (isTable ▸ inTable)
  · intro other keyed uncounted removing
    exact absurd (idle.symm.trans removing) Pending.noConfusion

/-- Destroying the key map of a table takes its own hash only. -/
theorem tablesKept_destroy (kept : before.TablesKept)
    (consistent : before.Consistent) {table : Nat} {keyed : Bool}
    {uncounted : Nat}
    (removing : before.pending = .removing table keyed uncounted) :
    Work.TablesKept
      { before with
        db := (before.db.destroy table).decTable table
        pending := .idle } := by
  have grows : ∀ {other}, (before.db.table.freed other = true →
      before.db.table.destroyed other = true) →
        before.db.table.freed other = true →
          Function.update before.db.table.destroyed table true other =
            true := by
    intro other old isFreed
    by_cases isTable : other = table
    · rw [isTable, Function.update_self]
    · rw [Function.update_of_ne isTable]
      exact old isFreed
  constructor
  · intro other allocated present live
    have present : Function.update before.db.table.destroyed table true other =
        false := present
    have different : other ≠ table := by
      rintro rfl
      rw [Function.update_self] at present
      exact absurd present.symm Bool.false_ne_true
    rw [Function.update_of_ne different] at present
    have registered := kept.registered allocated present live
    have own := kept.registered (consistent.tables.removing_lt removing)
      (consistent.tables.removing_present removing) (kept.removing removing)
    change kh.lookup (before.db.destroy table).tables
      (before.db.table.hash other) = some other
    rw [lookup_destroy, if_neg]
    · exact registered
    · rintro ⟨-, sameHash⟩
      rw [sameHash, own] at registered
      exact different (Option.some.inj registered).symm
  · exact fun held => grows (kept.target held)
  · exact fun held => grows (kept.aux held)
  · exact fun inTable => grows (kept.entry inTable)
  · exact fun removing => Pending.noConfusion removing

theorem Change.tablesKept (own : ¬allowed .clobber)
    (change : Change hashString allowed before after)
    (consistent : before.Consistent) (kept : before.TablesKept) :
    after.TablesKept := by
  -- most changes release and destroy no table
  have stays : after.db.table.freed = before.db.table.freed →
      after.db.table.destroyed = before.db.table.destroyed →
      after.db.tables = before.db.tables →
      after.db.table.count = before.db.table.count →
      after.db.table.hash = before.db.table.hash →
      (∀ {table keyed uncounted},
        after.pending = .removing table keyed uncounted →
          before.db.table.freed table = false) → after.TablesKept := by
    intro freed destroyed tables count hash removing
    obtain ⟨target, aux, entry⟩ := kept.leads consistent change
      fun isFreed present => ⟨freed ▸ isFreed, destroyed ▸ present⟩
    refine ⟨?_, target, aux, entry, ?_⟩
    · rw [freed, destroyed, tables, count, hash]
      exact kept.registered
    · rw [freed]
      exact removing
  cases change with
  | createTable name hash null unused =>
      exact tablesKept_new kept consistent
        (.createTable before name hash null unused ‹_› ‹_›) name unused rfl rfl
  | loadCreateTable name hash null unused =>
      exact tablesKept_new kept consistent
        (.loadCreateTable before name hash null unused ‹_› ‹_› ‹_›) name unused
        rfl rfl
  | freeTable table idle unheld isDeleted alone =>
      have destroyed : before.db.table.destroyed table = true := by
        rcases consistent.tables.deleted_destroyed isDeleted with
          destroyed | ⟨keyed, uncounted, removing⟩
        · exact destroyed
        · exact absurd (idle.symm.trans removing) Pending.noConfusion
      exact tablesKept_free kept idle (alone.resolve_right own)
        (fun _ _ => destroyed) (fun _ => destroyed) (fun _ _ => destroyed)
  | loadFreeTable table null idle untouched unused unheld empty registered =>
      refine tablesKept_free kept idle (fun other found => ?_)
        (fun connection held => ?_) (fun held => ?_)
        (fun entry inTable => ?_)
      · exact Option.some.inj (found.symm.trans registered)
      · exact absurd ((untouched connection).symm.trans held)
          Held.noConfusion
      · exact absurd (null.symm.trans held) Aux.noConfusion
      · exact absurd inTable (unused entry)
  | destroy table keyed uncounted removing isDeleted =>
      exact tablesKept_destroy kept consistent removing
  | beginRemoval table idle allocated present reached =>
      refine stays rfl rfl rfl rfl rfl ?_
      intro other keyed uncounted removing
      obtain ⟨rfl, -, -⟩ := Pending.removing.inj removing
      cases isFreed : before.db.table.freed table with
      | false => rfl
      | true =>
          have destroyed : before.db.table.destroyed table = true := by
            rcases reached with held | ⟨entry, inTable⟩
            · exact kept.target (before.target_current.trans held) isFreed
            · exact kept.entry inTable isFreed
          exact absurd (present.symm.trans destroyed) Bool.false_ne_true
  | remove table entry index keyed uncounted counted removing =>
      refine stays rfl rfl rfl rfl rfl ?_
      intro other otherKeyed otherUncounted otherRemoving
      obtain ⟨rfl, -, -⟩ := Pending.removing.inj otherRemoving
      exact kept.removing removing
  | keepTable | enter | beginStoring | endStoring =>
      exact stays rfl rfl rfl rfl rfl fun removing => Pending.noConfusion removing
  | _ => exact stays rfl rfl rfl rfl rfl kept.removing

end Changes

/-- Tables are under the hashes of their names. -/
def TablesNamed (hashString : Bytes → UInt32) (count : Nat)
    (hash : Nat → UInt32) (key : Nat → Bytes) (keyLength : Nat → Nat) : Prop :=
  ∀ table < count, hash table = hashString (key table) ∧
    keyLength table = (key table).length

def Work.TablesNamed (hashString : Bytes → UInt32) (work : Work kh) : Prop :=
  SimpleCache.TablesNamed hashString work.db.table.count work.db.table.hash
    work.db.table.key work.db.table.keyLength

section Named

variable {hashString : Bytes → UInt32} {allowed : Defect → Prop}
  {before after : Work kh}

theorem tablesNamed_new {count : Nat} {hash : Nat → UInt32}
    {key : Nat → Bytes} {keyLength : Nat → Nat}
    (named : TablesNamed hashString count hash key keyLength) {name : Bytes}
    (short : name.length < 16384) :
    TablesNamed hashString (count + 1)
      (Function.update hash count (hashString name))
      (Function.update key count name)
      (Function.update keyLength count (u16 name.length)) := by
  intro table allocated
  by_cases new : table = count
  · rw [new, Function.update_self, Function.update_self, Function.update_self]
    refine ⟨rfl, ?_⟩
    unfold u16
    omega
  · rw [Function.update_of_ne new, Function.update_of_ne new,
      Function.update_of_ne new]
    exact named table (by omega)

theorem Change.tablesNamed (apart : ¬allowed .tableCollision)
    (change : Change hashString allowed before after)
    (named : before.TablesNamed hashString) :
    after.TablesNamed hashString := by
  cases change with
  | createTable name hash null unused probed short =>
      obtain rfl := probed.resolve_right apart
      exact tablesNamed_new named short
  | loadCreateTable name hash null unused probed short =>
      obtain rfl := probed.resolve_right apart
      exact tablesNamed_new named short
  | _ => exact named

/-- A registered table is found by its name. -/
theorem dbTableGetRead_registered {db : Db kh} {table : Nat} {slot : UInt32}
    (named : db.table.hash table = hashString (db.table.key table) ∧
      db.table.keyLength table = (db.table.key table).length)
    (isHash : db.table.hash table = slot)
    (registered : kh.lookup db.tables slot = some table) :
    dbTableGetRead hashString db (db.table.key table) =
      .ok (dbTableIncref db table, some table) := by
  have found : kh.lookup db.tables (hashString (db.table.key table)) =
      some table := by
    rw [← named.1, isHash]
    exact registered
  have same : tableMatches db table (db.table.key table) = true := by
    unfold tableMatches
    rw [named.2, strncmpEqual_self]
    simp
  unfold dbTableGetRead probeTable
  simp only [found, same, if_true]
  rfl

end Named

theorem carries_tablesKept (env : Env) {allowed : Defect → Prop}
    (own : ¬allowed .clobber) : Carries env allowed Work.TablesKept where
  change := fun consistent change kept => change.tablesKept own consistent kept
  alike := by
    intro first second alike kept
    unfold Work.TablesKept Work.target at kept
    rw [alike.db, alike.connections, alike.aux, alike.pending] at kept
    exact kept
  outside := by
    intro server after event loaded outside sound run kept
    obtain ⟨⟨currentTime, currentUsec, flush, indexSave, same⟩, target, -⟩ :=
      serverStep_outside outside sound run
    unfold Work.TablesKept Work.target at kept ⊢
    rw [Work.connections_atRest] at kept ⊢
    have entry : after.db.entry = server.db.entry := by rw [same]; rfl
    have table : after.db.table = server.db.table := by rw [same]; rfl
    have tables : after.db.tables = server.db.tables := by rw [same]; rfl
    change SimpleCache.TablesKept after.db.tables after.db.table.count
      after.db.table.hash after.db.table.freed after.db.table.destroyed
      after.db.entry.table
      (fun connection => (after.connections connection).target) .null .idle
    rw [entry, table, tables, target]
    exact kept

theorem carries_tablesNamed (env : Env) {allowed : Defect → Prop}
    (apart : ¬allowed .tableCollision) :
    Carries env allowed (Work.TablesNamed env.hashString) where
  change := fun _ change named => change.tablesNamed apart named
  alike := by
    intro first second alike named
    unfold Work.TablesNamed at named
    rw [alike.db] at named
    exact named
  outside := by
    intro server after event loaded outside sound run named
    obtain ⟨⟨currentTime, currentUsec, flush, indexSave, same⟩, -, -⟩ :=
      serverStep_outside outside sound run
    have table : after.db.table = server.db.table := by rw [same]; rfl
    change SimpleCache.TablesNamed env.hashString after.db.table.count
      after.db.table.hash after.db.table.key after.db.table.keyLength
    rw [table]
    exact named

theorem tablesKept_blank (disk : Disk) (freeBlocks : List Nat)
    (blocksExist blocksFree : Nat) (blockfile : ByteFile) :
    (blankWork disk freeBlocks blocksExist blocksFree blockfile :
      Work kh).TablesKept := by
  have unfreed : ∀ table, (emptyDb disk : Db kh).table.freed table ≠ true :=
    fun _ => Bool.false_ne_true
  refine ⟨?_, ?_, ?_, ?_, ?_⟩
  · intro table allocated
    exact absurd allocated (Nat.not_lt_zero _)
  · intro connection table held isFreed
    exact absurd isFreed (unfreed table)
  · intro table held
    exact Aux.noConfusion held
  · intro entry table inTable isFreed
    exact absurd isFreed (unfreed table)
  · intro table keyed uncounted removing
    exact Pending.noConfusion removing

theorem tablesNamed_blank (hashString : Bytes → UInt32) (disk : Disk)
    (freeBlocks : List Nat) (blocksExist blocksFree : Nat)
    (blockfile : ByteFile) :
    (blankWork disk freeBlocks blocksExist blocksFree blockfile :
      Work kh).TablesNamed hashString := by
  intro table allocated
  exact absurd allocated (Nat.not_lt_zero _)

/-- A table that was registered under a hash is not released undestroyed. -/
def Work.Stays (table : Nat) (slot : UInt32) (work : Work kh) : Prop :=
  table < work.db.table.count ∧ work.db.table.hash table = slot ∧
    (work.db.table.freed table = true →
      work.db.table.destroyed table = true)

theorem Change.stays {hashString : Bytes → UInt32} {allowed : Defect → Prop}
    {before after : Work kh} (running : ¬allowed .opening)
    (change : Change hashString allowed before after)
    (consistent : before.Consistent) {table : Nat} {slot : UInt32}
    (stays : before.Stays table slot) : after.Stays table slot := by
  obtain ⟨allocated, isHash, kept⟩ := stays
  cases change with
  | createTable name hash =>
      refine ⟨Nat.lt_succ_of_lt allocated, ?_, fun isFreed => ?_⟩
      · exact (Function.update_of_ne allocated.ne ..).trans isHash
      · have isFreed : before.db.table.freed table = true :=
          (Function.update_of_ne allocated.ne ..).symm.trans isFreed
        exact (Function.update_of_ne allocated.ne ..).trans (kept isFreed)
  | loadCreateTable name hash =>
      exact absurd ‹allowed .opening› running
  | freeTable other idle unheld isDeleted =>
      refine ⟨allocated, isHash, fun isFreed => ?_⟩
      change before.db.table.destroyed table = true
      have isFreed : Function.update before.db.table.freed other true table =
          true := isFreed
      by_cases same : table = other
      · subst same
        rcases consistent.tables.deleted_destroyed isDeleted with
          destroyed | ⟨keyed, uncounted, removing⟩
        · exact destroyed
        · exact absurd (idle.symm.trans removing) Pending.noConfusion
      · rw [Function.update_of_ne same] at isFreed
        exact kept isFreed
  | loadFreeTable => exact absurd ‹allowed .opening› running
  | destroy other =>
      refine ⟨allocated, isHash, fun isFreed => ?_⟩
      change Function.update before.db.table.destroyed other true table = true
      by_cases same : table = other
      · rw [same, Function.update_self]
      · rw [Function.update_of_ne same]
        exact kept isFreed
  | _ => exact ⟨allocated, isHash, kept⟩

theorem carries_stays (env : Env) {allowed : Defect → Prop}
    (running : ¬allowed .opening) (table : Nat) (slot : UInt32) :
    Carries env allowed (Work.Stays table slot) where
  change := fun consistent change stays =>
    change.stays running consistent stays
  alike := by
    intro first second alike stays
    unfold Work.Stays at stays ⊢
    rw [← alike.db]
    exact stays
  outside := by
    intro server after event loaded outside sound run stays
    obtain ⟨⟨currentTime, currentUsec, flush, indexSave, same⟩, -, -⟩ :=
      serverStep_outside outside sound run
    have tables : after.db.table = server.db.table := by rw [same]; rfl
    change table < after.db.table.count ∧ after.db.table.hash table = slot ∧
      (after.db.table.freed table = true →
        after.db.table.destroyed table = true)
    rw [tables]
    exact stays

/-- What a step of a run needs for tables to stay registered: it lets go of a
deleted table only, and names do not collide. -/
def KeepsTables (env : Env) (server : Server env.kh) (event : Event) : Prop :=
  ReleasesOwn env server event ∧ NamesApart env.hashString server event

/-- Runs with every defect but these two. -/
def Apart (defect : Defect) : Prop :=
  defect ≠ .clobber ∧ defect ≠ .tableCollision

/-- The same, once the index is loaded. -/
def ApartRunning (defect : Defect) : Prop :=
  defect ≠ .opening ∧ Apart defect

theorem eventClear_of_keepsTables {env : Env} {allowed : Defect → Prop}
    (allows : ∀ defect, defect ≠ .opening → Apart defect → allowed defect)
    {server : Server env.kh} {event : Event}
    (keeps : KeepsTables env server event) :
    EventClear env allowed server event := by
  refine eventClear_of_avoids (fun {defect} anyRun => ?_) {
    deletes := Or.inl (allows _ (by simp) ⟨by simp, by simp⟩)
    announces := Or.inl (allows _ (by simp) ⟨by simp, by simp⟩)
    grows := Or.inl (allows _ (by simp) ⟨by simp, by simp⟩)
    sizes := Or.inl (allows _ (by simp) ⟨by simp, by simp⟩)
    keys := Or.inl (allows _ (by simp) ⟨by simp, by simp⟩)
    empties := Or.inl (allows _ (by simp) ⟨by simp, by simp⟩)
    releases := Or.inr keeps.1
    names := Or.inr keeps.2 }
  refine allows defect ?_ ⟨?_, ?_⟩ <;>
  · rintro rfl
    exact anyRun

theorem tablesSound_of_reachable (env : Env) {server : Server env.kh}
    (reachable : (serverMachine env
      (IndexClear env.kh env.hashString Apart)).Reachable (KeepsTables env)
        server) :
    server.Sound ∧ ∃ loaded, (Work.atRest server 0 loaded).TablesKept ∧
      (Work.atRest server 0 loaded).TablesNamed env.hashString := by
  have opening : Apart .opening := ⟨by simp, by simp⟩
  have kept := carries_tablesKept env
    (show ¬Apart .clobber from fun own => own.1 rfl)
  have named := carries_tablesNamed env
    (show ¬Apart .tableCollision from fun apart => apart.2 rfl)
  exact (kept.and named).runs opening
    (fun disk freeBlocks blocksExist blocksFree blockfile =>
      ⟨tablesKept_blank disk freeBlocks blocksExist blocksFree blockfile,
        tablesNamed_blank env.hashString disk freeBlocks blocksExist blocksFree
          blockfile⟩)
    (fun _ _ => eventClear_of_keepsTables fun _ _ apart => apart) reachable

/-- In every run whose names do not collide and that lets go of no deleted
table while another is registered under its hash, a registered table that is
not deleted stays registered, and is found by its name. -/
theorem registered_of_reachable (env : Env) {server later : Server env.kh}
    (reachable : (serverMachine env
      (IndexClear env.kh env.hashString Apart)).Reachable (KeepsTables env)
        server)
    (leads : (serverMachine env
      (IndexClear env.kh env.hashString Apart)).Leads (KeepsTables env)
        server later)
    {slot : UInt32} {table : Nat}
    (registered : env.kh.lookup server.db.tables slot = some table)
    (live : later.db.table.deleted table = false) :
    env.kh.lookup later.db.tables slot = some table ∧
      dbTableGetRead env.hashString later.db (later.db.table.key table) =
        .ok (dbTableIncref later.db table, some table) := by
  obtain ⟨sound, loaded, -⟩ := tablesSound_of_reachable env reachable
  obtain ⟨soundLater, loadedLater, kept, named⟩ :=
    tablesSound_of_reachable env (reachable.leads leads)
  have stays : (Work.atRest server 0 loaded).Stays table slot := by
    refine ⟨sound.consistent.tables.registered_lt registered,
      sound.consistent.tables.registered_hash registered, fun isFreed => ?_⟩
    have notFreed := sound.consistent.tables.registered_freed registered
    exact absurd (notFreed.symm.trans isFreed) Bool.false_ne_true
  have running : ¬ApartRunning .opening := fun opens => opens.1 rfl
  obtain ⟨allocated, isHash, released⟩ :=
    (carries_stays env running table slot).leads
      (fun _ _ _ => eventClear_of_keepsTables fun _ running apart =>
        ⟨running, apart⟩) sound stays leads
  have present : later.db.table.destroyed table = false := by
    cases destroyed : later.db.table.destroyed table with
    | false => rfl
    | true =>
        have isDeleted : later.db.table.deleted table = true :=
          soundLater.consistent.tables.destroyed_deleted destroyed
        exact absurd (live.symm.trans isDeleted) Bool.false_ne_true
  have unreleased : later.db.table.freed table = false := by
    cases isFreed : later.db.table.freed table with
    | false => rfl
    | true => exact absurd (present.symm.trans (released isFreed)) Bool.false_ne_true
  have still : env.kh.lookup later.db.tables slot = some table := by
    have atHash := kept.registered allocated present unreleased
    have isHash : later.db.table.hash table = slot := isHash
    change env.kh.lookup later.db.tables (later.db.table.hash table) =
      some table at atHash
    rwa [isHash] at atHash
  exact ⟨still, dbTableGetRead_registered (named table allocated) isHash still⟩

/-- The tests of a step that keeps tables registered. -/
def keepsTables (env : Env) (server : Server env.kh) (event : Event) : Bool :=
  releasesOwn env server event && namesApart env server event

theorem keepsTables_sound {env : Env} {server : Server env.kh} {event : Event}
    (passes : keepsTables env server event = true) :
    KeepsTables env server event := by
  obtain ⟨releases, names⟩ := Bool.and_eq_true_iff.mp passes
  exact ⟨releasesOwn_sound releases, namesApart_sound names⟩

/-- A deletion of a table, with its response. -/
def deletesTable (connection : Nat) (table : UInt8) : List Event :=
  [.request connection (.requestMethod (.known .delete)),
    .request connection (.tableOnly (letter table) noFlush),
    .request connection .endOfHeaders,
    .request connection (.writeReady (.sent 100))]

/-- A table is deleted while one of its keys is read.  The download ends, and
the table is created again; the other table stays registered, and so does the
new one while its key is read and replaced. -/
theorem registered_of_reachable_recreate :
    ∃ read created later : Server listHash,
      read.db.table.deleted 0 = true ∧
        heldTable read.db (read.connections 0).target = some 0 ∧
        listHash.lookup read.db.tables 97 = none ∧
        listHash.lookup created.db.tables 98 = some 1 ∧
        dbTableGetRead letterHash created.db (created.db.table.key 1) =
          .ok (dbTableIncref created.db 1, some 1) ∧
        created.db.table.freed 0 = true ∧
        listHash.lookup later.db.tables 97 = some 2 ∧
        dbTableGetRead letterHash later.db (later.db.table.key 2) =
          .ok (dbTableIncref later.db 2, some 2) := by
  let machine := serverMachine listEnv (IndexClear listHash letterHash Apart)
  let allows := keepsTables listEnv
  have ends : endsWithin emptyDisk allows
      ([.accept, .accept] ++ uploads 0 97 107 1 ++ uploads 1 98 107 2 ++
        resolves 0 .get 97 107 ++ deletesTable 1 97)
      (fun read => decide (read.db.table.deleted 0 = true ∧
        heldTable read.db (read.connections 0).target = some 0 ∧
        listHash.lookup read.db.tables 97 = none ∧
        listHash.lookup read.db.tables 98 = some 1) &&
        (machine.runWithin allows read
          (.request 0 .disconnect :: uploads 1 97 107 3)).any fun created =>
            decide (listHash.lookup created.db.tables 97 = some 2 ∧
              created.db.table.deleted 1 = false ∧
              created.db.table.freed 0 = true) &&
              (machine.runWithin allows created
                (.accept :: resolves 2 .get 97 107 ++ uploads 1 97 107 4)).any
                  fun later => decide (later.db.table.deleted 2 = false)) =
        true := by
    decide +kernel
  have empty : IndexClear listHash letterHash Apart emptyDisk := by
    intro text saved
    simp [emptyDisk] at saved
  obtain ⟨read, reachable, final⟩ :=
    reachable_of_endsWithin empty (fun _ _ => keepsTables_sound) ends
  obtain ⟨facts, final⟩ := Bool.and_eq_true_iff.mp final
  obtain ⟨isDeleted, held, unregistered, other⟩ := of_decide_eq_true facts
  obtain ⟨created, creates, final⟩ := (Option.any_eq_true ..).mp final
  obtain ⟨facts, final⟩ := Bool.and_eq_true_iff.mp final
  obtain ⟨registered, live, isFreed⟩ := of_decide_eq_true facts
  obtain ⟨later, continues, final⟩ := (Option.any_eq_true ..).mp final
  have leads : machine.Leads (KeepsTables listEnv) read created :=
    .runWithin (fun _ _ => keepsTables_sound) creates
  have leadsLater : machine.Leads (KeepsTables listEnv) created later :=
    .runWithin (fun _ _ => keepsTables_sound) continues
  obtain ⟨stays, found⟩ :=
    registered_of_reachable listEnv reachable leads other live
  exact ⟨read, created, later, isDeleted, held, unregistered, stays, found,
    isFreed, registered_of_reachable listEnv (reachable.leads leads) leadsLater
      registered (of_decide_eq_true final)⟩

/-- A download of a key, the deletion of its table, and an upload of the key to
a new table of the same name. -/
def recreateUnderReader : List Event :=
  [.accept, .accept] ++ uploads 0 97 107 120 ++ resolves 0 .get 97 107 ++
    [.request 1 (.requestMethod (.known .delete)),
      .request 1 (.tableOnly (letter 97) noFlush),
      .request 1 .endOfHeaders,
      .request 1 (.writeReady (.sent 100))] ++ uploads 1 97 107 121

/-- The download ends, and takes the new table away. -/
theorem registered_lost :
    ∃ server later : Server listHash,
      (serverMachine listEnv DistinctIndex).Reachable Machine.anyStep server ∧
      (serverMachine listEnv DistinctIndex).Leads Machine.anyStep server later ∧
      listHash.lookup server.db.tables 97 = some 1 ∧
      later.db.table.deleted 1 = false ∧
      listHash.lookup later.db.tables 97 = none := by
  have ends : endsWith recreateUnderReader (fun server =>
      ((serverMachine listEnv DistinctIndex).run server
        [.request 0 .disconnect]).toOption.any fun later =>
          decide (listHash.lookup server.db.tables 97 = some 1 ∧
            later.db.table.deleted 1 = false ∧
            listHash.lookup later.db.tables 97 = none)) = true := by
    decide +kernel
  have empty : DistinctIndex emptyDisk := by
    intro text saved
    simp [emptyDisk] at saved
  obtain ⟨server, reachable, final⟩ :=
    reachable_of_endsWith empty (fun _ _ _ => trivial) ends
  cases runs : (serverMachine listEnv DistinctIndex).run server
      [.request 0 .disconnect] with
  | error fault =>
      rw [runs] at final
      exact absurd final Bool.false_ne_true
  | ok later =>
      rw [runs] at final
      exact ⟨server, later, reachable,
        Machine.Leads.run (fun _ _ _ => trivial) runs,
        of_decide_eq_true final⟩

end SimpleCache
