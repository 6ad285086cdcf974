import SimpleCache.Abort
import SimpleCache.Counted
import SimpleCache.Limit

/-!
# Stores that runs reach

A request that is cut off, the sweep for expired entries and eviction are
described for stores in which tables and entries are found, and list and size
are exact.  Runs that keep list and size exact reach such stores, unless an
overflow of its counter has left an empty table registered without its key map.
-/

namespace SimpleCache

variable {kh : KHash}

/-- References to tables are counted in fifteen bits. -/
def Work.RefsSmall (work : Work kh) : Prop :=
  ∀ table, work.db.table.refs table < 32768

theorem refsSmall_update {refs : Nat → Nat} (small : ∀ table, refs table < 32768)
    (table : Nat) {value : Nat} (fits : value < 32768) (other : Nat) :
    Function.update refs table value other < 32768 := by
  by_cases same : other = table
  · rw [same, Function.update_self]
    exact fits
  · rw [Function.update_of_ne same]
    exact small other

theorem u15_lt (number : Nat) : u15 number < 32768 :=
  Nat.mod_lt _ (by decide)

section Changes

variable {hashString : Bytes → UInt32} {allowed : Defect → Prop}
  {before after : Work kh}

theorem Change.refsSmall (change : Change hashString allowed before after)
    (small : before.RefsSmall) : after.RefsSmall := by
  have new := refsSmall_update small before.db.table.count
    (show 1 < 32768 by decide)
  have counts : ∀ table value other,
      Function.update before.db.table.refs table (u15 value) other < 32768 :=
    fun table value => refsSmall_update small table (u15_lt value)
  have first : ∀ (table : Nat) (isFirst : Bool) (other : Nat),
      (if isFirst then Function.update before.db.table.refs table
        (u15 (before.db.table.refs table + 1)) else before.db.table.refs)
          other < 32768 := by
    intro table isFirst other
    split
    · exact counts table _ other
    · exact small other
  cases change with
  | takeTable table => exact counts table _
  | createTable => exact new
  | dropTable table => exact counts table _
  | loadTakeTable table => exact counts table _
  | loadCreateTable => exact new
  | loadDropTable table => exact counts table _
  | takeWithTable _ table => exact counts table _
  | dropWithTable _ table => exact counts table _
  | release _ table => exact counts table _
  | destroy table => exact counts table _
  | enter table _ isFirst => exact first table isFirst
  | load table => exact first table _
  | _ => exact small

end Changes

theorem carries_refsSmall (env : Env) (allowed : Defect → Prop) :
    Carries env allowed Work.RefsSmall where
  change := fun _ change small => change.refsSmall small
  alike := by
    intro first second alike small
    unfold Work.RefsSmall at small
    rw [alike.db] at small
    exact small
  outside := by
    intro server after event loaded outside sound run small
    obtain ⟨⟨currentTime, currentUsec, flush, indexSave, same⟩, -, -⟩ :=
      serverStep_outside outside sound run
    have table : after.db.table = server.db.table := by rw [same]; rfl
    change ∀ each, after.db.table.refs each < 32768
    rw [table]
    exact small

theorem refsSmall_blank (disk : Disk) (freeBlocks : List Nat)
    (blocksExist blocksFree : Nat) (blockfile : ByteFile) :
    (blankWork disk freeBlocks blocksExist blocksFree blockfile :
      Work kh).RefsSmall :=
  fun _ => (by decide : 0 < 32768)

/-- The registered tables without keys still have their key map. -/
def EmptyKeyed (db : Db kh) : Prop :=
  ∀ table, Tabled db table → kh.size (db.table.cacheHashSet table) = 0 →
    db.table.destroyed table = false

section AtRest

variable {server : Server kh} {loaded : Nat}

/-- A table that holds an entry has its key map. -/
theorem EmptyKeyed.present (keyed : EmptyKeyed server.db) (sound : server.Sound)
    (listed : (Work.atRest server 0 loaded).EntriesRegistered) {table : Nat}
    (tabled : Tabled server.db table) :
    server.db.table.destroyed table = false := by
  have keys := sound.consistent.keys
  by_cases empty : kh.size (server.db.table.cacheHashSet table) = 0
  · exact keyed table tabled empty
  · rw [BucketMap.size_eq_zero_iff] at empty
    push Not at empty
    obtain ⟨key, held⟩ := empty
    obtain ⟨entry, found⟩ := Option.ne_none_iff_exists'.mp held
    have inTable := keys.table_held found
    obtain ⟨other, otherEq, present, -⟩ :=
      listed entry (keys.table_lt inTable).1 (keys.live_held found)
    obtain rfl : table = other := Option.some.inj (inTable.symm.trans otherEq)
    exact present

theorem shelved_of_sound (sound : server.Sound)
    (listed : (Work.atRest server 0 loaded).EntriesRegistered)
    (small : (Work.atRest server 0 loaded).RefsSmall)
    (keyed : EmptyKeyed server.db) : Shelved server.db where
  tables := fun _ _ registered =>
    sound.consistent.tables.registered_hash registered
  entries := fun _ _ _ _ found =>
    ⟨sound.consistent.keys.hash_held found,
      sound.consistent.keys.table_held found⟩
  present := by
    intro table tabled
    have present := keyed.present sound listed tabled
    refine ⟨present, ?_, small table⟩
    cases isDeleted : server.db.table.deleted table with
    | false => rfl
    | true =>
        rcases sound.consistent.tables.deleted_destroyed isDeleted with
          destroyed | ⟨_, _, removing⟩
        · exact absurd (present.symm.trans destroyed) Bool.false_ne_true
        · exact Pending.noConfusion removing
  kept := by
    rintro table - entry ⟨key, held⟩
    exact sound.consistent.keys.live_held held

/-- The list holds the registered entries that are complete. -/
theorem listed_of_listing (sound : server.Sound)
    (listing : (Work.atRest server 0 loaded).Listing)
    (kept : (Work.atRest server 0 loaded).TablesKept) :
    ∃ order, server.db.lru.Represents order ∧ ∀ entry, entry ∈ order ↔
      Registered server.db entry ∧ server.db.entry.writing entry = false := by
  obtain ⟨registered, order, represents, members⟩ := listing
  refine ⟨order, represents, fun entry => (members entry).trans ?_⟩
  rw [← mem_liveEntries_registered sound registered kept, mem_liveEntries]
  exact and_assoc.symm

end AtRest

/-- What a step needs to keep the list exact and the other tables
registered. -/
structure KeepsOrder (env : Env) (server : Server env.kh) (event : Event) :
    Prop where
  deletes : DeletesLive server event
  releases : ReleasesOwn env server event

/-- Runs with every defect but those that harm list and tables. -/
abbrev Ordered (defect : Defect) : Prop :=
  defect ∉ [Defect.staleDelete, .keyCollision, .clobber]

theorem eventClear_of_keepsOrder {env : Env} {server : Server env.kh}
    {event : Event} (keeps : KeepsOrder env server event) :
    EventClear env Ordered server event := by
  refine eventClear_of_avoids (fun {defect} anyRun => ?_) {
    deletes := Or.inr keeps.deletes
    announces := Or.inl (by decide)
    grows := Or.inl (by decide)
    sizes := Or.inl (by decide)
    keys := Or.inl (by decide)
    empties := Or.inl (by decide)
    releases := Or.inr keeps.releases
    names := Or.inl (by decide) }
  cases defect <;> first | exact anyRun.elim | decide

/-- The stores in which a request can be cut off. -/
theorem inOrder_of_reachable (env : Env) {server : Server env.kh}
    (reachable : (serverMachine env
      (IndexClear env.kh env.hashString Ordered)).Reachable (KeepsOrder env)
        server)
    (keyed : EmptyKeyed server.db)
    (room : env.kh.size server.db.tables < 4294967296) :
    InOrder server.db := by
  have orderly : Orderly Ordered := ⟨by decide, by decide⟩
  have carries := ((carries_listing env orderly).and
    (carries_tablesKept env (show ¬Ordered .clobber by decide))).and
      (carries_refsSmall env Ordered)
  obtain ⟨sound, loaded, ⟨listing, kept⟩, small⟩ := carries.runs (by decide)
    (fun disk freeBlocks blocksExist blocksFree blockfile =>
      ⟨⟨listing_blank disk freeBlocks blocksExist blocksFree blockfile,
        tablesKept_blank disk freeBlocks blocksExist blocksFree blockfile⟩,
        refsSmall_blank disk freeBlocks blocksExist blocksFree blockfile⟩)
    (fun _ _ => eventClear_of_keepsOrder) reachable
  exact {
    toShelved := shelved_of_sound sound listing.1 small keyed
    lru := listed_of_listing sound listing kept
    room := room }

/-- The stores that are swept and collected. -/
theorem settled_of_reachable (env : Env) {server : Server env.kh}
    (reachable : (serverMachine env
      (IndexClear env.kh env.hashString Sized)).Reachable (KeepsSizes env)
        server)
    (keyed : EmptyKeyed server.db) : Settled server.db := by
  have orderly : Orderly Sized := ⟨by decide, by decide⟩
  have counts : CountsSizes Sized :=
    ⟨by decide, by decide, by decide, by decide⟩
  have carries := (((carries_listing env orderly).and
    (carries_tablesKept env (show ¬Sized .clobber by decide))).and
      (carries_sizesCounted env counts)).and (carries_refsSmall env Sized)
  obtain ⟨sound, loaded, ⟨⟨listing, kept⟩, counted⟩, small⟩ :=
    carries.runs (by decide)
      (fun disk freeBlocks blocksExist blocksFree blockfile =>
        ⟨⟨⟨listing_blank disk freeBlocks blocksExist blocksFree blockfile,
          tablesKept_blank disk freeBlocks blocksExist blocksFree blockfile⟩,
          sizesCounted_blank disk freeBlocks blocksExist blocksFree blockfile⟩,
          refsSmall_blank disk freeBlocks blocksExist blocksFree blockfile⟩)
      (fun _ _ => eventClear_of_keepsSizes) reachable
  exact {
    toShelved := shelved_of_sound sound listing.1 small keyed
    allocated := by
      rintro entry ⟨slot, table, -, key, held⟩
      have keys := sound.consistent.keys
      exact (keys.table_lt (keys.table_held held)).1
    lru := listed_of_listing sound listing kept
    sizes := ⟨liveEntries server.db.entry.count server.db.entry.deleted,
      fun _ => mem_liveEntries_registered sound listing.1 kept, counted.small,
      counted.total⟩ }

end SimpleCache
