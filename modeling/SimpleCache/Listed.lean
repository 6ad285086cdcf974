import SimpleCache.Checked
import SimpleCache.Opening

/-!
# The entries that are listed

As long as a `DELETE` finds the entry it removes undeleted, and the index names
no key of a table twice, an entry is in the key map of its table until it is
deleted, and in the LRU list from the end of its upload until then.
-/

namespace SimpleCache

variable {kh : KHash}

/-- An entry that is not deleted is under its hash in the map of its table,
which is not destroyed. -/
def EntriesRegistered (count : Nat) (deleted : Nat → Bool)
    (entryTable : Nat → Option Nat) (hash : Nat → UInt32)
    (cacheHashSet : Nat → kh.Map) (destroyed : Nat → Bool) : Prop :=
  ∀ entry < count, deleted entry = false → ∃ table,
    entryTable entry = some table ∧ destroyed table = false ∧
      kh.lookup (cacheHashSet table) (hash entry) = some entry

def Work.EntriesRegistered (work : Work kh) : Prop :=
  SimpleCache.EntriesRegistered work.db.entry.count work.db.entry.deleted
    work.db.entry.table work.db.entry.hash work.db.table.cacheHashSet
    work.db.table.destroyed

/-- The list holds the entries that are complete and not deleted. -/
def EntriesListed (lru : Links Nat) (count : Nat)
    (deleted writing : Nat → Bool) : Prop :=
  ∃ nodes, lru.Represents nodes ∧ ∀ entry, entry ∈ nodes ↔
    entry < count ∧ deleted entry = false ∧ writing entry = false

def Work.EntriesListed (work : Work kh) : Prop :=
  SimpleCache.EntriesListed work.db.lru work.db.entry.count
    work.db.entry.deleted work.db.entry.writing

/-- Neither a second removal nor a second entry under a key. -/
structure Orderly (allowed : Defect → Prop) : Prop where
  fresh : ¬allowed .staleDelete
  distinct : ¬allowed .keyCollision

section Registered

variable {hashString : Bytes → UInt32} {allowed : Defect → Prop}
  {before after : Work kh}

/-- A removal removes an entry that is still there. -/
theorem Orderly.live (orderly : Orderly allowed)
    (keys : before.KeysConsistent) {table entry : Nat}
    (fresh : before.db.entry.deleted entry = false ∨
      Holds before.db table entry ∨ allowed .staleDelete) :
    before.db.entry.deleted entry = false := by
  rcases fresh with live | ⟨key, held⟩ | stale
  · exact live
  · exact keys.live_held held
  · exact absurd stale orderly.fresh

theorem entriesRegistered_new {count : Nat} {deleted : Nat → Bool}
    {entryTable : Nat → Option Nat} {hash : Nat → UInt32}
    {cacheHashSet : Nat → kh.Map} {destroyed : Nat → Bool} {tableCount : Nat}
    (registered : EntriesRegistered count deleted entryTable hash cacheHashSet
      destroyed)
    (allocated : ∀ entry table, entryTable entry = some table →
      table < tableCount) (map : kh.Map) :
    EntriesRegistered count deleted entryTable hash
      (Function.update cacheHashSet tableCount map)
      (Function.update destroyed tableCount false) := by
  intro entry entryLt live
  obtain ⟨table, inTable, present, held⟩ := registered entry entryLt live
  refine ⟨table, inTable, ?_⟩
  rw [Function.update_of_ne (allocated entry table inTable).ne,
    Function.update_of_ne (allocated entry table inTable).ne]
  exact ⟨present, held⟩

theorem entriesRegistered_enter {db : Db kh} {table : Nat} {new : NewEntry}
    (registered : EntriesRegistered db.entry.count db.entry.deleted
      db.entry.table db.entry.hash db.table.cacheHashSet db.table.destroyed)
    (present : db.table.destroyed table = false)
    (unused : kh.lookup (db.table.cacheHashSet table) new.hash = none) :
    EntriesRegistered (db.entry.count + 1)
      (Function.update db.entry.deleted db.entry.count false)
      (Function.update db.entry.table db.entry.count (some table))
      (Function.update db.entry.hash db.entry.count new.hash)
      (Function.update db.table.cacheHashSet table
        (kh.put (db.table.cacheHashSet table) new.hash db.entry.count))
      db.table.destroyed := by
  intro entry entryLt live
  by_cases isNew : entry = db.entry.count
  · subst isNew
    refine ⟨table, Function.update_self .., present, ?_⟩
    rw [Function.update_self, Function.update_self, BucketMap.lookup_put,
      if_pos rfl]
  · rw [Function.update_of_ne isNew] at live
    obtain ⟨held, inTable, kept, found⟩ := registered entry (by omega) live
    refine ⟨held, ?_, kept, ?_⟩
    · rw [Function.update_of_ne isNew]
      exact inTable
    · rw [Function.update_of_ne isNew]
      by_cases same : held = table
      · subst same
        rw [Function.update_self, BucketMap.lookup_put, if_neg]
        · exact found
        · intro sameHash
          rw [sameHash, unused] at found
          simp at found
      · rw [Function.update_of_ne same]
        exact found

theorem entriesRegistered_remove (keys : before.KeysConsistent)
    (registered : before.EntriesRegistered) {table entry index : Nat}
    (inTable : before.db.entry.table entry = some table)
    (found : kh.value (before.db.table.cacheHashSet table) index = some entry ∨
      index = kh.find (before.db.table.cacheHashSet table)
        (before.db.entry.hash entry))
    (live : before.db.entry.deleted entry = false) :
    EntriesRegistered before.db.entry.count
      (Function.update before.db.entry.deleted entry true)
      before.db.entry.table before.db.entry.hash
      (Function.update before.db.table.cacheHashSet table
        (kh.del (before.db.table.cacheHashSet table) index))
      before.db.table.destroyed := by
  have entryLt := (keys.table_lt inTable).1
  obtain ⟨own, ownTable, -, held⟩ := registered entry entryLt live
  obtain rfl : own = table := Option.some.inj (ownTable.symm.trans inTable)
  have isIndex := keys.find_of_found found held
  intro other otherLt otherLive
  have different : other ≠ entry := by
    rintro rfl
    rw [Function.update_self] at otherLive
    simp at otherLive
  rw [Function.update_of_ne different] at otherLive
  obtain ⟨otherTable, inOther, present, foundOther⟩ :=
    registered other otherLt otherLive
  refine ⟨otherTable, inOther, present, ?_⟩
  by_cases same : otherTable = own
  · subst same
    rw [Function.update_self, BucketMap.lookup_del, if_neg]
    · exact foundOther
    · rw [← isIndex]
      refine BucketMap.find_ne_of_lookup ?_ foundOther
      intro sameHash
      rw [sameHash, held] at foundOther
      exact different (Option.some.inj foundOther).symm
  · rw [Function.update_of_ne same]
    exact foundOther

theorem Change.entriesRegistered (orderly : Orderly allowed)
    (change : Change hashString allowed before after)
    (consistent : before.Consistent) (registered : before.EntriesRegistered) :
    after.EntriesRegistered := by
  obtain ⟨tables, keys, -⟩ := consistent
  have undestroyed : ∀ {table}, before.db.table.deleted table = false →
      before.db.table.destroyed table = false := by
    intro table live
    cases destroyed : before.db.table.destroyed table with
    | false => rfl
    | true =>
        have isDeleted := tables.destroyed_deleted destroyed
        exact absurd (live.symm.trans isDeleted) Bool.false_ne_true
  cases change with
  | createTable name hash =>
      exact entriesRegistered_new registered
        (fun entry table inTable => (keys.table_lt inTable).2) kh.empty
  | loadCreateTable name hash =>
      exact entriesRegistered_new registered
        (fun entry table inTable => (keys.table_lt inTable).2) kh.empty
  | remove table entry index keyed uncounted counted removing inTable present
      found fresh =>
      exact entriesRegistered_remove keys registered inTable found
        (orderly.live keys fresh)
  | detach entry table inTable gone isDeleted =>
      intro other otherLt live
      obtain ⟨held, inHeld, found⟩ := registered other otherLt live
      refine ⟨held, ?_, found⟩
      change Function.update _ _ _ _ = _
      rw [Function.update_of_ne]
      · exact inHeld
      · rintro rfl
        exact Bool.false_ne_true (live.symm.trans isDeleted)
  | enter table new first counted null live held empty keyed room unused =>
      exact entriesRegistered_enter registered (undestroyed live) unused
  | load table new it held live unloaded placed unused =>
      exact entriesRegistered_enter registered (undestroyed live)
        (unused.resolve_right orderly.distinct)
  | destroy table keyed uncounted removing isDeleted removed =>
      intro entry entryLt live
      obtain ⟨held, inTable, present, found⟩ := registered entry entryLt live
      refine ⟨held, inTable, ?_, found⟩
      change Function.update _ _ _ _ = _
      rw [Function.update_of_ne]
      · exact present
      · rintro rfl
        exact Bool.false_ne_true
          (live.symm.trans (removed entry ⟨_, found⟩))
  | _ => exact registered

end Registered

section Listed

variable {hashString : Bytes → UInt32} {allowed : Defect → Prop}
  {before after : Work kh}

/-- The list does not change where its members do not. -/
theorem entriesListed_congr {lru : Links Nat} {count countAfter : Nat}
    {deleted deletedAfter writing writingAfter : Nat → Bool}
    (listed : EntriesListed lru count deleted writing)
    (same : ∀ entry, (entry < countAfter ∧ deletedAfter entry = false ∧
        writingAfter entry = false) ↔
      entry < count ∧ deleted entry = false ∧ writing entry = false) :
    EntriesListed lru countAfter deletedAfter writingAfter := by
  obtain ⟨nodes, represents, members⟩ := listed
  exact ⟨nodes, represents, fun entry => (members entry).trans (same entry).symm⟩

theorem entriesListed_unlink {lru : Links Nat} {count : Nat}
    {deleted deletedAfter writing : Nat → Bool} {entry : Nat}
    (listed : EntriesListed lru count deleted writing)
    (member : entry < count ∧ deleted entry = false ∧ writing entry = false)
    (same : ∀ other, (other < count ∧ deletedAfter other = false ∧
        writing other = false) ↔ other ≠ entry ∧
          (other < count ∧ deleted other = false ∧ writing other = false)) :
    EntriesListed (lru.unlink entry) count deletedAfter writing := by
  obtain ⟨nodes, represents, members⟩ := listed
  obtain ⟨front, back, rfl⟩ := List.append_of_mem ((members entry).mpr member)
  refine ⟨front ++ back, represents.unlink, fun other => ?_⟩
  have nodup := represents.nodup
  have absent : entry ∉ front ++ back :=
    (List.nodup_cons.mp (List.nodup_middle.mp nodup)).1
  rw [same other, ← members other]
  constructor
  · intro isOther
    refine ⟨fun isEntry => absent (isEntry ▸ isOther), ?_⟩
    rcases List.mem_append.mp isOther with inFront | inBack
    · exact List.mem_append_left _ inFront
    · exact List.mem_append_right _ (List.mem_cons_of_mem _ inBack)
  · rintro ⟨different, isOther⟩
    rcases List.mem_append.mp isOther with inFront | inBack
    · exact List.mem_append_left _ inFront
    · rcases List.mem_cons.mp inBack with isEntry | inBack
      · exact absurd isEntry different
      · exact List.mem_append_right _ inBack

theorem entriesListed_append {lru : Links Nat} {count countAfter : Nat}
    {deleted deletedAfter writing writingAfter : Nat → Bool} {entry : Nat}
    (listed : EntriesListed lru count deleted writing)
    (absent : ¬(entry < count ∧ deleted entry = false ∧ writing entry = false))
    (same : ∀ other, (other < countAfter ∧ deletedAfter other = false ∧
        writingAfter other = false) ↔ other = entry ∨
          (other < count ∧ deleted other = false ∧ writing other = false)) :
    EntriesListed (lru.append entry) countAfter deletedAfter writingAfter := by
  obtain ⟨nodes, represents, members⟩ := listed
  have fresh : entry ∉ nodes := fun member => absent ((members entry).mp member)
  refine ⟨nodes ++ [entry], represents.append fresh, fun other => ?_⟩
  rw [same other, ← members other, List.mem_append, List.mem_singleton,
    or_comm]

/-- A new entry is linked to nothing. -/
theorem entriesListed_clear {lru : Links Nat} {count : Nat}
    {deleted writing : Nat → Bool}
    (listed : EntriesListed lru count deleted writing) :
    EntriesListed { lru with
      next := Function.update lru.next count none
      prev := Function.update lru.prev count none } count deleted
        writing := by
  obtain ⟨nodes, represents, members⟩ := listed
  refine ⟨nodes, represents.clear fun member => ?_, members⟩
  exact lt_irrefl _ ((members count).mp member).1

theorem Change.entriesListed (orderly : Orderly allowed)
    (change : Change hashString allowed before after)
    (consistent : before.Consistent) (listed : before.EntriesListed) : after.EntriesListed := by
  cases change with
  | remove table entry index keyed uncounted counted removing inTable present
      found fresh =>
      have live := orderly.live consistent.keys fresh
      have entryLt := (consistent.keys.table_lt inTable).1
      change EntriesListed
        (if before.db.entry.writing entry then before.db.lru
          else before.db.lru.unlink entry) before.db.entry.count
        (Function.update before.db.entry.deleted entry true)
        before.db.entry.writing
      split
      · next isWriting =>
          refine entriesListed_congr listed fun other => ?_
          by_cases same : other = entry
          · simp [same, isWriting]
          · rw [Function.update_of_ne same]
      · next complete =>
          have complete : before.db.entry.writing entry = false := by
            simpa using complete
          refine entriesListed_unlink listed ⟨entryLt, live, complete⟩
            fun other => ?_
          by_cases same : other = entry
          · simp [same]
          · rw [Function.update_of_ne same]
            simp [same]
  | enter table new first counted null live held =>
      refine entriesListed_congr (entriesListed_clear listed) fun entry => ?_
      change (entry < before.db.entry.count + 1 ∧
        Function.update before.db.entry.deleted before.db.entry.count false
          entry = false ∧
        Function.update (Function.update before.db.entry.writing
          before.db.entry.count false) before.db.entry.count true entry =
            false) ↔ _
      by_cases isNew : entry = before.db.entry.count
      · simp [isNew]
      · rw [Function.update_of_ne isNew, Function.update_of_ne isNew,
          Function.update_of_ne isNew]
        have same : entry < before.db.entry.count + 1 ↔
            entry < before.db.entry.count := by omega
        rw [same]
  | load table new it held live unloaded placed unused =>
      refine entriesListed_append (entriesListed_clear listed) (by simp)
        fun entry => ?_
      change (entry < before.db.entry.count + 1 ∧
        Function.update before.db.entry.deleted before.db.entry.count false
          entry = false ∧
        Function.update before.db.entry.writing before.db.entry.count false
          entry = false) ↔ _
      by_cases isNew : entry = before.db.entry.count
      · simp [isNew]
      · rw [Function.update_of_ne isNew, Function.update_of_ne isNew]
        have same : entry < before.db.entry.count + 1 ↔
            entry < before.db.entry.count := by omega
        rw [same]
        simp [isNew]
  | hit entry table held complete =>
      obtain ⟨key, held⟩ := held
      have live := consistent.keys.live_held held
      have entryLt :=
        (consistent.keys.table_lt (consistent.keys.table_held held)).1
      have unlinked : EntriesListed (before.db.lru.unlink entry)
          before.db.entry.count
          (Function.update before.db.entry.deleted entry true)
          before.db.entry.writing := by
        refine entriesListed_unlink listed ⟨entryLt, live, complete⟩
          fun other => ?_
        by_cases same : other = entry
        · simp [same]
        · rw [Function.update_of_ne same]
          simp [same]
      refine entriesListed_append unlinked (by simp) fun other => ?_
      change (other < before.db.entry.count ∧
        before.db.entry.deleted other = false ∧
        before.db.entry.writing other = false) ↔ _
      by_cases same : other = entry
      · rw [same]
        exact ⟨fun _ => Or.inl rfl, fun _ => ⟨entryLt, live, complete⟩⟩
      · rw [Function.update_of_ne same, or_iff_right same]
  | skip entry head unlisted =>
      obtain ⟨nodes, represents, members⟩ := listed
      have member : entry ∈ nodes :=
        List.mem_of_mem_head? (represents.head_eq.symm.trans head)
      obtain ⟨-, live, complete⟩ := (members entry).mp member
      rcases unlisted with isWriting | isDeleted
      · exact absurd (isWriting.symm.trans complete) Bool.noConfusion
      · exact absurd (isDeleted.symm.trans live) Bool.noConfusion
  | complete entry held isWriting =>
      have isTarget := before.target_current.trans held
      obtain ⟨other, isOther, writing⟩ := consistent.holders.writes
        (before.isWriting_current.trans isWriting)
      obtain rfl : other = entry := by
        rw [isTarget] at isOther
        exact (Held.entry.inj isOther).symm
      have entryLt : other < before.db.entry.count :=
        consistent.holders.target_entry isTarget
      change EntriesListed
        (if before.db.entry.deleted other then before.db.lru
          else before.db.lru.append other) before.db.entry.count
        before.db.entry.deleted
        (Function.update before.db.entry.writing other false)
      split
      · next isDeleted =>
          refine entriesListed_congr listed fun entry => ?_
          by_cases same : entry = other
          · simp [same, isDeleted]
          · rw [Function.update_of_ne same]
      · next live =>
          have live : before.db.entry.deleted other = false := by
            simpa using live
          refine entriesListed_append listed (by simp [writing])
            fun entry => ?_
          by_cases same : entry = other
          · simp [same, entryLt, live]
          · rw [Function.update_of_ne same, or_iff_right same]
  | abandon entry held isWriting isDeleted =>
      refine entriesListed_congr listed fun other => ?_
      change (other < before.db.entry.count ∧
        before.db.entry.deleted other = false ∧
        Function.update before.db.entry.writing entry false other = false) ↔ _
      by_cases same : other = entry
      · simp [same, isDeleted]
      · rw [Function.update_of_ne same]
  | _ => exact listed

end Listed

/-- Both at once. -/
def Work.Listing (work : Work kh) : Prop :=
  work.EntriesRegistered ∧ work.EntriesListed

theorem carries_listing (env : Env) {allowed : Defect → Prop}
    (orderly : Orderly allowed) :
    Carries env allowed Work.Listing where
  change := fun consistent change listing =>
    ⟨Change.entriesRegistered orderly change consistent listing.1,
      Change.entriesListed orderly change consistent listing.2⟩
  alike := by
    rintro first second alike ⟨registered, listed⟩
    unfold Work.EntriesRegistered at registered
    unfold Work.EntriesListed at listed
    rw [alike.db] at registered listed
    exact ⟨registered, listed⟩
  outside := by
    rintro server after event loaded outside sound run ⟨registered, listed⟩
    obtain ⟨⟨currentTime, currentUsec, flush, indexSave, same⟩, -, -⟩ :=
      serverStep_outside outside sound run
    unfold Work.Listing Work.EntriesRegistered Work.EntriesListed
    change SimpleCache.EntriesRegistered after.db.entry.count
      after.db.entry.deleted after.db.entry.table after.db.entry.hash
      after.db.table.cacheHashSet after.db.table.destroyed ∧
      SimpleCache.EntriesListed after.db.lru after.db.entry.count
        after.db.entry.deleted after.db.entry.writing
    rw [same]
    exact ⟨registered, listed⟩

theorem listing_blank (disk : Disk) (freeBlocks : List Nat)
    (blocksExist blocksFree : Nat) (blockfile : ByteFile) :
    (blankWork disk freeBlocks blocksExist blocksFree blockfile :
      Work kh).Listing := by
  constructor
  · intro entry allocated
    exact absurd allocated (Nat.not_lt_zero _)
  · refine ⟨[], Links.represents_empty, fun entry => ?_⟩
    constructor
    · intro member
      exact absurd member List.not_mem_nil
    · rintro ⟨allocated, -⟩
      exact absurd allocated (Nat.not_lt_zero _)

/-- In the key map of its table. -/
def InKeyMap (db : Db kh) (entry : Nat) : Prop :=
  ∃ table, db.entry.table entry = some table ∧
    db.table.destroyed table = false ∧
    kh.lookup (db.table.cacheHashSet table) (db.entry.hash entry) = some entry

/-- The list is well formed and holds each entry of a key map that is neither
being written nor deleted once. -/
def LruExact (db : Db kh) : Prop :=
  ∃ nodes : List Nat, nodes.Nodup ∧
    Links.Follows db.lru.next db.lru.head nodes ∧
    Links.Follows db.lru.prev db.lru.tail nodes.reverse ∧
    ∀ entry, entry ∈ nodes ↔ InKeyMap db entry ∧
      db.entry.writing entry = false ∧ db.entry.deleted entry = false

theorem lruExact_of_listing {server : Server kh} {loaded : Nat}
    (sound : server.Sound)
    (listing : (Work.atRest server 0 loaded).Listing) :
    LruExact server.db := by
  obtain ⟨registered, nodes, represents, members⟩ := listing
  refine ⟨nodes, represents.nodup, represents.follows_next,
    represents.follows_prev, fun entry => (members entry).trans ?_⟩
  constructor
  · rintro ⟨entryLt, live, complete⟩
    exact ⟨registered entry entryLt live, complete, live⟩
  · rintro ⟨⟨table, inTable, -⟩, complete, live⟩
    have inTable : (Work.atRest server 0 0).db.entry.table entry =
        some table := inTable
    exact ⟨(sound.consistent.keys.table_lt inTable).1, live, complete⟩

/-- Runs with every defect but removals of what is gone, and indexes that name
a key hash of a table twice. -/
def Fresh (defect : Defect) : Prop :=
  defect ≠ .staleDelete ∧ defect ≠ .keyCollision

theorem orderly_fresh : Orderly Fresh where
  fresh := fun stale => stale.1 rfl
  distinct := fun repeats => repeats.2 rfl

theorem fresh_of_anyRun {defect : Defect} (anyRun : defect.ofAnyRun) :
    Fresh defect := by
  constructor
  · rintro rfl
    exact anyRun
  · rintro rfl
    exact anyRun

/-- In every run from an index that names no key hash of a table twice, whose
key `DELETE`s find their entries undeleted, the list is exact. -/
theorem lruExact_of_reachable (env : Env) {server : Server env.kh}
    (reachable : (serverMachine env
      (IndexClear env.kh env.hashString Fresh)).Reachable DeletesLive server) :
    LruExact server.db := by
  have opening : Fresh .opening := ⟨by simp, by simp⟩
  obtain ⟨sound, loaded, listing⟩ :=
    (carries_listing env orderly_fresh).runs opening listing_blank
      (fun server event deletesLive =>
        eventClear_of_avoids fresh_of_anyRun {
          deletes := Or.inr deletesLive
          announces := Or.inl ⟨by simp, by simp⟩
          grows := Or.inl ⟨by simp, by simp⟩
          sizes := Or.inl ⟨by simp, by simp⟩
          keys := Or.inl ⟨by simp, by simp⟩
          empties := Or.inl ⟨by simp, by simp⟩
          releases := Or.inl ⟨by simp, by simp⟩
          names := Or.inl ⟨by simp, by simp⟩ }) reachable
  exact lruExact_of_listing sound listing

/-- A key of the index is replaced and another one deleted, and a third one is
replaced while it is read. -/
theorem lruExact_of_reachable_replace :
    ∃ server : Server listHash,
      server.db.entry.count = 6 ∧ server.db.entry.deleted 1 = true ∧
        (server.connections 1).target = .entry 3 ∧
        server.db.entry.deleted 3 = true ∧
        server.db.entry.deleted 4 = false ∧
        server.db.entry.writing 4 = false ∧ LruExact server.db := by
  have ends : endsWithin twoTablesDisk deletesLive replaceUnderReader
      (fun server => decide (server.db.entry.count = 6 ∧
        server.db.entry.deleted 1 = true ∧
        (server.connections 1).target = .entry 3 ∧
        server.db.entry.deleted 3 = true ∧
        server.db.entry.deleted 4 = false ∧
        server.db.entry.writing 4 = false)) = true := by
    decide +kernel
  have tables : Fresh .tableCollision := ⟨by simp, by simp⟩
  obtain ⟨server, reachable, final⟩ := reachable_of_endsWithin
    (indexClear_twoTables tables) (fun _ _ => deletesLive_sound) ends
  obtain ⟨count, gone, reads, replaced, live, complete⟩ :=
    of_decide_eq_true final
  exact ⟨server, count, gone, reads, replaced, live, complete,
    lruExact_of_reachable listEnv reachable⟩

/-- Two uploads, and two requests that delete the first of the keys. -/
def deleteTwice : List Event :=
  [.accept, .accept] ++ uploads 0 97 107 120 ++ uploads 0 97 108 120 ++
    resolves 0 .delete 97 107 ++ resolves 1 .delete 97 107 ++
    [.request 0 .endOfHeaders, .request 1 .endOfHeaders]

/-- The second of two removals of one entry empties the list. -/
theorem lruExact_lost :
    ∃ server, (serverMachine listEnv DistinctIndex).Reachable Machine.anyStep
      server ∧ ¬LruExact server.db := by
  have ends : endsWith deleteTwice (fun server =>
      decide (server.db.lru.head = none ∧
        server.db.entry.table 1 = some 0 ∧
        server.db.table.destroyed 0 = false ∧
        listHash.lookup (server.db.table.cacheHashSet 0)
          (server.db.entry.hash 1) = some 1 ∧
        server.db.entry.writing 1 = false ∧
        server.db.entry.deleted 1 = false)) = true := by
    decide +kernel
  have empty : DistinctIndex emptyDisk := by
    intro text saved
    simp [emptyDisk] at saved
  obtain ⟨server, reachable, final⟩ :=
    reachable_of_endsWith empty (fun _ _ _ => trivial) ends
  obtain ⟨noHead, inTable, present, held, complete, live⟩ :=
    of_decide_eq_true final
  refine ⟨server, reachable, ?_⟩
  rintro ⟨nodes, -, forward, -, members⟩
  have member := (members 1).mpr ⟨⟨0, inTable, present, held⟩, complete, live⟩
  rw [noHead] at forward
  cases nodes with
  | nil => exact List.not_mem_nil member
  | cons node rest => exact forward

end SimpleCache
