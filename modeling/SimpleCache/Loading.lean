import Mathlib.Algebra.Ring.Nat
import Mathlib.Data.List.TakeWhile
import SimpleCache.Names

/-!
# What loading an index leaves

The loader takes the lines of `index.save` one after the other and trusts them:
a key that is named twice is entered twice, two entries may name one block, and
a table line that cannot be read leaves the table of the line before it in
force.  The store it leaves is sound exactly when no line does one of these.
-/

namespace SimpleCache

variable {kh : KHash}

/-- The loader, and what the lines above said: the name on the last table line,
if it can be read, and for each entry the name on the last table line above
it. -/
structure Tracing (kh : KHash) where
  loading : Loading kh
  nearest : Option Bytes
  origin : Nat → Option Bytes

/-- A line that the loader takes for a table line. -/
def isTableLine : Bytes → Bool
  | kind :: colon :: _ :: _ =>
      kind == charByte 't' && colon == charByte ':'
  | _ => false

def nearestAfter (nearest : Option Bytes) (line : Bytes) : Option Bytes :=
  if isTableLine line then
    match parseLine line with
    | .table name => some name
    | _ => none
  else nearest

def traceLine (hashString : Bytes → UInt32) (tracing : Tracing kh)
    (line : Bytes) : Except Fault (Tracing kh) := do
  let before := tracing.loading.db.entry.count
  let loading ← loadLine hashString tracing.loading line
  return {
    loading
    nearest := nearestAfter tracing.nearest line
    origin :=
      if loading.db.entry.count = before then tracing.origin
      else Function.update tracing.origin before tracing.nearest }

def traceLines (hashString : Bytes → UInt32) (tracing : Tracing kh)
    (lines : List Bytes) : Except Fault (Tracing kh) :=
  lines.foldlM (traceLine hashString) tracing

def Tracing.start (db : Db kh) : Tracing kh where
  loading := { db, table := none, blockInUse := [] }
  nearest := none
  origin := fun _ => none

/-- The entry is in the key map of a registered table. -/
def Registered (db : Db kh) (entry : Nat) : Prop :=
  ∃ slot table, kh.lookup db.tables slot = some table ∧ Holds db table entry

/-- The list holds the registered entries once each, the counters count them,
no block has two owners or is free, and every entry belongs to the table it was
listed under. -/
structure LoadsWell (origin : Nat → Option Bytes) (db : Db kh) : Prop where
  counted : ∃ entries, db.lru.Represents entries ∧
    (∀ entry, entry ∈ entries ↔ Registered db entry) ∧
    db.dbKeys = entries.length ∧
    db.dbSizeBytes = (entries.map db.entry.dataLength).sum
  blocks : ∀ {first second}, Registered db first → Registered db second →
    0 ≤ db.entry.block first →
    db.entry.block first = db.entry.block second → first = second
  owned : ∀ {entry}, Registered db entry → 0 ≤ db.entry.block entry →
    (db.entry.block entry).toNat ∉ db.freeBlocks
  tables : ∀ {slot table entry}, kh.lookup db.tables slot = some table →
    Holds db table entry → origin entry = some (db.table.key table)

/-- The file of an entry that an index names. -/
def loadedPath (db : Db kh) (table : Nat) (hash : UInt32) (it : Nat) :
    KeyPath where
  letter1 := hash.toNat % 26
  letter2 := hash.toNat / 256 % 26
  hashes := Nat.toDigits 16 (db.table.hash table).toNat ++
    Nat.toDigits 16 hash.toNat
  it

/-- The loader accepts entries whose file or block exists. -/
def Accepts (db : Db kh) (table : Nat) (hash : UInt32) (block : Int)
    (it : Nat) : Prop :=
  if block < 0 then db.disk.paths (loadedPath db table hash it) ≠ none
  else u32OfInt block < db.blocksExist

/-- The store before the table of a table line is looked up. -/
def Loading.closed (loading : Loading kh) : Db kh :=
  closeLoadedTable loading.db loading.table

/-- What a line must not do: overrun the buffer, or probe without end; name a
key or a block again, come after a table line that cannot be read, or overflow
a counter with an entry that is accepted. -/
def LineSafe (hashString : Bytes → UInt32) (tracing : Tracing kh)
    (line : Bytes) : Prop :=
  match parseLine line, tracing.loading.table with
  | .table name, _ =>
      name.length < loadBufferLength ∧
        ∃ found, probeTable tracing.loading.closed name
          (kh.size tracing.loading.closed.tables + 1) (hashString name) =
            .ok found
  | .entry block dataLength _ it key, some table =>
      let db := tracing.loading.db
      key.length < loadBufferLength ∧
        (Accepts db table (hashString key) block it →
          kh.lookup (db.table.cacheHashSet table) (hashString key) = none ∧
          (0 ≤ block → block.toNat ∉ tracing.loading.blockInUse) ∧
          tracing.nearest ≠ none ∧
          db.dbKeys + 1 < 18446744073709551616 ∧
          db.dbSizeBytes + dataLength < 18446744073709551616)
  | _, _ => True

/-- Every line is safe where the loader takes it. -/
def LinesSafe (hashString : Bytes → UInt32) :
    Tracing kh → List Bytes → Prop
  | _, [] => True
  | tracing, line :: lines =>
      LineSafe hashString tracing line ∧
        ∀ next, traceLine hashString tracing line = .ok next →
          LinesSafe hashString next lines

/-- The store with an accepted entry. -/
def Db.load (db : Db kh) (table : Nat) (new : NewEntry) (it : Nat) : Db kh :=
  let entered := (db.enter table new
    (kh.size (db.table.cacheHashSet table) = 0)).setIt db.entry.count it
  { entered with
    dbKeys := u64 (db.dbKeys + 1)
    dbSizeBytes := u64 (db.dbSizeBytes + new.dataLength)
    lru := entered.lru.append db.entry.count }

/-- The store with a skipped entry. -/
def Db.skip (db : Db kh) : Db kh := { db with nextit := u16 (db.nextit + 1) }

def Loading.accept (loading : Loading kh) (table : Nat) (new : NewEntry)
    (it : Nat) : Loading kh :=
  { loading with
    db := loading.db.load table new it
    blockInUse :=
      if new.block < 0 then loading.blockInUse
      else new.block.toNat :: loading.blockInUse }

section Entry

variable (db : Db kh) (table : Nat)

theorem dbLoadFromSaveEntry_path (new : NewEntry) (it : Nat) :
    getKeyPath (dbLoadFromSaveEntry db table new it).1
        (dbLoadFromSaveEntry db table new it).2 =
      .ok (loadedPath db table new.hash it) := by
  simp [dbLoadFromSaveEntry, getKeyPath, entryTable, dbEntryNew, keyPathIn,
    loadedPath, bind, Except.bind, pure, Except.pure]

theorem dbLoadFromSaveEntry_kept (new : NewEntry) (it : Nat) :
    (dbLoadFromSaveEntry db table new it).1.disk = db.disk ∧
      (dbLoadFromSaveEntry db table new it).1.nextit =
        u16 (db.nextit + 1) :=
  ⟨rfl, rfl⟩

theorem dbLoadFromSaveInsert_eq (new : NewEntry) (it : Nat)
    (present : db.table.destroyed table = false) :
    ∃ inserted : Db kh,
      dbLoadFromSaveInsert (dbLoadFromSaveEntry db table new it).1 table
        (dbLoadFromSaveEntry db table new it).2 = .ok inserted ∧
      dbLruInsert inserted (dbLoadFromSaveEntry db table new it).2 =
        db.load table new it := by
  have one : u16 (0 + 1) = 1 := rfl
  by_cases empty : kh.size (db.table.cacheHashSet table) = 0
  · simp [dbLoadFromSaveEntry, dbLoadFromSaveInsert, keyMap, dbEntryNew,
      present, empty, bind, Except.bind, dbTableIncref, setKeyMap,
      dbEntryIncref, pure, Except.pure, dbLruInsert, Db.load, Db.enter,
      Db.setIt, one]
  · simp [dbLoadFromSaveEntry, dbLoadFromSaveInsert, keyMap, dbEntryNew,
      present, empty, bind, Except.bind, setKeyMap, dbEntryIncref, pure,
      Except.pure, dbLruInsert, Db.load, Db.enter, Db.setIt, one]

end Entry

instance (db : Db kh) (table : Nat) (hash : UInt32) (block : Int) (it : Nat) :
    Decidable (Accepts db table hash block it) := by
  unfold Accepts
  infer_instance

/-- What a line asks the loader to enter. -/
def listedEntry (hashString : Bytes → UInt32) (block : Int)
    (dataLength expires : Nat) (key : Bytes) : NewEntry where
  hash := hashString key
  key
  block
  dataLength
  expires

theorem loadEntry_eq {hashString : Bytes → UInt32} {loading : Loading kh}
    {table : Nat} {block : Int} {dataLength expires it : Nat} {key : Bytes}
    (current : loading.table = some table)
    (present : loading.db.table.destroyed table = false) :
    loadEntry hashString loading block dataLength expires it key =
      if loadBufferLength ≤ key.length then .error .overrun
      else if Accepts loading.db table (hashString key) block it then
        .ok (loading.accept table
          (listedEntry hashString block dataLength expires key) it)
      else .ok { loading with db := loading.db.skip } := by
  obtain ⟨db, held, blockInUse⟩ := loading
  obtain rfl : held = some table := current
  obtain ⟨inserted, insertEq, listed⟩ := dbLoadFromSaveInsert_eq db table
    (listedEntry hashString block dataLength expires key) it present
  have path := dbLoadFromSaveEntry_path db table
    (listedEntry hashString block dataLength expires key) it
  have kept := dbLoadFromSaveEntry_kept db table
    (listedEntry hashString block dataLength expires key) it
  unfold listedEntry at path insertEq listed kept
  unfold loadEntry
  dsimp only at path insertEq listed kept ⊢
  revert path insertEq listed kept
  generalize dbLoadFromSaveEntry db table _ it = created
  intro insertEq listed path kept
  by_cases long : loadBufferLength ≤ key.length
  · simp [long, bind, Except.bind, throw, throwThe, MonadExceptOf.throw]
  · rw [if_neg long, if_neg long]
    by_cases inFile : block < 0
    · simp only [if_pos inFile, path, bind, Except.bind, kept.1, kept.2,
        insertEq, listed, pure, Except.pure]
      by_cases missing :
          db.disk.paths (loadedPath db table (hashString key) it) = none
      · simp [Accepts, inFile, missing, Db.skip]
      · simp [Accepts, inFile, missing, Loading.accept, listedEntry]
    · simp only [if_neg inFile, bind, Except.bind, kept.2, insertEq, listed,
        pure, Except.pure]
      by_cases outside : db.blocksExist ≤ u32OfInt block
      · simp [Accepts, inFile, outside, Db.skip]
      · simp [Accepts, inFile, outside, Loading.accept, listedEntry]

/-- What holds of the loader in every run, sound or not. -/
structure Tracing.Keeps (hashString : Bytes → UInt32) (limit : Nat)
    (tracing : Tracing kh) (names : Bytes → Option Nat)
    (entries : List Nat) : Prop where
  registry : Registry.Sound hashString limit
    { db := tracing.loading.db, names } tracing.loading.table
  current : ∀ {table}, tracing.loading.table = some table →
    ∃ slot, kh.lookup tracing.loading.db.tables slot = some table ∧
      (kh.size (tracing.loading.db.table.cacheHashSet table) = 0 →
        NotPassed hashString tracing.loading.db slot)
  keyed : ∀ {slot table},
    kh.lookup tracing.loading.db.tables slot = some table →
    kh.size (tracing.loading.db.table.cacheHashSet table) = 0 →
      tracing.loading.table = some table
  plain : ∀ {slot table},
    kh.lookup tracing.loading.db.tables slot = some table →
      0 ∉ tracing.loading.db.table.key table
  present : ∀ table, tracing.loading.db.table.destroyed table = false
  nearest : ∀ {name}, tracing.nearest = some name →
    ∃ table, tracing.loading.table = some table ∧
      tracing.loading.db.table.key table = name
  lru : tracing.loading.db.lru.Represents entries
  allocated : ∀ entry ∈ entries, entry < tracing.loading.db.entry.count
  listed : ∀ {entry}, Registered tracing.loading.db entry → entry ∈ entries
  keys : tracing.loading.db.dbKeys = u64 entries.length
  size : tracing.loading.db.dbSizeBytes =
    u64 (entries.map tracing.loading.db.entry.dataLength).sum
  blocks : ∀ {block : Nat}, block ∈ tracing.loading.blockInUse ↔
    ∃ entry ∈ entries, tracing.loading.db.entry.block entry = block
  free : tracing.loading.db.freeBlocks = []
  exist : tracing.loading.db.blocksExist < 4294967296

/-- What a sound store needs of the entries that were accepted so far. -/
structure Tracing.Good (tracing : Tracing kh) (entries : List Nat) :
    Prop where
  registered : ∀ entry ∈ entries, Registered tracing.loading.db entry
  blocks : ∀ first ∈ entries, ∀ second ∈ entries,
    0 ≤ tracing.loading.db.entry.block first →
    tracing.loading.db.entry.block first =
      tracing.loading.db.entry.block second → first = second
  origins : ∀ {slot table entry},
    kh.lookup tracing.loading.db.tables slot = some table →
    Holds tracing.loading.db table entry →
      tracing.origin entry = some (tracing.loading.db.table.key table)
  keys : entries.length < 18446744073709551616
  size : (entries.map tracing.loading.db.entry.dataLength).sum <
    18446744073709551616

/-- Tables without keys come and go, and nothing else changes. -/
structure KeepsEntries (before after : Db kh) : Prop where
  entry : after.entry = before.entry
  lru : after.lru = before.lru
  keys : after.dbKeys = before.dbKeys
  size : after.dbSizeBytes = before.dbSizeBytes
  free : after.freeBlocks = before.freeBlocks
  exist : after.blocksExist = before.blocksExist
  destroyed : ∀ table, before.table.destroyed table = false →
    after.table.destroyed table = false
  held : ∀ {slot table entry},
    (kh.lookup after.tables slot = some table ∧ Holds after table entry) ↔
      kh.lookup before.tables slot = some table ∧ Holds before table entry
  key : ∀ {slot table entry}, kh.lookup before.tables slot = some table →
    Holds before table entry → after.table.key table = before.table.key table

section TableLines

variable {hashString : Bytes → UInt32} {limit : Nat}
  {before middle after : Db kh}

theorem KeepsEntries.refl (db : Db kh) : KeepsEntries db db where
  entry := rfl
  lru := rfl
  keys := rfl
  size := rfl
  free := rfl
  exist := rfl
  destroyed := fun _ present => present
  held := Iff.rfl
  key := fun _ _ => rfl

theorem KeepsEntries.trans (first : KeepsEntries before middle)
    (second : KeepsEntries middle after) : KeepsEntries before after where
  entry := second.entry.trans first.entry
  lru := second.lru.trans first.lru
  keys := second.keys.trans first.keys
  size := second.size.trans first.size
  free := second.free.trans first.free
  exist := second.exist.trans first.exist
  destroyed := fun table present =>
    second.destroyed table (first.destroyed table present)
  held := second.held.trans first.held
  key := by
    intro slot table entry registered held
    have later := first.held.mpr ⟨registered, held⟩
    rw [second.key later.1 later.2, first.key registered held]

theorem KeepsEntries.registered (keeps : KeepsEntries before after)
    (entry : Nat) : Registered after entry ↔ Registered before entry := by
  constructor
  · rintro ⟨slot, table, found⟩
    exact ⟨slot, table, keeps.held.mp found⟩
  · rintro ⟨slot, table, found⟩
    exact ⟨slot, table, keeps.held.mpr found⟩

theorem not_holds_of_empty {db : Db kh} {table entry : Nat}
    (empty : kh.size (db.table.cacheHashSet table) = 0) :
    ¬Holds db table entry := by
  rintro ⟨hash, found⟩
  exact size_ne_zero_of_lookup found empty

/-- A change to reference counts and to the registration of tables without
keys. -/
theorem KeepsEntries.of_tables {tables : kh.Map} {refs : Nat → Nat}
    {freed : Nat → Bool}
    (kept : ∀ {slot table},
      kh.size (before.table.cacheHashSet table) ≠ 0 →
        (kh.lookup tables slot = some table ↔
          kh.lookup before.tables slot = some table)) :
    KeepsEntries before { before with
      tables
      table := { before.table with refs, freed } } where
  entry := rfl
  lru := rfl
  keys := rfl
  size := rfl
  free := rfl
  exist := rfl
  destroyed := fun _ present => present
  held := by
    intro slot table entry
    by_cases empty : kh.size (before.table.cacheHashSet table) = 0
    · constructor
      · rintro ⟨-, held⟩
        exact absurd held (not_holds_of_empty empty)
      · rintro ⟨-, held⟩
        exact absurd held (not_holds_of_empty empty)
    · exact and_congr_left fun _ => kept empty
  key := fun _ _ => rfl

/-- What is left when the table of the last table line is let go: the tables
that have keys. -/
structure Closes (hashString : Bytes → UInt32) (limit : Nat)
    (before after : Db kh) (names : Bytes → Option Nat) : Prop where
  registry : Registry.Sound hashString limit { db := after, names } none
  keeps : KeepsEntries before after
  keyed : ∀ {slot table}, kh.lookup after.tables slot = some table →
    kh.size (after.table.cacheHashSet table) ≠ 0 ∧
      kh.lookup before.tables slot = some table
  key : after.table.key = before.table.key
  keyLength : after.table.keyLength = before.table.keyLength

theorem Tracing.Keeps.close {tracing : Tracing kh}
    {names : Bytes → Option Nat} {entries : List Nat}
    (keeps : tracing.Keeps hashString limit names entries) :
    ∃ namesAfter, Closes hashString limit tracing.loading.db
      tracing.loading.closed namesAfter := by
  have registry := keeps.registry
  have keyed := @keeps.keyed
  unfold Loading.closed
  cases held : tracing.loading.table with
  | none =>
      rw [held] at registry
      refine ⟨names, registry, ⟨rfl, rfl, rfl, rfl, rfl, rfl,
        fun _ present => present, Iff.rfl, fun _ _ => rfl⟩, fun registered => ⟨fun empty => ?_, registered⟩,
        rfl, rfl⟩
      have := keyed registered empty
      rw [held] at this
      simp at this
  | some table =>
      rw [held] at registry
      obtain ⟨slot, registered, notPassed⟩ := keeps.current held
      have refs := registry.counted.refs registered
      rw [requestReferences_self] at refs
      unfold closeLoadedTable
      dsimp only
      by_cases empty :
          kh.size (tracing.loading.db.table.cacheHashSet table) = 0
      · have last : tracing.loading.db.table.refs table = 1 := by
          rw [refs, keyReferences, if_pos empty]
        have gone := unregisters_last tracing.loading.db
          (registry.named.slot_eq registered) last
        have kept : ∀ {otherSlot other},
            kh.size (tracing.loading.db.table.cacheHashSet other) ≠ 0 →
              (kh.lookup (dbTableDeref tracing.loading.db table true).tables
                  otherSlot = some other ↔
                kh.lookup tracing.loading.db.tables otherSlot =
                  some other) := by
          intro otherSlot other nonempty
          rw [gone.tables]
          split
          · next same =>
              simp only [reduceCtorEq, false_iff]
              intro found
              rw [same, registered] at found
              obtain rfl := Option.some.inj found
              exact nonempty empty
          · exact Iff.rfl
        have keyedNow : Keyed tracing.loading.db := registry.keyed
        have keyedAfter : Keyed (dbTableDeref tracing.loading.db table true) :=
          dbTableDeref_keyed keyedNow true
        have deleted := registry.delete registered rfl (notPassed empty) gone
          keyedAfter
        refine ⟨_, deleted, ?_, ?_, gone.key, gone.keyLength⟩
        · have zero : (tracing.loading.db.decTable table).table.refs table =
              0 := by
            rw [decTable_refs, last]
            rfl
          rw [dbTableDeref_eq, if_pos ⟨zero, Or.inl rfl⟩] at kept ⊢
          exact KeepsEntries.of_tables kept
        · intro otherSlot other found
          rw [gone.tables] at found
          split at found
          · simp at found
          · next different =>
              have otherTable : other ≠ table := by
                rintro rfl
                exact different ((registry.named.slot_eq found).symm.trans
                  (registry.named.slot_eq registered))
              rw [(gone.others otherTable).2.2]
              refine ⟨fun otherEmpty => ?_, found⟩
              have current := keyed found otherEmpty
              rw [held] at current
              exact otherTable (Option.some.inj current).symm
      · have stays : dbTableDeref tracing.loading.db table true =
            tracing.loading.db.decTable table := by
          rw [dbTableDeref_eq, decTable_refs, if_neg]
          rintro ⟨zero, -⟩
          dsimp only at refs
          rw [refs, keyReferences, if_neg empty] at zero
          simp [u15] at zero
        rw [stays]
        refine ⟨names, ⟨registry.named.of_same ⟨rfl, rfl, rfl, rfl, rfl⟩,
          registry.counted.drop, Keyed.of_eq registry.keyed rfl rfl rfl rfl
            rfl⟩, KeepsEntries.of_tables fun _ => Iff.rfl, ?_, rfl, rfl⟩
        intro otherSlot other found
        refine ⟨fun otherEmpty => ?_, found⟩
        have current := keyed found otherEmpty
        rw [held] at current
        obtain rfl := Option.some.inj current
        exact empty otherEmpty

/-- The new table of a name, or the one it has. -/
theorem KeepsEntries.incref (db : Db kh) (table : Nat) :
    KeepsEntries db (dbTableIncref db table) :=
  KeepsEntries.of_tables fun _ => Iff.rfl

theorem lookup_dbTableNew {db : Db kh} {name : Bytes} {free slot : UInt32}
    {table : Nat}
    (found : kh.lookup (dbTableNew db name free).1.tables slot =
      some table) :
    (slot = free ∧ table = db.table.count) ∨
      kh.lookup db.tables slot = some table := by
  have found : kh.lookup (kh.put db.tables free db.table.count) slot =
      some table := found
  rw [BucketMap.lookup_put] at found
  split at found
  · next same => exact Or.inl ⟨same, (Option.some.inj found).symm⟩
  · exact Or.inr found

theorem KeepsEntries.create {db : Db kh} (name : Bytes) {free : UInt32}
    (allocated : ∀ {slot table}, kh.lookup db.tables slot = some table →
      table < db.table.count)
    (empty : kh.lookup db.tables free = none) :
    KeepsEntries db (dbTableNew db name free).1 where
  entry := rfl
  lru := rfl
  keys := rfl
  size := rfl
  free := rfl
  exist := rfl
  destroyed := by
    intro table present
    change Function.update db.table.destroyed db.table.count false table = false
    by_cases same : table = db.table.count
    · rw [same, Function.update_self]
    · rw [Function.update_of_ne same]
      exact present
  held := by
    intro slot table entry
    have maps : ∀ other, other ≠ db.table.count →
        (dbTableNew db name free).1.table.cacheHashSet other =
          db.table.cacheHashSet other :=
      fun other different => Function.update_of_ne different ..
    have newMap : (dbTableNew db name free).1.table.cacheHashSet
        db.table.count = kh.empty := Function.update_self ..
    constructor
    · rintro ⟨registered, hash, held⟩
      rcases lookup_dbTableNew registered with ⟨-, rfl⟩ | old
      · rw [newMap, BucketMap.lookup_empty] at held
        simp at held
      · rw [maps table (allocated old).ne] at held
        exact ⟨old, hash, held⟩
    · rintro ⟨registered, hash, held⟩
      refine ⟨?_, hash, ?_⟩
      · change kh.lookup (kh.put db.tables free db.table.count) slot = _
        rw [BucketMap.lookup_put, if_neg]
        · exact registered
        · rintro rfl
          rw [empty] at registered
          simp at registered
      · rw [maps table (allocated registered).ne]
        exact held
  key := fun registered _ =>
    Function.update_of_ne (allocated registered).ne ..

/-- Beside the entries, what a table line leaves. -/
structure Opens (hashString : Bytes → UInt32) (before after : Db kh)
    (name : Bytes) (table : Nat) : Prop where
  keeps : KeepsEntries before after
  registered : ∃ slot, kh.lookup after.tables slot = some table ∧
    (kh.size (after.table.cacheHashSet table) = 0 →
      NotPassed hashString after slot)
  keyed : ∀ {slot other}, kh.lookup after.tables slot = some other →
    kh.size (after.table.cacheHashSet other) = 0 → other = table
  plain : ∀ {slot other}, kh.lookup after.tables slot = some other →
    0 ∉ after.table.key other
  isName : after.table.key table = name

theorem Closes.open {names : Bytes → Option Nat} {name : Bytes}
    {table : Nat} (closes : Closes hashString limit before middle names)
    (plain : ∀ {slot table}, kh.lookup middle.tables slot = some table →
      0 ∉ middle.table.key table)
    (exact_ : ComparesExactly middle name) (plainName : 0 ∉ name)
    (run : dbTableGetWrite hashString middle name = .ok (after, table)) :
    Opens hashString middle after name table := by
  unfold dbTableGetWrite at run
  rw [bind_eq_ok] at run
  obtain ⟨found, probed, run⟩ := run
  have named := closes.registry.named
  rcases named.probe_ok exact_ probed with
    ⟨old, created, rfl⟩ | ⟨created, free, rfl, empty, passed⟩
  · obtain ⟨rfl, rfl⟩ := Prod.mk.inj (pure_eq_ok.mp run)
    obtain ⟨isName, slot, registered⟩ := named.found created
    exact {
      keeps := KeepsEntries.incref middle old
      registered := ⟨slot, registered,
        fun none_ => absurd none_ (closes.keyed registered).1⟩
      keyed := fun found none_ => absurd none_ (closes.keyed found).1
      plain := plain
      isName := isName }
  · have created_ : dbTableNew middle name free = (after, table) :=
      pure_eq_ok.mp run
    obtain rfl : (dbTableNew middle name free).1 = after :=
      congrArg Prod.fst created_
    obtain rfl : middle.table.count = table := congrArg Prod.snd created_
    have keys : ∀ other, other ≠ middle.table.count →
        (dbTableNew middle name free).1.table.key other =
          middle.table.key other :=
      fun other different => Function.update_of_ne different ..
    have newKey : (dbTableNew middle name free).1.table.key
        middle.table.count = name := Function.update_self ..
    refine ⟨KeepsEntries.create name named.allocated empty,
      ⟨free, ?_, fun _ => ?_⟩, ?_, ?_, newKey⟩
    · exact (BucketMap.lookup_put free).trans (if_pos rfl)
    · intro otherSlot other found before
      rcases lookup_dbTableNew found with ⟨rfl, rfl⟩ | old
      · exact Probing.not_before_self before
      · change Probing.Before (hashString
          ((dbTableNew middle name free).1.table.key other)) free otherSlot
          at before
        rw [keys other (named.allocated old).ne] at before
        exact named.taken old before empty
    · intro slot other found none_
      rcases lookup_dbTableNew found with ⟨-, rfl⟩ | old
      · rfl
      · have sameMap : (dbTableNew middle name free).1.table.cacheHashSet
            other = middle.table.cacheHashSet other :=
          Function.update_of_ne (named.allocated old).ne ..
        rw [sameMap] at none_
        exact absurd none_ (closes.keyed old).1
    · intro slot other found
      rcases lookup_dbTableNew found with ⟨-, rfl⟩ | old
      · rw [newKey]
        exact plainName
      · rw [keys other (named.allocated old).ne]
        exact plain old

/-- The names that a table line leads to. -/
theorem comparesExactly_of_plain {names : Bytes → Option Nat} {name : Bytes}
    {db : Db kh}
    (named : Registry.Named hashString limit { db, names })
    (plain : ∀ {slot table}, kh.lookup db.tables slot = some table →
      0 ∉ db.table.key table) : ComparesExactly db name := by
  intro slot table registered matching
  have matching : db.table.keyLength table = name.length ∧
      strncmpEqual name.length (db.table.key table) name = true := by
    simpa [tableMatches] using matching
  have length : db.table.keyLength table = (db.table.key table).length :=
    named.length_eq registered
  exact eq_of_strncmpEqual (length ▸ matching.1) (plain registered) matching.2

theorem loadTable_ok {loading after : Loading kh} {name : Bytes} :
    loadTable hashString loading name = .ok after ↔
      name.length < loadBufferLength ∧ ∃ db table,
        dbTableGetWrite hashString loading.closed name = .ok (db, table) ∧
        after = { loading with db, table := some table } := by
  unfold loadTable Loading.closed
  by_cases long : loadBufferLength ≤ name.length
  · simp [long, bind, Except.bind, throw, throwThe, MonadExceptOf.throw]
  · simp only [long, if_false, bind_eq_ok, Prod.exists, pure_eq_ok]
    constructor
    · rintro ⟨db, table, run, rfl⟩
      exact ⟨Nat.lt_of_not_le long, db, table, run, rfl⟩
    · rintro ⟨-, db, table, run, rfl⟩
      exact ⟨db, table, run, rfl⟩

/-- A table line keeps the entries that were loaded. -/
theorem Tracing.Keeps.table {tracing : Tracing kh}
    {names : Bytes → Option Nat} {entries : List Nat}
    (keeps : tracing.Keeps hashString limit names entries) {name : Bytes}
    (short : name.length < loadBufferLength) (plainName : 0 ∉ name)
    {db : Db kh} {table : Nat}
    (run : dbTableGetWrite hashString tracing.loading.closed name =
      .ok (db, table)) :
    KeepsEntries tracing.loading.db db ∧ ∃ limitAfter namesAfter,
      Tracing.Keeps hashString limitAfter
        { tracing with
          loading := { tracing.loading with db, table := some table }
          nearest := some name } namesAfter entries := by
  obtain ⟨namesClosed, closes⟩ := keeps.close
  have plain : ∀ {slot table},
      kh.lookup tracing.loading.closed.tables slot = some table →
        0 ∉ tracing.loading.closed.table.key table := by
    intro slot other registered
    rw [closes.key]
    exact keeps.plain (closes.keyed registered).2
  have exact_ : ComparesExactly tracing.loading.closed name :=
    comparesExactly_of_plain closes.registry.named plain
  have opens := closes.open plain exact_ plainName run
  have same := closes.keeps.trans opens.keeps
  have registry := (closes.registry.mono (Nat.le_max_left limit
    (kh.size tracing.loading.closed.tables + 2))).getWrite exact_
      (short.trans (by decide)) (Nat.lt_of_lt_of_le (Nat.lt_succ_self _)
        (Nat.le_max_right _ _)) run
  refine ⟨same, _, _, {
    registry := registry.1
    current := ?_
    keyed := ?_
    plain := opens.plain
    present := fun other => same.destroyed other (keeps.present other)
    nearest := ?_
    lru := ?_
    allocated := ?_
    listed := ?_
    keys := ?_
    size := ?_
    blocks := ?_
    free := ?_
    exist := ?_ }⟩
  · intro other current
    obtain rfl := Option.some.inj current
    exact opens.registered
  · intro slot other registered empty
    exact congrArg some (opens.keyed registered empty).symm
  · intro other nameEq
    obtain rfl := Option.some.inj nameEq
    exact ⟨table, rfl, opens.isName⟩
  · exact same.lru ▸ keeps.lru
  · dsimp only
    rw [same.entry]
    exact keeps.allocated
  · intro entry registered
    exact keeps.listed ((same.registered entry).mp registered)
  · exact same.keys.trans keeps.keys
  · dsimp only
    rw [same.size, same.entry]
    exact keeps.size
  · dsimp only
    rw [same.entry]
    exact keeps.blocks
  · exact same.free.trans keeps.free
  · exact same.exist.trans_lt keeps.exist

/-- Entries that stay as they are stay as good as they are. -/
theorem KeepsEntries.good_iff {tracing : Tracing kh} {entries : List Nat}
    {after : Tracing kh} (same : KeepsEntries tracing.loading.db after.loading.db)
    (origin : after.origin = tracing.origin) :
    after.Good entries ↔ tracing.Good entries := by
  have entry := same.entry
  constructor
  · rintro ⟨registered, blocks, origins, keys, size⟩
    rw [entry] at blocks size
    refine ⟨fun held member => (same.registered held).mp (registered held member),
      blocks, ?_, keys, size⟩
    intro slot table held found holds
    obtain ⟨foundAfter, holdsAfter⟩ := same.held.mpr ⟨found, holds⟩
    rw [← same.key found holds, ← origin]
    exact origins foundAfter holdsAfter
  · rintro ⟨registered, blocks, origins, keys, size⟩
    refine ⟨fun held member =>
      (same.registered held).mpr (registered held member), ?_, ?_, keys, ?_⟩
    · rw [entry]
      exact blocks
    · intro slot table held foundAfter holdsAfter
      obtain ⟨found, holds⟩ := same.held.mp ⟨foundAfter, holdsAfter⟩
      rw [same.key found holds, origin]
      exact origins found holds
    · rw [entry]
      exact size

end TableLines

section EntryLines

variable {hashString : Bytes → UInt32} {limit : Nat}

theorem lookup_load (db : Db kh) (table : Nat) (new : NewEntry) (it held : Nat)
    (hash : UInt32) :
    kh.lookup ((db.load table new it).table.cacheHashSet held) hash =
      if held = table ∧ hash = new.hash then some db.entry.count
      else kh.lookup (db.table.cacheHashSet held) hash := by
  change kh.lookup (Function.update db.table.cacheHashSet table
    (kh.put (db.table.cacheHashSet table) new.hash db.entry.count) held) hash =
      _
  by_cases same : held = table
  · subst held
    rw [Function.update_self, BucketMap.lookup_put]
    simp
  · rw [Function.update_of_ne same, if_neg fun both => same both.1]

/-- An entry that is held after an entry was accepted is the new one or was
held before. -/
theorem holds_load {db : Db kh} {table it held entry : Nat} {new : NewEntry}
    (holds : Holds (db.load table new it) held entry) :
    (held = table ∧ entry = db.entry.count) ∨ Holds db held entry := by
  obtain ⟨hash, found⟩ := holds
  rw [lookup_load] at found
  split at found
  · next new_ => exact Or.inl ⟨new_.1, (Option.some.inj found).symm⟩
  · exact Or.inr ⟨hash, found⟩

/-- What an accepted entry adds. -/
def Tracing.accept (tracing : Tracing kh) (table : Nat) (new : NewEntry)
    (it : Nat) : Tracing kh where
  loading := tracing.loading.accept table new it
  nearest := tracing.nearest
  origin := Function.update tracing.origin tracing.loading.db.entry.count
    tracing.nearest

variable {tracing : Tracing kh} {names : Bytes → Option Nat}
  {entries : List Nat} {table : Nat}

theorem sum_load {db : Db kh} {new : NewEntry} {it : Nat}
    (allocated : ∀ entry ∈ entries, entry < db.entry.count) :
    ((entries ++ [db.entry.count]).map
      (db.load table new it).entry.dataLength).sum =
        (entries.map db.entry.dataLength).sum + new.dataLength := by
  have old : entries.map (db.load table new it).entry.dataLength =
      entries.map db.entry.dataLength :=
    List.map_congr_left fun entry member =>
      Function.update_of_ne (allocated entry member).ne ..
  have last : (db.load table new it).entry.dataLength db.entry.count =
      new.dataLength := Function.update_self ..
  rw [List.map_append, old, List.sum_append, List.map_singleton,
    List.sum_singleton, last]

/-- An accepted entry goes to the end of the list. -/
theorem Tracing.Keeps.accept
    (keeps : tracing.Keeps hashString limit names entries)
    (current : tracing.loading.table = some table) (new : NewEntry)
    (it : Nat) :
    (tracing.accept table new it).Keeps hashString limit names
      (entries ++ [tracing.loading.db.entry.count]) := by
  have registry := keeps.registry
  rw [current] at registry
  obtain ⟨slot, registered, -⟩ := keeps.current current
  have fresh : tracing.loading.db.entry.count ∉ entries := fun member =>
    (keeps.allocated _ member).ne rfl
  have nonempty : kh.size ((tracing.loading.db.load table new
      it).table.cacheHashSet table) ≠ 0 := by
    apply size_ne_zero_of_lookup
    · exact (lookup_load tracing.loading.db table new it table new.hash).trans
        (if_pos ⟨rfl, rfl⟩)
  have entered := registry.counted.enter new rfl
  refine {
    registry := ?_
    current := ?_
    keyed := ?_
    plain := keeps.plain
    present := keeps.present
    nearest := keeps.nearest
    lru := (keeps.lru.clear fresh).append fresh
    allocated := ?_
    listed := ?_
    keys := ?_
    size := ?_
    blocks := ?_
    free := keeps.free
    exist := keeps.exist }
  · change Registry.Sound hashString limit
      { db := tracing.loading.db.load table new it, names }
      tracing.loading.table
    rw [current]
    exact ⟨registry.named.of_same ⟨rfl, rfl, rfl, rfl, rfl⟩,
      ⟨entered.live, entered.refs⟩,
      Keyed.of_eq (Keyed.enter registry.keyed table new _) rfl rfl rfl rfl rfl⟩
  · intro other otherCurrent
    have otherCurrent : tracing.loading.table = some other := otherCurrent
    rw [current] at otherCurrent
    obtain rfl := Option.some.inj otherCurrent
    exact ⟨slot, registered, fun empty => absurd empty nonempty⟩
  · intro otherSlot other found empty
    have found : kh.lookup tracing.loading.db.tables otherSlot = some other :=
      found
    have empty : kh.size ((tracing.loading.db.load table new
      it).table.cacheHashSet other) = 0 := empty
    have different : other ≠ table := by
      rintro rfl
      exact nonempty empty
    have sameMap : (tracing.loading.db.load table new it).table.cacheHashSet
        other = tracing.loading.db.table.cacheHashSet other :=
      Function.update_of_ne different ..
    rw [sameMap] at empty
    exact keeps.keyed found empty
  · intro entry member
    change entry < tracing.loading.db.entry.count + 1
    rcases List.mem_append.mp member with old | last
    · have := keeps.allocated entry old
      omega
    · rw [List.mem_singleton.mp last]
      omega
  · rintro entry ⟨otherSlot, held, found, holds⟩
    rw [List.mem_append, List.mem_singleton]
    rcases holds_load holds with ⟨-, rfl⟩ | old
    · exact Or.inr rfl
    · exact Or.inl (keeps.listed ⟨otherSlot, held, found, old⟩)
  · change u64 (tracing.loading.db.dbKeys + 1) = _
    rw [keeps.keys, List.length_append, List.length_singleton]
    unfold u64
    omega
  · change u64 (tracing.loading.db.dbSizeBytes + new.dataLength) =
      u64 ((entries ++ [tracing.loading.db.entry.count]).map
        (tracing.loading.db.load table new it).entry.dataLength).sum
    rw [sum_load keeps.allocated, keeps.size]
    unfold u64
    omega
  · intro block
    have newBlock : (tracing.loading.db.load table new it).entry.block
        tracing.loading.db.entry.count = new.block := Function.update_self ..
    have oldBlock : ∀ entry ∈ entries,
        (tracing.loading.db.load table new it).entry.block entry =
          tracing.loading.db.entry.block entry := fun entry member =>
      Function.update_of_ne (keeps.allocated entry member).ne ..
    change (block ∈ if new.block < 0 then tracing.loading.blockInUse
      else new.block.toNat :: tracing.loading.blockInUse) ↔
      ∃ entry ∈ entries ++ [tracing.loading.db.entry.count],
        (tracing.loading.db.load table new it).entry.block entry = block
    have members : (∃ entry ∈ entries ++ [tracing.loading.db.entry.count],
        (tracing.loading.db.load table new it).entry.block entry = block) ↔
        (∃ entry ∈ entries,
          tracing.loading.db.entry.block entry = block) ∨
          new.block = block := by
      constructor
      · rintro ⟨entry, member, blockEq⟩
        rcases List.mem_append.mp member with old | last
        · exact Or.inl ⟨entry, old, oldBlock entry old ▸ blockEq⟩
        · obtain rfl := List.mem_singleton.mp last
          exact Or.inr (newBlock.symm.trans blockEq)
      · rintro (⟨entry, old, blockEq⟩ | blockEq)
        · exact ⟨entry, List.mem_append_left _ old,
            (oldBlock entry old).trans blockEq⟩
        · exact ⟨_, List.mem_append_right _ (List.mem_singleton_self _),
            newBlock.trans blockEq⟩
    rw [members, ← keeps.blocks]
    split
    · next negative =>
        have different : new.block ≠ block := by omega
        simp [different]
    · next positive =>
        rw [List.mem_cons, or_comm]
        have same : block = new.block.toNat ↔ new.block = block := by omega
        rw [same]

/-- What an accepted entry must not do. -/
structure Tracing.Admits (tracing : Tracing kh) (table : Nat)
    (new : NewEntry) : Prop where
  newKey : kh.lookup (tracing.loading.db.table.cacheHashSet table) new.hash =
    none
  newBlock : 0 ≤ new.block → new.block.toNat ∉ tracing.loading.blockInUse
  nearest : tracing.nearest ≠ none
  keys : tracing.loading.db.dbKeys + 1 < 18446744073709551616
  size : tracing.loading.db.dbSizeBytes + new.dataLength <
    18446744073709551616

/-- An accepted entry that is admitted keeps the store good. -/
theorem Tracing.Good.accept
    (keeps : tracing.Keeps hashString limit names entries)
    (current : tracing.loading.table = some table) {new : NewEntry} (it : Nat)
    (good : tracing.Good entries) (admits : tracing.Admits table new) :
    (tracing.accept table new it).Good
      (entries ++ [tracing.loading.db.entry.count]) := by
  obtain ⟨slot, registered, -⟩ := keeps.current current
  have keysExact : tracing.loading.db.dbKeys = entries.length :=
    keeps.keys.trans (Nat.mod_eq_of_lt good.keys)
  have sizeExact : tracing.loading.db.dbSizeBytes =
      (entries.map tracing.loading.db.entry.dataLength).sum :=
    keeps.size.trans (Nat.mod_eq_of_lt good.size)
  have newBlock : (tracing.loading.db.load table new it).entry.block
      tracing.loading.db.entry.count = new.block := Function.update_self ..
  have oldBlock : ∀ entry ∈ entries,
      (tracing.loading.db.load table new it).entry.block entry =
        tracing.loading.db.entry.block entry := fun entry member =>
    Function.update_of_ne (keeps.allocated entry member).ne ..
  -- no accepted entry has the block of the new one
  have unshared : ∀ entry ∈ entries, 0 ≤ new.block →
      tracing.loading.db.entry.block entry ≠ new.block := by
    intro entry member placed same
    apply admits.newBlock placed
    exact keeps.blocks.mpr ⟨entry, member, by omega⟩
  refine ⟨?_, ?_, ?_, ?_, ?_⟩
  · intro entry member
    rcases List.mem_append.mp member with old | last
    · obtain ⟨otherSlot, held, found, hash, holds⟩ := good.registered entry old
      refine ⟨otherSlot, held, found, hash, ?_⟩
      refine (lookup_load tracing.loading.db table new it held hash).trans ?_
      rw [if_neg]
      · exact holds
      · rintro ⟨rfl, rfl⟩
        rw [admits.newKey] at holds
        simp at holds
    · obtain rfl := List.mem_singleton.mp last
      exact ⟨slot, table, registered, new.hash,
        (lookup_load tracing.loading.db table new it table new.hash).trans
          (if_pos ⟨rfl, rfl⟩)⟩
  · intro first firstMember second secondMember
    change 0 ≤ (tracing.loading.db.load table new it).entry.block first →
      (tracing.loading.db.load table new it).entry.block first =
        (tracing.loading.db.load table new it).entry.block second →
          first = second
    rcases List.mem_append.mp firstMember with firstOld | firstLast
    · rcases List.mem_append.mp secondMember with secondOld | secondLast
      · rw [oldBlock first firstOld, oldBlock second secondOld]
        exact good.blocks first firstOld second secondOld
      · obtain rfl := List.mem_singleton.mp secondLast
        rw [oldBlock first firstOld, newBlock]
        intro placed same
        exact absurd same (unshared first firstOld (same ▸ placed))
    · obtain rfl := List.mem_singleton.mp firstLast
      rcases List.mem_append.mp secondMember with secondOld | secondLast
      · rw [oldBlock second secondOld, newBlock]
        intro placed same
        exact absurd same.symm (unshared second secondOld placed)
      · obtain rfl := List.mem_singleton.mp secondLast
        exact fun _ _ => rfl
  · intro otherSlot held entry found holds
    change Function.update tracing.origin tracing.loading.db.entry.count
      tracing.nearest entry = some (tracing.loading.db.table.key held)
    rcases holds_load holds with ⟨rfl, rfl⟩ | old
    · rw [Function.update_self]
      cases named : tracing.nearest with
      | none => exact absurd named admits.nearest
      | some name =>
          obtain ⟨other, otherCurrent, isName⟩ := keeps.nearest named
          rw [current] at otherCurrent
          obtain rfl := Option.some.inj otherCurrent
          rw [isName]
    · have listed := keeps.listed ⟨otherSlot, held, found, old⟩
      rw [Function.update_of_ne (keeps.allocated entry listed).ne]
      exact good.origins found old
  · rw [List.length_append, List.length_singleton, ← keysExact]
    exact admits.keys
  · change ((entries ++ [tracing.loading.db.entry.count]).map
      (tracing.loading.db.load table new it).entry.dataLength).sum < _
    rw [sum_load keeps.allocated, ← sizeExact]
    exact admits.size

/-- A store that is good after an entry was accepted was good before, and the
entry was admitted. -/
theorem Tracing.Good.of_accept
    (keeps : tracing.Keeps hashString limit names entries)
    (current : tracing.loading.table = some table) {new : NewEntry} {it : Nat}
    (good : (tracing.accept table new it).Good
      (entries ++ [tracing.loading.db.entry.count])) :
    tracing.Good entries ∧ tracing.Admits table new := by
  obtain ⟨slot, registered, -⟩ := keeps.current current
  have keyed : Keyed tracing.loading.db := keeps.registry.keyed
  have named := keeps.registry.named
  have kept : ∀ entry ∈ entries,
      entry ∈ entries ++ [tracing.loading.db.entry.count] :=
    fun entry => List.mem_append_left _
  have last : tracing.loading.db.entry.count ∈
      entries ++ [tracing.loading.db.entry.count] :=
    List.mem_append_right _ (List.mem_singleton_self _)
  have older : ∀ entry ∈ entries, entry ≠ tracing.loading.db.entry.count :=
    fun entry member => (keeps.allocated entry member).ne
  have newBlock : (tracing.loading.db.load table new it).entry.block
      tracing.loading.db.entry.count = new.block := Function.update_self ..
  have oldBlock : ∀ entry ∈ entries,
      (tracing.loading.db.load table new it).entry.block entry =
        tracing.loading.db.entry.block entry := fun entry member =>
    Function.update_of_ne (older entry member) ..
  -- what is held before is still held, in the same table
  have stillHeld : ∀ entry ∈ entries, ∃ otherSlot held hash,
      kh.lookup tracing.loading.db.tables otherSlot = some held ∧
      kh.lookup (tracing.loading.db.table.cacheHashSet held) hash =
        some entry ∧
      ¬(held = table ∧ hash = new.hash) := by
    intro entry member
    obtain ⟨otherSlot, held, found, hash, holds⟩ :=
      good.registered entry (kept entry member)
    have holds := (lookup_load tracing.loading.db table new it held
      hash).symm.trans holds
    split at holds
    · exact absurd (Option.some.inj holds).symm (older entry member)
    · next different => exact ⟨otherSlot, held, hash, found, holds, different⟩
  have keysLt : entries.length + 1 < 18446744073709551616 := by
    have := good.keys
    rwa [List.length_append, List.length_singleton] at this
  have sizeLt : (entries.map tracing.loading.db.entry.dataLength).sum +
      new.dataLength < 18446744073709551616 := by
    have total := good.size
    change ((entries ++ [tracing.loading.db.entry.count]).map
      (tracing.loading.db.load table new it).entry.dataLength).sum < _ at total
    rwa [sum_load keeps.allocated] at total
  refine ⟨⟨?_, ?_, ?_, by omega, by omega⟩, ⟨?_, ?_, ?_, ?_, ?_⟩⟩
  · intro entry member
    obtain ⟨otherSlot, held, hash, found, holds, -⟩ := stillHeld entry member
    exact ⟨otherSlot, held, found, hash, holds⟩
  · intro first firstMember second secondMember
    have distinct := good.blocks first (kept first firstMember) second
      (kept second secondMember)
    change 0 ≤ (tracing.loading.db.load table new it).entry.block first →
      (tracing.loading.db.load table new it).entry.block first =
        (tracing.loading.db.load table new it).entry.block second →
          first = second at distinct
    rwa [oldBlock first firstMember, oldBlock second secondMember] at distinct
  · intro otherSlot held entry found holds
    have member := keeps.listed ⟨otherSlot, held, found, holds⟩
    obtain ⟨hash, holds⟩ := holds
    obtain ⟨heldSlot, heldTable, heldHash, heldFound, heldHolds, different⟩ :=
      stillHeld entry member
    obtain ⟨-, inTable, -, -⟩ := keyed holds
    obtain ⟨-, inHeld, -, -⟩ := keyed heldHolds
    obtain rfl : held = heldTable := Option.some.inj (inTable.symm.trans inHeld)
    have origin := good.origins found ⟨heldHash,
      (lookup_load tracing.loading.db table new it held heldHash).trans
        ((if_neg different).trans heldHolds)⟩
    change Function.update tracing.origin tracing.loading.db.entry.count
      tracing.nearest entry = some (tracing.loading.db.table.key held) at origin
    rwa [Function.update_of_ne (older entry member)] at origin
  · cases taken : kh.lookup (tracing.loading.db.table.cacheHashSet table)
        new.hash with
    | none => rfl
    | some old =>
        have member := keeps.listed ⟨slot, table, registered, new.hash, taken⟩
        obtain ⟨heldSlot, held, hash, found, holds, different⟩ :=
          stillHeld old member
        obtain ⟨-, inTable, hashEq, -⟩ := keyed taken
        obtain ⟨-, inHeld, heldHash, -⟩ := keyed holds
        exact absurd ⟨Option.some.inj (inHeld.symm.trans inTable),
          heldHash.symm.trans hashEq⟩ different
  · intro placed inUse
    obtain ⟨entry, member, same⟩ := keeps.blocks.mp inUse
    have equal := good.blocks entry (kept entry member) _ last
    change 0 ≤ (tracing.loading.db.load table new it).entry.block entry →
      (tracing.loading.db.load table new it).entry.block entry =
        (tracing.loading.db.load table new it).entry.block
          tracing.loading.db.entry.count →
          entry = tracing.loading.db.entry.count at equal
    rw [oldBlock entry member, newBlock] at equal
    exact older entry member (equal (by omega) (by omega))
  · have origin := good.origins registered ⟨new.hash,
      (lookup_load tracing.loading.db table new it table new.hash).trans
        (if_pos ⟨rfl, rfl⟩)⟩
    change Function.update tracing.origin tracing.loading.db.entry.count
      tracing.nearest tracing.loading.db.entry.count = _ at origin
    rw [Function.update_self] at origin
    rw [origin]
    simp
  · rw [keeps.keys, u64, Nat.mod_eq_of_lt (by omega)]
    exact keysLt
  · rw [keeps.size, u64, Nat.mod_eq_of_lt (by omega)]
    exact sizeLt

/-- A skipped entry. -/
theorem KeepsEntries.skip (db : Db kh) : KeepsEntries db db.skip where
  entry := rfl
  lru := rfl
  keys := rfl
  size := rfl
  free := rfl
  exist := rfl
  destroyed := fun _ present => present
  held := Iff.rfl
  key := fun _ _ => rfl

theorem Tracing.Keeps.skip
    (keeps : tracing.Keeps hashString limit names entries) :
    Tracing.Keeps hashString limit
      { tracing with loading.db := tracing.loading.db.skip } names entries where
  registry := ⟨keeps.registry.named.of_same ⟨rfl, rfl, rfl, rfl, rfl⟩,
    ⟨keeps.registry.counted.live, keeps.registry.counted.refs⟩,
    Keyed.of_eq keeps.registry.keyed rfl rfl rfl rfl rfl⟩
  current := keeps.current
  keyed := keeps.keyed
  plain := keeps.plain
  present := keeps.present
  nearest := keeps.nearest
  lru := keeps.lru
  allocated := keeps.allocated
  listed := keeps.listed
  keys := keeps.keys
  size := keeps.size
  blocks := keeps.blocks
  free := keeps.free
  exist := keeps.exist

/-- A line without effect on the store. -/
theorem Tracing.Keeps.ignore
    (keeps : tracing.Keeps hashString limit names entries)
    {nearest : Option Bytes}
    (kept : ∀ name, nearest = some name → tracing.nearest = some name) :
    Tracing.Keeps hashString limit { tracing with nearest } names entries :=
  { keeps with nearest := fun isName => keeps.nearest (kept _ isName) }

end EntryLines

section Lines

theorem mem_of_scanWord {text word : Bytes} {byte : UInt8}
    (scanned : scanWord text = some word) (member : byte ∈ word) :
    byte ∈ text := by
  unfold scanWord at scanned
  dsimp only at scanned
  split at scanned
  · simp at scanned
  · obtain rfl := Option.some.inj scanned
    exact (List.dropWhile_sublist _).subset
      ((List.takeWhile_sublist _).subset member)

theorem scanEntry_getD (text : Bytes) :
    (scanEntry text).getD .ignored = .ignored ∨
      ∃ block dataLength expires it key, (scanEntry text).getD .ignored =
        .entry block dataLength expires it key := by
  cases scanned : scanEntry text with
  | none => exact Or.inl rfl
  | some line =>
      right
      simp only [scanEntry, Option.bind_eq_bind, Option.bind_eq_some_iff,
        Option.pure_def, Option.some.injEq] at scanned
      obtain ⟨_, -, block, -, _, -, dataLength, -, _, -, expires, -, _, -, it,
        -, _, -, key, -, rfl⟩ := scanned
      exact ⟨_, _, _, _, _, rfl⟩

/-- A line that names a table is a table line, and the name has no zero
byte. -/
theorem parseLine_table {line name : Bytes}
    (parsed : parseLine line = .table name) :
    isTableLine line = true ∧ 0 ∉ name := by
  unfold parseLine at parsed
  split at parsed
  · simp at parsed
  · next long =>
      split at parsed
      · next kind colon rest =>
          dsimp only at parsed
          split at parsed
          · simp at parsed
          next isColon =>
          split at parsed
          · next isTable =>
              cases rest with
              | nil => simp at long
              | cons byte rest =>
                  refine ⟨by
                    have isColon : colon = charByte ':' := by
                      simpa using isColon
                    simp [isTableLine, isTable, isColon], fun member => ?_⟩
                  split at parsed
                  · next word scanned =>
                      obtain rfl := IndexLine.table.inj parsed
                      have inText := (List.drop_sublist _ _).subset
                        (mem_of_scanWord scanned member)
                      have nonzero := List.mem_takeWhile_imp inText
                      simp at nonzero
                  · simp at parsed
          · split at parsed
            · rcases scanEntry_getD (List.drop 1 (List.takeWhile (· != 0)
                  (kind :: colon :: rest))) with
                ignored | ⟨block, dataLength, expires, it, key, entry⟩
              · rw [ignored] at parsed
                simp at parsed
              · rw [entry] at parsed
                simp at parsed
            · simp at parsed
      · simp at parsed

theorem parseLine_entry {line key : Bytes} {block : Int}
    {dataLength expires it : Nat}
    (parsed : parseLine line = .entry block dataLength expires it key) :
    isTableLine line = false := by
  unfold parseLine at parsed
  split at parsed
  · simp at parsed
  · next long =>
      split at parsed
      · next kind colon rest =>
          dsimp only at parsed
          split at parsed
          · simp at parsed
          split at parsed
          · split at parsed
            · simp at parsed
            · simp at parsed
          · next notTable =>
              cases rest with
              | nil => rfl
              | cons byte rest => simp [isTableLine, notTable]
      · simp at parsed

variable {hashString : Bytes → UInt32} {limit : Nat} {tracing : Tracing kh}
  {names : Bytes → Option Nat} {entries : List Nat} {line : Bytes}

/-- A safe line is taken. -/
theorem Tracing.Keeps.safe_ok
    (keeps : tracing.Keeps hashString limit names entries)
    (safe : LineSafe hashString tracing line) :
    ∃ next, traceLine hashString tracing line = .ok next := by
  suffices loads : ∃ loading,
      loadLine hashString tracing.loading line = .ok loading by
    obtain ⟨loading, run⟩ := loads
    unfold traceLine
    dsimp only
    rw [run]
    exact ⟨_, rfl⟩
  unfold loadLine
  unfold LineSafe at safe
  cases parsed : parseLine line with
  | ignored => exact ⟨_, rfl⟩
  | table name =>
      simp only [parsed] at safe
      obtain ⟨short, found, probed⟩ := safe
      have written : ∃ result,
          dbTableGetWrite hashString tracing.loading.closed name =
            .ok result := by
        unfold dbTableGetWrite
        rw [probed]
        cases found with
        | inl hash => exact ⟨_, rfl⟩
        | inr table => exact ⟨_, rfl⟩
      obtain ⟨⟨db, table⟩, written⟩ := written
      exact ⟨_, loadTable_ok.mpr ⟨short, db, table, written, rfl⟩⟩
  | entry block dataLength expires it key =>
      dsimp only
      cases current : tracing.loading.table with
      | none =>
          unfold loadEntry
          rw [current]
          exact ⟨_, rfl⟩
      | some table =>
          simp only [parsed, current] at safe
          rw [loadEntry_eq current (keeps.present table),
            if_neg (Nat.not_le_of_lt safe.1)]
          split
          · exact ⟨_, rfl⟩
          · exact ⟨_, rfl⟩

/-- What a line that is taken keeps, and when it keeps the store good. -/
theorem Tracing.Keeps.step
    (keeps : tracing.Keeps hashString limit names entries)
    {next : Tracing kh} (run : traceLine hashString tracing line = .ok next) :
    ∃ limitAfter namesAfter entriesAfter,
      next.Keeps hashString limitAfter namesAfter entriesAfter ∧
        (next.Good entriesAfter ↔
          tracing.Good entries ∧ LineSafe hashString tracing line) := by
  unfold traceLine at run
  rw [bind_eq_ok] at run
  obtain ⟨loading, loads, run⟩ := run
  obtain rfl := pure_eq_ok.mp run
  unfold loadLine at loads
  unfold LineSafe
  cases parsed : parseLine line with
  | ignored =>
      simp only [parsed] at loads ⊢
      obtain rfl := pure_eq_ok.mp loads
      rw [if_pos rfl, and_true]
      refine ⟨limit, names, entries, keeps.ignore ?_,
        KeepsEntries.good_iff (KeepsEntries.refl tracing.loading.db) rfl⟩
      intro name isName
      unfold nearestAfter at isName
      rw [parsed] at isName
      split at isName
      · simp at isName
      · exact isName
  | table name =>
      obtain ⟨isTable, plain⟩ := parseLine_table parsed
      simp only [parsed] at loads ⊢
      obtain ⟨short, db, table, written, rfl⟩ := loadTable_ok.mp loads
      obtain ⟨same, limitAfter, namesAfter, keepsAfter⟩ :=
        keeps.table short plain written
      have nearest : nearestAfter tracing.nearest line = some name := by
        simp [nearestAfter, isTable, parsed]
      have count : db.entry.count = tracing.loading.db.entry.count := by
        rw [same.entry]
      rw [if_pos count, nearest]
      refine ⟨limitAfter, namesAfter, entries, keepsAfter, ?_⟩
      refine Iff.trans (b := tracing.Good entries) (same.good_iff rfl) ?_
      refine (and_iff_left ⟨short, ?_⟩).symm
      unfold dbTableGetWrite at written
      rw [bind_eq_ok] at written
      obtain ⟨found, probed, -⟩ := written
      exact ⟨found, probed⟩
  | entry block dataLength expires it key =>
      have nearest : nearestAfter tracing.nearest line = tracing.nearest := by
        simp [nearestAfter, parseLine_entry parsed]
      simp only [parsed, nearest] at loads ⊢
      cases current : tracing.loading.table with
      | none =>
          unfold loadEntry at loads
          rw [current] at loads
          obtain rfl := pure_eq_ok.mp loads
          rw [if_pos rfl]
          exact ⟨limit, names, entries, keeps, (and_iff_left trivial).symm⟩
      | some table =>
          rw [loadEntry_eq current (keeps.present table)] at loads
          split at loads
          · simp at loads
          next short =>
          have short : key.length < loadBufferLength := Nat.lt_of_not_le short
          split at loads
          · next accepts =>
              obtain rfl := Except.ok.inj loads
              have grown : (tracing.loading.accept table
                  (listedEntry hashString block dataLength expires key)
                  it).db.entry.count ≠ tracing.loading.db.entry.count :=
                (Nat.lt_succ_self _).ne'
              rw [if_neg grown]
              refine ⟨limit, names, _, keeps.accept current _ it, ?_⟩
              constructor
              · intro good
                obtain ⟨before, admits⟩ :=
                  Tracing.Good.of_accept keeps current good
                exact ⟨before, short, fun _ => ⟨admits.newKey, admits.newBlock,
                  admits.nearest, admits.keys, admits.size⟩⟩
              · rintro ⟨before, -, safe⟩
                obtain ⟨newKey, newBlock, named, keys, size⟩ := safe accepts
                exact before.accept keeps current it
                  ⟨newKey, newBlock, named, keys, size⟩
          · next skips =>
              obtain rfl := Except.ok.inj loads
              have count : tracing.loading.db.skip.entry.count =
                  tracing.loading.db.entry.count := rfl
              dsimp only
              rw [if_pos count]
              refine ⟨limit, names, entries, keeps.skip, ?_⟩
              refine Iff.trans (b := tracing.Good entries)
                ((KeepsEntries.skip tracing.loading.db).good_iff rfl) ?_
              exact (and_iff_left
                ⟨short, fun accepts => absurd accepts skips⟩).symm

/-- The loader takes all lines and leaves a good store exactly when every line
is safe. -/
theorem Tracing.Keeps.run {lines : List Bytes}
    (keeps : tracing.Keeps hashString limit names entries) :
    (∃ final limitAfter namesAfter entriesAfter,
      traceLines hashString tracing lines = .ok final ∧
        final.Keeps hashString limitAfter namesAfter entriesAfter ∧
        final.Good entriesAfter) ↔
      tracing.Good entries ∧ LinesSafe hashString tracing lines := by
  induction lines generalizing tracing limit names entries with
  | nil =>
      constructor
      · rintro ⟨final, limitAfter, namesAfter, entriesAfter, run, keepsAfter,
          good⟩
        obtain rfl := pure_eq_ok.mp run
        rw [keeps.lru.unique keepsAfter.lru]
        exact ⟨good, trivial⟩
      · rintro ⟨good, -⟩
        exact ⟨tracing, limit, names, entries, rfl, keeps, good⟩
  | cons line lines ih =>
      unfold traceLines
      simp only [List.foldlM_cons, bind_eq_ok]
      constructor
      · rintro ⟨final, limitAfter, namesAfter, entriesAfter, ⟨next, run, rest⟩,
          keepsAfter, good⟩
        obtain ⟨limitNext, namesNext, entriesNext, keepsNext, goodNext⟩ :=
          keeps.step run
        obtain ⟨goodBefore, safeRest⟩ := (ih keepsNext).mp
          ⟨final, limitAfter, namesAfter, entriesAfter, rest, keepsAfter, good⟩
        obtain ⟨goodFirst, safeFirst⟩ := goodNext.mp goodBefore
        refine ⟨goodFirst, safeFirst, fun other otherRun => ?_⟩
        obtain rfl := Except.ok.inj (run.symm.trans otherRun)
        exact safeRest
      · rintro ⟨good, safeFirst, safeRest⟩
        obtain ⟨next, run⟩ := keeps.safe_ok safeFirst
        obtain ⟨limitNext, namesNext, entriesNext, keepsNext, goodNext⟩ :=
          keeps.step run
        obtain ⟨final, limitAfter, namesAfter, entriesAfter, rest, keepsAfter,
          goodAfter⟩ := (ih keepsNext).mpr
            ⟨goodNext.mpr ⟨good, safeFirst⟩, safeRest next run⟩
        exact ⟨final, limitAfter, namesAfter, entriesAfter,
          ⟨next, run, rest⟩, keepsAfter, goodAfter⟩

/-- Lines that are taken keep what holds of the loader. -/
theorem Tracing.Keeps.taken {lines : List Bytes} {final : Tracing kh}
    (keeps : tracing.Keeps hashString limit names entries)
    (run : traceLines hashString tracing lines = .ok final) :
    ∃ limitAfter namesAfter entriesAfter,
      final.Keeps hashString limitAfter namesAfter entriesAfter := by
  induction lines generalizing tracing limit names entries with
  | nil =>
      obtain rfl := pure_eq_ok.mp run
      exact ⟨limit, names, entries, keeps⟩
  | cons line lines ih =>
      unfold traceLines at run
      rw [List.foldlM_cons, bind_eq_ok] at run
      obtain ⟨next, first, rest⟩ := run
      obtain ⟨limitNext, namesNext, entriesNext, keepsNext, -⟩ :=
        keeps.step first
      exact ih keepsNext rest

end Lines

section Closing

variable {hashString : Bytes → UInt32} {limit : Nat} {tracing : Tracing kh}
  {names : Bytes → Option Nat} {entries : List Nat}

/-- Two stores that differ in their blocks alone. -/
structure SameRecords (before after : Db kh) : Prop where
  entry : after.entry = before.entry
  table : after.table = before.table
  tables : after.tables = before.tables
  lru : after.lru = before.lru
  keys : after.dbKeys = before.dbKeys
  size : after.dbSizeBytes = before.dbSizeBytes

/-- The loop over the blocks frees none that is in use. -/
structure FreesUnused (before after : Db kh) (blockInUse : List Nat) :
    Prop where
  same : SameRecords before after
  unused : ∀ block ∈ after.freeBlocks,
    block ∈ before.freeBlocks ∨ block ∉ blockInUse

theorem u32OfInt_i32 {block : Nat} (small : block < 4294967296) :
    u32OfInt (i32 block) = block := by
  unfold u32OfInt i32
  split <;> omega

theorem FreesUnused.refl (db : Db kh) (blockInUse : List Nat) :
    FreesUnused db db blockInUse :=
  ⟨⟨rfl, rfl, rfl, rfl, rfl, rfl⟩, fun _ member => Or.inl member⟩

theorem FreesUnused.free {before after : Db kh} {blockInUse : List Nat}
    {block : Nat} (frees : FreesUnused before after blockInUse)
    (small : block < 4294967296) (unused : block ∉ blockInUse) :
    FreesUnused before (dbBlockFree after (i32 block)) blockInUse := by
  obtain ⟨⟨entry, table, tables, lru, keys, size⟩, kept⟩ := frees
  unfold dbBlockFree dbBlockSize
  split
  · exact {
      same := {
        entry := entry
        table := table
        tables := tables
        lru := lru
        keys := keys
        size := size }
      unused := kept }
  · refine ⟨⟨entry, table, tables, lru, keys, size⟩, ?_⟩
    intro other member
    rw [u32OfInt_i32 small] at member
    rcases List.mem_cons.mp member with rfl | old
    · exact Or.inr unused
    · exact kept other old

/-- The loop over the blocks of the block file. -/
theorem freesUnused {db : Db kh} (blockInUse : List Nat)
    (exist : db.blocksExist < 4294967296) :
    FreesUnused db (freeUnused db blockInUse) blockInUse := by
  suffices loop : ∀ (blocks : List Nat) {middle : Db kh},
      (∀ block ∈ blocks, block < 4294967296) →
      FreesUnused db middle blockInUse →
        FreesUnused db (blocks.foldl (fun db block =>
          if block < db.blocksExist ∧ block ∉ blockInUse then
            dbBlockFree db (i32 block)
          else db) middle) blockInUse by
    refine loop _ (fun block member => ?_) (FreesUnused.refl db blockInUse)
    exact (List.mem_range.mp member).trans exist
  intro blocks
  induction blocks with
  | nil => exact fun _ frees => frees
  | cons block blocks ih =>
      intro middle small frees
      refine ih (fun other member =>
        small other (List.mem_cons_of_mem _ member)) ?_
      dsimp only
      split
      · next free =>
          exact frees.free (small block List.mem_cons_self) free.2
      · exact frees

/-- Letting go of the last table does not look at the blocks. -/
theorem SameRecords.close {before after : Db kh}
    (same : SameRecords before after) (table : Option Nat) :
    SameRecords (closeLoadedTable before table)
      (closeLoadedTable after table) := by
  cases table with
  | none => exact same
  | some table =>
      obtain ⟨entry, tableHeap, tables, lru, keys, size⟩ := same
      unfold closeLoadedTable dbTableDeref dbTableActuallyDelete
      dsimp only
      rw [tableHeap]
      split
      · exact ⟨entry, rfl, by dsimp only; rw [tables], lru, keys, size⟩
      · exact ⟨entry, rfl, tables, lru, keys, size⟩

theorem SameRecords.registered {before after : Db kh}
    (same : SameRecords before after) (entry : Nat) :
    Registered after entry ↔ Registered before entry := by
  unfold Registered Holds
  rw [same.table, same.tables]

theorem closeLoadedTable_freeBlocks (db : Db kh) (table : Option Nat) :
    (closeLoadedTable db table).freeBlocks = db.freeBlocks := by
  cases table with
  | none => rfl
  | some table =>
      unfold closeLoadedTable dbTableDeref
      dsimp only
      split <;> rfl

section Closed

variable {closed after : Db kh}
  (keeps : tracing.Keeps hashString limit names entries)
  (same : KeepsEntries tracing.loading.db closed)
  (records : SameRecords closed after)

include keeps same records

theorem loadsWell_of_good
    (unused : ∀ block ∈ after.freeBlocks, block ∉ tracing.loading.blockInUse)
    (good : tracing.Good entries) : LoadsWell tracing.origin after where
  counted := by
    refine ⟨entries, ?_, ?_, ?_, ?_⟩
    · rw [records.lru, same.lru]
      exact keeps.lru
    · intro entry
      rw [records.registered, same.registered]
      exact ⟨good.registered entry, keeps.listed⟩
    · rw [records.keys, same.keys, keeps.keys]
      exact Nat.mod_eq_of_lt good.keys
    · rw [records.size, same.size, keeps.size, records.entry, same.entry]
      exact Nat.mod_eq_of_lt good.size
  blocks := by
    intro first second registeredFirst registeredSecond
    rw [records.registered, same.registered] at registeredFirst registeredSecond
    rw [records.entry, same.entry]
    exact good.blocks first (keeps.listed registeredFirst) second
      (keeps.listed registeredSecond)
  owned := by
    intro entry registered inBlock free
    rw [records.registered, same.registered] at registered
    rw [records.entry, same.entry] at inBlock free
    refine unused _ free (keeps.blocks.mpr
      ⟨entry, keeps.listed registered, ?_⟩)
    exact (Int.toNat_of_nonneg inBlock).symm
  tables := by
    intro slot table entry found holds
    unfold Holds at holds
    rw [records.table] at holds
    rw [records.tables] at found
    obtain ⟨foundBefore, holdsBefore⟩ := same.held.mp ⟨found, holds⟩
    rw [records.table, same.key foundBefore holdsBefore]
    exact good.origins foundBefore holdsBefore

theorem good_of_loadsWell
    (well : LoadsWell tracing.origin after) : tracing.Good entries := by
  obtain ⟨counted, blocks, -, tables⟩ := well
  obtain ⟨listed, represents, registered, keys, size⟩ := counted
  rw [records.lru, same.lru] at represents
  obtain rfl := keeps.lru.unique represents
  refine ⟨?_, ?_, ?_, ?_, ?_⟩
  · intro entry member
    exact (same.registered entry).mp
      ((records.registered entry).mp ((registered entry).mp member))
  · intro first memberFirst second memberSecond
    rw [← same.entry, ← records.entry]
    exact blocks ((registered first).mp memberFirst)
      ((registered second).mp memberSecond)
  · intro slot table entry found holds
    obtain ⟨foundAfter, holdsAfter⟩ := same.held.mpr ⟨found, holds⟩
    rw [← same.key found holds, ← records.table]
    rw [← records.tables] at foundAfter
    refine tables foundAfter ?_
    unfold Holds at holdsAfter ⊢
    rw [records.table]
    exact holdsAfter
  · rw [← keys, records.keys, same.keys, keeps.keys]
    exact Nat.mod_lt _ (by decide)
  · rw [← same.entry, ← records.entry, ← size, records.size, same.size,
      keeps.size]
    exact Nat.mod_lt _ (by decide)

end Closed

/-- What the loader does after the last line. -/
def Loading.finish (loading : Loading kh) : Db kh :=
  closeLoadedTable (freeUnused loading.db loading.blockInUse) loading.table

theorem Tracing.Keeps.finish_iff
    (keeps : tracing.Keeps hashString limit names entries) :
    LoadsWell tracing.origin tracing.loading.finish ↔
      tracing.Good entries := by
  obtain ⟨namesAfter, closes⟩ := keeps.close
  have frees := freesUnused tracing.loading.blockInUse keeps.exist
  have records : SameRecords tracing.loading.closed tracing.loading.finish :=
    frees.same.close tracing.loading.table
  have blocks : tracing.loading.finish.freeBlocks =
      (freeUnused tracing.loading.db tracing.loading.blockInUse).freeBlocks :=
    closeLoadedTable_freeBlocks _ _
  constructor
  · exact good_of_loadsWell keeps closes.keeps records
  · refine loadsWell_of_good keeps closes.keeps records ?_
    intro block free
    rw [blocks] at free
    rcases frees.unused block free with old | unused
    · rw [keeps.free] at old
      simp at old
    · exact unused

end Closing

section Opening

variable {hashString : Bytes → UInt32}

theorem traceLines_loading (tracing : Tracing kh) (lines : List Bytes) :
    lines.foldlM (loadLine hashString) tracing.loading =
      (traceLines hashString tracing lines).map (·.loading) := by
  induction lines generalizing tracing with
  | nil => rfl
  | cons line lines ih =>
      have traced : traceLines hashString tracing (line :: lines) =
          (traceLine hashString tracing line).bind
            (traceLines hashString · lines) := rfl
      have loaded : (line :: lines).foldlM (loadLine hashString)
          tracing.loading = (loadLine hashString tracing.loading line).bind
            (lines.foldlM (loadLine hashString) ·) := rfl
      rw [traced, loaded]
      unfold traceLine
      cases loadLine hashString tracing.loading line with
      | error fault => rfl
      | ok loading =>
          exact ih {
            loading
            nearest := nearestAfter tracing.nearest line
            origin :=
              if loading.db.entry.count = tracing.loading.db.entry.count then
                tracing.origin
              else Function.update tracing.origin
                tracing.loading.db.entry.count tracing.nearest }

theorem not_registered_empty (disk : Disk) {slot : UInt32} {table : Nat} :
    kh.lookup (emptyDb disk : Db kh).tables slot ≠ some table := by
  change kh.lookup kh.empty slot ≠ some table
  rw [BucketMap.lookup_empty]
  simp

theorem Tracing.Keeps.start (disk : Disk) :
    (Tracing.start (emptyDb disk : Db kh)).Keeps hashString 1
      (fun _ => none) [] where
  registry := {
    named := {
      allocated := fun found => absurd found (not_registered_empty disk)
      slot_eq := fun found => absurd found (not_registered_empty disk)
      length_eq := fun found => absurd found (not_registered_empty disk)
      named := fun found => absurd found (not_registered_empty disk)
      taken := fun found => absurd found (not_registered_empty disk)
      found := by simp
      room := by
        change kh.size kh.empty < 1
        rw [BucketMap.size_eq_zero_iff.mpr fun _ => BucketMap.lookup_empty]
        decide }
    counted := {
      live := fun found => absurd found (not_registered_empty disk)
      refs := fun found => absurd found (not_registered_empty disk) }
    keyed := by
      intro table hash entry found
      change kh.lookup kh.empty hash = some entry at found
      rw [BucketMap.lookup_empty] at found
      simp at found }
  current := by simp [Tracing.start]
  keyed := fun found => absurd found (not_registered_empty disk)
  plain := fun found => absurd found (not_registered_empty disk)
  present := fun _ => rfl
  nearest := by simp [Tracing.start]
  lru := Links.represents_empty
  allocated := by simp
  listed := by
    rintro entry ⟨slot, table, found, -⟩
    exact absurd found (not_registered_empty disk)
  keys := rfl
  size := rfl
  blocks := by simp [Tracing.start]
  free := rfl
  exist := Nat.mod_lt _ (by decide)

theorem Tracing.Good.start (disk : Disk) :
    (Tracing.start (emptyDb disk : Db kh)).Good [] where
  registered := by simp
  blocks := by simp
  origins := fun found => absurd found (not_registered_empty disk)
  keys := by simp
  size := by simp

theorem dbOpen_saved {disk : Disk} {text : Bytes}
    (saved : disk.indexSave = some text) :
    dbOpen hashString disk =
      (traceLines hashString (Tracing.start (emptyDb disk : Db kh))
        (splitLines text)).map (·.loading.finish) := by
  unfold dbOpen
  rw [saved]
  have loads : (splitLines text).foldlM (loadLine hashString)
      (Tracing.start (emptyDb disk : Db kh)).loading =
    (traceLines hashString (Tracing.start (emptyDb disk : Db kh))
      (splitLines text)).map (·.loading) :=
    traceLines_loading (Tracing.start (emptyDb disk)) (splitLines text)
  change dbLoadFromSave hashString (emptyDb disk) text = _
  unfold dbLoadFromSave
  change ((splitLines text).foldlM (loadLine hashString)
    (Tracing.start (emptyDb disk : Db kh)).loading).bind _ = _
  rw [loads]
  cases traceLines hashString (Tracing.start (emptyDb disk : Db kh))
    (splitLines text) with
  | error fault => rfl
  | ok tracing => rfl

/-- Opening a store with an index leaves a sound store exactly when every line
is safe where the loader comes to it. -/
theorem dbOpen_loadsWell_iff (hashString : Bytes → UInt32) (disk : Disk)
    {text : Bytes} (saved : disk.indexSave = some text) :
    (∃ (tracing : Tracing kh) (db : Db kh),
      traceLines hashString (Tracing.start (emptyDb disk)) (splitLines text) =
          .ok tracing ∧
        dbOpen hashString disk = .ok db ∧ LoadsWell tracing.origin db) ↔
      LinesSafe hashString (Tracing.start (emptyDb disk : Db kh))
        (splitLines text) := by
  have keeps : (Tracing.start (emptyDb disk : Db kh)).Keeps hashString 1
      (fun _ => none) [] := Tracing.Keeps.start disk
  have good : (Tracing.start (emptyDb disk : Db kh)).Good [] :=
    Tracing.Good.start disk
  rw [dbOpen_saved saved]
  rw [← and_iff_right (b := LinesSafe hashString _ (splitLines text)) good,
    ← keeps.run]
  constructor
  · rintro ⟨tracing, db, run, opened, well⟩
    obtain ⟨limitAfter, namesAfter, entriesAfter, keepsAfter⟩ := keeps.taken run
    rw [run] at opened
    obtain rfl := Except.ok.inj opened
    exact ⟨tracing, limitAfter, namesAfter, entriesAfter, run, keepsAfter,
      keepsAfter.finish_iff.mp well⟩
  · rintro ⟨final, limitAfter, namesAfter, entriesAfter, run, keepsAfter,
      goodAfter⟩
    rw [run]
    exact ⟨final, _, rfl, rfl, keepsAfter.finish_iff.mpr goodAfter⟩

/-- A line that cannot overrun the buffer or probe without end, and names a new
key and a new block below a table line that could be read. -/
def lineSafe (hashString : Bytes → UInt32) (tracing : Tracing kh)
    (line : Bytes) : Bool :=
  match parseLine line, tracing.loading.table with
  | .table name, _ =>
      decide (name.length < loadBufferLength) &&
        (probeTable tracing.loading.closed name
          (kh.size tracing.loading.closed.tables + 1) (hashString name)).isOk
  | .entry block dataLength _ _ key, some table =>
      let db := tracing.loading.db
      decide (key.length < loadBufferLength ∧
        kh.lookup (db.table.cacheHashSet table) (hashString key) = none ∧
        (0 ≤ block → block.toNat ∉ tracing.loading.blockInUse) ∧
        tracing.nearest ≠ none ∧
        db.dbKeys + 1 < 18446744073709551616 ∧
        db.dbSizeBytes + dataLength < 18446744073709551616)
  | _, _ => true

theorem lineSafe_sound {hashString : Bytes → UInt32} {tracing : Tracing kh}
    {line : Bytes} (passes : lineSafe hashString tracing line = true) :
    LineSafe hashString tracing line := by
  unfold lineSafe at passes
  unfold LineSafe
  split
  · next name isTable =>
      simp only [isTable, Bool.and_eq_true, decide_eq_true_eq] at passes
      refine ⟨passes.1, ?_⟩
      cases probes : probeTable tracing.loading.closed name
          (kh.size tracing.loading.closed.tables + 1) (hashString name) with
      | ok found => exact ⟨found, rfl⟩
      | error fault =>
          rw [probes] at passes
          exact absurd passes.2 Bool.false_ne_true
  · next block dataLength expires it key table isEntry isTable =>
      simp only [isEntry, isTable, decide_eq_true_eq] at passes
      obtain ⟨short, fresh, unused, named, keys, size⟩ := passes
      exact ⟨short, fun _ => ⟨fresh, unused, named, keys, size⟩⟩
  · trivial

/-- Every line passes the test where the loader comes to it. -/
def linesSafe (hashString : Bytes → UInt32) : Tracing kh → List Bytes → Bool
  | _, [] => true
  | tracing, line :: lines =>
      lineSafe hashString tracing line &&
        match traceLine hashString tracing line with
        | .ok next => linesSafe hashString next lines
        | .error _ => true

theorem linesSafe_sound {hashString : Bytes → UInt32} {tracing : Tracing kh}
    {lines : List Bytes} (passes : linesSafe hashString tracing lines = true) :
    LinesSafe hashString tracing lines := by
  induction lines generalizing tracing with
  | nil => trivial
  | cons line lines ih =>
      unfold linesSafe at passes
      obtain ⟨first, rest⟩ := Bool.and_eq_true_iff.mp passes
      refine ⟨lineSafe_sound first, fun next loads => ih ?_⟩
      rw [loads] at rest
      exact rest

end Opening

/-- A directory with a block file of one block. -/
def savedDisk (text : Bytes) : Disk :=
  { emptyDisk with
    blockfile := ByteFile.empty.truncate blockLength
    indexSave := some text }

/-- A hash that tells one-letter names apart. -/
def letterHash (name : Bytes) : UInt32 := (name.headD 0).toUInt32

def tableText : Bytes := ['t', ':', 'a', '\n'].map charByte

/-- Two keys of one table in blocks, and a key of another in a file. -/
def twoTablesText : Bytes :=
  tableText ++
    ['b', ':', '0', ':', '1', ':', '9', ':', '0', ':', 'k', '\n'].map
      charByte ++
    ['b', ':', '2', ':', '8', ':', '9', ':', '0', ':', 'l', '\n'].map
      charByte ++
    ['t', ':', 'b', '\n'].map charByte ++
    ['b', ':', '-', '1', ':', '5', '0', '0', '0', ':', '9', ':', '3', ':',
      'm', '\n'].map charByte

/-- The directory of this index, with a block file of four blocks. -/
def twoTablesDisk : Disk :=
  { emptyDisk with
    paths := fun path =>
      if path = ⟨5, 0, ['6', '2', '6', 'd'], 3⟩ then some 0 else none
    inodes := fun _ => ByteFile.empty.truncate 5000
    inodeCount := 1
    blockfile := ByteFile.empty.truncate (4 * blockLength)
    indexSave := some twoTablesText }

/-- Three entries are accepted. -/
theorem dbOpen_loadsWell_iff_tables :
    ∃ (tracing : Tracing listHash) (db : Db listHash),
      traceLines letterHash (Tracing.start (emptyDb twoTablesDisk))
          (splitLines twoTablesText) = .ok tracing ∧
        dbOpen letterHash twoTablesDisk = .ok db ∧
        LoadsWell tracing.origin db ∧ db.entry.count = 3 ∧
          db.dbKeys = 3 ∧ db.dbSizeBytes = 5009 ∧ db.freeBlocks = [3, 1] := by
  have safe : linesSafe letterHash
      (Tracing.start (emptyDb twoTablesDisk : Db listHash))
      (splitLines twoTablesText) = true := by
    decide +kernel
  have facts : (dbOpen letterHash twoTablesDisk).map (fun db : Db listHash =>
      (db.entry.count, db.dbKeys, db.dbSizeBytes, db.freeBlocks)) =
        .ok (3, 3, 5009, [3, 1]) := by
    decide +kernel
  obtain ⟨tracing, db, traces, opens, well⟩ := (dbOpen_loadsWell_iff letterHash
    twoTablesDisk rfl).mpr (linesSafe_sound safe)
  rw [opens] at facts
  simp only [Except.map, Except.ok.injEq, Prod.mk.injEq] at facts
  exact ⟨tracing, db, traces, opens, well, facts⟩

/-- Two keys of one table, both in block 0. -/
def sharedText : Bytes :=
  tableText ++
    ['b', ':', '0', ':', '1', ':', '9', ':', '0', ':', 'k', '\n'].map
      charByte ++
    ['b', ':', '0', ':', '1', ':', '9', ':', '0', ':', 'l', '\n'].map
      charByte

/-- The loader takes two entries that name one block. -/
theorem dbOpen_shares_block :
    ¬∀ (kh : KHash) (hashString : Bytes → UInt32) (disk : Disk) (text : Bytes),
      disk.indexSave = some text → ∃ (tracing : Tracing kh) (db : Db kh),
        traceLines hashString (Tracing.start (emptyDb disk))
            (splitLines text) = .ok tracing ∧
          dbOpen hashString disk = .ok db ∧ LoadsWell tracing.origin db := by
  intro claim
  obtain ⟨tracing, db, -, opened, well⟩ :=
    claim listHash letterHash (savedDisk sharedText) sharedText rfl
  have facts : (dbOpen letterHash (savedDisk sharedText)).map
      (fun db : Db listHash =>
        (db.entry.block 0, db.entry.block 1, listHash.lookup db.tables 97,
          listHash.lookup (db.table.cacheHashSet 0) 107,
          listHash.lookup (db.table.cacheHashSet 0) 108)) =
      .ok (0, 0, some 0, some 0, some 1) := by
    decide +kernel
  rw [opened] at facts
  simp only [Except.map, Except.ok.injEq, Prod.mk.injEq] at facts
  obtain ⟨firstBlock, secondBlock, table, first, second⟩ := facts
  have same := well.blocks ⟨97, 0, table, 107, first⟩ ⟨97, 0, table, 108, second⟩
    firstBlock.ge (firstBlock.trans secondBlock.symm)
  simp at same

end SimpleCache
