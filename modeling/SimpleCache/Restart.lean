import SimpleCache.Checked
import SimpleCache.RoundTrip

/-!
# What a restart keeps

A store that is opened with an index has the entries that the lines of the
index name, of those whose file or block is there.  With the index of a store
whose names are words, these are the entries that the store had.
-/

namespace SimpleCache

variable {kh : KHash}

/-- What the index says of an entry that it asked for. -/
def NewEntry.described (new : NewEntry) (name : Bytes) (it : Nat) : IndexEntry where
  table := name
  key := new.key
  block := new.block
  dataLength := new.dataLength
  expires := (new.expires % 18446744073709551616).toNat
  it

/-- The entry is where its key leads to, and is not being written. -/
def Filed (hashString : Bytes → UInt32) (db : Db kh) (entry : Nat) : Prop :=
  db.entry.hash entry =
      hashString ((db.entry.key entry).take (db.entry.keyLength entry)) ∧
    db.entry.writing entry = false

section Described

variable {hashString : Bytes → UInt32} {limit : Nat} {db before after : Db kh}
  {names namesBefore namesAfter : Bytes → Option Nat}
  {held heldBefore heldAfter : Option Nat} {saved : IndexEntry}

theorem mem_described
    (sound : Registry.Sound hashString limit { db, names } held) :
    saved ∈ described db ↔ ∃ slot table entry,
      kh.lookup db.tables slot = some table ∧ Holds db table entry ∧
        db.entry.writing entry = false ∧
        describe db (db.table.key table) entry = saved := by
  have whole : ∀ {slot table}, kh.lookup db.tables slot = some table →
      tableName db table = db.table.key table := by
    intro slot table registered
    have length : db.table.keyLength table = (db.table.key table).length :=
      sound.named.length_eq registered
    rw [tableName, length, List.take_length]
  unfold described
  simp only [List.mem_flatMap, BucketMap.mem_values_iff]
  constructor
  · rintro ⟨table, ⟨slot, registered⟩, inTable⟩
    unfold describeTable at inTable
    split at inTable
    · cases inTable
    obtain ⟨entry, holds, inEntry⟩ := List.mem_flatMap.mp inTable
    unfold describeEntry at inEntry
    split at inEntry
    · cases inEntry
    · next idle =>
        rw [List.mem_singleton, whole registered] at inEntry
        exact ⟨slot, table, entry, registered,
          BucketMap.mem_values_iff.mp holds, by simpa using (not_or.mp idle).1,
          inEntry.symm⟩
  · rintro ⟨slot, table, entry, registered, ⟨hash, holds⟩, idle, rfl⟩
    have live : db.table.deleted table = false := sound.counted.live registered
    have present : db.entry.deleted entry = false :=
      (sound.keyed holds).2.2.2
    refine ⟨table, ⟨slot, registered⟩, ?_⟩
    unfold describeTable
    rw [if_neg (by simp [live])]
    refine List.mem_flatMap.mpr
      ⟨entry, BucketMap.mem_values_iff.mpr ⟨hash, holds⟩, ?_⟩
    unfold describeEntry
    rw [if_neg (by simp [idle, present]), whole registered]
    exact List.mem_singleton_self _

theorem KeepsEntries.mem_described (keeps : KeepsEntries before after)
    (soundBefore : Registry.Sound hashString limit
      { db := before, names := namesBefore } heldBefore) {limitAfter : Nat}
    (soundAfter : Registry.Sound hashString limitAfter
      { db := after, names := namesAfter } heldAfter) :
    saved ∈ described after ↔ saved ∈ described before := by
  rw [SimpleCache.mem_described soundAfter,
    SimpleCache.mem_described soundBefore]
  constructor
  · rintro ⟨slot, table, entry, registered, holds, idle, rfl⟩
    obtain ⟨registered, holds⟩ := keeps.held.mp ⟨registered, holds⟩
    refine ⟨slot, table, entry, registered, holds, keeps.entry ▸ idle, ?_⟩
    unfold describe
    rw [keeps.key registered holds, keeps.entry]
  · rintro ⟨slot, table, entry, registered, holds, idle, rfl⟩
    obtain ⟨registeredAfter, holdsAfter⟩ := keeps.held.mpr ⟨registered, holds⟩
    refine ⟨slot, table, entry, registeredAfter, holdsAfter, ?_, ?_⟩
    · rw [keeps.entry]
      exact idle
    · unfold describe
      rw [keeps.key registered holds, keeps.entry]

theorem SameRecords.described_eq (same : SameRecords before after) :
    described after = described before := by
  obtain ⟨entry, table, tables, -, -, -⟩ := same
  unfold described describeTable describeEntry describe tableName
  rw [entry, table, tables]

section Load

variable {table it : Nat} {new : NewEntry}

theorem describe_load_new (db : Db kh) (table it : Nat)
    (short : new.key.length < loadBufferLength) (name : Bytes) :
    describe (db.load table new it) name db.entry.count =
      new.described name it := by
  have whole : new.key.length % 16384 = new.key.length :=
    Nat.mod_eq_of_lt (short.trans (by decide))
  simp [describe, NewEntry.described, Db.load, Db.enter, Db.setIt, dbEntryNew,
    whole]

theorem describe_load_old (db : Db kh) (table it : Nat) (new : NewEntry)
    {entry : Nat} (old : entry < db.entry.count) (name : Bytes) :
    describe (db.load table new it) name entry = describe db name entry := by
  simp [describe, Db.load, Db.enter, Db.setIt, dbEntryNew, old.ne]

theorem hash_load (entry : Nat) :
    (db.load table new it).entry.hash entry =
      if entry = db.entry.count then new.hash else db.entry.hash entry := by
  simp [Db.load, Db.enter, Db.setIt, dbEntryNew, Function.update_apply]

theorem writing_load (entry : Nat) :
    (db.load table new it).entry.writing entry =
      if entry = db.entry.count then false else db.entry.writing entry := by
  simp [Db.load, Db.enter, Db.setIt, dbEntryNew, Function.update_apply]

/-- An accepted entry is filed as well. -/
theorem filed_load
    (sound : Registry.Sound hashString limit { db, names } held)
    (short : new.key.length < loadBufferLength)
    (isHash : new.hash = hashString new.key)
    (filed : ∀ {slot other entry}, kh.lookup db.tables slot = some other →
      Holds db other entry → Filed hashString db entry)
    {slot : UInt32} {other entry : Nat}
    (registered : kh.lookup (db.load table new it).tables slot = some other)
    (holds : Holds (db.load table new it) other entry) :
    Filed hashString (db.load table new it) entry := by
  unfold Filed
  rw [hash_load, writing_load]
  rcases holds_load holds with ⟨-, rfl⟩ | old
  · have isKey := congrArg IndexEntry.key
      (describe_load_new db table it short [])
    rw [if_pos rfl, if_pos rfl, isHash]
    exact ⟨congrArg hashString isKey.symm, rfl⟩
  · obtain ⟨hash, found⟩ := old
    have less : entry < db.entry.count := (sound.keyed found).1
    have isKey := congrArg IndexEntry.key
      (describe_load_old db table it new less [])
    rw [if_neg less.ne, if_neg less.ne]
    obtain ⟨stored, idle⟩ := filed registered ⟨hash, found⟩
    exact ⟨stored.trans (congrArg hashString isKey.symm), idle⟩

end Load

/-- An accepted entry joins the others. -/
theorem mem_described_load {table : Nat} {new : NewEntry} {it : Nat}
    (soundBefore : Registry.Sound hashString limit
      { db, names := namesBefore } heldBefore) {limitAfter : Nat}
    (soundAfter : Registry.Sound hashString limitAfter
      { db := db.load table new it, names := namesAfter } heldAfter)
    {slot : UInt32} (registered : kh.lookup db.tables slot = some table)
    (free : kh.lookup (db.table.cacheHashSet table) new.hash = none)
    (short : new.key.length < loadBufferLength) :
    saved ∈ described (db.load table new it) ↔
      saved ∈ described db ∨ saved = new.described (db.table.key table) it := by
  rw [mem_described soundAfter, mem_described soundBefore]
  constructor
  · rintro ⟨otherSlot, other, entry, found, ⟨hash, holds⟩, idle, rfl⟩
    rw [lookup_load] at holds
    split at holds
    · next isNew =>
        obtain ⟨rfl, -⟩ := isNew
        rw [← Option.some.inj holds]
        exact Or.inr (describe_load_new db _ it short _)
    · have old := (soundBefore.keyed holds).1
      rw [writing_load, if_neg old.ne] at idle
      exact Or.inl ⟨otherSlot, other, entry, found, ⟨hash, holds⟩, idle,
        (describe_load_old db table it new old _).symm⟩
  · rintro (⟨otherSlot, other, entry, found, ⟨hash, holds⟩, idle, rfl⟩ | rfl)
    · have old := (soundBefore.keyed holds).1
      refine ⟨otherSlot, other, entry, found, ⟨hash, ?_⟩, ?_,
        describe_load_old db table it new old _⟩
      · rw [lookup_load, if_neg]
        · exact holds
        · rintro ⟨rfl, rfl⟩
          rw [free] at holds
          cases holds
      · rw [writing_load, if_neg old.ne]
        exact idle
    · refine ⟨slot, table, db.entry.count, registered, ⟨new.hash, ?_⟩, ?_,
        describe_load_new db table it short _⟩
      · rw [lookup_load, if_pos ⟨rfl, rfl⟩]
      · rw [writing_load, if_pos rfl]

end Described

/-- The file or the block of an entry is there. -/
def Survives (hashString : Bytes → UInt32) (disk : Disk)
    (saved : IndexEntry) : Prop :=
  if saved.block < 0 then
    disk.paths {
      letter1 := (hashString saved.key).toNat % 26
      letter2 := (hashString saved.key).toNat / 256 % 26
      hashes := Nat.toDigits 16 (hashString saved.table).toNat ++
        Nat.toDigits 16 (hashString saved.key).toNat
      it := saved.it } ≠ none
  else u32OfInt saved.block < u32 (disk.blockfile.length / blockLength)

/-- Two entries of one table have different hashes. -/
def HashedApart (hashString : Bytes → UInt32) (first second : IndexEntry) :
    Prop :=
  first.table = second.table → hashString first.key ≠ hashString second.key

/-- The name on a line fits the buffer that it is read into. -/
def IndexLine.Short : IndexLine → Prop
  | .table name => name.length < loadBufferLength
  | .entry _ _ _ _ key => key.length < loadBufferLength
  | .ignored => True

/-- What the loader has made of the lines above: the tables are where their
names lead, and the entries are those that were named and are there. -/
structure Loading.Shows (hashString : Bytes → UInt32) (disk : Disk)
    (named : Bytes → Prop) (current : Option Bytes) (seen : List IndexEntry)
    (loading : Loading kh) : Prop where
  isDisk : loading.db.disk = disk
  exist : loading.db.blocksExist = u32 (disk.blockfile.length / blockLength)
  located : ∀ {slot table}, kh.lookup loading.db.tables slot = some table →
    named (loading.db.table.key table) ∧
      slot = hashString (loading.db.table.key table)
  filed : ∀ {slot table entry},
    kh.lookup loading.db.tables slot = some table →
    Holds loading.db table entry → Filed hashString loading.db entry
  isCurrent : loading.table.map loading.db.table.key = current
  shown : ∀ saved, saved ∈ described loading.db ↔
    saved ∈ seen ∧ Survives hashString disk saved

theorem closeLoadedTable_disk (db : Db kh) (table : Option Nat) :
    (closeLoadedTable db table).disk = db.disk := by
  cases table with
  | none => rfl
  | some table =>
      unfold closeLoadedTable dbTableDeref
      dsimp only
      split <;> rfl

section Lines

variable {hashString : Bytes → UInt32} {limit : Nat} {tracing : Tracing kh}
  {names : Bytes → Option Nat} {entries : List Nat} {disk : Disk}
  {named : Bytes → Prop} {current : Option Bytes} {seen : List IndexEntry}
  {line name : Bytes}

/-- Where no two names have one hash, the first probe for a name decides. -/
theorem Loading.Shows.opens
    (shows_ : tracing.loading.Shows hashString disk named current seen)
    (keeps : tracing.Keeps hashString limit names entries)
    (apart : ∀ first second, named first → named second →
      hashString first = hashString second → first = second)
    (isNamed : named name) :
    ∃ db table, dbTableGetWrite hashString tracing.loading.closed name =
        .ok (db, table) ∧
      db.disk = disk ∧ db.table.key table = name ∧
      ∀ {slot other}, kh.lookup db.tables slot = some other →
        named (db.table.key other) ∧
          slot = hashString (db.table.key other) := by
  obtain ⟨namesClosed, closes⟩ := keeps.close
  have registry := closes.registry.named
  have closedDisk : tracing.loading.closed.disk = disk :=
    (closeLoadedTable_disk _ _).trans shows_.isDisk
  have before : ∀ {slot other},
      kh.lookup tracing.loading.closed.tables slot = some other →
        named (tracing.loading.closed.table.key other) ∧
          slot = hashString (tracing.loading.closed.table.key other) := by
    intro slot other registered
    rw [closes.key]
    exact shows_.located (closes.keyed registered).2
  revert closedDisk before registry
  generalize tracing.loading.closed = closed
  intro registry closedDisk before
  cases found : kh.lookup closed.tables (hashString name) with
  | none =>
      refine ⟨(dbTableNew closed name (hashString name)).1,
        closed.table.count, ?_, closedDisk, Function.update_self .., ?_⟩
      · unfold dbTableGetWrite probeTable
        rw [found]
        rfl
      · intro slot other registered
        rcases lookup_dbTableNew registered with ⟨rfl, rfl⟩ | old
        · have newKey : (dbTableNew closed name (hashString name)).1.table.key
              closed.table.count = name := Function.update_self ..
          rw [newKey]
          exact ⟨isNamed, rfl⟩
        · have kept : (dbTableNew closed name (hashString name)).1.table.key
              other = closed.table.key other :=
            Function.update_of_ne (registry.allocated old).ne ..
          rw [kept]
          exact before old
  | some table =>
      obtain ⟨wasNamed, isSlot⟩ := before found
      have same : closed.table.key table = name :=
        apart _ _ wasNamed isNamed isSlot.symm
      have length : closed.table.keyLength table = name.length :=
        same ▸ registry.length_eq found
      have isMatch : tableMatches closed table name = true := by
        unfold tableMatches
        rw [length, same, strncmpEqual_self]
        simp
      refine ⟨dbTableIncref closed table, table, ?_, closedDisk, same, before⟩
      unfold dbTableGetWrite probeTable
      rw [found]
      dsimp only
      rw [if_pos isMatch]
      rfl

/-- An entry that is not named above is not in the table yet. -/
theorem Loading.Shows.free
    (shows_ : tracing.loading.Shows hashString disk named current seen)
    (keeps : tracing.Keeps hashString limit names entries) {table : Nat}
    {slot : UInt32}
    (registered : kh.lookup tracing.loading.db.tables slot = some table)
    {key : Bytes} (apart : ∀ saved ∈ seen,
      saved.table = tracing.loading.db.table.key table →
        hashString saved.key ≠ hashString key) :
    kh.lookup (tracing.loading.db.table.cacheHashSet table)
      (hashString key) = none := by
  cases found : kh.lookup (tracing.loading.db.table.cacheHashSet table)
      (hashString key) with
  | none => rfl
  | some entry =>
      obtain ⟨isHash, idle⟩ := shows_.filed registered ⟨_, found⟩
      have member := (shows_.shown _).mp ((mem_described keeps.registry).mpr
        ⟨slot, table, entry, registered, ⟨_, found⟩, idle, rfl⟩)
      have stored : tracing.loading.db.entry.hash entry = hashString key :=
        (keeps.registry.keyed found).2.2.1
      exact absurd (isHash.symm.trans stored) (apart _ member.1 rfl)

theorem traceLine_ok {loading : Loading kh}
    (loads : loadLine hashString tracing.loading line = .ok loading) :
    ∃ next, traceLine hashString tracing line = .ok next ∧
      next.loading = loading := by
  unfold traceLine
  dsimp only
  rw [loads]
  exact ⟨_, rfl, rfl⟩

/-- A line adds the entry that it names, if it is there. -/
theorem Loading.Shows.step
    (shows_ : tracing.loading.Shows hashString disk named current seen)
    (keeps : tracing.Keeps hashString limit names entries)
    (apart : ∀ first second, named first → named second →
      hashString first = hashString second → first = second)
    (short : (parseLine line).Short)
    (isNamed : ∀ name, parseLine line = .table name → named name)
    (fresh : ∀ saved ∈ seen, ∀ new ∈ (parseLine line).entries current,
      HashedApart hashString saved new) :
    ∃ next limitAfter namesAfter entriesAfter,
      traceLine hashString tracing line = .ok next ∧
        next.Keeps hashString limitAfter namesAfter entriesAfter ∧
        next.loading.Shows hashString disk named
          ((parseLine line).current current)
          (seen ++ (parseLine line).entries current) := by
  have wellFormed := wellFormed_parseLine line
  cases parsed : parseLine line with
  | ignored =>
      have loads : loadLine hashString tracing.loading line =
          .ok tracing.loading := by
        unfold loadLine
        rw [parsed]
        rfl
      obtain ⟨next, run, same⟩ := traceLine_ok loads
      obtain ⟨limitAfter, namesAfter, entriesAfter, keepsNext, -⟩ :=
        keeps.step run
      refine ⟨next, limitAfter, namesAfter, entriesAfter, run, keepsNext, ?_⟩
      have nothing : IndexLine.entries current .ignored = [] := rfl
      rw [same, nothing, List.append_nil]
      exact shows_
  | table name =>
      rw [parsed] at short wellFormed
      obtain ⟨db, table, written, isDisk, isName, located⟩ :=
        shows_.opens keeps apart (isNamed name parsed)
      have loads : loadLine hashString tracing.loading line =
          .ok { tracing.loading with db, table := some table } := by
        unfold loadLine
        rw [parsed]
        exact loadTable_ok.mpr ⟨short, db, table, written, rfl⟩
      obtain ⟨next, run, same⟩ := traceLine_ok loads
      obtain ⟨limitAfter, namesAfter, entriesAfter, keepsNext, -⟩ :=
        keeps.step run
      obtain ⟨kept, -⟩ := keeps.table short
        (fun zero => (wellFormed.2 0 zero).2 rfl) written
      have registry := keepsNext.registry
      refine ⟨next, limitAfter, namesAfter, entriesAfter, run, keepsNext, ?_⟩
      have nothing : (IndexLine.table name).entries current = [] := rfl
      rw [same] at registry ⊢
      rw [nothing, List.append_nil]
      exact {
        isDisk := isDisk
        exist := kept.exist.trans shows_.exist
        located := located
        filed := by
          intro slot other entry registered holds
          obtain ⟨found, held⟩ := kept.held.mp ⟨registered, holds⟩
          unfold Filed
          dsimp only
          rw [kept.entry]
          exact shows_.filed found held
        isCurrent := congrArg some isName
        shown := fun saved =>
          (kept.mem_described keeps.registry registry).trans
            (shows_.shown saved) }
  | entry block dataLength expires it key =>
      rw [parsed] at short fresh wellFormed
      cases isCurrent : tracing.loading.table with
      | none =>
          have none_ : current = none := by
            rw [← shows_.isCurrent, isCurrent]
            rfl
          have loads : loadLine hashString tracing.loading line =
              .ok tracing.loading := by
            unfold loadLine loadEntry
            rw [parsed, isCurrent]
            rfl
          obtain ⟨next, run, same⟩ := traceLine_ok loads
          obtain ⟨limitAfter, namesAfter, entriesAfter, keepsNext, -⟩ :=
            keeps.step run
          refine ⟨next, limitAfter, namesAfter, entriesAfter, run, keepsNext,
            ?_⟩
          have nothing : IndexLine.entries current
              (.entry block dataLength expires it key) = [] := by
            rw [none_]
            rfl
          rw [same, nothing, List.append_nil]
          exact shows_
      | some table =>
          obtain ⟨slot, registered, -⟩ := keeps.current isCurrent
          have isSlot := (shows_.located registered).2
          have isHash : tracing.loading.db.table.hash table = slot :=
            keeps.registry.named.slot_eq registered
          have whole : (expires % 18446744073709551616 : Int).toNat =
              expires := by
            have := wellFormed.2.2.2.2.1
            omega
          have entry : IndexLine.entries current
              (.entry block dataLength expires it key) =
                [(listedEntry hashString block dataLength expires
                  key).described (tracing.loading.db.table.key table) it] := by
            rw [← shows_.isCurrent, isCurrent]
            unfold NewEntry.described listedEntry
            rw [whole]
            rfl
          rw [entry] at fresh ⊢
          have there : Accepts tracing.loading.db table (hashString key) block
              it ↔ Survives hashString disk ((listedEntry hashString block
                dataLength expires key).described
                  (tracing.loading.db.table.key table) it) := by
            unfold Accepts Survives loadedPath
            rw [shows_.isDisk, shows_.exist, isHash, isSlot]
            rfl
          have loads : loadLine hashString tracing.loading line =
              if Accepts tracing.loading.db table (hashString key) block it then
                .ok (tracing.loading.accept table
                  (listedEntry hashString block dataLength expires key) it)
              else .ok
                { tracing.loading with db := tracing.loading.db.skip } := by
            unfold loadLine
            rw [parsed]
            dsimp only
            rw [loadEntry_eq isCurrent (keeps.present table),
              if_neg (Nat.not_le_of_lt short)]
          by_cases accepts :
              Accepts tracing.loading.db table (hashString key) block it
          · rw [if_pos accepts] at loads
            have fits : (listedEntry hashString block dataLength expires
                key).key.length < loadBufferLength := short
            have free := shows_.free keeps registered fun saved member =>
              fresh saved member _ (List.mem_singleton_self _)
            obtain ⟨next, run, same⟩ := traceLine_ok loads
            obtain ⟨limitAfter, namesAfter, entriesAfter, keepsNext, -⟩ :=
              keeps.step run
            have registry := keepsNext.registry
            refine ⟨next, limitAfter, namesAfter, entriesAfter, run, keepsNext,
              ?_⟩
            rw [same] at registry ⊢
            exact {
              isDisk := shows_.isDisk
              exist := shows_.exist
              located := shows_.located
              filed := filed_load keeps.registry fits rfl shows_.filed
              isCurrent := shows_.isCurrent
              shown := by
                intro saved
                refine (mem_described_load keeps.registry registry registered
                  free fits).trans ?_
                rw [shows_.shown, List.mem_append, List.mem_singleton]
                constructor
                · rintro (⟨old, survives⟩ | rfl)
                  · exact ⟨Or.inl old, survives⟩
                  · exact ⟨Or.inr rfl, there.mp accepts⟩
                · rintro ⟨old | rfl, survives⟩
                  · exact Or.inl ⟨old, survives⟩
                  · exact Or.inr rfl }
          · rw [if_neg accepts] at loads
            obtain ⟨next, run, same⟩ := traceLine_ok loads
            obtain ⟨limitAfter, namesAfter, entriesAfter, keepsNext, -⟩ :=
              keeps.step run
            have registry := keepsNext.registry
            have kept := KeepsEntries.skip tracing.loading.db
            refine ⟨next, limitAfter, namesAfter, entriesAfter, run, keepsNext,
              ?_⟩
            rw [same] at registry ⊢
            exact {
              isDisk := shows_.isDisk
              exist := shows_.exist
              located := shows_.located
              filed := shows_.filed
              isCurrent := shows_.isCurrent
              shown := by
                intro saved
                refine (kept.mem_described keeps.registry registry).trans ?_
                rw [shows_.shown, List.mem_append, List.mem_singleton]
                constructor
                · rintro ⟨old, survives⟩
                  exact ⟨Or.inl old, survives⟩
                · rintro ⟨old | rfl, survives⟩
                  · exact ⟨old, survives⟩
                  · exact absurd (there.mpr survives) accepts }

/-- All lines together add the entries that they name and that are there. -/
theorem Loading.Shows.run {lines : List Bytes}
    (shows_ : tracing.loading.Shows hashString disk named current seen)
    (keeps : tracing.Keeps hashString limit names entries)
    (apart : ∀ first second, named first → named second →
      hashString first = hashString second → first = second)
    (short : ∀ line ∈ lines, (parseLine line).Short)
    (isNamed : ∀ line ∈ lines, ∀ name, parseLine line = .table name →
      named name)
    (distinct : (seen ++ readLines current lines).Pairwise
      (HashedApart hashString)) :
    ∃ final limitAfter namesAfter entriesAfter currentAfter,
      traceLines hashString tracing lines = .ok final ∧
        final.Keeps hashString limitAfter namesAfter entriesAfter ∧
        final.loading.Shows hashString disk named currentAfter
          (seen ++ readLines current lines) := by
  induction lines generalizing tracing limit names entries current seen with
  | nil =>
      refine ⟨tracing, limit, names, entries, current, rfl, keeps, ?_⟩
      rw [readLines, List.append_nil]
      exact shows_
  | cons line lines ih =>
      rw [readLines_cons, ← List.append_assoc] at distinct ⊢
      rw [List.forall_mem_cons] at short isNamed
      have fresh := (List.pairwise_append.mp
        (List.pairwise_append.mp distinct).1).2.2
      obtain ⟨next, limitNext, namesNext, entriesNext, run, keepsNext,
        showsNext⟩ := shows_.step keeps apart short.1 isNamed.1 fresh
      obtain ⟨final, limitAfter, namesAfter, entriesAfter, currentAfter, rest,
        keepsAfter, showsAfter⟩ :=
          ih showsNext keepsNext short.2 isNamed.2 distinct
      refine ⟨final, limitAfter, namesAfter, entriesAfter, currentAfter, ?_,
        keepsAfter, showsAfter⟩
      unfold traceLines at rest ⊢
      rw [List.foldlM_cons, run]
      exact rest

end Lines

section Opening

variable {hashString : Bytes → UInt32} {disk : Disk} {text : Bytes}

/-- Names that are looked up by their hashes, and fit the buffer of the
loader. -/
structure Loadable (hashString : Bytes → UInt32) (text : Bytes) : Prop where
  short : ∀ line ∈ splitLines text, (parseLine line).Short
  tables : ∀ first ∈ splitLines text, ∀ second ∈ splitLines text,
    ∀ name other, parseLine first = .table name →
      parseLine second = .table other →
        hashString name = hashString other → name = other
  keys : (readIndex text).Pairwise (HashedApart hashString)

theorem described_emptyDb (disk : Disk) : described (emptyDb disk : Db kh) = [] := by
  unfold described
  change (kh.values kh.empty).flatMap _ = []
  unfold BucketMap.values
  rw [kh.buckets_empty]
  rfl

theorem Loading.Shows.start (hashString : Bytes → UInt32) (disk : Disk)
    (named : Bytes → Prop) :
    (Tracing.start (emptyDb disk : Db kh)).loading.Shows hashString disk named
      none [] where
  isDisk := rfl
  exist := rfl
  located := fun found => absurd found (not_registered_empty disk)
  filed := fun found => absurd found (not_registered_empty disk)
  isCurrent := rfl
  shown := by
    intro saved
    change saved ∈ described (emptyDb disk : Db kh) ↔ _
    rw [described_emptyDb]
    simp

/-- The loader leaves the entries that the index names and that are there. -/
theorem dbOpen_loaded (saved : disk.indexSave = some text)
    (loadable : Loadable hashString text) :
    ∃ db : Db kh, dbOpen hashString disk = .ok db ∧
      ∀ entry, entry ∈ described db ↔
        entry ∈ readIndex text ∧ Survives hashString disk entry := by
  have keeps : (Tracing.start (emptyDb disk : Db kh)).Keeps hashString 1
      (fun _ => none) [] := Tracing.Keeps.start disk
  obtain ⟨final, limit, names, entries, current, run, keepsAfter, showsAfter⟩ :=
    (Loading.Shows.start hashString disk fun name =>
      ∃ line ∈ splitLines text, parseLine line = .table name).run keeps
        (fun name other ⟨first, inFirst, isFirst⟩
            ⟨second, inSecond, isSecond⟩ =>
          loadable.tables first inFirst second inSecond name other isFirst
            isSecond)
        loadable.short (fun line member name isTable => ⟨line, member, isTable⟩)
        loadable.keys
  obtain ⟨namesClosed, closes⟩ := keepsAfter.close
  have records : SameRecords final.loading.closed final.loading.finish :=
    (freesUnused final.loading.blockInUse keepsAfter.exist).same.close
      final.loading.table
  refine ⟨final.loading.finish, ?_, fun entry => ?_⟩
  · rw [dbOpen_saved saved, run]
    rfl
  · rw [records.described_eq, closes.keeps.mem_described keepsAfter.registry
      closes.registry]
    exact showsAfter.shown entry

end Opening

/-- All names of a store are words. -/
structure Worded (db : Db kh) : Prop where
  tables : ∀ table < db.table.count, Plain (db.table.key table)
  keys : ∀ entry < db.entry.count,
    Plain ((db.entry.key entry).take (db.entry.keyLength entry))

section Worded

variable {hashString : Bytes → UInt32} {limit : Nat} {db after : Db kh}
  {tracing next : Tracing kh} {names : Bytes → Option Nat}
  {entries : List Nat} {line name : Bytes} {table : Nat}

theorem Worded.close (worded : Worded db) (table : Option Nat) :
    Worded (closeLoadedTable db table) := by
  cases table with
  | none => exact worded
  | some table =>
      unfold closeLoadedTable dbTableDeref
      dsimp only
      split
      · exact ⟨worded.tables, worded.keys⟩
      · exact ⟨worded.tables, worded.keys⟩

theorem Worded.getWrite (worded : Worded db) (plain : Plain name)
    (run : dbTableGetWrite hashString db name = .ok (after, table)) :
    Worded after := by
  unfold dbTableGetWrite at run
  rw [bind_eq_ok] at run
  obtain ⟨found, -, run⟩ := run
  cases found with
  | inl free =>
      have created : dbTableNew db name free = (after, table) :=
        pure_eq_ok.mp run
      obtain rfl : (dbTableNew db name free).1 = after :=
        congrArg Prod.fst created
      refine ⟨fun other allocated => ?_, worded.keys⟩
      change other < db.table.count + 1 at allocated
      change Plain (Function.update db.table.key db.table.count name other)
      by_cases isNew : other = db.table.count
      · rw [isNew, Function.update_self]
        exact plain
      · rw [Function.update_of_ne isNew]
        exact worded.tables other (by omega)
  | inr old =>
      obtain ⟨rfl, rfl⟩ := Prod.mk.inj (pure_eq_ok.mp run)
      exact ⟨worded.tables, worded.keys⟩

theorem Worded.load (worded : Worded db) {new : NewEntry} (it : Nat)
    (plain : Plain new.key) (short : new.key.length < loadBufferLength) :
    Worded (db.load table new it) where
  tables := worded.tables
  keys := by
    intro entry allocated
    change entry < db.entry.count + 1 at allocated
    by_cases isNew : entry = db.entry.count
    · rw [isNew]
      have isKey := congrArg IndexEntry.key
        (describe_load_new db table it short [])
      exact (congrArg Plain isKey).mpr plain
    · have old : entry < db.entry.count := by omega
      have isKey := congrArg IndexEntry.key
        (describe_load_old db table it new old [])
      exact (congrArg Plain isKey).mpr (worded.keys entry old)

/-- No line brings a name that is no word. -/
theorem Worded.step (worded : Worded tracing.loading.db)
    (keeps : tracing.Keeps hashString limit names entries)
    (run : traceLine hashString tracing line = .ok next) :
    Worded next.loading.db := by
  have wellFormed := wellFormed_parseLine line
  unfold traceLine at run
  rw [bind_eq_ok] at run
  obtain ⟨loading, loads, run⟩ := run
  obtain rfl := pure_eq_ok.mp run
  dsimp only
  unfold loadLine at loads
  cases parsed : parseLine line with
  | ignored =>
      rw [parsed] at loads
      obtain rfl := pure_eq_ok.mp loads
      exact worded
  | table name =>
      rw [parsed] at loads wellFormed
      obtain ⟨-, db, table, written, rfl⟩ := loadTable_ok.mp loads
      exact (worded.close _).getWrite wellFormed written
  | entry block dataLength expires it key =>
      rw [parsed] at loads wellFormed
      dsimp only at loads
      cases isCurrent : tracing.loading.table with
      | none =>
          unfold loadEntry at loads
          rw [isCurrent] at loads
          obtain rfl := pure_eq_ok.mp loads
          exact worded
      | some table =>
          rw [loadEntry_eq isCurrent (keeps.present table)] at loads
          split at loads
          · cases loads
          · next short =>
              split at loads
              · obtain rfl := Except.ok.inj loads
                exact worded.load it wellFormed.1 (Nat.lt_of_not_le short)
              · obtain rfl := Except.ok.inj loads
                exact ⟨worded.tables, worded.keys⟩

theorem Worded.run {lines : List Bytes} (worded : Worded tracing.loading.db)
    (keeps : tracing.Keeps hashString limit names entries)
    (run : traceLines hashString tracing lines = .ok next) :
    Worded next.loading.db := by
  induction lines generalizing tracing limit names entries with
  | nil =>
      obtain rfl := pure_eq_ok.mp run
      exact worded
  | cons line lines ih =>
      unfold traceLines at run
      rw [List.foldlM_cons, bind_eq_ok] at run
      obtain ⟨middle, first, rest⟩ := run
      obtain ⟨limitNext, namesNext, entriesNext, keepsNext, -⟩ :=
        keeps.step first
      exact ih (worded.step keeps first) keepsNext rest

/-- Whatever the index is, a store that is opened with it has words for
names. -/
theorem plain_of_dbOpen {disk : Disk} {text : Bytes}
    (saved : disk.indexSave = some text)
    (opened : dbOpen hashString disk = .ok db) :
    ∀ entry ∈ described db, Plain entry.table ∧ Plain entry.key := by
  have keeps : (Tracing.start (emptyDb disk : Db kh)).Keeps hashString 1
      (fun _ => none) [] := Tracing.Keeps.start disk
  have nothing : Worded (Tracing.start (emptyDb disk : Db kh)).loading.db :=
    ⟨fun _ less => absurd less (Nat.not_lt_zero _),
      fun _ less => absurd less (Nat.not_lt_zero _)⟩
  rw [dbOpen_saved saved] at opened
  cases run : traceLines hashString (Tracing.start (emptyDb disk : Db kh))
      (splitLines text) with
  | error fault =>
      rw [run] at opened
      cases opened
  | ok final =>
      rw [run] at opened
      obtain rfl : final.loading.finish = db := Except.ok.inj opened
      obtain ⟨limitAfter, namesAfter, entriesAfter, keepsAfter⟩ :=
        keeps.taken run
      have worded := (nothing.run keeps run).close final.loading.table
      obtain ⟨namesClosed, closes⟩ := keepsAfter.close
      have records : SameRecords final.loading.closed final.loading.finish :=
        (freesUnused final.loading.blockInUse keepsAfter.exist).same.close
          final.loading.table
      intro entry member
      rw [records.described_eq, mem_described closes.registry] at member
      obtain ⟨slot, table, held, registered, ⟨hash, holds⟩, -, rfl⟩ := member
      exact ⟨worded.tables table (closes.registry.named.allocated registered),
        worded.keys held (closes.registry.keyed holds).1⟩

end Worded

/-- The names of a store fit the buffer of the loader and the hashes tell them
apart, and its numbers are those of their fields. -/
structure Separate (hashString : Bytes → UInt32) (db : Db kh) : Prop where
  tables : ∀ first ∈ kh.values db.tables, ∀ second ∈ kh.values db.tables,
    db.table.deleted first = false → db.table.deleted second = false →
      hashString (tableName db first) = hashString (tableName db second) →
        tableName db first = tableName db second
  keys : (described db).Pairwise (HashedApart hashString)
  shortTables : ∀ table ∈ kh.values db.tables,
    db.table.deleted table = false →
      (tableName db table).length < loadBufferLength
  shortKeys : ∀ entry ∈ described db, entry.key.length < loadBufferLength
  fits : ∀ entry ∈ described db, entry.Fits

section Saving

variable {hashString : Bytes → UInt32} {db : Db kh} {text : Bytes}

theorem parseLine_saved (savable : Savable db)
    (saved : indexText db = .ok text) :
    ∀ line ∈ splitLines text,
      (∃ table ∈ kh.values db.tables, db.table.deleted table = false ∧
        parseLine line = .table (tableName db table)) ∨
      ∃ entry ∈ described db, parseLine line = entry.line := by
  intro line member
  rw [indexText_eq saved,
    splitLines_flatten (newline_notMem_tableLines savable)] at member
  obtain ⟨inner, inLines, rfl⟩ := List.mem_map.mp member
  obtain ⟨table, registered, inTable⟩ := List.mem_flatMap.mp inLines
  unfold tableLines at inTable
  split at inTable
  · cases inTable
  · next present =>
      have live : db.table.deleted table = false := by simpa using present
      rcases List.mem_cons.mp inTable with rfl | ofEntry
      · exact Or.inl ⟨table, registered, live,
          parseLine_namedText (savable.tables table registered live)⟩
      · obtain ⟨entry, inEntries, rfl⟩ := List.mem_map.mp ofEntry
        have inStore : entry ∈ described db :=
          List.mem_flatMap.mpr ⟨table, registered, inEntries⟩
        exact Or.inr ⟨entry, inStore, parseLine_described
          (savable.fits entry inStore) (savable.keys entry inStore)⟩

theorem Separate.loadable (separate : Separate hashString db)
    (savable : Savable db) (saved : indexText db = .ok text) : Loadable hashString text where
  short := by
    intro line member
    rcases parseLine_saved savable saved line member with
      ⟨table, registered, live, parsed⟩ | ⟨entry, inStore, parsed⟩
    · rw [parsed]
      exact separate.shortTables table registered live
    · rw [parsed]
      exact separate.shortKeys entry inStore
  tables := by
    intro first inFirst second inSecond name other isFirst isSecond hashes
    have named : ∀ line ∈ splitLines text, ∀ name,
        parseLine line = .table name → ∃ table ∈ kh.values db.tables,
          db.table.deleted table = false ∧ name = tableName db table := by
      intro line member name isTable
      rcases parseLine_saved savable saved line member with
        ⟨table, registered, live, parsed⟩ | ⟨entry, -, parsed⟩
      · rw [parsed] at isTable
        exact ⟨table, registered, live, (IndexLine.table.inj isTable).symm⟩
      · rw [parsed] at isTable
        cases isTable
    obtain ⟨one, registered, live, rfl⟩ := named first inFirst name isFirst
    obtain ⟨two, alsoRegistered, alsoLive, rfl⟩ :=
      named second inSecond other isSecond
    exact separate.tables one registered two alsoRegistered live alsoLive
      hashes
  keys := by
    rw [readIndex_saved savable saved]
    exact separate.keys

/-- A restart keeps the entries that were not being written, of those whose
file or block is still there, and adds none. -/
theorem dbOpen_restores {before : Db kh} (separate : Separate hashString before)
    (savable : Savable before) (flushed : indexText before = .ok text)
    {disk : Disk} (saved : disk.indexSave = some text) :
    ∃ after : Db kh, dbOpen hashString disk = .ok after ∧
      ∀ entry, entry ∈ described after ↔
        entry ∈ described before ∧ Survives hashString disk entry := by
  obtain ⟨after, opened, same⟩ :=
    dbOpen_loaded saved (separate.loadable savable flushed)
  refine ⟨after, opened, fun entry => ?_⟩
  rw [same, readIndex_saved savable flushed]

instance (described : IndexEntry) : Decidable described.Fits :=
  decidable_of_iff
    ((-2147483648 ≤ described.block ∧ described.block < 2147483648) ∧
      described.dataLength < 4294967296 ∧ described.expires < 4294967296 ∧
        described.it < 65536)
    ⟨fun ⟨⟨low, high⟩, dataLength, expires, it⟩ =>
        ⟨low, high, dataLength, expires, it⟩,
      fun fits => ⟨⟨fits.low, fits.high⟩, fits.dataLength, fits.expires,
        fits.it⟩⟩

instance (first second : IndexEntry) :
    Decidable (HashedApart hashString first second) :=
  inferInstanceAs (Decidable (_ → _))

instance (disk : Disk) (saved : IndexEntry) :
    Decidable (Survives hashString disk saved) :=
  inferInstanceAs (Decidable (ite ..))

instance (db : Db kh) : Decidable (Savable db) :=
  decidable_of_iff
    ((∀ table ∈ kh.values db.tables, db.table.deleted table = false →
        Plain (tableName db table)) ∧
      ∀ entry ∈ described db, Plain entry.key ∧ entry.Fits)
    ⟨fun ⟨tables, entries⟩ => ⟨tables, fun entry member =>
        (entries entry member).1, fun entry member => (entries entry member).2⟩,
      fun savable => ⟨savable.tables, fun entry member =>
        ⟨savable.keys entry member, savable.fits entry member⟩⟩⟩

instance (db : Db kh) : Decidable (Separate hashString db) :=
  decidable_of_iff
    ((∀ first ∈ kh.values db.tables, ∀ second ∈ kh.values db.tables,
        db.table.deleted first = false → db.table.deleted second = false →
          hashString (tableName db first) = hashString (tableName db second) →
            tableName db first = tableName db second) ∧
      (described db).Pairwise (HashedApart hashString) ∧
      (∀ table ∈ kh.values db.tables, db.table.deleted table = false →
        (tableName db table).length < loadBufferLength) ∧
      ∀ entry ∈ described db,
        entry.key.length < loadBufferLength ∧ entry.Fits)
    ⟨fun ⟨tables, keys, short, entries⟩ => ⟨tables, keys, short,
        fun entry member => (entries entry member).1,
        fun entry member => (entries entry member).2⟩,
      fun separate => ⟨separate.tables, separate.keys, separate.shortTables,
        fun entry member =>
          ⟨separate.shortKeys entry member, separate.fits entry member⟩⟩⟩

/-- Two tables with keys in blocks and in a file, after keys were replaced and
deleted, and while another one is being written. -/
theorem twoTables_reachable :
    ∃ server : Server listHash,
      (serverMachine listEnv fun _ => True).Reachable Machine.anyStep server ∧
        (described server.db).map IndexEntry.key = [[120], [107], [109]] ∧
        server.db.entry.writing 6 = true ∧ Savable server.db ∧
        Separate letterHash server.db ∧
        (∀ table ∈ listHash.values server.db.tables,
          server.db.table.deleted table = false →
            describeTable server.db table ≠ []) ∧
        (∀ entry ∈ described server.db,
          Survives letterHash server.db.disk entry) ∧
        (indexText server.db).toOption.isSome = true ∧
        ∀ entry ∈ described server.db,
          Survives letterHash { server.db.disk with paths := fun _ => none }
            entry ↔ entry.key ≠ [109] := by
  have ends : endsWithin twoTablesDisk (fun _ _ => true)
      (replaceUnderReader ++ resolves 0 .put 98 122) (fun server =>
        decide ((described server.db).map IndexEntry.key =
            [[120], [107], [109]] ∧
          server.db.entry.writing 6 = true ∧ Savable server.db ∧
          Separate letterHash server.db ∧
          (∀ table ∈ listHash.values server.db.tables,
            server.db.table.deleted table = false →
              describeTable server.db table ≠ []) ∧
          (∀ entry ∈ described server.db,
            Survives letterHash server.db.disk entry) ∧
          (indexText server.db).toOption.isSome = true ∧
          ∀ entry ∈ described server.db,
            Survives letterHash { server.db.disk with paths := fun _ => none }
              entry ↔ entry.key ≠ [109])) = true := by
    decide +kernel
  obtain ⟨server, reachable, final⟩ :=
    @reachable_of_endsWithin (fun _ => True) twoTablesDisk Machine.anyStep _
      trivial (fun _ _ _ => trivial) _ _ ends
  exact ⟨server, reachable, of_decide_eq_true final⟩

theorem indexText_some {db : Db kh}
    (some_ : (indexText db).toOption.isSome = true) :
    ∃ text, indexText db = .ok text := by
  cases flushed : indexText db with
  | error fault =>
      rw [flushed] at some_
      cases some_
  | ok text => exact ⟨text, rfl⟩

/-- The entry that is being written and the one whose file is gone do not come
back. -/
theorem dbOpen_restores_tables :
    ∃ (server : Server listHash) (text : Bytes) (after : Db listHash),
      (serverMachine listEnv fun _ => True).Reachable Machine.anyStep server ∧
        (described server.db).map IndexEntry.key = [[120], [107], [109]] ∧
        server.db.entry.writing 6 = true ∧
        dbOpen letterHash { server.db.disk with
          paths := fun _ => none
          indexSave := some text } = .ok after ∧
        ∀ entry, entry ∈ described after ↔
          entry ∈ described server.db ∧ entry.key ≠ [109] := by
  obtain ⟨server, reachable, keys, isWriting, savable, separate, -, -, flushes,
    survives⟩ := twoTables_reachable
  obtain ⟨text, flushed⟩ := indexText_some flushes
  have saved : ({ server.db.disk with
      paths := fun _ => none, indexSave := some text } : Disk).indexSave =
        some text := rfl
  obtain ⟨after, opened, same⟩ :=
    dbOpen_restores separate savable flushed saved
  refine ⟨server, text, after, reachable, keys, isWriting, opened,
    fun entry => ?_⟩
  rw [same]
  exact and_congr_right (survives entry)

theorem Separate.savable (separate : Separate hashString db)
    (used : ∀ table ∈ kh.values db.tables,
      db.table.deleted table = false → describeTable db table ≠ [])
    (plain : ∀ entry ∈ described db, Plain entry.table ∧ Plain entry.key) :
    Savable db where
  tables := by
    intro table registered live
    obtain ⟨entry, inTable⟩ :=
      List.exists_mem_of_ne_nil _ (used table registered live)
    have inStore : entry ∈ described db :=
      List.mem_flatMap.mpr ⟨table, registered, inTable⟩
    rw [← table_of_describeTable entry inTable]
    exact (plain entry inStore).1
  keys := fun entry member => (plain entry member).2
  fits := separate.fits

/-- Where every table has an entry to be saved and every file and block is
there, a restart brings the store back exactly when all its names are words. -/
theorem dbOpen_restores_iff {before : Db kh}
    (separate : Separate hashString before)
    (used : ∀ table ∈ kh.values before.tables,
      before.table.deleted table = false → describeTable before table ≠ [])
    (flushed : indexText before = .ok text) {disk : Disk}
    (saved : disk.indexSave = some text)
    (there : ∀ entry ∈ described before, Survives hashString disk entry) :
    (∃ after : Db kh, dbOpen hashString disk = .ok after ∧
      ∀ entry, entry ∈ described after ↔ entry ∈ described before) ↔
        ∀ entry ∈ described before, Plain entry.table ∧ Plain entry.key := by
  constructor
  · rintro ⟨after, opened, same⟩ entry member
    exact plain_of_dbOpen saved opened entry ((same entry).mpr member)
  · intro plain
    have savable := separate.savable used plain
    obtain ⟨after, opened, same⟩ :=
      dbOpen_loaded saved (separate.loadable savable flushed)
    refine ⟨after, opened, fun entry => ?_⟩
    rw [same, readIndex_saved savable flushed]
    exact and_iff_left_of_imp (there entry)

theorem dbOpen_restores_iff_tables :
    ∃ (server : Server listHash) (text : Bytes),
      (serverMachine listEnv fun _ => True).Reachable Machine.anyStep server ∧
        (described server.db).map IndexEntry.key = [[120], [107], [109]] ∧
        server.db.entry.writing 6 = true ∧
        ((∃ after : Db listHash, dbOpen letterHash { server.db.disk with
              indexSave := some text } = .ok after ∧
            ∀ entry, entry ∈ described after ↔ entry ∈ described server.db) ↔
          ∀ entry ∈ described server.db,
            Plain entry.table ∧ Plain entry.key) := by
  obtain ⟨server, reachable, keys, isWriting, -, separate, used, there, flushes,
    -⟩ := twoTables_reachable
  obtain ⟨text, flushed⟩ := indexText_some flushes
  have saved : ({ server.db.disk with indexSave := some text } : Disk).indexSave =
      some text := rfl
  exact ⟨server, text, reachable, keys, isWriting,
    dbOpen_restores_iff separate used flushed saved there⟩

/-- The directory after a flush. -/
def Db.saved (db : Db kh) (text : Bytes) : Disk :=
  { db.disk with indexSave := some text }

/-- A flush and a restart on the directory of the store bring back what was
complete, and nothing else. -/
def ComesBack (hashString : Bytes → UInt32) (db : Db kh) : Prop :=
  ∃ (text : Bytes) (after : Db kh), indexText db = .ok text ∧
    dbOpen hashString (db.saved text) = .ok after ∧
      ∀ entry, entry ∈ described after ↔ entry ∈ described db

/-- The keys of a store, and those of the store that a restart makes of it. -/
def keysBack (db : Db listHash) : Option (List Bytes × List Bytes) :=
  match indexText db with
  | .error _ => none
  | .ok text =>
      match dbOpen letterHash (db.saved text) with
      | .error _ => none
      | .ok (after : Db listHash) =>
          some ((described db).map IndexEntry.key,
            (described after).map IndexEntry.key)

theorem ComesBack.keys {db : Db listHash} (comes : ComesBack letterHash db)
    {before after : List Bytes} (back : keysBack db = some (before, after)) :
    ∀ key, key ∈ after ↔ key ∈ before := by
  obtain ⟨text, restored, flushed, opened, same⟩ := comes
  unfold keysBack at back
  rw [flushed] at back
  dsimp only at back
  rw [opened] at back
  obtain ⟨rfl, rfl⟩ := Prod.mk.inj (Option.some.inj back)
  intro key
  simp only [List.mem_map, same]

end Saving

end SimpleCache
