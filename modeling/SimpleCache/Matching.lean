import Mathlib.Data.List.TakeWhile
import SimpleCache.Names
import SimpleCache.Opening

/-!
# What a lookup compares

A key or name that is found under its hash is compared with the stored one by
the recorded length and by `strncmp`.  Here is which stored strings these
take for another.
-/

namespace SimpleCache

variable {kh : KHash}

/-- The part of a string that `strncmp` looks at. -/
def upToZero (text : Bytes) : Bytes :=
  text.takeWhile fun byte => byte != 0

/-- The asked string is not the stored one, but has the length that was
recorded for it, and differs only behind a zero byte or behind its own end. -/
def Confused (width : Nat) (stored asked : Bytes) : Prop :=
  stored ≠ asked ∧ stored.length % width = asked.length ∧
    upToZero (stored.take asked.length) = upToZero asked

/-- What is looked up has the key or name that was asked for. -/
structure LooksUpExactly (hashString : Bytes → UInt32) (db : Db kh)
    (table : Nat) (key name : Bytes) : Prop where
  getRead : ∀ after entry,
    dbEntryGetRead hashString db table key = .ok (after, some entry) →
      db.entry.key entry = key
  getDelete : ∀ after entry,
    dbEntryGetDelete hashString db table key = .ok (after, some entry) →
      db.entry.key entry = key
  tableRead : ∀ after found,
    dbTableGetRead hashString db name = .ok (after, some found) →
      db.table.key found = name
  tableWrite : ∀ after found,
    dbTableGetWrite hashString db name = .ok (after, found) →
      found < db.table.count → db.table.key found = name

/-- The entry under the hash of the key is not taken for it, nor is the table
that the probes for the name come to. -/
structure Distinguished (hashString : Bytes → UInt32) (db : Db kh)
    (table : Nat) (key name : Bytes) : Prop where
  key : db.table.destroyed table = false → ∀ entry,
    kh.lookup (db.table.cacheHashSet table) (hashString key) = some entry →
      ¬Confused 16384 (db.entry.key entry) key
  name : ∀ slot found, kh.lookup db.tables slot = some found →
    Probing.Passes (kh.lookup db.tables)
      (fun other => tableMatches db other name) (hashString name) slot →
        ¬Confused 65536 (db.table.key found) name

theorem strncmpEqual_iff (length : Nat) (first second : Bytes) :
    strncmpEqual length first second = true ↔
      upToZero (first.take length) = upToZero (second.take length) := by
  induction length generalizing first second with
  | zero => simp [strncmpEqual]
  | succ length ih =>
      cases first with
      | nil =>
          cases second with
          | nil => simp [strncmpEqual]
          | cons byte second =>
              by_cases zero : byte = 0
              · simp [strncmpEqual, upToZero, zero]
              · simp [strncmpEqual, upToZero, zero]
      | cons byte first =>
          cases second with
          | nil =>
              by_cases zero : byte = 0
              · simp [strncmpEqual, upToZero, zero]
              · simp [strncmpEqual, upToZero, zero]
          | cons other second =>
              have rest := ih first second
              unfold upToZero at rest ⊢
              by_cases zero : byte = 0
              · by_cases same : other = 0
                · simp [strncmpEqual, zero, same]
                · simp [strncmpEqual, zero, same, Ne.symm same]
              · by_cases same : byte = other
                · subst same
                  simpa [strncmpEqual, zero] using rest
                · by_cases otherZero : other = 0
                  · simp [strncmpEqual, zero, otherZero]
                  · simp [strncmpEqual, zero, same, otherZero]

/-- A comparison is wrong exactly for a string that is taken for another. -/
theorem matches_iff {width recorded : Nat} {stored asked : Bytes}
    (isRecorded : recorded = stored.length % width) :
    (recorded == asked.length &&
        strncmpEqual asked.length stored asked) = true ∧ stored ≠ asked ↔
      Confused width stored asked := by
  rw [Bool.and_eq_true, beq_iff_eq, strncmpEqual_iff, List.take_length,
    isRecorded]
  unfold Confused
  constructor
  · rintro ⟨⟨length, same⟩, different⟩
    exact ⟨different, length, same⟩
  · rintro ⟨different, length, same⟩
    exact ⟨⟨length, same⟩, different⟩

theorem strncmpEqual_comm (length : Nat) (first second : Bytes) :
    strncmpEqual length first second = strncmpEqual length second first := by
  rw [Bool.eq_iff_iff, strncmpEqual_iff, strncmpEqual_iff, eq_comm]

/-- Every entry and every table has the length of its string on record, as
far as the field holds it. -/
structure Measured (entries : EntryHeap) (tables : TableHeap kh) : Prop where
  entry : ∀ entry < entries.count,
    entries.keyLength entry = (entries.key entry).length % 16384
  table : ∀ table < tables.count,
    tables.keyLength table = (tables.key table).length % 65536

def Work.Measured (work : Work kh) : Prop :=
  SimpleCache.Measured work.db.entry work.db.table

section Records

variable {hashString : Bytes → UInt32} {allowed : Defect → Prop}
  {before after : Work kh}

private theorem measured_createTable (measured : before.Measured)
    (name : Bytes) (hash : UInt32) :
    SimpleCache.Measured before.db.entry
      (dbTableNew before.db name hash).1.table := by
  refine ⟨measured.entry, fun table allocated => ?_⟩
  have allocated : table < before.db.table.count + 1 := allocated
  change Function.update before.db.table.keyLength before.db.table.count
      (u16 name.length) table =
    (Function.update before.db.table.key before.db.table.count name
      table).length % 65536
  by_cases same : table = before.db.table.count
  · subst same
    rw [Function.update_self, Function.update_self]
    rfl
  · rw [Function.update_of_ne same, Function.update_of_ne same]
    exact measured.table table (by omega)

private theorem measured_enter (measured : before.Measured) (new : NewEntry)
    {entries : EntryHeap} {tables : TableHeap kh}
    (count : entries.count = before.db.entry.count + 1)
    (key : entries.key =
      Function.update before.db.entry.key before.db.entry.count new.key)
    (keyLength : entries.keyLength =
      Function.update before.db.entry.keyLength before.db.entry.count
        (new.key.length % 16384))
    (tableCount : tables.count = before.db.table.count)
    (tableKey : tables.key = before.db.table.key)
    (tableLength : tables.keyLength = before.db.table.keyLength) :
    SimpleCache.Measured entries tables := by
  refine ⟨fun entry allocated => ?_, ?_⟩
  · rw [key, keyLength]
    by_cases same : entry = before.db.entry.count
    · subst same
      rw [Function.update_self, Function.update_self]
    · rw [Function.update_of_ne same, Function.update_of_ne same]
      exact measured.entry entry (by omega)
  · rw [tableCount, tableKey, tableLength]
    exact measured.table

theorem Change.measured (change : Change hashString allowed before after)
    (measured : before.Measured) : after.Measured := by
  cases change with
  | createTable name hash => exact measured_createTable measured name hash
  | loadCreateTable name hash => exact measured_createTable measured name hash
  | enter table new =>
      exact measured_enter measured new rfl rfl rfl rfl rfl rfl
  | load table new =>
      exact measured_enter measured new rfl rfl rfl rfl rfl rfl
  | _ => exact ⟨measured.entry, measured.table⟩

theorem carries_measured (env : Env) (allowed : Defect → Prop) :
    Carries env allowed Work.Measured where
  change := fun _ change measured => change.measured measured
  alike := by
    intro first second alike measured
    unfold Work.Measured at measured ⊢
    rw [← alike.db]
    exact measured
  outside := by
    intro server after event loaded outside sound run measured
    obtain ⟨⟨currentTime, currentUsec, flush, indexSave, same⟩, -, -⟩ :=
      serverStep_outside outside sound run
    have entry : after.db.entry = server.db.entry := by rw [same]; rfl
    have table : after.db.table = server.db.table := by rw [same]; rfl
    change SimpleCache.Measured after.db.entry after.db.table
    rw [entry, table]
    exact measured

end Records

section Lookups

variable {hashString : Bytes → UInt32} {db : Db kh} {table : Nat}
  {key name : Bytes}

theorem dbEntryGetRead_matches {after : Db kh} {entry : Nat}
    (run : dbEntryGetRead hashString db table key = .ok (after, some entry)) :
    db.table.destroyed table = false ∧
      kh.lookup (db.table.cacheHashSet table) (hashString key) = some entry ∧
      entryMatches db entry key = true := by
  unfold dbEntryGetRead at run
  simp only [bind_eq_ok, keyMap_eq_ok] at run
  obtain ⟨set, ⟨present, rfl⟩, run⟩ := run
  split at run
  · cases (Prod.mk.inj (pure_eq_ok.mp run)).2
  next other lookup =>
  split at run
  · obtain ⟨taken, -, removed, -, run⟩ := by
      simpa only [bind_eq_ok] using run
    cases (Prod.mk.inj (pure_eq_ok.mp run)).2
  · split at run
    · cases (Prod.mk.inj (pure_eq_ok.mp run)).2
    next matching =>
    split at run
    · cases (Prod.mk.inj (pure_eq_ok.mp run)).2
    · simp only [bind_eq_ok, pure_eq_ok, Prod.mk.injEq,
        Option.some.injEq] at run
      obtain ⟨taken, -, -, rfl⟩ := run
      exact ⟨present, lookup, by simpa using matching⟩

theorem dbEntryGetDelete_iff {entry : Nat} :
    (∃ after,
      dbEntryGetDelete hashString db table key = .ok (after, some entry)) ↔
      db.table.destroyed table = false ∧
        kh.lookup (db.table.cacheHashSet table) (hashString key) =
          some entry ∧ entryMatches db entry key = true := by
  unfold dbEntryGetDelete
  constructor
  · rintro ⟨after, run⟩
    simp only [bind_eq_ok, keyMap_eq_ok] at run
    obtain ⟨set, ⟨present, rfl⟩, run⟩ := run
    split at run
    · cases (Prod.mk.inj (pure_eq_ok.mp run)).2
    next other lookup =>
    split at run
    · cases (Prod.mk.inj (pure_eq_ok.mp run)).2
    next matching =>
    simp only [bind_eq_ok, pure_eq_ok, Prod.mk.injEq, Option.some.injEq] at run
    obtain ⟨taken, -, -, rfl⟩ := run
    exact ⟨present, lookup, by simpa using matching⟩
  · rintro ⟨present, lookup, matching⟩
    rw [keyMap_eq_ok.mpr ⟨present, rfl⟩, ok_bind, lookup]
    dsimp only
    rw [if_neg (by simp [matching])]
    exact ⟨_, rfl⟩

/-- The table that the probes for a name end at. -/
theorem probeTable_iff {found : Nat} :
    probeTable db name (kh.size db.tables + 1) (hashString name) =
        .ok (.inr found) ↔
      ∃ slot, kh.lookup db.tables slot = some found ∧
        Probing.Passes (kh.lookup db.tables)
          (fun other => tableMatches db other name) (hashString name) slot ∧
        tableMatches db found name = true := by
  rw [probeTable_eq_probe]
  constructor
  · intro run
    split at run
    · cases run
    · cases Except.ok.inj run
    next slot other probed =>
    obtain rfl := Sum.inr.inj (Except.ok.inj run)
    obtain ⟨passes, ends, content⟩ := Probing.probe_end probed
    exact ⟨slot, content.symm, passes, ends other content.symm⟩
  · rintro ⟨slot, content, passes, wanted⟩
    have probed : Probing.probe (kh.lookup db.tables)
        (fun other => tableMatches db other name) (kh.size db.tables + 1)
        (hashString name) = some (slot, some found) := by
      by_cases room : (kh.keys db.tables).length < 4294967296
      · have inKeys : ∀ other, kh.lookup db.tables other ≠ none →
            other ∈ kh.keys db.tables := fun _ => BucketMap.mem_keys_iff.mpr
        have probed := Probing.probe_found inKeys room passes content wanted
        rw [BucketMap.length_keys] at probed
        exact probed
      · have ends : Probing.Ends (kh.lookup db.tables)
            (fun other => tableMatches db other name) slot := by
          intro other otherContent
          obtain rfl := Option.some.inj (content.symm.trans otherContent)
          exact wanted
        rw [BucketMap.length_keys] at room
        have near := (slot - hashString name).toNat_lt
        rw [Probing.probe_eq passes ends (by omega), content]
    rw [probed]

theorem dbTableGetRead_iff {found : Nat} :
    (∃ after, dbTableGetRead hashString db name = .ok (after, some found)) ↔
      probeTable db name (kh.size db.tables + 1) (hashString name) =
        .ok (.inr found) := by
  unfold dbTableGetRead
  simp only [bind_eq_ok]
  constructor
  · rintro ⟨after, outcome, probed, run⟩
    cases outcome with
    | inl slot => cases (Prod.mk.inj (pure_eq_ok.mp run)).2
    | inr other =>
        obtain rfl := Option.some.inj (Prod.mk.inj (pure_eq_ok.mp run)).2
        exact probed
  · intro probed
    exact ⟨_, .inr found, probed, rfl⟩

theorem dbTableGetWrite_existing {after : Db kh} {found : Nat}
    (run : dbTableGetWrite hashString db name = .ok (after, found))
    (existing : found < db.table.count) :
    probeTable db name (kh.size db.tables + 1) (hashString name) =
      .ok (.inr found) := by
  unfold dbTableGetWrite at run
  simp only [bind_eq_ok] at run
  obtain ⟨outcome, probed, run⟩ := run
  cases outcome with
  | inl slot =>
      have isNew : db.table.count = found :=
        (Prod.mk.inj (pure_eq_ok.mp run)).2
      omega
  | inr other =>
      obtain rfl := (Prod.mk.inj (pure_eq_ok.mp run)).2
      exact probed

/-- In a store with the lengths on record. -/
theorem looksUpExactly_iff_distinguished
    (entryLength : ∀ entry,
      kh.lookup (db.table.cacheHashSet table) (hashString key) = some entry →
        db.entry.keyLength entry = (db.entry.key entry).length % 16384)
    (tableLength : ∀ slot found, kh.lookup db.tables slot = some found →
      db.table.keyLength found = (db.table.key found).length % 65536) :
    LooksUpExactly hashString db table key name ↔
      Distinguished hashString db table key name := by
  have entryWrong : ∀ entry,
      kh.lookup (db.table.cacheHashSet table) (hashString key) = some entry →
        (entryMatches db entry key = true ∧ db.entry.key entry ≠ key ↔
          Confused 16384 (db.entry.key entry) key) := by
    intro entry lookup
    unfold entryMatches
    rw [strncmpEqual_comm]
    exact matches_iff (entryLength entry lookup)
  have tableWrong : ∀ slot found, kh.lookup db.tables slot = some found →
      (tableMatches db found name = true ∧ db.table.key found ≠ name ↔
        Confused 65536 (db.table.key found) name) := by
    intro slot found lookup
    unfold tableMatches
    exact matches_iff (tableLength slot found lookup)
  constructor
  · intro exact_
    constructor
    · intro present entry lookup confused
      obtain ⟨matching, different⟩ := (entryWrong entry lookup).mpr confused
      obtain ⟨after, run⟩ :=
        dbEntryGetDelete_iff.mpr ⟨present, lookup, matching⟩
      exact different (exact_.getDelete after entry run)
    · intro slot found lookup passes confused
      obtain ⟨matching, different⟩ :=
        (tableWrong slot found lookup).mpr confused
      obtain ⟨after, run⟩ := dbTableGetRead_iff.mpr
        (probeTable_iff.mpr ⟨slot, lookup, passes, matching⟩)
      exact different (exact_.tableRead after found run)
  · intro distinguished
    have entryRight : ∀ entry, db.table.destroyed table = false →
        kh.lookup (db.table.cacheHashSet table) (hashString key) =
          some entry → entryMatches db entry key = true →
            db.entry.key entry = key := by
      intro entry present lookup matching
      by_contra different
      exact distinguished.key present entry lookup
        ((entryWrong entry lookup).mp ⟨matching, different⟩)
    have tableRight : ∀ found,
        probeTable db name (kh.size db.tables + 1) (hashString name) =
          .ok (.inr found) → db.table.key found = name := by
      intro found probed
      obtain ⟨slot, lookup, passes, matching⟩ := probeTable_iff.mp probed
      by_contra different
      exact distinguished.name slot found lookup passes
        ((tableWrong slot found lookup).mp ⟨matching, different⟩)
    refine ⟨?_, ?_, ?_, ?_⟩
    · intro after entry run
      obtain ⟨present, lookup, matching⟩ := dbEntryGetRead_matches run
      exact entryRight entry present lookup matching
    · intro after entry run
      obtain ⟨present, lookup, matching⟩ :=
        dbEntryGetDelete_iff.mp ⟨after, run⟩
      exact entryRight entry present lookup matching
    · intro after found run
      exact tableRight found (dbTableGetRead_iff.mp ⟨after, run⟩)
    · intro after found run existing
      exact tableRight found (dbTableGetWrite_existing run existing)

end Lookups

/-- Nothing is asked of an index when every defect is allowed. -/
theorem indexClear_all (hashString : Bytes → UInt32) (disk : Disk) :
    IndexClear kh hashString (fun _ => True) disk := by
  have lines : ∀ (text : List Bytes) (loading : Loading kh),
      LinesClear hashString (fun _ => True) loading text := by
    intro text
    induction text with
    | nil => exact fun _ => trivial
    | cons line text ih =>
        intro loading
        refine ⟨?_, fun next _ => ih next⟩
        unfold LineClear
        split
        · exact Or.inl trivial
        · exact fun _ => ⟨fun _ => Or.inr trivial, Or.inr trivial,
            Or.inr trivial, Or.inr trivial⟩
        · trivial
  exact fun text _ => lines (splitLines text) _

theorem measured_blank (disk : Disk) (freeBlocks : List Nat)
    (blocksExist blocksFree : Nat) (blockfile : ByteFile) :
    (blankWork disk freeBlocks blocksExist blocksFree blockfile :
      Work kh).Measured :=
  ⟨fun _ allocated => absurd allocated (Nat.not_lt_zero _),
    fun _ allocated => absurd allocated (Nat.not_lt_zero _)⟩

theorem measured_of_reachable (env : Env) {directory : Disk → Prop}
    {meets : Server env.kh → Event → Prop} {server : Server env.kh}
    (reachable : (serverMachine env directory).Reachable meets server) :
    server.Sound ∧ ∃ loaded, (Work.atRest server 0 loaded).Measured :=
  (carries_measured env fun _ => True).reachable
    (fun server event _ _ =>
      eventClear_all (fun _ _ => trivial) server event)
    (fun disk _ _ opens =>
      have clear := indexClear_all env.hashString disk
      ⟨dbOpen_sound trivial clear opens,
        (carries_measured env fun _ => True).dbOpen trivial measured_blank
          clear opens⟩) reachable

/-- In every state of every run, lookups are exact but for strings that are
taken for others. -/
theorem looksUpExactly_iff (env : Env) {directory : Disk → Prop}
    {server : Server env.kh}
    (reachable : (serverMachine env directory).Reachable Machine.anyStep
      server) (table : Nat) (key name : Bytes) :
    LooksUpExactly env.hashString server.db table key name ↔
      Distinguished env.hashString server.db table key name := by
  obtain ⟨sound, loaded, measured⟩ := measured_of_reachable env reachable
  have consistent := sound.consistent
  refine looksUpExactly_iff_distinguished ?_ ?_
  · intro entry lookup
    have inTable := consistent.keys.table_held lookup
    exact measured.entry entry (consistent.keys.table_lt inTable).1
  · intro slot found lookup
    exact measured.table found (consistent.tables.registered_lt lookup)

/-- A key and a name with a zero byte in it. -/
def zeroInside (first last : UInt8) : Word := ⟨[first, 0, last], by simp⟩

/-- An upload of one byte under such a key. -/
def uploadsZero (table first last byte : UInt8) : List Event :=
  [.request 0 (.requestMethod (.known .put)),
    .request 0 (.tableSegment (letter table)),
    .request 0 (.keySegment (zeroInside first last) noFlush),
    .request 0 .httpVersion] ++
    -- from the length on as in any upload of one byte
    (uploads 0 table first byte).drop 4

/-- The stored key itself is found. -/
theorem looksUpExactly_iff_stored :
    ∃ server : Server listHash,
      LooksUpExactly letterHash server.db 0 [107, 0, 120] [97] := by
  have ends : endsWith (.accept :: uploadsZero 97 107 120 1) (fun server =>
      decide (server.db.entry.key 0 = [107, 0, 120] ∧
        listHash.lookup (server.db.table.cacheHashSet 0) 107 = some 0 ∧
        server.db.table.key 0 = [97] ∧
        listHash.keys server.db.tables = [97] ∧
        listHash.lookup server.db.tables 97 = some 0)) = true := by
    decide +kernel
  have empty : DistinctIndex emptyDisk := by
    intro text saved
    simp [emptyDisk] at saved
  obtain ⟨server, reachable, final⟩ :=
    reachable_of_endsWith empty (fun _ _ _ => trivial) ends
  obtain ⟨stored, lookup, name, slots, registered⟩ := of_decide_eq_true final
  refine ⟨server, (looksUpExactly_iff listEnv reachable 0 [107, 0, 120]
    [97]).mpr ⟨?_, ?_⟩⟩
  · rintro - entry found ⟨different, -⟩
    obtain rfl := Option.some.inj (lookup.symm.trans found)
    exact different stored
  · rintro slot found content - ⟨different, -⟩
    have inKeys : slot ∈ listHash.keys server.db.tables :=
      BucketMap.mem_keys_iff.mpr (content ▸ Option.some_ne_none found)
    rw [slots] at inKeys
    obtain rfl := List.mem_singleton.mp inKeys
    obtain rfl := Option.some.inj (registered.symm.trans content)
    exact different name

/-- A key that differs behind a zero byte is taken for the stored one. -/
theorem looksUpExactly_lost :
    ∃ server : Server listHash,
      (serverMachine listEnv DistinctIndex).Reachable Machine.anyStep server ∧
        ¬LooksUpExactly letterHash server.db 0 [107, 0, 121] [97] := by
  have ends : endsWith (.accept :: uploadsZero 97 107 120 1) (fun server =>
      decide (server.db.entry.key 0 = [107, 0, 120] ∧
        server.db.table.destroyed 0 = false ∧
        listHash.lookup (server.db.table.cacheHashSet 0) 107 = some 0 ∧
        entryMatches server.db 0 [107, 0, 121] = true)) = true := by
    decide +kernel
  have empty : DistinctIndex emptyDisk := by
    intro text saved
    simp [emptyDisk] at saved
  obtain ⟨server, reachable, final⟩ :=
    reachable_of_endsWith empty (fun _ _ _ => trivial) ends
  obtain ⟨stored, found⟩ := of_decide_eq_true final
  refine ⟨server, reachable, fun exact_ => ?_⟩
  obtain ⟨after, run⟩ : ∃ after, dbEntryGetDelete letterHash server.db 0
      [107, 0, 121] = .ok (after, some 0) := dbEntryGetDelete_iff.mpr found
  have same := stored.symm.trans (exact_.getDelete after 0 run)
  exact absurd same (by decide)

end SimpleCache
