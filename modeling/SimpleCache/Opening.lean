import SimpleCache.Loading
import SimpleCache.Steps

/-!
# Opening a store as changes

The loader is a sequence of changes too, as far as the lines of the index stay
clear of the defects that are not allowed: an accepted entry never repeats a
block, and repeats a key or probes past another table only where that is
allowed.
-/

namespace SimpleCache

variable {kh : KHash}

/-- The loader between two lines, which holds the table of the last table
line. -/
def Loading.work (loading : Loading kh) : Work kh where
  toSession := (Server.opened loading.db).session 0
  others := (Server.opened loading.db).connections
  current := 0
  connectionCount := 0
  loaded := loading.db.entry.count
  aux := (loading.table.map Aux.table).getD .null
  pending := .idle

/-- What the changes of a line ask of it. -/
def LineClear (hashString : Bytes → UInt32) (allowed : Defect → Prop)
    (loading : Loading kh) (line : Bytes) : Prop :=
  match parseLine line, loading.table with
  | .table name, _ => ProbesFit hashString allowed loading.closed name
  | .entry block dataLength _ it key, some table =>
      Accepts loading.db table (hashString key) block it →
        (0 ≤ block → block.toNat ∉ loading.blockInUse ∨
            allowed .blockCollision) ∧
          (kh.lookup (loading.db.table.cacheHashSet table) (hashString key) =
              none ∨ allowed .keyCollision) ∧
          (loading.db.dbKeys + 1 < 18446744073709551616 ∨
            allowed .keyWrap) ∧
          (loading.db.dbSizeBytes + dataLength < 18446744073709551616 ∨
            allowed .sizeWrap)
  | _, _ => True

/-- Every line is clear where the loader takes it. -/
def LinesClear (hashString : Bytes → UInt32) (allowed : Defect → Prop) :
    Loading kh → List Bytes → Prop
  | _, [] => True
  | loading, line :: lines =>
      LineClear hashString allowed loading line ∧
        ∀ next, loadLine hashString loading line = .ok next →
          LinesClear hashString allowed next lines

/-- The table of an entry has a key. -/
def Loading.Fills (loading : Loading kh) : Prop :=
  ∀ entry table, loading.db.entry.table entry = some table →
    table < loading.db.table.count ∧
      kh.size (loading.db.table.cacheHashSet table) ≠ 0

/-- Every block that an entry has is in use. -/
def Loading.Tracks (loading : Loading kh) : Prop :=
  ∀ entry, 0 ≤ loading.db.entry.block entry →
    (loading.db.entry.block entry).toNat ∈ loading.blockInUse

section Lines

variable {hashString : Bytes → UInt32} {allowed : Defect → Prop} {limit : Nat}
  {tracing : Tracing kh} {names : Bytes → Option Nat} {entries : List Nat}
  {line : Bytes}

/-- Letting go of a table of the loader, which releases it when it has no
keys. -/
theorem closeLoadedTable_changes (opening : allowed .opening)
    (work : Work kh) {table : Option Nat}
    (held : work.aux = (table.map Aux.table).getD .null)
    (idle : work.pending = .idle)
    (untouched : ∀ other, (work.connections other).target = .null)
    (fills : ∀ {other entry}, work.db.entry.table entry = some other →
      kh.size (work.db.table.cacheHashSet other) ≠ 0)
    (refs : ∀ {other}, table = some other → work.db.table.refs other =
      keyReferences (work.db.table.cacheHashSet other) + 1)
    (registered : ∀ {other}, table = some other →
      kh.lookup work.db.tables (work.db.table.hash other) = some other) :
    Changes hashString allowed work
      { work with
        db := closeLoadedTable work.db table
        aux := .null } := by
  cases table with
  | none =>
      have null : work.aux = .null := held
      have same : { work with
          db := closeLoadedTable work.db none
          aux := .null } = work := by
        rw [← null]
        rfl
      rw [same]
  | some table =>
      unfold closeLoadedTable
      dsimp only
      refine .head (.loadDropTable work table held opening) ?_
      rw [dbTableDeref_eq]
      split
      · next released =>
          have unheld := released.1
          have empty : kh.size (work.db.table.cacheHashSet table) = 0 := by
            by_contra nonempty
            rw [decTable_refs, refs rfl, keyReferences, if_neg nonempty]
              at unheld
            simp [u15] at unheld
          exact .single (.loadFreeTable _ table rfl idle untouched
            (fun entry inTable => fills inTable empty) unheld empty
            (registered rfl) opening)
      · exact .refl

theorem Loading.work_target (loading : Loading kh) (connection : Nat) :
    (loading.work.connections connection).target = .null := by
  unfold Work.connections
  exact congrArg Connection.target (congrFun
    (Function.update_eq_self (f := loading.work.others) 0) connection)

theorem Tracing.Keeps.held
    (keeps : tracing.Keeps hashString limit names entries) {table : Nat}
    (current : tracing.loading.table = some table) :
    tracing.loading.db.table.refs table =
        keyReferences (tracing.loading.db.table.cacheHashSet table) + 1 ∧
      kh.lookup tracing.loading.db.tables
        (tracing.loading.db.table.hash table) = some table := by
  obtain ⟨slot, registered, -⟩ := keeps.current current
  have refs := keeps.registry.counted.refs registered
  have isHash := keeps.registry.named.slot_eq registered
  rw [current, requestReferences_self] at refs
  dsimp only at refs isHash
  rw [isHash]
  exact ⟨refs, registered⟩

theorem closeLoaded_changes (opening : allowed .opening)
    (keeps : tracing.Keeps hashString limit names entries)
    (fills : tracing.loading.Fills) :
    Changes hashString allowed tracing.loading.work
      { tracing.loading.work with
        db := tracing.loading.closed
        aux := .null } :=
  closeLoadedTable_changes opening tracing.loading.work rfl rfl
    tracing.loading.work_target (fun inTable => (fills _ _ inTable).2) (fun current => (keeps.held current).1)
    (fun current => (keeps.held current).2)

theorem loadTable_changes (opening : allowed .opening) (work : Work kh) {name : Bytes} {after : Db kh}
    {table : Nat} (null : work.aux = .null)
    (fits : LookupsFit allowed work.db)
    (probes : ProbesFit hashString allowed work.db name)
    (short : name.length < 16384)
    (run : dbTableGetWrite hashString work.db name = .ok (after, table)) :
    Changes hashString allowed work
      { work with
        db := after
        aux := .table table } := by
  unfold dbTableGetWrite at run
  rw [bind_eq_ok] at run
  obtain ⟨found, probe, run⟩ := run
  rcases probeTable_ok probe with
    ⟨free, rfl, unused⟩ | ⟨found, rfl, ⟨hash, registered⟩, -⟩
  · have created := pure_eq_ok.mp run
    obtain ⟨rfl, rfl⟩ := Prod.mk.inj created
    refine .single (.loadCreateTable work name free null unused ?_ short
      opening)
    rcases probes with collides | same
    · exact Or.inr collides
    · left
      have first := probeTable_first same probe
      split at first
      · exact Sum.inl.inj first
      · simp at first
  · obtain ⟨rfl, rfl⟩ := Prod.mk.inj (pure_eq_ok.mp run)
    exact .single (.loadTakeTable work found null ⟨hash, registered⟩
      (fits registered) opening)

theorem acceptEntry_changes (opening : allowed .opening)
    (keeps : tracing.Keeps hashString limit names entries)
    (tracks : tracing.loading.Tracks) {table : Nat} (new : NewEntry) (it : Nat)
    (current : tracing.loading.table = some table)
    (accepts : Accepts tracing.loading.db table new.hash new.block it)
    (newBlock : 0 ≤ new.block →
      new.block.toNat ∉ tracing.loading.blockInUse ∨ allowed .blockCollision)
    (newKey : kh.lookup (tracing.loading.db.table.cacheHashSet table)
      new.hash = none ∨ allowed .keyCollision)
    (room : tracing.loading.db.dbKeys + 1 < 18446744073709551616 ∨
      allowed .keyWrap)
    (sizes : tracing.loading.db.dbSizeBytes + new.dataLength <
      18446744073709551616 ∨ allowed .sizeWrap)
    (small : new.block < 2147483648) :
    Changes hashString allowed tracing.loading.work
      (tracing.loading.accept table new it).work := by
  obtain ⟨slot, registered, -⟩ := keeps.current current
  have live := keeps.registry.counted.live registered
  have refs := keeps.registry.counted.refs registered
  have placed : new.block < 0 ∨
      (new.block < tracing.loading.db.blocksExist ∧
        (∀ entry, tracing.loading.db.entry.block entry ≠ new.block) ∧
        new.block.toNat ∉ tracing.loading.db.freeBlocks) ∨
      allowed .blockCollision := by
    by_cases inFile : new.block < 0
    · exact Or.inl inFile
    · rw [Accepts, if_neg inFile] at accepts
      rcases newBlock (by omega) with unused | repeats
      swap
      · exact Or.inr (Or.inr repeats)
      refine Or.inr (Or.inl ⟨?_, ?_, ?_⟩)
      · unfold u32OfInt at accepts
        omega
      · intro entry same
        refine unused ?_
        rw [← same]
        exact tracks entry (by omega)
      · rw [keeps.free]
        simp
  have held : tracing.loading.work.aux = .table table := by
    unfold Loading.work
    rw [current]
    rfl
  have fits : kh.size (tracing.loading.db.table.cacheHashSet table) = 0 →
      tracing.loading.db.table.refs table ≠ 32767 ∨ allowed .tableWrap := by
    intro empty
    left
    dsimp only at refs
    rw [refs, keyReferences, if_pos empty, current, requestReferences_self]
    decide
  exact .single (.load tracing.loading.work table new it held live rfl placed
    newKey fits room sizes opening)

/-- What `%d` reads is an `int`. -/
theorem scanEntry_small {text key : Bytes} {block : Int}
    {dataLength expires it : Nat}
    (scanned : scanEntry text =
      some (.entry block dataLength expires it key)) : block < 2147483648 := by
  simp only [scanEntry, Option.bind_eq_bind, Option.bind_eq_some_iff,
    Option.pure_def, Option.some.injEq, IndexLine.entry.injEq] at scanned
  obtain ⟨_, -, ⟨read, _⟩, isRead, _, -, _, -, _, -, _, -, _, -, _, -, _, -,
    _, -, rfl, -⟩ := scanned
  simp only [scanInt32, Option.map_eq_some_iff, Prod.mk.injEq,
    Prod.exists] at isRead
  obtain ⟨value, _, -, rfl, -⟩ := isRead
  unfold i32 u32OfInt
  split <;> omega

theorem eq_entry_of_getD {read : Option IndexLine} {key : Bytes} {block : Int}
    {dataLength expires it : Nat}
    (isEntry : read.getD .ignored =
      .entry block dataLength expires it key) :
    read = some (.entry block dataLength expires it key) := by
  cases read with
  | none => simp at isEntry
  | some line => exact congrArg some isEntry

theorem parseLine_small {line key : Bytes} {block : Int}
    {dataLength expires it : Nat}
    (parsed : parseLine line = .entry block dataLength expires it key) :
    block < 2147483648 := by
  unfold parseLine at parsed
  split at parsed
  · simp at parsed
  split at parsed
  · dsimp only at parsed
    split at parsed
    · simp at parsed
    split at parsed
    · split at parsed
      · simp at parsed
      · simp at parsed
    split at parsed
    · exact scanEntry_small (eq_entry_of_getD parsed)
    · simp at parsed
  · simp at parsed

theorem acceptEntry_tracks {loading : Loading kh} (tracks : loading.Tracks)
    {table : Nat} (new : NewEntry) (it : Nat) :
    (loading.accept table new it).Tracks := by
  intro entry owned
  change 0 ≤ Function.update loading.db.entry.block loading.db.entry.count
    new.block entry at owned
  change (Function.update loading.db.entry.block loading.db.entry.count
    new.block entry).toNat ∈
      if new.block < 0 then loading.blockInUse
      else new.block.toNat :: loading.blockInUse
  by_cases isNew : entry = loading.db.entry.count
  · rw [isNew, Function.update_self] at owned ⊢
    rw [if_neg (by omega)]
    exact List.mem_cons_self
  · rw [Function.update_of_ne isNew] at owned ⊢
    split
    · exact tracks entry owned
    · exact List.mem_cons_of_mem _ (tracks entry owned)

theorem closeLoadedTable_keeps (db : Db kh) (table : Option Nat) :
    (closeLoadedTable db table).entry = db.entry ∧
      (closeLoadedTable db table).table.count = db.table.count ∧
      (closeLoadedTable db table).table.cacheHashSet =
        db.table.cacheHashSet := by
  cases table with
  | none => exact ⟨rfl, rfl, rfl⟩
  | some table =>
      have closes : closeLoadedTable db (some table) =
          dbTableDeref db table true := rfl
      rw [closes]
      exact ⟨dbTableDeref_entry db table true, dbTableDeref_count db table true,
        dbTableDeref_cacheHashSet db table true⟩

/-- A table line keeps the tables of entries as they are. -/
theorem Loading.Fills.table {loading : Loading kh} (fills : loading.Fills)
    {name : Bytes} {db : Db kh} {table : Nat}
    (run : dbTableGetWrite hashString loading.closed name = .ok (db, table)) :
    Loading.Fills { loading with db, table := some table } := by
  have closed : loading.closed.entry = loading.db.entry ∧
      loading.closed.table.count = loading.db.table.count ∧
      loading.closed.table.cacheHashSet = loading.db.table.cacheHashSet :=
    closeLoadedTable_keeps loading.db loading.table
  unfold dbTableGetWrite at run
  rw [bind_eq_ok] at run
  obtain ⟨found, -, run⟩ := run
  intro entry other inTable
  cases found with
  | inl free =>
      obtain ⟨rfl, -⟩ := Prod.mk.inj (pure_eq_ok.mp run)
      change loading.closed.entry.table entry = some other at inTable
      rw [closed.1] at inTable
      obtain ⟨allocated, keyed⟩ := fills entry other inTable
      have old : other < loading.closed.table.count :=
        closed.2.1.symm ▸ allocated
      refine ⟨Nat.lt_succ_of_lt old, ?_⟩
      change kh.size (Function.update loading.closed.table.cacheHashSet
        loading.closed.table.count kh.empty other) ≠ 0
      rw [Function.update_of_ne old.ne, closed.2.2]
      exact keyed
  | inr found =>
      obtain ⟨rfl, -⟩ := Prod.mk.inj (pure_eq_ok.mp run)
      change loading.closed.entry.table entry = some other at inTable
      rw [closed.1] at inTable
      obtain ⟨allocated, keyed⟩ := fills entry other inTable
      refine ⟨closed.2.1.symm ▸ allocated, ?_⟩
      change kh.size (loading.closed.table.cacheHashSet other) ≠ 0
      rw [closed.2.2]
      exact keyed

theorem Loading.Fills.accept {loading : Loading kh} (fills : loading.Fills)
    {table : Nat} (new : NewEntry) (it : Nat)
    (allocated : table < loading.db.table.count) :
    (loading.accept table new it).Fills := by
  have keyed : kh.size (kh.put (loading.db.table.cacheHashSet table) new.hash
      loading.db.entry.count) ≠ 0 := by
    intro empty
    have found := BucketMap.size_eq_zero_iff.mp empty new.hash
    rw [BucketMap.lookup_put, if_pos rfl] at found
    simp at found
  intro entry other inTable
  change Function.update loading.db.entry.table loading.db.entry.count
    (some table) entry = some other at inTable
  change other < loading.db.table.count ∧ kh.size (Function.update
    loading.db.table.cacheHashSet table (kh.put
      (loading.db.table.cacheHashSet table) new.hash
        loading.db.entry.count) other) ≠ 0
  by_cases same : other = table
  · subst same
    rw [Function.update_self]
    exact ⟨allocated, keyed⟩
  · rw [Function.update_of_ne same]
    by_cases isNew : entry = loading.db.entry.count
    · rw [isNew, Function.update_self] at inTable
      exact absurd (Option.some.inj inTable).symm same
    · rw [Function.update_of_ne isNew] at inTable
      exact fills entry other inTable

theorem nextit_change (work : Work kh) (nextit : Nat) :
    Change hashString allowed work
      { work with db := { work.db with nextit } } :=
  .bookkeep work work.db.statsInserts work.db.statsGets work.db.statsDeletes
    work.db.statsOperations work.db.tableGc nextit
    work.db.flush.currentFlush work.db.flush.lastFlushMs
    work.db.flush.flushPending work.db.entry.expires

/-- One line of the index. -/
theorem traceLine_changes (opening : allowed .opening)
    (keeps : tracing.Keeps hashString limit names entries)
    (tracks : tracing.loading.Tracks) (fills : tracing.loading.Fills)
    (clear : LineClear hashString allowed tracing.loading line)
    {next : Loading kh}
    (run : loadLine hashString tracing.loading line = .ok next) :
    Changes hashString allowed tracing.loading.work next.work ∧
      next.Tracks ∧ next.Fills := by
  unfold loadLine at run
  unfold LineClear at clear
  cases parsed : parseLine line with
  | ignored =>
      simp only [parsed] at run
      obtain rfl := pure_eq_ok.mp run
      exact ⟨.refl, tracks, fills⟩
  | table name =>
      simp only [parsed] at run clear
      obtain ⟨short, db, table, written, rfl⟩ := loadTable_ok.mp run
      obtain ⟨namesClosed, closes⟩ := keeps.close
      have fits : LookupsFit allowed tracing.loading.closed := by
        intro slot other registered
        left
        have refs := closes.registry.counted.refs registered
        dsimp only at refs
        rw [refs, requestReferences_none]
        have few := keyReferences_le
          (tracing.loading.closed.table.cacheHashSet other)
        omega
      obtain ⟨same, -⟩ := keeps.table short (parseLine_table parsed).2 written
      have changes : Changes hashString allowed tracing.loading.work
          { tracing.loading.work with
            db
            aux := .table table } := (closeLoaded_changes opening keeps
            fills).trans
        (loadTable_changes opening { tracing.loading.work with
          db := tracing.loading.closed
          aux := .null } rfl fits clear (short.trans (by decide)) written)
      have count : db.entry.count = tracing.loading.db.entry.count := by
        rw [same.entry]
      have isWork : Loading.work { tracing.loading with
          db
          table := some table } =
          { tracing.loading.work with
            db
            aux := .table table } := by
        unfold Loading.work
        dsimp only
        rw [count]
        rfl
      rw [isWork]
      refine ⟨changes, ?_, fills.table written⟩
      unfold Loading.Tracks
      dsimp only
      rw [same.entry]
      exact tracks
  | entry block dataLength expires it key =>
      simp only [parsed] at run clear
      cases current : tracing.loading.table with
      | none =>
          unfold loadEntry at run
          rw [current] at run
          obtain rfl := pure_eq_ok.mp run
          exact ⟨.refl, tracks, fills⟩
      | some table =>
          simp only [current] at clear
          rw [loadEntry_eq current (keeps.present table)] at run
          split at run
          · simp at run
          split at run
          · next accepts =>
              obtain rfl := Except.ok.inj run
              obtain ⟨newBlock, newKey, room, sizes⟩ := clear accepts
              refine ⟨acceptEntry_changes opening keeps tracks
                (listedEntry hashString block dataLength expires key) it
                current accepts newBlock newKey room sizes
                (parseLine_small parsed), ?_⟩
              obtain ⟨slot, registered, -⟩ := keeps.current current
              exact ⟨acceptEntry_tracks tracks _ it, fills.accept _ it
                (keeps.registry.named.allocated registered)⟩
          · obtain rfl := Except.ok.inj run
            exact ⟨.single (nextit_change tracing.loading.work _), tracks,
              fills⟩

/-- All lines of the index. -/
theorem traceLines_changes (opening : allowed .opening) {lines : List Bytes} {final : Tracing kh}
    (keeps : tracing.Keeps hashString limit names entries)
    (tracks : tracing.loading.Tracks) (fills : tracing.loading.Fills)
    (clear : LinesClear hashString allowed tracing.loading lines)
    (run : traceLines hashString tracing lines = .ok final) :
    Changes hashString allowed tracing.loading.work final.loading.work ∧
      final.loading.Tracks ∧ final.loading.Fills := by
  induction lines generalizing tracing limit names entries with
  | nil =>
      obtain rfl := pure_eq_ok.mp run
      exact ⟨.refl, tracks, fills⟩
  | cons line lines ih =>
      unfold traceLines at run
      rw [List.foldlM_cons, bind_eq_ok] at run
      obtain ⟨next, first, rest⟩ := run
      obtain ⟨_, _, _, keepsNext, -⟩ := keeps.step first
      unfold traceLine at first
      rw [bind_eq_ok] at first
      obtain ⟨loading, loads, first⟩ := first
      obtain rfl := pure_eq_ok.mp first
      obtain ⟨changes, tracksNext, fillsNext⟩ :=
        traceLine_changes opening keeps tracks fills clear.1 loads
      obtain ⟨changesRest, final⟩ :=
        ih keepsNext tracksNext fillsNext (clear.2 loading loads) rest
      exact ⟨changes.trans changesRest, final⟩

/-- The loop that frees the blocks no loaded entry uses. -/
theorem freeUnused_changes (opening : allowed .opening) (work : Work kh) (blockInUse : List Nat)
    (tracks : ∀ entry, 0 ≤ work.db.entry.block entry →
      (work.db.entry.block entry).toNat ∈ blockInUse)
    (empty : work.db.freeBlocks = [])
    (exist : work.db.blocksExist < 4294967296) :
    Changes hashString allowed work
      { work with db := freeUnused work.db blockInUse } := by
  have loop : ∀ count, ∃ middle, (List.range count).foldl (fun db block =>
      if block < db.blocksExist ∧ block ∉ blockInUse then
        dbBlockFree db (i32 block)
      else db) work.db = middle ∧
      Changes hashString allowed work { work with db := middle } ∧
      middle.entry = work.db.entry ∧
      (∀ free ∈ middle.freeBlocks, free < count) ∧
      middle.blocksExist < 4294967296 := by
    intro count
    induction count with
    | zero => exact ⟨_, rfl, .refl, rfl, by simp [empty], exist⟩
    | succ count ih =>
        obtain ⟨middle, isMiddle, changes, sameEntry, below, bound⟩ := ih
        rw [List.range_succ, List.foldl_append, isMiddle, List.foldl_cons,
          List.foldl_nil]
        split
        · next free =>
            obtain ⟨freeBlocks, blocksExist, blocksFree, blockfile, isSet⟩ :=
              dbBlockFree_eq middle (i32 count)
            have unowned : ∀ entry, middle.entry.block entry ≠ count := by
              intro entry same
              rw [sameEntry] at same
              have used := tracks entry (by omega)
              rw [same] at used
              exact free.2 used
            have unlisted : count ∉ middle.freeBlocks :=
              fun member => lt_irrefl _ (below count member)
            refine ⟨_, rfl, changes.tail ?_,
              (dbBlockFree_entry _).trans sameEntry, ?_, ?_⟩
            · rw [isSet]
              exact .freeUnused { work with db := middle } count freeBlocks
                blocksExist blocksFree blockfile free.1 unowned unlisted isSet
                opening
            · rw [dbBlockFree_freeBlocks]
              intro other member
              split at member
              · exact (below other member).trans (Nat.lt_succ_self _)
              · rw [u32OfInt_i32 (free.1.trans bound)] at member
                rcases List.mem_cons.mp member with rfl | old
                · exact Nat.lt_succ_self _
                · exact (below other old).trans (Nat.lt_succ_self _)
            · rw [dbBlockFree_blocksExist]
              split
              · exact Nat.mod_lt _ (by decide)
              · exact bound
        · exact ⟨_, rfl, changes, sameEntry,
            fun other member => (below other member).trans (Nat.lt_succ_self _),
            bound⟩
  obtain ⟨middle, isMiddle, changes, -⟩ := loop work.db.blocksExist
  unfold freeUnused
  rw [isMiddle]
  exact changes

end Lines

section Open

variable {hashString : Bytes → UInt32} {allowed : Defect → Prop}

/-- The index of a directory, if it has one, is clear. -/
def IndexClear (kh : KHash) (hashString : Bytes → UInt32)
    (allowed : Defect → Prop) (disk : Disk) : Prop :=
  ∀ text, disk.indexSave = some text →
    LinesClear hashString allowed (Tracing.start (emptyDb disk : Db kh)).loading
      (splitLines text)

/-- What the loader does after the last line, as changes. -/
theorem finish_changes (opening : allowed .opening) {limit : Nat} {tracing : Tracing kh}
    {names : Bytes → Option Nat} {entries : List Nat}
    (keeps : tracing.Keeps hashString limit names entries)
    (tracks : tracing.loading.Tracks) (fills : tracing.loading.Fills) :
    Changes hashString allowed tracing.loading.work
      (Work.atRest (.opened tracing.loading.finish) 0
        tracing.loading.db.entry.count) := by
  have frees : Changes hashString allowed tracing.loading.work
      { tracing.loading.work with
        db := freeUnused tracing.loading.db tracing.loading.blockInUse } :=
    freeUnused_changes opening _ _ tracks keeps.free keeps.exist
  have same :=
    (freesUnused tracing.loading.blockInUse keeps.exist).same
  have closes : Changes hashString allowed
      { tracing.loading.work with
        db := freeUnused tracing.loading.db tracing.loading.blockInUse }
      { tracing.loading.work with
        db := tracing.loading.finish
        aux := .null } := by
    refine closeLoadedTable_changes opening { tracing.loading.work with
      db := freeUnused tracing.loading.db tracing.loading.blockInUse }
      rfl rfl tracing.loading.work_target ?_ ?_ ?_
    · intro table entry inTable
      dsimp only at inTable ⊢
      rw [same.entry] at inTable
      rw [same.table]
      exact (fills entry table inTable).2
    · intro table current
      dsimp only
      rw [same.table]
      exact (keeps.held current).1
    · intro table current
      dsimp only
      rw [same.table, same.tables]
      exact (keeps.held current).2
  exact frees.trans closes

/-- Opening a store with a clear index, as changes. -/
theorem dbOpen_changes (opening : allowed .opening) {disk : Disk} {text : Bytes} {db : Db kh}
    (saved : disk.indexSave = some text)
    (clear : IndexClear kh hashString allowed disk)
    (run : dbOpen hashString disk = .ok db) :
    ∃ loaded, Changes hashString allowed
      (Work.atRest (.opened (emptyDb disk)) 0 0)
      (Work.atRest (.opened db) 0 loaded) := by
  rw [dbOpen_saved saved] at run
  cases traced : traceLines hashString (Tracing.start (emptyDb disk : Db kh))
      (splitLines text) with
  | error fault =>
      rw [traced] at run
      simp [Except.map] at run
  | ok final =>
      rw [traced] at run
      obtain rfl := Except.ok.inj run
      have keeps : (Tracing.start (emptyDb disk : Db kh)).Keeps hashString 1
          (fun _ => none) [] := Tracing.Keeps.start disk
      have tracks : (Tracing.start (emptyDb disk : Db kh)).loading.Tracks := by
        intro entry owned
        change (0 : Int) ≤ -1 at owned
        omega
      have fills : (Tracing.start (emptyDb disk : Db kh)).loading.Fills := by
        intro entry table inTable
        simp [Tracing.start, emptyDb] at inTable
      obtain ⟨changes, tracksFinal, fillsFinal⟩ :=
        traceLines_changes opening keeps tracks fills (clear text saved) traced
      obtain ⟨_, _, _, keepsFinal⟩ := keeps.taken traced
      exact ⟨_, changes.trans (finish_changes opening keepsFinal
        tracksFinal fillsFinal)⟩

theorem consistent_empty (disk : Disk) (loaded : Nat) :
    (Work.atRest (.opened (emptyDb disk : Db kh)) 0 loaded).Consistent := by
  have nowhere : ∀ {slot table}, kh.lookup (kh.empty : kh.Map) slot ≠
      some table := by
    intro slot table
    rw [BucketMap.lookup_empty]
    simp
  refine ⟨?_, ?_, ?_⟩
  · exact {
      registered_lt := fun found => absurd found nowhere
      registered_hash := fun found => absurd found nowhere
      registered_freed := fun _ => rfl
      destroyed_deleted := fun isDestroyed => absurd isDestroyed Bool.false_ne_true
      deleted_destroyed := fun isDeleted => absurd isDeleted Bool.false_ne_true
      removing_present := fun _ => rfl
      removing_lt := fun removing => by simp [Work.atRest] at removing
      deleted_lt := fun isDeleted => absurd isDeleted Bool.false_ne_true }
  · exact {
      table_lt := fun inTable => by simp [Work.atRest, Server.session,
        Server.opened, emptyDb] at inTable
      table_none := fun allocated => absurd allocated (Nat.not_lt_zero _)
      table_held := fun found => absurd found nowhere
      hash_held := fun found => absurd found nowhere
      live_held := fun found => absurd found nowhere
      freed_deleted := fun isFreed => absurd isFreed Bool.false_ne_true
      deleted_lt := fun isDeleted => absurd isDeleted Bool.false_ne_true }
  · unfold Work.HoldersConsistent Work.target Work.isWriting
    rw [Work.connections_atRest]
    exact {
      target_table := fun held => by simp [Server.opened, newConnection] at held
      target_entry := fun held => by simp [Server.opened, newConnection] at held
      aux_table := fun held => by simp [Work.atRest] at held
      aux_entry := fun held => by simp [Work.atRest] at held
      aux_entered := fun held => by simp [Work.atRest] at held
      writes := fun isWriting => by
        simp [Server.opened, newConnection] at isWriting
      writer_unique := fun isWriting => by
        simp [Server.opened, newConnection] at isWriting
      writer := fun isWriting => absurd isWriting Bool.false_ne_true }

theorem opened_sound {db : Db kh} {loaded : Nat}
    (consistent : (Work.atRest (.opened db) 0 loaded).Consistent) :
    (Server.opened db).Sound where
  consistent := consistent.atRest
  fits := fun _ => fits_newConnection.answer rfl rfl rfl rfl (Or.inl rfl)
  unaccepted := fun _ _ => rfl

theorem dbOpen_blank {disk : Disk} (none_ : disk.indexSave = none) :
    dbOpen hashString disk = .ok (blankDb (emptyDb disk : Db kh)) := by
  unfold dbOpen
  rw [none_]
  rfl

theorem blankDb_consistent (disk : Disk) (loaded : Nat) :
    (Work.atRest (.opened (blankDb (emptyDb disk : Db kh))) 0
      loaded).Consistent := by
  obtain ⟨freeBlocks, blocksExist, blocksFree, blockfile, isSet⟩ :=
    blankDb_eq (emptyDb disk : Db kh)
  rw [isSet]
  have consistent : (Work.atRest (.opened (emptyDb disk : Db kh)) 0
      loaded).Consistent := consistent_empty disk loaded
  exact ⟨consistent.tables, consistent.keys, consistent.holders⟩

/-- A store opens into a sound server. -/
theorem dbOpen_sound (opening : allowed .opening) {disk : Disk} {db : Db kh}
    (clear : IndexClear kh hashString allowed disk)
    (run : dbOpen hashString disk = .ok db) : (Server.opened db).Sound := by
  cases saved : disk.indexSave with
  | none =>
      rw [dbOpen_blank saved] at run
      obtain rfl := Except.ok.inj run
      exact opened_sound (blankDb_consistent disk 0)
  | some text =>
      obtain ⟨loaded, changes⟩ := dbOpen_changes opening saved clear run
      exact opened_sound (changes.consistent (consistent_empty disk 0))

end Open

section Runs

variable {env : Env} {allowed : Defect → Prop} {holds : Work env.kh → Prop}

/-- A store without entries and tables, with any blocks. -/
def blankWork (disk : Disk) (freeBlocks : List Nat)
    (blocksExist blocksFree : Nat) (blockfile : ByteFile) : Work kh :=
  .atRest (.opened ((emptyDb disk).setBlocks freeBlocks blocksExist blocksFree
    blockfile)) 0 0

/-- What holds of a blank store and is carried over holds of an opened one. -/
theorem Carries.dbOpen (carries : Carries env allowed holds)
    (opening : allowed .opening)
    (blank : ∀ disk freeBlocks blocksExist blocksFree blockfile,
      holds (blankWork disk freeBlocks blocksExist blocksFree blockfile))
    {disk : Disk} {db : Db env.kh}
    (clear : IndexClear env.kh env.hashString allowed disk)
    (run : dbOpen env.hashString disk = .ok db) :
    ∃ loaded, holds (Work.atRest (.opened db) 0 loaded) := by
  cases saved : disk.indexSave with
  | none =>
      rw [dbOpen_blank saved] at run
      obtain rfl := Except.ok.inj run
      obtain ⟨freeBlocks, blocksExist, blocksFree, blockfile, isSet⟩ :=
        blankDb_eq (emptyDb disk : Db env.kh)
      rw [isSet]
      exact ⟨0, blank disk freeBlocks blocksExist blocksFree blockfile⟩
  | some text =>
      obtain ⟨loaded, changes⟩ := dbOpen_changes opening saved clear run
      exact ⟨loaded, carries.changes (consistent_empty disk 0) changes
        (blank disk [] _ 0 disk.blockfile)⟩

/-- What holds of a blank store and is carried over holds in every run from a
directory with a clear index. -/
theorem Carries.runs (carries : Carries env allowed holds)
    (opening : allowed .opening)
    (blank : ∀ disk freeBlocks blocksExist blocksFree blockfile,
      holds (blankWork disk freeBlocks blocksExist blocksFree blockfile))
    {meets : Server env.kh → Event → Prop}
    (clear : ∀ server event, meets server event →
      EventClear env allowed server event)
    {server : Server env.kh}
    (reachable : (serverMachine env
      (IndexClear env.kh env.hashString allowed)).Reachable meets server) :
    server.Sound ∧ ∃ loaded, holds (Work.atRest server 0 loaded) :=
  carries.reachable (fun server event _ => clear server event)
    (fun _ _ clear run => ⟨dbOpen_sound opening clear run,
      carries.dbOpen opening blank clear run⟩) reachable

end Runs

/-- No two entries name one block, or one key of one table. -/
structure DistinctEntries (entries : List IndexEntry) : Prop where
  blocks : entries.Pairwise fun first second =>
    0 ≤ first.block → first.block ≠ second.block
  keys : entries.Pairwise fun first second =>
    (first.table, first.key) ≠ (second.table, second.key)

/-- There is no index, or its entries are distinct. -/
def DistinctIndex (disk : Disk) : Prop :=
  ∀ text, disk.indexSave = some text → DistinctEntries (readIndex text)

section Distinct

variable {hashString : Bytes → UInt32} {loading next : Loading kh}
  {line : Bytes}

theorem loadLine_table {name : Bytes} (parsed : parseLine line = .table name)
    (run : loadLine hashString loading line = .ok next) :
    next.table.isSome ∧ next.blockInUse = loading.blockInUse := by
  unfold loadLine at run
  simp only [parsed] at run
  obtain ⟨-, db, table, -, rfl⟩ := loadTable_ok.mp run
  exact ⟨rfl, rfl⟩

theorem loadLine_entry {key : Bytes} {block : Int}
    {dataLength expires it : Nat}
    (parsed : parseLine line = .entry block dataLength expires it key)
    (run : loadLine hashString loading line = .ok next) :
    next.table = loading.table ∧
      (next.blockInUse = loading.blockInUse ∨
        0 ≤ block ∧ next.blockInUse = block.toNat :: loading.blockInUse) := by
  unfold loadLine at run
  simp only [parsed] at run
  unfold loadEntry at run
  split at run
  · obtain rfl := pure_eq_ok.mp run
    exact ⟨rfl, Or.inl rfl⟩
  next table current =>
  dsimp only at run
  split at run
  · exact (throw_eq_ok.mp run).elim
  split at run
  · simp only [bind_eq_ok] at run
    obtain ⟨path, -, run⟩ := run
    split at run
    · obtain rfl := pure_eq_ok.mp run
      exact ⟨rfl, Or.inl rfl⟩
    · simp only [bind_eq_ok, pure_eq_ok] at run
      obtain ⟨db, -, rfl⟩ := run
      exact ⟨rfl, Or.inl rfl⟩
  next inBlock =>
  split at run
  · obtain rfl := pure_eq_ok.mp run
    exact ⟨rfl, Or.inl rfl⟩
  · simp only [bind_eq_ok, pure_eq_ok] at run
    obtain ⟨db, -, rfl⟩ := run
    exact ⟨rfl, Or.inr ⟨by omega, rfl⟩⟩

/-- With distinct blocks, no line names a block that is in use. -/
theorem linesClear_of_distinct {allowed : Defect → Prop}
    (tables : allowed .tableCollision) (keys : allowed .keyCollision)
    (counts : allowed .keyWrap ∧ allowed .sizeWrap)
    {lines : List Bytes} {named : Option Bytes}
    (same : named.isSome = loading.table.isSome)
    (distinct : (readLines named lines).Pairwise fun first second =>
      0 ≤ first.block → first.block ≠ second.block)
    (unused : ∀ entry ∈ readLines named lines, 0 ≤ entry.block →
      entry.block.toNat ∉ loading.blockInUse) :
    LinesClear hashString allowed loading lines := by
  induction lines generalizing loading named with
  | nil => exact trivial
  | cons line lines ih =>
      unfold readLines at distinct unused
      cases parsed : parseLine line with
      | ignored =>
          simp only [parsed] at distinct unused
          refine ⟨?_, fun next run => ?_⟩
          · unfold LineClear
            rw [parsed]
            trivial
          · unfold loadLine at run
            simp only [parsed] at run
            obtain rfl := pure_eq_ok.mp run
            exact ih same distinct unused
      | table name =>
          simp only [parsed] at distinct unused
          refine ⟨?_, fun next run => ?_⟩
          · unfold LineClear
            rw [parsed]
            exact Or.inl tables
          · obtain ⟨isTable, inUse⟩ := loadLine_table parsed run
            have named : (some name).isSome = next.table.isSome :=
              isTable.symm
            exact ih named distinct (by rw [inUse]; exact unused)
      | entry block dataLength expires it key =>
          cases named with
          | none =>
              simp only [parsed] at distinct unused
              have none_ : loading.table = none := by
                cases current : loading.table with
                | none => rfl
                | some table => simp [current] at same
              refine ⟨?_, fun next run => ?_⟩
              · unfold LineClear
                rw [parsed, none_]
                trivial
              · unfold loadLine at run
                simp only [parsed] at run
                unfold loadEntry at run
                rw [none_] at run
                obtain rfl := pure_eq_ok.mp run
                exact ih same distinct unused
          | some name =>
              simp only [parsed] at distinct unused
              obtain ⟨apart, distinct⟩ := List.pairwise_cons.mp distinct
              have unusedRest := fun entry member =>
                unused entry (List.mem_cons_of_mem _ member)
              refine ⟨?_, fun next run => ?_⟩
              · unfold LineClear
                rw [parsed]
                split
                · trivial
                · next kind block' dataLength' expires' it' key' table isEntry
                    current =>
                    injection isEntry with sameBlock
                    intro _
                    refine ⟨fun owned => Or.inl ?_, Or.inr keys,
                      Or.inr counts.1, Or.inr counts.2⟩
                    rw [← sameBlock] at owned ⊢
                    exact unused _ List.mem_cons_self owned
                · trivial
              · obtain ⟨sameTable, inUse⟩ := loadLine_entry parsed run
                have named : (some name).isSome = next.table.isSome := by
                  rw [sameTable]
                  exact same
                refine ih named distinct fun entry member owned => ?_
                rcases inUse with inUse | ⟨positive, inUse⟩
                · rw [inUse]
                  exact unusedRest entry member owned
                · rw [inUse]
                  intro used
                  rcases List.mem_cons.mp used with isBlock | used
                  · have different := apart entry member positive
                    dsimp only at different
                    omega
                  · exact unusedRest entry member owned used

theorem indexClear_of_distinct {allowed : Defect → Prop}
    (tables : allowed .tableCollision) (keys : allowed .keyCollision)
    (counts : allowed .keyWrap ∧ allowed .sizeWrap)
    {disk : Disk} (distinct : DistinctIndex disk) :
    IndexClear kh hashString allowed disk := by
  intro text saved
  have none_ : (none : Option Bytes).isSome =
      (Tracing.start (emptyDb disk : Db kh)).loading.table.isSome := rfl
  refine linesClear_of_distinct tables keys counts none_ (distinct text saved).blocks ?_
  intro entry _ _
  exact List.not_mem_nil

end Distinct

/-- A configuration for examples. -/
def listEnv : Env where
  kh := listHash
  hashString := letterHash
  maxSize := 1048576
  bytesToRemove := fun _ => 0

/-- A name of one byte. -/
def letter (byte : UInt8) : Word := ⟨[byte], by simp⟩

/-- A flush that does not start. -/
def noFlush : FlushOutcome where
  waitpid := 0
  exited := false
  fork := -1

/-- A request with a key, up to its headers. -/
def resolves (connection : Nat) (method : Method) (table key : UInt8) :
    List Event :=
  [.request connection (.requestMethod (.known method)),
    .request connection (.tableSegment (letter table)),
    .request connection (.keySegment (letter key) noFlush),
    .request connection .httpVersion]

/-- An upload of one byte. -/
def uploads (connection : Nat) (table key byte : UInt8) : List Event :=
  resolves connection .put table key ++
    [.request connection (.header (.contentLength (some 1))),
      .request connection .endOfHeaders,
      .request connection (.requestBody [byte] 1),
      .request connection (.writeReady (.sent 100))]

/-- The state after a run from an empty directory satisfies a test. -/
def endsWith (events : List Event) (test : Server listHash → Bool) : Bool :=
  match (serverMachine listEnv DistinctIndex).run
      (.opened (blankDb (emptyDb emptyDisk))) events with
  | .ok server => test server
  | .error _ => false

theorem reachable_of_endsWith {directory : Disk → Prop}
    {meets : Server listHash → Event → Prop}
    (empty : directory emptyDisk) {events : List Event}
    (clear : ∀ event ∈ events, ∀ server, meets server event)
    {test : Server listHash → Bool} (ends : endsWith events test = true) :
    ∃ server, (serverMachine listEnv directory).Reachable meets server ∧
      test server = true := by
  unfold endsWith at ends
  split at ends
  · next server runs =>
      exact ⟨server, Machine.Reachable.run
        (.start ⟨emptyDisk, _, empty, rfl, rfl⟩) clear runs, ends⟩
  · exact absurd ends Bool.false_ne_true

end SimpleCache
