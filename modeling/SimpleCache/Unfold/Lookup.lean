import SimpleCache.Unfold.Eviction

/-!
# Lookups as changes

What a connection does while its URL is read: it takes a reference to a table,
and exchanges it for a reference to an entry that it reads, writes or deletes.
-/

namespace SimpleCache

variable {kh : KHash} {hashString : Bytes → UInt32}
  {allowed : Defect → Prop}

/-- Registered tables have room for one more reference, or references may
wrap. -/
def LookupsFit (allowed : Defect → Prop) (db : Db kh) : Prop :=
  ∀ {hash table}, kh.lookup db.tables hash = some table →
    db.table.refs table ≠ 32767 ∨ allowed .tableWrap

/-- A new table goes under the hash of its name, or hashes may collide. -/
def ProbesFit (hashString : Bytes → UInt32) (allowed : Defect → Prop)
    (db : Db kh) (name : Bytes) : Prop :=
  allowed .tableCollision ∨
    ∀ table, kh.lookup db.tables (hashString name) = some table →
      tableMatches db table name

/-- A probe finds a registered table, or a free hash. -/
theorem probeTable_ok {db : Db kh} {name : Bytes} {probes : Nat}
    {hash : UInt32} {found : Sum UInt32 Nat}
    (run : probeTable db name probes hash = .ok found) :
    (∃ free, found = .inl free ∧ kh.lookup db.tables free = none) ∨
      ∃ table, found = .inr table ∧
        (∃ key, kh.lookup db.tables key = some table) ∧
        tableMatches db table name := by
  induction probes generalizing hash with
  | zero => simp [probeTable] at run
  | succ probes ih =>
      unfold probeTable at run
      cases registered : kh.lookup db.tables hash with
      | none =>
          simp only [registered] at run
          exact Or.inl ⟨hash, (Except.ok.inj run).symm, registered⟩
      | some table =>
          simp only [registered] at run
          split at run
          · next same =>
              exact Or.inr ⟨table, (Except.ok.inj run).symm,
                ⟨hash, registered⟩, same⟩
          · exact ih run

/-- Without collisions the first probe decides. -/
theorem probeTable_first {db : Db kh} {name : Bytes} {probes : Nat}
    {hash : UInt32} {found : Sum UInt32 Nat}
    (same : ∀ table, kh.lookup db.tables hash = some table →
      tableMatches db table name)
    (run : probeTable db name probes hash = .ok found) :
    found = match kh.lookup db.tables hash with
      | none => .inl hash
      | some table => .inr table := by
  cases probes with
  | zero => simp [probeTable] at run
  | succ probes =>
      unfold probeTable at run
      cases registered : kh.lookup db.tables hash with
      | none =>
          simp only [registered] at run
          exact (Except.ok.inj run).symm
      | some table =>
          simp only [registered, same table registered, if_true] at run
          exact (Except.ok.inj run).symm

theorem dbTableGetRead_changes (work : Work kh) {name : Bytes} {after : Db kh}
    {table : Option Nat} (null : work.connection.target = .null)
    (fits : LookupsFit allowed work.db)
    (run : dbTableGetRead hashString work.db name = .ok (after, table)) :
    Changes hashString allowed work
      { work with
        db := after
        connection :=
          { work.connection with
            target := (table.map Held.table).getD .null } } := by
  unfold dbTableGetRead at run
  rw [bind_eq_ok] at run
  obtain ⟨found, probe, run⟩ := run
  rcases probeTable_ok probe with
    ⟨free, rfl, -⟩ | ⟨found, rfl, ⟨hash, registered⟩, -⟩
  · obtain ⟨rfl, rfl⟩ := Prod.mk.inj (pure_eq_ok.mp run)
    refine .single (.talk work _ ?_ rfl (Or.inr rfl) fun _ => ⟨rfl, rfl⟩)
    exact null.symm
  · obtain ⟨rfl, rfl⟩ := Prod.mk.inj (pure_eq_ok.mp run)
    exact .single (.takeTable work found null ⟨hash, registered⟩
      (fits registered))

theorem dbTableGetWrite_changes (work : Work kh) {name : Bytes}
    {after : Db kh} {table : Nat} (null : work.connection.target = .null)
    (fits : LookupsFit allowed work.db)
    (probes : ProbesFit hashString allowed work.db name)
    (short : name.length < 16384)
    (run : dbTableGetWrite hashString work.db name = .ok (after, table)) :
    Changes hashString allowed work
      { work with
        db := after
        connection := { work.connection with target := .table table } } := by
  unfold dbTableGetWrite at run
  rw [bind_eq_ok] at run
  obtain ⟨found, probe, run⟩ := run
  rcases probeTable_ok probe with
    ⟨free, rfl, unused⟩ | ⟨found, rfl, ⟨hash, registered⟩, -⟩
  · have created := pure_eq_ok.mp run
    obtain ⟨rfl, rfl⟩ := Prod.mk.inj created
    refine .single (.createTable work name free null unused ?_ short)
    rcases probes with collides | same
    · exact Or.inr collides
    · left
      have := probeTable_first same probe
      split at this
      · exact Sum.inl.inj this
      · simp at this
  · obtain ⟨rfl, rfl⟩ := Prod.mk.inj (pure_eq_ok.mp run)
    exact .single (.takeTable work found null ⟨hash, registered⟩
      (fits registered))

def Db.countInsert (db : Db kh) : Db kh :=
  { db with
    statsInserts := u64 (db.statsInserts + 1)
    statsOperations := u64 (db.statsOperations + 1) }

/-- An upload enters its entry. -/
def Db.enterUpload (db : Db kh) (hashString : Bytes → UInt32) (table : Nat)
    (key : Bytes) (first : Bool) : Db kh :=
  (db.enter table (newUpload hashString key) first).setWriting db.entry.count
    true

theorem enterNew_eq (db : Db kh) (table : Nat) (key : Bytes) (first : Bool) :
    enterNew hashString db table key first =
      if db.table.destroyed table then .error .destroyedKeyMap
      else .ok (db.enterUpload hashString table key first,
        db.entry.count) := by
  have one : u16 1 = 1 := rfl
  cases gone : db.table.destroyed table with
  | true =>
      cases first with
      | false =>
          simp [enterNew, keyMap, dbEntryNew, gone, bind, Except.bind]
      | true =>
          simp [enterNew, keyMap, dbEntryNew, dbTableIncref, gone, bind,
            Except.bind]
  | false =>
      cases first with
      | false =>
          simp [enterNew, keyMap, dbEntryNew, gone, bind, Except.bind,
            dbEntryIncref, setKeyMap, pure, Except.pure, Db.enterUpload,
            Db.enter, Db.setWriting, newUpload, one]
      | true =>
          simp [enterNew, keyMap, dbEntryNew, dbTableIncref, gone, bind,
            Except.bind, dbEntryIncref, setKeyMap, pure, Except.pure,
            Db.enterUpload, Db.enter, Db.setWriting, newUpload, one]

theorem countInsert_change (work : Work kh) :
    Change hashString allowed work
      { work with db := work.db.countInsert } :=
  .bookkeep work (u64 (work.db.statsInserts + 1)) work.db.statsGets
    work.db.statsDeletes (u64 (work.db.statsOperations + 1))
    work.db.tableGc work.db.nextit work.db.flush.currentFlush
    work.db.flush.lastFlushMs work.db.flush.flushPending work.db.entry.expires

/-- Entering an entry also moves the iteration counter. -/
private theorem enterUpload_changes (work : Work kh) {table : Nat}
    {key : Bytes} {first counted : Bool} (null : work.aux = .null)
    (live : work.db.table.deleted table = false)
    (held : work.connection.target = .table table)
    (keyed : (work.pending = .idle ∧ counted = true ∧
        first = decide (kh.size (work.db.table.cacheHashSet table) = 0)) ∨
      (work.pending = .removing table true 1 ∧ counted = false ∧
        first = false))
    (room : counted = true → work.db.dbKeys + 1 < 18446744073709551616 ∨
      allowed .keyWrap)
    (unused : kh.lookup (work.db.table.cacheHashSet table) (hashString key) =
      none)
    (fits : first = true →
      work.db.table.refs table ≠ 32767 ∨ allowed .tableWrap) :
    Changes hashString allowed work
      { work with
        db := (work.db.enterUpload hashString table key first).countOn counted
        aux := .entered work.db.entry.count
        pending := .idle } :=
  .single (.enter work table (newUpload hashString key) first counted null
    live held ⟨rfl, rfl⟩ keyed room unused fits)

/-- The store in which the entry of a key is replaced. -/
def Db.replaceKey (db : Db kh) (table old : Nat) (key : UInt32) : Db kh :=
  (db.countInsert.remove table old
    (kh.find (db.table.cacheHashSet table) key)).freeUnheld old

theorem replaceKey_table (db : Db kh) (table old : Nat) (key : UInt32) :
    (db.replaceKey table old key).table =
      { db.table with
        cacheHashSet := Function.update db.table.cacheHashSet table
          (kh.del (db.table.cacheHashSet table)
            (kh.find (db.table.cacheHashSet table) key)) } := by
  unfold Db.replaceKey
  rw [freeUnheld_table]
  rfl

/-- `enterWrite` leaves the key to its writer, or enters a new entry, in place
of the one that was there. -/
theorem enterWrite_ok {db after : Db kh} {table : Nat} {key : Bytes}
    {entry : Option Nat}
    (found : ∀ old, kh.lookup (db.table.cacheHashSet table) (hashString key) =
      some old → db.entry.table old = some table ∧
        db.entry.deleted old = false)
    (run : enterWrite hashString db table key = .ok (after, entry)) :
    db.table.destroyed table = false ∧
      ((entry = none ∧ after = db.countInsert) ∨
      (kh.lookup (db.table.cacheHashSet table) (hashString key) = none ∧
        entry = some db.entry.count ∧
        after = { db.countInsert with
            dbKeys := u64 (db.dbKeys + 1) }.enterUpload hashString table key
          (kh.size (db.table.cacheHashSet table) = 0)) ∨
      ∃ old, kh.lookup (db.table.cacheHashSet table) (hashString key) =
          some old ∧
        entry = some (db.replaceKey table old (hashString key)).entry.count ∧
        after = (db.replaceKey table old (hashString key)).enterUpload
          hashString table key
          (kh.size (db.table.cacheHashSet table) = 0)) := by
  unfold enterWrite at run
  simp only [bind_eq_ok, keyMap_eq_ok] at run
  obtain ⟨set, ⟨present, rfl⟩, run⟩ := run
  refine ⟨present, ?_⟩
  cases lookup : kh.lookup (db.table.cacheHashSet table) (hashString key) with
  | none =>
      simp only [lookup, enterNew_eq, present, Bool.false_eq_true, if_false,
        bind_eq_ok, Prod.exists, pure_eq_ok, Prod.mk.injEq] at run
      obtain ⟨entered, new, enteredEq, rfl, rfl⟩ := run
      obtain ⟨rfl, rfl⟩ := Prod.mk.inj (Except.ok.inj enteredEq)
      exact Or.inr (Or.inl ⟨rfl, rfl, rfl⟩)
  | some old =>
      obtain ⟨inTable, fresh⟩ := found old lookup
      simp only [lookup] at run
      split at run
      · obtain ⟨rfl, rfl⟩ := Prod.mk.inj (pure_eq_ok.mp run)
        exact Or.inl ⟨rfl, rfl⟩
      · simp only [bind_eq_ok, Prod.exists, pure_eq_ok, Prod.mk.injEq] at run
        obtain ⟨removed, removal, entered, new, enteredEq, rfl, rfl⟩ := run
        have counted : db.countInsert.entry.table old = some table := inTable
        have removedEq : (if db.table.destroyed table then
              .error Fault.destroyedKeyMap
            else .ok (db.replaceKey table old (hashString key))) =
            Except.ok removed :=
          (dbEntryHandleSoftdelete_eq _ counted fresh).symm.trans removal
        rw [if_neg (by simp [present])] at removedEq
        obtain rfl := Except.ok.inj removedEq
        rw [enterNew_eq, replaceKey_table,
          if_neg (by simpa using present)] at enteredEq
        obtain ⟨rfl, rfl⟩ := Prod.mk.inj (Except.ok.inj enteredEq)
        exact Or.inr (Or.inr ⟨old, rfl, rfl, rfl⟩)

/-- Every table that still has its key map has room for two more references,
or references may wrap. -/
def RefsRoom (allowed : Defect → Prop) (db : Db kh) : Prop :=
  allowed .tableWrap ∨ ∀ table, db.table.destroyed table = false →
    db.table.refs table < 32766

/-- Another key can be counted, or the number of keys may wrap. -/
def KeysRoom (allowed : Defect → Prop) (db : Db kh) : Prop :=
  db.dbKeys + 1 < 18446744073709551616 ∨ allowed .keyWrap

theorem RefsRoom.fit {db : Db kh} (room : RefsRoom allowed db) :
    RefsFit allowed db :=
  room.imp_right fun rooms table present =>
    (rooms table present).trans (by omega)

/-- An upload takes at most one reference to its table. -/
private theorem enterUpload_refsFit {db before : Db kh} {table : Nat}
    {key : Bytes} {first : Bool} (room : RefsRoom allowed before)
    (refs : db.table.refs = before.table.refs)
    (destroyed : db.table.destroyed = before.table.destroyed) :
    RefsFit allowed (db.enterUpload hashString table key first) := by
  refine room.imp_right fun rooms other present => ?_
  have room : before.table.refs other < 32766 :=
    rooms other (destroyed ▸ present)
  change (if first = true then
    Function.update db.table.refs table (u15 (db.table.refs table + 1))
    else db.table.refs) other < 32767
  rw [refs]
  split
  · by_cases same : other = table
    · subst same
      rw [Function.update_self, u15]
      omega
    · rw [Function.update_of_ne same]
      omega
  · omega

theorem enterWrite_changes (work : Work kh) {table : Nat} {key : Bytes}
    {after : Db kh} {entry : Option Nat} (ready : Ready allowed work)
    (room : RefsRoom allowed work.db) (keys : KeysRoom allowed work.db)
    (held : work.connection.target = .table table)
    (run : enterWrite hashString work.db table key = .ok (after, entry)) :
    (entry = none ∧ after.table.deleted table = false ∧
        Changes hashString allowed work { work with db := after }) ∨
      ∃ entered, entry = some entered ∧
        after.entry.table entered = some table ∧ RefsFit allowed after ∧
        Changes hashString allowed work
          { work with
            db := after
            aux := .entered entered } := by
  have consistent := ready.consistent
  have idle := ready.idle
  have null := ready.null
  obtain ⟨present, outcome⟩ := enterWrite_ok (fun old found =>
    ⟨consistent.keys.table_held found, consistent.keys.live_held found⟩) run
  have live := consistent.live idle present
  have fits : work.db.table.refs table ≠ 32767 ∨ allowed .tableWrap :=
    room.symm.imp_left fun rooms => by
      have := rooms table present
      omega
  have count : Changes hashString allowed work
      { work with db := work.db.countInsert } :=
    .single (countInsert_change work)
  rcases outcome with ⟨rfl, rfl⟩ | ⟨unused, rfl, rfl⟩ | ⟨old, found, rfl, rfl⟩
  · exact Or.inl ⟨rfl, live, count⟩
  · refine Or.inr ⟨_, rfl, Function.update_self ..,
      enterUpload_refsFit room rfl rfl, ?_⟩
    have enters : Changes hashString allowed
        { work with db := work.db.countInsert } _ :=
      enterUpload_changes _ null live held (Or.inl ⟨idle, rfl, rfl⟩)
        (fun _ => keys) unused fun _ => fits
    rw [← idle] at enters
    exact count.trans enters
  · have inTable : work.db.entry.table old = some table :=
      consistent.keys.table_held found
    have fresh : work.db.entry.deleted old = false :=
      consistent.keys.live_held found
    have keyed : kh.size (work.db.table.cacheHashSet table) ≠ 0 := by
      intro empty
      rw [BucketMap.size_eq_zero_iff] at empty
      simp [empty] at found
    refine Or.inr ⟨_, rfl, Function.update_self .., ?_, ?_⟩
    · refine enterUpload_refsFit room ?_ ?_
      · rw [replaceKey_table]
      · rw [replaceKey_table]
    have removes : Changes hashString allowed
        { work with db := work.db.countInsert }
        { work with
          db := work.db.replaceKey table old (hashString key)
          pending := .removing table true 1 } := by
      refine .head (.beginRemoval _ table idle
        (consistent.keys.table_lt inTable).2 present
        (Or.inr ⟨old, inTable⟩)) ?_
      have keyedTrue : decide (kh.size
          (work.db.countInsert.table.cacheHashSet table) ≠ 0) = true :=
        decide_eq_true keyed
      rw [keyedTrue]
      exact softdelete_changes _ rfl inTable fresh present found
    have unused : kh.lookup ((work.db.replaceKey table old
        (hashString key)).table.cacheHashSet table) (hashString key) =
        none := by
      rw [replaceKey_table]
      dsimp only
      rw [Function.update_self, BucketMap.lookup_del_find, if_pos rfl]
    have first : decide (kh.size (work.db.table.cacheHashSet table) = 0) =
        false := decide_eq_false keyed
    rw [first]
    have liveAfter : (work.db.replaceKey table old
        (hashString key)).table.deleted table = false := by
      rw [replaceKey_table]
      exact live
    have enters : Changes hashString allowed
        { work with
          db := work.db.replaceKey table old (hashString key)
          pending := .removing table true 1 } _ :=
      enterUpload_changes _ null liveAfter held (Or.inr ⟨rfl, rfl, rfl⟩)
        (fun isCounted => by simp at isCounted) unused
        fun isFirst => by simp at isFirst
    rw [← idle] at enters
    exact count.trans (removes.trans enters)

/-- The connection becomes the writer before the collector runs. -/
theorem dbEntryGetWrite_changes {env : Env} (work : Work env.kh)
    {table : Nat} {key : Bytes} {outcome : FlushOutcome} {after : Db env.kh}
    {entry : Option Nat} (ready : Ready allowed work)
    (room : RefsRoom allowed work.db) (keys : KeysRoom allowed work.db)
    (held : work.connection.target = .table table)
    (run : dbEntryGetWrite env work.db table key outcome =
      .ok (after, entry)) :
    (entry = none ∧ after.table.deleted table = false ∧
        Changes env.hashString allowed work { work with db := after }) ∨
      ∃ entered, entry = some entered ∧
        Changes env.hashString allowed work
          { work with
            db := after
            connection :=
              { work.connection with
                target := .entry entered
                fd := .closed
                isWriting := true } } := by
  unfold dbEntryGetWrite at run
  simp only [bind_eq_ok, Prod.exists] at run
  obtain ⟨written, entry', enter, run⟩ := run
  rcases enterWrite_changes work ready room keys held enter with
    ⟨rfl, live, counts⟩ | ⟨entered, rfl, inTable, fit, enters⟩
  · simp only [Option.isSome_none, Bool.false_eq_true, false_and, if_false,
      pure_eq_ok, Prod.mk.injEq] at run
    obtain ⟨rfl, rfl⟩ := run
    exact Or.inl ⟨rfl, live, counts⟩
  · refine Or.inr ⟨entered, ?_, ?_⟩
    · split at run
      · simp only [bind_eq_ok, pure_eq_ok, Prod.mk.injEq] at run
        obtain ⟨collected, -, -, rfl⟩ := run
        rfl
      · exact (Prod.mk.inj (pure_eq_ok.mp run)).2.symm
    have consistent := enters.consistent ready.consistent
    have claims : Changes env.hashString allowed
        { work with
          db := written
          aux := .entered entered }
        { work with
          db := written
          connection :=
            { work.connection with
              target := .entry entered
              fd := .closed
              isWriting := true }
          aux := .null } :=
      .single (.claimWrite _ entered table rfl held inTable
        (consistent.holders.aux_entered rfl).2.2)
    have writes : Changes env.hashString allowed work _ := enters.trans claims
    rw [← ready.null] at writes
    split at run
    · simp only [bind_eq_ok, pure_eq_ok, Prod.mk.injEq] at run
      obtain ⟨collected, collection, rfl, -⟩ := run
      have readyAfter : Ready allowed
          { work with
            db := written
            connection :=
              { work.connection with
                target := .entry entered
                fd := .closed
                isWriting := true } } :=
        { consistent := writes.consistent ready.consistent
          idle := ready.idle
          null := ready.null
          fit }
      exact writes.trans (dbLruGc_sweeps readyAfter collection).changes
    · obtain ⟨rfl, -⟩ := Prod.mk.inj (pure_eq_ok.mp run)
      exact writes

theorem dbCompleteWriting_eq (db : Db kh) (entry : Nat) :
    dbCompleteWriting db entry = db.complete entry := by
  unfold dbCompleteWriting Db.complete
  dsimp only
  cases db.entry.deleted entry with
  | true => rfl
  | false => rfl

/-- The last reference to a table that an expired entry took away. -/
theorem removedLast_unshared {db : Db kh} {table entry : Nat}
    (last : LastReference (db.removedLast table entry) table) :
    Unshared (db.removedLast table entry) table := by
  have held : db.table.refs table ≠ 0 := by
    intro zero
    unfold LastReference at last
    rw [removedLast_refs, Function.update_self, zero] at last
    simp [u15] at last
  intro other registered
  have hash : (db.removedLast table entry).table.hash = db.table.hash := by
    unfold Db.removedLast
    rw [detach_table, dbTableDeref_hash]
    rfl
  rw [hash] at registered
  unfold Db.removedLast at registered
  rw [detach_tables] at registered
  have registered := dbTableDeref_registered _ table true registered
  rw [lookup_destroy, if_pos ⟨held, rfl⟩] at registered
  simp at registered

/-- The entry under this key has room for one more reference, or references
may wrap. -/
def EntryFits (allowed : Defect → Prop) (db : Db kh) (table : Nat)
    (hash : UInt32) : Prop :=
  ∀ entry, kh.lookup (db.table.cacheHashSet table) hash = some entry →
    db.entry.refs entry ≠ 65535 ∨ allowed .entryWrap

/-- What dropping a table that is not live needs. -/
def DropsClear (allowed : Defect → Prop) (db : Db kh) (table : Nat) : Prop :=
  LastReference db table → db.table.deleted table = true →
    Unshared db table ∨ allowed .clobber

theorem stats_change (work : Work kh) (statsGets statsDeletes
    statsOperations : Nat) :
    Change hashString allowed work
      { work with
        db := { work.db with statsGets, statsDeletes, statsOperations } } :=
  .bookkeep work work.db.statsInserts statsGets statsDeletes statsOperations
    work.db.tableGc work.db.nextit work.db.flush.currentFlush
    work.db.flush.lastFlushMs work.db.flush.flushPending work.db.entry.expires

theorem dbEntryIncref_false (db : Db kh) (entry : Nat) :
    dbEntryIncref db entry false = .ok (db.incEntry entry) := rfl

/-- A lookup that finds an expired entry removes it. -/
private theorem expire_changes (work : Work kh) {table entry : Nat}
    {after : Db kh} {tableDeleted : Bool} (consistent : work.Consistent)
    (idle : work.pending = .idle) (null : work.aux = .null)
    (inTable : work.db.entry.table entry = some table)
    (fresh : work.db.entry.deleted entry = false)
    (fits : work.db.entry.refs entry ≠ 65535 ∨ allowed .entryWrap)
    (run : dbEntryHandleDelete (work.db.incEntry entry) entry =
      .ok (after, tableDeleted)) :
    Changes hashString allowed work
        { work with db := dbEntryDeref after entry false } ∧
      DropsClear allowed (dbEntryDeref after entry false) table := by
  have takes : Changes hashString allowed work
      { work with
        db := work.db.incEntry entry
        aux := .entry entry false } :=
    .single (.take work entry null (by simp [inTable]) fits)
  have held := takes.consistent consistent
  have removes : Changes hashString allowed
      { work with
        db := work.db.incEntry entry
        aux := .entry entry false }
      { work with
        db := after
        aux := .entry entry false } :=
    dbEntryHandleDelete_changes _ held idle (Or.inl fresh) run
  have drops : Changes hashString allowed
      { work with
        db := after
        aux := .entry entry false }
      { work with
        db := dbEntryDeref after entry false
        aux := .null } :=
    dropEntry_changes _ entry rfl
  rw [← null] at drops
  refine ⟨takes.trans (removes.trans drops), ?_⟩
  obtain ⟨other, otherEq, present, outcome⟩ := dbEntryHandleDelete_ok run
  obtain rfl : table = other := Option.some.inj (inTable.symm.trans otherEq)
  rcases outcome with ⟨-, -, rfl⟩ | ⟨-, -, rfl⟩
  · intro _ isDeleted
    rw [dbEntryDeref_false, freeUnheld_table] at isDeleted
    have live := consistent.live idle present
    change work.db.table.deleted table = true at isDeleted
    rw [live] at isDeleted
    simp at isDeleted
  · intro last _
    unfold LastReference at last
    rw [dbEntryDeref_false_table] at last
    left
    unfold Unshared
    rw [dbEntryDeref_false_table, dbEntryDeref_false_tables]
    exact removedLast_unshared last

theorem dbEntryGetRead_changes (work : Work kh) {table : Nat} {key : Bytes}
    {after : Db kh} {entry : Option Nat} (consistent : work.Consistent)
    (idle : work.pending = .idle) (null : work.aux = .null)
    (fits : EntryFits allowed work.db table (hashString key))
    (run : dbEntryGetRead hashString work.db table key =
      .ok (after, entry)) :
    (entry = none ∧ DropsClear allowed after table ∧
        Changes hashString allowed work { work with db := after }) ∨
      ∃ held, entry = some held ∧ after.entry.table held = some table ∧
        Changes hashString allowed work
          { work with
            db := after
            aux := .entry held false } := by
  unfold dbEntryGetRead at run
  simp only [bind_eq_ok, keyMap_eq_ok] at run
  obtain ⟨set, ⟨present, rfl⟩, run⟩ := run
  have clear : DropsClear allowed work.db table := by
    intro _ isDeleted
    rw [consistent.live idle present] at isDeleted
    simp at isDeleted
  cases found : kh.lookup (work.db.table.cacheHashSet table)
      (hashString key) with
  | none =>
      simp only [found] at run
      obtain ⟨rfl, rfl⟩ := Prod.mk.inj (pure_eq_ok.mp run)
      exact Or.inl ⟨rfl, clear, .refl⟩
  | some held =>
      have inTable := consistent.keys.table_held found
      have fresh := consistent.keys.live_held found
      simp only [found] at run
      split at run
      · simp only [dbEntryIncref_false, bind_eq_ok, Prod.exists, pure_eq_ok,
          Prod.mk.injEq] at run
        obtain ⟨taken, takenEq, removed, tableDeleted, removal, rfl, rfl⟩ := run
        obtain rfl := Except.ok.inj takenEq
        obtain ⟨expires, clearAfter⟩ := expire_changes work consistent idle null
          inTable fresh (fits held found) removal
        exact Or.inl ⟨rfl, clearAfter, expires⟩
      split at run
      · obtain ⟨rfl, rfl⟩ := Prod.mk.inj (pure_eq_ok.mp run)
        exact Or.inl ⟨rfl, clear, .refl⟩
      have counts : Changes hashString allowed work _ :=
        .single (stats_change work (u64 (work.db.statsGets + 1))
          work.db.statsDeletes (u64 (work.db.statsOperations + 1)))
      split at run
      · obtain ⟨rfl, rfl⟩ := Prod.mk.inj (pure_eq_ok.mp run)
        exact Or.inl ⟨rfl, clear, counts⟩
      · next complete =>
          simp only [dbEntryIncref_false, bind_eq_ok, pure_eq_ok,
            Prod.mk.injEq] at run
          obtain ⟨taken, takenEq, rfl, rfl⟩ := run
          obtain rfl := Except.ok.inj takenEq
          have named : work.db.entry.table held ≠ none := by simp [inTable]
          refine Or.inr ⟨held, rfl, inTable, counts.trans ?_⟩
          exact .head (.hit _ held table ⟨_, found⟩ (by simpa using complete))
            (.single (.take _ held null named (fits held found)))

theorem dbEntryGetDelete_changes (work : Work kh) {table : Nat} {key : Bytes}
    {after : Db kh} {entry : Option Nat} (consistent : work.Consistent)
    (null : work.aux = .null)
    (fits : EntryFits allowed work.db table (hashString key))
    (run : dbEntryGetDelete hashString work.db table key =
      .ok (after, entry)) :
    after.table = work.db.table ∧ after.tables = work.db.tables ∧
      work.db.table.destroyed table = false ∧
      ((entry = none ∧
          Changes hashString allowed work { work with db := after }) ∨
        ∃ held, entry = some held ∧ after.entry.table held = some table ∧
          after.entry.deleted held = false ∧
          Changes hashString allowed work
            { work with
              db := after
              aux := .entry held false }) := by
  unfold dbEntryGetDelete at run
  simp only [bind_eq_ok, keyMap_eq_ok] at run
  obtain ⟨set, ⟨present, rfl⟩, run⟩ := run
  cases found : kh.lookup (work.db.table.cacheHashSet table)
      (hashString key) with
  | none =>
      simp only [found] at run
      obtain ⟨rfl, rfl⟩ := Prod.mk.inj (pure_eq_ok.mp run)
      exact ⟨rfl, rfl, present, Or.inl ⟨rfl, .refl⟩⟩
  | some held =>
      simp only [found] at run
      split at run
      · obtain ⟨rfl, rfl⟩ := Prod.mk.inj (pure_eq_ok.mp run)
        exact ⟨rfl, rfl, present, Or.inl ⟨rfl, .refl⟩⟩
      · simp only [dbEntryIncref_false, bind_eq_ok, pure_eq_ok,
          Prod.mk.injEq] at run
        obtain ⟨taken, takenEq, rfl, rfl⟩ := run
        obtain rfl := Except.ok.inj takenEq
        have inTable := consistent.keys.table_held found
        refine ⟨rfl, rfl, present, Or.inr ⟨held, rfl, inTable,
          consistent.keys.live_held found, ?_⟩⟩
        exact .head
          (stats_change work work.db.statsGets (u64 (work.db.statsDeletes + 1))
            (u64 (work.db.statsOperations + 1)))
          (.single (.take _ held null (by simp [inTable]) (fits held found)))

end SimpleCache
