import SimpleCache.Unfold.Removal

/-!
# The collector as changes

The sweeps of `db_lru_gc` and its index flush, each as the sequence of changes
it makes.  A sweep takes a reference to every table it removes from, so a
table must have room for one more.
-/

namespace SimpleCache

variable {kh : KHash} {hashString : Bytes → UInt32}
  {allowed : Defect → Prop}

/-- Every table that still has its key map has room for one more reference,
or references may wrap. -/
def RefsFit (allowed : Defect → Prop) (db : Db kh) : Prop :=
  allowed .tableWrap ∨ ∀ table, db.table.destroyed table = false →
    db.table.refs table < 32767

/-- A sweep leaves the references of the tables it does not destroy. -/
def KeepsRefs (before after : Db kh) : Prop :=
  ∀ table, after.table.destroyed table = false →
    before.table.destroyed table = false ∧
      after.table.refs table = before.table.refs table

theorem RefsFit.keep {before after : Db kh} (fit : RefsFit allowed before)
    (keeps : KeepsRefs before after) : RefsFit allowed after := by
  refine fit.imp_right fun fits table present => ?_
  obtain ⟨presentBefore, refs⟩ := keeps table present
  rw [refs]
  exact fits table presentBefore

theorem dbEntryHandleDelete_keepsRefs {db after : Db kh} {entry : Nat}
    {tableDeleted : Bool}
    (run : dbEntryHandleDelete db entry = .ok (after, tableDeleted)) :
    KeepsRefs db after := by
  obtain ⟨table, -, -, ⟨-, -, rfl⟩ | ⟨-, -, rfl⟩⟩ := dbEntryHandleDelete_ok run
  · intro other present
    exact ⟨present, rfl⟩
  · intro other present
    rw [removedLast_destroyed] at present
    have different : other ≠ table := by
      rintro rfl
      simp at present
    rw [removedLast_refs, Function.update_of_ne different]
    rw [Function.update_of_ne different] at present
    exact ⟨present, rfl⟩

theorem dbEntryIncref_ok {db after : Db kh} {entry : Nat}
    (run : dbEntryIncref db entry true = .ok after) :
    ∃ table, db.entry.table entry = some table ∧
      after = dbTableIncref (db.incEntry entry) table := by
  unfold dbEntryIncref at run
  rw [if_pos rfl] at run
  simp only [bind_eq_ok, entryTable_eq_ok, pure_eq_ok] at run
  obtain ⟨table, inTable, rfl⟩ := run
  exact ⟨table, inTable, rfl⟩

theorem removeSwept_changes (work : Work kh) {entry : Nat} {after : Db kh}
    {tableDeleted : Bool} (consistent : work.Consistent)
    (idle : work.pending = .idle) (null : work.aux = .null)
    (fit : RefsFit allowed work.db)
    (fresh : work.db.entry.deleted entry = false)
    (run : removeSwept work.db entry = .ok (after, tableDeleted)) :
    Changes hashString allowed work { work with db := after } := by
  unfold removeSwept at run
  by_cases unheld : work.db.entry.refs entry = 0
  · simp only [if_pos unheld, bind_eq_ok, pure_eq_ok, Prod.exists,
      Prod.mk.injEq] at run
    obtain ⟨held, heldEq, removed, gone, removal, rfl, rfl⟩ := run
    obtain ⟨table, inTable, rfl⟩ := dbEntryIncref_ok heldEq
    have present : work.db.table.destroyed table = false := by
      obtain ⟨other, otherEq, present, -⟩ := dbEntryHandleDelete_ok removal
      obtain rfl : table = other :=
        Option.some.inj (inTable.symm.trans otherEq)
      exact present
    have tableFits : work.db.table.refs table ≠ 32767 ∨
        allowed .tableWrap :=
      fit.symm.imp_left fun fits => (fits table present).ne
    have hold : Changes hashString allowed work
        { work with
          db := dbTableIncref (work.db.incEntry entry) table
          aux := .entry entry true } :=
      .single (.takeWithTable work entry table null inTable
        (Or.inl (by omega)) tableFits)
    have holdConsistent := hold.consistent consistent
    have remove : Changes hashString allowed
        { work with
          db := dbTableIncref (work.db.incEntry entry) table
          aux := .entry entry true }
        { work with
          db := removed
          aux := .entry entry true } :=
      dbEntryHandleDelete_changes _ holdConsistent idle (Or.inl fresh) removal
    have drop : Changes hashString allowed
        { work with
          db := removed
          aux := .entry entry true }
        { work with
          db := dbEntryDeref removed entry true
          aux := .null } := by
      refine dropWithTable_changes _ entry rfl idle
        fun table inTable _ isDeleted => ?_
      have live :=
        dbEntryHandleDelete_live holdConsistent idle removal inTable
      rw [live] at isDeleted
      simp at isDeleted
    rw [← null] at drop
    exact hold.trans (remove.trans drop)
  · rw [if_neg unheld] at run
    exact dbEntryHandleDelete_changes work consistent idle (Or.inl fresh) run

/-- The reference that a sweep takes to a table, it returns. -/
private theorem removeSwept_keepsRefs {db after : Db kh} {entry : Nat}
    {tableDeleted : Bool}
    (fits : ∀ table, db.table.destroyed table = false →
      db.table.refs table < 32767)
    (run : removeSwept db entry = .ok (after, tableDeleted)) :
    KeepsRefs db after := by
  unfold removeSwept at run
  by_cases unheld : db.entry.refs entry = 0
  · simp only [if_pos unheld, bind_eq_ok, pure_eq_ok, Prod.exists,
      Prod.mk.injEq] at run
    obtain ⟨held, heldEq, removed, gone, removal, rfl, rfl⟩ := run
    obtain ⟨table, inTable, rfl⟩ := dbEntryIncref_ok heldEq
    obtain ⟨other, otherEq, present, ⟨-, -, rfl⟩ | ⟨-, -, rfl⟩⟩ :=
      dbEntryHandleDelete_ok removal
    · obtain rfl : table = other :=
        Option.some.inj (inTable.symm.trans otherEq)
      have stillIn : ((dbTableIncref (db.incEntry entry) table).removed table
          entry).entry.table entry = some table := inTable
      obtain ⟨destroyedEq, refsEq⟩ := dbEntryDeref_table stillIn
      intro other presentAfter
      rw [destroyedEq] at presentAfter
      refine ⟨presentAfter, ?_⟩
      rw [refsEq]
      change Function.update (Function.update db.table.refs table
        (u15 (db.table.refs table + 1))) table
        (u15 (Function.update db.table.refs table
          (u15 (db.table.refs table + 1)) table + 32767)) other = _
      have room := fits table present
      by_cases same : other = table
      · subst same
        simp only [Function.update_self, u15]
        omega
      · simp [Function.update_of_ne same]
    · obtain rfl : table = other :=
        Option.some.inj (inTable.symm.trans otherEq)
      have detached : ((dbTableIncref (db.incEntry entry) table).removedLast
          table entry).entry.table entry = none := by
        rw [removedLast_entry]
        exact Function.update_self ..
      intro other presentAfter
      rw [dbEntryDeref_table_detached detached] at presentAfter ⊢
      rw [removedLast_destroyed] at presentAfter
      have different : other ≠ table := by
        rintro rfl
        simp at presentAfter
      rw [Function.update_of_ne different] at presentAfter
      refine ⟨presentAfter, ?_⟩
      rw [removedLast_refs, Function.update_of_ne different]
      change Function.update db.table.refs table _ other = _
      rw [Function.update_of_ne different]
  · rw [if_neg unheld] at run
    exact dbEntryHandleDelete_keepsRefs run

theorem removeSwept_refsFit {db after : Db kh} {entry : Nat}
    {tableDeleted : Bool} (fit : RefsFit allowed db)
    (run : removeSwept db entry = .ok (after, tableDeleted)) :
    RefsFit allowed after := by
  rcases fit with wrap | fits
  · exact Or.inl wrap
  · exact RefsFit.keep (Or.inr fits) (removeSwept_keepsRefs fits run)

/-- A state in which a sweep can start. -/
structure Ready (allowed : Defect → Prop) (work : Work kh) : Prop where
  consistent : work.Consistent
  idle : work.pending = .idle
  null : work.aux = .null
  fit : RefsFit allowed work.db

/-- What a sweep does to the store: changes after which the next sweep can
start. -/
structure Sweeps (hashString : Bytes → UInt32) (allowed : Defect → Prop)
    (work : Work kh) (after : Db kh) : Prop where
  changes : Changes hashString allowed work { work with db := after }
  fit : RefsFit allowed after

theorem Ready.after {work : Work kh} {after : Db kh}
    (ready : Ready allowed work) (sweeps : Sweeps hashString allowed work after) :
    Ready allowed { work with db := after } where
  consistent := sweeps.changes.consistent ready.consistent
  idle := ready.idle
  null := ready.null
  fit := sweeps.fit

theorem Sweeps.trans {work : Work kh} {middle after : Db kh}
    (first : Sweeps hashString allowed work middle)
    (rest : Sweeps hashString allowed { work with db := middle } after) :
    Sweeps hashString allowed work after where
  changes := first.changes.trans rest.changes
  fit := rest.fit

theorem Ready.refl {work : Work kh} (ready : Ready allowed work) :
    Sweeps hashString allowed work work.db where
  changes := .refl
  fit := ready.fit

theorem removeSwept_sweeps {work : Work kh} {entry : Nat} {after : Db kh}
    {tableDeleted : Bool} (ready : Ready allowed work)
    (fresh : work.db.entry.deleted entry = false)
    (run : removeSwept work.db entry = .ok (after, tableDeleted)) :
    Sweeps hashString allowed work after where
  changes := removeSwept_changes work ready.consistent ready.idle ready.null
    ready.fit fresh run
  fit := removeSwept_refsFit ready.fit run

theorem expireBuckets_sweeps {table : Nat} {buckets : List Nat}
    {work : Work kh} {visited more : Nat} {after : Db kh}
    (ready : Ready allowed work)
    (run : expireBuckets table buckets work.db visited = .ok (after, more)) :
    Sweeps hashString allowed work after := by
  induction buckets generalizing work visited with
  | nil =>
      obtain ⟨rfl, -⟩ := Prod.mk.inj (pure_eq_ok.mp run)
      exact ready.refl
  | cons ke buckets ih =>
      unfold expireBuckets at run
      simp only [bind_eq_ok] at run
      obtain ⟨set, -, run⟩ := run
      cases found : kh.value set ke with
      | none =>
          simp only [found] at run
          exact ih ready run
      | some entry =>
          simp only [found] at run
          split at run
          · next stale =>
              simp only [bind_eq_ok, Prod.exists] at run
              obtain ⟨removed, tableDeleted, removal, run⟩ := run
              have removes : Sweeps hashString allowed work removed :=
                removeSwept_sweeps ready stale.1 removal
              split at run
              · obtain ⟨rfl, -⟩ := Prod.mk.inj (pure_eq_ok.mp run)
                exact removes
              · exact removes.trans (ih (ready.after removes) run)
          · exact ih ready run

theorem dbExpireCursorTable_sweeps {table : Nat} {work : Work kh}
    {visited : Nat} {after : Db kh} (ready : Ready allowed work)
    (run : dbExpireCursorTable work.db table = .ok (after, visited)) :
    Sweeps hashString allowed work after := by
  unfold dbExpireCursorTable at run
  rw [bind_eq_ok] at run
  obtain ⟨set, -, run⟩ := run
  exact expireBuckets_sweeps ready run

/-- The cursor moves. -/
theorem Ready.moveCursor {work : Work kh} (ready : Ready allowed work)
    (tableGc : Nat) :
    Sweeps hashString allowed work { work.db with tableGc } where
  changes := .single (.bookkeep work work.db.statsInserts work.db.statsGets
    work.db.statsDeletes work.db.statsOperations tableGc
    work.db.nextit work.db.flush.currentFlush work.db.flush.lastFlushMs
    work.db.flush.flushPending work.db.entry.expires)
  fit := ready.fit

theorem expireAtCursor_sweeps {work : Work kh} {visited : Nat}
    {after : Db kh} (ready : Ready allowed work)
    (run : expireAtCursor work.db = .ok (after, visited)) :
    Sweeps hashString allowed work after := by
  unfold expireAtCursor at run
  split at run
  · obtain ⟨rfl, -⟩ := Prod.mk.inj (pure_eq_ok.mp run)
    exact ready.refl
  · exact dbExpireCursorTable_sweeps ready run

theorem expireTables_sweeps {start passes : Nat} {work : Work kh}
    {visited : Nat} {after : Db kh} {fullCycle : Bool}
    (ready : Ready allowed work)
    (run : expireTables start passes work.db visited =
      .ok (after, fullCycle)) :
    Sweeps hashString allowed work after := by
  induction passes generalizing work visited with
  | zero => exact (throw_eq_ok.mp run).elim
  | succ passes ih =>
      unfold expireTables at run
      simp only [bind_eq_ok, Prod.exists] at run
      obtain ⟨swept, more, sweep, run⟩ := run
      have sweeps : Sweeps hashString allowed work swept :=
        expireAtCursor_sweeps ready sweep
      have moves := sweeps.trans ((ready.after sweeps).moveCursor
        (nextCursor swept))
      split at run
      · exact moves.trans (ih (ready.after moves) run)
      · obtain ⟨rfl, -⟩ := Prod.mk.inj (pure_eq_ok.mp run)
        exact moves

theorem dbExpireCursor_sweeps {work : Work kh} {after : Db kh}
    {fullCycle : Bool} (ready : Ready allowed work)
    (run : dbExpireCursor work.db = .ok (after, fullCycle)) :
    Sweeps hashString allowed work after := by
  unfold dbExpireCursor at run
  dsimp only at run
  have moves : Sweeps hashString allowed work _ :=
    ready.moveCursor (startCursor work.db)
  split at run
  · obtain ⟨rfl, -⟩ := Prod.mk.inj (pure_eq_ok.mp run)
    exact moves
  · exact moves.trans (expireTables_sweeps (ready.after moves) run)

theorem expireRounds_sweeps {rounds : Nat} {work : Work kh} {after : Db kh}
    (ready : Ready allowed work)
    (run : expireRounds rounds work.db = .ok after) :
    Sweeps hashString allowed work after := by
  induction rounds generalizing work with
  | zero => exact pure_eq_ok.mp run ▸ ready.refl
  | succ rounds ih =>
      unfold expireRounds at run
      simp only [bind_eq_ok, Prod.exists] at run
      obtain ⟨swept, fullCycle, sweep, run⟩ := run
      have sweeps : Sweeps hashString allowed work swept :=
        dbExpireCursor_sweeps ready sweep
      split at run
      · exact pure_eq_ok.mp run ▸ sweeps
      · exact sweeps.trans (ih (ready.after sweeps) run)

theorem lruCleanup_sweeps {passes : Nat} {work : Work kh}
    {bytesToRemove : Int} {after : Db kh} (ready : Ready allowed work)
    (run : lruCleanup passes work.db bytesToRemove = .ok after) :
    Sweeps hashString allowed work after := by
  induction passes generalizing work bytesToRemove with
  | zero => exact (throw_eq_ok.mp run).elim
  | succ passes ih =>
      unfold lruCleanup at run
      cases head : work.db.lru.head with
      | none =>
          simp only [head] at run
          exact pure_eq_ok.mp run ▸ ready.refl
      | some entry =>
          simp only [head] at run
          split at run
          · exact pure_eq_ok.mp run ▸ ready.refl
          split at run
          · next unlisted =>
              have skips : Sweeps hashString allowed work
                  (dbLruRemoveNode work.db entry) :=
                { changes := .single (.skip work entry head unlisted)
                  fit := ready.fit }
              exact skips.trans (ih (ready.after skips) run)
          · next listed =>
              simp only [bind_eq_ok, Prod.exists] at run
              obtain ⟨removed, tableDeleted, removal, run⟩ := run
              have fresh : work.db.entry.deleted entry = false := by
                simpa using fun isDeleted => listed (Or.inr isDeleted)
              have removes : Sweeps hashString allowed work removed :=
                removeSwept_sweeps ready fresh removal
              exact removes.trans (ih (ready.after removes) run)

/-- The variables of the flush change. -/
theorem Ready.setFlush {work : Work kh} (ready : Ready allowed work)
    (currentFlush lastFlushMs : Nat) (flushPending : Bool) :
    Sweeps hashString allowed work
      { work.db with
        flush :=
          { work.db.flush with currentFlush, lastFlushMs, flushPending } } where
  changes := .single (.bookkeep work work.db.statsInserts work.db.statsGets
    work.db.statsDeletes work.db.statsOperations
    work.db.tableGc work.db.nextit currentFlush lastFlushMs flushPending
    work.db.entry.expires)
  fit := ready.fit

theorem currentlyFlushing_eq (db : Db kh) (outcome : FlushOutcome) :
    ∃ currentFlush, (currentlyFlushing db outcome).1 =
      { db with flush := { db.flush with currentFlush } } := by
  unfold currentlyFlushing
  split
  · exact ⟨db.flush.currentFlush, rfl⟩
  · split
    · exact ⟨0, rfl⟩
    · exact ⟨db.flush.currentFlush, rfl⟩

theorem dbIndexFlush_sweeps {work : Work kh} {outcome : FlushOutcome}
    {after : Db kh} (ready : Ready allowed work)
    (run : dbIndexFlush work.db outcome = .ok after) :
    Sweeps hashString allowed work after := by
  unfold dbIndexFlush at run
  split at run
  · exact pure_eq_ok.mp run ▸ ready.refl
  · simp only [bind_eq_ok, pure_eq_ok] at run
    obtain ⟨text, isIndex, rfl⟩ := run
    exact {
      changes := .single (.fork work text isIndex)
      fit := ready.fit }

theorem flushIndex_sweeps {work : Work kh} {outcome : FlushOutcome}
    {after : Db kh} (ready : Ready allowed work)
    (run : flushIndex work.db outcome = .ok after) :
    Sweeps hashString allowed work after := by
  obtain ⟨currentFlush, polledEq⟩ := currentlyFlushing_eq work.db outcome
  unfold flushIndex at run
  generalize currentlyFlushing work.db outcome = polled at run polledEq
  obtain ⟨polled, flushing⟩ := polled
  have polls : Sweeps hashString allowed work polled := by
    have polledEq : polled = _ := polledEq
    rw [polledEq]
    exact ready.setFlush currentFlush work.db.flush.lastFlushMs
      work.db.flush.flushPending
  dsimp only at run
  split at run
  · exact pure_eq_ok.mp run ▸ polls
  split at run
  · rw [← pure_eq_ok.mp run]
    exact polls.trans ((ready.after polls).setFlush polled.flush.currentFlush
      polled.flush.lastFlushMs true)
  · rw [bind_eq_ok] at run
    obtain ⟨forked, fork, run⟩ := run
    have starts : Sweeps hashString allowed work _ :=
      polls.trans ((ready.after polls).setFlush polled.flush.currentFlush
        polled.flush.lastFlushMs false)
    have forks := starts.trans
      (dbIndexFlush_sweeps (ready.after starts) fork)
    split at run
    · exact pure_eq_ok.mp run ▸ forks
    · rw [← pure_eq_ok.mp run]
      exact forks.trans ((ready.after forks).setFlush outcome.fork.toNat
        (dbNowMs forked) forked.flush.flushPending)

theorem collect_sweeps {work : Work kh} {maxSize : Nat}
    {bytesToRemove : Nat → Int} {after : Db kh} (ready : Ready allowed work)
    (run : collect maxSize bytesToRemove work.db = .ok after) :
    Sweeps hashString allowed work after := by
  unfold collect at run
  split at run
  · rw [bind_eq_ok] at run
    obtain ⟨expired, expiry, run⟩ := run
    have expires : Sweeps hashString allowed work expired :=
      expireRounds_sweeps ready expiry
    dsimp only at run
    split at run
    · exact expires.trans (lruCleanup_sweeps (ready.after expires) run)
    · exact pure_eq_ok.mp run ▸ expires
  · simp only [bind_eq_ok, pure_eq_ok, Prod.exists] at run
    obtain ⟨swept, fullCycle, sweep, rfl⟩ := run
    exact dbExpireCursor_sweeps ready sweep

theorem dbLruGc_sweeps {work : Work kh} {maxSize : Nat}
    {bytesToRemove : Nat → Int} {outcome : FlushOutcome} {after : Db kh}
    (ready : Ready allowed work)
    (run : dbLruGc maxSize bytesToRemove work.db outcome = .ok after) :
    Sweeps hashString allowed work after := by
  unfold dbLruGc at run
  rw [bind_eq_ok] at run
  obtain ⟨collected, collection, run⟩ := run
  have collects : Sweeps hashString allowed work collected :=
    collect_sweeps ready collection
  exact collects.trans (flushIndex_sweeps (ready.after collects) run)

end SimpleCache
