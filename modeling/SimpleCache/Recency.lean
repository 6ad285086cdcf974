import SimpleCache.Abort
import SimpleCache.Library.Ascent
import SimpleCache.Registered

/-!
# The order of the list

The LRU list is in the order in which its entries were last touched: an upload
that ends and a lookup that finds an entry move it to the end, and everything
else only unlinks.
-/

namespace SimpleCache

variable {kh : KHash} {db after : Db kh} {table entry : Nat}

/-- The list of a store is trimmed. -/
def Trimmed (before after : Db kh) : Prop :=
  before.lru.Trims after.lru

theorem Trimmed.of_eq (same : after.lru = db.lru) : Trimmed db after := by
  unfold Trimmed
  rw [same]
  exact .refl

theorem Trimmed.trans {first second third : Db kh}
    (trimmed : Trimmed first second) (further : Trimmed second third) :
    Trimmed first third :=
  Links.Trims.trans trimmed further

theorem dbTableDeref_trimmed (actuallyDelete : Bool) :
    Trimmed db (dbTableDeref db table actuallyDelete) := by
  obtain ⟨freed, tables, derefEq⟩ := dbTableDeref_frame db table actuallyDelete
  rw [derefEq]
  exact .of_eq rfl

theorem freeUnheld_trimmed : Trimmed db (db.freeUnheld entry) := by
  obtain ⟨_, _, _, _, _, _, freeEq⟩ := freeUnheld_eq db entry
  rw [freeEq]
  exact .of_eq rfl

theorem dbEntryDeref_trimmed (withTable : Bool) :
    Trimmed db (dbEntryDeref db entry withTable) := by
  have dropped : Trimmed db (db.decEntry entry) := .of_eq rfl
  cases withTable with
  | false =>
      rw [dbEntryDeref_false]
      exact dropped.trans freeUnheld_trimmed
  | true =>
      cases inTable : db.entry.table entry with
      | none =>
          rw [dbEntryDeref_detached inTable]
          exact dropped.trans freeUnheld_trimmed
      | some table =>
          rw [dbEntryDeref_inTable inTable]
          exact (dropped.trans (dbTableDeref_trimmed false)).trans
            freeUnheld_trimmed

theorem dbEntryIncref_trimmed {withTable : Bool}
    (run : dbEntryIncref db entry withTable = .ok after) :
    Trimmed db after := by
  cases withTable with
  | false =>
      obtain rfl := Except.ok.inj run
      exact .of_eq rfl
  | true =>
      obtain ⟨table, -, rfl⟩ := dbEntryIncref_ok run
      exact .of_eq rfl

theorem removed_lru (db : Db kh) (table entry : Nat) :
    (db.removed table entry).lru =
      if db.entry.writing entry then db.lru else db.lru.unlink entry := rfl

theorem destroyed_lru (db : Db kh) (table : Nat) :
    ((db.doom table).destroy table).lru = db.lru := rfl

theorem detach_lru (db : Db kh) (entry : Nat) :
    (db.detach entry).lru = db.lru := rfl

theorem removed_trimmed (db : Db kh) (table entry : Nat) :
    Trimmed db (db.removed table entry) := by
  unfold Trimmed
  rw [removed_lru]
  split
  · exact .refl
  · exact .unlink entry .refl

theorem dbEntryHandleDelete_trimmed {tableDeleted : Bool}
    (run : dbEntryHandleDelete db entry = .ok (after, tableDeleted)) :
    Trimmed db after := by
  obtain ⟨table, -, -, ⟨-, -, rfl⟩ | ⟨-, -, rfl⟩⟩ := dbEntryHandleDelete_ok run
  · exact removed_trimmed db table entry
  · have destroyed : Trimmed (db.removed table entry)
        (((db.removed table entry).doom table).destroy table) :=
      .of_eq (destroyed_lru _ table)
    have detached : Trimmed (dbTableDeref (((db.removed table entry).doom
        table).destroy table) table true) (db.removedLast table entry) :=
      .of_eq (detach_lru _ entry)
    exact ((removed_trimmed db table entry).trans destroyed).trans
      ((dbTableDeref_trimmed true).trans detached)

theorem dbEntryCleanup_trimmed (run : dbEntryCleanup db entry = .ok after) :
    Trimmed db after := by
  unfold dbEntryCleanup at run
  split at run
  · simp only [bind_eq_ok, pure_eq_ok] at run
    obtain ⟨path, -, rfl⟩ := run
    exact .of_eq rfl
  · obtain rfl := pure_eq_ok.mp run
    exact .of_eq rfl

theorem dbEntryDelete_trimmed (run : dbEntryDelete db entry = .ok after) :
    Trimmed db after := by
  unfold dbEntryDelete at run
  simp only [bind_eq_ok, pure_eq_ok] at run
  obtain ⟨path, -, rfl⟩ := run
  exact .of_eq rfl

theorem softTakeOut_trimmed (k : Nat) :
    Trimmed db (softTakeOut db table entry k) := by
  unfold softTakeOut
  dsimp only
  split
  · exact .of_eq rfl
  · exact .unlink entry .refl

theorem dbEntryActuallyDelete_trimmed :
    Trimmed db (dbEntryActuallyDelete db entry) := by
  by_cases inBlock : isSingleFile db entry = false ∧ 0 ≤ db.entry.block entry
  · rw [dbEntryActuallyDelete_inBlock db entry inBlock]
    obtain ⟨_, _, _, _, freeEq⟩ := dbBlockFree_eq db (db.entry.block entry)
    rw [freeEq]
    exact .of_eq rfl
  · rw [dbEntryActuallyDelete_noBlock db entry inBlock]
    exact .of_eq rfl

/-- The end of a soft delete. -/
theorem freed_trimmed
    (run : (if db.entry.refs entry = 0 then
      (pure (dbEntryActuallyDelete db entry) : Except Fault (Db kh))
      else pure db) = .ok after) : Trimmed db after := by
  split at run
  · obtain rfl := pure_eq_ok.mp run
    exact dbEntryActuallyDelete_trimmed
  · obtain rfl := pure_eq_ok.mp run
    exact .of_eq rfl

theorem dbEntryHandleSoftdelete_trimmed {k : Nat}
    (run : dbEntryHandleSoftdelete db entry k = .ok after) :
    Trimmed db after := by
  unfold dbEntryHandleSoftdelete at run
  dsimp only at run
  split at run
  · obtain rfl := pure_eq_ok.mp run
    exact .of_eq rfl
  have taken (unlinked : Db kh) (held : Nat) (trims : Trimmed db unlinked) :
      Trimmed db (softTakeOut { unlinked with
        entry.deleted := Function.update unlinked.entry.deleted entry true }
        held entry k) := by
    have marked : Trimmed unlinked { unlinked with
        entry.deleted := Function.update unlinked.entry.deleted entry true } :=
      .of_eq rfl
    exact (trims.trans marked).trans (softTakeOut_trimmed k)
  split at run
  · rw [bind_eq_ok] at run
    obtain ⟨unlinked, deletes, run⟩ := run
    simp only [bind_eq_ok] at run
    obtain ⟨held, -, set, -, run⟩ := run
    exact (taken unlinked held (dbEntryDelete_trimmed deletes)).trans
      (freed_trimmed run)
  · simp only [bind_eq_ok, pure_eq_ok] at run
    obtain ⟨unlinked, rfl, held, -, set, -, run⟩ := run
    exact (taken db held (.of_eq rfl)).trans (freed_trimmed run)

theorem dbTableHandleDelete_trimmed
    (run : dbTableHandleDelete db table = .ok after) : Trimmed db after := by
  unfold dbTableHandleDelete at run
  simp only [bind_eq_ok] at run
  obtain ⟨set, -, emptied, loop, run⟩ := run
  have doomed : Trimmed db (db.doom table) := .of_eq rfl
  have bucket : ∀ ke before next, Trimmed db before →
      deleteBucket table before ke = .ok next → Trimmed db next := by
    intro ke before next trimmed pass
    unfold deleteBucket at pass
    simp only [bind_eq_ok] at pass
    obtain ⟨set, -, pass⟩ := pass
    split at pass
    · obtain rfl := pure_eq_ok.mp pass
      exact trimmed
    split at pass
    · obtain rfl := pure_eq_ok.mp pass
      exact trimmed
    · rw [bind_eq_ok] at pass
      obtain ⟨removed, removal, pass⟩ := pass
      exact (trimmed.trans (dbEntryHandleSoftdelete_trimmed removal)).trans
        (dbEntryCleanup_trimmed pass)
  have trimmed : Trimmed db emptied :=
    foldlM_induction (fun ke _ before next => bucket ke before next) doomed loop
  unfold dbDeleteTableEntry at run
  simp only [bind_eq_ok, pure_eq_ok] at run
  obtain ⟨set, -, rfl⟩ := run
  refine trimmed.trans (Trimmed.trans ?_ (dbTableDeref_trimmed true))
  split
  · exact .of_eq rfl
  · exact .of_eq rfl

theorem removeSwept_trimmed {tableDeleted : Bool}
    (run : removeSwept db entry = .ok (after, tableDeleted)) :
    Trimmed db after := by
  unfold removeSwept at run
  split at run
  · simp only [bind_eq_ok, pure_eq_ok, Prod.exists, Prod.mk.injEq] at run
    obtain ⟨held, hold, removed, gone, removal, rfl, rfl⟩ := run
    exact ((dbEntryIncref_trimmed hold).trans
      (dbEntryHandleDelete_trimmed removal)).trans (dbEntryDeref_trimmed true)
  · exact dbEntryHandleDelete_trimmed run

theorem expireBuckets_trimmed {buckets : List Nat} {visited more : Nat}
    (run : expireBuckets table buckets db visited = .ok (after, more)) :
    Trimmed db after := by
  induction buckets generalizing db visited with
  | nil =>
      obtain ⟨rfl, -⟩ := Prod.mk.inj (pure_eq_ok.mp run)
      exact .of_eq rfl
  | cons ke buckets ih =>
      unfold expireBuckets at run
      simp only [bind_eq_ok] at run
      obtain ⟨set, -, run⟩ := run
      split at run
      · exact ih run
      split at run
      · simp only [bind_eq_ok, Prod.exists] at run
        obtain ⟨removed, tableDeleted, removal, run⟩ := run
        have trimmed := removeSwept_trimmed removal
        split at run
        · obtain ⟨rfl, -⟩ := Prod.mk.inj (pure_eq_ok.mp run)
          exact trimmed
        · exact trimmed.trans (ih run)
      · exact ih run

theorem expireAtCursor_trimmed {more : Nat}
    (run : expireAtCursor db = .ok (after, more)) : Trimmed db after := by
  unfold expireAtCursor at run
  split at run
  · obtain ⟨rfl, -⟩ := Prod.mk.inj (pure_eq_ok.mp run)
    exact .of_eq rfl
  · unfold dbExpireCursorTable at run
    rw [bind_eq_ok] at run
    obtain ⟨set, -, run⟩ := run
    exact expireBuckets_trimmed run

theorem expireTables_trimmed {start passes visited : Nat} {full : Bool}
    (run : expireTables start passes db visited = .ok (after, full)) :
    Trimmed db after := by
  induction passes generalizing db visited with
  | zero => exact (throw_eq_ok.mp run).elim
  | succ passes ih =>
      unfold expireTables at run
      simp only [bind_eq_ok, Prod.exists] at run
      obtain ⟨swept, more, sweep, run⟩ := run
      have trimmed : Trimmed db swept := expireAtCursor_trimmed sweep
      have moved : Trimmed db { swept with tableGc := nextCursor swept } :=
        trimmed
      split at run
      · exact moved.trans (ih run)
      · obtain ⟨rfl, -⟩ := Prod.mk.inj (pure_eq_ok.mp run)
        exact moved

theorem dbExpireCursor_trimmed {full : Bool}
    (run : dbExpireCursor db = .ok (after, full)) : Trimmed db after := by
  unfold dbExpireCursor at run
  dsimp only at run
  have moved : Trimmed db { db with tableGc := startCursor db } := .of_eq rfl
  split at run
  · obtain ⟨rfl, -⟩ := Prod.mk.inj (pure_eq_ok.mp run)
    exact moved
  · exact moved.trans (expireTables_trimmed run)

theorem expireRounds_trimmed {rounds : Nat}
    (run : expireRounds rounds db = .ok after) : Trimmed db after := by
  induction rounds generalizing db with
  | zero =>
      obtain rfl := pure_eq_ok.mp run
      exact .of_eq rfl
  | succ rounds ih =>
      unfold expireRounds at run
      simp only [bind_eq_ok, Prod.exists] at run
      obtain ⟨swept, full, sweep, run⟩ := run
      have trimmed := dbExpireCursor_trimmed sweep
      split at run
      · obtain rfl := pure_eq_ok.mp run
        exact trimmed
      · exact trimmed.trans (ih run)

theorem lruCleanup_trimmed {passes : Nat} {bytes : Int}
    (run : lruCleanup passes db bytes = .ok after) : Trimmed db after := by
  induction passes generalizing db bytes with
  | zero => exact (throw_eq_ok.mp run).elim
  | succ passes ih =>
      unfold lruCleanup at run
      split at run
      · obtain rfl := pure_eq_ok.mp run
        exact .of_eq rfl
      · next entry _ =>
          split at run
          · obtain rfl := pure_eq_ok.mp run
            exact .of_eq rfl
          split at run
          · have skipped : Trimmed db (dbLruRemoveNode db entry) :=
              .unlink entry .refl
            exact skipped.trans (ih run)
          · simp only [bind_eq_ok, Prod.exists] at run
            obtain ⟨removed, tableDeleted, removal, run⟩ := run
            exact (removeSwept_trimmed removal).trans (ih run)

theorem flushIndex_trimmed {outcome : FlushOutcome}
    (run : flushIndex db outcome = .ok after) : Trimmed db after := by
  obtain ⟨currentFlush, polledEq⟩ := currentlyFlushing_eq db outcome
  unfold flushIndex at run
  generalize currentlyFlushing db outcome = polled at run polledEq
  obtain ⟨polled, flushing⟩ := polled
  have polls : Trimmed db polled := by
    have polledEq : polled = _ := polledEq
    rw [polledEq]
    exact .of_eq rfl
  dsimp only at run
  split at run
  · obtain rfl := pure_eq_ok.mp run
    exact polls
  split at run
  · obtain rfl := pure_eq_ok.mp run
    exact polls
  · rw [bind_eq_ok] at run
    obtain ⟨forked, fork, run⟩ := run
    have forks : Trimmed db forked := by
      unfold dbIndexFlush at fork
      split at fork
      · obtain rfl := pure_eq_ok.mp fork
        exact polls
      · simp only [bind_eq_ok, pure_eq_ok] at fork
        obtain ⟨text, -, rfl⟩ := fork
        exact polls
    split at run
    · obtain rfl := pure_eq_ok.mp run
      exact forks
    · obtain rfl := pure_eq_ok.mp run
      exact forks

theorem dbLruGc_trimmed {maxSize : Nat} {bytesToRemove : Nat → Int}
    {outcome : FlushOutcome}
    (run : dbLruGc maxSize bytesToRemove db outcome = .ok after) :
    Trimmed db after := by
  unfold dbLruGc at run
  rw [bind_eq_ok] at run
  obtain ⟨collected, collection, run⟩ := run
  refine Trimmed.trans ?_ (flushIndex_trimmed run)
  unfold collect at collection
  split at collection
  · rw [bind_eq_ok] at collection
    obtain ⟨swept, sweep, collection⟩ := collection
    have trimmed := expireRounds_trimmed sweep
    dsimp only at collection
    split at collection
    · exact trimmed.trans (lruCleanup_trimmed collection)
    · obtain rfl := pure_eq_ok.mp collection
      exact trimmed
  · simp only [bind_eq_ok, pure_eq_ok, Prod.exists] at collection
    obtain ⟨swept, full, sweep, rfl⟩ := collection
    exact dbExpireCursor_trimmed sweep

theorem enterNew_trimmed {hashString : Bytes → UInt32} {key : Bytes}
    {first : Bool}
    (run : enterNew hashString db table key first = .ok (after, entry)) :
    Trimmed db after := by
  rw [enterNew_eq] at run
  split at run
  · cases run
  · obtain ⟨rfl, -⟩ := Prod.mk.inj (Except.ok.inj run)
    exact .clear db.entry.count .refl

theorem enterWrite_trimmed {hashString : Bytes → UInt32} {key : Bytes}
    {entered : Option Nat}
    (run : enterWrite hashString db table key = .ok (after, entered)) :
    Trimmed db after := by
  unfold enterWrite at run
  simp only [bind_eq_ok] at run
  obtain ⟨set, -, run⟩ := run
  split at run
  · split at run
    · obtain ⟨rfl, -⟩ := Prod.mk.inj (pure_eq_ok.mp run)
      exact .of_eq rfl
    · simp only [bind_eq_ok, Prod.exists, pure_eq_ok, Prod.mk.injEq] at run
      obtain ⟨removed, removal, stored, new, enters, rfl, -⟩ := run
      have trimmed : Trimmed _ removed :=
        dbEntryHandleSoftdelete_trimmed removal
      have entered : Trimmed removed stored := enterNew_trimmed enters
      exact trimmed.trans entered
  · simp only [bind_eq_ok, Prod.exists, pure_eq_ok, Prod.mk.injEq] at run
    obtain ⟨stored, new, enters, rfl, -⟩ := run
    have entered : Trimmed _ stored := enterNew_trimmed enters
    exact entered

theorem dbEntryGetWrite_trimmed {env : Env} {db after : Db env.kh}
    {key : Bytes} {outcome : FlushOutcome} {entered : Option Nat}
    (run : dbEntryGetWrite env db table key outcome = .ok (after, entered)) :
    Trimmed db after := by
  unfold dbEntryGetWrite at run
  simp only [bind_eq_ok, Prod.exists] at run
  obtain ⟨written, entry, write, run⟩ := run
  have trimmed := enterWrite_trimmed write
  split at run
  · simp only [bind_eq_ok, pure_eq_ok, Prod.mk.injEq] at run
    obtain ⟨collected, collection, rfl, -⟩ := run
    exact trimmed.trans (dbLruGc_trimmed collection)
  · obtain ⟨rfl, -⟩ := Prod.mk.inj (pure_eq_ok.mp run)
    exact trimmed

theorem dbTargetWriteAllocate_trimmed {length : Nat} {target : Target}
    (run : dbTargetWriteAllocate db entry length = .ok (after, target)) :
    Trimmed db after := by
  unfold dbTargetWriteAllocate at run
  simp only [bind_eq_ok, Prod.exists] at run
  obtain ⟨chosen, choice, opened, opening, opens, run⟩ := run
  have chooses : Trimmed db chosen := by
    obtain ⟨_, _, _, _, _, _, chosenEq, -⟩ := chooseStorage_eq choice
    rw [chosenEq]
    exact .of_eq rfl
  have counts : Trimmed db (countLength chosen entry length) := by
    rw [countLength_eq]
    exact chooses
  have openTrimmed : Trimmed (countLength chosen entry length) opened := by
    unfold dbTargetOpen at opens
    dsimp only at opens
    split at opens
    · simp only [if_true, bind_eq_ok, pure_eq_ok, Prod.exists,
        Prod.mk.injEq] at opens
      obtain ⟨created, fd, creates, rfl, -⟩ := opens
      obtain ⟨it, disk, createdEq, -⟩ := dbEntryOpenCreate_eq creates
      rw [createdEq]
      exact .of_eq rfl
    · obtain ⟨rfl, -⟩ := Prod.mk.inj (pure_eq_ok.mp opens)
      exact .of_eq rfl
  have trimmed := counts.trans openTrimmed
  split at run
  · obtain ⟨rfl, -⟩ := Prod.mk.inj (pure_eq_ok.mp run)
    refine trimmed.trans (.of_eq ?_)
    unfold truncateFd
    split <;> rfl
  · obtain ⟨rfl, -⟩ := Prod.mk.inj (pure_eq_ok.mp run)
    exact trimmed

section Handlers

variable {session next : Session kh}

theorem cacheDestroy_trimmed (run : cacheDestroy session = .ok next) :
    Trimmed session.db next.db := by
  unfold cacheDestroy at run
  dsimp only at run
  split at run
  · next entry level held =>
      simp only [bind_eq_ok, pure_eq_ok] at run
      obtain ⟨abandoned, abandons, closed, closes, rfl⟩ := run
      have given : Trimmed session.db abandoned := by
        unfold abandonUpload at abandons
        dsimp only at abandons
        split at abandons
        · split at abandons
          · simp only [bind_eq_ok, pure_eq_ok] at abandons
            obtain ⟨kept, rfl, rfl⟩ := abandons
            exact .of_eq rfl
          · simp only [bind_eq_ok, pure_eq_ok, Prod.exists] at abandons
            obtain ⟨gone, tableDeleted, removal, kept, rfl, rfl⟩ := abandons
            have trimmed : Trimmed session.db gone :=
              dbEntryHandleDelete_trimmed removal
            exact trimmed
        · obtain rfl := pure_eq_ok.mp abandons
          exact .of_eq rfl
      refine given.trans ?_
      unfold dbTargetEntryClose at closes
      dsimp only at closes
      split at closes
      · split at closes
        · simp only [bind_eq_ok, pure_eq_ok] at closes
          obtain ⟨unlinked, unlinks, rfl⟩ := closes
          exact (dbEntryDelete_trimmed unlinks).trans
            (dbEntryDeref_trimmed true)
        · simp only [bind_eq_ok, pure_eq_ok] at closes
          obtain ⟨kept, rfl, rfl⟩ := closes
          exact dbEntryDeref_trimmed true
      · simp only [bind_eq_ok, pure_eq_ok] at closes
        obtain ⟨kept, rfl, rfl⟩ := closes
        exact dbEntryDeref_trimmed true
  · obtain rfl := pure_eq_ok.mp run
    dsimp only
    exact dbTableDeref_trimmed false
  · obtain rfl := pure_eq_ok.mp run
    exact .of_eq rfl

theorem finishRequest_trimmed (run : finishRequest session = .ok next)
    (same : session.db = db) : Trimmed db next.db := by
  unfold finishRequest at run
  simp only [bind_eq_ok, pure_eq_ok] at run
  obtain ⟨destroyed, destroys, rfl⟩ := run
  have trimmed : Trimmed session.db destroyed.db :=
    cacheDestroy_trimmed destroys
  rw [← same]
  exact trimmed

theorem closeConnection_trimmed (run : closeConnection session = .ok next)
    (same : session.db = db) : Trimmed db next.db := by
  unfold closeConnection at run
  simp only [bind_eq_ok, pure_eq_ok] at run
  obtain ⟨destroyed, destroys, rfl⟩ := run
  have trimmed : Trimmed session.db destroyed.db :=
    cacheDestroy_trimmed destroys
  rw [← same]
  exact trimmed

theorem dbTableGetRead_trimmed {hashString : Bytes → UInt32} {name : Bytes}
    {found : Option Nat}
    (run : dbTableGetRead hashString db name = .ok (after, found)) :
    Trimmed db after := by
  unfold dbTableGetRead at run
  rw [bind_eq_ok] at run
  obtain ⟨result, -, run⟩ := run
  split at run
  · obtain ⟨rfl, -⟩ := Prod.mk.inj (pure_eq_ok.mp run)
    exact .of_eq rfl
  · obtain ⟨rfl, -⟩ := Prod.mk.inj (pure_eq_ok.mp run)
    exact .of_eq rfl

theorem tableOfKey_trimmed {hashString : Bytes → UInt32} {name : Bytes}
    {method : Option Method} {found : Option Nat}
    (run : tableOfKey hashString method db name = .ok (after, found)) :
    Trimmed db after := by
  unfold tableOfKey at run
  split at run
  · exact dbTableGetRead_trimmed run
  · exact dbTableGetRead_trimmed run
  · exact dbTableGetRead_trimmed run
  · simp only [bind_eq_ok, pure_eq_ok, Prod.exists, Prod.mk.injEq] at run
    obtain ⟨written, table, writes, rfl, -⟩ := run
    unfold dbTableGetWrite at writes
    rw [bind_eq_ok] at writes
    obtain ⟨result, -, writes⟩ := writes
    split at writes
    · obtain ⟨rfl, -⟩ := Prod.mk.inj (pure_eq_ok.mp writes)
      exact .of_eq rfl
    · obtain ⟨rfl, -⟩ := Prod.mk.inj (pure_eq_ok.mp writes)
      exact .of_eq rfl

theorem httpReadTableSegment_trimmed {hashString : Bytes → UInt32}
    {name : Bytes}
    (run : httpReadTableSegment hashString session name = .ok next) :
    Trimmed session.db next.db := by
  unfold httpReadTableSegment at run
  simp only [bind_eq_ok, Prod.exists] at run
  obtain ⟨looked, found, lookup, run⟩ := run
  have trimmed := tableOfKey_trimmed lookup
  split at run
  · obtain rfl := pure_eq_ok.mp run
    exact trimmed
  · obtain rfl := pure_eq_ok.mp run
    exact trimmed

theorem httpReadTableOnly_trimmed {env : Env} {session next : Session env.kh}
    {name : Bytes} {outcome : FlushOutcome}
    (run : httpReadTableOnly env session name outcome = .ok next) :
    Trimmed session.db next.db := by
  unfold httpReadTableOnly at run
  have holds (run : (if name = [] then
        (pure { session with connection.level := .table }.statsAfterEol :
          Except Fault (Session env.kh))
      else holdTable env.hashString session name) = .ok next) :
      Trimmed session.db next.db := by
    split at run
    · obtain rfl := pure_eq_ok.mp run
      exact .of_eq rfl
    · unfold holdTable at run
      simp only [bind_eq_ok, pure_eq_ok, Prod.exists] at run
      obtain ⟨looked, found, lookup, rfl⟩ := run
      exact dbTableGetRead_trimmed lookup
  dsimp only at run
  split at run
  · exact holds run
  · exact holds run
  · exact holds run
  · split at run
    · simp only [bind_eq_ok, pure_eq_ok] at run
      obtain ⟨collected, collection, rfl⟩ := run
      exact dbLruGc_trimmed collection
    · obtain rfl := pure_eq_ok.mp run
      exact .of_eq rfl
  · obtain rfl := pure_eq_ok.mp run
    exact .of_eq rfl

theorem holdEntry_trimmed {found : Option Nat}
    (run : holdEntry session table found = .ok next) :
    Trimmed session.db next.db ∧
      next.connection.served = session.connection.served ∧
      (found ≠ none → next.db = session.db) := by
  unfold holdEntry at run
  dsimp only at run
  split at run
  · split at run
    · obtain rfl := pure_eq_ok.mp run
      exact ⟨.of_eq rfl, rfl, fun _ => rfl⟩
    · simp only [bind_eq_ok, pure_eq_ok, Prod.exists] at run
      obtain ⟨opened, target, opens, rfl⟩ := run
      obtain rfl := dbTargetOpen_read opens
      exact ⟨.of_eq rfl, rfl, fun _ => rfl⟩
  · obtain rfl := pure_eq_ok.mp run
    dsimp only
    exact ⟨dbTableDeref_trimmed false, rfl, fun some_ => absurd rfl some_⟩

theorem dbEntryGetDelete_trimmed {hashString : Bytes → UInt32} {key : Bytes}
    {found : Option Nat}
    (run : dbEntryGetDelete hashString db table key = .ok (after, found)) :
    Trimmed db after := by
  unfold dbEntryGetDelete at run
  rw [bind_eq_ok] at run
  obtain ⟨set, -, run⟩ := run
  split at run
  · obtain ⟨rfl, -⟩ := Prod.mk.inj (pure_eq_ok.mp run)
    exact .of_eq rfl
  split at run
  · obtain ⟨rfl, -⟩ := Prod.mk.inj (pure_eq_ok.mp run)
    exact .of_eq rfl
  · simp only [bind_eq_ok, pure_eq_ok, Prod.mk.injEq] at run
    obtain ⟨taken, takes, rfl, -⟩ := run
    have counted : Trimmed _ taken := dbEntryIncref_trimmed takes
    exact counted

theorem httpReadHeaderExtraction_trimmed {hashString : Bytes → UInt32}
    {header : Header}
    (run : httpReadHeaderExtraction hashString session header = .ok next) :
    Trimmed session.db next.db := by
  unfold httpReadHeaderExtraction at run
  split at run
  · unfold readContentLength at run
    split at run
    · obtain rfl := pure_eq_ok.mp run
      exact .of_eq rfl
    · simp only [bind_eq_ok, pure_eq_ok, Prod.exists] at run
      obtain ⟨stored, target, allocates, rfl⟩ := run
      exact dbTargetWriteAllocate_trimmed allocates
    · obtain rfl := pure_eq_ok.mp run
      exact .of_eq rfl
  · obtain rfl := pure_eq_ok.mp run
    unfold readTtl
    split
    · exact .of_eq rfl
    · split
      · exact .of_eq rfl
      · exact .of_eq rfl
    · exact .of_eq rfl
  · obtain rfl := pure_eq_ok.mp run
    unfold readListingBound
    split <;> exact .of_eq rfl
  · obtain rfl := pure_eq_ok.mp run
    unfold readListingBound
    split <;> exact .of_eq rfl
  · split at run
    · unfold readDelete at run
      simp only [bind_eq_ok, Prod.exists] at run
      obtain ⟨looked, found, lookup, run⟩ := run
      have trimmed := dbEntryGetDelete_trimmed lookup
      split at run
      · obtain rfl := pure_eq_ok.mp run
        exact trimmed
      · simp only [bind_eq_ok, pure_eq_ok, Prod.exists] at run
        obtain ⟨removed, tableDeleted, removal, rfl⟩ := run
        exact (trimmed.trans (dbEntryHandleDelete_trimmed removal)).trans
          (dbEntryDeref_trimmed false)
    · obtain rfl := pure_eq_ok.mp run
      exact .of_eq rfl
  · obtain rfl := pure_eq_ok.mp run
    exact .of_eq rfl

theorem httpReadHeaders_trimmed (run : httpReadHeaders session = .ok next) :
    Trimmed session.db next.db := by
  unfold httpReadHeaders at run
  split at run
  · unfold routeKey at run
    split at run
    · split at run
      · obtain rfl := pure_eq_ok.mp run
        exact .of_eq rfl
      · obtain rfl := pure_eq_ok.mp run
        exact .of_eq rfl
    · obtain rfl := pure_eq_ok.mp run
      exact .of_eq rfl
    · obtain rfl := pure_eq_ok.mp run
      exact .of_eq rfl
    · obtain rfl := pure_eq_ok.mp run
      exact .of_eq rfl
    · simp only [bind_eq_ok, pure_eq_ok, Prod.exists] at run
      obtain ⟨removed, tableDeleted, removal, rfl⟩ := run
      exact dbEntryHandleDelete_trimmed removal
    · obtain rfl := pure_eq_ok.mp run
      exact .of_eq rfl
    · obtain rfl := pure_eq_ok.mp run
      exact .of_eq rfl
  · unfold routeTable at run
    split at run
    · obtain rfl := pure_eq_ok.mp run
      exact .of_eq rfl
    · obtain rfl := pure_eq_ok.mp run
      exact .of_eq rfl
    · simp only [bind_eq_ok, pure_eq_ok] at run
      obtain ⟨removed, removal, rfl⟩ := run
      exact dbTableHandleDelete_trimmed removal
    all_goals
      obtain rfl := pure_eq_ok.mp run
      exact .of_eq rfl

theorem httpWriteHandle_trimmed {outcome : SendOutcome}
    (run : httpWriteHandle session outcome = .ok next) :
    Trimmed session.db next.db := by
  unfold httpWriteHandle runRespond at run
  dsimp only at run
  split at run
  · obtain rfl := pure_eq_ok.mp run
    exact .of_eq rfl
  · obtain rfl := pure_eq_ok.mp run
    exact .of_eq rfl
  · obtain rfl := pure_eq_ok.mp run
    exact .of_eq rfl
  · unfold httpRespondContentbody at run
    dsimp only at run
    split at run
    · exact finishRequest_trimmed run rfl
    split at run
    · obtain rfl := pure_eq_ok.mp run
      exact .of_eq rfl
    · exact closeConnection_trimmed run rfl
    · split at run
      · exact closeConnection_trimmed run rfl
      split at run
      · exact finishRequest_trimmed run rfl
      · obtain rfl := pure_eq_ok.mp run
        exact .of_eq rfl
  · exact finishRequest_trimmed run rfl
  · exact finishRequest_trimmed run rfl
  · obtain rfl := pure_eq_ok.mp run
    exact .of_eq rfl
  · unfold httpRespondListingentries at run
    simp only [bind_eq_ok, pure_eq_ok] at run
    obtain ⟨set, -, rfl⟩ := run
    exact .of_eq rfl
  · unfold httpRespondListingtotal at run
    simp only [bind_eq_ok, pure_eq_ok] at run
    obtain ⟨set, -, rfl⟩ := run
    exact .of_eq rfl
  · obtain rfl := pure_eq_ok.mp run
    exact .of_eq rfl
  · unfold httpRespondListing at run
    rw [bind_eq_ok] at run
    obtain ⟨set, -, run⟩ := run
    dsimp only at run
    split at run
    · exact closeConnection_trimmed run rfl
    rw [bind_eq_ok] at run
    obtain ⟨⟨limit, found⟩, -, run⟩ := run
    dsimp only at run
    split at run
    · exact closeConnection_trimmed run rfl
    · obtain rfl := pure_eq_ok.mp run
      exact .of_eq rfl
  · exact closeConnection_trimmed run rfl
  · obtain rfl := pure_eq_ok.mp run
    exact .of_eq rfl

end Handlers

/-- The entry that a step of a connection touches: the one that a `GET` or
`HEAD` finds, and the one whose upload ends. -/
def touchedBy (session : Session kh) (action : Action) (next : Session kh) :
    List Nat :=
  match action with
  | .keySegment _ _ =>
      match session.connection.handler, session.connection.target with
      | .handleUrlKey, .table _ =>
          if session.connection.method = some .get ∨
              session.connection.method = some .head
          then next.connection.served.toList
          else []
      | _, _ => []
  | .requestBody _ _ =>
      (next.completions.drop session.completions.length).map Completion.entry
  | _ => []

/-- What a step makes of the list, and the entry it touches. -/
inductive Moves (before after : Db kh) : List Nat → Prop
  | trimmed (trimmed : Trimmed before after) : Moves before after []
  | hit (entry table : Nat) (held : Holds before table entry)
      (complete : before.entry.writing entry = false)
      (lru : after.lru = (before.lru.unlink entry).append entry) :
      Moves before after [entry]
  | complete (entry : Nat) (writing : before.entry.writing entry = true)
      (deleted : after.entry.deleted = before.entry.deleted)
      (lru : after.lru = if before.entry.deleted entry then before.lru
        else before.lru.append entry) :
      Moves before after [entry]

theorem dbEntryGetRead_moves {hashString : Bytes → UInt32} {key : Bytes}
    {found : Option Nat}
    (run : dbEntryGetRead hashString db table key = .ok (after, found)) :
    (found = none ∧ Trimmed db after) ∨
      ∃ entry, found = some entry ∧ Holds db table entry ∧
        db.entry.writing entry = false ∧
        after.lru = (db.lru.unlink entry).append entry := by
  unfold dbEntryGetRead at run
  simp only [bind_eq_ok, keyMap_eq_ok] at run
  obtain ⟨set, ⟨-, rfl⟩, run⟩ := run
  split at run
  · obtain ⟨rfl, rfl⟩ := Prod.mk.inj (pure_eq_ok.mp run)
    exact Or.inl ⟨rfl, .of_eq rfl⟩
  next entry lookup =>
  split at run
  · simp only [bind_eq_ok, pure_eq_ok, Prod.exists, Prod.mk.injEq] at run
    obtain ⟨taken, takes, removed, tableDeleted, removal, rfl, rfl⟩ := run
    exact Or.inl ⟨rfl, ((dbEntryIncref_trimmed takes).trans
      (dbEntryHandleDelete_trimmed removal)).trans
        (dbEntryDeref_trimmed false)⟩
  split at run
  · obtain ⟨rfl, rfl⟩ := Prod.mk.inj (pure_eq_ok.mp run)
    exact Or.inl ⟨rfl, .of_eq rfl⟩
  split at run
  · obtain ⟨rfl, rfl⟩ := Prod.mk.inj (pure_eq_ok.mp run)
    exact Or.inl ⟨rfl, .of_eq rfl⟩
  · next complete =>
      simp only [bind_eq_ok, pure_eq_ok, Prod.mk.injEq] at run
      obtain ⟨taken, takes, rfl, rfl⟩ := run
      obtain rfl := Except.ok.inj takes
      exact Or.inr ⟨entry, rfl, ⟨_, lookup⟩, eq_false_of_ne_true complete,
        rfl⟩

section Moves

variable {env : Env} {session next : Session env.kh}

theorem httpKeyLookup_moves {key : Bytes} {outcome : FlushOutcome}
    (run : httpKeyLookup env session table key outcome = .ok next) :
    Moves session.db next.db
      (if session.connection.method = some .get ∨
          session.connection.method = some .head
        then next.connection.served.toList else []) := by
  have reads (run : (dbEntryGetRead env.hashString session.db table key >>=
      fun found => holdEntry { session with
        db := found.1
        connection.served := found.2 } table found.2) = .ok next) :
      Moves session.db next.db next.connection.served.toList := by
    rw [bind_eq_ok] at run
    obtain ⟨⟨looked, found⟩, lookup, run⟩ := run
    obtain ⟨trimmed, served, same⟩ := holdEntry_trimmed run
    have served : next.connection.served = found := served
    rw [served]
    rcases dbEntryGetRead_moves lookup with
      ⟨rfl, looks⟩ | ⟨entry, rfl, held, complete, lru⟩
    · exact .trimmed (looks.trans trimmed)
    · refine .hit entry table held complete ?_
      rw [same (by simp)]
      exact lru
  unfold httpKeyLookup at run
  split at run
  · next method =>
      rw [method, if_pos (Or.inl rfl)]
      exact reads run
  · next method =>
      rw [method, if_pos (Or.inr rfl)]
      exact reads run
  · next method =>
      rw [method, if_neg (by simp)]
      simp only [bind_eq_ok, Prod.exists] at run
      obtain ⟨written, found, writes, run⟩ := run
      obtain ⟨trimmed, -⟩ := holdEntry_trimmed run
      exact .trimmed ((dbEntryGetWrite_trimmed writes).trans trimmed)
  · next method =>
      rw [method, if_neg (by simp)]
      simp only [bind_eq_ok, Prod.exists] at run
      obtain ⟨looked, found, lookup, run⟩ := run
      obtain ⟨trimmed, -⟩ := holdEntry_trimmed run
      exact .trimmed ((dbEntryGetDelete_trimmed lookup).trans trimmed)
  · next noGet noHead noPut noDelete =>
      have neither : ¬(session.connection.method = some .get ∨
          session.connection.method = some .head) := by
        rintro (isGet | isHead)
        · exact noGet isGet
        · exact noHead isHead
      rw [if_neg neither]
      obtain rfl := pure_eq_ok.mp run
      exact .trimmed (.of_eq rfl)

theorem finishUpload_moves {base : Session env.kh}
    (lru : session.db.lru = base.db.lru)
    (deleted : session.db.entry.deleted = base.db.entry.deleted)
    (completions : session.completions = base.completions)
    (writes : session.connection.isWriting = true → ∀ entry,
      session.connection.target = .entry entry →
        base.db.entry.writing entry = true) :
    Moves base.db (finishUpload session).db
      (((finishUpload session).completions.drop
        base.completions.length).map Completion.entry) := by
  unfold finishUpload
  dsimp only
  split
  · split
    · next entry isWriting held =>
        have last : (session.completions ++
            [completion session entry]).drop base.completions.length =
              [completion session entry] := by
          rw [completions]
          exact List.drop_left ..
        dsimp only [Session.writeResponse]
        rw [last, dbCompleteWriting_eq]
        refine .complete entry (writes isWriting entry held) deleted ?_
        change (if session.db.entry.deleted entry then session.db.lru
          else session.db.lru.append entry) = _
        rw [lru, deleted]
    · dsimp only [Session.writeResponse]
      rw [completions, List.drop_length]
      exact .trimmed (.of_eq lru)
  · rw [completions, List.drop_length]
    exact .trimmed (.of_eq lru)

theorem httpCacheHandleRequestBody_moves {input : Bytes} {written : Int}
    (writes : session.connection.isWriting = true → ∀ entry,
      session.connection.target = .entry entry →
        session.db.entry.writing entry = true)
    (run : httpCacheHandleRequestBody session input written = .ok next) :
    Moves session.db next.db
      ((next.completions.drop session.completions.length).map
        Completion.entry) := by
  unfold httpCacheHandleRequestBody at run
  dsimp only at run
  split at run
  · obtain rfl := pure_eq_ok.mp run
    exact finishUpload_moves rfl rfl rfl writes
  split at run
  · split at run
    · obtain rfl := pure_eq_ok.mp run
      dsimp only [Session.writeResponse]
      rw [List.drop_length]
      exact .trimmed (.of_eq rfl)
    split at run
    · exact (throw_eq_ok.mp run).elim
    split at run
    · obtain rfl := pure_eq_ok.mp run
      exact finishUpload_moves rfl rfl rfl writes
    · obtain rfl := pure_eq_ok.mp run
      obtain ⟨inodes, blockfile, written⟩ := writeFd_eq session.db
        session.connection.fd session.connection.position.toNat
          (input.take (min written (min (toInt (session.connection.endPosition -
            session.connection.position)) input.length)).toNat)
      refine finishUpload_moves ?_ ?_ rfl writes
      · exact (congrArg Db.lru written).trans rfl
      · exact (congrArg (fun db => db.entry.deleted) written).trans rfl
  · obtain rfl := pure_eq_ok.mp run
    exact finishUpload_moves rfl rfl rfl writes

theorem handle_moves {action : Action}
    (writes : session.connection.isWriting = true → ∀ entry,
      session.connection.target = .entry entry →
        session.db.entry.writing entry = true)
    (run : handle env session action = .ok next) :
    Moves session.db next.db (touchedBy session action next) := by
  unfold handle at run
  split at run
  · exact .trimmed (closeConnection_trimmed run rfl)
  · next word _ =>
      obtain rfl := pure_eq_ok.mp run
      cases word <;> exact .trimmed (.of_eq rfl)
  · exact .trimmed (httpReadTableSegment_trimmed run)
  · exact .trimmed (httpReadTableOnly_trimmed run)
  · next key outcome handler =>
      unfold touchedBy
      dsimp only
      rw [handler]
      split at run
      · next table held =>
          rw [held]
          exact httpKeyLookup_moves run
      · next unheld =>
          obtain rfl := pure_eq_ok.mp run
          split
          · next table _ held => exact (unheld table held).elim
          · exact .trimmed (.of_eq rfl)
  · obtain rfl := pure_eq_ok.mp run
    exact .trimmed (.of_eq rfl)
  · exact .trimmed (httpReadHeaderExtraction_trimmed run)
  · exact .trimmed (httpReadHeaders_trimmed run)
  · obtain rfl := pure_eq_ok.mp run
    exact .trimmed (.of_eq rfl)
  · exact httpCacheHandleRequestBody_moves writes run
  · obtain rfl := pure_eq_ok.mp run
    exact .trimmed (.of_eq rfl)
  · obtain rfl := pure_eq_ok.mp run
    exact .trimmed (.of_eq rfl)
  · split at run
    · exact .trimmed (httpWriteHandle_trimmed run)
    · obtain rfl := pure_eq_ok.mp run
      exact .trimmed (.of_eq rfl)
  · next noKey _ _ _ _ _ _ _ =>
      obtain rfl := pure_eq_ok.mp run
      unfold touchedBy
      split
      · split
        · next handler _ => exact (noKey _ _ handler rfl).elim
        · exact .trimmed (.of_eq rfl)
      · rw [List.drop_length]
        exact .trimmed (.of_eq rfl)
      · exact .trimmed (.of_eq rfl)

end Moves

def Work.Detached (work : Work kh) : Prop :=
  ∀ nodes, work.db.lru.Represents nodes → work.db.lru.Detached nodes

section Detached

variable {hashString : Bytes → UInt32} {allowed : Defect → Prop}
  {before after : Work kh}

theorem detached_unlink {lru : Links Nat} {listed : List Nat} {entry : Nat}
    (represents : lru.Represents listed) (detached : lru.Detached listed)
    (member : entry ∈ listed) :
    ∃ rest, entry ∉ rest ∧ (lru.unlink entry).Represents rest ∧
      (lru.unlink entry).Detached rest := by
  obtain ⟨front, back, rfl⟩ := List.append_of_mem member
  exact ⟨front ++ back,
    (List.nodup_cons.mp (List.nodup_middle.mp represents.nodup)).1,
    represents.unlink, represents.detached_unlink detached⟩

theorem Change.detached (orderly : Orderly allowed)
    (change : Change hashString allowed before after)
    (consistent : before.Consistent) (listed : before.EntriesListed)
    (detached : before.Detached) : after.Detached := by
  obtain ⟨listing, represents, members⟩ := listed
  have apart := detached listing represents
  cases change with
  | remove table entry index keyed uncounted counted removing inTable present
      found fresh =>
      have live := orderly.live consistent.keys fresh
      have entryLt := (consistent.keys.table_lt inTable).1
      intro nodes
      change Links.Represents (if before.db.entry.writing entry
        then before.db.lru else before.db.lru.unlink entry) nodes →
        Links.Detached (if before.db.entry.writing entry
        then before.db.lru else before.db.lru.unlink entry) nodes
      split
      · exact detached nodes
      · next complete =>
          intro remains
          obtain ⟨rest, -, left, loose⟩ := detached_unlink represents apart
            ((members entry).mpr ⟨entryLt, live, eq_false_of_ne_true complete⟩)
          rw [remains.unique left]
          exact loose
  | enter table new first counted null live held =>
      intro nodes remains
      have fresh : before.db.entry.count ∉ listing := fun member =>
        lt_irrefl _ ((members _).mp member).1
      rw [remains.unique (represents.clear fresh)]
      exact apart.clear _
  | load table new it held live unloaded placed unused =>
      intro nodes remains
      have fresh : before.db.entry.count ∉ listing := fun member =>
        lt_irrefl _ ((members _).mp member).1
      have cleared := represents.clear fresh
      rw [remains.unique (cleared.append fresh)]
      exact cleared.detached_append (apart.clear _)
  | hit entry table held complete =>
      obtain ⟨key, held⟩ := held
      have live := consistent.keys.live_held held
      have entryLt :=
        (consistent.keys.table_lt (consistent.keys.table_held held)).1
      obtain ⟨rest, absent, left, loose⟩ := detached_unlink represents apart
        ((members entry).mpr ⟨entryLt, live, complete⟩)
      intro nodes remains
      rw [remains.unique (left.append absent)]
      exact left.detached_append loose
  | skip entry head unlisted =>
      have member : entry ∈ listing :=
        List.mem_of_mem_head? (represents.head_eq.symm.trans head)
      obtain ⟨-, live, complete⟩ := (members entry).mp member
      rcases unlisted with isWriting | isDeleted
      · exact absurd (isWriting.symm.trans complete) Bool.noConfusion
      · exact absurd (isDeleted.symm.trans live) Bool.noConfusion
  | complete entry held isWriting =>
      have isTarget := before.target_current.trans held
      obtain ⟨other, isOther, writing⟩ := consistent.holders.writes
        (before.isWriting_current.trans isWriting)
      obtain rfl : other = entry := by
        rw [isTarget] at isOther
        exact (Held.entry.inj isOther).symm
      intro nodes
      change Links.Represents (if before.db.entry.deleted other
        then before.db.lru else before.db.lru.append other) nodes →
        Links.Detached (if before.db.entry.deleted other
        then before.db.lru else before.db.lru.append other) nodes
      split
      · exact detached nodes
      · intro remains
        have absent : other ∉ listing := fun member => by
          have complete := ((members other).mp member).2.2
          exact Bool.false_ne_true (complete.symm.trans writing)
        rw [remains.unique (represents.append absent)]
        exact represents.detached_append apart
  | _ => exact detached

end Detached

/-- Two descriptions of the list at once. -/
def Work.Threaded (work : Work kh) : Prop :=
  work.Listing ∧ work.Detached

theorem carries_threaded (env : Env) {allowed : Defect → Prop}
    (orderly : Orderly allowed) :
    Carries env allowed Work.Threaded where
  change := fun consistent change threaded =>
    ⟨(carries_listing env orderly).change consistent change threaded.1,
      change.detached orderly consistent threaded.1.2 threaded.2⟩
  alike := by
    rintro first second alike ⟨listing, detached⟩
    refine ⟨(carries_listing env orderly).alike alike listing, ?_⟩
    unfold Work.Detached at detached ⊢
    rw [← alike.db]
    exact detached
  outside := by
    rintro server after event loaded outside sound run ⟨listing, detached⟩
    refine ⟨(carries_listing env orderly).outside outside sound run listing, ?_⟩
    obtain ⟨⟨currentTime, currentUsec, flush, indexSave, same⟩, -, -⟩ :=
      serverStep_outside outside sound run
    unfold Work.Detached at detached ⊢
    change ∀ nodes, after.db.lru.Represents nodes → after.db.lru.Detached nodes
    rw [same]
    exact detached

theorem threaded_blank (disk : Disk) (freeBlocks : List Nat)
    (blocksExist blocksFree : Nat) (blockfile : ByteFile) :
    (blankWork disk freeBlocks blocksExist blocksFree blockfile :
      Work kh).Threaded := by
  refine ⟨listing_blank disk freeBlocks blocksExist blocksFree blockfile, ?_⟩
  intro nodes _ entry _
  exact ⟨rfl, rfl⟩

/-- Runs without removals of what is gone, an index that names a key hash of a
table twice, and a release that unregisters another table. -/
def Alone (defect : Defect) : Prop :=
  defect ≠ .staleDelete ∧ defect ≠ .keyCollision ∧ defect ≠ .clobber

/-- The same, once the index is loaded. -/
def AloneRunning (defect : Defect) : Prop :=
  defect ≠ .opening ∧ Alone defect

theorem orderly_alone : Orderly Alone where
  fresh := fun alone => alone.1 rfl
  distinct := fun alone => alone.2.1 rfl

theorem orderly_aloneRunning : Orderly AloneRunning where
  fresh := fun alone => alone.2.1 rfl
  distinct := fun alone => alone.2.2.1 rfl

/-- No other table is registered under the hash of the one that the connection
holds. -/
def Work.OwnTable (work : Work kh) : Prop :=
  ∀ table, heldTable work.db work.connection.target = some table →
    Unshared work.db table

section Own

variable {hashString : Bytes → UInt32} {allowed : Defect → Prop}
  {before after : Work kh}

theorem Change.ownTable (running : ¬allowed .opening)
    (change : Change hashString allowed before after)
    (consistent : before.Consistent) (own : before.OwnTable) :
    after.OwnTable := by
  cases change with
  | talk connection sameTarget =>
      intro table held
      refine own table ?_
      change heldTable before.db connection.target = some table at held
      rw [sameTarget] at held
      exact held
  | takeTable taken null registered =>
      obtain ⟨hash, registered⟩ := registered
      rintro table held other found
      obtain rfl : taken = table := Option.some.inj held
      have isHash := consistent.tables.registered_hash registered
      change before.db.table.hash taken = hash at isHash
      change kh.lookup before.db.tables (before.db.table.hash taken) =
        some other at found
      rw [isHash, registered] at found
      exact (Option.some.inj found).symm
  | createTable name hash =>
      rintro table held other found
      obtain rfl : before.db.table.count = table := Option.some.inj held
      change kh.lookup (kh.put before.db.tables hash before.db.table.count)
        (Function.update before.db.table.hash before.db.table.count hash
          before.db.table.count) = some other at found
      rw [Function.update_self, BucketMap.lookup_put, if_pos rfl] at found
      exact (Option.some.inj found).symm
  | dropTable | forgetTable | release | releaseDetached =>
      intro table held
      cases held
  | freeTable freed =>
      intro table held other found
      change kh.lookup (dbTableActuallyDelete before.db freed).tables
        (before.db.table.hash table) = some other at found
      rw [lookup_dbTableActuallyDelete] at found
      split at found
      · cases found
      · exact own table held other found
  | claim entry table held isHeld inTable =>
      intro claimed isClaimed
      obtain rfl : table = claimed :=
        Option.some.inj (inTable.symm.trans isClaimed)
      exact own table (congrArg (heldTable before.db) isHeld)
  | claimWrite entry table held isHeld inTable =>
      intro claimed isClaimed
      obtain rfl : table = claimed :=
        Option.some.inj (inTable.symm.trans isClaimed)
      exact own table (congrArg (heldTable before.db) isHeld)
  | destroy destroyed =>
      intro table held other found
      refine own table held other ?_
      change kh.lookup (if before.db.table.refs destroyed = 0
        then before.db.tables
        else kh.del before.db.tables
          (kh.find before.db.tables (before.db.table.hash destroyed)))
        (before.db.table.hash table) = some other at found
      split at found
      · exact found
      · rw [BucketMap.lookup_del_find] at found
        split at found
        · cases found
        · exact found
  | detach entry detached =>
      intro table held
      refine own table ?_
      unfold heldTable at held ⊢
      cases target : before.connection.target with
      | null | table =>
          rw [target] at held
          exact held
      | entry other =>
          rw [target] at held
          change Function.update before.db.entry.table entry none other =
            some table at held
          by_cases same : other = entry
          · rw [same, Function.update_self] at held
            cases held
          · rw [Function.update_of_ne same] at held
            exact held
  | enter entered new first counted null live held =>
      intro table isHeld
      refine own table ?_
      change heldTable _ before.connection.target = some table at isHeld
      rw [held] at isHeld ⊢
      exact isHeld
  | loadTakeTable | loadCreateTable | loadDropTable | loadFreeTable | load =>
      exact absurd ‹allowed .opening› running
  | _ => exact own

end Own

/-- A `DELETE` whose headers are being read holds an entry that is not
deleted. -/
def DeleteLive (deleted : Nat → Bool) (connection : Connection) : Prop :=
  ∀ entry, connection.handler = .handleHttpversion ∨
      connection.handler = .handleHeaders →
    connection.method = some .delete → connection.target = .entry entry →
      deleted entry = false

section Deletes

variable {session next : Session kh} {deleted : Nat → Bool}

theorem deleteLive_null {connection : Connection}
    (null : connection.target = .null) : DeleteLive deleted connection := by
  intro entry _ _ held
  rw [null] at held
  cases held

theorem deleteLive_past {connection : Connection}
    (past : connection.handler ≠ .handleHttpversion ∧
      connection.handler ≠ .handleHeaders) : DeleteLive deleted connection := by
  rintro entry (early | early)
  · exact absurd early past.1
  · exact absurd early past.2

theorem closeConnection_deleteLive (fits : session.connection.Fits)
    (run : closeConnection session = .ok next) :
    DeleteLive deleted next.connection := by
  unfold closeConnection at run
  simp only [bind_eq_ok, pure_eq_ok] at run
  obtain ⟨ended, ending, rfl⟩ := run
  exact deleteLive_null (cacheDestroy_connection fits ending).1

theorem finishRequest_deleteLive (fits : session.connection.Fits)
    (run : finishRequest session = .ok next) :
    DeleteLive deleted next.connection := by
  unfold finishRequest at run
  simp only [bind_eq_ok, pure_eq_ok] at run
  obtain ⟨ended, ending, rfl⟩ := run
  exact deleteLive_null (cacheDestroy_connection fits ending).1

theorem httpRespondListing_deleteLive {table : Nat}
    (fits : session.connection.Fits)
    (run : httpRespondListing session table = .ok next) :
    DeleteLive deleted next.connection := by
  have ends (start limit : Nat)
      (run : closeConnection { session with
        connection := setListing session.connection start limit } = .ok next) :
      DeleteLive deleted next.connection := by
    refine closeConnection_deleteLive ?_ run
    exact fits.answer rfl rfl rfl rfl (Or.inl rfl)
  unfold httpRespondListing at run
  rw [bind_eq_ok] at run
  obtain ⟨set, -, run⟩ := run
  dsimp only at run
  split at run
  · exact ends _ _ run
  rw [bind_eq_ok] at run
  obtain ⟨⟨limit, found⟩, -, run⟩ := run
  dsimp only at run
  split at run
  · exact ends _ _ run
  · obtain rfl := pure_eq_ok.mp run
    refine deleteLive_past ?_
    dsimp only [Session.queue]
    split <;> exact ⟨by simp, by simp⟩

theorem httpRespondContentbody_deleteLive {outcome : SendOutcome}
    (run : httpRespondContentbody session outcome = .ok next)
    (fits : session.connection.Fits)
    (past : session.connection.handler ≠ .handleHttpversion ∧
      session.connection.handler ≠ .handleHeaders) :
    DeleteLive deleted next.connection := by
  unfold httpRespondContentbody at run
  dsimp only at run
  split at run
  · exact finishRequest_deleteLive fits run
  split at run
  · obtain rfl := pure_eq_ok.mp run
    exact deleteLive_past past
  · exact closeConnection_deleteLive fits run
  split at run
  · exact closeConnection_deleteLive fits run
  split at run
  · refine finishRequest_deleteLive ?_ run
    exact fits.answer rfl rfl rfl rfl (Or.inl rfl)
  · obtain rfl := pure_eq_ok.mp run
    exact deleteLive_past past

theorem httpWriteHandle_deleteLive {outcome : SendOutcome}
    (fits : session.connection.Fits)
    (writes : session.connection.handler.writes = true)
    (run : httpWriteHandle session outcome = .ok next) :
    DeleteLive deleted next.connection := by
  have past : session.connection.handler ≠ .handleHttpversion ∧
      session.connection.handler ≠ .handleHeaders := by
    constructor <;>
    · intro isHandler
      rw [isHandler] at writes
      cases writes
  have sent : ({ session.connection with
      output := none
      reply := session.connection.reply ++
        session.connection.output.toList } : Connection).Fits :=
    fits.answer rfl rfl rfl rfl (Or.inl rfl)
  unfold httpWriteHandle runRespond at run
  dsimp only at run
  split at run
  · obtain rfl := pure_eq_ok.mp run
    refine deleteLive_past ?_
    unfold httpRespondExpires
    dsimp only
    split <;> exact ⟨by simp [Session.queue], by simp [Session.queue]⟩
  · obtain rfl := pure_eq_ok.mp run
    exact deleteLive_past ⟨by simp [httpRespondContentlength, Session.queue],
      by simp [httpRespondContentlength, Session.queue]⟩
  · obtain rfl := pure_eq_ok.mp run
    refine deleteLive_past ?_
    unfold httpRespondResponseend
    dsimp only
    split <;> exact ⟨by simp [Session.queue], by simp [Session.queue]⟩
  · exact httpRespondContentbody_deleteLive run sent past
  · exact finishRequest_deleteLive sent run
  · exact finishRequest_deleteLive sent run
  · obtain rfl := pure_eq_ok.mp run
    exact deleteLive_past ⟨by simp [httpRespondStats, Session.queue],
      by simp [httpRespondStats, Session.queue]⟩
  · unfold httpRespondListingentries at run
    simp only [bind_eq_ok, pure_eq_ok] at run
    obtain ⟨set, -, rfl⟩ := run
    exact deleteLive_past ⟨by simp [Session.queue], by simp [Session.queue]⟩
  · unfold httpRespondListingtotal at run
    simp only [bind_eq_ok, pure_eq_ok] at run
    obtain ⟨set, -, rfl⟩ := run
    exact deleteLive_past ⟨by simp [Session.queue], by simp [Session.queue]⟩
  · obtain rfl := pure_eq_ok.mp run
    exact deleteLive_past ⟨by simp [Session.queue], by simp [Session.queue]⟩
  · exact httpRespondListing_deleteLive sent run
  · exact closeConnection_deleteLive sent run
  · obtain rfl := pure_eq_ok.mp run
    exact deleteLive_past past

section Handle

variable {env : Env} {session next : Session env.kh} {db after : Db env.kh}
  {table : Nat}

theorem holdEntry_held {found : Option Nat}
    (run : holdEntry session table found = .ok next) :
    next.connection.method = session.connection.method ∧
      ∀ entry, next.connection.target = .entry entry → found = some entry := by
  unfold holdEntry at run
  dsimp only at run
  split at run
  · split at run
    · obtain rfl := pure_eq_ok.mp run
      exact ⟨rfl, fun other held => congrArg some (Held.entry.inj held)⟩
    · simp only [bind_eq_ok, pure_eq_ok, Prod.exists] at run
      obtain ⟨opened, target, -, rfl⟩ := run
      exact ⟨rfl, fun other held => congrArg some (Held.entry.inj held)⟩
  · obtain rfl := pure_eq_ok.mp run
    exact ⟨rfl, fun other held => Held.noConfusion held⟩

theorem dbEntryGetDelete_found {kh : KHash} {db after : Db kh} {table : Nat}
    {hashString : Bytes → UInt32} {key : Bytes} {entry : Nat}
    (run : dbEntryGetDelete hashString db table key =
      .ok (after, some entry)) :
    Holds db table entry ∧ after.entry.deleted = db.entry.deleted := by
  unfold dbEntryGetDelete at run
  simp only [bind_eq_ok, keyMap_eq_ok] at run
  obtain ⟨set, ⟨-, rfl⟩, run⟩ := run
  split at run
  · cases (Prod.mk.inj (pure_eq_ok.mp run)).2
  next other lookup =>
  split at run
  · cases (Prod.mk.inj (pure_eq_ok.mp run)).2
  · simp only [bind_eq_ok, pure_eq_ok, Prod.mk.injEq, Option.some.injEq] at run
    obtain ⟨taken, takes, rfl, rfl⟩ := run
    obtain rfl := Except.ok.inj takes
    exact ⟨⟨_, lookup⟩, rfl⟩

theorem httpKeyLookup_deleteLive {key : Bytes} {outcome : FlushOutcome}
    (live : ∀ entry, Holds session.db table entry →
      session.db.entry.deleted entry = false)
    (run : httpKeyLookup env session table key outcome = .ok next) :
    DeleteLive next.db.entry.deleted next.connection := by
  have different {looked : Session env.kh} {found : Option Nat}
      (run : holdEntry looked table found = .ok next)
      (other : looked.connection.method ≠ some .delete) :
      DeleteLive next.db.entry.deleted next.connection := by
    intro entry _ isDelete _
    rw [(holdEntry_held run).1] at isDelete
    exact absurd isDelete other
  unfold httpKeyLookup at run
  split at run
  · next method =>
      simp only [bind_eq_ok, Prod.exists] at run
      obtain ⟨looked, found, -, run⟩ := run
      exact different run (by simp [method])
  · next method =>
      simp only [bind_eq_ok, Prod.exists] at run
      obtain ⟨looked, found, -, run⟩ := run
      exact different run (by simp [method])
  · next method =>
      simp only [bind_eq_ok, Prod.exists] at run
      obtain ⟨looked, found, -, run⟩ := run
      exact different run (by simp [method])
  · simp only [bind_eq_ok, Prod.exists] at run
    obtain ⟨looked, found, lookup, run⟩ := run
    intro entry _ _ held
    obtain rfl := (holdEntry_held run).2 entry held
    obtain ⟨isHeld, same⟩ := dbEntryGetDelete_found lookup
    rw [(holdEntry_trimmed run).2.2 (by simp)]
    change looked.entry.deleted entry = false
    rw [same]
    exact live entry isHeld
  · obtain rfl := pure_eq_ok.mp run
    exact deleteLive_past ⟨by simp [Session.writeResponseAfterEol],
      by simp [Session.writeResponseAfterEol]⟩

theorem httpReadTableOnly_deleteLive {name : Bytes} {outcome : FlushOutcome}
    (null : session.connection.target = .null)
    (run : httpReadTableOnly env session name outcome = .ok next) :
    DeleteLive next.db.entry.deleted next.connection := by
  have holds (run : (if name = [] then
        pure { session with connection.level := .table }.statsAfterEol
      else holdTable env.hashString session name) = .ok next) :
      DeleteLive next.db.entry.deleted next.connection := by
    split at run
    · obtain rfl := pure_eq_ok.mp run
      exact deleteLive_null null
    · unfold holdTable at run
      simp only [bind_eq_ok, Prod.exists] at run
      obtain ⟨db, table, -, run⟩ := run
      obtain rfl := pure_eq_ok.mp run
      intro entry _ _ held
      cases table <;> cases held
  unfold httpReadTableOnly at run
  dsimp only at run
  split at run
  · exact holds run
  · exact holds run
  · exact holds run
  · split at run
    · simp only [bind_eq_ok, pure_eq_ok] at run
      obtain ⟨collected, -, rfl⟩ := run
      exact deleteLive_null null
    · obtain rfl := pure_eq_ok.mp run
      exact deleteLive_null null
  · obtain rfl := pure_eq_ok.mp run
    exact deleteLive_null null

theorem httpReadHeaderExtraction_deleteLive {header : Header}
    (before : DeleteLive session.db.entry.deleted session.connection)
    (run : httpReadHeaderExtraction env.hashString session header =
      .ok next) :
    DeleteLive next.db.entry.deleted next.connection := by
  have different {method : Method}
      (isMethod : session.connection.method = some method)
      (other : method ≠ .delete)
      (same : next.connection.method = session.connection.method) :
      DeleteLive next.db.entry.deleted next.connection := by
    intro entry _ isDelete _
    rw [same, isMethod] at isDelete
    exact absurd (Option.some.inj isDelete) other
  have bound {value : Option Digits} {store : Connection → Nat → Connection}
      (isGet : session.connection.method = some .get)
      (stores : ∀ number, (store session.connection number).method =
        session.connection.method)
      (run : (pure (readListingBound session value store) :
        Except Fault _) = .ok next) :
      DeleteLive next.db.entry.deleted next.connection := by
    obtain rfl := pure_eq_ok.mp run
    refine different isGet (by simp) ?_
    unfold readListingBound
    cases value with
    | none => rfl
    | some number => exact stores number.val
  unfold httpReadHeaderExtraction at run
  split at run
  · next isPut _ =>
      refine different isPut (by simp) ?_
      unfold readContentLength at run
      split at run
      · obtain rfl := pure_eq_ok.mp run
        rfl
      · simp only [bind_eq_ok, pure_eq_ok, Prod.exists] at run
        obtain ⟨written, target, -, rfl⟩ := run
        rfl
      · obtain rfl := pure_eq_ok.mp run
        rfl
  · next isPut _ =>
      obtain rfl := pure_eq_ok.mp run
      refine different isPut (by simp) ?_
      unfold readTtl
      split
      · rfl
      · split <;> rfl
      · rfl
  · next isGet _ => exact bound isGet (fun _ => rfl) run
  · next isGet _ => exact bound isGet (fun _ => rfl) run
  · next isPurge _ =>
      refine different isPurge (by simp) ?_
      split at run
      · unfold readDelete at run
        simp only [bind_eq_ok, Prod.exists] at run
        obtain ⟨looked, found, -, run⟩ := run
        split at run
        · obtain rfl := pure_eq_ok.mp run
          rfl
        · simp only [bind_eq_ok, pure_eq_ok, Prod.exists] at run
          obtain ⟨removed, tableDeleted, -, rfl⟩ := run
          rfl
      · obtain rfl := pure_eq_ok.mp run
        rfl
  · obtain rfl := pure_eq_ok.mp run
    exact before

theorem httpReadHeaders_deleteLive {deleted : Nat → Bool}
    (run : httpReadHeaders session = .ok next) :
    DeleteLive deleted next.connection := by
  have responds (responding : Session env.kh) (template : Template) :
      DeleteLive deleted (responding.writeResponse template).connection :=
    deleteLive_past ⟨by simp [Session.writeResponse],
      by simp [Session.writeResponse]⟩
  have stores : DeleteLive deleted
      (session.moveTo .handleRequestBody).connection :=
    deleteLive_past ⟨by simp [Session.moveTo], by simp [Session.moveTo]⟩
  unfold httpReadHeaders at run
  split at run
  · unfold routeKey at run
    split at run
    · split at run
      · obtain rfl := pure_eq_ok.mp run
        exact responds _ _
      · obtain rfl := pure_eq_ok.mp run
        exact stores
    · obtain rfl := pure_eq_ok.mp run
      exact stores
    · obtain rfl := pure_eq_ok.mp run
      exact deleteLive_past ⟨by simp, by simp⟩
    · obtain rfl := pure_eq_ok.mp run
      exact deleteLive_past ⟨by simp, by simp⟩
    · simp only [bind_eq_ok, pure_eq_ok, Prod.exists] at run
      obtain ⟨removed, tableDeleted, -, rfl⟩ := run
      exact responds _ _
    · obtain rfl := pure_eq_ok.mp run
      exact responds _ _
    · obtain rfl := pure_eq_ok.mp run
      exact responds _ _
  · unfold routeTable at run
    split at run
    · obtain rfl := pure_eq_ok.mp run
      exact deleteLive_past ⟨by simp, by simp⟩
    · obtain rfl := pure_eq_ok.mp run
      exact responds _ _
    · simp only [bind_eq_ok, pure_eq_ok] at run
      obtain ⟨removed, -, rfl⟩ := run
      exact responds _ _
    all_goals
      obtain rfl := pure_eq_ok.mp run
      exact responds _ _

theorem finishUpload_handler (session : Session env.kh) :
    (finishUpload session).connection.handler = session.connection.handler ∨
      (finishUpload session).connection.handler = .respondWriteonly := by
  unfold finishUpload
  dsimp only
  split
  · exact Or.inr rfl
  · exact Or.inl rfl

theorem httpCacheHandleRequestBody_deleteLive {deleted : Nat → Bool}
    {input : Bytes} {written : Int}
    (handler : session.connection.handler = .handleRequestBody)
    (run : httpCacheHandleRequestBody session input written = .ok next) :
    DeleteLive deleted next.connection := by
  have ends (ending : Session env.kh)
      (same : ending.connection.handler = session.connection.handler) :
      DeleteLive deleted (finishUpload ending).connection := by
    refine deleteLive_past ?_
    rcases finishUpload_handler ending with goesOn | done
    · rw [goesOn, same, handler]
      exact ⟨by simp, by simp⟩
    · rw [done]
      exact ⟨by simp, by simp⟩
  unfold httpCacheHandleRequestBody at run
  dsimp only at run
  split at run
  · obtain rfl := pure_eq_ok.mp run
    exact ends _ rfl
  split at run
  · split at run
    · obtain rfl := pure_eq_ok.mp run
      exact deleteLive_past ⟨by simp [Session.writeResponse],
        by simp [Session.writeResponse]⟩
    split at run
    · exact (throw_eq_ok.mp run).elim
    split at run
    · obtain rfl := pure_eq_ok.mp run
      exact ends _ rfl
    · obtain rfl := pure_eq_ok.mp run
      exact ends _ rfl
  · obtain rfl := pure_eq_ok.mp run
    exact ends _ rfl

theorem handle_deleteLive {action : Action}
    (fits : session.connection.Fits)
    (live : ∀ table entry, Holds session.db table entry →
      session.db.entry.deleted entry = false)
    (before : DeleteLive session.db.entry.deleted session.connection)
    (run : handle env session action = .ok next) :
    DeleteLive next.db.entry.deleted next.connection := by
  unfold handle at run
  split at run
  · exact closeConnection_deleteLive fits run
  · next word early =>
      obtain rfl := pure_eq_ok.mp run
      refine deleteLive_null ?_
      cases word <;> exact fits.early (Or.inl early)
  · next name early =>
      unfold httpReadTableSegment at run
      simp only [bind_eq_ok, Prod.exists] at run
      obtain ⟨db, table, -, run⟩ := run
      cases table with
      | none =>
          obtain rfl := pure_eq_ok.mp run
          exact deleteLive_null rfl
      | some table =>
          obtain rfl := pure_eq_ok.mp run
          exact deleteLive_past ⟨by simp, by simp⟩
  · next name outcome early =>
      exact httpReadTableOnly_deleteLive (fits.early (Or.inr early)) run
  · next key outcome handler =>
      split at run
      · next table held => exact httpKeyLookup_deleteLive (live table) run
      · obtain rfl := pure_eq_ok.mp run
        exact before
  · next early =>
      obtain rfl := pure_eq_ok.mp run
      exact fun entry _ isDelete held =>
        before entry (Or.inl early) isDelete held
  · exact httpReadHeaderExtraction_deleteLive before run
  · exact httpReadHeaders_deleteLive run
  · obtain rfl := pure_eq_ok.mp run
    exact deleteLive_past ⟨by simp [Session.writeResponse],
      by simp [Session.writeResponse]⟩
  · next input written handler =>
      exact httpCacheHandleRequestBody_deleteLive handler run
  · obtain rfl := pure_eq_ok.mp run
    exact deleteLive_past ⟨by simp [Session.moveTo], by simp [Session.moveTo]⟩
  · obtain rfl := pure_eq_ok.mp run
    exact deleteLive_past ⟨by simp [Session.moveTo], by simp [Session.moveTo]⟩
  · split at run
    · next writes => exact httpWriteHandle_deleteLive fits writes run
    · obtain rfl := pure_eq_ok.mp run
      exact before
  · obtain rfl := pure_eq_ok.mp run
    exact before

end Handle

end Deletes

end SimpleCache
