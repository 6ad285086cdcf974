import Mathlib.Algebra.BigOperators.Group.Finset.Basic
import Mathlib.Algebra.Order.BigOperators.Group.Finset
import SimpleCache.Checked
import SimpleCache.Registered

/-!
# The counters of the store

`db_size_bytes` is the total length of the registered entries, and `db_keys`
their number, in runs that stay clear of what makes them drift.
-/

namespace SimpleCache

variable {kh : KHash}

/-- The entries that are not deleted. -/
def liveEntries (count : Nat) (deleted : Nat → Bool) : Finset Nat :=
  (Finset.range count).filter fun entry => deleted entry = false

theorem mem_liveEntries {count : Nat} {deleted : Nat → Bool} {entry : Nat} :
    entry ∈ liveEntries count deleted ↔
      entry < count ∧ deleted entry = false := by
  simp [liveEntries]

def liveTotal (count : Nat) (deleted : Nat → Bool) (weight : Nat → Nat) :
    Nat :=
  ∑ entry ∈ liveEntries count deleted, weight entry

section Totals

variable {count : Nat} {deleted : Nat → Bool} {weight : Nat → Nat}

theorem liveTotal_new (amount : Nat) :
    liveTotal (count + 1) (Function.update deleted count false)
        (Function.update weight count amount) =
      liveTotal count deleted weight + amount := by
  have fresh : count ∉ liveEntries count deleted := by
    simp [mem_liveEntries]
  have entries : liveEntries (count + 1)
      (Function.update deleted count false) =
        insert count (liveEntries count deleted) := by
    ext entry
    rw [Finset.mem_insert, mem_liveEntries, mem_liveEntries]
    by_cases new : entry = count
    · simp [new]
    · rw [Function.update_of_ne new]
      have lt_iff : entry < count + 1 ↔ entry < count := by omega
      simp [new, lt_iff]
  unfold liveTotal
  rw [entries, Finset.sum_insert fresh, Function.update_self, Nat.add_comm]
  congr 1
  refine Finset.sum_congr rfl fun entry member => ?_
  rw [Function.update_of_ne]
  rintro rfl
  exact fresh member

theorem liveTotal_remove {entry : Nat} (allocated : entry < count)
    (live : deleted entry = false) :
    liveTotal count (Function.update deleted entry true) weight +
        weight entry = liveTotal count deleted weight := by
  have member : entry ∈ liveEntries count deleted :=
    mem_liveEntries.mpr ⟨allocated, live⟩
  have entries : liveEntries count (Function.update deleted entry true) =
      (liveEntries count deleted).erase entry := by
    ext other
    rw [Finset.mem_erase, mem_liveEntries, mem_liveEntries]
    by_cases same : other = entry
    · simp [same]
    · rw [Function.update_of_ne same]
      simp [same]
  unfold liveTotal
  rw [entries, Finset.sum_erase_add _ _ member]

theorem liveTotal_set {entry : Nat} (allocated : entry < count)
    (live : deleted entry = false) (amount : Nat) :
    liveTotal count deleted (Function.update weight entry amount) +
        weight entry = liveTotal count deleted weight + amount := by
  have member : entry ∈ liveEntries count deleted :=
    mem_liveEntries.mpr ⟨allocated, live⟩
  unfold liveTotal
  rw [← Finset.sum_erase_add _ _ member, ← Finset.sum_erase_add _ weight member,
    Function.update_self]
  have same : ∑ other ∈ (liveEntries count deleted).erase entry,
      Function.update weight entry amount other =
        ∑ other ∈ (liveEntries count deleted).erase entry, weight other := by
    refine Finset.sum_congr rfl fun other inRest => ?_
    rw [Function.update_of_ne (Finset.ne_of_mem_erase inRest)]
  rw [same]
  omega

end Totals

/-- The total length of the entries that are not deleted is below 2^64, and is
what the counter says.  An entry is stored, or has no length, from the moment
an upload enters it. -/
structure SizesCounted (size count loaded : Nat) (deleted writing : Nat → Bool)
    (dataLength : Nat → Nat) (block : Nat → Int) (pending : Pending) :
    Prop where
  total : size = liveTotal count deleted dataLength
  small : size < 18446744073709551616
  unstored : ∀ entry, loaded ≤ entry → block entry = -2 →
    dataLength entry = 0
  bounded : loaded ≤ count
  writing : ∀ entry, writing entry = true → loaded ≤ entry ∧ entry < count
  storing : ∀ entry, pending = .storing entry → loaded ≤ entry ∧ entry < count

def Work.SizesCounted (work : Work kh) : Prop :=
  SimpleCache.SizesCounted work.db.dbSizeBytes work.db.entry.count work.loaded
    work.db.entry.deleted work.db.entry.writing work.db.entry.dataLength
    work.db.entry.block work.pending

/-- No deletion of what is gone, and lengths that are announced in time, do not
shrink, and can be counted. -/
structure CountsSizes (allowed : Defect → Prop) : Prop where
  fresh : ¬allowed .staleDelete
  late : ¬allowed .lateLength
  shrinks : ¬allowed .shrink
  wraps : ¬allowed .sizeWrap

section Sizes

variable {hashString : Bytes → UInt32} {allowed : Defect → Prop}
  {before after : Work kh}

theorem Change.sizesCounted (counts : CountsSizes allowed)
    (change : Change hashString allowed before after)
    (consistent : before.Consistent) (counted : before.SizesCounted) :
    after.SizesCounted := by
  obtain ⟨total, small, unstored, bounded, writing, storing⟩ := counted
  have unset : ∀ (entry : Nat) (block : Int), block ≠ -2 →
      ∀ other, before.loaded ≤ other →
        Function.update before.db.entry.block entry block other = -2 →
          before.db.entry.dataLength other = 0 := by
    intro entry block stored other later isUnstored
    by_cases same : other = entry
    · rw [same, Function.update_self] at isUnstored
      exact absurd isUnstored stored
    · rw [Function.update_of_ne same] at isUnstored
      exact unstored other later isUnstored
  cases change with
  | remove table entry index keyed uncounted counted removing inTable present
      found fresh =>
      have live : before.db.entry.deleted entry = false := by
        rcases fresh with live | ⟨key, held⟩ | stale
        · exact live
        · exact consistent.keys.live_held held
        · exact absurd stale counts.fresh
      have entryLt := (consistent.keys.table_lt inTable).1
      have removed : liveTotal before.db.entry.count
          (Function.update before.db.entry.deleted entry true)
          before.db.entry.dataLength + before.db.entry.dataLength entry =
            liveTotal before.db.entry.count before.db.entry.deleted
              before.db.entry.dataLength := liveTotal_remove entryLt live
      have subtracts : u64 (before.db.dbSizeBytes + 18446744073709551616 -
          before.db.entry.dataLength entry) =
            liveTotal before.db.entry.count
              (Function.update before.db.entry.deleted entry true)
              before.db.entry.dataLength := by
        unfold u64
        omega
      refine ⟨subtracts, ?_, unstored, bounded, writing, ?_⟩
      · exact Nat.mod_lt _ (by decide)
      · exact fun other storing => Pending.noConfusion storing
  | enter table new first counted null live held empty =>
      have entered : liveTotal (before.db.entry.count + 1)
          (Function.update before.db.entry.deleted before.db.entry.count false)
          (Function.update before.db.entry.dataLength before.db.entry.count
            new.dataLength) = before.db.dbSizeBytes := by
        rw [liveTotal_new, empty.1, ← total]
        rfl
      refine ⟨entered.symm, small, ?_, Nat.le_succ_of_le bounded, ?_, ?_⟩
      · intro entry later isUnstored
        have isUnstored : Function.update before.db.entry.block
            before.db.entry.count new.block entry = -2 := isUnstored
        change Function.update before.db.entry.dataLength
          before.db.entry.count new.dataLength entry = 0
        by_cases isNew : entry = before.db.entry.count
        · rw [isNew, Function.update_self]
          exact empty.1
        · rw [Function.update_of_ne isNew] at isUnstored ⊢
          exact unstored entry later isUnstored
      · intro entry isWriting
        have isWriting : Function.update (Function.update
            before.db.entry.writing before.db.entry.count false)
              before.db.entry.count true entry = true := isWriting
        change before.loaded ≤ entry ∧ entry < before.db.entry.count + 1
        by_cases isNew : entry = before.db.entry.count
        · rw [isNew]
          exact ⟨bounded, Nat.lt_succ_self _⟩
        · rw [Function.update_of_ne isNew, Function.update_of_ne isNew]
            at isWriting
          exact ⟨(writing entry isWriting).1,
            Nat.lt_succ_of_lt (writing entry isWriting).2⟩
      · exact fun entry storing => Pending.noConfusion storing
  | load table new it held live unloaded placed unused fits room sizes =>
      have entered : u64 (before.db.dbSizeBytes + new.dataLength) =
          liveTotal (before.db.entry.count + 1)
            (Function.update before.db.entry.deleted before.db.entry.count
              false)
            (Function.update before.db.entry.dataLength before.db.entry.count
              new.dataLength) := by
        rw [liveTotal_new, ← total]
        exact Nat.mod_eq_of_lt (sizes.resolve_right counts.wraps)
      have none_ : ∀ entry, before.loaded ≤ entry →
          ¬entry < before.db.entry.count := by
        intro entry later earlier
        omega
      refine ⟨entered, Nat.mod_lt _ (by decide), ?_, le_rfl, ?_, ?_⟩
      · intro entry later isUnstored
        have later : before.db.entry.count + 1 ≤ entry := later
        have isNew : entry ≠ before.db.entry.count := by omega
        have isUnstored : Function.update before.db.entry.block
            before.db.entry.count new.block entry = -2 := isUnstored
        change Function.update before.db.entry.dataLength
          before.db.entry.count new.dataLength entry = 0
        rw [Function.update_of_ne isNew] at isUnstored ⊢
        exact unstored entry (by omega) isUnstored
      · intro entry isWriting
        have isWriting : Function.update before.db.entry.writing
            before.db.entry.count false entry = true := isWriting
        by_cases isNew : entry = before.db.entry.count
        · rw [isNew, Function.update_self] at isWriting
          exact absurd isWriting Bool.false_ne_true
        · rw [Function.update_of_ne isNew] at isWriting
          obtain ⟨later, earlier⟩ := writing entry isWriting
          exact absurd earlier (none_ entry later)
      · intro entry isStoring
        obtain ⟨later, earlier⟩ := storing entry isStoring
        exact absurd earlier (none_ entry later)
  | setLength entry length isStoring large fits live grows sizes =>
      obtain ⟨later, allocated⟩ := storing entry isStoring
      have live := live.resolve_right counts.late
      have grows := grows.resolve_right counts.shrinks
      have sizes := sizes.resolve_right counts.wraps
      have sets : liveTotal before.db.entry.count before.db.entry.deleted
          (Function.update before.db.entry.dataLength entry length) +
            before.db.entry.dataLength entry =
          liveTotal before.db.entry.count before.db.entry.deleted
            before.db.entry.dataLength + length :=
        liveTotal_set allocated live length
      have isUnstored := unstored entry later
      have adds : u64 (before.db.dbSizeBytes +
          if before.db.entry.block entry = -2 then length
          else u32 (length + 4294967296 -
            before.db.entry.dataLength entry)) =
          liveTotal before.db.entry.count before.db.entry.deleted
            (Function.update before.db.entry.dataLength entry length) := by
        unfold u64 u32
        split
        · next isMark =>
            have noLength := isUnstored isMark
            omega
        · omega
      refine ⟨adds, Nat.mod_lt _ (by decide), ?_, bounded, writing, storing⟩
      intro other otherLater otherUnstored
      have otherUnstored : Function.update before.db.entry.block entry
          (if before.db.entry.block entry = -2 then -1
            else before.db.entry.block entry) other = -2 := otherUnstored
      change Function.update before.db.entry.dataLength entry length other = 0
      by_cases same : other = entry
      · subst same
        rw [Function.update_self] at otherUnstored
        split at otherUnstored
        · omega
        · exact absurd otherUnstored ‹_›
      · rw [Function.update_of_ne same] at otherUnstored ⊢
        exact unstored other otherLater otherUnstored
  | acquireBlock entry freeBlocks blocksExist blocksFree blockfile block
      isStoring unowned isUnstored =>
      have isUnstored := isUnstored.resolve_right counts.shrinks
      refine ⟨total, small, ?_, bounded, writing, storing⟩
      intro other later otherUnstored
      by_cases same : other = entry
      · exact unstored other later (same ▸ isUnstored)
      · have otherUnstored : Function.update before.db.entry.block entry block
            other = -2 := otherUnstored
        rw [Function.update_of_ne same] at otherUnstored
        exact unstored other later otherUnstored
  | freeBlock entry | releaseBlock entry =>
      exact ⟨total, small, unset entry (-1) (by decide), bounded, writing,
        storing⟩
  | noBlock entry =>
      exact ⟨total, small, unset entry (-1) (by decide), bounded, writing,
        storing⟩
  | complete entry | abandon entry =>
      refine ⟨total, small, unstored, bounded, ?_, storing⟩
      intro other isWriting
      have isWriting : Function.update before.db.entry.writing entry false
          other = true := isWriting
      by_cases same : other = entry
      · rw [same, Function.update_self] at isWriting
        exact absurd isWriting Bool.false_ne_true
      · rw [Function.update_of_ne same] at isWriting
        exact writing other isWriting
  | beginStoring entry idle held isWriting =>
      refine ⟨total, small, unstored, bounded, writing, ?_⟩
      intro other isStoring
      obtain rfl := Pending.storing.inj isStoring
      obtain ⟨written, isTarget, entryWriting⟩ := consistent.holders.writes
        (before.isWriting_current.trans isWriting)
      have same : written = entry := by
        rw [before.target_current, held] at isTarget
        exact (Held.entry.inj isTarget).symm
      exact writing entry (same ▸ entryWriting)
  | beginRemoval | keepTable | destroy | endStoring =>
      exact ⟨total, small, unstored, bounded, writing,
        fun entry storing => Pending.noConfusion storing⟩
  | _ => exact ⟨total, small, unstored, bounded, writing, storing⟩

end Sizes

/-- How many removed keys are still counted. -/
def Pending.uncounted : Pending → Nat
  | .removing _ _ uncounted => uncounted
  | _ => 0

/-- The number of entries that are not deleted is below 2^64, and is what the
counter says between two removals. -/
structure KeysCounted (keys count : Nat) (deleted : Nat → Bool)
    (pending : Pending) : Prop where
  total : keys = liveTotal count deleted (fun _ => 1) + pending.uncounted
  small : keys < 18446744073709551616

def Work.KeysCounted (work : Work kh) : Prop :=
  SimpleCache.KeysCounted work.db.dbKeys work.db.entry.count
    work.db.entry.deleted work.pending

/-- No deletion of what is gone, or of a whole table with keys, and keys that
can be counted. -/
structure CountsKeys (allowed : Defect → Prop) : Prop where
  fresh : ¬allowed .staleDelete
  drifts : ¬allowed .keyDrift
  wraps : ¬allowed .keyWrap

section Keys

variable {hashString : Bytes → UInt32} {allowed : Defect → Prop}
  {before after : Work kh}

theorem liveTotal_newKey (count : Nat) (deleted : Nat → Bool) :
    liveTotal (count + 1) (Function.update deleted count false) (fun _ => 1) =
      liveTotal count deleted (fun _ => 1) + 1 := by
  have entered : liveTotal (count + 1) (Function.update deleted count false)
      (Function.update (fun _ => 1) count 1) =
        liveTotal count deleted (fun _ => 1) + 1 := liveTotal_new 1
  rwa [Function.update_eq_self] at entered

theorem Change.keysCounted (counts : CountsKeys allowed)
    (change : Change hashString allowed before after)
    (consistent : before.Consistent) (counted : before.KeysCounted) :
    after.KeysCounted := by
  obtain ⟨total, small⟩ := counted
  cases change with
  | remove table entry index keyed uncounted counted removing inTable present
      found fresh =>
      have live : before.db.entry.deleted entry = false := by
        rcases fresh with live | ⟨key, held⟩ | stale
        · exact live
        · exact consistent.keys.live_held held
        · exact absurd stale counts.fresh
      have entryLt := (consistent.keys.table_lt inTable).1
      have removed : liveTotal before.db.entry.count
          (Function.update before.db.entry.deleted entry true) (fun _ => 1) +
            1 = liveTotal before.db.entry.count before.db.entry.deleted
              (fun _ => 1) := liveTotal_remove entryLt live
      rw [removing] at total
      have total : before.db.dbKeys = liveTotal before.db.entry.count
        before.db.entry.deleted (fun _ => 1) + uncounted := total
      cases counted with
      | true =>
          have subtracts : u64 (before.db.dbKeys + 18446744073709551615) =
              liveTotal before.db.entry.count
                (Function.update before.db.entry.deleted entry true)
                (fun _ => 1) + uncounted := by
            unfold u64
            omega
          have counter : ((before.db.remove table entry index).countOff
              true).dbKeys = u64 (before.db.dbKeys + 18446744073709551615) := by
            rw [countOff_dbKeys, cond_true, remove_dbKeys]
          have below : u64 (before.db.dbKeys + 18446744073709551615) <
              18446744073709551616 := Nat.mod_lt _ (by decide)
          exact ⟨counter.trans subtracts, counter.trans_lt below⟩
      | false =>
          have keeps : before.db.dbKeys = liveTotal before.db.entry.count
              (Function.update before.db.entry.deleted entry true)
              (fun _ => 1) + (uncounted + 1) := by
            omega
          exact ⟨keeps, small⟩
  | enter table new first counted null live held empty keyed room =>
      have entered := liveTotal_newKey before.db.entry.count
        before.db.entry.deleted
      rcases keyed with ⟨idle, rfl, -⟩ | ⟨removing, rfl, -⟩
      · rw [idle] at total
        have total : before.db.dbKeys = liveTotal before.db.entry.count
          before.db.entry.deleted (fun _ => 1) := total
        have fits := (room rfl).resolve_right counts.wraps
        have adds : u64 (before.db.dbKeys + 1) =
            liveTotal (before.db.entry.count + 1)
              (Function.update before.db.entry.deleted before.db.entry.count
                false) (fun _ => 1) := by
          rw [entered, ← total]
          exact Nat.mod_eq_of_lt fits
        exact ⟨adds, Nat.mod_lt _ (by decide)⟩
      · rw [removing] at total
        have total : before.db.dbKeys = liveTotal before.db.entry.count
          before.db.entry.deleted (fun _ => 1) + 1 := total
        exact ⟨total.trans entered.symm, small⟩
  | load table new it held live unloaded placed unused fits room =>
      have entered := liveTotal_newKey before.db.entry.count
        before.db.entry.deleted
      have fits := room.resolve_right counts.wraps
      have adds : u64 (before.db.dbKeys + 1) =
          liveTotal (before.db.entry.count + 1)
            (Function.update before.db.entry.deleted before.db.entry.count
              false) (fun _ => 1) + before.pending.uncounted := by
        rw [entered]
        unfold u64
        omega
      exact ⟨adds, Nat.mod_lt _ (by decide)⟩
  | beginRemoval table idle =>
      rw [idle] at total
      exact ⟨total, small⟩
  | keepTable table removing =>
      rw [removing] at total
      exact ⟨total, small⟩
  | destroy table keyed uncounted removing isDeleted removed counted =>
      obtain rfl := counted.resolve_right counts.drifts
      rw [removing] at total
      exact ⟨total, small⟩
  | beginStoring entry idle =>
      rw [idle] at total
      exact ⟨total, small⟩
  | endStoring entry fd position storing =>
      rw [storing] at total
      exact ⟨total, small⟩
  | _ => exact ⟨total, small⟩

end Keys

theorem carries_sizesCounted (env : Env) {allowed : Defect → Prop}
    (counts : CountsSizes allowed) :
    Carries env allowed Work.SizesCounted where
  change := fun consistent change counted =>
    change.sizesCounted counts consistent counted
  alike := by
    intro first second alike counted
    unfold Work.SizesCounted at counted
    rw [alike.db, alike.loaded, alike.pending] at counted
    exact counted
  outside := by
    intro server after event loaded outside sound run counted
    obtain ⟨⟨currentTime, currentUsec, flush, indexSave, same⟩, -, -⟩ :=
      serverStep_outside outside sound run
    have entry : after.db.entry = server.db.entry := by rw [same]; rfl
    have size : after.db.dbSizeBytes = server.db.dbSizeBytes := by
      rw [same]; rfl
    change SimpleCache.SizesCounted after.db.dbSizeBytes after.db.entry.count
      loaded after.db.entry.deleted after.db.entry.writing
      after.db.entry.dataLength after.db.entry.block .idle
    rw [entry, size]
    exact counted

theorem carries_keysCounted (env : Env) {allowed : Defect → Prop}
    (counts : CountsKeys allowed) :
    Carries env allowed Work.KeysCounted where
  change := fun consistent change counted =>
    change.keysCounted counts consistent counted
  alike := by
    intro first second alike counted
    unfold Work.KeysCounted at counted
    rw [alike.db, alike.pending] at counted
    exact counted
  outside := by
    intro server after event loaded outside sound run counted
    obtain ⟨⟨currentTime, currentUsec, flush, indexSave, same⟩, -, -⟩ :=
      serverStep_outside outside sound run
    have entry : after.db.entry = server.db.entry := by rw [same]; rfl
    have keys : after.db.dbKeys = server.db.dbKeys := by rw [same]; rfl
    change SimpleCache.KeysCounted after.db.dbKeys after.db.entry.count
      after.db.entry.deleted .idle
    rw [entry, keys]
    exact counted

theorem sizesCounted_blank (disk : Disk) (freeBlocks : List Nat)
    (blocksExist blocksFree : Nat) (blockfile : ByteFile) :
    (blankWork disk freeBlocks blocksExist blocksFree blockfile :
      Work kh).SizesCounted where
  total := rfl
  small := (by decide : 0 < 18446744073709551616)
  unstored := fun _ _ _ => rfl
  bounded := le_rfl
  writing := fun _ writing => absurd writing Bool.false_ne_true
  storing := fun _ storing => Pending.noConfusion storing

theorem keysCounted_blank (disk : Disk) (freeBlocks : List Nat)
    (blocksExist blocksFree : Nat) (blockfile : ByteFile) :
    (blankWork disk freeBlocks blocksExist blocksFree blockfile :
      Work kh).KeysCounted where
  total := rfl
  small := (by decide : 0 < 18446744073709551616)

/-- The entries that are not deleted are those in the key maps of registered
tables. -/
theorem mem_liveEntries_registered {server : Server kh} {loaded : Nat}
    (sound : server.Sound)
    (listed : (Work.atRest server 0 loaded).EntriesRegistered)
    (kept : (Work.atRest server 0 loaded).TablesKept) {entry : Nat} :
    entry ∈ liveEntries server.db.entry.count server.db.entry.deleted ↔
      Registered server.db entry := by
  have keys := sound.consistent.keys
  rw [mem_liveEntries]
  constructor
  · rintro ⟨allocated, live⟩
    obtain ⟨table, inTable, present, held⟩ := listed entry allocated live
    have unreleased : server.db.table.freed table = false := by
      cases isFreed : server.db.table.freed table with
      | false => rfl
      | true =>
          have destroyed := kept.entry inTable isFreed
          exact absurd (present.symm.trans destroyed) Bool.false_ne_true
    exact ⟨_, table, kept.registered (keys.table_lt inTable).2 present
      unreleased, _, held⟩
  · rintro ⟨slot, table, -, key, held⟩
    exact ⟨(keys.table_lt (keys.table_held held)).1, keys.live_held held⟩

/-- `db_size_bytes` is the total length of the registered entries. -/
def SizesExact (db : Db kh) : Prop :=
  ∃ entries : Finset Nat, (∀ entry, entry ∈ entries ↔ Registered db entry) ∧
    db.dbSizeBytes = ∑ entry ∈ entries, db.entry.dataLength entry

/-- What a step needs to keep the size of the store exact. -/
structure KeepsSizes (env : Env) (server : Server env.kh) (event : Event) :
    Prop where
  deletes : DeletesLive server event
  announces : AnnouncesLive server event
  grows : AnnouncesMore server event
  sizes : AnnouncesCountable server event
  releases : ReleasesOwn env server event

/-- Runs with every defect but those that make the size of the store drift. -/
abbrev Sized (defect : Defect) : Prop :=
  defect ∉ [Defect.staleDelete, .keyCollision, .clobber, .lateLength, .shrink,
    .sizeWrap]

theorem sized_of_anyRun {defect : Defect} (anyRun : defect.ofAnyRun) :
    Sized defect := by
  cases defect <;> first | exact anyRun.elim | decide

theorem eventClear_of_keepsSizes {env : Env} {server : Server env.kh}
    {event : Event} (keeps : KeepsSizes env server event) :
    EventClear env Sized server event :=
  eventClear_of_avoids sized_of_anyRun {
    deletes := Or.inr keeps.deletes
    announces := Or.inr keeps.announces
    grows := Or.inr keeps.grows
    sizes := Or.inr keeps.sizes
    keys := Or.inl (by decide)
    empties := Or.inl (by decide)
    releases := Or.inr keeps.releases
    names := Or.inl (by decide) }

/-- In every run from an index without repeated keys in which deletions find
their entries, lengths are announced in time, do not shrink and can be
counted, and no other table goes with a deleted one, the size is exact. -/
theorem sizesExact_of_reachable (env : Env) {server : Server env.kh}
    (reachable : (serverMachine env
      (IndexClear env.kh env.hashString Sized)).Reachable (KeepsSizes env)
        server) : SizesExact server.db := by
  have orderly : Orderly Sized := ⟨by decide, by decide⟩
  have counts : CountsSizes Sized :=
    ⟨by decide, by decide, by decide, by decide⟩
  have carries := ((carries_listing env orderly).and
    (carries_tablesKept env (show ¬Sized .clobber by decide))).and
      (carries_sizesCounted env counts)
  obtain ⟨sound, loaded, ⟨listing, kept⟩, counted⟩ := carries.runs (by decide)
    (fun disk freeBlocks blocksExist blocksFree blockfile =>
      ⟨⟨listing_blank disk freeBlocks blocksExist blocksFree blockfile,
        tablesKept_blank disk freeBlocks blocksExist blocksFree blockfile⟩,
        sizesCounted_blank disk freeBlocks blocksExist blocksFree blockfile⟩)
    (fun _ _ => eventClear_of_keepsSizes) reachable
  exact ⟨liveEntries server.db.entry.count server.db.entry.deleted,
    fun _ => mem_liveEntries_registered sound listing.1 kept, counted.total⟩

/-- The tests of a step that keeps the size exact. -/
def keepsSizes (env : Env) (server : Server env.kh) (event : Event) : Bool :=
  deletesLive server event && announcesWell server event &&
    releasesOwn env server event

theorem keepsSizes_sound {env : Env} {server : Server env.kh} {event : Event}
    (passes : keepsSizes env server event = true) :
    KeepsSizes env server event := by
  unfold keepsSizes at passes
  simp only [Bool.and_eq_true] at passes
  obtain ⟨⟨deletes, announces⟩, releases⟩ := passes
  have announced {entry length : Nat}
      (isLength : Announces server event entry length) :=
    of_decide_eq_true (testsAnnounced_sound announces isLength)
  exact {
    deletes := deletesLive_sound deletes
    announces := fun _ _ isLength => (announced isLength).1
    grows := fun _ _ isLength => (announced isLength).2.1
    sizes := fun _ _ isLength => (announced isLength).2.2
    releases := releasesOwn_sound releases }

/-- Keys are replaced and deleted, and an upload corrects its length. -/
theorem sizesExact_of_reachable_replace :
    ∃ server : Server listHash, server.db.dbSizeBytes = 10002 ∧
      server.db.entry.deleted 1 = true ∧ server.db.entry.deleted 3 = true ∧
      (server.connections 1).target = .entry 3 ∧
      server.db.entry.writing 6 = true ∧ SizesExact server.db := by
  have ends : endsWithin twoTablesDisk (keepsSizes listEnv)
      (replaceUnderReader ++ resolves 0 .put 98 107 ++
        [.request 0 (.header (.contentLength (some 100))),
          .request 0 (.header (.contentLength (some ⟨5000, by decide⟩)))])
      (fun server => decide (server.db.dbSizeBytes = 10002 ∧
        server.db.entry.deleted 1 = true ∧ server.db.entry.deleted 3 = true ∧
        (server.connections 1).target = .entry 3 ∧
        server.db.entry.writing 6 = true)) = true := by
    decide +kernel
  obtain ⟨server, reachable, final⟩ := reachable_of_endsWithin
    (indexClear_twoTables (show Sized .tableCollision by decide))
    (fun _ _ => keepsSizes_sound) ends
  obtain ⟨size, gone, replaced, reads, isWriting⟩ := of_decide_eq_true final
  exact ⟨server, size, gone, replaced, reads, isWriting,
    sizesExact_of_reachable listEnv reachable⟩

/-- A key is deleted between the URL of its upload and the length. -/
def deleteBeforeLength : List Event :=
  [.accept, .accept] ++ resolves 0 .put 97 107 ++ resolves 1 .delete 97 107 ++
    [.request 1 .endOfHeaders,
      .request 0 (.header (.contentLength (some ⟨1, by decide⟩)))]

/-- No table is registered. -/
theorem not_registered_of_empty {db : Db kh} (empty : kh.size db.tables = 0)
    (entry : Nat) : ¬Registered db entry := by
  rintro ⟨slot, table, registered, -⟩
  rw [BucketMap.size_eq_zero_iff.mp empty slot] at registered
  simp at registered

/-- The length of the upload is counted, and nothing is registered. -/
theorem sizesExact_lost :
    ∃ server : Server listHash,
      (serverMachine listEnv DistinctIndex).Reachable Machine.anyStep server ∧
        ¬SizesExact server.db := by
  have ends : endsWith deleteBeforeLength (fun server =>
      decide (listHash.size server.db.tables = 0 ∧
        server.db.dbSizeBytes = 1)) = true := by
    decide +kernel
  have empty : DistinctIndex emptyDisk := by
    intro text saved
    simp [emptyDisk] at saved
  obtain ⟨server, reachable, final⟩ :=
    reachable_of_endsWith empty (fun _ _ _ => trivial) ends
  obtain ⟨noTable, size⟩ := of_decide_eq_true final
  refine ⟨server, reachable, ?_⟩
  rintro ⟨entries, members, total⟩
  have none_ : entries = ∅ := Finset.eq_empty_of_forall_notMem fun entry member =>
    not_registered_of_empty noTable entry ((members entry).mp member)
  rw [none_, size] at total
  simp at total

/-- `db_keys` is the number of registered entries. -/
def KeysExact (db : Db kh) : Prop :=
  ∃ entries : Finset Nat, (∀ entry, entry ∈ entries ↔ Registered db entry) ∧
    db.dbKeys = entries.card

/-- What a step needs to keep the number of keys exact. -/
structure KeepsKeys (env : Env) (server : Server env.kh) (event : Event) :
    Prop where
  deletes : DeletesLive server event
  empties : EmptiesNothing server event
  keys : UploadsCountable server event
  releases : ReleasesOwn env server event

/-- Runs with every defect but those that make the number of keys drift. -/
abbrev Numbered (defect : Defect) : Prop :=
  defect ∉ [Defect.staleDelete, .keyCollision, .clobber, .keyDrift, .keyWrap]

theorem numbered_of_anyRun {defect : Defect} (anyRun : defect.ofAnyRun) :
    Numbered defect := by
  cases defect <;> first | exact anyRun.elim | decide

theorem eventClear_of_keepsKeys {env : Env} {server : Server env.kh}
    {event : Event} (keeps : KeepsKeys env server event) :
    EventClear env Numbered server event :=
  eventClear_of_avoids numbered_of_anyRun {
    deletes := Or.inr keeps.deletes
    announces := Or.inl (by decide)
    grows := Or.inl (by decide)
    sizes := Or.inl (by decide)
    keys := Or.inr keeps.keys
    empties := Or.inr keeps.empties
    releases := Or.inr keeps.releases
    names := Or.inl (by decide) }

/-- In every run from an index without repeated keys in which deletions of keys
find their entries, deletions of tables find no key, keys can be counted, and
no other table goes with a deleted one, the number of keys is exact. -/
theorem keysExact_of_reachable (env : Env) {server : Server env.kh}
    (reachable : (serverMachine env
      (IndexClear env.kh env.hashString Numbered)).Reachable (KeepsKeys env)
        server) : KeysExact server.db := by
  have orderly : Orderly Numbered := ⟨by decide, by decide⟩
  have counts : CountsKeys Numbered := ⟨by decide, by decide, by decide⟩
  have carries := ((carries_listing env orderly).and
    (carries_tablesKept env (show ¬Numbered .clobber by decide))).and
      (carries_keysCounted env counts)
  obtain ⟨sound, loaded, ⟨listing, kept⟩, counted⟩ := carries.runs (by decide)
    (fun disk freeBlocks blocksExist blocksFree blockfile =>
      ⟨⟨listing_blank disk freeBlocks blocksExist blocksFree blockfile,
        tablesKept_blank disk freeBlocks blocksExist blocksFree blockfile⟩,
        keysCounted_blank disk freeBlocks blocksExist blocksFree blockfile⟩)
    (fun _ _ => eventClear_of_keepsKeys) reachable
  refine ⟨liveEntries server.db.entry.count server.db.entry.deleted,
    fun _ => mem_liveEntries_registered sound listing.1 kept, ?_⟩
  rw [Finset.card_eq_sum_ones]
  exact counted.total

/-- The tests of a step that keeps the number of keys exact. -/
def keepsKeys (env : Env) (server : Server env.kh) (event : Event) : Bool :=
  deletesLive server event && emptiesNothing server event &&
    (keysCountable server event && releasesOwn env server event)

theorem keepsKeys_sound {env : Env} {server : Server env.kh} {event : Event}
    (passes : keepsKeys env server event = true) :
    KeepsKeys env server event := by
  unfold keepsKeys at passes
  simp only [Bool.and_eq_true] at passes
  obtain ⟨⟨deletes, empties⟩, keys, releases⟩ := passes
  exact {
    deletes := deletesLive_sound deletes
    empties := emptiesNothing_sound empties
    keys := keysCountable_sound keys
    releases := releasesOwn_sound releases }

/-- Keys are entered, replaced and deleted. -/
theorem keysExact_of_reachable_replace :
    ∃ server : Server listHash, server.db.dbKeys = 3 ∧
      server.db.entry.count = 6 ∧ server.db.entry.deleted 1 = true ∧
      server.db.entry.deleted 3 = true ∧ KeysExact server.db := by
  have ends : endsWithin twoTablesDisk (keepsKeys listEnv) replaceUnderReader
      (fun server => decide (server.db.dbKeys = 3 ∧
        server.db.entry.count = 6 ∧ server.db.entry.deleted 1 = true ∧
        server.db.entry.deleted 3 = true)) = true := by
    decide +kernel
  obtain ⟨server, reachable, final⟩ := reachable_of_endsWithin
    (indexClear_twoTables (show Numbered .tableCollision by decide))
    (fun _ _ => keepsKeys_sound) ends
  obtain ⟨keys, count, gone, replaced⟩ := of_decide_eq_true final
  exact ⟨server, keys, count, gone, replaced,
    keysExact_of_reachable listEnv reachable⟩

/-- A key is uploaded, and its table deleted. -/
def deleteTableWithKey : List Event :=
  .accept :: uploads 0 97 107 120 ++
    [.request 0 (.requestMethod (.known .delete)),
      .request 0 (.tableOnly (letter 97) noFlush),
      .request 0 .endOfHeaders,
      .request 0 (.writeReady (.sent 100))]

/-- The key is still counted, and nothing is registered. -/
theorem keysExact_lost :
    ∃ server : Server listHash,
      (serverMachine listEnv DistinctIndex).Reachable Machine.anyStep server ∧
        ¬KeysExact server.db := by
  have ends : endsWith deleteTableWithKey (fun server =>
      decide (listHash.size server.db.tables = 0 ∧
        server.db.dbKeys = 1)) = true := by
    decide +kernel
  have empty : DistinctIndex emptyDisk := by
    intro text saved
    simp [emptyDisk] at saved
  obtain ⟨server, reachable, final⟩ :=
    reachable_of_endsWith empty (fun _ _ _ => trivial) ends
  obtain ⟨noTable, keys⟩ := of_decide_eq_true final
  refine ⟨server, reachable, ?_⟩
  rintro ⟨entries, members, total⟩
  have none_ : entries = ∅ := Finset.eq_empty_of_forall_notMem fun entry member =>
    not_registered_of_empty noTable entry ((members entry).mp member)
  rw [none_, keys] at total
  simp at total

end SimpleCache
