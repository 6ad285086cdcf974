import SimpleCache.Abort
import SimpleCache.Checked
import SimpleCache.Matching

/-!
# Deleting a table that is in use

`db_table_handle_delete` walks over the buckets of the table.  Every entry it
finds is removed, and released at once when nobody holds it; then
`db_entry_cleanup` looks at the entry again.
-/

namespace SimpleCache

variable {kh : KHash} {db middle : Db kh} {table : Nat}

/-- One pass of the loop reads an entry that was freed: where it tests
`deleted`, or in `db_entry_cleanup`. -/
def passReadsFreed (table : Nat) (db : Db kh) (ke : Nat) : Bool :=
  match kh.value (db.table.cacheHashSet table) ke with
  | none => false
  | some entry =>
      db.entry.freed entry || (!db.entry.deleted entry &&
        match dbEntryHandleSoftdelete db entry ke with
        | .ok removed => removed.entry.freed entry
        | .error _ => false)

/-- Some pass of the loop in `db_table_handle_delete` reads a freed entry. -/
def ReadsFreed (db : Db kh) (table : Nat) : Prop :=
  ∃ ke < kh.endIndex (db.table.cacheHashSet table), ∃ middle,
    (List.range ke).foldlM (deleteBucket table) (db.doom table) = .ok middle ∧
      passReadsFreed table middle ke = true

/-- The table's key map holds what belongs to the table: live entries, each
under its hash. -/
structure Populated (db : Db kh) (table : Nat) : Prop where
  present : db.table.destroyed table = false
  inTable : ∀ {key entry},
    kh.lookup (db.table.cacheHashSet table) key = some entry →
      db.entry.table entry = some table
  hash : ∀ {key entry},
    kh.lookup (db.table.cacheHashSet table) key = some entry →
      db.entry.hash entry = key
  live : ∀ {key entry},
    kh.lookup (db.table.cacheHashSet table) key = some entry →
      db.entry.deleted entry = false ∧ db.entry.freed entry = false

/-- In every state that the server comes to, the tables that are not deleted
are populated. -/
theorem Work.Consistent.populated {work : Work kh} (consistent : work.Consistent)
    (present : work.db.table.destroyed table = false) :
    Populated work.db table where
  present := present
  inTable := consistent.keys.table_held
  hash := consistent.keys.hash_held
  live := by
    intro key entry held
    have undeleted := consistent.keys.live_held held
    refine ⟨undeleted, ?_⟩
    cases freed : work.db.entry.freed entry with
    | false => rfl
    | true =>
        rw [consistent.keys.freed_deleted freed] at undeleted
        cases undeleted

/-- The block is on the free list, or behind the blocks that exist. -/
def Vacant (db : Db kh) (block : Nat) : Prop :=
  block ∈ db.freeBlocks ∨ db.blocksExist ≤ block

/-- The entry has a block, and nobody holds it. -/
def FreesBlock (db : Db kh) (entry block : Nat) : Prop :=
  db.entry.refs entry = 0 ∧ isSingleFile db entry = false ∧
    db.entry.block entry = block

/-- The numbers of blocks are within their fields. -/
def BlocksFit (db : Db kh) (table : Nat) : Prop :=
  db.blocksExist < 4294967296 ∧
    ∀ entry, Holds db table entry → db.entry.block entry < 2147483648

/-- The entries that nobody holds are freed with their blocks, the others are
marked and keep them, and the files of the long ones are gone, with no
other. -/
structure Emptied (db after : Db kh) (table : Nat) : Prop where
  freed : ∀ entry, after.entry.freed entry = true ↔
    db.entry.freed entry = true ∨
      Holds db table entry ∧ db.entry.refs entry = 0
  deleted : ∀ entry, after.entry.deleted entry = true ↔
    db.entry.deleted entry = true ∨ Holds db table entry
  block : ∀ entry, ¬(Holds db table entry ∧ db.entry.refs entry = 0) →
    after.entry.block entry = db.entry.block entry
  space : BlocksFit db table → ∀ block, Vacant after block ↔
    Vacant db block ∨
      ∃ entry, Holds db table entry ∧ FreesBlock db entry block
  removed : ∀ entry, Holds db table entry → isSingleFile db entry = true →
    after.disk.paths (keyPathIn db table entry) = none
  remaining : ∀ path, (∀ entry, Holds db table entry →
      isSingleFile db entry = true → path ≠ keyPathIn db table entry) →
    after.disk.paths path = db.disk.paths path

/-- The deletion succeeds, does all this, and reads no freed entry. -/
def DeletesCleanly (db : Db kh) (table : Nat) : Prop :=
  (∃ after, dbTableHandleDelete db table = .ok after ∧
    Emptied db after table) ∧ ¬ReadsFreed db table

/-- The loop has come to an entry. -/
def Passed (db : Db kh) (table count entry : Nat) : Prop :=
  ∃ ke < count, kh.value (db.table.cacheHashSet table) ke = some entry

/-- What the first passes of the loop leave. -/
structure Emptying (db middle : Db kh) (table count : Nat) : Prop where
  value : ∀ index, kh.value (middle.table.cacheHashSet table) index =
    if index < count then none
    else kh.value (db.table.cacheHashSet table) index
  destroyed : middle.table.destroyed = db.table.destroyed
  hash : middle.table.hash = db.table.hash
  entry : middle.entry = { db.entry with
    deleted := middle.entry.deleted
    freed := middle.entry.freed
    block := middle.entry.block }
  freed : ∀ entry, middle.entry.freed entry = true ↔
    db.entry.freed entry = true ∨
      Passed db table count entry ∧ db.entry.refs entry = 0
  deleted : ∀ entry, middle.entry.deleted entry = true ↔
    db.entry.deleted entry = true ∨ Passed db table count entry
  block : ∀ entry, ¬(Passed db table count entry ∧ db.entry.refs entry = 0) →
    middle.entry.block entry = db.entry.block entry
  space : BlocksFit db table → middle.blocksExist < 4294967296 ∧
    ∀ block, Vacant middle block ↔ Vacant db block ∨
      ∃ entry, Passed db table count entry ∧ FreesBlock db entry block
  removed : ∀ entry, Passed db table count entry →
    isSingleFile db entry = true →
      middle.disk.paths (keyPathIn db table entry) = none
  remaining : ∀ path, (∀ entry, Passed db table count entry →
      isSingleFile db entry = true → path ≠ keyPathIn db table entry) →
    middle.disk.paths path = db.disk.paths path

section Fields

variable {entry other : Nat}

theorem freeUnheld_freed :
    (db.freeUnheld entry).entry.freed other = true ↔
      db.entry.freed other = true ∨ other = entry ∧
        db.entry.refs entry = 0 ∧ db.entry.deleted entry = true := by
  unfold Db.freeUnheld
  by_cases gone : db.entry.refs entry = 0 ∧ db.entry.deleted entry = true
  · rw [if_pos gone]
    have freed : (dbEntryActuallyDelete db entry).entry.freed =
        Function.update db.entry.freed entry true := by
      by_cases inBlock :
          isSingleFile db entry = false ∧ 0 ≤ db.entry.block entry
      · obtain ⟨_, _, _, _, eq⟩ := dbBlockFree_eq db (db.entry.block entry)
        rw [dbEntryActuallyDelete_inBlock db entry inBlock, eq]
        rfl
      · rw [dbEntryActuallyDelete_noBlock db entry inBlock]
        rfl
    rw [freed, update_true_iff]
    constructor
    · rintro (same | before)
      · exact Or.inr ⟨same, gone⟩
      · exact Or.inl before
    · rintro (before | ⟨same, -⟩)
      · exact Or.inr before
      · exact Or.inl same
  · rw [if_neg gone]
    exact ⟨Or.inl, fun either => either.resolve_right fun now => gone now.2⟩

theorem freeUnheld_block
    (kept : ¬(other = entry ∧ db.entry.refs entry = 0)) :
    (db.freeUnheld entry).entry.block other = db.entry.block other := by
  unfold Db.freeUnheld
  by_cases gone : db.entry.refs entry = 0 ∧ db.entry.deleted entry = true
  · rw [if_pos gone]
    have different : other ≠ entry := fun same => kept ⟨same, gone.1⟩
    by_cases inBlock : isSingleFile db entry = false ∧ 0 ≤ db.entry.block entry
    · obtain ⟨_, _, _, _, eq⟩ := dbBlockFree_eq db (db.entry.block entry)
      rw [dbEntryActuallyDelete_inBlock db entry inBlock, eq]
      exact Function.update_of_ne different _ _
    · rw [dbEntryActuallyDelete_noBlock db entry inBlock]
      rfl
  · rw [if_neg gone]

/-- A freed block becomes vacant, on the list or behind the last one. -/
theorem vacant_dbBlockFree {freed : Int} (nonneg : 0 ≤ freed)
    (small : freed < 2147483648) (fits : db.blocksExist < 4294967296)
    (block : Nat) :
    Vacant (dbBlockFree db freed) block ↔ Vacant db block ∨ freed = block := by
  have number : u32OfInt freed = freed.toNat := by
    unfold u32OfInt
    omega
  unfold dbBlockFree Vacant
  rw [number]
  split
  · next last =>
      obtain ⟨last, -⟩ := last
      unfold u32 at last
      unfold dbBlockSize
      dsimp only
      have one : u32 (db.blocksExist + 4294967295) = db.blocksExist - 1 := by
        unfold u32
        omega
      rw [one, or_assoc]
      refine or_congr_right ?_
      omega
  · change block ∈ freed.toNat :: db.freeBlocks ∨ db.blocksExist ≤ block ↔ _
    rw [List.mem_cons]
    have same : block = freed.toNat ↔ freed = block := by omega
    rw [same]
    tauto

theorem blocksExist_dbBlockFree {freed : Int}
    (fits : db.blocksExist < 4294967296) :
    (dbBlockFree db freed).blocksExist < 4294967296 := by
  unfold dbBlockFree
  split
  · change u32 (db.blocksExist + 4294967295) < 4294967296
    exact Nat.mod_lt _ (by decide)
  · exact fits

/-- Releasing an entry that was removed makes its block vacant. -/
theorem vacant_freeUnheld (gone : db.entry.deleted entry = true)
    (small : db.entry.block entry < 2147483648)
    (fits : db.blocksExist < 4294967296) :
    (db.freeUnheld entry).blocksExist < 4294967296 ∧
      ∀ block, Vacant (db.freeUnheld entry) block ↔
        Vacant db block ∨ FreesBlock db entry block := by
  unfold Db.freeUnheld FreesBlock
  by_cases unheld : db.entry.refs entry = 0
  · rw [if_pos ⟨unheld, gone⟩]
    by_cases inBlock : isSingleFile db entry = false ∧ 0 ≤ db.entry.block entry
    · rw [dbEntryActuallyDelete_inBlock db entry inBlock]
      have fitsAfter : (dbBlockFree db (db.entry.block entry)).blocksExist <
          4294967296 := blocksExist_dbBlockFree fits
      have vacant := vacant_dbBlockFree inBlock.2 small fits
      unfold Vacant at vacant ⊢
      unfold Db.markFreed Db.setBlock
      dsimp only
      refine ⟨fitsAfter, fun block => (vacant block).trans ?_⟩
      simp [unheld, inBlock.1]
    · rw [dbEntryActuallyDelete_noBlock db entry inBlock]
      refine ⟨fits, fun block => ?_⟩
      have none_ : ¬(isSingleFile db entry = false ∧
          db.entry.block entry = block) :=
        fun both => inBlock ⟨both.1, by omega⟩
      simp only [unheld, none_, and_false, or_false]
      rfl
  · rw [if_neg fun both => unheld both.1]
    exact ⟨fits, fun block => by simp [unheld]⟩

theorem dbTableDeref_disk (actuallyDelete : Bool) :
    (dbTableDeref db table actuallyDelete).disk = db.disk := by
  rw [dbTableDeref_eq]
  split <;> rfl

end Fields

section Loop

variable {count : Nat}

theorem passed_succ {entry : Nat} : Passed db table (count + 1) entry ↔
    Passed db table count entry ∨
      kh.value (db.table.cacheHashSet table) count = some entry := by
  constructor
  · rintro ⟨ke, below, found⟩
    rcases Nat.lt_succ_iff_lt_or_eq.mp below with before | rfl
    · exact Or.inl ⟨ke, before, found⟩
    · exact Or.inr found
  · rintro (⟨ke, below, found⟩ | found)
    · exact ⟨ke, Nat.lt_succ_of_lt below, found⟩
    · exact ⟨count, Nat.lt_succ_self count, found⟩

/-- At the end the loop has come to all entries of the table. -/
theorem passed_all {entry : Nat} :
    Passed db table (kh.endIndex (db.table.cacheHashSet table)) entry ↔
      Holds db table entry := by
  constructor
  · rintro ⟨ke, -, found⟩
    obtain ⟨key, held, -⟩ := BucketMap.exists_key_of_value found
    exact ⟨key, held⟩
  · rintro ⟨key, held⟩
    obtain ⟨ke, found⟩ := BucketMap.exists_value_iff.mpr ⟨key, held⟩
    exact ⟨ke, BucketMap.lt_endIndex_of_value found, found⟩

/-- An entry stands in one bucket. -/
theorem Populated.not_passed {entry : Nat} (populated : Populated db table)
    (found : kh.value (db.table.cacheHashSet table) count = some entry) :
    ¬Passed db table count entry := by
  rintro ⟨ke, below, before⟩
  obtain ⟨key, held, index⟩ := BucketMap.exists_key_of_value found
  obtain ⟨other, otherHeld, otherIndex⟩ := BucketMap.exists_key_of_value before
  rw [← populated.hash held] at index
  rw [← populated.hash otherHeld, index] at otherIndex
  omega

theorem emptying_zero : Emptying db (db.doom table) table 0 where
  value := fun index => by rw [if_neg (Nat.not_lt_zero index)]; rfl
  destroyed := rfl
  hash := rfl
  entry := rfl
  freed := fun entry => by simp [Passed, Db.doom]
  deleted := fun entry => by simp [Passed, Db.doom]
  block := fun entry _ => rfl
  space := fun fits => ⟨fits.1, fun block => by simp [Passed, Vacant, Db.doom]⟩
  removed := fun entry => by simp [Passed]
  remaining := fun path _ => rfl

/-- The entry of the next bucket is as it was when the loop started. -/
theorem Emptying.found {entry : Nat} (emptying : Emptying db middle table count)
    (populated : Populated db table)
    (found : kh.value (middle.table.cacheHashSet table) count = some entry) :
    kh.value (db.table.cacheHashSet table) count = some entry ∧
      middle.entry.table entry = some table ∧
      middle.entry.deleted entry = false ∧
      middle.entry.freed entry = false ∧
      middle.entry.refs entry = db.entry.refs entry := by
  rw [emptying.value, if_neg (Nat.lt_irrefl count)] at found
  obtain ⟨key, held, -⟩ := BucketMap.exists_key_of_value found
  obtain ⟨undeleted, unfreed⟩ := populated.live held
  have fresh := populated.not_passed found
  refine ⟨found, ?_, ?_, ?_, ?_⟩
  · rw [emptying.entry]
    exact populated.inTable held
  · refine Bool.eq_false_iff.mpr fun isDeleted => ?_
    rcases (emptying.deleted entry).mp isDeleted with before | passed
    · rw [undeleted] at before
      cases before
    · exact fresh passed
  · refine Bool.eq_false_iff.mpr fun isFreed => ?_
    rcases (emptying.freed entry).mp isFreed with before | ⟨passed, -⟩
    · rw [unfreed] at before
      cases before
    · exact fresh passed
  · rw [emptying.entry]

theorem Emptying.next (emptying : Emptying db middle table count)
    (populated : Populated db table) :
    Emptying db (middle.bucketRemoved table count) table (count + 1) := by
  have value : ∀ index, kh.value
      ((middle.bucketRemoved table count).table.cacheHashSet table) index =
        if index < count + 1 then none
        else kh.value (db.table.cacheHashSet table) index := by
    intro index
    rw [bucketRemoved_value, emptying.value]
    by_cases same : index = count
    · rw [if_pos same, if_pos (by omega)]
    · rw [if_neg same]
      by_cases below : index < count
      · rw [if_pos below, if_pos (by omega)]
      · rw [if_neg below, if_neg (by omega)]
  cases found : kh.value (middle.table.cacheHashSet table) count with
  | none =>
      have empty : kh.value (db.table.cacheHashSet table) count = none := by
        rw [emptying.value, if_neg (Nat.lt_irrefl count)] at found
        exact found
      have passed : ∀ entry, Passed db table (count + 1) entry ↔
          Passed db table count entry := by
        intro entry
        rw [passed_succ, empty]
        exact or_iff_left (by simp)
      have same : middle.bucketRemoved table count = middle := by
        unfold Db.bucketRemoved
        rw [found]
      rw [same] at value ⊢
      refine ⟨value, emptying.destroyed, emptying.hash, emptying.entry,
        ?_, ?_, ?_, ?_, ?_, ?_⟩
      all_goals simp only [passed]
      · exact emptying.freed
      · exact emptying.deleted
      · exact emptying.block
      · exact emptying.space
      · exact emptying.removed
      · exact emptying.remaining
  | some entry =>
      obtain ⟨foundBefore, inTable, undeleted, unfreed, refs⟩ :=
        emptying.found populated found
      have passed : ∀ other, Passed db table (count + 1) other ↔
          Passed db table count other ∨ other = entry := by
        intro other
        rw [passed_succ, foundBefore, Option.some.injEq, eq_comm]
      have single : isSingleFile middle entry = isSingleFile db entry := by
        unfold isSingleFile
        rw [emptying.entry]
      have path : keyPathIn middle table entry = keyPathIn db table entry := by
        unfold keyPathIn
        rw [emptying.entry, emptying.hash]
      have eq : middle.bucketRemoved table count =
          (middle.remove table entry count).freeUnheld entry := by
        unfold Db.bucketRemoved
        rw [found]
      have heldBy : (middle.remove table entry count).entry.refs entry =
          db.entry.refs entry := refs
      have marked : (middle.remove table entry count).entry.deleted entry =
          true := Function.update_self ..
      obtain ⟨_, _, _, _, _, _, fields⟩ :=
        freeUnheld_eq (middle.remove table entry count) entry
      have paths : (middle.bucketRemoved table count).disk.paths =
          if isSingleFile db entry then
            Function.update middle.disk.paths (keyPathIn db table entry) none
          else middle.disk.paths := by
        rw [eq, fields, ← single, ← path]
        rfl
      refine ⟨value, ?_, ?_, ?_, ?_, ?_, ?_, ?_, ?_, ?_⟩
      · rw [eq, fields]
        exact emptying.destroyed
      · rw [eq, fields]
        exact emptying.hash
      · rw [eq, fields]
        have record := emptying.entry
        dsimp only [Db.setBlocks, Db.remove]
        rw [record]
      · intro other
        rw [eq, freeUnheld_freed, heldBy, passed]
        constructor
        · rintro (before | ⟨rfl, unheld, -⟩)
          · rcases (emptying.freed other).mp before with start | ⟨gone, unheld⟩
            · exact Or.inl start
            · exact Or.inr ⟨Or.inl gone, unheld⟩
          · exact Or.inr ⟨Or.inr rfl, unheld⟩
        · rintro (start | ⟨gone | rfl, unheld⟩)
          · exact Or.inl ((emptying.freed other).mpr (Or.inl start))
          · exact Or.inl ((emptying.freed other).mpr (Or.inr ⟨gone, unheld⟩))
          · exact Or.inr ⟨rfl, unheld, marked⟩
      · intro other
        have deleted : (middle.bucketRemoved table count).entry.deleted =
            Function.update middle.entry.deleted entry true := by
          rw [eq, fields]
          rfl
        rw [deleted, update_true_iff, emptying.deleted, passed]
        constructor
        · rintro (same | start | gone)
          · exact Or.inr (Or.inr same)
          · exact Or.inl start
          · exact Or.inr (Or.inl gone)
        · rintro (start | gone | same)
          · exact Or.inr (Or.inl start)
          · exact Or.inr (Or.inr gone)
          · exact Or.inl same
      · intro other kept
        rw [eq, freeUnheld_block]
        · refine emptying.block other fun gone => kept ⟨?_, gone.2⟩
          exact (passed other).mpr (Or.inl gone.1)
        · rintro ⟨rfl, unheld⟩
          rw [heldBy] at unheld
          exact kept ⟨(passed other).mpr (Or.inr rfl), unheld⟩
      · intro fit
        obtain ⟨fits, space⟩ := emptying.space fit
        have held : Holds db table entry :=
          (holds_iff_value db table entry).mpr ⟨count, foundBefore⟩
        have sameBlock : middle.entry.block entry = db.entry.block entry :=
          emptying.block entry fun both => populated.not_passed foundBefore
            both.1
        have small : (middle.remove table entry count).entry.block entry <
            2147483648 := by
          change middle.entry.block entry < 2147483648
          rw [sameBlock]
          exact fit.2 entry held
        obtain ⟨fitsAfter, vacant⟩ := vacant_freeUnheld marked small fits
        rw [eq]
        refine ⟨fitsAfter, fun block => (vacant block).trans ?_⟩
        have frees : FreesBlock (middle.remove table entry count) entry block ↔
            FreesBlock db entry block := by
          unfold FreesBlock
          rw [heldBy]
          change _ ∧ isSingleFile middle entry = false ∧
            middle.entry.block entry = block ↔ _
          rw [single, sameBlock]
        have before : Vacant (middle.remove table entry count) block ↔
            Vacant middle block := Iff.rfl
        rw [frees, before, space, or_assoc]
        refine or_congr_right ?_
        simp only [passed, or_and_right, exists_or, exists_eq_left]
      · intro other gone long
        rw [paths]
        by_cases same : keyPathIn db table other = keyPathIn db table entry ∧
            isSingleFile db entry = true
        · rw [if_pos same.2, same.1, Function.update_self]
        · have before : Passed db table count other := by
            refine ((passed other).mp gone).resolve_right ?_
            rintro rfl
            exact same ⟨rfl, long⟩
          have removed := emptying.removed other before long
          split
          · next isLong =>
              rw [Function.update_of_ne fun equal => same ⟨equal, isLong⟩]
              exact removed
          · exact removed
      · intro other apart
        have before := emptying.remaining other fun earlier gone =>
          apart earlier ((passed earlier).mpr (Or.inl gone))
        rw [paths]
        split
        · next isLong =>
            rw [Function.update_of_ne
              (apart entry ((passed entry).mpr (Or.inr rfl)) isLong)]
            exact before
        · exact before

/-- The passes over the first buckets. -/
theorem emptying_loop (populated : Populated db table) (count : Nat) :
    ∃ middle,
      (List.range count).foldlM (deleteBucket table) (db.doom table) =
        .ok middle ∧ Emptying db middle table count := by
  induction count with
  | zero => exact ⟨db.doom table, rfl, emptying_zero⟩
  | succ count ih =>
      obtain ⟨middle, loop, emptying⟩ := ih
      have present : middle.table.destroyed table = false := by
        rw [emptying.destroyed]
        exact populated.present
      refine ⟨middle.bucketRemoved table count, ?_, emptying.next populated⟩
      rw [List.range_succ, List.foldlM_append, loop, ok_bind, List.foldlM_cons,
        deleteBucket_eq present fun entry found => ?_]
      · rfl
      · obtain ⟨-, inTable, undeleted, -⟩ := emptying.found populated found
        exact ⟨inTable, undeleted⟩

/-- A pass reads a freed entry when nobody held the entry it removes. -/
theorem Emptying.readsFreed (emptying : Emptying db middle table count)
    (populated : Populated db table) :
    passReadsFreed table middle count = true ↔
      ∃ entry, kh.value (db.table.cacheHashSet table) count = some entry ∧
        db.entry.refs entry = 0 := by
  unfold passReadsFreed
  cases found : kh.value (middle.table.cacheHashSet table) count with
  | none =>
      rw [emptying.value, if_neg (Nat.lt_irrefl count)] at found
      simp [found]
  | some entry =>
      obtain ⟨foundBefore, inTable, undeleted, unfreed, refs⟩ :=
        emptying.found populated found
      have present : middle.table.destroyed table = false := by
        rw [emptying.destroyed]
        exact populated.present
      have marked : (middle.remove table entry count).entry.deleted entry =
          true := Function.update_self ..
      have heldBy : (middle.remove table entry count).entry.refs entry =
          db.entry.refs entry := refs
      have before : (middle.remove table entry count).entry.freed entry =
          false := unfreed
      dsimp only
      rw [dbEntryHandleSoftdelete_eq count inTable undeleted, present,
        if_neg (by simp), foundBefore, undeleted, unfreed]
      simp only [Bool.not_false, Bool.true_and, Bool.false_or,
        freeUnheld_freed, heldBy, marked, before, Option.some.injEq,
        exists_eq_left', and_true, true_and, reduceCtorEq, false_or]

end Loop

/-- Whatever is read, a deletion frees what nobody holds, marks the rest and
removes the files. -/
theorem dbTableHandleDelete_empties (populated : Populated db table) :
    ∃ after, dbTableHandleDelete db table = .ok after ∧
      Emptied db after table := by
  obtain ⟨middle, loop, emptying⟩ := emptying_loop populated
    (kh.endIndex (db.table.cacheHashSet table))
  have doomed : keyMap (db.doom table) table =
      .ok (db.table.cacheHashSet table) :=
    keyMap_eq_ok.mpr ⟨populated.present, rfl⟩
  have present : keyMap middle table =
      .ok (middle.table.cacheHashSet table) := by
    refine keyMap_eq_ok.mpr ⟨?_, rfl⟩
    rw [emptying.destroyed]
    exact populated.present
  obtain ⟨after, deleted, entry, disk⟩ : ∃ after,
      dbTableHandleDelete db table = .ok after ∧
        (after.entry = middle.entry ∧ after.freeBlocks = middle.freeBlocks ∧
          after.blocksExist = middle.blocksExist) ∧
        after.disk = middle.disk := by
    unfold dbTableHandleDelete dbDeleteTableEntry
    dsimp only
    rw [show { db with table.deleted :=
        Function.update db.table.deleted table true } = db.doom table from rfl,
      doomed, ok_bind, loop, ok_bind, present, ok_bind]
    refine ⟨_, rfl, ?_, ?_⟩
    · rw [dbTableDeref_eq]
      split <;> split <;> exact ⟨rfl, rfl, rfl⟩
    · rw [dbTableDeref_disk]
      split <;> rfl
  obtain ⟨entry, freeBlocks, blocksExist⟩ := entry
  refine ⟨after, deleted, ?_, ?_, ?_, ?_, ?_, ?_⟩
  · intro other
    rw [entry, emptying.freed, passed_all]
  · intro other
    rw [entry, emptying.deleted, passed_all]
  · intro other kept
    rw [entry]
    exact emptying.block other fun gone =>
      kept ⟨passed_all.mp gone.1, gone.2⟩
  · intro fit block
    have space := (emptying.space fit).2 block
    simp only [passed_all] at space
    unfold Vacant at space ⊢
    rw [freeBlocks, blocksExist]
    exact space
  · intro other held long
    rw [disk]
    exact emptying.removed other (passed_all.mpr held) long
  · intro path apart
    rw [disk]
    exact emptying.remaining path fun other gone =>
      apart other (passed_all.mp gone)

theorem readsFreed_iff (populated : Populated db table) :
    ReadsFreed db table ↔
      ∃ entry, Holds db table entry ∧ db.entry.refs entry = 0 := by
  constructor
  · rintro ⟨ke, -, middle, loop, reads⟩
    obtain ⟨same, passes, emptying⟩ := emptying_loop populated ke
    obtain rfl := Except.ok.inj (passes.symm.trans loop)
    obtain ⟨entry, found, unheld⟩ := (emptying.readsFreed populated).mp reads
    exact ⟨entry, BucketMap.exists_value_iff.mp ⟨ke, found⟩, unheld⟩
  · rintro ⟨entry, held, unheld⟩
    obtain ⟨ke, found⟩ := BucketMap.exists_value_iff.mpr held
    obtain ⟨middle, loop, emptying⟩ := emptying_loop populated ke
    exact ⟨ke, BucketMap.lt_endIndex_of_value found, middle, loop,
      (emptying.readsFreed populated).mpr ⟨entry, found, unheld⟩⟩

/-- A deletion is clean exactly when somebody holds every entry of the
table. -/
theorem deletesCleanly_iff (populated : Populated db table) :
    DeletesCleanly db table ↔
      ∀ entry, Holds db table entry → db.entry.refs entry ≠ 0 := by
  unfold DeletesCleanly
  rw [readsFreed_iff populated]
  constructor
  · rintro ⟨-, clean⟩ entry held unheld
    exact clean ⟨entry, held, unheld⟩
  · intro held
    refine ⟨dbTableHandleDelete_empties populated, ?_⟩
    rintro ⟨entry, stored, unheld⟩
    exact held entry stored unheld

/-- A table with a key in a block that is read, another one in a block, and
one in a file that is being written. -/
theorem deletesCleanly_iff_read :
    ∃ server : Server listHash,
      (serverMachine listEnv fun _ => True).Reachable Machine.anyStep server ∧
        (listHash.values (server.db.table.cacheHashSet 0)).length = 3 ∧
        (server.connections 1).target = .entry 0 ∧
        isSingleFile server.db 3 = true ∧ server.db.entry.writing 3 = true ∧
        DeletesCleanly server.db 0 := by
  have ends : endsWithin twoTablesDisk (fun _ _ => true)
      ([.accept, .accept] ++ resolves 0 .put 97 119 ++
        [.request 0 (.header (.contentLength (some ⟨5000, by decide⟩)))] ++
        resolves 1 .get 97 107) (fun server => decide (
          server.db.table.destroyed 0 = false ∧
          (∀ entry ∈ listHash.values (server.db.table.cacheHashSet 0),
            server.db.entry.refs entry ≠ 0) ∧
          (listHash.values (server.db.table.cacheHashSet 0)).length = 3 ∧
          (server.connections 1).target = .entry 0 ∧
          isSingleFile server.db 3 = true ∧
          server.db.entry.writing 3 = true)) = true := by
    decide +kernel
  obtain ⟨server, reachable, final⟩ :=
    @reachable_of_endsWithin (fun _ => True) twoTablesDisk Machine.anyStep _
      trivial (fun _ _ _ => trivial) _ _ ends
  obtain ⟨present, held, three, reads, single, isWriting⟩ :=
    of_decide_eq_true final
  have sound := (measured_of_reachable listEnv reachable).1
  refine ⟨server, reachable, three, reads, single, isWriting, ?_⟩
  refine (deletesCleanly_iff (sound.consistent.populated present)).mpr
    fun entry ⟨key, found⟩ => held entry (BucketMap.mem_values_iff.mpr ?_)
  exact ⟨key, found⟩

/-- Once a key is uploaded nobody holds it, and deleting its table reads it
after it is freed. -/
theorem deletesCleanly_lost :
    ∃ server : Server listHash,
      (serverMachine listEnv DistinctIndex).Reachable Machine.anyStep server ∧
        listHash.lookup server.db.tables 97 = some 0 ∧
        ¬DeletesCleanly server.db 0 := by
  have ends : endsWith (.accept :: uploads 0 97 107 120) (fun server =>
      decide (listHash.lookup server.db.tables 97 = some 0 ∧
        0 < listHash.endIndex (server.db.table.cacheHashSet 0) ∧
        passReadsFreed 0 (server.db.doom 0) 0 = true)) = true := by
    decide +kernel
  have empty : DistinctIndex emptyDisk := by
    intro text saved
    simp [emptyDisk] at saved
  obtain ⟨server, reachable, final⟩ :=
    reachable_of_endsWith empty (fun _ _ _ => trivial) ends
  obtain ⟨registered, bucket, reads⟩ := of_decide_eq_true final
  refine ⟨server, reachable, registered, fun clean => clean.2 ?_⟩
  exact ⟨0, bucket, server.db.doom 0, rfl, reads⟩

end SimpleCache
