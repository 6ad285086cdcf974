import SimpleCache.Checked
import SimpleCache.Opening

/-!
# Who owns a block

A block below `blocks_exist` is free, owned by one entry, or lost; it is never
two of these.  Every change keeps it so, whatever the connections do.
-/

namespace SimpleCache

variable {kh : KHash}

/-- The free list is exact and has no duplicates, an entry owns a block that
exists, and no block has two owners or is both owned and free. -/
structure BlocksSound (block : Nat → Int) (freeBlocks : List Nat)
    (blocksExist blocksFree : Nat) : Prop where
  nodup : freeBlocks.Nodup
  counted : blocksFree = freeBlocks.length
  free_lt : ∀ free ∈ freeBlocks, free < blocksExist
  owned_lt : ∀ entry, 0 ≤ block entry → block entry < blocksExist
  distinct : ∀ first second, 0 ≤ block first → block first = block second →
    first = second
  unlisted : ∀ entry, 0 ≤ block entry → (block entry).toNat ∉ freeBlocks
  exist_lt : blocksExist < 4294967296

def Db.BlocksSound (db : Db kh) : Prop :=
  SimpleCache.BlocksSound db.entry.block db.freeBlocks db.blocksExist
    db.blocksFree

namespace BlocksSound

variable {block : Nat → Int} {freeBlocks : List Nat}
  {blocksExist blocksFree : Nat}

/-- There are no more free blocks than blocks. -/
theorem length_le
    (sound : BlocksSound block freeBlocks blocksExist blocksFree) :
    freeBlocks.length ≤ blocksExist := by
  have within : freeBlocks ⊆ List.range blocksExist :=
    fun free member => List.mem_range.mpr (sound.free_lt free member)
  simpa using (sound.nodup.subperm within).length_le

/-- An entry gives up what it owns, or never owned a block. -/
theorem disown (sound : BlocksSound block freeBlocks blocksExist blocksFree)
    (entry : Nat) {value : Int} (negative : value < 0) :
    BlocksSound (Function.update block entry value) freeBlocks blocksExist
      blocksFree := by
  have other : ∀ held, 0 ≤ Function.update block entry value held →
      held ≠ entry := by
    rintro held owned rfl
    rw [Function.update_self] at owned
    omega
  exact { sound with
    owned_lt := by
      intro held owned
      have different := other held owned
      rw [Function.update_of_ne different] at owned ⊢
      exact sound.owned_lt held owned
    distinct := by
      intro first second owned same
      have ownedSecond : 0 ≤ Function.update block entry value second :=
        owned.trans_eq same
      have notFirst := other first owned
      rw [Function.update_of_ne notFirst] at owned same
      rw [Function.update_of_ne (other second ownedSecond)] at same
      exact sound.distinct first second owned same
    unlisted := by
      intro held owned
      have different := other held owned
      rw [Function.update_of_ne different] at owned ⊢
      exact sound.unlisted held owned }

/-- An entry comes to own a block that nobody owns and that is not free. -/
theorem own (sound : BlocksSound block freeBlocks blocksExist blocksFree)
    (entry : Nat) {value : Int} (below : value < blocksExist)
    (unowned : 0 ≤ value → ∀ held, held ≠ entry → block held ≠ value)
    (unlisted : 0 ≤ value → value.toNat ∉ freeBlocks) :
    BlocksSound (Function.update block entry value) freeBlocks blocksExist
      blocksFree where
  nodup := sound.nodup
  counted := sound.counted
  free_lt := sound.free_lt
  owned_lt := by
    intro held owned
    by_cases isEntry : held = entry
    · rw [isEntry, Function.update_self]
      exact below
    · rw [Function.update_of_ne isEntry] at owned ⊢
      exact sound.owned_lt held owned
  distinct := by
    intro first second owned same
    by_cases isFirst : first = entry
    · rw [isFirst, Function.update_self] at owned same
      by_contra different
      rw [isFirst] at different
      rw [Function.update_of_ne fun isSecond => different isSecond.symm] at same
      exact unowned owned second (fun isSecond => different isSecond.symm)
        same.symm
    · rw [Function.update_of_ne isFirst] at owned same
      by_cases isSecond : second = entry
      · rw [isSecond, Function.update_self] at same
        exact absurd same (unowned (same ▸ owned) first isFirst)
      · rw [Function.update_of_ne isSecond] at same
        exact sound.distinct first second owned same
  unlisted := by
    intro held owned
    by_cases isEntry : held = entry
    · rw [isEntry, Function.update_self] at owned ⊢
      exact unlisted owned
    · rw [Function.update_of_ne isEntry] at owned ⊢
      exact sound.unlisted held owned
  exist_lt := sound.exist_lt

end BlocksSound

section Blocks

variable {db : Db kh}

/-- The free of a block that nobody owns: it is the last one and goes away, or
it joins the free list. -/
theorem BlocksSound.give {block : Nat → Int}
    (sound : SimpleCache.BlocksSound block db.freeBlocks db.blocksExist
      db.blocksFree) {free : Nat} (exists_ : free < db.blocksExist)
    (unowned : ∀ entry, block entry ≠ free) (unlisted : free ∉ db.freeBlocks)
    {value : Int} (isBlock : u32OfInt value = free) :
    SimpleCache.BlocksSound block (dbBlockFree db value).freeBlocks
      (dbBlockFree db value).blocksExist
      (dbBlockFree db value).blocksFree := by
  have bound := sound.exist_lt
  have last : u32 (db.blocksExist + 4294967295) = db.blocksExist - 1 := by
    unfold u32
    omega
  rw [dbBlockFree_freeBlocks, dbBlockFree_blocksExist,
    dbBlockFree_blocksFree]
  split
  · next shrinks =>
      have isLast : free + 1 = db.blocksExist := by
        have wraps := shrinks.1
        rw [isBlock] at wraps
        unfold u32 at wraps
        omega
      rw [last]
      refine ⟨sound.nodup, sound.counted, ?_, ?_, sound.distinct,
        sound.unlisted, by omega⟩
      · intro other member
        have below := sound.free_lt other member
        have different : other ≠ free := fun same => unlisted (same ▸ member)
        omega
      · intro entry owned
        have below := sound.owned_lt entry owned
        have different := unowned entry
        omega
  · rw [isBlock]
    have nodup : (free :: db.freeBlocks).Nodup :=
      List.nodup_cons.mpr ⟨unlisted, sound.nodup⟩
    have below : ∀ other ∈ free :: db.freeBlocks, other < db.blocksExist := by
      intro other member
      rcases List.mem_cons.mp member with rfl | member
      · exact exists_
      · exact sound.free_lt other member
    have room : (free :: db.freeBlocks).length ≤ db.blocksExist := by
      have within : free :: db.freeBlocks ⊆ List.range db.blocksExist :=
        fun other member => List.mem_range.mpr (below other member)
      simpa using (nodup.subperm within).length_le
    refine ⟨nodup, ?_, below, sound.owned_lt, sound.distinct, ?_,
      sound.exist_lt⟩
    · rw [sound.counted]
      rw [List.length_cons] at room ⊢
      unfold u32
      omega
    · intro entry owned member
      rcases List.mem_cons.mp member with same | member
      · have different := unowned entry
        omega
      · exact sound.unlisted entry owned member

/-- The free of the block of an entry. -/
theorem Db.BlocksSound.release (sound : db.BlocksSound) {entry : Nat}
    (owned : 0 ≤ db.entry.block entry) :
    SimpleCache.BlocksSound (Function.update db.entry.block entry (-1))
      (dbBlockFree db (db.entry.block entry)).freeBlocks
      (dbBlockFree db (db.entry.block entry)).blocksExist
      (dbBlockFree db (db.entry.block entry)).blocksFree := by
  have below := sound.owned_lt entry owned
  have bound := sound.exist_lt
  have isBlock : u32OfInt (db.entry.block entry) =
      (db.entry.block entry).toNat := by
    unfold u32OfInt
    omega
  refine (sound.disown entry (by decide)).give (by omega) ?_
    (sound.unlisted entry owned) isBlock
  intro held
  by_cases isEntry : held = entry
  · rw [isEntry, Function.update_self]
    omega
  · rw [Function.update_of_ne isEntry]
    intro same
    exact isEntry (sound.distinct held entry (by omega) (by omega))

/-- An allocation takes a block from the free list, or a new one. -/
theorem Db.BlocksSound.allocate (sound : db.BlocksSound) (entry : Nat) :
    SimpleCache.BlocksSound
      (Function.update db.entry.block entry (dbBlockAllocateNew db).2)
      (dbBlockAllocateNew db).1.freeBlocks
      (dbBlockAllocateNew db).1.blocksExist
      (dbBlockAllocateNew db).1.blocksFree := by
  have bound := sound.exist_lt
  have disowned := sound.disown entry (show (-1 : Int) < 0 by decide)
  unfold dbBlockAllocateNew
  split
  · next free rest listed =>
      have nodup := sound.nodup
      have counted := sound.counted
      have below := sound.free_lt
      have unlisted := sound.unlisted
      have room := sound.length_le
      rw [listed] at nodup counted below unlisted room
      rw [List.length_cons] at counted room
      have kept : SimpleCache.BlocksSound db.entry.block rest db.blocksExist
          (u32 (db.blocksFree + 4294967295)) := by
        refine ⟨(List.nodup_cons.mp nodup).2, ?_, ?_, sound.owned_lt,
          sound.distinct, ?_, bound⟩
        · unfold u32
          omega
        · exact fun other member => below other (List.mem_cons_of_mem _ member)
        · exact fun held owned member =>
            unlisted held owned (List.mem_cons_of_mem _ member)
      have isFree := below free List.mem_cons_self
      refine kept.own entry ?_ ?_ ?_
      · unfold i32
        split <;> omega
      · intro positive held _ same
        unfold i32 at positive same
        split at same
        · refine unlisted held (by omega) ?_
          rw [same]
          exact List.mem_cons_self
        · omega
      · intro positive
        unfold i32 at positive ⊢
        split
        · exact (List.nodup_cons.mp nodup).1
        · next large =>
            rw [if_neg large] at positive
            omega
  · next none_ =>
      split
      · exact disowned
      · next room =>
          have grown : u32 (db.blocksExist + 1) = db.blocksExist + 1 := by
            unfold u32
            omega
          have isNew : i32 db.blocksExist = db.blocksExist := by
            unfold i32
            rw [if_pos (by omega)]
          have kept : SimpleCache.BlocksSound db.entry.block db.freeBlocks
              (db.blocksExist + 1) db.blocksFree := by
            refine ⟨sound.nodup, sound.counted, ?_, ?_, sound.distinct,
              sound.unlisted, by omega⟩
            · intro other member
              exact (sound.free_lt other member).trans (Nat.lt_succ_self _)
            · intro held owned
              have below := sound.owned_lt held owned
              omega
          have isSound : SimpleCache.BlocksSound
              (Function.update db.entry.block entry db.blocksExist)
              db.freeBlocks (db.blocksExist + 1) db.blocksFree := by
            refine kept.own entry (by omega) ?_ ?_
            · intro _ held _ same
              have below := sound.owned_lt held (by omega)
              omega
            · intro _ member
              have below := sound.free_lt _ member
              omega
          change SimpleCache.BlocksSound
            (Function.update db.entry.block entry (i32 db.blocksExist))
            db.freeBlocks (u32 (db.blocksExist + 1)) db.blocksFree
          rw [isNew, grown]
          exact isSound

end Blocks

section Changes

variable {hashString : Bytes → UInt32} {allowed : Defect → Prop}
  {before after : Work kh}

/-- What a block operation leaves, read off its outcome. -/
theorem BlocksSound.of_eq {block : Nat → Int} {result db : Db kh}
    {freeBlocks : List Nat} {blocksExist blocksFree : Nat}
    {blockfile : ByteFile}
    (sound : SimpleCache.BlocksSound block result.freeBlocks
      result.blocksExist result.blocksFree)
    (isResult : result =
      db.setBlocks freeBlocks blocksExist blocksFree blockfile) :
    SimpleCache.BlocksSound block freeBlocks blocksExist blocksFree := by
  rw [isResult] at sound
  exact sound

theorem Change.blocksSound (exclusive : ¬allowed .blockCollision)
    (change : Change hashString allowed before after)
    (sound : before.db.BlocksSound) : after.db.BlocksSound := by
  cases change with
  | freeBlock entry freeBlocks blocksExist blocksFree blockfile unheld
      isDeleted inBlock owned freed =>
      exact (sound.release owned).of_eq freed
  | releaseBlock entry freeBlocks blocksExist blocksFree blockfile storing
      inBlock owned freed =>
      exact (sound.release owned).of_eq freed
  | freeUnused block freeBlocks blocksExist blocksFree blockfile exists_
      unowned unlisted freed =>
      have isBlock : u32OfInt (i32 block) = block :=
        u32OfInt_i32 (exists_.trans sound.exist_lt)
      exact (BlocksSound.give sound exists_ unowned unlisted isBlock).of_eq
        freed
  | acquireBlock entry freeBlocks blocksExist blocksFree blockfile block
      storing unowned unstored allocated =>
      have isSound := sound.allocate entry
      rw [allocated] at isSound
      exact isSound
  | noBlock entry storing unowned => exact sound.disown entry (by decide)
  | setLength entry length =>
      unfold Db.BlocksSound
      change SimpleCache.BlocksSound (Function.update before.db.entry.block
        entry (if before.db.entry.block entry = -2 then -1
          else before.db.entry.block entry)) _ _ _
      split
      · exact sound.disown entry (by decide)
      · rw [Function.update_eq_self]
        exact sound
  | enter table new first counted null live held empty =>
      exact sound.disown before.db.entry.count (by rw [empty.2]; decide)
  | load table new it held live unloaded placed =>
      rcases placed with inFile | ⟨below, unowned, unlisted⟩ | repeats
      · exact sound.disown before.db.entry.count inFile
      · exact sound.own before.db.entry.count below
          (fun _ entry _ => unowned entry) (fun _ => unlisted)
      · exact absurd repeats exclusive
  | _ => exact sound

theorem emptyDb_blocksSound (disk : Disk) :
    (emptyDb disk : Db kh).BlocksSound where
  nodup := List.nodup_nil
  counted := rfl
  free_lt := by simp [emptyDb]
  owned_lt := by simp [emptyDb]
  distinct := by simp [emptyDb]
  unlisted := by simp [emptyDb]
  exist_lt := Nat.mod_lt _ (by decide)

/-- Freeing all blocks of a store in their order lists them all, but for the
last one when that shrinks the block file. -/
theorem freeAll {db : Db kh} {blocks : Nat} (exist : db.blocksExist = blocks)
    (small : blocks < 4294967296) (empty : db.freeBlocks = [])
    (zero : db.blocksFree = 0) :
    ∀ count ≤ blocks, ∃ after, (List.range count).foldl
        (fun db block => dbBlockFree db (i32 block)) db = after ∧
      after.entry = db.entry ∧ ∃ listed,
        after.freeBlocks = (List.range listed).reverse ∧
        after.blocksFree = listed ∧
        (listed = count ∧ after.blocksExist = blocks ∨
          count = blocks ∧ after.blocksExist = listed ∧ listed < blocks) := by
  intro count within
  induction count with
  | zero => exact ⟨db, rfl, rfl, 0, empty, zero, Or.inl ⟨rfl, exist⟩⟩
  | succ count ih =>
      obtain ⟨middle, isMiddle, sameEntry, listed, isList, isCount, state⟩ :=
        ih (by omega)
      have ⟨isListed, isExist⟩ : listed = count ∧ middle.blocksExist = blocks :=
        state.resolve_right (by omega)
      have isBlock : u32OfInt (i32 count) = count :=
        u32OfInt_i32 (by omega)
      rw [List.range_succ, List.foldl_append, isMiddle]
      refine ⟨dbBlockFree middle (i32 count), rfl,
        (dbBlockFree_entry _).trans sameEntry, ?_⟩
      rw [dbBlockFree_freeBlocks, dbBlockFree_blocksFree,
        dbBlockFree_blocksExist]
      by_cases shrinks : Shrinks middle (i32 count)
      · rw [if_pos shrinks, if_pos shrinks, if_pos shrinks]
        have isLast := shrinks.1
        rw [isBlock, isExist] at isLast
        unfold u32 at isLast
        refine ⟨listed, isList, isCount, Or.inr ⟨by omega, ?_, by omega⟩⟩
        rw [isExist]
        unfold u32
        omega
      · rw [if_neg shrinks, if_neg shrinks, if_neg shrinks]
        refine ⟨count + 1, ?_, ?_, Or.inl ⟨rfl, isExist⟩⟩
        · rw [isBlock, isList, isListed, List.range_succ]
          simp
        · rw [isCount, isListed]
          unfold u32
          omega

theorem freeAll_blocksSound {db : Db kh} {blocks : Nat}
    (exist : db.blocksExist = blocks) (small : blocks < 4294967296)
    (empty : db.freeBlocks = []) (zero : db.blocksFree = 0)
    (unowned : ∀ entry, db.entry.block entry = -1) {after : Db kh}
    (freed : (List.range blocks).foldl
      (fun db block => dbBlockFree db (i32 block)) db = after) :
    Db.BlocksSound { after with blocksFree := after.blocksExist } := by
  obtain ⟨result, isResult, sameEntry, listed, isList, isCount, state⟩ :=
    freeAll exist small empty zero blocks le_rfl
  obtain rfl := isResult.symm.trans freed
  have isExist : result.blocksExist = listed := by
    rcases state with ⟨rfl, isExist⟩ | ⟨-, isExist, -⟩
    · exact isExist
    · exact isExist
  have bounded : listed < 4294967296 := by
    rcases state with ⟨rfl, -⟩ | ⟨-, -, fewer⟩
    · exact small
    · exact fewer.trans small
  refine ⟨?_, ?_, ?_, ?_, ?_, ?_, ?_⟩
  · rw [isList]
    exact List.nodup_reverse.mpr List.nodup_range
  · rw [isList, isExist]
    simp
  · rw [isList, isExist]
    simp
  · intro entry owned
    rw [sameEntry, unowned] at owned
    omega
  · intro first _ owned
    rw [sameEntry, unowned] at owned
    omega
  · intro entry owned
    rw [sameEntry, unowned] at owned
    omega
  · rw [isExist]
    exact bounded

theorem blankDb_blocksSound (disk : Disk) :
    (blankDb (emptyDb disk : Db kh)).BlocksSound := by
  unfold blankDb
  dsimp only
  have few : min disk.blockfile.length (blockMaxLoad * blockLength) /
      blockLength < 4294967296 := by
    unfold blockMaxLoad blockLength
    omega
  have start : ∀ middle : Db kh, middle.entry = (emptyDb disk : Db kh).entry →
      middle.freeBlocks = [] → middle.blocksFree = 0 →
      middle.blocksExist = min disk.blockfile.length
        (blockMaxLoad * blockLength) / blockLength * blockLength /
          blockLength →
      Db.BlocksSound { (List.range (min disk.blockfile.length
        (blockMaxLoad * blockLength) / blockLength * blockLength /
          blockLength)).foldl
            (fun db block => dbBlockFree db (i32 block)) middle with
        blocksFree := ((List.range (min disk.blockfile.length
          (blockMaxLoad * blockLength) / blockLength * blockLength /
            blockLength)).foldl
              (fun db block => dbBlockFree db (i32 block))
                middle).blocksExist } := by
    intro middle sameEntry empty zero exist
    refine freeAll_blocksSound exist ?_ empty zero ?_ rfl
    · rw [Nat.mul_div_cancel _ (by decide)]
      exact few
    · intro entry
      rw [sameEntry]
      rfl
  have cut : ∀ middle : Db kh, middle.entry = (emptyDb disk : Db kh).entry ∧
      middle.freeBlocks = [] ∧ middle.blocksFree = 0 ∧
      middle.blocksExist = min disk.blockfile.length
        (blockMaxLoad * blockLength) / blockLength * blockLength /
          blockLength → _ := fun middle facts =>
    start middle facts.1 facts.2.1 facts.2.2.1 facts.2.2.2
  apply cut
  have limited : blockMaxLoad * blockLength < disk.blockfile.length →
      u32 (blockMaxLoad * blockLength / blockLength) =
        min disk.blockfile.length (blockMaxLoad * blockLength) /
          blockLength * blockLength / blockLength := by
    unfold u32 blockMaxLoad blockLength
    omega
  have whole : ¬blockMaxLoad * blockLength < disk.blockfile.length →
      u32 (disk.blockfile.length / blockLength) =
        min disk.blockfile.length (blockMaxLoad * blockLength) /
          blockLength * blockLength / blockLength := by
    unfold u32 blockMaxLoad blockLength
    omega
  split
  · split
    · next large => exact ⟨rfl, rfl, rfl, limited large⟩
    · next small => exact ⟨rfl, rfl, rfl, whole small⟩
  · split
    · next large => exact ⟨rfl, rfl, rfl, limited large⟩
    · next small => exact ⟨rfl, rfl, rfl, whole small⟩

end Changes

theorem Changes.blocksSound {hashString : Bytes → UInt32}
    {allowed : Defect → Prop} {before after : Work kh}
    (exclusive : ¬allowed .blockCollision)
    (changes : Changes hashString allowed before after)
    (sound : before.db.BlocksSound) : after.db.BlocksSound := by
  induction changes with
  | refl => exact sound
  | tail _ change ih => exact Change.blocksSound exclusive change ih

theorem carries_blocksSound (env : Env) {allowed : Defect → Prop}
    (exclusive : ¬allowed .blockCollision) :
    Carries env allowed (fun work => work.db.BlocksSound) where
  change := fun _ change sound => Change.blocksSound exclusive change sound
  alike := fun alike sound => alike.db ▸ sound
  outside := by
    intro server after event loaded outside sound run blocks
    obtain ⟨⟨currentTime, currentUsec, flush, indexSave, same⟩, -, -⟩ :=
      serverStep_outside outside sound run
    change after.db.BlocksSound
    rw [same]
    exact blocks

/-- The free list and the blocks of the entries that are not released. -/
structure BlocksOwned (db : Db kh) : Prop where
  nodup : db.freeBlocks.Nodup
  counted : db.blocksFree = db.freeBlocks.length
  free_lt : ∀ free ∈ db.freeBlocks, free < db.blocksExist
  owned_lt : ∀ entry < db.entry.count, db.entry.freed entry = false →
    0 ≤ db.entry.block entry → db.entry.block entry < db.blocksExist
  distinct : ∀ first < db.entry.count, ∀ second < db.entry.count,
    db.entry.freed first = false → db.entry.freed second = false →
      0 ≤ db.entry.block first →
        db.entry.block first = db.entry.block second → first = second
  unlisted : ∀ entry < db.entry.count, db.entry.freed entry = false →
    0 ≤ db.entry.block entry → (db.entry.block entry).toNat ∉ db.freeBlocks

theorem Db.BlocksSound.owned {db : Db kh} (sound : db.BlocksSound) :
    BlocksOwned db where
  nodup := sound.nodup
  counted := sound.counted
  free_lt := sound.free_lt
  owned_lt := fun entry _ _ => sound.owned_lt entry
  distinct := fun first _ second _ _ _ => sound.distinct first second
  unlisted := fun entry _ _ => sound.unlisted entry

/-- Runs of all kinds, from an index that names every block once. -/
def ApartFromBlocks (defect : Defect) : Prop := defect ≠ .blockCollision

theorem apartFromBlocks_of_step {defect : Defect} (step : ¬defect.ofLoader) :
    ApartFromBlocks defect := by
  rintro rfl
  exact step trivial

theorem indexClear_apartFromBlocks {hashString : Bytes → UInt32} {disk : Disk}
    (distinct : DistinctIndex disk) :
    IndexClear kh hashString ApartFromBlocks disk :=
  indexClear_of_distinct (by simp [ApartFromBlocks])
    (by simp [ApartFromBlocks]) (by simp [ApartFromBlocks]) distinct

theorem dbOpen_blocksSound {hashString : Bytes → UInt32} {disk : Disk}
    {db : Db kh} (distinct : DistinctIndex disk)
    (run : dbOpen hashString disk = .ok db) : db.BlocksSound := by
  cases saved : disk.indexSave with
  | none =>
      rw [dbOpen_blank saved] at run
      obtain rfl := Except.ok.inj run
      exact blankDb_blocksSound disk
  | some text =>
      have opening : ApartFromBlocks .opening := by simp [ApartFromBlocks]
      obtain ⟨loaded, changes⟩ := dbOpen_changes opening saved
        (indexClear_apartFromBlocks distinct) run
      exact Changes.blocksSound (fun repeats => repeats rfl) changes
        (emptyDb_blocksSound disk)

/-- Every run from a directory without an index, or with an index of distinct
entries, keeps the block lists exact. -/
theorem blocksSound_of_reachable (env : Env) {server : Server env.kh}
    (reachable : (serverMachine env DistinctIndex).Reachable Machine.anyStep
      server) : server.db.BlocksSound := by
  have exclusive : ¬ApartFromBlocks .blockCollision :=
    fun repeats => repeats rfl
  have opening : ApartFromBlocks .opening := by simp [ApartFromBlocks]
  obtain ⟨-, loaded, blocks⟩ := (carries_blocksSound env exclusive).reachable
    (fun server event _ _ =>
      eventClear_all (fun _ => apartFromBlocks_of_step) server event)
    (fun disk db distinct run =>
      ⟨dbOpen_sound opening (indexClear_apartFromBlocks distinct) run, 0,
        dbOpen_blocksSound distinct run⟩) reachable
  exact blocks

/-- In every state of every run from a directory without an index, or with an
index of distinct entries, no block is free and owned, or owned twice. -/
theorem blocksOwned_of_reachable (env : Env) {server : Server env.kh}
    (reachable : (serverMachine env DistinctIndex).Reachable Machine.anyStep
      server) : BlocksOwned server.db :=
  (blocksSound_of_reachable env reachable).owned

theorem twoTables_distinct : DistinctIndex twoTablesDisk := by
  intro text saved
  obtain rfl := Option.some.inj saved
  have entries : readIndex twoTablesText =
      [⟨[97], [107], 0, 1, 9, 0⟩, ⟨[97], [108], 2, 8, 9, 0⟩,
        ⟨[98], [109], -1, 5000, 9, 3⟩] := by
    decide +kernel
  rw [entries]
  exact ⟨by decide, by decide⟩

/-- An entry of a replaced key keeps its block as long as it is read, beside
the block of the new entry. -/
theorem blocksOwned_of_reachable_replace :
    ∃ server : Server listHash,
      (server.connections 1).target = .entry 3 ∧
        server.db.entry.deleted 3 = true ∧ server.db.entry.freed 3 = false ∧
        server.db.entry.block 3 = 3 ∧ server.db.entry.block 4 = 1 ∧
        server.db.entry.block 5 = 4 ∧ server.db.freeBlocks = [] ∧
        BlocksOwned server.db := by
  have ends : endsWithin twoTablesDisk (fun _ _ => true) replaceUnderReader
      (fun server => decide ((server.connections 1).target = .entry 3 ∧
        server.db.entry.deleted 3 = true ∧ server.db.entry.freed 3 = false ∧
        server.db.entry.block 3 = 3 ∧ server.db.entry.block 4 = 1 ∧
        server.db.entry.block 5 = 4 ∧ server.db.freeBlocks = [])) = true := by
    decide +kernel
  obtain ⟨server, reachable, final⟩ :=
    @reachable_of_endsWithin DistinctIndex twoTablesDisk Machine.anyStep _
      twoTables_distinct (fun _ _ _ => trivial) _ _ ends
  obtain ⟨reads, replaced, held, first, second, third, free⟩ :=
    of_decide_eq_true final
  exact ⟨server, reads, replaced, held, first, second, third, free,
    blocksOwned_of_reachable listEnv reachable⟩

end SimpleCache
