import Mathlib.Data.List.Perm.Basic
import SimpleCache.Flush

/-!
# The length of the block file

The block allocator on its own: a sequence of allocations and frees, and the
blocks that are owned in between.  Blocks are addressed in 64 bits, the length
of the file is computed in 32.
-/

namespace SimpleCache

variable {kh : KHash}

/-- The allocator, and the blocks it has handed out. -/
structure Allocator (kh : KHash) where
  db : Db kh
  owned : List Nat

/-- A call of the allocator. -/
inductive AllocatorCall
  | allocate
  | free (block : Nat)

/-- One allocation, or the free of a block that is owned. -/
inductive AllocatorStep :
    AllocatorCall → Allocator kh → Allocator kh → Prop
  | allocate (allocator : Allocator kh) :
      AllocatorStep .allocate allocator
        { db := (dbBlockAllocateNew allocator.db).1
          owned :=
            if (dbBlockAllocateNew allocator.db).2 < 0 then allocator.owned
            else (dbBlockAllocateNew allocator.db).2.toNat :: allocator.owned }
  | free (allocator : Allocator kh) (block : Nat)
      (owned : block ∈ allocator.owned) :
      AllocatorStep (.free block) allocator
        { db := dbBlockFree allocator.db block
          owned := allocator.owned.erase block }

abbrev AllocatorRuns : Allocator kh → Allocator kh → Prop :=
  Relation.ReflTransGen fun before after =>
    ∃ call, AllocatorStep call before after

/-- The length that a call passes to `ftruncate`, if it comes to
`db_block_size`: a block of the free list is handed out, and one is put on it,
without. -/
def AllocatorCall.truncates (db : Db kh) : AllocatorCall → Option Nat
  | .allocate =>
      if db.freeBlocks = [] ∧ db.blocksExist < 2147483647 then
        some (ftruncateLength (u32 (db.blocksExist + 1)))
      else none
  | .free block =>
      if u32 (u32OfInt block + 1) = db.blocksExist ∧ 256 < db.blocksFree then
        some (ftruncateLength (u32 (db.blocksExist + 4294967295)))
      else none

/-- A call that comes to `db_block_size` leaves fewer than 2^20 blocks. -/
def AllocatorCall.Fits (db : Db kh) : AllocatorCall → Prop
  | .allocate =>
      db.freeBlocks = [] → db.blocksExist < 2147483647 →
        db.blocksExist + 1 < 1048576
  | .free block =>
      block + 1 = db.blocksExist → 256 < db.blocksFree →
        db.blocksExist ≤ 1048576

/-- Blocks are owned by one owner or free, below the number of blocks, which
stays within the limit of the allocator. -/
structure Allocator.Sound (allocator : Allocator kh) : Prop where
  distinct : (allocator.owned ++ allocator.db.freeBlocks).Nodup
  below : ∀ block ∈ allocator.owned ++ allocator.db.freeBlocks,
    block < allocator.db.blocksExist
  limited : allocator.db.blocksExist ≤ 2147483647

/-- The bytes of the blocks that stay owned are still in the file. -/
def Allocator.KeepsOwned (before after : Allocator kh) : Prop :=
  ∀ block ∈ before.owned, block ∈ after.owned →
    after.db.disk.blockfile.slice (block * blockLength) blockLength =
      before.db.disk.blockfile.slice (block * blockLength) blockLength

theorem ftruncateLength_eq_iff (blocksExist : Nat) :
    ftruncateLength blocksExist = blockLength * blocksExist ↔
      blocksExist < 1048576 := by
  unfold ftruncateLength u32 blockLength
  omega

private theorem i32_toNat {block : Nat} (small : block < 2147483648) :
    i32 block = block := by
  simp [i32, small]

private theorem u32OfInt_natCast {block : Nat} (small : block < 2147483648) :
    u32OfInt block = block := by
  unfold u32OfInt
  omega

theorem Allocator.Sound.step {before after : Allocator kh}
    {call : AllocatorCall} (sound : before.Sound)
    (step : AllocatorStep call before after) : after.Sound := by
  obtain ⟨distinct, below, limited⟩ := sound
  cases step with
  | allocate =>
      unfold dbBlockAllocateNew
      split
      · next block rest listed =>
          rw [listed] at distinct below
          have small : block < 2147483648 :=
            (below block (by simp)).trans_le (by omega)
          rw [i32_toNat small, if_neg (by omega)]
          have order : (block :: before.owned ++ rest).Perm
              (before.owned ++ block :: rest) :=
            List.perm_middle.symm
          exact {
            distinct := order.nodup_iff.mpr distinct
            below := fun other member =>
              below other (order.mem_iff.mp member)
            limited := limited }
      · next none =>
          rw [none] at distinct below
          split
          · next full =>
              have refused : ((before.db, -1) : Db kh × Int).2 < 0 := by
                simp
              rw [if_pos refused]
              exact ⟨by simpa [none] using distinct, by simpa [none] using below,
                limited⟩
          · next room =>
              have room : before.db.blocksExist < 2147483647 := by omega
              rw [i32_toNat (by omega), if_neg (by omega)]
              have grown : u32 (before.db.blocksExist + 1) =
                  before.db.blocksExist + 1 := by
                unfold u32
                omega
              refine ⟨?_, ?_, ?_⟩
              · simp only [dbBlockSize, none, List.append_nil] at distinct ⊢
                refine List.nodup_cons.mpr ⟨fun member => ?_, distinct⟩
                have := below _ (List.mem_append_left _ member)
                omega
              · intro block member
                simp only [dbBlockSize, none, List.append_nil,
                  List.mem_cons] at member ⊢
                rw [grown]
                rcases member with rfl | member
                · omega
                · have := below block (List.mem_append_left _ member)
                  omega
              · simp only [dbBlockSize]
                omega
  | free _ block owned =>
      have blockLt := below block (List.mem_append_left _ owned)
      have number : u32OfInt (block : Int) = block :=
        u32OfInt_natCast (blockLt.trans_le (by omega))
      have ownedNodup := (List.nodup_append.mp distinct).1
      unfold dbBlockFree
      rw [number]
      split
      · next last =>
          have last : block + 1 = before.db.blocksExist := by
            have := last.1
            unfold u32 at this
            omega
          have shrunk : u32 (before.db.blocksExist + 4294967295) = block := by
            unfold u32
            omega
          have kept : (before.owned.erase block ++ before.db.freeBlocks).Sublist
              (before.owned ++ before.db.freeBlocks) :=
            List.Sublist.append List.erase_sublist (List.Sublist.refl _)
          simp only [dbBlockSize, shrunk]
          refine ⟨distinct.sublist kept, ?_, ?_⟩
          · intro other member
            have otherLt := below other (kept.subset member)
            have different : other ≠ block := by
              rintro rfl
              rcases List.mem_append.mp member with inOwned | inFree
              · exact (List.Nodup.not_mem_erase ownedNodup) inOwned
              · exact (List.nodup_append.mp distinct).2.2 other owned other
                  inFree rfl
            change other < block
            omega
          · change block ≤ 2147483647
            omega
      · have order : (before.owned.erase block ++
            block :: before.db.freeBlocks).Perm
            (before.owned ++ before.db.freeBlocks) :=
          List.perm_middle.trans
            ((List.perm_cons_erase owned).symm.append_right _)
        exact {
          distinct := order.nodup_iff.mpr distinct
          below := fun other member => below other (order.mem_iff.mp member)
          limited := limited }

theorem Allocator.Sound.run {start after : Allocator kh} (sound : start.Sound)
    (runs : AllocatorRuns start after) : after.Sound := by
  induction runs with
  | refl => exact sound
  | tail _ step ih =>
      obtain ⟨call, step⟩ := step
      exact ih.step step

/-- Truncating to the whole length of the blocks keeps every block. -/
private theorem keep_truncate {file : ByteFile} {block blocksExist : Nat}
    (exists_ : block < blocksExist) (exact_ : blocksExist < 1048576) :
    (file.truncate (ftruncateLength blocksExist)).slice (block * blockLength)
        blockLength =
      file.slice (block * blockLength) blockLength := by
  apply ByteFile.slice_truncate
  rw [(ftruncateLength_eq_iff blocksExist).mpr exact_]
  unfold blockLength
  omega

section Step

variable {before after : Allocator kh} {call : AllocatorCall}

/-- A call that does not come to `db_block_size` leaves the file alone. -/
theorem Allocator.Sound.untouched (sound : before.Sound)
    (step : AllocatorStep call before after)
    (none_ : call.truncates before.db = none) :
    after.db.disk.blockfile = before.db.disk.blockfile ∧
      call.Fits before.db := by
  cases step with
  | allocate =>
      simp only [AllocatorCall.truncates, ite_eq_right_iff, reduceCtorEq,
        imp_false] at none_
      refine ⟨?_, fun empty room => absurd ⟨empty, room⟩ none_⟩
      unfold dbBlockAllocateNew
      split
      · rfl
      · next empty =>
          rw [if_pos (by
            by_contra room
            exact none_ ⟨empty, by omega⟩)]
  | free _ block owned =>
      have blockLt := sound.below block (List.mem_append_left _ owned)
      have limited := sound.limited
      have number : u32OfInt (block : Int) = block :=
        u32OfInt_natCast (blockLt.trans_le (by omega))
      simp only [AllocatorCall.truncates, ite_eq_right_iff, reduceCtorEq,
        imp_false] at none_
      refine ⟨?_, fun last free => absurd ⟨?_, free⟩ none_⟩
      · unfold dbBlockFree
        rw [if_neg none_]
      · rw [number, ← last]
        unfold u32
        omega

/-- A call that comes to `db_block_size` truncates the file to what is computed
from the new number of blocks. -/
theorem Allocator.Sound.truncated (sound : before.Sound)
    (step : AllocatorStep call before after) {length : Nat}
    (truncates : call.truncates before.db = some length) :
    length = ftruncateLength after.db.blocksExist ∧
      after.db.disk.blockfile = before.db.disk.blockfile.truncate length ∧
      (call.Fits before.db ↔ after.db.blocksExist < 1048576) := by
  have limited := sound.limited
  cases step with
  | allocate =>
      simp only [AllocatorCall.truncates, Option.ite_none_right_eq_some,
        Option.some.injEq] at truncates
      obtain ⟨⟨empty, room⟩, isLength⟩ := truncates
      have grown : u32 (before.db.blocksExist + 1) =
          before.db.blocksExist + 1 := by
        unfold u32
        omega
      have allocates : (dbBlockAllocateNew before.db).1 = dbBlockSize
          { before.db with blocksExist := u32 (before.db.blocksExist + 1) } := by
        unfold dbBlockAllocateNew
        split
        · next listed => exact absurd (listed.symm.trans empty) (by simp)
        · rw [if_neg (Nat.not_le.mpr room)]
      dsimp only
      rw [allocates]
      refine ⟨isLength.symm,
        congrArg before.db.disk.blockfile.truncate isLength, ?_⟩
      change (before.db.freeBlocks = [] → _ → _) ↔
        u32 (before.db.blocksExist + 1) < 1048576
      rw [grown]
      exact ⟨fun fits => fits empty room, fun small _ _ => small⟩
  | free _ block owned =>
      have blockLt := sound.below block (List.mem_append_left _ owned)
      have number : u32OfInt (block : Int) = block :=
        u32OfInt_natCast (blockLt.trans_le (by omega))
      simp only [AllocatorCall.truncates, Option.ite_none_right_eq_some,
        Option.some.injEq] at truncates
      obtain ⟨shrinks, isLength⟩ := truncates
      have frees : dbBlockFree before.db block = dbBlockSize
          { before.db with
            blocksExist := u32 (before.db.blocksExist + 4294967295) } :=
        if_pos shrinks
      have last : block + 1 = before.db.blocksExist := by
        have same := shrinks.1
        rw [number] at same
        unfold u32 at same
        omega
      have shrunk : u32 (before.db.blocksExist + 4294967295) + 1 =
          before.db.blocksExist := by
        unfold u32
        omega
      dsimp only
      rw [frees]
      refine ⟨isLength.symm,
        congrArg before.db.disk.blockfile.truncate isLength, ?_⟩
      change (block + 1 = _ → _ → _) ↔
        u32 (before.db.blocksExist + 4294967295) < 1048576
      constructor
      · intro fits
        have := fits last shrinks.2
        omega
      · intro small _ _
        omega

/-- As long as the length is exact, no block that stays owned is cut. -/
theorem Allocator.Sound.keepsOwned (sound : before.Sound)
    (step : AllocatorStep call before after) (fits : call.Fits before.db) :
    before.KeepsOwned after := by
  have soundAfter := sound.step step
  intro block owned stillOwned
  have blockLt := soundAfter.below block (List.mem_append_left _ stillOwned)
  cases truncates : call.truncates before.db with
  | none => rw [(sound.untouched step truncates).1]
  | some length =>
      obtain ⟨isLength, blockfile, small⟩ := sound.truncated step truncates
      rw [blockfile, isLength]
      exact keep_truncate blockLt (small.mp fits)

end Step

/-- What a call passes to `ftruncate` is the length of all blocks, and it keeps
the bytes of every owned block, exactly when it does not come to
`db_block_size` or leaves fewer than 2^20 blocks. -/
theorem dbBlockSize_exact_iff {start before after : Allocator kh}
    {call : AllocatorCall} (sound : start.Sound)
    (runs : AllocatorRuns start before)
    (step : AllocatorStep call before after) :
    ((∀ length, call.truncates before.db = some length →
        length = blockLength * after.db.blocksExist) ∧
      before.KeepsOwned after) ↔ call.Fits before.db := by
  have soundBefore := sound.run runs
  constructor
  · rintro ⟨exact_, -⟩
    cases truncates : call.truncates before.db with
    | none => exact (soundBefore.untouched step truncates).2
    | some length =>
        obtain ⟨isLength, -, small⟩ := soundBefore.truncated step truncates
        have product := exact_ length truncates
        rw [isLength, ftruncateLength_eq_iff] at product
        exact small.mpr product
  · intro fits
    refine ⟨fun length truncates => ?_, soundBefore.keepsOwned step fits⟩
    obtain ⟨isLength, -, small⟩ := soundBefore.truncated step truncates
    rw [isLength, ftruncateLength_eq_iff]
    exact small.mp fits

/-- An allocator of the given number of blocks, with the first one owned. -/
def ownFirst (blocks : Nat) : Allocator listHash where
  db :=
    { (emptyDb emptyDisk : Db listHash) with
      blocksExist := blocks
      disk.blockfile := ByteFile.empty.write 0 [1] }
  owned := [0]

theorem ownFirst_sound {blocks : Nat} (some_ : 0 < blocks)
    (limited : blocks ≤ 2147483647) : (ownFirst blocks).Sound where
  distinct := by simp [ownFirst, emptyDb]
  below := by simpa [ownFirst, emptyDb] using some_
  limited := limited

/-- The file grows by a block. -/
theorem dbBlockSize_exact_iff_first :
    ((∀ length, AllocatorCall.truncates (ownFirst 1).db .allocate =
        some length → length =
          blockLength * (dbBlockAllocateNew (ownFirst 1).db).1.blocksExist) ∧
      (ownFirst 1).KeepsOwned
        { db := (dbBlockAllocateNew (ownFirst 1).db).1
          owned := [1, 0] }) ∧
    AllocatorCall.truncates (ownFirst 1).db .allocate = some 8192 := by
  refine ⟨(dbBlockSize_exact_iff (ownFirst_sound (by decide) (by decide)) .refl
    (.allocate (ownFirst 1))).mpr fun _ _ => ?_, ?_⟩
  · decide
  · decide

/-- The allocation of block 2^20 - 1 truncates the file to nothing. -/
theorem dbBlockSize_not_exact :
    ¬∀ (kh : KHash) (call : AllocatorCall) (start before after : Allocator kh),
      start.Sound → AllocatorRuns start before →
        AllocatorStep call before after →
          (∀ length, call.truncates before.db = some length →
            length = blockLength * after.db.blocksExist) ∧
          before.KeepsOwned after := by
  intro claim
  have exact_ := (claim listHash .allocate (ownFirst 1048575) _ _
    (ownFirst_sound (by decide) (by decide)) .refl
    (.allocate (ownFirst 1048575))).1 0 (by decide)
  exact absurd exact_ (by decide)

end SimpleCache
