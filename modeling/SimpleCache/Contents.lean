import SimpleCache.Allocator
import SimpleCache.References

/-!
# Stored bytes

The bytes of a complete entry in the block file stay as they are until its
block is released: a connection writes within the block of its own entry, and
the block file is cut behind the blocks that exist.
-/

namespace SimpleCache

variable {kh : KHash}

/-- A range of positions within a block, or one that nothing is written to. -/
def InBlock (block position endPosition : Int) : Prop :=
  position < 0 ∨ (block * blockLength ≤ position ∧ position ≤ endPosition ∧
    endPosition ≤ block * blockLength + blockLength)

/-- Where a connection writes into the block file. -/
structure Work.WritesPlaced (work : Work kh) : Prop where
  inBlock : ∀ {connection entry},
    (work.connections connection).isWriting = true →
      (work.connections connection).fd = .blockfile →
        (work.connections connection).target = .entry entry →
          InBlock (work.db.entry.block entry)
            (work.connections connection).position
            (work.connections connection).endPosition
  /-- Nobody writes where storage is being chosen. -/
  unopened : ∀ {connection entry}, work.pending = .storing entry →
    (connection = work.current ∨
      (work.connections connection).target = .entry entry) →
        (work.connections connection).isWriting = true →
          (work.connections connection).fd ≠ .blockfile
  stores : ∀ {entry}, work.pending = .storing entry →
    work.connection.isWriting = true → work.connection.target = .entry entry
  entered : ∀ {entry}, work.aux = .entered entry →
    work.connection.isWriting = false ∧ ∀ stored, work.pending ≠ .storing stored

section Changes

variable {hashString : Bytes → UInt32} {allowed : Defect → Prop}
  {before after : Work kh}

theorem Work.connections_current (work : Work kh) :
    work.connections work.current = work.connection :=
  Function.update_self ..

theorem Work.connections_of_ne (others : after.others = before.others)
    (current : after.current = before.current) {connection : Nat}
    (other : connection ≠ before.current) :
    after.connections connection = before.connections connection := by
  unfold Work.connections
  rw [others, current, Function.update_of_ne other, Function.update_of_ne other]

/-- A handler turns to something else; the other connections stay. -/
theorem Work.WritesPlaced.turn (placed : before.WritesPlaced)
    (others : after.others = before.others)
    (current : after.current = before.current)
    (own : ∀ {entry}, after.connection.isWriting = true →
      after.connection.fd = .blockfile →
        after.connection.target = .entry entry →
          InBlock (after.db.entry.block entry) after.connection.position
            after.connection.endPosition)
    (storing : ∀ {entry}, after.pending = .storing entry →
      after.connection.isWriting = true →
        after.connection.fd ≠ .blockfile ∧
          after.connection.target = .entry entry)
    (beside : ∀ {connection entry}, after.pending = .storing entry →
      connection ≠ before.current →
        (before.connections connection).target = .entry entry →
          (before.connections connection).isWriting = true →
            (before.connections connection).fd ≠ .blockfile)
    (entered : ∀ {entry}, after.aux = .entered entry →
      after.connection.isWriting = false ∧
        ∀ stored, after.pending ≠ .storing stored)
    (block : ∀ {connection entry},
      (before.connections connection).isWriting = true →
        (before.connections connection).fd = .blockfile →
          (before.connections connection).target = .entry entry →
            after.db.entry.block entry = before.db.entry.block entry) :
    after.WritesPlaced where
  inBlock := by
    intro connection entry isWriting isOpen target
    by_cases same : connection = before.current
    · rw [same, ← current, after.connections_current] at isWriting isOpen target ⊢
      exact own isWriting isOpen target
    · rw [Work.connections_of_ne others current same] at isWriting isOpen target ⊢
      rw [block isWriting isOpen target]
      exact placed.inBlock isWriting isOpen target
  unopened := by
    intro connection entry isStoring concerns isWriting
    by_cases same : connection = before.current
    · rw [same, ← current, after.connections_current] at isWriting ⊢
      exact (storing isStoring isWriting).1
    · rw [Work.connections_of_ne others current same] at isWriting concerns ⊢
      rcases concerns with isCurrent | target
      · exact absurd (isCurrent.trans current) same
      · exact beside isStoring same target isWriting
  stores := fun isStoring isWriting => (storing isStoring isWriting).2
  entered := entered

/-- The running connection goes on, and starts no upload. -/
theorem Work.WritesPlaced.advance (placed : before.WritesPlaced)
    (others : after.others = before.others)
    (current : after.current = before.current)
    (aux : ∀ entry, after.aux = .entered entry → before.aux = .entered entry)
    (pending : ∀ entry, after.pending = .storing entry →
      before.pending = .storing entry)
    (writes : after.connection.isWriting = true →
      before.connection.isWriting = true ∧
        after.connection.target = before.connection.target)
    (opens : after.connection.isWriting = true →
      after.connection.fd = .blockfile →
        before.connection.fd = .blockfile ∧
          ∀ block, InBlock block before.connection.position
              before.connection.endPosition →
            InBlock block after.connection.position
              after.connection.endPosition)
    (block : ∀ {connection entry},
      (before.connections connection).isWriting = true →
        (before.connections connection).fd = .blockfile →
          (before.connections connection).target = .entry entry →
            after.db.entry.block entry = before.db.entry.block entry) :
    after.WritesPlaced := by
  refine placed.turn others current ?own ?storing ?beside ?entered block
  case own =>
    intro entry isWriting isOpen target
    obtain ⟨wrote, sameTarget⟩ := writes isWriting
    obtain ⟨wasOpen, kept⟩ := opens isWriting isOpen
    rw [sameTarget] at target
    rw [← before.connections_current] at wrote wasOpen target kept
    rw [block wrote wasOpen target]
    exact kept _ (placed.inBlock wrote wasOpen target)
  case storing =>
    intro entry isStoring isWriting
    have stored := pending entry isStoring
    obtain ⟨wrote, sameTarget⟩ := writes isWriting
    refine ⟨fun isOpen => ?_, sameTarget.trans (placed.stores stored wrote)⟩
    have wasOpen := (opens isWriting isOpen).1
    rw [← before.connections_current] at wrote wasOpen
    exact placed.unopened stored (Or.inl rfl) wrote wasOpen
  case beside =>
    intro connection entry isStoring _ target isWriting
    exact placed.unopened (pending entry isStoring) (Or.inr target) isWriting
  case entered =>
    intro entry isEntered
    obtain ⟨notWriting, notStoring⟩ := placed.entered (aux entry isEntered)
    constructor
    · cases isWriting : after.connection.isWriting with
      | false => rfl
      | true =>
          have wrote := (writes isWriting).1
          rw [notWriting] at wrote
          cases wrote
    · exact fun stored storing => notStoring stored (pending stored storing)

/-- The running connection stays as it is. -/
theorem Work.WritesPlaced.keep (placed : before.WritesPlaced)
    (others : after.others = before.others)
    (current : after.current = before.current)
    (connection : after.connection = before.connection)
    (aux : ∀ entry, after.aux = .entered entry → before.aux = .entered entry)
    (pending : ∀ entry, after.pending = .storing entry →
      before.pending = .storing entry)
    (block : ∀ {connection entry},
      (before.connections connection).isWriting = true →
        (before.connections connection).fd = .blockfile →
          (before.connections connection).target = .entry entry →
            after.db.entry.block entry = before.db.entry.block entry) :
    after.WritesPlaced :=
  placed.advance others current aux pending
    (fun isWriting => by rw [connection] at isWriting ⊢; exact ⟨isWriting, rfl⟩)
    (fun _ isOpen => by
      rw [connection] at isOpen ⊢
      exact ⟨isOpen, fun _ inBlock => inBlock⟩) block

/-- The running connection does not upload. -/
theorem Work.WritesPlaced.silent (placed : before.WritesPlaced)
    (others : after.others = before.others)
    (current : after.current = before.current)
    (aux : ∀ entry, after.aux = .entered entry → before.aux = .entered entry)
    (pending : after.pending = before.pending)
    (notWriting : after.connection.isWriting = false)
    (block : after.db.entry.block = before.db.entry.block) :
    after.WritesPlaced :=
  placed.advance others current aux (fun _ storing => pending.symm.trans storing)
    (fun isWriting => by rw [notWriting] at isWriting; cases isWriting)
    (fun isWriting => by rw [notWriting] at isWriting; cases isWriting)
    (fun _ _ _ => by rw [block])

/-- Only who holds an entry uploads. -/
theorem Work.Consistent.notWriting (consistent : before.Consistent)
    (target : ∀ entry, before.connection.target ≠ .entry entry) :
    before.connection.isWriting = false := by
  cases isWriting : before.connection.isWriting with
  | false => rfl
  | true =>
      obtain ⟨entry, held, -⟩ := consistent.holders.writes
        (before.isWriting_current.trans isWriting)
      exact absurd (before.target_current.symm.trans held) (target entry)

/-- A write stays within the range that is left to it. -/
theorem InBlock.write {block position endPosition : Int} {length : Nat}
    (inBlock : InBlock block position endPosition) (from_ : 0 ≤ position)
    (within : (length : Int) ≤ toInt (endPosition - position)) :
    block * blockLength ≤ position ∧
      position + length ≤ block * blockLength + blockLength ∧
      InBlock block (position + length) endPosition := by
  rcases inBlock with outside | ⟨above, ordered, below⟩
  · exact absurd from_ (Int.not_le.mpr outside)
  · have left : endPosition - position ≤ 4096 := by
      unfold blockLength at above below
      omega
    have isLeft : toInt (endPosition - position) = endPosition - position := by
      unfold toInt i32 u32OfInt
      omega
    rw [isLeft] at within
    exact ⟨above, by omega, Or.inr ⟨by omega, by omega, below⟩⟩

theorem Change.writesPlaced (steps : ¬allowed .opening)
    (succeeds : ¬allowed .writeFailed) (consistent : before.Consistent)
    (held : ∀ {connection entry}, before.target connection = .entry entry →
      before.db.entry.refs entry ≠ 0)
    (change : Change hashString allowed before after)
    (placed : before.WritesPlaced) : after.WritesPlaced := by
  -- what is being stored has no writer of the block file
  have moved {stored : Nat} (storing : before.pending = .storing stored)
      (value : Int) {connection entry : Nat}
      (isWriting : (before.connections connection).isWriting = true)
      (isOpen : (before.connections connection).fd = .blockfile)
      (target : (before.connections connection).target = .entry entry) :
      Function.update before.db.entry.block stored value entry =
        before.db.entry.block entry := by
    by_cases same : entry = stored
    · subst same
      exact absurd isOpen (placed.unopened storing (Or.inr target) isWriting)
    · exact Function.update_of_ne same ..
  cases change with
  | talk connection sameTarget sameWriting sameFile samePosition =>
      cases isWriting : before.connection.isWriting with
      | false =>
          exact placed.silent rfl rfl (fun _ same => same) rfl
            (sameWriting.trans isWriting) rfl
      | true =>
          obtain ⟨position, endPosition⟩ :=
            samePosition (sameWriting.trans isWriting)
          have sameFd : connection.fd = before.connection.fd := by
            rcases sameFile with null | sameFd
            · have nothing : before.connection.target = .null :=
                sameTarget.symm.trans null
              rw [consistent.notWriting (by simp [nothing])] at isWriting
              cases isWriting
            · exact sameFd
          refine placed.advance rfl rfl (fun _ same => same)
            (fun _ same => same) (fun _ => ⟨isWriting, sameTarget⟩)
            (fun _ isOpen => ⟨sameFd.symm.trans isOpen, fun block inBlock => ?_⟩)
            (fun _ _ _ => rfl)
          change InBlock block connection.position connection.endPosition
          rw [position, endPosition]
          exact inBlock
  | takeTable table null =>
      exact placed.silent rfl rfl (fun _ same => same) rfl
        (consistent.notWriting (by simp [null])) rfl
  | createTable name hash null =>
      exact placed.silent rfl rfl (fun _ same => same) rfl
        (consistent.notWriting (by simp [null])) rfl
  | dropTable table heldTable | forgetTable table heldTable =>
      exact placed.silent rfl rfl (fun _ same => same) rfl
        (consistent.notWriting (by simp [heldTable])) rfl
  | claim entry table _ heldTable =>
      exact placed.silent rfl rfl (fun _ isEntered => by cases isEntered) rfl
        (consistent.notWriting (by simp [heldTable])) rfl
  | release entry table _ notWriting | releaseDetached entry _ notWriting =>
      exact placed.silent rfl rfl (fun _ same => same) rfl notWriting rfl
  | complete | abandon =>
      exact placed.silent rfl rfl (fun _ same => same) rfl rfl rfl
  | openRead entry target _ reads =>
      exact placed.silent rfl rfl (fun _ same => same) rfl reads rfl
  | take | takeWithTable | drop | dropWithTable =>
      exact placed.keep rfl rfl rfl (fun _ isEntered => by cases isEntered)
        (fun _ same => same)
        (fun _ _ _ => rfl)
  | beginRemoval | remove | keepTable | destroy =>
      exact placed.keep rfl rfl rfl (fun _ same => same)
        (fun _ isStoring => by cases isStoring)
        (fun _ _ _ => rfl)
  | enter table new first counted null live heldTable =>
      have notWriting := consistent.notWriting (by simp [heldTable])
      have block : (((before.db.enter table new first).setWriting
          before.db.entry.count true).countOn counted).entry.block =
            Function.update before.db.entry.block before.db.entry.count
              new.block := by
        cases counted <;> rfl
      refine placed.turn rfl rfl ?_ (fun isStoring => by cases isStoring)
        (fun isStoring => by cases isStoring)
        (fun _ => ⟨notWriting, fun _ isStoring => by cases isStoring⟩) ?_
      · intro entry isWriting
        rw [notWriting] at isWriting
        cases isWriting
      · intro connection entry _ _ target
        rw [block]
        exact Function.update_of_ne (consistent.holders.target_entry target).ne ..
  | claimWrite entry table isEntered =>
      obtain ⟨-, notStoring⟩ := placed.entered isEntered
      exact placed.turn rfl rfl (fun _ isOpen => by cases isOpen)
        (fun isStoring => absurd isStoring (notStoring _))
        (fun isStoring => absurd isStoring (notStoring _))
        (fun isEntered => by cases isEntered)
        (fun _ _ _ => rfl)
  | freeBlock freed _ _ _ _ unheld =>
      refine placed.keep rfl rfl rfl (fun _ same => same) (fun _ same => same) ?_
      intro connection entry _ _ target
      refine Function.update_of_ne ?_ ..
      rintro rfl
      exact held target unheld
  | beginStoring stored idle heldStored isWriting =>
      refine placed.turn rfl rfl (fun _ isOpen => by cases isOpen) ?_ ?_ ?_
        (fun _ _ _ => rfl)
      · rintro entry ⟨⟩ _
        exact ⟨(fun isOpen => by cases isOpen), heldStored⟩
      · rintro connection entry ⟨⟩ other target wrote
        exact absurd (consistent.holders.writer_unique wrote
          (before.isWriting_current.trans isWriting)
          (target.trans (before.target_current.trans heldStored).symm)) other
      · intro entry isEntered
        rw [(placed.entered isEntered).1] at isWriting
        cases isWriting
  | endStoring stored fd position storing chosen placedAt =>
      refine placed.turn rfl rfl ?_ (fun isStoring => by cases isStoring)
        (fun isStoring => by cases isStoring) ?_ (fun _ _ _ => rfl)
      · intro entry isWriting isOpen target
        have isStored := placed.stores storing isWriting
        obtain rfl : stored = entry :=
          Held.entry.inj (isStored.symm.trans target)
        by_cases single : isSingleFile before.db stored = true
        · rw [if_pos single] at chosen
          have closed := placed.unopened storing (Or.inl rfl)
            (before.connections_current ▸ isWriting)
          rw [before.connections_current] at closed
          exact absurd (chosen.symm.trans isOpen) closed
        · rw [if_neg single] at placedAt
          have short : before.db.entry.dataLength stored ≤ blockLength := by
            unfold isSingleFile at single
            simpa using single
          refine Or.inr ⟨placedAt.ge, ?_, ?_⟩
          · change position ≤ position + before.db.entry.dataLength stored
            omega
          · change position + before.db.entry.dataLength stored ≤ _
            rw [placedAt]
            change _ ≤ before.db.entry.block stored * blockLength + blockLength
            omega
      · intro entry isEntered
        exact absurd storing ((placed.entered isEntered).2 stored)
  | acquireBlock stored _ _ _ _ value storing =>
      exact placed.keep rfl rfl rfl (fun _ same => same) (fun _ same => same)
        (moved storing value)
  | releaseBlock stored _ _ _ _ storing | noBlock stored storing =>
      exact placed.keep rfl rfl rfl (fun _ same => same) (fun _ same => same)
        (moved storing (-1))
  | setLength stored length storing =>
      exact placed.keep rfl rfl rfl (fun _ same => same) (fun _ same => same)
        (moved storing _)
  | createFile =>
      exact placed.advance rfl rfl (fun _ same => same) (fun _ same => same)
        (fun isWriting => ⟨isWriting, rfl⟩)
        (fun _ isOpen => by cases isOpen) (fun _ _ _ => rfl)
  | write bytes inodes blockfile isWriting isOpen from_ within =>
      exact placed.advance rfl rfl (fun _ same => same) (fun _ same => same)
        (fun isWriting => ⟨isWriting, rfl⟩)
        (fun _ isOpen => ⟨isOpen, fun _ inBlock =>
          (inBlock.write from_ within).2.2⟩) (fun _ _ _ => rfl)
  | writeFails failed => exact absurd failed succeeds
  | load _ _ _ _ _ _ _ _ _ _ _ opening => exact absurd opening steps
  | loadTakeTable _ _ _ _ opening => exact absurd opening steps
  | loadCreateTable _ _ _ _ _ _ opening => exact absurd opening steps
  | loadDropTable _ _ opening => exact absurd opening steps
  | _ =>
      exact placed.keep rfl rfl rfl (fun _ same => same) (fun _ same => same)
        (fun _ _ _ => rfl)

end Changes

/-- An entry takes a block once: blocks and entries without storage are no more
than the limit and the entries. -/
structure Work.BlocksBounded (limit : Nat) (work : Work kh) : Prop where
  bound : work.db.blocksExist +
    Nat.count (fun entry => work.db.entry.block entry = -2)
      work.db.entry.count ≤ limit + work.db.entry.count
  allocated : ∀ {entry}, work.pending = .storing entry →
    entry < work.db.entry.count

section Blocks

variable {hashString : Bytes → UInt32} {allowed : Defect → Prop}
  {before after : Work kh} {limit : Nat}

theorem dbBlockFree_blocksExist_le (db : Db kh) (block : Int)
    (positive : 0 < db.blocksExist) :
    (dbBlockFree db block).blocksExist ≤ db.blocksExist := by
  unfold dbBlockFree
  split
  · change u32 (db.blocksExist + 4294967295) ≤ db.blocksExist
    unfold u32
    omega
  · exact Nat.le_refl _

/-- A new block is made for the number of blocks only. -/
theorem dbBlockAllocateNew_blocksExist (db : Db kh) :
    (dbBlockAllocateNew db).1.blocksExist ≤ db.blocksExist ∨
      ((dbBlockAllocateNew db).1.blocksExist ≤ db.blocksExist + 1 ∧
        0 ≤ (dbBlockAllocateNew db).2) := by
  unfold dbBlockAllocateNew
  split
  · exact Or.inl (Nat.le_refl _)
  · split
    · exact Or.inl (Nat.le_refl _)
    · next room =>
        refine Or.inr ⟨Nat.mod_le _ _, ?_⟩
        change 0 ≤ i32 db.blocksExist
        unfold i32
        omega

/-- The bytes of a block that stays are not cut off. -/
theorem slice_dbBlockSize {db : Db kh} {block : Nat}
    (exists_ : block < db.blocksExist) (small : db.blocksExist < 1048576) :
    (dbBlockSize db).disk.blockfile.slice (block * blockLength) blockLength =
      db.disk.blockfile.slice (block * blockLength) blockLength := by
  apply ByteFile.slice_truncate
  rw [(ftruncateLength_eq_iff db.blocksExist).mpr small]
  unfold blockLength
  omega

theorem slice_dbBlockFree (db : Db kh) (freed : Int) (block : Nat)
    (exists_ : block < (dbBlockFree db freed).blocksExist)
    (small : (dbBlockFree db freed).blocksExist < 1048576) :
    (dbBlockFree db freed).disk.blockfile.slice (block * blockLength)
        blockLength =
      db.disk.blockfile.slice (block * blockLength) blockLength := by
  revert exists_ small
  unfold dbBlockFree
  split
  · exact fun exists_ small => slice_dbBlockSize exists_ small
  · exact fun _ _ => rfl

theorem slice_dbBlockAllocateNew (db : Db kh) (block : Nat)
    (exists_ : block < (dbBlockAllocateNew db).1.blocksExist)
    (small : (dbBlockAllocateNew db).1.blocksExist < 1048576) :
    (dbBlockAllocateNew db).1.disk.blockfile.slice (block * blockLength)
        blockLength =
      db.disk.blockfile.slice (block * blockLength) blockLength := by
  revert exists_ small
  unfold dbBlockAllocateNew
  split
  · exact fun _ _ => rfl
  · split
    · exact fun _ _ => rfl
    · exact fun exists_ small => slice_dbBlockSize exists_ small

theorem Work.BlocksBounded.keep (bounded : before.BlocksBounded limit)
    (count : after.db.entry.count = before.db.entry.count)
    (blocksExist : after.db.blocksExist = before.db.blocksExist)
    (block : after.db.entry.block = before.db.entry.block)
    (pending : ∀ entry, after.pending = .storing entry →
      before.pending = .storing entry) : after.BlocksBounded limit where
  bound := by
    rw [count, blocksExist, block]
    exact bounded.bound
  allocated := fun storing => by
    rw [count]
    exact bounded.allocated (pending _ storing)

/-- An entry that was without storage or was not gets other storage. -/
theorem Work.BlocksBounded.move (bounded : before.BlocksBounded limit)
    {entry : Nat} {value : Int}
    (count : after.db.entry.count = before.db.entry.count)
    (block : after.db.entry.block =
      Function.update before.db.entry.block entry value)
    (pending : after.pending = before.pending)
    (allocated : entry < before.db.entry.count)
    (blocksExist : after.db.blocksExist + (if value = -2 then 1 else 0) ≤
      before.db.blocksExist +
        if before.db.entry.block entry = -2 then 1 else 0) :
    after.BlocksBounded limit where
  bound := by
    have moved := count_update before.db.entry.block (-2) entry value
      before.db.entry.count
    simp only [allocated, true_and] at moved
    have bound := bounded.bound
    rw [count, block]
    omega
  allocated := fun storing => by
    rw [count]
    exact bounded.allocated (pending.symm.trans storing)

theorem Change.blocksBounded (steps : ¬allowed .opening)
    (once : ¬allowed .shrink) (consistent : before.Consistent)
    (blocks : before.db.BlocksSound)
    (change : Change hashString allowed before after)
    (bounded : before.BlocksBounded limit) : after.BlocksBounded limit := by
  have released {entry : Nat} {freeBlocks : List Nat}
      {blocksExist blocksFree : Nat} {blockfile : ByteFile}
      (owned : 0 ≤ before.db.entry.block entry)
      (freed : dbBlockFree before.db (before.db.entry.block entry) =
        before.db.setBlocks freeBlocks blocksExist blocksFree blockfile) :
      blocksExist ≤ before.db.blocksExist := by
    have positive : 0 < before.db.blocksExist := by
      have := blocks.owned_lt entry owned
      omega
    have fewer := dbBlockFree_blocksExist_le before.db
      (before.db.entry.block entry) positive
    rw [freed] at fewer
    exact fewer
  cases change with
  | freeBlock entry _ blocksExist _ _ _ isDeleted _ owned freed =>
      refine bounded.move rfl rfl rfl
        (consistent.keys.deleted_lt isDeleted) ?_
      have fewer := released owned freed
      change blocksExist + _ ≤ _
      rw [if_neg (by decide)]
      omega
  | releaseBlock entry _ blocksExist _ _ storing _ owned freed =>
      refine bounded.move rfl rfl rfl (bounded.allocated storing) ?_
      have fewer := released owned freed
      change blocksExist + _ ≤ _
      rw [if_neg (by decide)]
      omega
  | acquireBlock entry _ blocksExist _ _ block storing _ unstored allocates =>
      have none_ : before.db.entry.block entry = -2 :=
        unstored.resolve_right once
      refine bounded.move rfl rfl rfl (bounded.allocated storing) ?_
      have grown := dbBlockAllocateNew_blocksExist before.db
      rw [allocates] at grown
      change blocksExist + _ ≤ _
      change blocksExist ≤ _ ∨ (blocksExist ≤ _ ∧ 0 ≤ block) at grown
      rw [if_pos none_]
      rcases grown with same | ⟨grown, above⟩
      · split <;> omega
      · rw [if_neg (by omega)]
        exact grown
  | noBlock entry storing =>
      refine bounded.move rfl rfl rfl (bounded.allocated storing) ?_
      rw [if_neg (by decide)]
      exact Nat.le_add_right _ _
  | setLength entry length storing =>
      refine bounded.move rfl rfl rfl (bounded.allocated storing) ?_
      change before.db.blocksExist + _ ≤ _
      by_cases none_ : before.db.entry.block entry = -2
      · rw [if_pos none_, if_neg (by decide)]
        exact Nat.le_add_right _ _
      · rw [if_neg none_]
  | enter table new first counted _ _ _ empty =>
      have block : (((before.db.enter table new first).setWriting
          before.db.entry.count true).countOn counted).entry.block =
            Function.update before.db.entry.block before.db.entry.count
              new.block := by
        cases counted <;> rfl
      have blocksExist : (((before.db.enter table new first).setWriting
          before.db.entry.count true).countOn counted).blocksExist =
            before.db.blocksExist := by
        cases counted <;> rfl
      have count : (((before.db.enter table new first).setWriting
          before.db.entry.count true).countOn counted).entry.count =
            before.db.entry.count + 1 := by
        cases counted <;> rfl
      refine ⟨?_, fun isStoring => by cases isStoring⟩
      have moved := count_update before.db.entry.block (-2)
        before.db.entry.count new.block before.db.entry.count
      simp only [Nat.lt_irrefl, false_and, if_false, Nat.add_zero] at moved
      have bound := bounded.bound
      change (((before.db.enter table new first).setWriting
        before.db.entry.count true).countOn counted).blocksExist + _ ≤ _
      rw [blocksExist, block, count, Nat.count_succ, moved,
        if_pos (by rw [Function.update_self]; exact empty.2)]
      omega
  | beginStoring entry idle held =>
      refine ⟨bounded.bound, ?_⟩
      rintro stored ⟨⟩
      exact consistent.holders.target_entry (before.target_current.trans held)
  | beginRemoval | remove | keepTable | destroy | endStoring =>
      exact bounded.keep rfl rfl rfl (fun _ isStoring => by cases isStoring)
  | load _ _ _ _ _ _ _ _ _ _ _ opening => exact absurd opening steps
  | freeUnused _ _ _ _ _ _ _ _ _ opening => exact absurd opening steps
  | _ => exact bounded.keep rfl rfl rfl (fun _ same => same)

theorem Change.count_le (change : Change hashString allowed before after) :
    before.db.entry.count ≤ after.db.entry.count := by
  cases change with
  | enter table new first counted =>
      cases counted <;> exact Nat.le_succ _
  | load => exact Nat.le_succ _
  | _ => exact Nat.le_refl _

end Blocks

/-- The bytes of the block of an entry. -/
def Db.blockBytes (db : Db kh) (entry : Nat) : Bytes :=
  db.disk.blockfile.slice ((db.entry.block entry).toNat * blockLength)
    blockLength

/-- The entry has the block that it had, with the same bytes, or none. -/
def Db.KeepsBytes (before after : Db kh) (entry : Nat) : Prop :=
  after.entry.block entry = -1 ∨
    (after.entry.block entry = before.entry.block entry ∧
      (0 ≤ before.entry.block entry →
        after.blockBytes entry = before.blockBytes entry))

theorem Db.KeepsBytes.refl (db : Db kh) (entry : Nat) : db.KeepsBytes db entry :=
  Or.inr ⟨rfl, fun _ => rfl⟩

theorem Db.KeepsBytes.trans {first second third : Db kh} {entry : Nat}
    (start : first.KeepsBytes second entry)
    (goes : second.KeepsBytes third entry) : first.KeepsBytes third entry := by
  rcases goes with released | ⟨block, bytes⟩
  · exact Or.inl released
  rcases start with released | ⟨sameBlock, sameBytes⟩
  · exact Or.inl (block.trans released)
  · refine Or.inr ⟨block.trans sameBlock, fun owned => ?_⟩
    exact (bytes (sameBlock.symm ▸ owned)).trans (sameBytes owned)

section Bytes

variable {hashString : Bytes → UInt32} {allowed : Defect → Prop}
  {before after : Work kh} {entry : Nat}

/-- Where another entry is being stored, this one keeps its block. -/
theorem Work.block_of_unstored (work : Work kh)
    (unstored : work.pending ≠ .storing entry) {stored : Nat}
    (storing : work.pending = .storing stored) (value : Int) :
    Function.update work.db.entry.block stored value entry =
      work.db.entry.block entry := by
  refine Function.update_of_ne ?_ ..
  rintro rfl
  exact unstored storing

theorem Change.keepsBytes (steps : ¬allowed .opening)
    (consistent : before.Consistent) (blocks : before.db.BlocksSound)
    (blocksAfter : after.db.BlocksSound) (placed : before.WritesPlaced)
    (change : Change hashString allowed before after)
    (allocated : entry < before.db.entry.count)
    (complete : before.db.entry.writing entry = false)
    (unstored : before.pending ≠ .storing entry)
    (small : after.db.blocksExist < 1048576) :
    before.db.KeepsBytes after.db entry := by
  -- blocks are taken and given back at the end of the block file
  have kept (block : after.db.entry.block entry = before.db.entry.block entry)
      (bytes : 0 ≤ before.db.entry.block entry →
        (before.db.entry.block entry).toNat < after.db.blocksExist →
        after.db.disk.blockfile.slice
            ((before.db.entry.block entry).toNat * blockLength) blockLength =
          before.db.disk.blockfile.slice
            ((before.db.entry.block entry).toNat * blockLength) blockLength) :
      before.db.KeepsBytes after.db entry := by
    refine Or.inr ⟨block, fun owned => ?_⟩
    unfold Db.blockBytes
    rw [block]
    have exists_ := blocksAfter.owned_lt entry (block.symm ▸ owned)
    rw [block] at exists_
    exact bytes owned (by omega)
  have freeing {freed : Int} {freeBlocks : List Nat}
      {blocksExist blocksFree : Nat} {blockfile : ByteFile}
      (isFreed : dbBlockFree before.db freed =
        before.db.setBlocks freeBlocks blocksExist blocksFree blockfile)
      (few : blocksExist < 1048576)
      (exists_ : (before.db.entry.block entry).toNat < blocksExist) :
      blockfile.slice ((before.db.entry.block entry).toNat * blockLength)
          blockLength =
        before.db.disk.blockfile.slice
          ((before.db.entry.block entry).toNat * blockLength) blockLength := by
    have same := slice_dbBlockFree before.db freed
      (before.db.entry.block entry).toNat
    rw [isFreed] at same
    exact same exists_ few
  cases change with
  | enter table new first counted =>
      refine kept ?_ fun _ _ => by cases counted <;> rfl
      have old : entry ≠ before.db.entry.count := Nat.ne_of_lt allocated
      cases counted <;> exact Function.update_of_ne old ..
  | load _ _ _ _ _ _ _ _ _ _ _ opening => exact absurd opening steps
  | freeUnused _ _ _ _ _ _ _ _ _ opening => exact absurd opening steps
  | freeBlock other freeBlocks blocksExist blocksFree blockfile _ _ _ _ freed =>
      by_cases same : entry = other
      · subst same
        exact Or.inl (Function.update_self ..)
      · exact kept (Function.update_of_ne same ..) fun _ => freeing freed small
  | releaseBlock stored freeBlocks blocksExist blocksFree blockfile storing _ _
      freed =>
      exact kept (before.block_of_unstored unstored storing _)
        fun _ => freeing freed small
  | acquireBlock stored freeBlocks blocksExist blocksFree blockfile block
      storing _ _ allocates =>
      refine kept (before.block_of_unstored unstored storing _)
        fun _ exists_ => ?_
      have same := slice_dbBlockAllocateNew before.db
        (before.db.entry.block entry).toNat
      rw [allocates] at same
      exact same exists_ small
  | noBlock stored storing | setLength stored length storing =>
      exact kept (before.block_of_unstored unstored storing _)
        fun _ _ => rfl
  | write bytes inodes blockfile isWriting isOpen from_ within written =>
      refine kept rfl fun owned _ => ?_
      change blockfile.slice _ _ = _
      have isWritten : (writeFd before.db before.connection.fd
          before.connection.position.toNat bytes).disk.blockfile = blockfile := by
        rw [written]
        rfl
      rw [← isWritten]
      cases fd : before.connection.fd with
      | closed => rfl
      | file inode => rfl
      | blockfile =>
          obtain ⟨other, target, writes⟩ := consistent.holders.writes
            (before.isWriting_current.trans isWriting)
          have different : other ≠ entry := by
            rintro rfl
            rw [complete] at writes
            cases writes
          have inBlock := placed.inBlock
            (before.connections_current ▸ isWriting)
            (before.connections_current ▸ fd) target
          rw [before.connections_current] at inBlock
          obtain ⟨above, below, -⟩ := inBlock.write from_ within
          have apart : before.db.entry.block entry ≠
              before.db.entry.block other := fun same =>
            different (blocks.distinct entry other owned same).symm
          apply ByteFile.slice_write_of_disjoint
          unfold blockLength at above below ⊢
          omega
  | _ => exact kept rfl fun _ _ => rfl

end Bytes

/-- The situations of a step that do no harm to what is stored. -/
def Steady : Defect → Prop
  | .keyCollision | .blockCollision | .opening | .shrink | .writeFailed => False
  | _ => True

/-- What holds of references, blocks and writers, also within a handler. -/
structure Work.Kept (opened : Nat → Nat) (limit : Nat) (work : Work kh) :
    Prop where
  consistent : work.Consistent
  referenced : work.Referenced opened
  blocks : work.db.BlocksSound
  bounded : work.BlocksBounded limit
  placed : work.WritesPlaced

section Handlers

variable {hashString : Bytes → UInt32} {opened : Nat → Nat} {limit : Nat}
  {start before after work : Work kh} {entries : EntryHeap}

/-- The count of an entry that is held does not read as zero. -/
theorem Work.Referenced.held_ne_zero (referenced : work.Referenced opened)
    {entry : Nat} (one : opened entry ≤ 1)
    (few : occurrences work.target (.entry entry) + 2 < 65536)
    {connection : Nat} (held : work.target connection = .entry entry) :
    work.db.entry.refs entry ≠ 0 := by
  have holders := occurrences_pos referenced.finite (by simp) held
  have aux := work.aux.references_le entry
  rw [referenced.counted]
  unfold u16
  omega

theorem Change.kept (change : Change hashString Steady before after)
    (held : ∀ {connection entry}, before.target connection = .entry entry →
      before.db.entry.refs entry ≠ 0)
    (kept : before.Kept opened limit) : after.Kept opened limit where
  consistent := change.consistent kept.consistent
  referenced := change.referenced id kept.consistent kept.referenced
  blocks := change.blocksSound id kept.blocks
  bounded := change.blocksBounded id id kept.consistent kept.blocks kept.bounded
  placed := change.writesPlaced id id kept.consistent held kept.placed

theorem Change.block_of_held (change : Change hashString Steady before after)
    {entry : Nat} (allocated : entry < before.db.entry.count)
    (unstored : before.pending ≠ .storing entry)
    (held : before.db.entry.refs entry ≠ 0) :
    after.db.entry.block entry = before.db.entry.block entry := by
  cases change with
  | enter table new first counted =>
      have old : entry ≠ before.db.entry.count := Nat.ne_of_lt allocated
      cases counted <;> exact Function.update_of_ne old ..
  | load _ _ _ _ _ _ _ _ _ _ _ opening => exact opening.elim
  | freeBlock freed _ _ _ _ unheld =>
      refine Function.update_of_ne ?_ ..
      rintro rfl
      exact held unheld
  | releaseBlock stored _ _ _ _ storing =>
      exact before.block_of_unstored unstored storing _
  | acquireBlock stored _ _ _ _ block storing =>
      exact before.block_of_unstored unstored storing _
  | noBlock stored storing | setLength stored length storing =>
      exact before.block_of_unstored unstored storing _
  | _ => rfl

/-- A handler keeps the bytes of what is complete, and the block of what
another connection holds. -/
theorem Changes.keepsBytes (changes : Changes hashString Steady start work)
    (kept : start.Kept opened limit) (one : ∀ entry, opened entry ≤ 1)
    (few : ∀ entry, occurrences start.target (.entry entry) + 3 < 65536)
    (lasts : start.Lasts entries) :
    work.Kept opened limit ∧ start.db.entry.count ≤ work.db.entry.count ∧
      (limit + work.db.entry.count < 1048576 →
        ∀ entry, entries.Settled entry →
          start.db.KeepsBytes work.db entry) ∧
      ∀ connection entry, entries.Settled entry → connection ≠ start.current →
        start.target connection = .entry entry →
          work.db.entry.block entry = start.db.entry.block entry := by
  suffices all : work.Lasts entries ∧ work.Kept opened limit ∧
        start.db.entry.count ≤ work.db.entry.count ∧
        (limit + work.db.entry.count < 1048576 →
          ∀ entry, entries.Settled entry →
            start.db.KeepsBytes work.db entry) ∧
        ∀ connection entry, entries.Settled entry →
          connection ≠ start.current →
            start.target connection = .entry entry →
              work.db.entry.block entry = start.db.entry.block entry from all.2
  induction changes with
  | refl =>
      exact ⟨lasts, kept, Nat.le_refl _,
        fun _ entry _ => .refl _ entry, fun _ _ _ _ _ => rfl⟩
  | @tail before after earlier change ih =>
      obtain ⟨isLasts, isKept, grown, keeps, blocks⟩ := ih
      obtain ⟨others, current⟩ := Changes.frame earlier
      have held {connection entry : Nat}
          (target : before.target connection = .entry entry) :
          before.db.entry.refs entry ≠ 0 := by
        have most := occurrences_le others current kept.referenced.finite entry
        have fewer := few entry
        exact isKept.referenced.held_ne_zero (one entry) (by omega) target
      have next := change.kept held isKept
      have more := change.count_le
      refine ⟨change.lasts isKept.consistent isLasts, next, grown.trans more,
        fun small entry settled => ?_, fun connection entry settled other
          target => ?_⟩
      · obtain ⟨unstored, ⟨allocated, complete⟩, -⟩ := isLasts entry settled
        have bound := next.bounded.bound
        exact (keeps (by omega) entry settled).trans
          (change.keepsBytes id isKept.consistent isKept.blocks next.blocks
            isKept.placed allocated complete unstored (by omega))
      · obtain ⟨unstored, ⟨allocated, -⟩, -⟩ := isLasts entry settled
        have stays : before.target connection = .entry entry := by
          unfold Work.target
          rw [Work.connections_of_ne others current other]
          exact target
        exact (change.block_of_held allocated unstored (held stays)).trans
          (blocks connection entry settled other target)

end Handlers

section Steps

variable {env : Env} {opened : Nat → Nat} {limit : Nat}
  {before after : Server env.kh} {event : Event}

theorem Work.Alike.trans {kh : KHash} {first second third : Work kh}
    (start : first.Alike second) (goes : second.Alike third) :
    first.Alike third :=
  ⟨start.db.trans goes.db, start.connections.trans goes.connections,
    start.completions.trans goes.completions,
    start.connectionCount.trans goes.connectionCount,
    start.loaded.trans goes.loaded, start.aux.trans goes.aux,
    start.pending.trans goes.pending⟩

theorem Work.Kept.alike {first second : Work env.kh}
    (kept : first.Kept opened limit) (alike : first.Alike second)
    (idle : second.pending = .idle) (null : second.aux = .null) :
    second.Kept opened limit where
  consistent := kept.consistent.alike alike
  referenced := (carries_referenced env (show ¬Steady .opening from id)
    opened).alike alike kept.referenced
  blocks := alike.db ▸ kept.blocks
  bounded := by
    refine ⟨?_, fun storing => ?_⟩
    · rw [← alike.db]
      exact kept.bounded.bound
    · rw [idle] at storing
      cases storing
  placed := by
    refine ⟨?_, fun storing => ?_, fun storing => ?_, fun isEntered => ?_⟩
    · rw [← alike.connections, ← alike.db]
      exact kept.placed.inBlock
    · rw [idle] at storing
      cases storing
    · rw [idle] at storing
      cases storing
    · rw [null] at isEntered
      cases isEntered

/-- The changes of a handler, beside a connection that does not take part. -/
theorem serverStep_changes_beside (aside : Nat) (inside : ¬event.outside)
    (sound : before.Sound) (clear : EventClear env Steady before event)
    (run : serverStep env before event = .ok after) :
    ∃ connection work,
      ((∀ action, event ≠ .request aside action) → aside ≠ connection) ∧
        Changes env.hashString Steady (Work.atRest before connection 0) work ∧
          work.Alike (Work.atRest after connection 0) := by
  have consistent (connection : Nat) :
      (Work.atRest before connection 0).Consistent :=
    (sound.consistent.alike (Work.alike_atRest before 0 connection 0)).atRest
  cases event with
  | request connection action =>
      have beside : (∀ other, Event.request connection action ≠
          .request aside other) → aside ≠ connection := by
        rintro others rfl
        exact others action rfl
      unfold serverStep at run
      dsimp only at run
      split at run
      · next live =>
          simp only [bind_eq_ok, pure_eq_ok] at run
          obtain ⟨session, handles, rfl⟩ := run
          exact ⟨connection, _, beside,
            handle_changes (Work.atRest before connection 0)
              (consistent connection) rfl rfl (sound.fits connection)
              (clear live) handles,
            Work.alike_withSession before connection 0 session⟩
      · obtain rfl := pure_eq_ok.mp run
        exact ⟨connection, _, beside, .refl, Work.alike_atRest before _ _ _⟩
  | signalFlush outcome =>
      unfold serverStep at run
      simp only [bind_eq_ok, pure_eq_ok] at run
      obtain ⟨db, collects, rfl⟩ := run
      have ready : Ready Steady (Work.atRest before (aside + 1) 0) :=
        ⟨consistent _, rfl, rfl, clear⟩
      refine ⟨aside + 1, _, fun _ => (Nat.lt_succ_self aside).ne,
        (dbLruGc_sweeps ready collects).changes, rfl, ?_, rfl, rfl, rfl, rfl,
        rfl⟩
      rw [Work.connections_atRest]
      exact Work.connections_atRest before (aside + 1) 0
  | _ => exact absurd trivial inside

/-- Outside of handlers a connection stays, or is new. -/
theorem serverStep_outside_connections (outside : event.outside)
    (run : serverStep env before event = .ok after) (connection : Nat) :
    after.connections connection = before.connections connection ∨
      (after.connections connection).isWriting = false := by
  unfold serverStep at run
  split at run
  · obtain rfl := pure_eq_ok.mp run
    by_cases new : connection = before.connectionCount
    · right
      subst new
      change (Function.update before.connections before.connectionCount
        newConnection before.connectionCount).isWriting = false
      rw [Function.update_self]
      rfl
    · exact Or.inl (Function.update_of_ne new ..)
  · exact outside.elim
  · obtain rfl := pure_eq_ok.mp run
    exact Or.inl rfl
  · exact outside.elim
  · split at run
    · obtain rfl := pure_eq_ok.mp run
      exact Or.inl rfl
    · obtain rfl := pure_eq_ok.mp run
      exact Or.inl rfl
  · split at run
    · obtain rfl := pure_eq_ok.mp run
      exact Or.inl rfl
    · obtain rfl := pure_eq_ok.mp run
      exact Or.inl rfl
  · split at run
    · obtain rfl := pure_eq_ok.mp run
      exact Or.inl rfl
    · obtain rfl := pure_eq_ok.mp run
      exact Or.inl rfl
  · obtain rfl := pure_eq_ok.mp run
    exact Or.inl rfl

/-- What a step keeps of what is complete, and of what a connection holds that
takes no part. -/
structure StepKeeps (opened : Nat → Nat) (limit aside : Nat)
    (before after : Server env.kh) (event : Event) : Prop where
  kept : (Work.atRest after 0 0).Kept opened limit
  count : before.db.entry.count ≤ after.db.entry.count
  bytes : limit + after.db.entry.count < 1048576 →
    ∀ entry, before.db.entry.Settled entry →
      before.db.KeepsBytes after.db entry
  block : (∀ action, event ≠ .request aside action) → ∀ entry,
    before.db.entry.Settled entry →
      (before.connections aside).target = .entry entry →
        after.db.entry.block entry = before.db.entry.block entry ∧
          (after.connections aside).target = .entry entry

theorem serverStep_keepsBytes (aside : Nat) (sound : before.Sound)
    (kept : (Work.atRest before 0 0).Kept opened limit)
    (one : ∀ entry, opened entry ≤ 1)
    (few : ∀ entry, before.holders entry + 3 < 65536)
    (clear : EventClear env Steady before event)
    (run : serverStep env before event = .ok after) :
    StepKeeps opened limit aside before after event := by
  by_cases outside : event.outside
  · obtain ⟨⟨currentTime, currentUsec, flush, indexSave, same⟩, target, -⟩ :=
      serverStep_outside outside sound run
    have sameEntry : after.db.entry = before.db.entry := by rw [same]; rfl
    have sameBlocks : after.db.blocksExist = before.db.blocksExist := by
      rw [same]; rfl
    have sameFile : after.db.disk.blockfile = before.db.disk.blockfile := by
      rw [same]; rfl
    refine ⟨?_, by rw [sameEntry], fun _ entry _ => Or.inr ⟨by rw [sameEntry],
      fun _ => ?_⟩, fun _ entry _ held => ⟨by rw [sameEntry],
        (congrFun target aside).trans held⟩⟩
    · exact {
        consistent := serverStep_consistent sound clear run
        referenced := (carries_referenced env (show ¬Steady .opening from id)
          opened).outside outside sound run kept.referenced
        blocks := (carries_blocksSound env
          (show ¬Steady .blockCollision from id)).outside outside sound run
            kept.blocks
        bounded := by
          refine ⟨?_, fun storing => by cases storing⟩
          change after.db.blocksExist + Nat.count (fun entry =>
            after.db.entry.block entry = -2) after.db.entry.count ≤
              limit + after.db.entry.count
          rw [sameBlocks, sameEntry]
          exact kept.bounded.bound
        placed := by
          refine ⟨?_, fun storing => ?_, fun storing => ?_,
            fun isEntered => ?_⟩
          rotate_left
          · cases storing
          · cases storing
          · cases isEntered
          intro connection entry
          rw [Work.connections_atRest]
          intro isWriting
          rcases serverStep_outside_connections outside run connection with
            stays | silent
          · rw [stays] at isWriting ⊢
            change _ → _ → InBlock (after.db.entry.block entry) _ _
            rw [sameEntry]
            have inBlock := @Work.WritesPlaced.inBlock _ _ kept.placed connection
              entry
            rw [Work.connections_atRest] at inBlock
            exact inBlock isWriting
          · rw [silent] at isWriting
            cases isWriting }
    · unfold Db.blockBytes
      rw [sameEntry, sameFile]
  · obtain ⟨connection, work, beside, changes, alike⟩ :=
      serverStep_changes_beside aside outside sound clear run
    have start : (Work.atRest before connection 0).Kept opened limit :=
      kept.alike (Work.alike_atRest before 0 connection 0) rfl rfl
    have fewer (entry : Nat) : occurrences
        (Work.atRest before connection 0).target (.entry entry) + 3 < 65536 := by
      rw [Work.target_atRest]
      exact few entry
    have lasts : (Work.atRest before connection 0).Lasts before.db.entry := by
      intro entry settled
      refine ⟨fun storing => ?_, settled, rfl⟩
      cases storing
    obtain ⟨isKept, count, bytes, block⟩ :=
      changes.keepsBytes start one fewer lasts
    have turned := alike.trans (Work.alike_atRest after connection 0 0)
    rw [alike.db] at count bytes block
    refine ⟨isKept.alike turned rfl rfl, count, bytes, fun others entry settled
      held => ⟨?_, ?_⟩⟩
    · refine block aside entry settled (beside others) ?_
      rw [Work.target_atRest]
      exact held
    · have frame := changes.frame
      have stays := Work.connections_of_ne frame.1 frame.2 (beside others)
      rw [alike.connections, Work.connections_atRest, Work.connections_atRest]
        at stays
      rw [stays]
      exact held

end Steps

/-- A step in which no `write` fails and no upload announces less than before,
while no entry has as many holders as its count can tell. -/
structure Undisturbed (server : Server kh) (event : Event) : Prop where
  few : ∀ entry, server.holders entry + 3 < 65536
  announces : AnnouncesMore server event
  succeeds : ∀ connection input written,
    event = .request connection (.requestBody input written) → 0 ≤ written

theorem Undisturbed.clear {env : Env} {server : Server env.kh} {event : Event}
    (undisturbed : Undisturbed server event) :
    EventClear env Steady server event := by
  cases event with
  | request connection action =>
      intro live
      exact {
        lookups := fun _ => Or.inr trivial
        probes := fun _ _ => Or.inl trivial
        sweeps := Or.inl trivial
        room := Or.inl trivial
        entries := fun _ _ _ _ _ => Or.inr trivial
        stores := by
          intro entry length isLength handler isPut held
          have announces : Announces server (.request connection action) entry
              length.val :=
            ⟨connection, length, rfl, by rw [isLength], live, handler, isPut,
              held⟩
          exact {
            live := Or.inr trivial
            grows := Or.inl (undisturbed.announces entry length.val announces)
            sizes := Or.inr trivial
            unnamed := fun _ => Or.inr trivial
            unclaimed := fun _ _ _ _ _ =>
              ⟨Or.inr trivial, Or.inr trivial⟩ }
        fresh := fun _ _ _ _ _ => Or.inr trivial
        keys := fun _ _ _ _ _ => Or.inr trivial
        empties := fun _ _ _ _ _ => Or.inr trivial
        releases := fun _ _ _ => by
          constructor
          · exact fun _ _ _ _ => Or.inr trivial
          · exact fun _ _ _ _ _ _ => Or.inr trivial
        succeeds := fun input written isBody _ =>
          Or.inl (undisturbed.succeeds connection input written (by rw [isBody])) }
  | signalFlush outcome => exact Or.inl trivial
  | _ => trivial

/-- A test of a step, with the connections for the holders of an entry. -/
def undisturbs (server : Server kh) (event : Event) : Bool :=
  decide (server.connectionCount + 3 < 65536) &&
    testsAnnounced server event (fun entry length =>
      decide (server.db.entry.dataLength entry ≤ length)) &&
    match event with
    | .request _ (.requestBody _ written) => decide (0 ≤ written)
    | _ => true

theorem undisturbs_sound {server : Server kh} {event : Event}
    (sound : server.Sound) (passes : undisturbs server event = true) :
    Undisturbed server event := by
  unfold undisturbs at passes
  obtain ⟨passes, succeeds⟩ := Bool.and_eq_true_iff.mp passes
  obtain ⟨few, announces⟩ := Bool.and_eq_true_iff.mp passes
  have few := of_decide_eq_true few
  refine ⟨fun entry => ?_, fun entry length announced => ?_, ?_⟩
  · have most := sound.holders_le entry
    omega
  · exact of_decide_eq_true (testsAnnounced_sound announces announced)
  · rintro connection input written rfl
    exact of_decide_eq_true succeeds

section Runs

variable {env : Env} {disk : Disk} {db : Db env.kh} {directory : Disk → Prop}
  {server later : Server env.kh}

/-- A tested run. -/
theorem leads_of_undisturbs {allows : Server env.kh → Event → Bool}
    {meets : Server env.kh → Event → Prop} (sound : server.Sound)
    (tested : ∀ server event, server.Sound → allows server event = true →
      meets server event)
    (undisturbed : ∀ server event, meets server event →
      Undisturbed server event) {events : List Event}
    (runs : (serverMachine env directory).runWithin allows server events =
      some later) :
    (serverMachine env directory).Leads meets server later :=
  .runWithin_of Server.Sound tested
    (fun server event _ sound passes run =>
      serverStep_sound sound (undisturbed server event passes).clear run)
    sound runs

theorem opened_kept (distinct : DistinctIndex disk)
    (opens : dbOpen env.hashString disk = .ok db) :
    (Server.opened db).Sound ∧
      (Work.atRest (.opened db) 0 0).Kept db.entry.refs db.blocksExist := by
  have clear : IndexClear env.kh env.hashString (fun _ => True) disk :=
    indexClear_all env.hashString disk
  have sound := dbOpen_sound trivial clear opens
  refine ⟨sound, sound.consistent, referenced_opened (dbOpen_loadedOnce opens),
    dbOpen_blocksSound distinct opens, ⟨?_, fun storing => ?_⟩, ?_⟩
  · exact Nat.add_le_add_left (Nat.count_le _) _
  · cases storing
  · refine ⟨?_, fun storing => ?_, fun storing => ?_, fun isEntered => ?_⟩
    · intro connection entry
      rw [Work.connections_atRest]
      intro isWriting
      cases isWriting
    · cases storing
    · cases storing
    · cases isEntered

theorem kept_of_leads (distinct : DistinctIndex disk)
    (opens : dbOpen env.hashString disk = .ok db)
    (leads : (serverMachine env directory).Leads Undisturbed (.opened db)
      server) :
    server.Sound ∧
      (Work.atRest server 0 0).Kept db.entry.refs db.blocksExist := by
  have one := (dbOpen_loadedOnce opens).refs_le
  induction leads with
  | refl => exact opened_kept distinct opens
  | tail _ stepped ih =>
      obtain ⟨event, undisturbed, run⟩ := stepped
      obtain ⟨sound, kept⟩ := ih
      exact ⟨serverStep_sound sound undisturbed.clear run,
        (serverStep_keepsBytes 0 sound kept one undisturbed.few
          undisturbed.clear run).kept⟩

variable (env) in
/-- Nothing writes over what is stored: in every run and every interleaving, a
complete entry keeps its length, and its block with all the bytes, until the
block is released. -/
theorem bytes_of_leads (distinct : DistinctIndex disk)
    (opens : dbOpen env.hashString disk = .ok db)
    (leads : (serverMachine env directory).Leads Undisturbed (.opened db)
      server)
    (goes : (serverMachine env directory).Leads Undisturbed server later)
    (few : db.blocksExist + later.db.entry.count < 1048576) {entry : Nat}
    (settled : server.db.entry.Settled entry) :
    later.db.entry.dataLength entry = server.db.entry.dataLength entry ∧
      server.db.KeepsBytes later.db entry := by
  have one := (dbOpen_loadedOnce opens).refs_le
  suffices all : later.db.entry.Settled entry ∧
      later.db.entry.dataLength entry = server.db.entry.dataLength entry ∧
      server.db.KeepsBytes later.db entry from all.2
  induction goes with
  | refl => exact ⟨settled, rfl, .refl _ entry⟩
  | tail earlier stepped ih =>
      obtain ⟨event, undisturbed, run⟩ := stepped
      obtain ⟨sound, kept⟩ := kept_of_leads distinct opens (leads.trans earlier)
      have keeps := serverStep_keepsBytes 0 sound kept one undisturbed.few
        undisturbed.clear run
      have count := keeps.count
      obtain ⟨stillSettled, length, bytes⟩ := ih (by omega)
      obtain ⟨settledAfter, sameLength⟩ :=
        serverStep_lasts sound run entry stillSettled
      exact ⟨settledAfter, sameLength.trans length,
        bytes.trans (keeps.bytes few entry stillSettled)⟩

variable (env) in
/-- While a connection that holds a complete entry in a block takes no part,
nothing that others do changes the bytes it is going to read. -/
theorem bytes_of_holder (distinct : DistinctIndex disk)
    (opens : dbOpen env.hashString disk = .ok db)
    (leads : (serverMachine env directory).Leads Undisturbed (.opened db)
      server) {connection entry : Nat}
    (held : (server.connections connection).target = .entry entry)
    (goes : (serverMachine env directory).Leads (fun server event =>
      Undisturbed server event ∧ ∀ action, event ≠ .request connection action)
        server later)
    (few : db.blocksExist + later.db.entry.count < 1048576)
    (settled : server.db.entry.Settled entry)
    (stored : 0 ≤ server.db.entry.block entry) :
    (later.connections connection).target = .entry entry ∧
      later.db.entry.dataLength entry = server.db.entry.dataLength entry ∧
      later.db.entry.block entry = server.db.entry.block entry ∧
      later.db.blockBytes entry = server.db.blockBytes entry := by
  have one := (dbOpen_loadedOnce opens).refs_le
  have undisturbed {last : Server env.kh}
      (goes : (serverMachine env directory).Leads (fun server event =>
        Undisturbed server event ∧
          ∀ action, event ≠ .request connection action) server last) :
      (serverMachine env directory).Leads Undisturbed server last :=
    Relation.ReflTransGen.mono
      (fun _ _ ⟨event, meets, run⟩ => ⟨event, meets.1, run⟩) _ _ goes
  obtain ⟨length, bytes⟩ := bytes_of_leads env distinct opens leads
    (undisturbed goes) few settled
  have block : later.db.entry.Settled entry ∧
      (later.connections connection).target = .entry entry ∧
      later.db.entry.block entry = server.db.entry.block entry := by
    clear few length bytes
    induction goes with
    | refl => exact ⟨settled, held, rfl⟩
    | tail earlier stepped ih =>
        obtain ⟨event, ⟨meets, others⟩, run⟩ := stepped
        obtain ⟨sound, kept⟩ := kept_of_leads distinct opens
          (leads.trans (undisturbed earlier))
        have keeps := serverStep_keepsBytes connection sound kept one
          meets.few meets.clear run
        obtain ⟨stillSettled, stillHeld, block⟩ := ih
        obtain ⟨sameBlock, sameTarget⟩ :=
          keeps.block others entry stillSettled stillHeld
        exact ⟨(serverStep_lasts sound run entry stillSettled).1, sameTarget,
          sameBlock.trans block⟩
  obtain ⟨-, target, sameBlock⟩ := block
  rcases bytes with released | ⟨-, same⟩
  · rw [sameBlock] at released
    omega
  · exact ⟨target, length, sameBlock, same stored⟩

end Runs

/-- A test of a step in which a connection takes no part. -/
def undisturbsBeside (connection : Nat) (server : Server kh) (event : Event) :
    Bool :=
  undisturbs server event &&
    match event with
    | .request other _ => decide (other ≠ connection)
    | _ => true

theorem undisturbsBeside_sound {connection : Nat} {server : Server kh}
    {event : Event} (sound : server.Sound)
    (passes : undisturbsBeside connection server event = true) :
    Undisturbed server event ∧ ∀ action, event ≠ .request connection action := by
  obtain ⟨undisturbed, beside⟩ := Bool.and_eq_true_iff.mp passes
  refine ⟨undisturbs_sound sound undisturbed, ?_⟩
  rintro action rfl
  exact of_decide_eq_true beside rfl

/-- A new key is looked up by one connection, and then replaced by another one,
which stores and deletes keys of the index as well. -/
def replacesUnderReader
    (test : Db listHash → Server listHash → Server listHash → Bool) : Bool :=
  endsIn (dbOpen letterHash twoTablesDisk) fun db =>
    ((serverMachine listEnv DistinctIndex).runWithin undisturbs (.opened db)
      ([.accept, .accept] ++ uploads 0 97 120 1 ++ resolves 1 .get 97 120)).any
        fun server =>
          ((serverMachine listEnv DistinctIndex).runWithin (undisturbsBeside 1)
            server (uploads 0 97 120 2 ++ uploads 0 97 107 3 ++
              deletes 0 97 108)).any (test db server)

theorem leads_of_replacesUnderReader
    {test : Db listHash → Server listHash → Server listHash → Bool}
    (replaces : replacesUnderReader test = true) :
    ∃ (db : Db listHash) (server later : Server listHash),
      dbOpen letterHash twoTablesDisk = .ok db ∧
        (serverMachine listEnv DistinctIndex).Leads Undisturbed (.opened db)
          server ∧
        (serverMachine listEnv DistinctIndex).Leads
          (fun server event => Undisturbed server event ∧
            ∀ action, event ≠ .request 1 action) server later ∧
        test db server later = true := by
  obtain ⟨db, opens, reached⟩ := exists_of_endsIn replaces
  obtain ⟨server, runs, reached⟩ := (Option.any_eq_true ..).mp reached
  obtain ⟨later, continues, passes⟩ := (Option.any_eq_true ..).mp reached
  have sound := (opened_kept twoTables_distinct opens).1
  have leads : (serverMachine listEnv DistinctIndex).Leads Undisturbed
      (.opened db) server :=
    leads_of_undisturbs sound (fun _ _ => undisturbs_sound)
      (fun _ _ undisturbed => undisturbed) runs
  have soundServer := (kept_of_leads twoTables_distinct opens leads).1
  exact ⟨db, server, later, opens, leads,
    leads_of_undisturbs soundServer (fun _ _ => undisturbsBeside_sound)
      (fun _ _ meets => meets.1) continues, passes⟩

/-- The entry of the replaced key is in a block that others do not write to. -/
theorem bytes_of_leads_replaced :
    ∃ server later : Server listHash,
      (later.db.entry.deleted 3 = true ∧ later.db.entry.block 3 = 3 ∧
        later.db.entry.block 4 = 1 ∧ later.db.entry.deleted 1 = true) ∧
        later.db.entry.dataLength 3 = server.db.entry.dataLength 3 ∧
        server.db.KeepsBytes later.db 3 := by
  have replaces : replacesUnderReader (fun db server later =>
      decide (server.db.entry.count = 4 ∧ server.db.entry.writing 3 = false ∧
        db.blocksExist + later.db.entry.count < 1048576) &&
      decide (later.db.entry.deleted 3 = true ∧ later.db.entry.block 3 = 3 ∧
        later.db.entry.block 4 = 1 ∧ later.db.entry.deleted 1 = true)) =
        true := by
    decide +kernel
  obtain ⟨db, server, later, opens, leads, goes, passes⟩ :=
    leads_of_replacesUnderReader replaces
  obtain ⟨before, after⟩ := Bool.and_eq_true_iff.mp passes
  obtain ⟨count, complete, few⟩ := of_decide_eq_true before
  have undisturbed : (serverMachine listEnv DistinctIndex).Leads Undisturbed
      server later :=
    Relation.ReflTransGen.mono
      (fun _ _ ⟨event, meets, run⟩ => ⟨event, meets.1, run⟩) _ _ goes
  have settled : server.db.entry.Settled 3 := ⟨by omega, complete⟩
  exact ⟨server, later, of_decide_eq_true after,
    bytes_of_leads listEnv twoTables_distinct opens leads undisturbed few
      settled⟩

/-- The reader of the replaced key finds its first byte where it was. -/
theorem bytes_of_holder_replaced :
    ∃ server later : Server listHash,
      (later.db.entry.deleted 3 = true ∧
        (server.db.blockBytes 3).head? = some 1) ∧
        (later.connections 1).target = .entry 3 ∧
        later.db.entry.block 3 = 3 ∧
        later.db.blockBytes 3 = server.db.blockBytes 3 := by
  have replaces : replacesUnderReader (fun db server later =>
      decide (server.db.entry.count = 4 ∧ server.db.entry.writing 3 = false ∧
        db.blocksExist + later.db.entry.count < 1048576) &&
      decide ((server.connections 1).target = .entry 3 ∧
        server.db.entry.block 3 = 3) &&
      decide (later.db.entry.deleted 3 = true ∧
        (server.db.blockBytes 3).head? = some 1)) = true := by
    decide +kernel
  obtain ⟨db, server, later, opens, leads, goes, passes⟩ :=
    leads_of_replacesUnderReader replaces
  obtain ⟨passes, after⟩ := Bool.and_eq_true_iff.mp passes
  obtain ⟨before, reads⟩ := Bool.and_eq_true_iff.mp passes
  obtain ⟨count, complete, few⟩ := of_decide_eq_true before
  obtain ⟨held, block⟩ := of_decide_eq_true reads
  have settled : server.db.entry.Settled 3 := ⟨by omega, complete⟩
  obtain ⟨stillHeld, -, sameBlock, sameBytes⟩ := bytes_of_holder listEnv
    twoTables_distinct opens leads held goes few settled (by omega)
  exact ⟨server, later, of_decide_eq_true after, stillHeld,
    sameBlock.trans block, sameBytes⟩

end SimpleCache
