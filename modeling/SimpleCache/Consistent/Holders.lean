import SimpleCache.Consistent.Keys
import SimpleCache.Consistent.Tables

/-!
# Holders stay consistent

Every change keeps connections pointing to allocated objects and entries with
at most one writer; with the other parts this gives the consistency of every
work state.
-/

namespace SimpleCache

variable {kh : KHash} {hashString : Bytes → UInt32}
  {allowed : Defect → Prop} {before after : Work kh}

/-- The same targets and writers, with more objects allocated. -/
private theorem HoldersConsistent.grow {target : Nat → Held}
    {isWriting : Nat → Bool} {aux : Aux} {entryCount tableCount : Nat}
    {writing : Nat → Bool}
    (consistent : SimpleCache.HoldersConsistent target isWriting aux
      entryCount tableCount writing)
    {moreEntries moreTables : Nat} (entryLe : entryCount ≤ moreEntries)
    (tableLe : tableCount ≤ moreTables) :
    SimpleCache.HoldersConsistent target isWriting aux moreEntries moreTables
      writing where
  target_table := fun held =>
    (consistent.target_table held).trans_le tableLe
  target_entry := fun held =>
    (consistent.target_entry held).trans_le entryLe
  aux_table := fun held => (consistent.aux_table held).trans_le tableLe
  aux_entry := fun held => (consistent.aux_entry held).trans_le entryLe
  aux_entered := fun held =>
    ⟨(consistent.aux_entered held).1.trans_le entryLe,
      (consistent.aux_entered held).2⟩
  writes := consistent.writes
  writer_unique := consistent.writer_unique
  writer := consistent.writer

/-- A connection that writes nothing moves to another target. -/
private theorem HoldersConsistent.move {target : Nat → Held}
    {isWriting : Nat → Bool} {aux aux' : Aux} {entryCount tableCount : Nat}
    {writing : Nat → Bool} {current : Nat} {held : Held}
    (consistent : SimpleCache.HoldersConsistent target isWriting aux
      entryCount tableCount writing)
    (reads : isWriting current = false)
    (tableLt : ∀ table, held = .table table → table < tableCount)
    (entryLt : ∀ entry, held = .entry entry → entry < entryCount)
    (auxTable : ∀ table, aux' = .table table → table < tableCount)
    (auxEntry : ∀ entry withTable, aux' = .entry entry withTable →
      entry < entryCount)
    (entered : ∀ entry, aux' = .entered entry ↔ aux = .entered entry)
    (notEntered : ∀ entry, aux = .entered entry → held ≠ .entry entry) :
    SimpleCache.HoldersConsistent (Function.update target current held)
      isWriting aux' entryCount tableCount writing := by
  have stays : ∀ {connection}, isWriting connection = true →
      connection ≠ current := by
    rintro connection writes rfl
    rw [reads] at writes
    simp at writes
  exact {
    target_table := by
      intro connection table heldTable
      by_cases same : connection = current
      · subst same
        exact tableLt table (by simpa using heldTable)
      · rw [Function.update_of_ne same] at heldTable
        exact consistent.target_table heldTable
    target_entry := by
      intro connection entry heldEntry
      by_cases same : connection = current
      · subst same
        exact entryLt entry (by simpa using heldEntry)
      · rw [Function.update_of_ne same] at heldEntry
        exact consistent.target_entry heldEntry
    aux_table := fun isTable => auxTable _ isTable
    aux_entry := fun isEntry => auxEntry _ _ isEntry
    aux_entered := by
      intro entry isEntered
      have enteredBefore := (entered entry).mp isEntered
      obtain ⟨entryLt, writing, untargeted⟩ :=
        consistent.aux_entered enteredBefore
      refine ⟨entryLt, writing, fun connection => ?_⟩
      by_cases same : connection = current
      · subst same
        simpa using notEntered entry enteredBefore
      · rw [Function.update_of_ne same]
        exact untargeted connection
    writes := by
      intro connection writes
      rw [Function.update_of_ne (stays writes)]
      exact consistent.writes writes
    writer_unique := by
      intro first second firstWrites secondWrites
      rw [Function.update_of_ne (stays firstWrites),
        Function.update_of_ne (stays secondWrites)]
      exact consistent.writer_unique firstWrites secondWrites
    writer := by
      intro entry writing
      rcases consistent.writer writing with
        isEntered | ⟨connection, writes, heldEntry⟩
      · exact Or.inl ((entered entry).mpr isEntered)
      · refine Or.inr ⟨connection, writes, ?_⟩
        rwa [Function.update_of_ne (stays writes)] }

/-- What running code holds changes, but for entries that wait for their
writer. -/
private theorem HoldersConsistent.withAux {target : Nat → Held}
    {isWriting : Nat → Bool} {aux aux' : Aux} {entryCount tableCount : Nat}
    {writing : Nat → Bool}
    (consistent : SimpleCache.HoldersConsistent target isWriting aux
      entryCount tableCount writing)
    (auxTable : ∀ table, aux' = .table table → table < tableCount)
    (auxEntry : ∀ entry withTable, aux' = .entry entry withTable →
      entry < entryCount)
    (entered : ∀ entry, aux ≠ .entered entry)
    (notEntered : ∀ entry, aux' ≠ .entered entry) :
    SimpleCache.HoldersConsistent target isWriting aux' entryCount tableCount
      writing :=
  { consistent with
    aux_table := fun isTable => auxTable _ isTable
    aux_entry := fun isEntry => auxEntry _ _ isEntry
    aux_entered := fun isEntered => absurd isEntered (notEntered _)
    writer := by
      intro entry writing
      rcases consistent.writer writing with isEntered | written
      · exact absurd isEntered (entered entry)
      · exact Or.inr written }

/-- The writer of an entry stops writing it. -/
private theorem HoldersConsistent.finish {target : Nat → Held}
    {isWriting : Nat → Bool} {aux : Aux} {entryCount tableCount : Nat}
    {writing : Nat → Bool} {current entry : Nat}
    (consistent : SimpleCache.HoldersConsistent target isWriting aux
      entryCount tableCount writing)
    (held : target current = .entry entry)
    (writes : isWriting current = true) :
    SimpleCache.HoldersConsistent target
      (Function.update isWriting current false) aux entryCount tableCount
      (Function.update writing entry false) where
  target_table := consistent.target_table
  target_entry := consistent.target_entry
  aux_table := consistent.aux_table
  aux_entry := consistent.aux_entry
  aux_entered := by
    intro other isEntered
    obtain ⟨otherLt, writing, untargeted⟩ := consistent.aux_entered isEntered
    refine ⟨otherLt, ?_, untargeted⟩
    rw [Function.update_of_ne]
    · exact writing
    · rintro rfl
      exact untargeted current held
  writes := by
    intro connection stillWrites
    obtain ⟨different, stillWrites⟩ := update_false_iff.mp stillWrites
    obtain ⟨other, heldOther, writing⟩ := consistent.writes stillWrites
    refine ⟨other, heldOther, ?_⟩
    rw [Function.update_of_ne]
    · exact writing
    · rintro rfl
      exact different
        (consistent.writer_unique stillWrites writes (heldOther.trans held.symm))
  writer_unique := by
    intro first second firstWrites secondWrites
    exact consistent.writer_unique (update_false_iff.mp firstWrites).2
      (update_false_iff.mp secondWrites).2
  writer := by
    intro other writing
    obtain ⟨different, writing⟩ := update_false_iff.mp writing
    rcases consistent.writer writing with
      isEntered | ⟨connection, stillWrites, heldOther⟩
    · exact Or.inl isEntered
    · refine Or.inr ⟨connection, update_false_iff.mpr ⟨?_, stillWrites⟩,
        heldOther⟩
      rintro rfl
      rw [held] at heldOther
      exact different (Held.entry.inj heldOther).symm

/-- The connection that entered an entry becomes its writer. -/
private theorem HoldersConsistent.claim {target : Nat → Held}
    {isWriting : Nat → Bool} {entryCount tableCount : Nat}
    {writing : Nat → Bool} {current entry : Nat}
    (consistent : SimpleCache.HoldersConsistent target isWriting
      (.entered entry) entryCount tableCount writing)
    (reads : isWriting current = false) :
    SimpleCache.HoldersConsistent
      (Function.update target current (.entry entry))
      (Function.update isWriting current true) .null entryCount tableCount
      writing := by
  obtain ⟨entryLt, entryWriting, untargeted⟩ := consistent.aux_entered rfl
  exact {
    target_table := by
      intro connection table heldTable
      by_cases same : connection = current
      · simp [same] at heldTable
      · rw [Function.update_of_ne same] at heldTable
        exact consistent.target_table heldTable
    target_entry := by
      intro connection other heldEntry
      by_cases same : connection = current
      · subst same
        rw [Function.update_self] at heldEntry
        exact Held.entry.inj heldEntry ▸ entryLt
      · rw [Function.update_of_ne same] at heldEntry
        exact consistent.target_entry heldEntry
    aux_table := fun isTable => by simp at isTable
    aux_entry := fun isEntry => by simp at isEntry
    aux_entered := fun isEntered => by simp at isEntered
    writes := by
      intro connection writes
      by_cases same : connection = current
      · subst same
        exact ⟨entry, Function.update_self .., entryWriting⟩
      · rw [Function.update_of_ne same] at writes ⊢
        exact consistent.writes writes
    writer_unique := by
      intro first second firstWrites secondWrites sameTarget
      by_cases firstSame : first = current
      · by_cases secondSame : second = current
        · rw [firstSame, secondSame]
        · rw [firstSame, Function.update_self,
            Function.update_of_ne secondSame] at sameTarget
          exact absurd sameTarget.symm (untargeted second)
      · by_cases secondSame : second = current
        · rw [secondSame, Function.update_self,
            Function.update_of_ne firstSame] at sameTarget
          exact absurd sameTarget (untargeted first)
        · rw [Function.update_of_ne firstSame] at firstWrites sameTarget
          rw [Function.update_of_ne secondSame] at secondWrites sameTarget
          exact consistent.writer_unique firstWrites secondWrites sameTarget
    writer := by
      intro other otherWriting
      right
      rcases consistent.writer otherWriting with
        isEntered | ⟨connection, writes, heldOther⟩
      · refine ⟨current, by simp, ?_⟩
        rw [Function.update_self, Aux.entered.inj isEntered]
      · have different : connection ≠ current := by
          rintro rfl
          rw [reads] at writes
          simp at writes
        exact ⟨connection, by simpa [different] using writes,
          by simpa [different] using heldOther⟩ }

/-- A connection that holds no entry writes nothing. -/
theorem Work.HoldersConsistent.not_isWriting
    (consistent : before.HoldersConsistent)
    (notEntry : ∀ entry, before.connection.target ≠ .entry entry) :
    before.isWriting before.current = false := by
  cases writes : before.isWriting before.current with
  | false => rfl
  | true =>
      obtain ⟨entry, held, -⟩ := consistent.writes writes
      exact absurd (before.target_current.symm.trans held) (notEntry entry)

/-- The steps from the targets before a change to those after it. -/
private theorem holdersConsistent_of_targets (before : Work kh) {held : Held}
    {writes : Bool} (others : after.others = before.others)
    (current : after.current = before.current)
    (target : after.connection.target = held)
    (isWriting : after.connection.isWriting = writes)
    (consistent : SimpleCache.HoldersConsistent
      (Function.update before.target before.current held)
      (Function.update before.isWriting before.current writes) after.aux
      after.db.entry.count after.db.table.count after.db.entry.writing) :
    after.HoldersConsistent := by
  unfold Work.HoldersConsistent
  rw [Work.target_eq others current, Work.isWriting_eq others current, target,
    isWriting]
  exact consistent

theorem Change.holdersConsistent
    (change : Change hashString allowed before after)
    (keys : before.KeysConsistent) (tables : before.TablesConsistent)
    (consistent : before.HoldersConsistent) : after.HoldersConsistent := by
  have sameTarget : Function.update before.target before.current
      before.connection.target = before.target := by
    rw [← before.target_current, Function.update_eq_self]
  have sameWriting : Function.update before.isWriting before.current
      before.connection.isWriting = before.isWriting := by
    rw [← before.isWriting_current, Function.update_eq_self]
  cases change with
  | talk connection heldSame writingSame =>
      refine holdersConsistent_of_targets before rfl rfl heldSame writingSame ?_
      rw [sameTarget, sameWriting]
      exact consistent
  | takeTable table null registered =>
      obtain ⟨hash, registered⟩ := registered
      refine holdersConsistent_of_targets before rfl rfl rfl rfl ?_
      rw [sameWriting]
      exact HoldersConsistent.move consistent
        (consistent.not_isWriting (by simp [null]))
        (by
          rintro other ⟨⟩
          exact tables.registered_lt registered)
        (by simp) (fun _ => consistent.aux_table)
        (fun _ _ => consistent.aux_entry) (fun _ => Iff.rfl) (by simp)
  | createTable name hash null =>
      refine holdersConsistent_of_targets before rfl rfl rfl rfl ?_
      rw [sameWriting]
      exact HoldersConsistent.move
        (consistent.grow le_rfl (Nat.le_succ _))
        (consistent.not_isWriting (by simp [null]))
        (by
          rintro other ⟨⟩
          exact Nat.lt_succ_self _)
        (by simp)
        (fun _ held => Nat.lt_succ_of_lt (consistent.aux_table held))
        (fun _ _ => consistent.aux_entry) (fun _ => Iff.rfl) (by simp)
  | dropTable table held =>
      refine holdersConsistent_of_targets before rfl rfl rfl rfl ?_
      rw [sameWriting]
      exact HoldersConsistent.move consistent
        (consistent.not_isWriting (by simp [held])) (by simp) (by simp)
        (fun _ => consistent.aux_table) (fun _ _ => consistent.aux_entry)
        (fun _ => Iff.rfl) (by simp)
  | forgetTable table held =>
      refine holdersConsistent_of_targets before rfl rfl rfl rfl ?_
      rw [sameWriting]
      exact HoldersConsistent.move consistent
        (consistent.not_isWriting (by simp [held])) (by simp) (by simp)
        (fun _ => consistent.aux_table) (fun _ _ => consistent.aux_entry)
        (fun _ => Iff.rfl) (by simp)
  | loadTakeTable table null registered =>
      obtain ⟨hash, registered⟩ := registered
      refine HoldersConsistent.withAux consistent ?_ (by simp)
        (by simp [null]) (by simp)
      rintro other ⟨⟩
      exact tables.registered_lt registered
  | loadCreateTable name hash null =>
      refine HoldersConsistent.withAux
        (consistent.grow le_rfl (Nat.le_succ _)) ?_ (by simp)
        (by simp [null]) (by simp)
      rintro other ⟨⟩
      exact Nat.lt_succ_self _
  | loadDropTable table held =>
      exact HoldersConsistent.withAux consistent (by simp) (by simp)
        (by simp [held]) (by simp)
  | take entry null inTable =>
      refine HoldersConsistent.withAux consistent (by simp) ?_
        (by simp [null]) (by simp)
      rintro other withTable ⟨⟩
      obtain ⟨table, inTable⟩ := Option.ne_none_iff_exists'.mp inTable
      exact (keys.table_lt inTable).1
  | takeWithTable entry table null inTable =>
      refine HoldersConsistent.withAux consistent (by simp) ?_
        (by simp [null]) (by simp)
      rintro other withTable ⟨⟩
      exact (keys.table_lt inTable).1
  | drop entry withTable held =>
      exact HoldersConsistent.withAux consistent (by simp) (by simp)
        (by simp [held]) (by simp)
  | dropWithTable entry table held =>
      exact HoldersConsistent.withAux consistent (by simp) (by simp)
        (by simp [held]) (by simp)
  | claim entry table held heldTable =>
      refine holdersConsistent_of_targets before rfl rfl rfl rfl ?_
      rw [sameWriting]
      exact HoldersConsistent.move consistent
        (consistent.not_isWriting (by simp [heldTable])) (by simp)
        (by
          rintro other ⟨⟩
          exact consistent.aux_entry held)
        (by simp) (by simp) (by simp [held]) (by simp [held])
  | claimWrite entry table held heldTable =>
      refine holdersConsistent_of_targets before rfl rfl rfl rfl ?_
      have entered := consistent
      unfold Work.HoldersConsistent at entered
      rw [held] at entered
      exact HoldersConsistent.claim entered
        (consistent.not_isWriting (by simp [heldTable]))
  | release entry table held notWriting =>
      refine holdersConsistent_of_targets before rfl rfl rfl rfl ?_
      rw [sameWriting]
      exact HoldersConsistent.move consistent
        (before.isWriting_current.trans notWriting) (by simp) (by simp)
        (fun _ => consistent.aux_table) (fun _ _ => consistent.aux_entry)
        (fun _ => Iff.rfl) (by simp)
  | releaseDetached entry held notWriting =>
      refine holdersConsistent_of_targets before rfl rfl rfl rfl ?_
      rw [sameWriting]
      exact HoldersConsistent.move consistent
        (before.isWriting_current.trans notWriting) (by simp) (by simp)
        (fun _ => consistent.aux_table) (fun _ _ => consistent.aux_entry)
        (fun _ => Iff.rfl) (by simp)
  | enter table new first counted null =>
      have fresh : ∀ connection,
          before.target connection ≠ .entry before.db.entry.count :=
        fun connection held => (consistent.target_entry held).false
      have old : ∀ {entry}, before.db.entry.writing entry = true →
          entry ≠ before.db.entry.count := by
        rintro entry writing rfl
        rcases consistent.writer writing with
          isEntered | ⟨connection, -, held⟩
        · simp [null] at isEntered
        · exact fresh connection held
      have writing : ((before.db.enter table new first).setWriting
          before.db.entry.count true).entry.writing =
            Function.update before.db.entry.writing before.db.entry.count
              true := by
        simp [Db.setWriting, Db.enter, dbEntryNew]
      have grown := consistent.grow (Nat.le_succ before.db.entry.count)
        (le_refl before.db.table.count)
      change SimpleCache.HoldersConsistent _ _ _ _ _
        ((before.db.enter table new first).setWriting
          before.db.entry.count true).entry.writing
      rw [writing]
      exact {
        grown with
        aux_table := fun isTable => by simp at isTable
        aux_entry := fun isEntry => by simp at isEntry
        aux_entered := by
          rintro entry ⟨⟩
          exact ⟨Nat.lt_succ_self _, Function.update_self .., fresh⟩
        writes := by
          intro connection writes
          obtain ⟨entry, held, writing⟩ := consistent.writes writes
          exact ⟨entry, held, update_true_iff.mpr (Or.inr writing)⟩
        writer := by
          intro entry writing
          rcases update_true_iff.mp writing with rfl | writing
          · exact Or.inl rfl
          · rcases consistent.writer writing with isEntered | written
            · simp [null] at isEntered
            · exact Or.inr written }
  | load table new it held =>
      have grown := consistent.grow (Nat.le_succ before.db.entry.count)
        (le_refl before.db.table.count)
      have notWriting : before.db.entry.writing before.db.entry.count =
          false := by
        cases writing : before.db.entry.writing before.db.entry.count with
        | false => rfl
        | true =>
            rcases consistent.writer writing with
              isEntered | ⟨connection, -, heldEntry⟩
            · simp [held] at isEntered
            · exact absurd (consistent.target_entry heldEntry)
                (lt_irrefl _)
      have same : Function.update before.db.entry.writing
          before.db.entry.count false = before.db.entry.writing := by
        rw [← notWriting, Function.update_eq_self]
      change SimpleCache.HoldersConsistent _ _ _ _ _
        (Function.update before.db.entry.writing before.db.entry.count false)
      rw [same]
      exact grown
  | complete entry held writes =>
      refine holdersConsistent_of_targets before rfl rfl rfl rfl ?_
      rw [sameTarget]
      exact HoldersConsistent.finish consistent
        (before.target_current.trans held)
        (before.isWriting_current.trans writes)
  | abandon entry held writes =>
      refine holdersConsistent_of_targets before rfl rfl rfl rfl ?_
      rw [sameTarget]
      exact HoldersConsistent.finish consistent
        (before.target_current.trans held)
        (before.isWriting_current.trans writes)
  | openRead | beginStoring | createFile | endStoring | write | writeFails =>
      refine holdersConsistent_of_targets before rfl rfl rfl rfl ?_
      rw [sameTarget, sameWriting]
      exact consistent
  | _ => exact consistent

theorem Change.consistent (change : Change hashString allowed before after)
    (consistent : before.Consistent) : after.Consistent where
  tables := change.tablesConsistent consistent.tables
  keys := change.keysConsistent consistent.holders consistent.keys
  holders := change.holdersConsistent consistent.keys consistent.tables
    consistent.holders

theorem Changes.consistent (changes : Changes hashString allowed before after)
    (consistent : before.Consistent) : after.Consistent := by
  induction changes with
  | refl => exact consistent
  | tail _ change ih => exact change.consistent ih

end SimpleCache
