import SimpleCache.Answers
import SimpleCache.Library.Counting
import SimpleCache.Ownership
import SimpleCache.Restart

/-!
# References to entries

The reference count of an entry is the number of connections that hold it, as
far as 16 bits can tell, and one more for an entry that the index loaded: the
loader takes a reference that nothing gives back.
-/

namespace SimpleCache

variable {kh : KHash}

/-- The reference that running code has taken besides the connections. -/
def Aux.references : Aux → Nat → Nat
  | .entry held _, counted => if held = counted then 1 else 0
  | .entered held, counted => if held = counted then 1 else 0
  | .null, _ | .table _, _ => 0

/-- Every count is that of the holders, of the running code, and of what the
entry was opened with. -/
structure Work.Referenced (opened : Nat → Nat) (work : Work kh) : Prop where
  finite : {connection | work.target connection ≠ .null}.Finite
  allocated : ∀ {entry}, opened entry ≠ 0 → entry < work.db.entry.count
  counted : ∀ entry, work.db.entry.refs entry =
    u16 (occurrences work.target (.entry entry) + work.aux.references entry +
      opened entry)

section Changes

variable {hashString : Bytes → UInt32} {allowed : Defect → Prop}
  {before after : Work kh} {opened : Nat → Nat}

/-- The running connection may hold something else. -/
theorem occurrences_target (others : after.others = before.others)
    (current : after.current = before.current)
    (finite : {connection | before.target connection ≠ .null}.Finite)
    (entry : Nat) :
    occurrences after.target (.entry entry) +
        (if before.connection.target = .entry entry then 1 else 0) =
      occurrences before.target (.entry entry) +
        if after.connection.target = .entry entry then 1 else 0 := by
  rw [Work.target_eq others current, ← before.target_current]
  exact occurrences_update finite (by simp) before.current
    after.connection.target

theorem finite_target (others : after.others = before.others)
    (current : after.current = before.current)
    (finite : {connection | before.target connection ≠ .null}.Finite) :
    {connection | after.target connection ≠ .null}.Finite := by
  rw [Work.target_eq others current]
  exact finite_update finite before.current after.connection.target

/-- A change that moves references between the connection, the running code
and the count of entries. -/
theorem Work.Referenced.move (referenced : before.Referenced opened)
    (others : after.others = before.others)
    (current : after.current = before.current)
    (count : before.db.entry.count ≤ after.db.entry.count)
    (moves : ∀ entry holders,
      before.db.entry.refs entry = u16 (holders +
        (if before.connection.target = .entry entry then 1 else 0) +
        before.aux.references entry + opened entry) →
      after.db.entry.refs entry = u16 (holders +
        (if after.connection.target = .entry entry then 1 else 0) +
        after.aux.references entry + opened entry)) :
    after.Referenced opened where
  finite := finite_target others current referenced.finite
  allocated := fun some_ => (referenced.allocated some_).trans_le count
  counted := by
    intro entry
    have held := occurrences_target others current referenced.finite entry
    have counted := referenced.counted entry
    have least : (if before.connection.target = .entry entry then 1 else 0) ≤
        occurrences before.target (.entry entry) := by
      split
      · next has =>
          have holds : before.target before.current = .entry entry :=
            before.target_current.trans has
          exact occurrences_pos referenced.finite (by simp) holds
      · exact Nat.zero_le _
    have moved := moves entry (occurrences before.target (.entry entry) -
      if before.connection.target = .entry entry then 1 else 0) (by
        rw [counted, Nat.sub_add_cancel least])
    rw [moved]
    congr 3
    omega

/-- A change that moves no reference. -/
theorem Work.Referenced.keep (referenced : before.Referenced opened)
    (others : after.others = before.others)
    (current : after.current = before.current)
    (target : ∀ entry, after.connection.target = .entry entry ↔
      before.connection.target = .entry entry)
    (aux : ∀ entry, after.aux.references entry = before.aux.references entry)
    (count : before.db.entry.count ≤ after.db.entry.count)
    (refs : after.db.entry.refs = before.db.entry.refs) :
    after.Referenced opened := by
  refine referenced.move others current count fun entry holders counted => ?_
  rw [refs, aux, counted]
  simp only [target]

/-- One more reference. -/
theorem refs_inc {refs : Nat → Nat} {entry taken number numberAfter : Nat}
    (counted : refs entry = u16 number)
    (more : numberAfter = number + if taken = entry then 1 else 0) :
    Function.update refs taken (u16 (refs taken + 1)) entry =
      u16 numberAfter := by
  by_cases same : taken = entry
  · subst same
    rw [Function.update_self, counted, more, if_pos rfl]
    unfold u16
    omega
  · rw [Function.update_of_ne (Ne.symm same), counted, more, if_neg same,
      Nat.add_zero]

/-- One reference less, of those that were counted. -/
theorem refs_dec {refs : Nat → Nat} {entry dropped number numberAfter : Nat}
    (counted : refs entry = u16 number)
    (less : number = numberAfter + if dropped = entry then 1 else 0) :
    Function.update refs dropped (u16 (refs dropped + 65535)) entry =
      u16 numberAfter := by
  by_cases same : dropped = entry
  · subst same
    rw [if_pos rfl] at less
    rw [Function.update_self, counted, less]
    unfold u16
    omega
  · rw [if_neg same, Nat.add_zero] at less
    rw [Function.update_of_ne (Ne.symm same), counted, less]

theorem Change.referenced (steps : ¬allowed .opening)
    (consistent : before.Consistent)
    (change : Change hashString allowed before after)
    (referenced : before.Referenced opened) : after.Referenced opened := by
  have same : ∀ connection : Connection,
      connection.target = before.connection.target →
      ∀ entry, connection.target = .entry entry ↔
        before.connection.target = .entry entry := by
    intro connection target entry
    rw [target]
  cases change with
  | talk connection sameTarget =>
      exact referenced.keep rfl rfl (same _ sameTarget) (fun _ => rfl)
        (Nat.le_refl _) rfl
  | takeTable table null =>
      exact referenced.keep rfl rfl (fun entry => by simp [null])
        (fun _ => rfl) (Nat.le_refl _) rfl
  | createTable name hash null =>
      exact referenced.keep rfl rfl (fun entry => by simp [null])
        (fun _ => rfl) (Nat.le_refl _) rfl
  | dropTable table held =>
      exact referenced.keep rfl rfl (fun entry => by simp [held])
        (fun _ => rfl) (Nat.le_refl _) rfl
  | forgetTable table held =>
      exact referenced.keep rfl rfl (fun entry => by simp [held])
        (fun _ => rfl) (Nat.le_refl _) rfl
  | take taken null =>
      refine referenced.move rfl rfl (Nat.le_refl _)
        fun entry holders counted => ?_
      refine refs_inc counted ?_
      simp only [null, Aux.references]
      omega
  | takeWithTable taken table null =>
      refine referenced.move rfl rfl (Nat.le_refl _)
        fun entry holders counted => ?_
      refine refs_inc counted ?_
      simp only [null, Aux.references]
      omega
  | drop dropped withTable held =>
      refine referenced.move rfl rfl (Nat.le_refl _)
        fun entry holders counted => ?_
      refine refs_dec counted ?_
      simp only [held, Aux.references]
      omega
  | dropWithTable dropped table held =>
      refine referenced.move rfl rfl (Nat.le_refl _)
        fun entry holders counted => ?_
      refine refs_dec counted ?_
      simp only [held, Aux.references]
      omega
  | claim claimed table held heldTable =>
      refine referenced.move rfl rfl (Nat.le_refl _)
        fun entry holders counted => ?_
      simpa [held, heldTable, Aux.references] using counted
  | claimWrite claimed table held heldTable =>
      refine referenced.move rfl rfl (Nat.le_refl _)
        fun entry holders counted => ?_
      simpa [held, heldTable, Aux.references] using counted
  | release released table held =>
      refine referenced.move rfl rfl (Nat.le_refl _)
        fun entry holders counted => ?_
      refine refs_dec counted ?_
      simp only [held, Held.entry.injEq, reduceCtorEq, if_false]
      omega
  | releaseDetached released held =>
      refine referenced.move rfl rfl (Nat.le_refl _)
        fun entry holders counted => ?_
      refine refs_dec counted ?_
      simp only [held, Held.entry.injEq, reduceCtorEq, if_false]
      omega
  | enter table new first counted null =>
      have fresh : ∀ connection,
          before.target connection ≠ .entry before.db.entry.count :=
        fun connection held => (consistent.holders.target_entry held).false
      have unopened : opened before.db.entry.count = 0 := by
        by_contra some_
        exact (referenced.allocated some_).false
      have refs : (((before.db.enter table new first).setWriting
          before.db.entry.count true).countOn counted).entry.refs =
            Function.update before.db.entry.refs before.db.entry.count 1 := by
        cases counted <;> rfl
      refine ⟨referenced.finite, fun some_ =>
        (referenced.allocated some_).trans (Nat.lt_succ_self _), fun entry => ?_⟩
      change (((before.db.enter table new first).setWriting
        before.db.entry.count true).countOn counted).entry.refs entry =
          u16 (occurrences before.target (.entry entry) +
            (if before.db.entry.count = entry then 1 else 0) + opened entry)
      rw [refs]
      by_cases same : before.db.entry.count = entry
      · subst same
        rw [Function.update_self, occurrences_eq_zero fresh, if_pos rfl, unopened]
        rfl
      · rw [Function.update_of_ne (Ne.symm same), referenced.counted, null,
          if_neg same]
        rfl
  | load _ _ _ _ _ _ _ _ _ _ _ opening => exact absurd opening steps
  | loadTakeTable _ _ _ _ opening => exact absurd opening steps
  | loadCreateTable _ _ _ _ _ _ opening => exact absurd opening steps
  | loadDropTable _ _ opening => exact absurd opening steps
  | _ =>
      exact referenced.keep rfl rfl (fun _ => Iff.rfl) (fun _ => rfl)
        (Nat.le_refl _) rfl

end Changes

/-- Every allocated entry has one reference, and is whole. -/
structure Db.LoadedOnce (db : Db kh) : Prop where
  refs : ∀ entry,
    db.entry.refs entry = if entry < db.entry.count then 1 else 0
  complete : ∀ entry, db.entry.writing entry = false
  present : ∀ entry, db.entry.freed entry = false

theorem Db.LoadedOnce.of_entry {db after : Db kh} (once : db.LoadedOnce)
    (entry : after.entry = db.entry) : after.LoadedOnce :=
  ⟨by rw [entry]; exact once.refs, by rw [entry]; exact once.complete,
    by rw [entry]; exact once.present⟩

theorem Db.LoadedOnce.refs_le {db : Db kh} (once : db.LoadedOnce)
    (entry : Nat) : db.entry.refs entry ≤ 1 := by
  rw [once.refs]
  split <;> omega

section Loading

variable {hashString : Bytes → UInt32} {tracing next : Tracing kh}
  {names : Bytes → Option Nat} {entries : List Nat} {limit : Nat}

theorem Db.LoadedOnce.load {db : Db kh} (once : db.LoadedOnce)
    (table : Nat) (new : NewEntry) (it : Nat) :
    (db.load table new it).LoadedOnce := by
  have unset {marks : Nat → Bool} (old : ∀ entry, marks entry = false)
      (entry : Nat) :
      Function.update marks db.entry.count false entry = false := by
    by_cases same : entry = db.entry.count
    · rw [same, Function.update_self]
    · rw [Function.update_of_ne same, old]
  refine ⟨fun entry => ?_, unset once.complete, unset once.present⟩
  change Function.update db.entry.refs db.entry.count 1 entry =
    if entry < db.entry.count + 1 then 1 else 0
  by_cases same : entry = db.entry.count
  · subst same
    rw [Function.update_self, if_pos (Nat.lt_succ_self _)]
  · rw [Function.update_of_ne same, once.refs]
    split
    · next old => rw [if_pos (Nat.lt_succ_of_lt old)]
    · next outside => rw [if_neg (by omega)]

/-- A line that names an entry takes a reference to it. -/
theorem traceLine_loadedOnce
    (keeps : tracing.Keeps hashString limit names entries) {line : Bytes}
    (once : tracing.loading.db.LoadedOnce)
    (run : traceLine hashString tracing line = .ok next) :
    next.loading.db.LoadedOnce := by
  unfold traceLine at run
  rw [bind_eq_ok] at run
  obtain ⟨loading, loads, run⟩ := run
  obtain rfl := pure_eq_ok.mp run
  unfold loadLine at loads
  cases parsed : parseLine line with
  | ignored =>
      simp only [parsed] at loads
      obtain rfl := pure_eq_ok.mp loads
      exact once
  | table name =>
      simp only [parsed] at loads
      obtain ⟨short, db, table, written, rfl⟩ := loadTable_ok.mp loads
      obtain ⟨same, -⟩ := keeps.table short (parseLine_table parsed).2 written
      exact once.of_entry same.entry
  | entry block dataLength expires it key =>
      simp only [parsed] at loads
      cases current : tracing.loading.table with
      | none =>
          unfold loadEntry at loads
          rw [current] at loads
          obtain rfl := pure_eq_ok.mp loads
          exact once
      | some table =>
          rw [loadEntry_eq current (keeps.present table)] at loads
          split at loads
          · cases loads
          split at loads
          · obtain rfl := Except.ok.inj loads
            exact once.load table _ it
          · obtain rfl := Except.ok.inj loads
            exact once.of_entry rfl

theorem traceLines_loadedOnce {lines : List Bytes} {final : Tracing kh}
    (keeps : tracing.Keeps hashString limit names entries)
    (once : tracing.loading.db.LoadedOnce)
    (run : traceLines hashString tracing lines = .ok final) :
    final.loading.db.LoadedOnce := by
  induction lines generalizing tracing limit names entries with
  | nil =>
      obtain rfl := pure_eq_ok.mp run
      exact once
  | cons line lines ih =>
      unfold traceLines at run
      rw [List.foldlM_cons, bind_eq_ok] at run
      obtain ⟨next, first, rest⟩ := run
      obtain ⟨limitNext, namesNext, entriesNext, keepsNext, -⟩ :=
        keeps.step first
      exact ih keepsNext (traceLine_loadedOnce keeps once first) rest

/-- After `db_open`, every entry has the one reference of the loader. -/
theorem dbOpen_loadedOnce {disk : Disk} {db : Db kh}
    (run : dbOpen hashString disk = .ok db) : db.LoadedOnce := by
  have nothing : (emptyDb disk : Db kh).LoadedOnce :=
    ⟨fun entry => (if_neg (Nat.not_lt_zero entry)).symm, fun _ => rfl,
      fun _ => rfl⟩
  cases saved : disk.indexSave with
  | none =>
      rw [dbOpen_blank saved] at run
      obtain rfl := Except.ok.inj run
      obtain ⟨freeBlocks, blocksExist, blocksFree, blockfile, isSet⟩ :=
        blankDb_eq (emptyDb disk : Db kh)
      rw [isSet]
      exact nothing.of_entry rfl
  | some text =>
      rw [dbOpen_saved saved] at run
      cases traced : traceLines hashString (Tracing.start (emptyDb disk : Db kh))
          (splitLines text) with
      | error fault =>
          rw [traced] at run
          cases run
      | ok final =>
          rw [traced] at run
          obtain rfl := Except.ok.inj run
          have keeps : (Tracing.start (emptyDb disk : Db kh)).Keeps hashString 1
              (fun _ => none) [] := Tracing.Keeps.start disk
          obtain ⟨_, _, _, keepsFinal⟩ := keeps.taken traced
          have once := traceLines_loadedOnce keeps nothing traced
          have frees := freesUnused final.loading.blockInUse keepsFinal.exist
          have closes := closeLoadedTable_keeps (freeUnused final.loading.db
            final.loading.blockInUse) final.loading.table
          exact once.of_entry (closes.1.trans frees.same.entry)

end Loading

/-- The connections that hold the entry. -/
noncomputable def Server.holders (server : Server kh) (entry : Nat) : Nat :=
  occurrences (fun connection => (server.connections connection).target)
    (.entry entry)

theorem Work.target_atRest (server : Server kh) (current loaded : Nat) :
    (Work.atRest server current loaded).target =
      fun connection => (server.connections connection).target := by
  unfold Work.target
  rw [Work.connections_atRest]

theorem carries_referenced (env : Env) {allowed : Defect → Prop}
    (steps : ¬allowed .opening) (opened : Nat → Nat) :
    Carries env allowed (Work.Referenced opened) where
  change := fun consistent change referenced =>
    change.referenced steps consistent referenced
  alike := by
    rintro first second alike ⟨finite, allocated, counted⟩
    have target : second.target = first.target := by
      unfold Work.target
      rw [alike.connections]
    rw [alike.db] at allocated
    rw [alike.db, ← target, alike.aux] at counted
    rw [← target] at finite
    exact ⟨finite, allocated, counted⟩
  outside := by
    rintro server after event loaded outside sound run
      ⟨finite, allocated, counted⟩
    obtain ⟨⟨currentTime, currentUsec, flush, indexSave, same⟩, target, -⟩ :=
      serverStep_outside outside sound run
    have entry : after.db.entry = server.db.entry := by rw [same]; rfl
    have sameTarget : (Work.atRest after 0 loaded).target =
        (Work.atRest server 0 loaded).target := by
      rw [Work.target_atRest, Work.target_atRest, target]
    rw [← sameTarget] at finite
    refine ⟨finite, ?_, ?_⟩
    · change ∀ {each}, opened each ≠ 0 → each < after.db.entry.count
      rw [entry]
      exact allocated
    · intro each
      rw [sameTarget]
      change after.db.entry.refs each = _
      rw [entry]
      exact counted each

theorem referenced_opened {db : Db kh} (once : db.LoadedOnce) :
    (Work.atRest (.opened db) 0 0).Referenced db.entry.refs where
  finite := by
    rw [Work.target_atRest]
    simp [Server.opened, newConnection]
  allocated := by
    intro entry some_
    by_contra outside
    exact some_ ((once.refs entry).trans (if_neg outside))
  counted := by
    intro entry
    have nobody : occurrences (Work.atRest (.opened db) 0 0).target
        (.entry entry) = 0 := by
      rw [Work.target_atRest]
      refine occurrences_eq_zero fun connection held => ?_
      cases held
    rw [nobody]
    change db.entry.refs entry = u16 (0 + 0 + db.entry.refs entry)
    rw [once.refs]
    split <;> rfl

/-- What is allowed of a run once the index is loaded. -/
def AfterOpening (defect : Defect) : Prop := defect ≠ .opening

theorem eventClear_afterOpening {env : Env} (server : Server env.kh)
    (event : Event) : EventClear env AfterOpening server event :=
  eventClear_all (fun defect outside => by
    rintro rfl
    exact outside trivial) server event

/-- In every run, every entry has as many references as connections hold it,
and one more if the index loaded it. -/
theorem refs_of_leads (env : Env) {disk : Disk} {db : Db env.kh}
    (opens : dbOpen env.hashString disk = .ok db) {directory : Disk → Prop}
    {server : Server env.kh}
    (leads : (serverMachine env directory).Leads Machine.anyStep (.opened db)
      server) (entry : Nat) :
    server.db.entry.refs entry = u16 (server.holders entry +
      if entry < db.entry.count then 1 else 0) := by
  have once := dbOpen_loadedOnce opens
  have steps : ¬AfterOpening .opening := fun opening => opening rfl
  have clear : IndexClear env.kh env.hashString (fun _ => True) disk :=
    indexClear_all env.hashString disk
  have sound := dbOpen_sound trivial clear opens
  have referenced := (carries_referenced env steps db.entry.refs).leads
    (fun server event _ _ => eventClear_afterOpening server event)
    sound (referenced_opened once) leads
  have counted := referenced.counted entry
  rw [Work.target_atRest, once.refs] at counted
  exact counted

/-- A key is uploaded, and is being looked up again. -/
theorem refs_of_leads_read :
    ∃ server : Server listHash,
      (server.connections 0).target = .entry 0 ∧
        server.db.entry.refs 0 = 1 ∧ u16 (server.holders 0) = 1 := by
  have ends : endsWith (.accept :: (uploads 0 97 107 120 ++
      resolves 0 .get 97 107)) (fun server =>
        decide ((server.connections 0).target = .entry 0 ∧
          server.db.entry.refs 0 = 1)) = true := by
    decide +kernel
  unfold endsWith at ends
  split at ends
  · next server run =>
      obtain ⟨held, one⟩ := of_decide_eq_true ends
      have none_ : emptyDisk.indexSave = none := rfl
      have counted := refs_of_leads listEnv (dbOpen_blank none_)
        (Machine.Leads.run (fun _ _ _ => trivial) run) 0
      exact ⟨server, held, one, counted.symm.trans one⟩
  · exact absurd ends Bool.false_ne_true

section Kept

variable {hashString : Bytes → UInt32} {start work : Work kh}
  {entries : EntryHeap} {opened : Nat → Nat} {entry : Nat}

/-- The entry is neither released nor moved. -/
structure EntryHeap.Keeps (before after : EntryHeap) (entry : Nat) : Prop where
  present : after.freed entry = false
  block : after.block entry = before.block entry

theorem Change.frame {allowed : Defect → Prop} {before after : Work kh}
    (change : Change hashString allowed before after) :
    after.others = before.others ∧ after.current = before.current := by
  cases change <;> exact ⟨rfl, rfl⟩

theorem Changes.frame {allowed : Defect → Prop}
    (changes : Changes hashString allowed start work) :
    work.others = start.others ∧ work.current = start.current := by
  induction changes with
  | refl => exact ⟨rfl, rfl⟩
  | tail _ change ih =>
      exact ⟨change.frame.1.trans ih.1, change.frame.2.trans ih.2⟩

/-- A handler adds one holder to an entry at most. -/
theorem occurrences_le (others : work.others = start.others)
    (current : work.current = start.current)
    (finite : {connection | start.target connection ≠ .null}.Finite)
    (entry : Nat) :
    occurrences work.target (.entry entry) ≤
      occurrences start.target (.entry entry) + 1 := by
  have moved := occurrences_target others current finite entry
  split at moved <;> split at moved <;> omega

theorem Aux.references_le (aux : Aux) (entry : Nat) :
    aux.references entry ≤ 1 := by
  have mark (held : Nat) : (if held = entry then 1 else 0) ≤ 1 := by
    by_cases same : held = entry
    · rw [if_pos same]
    · rw [if_neg same]
      exact Nat.zero_le 1
  cases aux with
  | entry held _ => exact mark held
  | entered held => exact mark held
  | _ => exact Nat.zero_le 1

/-- A handler does not release an entry that has one reference more than
holders, and few of them. -/
theorem Changes.keeps
    (changes : Changes hashString AfterOpening start work)
    (consistent : start.Consistent) (referenced : start.Referenced opened)
    (lasts : start.Lasts entries) (settled : entries.Settled entry)
    (one : opened entry = 1)
    (few : occurrences start.target (.entry entry) + 2 < 65535)
    (present : start.db.entry.freed entry = false) :
    start.db.entry.Keeps work.db.entry entry := by
  suffices all : work.Consistent ∧ work.Referenced opened ∧
      work.Lasts entries ∧ start.db.entry.Keeps work.db.entry entry from
    all.2.2.2
  induction changes with
  | refl => exact ⟨consistent, referenced, lasts, present, rfl⟩
  | @tail before after earlier change ih =>
      obtain ⟨isConsistent, isReferenced, isLasts, kept⟩ := ih
      obtain ⟨others, current⟩ := Changes.frame earlier
      refine ⟨change.consistent isConsistent,
        change.referenced (fun opening => opening rfl) isConsistent isReferenced,
        change.lasts isConsistent isLasts, ?_⟩
      obtain ⟨unstored, ⟨allocated, -⟩, -⟩ := isLasts entry settled
      -- it has a reference, so what is released is another entry
      have referencedOnce : before.db.entry.refs entry ≠ 0 := by
        have most := occurrences_le others current referenced.finite entry
        have aux := before.aux.references_le entry
        rw [isReferenced.counted, one]
        unfold u16
        omega
      have heldStill {released : Nat} (unheld : before.db.entry.refs released = 0) :
          entry ≠ released := by
        rintro rfl
        exact referencedOnce unheld
      have storedStill {stored : Nat} (storing : before.pending = .storing stored) :
          entry ≠ stored := by
        rintro rfl
        exact unstored storing
      have old : entry ≠ before.db.entry.count := Nat.ne_of_lt allocated
      cases change with
      | enter table new =>
          exact ⟨(Function.update_of_ne old ..).trans kept.present,
            (Function.update_of_ne old ..).trans kept.block⟩
      | load table new =>
          exact ⟨(Function.update_of_ne old ..).trans kept.present,
            (Function.update_of_ne old ..).trans kept.block⟩
      | free released unheld =>
          exact ⟨(Function.update_of_ne (heldStill unheld) ..).trans
            kept.present, kept.block⟩
      | freeBlock released _ _ _ _ unheld =>
          exact ⟨kept.present,
            (Function.update_of_ne (heldStill unheld) ..).trans kept.block⟩
      | acquireBlock stored _ _ _ _ _ storing =>
          exact ⟨kept.present,
            (Function.update_of_ne (storedStill storing) ..).trans kept.block⟩
      | releaseBlock stored _ _ _ _ storing =>
          exact ⟨kept.present,
            (Function.update_of_ne (storedStill storing) ..).trans kept.block⟩
      | noBlock stored storing =>
          exact ⟨kept.present,
            (Function.update_of_ne (storedStill storing) ..).trans kept.block⟩
      | setLength stored length storing =>
          exact ⟨kept.present,
            (Function.update_of_ne (storedStill storing) ..).trans kept.block⟩
      | _ => exact ⟨kept.present, kept.block⟩

end Kept

/-- A step does not release a loaded entry, held or not. -/
theorem serverStep_keeps {env : Env} {before after : Server env.kh}
    {event : Event} {opened : Nat → Nat} {entry : Nat} (sound : before.Sound)
    (referenced : (Work.atRest before 0 0).Referenced opened)
    (settled : before.db.entry.Settled entry) (one : opened entry = 1)
    (few : before.holders entry + 2 < 65535)
    (present : before.db.entry.freed entry = false)
    (run : serverStep env before event = .ok after) :
    before.db.entry.Keeps after.db.entry entry := by
  by_cases outside : event.outside
  · obtain ⟨⟨currentTime, currentUsec, flush, indexSave, same⟩, -, -⟩ :=
      serverStep_outside outside sound run
    have sameEntry : after.db.entry = before.db.entry := by rw [same]; rfl
    rw [sameEntry]
    exact ⟨present, rfl⟩
  · obtain ⟨connection, work, changes, alike⟩ := serverStep_changes 0 outside
      sound (eventClear_afterOpening before event) run
    have turned := Work.alike_atRest before 0 connection 0
    have steps : ¬AfterOpening .opening := fun opening => opening rfl
    have start := (carries_referenced env steps opened).alike turned referenced
    have holders : occurrences (Work.atRest before connection 0).target
        (.entry entry) + 2 < 65535 := by
      rw [Work.target_atRest]
      exact few
    have keeps := Changes.keeps changes (sound.consistent.alike turned) start
      (fun _ settled => ⟨nofun, settled, rfl⟩) settled one holders present
    rw [alike.db] at keeps
    exact keeps

/-- A block that the index loaded is never free again, also when its entry is
deleted and the last connection that held it has let go: nothing gives back the
reference of the loader. -/
theorem loaded_block_kept (env : Env) {disk : Disk} {db : Db env.kh}
    (distinct : DistinctIndex disk)
    (opens : dbOpen env.hashString disk = .ok db) {entry : Nat}
    (loaded : entry < db.entry.count) (stored : 0 ≤ db.entry.block entry)
    {server : Server env.kh}
    (leads : (serverMachine env DistinctIndex).Leads
      (fun server _ => server.holders entry + 2 < 65535) (.opened db) server) :
    server.db.entry.freed entry = false ∧
      server.db.entry.block entry = db.entry.block entry ∧
      (db.entry.block entry).toNat ∉ server.db.freeBlocks := by
  have once := dbOpen_loadedOnce opens
  have clear : IndexClear env.kh env.hashString (fun _ => True) disk :=
    indexClear_all env.hashString disk
  have steps : ¬AfterOpening .opening := fun opening => opening rfl
  have one : db.entry.refs entry = 1 :=
    (once.refs entry).trans (if_pos loaded)
  have all : server.Sound ∧
      (serverMachine env DistinctIndex).Reachable Machine.anyStep server ∧
      (Work.atRest server 0 0).Referenced db.entry.refs ∧
      server.db.entry.Settled entry ∧
      db.entry.Keeps server.db.entry entry := by
    induction leads with
    | refl =>
        exact ⟨dbOpen_sound trivial clear opens,
          .start ⟨disk, db, distinct, opens, rfl⟩, referenced_opened once,
          ⟨loaded, once.complete entry⟩, once.present entry, rfl⟩
    | tail _ stepped ih =>
        obtain ⟨event, few, run⟩ := stepped
        obtain ⟨sound, reachable, referenced, settled, present, block⟩ := ih
        have isClear {server : Server env.kh} : EventClear env AfterOpening
            server event := eventClear_afterOpening server event
        have keeps := serverStep_keeps sound referenced settled one few present
          run
        exact ⟨serverStep_sound sound isClear run,
          .next reachable (show Machine.anyStep _ event from trivial) run,
          (carries_referenced env steps db.entry.refs).step sound isClear run
            referenced,
          (serverStep_lasts sound run entry settled).1, keeps.present,
          keeps.block.trans block⟩
  obtain ⟨-, reachable, -, -, present, block⟩ := all
  refine ⟨present, block, ?_⟩
  have unlisted := (blocksSound_of_reachable env reachable).unlisted entry
  rw [block] at unlisted
  exact unlisted stored

theorem Server.Sound.holders_le {server : Server kh} (sound : server.Sound)
    (entry : Nat) : server.holders entry ≤ server.connectionCount := by
  have accepted : {connection |
      (server.connections connection).target = .entry entry} ⊆
        (Finset.range server.connectionCount : Set Nat) := by
    intro connection held
    by_contra outside
    have dead := sound.unaccepted connection (by simpa using outside)
    have held : (server.connections connection).target = .entry entry := held
    rw [dead] at held
    cases held
  have most := Set.ncard_le_ncard accepted (Finset.finite_toSet _)
  rw [Set.ncard_coe_finset, Finset.card_range] at most
  exact most

/-- Two keys of the index are in blocks.  One is replaced and the other one
deleted, and nobody holds the entries. -/
theorem loaded_block_kept_deleted :
    ∃ (db : Db listHash) (server : Server listHash),
      dbOpen letterHash twoTablesDisk = .ok db ∧
        (server.db.entry.deleted 0 = true ∧ server.db.entry.deleted 1 = true ∧
          (server.connections 0).target = .null) ∧
        server.db.entry.freed 1 = false ∧ server.db.entry.block 1 = 2 ∧
          2 ∉ server.db.freeBlocks := by
  let few (server : Server listHash) (_ : Event) : Bool :=
    decide (server.connectionCount + 2 < 65535)
  have facts : endsIn (dbOpen letterHash twoTablesDisk) (fun db =>
      decide (db.entry.count = 3 ∧ db.entry.block 1 = 2) &&
        ((serverMachine listEnv DistinctIndex).runWithin few (.opened db)
          replaceUnderReader).any fun server =>
            decide (server.db.entry.deleted 0 = true ∧
              server.db.entry.deleted 1 = true ∧
              (server.connections 0).target = .null)) = true := by
    decide +kernel
  obtain ⟨db, opens, passes⟩ := exists_of_endsIn facts
  obtain ⟨loaded, reached⟩ := Bool.and_eq_true_iff.mp passes
  obtain ⟨count, block⟩ := of_decide_eq_true loaded
  obtain ⟨server, runs, final⟩ := (Option.any_eq_true ..).mp reached
  have sound := dbOpen_sound trivial (indexClear_all letterHash twoTablesDisk)
    opens
  have leads : (serverMachine listEnv DistinctIndex).Leads
      (fun server _ => server.holders 1 + 2 < 65535) (.opened db) server :=
    .runWithin_of Server.Sound
      (fun server event sound few => by
        have most := sound.holders_le 1
        have few := of_decide_eq_true few
        omega)
      (fun server event next sound _ run => serverStep_sound sound
        (eventClear_afterOpening server event) run) sound runs
  have isLoaded : 1 < db.entry.count := by omega
  have kept := loaded_block_kept listEnv twoTables_distinct opens isLoaded
    (by omega) leads
  rw [block] at kept
  exact ⟨db, server, opens, of_decide_eq_true final, kept⟩

end SimpleCache
