import SimpleCache.Unfold.Requests

/-!
# Responses as changes

Ending a request gives up an upload that is not complete and lets go of what
the connection holds; everything else a response does moves the connection on.
-/

namespace SimpleCache

variable {kh : KHash} {hashString : Bytes → UInt32}
  {allowed : Defect → Prop}

/-- What letting go of the target of a connection needs. -/
def ReleaseClear (allowed : Defect → Prop) (db : Db kh) (target : Held) :
    Prop :=
  (∀ table, target = .table table → DropsClear allowed db table) ∧
    ∀ entry table, target = .entry entry → db.entry.table entry = some table →
      DropsClear allowed db table

theorem abandonUpload_changes (work : Work kh) {entry : Nat} {after : Db kh}
    (consistent : work.Consistent) (idle : work.pending = .idle)
    (held : work.connection.target = .entry entry)
    (clear : ∀ table, work.db.entry.table entry = some table →
      DropsClear allowed work.db table)
    (run : abandonUpload work.toSession entry = .ok after) :
    Changes hashString allowed work
        { work with
          db := after
          connection := { work.connection with isWriting := false } } ∧
      (∀ table, after.entry.table entry = some table →
        DropsClear allowed after table) ∧
      (work.connection.isWriting = true →
        after.entry.writing entry = false) := by
  unfold abandonUpload at run
  split at run
  · next isWriting =>
      have ends : ∀ removed : Db kh,
          (removed.setWriting entry false).entry.writing entry = false :=
        fun _ => Function.update_self ..
      split at run
      · next isDeleted =>
          obtain rfl := pure_eq_ok.mp run
          exact ⟨.single (.abandon work entry held isWriting isDeleted), clear,
            fun _ => ends _⟩
      · next fresh =>
          simp only [bind_eq_ok, pure_eq_ok, Prod.exists] at run
          obtain ⟨other, tableDeleted, removal, _, rfl, rfl⟩ := run
          have live : ∀ table, other.entry.table entry = some table →
              other.table.deleted table = false :=
            fun _ => dbEntryHandleDelete_live consistent idle removal
          have isDeleted : other.entry.deleted entry = true := by
            obtain ⟨table, -, -, ⟨-, -, rfl⟩ | ⟨-, -, rfl⟩⟩ :=
              dbEntryHandleDelete_ok removal
            · exact Function.update_self ..
            · rw [removedLast_entry]
              exact Function.update_self ..
          refine ⟨?_, ?_, fun _ => ends _⟩
          · exact (dbEntryHandleDelete_changes work consistent idle
              (Or.inl (by simpa using fresh)) removal).tail
                (.abandon { work with db := other } entry held isWriting
                  isDeleted)
          · intro table inTable _ isDoomed
            have isDoomed : other.table.deleted table = true := isDoomed
            rw [live table inTable] at isDoomed
            simp at isDoomed
  · next reads =>
      obtain rfl := pure_eq_ok.mp run
      have reads : work.connection.isWriting = false := by simpa using reads
      refine ⟨?_, clear, fun isWriting => by simp [reads] at isWriting⟩
      rw [← reads]

/-- `db_target_entry_close` for a connection that does not write. -/
theorem dbTargetEntryClose_changes (work : Work kh) {entry : Nat} {fd : Fd}
    {after : Db kh} (held : work.connection.target = .entry entry)
    (reads : work.connection.isWriting = false) (idle : work.pending = .idle)
    (clear : ∀ table, work.db.entry.table entry = some table →
      DropsClear allowed work.db table)
    (run : dbTargetEntryClose work.db entry fd = .ok after) :
    Changes hashString allowed work
      { work with
        db := after
        connection := { work.connection with target := .null } } := by
  unfold dbTargetEntryClose at run
  have released : Changes hashString allowed work
      { work with
        db := dbEntryDeref work.db entry true
        connection := { work.connection with target := .null } } :=
    release_changes work entry held reads idle clear
  dsimp only at run
  split at run
  · split at run
    · simp only [bind_eq_ok, pure_eq_ok] at run
      obtain ⟨closed, unlinks, rfl⟩ := run
      unfold dbEntryDelete at unlinks
      simp only [bind_eq_ok, pure_eq_ok] at unlinks
      obtain ⟨path, isPath, rfl⟩ := unlinks
      obtain ⟨table, inTable, rfl⟩ := getKeyPath_eq_ok.mp isPath
      exact .head (.unlinkOpen work entry table held inTable)
        (release_changes { work with
          db := unlinkPath work.db (keyPathIn work.db table entry) } entry held
          reads idle clear)
    · obtain rfl := pure_eq_ok.mp run
      exact released
  · obtain rfl := pure_eq_ok.mp run
    exact released

theorem cacheDestroy_changes (work : Work kh) {after : Session kh}
    (consistent : work.Consistent) (idle : work.pending = .idle)
    (clear : after.connection.target = .null →
      ReleaseClear allowed work.db work.connection.target)
    (run : cacheDestroy work.toSession = .ok after) :
    Changes hashString allowed work { work with toSession := after } := by
  unfold cacheDestroy at run
  dsimp only at run
  split at run
  · next entry level held =>
      simp only [bind_eq_ok, pure_eq_ok] at run
      obtain ⟨abandoned, abandons, closed, closing, rfl⟩ := run
      obtain ⟨changes, clearAfter, -⟩ := abandonUpload_changes work consistent
        idle held (fun table => (clear rfl).2 entry table held) abandons
      refine changes.trans ?_
      refine (dbTargetEntryClose_changes { work with
        db := abandoned
        connection := { work.connection with isWriting := false } } held rfl idle
        clearAfter closing).trans ?_
      exact talk_reading work closed _ _ rfl rfl rfl (Or.inl rfl)
  · next table level held =>
      obtain rfl := pure_eq_ok.mp run
      exact dropTable_changes work table held idle
        ((clear rfl).1 table held)
  · obtain rfl := pure_eq_ok.mp run
    exact .refl

theorem finishRequest_changes (work : Work kh) {after : Session kh}
    (consistent : work.Consistent) (idle : work.pending = .idle)
    (clear : after.connection.target = .null →
      ReleaseClear allowed work.db work.connection.target)
    (run : finishRequest work.toSession = .ok after) :
    Changes hashString allowed work { work with toSession := after } := by
  unfold finishRequest at run
  simp only [bind_eq_ok, pure_eq_ok] at run
  obtain ⟨ended, ending, rfl⟩ := run
  have destroys : Changes hashString allowed work
      { work with toSession := ended } :=
    cacheDestroy_changes work consistent idle clear ending
  exact destroys.trans
    (turn_change { work with toSession := ended } _ rfl rfl rfl rfl rfl)

theorem closeConnection_changes (work : Work kh) {after : Session kh}
    (consistent : work.Consistent) (idle : work.pending = .idle)
    (clear : after.connection.target = .null →
      ReleaseClear allowed work.db work.connection.target)
    (run : closeConnection work.toSession = .ok after) :
    Changes hashString allowed work { work with toSession := after } := by
  unfold closeConnection at run
  simp only [bind_eq_ok, pure_eq_ok] at run
  obtain ⟨ended, ending, rfl⟩ := run
  have destroys : Changes hashString allowed work
      { work with toSession := ended } :=
    cacheDestroy_changes work consistent idle clear ending
  exact destroys.trans
    (turn_change { work with toSession := ended } _ rfl rfl rfl rfl rfl)

theorem closeAfter_changes (work : Work kh) (connection : Connection)
    {after : Session kh} (consistent : work.Consistent)
    (idle : work.pending = .idle)
    (clear : after.connection.target = .null →
      ReleaseClear allowed work.db work.connection.target)
    (reads : work.connection.isWriting = false)
    (sameTarget : connection.target = work.connection.target)
    (sameWriting : connection.isWriting = work.connection.isWriting)
    (sameFile : connection.fd = work.connection.fd)
    (run : closeConnection { work.toSession with connection } = .ok after) :
    Changes hashString allowed work { work with toSession := after } := by
  have moves : Changes hashString allowed work { work with connection } :=
    talk_reading work work.db _ connection reads sameTarget sameWriting
      (Or.inr sameFile)
  rw [← sameTarget] at clear
  exact moves.trans (closeConnection_changes { work with connection }
    (moves.consistent consistent) idle clear run)

theorem httpRespondContentbody_changes (work : Work kh)
    {outcome : SendOutcome} {after : Session kh} (consistent : work.Consistent)
    (idle : work.pending = .idle)
    (clear : after.connection.target = .null →
      ReleaseClear allowed work.db work.connection.target)
    (reads : work.connection.isWriting = false)
    (run : httpRespondContentbody work.toSession outcome = .ok after) :
    Changes hashString allowed work { work with toSession := after } := by
  unfold httpRespondContentbody at run
  dsimp only at run
  split at run
  · exact finishRequest_changes work consistent idle clear run
  cases outcome with
  | again =>
      obtain rfl := pure_eq_ok.mp run
      exact .refl
  | failed => exact closeConnection_changes work consistent idle clear run
  | sent count =>
      dsimp only at run
      split at run
      · exact closeConnection_changes work consistent idle clear run
      have moves : Changes hashString allowed work { work with
          connection := { work.connection with
            position := work.connection.position + sentCount work.toSession count
            reply := work.connection.reply ++ [.body
              ((fileOf work.db work.connection.fd).slice
                work.connection.position.toNat
                (sentCount work.toSession count))] } } :=
        talk_reading work work.db _ _ reads rfl rfl (Or.inr rfl)
      split at run
      · exact moves.trans (finishRequest_changes { work with
          connection := { work.connection with
            position := work.connection.position + sentCount work.toSession count
            reply := work.connection.reply ++ [.body
              ((fileOf work.db work.connection.fd).slice
                work.connection.position.toNat
                (sentCount work.toSession count))] } }
          (moves.consistent consistent) idle clear run)
      · obtain rfl := pure_eq_ok.mp run
        exact moves

theorem queue_changes (work : Work kh) (chunk : Chunk) (handler : Handler) :
    Changes hashString allowed work
      { work with toSession := work.toSession.queue chunk handler } :=
  turn_change work _ rfl rfl rfl rfl rfl

theorem httpRespondListing_changes (work : Work kh) {table : Nat}
    {after : Session kh} (consistent : work.Consistent)
    (idle : work.pending = .idle)
    (clear : after.connection.target = .null →
      ReleaseClear allowed work.db work.connection.target)
    (held : work.connection.target = .table table)
    (run : httpRespondListing work.toSession table = .ok after) :
    Changes hashString allowed work { work with toSession := after } := by
  have reads : work.connection.isWriting = false :=
    consistent.holders.reads fun entry isEntry => by simp [held] at isEntry
  unfold httpRespondListing at run
  rw [bind_eq_ok] at run
  obtain ⟨set, -, run⟩ := run
  dsimp only at run
  split at run
  · exact closeAfter_changes work (setListing work.connection _ 0) consistent
      idle clear reads rfl rfl rfl run
  rw [bind_eq_ok] at run
  obtain ⟨⟨limit, found⟩, -, run⟩ := run
  dsimp only at run
  split at run
  · exact closeAfter_changes work (setListing work.connection _ (limit - 1))
      consistent idle clear reads rfl rfl rfl run
  · obtain rfl := pure_eq_ok.mp run
    exact talk_reading work work.db _ _ reads rfl rfl (Or.inr rfl)

/-- The handler that runs once a piece is accepted. -/
theorem runRespond_changes (work : Work kh) {outcome : SendOutcome}
    {after : Session kh} (consistent : work.Consistent)
    (idle : work.pending = .idle)
    (clear : after.connection.target = .null →
      ReleaseClear allowed work.db work.connection.target)
    (reads : work.connection.handler = .respondContentbody →
      work.connection.isWriting = false)
    (run : runRespond work.toSession outcome = .ok after) :
    Changes hashString allowed work { work with toSession := after } := by
  unfold runRespond at run
  split at run
  · obtain rfl := pure_eq_ok.mp run
    exact queue_changes work _ _
  · obtain rfl := pure_eq_ok.mp run
    exact queue_changes work _ _
  · obtain rfl := pure_eq_ok.mp run
    exact queue_changes work _ _
  · next target isBody =>
      exact httpRespondContentbody_changes work consistent idle clear
        (reads isBody) run
  · exact finishRequest_changes work consistent idle clear run
  · exact finishRequest_changes work consistent idle clear run
  · obtain rfl := pure_eq_ok.mp run
    exact queue_changes work _ _
  · unfold httpRespondListingentries at run
    simp only [bind_eq_ok, pure_eq_ok] at run
    obtain ⟨set, -, rfl⟩ := run
    exact queue_changes work _ _
  · unfold httpRespondListingtotal at run
    simp only [bind_eq_ok, pure_eq_ok] at run
    obtain ⟨set, -, rfl⟩ := run
    exact queue_changes work _ _
  · obtain rfl := pure_eq_ok.mp run
    exact queue_changes work _ _
  · next held =>
      exact httpRespondListing_changes work consistent idle clear held run
  · exact closeConnection_changes work consistent idle clear run
  · obtain rfl := pure_eq_ok.mp run
    exact .refl

theorem httpWriteHandle_changes (work : Work kh) {outcome : SendOutcome}
    {after : Session kh} (consistent : work.Consistent)
    (idle : work.pending = .idle)
    (clear : after.connection.target = .null →
      ReleaseClear allowed work.db work.connection.target)
    (reads : work.connection.handler = .respondContentbody →
      work.connection.isWriting = false)
    (run : httpWriteHandle work.toSession outcome = .ok after) :
    Changes hashString allowed work { work with toSession := after } := by
  unfold httpWriteHandle at run
  have accepted : Changes hashString allowed work { work with
      connection := { work.connection with
        output := none
        reply := work.connection.reply ++ work.connection.output.toList } } :=
    turn_change work _ rfl rfl rfl rfl rfl
  exact accepted.trans (runRespond_changes _ (accepted.consistent consistent)
    idle clear reads run)

end SimpleCache
