import SimpleCache.Unfold.Lookup
import SimpleCache.Unfold.Storage

/-!
# Handlers as changes

Every handler of a connection is a sequence of changes, as far as the
situation it runs in stays clear of the defects that are not allowed.
-/

namespace SimpleCache

variable {kh : KHash} {hashString : Bytes → UInt32}
  {allowed : Defect → Prop}

/-- A connection that reads moves on, and may change its range. -/
theorem talk_reading (work : Work kh) (db : Db kh) (before after : Connection)
    (reads : before.isWriting = false)
    (sameTarget : after.target = before.target)
    (sameWriting : after.isWriting = before.isWriting)
    (sameFile : after.target = .null ∨ after.fd = before.fd) :
    Changes hashString allowed { work with db, connection := before }
      { work with db, connection := after } :=
  .single (.talk { work with db, connection := before } after sameTarget
    sameWriting sameFile fun writes => by
      rw [sameWriting, reads] at writes
      simp at writes)

/-- A lookup without an entry drops the table. -/
private theorem holdNone_changes (work : Work kh) {table : Nat}
    (connection : Connection) (held : work.connection.target = .table table)
    (reads : work.connection.isWriting = false) (idle : work.pending = .idle)
    (clear : DropsClear allowed work.db table)
    (null : connection.target = .null)
    (sameWriting : connection.isWriting = work.connection.isWriting) :
    Changes hashString allowed work
      { work with
        db := dbTableDeref work.db table false
        connection } :=
  (dropTable_changes work table held idle clear).trans
    (talk_reading work _ _ connection reads null sameWriting (Or.inl null))

theorem dbTargetOpen_read {db after : Db kh} {entry : Nat} {target : Target}
    (run : dbTargetOpen db entry false = .ok (after, target)) : after = db := by
  unfold dbTargetOpen at run
  dsimp only at run
  split at run
  · simp only [Bool.false_eq_true, if_false, bind_eq_ok] at run
    obtain ⟨fd, -, opened, openedEq, run⟩ := run
    obtain rfl := pure_eq_ok.mp openedEq
    exact (Prod.mk.inj (pure_eq_ok.mp run)).1.symm
  · exact (Prod.mk.inj (pure_eq_ok.mp run)).1.symm

/-- A lookup for reading or deleting exchanges the table for the entry, and
opens it. -/
private theorem holdRead_changes (work : Work kh) {table entry : Nat}
    {after : Db kh} {target : Target} (connection : Connection)
    (held : work.connection.target = .table table)
    (heldEntry : work.aux = .entry entry false)
    (reads : work.connection.isWriting = false)
    (inTable : work.db.entry.table entry = some table)
    (opened : dbTargetOpen work.db entry false = .ok (after, target))
    (targetEq : connection.target = .entry entry)
    (fdEq : connection.fd = target.fd)
    (writingEq : connection.isWriting = work.connection.isWriting)
    (positionEq : connection.position = target.position)
    (endEq : connection.endPosition = target.endPosition) :
    Changes hashString allowed work
      { work with
        db := after
        connection
        aux := .null } := by
  obtain rfl := dbTargetOpen_read opened
  refine .head (.claim work entry table heldEntry held inTable) ?_
  refine .head (.openRead _ entry target rfl reads opened) ?_
  refine .single (.talk _ connection targetEq writingEq (Or.inr fdEq) fun _ =>
    ⟨positionEq, endEq⟩)

/-- `holdEntry` for a connection that does not upload. -/
private theorem holdEntry_changes (work : Work kh) {session after : Session kh}
    {table : Nat} {entry : Option Nat}
    (held : work.connection.target = .table table)
    (reads : work.connection.isWriting = false) (idle : work.pending = .idle)
    (null : work.aux = .null)
    (notPut : session.connection.method ≠ some .put)
    (sameWriting : session.connection.isWriting = work.connection.isWriting)
    (outcome : (entry = none ∧ DropsClear allowed session.db table ∧
        Changes hashString allowed work { work with db := session.db }) ∨
      ∃ taken, entry = some taken ∧
        session.db.entry.table taken = some table ∧
        Changes hashString allowed work
          { work with
            db := session.db
            aux := .entry taken false })
    (completions : session.completions = work.completions)
    (run : holdEntry session table entry = .ok after) :
    Changes hashString allowed work { work with toSession := after } := by
  obtain ⟨db, connection, _⟩ := session
  subst completions
  unfold holdEntry at run
  rcases outcome with ⟨rfl, clear, finds⟩ | ⟨taken, rfl, inTable, finds⟩
  · obtain rfl := pure_eq_ok.mp run
    exact finds.trans (holdNone_changes { work with db } _ held reads idle clear
      rfl sameWriting)
  · dsimp only at run notPut
    rw [if_neg notPut] at run
    simp only [bind_eq_ok, pure_eq_ok, Prod.exists] at run
    obtain ⟨opened, target, opening, rfl⟩ := run
    have holds : Changes hashString allowed
        { work with
          db
          aux := .entry taken false } _ :=
      holdRead_changes _
        { connection with
          target := .entry taken
          level := .key
          handler := .handleHttpversion
          fd := target.fd
          position := target.position
          endPosition := target.endPosition }
        held rfl reads inTable opening rfl rfl sameWriting rfl rfl
    rw [← null] at holds
    exact finds.trans holds

theorem tableOfKey_changes (work : Work kh) {method : Option Method}
    {name : Bytes} {after : Db kh} {table : Option Nat}
    (null : work.connection.target = .null)
    (fits : LookupsFit allowed work.db)
    (probes : ProbesFit hashString allowed work.db name)
    (short : name.length < 16384)
    (run : tableOfKey hashString method work.db name = .ok (after, table)) :
    Changes hashString allowed work
      { work with
        db := after
        connection :=
          { work.connection with
            target := (table.map Held.table).getD .null } } := by
  unfold tableOfKey at run
  split at run
  · exact dbTableGetRead_changes work null fits run
  · exact dbTableGetRead_changes work null fits run
  · exact dbTableGetRead_changes work null fits run
  · simp only [bind_eq_ok, pure_eq_ok, Prod.exists, Prod.mk.injEq] at run
    obtain ⟨found, table, lookup, rfl, rfl⟩ := run
    exact dbTableGetWrite_changes work null fits probes short lookup

theorem httpReadTableSegment_changes (work : Work kh) {name : Bytes}
    {after : Session kh} (null : work.connection.target = .null)
    (fits : LookupsFit allowed work.db)
    (probes : ProbesFit hashString allowed work.db name)
    (short : name.length < 16384)
    (run : httpReadTableSegment hashString work.toSession name = .ok after) :
    Changes hashString allowed work { work with toSession := after } := by
  unfold httpReadTableSegment at run
  simp only [bind_eq_ok, Prod.exists] at run
  obtain ⟨found, table, lookup, run⟩ := run
  have finds : Changes hashString allowed work _ :=
    tableOfKey_changes work null fits probes short lookup
  cases table with
  | none =>
      obtain rfl := pure_eq_ok.mp run
      exact finds.trans (.single (.talk _ _ rfl rfl (Or.inr rfl)
        fun _ => ⟨rfl, rfl⟩))
  | some table =>
      obtain rfl := pure_eq_ok.mp run
      exact finds.trans (.single (.talk _ _ rfl rfl (Or.inr rfl)
        fun _ => ⟨rfl, rfl⟩))

theorem holdTable_changes (work : Work kh) {name : Bytes}
    {after : Session kh} (consistent : work.Consistent)
    (null : work.connection.target = .null)
    (fits : LookupsFit allowed work.db)
    (run : holdTable hashString work.toSession name = .ok after) :
    Changes hashString allowed work { work with toSession := after } := by
  unfold holdTable at run
  simp only [bind_eq_ok, pure_eq_ok, Prod.exists] at run
  obtain ⟨found, table, lookup, rfl⟩ := run
  have reads : work.connection.isWriting = false :=
    consistent.holders.reads fun entry held => by simp [null] at held
  exact (dbTableGetRead_changes work null fits lookup).trans
    (talk_reading work found _ _ reads rfl rfl (Or.inr rfl))

/-- A connection waits for the end of the line. -/
theorem turn_change (work : Work kh) (connection : Connection)
    (sameTarget : connection.target = work.connection.target)
    (sameWriting : connection.isWriting = work.connection.isWriting)
    (sameFile : connection.fd = work.connection.fd)
    (samePosition : connection.position = work.connection.position)
    (sameEnd : connection.endPosition = work.connection.endPosition) :
    Changes hashString allowed work { work with connection } :=
  .single (.talk work connection sameTarget sameWriting (Or.inr sameFile)
    fun _ => ⟨samePosition, sameEnd⟩)

theorem httpReadTableOnly_changes {env : Env} (work : Work env.kh)
    {name : Bytes} {outcome : FlushOutcome} {after : Session env.kh}
    (ready : Ready allowed work) (null : work.connection.target = .null)
    (fits : LookupsFit allowed work.db)
    (run : httpReadTableOnly env work.toSession name outcome = .ok after) :
    Changes env.hashString allowed work { work with toSession := after } := by
  unfold httpReadTableOnly at run
  have table : (if name = [] then
      pure { work.toSession with connection.level := .table }.statsAfterEol
      else holdTable env.hashString work.toSession name) =
        Except.ok (ε := Fault) after →
      Changes env.hashString allowed work { work with toSession := after } := by
    intro run
    split at run
    · obtain rfl := pure_eq_ok.mp run
      exact turn_change work _ rfl rfl rfl rfl rfl
    · exact holdTable_changes work ready.consistent null fits run
  split at run
  · exact table run
  · exact table run
  · exact table run
  · split at run
    · simp only [bind_eq_ok, pure_eq_ok] at run
      obtain ⟨collected, collection, rfl⟩ := run
      exact (dbLruGc_sweeps ready collection).changes.trans
        (turn_change _ _ rfl rfl rfl rfl rfl)
    · obtain rfl := pure_eq_ok.mp run
      exact turn_change work _ rfl rfl rfl rfl rfl
  · obtain rfl := pure_eq_ok.mp run
    exact turn_change work _ rfl rfl rfl rfl rfl

theorem httpKeyLookup_changes {env : Env} (work : Work env.kh)
    {table : Nat} {key : Bytes} {outcome : FlushOutcome}
    {after : Session env.kh} (ready : Ready allowed work)
    (room : RefsRoom allowed work.db)
    (fits : EntryFits allowed work.db table (env.hashString key))
    (keys : work.connection.method = some .put → KeysRoom allowed work.db)
    (held : work.connection.target = .table table)
    (run : httpKeyLookup env work.toSession table key outcome = .ok after) :
    Changes env.hashString allowed work { work with toSession := after } := by
  have reads : work.connection.isWriting = false :=
    ready.consistent.holders.reads fun entry heldEntry => by
      simp [held] at heldEntry
  unfold httpKeyLookup at run
  cases method : work.connection.method with
  | none =>
      simp only [method] at run
      obtain rfl := pure_eq_ok.mp run
      exact .single (writeResponseAfterEol_change work .fullInvalidMethod)
  | some method' =>
      cases method' with
      | get | head =>
          simp only [method, bind_eq_ok, Prod.exists] at run
          obtain ⟨found, entry, lookup, run⟩ := run
          refine holdEntry_changes work held reads ready.idle ready.null ?_ ?_ ?_
            ?_ run
          · simp
          · rfl
          · exact dbEntryGetRead_changes work ready.consistent ready.idle
              ready.null fits lookup
          · rfl
      | put =>
          simp only [method, bind_eq_ok, Prod.exists] at run
          obtain ⟨found, entry, lookup, run⟩ := run
          rcases dbEntryGetWrite_changes work ready room (keys method) held lookup with
            ⟨rfl, live, finds⟩ | ⟨entered, rfl, enters⟩
          · obtain rfl := pure_eq_ok.mp run
            refine finds.trans (holdNone_changes { work with db := found } _
              held reads ready.idle ?_ rfl reads.symm)
            intro _ isDeleted
            simp [live] at isDeleted
          · simp only [holdEntry, if_true] at run
            obtain rfl := pure_eq_ok.mp run
            exact enters.trans (.single (.talk _ _ rfl rfl (Or.inr rfl)
              fun _ => ⟨rfl, rfl⟩))
      | delete =>
          simp only [method, bind_eq_ok, Prod.exists] at run
          obtain ⟨found, entry, lookup, run⟩ := run
          obtain ⟨tableEq, tablesEq, present, outcome⟩ :=
            dbEntryGetDelete_changes work ready.consistent ready.null fits
              lookup
          refine holdEntry_changes work held reads ready.idle ready.null ?_ ?_ ?_
            ?_ run
          · simp
          · rfl
          · rcases outcome with ⟨rfl, finds⟩ | ⟨taken, rfl, inTable, -, finds⟩
            · refine Or.inl ⟨rfl, ?_, finds⟩
              intro _ isDeleted
              rw [tableEq, ready.consistent.live ready.idle present] at isDeleted
              simp at isDeleted
            · exact Or.inr ⟨taken, rfl, inTable, finds⟩
          · rfl
      | purge | admin =>
          simp only [method] at run
          obtain rfl := pure_eq_ok.mp run
          exact .single (writeResponseAfterEol_change work .fullInvalidMethod)

theorem expires_change (work : Work kh) (expires : Nat → Int) :
    Change hashString allowed work
      { work with db.entry.expires := expires } :=
  .bookkeep work work.db.statsInserts work.db.statsGets work.db.statsDeletes
    work.db.statsOperations work.db.tableGc work.db.nextit
    work.db.flush.currentFlush work.db.flush.lastFlushMs
    work.db.flush.flushPending expires

theorem readTtl_changes (work : Work kh) (value : Option Digits) :
    Changes hashString allowed work
      { work with toSession := readTtl work.toSession value } := by
  unfold readTtl
  split
  · exact .single (writeResponse_change work .fullInvalidMethod)
  · split
    · exact .refl
    · exact .single (expires_change work _)
  · exact .refl

/-- `X-Limit` and `X-Start`, which overlay the position. -/
theorem readListingBound_changes (work : Work kh) (value : Option Digits)
    (store : Connection → Nat → Connection)
    (reads : work.connection.isWriting = false)
    (stores : ∀ bound, ∃ start limit,
      store work.connection bound = setListing work.connection start limit) :
    Changes hashString allowed work
      { work with toSession := readListingBound work.toSession value store } := by
  unfold readListingBound
  cases value with
  | none => exact .single (writeResponse_change work .fullInvalidMethod)
  | some bound =>
      obtain ⟨start, limit, eq⟩ := stores bound.val
      dsimp only
      rw [eq]
      exact talk_reading work work.db work.connection _ reads rfl rfl
        (Or.inr rfl)

theorem readDelete_changes (work : Work kh) {table : Nat} {key : Bytes}
    {after : Session kh} (consistent : work.Consistent)
    (idle : work.pending = .idle) (null : work.aux = .null)
    (held : work.connection.target = .table table)
    (fits : EntryFits allowed work.db table (hashString key))
    (run : readDelete hashString work.toSession table key = .ok after) :
    Changes hashString allowed work { work with toSession := after } := by
  unfold readDelete at run
  simp only [bind_eq_ok, Prod.exists] at run
  obtain ⟨found, entry, lookup, run⟩ := run
  obtain ⟨-, -, -, outcome⟩ :=
    dbEntryGetDelete_changes work consistent null fits lookup
  rcases outcome with ⟨rfl, finds⟩ | ⟨taken, rfl, inTable, fresh, finds⟩
  · obtain rfl := pure_eq_ok.mp run
    exact finds
  · simp only [bind_eq_ok, pure_eq_ok, Prod.exists] at run
    obtain ⟨removed, tableDeleted, removal, rfl⟩ := run
    have removes : Changes hashString allowed
        { work with
          db := found
          aux := .entry taken false }
        { work with
          db := removed
          aux := .entry taken false } :=
      dbEntryHandleDelete_changes _ (finds.consistent consistent) idle
        (Or.inl fresh) removal
    have drops : Changes hashString allowed
        { work with
          db := removed
          aux := .entry taken false }
        { work with
          db := dbEntryDeref removed taken false
          aux := .null } :=
      dropEntry_changes _ taken rfl
    rw [← null] at drops
    refine finds.trans (removes.trans (drops.trans ?_))
    obtain ⟨other, otherEq, -, ⟨-, rfl, -⟩ | ⟨-, rfl, rfl⟩⟩ :=
      dbEntryHandleDelete_ok removal
    · refine turn_change _ _ ?_ rfl rfl rfl rfl
      exact held.symm
    · obtain rfl : other = table :=
        Option.some.inj (otherEq.symm.trans inTable)
      have gone : (dbEntryDeref (found.removedLast other taken) taken
          false).table.destroyed other = true := by
        rw [dbEntryDeref_false_table, removedLast_destroyed]
        exact Function.update_self ..
      exact .single (.forgetTable { work with
        db := dbEntryDeref (found.removedLast other taken) taken false } other
        held gone)

theorem httpReadHeaderExtraction_changes (work : Work kh) {header : Header}
    {after : Session kh} (consistent : work.Consistent)
    (idle : work.pending = .idle) (null : work.aux = .null)
    (uploads : work.connection.method = some .put →
      work.connection.level = .key →
        ∀ entry, work.connection.target = .entry entry →
          work.connection.isWriting = true)
    (stays : work.connection.level = .table →
      ∀ entry, work.connection.target ≠ .entry entry)
    (stores : ∀ entry length, header = .contentLength (some length) →
      work.connection.method = some .put → work.connection.level = .key →
        work.connection.target = .entry entry →
          StoresClear hashString allowed work.db entry length.val)
    (fits : ∀ table key, header = .xDelete key →
      work.connection.target = .table table →
        EntryFits allowed work.db table (hashString key.val))
    (run : httpReadHeaderExtraction hashString work.toSession header =
      .ok after) :
    Changes hashString allowed work { work with toSession := after } := by
  have reads : work.connection.level = .table →
      work.connection.isWriting = false := fun level =>
    consistent.holders.reads (stays level)
  unfold httpReadHeaderExtraction at run
  split at run
  · next value method level =>
      refine readContentLength_changes work consistent idle
        (uploads method level) ?_ run
      rintro entry length held rfl
      exact stores entry length rfl method level held
  · obtain rfl := pure_eq_ok.mp run
    exact readTtl_changes work _
  · next level =>
      obtain rfl := pure_eq_ok.mp run
      exact readListingBound_changes work _ _ (reads level)
        fun bound => ⟨_, _, rfl⟩
  · next level =>
      obtain rfl := pure_eq_ok.mp run
      exact readListingBound_changes work _ _ (reads level)
        fun bound => ⟨_, _, rfl⟩
  · split at run
    · next held =>
        exact readDelete_changes work consistent idle null held
          (fits _ _ rfl held) run
    · obtain rfl := pure_eq_ok.mp run
      exact .refl
  · obtain rfl := pure_eq_ok.mp run
    exact .refl

theorem routeKey_changes (work : Work kh) {after : Session kh}
    (consistent : work.Consistent) (idle : work.pending = .idle)
    (fresh : ∀ entry, work.connection.method = some .delete →
      work.connection.target = .entry entry →
        work.db.entry.deleted entry = false ∨ allowed .staleDelete)
    (run : routeKey work.toSession = .ok after) :
    Changes hashString allowed work { work with toSession := after } := by
  unfold routeKey at run
  split at run
  · split at run
    · obtain rfl := pure_eq_ok.mp run
      exact .single (writeResponse_change work .fullInvalidContentLength)
    · obtain rfl := pure_eq_ok.mp run
      exact turn_change work _ rfl rfl rfl rfl rfl
  · obtain rfl := pure_eq_ok.mp run
    exact turn_change work _ rfl rfl rfl rfl rfl
  · obtain rfl := pure_eq_ok.mp run
    exact turn_change work _ rfl rfl rfl rfl rfl
  · obtain rfl := pure_eq_ok.mp run
    exact turn_change work _ rfl rfl rfl rfl rfl
  · next entry method held =>
      simp only [bind_eq_ok, pure_eq_ok, Prod.exists] at run
      obtain ⟨removed, tableDeleted, removal, rfl⟩ := run
      refine (dbEntryHandleDelete_changes work consistent idle
        ((fresh entry method held).imp_right Or.inr) removal).trans ?_
      exact .single (writeResponse_change { work with db := removed }
        .fullHttp200Deleted)
  · obtain rfl := pure_eq_ok.mp run
    exact .single (writeResponse_change work .fullUnknownRequest)
  · obtain rfl := pure_eq_ok.mp run
    exact .single (writeResponse_change work .full404)

theorem routeTable_changes (work : Work kh) {after : Session kh}
    (consistent : work.Consistent) (idle : work.pending = .idle)
    (counted : ∀ table, work.connection.method = some .delete →
      work.connection.target = .table table →
        kh.size (work.db.table.cacheHashSet table) = 0 ∨ allowed .keyDrift)
    (run : routeTable work.toSession = .ok after) :
    Changes hashString allowed work { work with toSession := after } := by
  unfold routeTable at run
  split at run
  · obtain rfl := pure_eq_ok.mp run
    exact turn_change work _ rfl rfl rfl rfl rfl
  · obtain rfl := pure_eq_ok.mp run
    exact .single (writeResponse_change work .full404)
  · next table method held =>
      simp only [bind_eq_ok, pure_eq_ok] at run
      obtain ⟨removed, removal, rfl⟩ := run
      have allocated : table < work.db.table.count :=
        consistent.holders.target_table (work.target_current.trans held)
      refine (dbTableHandleDelete_changes work consistent idle allocated
        held (counted table method held) removal).trans ?_
      exact .single (writeResponse_change { work with db := removed }
        .fullHttp200Deleted)
  · obtain rfl := pure_eq_ok.mp run
    exact .single (writeResponse_change work .full404)
  · obtain rfl := pure_eq_ok.mp run
    exact .single (writeResponse_change work .bulkOk)
  · obtain rfl := pure_eq_ok.mp run
    exact .single (writeResponse_change work .bulkOk)
  · obtain rfl := pure_eq_ok.mp run
    exact .single (writeResponse_change work .fullUnknownRequest)

theorem finishUpload_changes (work : Work kh) :
    Changes hashString allowed work
      { work with toSession := finishUpload work.toSession } := by
  unfold finishUpload
  dsimp only
  split
  · next written =>
      split
      · next entry isWriting held =>
          rw [dbCompleteWriting_eq]
          refine .head (.complete work entry held isWriting written.symm) ?_
          exact .single (writeResponse_change _ .full200Ok)
      · exact .single (writeResponse_change work .full200Ok)
  · exact .refl

theorem httpCacheHandleRequestBody_changes (work : Work kh) {input : Bytes}
    {written : Int} {after : Session kh}
    (succeeds : work.connection.isWriting = true →
      0 ≤ written ∨ allowed .writeFailed)
    (run : httpCacheHandleRequestBody work.toSession input written =
      .ok after) :
    Changes hashString allowed work { work with toSession := after } := by
  unfold httpCacheHandleRequestBody at run
  dsimp only at run
  split at run
  · obtain rfl := pure_eq_ok.mp run
    exact finishUpload_changes work
  split at run
  · next isWriting =>
      split at run
      · obtain rfl := pure_eq_ok.mp run
        exact .single (writeResponse_change work .full404)
      split at run
      · exact (throw_eq_ok.mp run).elim
      split at run
      · next failed =>
          obtain rfl := pure_eq_ok.mp run
          have failed : allowed .writeFailed :=
            (succeeds isWriting).resolve_left (by omega)
          exact .head (.writeFails work failed)
            (finishUpload_changes { work with
              connection.position := work.connection.position - 1 })
      · next some_ opened length written_ =>
          obtain rfl := pure_eq_ok.mp run
          have accepted : ((input.take (min written (min
              (toInt (work.connection.endPosition - work.connection.position))
              input.length)).toNat).length : Int) = min written (min
              (toInt (work.connection.endPosition - work.connection.position))
              input.length) := by
            rw [List.length_take]
            omega
          obtain ⟨inodes, blockfile, eq⟩ := writeFd_eq work.db
            work.connection.fd work.connection.position.toNat
            (input.take (min written (min
              (toInt (work.connection.endPosition - work.connection.position))
              input.length)).toNat)
          refine .head (.write work _ inodes blockfile isWriting ?_ ?_ ?_ eq)
            ?_
          · exact fun closed => opened (Or.inl closed)
          · exact not_lt.mp fun negative => opened (Or.inr negative)
          · rw [accepted]
            omega
          · rw [accepted, eq]
            exact finishUpload_changes { work with
              db := work.db.setFiles inodes blockfile
              connection := { work.connection with
                position := work.connection.position + min written (min
                  (toInt (work.connection.endPosition -
                    work.connection.position)) input.length) } }
  · next reads =>
      obtain rfl := pure_eq_ok.mp run
      have reads : work.connection.isWriting = false := by simpa using reads
      refine (talk_reading work work.db work.connection _ reads ?_ ?_ ?_).trans
        (finishUpload_changes { work with
          connection := { work.connection with
            position := work.connection.position + min
              (toInt (work.connection.endPosition - work.connection.position))
              input.length } })
      · rfl
      · rfl
      · exact Or.inr rfl

end SimpleCache
