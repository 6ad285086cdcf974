import SimpleCache.Serving

/-!
# What a request asks for

A request that arrives whole looks up its table and its key in the way of its
method.  An upload is counted with the length of its body, expires at the time
that its header gives, and is completed with its bytes.
-/

namespace SimpleCache

namespace Parsing

variable {kh : KHash}

def Line.ttls : Line → List Nat
  | .other _ _ => []
  | .number ttl _ _ digits _ => if ttl then [digitsValue digits] else []

/-- When an entry expires that some lines come for: the last lifetime counts,
and zero is none. -/
def expiryOf (clock start : Int) (lines : List Line) : Int :=
  match ((lines.flatMap Line.ttls).filter (· ≠ 0)).getLast? with
  | some ttl => ttl + clock
  | none => start

theorem expiryOf_cons (clock start : Int) (line : Line) (lines : List Line) :
    expiryOf clock start (line :: lines) =
      expiryOf clock (expiryOf clock start [line]) lines := by
  unfold expiryOf
  simp only [List.flatMap_cons, List.flatMap_nil, List.append_nil,
    List.filter_append, List.getLast?_append]
  cases ((lines.flatMap Line.ttls).filter (· ≠ 0)).getLast? <;> rfl

/-- The table that a method looks up by its name. -/
inductive TableLooked (hashString : Bytes → UInt32) (name : Bytes)
    (before : Db kh) : Method → Db kh → Option Nat → Prop
  | read {method : Method} {after : Db kh} {found : Option Nat}
      (reads : method ≠ .put)
      (run : dbTableGetRead hashString before name = .ok (after, found)) :
      TableLooked hashString name before method after found
  | write {after : Db kh} {table : Nat}
      (run : dbTableGetWrite hashString before name = .ok (after, table)) :
      TableLooked hashString name before .put after (some table)

/-- The entry that a method looks up by its key. -/
inductive KeyLooked (env : Env) (outcome : FlushOutcome) (table : Nat)
    (key : Bytes) (before : Db env.kh) :
    Method → Db env.kh → Option Nat → Prop
  | read {method : Method} {after : Db env.kh} {found : Option Nat}
      (reads : method = .get ∨ method = .head)
      (run : dbEntryGetRead env.hashString before table key =
        .ok (after, found)) :
      KeyLooked env outcome table key before method after found
  | write {after : Db env.kh} {found : Option Nat}
      (run : dbEntryGetWrite env before table key outcome =
        .ok (after, found)) :
      KeyLooked env outcome table key before .put after found
  | delete {after : Db env.kh} {found : Option Nat}
      (run : dbEntryGetDelete env.hashString before table key =
        .ok (after, found)) :
      KeyLooked env outcome table key before .delete after found

/-- What an upload leaves of the entry that was opened for it. -/
structure Uploaded (request : Request) (before : Session kh) (opened : Db kh)
    (entry : Nat) (after : Session kh) : Prop where
  length : after.db.entry.dataLength entry = request.body.length
  expires : after.db.entry.expires entry =
    expiryOf opened.currentTime (opened.entry.expires entry) request.lines
  complete : after.db.entry.writing entry = false
  completions : after.completions = before.completions ++
    [{ entry
       table := (opened.entry.table entry).map opened.table.key
       key := opened.entry.key entry
       bytes := request.body }]

/-- What a request does to the store after its key was looked up. -/
inductive Served (request : Request) (before : Session kh) (table : Nat)
    (opened : Db kh) (after : Session kh) : Option Nat → Prop
  | missed (target : after.connection.target = .null)
      (db : after.db = dbTableDeref opened table false) :
      Served request before table opened after none
  | read (entry : Nat) (reads : request.method = .get ∨ request.method = .head)
      (target : after.connection.target = .entry entry)
      (db : after.db = opened) :
      Served request before table opened after (some entry)
  | deleted (entry : Nat) (emptied : Bool) (deletes : request.method = .delete)
      (removal : dbEntryHandleDelete opened entry = .ok (after.db, emptied)) :
      Served request before table opened after (some entry)
  | uploaded (entry : Nat) (writes : request.method = .put)
      (upload : Uploaded request before opened entry after) :
      Served request before table opened after (some entry)

/-- The lookups of a request, what follows from them, and what is consumed of
the input. -/
def Asked (env : Env) (outcome : FlushOutcome) (request : Request)
    (before after : Reading env.kh) : Prop :=
  ∃ looked found,
    TableLooked env.hashString request.table before.session.db request.method
        looked found ∧
      match found with
      | none =>
          after.session.db = looked ∧
            after.input = before.input.readMove (request.bytes.length - 1 : Nat)
      | some table =>
          after.input = before.input.readMove request.bytes.length ∧
            ∃ opened entry,
              KeyLooked env outcome table request.key looked request.method
                opened entry ∧
              Served request before.session table opened after.session entry

/-- What the lines of an upload leave alone: the names of its entry, and all
other sessions. -/
structure KeepsUpload (entry : Nat) (before after : Session kh) : Prop where
  target : after.connection.target = .entry entry
  isWriting : after.connection.isWriting = before.connection.isWriting
  clock : after.db.currentTime = before.db.currentTime
  tables : after.db.table = before.db.table
  inTable : after.db.entry.table = before.db.entry.table
  key : after.db.entry.key = before.db.entry.key
  completions : after.completions = before.completions

section Lines

variable {env : Env} {db after : Db kh} {entry length : Nat}

theorem dbTargetWriteAllocate_names {target : Target}
    (run : dbTargetWriteAllocate db entry length = .ok (after, target)) :
    after.currentTime = db.currentTime ∧ after.table = db.table ∧
      after.entry.table = db.entry.table ∧ after.entry.key = db.entry.key ∧
      after.entry.expires = db.entry.expires := by
  unfold dbTargetWriteAllocate at run
  simp only [bind_eq_ok, Prod.exists] at run
  obtain ⟨chosen, choice, opened, opening, opens, run⟩ := run
  obtain ⟨_, _, _, _, _, _, chosenEq, -⟩ := chooseStorage_eq choice
  have openedEq : ∃ it disk, opened =
      { countLength chosen entry length with
        entry := { (countLength chosen entry length).entry with it }, disk } := by
    unfold dbTargetOpen at opens
    dsimp only at opens
    split at opens
    · simp only [if_true, bind_eq_ok, pure_eq_ok, Prod.exists,
        Prod.mk.injEq] at opens
      obtain ⟨created, fd, creates, rfl, -⟩ := opens
      obtain ⟨it, disk, createdEq, -⟩ := dbEntryOpenCreate_eq creates
      exact ⟨it, disk, createdEq⟩
    · obtain ⟨rfl, -⟩ := Prod.mk.inj (pure_eq_ok.mp opens)
      exact ⟨_, _, rfl⟩
  obtain ⟨it, disk, openedEq⟩ := openedEq
  rw [countLength_eq, chosenEq] at openedEq
  split at run
  · obtain ⟨rfl, -⟩ := Prod.mk.inj (pure_eq_ok.mp run)
    obtain ⟨truncated, frame⟩ := truncateFd_frame opened opening.fd length
    rw [frame, openedEq]
    exact ⟨rfl, rfl, rfl, rfl, rfl⟩
  · obtain ⟨rfl, -⟩ := Prod.mk.inj (pure_eq_ok.mp run)
    rw [openedEq]
    exact ⟨rfl, rfl, rfl, rfl, rfl⟩

/-- A line changes the expiry of the entry, or its length and its place. -/
theorem Line.perform_upload {line : Line} {before after : Session env.kh}
    (isLine : line.WellFormed .put) (reads : ReadsKey before.connection .put)
    (held : before.connection.target = .entry entry)
    (run : line.perform env before = .ok after) :
    KeepsUpload entry before after ∧ after.db.entry.expires entry =
      expiryOf before.db.currentTime (before.db.entry.expires entry)
        [line] := by
  cases line with
  | other name value =>
      obtain rfl := pure_eq_ok.mp run
      exact ⟨⟨held, rfl, rfl, rfl, rfl, rfl, rfl⟩, rfl⟩
  | number ttl name blanks digits ending =>
      obtain ⟨-, -, -, -, small⟩ := isLine
      unfold Line.perform at run
      dsimp only at run
      rw [dif_pos small] at run
      unfold SimpleCache.httpReadHeaderExtraction numberHeader at run
      rw [reads.isMethod, reads.level] at run
      cases ttl with
      | false =>
          simp only [Bool.false_eq_true, if_false] at run
          unfold readContentLength at run
          simp only [held, bind_eq_ok, Prod.exists, pure_eq_ok] at run
          obtain ⟨db, target, allocation, rfl⟩ := run
          obtain ⟨clock, tables, inTable, key, expires⟩ :=
            dbTargetWriteAllocate_names allocation
          exact ⟨⟨rfl, rfl, clock, tables, inTable, key, rfl⟩,
            congrFun expires entry⟩
      | true =>
          simp only [if_true, pure_eq_ok] at run
          subst run
          unfold readTtl
          rw [held]
          dsimp only
          by_cases none_ : digitsValue digits = 0
          · rw [if_pos none_]
            refine ⟨⟨held, rfl, rfl, rfl, rfl, rfl, rfl⟩, ?_⟩
            simp [expiryOf, Line.ttls, none_]
          · rw [if_neg none_]
            refine ⟨⟨held, rfl, rfl, rfl, rfl, rfl, rfl⟩, ?_⟩
            simp [expiryOf, Line.ttls, none_]

/-- The lines change the expiry of the entry as their lifetimes say. -/
theorem performLines_upload {lines : List Line} {before after : Session env.kh}
    (areLines : ∀ line ∈ lines, line.WellFormed .put)
    (reads : ReadsKey before.connection .put)
    (held : before.connection.target = .entry entry)
    (run : performLines env lines before = .ok after) :
    KeepsUpload entry before after ∧ after.db.entry.expires entry =
      expiryOf before.db.currentTime (before.db.entry.expires entry)
        lines := by
  induction lines generalizing before with
  | nil =>
      obtain rfl := pure_eq_ok.mp run
      exact ⟨⟨held, rfl, rfl, rfl, rfl, rfl, rfl⟩, rfl⟩
  | cons line lines ih =>
      unfold performLines at run
      rw [bind_eq_ok] at run
      obtain ⟨mid, first, run⟩ := run
      have isLine := areLines line List.mem_cons_self
      obtain ⟨keeps, expires⟩ := Line.perform_upload isLine reads held first
      obtain ⟨laterKeeps, laterExpires⟩ := ih
        (fun other member => areLines other (List.mem_cons_of_mem _ member))
        (Line.perform_keeps isLine reads first).1 keeps.target run
      refine ⟨⟨laterKeeps.target, laterKeeps.isWriting.trans keeps.isWriting,
        laterKeeps.clock.trans keeps.clock,
        laterKeeps.tables.trans keeps.tables,
        laterKeeps.inTable.trans keeps.inTable,
        laterKeeps.key.trans keeps.key,
        laterKeeps.completions.trans keeps.completions⟩, ?_⟩
      rw [laterExpires, keeps.clock, expires]
      exact (expiryOf_cons ..).symm

/-- Without an entry the lines set a range, and nothing else. -/
theorem performLines_missed {lines : List Line} {before after : Session env.kh}
    {method : Method} (areLines : ∀ line ∈ lines, line.WellFormed method)
    (reads : ReadsKey before.connection method)
    (missed : before.connection.target = .null ∨ method ≠ .put)
    (run : performLines env lines before = .ok after) :
    after.db = before.db ∧
      after.connection.isWriting = before.connection.isWriting := by
  induction lines generalizing before with
  | nil =>
      obtain rfl := pure_eq_ok.mp run
      exact ⟨rfl, rfl⟩
  | cons line lines ih =>
      unfold performLines at run
      rw [bind_eq_ok] at run
      obtain ⟨mid, first, run⟩ := run
      have isLine := areLines line List.mem_cons_self
      obtain ⟨midReads, midTarget⟩ := Line.perform_keeps isLine reads first
      have rest := ih
        (fun other member => areLines other (List.mem_cons_of_mem _ member))
        midReads (missed.imp_left midTarget.trans) run
      suffices same : mid.db = before.db ∧
          mid.connection.isWriting = before.connection.isWriting from
        ⟨rest.1.trans same.1, rest.2.trans same.2⟩
      cases line with
      | other name value =>
          obtain rfl := pure_eq_ok.mp first
          exact ⟨rfl, rfl⟩
      | number ttl name blanks digits ending =>
          obtain ⟨rfl, -, -, -, small⟩ := isLine
          have isNull := missed.resolve_right (by simp)
          unfold Line.perform at first
          dsimp only at first
          rw [dif_pos small] at first
          unfold SimpleCache.httpReadHeaderExtraction numberHeader at first
          rw [reads.isMethod, reads.level] at first
          cases ttl with
          | false =>
              simp only [Bool.false_eq_true, if_false] at first
              unfold readContentLength at first
              simp only [isNull, pure_eq_ok] at first
              subst first
              exact ⟨rfl, rfl⟩
          | true =>
              simp only [if_true, pure_eq_ok] at first
              subst first
              unfold readTtl
              rw [isNull]
              exact ⟨rfl, rfl⟩

end Lines

section Bodies

variable {session : Session kh} {entry : Nat} {body : Bytes} {written : Int}

theorem writeFd_entry (db : Db kh) (fd : Fd) (position : Nat) (bytes : Bytes) :
    ∃ disk, writeFd db fd position bytes = { db with disk } := by
  cases fd with
  | closed => exact ⟨db.disk, rfl⟩
  | blockfile => exact ⟨_, rfl⟩
  | file inode => exact ⟨_, rfl⟩

/-- What was written at a position is read back from it. -/
theorem slice_writeFd {db : Db kh} {fd : Fd} (isOpen : fd ≠ .closed)
    (position : Nat) :
    (fileOf (writeFd db fd position body) fd).slice position body.length =
      body := by
  have written (file : ByteFile) :
      (file.write position body).slice position body.length = body := by
    have appended := @ByteFile.slice_write_append file position 0 body
    rw [Nat.add_zero, Nat.zero_add] at appended
    rw [appended]
    rfl
  cases fd with
  | closed => exact absurd rfl isOpen
  | blockfile => exact written _
  | file inode =>
      unfold writeFd fileOf
      dsimp only
      rw [Function.update_self]
      exact written _

theorem dbCompleteWriting_entry (db : Db kh) (entry : Nat) :
    (dbCompleteWriting db entry).entry = { db.entry with
      writing := Function.update db.entry.writing entry false } := by
  unfold dbCompleteWriting
  dsimp only
  split <;> rfl

/-- A body that is taken whole completes its entry. -/
theorem handleRequestBody_completes {after : Session kh}
    (sized : Sized session body.length) (short : body.length ≤ 16384)
    (nonempty : body ≠ []) (seekable : Seekable session.connection)
    (accepts : (body.length : Int) ≤ written)
    (held : session.connection.target = .entry entry)
    (writes : session.connection.isWriting = true)
    (run : httpCacheHandleRequestBody session body written = .ok after) :
    after.db.entry = { session.db.entry with
        writing := Function.update session.db.entry.writing entry false } ∧
      after.completions = session.completions ++
        [{ entry
           table := (session.db.entry.table entry).map session.db.table.key
           key := session.db.entry.key entry
           bytes := body }] := by
  have positive : 0 < body.length := List.length_pos_of_ne_nil nonempty
  have range := sized.range
  have reserved := sized.reserved entry held
  obtain ⟨isOpen, nonneg⟩ := seekable writes
  have toWrite : min (toInt (session.connection.endPosition -
      session.connection.position)) (body.length : Int) = body.length := by
    rw [range]
    unfold toInt i32 u32OfInt
    split <;> omega
  unfold httpCacheHandleRequestBody at run
  dsimp only at run
  rw [toWrite, if_neg (by omega), if_pos writes,
    if_neg (by rintro (closed | negative); exact isOpen closed; omega),
    if_neg (by omega), if_neg (by omega), min_eq_right accepts,
    Int.toNat_natCast, List.take_length] at run
  obtain ⟨disk, stored⟩ := writeFd_entry session.db session.connection.fd
    session.connection.position.toNat body
  have slice := @slice_writeFd _ body session.db _ isOpen
    session.connection.position.toNat
  obtain rfl := pure_eq_ok.mp run
  unfold finishUpload
  dsimp only
  rw [if_pos range, writes, held]
  dsimp only
  refine ⟨?_, ?_⟩
  · change (dbCompleteWriting _ entry).entry = _
    rw [dbCompleteWriting_entry, stored]
  · change session.completions ++ [_] = _
    congr 2
    have start : (session.connection.endPosition - body.length).toNat =
        session.connection.position.toNat := by omega
    unfold completion
    dsimp only
    rw [stored] at slice ⊢
    dsimp only
    rw [reserved, start, slice]

end Bodies

section Requests

variable {env : Env} {outcome : FlushOutcome} {written : Int}
  {request : Request}

theorem tableOfKey_looked {hashString : Bytes → UInt32} {method : Method}
    {db after : Db kh} {name : Bytes} {found : Option Nat}
    (onKey : method ≠ .purge ∧ method ≠ .admin)
    (run : tableOfKey hashString (some method) db name = .ok (after, found)) :
    TableLooked hashString name db method after found := by
  cases method with
  | purge => exact absurd rfl onKey.1
  | admin => exact absurd rfl onKey.2
  | put =>
      change (dbTableGetWrite hashString db name >>= fun result =>
        pure (result.1, some result.2)) = _ at run
      rw [bind_eq_ok] at run
      obtain ⟨⟨looked, table⟩, lookup, run⟩ := run
      obtain ⟨rfl, rfl⟩ := Prod.mk.inj (pure_eq_ok.mp run)
      exact .write lookup
  | _ => exact .read (by simp) run

/-- What a connection holds after the lookup of its key. -/
theorem holdEntry_holds {session after : Session kh} {table : Nat}
    {entry : Option Nat} (run : holdEntry session table entry = .ok after) :
    after.connection.isWriting = session.connection.isWriting ∧
      after.completions = session.completions ∧
      (entry = none → after.connection.target = .null ∧
        after.db = dbTableDeref session.db table false) ∧
      ∀ held, entry = some held → after.connection.target = .entry held ∧
        after.db = session.db := by
  unfold holdEntry at run
  cases entry with
  | none =>
      obtain rfl := pure_eq_ok.mp run
      refine ⟨rfl, rfl, fun _ => ?_, by simp⟩
      dsimp only
      exact ⟨rfl, rfl⟩
  | some entry =>
      dsimp only at run
      split at run
      · obtain rfl := pure_eq_ok.mp run
        refine ⟨rfl, rfl, by simp, fun held isSome => ?_⟩
        obtain rfl := Option.some.inj isSome
        exact ⟨rfl, rfl⟩
      · simp only [bind_eq_ok, pure_eq_ok, Prod.exists] at run
        obtain ⟨db, target, opens, rfl⟩ := run
        refine ⟨rfl, rfl, by simp, fun held isSome => ?_⟩
        obtain rfl := Option.some.inj isSome
        exact ⟨rfl, dbTargetOpen_read opens⟩

/-- The lookup of a key, and what the connection holds then. -/
theorem httpKeyLookup_looked {session after : Session env.kh} {table : Nat}
    {key : Bytes} {method : Method}
    (isMethod : session.connection.method = some method)
    (onKey : method ≠ .purge ∧ method ≠ .admin)
    (run : httpKeyLookup env session table key outcome = .ok after) :
    ∃ opened entry,
      KeyLooked env outcome table key session.db method opened entry ∧
        after.completions = session.completions ∧
        (method = .put → after.connection.isWriting = entry.isSome) ∧
        (entry = none → after.connection.target = .null ∧
          after.db = dbTableDeref opened table false) ∧
        ∀ held, entry = some held → after.connection.target = .entry held ∧
          after.db = opened := by
  unfold httpKeyLookup at run
  rw [isMethod] at run
  cases method with
  | purge => exact absurd rfl onKey.1
  | admin => exact absurd rfl onKey.2
  | put =>
      simp only [bind_eq_ok, Prod.exists] at run
      obtain ⟨opened, entry, lookup, run⟩ := run
      obtain ⟨writes, completions, missed, holds⟩ := holdEntry_holds run
      exact ⟨opened, entry, .write lookup, completions, fun _ => writes, missed,
        holds⟩
  | delete =>
      simp only [bind_eq_ok, Prod.exists] at run
      obtain ⟨opened, entry, lookup, run⟩ := run
      obtain ⟨-, completions, missed, holds⟩ := holdEntry_holds run
      exact ⟨opened, entry, .delete lookup, completions,
        (by simp), missed, holds⟩
  | get =>
      simp only [bind_eq_ok, Prod.exists] at run
      obtain ⟨opened, entry, lookup, run⟩ := run
      obtain ⟨-, completions, missed, holds⟩ := holdEntry_holds run
      exact ⟨opened, entry, .read (Or.inl rfl) lookup, completions,
        (by simp), missed, holds⟩
  | head =>
      simp only [bind_eq_ok, Prod.exists] at run
      obtain ⟨opened, entry, lookup, run⟩ := run
      obtain ⟨-, completions, missed, holds⟩ := holdEntry_holds run
      exact ⟨opened, entry, .read (Or.inr rfl) lookup, completions,
        (by simp), missed, holds⟩

/-- A request without a body is routed to what it asks for. -/
theorem routeKey_serves {session after : Session kh} {table : Nat}
    {opened : Db kh} {before : Session kh} {entry : Option Nat}
    (onKey : request.method ≠ .purge ∧ request.method ≠ .admin)
    (other : request.method ≠ .put)
    (isMethod : session.connection.method = some request.method)
    (missed : entry = none → session.connection.target = .null ∧
      session.db = dbTableDeref opened table false)
    (holds : ∀ held, entry = some held →
      session.connection.target = .entry held ∧ session.db = opened)
    (run : routeKey session = .ok after) :
    Served request before table opened after entry := by
  unfold routeKey at run
  rw [isMethod] at run
  cases entry with
  | none =>
      obtain ⟨isNull, same⟩ := missed rfl
      rw [isNull] at run
      cases isWhich : request.method with
      | put => exact absurd isWhich other
      | _ =>
          rw [isWhich] at run
          obtain rfl := pure_eq_ok.mp run
          exact .missed isNull same
  | some entry =>
      obtain ⟨held, same⟩ := holds entry rfl
      rw [held] at run
      cases isWhich : request.method with
      | put => exact absurd isWhich other
      | purge => exact absurd isWhich onKey.1
      | admin => exact absurd isWhich onKey.2
      | get =>
          rw [isWhich] at run
          obtain rfl := pure_eq_ok.mp run
          exact .read entry (Or.inl isWhich) held same
      | head =>
          rw [isWhich] at run
          obtain rfl := pure_eq_ok.mp run
          exact .read entry (Or.inr isWhich) held same
      | delete =>
          rw [isWhich] at run
          simp only [bind_eq_ok, Prod.exists] at run
          obtain ⟨removed, emptied, removal, run⟩ := run
          obtain rfl := pure_eq_ok.mp run
          rw [same] at removal
          exact .deleted entry emptied isWhich removal

/-- The body of an upload whose key is being written elsewhere is skipped. -/
theorem handleRequestBody_skips {session after : Session kh} {body : Bytes}
    (reads : session.connection.isWriting = false)
    (run : httpCacheHandleRequestBody session body written = .ok after) :
    after.db = session.db ∧
      after.connection.target = session.connection.target := by
  have finishes : ∀ other : Session kh, other.connection.isWriting = false →
      (finishUpload other).db = other.db ∧
        (finishUpload other).connection.target = other.connection.target := by
    intro other idle
    unfold finishUpload
    dsimp only
    split
    · rw [idle]
      exact ⟨rfl, rfl⟩
    · exact ⟨rfl, rfl⟩
  unfold httpCacheHandleRequestBody at run
  dsimp only at run
  split at run
  · obtain rfl := pure_eq_ok.mp run
    exact finishes session reads
  · rw [if_neg (by rw [reads]; exact Bool.false_ne_true)] at run
    obtain rfl := pure_eq_ok.mp run
    exact finishes _ reads

/-- The lines and the body of a request, once its key was looked up. -/
theorem performRest_serves {session headed after : Session env.kh}
    {before : Session env.kh} {table : Nat} {opened : Db env.kh}
    {entry : Option Nat} (wellFormed : request.WellFormed)
    (short : request.bytes.length ≤ bufferSize)
    (reads : ReadsKey session.connection request.method)
    (completions : session.completions = before.completions)
    (writes : request.method = .put →
      session.connection.isWriting = entry.isSome)
    (missed : entry = none → session.connection.target = .null ∧
      session.db = dbTableDeref opened table false)
    (holds : ∀ held, entry = some held →
      session.connection.target = .entry held ∧ session.db = opened)
    (seekable : request.method = .put → Seekable headed.connection)
    (accepts : request.method = .put → (request.body.length : Int) ≤ written)
    (lines : performLines env request.lines session = .ok headed)
    (run : performEnd written request headed = .ok after) :
    Served request before table opened after entry := by
  obtain ⟨headedReads, headedTarget⟩ :=
    performLines_keeps wellFormed.lines reads lines
  unfold performEnd at run
  rw [bind_eq_ok] at run
  obtain ⟨routed, routes, run⟩ := run
  by_cases isPut : request.method = .put
  · rw [if_pos isPut] at run
    obtain ⟨oneLength, nonempty⟩ := wellFormed.upload isPut
    have areLines := wellFormed.lines
    rw [isPut] at reads headedReads areLines
    have sized := (performLines_sized areLines reads lines).2
      request.body.length oneLength
    rw [httpReadHeaders_put headedReads.isMethod headedReads.level sized
      (List.length_pos_of_ne_nil nonempty)] at routes
    obtain rfl := Except.ok.inj routes
    cases entry with
    | none =>
        obtain ⟨isNull, same⟩ := missed rfl
        obtain ⟨headedDb, headedWrites⟩ :=
          performLines_missed areLines reads (Or.inl isNull) lines
        have idle : (headed.moveTo .handleRequestBody).connection.isWriting =
            false := headedWrites.trans (writes isPut)
        obtain ⟨afterDb, afterTarget⟩ := handleRequestBody_skips idle run
        exact .missed (afterTarget.trans (headedTarget.trans isNull))
          (afterDb.trans (headedDb.trans same))
    | some entry =>
        obtain ⟨held, same⟩ := holds entry rfl
        obtain ⟨keeps, expires⟩ :=
          performLines_upload areLines reads held lines
        have few : request.body.length ≤ 16384 := by
          have total : request.bytes.length ≤ 16384 := short
          simp only [Request.bytes, Request.tail, List.length_append,
            List.length_cons] at total
          omega
        have isWriting : (headed.moveTo
            .handleRequestBody).connection.isWriting = true :=
          keeps.isWriting.trans (writes isPut)
        have sizedToo : Sized (headed.moveTo .handleRequestBody)
            request.body.length := ⟨sized.range, sized.reserved⟩
        obtain ⟨entries, completed⟩ := handleRequestBody_completes sizedToo few
          nonempty (seekable isPut) (accepts isPut) keeps.target isWriting run
        have clock : headed.db.currentTime = opened.currentTime :=
          keeps.clock.trans (congrArg Db.currentTime same)
        refine .uploaded entry isPut ⟨?_, ?_, ?_, ?_⟩
        · rw [entries]
          exact sized.reserved entry keeps.target
        · rw [entries]
          refine expires.trans ?_
          rw [same]
        · rw [entries]
          exact Function.update_self ..
        · rw [completed]
          change headed.completions ++
            [{ entry
               table := (headed.db.entry.table entry).map headed.db.table.key
               key := headed.db.entry.key entry
               bytes := request.body }] = _
          rw [keeps.completions, keeps.inTable, keeps.tables, keeps.key,
            completions, same]
  · rw [if_neg isPut] at run
    obtain rfl := pure_eq_ok.mp run
    obtain ⟨headedDb, -⟩ :=
      performLines_missed wellFormed.lines reads (Or.inr isPut) lines
    unfold SimpleCache.httpReadHeaders at routes
    rw [if_pos headedReads.level] at routes
    refine routeKey_serves wellFormed.onKey isPut headedReads.isMethod
      (fun none_ => ?_) (fun held some_ => ?_) routes
    · obtain ⟨isNull, same⟩ := missed none_
      exact ⟨headedTarget.trans isNull, headedDb.trans same⟩
    · obtain ⟨isHeld, same⟩ := holds held some_
      exact ⟨headedTarget.trans isHeld, headedDb.trans same⟩

theorem respond_ok {final : ReadBuffer}
    {session : Except Fault (Session kh)} {after : Reading kh}
    {action : StateAction} (run : respond final session = .ok (after, action)) :
    session = .ok after.session ∧ after.input = final := by
  cases session with
  | error fault => cases run
  | ok session =>
      obtain ⟨rfl, -⟩ := Prod.mk.inj (Except.ok.inj run)
      exact ⟨rfl, rfl⟩

/-- What performing a request comes to. -/
theorem performRequest_asked {reading after : Reading env.kh}
    {action : StateAction} (wellFormed : request.WellFormed)
    (short : request.bytes.length ≤ bufferSize)
    (seekable : request.method = .put → ∀ session,
      performLookups env outcome request reading.session = .ok session →
        Seekable session.connection)
    (accepts : request.method = .put → (request.body.length : Int) ≤ written)
    (run : performRequest env outcome written request reading =
      .ok (after, action)) :
    Asked env outcome request reading after := by
  unfold performRequest at run
  rw [bind_eq_ok] at run
  obtain ⟨session, segment, run⟩ := run
  have looks := segment
  unfold httpReadTableSegment at looks
  simp only [bind_eq_ok, Prod.exists] at looks
  obtain ⟨looked, found, lookup, looks⟩ := looks
  have tableLooked : TableLooked env.hashString request.table
      reading.session.db request.method looked found :=
    tableOfKey_looked wellFormed.onKey lookup
  refine ⟨looked, found, tableLooked, ?_⟩
  cases found with
  | none =>
      obtain rfl := pure_eq_ok.mp looks
      obtain ⟨rfl, -⟩ := Prod.mk.inj (Except.ok.inj run)
      exact ⟨rfl, rfl⟩
  | some table =>
      obtain rfl := pure_eq_ok.mp looks
      dsimp only at run ⊢
      obtain ⟨performs, consumed⟩ := respond_ok run
      rw [bind_eq_ok] at performs
      obtain ⟨headed, heads, ends⟩ := performs
      have lookups : performLookups env outcome request reading.session =
          .ok headed := by
        unfold performLookups
        rw [segment, ok_bind]
        exact heads
      unfold performHead at heads
      rw [bind_eq_ok] at heads
      obtain ⟨keyed, looksKey, lines⟩ := heads
      obtain ⟨isMethod, level, -⟩ :=
        httpKeyLookup_ready rfl wellFormed.onKey looksKey
      obtain ⟨opened, entry, keyLooked, completions, writes, missed, holds⟩ :=
        httpKeyLookup_looked rfl wellFormed.onKey looksKey
      have reads : ReadsKey (keyed.moveTo .handleHeaders).connection
          request.method := ⟨rfl, isMethod, level⟩
      exact ⟨consumed, opened, entry, keyLooked,
        performRest_serves wellFormed short reads completions writes missed holds
          (fun isPut => seekable isPut headed lookups) accepts lines ends⟩

/-- A request that arrives whole is taken apart into its parts, and does what
they ask for. -/
theorem readLoop_request {reading : Reading env.kh} {rounds : Nat}
    (wellFormed : request.WellFormed)
    (fresh : reading.session.connection.handler = .handleMethod)
    (idle : reading.extracting = none)
    (empty : reading.input.writePosition = reading.input.readPosition)
    (short : request.bytes.length ≤ bufferSize)
    (plain : ∀ session, httpReadTableSegment env.hashString
      (SimpleCache.httpReadRequeststartmethod reading.session
        (.known request.method)) request.table = .ok session →
      session.connection.target = .null →
        newline ∉ request.table ∧ newline ∉ request.key)
    (seekable : request.method = .put → ∀ session,
      performLookups env outcome request reading.session = .ok session →
        Seekable session.connection)
    (accepts : request.method = .put → (request.body.length : Int) ≤ written)
    (enough : request.bytes.length ≤ rounds) :
    readLoop env outcome written rounds (arrive reading request) (-1) =
        performRequest env outcome written request (arrive reading request) ∧
      ∀ after action,
        readLoop env outcome written rounds (arrive reading request) (-1) =
          .ok (after, action) →
        Asked env outcome request (arrive reading request) after := by
  have performs := readLoop_performs wellFormed fresh idle empty short plain
    seekable accepts enough
  refine ⟨performs, fun after action run => ?_⟩
  rw [performs] at run
  exact performRequest_asked wellFormed short seekable accepts run

end Requests

instance (connection : Connection) : Decidable (Seekable connection) :=
  inferInstanceAs (Decidable (_ → _))

def freshReading : Reading listHash where
  session :=
    { db := emptyDb emptyDisk, connection := newConnection, completions := [] }
  input := ⟨fun _ => 0, 0, 0⟩
  state := 0
  extracting := none

def unforked : FlushOutcome := ⟨0, false, 0⟩

/-- Two bytes for a table that is created, for nine seconds, behind a header
that nothing looks for. -/
def smallUpload : Request where
  method := .put
  table := literal "t"
  key := literal "k"
  version := literal "HTTP/1.1"
  lines :=
    [.other (literal "X") (literal " y"),
      .number true (literal "X-Ttl") 1 (literal "9") .bare,
      .number false (literal "Content-Length") 1 (literal "2") .bare]
  blank := []
  body := literal "ab"

theorem smallUpload_wellFormed : smallUpload.WellFormed where
  onKey := ⟨by decide, by decide⟩
  table := by decide +kernel
  key := by decide
  version := by decide
  lines := by
    intro line member
    simp only [smallUpload, List.mem_cons, List.not_mem_nil, or_false] at member
    obtain rfl | rfl | rfl := member
    · exact ⟨⟨88, by decide, by decide⟩, by decide, by decide, by decide,
        fun _ => ⟨by decide, by decide⟩⟩
    · exact ⟨rfl, by decide, by decide, by decide +kernel, by decide⟩
    · exact ⟨rfl, by decide, by decide, by decide +kernel, by decide⟩
  blank := Or.inl rfl
  upload := fun _ => ⟨by decide, by decide⟩
  noBody := fun other => absurd rfl other

theorem readLoop_request_upload :
    ∃ after action, readLoop listEnv unforked 2 100
          (arrive freshReading smallUpload) (-1) = .ok (after, action) ∧
      after.session.db.entry.expires 0 = 9 ∧
      after.session.completions.map Completion.bytes = [literal "ab"] ∧
      Asked listEnv unforked smallUpload (arrive freshReading smallUpload)
        after := by
  have passes : endsIn (performLookups listEnv unforked smallUpload
      freshReading.session) (fun session =>
        decide (Seekable session.connection)) = true := by decide +kernel
  have ends : endsIn (readLoop listEnv unforked 2 100
      (arrive freshReading smallUpload) (-1)) (fun result =>
        decide (result.1.session.db.entry.expires 0 = 9 ∧
          result.1.session.completions.map Completion.bytes =
            [literal "ab"])) = true := by decide +kernel
  have both : readLoop listEnv unforked 2 100 (arrive freshReading smallUpload)
        (-1) = performRequest listEnv unforked 2 smallUpload
          (arrive freshReading smallUpload) ∧
      ∀ after action, readLoop listEnv unforked 2 100
          (arrive freshReading smallUpload) (-1) = .ok (after, action) →
        Asked listEnv unforked smallUpload (arrive freshReading smallUpload)
          after :=
    readLoop_request smallUpload_wellFormed rfl rfl rfl (by decide)
      (fun _ _ _ => ⟨by decide, by decide⟩)
      (fun _ _ performs => by
        have holds := endsIn_ok passes performs
        exact of_decide_eq_true holds)
      (fun _ => by decide) (by decide)
  cases run : readLoop listEnv unforked 2 100 (arrive freshReading smallUpload)
      (-1) with
  | error fault =>
      rw [run] at ends
      cases ends
  | ok result =>
      have holds := endsIn_ok ends run
      obtain ⟨expires, bytes⟩ := of_decide_eq_true holds
      exact ⟨result.1, result.2, rfl, expires, bytes, both.2 _ _ run⟩

/-- A key with an empty line in it, in a table that does not exist. -/
def splitRead : Request where
  method := .get
  table := literal "t"
  key := [97, newline, newline, 98]
  version := literal "HTTP/1.1"
  lines := []
  blank := []
  body := []

theorem splitRead_wellFormed : splitRead.WellFormed where
  onKey := ⟨by decide, by decide⟩
  table := by decide +kernel
  key := by decide
  version := by decide
  lines := fun _ member => absurd member List.not_mem_nil
  blank := Or.inl rfl
  upload := fun isPut => absurd isPut (by decide)
  noBody := fun _ => rfl

/-- The end of a refused request is looked for from its key on. -/
theorem not_readLoop_request :
    ¬∀ (env : Env) (outcome : FlushOutcome) (written : Int)
      (request : Request) (reading : Reading env.kh) (rounds : Nat),
      request.WellFormed →
      reading.session.connection.handler = .handleMethod →
      reading.extracting = none →
      reading.input.writePosition = reading.input.readPosition →
      request.bytes.length ≤ bufferSize →
      (request.method = .put → ∀ session,
        performLookups env outcome request reading.session = .ok session →
          Seekable session.connection) →
      (request.method = .put → (request.body.length : Int) ≤ written) →
      request.bytes.length ≤ rounds →
      ∀ result, readLoop env outcome written rounds (arrive reading request)
        (-1) = .ok result → result.1.input.rbufReadRemaining ≤ 1 := by
  intro consumes
  have stops : endsIn (readLoop listEnv unforked 0 100
      (arrive freshReading splitRead) (-1)) (fun result =>
        decide (result.1.input.rbufReadRemaining = 13)) = true := by
    decide +kernel
  cases run : readLoop listEnv unforked 0 100 (arrive freshReading splitRead)
      (-1) with
  | error fault =>
      rw [run] at stops
      cases stops
  | ok result =>
      have holds := endsIn_ok stops run
      have left : result.1.input.rbufReadRemaining = 13 :=
        of_decide_eq_true holds
      have few := consumes listEnv unforked 0 splitRead freshReading 100
        splitRead_wellFormed rfl rfl rfl (by decide)
        (fun isPut => absurd isPut (by decide))
        (fun isPut => absurd isPut (by decide)) (by decide +kernel) result run
      omega

end Parsing

end SimpleCache
