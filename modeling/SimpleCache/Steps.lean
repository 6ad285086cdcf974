import SimpleCache.Unfold.Responses

/-!
# Steps of the server

A connection keeps a shape: what it holds fits the level of its request, and
only an upload writes.  With it, every handler of every connection, in every
situation that stays clear of the defects that are not allowed, is a sequence
of changes.
-/

namespace SimpleCache

variable {kh : KHash}

/-- What a connection holds fits its request. -/
structure Connection.Fits (connection : Connection) : Prop where
  unresolved : connection.level = .unresolved → connection.target = .null
  table : connection.level = .table → ∀ entry, connection.target ≠ .entry entry
  key : connection.level = .key → ∀ table, connection.target ≠ .table table
  writer : connection.isWriting = true →
    connection.method = some .put ∧ ∃ entry, connection.target = .entry entry
  early : connection.handler = .handleMethod ∨
    connection.handler = .handleUrl → connection.target = .null
  uploads : connection.handler = .handleHttpversion ∨
    connection.handler = .handleHeaders → connection.method = some .put →
      ∀ entry, connection.target = .entry entry → connection.isWriting = true
  body : connection.handler = .respondContentbody →
    connection.method = some .get

/-- Handlers that ask nothing of what the connection holds. -/
def Handler.answers : Handler → Bool
  | .handleMethod | .handleUrl | .handleHttpversion | .handleHeaders
  | .respondContentbody => false
  | _ => true

section Fits

variable {before after : Connection}

theorem Connection.Fits.reads (fits : before.Fits)
    (noEntry : ∀ entry, before.target ≠ .entry entry) :
    before.isWriting = false := by
  cases isWriting : before.isWriting with
  | false => rfl
  | true =>
      obtain ⟨-, entry, held⟩ := fits.writer isWriting
      exact absurd held (noEntry entry)

theorem fits_newConnection : newConnection.Fits where
  unresolved := fun _ => rfl
  table := fun _ _ => by simp [newConnection]
  key := fun _ _ => by simp [newConnection]
  writer := by simp [newConnection]
  early := fun _ => rfl
  uploads := by simp [newConnection]
  body := by simp [newConnection]

/-- A connection answers, or goes on as it is. -/
theorem Connection.Fits.answer (fits : before.Fits)
    (level : after.level = before.level)
    (target : after.target = before.target)
    (writing : after.isWriting = before.isWriting)
    (method : after.method = before.method)
    (handler : after.handler = before.handler ∨ after.handler.answers = true) :
    after.Fits where
  unresolved := by rw [level, target]; exact fits.unresolved
  table := by rw [level, target]; exact fits.table
  key := by rw [level, target]; exact fits.key
  writer := by rw [writing, method, target]; exact fits.writer
  early := by
    rcases handler with same | answers
    · rw [same, target]
      exact fits.early
    · rintro (isEarly | isEarly) <;> simp [isEarly, Handler.answers] at answers
  uploads := by
    rcases handler with same | answers
    · rw [same, method, target, writing]
      exact fits.uploads
    · rintro (isEarly | isEarly) <;> simp [isEarly, Handler.answers] at answers
  body := by
    rcases handler with same | answers
    · rw [same, method]
      exact fits.body
    · intro isBody
      simp [isBody, Handler.answers] at answers

/-- A connection that holds nothing has the shape of any level. -/
theorem Connection.Fits.of_null (null : after.target = .null)
    (reads : after.isWriting = false)
    (body : after.handler = .respondContentbody →
      after.method = some .get) : after.Fits where
  unresolved := fun _ => null
  table := fun _ _ => by simp [null]
  key := fun _ _ => by simp [null]
  writer := by simp [reads]
  early := fun _ => null
  uploads := fun _ _ _ held => by simp [null] at held
  body := body

theorem cacheDestroy_connection {session after : Session kh}
    (fits : session.connection.Fits)
    (run : cacheDestroy session = .ok after) :
    after.connection.target = .null ∧ after.connection.isWriting = false ∧
      after.connection.handler = session.connection.handler ∧
      after.connection.method = session.connection.method := by
  unfold cacheDestroy at run
  dsimp only at run
  split at run
  · simp only [bind_eq_ok, pure_eq_ok] at run
    obtain ⟨_, -, _, -, rfl⟩ := run
    exact ⟨rfl, rfl, rfl, rfl⟩
  · next table level held =>
      obtain rfl := pure_eq_ok.mp run
      exact ⟨rfl, fits.reads fun entry isEntry => by simp [held] at isEntry,
        rfl, rfl⟩
  · next noEntry noTable =>
      obtain rfl := pure_eq_ok.mp run
      have null : session.connection.target = .null := by
        cases level : session.connection.level with
        | unresolved => exact fits.unresolved level
        | table =>
            cases held : session.connection.target with
            | null => rfl
            | table table => exact absurd held (noTable table level)
            | entry entry => exact absurd held (fits.table level entry)
        | key =>
            cases held : session.connection.target with
            | null => rfl
            | table table => exact absurd held (fits.key level table)
            | entry entry => exact absurd held (noEntry entry level)
      exact ⟨null, fits.reads fun entry held => by simp [null] at held,
        rfl, rfl⟩

theorem finishRequest_fits {session after : Session kh}
    (fits : session.connection.Fits)
    (run : finishRequest session = .ok after) : after.connection.Fits := by
  unfold finishRequest at run
  simp only [bind_eq_ok, pure_eq_ok] at run
  obtain ⟨ended, ending, rfl⟩ := run
  obtain ⟨null, reads, -, -⟩ := cacheDestroy_connection fits ending
  exact .of_null null reads (by simp [Session.moveTo])

theorem closeConnection_fits {session after : Session kh}
    (fits : session.connection.Fits)
    (run : closeConnection session = .ok after) :
    after.connection.Fits := by
  unfold closeConnection at run
  simp only [bind_eq_ok, pure_eq_ok] at run
  obtain ⟨ended, ending, rfl⟩ := run
  obtain ⟨null, reads, sameHandler, sameMethod⟩ :=
    cacheDestroy_connection fits ending
  refine .of_null null reads fun isBody => ?_
  exact sameMethod.trans (fits.body (sameHandler.symm.trans isBody))

section Handlers

variable {session after : Session kh}

theorem writeResponse_fits (fits : session.connection.Fits)
    (template : Template) : (session.writeResponse template).connection.Fits :=
  fits.answer rfl rfl rfl rfl (Or.inr rfl)

theorem writeResponseAfterEol_fits (fits : session.connection.Fits)
    (template : Template) :
    (session.writeResponseAfterEol template).connection.Fits :=
  fits.answer rfl rfl rfl rfl (Or.inr rfl)

theorem httpReadRequeststartmethod_fits (fits : session.connection.Fits)
    (early : session.connection.handler = .handleMethod) (word : MethodWord) :
    (httpReadRequeststartmethod session word).connection.Fits := by
  have null := fits.early (Or.inl early)
  have reads := fits.reads fun entry held => by simp [null] at held
  cases word with
  | known method => exact .of_null null reads (by simp [httpReadRequeststartmethod])
  | unknown => exact .of_null null reads (by
      simp [httpReadRequeststartmethod, Session.writeResponseAfterEol])
  | tooLong => exact .of_null null reads (by
      simp [httpReadRequeststartmethod, Session.writeResponseAfterEol])

theorem httpReadTableSegment_fits {hashString : Bytes → UInt32} {name : Bytes}
    (fits : session.connection.Fits)
    (early : session.connection.handler = .handleUrl)
    (run : httpReadTableSegment hashString session name = .ok after) :
    after.connection.Fits := by
  have null := fits.early (Or.inr early)
  have reads := fits.reads fun entry held => by simp [null] at held
  unfold httpReadTableSegment at run
  simp only [bind_eq_ok, Prod.exists] at run
  obtain ⟨db, table, -, run⟩ := run
  cases table with
  | none =>
      obtain rfl := pure_eq_ok.mp run
      exact .of_null rfl reads (by simp [Session.writeResponseAfterEol])
  | some table =>
      obtain rfl := pure_eq_ok.mp run
      exact {
        unresolved := by simp
        table := by simp
        key := by simp
        writer := by simp [reads]
        early := by simp
        uploads := by simp
        body := by simp }

theorem holdTable_fits {hashString : Bytes → UInt32} {name : Bytes}
    (reads : session.connection.isWriting = false)
    (method : session.connection.method ≠ some .put)
    (run : holdTable hashString session name = .ok after) :
    after.connection.Fits := by
  unfold holdTable at run
  simp only [bind_eq_ok, Prod.exists] at run
  obtain ⟨db, table, -, run⟩ := run
  obtain rfl := pure_eq_ok.mp run
  cases table with
  | none => exact .of_null rfl reads (by simp [setListing])
  | some table =>
      exact {
        unresolved := by simp [setListing]
        table := by simp [setListing]
        key := by simp [setListing]
        writer := by simp [setListing, reads]
        early := by simp [setListing]
        uploads := fun _ isPut => absurd isPut method
        body := by simp [setListing] }

theorem httpReadTableOnly_fits {env : Env} {session after : Session env.kh}
    {name : Bytes} {outcome : FlushOutcome} (fits : session.connection.Fits)
    (early : session.connection.handler = .handleUrl)
    (run : httpReadTableOnly env session name outcome = .ok after) :
    after.connection.Fits := by
  have null := fits.early (Or.inr early)
  have reads := fits.reads fun entry held => by simp [null] at held
  have answers : ∀ {connection : Connection}, connection.target = .null →
      connection.isWriting = false →
      connection.handler ≠ .respondContentbody → connection.Fits :=
    fun null reads other => .of_null null reads fun isBody => absurd isBody other
  unfold httpReadTableOnly at run
  have table : session.connection.method ≠ some .put →
      (if name = [] then
        pure { session with connection.level := .table }.statsAfterEol
      else holdTable env.hashString session name) =
        Except.ok (ε := Fault) after → after.connection.Fits := by
    intro method run
    split at run
    · obtain rfl := pure_eq_ok.mp run
      exact answers null reads (by simp [Session.statsAfterEol])
    · exact holdTable_fits reads method run
  split at run
  · next isMethod => exact table (by simp [isMethod]) run
  · next isMethod => exact table (by simp [isMethod]) run
  · next isMethod => exact table (by simp [isMethod]) run
  · split at run
    · simp only [bind_eq_ok, pure_eq_ok] at run
      obtain ⟨collected, -, rfl⟩ := run
      exact answers null reads (by simp [Session.statsAfterEol])
    · obtain rfl := pure_eq_ok.mp run
      exact answers null reads (by simp [Session.writeResponseAfterEol])
  · obtain rfl := pure_eq_ok.mp run
    exact answers null reads (by simp [Session.writeResponseAfterEol])

theorem holdEntry_fits {table : Nat} {entry : Option Nat}
    (writer : session.connection.isWriting =
      (decide (session.connection.method = some .put) && entry.isSome))
    (run : holdEntry session table entry = .ok after) :
    after.connection.Fits := by
  unfold holdEntry at run
  cases entry with
  | none =>
      obtain rfl := pure_eq_ok.mp run
      exact .of_null rfl (by simpa using writer) (by simp)
  | some entry =>
      dsimp only at run
      split at run
      · next isPut =>
          obtain rfl := pure_eq_ok.mp run
          have isWriting : session.connection.isWriting = true := by
            simpa [isPut] using writer
          exact {
            unresolved := by simp
            table := by simp
            key := by simp
            writer := by simp [isPut]
            early := by simp
            uploads := by simp [isWriting]
            body := by simp }
      · next notPut =>
          simp only [bind_eq_ok, pure_eq_ok, Prod.exists] at run
          obtain ⟨db, target, -, rfl⟩ := run
          have reads : session.connection.isWriting = false := by
            simpa [notPut] using writer
          exact {
            unresolved := by simp
            table := by simp
            key := by simp
            writer := by simp [reads]
            early := by simp
            uploads := fun _ isPut => absurd isPut notPut
            body := by simp }

theorem httpKeyLookup_fits {env : Env} {session after : Session env.kh}
    {table : Nat} {key : Bytes} {outcome : FlushOutcome}
    (fits : session.connection.Fits)
    (held : session.connection.target = .table table)
    (run : httpKeyLookup env session table key outcome = .ok after) :
    after.connection.Fits := by
  have reads := fits.reads fun entry isEntry => by simp [held] at isEntry
  unfold httpKeyLookup at run
  split at run
  · next isMethod =>
      simp only [bind_eq_ok, Prod.exists] at run
      obtain ⟨db, entry, -, run⟩ := run
      exact holdEntry_fits (by simp [isMethod, reads]) run
  · next isMethod =>
      simp only [bind_eq_ok, Prod.exists] at run
      obtain ⟨db, entry, -, run⟩ := run
      exact holdEntry_fits (by simp [isMethod, reads]) run
  · next isMethod =>
      simp only [bind_eq_ok, Prod.exists] at run
      obtain ⟨db, entry, -, run⟩ := run
      exact holdEntry_fits (by simp [isMethod]) run
  · next isMethod =>
      simp only [bind_eq_ok, Prod.exists] at run
      obtain ⟨db, entry, -, run⟩ := run
      exact holdEntry_fits (by simp [isMethod, reads]) run
  · obtain rfl := pure_eq_ok.mp run
    exact writeResponseAfterEol_fits fits .fullInvalidMethod

theorem readDelete_fits {hashString : Bytes → UInt32} {table : Nat}
    {key : Bytes} (fits : session.connection.Fits)
    (level : session.connection.level = .table)
    (held : session.connection.target = .table table)
    (run : readDelete hashString session table key = .ok after) :
    after.connection.Fits := by
  have reads := fits.reads fun entry isEntry => by simp [held] at isEntry
  unfold readDelete at run
  simp only [bind_eq_ok, Prod.exists] at run
  obtain ⟨db, entry, -, run⟩ := run
  cases entry with
  | none =>
      obtain rfl := pure_eq_ok.mp run
      exact fits.answer rfl rfl rfl rfl (Or.inl rfl)
  | some entry =>
      simp only [bind_eq_ok, pure_eq_ok, Prod.exists] at run
      obtain ⟨removed, tableDeleted, -, rfl⟩ := run
      exact {
        unresolved := by simp [level]
        table := by
          intro _ other
          cases tableDeleted <;> simp
        key := by simp [level]
        writer := by simp [reads]
        early := by
          intro isEarly
          have null := fits.early isEarly
          simp [held] at null
        uploads := by
          intro _ _ other
          cases tableDeleted <;> simp
        body := fits.body }

theorem httpReadHeaderExtraction_fits {hashString : Bytes → UInt32}
    {header : Header} (fits : session.connection.Fits)
    (run : httpReadHeaderExtraction hashString session header = .ok after) :
    after.connection.Fits := by
  unfold httpReadHeaderExtraction at run
  split at run
  · unfold readContentLength at run
    split at run
    · obtain rfl := pure_eq_ok.mp run
      exact writeResponse_fits fits .fullInvalidMethod
    · simp only [bind_eq_ok, pure_eq_ok, Prod.exists] at run
      obtain ⟨db, target, -, rfl⟩ := run
      exact fits.answer rfl rfl rfl rfl (Or.inl rfl)
    · obtain rfl := pure_eq_ok.mp run
      exact fits.answer rfl rfl rfl rfl (Or.inl rfl)
  · obtain rfl := pure_eq_ok.mp run
    unfold readTtl
    split
    · exact writeResponse_fits fits .fullInvalidMethod
    · split
      · exact fits
      · exact fits
    · exact fits
  · obtain rfl := pure_eq_ok.mp run
    unfold readListingBound
    split
    · exact writeResponse_fits fits .fullInvalidMethod
    · exact fits.answer rfl rfl rfl rfl (Or.inl rfl)
  · obtain rfl := pure_eq_ok.mp run
    unfold readListingBound
    split
    · exact writeResponse_fits fits .fullInvalidMethod
    · exact fits.answer rfl rfl rfl rfl (Or.inl rfl)
  · next level _ =>
      split at run
      · next held => exact readDelete_fits fits (by assumption) held run
      · obtain rfl := pure_eq_ok.mp run
        exact fits
  · obtain rfl := pure_eq_ok.mp run
    exact fits

theorem httpReadHeaders_fits (fits : session.connection.Fits)
    (run : httpReadHeaders session = .ok after) : after.connection.Fits := by
  unfold httpReadHeaders at run
  split at run
  · unfold routeKey at run
    split at run
    · split at run
      · obtain rfl := pure_eq_ok.mp run
        exact writeResponse_fits fits .fullInvalidContentLength
      · obtain rfl := pure_eq_ok.mp run
        exact fits.answer rfl rfl rfl rfl (Or.inr rfl)
    · obtain rfl := pure_eq_ok.mp run
      exact fits.answer rfl rfl rfl rfl (Or.inr rfl)
    · obtain rfl := pure_eq_ok.mp run
      exact fits.answer rfl rfl rfl rfl (Or.inr rfl)
    · obtain rfl := pure_eq_ok.mp run
      exact fits.answer rfl rfl rfl rfl (Or.inr rfl)
    · simp only [bind_eq_ok, pure_eq_ok, Prod.exists] at run
      obtain ⟨removed, tableDeleted, -, rfl⟩ := run
      exact fits.answer rfl rfl rfl rfl (Or.inr rfl)
    · obtain rfl := pure_eq_ok.mp run
      exact writeResponse_fits fits .fullUnknownRequest
    · obtain rfl := pure_eq_ok.mp run
      exact writeResponse_fits fits .full404
  · unfold routeTable at run
    split at run
    · obtain rfl := pure_eq_ok.mp run
      exact fits.answer rfl rfl rfl rfl (Or.inr rfl)
    · obtain rfl := pure_eq_ok.mp run
      exact writeResponse_fits fits .full404
    · simp only [bind_eq_ok, pure_eq_ok] at run
      obtain ⟨removed, -, rfl⟩ := run
      exact fits.answer rfl rfl rfl rfl (Or.inr rfl)
    · obtain rfl := pure_eq_ok.mp run
      exact writeResponse_fits fits .full404
    · obtain rfl := pure_eq_ok.mp run
      exact writeResponse_fits fits .bulkOk
    · obtain rfl := pure_eq_ok.mp run
      exact writeResponse_fits fits .bulkOk
    · obtain rfl := pure_eq_ok.mp run
      exact writeResponse_fits fits .fullUnknownRequest

theorem finishUpload_fits (fits : session.connection.Fits) :
    (finishUpload session).connection.Fits := by
  unfold finishUpload
  dsimp only
  split
  · split
    · exact {
        unresolved := fits.unresolved
        table := fits.table
        key := fits.key
        writer := by simp [Session.writeResponse]
        early := by simp [Session.writeResponse]
        uploads := by simp [Session.writeResponse]
        body := by simp [Session.writeResponse] }
    · exact writeResponse_fits fits .full200Ok
  · exact fits

theorem httpCacheHandleRequestBody_fits {input : Bytes} {written : Int}
    (fits : session.connection.Fits)
    (run : httpCacheHandleRequestBody session input written = .ok after) :
    after.connection.Fits := by
  have moves : ∀ (db : Db kh) (position : Int),
      (finishUpload { session with
        db
        connection :=
          { session.connection with position } }).connection.Fits :=
    fun db position => finishUpload_fits
      (fits.answer rfl rfl rfl rfl (Or.inl rfl))
  unfold httpCacheHandleRequestBody at run
  dsimp only at run
  split at run
  · obtain rfl := pure_eq_ok.mp run
    exact finishUpload_fits fits
  split at run
  · split at run
    · obtain rfl := pure_eq_ok.mp run
      exact writeResponse_fits fits .full404
    split at run
    · exact (throw_eq_ok.mp run).elim
    split at run
    · obtain rfl := pure_eq_ok.mp run
      exact moves session.db _
    · obtain rfl := pure_eq_ok.mp run
      exact moves _ _
  · obtain rfl := pure_eq_ok.mp run
    exact moves session.db _

theorem httpRespondResponseend_fits (fits : session.connection.Fits) :
    (httpRespondResponseend session).connection.Fits := by
  unfold httpRespondResponseend
  split
  · next isGet =>
      exact {
        unresolved := fits.unresolved
        table := fits.table
        key := fits.key
        writer := fits.writer
        early := by simp [Session.queue]
        uploads := by simp [Session.queue]
        body := fun _ => isGet }
  · exact fits.answer rfl rfl rfl rfl (Or.inr rfl)
  · exact fits.answer rfl rfl rfl rfl (Or.inr rfl)

theorem httpVersion_fits (fits : session.connection.Fits)
    (early : session.connection.handler = .handleHttpversion) :
    (session.moveTo .handleHeaders).connection.Fits where
  unresolved := fits.unresolved
  table := fits.table
  key := fits.key
  writer := fits.writer
  early := by simp [Session.moveTo]
  uploads := fun _ => fits.uploads (Or.inl early)
  body := by simp [Session.moveTo]

theorem runRespond_fits {outcome : SendOutcome}
    (fits : session.connection.Fits)
    (run : runRespond session outcome = .ok after) :
    after.connection.Fits := by
  unfold runRespond at run
  split at run
  · obtain rfl := pure_eq_ok.mp run
    exact fits.answer rfl rfl rfl rfl (Or.inr rfl)
  · obtain rfl := pure_eq_ok.mp run
    exact fits.answer rfl rfl rfl rfl (Or.inr rfl)
  · obtain rfl := pure_eq_ok.mp run
    exact httpRespondResponseend_fits fits
  · unfold httpRespondContentbody at run
    dsimp only at run
    split at run
    · exact finishRequest_fits fits run
    cases outcome with
    | again =>
        obtain rfl := pure_eq_ok.mp run
        exact fits
    | failed => exact closeConnection_fits fits run
    | sent count =>
        dsimp only at run
        split at run
        · exact closeConnection_fits fits run
        split at run
        · refine finishRequest_fits ?_ run
          exact fits.answer rfl rfl rfl rfl (Or.inl rfl)
        · obtain rfl := pure_eq_ok.mp run
          exact fits.answer rfl rfl rfl rfl (Or.inl rfl)
  · exact finishRequest_fits fits run
  · exact finishRequest_fits fits run
  · obtain rfl := pure_eq_ok.mp run
    exact fits.answer rfl rfl rfl rfl (Or.inr rfl)
  · unfold httpRespondListingentries at run
    simp only [bind_eq_ok, pure_eq_ok] at run
    obtain ⟨set, -, rfl⟩ := run
    exact fits.answer rfl rfl rfl rfl (Or.inr rfl)
  · unfold httpRespondListingtotal at run
    simp only [bind_eq_ok, pure_eq_ok] at run
    obtain ⟨set, -, rfl⟩ := run
    exact fits.answer rfl rfl rfl rfl (Or.inr rfl)
  · obtain rfl := pure_eq_ok.mp run
    exact fits.answer rfl rfl rfl rfl (Or.inr rfl)
  · unfold httpRespondListing at run
    rw [bind_eq_ok] at run
    obtain ⟨set, -, run⟩ := run
    dsimp only at run
    split at run
    · refine closeConnection_fits ?_ run
      exact fits.answer rfl rfl rfl rfl (Or.inl rfl)
    rw [bind_eq_ok] at run
    obtain ⟨⟨limit, found⟩, -, run⟩ := run
    dsimp only at run
    split at run
    · refine closeConnection_fits ?_ run
      exact fits.answer rfl rfl rfl rfl (Or.inl rfl)
    · obtain rfl := pure_eq_ok.mp run
      refine fits.answer rfl rfl rfl rfl (Or.inr ?_)
      unfold Session.queue
      dsimp only
      split <;> rfl
  · exact closeConnection_fits fits run
  · obtain rfl := pure_eq_ok.mp run
    exact fits

theorem httpWriteHandle_fits {outcome : SendOutcome}
    (fits : session.connection.Fits)
    (run : httpWriteHandle session outcome = .ok after) :
    after.connection.Fits := by
  unfold httpWriteHandle at run
  refine runRespond_fits ?_ run
  exact fits.answer rfl rfl rfl rfl (Or.inl rfl)

end Handlers

/-- Every handler keeps the shape of its connection. -/
theorem handle_fits {env : Env} {session after : Session env.kh}
    {action : Action} (fits : session.connection.Fits)
    (run : handle env session action = .ok after) :
    after.connection.Fits := by
  unfold handle at run
  split at run
  · exact closeConnection_fits fits run
  · next word early =>
      obtain rfl := pure_eq_ok.mp run
      exact httpReadRequeststartmethod_fits fits early word
  · next name early => exact httpReadTableSegment_fits fits early run
  · next name outcome early => exact httpReadTableOnly_fits fits early run
  · next key outcome handler =>
      split at run
      · next held => exact httpKeyLookup_fits fits held run
      · obtain rfl := pure_eq_ok.mp run
        exact fits
  · next early =>
      obtain rfl := pure_eq_ok.mp run
      exact httpVersion_fits fits early
  · exact httpReadHeaderExtraction_fits fits run
  · exact httpReadHeaders_fits fits run
  · obtain rfl := pure_eq_ok.mp run
    exact writeResponse_fits fits .fullRequestTooLarge
  · exact httpCacheHandleRequestBody_fits fits run
  · obtain rfl := pure_eq_ok.mp run
    exact fits.answer rfl rfl rfl rfl (Or.inr rfl)
  · obtain rfl := pure_eq_ok.mp run
    exact fits.answer rfl rfl rfl rfl (Or.inr rfl)
  · split at run
    · exact httpWriteHandle_fits fits run
    · obtain rfl := pure_eq_ok.mp run
      exact fits
  · obtain rfl := pure_eq_ok.mp run
    exact fits

end Fits

/-- The situation of a step stays clear of the defects that are not
allowed: of the references that a lookup, a collection or the end of a request
takes and drops, of the entry that a `DELETE` removes, of what an upload stores
and of a `write` that fails. -/
structure ActionClear (env : Env) (allowed : Defect → Prop)
    (session : Session env.kh) (action : Action) : Prop where
  lookups : LookupsFit allowed session.db
  probes : ∀ name, action = .tableSegment name →
    ProbesFit env.hashString allowed session.db name.val
  sweeps : RefsFit allowed session.db
  room : RefsRoom allowed session.db
  entries : ∀ table hash, session.connection.target = .table table →
    EntryFits allowed session.db table hash
  stores : ∀ entry (length : Digits),
    action = .header (.contentLength (some length)) →
      session.connection.handler = .handleHeaders →
      session.connection.method = some .put →
      session.connection.target = .entry entry →
        StoresClear env.hashString allowed session.db entry length.val
  fresh : ∀ entry, action = .endOfHeaders →
    session.connection.handler = .handleHeaders →
      session.connection.method = some .delete →
        session.connection.target = .entry entry →
          session.db.entry.deleted entry = false ∨ allowed .staleDelete
  keys : ∀ key outcome, action = .keySegment key outcome →
    session.connection.handler = .handleUrlKey →
      session.connection.method = some .put → KeysRoom allowed session.db
  empties : ∀ table, action = .endOfHeaders →
    session.connection.handler = .handleHeaders →
      session.connection.method = some .delete →
        session.connection.target = .table table →
          env.kh.size (session.db.table.cacheHashSet table) = 0 ∨
            allowed .keyDrift
  releases : ∀ after, handle env session action = .ok after →
    after.connection.target = .null →
      ReleaseClear allowed session.db session.connection.target
  succeeds : ∀ input written, action = .requestBody input written →
    session.connection.isWriting = true → 0 ≤ written ∨ allowed .writeFailed

/-- Every handler is a sequence of changes. -/
theorem handle_changes {env : Env} {allowed : Defect → Prop}
    (work : Work env.kh) {action : Action} {after : Session env.kh}
    (consistent : work.Consistent) (idle : work.pending = .idle)
    (null : work.aux = .null) (fits : work.connection.Fits)
    (clear : ActionClear env allowed work.toSession action)
    (run : handle env work.toSession action = .ok after) :
    Changes env.hashString allowed work { work with toSession := after } := by
  have ready : Ready allowed work := ⟨consistent, idle, null, clear.sweeps⟩
  have releases := clear.releases after run
  unfold handle at run
  split at run
  · exact closeConnection_changes work consistent idle releases run
  · next word early =>
      obtain rfl := pure_eq_ok.mp run
      cases word with
      | known method => exact turn_change work _ rfl rfl rfl rfl rfl
      | unknown => exact turn_change work _ rfl rfl rfl rfl rfl
      | tooLong => exact turn_change work _ rfl rfl rfl rfl rfl
  · next name early =>
      exact httpReadTableSegment_changes work (fits.early (Or.inr early))
        clear.lookups (clear.probes name rfl) name.property run
  · next name outcome early =>
      exact httpReadTableOnly_changes work ready (fits.early (Or.inr early))
        clear.lookups run
  · next key outcome handler =>
      split at run
      · next table held =>
          exact httpKeyLookup_changes work ready clear.room
            (clear.entries table _ held) (clear.keys key outcome rfl handler)
            held run
      · obtain rfl := pure_eq_ok.mp run
        exact .refl
  · next early =>
      obtain rfl := pure_eq_ok.mp run
      exact turn_change work _ rfl rfl rfl rfl rfl
  · next header handler =>
      exact httpReadHeaderExtraction_changes work consistent idle null
        (fun isPut _ => fits.uploads (Or.inr handler) isPut) fits.table
        (fun entry length isLength isPut _ held =>
          clear.stores entry length (by rw [isLength]) handler isPut held)
        (fun table key _ held => clear.entries table _ held) run
  · next handler =>
      unfold httpReadHeaders at run
      split at run
      · exact routeKey_changes work consistent idle
          (fun entry => clear.fresh entry rfl handler) run
      · exact routeTable_changes work consistent idle
          (fun table => clear.empties table rfl handler) run
  · obtain rfl := pure_eq_ok.mp run
    exact .single (writeResponse_change work .fullRequestTooLarge)
  · next input written handler =>
      exact httpCacheHandleRequestBody_changes work
        (clear.succeeds input written rfl) run
  · obtain rfl := pure_eq_ok.mp run
    exact turn_change work _ rfl rfl rfl rfl rfl
  · obtain rfl := pure_eq_ok.mp run
    exact turn_change work _ rfl rfl rfl rfl rfl
  · split at run
    · refine httpWriteHandle_changes work consistent idle releases ?_ run
      intro isBody
      cases isWriting : work.connection.isWriting with
      | false => rfl
      | true =>
          have isPut := (fits.writer isWriting).1
          have isGet := fits.body isBody
          rw [isGet] at isPut
          simp at isPut
    · obtain rfl := pure_eq_ok.mp run
      exact .refl
  · obtain rfl := pure_eq_ok.mp run
    exact .refl

theorem Work.connections_atRest (server : Server kh) (current loaded : Nat) :
    (Work.atRest server current loaded).connections = server.connections :=
  Function.update_eq_self ..

/-- The same state, whichever connection runs. -/
structure Work.Alike (first second : Work kh) : Prop where
  db : first.db = second.db
  connections : first.connections = second.connections
  completions : first.completions = second.completions
  connectionCount : first.connectionCount = second.connectionCount
  loaded : first.loaded = second.loaded
  aux : first.aux = second.aux
  pending : first.pending = second.pending

theorem Work.alike_atRest (server : Server kh) (first second loaded : Nat) :
    (Work.atRest server first loaded).Alike
      (Work.atRest server second loaded) :=
  ⟨rfl, by rw [connections_atRest, connections_atRest], rfl, rfl, rfl, rfl,
    rfl⟩

theorem Work.Consistent.alike {first second : Work kh}
    (consistent : first.Consistent) (alike : first.Alike second) :
    second.Consistent := by
  obtain ⟨tables, keys, holders⟩ := consistent
  unfold Work.TablesConsistent at tables
  unfold Work.KeysConsistent at keys
  unfold Work.HoldersConsistent Work.target Work.isWriting at holders
  rw [alike.db, alike.pending] at tables
  rw [alike.db] at keys
  rw [alike.db, alike.connections, alike.aux] at holders
  exact ⟨tables, keys, holders⟩

/-- How many entries were loaded is not looked at. -/
theorem Work.Consistent.atRest {server : Server kh} {first second : Nat}
    {connection : Nat}
    (consistent : (Work.atRest server connection first).Consistent) :
    (Work.atRest server connection second).Consistent :=
  ⟨consistent.tables, consistent.keys, consistent.holders⟩

/-- A handler that has run leaves the server as it leaves its connection. -/
theorem Work.alike_withSession (server : Server kh) (connection loaded : Nat)
    (session : Session kh) :
    Work.Alike { Work.atRest server connection loaded with toSession := session }
      (Work.atRest (server.withSession connection session) connection
        loaded) := by
  refine ⟨rfl, ?_, rfl, rfl, rfl, rfl, rfl⟩
  rw [connections_atRest]
  rfl

/-- What holds between any two steps. -/
structure Server.Sound (server : Server kh) : Prop where
  consistent : (Work.atRest server 0 0).Consistent
  fits : ∀ connection, (server.connections connection).Fits
  unaccepted : ∀ connection, server.connectionCount ≤ connection →
    server.connections connection = { newConnection with live := false }

/-- A step stays clear of the defects that are not allowed. -/
def EventClear (env : Env) (allowed : Defect → Prop)
    (server : Server env.kh) : Event → Prop
  | .request connection action =>
      (server.connections connection).live = true →
        ActionClear env allowed (server.session connection) action
  | .signalFlush _ => RefsFit allowed server.db
  | _ => True

/-- An event that no handler of a connection and no collection takes part in. -/
def Event.outside : Event → Prop
  | .request _ _ | .signalFlush _ => False
  | _ => True

/-- What changes carry over, and what the events between them leave. -/
structure Carries (env : Env) (allowed : Defect → Prop)
    (holds : Work env.kh → Prop) : Prop where
  change : ∀ {before after}, before.Consistent →
    Change env.hashString allowed before after → holds before → holds after
  alike : ∀ {first second}, Work.Alike first second → holds first →
    holds second
  outside : ∀ {server after event loaded}, Event.outside event →
    Server.Sound server → serverStep env server event = .ok after →
    holds (Work.atRest server 0 loaded) → holds (Work.atRest after 0 loaded)

theorem Carries.and {env : Env} {allowed : Defect → Prop}
    {first second : Work env.kh → Prop} (carriesFirst : Carries env allowed first)
    (carriesSecond : Carries env allowed second) :
    Carries env allowed (fun work => first work ∧ second work) where
  change := fun consistent change holds =>
    ⟨carriesFirst.change consistent change holds.1,
      carriesSecond.change consistent change holds.2⟩
  alike := fun alike holds =>
    ⟨carriesFirst.alike alike holds.1, carriesSecond.alike alike holds.2⟩
  outside := fun outside sound run holds =>
    ⟨carriesFirst.outside outside sound run holds.1,
      carriesSecond.outside outside sound run holds.2⟩

section Step

variable {env : Env} {allowed : Defect → Prop} {before after : Server env.kh}
  {event : Event} {holds : Work env.kh → Prop}

theorem Carries.changes (carries : Carries env allowed holds)
    {first last : Work env.kh} (consistent : first.Consistent)
    (changes : Changes env.hashString allowed first last)
    (start : holds first) : holds last := by
  induction changes with
  | refl => exact start
  | tail earlier change ih =>
      exact carries.change (Changes.consistent earlier consistent) change ih

/-- A request handler or a collection runs as a sequence of changes. -/
theorem serverStep_changes (loaded : Nat) (inside : ¬event.outside)
    (sound : before.Sound)
    (clear : EventClear env allowed before event)
    (run : serverStep env before event = .ok after) :
    ∃ connection work,
      Changes env.hashString allowed (Work.atRest before connection loaded)
        work ∧ work.Alike (Work.atRest after connection loaded) := by
  have consistent : ∀ connection,
      (Work.atRest before connection loaded).Consistent := fun connection =>
    (sound.consistent.alike (Work.alike_atRest before 0 connection 0)).atRest
  cases event with
  | request connection action =>
      unfold serverStep at run
      dsimp only at run
      split at run
      · next live =>
          simp only [bind_eq_ok, pure_eq_ok] at run
          obtain ⟨session, handles, rfl⟩ := run
          exact ⟨connection, _,
            handle_changes (Work.atRest before connection loaded)
              (consistent connection) rfl rfl (sound.fits connection)
              (clear live) handles,
            Work.alike_withSession before connection loaded session⟩
      · obtain rfl := pure_eq_ok.mp run
        exact ⟨connection, _, .refl, Work.alike_atRest before _ _ _⟩
  | signalFlush outcome =>
      unfold serverStep at run
      simp only [bind_eq_ok, pure_eq_ok] at run
      obtain ⟨db, collects, rfl⟩ := run
      have ready : Ready allowed (Work.atRest before 0 loaded) :=
        ⟨consistent 0, rfl, rfl, clear⟩
      exact ⟨0, _, (dbLruGc_sweeps ready collects).changes, rfl, rfl, rfl, rfl,
        rfl, rfl, rfl⟩
  | _ => exact absurd trivial inside

theorem serverStep_fits (sound : before.Sound)
    (run : serverStep env before event = .ok after) :
    (∀ connection, (after.connections connection).Fits) ∧
      ∀ connection, after.connectionCount ≤ connection →
        after.connections connection = { newConnection with live := false } := by
  have same : after.connections = before.connections →
      after.connectionCount = before.connectionCount →
      (∀ connection, (after.connections connection).Fits) ∧
        ∀ connection, after.connectionCount ≤ connection →
          after.connections connection =
            { newConnection with live := false } := by
    intro connections count
    rw [connections, count]
    exact ⟨sound.fits, sound.unaccepted⟩
  unfold serverStep at run
  split at run
  · obtain rfl := pure_eq_ok.mp run
    constructor
    · exact (Function.forall_update_iff before.connections
        fun _ connection => connection.Fits).mpr
          ⟨fits_newConnection, fun connection _ => sound.fits connection⟩
    · intro connection later
      have later : before.connectionCount + 1 ≤ connection := later
      exact (Function.update_of_ne (by omega) ..).trans
        (sound.unaccepted connection (by omega))
  · next current action =>
      split at run
      · next live =>
          simp only [bind_eq_ok, pure_eq_ok] at run
          obtain ⟨session, handles, rfl⟩ := run
          have accepted : current < before.connectionCount := by
            by_contra later
            have dead := sound.unaccepted current (Nat.le_of_not_lt later)
            rw [dead] at live
            simp at live
          constructor
          · exact (Function.forall_update_iff before.connections
              fun _ connection => connection.Fits).mpr
                ⟨handle_fits (sound.fits current) handles,
                  fun connection _ => sound.fits connection⟩
          · intro connection later
            have later : before.connectionCount ≤ connection := later
            exact (Function.update_of_ne (by omega) ..).trans
              (sound.unaccepted connection later)
      · obtain rfl := pure_eq_ok.mp run
        exact same rfl rfl
  · obtain rfl := pure_eq_ok.mp run
    exact same rfl rfl
  · simp only [bind_eq_ok, pure_eq_ok] at run
    obtain ⟨db, -, rfl⟩ := run
    exact same rfl rfl
  · split at run
    · obtain rfl := pure_eq_ok.mp run
      exact same rfl rfl
    · obtain rfl := pure_eq_ok.mp run
      exact same rfl rfl
  · split at run
    · obtain rfl := pure_eq_ok.mp run
      exact same rfl rfl
    · obtain rfl := pure_eq_ok.mp run
      exact same rfl rfl
  · split at run
    · obtain rfl := pure_eq_ok.mp run
      exact same rfl rfl
    · obtain rfl := pure_eq_ok.mp run
      exact same rfl rfl
  · obtain rfl := pure_eq_ok.mp run
    exact same rfl rfl

/-- The clock, and what flush children do. -/
def Db.setTimes (db : Db kh) (currentTime : Int) (currentUsec : Nat)
    (flush : FlushState) (indexSave : Option Bytes) : Db kh :=
  { db with
    currentTime, currentUsec, flush
    disk.indexSave := indexSave }

/-- Between handlers the records of the store stay as they are. -/
theorem serverStep_outside (outside : event.outside) (sound : before.Sound)
    (run : serverStep env before event = .ok after) :
    (∃ currentTime currentUsec flush indexSave, after.db =
      before.db.setTimes currentTime currentUsec flush indexSave) ∧
      (fun connection => (after.connections connection).target) =
        (fun connection => (before.connections connection).target) ∧
      (fun connection => (after.connections connection).isWriting) =
        fun connection => (before.connections connection).isWriting := by
  unfold serverStep at run
  split at run
  · obtain rfl := pure_eq_ok.mp run
    have dead := sound.unaccepted before.connectionCount le_rfl
    have field : ∀ {α : Type} (read : Connection → α),
        read newConnection = read { newConnection with live := false } →
          (fun connection => read (Function.update before.connections
            before.connectionCount newConnection connection)) =
              fun connection => read (before.connections connection) := by
      intro α read same
      funext connection
      by_cases new : connection = before.connectionCount
      · rw [new, Function.update_self, dead, same]
      · rw [Function.update_of_ne new]
    exact ⟨⟨_, _, _, _, rfl⟩, field Connection.target rfl,
      field Connection.isWriting rfl⟩
  · exact outside.elim
  · obtain rfl := pure_eq_ok.mp run
    exact ⟨⟨_, _, _, _, rfl⟩, rfl, rfl⟩
  · exact outside.elim
  · split at run
    · obtain rfl := pure_eq_ok.mp run
      exact ⟨⟨_, _, _, _, rfl⟩, rfl, rfl⟩
    · obtain rfl := pure_eq_ok.mp run
      exact ⟨⟨_, _, _, _, rfl⟩, rfl, rfl⟩
  · split at run
    · obtain rfl := pure_eq_ok.mp run
      exact ⟨⟨_, _, _, _, rfl⟩, rfl, rfl⟩
    · obtain rfl := pure_eq_ok.mp run
      exact ⟨⟨_, _, _, _, rfl⟩, rfl, rfl⟩
  · split at run
    · obtain rfl := pure_eq_ok.mp run
      exact ⟨⟨_, _, _, _, rfl⟩, rfl, rfl⟩
    · obtain rfl := pure_eq_ok.mp run
      exact ⟨⟨_, _, _, _, rfl⟩, rfl, rfl⟩
  · obtain rfl := pure_eq_ok.mp run
    exact ⟨⟨_, _, _, _, rfl⟩, rfl, rfl⟩

theorem serverStep_consistent (sound : before.Sound)
    (clear : EventClear env allowed before event)
    (run : serverStep env before event = .ok after) :
    (Work.atRest after 0 0).Consistent := by
  by_cases outside : event.outside
  · obtain ⟨⟨currentTime, currentUsec, flush, indexSave, same⟩, target,
      isWriting⟩ := serverStep_outside outside sound run
    have entry : after.db.entry = before.db.entry := by rw [same]; rfl
    have table : after.db.table = before.db.table := by rw [same]; rfl
    have tables : after.db.tables = before.db.tables := by rw [same]; rfl
    obtain ⟨tablesConsistent, keysConsistent, holdersConsistent⟩ :=
      sound.consistent
    unfold Work.TablesConsistent at tablesConsistent
    unfold Work.KeysConsistent at keysConsistent
    unfold Work.HoldersConsistent Work.target Work.isWriting
      at holdersConsistent
    rw [Work.connections_atRest] at holdersConsistent
    change SimpleCache.TablesConsistent before.db.tables before.db.table.count
      before.db.table.hash before.db.table.freed before.db.table.destroyed
      before.db.table.deleted .idle at tablesConsistent
    change SimpleCache.KeysConsistent before.db.entry.count
      before.db.table.count before.db.entry.table before.db.entry.hash
      before.db.entry.deleted before.db.entry.freed
      before.db.table.cacheHashSet at keysConsistent
    change SimpleCache.HoldersConsistent
      (fun connection => (before.connections connection).target)
      (fun connection => (before.connections connection).isWriting) .null
      before.db.entry.count before.db.table.count before.db.entry.writing
      at holdersConsistent
    rw [← table, ← tables] at tablesConsistent
    rw [← entry, ← table] at keysConsistent
    rw [← entry, ← table, ← target, ← isWriting] at holdersConsistent
    refine ⟨tablesConsistent, keysConsistent, ?_⟩
    unfold Work.HoldersConsistent Work.target Work.isWriting
    rw [Work.connections_atRest]
    exact holdersConsistent
  · obtain ⟨connection, work, changes, alike⟩ :=
      serverStep_changes 0 outside sound clear run
    have consistent := sound.consistent.alike
      (Work.alike_atRest before 0 connection 0)
    exact ((changes.consistent consistent).alike alike).alike
      (Work.alike_atRest after connection 0 0)

theorem serverStep_sound (sound : before.Sound)
    (clear : EventClear env allowed before event)
    (run : serverStep env before event = .ok after) : after.Sound := by
  obtain ⟨fits, unaccepted⟩ := serverStep_fits sound run
  exact ⟨serverStep_consistent sound clear run, fits, unaccepted⟩

theorem Carries.step {loaded : Nat} (carries : Carries env allowed holds)
    (sound : before.Sound) (clear : EventClear env allowed before event)
    (run : serverStep env before event = .ok after)
    (start : holds (Work.atRest before 0 loaded)) :
    holds (Work.atRest after 0 loaded) := by
  by_cases outside : event.outside
  · exact carries.outside outside sound run start
  · obtain ⟨connection, work, changes, alike⟩ :=
      serverStep_changes loaded outside sound clear run
    have turned := Work.alike_atRest before 0 connection loaded
    have consistent := sound.consistent.atRest.alike turned
    have ended := carries.changes consistent changes
      (carries.alike turned start)
    exact carries.alike (Work.alike_atRest after connection 0 loaded)
      (carries.alike alike ended)

/-- What is carried over holds in every later state. -/
theorem Carries.leads (carries : Carries env allowed holds)
    {directory : Disk → Prop} {meets : Server env.kh → Event → Prop}
    (clear : ∀ server event, server.Sound → meets server event →
      EventClear env allowed server event)
    {server later : Server env.kh} {loaded : Nat} (sound : server.Sound)
    (start : holds (Work.atRest server 0 loaded))
    (leads : (serverMachine env directory).Leads meets server later) :
    holds (Work.atRest later 0 loaded) := by
  have both : later.Sound ∧ holds (Work.atRest later 0 loaded) := by
    induction leads with
    | refl => exact ⟨sound, start⟩
    | tail _ stepped ih =>
        obtain ⟨event, met, run⟩ := stepped
        have isClear := clear _ event ih.1 met
        exact ⟨serverStep_sound ih.1 isClear run,
          carries.step ih.1 isClear run ih.2⟩
  exact both.2

/-- What holds initially and is carried over holds in every run whose steps
stay clear of the defects that are not allowed. -/
theorem Carries.reachable (carries : Carries env allowed holds)
    {directory : Disk → Prop} {meets : Server env.kh → Event → Prop}
    (clear : ∀ server event, server.Sound → meets server event →
      EventClear env allowed server event)
    (initially : ∀ disk db, directory disk →
      dbOpen env.hashString disk = .ok db → (Server.opened db).Sound ∧
        ∃ loaded, holds (Work.atRest (.opened db) 0 loaded))
    {server : Server env.kh}
    (reachable : (serverMachine env directory).Reachable meets server) :
    server.Sound ∧ ∃ loaded, holds (Work.atRest server 0 loaded) := by
  refine @Machine.Reachable.invariant _ _ _ _ meets
    (fun server => server.Sound ∧
      ∃ loaded, holds (Work.atRest server 0 loaded)) ?_ ?_ _ reachable
  · rintro state ⟨disk, db, isDirectory, opens, rfl⟩
    exact initially disk db isDirectory opens
  · rintro state event successor ⟨sound, loaded, holdsBefore⟩ met run
    have isClear := clear state event sound met
    exact ⟨serverStep_sound sound isClear run, loaded,
      carries.step sound isClear run holdsBefore⟩

end Step

/-- Situations that only the loader meets. -/
def Defect.ofLoader : Defect → Prop
  | .keyCollision | .blockCollision | .opening => True
  | _ => False

/-- A `DELETE` of a key that comes to the end of its headers finds the entry
that its URL named undeleted. -/
def DeletesLive (server : Server kh) (event : Event) : Prop :=
  ∀ connection entry, event = .request connection .endOfHeaders →
    (server.connections connection).live = true →
    (server.connections connection).handler = .handleHeaders →
    (server.connections connection).method = some .delete →
    (server.connections connection).target = .entry entry →
      server.db.entry.deleted entry = false

/-- What an upload announces for its entry. -/
def Announces (server : Server kh) (event : Event) (entry length : Nat) :
    Prop :=
  ∃ connection, ∃ digits : Digits, digits.val = length ∧
    event = .request connection (.header (.contentLength (some digits))) ∧
    (server.connections connection).live = true ∧
    (server.connections connection).handler = .handleHeaders ∧
    (server.connections connection).method = some .put ∧
    (server.connections connection).target = .entry entry

/-- An upload announces its length before its key is deleted. -/
def AnnouncesLive (server : Server kh) (event : Event) : Prop :=
  ∀ entry length, Announces server event entry length →
    server.db.entry.deleted entry = false

/-- An upload that announces a length again does not announce less. -/
def AnnouncesMore (server : Server kh) (event : Event) : Prop :=
  ∀ entry length, Announces server event entry length →
    server.db.entry.dataLength entry ≤ length

/-- The sizes of all entries stay countable when an upload announces one. -/
def AnnouncesCountable (server : Server kh) (event : Event) : Prop :=
  ∀ entry length, Announces server event entry length →
    server.db.dbSizeBytes + length <
      18446744073709551616 + server.db.entry.dataLength entry

/-- The number of keys stays countable when an upload comes to its key. -/
def UploadsCountable (server : Server kh) (event : Event) : Prop :=
  ∀ connection key outcome, event = .request connection
      (.keySegment key outcome) →
    (server.connections connection).live = true →
    (server.connections connection).handler = .handleUrlKey →
    (server.connections connection).method = some .put →
      server.db.dbKeys + 1 < 18446744073709551616

/-- A `DELETE` of a table that comes to the end of its headers finds no key
in it. -/
def EmptiesNothing (server : Server kh) (event : Event) : Prop :=
  ∀ connection table, event = .request connection .endOfHeaders →
    (server.connections connection).live = true →
    (server.connections connection).handler = .handleHeaders →
    (server.connections connection).method = some .delete →
    (server.connections connection).target = .table table →
      kh.size (server.db.table.cacheHashSet table) = 0

/-- What is registered under the hash of a name that a request looks up has
that name. -/
def NamesApart (hashString : Bytes → UInt32) (server : Server kh)
    (event : Event) : Prop :=
  ∀ connection (name : Word),
    event = .request connection (.tableSegment name) →
    (server.connections connection).live = true →
    ∀ table, kh.lookup server.db.tables (hashString name.val) = some table →
      tableMatches server.db table name.val = true

/-- The table that a target is, or is in. -/
def heldTable (db : Db kh) : Held → Option Nat
  | .null => none
  | .table table => some table
  | .entry entry => db.entry.table entry

/-- A step that lets go of the last reference to a deleted table finds no
other table registered under its hash. -/
def ReleasesOwn (env : Env) (server : Server env.kh) (event : Event) : Prop :=
  ∀ connection action session table, event = .request connection action →
    (server.connections connection).live = true →
    handle env (server.session connection) action = .ok session →
    session.connection.target = .null →
    heldTable server.db (server.connections connection).target = some table →
    LastReference server.db table → server.db.table.deleted table = true →
      Unshared server.db table

/-- What a step has to avoid of the defects that are not allowed. -/
structure Avoids (env : Env) (allowed : Defect → Prop)
    (server : Server env.kh) (event : Event) : Prop where
  deletes : allowed .staleDelete ∨ DeletesLive server event
  announces : allowed .lateLength ∨ AnnouncesLive server event
  grows : allowed .shrink ∨ AnnouncesMore server event
  sizes : allowed .sizeWrap ∨ AnnouncesCountable server event
  keys : allowed .keyWrap ∨ UploadsCountable server event
  empties : allowed .keyDrift ∨ EmptiesNothing server event
  releases : allowed .clobber ∨ ReleasesOwn env server event
  names : allowed .tableCollision ∨ NamesApart env.hashString server event

/-- Situations that no result below excludes. -/
def Defect.ofAnyRun : Defect → Prop
  | .entryWrap | .tableWrap | .steal | .reuse | .writeFailed => True
  | _ => False

/-- A step that avoids what is not allowed is clear. -/
theorem eventClear_of_avoids {env : Env} {allowed : Defect → Prop}
    {server : Server env.kh} {event : Event}
    (allows : ∀ {defect : Defect}, defect.ofAnyRun → allowed defect)
    (avoids : Avoids env allowed server event) :
    EventClear env allowed server event := by
  cases event with
  | request connection action =>
      intro live
      exact {
        lookups := fun _ => Or.inr (allows trivial)
        probes := fun name isName => avoids.names.imp_right
          fun avoided => avoided connection name (by rw [isName]) live
        sweeps := Or.inl (allows trivial)
        room := Or.inl (allows trivial)
        entries := fun _ _ _ _ _ => Or.inr (allows trivial)
        stores := by
          intro entry length isLength handler isPut held
          have announces : Announces server (.request connection action) entry
              length.val :=
            ⟨connection, length, rfl, by rw [isLength], live, handler, isPut,
              held⟩
          exact {
            live := (avoids.announces.imp_right fun avoided =>
              avoided entry length.val announces).symm
            grows := (avoids.grows.imp_right fun avoided =>
              avoided entry length.val announces).symm
            sizes := (avoids.sizes.imp_right fun avoided =>
              avoided entry length.val announces).symm
            unnamed := fun _ => Or.inr (allows trivial)
            unclaimed := fun _ _ _ _ _ =>
              ⟨Or.inr (allows trivial), Or.inr (allows trivial)⟩ }
        fresh := fun entry ends handler method held =>
          (avoids.deletes.imp_right fun avoided => avoided connection entry
            (by rw [ends]) live handler method held).symm
        keys := fun key outcome isKey handler method =>
          (avoids.keys.imp_right fun avoided => avoided connection key outcome
            (by rw [isKey]) live handler method).symm
        empties := fun table ends handler method held =>
          (avoids.empties.imp_right fun avoided => avoided connection table
            (by rw [ends]) live handler method held).symm
        releases := by
          intro session handles null
          constructor
          · intro table held last isDeleted
            exact (avoids.releases.imp_right fun avoided =>
              avoided connection action session table rfl live handles null
                (by
                  change (server.connections connection).target = _ at held
                  rw [held]
                  rfl) last isDeleted).symm
          · intro entry table held inTable last isDeleted
            exact (avoids.releases.imp_right fun avoided =>
              avoided connection action session table rfl live handles null
                (by
                  change (server.connections connection).target = _ at held
                  rw [held]
                  exact inTable) last isDeleted).symm
        succeeds := fun _ _ _ _ => Or.inr (allows trivial) }
  | signalFlush outcome => exact Or.inl (allows trivial)
  | _ => trivial

/-- When every defect of a step is allowed, every step is clear. -/
theorem eventClear_all {env : Env} {allowed : Defect → Prop}
    (allows : ∀ defect, ¬defect.ofLoader → allowed defect)
    (server : Server env.kh) (event : Event) :
    EventClear env allowed server event := by
  refine eventClear_of_avoids (fun {defect} anyRun => allows defect ?_) {
    deletes := Or.inl (allows _ id)
    announces := Or.inl (allows _ id)
    grows := Or.inl (allows _ id)
    sizes := Or.inl (allows _ id)
    keys := Or.inl (allows _ id)
    empties := Or.inl (allows _ id)
    releases := Or.inl (allows _ id)
    names := Or.inl (allows _ id) }
  cases defect <;> first | exact id | exact anyRun.elim

end SimpleCache
