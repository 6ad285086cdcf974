import SimpleCache.Framing
import SimpleCache.Matching

/-!
# What a connection is answered

Between two requests of a connection, what its socket accepted since the last
request line is one response.  The head and the body of a value are sent in
several events, and handlers of other connections run between them; none of
these changes the length of an entry that is not being written.
-/

namespace SimpleCache

open Messages

variable {kh : KHash}

/-- The entry is allocated, and no upload writes it. -/
def EntryHeap.Settled (entries : EntryHeap) (entry : Nat) : Prop :=
  entry < entries.count ∧ entries.writing entry = false

/-- Settled entries stay settled, and as long as they are. -/
def EntryHeap.Lasts (before after : EntryHeap) : Prop :=
  ∀ entry, before.Settled entry →
    after.Settled entry ∧ after.dataLength entry = before.dataLength entry

/-- In the middle of a handler, no entry that was settled is given storage. -/
def Work.Lasts (entries : EntryHeap) (work : Work kh) : Prop :=
  ∀ entry, entries.Settled entry → work.pending ≠ .storing entry ∧
    work.db.entry.Settled entry ∧
      work.db.entry.dataLength entry = entries.dataLength entry

section Lasts

variable {hashString : Bytes → UInt32} {allowed : Defect → Prop}
  {before after : Work kh} {entries : EntryHeap}

theorem Change.lasts (consistent : before.Consistent)
    (change : Change hashString allowed before after)
    (lasts : before.Lasts entries) : after.Lasts entries := by
  intro entry settled
  obtain ⟨unstored, ⟨allocated, complete⟩, length⟩ := lasts entry settled
  cases change with
  | enter table new =>
      have old : entry ≠ before.db.entry.count := Nat.ne_of_lt allocated
      refine ⟨nofun, ⟨Nat.lt_succ_of_lt allocated, ?_⟩, ?_⟩
      · refine (Function.update_of_ne old ..).trans ?_
        exact (Function.update_of_ne old ..).trans complete
      · exact (Function.update_of_ne old ..).trans length
  | load table new =>
      have old : entry ≠ before.db.entry.count := Nat.ne_of_lt allocated
      refine ⟨unstored, ⟨Nat.lt_succ_of_lt allocated, ?_⟩, ?_⟩
      · exact (Function.update_of_ne old ..).trans complete
      · exact (Function.update_of_ne old ..).trans length
  | complete written held isWriting =>
      refine ⟨unstored, ⟨allocated, ?_⟩, length⟩
      by_cases same : entry = written
      · subst same
        exact Function.update_self ..
      · exact (Function.update_of_ne same ..).trans complete
  | abandon written held isWriting =>
      refine ⟨unstored, ⟨allocated, ?_⟩, length⟩
      by_cases same : entry = written
      · subst same
        exact Function.update_self ..
      · exact (Function.update_of_ne same ..).trans complete
  | beginStoring written idle held isWriting =>
      -- an entry that is given storage has a writer
      refine ⟨?_, ⟨allocated, complete⟩, length⟩
      intro storing
      obtain rfl : written = entry := Pending.storing.inj storing
      obtain ⟨other, isTarget, isWritten⟩ := consistent.holders.writes
        (before.isWriting_current.trans isWriting)
      rw [before.target_current, held] at isTarget
      obtain rfl := Held.entry.inj isTarget
      rw [complete] at isWritten
      exact Bool.false_ne_true isWritten
  | setLength written newLength storing =>
      have other : entry ≠ written := by
        rintro rfl
        exact unstored storing
      exact ⟨unstored, ⟨allocated, complete⟩,
        (Function.update_of_ne other ..).trans length⟩
  | beginRemoval | keepTable | destroy | endStoring =>
      exact ⟨nofun, ⟨allocated, complete⟩, length⟩
  | remove => exact ⟨nofun, ⟨allocated, complete⟩, length⟩
  | freeBlock _ _ _ _ _ _ _ _ _ freed =>
      exact ⟨unstored, ⟨allocated, complete⟩, length⟩
  | _ => exact ⟨unstored, ⟨allocated, complete⟩, length⟩

theorem Changes.lasts (consistent : before.Consistent)
    (changes : Changes hashString allowed before after)
    (lasts : before.Lasts entries) : after.Lasts entries := by
  induction changes with
  | refl => exact lasts
  | tail earlier change ih =>
      exact change.lasts (Changes.consistent earlier consistent) ih

/-- No step changes the length of a settled entry. -/
theorem serverStep_lasts {env : Env} {before after : Server env.kh}
    {event : Event} (sound : before.Sound)
    (run : serverStep env before event = .ok after) :
    before.db.entry.Lasts after.db.entry := by
  by_cases outside : event.outside
  · obtain ⟨⟨currentTime, currentUsec, flush, indexSave, same⟩, -, -⟩ :=
      serverStep_outside outside sound run
    have entry : after.db.entry = before.db.entry := by rw [same]; rfl
    rw [entry]
    exact fun _ settled => ⟨settled, rfl⟩
  · have clear : EventClear env (fun _ => True) before event :=
      eventClear_all (fun _ _ => trivial) before event
    obtain ⟨connection, work, changes, alike⟩ :=
      serverStep_changes 0 outside sound clear run
    have consistent :=
      sound.consistent.alike (Work.alike_atRest before 0 connection 0)
    have lasts : work.Lasts before.db.entry := Changes.lasts consistent changes
      fun _ settled => ⟨nofun, settled, rfl⟩
    intro entry settled
    have kept := (lasts entry settled).2
    rw [alike.db] at kept
    exact kept

end Lasts

/-- The chunks of the response so far. -/
def Connection.script (connection : Connection) : List Chunk :=
  connection.reply ++ connection.output.toList

/-- The entry that the lookup of the connection found for reading. -/
structure Serves (entries : EntryHeap) (connection : Connection)
    (entry : Nat) : Prop where
  served : connection.served = some entry
  settled : entries.Settled entry

/-- The connection is about to send the entry that it holds. -/
structure Offers (entries : EntryHeap) (connection : Connection)
    (entry : Nat) : Prop extends Serves entries connection entry where
  method : connection.method = some .get ∨ connection.method = some .head
  range : connection.endPosition =
    connection.position + entries.dataLength entry

/-- A complete response: a text, statistics, a value, or the head of a
value. -/
inductive Answer (entries : EntryHeap) (connection : Connection) : Prop
  | whole (chunk : Chunk) (isWhole : chunk.Whole)
      (reply : connection.reply = [chunk])
  | value (entry : Nat) (seconds : Int) (bodies : List Bytes)
      (serves : Serves entries connection entry)
      (complete : entries.dataLength entry < 18446744073709551616 →
        bodies.flatten.length = entries.dataLength entry)
      (reply : connection.reply =
        valueChunks seconds (entries.dataLength entry) ++ bodies.map .body)
  | head (entry : Nat) (seconds : Int)
      (serves : Serves entries connection entry)
      (isHead : connection.method = some .head)
      (reply : connection.reply =
        valueChunks seconds (entries.dataLength entry))

/-- How far the response is at each handler.  Listings are left out: they end
with their connection. -/
def Framed (entries : EntryHeap) (connection : Connection) : Prop :=
  match connection.handler with
  | .handleMethod => connection.output = none ∧
      (connection.reply = [] ∨ Answer entries connection)
  | .handleUrl | .handleUrlKey | .handleEolstats | .respondStats =>
      connection.script = []
  | .handleHttpversion | .handleHeaders => connection.reply = [] ∧
      ∀ entry, connection.target = .entry entry →
        connection.method = some .get ∨ connection.method = some .head →
          Offers entries connection entry
  | .handleRequestBody => connection.reply = []
  | .handleEolwritetoend | .respondWriteonly =>
      ∃ chunk : Chunk, chunk.Whole ∧ connection.script = [chunk]
  | .respondExpires => ∃ entry, connection.target = .entry entry ∧
      Offers entries connection entry ∧
        connection.script = [.template .headers200]
  | .respondContentlength => ∃ entry seconds,
      connection.target = .entry entry ∧ Offers entries connection entry ∧
        connection.script = [.template .headers200, .xTtl seconds]
  | .respondResponseend => ∃ entry seconds, Offers entries connection entry ∧
      connection.script = [.template .headers200, .xTtl seconds,
        .contentLength (i32 (entries.dataLength entry))]
  | .respondContentbody => ∃ entry seconds bodies left,
      Serves entries connection entry ∧
        connection.endPosition = connection.position + (left : Nat) ∧
        (List.flatten bodies).length + left = entries.dataLength entry ∧
        connection.script =
          valueChunks seconds (entries.dataLength entry) ++ bodies.map .body
  | .respondResetConnection => ∃ entry seconds,
      Serves entries connection entry ∧
        connection.method = some .head ∧
        connection.script = valueChunks seconds (entries.dataLength entry)
  | .respondListingentries | .respondListingtotal | .respondListingSeparator
  | .respondListing | .respondCloseConnection => True

section Framed

variable {entries later : EntryHeap} {connection : Connection}

theorem Serves.lasts {entry : Nat} (lasts : entries.Lasts later)
    (serves : Serves entries connection entry) :
    Serves later connection entry ∧
      later.dataLength entry = entries.dataLength entry :=
  have kept := lasts entry serves.settled
  ⟨⟨serves.served, kept.1⟩, kept.2⟩

theorem Offers.lasts {entry : Nat} (lasts : entries.Lasts later)
    (offers : Offers entries connection entry) :
    Offers later connection entry ∧
      later.dataLength entry = entries.dataLength entry := by
  obtain ⟨serves, length⟩ := offers.toServes.lasts lasts
  exact ⟨⟨serves, offers.method, by rw [length]; exact offers.range⟩, length⟩

theorem Answer.lasts (lasts : entries.Lasts later)
    (answer : Answer entries connection) : Answer later connection := by
  cases answer with
  | whole chunk isWhole reply => exact .whole chunk isWhole reply
  | value entry seconds bodies serves complete reply =>
      obtain ⟨serves, length⟩ := serves.lasts lasts
      exact .value entry seconds bodies serves (by rw [length]; exact complete)
        (by rw [length]; exact reply)
  | head entry seconds serves isHead reply =>
      obtain ⟨serves, length⟩ := serves.lasts lasts
      exact .head entry seconds serves isHead (by rw [length]; exact reply)

/-- What other connections do to the store leaves a response as it is. -/
theorem Framed.lasts (lasts : entries.Lasts later)
    (framed : Framed entries connection) : Framed later connection := by
  revert framed
  unfold Framed
  cases connection.handler with
  | handleMethod => exact fun ⟨quiet, answer⟩ =>
      ⟨quiet, answer.imp_right (Answer.lasts lasts)⟩
  | handleHttpversion | handleHeaders => exact fun ⟨unanswered, offers⟩ =>
      ⟨unanswered, fun entry held method =>
        ((offers entry held method).lasts lasts).1⟩
  | respondExpires =>
      rintro ⟨entry, held, offers, script⟩
      exact ⟨entry, held, (offers.lasts lasts).1, script⟩
  | respondContentlength =>
      rintro ⟨entry, seconds, held, offers, script⟩
      exact ⟨entry, seconds, held, (offers.lasts lasts).1, script⟩
  | respondResponseend =>
      rintro ⟨entry, seconds, offers, script⟩
      obtain ⟨offers, length⟩ := offers.lasts lasts
      exact ⟨entry, seconds, offers, by rw [length]; exact script⟩
  | respondContentbody =>
      rintro ⟨entry, seconds, bodies, left, serves, range, rest⟩
      obtain ⟨serves, length⟩ := serves.lasts lasts
      exact ⟨entry, seconds, bodies, left, serves, range,
        by rw [length]; exact rest⟩
  | respondResetConnection =>
      rintro ⟨entry, seconds, serves, isHead, script⟩
      obtain ⟨serves, length⟩ := serves.lasts lasts
      exact ⟨entry, seconds, serves, isHead, by rw [length]; exact script⟩
  | _ => exact id

end Framed

section Handlers

variable {entries : EntryHeap} {session after : Session kh}

theorem cacheDestroy_reply (run : cacheDestroy session = .ok after) :
    after.connection.output = session.connection.output ∧
      after.connection.reply = session.connection.reply ∧
      after.connection.method = session.connection.method ∧
      after.connection.served = session.connection.served := by
  unfold cacheDestroy at run
  dsimp only at run
  split at run
  · simp only [bind_eq_ok, pure_eq_ok] at run
    obtain ⟨_, -, _, -, rfl⟩ := run
    exact ⟨rfl, rfl, rfl, rfl⟩
  · obtain rfl := pure_eq_ok.mp run
    exact ⟨rfl, rfl, rfl, rfl⟩
  · obtain rfl := pure_eq_ok.mp run
    exact ⟨rfl, rfl, rfl, rfl⟩

/-- A request that ends leaves the response to its client. -/
theorem finishRequest_framed (run : finishRequest session = .ok after)
    (quiet : session.connection.output = none)
    (answer : Answer entries session.connection) :
    Framed entries after.connection := by
  unfold finishRequest at run
  simp only [bind_eq_ok, pure_eq_ok] at run
  obtain ⟨ended, ending, rfl⟩ := run
  obtain ⟨output, reply, method, served⟩ := cacheDestroy_reply ending
  refine ⟨output.trans quiet, .inr ?_⟩
  cases answer with
  | whole chunk isWhole isReply =>
      exact .whole chunk isWhole (reply.trans isReply)
  | value entry seconds bodies serves complete isReply =>
      exact .value entry seconds bodies
        ⟨served.trans serves.served, serves.settled⟩ complete
        (reply.trans isReply)
  | head entry seconds serves isHead isReply =>
      exact .head entry seconds ⟨served.trans serves.served, serves.settled⟩
        (method.trans isHead) (reply.trans isReply)

theorem closeConnection_dead (run : closeConnection session = .ok after) :
    after.connection.live = false := by
  unfold closeConnection at run
  simp only [bind_eq_ok, pure_eq_ok] at run
  obtain ⟨ended, ending, rfl⟩ := run
  rfl

theorem writeResponse_framed (entries : EntryHeap)
    (unanswered : session.connection.reply = [])
    {kind : Template} (whole : kind.whole = true) :
    Framed entries (session.writeResponse kind).connection :=
  ⟨.template kind, whole, by
    simp [Connection.script, Session.writeResponse, unanswered]⟩

theorem writeResponseAfterEol_framed (entries : EntryHeap)
    (unanswered : session.connection.reply = []) {kind : Template}
    (whole : kind.whole = true) :
    Framed entries (session.writeResponseAfterEol kind).connection :=
  ⟨.template kind, whole, by
    simp [Connection.script, Session.writeResponseAfterEol, unanswered]⟩

theorem unanswered_of_script (script : session.connection.script = []) :
    session.connection.reply = [] ∧ session.connection.output = none := by
  obtain ⟨reply, output⟩ := List.append_eq_nil_iff.mp script
  exact ⟨reply, Option.toList_eq_nil_iff.mp output⟩

theorem httpReadTableSegment_framed {hashString : Bytes → UInt32}
    {name : Bytes} (script : session.connection.script = [])
    (run : httpReadTableSegment hashString session name = .ok after) :
    Framed entries after.connection := by
  unfold httpReadTableSegment at run
  simp only [bind_eq_ok, Prod.exists] at run
  obtain ⟨db, table, -, run⟩ := run
  cases table with
  | none =>
      obtain rfl := pure_eq_ok.mp run
      exact writeResponseAfterEol_framed entries (unanswered_of_script script).1 rfl
  | some table =>
      obtain rfl := pure_eq_ok.mp run
      exact script

theorem httpReadTableOnly_framed {env : Env} {session after : Session env.kh}
    {name : Bytes} {outcome : FlushOutcome}
    (script : session.connection.script = [])
    (run : httpReadTableOnly env session name outcome = .ok after) :
    Framed entries after.connection := by
  obtain ⟨unanswered, -⟩ := unanswered_of_script script
  have table : (if name = [] then
        pure { session with connection.level := .table }.statsAfterEol
      else holdTable env.hashString session name) =
        Except.ok (ε := Fault) after → Framed entries after.connection := by
    intro run
    split at run
    · obtain rfl := pure_eq_ok.mp run
      exact script
    · unfold holdTable at run
      simp only [bind_eq_ok, Prod.exists] at run
      obtain ⟨db, found, -, run⟩ := run
      obtain rfl := pure_eq_ok.mp run
      refine ⟨unanswered, fun entry held => ?_⟩
      cases found with
      | none => cases held
      | some table => cases held
  unfold httpReadTableOnly at run
  split at run
  · exact table run
  · exact table run
  · exact table run
  · split at run
    · simp only [bind_eq_ok, pure_eq_ok] at run
      obtain ⟨collected, -, rfl⟩ := run
      exact script
    · obtain rfl := pure_eq_ok.mp run
      exact writeResponseAfterEol_framed entries unanswered rfl
  · obtain rfl := pure_eq_ok.mp run
    exact writeResponseAfterEol_framed entries unanswered rfl

/-- The target of a reader has the length of the entry. -/
theorem dbTargetOpen_range {db opened : Db kh} {entry : Nat} {target : Target}
    (run : dbTargetOpen db entry false = .ok (opened, target)) :
    target.endPosition = target.position + db.entry.dataLength entry := by
  unfold dbTargetOpen at run
  dsimp only at run
  split at run
  · rw [if_neg Bool.false_ne_true] at run
    simp only [bind_eq_ok, pure_eq_ok, Prod.exists, Prod.mk.injEq] at run
    obtain ⟨_, -, _, _, -, -, rfl⟩ := run
    exact rfl
  · obtain ⟨-, rfl⟩ := Prod.mk.inj (pure_eq_ok.mp run)
    rfl

/-- A lookup for reading finds an entry that is not being written. -/
theorem dbEntryGetRead_settled {hashString : Bytes → UInt32} {db looked : Db kh}
    {table entry : Nat} {key : Bytes}
    (allocated : ∀ slot found,
      kh.lookup (db.table.cacheHashSet table) slot = some found →
        found < db.entry.count)
    (run : dbEntryGetRead hashString db table key = .ok (looked, some entry)) :
    db.entry.Settled entry ∧ looked.entry.dataLength = db.entry.dataLength := by
  unfold dbEntryGetRead at run
  simp only [bind_eq_ok, keyMap_eq_ok] at run
  obtain ⟨set, ⟨-, rfl⟩, run⟩ := run
  split at run
  · cases (Prod.mk.inj (pure_eq_ok.mp run)).2
  next other lookup =>
  split at run
  · obtain ⟨taken, -, removed, -, run⟩ := by
      simpa only [bind_eq_ok] using run
    cases (Prod.mk.inj (pure_eq_ok.mp run)).2
  split at run
  · cases (Prod.mk.inj (pure_eq_ok.mp run)).2
  split at run
  · cases (Prod.mk.inj (pure_eq_ok.mp run)).2
  · next complete =>
    simp only [bind_eq_ok, pure_eq_ok, Prod.mk.injEq, Option.some.injEq] at run
    obtain ⟨taken, takes, rfl, rfl⟩ := run
    obtain rfl := Except.ok.inj takes
    exact ⟨⟨allocated _ _ lookup, eq_false_of_ne_true complete⟩, rfl⟩

theorem httpKeyLookup_framed {env : Env} {session after : Session env.kh}
    {table : Nat} {key : Bytes} {outcome : FlushOutcome}
    (allocated : ∀ slot found,
      env.kh.lookup (session.db.table.cacheHashSet table) slot = some found →
        found < session.db.entry.count)
    (script : session.connection.script = [])
    (run : httpKeyLookup env session table key outcome = .ok after) :
    Framed session.db.entry after.connection := by
  obtain ⟨unanswered, -⟩ := unanswered_of_script script
  have reads (method : session.connection.method = some .get ∨
      session.connection.method = some .head)
      (run : (dbEntryGetRead env.hashString session.db table key >>=
        fun found => holdEntry { session with
          db := found.1
          connection.served := found.2 } table found.2) = .ok after) :
      Framed session.db.entry after.connection := by
    rw [bind_eq_ok] at run
    obtain ⟨⟨looked, found⟩, lookup, run⟩ := run
    unfold holdEntry at run
    cases found with
    | none =>
        obtain rfl := pure_eq_ok.mp run
        exact ⟨unanswered, fun entry held => nomatch held⟩
    | some entry =>
        obtain ⟨settled, length⟩ := dbEntryGetRead_settled allocated lookup
        dsimp only at run
        rw [if_neg (by rcases method with isGet | isHead <;> simp [*])] at run
        simp only [bind_eq_ok, pure_eq_ok, Prod.exists] at run
        obtain ⟨opened, target, opens, rfl⟩ := run
        refine ⟨unanswered, fun other held isReading => ?_⟩
        obtain rfl := Held.entry.inj held
        have range := dbTargetOpen_range opens
        rw [length] at range
        exact ⟨⟨rfl, settled⟩, method, range⟩
  have writes {base : Session env.kh} {held : Option Nat}
      (run : holdEntry base table held = .ok after)
      (noRead : ¬(base.connection.method = some .get ∨
        base.connection.method = some .head))
      (reply : base.connection.reply = []) :
      Framed session.db.entry after.connection := by
    unfold holdEntry at run
    cases held with
    | none =>
        obtain rfl := pure_eq_ok.mp run
        exact ⟨reply, fun entry held => nomatch held⟩
    | some entry =>
        dsimp only at run
        split at run
        · obtain rfl := pure_eq_ok.mp run
          exact ⟨reply, fun _ _ isReading => absurd isReading noRead⟩
        · simp only [bind_eq_ok, pure_eq_ok, Prod.exists] at run
          obtain ⟨opened, target, -, rfl⟩ := run
          exact ⟨reply, fun _ _ isReading => absurd isReading noRead⟩
  unfold httpKeyLookup at run
  split at run
  · next method => exact reads (.inl method) run
  · next method => exact reads (.inr method) run
  · next method =>
      simp only [bind_eq_ok, Prod.exists] at run
      obtain ⟨written, found, -, run⟩ := run
      exact writes run (by simp [method]) unanswered
  · next method =>
      simp only [bind_eq_ok, Prod.exists] at run
      obtain ⟨looked, found, -, run⟩ := run
      exact writes run (by simp [method]) unanswered
  · obtain rfl := pure_eq_ok.mp run
    exact writeResponseAfterEol_framed _ unanswered rfl

theorem httpReadHeaderExtraction_framed {hashString : Bytes → UInt32}
    {header : Header} (fits : session.connection.Fits)
    (stands : session.connection.handler = .handleHeaders)
    (framed : Framed entries session.connection)
    (run : httpReadHeaderExtraction hashString session header = .ok after) :
    Framed entries after.connection := by
  have headers := framed
  unfold Framed at headers
  rw [stands] at headers
  obtain ⟨unanswered, offers⟩ := headers
  -- a header that is read for another method than `GET` of a key
  have goes {next : Connection} (handler : next.handler = .handleHeaders)
      (reply : next.reply = [])
      (other : ∀ entry, next.target = .entry entry →
        ¬(next.method = some .get ∨ next.method = some .head)) :
      Framed entries next := by
    unfold Framed
    rw [handler]
    exact ⟨reply, fun entry held isReading =>
      absurd isReading (other entry held)⟩
  unfold httpReadHeaderExtraction at run
  split at run
  · next isPut _ =>
    have notRead : ¬(session.connection.method = some .get ∨
        session.connection.method = some .head) := by simp [isPut]
    unfold readContentLength at run
    split at run
    · obtain rfl := pure_eq_ok.mp run
      exact writeResponse_framed entries unanswered rfl
    · simp only [bind_eq_ok, pure_eq_ok, Prod.exists] at run
      obtain ⟨db, target, -, rfl⟩ := run
      exact goes stands unanswered fun _ _ => notRead
    · obtain rfl := pure_eq_ok.mp run
      exact goes stands unanswered fun _ _ => notRead
  · next isPut _ =>
    have notRead : ¬(session.connection.method = some .get ∨
        session.connection.method = some .head) := by simp [isPut]
    obtain rfl := pure_eq_ok.mp run
    unfold readTtl
    split
    · exact writeResponse_framed entries unanswered rfl
    · split
      · exact framed
      · exact goes stands unanswered fun _ _ => notRead
    · exact framed
  · next level =>
    obtain rfl := pure_eq_ok.mp run
    unfold readListingBound
    split
    · exact writeResponse_framed entries unanswered rfl
    · exact goes stands unanswered
        fun entry held => absurd held (fits.table level entry)
  · next level =>
    obtain rfl := pure_eq_ok.mp run
    unfold readListingBound
    split
    · exact writeResponse_framed entries unanswered rfl
    · exact goes stands unanswered
        fun entry held => absurd held (fits.table level entry)
  · next isPurge _ =>
    have notRead : ¬(session.connection.method = some .get ∨
        session.connection.method = some .head) := by simp [isPurge]
    split at run
    · unfold readDelete at run
      simp only [bind_eq_ok, Prod.exists] at run
      obtain ⟨db, found, -, run⟩ := run
      cases found with
      | none =>
          obtain rfl := pure_eq_ok.mp run
          exact goes stands unanswered fun _ _ => notRead
      | some entry =>
          simp only [bind_eq_ok, pure_eq_ok, Prod.exists] at run
          obtain ⟨removed, tableDeleted, -, rfl⟩ := run
          exact goes stands unanswered fun _ _ => notRead
    · obtain rfl := pure_eq_ok.mp run
      exact framed
  · obtain rfl := pure_eq_ok.mp run
    exact framed

theorem httpReadHeaders_framed
    (stands : session.connection.handler = .handleHeaders)
    (framed : Framed entries session.connection)
    (run : httpReadHeaders session = .ok after) :
    Framed entries after.connection := by
  unfold Framed at framed
  rw [stands] at framed
  obtain ⟨unanswered, offers⟩ := framed
  have begins {entry : Nat} (held : session.connection.target = .entry entry)
      (method : session.connection.method = some .get ∨
        session.connection.method = some .head) :
      Framed entries { session.connection with
        output := some (.template .headers200)
        handler := .respondExpires } := by
    have offer := offers entry held method
    exact ⟨entry, held, ⟨⟨offer.served, offer.settled⟩, offer.method,
      offer.range⟩, by simp [Connection.script, unanswered]⟩
  unfold httpReadHeaders at run
  split at run
  · unfold routeKey at run
    split at run
    · split at run
      · obtain rfl := pure_eq_ok.mp run
        exact writeResponse_framed entries unanswered rfl
      · obtain rfl := pure_eq_ok.mp run
        exact unanswered
    · obtain rfl := pure_eq_ok.mp run
      exact unanswered
    · next method held =>
        obtain rfl := pure_eq_ok.mp run
        exact begins held (.inl method)
    · next method held =>
        obtain rfl := pure_eq_ok.mp run
        exact begins held (.inr method)
    · simp only [bind_eq_ok, pure_eq_ok, Prod.exists] at run
      obtain ⟨removed, tableDeleted, -, rfl⟩ := run
      exact writeResponse_framed entries unanswered rfl
    · obtain rfl := pure_eq_ok.mp run
      exact writeResponse_framed entries unanswered rfl
    · obtain rfl := pure_eq_ok.mp run
      exact writeResponse_framed entries unanswered rfl
  · unfold routeTable at run
    split at run
    · obtain rfl := pure_eq_ok.mp run
      exact trivial
    · obtain rfl := pure_eq_ok.mp run
      exact writeResponse_framed entries unanswered rfl
    · simp only [bind_eq_ok, pure_eq_ok] at run
      obtain ⟨removed, -, rfl⟩ := run
      exact writeResponse_framed entries unanswered rfl
    · obtain rfl := pure_eq_ok.mp run
      exact writeResponse_framed entries unanswered rfl
    · obtain rfl := pure_eq_ok.mp run
      exact writeResponse_framed entries unanswered rfl
    · obtain rfl := pure_eq_ok.mp run
      exact writeResponse_framed entries unanswered rfl
    · obtain rfl := pure_eq_ok.mp run
      exact writeResponse_framed entries unanswered rfl

theorem finishUpload_framed (entries : EntryHeap)
    (unanswered : session.connection.reply = [])
    (stands : session.connection.handler = .handleRequestBody) :
    Framed entries (finishUpload session).connection := by
  unfold finishUpload
  dsimp only
  split
  · split
    · exact writeResponse_framed entries unanswered rfl
    · exact writeResponse_framed entries unanswered rfl
  · unfold Framed
    rw [stands]
    exact unanswered

theorem httpCacheHandleRequestBody_framed {input : Bytes} {written : Int}
    (unanswered : session.connection.reply = [])
    (stands : session.connection.handler = .handleRequestBody)
    (run : httpCacheHandleRequestBody session input written = .ok after) :
    Framed entries after.connection := by
  unfold httpCacheHandleRequestBody at run
  dsimp only at run
  split at run
  · obtain rfl := pure_eq_ok.mp run
    exact finishUpload_framed entries unanswered stands
  split at run
  · split at run
    · obtain rfl := pure_eq_ok.mp run
      exact writeResponse_framed entries unanswered rfl
    split at run
    · exact (throw_eq_ok.mp run).elim
    split at run
    · obtain rfl := pure_eq_ok.mp run
      exact finishUpload_framed entries unanswered stands
    · obtain rfl := pure_eq_ok.mp run
      exact finishUpload_framed entries unanswered stands
  · obtain rfl := pure_eq_ok.mp run
    exact finishUpload_framed entries unanswered stands

/-- The body goes on, or it is complete, or its connection is closed. -/
theorem httpRespondContentbody_framed {outcome : SendOutcome}
    (quiet : session.connection.output = none)
    (stands : session.connection.handler = .respondContentbody)
    (framed : Framed entries session.connection)
    (run : httpRespondContentbody session outcome = .ok after)
    (live : after.connection.live = true) :
    Framed entries after.connection := by
  have sending := framed
  unfold Framed at sending
  rw [stands] at sending
  obtain ⟨entry, seconds, bodies, left, serves, range, total, script⟩ := sending
  have reply : session.connection.reply =
      valueChunks seconds (entries.dataLength entry) ++ bodies.map .body := by
    rw [← script, Connection.script, quiet, Option.toList_none,
      List.append_nil]
  have leftEq : bodyLeft session.connection = left % 18446744073709551616 := by
    unfold bodyLeft
    omega
  unfold httpRespondContentbody at run
  dsimp only at run
  split at run
  · next none_ =>
      refine finishRequest_framed run quiet ?_
      exact .value entry seconds bodies serves (by omega) reply
  cases outcome with
  | again =>
      obtain rfl := pure_eq_ok.mp run
      exact framed
  | failed =>
      rw [closeConnection_dead run] at live
      exact absurd live Bool.false_ne_true
  | sent count =>
      dsimp only at run
      have within := sentCount_le session count
      generalize sentCount session count = sent at run within
      have length : ((fileOf session.db session.connection.fd).slice
          session.connection.position.toNat sent).length = sent :=
        ByteFile.slice_length ..
      generalize (fileOf session.db session.connection.fd).slice
        session.connection.position.toNat sent = bytes at run length
      have longer : session.connection.reply ++ [.body bytes] =
          valueChunks seconds (entries.dataLength entry) ++
            (bodies ++ [bytes]).map .body := by
        rw [reply, List.map_append, List.map_singleton, List.append_assoc]
      have sum : (bodies ++ [bytes]).flatten.length =
          bodies.flatten.length + sent := by
        rw [List.flatten_append, List.length_append, List.flatten_singleton,
          length]
      split at run
      · rw [closeConnection_dead run] at live
        exact absurd live Bool.false_ne_true
      split at run
      · next atEnd =>
          refine finishRequest_framed run quiet ?_
          exact .value entry seconds (bodies ++ [bytes])
            ⟨serves.served, serves.settled⟩ (fun _ => by omega) longer
      · obtain rfl := pure_eq_ok.mp run
        unfold Framed
        dsimp only
        rw [stands]
        refine ⟨entry, seconds, bodies ++ [bytes], left - sent,
          ⟨serves.served, serves.settled⟩, ?_, by omega, ?_⟩
        · omega
        · rw [Connection.script, quiet, Option.toList_none, List.append_nil]
          exact longer

/-- A handler of a value queues the next part of its head. -/
theorem Offers.queue {connection : Connection} {entry : Nat}
    (offers : Offers entries connection entry) (chunk : Chunk)
    (handler : Handler) :
    Offers entries { connection with
      output := some chunk
      handler } entry :=
  ⟨⟨offers.served, offers.settled⟩, offers.method, offers.range⟩

theorem script_queue (quiet : session.connection.output = none)
    (chunk : Chunk) (handler : Handler) :
    (session.queue chunk handler).connection.script =
      session.connection.script ++ [chunk] := by
  simp [Connection.script, Session.queue, quiet]

theorem httpRespondResponseend_framed
    (quiet : session.connection.output = none)
    (stands : session.connection.handler = .respondResponseend)
    (framed : Framed entries session.connection) :
    Framed entries (httpRespondResponseend session).connection := by
  unfold Framed at framed
  rw [stands] at framed
  obtain ⟨entry, seconds, offers, script⟩ := framed
  have whole (handler : Handler) :
      (session.queue (.template .newline) handler).connection.script =
        valueChunks seconds (entries.dataLength entry) := by
    rw [script_queue quiet, script]
    rfl
  unfold httpRespondResponseend
  rcases offers.method with isGet | isHead
  · rw [isGet]
    exact ⟨entry, seconds, [], entries.dataLength entry,
      ⟨offers.served, offers.settled⟩, offers.range, Nat.zero_add _, by
        rw [List.map_nil, List.append_nil]
        exact whole _⟩
  · rw [isHead]
    exact ⟨entry, seconds, ⟨offers.served, offers.settled⟩, isHead, whole _⟩

theorem runRespond_framed {outcome : SendOutcome}
    (run : runRespond session outcome = .ok after)
    (quiet : session.connection.output = none)
    (framed : Framed session.db.entry session.connection)
    (live : after.connection.live = true) :
    Framed session.db.entry after.connection := by
  have reply : session.connection.script = session.connection.reply := by
    rw [Connection.script, quiet, Option.toList_none, List.append_nil]
  have response := framed
  unfold Framed at response
  unfold runRespond at run
  split at run
  · next entry stands held =>
      rw [stands] at response
      obtain ⟨other, isTarget, offers, script⟩ := response
      obtain rfl := Held.entry.inj (held.symm.trans isTarget)
      obtain rfl := pure_eq_ok.mp run
      exact ⟨entry, _, held, offers.queue _ _, by
        rw [httpRespondExpires, script_queue quiet, script]
        rfl⟩
  · next entry stands held =>
      rw [stands] at response
      obtain ⟨other, seconds, isTarget, offers, script⟩ := response
      obtain rfl := Held.entry.inj (held.symm.trans isTarget)
      obtain rfl := pure_eq_ok.mp run
      exact ⟨entry, seconds, offers.queue _ _, by
        rw [httpRespondContentlength, script_queue quiet, script]
        rfl⟩
  · next stands =>
      obtain rfl := pure_eq_ok.mp run
      exact httpRespondResponseend_framed quiet stands framed
  · next stands =>
      exact httpRespondContentbody_framed quiet stands framed run live
  · next stands =>
      rw [stands] at response
      obtain ⟨entry, seconds, serves, isHead, script⟩ := response
      exact finishRequest_framed run quiet
        (.head entry seconds serves isHead (reply.symm.trans script))
  · next stands =>
      rw [stands] at response
      obtain ⟨chunk, whole, script⟩ := response
      exact finishRequest_framed run quiet
        (.whole chunk whole (reply.symm.trans script))
  · next stands =>
      rw [stands] at response
      obtain rfl := pure_eq_ok.mp run
      exact ⟨.stats _, trivial, by
        rw [httpRespondStats, script_queue quiet, response]
        rfl⟩
  · unfold httpRespondListingentries at run
    simp only [bind_eq_ok, pure_eq_ok] at run
    obtain ⟨set, -, rfl⟩ := run
    exact trivial
  · unfold httpRespondListingtotal at run
    simp only [bind_eq_ok, pure_eq_ok] at run
    obtain ⟨set, -, rfl⟩ := run
    exact trivial
  · obtain rfl := pure_eq_ok.mp run
    exact trivial
  · unfold httpRespondListing at run
    rw [bind_eq_ok] at run
    obtain ⟨set, -, run⟩ := run
    dsimp only at run
    split at run
    · rw [closeConnection_dead run] at live
      exact absurd live Bool.false_ne_true
    rw [bind_eq_ok] at run
    obtain ⟨⟨limit, found⟩, -, run⟩ := run
    dsimp only at run
    split at run
    · rw [closeConnection_dead run] at live
      exact absurd live Bool.false_ne_true
    · obtain rfl := pure_eq_ok.mp run
      by_cases last : limit = 0
      · rw [if_pos last]
        exact trivial
      · rw [if_neg last]
        exact trivial
  · rw [closeConnection_dead run] at live
    exact absurd live Bool.false_ne_true
  · obtain rfl := pure_eq_ok.mp run
    exact framed

/-- What the socket accepts stays part of the response. -/
theorem Framed.accept {connection : Connection}
    (writes : connection.handler.writes = true)
    (framed : Framed entries connection) :
    Framed entries { connection with
      output := none
      reply := connection.reply ++ connection.output.toList } := by
  have script : Connection.script { connection with
      output := none
      reply := connection.reply ++ connection.output.toList } =
        connection.script := List.append_nil _
  unfold Framed at framed ⊢
  rw [script]
  cases stands : connection.handler with
  | handleMethod | handleUrl | handleUrlKey | handleHttpversion | handleHeaders
  | handleRequestBody | handleEolstats | handleEolwritetoend =>
      rw [stands] at writes
      cases writes
  | respondExpires =>
      rw [stands] at framed
      obtain ⟨entry, held, offers, isScript⟩ := framed
      exact ⟨entry, held, ⟨⟨offers.served, offers.settled⟩, offers.method,
        offers.range⟩, isScript⟩
  | respondContentlength =>
      rw [stands] at framed
      obtain ⟨entry, seconds, held, offers, isScript⟩ := framed
      exact ⟨entry, seconds, held, ⟨⟨offers.served, offers.settled⟩,
        offers.method, offers.range⟩, isScript⟩
  | respondResponseend =>
      rw [stands] at framed
      obtain ⟨entry, seconds, offers, isScript⟩ := framed
      exact ⟨entry, seconds, ⟨⟨offers.served, offers.settled⟩, offers.method,
        offers.range⟩, isScript⟩
  | respondContentbody =>
      rw [stands] at framed
      obtain ⟨entry, seconds, bodies, left, serves, rest⟩ := framed
      exact ⟨entry, seconds, bodies, left, ⟨serves.served, serves.settled⟩, rest⟩
  | respondResetConnection =>
      rw [stands] at framed
      obtain ⟨entry, seconds, serves, rest⟩ := framed
      exact ⟨entry, seconds, ⟨serves.served, serves.settled⟩, rest⟩
  | _ =>
      rw [stands] at framed
      exact framed

theorem httpWriteHandle_framed {outcome : SendOutcome}
    (writes : session.connection.handler.writes = true)
    (framed : Framed session.db.entry session.connection)
    (run : httpWriteHandle session outcome = .ok after)
    (live : after.connection.live = true) :
    Framed session.db.entry after.connection := by
  unfold httpWriteHandle at run
  dsimp only at run
  have responds := runRespond_framed run rfl (framed.accept writes) live
  exact responds

theorem httpReadRequeststartmethod_framed (word : MethodWord)
    (quiet : session.connection.output = none) :
    Framed entries (httpReadRequeststartmethod session word).connection := by
  cases word with
  | known method =>
      change [] ++ session.connection.output.toList = []
      rw [quiet]
      rfl
  | unknown => exact writeResponseAfterEol_framed entries rfl rfl
  | tooLong => exact writeResponseAfterEol_framed entries rfl rfl

end Handlers

/-- Every handler goes on with the response of its connection, or ends it, or
closes the connection. -/
theorem handle_framed {env : Env} {session after : Session env.kh}
    {action : Action} (fits : session.connection.Fits)
    (allocated : ∀ table slot found,
      env.kh.lookup (session.db.table.cacheHashSet table) slot = some found →
        found < session.db.entry.count)
    (framed : Framed session.db.entry session.connection)
    (run : handle env session action = .ok after)
    (live : after.connection.live = true) :
    Framed session.db.entry after.connection := by
  have response := framed
  unfold Framed at response
  unfold handle at run
  split at run
  · rw [closeConnection_dead run] at live
    exact absurd live Bool.false_ne_true
  · next word stands =>
      rw [stands] at response
      obtain rfl := pure_eq_ok.mp run
      exact httpReadRequeststartmethod_framed word response.1
  · next name stands =>
      rw [stands] at response
      exact httpReadTableSegment_framed response run
  · next name outcome stands =>
      rw [stands] at response
      exact httpReadTableOnly_framed response run
  · next key outcome stands =>
      rw [stands] at response
      split at run
      · next table held =>
          exact httpKeyLookup_framed (allocated table) response run
      · obtain rfl := pure_eq_ok.mp run
        exact framed
  · next stands =>
      rw [stands] at response
      obtain rfl := pure_eq_ok.mp run
      obtain ⟨unanswered, offers⟩ := response
      refine ⟨unanswered, fun entry held method => ?_⟩
      have offer := offers entry held method
      exact ⟨⟨offer.served, offer.settled⟩, offer.method, offer.range⟩
  · next header stands =>
      exact httpReadHeaderExtraction_framed fits stands framed run
  · next stands => exact httpReadHeaders_framed stands framed run
  · next stands =>
      rw [stands] at response
      obtain rfl := pure_eq_ok.mp run
      exact writeResponse_framed _ response.1 rfl
  · next input written stands =>
      rw [stands] at response
      exact httpCacheHandleRequestBody_framed response stands run
  · next stands =>
      rw [stands] at response
      obtain rfl := pure_eq_ok.mp run
      exact response
  · next stands =>
      rw [stands] at response
      obtain rfl := pure_eq_ok.mp run
      exact response
  · split at run
    · next writes => exact httpWriteHandle_framed writes framed run live
    · obtain rfl := pure_eq_ok.mp run
      exact framed
  · obtain rfl := pure_eq_ok.mp run
    exact framed

/-- Every open connection is somewhere in a response, or between two. -/
def Server.Answers (server : Server kh) : Prop :=
  ∀ connection, (server.connections connection).live = true →
    Framed server.db.entry (server.connections connection)

/-- A connection is as it was, unless it was just accepted or a handler ran on
it. -/
theorem serverStep_connection {env : Env} {before after : Server env.kh}
    {event : Event} (run : serverStep env before event = .ok after)
    (connection : Nat) :
    after.connections connection = before.connections connection ∧
        (∀ action, event = .request connection action →
          (before.connections connection).live = false) ∨
      after.connections connection = newConnection ∨
      ∃ action session, event = .request connection action ∧
        (before.connections connection).live = true ∧
        handle env (before.session connection) action = .ok session ∧
        after.connections connection = session.connection := by
  have same (connections : after.connections = before.connections)
      (other : ∀ action, event ≠ .request connection action) :
      after.connections connection = before.connections connection ∧
        ∀ action, event = .request connection action →
          (before.connections connection).live = false :=
    ⟨congrFun connections connection,
      fun action isRequest => absurd isRequest (other action)⟩
  unfold serverStep at run
  split at run
  · obtain rfl := pure_eq_ok.mp run
    by_cases accepted : connection = before.connectionCount
    · subst accepted
      exact .inr (.inl (Function.update_self ..))
    · exact .inl ⟨Function.update_of_ne accepted .., fun _ => nofun⟩
  · next current action =>
      split at run
      · next live =>
          simp only [bind_eq_ok, pure_eq_ok] at run
          obtain ⟨session, handles, rfl⟩ := run
          by_cases isCurrent : connection = current
          · subst isCurrent
            exact .inr (.inr ⟨action, session, rfl, live, handles,
              Function.update_self ..⟩)
          · refine .inl ⟨Function.update_of_ne isCurrent .., ?_⟩
            intro other isRequest
            exact absurd (Event.request.inj isRequest).1.symm isCurrent
      · next dead =>
          obtain rfl := pure_eq_ok.mp run
          refine .inl ⟨rfl, fun other isRequest => ?_⟩
          rw [(Event.request.inj isRequest).1] at dead
          exact eq_false_of_ne_true dead
  · obtain rfl := pure_eq_ok.mp run
    exact .inl (same rfl fun _ => nofun)
  · simp only [bind_eq_ok, pure_eq_ok] at run
    obtain ⟨db, -, rfl⟩ := run
    exact .inl (same rfl fun _ => nofun)
  · split at run
    · obtain rfl := pure_eq_ok.mp run
      exact .inl (same rfl fun _ => nofun)
    · obtain rfl := pure_eq_ok.mp run
      exact .inl (same rfl fun _ => nofun)
  · split at run
    · obtain rfl := pure_eq_ok.mp run
      exact .inl (same rfl fun _ => nofun)
    · obtain rfl := pure_eq_ok.mp run
      exact .inl (same rfl fun _ => nofun)
  · split at run
    · obtain rfl := pure_eq_ok.mp run
      exact .inl (same rfl fun _ => nofun)
    · obtain rfl := pure_eq_ok.mp run
      exact .inl (same rfl fun _ => nofun)
  · obtain rfl := pure_eq_ok.mp run
    exact .inl (same rfl fun _ => nofun)

theorem serverStep_answers {env : Env} {before after : Server env.kh}
    {event : Event} (sound : before.Sound) (answers : before.Answers)
    (run : serverStep env before event = .ok after) : after.Answers := by
  have lasts := serverStep_lasts sound run
  intro connection live
  rcases serverStep_connection run connection with
    ⟨same, -⟩ | new | ⟨action, session, -, running, handles, next⟩
  · rw [same] at live ⊢
    exact (answers connection live).lasts lasts
  · rw [new]
    exact ⟨rfl, .inl rfl⟩
  · have allocated : ∀ table slot found,
        env.kh.lookup (before.db.table.cacheHashSet table) slot =
          some found → found < before.db.entry.count :=
      fun table slot found lookup =>
        have keys := sound.consistent.keys
        (keys.table_lt (keys.table_held lookup)).1
    rw [next] at live ⊢
    exact (handle_framed (sound.fits connection) allocated
      (answers connection running) handles live).lasts lasts

theorem answers_of_reachable (env : Env) {directory : Disk → Prop}
    {server : Server env.kh}
    (reachable : (serverMachine env directory).Reachable Machine.anyStep
      server) : server.Answers := by
  have both : server.Sound ∧ server.Answers := by
    refine @Machine.Reachable.invariant _ _ _ _ Machine.anyStep
      (fun server => server.Sound ∧ server.Answers) ?_ ?_ _ reachable
    · rintro state ⟨disk, db, -, opens, rfl⟩
      have clear : IndexClear env.kh env.hashString (fun _ => True) disk :=
        indexClear_all env.hashString disk
      exact ⟨dbOpen_sound trivial clear opens, fun _ live => nomatch live⟩
    · rintro state event successor ⟨sound, answers⟩ - run
      have clear : EventClear env (fun _ => True) state event :=
        eventClear_all (fun _ _ => trivial) state event
      exact ⟨serverStep_sound sound clear run,
        serverStep_answers sound answers run⟩
  exact both.2

/-- A client that reads the announced length finds the end of the response,
whatever follows it.  One that has asked with `HEAD` may find it at the end of
the head. -/
def Delimited (build : Build) (method : Option Method) (reply : List Chunk) :
    Prop :=
  ∀ later : Bytes,
    (∃ lines body,
      readMessage announced (printChunks build reply ++ later) =
        some (lines, body, later)) ∨
    method = some .head ∧ ∃ lines,
      splitHead [] (printChunks build reply ++ later) = some (lines, later)

theorem printChunks_bodies (build : Build) (head : List Chunk)
    (bodies : List Bytes) :
    printChunks build (head ++ bodies.map .body) =
      printChunks build head ++ bodies.flatten := by
  unfold printChunks
  rw [List.flatMap_append, List.flatMap_map]
  congr 1
  exact List.flatMap_id'

theorem Answer.delimited {entries : EntryHeap} {connection : Connection}
    (build : Build) (answer : Answer entries connection)
    (small : ∀ entry, connection.served = some entry →
      entries.dataLength entry < 2147483648) :
    Delimited build connection.method connection.reply := by
  intro later
  cases answer with
  | whole chunk isWhole reply =>
      obtain ⟨lines, body, read⟩ := readMessage_whole build isWhole
      rw [reply]
      exact .inl ⟨lines, body, readMessage_append later read⟩
  | value entry seconds bodies serves complete reply =>
      have bound := small entry serves.served
      have length := complete (by omega)
      rw [← length] at bound
      have read := readMessage_value build seconds bound
      rw [reply, ← length, printChunks_bodies]
      exact .inl ⟨_, _, readMessage_append later read⟩
  | head entry seconds serves isHead reply =>
      rw [reply]
      exact .inr ⟨isHead, _,
        splitHead_value build seconds (small entry serves.served) later⟩

/-- In every run, what an open connection that waits for its next request was
sent for the last one ends where its length says, however the events of other
connections were interleaved with its own. -/
theorem reply_delimited (env : Env) {directory : Disk → Prop}
    {server : Server env.kh}
    (reachable : (serverMachine env directory).Reachable Machine.anyStep
      server) (build : Build) {connection : Nat}
    (live : (server.connections connection).live = true)
    (waits : (server.connections connection).handler = .handleMethod)
    (answered : (server.connections connection).reply ≠ [])
    (small : ∀ entry, (server.connections connection).served = some entry →
      server.db.entry.dataLength entry < 2147483648) :
    Delimited build (server.connections connection).method
      (server.connections connection).reply := by
  have framed := answers_of_reachable env reachable connection live
  unfold Framed at framed
  rw [waits] at framed
  exact (framed.2.resolve_left answered).delimited build small

/-- A request for a value of one byte. -/
def downloads (connection : Nat) (table key : UInt8) : List Event :=
  resolves connection .get table key ++
    .request connection .endOfHeaders ::
      -- the three lines of the head that are sent one by one, and the body
      List.replicate 4 (.request connection (.writeReady (.sent 100)))

theorem reply_delimited_byte :
    ∃ server : Server listHash,
      (server.connections 0).reply = valueChunks 0 1 ++ [.body [1]] ∧
        Delimited someBuild (some .get) (server.connections 0).reply := by
  have ends : endsWith (.accept :: (uploads 0 97 107 1 ++ downloads 0 97 107))
      (fun server => decide (
        (server.connections 0).live = true ∧
        (server.connections 0).handler = .handleMethod ∧
        (server.connections 0).method = some .get ∧
        (server.connections 0).served = some 0 ∧
        (server.connections 0).reply = valueChunks 0 1 ++ [.body [1]] ∧
        server.db.entry.dataLength 0 = 1)) = true := by
    decide +kernel
  have empty : DistinctIndex emptyDisk := by
    intro text saved
    simp [emptyDisk] at saved
  obtain ⟨server, reachable, final⟩ :=
    reachable_of_endsWith empty (fun _ _ _ => trivial) ends
  obtain ⟨live, waits, method, served, reply, length⟩ :=
    of_decide_eq_true final
  have answered : (server.connections 0).reply ≠ [] := by
    rw [reply]
    exact List.cons_ne_nil _ _
  have small : ∀ entry, (server.connections 0).served = some entry →
      server.db.entry.dataLength entry < 2147483648 := by
    intro entry found
    obtain rfl := Option.some.inj (served.symm.trans found)
    omega
  refine ⟨server, reply, ?_⟩
  have delimited := reply_delimited listEnv reachable someBuild live waits
    answered small
  rw [method] at delimited
  exact delimited

end SimpleCache
