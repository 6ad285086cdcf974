import SimpleCache.Contents

/-!
# What a download delivers

A `GET` of a key in the block file delivers the bytes that the key had when it
was looked up, whatever other connections do to the key and to the store until
the last byte is sent.
-/

namespace SimpleCache

variable {kh : KHash}

def Chunk.valueBytes : Chunk → Bytes
  | .body bytes => bytes
  | _ => []

/-- The bytes of a value that the socket accepted. -/
def Connection.sent (connection : Connection) : Bytes :=
  connection.reply.flatMap Chunk.valueBytes

/-- From the lookup of a key to the last byte of its value. -/
def Handler.sends : Handler → Bool
  | .handleHttpversion | .handleHeaders | .respondExpires
  | .respondContentlength | .respondResponseend | .respondContentbody => true
  | _ => false

/-- The connection is sending the value, which is in the block of the entry. -/
structure Sends (db : Db kh) (value : Bytes) (entry : Nat)
    (connection : Connection) : Prop where
  method : connection.method = some .get
  level : connection.level = .key
  held : connection.target = .entry entry
  opened : connection.fd = .blockfile
  phase : connection.handler.sends = true
  output : ∀ chunk, connection.output = some chunk → chunk.valueBytes = []
  position : connection.position =
    db.entry.block entry * blockLength + connection.sent.length
  endPosition : connection.endPosition =
    db.entry.block entry * blockLength + value.length
  sent : connection.sent <+: value

/-- The response is over: complete, refused, or cut off. -/
structure Ended (value : Bytes) (connection : Connection) : Prop where
  isOver : connection.live = false ∨ connection.handler.sends = false
  sent : connection.sent <+: value
  complete : connection.live = true → connection.handler = .handleMethod →
    connection.sent = value

section Handlers

variable {session after : Session kh} {value : Bytes} {entry : Nat}

theorem finishRequest_reply (run : finishRequest session = .ok after) :
    after.connection.reply = session.connection.reply ∧
      after.connection.handler = .handleMethod := by
  unfold finishRequest at run
  simp only [bind_eq_ok, pure_eq_ok] at run
  obtain ⟨ended, ending, rfl⟩ := run
  exact ⟨(cacheDestroy_reply ending).2.1, rfl⟩

theorem closeConnection_reply (run : closeConnection session = .ok after) :
    after.connection.reply = session.connection.reply := by
  unfold closeConnection at run
  simp only [bind_eq_ok, pure_eq_ok] at run
  obtain ⟨ended, ending, rfl⟩ := run
  exact (cacheDestroy_reply ending).2.1

theorem Ended.of_close (run : closeConnection session = .ok after)
    (sent : session.connection.sent <+: value) : Ended value after.connection where
  isOver := Or.inl (closeConnection_dead run)
  sent := by
    unfold Connection.sent
    rw [closeConnection_reply run]
    exact sent
  complete := fun live => by
    rw [closeConnection_dead run] at live
    cases live

theorem Ended.of_finish (run : finishRequest session = .ok after)
    (sent : session.connection.sent = value) : Ended value after.connection := by
  obtain ⟨reply, handler⟩ := finishRequest_reply run
  have same : after.connection.sent = value := by
    unfold Connection.sent
    rw [reply]
    exact sent
  exact ⟨Or.inr (by rw [handler]; rfl), same ▸ List.prefix_rfl, fun _ _ => same⟩

theorem Ended.of_refusal (sent : session.connection.sent <+: value)
    (kind : Template) : Ended value (session.writeResponse kind).connection :=
  ⟨Or.inr rfl, sent, fun _ waits => by cases waits⟩

/-- The next part of the head is queued. -/
theorem Sends.queue {db : Db kh}
    (sends : Sends db value entry session.connection) {chunk : Chunk}
    (head : chunk.valueBytes = []) {handler : Handler} (phase : handler.sends = true) :
    Sends db value entry (session.queue chunk handler).connection where
  method := sends.method
  level := sends.level
  held := sends.held
  opened := sends.opened
  phase := phase
  output := by
    rintro other isOutput
    obtain rfl := Option.some.inj isOutput
    exact head
  position := sends.position
  endPosition := sends.endPosition
  sent := sends.sent

theorem Sends.moveTo {db : Db kh}
    (sends : Sends db value entry session.connection) {handler : Handler}
    (phase : handler.sends = true) :
    Sends db value entry (session.moveTo handler).connection :=
  ⟨sends.method, sends.level, sends.held, sends.opened, phase, sends.output,
    sends.position, sends.endPosition, sends.sent⟩

/-- What the socket accepts of the head is no byte of the value. -/
theorem Sends.accept {db : Db kh} {connection : Connection}
    (sends : Sends db value entry connection) :
    Sends db value entry { connection with
      output := none
      reply := connection.reply ++ connection.output.toList } := by
  have same : Connection.sent { connection with
      output := none
      reply := connection.reply ++ connection.output.toList } =
        connection.sent := by
    unfold Connection.sent
    rw [List.flatMap_append]
    cases output : connection.output with
    | none => exact List.append_nil _
    | some chunk =>
        rw [Option.toList_some, List.flatMap_singleton, sends.output chunk output]
        exact List.append_nil _
  exact {
    method := sends.method
    level := sends.level
    held := sends.held
    opened := sends.opened
    phase := sends.phase
    output := fun _ isOutput => by cases isOutput
    position := by
      rw [same]
      exact sends.position
    endPosition := sends.endPosition
    sent := by
      rw [same]
      exact sends.sent }

/-- A longer part of a slice is reached by reading on where its beginning
ends. -/
theorem prefix_slice {file : ByteFile} {start count more : Nat} {bytes : Bytes}
    (begins : bytes <+: file.slice start count)
    (within : bytes.length + more ≤ count) :
    bytes ++ file.slice (start + bytes.length) more <+:
      file.slice start count := by
  obtain ⟨rest, isSlice⟩ := begins
  have length : bytes.length + rest.length = count := by
    rw [← List.length_append, isSlice, ByteFile.slice_length]
  have whole : file.slice start count =
      file.slice start bytes.length ++
        file.slice (start + bytes.length) rest.length := by
    rw [← ByteFile.slice_add, length]
  have isPart : bytes = file.slice start bytes.length :=
    (List.append_inj (isSlice.trans whole) (by rw [ByteFile.slice_length])).1
  refine ⟨file.slice (start + (bytes.length + more))
    (count - (bytes.length + more)), ?_⟩
  nth_rewrite 1 [isPart]
  rw [← ByteFile.slice_add, ← ByteFile.slice_add, Nat.add_sub_cancel' within]

theorem httpRespondContentbody_sends {outcome : SendOutcome}
    (sends : Sends session.db value entry session.connection)
    (owned : 0 ≤ session.db.entry.block entry)
    (isValue : value = session.db.disk.blockfile.slice
      ((session.db.entry.block entry).toNat * blockLength) value.length)
    (small : value.length ≤ blockLength)
    (run : httpRespondContentbody session outcome = .ok after) :
    (after.db = session.db ∧ Sends session.db value entry after.connection) ∨
      Ended value after.connection := by
  have shorter := sends.sent.length_le
  have position := sends.position
  have endPosition := sends.endPosition
  unfold blockLength at position endPosition small
  have left : bodyLeft session.connection =
      value.length - session.connection.sent.length := by
    unfold bodyLeft
    omega
  unfold httpRespondContentbody at run
  dsimp only at run
  split at run
  · next none_ =>
      refine Or.inr (.of_finish run (sends.sent.eq_of_length ?_))
      omega
  cases outcome with
  | again =>
      obtain rfl := pure_eq_ok.mp run
      exact Or.inl ⟨rfl, sends⟩
  | failed => exact Or.inr (.of_close run sends.sent)
  | sent count =>
      dsimp only at run
      have within := sentCount_le session count
      generalize sentCount session count = more at run within
      split at run
      · exact Or.inr (.of_close run sends.sent)
      -- the bytes that are sent follow those of the block that were sent
      have from_ : session.connection.position.toNat =
          (session.db.entry.block entry).toNat * blockLength +
            session.connection.sent.length := by
        unfold blockLength
        omega
      have begins := sends.sent
      rw [isValue] at begins
      have longer := prefix_slice begins
        (show session.connection.sent.length + more ≤ value.length by omega)
      rw [← isValue, ← from_] at longer
      have sent : Connection.sent { session.connection with
          position := session.connection.position + more
          reply := session.connection.reply ++ [.body
            ((fileOf session.db session.connection.fd).slice
              session.connection.position.toNat more)] } =
            session.connection.sent ++ session.db.disk.blockfile.slice
              session.connection.position.toNat more := by
        unfold Connection.sent
        rw [List.flatMap_append, List.flatMap_singleton, sends.opened]
        rfl
      rw [← sent] at longer
      have length := congrArg List.length sent
      rw [List.length_append, ByteFile.slice_length] at length
      split at run
      · next atEnd =>
          refine Or.inr (.of_finish run (longer.eq_of_length ?_))
          rw [length]
          omega
      · obtain rfl := pure_eq_ok.mp run
        refine Or.inl ⟨rfl, {
          method := sends.method
          level := sends.level
          held := sends.held
          opened := sends.opened
          phase := sends.phase
          output := sends.output
          position := ?_
          endPosition := sends.endPosition
          sent := longer }⟩
        rw [length]
        change session.connection.position + more = _
        rw [sends.position]
        push_cast
        omega

theorem runRespond_sends {outcome : SendOutcome}
    (run : runRespond session outcome = .ok after)
    (sends : Sends session.db value entry session.connection)
    (owned : 0 ≤ session.db.entry.block entry)
    (isValue : value = session.db.disk.blockfile.slice
      ((session.db.entry.block entry).toNat * blockLength) value.length)
    (small : value.length ≤ blockLength)
    (writes : session.connection.handler.writes = true) :
    (after.db = session.db ∧ Sends session.db value entry after.connection) ∨
      Ended value after.connection := by
  have phase := sends.phase
  unfold runRespond at run
  cases stands : session.connection.handler with
  | respondExpires | respondContentlength =>
      simp only [stands, sends.held] at run
      obtain rfl := pure_eq_ok.mp run
      exact Or.inl ⟨rfl, sends.queue rfl rfl⟩
  | respondResponseend =>
      simp only [stands] at run
      obtain rfl := pure_eq_ok.mp run
      refine Or.inl ⟨rfl, sends.queue rfl ?_⟩
      simp only [sends.method]
      rfl
  | respondContentbody =>
      simp only [stands] at run
      exact httpRespondContentbody_sends sends owned isValue small run
  | handleHttpversion | handleHeaders =>
      rw [stands] at writes
      cases writes
  | _ =>
      rw [stands] at phase
      cases phase

end Handlers

/-- A handler goes on with the value, or ends the response. -/
theorem handle_sends {env : Env} {session after : Session env.kh}
    {action : Action} {value : Bytes} {entry : Nat}
    (sends : Sends session.db value entry session.connection)
    (owned : 0 ≤ session.db.entry.block entry)
    (isValue : value = session.db.disk.blockfile.slice
      ((session.db.entry.block entry).toNat * blockLength) value.length)
    (small : value.length ≤ blockLength)
    (run : handle env session action = .ok after) :
    (after.db = session.db ∧ Sends session.db value entry after.connection) ∨
      Ended value after.connection := by
  have phase := sends.phase
  have apart {handler : Handler} (stands : session.connection.handler = handler)
      (other : handler.sends = false) : False := by
    rw [stands, other] at phase
    cases phase
  unfold handle at run
  split at run
  · exact Or.inr (.of_close run sends.sent)
  · next stands => exact (apart stands rfl).elim
  · next stands => exact (apart stands rfl).elim
  · next stands => exact (apart stands rfl).elim
  · next stands => exact (apart stands rfl).elim
  · obtain rfl := pure_eq_ok.mp run
    exact Or.inl ⟨rfl, sends.moveTo rfl⟩
  · unfold httpReadHeaderExtraction at run
    split at run
    · next isPut _ => simp [sends.method] at isPut
    · next isPut _ => simp [sends.method] at isPut
    · next _ isTable => simp [sends.level] at isTable
    · next _ isTable => simp [sends.level] at isTable
    · next isPurge _ => simp [sends.method] at isPurge
    · obtain rfl := pure_eq_ok.mp run
      exact Or.inl ⟨rfl, sends⟩
  · unfold httpReadHeaders at run
    rw [if_pos sends.level] at run
    unfold routeKey at run
    split at run
    · next isPut _ => simp [sends.method] at isPut
    · next isPut _ => simp [sends.method] at isPut
    · obtain rfl := pure_eq_ok.mp run
      exact Or.inl ⟨rfl, sends.queue rfl rfl⟩
    · next isHead _ => simp [sends.method] at isHead
    · next isDelete _ => simp [sends.method] at isDelete
    · obtain rfl := pure_eq_ok.mp run
      exact Or.inr (.of_refusal sends.sent _)
    · obtain rfl := pure_eq_ok.mp run
      exact Or.inr (.of_refusal sends.sent _)
  · obtain rfl := pure_eq_ok.mp run
    exact Or.inr (.of_refusal sends.sent _)
  · next stands => exact (apart stands rfl).elim
  · next stands => exact (apart stands rfl).elim
  · next stands => exact (apart stands rfl).elim
  · split at run
    · next writes =>
        unfold httpWriteHandle at run
        dsimp only at run
        have responds :=
          runRespond_sends run sends.accept owned isValue small writes
        exact responds
    · obtain rfl := pure_eq_ok.mp run
      exact Or.inl ⟨rfl, sends⟩
  · obtain rfl := pure_eq_ok.mp run
    exact Or.inl ⟨rfl, sends⟩

/-- The value of an entry in the block file. -/
def Db.blockValue (db : Db kh) (entry : Nat) : Bytes :=
  (db.blockBytes entry).take (db.entry.dataLength entry)

theorem Db.take_blockBytes (db : Db kh) (entry : Nat) {count : Nat}
    (short : count ≤ blockLength) :
    (db.blockBytes entry).take count = db.disk.blockfile.slice
      ((db.entry.block entry).toNat * blockLength) count := by
  unfold Db.blockBytes
  nth_rewrite 2 [← Nat.add_sub_cancel' short]
  rw [ByteFile.slice_add]
  exact List.take_left' ByteFile.slice_length

theorem Db.blockValue_length {db : Db kh} {entry : Nat}
    (inBlock : isSingleFile db entry = false) :
    (db.blockValue entry).length = db.entry.dataLength entry ∧
      db.entry.dataLength entry ≤ blockLength := by
  have short : db.entry.dataLength entry ≤ blockLength := by
    unfold isSingleFile at inBlock
    simpa using inBlock
  refine ⟨?_, short⟩
  unfold Db.blockValue
  rw [db.take_blockBytes entry short, ByteFile.slice_length]

/-- A reader of the block file starts at the block of its entry. -/
theorem dbTargetOpen_block {db opened : Db kh} {entry : Nat} {target : Target}
    (run : dbTargetOpen db entry false = .ok (opened, target)) :
    opened = db ∧ (isSingleFile db entry = false →
      target.fd = .blockfile ∧
        target.position = db.entry.block entry * blockLength) := by
  unfold dbTargetOpen at run
  dsimp only at run
  split at run
  · next single =>
      rw [if_neg Bool.false_ne_true] at run
      cases opens : dbEntryOpen db entry with
      | error fault =>
          rw [opens] at run
          cases run
      | ok fd =>
          rw [opens] at run
          obtain ⟨same, -⟩ := Prod.mk.inj (Except.ok.inj run)
          refine ⟨same.symm, fun inBlock => ?_⟩
          rw [inBlock] at single
          cases single
  · obtain ⟨rfl, rfl⟩ := Prod.mk.inj (pure_eq_ok.mp run)
    exact ⟨rfl, fun _ => ⟨rfl, rfl⟩⟩

theorem httpKeyLookup_sends {env : Env} {session after : Session env.kh}
    {table entry : Nat} {key : Bytes} {outcome : FlushOutcome}
    (script : session.connection.script = [])
    (isGet : session.connection.method = some .get)
    (run : httpKeyLookup env session table key outcome = .ok after)
    (held : after.connection.target = .entry entry)
    (inBlock : isSingleFile after.db entry = false) :
    after.connection.handler = .handleHttpversion ∧
      after.connection.live = session.connection.live ∧
      Sends after.db (after.db.blockValue entry) entry after.connection := by
  obtain ⟨unanswered, quiet⟩ := unanswered_of_script script
  unfold httpKeyLookup at run
  simp only [isGet] at run
  rw [bind_eq_ok] at run
  obtain ⟨⟨looked, found⟩, -, run⟩ := run
  unfold holdEntry at run
  cases found with
  | none =>
      obtain rfl := pure_eq_ok.mp run
      cases held
  | some other =>
      dsimp only at run
      rw [if_neg (by simp)] at run
      simp only [bind_eq_ok, pure_eq_ok, Prod.exists] at run
      obtain ⟨opened, target, opens, rfl⟩ := run
      obtain rfl := Held.entry.inj held
      obtain ⟨rfl, place⟩ := dbTargetOpen_block opens
      obtain ⟨fd, position⟩ := place inBlock
      have range := dbTargetOpen_range opens
      have length : (opened.blockValue other).length =
          opened.entry.dataLength other := (Db.blockValue_length inBlock).1
      have none_ (connection : Connection)
          (same : connection.reply = session.connection.reply) :
          connection.sent = [] := by
        unfold Connection.sent
        rw [same, unanswered]
        rfl
      refine ⟨rfl, rfl, rfl, rfl, rfl, fd, rfl, fun chunk isOutput => ?_, ?_, ?_,
        ?_⟩
      · have isOutput : session.connection.output = some chunk := isOutput
        rw [quiet] at isOutput
        cases isOutput
      · rw [none_]
        · exact position.trans (Int.add_zero _).symm
        · rfl
      · change target.endPosition = _ + ((opened.blockValue other).length : Int)
        rw [range, position, length]
      · rw [none_]
        · exact List.nil_prefix
        · rfl

theorem Sends.of_block {db later : Db kh} {value : Bytes} {entry : Nat}
    {connection : Connection} (sends : Sends db value entry connection)
    (block : later.entry.block entry = db.entry.block entry) :
    Sends later value entry connection :=
  { sends with
    position := by
      rw [block]
      exact sends.position
    endPosition := by
      rw [block]
      exact sends.endPosition }

/-- The connection is still in its response. -/
def Responding (connection : Nat) (server : Server kh) (event : Event) : Prop :=
  Undisturbed server event ∧ (server.connections connection).live = true ∧
    (server.connections connection).handler.sends = true

section Runs

variable {env : Env} {disk : Disk} {db : Db env.kh} {directory : Disk → Prop}
  {server later : Server env.kh} {connection entry : Nat}

theorem leads_of_responding
    (goes : (serverMachine env directory).Leads (Responding connection) server
      later) :
    (serverMachine env directory).Leads Undisturbed server later :=
  Relation.ReflTransGen.mono
    (fun _ _ ⟨event, responding, run⟩ => ⟨event, responding.1, run⟩) _ _ goes

/-- The download goes on, with the value where it was, or is over. -/
theorem sends_of_leads (distinct : DistinctIndex disk)
    (opens : dbOpen env.hashString disk = .ok db)
    (leads : (serverMachine env directory).Leads Undisturbed (.opened db)
      server)
    (settled : server.db.entry.Settled entry)
    (inBlock : isSingleFile server.db entry = false)
    (stored : 0 ≤ server.db.entry.block entry)
    (sends : Sends server.db (server.db.blockValue entry) entry
      (server.connections connection))
    (goes : (serverMachine env directory).Leads (Responding connection) server
      later)
    (few : db.blocksExist + later.db.entry.count < 1048576) :
    (Sends later.db (server.db.blockValue entry) entry
        (later.connections connection) ∧ later.db.entry.Settled entry ∧
      later.db.entry.block entry = server.db.entry.block entry ∧
      later.db.blockBytes entry = server.db.blockBytes entry) ∨
    Ended (server.db.blockValue entry) (later.connections connection) := by
  obtain ⟨length, short⟩ := Db.blockValue_length inBlock
  have one := (dbOpen_loadedOnce opens).refs_le
  induction goes with
  | refl => exact Or.inl ⟨sends, settled, rfl, rfl⟩
  | @tail before after earlier stepped ih =>
      obtain ⟨event, ⟨undisturbed, live, phase⟩, run⟩ := stepped
      have run : serverStep env before event = .ok after := run
      obtain ⟨sound, kept⟩ := kept_of_leads distinct opens
        (leads.trans (leads_of_responding earlier))
      have keeps := serverStep_keepsBytes connection sound kept one
        undisturbed.few undisturbed.clear run
      have count := keeps.count
      rcases ih (by omega) with ⟨sends, settled, block, bytes⟩ | ended
      · have owned : 0 ≤ before.db.entry.block entry := block ▸ stored
        by_cases own : ∃ action, event = .request connection action
        · obtain ⟨action, rfl⟩ := own
          unfold serverStep at run
          dsimp only at run
          rw [if_pos live] at run
          simp only [bind_eq_ok, pure_eq_ok] at run
          obtain ⟨session, handles, rfl⟩ := run
          have next : (before.withSession connection session).connections
              connection = session.connection := Function.update_self ..
          have isValue : server.db.blockValue entry =
              before.db.disk.blockfile.slice
                ((before.db.entry.block entry).toNat * blockLength)
                  (server.db.blockValue entry).length := by
            rw [length, ← before.db.take_blockBytes entry short, bytes]
            rfl
          rw [next]
          have responds := handle_sends (show Sends (before.session connection).db
            _ entry (before.session connection).connection from sends) owned
              isValue (length.trans_le short) handles
          rcases responds with ⟨same, sends⟩ | ended
          · have same : (before.withSession connection session).db = before.db :=
              same
            left
            rw [same]
            exact ⟨sends, settled, block, bytes⟩
          · exact Or.inr ended
        · have others : ∀ action, event ≠ .request connection action :=
            fun action isOwn => own ⟨action, isOwn⟩
          obtain ⟨sameBlock, target⟩ := keeps.block others entry settled sends.held
          have isSame : after.connections connection =
              before.connections connection := by
            rcases serverStep_connection run connection with
              ⟨same, -⟩ | new | ⟨action, _, isOwn, -⟩
            · exact same
            · rw [new] at target
              cases target
            · exact absurd isOwn (others action)
          have sameBytes : after.db.blockBytes entry =
              before.db.blockBytes entry := by
            rcases keeps.bytes few entry settled with released | ⟨-, same⟩
            · rw [sameBlock] at released
              omega
            · exact same owned
          left
          rw [isSame]
          exact ⟨sends.of_block sameBlock,
            (serverStep_lasts sound run entry settled).1,
            sameBlock.trans block, sameBytes.trans bytes⟩
      · rcases ended.isOver with dead | isOver
        · rw [dead] at live
          cases live
        · rw [isOver] at phase
          cases phase

end Runs

/-- A `GET` that finds a key in the block file is answered with the bytes that
the key has then, and with all of them where the connection is not closed,
whatever other connections do to the key before the last byte is sent. -/
theorem download_bytes (env : Env) {disk : Disk} {db : Db env.kh}
    (distinct : DistinctIndex disk)
    (opens : dbOpen env.hashString disk = .ok db)
    {asked server later : Server env.kh}
    (leads : (serverMachine env DistinctIndex).Leads Undisturbed (.opened db)
      asked) {connection table entry : Nat} {key : Word}
    {outcome : FlushOutcome}
    (undisturbed : Undisturbed asked
      (.request connection (.keySegment key outcome)))
    (live : (asked.connections connection).live = true)
    (waits : (asked.connections connection).handler = .handleUrlKey)
    (heldTable : (asked.connections connection).target = .table table)
    (isGet : (asked.connections connection).method = some .get)
    (run : serverStep env asked (.request connection (.keySegment key outcome)) =
      .ok server)
    (held : (server.connections connection).target = .entry entry)
    (inBlock : isSingleFile server.db entry = false)
    (stored : 0 ≤ server.db.entry.block entry)
    (goes : (serverMachine env DistinctIndex).Leads (Responding connection)
      server later)
    (few : db.blocksExist + later.db.entry.count < 1048576) :
    (later.connections connection).sent <+: server.db.blockValue entry ∧
      ((later.connections connection).live = true →
        (later.connections connection).handler = .handleMethod →
          (later.connections connection).sent = server.db.blockValue entry) := by
  have reachable : (serverMachine env DistinctIndex).Reachable Machine.anyStep
      asked :=
    Machine.Reachable.leads (.start ⟨disk, db, distinct, opens, rfl⟩)
      (Relation.ReflTransGen.mono
        (fun _ _ ⟨event, _, run⟩ => ⟨event, trivial, run⟩) _ _ leads)
  have answers := answers_of_reachable env reachable
  have sound := (kept_of_leads distinct opens leads).1
  have answersAfter := serverStep_answers sound answers run
  have script := answers connection live
  unfold Framed at script
  rw [waits] at script
  have whole := leads.tail ⟨_, undisturbed, run⟩
  have begins : (server.connections connection).handler = .handleHttpversion ∧
      (server.connections connection).live = true ∧
      Sends server.db (server.db.blockValue entry) entry
        (server.connections connection) := by
    unfold serverStep at run
    dsimp only at run
    rw [if_pos live] at run
    simp only [bind_eq_ok, pure_eq_ok] at run
    obtain ⟨session, handles, isNext⟩ := run
    have next : server.connections connection = session.connection := by
      rw [← isNext]
      exact Function.update_self ..
    have sameDb : server.db = session.db := by
      rw [← isNext]
      rfl
    have standing : (asked.session connection).connection.handler =
        .handleUrlKey := waits
    have table_ : (asked.session connection).connection.target =
        .table table := heldTable
    unfold handle at handles
    simp only [standing, table_] at handles
    rw [next] at held ⊢
    rw [sameDb] at inBlock ⊢
    obtain ⟨handler, alive, sends⟩ := httpKeyLookup_sends script isGet handles
      held inBlock
    exact ⟨handler, alive.trans live, sends⟩
  obtain ⟨handler, liveAfter, sends⟩ := begins
  have framed := answersAfter connection liveAfter
  unfold Framed at framed
  rw [handler] at framed
  have settled := (framed.2 entry held (.inl sends.method)).settled
  rcases sends_of_leads distinct opens whole settled inBlock stored sends goes few
    with ⟨sends, -⟩ | ended
  · refine ⟨sends.sent, fun _ isOver => ?_⟩
    have phase := sends.phase
    rw [isOver] at phase
    cases phase
  · exact ⟨ended.sent, ended.complete⟩

/-- A test of a step while the connection responds. -/
def responds (connection : Nat) (server : Server kh) (event : Event) : Bool :=
  undisturbs server event &&
    decide ((server.connections connection).live = true ∧
      (server.connections connection).handler.sends = true)

theorem responds_sound {connection : Nat} {server : Server kh} {event : Event}
    (sound : server.Sound) (passes : responds connection server event = true) :
    Responding connection server event := by
  obtain ⟨undisturbed, stands⟩ := Bool.and_eq_true_iff.mp passes
  exact ⟨undisturbs_sound sound undisturbed, of_decide_eq_true stands⟩

/-- A new key is downloaded by one connection and replaced by another one
before the first byte of it is sent. -/
def replacesUnderDownload (test : Db listHash → Server listHash →
    Server listHash → Server listHash → Bool) : Bool :=
  endsIn (dbOpen letterHash twoTablesDisk) fun db =>
    ((serverMachine listEnv DistinctIndex).runWithin undisturbs (.opened db)
      ([.accept, .accept] ++ uploads 0 97 120 1 ++
        [.request 1 (.requestMethod (.known .get)),
          .request 1 (.tableSegment (letter 97))])).any fun asked =>
            endsIn (serverStep listEnv asked
                (.request 1 (.keySegment (letter 120) noFlush))) fun server =>
              ((serverMachine listEnv DistinctIndex).runWithin (responds 1)
                server ([.request 1 .httpVersion, .request 1 .endOfHeaders] ++
                  uploads 0 97 120 2 ++
                  List.replicate 4 (.request 1 (.writeReady (.sent 100))))).any
                    (test db asked server)

theorem download_bytes_replaced :
    ∃ server later : Server listHash,
      (server.connections 1).target = .entry 3 ∧
        later.db.entry.deleted 3 = true ∧
        (later.connections 1).handler = .handleMethod ∧
        (later.connections 1).sent = [1] ∧
        (later.connections 1).sent = server.db.blockValue 3 := by
  have downloads : replacesUnderDownload (fun db asked server later =>
      decide ((asked.connections 1).live = true ∧
        (asked.connections 1).handler = .handleUrlKey ∧
        (asked.connections 1).target = .table 0 ∧
        (asked.connections 1).method = some .get ∧
        undisturbs asked (.request 1 (.keySegment (letter 120) noFlush))) &&
      decide ((server.connections 1).target = .entry 3 ∧
        isSingleFile server.db 3 = false ∧ server.db.entry.block 3 = 3) &&
      decide (later.db.entry.deleted 3 = true ∧
        (later.connections 1).live = true ∧
        (later.connections 1).handler = .handleMethod ∧
        (later.connections 1).sent = [1] ∧
        db.blocksExist + later.db.entry.count < 1048576)) = true := by
    decide +kernel
  obtain ⟨db, opens, reached⟩ := exists_of_endsIn downloads
  obtain ⟨asked, runs, reached⟩ := (Option.any_eq_true ..).mp reached
  obtain ⟨server, stepped, reached⟩ := exists_of_endsIn reached
  obtain ⟨later, answers, passes⟩ := (Option.any_eq_true ..).mp reached
  obtain ⟨passes, after⟩ := Bool.and_eq_true_iff.mp passes
  obtain ⟨before, found⟩ := Bool.and_eq_true_iff.mp passes
  obtain ⟨live, waits, heldTable, isGet, undisturbed⟩ := of_decide_eq_true before
  obtain ⟨held, inBlock, block⟩ := of_decide_eq_true found
  obtain ⟨replaced, alive, isOver, sent, few⟩ := of_decide_eq_true after
  have sound := (opened_kept twoTables_distinct opens).1
  have leads : (serverMachine listEnv DistinctIndex).Leads Undisturbed
      (.opened db) asked :=
    leads_of_undisturbs sound (fun _ _ => undisturbs_sound)
      (fun _ _ undisturbed => undisturbed) runs
  have soundAsked := (kept_of_leads twoTables_distinct opens leads).1
  have undisturbed := undisturbs_sound soundAsked undisturbed
  have soundServer := serverStep_sound soundAsked undisturbed.clear stepped
  have goes : (serverMachine listEnv DistinctIndex).Leads (Responding 1) server
      later :=
    leads_of_undisturbs soundServer (fun _ _ => responds_sound)
      (fun _ _ meets => meets.1) answers
  obtain ⟨-, complete⟩ := download_bytes listEnv twoTables_distinct opens leads
    undisturbed live waits heldTable isGet stepped held inBlock (by omega) goes
    few
  exact ⟨server, later, held, replaced, isOver, sent, complete alive isOver⟩

end SimpleCache
