import SimpleCache.Grammar
import SimpleCache.Opening
import SimpleCache.Resizing

/-!
# What a whole request does

The handlers run over a request in the read buffer and do what its method, its
names, its headers and its body ask for.
-/

namespace SimpleCache

namespace Parsing

variable {kh : KHash}

/-- A request on a key.  `blank` stands in the empty line before its
newline. -/
structure Request where
  method : Method
  table : Bytes
  key : Bytes
  version : Bytes
  lines : List Line
  blank : Bytes
  body : Bytes

namespace Request

/-- `T/K V` and the end of the line. -/
def target (request : Request) : Bytes :=
  request.table ++ slash :: (request.key ++ space :: request.version)

/-- The header lines, the empty line and the body. -/
def tail (request : Request) : Bytes :=
  linesBytes request.lines ++
    (request.blank ++ newline :: request.body)

def bytes (request : Request) : Bytes :=
  methodText request.method ++ space ::
    (slash :: request.target ++ newline :: request.tail)

/-- A request on a key, with a body that its one `Content-Length` announces
exactly when it is an upload. -/
structure WellFormed (request : Request) : Prop where
  onKey : request.method ≠ .purge ∧ request.method ≠ .admin
  table : ∀ byte ∈ request.table, byte ≠ slash ∧ byte ≠ space
  key : space ∉ request.key
  version : newline ∉ request.version
  lines : ∀ line ∈ request.lines, line.WellFormed request.method
  blank : request.blank = [] ∨ request.blank = [carriageReturn]
  upload : request.method = .put →
    request.lines.flatMap Line.lengths = [request.body.length] ∧
      request.body ≠ []
  noBody : request.method ≠ .put → request.body = []

end Request

section Serving

variable {env : Env} {outcome : FlushOutcome} {written : Int}
  {request : Request}

/-- The lookup of the key and the header lines. -/
def performHead (env : Env) (outcome : FlushOutcome) (request : Request)
    (table : Nat) (session : Session env.kh) :
    Except Fault (Session env.kh) := do
  let session ← httpKeyLookup env session table request.key outcome
  performLines env request.lines (session.moveTo .handleHeaders)

/-- The end of the headers, and the body of an upload. -/
def performEnd (written : Int) (request : Request) (session : Session kh) :
    Except Fault (Session kh) := do
  let session ← SimpleCache.httpReadHeaders session
  if request.method = .put then
    httpCacheHandleRequestBody session request.body written
  else
    return session

/-- What the request asks for: the lookup of its table and, when there is one,
of its key, each number of its headers, the response or the body.  The input
is consumed, up to the last newline when there is no table. -/
def performRequest (env : Env) (outcome : FlushOutcome) (written : Int)
    (request : Request) (reading : Reading env.kh) :
    Except Fault (Reading env.kh × StateAction) := do
  let session ← httpReadTableSegment env.hashString
    (SimpleCache.httpReadRequeststartmethod reading.session
      (.known request.method)) request.table
  match session.connection.target with
  | .table table =>
      respond (reading.input.readMove request.bytes.length) (do
        let session ← performHead env outcome request table session
        performEnd written request session)
  | _ =>
      respond (reading.input.readMove (request.bytes.length - 1 : Nat))
        (.ok (session.moveTo .respondWriteonly))

/-- What the lookup of a table leaves. -/
theorem httpReadTableSegment_cases {hashString : Bytes → UInt32}
    {session after : Session kh} {name : Bytes}
    (run : httpReadTableSegment hashString session name = .ok after) :
    after.connection.method = session.connection.method ∧
      ((∃ table, after.connection.target = .table table ∧
          after.connection.handler = .handleUrlKey) ∨
        after.connection.target = .null ∧
          after.connection.handler = .handleEolwritetoend ∧
          session.connection.method ≠ some .put) := by
  unfold httpReadTableSegment at run
  simp only [bind_eq_ok, Prod.exists] at run
  obtain ⟨db, table, lookup, run⟩ := run
  cases table with
  | some table =>
      obtain rfl := pure_eq_ok.mp run
      exact ⟨rfl, Or.inl ⟨table, rfl, rfl⟩⟩
  | none =>
      obtain rfl := pure_eq_ok.mp run
      refine ⟨rfl, Or.inr ⟨rfl, rfl, fun isPut => ?_⟩⟩
      rw [isPut] at lookup
      change (dbTableGetWrite hashString session.db name >>= fun result =>
        pure (result.1, some result.2)) = _ at lookup
      rw [bind_eq_ok] at lookup
      obtain ⟨result, -, impossible⟩ := lookup
      cases pure_eq_ok.mp impossible

theorem holdEntry_ready {session after : Session kh} {table : Nat}
    {entry : Option Nat} (run : holdEntry session table entry = .ok after) :
    after.connection.method = session.connection.method ∧
      after.connection.level = .key ∧
      after.connection.handler = .handleHttpversion := by
  unfold holdEntry at run
  cases entry with
  | none =>
      obtain rfl := pure_eq_ok.mp run
      exact ⟨rfl, rfl, rfl⟩
  | some entry =>
      dsimp only at run
      split at run
      · obtain rfl := pure_eq_ok.mp run
        exact ⟨rfl, rfl, rfl⟩
      · simp only [bind_eq_ok, pure_eq_ok, Prod.exists] at run
        obtain ⟨db, target, -, rfl⟩ := run
        exact ⟨rfl, rfl, rfl⟩

/-- What the lookup of a key leaves. -/
theorem httpKeyLookup_ready {session after : Session env.kh} {table : Nat}
    {key : Bytes} {method : Method}
    (isMethod : session.connection.method = some method)
    (onKey : method ≠ .purge ∧ method ≠ .admin)
    (run : httpKeyLookup env session table key outcome = .ok after) :
    after.connection.method = some method ∧
      after.connection.level = .key ∧
      after.connection.handler = .handleHttpversion := by
  unfold httpKeyLookup at run
  rw [isMethod] at run
  cases method with
  | purge => exact absurd rfl onKey.1
  | admin => exact absurd rfl onKey.2
  | get =>
      simp only [bind_eq_ok, Prod.exists] at run
      obtain ⟨db, entry, -, run⟩ := run
      obtain ⟨method, level, handler⟩ := holdEntry_ready run
      exact ⟨method.trans isMethod, level, handler⟩
  | head =>
      simp only [bind_eq_ok, Prod.exists] at run
      obtain ⟨db, entry, -, run⟩ := run
      obtain ⟨method, level, handler⟩ := holdEntry_ready run
      exact ⟨method.trans isMethod, level, handler⟩
  | put =>
      simp only [bind_eq_ok, Prod.exists] at run
      obtain ⟨db, entry, -, run⟩ := run
      obtain ⟨method, level, handler⟩ := holdEntry_ready run
      exact ⟨method.trans isMethod, level, handler⟩
  | delete =>
      simp only [bind_eq_ok, Prod.exists] at run
      obtain ⟨db, entry, -, run⟩ := run
      obtain ⟨method, level, handler⟩ := holdEntry_ready run
      exact ⟨method.trans isMethod, level, handler⟩

/-- From the version on. -/
theorem behaves_tail {reading : Reading env.kh} {final : ReadBuffer}
    (wellFormed : request.WellFormed)
    (isHandler : reading.session.connection.handler = .handleHttpversion)
    (isMethod : reading.session.connection.method = some request.method)
    (isKey : reading.session.connection.level = .key)
    (idle : reading.extracting = none)
    (placed : Placed reading.input
      (request.version ++ newline :: request.tail))
    (isFinal : reading.input.readMove
      (request.version ++ newline :: request.tail).length = final)
    (seekable : request.method = .put → ∀ session,
      performLines env request.lines
        (reading.session.moveTo .handleHeaders) = .ok session →
          Seekable session.connection)
    (accepts : request.method = .put → (request.body.length : Int) ≤ written) :
    Behaves env outcome written reading
      (request.version ++ newline :: request.tail)
      (respond final (do
        let session ← performLines env request.lines
          (reading.session.moveTo .handleHeaders)
        performEnd written request session)) := by
  have run := @runHandler_version env outcome written _ _ _
    isHandler idle placed wellFormed.version
  have moved : Placed (reading.input.readMove (request.version.length + 1))
      request.tail := placed.moveBehind
  refine @Behaves.step env outcome written _
    (reading, request.version ++ newline :: request.tail) (_, request.tail) ?_
    ⟨run, moved, by simp [Request.tail], by
      simp only [List.length_append, List.length_cons]
      omega⟩
  have reads : ReadsKey (reading.session.moveTo .handleHeaders).connection
      request.method := ⟨rfl, isMethod, isKey⟩
  refine @behaves_lines env outcome written _ _ { reading.move (request.version.length + 1)
    with session := reading.session.moveTo .handleHeaders, state := 1 } _ _ _
    wellFormed.lines reads idle rfl moved (by simp) fun session performs => ?_
  have sessionReads := (performLines_keeps wellFormed.lines reads performs).1
  have blankPlaced := moved.move
  have isEnd : ((reading.input.readMove (request.version.length + 1)).readMove
      (linesBytes request.lines).length).readMove
        (request.blank.length + 1 + request.body.length) = final := by
    rw [readMove_readMove, readMove_readMove, ← isFinal]
    congr 1
    simp only [Request.tail, List.length_append, List.length_cons]
    omega
  unfold performEnd
  by_cases isPut : request.method = .put
  · obtain ⟨oneLength, nonempty⟩ := wellFormed.upload isPut
    have lines := wellFormed.lines
    rw [isPut] at reads lines sessionReads
    have sized := (performLines_sized lines reads performs).2
      request.body.length oneLength
    simp only [if_pos isPut]
    exact @behaves_upload env outcome written { ({ reading.move
      (request.version.length + 1) with
        session := reading.session.moveTo .handleHeaders,
        state := 1 } : Reading env.kh).move
          (linesBytes request.lines).length with session, state := 1 } _ _ _
      sessionReads idle rfl wellFormed.blank blankPlaced sized nonempty
      (seekable isPut session performs) (accepts isPut) isEnd
  · have noBody := wellFormed.noBody isPut
    rw [noBody] at blankPlaced isEnd ⊢
    have none_ : ((([] : Bytes).length : Nat) : Int) = 0 := rfl
    rw [none_, Int.add_zero] at isEnd
    simp only [if_neg isPut]
    have answers := @behaves_answer env outcome written
      { ({ reading.move
        (request.version.length + 1) with
          session := reading.session.moveTo .handleHeaders,
          state := 1 } : Reading env.kh).move
            (linesBytes request.lines).length with session, state := 1 } _ _ _
      sessionReads isPut idle rfl wellFormed.blank blankPlaced
      isEnd
    have same : (SimpleCache.httpReadHeaders session >>= fun session =>
        (pure session : Except Fault (Session env.kh))) =
          SimpleCache.httpReadHeaders session := by
      cases SimpleCache.httpReadHeaders session <;> rfl
    rw [same]
    exact answers

/-- From the key on. -/
theorem behaves_key {reading : Reading env.kh} {table : Nat}
    {final : ReadBuffer} (wellFormed : request.WellFormed)
    (isHandler : reading.session.connection.handler = .handleUrlKey)
    (isMethod : reading.session.connection.method = some request.method)
    (held : reading.session.connection.target = .table table)
    (idle : reading.extracting = none)
    (placed : Placed reading.input (request.key ++ space ::
      (request.version ++ newline :: request.tail)))
    (isFinal : reading.input.readMove (request.key ++ space ::
      (request.version ++ newline :: request.tail)).length = final)
    (seekable : request.method = .put → ∀ session,
      performHead env outcome request table reading.session = .ok session →
        Seekable session.connection)
    (accepts : request.method = .put → (request.body.length : Int) ≤ written) :
    Behaves env outcome written reading (request.key ++ space ::
      (request.version ++ newline :: request.tail))
      (respond final (do
        let session ← performHead env outcome request table reading.session
        performEnd written request session)) := by
  have run := @runHandler_url2 env outcome written _ _ _ _
    isHandler idle held placed wellFormed.key
  have moved : Placed (reading.input.readMove (request.key.length + 1))
      (request.version ++ newline :: request.tail) := placed.moveBehind
  have isEnd : (reading.input.readMove (request.key.length + 1)).readMove
      (request.version ++ newline :: request.tail).length = final := by
    rw [readMove_readMove, ← isFinal]
    congr 1
    simp only [List.length_append, List.length_cons]
    omega
  unfold performHead
  rw [bind_assoc]
  refine behaves_bind (by simp) run (fun _ _ => moved) (by simp) (by
    simp only [List.length_append, List.length_cons]
    omega) fun session looked => ?_
  obtain ⟨method, level, handler⟩ := httpKeyLookup_ready isMethod
    wellFormed.onKey looked
  refine @behaves_tail env outcome written _ { reading.move (request.key.length + 1) with
    session, state := 0 } _ wellFormed handler method level idle moved isEnd
      (fun isPut after performs => ?_) accepts
  refine seekable isPut after ?_
  unfold performHead
  rw [looked, ok_bind]
  exact performs

theorem Quiet.blank {blank : Bytes}
    (isBlank : blank = [] ∨ blank = [carriageReturn]) : Quiet 1 blank 1 := by
  obtain rfl | rfl := isBlank
  · exact ⟨rfl, fun n _ => by simp⟩
  · refine ⟨rfl, fun n le => ?_⟩
    simp only [List.length_singleton] at le
    obtain rfl | rfl : n = 0 ∨ n = 1 := by omega
    · exact Nat.le_refl 1
    · exact Nat.le_refl 1

/-- A request on a table that does not exist is read to its end. -/
theorem behaves_refused {reading : Reading env.kh} {final : ReadBuffer}
    (wellFormed : request.WellFormed)
    (isHandler : reading.session.connection.handler = .handleEolwritetoend)
    (idle : reading.extracting = none) (waits : reading.state = 2)
    (other : request.method ≠ .put)
    (plain : newline ∉ request.table ∧ newline ∉ request.key)
    (placed : Placed reading.input
      (request.target ++ newline :: request.tail))
    (isFinal : reading.input.readMove
      ((request.target ++ newline :: request.tail).length - 1 : Nat) = final) :
    Behaves env outcome written reading
      (request.target ++ newline :: request.tail)
      (respond final (.ok (reading.session.moveTo .respondWriteonly))) := by
  have noBody := wellFormed.noBody other
  have text : request.target ++ newline :: request.tail =
      (((request.target ++ [newline]) ++ linesBytes request.lines) ++
        request.blank) ++ [newline] := by
    unfold Request.tail
    rw [noBody]
    simp
  have noNewline : newline ∉ request.target := by
    unfold Request.target
    simp only [List.mem_append, List.mem_cons, not_or]
    exact ⟨plain.1, by decide, plain.2, by decide, wellFormed.version⟩
  have visible : ∃ byte ∈ request.target, byte ≠ carriageReturn :=
    ⟨slash, by simp [Request.target], by decide⟩
  have quiet := ((Quiet.line (Nat.zero_le 1) noNewline visible).append
    (Quiet.lines wellFormed.lines other)).append (Quiet.blank wellFormed.blank)
  rw [text] at placed isFinal ⊢
  have run := @runHandler_refused env outcome written _ _
    isHandler idle waits placed quiet
  rw [List.length_append, List.length_singleton, Nat.add_sub_cancel] at isFinal
  have ends := @behaves_ends env outcome written _ _
    ((((request.target ++ [newline]) ++ linesBytes request.lines) ++
      request.blank) ++ [newline]) (by simp) run
  rw [move_ends idle isFinal] at ends
  exact ends

/-- From the table on. -/
theorem behaves_table {reading : Reading env.kh}
    {final last : ReadBuffer} (wellFormed : request.WellFormed)
    (isHandler : reading.session.connection.handler = .handleUrl)
    (isMethod : reading.session.connection.method = some request.method)
    (idle : reading.extracting = none)
    (placed : Placed reading.input
      (slash :: request.target ++ newline :: request.tail))
    (isFinal : reading.input.readMove
      (slash :: request.target ++ newline :: request.tail).length = final)
    (isLast : reading.input.readMove ((slash :: request.target ++
      newline :: request.tail).length - 1 : Nat) = last)
    (plain : ∀ session, httpReadTableSegment env.hashString reading.session
      request.table = .ok session → session.connection.target = .null →
        newline ∉ request.table ∧ newline ∉ request.key)
    (seekable : request.method = .put → ∀ looked table session,
      httpReadTableSegment env.hashString reading.session request.table =
        .ok looked → looked.connection.target = .table table →
      performHead env outcome request table looked = .ok session →
        Seekable session.connection)
    (accepts : request.method = .put → (request.body.length : Int) ≤ written) :
    Behaves env outcome written reading
      (slash :: request.target ++ newline :: request.tail) (do
        let session ← httpReadTableSegment env.hashString reading.session
          request.table
        match session.connection.target with
        | .table table =>
            respond final (do
              let session ← performHead env outcome request table session
              performEnd written request session)
        | _ => respond last (.ok (session.moveTo .respondWriteonly))) := by
  have text : slash :: request.target ++ newline :: request.tail =
      slash :: request.table ++ slash :: (request.key ++ space ::
        (request.version ++ newline :: request.tail)) := by
    unfold Request.target
    simp
  have isPlaced := placed
  rw [text] at isPlaced
  have run := @runHandler_url1 env outcome written _ _ _
    isHandler idle isPlaced wellFormed.table
  cases looks : httpReadTableSegment env.hashString reading.session
      request.table with
  | error fault =>
      rw [looks] at run
      exact behaves_fails (by simp) run
  | ok session =>
      rw [looks, ok_bind] at run
      rw [ok_bind]
      obtain ⟨sameMethod, ⟨table, isTable, handler⟩ | ⟨isNull, handler, notPut⟩⟩ :=
        httpReadTableSegment_cases looks
      · rw [if_pos handler] at run
        rw [isTable]
        have moved : Placed (reading.input.readMove (request.table.length + 2))
            (request.key ++ space ::
              (request.version ++ newline :: request.tail)) := by
          have after := isPlaced.moveBehind
          rw [List.length_cons] at after
          exact after
        have isEnd : (reading.input.readMove (request.table.length + 2)).readMove
            (request.key ++ space ::
              (request.version ++ newline :: request.tail)).length = final := by
          rw [readMove_readMove, ← isFinal, text]
          congr 1
          simp only [List.length_append, List.length_cons]
          omega
        have rest := @behaves_key env outcome written _
          { reading.move (request.table.length + 2) with
            session, state := reading.state + 1 } _ _ wellFormed handler
          (sameMethod.trans isMethod) isTable idle moved isEnd
          (fun isPut after performs =>
            seekable isPut session table after looks isTable performs) accepts
        refine @Behaves.step env outcome written _ (reading, _) (_, _) rest
          ⟨run, moved, by simp, ?_⟩
        rw [text]
        simp only [List.length_append, List.length_cons]
        omega
      · have notKey : session.connection.handler ≠ .handleUrlKey := by
          rw [handler]
          simp
        rw [if_neg notKey] at run
        rw [isNull]
        have moved : Placed (reading.input.readMove 1)
            (request.target ++ newline :: request.tail) :=
          @Placed.move _ [slash] _ placed
        have isEnd : (reading.input.readMove 1).readMove
            ((request.target ++ newline :: request.tail).length - 1 : Nat) =
              last := by
          rw [readMove_readMove, ← isLast]
          congr 1
          simp only [List.length_append, List.length_cons, List.cons_append]
          omega
        rw [isMethod] at notPut
        have rest := @behaves_refused env outcome written _
          { reading.move 1 with session, state := 2 } _ wellFormed
          handler idle rfl (fun same => notPut (congrArg some same))
          (plain session looks isNull) moved isEnd
        refine @Behaves.step env outcome written _ (reading, _) (_, _) rest
          ⟨run, moved, by simp, ?_⟩
        simp only [List.length_append, List.length_cons, List.cons_append]
        omega

/-- What arrives in an empty buffer does not wrap. -/
theorem placed_store {input : ReadBuffer} {bytes : Bytes}
    (empty : input.writePosition = input.readPosition)
    (short : bytes.length ≤ bufferSize) :
    Placed (input.rewind.store bytes) bytes := by
  have rewound : input.rewind =
      { input with readPosition := 0, writePosition := 0 } := by
    unfold ReadBuffer.rewind
    rw [if_pos empty]
  have small : bytes.length ≤ 16384 := short
  rw [rewound]
  refine ⟨⟨?_, small, ?_, fun offset inRange => ?_⟩, ?_⟩
  · change 0 < 65536
    decide
  · rfl
  · have here : (0 + offset) % 16384 = offset := by omega
    unfold ReadBuffer.store
    dsimp only
    rw [here]
    have start : 0 % bufferSize = 0 := rfl
    rw [start, if_pos (Nat.zero_le _), Nat.sub_zero,
      List.getElem?_eq_getElem inRange]
    rfl
  · change 0 + bytes.length ≤ 16384
    omega

/-- The connection when a request has arrived in its empty buffer. -/
def arrive (reading : Reading env.kh) (request : Request) : Reading env.kh :=
  { reading with input := reading.input.rewind.store request.bytes }

/-- The lookup of the table, of the key and the header lines. -/
def performLookups (env : Env) (outcome : FlushOutcome) (request : Request)
    (session : Session env.kh) : Except Fault (Session env.kh) := do
  let session ← httpReadTableSegment env.hashString
    (SimpleCache.httpReadRequeststartmethod session (.known request.method))
    request.table
  match session.connection.target with
  | .table table => performHead env outcome request table session
  | _ => return session

/-- A request that arrives whole is taken apart into its parts, and has the
effect of its parts. -/
theorem readLoop_performs {reading : Reading env.kh} {rounds : Nat}
    (wellFormed : request.WellFormed)
    (fresh : reading.session.connection.handler = .handleMethod)
    (idle : reading.extracting = none)
    (empty : reading.input.writePosition = reading.input.readPosition)
    (short : request.bytes.length ≤ bufferSize)
    (plain : ∀ session, httpReadTableSegment env.hashString
      (SimpleCache.httpReadRequeststartmethod reading.session
        (.known request.method)) request.table = .ok session →
      session.connection.target = .null →
        newline ∉ request.table ∧ newline ∉ request.key)
    (seekable : request.method = .put → ∀ session,
      performLookups env outcome request reading.session = .ok session →
        Seekable session.connection)
    (accepts : request.method = .put → (request.body.length : Int) ≤ written)
    (enough : request.bytes.length ≤ rounds) :
    readLoop env outcome written rounds (arrive reading request) (-1) =
      performRequest env outcome written request (arrive reading request) := by
  have placed : Placed (arrive reading request).input request.bytes :=
    placed_store empty short
  have run := @runHandler_method env outcome written
    (arrive reading request) _ _ fresh idle placed
  have moved : Placed ((arrive reading request).input.readMove
      ((methodText request.method).length + 1))
      (slash :: request.target ++ newline :: request.tail) :=
    placed.moveBehind
  have isEnd : ((arrive reading request).input.readMove
      ((methodText request.method).length + 1)).readMove
        (slash :: request.target ++ newline :: request.tail).length =
      (arrive reading request).input.readMove request.bytes.length := by
    rw [readMove_readMove]
    congr 1
    simp only [Request.bytes, List.length_append, List.length_cons]
    omega
  have isLast : ((arrive reading request).input.readMove
      ((methodText request.method).length + 1)).readMove
        ((slash :: request.target ++ newline :: request.tail).length - 1 : Nat) =
      (arrive reading request).input.readMove
        (request.bytes.length - 1 : Nat) := by
    rw [readMove_readMove]
    congr 1
    simp only [Request.bytes, List.length_append, List.length_cons]
    omega
  have rest := @behaves_table env outcome written _
    { (arrive reading request).move
      ((methodText request.method).length + 1) with
        session := SimpleCache.httpReadRequeststartmethod reading.session
          (.known request.method)
        state := 0 } _ _ wellFormed rfl rfl idle moved isEnd isLast plain
    (fun isPut looked table session looks held performs =>
      seekable isPut session (by
        unfold performLookups
        rw [looks, ok_bind, held]
        exact performs)) accepts
  refine @Behaves.step env outcome written _
    (arrive reading request, request.bytes) (_, _) rest
    ⟨run, moved, by simp, ?_⟩ rounds (-1) enough (Or.inl rfl)
  simp only [Request.bytes, List.length_append, List.length_cons]
  omega

end Serving

end Parsing

end SimpleCache
