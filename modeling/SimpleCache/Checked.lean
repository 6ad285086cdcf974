import SimpleCache.Opening

/-!
# Conditions on steps as tests

What a step has to meet for the store to keep an invariant, evaluated in the
state before the step.  A run from an empty directory whose steps all pass the
tests reaches its last state under these conditions.
-/

namespace SimpleCache

section Tests

variable {kh : KHash} {server : Server kh} {event : Event}

/-- A test of the entry whose key a `DELETE` is about to remove. -/
def testsDelete (server : Server kh) (event : Event) (test : Nat → Bool) :
    Bool :=
  match event with
  | .request connection .endOfHeaders =>
      match (server.connections connection).target with
      | .entry entry =>
          decide ((server.connections connection).live = true →
            (server.connections connection).method = some .delete →
              test entry = true)
      | _ => true
  | _ => true

/-- A `DELETE` of a key finds its entry undeleted. -/
def deletesLive (server : Server kh) (event : Event) : Bool :=
  testsDelete server event fun entry => !server.db.entry.deleted entry

theorem deletesLive_sound (passes : deletesLive server event = true) :
    DeletesLive server event := by
  intro connection entry ends live handler method held
  subst ends
  unfold deletesLive testsDelete at passes
  simp only [held] at passes
  have test := of_decide_eq_true passes live method
  simpa using test

/-- A test of the entry and the length that an upload announces. -/
def testsAnnounced (server : Server kh) (event : Event)
    (test : Nat → Nat → Bool) : Bool :=
  match event with
  | .request connection (.header (.contentLength (some digits))) =>
      match (server.connections connection).target with
      | .entry entry => test entry digits.val
      | _ => true
  | _ => true

theorem testsAnnounced_sound {test : Nat → Nat → Bool}
    (passes : testsAnnounced server event test = true) {entry length : Nat}
    (announces : Announces server event entry length) :
    test entry length = true := by
  obtain ⟨connection, digits, rfl, rfl, -, -, -, held⟩ := announces
  unfold testsAnnounced at passes
  simp only [held] at passes
  exact passes

/-- An upload announces its length in time, no less than before, and within
what can be counted. -/
def announcesWell (server : Server kh) (event : Event) : Bool :=
  testsAnnounced server event fun entry length =>
    decide (server.db.entry.deleted entry = false ∧
      server.db.entry.dataLength entry ≤ length ∧
      server.db.dbSizeBytes + length <
        18446744073709551616 + server.db.entry.dataLength entry)

/-- A `DELETE` of a table finds no key in it. -/
def emptiesNothing (server : Server kh) (event : Event) : Bool :=
  match event with
  | .request connection .endOfHeaders =>
      match (server.connections connection).target with
      | .table table =>
          decide ((server.connections connection).method = some .delete →
            kh.size (server.db.table.cacheHashSet table) = 0)
      | _ => true
  | _ => true

theorem emptiesNothing_sound (passes : emptiesNothing server event = true) :
    EmptiesNothing server event := by
  intro connection table ends live handler method held
  subst ends
  unfold emptiesNothing at passes
  simp only [held] at passes
  exact of_decide_eq_true passes method

/-- One more key can be counted. -/
def keysCountable (server : Server kh) (_ : Event) : Bool :=
  decide (server.db.dbKeys + 1 < 18446744073709551616)

theorem keysCountable_sound (passes : keysCountable server event = true) :
    UploadsCountable server event :=
  fun _ _ _ _ _ _ _ => of_decide_eq_true passes

end Tests

section Releases

variable {env : Env} {server : Server env.kh} {event : Event}

/-- What is registered under the hash of a name has that name. -/
def namesApart (env : Env) (server : Server env.kh) (event : Event) : Bool :=
  match event with
  | .request _ (.tableSegment name) =>
      (env.kh.lookup server.db.tables (env.hashString name.val)).all
        fun table => tableMatches server.db table name.val
  | _ => true

theorem namesApart_sound (passes : namesApart env server event = true) :
    NamesApart env.hashString server event := by
  intro connection name isName live table registered
  subst isName
  unfold namesApart at passes
  simp only [registered, Option.all_some] at passes
  exact passes

/-- A step that lets go of the last reference to a deleted table finds no
other one under its hash. -/
def releasesOwn (env : Env) (server : Server env.kh) (event : Event) : Bool :=
  match event with
  | .request connection action =>
      match heldTable server.db (server.connections connection).target with
      | none => true
      | some table =>
          decide (u15 (server.db.table.refs table + 32767) = 0 →
            server.db.table.deleted table = true →
              (∀ other ∈ env.kh.lookup server.db.tables
                (server.db.table.hash table), other = table) ∨
              ∀ session ∈ (handle env (server.session connection)
                action).toOption, session.connection.target ≠ .null)
  | _ => true

theorem releasesOwn_sound (passes : releasesOwn env server event = true) :
    ReleasesOwn env server event := by
  intro connection action session table isRequest live handles ends held last
    isDeleted
  subst isRequest
  unfold releasesOwn at passes
  simp only [held] at passes
  rcases of_decide_eq_true passes last isDeleted with unshared | keeps
  · exact fun other registered => unshared other registered
  · rw [handles] at keeps
    exact absurd ends (keeps session rfl)

end Releases

section Lines

variable {kh : KHash} {hashString : Bytes → UInt32} {allowed : Defect → Prop}

/-- An entry line names a key and a block that no line before it does, and can
be counted. -/
def lineDistinct (hashString : Bytes → UInt32) (loading : Loading kh)
    (line : Bytes) : Bool :=
  match parseLine line, loading.table with
  | .entry block dataLength _ _ key, some table =>
      decide ((0 ≤ block → block.toNat ∉ loading.blockInUse) ∧
        kh.lookup (loading.db.table.cacheHashSet table) (hashString key) =
          none ∧
        loading.db.dbKeys + 1 < 18446744073709551616 ∧
        loading.db.dbSizeBytes + dataLength < 18446744073709551616)
  | _, _ => true

/-- Every line passes the test where the loader comes to it. -/
def linesDistinct (hashString : Bytes → UInt32) :
    Loading kh → List Bytes → Bool
  | _, [] => true
  | loading, line :: lines =>
      lineDistinct hashString loading line &&
        match loadLine hashString loading line with
        | .ok next => linesDistinct hashString next lines
        | .error _ => true

theorem lineDistinct_sound (tables : allowed .tableCollision)
    {loading : Loading kh} {line : Bytes}
    (passes : lineDistinct hashString loading line = true) :
    LineClear hashString allowed loading line := by
  unfold lineDistinct at passes
  unfold LineClear
  split
  · exact Or.inl tables
  · next block dataLength expires it key table isEntry isTable =>
      simp only [isEntry, isTable, decide_eq_true_eq] at passes
      obtain ⟨unused, fresh, keys, size⟩ := passes
      exact fun _ => ⟨fun positive => Or.inl (unused positive), Or.inl fresh,
        Or.inl keys, Or.inl size⟩
  · trivial

theorem linesDistinct_sound (tables : allowed .tableCollision)
    {loading : Loading kh} {lines : List Bytes}
    (passes : linesDistinct hashString loading lines = true) :
    LinesClear hashString allowed loading lines := by
  induction lines generalizing loading with
  | nil => trivial
  | cons line lines ih =>
      unfold linesDistinct at passes
      obtain ⟨first, rest⟩ := Bool.and_eq_true_iff.mp passes
      refine ⟨lineDistinct_sound tables first, fun next loads => ih ?_⟩
      rw [loads] at rest
      exact rest

theorem indexClear_twoTables (tables : allowed .tableCollision) :
    IndexClear listHash letterHash allowed twoTablesDisk := by
  intro text saved
  obtain rfl := Option.some.inj saved
  refine linesDistinct_sound tables ?_
  decide +kernel

end Lines

/-- The state after a run from a directory whose steps pass a test satisfies
another. -/
def endsWithin (disk : Disk) (allows : Server listHash → Event → Bool)
    (events : List Event) (test : Server listHash → Bool) : Bool :=
  match dbOpen letterHash disk with
  | .ok db =>
      ((serverMachine listEnv DistinctIndex).runWithin allows (.opened db)
        events).any test
  | .error _ => false

theorem reachable_of_endsWithin {directory : Disk → Prop} {disk : Disk}
    {meets : Server listHash → Event → Prop}
    {allows : Server listHash → Event → Bool} (isDirectory : directory disk)
    (sound : ∀ server event, allows server event = true → meets server event)
    {events : List Event} {test : Server listHash → Bool}
    (ends : endsWithin disk allows events test = true) :
    ∃ server, (serverMachine listEnv directory).Reachable meets server ∧
      test server = true := by
  unfold endsWithin at ends
  split at ends
  · next db opens =>
      obtain ⟨server, runs, final⟩ := (Option.any_eq_true ..).mp ends
      -- machines that differ in the directory take the same steps
      have leads : (serverMachine listEnv directory).Leads meets (.opened db)
          server :=
        show (serverMachine listEnv DistinctIndex).Leads .. from
          .runWithin sound runs
      exact ⟨server, .leads (.start ⟨disk, db, isDirectory, opens, rfl⟩) leads,
        final⟩
  · exact absurd ends Bool.false_ne_true

/-- A deletion of a key, with its response. -/
def deletes (connection : Nat) (table key : UInt8) : List Event :=
  resolves connection .delete table key ++
    [.request connection .endOfHeaders,
      .request connection (.writeReady (.sent 1000))]

/-- A key of the index is replaced while another connection reads it, and
another one is deleted. -/
def replaceUnderReader : List Event :=
  [.accept, .accept] ++ uploads 0 97 120 1 ++ resolves 1 .get 97 120 ++
    uploads 0 97 120 2 ++ uploads 0 97 107 3 ++ deletes 0 97 108

end SimpleCache
