import SimpleCache.Limit
import SimpleCache.Recency

/-!
# The history of the LRU list

When each request ends before the next one starts, the LRU list is in the
order in which its entries were last found by a `GET` or `HEAD`, or completed.
`db_lru_cleanup_percent` removes entries from its old end.
-/

namespace SimpleCache

variable {kh : KHash}

/-- While a connection runs a request, or the store is collected, no other
connection is between the table of its URL and the end of its response. -/
def OneAtATime (server : Server kh) : Event → Prop
  | .request connection _ => ∀ other, other ≠ connection →
      (server.connections other).target = .null
  | .signalFlush _ => ∀ connection,
      (server.connections connection).target = .null
  | _ => True

/-- The entry that a step of the server touches. -/
def touchedAt (server : Server kh) (event : Event) (after : Server kh) :
    List Nat :=
  match event with
  | .request connection action =>
      if (server.connections connection).live then
        touchedBy (server.session connection) action (after.session connection)
      else []
  | _ => []

/-- A run from an empty store, and the entries that it touched, latest
first. -/
inductive History (env : Env) : Server env.kh → List Nat → Prop
  | opened {disk : Disk} {db : Db env.kh} (empty : disk.indexSave = none)
      (opens : dbOpen env.hashString disk = .ok db) :
      History env (.opened db) []
  | step {server after : Server env.kh} {touches : List Nat} {event : Event}
      (earlier : History env server touches) (alone : OneAtATime server event)
      (run : serverStep env server event = .ok after) :
      History env after (touchedAt server event after ++ touches)

/-- Whether the last touch of the first entry comes before that of the
second. -/
def TouchedBefore (touches : List Nat) (first second : Nat) : Prop :=
  touches.idxOf second < touches.idxOf first

/-- The list holds touched entries, in the order of their last touches. -/
def Recent (lru : Links Nat) (touches : List Nat) : Prop :=
  ∃ order, lru.Represents order ∧ (∀ entry ∈ order, entry ∈ touches) ∧
    order.Pairwise (TouchedBefore touches)

section Recent

variable {touches : List Nat} {first second entry : Nat}

theorem touchedBefore_cons (earlier : TouchedBefore touches first second)
    (firstNe : first ≠ entry) (secondNe : second ≠ entry) :
    TouchedBefore (entry :: touches) first second := by
  unfold TouchedBefore at earlier ⊢
  rw [List.idxOf_cons_ne _ firstNe.symm, List.idxOf_cons_ne _ secondNe.symm]
  exact Nat.succ_lt_succ earlier

theorem touchedBefore_latest (different : first ≠ entry) :
    TouchedBefore (entry :: touches) first entry := by
  unfold TouchedBefore
  rw [List.idxOf_cons_self, List.idxOf_cons_ne _ different.symm]
  exact Nat.succ_pos _

/-- A touch does not change the order of the other entries. -/
theorem recent_others {order : List Nat} (absent : entry ∉ order)
    (sorted : order.Pairwise (TouchedBefore touches)) :
    order.Pairwise (TouchedBefore (entry :: touches)) := by
  refine sorted.imp_of_mem fun memberFirst memberSecond earlier => ?_
  refine touchedBefore_cons earlier ?_ ?_
  · rintro rfl
    exact absent memberFirst
  · rintro rfl
    exact absent memberSecond

/-- The entry that is touched goes to the new end. -/
theorem recent_append {lru : Links Nat} {order : List Nat}
    (represents : lru.Represents order) (absent : entry ∉ order)
    (touched : ∀ other ∈ order, other ∈ touches)
    (sorted : order.Pairwise (TouchedBefore touches)) :
    Recent (lru.append entry) (entry :: touches) := by
  refine ⟨order ++ [entry], represents.append absent, ?_, ?_⟩
  · intro other member
    rcases List.mem_append.mp member with old | isEntry
    · exact List.mem_cons_of_mem _ (touched other old)
    · exact List.mem_cons.mpr (Or.inl (List.mem_singleton.mp isEntry))
  · refine List.pairwise_append.mpr ⟨recent_others absent sorted,
      List.pairwise_singleton .., fun other member last isLast => ?_⟩
    obtain rfl := List.mem_singleton.mp isLast
    refine touchedBefore_latest ?_
    rintro rfl
    exact absent member

end Recent

/-- What a step makes of the list keeps it in order. -/
theorem Moves.recent {before after : Db kh} {touched touches : List Nat}
    (moves : Moves before after touched)
    (live : ∀ table entry, Holds before table entry →
      entry < before.entry.count ∧ before.entry.deleted entry = false)
    (listed : EntriesListed before.lru before.entry.count before.entry.deleted
      before.entry.writing)
    (detached : ∀ nodes, before.lru.Represents nodes →
      before.lru.Detached nodes)
    (remains : ∃ rest, after.lru.Represents rest)
    (recent : Recent before.lru touches) :
    Recent after.lru (touched ++ touches) := by
  obtain ⟨order, represents, isTouched, sorted⟩ := recent
  obtain ⟨listing, listingRep, members⟩ := listed
  obtain rfl := listingRep.unique represents
  cases moves with
  | trimmed trimmed =>
      obtain ⟨rest, left⟩ := remains
      have loose := detached listing represents
      refine ⟨rest, left, fun entry member => ?_, ?_⟩
      · exact isTouched entry (trimmed.subset represents loose left member)
      · exact trimmed.sorted (fun earlier later => later.trans earlier)
          represents loose sorted left
  | hit entry table held complete lru =>
      obtain ⟨entryLt, isLive⟩ := live table entry held
      obtain ⟨front, back, rfl⟩ :=
        List.append_of_mem ((members entry).mpr ⟨entryLt, isLive, complete⟩)
      have absent : entry ∉ front ++ back :=
        (List.nodup_cons.mp (List.nodup_middle.mp represents.nodup)).1
      have others : (front ++ back).Sublist (front ++ entry :: back) :=
        (List.sublist_cons_self entry back).append_left front
      rw [lru]
      exact recent_append represents.unlink absent
        (fun other member => isTouched other (others.subset member))
        (sorted.sublist others)
  | complete entry writing deleted lru =>
      have absent : entry ∉ listing := fun member =>
        Bool.false_ne_true
          (((members entry).mp member).2.2.symm.trans writing)
      rw [lru]
      split
      · exact ⟨listing, represents,
          fun other member => List.mem_cons_of_mem _ (isTouched other member),
          recent_others absent sorted⟩
      · exact recent_append represents absent isTouched sorted

/-- What holds between the steps of a run of one request at a time. -/
structure Traced (env : Env) (server : Server env.kh) (touches : List Nat) :
    Prop where
  sound : server.Sound
  threaded : ∃ loaded, (Work.atRest server 0 loaded).Threaded ∧
    (Work.atRest server 0 loaded).TablesKept
  owned : ∀ connection table,
    heldTable server.db (server.connections connection).target = some table →
      Unshared server.db table
  deletes : ∀ connection, DeleteLive server.db.entry.deleted
    (server.connections connection)
  recent : Recent server.db.lru touches

section Traced

variable {env : Env} {server after : Server env.kh} {touches : List Nat}
  {event : Event}

theorem carries_traced {allowed : Defect → Prop} (orderly : Orderly allowed)
    (own : ¬allowed .clobber) :
    Carries env allowed (fun work => work.Threaded ∧ work.TablesKept) :=
  (carries_threaded env orderly).and (carries_tablesKept env own)

/-- Neither a stale removal nor a release can go wrong in the next step. -/
theorem Traced.clear (traced : Traced env server touches) (event : Event) :
    EventClear env AloneRunning server event := by
  refine eventClear_of_avoids (fun {defect} anyRun => ?_) {
    deletes := Or.inr ?_
    announces := Or.inl ⟨by simp, by simp, by simp, by simp⟩
    grows := Or.inl ⟨by simp, by simp, by simp, by simp⟩
    sizes := Or.inl ⟨by simp, by simp, by simp, by simp⟩
    keys := Or.inl ⟨by simp, by simp, by simp, by simp⟩
    empties := Or.inl ⟨by simp, by simp, by simp, by simp⟩
    releases := Or.inr ?_
    names := Or.inl ⟨by simp, by simp, by simp, by simp⟩ }
  · refine ⟨?_, ?_, ?_, ?_⟩ <;>
    · rintro rfl
      exact anyRun
  · intro connection entry _ _ handler method held
    exact traced.deletes connection entry (Or.inr handler) method held
  · intro connection _ _ table _ _ _ _ held _ _
    exact traced.owned connection table held

theorem traced_opened {disk : Disk} {db : Db env.kh}
    (empty : disk.indexSave = none)
    (opens : dbOpen env.hashString disk = .ok db) :
    Traced env (.opened db) [] := by
  have clear : IndexClear env.kh env.hashString Alone disk := by
    intro text saved
    rw [empty] at saved
    cases saved
  have opening : Alone .opening := ⟨by simp, by simp, by simp⟩
  have carries : Carries env Alone (fun work => work.Threaded ∧
      work.TablesKept) := carries_traced orderly_alone fun own => own.2.2 rfl
  have blank := carries.dbOpen opening
    (fun disk freeBlocks blocksExist blocksFree blockfile =>
      ⟨threaded_blank disk freeBlocks blocksExist blocksFree blockfile,
        tablesKept_blank disk freeBlocks blocksExist blocksFree blockfile⟩)
    clear opens
  refine ⟨dbOpen_sound opening clear opens, blank, fun _ _ held => ?_,
    fun _ => deleteLive_null rfl, [], ?_, ?_, List.Pairwise.nil⟩
  · cases held
  · rw [dbOpen_blank empty] at opens
    obtain rfl := Except.ok.inj opens
    obtain ⟨freeBlocks, blocksExist, blocksFree, blockfile, isSet⟩ :=
      blankDb_eq (emptyDb disk : Db env.kh)
    change (blankDb (emptyDb disk : Db env.kh)).lru.Represents []
    rw [isSet]
    exact Links.represents_empty
  · intro entry member
    exact absurd member List.not_mem_nil

theorem Traced.entries (traced : Traced env server touches) :
    EntriesRegistered server.db.entry.count server.db.entry.deleted
        server.db.entry.table server.db.entry.hash
        server.db.table.cacheHashSet server.db.table.destroyed ∧
      EntriesListed server.db.lru server.db.entry.count
        server.db.entry.deleted server.db.entry.writing ∧
      ∀ nodes, server.db.lru.Represents nodes →
        server.db.lru.Detached nodes := by
  obtain ⟨loaded, ⟨⟨registered, listed⟩, detached⟩, -⟩ := traced.threaded
  exact ⟨registered, listed, detached⟩

theorem Traced.live (traced : Traced env server touches) {table entry : Nat}
    (held : Holds server.db table entry) :
    entry < server.db.entry.count ∧
      server.db.entry.deleted entry = false := by
  obtain ⟨hash, found⟩ := held
  have keys := traced.sound.consistent.keys
  exact ⟨(keys.table_lt (keys.table_held found)).1, keys.live_held found⟩

theorem Traced.writes (traced : Traced env server touches) {connection : Nat}
    (isWriting : (server.connections connection).isWriting = true) {entry : Nat}
    (held : (server.connections connection).target = .entry entry) :
    server.db.entry.writing entry = true := by
  have holders := traced.sound.consistent.holders
  unfold Work.HoldersConsistent Work.target Work.isWriting at holders
  rw [Work.connections_atRest] at holders
  obtain ⟨other, isOther, writing⟩ := holders.writes isWriting
  obtain rfl := Held.entry.inj (held.symm.trans isOther)
  exact writing

theorem changes_ownTable {hashString : Bytes → UInt32}
    {allowed : Defect → Prop} {first last : Work kh}
    (running : ¬allowed .opening) (consistent : first.Consistent)
    (changes : Changes hashString allowed first last)
    (own : first.OwnTable) : last.OwnTable := by
  induction changes with
  | refl => exact own
  | tail earlier change ih =>
      exact change.ownTable running (Changes.consistent earlier consistent) ih

/-- What a request leaves to its connection. -/
theorem Traced.handled (traced : Traced env server touches)
    {connection : Nat} {action : Action} {session : Session env.kh}
    (live : (server.connections connection).live = true)
    (handles : handle env (server.session connection) action = .ok session) :
    (∀ table, heldTable session.db session.connection.target = some table →
      Unshared session.db table) ∧
      DeleteLive session.db.entry.deleted session.connection := by
  have consistent := traced.sound.consistent.alike
    (Work.alike_atRest server 0 connection 0)
  have fits := traced.sound.fits connection
  have changes := handle_changes (Work.atRest server connection 0) consistent
    rfl rfl fits (traced.clear (.request connection action) live) handles
  have running : ¬AloneRunning .opening := fun opens => opens.1 rfl
  constructor
  · exact changes_ownTable running consistent changes (traced.owned connection)
  · exact handle_deleteLive fits (fun table entry held => (traced.live held).2)
      (traced.deletes connection) handles

/-- Events between the requests change neither the connections nor what they
hold. -/
theorem Traced.outside (traced : Traced env server touches)
    (outside : event.outside) (run : serverStep env server event = .ok after) :
    (∀ connection table,
      heldTable after.db (after.connections connection).target = some table →
        Unshared after.db table) ∧
      (∀ connection, DeleteLive after.db.entry.deleted
        (after.connections connection)) ∧
      after.db.lru = server.db.lru ∧ touchedAt server event after = [] := by
  obtain ⟨⟨currentTime, currentUsec, flush, indexSave, same⟩, target, -⟩ :=
    serverStep_outside outside traced.sound run
  have lru : after.db.lru = server.db.lru := by rw [same]; rfl
  have deleted : after.db.entry.deleted = server.db.entry.deleted := by
    rw [same]; rfl
  refine ⟨fun connection table held => ?_, fun connection => ?_, lru, ?_⟩
  · have here := congrFun target connection
    rw [here, same] at held
    rw [same]
    exact traced.owned connection table held
  · rw [deleted]
    unfold serverStep at run
    split at run
    · obtain rfl := pure_eq_ok.mp run
      by_cases new : connection = server.connectionCount
      · refine deleteLive_null ?_
        dsimp only
        rw [new, Function.update_self]
        rfl
      · dsimp only
        rw [Function.update_of_ne new]
        exact traced.deletes connection
    · exact outside.elim
    · obtain rfl := pure_eq_ok.mp run
      exact traced.deletes connection
    · exact outside.elim
    · split at run <;>
      · obtain rfl := pure_eq_ok.mp run
        exact traced.deletes connection
    · split at run <;>
      · obtain rfl := pure_eq_ok.mp run
        exact traced.deletes connection
    · split at run <;>
      · obtain rfl := pure_eq_ok.mp run
        exact traced.deletes connection
    · obtain rfl := pure_eq_ok.mp run
      exact traced.deletes connection
  · cases event with
    | request | signalFlush => exact outside.elim
    | _ => rfl

/-- A step of a run of one request at a time. -/
theorem Traced.step (traced : Traced env server touches)
    (alone : OneAtATime server event)
    (run : serverStep env server event = .ok after) :
    Traced env after (touchedAt server event after ++ touches) := by
  have clear := traced.clear event
  have running : ¬AloneRunning .clobber := fun own => own.2.2.2 rfl
  have sound := serverStep_sound traced.sound clear run
  obtain ⟨loaded, kept⟩ := traced.threaded
  have carried := (carries_traced orderly_aloneRunning running).step
    traced.sound clear run kept
  have remains : ∃ rest, after.db.lru.Represents rest := by
    obtain ⟨rest, represents, -⟩ := carried.1.1.2
    exact ⟨rest, represents⟩
  obtain ⟨-, listed, detached⟩ := traced.entries
  have recent {touched : List Nat} (moves : Moves server.db after.db touched) :
      Recent after.db.lru (touched ++ touches) :=
    moves.recent (fun table entry held => traced.live held) listed detached
      remains traced.recent
  by_cases outside : event.outside
  · obtain ⟨owned, deletes, lru, untouched⟩ := traced.outside outside run
    refine ⟨sound, ⟨loaded, carried⟩, owned, deletes, ?_⟩
    rw [untouched]
    exact recent (.trimmed (.of_eq lru))
  cases event with
  | request connection action =>
      unfold serverStep at run
      dsimp only at run
      split at run
      · next live =>
          simp only [bind_eq_ok, pure_eq_ok] at run
          obtain ⟨session, handles, rfl⟩ := run
          obtain ⟨owned, deletes⟩ := traced.handled live handles
          have others {other : Nat} (different : other ≠ connection) :
              ((server.withSession connection session).connections
                other).target = .null := by
            unfold Server.withSession
            dsimp only
            rw [Function.update_of_ne different]
            exact alone other different
          have here : (server.withSession connection session).connections
              connection = session.connection := Function.update_self ..
          have ended : (server.withSession connection session).session
              connection = session := by
            unfold Server.session
            rw [here]
            rfl
          refine ⟨sound, ⟨loaded, carried⟩, fun other table held => ?_,
            fun other => ?_, ?_⟩
          · by_cases different : other = connection
            · rw [different, here] at held
              exact owned table held
            · rw [others different] at held
              cases held
          · by_cases different : other = connection
            · rw [different, here]
              exact deletes
            · exact deleteLive_null (others different)
          · unfold touchedAt
            dsimp only
            rw [if_pos live, ended]
            exact recent (handle_moves
              (fun isWriting entry held => traced.writes isWriting held)
              handles)
      · next dead =>
          obtain rfl := pure_eq_ok.mp run
          refine ⟨sound, ⟨loaded, carried⟩, traced.owned, traced.deletes, ?_⟩
          unfold touchedAt
          dsimp only
          rw [if_neg dead]
          exact traced.recent
  | signalFlush outcome =>
      unfold serverStep at run
      simp only [bind_eq_ok, pure_eq_ok] at run
      obtain ⟨db, collects, rfl⟩ := run
      refine ⟨sound, ⟨loaded, carried⟩, fun connection table held => ?_,
        fun connection => deleteLive_null (alone connection), ?_⟩
      · rw [show ({ server with db } : Server env.kh).connections connection =
          server.connections connection from rfl, alone connection] at held
        cases held
      · exact recent (.trimmed (dbLruGc_trimmed collects))
  | _ => exact absurd trivial outside

theorem traced_of_history (history : History env server touches) :
    Traced env server touches := by
  induction history with
  | opened empty opens => exact traced_opened empty opens
  | step earlier alone run ih => exact ih.step alone run

end Traced

/-- What the removal of a listed entry changes, however many references its
table has. -/
structure Plucked (db : Db kh) (table entry : Nat) (after : Db kh) : Prop where
  lru : after.lru = if db.entry.writing entry then db.lru
    else db.lru.unlink entry
  hash : after.entry.hash = db.entry.hash
  dataLength : after.entry.dataLength = db.entry.dataLength
  writing : after.entry.writing = db.entry.writing
  deleted : after.entry.deleted = Function.update db.entry.deleted entry true
  entryTable : ∀ other, other ≠ entry →
    after.entry.table other = db.entry.table other
  tableHash : after.table.hash = db.table.hash
  sets : after.table.cacheHashSet =
    Function.update db.table.cacheHashSet table (db.setWithout table entry)
  present : ∀ other, other ≠ table ∨ kh.size (db.setWithout table entry) ≠ 0 →
    after.table.destroyed other = db.table.destroyed other ∧
      after.table.deleted other = db.table.deleted other
  tables : ∀ slot, kh.lookup after.tables slot = kh.lookup db.tables slot ∨
    slot = db.table.hash table ∧ kh.size (db.setWithout table entry) = 0 ∧
      kh.lookup after.tables slot = none

section Plucked

variable {db after : Db kh} {table entry : Nat}

theorem removed_plucked (db : Db kh) (table entry : Nat) :
    Plucked db table entry (db.removed table entry) where
  lru := rfl
  hash := rfl
  dataLength := rfl
  writing := rfl
  deleted := rfl
  entryTable := fun _ _ => rfl
  tableHash := rfl
  sets := rfl
  present := fun _ _ => ⟨rfl, rfl⟩
  tables := fun _ => Or.inl rfl

/-- Dropping a reference unregisters at most the table. -/
theorem dbTableDeref_tables {actuallyDelete : Bool} (slot : UInt32) :
    kh.lookup (dbTableDeref db table actuallyDelete).tables slot =
        kh.lookup db.tables slot ∨
      slot = db.table.hash table ∧
        kh.lookup (dbTableDeref db table actuallyDelete).tables slot =
          none := by
  rw [dbTableDeref_eq]
  split
  · rw [lookup_dbTableActuallyDelete]
    split
    · next isHash => exact Or.inr ⟨isHash, rfl⟩
    · exact Or.inl rfl
  · exact Or.inl rfl

theorem destroy_tables (slot : UInt32) :
    kh.lookup (db.destroy table).tables slot = kh.lookup db.tables slot ∨
      slot = db.table.hash table ∧
        kh.lookup (db.destroy table).tables slot = none := by
  unfold Db.destroy
  dsimp only
  split
  · exact Or.inl rfl
  · rw [BucketMap.lookup_del_find]
    split
    · next isHash => exact Or.inr ⟨isHash, rfl⟩
    · exact Or.inl rfl

theorem removedLast_plucked
    (empty : kh.size (db.setWithout table entry) = 0) :
    Plucked db table entry (db.removedLast table entry) := by
  have tables : ∀ slot,
      kh.lookup (db.removedLast table entry).tables slot =
          kh.lookup db.tables slot ∨
        slot = db.table.hash table ∧
          kh.lookup (db.removedLast table entry).tables slot = none := by
    intro slot
    unfold Db.removedLast
    rw [detach_tables]
    rcases dbTableDeref_tables slot with same | gone
    · rw [same]
      exact destroy_tables slot
    · exact Or.inr gone
  obtain ⟨freed, derefTables, derefEq⟩ := dbTableDeref_frame
    (((db.removed table entry).doom table).destroy table) table true
  have lastEq : db.removedLast table entry = _ :=
    congrArg (Db.detach · entry) derefEq
  rw [lastEq] at tables ⊢
  exact
    { lru := rfl
      hash := rfl
      dataLength := rfl
      writing := rfl
      deleted := rfl
      entryTable := fun other different => Function.update_of_ne different ..
      tableHash := rfl
      sets := rfl
      present := by
        rintro other (different | keyed)
        · exact ⟨Function.update_of_ne different ..,
            Function.update_of_ne different ..⟩
        · exact absurd empty keyed
      tables := fun slot => (tables slot).imp_right fun gone =>
        ⟨gone.1, empty, gone.2⟩ }

/-- Dropping the reference that held the entry frees what is left of it, but
not the table, which is not deleted. -/
theorem Plucked.derefs (plucked : Plucked db table entry after)
    (live : ∀ other, after.entry.table entry = some other →
      after.table.deleted other = false) :
    Plucked db table entry (dbEntryDeref after entry true) := by
  cases inTable : after.entry.table entry with
  | none =>
      rw [dbEntryDeref_detached inTable]
      obtain ⟨freeBlocks, blocksExist, blocksFree, blockfile, block, freed,
        freeEq⟩ := freeUnheld_eq (after.decEntry entry) entry
      rw [freeEq]
      exact ⟨plucked.lru, plucked.hash, plucked.dataLength, plucked.writing,
        plucked.deleted, plucked.entryTable, plucked.tableHash, plucked.sets,
        plucked.present, plucked.tables⟩
  | some other =>
      have derefEq : dbTableDeref (after.decEntry entry) other false =
          (after.decEntry entry).decTable other := by
        rw [dbTableDeref_eq, if_neg]
        rintro ⟨-, isDeleted⟩
        rcases isDeleted with actually | isDeleted
        · cases actually
        · exact Bool.false_ne_true ((live other inTable).symm.trans isDeleted)
      rw [dbEntryDeref_inTable inTable, derefEq]
      obtain ⟨freeBlocks, blocksExist, blocksFree, blockfile, block, freed,
        freeEq⟩ := freeUnheld_eq ((after.decEntry entry).decTable other) entry
      rw [freeEq]
      exact ⟨plucked.lru, plucked.hash, plucked.dataLength, plucked.writing,
        plucked.deleted, plucked.entryTable, plucked.tableHash, plucked.sets,
        plucked.present, plucked.tables⟩

theorem Plucked.ofHeld
    (plucked : Plucked (dbTableIncref (db.incEntry entry) table) table entry
      after) : Plucked db table entry after :=
  ⟨plucked.lru, plucked.hash, plucked.dataLength, plucked.writing,
    plucked.deleted, plucked.entryTable, plucked.tableHash, plucked.sets,
    plucked.present, plucked.tables⟩

theorem handleDelete_plucked (inTable : db.entry.table entry = some table)
    (present : db.table.destroyed table = false)
    (live : db.table.deleted table = false) :
    ∃ after emptied, dbEntryHandleDelete db entry = .ok (after, emptied) ∧
      Plucked db table entry after ∧
      ∀ other, after.entry.table entry = some other →
        after.table.deleted other = false := by
  obtain ⟨⟨after, emptied⟩, removal⟩ :=
    dbEntryHandleDelete_succeeds inTable present
  refine ⟨after, emptied, removal, ?_⟩
  obtain ⟨other, otherEq, -, ⟨-, rfl, rfl⟩ | ⟨empty, rfl, rfl⟩⟩ :=
    dbEntryHandleDelete_ok removal
  · obtain rfl : table = other :=
      Option.some.inj (inTable.symm.trans otherEq)
    refine ⟨removed_plucked db table entry, fun other held => ?_⟩
    obtain rfl : table = other := Option.some.inj (inTable.symm.trans held)
    exact live
  · obtain rfl : table = other :=
      Option.some.inj (inTable.symm.trans otherEq)
    rw [removed_set] at empty
    refine ⟨removedLast_plucked empty, fun other held => ?_⟩
    have detached : (db.removedLast table entry).entry.table entry = none :=
      Function.update_self ..
    rw [detached] at held
    cases held

/-- Removing an entry of a table that is not deleted succeeds. -/
theorem removeSwept_plucked (inTable : db.entry.table entry = some table)
    (present : db.table.destroyed table = false)
    (live : db.table.deleted table = false) :
    ∃ after emptied, removeSwept db entry = .ok (after, emptied) ∧
      Plucked db table entry after := by
  by_cases unheld : db.entry.refs entry = 0
  · have taken : dbEntryIncref db entry true =
        .ok (dbTableIncref (db.incEntry entry) table) := by
      unfold dbEntryIncref
      rw [if_pos rfl]
      exact bind_eq_ok.mpr ⟨table, entryTable_eq_ok.mpr inTable, rfl⟩
    have removes : ∃ removed emptied, dbEntryHandleDelete
        (dbTableIncref (db.incEntry entry) table) entry =
          .ok (removed, emptied) ∧
        Plucked (dbTableIncref (db.incEntry entry) table) table entry
          removed ∧
        ∀ other, removed.entry.table entry = some other →
          removed.table.deleted other = false :=
      handleDelete_plucked inTable present live
    obtain ⟨removed, emptied, removal, plucked, stillLive⟩ := removes
    refine ⟨dbEntryDeref removed entry true, emptied, ?_,
      plucked.ofHeld.derefs stillLive⟩
    unfold removeSwept
    rw [if_pos unheld]
    exact bind_eq_ok.mpr ⟨_, taken, bind_eq_ok.mpr ⟨_, removal, rfl⟩⟩
  · obtain ⟨removed, emptied, removal, plucked, -⟩ :=
      handleDelete_plucked inTable present live
    refine ⟨removed, emptied, ?_, plucked⟩
    unfold removeSwept
    rw [if_neg unheld]
    exact removal

end Plucked

/-- An entry in the key map of its table, which is registered. -/
structure OnShelf (db : Db kh) (table entry : Nat) : Prop where
  inTable : db.entry.table entry = some table
  present : db.table.destroyed table = false
  live : db.table.deleted table = false
  held : kh.lookup (db.table.cacheHashSet table) (db.entry.hash entry) =
    some entry
  registered : kh.lookup db.tables (db.table.hash table) = some table

/-- A store whose list holds complete entries that are found under their
hashes. -/
structure Stocked (db : Db kh) (order : List Nat) : Prop where
  represents : db.lru.Represents order
  indexed : Indexed db
  listed : ∀ entry ∈ order, db.entry.deleted entry = false ∧
    db.entry.writing entry = false ∧ ∃ table, OnShelf db table entry

section Removal

variable {db after : Db kh} {table entry : Nat}

theorem Plucked.lookup_set (plucked : Plucked db table entry after)
    (other : Nat) (hash : UInt32) :
    kh.lookup (after.table.cacheHashSet other) hash =
      if other = table ∧ hash = db.entry.hash entry then none
      else kh.lookup (db.table.cacheHashSet other) hash := by
  rw [plucked.sets]
  by_cases same : other = table
  · subst same
    rw [Function.update_self, Db.setWithout, BucketMap.lookup_del_find]
    simp
  · rw [Function.update_of_ne same, if_neg fun both => same both.1]

/-- What else a table holds it still holds, and then it is not empty. -/
theorem Plucked.holds (plucked : Plucked db table entry after)
    (shelf : OnShelf db table entry) {other member : Nat} {hash : UInt32}
    (found : kh.lookup (db.table.cacheHashSet other) hash = some member)
    (different : member ≠ entry) :
    kh.lookup (after.table.cacheHashSet other) hash = some member ∧
      (other ≠ table ∨ kh.size (db.setWithout table entry) ≠ 0) := by
  have still : kh.lookup (after.table.cacheHashSet other) hash =
      some member := by
    rw [plucked.lookup_set, if_neg]
    · exact found
    · rintro ⟨rfl, rfl⟩
      exact different (Option.some.inj (found.symm.trans shelf.held))
  refine ⟨still, ?_⟩
  by_cases same : other = table
  · refine Or.inr fun empty => ?_
    rw [same, plucked.sets, Function.update_self] at still
    rw [BucketMap.size_eq_zero_iff.mp empty hash] at still
    cases still
  · exact Or.inl same

/-- What a table holds it held before, and it is another entry. -/
theorem Plucked.held (plucked : Plucked db table entry after)
    (indexed : Indexed db) (shelf : OnShelf db table entry)
    {other member : Nat} {hash : UInt32} (tabled : Tabled db other)
    (found : kh.lookup (after.table.cacheHashSet other) hash = some member) :
    kh.lookup (db.table.cacheHashSet other) hash = some member ∧
      member ≠ entry := by
  rw [plucked.lookup_set] at found
  split at found
  · cases found
  · next elsewhere =>
      refine ⟨found, ?_⟩
      rintro rfl
      obtain ⟨hashEq, inOther⟩ := indexed.entries other tabled hash member found
      refine elsewhere ⟨?_, hashEq.symm⟩
      exact Option.some.inj (inOther.symm.trans shelf.inTable)

theorem Plucked.wasRegistered (plucked : Plucked db table entry after)
    {slot : UInt32} {other : Nat}
    (found : kh.lookup after.tables slot = some other) :
    kh.lookup db.tables slot = some other := by
  rcases plucked.tables slot with same | ⟨-, -, gone⟩
  · exact same.symm.trans found
  · rw [gone] at found
    cases found

theorem Plucked.staysRegistered (plucked : Plucked db table entry after)
    (shelf : OnShelf db table entry) {slot : UInt32} {other : Nat}
    (found : kh.lookup db.tables slot = some other)
    (stays : other ≠ table ∨ kh.size (db.setWithout table entry) ≠ 0) :
    kh.lookup after.tables slot = some other := by
  rcases plucked.tables slot with same | ⟨rfl, empty, -⟩
  · exact same.trans found
  · rcases stays with different | keyed
    · exact absurd (Option.some.inj (found.symm.trans shelf.registered))
        different
    · exact absurd empty keyed

/-- The registered entries but one stay registered. -/
theorem Plucked.registered_iff (plucked : Plucked db table entry after)
    (indexed : Indexed db) (shelf : OnShelf db table entry) (member : Nat) :
    Registered after member ↔ Registered db member ∧ member ≠ entry := by
  constructor
  · rintro ⟨slot, other, registered, hash, found⟩
    have before := plucked.wasRegistered registered
    obtain ⟨held, different⟩ :=
      plucked.held indexed shelf ⟨slot, before⟩ found
    exact ⟨⟨slot, other, before, hash, held⟩, different⟩
  · rintro ⟨⟨slot, other, registered, hash, found⟩, different⟩
    obtain ⟨held, stays⟩ := plucked.holds shelf found different
    exact ⟨slot, other, plucked.staysRegistered shelf registered stays, hash,
      held⟩

theorem Plucked.stocked {order : List Nat}
    (plucked : Plucked db table entry after)
    (stocked : Stocked db (entry :: order))
    (shelf : OnShelf db table entry) : Stocked after order where
  represents := by
    have front : db.lru.Represents ([] ++ entry :: order) := stocked.represents
    rw [plucked.lru, (stocked.listed entry List.mem_cons_self).2.1]
    exact front.unlink
  indexed := by
    refine ⟨fun slot other registered => ?_, ?_⟩
    · rw [plucked.tableHash]
      exact stocked.indexed.tables slot other
        (plucked.wasRegistered registered)
    · rintro other ⟨slot, registered⟩ hash member found
      have tabled : Tabled db other := ⟨slot, plucked.wasRegistered registered⟩
      obtain ⟨held, different⟩ :=
        plucked.held stocked.indexed shelf tabled found
      rw [plucked.hash, plucked.entryTable member different]
      exact stocked.indexed.entries other tabled hash member held
  listed := by
    intro member isMember
    have different : member ≠ entry := by
      rintro rfl
      exact (List.nodup_cons.mp stocked.represents.nodup).1 isMember
    obtain ⟨live, complete, other, onShelf⟩ :=
      stocked.listed member (List.mem_cons_of_mem _ isMember)
    obtain ⟨held, stays⟩ := plucked.holds shelf onShelf.held different
    obtain ⟨destroyed, deleted⟩ := plucked.present other stays
    rw [plucked.deleted, plucked.writing, Function.update_of_ne different]
    refine ⟨live, complete, other, ?_, ?_, ?_, ?_, ?_⟩
    · rw [plucked.entryTable member different]
      exact onShelf.inTable
    · exact destroyed.trans onShelf.present
    · exact deleted.trans onShelf.live
    · rw [plucked.hash]
      exact held
    · rw [plucked.tableHash]
      exact plucked.staysRegistered shelf onShelf.registered stays

/-- What `db_lru_cleanup_percent` leaves: the rest of the list in its order,
and everything else registered. -/
structure Removed (before : Db kh) (gone kept : List Nat) (after : Db kh) :
    Prop where
  lru : after.lru.Represents kept
  registered : ∀ entry, Registered after entry ↔
    Registered before entry ∧ entry ∉ gone

theorem lruCleanup_removed {order : List Nat} {passes : Nat}
    (stocked : Stocked db order) (enough : order.length < passes)
    (bytes : Int) :
    ∃ kept after, lruCleanup passes db bytes = .ok after ∧
      order = removedFor db.entry.dataLength bytes order ++ kept ∧
      Removed db (removedFor db.entry.dataLength bytes order) kept after := by
  obtain ⟨passes, rfl⟩ : ∃ more, passes = more + 1 :=
    ⟨passes - 1, by omega⟩
  induction order generalizing db passes bytes with
  | nil =>
      have none_ : db.lru.head = none := stocked.represents.head_eq
      refine ⟨[], db, ?_, rfl, stocked.represents, by simp [removedFor]⟩
      unfold lruCleanup
      rw [none_]
      rfl
  | cons entry order ih =>
      have head : db.lru.head = some entry := stocked.represents.head_eq
      unfold lruCleanup removedFor
      rw [head]
      dsimp only
      by_cases done : bytes ≤ 0
      · rw [if_pos done, if_pos done]
        exact ⟨entry :: order, db, rfl, rfl, stocked.represents, by simp⟩
      · rw [if_neg done, if_neg done]
        obtain ⟨live, complete, table, shelf⟩ :=
          stocked.listed entry List.mem_cons_self
        obtain ⟨removed, emptied, removal, plucked⟩ :=
          removeSwept_plucked shelf.inTable shelf.present shelf.live
        rw [if_neg (by simp [live, complete]), removal, ok_bind]
        dsimp only
        rw [List.length_cons] at enough
        obtain ⟨more, rfl⟩ : ∃ more, passes = more + 1 :=
          ⟨passes - 1, by omega⟩
        obtain ⟨kept, after, run, split, rest⟩ :=
          ih (plucked.stocked stocked shelf)
            (i32 (u32OfInt (bytes - db.entry.dataLength entry))) more (by omega)
        rw [plucked.dataLength] at split rest
        refine ⟨kept, after, run, congrArg (entry :: ·) split, rest.lru,
          fun member => ?_⟩
        rw [rest.registered, plucked.registered_iff stocked.indexed shelf,
          List.mem_cons]
        tauto

end Removal

section Policy

variable {env : Env} {server : Server env.kh} {touches : List Nat}

theorem Traced.onShelf (traced : Traced env server touches) {entry : Nat}
    (allocated : entry < server.db.entry.count)
    (live : server.db.entry.deleted entry = false) :
    ∃ table, OnShelf server.db table entry := by
  obtain ⟨loaded, -, kept⟩ := traced.threaded
  obtain ⟨table, inTable, present, held⟩ :=
    traced.entries.1 entry allocated live
  have consistent := traced.sound.consistent
  have tableLt := (consistent.keys.table_lt inTable).2
  have unfreed : server.db.table.freed table = false := by
    cases isFreed : server.db.table.freed table with
    | false => rfl
    | true =>
        exact absurd (present.symm.trans (kept.entry inTable isFreed))
          Bool.false_ne_true
  have undeleted : server.db.table.deleted table = false := by
    cases isDeleted : server.db.table.deleted table with
    | false => rfl
    | true =>
        rcases consistent.tables.deleted_destroyed isDeleted with
          destroyed | ⟨keyed, uncounted, removing⟩
        · exact absurd (present.symm.trans destroyed) Bool.false_ne_true
        · cases removing
  exact ⟨table, inTable, present, undeleted, held,
    kept.registered tableLt present unfreed⟩

theorem Traced.indexed (traced : Traced env server touches) :
    Indexed server.db := by
  have consistent := traced.sound.consistent
  refine ⟨fun slot table registered =>
    consistent.tables.registered_hash registered, ?_⟩
  intro table _ hash entry found
  exact ⟨consistent.keys.hash_held found, consistent.keys.table_held found⟩

/-- The list holds the registered complete entries. -/
theorem Traced.stocked (traced : Traced env server touches) {order : List Nat}
    (represents : server.db.lru.Represents order) :
    Stocked server.db order ∧ (∀ entry, entry ∈ order ↔
      Registered server.db entry ∧ server.db.entry.writing entry = false) ∧
      order.length ≤ server.db.entry.count := by
  obtain ⟨-, ⟨listing, listingRep, members⟩, -⟩ := traced.entries
  obtain rfl := listingRep.unique represents
  refine ⟨⟨represents, traced.indexed, fun entry member => ?_⟩,
    fun entry => ⟨fun member => ?_, ?_⟩, ?_⟩
  · obtain ⟨allocated, live, complete⟩ := (members entry).mp member
    exact ⟨live, complete, traced.onShelf allocated live⟩
  · obtain ⟨allocated, live, complete⟩ := (members entry).mp member
    obtain ⟨table, shelf⟩ := traced.onShelf allocated live
    exact ⟨⟨_, table, shelf.registered, _, shelf.held⟩, complete⟩
  · rintro ⟨⟨slot, table, registered, held⟩, complete⟩
    obtain ⟨allocated, live⟩ := traced.live held
    exact (members entry).mpr ⟨allocated, live, complete⟩
  · have inside : listing ⊆ List.range server.db.entry.count := by
      intro entry member
      exact List.mem_range.mpr ((members entry).mp member).1
    have atMost := (represents.nodup.subperm inside).length_le
    rwa [List.length_range] at atMost

/-- `db_lru_cleanup_percent` removes the shortest front of the list that is
long enough, or all of it, and nothing else. -/
def RemovesShortest (db : Db kh) (order : List Nat) (bytes : Int) : Prop :=
  ∃ gone kept after, dbLruCleanupPercent db bytes = .ok after ∧
    order = gone ++ kept ∧
    (bytes ≤ ((gone.map db.entry.dataLength).sum : Nat) ∨ kept = []) ∧
    (∀ front rest, gone = front ++ rest → rest ≠ [] →
      ((front.map db.entry.dataLength).sum : Nat) < bytes) ∧
    Removed db gone kept after

theorem Stocked.removesShortest {db : Db kh} {order : List Nat} {bytes : Int}
    (stocked : Stocked db order) (allocated : order.length ≤ db.entry.count)
    (target : bytes < 2147483648)
    (small : ∀ entry ∈ order, db.entry.dataLength entry < 2147483648) :
    RemovesShortest db order bytes := by
  have cleans : ∃ kept after, dbLruCleanupPercent db bytes = .ok after ∧
      order = removedFor db.entry.dataLength bytes order ++ kept ∧
      Removed db (removedFor db.entry.dataLength bytes order) kept after :=
    lruCleanup_removed stocked (by omega) bytes
  obtain ⟨kept, after, run, split, removed⟩ := cleans
  obtain ⟨reaches, shortest⟩ := removedFor_shortest small target
  refine ⟨_, kept, after, run, split, ?_, shortest, removed⟩
  refine reaches.imp_right fun all => ?_
  rw [all] at split
  exact List.self_eq_append_right.mp split

/-- In every run from an empty store in which each request ends before the
next one starts, the list holds the registered complete entries in the order
of their last touches, and `db_lru_cleanup_percent` removes the shortest front
of it that is long enough. -/
theorem lruPolicy_of_history (env : Env) {server : Server env.kh}
    {touches : List Nat} (history : History env server touches) :
    ∃ order, server.db.lru.Represents order ∧
      (∀ entry, entry ∈ order ↔ Registered server.db entry ∧
        server.db.entry.writing entry = false) ∧
      (∀ entry ∈ order, entry ∈ touches) ∧
      order.Pairwise (TouchedBefore touches) ∧
      ∀ bytes : Int, 0 < bytes → bytes < 2147483648 →
        (∀ entry ∈ order, server.db.entry.dataLength entry < 2147483648) →
          RemovesShortest server.db order bytes := by
  have traced := traced_of_history history
  obtain ⟨order, represents, touched, sorted⟩ := traced.recent
  obtain ⟨stocked, members, allocated⟩ := traced.stocked represents
  exact ⟨order, represents, members, touched, sorted,
    fun _ _ target small => stocked.removesShortest allocated target small⟩

/-- With one connection, every run is one of one request at a time. -/
theorem history_of_run {directory : Disk → Prop} {events : List Event}
    {after : Server env.kh} (history : History env server touches)
    (lone : server.connectionCount = 1)
    (only : ∀ event ∈ events, ∃ action, event = .request 0 action)
    (run : (serverMachine env directory).run server events = .ok after) :
    ∃ touches, History env after touches := by
  induction events generalizing server touches with
  | nil =>
      obtain rfl := Except.ok.inj run
      exact ⟨touches, history⟩
  | cons event rest ih =>
      obtain ⟨action, rfl⟩ := only event List.mem_cons_self
      obtain ⟨next, stepped, run⟩ := Machine.run_cons.mp run
      have stepped : serverStep env server (.request 0 action) = .ok next :=
        stepped
      have alone : OneAtATime server (.request 0 action) := by
        intro other different
        rw [(traced_of_history history).sound.unaccepted other (by omega)]
        rfl
      have same : next.connectionCount = 1 := by
        unfold serverStep at stepped
        dsimp only at stepped
        split at stepped
        · simp only [bind_eq_ok, pure_eq_ok] at stepped
          obtain ⟨session, -, rfl⟩ := stepped
          exact lone
        · obtain rfl := pure_eq_ok.mp stepped
          exact lone
      exact ih (history.step alone stepped) same
        (fun later member => only later (List.mem_cons_of_mem _ member)) run

/-- The first of two keys is found again, and is then the last to go. -/
theorem lruPolicy_of_history_found :
    ∃ (server : Server listHash) (order : List Nat),
      server.db.lru.head = some 1 ∧ server.db.lru.tail = some 0 ∧
      server.db.lru.Represents order ∧ RemovesShortest server.db order 1 := by
  have only : ∀ event ∈ uploads 0 97 107 5 ++ (uploads 0 97 108 6 ++
      resolves 0 .get 97 107), ∃ action, event = .request 0 action := by
    intro event member
    simp only [uploads, resolves, List.mem_append, List.mem_cons,
      List.not_mem_nil, or_false] at member
    rcases member with ((rfl | rfl | rfl | rfl) | rfl | rfl | rfl | rfl) |
      ((rfl | rfl | rfl | rfl) | rfl | rfl | rfl | rfl) |
        rfl | rfl | rfl | rfl <;>
    exact ⟨_, rfl⟩
  have ends : endsWith (.accept :: (uploads 0 97 107 5 ++ (uploads 0 97 108 6 ++
      resolves 0 .get 97 107))) (fun server =>
        decide (server.db.lru.head = some 1 ∧ server.db.lru.tail = some 0 ∧
          server.db.entry.count = 2 ∧ server.db.entry.dataLength 0 = 1 ∧
          server.db.entry.dataLength 1 = 1)) = true := by
    decide +kernel
  unfold endsWith at ends
  split at ends
  · next server run =>
      obtain ⟨head, tail, count, first, second⟩ := of_decide_eq_true ends
      obtain ⟨accepted, accepts, run⟩ := Machine.run_cons.mp run
      have none_ : emptyDisk.indexSave = none := rfl
      have start : History listEnv
          (.opened (blankDb (emptyDb emptyDisk))) [] :=
        .opened none_ (dbOpen_blank none_)
      have accepts : serverStep listEnv
          (.opened (blankDb (emptyDb emptyDisk))) .accept = .ok accepted :=
        accepts
      have alone : OneAtATime (.opened (blankDb (emptyDb emptyDisk)) :
          Server listHash) .accept := trivial
      have history := start.step alone accepts
      obtain rfl := Except.ok.inj accepts
      obtain ⟨touches, history⟩ := history_of_run history rfl only run
      obtain ⟨order, represents, members, -, -, removes⟩ :=
        lruPolicy_of_history listEnv history
      refine ⟨server, order, head, tail, represents,
        removes 1 (by decide) (by decide) fun entry member => ?_⟩
      obtain ⟨⟨slot, table, -, held⟩, -⟩ := (members entry).mp member
      have allocated := ((traced_of_history history).live held).1
      obtain rfl | rfl : entry = 0 ∨ entry = 1 := by omega
      · rw [first]
        decide
      · rw [second]
        decide
  · exact absurd ends Bool.false_ne_true

end Policy

end SimpleCache
