import SimpleCache.Flush
import SimpleCache.Library.Machine
import SimpleCache.Library.Probing
import SimpleCache.Unfold.Lookup

/-!
# Table names under hash collisions

Requests on tables and their keys, each finished before the next one starts.
Beside the store, a registry keeps what the requests should have left: the
table that each name was given when it was created.

A table whose hash is taken is registered under a later hash.  It is found as
long as every hash that the probes pass on the way there stays taken, which a
deletion does not look after.
-/

namespace SimpleCache

variable {kh : KHash}

/-- The store, and the table of each name that was created and not deleted
since. -/
structure Registry (kh : KHash) where
  db : Db kh
  names : Bytes → Option Nat

/-- A finished request. -/
inductive TableCall
  | create (name : Bytes)
  | put (name key : Bytes)
  | deleteKey (name key : Bytes)
  | delete (name : Bytes)
  | lookup (name : Bytes)

/-- An upload into a table that is held, from its key to its end. -/
def putKey (hashString : Bytes → UInt32) (db : Db kh) (table : Nat)
    (key : Bytes) : Except Fault (Db kh) := do
  let (db, entry) ← enterWrite hashString db table key
  match entry with
  | none => return dbTableDeref db table false
  | some entry => return dbEntryDeref (dbCompleteWriting db entry) entry true

/-- The deletion of a key of a table that is held, and whether it was the last
key. -/
def deleteKey (hashString : Bytes → UInt32) (db : Db kh) (table : Nat)
    (key : Bytes) : Except Fault (Db kh × Bool) := do
  let (db, entry) ← dbEntryGetDelete hashString db table key
  match entry with
  | none => return (dbTableDeref db table false, false)
  | some entry =>
      let (db, tableDeleted) ← dbEntryHandleDelete db entry
      return (dbEntryDeref db entry true, tableDeleted)

/-- The name keeps the table it has. -/
def Registry.withName (registry : Registry kh) (name : Bytes) (table : Nat) :
    Bytes → Option Nat :=
  Function.update registry.names name
    (some ((registry.names name).getD table))

def Registry.withoutName (registry : Registry kh) (name : Bytes) :
    Bytes → Option Nat :=
  Function.update registry.names name none

/-- One request. -/
def Registry.call (hashString : Bytes → UInt32) (registry : Registry kh) :
    TableCall → Except Fault (Registry kh)
  | .create name => do
      let (db, table) ← dbTableGetWrite hashString registry.db name
      return {
        db := dbTableDeref db table false
        names := registry.withName name table }
  | .put name key => do
      let (db, table) ← dbTableGetWrite hashString registry.db name
      let db ← putKey hashString db table key
      return { db, names := registry.withName name table }
  | .deleteKey name key => do
      let (db, table) ← dbTableGetRead hashString registry.db name
      match table with
      | none => return { registry with db }
      | some table =>
          let (db, tableDeleted) ← deleteKey hashString db table key
          return {
            db
            names :=
              if tableDeleted then registry.withoutName name
              else registry.names }
  | .delete name => do
      let (db, table) ← dbTableGetRead hashString registry.db name
      match table with
      | none => return { registry with db }
      | some table =>
          let db ← dbTableHandleDelete db table
          return {
            db := dbTableDeref db table false
            names := registry.withoutName name }
  | .lookup name => do
      let (db, table) ← dbTableGetRead hashString registry.db name
      match table with
      | none => return { registry with db }
      | some table =>
          return { registry with db := dbTableDeref db table false }

/-- A table that matches the name has the name: they do not just agree up to
a zero byte. -/
def ComparesExactly (db : Db kh) (name : Bytes) : Prop :=
  ∀ {slot table}, kh.lookup db.tables slot = some table →
    tableMatches db table name → db.table.key table = name

/-- No other table is registered past this slot. -/
def NotPassed (hashString : Bytes → UInt32) (db : Db kh) (slot : UInt32) :
    Prop :=
  ∀ {otherSlot other}, kh.lookup db.tables otherSlot = some other →
    ¬Probing.Before (hashString (db.table.key other)) slot otherSlot

/-- What a request needs for names to stay found. -/
def Registry.Allows (hashString : Bytes → UInt32) (registry : Registry kh) :
    TableCall → Prop
  | .create name | .put name _ =>
      ComparesExactly registry.db name ∧ name.length < 65536 ∧
        kh.size registry.db.tables < 4294967295
  | .deleteKey name key =>
      ComparesExactly registry.db name ∧
        ∀ {slot table}, kh.lookup registry.db.tables slot = some table →
          registry.db.table.key table = name →
          kh.size (registry.db.table.cacheHashSet table) = 1 →
          kh.lookup (registry.db.table.cacheHashSet table) (hashString key) ≠
            none →
          NotPassed hashString registry.db slot
  | .delete name =>
      ComparesExactly registry.db name ∧
        ∀ {slot table}, kh.lookup registry.db.tables slot = some table →
          registry.db.table.key table = name →
          NotPassed hashString registry.db slot
  | .lookup name => ComparesExactly registry.db name

/-- Requests one after the other. -/
def Registry.Runs (hashString : Bytes → UInt32) :
    Registry kh → Registry kh → Prop :=
  Relation.ReflTransGen fun before after =>
    ∃ call, before.Allows hashString call ∧
      before.call hashString call = .ok after

/-- The number of hashes. -/
abbrev hashCount : Nat := 4294967296

/-- Every registered table has its name, and no free slot before its own.
There are fewer tables than the limit. -/
structure Registry.Named (hashString : Bytes → UInt32) (limit : Nat)
    (registry : Registry kh) : Prop where
  allocated : ∀ {slot table},
    kh.lookup registry.db.tables slot = some table →
      table < registry.db.table.count
  slot_eq : ∀ {slot table},
    kh.lookup registry.db.tables slot = some table →
      registry.db.table.hash table = slot
  length_eq : ∀ {slot table},
    kh.lookup registry.db.tables slot = some table →
      registry.db.table.keyLength table =
        (registry.db.table.key table).length
  named : ∀ {slot table},
    kh.lookup registry.db.tables slot = some table →
      registry.names (registry.db.table.key table) = some table
  taken : ∀ {slot table},
    kh.lookup registry.db.tables slot = some table → ∀ {other},
      Probing.Before (hashString (registry.db.table.key table)) other slot →
        kh.lookup registry.db.tables other ≠ none
  found : ∀ {name table}, registry.names name = some table →
    registry.db.table.key table = name ∧
      ∃ slot, kh.lookup registry.db.tables slot = some table
  room : kh.size registry.db.tables < limit

/-- The reference that the keys of a table hold. -/
def keyReferences (map : kh.Map) : Nat := if kh.size map = 0 then 0 else 1

/-- The reference that a request holds. -/
def requestReferences (held : Option Nat) (table : Nat) : Nat :=
  if held = some table then 1 else 0

/-- A table has a reference from its keys, if it has any, and one from the
request that holds it. -/
structure Counted (db : Db kh) (held : Option Nat) : Prop where
  live : ∀ {slot table}, kh.lookup db.tables slot = some table →
    db.table.deleted table = false
  refs : ∀ {slot table}, kh.lookup db.tables slot = some table →
    db.table.refs table =
      keyReferences (db.table.cacheHashSet table) +
        requestReferences held table

/-- The key maps hold undeleted entries under their hash, in the table that
the entry names. -/
def Keyed (db : Db kh) : Prop :=
  ∀ {table hash entry},
    kh.lookup (db.table.cacheHashSet table) hash = some entry →
      entry < db.entry.count ∧ db.entry.table entry = some table ∧
        db.entry.hash entry = hash ∧ db.entry.deleted entry = false

theorem strncmpEqual_self (name : Bytes) :
    strncmpEqual name.length name name = true := by
  induction name with
  | nil => rfl
  | cons byte name ih => simp [strncmpEqual, ih]

/-- Names without a zero byte are compared whole. -/
theorem eq_of_strncmpEqual {first second : Bytes}
    (length : first.length = second.length) (plain : 0 ∉ first)
    (equal : strncmpEqual second.length first second = true) :
    first = second := by
  induction first generalizing second with
  | nil => exact (List.length_eq_zero_iff.mp length.symm).symm
  | cons byte first ih =>
      cases second with
      | nil => simp at length
      | cons other second =>
          have nonzero : byte ≠ 0 := fun zero => plain (by simp [zero])
          have equal : byte = other ∧
              strncmpEqual second.length first second = true := by
            simpa [strncmpEqual, nonzero] using equal
          rw [equal.1, ih (by simpa using length)
            (fun member => plain (List.mem_cons_of_mem _ member)) equal.2]

/-- The loop over the hashes is a linear probe. -/
theorem probeTable_eq_probe (db : Db kh) (name : Bytes) (probes : Nat)
    (hash : UInt32) :
    probeTable db name probes hash =
      match Probing.probe (kh.lookup db.tables)
        (fun table => tableMatches db table name) probes hash with
      | none => .error .endless
      | some (slot, none) => .ok (.inl slot)
      | some (_, some table) => .ok (.inr table) := by
  induction probes generalizing hash with
  | zero => rfl
  | succ probes ih =>
      unfold probeTable Probing.probe
      cases kh.lookup db.tables hash with
      | none => rfl
      | some table =>
          dsimp only
          split
          · rfl
          · exact ih (hash + 1)

section Lookup

variable {hashString : Bytes → UInt32} {limit : Nat} {registry : Registry kh}
  {name : Bytes}

theorem Registry.Named.matches_iff (named : registry.Named hashString limit)
    (exact_ : ComparesExactly registry.db name) {slot : UInt32} {table : Nat}
    (registered : kh.lookup registry.db.tables slot = some table) :
    tableMatches registry.db table name = true ↔
      registry.db.table.key table = name := by
  constructor
  · exact exact_ registered
  · rintro rfl
    simp [tableMatches, named.length_eq registered, strncmpEqual_self]

/-- The probes for a name pass every slot before that of its table. -/
theorem Registry.Named.passes (named : registry.Named hashString limit)
    (exact_ : ComparesExactly registry.db name) {slot : UInt32} {table : Nat}
    (registered : kh.lookup registry.db.tables slot = some table)
    (isName : registry.db.table.key table = name) :
    Probing.Passes (kh.lookup registry.db.tables)
      (fun other => tableMatches registry.db other name)
      (hashString name) slot := by
  subst name
  intro otherSlot before
  cases content : kh.lookup registry.db.tables otherSlot with
  | none => exact absurd content (named.taken registered before)
  | some other =>
      refine ⟨other, rfl, ?_⟩
      by_contra matching
      have matching := Bool.not_eq_false _ ▸ matching
      have sameName := (named.matches_iff exact_ content).mp matching
      have otherNamed := named.named content
      rw [sameName, named.named registered] at otherNamed
      obtain rfl := Option.some.inj otherNamed
      obtain rfl := (named.slot_eq content).symm.trans
        (named.slot_eq registered)
      exact Probing.not_before_self before

/-- Where a search for a name ends. -/
theorem Registry.Named.probe_ok (named : registry.Named hashString limit)
    (exact_ : ComparesExactly registry.db name) {probes : Nat}
    {found : Sum UInt32 Nat}
    (run : probeTable registry.db name probes (hashString name) = .ok found) :
    (∃ table, registry.names name = some table ∧ found = .inr table) ∨
      registry.names name = none ∧ ∃ free, found = .inl free ∧
        kh.lookup registry.db.tables free = none ∧
        ∀ {slot}, Probing.Before (hashString name) slot free →
          kh.lookup registry.db.tables slot ≠ none := by
  rw [probeTable_eq_probe] at run
  cases probed : Probing.probe (kh.lookup registry.db.tables)
      (fun table => tableMatches registry.db table name) probes
      (hashString name) with
  | none =>
      rw [probed] at run
      simp at run
  | some result =>
      obtain ⟨stop, content⟩ := result
      obtain ⟨passes, ends, contentEq⟩ := Probing.probe_end probed
      rw [probed] at run
      cases content with
      | some table =>
          left
          obtain rfl : found = .inr table := (Except.ok.inj run).symm
          have registered := contentEq.symm
          have isName := (named.matches_iff exact_ registered).mp
            (ends table registered)
          exact ⟨table, isName ▸ named.named registered, rfl⟩
      | none =>
          right
          obtain rfl : found = .inl stop := (Except.ok.inj run).symm
          refine ⟨?_, stop, rfl, contentEq.symm, fun {slot} before => ?_⟩
          · cases created : registry.names name with
            | none => rfl
            | some table =>
                obtain ⟨isName, slot, registered⟩ := named.found created
                have isWanted :=
                  (named.matches_iff exact_ registered).mpr isName
                have same := Probing.end_unique passes ends
                  (named.passes exact_ registered isName)
                  (fun other content => by
                    rw [registered] at content
                    exact Option.some.inj content ▸ isWanted)
                rw [← same, ← contentEq] at registered
                simp at registered
          · obtain ⟨value, content, -⟩ := passes slot before
            simp [content]

/-- A name that was created is found. -/
theorem Registry.Named.probe_some (named : registry.Named hashString hashCount)
    (exact_ : ComparesExactly registry.db name) {table : Nat}
    (created : registry.names name = some table) :
    probeTable registry.db name (kh.size registry.db.tables + 1)
      (hashString name) = .ok (.inr table) := by
  obtain ⟨isName, slot, registered⟩ := named.found created
  have inKeys : ∀ other, kh.lookup registry.db.tables other ≠ none →
      other ∈ kh.keys registry.db.tables :=
    fun _ => BucketMap.mem_keys_iff.mpr
  have probed := Probing.probe_found inKeys
    (BucketMap.length_keys registry.db.tables ▸ named.room)
    (named.passes exact_ registered isName) registered
    ((named.matches_iff exact_ registered).mpr isName)
  rw [BucketMap.length_keys] at probed
  rw [probeTable_eq_probe, probed]

/-- A name that was not created leads to the first free slot. -/
theorem Registry.Named.probe_none (named : registry.Named hashString hashCount)
    (exact_ : ComparesExactly registry.db name)
    (missing : registry.names name = none) :
    ∃ free, probeTable registry.db name (kh.size registry.db.tables + 1)
        (hashString name) = .ok (.inl free) ∧
      kh.lookup registry.db.tables free = none ∧
      ∀ {slot}, Probing.Before (hashString name) slot free →
        kh.lookup registry.db.tables slot ≠ none := by
  have unwanted : ∀ slot table,
      kh.lookup registry.db.tables slot = some table →
        tableMatches registry.db table name = false := by
    intro slot table registered
    by_contra matching
    have matching := Bool.not_eq_false _ ▸ matching
    have sameName := (named.matches_iff exact_ registered).mp matching
    have created := named.named registered
    rw [sameName, missing] at created
    simp at created
  have inKeys : ∀ other, kh.lookup registry.db.tables other ≠ none →
      other ∈ kh.keys registry.db.tables :=
    fun _ => BucketMap.mem_keys_iff.mpr
  obtain ⟨free, probed, empty, passed⟩ :=
    Probing.probe_missing inKeys
      (BucketMap.length_keys registry.db.tables ▸ named.room) unwanted
      (hashString name)
  rw [BucketMap.length_keys] at probed
  refine ⟨free, ?_, empty, fun {slot} before => passed slot before⟩
  rw [probeTable_eq_probe, probed]

/-- A lookup finds the table that the name was given. -/
theorem Registry.Named.getRead (named : registry.Named hashString hashCount)
    (exact_ : ComparesExactly registry.db name) :
    dbTableGetRead hashString registry.db name =
      .ok (match registry.names name with
        | none => (registry.db, none)
        | some table => (dbTableIncref registry.db table, some table)) := by
  unfold dbTableGetRead
  cases created : registry.names name with
  | none =>
      obtain ⟨free, probed, -⟩ := named.probe_none exact_ created
      rw [probed]
      rfl
  | some table =>
      rw [named.probe_some exact_ created]
      rfl

end Lookup

theorem keyReferences_le (map : kh.Map) : keyReferences map ≤ 1 := by
  unfold keyReferences
  split <;> omega

@[simp]
theorem requestReferences_self (table : Nat) :
    requestReferences (some table) table = 1 :=
  if_pos rfl

@[simp]
theorem requestReferences_none (table : Nat) :
    requestReferences none table = 0 :=
  if_neg (by simp)

theorem size_put_ne_zero {map : kh.Map} {key : UInt32} {stored : Nat} :
    kh.size (kh.put map key stored) ≠ 0 := by
  intro empty
  have missing := BucketMap.size_eq_zero_iff.mp empty key
  rw [BucketMap.lookup_put, if_pos rfl] at missing
  simp at missing

theorem size_ne_zero_of_lookup {map : kh.Map} {key : UInt32} {stored : Nat}
    (found : kh.lookup map key = some stored) : kh.size map ≠ 0 := by
  intro empty
  rw [BucketMap.size_eq_zero_iff.mp empty key] at found
  simp at found

section Frames

variable {before after : Db kh} {held heldAfter : Option Nat}

/-- A request changes the references and the keys of one table. -/
theorem Counted.change (counted : Counted before held) (table : Nat)
    (tables : after.tables = before.tables)
    (deleted : after.table.deleted = before.table.deleted)
    (refs : ∀ other, other ≠ table →
      after.table.refs other = before.table.refs other)
    (keys : ∀ other, other ≠ table →
      after.table.cacheHashSet other = before.table.cacheHashSet other)
    (holders : ∀ other, other ≠ table →
      (heldAfter = some other ↔ held = some other))
    (own : ∀ {slot}, kh.lookup before.tables slot = some table →
      after.table.refs table =
        keyReferences (after.table.cacheHashSet table) +
          requestReferences heldAfter table) :
    Counted after heldAfter where
  live := by
    intro slot other registered
    rw [deleted]
    exact counted.live (tables ▸ registered)
  refs := by
    intro slot other registered
    have registered : kh.lookup before.tables slot = some other :=
      tables ▸ registered
    by_cases same : other = table
    · subst other
      exact own registered
    · rw [refs other same, keys other same, counted.refs registered]
      simp only [requestReferences, holders other same]

theorem Keyed.of_eq (keyed : Keyed before)
    (keys : after.table.cacheHashSet = before.table.cacheHashSet)
    (count : after.entry.count = before.entry.count)
    (table : after.entry.table = before.entry.table)
    (hash : after.entry.hash = before.entry.hash)
    (deleted : after.entry.deleted = before.entry.deleted) :
    Keyed after := by
  intro held key entry found
  rw [keys] at found
  rw [count, table, hash, deleted]
  exact keyed found

theorem Keyed.freeUnheld (keyed : Keyed before) (entry : Nat) :
    Keyed (before.freeUnheld entry) := by
  obtain ⟨_, _, _, _, _, _, eq⟩ := freeUnheld_eq before entry
  rw [eq]
  exact keyed.of_eq rfl rfl rfl rfl rfl

/-- Removing a key removes its entry from every key map. -/
theorem Keyed.remove (keyed : Keyed before) {table entry k : Nat}
    (found : kh.value (before.table.cacheHashSet table) k = some entry) :
    Keyed (before.remove table entry k) := by
  intro held key other remains
  obtain ⟨removedKey, removed, rfl⟩ := BucketMap.exists_key_of_value found
  obtain ⟨-, inTable, hash, -⟩ := keyed removed
  have otherFound : kh.lookup
      (Function.update before.table.cacheHashSet table
        (kh.del (before.table.cacheHashSet table)
          (kh.find (before.table.cacheHashSet table) removedKey)) held) key =
        some other := remains
  clear remains
  have kept : kh.lookup (before.table.cacheHashSet held) key = some other ∧
      other ≠ entry := by
    by_cases same : held = table
    · subst held
      rw [Function.update_self, BucketMap.lookup_del_find] at otherFound
      split at otherFound
      · simp at otherFound
      · next different =>
          refine ⟨otherFound, ?_⟩
          rintro rfl
          exact different ((keyed otherFound).2.2.1.symm.trans hash)
    · rw [Function.update_of_ne same] at otherFound
      refine ⟨otherFound, ?_⟩
      rintro rfl
      exact same (Option.some.inj ((keyed otherFound).2.1.symm.trans inTable))
  obtain ⟨allocated, otherTable, otherHash, fresh⟩ := keyed kept.1
  refine ⟨allocated, otherTable, otherHash, ?_⟩
  change Function.update before.entry.deleted entry true other = false
  rw [Function.update_of_ne kept.2]
  exact fresh

theorem Keyed.enter (keyed : Keyed before) (table : Nat) (new : NewEntry)
    (first : Bool) : Keyed (before.enter table new first) := by
  intro held hash entry found
  have found : kh.lookup
      (Function.update before.table.cacheHashSet table
        (kh.put (before.table.cacheHashSet table) new.hash
          before.entry.count) held) hash = some entry := found
  have entered : (held = table ∧ hash = new.hash ∧
        entry = before.entry.count) ∨
      kh.lookup (before.table.cacheHashSet held) hash = some entry := by
    by_cases same : held = table
    · subst held
      rw [Function.update_self, BucketMap.lookup_put] at found
      split at found
      · next hashEq =>
          exact Or.inl ⟨rfl, hashEq, (Option.some.inj found).symm⟩
      · exact Or.inr found
    · rw [Function.update_of_ne same] at found
      exact Or.inr found
  change entry < before.entry.count + 1 ∧
    Function.update before.entry.table before.entry.count (some table) entry =
      some held ∧
    Function.update before.entry.hash before.entry.count new.hash entry =
      hash ∧
    Function.update before.entry.deleted before.entry.count false entry = false
  rcases entered with ⟨rfl, rfl, rfl⟩ | old
  · simp
  · obtain ⟨allocated, inTable, hashEq, fresh⟩ := keyed old
    have older : entry ≠ before.entry.count := by omega
    rw [Function.update_of_ne older, Function.update_of_ne older,
      Function.update_of_ne older]
    exact ⟨by omega, inTable, hashEq, fresh⟩

end Frames

section Calls

variable {hashString : Bytes → UInt32} {db after : Db kh}

/-- A request takes a reference to a table. -/
theorem Counted.take (counted : Counted db none) {slot : UInt32} {table : Nat}
    (registered : kh.lookup db.tables slot = some table) :
    Counted (dbTableIncref db table) (some table) := by
  refine counted.change table rfl rfl ?_ (fun _ _ => rfl) ?_ ?_
  · intro other different
    exact Function.update_of_ne different ..
  · intro other different
    simp [different.symm]
  · intro _ _
    change Function.update db.table.refs table (u15 (db.table.refs table + 1))
      table = keyReferences (db.table.cacheHashSet table) + _
    have few := keyReferences_le (db.table.cacheHashSet table)
    rw [Function.update_self, counted.refs registered, requestReferences_self,
      requestReferences_none]
    unfold u15
    omega

/-- A request drops its table, which stays. -/
theorem Counted.drop_eq {table : Nat} (counted : Counted db (some table))
    {slot : UInt32} (registered : kh.lookup db.tables slot = some table) :
    dbTableDeref db table false = db.decTable table := by
  rw [dbTableDeref_eq, if_neg]
  rintro ⟨-, forced | isDeleted⟩
  · simp at forced
  · rw [counted.live registered] at isDeleted
    simp at isDeleted

theorem Counted.drop {table : Nat} (counted : Counted db (some table)) :
    Counted (db.decTable table) none := by
  refine counted.change table rfl rfl ?_ (fun _ _ => rfl) ?_ ?_
  · intro other different
    exact Function.update_of_ne different ..
  · intro other different
    simp [different.symm]
  · intro slot registered
    change Function.update db.table.refs table
      (u15 (db.table.refs table + 32767)) table =
        keyReferences (db.table.cacheHashSet table) + _
    have few := keyReferences_le (db.table.cacheHashSet table)
    rw [Function.update_self, counted.refs registered, requestReferences_self,
      requestReferences_none]
    unfold u15
    omega

/-- Entering a key gives the first key of a table its reference. -/
theorem Counted.enter {table : Nat} (counted : Counted db (some table))
    (new : NewEntry) {first : Bool}
    (isFirst : first = decide (kh.size (db.table.cacheHashSet table) = 0)) :
    Counted (db.enter table new first) (some table) := by
  have refs : (db.enter table new first).table.refs =
      if first then
        Function.update db.table.refs table (u15 (db.table.refs table + 1))
      else db.table.refs := rfl
  have keys : (db.enter table new first).table.cacheHashSet =
      Function.update db.table.cacheHashSet table
        (kh.put (db.table.cacheHashSet table) new.hash db.entry.count) := rfl
  refine counted.change table rfl rfl ?_ ?_ (fun _ _ => Iff.rfl) ?_
  · intro other different
    rw [refs]
    split
    · exact Function.update_of_ne different ..
    · rfl
  · intro other different
    rw [keys]
    exact Function.update_of_ne different ..
  · intro slot registered
    have held := counted.refs registered
    rw [requestReferences_self] at held ⊢
    rw [refs, keys, Function.update_self, keyReferences,
      if_neg size_put_ne_zero]
    unfold keyReferences at held
    by_cases empty : kh.size (db.table.cacheHashSet table) = 0
    · rw [isFirst, if_pos (by simpa using empty), Function.update_self, held,
        if_pos empty]
      rfl
    · rw [isFirst, if_neg (by simpa using empty), held, if_neg empty]

/-- Removing a key of a table that keeps others. -/
theorem Counted.keys {table : Nat} {held : Option Nat}
    (counted : Counted db held) (map : kh.Map)
    (tables : after.tables = db.tables)
    (sameTable : after.table =
      { db.table with
        cacheHashSet := Function.update db.table.cacheHashSet table map })
    (keyed : kh.size (db.table.cacheHashSet table) ≠ 0)
    (stillKeyed : kh.size map ≠ 0) : Counted after held := by
  refine counted.change table tables ?_ ?_ ?_ (fun _ _ => Iff.rfl) ?_
  · rw [sameTable]
  · intro other _
    rw [sameTable]
  · intro other different
    rw [sameTable]
    exact Function.update_of_ne different ..
  · intro slot registered
    rw [sameTable]
    dsimp only
    rw [Function.update_self, counted.refs registered]
    simp only [keyReferences, keyed, stillKeyed, if_false]

end Calls

/-- What names are found by. -/
structure SameNames (before after : Db kh) : Prop where
  tables : after.tables = before.tables
  count : after.table.count = before.table.count
  hash : after.table.hash = before.table.hash
  key : after.table.key = before.table.key
  keyLength : after.table.keyLength = before.table.keyLength

theorem SameNames.trans {first second third : Db kh}
    (left : SameNames first second) (right : SameNames second third) :
    SameNames first third where
  tables := right.tables.trans left.tables
  count := right.count.trans left.count
  hash := right.hash.trans left.hash
  key := right.key.trans left.key
  keyLength := right.keyLength.trans left.keyLength

section Names

variable {hashString : Bytes → UInt32} {limit : Nat} {registry : Registry kh}
  {name : Bytes}

theorem Registry.Named.of_same (named : registry.Named hashString limit)
    {after : Db kh} (same : SameNames registry.db after) :
    ({ registry with db := after } : Registry kh).Named hashString limit := by
  obtain ⟨tables, count, hash, key, keyLength⟩ := same
  constructor
  · intro slot table registered
    exact count ▸ named.allocated (tables ▸ registered)
  · intro slot table registered
    exact hash ▸ named.slot_eq (tables ▸ registered)
  · intro slot table registered
    change after.table.keyLength table = (after.table.key table).length
    rw [key, keyLength]
    exact named.length_eq (tables ▸ registered)
  · intro slot table registered
    exact key ▸ named.named (tables ▸ registered)
  · intro slot table registered other before
    change kh.lookup after.tables other ≠ none
    change Probing.Before (hashString (after.table.key table)) other slot
      at before
    rw [key] at before
    rw [tables]
    exact named.taken (tables ▸ registered) before
  · intro name table created
    change after.table.key table = name ∧
      ∃ slot, kh.lookup after.tables slot = some table
    rw [key, tables]
    exact named.found created
  · exact tables ▸ named.room

theorem Registry.Named.mono {limitAfter : Nat}
    (named : registry.Named hashString limit) (more : limit ≤ limitAfter) :
    registry.Named hashString limitAfter :=
  { named with room := named.room.trans_le more }

/-- A new table goes to the first free slot of its name. -/
theorem Registry.Named.create (named : registry.Named hashString limit)
    (missing : registry.names name = none) {free : UInt32}
    (empty : kh.lookup registry.db.tables free = none)
    (passed : ∀ {slot}, Probing.Before (hashString name) slot free →
      kh.lookup registry.db.tables slot ≠ none)
    (short : name.length < 65536)
    (room : kh.size registry.db.tables + 1 < limit) :
    Registry.Named hashString limit
      { db := (dbTableNew registry.db name free).1
        names := registry.withName name registry.db.table.count } := by
  have names : registry.withName name registry.db.table.count =
      Function.update registry.names name (some registry.db.table.count) := by
    unfold Registry.withName
    rw [missing]
    rfl
  -- a registered table is the new one or an older one
  have cases_ : ∀ {slot table},
      kh.lookup (kh.put registry.db.tables free registry.db.table.count)
        slot = some table →
      (slot = free ∧ table = registry.db.table.count) ∨
        (kh.lookup registry.db.tables slot = some table ∧
          table ≠ registry.db.table.count) := by
    intro slot table registered
    rw [BucketMap.lookup_put] at registered
    split at registered
    · next slotEq =>
        exact Or.inl ⟨slotEq, (Option.some.inj registered).symm⟩
    · exact Or.inr ⟨registered, (named.allocated registered).ne⟩
  have stays : ∀ {slot}, kh.lookup registry.db.tables slot ≠ none →
      kh.lookup (kh.put registry.db.tables free registry.db.table.count)
        slot ≠ none := by
    intro slot taken
    rw [BucketMap.lookup_put]
    split
    · simp
    · exact taken
  rw [names]
  constructor
  · intro slot table registered
    change table < registry.db.table.count + 1
    rcases cases_ registered with ⟨-, rfl⟩ | ⟨old, -⟩
    · omega
    · have := named.allocated old
      omega
  · intro slot table registered
    change Function.update registry.db.table.hash registry.db.table.count free
      table = slot
    rcases cases_ registered with ⟨rfl, rfl⟩ | ⟨old, older⟩
    · exact Function.update_self ..
    · rw [Function.update_of_ne older]
      exact named.slot_eq old
  · intro slot table registered
    change Function.update registry.db.table.keyLength registry.db.table.count
        (u16 name.length) table =
      (Function.update registry.db.table.key registry.db.table.count name
        table).length
    rcases cases_ registered with ⟨-, rfl⟩ | ⟨old, older⟩
    · rw [Function.update_self, Function.update_self]
      exact Nat.mod_eq_of_lt short
    · rw [Function.update_of_ne older, Function.update_of_ne older]
      exact named.length_eq old
  · intro slot table registered
    change Function.update registry.names name (some registry.db.table.count)
      (Function.update registry.db.table.key registry.db.table.count name
        table) = some table
    rcases cases_ registered with ⟨-, rfl⟩ | ⟨old, older⟩
    · rw [Function.update_self, Function.update_self]
    · have kept := named.named old
      rw [Function.update_of_ne older, Function.update_of_ne]
      · exact kept
      · intro same
        rw [same, missing] at kept
        simp at kept
  · intro slot table registered other before
    apply stays
    change Probing.Before (hashString (Function.update registry.db.table.key
      registry.db.table.count name table)) other slot at before
    rcases cases_ registered with ⟨rfl, rfl⟩ | ⟨old, older⟩
    · rw [Function.update_self] at before
      exact passed before
    · rw [Function.update_of_ne older] at before
      exact named.taken old before
  · intro other table isNamed
    change Function.update registry.names name (some registry.db.table.count)
      other = some table at isNamed
    change Function.update registry.db.table.key registry.db.table.count name
        table = other ∧
      ∃ slot, kh.lookup (kh.put registry.db.tables free
        registry.db.table.count) slot = some table
    by_cases same : other = name
    · subst other
      rw [Function.update_self] at isNamed
      obtain rfl := Option.some.inj isNamed
      exact ⟨Function.update_self .., free, by
        rw [BucketMap.lookup_put, if_pos rfl]⟩
    · rw [Function.update_of_ne same] at isNamed
      obtain ⟨keyEq, slot, old⟩ := named.found isNamed
      refine ⟨?_, slot, ?_⟩
      · rw [Function.update_of_ne (named.allocated old).ne]
        exact keyEq
      · rw [BucketMap.lookup_put, if_neg]
        · exact old
        · rintro rfl
          rw [empty] at old
          simp at old
  · exact BucketMap.size_put_le.trans_lt room

/-- A table that nothing is registered past can go. -/
theorem Registry.Named.delete (named : registry.Named hashString limit)
    {slot : UInt32} {table : Nat} {after : Db kh}
    (registered : kh.lookup registry.db.tables slot = some table)
    (isName : registry.db.table.key table = name)
    (notPassed : NotPassed hashString registry.db slot)
    (tables : ∀ other, kh.lookup after.tables other =
      if other = slot then none else kh.lookup registry.db.tables other)
    (size : kh.size after.tables ≤ kh.size registry.db.tables)
    (count : after.table.count = registry.db.table.count)
    (hash : after.table.hash = registry.db.table.hash)
    (key : after.table.key = registry.db.table.key)
    (keyLength : after.table.keyLength = registry.db.table.keyLength) :
    Registry.Named hashString limit
      { db := after, names := registry.withoutName name } := by
  have kept : ∀ {other otherTable},
      kh.lookup after.tables other = some otherTable →
        other ≠ slot ∧
          kh.lookup registry.db.tables other = some otherTable := by
    intro other otherTable found
    rw [tables] at found
    split at found
    · simp at found
    · next different => exact ⟨different, found⟩
  have created := named.named registered
  rw [isName] at created
  constructor
  · intro other otherTable found
    exact count ▸ named.allocated (kept found).2
  · intro other otherTable found
    exact hash ▸ named.slot_eq (kept found).2
  · intro other otherTable found
    change after.table.keyLength otherTable =
      (after.table.key otherTable).length
    rw [key, keyLength]
    exact named.length_eq (kept found).2
  · intro other otherTable found
    obtain ⟨different, found⟩ := kept found
    have otherNamed := named.named found
    change Function.update registry.names name none
      (after.table.key otherTable) = some otherTable
    rw [key, Function.update_of_ne]
    · exact otherNamed
    · intro sameName
      rw [sameName, created] at otherNamed
      obtain rfl := Option.some.inj otherNamed
      exact different
        ((named.slot_eq found).symm.trans (named.slot_eq registered))
  · intro other otherTable found passed before
    obtain ⟨-, found⟩ := kept found
    change Probing.Before (hashString (after.table.key otherTable)) passed
      other at before
    rw [key] at before
    change kh.lookup after.tables passed ≠ none
    rw [tables, if_neg]
    · exact named.taken found before
    · rintro rfl
      exact notPassed found before
  · intro other otherTable isNamed
    change Function.update registry.names name none other =
      some otherTable at isNamed
    by_cases same : other = name
    · subst other
      rw [Function.update_self] at isNamed
      simp at isNamed
    · rw [Function.update_of_ne same] at isNamed
      obtain ⟨keyEq, otherSlot, found⟩ := named.found isNamed
      change after.table.key otherTable = other ∧
        ∃ slot, kh.lookup after.tables slot = some otherTable
      refine ⟨key ▸ keyEq, otherSlot, ?_⟩
      rw [tables, if_neg]
      · exact found
      · rintro rfl
        rw [registered] at found
        obtain rfl := Option.some.inj found
        exact same (keyEq.symm.trans isName)
  · exact size.trans_lt named.room

end Names

/-- One table may change its keys and its mark, and nothing else changes for
tables. -/
structure ChangesOwn (table : Nat) (before after : Db kh) : Prop where
  names : SameNames before after
  refs : after.table.refs = before.table.refs
  others : ∀ {other}, other ≠ table →
    after.table.deleted other = before.table.deleted other ∧
      after.table.cacheHashSet other = before.table.cacheHashSet other

/-- One table is registered no longer. -/
structure Unregisters (table : Nat) (slot : UInt32) (before after : Db kh) :
    Prop where
  tables : ∀ other, kh.lookup after.tables other =
    if other = slot then none else kh.lookup before.tables other
  size : kh.size after.tables ≤ kh.size before.tables
  count : after.table.count = before.table.count
  hash : after.table.hash = before.table.hash
  key : after.table.key = before.table.key
  keyLength : after.table.keyLength = before.table.keyLength
  others : ∀ {other}, other ≠ table →
    after.table.refs other = before.table.refs other ∧
      after.table.deleted other = before.table.deleted other ∧
      after.table.cacheHashSet other = before.table.cacheHashSet other

section Unregister

variable {before middle after : Db kh} {table : Nat} {slot : UInt32}

theorem ChangesOwn.destroy (own : ChangesOwn table before middle)
    (hash : before.table.hash table = slot)
    (held : before.table.refs table ≠ 0) :
    Unregisters table slot before (middle.destroy table) where
  tables := by
    intro other
    rw [lookup_destroy, own.refs, own.names.hash, hash, own.names.tables]
    simp [held]
  size := by
    unfold Db.destroy
    dsimp only
    split
    · rw [own.names.tables]
    · exact BucketMap.size_del_le.trans (by rw [own.names.tables])
  count := own.names.count
  hash := own.names.hash
  key := own.names.key
  keyLength := own.names.keyLength
  others := fun different =>
    ⟨congrFun own.refs _, own.others different⟩

/-- Dropping references to a table that is out changes nothing more. -/
theorem Unregisters.deref (gone : Unregisters table slot before middle)
    (hash : before.table.hash table = slot) (actuallyDelete : Bool) :
    Unregisters table slot before
      (dbTableDeref middle table actuallyDelete) where
  tables := by
    intro other
    rw [dbTableDeref_eq]
    split
    · rw [lookup_dbTableActuallyDelete]
      change (if other = middle.table.hash table then none
        else kh.lookup middle.tables other) = _
      rw [gone.hash, hash, gone.tables]
      by_cases same : other = slot
      · simp [same]
      · simp [same]
    · exact gone.tables other
  size := by
    rw [dbTableDeref_eq]
    split
    · unfold dbTableActuallyDelete
      dsimp only
      split
      · exact gone.size
      · exact BucketMap.size_del_le.trans gone.size
    · exact gone.size
  count := by
    rw [dbTableDeref_eq]
    split <;> exact gone.count
  hash := by
    rw [dbTableDeref_hash]
    exact gone.hash
  key := by
    rw [dbTableDeref_eq]
    split <;> exact gone.key
  keyLength := by
    rw [dbTableDeref_eq]
    split <;> exact gone.keyLength
  others := by
    intro other different
    rw [dbTableDeref_refs, dbTableDeref_deleted, dbTableDeref_cacheHashSet,
      Function.update_of_ne different]
    exact gone.others different

/-- Dropping the last reference to a table without keys. -/
theorem unregisters_last (db : Db kh) (hash : db.table.hash table = slot)
    (last : db.table.refs table = 1) :
    Unregisters table slot db (dbTableDeref db table true) := by
  have zero : (db.decTable table).table.refs table = 0 := by
    rw [decTable_refs, last]
    rfl
  rw [dbTableDeref_eq, if_pos ⟨zero, Or.inl rfl⟩]
  exact {
    tables := by
      intro other
      rw [lookup_dbTableActuallyDelete]
      change (if other = db.table.hash table then none
        else kh.lookup db.tables other) = _
      rw [hash]
    size := by
      unfold dbTableActuallyDelete
      dsimp only
      split
      · exact le_rfl
      · exact BucketMap.size_del_le
    count := rfl
    hash := rfl
    key := rfl
    keyLength := rfl
    others := fun different =>
      ⟨Function.update_of_ne different .., rfl, rfl⟩ }

theorem Unregisters.same (gone : Unregisters table slot before middle)
    (names : SameNames middle after)
    (refs : after.table.refs = middle.table.refs)
    (deleted : after.table.deleted = middle.table.deleted)
    (keys : after.table.cacheHashSet = middle.table.cacheHashSet) :
    Unregisters table slot before after where
  tables := by
    rw [names.tables]
    exact gone.tables
  size := by
    rw [names.tables]
    exact gone.size
  count := names.count.trans gone.count
  hash := names.hash.trans gone.hash
  key := names.key.trans gone.key
  keyLength := names.keyLength.trans gone.keyLength
  others := by
    rw [refs, deleted, keys]
    exact gone.others

theorem Unregisters.detach (gone : Unregisters table slot before middle)
    (entry : Nat) : Unregisters table slot before (middle.detach entry) :=
  gone.same ⟨rfl, rfl, rfl, rfl, rfl⟩ rfl rfl rfl

theorem Unregisters.freeUnheld (gone : Unregisters table slot before middle)
    (entry : Nat) :
    Unregisters table slot before (middle.freeUnheld entry) := by
  have sameTable := freeUnheld_table middle entry
  refine gone.same ⟨freeUnheld_tables middle entry, ?_, ?_, ?_, ?_⟩ ?_ ?_ ?_
  all_goals rw [sameTable]

theorem Counted.delete (counted : Counted before (some table))
    (slots : ∀ {other}, kh.lookup before.tables other = some table →
      other = slot)
    (gone : Unregisters table slot before after) : Counted after none := by
  have kept : ∀ {other otherTable},
      kh.lookup after.tables other = some otherTable →
        otherTable ≠ table ∧
          kh.lookup before.tables other = some otherTable := by
    intro other otherTable found
    rw [gone.tables] at found
    split at found
    · simp at found
    · next different =>
        refine ⟨?_, found⟩
        rintro rfl
        exact different (slots found)
  constructor
  · intro other otherTable found
    obtain ⟨different, found⟩ := kept found
    rw [(gone.others different).2.1]
    exact counted.live found
  · intro other otherTable found
    obtain ⟨different, found⟩ := kept found
    rw [(gone.others different).1, (gone.others different).2.2,
      counted.refs found]
    simp [requestReferences, different.symm]

end Unregister

/-- What holds between the calls of a request, which holds a table or none. -/
structure Registry.Sound (hashString : Bytes → UInt32) (limit : Nat)
    (registry : Registry kh) (held : Option Nat) : Prop where
  named : registry.Named hashString limit
  counted : Counted registry.db held
  keyed : Keyed registry.db

section Requests

variable {hashString : Bytes → UInt32} {limit : Nat} {registry : Registry kh}
  {name : Bytes} {table : Nat} {slot : UInt32} {after : Db kh}

theorem Registry.Sound.take (sound : registry.Sound hashString limit none)
    (registered : kh.lookup registry.db.tables slot = some table) :
    Registry.Sound hashString limit
      { registry with db := dbTableIncref registry.db table }
      (some table) where
  named := sound.named.of_same ⟨rfl, rfl, rfl, rfl, rfl⟩
  counted := sound.counted.take registered
  keyed := Keyed.of_eq sound.keyed rfl rfl rfl rfl rfl

theorem Registry.Sound.drop
    (sound : registry.Sound hashString limit (some table))
    (registered : kh.lookup registry.db.tables slot = some table) :
    Registry.Sound hashString limit
      { registry with db := dbTableDeref registry.db table false } none := by
  rw [sound.counted.drop_eq registered]
  exact {
    named := sound.named.of_same ⟨rfl, rfl, rfl, rfl, rfl⟩
    counted := sound.counted.drop
    keyed := Keyed.of_eq sound.keyed rfl rfl rfl rfl rfl }

theorem Registry.Sound.mono {held : Option Nat} {limitAfter : Nat}
    (sound : registry.Sound hashString limit held)
    (more : limit ≤ limitAfter) :
    registry.Sound hashString limitAfter held :=
  { sound with named := sound.named.mono more }

/-- A new table is held by the request that created it. -/
theorem Registry.Sound.createTable
    (sound : registry.Sound hashString limit none)
    (missing : registry.names name = none) {free : UInt32}
    (empty : kh.lookup registry.db.tables free = none)
    (passed : ∀ {slot}, Probing.Before (hashString name) slot free →
      kh.lookup registry.db.tables slot ≠ none)
    (short : name.length < 65536)
    (room : kh.size registry.db.tables + 1 < limit) :
    Registry.Sound hashString limit
        { db := (dbTableNew registry.db name free).1
          names := registry.withName name registry.db.table.count }
        (some registry.db.table.count) ∧
      ∃ slot, kh.lookup (dbTableNew registry.db name free).1.tables slot =
        some registry.db.table.count := by
  refine ⟨⟨sound.named.create missing empty passed short room, ?_, ?_⟩,
    free, ?_⟩
  · have older : ∀ {other otherTable},
        kh.lookup (kh.put registry.db.tables free registry.db.table.count)
          other = some otherTable →
        otherTable ≠ registry.db.table.count →
        kh.lookup registry.db.tables other = some otherTable := by
      intro other otherTable found different
      rw [BucketMap.lookup_put] at found
      split at found
      · exact absurd (Option.some.inj found).symm different
      · exact found
    constructor
    · intro other otherTable found
      change Function.update registry.db.table.deleted
        registry.db.table.count false otherTable = false
      by_cases same : otherTable = registry.db.table.count
      · rw [same, Function.update_self]
      · rw [Function.update_of_ne same]
        exact sound.counted.live (older found same)
    · intro other otherTable found
      change Function.update registry.db.table.refs
          registry.db.table.count 1 otherTable =
        keyReferences (Function.update registry.db.table.cacheHashSet
          registry.db.table.count kh.empty otherTable) +
          requestReferences (some registry.db.table.count) otherTable
      by_cases same : otherTable = registry.db.table.count
      · rw [same, Function.update_self, Function.update_self,
          requestReferences_self]
        simp [keyReferences, BucketMap.size_eq_zero_iff.mpr
          fun _ => BucketMap.lookup_empty]
      · rw [Function.update_of_ne same, Function.update_of_ne same,
          sound.counted.refs (older found same)]
        simp [requestReferences, Ne.symm same]
  · intro held hash entry found
    have found : kh.lookup (Function.update registry.db.table.cacheHashSet
        registry.db.table.count kh.empty held) hash = some entry := found
    by_cases same : held = registry.db.table.count
    · rw [same, Function.update_self, BucketMap.lookup_empty] at found
      simp at found
    · rw [Function.update_of_ne same] at found
      exact sound.keyed found
  · exact (BucketMap.lookup_put free).trans (if_pos rfl)

theorem Registry.Sound.getWrite (sound : registry.Sound hashString limit none)
    (exact_ : ComparesExactly registry.db name)
    (short : name.length < 65536)
    (room : kh.size registry.db.tables + 1 < limit)
    (run : dbTableGetWrite hashString registry.db name =
      .ok (after, table)) :
    Registry.Sound hashString limit
        { db := after, names := registry.withName name table } (some table) ∧
      ∃ slot, kh.lookup after.tables slot = some table := by
  unfold dbTableGetWrite at run
  rw [bind_eq_ok] at run
  obtain ⟨found, probed, run⟩ := run
  rcases sound.named.probe_ok exact_ probed with
    ⟨old, created, rfl⟩ | ⟨created, free, rfl, empty, passed⟩
  · obtain ⟨rfl, rfl⟩ := Prod.mk.inj (pure_eq_ok.mp run)
    obtain ⟨-, slot, registered⟩ := sound.named.found created
    have names : registry.withName name old = registry.names := by
      unfold Registry.withName
      rw [created]
      exact Function.update_eq_self_iff.mpr created.symm
    rw [names]
    exact ⟨sound.take registered, slot, registered⟩
  · obtain ⟨rfl, rfl⟩ := Prod.mk.inj (pure_eq_ok.mp run)
    exact sound.createTable created empty passed short room

/-- What a change to other fields keeps. -/
theorem Registry.Sound.of_eq {held : Option Nat}
    (sound : registry.Sound hashString limit held)
    (tables : after.tables = registry.db.tables)
    (table : after.table = registry.db.table)
    (count : after.entry.count = registry.db.entry.count)
    (entryTable : after.entry.table = registry.db.entry.table)
    (hash : after.entry.hash = registry.db.entry.hash)
    (deleted : after.entry.deleted = registry.db.entry.deleted) :
    Registry.Sound hashString limit { registry with db := after } held := by
  have names : SameNames registry.db after := by
    constructor
    · exact tables
    · rw [table]
    · rw [table]
    · rw [table]
    · rw [table]
  refine ⟨sound.named.of_same names, ⟨?_, ?_⟩,
    Keyed.of_eq sound.keyed ?_ count entryTable hash deleted⟩
  · intro slot other registered
    change after.table.deleted other = false
    rw [table]
    exact sound.counted.live (tables ▸ registered)
  · intro slot other registered
    change after.table.refs other =
      keyReferences (after.table.cacheHashSet other) + _
    rw [table]
    exact sound.counted.refs (tables ▸ registered)
  · rw [table]

theorem freeUnheld_kept (db : Db kh) (entry : Nat) :
    (db.freeUnheld entry).entry.count = db.entry.count ∧
      (db.freeUnheld entry).entry.table = db.entry.table ∧
      (db.freeUnheld entry).entry.hash = db.entry.hash ∧
      (db.freeUnheld entry).entry.deleted = db.entry.deleted := by
  obtain ⟨_, _, _, _, _, _, eq⟩ := freeUnheld_eq db entry
  rw [eq]
  exact ⟨rfl, rfl, rfl, rfl⟩

theorem Registry.Sound.freeUnheld {db : Db kh}
    {names : Bytes → Option Nat} {held : Option Nat}
    (sound : Registry.Sound hashString limit { db, names } held) (entry : Nat) :
    Registry.Sound hashString limit
      { db := db.freeUnheld entry, names } held := by
  obtain ⟨count, table, hash, deleted⟩ := freeUnheld_kept db entry
  exact sound.of_eq (freeUnheld_tables db entry) (freeUnheld_table db entry)
    count table hash deleted

/-- A request drops the entry it holds, which has no table any more. -/
theorem Registry.Sound.dropDetached {db : Db kh}
    {names : Bytes → Option Nat} {held : Option Nat}
    (sound : Registry.Sound hashString limit { db, names } held) (entry : Nat) :
    Registry.Sound hashString limit
      { db := (db.decEntry entry).freeUnheld entry, names } held := by
  have dropped : Registry.Sound hashString limit
      { db := db.decEntry entry, names } held :=
    sound.of_eq rfl rfl rfl rfl rfl rfl
  exact dropped.freeUnheld entry

/-- A request drops the entry it holds, and the table with it. -/
theorem Registry.Sound.release
    (sound : registry.Sound hashString limit (some table))
    (registered : kh.lookup registry.db.tables slot = some table)
    {entry : Nat} (inTable : registry.db.entry.table entry = some table) :
    Registry.Sound hashString limit
      { registry with db := dbEntryDeref registry.db entry true } none := by
  have decremented : Registry.Sound hashString limit
      { registry with db := registry.db.decEntry entry } (some table) :=
    sound.of_eq rfl rfl rfl rfl rfl rfl
  have dropped : Registry.Sound hashString limit
      { registry with
        db := dbTableDeref (registry.db.decEntry entry) table false } none :=
    decremented.drop registered
  rw [dbEntryDeref_inTable inTable]
  exact dropped.freeUnheld entry

variable (hashString) in
theorem enterUpload_keys (db : Db kh) (table : Nat) (key : Bytes) :
    (db.enterUpload hashString table key false).table =
      { db.table with
        cacheHashSet := Function.update db.table.cacheHashSet table
          (kh.put (db.table.cacheHashSet table) (hashString key)
            db.entry.count) } := rfl

variable (hashString) in
theorem replaceUpload_table (db : Db kh) (table old : Nat) (key : Bytes) :
    ∃ map, kh.size map ≠ 0 ∧
      ((db.replaceKey table old (hashString key)).enterUpload hashString table
        key false).table =
        { db.table with
          cacheHashSet := Function.update db.table.cacheHashSet table map } := by
  rw [enterUpload_keys, replaceKey_table]
  dsimp only
  rw [Function.update_idem]
  exact ⟨_, size_put_ne_zero, rfl⟩

/-- An upload enters its key and keeps its table. -/
theorem Registry.Sound.enterWrite
    (sound : registry.Sound hashString limit (some table)) {key : Bytes}
    {entry : Option Nat}
    (run : enterWrite hashString registry.db table key =
      .ok (after, entry)) :
    Registry.Sound hashString limit
        { registry with db := after } (some table) ∧
      after.tables = registry.db.tables ∧
      ∀ entered, entry = some entered →
        after.entry.table entered = some table := by
  have keyed := @sound.keyed
  obtain ⟨-, ⟨rfl, rfl⟩ | ⟨-, rfl, rfl⟩ | ⟨old, found, rfl, rfl⟩⟩ :=
    enterWrite_ok (fun old found => ⟨(keyed found).2.1, (keyed found).2.2.2⟩)
      run
  · refine ⟨⟨sound.named.of_same ⟨rfl, rfl, rfl, rfl, rfl⟩,
      ⟨sound.counted.live, sound.counted.refs⟩,
      Keyed.of_eq sound.keyed rfl rfl rfl rfl rfl⟩, rfl, by simp⟩
  · have counted : Counted { registry.db.countInsert with
        dbKeys := u64 (registry.db.dbKeys + 1) } (some table) :=
      ⟨sound.counted.live, sound.counted.refs⟩
    have keyedNow : Keyed { registry.db.countInsert with
        dbKeys := u64 (registry.db.dbKeys + 1) } :=
      Keyed.of_eq sound.keyed rfl rfl rfl rfl rfl
    have entered := counted.enter (newUpload hashString key) rfl
    refine ⟨⟨sound.named.of_same ⟨rfl, rfl, rfl, rfl, rfl⟩,
      ⟨entered.live, entered.refs⟩,
      Keyed.of_eq (keyedNow.enter table (newUpload hashString key) _) rfl rfl
        rfl rfl rfl⟩, rfl, ?_⟩
    intro entered enteredEq
    obtain rfl := Option.some.inj enteredEq
    exact Function.update_self ..
  · have keyedRemoved :
        Keyed (registry.db.replaceKey table old (hashString key)) := by
      unfold Db.replaceKey
      apply Keyed.freeUnheld
      exact Keyed.remove (Keyed.of_eq sound.keyed rfl rfl rfl rfl rfl) found
    have keyedSize := size_ne_zero_of_lookup found
    have notFirst : decide (kh.size (registry.db.table.cacheHashSet table) = 0)
        = false := by simpa using keyedSize
    rw [notFirst]
    have tables : (registry.db.replaceKey table old (hashString key)).tables =
        registry.db.tables := by
      unfold Db.replaceKey
      rw [freeUnheld_tables]
      rfl
    obtain ⟨map, keys, table_⟩ := replaceUpload_table hashString registry.db
      table old key
    refine ⟨⟨sound.named.of_same ⟨tables, ?_, ?_, ?_, ?_⟩,
      sound.counted.keys map tables table_ keyedSize keys,
      Keyed.of_eq (keyedRemoved.enter table (newUpload hashString key) false)
        rfl rfl rfl rfl rfl⟩, tables, ?_⟩
    · rw [table_]
    · rw [table_]
    · rw [table_]
    · rw [table_]
    · intro entered enteredEq
      obtain rfl := Option.some.inj enteredEq
      exact Function.update_self ..

theorem Registry.Sound.putKey
    (sound : registry.Sound hashString limit (some table))
    (registered : kh.lookup registry.db.tables slot = some table)
    {key : Bytes}
    (run : putKey hashString registry.db table key = .ok after) :
    Registry.Sound hashString limit { registry with db := after } none := by
  unfold SimpleCache.putKey at run
  rw [bind_eq_ok] at run
  obtain ⟨⟨entered, entry⟩, enters, run⟩ := run
  obtain ⟨soundEntered, tables, inTable⟩ := sound.enterWrite enters
  have registered : kh.lookup entered.tables slot = some table :=
    tables ▸ registered
  cases entry with
  | none =>
      obtain rfl := pure_eq_ok.mp run
      exact soundEntered.drop registered
  | some entry =>
      obtain rfl := pure_eq_ok.mp run
      rw [dbCompleteWriting_eq]
      have completed : Registry.Sound hashString limit
          { registry with db := entered.complete entry } (some table) :=
        soundEntered.of_eq rfl rfl rfl rfl rfl rfl
      exact completed.release registered (inTable entry rfl)

/-- What both deletions of a table leave. -/
theorem Registry.Sound.delete
    (sound : registry.Sound hashString limit (some table))
    (registered : kh.lookup registry.db.tables slot = some table)
    (isName : registry.db.table.key table = name)
    (notPassed : NotPassed hashString registry.db slot)
    (gone : Unregisters table slot registry.db after) (keyed : Keyed after) :
    Registry.Sound hashString limit
      { db := after, names := registry.withoutName name } none where
  named := sound.named.delete registered isName notPassed gone.tables
    gone.size gone.count gone.hash gone.key gone.keyLength
  counted := sound.counted.delete
    (fun other => (sound.named.slot_eq other).symm.trans
      (sound.named.slot_eq registered)) gone
  keyed := keyed

theorem Registry.Sound.held
    (sound : registry.Sound hashString limit (some table))
    (registered : kh.lookup registry.db.tables slot = some table) :
    registry.db.table.refs table ≠ 0 := by
  rw [sound.counted.refs registered, requestReferences_self]
  omega

theorem removed_keys (db : Db kh) (table entry : Nat) :
    (db.removed table entry).table.cacheHashSet =
      Function.update db.table.cacheHashSet table
        (kh.del (db.table.cacheHashSet table)
          (kh.find (db.table.cacheHashSet table) (db.entry.hash entry))) :=
  rfl

/-- A deletion that found its entry. -/
def Db.countDelete (db : Db kh) (entry : Nat) : Db kh :=
  { db.incEntry entry with
    statsDeletes := u64 (db.statsDeletes + 1)
    statsOperations := u64 (db.statsOperations + 1) }

theorem dbEntryGetDelete_ok {db taken : Db kh} {key : Bytes}
    {entry : Option Nat}
    (run : dbEntryGetDelete hashString db table key = .ok (taken, entry)) :
    (taken = db ∧ entry = none) ∨
      ∃ held, kh.lookup (db.table.cacheHashSet table) (hashString key) =
          some held ∧ entry = some held ∧ taken = db.countDelete held := by
  unfold dbEntryGetDelete at run
  simp only [bind_eq_ok, keyMap_eq_ok] at run
  obtain ⟨set, ⟨-, rfl⟩, run⟩ := run
  cases found : kh.lookup (db.table.cacheHashSet table) (hashString key) with
  | none =>
      simp only [found] at run
      obtain ⟨rfl, rfl⟩ := Prod.mk.inj (pure_eq_ok.mp run)
      exact Or.inl ⟨rfl, rfl⟩
  | some held =>
      simp only [found] at run
      split at run
      · obtain ⟨rfl, rfl⟩ := Prod.mk.inj (pure_eq_ok.mp run)
        exact Or.inl ⟨rfl, rfl⟩
      · simp only [dbEntryIncref_false, bind_eq_ok, pure_eq_ok,
          Prod.mk.injEq] at run
        obtain ⟨incremented, takenEq, rfl, rfl⟩ := run
        obtain rfl := Except.ok.inj takenEq
        exact Or.inr ⟨held, rfl, rfl, rfl⟩

theorem removed_changesOwn (db : Db kh) (table entry : Nat) :
    ChangesOwn table db ((db.removed table entry).doom table) where
  names := ⟨rfl, rfl, rfl, rfl, rfl⟩
  refs := rfl
  others := fun different =>
    ⟨Function.update_of_ne different .., Function.update_of_ne different ..⟩

theorem Keyed.removed {db : Db kh} (keyed : Keyed db) {entry : Nat}
    (found : kh.value (db.table.cacheHashSet table)
      (kh.find (db.table.cacheHashSet table) (db.entry.hash entry)) =
        some entry) :
    Keyed (db.removed table entry) :=
  Keyed.of_eq (keyed.remove found) rfl rfl rfl rfl rfl

/-- Deleting the last key of a table unregisters it. -/
theorem Registry.Sound.removedLast
    (sound : registry.Sound hashString limit (some table))
    (registered : kh.lookup registry.db.tables slot = some table)
    {entry : Nat}
    (found : kh.value (registry.db.table.cacheHashSet table)
      (kh.find (registry.db.table.cacheHashSet table)
        (registry.db.entry.hash entry)) = some entry) :
    Unregisters table slot registry.db (registry.db.removedLast table entry) ∧
      Keyed (registry.db.removedLast table entry) := by
  have hash := sound.named.slot_eq registered
  have gone := ((removed_changesOwn registry.db table entry).destroy hash
    (sound.held registered)).deref hash true
  refine ⟨gone.detach entry, ?_⟩
  have removed : Keyed (registry.db.removed table entry) :=
    Keyed.removed sound.keyed found
  intro held key other otherFound
  rw [removedLast_keys] at otherFound
  obtain ⟨allocated, inTable, hashEq, fresh⟩ := removed otherFound
  have different : other ≠ entry := by
    rintro rfl
    have isDeleted : (registry.db.removed table other).entry.deleted other =
        true := Function.update_self ..
    rw [isDeleted] at fresh
    simp at fresh
  rw [removedLast_entry]
  dsimp only
  rw [Function.update_of_ne different]
  exact ⟨allocated, inTable, hashEq, fresh⟩

theorem Registry.Sound.deleteKey
    (sound : registry.Sound hashString limit (some table))
    (registered : kh.lookup registry.db.tables slot = some table)
    (isName : registry.db.table.key table = name) {key : Bytes}
    (notPassed : kh.size (registry.db.table.cacheHashSet table) = 1 →
      kh.lookup (registry.db.table.cacheHashSet table) (hashString key) ≠
        none → NotPassed hashString registry.db slot)
    {tableDeleted : Bool}
    (run : deleteKey hashString registry.db table key =
      .ok (after, tableDeleted)) :
    Registry.Sound hashString limit
      { db := after
        names :=
          if tableDeleted then registry.withoutName name
          else registry.names } none := by
  unfold SimpleCache.deleteKey at run
  rw [bind_eq_ok] at run
  obtain ⟨⟨taken, entry⟩, takes, run⟩ := run
  rcases dbEntryGetDelete_ok takes with ⟨rfl, rfl⟩ | ⟨entry, found, rfl, rfl⟩
  · obtain ⟨rfl, rfl⟩ := Prod.mk.inj (pure_eq_ok.mp run)
    exact sound.drop registered
  · simp only [bind_eq_ok, Prod.exists, pure_eq_ok, Prod.mk.injEq] at run
    obtain ⟨removed, isLast, removes, rfl, rfl⟩ := run
    obtain ⟨-, inTable, hash, -⟩ := @sound.keyed _ _ _ found
    have keyedSize := size_ne_zero_of_lookup found
    have counted : Registry.Sound hashString limit
        { registry with db := registry.db.countDelete entry } (some table) :=
      sound.of_eq rfl rfl rfl rfl rfl rfl
    have bucket : kh.value (registry.db.table.cacheHashSet table)
        (kh.find (registry.db.table.cacheHashSet table)
          (registry.db.entry.hash entry)) = some entry := by
      rw [hash]
      exact found
    obtain ⟨other, otherTable, -, outcome⟩ := dbEntryHandleDelete_ok removes
    obtain rfl : table = other :=
      Option.some.inj (inTable.symm.trans otherTable)
    rcases outcome with ⟨stays, rfl, rfl⟩ | ⟨last, rfl, rfl⟩
    · have kept : Registry.Sound hashString limit
          { registry with
            db := (registry.db.countDelete entry).removed table entry }
          (some table) := {
        named := counted.named.of_same ⟨rfl, rfl, rfl, rfl, rfl⟩
        counted := counted.counted.keys _ rfl rfl keyedSize (by
          intro empty
          exact stays (by
            rw [removed_keys, Function.update_self]
            exact empty))
        keyed := Keyed.removed counted.keyed bucket }
      exact kept.release registered inTable
    · have single : kh.size (registry.db.table.cacheHashSet table) = 1 := by
        apply BucketMap.size_eq_one_of_del found
        rw [← hash]
        rw [removed_keys, Function.update_self] at last
        exact last
      obtain ⟨gone, keyed⟩ := counted.removedLast registered bucket
      have deleted := counted.delete registered isName
        (notPassed single (by simp [found])) gone keyed
      have detached : ((registry.db.countDelete entry).removedLast table
          entry).entry.table entry = none := by
        rw [removedLast_entry]
        exact Function.update_self ..
      rw [dbEntryDeref_detached detached]
      exact deleted.dropDetached entry

theorem ChangesOwn.bucketRemoved {db middle : Db kh}
    (own : ChangesOwn table db middle) (ke : Nat) :
    ChangesOwn table db (middle.bucketRemoved table ke) := by
  unfold Db.bucketRemoved
  split
  · exact own
  · next entry _ =>
      have sameTable := freeUnheld_table (middle.remove table entry ke) entry
      obtain ⟨names, refs, others⟩ := own
      refine ⟨names.trans ⟨freeUnheld_tables _ entry, ?_, ?_, ?_, ?_⟩, ?_, ?_⟩
      · rw [sameTable]
        rfl
      · rw [sameTable]
        rfl
      · rw [sameTable]
        rfl
      · rw [sameTable]
        rfl
      · rw [sameTable]
        exact refs
      · intro other different
        rw [sameTable]
        refine ⟨(others different).1, ?_⟩
        rw [← (others different).2]
        exact Function.update_of_ne different ..

theorem Keyed.bucketRemoved {db : Db kh} (keyed : Keyed db) (ke : Nat) :
    Keyed (db.bucketRemoved table ke) := by
  unfold Db.bucketRemoved
  split
  · exact keyed
  · next entry found =>
      exact Keyed.freeUnheld (Keyed.remove keyed found) entry

/-- The loop over the keys of a table. -/
theorem deleteBuckets_keeps {db middle : Db kh} {buckets : List Nat}
    (own : ChangesOwn table db middle) (keyed : Keyed middle)
    (run : buckets.foldlM (deleteBucket table) middle = .ok after) :
    ChangesOwn table db after ∧ Keyed after := by
  let holds : Db kh → Prop := fun reached =>
    ChangesOwn table db reached ∧ Keyed reached
  suffices finally_ : holds after from finally_
  refine foldlM_induction ?_ (show holds middle from ⟨own, keyed⟩) run
  intro ke _ before next ⟨own, keyed⟩ passed
  have inTable : ∀ entry,
      kh.value (before.table.cacheHashSet table) ke = some entry →
        before.entry.table entry = some table ∧
          before.entry.deleted entry = false := by
    intro entry found
    obtain ⟨hash, held, -⟩ := BucketMap.exists_key_of_value found
    obtain ⟨-, inTable, -, fresh⟩ := keyed held
    exact ⟨inTable, fresh⟩
  obtain ⟨-, rfl⟩ := deleteBucket_ok inTable passed
  exact ⟨own.bucketRemoved ke, keyed.bucketRemoved ke⟩

theorem dbTableDeref_keyed {db : Db kh} (keyed : Keyed db)
    (actuallyDelete : Bool) : Keyed (dbTableDeref db table actuallyDelete) := by
  have entry_ : (dbTableDeref db table actuallyDelete).entry = db.entry :=
    dbTableDeref_entry db table actuallyDelete
  apply Keyed.of_eq keyed (dbTableDeref_cacheHashSet db table actuallyDelete)
  all_goals rw [entry_]

/-- Deleting a table unregisters it. -/
theorem Registry.Sound.deleteTable
    (sound : registry.Sound hashString limit (some table))
    (registered : kh.lookup registry.db.tables slot = some table)
    (isName : registry.db.table.key table = name)
    (notPassed : NotPassed hashString registry.db slot)
    (run : dbTableHandleDelete registry.db table = .ok after) :
    Registry.Sound hashString limit
      { db := dbTableDeref after table false
        names := registry.withoutName name } none := by
  unfold dbTableHandleDelete at run
  simp only [bind_eq_ok, keyMap_eq_ok] at run
  obtain ⟨set, -, emptied, loop, run⟩ := run
  have doomed : ChangesOwn table registry.db (registry.db.doom table) := {
    names := ⟨rfl, rfl, rfl, rfl, rfl⟩
    refs := rfl
    others := fun different => ⟨Function.update_of_ne different .., rfl⟩ }
  obtain ⟨own, keyed⟩ := deleteBuckets_keeps doomed
    (Keyed.of_eq sound.keyed rfl rfl rfl rfl rfl) loop
  have sameIndex : kh.find registry.db.tables
      (registry.db.table.hash table) =
      kh.find emptied.tables (emptied.table.hash table) := by
    rw [own.names.tables, own.names.hash]
  rw [sameIndex] at run
  have afterEq := (dbDeleteTableEntry_ok run).2
  have hash := sound.named.slot_eq registered
  have gone := own.destroy hash (sound.held registered)
  have destroyed : Keyed (emptied.destroy table) :=
    Keyed.of_eq keyed rfl rfl rfl rfl rfl
  rw [afterEq]
  exact sound.delete registered isName notPassed
    ((gone.deref hash true).deref hash false)
    (dbTableDeref_keyed (dbTableDeref_keyed destroyed true) false)

end Requests

section Runs

variable {hashString : Bytes → UInt32} {limit : Nat}
  {before after : Registry kh}

/-- A lookup that finds nothing, or takes the table of its name. -/
theorem Registry.Sound.getRead (sound : before.Sound hashString limit none)
    {name : Bytes} (exact_ : ComparesExactly before.db name) {db : Db kh}
    {table : Option Nat}
    (run : dbTableGetRead hashString before.db name = .ok (db, table)) :
    (table = none ∧ db = before.db) ∨
      ∃ held slot, table = some held ∧ before.names name = some held ∧
        before.db.table.key held = name ∧
        kh.lookup before.db.tables slot = some held ∧
        db = dbTableIncref before.db held := by
  unfold dbTableGetRead at run
  rw [bind_eq_ok] at run
  obtain ⟨found, probed, run⟩ := run
  rcases sound.named.probe_ok exact_ probed with
    ⟨held, created, rfl⟩ | ⟨-, free, rfl, -⟩
  · obtain ⟨rfl, rfl⟩ := Prod.mk.inj (pure_eq_ok.mp run)
    obtain ⟨isName, slot, registered⟩ := sound.named.found created
    exact Or.inr ⟨held, slot, rfl, created, isName, registered, rfl⟩
  · obtain ⟨rfl, rfl⟩ := Prod.mk.inj (pure_eq_ok.mp run)
    exact Or.inl ⟨rfl, rfl⟩

/-- Every request keeps the registry sound. -/
theorem Registry.Sound.call (sound : before.Sound hashString hashCount none)
    {call : TableCall} (allowed : before.Allows hashString call)
    (run : before.call hashString call = .ok after) :
    after.Sound hashString hashCount none := by
  cases call with
  | create name =>
      obtain ⟨exact_, short, room⟩ := allowed
      simp only [Registry.call, bind_eq_ok, Prod.exists, pure_eq_ok] at run
      obtain ⟨db, table, written, rfl⟩ := run
      obtain ⟨taken, slot, registered⟩ :=
        sound.getWrite exact_ short (Nat.succ_lt_succ room) written
      exact taken.drop registered
  | put name key =>
      obtain ⟨exact_, short, room⟩ := allowed
      simp only [Registry.call, bind_eq_ok, Prod.exists, pure_eq_ok] at run
      obtain ⟨db, table, written, stored, put, rfl⟩ := run
      obtain ⟨taken, slot, registered⟩ :=
        sound.getWrite exact_ short (Nat.succ_lt_succ room) written
      exact taken.putKey registered put
  | deleteKey name key =>
      obtain ⟨exact_, notPassed⟩ := allowed
      simp only [Registry.call, bind_eq_ok, Prod.exists] at run
      obtain ⟨db, table, read, run⟩ := run
      rcases sound.getRead exact_ read with
        ⟨rfl, rfl⟩ | ⟨held, slot, rfl, created, isName, registered, rfl⟩
      · obtain rfl := pure_eq_ok.mp run
        exact sound
      · simp only [bind_eq_ok, Prod.exists, pure_eq_ok] at run
        obtain ⟨stored, tableDeleted, deletes, rfl⟩ := run
        exact (sound.take registered).deleteKey registered isName
          (notPassed registered isName) deletes
  | delete name =>
      obtain ⟨exact_, notPassed⟩ := allowed
      simp only [Registry.call, bind_eq_ok, Prod.exists] at run
      obtain ⟨db, table, read, run⟩ := run
      rcases sound.getRead exact_ read with
        ⟨rfl, rfl⟩ | ⟨held, slot, rfl, created, isName, registered, rfl⟩
      · obtain rfl := pure_eq_ok.mp run
        exact sound
      · simp only [bind_eq_ok, pure_eq_ok] at run
        obtain ⟨stored, deletes, rfl⟩ := run
        exact (sound.take registered).deleteTable registered isName
          (notPassed registered isName) deletes
  | lookup name =>
      simp only [Registry.call, bind_eq_ok, Prod.exists] at run
      obtain ⟨db, table, read, run⟩ := run
      rcases sound.getRead allowed read with
        ⟨rfl, rfl⟩ | ⟨held, slot, rfl, created, isName, registered, rfl⟩
      · obtain rfl := pure_eq_ok.mp run
        exact sound
      · obtain rfl := pure_eq_ok.mp run
        exact (sound.take registered).drop registered

/-- A store that `db_open` opened without an index. -/
def Registry.opened (kh : KHash) (disk : Disk) : Registry kh where
  db := blankDb (emptyDb disk)
  names := fun _ => none

theorem Registry.opened_sound (disk : Disk) :
    (Registry.opened kh disk).Sound hashString hashCount none := by
  obtain ⟨freeBlocks, blocksExist, blocksFree, blockfile, blank⟩ :=
    blankDb_eq (emptyDb disk : Db kh)
  unfold Registry.opened
  rw [blank]
  have noTable : ∀ {slot table}, kh.lookup kh.empty slot ≠ some table := by
    intro slot table
    rw [BucketMap.lookup_empty]
    simp
  exact {
    named := {
      allocated := fun found => absurd found noTable
      slot_eq := fun found => absurd found noTable
      length_eq := fun found => absurd found noTable
      named := fun found => absurd found noTable
      taken := fun found => absurd found noTable
      found := by simp
      room := by
        change kh.size kh.empty < _
        rw [BucketMap.size_eq_zero_iff.mpr fun _ => BucketMap.lookup_empty]
        decide }
    counted := {
      live := fun found => absurd found noTable
      refs := fun found => absurd found noTable }
    keyed := fun found => absurd found noTable }

theorem Registry.Sound.runs {disk : Disk}
    (runs : Registry.Runs hashString (Registry.opened kh disk) after) :
    after.Sound hashString hashCount none := by
  induction runs with
  | refl => exact Registry.opened_sound disk
  | tail _ step ih =>
      obtain ⟨call, allowed, run⟩ := step
      exact ih.call allowed run

end Runs

/-- In every run whose requests are allowed, a lookup finds exactly the table
that its name was given when it was created and not deleted since, and no two
registered tables have one name. -/
theorem dbTableGetRead_of_runs {hashString : Bytes → UInt32} {disk : Disk}
    {after : Registry kh}
    (runs : Registry.Runs hashString (Registry.opened kh disk) after) :
    (∀ name, ComparesExactly after.db name →
      ∃ db, dbTableGetRead hashString after.db name =
        .ok (db, after.names name)) ∧
      ∀ {firstSlot secondSlot first second},
        kh.lookup after.db.tables firstSlot = some first →
        kh.lookup after.db.tables secondSlot = some second →
        after.db.table.key first = after.db.table.key second →
          first = second := by
  have sound := Registry.Sound.runs runs
  constructor
  · intro name exact_
    rw [sound.named.getRead exact_]
    cases after.names name with
    | none => exact ⟨_, rfl⟩
    | some table => exact ⟨_, rfl⟩
  · intro firstSlot secondSlot first second foundFirst foundSecond sameName
    have firstNamed := sound.named.named foundFirst
    rw [sameName, sound.named.named foundSecond] at firstNamed
    exact (Option.some.inj firstNamed).symm

instance (db : Db kh) (name : Bytes) : Decidable (ComparesExactly db name) :=
  decidable_of_iff _ BucketMap.all_lookup_iff

instance (hashString : Bytes → UInt32) (db : Db kh) (slot : UInt32) :
    Decidable (NotPassed hashString db slot) :=
  @decidable_of_iff _ _ (@BucketMap.all_lookup_iff _ _ _ _ _ _ fun _ _ =>
    inferInstanceAs (Decidable ¬(_ : UInt32) < _)) _

instance (hashString : Bytes → UInt32) (registry : Registry kh) :
    ∀ call, Decidable (registry.Allows hashString call)
  | .create _ | .put .. => inferInstanceAs (Decidable (_ ∧ _ ∧ _))
  | .deleteKey .. | .delete _ =>
      @instDecidableAnd _ _ _ (decidable_of_iff _ BucketMap.all_lookup_iff)
  | .lookup _ => inferInstanceAs (Decidable (ComparesExactly ..))

/-- Requests on tables as steps. -/
def registering (kh : KHash) (hashString : Bytes → UInt32) :
    Machine (Registry kh) TableCall Fault where
  initial registry := ∃ disk, registry = Registry.opened kh disk
  step := Registry.call hashString

/-- The registry after some requests on tables whose names all have one
hash. -/
def collidingRun (calls : List TableCall) :
    Except Fault (Registry listHash) :=
  calls.foldlM (Registry.call fun _ => 0) (Registry.opened listHash emptyDisk)

def nameA : Bytes := [charByte 'a']
def nameB : Bytes := [charByte 'b']

/-- A table probed past another one is deleted with its last key and created
again. -/
theorem dbTableGetRead_of_runs_recreated :
    ∃ after : Registry listHash,
      Registry.Runs (fun _ => 0) (Registry.opened listHash emptyDisk) after ∧
      (listHash.lookup after.db.tables 0 = some 0 ∧
        listHash.lookup after.db.tables 1 = some 2 ∧
        after.names nameA = some 0 ∧ after.names nameB = some 2) ∧
      (∀ name, ComparesExactly after.db name →
        ∃ db, dbTableGetRead (fun _ => 0) after.db name =
          .ok (db, after.names name)) ∧
        ∀ {firstSlot secondSlot first second},
          listHash.lookup after.db.tables firstSlot = some first →
          listHash.lookup after.db.tables secondSlot = some second →
          after.db.table.key first = after.db.table.key second →
            first = second := by
  let allows (registry : Registry listHash) (call : TableCall) : Bool :=
    decide (registry.Allows (fun _ => 0) call)
  have sound : ∀ registry call, allows registry call = true →
      registry.Allows (fun _ => 0) call := fun _ _ => of_decide_eq_true
  have reached : ((registering listHash fun _ => 0).runWithin allows
      (Registry.opened listHash emptyDisk)
      [.create nameA, .create nameB, .put nameB [107], .put nameA [107],
        .deleteKey nameB [107], .create nameB, .lookup nameB]).any
      (fun after => decide (listHash.lookup after.db.tables 0 = some 0 ∧
        listHash.lookup after.db.tables 1 = some 2 ∧
        after.names nameA = some 0 ∧ after.names nameB = some 2)) = true := by
    decide +kernel
  rw [Option.any_eq_true] at reached
  obtain ⟨after, passes, test⟩ := reached
  have leads : (registering listHash fun _ => 0).Leads
      (Registry.Allows fun _ => 0) (Registry.opened listHash emptyDisk) after :=
    .runWithin sound passes
  have runs : Registry.Runs (fun _ => 0) (Registry.opened listHash emptyDisk)
      after := leads
  exact ⟨after, runs, of_decide_eq_true test, dbTableGetRead_of_runs runs⟩

/-- What a lookup finds after these requests, and what it should find. -/
def lookupAfter (calls : List TableCall) (name : Bytes) :
    Except Fault (Option Nat × Option Nat) := do
  let registry ← collidingRun calls
  let (_, table) ← dbTableGetRead (fun _ => 0) registry.db name
  return (table, registry.names name)

/-- Two tables whose names have one hash: deleting the first one hides the
second one. -/
theorem dbTableGetRead_misses :
    ¬∀ (kh : KHash) (hashString : Bytes → UInt32) (disk : Disk)
      (calls : List TableCall) (after : Registry kh),
      calls.foldlM (Registry.call hashString) (Registry.opened kh disk) =
        .ok after →
      ∀ name, ∃ db, dbTableGetRead hashString after.db name =
        .ok (db, after.names name) := by
  intro claim
  have missed : lookupAfter [.create nameA, .create nameB, .delete nameA]
      nameB = .ok (none, some 1) := rfl
  simp only [lookupAfter, bind_eq_ok, Prod.exists, pure_eq_ok,
    Prod.mk.injEq] at missed
  obtain ⟨after, run, found, table, lookup, rfl, created⟩ := missed
  obtain ⟨db, answer⟩ := claim listHash (fun _ => 0) emptyDisk _ after run nameB
  rw [lookup, created] at answer
  simp at answer

end SimpleCache
