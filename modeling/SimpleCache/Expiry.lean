import Mathlib.Data.Nat.ModEq
import Mathlib.Data.Set.Basic
import SimpleCache.Flush
import SimpleCache.Sweep

/-!
# The expiry sweep

`db_expire_cursor` visits the buckets of the table map from where the last call
stopped, and gives up after a budget of entries.  The calls together visit
every bucket, and what a visit removes are the expired entries of one table,
the table included when nothing else is in it.
-/

namespace SimpleCache

variable {kh : KHash} {before middle db after : Db kh} {table entry : Nat}

/-- The table holds something, and all of it goes. -/
def Exhausted (db : Db kh) (gone : Nat → Prop) (table : Nat) : Prop :=
  (∃ entry, Holds db table entry) ∧ ∀ entry, Holds db table entry → gone entry

/-- The entries in `gone` are removed, with the tables that they exhaust, and
nothing else changes. -/
structure Purged (before : Db kh) (gone : Nat → Prop) (after : Db kh) :
    Prop where
  shelved : Shelved after
  settles : Settled before → Settled after
  clock : after.currentTime = before.currentTime
  expires : after.entry.expires = before.entry.expires
  dataLength : after.entry.dataLength = before.entry.dataLength
  endIndex : kh.endIndex after.tables = kh.endIndex before.tables
  tables : ∀ index table, kh.value after.tables index = some table ↔
    kh.value before.tables index = some table ∧ ¬Exhausted before gone table
  sets : ∀ table, Tabled after table → ∀ ke entry,
    kh.value (after.table.cacheHashSet table) ke = some entry ↔
      kh.value (before.table.cacheHashSet table) ke = some entry ∧ ¬gone entry
  refs : ∀ table, Tabled after table →
    after.table.refs table = before.table.refs table
  entryRefs : ∀ entry, ¬gone entry →
    after.entry.refs entry = before.entry.refs entry
  writing : after.entry.writing = before.entry.writing
  thins : Settled before → ∀ {order}, before.lru.Represents order →
    ∃ left, left.Sublist order ∧ after.lru.Represents left

theorem tabled_iff_value (db : Db kh) (table : Nat) :
    Tabled db table ↔ ∃ index, kh.value db.tables index = some table :=
  BucketMap.exists_value_iff.symm

theorem holds_iff_value (db : Db kh) (table entry : Nat) :
    Holds db table entry ↔
      ∃ ke, kh.value (db.table.cacheHashSet table) ke = some entry :=
  BucketMap.exists_value_iff.symm

theorem Purged.expired_eq {gone : Nat → Prop}
    (purged : Purged before gone after) (entry : Nat) :
    expired after entry = expired before entry := by
  unfold expired
  rw [purged.expires, purged.clock]

theorem Purged.tabled {gone : Nat → Prop} (purged : Purged before gone after)
    (table : Nat) :
    Tabled after table ↔
      Tabled before table ∧ ¬Exhausted before gone table := by
  rw [tabled_iff_value, tabled_iff_value]
  simp only [purged.tables, exists_and_right]

theorem Purged.holds {gone : Nat → Prop} (purged : Purged before gone after)
    (tabled : Tabled after table) (entry : Nat) :
    Holds after table entry ↔ Holds before table entry ∧ ¬gone entry := by
  rw [holds_iff_value, holds_iff_value]
  simp only [purged.sets table tabled, exists_and_right]

theorem Purged.registered {gone : Nat → Prop}
    (purged : Purged before gone after) (entry : Nat) :
    Registered after entry ↔ Registered before entry ∧ ¬gone entry := by
  rw [registered_iff_tabled, registered_iff_tabled]
  constructor
  · rintro ⟨table, tabledAfter, heldAfter⟩
    obtain ⟨held, kept⟩ := (purged.holds tabledAfter entry).mp heldAfter
    exact ⟨⟨table, ((purged.tabled table).mp tabledAfter).1, held⟩, kept⟩
  · rintro ⟨⟨table, tabled, held⟩, kept⟩
    have tabledAfter : Tabled after table :=
      (purged.tabled table).mpr
        ⟨tabled, fun exhausted => kept (exhausted.2 entry held)⟩
    exact ⟨table, tabledAfter,
      (purged.holds tabledAfter entry).mpr ⟨held, kept⟩⟩

theorem Purged.congr {gone others : Nat → Prop}
    (purged : Purged before gone after)
    (same : ∀ entry, gone entry ↔ others entry) :
    Purged before others after := by
  have equal : gone = others := funext fun entry => propext (same entry)
  rw [← equal]
  exact purged

theorem Purged.none (shelved : Shelved db) :
    Purged db (fun _ => False) db where
  shelved := shelved
  settles := id
  clock := rfl
  expires := rfl
  dataLength := rfl
  endIndex := rfl
  tables := by
    intro index table
    have kept : ¬Exhausted db (fun _ => False) table :=
      fun exhausted => exhausted.1.elim fun entry held =>
        exhausted.2 entry held
    exact (and_iff_left kept).symm
  sets := by simp
  refs := fun _ _ => rfl
  entryRefs := fun _ _ => rfl
  writing := rfl
  thins := fun _ order represents => ⟨order, .refl order, represents⟩

/-- Two parts of a sweep remove what either removes. -/
theorem Purged.trans {first second : Nat → Prop}
    (left : Purged before first middle) (right : Purged middle second after) :
    Purged before (fun entry => first entry ∨ second entry) after where
  shelved := right.shelved
  settles := right.settles ∘ left.settles
  clock := right.clock.trans left.clock
  expires := right.expires.trans left.expires
  dataLength := right.dataLength.trans left.dataLength
  endIndex := right.endIndex.trans left.endIndex
  tables := by
    intro index table
    rw [right.tables, left.tables, and_assoc]
    refine and_congr_right fun registered => ?_
    by_cases exhausted : Exhausted before first table
    · have both : Exhausted before (fun entry => first entry ∨ second entry)
          table :=
        ⟨exhausted.1, fun entry held => Or.inl (exhausted.2 entry held)⟩
      simp [exhausted, both]
    · have tabled : Tabled middle table :=
        (left.tabled table).mpr
          ⟨(tabled_iff_value before table).mpr ⟨index, registered⟩, exhausted⟩
      unfold Exhausted at *
      simp only [left.holds tabled]
      grind
  sets := by
    intro table tabled ke entry
    rw [right.sets table tabled,
      left.sets table ((right.tabled table).mp tabled).1, not_or, and_assoc]
  refs := by
    intro table tabled
    rw [right.refs table tabled,
      left.refs table ((right.tabled table).mp tabled).1]
  entryRefs := by
    intro entry kept
    rw [not_or] at kept
    rw [right.entryRefs entry kept.2, left.entryRefs entry kept.1]
  writing := right.writing.trans left.writing
  thins := by
    intro settled order represents
    obtain ⟨middleOrder, first, isMiddle⟩ := left.thins settled represents
    obtain ⟨last, second, isLast⟩ := right.thins (left.settles settled) isMiddle
    exact ⟨last, second.trans first, isLast⟩

/-- An entry is in one bucket. -/
theorem Indexed.bucket_unique {first second : Nat} (indexed : Indexed db)
    (tabled : Tabled db table)
    (found : kh.value (db.table.cacheHashSet table) first = some entry)
    (again : kh.value (db.table.cacheHashSet table) second = some entry) :
    first = second := by
  obtain ⟨hash, foundHash, place⟩ := BucketMap.exists_key_of_value found
  obtain ⟨otherHash, foundAgain, otherPlace⟩ :=
    BucketMap.exists_key_of_value again
  have hashEq := (indexed.entries table tabled hash entry foundHash).1
  have otherEq := (indexed.entries table tabled otherHash entry foundAgain).1
  rw [← place, ← otherPlace, ← hashEq, ← otherEq]

/-- The key map of the table after a removal, bucket by bucket. -/
theorem Swept.value_set {emptied : Bool}
    (swept : Swept before table entry emptied after)
    (indexed : Indexed before) (tabled : Tabled before table)
    (held : Holds before table entry) {other : Nat}
    (otherTabled : Tabled before other) (ke member : Nat) :
    kh.value (after.table.cacheHashSet other) ke = some member ↔
      kh.value (before.table.cacheHashSet other) ke = some member ∧
        member ≠ entry := by
  obtain ⟨found, inTable⟩ := indexed.of_holds tabled held
  rw [swept.sets]
  by_cases same : other = table
  · subst same
    rw [Function.update_self, Db.setWithout, BucketMap.value_del]
    constructor
    · intro isMember
      split at isMember
      · cases isMember
      · next elsewhere =>
          refine ⟨isMember, ?_⟩
          rintro rfl
          obtain ⟨hash, foundHere, place⟩ :=
            BucketMap.exists_key_of_value isMember
          obtain ⟨hashEq, -⟩ :=
            indexed.entries other tabled hash member foundHere
          rw [hashEq] at elsewhere
          exact elsewhere place.symm
    · rintro ⟨isMember, different⟩
      rw [if_neg]
      · exact isMember
      · rintro rfl
        exact different (Option.some.inj (isMember.symm.trans found))
  · rw [Function.update_of_ne same]
    refine (and_iff_left_of_imp fun isMember => ?_).symm
    rintro rfl
    obtain ⟨hash, foundHere, -⟩ := BucketMap.exists_key_of_value isMember
    obtain ⟨-, otherEq⟩ :=
      indexed.entries other otherTabled hash member foundHere
    exact same (Option.some.inj (otherEq.symm.trans inTable))

theorem Swept.expired_eq {emptied : Bool}
    (swept : Swept before table entry emptied after) (member : Nat) :
    expired after member = expired before member := by
  unfold expired
  rw [swept.expires, swept.clock]

/-- A removal takes the table with it when nothing else is in it. -/
theorem Swept.exhausted_iff {emptied : Bool}
    (swept : Swept before table entry emptied after)
    (indexed : Indexed before) (tabled : Tabled before table)
    (held : Holds before table entry) {other : Nat}
    (otherTabled : Tabled before other) :
    Exhausted before (fun member => member = entry) other ↔
      emptied = true ∧ other = table := by
  obtain ⟨found, inTable⟩ := indexed.of_holds tabled held
  constructor
  · rintro ⟨⟨member, heldOther⟩, all⟩
    obtain rfl : member = entry := all member heldOther
    obtain ⟨-, otherEq⟩ := indexed.of_holds otherTabled heldOther
    obtain rfl : other = table :=
      Option.some.inj (otherEq.symm.trans inTable)
    refine ⟨?_, rfl⟩
    rw [swept.emptied_eq, decide_eq_true_iff, BucketMap.size_eq_zero_iff]
    intro hash
    rw [Db.setWithout, BucketMap.lookup_del_find]
    by_cases here : hash = before.entry.hash member
    · rw [if_pos here]
    · rw [if_neg here]
      cases foundOther : kh.lookup (before.table.cacheHashSet other) hash with
      | none => rfl
      | some second =>
          obtain rfl : second = member := all second ⟨hash, foundOther⟩
          obtain ⟨hashEq, -⟩ :=
            indexed.entries other tabled hash second foundOther
          exact absurd hashEq.symm here
  · rintro ⟨gone, rfl⟩
    refine ⟨⟨entry, held⟩, ?_⟩
    rintro member ⟨hash, foundOther⟩
    rw [swept.only gone foundOther, found] at foundOther
    exact (Option.some.inj foundOther).symm

/-- One removal. -/
theorem Swept.purged {emptied : Bool}
    (swept : Swept before table entry emptied after)
    (shelved : Shelved before) (tabled : Tabled before table)
    (held : Holds before table entry) :
    Purged before (fun member => member = entry) after where
  shelved := swept.shelved shelved tabled held
  settles := fun settled => swept.settled settled tabled held
  clock := swept.clock
  expires := swept.expires
  dataLength := swept.dataLength
  endIndex := by
    rw [swept.tables]
    split
    · exact BucketMap.endIndex_del
    · rfl
  tables := by
    intro index other
    have bucket : kh.value after.tables index = some other ↔
        kh.value before.tables index = some other ∧
          ¬(emptied = true ∧ other = table) := by
      rw [swept.tables]
      cases emptied with
      | false => simp
      | true =>
          have here := shelved.lookup_hash tabled
          simp only [if_true, true_and, BucketMap.value_del]
          constructor
          · intro registered
            split at registered
            · cases registered
            · next elsewhere =>
                refine ⟨registered, ?_⟩
                rintro rfl
                obtain ⟨slot, found, place⟩ :=
                  BucketMap.exists_key_of_value registered
                rw [shelved.tables slot other found] at elsewhere
                exact elsewhere place.symm
          · rintro ⟨registered, different⟩
            rw [if_neg]
            · exact registered
            · rintro rfl
              exact different (Option.some.inj (registered.symm.trans here))
    rw [bucket]
    refine and_congr_right fun registered => not_congr ?_
    have otherTabled : Tabled before other :=
      (tabled_iff_value before other).mpr ⟨index, registered⟩
    exact (swept.exhausted_iff shelved.toIndexed tabled held otherTabled).symm
  sets := by
    intro other tabledAfter ke member
    have otherTabled := ((swept.tabled shelved.toIndexed tabled other).mp tabledAfter).1
    exact swept.value_set shelved.toIndexed tabled held otherTabled ke member
  refs := by
    intro other tabledAfter
    have kept := ((swept.tabled shelved.toIndexed tabled other).mp tabledAfter).2
    rw [not_and_or, Bool.not_eq_true] at kept
    exact swept.refs other kept
  entryRefs := swept.entryRefs
  writing := swept.writing
  thins := by
    intro settled order represents
    rw [swept.lru]
    cases isWriting : before.entry.writing entry with
    | true => exact ⟨order, .refl order, represents⟩
    | false =>
        have registered : Registered before entry :=
          (registered_iff_tabled before entry).mpr ⟨table, tabled, held⟩
        obtain ⟨other, represented, members⟩ := settled.lru
        obtain rfl := represented.unique represents
        obtain ⟨front, back, rfl⟩ :=
          List.append_of_mem ((members entry).mpr ⟨registered, isWriting⟩)
        exact ⟨front ++ back, (List.sublist_cons_self ..).append_left front,
          represents.unlink⟩

/-- The counter of the table is zero when its key map is destroyed: all its
entries are expired, and the removal of the one in the last bucket overflows. -/
def Spills (db : Db kh) (table : Nat) : Prop :=
  (∀ entry, Holds db table entry → expired db entry = true) ∧
    ∃ ke entry, kh.value (db.table.cacheHashSet table) ke = some entry ∧
      Overflows db table entry ∧
      ∀ other member,
        kh.value (db.table.cacheHashSet table) other = some member → other ≤ ke

/-- The expired entries of the table are in these buckets. -/
def StaleIn (db : Db kh) (table : Nat) (buckets : List Nat) : Prop :=
  ∀ ke entry, kh.value (db.table.cacheHashSet table) ke = some entry →
    expired db entry = true → ke ∈ buckets

theorem StaleIn.tail {ke : Nat} {buckets : List Nat}
    (stale : StaleIn db table (ke :: buckets))
    (fresh : ∀ entry,
      kh.value (db.table.cacheHashSet table) ke = some entry →
        expired db entry = false) :
    StaleIn db table buckets := by
  intro other member found isExpired
  refine (List.mem_cons.mp (stale other member found isExpired)).resolve_left ?_
  rintro rfl
  rw [fresh member found] at isExpired
  cases isExpired

/-- A removal from the first of the buckets leaves what is expired in the
others. -/
theorem Swept.staleIn {emptied : Bool} {ke : Nat} {buckets : List Nat}
    (swept : Swept before table entry emptied after)
    (indexed : Indexed before) (tabled : Tabled before table)
    (held : Holds before table entry)
    (found : kh.value (before.table.cacheHashSet table) ke = some entry)
    (stale : StaleIn before table (ke :: buckets)) :
    StaleIn after table buckets := by
  intro other member foundOther isExpired
  obtain ⟨foundBefore, different⟩ :=
    (swept.value_set indexed tabled held tabled other member).mp foundOther
  rw [swept.expired_eq] at isExpired
  refine (List.mem_cons.mp
    (stale other member foundBefore isExpired)).resolve_left ?_
  rintro rfl
  exact different (Option.some.inj (foundBefore.symm.trans found))

/-- The removal of the only entry of a table does not overflow, if the table
does not spill. -/
theorem not_overflows_of_last {ke : Nat} (shelved : Shelved db)
    (tabled : Tabled db table) (counts : ¬Spills db table)
    (found : kh.value (db.table.cacheHashSet table) ke = some entry)
    (isExpired : expired db entry = true) :
    ¬Overflows db table entry ∨ kh.size (db.setWithout table entry) ≠ 0 := by
  rw [or_iff_not_imp_right, not_not]
  rintro empty overflows
  have held : Holds db table entry :=
    (holds_iff_value db table entry).mpr ⟨ke, found⟩
  have foundHash := (shelved.of_holds tabled held).1
  have only : ∀ other member,
      kh.value (db.table.cacheHashSet table) other = some member →
        member = entry := by
    intro other member foundOther
    obtain ⟨hash, foundMember, -⟩ := BucketMap.exists_key_of_value foundOther
    have missing := BucketMap.size_eq_zero_iff.mp empty hash
    rw [Db.setWithout, BucketMap.lookup_del_find] at missing
    split at missing
    · next here =>
        rw [here, foundHash] at foundMember
        exact (Option.some.inj foundMember).symm
    · rw [foundMember] at missing
      cases missing
  refine counts ⟨fun member heldMember => ?_, ke, entry, found, overflows,
    fun other member foundOther => ?_⟩
  · obtain ⟨other, foundOther⟩ := (holds_iff_value db table member).mp heldMember
    rw [only other member foundOther]
    exact isExpired
  · obtain rfl := only other member foundOther
    exact (shelved.bucket_unique tabled foundOther found).le

/-- A table that has no room after the removal of an entry in front had none
before it. -/
theorem Swept.spills {ke : Nat} {buckets : List Nat}
    (swept : Swept before table entry false after)
    (shelved : Shelved before) (tabled : Tabled before table)
    (found : kh.value (before.table.cacheHashSet table) ke = some entry)
    (isExpired : expired before entry = true)
    (sorted : (ke :: buckets).Pairwise (· < ·))
    (stale : StaleIn after table buckets) (spills : Spills after table) :
    Spills before table := by
  have held : Holds before table entry :=
    (holds_iff_value before table entry).mpr ⟨ke, found⟩
  have purged := swept.purged shelved tabled held
  have tabledAfter : Tabled after table :=
    (swept.tabled shelved.toIndexed tabled table).mpr ⟨tabled, by simp⟩
  obtain ⟨all, last, member, foundLast, overflows, bound⟩ := spills
  have beyond : ke < last := by
    refine List.rel_of_pairwise_cons sorted (stale last member foundLast ?_)
    exact all member ((holds_iff_value after table member).mpr ⟨last, foundLast⟩)
  obtain ⟨foundBefore, different⟩ :=
    (purged.sets table tabledAfter last member).mp foundLast
  refine ⟨?_, last, member, foundBefore, ?_, ?_⟩
  · intro other heldOther
    by_cases same : other = entry
    · rw [same]
      exact isExpired
    · rw [← purged.expired_eq]
      exact all other ((purged.holds tabledAfter other).mpr ⟨heldOther, same⟩)
  · exact overflows.congr (swept.refs table (Or.inl rfl)).symm
      (swept.entryRefs member different).symm
  · intro position other foundOther
    by_cases same : other = entry
    · subst same
      rw [shelved.bucket_unique tabled foundOther found]
      exact beyond.le
    · exact bound position other
        ((purged.sets table tabledAfter position other).mpr ⟨foundOther, same⟩)

/-- How many of these buckets of a table hold an entry. -/
def Db.occupied (db : Db kh) (table : Nat) (buckets : List Nat) : Nat :=
  buckets.countP fun ke =>
    (kh.value (db.table.cacheHashSet table) ke).isSome

/-- The loop removes the expired entries of the table and stops early only
when there is nothing left in it. -/
theorem expireBuckets_purged {buckets : List Nat} (shelved : Shelved db)
    (tabled : Tabled db table) (counts : ¬Spills db table)
    (sorted : buckets.Pairwise (· < ·)) (stale : StaleIn db table buckets)
    (visited : Nat) :
    ∃ after, expireBuckets table buckets db visited =
        .ok (after, visited + db.occupied table buckets) ∧
      Purged db (fun entry => Holds db table entry ∧ expired db entry = true)
        after ∧ after.tableGc = db.tableGc := by
  induction buckets generalizing db visited with
  | nil =>
      refine ⟨db, rfl, (Purged.none shelved).congr fun entry => ?_, rfl⟩
      rw [false_iff]
      rintro ⟨held, isExpired⟩
      obtain ⟨ke, found⟩ := (holds_iff_value db table entry).mp held
      exact List.not_mem_nil (stale ke entry found isExpired)
  | cons ke buckets ih =>
      obtain ⟨present, live, fits⟩ := shelved.present table tabled
      have setEq : keyMap db table = .ok (db.table.cacheHashSet table) :=
        keyMap_eq_ok.mpr ⟨present, rfl⟩
      have tailSorted := (List.pairwise_cons.mp sorted).2
      unfold expireBuckets
      rw [setEq, ok_bind]
      dsimp only
      unfold Db.occupied
      rw [List.countP_cons]
      cases found : kh.value (db.table.cacheHashSet table) ke with
      | none =>
          exact ih shelved tabled counts tailSorted
            (stale.tail fun entry isHere => by simp [found] at isHere) visited
      | some entry =>
          have held : Holds db table entry :=
            (holds_iff_value db table entry).mpr ⟨ke, found⟩
          obtain ⟨foundHash, inTable⟩ := shelved.of_holds tabled held
          have kept := shelved.kept table tabled entry held
          dsimp only
          cases isExpired : expired db entry with
          | false =>
              rw [if_neg (by simp)]
              have fresh : ∀ other,
                  kh.value (db.table.cacheHashSet table) ke = some other →
                    expired db other = false := by
                intro other isHere
                rw [found] at isHere
                rw [← Option.some.inj isHere]
                exact isExpired
              have rest := ih shelved tabled counts tailSorted
                (stale.tail fresh) (visited + 1)
              rw [Nat.add_right_comm, Nat.add_assoc] at rest
              exact rest
          | true =>
              rw [if_pos ⟨kept, rfl⟩]
              obtain ⟨removed, emptied, removal, swept⟩ :=
                removeSwept_swept inTable present live fits
                  (not_overflows_of_last shelved tabled counts found isExpired)
              have purged := swept.purged shelved tabled held
              rw [removal, ok_bind]
              dsimp only
              have early : ((kh.size (db.table.cacheHashSet table) = 1 ∧
                  db.entry.refs entry = 0) ∨ emptied = true) ↔
                    emptied = true := by
                refine ⟨?_, Or.inr⟩
                rintro (⟨single, -⟩ | gone)
                · rw [swept.emptied_eq, decide_eq_true_iff]
                  exact BucketMap.size_del_of_size_eq_one single foundHash
                · exact gone
              rw [if_congr early rfl rfl]
              cases emptied with
              | true =>
                  rw [if_pos rfl]
                  have only : ∀ member, Holds db table member →
                      member = entry :=
                    ((swept.exhausted_iff shelved.toIndexed tabled held
                      tabled).mpr ⟨rfl, rfl⟩).2
                  have rest : (buckets.countP fun ke =>
                      (kh.value (db.table.cacheHashSet table) ke).isSome) =
                        0 := by
                    rw [List.countP_eq_zero]
                    intro other later isSome
                    obtain ⟨member, foundOther⟩ := Option.isSome_iff_exists.mp isSome
                    obtain rfl := only member
                      ((holds_iff_value db table member).mpr
                        ⟨other, foundOther⟩)
                    have same := shelved.bucket_unique tabled found foundOther
                    have before := (List.pairwise_cons.mp sorted).1 other later
                    omega
                  rw [rest]
                  refine ⟨removed, rfl, purged.congr ?_, swept.cursor⟩
                  intro member
                  constructor
                  · rintro rfl
                    exact ⟨held, isExpired⟩
                  · rintro ⟨heldMember, -⟩
                    exact only member heldMember
              | false =>
                  rw [if_neg (by simp)]
                  have tabledAfter : Tabled removed table :=
                    (swept.tabled shelved.toIndexed tabled table).mpr ⟨tabled, by simp⟩
                  have staleAfter : StaleIn removed table buckets :=
                    swept.staleIn shelved.toIndexed tabled held found stale
                  have occupied : removed.occupied table buckets =
                      db.occupied table buckets := by
                    refine List.countP_congr fun other later => ?_
                    have before := (List.pairwise_cons.mp sorted).1 other later
                    simp only [Option.isSome_iff_exists,
                      purged.sets table tabledAfter]
                    refine exists_congr fun member =>
                      and_iff_left_of_imp fun foundOther => ?_
                    rintro rfl
                    have same := shelved.bucket_unique tabled found foundOther
                    omega
                  obtain ⟨after, run, rest, cursor⟩ := ih purged.shelved
                    tabledAfter
                    (fun spills => counts (swept.spills shelved tabled found
                      isExpired sorted staleAfter spills))
                    tailSorted staleAfter (visited + 1)
                  rw [occupied, Nat.add_right_comm, Nat.add_assoc] at run
                  refine ⟨after, run, (purged.trans rest).congr ?_,
                    cursor.trans swept.cursor⟩
                  intro member
                  rw [purged.holds tabledAfter, purged.expired_eq]
                  by_cases same : member = entry
                  · simp [same, held, isExpired]
                  · simp [same]

theorem dbExpireCursorTable_purged (shelved : Shelved db)
    (tabled : Tabled db table) (counts : ¬Spills db table) :
    ∃ after, dbExpireCursorTable db table =
        .ok (after, kh.size (db.table.cacheHashSet table)) ∧
      Purged db (fun entry => Holds db table entry ∧ expired db entry = true)
        after ∧ after.tableGc = db.tableGc := by
  have present := (shelved.present table tabled).1
  unfold dbExpireCursorTable
  rw [keyMap_eq_ok.mpr ⟨present, rfl⟩, ok_bind]
  obtain ⟨after, run, swept⟩ := expireBuckets_purged shelved tabled counts
    List.pairwise_lt_range (fun ke entry found _ =>
      List.mem_range.mpr (BucketMap.lt_endIndex_of_value found)) 0
  have size : kh.size (db.table.cacheHashSet table) =
      db.occupied table (List.range
        (kh.endIndex (db.table.cacheHashSet table))) :=
    BucketMap.size_eq_countP le_rfl
  rw [Nat.zero_add, ← size] at run
  exact ⟨after, run, swept⟩

/-- The entry is expired, and its table is in one of these buckets. -/
def StaleAt (db : Db kh) (positions : Set Nat) (entry : Nat) : Prop :=
  ∃ index ∈ positions, ∃ table, kh.value db.tables index = some table ∧
    Holds db table entry ∧ expired db entry = true

/-- Every table is kept by an entry that has not expired, or counts references
when the last one goes. -/
def Uncrowded (db : Db kh) : Prop :=
  ∀ table, Tabled db table → ¬Spills db table

theorem StaleAt.of_holds {positions : Set Nat} {other : Nat}
    (shelved : Shelved db) (tabled : Tabled db table)
    (stale : StaleAt db positions entry) (held : Holds db table entry)
    (heldOther : Holds db table other) (isExpired : expired db other = true) :
    StaleAt db positions other := by
  obtain ⟨index, swept, found, registered, heldFound, -⟩ := stale
  have tabledFound : Tabled db found :=
    (tabled_iff_value db found).mpr ⟨index, registered⟩
  have inTable := (shelved.of_holds tabled held).2
  have inFound := (shelved.of_holds tabledFound heldFound).2
  obtain rfl : table = found := Option.some.inj (inTable.symm.trans inFound)
  exact ⟨index, swept, table, registered, heldOther, isExpired⟩

/-- A part of a sweep leaves no table without room. -/
theorem Purged.uncrowded {positions : Set Nat} (shelved : Shelved before)
    (purged : Purged before (StaleAt before positions) after)
    (uncrowded : Uncrowded before) : Uncrowded after := by
  rintro table tabledAfter ⟨all, last, member, found, overflows, bound⟩
  have tabled := ((purged.tabled table).mp tabledAfter).1
  obtain ⟨foundBefore, kept⟩ :=
    (purged.sets table tabledAfter last member).mp found
  have held : Holds before table member :=
    (holds_iff_value before table member).mpr ⟨last, foundBefore⟩
  have memberExpired : expired before member = true := by
    rw [← purged.expired_eq]
    exact all member ((holds_iff_value after table member).mpr ⟨last, found⟩)
  -- one entry of the table is left, so its bucket was not swept
  have unswept : ∀ other, Holds before table other →
      ¬StaleAt before positions other :=
    fun other heldOther stale => kept
      (stale.of_holds shelved tabled heldOther held memberExpired)
  refine uncrowded table tabled
    ⟨fun other heldOther => ?_, last, member, foundBefore, ?_,
      fun position other foundOther => ?_⟩
  · rw [← purged.expired_eq]
    exact all other ((purged.holds tabledAfter other).mpr
      ⟨heldOther, unswept other heldOther⟩)
  · exact overflows.congr (purged.refs table tabledAfter).symm
      (purged.entryRefs member kept).symm
  · have heldOther : Holds before table other :=
      (holds_iff_value before table other).mpr ⟨position, foundOther⟩
    exact bound position other ((purged.sets table tabledAfter position
      other).mpr ⟨foundOther, unswept other heldOther⟩)

/-- Sweeps of one part after another are a sweep of both. -/
theorem Purged.sweep {first second : Set Nat}
    (left : Purged before (StaleAt before first) middle)
    (right : Purged middle (StaleAt middle second) after) :
    Purged before (StaleAt before (first ∪ second)) after := by
  refine (left.trans right).congr fun entry => ?_
  constructor
  · rintro (⟨index, swept, rest⟩ | ⟨index, swept, table, registered, held,
      isExpired⟩)
    · exact ⟨index, Or.inl swept, rest⟩
    · have tabled : Tabled middle table :=
        (tabled_iff_value middle table).mpr ⟨index, registered⟩
      rw [left.expired_eq] at isExpired
      exact ⟨index, Or.inr swept, table,
        ((left.tables index table).mp registered).1,
        ((left.holds tabled entry).mp held).1, isExpired⟩
  · rintro ⟨index, swept, table, registered, held, isExpired⟩
    rw [or_iff_not_imp_left]
    intro kept
    have inSecond : index ∈ second :=
      swept.resolve_left fun inFirst =>
        kept ⟨index, inFirst, table, registered, held, isExpired⟩
    have registeredMiddle : kh.value middle.tables index = some table :=
      (left.tables index table).mpr
        ⟨registered, fun exhausted => kept (exhausted.2 entry held)⟩
    refine ⟨index, inSecond, table, registeredMiddle, ?_, ?_⟩
    · exact (left.holds ((tabled_iff_value middle table).mpr
        ⟨index, registeredMiddle⟩) entry).mpr ⟨held, kept⟩
    · rw [left.expired_eq]
      exact isExpired

/-- A sweep does not depend on where the cursor is left. -/
theorem Purged.moveCursor {gone : Nat → Prop}
    (purged : Purged before gone after) (tableGc : Nat) :
    Purged before gone { after with tableGc } :=
  ⟨⟨⟨purged.shelved.tables, purged.shelved.entries⟩, purged.shelved.present,
      purged.shelved.kept⟩,
    fun settled =>
      have settledAfter := purged.settles settled
      ⟨⟨⟨settledAfter.tables, settledAfter.entries⟩, settledAfter.present,
        settledAfter.kept⟩, settledAfter.allocated, settledAfter.lru,
        settledAfter.sizes⟩,
    purged.clock, purged.expires, purged.dataLength, purged.endIndex,
    purged.tables, purged.sets, purged.refs, purged.entryRefs,
    purged.writing,
    fun settled _ represents => purged.thins settled represents⟩

/-- How many keys the table in a bucket has. -/
def keysAt (db : Db kh) (index : Nat) : Nat :=
  match kh.value db.tables index with
  | none => 0
  | some table => kh.size (db.table.cacheHashSet table)

/-- A table is in one bucket. -/
theorem Indexed.place_unique {first second : Nat} (indexed : Indexed db)
    (found : kh.value db.tables first = some table)
    (again : kh.value db.tables second = some table) : first = second := by
  obtain ⟨slot, foundSlot, place⟩ := BucketMap.exists_key_of_value found
  obtain ⟨otherSlot, foundAgain, otherPlace⟩ :=
    BucketMap.exists_key_of_value again
  rw [← place, ← otherPlace, ← indexed.tables slot table foundSlot,
    ← indexed.tables otherSlot table foundAgain]

/-- A part of a sweep leaves the tables in the other buckets as they are. -/
theorem Purged.keysAt {positions : Set Nat} {index : Nat}
    (shelved : Shelved before)
    (purged : Purged before (StaleAt before positions) after)
    (outside : index ∉ positions) : keysAt after index = keysAt before index := by
  have kept : ∀ table, kh.value before.tables index = some table →
      ∀ entry, Holds before table entry → ¬StaleAt before positions entry := by
    rintro table registered entry held ⟨other, inside, found, foundHere, heldToo, -⟩
    have inTable := (shelved.of_holds
      ((tabled_iff_value before table).mpr ⟨index, registered⟩) held).2
    have inFound := (shelved.of_holds
      ((tabled_iff_value before found).mpr ⟨other, foundHere⟩) heldToo).2
    obtain rfl : table = found := Option.some.inj (inTable.symm.trans inFound)
    obtain rfl := shelved.place_unique registered foundHere
    exact outside inside
  have sameTable : kh.value after.tables index =
      kh.value before.tables index := by
    refine Option.ext fun table => ?_
    rw [purged.tables]
    refine and_iff_left_of_imp fun registered exhausted => ?_
    obtain ⟨⟨entry, held⟩, all⟩ := exhausted
    exact kept table registered entry held (all entry held)
  unfold SimpleCache.keysAt
  rw [sameTable]
  cases registered : kh.value before.tables index with
  | none => rfl
  | some table =>
      dsimp only
      have tabled : Tabled after table :=
        (tabled_iff_value after table).mpr ⟨index, sameTable.trans registered⟩
      refine BucketMap.size_congr fun ke entry => ?_
      rw [purged.sets table tabled]
      exact and_iff_left_of_imp fun found => kept table registered entry
        ((holds_iff_value before table entry).mpr ⟨ke, found⟩)

theorem expireAtCursor_purged (shelved : Shelved db)
    (uncrowded : Uncrowded db) :
    ∃ after, expireAtCursor db = .ok (after, keysAt db db.tableGc) ∧
      Purged db (StaleAt db {db.tableGc}) after ∧
        after.tableGc = db.tableGc := by
  unfold expireAtCursor keysAt
  cases found : kh.value db.tables db.tableGc with
  | none =>
      refine ⟨db, rfl, (Purged.none shelved).congr fun entry => ?_, rfl⟩
      rw [false_iff]
      rintro ⟨index, rfl, table, registered, -⟩
      rw [found] at registered
      cases registered
  | some table =>
      have tabled : Tabled db table :=
        (tabled_iff_value db table).mpr ⟨db.tableGc, found⟩
      obtain ⟨after, run, purged, cursor⟩ :=
        dbExpireCursorTable_purged shelved tabled (uncrowded table tabled)
      refine ⟨after, run, purged.congr fun entry => ?_, cursor⟩
      constructor
      · rintro ⟨held, isExpired⟩
        exact ⟨db.tableGc, rfl, table, found, held, isExpired⟩
      · rintro ⟨index, rfl, other, registered, held, isExpired⟩
        obtain rfl : table = other :=
          Option.some.inj (found.symm.trans registered)
        exact ⟨held, isExpired⟩

/-- The buckets that a cursor visits in some passes from where it is. -/
def visitedFrom (buckets cursor passes : Nat) : Set Nat :=
  { index | ∃ pass < passes, index = (cursor + pass) % buckets }

theorem visitedFrom_add (buckets cursor first second : Nat) :
    visitedFrom buckets cursor first ∪
        visitedFrom buckets ((cursor + first) % buckets) second =
      visitedFrom buckets cursor (first + second) := by
  ext index
  constructor
  · rintro (⟨pass, bound, rfl⟩ | ⟨pass, bound, rfl⟩)
    · exact ⟨pass, by omega, rfl⟩
    · refine ⟨first + pass, by omega, ?_⟩
      rw [Nat.mod_add_mod, Nat.add_assoc]
  · rintro ⟨pass, bound, rfl⟩
    by_cases early : pass < first
    · exact Or.inl ⟨pass, early, rfl⟩
    · refine Or.inr ⟨pass - first, by omega, ?_⟩
      rw [Nat.mod_add_mod]
      congr 1
      omega

theorem visitedFrom_one {buckets cursor : Nat} (inRange : cursor < buckets) :
    visitedFrom buckets cursor 1 = {cursor} := by
  ext index
  constructor
  · rintro ⟨pass, bound, rfl⟩
    have : pass = 0 := by omega
    rw [this, Nat.add_zero, Nat.mod_eq_of_lt inRange]
    rfl
  · rintro rfl
    exact ⟨0, by omega, (Nat.mod_eq_of_lt inRange).symm⟩

/-- As many passes as there are buckets visit all of them. -/
theorem mem_visitedFrom {buckets cursor passes index : Nat}
    (inRange : index < buckets) (enough : buckets ≤ passes) :
    index ∈ visitedFrom buckets cursor passes := by
  have bound := Nat.mod_lt cursor (Nat.lt_of_le_of_lt (Nat.zero_le _) inRange)
  have visits : ∀ pass, (cursor + pass) % buckets =
      (cursor % buckets + pass) % buckets :=
    fun pass => (Nat.mod_add_mod ..).symm
  by_cases ahead : cursor % buckets ≤ index
  · refine ⟨index - cursor % buckets, by omega, ?_⟩
    rw [visits, Nat.add_sub_cancel' ahead, Nat.mod_eq_of_lt inRange]
  · refine ⟨index + buckets - cursor % buckets, by omega, ?_⟩
    rw [visits, Nat.add_sub_cancel' (by omega), Nat.add_mod_right,
      Nat.mod_eq_of_lt inRange]

/-- Passes beyond a cycle visit nothing new. -/
theorem mem_visitedFrom_min {buckets cursor passes index : Nat}
    (some_ : 0 < buckets) :
    index ∈ visitedFrom buckets cursor passes ↔
      index ∈ visitedFrom buckets cursor (min passes buckets) := by
  constructor
  · rintro ⟨pass, bound, rfl⟩
    by_cases few : passes ≤ buckets
    · exact ⟨pass, by omega, rfl⟩
    · exact mem_visitedFrom (Nat.mod_lt _ some_) (by omega)
  · rintro ⟨pass, bound, rfl⟩
    exact ⟨pass, by omega, rfl⟩

theorem nextCursor_eq (inRange : db.tableGc < kh.endIndex db.tables) :
    nextCursor db = (db.tableGc + 1) % kh.endIndex db.tables := by
  unfold nextCursor
  split
  · have last : db.tableGc + 1 = kh.endIndex db.tables := by omega
    rw [last, Nat.mod_self]
  · rw [Nat.mod_eq_of_lt (by omega)]

/-- The buckets that a cursor visits, in their order. -/
def cursorPath (buckets cursor passes : Nat) : List Nat :=
  (List.range passes).map fun pass => (cursor + pass) % buckets

theorem mem_cursorPath {buckets cursor passes index : Nat} :
    index ∈ cursorPath buckets cursor passes ↔
      index ∈ visitedFrom buckets cursor passes := by
  unfold cursorPath visitedFrom
  rw [List.mem_map]
  exact exists_congr fun pass =>
    and_congr List.mem_range eq_comm

theorem cursorPath_succ {buckets cursor : Nat} (inRange : cursor < buckets)
    (passes : Nat) :
    cursorPath buckets cursor (passes + 1) =
      cursor :: cursorPath buckets ((cursor + 1) % buckets) passes := by
  unfold cursorPath
  rw [List.range_succ_eq_map, List.map_cons, List.map_map, Nat.add_zero,
    Nat.mod_eq_of_lt inRange]
  congr 1
  refine List.map_congr_left fun pass _ => ?_
  rw [Nat.mod_add_mod, Function.comp_apply, Nat.succ_eq_add_one]
  congr 1
  omega

theorem cursorPath_add (buckets cursor first second : Nat) :
    cursorPath buckets cursor (first + second) =
      cursorPath buckets cursor first ++
        cursorPath buckets ((cursor + first) % buckets) second := by
  unfold cursorPath
  rw [List.range_add, List.map_append, List.map_map]
  congr 1
  refine List.map_congr_left fun pass _ => ?_
  rw [Nat.mod_add_mod, Function.comp_apply, Nat.add_assoc]

/-- Within one cycle no bucket is visited twice. -/
theorem not_visited_later {buckets cursor passes index : Nat} {first : Nat}
    (cycle : first + passes ≤ buckets)
    (later : index ∈ cursorPath buckets ((cursor + first) % buckets) passes) :
    index ∉ visitedFrom buckets cursor first := by
  obtain ⟨after, bound, rfl⟩ := mem_cursorPath.mp later
  rintro ⟨pass, early, same⟩
  rw [Nat.mod_add_mod, Nat.add_assoc] at same
  have equal := Nat.ModEq.add_left_cancel' cursor same
  have := Nat.ModEq.eq_of_lt_of_lt equal (by omega) (by omega)
  omega

/-- How many of these buckets one call of `db_expire_cursor` visits: it stops
behind the bucket in which it has seen enough keys. -/
def roundLength (keys : Nat → Nat) : (seen : Nat) → List Nat → Nat
  | _, [] => 0
  | seen, index :: path =>
      if seen + keys index < 4096 then
        roundLength keys (seen + keys index) path + 1
      else 1

theorem roundLength_congr {keys others : Nat → Nat} {path : List Nat}
    (same : ∀ index ∈ path, keys index = others index) (seen : Nat) :
    roundLength keys seen path = roundLength others seen path := by
  induction path generalizing seen with
  | nil => rfl
  | cons index path ih =>
      unfold roundLength
      rw [same index List.mem_cons_self,
        ih fun other later => same other (List.mem_cons_of_mem _ later)]

/-- What comes behind a part of the path decides nothing in it. -/
theorem roundLength_append (keys : Nat → Nat) (seen : Nat)
    (path rest : List Nat) :
    roundLength keys seen path =
      min (roundLength keys seen (path ++ rest)) path.length := by
  induction path generalizing seen with
  | nil => simp [roundLength]
  | cons index path ih =>
      unfold roundLength
      rw [List.cons_append, List.length_cons]
      dsimp only
      split
      · rw [ih]
        omega
      · omega

/-- The loop over the tables ends, at the latest when the cursor is back. -/
theorem expireTables_purged {start passes : Nat} (shelved : Shelved db)
    (uncrowded : Uncrowded db)
    (inRange : db.tableGc < kh.endIndex db.tables) (some_ : 0 < passes)
    (cycle : passes ≤ kh.endIndex db.tables)
    (back : (db.tableGc + passes) % kh.endIndex db.tables = start)
    (visited : Nat) :
    ∃ after count, expireTables start passes db visited =
        .ok (after, decide (count = passes)) ∧ 0 < count ∧ count ≤ passes ∧
      count = roundLength (keysAt db) visited
        (cursorPath (kh.endIndex db.tables) db.tableGc passes) ∧
      Purged db (StaleAt db
        (visitedFrom (kh.endIndex db.tables) db.tableGc count)) after ∧
      after.tableGc = (db.tableGc + count) % kh.endIndex db.tables := by
  induction passes generalizing db visited with
  | zero => omega
  | succ passes ih =>
      obtain ⟨swept, run, purged, cursor⟩ :=
        expireAtCursor_purged shelved uncrowded
      have next : nextCursor swept =
          (db.tableGc + 1) % kh.endIndex db.tables := by
        rw [nextCursor_eq, cursor, purged.endIndex]
        rw [cursor, purged.endIndex]
        exact inRange
      have atStart : nextCursor swept = start ↔ passes = 0 := by
        rw [next, ← back]
        constructor
        · intro same
          have equal := Nat.ModEq.add_left_cancel' db.tableGc same
          by_contra more
          have : kh.endIndex db.tables ∣ passes := by
            have := (Nat.modEq_iff_dvd' (by omega)).mp equal
            rwa [Nat.add_sub_cancel] at this
          have := Nat.le_of_dvd (by omega) this
          omega
        · rintro rfl
          rfl
      have moved := purged.moveCursor (nextCursor swept)
      rw [← visitedFrom_one inRange] at moved
      have path := cursorPath_succ inRange passes
      unfold expireTables
      rw [run, ok_bind, path]
      dsimp only
      by_cases goOn : nextCursor swept ≠ start ∧
          visited + keysAt db db.tableGc < 4096
      · rw [if_pos goOn]
        have further : 0 < passes :=
          Nat.pos_of_ne_zero fun none_ => goOn.1 (atStart.mpr none_)
        obtain ⟨after, count, rest, visits, atMost, length, purgedRest,
            cursorRest⟩ :=
          ih moved.shelved
            (moved.uncrowded shelved uncrowded)
            (by
              change nextCursor swept < kh.endIndex swept.tables
              rw [next, purged.endIndex]
              exact Nat.mod_lt _ (by omega))
            further
            (by
              change passes ≤ kh.endIndex swept.tables
              rw [purged.endIndex]
              omega)
            (by
              change (nextCursor swept + passes) % kh.endIndex swept.tables = _
              rw [next, purged.endIndex, Nat.mod_add_mod, Nat.add_assoc,
                Nat.add_comm 1]
              exact back)
            (visited + keysAt db db.tableGc)
        have together := moved.sweep purgedRest
        have places := visitedFrom_add (kh.endIndex db.tables) db.tableGc 1 count
        dsimp only at together cursorRest length
        rw [next, purged.endIndex] at cursorRest length
        rw [next, purged.endIndex, places] at together
        have same : ∀ index ∈ cursorPath (kh.endIndex db.tables)
            ((db.tableGc + 1) % kh.endIndex db.tables) passes,
            keysAt { swept with tableGc := nextCursor swept } index =
              keysAt db index := fun index later =>
          moved.keysAt shelved (not_visited_later (by omega) later)
        rw [next] at same
        rw [roundLength_congr same] at length
        refine ⟨after, count + 1, ?_, by omega, by omega, ?_, ?_, ?_⟩
        · rw [rest]
          simp
        · unfold roundLength
          rw [if_pos goOn.2, length]
        · rw [Nat.add_comm count]
          exact together
        · rw [cursorRest, Nat.mod_add_mod, Nat.add_assoc, Nat.add_comm 1]
      · rw [if_neg goOn]
        refine ⟨_, 1, ?_, Nat.one_pos, by omega, ?_, moved, next⟩
        · have last : nextCursor swept = start ↔ 1 = passes + 1 := by
            rw [atStart]
            omega
          simp only [last]
          rfl
        · unfold roundLength
          split
          · next few =>
              have ended : passes = 0 := by
                by_contra more
                exact goOn ⟨fun isStart => more (atStart.mp isStart), few⟩
              rw [ended]
              rfl
          · rfl

theorem startCursor_lt (some_ : 0 < kh.endIndex db.tables) :
    startCursor db < kh.endIndex db.tables := by
  unfold startCursor
  split <;> omega

/-- Every call ends, and sweeps at least one bucket if there are any. -/
theorem dbExpireCursor_purged (shelved : Shelved db)
    (uncrowded : Uncrowded db) :
    ∃ after count, dbExpireCursor db =
        .ok (after, decide (count = kh.endIndex db.tables)) ∧
      count = roundLength (keysAt db) 0 (cursorPath (kh.endIndex db.tables)
        (startCursor db) (kh.endIndex db.tables)) ∧
      Purged db (StaleAt db
        (visitedFrom (kh.endIndex db.tables) (startCursor db) count)) after ∧
      (0 < kh.endIndex db.tables → 0 < count ∧
        after.tableGc = (startCursor db + count) % kh.endIndex db.tables) := by
  have begun := (Purged.none shelved).moveCursor (startCursor db)
  unfold dbExpireCursor
  dsimp only
  by_cases any : startCursor db = kh.endIndex db.tables
  · rw [if_pos any]
    have nothing : kh.endIndex db.tables = 0 := by
      by_contra some_
      have := startCursor_lt (Nat.pos_of_ne_zero some_)
      omega
    rw [nothing]
    refine ⟨_, 0, rfl, rfl, begun.congr fun entry => ?_, fun some_ => ?_⟩
    · rw [false_iff]
      rintro ⟨index, ⟨pass, bound, -⟩, -⟩
      omega
    · omega
  · rw [if_neg any]
    have some_ : 0 < kh.endIndex db.tables := by
      by_contra none_
      apply any
      unfold startCursor
      rw [if_pos (by omega)]
      omega
    obtain ⟨after, count, run, visits, -, length, purged, cursor⟩ :=
      expireTables_purged begun.shelved uncrowded (startCursor_lt some_) some_
        le_rfl (by
          change (startCursor db + _) % kh.endIndex db.tables = _
          rw [Nat.add_mod_right, Nat.mod_eq_of_lt (startCursor_lt some_)])
        0
    refine ⟨after, count, run, length, ?_, fun _ => ⟨visits, cursor⟩⟩
    exact ⟨purged.shelved, fun settled => purged.settles
        ⟨begun.shelved, settled.allocated, settled.lru, settled.sizes⟩,
      purged.clock, purged.expires, purged.dataLength, purged.endIndex,
      purged.tables, purged.sets, purged.refs, purged.entryRefs,
      purged.writing, fun settled _ represents => purged.thins
        ⟨begun.shelved, settled.allocated, settled.lru, settled.sizes⟩
          represents⟩

/-- So many calls of `db_expire_cursor`, one after the other. -/
def expireCalls : (calls : Nat) → Db kh → Except Fault (Db kh)
  | 0, db => return db
  | calls + 1, db => do
      let (db, _) ← dbExpireCursor db
      expireCalls calls db

theorem expireCalls_purged (calls : Nat) (shelved : Shelved db)
    (uncrowded : Uncrowded db) :
    ∃ after count, expireCalls calls db = .ok after ∧
      Purged db (StaleAt db
        (visitedFrom (kh.endIndex db.tables) (startCursor db) count)) after ∧
      (0 < kh.endIndex db.tables → calls ≤ count) := by
  induction calls generalizing db with
  | zero =>
      refine ⟨db, 0, rfl, (Purged.none shelved).congr fun entry => ?_,
        fun _ => Nat.le_refl 0⟩
      rw [false_iff]
      rintro ⟨index, ⟨pass, bound, -⟩, -⟩
      omega
  | succ calls ih =>
      obtain ⟨middle, first, run, -, purged, moves⟩ :=
        dbExpireCursor_purged shelved uncrowded
      obtain ⟨after, second, rest, purgedRest, calledRest⟩ :=
        ih purged.shelved (purged.uncrowded shelved uncrowded)
      have runs : expireCalls (calls + 1) db = .ok after := by
        unfold expireCalls
        rw [run, ok_bind]
        exact rest
      have together := purged.sweep purgedRest
      rw [purged.endIndex] at together calledRest
      by_cases some_ : 0 < kh.endIndex db.tables
      · obtain ⟨visits, cursor⟩ := moves some_
        have resumes : startCursor middle =
            (startCursor db + first) % kh.endIndex db.tables := by
          have inRange : middle.tableGc < kh.endIndex middle.tables := by
            rw [cursor, purged.endIndex]
            exact Nat.mod_lt _ some_
          exact (if_neg (Nat.not_le.mpr inRange)).trans cursor
        rw [resumes, visitedFrom_add] at together
        refine ⟨after, first + second, runs, together, fun _ => ?_⟩
        have := calledRest some_
        omega
      · refine ⟨after, 0, runs, together.congr fun entry => ?_,
          fun has => absurd has some_⟩
        have nowhere : ∀ positions, ¬StaleAt db positions entry := by
          rintro positions ⟨index, -, table, registered, -⟩
          have := BucketMap.lt_endIndex_of_value registered
          omega
        exact iff_of_false (nowhere _) (nowhere _)

/-- The calls end, the registered entries after them are the ones that had not
expired, and a table is gone exactly when it held something and all of it was
expired. -/
def SweptClean (db : Db kh) (calls : Nat) : Prop :=
  ∃ after, expireCalls calls db = .ok after ∧
    (∀ entry, Registered after entry ↔
      Registered db entry ∧ expired db entry = false) ∧
    ∀ table, Tabled db table → (¬Tabled after table ↔
      (∃ entry, Holds db table entry) ∧
        ∀ entry, Holds db table entry → expired db entry = true)

/-- A pass over all buckets leaves nothing expired. -/
theorem expireCalls_sweptClean {calls : Nat} (shelved : Shelved db)
    (uncrowded : Uncrowded db) (enough : kh.endIndex db.tables ≤ calls) :
    SweptClean db calls := by
  obtain ⟨after, count, run, swept, called⟩ :=
    expireCalls_purged calls shelved uncrowded
  have stale : ∀ table, Tabled db table → ∀ entry, Holds db table entry →
      (StaleAt db (visitedFrom (kh.endIndex db.tables) (startCursor db) count)
        entry ↔ expired db entry = true) := by
    intro table tabled entry held
    constructor
    · rintro ⟨-, -, -, -, -, isExpired⟩
      exact isExpired
    · intro isExpired
      obtain ⟨index, registered⟩ := (tabled_iff_value db table).mp tabled
      have inRange := BucketMap.lt_endIndex_of_value registered
      have visits := called (Nat.lt_of_le_of_lt (Nat.zero_le _) inRange)
      exact ⟨index, mem_visitedFrom inRange (enough.trans visits), table,
        registered, held, isExpired⟩
  have exhausted : ∀ table, Tabled db table →
      (Exhausted db (StaleAt db
          (visitedFrom (kh.endIndex db.tables) (startCursor db) count)) table ↔
        (∃ entry, Holds db table entry) ∧
          ∀ entry, Holds db table entry → expired db entry = true) := by
    intro table tabled
    refine and_congr_right fun _ => forall₂_congr fun entry held => ?_
    exact stale table tabled entry held
  refine ⟨after, run, fun entry => ?_, fun table tabled => ?_⟩
  · rw [swept.registered]
    refine and_congr_right fun registered => ?_
    obtain ⟨table, tabled, held⟩ := (registered_iff_tabled db entry).mp registered
    rw [stale table tabled entry held, Bool.not_eq_true]
  · rw [swept.tabled, not_and_not_right, ← exhausted table tabled]
    exact ⟨fun goes => goes tabled, fun goes _ => goes⟩

/-- What the removal of the last entry of a table changes when it overflows:
the table stays registered without its key map. -/
structure Jammed (db : Db kh) (table entry : Nat) (after : Db kh) : Prop where
  clock : after.currentTime = db.currentTime
  hash : after.entry.hash = db.entry.hash
  expires : after.entry.expires = db.entry.expires
  deleted : after.entry.deleted = Function.update db.entry.deleted entry true
  entryTable : after.entry.table = Function.update db.entry.table entry none
  tableHash : after.table.hash = db.table.hash
  sets : after.table.cacheHashSet =
    Function.update db.table.cacheHashSet table (db.setWithout table entry)
  destroyed : after.table.destroyed =
    Function.update db.table.destroyed table true
  tables : after.tables = db.tables
  refs : ∀ other, other ≠ table →
    after.table.refs other = db.table.refs other
  undoomed : ∀ other, other ≠ table →
    after.table.deleted other = db.table.deleted other
  entryRefs : ∀ other, other ≠ entry →
    after.entry.refs other = db.entry.refs other

/-- The last entry goes while the counter of its table is zero. -/
theorem removedLast_jammed (wrapped : db.table.refs table = 0) :
    Jammed db table entry (db.removedLast table entry) := by
  have derefEq : dbTableDeref (((db.removed table entry).doom table).destroy
      table) table true =
        (((db.removed table entry).doom table).destroy table).decTable
          table := by
    rw [dbTableDeref_eq, if_neg]
    rintro ⟨none_, -⟩
    rw [decTable_refs] at none_
    change u15 (db.table.refs table + 32767) = 0 at none_
    rw [wrapped] at none_
    cases none_
  have lastEq : db.removedLast table entry = _ :=
    congrArg (Db.detach · entry) derefEq
  rw [lastEq]
  refine ⟨rfl, rfl, rfl, rfl, rfl, rfl, rfl, rfl, if_pos wrapped, ?_, ?_,
    fun _ _ => rfl⟩
  · intro other different
    exact Function.update_of_ne different ..
  · intro other different
    exact Function.update_of_ne different ..

/-- The counter goes to zero and back, and the last reference is missed. -/
theorem removeSwept_jammed (inTable : db.entry.table entry = some table)
    (overflows : Overflows db table entry)
    (empty : kh.size (db.setWithout table entry) = 0) {removed : Db kh}
    {emptied : Bool} (run : removeSwept db entry = .ok (removed, emptied)) :
    emptied = true ∧ Jammed db table entry removed := by
  rcases overflows with ⟨full, unheld⟩ | ⟨wrapped, isHeld⟩
  rotate_left
  · unfold removeSwept at run
    rw [if_neg isHeld] at run
    obtain ⟨other, otherEq, -, ⟨keyed, -, -⟩ | ⟨-, rfl, rfl⟩⟩ :=
      dbEntryHandleDelete_ok run
    · obtain rfl : table = other := Option.some.inj (inTable.symm.trans otherEq)
      rw [removed_set] at keyed
      exact absurd empty keyed
    · obtain rfl : table = other := Option.some.inj (inTable.symm.trans otherEq)
      exact ⟨rfl, removedLast_jammed wrapped⟩
  unfold removeSwept at run
  simp only [if_pos unheld, bind_eq_ok, pure_eq_ok, Prod.exists,
    Prod.mk.injEq] at run
  obtain ⟨held, heldEq, after, gone, removal, rfl, rfl⟩ := run
  obtain ⟨other, otherEq, rfl⟩ := dbEntryIncref_ok heldEq
  obtain rfl : table = other := Option.some.inj (inTable.symm.trans otherEq)
  obtain ⟨other, otherEq, -, ⟨keyed, -, -⟩ | ⟨-, rfl, rfl⟩⟩ :=
    dbEntryHandleDelete_ok removal
  · obtain rfl : table = other := Option.some.inj (inTable.symm.trans otherEq)
    rw [removed_set] at keyed
    exact absurd empty keyed
  · obtain rfl : table = other := Option.some.inj (inTable.symm.trans otherEq)
    have wrapped : (dbTableIncref (db.incEntry entry) table).table.refs table =
        0 := by
      simp only [dbTableIncref, Db.incEntry, Function.update_self, full]
      rfl
    have jammed : Jammed _ table entry _ := removedLast_jammed wrapped
    generalize (dbTableIncref (db.incEntry entry) table).removedLast table
      entry = left at jammed ⊢
    have detached : left.entry.table entry = none := by
      rw [jammed.entryTable]
      exact Function.update_self ..
    rw [dbEntryDeref_detached detached]
    obtain ⟨freeBlocks, blocksExist, blocksFree, blockfile, block, freed,
      freeEq⟩ := freeUnheld_eq (left.decEntry entry) entry
    rw [freeEq]
    refine ⟨rfl, jammed.clock, jammed.hash, jammed.expires, jammed.deleted,
      jammed.entryTable, jammed.tableHash, jammed.sets, jammed.destroyed,
      jammed.tables, ?_, jammed.undoomed, ?_⟩
    · intro other different
      exact (jammed.refs other different).trans
        (Function.update_of_ne different ..)
    · intro other different
      refine (Function.update_of_ne different ..).trans ?_
      rw [jammed.entryRefs other different]
      exact Function.update_of_ne different ..

/-- What follows of a table that spills: it stays registered, with its key map
or without. -/
structure Crowds (db : Db kh) (crowded : Nat) : Prop extends Indexed db where
  tabled : Tabled db crowded
  counted : ∀ table, Tabled db table → db.table.destroyed table = false →
    db.table.deleted table = false ∧ db.table.refs table < 32768
  kept : ∀ table, Tabled db table → ∀ entry, Holds db table entry →
    db.entry.deleted entry = false
  spills : db.table.destroyed crowded = true ∨ Spills db crowded

section Crowds

variable {crowded : Nat}

/-- A table without room stays so while its last entry stays. -/
theorem Spills.keep (spills : Spills before crowded)
    (refs : after.table.refs crowded = before.table.refs crowded)
    (sets : ∀ ke member,
      kh.value (after.table.cacheHashSet crowded) ke = some member ↔
        kh.value (before.table.cacheHashSet crowded) ke = some member ∧
          member ≠ entry)
    (expiredEq : ∀ member, expired after member = expired before member)
    (entryRefs : ∀ member, member ≠ entry →
      after.entry.refs member = before.entry.refs member)
    (notLast : ∀ ke,
      kh.value (before.table.cacheHashSet crowded) ke = some entry →
        ∃ later member, ke < later ∧
          kh.value (before.table.cacheHashSet crowded) later = some member) :
    Spills after crowded := by
  obtain ⟨all, last, member, found, overflows, bound⟩ := spills
  have different : member ≠ entry := by
    rintro rfl
    obtain ⟨later, other, beyond, foundOther⟩ := notLast last found
    have := bound later other foundOther
    omega
  refine ⟨fun other held => ?_, last, member,
    (sets last member).mpr ⟨found, different⟩,
    overflows.congr refs (entryRefs member different),
    fun position other foundAfter => ?_⟩
  · obtain ⟨ke, foundAfter⟩ := (holds_iff_value after crowded other).mp held
    rw [expiredEq]
    exact all other ((holds_iff_value before crowded other).mpr
      ⟨ke, ((sets ke other).mp foundAfter).1⟩)
  · exact bound position other ((sets position other).mp foundAfter).1

/-- A removal that goes well, with a table without room in the store. -/
theorem Swept.crowds {emptied : Bool}
    (swept : Swept before table entry emptied after)
    (crowds : Crowds before crowded) (tabled : Tabled before table)
    (held : Holds before table entry)
    (present : before.table.destroyed table = false)
    (stays : table = crowded → emptied = false ∧ ∀ ke,
      kh.value (before.table.cacheHashSet crowded) ke = some entry →
        ∃ later member, ke < later ∧
          kh.value (before.table.cacheHashSet crowded) later = some member) :
    Crowds after crowded := by
  have kept : ¬(emptied = true ∧ crowded = table) := by
    rintro ⟨gone, rfl⟩
    rw [(stays rfl).1] at gone
    cases gone
  have away : emptied = false ∨ crowded ≠ table := by
    rwa [not_and_or, Bool.not_eq_true] at kept
  refine ⟨swept.indexed crowds.toIndexed tabled held,
    (swept.tabled crowds.toIndexed tabled crowded).mpr ⟨crowds.tabled, kept⟩,
    ?_, ?_, ?_⟩
  · intro other tabledAfter presentAfter
    obtain ⟨otherTabled, notGone⟩ :=
      (swept.tabled crowds.toIndexed tabled other).mp tabledAfter
    have otherAway : emptied = false ∨ other ≠ table := by
      rwa [not_and_or, Bool.not_eq_true] at notGone
    rw [swept.refs other otherAway, swept.undoomed other otherAway]
    refine crowds.counted other otherTabled ?_
    rw [swept.destroyed] at presentAfter
    split at presentAfter
    · next gone =>
        rwa [Function.update_of_ne fun same => notGone ⟨gone, same⟩]
          at presentAfter
    · exact presentAfter
  · intro other tabledAfter member heldAfter
    have otherTabled :=
      ((swept.tabled crowds.toIndexed tabled other).mp tabledAfter).1
    obtain ⟨heldBefore, different⟩ := (swept.holds crowds.toIndexed tabled
      held otherTabled member).mp heldAfter
    rw [swept.deleted, Function.update_of_ne different]
    exact crowds.kept other otherTabled member heldBefore
  · refine crowds.spills.imp (fun destroyed => ?_) fun spills => ?_
    · rw [swept.destroyed]
      split
      · next gone =>
          rw [Function.update_of_ne fun same => kept ⟨gone, same⟩]
          exact destroyed
      · exact destroyed
    · refine spills.keep (swept.refs crowded away)
        (swept.value_set crowds.toIndexed tabled held crowds.tabled)
        swept.expired_eq swept.entryRefs fun ke found => ?_
      obtain ⟨hash, foundHere, -⟩ := BucketMap.exists_key_of_value found
      have inCrowded :=
        (crowds.entries crowded crowds.tabled hash entry foundHere).2
      have inTable := (crowds.toIndexed.of_holds tabled held).2
      exact (stays (Option.some.inj (inTable.symm.trans inCrowded))).2 ke found

/-- A removal that leaves a table behind without its key map. -/
theorem Jammed.crowds (jammed : Jammed before table entry after)
    (crowds : Crowds before crowded) (tabled : Tabled before table)
    (held : Holds before table entry)
    (empty : kh.size (before.setWithout table entry) = 0) :
    Crowds after crowded := by
  have sameTabled : ∀ other, Tabled after other ↔ Tabled before other := by
    intro other
    unfold Tabled
    rw [jammed.tables]
  have inTable := (crowds.toIndexed.of_holds tabled held).2
  have heldOther : ∀ other member, Holds after other member →
      other ≠ table ∧ Holds before other member := by
    rintro other member ⟨hash, found⟩
    rw [jammed.sets] at found
    by_cases same : other = table
    · rw [same, Function.update_self,
        BucketMap.size_eq_zero_iff.mp empty hash] at found
      cases found
    · rw [Function.update_of_ne same] at found
      exact ⟨same, hash, found⟩
  have notRemoved : ∀ other member, Tabled before other → other ≠ table →
      Holds before other member → member ≠ entry := by
    rintro other member otherTabled different heldMember rfl
    have inOther := (crowds.toIndexed.of_holds otherTabled heldMember).2
    exact different (Option.some.inj (inOther.symm.trans inTable))
  refine ⟨⟨?_, ?_⟩, (sameTabled crowded).mpr crowds.tabled, ?_, ?_, ?_⟩
  · intro slot other registered
    rw [jammed.tables] at registered
    rw [jammed.tableHash]
    exact crowds.tables slot other registered
  · intro other tabledAfter hash member found
    have otherTabled := (sameTabled other).mp tabledAfter
    obtain ⟨different, heldMember⟩ := heldOther other member ⟨hash, found⟩
    rw [jammed.sets, Function.update_of_ne different] at found
    rw [jammed.hash, jammed.entryTable, Function.update_of_ne
      (notRemoved other member otherTabled different heldMember)]
    exact crowds.entries other otherTabled hash member found
  · intro other tabledAfter presentAfter
    have different : other ≠ table := by
      rintro rfl
      rw [jammed.destroyed, Function.update_self] at presentAfter
      cases presentAfter
    rw [jammed.destroyed, Function.update_of_ne different] at presentAfter
    rw [jammed.refs other different, jammed.undoomed other different]
    exact crowds.counted other ((sameTabled other).mp tabledAfter) presentAfter
  · intro other tabledAfter member heldAfter
    have otherTabled := (sameTabled other).mp tabledAfter
    obtain ⟨different, heldMember⟩ := heldOther other member heldAfter
    rw [jammed.deleted, Function.update_of_ne
      (notRemoved other member otherTabled different heldMember)]
    exact crowds.kept other otherTabled member heldMember
  · by_cases same : crowded = table
    · rw [jammed.destroyed, same, Function.update_self]
      exact Or.inl rfl
    · rw [jammed.destroyed, Function.update_of_ne same]
      refine crowds.spills.imp_right fun spills => ?_
      have elsewhere : ∀ ke member,
          kh.value (before.table.cacheHashSet crowded) ke = some member →
            member ≠ entry := fun ke member found =>
        notRemoved crowded member crowds.tabled same
          ((holds_iff_value before crowded member).mpr ⟨ke, found⟩)
      refine spills.keep (jammed.refs crowded same) ?_ ?_
        jammed.entryRefs fun ke found => absurd rfl (elsewhere ke entry found)
      · intro ke member
        rw [jammed.sets, Function.update_of_ne same]
        exact (and_iff_left_of_imp (elsewhere ke member)).symm
      · intro member
        unfold expired
        rw [jammed.expires, jammed.clock]

/-- In a table without room the loop removes an entry that is not the last,
or jams. -/
theorem Crowds.not_last {ke : Nat} {buckets : List Nat} {emptied : Bool}
    (crowds : Crowds before table)
    (sorted : (ke :: buckets).Pairwise (· < ·))
    (stale : StaleIn before table (ke :: buckets))
    (present : before.table.destroyed table = false)
    (found : kh.value (before.table.cacheHashSet table) ke = some entry)
    (swept : Swept before table entry emptied after)
    (jams : ¬(Overflows before table entry ∧
      kh.size (before.setWithout table entry) = 0)) :
    emptied = false ∧ ∃ last member, ke < last ∧
      kh.value (before.table.cacheHashSet table) last = some member := by
  have held : Holds before table entry :=
    (holds_iff_value before table entry).mpr ⟨ke, found⟩
  obtain ⟨all, last, member, foundLast, overflows, bound⟩ :=
    crowds.spills.resolve_left (by simp [present])
  have inside : ∀ position other,
      kh.value (before.table.cacheHashSet table) position = some other →
        position ∈ ke :: buckets := fun position other foundOther =>
    stale position other foundOther (all other
      ((holds_iff_value before table other).mpr ⟨position, foundOther⟩))
  have beyond : last ≠ ke := by
    rintro rfl
    obtain rfl : member = entry :=
      Option.some.inj (foundLast.symm.trans found)
    refine jams ⟨overflows, ?_⟩
    have alone : Exhausted before (fun other => other = member) table := by
      refine ⟨⟨member, held⟩, fun other heldOther => ?_⟩
      obtain ⟨position, foundOther⟩ :=
        (holds_iff_value before table other).mp heldOther
      have atMost := bound position other foundOther
      have place : position = last := by
        rcases List.mem_cons.mp (inside position other foundOther) with
          same | after
        · exact same
        · have := List.rel_of_pairwise_cons sorted after
          omega
      rw [place] at foundOther
      exact Option.some.inj (foundOther.symm.trans foundLast)
    have gone := ((swept.exhausted_iff crowds.toIndexed crowds.tabled held
      crowds.tabled).mp alone).1
    exact of_decide_eq_true (swept.emptied_eq.symm.trans gone)
  have ahead : last ∈ buckets :=
    (List.mem_cons.mp (inside last member foundLast)).resolve_left beyond
  refine ⟨?_, last, member, List.rel_of_pairwise_cons sorted ahead, foundLast⟩
  cases emptied with
  | false => rfl
  | true =>
      have alone := (swept.exhausted_iff crowds.toIndexed crowds.tabled held
        crowds.tabled).mpr ⟨rfl, rfl⟩
      have heldLast : Holds before table member :=
        (holds_iff_value before table member).mpr ⟨last, foundLast⟩
      rw [alone.2 member heldLast] at foundLast
      exact absurd (crowds.bucket_unique crowds.tabled foundLast found) beyond

/-- The sweep of one table in a store with a table without room. -/
theorem expireBuckets_crowds {buckets : List Nat} {visited total : Nat}
    (crowds : Crowds db crowded) (tabled : Tabled db table)
    (sorted : buckets.Pairwise (· < ·)) (stale : StaleIn db table buckets)
    (run : expireBuckets table buckets db visited = .ok (after, total)) :
    Crowds after crowded := by
  induction buckets generalizing db visited with
  | nil =>
      obtain ⟨rfl, -⟩ := Prod.mk.inj (pure_eq_ok.mp run)
      exact crowds
  | cons ke buckets ih =>
      have tailSorted := (List.pairwise_cons.mp sorted).2
      unfold expireBuckets at run
      rw [bind_eq_ok] at run
      obtain ⟨set, setEq, run⟩ := run
      obtain ⟨present, rfl⟩ := keyMap_eq_ok.mp setEq
      cases found : kh.value (db.table.cacheHashSet table) ke with
      | none =>
          simp only [found] at run
          exact ih crowds tabled tailSorted
            (stale.tail fun entry isHere => by simp [found] at isHere) run
      | some entry =>
          simp only [found] at run
          have held : Holds db table entry :=
            (holds_iff_value db table entry).mpr ⟨ke, found⟩
          have inTable := (crowds.toIndexed.of_holds tabled held).2
          obtain ⟨live, fits⟩ := crowds.counted table tabled present
          split at run
          · next isStale =>
              rw [bind_eq_ok] at run
              obtain ⟨⟨removed, emptied⟩, removal, run⟩ := run
              dsimp only at run
              by_cases jams : Overflows db table entry ∧
                  kh.size (db.setWithout table entry) = 0
              · obtain ⟨rfl, jammed⟩ :=
                  removeSwept_jammed inTable jams.1 jams.2 removal
                rw [if_pos (Or.inr rfl)] at run
                obtain ⟨rfl, -⟩ := Prod.mk.inj (pure_eq_ok.mp run)
                exact jammed.crowds crowds tabled held jams.2
              · obtain ⟨other, gone, again, swept⟩ := removeSwept_swept inTable
                  present live fits (not_and_or.mp jams)
                rw [removal] at again
                obtain ⟨rfl, rfl⟩ := Prod.mk.inj (Except.ok.inj again)
                have later : table = crowded → emptied = false ∧
                    ∃ last member, ke < last ∧
                      kh.value (db.table.cacheHashSet crowded) last =
                        some member := by
                  rintro rfl
                  exact crowds.not_last sorted stale present found swept jams
                have keeps := swept.crowds crowds tabled held present
                  (fun same => ⟨(later same).1, fun place foundAgain => by
                    subst same
                    rw [crowds.bucket_unique tabled foundAgain found]
                    exact (later rfl).2⟩)
                split at run
                · obtain ⟨rfl, -⟩ := Prod.mk.inj (pure_eq_ok.mp run)
                  exact keeps
                · next goesOn =>
                    have notGone : ¬(emptied = true ∧ table = table) :=
                      fun both => goesOn (Or.inr both.1)
                    have tabledAfter : Tabled removed table :=
                      (swept.tabled crowds.toIndexed tabled table).mpr
                        ⟨tabled, notGone⟩
                    refine ih keeps tabledAfter tailSorted ?_ run
                    exact swept.staleIn crowds.toIndexed tabled held found stale
          · next isFresh =>
              refine ih crowds tabled tailSorted (stale.tail ?_) run
              intro other isHere
              rw [found] at isHere
              rw [← Option.some.inj isHere, ← Bool.not_eq_true]
              exact fun isExpired =>
                isFresh ⟨crowds.kept table tabled entry held, isExpired⟩

theorem Crowds.moveCursor (crowds : Crowds db crowded) (tableGc : Nat) :
    Crowds { db with tableGc } crowded :=
  ⟨⟨crowds.tables, crowds.entries⟩, crowds.tabled, crowds.counted, crowds.kept,
    crowds.spills⟩

theorem expireAtCursor_crowds {visited : Nat} (crowds : Crowds db crowded)
    (run : expireAtCursor db = .ok (after, visited)) :
    Crowds after crowded := by
  unfold expireAtCursor at run
  split at run
  · obtain ⟨rfl, -⟩ := Prod.mk.inj (pure_eq_ok.mp run)
    exact crowds
  · next table registered =>
      unfold dbExpireCursorTable at run
      rw [bind_eq_ok] at run
      obtain ⟨set, setEq, run⟩ := run
      obtain ⟨-, rfl⟩ := keyMap_eq_ok.mp setEq
      have tabled : Tabled db table :=
        (tabled_iff_value db table).mpr ⟨db.tableGc, registered⟩
      refine expireBuckets_crowds crowds tabled List.pairwise_lt_range ?_ run
      intro ke entry found _
      exact List.mem_range.mpr (BucketMap.lt_endIndex_of_value found)

theorem expireTables_crowds {start passes visited : Nat} {full : Bool}
    (crowds : Crowds db crowded)
    (run : expireTables start passes db visited = .ok (after, full)) :
    Crowds after crowded := by
  induction passes generalizing db visited with
  | zero => exact (throw_eq_ok.mp run).elim
  | succ passes ih =>
      unfold expireTables at run
      simp only [bind_eq_ok, Prod.exists] at run
      obtain ⟨swept, more, sweep, run⟩ := run
      have moved := (expireAtCursor_crowds crowds sweep).moveCursor
        (nextCursor swept)
      split at run
      · exact ih moved run
      · obtain ⟨rfl, -⟩ := Prod.mk.inj (pure_eq_ok.mp run)
        exact moved

theorem dbExpireCursor_crowds {full : Bool} (crowds : Crowds db crowded)
    (run : dbExpireCursor db = .ok (after, full)) : Crowds after crowded := by
  have moved := crowds.moveCursor (startCursor db)
  unfold dbExpireCursor at run
  dsimp only at run
  split at run
  · obtain ⟨rfl, -⟩ := Prod.mk.inj (pure_eq_ok.mp run)
    exact moved
  · exact expireTables_crowds moved run

theorem expireCalls_crowds {calls : Nat} (crowds : Crowds db crowded)
    (run : expireCalls calls db = .ok after) : Crowds after crowded := by
  induction calls generalizing db with
  | zero => exact pure_eq_ok.mp run ▸ crowds
  | succ calls ih =>
      unfold expireCalls at run
      simp only [bind_eq_ok, Prod.exists] at run
      obtain ⟨middle, full, call, run⟩ := run
      exact ih (dbExpireCursor_crowds crowds call) run

end Crowds

/-- The calls leave nothing expired, and no table behind, exactly when no
table's counter is zero at its last removal. -/
theorem expireCalls_sweptClean_iff {calls : Nat} (shelved : Shelved db)
    (enough : kh.endIndex db.tables ≤ calls) :
    SweptClean db calls ↔ Uncrowded db := by
  constructor
  · rintro ⟨after, run, -, gone⟩ table tabled spills
    have crowds : Crowds db table :=
      { shelved.toIndexed with
        tabled
        counted := fun other otherTabled _ =>
          (shelved.present other otherTabled).2
        kept := shelved.kept
        spills := Or.inr spills }
    obtain ⟨all, last, member, found, -⟩ := spills
    have held : Holds db table member :=
      (holds_iff_value db table member).mpr ⟨last, found⟩
    exact (gone table tabled).mpr ⟨⟨member, held⟩, all⟩
      (expireCalls_crowds crowds run).tabled
  · intro uncrowded
    exact expireCalls_sweptClean shelved uncrowded enough

/-- One idle entry that expires at 5, in a table with so many references. -/
def loneDb (refs : Nat) (currentTime : Int) (dataLength : Nat) : Db listHash :=
  let db : Db listHash := emptyDb emptyDisk
  { db with
    entry :=
      { db.entry with
        count := 1
        table := fun _ => some 0
        dataLength := fun _ => dataLength
        expires := fun _ => 5 }
    table :=
      { db.table with
        count := 1
        cacheHashSet := fun _ => listHash.put listHash.empty 0 0
        refs := fun _ => refs }
    lru := Links.append Links.empty 0
    dbSizeBytes := dataLength
    dbKeys := 1
    tables := listHash.put listHash.empty 0 0
    currentTime }

section Lone

variable {refs : Nat} {currentTime : Int} {dataLength : Nat}

theorem lookup_lone {hash : UInt32} {value : Nat} :
    listHash.lookup (listHash.put listHash.empty 0 0) hash = some value ↔
      hash = 0 ∧ value = 0 := by
  rw [BucketMap.lookup_put]
  by_cases zero : hash = 0
  · simp [zero, eq_comm]
  · simp [zero]

theorem loneDb_tabled : Tabled (loneDb refs currentTime dataLength) 0 :=
  ⟨0, lookup_lone.mpr ⟨rfl, rfl⟩⟩

theorem loneDb_shelved (fits : refs < 32768) :
    Shelved (loneDb refs currentTime dataLength) where
  tables := fun slot table registered => (lookup_lone.mp registered).1.symm
  entries := by
    rintro table ⟨slot, registered⟩ hash entry found
    rw [(lookup_lone.mp registered).2]
    exact ⟨(lookup_lone.mp found).1.symm, rfl⟩
  present := fun _ _ => ⟨rfl, rfl, fits⟩
  kept := fun _ _ _ _ => rfl

end Lone

theorem expireCalls_sweptClean_lone : SweptClean (loneDb 1 10 1) 1 :=
  (expireCalls_sweptClean_iff
    (loneDb_shelved (by decide)) (by decide)).mpr (by
      rintro table - ⟨-, last, entry, -, ⟨full, -⟩ | ⟨none_, -⟩, -⟩
      · exact absurd full (show (1 : Nat) ≠ 32767 by decide)
      · exact absurd none_ (show (1 : Nat) ≠ 0 by decide))

/-- The table of the last entry has 32767 references: it is still registered
after the sweep. -/
theorem not_sweptClean_lone :
    ¬∀ (db : Db listHash) (calls : Nat), Shelved db →
      listHash.endIndex db.tables ≤ calls → SweptClean db calls := by
  intro claim
  have shelved : Shelved (loneDb 32767 10 1) :=
    loneDb_shelved (by decide)
  obtain ⟨after, run, -, gone⟩ := claim _ 1 shelved (by decide)
  have stays : (expireCalls 1 (loneDb 32767 10 1)).map
      (fun db => listHash.lookup db.tables 0) = .ok (some 0) := by
    decide +kernel
  rw [run] at stays
  have stays : listHash.lookup after.tables 0 = some 0 := Except.ok.inj stays
  refine (gone 0 loneDb_tabled).mpr ⟨⟨0, 0, lookup_lone.mpr ⟨rfl, rfl⟩⟩, ?_⟩
    ⟨0, stays⟩
  intro entry _
  rfl

end SimpleCache
