import SimpleCache.Expiry
import SimpleCache.Library.Rounding

/-!
# Staying under the limit

When the store is over its limit, `db_lru_gc` sweeps for expired entries and
then removes entries from the head of the LRU list.  How much it removes is
computed in single precision from unsigned 64-bit numbers, converted to `int`
and counted down by the lengths of the removed entries.
-/

namespace SimpleCache

variable {kh : KHash} {db after : Db kh}

/-- The entries that the loop removes, in the order of the list: it counts
down in 32-bit arithmetic until nothing is left to remove. -/
def removedFor (dataLength : Nat → Nat) : Int → List Nat → List Nat
  | _, [] => []
  | bytes, entry :: order =>
      if bytes ≤ 0 then []
      else
        entry :: removedFor dataLength
          (i32 (u32OfInt (bytes - dataLength entry))) order

/-- Every table has room for the reference that a removal takes, and is
referenced itself while one of its entries is. -/
def Roomy (db : Db kh) : Prop :=
  ∀ table, Tabled db table → db.table.refs table < 32767 ∧
    (db.table.refs table = 0 →
      ∀ entry, Holds db table entry → db.entry.refs entry = 0)

theorem Roomy.not_overflows {table entry : Nat} (roomy : Roomy db)
    (tabled : Tabled db table) (held : Holds db table entry) :
    ¬Overflows db table entry := by
  obtain ⟨room, unheld⟩ := roomy table tabled
  rintro (⟨full, -⟩ | ⟨none_, isHeld⟩)
  · exact room.ne full
  · exact isHeld (unheld none_ entry held)

theorem Roomy.uncrowded (roomy : Roomy db) : Uncrowded db := by
  rintro table tabled ⟨-, last, entry, found, overflows, -⟩
  have held : Holds db table entry :=
    (holds_iff_value db table entry).mpr ⟨last, found⟩
  exact roomy.not_overflows tabled held overflows

theorem Purged.roomy {gone : Nat → Prop} {before : Db kh}
    (purged : Purged before gone after) (roomy : Roomy before) :
    Roomy after := by
  intro table tabledAfter
  obtain ⟨room, unheld⟩ := roomy table ((purged.tabled table).mp tabledAfter).1
  rw [purged.refs table tabledAfter]
  refine ⟨room, fun none_ entry held => ?_⟩
  obtain ⟨heldBefore, kept⟩ := (purged.holds tabledAfter entry).mp held
  rw [purged.entryRefs entry kept]
  exact unheld none_ entry heldBefore

/-- The length of a registered entry is part of the size. -/
theorem Settled.length_le {entry : Nat} (settled : Settled db)
    (registered : Registered db entry) :
    db.entry.dataLength entry ≤ db.dbSizeBytes ∧
      db.dbSizeBytes < 18446744073709551616 := by
  obtain ⟨entries, members, fits, total⟩ := settled.sizes
  refine ⟨?_, fits⟩
  rw [total]
  exact Finset.single_le_sum (fun _ _ => Nat.zero_le _)
    ((members entry).mpr registered)

/-- What the loop leaves of a store at rest: the rest of the list in its
order, and everything else registered. -/
structure Evicted (before : Db kh) (gone kept : List Nat) (after : Db kh) :
    Prop where
  settled : Settled after
  roomy : Roomy after
  registered : ∀ entry, Registered after entry ↔
    Registered before entry ∧ entry ∉ gone
  lru : after.lru.Represents kept
  dataLength : after.entry.dataLength = before.entry.dataLength
  size : after.dbSizeBytes + (gone.map before.entry.dataLength).sum =
    before.dbSizeBytes

/-- The loop removes entries from the head of the list on. -/
theorem lruCleanup_evicted {order : List Nat} {passes : Nat}
    (settled : Settled db) (roomy : Roomy db)
    (represents : db.lru.Represents order) (enough : order.length < passes)
    (bytes : Int) :
    ∃ kept after, lruCleanup passes db bytes = .ok after ∧
      order = removedFor db.entry.dataLength bytes order ++ kept ∧
      Evicted db (removedFor db.entry.dataLength bytes order) kept after := by
  obtain ⟨passes, rfl⟩ : ∃ more, passes = more + 1 :=
    ⟨passes - 1, by omega⟩
  induction order generalizing db passes bytes with
  | nil =>
      have none_ : db.lru.head = none := represents.head_eq
      refine ⟨[], db, ?_, rfl, settled, roomy, by simp [removedFor],
        represents, rfl, by simp [removedFor]⟩
      unfold lruCleanup
      rw [none_]
      rfl
  | cons entry order ih =>
      have head : db.lru.head = some entry := represents.head_eq
      unfold lruCleanup removedFor
      rw [head]
      dsimp only
      by_cases done : bytes ≤ 0
      · rw [if_pos done, if_pos done]
        exact ⟨entry :: order, db, rfl, rfl, settled, roomy, by simp,
          represents, rfl, by simp⟩
      · rw [if_neg done, if_neg done]
        obtain ⟨registered, idle⟩ : Registered db entry ∧
            db.entry.writing entry = false := by
          obtain ⟨other, represented, members⟩ := settled.lru
          rw [represented.unique represents] at members
          exact (members entry).mp List.mem_cons_self
        obtain ⟨table, tabled, held⟩ :=
          (registered_iff_tabled db entry).mp registered
        obtain ⟨present, live, fits⟩ := settled.present table tabled
        have fresh := settled.kept table tabled entry held
        have inTable := (settled.toIndexed.of_holds tabled held).2
        obtain ⟨removed, emptied, removal, swept⟩ := removeSwept_swept inTable
          present live fits (Or.inl (roomy.not_overflows tabled held))
        have purged := swept.purged settled.toShelved tabled held
        have rest : removed.lru.Represents order := by
          have front : db.lru.Represents ([] ++ entry :: order) := represents
          rw [swept.lru, idle]
          exact front.unlink
        obtain ⟨lengthLe, fits⟩ := settled.length_le registered
        have size : removed.dbSizeBytes =
            db.dbSizeBytes - db.entry.dataLength entry := by
          rw [swept.size]
          unfold u64
          omega
        rw [if_neg (by simp [idle, fresh]), removal, ok_bind]
        dsimp only
        rw [List.length_cons] at enough
        obtain ⟨more, rfl⟩ : ∃ more, passes = more + 1 :=
          ⟨passes - 1, by omega⟩
        obtain ⟨kept, after, run, split, evicted⟩ := ih (purged.settles settled)
          (purged.roomy roomy) rest
          (i32 (u32OfInt (bytes - db.entry.dataLength entry))) more (by omega)
        rw [swept.dataLength] at split evicted
        refine ⟨kept, after, run, congrArg (entry :: ·) split, evicted.settled,
          evicted.roomy, fun member => ?_, evicted.lru,
          evicted.dataLength.trans swept.dataLength, ?_⟩
        · rw [evicted.registered,
            swept.registered settled.toIndexed tabled held, List.mem_cons]
          tauto
        · have total := evicted.size
          rw [swept.dataLength, size] at total
          rw [List.map_cons, List.sum_cons]
          omega

/-- No list of a store is longer than the number of its entries. -/
theorem Settled.length_order_le {order : List Nat} (settled : Settled db)
    (represents : db.lru.Represents order) : order.length ≤ db.entry.count := by
  obtain ⟨other, represented, members⟩ := settled.lru
  obtain rfl := represented.unique represents
  have inside : other ⊆ List.range db.entry.count := by
    intro entry member
    rw [List.mem_range]
    exact settled.allocated entry ((members entry).mp member).1
  have atMost := (represents.nodup.subperm inside).length_le
  rwa [List.length_range] at atMost

theorem dbLruCleanupPercent_evicted {order : List Nat} (settled : Settled db)
    (roomy : Roomy db) (represents : db.lru.Represents order) (bytes : Int) :
    ∃ kept after, dbLruCleanupPercent db bytes = .ok after ∧
      order = removedFor db.entry.dataLength bytes order ++ kept ∧
      Evicted db (removedFor db.entry.dataLength bytes order) kept after := by
  have atMost := settled.length_order_le represents
  exact lruCleanup_evicted settled roomy represents (by omega) bytes

section Prefix

variable {dataLength : Nat → Nat}

/-- Numbers in the range of `int` survive the arithmetic. -/
theorem i32_u32OfInt {number : Int} (low : -2147483648 ≤ number)
    (high : number < 2147483648) : i32 (u32OfInt number) = number := by
  unfold i32 u32OfInt
  split <;> omega

/-- Without overflow the loop removes the shortest part of the list that
reaches the target, or all of it. -/
theorem removedFor_shortest {bytes : Int} {order : List Nat}
    (small : ∀ entry ∈ order, dataLength entry < 2147483648)
    (target : bytes < 2147483648) :
    (bytes ≤ ((removedFor dataLength bytes order).map dataLength).sum ∨
        removedFor dataLength bytes order = order) ∧
      ∀ front rest, removedFor dataLength bytes order = front ++ rest →
        rest ≠ [] → ((front.map dataLength).sum : Int) < bytes := by
  induction order generalizing bytes with
  | nil =>
      refine ⟨Or.inr rfl, fun front rest split some_ => ?_⟩
      exact absurd (List.append_eq_nil_iff.mp split.symm).2 some_
  | cons entry order ih =>
      unfold removedFor
      by_cases done : bytes ≤ 0
      · rw [if_pos done]
        refine ⟨Or.inl (by simpa using done), fun front rest split some_ => ?_⟩
        exact absurd (List.append_eq_nil_iff.mp split.symm).2 some_
      · rw [if_neg done]
        have length := small entry List.mem_cons_self
        rw [i32_u32OfInt (by omega) (by omega)]
        have less : bytes - dataLength entry < 2147483648 := by omega
        obtain ⟨reaches, shortest⟩ := ih
          (fun other member => small other (List.mem_cons_of_mem _ member)) less
        constructor
        · refine reaches.imp (fun reached => ?_) (congrArg (entry :: ·))
          rw [List.map_cons, List.sum_cons]
          omega
        · intro front rest split some_
          cases front with
          | nil =>
              rw [List.map_nil, List.sum_nil]
              omega
          | cons first front =>
              obtain ⟨rfl, tail⟩ := List.cons.inj split
              have before := shortest front rest tail some_
              rw [List.map_cons, List.sum_cons]
              omega

theorem removedFor_isPrefix (bytes : Int) (order : List Nat) :
    removedFor dataLength bytes order <+: order := by
  induction order generalizing bytes with
  | nil => exact List.prefix_rfl
  | cons entry order ih =>
      unfold removedFor
      split
      · exact List.nil_prefix
      · exact (List.prefix_cons_inj entry).mpr (ih _)

/-- Also where the arithmetic overflows, the loop does not end before the
target: an overflow adds to what is left to remove. -/
theorem removedFor_reaches {bytes : Int} (order : List Nat)
    (target : bytes < 2147483648) :
    removedFor dataLength bytes order = order ∨
      bytes ≤ ((removedFor dataLength bytes order).map dataLength).sum := by
  induction order generalizing bytes with
  | nil => exact Or.inl rfl
  | cons entry order ih =>
      unfold removedFor
      by_cases done : bytes ≤ 0
      · rw [if_pos done]
        exact Or.inr (by simpa using done)
      · rw [if_neg done]
        have wrapped : i32 (u32OfInt (bytes - dataLength entry)) <
            2147483648 ∧ bytes - dataLength entry ≤
              i32 (u32OfInt (bytes - dataLength entry)) := by
          unfold i32 u32OfInt
          split <;> omega
        refine (ih wrapped.1).imp (congrArg (entry :: ·)) fun reached => ?_
        rw [List.map_cons, List.sum_cons, Int.natCast_add]
        omega

/-- The loop ends within any part of the list that reaches the target, or the
part exceeds it by more than an `int` can hold. -/
theorem removedFor_within {bytes : Int} {front rest : List Nat}
    (target : bytes < 2147483648)
    (reaches : bytes ≤ (front.map dataLength).sum) :
    removedFor dataLength bytes (front ++ rest) <+: front ∨
      bytes + 2147483648 < (front.map dataLength).sum := by
  induction front generalizing bytes with
  | nil =>
      have done : bytes ≤ 0 := by simpa using reaches
      rw [List.nil_append]
      cases rest with
      | nil => exact Or.inl List.prefix_rfl
      | cons entry rest =>
          unfold removedFor
          rw [if_pos done]
          exact Or.inl List.prefix_rfl
  | cons entry front ih =>
      rw [List.map_cons, List.sum_cons, Int.natCast_add] at reaches ⊢
      rw [List.cons_append]
      unfold removedFor
      by_cases done : bytes ≤ 0
      · rw [if_pos done]
        exact Or.inl List.nil_prefix
      · rw [if_neg done]
        by_cases low : -2147483648 ≤ bytes - dataLength entry
        · rw [i32_u32OfInt low (by omega)]
          rcases @ih (bytes - dataLength entry) (by omega) (by omega) with
            isPrefix | beyond
          · exact Or.inl ((List.prefix_cons_inj entry).mpr isPrefix)
          · exact Or.inr (by omega)
        · refine Or.inr ?_
          have nonneg := Int.natCast_nonneg (front.map dataLength).sum
          omega

end Prefix

/-- Conversion of a `float` to `int`.  What it gives outside the range of `int`
is up to the machine. -/
def intOfFloat (beyond : ℚ → Int) (number : ℚ) : Int :=
  if -2147483649 < number ∧ number < 2147483648 then
    if number < 0 then ⌈number⌉ else ⌊number⌋
  else beyond number

/-- `(db.db_size_bytes - settings.max_size) + (settings.max_size *
settings.db_lru_clear)`, with an unsigned difference. -/
def overrun (maxSize : Nat) (dbLruClear : ℚ) (size : Nat) : ℚ :=
  single (single (u64 (size + 18446744073709551616 - maxSize)) +
    single (single maxSize * dbLruClear))

/-- The amount to remove, an `int`. -/
def bytesToRemove (beyond : ℚ → Int) (maxSize : Nat) (dbLruClear : ℚ)
    (size : Nat) : Int :=
  intOfFloat beyond (overrun maxSize dbLruClear size)

/-- The integer part of `max_size * db_lru_clear`. -/
def clearance (maxSize : Nat) (dbLruClear : ℚ) : Nat :=
  ⌊(maxSize : ℚ) * dbLruClear⌋₊

section Expiry

/-- How many of these buckets some calls of `db_expire_cursor` visit, one after
the other. -/
def roundsLength (keys : Nat → Nat) : (rounds : Nat) → List Nat → Nat
  | 0, _ => 0
  | rounds + 1, path =>
      roundLength keys 0 path +
        roundsLength keys rounds (path.drop (roundLength keys 0 path))

theorem roundsLength_nil (keys : Nat → Nat) (rounds : Nat) :
    roundsLength keys rounds [] = 0 := by
  induction rounds with
  | zero => rfl
  | succ rounds ih => simp [roundsLength, roundLength, ih]

/-- The buckets from the cursor on that five calls visit between them. -/
def expiryPath (db : Db kh) : List Nat :=
  let buckets := kh.endIndex db.tables
  cursorPath buckets (startCursor db)
    (roundsLength (keysAt db) 5 (cursorPath buckets (startCursor db) buckets))

/-- The expired entries of the tables in these buckets. -/
def staleEntries (db : Db kh) : List Nat :=
  (expiryPath db).flatMap fun index =>
    match kh.value db.tables index with
    | none => []
    | some table =>
        (kh.values (db.table.cacheHashSet table)).filter (expired db)

theorem mem_staleEntries {entry : Nat} :
    entry ∈ staleEntries db ↔
      StaleAt db { index | index ∈ expiryPath db } entry := by
  unfold staleEntries StaleAt
  rw [List.mem_flatMap]
  refine exists_congr fun index => and_congr_right fun _ => ?_
  cases registered : kh.value db.tables index with
  | none => simp
  | some table => simp [BucketMap.mem_values_iff, Holds]

/-- Rounds that go on behind the part of the path that is visited. -/
theorem expireRounds_from {middle : Db kh} {done : Nat} (rounds : Nat)
    (shelved : Shelved db) (uncrowded : Uncrowded db)
    (some_ : 0 < kh.endIndex db.tables)
    (purged : Purged db (StaleAt db
      (visitedFrom (kh.endIndex db.tables) (startCursor db) done)) middle)
    (resumes : startCursor middle =
      (startCursor db + done) % kh.endIndex db.tables) :
    ∃ after count, expireRounds rounds middle = .ok after ∧
      Purged db (StaleAt db
        (visitedFrom (kh.endIndex db.tables) (startCursor db) count)) after ∧
      min count (kh.endIndex db.tables) =
        min done (kh.endIndex db.tables) +
          roundsLength (keysAt db) rounds (cursorPath (kh.endIndex db.tables)
            ((startCursor db + done) % kh.endIndex db.tables)
            (kh.endIndex db.tables - done)) := by
  induction rounds generalizing middle done with
  | zero => exact ⟨middle, done, rfl, purged, rfl⟩
  | succ rounds ih =>
      obtain ⟨swept, visits, run, length, swept_, moves⟩ :=
        dbExpireCursor_purged purged.shelved
          (purged.uncrowded shelved uncrowded)
      rw [purged.endIndex] at run length moves
      rw [purged.endIndex, resumes] at swept_
      rw [resumes] at length moves
      obtain ⟨-, cursor⟩ := moves some_
      have together := purged.sweep swept_
      rw [visitedFrom_add] at together
      -- of what this round visits, the rest of the path is new
      have fresh : roundLength (keysAt db) 0 (cursorPath
          (kh.endIndex db.tables)
          ((startCursor db + done) % kh.endIndex db.tables)
          (kh.endIndex db.tables - done)) =
            min visits (kh.endIndex db.tables - done) := by
        by_cases early : done ≤ kh.endIndex db.tables
        · have same : ∀ index ∈ cursorPath (kh.endIndex db.tables)
              ((startCursor db + done) % kh.endIndex db.tables)
              (kh.endIndex db.tables - done),
              keysAt middle index = keysAt db index := fun index later =>
            purged.keysAt shelved (not_visited_later (by omega) later)
          have split := cursorPath_add (kh.endIndex db.tables)
            ((startCursor db + done) % kh.endIndex db.tables)
            (kh.endIndex db.tables - done) done
          rw [Nat.sub_add_cancel early] at split
          rw [← roundLength_congr same, roundLength_append _ _ _
            (cursorPath (kh.endIndex db.tables)
              (((startCursor db + done) % kh.endIndex db.tables +
                (kh.endIndex db.tables - done)) % kh.endIndex db.tables) done),
            ← split, ← length]
          simp [cursorPath]
        · have none_ : kh.endIndex db.tables - done = 0 := by omega
          rw [none_]
          simp [cursorPath, roundLength]
      have further : (cursorPath (kh.endIndex db.tables)
          ((startCursor db + done) % kh.endIndex db.tables)
          (kh.endIndex db.tables - done)).drop
            (min visits (kh.endIndex db.tables - done)) =
          cursorPath (kh.endIndex db.tables)
            ((startCursor db + (done + visits)) % kh.endIndex db.tables)
            (kh.endIndex db.tables - (done + visits)) := by
        by_cases all : kh.endIndex db.tables - done ≤ visits
        · have none_ : kh.endIndex db.tables - (done + visits) = 0 := by omega
          rw [Nat.min_eq_right all, none_]
          simp [cursorPath]
        · have split := cursorPath_add (kh.endIndex db.tables)
            ((startCursor db + done) % kh.endIndex db.tables) visits
            (kh.endIndex db.tables - (done + visits))
          have parts : visits + (kh.endIndex db.tables - (done + visits)) =
              kh.endIndex db.tables - done := by omega
          rw [parts, Nat.mod_add_mod, Nat.add_assoc] at split
          rw [split, Nat.min_eq_left (by omega)]
          exact List.drop_left' (by simp [cursorPath])
      unfold expireRounds roundsLength
      rw [run, ok_bind, fresh, further]
      dsimp only
      by_cases cycle : visits = kh.endIndex db.tables
      · have none_ : kh.endIndex db.tables - (done + visits) = 0 := by omega
        rw [none_]
        refine ⟨swept, done + visits, ?_, together, ?_⟩
        · simp [cycle]
          rfl
        · have nothing := roundsLength_nil (keysAt db) rounds
          change _ = _ + (_ + roundsLength (keysAt db) rounds [])
          omega
      · have inRange : swept.tableGc < kh.endIndex swept.tables := by
          rw [cursor, swept_.endIndex, purged.endIndex]
          exact Nat.mod_lt _ some_
        have goesOn : startCursor swept =
            (startCursor db + (done + visits)) % kh.endIndex db.tables := by
          unfold startCursor
          rw [if_neg (Nat.not_le.mpr inRange), cursor, Nat.mod_add_mod,
            Nat.add_assoc]
          rfl
        obtain ⟨after, count, rest, all, counts⟩ := ih together goesOn
        refine ⟨after, count, ?_, all, ?_⟩
        · simp only [cycle, decide_false, Bool.false_eq_true, if_false]
          exact rest
        · omega

/-- The expiry rounds remove the expired entries on the path, and nothing
else. -/
theorem expireRounds_purged (shelved : Shelved db) (uncrowded : Uncrowded db) :
    ∃ swept, expireRounds 5 db = .ok swept ∧
      Purged db (fun entry => entry ∈ staleEntries db) swept := by
  by_cases some_ : 0 < kh.endIndex db.tables
  · have nothing : Purged db (StaleAt db
        (visitedFrom (kh.endIndex db.tables) (startCursor db) 0)) db := by
      refine (Purged.none shelved).congr fun entry => ?_
      rw [false_iff]
      rintro ⟨index, ⟨pass, bound, -⟩, -⟩
      omega
    have starts : startCursor db =
        (startCursor db + 0) % kh.endIndex db.tables :=
      (Nat.mod_eq_of_lt (startCursor_lt some_)).symm
    obtain ⟨swept, count, run, purged, counts⟩ :=
      expireRounds_from 5 shelved uncrowded some_ nothing starts
    refine ⟨swept, run, purged.congr fun entry => ?_⟩
    rw [← starts, Nat.zero_min, Nat.zero_add, Nat.sub_zero] at counts
    have path : expiryPath db = cursorPath (kh.endIndex db.tables)
        (startCursor db) (min count (kh.endIndex db.tables)) := by
      rw [counts]
      rfl
    rw [mem_staleEntries, path]
    have same : visitedFrom (kh.endIndex db.tables) (startCursor db) count =
        { index | index ∈ cursorPath (kh.endIndex db.tables) (startCursor db)
          (min count (kh.endIndex db.tables)) } := by
      ext index
      rw [Set.mem_ofPred_eq, mem_cursorPath, mem_visitedFrom_min some_]
    rw [same]
  · have none_ : kh.endIndex db.tables = 0 := by omega
    obtain ⟨swept, count, run, length, purged, -⟩ :=
      dbExpireCursor_purged shelved uncrowded
    rw [none_] at run length
    obtain rfl : count = 0 := length
    refine ⟨swept, ?_, purged.congr fun entry => ?_⟩
    · unfold expireRounds
      rw [run, ok_bind]
      rfl
    · rw [mem_staleEntries]
      have nowhere : ∀ positions, ¬StaleAt db positions entry := by
        rintro positions ⟨index, -, table, registered, -⟩
        have := BucketMap.lt_endIndex_of_value registered
        omega
      exact iff_of_false (nowhere _) (nowhere _)

/-- The size that expiry leaves. -/
def sizeLeft (db : Db kh) : Nat :=
  db.dbSizeBytes - ∑ entry ∈ (staleEntries db).toFinset,
    db.entry.dataLength entry

/-- What expiry leaves of the list. -/
def orderLeft (db : Db kh) (order : List Nat) : List Nat :=
  order.filter fun entry => decide (entry ∉ staleEntries db)

/-- What expiry leaves of a store at rest. -/
theorem expireRounds_left {order : List Nat} (settled : Settled db)
    (roomy : Roomy db) (represents : db.lru.Represents order) :
    ∃ swept, expireRounds 5 db = .ok swept ∧ Settled swept ∧ Roomy swept ∧
      swept.lru.Represents (orderLeft db order) ∧
      swept.dbSizeBytes = sizeLeft db ∧
      swept.entry.dataLength = db.entry.dataLength := by
  obtain ⟨swept, run, purged⟩ :=
    expireRounds_purged settled.toShelved roomy.uncrowded
  have settledSwept := purged.settles settled
  refine ⟨swept, run, settledSwept, purged.roomy roomy, ?_, ?_,
    purged.dataLength⟩
  · obtain ⟨left, thinner, isLeft⟩ := purged.thins settled represents
    have members : ∀ entry, entry ∈ left ↔
        entry ∈ order ∧ entry ∉ staleEntries db := by
      intro entry
      obtain ⟨first, representsFirst, ofFirst⟩ := settled.lru
      obtain rfl := representsFirst.unique represents
      obtain ⟨second, representsSecond, ofSecond⟩ := settledSwept.lru
      obtain rfl := representsSecond.unique isLeft
      rw [ofFirst, ofSecond, purged.registered, purged.writing]
      tauto
    have kept : left = orderLeft db order := by
      have inner : left.Sublist (orderLeft db order) := by
        have filtered := thinner.filter fun entry =>
          decide (entry ∉ staleEntries db)
        rwa [List.filter_eq_self.mpr fun entry member =>
          decide_eq_true ((members entry).mp member).2] at filtered
      refine inner.eq_of_length_le ?_
      have nodup : (orderLeft db order).Nodup :=
        represents.nodup.filter _
      refine (nodup.subperm fun entry member => ?_).length_le
      obtain ⟨inOrder, fresh⟩ := List.mem_filter.mp member
      exact (members entry).mpr ⟨inOrder, of_decide_eq_true fresh⟩
    rw [← kept]
    exact isLeft
  · obtain ⟨entries, inEntries, -, total⟩ := settled.sizes
    obtain ⟨rest, inRest, -, restTotal⟩ := settledSwept.sizes
    have gone : (staleEntries db).toFinset ⊆ entries := by
      intro entry member
      obtain ⟨index, -, table, registered, held, -⟩ :=
        mem_staleEntries.mp (List.mem_toFinset.mp member)
      exact (inEntries entry).mpr ((registered_iff_tabled db entry).mpr
        ⟨table, (tabled_iff_value db table).mpr ⟨index, registered⟩, held⟩)
    have isRest : rest = entries \ (staleEntries db).toFinset := by
      ext entry
      rw [inRest, Finset.mem_sdiff, inEntries, List.mem_toFinset,
        purged.registered]
    unfold sizeLeft
    rw [restTotal, purged.dataLength, isRest, total,
      ← Finset.sum_sdiff gone, Nat.add_sub_cancel]

end Expiry

/-- The expiry and list phases end with an empty list or the store as far
under its limit as it should be, whatever a conversion out of the range of
`int` gives. -/
def EvictsEnough (maxSize : Nat) (dbLruClear : ℚ) (db : Db kh) : Prop :=
  ∀ beyond, ∃ after,
    collect maxSize (bytesToRemove beyond maxSize dbLruClear) db = .ok after ∧
      (after.lru.head = none ∨
        after.dbSizeBytes ≤ maxSize - clearance maxSize dbLruClear)

/-- Of what expiry leaves, nothing is on the list, or the size is at the target
already.  Else the store is still over its limit, the overrun is in the range
of `int`, and no part of the list that reaches the rounded overrun, short of
the whole list, misses the exact one. -/
def ReachesTarget (maxSize : Nat) (dbLruClear : ℚ) (db : Db kh)
    (order : List Nat) : Prop :=
  orderLeft db order = [] ∨
    sizeLeft db ≤ maxSize - clearance maxSize dbLruClear ∨
    (maxSize ≤ sizeLeft db ∧
      overrun maxSize dbLruClear (sizeLeft db) < 2147483648 ∧
      ∀ taken < (orderLeft db order).length,
        overrun maxSize dbLruClear (sizeLeft db) <
            (((orderLeft db order).take taken).map
              db.entry.dataLength).sum + 1 →
          sizeLeft db ≤ maxSize - clearance maxSize dbLruClear +
            (((orderLeft db order).take taken).map db.entry.dataLength).sum)

theorem removedFor_nonpos {dataLength : Nat → Nat} {bytes : Int}
    (nonpos : bytes ≤ 0) (order : List Nat) :
    removedFor dataLength bytes order = [] := by
  cases order with
  | nil => rfl
  | cons entry order => exact if_pos nonpos

/-- What the list phase does, whether it is entered or not. -/
theorem collect_evicted {maxSize : Nat} (amount : Nat → Int) {swept : Db kh}
    {order : List Nat} (some_ : 0 < maxSize) (exceeds : maxSize < db.dbSizeBytes)
    (expiry : expireRounds 5 db = .ok swept) (settled : Settled swept)
    (roomy : Roomy swept) (represents : swept.lru.Represents order) :
    ∃ kept after, collect maxSize amount db = .ok after ∧
      order = removedFor swept.entry.dataLength (amount swept.dbSizeBytes)
        order ++ kept ∧
      Evicted swept (removedFor swept.entry.dataLength
        (amount swept.dbSizeBytes) order) kept after := by
  unfold collect
  rw [if_pos ⟨some_, exceeds⟩, expiry, ok_bind]
  dsimp only
  by_cases any : 0 < amount swept.dbSizeBytes
  · rw [if_pos any]
    exact dbLruCleanupPercent_evicted settled roomy represents _
  · rw [if_neg any, removedFor_nonpos (not_lt.mp any)]
    exact ⟨order, swept, rfl, rfl, settled, roomy, by simp, represents, rfl,
      by simp⟩

section Amount

variable {maxSize size : Nat} {dbLruClear : ℚ}

/-- A sum in single precision is not much less than the exact one. -/
theorem overrun_ge (some_ : 0 < maxSize) (low : -1 < maxSize * dbLruClear)
    (high : clearance maxSize dbLruClear ≤ maxSize) :
    ((u64 (size + 18446744073709551616 - maxSize) : Nat) +
        (clearance maxSize dbLruClear : ℚ)) * (1 - 4 / 16777216) - 11 ≤
      overrun maxSize dbLruClear size := by
  have one : (1 : ℚ) ≤ maxSize := by exact_mod_cast some_
  have atMost : (clearance maxSize dbLruClear : ℚ) ≤
      maxSize * dbLruClear + 1 := by
    unfold clearance
    by_cases nonneg : 0 ≤ (maxSize : ℚ) * dbLruClear
    · have := Nat.floor_le nonneg
      linarith
    · rw [Nat.floor_of_nonpos (by linarith)]
      push_cast
      linarith
  have below : (maxSize : ℚ) * dbLruClear < maxSize + 1 := by
    have cut := Nat.lt_floor_add_one ((maxSize : ℚ) * dbLruClear)
    have high : (clearance maxSize dbLruClear : ℚ) ≤ maxSize := by
      exact_mod_cast high
    unfold clearance at high
    linarith
  have bounded : |dbLruClear| ≤ 2 := by
    rw [abs_le]
    constructor <;> nlinarith
  unfold overrun
  generalize u64 (size + 18446744073709551616 - maxSize) = excess
  have first := single_error excess
  have second := single_error maxSize
  have third := single_error (single maxSize * dbLruClear)
  have fourth := single_error
    (single excess + single (single maxSize * dbLruClear))
  have nonneg : (0 : ℚ) ≤ excess := Nat.cast_nonneg _
  rw [abs_of_nonneg nonneg] at first
  rw [abs_of_nonneg (zero_le_one.trans one)] at second
  have product : |single maxSize * dbLruClear - maxSize * dbLruClear| ≤
      |(maxSize : ℚ) * dbLruClear| / 16777216 + 1 := by
    rw [← sub_mul, abs_mul, abs_mul,
      abs_of_nonneg (zero_le_one.trans one : (0 : ℚ) ≤ maxSize)]
    have scaled := mul_le_mul_of_nonneg_right second (abs_nonneg dbLruClear)
    linarith
  -- from here on the bounds are linear
  generalize single maxSize * dbLruClear = share at *
  generalize (maxSize : ℚ) * dbLruClear = whole at *
  generalize single excess = rounded at *
  generalize single share = clearing at *
  generalize single (rounded + clearing) = total at *
  rw [abs_le] at first third fourth product
  have wholeSize : |whole| ≤ whole + 2 :=
    abs_le.mpr ⟨by linarith, by linarith⟩
  have shareSize : |share| ≤ whole + whole / 1000 + 5 :=
    abs_le.mpr ⟨by linarith, by linarith⟩
  have totalSize : |rounded + clearing| ≤
      excess + whole + 20 + (excess + whole) / 100 := by
    rw [abs_le]
    constructor <;> linarith
  linarith

/-- An amount that is in range is at most a whole number exactly when the
overrun is less than one above it. -/
theorem bytesToRemove_le_iff {beyond : ℚ → Int} (total : Nat)
    (low : -2147483649 < overrun maxSize dbLruClear size)
    (high : overrun maxSize dbLruClear size < 2147483648) :
    bytesToRemove beyond maxSize dbLruClear size ≤ total ↔
      overrun maxSize dbLruClear size < total + 1 := by
  have nonneg : (0 : ℚ) ≤ total := Nat.cast_nonneg _
  unfold bytesToRemove intOfFloat
  rw [if_pos ⟨low, high⟩]
  split
  · next negative =>
      rw [Int.ceil_le]
      push_cast
      exact iff_of_true (by linarith) (by linarith)
  · have cast : (total : ℚ) + 1 = ((total + 1 : Int) : ℚ) := by push_cast; rfl
    rw [cast, ← Int.floor_lt, Int.lt_add_one_iff]

theorem bytesToRemove_lt {beyond : ℚ → Int}
    (low : -2147483649 < overrun maxSize dbLruClear size)
    (high : overrun maxSize dbLruClear size < 2147483648) :
    bytesToRemove beyond maxSize dbLruClear size < 2147483648 := by
  have atMost := (@bytesToRemove_le_iff maxSize size dbLruClear beyond
    2147483647 low high).mpr (by norm_num; exact high)
  omega

theorem bytesToRemove_gt (beyond : ℚ → Int)
    (low : -2147483649 < overrun maxSize dbLruClear size)
    (high : overrun maxSize dbLruClear size < 2147483648) :
    overrun maxSize dbLruClear size - 1 <
      bytesToRemove beyond maxSize dbLruClear size := by
  unfold bytesToRemove intOfFloat
  rw [if_pos ⟨low, high⟩]
  split
  · have := Int.le_ceil (overrun maxSize dbLruClear size)
    linarith
  · exact Int.sub_one_lt_floor _

theorem overrun_gt (some_ : 0 < maxSize) (low : -1 < maxSize * dbLruClear)
    (high : clearance maxSize dbLruClear ≤ maxSize) :
    -2147483649 < overrun maxSize dbLruClear size := by
  have bound := @overrun_ge maxSize size dbLruClear some_ low high
  have excess : (0 : ℚ) ≤ u64 (size + 18446744073709551616 - maxSize) :=
    Nat.cast_nonneg _
  have clearing : (0 : ℚ) ≤ clearance maxSize dbLruClear := Nat.cast_nonneg _
  linarith

/-- A store between its target and its limit has a difference below zero, and
that is far out of range as an unsigned number. -/
theorem overrun_between (some_ : 0 < maxSize)
    (low : -1 < maxSize * dbLruClear)
    (high : clearance maxSize dbLruClear ≤ maxSize) (below : size < maxSize)
    (above : maxSize - clearance maxSize dbLruClear < size) :
    2147483648 ≤ overrun maxSize dbLruClear size := by
  have bound := @overrun_ge maxSize size dbLruClear some_ low high
  have excess : u64 (size + 18446744073709551616 - maxSize) +
      clearance maxSize dbLruClear ≥ 18446744073709551616 := by
    unfold u64
    omega
  have excess : (18446744073709551616 : ℚ) ≤
      (u64 (size + 18446744073709551616 - maxSize) : Nat) +
        clearance maxSize dbLruClear := by
    exact_mod_cast excess
  linarith

/-- What takes the amount down by more than its whole range is more than the
exact overrun. -/
theorem exact_le_of_wraps {beyond : ℚ → Int} {removed : Nat}
    (some_ : 0 < maxSize) (low : -1 < maxSize * dbLruClear)
    (high : clearance maxSize dbLruClear ≤ maxSize) (atLimit : maxSize ≤ size)
    (fits : size < 18446744073709551616)
    (inRange : overrun maxSize dbLruClear size < 2147483648)
    (wraps : bytesToRemove beyond maxSize dbLruClear size + 2147483648 <
      removed) :
    size - maxSize + clearance maxSize dbLruClear ≤ removed := by
  have bound := @overrun_ge maxSize size dbLruClear some_ low high
  have excess : u64 (size + 18446744073709551616 - maxSize) =
      size - maxSize := by
    unfold u64
    omega
  rw [excess] at bound
  have above := bytesToRemove_gt beyond (overrun_gt some_ low high) inRange
  have wraps : (bytesToRemove beyond maxSize dbLruClear size : ℚ) +
      2147483648 < removed := by
    exact_mod_cast wraps
  have least : ((size - maxSize : Nat) : ℚ) +
      clearance maxSize dbLruClear ≤ removed := by
    linarith
  exact_mod_cast least

end Amount

section Stops

variable {maxSize : Nat} {dbLruClear : ℚ} {order : List Nat}

/-- The list phase ends well exactly when it removes all that expiry leaves on
the list, or as much as lies above the target. -/
theorem collect_stops_iff (amount : Nat → Int) (settled : Settled db)
    (roomy : Roomy db) (represents : db.lru.Represents order)
    (some_ : 0 < maxSize) (exceeds : maxSize < db.dbSizeBytes) :
    ∃ after, collect maxSize amount db = .ok after ∧
      ((after.lru.head = none ∨
          after.dbSizeBytes ≤ maxSize - clearance maxSize dbLruClear) ↔
        removedFor db.entry.dataLength (amount (sizeLeft db))
            (orderLeft db order) = orderLeft db order ∨
          sizeLeft db ≤ maxSize - clearance maxSize dbLruClear +
            ((removedFor db.entry.dataLength (amount (sizeLeft db))
              (orderLeft db order)).map db.entry.dataLength).sum) := by
  obtain ⟨swept, expiry, settledSwept, roomySwept, isLeft, isSize, lengths⟩ :=
    expireRounds_left settled roomy represents
  obtain ⟨kept, after, run, split, evicted⟩ :=
    collect_evicted amount some_ exceeds expiry settledSwept roomySwept isLeft
  rw [lengths, isSize] at split evicted
  refine ⟨after, run, or_congr ?_ ?_⟩
  · rw [evicted.lru.head_eq, List.head?_eq_none_iff]
    constructor
    · rintro rfl
      rw [List.append_nil] at split
      exact split.symm
    · intro all
      rw [all] at split
      exact List.append_cancel_left ((List.append_nil _).trans split).symm
  · have size := evicted.size
    rw [isSize, lengths] at size
    omega

theorem sizeLeft_lt (settled : Settled db) :
    sizeLeft db < 18446744073709551616 := by
  obtain ⟨-, -, fits, -⟩ := settled.sizes
  exact (Nat.sub_le ..).trans_lt fits

/-- With an amount in range, a part of the list that reaches the rounded
overrun reaches the exact one. -/
theorem parts_of_stops {beyond : ℚ → Int} {taken : Nat} (settled : Settled db)
    (some_ : 0 < maxSize) (low : -1 < maxSize * dbLruClear)
    (high : clearance maxSize dbLruClear ≤ maxSize)
    (atLimit : maxSize ≤ sizeLeft db)
    (inRange : overrun maxSize dbLruClear (sizeLeft db) < 2147483648)
    (stops : removedFor db.entry.dataLength
          (bytesToRemove beyond maxSize dbLruClear (sizeLeft db))
          (orderLeft db order) = orderLeft db order ∨
        sizeLeft db ≤ maxSize - clearance maxSize dbLruClear +
          ((removedFor db.entry.dataLength
            (bytesToRemove beyond maxSize dbLruClear (sizeLeft db))
            (orderLeft db order)).map db.entry.dataLength).sum)
    (few : taken < (orderLeft db order).length)
    (touches : overrun maxSize dbLruClear (sizeLeft db) <
      (((orderLeft db order).take taken).map db.entry.dataLength).sum + 1) :
    sizeLeft db ≤ maxSize - clearance maxSize dbLruClear +
      (((orderLeft db order).take taken).map db.entry.dataLength).sum := by
  have atLeast := @overrun_gt maxSize (sizeLeft db) dbLruClear some_ low high
  rcases @removedFor_within _ _ _
    ((orderLeft db order).drop taken) (bytesToRemove_lt atLeast inRange)
      ((bytesToRemove_le_iff _ atLeast inRange).mpr touches) with
    isPrefix | wraps
  · rw [List.take_append_drop] at isPrefix
    rcases stops with all | reached
    · have short := isPrefix.length_le
      rw [all, List.length_take] at short
      omega
    · obtain ⟨tail, split⟩ := isPrefix
      rw [← split, List.map_append, List.sum_append]
      omega
  · have least := exact_le_of_wraps some_ low high atLimit (sizeLeft_lt settled)
      inRange wraps
    omega

end Stops

/-- Eviction reaches the target exactly where no part of the list falls between
the rounded overrun and the exact one. -/
theorem evictsEnough_iff {maxSize : Nat} {dbLruClear : ℚ} {order : List Nat}
    (settled : Settled db) (roomy : Roomy db)
    (represents : db.lru.Represents order) (some_ : 0 < maxSize)
    (exceeds : maxSize < db.dbSizeBytes)
    (low : -1 < maxSize * dbLruClear)
    (high : clearance maxSize dbLruClear ≤ maxSize) :
    EvictsEnough maxSize dbLruClear db ↔
      ReachesTarget maxSize dbLruClear db order := by
  have stops (beyond : ℚ → Int) :=
    @collect_stops_iff _ _ maxSize dbLruClear order
      (bytesToRemove beyond maxSize dbLruClear) settled roomy represents some_
      exceeds
  constructor
  · intro enough
    obtain ⟨after, run, reached⟩ := stops fun _ => 0
    obtain ⟨other, runOther, ends⟩ := enough fun _ => 0
    rw [run] at runOther
    obtain rfl := Except.ok.inj runOther
    have stops := reached.mp ends
    by_cases inRange : overrun maxSize dbLruClear (sizeLeft db) < 2147483648
    · by_cases atLimit : maxSize ≤ sizeLeft db
      · exact Or.inr (Or.inr ⟨atLimit, inRange, fun taken few touches =>
          parts_of_stops settled some_ low high atLimit inRange stops few touches⟩)
      · refine Or.inr (Or.inl (not_lt.mp fun above => ?_))
        exact absurd inRange (not_lt.mpr
          (overrun_between some_ low high (not_le.mp atLimit) above))
    · have none_ : bytesToRemove (fun _ => 0) maxSize dbLruClear
          (sizeLeft db) = 0 := if_neg fun range_ => inRange range_.2
      rw [none_, removedFor_nonpos le_rfl] at stops
      rcases stops with all | small
      · exact Or.inl all.symm
      · exact Or.inr (Or.inl small)
  · intro reaches beyond
    obtain ⟨after, run, reached⟩ := stops beyond
    refine ⟨after, run, reached.mpr ?_⟩
    rcases reaches with empty | small | ⟨-, inRange, parts⟩
    · rw [empty]
      exact Or.inl rfl
    · exact Or.inr (by omega)
    · rw [or_iff_not_imp_left]
      intro proper
      have atLeast :=
        @overrun_gt maxSize (sizeLeft db) dbLruClear some_ low high
      have isPrefix := @removedFor_isPrefix db.entry.dataLength
        (bytesToRemove beyond maxSize dbLruClear (sizeLeft db))
        (orderLeft db order)
      have amounts := (removedFor_reaches (orderLeft db order)
        (bytesToRemove_lt atLeast inRange)).resolve_left proper
      have few := isPrefix.length_le.lt_of_ne fun same =>
        proper (isPrefix.eq_of_length same)
      have isTake := List.prefix_iff_eq_take.mp isPrefix
      have meets := parts _ few
      rw [← isTake] at meets
      exact meets ((bytesToRemove_le_iff _ atLeast inRange).mp amounts)

/-- Three complete entries of these lengths, of which the first, the oldest,
has expired. -/
def trioDb (stale first second : Nat) : Db listHash :=
  let db : Db listHash := emptyDb emptyDisk
  { db with
    entry :=
      { db.entry with
        count := 3
        table := fun _ => some 0
        hash := UInt32.ofNat
        expires := fun entry => if entry = 0 then 5 else 0
        dataLength := fun entry =>
          if entry = 0 then stale else if entry = 1 then first else second }
    table :=
      { db.table with
        count := 1
        cacheHashSet := fun _ => listHash.put
          (listHash.put (listHash.put listHash.empty 0 0) 1 1) 2 2
        refs := fun _ => 1 }
    lru := Links.append (Links.append (Links.append Links.empty 0) 1) 2
    dbSizeBytes := stale + first + second
    dbKeys := 3
    currentTime := 10
    tables := listHash.put listHash.empty 0 0 }

section Trio

variable {stale first second : Nat}

theorem lookup_trio {hash : UInt32} {value : Nat} :
    listHash.lookup (listHash.put
        (listHash.put (listHash.put listHash.empty 0 0) 1 1) 2 2) hash =
          some value ↔
      (hash = 0 ∧ value = 0) ∨ (hash = 1 ∧ value = 1) ∨
        (hash = 2 ∧ value = 2) := by
  rw [BucketMap.lookup_put]
  by_cases two : hash = 2
  · simp [two, eq_comm]
  · rw [if_neg two, BucketMap.lookup_put]
    by_cases one : hash = 1
    · simp [one, eq_comm]
    · rw [if_neg one, lookup_lone]
      simp [one, two]

theorem trioDb_registered {entry : Nat} :
    Registered (trioDb stale first second) entry ↔
      entry ∈ ([0, 1, 2] : List Nat) := by
  rw [List.mem_cons, List.mem_cons, List.mem_singleton]
  constructor
  · rintro ⟨slot, table, registered, hash, found⟩
    exact (lookup_trio.mp found).imp And.right (Or.imp And.right And.right)
  · rintro (rfl | rfl | rfl)
    · exact ⟨0, 0, lookup_lone.mpr ⟨rfl, rfl⟩, 0,
        lookup_trio.mpr (Or.inl ⟨rfl, rfl⟩)⟩
    · exact ⟨0, 0, lookup_lone.mpr ⟨rfl, rfl⟩, 1,
        lookup_trio.mpr (Or.inr (Or.inl ⟨rfl, rfl⟩))⟩
    · exact ⟨0, 0, lookup_lone.mpr ⟨rfl, rfl⟩, 2,
        lookup_trio.mpr (Or.inr (Or.inr ⟨rfl, rfl⟩))⟩

theorem trioDb_order :
    (trioDb stale first second).lru.Represents [0, 1, 2] :=
  ((Links.represents_empty.append (show 0 ∉ [] by simp)).append
    (show 1 ∉ [0] by simp)).append (show 2 ∉ [0, 1] by simp)

theorem trioDb_settled
    (fits : stale + first + second < 18446744073709551616) :
    Settled (trioDb stale first second) where
  tables := fun slot table registered => (lookup_lone.mp registered).1.symm
  entries := by
    rintro table ⟨slot, registered⟩ hash entry found
    rw [(lookup_lone.mp registered).2]
    rcases lookup_trio.mp found with ⟨rfl, rfl⟩ | ⟨rfl, rfl⟩ | ⟨rfl, rfl⟩
    · exact ⟨rfl, rfl⟩
    · exact ⟨rfl, rfl⟩
    · exact ⟨rfl, rfl⟩
  present := fun _ _ => ⟨rfl, rfl, by change 1 < 32768; decide⟩
  kept := fun _ _ _ _ => rfl
  allocated := by
    intro entry registered
    change entry < 3
    have member := trioDb_registered.mp registered
    simp only [List.mem_cons, List.not_mem_nil, or_false] at member
    omega
  lru := by
    refine ⟨[0, 1, 2], trioDb_order, fun entry => ?_⟩
    rw [trioDb_registered]
    exact (and_iff_left rfl).symm
  sizes := by
    refine ⟨{0, 1, 2}, fun entry => ?_, fits, ?_⟩
    · rw [trioDb_registered]
      simp
    · rw [Finset.sum_insert (by decide), Finset.sum_pair (by decide)]
      exact Nat.add_assoc ..

theorem trioDb_roomy : Roomy (trioDb stale first second) :=
  fun _ _ => ⟨by change 1 < 32767; decide, fun _ _ _ => rfl⟩

end Trio

/-- `.2` as a `float`. -/
def defaultLruClear : ℚ := 13421773 / 67108864

/-- Expiry removes the first entry, and the list phase the second one. -/
theorem evictsEnough_trio :
    sizeLeft (trioDb 300 600 500) = 1100 ∧
      orderLeft (trioDb 300 600 500) [0, 1, 2] = [1, 2] ∧
      EvictsEnough 1000 defaultLruClear (trioDb 300 600 500) := by
  have size : sizeLeft (trioDb 300 600 500) = 1100 := by decide +kernel
  have left : orderLeft (trioDb 300 600 500) [0, 1, 2] = [1, 2] := by
    decide +kernel
  refine ⟨size, left, (evictsEnough_iff (trioDb_settled (by decide))
    trioDb_roomy trioDb_order (by decide) (by decide)
    (by decide +kernel) (by decide +kernel)).mpr (Or.inr (Or.inr ?_))⟩
  rw [size, left]
  decide +kernel

/-- Rounding to single precision loses the byte that would have removed the
last entry. -/
theorem not_evictsEnough_trio :
    ¬∀ (db : Db listHash) (maxSize : Nat) (dbLruClear : ℚ), Settled db →
      Roomy db → 0 < maxSize → maxSize < db.dbSizeBytes →
        -1 < maxSize * dbLruClear → clearance maxSize dbLruClear ≤ maxSize →
          EvictsEnough maxSize dbLruClear db := by
  intro claim
  obtain ⟨after, run, reached⟩ := claim (trioDb 1 16777416 801) 1000
    defaultLruClear (trioDb_settled (by decide)) trioDb_roomy (by decide)
    (by decide) (by decide +kernel) (by decide +kernel) fun _ => 0
  have ends : (collect 1000 (bytesToRemove (fun _ => 0) 1000 defaultLruClear)
      (trioDb 1 16777416 801)).map (fun db => (db.lru.head, db.dbSizeBytes)) =
        .ok (some 2, 801) := by
    decide +kernel
  rw [run] at ends
  obtain ⟨head, size⟩ := Prod.mk.inj (Except.ok.inj ends)
  rcases reached with empty | small
  · rw [head] at empty
    cases empty
  · rw [size] at small
    exact absurd small (by decide +kernel)

end SimpleCache
