import Mathlib.Data.Nat.Size
import SimpleCache.Khash.Valid

/-!
# Resizing in place

The buckets of the old table that still have to be moved and those of the new
table that are taken share the arrays.  A key that is placed kicks out one that
is in the way, which is placed next, until a key comes to a bucket that nothing
is in.
-/

namespace SimpleCache

namespace Khash

variable {Value : Type}

theorem taken_setIsEmptyFalse {flags : Flags} {buckets i : Nat}
    (inTable : i < buckets) :
    taken (setIsEmptyFalse flags i) buckets = insert i (taken flags buckets) := by
  ext j
  rw [Finset.mem_insert, mem_taken, mem_taken, isEmpty_setIsEmptyFalse,
    Bool.and_eq_false_iff, decide_eq_false_iff_not, not_not]
  constructor
  · rintro ⟨inside, set | rfl⟩
    · exact Or.inr ⟨inside, set⟩
    · exact Or.inl rfl
  · rintro (rfl | ⟨inside, set⟩)
    · exact ⟨inTable, Or.inr rfl⟩
    · exact ⟨inside, Or.inl set⟩

theorem taken_emptyFlags (buckets : Nat) : taken emptyFlags buckets = ∅ := by
  ext i
  rw [mem_taken, isEmpty_emptyFlags]
  simp

/-- Buckets of either table with a key. -/
def kept (table : Rehash Value) (nBuckets newBuckets : Nat) : Finset Nat :=
  live table.flags nBuckets ∪ taken table.newFlags newBuckets

/-- The old and the new table together, with the key that is in hand, have the
entries that there were. -/
structure Moving (nBuckets newBuckets : Nat) (entries : UInt32 → Value → Prop)
    (count : Nat) (table : Rehash Value) (hand : Option (UInt32 × Value)) :
    Prop where
  apart : ∀ i ∈ live table.flags nBuckets, i ∉ taken table.newFlags newBuckets
  undeleted : ∀ i, isDel table.newFlags i = false
  same : ∀ key value, entries key value ↔
    (∃ i ∈ kept table nBuckets newBuckets,
      table.keys i = key ∧ table.vals i = value) ∨ hand = some (key, value)
  distinct : ∀ i ∈ kept table nBuckets newBuckets,
    ∀ j ∈ kept table nBuckets newBuckets, table.keys i = table.keys j → i = j
  fresh : ∀ key value, hand = some (key, value) →
    ∀ i ∈ kept table nBuckets newBuckets, table.keys i ≠ key
  reached : ∀ i ∈ taken table.newFlags newBuckets,
    Reaches table.newFlags newBuckets (table.keys i) i
  counted : (live table.flags nBuckets).card +
    (taken table.newFlags newBuckets).card + hand.toList.length = count

section Moving

variable {nBuckets newBuckets count : Nat} {entries : UInt32 → Value → Prop}
  {table : Rehash Value}

/-- The key of an old bucket is taken in hand. -/
theorem Moving.lift
    (moving : Moving nBuckets newBuckets entries count table none) {j : Nat}
    (member : j ∈ live table.flags nBuckets) :
    Moving nBuckets newBuckets entries count
      { table with flags := setIsDelTrue table.flags j }
      (some (table.keys j, table.vals j)) := by
  have notTaken := moving.apart j member
  have inKept : j ∈ kept table nBuckets newBuckets :=
    Finset.mem_union_left _ member
  have keeps : kept { table with flags := setIsDelTrue table.flags j }
      nBuckets newBuckets = (kept table nBuckets newBuckets).erase j := by
    unfold kept
    dsimp only
    rw [live_setIsDelTrue, Finset.erase_union_distrib,
      Finset.erase_eq_of_notMem notTaken]
  constructor
  · dsimp only
    rw [live_setIsDelTrue]
    exact fun i other => moving.apart i (Finset.mem_of_mem_erase other)
  · exact moving.undeleted
  · intro key value
    rw [moving.same, keeps]
    dsimp only
    constructor
    · rintro (⟨i, inside, isKey, isValue⟩ | nothing)
      · by_cases here : i = j
        · subst here
          rw [isKey, isValue]
          exact Or.inr rfl
        · exact Or.inl ⟨i, Finset.mem_erase.mpr ⟨here, inside⟩, isKey, isValue⟩
      · cases nothing
    · rintro (⟨i, inside, isKey, isValue⟩ | inHand)
      · exact Or.inl ⟨i, Finset.mem_of_mem_erase inside, isKey, isValue⟩
      · obtain ⟨isKey, isValue⟩ := Prod.mk.inj (Option.some.inj inHand)
        exact Or.inl ⟨j, inKept, isKey, isValue⟩
  · rw [keeps]
    intro i first k second
    exact moving.distinct i (Finset.mem_of_mem_erase first) k
      (Finset.mem_of_mem_erase second)
  · intro key value inHand i inside isKey
    rw [keeps, Finset.mem_erase] at inside
    obtain ⟨rfl, -⟩ := Prod.mk.inj (Option.some.inj inHand)
    exact inside.1 (moving.distinct i inside.2 j inKept isKey)
  · exact moving.reached
  · have positive : 0 < (live table.flags nBuckets).card :=
      Finset.card_pos.mpr ⟨j, member⟩
    have counted := moving.counted
    dsimp only
    rw [live_setIsDelTrue, Finset.card_erase_of_mem member]
    simp only [Option.toList_none, List.length_nil, Option.toList_some,
      List.length_singleton] at counted ⊢
    omega

/-- The key in hand is placed, and the one that was there is in hand. -/
theorem Moving.place {key : UInt32} {val : Value}
    (moving : Moving nBuckets newBuckets entries count table (some (key, val)))
    {i : Nat} (inTable : i < newBuckets)
    (reaches : Reaches table.newFlags newBuckets key i)
    (free : i ∉ taken table.newFlags newBuckets) {flags : Flags}
    (erased : live flags nBuckets = (live table.flags nBuckets).erase i) :
    Moving nBuckets newBuckets entries count
      { flags
        newFlags := setIsEmptyFalse table.newFlags i
        keys := Function.update table.keys i key
        vals := Function.update table.vals i val }
      (if i ∈ live table.flags nBuckets then
        some (table.keys i, table.vals i) else none) := by
  have filled : ∀ j, isEmpty table.newFlags j = false →
      isEmpty (setIsEmptyFalse table.newFlags i) j = false := by
    intro j full
    rw [isEmpty_setIsEmptyFalse, full, Bool.false_and]
  have keeps : kept { flags
                      newFlags := setIsEmptyFalse table.newFlags i
                      keys := Function.update table.keys i key
                      vals := Function.update table.vals i val }
      nBuckets newBuckets = insert i (kept table nBuckets newBuckets) := by
    unfold kept
    dsimp only
    rw [erased, taken_setIsEmptyFalse inTable, Finset.union_insert]
    ext j
    simp only [Finset.mem_insert, Finset.mem_union, Finset.mem_erase]
    tauto
  have inLive : i ∈ kept table nBuckets newBuckets →
      i ∈ live table.flags nBuckets := fun member =>
    (Finset.mem_union.mp member).resolve_right free
  have fresh := moving.fresh key val rfl
  constructor
  · dsimp only
    rw [erased, taken_setIsEmptyFalse inTable]
    intro j member other
    obtain ⟨apart, member⟩ := Finset.mem_erase.mp member
    rcases Finset.mem_insert.mp other with same | old
    · exact apart same
    · exact moving.apart j member old
  · intro j
    dsimp only
    rw [isDel_setIsEmptyFalse]
    exact moving.undeleted j
  · intro other value
    rw [moving.same, keeps]
    dsimp only
    constructor
    · rintro (⟨j, member, isKey, isValue⟩ | inHand)
      · by_cases here : j = i
        · subst here
          rw [if_pos (inLive member), isKey, isValue]
          exact Or.inr rfl
        · refine Or.inl ⟨j, Finset.mem_insert_of_mem member, ?_⟩
          rw [Function.update_of_ne here, Function.update_of_ne here]
          exact ⟨isKey, isValue⟩
      · obtain ⟨rfl, rfl⟩ := Prod.mk.inj (Option.some.inj inHand)
        refine Or.inl ⟨i, Finset.mem_insert_self .., ?_⟩
        rw [Function.update_self, Function.update_self]
        exact ⟨rfl, rfl⟩
    · rintro (⟨j, member, isKey, isValue⟩ | inHand)
      · by_cases here : j = i
        · subst here
          rw [Function.update_self] at isKey isValue
          rw [isKey, isValue]
          exact Or.inr rfl
        · rw [Function.update_of_ne here] at isKey isValue
          exact Or.inl ⟨j, Finset.mem_of_mem_insert_of_ne member here, isKey,
            isValue⟩
      · split at inHand
        · next member =>
            obtain ⟨isKey, isValue⟩ := Prod.mk.inj (Option.some.inj inHand)
            exact Or.inl ⟨i, Finset.mem_union_left _ member, isKey, isValue⟩
        · cases inHand
  · rw [keeps]
    dsimp only
    intro j first k second same
    rcases Finset.mem_insert.mp first with rfl | older
    · rcases Finset.mem_insert.mp second with rfl | old
      · rfl
      · by_contra apart
        rw [Function.update_self, Function.update_of_ne (Ne.symm apart)] at same
        exact fresh k old same.symm
    · rcases Finset.mem_insert.mp second with rfl | old
      · by_contra apart
        rw [Function.update_self, Function.update_of_ne apart] at same
        exact fresh j older same
      · by_cases firstHere : j = i
        · by_cases secondHere : k = i
          · rw [firstHere, secondHere]
          · rw [firstHere, Function.update_self,
              Function.update_of_ne secondHere] at same
            exact absurd same.symm (fresh k old)
        · by_cases secondHere : k = i
          · rw [secondHere, Function.update_self,
              Function.update_of_ne firstHere] at same
            exact absurd same (fresh j older)
          · rw [Function.update_of_ne firstHere,
              Function.update_of_ne secondHere] at same
            exact moving.distinct j older k old same
  · intro other value inHand j member
    rw [keeps] at member
    dsimp only
    split at inHand
    · next inOld =>
        obtain ⟨rfl, -⟩ := Prod.mk.inj (Option.some.inj inHand)
        have inKept : i ∈ kept table nBuckets newBuckets :=
          Finset.mem_union_left _ inOld
        by_cases here : j = i
        · rw [here, Function.update_self]
          exact (fresh i inKept).symm
        · rw [Function.update_of_ne here]
          exact fun same => here (moving.distinct j
            (Finset.mem_of_mem_insert_of_ne member here) i inKept same)
    · cases inHand
  · dsimp only
    rw [taken_setIsEmptyFalse inTable]
    intro j member
    by_cases here : j = i
    · rw [here, Function.update_self]
      exact reaches.mono filled
    · rw [Function.update_of_ne here]
      exact (moving.reached j
        (Finset.mem_of_mem_insert_of_ne member here)).mono filled
  · have counted := moving.counted
    dsimp only
    rw [erased, taken_setIsEmptyFalse inTable,
      Finset.card_insert_of_notMem free]
    split
    · next member =>
        have positive : 0 < (live table.flags nBuckets).card :=
          Finset.card_pos.mpr ⟨i, member⟩
        rw [Finset.card_erase_of_mem member]
        simp only [Option.toList_some, List.length_singleton] at counted ⊢
        omega
    · next absent =>
        rw [Finset.erase_eq_of_notMem absent]
        simp only [Option.toList_some, Option.toList_none, List.length_nil,
          List.length_singleton] at counted ⊢
        omega

/-- The probing of `kh_resize` runs to the first bucket that is empty. -/
theorem freeLoop_eq {newFlags : Flags} {key : UInt32} {step : Nat}
    (empty : isEmpty newFlags (probe newBuckets key step) = true)
    (passed : ∀ earlier < step,
      ¬isEmpty newFlags (probe newBuckets key earlier) = true) :
    ∀ rounds start, start ≤ step → step < start + rounds →
      freeLoop newFlags (newBuckets - 1) rounds (probe newBuckets key start)
        start = .ok (probe newBuckets key step) := by
  intro rounds
  induction rounds with
  | zero =>
      intro start le less
      omega
  | succ rounds ih =>
      intro start le less
      unfold freeLoop
      by_cases atEnd : start = step
      · subst atEnd
        rw [if_neg (by rw [empty]; decide)]
        rfl
      · rw [if_pos (Bool.eq_false_of_not_eq_true (passed start (by omega))),
          ← probe_succ]
        exact ih (start + 1) (by omega) (by omega)

theorem freeLoop_ok {exponent : Nat} (isPower : newBuckets = 2 ^ exponent)
    {newFlags : Flags} (room : (taken newFlags newBuckets).card < newBuckets)
    (key : UInt32) :
    ∃ i, freeLoop newFlags (newBuckets - 1) newBuckets
        (key.toNat &&& (newBuckets - 1)) 0 = .ok i ∧
      i < newBuckets ∧ i ∉ taken newFlags newBuckets ∧
        Reaches newFlags newBuckets key i := by
  obtain ⟨i, inTable, empty⟩ := exists_empty room
  obtain ⟨there, inSteps, here⟩ := @exists_probe exponent _ key isPower i inTable
  rw [← here] at empty
  obtain ⟨step, inSteps, first, passed⟩ :=
    @exists_first newBuckets key (fun i => isEmpty newFlags i = true)
      ⟨there, inSteps, empty⟩
  refine ⟨_, freeLoop_eq first passed newBuckets 0 (Nat.zero_le _) (by omega),
    probe_lt isPower step, fun member => ?_, step, inSteps, rfl,
      fun earlier less => Bool.eq_false_of_not_eq_true (passed earlier less)⟩
  rw [(mem_taken.mp member).2] at first
  cases first

/-- The kick-out process ends with every key in one of the tables. -/
theorem kickOut_ok {exponent : Nat} (isPower : newBuckets = 2 ^ exponent)
    (small : count < newBuckets) (rounds : Nat) {key : UInt32} {val : Value}
    (moving : Moving nBuckets newBuckets entries count table (some (key, val)))
    (enough : (live table.flags nBuckets).card < rounds) :
    ∃ after, kickOut nBuckets newBuckets rounds table key val = .ok after ∧
      Moving nBuckets newBuckets entries count after none ∧
        live after.flags nBuckets ⊆ live table.flags nBuckets := by
  induction rounds generalizing table key val with
  | zero => omega
  | succ rounds ih =>
      have room : (taken table.newFlags newBuckets).card < newBuckets := by
        have counted := moving.counted
        omega
      obtain ⟨i, found, inTable, free, reaches⟩ := freeLoop_ok isPower room key
      unfold kickOut
      dsimp only
      rw [found, ok_bind]
      by_cases member : i ∈ live table.flags nBuckets
      · have placed := moving.place inTable reaches free
          (live_setIsDelTrue : live (setIsDelTrue table.flags i) nBuckets = _)
        rw [if_pos member] at placed
        rw [if_pos (mem_live.mp member)]
        obtain ⟨after, runs, moved, fewer⟩ := ih placed (by
          have positive : 0 < (live table.flags nBuckets).card :=
            Finset.card_pos.mpr ⟨i, member⟩
          dsimp only
          rw [live_setIsDelTrue, Finset.card_erase_of_mem member]
          omega)
        refine ⟨after, runs, moved, fewer.trans ?_⟩
        dsimp only
        rw [live_setIsDelTrue]
        exact Finset.erase_subset ..
      · have placed := moving.place inTable reaches free
          (Finset.erase_eq_of_notMem member).symm
        rw [if_neg member] at placed
        rw [if_neg (mt mem_live.mpr member)]
        exact ⟨_, rfl, placed, subset_rfl⟩

theorem rehashBucket_ok {exponent : Nat} (isPower : newBuckets = 2 ^ exponent)
    (small : count < newBuckets)
    (moving : Moving nBuckets newBuckets entries count table none) {j : Nat}
    (inTable : j < nBuckets) :
    ∃ after, rehashBucket nBuckets newBuckets table j = .ok after ∧
      Moving nBuckets newBuckets entries count after none ∧
        live after.flags nBuckets ⊆ (live table.flags nBuckets).erase j := by
  unfold rehashBucket
  split
  · next either =>
      have member := mem_live.mpr ⟨inTable, either⟩
      have few : (live (setIsDelTrue table.flags j) nBuckets).card <
          nBuckets + 1 := by
        have bound := Finset.card_filter_le (Finset.range nBuckets)
          fun i => isEither (setIsDelTrue table.flags j) i = false
        rw [Finset.card_range] at bound
        unfold live
        omega
      obtain ⟨after, runs, moved, fewer⟩ :=
        kickOut_ok isPower small (nBuckets + 1) (moving.lift member) few
      refine ⟨after, runs, moved, ?_⟩
      rw [← live_setIsDelTrue]
      exact fewer
  · next other =>
      refine ⟨table, rfl, moving, ?_⟩
      rw [Finset.erase_eq_of_notMem]
      exact fun member => other (mem_live.mp member).2

theorem rehash_ok {exponent : Nat} (isPower : newBuckets = 2 ^ exponent)
    (small : count < newBuckets) (buckets : List Nat)
    (inTable : ∀ j ∈ buckets, j < nBuckets)
    (moving : Moving nBuckets newBuckets entries count table none) :
    ∃ after, buckets.foldlM (rehashBucket nBuckets newBuckets) table =
        .ok after ∧
      Moving nBuckets newBuckets entries count after none ∧
        ∀ i ∈ live after.flags nBuckets,
          i ∈ live table.flags nBuckets ∧ i ∉ buckets := by
  induction buckets generalizing table with
  | nil => exact ⟨table, rfl, moving, fun i member => ⟨member, by simp⟩⟩
  | cons j buckets ih =>
      obtain ⟨next, first, moved, fewer⟩ := rehashBucket_ok isPower small moving
        (inTable j List.mem_cons_self)
      obtain ⟨after, rest, ended, left⟩ := ih
        (fun k member => inTable k (List.mem_cons_of_mem _ member)) moved
      refine ⟨after, ?_, ended, fun i member => ?_⟩
      · rw [List.foldlM_cons, first]
        exact rest
      · obtain ⟨there, notLater⟩ := left i member
        obtain ⟨apart, before⟩ := Finset.mem_erase.mp (fewer there)
        exact ⟨before, List.not_mem_cons_of_ne_of_not_mem apart notLater⟩

end Moving

/-- A number with the bits below its bits set, up to a distance. -/
theorem testBit_smear {x distance : Nat} {y : Nat}
    (smeared : ∀ i, y.testBit i = true ↔
      ∃ j < distance, x.testBit (i + j) = true) (i : Nat) :
    (y ||| y >>> distance).testBit i = true ↔
      ∃ j < distance + distance, x.testBit (i + j) = true := by
  rw [Nat.testBit_or, Nat.testBit_shiftRight, Bool.or_eq_true, smeared, smeared]
  constructor
  · rintro (⟨j, less, set⟩ | ⟨j, less, set⟩)
    · exact ⟨j, by omega, set⟩
    · refine ⟨distance + j, by omega, ?_⟩
      rw [← Nat.add_assoc, Nat.add_comm i distance]
      exact set
  · rintro ⟨j, less, set⟩
    by_cases near : j < distance
    · exact Or.inl ⟨j, near, set⟩
    · refine Or.inr ⟨j - distance, by omega, ?_⟩
      have same : distance + i + (j - distance) = i + j := by omega
      rw [same]
      exact set

/-- `kroundup32` sets every bit below the highest one. -/
theorem kroundup32_eq {x : Nat} (positive : 0 < x) (small : x ≤ 2 ^ 31) :
    kroundup32 x = 2 ^ (x - 1).size := by
  have start : (x + 4294967295) % 4294967296 = x - 1 := by omega
  have one : ∀ i, (x - 1).testBit i = true ↔
      ∃ j < 1, (x - 1).testBit (i + j) = true := by
    intro i
    constructor
    · exact fun set => ⟨0, by omega, set⟩
    · rintro ⟨j, less, set⟩
      obtain rfl : j = 0 := by omega
      exact set
  have all := testBit_smear (testBit_smear (testBit_smear (testBit_smear
    (testBit_smear one))))
  unfold kroundup32
  dsimp only
  rw [start]
  have below : x - 1 < 2 ^ 31 := by omega
  have few : (x - 1).size ≤ 31 := Nat.size_le.mpr below
  have ones : 2 ^ (x - 1).size ≤ 2 ^ 31 := Nat.pow_le_pow_right (by omega) few
  have bit : ∀ i, (∃ j < 32, (x - 1).testBit (i + j) = true) ↔
      i < (x - 1).size := by
    intro i
    constructor
    · rintro ⟨j, -, set⟩
      by_contra beyond
      have clear : (x - 1).testBit (i + j) = false :=
        Nat.testBit_lt_two_pow (Nat.size_le.mp (by omega))
      rw [set] at clear
      cases clear
    · intro less
      obtain ⟨k, ge, set⟩ := Nat.exists_ge_and_testBit_of_ge_two_pow
        (Nat.lt_size.mp less)
      have inWord : k < 31 := by
        by_contra beyond
        have clear : (x - 1).testBit k = false :=
          Nat.testBit_lt_two_pow (below.trans_le
            (Nat.pow_le_pow_right (by omega) (by omega)))
        rw [set] at clear
        cases clear
      refine ⟨k - i, by omega, ?_⟩
      have same : i + (k - i) = k := by omega
      rw [same]
      exact set
  have filled := fun i => (all i).trans (bit i)
  generalize (_ ||| _ >>> 16) = result at filled ⊢
  have isOnes : result = 2 ^ (x - 1).size - 1 := by
    refine Nat.eq_of_testBit_eq fun i => ?_
    rw [Nat.testBit_two_pow_sub_one, Bool.eq_iff_iff, decide_eq_true_iff]
    exact filled i
  have positive := Nat.two_pow_pos (x - 1).size
  rw [isOnes]
  omega

/-- Every size that is asked for settles on a power of two. -/
theorem settled_power {requested : Nat} (small : requested ≤ 2 ^ 31) :
    ∃ exponent, 2 ≤ exponent ∧ exponent ≤ 31 ∧
      settled requested = 2 ^ exponent := by
  unfold settled
  split
  · exact ⟨2, le_rfl, by omega, rfl⟩
  · next large =>
      have positive : 0 < requested := by
        by_contra isZero
        obtain rfl : requested = 0 := by omega
        exact large (by decide)
      have rounded := kroundup32_eq positive small
      rw [rounded] at large ⊢
      refine ⟨_, ?_, Nat.size_le.mpr (by omega), rfl⟩
      by_contra less
      have few : (requested - 1).size ≤ 1 := by omega
      have bound : 2 ^ (requested - 1).size ≤ 2 ^ 1 :=
        Nat.pow_le_pow_right (by omega) few
      omega

/-- A table has a value for a key. -/
def Stored (h : Table Value) (key : UInt32) (value : Value) : Prop :=
  ∃ i, At h key i ∧ h.vals i = value

section Resize

variable {h : Table Value}

theorem Valid.moving (valid : Valid h) (newBuckets : Nat) :
    Moving h.nBuckets newBuckets (Stored h) h.size (Rehash.start h) none := by
  have keeps : kept (Rehash.start h) h.nBuckets newBuckets =
      live h.flags h.nBuckets := by
    unfold kept Rehash.start
    dsimp only
    rw [taken_emptyFlags, Finset.union_empty]
  constructor
  · unfold Rehash.start
    dsimp only
    rw [taken_emptyFlags]
    exact fun i _ => Finset.notMem_empty i
  · exact fun i => isDel_emptyFlags i
  · intro key value
    rw [keeps]
    constructor
    · rintro ⟨i, ⟨member, isKey⟩, isValue⟩
      exact Or.inl ⟨i, member, isKey, isValue⟩
    · rintro (⟨i, member, isKey, isValue⟩ | nothing)
      · exact ⟨i, ⟨member, isKey⟩, isValue⟩
      · cases nothing
  · rw [keeps]
    exact valid.distinct
  · exact fun key value nothing => by cases nothing
  · unfold Rehash.start
    dsimp only
    rw [taken_emptyFlags]
    exact fun i member => absurd member (Finset.notMem_empty i)
  · unfold Rehash.start
    dsimp only
    rw [taken_emptyFlags, valid.size]
    rfl

/-- `kh_resize` ends, leaves the table alone when the size is too small, and
otherwise moves every entry into a table without deleted buckets. -/
theorem Valid.khResize (valid : Valid h) {requested exponent : Nat}
    (large : 2 ≤ exponent) (fits : exponent ≤ 31)
    (isPower : settled requested = 2 ^ exponent) :
    ∃ after, khResize h requested = .ok after ∧ Valid after ∧
      after.size = h.size ∧
      (∀ key value, Stored after key value ↔ Stored h key value) ∧
      if upper (settled requested) ≤ h.size then after = h
      else after.nBuckets = settled requested ∧ after.nOccupied = h.size := by
  unfold Khash.khResize
  dsimp only
  split
  · exact ⟨h, rfl, valid, rfl, fun _ _ => Iff.rfl, rfl⟩
  · next roomy =>
      have small : h.size < settled requested := by
        have less := upper_lt large
        rw [← isPower] at less
        omega
      obtain ⟨after, runs, moved, left⟩ := rehash_ok isPower small
        (List.range h.nBuckets) (fun j member => List.mem_range.mp member)
          (valid.moving (settled requested))
      have none_ : live after.flags h.nBuckets = ∅ := by
        rw [Finset.eq_empty_iff_forall_notMem]
        intro i member
        exact (left i member).2 (List.mem_range.mpr (mem_live.mp member).1)
      have keeps : kept after h.nBuckets (settled requested) =
          taken after.newFlags (settled requested) := by
        unfold kept
        rw [none_, Finset.empty_union]
      have noDeleted : live after.newFlags (settled requested) =
          taken after.newFlags (settled requested) := by
        ext i
        rw [mem_live, mem_taken, isEither_eq, moved.undeleted, Bool.or_false]
      have counted : h.size =
          (taken after.newFlags (settled requested)).card := by
        have counted := moved.counted
        rw [none_, Finset.card_empty] at counted
        simp only [Option.toList_none, List.length_nil] at counted
        omega
      rw [runs, ok_bind]
      refine ⟨_, rfl, ⟨Or.inr ⟨exponent, large, fits, isPower⟩, rfl, ?_, counted,
        (not_le.mp roomy).le, ?_, ?_⟩, rfl, fun key value => ?_, rfl, rfl⟩
      · exact counted.trans (congrArg Finset.card noDeleted.symm)
      · dsimp only
        rw [noDeleted, ← keeps]
        exact moved.distinct
      · dsimp only
        rw [noDeleted]
        exact moved.reached
      · rw [moved.same, keeps]
        unfold Stored At
        dsimp only
        rw [noDeleted]
        constructor
        · rintro ⟨i, ⟨member, isKey⟩, isValue⟩
          exact Or.inl ⟨i, member, isKey, isValue⟩
        · rintro (⟨i, member, isKey, isValue⟩ | nothing)
          · exact ⟨i, ⟨member, isKey⟩, isValue⟩
          · cases nothing

theorem settled_same : ∀ exponent ≤ 31, 2 ≤ exponent →
    settled (2 ^ exponent - 1) = 2 ^ exponent := by
  decide +kernel

theorem settled_double : ∀ exponent ≤ 30, 2 ≤ exponent →
    settled (2 ^ exponent + 1) = 2 ^ (exponent + 1) := by
  decide +kernel

theorem settled_one : settled 1 = 2 ^ 2 := by decide +kernel

/-- Below the capacity `kh_put` has room behind its update: the table is
rehashed where it is when most buckets are deleted, and doubled otherwise. -/
theorem Valid.makeRoom (valid : Valid h) (small : h.size ≤ 2 ^ 29) :
    ∃ after, makeRoom h = .ok after ∧ Valid after ∧ after.size = h.size ∧
      (∀ key value, Stored after key value ↔ Stored h key value) ∧
      after.nOccupied < after.upperBound ∧ after.nBuckets ≠ 0 := by
  unfold Khash.makeRoom
  have fewer : h.size ≤ h.nOccupied := by
    rw [valid.size, valid.occupied]
    exact Finset.card_le_card live_subset
  have shifted : (h.size <<< 1) % 4294967296 = 2 * h.size := by
    rw [Nat.shiftLeft_eq]
    omega
  rw [shifted]
  have bound := valid.bound
  have load := valid.load
  split
  · next full =>
      obtain isZero | ⟨exponent, large, fits, isPower⟩ := valid.buckets
      · -- the first entry
        rw [isZero] at bound ⊢
        rw [if_neg (Nat.not_lt_zero _)]
        obtain ⟨after, runs, ok, size, same, sized⟩ :=
          @Valid.khResize _ _ valid 1 2 le_rfl (by omega) settled_one
        have none_ : h.size = 0 := by
          have isBound : h.upperBound = 0 := bound
          omega
        have roomy : ¬upper (settled 1) ≤ h.size := by
          rw [none_, settled_one]
          decide
        rw [if_neg roomy] at sized
        refine ⟨after, runs, ok, size, same, ?_, ?_⟩
        · rw [ok.bound, sized.1, sized.2]
          omega
        · rw [sized.1, settled_one]
          decide
      · have four : 2 ^ 2 ≤ 2 ^ exponent :=
          Nat.pow_le_pow_right (by omega) large
        rw [isPower] at bound ⊢
        split
        · next sparse =>
            have settles := settled_same exponent fits large
            obtain ⟨after, runs, ok, size, same, sized⟩ :=
              @Valid.khResize _ _ valid _ exponent large fits settles
            have roomy : ¬upper (settled (2 ^ exponent - 1)) ≤ h.size := by
              rw [settles]
              unfold upper
              omega
            rw [if_neg roomy] at sized
            refine ⟨after, runs, ok, size, same, ?_, ?_⟩
            · rw [ok.bound, sized.1, sized.2]
              omega
            · rw [sized.1, settles]
              omega
        · next dense =>
            have double : 2 ^ (exponent + 1) = 2 * 2 ^ exponent := by
              rw [Nat.pow_succ]
              omega
            have below : exponent ≤ 30 := by
              by_contra over_
              have isLast : exponent = 31 := by omega
              rw [isLast] at dense
              omega
            have settles := settled_double exponent below large
            obtain ⟨after, runs, ok, size, same, sized⟩ :=
              @Valid.khResize _ _ valid _ (exponent + 1) (by omega) (by omega)
                settles
            have roomy : ¬upper (settled (2 ^ exponent + 1)) ≤ h.size := by
              rw [settles, double]
              unfold upper at bound ⊢
              omega
            rw [if_neg roomy] at sized
            refine ⟨after, runs, ok, size, same, ?_, ?_⟩
            · rw [ok.bound, sized.1, sized.2]
              omega
            · rw [sized.1, settles]
              omega
  · next roomy =>
      refine ⟨h, rfl, valid, rfl, fun _ _ => Iff.rfl, by omega, fun isZero => ?_⟩
      rw [isZero] at bound
      have isBound : h.upperBound = 0 := bound
      omega

end Resize

end Khash

end SimpleCache
