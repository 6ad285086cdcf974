import SimpleCache.Khash

/-!
# Valid hash tables

A table counts its buckets, keeps one bucket for each key, and reaches every
key from its hash before an empty bucket.  It is never full, so that every
search ends.
-/

namespace SimpleCache

namespace Khash

variable {Value : Type}

/-- The buckets that a search for a key walks through. -/
def probe (buckets : Nat) (key : UInt32) (step : Nat) : Nat :=
  Triangular.walk (buckets - 1) (key.toNat &&& (buckets - 1)) step

/-- A search for a key comes to a bucket before it comes to an empty one. -/
def Reaches (flags : Flags) (buckets : Nat) (key : UInt32) (i : Nat) : Prop :=
  ∃ step < buckets, probe buckets key step = i ∧
    ∀ earlier < step, isEmpty flags (probe buckets key earlier) = false

section Probes

variable {exponent buckets : Nat} {key : UInt32}

theorem home_lt (isPower : buckets = 2 ^ exponent) :
    key.toNat &&& (buckets - 1) < buckets := by
  rw [isPower, Nat.and_two_pow_sub_one_eq_mod]
  exact Nat.mod_lt _ (Nat.two_pow_pos exponent)

theorem probe_lt (isPower : buckets = 2 ^ exponent) (step : Nat) :
    probe buckets key step < buckets := by
  have inRange := @home_lt exponent buckets key isPower
  unfold probe
  subst isPower
  exact Triangular.walk_lt inRange step

theorem exists_probe (isPower : buckets = 2 ^ exponent) {i : Nat}
    (inTable : i < buckets) : ∃ step < buckets, probe buckets key step = i := by
  have inRange := @home_lt exponent buckets key isPower
  unfold probe
  subst isPower
  exact Triangular.exists_walk inRange inTable

/-- A walk is not back at its start before it has met every bucket. -/
theorem probe_ne_home (isPower : buckets = 2 ^ exponent) {step : Nat}
    (positive : 0 < step) (inTable : step < buckets) :
    probe buckets key step ≠ probe buckets key 0 := by
  have inRange := @home_lt exponent buckets key isPower
  intro same
  unfold probe at same
  subst isPower
  have isZero := Triangular.walk_injective inRange inTable
    (Nat.two_pow_pos exponent) same
  omega

theorem probe_succ (step : Nat) :
    probe buckets key (step + 1) =
      (probe buckets key step + (step + 1)) &&& (buckets - 1) := rfl

/-- The first bucket of a walk at which something holds. -/
theorem exists_first {holds : Nat → Prop}
    (met : ∃ step < buckets, holds (probe buckets key step)) :
    ∃ step < buckets, holds (probe buckets key step) ∧
      ∀ earlier < step, ¬holds (probe buckets key earlier) := by
  classical
  have found : ∃ step, holds (probe buckets key step) := by
    obtain ⟨step, -, here⟩ := met
    exact ⟨step, here⟩
  obtain ⟨step, inTable, here⟩ := met
  exact ⟨Nat.find found, (Nat.find_min' found here).trans_lt inTable,
    Nat.find_spec found, fun earlier less => Nat.find_min found less⟩

/-- Filling a bucket leaves nothing unreachable. -/
theorem Reaches.mono {flags after : Flags} {i : Nat}
    (reaches : Reaches flags buckets key i)
    (filled : ∀ j, isEmpty flags j = false → isEmpty after j = false) :
    Reaches after buckets key i := by
  obtain ⟨step, inTable, here, passed⟩ := reaches
  exact ⟨step, inTable, here, fun earlier less =>
    filled _ (passed earlier less)⟩

end Probes

/-- Buckets with a key. -/
def live (flags : Flags) (buckets : Nat) : Finset Nat :=
  (Finset.range buckets).filter fun i => isEither flags i = false

/-- Buckets that are not empty. -/
def taken (flags : Flags) (buckets : Nat) : Finset Nat :=
  (Finset.range buckets).filter fun i => isEmpty flags i = false

section Counts

variable {flags : Flags} {buckets i j : Nat}

theorem mem_live :
    i ∈ live flags buckets ↔ i < buckets ∧ isEither flags i = false := by
  unfold live
  rw [Finset.mem_filter, Finset.mem_range]

theorem mem_taken :
    i ∈ taken flags buckets ↔ i < buckets ∧ isEmpty flags i = false := by
  unfold taken
  rw [Finset.mem_filter, Finset.mem_range]

theorem isEither_eq_false :
    isEither flags i = false ↔ isEmpty flags i = false ∧
      isDel flags i = false := by
  rw [isEither_eq, Bool.or_eq_false_iff]

theorem live_subset : live flags buckets ⊆ taken flags buckets := by
  intro i member
  rw [mem_live, isEither_eq_false] at member
  exact mem_taken.mpr ⟨member.1, member.2.1⟩

theorem taken_setIsBothFalse (inTable : i < buckets) :
    taken (setIsBothFalse flags i) buckets = insert i (taken flags buckets) := by
  ext j
  rw [Finset.mem_insert, mem_taken, mem_taken, isEmpty_setIsBothFalse,
    Bool.and_eq_false_iff, decide_eq_false_iff_not, not_not]
  constructor
  · rintro ⟨inside, set | rfl⟩
    · exact Or.inr ⟨inside, set⟩
    · exact Or.inl rfl
  · rintro (rfl | ⟨inside, set⟩)
    · exact ⟨inTable, Or.inr rfl⟩
    · exact ⟨inside, Or.inl set⟩

theorem live_setIsBothFalse (inTable : i < buckets) :
    live (setIsBothFalse flags i) buckets = insert i (live flags buckets) := by
  ext j
  rw [Finset.mem_insert, mem_live, mem_live, isEither_eq_false,
    isEither_eq_false, isEmpty_setIsBothFalse, isDel_setIsBothFalse,
    Bool.and_eq_false_iff, Bool.and_eq_false_iff, decide_eq_false_iff_not,
    not_not]
  constructor
  · rintro ⟨inside, empty, deleted⟩
    by_cases same : j = i
    · exact Or.inl same
    · exact Or.inr ⟨inside, empty.resolve_right same,
        deleted.resolve_right same⟩
  · rintro (rfl | ⟨inside, empty, deleted⟩)
    · exact ⟨inTable, Or.inr rfl, Or.inr rfl⟩
    · exact ⟨inside, Or.inl empty, Or.inl deleted⟩

theorem taken_setIsDelTrue :
    taken (setIsDelTrue flags i) buckets = taken flags buckets := by
  ext j
  rw [mem_taken, mem_taken, isEmpty_setIsDelTrue]

theorem live_setIsDelTrue :
    live (setIsDelTrue flags i) buckets = (live flags buckets).erase i := by
  ext j
  rw [Finset.mem_erase, mem_live, mem_live, isEither_eq_false,
    isEither_eq_false, isEmpty_setIsDelTrue, isDel_setIsDelTrue,
    Bool.or_eq_false_iff, decide_eq_false_iff_not]
  constructor
  · rintro ⟨inside, empty, deleted, other⟩
    exact ⟨other, inside, empty, deleted⟩
  · rintro ⟨other, inside, empty, deleted⟩
    exact ⟨inside, empty, deleted, other⟩

/-- A table that is not full has an empty bucket. -/
theorem exists_empty (room : (taken flags buckets).card < buckets) :
    ∃ i < buckets, isEmpty flags i = true := by
  by_contra none_
  have all : taken flags buckets = Finset.range buckets := by
    ext i
    rw [mem_taken, Finset.mem_range]
    refine ⟨And.left, fun inTable => ⟨inTable, ?_⟩⟩
    rw [← Bool.not_eq_true]
    exact fun empty => none_ ⟨i, inTable, empty⟩
  rw [all, Finset.card_range] at room
  exact Nat.lt_irrefl _ room

end Counts

structure Valid (h : Table Value) : Prop where
  buckets : h.nBuckets = 0 ∨
    ∃ exponent, 2 ≤ exponent ∧ exponent ≤ 31 ∧ h.nBuckets = 2 ^ exponent
  bound : h.upperBound = upper h.nBuckets
  size : h.size = (live h.flags h.nBuckets).card
  occupied : h.nOccupied = (taken h.flags h.nBuckets).card
  load : h.nOccupied ≤ h.upperBound
  distinct : ∀ i ∈ live h.flags h.nBuckets, ∀ j ∈ live h.flags h.nBuckets,
    h.keys i = h.keys j → i = j
  reached : ∀ i ∈ live h.flags h.nBuckets,
    Reaches h.flags h.nBuckets (h.keys i) i

/-- A bucket holds a key. -/
def At (h : Table Value) (key : UInt32) (i : Nat) : Prop :=
  i ∈ live h.flags h.nBuckets ∧ h.keys i = key

section Search

variable {h : Table Value} {key : UInt32} {i : Nat}

theorem valid_khInit [Inhabited Value] : Valid (khInit : Table Value) where
  buckets := Or.inl rfl
  bound := (by decide : 0 = upper 0)
  size := rfl
  occupied := rfl
  load := le_rfl
  distinct := fun i member => absurd (mem_live.mp member).1 (Nat.not_lt_zero i)
  reached := fun i member => absurd (mem_live.mp member).1 (Nat.not_lt_zero i)

theorem Valid.at_unique (valid : Valid h) {j : Nat} (first : At h key i)
    (second : At h key j) : i = j :=
  valid.distinct i first.1 j second.1 (first.2.trans second.2.symm)

theorem upper_lt {exponent : Nat} (large : 2 ≤ exponent) :
    upper (2 ^ exponent) < 2 ^ exponent := by
  have four : 2 ^ 2 ≤ 2 ^ exponent := Nat.pow_le_pow_right (by omega) large
  unfold upper
  omega

/-- At least one bucket is empty. -/
theorem Valid.room (valid : Valid h) (some_ : h.nBuckets ≠ 0) :
    (taken h.flags h.nBuckets).card < h.nBuckets := by
  obtain none_ | ⟨exponent, large, -, isPower⟩ := valid.buckets
  · exact absurd none_ some_
  · have less := upper_lt large
    rw [← valid.occupied]
    have load := valid.load
    rw [valid.bound, isPower] at load
    rw [isPower]
    omega

/-- Where a search for a key stops. -/
def Stops (h : Table Value) (key : UInt32) (i : Nat) : Prop :=
  isEmpty h.flags i = true ∨ isDel h.flags i = false ∧ h.keys i = key

theorem stops_iff :
    Stops h key i ↔ ¬(isEmpty h.flags i = false ∧
      (isDel h.flags i = true ∨ h.keys i ≠ key)) := by
  unfold Stops
  rw [not_and_or, not_or, Bool.not_eq_false, Bool.not_eq_true, not_not]

/-- Every search stops, before it is back at its start. -/
theorem Valid.stops (valid : Valid h) (some_ : h.nBuckets ≠ 0)
    (key : UInt32) :
    ∃ step < h.nBuckets, Stops h key (probe h.nBuckets key step) ∧
      ∀ earlier < step, ¬Stops h key (probe h.nBuckets key earlier) := by
  obtain none_ | ⟨exponent, -, -, isPower⟩ := valid.buckets
  · exact absurd none_ some_
  · obtain ⟨i, inTable, empty⟩ := exists_empty (valid.room some_)
    obtain ⟨step, inSteps, here⟩ := @exists_probe exponent _ key isPower i inTable
    refine exists_first ⟨step, inSteps, ?_⟩
    rw [here]
    exact Or.inl empty

/-- The loop of `kh_get` runs to the first bucket where it stops. -/
theorem getLoop_eq {exponent step : Nat}
    (isPower : h.nBuckets = 2 ^ exponent) (inTable : step < h.nBuckets)
    (stops : Stops h key (probe h.nBuckets key step))
    (passed : ∀ earlier < step, ¬Stops h key (probe h.nBuckets key earlier)) :
    ∀ rounds start, start ≤ step → step < start + rounds →
      getLoop h key (h.nBuckets - 1) (probe h.nBuckets key 0) rounds
        (probe h.nBuckets key start) start =
          .ok (if isEither h.flags (probe h.nBuckets key step) then h.nBuckets
            else probe h.nBuckets key step) := by
  intro rounds
  induction rounds with
  | zero =>
      intro start le less
      omega
  | succ rounds ih =>
      intro start le less
      unfold getLoop
      by_cases atEnd : start = step
      · subst atEnd
        rw [if_neg (stops_iff.mp stops)]
        rfl
      · have on := passed start (by omega)
        rw [stops_iff, not_not] at on
        have notHome := @probe_ne_home exponent _ key isPower (start + 1)
          (by omega) (by omega)
        rw [if_pos on, ← probe_succ, if_neg notHome]
        exact ih (start + 1) (by omega) (by omega)

/-- A search that has passed nothing empty would have stopped at the key. -/
theorem Valid.stops_at (valid : Valid h) (holds : At h key i) {step : Nat}
    (stops : Stops h key (probe h.nBuckets key step))
    (inTable : probe h.nBuckets key step < h.nBuckets)
    (passed : ∀ earlier < step, ¬Stops h key (probe h.nBuckets key earlier)) :
    probe h.nBuckets key step = i := by
  obtain ⟨member, isKey⟩ := holds
  obtain ⟨inRange, either⟩ := mem_live.mp member
  obtain ⟨full, kept⟩ := isEither_eq_false.mp either
  obtain ⟨reach, -, here, nonempty⟩ := valid.reached i member
  rw [isKey] at here nonempty
  rcases Nat.lt_trichotomy step reach with before | equal | behind
  · have nonempty := nonempty step before
    rcases stops with empty | ⟨undeleted, sameKey⟩
    · rw [nonempty] at empty
      cases empty
    · refine valid.distinct _ ?_ i member (sameKey.trans isKey.symm)
      exact mem_live.mpr ⟨inTable, isEither_eq_false.mpr
        ⟨nonempty, undeleted⟩⟩
  · rw [equal, here]
  · refine absurd (Or.inr ⟨?_, ?_⟩) (passed reach behind)
    · rw [here]
      exact kept
    · rw [here]
      exact isKey

/-- A search that stops at no key shows that it is in no bucket. -/
theorem Valid.absent (valid : Valid h) {step : Nat}
    (stops : Stops h key (probe h.nBuckets key step))
    (inTable : probe h.nBuckets key step < h.nBuckets)
    (passed : ∀ earlier < step, ¬Stops h key (probe h.nBuckets key earlier))
    (either : isEither h.flags (probe h.nBuckets key step) = true) :
    ∀ i, ¬At h key i := by
  intro i holds
  have kept := (mem_live.mp holds.1).2
  rw [← valid.stops_at holds stops inTable passed, either] at kept
  cases kept

/-- `kh_get` returns the bucket of a key, or the number of buckets when the key
is in none. -/
theorem Valid.khGet (valid : Valid h) (key : UInt32) :
    (∃ i, At h key i ∧ khGet h key = .ok i) ∨
      (∀ i, ¬At h key i) ∧ khGet h key = .ok h.nBuckets := by
  by_cases none_ : h.nBuckets = 0
  · refine Or.inr ⟨fun i holds => ?_, ?_⟩
    · have inTable := (mem_live.mp holds.1).1
      omega
    · unfold Khash.khGet
      rw [if_neg (not_not.mpr none_), none_]
      rfl
  · obtain isZero | ⟨exponent, -, -, isPower⟩ := valid.buckets
    · exact absurd isZero none_
    · obtain ⟨step, inTable, stops, passed⟩ := valid.stops none_ key
      have found := getLoop_eq isPower inTable stops passed (2 * h.nBuckets) 0
        (Nat.zero_le _) (by omega)
      have gets : Khash.khGet h key = .ok
          (if isEither h.flags (probe h.nBuckets key step) then h.nBuckets
            else probe h.nBuckets key step) := by
        unfold Khash.khGet
        rw [if_pos none_]
        exact found
      have inside := @probe_lt exponent _ key isPower step
      rw [gets]
      cases either : isEither h.flags (probe h.nBuckets key step) with
      | false =>
          left
          have member := mem_live.mpr ⟨inside, either⟩
          obtain ⟨full, kept⟩ := isEither_eq_false.mp either
          refine ⟨_, ⟨member, ?_⟩, rfl⟩
          rcases stops with empty | ⟨-, isKey⟩
          · rw [full] at empty
            cases empty
          · exact isKey
      | true => exact Or.inr ⟨valid.absent stops inside passed either, rfl⟩

theorem nonempty_of_not_stops (on : ¬Stops h key i) :
    isEmpty h.flags i = false := by
  rw [← Bool.not_eq_true]
  exact fun empty => on (Or.inl empty)

/-- The loop of `kh_put` runs to the same bucket and remembers a deleted one. -/
theorem putLoop_eq {exponent step : Nat}
    (isPower : h.nBuckets = 2 ^ exponent) (inTable : step < h.nBuckets)
    (stops : Stops h key (probe h.nBuckets key step))
    (passed : ∀ earlier < step, ¬Stops h key (probe h.nBuckets key earlier)) :
    ∀ rounds start site, start ≤ step → step < start + rounds →
      ∃ last, putLoop h key (h.nBuckets - 1) (probe h.nBuckets key 0) rounds
        (probe h.nBuckets key start) start site =
          .ok (probe h.nBuckets key step, last, false) ∧
        (last = site ∨ ∃ earlier < step,
          last = probe h.nBuckets key earlier ∧ isDel h.flags last = true) := by
  intro rounds
  induction rounds with
  | zero =>
      intro start site le less
      omega
  | succ rounds ih =>
      intro start site le less
      unfold putLoop
      by_cases atEnd : start = step
      · subst atEnd
        rw [if_neg (stops_iff.mp stops)]
        exact ⟨site, rfl, Or.inl rfl⟩
      · have on := passed start (by omega)
        rw [stops_iff, not_not] at on
        have notHome := @probe_ne_home exponent _ key isPower (start + 1)
          (by omega) (by omega)
        rw [if_pos on]
        dsimp only
        rw [← probe_succ, if_neg notHome]
        obtain ⟨last, runs, isLast⟩ := ih (start + 1)
          (if isDel h.flags (probe h.nBuckets key start) then
            probe h.nBuckets key start else site) (by omega) (by omega)
        refine ⟨last, runs, ?_⟩
        rcases isLast with same | later
        · cases deleted : isDel h.flags (probe h.nBuckets key start) with
          | false =>
              rw [deleted] at same
              exact Or.inl same
          | true =>
              rw [deleted] at same
              have here : last = probe h.nBuckets key start := same
              exact Or.inr ⟨start, by omega, here, by rw [here]; exact deleted⟩
        · exact Or.inr later

/-- `kh_put` decides on the bucket of the key, or on a free one that a search
for the key comes to. -/
theorem Valid.putBucket (valid : Valid h) (some_ : h.nBuckets ≠ 0)
    (key : UInt32) :
    ∃ x, putBucket h key = .ok x ∧ x < h.nBuckets ∧
      (At h key x ∨ (∀ i, ¬At h key i) ∧ isEither h.flags x = true ∧
        Reaches h.flags h.nBuckets key x) := by
  obtain isZero | ⟨exponent, -, -, isPower⟩ := valid.buckets
  · exact absurd isZero some_
  · obtain ⟨step, inTable, stops, passed⟩ := valid.stops some_ key
    have inside := fun step => @probe_lt exponent _ key isPower step
    have nonempty : ∀ earlier < step,
        isEmpty h.flags (probe h.nBuckets key earlier) = false :=
      fun earlier less => nonempty_of_not_stops (passed earlier less)
    unfold Khash.putBucket
    dsimp only
    have isHome : key.toNat &&& (h.nBuckets - 1) = probe h.nBuckets key 0 := rfl
    rw [isHome]
    by_cases first : isEmpty h.flags (probe h.nBuckets key 0) = true
    · -- the shortcut: the walk stops where it starts
      rw [if_pos first]
      obtain rfl : step = 0 := by
        by_contra later
        have other := nonempty 0 (by omega)
        rw [first] at other
        cases other
      have either : isEither h.flags (probe h.nBuckets key 0) = true := by
        rw [isEither_eq, first, Bool.true_or]
      exact ⟨_, rfl, inside 0, Or.inr
        ⟨valid.absent stops (inside 0) passed either, either, 0, inTable, rfl,
          nonempty⟩⟩
    · obtain ⟨last, runs, isLast⟩ := putLoop_eq isPower inTable stops passed
        (2 * h.nBuckets) 0 h.nBuckets (Nat.zero_le _) (by omega)
      rw [if_neg first, runs, ok_bind]
      dsimp only
      rw [if_neg Bool.false_ne_true, if_pos rfl]
      refine ⟨_, rfl, ?_⟩
      by_cases empty : isEmpty h.flags (probe h.nBuckets key step) = true
      · have either : isEither h.flags (probe h.nBuckets key step) = true := by
          rw [isEither_eq, empty, Bool.true_or]
        have absent := valid.absent stops (inside step) passed either
        rcases isLast with none_ | ⟨earlier, less, here, deleted⟩
        · rw [if_neg (fun both => both.2 none_)]
          exact ⟨inside step, Or.inr ⟨absent, either, step, inTable, rfl,
            nonempty⟩⟩
        · have below : last < h.nBuckets := by
            rw [here]
            exact inside earlier
          rw [if_pos ⟨empty, Nat.ne_of_lt below⟩]
          refine ⟨below, Or.inr ⟨absent, ?_, earlier, by omega, here.symm,
            fun before lower => nonempty before (by omega)⟩⟩
          rw [isEither_eq, deleted, Bool.or_true]
      · rw [if_neg (fun both => empty both.1)]
        refine ⟨inside step, Or.inl ?_⟩
        obtain ⟨undeleted, isKey⟩ := stops.resolve_left empty
        exact ⟨mem_live.mpr ⟨inside step, isEither_eq_false.mpr
          ⟨Bool.eq_false_of_not_eq_true empty, undeleted⟩⟩, isKey⟩

/-- A key gets a free bucket that a search for it comes to. -/
theorem Valid.fill (valid : Valid h) {x occupied : Nat} (inTable : x < h.nBuckets)
    (absent : ∀ i, ¬At h key i) (either : isEither h.flags x = true)
    (reaches : Reaches h.flags h.nBuckets key x)
    (counted : occupied = (insert x (taken h.flags h.nBuckets)).card)
    (load : occupied ≤ h.upperBound) :
    Valid { h with
      keys := Function.update h.keys x key
      flags := setIsBothFalse h.flags x
      size := h.size + 1
      nOccupied := occupied } := by
  have free : x ∉ live h.flags h.nBuckets := by
    intro member
    rw [(mem_live.mp member).2] at either
    cases either
  have filled : ∀ j, isEmpty h.flags j = false →
      isEmpty (setIsBothFalse h.flags x) j = false := by
    intro j full
    rw [isEmpty_setIsBothFalse, full, Bool.false_and]
  have others : ∀ {i}, i ∈ live h.flags h.nBuckets → i ≠ x :=
    fun member same => free (same ▸ member)
  constructor
  · exact valid.buckets
  · exact valid.bound
  · dsimp only
    rw [live_setIsBothFalse inTable, Finset.card_insert_of_notMem free,
      valid.size]
  · dsimp only
    rw [taken_setIsBothFalse inTable, counted]
  · exact load
  · dsimp only
    rw [live_setIsBothFalse inTable]
    intro i first j second same
    rcases Finset.mem_insert.mp first with rfl | older
    · rcases Finset.mem_insert.mp second with rfl | old
      · rfl
      · rw [Function.update_self, Function.update_of_ne (others old)] at same
        exact absurd ⟨old, same.symm⟩ (absent j)
    · rcases Finset.mem_insert.mp second with rfl | old
      · rw [Function.update_self, Function.update_of_ne (others older)] at same
        exact absurd ⟨older, same⟩ (absent i)
      · rw [Function.update_of_ne (others older),
          Function.update_of_ne (others old)] at same
        exact valid.distinct i older j old same
  · dsimp only
    rw [live_setIsBothFalse inTable]
    intro i member
    rcases Finset.mem_insert.mp member with rfl | member
    · rw [Function.update_self]
      exact reaches.mono filled
    · rw [Function.update_of_ne (others member)]
      exact (valid.reached i member).mono filled

/-- What a table with a new key holds. -/
theorem at_fill {x occupied : Nat} (inTable : x < h.nBuckets)
    (either : isEither h.flags x = true) {other : UInt32} :
    At { h with
      keys := Function.update h.keys x key
      flags := setIsBothFalse h.flags x
      size := h.size + 1
      nOccupied := occupied } other i ↔
        i = x ∧ other = key ∨ At h other i := by
  unfold At
  dsimp only
  rw [live_setIsBothFalse inTable, Finset.mem_insert]
  constructor
  · rintro ⟨rfl | member, isKey⟩
    · rw [Function.update_self] at isKey
      exact Or.inl ⟨rfl, isKey.symm⟩
    · have apart : i ≠ x := by
        rintro rfl
        rw [(mem_live.mp member).2] at either
        cases either
      rw [Function.update_of_ne apart] at isKey
      exact Or.inr ⟨member, isKey⟩
  · rintro (⟨rfl, rfl⟩ | ⟨member, isKey⟩)
    · exact ⟨Or.inl rfl, Function.update_self ..⟩
    · have apart : i ≠ x := by
        rintro rfl
        rw [(mem_live.mp member).2] at either
        cases either
      rw [Function.update_of_ne apart]
      exact ⟨Or.inr member, isKey⟩

/-- `kh_put` takes a bucket in a table with room. -/
theorem Valid.claim (valid : Valid h) (room : h.nOccupied < h.upperBound)
    {x : Nat} (inTable : x < h.nBuckets)
    (isBucket : At h key x ∨ (∀ i, ¬At h key i) ∧ isEither h.flags x = true ∧
      Reaches h.flags h.nBuckets key x) :
    Valid (claim h key x).1 ∧ (claim h key x).1.nBuckets = h.nBuckets ∧
      (claim h key x).1.vals = h.vals ∧ (claim h key x).1.size ≤ h.size + 1 ∧
      ∀ other i, At (claim h key x).1 other i ↔
        i = x ∧ other = key ∨ At h other i := by
  unfold Khash.claim
  rcases isBucket with holds | ⟨absent, either, reaches⟩
  · obtain ⟨full, kept⟩ := isEither_eq_false.mp (mem_live.mp holds.1).2
    rw [if_neg (by rw [full]; decide), if_neg (by rw [kept]; decide)]
    refine ⟨valid, rfl, rfl, Nat.le_succ _, fun other i => ⟨Or.inr, ?_⟩⟩
    rintro (⟨rfl, rfl⟩ | there)
    · exact holds
    · exact there
  · split
    · next empty =>
        have new : x ∉ taken h.flags h.nBuckets := by
          intro member
          rw [(mem_taken.mp member).2] at empty
          cases empty
        refine ⟨valid.fill inTable absent either reaches ?_ room, rfl, rfl,
          le_rfl, fun other i => at_fill inTable either⟩
        rw [Finset.card_insert_of_notMem new, valid.occupied]
    · next full =>
        have deleted : isDel h.flags x = true := by
          rw [isEither_eq, Bool.eq_false_of_not_eq_true full,
            Bool.false_or] at either
          exact either
        have old : x ∈ taken h.flags h.nBuckets :=
          mem_taken.mpr ⟨inTable, Bool.eq_false_of_not_eq_true full⟩
        rw [if_pos deleted]
        refine ⟨valid.fill inTable absent either reaches ?_ room.le, rfl, rfl,
          le_rfl, fun other i => at_fill inTable either⟩
        rw [Finset.insert_eq_of_mem old, valid.occupied]

/-- `kh_del` empties the bucket of a key and no other. -/
theorem Valid.khDel (valid : Valid h) {x : Nat} (le : x ≤ h.nBuckets) :
    Valid (khDel h x) ∧ (khDel h x).nBuckets = h.nBuckets ∧
      (khDel h x).vals = h.vals ∧ (khDel h x).size ≤ h.size ∧
      ∀ other i, i < h.nBuckets →
        (At (khDel h x) other i ↔ At h other i ∧ i ≠ x) := by
  unfold Khash.khDel
  split
  · next here =>
      refine ⟨⟨valid.buckets, valid.bound, ?_, ?_, valid.load, ?_, ?_⟩, rfl,
        rfl, Nat.sub_le _ _, fun other i inTable => ?_⟩
      · have member : x ∈ live h.flags h.nBuckets :=
          mem_live.mpr ⟨Nat.lt_of_le_of_ne le here.1, here.2⟩
        dsimp only
        rw [live_setIsDelTrue, Finset.card_erase_of_mem member, valid.size]
      · dsimp only
        rw [taken_setIsDelTrue, valid.occupied]
      · dsimp only
        rw [live_setIsDelTrue]
        intro i first j second same
        exact valid.distinct i (Finset.mem_of_mem_erase first) j
          (Finset.mem_of_mem_erase second) same
      · dsimp only
        rw [live_setIsDelTrue]
        intro i member
        refine (valid.reached i (Finset.mem_of_mem_erase member)).mono ?_
        intro j full
        rw [isEmpty_setIsDelTrue, full]
      · unfold At
        dsimp only
        rw [live_setIsDelTrue, Finset.mem_erase]
        tauto
  · next not_ =>
      refine ⟨valid, rfl, rfl, le_rfl, fun other i inTable =>
        ⟨fun holds => ⟨holds, ?_⟩, And.left⟩⟩
      rintro rfl
      exact not_ ⟨Nat.ne_of_lt inTable, (mem_live.mp holds.1).2⟩

end Search

end Khash

end SimpleCache
