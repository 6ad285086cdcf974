import SimpleCache.Responses
import SimpleCache.Library.BucketList

/-!
# Listings

A listing walks down the buckets of a table, one stored key with every call
of `http_respond_listing`.  Here is which buckets the calls look at and which
keys they put out, until the connection closes.
-/

namespace SimpleCache

section Calls

variable {kh : KHash}

/-- The buckets that the loop of one call looks at. -/
def scanned (set : kh.Map) : (limit : Nat) → (index : Int) → List Int
  | limit, index =>
      if index < 0 ∨ flagsLength set ≤ index then [index]
      else
        index ::
          match kh.value set index.toNat with
          | some _ => []
          | none =>
              match limit with
              | 0 => []
              | limit + 1 => scanned set limit (index - 1)

/-- The buckets that calls look at, and those whose keys they put out. -/
structure Listing where
  inspected : List Int
  output : List Nat
  closed : Bool

/-- Call `http_respond_listing` until it closes the connection, at most
`calls` times.  A bucket outside the array ends the listing as well. -/
def listing (set : kh.Map) : (calls start limit : Nat) → Listing
  | 0, _, _ => ⟨[], [], false⟩
  | calls + 1, start, limit =>
      let (start, limit) := listingRange set start limit
      if limit = 0 then ⟨[], [], true⟩
      else
        let index := i32 (u32 (limit + start))
        let inspected := scanned set limit index
        match listingScan set limit index with
        | .error _ => ⟨inspected, [], true⟩
        | .ok (_, none) => ⟨inspected, [], true⟩
        | .ok (left, some _) =>
            let bucket := (index - limit + left).toNat
            if left = 0 then ⟨inspected, [bucket], true⟩
            else
              let rest := listing set calls start (left - 1)
              ⟨inspected ++ rest.inspected, bucket :: rest.output, rest.closed⟩

/-- One call on a connection does what one round of a listing does. -/
theorem httpRespondListing_eq {session : Session kh} {table : Nat}
    {set : kh.Map} (opened : keyMap session.db table = .ok set) :
    httpRespondListing session table =
      let (start, limit) :=
        listingRange set session.connection.start session.connection.limit
      if limit = 0 then
        closeConnection
          { session with connection := setListing session.connection start 0 }
      else
        match listingScan set limit (i32 (u32 (limit + start))) with
        | .error fault => .error fault
        | .ok (left, none) =>
            closeConnection
              { session with
                connection := setListing session.connection start (left - 1) }
        | .ok (left, some entry) =>
            .ok (Session.queue
              { session with
                connection := setListing session.connection start (left - 1) }
              (.key ((session.db.entry.key entry).take
                (session.db.entry.keyLength entry)))
              (if left = 0 then .respondCloseConnection
                else .respondListingSeparator)) := by
  unfold httpRespondListing
  rw [opened]
  simp only [bind, Except.bind]
  split
  · rfl
  · split
    · next failed => rw [failed]
    · next value found =>
        rw [found]
        obtain ⟨left, entry⟩ := value
        cases entry <;> rfl

end Calls

section Walk

variable {kh : KHash} {set : kh.Map} {start limit : Nat}

theorem endIndex_le_flagsLength (set : kh.Map) :
    kh.endIndex set ≤ flagsLength set := by
  unfold flagsLength
  split <;> omega

theorem head_scanned (set : kh.Map) (limit : Nat) (index : Int) :
    index ∈ scanned set limit index := by
  unfold scanned
  split
  · exact List.mem_singleton.mpr rfl
  · exact List.mem_cons_self

/-- The loop walks down to a key, or over all its buckets. -/
theorem listingScan_inside (inside : start + limit < kh.endIndex set) :
    ∃ left ≤ limit,
      listingScan set limit (start + limit : Nat) =
        .ok (left, kh.value set (start + left)) ∧
      (∀ index ∈ scanned set limit (start + limit : Nat), ∃ bucket : Nat,
        index = bucket ∧ start ≤ bucket ∧ bucket ≤ start + limit) ∧
      (∀ bucket, start + left < bucket → bucket ≤ start + limit →
        kh.value set bucket = none) ∧
      (kh.value set (start + left) = none → left = 0) := by
  have flags := endIndex_le_flagsLength set
  induction limit with
  | zero =>
      refine ⟨0, le_rfl, ?_, ?_, fun bucket above below => by omega,
        fun _ => rfl⟩
      · unfold listingScan
        rw [if_neg (by omega), Int.toNat_natCast, Nat.add_zero]
        cases kh.value set start <;> rfl
      · intro index member
        unfold scanned at member
        rw [if_neg (by omega)] at member
        have isIndex : index = (start + 0 : Nat) := by
          rcases List.mem_cons.mp member with same | rest
          · exact same
          · revert rest
            split <;> exact fun rest => absurd rest List.not_mem_nil
        exact ⟨start + 0, isIndex, by omega, le_rfl⟩
  | succ limit ih =>
      have below : ((start + (limit + 1) : Nat) : Int) - 1 =
          (start + limit : Nat) := by omega
      unfold listingScan scanned
      rw [if_neg (by omega), if_neg (by omega), Int.toNat_natCast]
      cases found : kh.value set (start + (limit + 1)) with
      | some entry =>
          refine ⟨limit + 1, le_rfl, ?_, ?_, fun bucket above below => by omega,
            fun none_ => ?_⟩
          · rw [found]
          · intro index member
            obtain rfl := List.mem_singleton.mp member
            exact ⟨_, rfl, by omega, le_rfl⟩
          · rw [found] at none_
            simp at none_
      | none =>
          obtain ⟨left, le, scan, cells, empty, last⟩ := ih (by omega)
          dsimp only
          rw [below, scan]
          refine ⟨left, by omega, rfl, ?_, ?_, last⟩
          · intro index member
            rcases List.mem_cons.mp member with rfl | rest
            · exact ⟨_, rfl, by omega, le_rfl⟩
            · obtain ⟨bucket, isBucket, above, atMost⟩ := cells index rest
              exact ⟨bucket, isBucket, above, by omega⟩
          · intro bucket above atMost
            by_cases top : bucket = start + (limit + 1)
            · rw [top]
              exact found
            · exact empty bucket above (by omega)

/-- What a listing does within the buckets of the table. -/
structure Walks (set : kh.Map) (calls start limit : Nat) : Prop where
  inspected : ∀ index ∈ (listing set calls start limit).inspected,
    ∃ bucket : Nat, index = bucket ∧ start ≤ bucket ∧ bucket ≤ start + limit
  few : (listing set calls start limit).output.length ≤ limit
  down : (listing set calls start limit).output.Pairwise (· > ·)
  stored : ∀ bucket ∈ (listing set calls start limit).output,
    start ≤ bucket ∧ bucket ≤ start + limit ∧
      ∃ entry, kh.value set bucket = some entry
  first : start ∈ (listing set calls start limit).output →
    0 < limit ∧ kh.value set (start + 1) = none
  complete : (listing set calls start limit).closed = true →
    ∀ bucket entry, kh.value set bucket = some entry →
      start ≤ bucket → bucket ≤ start + limit →
        start < bucket ∨ 0 < limit ∧ kh.value set (start + 1) = none →
          bucket ∈ (listing set calls start limit).output
  closes : limit < calls → (listing set calls start limit).closed = true

/-- A range within the buckets is not cut. -/
theorem listingRange_inside (small : kh.endIndex set ≤ 2147483648)
    (inside : start + limit < kh.endIndex set) :
    listingRange set start limit = (start, limit) := by
  unfold listingRange
  rw [if_neg (by omega), if_neg]
  unfold u32
  omega

theorem i32_sum (small : start + limit < 2147483648) :
    i32 (u32 (limit + start)) = (start + limit : Nat) := by
  unfold i32 u32
  split <;> omega

/-- One call within the buckets. -/
theorem listing_succ (small : kh.endIndex set ≤ 2147483648) (calls : Nat)
    (inside : start + limit < kh.endIndex set) (nonzero : limit ≠ 0) {left : Nat}
    (scan : listingScan set limit (start + limit : Nat) =
      .ok (left, kh.value set (start + left))) :
    listing set (calls + 1) start limit =
      match kh.value set (start + left) with
      | none => ⟨scanned set limit (start + limit : Nat), [], true⟩
      | some _ =>
          if left = 0 then
            ⟨scanned set limit (start + limit : Nat), [start + left], true⟩
          else
            let rest := listing set calls start (left - 1)
            ⟨scanned set limit (start + limit : Nat) ++ rest.inspected,
              (start + left) :: rest.output, rest.closed⟩ := by
  have place : ((start + limit : Nat) : Int) - limit + left =
      (start + left : Nat) := by omega
  conv_lhs => unfold listing
  rw [listingRange_inside small inside]
  dsimp only
  rw [if_neg nonzero, i32_sum (by omega), scan]
  cases kh.value set (start + left) with
  | none => rfl
  | some entry =>
      dsimp only
      rw [place, Int.toNat_natCast]

theorem listing_walks (small : kh.endIndex set ≤ 2147483648) (calls : Nat)
    (inside : start + limit < kh.endIndex set) :
    Walks set calls start limit := by
  induction calls generalizing limit with
  | zero =>
      exact {
        inspected := fun _ member => absurd member List.not_mem_nil
        few := Nat.zero_le _
        down := .nil
        stored := fun _ member => absurd member List.not_mem_nil
        first := fun member => absurd member List.not_mem_nil
        complete := fun closed => absurd closed Bool.false_ne_true
        closes := fun below => absurd below (Nat.not_lt_zero _) }
  | succ calls ih =>
      by_cases zero : limit = 0
      · subst zero
        have ends : listing set (calls + 1) start 0 = ⟨[], [], true⟩ := by
          unfold listing
          rw [listingRange_inside small inside]
          rfl
        exact {
          inspected := fun _ member => by
            rw [ends] at member
            exact absurd member List.not_mem_nil
          few := by rw [ends]; exact le_rfl
          down := by rw [ends]; exact .nil
          stored := fun _ member => by
            rw [ends] at member
            exact absurd member List.not_mem_nil
          first := fun member => by
            rw [ends] at member
            exact absurd member List.not_mem_nil
          complete := fun _ bucket _ _ above below cases_ => by omega
          closes := fun _ => by rw [ends] }
      obtain ⟨left, le, scan, cells, empty, last⟩ := listingScan_inside inside
      have succ := listing_succ small calls inside zero scan
      cases found : kh.value set (start + left) with
      | none =>
          obtain rfl := last found
          rw [found] at succ
          have nothing : ∀ bucket, start ≤ bucket → bucket ≤ start + limit →
              kh.value set bucket = none := by
            intro bucket above below
            by_cases bottom : bucket = start
            · rw [bottom]
              exact found
            · exact empty bucket (by omega) below
          exact {
            inspected := by rw [succ]; exact cells
            few := by rw [succ]; exact Nat.zero_le _
            down := by rw [succ]; exact .nil
            stored := fun _ member => by
              rw [succ] at member
              exact absurd member List.not_mem_nil
            first := fun member => by
              rw [succ] at member
              exact absurd member List.not_mem_nil
            complete := fun _ bucket entry holds above below _ => by
              rw [nothing bucket above below] at holds
              simp at holds
            closes := fun _ => by rw [succ] }
      | some entry =>
          rw [found] at succ
          dsimp only at succ
          by_cases bottom : left = 0
          · rw [if_pos bottom] at succ
            subst bottom
            exact {
              inspected := by rw [succ]; exact cells
              few := by
                rw [succ, List.length_singleton]
                omega
              down := by rw [succ]; exact List.pairwise_singleton _ _
              stored := fun bucket member => by
                rw [succ] at member
                obtain rfl := List.mem_singleton.mp member
                exact ⟨by omega, by omega, entry, found⟩
              first := fun _ => ⟨by omega, empty (start + 1) (by omega)
                (by omega)⟩
              complete := fun _ bucket other holds above below _ => by
                rw [succ]
                refine List.mem_singleton.mpr ?_
                by_contra different
                rw [empty bucket (by omega) below] at holds
                simp at holds
              closes := fun _ => by rw [succ] }
          · rw [if_neg bottom] at succ
            have rest := @ih (left - 1) (by omega)
            exact {
              inspected := fun index member => by
                rw [succ] at member
                rcases List.mem_append.mp member with here | later
                · exact cells index here
                · obtain ⟨bucket, isBucket, above, below⟩ :=
                    rest.inspected index later
                  exact ⟨bucket, isBucket, above, by omega⟩
              few := by
                have few := rest.few
                rw [succ, List.length_cons]
                omega
              down := by
                rw [succ]
                refine List.pairwise_cons.mpr ⟨fun bucket member => ?_,
                  rest.down⟩
                have range := rest.stored bucket member
                omega
              stored := fun bucket member => by
                rw [succ] at member
                rcases List.mem_cons.mp member with rfl | later
                · exact ⟨by omega, by omega, entry, found⟩
                · obtain ⟨above, below, holds⟩ := rest.stored bucket later
                  exact ⟨above, by omega, holds⟩
              first := fun member => by
                rw [succ] at member
                rcases List.mem_cons.mp member with same | later
                · omega
                · obtain ⟨positive, none_⟩ := rest.first later
                  exact ⟨by omega, none_⟩
              complete := fun closed bucket other holds above below reached => by
                rw [succ] at closed ⊢
                by_cases high : start + left < bucket
                · rw [empty bucket high below] at holds
                  simp at holds
                by_cases here : bucket = start + left
                · rw [here]
                  exact List.mem_cons_self
                refine List.mem_cons_of_mem _ (rest.complete closed bucket
                  other holds above (by omega) ?_)
                rcases reached with higher | ⟨positive, none_⟩
                · exact Or.inl higher
                · by_cases higher : start < bucket
                  · exact Or.inl higher
                  · refine Or.inr ⟨?_, none_⟩
                    have notOne : left ≠ 1 := by
                      rintro rfl
                      rw [none_] at found
                      simp at found
                    omega
              closes := fun below => by
                rw [succ]
                exact rest.closes (by omega) }

end Walk

/-- Calls look at buckets of the table only, put out at most `limit` keys of
buckets from `start` on, none twice, and, if nothing is cut off, every key
until the connection closes. -/
structure ListsWell {kh : KHash} (set : kh.Map) (start limit : Nat) : Prop where
  inspected : ∀ calls, ∀ index ∈ (listing set calls start limit).inspected,
    0 ≤ index ∧ index < kh.endIndex set
  few : ∀ calls, (listing set calls start limit).output.length ≤ limit
  once : ∀ calls, (listing set calls start limit).output.Nodup
  stored : ∀ calls, ∀ bucket ∈ (listing set calls start limit).output,
    start ≤ bucket ∧ ∃ entry, kh.value set bucket = some entry
  closes : ∃ calls, (listing set calls start limit).closed = true
  complete : start = 0 → kh.endIndex set ≤ limit → ∀ calls,
    (listing set calls start limit).closed = true →
      ∀ bucket entry, kh.value set bucket = some entry →
        bucket ∈ (listing set calls start limit).output

/-- Nothing is to be listed, or the range ends before the last bucket, or it
is cut to the buckets behind its start; and a key in bucket 0 has an empty
bucket above it when it is to be listed with all others. -/
def Listable {kh : KHash} (set : kh.Map) (start limit : Nat) : Prop :=
  limit = 0 ∨ kh.endIndex set < start ∨ start + limit < kh.endIndex set ∨
    kh.endIndex set < start + limit ∧ start < kh.endIndex set ∧
      (start = 0 → ∀ entry, kh.value set 0 = some entry →
        1 < kh.endIndex set ∧ kh.value set 1 = none)

section Exact

variable {kh : KHash} {set : kh.Map} {start limit : Nat}

/-- Nothing is listed. -/
theorem listsWell_nothing (range : (listingRange set start limit).2 = 0)
    (none_ : start = 0 → kh.endIndex set ≤ limit → kh.endIndex set = 0) :
    ListsWell set start limit := by
  have ends : ∀ calls, listing set calls start limit = ⟨[], [], false⟩ ∨
      listing set calls start limit = ⟨[], [], true⟩ := by
    intro calls
    cases calls with
    | zero => exact Or.inl rfl
    | succ calls =>
        refine Or.inr ?_
        unfold listing
        dsimp only
        rw [if_pos range]
  have inspected : ∀ calls, (listing set calls start limit).inspected = [] := by
    intro calls
    rcases ends calls with same | same <;> rw [same]
  have output : ∀ calls, (listing set calls start limit).output = [] := by
    intro calls
    rcases ends calls with same | same <;> rw [same]
  refine ⟨?_, ?_, ?_, ?_, ⟨1, ?_⟩, ?_⟩
  · intro calls index member
    rw [inspected] at member
    exact absurd member List.not_mem_nil
  · intro calls
    rw [output]
    exact Nat.zero_le _
  · intro calls
    rw [output]
    exact List.nodup_nil
  · intro calls bucket member
    rw [output] at member
    exact absurd member List.not_mem_nil
  · unfold listing
    dsimp only
    rw [if_pos range]
  · intro isZero all calls _ bucket entry holds
    have below := BucketMap.lt_endIndex_of_value holds
    rw [none_ isZero all] at below
    exact absurd below (Nat.not_lt_zero _)

/-- A range that passes the end is cut to the buckets behind its start. -/
theorem listing_cut (small : kh.endIndex set ≤ 2147483648)
    (startSmall : start < 2147483648) (limitSmall : limit < 2147483648)
    (passes : kh.endIndex set < start + limit)
    (inside : start < kh.endIndex set) (calls : Nat) :
    listing set calls start limit =
      listing set calls start (kh.endIndex set - (start + 1)) := by
  cases calls with
  | zero => rfl
  | succ calls =>
      have cut : listingRange set start limit =
          (start, kh.endIndex set - (start + 1)) := by
        unfold listingRange u32
        rw [if_neg (by omega), if_pos (by omega)]
        congr 1
        omega
      have kept : listingRange set start (kh.endIndex set - (start + 1)) =
          (start, kh.endIndex set - (start + 1)) :=
        listingRange_inside small (by omega)
      conv_lhs => unfold listing
      conv_rhs => unfold listing
      rw [cut, kept]

/-- The first bucket of a call is looked at. -/
theorem first_mem_listing (calls : Nat)
    (nonzero : (listingRange set start limit).2 ≠ 0) :
    i32 (u32 ((listingRange set start limit).2 +
      (listingRange set start limit).1)) ∈
        (listing set (calls + 1) start limit).inspected := by
  have head := head_scanned set (listingRange set start limit).2
    (i32 (u32 ((listingRange set start limit).2 +
      (listingRange set start limit).1)))
  unfold listing
  dsimp only
  rw [if_neg nonzero]
  split
  · exact head
  · exact head
  · split
    · exact head
    · exact List.mem_append_left _ head

/-- With a limit above its first bucket the loop finds a key below, or leaves
the array. -/
theorem scan_below {index : Nat} (inside : index < kh.endIndex set)
    (above : index < limit) :
    (∃ left entry, listingScan set limit index = .ok (left, some entry) ∧
      0 ≤ (index : Int) - limit + left ∧ (index : Int) - limit + left ≤ index ∧
        left ≠ 0) ∨
      (-1 : Int) ∈ scanned set limit index := by
  have flags := endIndex_le_flagsLength set
  induction index generalizing limit with
  | zero =>
      obtain ⟨limit, rfl⟩ : ∃ fewer, limit = fewer + 1 :=
        ⟨limit - 1, by omega⟩
      unfold listingScan scanned
      rw [if_neg (by omega), if_neg (by omega), Int.toNat_natCast]
      cases found : kh.value set 0 with
      | some entry =>
          exact Or.inl ⟨limit + 1, entry, rfl, by omega, by omega, by omega⟩
      | none =>
          exact Or.inr (List.mem_cons_of_mem _ (head_scanned set limit _))
  | succ index ih =>
      obtain ⟨limit, rfl⟩ : ∃ fewer, limit = fewer + 1 :=
        ⟨limit - 1, by omega⟩
      have below : ((index + 1 : Nat) : Int) - 1 = (index : Nat) := by omega
      unfold listingScan scanned
      rw [if_neg (by omega), if_neg (by omega), Int.toNat_natCast]
      cases found : kh.value set (index + 1) with
      | some entry =>
          exact Or.inl ⟨limit + 1, entry, rfl, by omega, by omega, by omega⟩
      | none =>
          dsimp only
          rw [below]
          rcases @ih limit (by omega) (by omega) with
            ⟨left, entry, scan, nonneg, atMost, nonzero⟩ | outside
          · exact Or.inl ⟨left, entry, scan, by omega, by omega, nonzero⟩
          · exact Or.inr (List.mem_cons_of_mem _ outside)

/-- A start at the bucket count wraps the limit. -/
theorem not_listsWell_start (small : kh.endIndex set ≤ 2147483648)
    (limitSmall : limit < 2147483648) (nonzero : limit ≠ 0)
    (atEnd : start = kh.endIndex set) : ¬ListsWell set start limit := by
  intro lists
  have range : listingRange set start limit = (start, 4294967295) := by
    unfold listingRange u32
    rw [if_neg (by omega), if_pos (by omega)]
    congr 1
    omega
  have first := @first_mem_listing _ set start limit
    0 (by rw [range]; exact (by decide : (4294967295 : Nat) ≠ 0))
  rw [range] at first
  dsimp only at first
  have index : i32 (u32 (4294967295 + start)) = (start : Int) - 1 := by
    unfold i32 u32
    split <;> omega
  rw [index] at first
  have inside := lists.inspected 1 _ first
  obtain ⟨before, isBefore⟩ : ∃ before, start = before + 1 :=
    ⟨start - 1, by omega⟩
  have place : (start : Int) - 1 = (before : Nat) := by omega
  rcases @scan_below _ set 4294967295 before
      (by omega) (by omega) with
    ⟨left, entry, scan, nonneg, atMost, positive⟩ | outside
  · have output : ((before : Int) - (4294967295 : Nat) + left).toNat ∈
        (listing set 1 start limit).output := by
      unfold listing
      rw [range]
      dsimp only
      rw [if_neg (by decide), index, place, scan]
      dsimp only
      rw [if_neg positive]
      exact List.mem_cons_self
    have above := (lists.stored 1 _ output).1
    omega
  · have member : (-1 : Int) ∈ (listing set 1 start limit).inspected := by
      unfold listing
      rw [range]
      dsimp only
      rw [if_neg (by decide), index, place]
      split
      · exact outside
      · exact outside
      · split
        · exact outside
        · exact List.mem_append_left _ outside
    have bound := lists.inspected 1 _ member
    omega

/-- A listing does what is promised exactly when the range is listable. -/
theorem listsWell_iff (set : kh.Map) (small : kh.endIndex set ≤ 2147483648)
    (start limit : Nat) (startSmall : start < 2147483648)
    (limitSmall : limit < 2147483648) :
    ListsWell set start limit ↔ Listable set start limit := by
  constructor
  · intro lists
    by_contra unlistable
    unfold Listable at unlistable
    push Not at unlistable
    obtain ⟨nonzero, atMost, reaches, cut⟩ := unlistable
    by_cases atEnd : start = kh.endIndex set
    · exact not_listsWell_start small limitSmall nonzero atEnd lists
    by_cases exact_ : start + limit = kh.endIndex set
    · have range : listingRange set start limit = (start, limit) := by
        unfold listingRange u32
        rw [if_neg (by omega), if_neg (by omega)]
      have first := @first_mem_listing _ set start
        limit 0 (by rw [range]; exact nonzero)
      rw [range] at first
      have bound := lists.inspected 1 _ first
      dsimp only at bound
      unfold i32 u32 at bound
      split at bound <;> omega
    · obtain ⟨isZero, entry, holds, hidden⟩ := cut (by omega) (by omega)
      subst isZero
      have same := listing_cut small startSmall limitSmall
        (by omega) (by omega : 0 < kh.endIndex set)
      have walks := fun calls => @listing_walks _ _ 0
        (kh.endIndex set - (0 + 1)) small calls (by omega)
      have closed := (walks (kh.endIndex set)).closes (by omega)
      rw [← same] at closed
      have listed := lists.complete rfl (by omega) _ closed 0 entry holds
      rw [same] at listed
      obtain ⟨more, none_⟩ := (walks (kh.endIndex set)).first listed
      exact hidden (by omega) none_
  · rintro (zero | beyond | within | ⟨passes, inside, bottom⟩)
    · subst zero
      refine listsWell_nothing ?_ fun _ all => by omega
      unfold listingRange u32
      split
      · rfl
      · rw [if_neg (by omega)]
    · refine listsWell_nothing ?_ fun isZero _ => by omega
      unfold listingRange
      rw [if_pos beyond]
    · have walks := fun calls => listing_walks small calls within
      refine ⟨?_, fun calls => (walks calls).few, ?_, ?_, ⟨limit + 1, ?_⟩, ?_⟩
      · intro calls index member
        obtain ⟨bucket, rfl, above, below⟩ := (walks calls).inspected index member
        omega
      · intro calls
        exact (walks calls).down.imp fun lower => Nat.ne_of_gt lower
      · intro calls bucket member
        obtain ⟨above, -, holds⟩ := (walks calls).stored bucket member
        exact ⟨above, holds⟩
      · exact (walks _).closes (Nat.lt_succ_self _)
      · intro isZero all
        omega
    · have same := listing_cut small startSmall limitSmall passes inside
      have walks := fun calls => @listing_walks _ _ start
        (kh.endIndex set - (start + 1)) small calls (by omega)
      refine ⟨?_, ?_, ?_, ?_, ⟨kh.endIndex set, ?_⟩, ?_⟩
      · intro calls index member
        rw [same] at member
        obtain ⟨bucket, rfl, above, below⟩ := (walks calls).inspected index member
        omega
      · intro calls
        rw [same]
        have few := (walks calls).few
        omega
      · intro calls
        rw [same]
        exact (walks calls).down.imp fun lower => Nat.ne_of_gt lower
      · intro calls bucket member
        rw [same] at member
        obtain ⟨above, -, holds⟩ := (walks calls).stored bucket member
        exact ⟨above, holds⟩
      · rw [same]
        exact (walks _).closes (by omega)
      · intro isZero _ calls closed bucket entry holds
        rw [same] at closed ⊢
        have below := BucketMap.lt_endIndex_of_value holds
        refine (walks calls).complete closed bucket entry holds (by omega)
          (by omega) ?_
        by_cases positive : start < bucket
        · exact Or.inl positive
        · obtain rfl : bucket = 0 := by omega
          obtain ⟨more, none_⟩ := bottom isZero entry holds
          subst isZero
          exact Or.inr ⟨by omega, none_⟩

end Exact

/-- A table of four buckets with keys in the first two. -/
def fourBuckets : (bucketList UInt32 Nat).Map :=
  let impl := bucketList UInt32 Nat
  let full := impl.put (impl.put (impl.put (impl.put impl.empty 0 0) 1 1) 2 2) 3 3
  impl.del (impl.del full 2) 3

/-- The same with keys in all buckets but the second. -/
def gappedBuckets : (bucketList UInt32 Nat).Map :=
  let impl := bucketList UInt32 Nat
  let full := impl.put (impl.put (impl.put (impl.put impl.empty 0 0) 1 1) 2 2) 3 3
  impl.del full 1

/-- With the defaults all three keys are listed. -/
theorem listsWell_iff_gapped : @ListsWell (bucketList UInt32 Nat)
    gappedBuckets 0 10000 ∧
      (@listing (bucketList UInt32 Nat) gappedBuckets 3 0 10000).output =
        [3, 2, 0] := by
  refine ⟨(@listsWell_iff (bucketList UInt32 Nat) gappedBuckets (by decide) 0
    10000 (by decide) (by decide)).mpr ?_, by decide +kernel⟩
  exact Or.inr (Or.inr (Or.inr ⟨by decide, by decide,
    fun _ _ _ => ⟨by decide, by decide⟩⟩))

/-- With the defaults the key in the first bucket is not listed. -/
theorem listsWell_lost : ¬@ListsWell (bucketList UInt32 Nat)
    fourBuckets 0 10000 := by
  intro lists
  have listed := lists.complete rfl (by decide) 2 (by decide +kernel) 0 0
    (by decide +kernel)
  revert listed
  decide +kernel

end SimpleCache
