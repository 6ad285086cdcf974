import Mathlib.Data.List.Range
import SimpleCache.Khash.Resize
import SimpleCache.Library.BucketList
import SimpleCache.Library.Machine

/-!
# Hash tables as maps

Runs of `kh_put` and `kh_del` keep a finite map.  The tables that they reach
have the buckets that the model of the store asks of its hash maps.
-/

namespace SimpleCache

namespace Khash

variable {Value : Type}

/-- `kh_put` with the value of the bucket. -/
def store (h : Table Value) (key : UInt32) (value : Value) :
    Except Fault (Table Value) := do
  let (h, x, _) ← khPut h key
  return setValue h x value

/-- `kh_get` with `kh_del` of the bucket. -/
def remove (h : Table Value) (key : UInt32) : Except Fault (Table Value) := do
  let x ← khGet h key
  return khDel h x

/-- `kh_get` with the value of the bucket. -/
def lookup (h : Table Value) (key : UInt32) : Except Fault (Option Value) := do
  let x ← khGet h key
  return if x = h.nBuckets then none else some (h.vals x)

section Operations

variable {h : Table Value} {key : UInt32}

theorem Stored.unique (valid : Valid h) {first second : Value}
    (one : Stored h key first) (two : Stored h key second) : first = second := by
  obtain ⟨i, here, rfl⟩ := one
  obtain ⟨j, there, rfl⟩ := two
  rw [valid.at_unique here there]

theorem Valid.setValue (valid : Valid h) (x : Nat) (value : Value) :
    Valid (setValue h x value) :=
  ⟨valid.buckets, valid.bound, valid.size, valid.occupied, valid.load,
    valid.distinct, valid.reached⟩

theorem Valid.lookup (valid : Valid h) (key : UInt32) :
    (∃ value, Stored h key value ∧ lookup h key = .ok (some value)) ∨
      (∀ value, ¬Stored h key value) ∧ lookup h key = .ok none := by
  unfold Khash.lookup
  rcases valid.khGet key with ⟨i, holds, gets⟩ | ⟨absent, gets⟩
  · rw [gets, ok_bind]
    have apart : i ≠ h.nBuckets := Nat.ne_of_lt (mem_live.mp holds.1).1
    rw [if_neg apart]
    exact Or.inl ⟨h.vals i, ⟨i, holds, rfl⟩, rfl⟩
  · rw [gets, ok_bind, if_pos rfl]
    exact Or.inr ⟨fun value ⟨i, holds, _⟩ => absent i holds, rfl⟩

/-- A search finds what the table has. -/
theorem Valid.lookup_eq (valid : Valid h) {found : Option Value}
    (same : ∀ value, Stored h key value ↔ found = some value) :
    Khash.lookup h key = .ok found := by
  rcases valid.lookup key with ⟨value, stored, gets⟩ | ⟨absent, gets⟩
  · rw [gets, (same value).mp stored]
  · rw [gets]
    cases found with
    | none => rfl
    | some value => exact absurd ((same value).mpr rfl) (absent value)

/-- A value that is put is the only one of its key, and no other key's value
changes, also where the table is rehashed. -/
theorem Valid.store (valid : Valid h) (small : h.size ≤ 2 ^ 29) (key : UInt32)
    (value : Value) :
    ∃ after, store h key value = .ok after ∧ Valid after ∧
      after.size ≤ h.size + 1 ∧
      ∀ other stored, Stored after other stored ↔
        other = key ∧ stored = value ∨ other ≠ key ∧ Stored h other stored := by
  obtain ⟨roomy, makes, valid, size, same, room, some_⟩ := valid.makeRoom small
  obtain ⟨x, decides, inTable, isBucket⟩ := valid.putBucket some_ key
  obtain ⟨claimed, buckets, vals, sized, holds⟩ :=
    valid.claim room inTable isBucket
  have unique : ∀ {i}, At roomy key i → i = x := by
    intro i there
    rcases isBucket with here | ⟨absent, -⟩
    · exact valid.at_unique there here
    · exact absurd there (absent i)
  refine ⟨Khash.setValue (Khash.claim roomy key x).1 x value, ?_,
    claimed.setValue x value, ?_, fun other stored => ?_⟩
  · unfold Khash.store khPut
    rw [makes, ok_bind, decides, ok_bind]
    rfl
  · rw [← size]
    exact sized
  · rw [← same]
    have isAt : ∀ i, At (Khash.setValue (Khash.claim roomy key x).1 x value)
        other i ↔ i = x ∧ other = key ∨ At roomy other i := holds other
    unfold Stored
    constructor
    · rintro ⟨i, here, isValue⟩
      unfold Khash.setValue at isValue
      dsimp only at isValue
      rw [vals] at isValue
      rcases (isAt i).mp here with ⟨rfl, rfl⟩ | there
      · rw [Function.update_self] at isValue
        exact Or.inl ⟨rfl, isValue.symm⟩
      · by_cases isKey : other = key
        · subst isKey
          obtain rfl := unique there
          rw [Function.update_self] at isValue
          exact Or.inl ⟨rfl, isValue.symm⟩
        · have apart : i ≠ x := by
            rintro rfl
            rcases isBucket with ⟨-, same⟩ | ⟨-, free, -⟩
            · exact isKey (there.2.symm.trans same)
            · rw [(mem_live.mp there.1).2] at free
              cases free
          rw [Function.update_of_ne apart] at isValue
          exact Or.inr ⟨isKey, i, there, isValue⟩
    · rintro (⟨rfl, rfl⟩ | ⟨apart, i, there, isValue⟩)
      · exact ⟨x, (isAt x).mpr (Or.inl ⟨rfl, rfl⟩), Function.update_self ..⟩
      · have other : i ≠ x := by
          rintro rfl
          rcases isBucket with ⟨-, same⟩ | ⟨-, free, -⟩
          · exact apart (there.2.symm.trans same)
          · rw [(mem_live.mp there.1).2] at free
            cases free
        refine ⟨i, (isAt i).mpr (Or.inr there), ?_⟩
        unfold Khash.setValue
        dsimp only
        rw [vals, Function.update_of_ne other]
        exact isValue

theorem stored_khDel (valid : Valid h) {x : Nat} (le : x ≤ h.nBuckets)
    {other : UInt32} {stored : Value} :
    Stored (khDel h x) other stored ↔
      ∃ i, At h other i ∧ i ≠ x ∧ h.vals i = stored := by
  obtain ⟨-, buckets, vals, -, isAt⟩ := valid.khDel le
  unfold Stored
  rw [vals]
  constructor
  · rintro ⟨i, here, isValue⟩
    have inTable := (mem_live.mp here.1).1
    rw [buckets] at inTable
    obtain ⟨there, apart⟩ := (isAt other i inTable).mp here
    exact ⟨i, there, apart, isValue⟩
  · rintro ⟨i, there, apart, isValue⟩
    have inTable := (mem_live.mp there.1).1
    exact ⟨i, (isAt other i inTable).mpr ⟨there, apart⟩, isValue⟩

theorem Valid.remove (valid : Valid h) (key : UInt32) :
    ∃ after, remove h key = .ok after ∧ Valid after ∧ after.size ≤ h.size ∧
      ∀ other stored, Stored after other stored ↔
        other ≠ key ∧ Stored h other stored := by
  unfold Khash.remove
  rcases valid.khGet key with ⟨x, holds, gets⟩ | ⟨absent, gets⟩
  · have le := (mem_live.mp holds.1).1.le
    obtain ⟨deleted, -, -, size, -⟩ := valid.khDel le
    rw [gets, ok_bind]
    refine ⟨_, rfl, deleted, size, fun other stored => ?_⟩
    rw [stored_khDel valid le]
    constructor
    · rintro ⟨i, there, apart, isValue⟩
      refine ⟨?_, i, there, isValue⟩
      rintro rfl
      exact apart (valid.at_unique there holds)
    · rintro ⟨apart, i, there, isValue⟩
      refine ⟨i, there, ?_, isValue⟩
      rintro rfl
      exact apart (there.2.symm.trans holds.2)
  · obtain ⟨deleted, -, -, size, -⟩ := valid.khDel le_rfl
    rw [gets, ok_bind]
    refine ⟨_, rfl, deleted, size, fun other stored => ?_⟩
    rw [stored_khDel valid le_rfl]
    constructor
    · rintro ⟨i, there, -, isValue⟩
      refine ⟨?_, i, there, isValue⟩
      rintro rfl
      exact absent i there
    · rintro ⟨-, i, there, isValue⟩
      exact ⟨i, there, Nat.ne_of_lt (mem_live.mp there.1).1, isValue⟩

end Operations

inductive Operation (Value : Type)
  | store (key : UInt32) (value : Value)
  | remove (key : UInt32)

/-- A table from its creation on. -/
def tables (Value : Type) [Inhabited Value] :
    Machine (Table Value) (Operation Value) Fault where
  initial := fun h => h = khInit
  step := fun h operation =>
    match operation with
    | .store key value => store h key value
    | .remove key => remove h key

/-- What the operations leave of a map. -/
def contents : List (Operation Value) → (UInt32 → Option Value) →
    UInt32 → Option Value
  | [], map => map
  | .store key value :: later, map =>
      contents later (Function.update map key (some value))
  | .remove key :: later, map => contents later (Function.update map key none)

variable [Inhabited Value]

theorem run_refines_from {h : Table Value} (valid : Valid h)
    {map : UInt32 → Option Value}
    (same : ∀ key value, Stored h key value ↔ map key = some value)
    (operations : List (Operation Value))
    (few : h.size + operations.length ≤ 2 ^ 29) :
    ∃ after, (tables Value).run h operations = .ok after ∧ Valid after ∧
      ∀ key value, Stored after key value ↔
        contents operations map key = some value := by
  induction operations generalizing h map with
  | nil => exact ⟨h, rfl, valid, same⟩
  | cons operation later ih =>
      rw [List.length_cons] at few
      cases operation with
      | store key value =>
          obtain ⟨next, stores, ok, size, stored⟩ :=
            valid.store (by omega) key value
          obtain ⟨after, runs, ended, final⟩ :=
            @ih next ok (Function.update map key (some value)) (by
              intro other kept
              rw [stored, same]
              by_cases isKey : other = key
              · subst isKey
                rw [Function.update_self]
                simp [eq_comm]
              · rw [Function.update_of_ne isKey]
                simp [isKey]) (by omega)
          exact ⟨after, Machine.run_cons.mpr ⟨next, stores, runs⟩, ended, final⟩
      | remove key =>
          obtain ⟨next, removes, ok, size, stored⟩ := valid.remove key
          obtain ⟨after, runs, ended, final⟩ :=
            @ih next ok (Function.update map key none) (by
              intro other kept
              rw [stored, same]
              by_cases isKey : other = key
              · subst isKey
                rw [Function.update_self]
                simp
              · rw [Function.update_of_ne isKey]
                simp [isKey]) (by omega)
          exact ⟨after, Machine.run_cons.mpr ⟨next, removes, runs⟩, ended,
            final⟩

theorem stored_khInit (key : UInt32) (value : Value) :
    Stored (khInit : Table Value) key value ↔
      (fun _ => none : UInt32 → Option Value) key = some value := by
  constructor
  · rintro ⟨i, ⟨member, -⟩, -⟩
    exact absurd (mem_live.mp member).1 (Nat.not_lt_zero i)
  · intro impossible
    cases impossible

/-- Every run of up to `2 ^ 29` operations ends, every search in the table that
it leaves ends, and finds for each key the value that was put last, if it has
not been removed. -/
theorem run_lookup (operations : List (Operation Value))
    (few : operations.length ≤ 2 ^ 29) :
    ∃ after, (tables Value).run khInit operations = .ok after ∧
      ∀ key, lookup after key =
        .ok (contents operations (fun _ => none) key) := by
  obtain ⟨after, runs, valid, same⟩ :=
    run_refines_from valid_khInit stored_khInit operations (by
      change 0 + _ ≤ _
      omega)
  exact ⟨after, runs, fun key => valid.lookup_eq (same key)⟩

theorem run_lookup_two :
    ∃ after, (tables Nat).run khInit [.store 1 10, .store 5 20, .remove 1] =
        .ok after ∧
      ∀ key, lookup after key = .ok (contents
        [.store 1 10, .store 5 20, .remove 1] (fun _ => none) key) :=
  run_lookup _ (by decide)

/-- Whatever size is asked for, resizing a table that a run leaves ends and
changes no lookup.  It leaves everything when the elements reach the load of
the rounded size, and otherwise this size and no deleted bucket. -/
theorem resize_lookup (operations : List (Operation Value))
    (few : operations.length ≤ 2 ^ 29) {requested : Nat}
    (small : requested ≤ 2 ^ 31) :
    ∃ h after, (tables Value).run khInit operations = .ok h ∧
      khResize h requested = .ok after ∧
      (∀ key, lookup after key =
        .ok (contents operations (fun _ => none) key)) ∧
      if upper (settled requested) ≤ h.size then after = h
      else after.nBuckets = settled requested ∧
        after.nOccupied = after.size := by
  obtain ⟨h, runs, valid, same⟩ :=
    run_refines_from valid_khInit stored_khInit operations (by
      change 0 + _ ≤ _
      omega)
  obtain ⟨exponent, large, fits, isPower⟩ := settled_power small
  obtain ⟨after, resizes, ok, size, kept, sized⟩ :=
    valid.khResize large fits isPower
  refine ⟨h, after, runs, resizes, fun key => ok.lookup_eq fun value => ?_, ?_⟩
  · rw [kept, same]
  · split at sized
    · next full => rwa [if_pos full]
    · next roomy =>
        rw [if_neg roomy]
        exact ⟨sized.1, sized.2.trans size.symm⟩

/-- Five keys in eight buckets, three of which are removed again. -/
def shrinking : List (Operation Nat) :=
  [.store 1 10, .store 5 20, .store 9 30, .store 13 40, .store 2 50, .remove 1,
    .remove 9, .remove 2]

theorem resize_lookup_shrink :
    ∃ h after, (tables Nat).run khInit shrinking = .ok h ∧
      h.nBuckets = 8 ∧ h.nOccupied = 5 ∧ khResize h 4 = .ok after ∧
      after.nBuckets = 4 ∧ after.nOccupied = 2 ∧
      ∀ key, lookup after key =
        .ok (contents shrinking (fun _ => none) key) := by
  have facts : ((tables Nat).run khInit shrinking).map (fun h =>
      (h.nBuckets, h.nOccupied, h.size)) = .ok (8, 5, 2) := by
    decide +kernel
  have sizes : ((tables Nat).run khInit shrinking >>= fun h =>
      (khResize h 4).map Table.size) = .ok 2 := by
    decide +kernel
  obtain ⟨h, after, runs, resizes, same, sized⟩ :=
    resize_lookup shrinking (by decide) (show 4 ≤ 2 ^ 31 by decide)
  rw [runs] at facts
  obtain ⟨buckets, occupied, size⟩ : h.nBuckets = 8 ∧ h.nOccupied = 5 ∧
      h.size = 2 := by
    simpa [Except.map] using facts
  rw [runs, ok_bind, resizes] at sizes
  have sizeAfter : after.size = 2 := Except.ok.inj sizes
  have roomy : ¬upper (settled 4) ≤ h.size := by
    rw [size]
    decide
  rw [if_neg roomy, sizeAfter] at sized
  have four : settled 4 = 4 := by decide
  exact ⟨h, after, runs, buckets, occupied, resizes, sized.1.trans four, sized.2,
    same⟩

omit [Inhabited Value]

/-- What is in a bucket. -/
def bucketAt (h : Table Value) (i : Nat) : Option (UInt32 × Value) :=
  if isEither h.flags i then none else some (h.keys i, h.vals i)

/-- The buckets that a table is walked through in. -/
def buckets (h : Table Value) : List (Option (UInt32 × Value)) :=
  (List.range h.nBuckets).map (bucketAt h)

section Buckets

variable {h : Table Value}

theorem length_buckets : (buckets h).length = h.nBuckets := by
  unfold buckets
  rw [List.length_map, List.length_range]

theorem getElem_buckets {i : Nat} {cell : UInt32 × Value} :
    (buckets h)[i]? = some (some cell) ↔ At h cell.1 i ∧ h.vals i = cell.2 := by
  unfold buckets At
  rw [List.getElem?_map, mem_live]
  by_cases inTable : i < h.nBuckets
  · rw [List.getElem?_range inTable, Option.map_some, Option.some_inj]
    unfold bucketAt
    cases isEither h.flags i with
    | true => simp
    | false => simp [inTable, Prod.ext_iff]
  · rw [List.getElem?_eq_none (by rw [List.length_range]; omega)]
    simp [inTable]

/-- As many buckets are occupied as hold a key. -/
theorem countP_buckets (h : Table Value) :
    (buckets h).countP Option.isSome = (live h.flags h.nBuckets).card := by
  unfold buckets live
  rw [List.countP_map, List.countP_eq_length_filter]
  have same : ∀ i ∈ List.range h.nBuckets,
      (Option.isSome ∘ bucketAt h) i = decide (isEither h.flags i = false) := by
    intro i _
    change (bucketAt h i).isSome = _
    unfold bucketAt
    cases isEither h.flags i <;> rfl
  rw [List.filter_congr same]
  rfl

theorem mem_buckets {cell : UInt32 × Value} :
    some cell ∈ buckets h ↔ Stored h cell.1 cell.2 := by
  rw [List.mem_iff_getElem?]
  exact exists_congr fun i => getElem_buckets

theorem Valid.keys_nodup (valid : Valid h) :
    ((Khash.buckets h).filterMap (Option.map Prod.fst)).Nodup := by
  have apart : (Khash.buckets h).Pairwise fun first second => ∀ key,
      first.map Prod.fst = some key → second.map Prod.fst ≠ some key := by
    rw [List.pairwise_iff_getElem]
    intro i j inFirst inSecond less key isFirst isSecond
    obtain ⟨first, here, rfl⟩ := Option.map_eq_some_iff.mp isFirst
    obtain ⟨second, there, same⟩ := Option.map_eq_some_iff.mp isSecond
    have one := getElem_buckets.mp
      ((List.getElem?_eq_getElem inFirst).trans (congrArg some here))
    have two := getElem_buckets.mp
      ((List.getElem?_eq_getElem inSecond).trans (congrArg some there))
    rw [same] at two
    exact Nat.ne_of_lt less (valid.at_unique one.1 two.1)
  rw [List.nodup_iff_pairwise_ne, List.pairwise_filterMap]
  refine apart.imp fun different key isKey other isOther equal => ?_
  subst equal
  exact different key isKey isOther

theorem buckets_khDel (valid : Valid h) {x : Nat} (inTable : x < h.nBuckets) :
    buckets (khDel h x) = (buckets h).set x none := by
  obtain ⟨-, count, vals, -, isAt⟩ := valid.khDel inTable.le
  refine List.ext_getElem? fun i => ?_
  by_cases inRange : i < h.nBuckets
  · have lengths : i < (buckets (khDel h x)).length := by
      rw [length_buckets, count]
      exact inRange
    cases found : (buckets (khDel h x))[i]? with
    | none =>
        rw [List.getElem?_eq_none_iff] at found
        omega
    | some bucket =>
        cases bucket with
        | none =>
            symm
            by_cases here : x = i
            · subst here
              rw [List.getElem?_set_self (by rw [length_buckets]; exact inTable)]
            · rw [List.getElem?_set_ne here]
              cases before : (buckets h)[i]? with
              | none =>
                  rw [List.getElem?_eq_none_iff, length_buckets] at before
                  omega
              | some old =>
                  cases old with
                  | none => rfl
                  | some cell =>
                      obtain ⟨there, isValue⟩ := getElem_buckets.mp before
                      have kept := (isAt cell.1 i inRange).mpr
                        ⟨there, Ne.symm here⟩
                      have still := getElem_buckets.mpr
                        ⟨kept, (congrFun vals i).trans isValue⟩
                      rw [found] at still
                      cases still
        | some cell =>
            obtain ⟨kept, isValue⟩ := getElem_buckets.mp found
            obtain ⟨there, apart⟩ := (isAt cell.1 i inRange).mp kept
            rw [List.getElem?_set_ne (Ne.symm apart)]
            exact (getElem_buckets.mpr
              ⟨there, (congrFun vals i).symm.trans isValue⟩).symm
  · rw [List.getElem?_eq_none (by rw [length_buckets, count]; omega),
      List.getElem?_eq_none (by
        rw [List.length_set, length_buckets]
        omega)]

end Buckets

/-- The tables below the capacity of `khash.h`, and lists of buckets for those
that would be above it. -/
abbrev Stores (Value : Type) : Type :=
  { h : Table Value // Valid h } ⊕ (bucketList UInt32 Value).Map

/-- A table that has been stored into. -/
def storeValid (h : { h : Table Value // Valid h }) (small : h.val.size ≤ 2 ^ 29)
    (key : UInt32) (value : Value) : { h : Table Value // Valid h } :=
  match stored : store h.val key value with
  | .ok after => ⟨after, by
      obtain ⟨next, stores, valid, -⟩ := h.property.store small key value
      rw [stored] at stores
      rw [Except.ok.inj stores]
      exact valid⟩
  | .error _ => h

theorem storeValid_eq (h : { h : Table Value // Valid h })
    (small : h.val.size ≤ 2 ^ 29) (key : UInt32) (value : Value) :
    store h.val key value = .ok (storeValid h small key value).val := by
  obtain ⟨next, stores, -, -⟩ := h.property.store small key value
  unfold storeValid
  split
  · next after stored => exact stored
  · next fault stored =>
      rw [stores] at stored
      cases stored

def khashBuckets : Stores Value → List (Option (UInt32 × Value))
  | .inl h => buckets h.val
  | .inr cells => (bucketList UInt32 Value).buckets cells

def khashPut : Stores Value → UInt32 → Value → Stores Value
  | .inl h, key, value =>
      if small : h.val.size ≤ 2 ^ 29 then .inl (storeValid h small key value)
      else .inr ((bucketList UInt32 Value).put
        ⟨buckets h.val, h.property.keys_nodup⟩ key value)
  | .inr cells, key, value => .inr ((bucketList UInt32 Value).put cells key value)

def khashDel : Stores Value → Nat → Stores Value
  | .inl h, x =>
      if inTable : x < h.val.nBuckets then
        .inl ⟨khDel h.val x, (h.property.khDel inTable.le).1⟩
      else .inl h
  | .inr cells, x => .inr ((bucketList UInt32 Value).del cells x)

/-- `khash.h` as the hash map of the store. -/
def khash (Value : Type) [Inhabited Value] : BucketMap UInt32 Value where
  Map := Stores Value
  empty := .inl ⟨khInit, valid_khInit⟩
  buckets := khashBuckets
  put := khashPut
  del := khashDel
  buckets_empty := rfl
  buckets_del := fun map index => by
    cases map with
    | inl h =>
        unfold khashDel
        dsimp only
        split
        · next inTable => exact buckets_khDel h.property inTable
        · next outside =>
            exact (List.set_eq_of_length_le (by
              change (buckets h.val).length ≤ index
              rw [length_buckets]
              omega)).symm
    | inr cells => exact (bucketList UInt32 Value).buckets_del cells index
  keys_nodup := fun map => by
    cases map with
    | inl h => exact h.property.keys_nodup
    | inr cells => exact (bucketList UInt32 Value).keys_nodup cells
  mem_put := fun map key value cell => by
    cases map with
    | inl h =>
        unfold khashPut
        dsimp only
        split
        · next small =>
            obtain ⟨after, stores, -, -, stored⟩ :=
              h.property.store small key value
            have isAfter := storeValid_eq h small key value
            rw [stores] at isAfter
            unfold khashBuckets
            dsimp only
            rw [← Except.ok.inj isAfter, mem_buckets, mem_buckets, stored,
              Prod.ext_iff]
        · exact (bucketList UInt32 Value).mem_put _ key value cell
    | inr cells => exact (bucketList UInt32 Value).mem_put cells key value cell

/-- Below the capacity the operations of the hash map are those of `khash.h`,
none of which fails to end. -/
theorem khash_implements [Inhabited Value] (h : { h : Table Value // Valid h }) :
    (khash Value).endIndex (.inl h) = h.val.nBuckets ∧
      (khash Value).size (.inl h) = h.val.size ∧
      (∀ key, khGet h.val key = .ok ((khash Value).find (.inl h) key)) ∧
      (∀ x, x ≤ h.val.nBuckets → ∃ after : { h : Table Value // Valid h },
        khDel h.val x = after.val ∧ (khash Value).del (.inl h) x = .inl after) ∧
      (h.val.size ≤ 2 ^ 29 → ∀ key value,
        ∃ after : { h : Table Value // Valid h },
          store h.val key value = .ok after.val ∧
            (khash Value).put (.inl h) key value = .inl after) := by
  refine ⟨length_buckets, (countP_buckets h.val).trans h.property.size.symm,
    fun key => ?_, fun x le => ?_, fun small key value => ?_⟩
  · rcases h.property.khGet key with ⟨i, holds, gets⟩ | ⟨absent, gets⟩
    · have bucket : ((khash Value).buckets (.inl h))[i]? =
          some (some (key, h.val.vals i)) :=
        getElem_buckets.mpr ⟨holds, rfl⟩
      rw [gets, BucketMap.find_eq_of_bucket bucket]
    · have none_ : (khash Value).lookup (.inl h) key = none := by
        refine BucketMap.lookup_eq_none_iff.mpr fun stored member => ?_
        obtain ⟨i, holds, -⟩ := mem_buckets.mp member
        exact absent i holds
      rw [gets, BucketMap.find_of_lookup_eq_none none_]
      exact congrArg Except.ok length_buckets.symm
  · by_cases inTable : x < h.val.nBuckets
    · exact ⟨⟨khDel h.val x, (h.property.khDel le).1⟩, rfl, dif_pos inTable⟩
    · refine ⟨h, ?_, dif_neg inTable⟩
      unfold khDel
      rw [if_neg (fun both => both.1 (by omega))]
  · exact ⟨storeValid h small key value, storeValid_eq h small key value,
      dif_pos small⟩

theorem khash_implements_shrinking :
    ∃ h : { h : Table Nat // Valid h },
      (tables Nat).run khInit shrinking = .ok h.val ∧
        (khash Nat).endIndex (.inl h) = 8 ∧ (khash Nat).size (.inl h) = 2 ∧
        khGet h.val 5 = .ok ((khash Nat).find (.inl h) 5) ∧
        ∃ after : { h : Table Nat // Valid h },
          store h.val 7 60 = .ok after.val ∧
            (khash Nat).put (.inl h) 7 60 = .inl after := by
  have facts : ((tables Nat).run khInit shrinking).map (fun h =>
      (h.nBuckets, h.size)) = .ok (8, 2) := by
    decide +kernel
  obtain ⟨table, runs, valid, -⟩ :=
    run_refines_from valid_khInit stored_khInit shrinking (by decide)
  rw [runs] at facts
  obtain ⟨buckets, size⟩ : table.nBuckets = 8 ∧ table.size = 2 := by
    simpa [Except.map] using facts
  obtain ⟨ends, counts, gets, -, puts⟩ := khash_implements ⟨table, valid⟩
  refine ⟨⟨table, valid⟩, runs, ends.trans buckets, counts.trans size, gets 5,
    puts ?_ 7 60⟩
  rw [size]
  decide

end Khash

end SimpleCache
