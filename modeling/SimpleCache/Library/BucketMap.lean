import Mathlib.Data.List.Nodup
import Mathlib.Data.List.Basic
import Mathlib.Data.List.Perm.Subperm

/-!
# Hash maps seen through their buckets

An open-addressing hash map is observed through its bucket array: a bucket is
empty or holds one key with its value.  Where a new key is placed, and when
the array is resized, is left to the implementation; a `BucketMap` is an
implementation together with the laws that fix everything else.
-/

namespace SimpleCache

/-- An open-addressing map from keys to values.  `put` stores a value under a
key, `del` empties one bucket by its index. -/
structure BucketMap (Key Value : Type) [DecidableEq Key] where
  Map : Type
  empty : Map
  buckets : Map → List (Option (Key × Value))
  put : Map → Key → Value → Map
  del : Map → Nat → Map
  buckets_empty : buckets empty = []
  buckets_del : ∀ map index,
    buckets (del map index) = (buckets map).set index none
  keys_nodup : ∀ map,
    ((buckets map).filterMap (Option.map Prod.fst)).Nodup
  mem_put : ∀ map key value cell,
    some cell ∈ buckets (put map key value) ↔
      cell = (key, value) ∨ (cell.1 ≠ key ∧ some cell ∈ buckets map)

namespace BucketMap

variable {Key Value : Type} [DecidableEq Key] (impl : BucketMap Key Value)

/-- One past the last bucket index. -/
def endIndex (map : impl.Map) : Nat := (impl.buckets map).length

/-- Number of stored keys. -/
def size (map : impl.Map) : Nat := (impl.buckets map).countP Option.isSome

/-- Whether a bucket holds this key. -/
def holdsKey (key : Key) (bucket : Option (Key × Value)) : Bool :=
  bucket.any fun cell => cell.1 == key

/-- Bucket index of a key, or the end index when the key is absent. -/
def find (map : impl.Map) (key : Key) : Nat :=
  (impl.buckets map).findIdx (holdsKey key)

/-- Value stored in a bucket, if the bucket holds one. -/
def value (map : impl.Map) (index : Nat) : Option Value :=
  match (impl.buckets map)[index]? with
  | some (some cell) => some cell.2
  | _ => none

/-- Value stored under a key. -/
def lookup (map : impl.Map) (key : Key) : Option Value :=
  impl.value map (impl.find map key)

/-- All stored keys, in bucket order. -/
def keys (map : impl.Map) : List Key :=
  (impl.buckets map).filterMap (Option.map Prod.fst)

/-- All stored values, in bucket order. -/
def values (map : impl.Map) : List Value :=
  (impl.buckets map).filterMap (Option.map Prod.snd)

variable {impl} {map : impl.Map} {key : Key} {stored : Value} {index : Nat}

omit [DecidableEq Key] in
private theorem keys_unique {cells : List (Option (Key × Value))}
    (nodup : (cells.filterMap (Option.map Prod.fst)).Nodup)
    {first second : Nat} {key : Key} {firstValue secondValue : Value}
    (firstCell : cells[first]? = some (some (key, firstValue)))
    (secondCell : cells[second]? = some (some (key, secondValue))) :
    first = second := by
  induction cells generalizing first second with
  | nil => simp at firstCell
  | cons cell cells ih =>
      have absent : ∀ (index : Nat) (other : Value),
          cell = some (key, other) →
          ∀ value, cells[index]? ≠ some (some (key, value)) := by
        intro index other cellEq value found
        rw [cellEq] at nodup
        simp only [List.filterMap_cons, Option.map_some, List.nodup_cons] at nodup
        apply nodup.1
        exact List.mem_filterMap.mpr
          ⟨some (key, value), List.mem_of_getElem? found, rfl⟩
      have tailNodup : (cells.filterMap (Option.map Prod.fst)).Nodup :=
        nodup.sublist (List.Sublist.filterMap _ (List.sublist_cons_self _ _))
      cases first with
      | zero =>
          cases second with
          | zero => rfl
          | succ second =>
              have firstEq : cell = some (key, firstValue) := by
                simpa using firstCell
              exact absurd (by simpa using secondCell)
                (absent second firstValue firstEq secondValue)
      | succ first =>
          cases second with
          | zero =>
              have secondEq : cell = some (key, secondValue) := by
                simpa using secondCell
              exact absurd (by simpa using firstCell)
                (absent first secondValue secondEq firstValue)
          | succ second =>
              have := ih tailNodup (by simpa using firstCell)
                (by simpa using secondCell)
              omega

/-- The bucket `find` returns holds no other key. -/
theorem key_eq_of_find {cell : Key × Value}
    (bucket : (impl.buckets map)[impl.find map key]? = some (some cell)) :
    cell.1 = key := by
  obtain ⟨inRange, cellEq⟩ := List.getElem?_eq_some_iff.mp bucket
  have holds : holdsKey key (impl.buckets map)[impl.find map key] = true :=
    List.findIdx_getElem (w := inRange)
  rw [cellEq] at holds
  simpa [holdsKey] using holds

/-- The bucket that holds a key is the one `find` returns. -/
theorem find_eq_of_bucket
    (bucket : (impl.buckets map)[index]? = some (some (key, stored))) :
    impl.find map key = index := by
  have foundRange : impl.find map key < (impl.buckets map).length := by
    apply List.findIdx_lt_length_of_exists
    exact ⟨some (key, stored), List.mem_of_getElem? bucket, by simp [holdsKey]⟩
  have holds : holdsKey key (impl.buckets map)[impl.find map key] = true :=
    List.findIdx_getElem (w := foundRange)
  obtain ⟨cell, cellEq, keyEq⟩ := (Option.any_eq_true _ _).mp holds
  have keyEq : cell.1 = key := by simpa using keyEq
  have found : (impl.buckets map)[impl.find map key]? =
      some (some (key, cell.2)) := by
    rw [List.getElem?_eq_getElem foundRange, cellEq, ← keyEq]
  exact keys_unique (impl.keys_nodup map) found bucket

theorem lookup_eq_some_iff :
    impl.lookup map key = some stored ↔
      some (key, stored) ∈ impl.buckets map := by
  constructor
  · intro found
    unfold lookup value at found
    split at found
    · next cell bucket =>
        have keyEq := key_eq_of_find bucket
        have storedEq : cell.2 = stored := by simpa using found
        have := List.mem_of_getElem? bucket
        rwa [← keyEq, ← storedEq]
    · simp at found
  · intro member
    obtain ⟨index, bucket⟩ := List.mem_iff_getElem?.mp member
    simp [lookup, value, find_eq_of_bucket bucket, bucket]

theorem lookup_eq_none_iff :
    impl.lookup map key = none ↔
      ∀ stored, some (key, stored) ∉ impl.buckets map := by
  constructor
  · intro absent stored member
    rw [lookup_eq_some_iff.mpr member] at absent
    simp at absent
  · intro absent
    cases found : impl.lookup map key with
    | none => rfl
    | some stored => exact absurd (lookup_eq_some_iff.mp found) (absent stored)

theorem lookup_eq_none_of_find
    (absent : impl.find map key = impl.endIndex map) :
    impl.lookup map key = none := by
  have outside : (impl.buckets map)[impl.find map key]? = none :=
    List.getElem?_eq_none (Nat.le_of_eq absent.symm)
  simp [lookup, value, outside]

@[simp]
theorem lookup_empty : impl.lookup impl.empty key = none := by
  simp [lookup_eq_none_iff, impl.buckets_empty]

theorem lookup_put (other : Key) :
    impl.lookup (impl.put map key stored) other =
      if other = key then some stored else impl.lookup map other := by
  by_cases same : other = key
  · subst other
    rw [if_pos rfl, lookup_eq_some_iff, impl.mem_put]
    exact Or.inl rfl
  · rw [if_neg same]
    ext value
    rw [lookup_eq_some_iff, lookup_eq_some_iff, impl.mem_put]
    constructor
    · rintro (equal | ⟨-, member⟩)
      · exact absurd (Prod.mk.inj equal).1 same
      · exact member
    · exact fun member => Or.inr ⟨same, member⟩

/-- A bucket that shows a value holds it under some key, which `find` leads
back to. -/
theorem exists_key_of_value (found : impl.value map index = some stored) :
    ∃ key, impl.lookup map key = some stored ∧ impl.find map key = index := by
  unfold value at found
  split at found
  · next cell bucket =>
      obtain rfl : cell.2 = stored := by simpa using found
      have bucket : (impl.buckets map)[index]? = some (some (cell.1, cell.2)) :=
        bucket
      exact ⟨cell.1, lookup_eq_some_iff.mpr (List.mem_of_getElem? bucket),
        find_eq_of_bucket bucket⟩
  · simp at found

theorem lt_endIndex_of_value (found : impl.value map index = some stored) :
    index < impl.endIndex map := by
  by_contra beyond
  have outside : (impl.buckets map)[index]? = none :=
    List.getElem?_eq_none (Nat.le_of_not_lt beyond)
  simp [value, outside] at found

theorem value_del (other : Nat) :
    impl.value (impl.del map index) other =
      if other = index then none else impl.value map other := by
  unfold value
  rw [impl.buckets_del, List.getElem?_set]
  by_cases same : other = index
  · subst other
    by_cases inRange : index < (impl.buckets map).length
    · simp [inRange]
    · simp [inRange]
  · rw [if_neg same, if_neg fun equal => same equal.symm]

/-- Emptying a bucket forgets the key it holds and nothing else. -/
theorem lookup_del (other : Key) :
    impl.lookup (impl.del map index) other =
      if impl.find map other = index then none else impl.lookup map other := by
  ext value
  rw [lookup_eq_some_iff, impl.buckets_del]
  by_cases here : impl.find map other = index
  · rw [if_pos here]
    simp only [reduceCtorEq, iff_false]
    intro member
    obtain ⟨position, bucket⟩ := List.mem_iff_getElem?.mp member
    rw [List.getElem?_set] at bucket
    by_cases moved : index = position
    · rw [if_pos moved] at bucket
      split at bucket <;> simp at bucket
    · rw [if_neg moved] at bucket
      exact moved (here ▸ find_eq_of_bucket bucket)
  · rw [if_neg here, lookup_eq_some_iff]
    constructor
    · intro member
      obtain ⟨position, bucket⟩ := List.mem_iff_getElem?.mp member
      rw [List.getElem?_set] at bucket
      by_cases moved : index = position
      · rw [if_pos moved] at bucket
        split at bucket <;> simp at bucket
      · rw [if_neg moved] at bucket
        exact List.mem_of_getElem? bucket
    · intro member
      obtain ⟨position, bucket⟩ := List.mem_iff_getElem?.mp member
      have positionEq := find_eq_of_bucket bucket
      apply List.mem_of_getElem? (i := position)
      rw [List.getElem?_set_ne (by rw [← positionEq]; exact fun equal => here equal.symm)]
      exact bucket

theorem find_ne_of_lookup {other : Key} (different : other ≠ key)
    (found : impl.lookup map other = some stored) :
    impl.find map other ≠ impl.find map key := by
  intro equal
  obtain ⟨position, bucket⟩ :=
    List.mem_iff_getElem?.mp (lookup_eq_some_iff.mp found)
  have keyAt : impl.find map key = position := by
    rw [← equal, find_eq_of_bucket bucket]
  rw [← keyAt] at bucket
  exact different (key_eq_of_find bucket)

/-- Deleting the bucket of a key removes that key only. -/
theorem lookup_del_find (other : Key) :
    impl.lookup (impl.del map (impl.find map key)) other =
      if other = key then none else impl.lookup map other := by
  rw [lookup_del]
  by_cases same : other = key
  · simp [same]
  · rw [if_neg same]
    split
    · next equal =>
        cases found : impl.lookup map other with
        | none => rfl
        | some stored => exact absurd equal (find_ne_of_lookup same found)
    · rfl

/-- A key that is not stored is looked for up to the end. -/
theorem find_of_lookup_eq_none (absent : impl.lookup map key = none) :
    impl.find map key = impl.endIndex map := by
  apply List.findIdx_eq_length_of_false
  intro bucket member
  cases bucket with
  | none => rfl
  | some cell =>
      by_contra holds
      have keyEq : cell.1 = key := by simpa [holdsKey] using holds
      subst keyEq
      rw [lookup_eq_some_iff.mpr member] at absent
      cases absent

theorem endIndex_del :
    impl.endIndex (impl.del map index) = impl.endIndex map := by
  simp [endIndex, impl.buckets_del]

theorem size_eq_zero_iff :
    impl.size map = 0 ↔ ∀ key, impl.lookup map key = none := by
  simp only [size, List.countP_eq_zero, lookup_eq_none_iff]
  constructor
  · intro empty key stored member
    simpa using empty _ member
  · intro absent bucket member
    cases bucket with
    | none => simp
    | some cell => exact absurd member (absent cell.1 cell.2)

theorem size_eq_zero_of_del (empty : impl.size map = 0) :
    impl.size (impl.del map index) = 0 := by
  rw [size_eq_zero_iff] at empty ⊢
  intro key
  rw [lookup_del, empty key]
  exact ite_self none

theorem mem_keys_iff :
    key ∈ impl.keys map ↔ impl.lookup map key ≠ none := by
  simp only [keys, List.mem_filterMap, ne_eq, lookup_eq_none_iff]
  push Not
  constructor
  · rintro ⟨bucket, member, bucketEq⟩
    cases bucket with
    | none => simp at bucketEq
    | some cell =>
        obtain rfl : cell.1 = key := by simpa using bucketEq
        exact ⟨cell.2, member⟩
  · rintro ⟨stored, member⟩
    exact ⟨some (key, stored), member, rfl⟩

theorem length_keys (map : impl.Map) :
    (impl.keys map).length = impl.size map := by
  unfold keys size
  induction impl.buckets map with
  | nil => rfl
  | cons bucket cells ih =>
      cases bucket with
      | none => simpa using ih
      | some cell => simpa using ih

theorem size_put_le :
    impl.size (impl.put map key stored) ≤ impl.size map + 1 := by
  rw [← length_keys, ← length_keys, ← List.length_cons]
  refine ((impl.keys_nodup _).subperm fun other member => ?_).length_le
  rw [List.mem_cons, mem_keys_iff]
  have present := mem_keys_iff.mp member
  rw [lookup_put] at present
  by_cases same : other = key
  · exact Or.inl same
  · rw [if_neg same] at present
    exact Or.inr present

theorem size_del_le : impl.size (impl.del map index) ≤ impl.size map := by
  rw [← length_keys, ← length_keys]
  refine ((impl.keys_nodup _).subperm fun other member => ?_).length_le
  rw [mem_keys_iff]
  have present := mem_keys_iff.mp member
  rw [lookup_del] at present
  split at present
  · exact absurd rfl present
  · exact present

/-- A map that a deletion empties had one key. -/
theorem size_eq_one_of_del (found : impl.lookup map key = some stored)
    (empty : impl.size (impl.del map (impl.find map key)) = 0) :
    impl.size map = 1 := by
  have only : impl.keys map ⊆ [key] := by
    intro other member
    rw [List.mem_singleton]
    by_contra different
    have present := mem_keys_iff.mp member
    have missing := size_eq_zero_iff.mp empty other
    rw [lookup_del_find, if_neg different] at missing
    exact present missing
  have atMost := ((impl.keys_nodup map).subperm only).length_le
  have member : key ∈ impl.keys map := by
    rw [mem_keys_iff, found]
    simp
  have some_ := List.length_pos_of_mem member
  have length := length_keys map
  change (impl.keys map).length ≤ 1 at atMost
  omega

/-- Deleting the only key of a map empties it. -/
theorem size_del_of_size_eq_one (only : impl.size map = 1)
    (found : impl.lookup map key = some stored) :
    impl.size (impl.del map (impl.find map key)) = 0 := by
  have length : (impl.keys map).length = 1 := (length_keys map).trans only
  obtain ⟨single, keysEq⟩ := List.length_eq_one_iff.mp length
  have member : key ∈ impl.keys map := by
    rw [mem_keys_iff, found]
    simp
  rw [size_eq_zero_iff]
  intro other
  rw [lookup_del_find]
  by_cases same : other = key
  · rw [if_pos same]
  · rw [if_neg same]
    by_contra present
    have otherMem := mem_keys_iff.mpr present
    rw [keysEq, List.mem_singleton] at member otherMem
    exact same (otherMem.trans member.symm)

/-- The size counts the buckets that have a value, up to any bound. -/
theorem size_eq_countP {bound : Nat} (enough : impl.endIndex map ≤ bound) :
    impl.size map =
      (List.range bound).countP fun index => (impl.value map index).isSome := by
  obtain ⟨more, rfl⟩ := Nat.exists_eq_add_of_le enough
  have beyond : (List.range more).countP (fun index =>
      (impl.value map (impl.endIndex map + index)).isSome) = 0 := by
    rw [List.countP_eq_zero]
    intro index _
    cases found : impl.value map (impl.endIndex map + index) with
    | none => simp
    | some stored =>
        have := lt_endIndex_of_value found
        omega
  have within : (impl.buckets map) = (List.range (impl.endIndex map)).map
      fun index => ((impl.buckets map)[index]?).getD none := by
    apply List.ext_getElem
    · simp [endIndex]
    · intro index inside _
      simp [List.getElem?_eq_getElem inside]
  rw [List.range_add, List.countP_append, List.countP_map]
  have rest : (List.range more).countP ((fun index =>
      (impl.value map index).isSome) ∘ (impl.endIndex map + ·)) = 0 := beyond
  rw [rest, Nat.add_zero, size, within, List.countP_map, endIndex]
  refine List.countP_congr fun index member => ?_
  have inside := List.mem_range.mp member
  unfold value
  simp only [Function.comp_apply, List.getElem?_eq_getElem inside,
    Option.getD_some]
  cases (impl.buckets map)[index] <;> simp

/-- Maps with values in the same buckets are of one size. -/
theorem size_congr {other : impl.Map}
    (same : ∀ index stored, impl.value map index = some stored ↔
      impl.value other index = some stored) :
    impl.size map = impl.size other := by
  rw [size_eq_countP (Nat.le_max_left _ (impl.endIndex other)),
    size_eq_countP (Nat.le_max_right (impl.endIndex map) _)]
  have equal : ∀ index, impl.value map index = impl.value other index :=
    fun index => Option.ext (same index)
  simp only [equal]

/-- What holds of every stored pair can be tested key by key. -/
theorem all_lookup_iff {holds : Key → Value → Prop}
    [∀ key stored, Decidable (holds key stored)] :
    ((impl.keys map).all fun key => (impl.lookup map key).all fun stored =>
        decide (holds key stored)) = true ↔
      ∀ {key stored}, impl.lookup map key = some stored →
        holds key stored := by
  rw [List.all_eq_true]
  constructor
  · intro all key stored found
    have member : key ∈ impl.keys map := by
      rw [mem_keys_iff, found]
      exact Option.some_ne_none stored
    have test := all key member
    rw [found] at test
    exact of_decide_eq_true test
  · intro all key _
    cases found : impl.lookup map key with
    | none => rfl
    | some stored => exact decide_eq_true (all found)

theorem mem_values_iff :
    stored ∈ impl.values map ↔ ∃ key, impl.lookup map key = some stored := by
  unfold values
  rw [List.mem_filterMap]
  constructor
  · rintro ⟨bucket, member, isStored⟩
    obtain ⟨cell, rfl, rfl⟩ := Option.map_eq_some_iff.mp isStored
    exact ⟨cell.1, lookup_eq_some_iff.mpr member⟩
  · rintro ⟨key, found⟩
    exact ⟨_, lookup_eq_some_iff.mp found, rfl⟩

/-- A stored value is in some bucket. -/
theorem exists_value_iff :
    (∃ index, impl.value map index = some stored) ↔
      ∃ key, impl.lookup map key = some stored := by
  constructor
  · rintro ⟨index, found⟩
    obtain ⟨key, foundKey, -⟩ := exists_key_of_value found
    exact ⟨key, foundKey⟩
  · rintro ⟨key, found⟩
    exact ⟨impl.find map key, found⟩

end BucketMap

end SimpleCache
