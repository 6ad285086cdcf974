import Mathlib.Data.Finset.Card
import Mathlib.Data.Finset.Range
import SimpleCache.Library.Outcome
import SimpleCache.Library.Triangular
import SimpleCache.Store

/-!
# The hash tables of the store

`khash.h` with 32-bit keys that are their own hashes, as tables and entries use
it.  Buckets are empty, deleted or taken; two bits of `flags` say which.
Searches probe triangularly, and a table that has been resized is rehashed in
place, where a key that is placed kicks out one that still has to be moved.
-/

namespace SimpleCache

namespace Khash

variable {Value : Type}

abbrev Flags := Nat → BitVec 32

/-- Where the two bits of a bucket lie in their word. -/
def shift (i : Nat) : Nat := (i &&& 0xf) <<< 1

/-- `__ac_isempty`. -/
def isEmpty (flags : Flags) (i : Nat) : Bool :=
  (flags (i >>> 4) >>> shift i) &&& 2#32 ≠ 0#32

/-- `__ac_isdel`. -/
def isDel (flags : Flags) (i : Nat) : Bool :=
  (flags (i >>> 4) >>> shift i) &&& 1#32 ≠ 0#32

/-- `__ac_iseither`. -/
def isEither (flags : Flags) (i : Nat) : Bool :=
  (flags (i >>> 4) >>> shift i) &&& 3#32 ≠ 0#32

/-- `__ac_set_isempty_false`. -/
def setIsEmptyFalse (flags : Flags) (i : Nat) : Flags :=
  Function.update flags (i >>> 4)
    (flags (i >>> 4) &&& ~~~(2#32 <<< shift i))

/-- `__ac_set_isboth_false`. -/
def setIsBothFalse (flags : Flags) (i : Nat) : Flags :=
  Function.update flags (i >>> 4)
    (flags (i >>> 4) &&& ~~~(3#32 <<< shift i))

/-- `__ac_set_isdel_true`. -/
def setIsDelTrue (flags : Flags) (i : Nat) : Flags :=
  Function.update flags (i >>> 4) (flags (i >>> 4) ||| 1#32 <<< shift i)

/-- `memset` with `0xaa`. -/
def emptyFlags : Flags := fun _ => 0xaaaaaaaa#32

section Flags

variable (flags : Flags) (i j : Nat)

theorem word_eq : i >>> 4 = i / 16 := Nat.shiftRight_eq_div_pow i 4

theorem shift_eq : shift i = 2 * (i % 16) := by
  unfold shift
  rw [Nat.and_two_pow_sub_one_eq_mod i 4, Nat.shiftLeft_eq]
  omega

theorem isEmpty_eq :
    isEmpty flags i = (flags (i / 16)).getLsbD (2 * (i % 16) + 1) := by
  unfold isEmpty
  have two : 2#32 = BitVec.twoPow 32 1 := rfl
  have nonzero : BitVec.twoPow 32 1 ≠ 0#32 := by decide
  rw [word_eq, shift_eq, two, BitVec.and_twoPow, BitVec.getLsbD_ushiftRight]
  split
  · next set => simp [set, nonzero]
  · next clear => simp [clear]

theorem isDel_eq :
    isDel flags i = (flags (i / 16)).getLsbD (2 * (i % 16)) := by
  unfold isDel
  have one : 1#32 = BitVec.twoPow 32 0 := rfl
  have nonzero : BitVec.twoPow 32 0 ≠ 0#32 := by decide
  rw [word_eq, shift_eq, one, BitVec.and_twoPow, BitVec.getLsbD_ushiftRight,
    Nat.add_zero]
  split
  · next set => simp [set, nonzero]
  · next clear => simp [clear]

theorem isEither_eq : isEither flags i = (isEmpty flags i || isDel flags i) := by
  have three : 3#32 = 2#32 ||| 1#32 := rfl
  unfold isEither isEmpty isDel
  rw [three, BitVec.and_or_distrib_left]
  by_cases empty : flags (i >>> 4) >>> shift i &&& 2#32 = 0#32
  · simp [empty]
  · have either : ¬(flags (i >>> 4) >>> shift i &&& 2#32 |||
        flags (i >>> 4) >>> shift i &&& 1#32) = 0#32 :=
      fun both => empty (BitVec.or_eq_zero_iff.mp both).1
    simp [empty, either]

/-- The bits of the masks. -/
theorem mask_bits : ∀ first < 16, ∀ second < 16,
    (2#32 <<< (2 * first)).getLsbD (2 * second) = false ∧
      (2#32 <<< (2 * first)).getLsbD (2 * second + 1) =
        decide (second = first) ∧
      (1#32 <<< (2 * first)).getLsbD (2 * second) = decide (second = first) ∧
      (1#32 <<< (2 * first)).getLsbD (2 * second + 1) = false ∧
      (3#32 <<< (2 * first)).getLsbD (2 * second) = decide (second = first) ∧
      (3#32 <<< (2 * first)).getLsbD (2 * second + 1) =
        decide (second = first) := by
  decide +kernel

/-- Two buckets in one word. -/
theorem decide_mod_eq (same : j / 16 = i / 16) :
    decide (j % 16 = i % 16) = decide (j = i) := by
  rw [decide_eq_decide]
  omega

@[simp] theorem isEmpty_setIsEmptyFalse :
    isEmpty (setIsEmptyFalse flags i) j = (isEmpty flags j && decide (j ≠ i)) := by
  unfold setIsEmptyFalse
  rw [isEmpty_eq, isEmpty_eq, word_eq, shift_eq]
  obtain ⟨-, bit, -⟩ :=
    mask_bits (i % 16) (Nat.mod_lt _ (by omega)) (j % 16)
      (Nat.mod_lt _ (by omega))
  by_cases same : j / 16 = i / 16
  · have inWord : 2 * (j % 16) + 1 < 32 := by omega
    simp only [same, Function.update_self, BitVec.getLsbD_and,
      BitVec.getLsbD_not, inWord, bit, decide_mod_eq i j same]
    simp
  · have other : j ≠ i := fun equal => same (by rw [equal])
    simp [same, other]

@[simp] theorem isDel_setIsEmptyFalse :
    isDel (setIsEmptyFalse flags i) j = isDel flags j := by
  unfold setIsEmptyFalse
  rw [isDel_eq, isDel_eq, word_eq, shift_eq]
  obtain ⟨bit, -⟩ :=
    mask_bits (i % 16) (Nat.mod_lt _ (by omega)) (j % 16)
      (Nat.mod_lt _ (by omega))
  by_cases same : j / 16 = i / 16
  · have inWord : 2 * (j % 16) < 32 := by omega
    simp only [same, Function.update_self, BitVec.getLsbD_and,
      BitVec.getLsbD_not, inWord, bit]
    simp
  · simp [same]

@[simp] theorem isEmpty_setIsBothFalse :
    isEmpty (setIsBothFalse flags i) j = (isEmpty flags j && decide (j ≠ i)) := by
  unfold setIsBothFalse
  rw [isEmpty_eq, isEmpty_eq, word_eq, shift_eq]
  obtain ⟨-, -, -, -, -, bit⟩ :=
    mask_bits (i % 16) (Nat.mod_lt _ (by omega)) (j % 16)
      (Nat.mod_lt _ (by omega))
  by_cases same : j / 16 = i / 16
  · have inWord : 2 * (j % 16) + 1 < 32 := by omega
    simp only [same, Function.update_self, BitVec.getLsbD_and,
      BitVec.getLsbD_not, inWord, bit, decide_mod_eq i j same]
    simp
  · have other : j ≠ i := fun equal => same (by rw [equal])
    simp [same, other]

@[simp] theorem isDel_setIsBothFalse :
    isDel (setIsBothFalse flags i) j = (isDel flags j && decide (j ≠ i)) := by
  unfold setIsBothFalse
  rw [isDel_eq, isDel_eq, word_eq, shift_eq]
  obtain ⟨-, -, -, -, bit, -⟩ :=
    mask_bits (i % 16) (Nat.mod_lt _ (by omega)) (j % 16)
      (Nat.mod_lt _ (by omega))
  by_cases same : j / 16 = i / 16
  · have inWord : 2 * (j % 16) < 32 := by omega
    simp only [same, Function.update_self, BitVec.getLsbD_and,
      BitVec.getLsbD_not, inWord, bit, decide_mod_eq i j same]
    simp
  · have other : j ≠ i := fun equal => same (by rw [equal])
    simp [same, other]

@[simp] theorem isEmpty_setIsDelTrue :
    isEmpty (setIsDelTrue flags i) j = isEmpty flags j := by
  unfold setIsDelTrue
  rw [isEmpty_eq, isEmpty_eq, word_eq, shift_eq]
  obtain ⟨-, -, -, bit, -⟩ :=
    mask_bits (i % 16) (Nat.mod_lt _ (by omega)) (j % 16)
      (Nat.mod_lt _ (by omega))
  by_cases same : j / 16 = i / 16
  · simp only [same, Function.update_self, BitVec.getLsbD_or, bit,
      Bool.or_false]
  · simp [same]

@[simp] theorem isDel_setIsDelTrue :
    isDel (setIsDelTrue flags i) j = (isDel flags j || decide (j = i)) := by
  unfold setIsDelTrue
  rw [isDel_eq, isDel_eq, word_eq, shift_eq]
  obtain ⟨-, -, bit, -⟩ :=
    mask_bits (i % 16) (Nat.mod_lt _ (by omega)) (j % 16)
      (Nat.mod_lt _ (by omega))
  by_cases same : j / 16 = i / 16
  · simp only [same, Function.update_self, BitVec.getLsbD_or, bit,
      decide_mod_eq i j same]
  · have other : j ≠ i := fun equal => same (by rw [equal])
    simp [same, other]

@[simp] theorem isEmpty_emptyFlags : isEmpty emptyFlags i = true := by
  have bits : ∀ place < 16, (0xaaaaaaaa#32).getLsbD (2 * place + 1) = true := by
    decide
  rw [isEmpty_eq]
  exact bits (i % 16) (Nat.mod_lt _ (by omega))

@[simp] theorem isDel_emptyFlags : isDel emptyFlags i = false := by
  have bits : ∀ place < 16, (0xaaaaaaaa#32).getLsbD (2 * place) = false := by
    decide
  rw [isDel_eq]
  exact bits (i % 16) (Nat.mod_lt _ (by omega))

end Flags

/-- `kh_##name##_t`. -/
structure Table (Value : Type) where
  nBuckets : Nat
  size : Nat
  nOccupied : Nat
  upperBound : Nat
  flags : Flags
  keys : Nat → UInt32
  vals : Nat → Value

/-- `kh_init`. -/
def khInit [Inhabited Value] : Table Value where
  nBuckets := 0
  size := 0
  nOccupied := 0
  upperBound := 0
  flags := emptyFlags
  keys := fun _ => 0
  vals := fun _ => default

/-- `(khint_t)(m * __ac_HASH_UPPER + 0.5)` with 0.77.  No power of two from 4 on
comes closer than a fiftieth to where the rounding would matter. -/
def upper (buckets : Nat) : Nat := (77 * buckets + 50) / 100

/-- The loop of `kh_get`. -/
def getLoop (h : Table Value) (key : UInt32) (mask last : Nat) :
    (rounds : Nat) → (i step : Nat) → Except Fault Nat
  | 0, _, _ => throw .endless
  | rounds + 1, i, step =>
      if isEmpty h.flags i = false ∧
          (isDel h.flags i = true ∨ h.keys i ≠ key) then
        let i := (i + (step + 1)) &&& mask
        if i = last then return h.nBuckets
        else getLoop h key mask last rounds i (step + 1)
      else return if isEither h.flags i then h.nBuckets else i

/-- `kh_get`. -/
def khGet (h : Table Value) (key : UInt32) : Except Fault Nat :=
  if h.nBuckets ≠ 0 then
    let mask := h.nBuckets - 1
    let i := key.toNat &&& mask
    getLoop h key mask i (2 * h.nBuckets) i 0
  else return 0

/-- `kroundup32`. -/
def kroundup32 (x : Nat) : Nat :=
  let x := (x + 4294967295) % 4294967296
  let x := x ||| x >>> 1
  let x := x ||| x >>> 2
  let x := x ||| x >>> 4
  let x := x ||| x >>> 8
  let x := x ||| x >>> 16
  (x + 1) % 4294967296

/-- What `kh_resize` works on. -/
structure Rehash (Value : Type) where
  flags : Flags
  newFlags : Flags
  keys : Nat → UInt32
  vals : Nat → Value

/-- Probe for a bucket that is still empty. -/
def freeLoop (newFlags : Flags) (newMask : Nat) :
    (rounds : Nat) → (i step : Nat) → Except Fault Nat
  | 0, _, _ => throw .endless
  | rounds + 1, i, step =>
      if isEmpty newFlags i = false then
        freeLoop newFlags newMask rounds ((i + (step + 1)) &&& newMask)
          (step + 1)
      else return i

/-- The kick-out process. -/
def kickOut (nBuckets newBuckets : Nat) : (rounds : Nat) → Rehash Value →
    UInt32 → Value → Except Fault (Rehash Value)
  | 0, _, _, _ => throw .endless
  | rounds + 1, table, key, val => do
      let newMask := newBuckets - 1
      let i ← freeLoop table.newFlags newMask newBuckets
        (key.toNat &&& newMask) 0
      let newFlags := setIsEmptyFalse table.newFlags i
      let keys := Function.update table.keys i key
      let vals := Function.update table.vals i val
      if i < nBuckets ∧ isEither table.flags i = false then
        -- the element that is there still has to be moved
        kickOut nBuckets newBuckets rounds
          { flags := setIsDelTrue table.flags i, newFlags, keys, vals }
          (table.keys i) (table.vals i)
      else return { table with newFlags, keys, vals }

def rehashBucket (nBuckets newBuckets : Nat) (table : Rehash Value) (j : Nat) :
    Except Fault (Rehash Value) :=
  if isEither table.flags j = false then
    kickOut nBuckets newBuckets (nBuckets + 1)
      { table with flags := setIsDelTrue table.flags j }
      (table.keys j) (table.vals j)
  else return table

/-- The number of buckets that `kh_resize` settles on. -/
def settled (requested : Nat) : Nat :=
  if kroundup32 requested < 4 then 4 else kroundup32 requested

/-- Nothing has been moved. -/
def Rehash.start (h : Table Value) : Rehash Value where
  flags := h.flags
  newFlags := emptyFlags
  keys := h.keys
  vals := h.vals

/-- `kh_resize`, where memory can be allocated. -/
def khResize (h : Table Value) (requested : Nat) :
    Except Fault (Table Value) := do
  let newBuckets := settled requested
  if upper newBuckets ≤ h.size then
    return h
  else
    let table ← (List.range h.nBuckets).foldlM
      (rehashBucket h.nBuckets newBuckets) (Rehash.start h)
    return {
      nBuckets := newBuckets
      size := h.size
      nOccupied := h.size
      upperBound := upper newBuckets
      flags := table.newFlags
      keys := table.keys
      vals := table.vals }

/-- The loop of `kh_put`: where it ends, the last deleted bucket it has passed
and whether it has come around. -/
def putLoop (h : Table Value) (key : UInt32) (mask last : Nat) :
    (rounds : Nat) → (i step site : Nat) → Except Fault (Nat × Nat × Bool)
  | 0, _, _, _ => throw .endless
  | rounds + 1, i, step, site =>
      if isEmpty h.flags i = false ∧
          (isDel h.flags i = true ∨ h.keys i ≠ key) then
        let site := if isDel h.flags i then i else site
        let i := (i + (step + 1)) &&& mask
        if i = last then return (i, site, true)
        else putLoop h key mask last rounds i (step + 1) site
      else return (i, site, false)

/-- The bucket that `kh_put` decides on. -/
def putBucket (h : Table Value) (key : UInt32) : Except Fault Nat :=
  let mask := h.nBuckets - 1
  let i := key.toNat &&& mask
  if isEmpty h.flags i then return i
  else do
    let (i, site, around) ←
      putLoop h key mask i (2 * h.nBuckets) i 0 h.nBuckets
    let x := if around then site else h.nBuckets
    return if x = h.nBuckets then
      if isEmpty h.flags i ∧ site ≠ h.nBuckets then site else i
    else x

/-- `kh_put` updates the hash table. -/
def makeRoom (h : Table Value) : Except Fault (Table Value) :=
  if h.upperBound ≤ h.nOccupied then
    if (h.size <<< 1) % 4294967296 < h.nBuckets then
      khResize h (h.nBuckets - 1)
    else khResize h (h.nBuckets + 1)
  else return h

/-- `kh_put` takes the bucket, with `ret`. -/
def claim (h : Table Value) (key : UInt32) (x : Nat) : Table Value × Nat :=
  if isEmpty h.flags x then
    ({ h with
      keys := Function.update h.keys x key
      flags := setIsBothFalse h.flags x
      size := h.size + 1
      nOccupied := h.nOccupied + 1 }, 1)
  else if isDel h.flags x then
    ({ h with
      keys := Function.update h.keys x key
      flags := setIsBothFalse h.flags x
      size := h.size + 1 }, 2)
  else (h, 0)

/-- `kh_put`, with the bucket and `ret`. -/
def khPut (h : Table Value) (key : UInt32) :
    Except Fault (Table Value × Nat × Nat) := do
  let h ← makeRoom h
  let x ← putBucket h key
  let (h, ret) := claim h key x
  return (h, x, ret)

/-- `kh_value(h, x) = value`. -/
def setValue (h : Table Value) (x : Nat) (value : Value) : Table Value :=
  { h with vals := Function.update h.vals x value }

/-- `kh_del`. -/
def khDel (h : Table Value) (x : Nat) : Table Value :=
  if x ≠ h.nBuckets ∧ isEither h.flags x = false then
    { h with flags := setIsDelTrue h.flags x, size := h.size - 1 }
  else h

end Khash

end SimpleCache
