import SimpleCache.Library.Mixing
import SimpleCache.Store

/-!
# The hash of a name

`MurmurHash3_x86_32` with the seed of the store.  A name is taken in groups of
four bytes and a shorter rest.
-/

namespace SimpleCache

namespace Murmur

open Mixing

/-- `c1` and `c2` of the source. -/
def c1 : BitVec 32 := 0xcc9e2d51
def c2 : BitVec 32 := 0x1b873593

/-- `getblock32` on a machine that stores the low byte first. -/
def getblock32 (b0 b1 b2 b3 : UInt8) : BitVec 32 :=
  b0.toBitVec.setWidth 32 ||| b1.toBitVec.setWidth 32 <<< 8 |||
    b2.toBitVec.setWidth 32 <<< 16 ||| b3.toBitVec.setWidth 32 <<< 24

/-- What is done to every `k1`. -/
def scramble (k1 : BitVec 32) : BitVec 32 := rotl (k1 * c1) 15 * c2

/-- One round of the body. -/
@[irreducible] def mixBlock (h1 k1 : BitVec 32) : BitVec 32 :=
  rotl (h1 ^^^ scramble k1) 13 * 5 + 0xe6546b64

/-- The body, with the bytes that it leaves. -/
def body (h1 : BitVec 32) : Bytes → BitVec 32 × Bytes
  | b0 :: b1 :: b2 :: b3 :: rest => body (mixBlock h1 (getblock32 b0 b1 b2 b3)) rest
  | tail => (h1, tail)

/-- `k1` of the tail: the cases fall through. -/
def tailBlock : Bytes → BitVec 32
  | [] => 0
  | [t0] => t0.toBitVec.setWidth 32
  | [t0, t1] => t1.toBitVec.setWidth 32 <<< 8 ^^^ t0.toBitVec.setWidth 32
  | t0 :: t1 :: t2 :: _ =>
      t2.toBitVec.setWidth 32 <<< 16 ^^^ t1.toBitVec.setWidth 32 <<< 8 ^^^
        t0.toBitVec.setWidth 32

def mixTail (h1 : BitVec 32) (tail : Bytes) : BitVec 32 :=
  if tail = [] then h1 else h1 ^^^ scramble (tailBlock tail)

def fmix32 (h : BitVec 32) : BitVec 32 :=
  let h := h ^^^ h >>> 16
  let h := h * 0x85ebca6b
  let h := h ^^^ h >>> 13
  let h := h * 0xc2b2ae35
  h ^^^ h >>> 16

/-- `MurmurHash3_x86_32`. -/
def murmurHash3 (key : Bytes) (seed : BitVec 32) : BitVec 32 :=
  let (h1, tail) := body seed key
  fmix32 (mixTail h1 tail ^^^ BitVec.ofNat 32 key.length)

/-- `hash_string`, with `HASH_SEED`. -/
def hashString (str : Bytes) : UInt32 := ⟨murmurHash3 str 13⟩

example : murmurHash3 [104, 101, 108, 108, 111] 0 = 0x248bfa47 := by
  decide +kernel

theorem bijective_scramble : Function.Bijective scramble := by
  have first : Function.Bijective fun x : BitVec 32 => x * c1 :=
    bijective_mul (show c1 * 0xdee13bb1 = 1#32 by decide)
  have second : Function.Bijective fun x : BitVec 32 => x * c2 :=
    bijective_mul (show c2 * 0x56ed309b = 1#32 by decide)
  exact (second.comp (bijective_rotl (by omega))).comp first

theorem bijective_fmix32 : Function.Bijective fmix32 := by
  have first : Function.Bijective fun x : BitVec 32 => x * 0x85ebca6b :=
    bijective_mul (show 0x85ebca6b * 0xa5cb9243 = 1#32 by decide)
  have second : Function.Bijective fun x : BitVec 32 => x * 0xc2b2ae35 :=
    bijective_mul (show 0xc2b2ae35 * 0x7ed1b41d = 1#32 by decide)
  have high : Function.Bijective fun x : BitVec 32 => x ^^^ x >>> 16 :=
    bijective_xorShift (by omega)
  have low : Function.Bijective fun x : BitVec 32 => x ^^^ x >>> 13 :=
    bijective_xorShift (by omega)
  exact high.comp (second.comp (low.comp (first.comp high)))

/-- The bytes of a word, the low one first. -/
def wordBytes (word : BitVec 32) : Bytes :=
  [⟨word.extractLsb' 0 8⟩, ⟨word.extractLsb' 8 8⟩, ⟨word.extractLsb' 16 8⟩,
    ⟨word.extractLsb' 24 8⟩]

theorem getLsbD_getblock32 (b0 b1 b2 b3 : UInt8) {i : Nat} (inWord : i < 32) :
    (getblock32 b0 b1 b2 b3).getLsbD i =
      if i < 8 then b0.toBitVec.getLsbD i
      else if i < 16 then b1.toBitVec.getLsbD (i - 8)
      else if i < 24 then b2.toBitVec.getLsbD (i - 16)
      else b3.toBitVec.getLsbD (i - 24) := by
  have beyond : ∀ (byte : UInt8) (j : Nat), 8 ≤ j →
      byte.toBitVec.getLsbD j = false :=
    fun byte j large => BitVec.getLsbD_of_ge _ _ large
  have near : ∀ distance, i - distance < 32 := fun distance => by omega
  unfold getblock32
  simp only [BitVec.getLsbD_or, BitVec.getLsbD_setWidth,
    BitVec.getLsbD_shiftLeft, inWord, near, decide_true, Bool.true_and]
  by_cases first : i < 8
  · have second : i < 16 := by omega
    have third : i < 24 := by omega
    simp [first, second, third]
  · rw [beyond b0 i (by omega), if_neg first]
    by_cases second : i < 16
    · have third : i < 24 := by omega
      simp [first, second, third]
    · rw [beyond b1 (i - 8) (by omega), if_neg second]
      by_cases third : i < 24
      · simp [second, third]
      · rw [beyond b2 (i - 16) (by omega), if_neg third]
        simp [third]

theorem wordBytes_getblock32 (b0 b1 b2 b3 : UInt8) :
    wordBytes (getblock32 b0 b1 b2 b3) = [b0, b1, b2, b3] := by
  have byte : ∀ (start : Nat) (b : UInt8), start + 8 ≤ 32 →
      (∀ i < 8, (getblock32 b0 b1 b2 b3).getLsbD (start + i) =
        b.toBitVec.getLsbD i) →
        (⟨(getblock32 b0 b1 b2 b3).extractLsb' start 8⟩ : UInt8) = b := by
    intro start b inWord same
    apply UInt8.toBitVec_inj.mp
    refine BitVec.eq_of_getLsbD_eq fun i inByte => ?_
    rw [BitVec.getLsbD_extractLsb', same i inByte]
    simp [inByte]
  unfold wordBytes
  rw [byte 0 b0 (by omega), byte 8 b1 (by omega), byte 16 b2 (by omega),
    byte 24 b3 (by omega)]
  · intro i inByte
    rw [getLsbD_getblock32 _ _ _ _ (by omega), if_neg (by omega),
      if_neg (by omega), if_neg (by omega), Nat.add_sub_cancel_left]
  · intro i inByte
    rw [getLsbD_getblock32 _ _ _ _ (by omega), if_neg (by omega),
      if_neg (by omega), if_pos (by omega), Nat.add_sub_cancel_left]
  · intro i inByte
    rw [getLsbD_getblock32 _ _ _ _ (by omega), if_neg (by omega),
      if_pos (by omega), Nat.add_sub_cancel_left]
  · intro i inByte
    rw [getLsbD_getblock32 _ _ _ _ (by omega), if_pos (by omega), Nat.zero_add]

theorem getblock32_wordBytes (word : BitVec 32) :
    getblock32 ⟨word.extractLsb' 0 8⟩ ⟨word.extractLsb' 8 8⟩
      ⟨word.extractLsb' 16 8⟩ ⟨word.extractLsb' 24 8⟩ = word := by
  refine BitVec.eq_of_getLsbD_eq fun i inWord => ?_
  rw [getLsbD_getblock32 _ _ _ _ inWord]
  simp only [BitVec.getLsbD_extractLsb']
  split
  · next first => simp [first]
  · next first =>
      split
      · next second =>
          have same : 8 + (i - 8) = i := by omega
          have near : i - 8 < 8 := by omega
          simp [same, near]
      · next second =>
          split
          · next third =>
              have same : 16 + (i - 16) = i := by omega
              have near : i - 16 < 8 := by omega
              simp [same, near]
          · next third =>
              have same : 24 + (i - 24) = i := by omega
              have near : i - 24 < 8 := by omega
              simp [same, near]

theorem bijective_mixBlock (k1 : BitVec 32) :
    Function.Bijective fun h1 => mixBlock h1 k1 := by
  have five : Function.Bijective fun x : BitVec 32 => x * 5 :=
    bijective_mul (show 5 * 0xcccccccd = 1#32 by decide)
  have turn : Function.Bijective fun x : BitVec 32 => rotl x 13 :=
    bijective_rotl (by omega)
  unfold mixBlock
  exact (bijective_add 0xe6546b64).comp
    (five.comp (turn.comp (bijective_xor (scramble k1))))

/-- For every state the rounds of different groups differ, and some group leads
to any other state. -/
theorem bijective_mixBlock_group (h1 : BitVec 32) :
    Function.Bijective fun k1 => mixBlock h1 k1 := by
  have five : Function.Bijective fun x : BitVec 32 => x * 5 :=
    bijective_mul (show 5 * 0xcccccccd = 1#32 by decide)
  have turn : Function.Bijective fun x : BitVec 32 => rotl x 13 :=
    bijective_rotl (by omega)
  have mixes : Function.Bijective fun k1 => h1 ^^^ scramble k1 := by
    have swapped : (fun k1 => h1 ^^^ scramble k1) =
        (fun x => x ^^^ h1) ∘ scramble :=
      funext fun k1 => BitVec.xor_comm ..
    rw [swapped]
    exact (bijective_xor h1).comp bijective_scramble
  unfold mixBlock
  exact (bijective_add 0xe6546b64).comp (five.comp (turn.comp mixes))

theorem body_cons (h1 : BitVec 32) (b0 b1 b2 b3 : UInt8) (rest : Bytes) :
    body h1 (b0 :: b1 :: b2 :: b3 :: rest) =
      body (mixBlock h1 (getblock32 b0 b1 b2 b3)) rest := rfl

theorem body_append (h1 : BitVec 32) {before : Bytes}
    (aligned : before.length % 4 = 0) (after : Bytes) :
    body h1 (before ++ after) = body (body h1 before).1 after := by
  induction h1, before using body.induct with
  | case1 h1 b0 b1 b2 b3 rest ih =>
      have shorter : rest.length % 4 = 0 := by
        simp only [List.length_cons] at aligned
        omega
      rw [List.cons_append, List.cons_append, List.cons_append,
        List.cons_append, body_cons, body_cons, ih shorter]
  | case2 h1 tail short =>
      match tail, aligned, short with
      | [], _, _ => rfl
      | [_], aligned, _ => simp at aligned
      | [_, _], aligned, _ => simp at aligned
      | [_, _, _], aligned, _ => simp at aligned
      | b0 :: b1 :: b2 :: b3 :: rest, _, short =>
          exact absurd rfl (short b0 b1 b2 b3 rest)

/-- What follows keeps different states apart. -/
theorem body_injective (rest : Bytes) {first second : BitVec 32} :
    (body first rest).2 = (body second rest).2 ∧
      ((body first rest).1 = (body second rest).1 → first = second) := by
  induction first, rest using body.induct generalizing second with
  | case1 first b0 b1 b2 b3 rest ih =>
      obtain ⟨left, apart⟩ :=
        @ih (mixBlock second (getblock32 b0 b1 b2 b3))
      rw [body_cons, body_cons]
      exact ⟨left, fun same => (bijective_mixBlock _).1 (apart same)⟩
  | case2 first tail short =>
      match tail, short with
      | [], _ => exact ⟨rfl, id⟩
      | [_], _ => exact ⟨rfl, id⟩
      | [_, _], _ => exact ⟨rfl, id⟩
      | [_, _, _], _ => exact ⟨rfl, id⟩
      | b0 :: b1 :: b2 :: b3 :: rest, short =>
          exact absurd rfl (short b0 b1 b2 b3 rest)

theorem mixTail_injective (tail : Bytes) {first second : BitVec 32}
    (same : mixTail first tail = mixTail second tail) : first = second := by
  unfold mixTail at same
  split at same
  · exact same
  · exact (bijective_xor _).1 same

/-- The state behind whole groups decides the hash. -/
theorem murmurHash3_eq_iff {before first second after : Bytes}
    (aligned : before.length % 4 = 0) (same : first.length = second.length)
    (group : first.length % 4 = 0) (seed : BitVec 32) :
    murmurHash3 (before ++ (first ++ after)) seed =
        murmurHash3 (before ++ (second ++ after)) seed ↔
      (body (body seed before).1 first).1 =
        (body (body seed before).1 second).1 := by
  have groupSecond : second.length % 4 = 0 := by omega
  have lengths : (before ++ (first ++ after)).length =
      (before ++ (second ++ after)).length := by
    simp only [List.length_append, same]
  unfold murmurHash3
  rw [body_append seed aligned, body_append seed aligned,
    body_append _ group, body_append _ groupSecond, lengths]
  obtain ⟨left, apart⟩ := @body_injective after
    (body (body seed before).1 first).1 (body (body seed before).1 second).1
  constructor
  · intro hashes
    dsimp only at hashes
    have mixed := (bijective_xor _).1 (bijective_fmix32.1 hashes)
    rw [left] at mixed
    exact apart (mixTail_injective _ mixed)
  · intro states
    rw [states]

/-- A group of four bytes. -/
theorem exists_group {bytes : Bytes} (four : bytes.length = 4) :
    ∃ b0 b1 b2 b3, bytes = [b0, b1, b2, b3] := by
  match bytes, four with
  | [b0, b1, b2, b3], _ => exact ⟨b0, b1, b2, b3, rfl⟩

theorem getblock32_injective {b0 b1 b2 b3 d0 d1 d2 d3 : UInt8}
    (same : getblock32 b0 b1 b2 b3 = getblock32 d0 d1 d2 d3) :
    [b0, b1, b2, b3] = [d0, d1, d2, d3] := by
  rw [← wordBytes_getblock32, same, wordBytes_getblock32]

theorem body_group_injective (h1 : BitVec 32) {first second : Bytes}
    (four : first.length = 4) (same : first.length = second.length)
    (states : (body h1 first).1 = (body h1 second).1) : first = second := by
  obtain ⟨b0, b1, b2, b3, rfl⟩ := exists_group four
  obtain ⟨d0, d1, d2, d3, rfl⟩ := exists_group (same ▸ four)
  rw [body_cons, body_cons] at states
  exact getblock32_injective ((bijective_mixBlock_group h1).1 states)

theorem tailBlock_eq_getblock32 (t0 t1 t2 : UInt8) :
    tailBlock [t0, t1, t2] = getblock32 t0 t1 t2 0 := by
  have beyond : ∀ (byte : UInt8) (j : Nat), 8 ≤ j →
      byte.toBitVec.getLsbD j = false :=
    fun byte j large => BitVec.getLsbD_of_ge _ _ large
  refine BitVec.eq_of_getLsbD_eq fun i inWord => ?_
  have near : ∀ distance, i - distance < 32 := fun distance => by omega
  rw [getLsbD_getblock32 _ _ _ _ inWord]
  unfold tailBlock
  simp only [BitVec.getLsbD_xor, BitVec.getLsbD_setWidth,
    BitVec.getLsbD_shiftLeft, inWord, near, decide_true, Bool.true_and]
  by_cases first : i < 8
  · have second : i < 16 := by omega
    simp [first, second]
  · rw [beyond t0 i (by omega), if_neg first]
    by_cases second : i < 16
    · simp [first, second]
    · rw [beyond t1 (i - 8) (by omega), if_neg second]
      by_cases third : i < 24
      · simp [second, third]
      · rw [beyond t2 (i - 16) (by omega), if_neg third]
        simp [second]

theorem tailBlock_injective {first second : Bytes}
    (same : first.length = second.length) (short : first.length < 4)
    (blocks : tailBlock first = tailBlock second) : first = second := by
  have one : ∀ t0, tailBlock [t0] = tailBlock [t0, 0, 0] := by
    intro t0
    simp [tailBlock]
  have two : ∀ t0 t1, tailBlock [t0, t1] = tailBlock [t0, t1, 0] := by
    intro t0 t1
    simp [tailBlock]
  match first, second, same, short with
  | [], [], _, _ => rfl
  | [t0], [u0], _, _ =>
      rw [one, one, tailBlock_eq_getblock32, tailBlock_eq_getblock32] at blocks
      have groups := getblock32_injective blocks
      rw [(List.cons.inj groups).1]
  | [t0, t1], [u0, u1], _, _ =>
      rw [two, two, tailBlock_eq_getblock32, tailBlock_eq_getblock32] at blocks
      have groups := getblock32_injective blocks
      obtain ⟨rfl, behind⟩ := List.cons.inj groups
      rw [(List.cons.inj behind).1]
  | [t0, t1, t2], [u0, u1, u2], _, _ =>
      rw [tailBlock_eq_getblock32, tailBlock_eq_getblock32] at blocks
      have groups := getblock32_injective blocks
      obtain ⟨rfl, behind⟩ := List.cons.inj groups
      obtain ⟨rfl, last⟩ := List.cons.inj behind
      rw [(List.cons.inj last).1]

theorem body_short (h1 : BitVec 32) {tail : Bytes} (short : tail.length < 4) :
    body h1 tail = (h1, tail) := by
  match tail, short with
  | [], _ => rfl
  | [_], _ => rfl
  | [_, _], _ => rfl
  | [_, _, _], _ => rfl

/-- The rest of a name decides the hash. -/
theorem murmurHash3_rest_injective {before first second : Bytes}
    (aligned : before.length % 4 = 0) (same : first.length = second.length)
    (short : first.length < 4) {seed : BitVec 32}
    (hashes : murmurHash3 (before ++ first) seed =
      murmurHash3 (before ++ second) seed) : first = second := by
  have lengths : (before ++ first).length = (before ++ second).length := by
    simp only [List.length_append, same]
  have shortSecond : second.length < 4 := by omega
  unfold murmurHash3 at hashes
  rw [body_append seed aligned, body_append seed aligned, body_short _ short,
    body_short _ shortSecond, lengths] at hashes
  have mixed := (bijective_xor _).1 (bijective_fmix32.1 hashes)
  unfold mixTail at mixed
  by_cases nothing : first = []
  · rw [nothing, List.length_nil] at same
    rw [nothing, List.eq_nil_of_length_eq_zero same.symm]
  · have something : second ≠ [] := by
      rintro rfl
      exact nothing (List.eq_nil_of_length_eq_zero same)
    rw [if_neg nothing, if_neg something] at mixed
    rw [BitVec.xor_right_inj] at mixed
    exact tailBlock_injective same short (bijective_scramble.1 mixed)

theorem hashString_eq_iff {first second : Bytes} :
    hashString first = hashString second ↔
      murmurHash3 first 13 = murmurHash3 second 13 :=
  ⟨fun same => congrArg UInt32.toBitVec same, fun same =>
    congrArg UInt32.ofBitVec same⟩

/-- Names of one length that differ in one aligned group of four bytes only, or
in the rest behind the groups, have different hashes. -/
theorem hashString_group_injective {before first second after : Bytes}
    (aligned : before.length % 4 = 0) (same : first.length = second.length)
    (group : first.length = 4 ∨ first.length < 4 ∧ after = [])
    (hashes : hashString (before ++ (first ++ after)) =
      hashString (before ++ (second ++ after))) : first = second := by
  have hashes := hashString_eq_iff.mp hashes
  rcases group with four | ⟨short, rfl⟩
  · exact body_group_injective _ four same
      ((murmurHash3_eq_iff aligned same (by omega) 13).mp hashes)
  · rw [List.append_nil, List.append_nil] at hashes
    exact murmurHash3_rest_injective aligned same short hashes

/-- The names that differ in two letters of one group only. -/
theorem hashString_group_injective_keys :
    hashString ([47, 97, 98, 99] ++ ([1, 2, 3, 4] ++ [9])) ≠
      hashString ([47, 97, 98, 99] ++ ([1, 3, 2, 4] ++ [9])) :=
  fun hashes => absurd (hashString_group_injective (by decide) (by decide)
    (Or.inl (by decide)) hashes) (by decide)

/-- Whatever group of four bytes replaces another, exactly one group behind it
makes the hash what it was: names of eight bytes and more collide at will. -/
theorem existsUnique_collision {before first second after : Bytes}
    (aligned : before.length % 4 = 0) (isFirst : first.length = 4)
    (isSecond : second.length = 4) {other : Bytes} (isOther : other.length = 4) :
    ∃! group : Bytes, group.length = 4 ∧
      hashString (before ++ (other ++ (group ++ after))) =
        hashString (before ++ (first ++ (second ++ after))) := by
  obtain ⟨b0, b1, b2, b3, rfl⟩ := exists_group isSecond
  -- the hashes agree where the states behind both groups do
  have same : ∀ {group : Bytes}, group.length = 4 →
      (hashString (before ++ (other ++ (group ++ after))) =
          hashString (before ++ (first ++ ([b0, b1, b2, b3] ++ after))) ↔
        (body (body (body 13 before).1 other).1 group).1 =
          (body (body (body 13 before).1 first).1 [b0, b1, b2, b3]).1) := by
    intro group isGroup
    have lengths : (other ++ group).length =
        (first ++ [b0, b1, b2, b3]).length := by
      simp [isOther, isGroup, isFirst]
    have whole : (other ++ group).length % 4 = 0 := by
      rw [List.length_append, isOther, isGroup]
    rw [hashString_eq_iff, ← List.append_assoc other, ← List.append_assoc first,
      murmurHash3_eq_iff aligned lengths whole, body_append _ (by omega),
      body_append _ (by omega)]
  obtain ⟨k1, mixes, unique⟩ :=
    (bijective_mixBlock_group (body (body 13 before).1 other).1).existsUnique
      (body (body (body 13 before).1 first).1 [b0, b1, b2, b3]).1
  refine ⟨wordBytes k1, ⟨rfl, ?_⟩, ?_⟩
  · rw [same rfl]
    unfold wordBytes
    rw [body_cons, getblock32_wordBytes]
    exact mixes
  · rintro group ⟨isGroup, hashes⟩
    have states := (same isGroup).mp hashes
    obtain ⟨d0, d1, d2, d3, rfl⟩ := exists_group isGroup
    rw [body_cons] at states
    rw [← unique (getblock32 d0 d1 d2 d3) states, wordBytes_getblock32]

/-- The names "abcdefgh" and "abcX....". -/
theorem existsUnique_collision_keys :
    ∃! group : Bytes, group.length = 4 ∧
      hashString ([] ++ ([97, 98, 99, 88] ++ (group ++ []))) =
        hashString ([] ++ ([97, 98, 99, 100] ++ ([101, 102, 103, 104] ++ []))) :=
  existsUnique_collision rfl rfl rfl rfl

end Murmur

end SimpleCache
