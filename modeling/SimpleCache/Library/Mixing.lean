import Mathlib.Data.Fintype.EquivFin
import Mathlib.Data.BitVec

/-!
# Mixing words

The steps that hash functions mix words with lose nothing: a rotation, a
multiplication by a number with an inverse, and the exclusive or of a word and
its own shift.
-/

namespace SimpleCache

namespace Mixing

variable {width : Nat}

/-- What is injective on words is onto. -/
theorem bijective {mix : BitVec width → BitVec width}
    (injective : Function.Injective mix) : Function.Bijective mix := by
  have finite : Finite (BitVec width) :=
    Finite.of_injective BitVec.toFin fun _ _ => BitVec.eq_of_toFin_eq
  exact Finite.injective_iff_bijective.mp injective

theorem bijective_xor (word : BitVec width) :
    Function.Bijective fun x => x ^^^ word := by
  refine bijective fun first second same => ?_
  have both : first ^^^ word ^^^ word = second ^^^ word ^^^ word :=
    congrArg (· ^^^ word) same
  rw [BitVec.xor_assoc, BitVec.xor_assoc, BitVec.xor_self, BitVec.xor_zero,
    BitVec.xor_zero] at both
  exact both

theorem bijective_add (word : BitVec width) :
    Function.Bijective fun x => x + word :=
  bijective fun _ _ same => (BitVec.add_left_inj word).mp same

theorem bijective_mul {factor inverse : BitVec width}
    (isInverse : factor * inverse = BitVec.ofNat width 1) :
    Function.Bijective fun x => x * factor := by
  refine bijective fun first second same => ?_
  have both : first * factor * inverse = second * factor * inverse :=
    congrArg (· * inverse) same
  rw [BitVec.mul_assoc, BitVec.mul_assoc, isInverse, BitVec.mul_one,
    BitVec.mul_one] at both
  exact both

/-- A word that is its own shift is zero. -/
theorem eq_zero_of_shift {word : BitVec width} {distance : Nat}
    (positive : 0 < distance) (same : word = word >>> distance) :
    word = BitVec.ofNat width 0 := by
  have value := congrArg BitVec.toNat same
  rw [BitVec.toNat_ushiftRight, Nat.shiftRight_eq_div_pow] at value
  apply BitVec.eq_of_toNat_eq
  rw [BitVec.toNat_ofNat, Nat.zero_mod]
  by_contra some_
  have two : 2 ≤ 2 ^ distance := by
    have : 2 ^ 1 ≤ 2 ^ distance :=
      Nat.pow_le_pow_right (by omega) positive
    omega
  have less := Nat.div_lt_self (Nat.pos_of_ne_zero some_) two
  omega

theorem bijective_xorShift {distance : Nat} (positive : 0 < distance) :
    Function.Bijective fun x : BitVec width => x ^^^ x >>> distance := by
  refine bijective fun first second same => ?_
  have shifted : first ^^^ second = (first ^^^ second) >>> distance := by
    rw [← BitVec.xor_eq_zero_iff, BitVec.ushiftRight_xor_distrib]
    calc first ^^^ second ^^^ (first >>> distance ^^^ second >>> distance)
        = first ^^^ first >>> distance ^^^
            (second ^^^ second >>> distance) := by ac_rfl
      _ = BitVec.ofNat width 0 := BitVec.xor_eq_zero_iff.mpr same
  exact BitVec.xor_eq_zero_iff.mp (eq_zero_of_shift positive shifted)

/-- The bits that go out on the left come in on the right. -/
def rotl (word : BitVec width) (distance : Nat) : BitVec width :=
  (word <<< distance) ||| (word >>> (width - distance))

theorem getLsbD_rotl (word : BitVec width) {distance i : Nat}
    (less : distance ≤ width) (inWord : i < width) :
    word.getLsbD i = if i + distance < width then
      (rotl word distance).getLsbD (i + distance)
    else (rotl word distance).getLsbD (i + distance - width) := by
  unfold rotl
  split
  · next stays =>
      have beyond : word.getLsbD (width - distance + (i + distance)) = false :=
        BitVec.getLsbD_of_ge _ _ (by omega)
      rw [BitVec.getLsbD_or, BitVec.getLsbD_shiftLeft,
        BitVec.getLsbD_ushiftRight, beyond, Nat.add_sub_cancel]
      simp [stays]
  · next goes =>
      have same : width - distance + (i + distance - width) = i := by omega
      have low : i + distance - width < distance := by omega
      rw [BitVec.getLsbD_or, BitVec.getLsbD_shiftLeft,
        BitVec.getLsbD_ushiftRight, same]
      simp [low]

theorem bijective_rotl {distance : Nat} (less : distance ≤ width) :
    Function.Bijective fun x : BitVec width => rotl x distance := by
  refine bijective fun first second same => ?_
  refine BitVec.eq_of_getLsbD_eq fun i inWord => ?_
  rw [getLsbD_rotl first less inWord, getLsbD_rotl second less inWord]
  exact congrArg (fun word : BitVec width => if i + distance < width then
    word.getLsbD (i + distance) else word.getLsbD (i + distance - width)) same

end Mixing

end SimpleCache
