import Mathlib.Data.Nat.Bitwise
import Mathlib.Data.Nat.ModEq
import Mathlib.Algebra.Order.Ring.Nat
import Mathlib.Data.Nat.Prime.Basic
import Mathlib.Data.Fintype.EquivFin
import Mathlib.Tactic.Linarith
import Mathlib.Data.Fintype.Card
import Mathlib.Tactic.Ring

/-!
# Triangular probing

A table has a power of two of slots.  A walk goes one slot further from its
start, then two, then three, and wraps around.  It meets every slot in as many
steps as there are slots.
-/

namespace SimpleCache

namespace Triangular

/-- The slots of a walk. -/
def walk (mask start : Nat) : Nat → Nat
  | 0 => start
  | step + 1 => (walk mask start step + (step + 1)) &&& mask

/-- The sum of the first steps. -/
def distance : Nat → Nat
  | 0 => 0
  | step + 1 => distance step + (step + 1)

theorem two_mul_distance (step : Nat) :
    2 * distance step = step * (step + 1) := by
  induction step with
  | zero => rfl
  | succ step ih =>
      unfold distance
      rw [Nat.mul_add, ih]
      ring

variable {exponent start : Nat}

theorem walk_eq (inRange : start < 2 ^ exponent) (step : Nat) :
    walk (2 ^ exponent - 1) start step =
      (start + distance step) % 2 ^ exponent := by
  induction step with
  | zero => exact (Nat.mod_eq_of_lt inRange).symm
  | succ step ih =>
      unfold walk distance
      rw [ih, Nat.and_two_pow_sub_one_eq_mod, Nat.mod_add_mod, Nat.add_assoc]

theorem walk_lt (inRange : start < 2 ^ exponent) (step : Nat) :
    walk (2 ^ exponent - 1) start step < 2 ^ exponent := by
  rw [walk_eq inRange]
  exact Nat.mod_lt _ (Nat.two_pow_pos exponent)

/-- Of the two factors of the difference one is odd. -/
theorem dvd_of_even_product {first second : Nat} (less : second < first)
    (divides : 2 ^ (exponent + 1) ∣ (first - second) * (first + second + 1)) :
    2 ^ (exponent + 1) ∣ first - second ∨
      2 ^ (exponent + 1) ∣ first + second + 1 := by
  rcases Nat.even_or_odd (first - second) with even | odd
  · have other : Odd (first + second + 1) := by
      obtain ⟨half, isHalf⟩ := even
      exact ⟨half + second, by omega⟩
    exact Or.inl (Nat.Coprime.dvd_of_dvd_mul_right
      (Nat.Coprime.pow_left _ (Nat.coprime_two_left.mpr other)) divides)
  · exact Or.inr (Nat.Coprime.dvd_of_dvd_mul_left
      (Nat.Coprime.pow_left _ (Nat.coprime_two_left.mpr odd)) divides)

theorem distance_injective {first second : Nat} (inFirst : first < 2 ^ exponent)
    (less : second < first) :
    distance first % 2 ^ exponent ≠ distance second % 2 ^ exponent := by
  intro same
  have increases : distance second ≤ distance first := by
    have one := two_mul_distance first
    have two := two_mul_distance second
    have product := Nat.mul_le_mul less.le (Nat.succ_le_succ less.le)
    simp only [Nat.succ_eq_add_one] at product
    omega
  obtain ⟨count, isCount⟩ := (Nat.modEq_iff_dvd' increases).mp
    (show distance second ≡ distance first [MOD 2 ^ exponent] from same.symm)
  have divides : 2 ^ (exponent + 1) ∣
      (first - second) * (first + second + 1) := by
    refine ⟨count, ?_⟩
    have one := two_mul_distance first
    have two := two_mul_distance second
    obtain ⟨apart, rfl⟩ := Nat.exists_eq_add_of_lt less
    have isDifference : 2 * (distance (second + apart + 1) - distance second) =
        (second + apart + 1 - second) *
          (second + apart + 1 + second + 1) := by
      rw [Nat.mul_sub, one, two, Nat.sub_eq_iff_eq_add (by nlinarith)]
      have left : second + apart + 1 - second = apart + 1 := by omega
      rw [left]
      ring
    rw [← isDifference, isCount, Nat.pow_succ]
    ring
  have double : 2 ^ (exponent + 1) = 2 ^ exponent + 2 ^ exponent := by
    rw [Nat.pow_succ]
    omega
  rcases dvd_of_even_product less divides with inDifference | inSum
  · have bound := Nat.le_of_dvd (by omega) inDifference
    omega
  · have bound := Nat.le_of_dvd (by omega) inSum
    omega

/-- A walk meets no slot twice in as many steps as there are slots. -/
theorem walk_injective (inRange : start < 2 ^ exponent) {first second : Nat}
    (inFirst : first < 2 ^ exponent) (inSecond : second < 2 ^ exponent)
    (same : walk (2 ^ exponent - 1) start first =
      walk (2 ^ exponent - 1) start second) : first = second := by
  rw [walk_eq inRange, walk_eq inRange] at same
  have distances : distance first ≡ distance second [MOD 2 ^ exponent] :=
    Nat.ModEq.add_left_cancel' start same
  rcases Nat.lt_trichotomy first second with less | equal | less
  · exact absurd distances.symm (distance_injective inSecond less)
  · exact equal
  · exact absurd distances (distance_injective inFirst less)

/-- A walk meets every slot in as many steps as there are slots. -/
theorem exists_walk (inRange : start < 2 ^ exponent) {slot : Nat}
    (inTable : slot < 2 ^ exponent) :
    ∃ step < 2 ^ exponent, walk (2 ^ exponent - 1) start step = slot := by
  let steps : Fin (2 ^ exponent) → Fin (2 ^ exponent) := fun step =>
    ⟨walk (2 ^ exponent - 1) start step, walk_lt inRange step⟩
  have injective : Function.Injective steps := by
    intro first second same
    exact Fin.ext (walk_injective inRange first.isLt second.isLt
      (congrArg Fin.val same))
  obtain ⟨step, found⟩ :=
    Finite.surjective_of_injective injective ⟨slot, inTable⟩
  exact ⟨step, step.isLt, congrArg Fin.val found⟩

end Triangular

end SimpleCache
