import Mathlib.Data.Nat.Count
import Mathlib.Data.Set.Card

/-!
# Counting the holders of a value

A family of values of which all but finitely many are the default one, and how
many indices have a given other value.  An update of the family changes two of
these numbers by one at most.
-/

namespace SimpleCache

section Counting

variable {Index Value : Type*} {values : Index → Value} {default value : Value}

/-- How many indices have the value. -/
noncomputable def occurrences (values : Index → Value) (value : Value) : Nat :=
  {index | values index = value}.ncard

theorem finite_occurrences (finite : {index | values index ≠ default}.Finite)
    (other : value ≠ default) : {index | values index = value}.Finite := by
  apply finite.subset
  intro index has
  exact fun isDefault => other (has.symm.trans isDefault)

theorem occurrences_eq_zero (none_ : ∀ index, values index ≠ value) :
    occurrences values value = 0 := by
  have empty : {index | values index = value} = ∅ :=
    Set.eq_empty_of_forall_notMem none_
  rw [occurrences, empty, Set.ncard_empty]

theorem occurrences_pos (finite : {index | values index ≠ default}.Finite)
    (other : value ≠ default) {index : Index} (has : values index = value) :
    0 < occurrences values value :=
  (Set.ncard_pos (finite_occurrences finite other)).mpr ⟨index, has⟩

/-- One index apart from the others. -/
theorem occurrences_eq [DecidableEq Value]
    (finite : {index | values index ≠ default}.Finite)
    (other : value ≠ default) (index : Index) :
    occurrences values value =
      {each | each ≠ index ∧ values each = value}.ncard +
        if values index = value then 1 else 0 := by
  have finiteValue := finite_occurrences finite other
  have rest : {each | each ≠ index ∧ values each = value} =
      {each | values each = value} \ {index} := by
    ext each
    exact and_comm
  rw [rest, occurrences]
  split
  · next has =>
      have member : index ∈ {each | values each = value} := has
      exact (Set.ncard_sdiff_singleton_add_one member finiteValue).symm
  · next hasNot =>
      have outside : index ∉ {each | values each = value} := hasNot
      rw [Set.sdiff_singleton_eq_self outside, Nat.add_zero]

variable [DecidableEq Index]

theorem finite_update (finite : {index | values index ≠ default}.Finite)
    (index : Index) (new : Value) :
    {each | Function.update values index new each ≠ default}.Finite := by
  apply (finite.insert index).subset
  intro each has
  by_cases same : each = index
  · exact .inl same
  · right
    have kept : Function.update values index new each = values each :=
      Function.update_of_ne same ..
    exact fun isDefault => has (kept.trans isDefault)

/-- An update takes an occurrence from the old value and gives one to the
new. -/
theorem occurrences_update [DecidableEq Value]
    (finite : {index | values index ≠ default}.Finite)
    (other : value ≠ default) (index : Index) (new : Value) :
    occurrences (Function.update values index new) value +
        (if values index = value then 1 else 0) =
      occurrences values value + if new = value then 1 else 0 := by
  have rest : {each | each ≠ index ∧
        Function.update values index new each = value} =
      {each | each ≠ index ∧ values each = value} := by
    ext each
    refine and_congr_right fun different => ?_
    rw [Function.update_of_ne different]
  rw [occurrences_eq (finite_update finite index new) other index, rest,
    occurrences_eq finite other index, Function.update_self]
  omega

end Counting

/-- An update among the first indices moves one of them at most. -/
theorem count_update {Value : Type*} [DecidableEq Value] (values : Nat → Value)
    (value : Value) (index : Nat) (new : Value) (bound : Nat) :
    Nat.count (fun each => Function.update values index new each = value)
          bound +
        (if index < bound ∧ values index = value then 1 else 0) =
      Nat.count (fun each => values each = value) bound +
        if index < bound ∧ new = value then 1 else 0 := by
  induction bound with
  | zero => simp
  | succ bound ih =>
      rw [Nat.count_succ, Nat.count_succ]
      by_cases same : bound = index
      · subst same
        simp only [Nat.lt_irrefl, false_and, if_false, Nat.add_zero] at ih
        simp only [ih, Function.update_self, Nat.lt_succ_self, true_and]
        omega
      · have within : index < bound + 1 ↔ index < bound := by omega
        simp only [Function.update_of_ne same, within]
        omega

end SimpleCache
