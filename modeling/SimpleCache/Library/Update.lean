import Mathlib.Logic.Function.Basic

/-!
# Flags kept as functions

Setting or clearing a Boolean flag of one object among many, and what that
says about every object.
-/

namespace SimpleCache

variable {Object : Type*} [DecidableEq Object] {flag : Object → Bool}
  {changed object : Object}

theorem update_true_iff :
    Function.update flag changed true object = true ↔
      object = changed ∨ flag object = true := by
  by_cases same : object = changed
  · simp [same]
  · simp [same]

theorem update_false_iff :
    Function.update flag changed false object = true ↔
      object ≠ changed ∧ flag object = true := by
  by_cases same : object = changed
  · simp [same]
  · simp [same]

/-- Projecting after an update is updating the projection. -/
theorem update_apply_comp {Value Field : Type*} (field : Value → Field)
    (values : Object → Value) (changed : Object) (value : Value) :
    (fun object => field (Function.update values changed value object)) =
      Function.update (fun object => field (values object)) changed
        (field value) := by
  funext object
  by_cases same : object = changed
  · simp [same]
  · simp [same]

end SimpleCache
