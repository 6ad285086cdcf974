import Mathlib.Logic.Basic

/-!
# Computations that can fault

How to take apart a computation that is known to have returned a result.
-/

namespace SimpleCache

universe u

variable {Fault : Type*} {Value Result : Type u}

/-- A sequence returned a result exactly when its first part did and the rest
returned it from there. -/
theorem bind_eq_ok {first : Except Fault Value}
    {rest : Value → Except Fault Result} {result : Result} :
    (first >>= rest) = .ok result ↔
      ∃ value, first = .ok value ∧ rest value = .ok result := by
  cases first with
  | error fault => simp [Bind.bind, Except.bind]
  | ok value => simp [Bind.bind, Except.bind]

/-- A sequence succeeds when its first part does and the rest does from
there. -/
theorem bind_succeeds {first : Except Fault Value}
    {rest : Value → Except Fault Result} {value : Value}
    (begins : first = .ok value) (ends : ∃ result, rest value = .ok result) :
    ∃ result, (first >>= rest) = .ok result := by
  obtain ⟨result, ends⟩ := ends
  exact ⟨result, bind_eq_ok.mpr ⟨value, begins, ends⟩⟩

/-- After a result, the rest runs from it. -/
theorem ok_bind {rest : Value → Except Fault Result} {value : Value} :
    ((.ok value : Except Fault Value) >>= rest) = rest value :=
  rfl

theorem pure_eq_ok {value result : Value} :
    (pure value : Except Fault Value) = .ok result ↔ value = result := by
  simp [Pure.pure, Except.pure]

theorem throw_eq_ok {fault : Fault} {result : Value} :
    (throw fault : Except Fault Value) = .ok result ↔ False := by
  simp [throw, throwThe, MonadExceptOf.throw]

/-- What every pass of a loop preserves, the loop preserves. -/
theorem foldlM_induction {Item : Type*} {holds : Value → Prop}
    {pass : Value → Item → Except Fault Value} {items : List Item}
    (preserved : ∀ item ∈ items, ∀ before after, holds before →
      pass before item = .ok after → holds after)
    {before after : Value} (initially : holds before)
    (run : items.foldlM pass before = .ok after) : holds after := by
  induction items generalizing before with
  | nil =>
      rw [List.foldlM_nil, pure_eq_ok] at run
      exact run ▸ initially
  | cons item items ih =>
      rw [List.foldlM_cons, bind_eq_ok] at run
      obtain ⟨middle, passed, rest⟩ := run
      exact ih
        (fun other member => preserved other (List.mem_cons_of_mem _ member))
        (preserved item List.mem_cons_self _ _ initially passed) rest

/-- A test of what a run ends in. -/
def endsIn (run : Except Fault Value) (test : Value → Bool) : Bool :=
  match run with
  | .ok result => test result
  | .error _ => false

theorem exists_of_endsIn {run : Except Fault Value} {test : Value → Bool}
    (passes : endsIn run test = true) :
    ∃ result, run = .ok result ∧ test result = true := by
  cases run with
  | error fault => cases passes
  | ok result => exact ⟨result, rfl, passes⟩

theorem endsIn_ok {run : Except Fault Value} {test : Value → Bool}
    {result : Value} (passes : endsIn run test = true)
    (ends : run = .ok result) : test result = true := by
  subst ends
  exact passes

end SimpleCache
