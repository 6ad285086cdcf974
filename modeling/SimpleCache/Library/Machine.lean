import Mathlib.Logic.Function.Basic
import Mathlib.Logic.Relation

/-!
# Machines whose steps can fault

A machine consumes one event at a time; a step either produces the next state
or faults, and a fault ends the run.  Runs are restricted by a side condition
on the state before each step and the event it consumes.
-/

namespace SimpleCache

structure Machine (State Event Fault : Type*) where
  initial : State → Prop
  step : State → Event → Except Fault State

namespace Machine

variable {State Event Fault : Type*} (machine : Machine State Event Fault)

/-- States reached by runs all of whose steps meet the side condition. -/
inductive Reachable (allowed : State → Event → Prop) : State → Prop
  | start {state : State} :
      machine.initial state → Reachable allowed state
  | next {state successor : State} {event : Event} :
      Reachable allowed state → allowed state event →
        machine.step state event = .ok successor →
          Reachable allowed successor

/-- The condition met by every step. -/
def anyStep (_ : State) (_ : Event) : Prop := True

variable {machine} {allowed : State → Event → Prop}

/-- What holds initially and is preserved by every allowed step holds in every
state such runs reach. -/
theorem Reachable.invariant {holds : State → Prop}
    (initially : ∀ state, machine.initial state → holds state)
    (preserved : ∀ state event successor, holds state →
      allowed state event → machine.step state event = .ok successor →
        holds successor)
    {state : State} (reachable : machine.Reachable allowed state) :
    holds state := by
  induction reachable with
  | start isInitial => exact initially _ isInitial
  | next _ meets stepped ih => exact preserved _ _ _ ih meets stepped

/-- Consume events one after another. -/
def run (machine : Machine State Event Fault) (state : State)
    (events : List Event) : Except Fault State :=
  events.foldlM machine.step state

/-- Every event of a run meets a condition in the state it is consumed in. -/
def Along (machine : Machine State Event Fault)
    (meets : State → Event → Prop) : State → List Event → Prop
  | _, [] => True
  | state, event :: events =>
      meets state event ∧
        ∀ successor, machine.step state event = .ok successor →
          Along machine meets successor events

theorem run_cons {event : Event} {events : List Event}
    {state successor : State} :
    machine.run state (event :: events) = .ok successor ↔
      ∃ next, machine.step state event = .ok next ∧
        machine.run next events = .ok successor := by
  unfold Machine.run
  rw [List.foldlM_cons]
  cases stepped : machine.step state event with
  | error fault => simp [bind, Except.bind]
  | ok next => simp [bind, Except.bind]

theorem along_cons {meets : State → Event → Prop} {event : Event}
    {events : List Event} {state next : State}
    (stepped : machine.step state event = .ok next) :
    machine.Along meets state (event :: events) ↔
      meets state event ∧ machine.Along meets next events := by
  simp [Along, stepped]

/-- A later state of runs that have come to a state. -/
def Leads (machine : Machine State Event Fault)
    (allowed : State → Event → Prop) : State → State → Prop :=
  Relation.ReflTransGen fun state successor =>
    ∃ event, allowed state event ∧ machine.step state event = .ok successor

theorem Reachable.leads {state later : State}
    (reachable : machine.Reachable allowed state)
    (leads : machine.Leads allowed state later) :
    machine.Reachable allowed later := by
  induction leads with
  | refl => exact reachable
  | tail _ stepped ih =>
      obtain ⟨event, meets, stepped⟩ := stepped
      exact .next ih meets stepped

/-- Consuming events that are allowed in every state leads to a state. -/
theorem Leads.run {events : List Event} {state successor : State}
    (meets : ∀ event ∈ events, ∀ state, allowed state event)
    (runs : machine.run state events = .ok successor) :
    machine.Leads allowed state successor := by
  induction events generalizing state with
  | nil =>
      obtain rfl := Except.ok.inj runs
      exact .refl
  | cons event events ih =>
      obtain ⟨next, stepped, rest⟩ := run_cons.mp runs
      have first := meets event List.mem_cons_self state
      exact .head ⟨event, first, stepped⟩
        (ih (fun later member => meets later
          (List.mem_cons_of_mem _ member)) rest)

theorem Reachable.run {events : List Event} {state successor : State}
    (reachable : machine.Reachable allowed state)
    (meets : ∀ event ∈ events, ∀ state, allowed state event)
    (runs : machine.run state events = .ok successor) :
    machine.Reachable allowed successor :=
  reachable.leads (Leads.run meets runs)

/-- Consume events as long as a test allows each of them. -/
def runWithin (machine : Machine State Event Fault)
    (allows : State → Event → Bool) : State → List Event → Option State
  | state, [] => some state
  | state, event :: events =>
      if allows state event then
        match machine.step state event with
        | .ok next => runWithin machine allows next events
        | .error _ => none
      else none

/-- A tested run is a run whose steps meet what the test stands for in states
that meet an invariant. -/
theorem Leads.runWithin_of {allows : State → Event → Bool}
    (holds : State → Prop)
    (sound : ∀ state event, holds state → allows state event = true →
      allowed state event)
    (preserved : ∀ state event successor, holds state → allowed state event →
      machine.step state event = .ok successor → holds successor)
    {events : List Event} {state successor : State} (initially : holds state)
    (runs : machine.runWithin allows state events = some successor) :
    machine.Leads allowed state successor := by
  induction events generalizing state with
  | nil =>
      obtain rfl := Option.some.inj runs
      exact .refl
  | cons event events ih =>
      unfold Machine.runWithin at runs
      split at runs
      · next allows =>
          have meets := sound state event initially allows
          split at runs
          · next next stepped =>
              exact .head ⟨event, meets, stepped⟩
                (ih (preserved state event next initially meets stepped) runs)
          · cases runs
      · cases runs

theorem Leads.runWithin {allows : State → Event → Bool}
    (sound : ∀ state event, allows state event = true → allowed state event)
    {events : List Event} {state successor : State}
    (runs : machine.runWithin allows state events = some successor) :
    machine.Leads allowed state successor :=
  runWithin_of (fun _ => True) (fun state event _ => sound state event)
    (fun _ _ _ _ _ _ => trivial) trivial runs

end Machine

end SimpleCache
