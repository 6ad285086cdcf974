import SimpleCache.Eviction
import SimpleCache.Library.Machine

/-!
# The hand-shake between the event loop and a flush

A flush runs in a process of its own, and `current_flush` is to name that
process for as long as it lasts.  Two parties collect a process that has
ended: the handler of SIGCHLD, which can run between any two statements, and
the `waitpid` of `currently_flushing`.  Here the statements are steps of
their own, and so are the end of a process and the handler.
-/

namespace SimpleCache

namespace Handshake

/-- How a process ends: `_exit` with a code, or a signal that kills it, with
or without a core dump. -/
inductive Ending
  | exited (code : Fin 256)
  | killed (signal : Fin 126) (dumped : Bool)
  deriving DecidableEq

/-- The word `waitpid` stores for an ending. -/
def Ending.status : Ending → Nat
  | .exited code => code * 256
  | .killed signal dumped => signal + 1 + dumped.toNat * 128

/-- `WIFEXITED`. -/
def wifexited (status : Nat) : Bool := status % 128 == 0

/-- A child as the kernel keeps it: once it has ended it stays until somebody
collects it. -/
structure Child where
  pid : Nat
  ending : Option Ending
  deriving DecidableEq

/-- The next statement of the event loop, with the local variables that are
still used.  `outside` stands for everything but the end of `db_lru_gc`. -/
inductive Position
  | outside
  | polling
  | polled (w : Int) (status : Nat)
  | clearing
  | free
  | forked (pid : Nat)
  deriving DecidableEq

structure State where
  currentFlush : Nat
  children : List Child
  position : Position
  deriving DecidableEq

/-- `waitpid(pid, &status, WNOHANG)`: the result, the new value of `status`
and the children left.  Zero stands for any child. -/
def waitpid (children : List Child) (pid status : Nat) :
    Int × Nat × List Child :=
  let named := children.filter fun child => pid = 0 ∨ child.pid = pid
  match named.find? fun child => child.ending.isSome with
  | some child =>
      match child.ending with
      | some ending => (child.pid, ending.status, children.erase child)
      | none => (0, status, children)
  | none => if named = [] then (-1, status, children) else (0, status, children)

/-- `child_handler` collects every child that has ended and hands each to
`db_handle_sigchld`. -/
def childHandler (currentFlush : Nat) : List Child → Nat × List Child
  | [] => (currentFlush, [])
  | child :: children =>
      match child.ending with
      | some _ =>
          childHandler (if child.pid = currentFlush then 0 else currentFlush)
            children
      | none =>
          let (currentFlush, children) := childHandler currentFlush children
          (currentFlush, child :: children)

/-- `_exit` or a signal ends a running child. -/
def endChild (children : List Child) (pid : Nat) (ending : Ending) :
    List Child :=
  children.map fun child =>
    if child.pid = pid ∧ child.ending = none then
      { child with ending := some ending }
    else child

/-- `if(current_flush == 0) return false;` -/
def testFlush (state : State) : State :=
  { state with
    position := if state.currentFlush = 0 then .free else .polling }

/-- `w = waitpid(current_flush, &status, flags);` where `status` still holds
what the stack held before. -/
def pollFlush (state : State) (status : Nat) : State :=
  let (w, status, children) :=
    waitpid state.children state.currentFlush status
  { state with children, position := .polled w status }

/-- The two conditions after the call.  The branch for -1 stands under
`w == 0` and is never taken. -/
def judgeFlush (state : State) (w : Int) (status : Nat) : State :=
  { state with
    position := if w ≠ 0 ∧ wifexited status then .clearing else .outside }

/-- `current_flush = 0; return false;` -/
def clearFlush (state : State) : State :=
  { state with currentFlush := 0, position := .free }

/-- `currently_flushing(WNOHANG)` when nothing happens between its
statements. -/
def currentlyFlushing (state : State) (status : Nat) : State × Bool :=
  let state := testFlush state
  match state.position with
  | .polling =>
      let state := pollFlush state status
      match state.position with
      | .polled w status =>
          let state := judgeFlush state w status
          match state.position with
          | .clearing => (clearFlush state, false)
          | _ => (state, true)
      | _ => (state, true)
  | _ => (state, false)

/-- What the system calls return decides the call of the coarser model. -/
theorem currentlyFlushing_outcome {kh : KHash} (db : Db kh) (state : State)
    (status : Nat) (outcome : FlushOutcome)
    (flush : db.flush.currentFlush = state.currentFlush)
    (waited : outcome.waitpid =
      (waitpid state.children state.currentFlush status).1)
    (exited : outcome.exited = wifexited
      (waitpid state.children state.currentFlush status).2.1) :
    (SimpleCache.currentlyFlushing db outcome).2 =
        (currentlyFlushing state status).2 ∧
      (SimpleCache.currentlyFlushing db outcome).1.flush.currentFlush =
        (currentlyFlushing state status).1.currentFlush := by
  unfold SimpleCache.currentlyFlushing currentlyFlushing testFlush
  rw [flush, waited, exited]
  by_cases none : state.currentFlush = 0
  · simp [none, flush]
  · by_cases done : (waitpid state.children state.currentFlush status).1 ≠ 0 ∧
        wifexited
          (waitpid state.children state.currentFlush status).2.1 = true
    · simp [none, done, pollFlush, judgeFlush, clearFlush]
    · simp [none, done, pollFlush, judgeFlush, flush]

inductive Event
  | test
  | poll (status : Nat)
  | judge
  | clear
  /-- The last flush is too recent, or `fork` fails. -/
  | leave
  | fork (pid : Nat)
  | assign
  | ends (pid : Nat) (ending : Ending)
  | sigchld
  deriving DecidableEq

/-- An event that cannot happen in a state. -/
inductive Disabled
  | disabled
  deriving DecidableEq

def step (state : State) : Event → Except Disabled State
  | .test =>
      if state.position = .outside then return testFlush state
      else throw .disabled
  | .poll status =>
      if state.position = .polling then return pollFlush state status
      else throw .disabled
  | .judge =>
      match state.position with
      | .polled w status => return judgeFlush state w status
      | _ => throw .disabled
  | .clear =>
      if state.position = .clearing then return clearFlush state
      else throw .disabled
  | .leave =>
      if state.position = .free then
        return { state with position := .outside }
      else throw .disabled
  | .fork pid =>
      if state.position = .free ∧ pid ≠ 0 ∧
          ∀ child ∈ state.children, child.pid ≠ pid then
        return { state with
          children := ⟨pid, none⟩ :: state.children
          position := .forked pid }
      else throw .disabled
  | .assign =>
      match state.position with
      | .forked pid =>
          return { state with currentFlush := pid, position := .outside }
      | _ => throw .disabled
  | .ends pid ending =>
      return { state with children := endChild state.children pid ending }
  | .sigchld =>
      let (currentFlush, children) :=
        childHandler state.currentFlush state.children
      return { state with currentFlush, children }

/-- The server before its first flush. -/
def handshake : Machine State Event Disabled where
  initial state := state = ⟨0, [], .outside⟩
  step := step

/-- The handler does not collect the new process before `current_flush`
names it, and `currently_flushing` does not collect one that a signal
killed. -/
def CollectsInTime (state : State) : Event → Prop
  | .sigchld => ∀ pid, state.position = .forked pid →
      ∀ child ∈ state.children, child.pid = pid → child.ending = none
  | .poll _ => ∀ child ∈ state.children, child.pid = state.currentFlush →
      ∀ signal dumped, child.ending ≠ some (.killed signal dumped)
  | _ => True

/-- Nothing is flushed, or `current_flush` names the only child. -/
def Named (state : State) : Prop :=
  (state.currentFlush = 0 ∧ state.children = []) ∨
    ∃ child, state.children = [child] ∧ child.pid = state.currentFlush ∧
      child.pid ≠ 0

/-- What holds before each statement. -/
def Paired (state : State) : Prop :=
  match state.position with
  | .outside => Named state
  | .polling => Named state
  | .polled w status => (w = 0 ∧ Named state) ∨
      state.children = [] ∧ (state.currentFlush = 0 ∨ w ≠ 0 ∧ wifexited status)
  | .clearing => state.children = []
  | .free => state.currentFlush = 0 ∧ state.children = []
  | .forked pid => state.currentFlush = 0 ∧
      ∃ ending, state.children = [⟨pid, ending⟩] ∧ pid ≠ 0

theorem wifexited_status (code : Fin 256) :
    wifexited (Ending.exited code).status = true := by
  have statusEq : (Ending.exited code).status = code * 256 := rfl
  unfold wifexited
  rw [statusEq]
  apply beq_iff_eq.mpr
  omega

theorem waitpid_childless (pid status : Nat) :
    waitpid [] pid status = (-1, status, []) := rfl

theorem waitpid_running {child : Child} (running : child.ending = none)
    (status : Nat) :
    waitpid [child] child.pid status = (0, status, [child]) := by
  simp [waitpid, running]

theorem waitpid_ended {child : Child} {ending : Ending}
    (ended : child.ending = some ending) (status : Nat) :
    waitpid [child] child.pid status =
      ((child.pid : Int), ending.status, []) := by
  simp [waitpid, ended]

/-- The handler leaves a running child, and clears the name of one that it
collects. -/
theorem Named.sigchld {state : State} (named : Named state) :
    Named { state with
      currentFlush := (childHandler state.currentFlush state.children).1
      children := (childHandler state.currentFlush state.children).2 } := by
  rcases named with ⟨null, childless⟩ | ⟨child, only, names, present⟩
  · left
    simp [childless, null, childHandler]
  · cases ended : child.ending with
    | none =>
        right
        exact ⟨child, by simp [only, childHandler, ended],
          by simp [only, childHandler, ended, names], present⟩
    | some ending =>
        left
        simp [only, childHandler, ended, names]

theorem Named.ends {state : State} (named : Named state) (pid : Nat)
    (ending : Ending) :
    Named { state with children := endChild state.children pid ending } := by
  rcases named with ⟨null, childless⟩ | ⟨child, only, names, present⟩
  · left
    simp [childless, null, endChild]
  · right
    by_cases runs : child.pid = pid ∧ child.ending = none
    · exact ⟨{ child with ending := some ending },
        by simp [only, endChild, runs], names, present⟩
    · exact ⟨child, by simp [only, endChild, runs], names, present⟩

theorem paired_test {state : State} (named : Named state) :
    Paired (testFlush state) := by
  unfold testFlush
  by_cases null : state.currentFlush = 0
  · rw [if_pos null]
    rcases named with ⟨-, childless⟩ | ⟨child, -, names, present⟩
    · exact ⟨null, childless⟩
    · exact absurd (names.trans null) present
  · rw [if_neg null]
    exact named

theorem paired_poll {state : State} (named : Named state)
    (inTime : ∀ child ∈ state.children, child.pid = state.currentFlush →
      ∀ signal dumped, child.ending ≠ some (.killed signal dumped)) (status : Nat) :
    Paired (pollFlush state status) := by
  unfold pollFlush
  rcases named with ⟨null, childless⟩ | ⟨child, only, names, present⟩
  · rw [childless, waitpid_childless]
    exact .inr ⟨rfl, .inl null⟩
  · cases ended : child.ending with
    | none =>
        rw [only, ← names, waitpid_running ended]
        exact .inl ⟨rfl, .inr ⟨child, rfl, rfl, present⟩⟩
    | some ending =>
        cases ending with
        | killed signal dumped =>
            exact absurd ended
              (inTime child (by simp [only]) names signal dumped)
        | exited code =>
            rw [only, ← names, waitpid_ended ended]
            refine .inr ⟨rfl, .inr ⟨?_, wifexited_status code⟩⟩
            exact Int.natCast_ne_zero.mpr present

theorem paired_judge {state : State} {w : Int} {status : Nat}
    (stands : state.position = .polled w status) (paired : Paired state) :
    Paired (judgeFlush state w status) := by
  unfold Paired at paired
  rw [stands] at paired
  unfold judgeFlush
  by_cases done : w ≠ 0 ∧ wifexited status = true
  · rw [if_pos done]
    rcases paired with ⟨null, -⟩ | ⟨childless, -⟩
    · exact absurd null done.1
    · exact childless
  · rw [if_neg done]
    rcases paired with ⟨-, named⟩ | ⟨childless, null | judged⟩
    · exact named
    · exact .inl ⟨null, childless⟩
    · exact absurd judged done

theorem paired_sigchld {state : State} (paired : Paired state)
    (inTime : ∀ pid, state.position = .forked pid →
      ∀ child ∈ state.children, child.pid = pid → child.ending = none) :
    Paired { state with
      currentFlush := (childHandler state.currentFlush state.children).1
      children := (childHandler state.currentFlush state.children).2 } := by
  unfold Paired at paired ⊢
  cases stands : state.position with
  | outside =>
      rw [stands] at paired
      exact Named.sigchld paired
  | polling =>
      rw [stands] at paired
      exact Named.sigchld paired
  | polled w status =>
      rw [stands] at paired
      rcases paired with ⟨zero, named⟩ | ⟨childless, judged⟩
      · exact .inl ⟨zero, Named.sigchld named⟩
      · right
        simpa [childless, childHandler] using judged
  | clearing =>
      rw [stands] at paired
      have childless : state.children = [] := paired
      simp [childless, childHandler]
  | free =>
      rw [stands] at paired
      obtain ⟨null, childless⟩ := paired
      simp [childless, null, childHandler]
  | forked pid =>
      rw [stands] at paired
      obtain ⟨null, ending, only, present⟩ := paired
      have running : ending = none :=
        inTime pid stands ⟨pid, ending⟩ (by simp [only]) rfl
      simp [only, running, null, childHandler, present]

theorem paired_ends {state : State} (paired : Paired state) (pid : Nat)
    (ending : Ending) :
    Paired { state with children := endChild state.children pid ending } := by
  unfold Paired at paired ⊢
  cases stands : state.position with
  | outside =>
      rw [stands] at paired
      exact Named.ends paired pid ending
  | polling =>
      rw [stands] at paired
      exact Named.ends paired pid ending
  | polled w status =>
      rw [stands] at paired
      rcases paired with ⟨zero, named⟩ | ⟨childless, judged⟩
      · exact .inl ⟨zero, Named.ends named pid ending⟩
      · exact .inr ⟨by simp [childless, endChild], judged⟩
  | clearing =>
      rw [stands] at paired
      have childless : state.children = [] := paired
      simp [childless, endChild]
  | free =>
      rw [stands] at paired
      obtain ⟨null, childless⟩ := paired
      simp [childless, null, endChild]
  | forked forkedPid =>
      rw [stands] at paired
      obtain ⟨null, before, only, present⟩ := paired
      refine ⟨null, ?_⟩
      by_cases runs : forkedPid = pid ∧ before = none
      · exact ⟨some ending, by simp [only, endChild, runs], present⟩
      · exact ⟨before, by simp [only, endChild, runs], present⟩

theorem paired_step {state successor : State} {event : Event}
    (paired : Paired state) (inTime : CollectsInTime state event)
    (stepped : step state event = .ok successor) : Paired successor := by
  cases event with
  | test =>
      simp only [step] at stepped
      split at stepped
      · next stands =>
          obtain rfl := Except.ok.inj stepped
          unfold Paired at paired
          rw [stands] at paired
          exact paired_test paired
      · cases stepped
  | poll status =>
      simp only [step] at stepped
      split at stepped
      · next stands =>
          obtain rfl := Except.ok.inj stepped
          unfold Paired at paired
          rw [stands] at paired
          exact paired_poll paired inTime status
      · cases stepped
  | judge =>
      simp only [step] at stepped
      split at stepped
      · next w status stands =>
          obtain rfl := Except.ok.inj stepped
          exact paired_judge stands paired
      · cases stepped
  | clear =>
      simp only [step] at stepped
      split at stepped
      · next stands =>
          obtain rfl := Except.ok.inj stepped
          unfold Paired at paired
          rw [stands] at paired
          exact ⟨rfl, paired⟩
      · cases stepped
  | leave =>
      simp only [step] at stepped
      split at stepped
      · next stands =>
          obtain rfl := Except.ok.inj stepped
          unfold Paired at paired
          rw [stands] at paired
          exact .inl paired
      · cases stepped
  | fork pid =>
      simp only [step] at stepped
      split at stepped
      · next fresh =>
          obtain rfl := Except.ok.inj stepped
          unfold Paired at paired
          rw [fresh.1] at paired
          exact ⟨paired.1, none, by simp [paired.2], fresh.2.1⟩
      · cases stepped
  | assign =>
      simp only [step] at stepped
      split at stepped
      · next pid stands =>
          obtain rfl := Except.ok.inj stepped
          unfold Paired at paired
          rw [stands] at paired
          obtain ⟨-, ending, only, present⟩ := paired
          exact .inr ⟨⟨pid, ending⟩, only, rfl, present⟩
      · cases stepped
  | ends pid ending =>
      obtain rfl := Except.ok.inj stepped
      exact paired_ends paired pid ending
  | sigchld =>
      obtain rfl := Except.ok.inj stepped
      exact paired_sigchld paired inTime

theorem paired_of_reachable {state : State}
    (reachable : handshake.Reachable CollectsInTime state) : Paired state := by
  apply reachable.invariant
  · intro state isInitial
    obtain rfl : state = ⟨0, [], .outside⟩ := isInitial
    exact .inl ⟨rfl, rfl⟩
  · intro state event successor paired inTime stepped
    exact paired_step paired inTime stepped

/-- A flush that has ended and been collected does not hold up the next one,
whatever `status` held. -/
theorem currentlyFlushing_of_reachable {state : State}
    (reachable : handshake.Reachable CollectsInTime state)
    (outside : state.position = .outside) (childless : state.children = [])
    (status : Nat) : (currentlyFlushing state status).2 = false := by
  have paired := paired_of_reachable reachable
  unfold Paired at paired
  rw [outside] at paired
  rcases paired with ⟨null, -⟩ | ⟨child, only, -⟩
  · simp [currentlyFlushing, testFlush, null]
  · rw [childless] at only
    cases only

theorem currentlyFlushing_second :
    (currentlyFlushing ⟨0, [], .outside⟩ 1).2 = false := by
  have tested : handshake.Reachable CollectsInTime ⟨0, [], .free⟩ :=
    .next (.start rfl) (show CollectsInTime _ .test from trivial) rfl
  have forked : handshake.Reachable CollectsInTime
      ⟨0, [⟨7, none⟩], .forked 7⟩ :=
    tested.next (show CollectsInTime _ (.fork 7) from trivial) rfl
  have named : handshake.Reachable CollectsInTime
      ⟨7, [⟨7, none⟩], .outside⟩ :=
    forked.next (show CollectsInTime _ .assign from trivial) rfl
  have ended : handshake.Reachable CollectsInTime
      ⟨7, [⟨7, some (.exited 0)⟩], .outside⟩ :=
    named.next (show CollectsInTime _ (.ends 7 (.exited 0)) from trivial) rfl
  have inTime : CollectsInTime ⟨7, [⟨7, some (.exited 0)⟩], .outside⟩
      .sigchld := by
    intro pid stands
    cases stands
  have collected : handshake.Reachable CollectsInTime ⟨0, [], .outside⟩ :=
    ended.next inTime rfl
  exact currentlyFlushing_of_reachable collected rfl rfl 1

/-- The handler runs after `fork` and before the assignment, and the process
has already ended. -/
def collectedEarly : List Event :=
  [.test, .fork 7, .ends 7 (.exited 0), .sigchld, .assign]

/-- `current_flush` names a process that somebody has collected, and the
event loop has not seen a word that looks like an exit. -/
structure Stuck (state : State) : Prop where
  names : state.currentFlush ≠ 0
  childless : state.children = []
  judges : state.position = .outside ∨ state.position = .polling ∨
    ∃ w status, state.position = .polled w status ∧ wifexited status = false

/-- Before the call the stack holds no word that looks like an exit. -/
def NoExitOnStack (_ : State) (event : Event) : Prop :=
  ∀ status, event = .poll status → wifexited status = false

theorem stuck_step {state successor : State} {event : Event}
    (stuck : Stuck state) (noExit : NoExitOnStack state event)
    (stepped : step state event = .ok successor) : Stuck successor := by
  obtain ⟨names, childless, judges⟩ := stuck
  cases event with
  | test =>
      simp only [step] at stepped
      split at stepped
      · obtain rfl := Except.ok.inj stepped
        exact ⟨names, childless, by simp [testFlush, names]⟩
      · cases stepped
  | poll status =>
      simp only [step] at stepped
      split at stepped
      · obtain rfl := Except.ok.inj stepped
        have notExit := noExit status rfl
        simp only [pollFlush, childless, waitpid_childless]
        exact ⟨names, rfl, .inr (.inr ⟨-1, status, rfl, notExit⟩)⟩
      · cases stepped
  | judge =>
      simp only [step] at stepped
      split at stepped
      · next w status stands =>
          obtain rfl := Except.ok.inj stepped
          simp only [stands, reduceCtorEq, Position.polled.injEq,
            false_or] at judges
          obtain ⟨w, status, ⟨rfl, rfl⟩, notExit⟩ := judges
          exact ⟨names, childless, by simp [judgeFlush, notExit]⟩
      · cases stepped
  | ends pid ending =>
      obtain rfl := Except.ok.inj stepped
      exact ⟨names, by simp [childless, endChild], judges⟩
  | sigchld =>
      obtain rfl := Except.ok.inj stepped
      simp only [childless, childHandler]
      exact ⟨names, rfl, judges⟩
  | clear | leave | fork | assign =>
      simp only [step] at stepped
      rcases judges with stands | stands | ⟨w, status, stands, -⟩ <;>
        simp [stands, throw, throwThe, MonadExceptOf.throw] at stepped

/-- From then on no flush starts, for as long as the stack holds no word that
looks like an exit. -/
theorem stuck_leads {state later : State} (stuck : Stuck state)
    (leads : handshake.Leads NoExitOnStack state later) : Stuck later := by
  induction leads with
  | refl => exact stuck
  | tail _ stepped ih =>
      obtain ⟨event, noExit, stepped⟩ := stepped
      exact stuck_step ih noExit stepped

theorem currentlyFlushing_of_stuck {state : State} (stuck : Stuck state)
    (status : Nat) (noExit : wifexited status = false) :
    (currentlyFlushing state status).2 = true := by
  simp [currentlyFlushing, testFlush, pollFlush, judgeFlush, stuck.names,
    stuck.childless, waitpid_childless, noExit]

theorem currentlyFlushing_stuck :
    ∃ state, handshake.Reachable Machine.anyStep state ∧
      state.position = .outside ∧ state.children = [] ∧
      ∀ later, handshake.Leads NoExitOnStack state later →
        later.children = [] ∧ (currentlyFlushing later 1).2 = true := by
  have runs : handshake.run ⟨0, [], .outside⟩ collectedEarly =
      .ok ⟨7, [], .outside⟩ := by decide
  have stuck : Stuck ⟨7, [], .outside⟩ := ⟨by decide, rfl, .inl rfl⟩
  refine ⟨⟨7, [], .outside⟩, ?_, rfl, rfl, ?_⟩
  · exact Machine.Reachable.run (.start rfl)
      (fun _ _ _ => trivial) runs
  · intro later leads
    have stuckLater := stuck_leads stuck leads
    exact ⟨stuckLater.childless,
      currentlyFlushing_of_stuck stuckLater 1 (by decide)⟩

end Handshake

end SimpleCache
