import Mathlib.Data.List.Perm.Subperm
import SimpleCache.Library.Links
import SimpleCache.Library.Machine
import SimpleCache.Library.Update

/-!
# The monitoring connections

Connections that stream keep-alive numbers are threaded on a list by the
links in their own records.  A new one is put at the head, and the timer
works from the head down to the first connection whose time has not come.  A
connection that has taken its last number is moved to the tail, one that has
not is dropped.
-/

namespace SimpleCache

namespace Monitoring

/-- `MONITORING_DEFAULT_INTERVAL`, in microseconds. -/
def interval : Int := 5000000

/-- Connections are named in the order of their creation.  `links` are
`mon_head`, `mon_tail` and the two link fields, which the pending list shares.
`outputBuffer` is the number that is still to be sent, `scheduled` and `now`
are in microseconds. -/
structure State where
  links : Links Nat
  pendingHead : Option Nat
  pendingTail : Option Nat
  count : Nat
  live : Nat → Bool
  isWriting : Nat → Bool
  outputBuffer : Nat → Option UInt16
  current : Nat → UInt16
  scheduled : Nat → Int
  now : Int

/-- The state when the server starts. -/
def start (now : Int) : State where
  links := Links.empty
  pendingHead := none
  pendingTail := none
  count := 0
  live := fun _ => false
  isWriting := fun _ => false
  outputBuffer := fun _ => none
  current := fun _ => 0
  scheduled := fun _ => 0
  now := now

/-- `disabled` is an event that cannot happen in the state.  The others are a
failed assertion, a read through a null pointer and a loop that is not done
after as many rounds as there were connections. -/
inductive Fault
  | disabled
  | assertion
  | nullPointer
  | diverges
  deriving DecidableEq

/-- `assert`. -/
def require (holds : Prop) [Decidable holds] : Except Fault Unit :=
  if holds then return () else throw .assertion

/-- Set the links of the neighbours of a connection past it. -/
def bypass (links : Links Nat) (conn : Nat) : Except Fault (Links Nat) := do
  let links ←
    match links.next conn with
    | none => pure links
    | some after => do
        require (links.prev after = some conn)
        pure { links with
          prev := Function.update links.prev after (links.prev conn) }
  match links.prev conn with
  | none => pure links
  | some before => do
      require (links.next before = some conn)
      pure { links with
        next := Function.update links.next before (links.next conn) }

/-- Insert a connection at the head. -/
def insertHead (links : Links Nat) (conn : Nat) : Except Fault (Links Nat) :=
  match links.tail with
  | none => do
      require (links.head = none)
      pure { links with head := some conn, tail := some conn }
  | some _ =>
      match links.head with
      | none => throw .nullPointer
      | some first => do
          require (links.prev first = none)
          pure { links with
            head := some conn
            prev := Function.update links.prev first (some conn)
            next := Function.update links.next conn (some first) }

/-- `monitoring_add`. -/
def monitoringAdd (mon : State) (conn : Nat) : Except Fault State := do
  let mon := { mon with
    links := { mon.links with
      next := Function.update mon.links.next conn none
      prev := Function.update mon.links.prev conn none }
    current := Function.update mon.current conn 0
    scheduled := Function.update mon.scheduled conn mon.now }
  let mon ←
    if mon.pendingHead = some conn then do
      require (mon.links.prev conn = none)
      pure { mon with pendingHead := mon.links.next conn }
    else pure mon
  let mon ←
    if mon.pendingTail = some conn then do
      require (mon.links.next conn = none)
      let mon := { mon with pendingTail := mon.links.prev conn }
      if mon.pendingHead = none then require (mon.pendingTail = none)
      pure mon
    else if mon.pendingTail ≠ none then do
      let links ← bypass mon.links conn
      pure { mon with links }
    else pure mon
  let links ← insertHead mon.links conn
  pure { mon with links }

/-- `monitoring_destroy`.  The pending list's tail is not reset, the other
list's is. -/
def monitoringDestroy (mon : State) (conn : Nat) : Except Fault State :=
  if mon.isWriting conn = false then do
    let mon ←
      if mon.pendingHead = some conn then do
        require (mon.links.prev conn = none)
        pure { mon with pendingHead := mon.links.next conn }
      else pure mon
    if mon.pendingTail = some conn then do
      require (mon.links.next conn = none)
      let mon := { mon with
        links := { mon.links with tail := mon.links.prev conn } }
      if mon.pendingHead = none then do
        require (mon.pendingTail = none)
        pure mon
      else do
        let links ← bypass mon.links conn
        pure { mon with links }
    else do
      let links ← bypass mon.links conn
      pure { mon with links }
  else do
    let mon ←
      if mon.links.head = some conn then do
        require (mon.links.prev conn = none)
        pure { mon with links := { mon.links with head := mon.links.next conn } }
      else pure mon
    if mon.links.tail = some conn then do
      require (mon.links.next conn = none)
      let mon := { mon with
        links := { mon.links with tail := mon.links.prev conn } }
      if mon.links.head = none then do
        require (mon.links.tail = none)
        pure mon
      else do
        let links ← bypass mon.links conn
        pure { mon with links }
    else do
      let links ← bypass mon.links conn
      pure { mon with links }

/-- `connection_remove`. -/
def connectionRemove (mon : State) (conn : Nat) : State :=
  { mon with live := Function.update mon.live conn false }

/-- `http_cleanup` and `connection_remove`. -/
def dropConnection (mon : State) (conn : Nat) : Except Fault State := do
  let mon ← monitoringDestroy mon conn
  pure (connectionRemove mon conn)

/-- Take the first connection off the list by hand. -/
def moveOn (links : Links Nat) (conn : Nat) : Except Fault (Links Nat) := do
  let links := { links with head := links.next conn }
  require (links.head ≠ some conn)
  match links.head with
  | none => pure links
  | some first =>
      pure { links with prev := Function.update links.prev first none }

/-- Put the connection behind the others. -/
def moveToTail (links : Links Nat) (conn : Nat) : Except Fault (Links Nat) := do
  let links ←
    if links.tail ≠ some conn then
      match links.tail with
      | none => throw .nullPointer
      | some last =>
          pure { links with
            tail := some conn
            next := Function.update links.next last (some conn)
            prev := Function.update links.prev conn (some last) }
    else
      pure { links with
        head := some conn
        tail := some conn
        prev := Function.update links.prev conn none }
  pure { links with next := Function.update links.next conn none }

/-- The next number is to be sent, and the one after that in five seconds. -/
def sendNumber (mon : State) (conn : Nat) : State :=
  { mon with
    outputBuffer :=
      Function.update mon.outputBuffer conn (some (mon.current conn))
    current := Function.update mon.current conn (mon.current conn + 1)
    scheduled := Function.update mon.scheduled conn (mon.now + interval) }

/-- The first loop of `monitoring_check`. -/
def checkStreaming : (rounds : Nat) → State → Except Fault State
  | 0, _ => throw .diverges
  | rounds + 1, mon =>
      match mon.links.head with
      | none => pure mon
      | some conn => do
          require (mon.links.prev conn = none)
          if mon.now < mon.scheduled conn then pure mon
          else do
            let links ← moveOn mon.links conn
            let mon := { mon with links }
            if mon.outputBuffer conn ≠ none then do
              let mon ← dropConnection mon conn
              checkStreaming rounds mon
            else do
              let links ← moveToTail mon.links conn
              checkStreaming rounds (sendNumber { mon with links } conn)

/-- The second loop of `monitoring_check`. -/
def checkPending : (rounds : Nat) → State → Except Fault State
  | 0, _ => throw .diverges
  | rounds + 1, mon =>
      match mon.pendingTail with
      | none => pure mon
      | some conn =>
          if mon.now < mon.scheduled conn then pure mon
          else do
            let mon ← dropConnection mon conn
            require (mon.pendingTail ≠ some conn)
            checkPending rounds mon

/-- `monitoring_check`. -/
def monitoringCheck (mon : State) : Except Fault State := do
  let mon ← checkStreaming (mon.count + 1) mon
  checkPending (mon.count + 1) mon

/-- `connection_add` for a monitoring connection. -/
def connectionAdd (mon : State) : State :=
  { mon with
    links := { mon.links with
      next := Function.update mon.links.next mon.count none
      prev := Function.update mon.links.prev mon.count none }
    count := mon.count + 1
    live := Function.update mon.live mon.count true
    isWriting := Function.update mon.isWriting mon.count false
    outputBuffer := Function.update mon.outputBuffer mon.count none }

/-- A connection that has been sent the headers starts to stream, one is
disconnected, or one is cleaned up behind a response that is not a stream.
When the timer fires some connections have not taken their last number. -/
inductive Event
  | connect
  | start (conn : Nat)
  | disconnect (conn : Nat)
  | cleanup (conn : Nat)
  | pass (elapsed : Nat)
  | tick (outputBuffer : Nat → Option UInt16)

/-- The connection streams. -/
def Streaming (mon : State) (conn : Nat) : Prop :=
  mon.live conn = true ∧ mon.isWriting conn = true

instance (mon : State) (conn : Nat) : Decidable (Streaming mon conn) :=
  inferInstanceAs (Decidable (_ ∧ _))

def step (mon : State) : Event → Except Fault State
  | .connect => pure (connectionAdd mon)
  | .start conn =>
      if mon.live conn = true ∧ mon.isWriting conn = false then do
        let mon ← monitoringAdd mon conn
        pure { mon with isWriting := Function.update mon.isWriting conn true }
      else throw .disabled
  | .disconnect conn =>
      if mon.live conn = true then dropConnection mon conn
      else throw .disabled
  | .cleanup conn =>
      if mon.live conn = true ∧ mon.isWriting conn = false then
        monitoringDestroy mon conn
      else throw .disabled
  | .pass elapsed => pure { mon with now := mon.now + elapsed }
  | .tick outputBuffer => monitoringCheck { mon with outputBuffer }

/-- The list of monitoring connections under the events of the server. -/
def machine : Machine State Event Fault where
  initial := fun mon => ∃ now, mon = start now
  step := step

section Lists

variable {links : Links Nat} {nodes : List Nat} {conn : Nat}

theorem bypass_alone (next : links.next conn = none)
    (prev : links.prev conn = none) : bypass links conn = .ok links := by
  unfold bypass
  rw [next]
  simp only [pure, Except.pure, bind, Except.bind, prev]

/-- A connection that is on no list is inserted at the head. -/
theorem insertHead_ok (represents : links.Represents nodes)
    (fresh : conn ∉ nodes) (next : links.next conn = none)
    (prev : links.prev conn = none) :
    insertHead links conn = .ok (links.prepend conn) := by
  cases nodes with
  | nil =>
      have head : links.head = none := represents.head_eq
      have tail : links.tail = none := represents.tail_eq
      unfold insertHead Links.prepend Links.append Links.reverse
      simp only [head, tail, require, if_true, Links.writeThrough, bind,
        Except.bind, pure, Except.pure]
      congr 2
      · exact (Function.update_eq_self_iff.mpr next.symm).symm
      · exact (Function.update_eq_self_iff.mpr prev.symm).symm
  | cons first rest =>
      have head : links.head = some first := represents.head_eq
      have tail : links.tail = some (rest.getLastD first) := by
        rw [represents.tail_eq, List.getLast?_cons, List.getLastD_eq_getLast?]
      have free : links.prev first = none :=
        represents.prev_eq [] first rest rfl
      have different : conn ≠ first := fun same => fresh (by simp [same])
      unfold insertHead Links.prepend Links.append Links.reverse
      simp only [head, tail, require, free, if_true, Links.writeThrough, bind,
        Except.bind, pure, Except.pure, reduceCtorEq, if_false]
      congr 2
      refine (Function.update_eq_self_iff.mpr ?_).symm
      rw [Function.update_of_ne different]
      exact prev.symm

/-- Taking the first connection off and putting it behind the others. -/
theorem moveToTail_ok (represents : links.Represents (conn :: nodes)) :
    ∃ moved, moveOn links conn = .ok moved ∧
      moved.prev conn = none ∧ moved.next conn = nodes.head? ∧
      moveToTail moved conn = .ok ((links.unlink conn).append conn) := by
  have nodup := List.nodup_cons.mp represents.nodup
  have prev : links.prev conn = none := represents.prev_eq [] conn nodes rfl
  have next : links.next conn = nodes.head? :=
    represents.next_eq [] conn nodes rfl
  cases nodes with
  | nil =>
      have tail : links.tail = some conn := represents.tail_eq
      have next : links.next conn = none := next
      refine ⟨{ links with head := none }, ?_, prev, next, ?_⟩
      · unfold moveOn
        simp [next, require, bind, Except.bind, pure, Except.pure]
      · unfold moveToTail Links.unlink Links.append
        simp [tail, next, prev, Links.writeThrough, bind, Except.bind, pure,
          Except.pure]
  | cons first rest =>
      have next : links.next conn = some first := next
      have different : first ≠ conn := fun same => nodup.1 (by simp [same])
      have last : links.tail = some (rest.getLastD first) := by
        rw [represents.tail_eq, List.getLast?_cons_cons, List.getLast?_cons,
          List.getLastD_eq_getLast?]
      have apart : rest.getLastD first ≠ conn := by
        intro same
        refine nodup.1 (List.mem_of_getLast? ?_)
        rw [List.getLast?_cons, ← same, List.getLastD_eq_getLast?]
      refine ⟨{ links with
          head := some first
          prev := Function.update links.prev first none },
        ?_, ?_, next, ?_⟩
      · unfold moveOn
        simp [next, different, require, bind, Except.bind, pure, Except.pure]
      · dsimp only
        rw [Function.update_of_ne different.symm]
        exact prev
      · unfold moveToTail Links.unlink Links.append
        simp only [next, prev, last, Links.writeThrough, bind, Except.bind,
          pure, Except.pure, ne_eq, Option.some.injEq, apart, not_false_eq_true,
          if_true, reduceCtorEq, if_false]
        congr 2
        · funext other
          by_cases same : other = conn
          · subst same
            simp
          · simp [same, Function.update_apply]
        · funext other
          by_cases same : other = conn
          · subst same
            simp
          · simp [same]

/-- The neighbours of a connection on the list are linked past it. -/
theorem bypass_ok {before after : List Nat}
    (represents : links.Represents (before ++ conn :: after)) :
    ∃ next prev : Nat → Option Nat,
      (∀ head tail, bypass ⟨head, tail, links.next, links.prev⟩ conn =
        .ok ⟨head, tail, next, prev⟩) ∧
      ∀ other, other ≠ conn →
        next other = (links.unlink conn).next other ∧
          prev other = (links.unlink conn).prev other := by
  have next := represents.next_eq before conn after rfl
  have prev := represents.prev_eq before conn after rfl
  have nodup := List.nodup_cons.mp
    (List.nodup_middle.mp represents.nodup)
  have past : ∀ {first}, after.head? = some first →
      links.prev first = some conn ∧ first ≠ conn := by
    intro first isFirst
    obtain ⟨rest, rfl⟩ : ∃ rest, after = first :: rest := by
      cases after with
      | nil => cases isFirst
      | cons head rest => exact ⟨rest, by rw [Option.some.inj isFirst]⟩
    refine ⟨?_, fun same => nodup.1 (by simp [same])⟩
    rw [represents.prev_eq (before ++ [conn]) first rest (by simp)]
    exact List.getLast?_concat
  have front : ∀ {last}, before.getLast? = some last →
      links.next last = some conn ∧ last ≠ conn := by
    intro last isLast
    obtain ⟨rest, rfl⟩ := List.getLast?_eq_some_iff.mp isLast
    refine ⟨?_, fun same => nodup.1 (by simp [same])⟩
    rw [represents.next_eq rest last (conn :: after) (by simp)]
    rfl
  unfold bypass Links.unlink
  simp only [next, prev]
  cases isFirst : after.head? with
  | none =>
      cases isLast : before.getLast? with
      | none =>
          refine ⟨links.next, links.prev, fun head tail => ?_,
            fun other different => ?_⟩
          · simp [prev, isLast, bind, Except.bind, pure, Except.pure]
          · simp [Links.writeThrough, different]
      | some last =>
          obtain ⟨forward, apart⟩ := front isLast
          refine ⟨Function.update links.next last none, links.prev,
            fun head tail => ?_, fun other different => ?_⟩
          · simp [prev, isLast, next, isFirst, forward, require, bind,
              Except.bind, pure, Except.pure]
          · simp [Links.writeThrough, different]
  | some first =>
      obtain ⟨back, apart⟩ := past isFirst
      cases isLast : before.getLast? with
      | none =>
          refine ⟨links.next, Function.update links.prev first none,
            fun head tail => ?_, fun other different => ?_⟩
          · simp [prev, isLast, back, apart.symm, require, bind, Except.bind,
              pure, Except.pure]
          · simp [Links.writeThrough, different]
      | some last =>
          obtain ⟨forward, _⟩ := front isLast
          refine ⟨Function.update links.next last (some first),
            Function.update links.prev first (some last),
            fun head tail => ?_, fun other different => ?_⟩
          · simp [prev, isLast, next, isFirst, back, forward, apart.symm,
              require, bind, Except.bind, pure, Except.pure]
          · simp [Links.writeThrough, different]

end Lists

section Destroying

variable {mon : State} {conn : Nat}

/-- A connection that does not stream is on no list. -/
theorem monitoringDestroy_idle (idle : mon.isWriting conn = false)
    (head : mon.pendingHead = none) (tail : mon.pendingTail = none)
    (next : mon.links.next conn = none) (prev : mon.links.prev conn = none) :
    monitoringDestroy mon conn = .ok mon := by
  unfold monitoringDestroy
  simp only [idle, head, tail, if_true, reduceCtorEq, if_false, bind,
    Except.bind, pure, Except.pure, bypass_alone next prev]
  cases mon
  cases head
  cases tail
  rfl

/-- A streaming connection is taken off the list, wherever it is. -/
theorem monitoringDestroy_streaming {before after : List Nat}
    (streams : mon.isWriting conn = true)
    (represents : mon.links.Represents (before ++ conn :: after)) :
    ∃ links : Links Nat,
      monitoringDestroy mon conn = .ok { mon with links } ∧
      links.Represents (before ++ after) ∧
      ∀ other, other ∉ before ++ conn :: after →
        links.next other = mon.links.next other ∧
          links.prev other = mon.links.prev other := by
  have next := represents.next_eq before conn after rfl
  have prev := represents.prev_eq before conn after rfl
  have nodup := List.nodup_cons.mp (List.nodup_middle.mp represents.nodup)
  have unlinked := represents.unlink
  have writing : ¬mon.isWriting conn = false := by
    rw [streams]
    exact Bool.noConfusion
  obtain ⟨nexts, prevs, passes, same⟩ := bypass_ok represents
  have inside : ∀ other ∈ before ++ after, other ≠ conn := by
    rintro other member rfl
    exact nodup.1 member
  -- only the ends are left to be compared with those of the shorter list
  have ends : ∀ links : Links Nat, links.head = (before ++ after).head? →
      links.tail = (before ++ after).getLast? →
      (∀ other, other ≠ conn →
        links.next other = (mon.links.unlink conn).next other ∧
          links.prev other = (mon.links.unlink conn).prev other) →
      links.Represents (before ++ after) ∧
      ∀ other, other ∉ before ++ conn :: after →
        links.next other = mon.links.next other ∧
          links.prev other = mon.links.prev other := by
    intro links head tail same
    refine ⟨unlinked.congr (head.trans unlinked.head_eq.symm)
      (tail.trans unlinked.tail_eq.symm)
      (fun other member => (same other (inside other member)).1)
      (fun other member => (same other (inside other member)).2), ?_⟩
    intro other outside
    have different : other ≠ conn := fun same => outside (by simp [same])
    have kept := @Links.Represents.unlink_other _ _ _ _ conn _
      represents (by simp) outside
    exact ⟨(same other different).1.trans kept.1,
      (same other different).2.trans kept.2⟩
  have head := represents.head_eq
  have tail := represents.tail_eq
  unfold monitoringDestroy
  rw [if_neg writing]
  cases before with
  | nil =>
      have prev : mon.links.prev conn = none := prev
      have head : mon.links.head = some conn := head
      cases after with
      | nil =>
          have next : mon.links.next conn = none := next
          have tail : mon.links.tail = some conn := tail
          refine ⟨⟨none, none, mon.links.next, mon.links.prev⟩, ?_,
            ends _ rfl rfl fun other different => ?_⟩
          · simp [head, tail, next, prev, require, bind, Except.bind, pure,
              Except.pure]
          · simp [Links.unlink, next, prev, Links.writeThrough, different]
      | cons first rest =>
          have next : mon.links.next conn = some first := next
          have apart : mon.links.tail ≠ some conn := by
            rw [tail]
            intro isLast
            rw [List.nil_append, List.getLast?_cons_cons] at isLast
            exact nodup.1 (List.mem_of_getLast? isLast)
          refine ⟨⟨some first, mon.links.tail, nexts, prevs⟩, ?_,
            ends _ rfl ?_ same⟩
          · simp [head, apart, next, prev, passes, require, bind, Except.bind,
              pure, Except.pure]
          · rw [tail, List.nil_append, List.nil_append, List.getLast?_cons_cons]
  | cons front others =>
      have apart : mon.links.head ≠ some conn := by
        rw [head]
        intro isFirst
        exact nodup.1 (by simp [Option.some.inj isFirst])
      cases after with
      | nil =>
          have next : mon.links.next conn = none := next
          have tail : mon.links.tail = some conn := by
            rw [tail, List.getLast?_concat]
          have prev : mon.links.prev conn = (front :: others).getLast? := prev
          have some_ : mon.links.head ≠ none := by
            rw [head]
            exact Option.some_ne_none _
          refine ⟨⟨mon.links.head, mon.links.prev conn, nexts, prevs⟩, ?_,
            ends _ ?_ ?_ same⟩
          · simp [apart, tail, next, some_, passes, require, bind, Except.bind,
              pure, Except.pure]
          · rw [head]
            rfl
          · rw [prev, List.append_nil]
      | cons first rest =>
          have last : mon.links.tail ≠ some conn := by
            rw [tail, List.getLast?_append_cons]
            intro isLast
            rw [List.getLast?_cons_cons] at isLast
            exact nodup.1 (List.mem_append_right _ (List.mem_of_getLast? isLast))
          refine ⟨⟨mon.links.head, mon.links.tail, nexts, prevs⟩, ?_,
            ends _ ?_ ?_ same⟩
          · simp [apart, last, passes, bind, Except.bind, pure,
              Except.pure]
          · rw [head]
            rfl
          · rw [tail, List.getLast?_append_cons, List.getLast?_append_cons,
              List.getLast?_cons_cons]

end Destroying

section Ticking

variable {mon : State} {conn : Nat}

/-- What a tick that drops no connection does to those in `due`, the first
ones of the list. -/
structure Ticked (mon after : State) (due nodes : List Nat) : Prop where
  pendingTail : after.pendingTail = mon.pendingTail
  pendingHead : after.pendingHead = mon.pendingHead
  count : after.count = mon.count
  live : after.live = mon.live
  isWriting : after.isWriting = mon.isWriting
  now : after.now = mon.now
  sent : ∀ conn ∈ due, after.scheduled conn = mon.now + interval
  waiting : ∀ conn, conn ∉ due → after.scheduled conn = mon.scheduled conn
  apart : ∀ conn, conn ∉ nodes →
    after.links.next conn = mon.links.next conn ∧
      after.links.prev conn = mon.links.prev conn

/-- The state behind one round that moves a connection to the tail. -/
def rotated (mon : State) (conn : Nat) : State :=
  sendNumber { mon with links := (mon.links.unlink conn).append conn } conn

/-- A due connection that has taken its number is moved to the tail. -/
theorem checkStreaming_cons {rounds : Nat} {rest : List Nat}
    (represents : mon.links.Represents (conn :: rest))
    (due : mon.scheduled conn ≤ mon.now)
    (drained : mon.outputBuffer conn = none) :
    checkStreaming (rounds + 1) mon =
      checkStreaming rounds (rotated mon conn) := by
  have head : mon.links.head = some conn := represents.head_eq
  have prev : mon.links.prev conn = none := represents.prev_eq [] conn rest rfl
  obtain ⟨moved, off, -, -, behind⟩ := moveToTail_ok represents
  conv_lhs => unfold checkStreaming
  simp only [head, prev, require, if_true, bind, Except.bind, pure, Except.pure,
    if_neg (Int.not_lt.mpr due), off, drained, ne_eq, not_true_eq_false, if_false,
    behind]
  rfl

theorem represents_rotated {rest : List Nat}
    (represents : mon.links.Represents (conn :: rest)) :
    (rotated mon conn).links.Represents (rest ++ [conn]) :=
  (@Links.Represents.unlink _ _ _ [] _ _ represents).append
    (List.nodup_cons.mp represents.nodup).1

theorem rotated_scheduled (other : Nat) :
    (rotated mon conn).scheduled other =
      if other = conn then mon.now + interval else mon.scheduled other := by
  unfold rotated sendNumber
  exact Function.update_apply _ _ _ _

theorem rotated_outputBuffer {other : Nat} (different : other ≠ conn) :
    (rotated mon conn).outputBuffer other = mon.outputBuffer other :=
  Function.update_of_ne different _ _

/-- The loop ends at the first connection whose time has not come. -/
theorem checkStreaming_stop {rounds : Nat} {nodes : List Nat}
    (represents : mon.links.Represents nodes)
    (later : ∀ first, nodes.head? = some first →
      mon.now < mon.scheduled first) :
    checkStreaming (rounds + 1) mon = .ok mon := by
  unfold checkStreaming
  rw [represents.head_eq]
  cases nodes with
  | nil => rfl
  | cons first rest =>
      have prev : mon.links.prev first = none :=
        represents.prev_eq [] first rest rfl
      simp only [List.head?_cons, prev, require, if_true, bind, Except.bind,
        pure, Except.pure, if_pos (later first rfl)]

/-- When all due connections have taken their numbers the loop moves them
behind the others. -/
theorem checkStreaming_drained {rounds : Nat} {due rest : List Nat}
    (represents : mon.links.Represents (due ++ rest))
    (isDue : ∀ conn ∈ due, mon.scheduled conn ≤ mon.now)
    (later : ∀ conn ∈ rest, mon.now < mon.scheduled conn)
    (drained : ∀ conn ∈ due, mon.outputBuffer conn = none)
    (enough : due.length < rounds) :
    ∃ after, checkStreaming rounds mon = .ok after ∧
      after.links.Represents (rest ++ due) ∧
      Ticked mon after due (due ++ rest) := by
  induction due generalizing mon rest rounds with
  | nil =>
      obtain ⟨rounds, rfl⟩ : ∃ fewer, rounds = fewer + 1 :=
        ⟨rounds - 1, by rw [List.length_nil] at enough; omega⟩
      refine ⟨mon, checkStreaming_stop represents fun first isFirst => ?_,
        ?_, ?_⟩
      · exact later first (List.mem_of_head? isFirst)
      · rw [List.append_nil]
        exact represents
      · exact ⟨rfl, rfl, rfl, rfl, rfl, rfl,
          fun _ member => absurd member List.not_mem_nil, fun _ _ => rfl,
          fun _ _ => ⟨rfl, rfl⟩⟩
  | cons conn due ih =>
      rw [List.cons_append] at represents
      have nodup := List.nodup_cons.mp represents.nodup
      obtain ⟨rounds, rfl⟩ : ∃ fewer, rounds = fewer + 1 :=
        ⟨rounds - 1, by omega⟩
      have different : ∀ other ∈ due ++ rest, other ≠ conn := by
        rintro other member rfl
        exact nodup.1 member
      have turned := represents_rotated represents
      rw [List.append_assoc] at turned
      obtain ⟨after, checked, listed, ticked⟩ := ih turned
        (fun other member => by
          rw [rotated_scheduled,
            if_neg (different other (List.mem_append_left _ member))]
          exact isDue other (List.mem_cons_of_mem _ member))
        (fun other member => by
          rw [rotated_scheduled]
          rcases List.mem_append.mp member with older | last
          · rw [if_neg (different other (List.mem_append_right _ older))]
            exact later other older
          · rw [if_pos (List.mem_singleton.mp last)]
            exact Int.lt_add_of_pos_right _ (by decide))
        (fun other member => by
          rw [rotated_outputBuffer
            (different other (List.mem_append_left _ member))]
          exact drained other (List.mem_cons_of_mem _ member))
        (Nat.lt_of_succ_lt_succ enough)
      refine ⟨after, ?_, ?_, ?_⟩
      · rw [checkStreaming_cons represents (isDue conn List.mem_cons_self)
          (drained conn List.mem_cons_self)]
        exact checked
      · rw [List.append_assoc] at listed
        exact listed
      · refine ⟨ticked.pendingTail, ticked.pendingHead, ticked.count,
          ticked.live, ticked.isWriting, ticked.now, ?_, ?_, ?_⟩
        · intro other member
          by_cases inside : other ∈ due
          · exact ticked.sent other inside
          · obtain rfl : other = conn :=
              (List.mem_cons.mp member).resolve_right inside
            rw [ticked.waiting other inside, rotated_scheduled, if_pos rfl]
        · intro other outside
          rw [ticked.waiting other fun member =>
              outside (List.mem_cons_of_mem _ member),
            rotated_scheduled, if_neg]
          rintro rfl
          exact outside List.mem_cons_self
        · intro other outside
          have apart : other ≠ conn := fun same => outside (by simp [same])
          have fewer : other ∉ due ++ rest := fun member =>
            outside (List.mem_cons_of_mem _ member)
          have kept := ticked.apart other (by
            rw [← List.append_assoc]
            intro member
            rcases List.mem_append.mp member with older | last
            · exact fewer older
            · exact apart (List.mem_singleton.mp last))
          have behind := (@Links.Represents.unlink _ _ _ [] _ _
            represents).append_other apart fewer
          have off := @Links.Represents.unlink_other _ _ _ _ conn _
            represents List.mem_cons_self outside
          exact ⟨kept.1.trans (behind.1.trans off.1),
            kept.2.trans (behind.2.trans off.2)⟩

/-- A due connection that has not taken its number is dropped only from a
list of its own. -/
theorem checkStreaming_undrained {rounds : Nat} {front others : List Nat}
    (represents : mon.links.Represents (front ++ conn :: others))
    (isDue : ∀ other ∈ front, mon.scheduled other ≤ mon.now)
    (drained : ∀ other ∈ front, mon.outputBuffer other = none)
    (due : mon.scheduled conn ≤ mon.now)
    (undrained : mon.outputBuffer conn ≠ none)
    (streams : mon.isWriting conn = true)
    (more : front ++ others ≠ []) (enough : front.length < rounds) :
    checkStreaming rounds mon = .error .assertion := by
  induction front generalizing mon others rounds with
  | nil =>
      obtain ⟨rounds, rfl⟩ : ∃ fewer, rounds = fewer + 1 :=
        ⟨rounds - 1, by rw [List.length_nil] at enough; omega⟩
      obtain ⟨first, rest, rfl⟩ : ∃ first rest, others = first :: rest :=
        List.exists_cons_of_ne_nil more
      rw [List.nil_append] at represents
      have nodup := List.nodup_cons.mp represents.nodup
      have apart : first ≠ conn := fun same => nodup.1 (by simp [same])
      have head : mon.links.head = some conn := represents.head_eq
      have next : mon.links.next conn = some first :=
        represents.next_eq [] conn _ rfl
      have prev : mon.links.prev conn = none :=
        represents.prev_eq [] conn _ rfl
      have tail : mon.links.tail ≠ some conn := by
        rw [represents.tail_eq, List.getLast?_cons_cons]
        exact fun isLast => nodup.1 (List.mem_of_getLast? isLast)
      unfold checkStreaming dropConnection monitoringDestroy bypass moveOn
      simp [head, next, prev, tail, apart, undrained, streams, require,
        Int.not_lt.mpr due, bind, Except.bind, pure, Except.pure, throw,
        throwThe, MonadExceptOf.throw]
  | cons first front ih =>
      rw [List.cons_append] at represents
      have nodup := List.nodup_cons.mp represents.nodup
      obtain ⟨rounds, rfl⟩ : ∃ fewer, rounds = fewer + 1 :=
        ⟨rounds - 1, by omega⟩
      have different : ∀ other ∈ front ++ conn :: others, other ≠ first := by
        rintro other member rfl
        exact nodup.1 member
      have isOther : conn ≠ first := different conn (by simp)
      have turned := represents_rotated represents
      rw [List.append_assoc, List.cons_append] at turned
      rw [checkStreaming_cons represents (isDue first List.mem_cons_self)
        (drained first List.mem_cons_self)]
      refine ih turned ?_ ?_ ?_ ?_ streams (by simp) ?_
      · intro other member
        rw [rotated_scheduled,
          if_neg (different other (List.mem_append_left _ member))]
        exact isDue other (List.mem_cons_of_mem _ member)
      · intro other member
        rw [rotated_outputBuffer
          (different other (List.mem_append_left _ member))]
        exact drained other (List.mem_cons_of_mem _ member)
      · rw [rotated_scheduled, if_neg isOther]
        exact due
      · rw [rotated_outputBuffer isOther]
        exact undrained
      · rw [List.length_cons] at enough
        omega

/-- The only connection is dropped when it is due and has not taken its
number. -/
theorem checkStreaming_only {rounds : Nat}
    (represents : mon.links.Represents [conn])
    (due : mon.scheduled conn ≤ mon.now)
    (undrained : mon.outputBuffer conn ≠ none)
    (streams : mon.isWriting conn = true) (enough : 1 < rounds) :
    checkStreaming rounds mon =
      .ok (connectionRemove
        { mon with links := { mon.links with head := none, tail := none } }
        conn) := by
  obtain ⟨rounds, rfl⟩ : ∃ fewer, rounds = fewer + 1 + 1 :=
    ⟨rounds - 2, by omega⟩
  have head : mon.links.head = some conn := represents.head_eq
  have next : mon.links.next conn = none := represents.next_eq [] conn [] rfl
  have prev : mon.links.prev conn = none := represents.prev_eq [] conn [] rfl
  have tail : mon.links.tail = some conn := represents.tail_eq
  unfold checkStreaming dropConnection monitoringDestroy moveOn
  simp [head, next, prev, tail, undrained, streams, require, Int.not_lt.mpr due,
    bind, Except.bind, pure, Except.pure, connectionRemove, checkStreaming]

end Ticking

/-- The end pointers and the link fields are a list of the streaming
connections, each once. -/
def WellLinked (mon : State) : Prop :=
  ∃ nodes, mon.links.Represents nodes ∧
    ∀ conn, conn ∈ nodes ↔ Streaming mon conn

/-- The list is sorted by time and no connection on it is overdue. -/
def Settled (mon : State) : Prop :=
  ∀ nodes, mon.links.Represents nodes →
    nodes.Pairwise (fun earlier later =>
      mon.scheduled earlier ≤ mon.scheduled later) ∧
    ∀ conn ∈ nodes, mon.now < mon.scheduled conn

/-- A due connection that has not taken its last number is the only one that
streams. -/
def Drains (mon : State) (outputBuffer : Nat → Option UInt16) : Prop :=
  ∀ conn, Streaming mon conn → mon.scheduled conn ≤ mon.now →
    outputBuffer conn ≠ none → ∀ other, Streaming mon other → other = conn

/-- The condition on a step. -/
def Meets (mon : State) : Event → Prop
  | .tick outputBuffer => Drains mon outputBuffer
  | _ => True

/-- Connections that have started since the last tick stand before the
others, which are sorted. -/
def Timed (mon : State) (nodes : List Nat) : Prop :=
  ∃ fresh older, nodes = fresh ++ older ∧
    (∀ conn ∈ fresh, mon.scheduled conn ≤ mon.now) ∧
    older.Pairwise (fun earlier later =>
      mon.scheduled earlier ≤ mon.scheduled later) ∧
    ∀ conn ∈ older, mon.scheduled conn ≤ mon.now + interval

structure Good (mon : State) (nodes : List Nat) : Prop where
  represents : mon.links.Represents nodes
  pendingHead : mon.pendingHead = none
  pendingTail : mon.pendingTail = none
  streams : ∀ conn, conn ∈ nodes ↔ Streaming mon conn
  created : ∀ conn, mon.live conn = true → conn < mon.count
  idle : ∀ conn, mon.live conn = true → mon.isWriting conn = false →
    mon.links.next conn = none ∧ mon.links.prev conn = none
  timed : Timed mon nodes

section Invariant

variable {mon : State} {nodes : List Nat} {conn : Nat}

theorem Good.not_mem (good : Good mon nodes)
    (idle : mon.isWriting conn = false) : conn ∉ nodes := by
  intro member
  have streams := ((good.streams conn).mp member).2
  rw [idle] at streams
  cases streams

theorem Timed.sublist {fewer : List Nat} (timed : Timed mon nodes)
    (sublist : fewer.Sublist nodes) : Timed mon fewer := by
  obtain ⟨fresh, older, rfl, due, sorted, soon⟩ := timed
  obtain ⟨first, second, rfl, left, right⟩ :=
    List.sublist_append_iff.mp sublist
  exact ⟨first, second, rfl, fun conn member => due conn (left.subset member),
    sorted.sublist right, fun conn member => soon conn (right.subset member)⟩

theorem good_start (now : Int) : Good (start now) [] where
  represents := Links.represents_empty
  pendingHead := rfl
  pendingTail := rfl
  streams := by simp [Streaming, start]
  created := by simp [start]
  idle := by simp [start]
  timed := ⟨[], [], rfl, by simp, .nil, by simp⟩

theorem good_connect (good : Good mon nodes) :
    Good (connectionAdd mon) nodes := by
  have fresh : mon.count ∉ nodes := fun member =>
    Nat.lt_irrefl _ (good.created _ ((good.streams _).mp member).1)
  refine ⟨good.represents.clear fresh, good.pendingHead, good.pendingTail,
    ?_, ?_, ?_, good.timed⟩
  · intro conn
    by_cases same : conn = mon.count
    · subst same
      simp [Streaming, connectionAdd, fresh]
    · rw [good.streams]
      simp [Streaming, connectionAdd, same]
  · intro conn live
    unfold connectionAdd at live ⊢
    dsimp only at live ⊢
    by_cases same : conn = mon.count
    · omega
    · rw [Function.update_of_ne same] at live
      exact Nat.lt_succ_of_lt (good.created conn live)
  · intro conn live reads
    unfold connectionAdd at live reads ⊢
    dsimp only at live reads ⊢
    by_cases same : conn = mon.count
    · subst same
      simp
    · rw [Function.update_of_ne same] at live reads
      rw [Function.update_of_ne same, Function.update_of_ne same]
      exact good.idle conn live reads

/-- What `monitoring_add` does to a connection that is on neither list. -/
theorem monitoringAdd_ok (good : Good mon nodes) (fresh : conn ∉ nodes) :
    monitoringAdd mon conn = .ok
      { mon with
        links := Links.prepend { mon.links with
          next := Function.update mon.links.next conn none
          prev := Function.update mon.links.prev conn none } conn
        current := Function.update mon.current conn 0
        scheduled := Function.update mon.scheduled conn mon.now } := by
  have cleared := good.represents.clear fresh
  unfold monitoringAdd
  simp only [good.pendingHead, good.pendingTail, reduceCtorEq, if_false,
    ne_eq, not_true_eq_false, bind, Except.bind, pure, Except.pure,
    insertHead_ok cleared fresh (Function.update_self ..)
      (Function.update_self ..)]

theorem good_add (good : Good mon nodes) (live : mon.live conn = true)
    (reads : mon.isWriting conn = false) :
    ∃ after, step mon (.start conn) = .ok after ∧
      Good after (conn :: nodes) := by
  have fresh := good.not_mem reads
  have cleared := good.represents.clear fresh
  unfold step
  simp only [live, reads, and_self, if_true, monitoringAdd_ok good fresh, bind,
    Except.bind, pure, Except.pure]
  refine ⟨_, rfl, cleared.prepend fresh, good.pendingHead, good.pendingTail,
    ?_, good.created, ?_, ?_⟩
  · intro other
    by_cases same : other = conn
    · subst same
      simp [Streaming, live]
    · simp [Streaming, same, good.streams]
  · intro other isLive idle
    dsimp only at idle ⊢
    by_cases same : other = conn
    · subst same
      simp at idle
    · rw [Function.update_of_ne same] at idle
      have kept := cleared.prepend_other same (good.not_mem idle)
      rw [kept.1, kept.2]
      dsimp only
      rw [Function.update_of_ne same, Function.update_of_ne same]
      exact good.idle other isLive idle
  · obtain ⟨young, older, rfl, due, sorted, soon⟩ := good.timed
    have kept : ∀ other ∈ young ++ older,
        Function.update mon.scheduled conn mon.now other =
          mon.scheduled other := by
      intro other member
      refine Function.update_of_ne ?_ _ _
      rintro rfl
      exact fresh member
    refine ⟨conn :: young, older, rfl, ?_, ?_, ?_⟩
    · intro other member
      dsimp only
      rcases List.mem_cons.mp member with rfl | inside
      · refine Int.le_of_eq ?_
        rw [Function.update_self]
      · rw [kept other (List.mem_append_left _ inside)]
        exact due other inside
    · refine sorted.imp_of_mem ?_
      intro first second firstMem secondMem le
      dsimp only
      rw [kept first (List.mem_append_right _ firstMem),
        kept second (List.mem_append_right _ secondMem)]
      exact le
    · intro other member
      dsimp only
      rw [kept other (List.mem_append_right _ member)]
      exact soon other member

/-- Removing a connection that streams no longer. -/
theorem Good.remove {links : Links Nat} {fewer : List Nat}
    (good : Good mon nodes) (represents : links.Represents fewer)
    (sublist : fewer.Sublist nodes)
    (rest : ∀ other, other ∈ fewer ↔ other ≠ conn ∧ other ∈ nodes)
    (apart : ∀ other, other ∉ nodes →
      links.next other = mon.links.next other ∧
        links.prev other = mon.links.prev other) :
    Good (connectionRemove { mon with links } conn) fewer := by
  have live : ∀ {other},
      (connectionRemove { mon with links } conn).live other = true ↔
        other ≠ conn ∧ mon.live other = true := update_false_iff
  refine ⟨represents, good.pendingHead, good.pendingTail, ?_, ?_, ?_,
    good.timed.sublist sublist⟩
  · intro other
    rw [rest, good.streams]
    unfold Streaming
    rw [live]
    exact and_assoc.symm
  · intro other isLive
    exact good.created other (live.mp isLive).2
  · intro other isLive idle
    obtain ⟨next, prev⟩ := apart other (good.not_mem idle)
    obtain ⟨noNext, noPrev⟩ := good.idle other (live.mp isLive).2 idle
    exact ⟨next.trans noNext, prev.trans noPrev⟩

theorem good_drop (good : Good mon nodes) (live : mon.live conn = true) :
    ∃ after fewer, dropConnection mon conn = .ok after ∧
      Good after fewer := by
  unfold dropConnection
  cases writes : mon.isWriting conn with
  | false =>
      obtain ⟨next, prev⟩ := good.idle conn live writes
      have fresh := good.not_mem writes
      have destroyed := monitoringDestroy_idle writes good.pendingHead
        good.pendingTail next prev
      refine ⟨connectionRemove mon conn, nodes, ?_,
        good.remove good.represents (List.Sublist.refl _) (fun other => ?_)
          fun _ _ => ⟨rfl, rfl⟩⟩
      · rw [destroyed]
        rfl
      · refine ⟨fun member => ⟨?_, member⟩, fun member => member.2⟩
        rintro rfl
        exact fresh member
  | true =>
      have member := (good.streams conn).mpr ⟨live, writes⟩
      obtain ⟨before, after, rfl⟩ := List.append_of_mem member
      have nodup := List.nodup_cons.mp
        (List.nodup_middle.mp good.represents.nodup)
      obtain ⟨links, destroyed, represents, apart⟩ :=
        monitoringDestroy_streaming writes good.represents
      refine ⟨connectionRemove { mon with links } conn, before ++ after, ?_,
        good.remove represents ?_ (fun other => ?_) apart⟩
      · rw [destroyed]
        rfl
      · exact List.Sublist.append_left (List.sublist_cons_self conn after) before
      · constructor
        · intro member
          refine ⟨fun same => nodup.1 (same ▸ member), ?_⟩
          rcases List.mem_append.mp member with first | second
          · exact List.mem_append_left _ first
          · exact List.mem_append_right _ (List.mem_cons_of_mem _ second)
        · rintro ⟨apart, member⟩
          rcases List.mem_append.mp member with first | second
          · exact List.mem_append_left _ first
          · exact List.mem_append_right _
              ((List.mem_cons.mp second).resolve_left apart)

theorem good_pass (good : Good mon nodes) (elapsed : Nat) :
    Good { mon with now := mon.now + elapsed } nodes := by
  refine ⟨good.represents, good.pendingHead, good.pendingTail, good.streams,
    good.created, good.idle, ?_⟩
  obtain ⟨fresh, older, rfl, due, sorted, soon⟩ := good.timed
  refine ⟨fresh, older, rfl, fun conn member => ?_, sorted,
    fun conn member => ?_⟩
  · exact Int.le_trans (due conn member)
      (Int.le_add_of_nonneg_right (Int.natCast_nonneg _))
  · have before := soon conn member
    dsimp only
    omega

/-- The due connections stand before the others. -/
theorem Timed.split (timed : Timed mon nodes) :
    ∃ due later, nodes = due ++ later ∧
      (∀ conn ∈ due, mon.scheduled conn ≤ mon.now) ∧
      (∀ conn ∈ later, mon.now < mon.scheduled conn) ∧
      later.Pairwise (fun earlier later =>
        mon.scheduled earlier ≤ mon.scheduled later) ∧
      ∀ conn ∈ later, mon.scheduled conn ≤ mon.now + interval := by
  obtain ⟨fresh, older, rfl, isDue, sorted, soon⟩ := timed
  suffices older_ : ∃ due later, older = due ++ later ∧
      (∀ conn ∈ due, mon.scheduled conn ≤ mon.now) ∧
      ∀ conn ∈ later, mon.now < mon.scheduled conn by
    obtain ⟨due, later, rfl, early, late⟩ := older_
    refine ⟨fresh ++ due, later, (List.append_assoc ..).symm, ?_, late,
      (List.pairwise_append.mp sorted).2.1,
      fun conn member => soon conn (List.mem_append_right _ member)⟩
    intro conn member
    rcases List.mem_append.mp member with young | old
    · exact isDue conn young
    · exact early conn old
  clear isDue soon
  induction older with
  | nil => exact ⟨[], [], rfl, by simp, by simp⟩
  | cons first rest ih =>
      obtain ⟨above, sorted⟩ := List.pairwise_cons.mp sorted
      by_cases due : mon.scheduled first ≤ mon.now
      · obtain ⟨early, late, rfl, isDue, isLater⟩ := ih sorted
        refine ⟨first :: early, late, rfl, ?_, isLater⟩
        intro conn member
        rcases List.mem_cons.mp member with rfl | inside
        · exact due
        · exact isDue conn inside
      · refine ⟨[], first :: rest, rfl, by simp, ?_⟩
        intro conn member
        rcases List.mem_cons.mp member with rfl | inside
        · exact Int.not_le.mp due
        · exact Int.lt_of_lt_of_le (Int.not_le.mp due) (above conn inside)

theorem Good.length_le (good : Good mon nodes) : nodes.length ≤ mon.count := by
  have subset : nodes ⊆ List.range mon.count := fun conn member =>
    List.mem_range.mpr
      (good.created conn ((good.streams conn).mp member).1)
  have shorter := (good.represents.nodup.subperm subset).length_le
  rw [List.length_range] at shorter
  exact shorter

theorem good_buffers (good : Good mon nodes)
    (outputBuffer : Nat → Option UInt16) :
    Good { mon with outputBuffer } nodes :=
  ⟨good.represents, good.pendingHead, good.pendingTail, good.streams,
    good.created, good.idle, good.timed⟩

/-- The second loop finds nothing. -/
theorem checkPending_none {rounds : Nat} (tail : mon.pendingTail = none) :
    checkPending (rounds + 1) mon = .ok mon := by
  unfold checkPending
  rw [tail]
  rfl

/-- A tick whose due connections have all taken their numbers. -/
theorem good_rotate {due later : List Nat}
    (good : Good mon (due ++ later))
    (isDue : ∀ conn ∈ due, mon.scheduled conn ≤ mon.now)
    (isLater : ∀ conn ∈ later, mon.now < mon.scheduled conn)
    (sorted : later.Pairwise fun earlier later =>
      mon.scheduled earlier ≤ mon.scheduled later)
    (soon : ∀ conn ∈ later, mon.scheduled conn ≤ mon.now + interval)
    (drained : ∀ conn ∈ due, mon.outputBuffer conn = none) :
    ∃ after, monitoringCheck mon = .ok after ∧ Good after (later ++ due) ∧
      Settled after := by
  have enough := good.length_le
  rw [List.length_append] at enough
  obtain ⟨after, checked, represents, ticked⟩ :=
    checkStreaming_drained good.represents isDue isLater drained
      (by omega : due.length < mon.count + 1)
  have apart : ∀ conn ∈ later, conn ∉ due := fun conn late early =>
    (List.nodup_append.mp good.represents.nodup).2.2 conn early conn late rfl
  have lateTime : ∀ conn ∈ later,
      after.scheduled conn = mon.scheduled conn := fun conn member =>
    ticked.waiting conn (apart conn member)
  have inOrder : (later ++ due).Pairwise fun earlier later =>
      after.scheduled earlier ≤ after.scheduled later := by
    refine List.pairwise_append.mpr ⟨sorted.imp_of_mem ?_,
      List.pairwise_of_forall_mem_list ?_, ?_⟩
    · intro first second firstMem secondMem le
      rw [lateTime first firstMem, lateTime second secondMem]
      exact le
    · intro first firstMem second secondMem
      refine Int.le_of_eq ?_
      rw [ticked.sent first firstMem, ticked.sent second secondMem]
    · intro first firstMem second secondMem
      rw [lateTime first firstMem, ticked.sent second secondMem]
      exact soon first firstMem
  have next : ∀ conn ∈ later ++ due, after.now < after.scheduled conn ∧
      after.scheduled conn ≤ after.now + interval := by
    intro conn member
    rw [ticked.now]
    rcases List.mem_append.mp member with late | early
    · rw [lateTime conn late]
      exact ⟨isLater conn late, soon conn late⟩
    · rw [ticked.sent conn early]
      exact ⟨Int.lt_add_of_pos_right _ (by decide), Int.le_refl _⟩
  have pendingTail := ticked.pendingTail.trans good.pendingTail
  refine ⟨after, ?_, ⟨represents, ticked.pendingHead.trans good.pendingHead,
    pendingTail, ?_, ?_, ?_, ?_⟩, ?_⟩
  · unfold monitoringCheck
    rw [checked]
    exact checkPending_none pendingTail
  · intro conn
    unfold Streaming
    rw [ticked.live, ticked.isWriting, ← Streaming, ← good.streams,
      List.mem_append, List.mem_append]
    exact or_comm
  · intro conn live
    rw [ticked.live] at live
    rw [ticked.count]
    exact good.created conn live
  · intro conn live idle
    rw [ticked.live] at live
    rw [ticked.isWriting] at idle
    obtain ⟨next, prev⟩ := ticked.apart conn (good.not_mem idle)
    obtain ⟨noNext, noPrev⟩ := good.idle conn live idle
    exact ⟨next.trans noNext, prev.trans noPrev⟩
  · exact ⟨[], later ++ due, rfl, by simp, inOrder,
      fun conn member => (next conn member).2⟩
  · intro nodes threads
    obtain rfl := threads.unique represents
    exact ⟨inOrder, fun conn member => (next conn member).1⟩

/-- A tick that drops the only connection. -/
theorem good_dropOnly (good : Good mon [conn])
    (due : mon.scheduled conn ≤ mon.now)
    (undrained : mon.outputBuffer conn ≠ none) :
    ∃ after, monitoringCheck mon = .ok after ∧ Good after [] ∧
      Settled after := by
  obtain ⟨live, streams⟩ := (good.streams conn).mp List.mem_cons_self
  have created := good.created conn live
  have checked := checkStreaming_only good.represents due undrained streams
    (by omega : 1 < mon.count + 1)
  have represents : Links.Represents
      { mon.links with head := none, tail := none } [] :=
    ⟨List.nodup_nil, rfl, rfl, by simp, by simp⟩
  have removed := @Good.remove _ _ conn _ _ good represents
    (List.nil_sublist _) (by simp) fun _ _ => ⟨rfl, rfl⟩
  refine ⟨_, ?_, removed, ?_⟩
  · unfold monitoringCheck
    rw [checked]
    exact checkPending_none good.pendingTail
  · intro nodes threads
    obtain rfl := threads.unique represents
    exact ⟨.nil, by simp⟩

theorem eq_singleton (nodup : nodes.Nodup) (member : conn ∈ nodes)
    (only : ∀ other ∈ nodes, other = conn) : nodes = [conn] := by
  cases nodes with
  | nil => cases member
  | cons first rest =>
      obtain rfl := only first List.mem_cons_self
      cases rest with
      | nil => rfl
      | cons second rest =>
          obtain rfl := only second (by simp)
          exact absurd List.mem_cons_self (List.nodup_cons.mp nodup).1

theorem good_tick (good : Good mon nodes)
    {outputBuffer : Nat → Option UInt16} (drains : Drains mon outputBuffer) :
    ∃ after rest, step mon (.tick outputBuffer) = .ok after ∧
      Good after rest ∧ Settled after := by
  have buffers := good_buffers good outputBuffer
  obtain ⟨due, later, rfl, isDue, isLater, sorted, soon⟩ := good.timed.split
  by_cases drained : ∀ conn ∈ due, outputBuffer conn = none
  · obtain ⟨after, checked, kept, settled⟩ :=
      good_rotate buffers isDue isLater sorted soon drained
    exact ⟨after, _, checked, kept, settled⟩
  · push Not at drained
    obtain ⟨conn, member, undrained⟩ := drained
    have streams := (good.streams conn).mp (List.mem_append_left _ member)
    have only := drains conn streams (isDue conn member) undrained
    have alone : due ++ later = [conn] :=
      eq_singleton good.represents.nodup (List.mem_append_left _ member)
        fun other inside => only other ((good.streams other).mp inside)
    rw [alone] at buffers
    obtain ⟨after, checked, kept, settled⟩ :=
      good_dropOnly buffers (isDue conn member) undrained
    exact ⟨after, _, checked, kept, settled⟩

/-- A tick that has to drop one of several connections fails. -/
theorem tick_undrained (good : Good mon nodes)
    {outputBuffer : Nat → Option UInt16} (drops : ¬Drains mon outputBuffer) :
    step mon (.tick outputBuffer) = .error .assertion := by
  have buffers := good_buffers good outputBuffer
  unfold Drains at drops
  push Not at drops
  obtain ⟨conn, streams, isDue, undrained, other, otherStreams, different⟩ :=
    drops
  obtain ⟨due, later, rfl, early, late, -, -⟩ := good.timed.split
  have member : conn ∈ due := by
    rcases List.mem_append.mp ((good.streams conn).mpr streams) with
      first | second
    · exact first
    · exact absurd isDue (Int.not_le.mpr (late conn second))
  -- the first connection that has not taken its number stops the loop
  obtain ⟨first, found⟩ : ∃ first,
      due.find? (fun conn => (outputBuffer conn).isSome) = some first :=
    Option.isSome_iff_exists.mp (List.find?_isSome.mpr
      ⟨conn, member, Option.isSome_iff_ne_none.mpr undrained⟩)
  obtain ⟨isUndrained, front, back, rfl, before⟩ :=
    List.find?_eq_some_iff_append.mp found
  have inside : first ∈ front ++ first :: back := by simp
  have firstStreams := (good.streams first).mp (List.mem_append_left _ inside)
  have enough := good.length_le
  have represents := buffers.represents
  rw [List.append_assoc, List.cons_append] at represents
  have failed := checkStreaming_undrained represents
    (fun other member => early other (List.mem_append_left _ member))
    (fun other member => by simpa using before other member)
    (early first inside) (Option.isSome_iff_ne_none.mp isUndrained)
    firstStreams.2 (by
      intro alone
      obtain ⟨rfl, none_⟩ := List.append_eq_nil_iff.mp alone
      obtain ⟨rfl, rfl⟩ := List.append_eq_nil_iff.mp none_
      have isFirst := (good.streams conn).mpr streams
      have otherIsFirst := (good.streams other).mpr otherStreams
      simp only [List.nil_append, List.append_nil, List.mem_singleton] at *
      exact different (otherIsFirst.trans isFirst.symm))
    (by simp at enough; omega : front.length < mon.count + 1)
  unfold step monitoringCheck
  dsimp only
  rw [failed]
  rfl

end Invariant

/-- Under the condition a step that can happen keeps the invariant. -/
theorem good_step {mon : State} {nodes : List Nat} {event : Event}
    (good : Good mon nodes) (meets : Meets mon event) :
    step mon event = .error .disabled ∨
      ∃ after nodes, step mon event = .ok after ∧ Good after nodes := by
  cases event with
  | connect => exact Or.inr ⟨_, nodes, rfl, good_connect good⟩
  | start conn =>
      by_cases idle : mon.live conn = true ∧ mon.isWriting conn = false
      · obtain ⟨after, added, kept⟩ := good_add good idle.1 idle.2
        exact Or.inr ⟨after, _, added, kept⟩
      · exact Or.inl (if_neg idle)
  | disconnect conn =>
      by_cases live : mon.live conn = true
      · obtain ⟨after, fewer, dropped, kept⟩ := good_drop good live
        refine Or.inr ⟨after, fewer, ?_, kept⟩
        unfold step
        dsimp only
        rw [if_pos live]
        exact dropped
      · exact Or.inl (if_neg live)
  | cleanup conn =>
      by_cases idle : mon.live conn = true ∧ mon.isWriting conn = false
      · obtain ⟨next, prev⟩ := good.idle conn idle.1 idle.2
        refine Or.inr ⟨mon, nodes, ?_, good⟩
        unfold step
        dsimp only
        rw [if_pos idle]
        exact monitoringDestroy_idle idle.2 good.pendingHead good.pendingTail
          next prev
      · exact Or.inl (if_neg idle)
  | pass elapsed => exact Or.inr ⟨_, nodes, rfl, good_pass good elapsed⟩
  | tick outputBuffer =>
      obtain ⟨after, rest, checked, kept, -⟩ := good_tick good meets
      exact Or.inr ⟨after, rest, checked, kept⟩

theorem good_of_reachable {mon : State}
    (reachable : machine.Reachable Meets mon) : ∃ nodes, Good mon nodes := by
  induction reachable with
  | start isInitial =>
      obtain ⟨now, rfl⟩ := isInitial
      exact ⟨[], good_start now⟩
  | next _ meets stepped ih =>
      obtain ⟨nodes, good⟩ := ih
      rcases good_step good meets with disabled | ⟨after, fewer, run, kept⟩
      · cases disabled.symm.trans stepped
      · obtain rfl := Except.ok.inj (run.symm.trans stepped)
        exact ⟨fewer, kept⟩

/-- While ticks drop a connection only when no other one streams, the list is
well linked, every tick leaves it settled, and no assertion fails; a tick
that drops one of several connections fails. -/
theorem wellLinked_of_reachable (mon : State)
    (reachable : machine.Reachable Meets mon) :
    WellLinked mon ∧
      (∀ outputBuffer after, step mon (.tick outputBuffer) = .ok after →
        Settled after) ∧
      ∀ event, (∀ fault, step mon event = .error fault → fault = .disabled) ↔
        Meets mon event := by
  obtain ⟨nodes, good⟩ := good_of_reachable reachable
  refine ⟨⟨nodes, good.represents, good.streams⟩, ?_, ?_⟩
  · intro outputBuffer after checked
    by_cases drains : Drains mon outputBuffer
    · obtain ⟨settled, rest, run, -, isSettled⟩ := good_tick good drains
      rw [run] at checked
      obtain rfl := Except.ok.inj checked
      exact isSettled
    · rw [tick_undrained good drains] at checked
      cases checked
  · intro event
    constructor
    · intro fails
      cases event with
      | tick outputBuffer =>
          by_contra drops
          exact Fault.noConfusion (fails _ (tick_undrained good drops))
      | _ => exact trivial
    · intro meets fault failed
      rcases good_step good meets with disabled | ⟨after, fewer, run, -⟩
      · rw [disabled] at failed
        exact (Except.error.inj failed).symm
      · rw [run] at failed
        cases failed

/-- Three connections stream: two are sent their numbers and moved to the end
twice, the third starts in between. -/
def threeStreams : List Event :=
  [.connect, .connect, .connect, .start 0, .start 1, .tick fun _ => none,
    .pass 5000000, .start 2]

theorem meets_untimed {event : Event} (member : event ∈ threeStreams)
    (mon : State) : Meets mon event := by
  simp only [threeStreams, List.mem_cons, List.not_mem_nil, or_false] at member
  rcases member with rfl | rfl | rfl | rfl | rfl | rfl | rfl | rfl <;>
    first | trivial | exact fun _ _ _ undrained => absurd rfl undrained

/-- A tick that sends three numbers, and one that drops the only connection
left. -/
theorem wellLinked_of_reachable_three :
    ∃ sent dropped, WellLinked sent ∧ Settled sent ∧
      (∀ conn < 3, Streaming sent conn) ∧
      WellLinked dropped ∧ ∀ conn, ¬Streaming dropped conn := by
  obtain ⟨waiting, sent, alone, dropped, runs, ticks, leave, drops, streams,
      three, only, still, gone⟩ :
      ∃ waiting sent alone dropped,
        machine.run (start 0) threeStreams = .ok waiting ∧
        machine.step waiting (.tick fun _ => none) = .ok sent ∧
        machine.run sent [.disconnect 1, .disconnect 0, .pass 5000000] =
          .ok alone ∧
        machine.step alone (.tick fun _ => some 7) = .ok dropped ∧
        (∀ conn < 3, Streaming sent conn) ∧ alone.count = 3 ∧
        (∀ conn < 3, Streaming alone conn → conn = 2) ∧
        dropped.count = 3 ∧ ∀ conn < 3, ¬Streaming dropped conn :=
    ⟨_, _, _, _, rfl, rfl, rfl, rfl, by decide, rfl, by decide, rfl, by decide⟩
  have reachable : machine.Reachable Meets waiting :=
    .run (.start ⟨0, rfl⟩) (fun _ member mon => meets_untimed member mon) runs
  have drained : Meets waiting (.tick fun _ => none) :=
    fun _ _ _ undrained => absurd rfl undrained
  have reachableSent : machine.Reachable Meets sent :=
    .next reachable drained ticks
  have reachableAlone : machine.Reachable Meets alone := by
    refine reachableSent.run (fun event member mon => ?_) leave
    simp only [List.mem_cons, List.not_mem_nil, or_false] at member
    rcases member with rfl | rfl | rfl <;> trivial
  have lone : Meets alone (.tick fun _ => some 7) := by
    obtain ⟨_, good⟩ := good_of_reachable reachableAlone
    have isLast : ∀ conn, Streaming alone conn → conn = 2 :=
      fun conn streams => only conn
        (three ▸ good.created conn streams.1) streams
    intro conn streams _ _ other otherStreams
    exact (isLast other otherStreams).trans (isLast conn streams).symm
  have reachableDropped : machine.Reachable Meets dropped :=
    .next reachableAlone lone drops
  obtain ⟨_, good⟩ := good_of_reachable reachableDropped
  refine ⟨sent, dropped, (wellLinked_of_reachable sent reachableSent).1,
    (wellLinked_of_reachable waiting reachable).2.1 _ _ ticks, streams,
    (wellLinked_of_reachable dropped reachableDropped).1, ?_⟩
  intro conn streams
  exact gone conn (still ▸ good.created conn streams.1) streams

/-- Two connections stream, and the timer has sent each a number. -/
def twoStreams : List Event :=
  [.connect, .connect, .start 0, .start 1, .tick fun _ => none, .pass 5000000]

/-- When neither has taken it the next tick fails. -/
theorem wellLinked_lost :
    ¬∀ mon, machine.Reachable Machine.anyStep mon →
      ∀ event, step mon event ≠ .error .assertion := by
  intro holds
  obtain ⟨mon, runs, fails⟩ : ∃ mon,
      machine.run (start 0) twoStreams = .ok mon ∧
        step mon (.tick fun _ => some 0) = .error .assertion :=
    ⟨_, rfl, rfl⟩
  exact holds mon (Machine.Reachable.run (.start ⟨0, rfl⟩)
    (fun _ _ _ => trivial) runs) _ fails

end Monitoring

end SimpleCache
