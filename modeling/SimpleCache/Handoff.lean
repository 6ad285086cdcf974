import SimpleCache.Library.Chain
import SimpleCache.Library.Machine

/-!
# Handing accepted sockets to the event loop

Two threads accept connections, one for each kind of listener.  Each puts the
socket into a queue under `cq_lock` and then adds one to an eventfd.  The
event loop waits for the eventfd with the others it watches, and when it is
readable takes sockets from the queue until none is left, resetting the
eventfd before each.
-/

namespace SimpleCache

namespace Handoff

/-- The kinds of listener, each with an accept thread. -/
inductive Listener
  | cache
  | mon
  deriving DecidableEq

/-- Where an accept thread stands: in `epoll_wait` or `accept4`, holding a
socket in a new queue record, or between the queue and the eventfd. -/
inductive Accepting
  | waiting
  | queueing (node : Nat)
  | signalling
  deriving DecidableEq

/-- Where the event loop stands: in `epoll_wait`, at the test of `stop_soon`
in the drain loop, at the `read`, at the queue, at a socket it took, behind
the drain loop, or out of its own loop. -/
inductive Draining
  | waiting
  | testing
  | reading
  | dequeuing
  | handling (node : Nat)
  | serving
  | stopped
  deriving DecidableEq

/-- Queue records are named in the order of their allocation.  `enqueued` and
`dequeued` list the records in the order they went through the queue; a
record is freed when it is taken out. -/
structure State where
  queue : Chain Nat
  clientSock : Nat → Nat
  records : Nat
  eventfd : Nat
  stopSoon : Bool
  accepting : Listener → Accepting
  loop : Draining
  enqueued : List Nat
  dequeued : List Nat

/-- The state when the accept threads have started. -/
def start : State where
  queue := Chain.empty
  clientSock := fun _ => 0
  records := 0
  eventfd := 0
  stopSoon := false
  accepting := fun _ => .waiting
  loop := .waiting
  enqueued := []
  dequeued := []

inductive Event
  /-- `accept4` returns a socket and the record for it is filled in. -/
  | accept (listener : Listener) (sock : Nat)
  /-- The thread puts its record into the queue under the lock. -/
  | enqueue (listener : Listener)
  | signal (listener : Listener)
  /-- `epoll_wait` returns, with the eventfd among the events or without. -/
  | wake (readable : Bool)
  | test
  | read
  /-- The loop takes a record out under the lock. -/
  | dequeue
  | handle
  /-- The rest of the batch is done. -/
  | serve
  | stop
  deriving DecidableEq

/-- `disabled` is an event that cannot happen in the state; the other two are
a failed assertion and a write to a record that was freed. -/
inductive Fault
  | disabled
  | assertion
  | freed
  deriving DecidableEq

/-- The largest value an eventfd holds. -/
def eventfdMax : Nat := 18446744073709551614

def acceptSocket (state : State) (listener : Listener) (sock : Nat) : State :=
  { state with
    queue := state.queue.prepare state.records
    clientSock := Function.update state.clientSock state.records sock
    records := state.records + 1
    accepting :=
      Function.update state.accepting listener (.queueing state.records) }

/-- Insert the record at the end of the queue. -/
def enqueueSocket (state : State) (listener : Listener) (node : Nat) :
    Except Fault State :=
  if state.queue.tail = none ∧ state.queue.head ≠ none then throw .assertion
  else if ∃ last ∈ state.dequeued, state.queue.tail = some last then
    throw .freed
  else
    return { state with
      queue := state.queue.enqueue node
      enqueued := state.enqueued ++ [node]
      accepting := Function.update state.accepting listener .signalling }

/-- `write(eventfd, &u, sizeof(u))` with `u == 1`. -/
def signalLoop (state : State) (listener : Listener) : State :=
  { state with
    eventfd := state.eventfd + 1
    accepting := Function.update state.accepting listener .waiting }

/-- Take the first record out of the queue, or leave the drain loop. -/
def dequeueSocket (state : State) : State :=
  match state.queue.head with
  | none => { state with loop := .serving }
  | some node =>
      { state with
        queue := state.queue.dequeue
        dequeued := state.dequeued ++ [node]
        loop := .handling node }

def step (state : State) : Event → Except Fault State
  | .accept listener sock =>
      if state.accepting listener = .waiting then
        return acceptSocket state listener sock
      else throw .disabled
  | .enqueue listener =>
      match state.accepting listener with
      | .queueing node => enqueueSocket state listener node
      | _ => throw .disabled
  | .signal listener =>
      if state.accepting listener = .signalling ∧
          state.eventfd < eventfdMax then
        return signalLoop state listener
      else throw .disabled
  | .wake readable =>
      if state.loop = .waiting ∧ (readable → state.eventfd ≠ 0) then
        return { state with loop := if readable then .testing else .serving }
      else throw .disabled
  | .test =>
      if state.loop = .testing then
        return { state with
          loop := if state.stopSoon then .serving else .reading }
      else throw .disabled
  | .read =>
      if state.loop = .reading then
        return { state with eventfd := 0, loop := .dequeuing }
      else throw .disabled
  | .dequeue =>
      if state.loop = .dequeuing then return dequeueSocket state
      else throw .disabled
  | .handle =>
      match state.loop with
      | .handling _ => return { state with loop := .testing }
      | _ => throw .disabled
  | .serve =>
      if state.loop = .serving then
        return { state with
          loop := if state.stopSoon then .stopped else .waiting }
      else throw .disabled
  | .stop => return { state with stopSoon := true }

def handoff : Machine State Event Fault where
  initial state := state = start
  step := step

/-- The event loop will look at the queue before it waits again, or it has
been told to stop. -/
def WillDrain (state : State) : Prop :=
  match state.loop with
  | .testing | .reading | .dequeuing | .handling _ => True
  | .serving | .stopped => state.stopSoon = true
  | .waiting => False

/-- Somebody sees to a queue that is not empty. -/
def Awake (state : State) : Prop :=
  state.eventfd ≠ 0 ∨ (∃ listener, state.accepting listener = .signalling) ∨
    WillDrain state

/-- `waiting` lists the records in the queue. -/
structure Handed (state : State) (waiting : List Nat) : Prop where
  represents : state.queue.Represents waiting
  split : state.enqueued = state.dequeued ++ waiting
  nodup : state.enqueued.Nodup
  allocated : ∀ node ∈ state.enqueued, node < state.records
  prepared : ∀ listener node, state.accepting listener = .queueing node →
    node < state.records ∧ node ∉ state.enqueued ∧
      state.queue.next node = none
  apart : ∀ listener other node, state.accepting listener = .queueing node →
    state.accepting other = .queueing node → listener = other
  awake : waiting ≠ [] → Awake state

theorem Handed.member {state : State} {waiting : List Nat}
    (handed : Handed state waiting) {node : Nat} (member : node ∈ waiting) :
    node ∈ state.enqueued := by
  rw [handed.split]
  exact List.mem_append_right _ member

/-- The last record in the queue has not been freed. -/
theorem Handed.tail_kept {state : State} {waiting : List Nat}
    (handed : Handed state waiting) {last : Nat}
    (tail : state.queue.tail = some last) : last ∉ state.dequeued := by
  intro freed
  have member : last ∈ waiting := by
    rw [handed.represents.tail_eq] at tail
    exact List.mem_of_getLast? tail
  have nodup := handed.nodup
  rw [handed.split] at nodup
  exact (List.nodup_append.mp nodup).2.2 last freed last member rfl

theorem handed_start : Handed start [] where
  represents := Chain.represents_empty
  split := rfl
  nodup := List.nodup_nil
  allocated := by simp [start]
  prepared := by simp [start]
  apart := by simp [start]
  awake := by simp

theorem handed_accept {state : State} {waiting : List Nat}
    (handed : Handed state waiting) (listener : Listener) (sock : Nat)
    (idle : state.accepting listener = .waiting) :
    Handed (acceptSocket state listener sock) waiting := by
  have fresh : ∀ node ∈ state.enqueued, node ≠ state.records := by
    intro node member same
    exact absurd (handed.allocated node member) (by omega)
  refine ⟨?_, handed.split, handed.nodup, ?_, ?_, ?_, ?_⟩
  · apply handed.represents.prepare
    intro member
    exact fresh _ (handed.member member) rfl
  · intro node member
    exact Nat.lt_succ_of_lt (handed.allocated node member)
  · intro other node queueing
    by_cases same : other = listener
    · subst same
      obtain rfl : state.records = node := by
        simpa [acceptSocket] using queueing
      exact ⟨Nat.lt_succ_self _, fun member => fresh _ member rfl,
        Chain.prepare_next _ _⟩
    · have queued : state.accepting other = .queueing node := by
        simpa [acceptSocket, same] using queueing
      obtain ⟨below, unqueued, ends⟩ := handed.prepared other node queued
      refine ⟨Nat.lt_succ_of_lt below, unqueued, ?_⟩
      exact (Chain.prepare_next_of_ne (by omega)).trans ends
  · intro first second node queueing queueing'
    by_cases same : first = listener <;> by_cases same' : second = listener
    · rw [same, same']
    · have below := (handed.prepared second node
        (by simpa [acceptSocket, same'] using queueing')).1
      have : state.records = node := by
        simpa [acceptSocket, same] using queueing
      omega
    · have below := (handed.prepared first node
        (by simpa [acceptSocket, same] using queueing)).1
      have : state.records = node := by
        simpa [acceptSocket, same'] using queueing'
      omega
    · exact handed.apart first second node
        (by simpa [acceptSocket, same] using queueing)
        (by simpa [acceptSocket, same'] using queueing')
  · intro nonempty
    rcases handed.awake nonempty with counted | ⟨other, signals⟩ | drains
    · exact .inl counted
    · have different : other ≠ listener := by
        rintro rfl
        rw [idle] at signals
        cases signals
      exact .inr (.inl ⟨other, by simpa [acceptSocket, different]⟩)
    · exact .inr (.inr drains)

theorem handed_enqueue {state successor : State} {waiting : List Nat}
    (handed : Handed state waiting) {listener : Listener} {node : Nat}
    (queueing : state.accepting listener = .queueing node)
    (stepped : enqueueSocket state listener node = .ok successor) :
    Handed successor (waiting ++ [node]) := by
  obtain ⟨below, unqueued, ends⟩ := handed.prepared listener node queueing
  have fresh : node ∉ waiting := fun member => unqueued (handed.member member)
  have successorEq : successor = { state with
      queue := state.queue.enqueue node
      enqueued := state.enqueued ++ [node]
      accepting := Function.update state.accepting listener .signalling } := by
    unfold enqueueSocket at stepped
    split at stepped
    · cases stepped
    · split at stepped
      · cases stepped
      · exact (Except.ok.inj stepped).symm
  subst successorEq
  refine ⟨handed.represents.enqueue fresh ends, ?_, ?_, ?_, ?_, ?_, ?_⟩
  · simp [handed.split]
  · apply List.nodup_append.mpr
    refine ⟨handed.nodup, by simp, ?_⟩
    intro other member added addedMem same
    obtain rfl := List.mem_singleton.mp addedMem
    exact unqueued (same ▸ member)
  · intro other member
    rcases List.mem_append.mp member with old | added
    · exact handed.allocated other old
    · obtain rfl := List.mem_singleton.mp added
      exact below
  · intro other record queued
    have different : other ≠ listener := by
      rintro rfl
      simp at queued
    have before : state.accepting other = .queueing record := by
      simpa [different] using queued
    obtain ⟨recordBelow, recordUnqueued, recordEnds⟩ :=
      handed.prepared other record before
    have notSame : record ≠ node := by
      rintro rfl
      exact different (handed.apart other listener record before queueing)
    refine ⟨recordBelow, by simp [recordUnqueued, notSame], ?_⟩
    rw [Chain.enqueue_next_of_ne, recordEnds]
    -- the last record is in the queue and this one is not
    intro last
    rw [handed.represents.tail_eq] at last
    exact recordUnqueued (handed.member (List.mem_of_getLast? last))
  · intro first second record queued queued'
    have different : first ≠ listener := by
      rintro rfl
      simp at queued
    have different' : second ≠ listener := by
      rintro rfl
      simp at queued'
    exact handed.apart first second record (by simpa [different] using queued)
      (by simpa [different'] using queued')
  · intro _
    exact .inr (.inl ⟨listener, by simp⟩)

theorem handed_signal {state : State} {waiting : List Nat}
    (handed : Handed state waiting) (listener : Listener) :
    Handed (signalLoop state listener) waiting := by
  have queueing : ∀ {other node},
      (signalLoop state listener).accepting other = .queueing node →
        state.accepting other = .queueing node := by
    intro other node queued
    have different : other ≠ listener := by
      rintro rfl
      simp [signalLoop] at queued
    simpa [signalLoop, different] using queued
  refine ⟨handed.represents, handed.split, handed.nodup, handed.allocated,
    ?_, ?_, ?_⟩
  · intro other node queued
    exact handed.prepared other node (queueing queued)
  · intro first second node queued queued'
    exact handed.apart first second node (queueing queued) (queueing queued')
  · intro _
    exact .inl (Nat.succ_ne_zero _)

theorem handed_dequeue {state : State} {waiting : List Nat}
    (handed : Handed state waiting) :
    Handed (dequeueSocket state) waiting.tail := by
  unfold dequeueSocket
  cases first : state.queue.head with
  | none =>
      obtain rfl := handed.represents.nil_of_head first
      exact ⟨handed.represents, handed.split, handed.nodup, handed.allocated,
        handed.prepared, handed.apart, by simp⟩
  | some node =>
      obtain ⟨rest, rfl⟩ := handed.represents.cons_of_head first
      refine ⟨handed.represents.dequeue, ?_, handed.nodup, handed.allocated,
        ?_, handed.apart, ?_⟩
      · simp [handed.split]
      · intro listener record queueing
        obtain ⟨below, unqueued, ends⟩ :=
          handed.prepared listener record queueing
        refine ⟨below, unqueued, ?_⟩
        simpa [Chain.dequeue, first] using ends
      · intro _
        exact .inr (.inr trivial)

/-- Only the place of the event loop, the eventfd and the stop flag change,
and a queue that is not empty is still seen to. -/
theorem Handed.of_loop {state : State} {waiting : List Nat}
    (handed : Handed state waiting) (eventfd : Nat) (stopSoon : Bool)
    (loop : Draining)
    (awake : waiting ≠ [] → Awake { state with eventfd, stopSoon, loop }) :
    Handed { state with eventfd, stopSoon, loop } waiting :=
  ⟨handed.represents, handed.split, handed.nodup, handed.allocated,
    handed.prepared, handed.apart, awake⟩

theorem handed_step {state successor : State} {event : Event}
    {waiting : List Nat} (handed : Handed state waiting)
    (stepped : step state event = .ok successor) :
    ∃ waiting, Handed successor waiting := by
  cases event with
  | accept listener sock =>
      simp only [step] at stepped
      split at stepped
      · next idle =>
          obtain rfl := Except.ok.inj stepped
          exact ⟨waiting, handed_accept handed listener sock idle⟩
      · cases stepped
  | enqueue listener =>
      simp only [step] at stepped
      split at stepped
      · next node queueing =>
          exact ⟨waiting ++ [node], handed_enqueue handed queueing stepped⟩
      · cases stepped
  | signal listener =>
      simp only [step] at stepped
      split at stepped
      · obtain rfl := Except.ok.inj stepped
        exact ⟨waiting, handed_signal handed listener⟩
      · cases stepped
  | wake readable =>
      simp only [step] at stepped
      split at stepped
      · next woken =>
          obtain rfl := Except.ok.inj stepped
          refine ⟨waiting, handed.of_loop _ _ _ fun nonempty => ?_⟩
          rcases handed.awake nonempty with counted | signals | drains
          · exact .inl counted
          · exact .inr (.inl signals)
          · simp [WillDrain, woken.1] at drains
      · cases stepped
  | test =>
      simp only [step] at stepped
      split at stepped
      · obtain rfl := Except.ok.inj stepped
        refine ⟨waiting, handed.of_loop _ _ _ fun _ => .inr (.inr ?_)⟩
        cases stop : state.stopSoon <;> simp [WillDrain]
      · cases stepped
  | read =>
      simp only [step] at stepped
      split at stepped
      · obtain rfl := Except.ok.inj stepped
        exact ⟨waiting, handed.of_loop _ _ _ fun _ => .inr (.inr trivial)⟩
      · cases stepped
  | dequeue =>
      simp only [step] at stepped
      split at stepped
      · obtain rfl := Except.ok.inj stepped
        exact ⟨waiting.tail, handed_dequeue handed⟩
      · cases stepped
  | handle =>
      simp only [step] at stepped
      split at stepped
      · obtain rfl := Except.ok.inj stepped
        exact ⟨waiting, handed.of_loop _ _ _ fun _ => .inr (.inr trivial)⟩
      · cases stepped
  | serve =>
      simp only [step] at stepped
      split at stepped
      · next serving =>
          obtain rfl := Except.ok.inj stepped
          refine ⟨waiting, handed.of_loop _ _ _ fun nonempty => ?_⟩
          rcases handed.awake nonempty with counted | signals | drains
          · exact .inl counted
          · exact .inr (.inl signals)
          · -- a loop that left the queue before it was empty does not wait
            have stop : state.stopSoon = true := by
              simpa [WillDrain, serving] using drains
            exact .inr (.inr (by simp [WillDrain, stop]))
      · cases stepped
  | stop =>
      obtain rfl := Except.ok.inj stepped
      refine ⟨waiting, handed.of_loop _ _ _ fun nonempty => ?_⟩
      rcases handed.awake nonempty with counted | signals | drains
      · exact .inl counted
      · exact .inr (.inl signals)
      · right
        right
        cases stands : state.loop <;> simp [WillDrain, stands] at drains ⊢

theorem handed_of_reachable {state : State}
    (reachable : handoff.Reachable Machine.anyStep state) :
    ∃ waiting, Handed state waiting := by
  apply reachable.invariant
  · intro state isInitial
    obtain rfl : state = start := isInitial
    exact ⟨[], handed_start⟩
  · intro state event successor handed _ stepped
    obtain ⟨waiting, handed⟩ := handed
    exact handed_step handed stepped

/-- Neither the assertion of the accept thread fails nor does it write to a
record that the event loop has freed. -/
theorem step_ne_fault {state : State} {event : Event}
    (reachable : handoff.Reachable Machine.anyStep state) :
    step state event ≠ .error .assertion ∧ step state event ≠ .error .freed := by
  obtain ⟨waiting, handed⟩ := handed_of_reachable reachable
  cases event with
  | enqueue listener =>
      simp only [step]
      split
      · next node queueing =>
          have asserted : ¬ (state.queue.tail = none ∧
              state.queue.head ≠ none) := fun broken =>
            broken.2 (handed.represents.head_of_tail broken.1)
          have kept : ¬ ∃ last ∈ state.dequeued,
              state.queue.tail = some last := by
            rintro ⟨last, freed, tail⟩
            exact handed.tail_kept tail freed
          unfold enqueueSocket
          rw [if_neg asserted, if_neg kept]
          exact ⟨nofun, nofun⟩
      · exact ⟨nofun, nofun⟩
  | accept | signal | wake | test | read | dequeue | handle | serve | stop =>
      simp only [step]
      constructor <;> (try split) <;> nofun

/-- The sockets that the accept threads are given, in the order of the
calls. -/
def acceptedSocks (events : List Event) : List Nat :=
  events.filterMap fun
    | .accept _ sock => some sock
    | _ => none

/-- Each record holds the socket of its own accept call. -/
def Recorded (state : State) (socks : List Nat) : Prop :=
  state.records = socks.length ∧
    ∀ node < state.records, socks[node]? = some (state.clientSock node)

theorem Recorded.congr {state successor : State} {socks : List Nat}
    (recorded : Recorded state socks)
    (records : successor.records = state.records)
    (clientSock : successor.clientSock = state.clientSock) :
    Recorded successor socks := by
  unfold Recorded
  rw [records, clientSock]
  exact recorded

theorem Recorded.accept {state : State} {socks : List Nat}
    (recorded : Recorded state socks) (listener : Listener) (sock : Nat) :
    Recorded (acceptSocket state listener sock) (socks ++ [sock]) := by
  obtain ⟨count, each⟩ := recorded
  refine ⟨by simp [acceptSocket, count], fun node below => ?_⟩
  change node < state.records + 1 at below
  change _ = some (Function.update state.clientSock state.records sock node)
  by_cases new : node = state.records
  · subst new
    rw [Function.update_self, count, List.getElem?_concat_length]
  · rw [Function.update_of_ne new, List.getElem?_append_left (by omega)]
    exact each node (by omega)

theorem recorded_step {state successor : State} {event : Event}
    {socks : List Nat} (recorded : Recorded state socks)
    (stepped : step state event = .ok successor) :
    Recorded successor (socks ++ acceptedSocks [event]) := by
  cases event with
  | accept listener sock =>
      simp only [step] at stepped
      split at stepped
      · obtain rfl := Except.ok.inj stepped
        exact recorded.accept listener sock
      · cases stepped
  | enqueue listener =>
      simp only [step] at stepped
      split at stepped
      · unfold enqueueSocket at stepped
        split at stepped
        · cases stepped
        · split at stepped
          · cases stepped
          · obtain rfl := Except.ok.inj stepped
            rw [acceptedSocks, List.filterMap_cons_none rfl, List.filterMap_nil,
              List.append_nil]
            exact recorded.congr rfl rfl
      · cases stepped
  | dequeue =>
      simp only [step] at stepped
      split at stepped
      · obtain rfl := Except.ok.inj stepped
        rw [acceptedSocks, List.filterMap_cons_none rfl, List.filterMap_nil,
          List.append_nil]
        unfold dequeueSocket
        split <;> exact recorded.congr rfl rfl
      · cases stepped
  | _ =>
      simp only [step] at stepped
      rw [acceptedSocks, List.filterMap_cons_none rfl, List.filterMap_nil,
        List.append_nil]
      try split at stepped
      all_goals
        first
        | cases stepped; done
        | obtain rfl := Except.ok.inj stepped
          exact recorded.congr rfl rfl

theorem recorded_run {events : List Event} {state successor : State}
    {socks : List Nat} (recorded : Recorded state socks)
    (runs : handoff.run state events = .ok successor) :
    Recorded successor (socks ++ acceptedSocks events) := by
  induction events generalizing state socks with
  | nil =>
      obtain rfl := Except.ok.inj runs
      rwa [acceptedSocks, List.filterMap_nil, List.append_nil]
  | cons event events ih =>
      obtain ⟨next, stepped, rest⟩ := Machine.run_cons.mp runs
      have later := ih (recorded_step recorded stepped) rest
      rw [List.append_assoc] at later
      have joined : acceptedSocks [event] ++ acceptedSocks events =
          acceptedSocks (event :: events) :=
        (List.filterMap_append (l := [event])).symm
      rwa [joined] at later

/-- Sockets leave the queue once and in the order they came, and the event
loop does not sleep on a queue that is not empty. -/
theorem handoff_of_reachable {events : List Event} {state : State}
    (runs : handoff.run start events = .ok state) :
    state.enqueued.Nodup ∧ state.dequeued <+: state.enqueued ∧
      (∀ node ∈ state.enqueued,
        (acceptedSocks events)[node]? = some (state.clientSock node)) ∧
      ¬ (state.queue.head ≠ none ∧ state.loop = .waiting ∧
        state.eventfd = 0 ∧
          ∀ listener, state.accepting listener ≠ .signalling) := by
  have initially : handoff.Reachable Machine.anyStep start := .start rfl
  have reachable := initially.run (fun _ _ _ => trivial) runs
  obtain ⟨waiting, handed⟩ := handed_of_reachable reachable
  have recorded : Recorded start [] := ⟨rfl, by simp [start]⟩
  refine ⟨handed.nodup, ⟨waiting, handed.split.symm⟩, fun node member =>
    (recorded_run recorded runs).2 node (handed.allocated node member), ?_⟩
  rintro ⟨queued, sleeps, unsignalled, quiet⟩
  have nonempty : waiting ≠ [] := by
    rintro rfl
    exact queued handed.represents.head_eq
  rcases handed.awake nonempty with counted | ⟨listener, signals⟩ | drains
  · exact counted unsignalled
  · exact quiet listener signals
  · simp [WillDrain, sleeps] at drains

/-- Each accept thread takes a socket, the one of the monitoring port is put
into the queue first, and the event loop takes both. -/
def twoSockets : List Event :=
  [.accept .cache 9, .accept .mon 7, .enqueue .mon, .enqueue .cache,
    .signal .cache, .wake true, .test, .read, .dequeue, .handle, .signal .mon,
    .test, .read, .dequeue]

theorem handoff_of_reachable_twoSockets :
    ∃ state, handoff.run start twoSockets = .ok state ∧
      state.loop = .handling 0 ∧
      state.dequeued.map state.clientSock = [7, 9] ∧
      state.dequeued <+: state.enqueued ∧
      ∀ node ∈ state.enqueued,
        [9, 7][node]? = some (state.clientSock node) := by
  obtain ⟨-, handedOver, socks, -⟩ := handoff_of_reachable
    (show handoff.run start twoSockets = .ok _ from rfl)
  exact ⟨_, rfl, rfl, rfl, handedOver, socks⟩

end Handoff

end SimpleCache
