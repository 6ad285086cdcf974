import Mathlib.Data.List.Count
import Mathlib.Data.List.Nodup
import Mathlib.Logic.Function.Basic

/-!
# Connections in a batch of events

The event loop first looks through a batch for the eventfd of the accept
threads and the timer of the monitoring connections, and then passes the
other events on, each to the connection its pointer names.  Here the loop
records which connections it uses, frees and whose sockets it closes.
-/

namespace SimpleCache

namespace Batch

/-- What happens to a connection object, and to its socket. -/
inductive Action
  | dispatch (conn : Nat)
  | free (conn : Nat)
  | close (conn : Nat)
  deriving DecidableEq

/-- The bits of one socket event, with what the handlers return and whether
the connection is reading once they have run. -/
structure Flags where
  err : Bool
  hup : Bool
  in_ : Bool
  out : Bool
  rdhup : Bool
  readCloses : Bool
  writeCloses : Bool
  epollin : Bool
  deriving DecidableEq

/-- `do_close` at the end of an event. -/
def Flags.doClose (flags : Flags) : Bool :=
  let doClose := flags.err || flags.hup
  let doClose := doClose || (flags.in_ && flags.readCloses)
  let doClose := doClose || (flags.out && flags.writeCloses)
  doClose || (flags.rdhup && flags.epollin)

/-- An event as `epoll_wait` reports it: sockets to accept, with whether
`epoll_ctl` adds each, the monitoring timer, or a connection. -/
inductive Reported
  | accept (added : List Bool)
  | monitoring
  | socket (conn : Nat) (flags : Flags)
  deriving DecidableEq

/-- Connections are named in the order of their creation.  `streaming` is the
list from `mon_head` to `mon_tail`; `pending` connections do not exist, since
nothing calls `monitoring_pending_add`.  `undrained` tells whether
`output_buffer` is set, `scheduled` is in microseconds. -/
structure Loop where
  count : Nat
  streaming : List Nat
  undrained : Nat → Bool
  scheduled : Nat → Int
  now : Int
  log : List Action

def monitoringInterval : Int := 5000000

/-- `connection_remove`. -/
def connectionRemove (loop : Loop) (conn : Nat) : Loop :=
  { loop with log := loop.log ++ [.free conn, .close conn] }

/-- `close_socket`. -/
def closeSocket (loop : Loop) (conn : Nat) : Loop :=
  { loop with log := loop.log ++ [.close conn] }

/-- The loop of `monitoring_check` over the connections in the list when it
starts.  Those it moves to the end are scheduled for later, so it stops
there. -/
def checkStreaming : List Nat → Loop → Loop
  | [], loop => loop
  | conn :: rest, loop =>
      if loop.now < loop.scheduled conn then loop
      else
        let loop := { loop with streaming := loop.streaming.tail }
        if loop.undrained conn then
          checkStreaming rest (closeSocket (connectionRemove loop conn) conn)
        else
          checkStreaming rest
            { loop with
              streaming := loop.streaming ++ [conn]
              undrained := Function.update loop.undrained conn true
              scheduled := Function.update loop.scheduled conn
                (loop.now + monitoringInterval) }

def monitoringCheck (loop : Loop) : Loop := checkStreaming loop.streaming loop

/-- Create connections for the sockets in the queue.  A socket that cannot be
added to the epoll set is closed. -/
def acceptSockets : List Bool → Loop → Loop
  | [], loop => loop
  | added :: rest, loop =>
      let conn := loop.count
      let loop := { loop with count := loop.count + 1 }
      acceptSockets rest (if added then loop else closeSocket loop conn)

/-- The first loop over a batch. -/
def handleEvfd (loop : Loop) : Reported → Loop
  | .accept added => acceptSockets added loop
  | .monitoring => monitoringCheck loop
  | .socket _ _ => loop

/-- The second loop over a batch. -/
def handleSocket (loop : Loop) : Reported → Loop
  | .socket conn flags =>
      let loop := { loop with log := loop.log ++ [.dispatch conn] }
      if flags.doClose then connectionRemove loop conn else loop
  | _ => loop

def eventBatch (loop : Loop) (batch : List Reported) : Loop :=
  batch.foldl handleSocket (batch.foldl handleEvfd loop)

/-- Nothing is passed to a freed connection, and what is freed or closed is
freed and closed once. -/
structure Paired (log : List Action) : Prop where
  dispatched : log.Pairwise fun earlier later =>
    ∀ conn, earlier = .free conn → later ≠ .dispatch conn
  freed : ∀ conn, log.count (.free conn) = log.count (.close conn)
  once : ∀ conn, log.count (.close conn) ≤ 1

/-- The connections a batch has events for. -/
def sockets (batch : List Reported) : List Nat :=
  batch.filterMap fun reported =>
    match reported with
    | .socket conn _ => some conn
    | _ => none

/-- The state before a batch: every file descriptor has one event at most, and
the events and the list name connections that exist. -/
structure Ready (loop : Loop) (batch : List Reported) : Prop where
  fresh : loop.log = []
  once : (sockets batch).Nodup
  tick : batch.count .monitoring ≤ 1
  reported : ∀ conn ∈ sockets batch, conn < loop.count
  streams : ∀ conn ∈ loop.streaming, conn < loop.count
  listed : loop.streaming.Nodup

/-- Every monitoring connection whose next message is due has drained its
buffer. -/
def Drained (loop : Loop) : Prop :=
  ∀ conn ∈ loop.streaming.takeWhile fun conn =>
    loop.scheduled conn ≤ loop.now, loop.undrained conn = false

/-- A connection that a batch drops: its event is an error, a hang-up or one
whose handler fails, or the timer finds its last message still in the
buffer. -/
def Dropped (loop : Loop) (batch : List Reported) (conn : Nat) : Prop :=
  (∃ flags, .socket conn flags ∈ batch ∧ flags.doClose = true) ∨
    .monitoring ∈ batch ∧
      (conn ∈ loop.streaming.takeWhile fun conn =>
        loop.scheduled conn ≤ loop.now) ∧ loop.undrained conn = true

/-- What a batch records is in order, and every connection that it drops is
freed and closed exactly once. -/
structure Handled (loop : Loop) (batch : List Reported) (log : List Action) :
    Prop extends Paired log where
  dropped : ∀ conn, Dropped loop batch conn →
    log.count (.free conn) = 1 ∧ log.count (.close conn) = 1

/-- A batch in which the timer finds every buffer drained and every accepted
socket can be added. -/
def Quiet (loop : Loop) (batch : List Reported) : Prop :=
  (.monitoring ∈ batch → Drained loop) ∧
    ∀ added, .accept added ∈ batch → false ∉ added

/-- What the second loop records for one event. -/
def socketLog : Reported → List Action
  | .socket conn flags =>
      .dispatch conn ::
        if flags.doClose then [.free conn, .close conn] else []
  | _ => []

theorem handleSocket_log (batch : List Reported) (loop : Loop) :
    (batch.foldl handleSocket loop).log =
      loop.log ++ batch.flatMap socketLog := by
  induction batch generalizing loop with
  | nil => simp
  | cons reported batch ih =>
      rw [List.foldl_cons, ih, List.flatMap_cons, ← List.append_assoc]
      congr 1
      cases reported with
      | accept added => simp [handleSocket, socketLog]
      | monitoring => simp [handleSocket, socketLog]
      | socket conn flags =>
          cases close : flags.doClose <;>
            simp [handleSocket, socketLog, connectionRemove, close]

/-- The connection an action is about. -/
def Action.conn : Action → Nat
  | .dispatch conn => conn
  | .free conn => conn
  | .close conn => conn

theorem conn_of_socketLog {reported : Reported} {action : Action}
    (member : action ∈ socketLog reported) :
    ∃ flags, reported = .socket action.conn flags := by
  cases reported with
  | accept added => simp [socketLog] at member
  | monitoring => simp [socketLog] at member
  | socket conn flags =>
      refine ⟨flags, ?_⟩
      cases close : flags.doClose with
      | false =>
          simp only [socketLog, close, Bool.false_eq_true, if_false,
            List.mem_singleton] at member
          rw [member]
          rfl
      | true =>
          simp only [socketLog, close, if_true, List.mem_cons,
            List.not_mem_nil, or_false] at member
          rcases member with rfl | rfl | rfl <;> rfl

theorem mem_sockets_of_socketLog {batch : List Reported} {action : Action}
    (member : action ∈ batch.flatMap socketLog) :
    action.conn ∈ sockets batch := by
  obtain ⟨reported, reportedMem, logged⟩ := List.mem_flatMap.mp member
  obtain ⟨flags, rfl⟩ := conn_of_socketLog logged
  exact List.mem_filterMap.mpr ⟨_, reportedMem, rfl⟩

theorem count_socketLog (reported : Reported) (conn : Nat) :
    (socketLog reported).count (.free conn) =
        (socketLog reported).count (.close conn) ∧
      (socketLog reported).count (.close conn) ≤ 1 := by
  cases reported with
  | accept added => simp [socketLog]
  | monitoring => simp [socketLog]
  | socket other flags =>
      cases close : flags.doClose with
      | false => simp [socketLog, close]
      | true =>
          by_cases same : other = conn <;>
            simp [socketLog, close, same]

/-- Events of different connections do not meet. -/
theorem handled_sockets {batch : List Reported}
    (once : (sockets batch).Nodup) : Paired (batch.flatMap socketLog) := by
  induction batch with
  | nil =>
      exact ⟨List.Pairwise.nil, fun _ => rfl, fun _ => Nat.zero_le 1⟩
  | cons reported batch ih =>
      have apart : ∀ action ∈ socketLog reported,
          action.conn ∉ sockets batch := by
        intro action member
        obtain ⟨flags, rfl⟩ := conn_of_socketLog member
        have nodup : (action.conn :: sockets batch).Nodup := once
        exact (List.nodup_cons.mp nodup).1
      have rest : Paired (batch.flatMap socketLog) := by
        apply ih
        exact once.sublist ((List.sublist_cons_self _ _).filterMap _)
      rw [List.flatMap_cons]
      refine ⟨?_, ?_, ?_⟩
      · apply List.pairwise_append.mpr
        refine ⟨?_, rest.dispatched, ?_⟩
        · cases reported with
          | accept added => exact List.Pairwise.nil
          | monitoring => exact List.Pairwise.nil
          | socket conn flags =>
              cases close : flags.doClose <;> simp [socketLog, close]
        · intro earlier earlierMem later laterMem conn freed dispatched
          apply apart earlier earlierMem
          have listed := mem_sockets_of_socketLog laterMem
          rw [freed]
          rwa [dispatched] at listed
      · intro conn
        rw [List.count_append, List.count_append,
          (count_socketLog reported conn).1, rest.freed conn]
      · intro conn
        rw [List.count_append]
        by_cases here : .close conn ∈ socketLog reported
        · -- the connection has no other event
          have absent : .close conn ∉ batch.flatMap socketLog := fun member =>
            apart _ here (mem_sockets_of_socketLog member)
          rw [List.count_eq_zero_of_not_mem absent]
          exact (count_socketLog reported conn).2
        · rw [List.count_eq_zero_of_not_mem here]
          have := rest.once conn
          omega

/-- An event that closes its connection frees it as well. -/
theorem mem_socketLog_close {batch : List Reported} {conn : Nat} {flags : Flags}
    (reported : .socket conn flags ∈ batch) (closes : flags.doClose = true) :
    .close conn ∈ batch.flatMap socketLog := by
  refine List.mem_flatMap.mpr ⟨_, reported, ?_⟩
  simp [socketLog, closes]

theorem checkStreaming_extends (conns : List Nat) (loop : Loop) :
    loop.log <+: (checkStreaming conns loop).log := by
  induction conns generalizing loop with
  | nil => exact List.prefix_rfl
  | cons conn rest ih =>
      unfold checkStreaming
      split
      · exact List.prefix_rfl
      · dsimp only
        split
        · refine List.IsPrefix.trans ?_ (ih _)
          simp [closeSocket, connectionRemove]
        · refine List.IsPrefix.trans ?_ (ih _)
          exact List.prefix_rfl

theorem acceptSockets_extends (added : List Bool) (loop : Loop) :
    loop.log <+: (acceptSockets added loop).log := by
  induction added generalizing loop with
  | nil => exact List.prefix_rfl
  | cons first rest ih =>
      unfold acceptSockets
      refine List.IsPrefix.trans ?_ (ih _)
      cases first <;> simp [closeSocket]

theorem handleEvfd_extends (loop : Loop) (reported : Reported) :
    loop.log <+: (handleEvfd loop reported).log := by
  cases reported with
  | accept added => exact acceptSockets_extends added loop
  | monitoring => exact checkStreaming_extends _ loop
  | socket conn flags => exact List.prefix_rfl

theorem foldl_extends (batch : List Reported) (loop : Loop) :
    loop.log <+: (batch.foldl handleEvfd loop).log := by
  induction batch generalizing loop with
  | nil => exact List.prefix_rfl
  | cons reported batch ih =>
      exact (handleEvfd_extends loop reported).trans (ih _)

/-- Due connections of a list whose buffers are drained. -/
def DrainedAmong (conns : List Nat) (loop : Loop) : Prop :=
  ∀ conn ∈ conns.takeWhile fun conn => loop.scheduled conn ≤ loop.now,
    loop.undrained conn = false

/-- Moving one connection to the end does not change what is due among the
others. -/
theorem drainedAmong_update {conn : Nat} {rest : List Nat} {loop : Loop}
    {streaming : List Nat} {at_ : Int} (absent : conn ∉ rest) :
    DrainedAmong rest { loop with
        streaming
        undrained := Function.update loop.undrained conn true
        scheduled := Function.update loop.scheduled conn at_ } ↔
      DrainedAmong rest loop := by
  have others : ∀ other ∈ rest, other ≠ conn := by
    rintro other member rfl
    exact absent member
  unfold DrainedAmong
  dsimp only
  induction rest with
  | nil => simp
  | cons first rest ih =>
      have firstNe := others first List.mem_cons_self
      have absentRest : conn ∉ rest := fun member =>
        absent (List.mem_cons_of_mem _ member)
      have restNe : ∀ other ∈ rest, other ≠ conn := fun other member =>
        others other (List.mem_cons_of_mem _ member)
      have restIff := ih absentRest restNe
      by_cases due : loop.scheduled first ≤ loop.now
      · simp only [List.takeWhile_cons, Function.update_of_ne firstNe, due,
          decide_true, if_true, List.forall_mem_cons, restIff]
      · simp [firstNe, due]

theorem drainedAmong_cons {conn : Nat} {rest : List Nat} {loop : Loop}
    (due : loop.scheduled conn ≤ loop.now) :
    DrainedAmong (conn :: rest) loop ↔
      loop.undrained conn = false ∧ DrainedAmong rest loop := by
  simp [DrainedAmong, due]

/-- A timer that finds every buffer drained drops no connection. -/
theorem checkStreaming_quiet {conns : List Nat} {loop : Loop}
    (nodup : conns.Nodup) (drained : DrainedAmong conns loop) :
    (checkStreaming conns loop).log = loop.log := by
  induction conns generalizing loop with
  | nil => rfl
  | cons conn rest ih =>
      obtain ⟨absent, nodupRest⟩ := List.nodup_cons.mp nodup
      unfold checkStreaming
      split
      · rfl
      · next due =>
          have first := (drainedAmong_cons (Int.not_lt.mp due)).mp drained
          dsimp only
          rw [first.1, if_neg Bool.false_ne_true]
          exact ih nodupRest ((drainedAmong_update absent).mpr first.2)

/-- A timer that finds a buffer it filled before closes a socket twice. -/
theorem checkStreaming_drops {conns : List Nat} {loop : Loop}
    (nodup : conns.Nodup) (undrained : ¬DrainedAmong conns loop) :
    ∃ conn, 2 ≤ (checkStreaming conns loop).log.count (.close conn) := by
  induction conns generalizing loop with
  | nil => exact absurd (by simp [DrainedAmong]) undrained
  | cons conn rest ih =>
      obtain ⟨absent, nodupRest⟩ := List.nodup_cons.mp nodup
      unfold checkStreaming
      split
      · next later =>
          have notDue : ¬loop.scheduled conn ≤ loop.now := by omega
          exact absurd (by simp [DrainedAmong, notDue]) undrained
      · next due =>
          dsimp only
          split
          · refine ⟨conn, ?_⟩
            have kept := checkStreaming_extends rest (closeSocket
              (connectionRemove { loop with
                streaming := loop.streaming.tail } conn) conn)
            have twice : 2 ≤ (closeSocket (connectionRemove { loop with
                streaming := loop.streaming.tail } conn) conn).log.count
                  (.close conn) := by
              simp only [closeSocket, connectionRemove, List.count_append]
              simp
            exact Nat.le_trans twice (kept.sublist.count_le _)
          · next drainedFirst =>
              apply ih nodupRest
              rw [drainedAmong_update absent]
              intro drainedRest
              apply undrained
              rw [drainedAmong_cons (Int.not_lt.mp due)]
              exact ⟨by simpa using drainedFirst, drainedRest⟩

theorem acceptSockets_frame (added : List Bool) (loop : Loop) :
    (acceptSockets added loop).streaming = loop.streaming ∧
      (acceptSockets added loop).undrained = loop.undrained ∧
      (acceptSockets added loop).scheduled = loop.scheduled ∧
      (acceptSockets added loop).now = loop.now ∧
      loop.count ≤ (acceptSockets added loop).count := by
  induction added generalizing loop with
  | nil => exact ⟨rfl, rfl, rfl, rfl, Nat.le_refl _⟩
  | cons first rest ih =>
      obtain ⟨streaming, undrained, scheduled, now, count⟩ :=
        ih (if first = true then { loop with count := loop.count + 1 } else
          closeSocket { loop with count := loop.count + 1 } loop.count)
      unfold acceptSockets
      cases first with
      | false =>
          exact ⟨streaming, undrained, scheduled, now,
            Nat.le_trans (Nat.le_succ _) count⟩
      | true =>
          exact ⟨streaming, undrained, scheduled, now,
            Nat.le_trans (Nat.le_succ _) count⟩

theorem acceptSockets_quiet {added : List Bool} (all : false ∉ added)
    (loop : Loop) : (acceptSockets added loop).log = loop.log := by
  induction added generalizing loop with
  | nil => rfl
  | cons first rest ih =>
      cases first with
      | false => simp at all
      | true =>
          unfold acceptSockets
          dsimp only
          rw [if_pos rfl]
          exact ih (fun member => all (List.mem_cons_of_mem _ member)) _

/-- A socket that cannot be added is closed under a new connection. -/
theorem acceptSockets_closes {added : List Bool} (failed : false ∈ added)
    (loop : Loop) :
    ∃ conn, loop.count ≤ conn ∧
      .close conn ∈ (acceptSockets added loop).log := by
  induction added generalizing loop with
  | nil => simp at failed
  | cons first rest ih =>
      unfold acceptSockets
      cases first with
      | false =>
          refine ⟨loop.count, Nat.le_refl _, ?_⟩
          apply (acceptSockets_extends rest _).subset
          simp [closeSocket]
      | true =>
          have failedRest : false ∈ rest := by simpa using failed
          obtain ⟨conn, above, closed⟩ :=
            ih failedRest { loop with count := loop.count + 1 }
          exact ⟨conn, Nat.le_trans (Nat.le_succ _) above, closed⟩

/-- Only connections that exist before the batch are freed in its first
loop. -/
def FreesBelow (bound : Nat) (loop : Loop) : Prop :=
  (∀ conn, .free conn ∈ loop.log → conn < bound) ∧
    ∀ conn ∈ loop.streaming, conn < bound

theorem checkStreaming_frees {bound : Nat} {conns : List Nat} {loop : Loop}
    (below : ∀ conn ∈ conns, conn < bound) (frees : FreesBelow bound loop) :
    FreesBelow bound (checkStreaming conns loop) := by
  induction conns generalizing loop with
  | nil => exact frees
  | cons first rest ih =>
      have firstBelow := below first List.mem_cons_self
      have restBelow : ∀ conn ∈ rest, conn < bound := fun conn member =>
        below conn (List.mem_cons_of_mem _ member)
      unfold checkStreaming
      split
      · exact frees
      · dsimp only
        have tailBelow : ∀ conn ∈ loop.streaming.tail, conn < bound :=
          fun conn member => frees.2 conn (List.mem_of_mem_tail member)
        split
        · apply ih restBelow
          refine ⟨?_, tailBelow⟩
          intro conn freed
          simp only [closeSocket, connectionRemove, List.mem_append,
            List.mem_cons, reduceCtorEq, Action.free.injEq, List.not_mem_nil,
            or_false] at freed
          rcases freed with before | rfl
          · exact frees.1 conn before
          · exact firstBelow
        · apply ih restBelow
          refine ⟨frees.1, ?_⟩
          intro conn member
          rcases List.mem_append.mp member with old | new
          · exact tailBelow conn old
          · obtain rfl := List.mem_singleton.mp new
            exact firstBelow

theorem acceptSockets_frees {bound : Nat} {added : List Bool} {loop : Loop}
    (frees : FreesBelow bound loop) :
    FreesBelow bound (acceptSockets added loop) := by
  induction added generalizing loop with
  | nil => exact frees
  | cons first rest ih =>
      unfold acceptSockets
      apply ih
      cases first with
      | false =>
          refine ⟨?_, frees.2⟩
          intro conn freed
          exact frees.1 conn (by simpa [closeSocket] using freed)
      | true => exact frees

theorem foldl_frees {bound : Nat} {batch : List Reported} {loop : Loop}
    (frees : FreesBelow bound loop) :
    FreesBelow bound (batch.foldl handleEvfd loop) := by
  induction batch generalizing loop with
  | nil => exact frees
  | cons reported batch ih =>
      apply ih
      cases reported with
      | accept added => exact acceptSockets_frees frees
      | monitoring => exact checkStreaming_frees frees.2 frees
      | socket conn flags => exact frees

theorem drained_accept (added : List Bool) (loop : Loop) :
    Drained (acceptSockets added loop) ↔ Drained loop := by
  obtain ⟨streaming, undrained, scheduled, now, -⟩ :=
    acceptSockets_frame added loop
  unfold Drained
  rw [streaming, undrained, scheduled, now]

theorem foldl_accepts {batch : List Reported}
    (noTick : .monitoring ∉ batch)
    (accepts : ∀ added, .accept added ∈ batch → false ∉ added)
    (loop : Loop) : (batch.foldl handleEvfd loop).log = loop.log := by
  induction batch generalizing loop with
  | nil => rfl
  | cons reported batch ih =>
      have noTickRest : .monitoring ∉ batch := fun member =>
        noTick (List.mem_cons_of_mem _ member)
      rw [List.foldl_cons, ih noTickRest fun added member =>
        accepts added (List.mem_cons_of_mem _ member)]
      cases reported with
      | accept added =>
          exact acceptSockets_quiet (accepts added List.mem_cons_self) loop
      | monitoring => exact absurd List.mem_cons_self noTick
      | socket conn flags => rfl

/-- A quiet batch frees and closes nothing in its first loop. -/
theorem foldl_quiet {batch : List Reported} {loop : Loop}
    (tick : batch.count .monitoring ≤ 1) (listed : loop.streaming.Nodup)
    (quiet : Quiet loop batch) :
    (batch.foldl handleEvfd loop).log = loop.log := by
  induction batch generalizing loop with
  | nil => rfl
  | cons reported batch ih =>
      rw [List.foldl_cons]
      have accepts : ∀ added, .accept added ∈ batch → false ∉ added :=
        fun added member => quiet.2 added (List.mem_cons_of_mem _ member)
      cases reported with
      | accept added =>
          have all := quiet.2 added List.mem_cons_self
          rw [ih (by simpa using tick)]
          · exact acceptSockets_quiet all loop
          · dsimp only [handleEvfd]
            rw [(acceptSockets_frame added loop).1]
            exact listed
          · refine ⟨fun member => ?_, accepts⟩
            exact (drained_accept added loop).mpr
              (quiet.1 (List.mem_cons_of_mem _ member))
      | monitoring =>
          have drained := quiet.1 List.mem_cons_self
          have noMore : .monitoring ∉ batch := by
            intro member
            have := List.count_pos_iff.mpr member
            rw [List.count_cons_self] at tick
            omega
          have same := checkStreaming_quiet listed drained
          exact (foldl_accepts noMore accepts _).trans same
      | socket conn flags =>
          apply ih (by simpa using tick) listed
          exact ⟨fun member => quiet.1 (List.mem_cons_of_mem _ member), accepts⟩

theorem foldl_drops {batch : List Reported} {loop : Loop}
    (listed : loop.streaming.Nodup) (ticks : .monitoring ∈ batch)
    (undrained : ¬Drained loop) :
    ∃ conn, 2 ≤ (batch.foldl handleEvfd loop).log.count (.close conn) := by
  induction batch generalizing loop with
  | nil => exact absurd ticks List.not_mem_nil
  | cons reported batch ih =>
      cases reported with
      | accept added =>
          apply ih
          · dsimp only [handleEvfd]
            rw [(acceptSockets_frame added loop).1]
            exact listed
          · simpa using ticks
          · exact fun drained =>
              undrained ((drained_accept added loop).mp drained)
      | monitoring =>
          obtain ⟨conn, twice⟩ := checkStreaming_drops listed undrained
          exact ⟨conn, Nat.le_trans twice
            ((foldl_extends batch _).sublist.count_le _)⟩
      | socket conn flags => exact ih listed (by simpa using ticks) undrained

theorem checkStreaming_count (conns : List Nat) (loop : Loop) :
    (checkStreaming conns loop).count = loop.count := by
  induction conns generalizing loop with
  | nil => rfl
  | cons conn rest ih =>
      unfold checkStreaming
      split
      · rfl
      · dsimp only
        split
        · rw [ih]
          rfl
        · rw [ih]

theorem foldl_closes {batch : List Reported} {added : List Bool}
    (accepts : .accept added ∈ batch) (failed : false ∈ added)
    (loop : Loop) :
    ∃ conn, loop.count ≤ conn ∧
      .close conn ∈ (batch.foldl handleEvfd loop).log := by
  induction batch generalizing loop with
  | nil => exact absurd accepts List.not_mem_nil
  | cons reported batch ih =>
      rcases List.mem_cons.mp accepts with rfl | later
      · obtain ⟨conn, above, closed⟩ := acceptSockets_closes failed loop
        exact ⟨conn, above, (foldl_extends batch _).subset closed⟩
      · obtain ⟨conn, above, closed⟩ := ih later (handleEvfd loop reported)
        refine ⟨conn, Nat.le_trans ?_ above, closed⟩
        cases reported with
        | accept others => exact (acceptSockets_frame others loop).2.2.2.2
        | monitoring => exact Nat.le_of_eq (checkStreaming_count _ loop).symm
        | socket other flags => exact Nat.le_refl _

/-- Every event of a batch goes to a connection that is still there, and what
is dropped is freed and closed once, exactly when the timer finds no buffer
that was not drained and every accepted socket is added. -/
theorem handled_iff {loop : Loop} {batch : List Reported}
    (ready : Ready loop batch) :
    Handled loop batch (eventBatch loop batch).log ↔ Quiet loop batch := by
  have logEq : (eventBatch loop batch).log =
      (batch.foldl handleEvfd loop).log ++ batch.flatMap socketLog :=
    handleSocket_log batch _
  rw [logEq]
  constructor
  · intro handled
    refine ⟨fun ticks => ?_, fun added accepts failed => ?_⟩
    · by_contra undrained
      obtain ⟨conn, twice⟩ := foldl_drops ready.listed ticks undrained
      have once := handled.once conn
      rw [List.count_append] at once
      omega
    · obtain ⟨conn, above, closed⟩ := foldl_closes accepts failed loop
      -- the closed connection is new, and the batch frees old ones only
      have frees : FreesBelow loop.count (batch.foldl handleEvfd loop) := by
        apply foldl_frees
        exact ⟨by simp [ready.fresh], ready.streams⟩
      have notFreed : .free conn ∉
          (batch.foldl handleEvfd loop).log ++ batch.flatMap socketLog := by
        intro freed
        rcases List.mem_append.mp freed with first | second
        · have := frees.1 conn first
          omega
        · have := ready.reported _ (mem_sockets_of_socketLog second)
          dsimp only [Action.conn] at this
          omega
      have freed := handled.freed conn
      rw [List.count_eq_zero_of_not_mem notFreed] at freed
      have closes := List.count_pos_iff.mpr
        (List.mem_append_left (batch.flatMap socketLog) closed)
      omega
  · intro quiet
    rw [foldl_quiet ready.tick ready.listed quiet, ready.fresh,
      List.nil_append]
    have paired := handled_sockets ready.once
    refine { paired with dropped := fun conn dropped => ?_ }
    rcases dropped with ⟨flags, reported, closes⟩ | ⟨ticks, due, undrained⟩
    · have closed := List.count_pos_iff.mpr
        (mem_socketLog_close reported closes)
      have one := paired.once conn
      have freed := paired.freed conn
      omega
    · -- the timer of a quiet batch finds no such connection
      have drained := quiet.1 ticks conn due
      rw [drained] at undrained
      cases undrained

/-- One connection gets the monitoring stream, and its next message is due. -/
def oneStream (undrained : Bool) : Loop where
  count := 1
  streaming := [0]
  undrained := fun _ => undrained
  scheduled := fun _ => 0
  now := 5000000
  log := []

/-- Its peer has hung up. -/
def hangsUp : Flags where
  err := false
  hup := true
  in_ := false
  out := false
  rdhup := false
  readCloses := false
  writeCloses := false
  epollin := false

def tickAndHangUp : List Reported := [.monitoring, .socket 0 hangsUp]

theorem ready_oneStream (undrained : Bool) :
    Ready (oneStream undrained) tickAndHangUp where
  fresh := rfl
  once := by decide
  tick := by decide
  reported := by cases undrained <;> decide
  streams := by cases undrained <;> decide
  listed := by cases undrained <;> decide

/-- The stream gets its message, and the connection is dropped by its own
event. -/
theorem handled_iff_oneStream :
    Handled (oneStream false) tickAndHangUp
        (eventBatch (oneStream false) tickAndHangUp).log ∧
      Dropped (oneStream false) tickAndHangUp 0 := by
  refine ⟨(handled_iff (ready_oneStream false)).mpr ⟨fun _ => ?_, ?_⟩, ?_⟩
  · intro conn _
    rfl
  · simp [tickAndHangUp]
  · exact Or.inl ⟨hangsUp, by simp [tickAndHangUp], rfl⟩

/-- The timer drops the connection, and then its event is passed to it. -/
theorem not_handled_oneStream :
    Ready (oneStream true) tickAndHangUp ∧
      ¬Handled (oneStream true) tickAndHangUp
        (eventBatch (oneStream true) tickAndHangUp).log := by
  refine ⟨ready_oneStream true, fun handled => ?_⟩
  have logged : (eventBatch (oneStream true) tickAndHangUp).log =
      [.free 0, .close 0, .close 0, .dispatch 0, .free 0, .close 0] := by
    decide
  have once := handled.once 0
  rw [logged] at once
  exact absurd once (by decide)

end Batch

end SimpleCache
