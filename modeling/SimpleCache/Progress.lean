import SimpleCache.Answers

/-!
# Responses end

Every write event that can send takes a response closer to its end, or ends
it: the body is sent to its end, or the connection is closed when `sendfile`
passes on nothing.  What other connections do meanwhile does not matter.
Listings are left out; how far they go depends on their table.
-/

namespace SimpleCache

variable {kh : KHash}

/-- The connection waits for a request, or it is closed. -/
def Connection.Idle (connection : Connection) : Prop :=
  connection.live = false ∨ connection.handler = .handleMethod

/-- The handlers of responses that have an announced length. -/
def Handler.responds : Handler → Bool
  | .respondExpires | .respondContentlength | .respondResponseend
  | .respondContentbody | .respondResetConnection | .respondWriteonly
  | .respondStats => true
  | _ => false

/-- How many write events a response takes at most. -/
def Connection.remaining (connection : Connection) : Nat :=
  match connection.handler with
  | .respondExpires => bodyLeft connection + 4
  | .respondContentlength => bodyLeft connection + 3
  | .respondResponseend => bodyLeft connection + 2
  | .respondContentbody => bodyLeft connection + 1
  | .respondStats => 2
  | _ => 1

/-- The response has ended, or it goes on and is closer to its end, if the
event could send. -/
def Advances (before after : Connection) (sends : Prop) : Prop :=
  after.Idle ∨ after.handler.responds = true ∧
    after.remaining ≤ before.remaining ∧
      (sends → after.remaining < before.remaining)

theorem Connection.remaining_pos (connection : Connection) :
    0 < connection.remaining := by
  unfold Connection.remaining
  split <;> omega

section Handlers

variable {entries : EntryHeap} {session after : Session kh}

theorem finishRequest_idle (run : finishRequest session = .ok after) :
    after.connection.Idle :=
  (finishRequest_ended run).1

theorem closeConnection_idle (run : closeConnection session = .ok after) :
    after.connection.Idle :=
  (closeConnection_ended run).1

theorem httpRespondContentbody_advances {outcome : SendOutcome}
    (stands : session.connection.handler = .respondContentbody)
    (run : httpRespondContentbody session outcome = .ok after) :
    Advances session.connection after.connection
      (∃ count, outcome = .sent count) := by
  have before : session.connection.remaining =
      bodyLeft session.connection + 1 := by
    unfold Connection.remaining
    rw [stands]
  unfold httpRespondContentbody at run
  dsimp only at run
  split at run
  · exact .inl (finishRequest_idle run)
  cases outcome with
  | again =>
      obtain rfl := pure_eq_ok.mp run
      refine .inr ⟨?_, Nat.le_refl _, nofun⟩
      rw [stands]
      rfl
  | failed => exact .inl (closeConnection_idle run)
  | sent count =>
      dsimp only at run
      have within := sentCount_le session count
      generalize sentCount session count = sent at run within
      split at run
      · exact .inl (closeConnection_idle run)
      next passes =>
      split at run
      · exact .inl (finishRequest_idle run)
      · obtain rfl := pure_eq_ok.mp run
        have some_ : sent ≠ 0 := fun none_ => passes (.inr (.inr none_))
        refine .inr ⟨?_, ?_⟩
        · dsimp only
          rw [stands]
          rfl
        have closer : Connection.remaining { session.connection with
            position := session.connection.position + sent
            reply := session.connection.reply ++
              [.body ((fileOf session.db session.connection.fd).slice
                session.connection.position.toNat sent)] } <
              session.connection.remaining := by
          rw [before]
          unfold Connection.remaining
          dsimp only
          rw [stands]
          unfold bodyLeft at within ⊢
          dsimp only
          omega
        exact ⟨closer.le, fun _ => closer⟩

theorem httpRespondResponseend_advances
    (stands : session.connection.handler = .respondResponseend) :
    Advances session.connection (httpRespondResponseend session).connection
      True := by
  have before : session.connection.remaining =
      bodyLeft session.connection + 2 := by
    unfold Connection.remaining
    rw [stands]
  have goes {handler : Handler} (responds : handler.responds = true)
      (remaining : (session.queue (.template .newline) handler
        ).connection.remaining ≤ bodyLeft session.connection + 1) :
      Advances session.connection
        (session.queue (.template .newline) handler).connection True := by
    refine .inr ⟨responds, ?_, fun _ => ?_⟩
    · omega
    · omega
  unfold httpRespondResponseend
  split
  · exact goes rfl (Nat.le_refl _)
  · exact goes rfl (Nat.le_add_left 1 _)
  · exact goes rfl (Nat.le_add_left 1 _)

theorem runRespond_advances {outcome : SendOutcome}
    (run : runRespond session outcome = .ok after)
    (responds : session.connection.handler.responds = true)
    (framed : Framed entries session.connection) :
    Advances session.connection after.connection
      (∃ count, outcome = .sent count) := by
  have goes {next : Connection} (respondsNext : next.handler.responds = true)
      (closer : next.remaining < session.connection.remaining) :
      Advances session.connection next (∃ count, outcome = .sent count) :=
    .inr ⟨respondsNext, closer.le, fun _ => closer⟩
  unfold Framed at framed
  unfold runRespond at run
  split at run
  · next entry stands held =>
      obtain rfl := pure_eq_ok.mp run
      refine goes rfl ?_
      unfold Connection.remaining
      rw [stands]
      exact Nat.lt_succ_self _
  · next entry stands held =>
      obtain rfl := pure_eq_ok.mp run
      refine goes rfl ?_
      unfold Connection.remaining
      rw [stands]
      exact Nat.lt_succ_self _
  · next stands =>
      obtain rfl := pure_eq_ok.mp run
      rcases httpRespondResponseend_advances stands with idle | ⟨next, _, less⟩
      · exact .inl idle
      · exact goes next (less trivial)
  · next stands => exact httpRespondContentbody_advances stands run
  · exact .inl (finishRequest_idle run)
  · exact .inl (finishRequest_idle run)
  · next stands =>
      obtain rfl := pure_eq_ok.mp run
      refine goes rfl ?_
      unfold Connection.remaining
      rw [stands]
      exact Nat.lt_succ_self _
  · next stands _ =>
      rw [stands] at responds
      cases responds
  · next stands _ =>
      rw [stands] at responds
      cases responds
  · next stands =>
      rw [stands] at responds
      cases responds
  · next stands _ =>
      rw [stands] at responds
      cases responds
  · exact .inl (closeConnection_idle run)
  · next noEnd noBody noReset noWrite noStats _ _ noExpires noLength _ _ _ =>
      -- a value is sent from the entry that the connection holds
      exfalso
      cases stands : session.connection.handler with
      | respondExpires =>
          rw [stands] at framed
          obtain ⟨entry, held, -⟩ := framed
          exact noExpires entry stands held
      | respondContentlength =>
          rw [stands] at framed
          obtain ⟨entry, seconds, held, -⟩ := framed
          exact noLength entry stands held
      | respondResponseend => exact noEnd stands
      | respondContentbody => exact noBody stands
      | respondResetConnection => exact noReset stands
      | respondWriteonly => exact noWrite stands
      | respondStats => exact noStats stands
      | _ =>
          rw [stands] at responds
          cases responds

theorem writes_of_responds {handler : Handler}
    (responds : handler.responds = true) : handler.writes = true := by
  cases handler <;> first | rfl | cases responds

theorem httpWriteHandle_advances {outcome : SendOutcome}
    (responds : session.connection.handler.responds = true)
    (framed : Framed entries session.connection)
    (run : httpWriteHandle session outcome = .ok after) :
    Advances session.connection after.connection
      (∃ count, outcome = .sent count) := by
  have accepted := framed.accept (writes_of_responds responds)
  unfold httpWriteHandle at run
  dsimp only at run
  have advances := runRespond_advances run responds accepted
  exact advances

/-- Every event of a connection leaves its response as it is, or takes it
closer to its end. -/
theorem handle_advances {env : Env} {session after : Session env.kh}
    {action : Action} (responds : session.connection.handler.responds = true)
    (framed : Framed entries session.connection)
    (run : handle env session action = .ok after) :
    Advances session.connection after.connection
      (∃ count, action = .writeReady (.sent count)) := by
  unfold handle at run
  split at run
  · exact .inl (closeConnection_idle run)
  -- the handlers that wait for input
  · next stands => rw [stands] at responds; cases responds
  · next stands => rw [stands] at responds; cases responds
  · next stands => rw [stands] at responds; cases responds
  · next stands => rw [stands] at responds; cases responds
  · next stands => rw [stands] at responds; cases responds
  · next stands => rw [stands] at responds; cases responds
  · next stands => rw [stands] at responds; cases responds
  · next stands => rw [stands] at responds; cases responds
  · next stands => rw [stands] at responds; cases responds
  · next stands => rw [stands] at responds; cases responds
  · next stands => rw [stands] at responds; cases responds
  · next outcome _ =>
      rw [if_pos (writes_of_responds responds)] at run
      rcases httpWriteHandle_advances responds framed run with
        idle | ⟨next, closer, less⟩
      · exact .inl idle
      · refine .inr ⟨next, closer, fun ⟨count, sends⟩ => less ⟨count, ?_⟩⟩
        exact Action.writeReady.inj sends
  · next noWrite _ _ _ _ _ _ _ _ _ _ _ =>
      obtain rfl := pure_eq_ok.mp run
      refine .inr ⟨responds, Nat.le_refl _, fun ⟨count, sends⟩ => ?_⟩
      exact absurd sends (noWrite _)

end Handlers

/-- An event in which the connection can send. -/
def Event.sends (connection : Nat) : Event → Bool
  | .request current (.writeReady (.sent _)) => current = connection
  | _ => false

theorem serverStep_advances {env : Env} {before after : Server env.kh}
    {event : Event} {connection : Nat} (answers : before.Answers)
    (live : (before.connections connection).live = true)
    (responds : (before.connections connection).handler.responds = true)
    (run : serverStep env before event = .ok after) :
    Advances (before.connections connection) (after.connections connection)
      (event.sends connection = true) := by
  rcases serverStep_connection run connection with
    ⟨same, quiet⟩ | new | ⟨action, session, rfl, -, handles, next⟩
  · rw [same]
    refine .inr ⟨responds, Nat.le_refl _, fun sends => ?_⟩
    unfold Event.sends at sends
    split at sends
    · next current count =>
        obtain rfl := of_decide_eq_true sends
        rw [quiet _ rfl] at live
        exact absurd live Bool.false_ne_true
    · exact absurd sends Bool.false_ne_true
  · rw [new]
    exact .inl (.inr rfl)
  · rw [next]
    rcases handle_advances responds (answers connection live) handles with
      idle | ⟨respondsNext, closer, less⟩
    · exact .inl idle
    · refine .inr ⟨respondsNext, closer, fun sends => less ?_⟩
      unfold Event.sends at sends
      split at sends
      · next current count isRequest =>
          exact ⟨count, (Event.request.inj isRequest).2⟩
      · exact absurd sends Bool.false_ne_true

/-- In every run, a response that is not a listing has ended when its
connection has had the write events that remained for it, however often they
were interrupted by others and however little `sendfile` sent in each. -/
theorem response_ends (env : Env) {directory : Disk → Prop}
    {server after : Server env.kh}
    (reachable : (serverMachine env directory).Reachable Machine.anyStep
      server) {events : List Event}
    (runs : (serverMachine env directory).run server events = .ok after)
    {connection : Nat} (live : (server.connections connection).live = true)
    (responds : (server.connections connection).handler.responds = true)
    (enough : (server.connections connection).remaining ≤
      events.countP (Event.sends connection)) :
    ∃ earlier later between, events = earlier ++ later ∧
      (serverMachine env directory).run server earlier = .ok between ∧
        (between.connections connection).Idle := by
  induction events generalizing server with
  | nil =>
      have positive := (server.connections connection).remaining_pos
      rw [List.countP_nil] at enough
      omega
  | cons event events ih =>
      obtain ⟨next, stepped, rest⟩ := Machine.run_cons.mp runs
      have answers := answers_of_reachable env reachable
      rcases serverStep_advances answers live responds stepped with
        idle | ⟨respondsNext, closer, less⟩
      · exact ⟨[event], events, next, rfl,
          Machine.run_cons.mpr ⟨next, stepped, rfl⟩, idle⟩
      by_cases idle : (next.connections connection).Idle
      · exact ⟨[event], events, next, rfl,
          Machine.run_cons.mpr ⟨next, stepped, rfl⟩, idle⟩
      have liveNext : (next.connections connection).live = true := by
        by_contra dead
        exact idle (.inl (eq_false_of_ne_true dead))
      have enoughNext : (next.connections connection).remaining ≤
          events.countP (Event.sends connection) := by
        rw [List.countP_cons] at enough
        split at enough
        · next sends =>
            have := less sends
            omega
        · omega
      obtain ⟨earlier, later, between, split, runsEarlier, isIdle⟩ :=
        ih (.next reachable trivial stepped) rest liveNext respondsNext
          enoughNext
      exact ⟨event :: earlier, later, between, by rw [split]; rfl,
        Machine.run_cons.mpr ⟨next, stepped, runsEarlier⟩, isIdle⟩

/-- A value of one byte, about to be sent. -/
theorem response_ends_byte :
    ∃ server : Server listHash,
      (server.connections 0).remaining = 5 ∧
      ∃ earlier later between,
        List.replicate 5 (Event.request 0 (.writeReady (.sent 100))) =
          earlier ++ later ∧
        (serverMachine listEnv DistinctIndex).run server earlier =
          .ok between ∧
        (between.connections 0).Idle := by
  have ends : endsWith (.accept :: (uploads 0 97 107 1 ++
      resolves 0 .get 97 107 ++ [.request 0 .endOfHeaders]))
      (fun server => decide (
        (server.connections 0).live = true ∧
        (server.connections 0).handler.responds = true ∧
        (server.connections 0).remaining = 5) &&
        ((serverMachine listEnv DistinctIndex).run server
          (List.replicate 5 (.request 0 (.writeReady (.sent 100))))).isOk) =
        true := by
    decide +kernel
  have empty : DistinctIndex emptyDisk := by
    intro text saved
    simp [emptyDisk] at saved
  obtain ⟨server, reachable, final⟩ :=
    reachable_of_endsWith empty (fun _ _ _ => trivial) ends
  obtain ⟨state, isOk⟩ := Bool.and_eq_true_iff.mp final
  obtain ⟨live, responds, remaining⟩ := of_decide_eq_true state
  cases runs : (serverMachine listEnv DistinctIndex).run server
      (List.replicate 5 (.request 0 (.writeReady (.sent 100)))) with
  | error fault =>
      rw [runs] at isOk
      cases isOk
  | ok after =>
      exact ⟨server, remaining, response_ends listEnv reachable runs live
        responds (by rw [remaining]; decide)⟩

end SimpleCache
