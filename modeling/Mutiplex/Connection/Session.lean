/-
# Sessions

What user code and the peer see of a connection is a session: it may begin with
`established_callback_`, goes on with reads, errors and bytes that are sent, and
may end with `closed_callback_`, behind which there is nothing.  `Session` is the
automaton of that protocol.  It knows no tasks, no buffers and no interleavings;
a connection keeps to it in every run in which no job that notifies runs on a
closed connection.
-/

import Mutiplex.Connection.Closing
import Mutiplex.Connection.Delivery

namespace Mutiplex

open CMemory Transition

variable {τ : Type} [DecidableEq τ]

/-- What is seen of a connection. -/
inductive Signal
  | told (callback : UserCallback)
  | sent
  deriving DecidableEq, Repr

/-- How far a session has come. -/
inductive Session
  | start
  | running
  | ended
  deriving DecidableEq, Repr

namespace Session

/-- The session after a signal, if the signal may come. -/
def next : Session → Signal → Option Session
  | .start, .told .established => some .running
  | .running, .told .established => none
  | .ended, _ => none
  | _, .told .closed => some .ended
  | _, _ => some .running

/-- The session after some signals. -/
def after (signals : List Signal) : Option Session := signals.foldlM next start

theorem after_append {signals more : List Signal} {session : Session}
    (h : after signals = some session) : after (signals ++ more) = more.foldlM next session := by
  rw [after, List.foldlM_append, ← after, h]
  rfl

/-- A session that has not ended can go on with anything but its beginning. -/
theorem next_of_ne_ended {session : Session} (h : session ≠ .ended) {signal : Signal}
    (hsignal : signal ≠ .told .established) :
    session.next signal = some (if signal = .told .closed then .ended else .running) := by
  cases session with
  | ended => exact absurd rfl h
  | _ =>
      cases signal with
      | sent => rfl
      | told callback =>
          cases callback with
          | established => exact absurd rfl hsignal
          | _ => rfl

end Session

/-- What is seen of a record. -/
def Event.signal : Event τ → Option Signal
  | .called _ callback => some (.told callback)
  | .sent _ _ => some .sent
  | _ => none

/-- The signals of a trail, oldest first. -/
def signalsOf (trail : List (Event τ)) : List Signal := trail.reverse.filterMap Event.signal

omit [DecidableEq τ] in
theorem signalsOf_append (new trail : List (Event τ)) :
    signalsOf (new ++ trail) = signalsOf trail ++ signalsOf new := by
  rw [signalsOf, List.reverse_append, List.filterMap_append]
  rfl

theorem signalsOf_records (loop : EventLoop τ Task) (entry : Option (Posted τ Task)) (c : ConnId)
    (job : Job) (found : ConnState) (effect : Effect) :
    signalsOf (World.records loop entry c job found effect) =
      (effect.sent.map fun _ => Signal.sent).toList ++ (effect.called.map Signal.told).toList := by
  cases hcalled : effect.called <;> cases hpost : effect.post <;> cases hsent : effect.sent <;>
    cases entry <;>
      simp [signalsOf, World.records, Event.signal, hcalled, hpost, hsent, List.filterMap_cons]

namespace Connection

variable {conn : Connection} {c : ConnId} {table : Epoll ConnId} {registered : Bool} {job : Job}
  {effect : Effect}

/-- `established_callback_` is called by `on_new_connection` only. -/
theorem Ran.called_ne_established (h : Ran conn c table registered job effect) :
    effect.called ≠ some .established := by
  intro hcalled
  cases h with
  | readFails | writeFails =>
      have hcallback : conn.userCallback .error = some .established := hcalled
      cases userCallback_eq_some hcallback
  | reads =>
      have hcallback : conn.userCallback .read = some .established := hcalled
      cases userCallback_eq_some hcallback
  | closes =>
      have hcallback : conn.userCallback .closed = some .established := hcalled
      cases userCallback_eq_some hcallback
  | forceCloses =>
      simp only [ite_eq_iff, reduceCtorEq, and_false, or_false] at hcalled
      cases userCallback_eq_some hcalled.2
  | _ => cases hcalled

/-- A closed connection sends nothing. -/
theorem Ran.sent_eq_none (h : Ran conn c table registered job effect) (hsettled : conn.Settled)
    (hclosed : conn.state = .closed) : effect.sent = none := by
  cases h with
  | writeFails hb hne | writesNone hb hne | writesLast hb hne | writesAll hb hne
  | writesPart hb hne => exact absurd (hsettled hclosed) (backlog_ne_zero hb hne)
  | _ => rfl

end Connection

namespace World

variable {w : World τ} {c : ConnId}

/-- A connection keeps to the protocol, and is closed when its session has
ended. -/
def InSession (value : Option Connection) (trail : List (Event τ)) : Prop :=
  ∃ session, Session.after (signalsOf trail) = some session ∧
    (session = .ended → ∀ conn, value = some conn → conn.state = .closed)

theorem InSession.ran {conn : Connection} {table : Epoll ConnId} {registered : Bool} {job : Job}
    {effect : Effect} {loop : EventLoop τ Task} {entry : Option (Posted τ Task)}
    {trail : List (Event τ)} (h : InSession (some conn) trail) (hsettled : conn.Settled)
    (hsilent : conn.state = .closed → job.notifies registered = false)
    (hran : conn.Ran c table registered job effect) :
    InSession (some effect.conn) (records loop entry c job conn.state effect ++ trail) := by
  obtain ⟨session, hafter, hended⟩ := h
  rw [InSession, signalsOf_append, signalsOf_records, Session.after_append hafter]
  by_cases hsession : session = .ended
  · have hclosed := hended hsession conn rfl
    rw [hran.sent_eq_none hsettled hclosed, hran.called_eq_none hsettled hclosed (hsilent hclosed)]
    refine ⟨session, rfl, ?_⟩
    rintro - _ ⟨⟩
    exact hran.closed hsettled hclosed
  · -- the bytes that are sent come before the callback
    obtain ⟨sending, hsent, hsending⟩ : ∃ sending,
        ((effect.sent.map fun _ => Signal.sent).toList).foldlM Session.next session =
          some sending ∧ sending ≠ .ended := by
      cases effect.sent with
      | none => exact ⟨session, rfl, hsession⟩
      | some bytes =>
          refine ⟨.running, ?_, by simp⟩
          simp [Session.next_of_ne_ended hsession]
    rw [List.foldlM_append, hsent, Option.bind_eq_bind, Option.bind_some]
    cases hcalled : effect.called with
    | none => exact ⟨sending, rfl, fun h => absurd h hsending⟩
    | some callback =>
        have hnot : Signal.told callback ≠ .told .established := by
          rintro ⟨⟩
          exact hran.called_ne_established hcalled
        refine ⟨_, by simp [Session.next_of_ne_ended hsending hnot]; rfl, fun h => ?_⟩
        rintro _ ⟨⟩
        refine hran.closed_of_called (hcalled.trans ?_)
        split at h
        · rename_i hclosed
          cases hclosed
          rfl
        · cases h

theorem reach_inSession (h : machine.Reach Silent w) (c : ConnId) :
    InSession (w.conns c) (w.trail c) := by
  refine reach_trail (fun _ => InSession) ?_ ?_ ?_ ?_ ?_ ?_ h c
  · exact fun _ => ⟨.start, rfl, by simp⟩
  · rintro c value trail ⟨session, hafter, -⟩
    exact ⟨session, hafter, fun _ conn hconn => by cases hconn⟩
  · rintro c value entry trail ⟨session, hafter, hended⟩ - -
    refine ⟨session, ?_, hended⟩
    simpa [signalsOf, Event.signal, List.filterMap_cons] using hafter
  · rintro c conn callbacks trail ⟨session, hafter, hended⟩
    refine ⟨session, hafter, fun hend new hnew => ?_⟩
    cases hnew
    exact hended hend conn rfl
  · intro c fd callbacks table
    cases hset : (Connection.registerEvent fd callbacks c table).1.userCallback .established with
    | none => exact ⟨.start, rfl, by simp⟩
    | some callback =>
        cases Connection.userCallback_eq_some hset
        exact ⟨.running, rfl, by simp⟩
  · intro source action c job conn effect loop entry trail hreach hok hjob _ hconn _ hran hold
    exact hold.ran (reach_settled hreach hconn) (hok.of_job hjob hconn) hran

/-- **A connection is a session.** In every run in which no job that notifies
runs on a closed connection, and whatever all threads do in it, the callbacks of
a connection and the bytes it sends come in the order of the protocol: nothing
comes before `established_callback_`, which is called at most once, and nothing
behind `closed_callback_`, which finds the connection closed. -/
theorem connection_is_a_session (w : World τ) (h : machine.Reach Silent w) (c : ConnId) :
    ∃ session, Session.after (signalsOf (w.trail c)) = some session ∧
      (session = .ended → ∀ conn, w.conns c = some conn → conn.state = .closed) :=
  reach_inSession h c

/-- A connection that is established, reads, sends two bytes and closes. -/
theorem connection_is_a_session_of_answer :
    ∃ (w : World ℕ) (conn : Connection), machine.Reach Silent w ∧
      signalsOf (w.trail 0) = [.told .established, .told .read, .sent, .told .closed] ∧
      w.conns 0 = some conn ∧ conn.state = .closed := by
  have hnew : machine.Reach Silent (new 0 : World ℕ) := .init ⟨0, rfl⟩
  obtain ⟨w, hreach, hsignals, conn, hconn, -⟩ := hnew.exists_of_leads
    [.user 0 (.allocateReceiveBuffer 4096), .loop (.enterRun 0), .loop .testRunning,
      .epollWait [.other], .user 0 (.onNewConnection 5 ⟨true, true, true, false⟩), .returns,
      .exec 0, .user 0 (.drop 0), .returns, .loop .swapPending, .loop .endBatch, .endIteration,
      .loop .testRunning, .epollWait [.source 5 1], .exec 3, .user 0 (.writeData 0 [7, 8]),
      .user 0 (.close 0), .returns, .exec 0, .exec 0, .loop .swapPending, .loop .endBatch, .call,
      .callReturns, .call, .callReturns, .exec 0, .endIteration, .loop .testRunning,
      .epollWait [.source 5 4], .exec 0, .exec 2, .loop .swapPending, .loop .endBatch, .call]
    (P := fun w => signalsOf (w.trail 0) =
      [.told .established, .told .read, .sent, .told .closed] ∧ ∃ conn ∈ w.conns 0, True)
    (by decide)
  obtain ⟨session, hafter, hended⟩ := connection_is_a_session w hreach 0
  rw [hsignals] at hafter
  cases hafter
  exact ⟨w, conn, hreach, hsignals, hconn, hended rfl conn hconn⟩

end World

end Mutiplex
