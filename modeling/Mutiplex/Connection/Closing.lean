/-
# The end of a connection

`force_close` clears the output buffer without asking whether there is one, and
the first `do_write` makes it: a forced close goes well exactly if the
connection has appended something before.

The user is told of the end by `closed_callback_`.  Neither task body asks
whether the connection is closed already, only that of `force_close` asks whether
it is still registered, and none of them takes the descriptor out of the epoll
table.  The notification is unique and final in the runs in which no job that
notifies runs on a closed connection.
-/

import Mutiplex.Connection.Life

namespace Mutiplex

open CMemory Transition

variable {τ : Type} [DecidableEq τ]

/-! ## The output buffer of a forced close -/

/-- A `do_write` that found the connection not closed. -/
def Event.appends : Event τ → Bool
  | .ran _ (.doWrite _) found _ => found != .closed
  | _ => false

omit [DecidableEq τ] in
theorem Event.appends_iff {event : Event τ} :
    event.appends = true ↔
      ∃ entry data found left, event = .ran entry (.doWrite data) found left ∧
        found ≠ .closed := by
  constructor
  · intro h
    unfold Event.appends at h
    split at h
    · exact ⟨_, _, _, _, rfl, by simpa using h⟩
    · cases h
  · rintro ⟨entry, data, found, left, rfl, hfound⟩
    simpa [Event.appends] using hfound

/-- Only a `do_write` on a connection that is not closed makes the buffer. -/
theorem Connection.Ran.bufferOut_ne_none {conn : Connection} {c : ConnId}
    {table : Epoll ConnId} {registered : Bool} {job : Job} {effect : Effect}
    (h : conn.Ran c table registered job effect) :
    effect.conn.bufferOut ≠ none ↔
      conn.bufferOut ≠ none ∨ ∃ data, job = .doWrite data ∧ conn.state ≠ .closed := by
  cases h with
  | writeFails hb | writesNone hb | writesLast hb | writesAll hb | writesPart hb
  | forceCloses hb => simp [idle, withSource, afterWrite, hb]
  | doWriteClosed hstate => simp [idle, hstate]
  | appends hstate => simp [withSource, hstate]
  | _ => simp [idle, errorCallback, withSource]

/-! ## Jobs that notify -/

/-- The jobs that call user callbacks of a closed connection: the task of
`close`, that of `force_close` while something is registered under the
descriptor, and a read that returns bytes or fails. -/
def Job.notifies (registered : Bool) : Job → Bool
  | .close => true
  | .forceClose => registered
  | .read n => n != 0
  | _ => false

namespace Connection

variable {conn : Connection} {c : ConnId} {table : Epoll ConnId} {registered : Bool} {job : Job}
  {effect : Effect}

theorem userCallback_eq_some {callback called : UserCallback}
    (h : conn.userCallback callback = some called) : called = callback := by
  unfold userCallback at h
  cases callback <;> simp only [ite_eq_iff, Option.some.injEq, reduceCtorEq, and_false,
    or_false] at h <;> exact h.2.symm

/-- All other jobs leave the user of a closed connection alone. -/
theorem Ran.called_eq_none (h : conn.Ran c table registered job effect) (hsettled : conn.Settled)
    (hclosed : conn.state = .closed) (hsilent : job.notifies registered = false) :
    effect.called = none := by
  cases h with
  | readFails hn =>
      simp only [Job.notifies, bne_eq_false_iff_eq] at hsilent
      omega
  | reads hn =>
      simp only [Job.notifies, bne_eq_false_iff_eq] at hsilent
      omega
  | writeFails hb hne => exact absurd (hsettled hclosed) (backlog_ne_zero hb hne)
  | closes => cases hsilent
  | forceCloses hb =>
      simp only [Job.notifies] at hsilent
      simp [hsilent]
  | _ => rfl

/-- `closed_callback_` is called for closed connections only. -/
theorem Ran.closed_of_called (h : conn.Ran c table registered job effect)
    (hcalled : effect.called = some .closed) : effect.conn.state = .closed := by
  cases h with
  | readFails =>
      have hcallback : conn.userCallback .error = some .closed := hcalled
      cases userCallback_eq_some hcallback
  | reads =>
      have hcallback : conn.userCallback .read = some .closed := hcalled
      cases userCallback_eq_some hcallback
  | writeFails =>
      have hcallback : conn.userCallback .error = some .closed := hcalled
      cases userCallback_eq_some hcallback
  | closes => rfl
  | forceCloses => rfl
  | _ => cases hcalled

end Connection

namespace World

variable {w w' : World τ} {action : Action τ} {c : ConnId}

theorem appends_mem_records {loop : EventLoop τ Task} {entry : Option (Posted τ Task)}
    {job : Job} {found : ConnState} {effect : Effect}
    (hentry : entry = none → job.isTask = false) :
    (∃ event ∈ records loop entry c job found effect, event.appends = true) ↔
      ∃ data, job = .doWrite data ∧ found ≠ .closed := by
  constructor
  · rintro ⟨event, hevent, happends⟩
    obtain ⟨entry', data, found', left, rfl, hfound⟩ := Event.appends_iff.mp happends
    obtain ⟨-, hjob, rfl, -⟩ := ran_mem_records.mp hevent
    exact ⟨data, hjob, hfound⟩
  · rintro ⟨data, rfl, hfound⟩
    cases entry with
    | none => cases hentry rfl
    | some entry =>
        exact ⟨_, ran_mem_records.mpr ⟨rfl, rfl, rfl, rfl⟩,
          by simpa [Event.appends] using hfound⟩

/-- The buffer exists exactly if something has been appended. -/
theorem reach_bufferOut {ok : World τ → Action τ → Prop} (h : machine.Reach ok w)
    {conn : Connection} (hconn : w.conns c = some conn) :
    conn.bufferOut ≠ none ↔ ∃ event ∈ w.trail c, event.appends = true := by
  have hbuffer := reach_trail (fun _ value trail => ∀ conn, value = some conn →
      (conn.bufferOut ≠ none ↔ ∃ event ∈ trail, event.appends = true))
    (fun c conn h => by cases h)
    (fun c value trail _ conn h => by cases h)
    (fun c value entry trail hold _ _ conn h => by simpa [Event.appends] using hold conn h)
    (fun c conn callbacks trail hold new h => by cases h; exact hold conn rfl)
    (fun c fd callbacks table conn h => by cases h; simp [Connection.registerEvent, Event.appends])
    (fun source action c job conn effect loop entry trail _ _ _ hbody _ _ hran hold new h => by
      cases h
      simp only [List.mem_append, or_and_right, exists_or]
      rw [hran.bufferOut_ne_none, appends_mem_records hbody.isTask_eq_false, hold conn rfl,
        or_comm]) h c
  exact hbuffer conn hconn

/-- **A forced close finds an output buffer if and only if the connection has
appended something before.** In every reachable state in which the task of a
`force_close` is called next, the connection exists, and `buffer_out_` is not
null exactly if some earlier `do_write` task found the connection not closed. -/
theorem forceClose_finds_buffer_iff (w : World τ) (h : machine.Reach Machine.anyStep w)
    (entry : Posted τ Task) (c : ConnId) (hnext : w.loop.nextEntry = some entry)
    (htask : entry.callback = .forceClose c) :
    ∃ conn, w.conns c = some conn ∧
      (conn.bufferOut ≠ none ↔ ∃ written data found left,
        Event.ran written (.doWrite data) found left ∈ w.history ∧
          written.callback.target = some c ∧ found ≠ .closed) := by
  have hmem := EventLoop.mem_entries_of_unexecuted (EventLoop.mem_unexecuted_of_nextEntry hnext)
  obtain ⟨conn, hconn⟩ := reach_alive h c
    (Or.inr (Or.inr (Or.inr ⟨entry, hmem, by rw [htask]; rfl⟩)))
  refine ⟨conn, hconn, ?_⟩
  rw [reach_bufferOut h hconn]
  constructor
  · rintro ⟨event, hevent, happends⟩
    obtain ⟨written, data, found, left, rfl, hfound⟩ := Event.appends_iff.mp happends
    exact ⟨written, data, found, left, (mem_trail.mp hevent).1, (mem_trail.mp hevent).2, hfound⟩
  · rintro ⟨written, data, found, left, hevent, htarget, hfound⟩
    exact ⟨_, mem_trail.mpr ⟨hevent, htarget⟩,
      Event.appends_iff.mpr ⟨written, data, found, left, rfl, hfound⟩⟩

/-- A server that answers and then forces the connection closed. -/
theorem forceClose_finds_buffer_iff_of_write :
    ∃ (w : World ℕ) (conn : Connection), machine.Reach Machine.anyStep w ∧
      w.loop.nextEntry = some ⟨0, 1, true, .forceClose 0⟩ ∧
      w.conns 0 = some conn ∧ conn.bufferOut ≠ none := by
  have hnew : machine.Reach Machine.anyStep (new 0 : World ℕ) := .init ⟨0, rfl⟩
  obtain ⟨w, hreach, hnext, hran⟩ := hnew.exists_of_leads
    [.loop (.enterRun 0), .loop .testRunning, .epollWait [.other],
      .user 0 (.onNewConnection 5 ⟨false, false, true, false⟩),
      .user 0 (.writeData 0 [1, 2]), .user 0 (.forceClose 0), .user 0 (.drop 0), .returns,
      .loop .swapPending, .loop .endBatch, .call, .callReturns]
    (P := fun w => w.loop.nextEntry = some ⟨0, 1, true, .forceClose 0⟩ ∧
      .ran ⟨0, 0, true, .writeData 0 [1, 2]⟩ (.doWrite [1, 2]) .receiving .receiving ∈ w.history)
    (by decide)
  obtain ⟨conn, hconn, hiff⟩ := forceClose_finds_buffer_iff w hreach _ 0 hnext rfl
  exact ⟨w, conn, hreach, hnext, hconn, hiff.mpr ⟨_, _, _, _, hran, rfl, by decide⟩⟩

/-- A forced close can meet a missing output buffer: on a connection that never
wrote. -/
theorem not_forceClose_finds_buffer :
    ¬ ∀ (w : World ℕ), machine.Reach Machine.anyStep w → ∀ entry c conn,
        w.loop.nextEntry = some entry → entry.callback = .forceClose c →
          w.conns c = some conn → conn.bufferOut ≠ none := by
  intro hclaim
  have hnew : machine.Reach Machine.anyStep (new 0 : World ℕ) := .init ⟨0, rfl⟩
  obtain ⟨w, hreach, hnext, conn, hconn, hnone⟩ := hnew.exists_of_leads
    [.user 0 (.allocateReceiveBuffer 4096), .loop (.enterRun 0), .loop .testRunning,
      .epollWait [.other], .user 0 (.onNewConnection 5 ⟨false, false, true, false⟩),
      .user 0 (.drop 0), .returns, .loop .swapPending, .loop .endBatch, .endIteration,
      .loop .testRunning, .epollWait [.source 5 1], .exec (-1), .exec 0, .exec 0,
      .loop .swapPending, .loop .endBatch]
    (P := fun w => w.loop.nextEntry = some ⟨0, 0, true, .forceClose 0⟩ ∧
      ∃ conn ∈ w.conns 0, conn.bufferOut = none)
    (by decide)
  exact hclaim w hreach _ 0 conn hnext rfl hconn hnone

/-! ## The notification -/

/-- No job that notifies runs on a closed connection. -/
def Silent : World τ → Action τ → Prop :=
  EachJob fun w _ conn job => conn.state = .closed → job.notifies (w.registered conn.fd) = false

instance : DecidableRel (Silent (τ := τ)) := inferInstanceAs (DecidableRel (EachJob _))

/-- Behind the call of `closed_callback_` there is no call of another one. -/
def Final (c : ConnId) (newer older : Event τ) : Prop :=
  older = .called c .closed → ∀ callback, newer = .called c callback → callback = .established

/-- The calls of a connection end with `closed_callback_`, and a connection that
was told of its end is closed. -/
structure Finished (c : ConnId) (value : Option Connection) (trail : List (Event τ)) : Prop where
  order : trail.Pairwise (Final c)
  closed : .called c .closed ∈ trail → ∀ conn, value = some conn → conn.state = .closed

theorem pairwise_records {loop : EventLoop τ Task} {entry : Option (Posted τ Task)} {job : Job}
    {found : ConnState} {effect : Effect} :
    (records loop entry c job found effect).Pairwise (Final c) := by
  cases hcalled : effect.called <;> cases hpost : effect.post <;> cases hsent : effect.sent <;>
    cases entry <;> simp [records, hcalled, hpost, hsent, Final]

theorem Finished.ran {conn : Connection} {table : Epoll ConnId} {registered : Bool} {job : Job}
    {effect : Effect} {loop : EventLoop τ Task} {entry : Option (Posted τ Task)}
    {trail : List (Event τ)} (h : Finished c (some conn) trail) (hsettled : conn.Settled)
    (hsilent : conn.state = .closed → job.notifies registered = false)
    (hran : conn.Ran c table registered job effect) :
    Finished c (some effect.conn) (records loop entry c job conn.state effect ++ trail) where
  order := by
    refine List.pairwise_append.mpr ⟨pairwise_records, h.order, ?_⟩
    rintro newer hnewer _ holder rfl callback rfl
    have hclosed := h.closed holder conn rfl
    have hcalled := (called_mem_records.mp hnewer).2
    rw [hran.called_eq_none hsettled hclosed (hsilent hclosed)] at hcalled
    cases hcalled
  closed := by
    rintro hmem _ ⟨⟩
    rcases List.mem_append.mp hmem with hnew | hold
    · exact hran.closed_of_called (called_mem_records.mp hnew).2
    · exact hran.closed hsettled (h.closed hold conn rfl)

theorem reach_finished (h : machine.Reach Silent w) (c : ConnId) :
    Finished c (w.conns c) (w.trail c) := by
  refine reach_trail (fun c => Finished c) ?_ ?_ ?_ ?_ ?_ ?_ h c
  · exact fun c => ⟨List.Pairwise.nil, fun h => by cases h⟩
  · exact fun c value trail hold => ⟨hold.order, fun _ conn hconn => by cases hconn⟩
  · intro c value entry trail hold _ _
    refine ⟨List.pairwise_cons.mpr ⟨?_, hold.order⟩, fun hmem => hold.closed ?_⟩
    · intro older _ _ callback heq
      cases heq
    · simpa using hmem
  · exact fun c conn callbacks trail hold =>
      ⟨hold.order, fun hmem new hnew => by cases hnew; exact hold.closed hmem conn rfl⟩
  · intro c fd callbacks table
    cases hset : (Connection.registerEvent fd callbacks c table).1.userCallback .established with
    | none => exact ⟨by simp, by simp⟩
    | some callback =>
        cases Connection.userCallback_eq_some hset
        exact ⟨by simp, by simp⟩
  · intro source action c job conn effect loop entry trail hreach hok hjob _ hconn _ hran hold
    exact hold.ran (reach_settled hreach hconn) (hok.of_job hjob hconn) hran

/-- **In every run in which no job that notifies runs on a closed connection,
the close notification is unique and final.** After a call of `closed_callback_`
neither it nor `read_callback_` nor `error_callback_` of the connection is
called again. -/
theorem close_notification_final (w : World τ) (h : machine.Reach Silent w) (c : ConnId)
    (newer older : List (Event τ)) (hhistory : w.history = newer ++ .called c .closed :: older) :
    .called c .closed ∉ newer ∧ .called c .read ∉ newer ∧ .called c .error ∉ newer := by
  have horder := (reach_finished h c).order
  rw [trail, hhistory, List.filter_append, List.filter_cons_of_pos (by simp [Event.subject]),
    List.pairwise_append] at horder
  have hfinal : ∀ callback, .called c callback ∈ newer → callback = .established := by
    intro callback hcallback
    refine horder.2.2 _ ?_ (.called c .closed) List.mem_cons_self rfl callback rfl
    exact List.mem_filter.mpr ⟨hcallback, by simp [Event.subject]⟩
  refine ⟨fun hmem => ?_, fun hmem => ?_, fun hmem => ?_⟩
  · cases hfinal _ hmem
  · cases hfinal _ hmem
  · cases hfinal _ hmem

/-- The peer shuts down, the connection is closed, and the user goes on. -/
theorem close_notification_final_of_shutdown :
    ∃ w : World ℕ, machine.Reach Silent w ∧
      w.history =
        [.posted ⟨0, 1, true, .user⟩] ++ .called 0 .closed ::
          [.ran ⟨0, 0, true, .close 0⟩ .close .receiving .closed,
            .posted ⟨0, 0, true, .close 0⟩, .called 0 .established] ∧
      .called 0 .closed ∉ [(.posted ⟨0, 1, true, .user⟩ : Event ℕ)] := by
  have hnew : machine.Reach Silent (new 0 : World ℕ) := .init ⟨0, rfl⟩
  obtain ⟨w, hreach, hhistory⟩ := hnew.exists_of_leads
    [.user 0 (.allocateReceiveBuffer 4096), .loop (.enterRun 0), .loop .testRunning,
      .epollWait [.other], .user 0 (.onNewConnection 5 ⟨true, true, true, true⟩), .returns, .exec 0,
      .user 0 (.drop 0), .returns, .loop .swapPending, .loop .endBatch, .endIteration,
      .loop .testRunning, .epollWait [.source 5 1], .exec 0, .exec 0, .loop .swapPending,
      .loop .endBatch, .call, .user 0 .postCallback]
    (P := fun w => w.history =
      [.posted ⟨0, 1, true, .user⟩] ++ .called 0 .closed ::
        [.ran ⟨0, 0, true, .close 0⟩ .close .receiving .closed,
          .posted ⟨0, 0, true, .close 0⟩, .called 0 .established])
    (by decide)
  exact ⟨w, hreach, hhistory, (close_notification_final w hreach 0 _ _ hhistory).1⟩

/-- The notification is not unique: user code calls `close()` twice, and both
tasks call `closed_callback_`. -/
theorem not_close_notification_final :
    ¬ ∀ w : World ℕ, machine.Reach Machine.anyStep w → ∀ c newer older,
        w.history = newer ++ .called c .closed :: older →
          .called c .closed ∉ newer ∧ .called c .read ∉ newer ∧ .called c .error ∉ newer := by
  intro hclaim
  have hnew : machine.Reach Machine.anyStep (new 0 : World ℕ) := .init ⟨0, rfl⟩
  obtain ⟨w, hreach, hhistory⟩ := hnew.exists_of_leads
    [.loop (.enterRun 0), .loop .testRunning, .epollWait [.other],
      .user 0 (.onNewConnection 5 ⟨false, true, true, true⟩), .user 0 (.close 0),
      .user 0 (.close 0), .user 0 (.drop 0), .returns, .loop .swapPending, .loop .endBatch,
      .call, .returns, .exec 0, .exec 0, .exec 0, .callReturns, .exec 0, .call]
    (P := fun w => w.history =
      [.called 0 .closed, .ran ⟨0, 1, true, .close 0⟩ .close .closed .closed] ++
        .called 0 .closed ::
          [.ran ⟨0, 0, true, .close 0⟩ .close .receiving .closed,
            .posted ⟨0, 1, true, .close 0⟩, .posted ⟨0, 0, true, .close 0⟩])
    (by decide)
  exact (hclaim w hreach 0 _ _ hhistory).1 List.mem_cons_self

end World

end Mutiplex
