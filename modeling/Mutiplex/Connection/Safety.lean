/-
# Safe runs

The ways a run of the loop can go wrong are known one by one: a handler or a
task of a connection that was destroyed, a writable handler or a forced close
that finds no buffer, a reading handler of a loop without a receive buffer, a
buffer that outgrows its counters, a `write` of a length that makes no
`ByteBuffer`.  `Careful` collects what keeps clear of them, each as a condition on
a step before the harm is done.  The conditions depend on each other's
invariants; together they suffice: no step of a careful run reads freed memory,
dereferences null, leaves a block or fails an assertion.
-/

import Mutiplex.Connection.Closing
import Mutiplex.Connection.Delivery
import Mutiplex.Connection.Dispatch
import Mutiplex.Connection.Writable

namespace Mutiplex

open CMemory Transition

variable {τ : Type} [DecidableEq τ]

namespace Connection

variable {conn : Connection} {c : ConnId} {table : Epoll ConnId} {registered recvBuffer : Bool}
  {job : Job} {effect : Effect}

/-- The jobs that call `force_close` whether there is an output buffer or not. -/
def forces (conn : Connection) : Job → Bool
  | .error => true
  | .callForceClose => true
  | .doWrite _ => conn.state = .closed
  | _ => false

/-- A job keeps the backlog within 2^31 bytes, appends something if it appends,
and calls `force_close` on a connection that has its output buffer. -/
structure Careful (conn : Connection) (job : Job) : Prop where
  bounded : conn.Bounded job
  leaves : conn.LeavesBytes job
  forces : conn.forces job = true → conn.bufferOut ≠ none

instance : DecidablePred conn.Careful := fun job =>
  decidable_of_iff
    (conn.Bounded job ∧ conn.LeavesBytes job ∧ (conn.forces job = true → conn.bufferOut ≠ none))
    ⟨fun ⟨hbounded, hleaves, hforces⟩ => ⟨hbounded, hleaves, hforces⟩,
      fun ⟨hbounded, hleaves, hforces⟩ => ⟨hbounded, hleaves, hforces⟩⟩

/-- A forced close is only posted where there is an output buffer. -/
theorem Ran.bufferOut_of_post (h : conn.Ran c table registered job effect)
    (hcareful : conn.Careful job) (hpost : effect.post = some (.forceClose c)) :
    effect.conn.bufferOut ≠ none := by
  rw [h.bufferOut_ne_none]
  left
  cases h with
  | writeFails hb => simp [hb]
  | writesNone hb => simp [hb]
  | error => exact hcareful.forces rfl
  | callForceClose => exact hcareful.forces rfl
  | doWriteClosed hstate => exact hcareful.forces (by simp [forces, hstate])
  | _ => simp [idle, withSource] at hpost

/-- The writable handler of a buffer that holds something. -/
theorem run_write_of_backlog (hsound : conn.Sound) (hbacklog : conn.backlog ≠ 0) (n : ℤ) :
    ∃ effect, conn.run c table registered recvBuffer (.write n) = .ok effect := by
  have hbytes := hasBytesToWrite_eq_true.mpr hbacklog
  cases hb : conn.bufferOut with
  | none => simp [hasBytesToWrite, hb] at hbytes
  | some b =>
      have hne : b.empty = false := by simpa [hasBytesToWrite, hb] using hbytes
      obtain ⟨written, hwritten⟩ : ∃ written, b.writeToFd n = .ok written := by
        rcases Int.lt_or_le n 0 with hneg | hpos
        · exact ⟨_, CircularBuffer.writeToFd_eq_of_neg (hsound b hb) hne hneg⟩
        · exact ⟨_, CircularBuffer.writeToFd_eq_of_nonneg (hsound b hb) hne hpos⟩
      simp only [run, handleWrite, hb, hne, hwritten, bind, Except.bind, Bool.false_eq_true,
        if_false]
      repeat' split
      all_goals exact ⟨_, rfl⟩

/-- The reading callback of a loop that has its receive buffer. -/
theorem run_read_of_recvBuffer (n : ℤ) :
    ∃ effect, conn.run c table registered true (.read n) = .ok effect := by
  simp only [run, readingCallback, Bool.true_eq_false, if_false]
  repeat' split
  all_goals exact ⟨_, rfl⟩

/-- `do_write` of a payload the counters can count. -/
theorem run_doWrite_of_bounded (hsound : conn.Sound) {data : List UInt8}
    (hbounded : conn.Bounded (.doWrite data)) :
    ∃ effect, conn.run c table registered recvBuffer (.doWrite data) = .ok effect := by
  by_cases hclosed : conn.state = .closed
  · exact ⟨{ conn.idle table with post := some (.forceClose c) },
      by simp only [run, doWrite, if_pos hclosed]; rfl⟩
  · obtain ⟨old, hold, hvalid, hlen, -, -⟩ := getD_new hsound data
    obtain ⟨b, hput, -⟩ := CircularBuffer.put_spec hvalid (hlen ▸ hbounded hclosed)
    refine ⟨{ conn with bufferOut := some b }.withSource c table EventSource.enableWriting, ?_⟩
    simp only [run, doWrite, if_neg hclosed, hold, hput]
    rfl

end Connection

namespace World

variable {w w' : World τ} {action : Action τ} {c : ConnId}

/-! ## Careful runs -/

/-- A call of user code asks for nothing that cannot be done: no forced close of a
connection without an output buffer, and no `write` and no receive buffer whose
length, as an `int`, is not positive. -/
def CarefulCall (w : World τ) : Call → Prop
  | .forceClose c => ∀ conn ∈ w.conns c, conn.bufferOut ≠ none
  | .writeData c data => ∀ conn ∈ w.conns c, conn.isClosed = false →
      0 < data.length ∧ data.length < 2 ^ 31
  | .allocateReceiveBuffer capacity => 0 < capacity.toNat ∧ capacity.toNat < 2 ^ 31
  | _ => True

instance : DecidablePred w.CarefulCall
  | .forceClose c => inferInstanceAs (Decidable (∀ conn ∈ w.conns c, conn.bufferOut ≠ none))
  | .writeData c data => inferInstanceAs (Decidable (∀ conn ∈ w.conns c, conn.isClosed = false →
      0 < data.length ∧ data.length < 2 ^ 31))
  | .allocateReceiveBuffer capacity =>
      inferInstanceAs (Decidable (0 < capacity.toNat ∧ capacity.toNat < 2 ^ 31))
  | .close _ | .writeBuffer _ _ | .postCallback | .share _ | .drop _ | .setBuffer _ _
  | .setCallbacks _ _ | .onNewConnection _ _ | .closeFd _ => isTrue trivial

/-- The call an action makes. -/
def Action.made : Action τ → Option Call
  | .user _ made => some made
  | _ => none

/-- `run` is called by the action. -/
def Action.enters : Action τ → Bool
  | .loop (.enterRun _) => true
  | _ => false

/-- A careful step: no closed connection is reported, none is made of the
descriptor of another one, none loses its last owner while a task of
`write(const void*, uint32_t)` on it waits, `run` is called when the receive
buffer is allocated, jobs and calls are careful. -/
structure Careful (w : World τ) (action : Action τ) : Prop where
  orderly : w.Orderly action
  prepared : action.enters = true → w.recvBuffer = true
  keeps : w.KeepsWriters action
  jobs : EachJob (fun _ _ conn job => conn.Careful job) w action
  calls : ∀ call ∈ action.made, w.CarefulCall call

instance : DecidableRel (Careful : World τ → Action τ → Prop) := fun w action =>
  decidable_of_iff
    (w.Orderly action ∧ (action.enters = true → w.recvBuffer = true) ∧ w.KeepsWriters action ∧
      EachJob (fun _ _ conn job => conn.Careful job) w action ∧
      ∀ call ∈ action.made, w.CarefulCall call)
    ⟨fun ⟨horderly, hprepared, hkeeps, hjobs, hcalls⟩ =>
        ⟨horderly, hprepared, hkeeps, hjobs, hcalls⟩,
      fun ⟨horderly, hprepared, hkeeps, hjobs, hcalls⟩ =>
        ⟨horderly, hprepared, hkeeps, hjobs, hcalls⟩⟩

/-! ## Handlers have their connections -/

/-- A handler on the stack was there before the step, or part of it was, or it is
one of a connection that `epoll_wait` has just reported. -/
theorem Moves.source (hmoves : Moves w action w') {frame : Frame} (hframe : frame ∈ w'.stack)
    (hsource : frame.source = some c) :
    (∃ old ∈ w.stack, old.source = some c) ∨
      ∃ events, action = .epollWait events ∧ c ∈ w.reported events ∧ w'.conns = w.conns := by
  have hshrinks : ∀ {stack : List Frame}, Shrinks w.stack stack → frame ∈ stack →
      ∃ old ∈ w.stack, old.source = some c := by
    intro stack hstack hmem
    rcases hstack.mem hmem with hold | hidle
    · exact ⟨frame, hold, hsource⟩
    · rw [Frame.source_of_isIdle hidle] at hsource
      cases hsource
  cases hmoves with
  | loop hstep hpost hcall hstack => exact Or.inl (hshrinks hstack hframe)
  | @epollWait events loop hempty hreports hstep =>
      rcases mem_readyFrame hframe with rfl | rfl | ⟨fd, readyOps, entry, hmem, hentry, rfl⟩
      · cases hsource
      · cases hsource
      · cases hsource
        exact Or.inr ⟨events, rfl, List.mem_filterMap.mpr ⟨_, hmem, by simp [readyFd, hentry]⟩, rfl⟩
  | pointers hconnections howned hstack => exact Or.inl (hshrinks hstack hframe)
  | destroyed hlost hnot hheld hstack =>
      rw [stack_destroy] at hframe
      exact Or.inl (hshrinks hstack hframe)
  | posted => exact Or.inl ⟨frame, hframe, hsource⟩
  | setCallbacks => exact Or.inl ⟨frame, hframe, hsource⟩
  | fdClosed => exact Or.inl ⟨frame, hframe, hsource⟩
  | born =>
      simp only [onNewConnection, List.mem_append, Option.mem_toList,
        Option.map_eq_some_iff] at hframe
      rcases hframe with (⟨old, -, rfl⟩ | ⟨callback, -, rfl⟩) | hold
      · cases hsource
      · cases hsource
      · exact Or.inl ⟨frame, hold, hsource⟩
  | @exec n head rest other job conn effect hidle hstack hjob hconn hanswers hran =>
      have hself : head.source = some other := Frame.source_of_frameJob hjob
      left
      simp only [apply, List.mem_append, Option.mem_toList, Option.map_eq_some_iff] at hframe
      rcases hframe with (⟨callback, -, rfl⟩ | hafter) | hrest | htail
      · cases hsource
      · rcases hran.after_eq hafter with rfl | rfl
        · exact ⟨head, hstack ▸ List.mem_cons_self, hself.trans hsource⟩
        · cases hsource
      · exact ⟨head, hstack ▸ List.mem_cons_self,
          (Frame.source_of_frameRest hrest).symm.trans hsource⟩
      · exact ⟨frame, hstack ▸ List.mem_cons_of_mem _ htail, hsource⟩
  | call hempty hcall hnext hstep hjob hconn hanswers hran =>
      simp only [apply, List.mem_append, Option.mem_toList, Option.map_eq_some_iff, hempty,
        List.not_mem_nil, or_false] at hframe
      rcases hframe with ⟨callback, -, rfl⟩ | hafter
      · cases hsource
      · rw [hran.after_of_isTask (isTask_of_taskJob hjob) hafter] at hsource
        cases hsource

/-- Where a handler is on the stack, its connection is open. -/
theorem reach_served (h : machine.Reach Orderly w) {frame : Frame} (hframe : frame ∈ w.stack)
    (hsource : frame.source = some c) : w.IsOpen c := by
  refine h.invariant (fun w => ∀ frame ∈ w.stack, ∀ c, frame.source = some c → w.IsOpen c)
    ?_ ?_ frame hframe c hsource
  · rintro _ ⟨thread, rfl⟩ frame hframe
    cases hframe
  · intro source action target hreach hinv hok hstep frame hframe c hsource
    rcases (moves_of_step hstep).source hframe hsource with
      ⟨old, hold, hsource'⟩ | ⟨events, rfl, hreported, hconns⟩
    · refine (hinv old hold c hsource').step (hreach.mono fun _ _ hok => hok.2) ?_ hstep
      have hfits := (reach_loop hreach).1 old hold
      cases old <;> first | exact hfits | cases hsource'
    · obtain ⟨conn, hconn, hopen⟩ := isOpen_of_reported hreach.any hok.1 hreported
      exact ⟨conn, hconns ▸ hconn, hopen⟩

/-! ## Forced closes have their buffers -/

/-- A forced close that waits after a call of user code waited before, or was
asked for by the call. -/
theorem forceClose_of_userCall {thread : τ} {call : Call} (hqueues : w.loop.Queues)
    (h : w.userCall thread call = .next w') {entry : Posted τ Task}
    (hentry : entry ∈ w'.loop.unexecuted) (htask : entry.callback = .forceClose c) :
    entry ∈ w.loop.unexecuted ∨ call = .forceClose c ∧ w'.conns = w.conns := by
  cases called_of_userCall h with
  | @posts _ task hasked hpointer hopen =>
      rcases EventLoop.mem_unexecuted_postCallback hqueues thread task hentry with hold | rfl
      · exact Or.inl hold
      · have hforce : task = .forceClose c := htask
        subst hforce
        cases call <;> cases hasked
        exact Or.inr ⟨rfl, rfl⟩
  | drop hheld =>
      rw [loop_release] at hentry
      exact Or.inl hentry
  | _ => exact Or.inl hentry

/-- A forced close that waits after a step waited before, was asked for by user
code, or was posted by a job of its connection. -/
theorem forceClose_of_step (hqueues : w.loop.Queues) (hstep : w.step action = .next w')
    {entry : Posted τ Task} (hentry : entry ∈ w'.loop.unexecuted)
    (htask : entry.callback = .forceClose c) :
    entry ∈ w.loop.unexecuted ∨
      (action.made = some (.forceClose c) ∧ w'.conns = w.conns) ∨
      ∃ job conn effect, w.job action = some (c, job) ∧ w.conns c = some conn ∧
        conn.Ran c w.epoll (w.registered conn.fd) job effect ∧
        effect.post = some (.forceClose c) ∧ w'.conns c = some effect.conn := by
  -- a job posts tasks of its own connection only
  have happly : ∀ (source : World τ) {other : ConnId} {job : Job} {conn : Connection}
      {effect : Effect} (ran : Option (Posted τ Task)),
      w.job action = some (other, job) → w.conns other = some conn →
      conn.Ran other w.epoll (w.registered conn.fd) job effect → source.loop.Queues →
      (∀ e ∈ source.loop.unexecuted, e ∈ w.loop.unexecuted) →
      entry ∈ (source.apply ran other job conn.state effect).loop.unexecuted →
      entry ∈ w.loop.unexecuted ∨ ∃ own old new, w.job action = some (c, own) ∧
        w.conns c = some old ∧ old.Ran c w.epoll (w.registered old.fd) own new ∧
        new.post = some (.forceClose c) ∧
        (source.apply ran other job conn.state effect).conns c = some new.conn := by
    intro source other job conn effect ran hjob hconn hran hqueues' hsub hentry
    rcases loop_apply (w := source) ran other job conn.state effect with heq | ⟨task, hpost, heq⟩
    · exact Or.inl (hsub _ (heq ▸ hentry))
    · rw [heq] at hentry
      rcases EventLoop.mem_unexecuted_postCallback hqueues' _ task hentry with hold | rfl
      · exact Or.inl (hsub _ hold)
      · have hforce : task = .forceClose c := htask
        subst hforce
        rcases hran.post_eq hpost with hclose | hclose
        · cases hclose
        · cases hclose
          exact Or.inr ⟨job, conn, effect, hjob, hconn, hran, hpost, Function.update_self ..⟩
  cases moves_of_step hstep with
  | loop hmove hpost =>
      exact Or.inl (EventLoop.mem_unexecuted_of_move hqueues (EventLoop.move_of_step hmove) hpost
        hentry)
  | epollWait hempty hreports hmove =>
      exact Or.inl (EventLoop.mem_unexecuted_of_move hqueues (EventLoop.move_of_step hmove) rfl
        hentry)
  | pointers => exact Or.inl hentry
  | destroyed =>
      rw [loop_destroy] at hentry
      exact Or.inl hentry
  | posted hmay =>
      simp only [step, if_pos hmay] at hstep
      rcases forceClose_of_userCall hqueues hstep hentry htask with hold | ⟨rfl, hconns⟩
      · exact Or.inl hold
      · exact Or.inr (Or.inl ⟨rfl, hconns⟩)
  | setCallbacks => exact Or.inl hentry
  | fdClosed => exact Or.inl hentry
  | born => exact Or.inl hentry
  | @exec n frame rest _ _ _ _ hidle hstack hjob hconn hanswers hran =>
      exact (happly { w with stack := frameRest frame ++ rest } none
        ((job_exec hstack).trans hjob) hconn hran hqueues (fun _ => id) hentry).imp id Or.inr
  | @call _ _ loop _ _ _ _ hempty hcall hnext hmove hjob hconn hanswers hran =>
      have hloop := EventLoop.move_of_step hmove
      exact (happly { w with loop := loop } _ ((job_call hnext).trans hjob) hconn hran
        (hqueues.move hloop) (fun _ => EventLoop.mem_unexecuted_of_move hqueues hloop
          (isPost_of_isCall hcall)) hentry).imp id Or.inr

/-- Where a forced close waits, its connection has an output buffer. -/
theorem reach_forceable (h : machine.Reach Careful w) {entry : Posted τ Task}
    (hentry : entry ∈ w.loop.unexecuted) (htask : entry.callback = .forceClose c)
    {conn : Connection} (hconn : w.conns c = some conn) : conn.bufferOut ≠ none := by
  refine h.invariant (fun w => ∀ entry ∈ w.loop.unexecuted, ∀ c,
    entry.callback = .forceClose c → ∀ conn, w.conns c = some conn → conn.bufferOut ≠ none)
    ?_ ?_ entry hentry c htask conn hconn
  · rintro _ ⟨thread, rfl⟩ entry hentry
    cases hentry
  · intro source action target hreach hinv hok hstep entry hentry c htask conn hconn
    have hqueues := reach_loop_queues hreach
    rcases forceClose_of_step hqueues hstep hentry htask with
      hold | ⟨hmade, hconns⟩ | ⟨job, old, effect, hjob, hold, hran, hpost, hnew⟩
    · have hbefore := hinv entry hold c htask
      cases (moves_of_step hstep).fate (reach_loop hreach).1 hqueues c with
      | same heq => exact hbefore conn (heq ▸ hconn)
      | gone heq =>
          rw [heq] at hconn
          cases hconn
      | posted heq => exact hbefore conn (heq ▸ hconn)
      | callbacks hcall heq =>
          cases heq.symm.trans hconn
          have hkept := hbefore _ hcall
          exact hkept
      | born hborn hc =>
          have howned : source.Owned c := Or.inr (Or.inr (Or.inr
            ⟨entry, EventLoop.mem_entries_of_unexecuted hold, by rw [htask]; rfl⟩))
          obtain ⟨alive, halive⟩ := reach_alive hreach c howned
          exact absurd (hc ▸ (reach_numbered hreach).live c alive halive) (Nat.lt_irrefl _)
      | ran hjob hbody hsame hanswers hran hposts heq =>
          cases heq.symm.trans hconn
          exact hran.bufferOut_ne_none.mpr (Or.inl (hbefore _ hsame))
    · exact hok.calls _ hmade conn (hconns ▸ hconn)
    · cases hnew.symm.trans hconn
      exact hran.bufferOut_of_post (hok.jobs.of_job hjob hold) hpost

/-! ## The receive buffer is there -/

/-- `run` is not being executed, or the loop has its receive buffer. -/
def Prepared (w : World τ) : Prop := w.loop.phase = .outside ∨ w.recvBuffer = true

/-- A loop that is not in `run` stays out of it until `run` is called. -/
theorem outside_of_move {move : EventLoop.Action τ Task} {loop : EventLoop τ Task}
    (hmove : w.loop.move move = some loop) (houtside : w.loop.phase = .outside)
    (henter : ∀ thread, move ≠ .enterRun thread) : loop.phase = .outside := by
  cases EventLoop.moves_of_move hmove with
  | enterRun => exact absurd rfl (henter _)
  | leave => rfl
  | waitFails => rfl
  | post => rw [EventLoop.phase_postCallback, houtside]
  | stopFlag => exact houtside
  | stopNotify => exact houtside
  | _ => simp_all

theorem Prepared.moves (h : w.Prepared) (henters : action.enters = true → w.recvBuffer = true)
    (hmoves : Moves w action w') : w'.Prepared := by
  have hphase : ∀ {move : EventLoop.Action τ Task} {loop : EventLoop τ Task},
      w.loop.step move = some loop →
      (∀ thread, move = .enterRun thread → action.enters = true) →
      loop.phase = .outside ∨ w.recvBuffer = true := by
    intro move loop hstep henter
    rcases h with houtside | hrecv
    · by_cases hentered : ∃ thread, move = .enterRun thread
      · obtain ⟨thread, hthread⟩ := hentered
        exact Or.inr (henters (henter thread hthread))
      · exact Or.inl (outside_of_move (EventLoop.move_of_step hstep) houtside
          fun thread hthread => hentered ⟨thread, hthread⟩)
    · exact Or.inr hrecv
  cases hmoves with
  | loop hstep hpost hcall hstack hplace henter =>
      exact hphase hstep fun thread hthread => henter thread hthread ▸ rfl
  | epollWait hempty hreports hstep => exact hphase hstep (by simp)
  | pointers hconnections howned hstack hplace hrecv => exact h.imp id hrecv
  | destroyed =>
      rw [Prepared, loop_destroy, recvBuffer_destroy]
      exact h
  | posted =>
      rw [Prepared, post, EventLoop.phase_postCallback]
      exact h
  | setCallbacks => exact h
  | fdClosed => exact h
  | born => exact h
  | exec =>
      rw [Prepared, phase_apply]
      exact h
  | call hempty hcall hnext hstep =>
      rw [Prepared, phase_apply]
      exact hphase hstep fun thread henter => by simp [henter, EventLoop.Action.isCall] at hcall

/-- While the loop thread handles events, the receive buffer is there. -/
theorem reach_recvBuffer (h : machine.Reach Careful w)
    (hphase : w.loop.phase.handlesEvents = true) : w.recvBuffer = true := by
  have hprepared : w.Prepared :=
    reach_invariant Prepared (fun _ => Or.inl rfl)
      (fun _ _ _ _ hinv hok hmoves => hinv.moves hok.prepared hmoves) h
  refine hprepared.resolve_left fun houtside => ?_
  rw [houtside] at hphase
  cases hphase

/-! ## No step goes wrong -/

omit [DecidableEq τ] in
theorem Careful.bounded (h : Careful w action) (c : ConnId) : Bounded c w action :=
  EachJob.mono (fun _ _ _ _ hcareful _ => hcareful.bounded) h.jobs

/-- No job of a careful step goes wrong. -/
theorem runJob_ne_fault {entry : Option (Posted τ Task)} {job : Job} {conn : Connection}
    (hconn : w.conns c = some conn)
    (hrun : Answers conn job → ∃ effect,
      conn.run c w.epoll (w.registered conn.fd) w.recvBuffer job = .ok effect) (fault : Fault) :
    w.runJob entry c job ≠ .fault fault := by
  simp only [runJob, hconn]
  split
  · rename_i hanswers
    obtain ⟨effect, heffect⟩ := hrun hanswers
    simp only [heffect]
    intro hfault
    cases hfault
  · intro hfault
    cases hfault

/-- A handler of a careful run: its connection exists and its code succeeds. -/
theorem exec_ne_fault (h : machine.Reach Careful w) (n : ℤ) (fault : Fault) :
    w.exec n ≠ .fault fault := by
  have hjob : ∀ frame rest c job, w.stack = frame :: rest → frameJob n frame = some (c, job) →
      { w with stack := frameRest frame ++ rest }.runJob none c job ≠ .fault fault := by
    intro frame rest c job hstack hframe
    obtain ⟨conn, hconn, -, hopen⟩ := reach_served (h.mono fun _ _ hcareful => hcareful.orderly)
      (hstack ▸ List.mem_cons_self) (Frame.source_of_frameJob hframe)
    refine runJob_ne_fault (w := { w with stack := frameRest frame ++ rest }) hconn
      (fun _ => ?_) fault
    cases job with
    | read m =>
        show ∃ effect, conn.run c w.epoll (w.registered conn.fd) w.recvBuffer (.read m) = .ok effect
        rw [reach_recvBuffer h ((reach_loop h).1.of_frameJob hstack hframe)]
        exact Connection.run_read_of_recvBuffer m
    | write m =>
        obtain ⟨readyOps, rfl, hwants⟩ := eq_writable_of_frameJob hframe
        have hoffered := reach_offered (h.mono fun _ _ hcareful =>
          EachJob.mono (fun _ _ _ _ hjob => hjob.leaves) hcareful.jobs)
        have hbacklog := hoffered.bytes c (List.mem_filterMap.mpr
          ⟨_, hstack ▸ List.mem_cons_self, by simp [Frame.out, hwants]⟩) conn hconn hopen
        exact Connection.run_write_of_backlog
          (reach_sound (h.mono fun _ _ hcareful => hcareful.bounded c) hconn) hbacklog m
    | close => exact absurd (isTask_of_frameJob hframe) (by simp [Job.isTask])
    | forceClose => exact absurd (isTask_of_frameJob hframe) (by simp [Job.isTask])
    | doWrite data => exact absurd (isTask_of_frameJob hframe) (by simp [Job.isTask])
    | _ => exact ⟨_, rfl⟩
  cases hstack : w.stack with
  | nil => simp [exec, hstack]
  | cons frame rest =>
      simp only [exec, hstack]
      cases frame with
      | inside argument => simp
      | removeConnection c fd => simp
      | release c => simp
      | readNotify =>
          simp only [loopStep]
          split <;> simp
      | _ =>
          dsimp only
          split
          · simp
          · exact hjob _ _ _ _ hstack ‹_›

/-- A task of a careful run: its connection exists and its body succeeds. -/
theorem callEntry_ne_fault (h : machine.Reach Careful w) (hok : w.Careful .call)
    {entry : Posted τ Task} (hnext : w.loop.nextEntry = some entry) (loop : EventLoop τ Task)
    (fault : Fault) : { w with loop := loop }.callEntry entry ≠ .fault fault := by
  unfold callEntry
  split
  · simp
  · rename_i c job htask
    have htask : w.taskJob entry.callback = some (c, job) := htask
    have hworld : w.job .call = some (c, job) := (job_call hnext).trans htask
    have hwaits := EventLoop.mem_unexecuted_of_nextEntry hnext
    obtain ⟨conn, hconn⟩ := reach_tasksAlive (h.mono fun _ _ hcareful => hcareful.keeps)
      entry hwaits c (target_of_taskJob htask)
    refine runJob_ne_fault (w := { w with loop := loop }) hconn (fun _ => ?_) fault
    cases job with
    | doWrite data =>
        exact Connection.run_doWrite_of_bounded
          (reach_sound (h.mono fun _ _ hcareful => hcareful.bounded c) hconn)
          (hok.jobs.of_job hworld hconn).bounded
    | forceClose =>
        have hforce := (callback_of_taskJob htask).2 rfl
        have hbuffer := reach_forceable h hwaits hforce hconn
        obtain ⟨b, hb⟩ := Option.ne_none_iff_exists'.mp hbuffer
        simp only [Connection.run, Connection.forceCloseTask, hb]
        split <;> exact ⟨_, rfl⟩
    | read m => exact absurd (isTask_of_taskJob htask) (by simp [Job.isTask])
    | write m => exact absurd (isTask_of_taskJob htask) (by simp [Job.isTask])
    | _ => exact ⟨_, rfl⟩

/-- A call of user code in a careful run. -/
theorem userCall_ne_fault (h : machine.Reach Careful w) {thread : τ} {call : Call}
    (hcall : w.CarefulCall call) (fault : Fault) : w.userCall thread call ≠ .fault fault := by
  have hexists : ∀ c, w.HasPointer thread c → ∃ conn, w.conns c = some conn :=
    fun c hpointer => reach_alive h c hpointer.owned
  have hwrite : ∀ c fits task, w.HasPointer thread c →
      (∀ conn ∈ w.conns c, conn.isClosed = false → fits = true) →
      w.write thread c fits task ≠ .fault fault := by
    intro c fits task hpointer hfits
    obtain ⟨conn, hconn⟩ := hexists c hpointer
    simp only [write, hconn]
    split
    · simp
    · rename_i hopen
      rw [if_pos (hfits conn hconn (by simpa using hopen))]
      simp
  cases call with
  | writeBuffer c buffer =>
      simp only [userCall]
      split
      · exact hwrite c true _ ‹_› fun _ _ _ => rfl
      · simp
  | writeData c data =>
      simp only [userCall]
      split
      · rename_i hguard
        exact hwrite c _ _ hguard.1 fun conn hconn hopen => by simpa using hcall conn hconn hopen
      · simp
  | setCallbacks c callbacks =>
      simp only [userCall]
      split
      · obtain ⟨conn, hconn⟩ := hexists c ‹_›
        simp [hconn]
      · simp
  | allocateReceiveBuffer capacity =>
      have hcapacity : 0 < capacity.toNat ∧ capacity.toNat < 2 ^ 31 := hcall
      simp only [userCall, if_pos hcapacity]
      simp
  | postCallback => simp [userCall]
  | closeFd fd => simp [userCall]
  | _ =>
      simp only [userCall]
      split <;> simp

/-- **Careful runs are safe.** In every run in which no closed connection is
reported, no connection is made of the descriptor of another one, no connection
loses its last owner while a task of `write(const void*, uint32_t)` on it waits,
every `do_write` appends something and keeps the backlog within 2^31 bytes,
`force_close` is called on connections with an output buffer only, `run` when the
receive buffer is allocated, and the lengths of that buffer and of every `write`
are positive `int`s, no step of any thread goes wrong. -/
theorem careful_runs_are_safe (w : World τ) (action : Action τ) (h : machine.Reach Careful w)
    (hok : w.Careful action) (fault : Fault) : machine.step w action ≠ .fault fault := by
  show w.step action ≠ .fault fault
  cases action with
  | loop move =>
      simp only [step, loopStep]
      repeat' split
      all_goals simp
  | epollWait events =>
      simp only [step, loopStep]
      repeat' split
      all_goals simp
  | exec n =>
      simp only [step]
      split
      · simp
      · exact exec_ne_fault h n fault
  | returns =>
      simp only [step]
      repeat' split
      all_goals simp
  | call =>
      simp only [step]
      split
      · rename_i entry hempty hnext
        split
        all_goals
          simp only [loopStep]
          split
          · simp
          · exact callEntry_ne_fault h hok hnext _ fault
      · simp
  | callReturns =>
      simp only [step, loopStep]
      repeat' split
      all_goals simp
  | endIteration =>
      simp only [step, loopStep]
      repeat' split
      all_goals simp
  | user thread call =>
      simp only [step]
      split
      · exact userCall_ne_fault h (hok.calls call rfl) fault
      · simp

/-- A server with a client that is told the time and let go, and one that is
closed by force after it was sent something. -/
theorem careful_runs_are_safe_of_two_clients :
    ∃ w : World ℕ, machine.Reach Careful w ∧ w.job (.exec 2) = some (0, .write 2) ∧
      w.loop.executed.length = 4 ∧ ∀ fault, machine.step w (.exec 2) ≠ .fault fault := by
  have hnew : machine.Reach Careful (new 0 : World ℕ) := .init ⟨0, rfl⟩
  obtain ⟨w, hreach, hok, hjob, hlength⟩ := hnew.exists_of_leads
    [.user 0 (.allocateReceiveBuffer 4096), .loop (.enterRun 0), .loop .testRunning,
      .epollWait [.other], .user 0 (.onNewConnection 5 ⟨true, true, true, true⟩),
      .user 0 (.writeData 0 [1, 2]), .user 0 (.close 0), .returns, .exec 0,
      .user 0 (.onNewConnection 6 ⟨false, true, true, true⟩), .user 0 (.writeData 1 [3, 4, 5]),
      .user 0 (.drop 0), .user 0 (.drop 1), .returns, .loop .swapPending, .loop .endBatch, .call,
      .callReturns, .call, .callReturns, .exec 0, .call, .callReturns, .endIteration,
      .loop .testRunning, .epollWait [.source 6 1], .exec 9, .user 0 (.forceClose 1), .returns,
      .exec 0, .exec 0, .loop .swapPending, .loop .endBatch, .call, .returns, .exec 0, .exec 0,
      .exec 0, .callReturns, .exec 0, .endIteration, .loop .testRunning, .epollWait [.source 5 4],
      .exec 0]
    (P := fun w => w.Careful (.exec 2) ∧ w.job (.exec 2) = some (0, .write 2) ∧
      w.loop.executed.length = 4)
    (by decide)
  exact ⟨w, hreach, hjob, hlength, careful_runs_are_safe w (.exec 2) hreach hok⟩

end World

end Mutiplex
