/-
# The loop thread goes on

Whatever the loop thread is doing in an iteration, its next step is possible
without a step of any other thread: a handler and a task find an answer of the
kernel they can go on with, user code returns, and `run` has a statement for each
state it can find its queues in.  Inside `stop`, between the flag and the write to
the eventfd, the next step is that write.
-/

import Mutiplex.Connection.Steps

namespace Mutiplex

open CMemory Transition

variable {τ : Type} [DecidableEq τ]

namespace World

variable {w w' : World τ} {action : Action τ} {c : ConnId}

/-- The steps the loop thread takes for itself in an iteration. -/
def Action.ofLoopThread : Action τ → Bool
  | .loop .testRunning => true
  | .loop .swapPending => true
  | .loop .endBatch => true
  | .exec _ => true
  | .returns => true
  | .call => true
  | .callReturns => true
  | .endIteration => true
  | _ => false

/-! ## The reading callback of the eventfd -/

/-- The reading callback of `notify_event_` is to come exactly if the eventfd was
reported and is not yet read. -/
def Notifying (w : World τ) : Prop :=
  w.stack.count .readNotify = if w.loop.phase = .dispatching true then 1 else 0

theorem count_readNotify_of_isRelease {stack : List Frame}
    (h : ∀ frame ∈ stack, frame.isRelease = true) : stack.count .readNotify = 0 := by
  rw [List.count_eq_zero]
  intro hmem
  cases h _ hmem

theorem count_readNotify_apply {conn : Connection} {table : Epoll ConnId} {registered : Bool}
    {entry : Option (Posted τ Task)} {job : Job} {found : ConnState} {effect : Effect}
    (hran : conn.Ran c table registered job effect) :
    (w.apply entry c job found effect).stack.count .readNotify = w.stack.count .readNotify := by
  have hafter : effect.after.count .readNotify = 0 := by
    rw [List.count_eq_zero]
    intro hmem
    rcases hran.after_eq hmem with heq | heq <;> cases heq
  have hcalled : (effect.called.map fun _ => Frame.inside (some c)).toList.count .readNotify =
      0 := by
    cases effect.called <;> rfl
  rw [apply, List.count_append, List.count_append, hafter, hcalled, Nat.zero_add]

omit [DecidableEq τ] in
theorem count_readNotify_readyFrames (events : List Ready) :
    (events.filterMap w.readyFrame).count .readNotify = events.count .notify := by
  induction events with
  | nil => rfl
  | cons event rest ih =>
      cases event with
      | notify => simp [readyFrame, ih]
      | other => simp [readyFrame, ih]
      | source fd readyOps =>
          cases hentry : w.epoll fd <;> simp [readyFrame, hentry, ih]

theorem Notifying.exec (h : w.Notifying) {n : ℤ} (hexec : w.exec n = .next w') :
    w'.Notifying := by
  have hpop : ∀ {frame : Frame} {rest : List Frame}, w.stack = frame :: rest →
      frame ≠ .readNotify →
        rest.count .readNotify = if w.loop.phase = .dispatching true then 1 else 0 := by
    intro frame rest hstack hne
    rwa [Notifying, hstack, List.count_cons_of_ne hne] at h
  cases executed_of_exec hexec with
  | readNotify hstack hmove =>
      cases EventLoop.moves_of_step hmove with
      | readNotify hphase =>
          rw [Notifying, hstack, List.count_cons_self, if_pos hphase] at h
          rw [Notifying]
          simpa using h
  | removeConnection hstack =>
      have hrest := hpop hstack (by simp)
      unfold removeConnection
      split
      · exact hrest
      · exact (List.count_cons_of_ne (by simp)).trans hrest
  | release hstack =>
      rw [Notifying, stack_release, loop_release]
      exact hpop hstack (by simp)
  | @job frame rest c job _ hstack hjob hrun =>
      obtain ⟨conn, effect, -, -, hran, rfl⟩ := runJob_eq_next hrun
      have hframes : (frameRest frame).count .readNotify = 0 := by
        rw [List.count_eq_zero]
        cases frame <;> simp only [frameRest, List.not_mem_nil, not_false_eq_true]
        split <;> simp
      rw [Notifying, count_readNotify_apply hran, phase_apply]
      show (frameRest frame ++ rest).count .readNotify = _
      rw [List.count_append, hframes, Nat.zero_add]
      exact hpop hstack (by rintro rfl; cases hjob)

omit [DecidableEq τ] in
/-- Where the stack has no frame that reads the eventfd, only the phase matters. -/
theorem notifying_of_count {loop : EventLoop τ Task} {stack : List Frame}
    (hstack : stack.count .readNotify = 0) (hphase : loop.phase ≠ .dispatching true) :
    { w with loop := loop, stack := stack }.Notifying := by
  rw [Notifying, if_neg hphase]
  exact hstack

theorem Notifying.loop (h : w.Notifying) {move : EventLoop.Action τ Task}
    {loop : EventLoop τ Task} (hallows : w.Allows move) (hmove : w.loop.step move = some loop) :
    { w with loop := loop }.Notifying := by
  have hsame : loop.phase = w.loop.phase → { w with loop := loop }.Notifying := by
    intro hphase
    rw [Notifying, hphase]
    exact h
  cases EventLoop.moves_of_step hmove with
  | stopFlag => exact hsame rfl
  | stopNotify => exact hsame rfl
  | waitReturns => cases hallows
  | readNotify => cases hallows
  | callCallback => cases hallows
  | callbackReturns => cases hallows
  | callTask => cases hallows
  | taskReturns => cases hallows
  | endIteration => cases hallows
  | post => cases hallows
  | _ =>
      have hstack : w.stack = [] := hallows
      exact notifying_of_count (by rw [hstack]; rfl) (by simp)

/-- `epoll_wait` reports the eventfd once at most. -/
theorem notifying_of_epollWait {events : List Ready} {loop : EventLoop τ Task}
    (hreports : w.Reports events)
    (hmove : w.loop.step (.epollWait (some (Ready.notify ∈ events))) = some loop) :
    { w with loop := loop, stack := events.filterMap w.readyFrame }.Notifying := by
  cases EventLoop.moves_of_step hmove with
  | waitReturns =>
      rw [Notifying, count_readNotify_readyFrames]
      have hone := hreports.2.2
      by_cases hnotify : Ready.notify ∈ events
      · have hpos := List.count_pos_iff.mpr hnotify
        simp only [hnotify, decide_true, if_true]
        omega
      · simp [hnotify, List.count_eq_zero.mpr hnotify]

theorem notifying_of_callEntry {move : EventLoop.Action τ Task} {loop : EventLoop τ Task}
    {entry : Posted τ Task} (hstack : w.stack = []) (hcall : move.isCall = true)
    (hmove : w.loop.step move = some loop)
    (hentry : { w with loop := loop }.callEntry entry = .next w') : w'.Notifying := by
  have hphase : loop.phase ≠ .dispatching true := by
    cases EventLoop.moves_of_step hmove with
    | callCallback => simp
    | callTask => simp
    | _ => cases hcall
  unfold callEntry at hentry
  split at hentry
  · cases hentry
    exact notifying_of_count rfl hphase
  · obtain ⟨conn, effect, -, -, hran, rfl⟩ := runJob_eq_next hentry
    rw [Notifying, count_readNotify_apply hran, phase_apply, if_neg hphase]
    show w.stack.count .readNotify = 0
    rw [hstack]
    rfl

theorem Notifying.user (h : w.Notifying) {thread : τ} {call : Call}
    (hcall : w.Called thread call w') : w'.Notifying := by
  cases hcall with
  | posts =>
      rw [Notifying, post, EventLoop.phase_postCallback]
      exact h
  | drop hheld =>
      rw [Notifying, stack_release, loop_release]
      exact h
  | @onNewConnection fd callbacks hthread =>
      have hold : ((w.connections.lookup fd).map Frame.release).toList.count .readNotify = 0 := by
        cases w.connections.lookup fd <;> rfl
      have hcalled : ∀ called : Option UserCallback,
          (called.map fun _ => Frame.inside (some w.nextId)).toList.count .readNotify = 0 := by
        intro called
        cases called <;> rfl
      rw [Notifying, onNewConnection, List.count_append, List.count_append, hold, hcalled,
        Nat.zero_add]
      exact h
  | _ => exact h

theorem Notifying.step (h : w.Notifying) (hstep : w.step action = .next w') : w'.Notifying := by
  have hreleases : ∀ entries : List (Posted τ Task), (releases entries).count .readNotify = 0 :=
    fun _ => count_readNotify_of_isRelease fun _ => isRelease_of_releases
  cases branch_of_step hstep with
  | loop hallows hmove => exact h.loop hallows hmove
  | epollWait hstack hreports hmove => exact notifying_of_epollWait hreports hmove
  | exec hidle hexec => exact h.exec hexec
  | @returns argument rest hstack =>
      rw [Notifying, hstack, List.count_cons_of_ne (by simp)] at h
      rw [Notifying]
      cases argument <;> simpa using h
  | call hstack hnext hcall hmove hentry => exact notifying_of_callEntry hstack hcall hmove hentry
  | callbackReturns hstack hmove =>
      cases EventLoop.moves_of_step hmove with
      | callbackReturns => exact notifying_of_count (by rw [hstack]; rfl) (by simp)
  | taskReturns hstack hmove =>
      cases EventLoop.moves_of_step hmove with
      | taskReturns => exact notifying_of_count (hreleases _) (by simp)
  | endIteration hstack hmove =>
      cases EventLoop.moves_of_step hmove with
      | endIteration => exact notifying_of_count (hreleases _) (by simp)
  | user hmay hcall => exact h.user (called_of_userCall hcall)

theorem reach_notifying {ok : World τ → Action τ → Prop} (h : machine.Reach ok w) :
    w.Notifying := by
  refine h.invariant Notifying ?_ fun _ _ _ _ hinv _ hstep => hinv.step hstep
  rintro _ ⟨thread, rfl⟩
  rfl

/-! ## Steps that are possible -/

/-- The loop thread takes a step of the loop unless it is inside `stop`. -/
theorem loopStep_ne_blocked {move : EventLoop.Action τ Task}
    {rest : World τ → Outcome (World τ) Fault} (hidle : w.loop.pthreadId ∉ w.loop.stopping)
    (hmove : w.loop.move move ≠ none) (hrest : ∀ w', rest w' ≠ .blocked) :
    w.loopStep move rest ≠ .blocked := by
  obtain ⟨loop, hloop⟩ := Option.ne_none_iff_exists'.mp hmove
  have hstep : w.loop.step move = some loop := by
    rw [EventLoop.step, if_neg fun h => hidle h.2, hloop]
  simp only [loopStep, hstep]
  exact hrest _

theorem loop_ne_blocked {move : EventLoop.Action τ Task} (hallows : w.Allows move)
    (hidle : w.loop.pthreadId ∉ w.loop.stopping) (hmove : w.loop.move move ≠ none) :
    w.step (.loop move) ≠ .blocked := by
  simp only [step, if_pos hallows]
  exact loopStep_ne_blocked hidle hmove (by simp)

theorem runJob_ne_blocked {entry : Option (Posted τ Task)} {job : Job}
    (hanswers : ∀ conn, Answers conn job) : w.runJob entry c job ≠ .blocked := by
  unfold runJob
  split
  · simp
  · rw [if_pos (hanswers _)]
    split <;> simp

theorem callEntry_ne_blocked (w : World τ) (entry : Posted τ Task) :
    w.callEntry entry ≠ .blocked := by
  unfold callEntry
  split
  · simp
  · rename_i c job htask
    refine runJob_ne_blocked fun conn => ?_
    have hisTask := isTask_of_taskJob htask
    cases job with
    | read n => cases hisTask
    | write n => cases hisTask
    | _ => trivial

theorem call_ne_blocked (hidle : w.loop.pthreadId ∉ w.loop.stopping) (hstack : w.stack = [])
    {entry : Posted τ Task} (hnext : w.loop.nextEntry = some entry) : w.step .call ≠ .blocked := by
  have hentry := hnext
  unfold EventLoop.nextEntry at hentry
  split at hentry
  · rename_i hphase
    obtain ⟨rest, hcallbacks⟩ := List.head?_eq_some_iff.mp hentry
    simp only [step, hstack, hnext, hphase]
    exact loopStep_ne_blocked hidle (by simp [EventLoop.move, hphase, hcallbacks])
      fun w' => callEntry_ne_blocked w' entry
  · rename_i hphase
    obtain ⟨rest, hqueue⟩ := List.head?_eq_some_iff.mp hentry
    simp only [step, hstack, hnext, hphase]
    exact loopStep_ne_blocked hidle (by simp [EventLoop.move, hphase, hqueue])
      fun w' => callEntry_ne_blocked w' entry
  · cases hentry

/-! ## Frames -/

/-- With 0 for the answer of the kernel every handler goes on. -/
theorem answers_of_frameJob {frame : Frame} {job : Job} (h : frameJob 0 frame = some (c, job))
    (conn : Connection) : Answers conn job := by
  cases frame with
  | events other readyOps =>
      simp only [frameJob] at h
      repeat' split at h
      all_goals
        cases h
        simp [Answers]
  | writable other readyOps =>
      simp only [frameJob] at h
      split at h <;> cases h <;> simp [Answers]
  | callForceClose other =>
      cases h
      trivial
  | _ => cases h

/-- The halves of `handle_events` are jobs whatever was reported. -/
theorem frameJob_ne_none (n : ℤ) (c : ConnId) (readyOps : UInt32) :
    frameJob n (.events c readyOps) ≠ none ∧ frameJob n (.writable c readyOps) ≠ none := by
  simp only [frameJob]
  constructor
  · repeat' split
    all_goals simp
  · split <;> simp

theorem exec_job_ne_blocked {frame : Frame} {rest : List Frame} (hstack : w.stack = frame :: rest)
    {job : Job} (hjob : frameJob 0 frame = some (c, job)) : w.exec 0 ≠ .blocked := by
  have hrun : { w with stack := frameRest frame ++ rest }.runJob none c job ≠ .blocked :=
    runJob_ne_blocked (answers_of_frameJob hjob)
  cases frame with
  | events other readyOps => simpa only [exec, hstack, hjob] using hrun
  | writable other readyOps => simpa only [exec, hstack, hjob] using hrun
  | callForceClose other => simpa only [exec, hstack, hjob] using hrun
  | _ => cases hjob

/-- The next frame can be run unless it is user code. -/
theorem exec_ne_blocked (h : w.Notifying) (hidle : w.loop.pthreadId ∉ w.loop.stopping)
    {frame : Frame} {rest : List Frame} (hstack : w.stack = frame :: rest)
    (hcode : ∀ argument, frame ≠ .inside argument) : w.exec 0 ≠ .blocked := by
  cases hjob : frameJob 0 frame with
  | some run => exact exec_job_ne_blocked hstack hjob
  | none =>
      cases frame with
      | inside argument => exact absurd rfl (hcode argument)
      | readNotify =>
          have hphase : w.loop.phase = .dispatching true := by
            by_contra hphase
            rw [Notifying, hstack, List.count_cons_self, if_neg hphase] at h
            omega
          simp only [exec, hstack]
          exact loopStep_ne_blocked hidle (by simp [EventLoop.move, hphase]) (by simp)
      | removeConnection other fd => simp [exec, hstack]
      | release other => simp [exec, hstack]
      | events other readyOps => exact absurd hjob (frameJob_ne_none 0 other readyOps).1
      | writable other readyOps => exact absurd hjob (frameJob_ne_none 0 other readyOps).2
      | callForceClose other => cases hjob

/-! ## The statements of `run` -/

/-- With no frame left, `run` itself goes on. -/
theorem run_ne_blocked (hqueues : w.loop.Queues) (h : w.Notifying)
    (hidle : w.loop.pthreadId ∉ w.loop.stopping) (hstack : w.stack = [])
    (hphase : w.loop.phase.busy = true ∨ w.loop.phase = .test) :
    ∃ action : Action τ, action.ofLoopThread = true ∧ w.step action ≠ .blocked := by
  have hallows : ∀ {move}, move = .testRunning ∨ move = .swapPending ∨ move = .endBatch →
      w.Allows move := by
    rintro _ (rfl | rfl | rfl) <;> exact hstack
  cases hat : w.loop.phase with
  | outside => simp [hat, Phase.busy] at hphase
  | waiting => simp [hat, Phase.busy] at hphase
  | test =>
      refine ⟨.loop .testRunning, rfl, loop_ne_blocked (hallows (Or.inl rfl)) hidle ?_⟩
      simp only [EventLoop.move, hat, if_true]
      split <;> simp
  | dispatching notify =>
      cases notify with
      | true => simp [Notifying, hstack, hat] at h
      | false =>
          exact ⟨.loop .swapPending, rfl, loop_ne_blocked (hallows (Or.inr (Or.inl rfl))) hidle
            (by simp [EventLoop.move, hat])⟩
  | batch calling =>
      cases calling with
      | true =>
          refine ⟨.callReturns, rfl, ?_⟩
          simp only [step, if_pos hstack, hat]
          exact loopStep_ne_blocked hidle (by simp [EventLoop.move, hat]) (by simp)
      | false =>
          cases hcallbacks : w.loop.callbacks with
          | nil =>
              exact ⟨.loop .endBatch, rfl, loop_ne_blocked (hallows (Or.inr (Or.inr rfl))) hidle
                (by simp [EventLoop.move, hat, hcallbacks])⟩
          | cons entry rest =>
              have hnext : w.loop.nextEntry = some entry := by
                simp [EventLoop.nextEntry, hat, hcallbacks]
              exact ⟨.call, rfl, call_ne_blocked hidle hstack hnext⟩
  | draining calling =>
      cases hqueue : w.loop.taskQueue with
      | nil =>
          cases calling with
          | true => exact absurd hqueue (hqueues.frontKept hat)
          | false =>
              refine ⟨.endIteration, rfl, ?_⟩
              simp only [step, if_pos hstack]
              exact loopStep_ne_blocked hidle (by simp [EventLoop.move, hat, hqueue]) (by simp)
      | cons entry rest =>
          cases calling with
          | true =>
              refine ⟨.callReturns, rfl, ?_⟩
              simp only [step, if_pos hstack, hat]
              exact loopStep_ne_blocked hidle (by simp [EventLoop.move, hat, hqueue]) (by simp)
          | false =>
              have hnext : w.loop.nextEntry = some entry := by
                simp [EventLoop.nextEntry, hat, hqueue]
              exact ⟨.call, rfl, call_ne_blocked hidle hstack hnext⟩

/-- **The loop thread is never stuck in an iteration.** It can take one of its own
steps, or write to the eventfd if it is inside `stop`. -/
theorem loop_thread_goes_on (h : machine.Reach Machine.anyStep w)
    (hphase : w.loop.phase.busy = true ∨ w.loop.phase = .test) :
    ∃ action : Action τ, (action.ofLoopThread = true ∨
      action = .loop (.stopNotify w.loop.pthreadId)) ∧ machine.step w action ≠ .blocked := by
  have hnotifying := reach_notifying h
  by_cases hidle : w.loop.pthreadId ∈ w.loop.stopping
  · refine ⟨_, Or.inr rfl, ?_⟩
    show w.step (.loop (.stopNotify w.loop.pthreadId)) ≠ .blocked
    simp [step, Allows, loopStep, EventLoop.step, EventLoop.Action.ofLoop, EventLoop.move, hidle]
  · cases hstack : w.stack with
    | nil =>
        obtain ⟨action, hown, hstep⟩ :=
          run_ne_blocked (reach_loop_queues h) hnotifying hidle hstack hphase
        exact ⟨action, Or.inl hown, hstep⟩
    | cons frame rest =>
        by_cases hcode : ∃ argument, frame = .inside argument
        · obtain ⟨argument, rfl⟩ := hcode
          refine ⟨.returns, Or.inl rfl, ?_⟩
          show w.step .returns ≠ .blocked
          cases argument <;> simp [step, hidle, hstack]
        · refine ⟨.exec 0, Or.inl rfl, ?_⟩
          show w.step (.exec 0) ≠ .blocked
          simp only [step, if_neg hidle]
          exact exec_ne_blocked hnotifying hidle hstack fun argument heq => hcode ⟨argument, heq⟩

end World

end Mutiplex
