/-
# The work of one iteration

`run` calls handlers, the swapped callbacks and the tasks of a queue that may
grow while it is drained.  What keeps it from going on for ever is that the code
of a connection posts little: a handler or a task posts one `close` or
`force_close` at most, and these post nothing.  `World.work` is a potential that
pays for every step of the loop thread; it bounds an iteration by what
`epoll_wait` reported, what was queued, and what user code posts or registers
meanwhile.  Since the loop thread can always go on, the iteration ends.
-/

import Mutiplex.Connection.Progress
import Mutiplex.Connection.Reclaim
import Mutiplex.Lib.Potential

namespace Mutiplex

open CMemory Transition

variable {τ : Type} [DecidableEq τ]

/-! ## The loop -/

/-- The steps of `run` itself that a phase leaves in the iteration. -/
def Phase.work : Phase → ℕ
  | .outside => 0
  | .waiting => 0
  | .test => 1
  | .draining false => 2
  | .draining true => 4
  | .batch false => 3
  | .batch true => 4
  | .dispatching _ => 4

namespace EventLoop

variable {κ : Type} {s s' : EventLoop τ κ} {action : Action τ κ}

/-- The steps of `run` itself to come, and of the callbacks that it ran to be
destroyed. -/
def overhead (s : EventLoop τ κ) : ℕ := s.ran.length + s.phase.work

/-- What the callbacks that wait will take. -/
def waiting (weight : κ → ℕ) (s : EventLoop τ κ) : ℕ :=
  (s.unexecuted.map fun entry => weight entry.callback).sum

theorem waiting_move (weight : κ → ℕ) (h : s.Queues) (hmove : s.move action = some s')
    (hpost : action.isPost = false) (hcall : action.isCall = false) :
    s'.waiting weight = s.waiting weight := by
  rcases tasks_move h hmove hpost with ⟨_, hcalled, -⟩ | ⟨-, hlocal, hforeign⟩
  · cases hcall.symm.trans hcalled
  · rw [waiting, waiting, unexecuted, unexecuted, hlocal, hforeign]

theorem waiting_of_call (weight : κ → ℕ) (h : s.Queues) (hmove : s.move action = some s')
    (hpost : action.isPost = false) (hcall : action.isCall = true) :
    ∃ entry, s.nextEntry = some entry ∧
      s'.waiting weight + weight entry.callback = s.waiting weight := by
  rcases tasks_move h hmove hpost with ⟨entry, -, hnext, htasks⟩ | ⟨hnot, -⟩
  · refine ⟨entry, hnext, ?_⟩
    rcases htasks with ⟨hlocal, hforeign⟩ | ⟨hlocal, hforeign⟩ <;>
      simp only [waiting, unexecuted, hlocal, hforeign, List.map_append, List.sum_append,
        List.map_cons, List.sum_cons] <;>
      omega
  · cases hcall.symm.trans hnot

theorem waiting_postCallback (weight : κ → ℕ) (h : s.Queues) (thread : τ) (callback : κ) :
    (s.postCallback thread callback).waiting weight = s.waiting weight + weight callback := by
  rcases tasks_postCallback h.frontKept thread callback with
    ⟨-, hlocal, hforeign⟩ | ⟨-, hlocal, hforeign⟩ <;>
    simp only [waiting, unexecuted, hlocal, hforeign, List.map_append, List.sum_append,
      List.map_cons, List.sum_cons, List.map_nil, List.sum_nil, entry] <;>
    omega

omit [DecidableEq τ] in
theorem waiting_le (weight : κ → ℕ) (bound : ℕ) (hle : ∀ callback, weight callback ≤ bound)
    (s : EventLoop τ κ) : s.waiting weight ≤ bound * s.unexecuted.length := by
  have hsum : (s.unexecuted.map fun entry => weight entry.callback).sum ≤
      (s.unexecuted.map fun entry => weight entry.callback).length • bound := by
    refine List.sum_le_card_nsmul _ _ fun n hn => ?_
    obtain ⟨entry, -, rfl⟩ := List.mem_map.mp hn
    exact hle entry.callback
  rw [List.length_map, smul_eq_mul, mul_comm] at hsum
  exact hsum

theorem overhead_postCallback (thread : τ) (callback : κ) :
    (s.postCallback thread callback).overhead = s.overhead := by
  unfold postCallback
  split <;> rfl

end EventLoop

/-! ## Tasks, jobs and frames -/

/-- The steps of a task, from its call to the end of its captures. -/
def Task.work (task : Task) : ℕ := if task.isWrite then 10 else 7

theorem Task.seven_le_work (task : Task) : 7 ≤ task.work := by
  unfold Task.work
  split <;> omega

theorem Task.work_le (task : Task) : task.work ≤ 10 := by
  unfold Task.work
  split <;> omega

/-- The steps a job leaves to do. -/
def Job.work : Job → ℕ
  | .skip => 0
  | .error => 7
  | .read _ => 10
  | .write _ => 9
  | .callForceClose => 7
  | .close => 4
  | .forceClose => 4
  | .doWrite _ => 7

/-- The steps of a frame. -/
def Frame.work : Frame → ℕ
  | .events .. => 21
  | .writable .. => 10
  | .readNotify => 1
  | .inside none => 1
  | .inside (some _) => 2
  | .callForceClose _ => 8
  | .removeConnection .. => 2
  | .release _ => 1

theorem Frame.work_le (frame : Frame) : frame.work ≤ 21 := by
  cases frame with
  | inside argument => cases argument <;> simp [Frame.work]
  | _ => simp [Frame.work]

/-- The steps of a stack. -/
def stackWork (stack : List Frame) : ℕ := (stack.map Frame.work).sum

@[simp]
theorem stackWork_nil : stackWork [] = 0 := rfl

@[simp]
theorem stackWork_cons (frame : Frame) (rest : List Frame) :
    stackWork (frame :: rest) = frame.work + stackWork rest := by
  simp [stackWork]

@[simp]
theorem stackWork_append (stack rest : List Frame) :
    stackWork (stack ++ rest) = stackWork stack + stackWork rest := by
  simp [stackWork]

theorem stackWork_of_isRelease {stack : List Frame}
    (h : ∀ frame ∈ stack, frame.isRelease = true) : stackWork stack = stack.length := by
  induction stack with
  | nil => rfl
  | cons frame rest ih =>
      have hframe : frame.work = 1 := by
        have hrelease := h frame List.mem_cons_self
        cases frame <;> first | rfl | cases hrelease
      rw [stackWork_cons, hframe, ih fun other hother => h other (List.mem_cons_of_mem _ hother),
        List.length_cons, Nat.add_comm]

/-- The call of a user callback, if there is one. -/
theorem stackWork_called_le (called : Option UserCallback) (c : ConnId) :
    stackWork (called.map fun _ => Frame.inside (some c)).toList ≤ 2 := by
  cases called <;> simp [Frame.work]

/-- What a job calls, leaves and posts is what it may. -/
theorem Connection.Ran.work {conn : Connection} {c : ConnId} {table : Epoll ConnId}
    {registered : Bool} {job : Job} {effect : Effect}
    (h : conn.Ran c table registered job effect) :
    stackWork (effect.called.map fun _ => Frame.inside (some c)).toList +
      stackWork effect.after + (effect.post.map Task.work).getD 0 ≤ job.work := by
  cases h with
  | readFails =>
      have hcalled := stackWork_called_le (conn.userCallback .error) c
      simp only [idle, stackWork_cons, stackWork_nil, Frame.work, Job.work, Option.map_none,
        Option.getD_none]
      omega
  | reads =>
      have hcalled := stackWork_called_le (conn.userCallback .read) c
      simp only [idle, stackWork_nil, Job.work, Option.map_none, Option.getD_none]
      omega
  | writeFails =>
      have hcalled := stackWork_called_le (conn.userCallback .error) c
      simp only [idle, stackWork_nil, Job.work, Option.map_some, Option.getD_some, Task.work,
        Task.isWrite, Bool.false_eq_true, if_false]
      exact Nat.add_le_add_right hcalled 7
  | closes =>
      have hcalled := stackWork_called_le (conn.userCallback .closed) c
      simp only [idle, stackWork_cons, stackWork_nil, Frame.work, Job.work, Option.map_none,
        Option.getD_none]
      omega
  | forceCloses =>
      have hcalled := stackWork_called_le (conn.userCallback .closed) c
      cases registered with
      | true =>
          simp only [idle, if_true, stackWork_cons, stackWork_nil, Frame.work, Job.work,
            Option.map_none, Option.getD_none]
          omega
      | false => simp [idle]
  | _ => simp [idle, errorCallback, withSource, Task.work, Task.isWrite, Job.work]

namespace World

variable {w w' : World τ} {action : Action τ} {c : ConnId}

/-- A frame pays for its job and for what is left of it. -/
theorem work_of_frameJob {n : ℤ} {frame : Frame} {job : Job}
    (h : frameJob n frame = some (c, job)) :
    1 + job.work + stackWork (frameRest frame) ≤ frame.work := by
  cases frame with
  | events other readyOps =>
      simp only [frameJob] at h
      simp only [frameRest]
      split at h
      · rename_i herr
        cases h
        simp [herr, Job.work, Frame.work]
      · rename_i herr
        split at h <;>
          · cases h
            simp [herr, Job.work, Frame.work]
  | writable other readyOps =>
      simp only [frameJob] at h
      split at h <;>
        · cases h
          simp [frameRest, Job.work, Frame.work]
  | callForceClose other =>
      cases h
      simp [frameRest, Job.work, Frame.work]
  | _ => cases h

omit [DecidableEq τ] in
/-- A task pays for its call, its job, its return and the end of its capture. -/
theorem work_of_taskJob {task : Task} {job : Job} (h : w.taskJob task = some (c, job)) :
    job.work + 3 ≤ task.work := by
  cases task <;> cases h <;> simp [Job.work, Task.work, Task.isWrite]

/-! ## The potential -/

/-- The steps of the loop thread that are paid for. -/
def work (w : World τ) : ℕ :=
  w.loop.waiting Task.work + w.loop.overhead + stackWork w.stack

theorem work_apply {conn : Connection} {table : Epoll ConnId} {registered : Bool}
    {entry : Option (Posted τ Task)} {job : Job} {found : ConnState} {effect : Effect}
    (hqueues : w.loop.Queues) (hran : conn.Ran c table registered job effect) :
    (w.apply entry c job found effect).work ≤ w.work + job.work := by
  have hwork := hran.work
  have hstack : stackWork (w.apply entry c job found effect).stack =
      stackWork (effect.called.map fun _ => Frame.inside (some c)).toList +
        stackWork effect.after + stackWork w.stack := by
    simp [World.apply, Nat.add_assoc]
  have hloop : (w.apply entry c job found effect).loop.waiting Task.work =
        w.loop.waiting Task.work + (effect.post.map Task.work).getD 0 ∧
      (w.apply entry c job found effect).loop.overhead = w.loop.overhead := by
    cases hpost : effect.post with
    | none => simp [World.apply, hpost]
    | some task =>
        simp only [World.apply, hpost]
        exact ⟨EventLoop.waiting_postCallback _ hqueues _ _, EventLoop.overhead_postCallback _ _⟩
  rw [World.work, World.work, hstack, hloop.1, hloop.2]
  omega

/-- User code calls `on_new_connection`. -/
def Action.registers : Action τ → Bool
  | .user _ (.onNewConnection ..) => true
  | _ => false

/-- A call of user code posts a callback or a task; a `write` may be refused. -/
def adds (w : World τ) : Action τ → Bool
  | .user thread call =>
      match w.step (.user thread call) with
      | .next w' => w.loop.posted.length < w'.loop.posted.length
      | _ => false
  | _ => false

/-- From `epoll_wait` to the next test of `running_`. -/
def InIteration (w : World τ) (_ : Action τ) : Prop :=
  w.loop.phase.busy = true ∨ w.loop.phase = .test

instance : DecidableRel (InIteration : World τ → Action τ → Prop) :=
  fun w _ => inferInstanceAs (Decidable (w.loop.phase.busy = true ∨ w.loop.phase = .test))

/-- A step of the loop that calls and posts nothing. -/
theorem work_loopStep {move : EventLoop.Action τ Task} {loop : EventLoop τ Task}
    {stack : List Frame} (hqueues : w.loop.Queues) (hstep : w.loop.step move = some loop)
    (hpost : move.isPost = false) (hcall : move.isCall = false) {cost : ℕ}
    (hpays : cost + loop.overhead + stackWork stack ≤ w.loop.overhead + stackWork w.stack) :
    cost + { w with loop := loop, stack := stack }.work ≤ w.work := by
  have hwaiting := EventLoop.waiting_move Task.work hqueues (EventLoop.move_of_step hstep) hpost
    hcall
  simp only [World.work, hwaiting]
  omega

theorem work_runJob {entry : Option (Posted τ Task)} {job : Job} (hqueues : w.loop.Queues)
    (h : w.runJob entry c job = .next w') : w'.work ≤ w.work + job.work := by
  obtain ⟨conn, effect, -, -, hran, rfl⟩ := runJob_eq_next h
  exact work_apply hqueues hran

theorem work_exec {n : ℤ} (hqueues : w.loop.Queues) (h : w.exec n = .next w') :
    1 + w'.work ≤ w.work := by
  have hwork : ∀ {frame : Frame} {rest : List Frame}, w.stack = frame :: rest → w.work =
      w.loop.waiting Task.work + w.loop.overhead + (frame.work + stackWork rest) := by
    intro frame rest hstack
    rw [World.work, hstack, stackWork_cons]
  cases executed_of_exec h with
  | readNotify hstack hmove =>
      refine work_loopStep hqueues hmove rfl rfl ?_
      cases EventLoop.moves_of_step hmove with
      | readNotify hphase =>
          simp only [EventLoop.overhead, hphase, Phase.work, hstack, stackWork_cons, Frame.work]
          omega
  | removeConnection hstack =>
      rw [hwork hstack]
      unfold removeConnection
      split <;> simp only [World.work, stackWork_cons, Frame.work] <;> omega
  | release hstack =>
      rw [hwork hstack]
      simp only [World.work, loop_release, stack_release, Frame.work]
      omega
  | @job frame rest c job _ hstack hjob hrun =>
      have hpays := work_of_frameJob hjob
      have hran := work_runJob (w := { w with stack := frameRest frame ++ rest }) hqueues hrun
      rw [hwork hstack]
      simp only [World.work, stackWork_append] at hran ⊢
      omega

theorem work_callEntry {move : EventLoop.Action τ Task} {entry : Posted τ Task}
    (hqueues : w.loop.Queues) (hnext : w.loop.nextEntry = some entry) (hempty : w.stack = [])
    (hcall : move.isCall = true) {loop : EventLoop τ Task} (hstep : w.loop.step move = some loop)
    (hrest : { w with loop := loop }.callEntry entry = .next w') : 1 + w'.work ≤ w.work := by
  have hmove := EventLoop.move_of_step hstep
  obtain ⟨entry', hnext', hwaiting⟩ :=
    EventLoop.waiting_of_call Task.work hqueues hmove (isPost_of_isCall hcall) hcall
  cases hnext.symm.trans hnext'
  have hoverhead : loop.overhead = w.loop.overhead + 2 := by
    cases EventLoop.moves_of_move hmove with
    | callCallback hphase =>
        simp only [EventLoop.overhead, hphase, Phase.work, List.length_append, List.length_cons,
          List.length_nil]
    | callTask hphase => simp only [EventLoop.overhead, hphase, Phase.work]
    | _ => cases hcall
  have hseven := Task.seven_le_work entry.callback
  unfold callEntry at hrest
  split at hrest
  · cases hrest
    simp only [World.work, hempty, hoverhead, stackWork_cons, stackWork_nil, Frame.work]
    omega
  · rename_i htask
    have hran := work_runJob (w := { w with loop := loop }) (hqueues.move hmove) hrest
    have hpays := work_of_taskJob htask
    simp only [World.work, hempty, hoverhead, stackWork_nil] at hran ⊢
    omega

omit [DecidableEq τ] in
theorem length_releases_le (entries : List (Posted τ Task)) :
    (releases entries).length ≤ entries.length := by
  rw [releases, List.length_map]
  exact List.length_filterMap_le _ _

theorem work_post (hqueues : w.loop.Queues) (thread : τ) (task : Task) :
    (w.post thread task).work ≤ w.work + 10 := by
  have hwaiting := EventLoop.waiting_postCallback Task.work hqueues thread task
  have hle := Task.work_le task
  simp only [World.work, post, hwaiting, EventLoop.overhead_postCallback]
  omega

/-- A call of user code adds the work of the task it posts, or of the callback of
a new connection and of the entry that makes room for it. -/
theorem work_userCall {thread : τ} {call : Call} (hqueues : w.loop.Queues)
    (hmay : w.MayCall thread) (h : w.userCall thread call = .next w') :
    w'.work ≤ w.work + ((if w.adds (.user thread call) then 10 else 0) +
      if (Action.user thread call).registers then 3 else 0) := by
  have hstep : w.step (.user thread call) = .next w' := by simp only [step, if_pos hmay, h]
  cases called_of_userCall h with
  | @posts _ task htask hpointer hopen =>
      have hadds : w.adds (.user thread call) = true := by
        simp only [adds, hstep]
        simp [post, EventLoop.posted_postCallback]
      rw [hadds, if_pos rfl]
      exact Nat.le_trans (work_post hqueues thread task)
        (Nat.add_le_add_left (Nat.le_add_right _ _) _)
  | drop hheld =>
      simp only [World.work, loop_release, stack_release]
      omega
  | @onNewConnection fd callbacks hthread =>
      have hcalled := stackWork_called_le
        ((Connection.registerEvent fd callbacks w.nextId w.epoll).1.userCallback .established)
        w.nextId
      have hold : stackWork ((w.connections.lookup fd).map Frame.release).toList ≤ 1 := by
        cases w.connections.lookup fd <;> simp [Frame.work]
      simp only [World.work, onNewConnection, stackWork_append, Action.registers, if_true]
      omega
  | _ => exact Nat.le_add_right _ _

theorem work_allowed (hqueues : w.loop.Queues) {move : EventLoop.Action τ Task}
    {loop : EventLoop τ Task} (hok : w.InIteration (.loop move)) (hallows : w.Allows move)
    (hmove : w.loop.step move = some loop) :
    (if (Action.loop move).ofLoopThread then 1 else 0) + { w with loop := loop }.work ≤ w.work := by
  have hpost : move.isPost = false := by
    cases move <;> simp_all [Allows, EventLoop.Action.isPost]
  have hcall : move.isCall = false := by
    cases move <;> simp_all [Allows, EventLoop.Action.isCall]
  refine work_loopStep hqueues hmove hpost hcall ?_
  cases EventLoop.moves_of_step hmove with
  | goOn hphase =>
      simp [EventLoop.overhead, hphase, Phase.work, Action.ofLoopThread]
      omega
  | leave hphase =>
      simp [EventLoop.overhead, hphase, Phase.work, Action.ofLoopThread]
      omega
  | swapPending hphase =>
      simp [EventLoop.overhead, hphase, Phase.work, Action.ofLoopThread]
      omega
  | endBatch hphase =>
      simp [EventLoop.overhead, hphase, Phase.work, Action.ofLoopThread]
      omega
  | stopFlag => simp [EventLoop.overhead, Action.ofLoopThread]
  | stopNotify => simp [EventLoop.overhead, Action.ofLoopThread, EventLoop.notifyEvent]
  | enterRun hphase => simp [InIteration, hphase, Phase.busy] at hok
  | waitFails hphase => simp [InIteration, hphase, Phase.busy] at hok
  | _ => cases hallows

/-- **A step in an iteration is paid for by the work to do or by a call.** -/
theorem work_step (hqueues : w.loop.Queues) (hok : w.InIteration action)
    (h : w.step action = .next w') :
    (if action.ofLoopThread then 1 else 0) + w'.work ≤
      w.work + ((if w.adds action then 10 else 0) + if action.registers then 3 else 0) := by
  cases branch_of_step h with
  | loop hallows hmove => exact Nat.le_add_right_of_le (work_allowed hqueues hok hallows hmove)
  | epollWait hempty hreports hmove =>
      cases EventLoop.moves_of_step hmove with
      | waitReturns hphase => simp [InIteration, hphase, Phase.busy] at hok
  | exec hidle hexec =>
      simpa [Action.ofLoopThread, adds, Action.registers] using work_exec hqueues hexec
  | @returns argument rest hstack =>
      cases argument <;>
        simp only [Action.ofLoopThread, World.work, hstack, stackWork_cons, stackWork_append,
          Option.map_none, Option.map_some, Option.toList_none, Option.toList_some, stackWork_nil,
          Frame.work, if_true] <;>
        omega
  | call hempty hnext hcall hmove hentry =>
      simpa [Action.ofLoopThread, adds, Action.registers] using
        work_callEntry hqueues hnext hempty hcall hmove hentry
  | callbackReturns hempty hmove =>
      refine Nat.le_add_right_of_le (work_loopStep hqueues hmove rfl rfl ?_)
      cases EventLoop.moves_of_step hmove with
      | callbackReturns hphase =>
          simp only [EventLoop.overhead, hphase, Phase.work, Action.ofLoopThread, if_true]
          omega
  | taskReturns hempty hmove =>
      refine Nat.le_add_right_of_le (work_loopStep hqueues hmove rfl rfl ?_)
      have hlength := length_releases_le (w.loop.taskQueue.take 1)
      have hone := List.length_take_le 1 w.loop.taskQueue
      cases EventLoop.moves_of_step hmove with
      | taskReturns hphase hqueue =>
          simp only [EventLoop.overhead, hphase, Phase.work, hempty, stackWork_nil,
            stackWork_of_isRelease fun _ => isRelease_of_releases, Action.ofLoopThread, if_true]
          omega
  | endIteration hempty hmove =>
      refine Nat.le_add_right_of_le (work_loopStep hqueues hmove rfl rfl ?_)
      have hlength := length_releases_le w.loop.ran
      cases EventLoop.moves_of_step hmove with
      | endIteration hphase hqueue =>
          simp only [EventLoop.overhead, hphase, Phase.work, hempty, stackWork_nil,
            stackWork_of_isRelease fun _ => isRelease_of_releases, List.length_nil,
            Action.ofLoopThread, if_true]
          omega
  | user hmay hcall =>
      exact (Nat.zero_add _).trans_le (work_userCall hqueues hmay hcall)

/-! ## An iteration -/

omit [DecidableEq τ] in
theorem stackWork_readyFrames_le (events : List Ready) :
    stackWork (events.filterMap w.readyFrame) ≤ 21 * events.length := by
  induction events with
  | nil => exact Nat.le_refl 0
  | cons event rest ih =>
      rw [List.length_cons]
      cases hframe : w.readyFrame event with
      | none =>
          rw [List.filterMap_cons_none hframe]
          omega
      | some frame =>
          rw [List.filterMap_cons_some hframe, stackWork_cons]
          have hle := frame.work_le
          omega

/-- What an iteration starts with. -/
theorem work_epollWait {events : List Ready} (h : machine.Reach Machine.anyStep w)
    (hwait : w.step (.epollWait events) = .next w') :
    w'.work ≤ 21 * events.length + 10 * w.loop.unexecuted.length + 4 := by
  have hinside := EventLoop.reach_ranInside (reach_loop h).2
  have hwaiting := EventLoop.waiting_le Task.work 10 Task.work_le w.loop
  have hframes := stackWork_readyFrames_le (w := w) events
  simp only [step] at hwait
  split at hwait
  · obtain ⟨loop, hstep, hrest⟩ := loopStep_eq_next hwait
    cases hrest
    have hsame := EventLoop.waiting_move Task.work (reach_loop_queues h)
      (EventLoop.move_of_step hstep) rfl rfl
    have hoverhead : loop.overhead = 4 := by
      cases EventLoop.moves_of_step hstep with
      | waitReturns hphase =>
          have hran : w.loop.ran = [] := by
            by_contra hne
            rcases hinside hne with ⟨_, hbatch⟩ | ⟨_, hdraining⟩
            · cases hphase.symm.trans hbatch
            · cases hphase.symm.trans hdraining
          simp only [EventLoop.overhead, hran, List.length_nil, Phase.work]
    rw [World.work, hsame, hoverhead]
    exact Nat.le_trans (Nat.add_le_add (Nat.add_le_add_right hwaiting 4) hframes) (by omega)
  · cases hwait

/-- **An iteration of `run` ends.** Whatever `epoll_wait` reported, and however
the threads interleave, the loop thread takes a number of steps of its own that
is bounded by the events reported, by the callbacks and tasks that wait, by those
that user code posts in the meantime and by its calls of `on_new_connection`; what
the connections post themselves is already counted.  And until the iteration is
over the loop thread can go on. -/
theorem iteration_work_is_bounded {waited later : World τ} {events : List Ready}
    {actions : List (Action τ)} (h : machine.Reach Machine.anyStep w)
    (hwait : w.step (.epollWait events) = .next waited)
    (htrace : machine.Trace InIteration waited actions later) :
    actions.countP Action.ofLoopThread ≤
        21 * events.length +
          10 * (w.loop.unexecuted.length + machine.count adds waited actions) +
          3 * actions.countP Action.registers + 4 ∧
      (later.loop.phase.busy = true ∨ later.loop.phase = .test →
        ∃ action : Action τ, (action.ofLoopThread = true ∨
          action = .loop (.stopNotify later.loop.pthreadId)) ∧
          machine.step later action ≠ .blocked) := by
  have hstep : machine.step w (.epollWait events) = .next waited := hwait
  have hreach : machine.Reach Machine.anyStep waited := h.step trivial hstep
  refine ⟨?_, fun hphase => loop_thread_goes_on (htrace.reach hreach) hphase⟩
  have hpaid := htrace.paid_total (machine.Reach Machine.anyStep) World.work
    (fun _ action => if action.ofLoopThread then 1 else 0)
    (fun w action => (if w.adds action then 10 else 0) + if action.registers then 3 else 0)
    (fun _ _ _ hreach hok hstep =>
      ⟨hreach.step trivial hstep, work_step (reach_loop_queues hreach) hok hstep⟩) hreach
  have hstart := work_epollWait h hwait
  have hcost := (htrace.total_eq fun action => if action.ofLoopThread then 1 else 0).trans
    (sum_price Action.ofLoopThread 1 actions)
  have hregisters := (htrace.total_eq fun action => if action.registers then 3 else 0).trans
    (sum_price Action.registers 3 actions)
  rw [Machine.total_add, hcost, hregisters, Machine.total_price] at hpaid
  omega

/-- An iteration that reads, answers, closes and registers; a `write` after that is
refused, and the loop thread is still to return from a task. -/
theorem iteration_work_is_bounded_of_answer :
    ∃ (waited later : World ℕ) (actions : List (Action ℕ)),
      machine.Reach Machine.anyStep waited ∧
      machine.Trace InIteration waited actions later ∧
      machine.count adds waited actions = 2 ∧ actions.countP Action.registers = 1 ∧
      actions.countP Action.ofLoopThread ≤ 48 ∧
      ∃ action : Action ℕ, (action.ofLoopThread = true ∨
        action = .loop (.stopNotify later.loop.pthreadId)) ∧
        machine.step later action ≠ .blocked := by
  have hnew : machine.Reach Machine.anyStep (new 0 : World ℕ) := .init ⟨0, rfl⟩
  obtain ⟨actions, hactions⟩ : ∃ actions : List (Action ℕ), actions =
      [.exec 3, .user 0 (.writeData 0 [7, 8]), .user 0 (.close 0),
        .user 0 (.onNewConnection 6 ⟨true, true, true, false⟩), .returns, .exec 0, .returns,
        .exec 0, .exec 0, .loop .swapPending, .loop .endBatch, .call, .callReturns, .call,
        .user 1 (.writeData 0 [9])] := ⟨_, rfl⟩
  obtain ⟨w, hreach, hnone, hleads⟩ := hnew.exists_of_leads
    [.user 0 (.allocateReceiveBuffer 4096), .loop (.enterRun 0), .loop .testRunning,
      .epollWait [.other], .user 0 (.onNewConnection 5 ⟨true, true, true, false⟩), .returns,
      .exec 0, .returns, .loop .swapPending, .loop .endBatch, .endIteration, .loop .testRunning]
    (P := fun w => w.loop.unexecuted.length = 0 ∧
      (w.step (.epollWait [.source 5 1])).Leads fun waited =>
        machine.count adds waited actions = 2 ∧
        (machine.runWithin InIteration waited actions).Leads fun later =>
          later.loop.phase = .draining true)
    (by rw [hactions]; decide)
  obtain ⟨waited, hwait, hadds, hleads⟩ := Outcome.leads_iff.mp hleads
  obtain ⟨later, htrace, hphase⟩ := Machine.exists_trace_of_leads actions hleads
  have hstep : machine.step w (.epollWait [.source 5 1]) = .next waited := hwait
  have hregisters : actions.countP Action.registers = 1 := by
    rw [hactions]
    rfl
  obtain ⟨hbounded, hgoes⟩ := iteration_work_is_bounded hreach hwait htrace
  rw [hnone, hadds, hregisters] at hbounded
  exact ⟨waited, later, actions, hreach.step trivial hstep, htrace, hadds, hregisters, hbounded,
    hgoes (Or.inl (by rw [hphase]; rfl))⟩

end World

end Mutiplex
