/-
# The event loop and its two queues

A callback posted on the loop's own thread goes to `task_queue_`; one posted by
any other thread goes to `pending_callbacks_` under the mutex, and the eventfd
is written so that `epoll_wait` returns.  Every iteration of `run` waits,
handles the reported events, swaps the pending callbacks out and runs them, and
drains the task queue, which may grow meanwhile and whose front is popped only
after its call returned.

The loop thread is cut into steps at every point where another thread can see
the difference.  What a callback or an event handler does on the loop is
reduced to the posts and stops it makes, so the results hold for any callbacks.
The fields after `phase` record the past and are read by no step.
-/

import Mathlib.Data.Nat.Notation
import Mutiplex.Lib.Transition

namespace Mutiplex

open Transition

/-- A callback in a queue: who posted it, as which of all posts, whether that
was on the loop thread, and the callback itself. -/
structure Posted (τ κ : Type) where
  thread : τ
  ticket : ℕ
  onLoop : Bool
  callback : κ
  deriving DecidableEq, Repr

/-- Where the loop thread is in `run`. -/
inductive Phase
  | /-- Not inside `run`. -/
    outside
  | /-- At `while (running_)`. -/
    test
  | /-- Inside `epoll_wait`. -/
    waiting
  | /-- Handling the reported events; `notify` while `notify_event_` is one of
    those still to come. -/
    dispatching (notify : Bool)
  | /-- In the loop over the swapped callbacks, inside a call or between two. -/
    batch (calling : Bool)
  | /-- In the loop over the task queue, inside a call or between two. -/
    draining (calling : Bool)
  deriving DecidableEq, Repr

/-- The loop thread runs code that may call back into the loop. -/
def Phase.userCode : Phase → Bool
  | .outside => true
  | .dispatching _ => true
  | .batch calling => calling
  | .draining calling => calling
  | _ => false

/-- The members of `EventLoop` that scheduling reads and writes.  The local
vector `callbacks` of `run` is split at the loop index into `ran` and
`callbacks`. -/
structure EventLoop (τ κ : Type) where
  pthreadId : τ
  running : Bool
  notifyCount : ℕ
  pendingCallbacks : List (Posted τ κ)
  taskQueue : List (Posted τ κ)
  ran : List (Posted τ κ)
  callbacks : List (Posted τ κ)
  phase : Phase
  stopping : List τ
  stopped : Bool
  iteration : ℕ
  posted : List (Posted τ κ)
  executed : List (Posted τ κ)

namespace EventLoop

variable {τ κ : Type} [DecidableEq τ]

/-- The constructor, run by `thread`. -/
def new (thread : τ) : EventLoop τ κ where
  pthreadId := thread
  running := true
  notifyCount := 0
  pendingCallbacks := []
  taskQueue := []
  ran := []
  callbacks := []
  phase := .outside
  stopping := []
  stopped := false
  iteration := 0
  posted := []
  executed := []

/-- `eventfd_write` of 1: the counter stops at its maximum 2^64 - 2. -/
def eventfdWrite (count : ℕ) : ℕ :=
  if count + 1 ≤ 0xfffffffffffffffe then count + 1 else count

variable (s : EventLoop τ κ)

/-- `notify_event`. -/
def notifyEvent : EventLoop τ κ := { s with notifyCount := eventfdWrite s.notifyCount }

/-- The queue entry of a callback posted now by `thread`. -/
def entry (thread : τ) (callback : κ) : Posted τ κ where
  thread := thread
  ticket := s.posted.length
  onLoop := s.pthreadId = thread
  callback := callback

/-- `post_callback`, called by `thread`; the locked section is one step. -/
def postCallback (thread : τ) (callback : κ) : EventLoop τ κ :=
  if s.pthreadId = thread then
    { s with
      taskQueue := s.taskQueue ++ [s.entry thread callback]
      posted := s.posted ++ [s.entry thread callback] }
  else
    { s.notifyEvent with
      pendingCallbacks := s.pendingCallbacks ++ [s.entry thread callback]
      posted := s.posted ++ [s.entry thread callback] }

/-- The tasks of `task_queue_` that were not called yet: the one being called
stays at the front of the queue until it returns. -/
def localTasks : List (Posted τ κ) :=
  if s.phase = .draining true then s.taskQueue.tail else s.taskQueue

/-- The foreign callbacks that were not called yet. -/
def foreignTasks : List (Posted τ κ) := s.callbacks ++ s.pendingCallbacks

/-- All callbacks that were not called yet. -/
def unexecuted : List (Posted τ κ) := s.localTasks ++ s.foreignTasks

/-- All that is in one of the vectors of the loop, called already or not. -/
def entries : List (Posted τ κ) :=
  s.pendingCallbacks ++ s.callbacks ++ s.ran ++ s.taskQueue

/-- The callback the loop thread calls next. -/
def nextEntry : Option (Posted τ κ) :=
  match s.phase with
  | .batch false => s.callbacks.head?
  | .draining false => s.taskQueue.head?
  | _ => none

/-- A thread can call into the loop: any other thread at any time, the loop
thread while it runs user code, and neither in the middle of `stop`. -/
def MayCall (thread : τ) : Prop :=
  thread ∉ s.stopping ∧ (thread ≠ s.pthreadId ∨ s.phase.userCode = true)

instance (thread : τ) : Decidable (s.MayCall thread) :=
  inferInstanceAs (Decidable (_ ∧ _))

/-- One step of the loop thread or of a thread that calls into the loop. -/
inductive Action (τ κ : Type)
  | enterRun (thread : τ)
  | testRunning
  | /-- `epoll_wait` returns: with -1, or with events of which `notify_event_` is
    one or not. -/
    epollWait (reported : Option Bool)
  | readNotify
  | swapPending
  | callCallback
  | callbackReturns
  | endBatch
  | callTask
  | taskReturns
  | endIteration
  | post (thread : τ) (callback : κ)
  | /-- The first statement of `stop`. -/
    stopFlag (thread : τ)
  | /-- The second statement of `stop`. -/
    stopNotify (thread : τ)

/-- The steps the loop thread takes inside `run`. -/
def Action.ofLoop : Action τ κ → Bool
  | .enterRun _ => false
  | .post .. => false
  | .stopFlag _ => false
  | .stopNotify _ => false
  | _ => true

/-- The steps that begin a callback. -/
def Action.isCall : Action τ κ → Bool
  | .callCallback => true
  | .callTask => true
  | _ => false

/-- The step that adds to a queue. -/
def Action.isPost : Action τ κ → Bool
  | .post .. => true
  | _ => false

/-- What a step does when it is possible. -/
def move : Action τ κ → Option (EventLoop τ κ)
  | .enterRun thread =>
      if s.phase = .outside ∧ thread ∉ s.stopping then
        some { s with pthreadId := thread, phase := .test, iteration := 0 }
      else none
  | .testRunning =>
      if s.phase = .test then
        if s.running then some { s with phase := .waiting, iteration := s.iteration + 1 }
        else some { s with phase := .outside }
      else none
  | .epollWait none =>
      if s.phase = .waiting then some { s with phase := .outside } else none
  | .epollWait (some notify) =>
      if s.phase = .waiting ∧ (notify = true → s.notifyCount ≠ 0) then
        some { s with phase := .dispatching notify }
      else none
  | .readNotify =>
      if s.phase = .dispatching true then
        some { s with notifyCount := 0, phase := .dispatching false }
      else none
  | .swapPending =>
      if s.phase = .dispatching false then
        some { s with
          callbacks := s.pendingCallbacks, pendingCallbacks := [], phase := .batch false }
      else none
  | .callCallback =>
      match s.phase, s.callbacks with
      | .batch false, entry :: rest =>
          some { s with
            callbacks := rest
            ran := s.ran ++ [entry]
            executed := s.executed ++ [entry]
            phase := .batch true }
      | _, _ => none
  | .callbackReturns =>
      if s.phase = .batch true then some { s with phase := .batch false } else none
  | .endBatch =>
      if s.phase = .batch false ∧ s.callbacks.isEmpty then
        some { s with phase := .draining false }
      else none
  | .callTask =>
      match s.phase, s.taskQueue with
      | .draining false, entry :: _ =>
          some { s with executed := s.executed ++ [entry], phase := .draining true }
      | _, _ => none
  | .taskReturns =>
      match s.phase, s.taskQueue with
      | .draining true, _ :: rest => some { s with taskQueue := rest, phase := .draining false }
      | _, _ => none
  | .endIteration =>
      if s.phase = .draining false ∧ s.taskQueue.isEmpty then
        some { s with ran := [], phase := .test }
      else none
  | .post thread callback =>
      if s.MayCall thread then some (s.postCallback thread callback) else none
  | .stopFlag thread =>
      if s.MayCall thread then
        some { s with running := false, stopping := thread :: s.stopping }
      else none
  | .stopNotify thread =>
      if thread ∈ s.stopping then
        some { s.notifyEvent with stopping := s.stopping.erase thread, stopped := true }
      else none

/-- One step; the loop thread does not move while it is inside `stop`. -/
def step (action : Action τ κ) : Option (EventLoop τ κ) :=
  if action.ofLoop = true ∧ s.pthreadId ∈ s.stopping then none else s.move action

/-- The loop as a machine, constructed by any thread. -/
def machine : Machine (EventLoop τ κ) (Action τ κ) Empty where
  Init s := ∃ thread, s = new thread
  step s action := Outcome.ofOption (s.step action)

/-- The loop is run by the thread that constructed it, as `TcpServer::run`
does. -/
def RunByOwner (s : EventLoop τ κ) : Action τ κ → Prop
  | .enterRun thread => thread = s.pthreadId
  | _ => True

instance (action : Action τ κ) : Decidable (s.RunByOwner action) := by
  cases action <;> unfold RunByOwner <;> infer_instance

variable {s} {s' : EventLoop τ κ} {action : Action τ κ}

theorem step_eq_next : machine.step s action = .next s' ↔ s.step action = some s' :=
  Outcome.ofOption_eq_next

theorem move_of_step (h : s.step action = some s') : s.move action = some s' := by
  unfold step at h
  split at h
  · cases h
  · exact h

/-- The steps one by one, each with its guard and its effect. -/
inductive Moves (s : EventLoop τ κ) : Action τ κ → EventLoop τ κ → Prop
  | enterRun {thread : τ} (houtside : s.phase = .outside) (hfree : thread ∉ s.stopping) :
      Moves s (.enterRun thread) { s with pthreadId := thread, phase := .test, iteration := 0 }
  | goOn (htest : s.phase = .test) (hrunning : s.running = true) :
      Moves s .testRunning { s with phase := .waiting, iteration := s.iteration + 1 }
  | leave (htest : s.phase = .test) (hrunning : s.running = false) :
      Moves s .testRunning { s with phase := .outside }
  | waitFails (hwaiting : s.phase = .waiting) :
      Moves s (.epollWait none) { s with phase := .outside }
  | waitReturns {notify : Bool} (hwaiting : s.phase = .waiting)
      (hcount : notify = true → s.notifyCount ≠ 0) :
      Moves s (.epollWait (some notify)) { s with phase := .dispatching notify }
  | readNotify (hphase : s.phase = .dispatching true) :
      Moves s .readNotify { s with notifyCount := 0, phase := .dispatching false }
  | swapPending (hphase : s.phase = .dispatching false) :
      Moves s .swapPending { s with
        callbacks := s.pendingCallbacks, pendingCallbacks := [], phase := .batch false }
  | callCallback {entry : Posted τ κ} {rest : List (Posted τ κ)} (hphase : s.phase = .batch false)
      (hcallbacks : s.callbacks = entry :: rest) :
      Moves s .callCallback { s with
        callbacks := rest
        ran := s.ran ++ [entry]
        executed := s.executed ++ [entry]
        phase := .batch true }
  | callbackReturns (hphase : s.phase = .batch true) :
      Moves s .callbackReturns { s with phase := .batch false }
  | endBatch (hphase : s.phase = .batch false) (hcallbacks : s.callbacks = []) :
      Moves s .endBatch { s with phase := .draining false }
  | callTask {entry : Posted τ κ} {rest : List (Posted τ κ)} (hphase : s.phase = .draining false)
      (hqueue : s.taskQueue = entry :: rest) :
      Moves s .callTask { s with executed := s.executed ++ [entry], phase := .draining true }
  | taskReturns {entry : Posted τ κ} {rest : List (Posted τ κ)} (hphase : s.phase = .draining true)
      (hqueue : s.taskQueue = entry :: rest) :
      Moves s .taskReturns { s with taskQueue := rest, phase := .draining false }
  | endIteration (hphase : s.phase = .draining false) (hqueue : s.taskQueue = []) :
      Moves s .endIteration { s with ran := [], phase := .test }
  | post {thread : τ} {callback : κ} (hmay : s.MayCall thread) :
      Moves s (.post thread callback) (s.postCallback thread callback)
  | stopFlag {thread : τ} (hmay : s.MayCall thread) :
      Moves s (.stopFlag thread) { s with running := false, stopping := thread :: s.stopping }
  | stopNotify {thread : τ} (hmem : thread ∈ s.stopping) :
      Moves s (.stopNotify thread)
        { s.notifyEvent with stopping := s.stopping.erase thread, stopped := true }

/-- Every step that is possible is one of these. -/
theorem moves_of_move (hmove : s.move action = some s') : s.Moves action s' := by
  unfold move at hmove
  split at hmove
  case h_2 =>
    split at hmove
    · rename_i htest
      split at hmove <;> rename_i hrunning <;> cases hmove
      · exact .goOn htest hrunning
      · exact .leave htest (by simpa using hrunning)
    · cases hmove
  all_goals
    split at hmove <;> cases hmove
    constructor <;> first | assumption | simp_all

theorem moves_of_step (h : s.step action = some s') : s.Moves action s' :=
  moves_of_move (move_of_step h)

end EventLoop

end Mutiplex
