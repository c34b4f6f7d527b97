/-
# What a step of the world can do

`Branch`, `Executed` and `Called` say once what the code of a step does: `step`
itself, `exec`, and the calls of user code.  `Moves` sorts the steps into ten
kinds, with the guards that hold and the world they lead to; `moves_of_step` says
that there are no others.  The invariants of the next modules are proved from
these.

`reach_loop` is the first of them: seen from the loop, every run of the world is
a run of `EventLoop`, so all that was proved of the two queues and of the
wake-up holds here.
-/

import Mutiplex.Connection.World
import Mutiplex.Connection.Jobs
import Mutiplex.EventLoop.Scheduling

namespace Mutiplex

open CMemory Transition

variable {τ : Type} [DecidableEq τ]

/-! ## Frames -/

/-- A frame that belongs to no connection's code. -/
def Frame.isIdle : Frame → Bool
  | .inside none => true
  | .release _ => true
  | _ => false

/-- A frame that only gives up a pointer. -/
def Frame.isRelease : Frame → Bool
  | .release _ => true
  | _ => false

/-- The loop thread is handling events. -/
def Phase.handlesEvents : Phase → Bool
  | .dispatching _ => true
  | _ => false

/-- The loop thread is between `epoll_wait` and the next test of `running_`. -/
def Phase.busy : Phase → Bool
  | .dispatching _ => true
  | .batch _ => true
  | .draining _ => true
  | _ => false

/-- The phases of `run` in which a frame can be there: the code of an event
source while events are handled, user code and the rest of a task wherever
callbacks are called, the end of a pointer everywhere. -/
def Frame.fits (phase : Phase) : Frame → Bool
  | .release _ => true
  | .inside _ => phase.userCode
  | .removeConnection .. => phase.userCode
  | _ => phase.handlesEvents

theorem Frame.fits_of_isRelease {frame : Frame} (h : frame.isRelease = true) (phase : Phase) :
    frame.fits phase = true := by
  cases frame <;> first | rfl | cases h

theorem Frame.fits_of_handlesEvents {phase : Phase} (h : phase.handlesEvents = true)
    (frame : Frame) : frame.fits phase = true := by
  cases phase <;> simp only [Phase.handlesEvents, Bool.false_eq_true] at h
  cases frame <;> rfl

/-- The new stack has lost frames at the top and got only idle ones instead. -/
def Shrinks (old new : List Frame) : Prop :=
  ∃ idle rest, new = idle ++ rest ∧ rest <:+ old ∧ ∀ frame ∈ idle, frame.isIdle = true

theorem Shrinks.refl (stack : List Frame) : Shrinks stack stack :=
  ⟨[], stack, rfl, List.suffix_rfl, by simp⟩

theorem Shrinks.tail (frame : Frame) (rest : List Frame) : Shrinks (frame :: rest) rest :=
  ⟨[], rest, rfl, List.suffix_cons frame rest, by simp⟩

theorem Shrinks.idle {idle : List Frame} (h : ∀ frame ∈ idle, frame.isIdle = true)
    (old : List Frame) : Shrinks old idle :=
  ⟨idle, [], (List.append_nil idle).symm, List.nil_suffix, h⟩

theorem Shrinks.mem {old new : List Frame} (h : Shrinks old new) {frame : Frame}
    (hframe : frame ∈ new) : frame ∈ old ∨ frame.isIdle = true := by
  obtain ⟨idle, rest, rfl, hsuffix, hidle⟩ := h
  rcases List.mem_append.mp hframe with hnew | hold
  · exact Or.inr (hidle frame hnew)
  · exact Or.inl (hsuffix.subset hold)

theorem Shrinks.inside {old new : List Frame} (h : Shrinks old new) {c : ConnId}
    (hframe : Frame.inside (some c) ∈ new) : Frame.inside (some c) ∈ old := by
  rcases h.mem hframe with hold | hidle
  · exact hold
  · cases hidle

namespace World

variable {w w' : World τ} {action : Action τ}

omit [DecidableEq τ] in
theorem isRelease_of_releases {entries : List (Posted τ Task)} {frame : Frame}
    (h : frame ∈ releases entries) : frame.isRelease = true := by
  obtain ⟨c, -, rfl⟩ := List.mem_map.mp h
  rfl

theorem isIdle_of_isRelease {frame : Frame} (h : frame.isRelease = true) :
    frame.isIdle = true := by
  cases frame <;> simp_all [Frame.isRelease, Frame.isIdle]

omit [DecidableEq τ] in
@[simp]
theorem loop_destroy (c : ConnId) : (w.destroy c).loop = w.loop := by
  unfold destroy
  split <;> rfl

omit [DecidableEq τ] in
@[simp]
theorem stack_destroy (c : ConnId) : (w.destroy c).stack = w.stack := by
  unfold destroy
  split <;> rfl

omit [DecidableEq τ] in
@[simp]
theorem history_destroy (c : ConnId) : (w.destroy c).history = w.history := by
  unfold destroy
  split <;> rfl

omit [DecidableEq τ] in
@[simp]
theorem nextId_destroy (c : ConnId) : (w.destroy c).nextId = w.nextId := by
  unfold destroy
  split <;> rfl

omit [DecidableEq τ] in
@[simp]
theorem connections_destroy (c : ConnId) : (w.destroy c).connections = w.connections := by
  unfold destroy
  split <;> rfl

omit [DecidableEq τ] in
@[simp]
theorem held_destroy (c : ConnId) : (w.destroy c).held = w.held := by
  unfold destroy
  split <;> rfl

omit [DecidableEq τ] in
@[simp]
theorem recvBuffer_destroy (c : ConnId) : (w.destroy c).recvBuffer = w.recvBuffer := by
  unfold destroy
  split <;> rfl

omit [DecidableEq τ] in
@[simp]
theorem conns_destroy (c : ConnId) : (w.destroy c).conns = Function.update w.conns c none := by
  unfold destroy
  split
  · rename_i hdead
    rw [← hdead, Function.update_eq_self]
  · rfl

omit [DecidableEq τ] in
theorem loop_release (c : ConnId) : (w.release c).loop = w.loop := by
  unfold release
  split <;> simp

omit [DecidableEq τ] in
theorem held_release (c : ConnId) : (w.release c).held = w.held := by
  unfold release
  split <;> simp

omit [DecidableEq τ] in
theorem stack_release (c : ConnId) : (w.release c).stack = w.stack := by
  unfold release
  split <;> simp

omit [DecidableEq τ] in
theorem connections_release (c : ConnId) : (w.release c).connections = w.connections := by
  unfold release
  split <;> simp

/-- The connection whose last owner an action takes away. -/
def lost (w : World τ) : Action τ → Option ConnId
  | .exec _ =>
      match w.stack with
      | .release c :: rest => if { w with stack := rest }.Owned c then none else some c
      | _ => none
  | .user _ (.drop c) =>
      if { w with held := Function.update w.held c (w.held c - 1) }.Owned c then none else some c
  | _ => none

/-! ## The code of a step -/

theorem loopStep_eq_next {move : EventLoop.Action τ Task}
    {rest : World τ → Outcome (World τ) Fault} (h : w.loopStep move rest = .next w') :
    ∃ loop, w.loop.step move = some loop ∧ rest { w with loop := loop } = .next w' := by
  unfold loopStep at h
  split at h
  · cases h
  · rename_i loop hstep
    exact ⟨loop, hstep, h⟩

/-- The branches of `step`: what an action asks of the state, and how it goes on. -/
inductive Branch (w : World τ) : Action τ → World τ → Prop
  | loop {move : EventLoop.Action τ Task} {loop : EventLoop τ Task} (hallows : w.Allows move)
      (hmove : w.loop.step move = some loop) : Branch w (.loop move) { w with loop := loop }
  | epollWait {events : List Ready} {loop : EventLoop τ Task} (hempty : w.stack = [])
      (hreports : w.Reports events)
      (hmove : w.loop.step (.epollWait (some (Ready.notify ∈ events))) = some loop) :
      Branch w (.epollWait events)
        { w with loop := loop, stack := events.filterMap w.readyFrame }
  | exec {n : ℤ} {w' : World τ} (hidle : w.loop.pthreadId ∉ w.loop.stopping)
      (hexec : w.exec n = .next w') : Branch w (.exec n) w'
  | returns {argument : Option ConnId} {rest : List Frame}
      (hstack : w.stack = .inside argument :: rest) :
      Branch w .returns { w with stack := (argument.map Frame.release).toList ++ rest }
  | call {move : EventLoop.Action τ Task} {entry : Posted τ Task} {loop : EventLoop τ Task}
      {w' : World τ} (hempty : w.stack = []) (hnext : w.loop.nextEntry = some entry)
      (hcall : move.isCall = true) (hmove : w.loop.step move = some loop)
      (hentry : { w with loop := loop }.callEntry entry = .next w') : Branch w .call w'
  | callbackReturns {loop : EventLoop τ Task} (hempty : w.stack = [])
      (hmove : w.loop.step .callbackReturns = some loop) :
      Branch w .callReturns { w with loop := loop }
  | taskReturns {loop : EventLoop τ Task} (hempty : w.stack = [])
      (hmove : w.loop.step .taskReturns = some loop) :
      Branch w .callReturns
        { w with loop := loop, stack := releases (w.loop.taskQueue.take 1) }
  | endIteration {loop : EventLoop τ Task} (hempty : w.stack = [])
      (hmove : w.loop.step .endIteration = some loop) :
      Branch w .endIteration { w with loop := loop, stack := releases w.loop.ran }
  | user {thread : τ} {call : Call} {w' : World τ} (hmay : w.MayCall thread)
      (hcall : w.userCall thread call = .next w') : Branch w (.user thread call) w'

theorem branch_of_step (h : w.step action = .next w') : w.Branch action w' := by
  cases action with
  | loop move =>
      simp only [step] at h
      split at h
      · rename_i hallows
        obtain ⟨loop, hmove, hrest⟩ := loopStep_eq_next h
        cases hrest
        exact .loop hallows hmove
      · cases h
  | epollWait events =>
      simp only [step] at h
      split at h
      · rename_i hguard
        obtain ⟨loop, hmove, hrest⟩ := loopStep_eq_next h
        cases hrest
        exact .epollWait hguard.1 hguard.2 hmove
      · cases h
  | exec n =>
      simp only [step] at h
      split at h
      · cases h
      · exact .exec ‹_› h
  | returns =>
      simp only [step] at h
      split at h
      · cases h
      · split at h
        · cases h
          exact @Branch.returns _ _ w none _ ‹_›
        · rename_i c rest hstack
          cases h
          exact @Branch.returns _ _ w (some c) _ hstack
        · cases h
  | call =>
      simp only [step] at h
      split at h
      · rename_i entry hempty hnext
        split at h <;>
          · obtain ⟨loop, hmove, hrest⟩ := loopStep_eq_next h
            exact .call hempty hnext rfl hmove hrest
      · cases h
  | callReturns =>
      simp only [step] at h
      split at h
      · rename_i hempty
        split at h
        · obtain ⟨loop, hmove, hrest⟩ := loopStep_eq_next h
          cases hrest
          exact .callbackReturns hempty hmove
        · obtain ⟨loop, hmove, hrest⟩ := loopStep_eq_next h
          cases hrest
          exact .taskReturns hempty hmove
      · cases h
  | endIteration =>
      simp only [step] at h
      split at h
      · rename_i hempty
        obtain ⟨loop, hmove, hrest⟩ := loopStep_eq_next h
        cases hrest
        exact .endIteration hempty hmove
      · cases h
  | user thread call =>
      simp only [step] at h
      split at h
      · exact .user ‹_› h
      · cases h

/-- The frames that `exec` goes on with, and what it does. -/
inductive Executed (w : World τ) (n : ℤ) : World τ → Prop
  | readNotify {rest : List Frame} {loop : EventLoop τ Task}
      (hstack : w.stack = .readNotify :: rest) (hmove : w.loop.step .readNotify = some loop) :
      Executed w n { w with loop := loop, stack := rest }
  | removeConnection {c : ConnId} {fd : ℤ} {rest : List Frame}
      (hstack : w.stack = .removeConnection c fd :: rest) :
      Executed w n ({ w with stack := rest }.removeConnection fd)
  | release {c : ConnId} {rest : List Frame} (hstack : w.stack = .release c :: rest) :
      Executed w n ({ w with stack := rest }.release c)
  | job {frame : Frame} {rest : List Frame} {c : ConnId} {job : Job} {w' : World τ}
      (hstack : w.stack = frame :: rest) (hjob : frameJob n frame = some (c, job))
      (hrun : { w with stack := frameRest frame ++ rest }.runJob none c job = .next w') :
      Executed w n w'

theorem executed_of_exec {n : ℤ} (h : w.exec n = .next w') : w.Executed n w' := by
  unfold exec at h
  split at h
  · cases h
  · rename_i frame rest hstack
    cases frame with
    | inside argument => cases h
    | readNotify =>
        obtain ⟨loop, hmove, hnext⟩ := loopStep_eq_next h
        cases hnext
        exact .readNotify hstack hmove
    | removeConnection c fd =>
        cases h
        exact .removeConnection hstack
    | release c =>
        cases h
        exact .release hstack
    | _ =>
        dsimp only at h
        split at h
        · cases h
        · exact .job hstack ‹_› h

/-- The task that a call asks for. -/
def taskOf : Call → Option Task
  | .close c => some (.close c)
  | .forceClose c => some (.forceClose c)
  | .writeBuffer c buffer => some (.writeBuffer c buffer)
  | .writeData c data => some (.writeData c data)
  | .postCallback => some .user
  | _ => none

/-- What a call of user code comes to; a `write` can be refused. -/
inductive Called (w : World τ) (thread : τ) : Call → World τ → Prop
  | posts {call : Call} {task : Task} (htask : taskOf call = some task)
      (hpointer : ∀ c, task.target = some c → w.HasPointer thread c)
      (hopen : task.isWrite = true → ∀ c, task.target = some c →
        ∃ conn, w.conns c = some conn ∧ conn.isClosed = false) :
      Called w thread call (w.post thread task)
  | refused {call : Call} {task : Task} (htask : taskOf call = some task)
      (hwrite : task.isWrite = true) : Called w thread call w
  | share {c : ConnId} (hpointer : w.HasPointer thread c) :
      Called w thread (.share c) { w with held := Function.update w.held c (w.held c + 1) }
  | drop {c : ConnId} (hheld : 0 < w.held c) :
      Called w thread (.drop c)
        ({ w with held := Function.update w.held c (w.held c - 1) }.release c)
  | setBuffer {buffer : BufferId} {data : List UInt8} :
      Called w thread (.setBuffer buffer data)
        { w with buffers := Function.update w.buffers buffer data }
  | setCallbacks {c : ConnId} {conn : Connection} {callbacks : Callbacks}
      (hconn : w.conns c = some conn) :
      Called w thread (.setCallbacks c callbacks)
        { w with conns := Function.update w.conns c (some { conn with callbacks := callbacks }) }
  | onNewConnection {fd : ℤ} {callbacks : Callbacks} (hthread : thread = w.loop.pthreadId) :
      Called w thread (.onNewConnection fd callbacks) (w.onNewConnection fd callbacks)
  | allocateReceiveBuffer {capacity : UInt32} :
      Called w thread (.allocateReceiveBuffer capacity) { w with recvBuffer := true }
  | closeFd {fd : ℤ} : Called w thread (.closeFd fd) { w with epoll := closeFd w.epoll fd }

theorem called_of_write {thread : τ} {call : Call} {c : ConnId} {fits : Bool} {task : Task}
    (htask : taskOf call = some task) (htarget : task.target = some c)
    (hwrite : task.isWrite = true) (hpointer : w.HasPointer thread c)
    (h : w.write thread c fits task = .next w') : w.Called thread call w' := by
  unfold write at h
  split at h
  · cases h
  · rename_i conn hconn
    split at h
    · cases h
      exact .refused htask hwrite
    · rename_i hopen
      split at h <;> cases h
      refine .posts htask ?_ ?_
      · intro other hother
        cases htarget.symm.trans hother
        exact hpointer
      · intro _ other hother
        cases htarget.symm.trans hother
        exact ⟨conn, hconn, by simpa using hopen⟩

theorem called_of_userCall {thread : τ} {call : Call} (h : w.userCall thread call = .next w') :
    w.Called thread call w' := by
  cases call with
  | close c =>
      simp only [userCall] at h
      split at h <;> cases h
      exact .posts rfl (by simp [Task.target, *]) (by simp [Task.isWrite])
  | forceClose c =>
      simp only [userCall] at h
      split at h <;> cases h
      exact .posts rfl (by simp [Task.target, *]) (by simp [Task.isWrite])
  | writeBuffer c buffer =>
      simp only [userCall] at h
      split at h
      · exact called_of_write rfl rfl rfl ‹_› h
      · cases h
  | writeData c data =>
      simp only [userCall] at h
      split at h
      · rename_i hguard
        exact called_of_write rfl rfl rfl hguard.1 h
      · cases h
  | postCallback =>
      cases h
      exact .posts rfl (by simp [Task.target]) (by simp [Task.isWrite])
  | share c =>
      simp only [userCall] at h
      split at h <;> cases h
      exact .share ‹_›
  | drop c =>
      simp only [userCall] at h
      split at h <;> cases h
      exact .drop ‹_›
  | setBuffer buffer data =>
      simp only [userCall] at h
      split at h <;> cases h
      exact .setBuffer
  | setCallbacks c callbacks =>
      simp only [userCall] at h
      split at h
      · split at h <;> cases h
        exact .setCallbacks ‹_›
      · cases h
  | onNewConnection fd callbacks =>
      simp only [userCall] at h
      split at h <;> cases h
      exact .onNewConnection ‹_›
  | allocateReceiveBuffer capacity =>
      simp only [userCall] at h
      split at h <;> cases h
      exact .allocateReceiveBuffer
  | closeFd fd =>
      cases h
      exact .closeFd

/-! ## The kinds of steps -/

/-- The kinds of steps. -/
inductive Moves (w : World τ) : Action τ → World τ → Prop
  | /-- The loop moves by itself. -/
    loop {action : Action τ} {move : EventLoop.Action τ Task} {loop : EventLoop τ Task}
      {stack : List Frame} (hstep : w.loop.step move = some loop) (hpost : move.isPost = false)
      (hcall : move.isCall = true → ∃ entry, w.loop.nextEntry = some entry ∧
        entry.callback = .user)
      (hstack : Shrinks w.stack stack)
      (hplace : (∀ frame ∈ stack, frame.fits loop.phase = true) ∨
        stack = w.stack ∧ loop.phase = w.loop.phase)
      (henter : ∀ thread, move = .enterRun thread → action = .loop (.enterRun thread)) :
      Moves w action { w with loop := loop, stack := stack }
  | /-- `epoll_wait` reports events. -/
    epollWait {events : List Ready} {loop : EventLoop τ Task} (hempty : w.stack = [])
      (hreports : w.Reports events)
      (hstep : w.loop.step (.epollWait (some (decide (Ready.notify ∈ events)))) = some loop) :
      Moves w (.epollWait events)
        { w with loop := loop, stack := events.filterMap w.readyFrame }
  | /-- Pointers and buffers come and go. -/
    pointers {action : Action τ} {connections : List (ℤ × ConnId)} {held : ConnId → ℕ}
      {buffers : BufferId → List UInt8} {recvBuffer : Bool} {stack : List Frame}
      (hconnections : connections.Sublist w.connections)
      (howned : ∀ c,
        { w with connections := connections, held := held, stack := stack }.Owned c → w.Owned c)
      (hstack : Shrinks w.stack stack)
      (hplace : ∀ frame ∈ stack, frame ∈ w.stack ∨ frame.isRelease = true)
      (hrecv : w.recvBuffer = true → recvBuffer = true) :
      Moves w action
        { w with
          connections := connections
          held := held
          buffers := buffers
          recvBuffer := recvBuffer
          stack := stack }
  | /-- The last pointer to a connection goes. -/
    destroyed {action : Action τ} {c : ConnId} {held : ConnId → ℕ} {stack : List Frame}
      (hlost : w.lost action = some c)
      (hnot : ¬ { w with held := held, stack := stack }.Owned c)
      (hheld : ∀ c', 0 < held c' → 0 < w.held c')
      (hstack : Shrinks w.stack stack) (hplace : ∀ frame ∈ stack, frame ∈ w.stack) :
      Moves w action ({ w with held := held, stack := stack }.destroy c)
  | /-- User code posts a task. -/
    posted {thread : τ} {call : Call} {task : Task} (hmay : w.MayCall thread)
      (htarget : ∀ c, task.target = some c → w.HasPointer thread c)
      (hwrite : task.isWrite = true → ∀ c, task.target = some c →
        ∃ conn, w.conns c = some conn ∧ conn.isClosed = false) :
      Moves w (.user thread call) (w.post thread task)
  | /-- User code sets callbacks. -/
    setCallbacks {thread : τ} {c : ConnId} {conn : Connection} {callbacks : Callbacks}
      (hconn : w.conns c = some conn) :
      Moves w (.user thread (.setCallbacks c callbacks))
        { w with conns := Function.update w.conns c (some { conn with callbacks := callbacks }) }
  | /-- A descriptor is closed by code that does not own it. -/
    fdClosed {thread : τ} {fd : ℤ} :
      Moves w (.user thread (.closeFd fd)) { w with epoll := closeFd w.epoll fd }
  | /-- A connection is registered. -/
    born {fd : ℤ} {callbacks : Callbacks} (hmay : w.MayCall w.loop.pthreadId) :
      Moves w (.user w.loop.pthreadId (.onNewConnection fd callbacks))
        (w.onNewConnection fd callbacks)
  | /-- A frame runs code of a connection. -/
    exec {n : ℤ} {frame : Frame} {rest : List Frame} {c : ConnId} {job : Job}
      {conn : Connection} {effect : Effect} (hidle : w.loop.pthreadId ∉ w.loop.stopping)
      (hstack : w.stack = frame :: rest) (hjob : frameJob n frame = some (c, job))
      (hconn : w.conns c = some conn) (hanswers : Answers conn job)
      (hran : conn.Ran c w.epoll (w.registered conn.fd) job effect) :
      Moves w (.exec n)
        ({ w with stack := frameRest frame ++ rest }.apply none c job conn.state effect)
  | /-- A task runs code of its connection. -/
    call {move : EventLoop.Action τ Task} {entry : Posted τ Task} {loop : EventLoop τ Task}
      {c : ConnId} {job : Job} {conn : Connection} {effect : Effect} (hempty : w.stack = [])
      (hcall : move.isCall = true) (hnext : w.loop.nextEntry = some entry)
      (hstep : w.loop.step move = some loop) (hjob : w.taskJob entry.callback = some (c, job))
      (hconn : w.conns c = some conn) (hanswers : Answers conn job)
      (hran : conn.Ran c w.epoll (w.registered conn.fd) job effect) :
      Moves w .call ({ w with loop := loop }.apply (some entry) c job conn.state effect)

theorem runJob_eq_next {entry : Option (Posted τ Task)} {c : ConnId} {job : Job}
    (h : w.runJob entry c job = .next w') :
    ∃ conn effect, w.conns c = some conn ∧ Answers conn job ∧
      conn.Ran c w.epoll (w.registered conn.fd) job effect ∧
      w' = w.apply entry c job conn.state effect := by
  unfold runJob at h
  split at h
  · cases h
  · rename_i conn hconn
    split at h
    · rename_i hanswers
      split at h
      · rename_i effect hrun
        cases h
        exact ⟨conn, effect, hconn, hanswers, Connection.ran_of_run hrun, rfl⟩
      · cases h
    · cases h

omit [DecidableEq τ] in
theorem Owned.mono {c : ConnId} (h : w'.Owned c)
    (hconnections : w'.connections.Sublist w.connections)
    (hheld : 0 < w'.held c → 0 < w.held c)
    (hinside : Frame.inside (some c) ∈ w'.stack → Frame.inside (some c) ∈ w.stack)
    (hentries : ∀ entry ∈ w'.loop.entries, entry ∈ w.loop.entries) : w.Owned c := by
  rcases h with hmap | hpos | hframe | ⟨entry, hentry, hcaptured⟩
  · exact Or.inl ((hconnections.map Prod.snd).subset hmap)
  · exact Or.inr (Or.inl (hheld hpos))
  · exact Or.inr (Or.inr (Or.inl (hinside hframe)))
  · exact Or.inr (Or.inr (Or.inr ⟨entry, hentries entry hentry, hcaptured⟩))

omit [DecidableEq τ] in
theorem HasPointer.owned {thread : τ} {c : ConnId} (h : w.HasPointer thread c) : w.Owned c := by
  rcases h with hheld | ⟨-, hinside⟩
  · exact Or.inr (Or.inl hheld)
  · exact Or.inr (Or.inr (Or.inl hinside))

/-- Popping a frame. -/
theorem Moves.pop {frame : Frame} {rest : List Frame} (hstack : w.stack = frame :: rest) :
    Moves w action { w with stack := rest } := by
  have hshrinks : Shrinks w.stack rest := hstack ▸ Shrinks.tail frame rest
  have hmem : ∀ other ∈ rest, other ∈ w.stack := by
    intro other hother
    rw [hstack]
    exact List.mem_cons_of_mem frame hother
  exact .pointers (List.Sublist.refl _)
    (fun c h => h.mono (List.Sublist.refl _) id hshrinks.inside fun _ => id) hshrinks
    (fun other hother => Or.inl (hmem other hother)) id

theorem moves_of_removeConnection {c : ConnId} {fd : ℤ} {rest : List Frame} {n : ℤ}
    (hstack : w.stack = .removeConnection c fd :: rest) :
    Moves w (.exec n) ({ w with stack := rest }.removeConnection fd) := by
  unfold removeConnection
  split
  · exact .pop hstack
  · rename_i other _
    have hshrinks : Shrinks w.stack (.release other :: rest) :=
      ⟨[.release other], rest, rfl, hstack ▸ List.suffix_cons _ rest, by simp [Frame.isIdle]⟩
    refine .pointers List.filter_sublist (fun c h => ?_) hshrinks ?_ id
    · exact h.mono List.filter_sublist id hshrinks.inside fun _ => id
    · intro frame hframe
      rcases List.mem_cons.mp hframe with rfl | hold
      · exact Or.inr rfl
      · exact Or.inl (hstack ▸ List.mem_cons_of_mem _ hold)

theorem moves_of_release {c : ConnId} {rest : List Frame} {n : ℤ}
    (hstack : w.stack = .release c :: rest) :
    Moves w (.exec n) ({ w with stack := rest }.release c) := by
  unfold release
  split
  · exact .pop hstack
  · rename_i hnot
    refine .destroyed ?_ hnot (fun _ => id)
      (hstack ▸ Shrinks.tail _ rest) fun frame hframe => hstack ▸ List.mem_cons_of_mem _ hframe
    simp [lost, hstack, hnot]

theorem moves_of_exec {n : ℤ} (hidle : w.loop.pthreadId ∉ w.loop.stopping)
    (h : w.exec n = .next w') : Moves w (.exec n) w' := by
  cases executed_of_exec h with
  | @readNotify rest loop hstack hmove =>
      have hphase : loop.phase.handlesEvents = true := by
        have hmove := EventLoop.move_of_step hmove
        simp only [EventLoop.move] at hmove
        split at hmove <;> cases hmove
        rfl
      exact .loop hmove rfl (by simp [EventLoop.Action.isCall])
        (hstack ▸ Shrinks.tail _ rest) (Or.inl fun frame _ => frame.fits_of_handlesEvents hphase)
        (by simp)
  | removeConnection hstack => exact moves_of_removeConnection hstack
  | release hstack => exact moves_of_release hstack
  | job hstack hjob hrun =>
      obtain ⟨conn, effect, hconn, hanswers, hran, rfl⟩ := runJob_eq_next hrun
      exact .exec hidle hstack hjob hconn hanswers hran

omit [DecidableEq τ] in
theorem isPost_of_isCall {move : EventLoop.Action τ Task} (h : move.isCall = true) :
    move.isPost = false := by
  cases move <;> simp_all [EventLoop.Action.isCall, EventLoop.Action.isPost]

/-- Beginning a callback puts the loop thread inside it. -/
theorem userCode_of_call {move : EventLoop.Action τ Task} {loop : EventLoop τ Task}
    (hcall : move.isCall = true) (hstep : w.loop.step move = some loop) :
    loop.phase.userCode = true := by
  have hmove := EventLoop.move_of_step hstep
  cases move <;> simp only [EventLoop.Action.isCall, Bool.false_eq_true] at hcall <;>
    simp only [EventLoop.move] at hmove <;> split at hmove <;> cases hmove <;> rfl

/-- The thread that begins a callback is not inside `stop`. -/
theorem not_stopping_of_call {move : EventLoop.Action τ Task} {loop : EventLoop τ Task}
    (hcall : move.isCall = true) (hstep : w.loop.step move = some loop) :
    loop.pthreadId ∉ loop.stopping := by
  have hmove := EventLoop.move_of_step hstep
  have hguard : w.loop.pthreadId ∉ w.loop.stopping := by
    intro hstopping
    have hofLoop : move.ofLoop = true := by
      cases move <;> first | rfl | cases hcall
    simp [EventLoop.step, hofLoop, hstopping] at hstep
  cases move <;> simp only [EventLoop.Action.isCall, Bool.false_eq_true] at hcall <;>
    simp only [EventLoop.move] at hmove <;> split at hmove <;> cases hmove <;> exact hguard

theorem moves_of_callEntry {move : EventLoop.Action τ Task} {entry : Posted τ Task}
    (hempty : w.stack = []) (hcall : move.isCall = true)
    (hnext : w.loop.nextEntry = some entry) {loop : EventLoop τ Task}
    (hstep : w.loop.step move = some loop)
    (hrest : { w with loop := loop }.callEntry entry = .next w') : Moves w .call w' := by
  unfold callEntry at hrest
  split at hrest
  · rename_i htask
    cases hrest
    have huser : entry.callback = .user := by
      cases hcallback : entry.callback <;> simp_all [taskJob]
    exact .loop hstep (isPost_of_isCall hcall) (fun _ => ⟨entry, hnext, huser⟩)
      (Shrinks.idle (by simp [Frame.isIdle]) _)
      (Or.inl (by simp [Frame.fits, userCode_of_call hcall hstep]))
      (fun _ henter => by simp [henter, EventLoop.Action.isCall] at hcall)
  · rename_i c job htask
    obtain ⟨conn, effect, hconn, hanswers, hran, rfl⟩ := runJob_eq_next hrest
    exact .call hempty hcall hnext hstep htask hconn hanswers hran

theorem moves_of_releases {move : EventLoop.Action τ Task} {entries : List (Posted τ Task)}
    (hpost : move.isPost = false) (hcall : move.isCall = false)
    (henter : ∀ thread, move ≠ .enterRun thread) {loop : EventLoop τ Task}
    (hstep : w.loop.step move = some loop) :
    Moves w action { w with loop := loop, stack := releases entries } :=
  .loop hstep hpost (by simp [hcall])
    (Shrinks.idle (fun _ hframe => isIdle_of_isRelease (isRelease_of_releases hframe)) _)
    (Or.inl fun _ hframe => Frame.fits_of_isRelease (isRelease_of_releases hframe) _)
    (fun thread heq => absurd heq (henter thread))

theorem moves_of_allows {move : EventLoop.Action τ Task} (hallows : w.Allows move)
    {loop : EventLoop τ Task} (hstep : w.loop.step move = some loop) :
    Moves w (.loop move) { w with loop := loop } := by
  have hmove := EventLoop.move_of_step hstep
  have hkind : move.isPost = false ∧ move.isCall = false := by
    cases move <;> simp_all [Allows, EventLoop.Action.isPost, EventLoop.Action.isCall]
  have hplace : w.stack = [] ∨ loop.phase = w.loop.phase := by
    cases move with
    | stopFlag thread =>
        simp only [EventLoop.move] at hmove
        split at hmove <;> cases hmove
        exact Or.inr rfl
    | stopNotify thread =>
        simp only [EventLoop.move] at hmove
        split at hmove <;> cases hmove
        exact Or.inr rfl
    | epollWait reported => cases reported <;> simp_all [Allows]
    | _ => simp_all [Allows]
  refine .loop hstep hkind.1 (by simp [hkind.2]) (Shrinks.refl _) ?_ fun thread heq => heq ▸ rfl
  rcases hplace with hempty | hphase
  · exact Or.inl (by simp [hempty])
  · exact Or.inr ⟨rfl, hphase⟩

/-- A call that changes nothing but what user code holds. -/
theorem Moves.held {held : ConnId → ℕ} {buffers : BufferId → List UInt8} {recvBuffer : Bool}
    (hheld : ∀ c, 0 < held c → w.Owned c) (hrecv : w.recvBuffer = true → recvBuffer = true) :
    Moves w action { w with held := held, buffers := buffers, recvBuffer := recvBuffer } := by
  refine .pointers (List.Sublist.refl _) (fun c h => ?_) (Shrinks.refl _) (fun _ => Or.inl) hrecv
  rcases h with hmap | hpos | hframe | hentry
  · exact Or.inl hmap
  · exact hheld c hpos
  · exact Or.inr (Or.inr (Or.inl hframe))
  · exact Or.inr (Or.inr (Or.inr hentry))

theorem moves_of_drop {thread : τ} {c : ConnId} :
    Moves w (.user thread (.drop c))
      ({ w with held := Function.update w.held c (w.held c - 1) }.release c) := by
  have hheld : ∀ c', 0 < Function.update w.held c (w.held c - 1) c' → 0 < w.held c' := by
    intro c' hpos
    by_cases hc : c' = c
    · subst hc
      rw [Function.update_self] at hpos
      omega
    · rwa [Function.update_of_ne hc] at hpos
  unfold release
  split
  · exact .held (fun c' hpos => Or.inr (Or.inl (hheld c' hpos))) id
  · rename_i hnot
    refine .destroyed ?_ hnot hheld (Shrinks.refl _) fun _ => id
    simp [lost, hnot]

theorem moves_of_userCall {thread : τ} {call : Call} (hmay : w.MayCall thread)
    (h : w.userCall thread call = .next w') : Moves w (.user thread call) w' := by
  cases called_of_userCall h with
  | posts htask hpointer hopen => exact .posted hmay hpointer hopen
  | refused htask hwrite => exact .held (fun _ hpos => Or.inr (Or.inl hpos)) id
  | @share c hpointer =>
      refine .held (fun c' hpos => ?_) id
      by_cases hc : c' = c
      · exact hc ▸ hpointer.owned
      · rw [Function.update_of_ne hc] at hpos
        exact Or.inr (Or.inl hpos)
  | drop hheld => exact moves_of_drop
  | setBuffer => exact .held (fun _ hpos => Or.inr (Or.inl hpos)) id
  | setCallbacks hconn => exact .setCallbacks hconn
  | onNewConnection hthread =>
      subst hthread
      exact .born hmay
  | allocateReceiveBuffer => exact .held (fun _ hpos => Or.inr (Or.inl hpos)) fun _ => rfl
  | closeFd => exact .fdClosed

/-- User code returns and gives its argument back. -/
theorem moves_of_returns {argument : Option ConnId} {rest : List Frame}
    (hstack : w.stack = .inside argument :: rest) :
    Moves w action { w with stack := (argument.map Frame.release).toList ++ rest } := by
  cases argument with
  | none => exact .pop hstack
  | some c =>
      have hshrinks : Shrinks w.stack (.release c :: rest) :=
        ⟨[.release c], rest, rfl, hstack ▸ List.suffix_cons _ rest, by simp [Frame.isIdle]⟩
      refine .pointers (List.Sublist.refl _)
        (fun other h => h.mono (List.Sublist.refl _) id hshrinks.inside fun _ => id)
        hshrinks (fun frame hframe => ?_) id
      rcases List.mem_cons.mp hframe with rfl | hold
      · exact Or.inr rfl
      · exact Or.inl (hstack ▸ List.mem_cons_of_mem _ hold)

/-- **There are no other steps.** -/
theorem moves_of_step (h : w.step action = .next w') : Moves w action w' := by
  cases branch_of_step h with
  | loop hallows hmove => exact moves_of_allows hallows hmove
  | epollWait hempty hreports hmove => exact .epollWait hempty hreports hmove
  | exec hidle hexec => exact moves_of_exec hidle hexec
  | returns hstack => exact moves_of_returns hstack
  | call hempty hnext hcall hmove hentry => exact moves_of_callEntry hempty hcall hnext hmove hentry
  | callbackReturns hempty hmove =>
      exact .loop hmove rfl (by simp [EventLoop.Action.isCall]) (Shrinks.refl _)
        (Or.inl (by simp [hempty])) (by simp)
  | taskReturns hempty hmove => exact moves_of_releases rfl rfl (by simp) hmove
  | endIteration hempty hmove => exact moves_of_releases rfl rfl (by simp) hmove
  | user hmay hcall => exact moves_of_userCall hmay hcall

/-! ## Every run is a run of the loop -/

/-- Every frame is where it can be. -/
def Placed (w : World τ) : Prop := ∀ frame ∈ w.stack, frame.fits w.loop.phase = true

omit [DecidableEq τ] in
theorem Placed.userCode (h : w.Placed) (hcode : w.UserCode) : w.loop.phase.userCode = true := by
  unfold UserCode at hcode
  split at hcode
  · rw [hcode]
    rfl
  · rename_i argument rest hstack
    exact h (.inside argument) (hstack ▸ List.mem_cons_self)
  · exact hcode.elim

omit [DecidableEq τ] in
theorem Placed.mayCall (h : w.Placed) {thread : τ} (hmay : w.MayCall thread) :
    w.loop.MayCall thread :=
  ⟨hmay.1, hmay.2.imp id h.userCode⟩

/-- The loop after the post of a job. -/
theorem loop_apply (entry : Option (Posted τ Task)) (c : ConnId) (job : Job) (found : ConnState)
    (effect : Effect) :
    (w.apply entry c job found effect).loop = w.loop ∨
      ∃ task, effect.post = some task ∧
        (w.apply entry c job found effect).loop = w.loop.postCallback w.loop.pthreadId task := by
  cases hpost : effect.post with
  | none => exact Or.inl (by simp [apply, hpost])
  | some task => exact Or.inr ⟨task, rfl, by simp [apply, hpost]⟩

theorem phase_apply (entry : Option (Posted τ Task)) (c : ConnId) (job : Job)
    (found : ConnState) (effect : Effect) :
    (w.apply entry c job found effect).loop.phase = w.loop.phase := by
  rcases loop_apply entry c job found effect with heq | ⟨task, -, heq⟩
  · rw [heq]
  · rw [heq, EventLoop.phase_postCallback]

omit [DecidableEq τ] in
theorem isTask_of_taskJob {task : Task} {c : ConnId} {job : Job}
    (h : w.taskJob task = some (c, job)) : job.isTask = true := by
  cases task <;> cases h <;> rfl

theorem not_inside_frameRest {frame : Frame} {c : ConnId} :
    Frame.inside (some c) ∉ frameRest frame := by
  cases frame <;> simp only [frameRest, List.not_mem_nil, not_false_eq_true]
  split <;> simp

omit [DecidableEq τ] in
/-- Whenever a frame runs code of a connection, the loop thread is handling
events. -/
theorem Placed.of_frameJob (h : w.Placed) {n : ℤ} {frame : Frame} {rest : List Frame}
    {c : ConnId} {job : Job} (hstack : w.stack = frame :: rest)
    (hjob : frameJob n frame = some (c, job)) : w.loop.phase.handlesEvents = true := by
  have hfits := h frame (hstack ▸ List.mem_cons_self)
  cases frame <;> first | exact hfits | cases hjob

theorem userCode_of_handlesEvents {phase : Phase} (h : phase.handlesEvents = true) :
    phase.userCode = true := by
  cases phase <;> first | rfl | cases h

theorem busy_of_handlesEvents {phase : Phase} (h : phase.handlesEvents = true) :
    phase.busy = true := by
  cases phase <;> first | rfl | cases h

theorem busy_of_call {move : EventLoop.Action τ Task} {loop : EventLoop τ Task}
    (hcall : move.isCall = true) (hstep : w.loop.step move = some loop) :
    loop.phase.busy = true := by
  have hmove := EventLoop.move_of_step hstep
  cases move <;> simp only [EventLoop.Action.isCall, Bool.false_eq_true] at hcall <;>
    simp only [EventLoop.move] at hmove <;> split at hmove <;> cases hmove <;> rfl

theorem Placed.moves (h : w.Placed) (hmoves : Moves w action w') : w'.Placed := by
  intro frame hframe
  cases hmoves with
  | loop hstep hpost hcall hstack hplace =>
      rcases hplace with hfits | ⟨rfl, hphase⟩
      · exact hfits frame hframe
      · exact hphase ▸ h frame hframe
  | epollWait hempty hreports hstep =>
      apply frame.fits_of_handlesEvents
      have hmove := EventLoop.move_of_step hstep
      simp only [EventLoop.move] at hmove
      split at hmove <;> cases hmove
      rfl
  | pointers hconnections howned hstack hplace =>
      rcases hplace frame hframe with hold | hrelease
      · exact h frame hold
      · exact Frame.fits_of_isRelease hrelease _
  | destroyed hlost hnot hheld hstack hplace =>
      rw [stack_destroy] at hframe
      rw [loop_destroy]
      exact h frame (hplace frame hframe)
  | posted hmay htarget hwrite =>
      rw [post, EventLoop.phase_postCallback]
      exact h frame hframe
  | setCallbacks hconn => exact h frame hframe
  | fdClosed => exact h frame hframe
  | born hmay =>
      have huser := h.userCode (hmay.2.resolve_left fun hne => hne rfl)
      simp only [onNewConnection, List.mem_append, Option.mem_toList,
        Option.map_eq_some_iff] at hframe
      rcases hframe with (⟨old, -, rfl⟩ | ⟨callback, -, rfl⟩) | hold
      · rfl
      · exact huser
      · exact h frame hold
  | exec hidle hstack hjob hconn hanswers hran =>
      rw [phase_apply]
      exact frame.fits_of_handlesEvents (h.of_frameJob hstack hjob)
  | call hempty hcall hnext hstep hjob hconn hanswers hran =>
      rw [phase_apply]
      have huser := userCode_of_call hcall hstep
      simp only [apply, List.mem_append, Option.mem_toList, Option.map_eq_some_iff,
        hempty, List.not_mem_nil, or_false] at hframe
      rcases hframe with ⟨callback, -, rfl⟩ | hafter
      · exact huser
      · rw [hran.after_of_isTask (isTask_of_taskJob hjob) hafter]
        exact huser

/-- Posting on the loop thread is a step of the loop. -/
theorem reach_postCallback {loop : EventLoop τ Task} {thread : τ}
    (h : EventLoop.machine.Reach Machine.anyStep loop) (hmay : loop.MayCall thread)
    (task : Task) : EventLoop.machine.Reach Machine.anyStep (loop.postCallback thread task) := by
  have hstep : loop.step (.post thread task) = some (loop.postCallback thread task) := by
    simp [EventLoop.step, EventLoop.Action.ofLoop, EventLoop.move, hmay]
  exact .step h trivial (EventLoop.step_eq_next.mpr hstep)

theorem reach_apply {entry : Option (Posted τ Task)} {c : ConnId} {job : Job}
    {found : ConnState} {effect : Effect}
    (h : EventLoop.machine.Reach Machine.anyStep w.loop)
    (hidle : w.loop.pthreadId ∉ w.loop.stopping) (huser : w.loop.phase.userCode = true) :
    EventLoop.machine.Reach Machine.anyStep (w.apply entry c job found effect).loop := by
  rcases loop_apply entry c job found effect with heq | ⟨task, -, heq⟩
  · rw [heq]
    exact h
  · rw [heq]
    exact reach_postCallback h ⟨hidle, Or.inr huser⟩ task

/-- The invariant rule over the kinds of steps. -/
theorem reach_invariant {ok : World τ → Action τ → Prop} (Inv : World τ → Prop)
    (hinit : ∀ thread, Inv (new thread))
    (hmoves : ∀ source action target, machine.Reach ok source → Inv source →
      ok source action → Moves source action target → Inv target)
    (h : machine.Reach ok w) : Inv w := by
  refine h.invariant Inv ?_ ?_
  · rintro _ ⟨thread, rfl⟩
    exact hinit thread
  · intro source action target hreach hinv hok hstep
    exact hmoves source action target hreach hinv hok (moves_of_step hstep)

/-- **Seen from the loop, every run of the world is a run of the loop.** -/
theorem reach_loop {ok : World τ → Action τ → Prop} (h : machine.Reach ok w) :
    w.Placed ∧ EventLoop.machine.Reach Machine.anyStep w.loop := by
  refine reach_invariant
    (fun w => w.Placed ∧ EventLoop.machine.Reach Machine.anyStep w.loop) ?_ ?_ h
  · exact fun thread => ⟨by simp [Placed, new], .init ⟨thread, rfl⟩⟩
  · rintro source action target - ⟨hplaced, hloop⟩ - hmoves
    refine ⟨hplaced.moves hmoves, ?_⟩
    cases hmoves with
    | loop hstep => exact .step hloop trivial (EventLoop.step_eq_next.mpr hstep)
    | epollWait hempty hreports hstep =>
        exact .step hloop trivial (EventLoop.step_eq_next.mpr hstep)
    | pointers => exact hloop
    | destroyed =>
        rw [loop_destroy]
        exact hloop
    | posted hmay => exact reach_postCallback hloop (hplaced.mayCall hmay) _
    | setCallbacks => exact hloop
    | fdClosed => exact hloop
    | born => exact hloop
    | exec hidle hstack hjob =>
        exact reach_apply hloop hidle (userCode_of_handlesEvents (hplaced.of_frameJob hstack hjob))
    | call hempty hcall hnext hstep =>
        exact reach_apply (.step hloop trivial (EventLoop.step_eq_next.mpr hstep))
          (not_stopping_of_call hcall hstep) (userCode_of_call hcall hstep)

theorem reach_loop_queues {ok : World τ → Action τ → Prop} (h : machine.Reach ok w) :
    w.loop.Queues :=
  EventLoop.reach_queues (reach_loop h).2

end World

end Mutiplex
