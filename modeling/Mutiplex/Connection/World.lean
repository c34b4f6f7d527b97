/-
# A loop, its connections and their users

`World` is one event loop with every connection ever registered with it, the
kernel's epoll table, the owners of the connections, and the threads that call
into them.  The loop thread's position inside an event handler or a task is a
stack of frames, innermost first; other threads can step in between any two
frames.  A connection is destroyed when its last owner goes; its name is not
used again, so whatever touches it afterwards is seen to use freed memory.

What user code does is free: in every window the code gives it, it may call any
public function on any connection it has a pointer to.  `history`, newest first,
records the past and is read by no step.
-/

import Mutiplex.Connection.Basic
import Mutiplex.EventLoop.Basic

namespace Mutiplex

open CMemory Transition

variable {τ : Type} [DecidableEq τ]

/-- What happened. -/
inductive Event (τ : Type)
  | /-- A task was posted. -/
    posted (entry : Posted τ Task)
  | /-- A task ran on its connection, which it found and left in these states. -/
    ran (entry : Posted τ Task) (job : Job) (found left : ConnState)
  | /-- The kernel took bytes from the output buffer. -/
    sent (c : ConnId) (bytes : ℕ)
  | /-- A user callback was called. -/
    called (c : ConnId) (callback : UserCallback)
  deriving DecidableEq, Repr

/-- One loop and all that hangs on it; `recvBuffer` is whether `recv_buffer_` is
not null. -/
structure World (τ : Type) where
  loop : EventLoop τ Task
  conns : ConnId → Option Connection
  nextId : ConnId
  connections : List (ℤ × ConnId)
  epoll : Epoll ConnId
  held : ConnId → ℕ
  buffers : BufferId → List UInt8
  recvBuffer : Bool
  stack : List Frame
  history : List (Event τ)

/-- An event `epoll_wait` reports: of `notify_event_`, of an event source that
is no connection's, or of the entry of a descriptor. -/
inductive Ready
  | notify
  | other
  | source (fd : ℤ) (readyOps : UInt32)
  deriving DecidableEq, Repr

/-- The calls user code makes. -/
inductive Call
  | close (c : ConnId)
  | forceClose (c : ConnId)
  | writeBuffer (c : ConnId) (buffer : BufferId)
  | writeData (c : ConnId) (data : List UInt8)
  | postCallback
  | /-- Keep another `ConnectionPtr`. -/
    share (c : ConnId)
  | /-- Let a `ConnectionPtr` go. -/
    drop (c : ConnId)
  | /-- Change what a `ByteBuffer` holds between position and limit. -/
    setBuffer (buffer : BufferId) (data : List UInt8)
  | setCallbacks (c : ConnId) (callbacks : Callbacks)
  | /-- `on_new_connection`, with whatever `accept4` returned or a `Connector`
    hands over. -/
    onNewConnection (fd : ℤ) (callbacks : Callbacks)
  | allocateReceiveBuffer (capacity : UInt32)
  | /-- `::close` outside `~Connection`, as a `Connector` calls it when it fails. -/
    closeFd (fd : ℤ)
  deriving DecidableEq, Repr

namespace World

/-- One step of the loop thread or of a thread that calls into the loop. -/
inductive Action (τ : Type)
  | /-- A step of `run` or `stop` that touches no connection. -/
    loop (action : EventLoop.Action τ Task)
  | epollWait (events : List Ready)
  | /-- Run the next frame; `n` is the kernel's answer if it asks for one. -/
    exec (n : ℤ)
  | /-- User code returns. -/
    returns
  | /-- Call the next callback of the batch or of the task queue. -/
    call
  | /-- That call returns. -/
    callReturns
  | endIteration
  | user (thread : τ) (call : Call)

variable (w : World τ)

/-! ## Ownership -/

/-- Something holds a shared pointer to the connection: its entry in
`connections_`, user code, the argument of a running callback, or the capture of
a task that is still in one of the vectors of the loop. -/
def Owned (c : ConnId) : Prop :=
  c ∈ w.connections.map Prod.snd ∨ 0 < w.held c ∨ Frame.inside (some c) ∈ w.stack ∨
    ∃ entry ∈ w.loop.entries, entry.callback.captured = some c

instance (c : ConnId) : Decidable (w.Owned c) :=
  inferInstanceAs (Decidable (_ ∨ _ ∨ _ ∨ _))

/-- `~Connection`: the event source is deleted, which takes it out of the epoll
table, and then the descriptor is closed. -/
def destroy (c : ConnId) : World τ :=
  match w.conns c with
  | none => w
  | some conn =>
      { w with
        conns := Function.update w.conns c none
        epoll := closeFd (conn.source.disableAll c w.epoll).2 conn.fd }

/-- A shared pointer to the connection has gone. -/
def release (c : ConnId) : World τ := if w.Owned c then w else w.destroy c

/-- `remove_connection`. -/
def removeConnection (fd : ℤ) : World τ :=
  match w.connections.lookup fd with
  | none => w
  | some c =>
      { w with
        connections := w.connections.filter (·.1 != fd)
        stack := .release c :: w.stack }

/-- `connections_.find(fd) != connections_.end()`. -/
def registered (fd : ℤ) : Bool := (w.connections.lookup fd).isSome

/-- The frames that give up the captures of the entries of a destroyed vector. -/
def releases (entries : List (Posted τ Task)) : List Frame :=
  (entries.filterMap (·.callback.captured)).map .release

/-! ## Tasks and jobs -/

/-- `post_callback`, called by `thread`. -/
def post (thread : τ) (task : Task) : World τ :=
  { w with
    loop := w.loop.postCallback thread task
    history := .posted (w.loop.entry thread task) :: w.history }

/-- The code of a connection that a task is. -/
def taskJob : Task → Option (ConnId × Job)
  | .close c => some (c, .close)
  | .forceClose c => some (c, .forceClose)
  | .writeBuffer c buffer => some (c, .doWrite (w.buffers buffer))
  | .writeData c data => some (c, .doWrite data)
  | .user => none

/-- The code of a connection that a frame is. -/
def frameJob (n : ℤ) : Frame → Option (ConnId × Job)
  | .events c readyOps =>
      if wants readyOps epollErr then some (c, .error)
      else if wants readyOps epollIn then some (c, .read n)
      else some (c, .skip)
  | .writable c readyOps => if wants readyOps epollOut then some (c, .write n) else some (c, .skip)
  | .callForceClose c => some (c, .callForceClose)
  | _ => none

/-- What is left of a frame after its job. -/
def frameRest : Frame → List Frame
  | .events c readyOps => if wants readyOps epollErr then [] else [.writable c readyOps]
  | _ => []

/-- The code of a connection that an action runs. -/
def job : Action τ → Option (ConnId × Job)
  | .exec n => w.stack.head?.bind (frameJob n)
  | .call => w.loop.nextEntry.bind fun entry => w.taskJob entry.callback
  | _ => none

/-- The answers the kernel can give: a read fails with -1 or returns a number of
bytes, and a write takes at most the bytes it is offered. -/
def Answers (conn : Connection) : Job → Prop
  | .read n => -1 ≤ n
  | .write n => -1 ≤ n ∧ n ≤ conn.backlog.toNat
  | _ => True

instance (conn : Connection) (job : Job) : Decidable (Answers conn job) := by
  cases job <;> unfold Answers <;> infer_instance

/-- What a job of `c` adds to the record, where `loop` is the loop it posts to
and `entry` the task it is the body of, if it is one. -/
def records (loop : EventLoop τ Task) (entry : Option (Posted τ Task)) (c : ConnId) (job : Job)
    (found : ConnState) (effect : Effect) : List (Event τ) :=
  (effect.called.map fun callback => Event.called c callback).toList ++
  (effect.post.map fun task => Event.posted (loop.entry loop.pthreadId task)).toList ++
  (effect.sent.map fun bytes => Event.sent c bytes).toList ++
  (entry.map fun entry => Event.ran entry job found effect.conn.state).toList

/-- Let the loop thread run a job of `c`, as the body of the task `entry` if it
is one. -/
def apply (entry : Option (Posted τ Task)) (c : ConnId) (job : Job) (found : ConnState)
    (effect : Effect) : World τ :=
  { w with
    conns := Function.update w.conns c (some effect.conn)
    epoll := effect.epoll
    loop := match effect.post with
      | none => w.loop
      | some task => w.loop.postCallback w.loop.pthreadId task
    stack := (effect.called.map fun _ => Frame.inside (some c)).toList ++ effect.after ++ w.stack
    history := records w.loop entry c job found effect ++ w.history }

@[inherit_doc apply]
def runJob (entry : Option (Posted τ Task)) (c : ConnId) (job : Job) : Outcome (World τ) Fault :=
  match w.conns c with
  | none => .fault .useAfterFree
  | some conn =>
      if Answers conn job then
        match conn.run c w.epoll (w.registered conn.fd) w.recvBuffer job with
        | .ok effect => .next (w.apply entry c job conn.state effect)
        | .error fault => .fault fault
      else .blocked

/-! ## User code -/

/-- The loop thread runs user code. -/
def UserCode : Prop :=
  match w.stack with
  | [] => w.loop.phase = .outside
  | .inside _ :: _ => True
  | _ => False

instance : Decidable w.UserCode := by
  unfold UserCode
  split <;> infer_instance

/-- A thread can call into the loop or into a connection. -/
def MayCall (thread : τ) : Prop :=
  thread ∉ w.loop.stopping ∧ (thread ≠ w.loop.pthreadId ∨ w.UserCode)

instance (thread : τ) : Decidable (w.MayCall thread) :=
  inferInstanceAs (Decidable (_ ∧ _))

/-- User code of the thread has a `ConnectionPtr`: one that it keeps, or the
argument of a callback it is inside of. -/
def HasPointer (thread : τ) (c : ConnId) : Prop :=
  0 < w.held c ∨ thread = w.loop.pthreadId ∧ Frame.inside (some c) ∈ w.stack

instance (thread : τ) (c : ConnId) : Decidable (w.HasPointer thread c) :=
  inferInstanceAs (Decidable (_ ∨ _))

/-- `on_new_connection` for a new `Connection`, to which the caller holds a
pointer. -/
def onNewConnection (fd : ℤ) (callbacks : Callbacks) : World τ :=
  let (conn, epoll) := Connection.registerEvent fd callbacks w.nextId w.epoll
  let called := conn.userCallback .established
  { w with
    conns := Function.update w.conns w.nextId (some conn)
    nextId := w.nextId + 1
    connections := (fd, w.nextId) :: w.connections.filter (·.1 != fd)
    epoll := epoll
    held := Function.update w.held w.nextId 1
    stack := ((w.connections.lookup fd).map Frame.release).toList ++
      (called.map fun _ => Frame.inside (some w.nextId)).toList ++ w.stack
    history := (called.map (Event.called w.nextId)).toList ++ w.history }

/-- Both overloads of `write`: post the task unless the connection is closed.
`fits` is whether the constructor of the `ByteBuffer` that the second one makes
finds its capacity, converted to `int`, positive. -/
def write (thread : τ) (c : ConnId) (fits : Bool) (task : Task) : Outcome (World τ) Fault :=
  match w.conns c with
  | none => .fault .useAfterFree
  | some conn =>
      if conn.isClosed then .next w
      else if fits then .next (w.post thread task)
      else .fault .assertion

/-- What a call of user code does. -/
def userCall (thread : τ) : Call → Outcome (World τ) Fault
  | .close c => if w.HasPointer thread c then .next (w.post thread (.close c)) else .blocked
  | .forceClose c =>
      if w.HasPointer thread c then .next (w.post thread (.forceClose c)) else .blocked
  | .writeBuffer c buffer =>
      if w.HasPointer thread c then w.write thread c true (.writeBuffer c buffer) else .blocked
  | .writeData c data =>
      if w.HasPointer thread c ∧ data.length < 2 ^ 32 then
        w.write thread c (0 < data.length ∧ data.length < 2 ^ 31) (.writeData c data)
      else .blocked
  | .postCallback => .next (w.post thread .user)
  | .share c =>
      if w.HasPointer thread c then
        .next { w with held := Function.update w.held c (w.held c + 1) }
      else .blocked
  | .drop c =>
      if 0 < w.held c then
        .next ({ w with held := Function.update w.held c (w.held c - 1) }.release c)
      else .blocked
  | .setBuffer buffer data =>
      if data.length < 2 ^ 31 then
        .next { w with buffers := Function.update w.buffers buffer data }
      else .blocked
  | .setCallbacks c callbacks =>
      if w.HasPointer thread c then
        match w.conns c with
        | none => .fault .useAfterFree
        | some conn =>
            .next { w with
              conns := Function.update w.conns c (some { conn with callbacks := callbacks }) }
      else .blocked
  | .onNewConnection fd callbacks =>
      if thread = w.loop.pthreadId then .next (w.onNewConnection fd callbacks) else .blocked
  | .allocateReceiveBuffer capacity =>
      if 0 < capacity.toNat ∧ capacity.toNat < 2 ^ 31 then .next { w with recvBuffer := true }
      else .fault .assertion
  | .closeFd fd => .next { w with epoll := closeFd w.epoll fd }

/-! ## Steps -/

/-- The kernel can report the event: the descriptor has an entry, and the events
are ones the entry asks for, or an error or hang-up. -/
def Reportable (table : Epoll ConnId) : Ready → Bool
  | .source fd readyOps =>
      match table fd with
      | none => false
      | some entry => readyOps &&& ~~~(entry.events ||| epollErr ||| epollHup) == 0
  | _ => true

/-- The descriptor of an event. -/
def readyFd : Ready → Option ℤ
  | .source fd _ => some fd
  | _ => none

/-- The events can be the result of one `epoll_wait`. -/
def Reports (events : List Ready) : Prop :=
  (∀ ready ∈ events, Reportable w.epoll ready) ∧ (events.filterMap readyFd).Nodup ∧
    events.count .notify ≤ 1

instance (events : List Ready) : Decidable (w.Reports events) :=
  inferInstanceAs (Decidable (_ ∧ _ ∧ _))

/-- The handler of an event; what the other event sources do is user code. -/
def readyFrame : Ready → Option Frame
  | .notify => some .readNotify
  | .other => some (.inside none)
  | .source fd readyOps => (w.epoll fd).map fun entry => .events entry.ptr readyOps

/-- The steps of `EventLoop` that touch no connection, and when they are
possible here. -/
def Allows : EventLoop.Action τ Task → Prop
  | .stopFlag thread => w.MayCall thread
  | .stopNotify _ => True
  | .enterRun _ => w.stack = []
  | .testRunning => w.stack = []
  | .epollWait none => w.stack = []
  | .swapPending => w.stack = []
  | .endBatch => w.stack = []
  | _ => False

instance (action : EventLoop.Action τ Task) : Decidable (w.Allows action) := by
  unfold Allows
  split <;> infer_instance

/-- Let the loop take a step of its own and go on from there. -/
def loopStep (action : EventLoop.Action τ Task)
    (rest : World τ → Outcome (World τ) Fault) : Outcome (World τ) Fault :=
  match w.loop.step action with
  | none => .blocked
  | some loop => rest { w with loop := loop }

/-- Run the innermost frame; user code is left by `returns` only. -/
def exec (n : ℤ) : Outcome (World τ) Fault :=
  match w.stack with
  | [] => .blocked
  | frame :: rest =>
      match frame with
      | .inside _ => .blocked
      | .readNotify => { w with stack := rest }.loopStep .readNotify .next
      | .removeConnection _ fd => .next ({ w with stack := rest }.removeConnection fd)
      | .release c => .next ({ w with stack := rest }.release c)
      | frame =>
          match frameJob n frame with
          | none => .blocked
          | some (c, job) => { w with stack := frameRest frame ++ rest }.runJob none c job

/-- The callback the loop thread has just called. -/
def callEntry (entry : Posted τ Task) : Outcome (World τ) Fault :=
  match w.taskJob entry.callback with
  | none => .next { w with stack := [.inside none] }
  | some (c, job) => w.runJob (some entry) c job

/-- One step. -/
def step : Action τ → Outcome (World τ) Fault
  | .loop action => if w.Allows action then w.loopStep action .next else .blocked
  | .epollWait events =>
      if w.stack = [] ∧ w.Reports events then
        w.loopStep (.epollWait (some (Ready.notify ∈ events))) fun w' =>
          .next { w' with stack := events.filterMap w.readyFrame }
      else .blocked
  | .exec n => if w.loop.pthreadId ∈ w.loop.stopping then .blocked else w.exec n
  | .returns =>
      if w.loop.pthreadId ∈ w.loop.stopping then .blocked
      else match w.stack with
        | .inside none :: rest => .next { w with stack := rest }
        | .inside (some c) :: rest => .next { w with stack := .release c :: rest }
        | _ => .blocked
  | .call =>
      match w.stack, w.loop.nextEntry with
      | [], some entry =>
          match w.loop.phase with
          | .batch _ => w.loopStep .callCallback fun w => w.callEntry entry
          | _ => w.loopStep .callTask fun w => w.callEntry entry
      | _, _ => .blocked
  | .callReturns =>
      if w.stack = [] then
        match w.loop.phase with
        | .batch _ => w.loopStep .callbackReturns .next
        | _ => w.loopStep .taskReturns fun w' =>
            .next { w' with stack := releases (w.loop.taskQueue.take 1) }
      else .blocked
  | .endIteration =>
      if w.stack = [] then
        w.loopStep .endIteration fun w' => .next { w' with stack := releases w.loop.ran }
      else .blocked
  | .user thread call => if w.MayCall thread then w.userCall thread call else .blocked

/-- A loop with no connections yet, constructed by `thread`. -/
def new (thread : τ) : World τ where
  loop := .new thread
  conns _ := none
  nextId := 0
  connections := []
  epoll _ := none
  held _ := 0
  buffers _ := []
  recvBuffer := false
  stack := []
  history := []

/-- The loop and its connections as a machine. -/
def machine : Machine (World τ) (Action τ) Fault where
  Init w := ∃ thread, w = new thread
  step w action := w.step action

end World

end Mutiplex
