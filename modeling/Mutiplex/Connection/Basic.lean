/-
# Connections

The code of `Connection` as it runs on the loop thread: the callbacks of its
event source, the bodies of the tasks it posts, and the functions they call.
Each of them is a `Job`; its `Effect` is the connection and the epoll table it
leaves, the task it posts, the user callback it ends in, and the statements that
follow once that callback has returned.

A connection is modelled from `register_event` on, so it always has its event
source.  The address members and `buffer_size_` are read by no function here.
-/

import Mutiplex.CircularBuffer.Basic
import Mutiplex.EventSource

namespace Mutiplex

open CMemory

/-- A connection object; a new object never gets the name of an old one. -/
abbrev ConnId := ℕ

/-- A `ByteBuffer` object owned by user code. -/
abbrev BufferId := ℕ

/-- `Connection::State`. -/
inductive ConnState
  | new
  | receiving
  | disconnecting
  | closed
  deriving DecidableEq, Repr

/-- The callbacks user code can set. -/
inductive UserCallback
  | established
  | read
  | closed
  | error
  deriving DecidableEq, Repr

/-- Which of the callbacks are set. -/
structure Callbacks where
  established : Bool
  read : Bool
  closed : Bool
  error : Bool
  deriving DecidableEq, Repr

/-- The members of `Connection`. -/
structure Connection where
  fd : ℤ
  state : ConnState
  source : EventSource
  bufferOut : Option CircularBuffer
  callbacks : Callbacks
  deriving DecidableEq, Repr

/-- What a callback in a queue of the loop holds.  `close`, `force_close` and
`write(const ByteBufferPtr&)` capture `shared_from_this()`, and the last one the
buffer, which is read when the task runs; `write(const void*, uint32_t)`
captures `this` and a copy of the bytes. -/
inductive Task
  | close (c : ConnId)
  | forceClose (c : ConnId)
  | writeBuffer (c : ConnId) (buffer : BufferId)
  | writeData (c : ConnId) (data : List UInt8)
  | /-- A callback of user code. -/
    user
  deriving DecidableEq, Repr

namespace Task

/-- The connection a task operates on. -/
def target : Task → Option ConnId
  | close c => some c
  | forceClose c => some c
  | writeBuffer c _ => some c
  | writeData c _ => some c
  | user => none

/-- The connection a task keeps alive. -/
def captured : Task → Option ConnId
  | writeData _ _ => none
  | task => task.target

/-- The task of one of the two `write`s. -/
def isWrite : Task → Bool
  | writeBuffer _ _ => true
  | writeData _ _ => true
  | _ => false

end Task

/-- What the loop thread still has to do inside an event handler or a task,
innermost first. -/
inductive Frame
  | /-- `handle_events` of a connection's event source. -/
    events (c : ConnId) (readyOps : UInt32)
  | /-- The second half of `handle_events`, after the reading callback. -/
    writable (c : ConnId) (readyOps : UInt32)
  | /-- The reading callback of `notify_event_`. -/
    readNotify
  | /-- User code; `some c` when it was called with the connection `c`. -/
    inside (argument : Option ConnId)
  | /-- The statement `force_close()` after the user callback of a read error. -/
    callForceClose (c : ConnId)
  | /-- The statement `remove_connection(fd)` of a task of `c`. -/
    removeConnection (c : ConnId) (fd : ℤ)
  | /-- The end of the life of a shared pointer to `c`. -/
    release (c : ConnId)
  deriving DecidableEq, Repr

/-- The pieces of code of a connection, with the answer of the kernel where one
is needed. -/
inductive Job
  | /-- `handle_events` finds nothing to call. -/
    skip
  | /-- The `EPOLLERR` branch of `handle_events`. -/
    error
  | /-- The reading callback, where `read` returns `n`. -/
    read (n : ℤ)
  | /-- The writing callback, where `write` or `writev` returns `n`. -/
    write (n : ℤ)
  | /-- The call `force_close()`. -/
    callForceClose
  | /-- The body of the task of `close`. -/
    close
  | /-- The body of the task of `force_close`. -/
    forceClose
  | /-- The call of `do_write` in the task of a `write`. -/
    doWrite (data : List UInt8)
  deriving DecidableEq, Repr

/-- The job is the body of a task. -/
def Job.isTask : Job → Bool
  | .close => true
  | .forceClose => true
  | .doWrite _ => true
  | _ => false

/-- What a job leaves behind. -/
structure Effect where
  conn : Connection
  epoll : Epoll ConnId
  post : Option Task
  sent : Option ℕ
  called : Option UserCallback
  after : List Frame

namespace Connection

/-- The constructor followed by `register_event`. -/
def registerEvent (fd : ℤ) (callbacks : Callbacks) (c : ConnId) (table : Epoll ConnId) :
    Connection × Epoll ConnId :=
  let (source, epoll) := (EventSource.new fd).enableReading c table
  ({ fd := fd
     state := .receiving
     source := source
     bufferOut := none
     callbacks := callbacks }, epoll)

variable (conn : Connection)

/-- `is_closed`. -/
def isClosed : Bool := conn.state = .closed ∨ conn.state = .disconnecting

/-- `has_bytes_to_write`. -/
def hasBytesToWrite : Bool :=
  match conn.bufferOut with
  | none => false
  | some b => !b.empty

/-- The number of bytes in the output buffer. -/
def backlog : UInt32 :=
  match conn.bufferOut with
  | none => 0
  | some b => b.bufferLen

/-- A user callback, if it is set. -/
def userCallback (callback : UserCallback) : Option UserCallback :=
  let set := match callback with
    | .established => conn.callbacks.established
    | .read => conn.callbacks.read
    | .closed => conn.callbacks.closed
    | .error => conn.callbacks.error
  if set then some callback else none

variable (c : ConnId) (table : Epoll ConnId)

/-- A job that leaves the connection and the table as they are. -/
def idle : Effect where
  conn := conn
  epoll := table
  post := none
  sent := none
  called := none
  after := []

/-- `disable_reading`, `disable_writing` and `disable_all` of the event source. -/
def withSource (change : EventSource → ConnId → Epoll ConnId → EventSource × Epoll ConnId) :
    Effect :=
  { conn.idle table with
    conn := { conn with source := (change conn.source c table).1 }
    epoll := (change conn.source c table).2 }

/-- The error callback of the event source, and the `disable_all` that
`handle_events` calls after it. -/
def errorCallback : Effect :=
  { conn.withSource c table EventSource.disableAll with post := some (.forceClose c) }

/-- The reading callback of the event source; `recvBuffer` is whether the loop
has allocated its receive buffer, which the callback clears first. -/
def readingCallback (recvBuffer : Bool) (n : ℤ) : Except Fault Effect :=
  if recvBuffer = false then throw .nullDereference
  else if n < 0 then
    return { conn.idle table with
      called := conn.userCallback .error, after := [.callForceClose c] }
  else if n = 0 then
    return { conn.withSource c table EventSource.disableReading with post := some (.close c) }
  else return { conn.idle table with called := conn.userCallback .read }

/-- `handle_write`. -/
def handleWrite (n : ℤ) : Except Fault Effect :=
  match conn.bufferOut with
  | none => throw .nullDereference
  | some b =>
      if b.empty then throw .assertion
      else do
        let written ← b.writeToFd n
        let conn := { conn with bufferOut := some written.buffer }
        let sent := if n < 0 then none else some n.toNat
        if written.total < 0 then
          return { conn.idle table with
            sent := sent, post := some (.forceClose c), called := conn.userCallback .error }
        else if written.total = 0 then
          return { conn.idle table with sent := sent, post := some (.forceClose c) }
        else if conn.state = .disconnecting then
          return { conn.withSource c table EventSource.disableWriting with
            sent := sent, post := some (.close c) }
        else if written.buffer.empty then
          return { conn.withSource c table EventSource.disableWriting with sent := sent }
        else return { conn.idle table with sent := sent }

/-- The task of `close`. -/
def closeTask : Effect :=
  if conn.hasBytesToWrite then
    { conn.idle table with conn := { conn with state := .disconnecting } }
  else
    { conn.idle table with
      conn := { conn with state := .closed }
      called := conn.userCallback .closed
      after := [.removeConnection c conn.fd] }

/-- The task of `force_close`; `registered` is whether `connections_` has an
entry under the connection's descriptor. -/
def forceCloseTask (registered : Bool) : Except Fault Effect :=
  match conn.bufferOut with
  | none => throw .nullDereference
  | some b =>
      let conn := { conn with
        state := .closed
        bufferOut := some b.clear
        source := conn.source.setInterestOps 0 }
      if registered then
        return { conn.idle table with
          called := conn.userCallback .closed
          after := [.removeConnection c conn.fd] }
      else return conn.idle table

/-- `do_write`. -/
def doWrite (data : List UInt8) : Except Fault Effect :=
  if conn.state = .closed then return { conn.idle table with post := some (.forceClose c) }
  else do
    let b ← (conn.bufferOut.getD (.new (UInt32.ofNat data.length))).put data
    return { conn with bufferOut := some b }.withSource c table EventSource.enableWriting

/-- Run a job. -/
def run (registered recvBuffer : Bool) : Job → Except Fault Effect
  | .skip => return conn.idle table
  | .error => return conn.errorCallback c table
  | .read n => conn.readingCallback c table recvBuffer n
  | .write n => conn.handleWrite c table n
  | .callForceClose => return { conn.idle table with post := some (.forceClose c) }
  | .close => return conn.closeTask c table
  | .forceClose => conn.forceCloseTask c table registered
  | .doWrite data => conn.doWrite c table data

end Connection

end Mutiplex
