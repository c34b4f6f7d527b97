/-
# The connector and its one descriptor

A `Connector` makes its socket in the constructor and connects it in
`start_connect`, which can be called again: each call makes a new event source
and forgets the old one, which may still be in the epoll table.  The descriptor
ends in one of two ways, by `::close` after `connect_error_callback_` or by a
`Connection` made of it, which has an event source of its own.

The stack holds what the loop thread still has to do in the code of the
connector, innermost first; user code runs in its two callbacks, in the handlers
of other sources that come before its own in the same batch, and whenever nothing
is left to do.  A number the kernel has given to another file after a close is
not part of the model: on a closed descriptor `epoll_ctl` fails.

`ends` and `calls`, newest first, record the past and are read by no step.
-/

import Mutiplex.EventSource.Mirror
import Mutiplex.Lib.CMemory

namespace Mutiplex

open CMemory Transition

namespace Connector

/-- Whose event source an entry of the epoll table points to: the one of a call of
`start_connect`, or the one of a `Connection`. -/
inductive Owner
  | source (attempt : ℕ)
  | connection (k : ℕ)
  deriving DecidableEq, Repr

/-- What the loop thread still has to do. -/
inductive Frame
  | /-- `handle_events` of the source of an attempt. -/
    events (attempt : ℕ) (readyOps : UInt32)
  | /-- User code in `connect_error_callback_`. -/
    insideError
  | /-- User code in `established_callback_`. -/
    insideEstablished
  | /-- The statement `::close(fd_)` of `handle_error`. -/
    close
  | /-- The statement `disable_all()` of `handle_events`. -/
    disableAll (attempt : ℕ)
  deriving DecidableEq, Repr

/-- How the connector parts with its descriptor. -/
inductive End
  | closed
  | handedOver
  deriving DecidableEq, Repr

end Connector

/-- A connector, its descriptor, and the connections made of it.  `sources` are
the event sources in the order of the calls of `start_connect`; the last one is
`event_source_`. -/
structure Connector where
  fd : ℕ
  connectErrorCallback : Bool
  establishedCallback : Bool
  sources : List EventSource
  alive : Bool
  opened : Bool
  epoll : Epoll Connector.Owner
  connections : List (Option EventSource)
  stack : List Connector.Frame
  ends : List Connector.End
  calls : List ℕ

namespace Connector

/-- The constructor, with the callbacks that are set afterwards. -/
def new (fd : ℕ) (connectErrorCallback establishedCallback : Bool) : Connector where
  fd := fd
  connectErrorCallback := connectErrorCallback
  establishedCallback := establishedCallback
  sources := []
  alive := true
  opened := true
  epoll _ := none
  connections := []
  stack := []
  ends := []
  calls := []

variable (c : Connector)

/-- The table after an operation of an event source of the descriptor. -/
def ctl (table : Epoll Owner) : Epoll Owner := if c.opened then table else c.epoll

/-- An operation on the source of an attempt. -/
def operate (attempt : ℕ) (op : SourceOp) : Connector :=
  match c.sources[attempt]? with
  | none => c
  | some ev =>
      { c with
        sources := c.sources.set attempt (ev.operate (.source attempt) c.epoll op).1
        epoll := c.ctl (ev.operate (.source attempt) c.epoll op).2 }

/-- The number of the attempt that `event_source_` belongs to. -/
def current : ℕ := c.sources.length - 1

/-- `handle_error`, up to the call of the callback. -/
def handleError (attempt : ℕ) : Connector :=
  { c with
    stack := (if c.connectErrorCallback then [.insideError] else []) ++ .close :: c.stack
    calls := if c.connectErrorCallback then attempt :: c.calls else c.calls }

/-- The `Connection` that `handle_connected` makes, and `on_new_connection` for it. -/
def handOver (attempt : ℕ) : Connector :=
  let registered := (EventSource.new c.fd).enableReading (.connection c.connections.length) c.epoll
  { c with
    connections := c.connections ++ [some registered.1]
    epoll := c.ctl registered.2
    stack := (if c.establishedCallback then [.insideEstablished] else []) ++ c.stack
    ends := .handedOver :: c.ends
    calls := if c.establishedCallback then attempt :: c.calls else c.calls }

/-- `handle_connected`, where `SO_ERROR` is `err`. -/
def handleConnected (attempt : ℕ) (err : ℤ) : Connector :=
  let c := c.operate c.current .disableWriting
  if err ≠ 0 then c.handleError attempt else c.handOver attempt

/-- `start_connect`, where `do_connect` returns `connected`. -/
def startConnect (connected : Bool) : Connector :=
  let attempt := c.sources.length
  let c := { c with sources := c.sources ++ [EventSource.new c.fd] }
  if connected then c.operate attempt .enableWriting else c.handleError attempt

/-- `handle_events` of the source of an attempt. -/
def handleEvents (attempt : ℕ) (readyOps : UInt32) (err : ℤ) : Connector :=
  if wants readyOps epollErr then
    { c with stack := .disableAll attempt :: c.stack }.handleError attempt
  else if wants readyOps epollOut then c.handleConnected attempt err
  else c

/-- `::close(fd_)`, which also takes the descriptor out of the table. -/
def close : Connector :=
  { c with
    opened := false
    epoll := c.ctl (Function.update c.epoll c.fd none)
    ends := .closed :: c.ends }

/-- `~Connector`. -/
def destroy : Connector := { c.operate c.current .disableAll with alive := false }

/-- An operation of a connection on its event source. -/
def operateConnection (k : ℕ) (op : SourceOp) (ev : EventSource) : Connector :=
  { c with
    connections := c.connections.set k (some (ev.operate (.connection k) c.epoll op).1)
    epoll := c.ctl (ev.operate (.connection k) c.epoll op).2 }

/-- `~Connection`, which closes the descriptor as its owner. -/
def destroyConnection (k : ℕ) : Connector :=
  { c with
    connections := c.connections.set k none
    opened := false
    epoll := c.ctl (Function.update c.epoll c.fd none) }

/-- What can happen. -/
inductive Action
  | startConnect (connected : Bool)
  | /-- `epoll_wait` reports the entry of the descriptor. -/
    report (readyOps : UInt32)
  | /-- The handler is called; `SO_ERROR` is `err`. -/
    handleEvents (err : ℤ)
  | /-- A user callback returns. -/
    returns
  | close
  | disableAll
  | destroy
  | operateConnection (k : ℕ) (op : SourceOp)
  | destroyConnection (k : ℕ)
  deriving DecidableEq, Repr

/-- User code can run. -/
def userCode : Bool :=
  match c.stack with
  | .close :: _ => false
  | .disableAll _ :: _ => false
  | _ => true

/-- Code of the connector, or of a source that captured it, runs. -/
def guarded (next : Connector) : Outcome Connector Fault :=
  if c.alive then .next next else .fault .useAfterFree

/-- One step. -/
def step : Action → Outcome Connector Fault
  | .startConnect connected =>
      if c.alive ∧ c.userCode then .next (c.startConnect connected) else .blocked
  | .report readyOps =>
      match c.stack, c.epoll c.fd with
      | [], some ⟨events, .source attempt⟩ =>
          if readyOps &&& ~~~(events ||| epollErr ||| epollHup) = 0 then
            .next { c with stack := [.events attempt readyOps] }
          else .blocked
      | _, _ => .blocked
  | .handleEvents err =>
      match c.stack with
      | .events attempt readyOps :: rest =>
          c.guarded ({ c with stack := rest }.handleEvents attempt readyOps err)
      | _ => .blocked
  | .returns =>
      match c.stack with
      | .insideError :: rest => .next { c with stack := rest }
      | .insideEstablished :: rest => .next { c with stack := rest }
      | _ => .blocked
  | .close =>
      match c.stack with
      | .close :: rest => c.guarded { c with stack := rest }.close
      | _ => .blocked
  | .disableAll =>
      match c.stack with
      | .disableAll attempt :: rest =>
          c.guarded ({ c with stack := rest }.operate attempt .disableAll)
      | _ => .blocked
  | .destroy => if c.alive ∧ c.userCode then .next c.destroy else .blocked
  | .operateConnection k op =>
      match c.connections[k]? with
      | some (some ev) => .next (c.operateConnection k op ev)
      | _ => .blocked
  | .destroyConnection k =>
      match c.connections[k]? with
      | some (some _) => .next (c.destroyConnection k)
      | _ => .blocked

/-- The connector as a machine. -/
def machine : Machine Connector Action Fault where
  Init c := ∃ fd errorSet establishedSet, c = new fd errorSet establishedSet
  step c action := c.step action

/-! ## Restarting -/

/-- The result of `do_connect` in a step that calls `start_connect`. -/
def Action.started : Action → Option Bool
  | .startConnect connected => some connected
  | _ => none

/-- `start_connect` is called only as long as the descriptor is neither closed nor
made into a connection; and when its `connect` fails at once, no handler of the
connector is running or waiting. -/
def Restarts (c : Connector) (action : Action) : Prop :=
  ∀ connected ∈ action.started, c.opened = true ∧ c.connections = [] ∧
    (connected = false → c.stack = [])

instance : DecidableRel Restarts := fun c action =>
  inferInstanceAs (Decidable (∀ connected ∈ action.started, c.opened = true ∧
    c.connections = [] ∧ (connected = false → c.stack = [])))

variable {c} {c' : Connector} {action : Action}

/-! ## Event sources of the descriptor -/

/-- The event sources are of the descriptor, and those of the connector ask for
`EPOLLOUT` or nothing. -/
structure Wired (c : Connector) : Prop where
  source : ∀ ev ∈ c.sources, ev.fd = c.fd ∧ (ev.interestOps = 0 ∨ ev.interestOps = epollOut)
  connection : ∀ ev, some ev ∈ c.connections → ev.fd = c.fd

/-- What the connector does with its sources. -/
def usesSource : SourceOp → Bool
  | .enableWriting => true
  | .disableWriting => true
  | .disableAll => true
  | _ => false

theorem interestOps_operate {ev : EventSource} {ptr : Owner} {table : Epoll Owner} {op : SourceOp}
    (huse : usesSource op = true) (hops : ev.interestOps = 0 ∨ ev.interestOps = epollOut) :
    (ev.operate ptr table op).1.interestOps = 0 ∨
      (ev.operate ptr table op).1.interestOps = epollOut := by
  cases op with
  | enableWriting =>
      right
      show (ev.enableOps ptr table epollOut).1.interestOps = epollOut
      rw [EventSource.interestOps_enableOps]
      rcases hops with hops | hops <;> rw [hops] <;> decide
  | disableWriting =>
      left
      show (ev.disableOps ptr table epollOut).1.interestOps = 0
      rw [EventSource.interestOps_disableOps]
      rcases hops with hops | hops <;> rw [hops] <;> decide
  | disableAll => exact Or.inl EventSource.interestOps_disableAll
  | _ => cases huse

theorem Wired.operate (h : c.Wired) {op : SourceOp} (huse : usesSource op = true)
    (attempt : ℕ) : (c.operate attempt op).Wired := by
  unfold Connector.operate
  split
  · exact h
  · rename_i ev hev
    refine ⟨fun ev' hev' => ?_, h.connection⟩
    obtain ⟨hfd, hops⟩ := h.source ev (List.mem_of_getElem? hev)
    rcases List.mem_or_eq_of_mem_set hev' with hold | rfl
    · exact h.source ev' hold
    · exact ⟨by rw [EventSource.fd_operate]; exact hfd, interestOps_operate huse hops⟩

section Operate

variable {attempt : ℕ} {op : SourceOp}

@[simp]
theorem fd_operate : (c.operate attempt op).fd = c.fd := by
  unfold operate
  split <;> rfl

@[simp]
theorem opened_operate : (c.operate attempt op).opened = c.opened := by
  unfold operate
  split <;> rfl

@[simp]
theorem connections_operate : (c.operate attempt op).connections = c.connections := by
  unfold operate
  split <;> rfl

@[simp]
theorem stack_operate : (c.operate attempt op).stack = c.stack := by
  unfold operate
  split <;> rfl

@[simp]
theorem ends_operate : (c.operate attempt op).ends = c.ends := by
  unfold operate
  split <;> rfl

@[simp]
theorem calls_operate : (c.operate attempt op).calls = c.calls := by
  unfold operate
  split <;> rfl

@[simp]
theorem length_sources_operate : (c.operate attempt op).sources.length = c.sources.length := by
  unfold operate
  split
  · rfl
  · exact List.length_set

theorem sources_operate_eq_nil : (c.operate attempt op).sources = [] ↔ c.sources = [] := by
  rw [← List.length_eq_zero_iff, length_sources_operate, List.length_eq_zero_iff]

/-- Without sources there is nothing to operate on. -/
theorem operate_of_nil (h : c.sources = []) : c.operate attempt op = c := by
  simp [operate, h]

/-- On a closed descriptor the table stays as it is. -/
theorem epoll_operate_of_closed (h : c.opened = false) :
    (c.operate attempt op).epoll = c.epoll := by
  unfold operate
  split
  · rfl
  · simp [ctl, h]

end Operate

theorem getElem?_current (h : c.sources ≠ []) : ∃ ev, c.sources[c.current]? = some ev := by
  have hlt : c.current < c.sources.length := by
    have := List.length_pos_iff.mpr h
    unfold current
    omega
  exact ⟨_, List.getElem?_eq_getElem hlt⟩

/-- `disable_writing` on `event_source_` takes the descriptor out of the table,
whichever source had put it there. -/
theorem epoll_disableWriting (h : c.Wired) (hopened : c.opened = true) (hne : c.sources ≠ []) :
    (c.operate c.current .disableWriting).epoll c.fd = none ∧
      ∀ ev, (c.operate c.current .disableWriting).sources[c.current]? = some ev →
        ev.state = .noEvent := by
  obtain ⟨ev, hev⟩ := getElem?_current hne
  obtain ⟨hfd, hops⟩ := h.source ev (List.mem_of_getElem? hev)
  have hzero : ev.interestOps &&& ~~~epollOut = 0 := by
    rcases hops with hops | hops <;> rw [hops] <;> decide
  have hdisabled : ev.disableOps (Owner.source c.current) c.epoll epollOut =
      ({ ev with interestOps := ev.interestOps &&& ~~~epollOut, state := .noEvent },
        { ev with interestOps := ev.interestOps &&& ~~~epollOut }.unregisterEvent
          (Owner.source c.current) c.epoll) := by
    simp only [EventSource.disableOps, if_pos hzero]
  have heq : c.operate c.current .disableWriting =
      { c with
        sources := c.sources.set c.current
          (ev.disableOps (Owner.source c.current) c.epoll epollOut).1
        epoll := (ev.disableOps (Owner.source c.current) c.epoll epollOut).2 } := by
    simp only [operate, hev, ctl, hopened, if_true]
    rfl
  constructor
  · rw [heq, hdisabled, ← hfd]
    exact epollCtl_del_self _ _ _
  · intro ev' hev'
    have hlt : c.current < c.sources.length := (List.getElem?_eq_some_iff.mp hev).1
    rw [heq, hdisabled] at hev'
    simp only [List.getElem?_set_self hlt, Option.some.injEq] at hev'
    rw [← hev']

/-- `disable_all` of a source that is not registered leaves the table. -/
theorem epoll_disableAll {attempt : ℕ}
    (hidle : ∀ ev, c.sources[attempt]? = some ev → ev.state = .noEvent) :
    (c.operate attempt .disableAll).epoll = c.epoll := by
  unfold operate
  split
  · rfl
  · rename_i ev hev
    have hstate := hidle ev hev
    simp [ctl, EventSource.operate, EventSource.disableAll, hstate]

/-! ## The stages of a connector -/

/-- How far the descriptor has come. -/
inductive Stage (c : Connector) : Prop
  | /-- Connecting, or not yet; at most one event waits to be handled. -/
    waiting (hopened : c.opened = true) (hconnections : c.connections = []) (hends : c.ends = [])
      (hcalls : c.calls = []) (hentry : c.sources = [] → c.epoll c.fd = none)
      (hstack : c.stack = [] ∨ c.sources ≠ [] ∧ ∃ attempt readyOps,
        c.stack = [.events attempt readyOps])
  | /-- Inside `handle_error`, before `::close`. -/
    failing (hopened : c.opened = true) (hconnections : c.connections = []) (hends : c.ends = [])
      (hcalls : c.calls.length ≤ 1) (hstack : ∃ rest,
        (rest = [] ∨ ∃ attempt, rest = [.disableAll attempt]) ∧
        (c.stack = .close :: rest ∨ c.stack = .insideError :: .close :: rest))
  | closed (hopened : c.opened = false) (hconnections : c.connections = [])
      (hends : c.ends = [.closed]) (hcalls : c.calls.length ≤ 1)
      (hstack : c.stack = [] ∨ ∃ attempt, c.stack = [.disableAll attempt])
      (hentry : c.epoll c.fd = none)
  | handedOver (hconnections : c.connections ≠ []) (hends : c.ends = [.handedOver])
      (hcalls : c.calls.length ≤ 1) (hstack : c.stack = [] ∨ c.stack = [.insideEstablished])
      (hidle : ∀ ev, c.sources[c.current]? = some ev → ev.state = .noEvent)
      (hentry : ∀ entry, c.epoll c.fd = some entry → ∃ k, entry.ptr = .connection k)

/-- What the loop thread goes on with, and what is known of the descriptor then. -/
inductive Pending (c : Connector) : Frame → List Frame → Prop
  | events {attempt : ℕ} {readyOps : UInt32} (hopened : c.opened = true)
      (hconnections : c.connections = []) (hends : c.ends = []) (hcalls : c.calls = [])
      (hne : c.sources ≠ []) : Pending c (.events attempt readyOps) []
  | close {rest : List Frame} (hopened : c.opened = true) (hconnections : c.connections = [])
      (hends : c.ends = []) (hcalls : c.calls.length ≤ 1)
      (hrest : rest = [] ∨ ∃ attempt, rest = [.disableAll attempt]) : Pending c .close rest
  | insideError {rest : List Frame} (hopened : c.opened = true)
      (hconnections : c.connections = []) (hends : c.ends = []) (hcalls : c.calls.length ≤ 1)
      (hrest : rest = [] ∨ ∃ attempt, rest = [.disableAll attempt]) :
      Pending c .insideError (.close :: rest)
  | disableAll {attempt : ℕ} (hopened : c.opened = false) (hconnections : c.connections = [])
      (hends : c.ends = [.closed]) (hcalls : c.calls.length ≤ 1) (hentry : c.epoll c.fd = none) :
      Pending c (.disableAll attempt) []
  | insideEstablished (hconnections : c.connections ≠ []) (hends : c.ends = [.handedOver])
      (hcalls : c.calls.length ≤ 1)
      (hidle : ∀ ev, c.sources[c.current]? = some ev → ev.state = .noEvent)
      (hentry : ∀ entry, c.epoll c.fd = some entry → ∃ k, entry.ptr = .connection k) :
      Pending c .insideEstablished []

/-- The frame on top of the stack tells the stage. -/
theorem Stage.pending (h : c.Stage) {frame : Frame} {rest : List Frame}
    (hstack : c.stack = frame :: rest) : c.Pending frame rest := by
  cases h with
  | waiting hopened hconnections hends hcalls hentry hstack' =>
      rcases hstack' with hstack' | ⟨hne, attempt, readyOps, hstack'⟩
      · cases hstack.symm.trans hstack'
      · cases hstack.symm.trans hstack'
        exact .events hopened hconnections hends hcalls hne
  | failing hopened hconnections hends hcalls hstack' =>
      obtain ⟨rest', hrest, hstack' | hstack'⟩ := hstack'
      · cases hstack.symm.trans hstack'
        exact .close hopened hconnections hends hcalls hrest
      · cases hstack.symm.trans hstack'
        exact .insideError hopened hconnections hends hcalls hrest
  | closed hopened hconnections hends hcalls hstack' hentry =>
      rcases hstack' with hstack' | ⟨attempt, hstack'⟩
      · cases hstack.symm.trans hstack'
      · cases hstack.symm.trans hstack'
        exact .disableAll hopened hconnections hends hcalls hentry
  | handedOver hconnections hends hcalls hstack' hidle hentry =>
      rcases hstack' with hstack' | hstack'
      · cases hstack.symm.trans hstack'
      · cases hstack.symm.trans hstack'
        exact .insideEstablished hconnections hends hcalls hidle hentry

/-- `handle_error` before the descriptor has ended. -/
theorem Stage.handleError (hopened : c.opened = true) (hconnections : c.connections = [])
    (hends : c.ends = []) (hcalls : c.calls = [])
    (hstack : c.stack = [] ∨ ∃ attempt, c.stack = [.disableAll attempt]) (attempt : ℕ) :
    (c.handleError attempt).Stage := by
  refine .failing hopened hconnections hends ?_ ⟨c.stack, hstack, ?_⟩
  · simp only [Connector.handleError, hcalls]
    split <;> simp
  · cases hset : c.connectErrorCallback with
    | true => exact Or.inr (by simp [Connector.handleError, hset])
    | false => exact Or.inl (by simp [Connector.handleError, hset])

theorem Stage.startConnect (h : c.Stage) {connected : Bool}
    (hok : c.opened = true ∧ c.connections = [] ∧ (connected = false → c.stack = [])) :
    (c.startConnect connected).Stage := by
  obtain ⟨hopen, hfresh, hfails⟩ := hok
  cases connected with
  | false =>
      have hempty := hfails rfl
      cases h with
      | waiting hopened hconnections hends hcalls hentry hstack =>
          have hstage := Stage.handleError
            (c := { c with sources := c.sources ++ [EventSource.new c.fd] })
            hopened hconnections hends hcalls (Or.inl hempty) c.sources.length
          exact hstage
      | failing hopened hconnections hends hcalls hstack =>
          obtain ⟨rest, -, hstack | hstack⟩ := hstack <;> cases hstack.symm.trans hempty
      | closed hopened => cases hopened.symm.trans hopen
      | handedOver hconnections => exact absurd hfresh hconnections
  | true =>
      have hne : ({ c with sources := c.sources ++ [EventSource.new c.fd] }.operate
          c.sources.length .enableWriting).sources ≠ [] := by
        rw [ne_eq, sources_operate_eq_nil]
        simp
      cases h with
      | waiting hopened hconnections hends hcalls hentry hstack =>
          refine .waiting ?_ ?_ ?_ ?_ (fun hnil => absurd hnil hne) ?_
          · simpa [Connector.startConnect] using hopened
          · simpa [Connector.startConnect] using hconnections
          · simpa [Connector.startConnect] using hends
          · simpa [Connector.startConnect] using hcalls
          · simp only [Connector.startConnect, if_true, stack_operate]
            exact hstack.imp id fun hevents => ⟨hne, hevents.2⟩
      | failing hopened hconnections hends hcalls hstack =>
          refine .failing ?_ ?_ ?_ ?_ ?_
          · simpa [Connector.startConnect] using hopened
          · simpa [Connector.startConnect] using hconnections
          · simpa [Connector.startConnect] using hends
          · simpa [Connector.startConnect] using hcalls
          · simpa [Connector.startConnect] using hstack
      | closed hopened => cases hopened.symm.trans hopen
      | handedOver hconnections => exact absurd hfresh hconnections

/-- The connection's own source is registered once the connector's is not. -/
theorem entry_handOver (habsent : c.epoll c.fd = none) (attempt : ℕ) (entry : EpollEntry Owner)
    (h : (c.handOver attempt).epoll c.fd = some entry) : ∃ k, entry.ptr = .connection k := by
  have hsynced : ((EventSource.new c.fd).enableReading
      (Owner.connection c.connections.length) c.epoll).1.Synced
        (Owner.connection c.connections.length) _ :=
    (EventSource.synced_new habsent).enableOps (by decide)
  cases hopened : c.opened with
  | false =>
      simp only [handOver, ctl, hopened, Bool.false_eq_true, if_false, habsent] at h
      cases h
  | true =>
      simp only [handOver, ctl, hopened, if_true] at h
      have hentry := hsynced.entry
      rw [EventSource.enableReading, EventSource.fd_enableOps] at hentry
      rw [show (EventSource.new c.fd).fd = c.fd from rfl] at hentry
      rw [EventSource.enableReading, hentry] at h
      split at h
      · cases h
        exact ⟨_, rfl⟩
      · cases h

theorem Stage.handleConnected (hwired : c.Wired) (hopened : c.opened = true)
    (hconnections : c.connections = []) (hends : c.ends = []) (hcalls : c.calls = [])
    (hne : c.sources ≠ []) (hstack : c.stack = []) (attempt : ℕ) (err : ℤ) :
    (c.handleConnected attempt err).Stage := by
  obtain ⟨habsent, hidle⟩ := epoll_disableWriting hwired hopened hne
  unfold Connector.handleConnected
  dsimp only
  split
  · exact .handleError (by simpa using hopened) (by simpa using hconnections)
      (by simpa using hends) (by simpa using hcalls) (Or.inl (by simpa using hstack)) _
  · refine .handedOver (by simp [handOver]) (by simp [handOver, hends]) ?_ ?_ ?_ ?_
    · simp only [handOver, calls_operate, hcalls]
      split <;> simp
    · simp only [handOver, stack_operate, hstack, List.append_nil]
      split
      · exact Or.inr rfl
      · exact Or.inl rfl
    · intro ev hev
      refine hidle ev ?_
      simpa [handOver, current] using hev
    · intro entry hentry
      exact entry_handOver (by simpa using habsent) attempt entry hentry

theorem Stage.handleEvents (hwired : c.Wired) (hopened : c.opened = true)
    (hconnections : c.connections = []) (hends : c.ends = []) (hcalls : c.calls = [])
    (hne : c.sources ≠ []) (hstack : c.stack = []) (attempt : ℕ) (readyOps : UInt32) (err : ℤ) :
    (c.handleEvents attempt readyOps err).Stage := by
  unfold Connector.handleEvents
  split
  · exact Stage.handleError (c := { c with stack := .disableAll attempt :: c.stack })
      hopened hconnections hends hcalls (Or.inr ⟨attempt, by rw [hstack]⟩) attempt
  · split
    · exact .handleConnected hwired hopened hconnections hends hcalls hne hstack attempt err
    · exact .waiting hopened hconnections hends hcalls (fun hnil => absurd hnil hne)
        (Or.inl hstack)

/-- A connection's source leaves entries of its own only. -/
theorem entry_operateConnection {k : ℕ} {op : SourceOp} {ev : EventSource}
    (hold : ∀ entry, c.epoll c.fd = some entry → ∃ k, entry.ptr = .connection k)
    (entry : EpollEntry Owner) (h : (c.operateConnection k op ev).epoll c.fd = some entry) :
    ∃ k, entry.ptr = .connection k := by
  simp only [operateConnection, ctl] at h
  split at h
  · rw [EventSource.operate_eq_issue] at h
    rcases EventSource.issue_cases h with hsame | rfl
    · exact hold entry hsame
    · exact ⟨k, rfl⟩
  · exact hold entry h

/-- Where there is a connection, the descriptor has been handed over. -/
theorem Stage.of_connection (h : c.Stage) {k : ℕ} {ev : EventSource}
    (hev : c.connections[k]? = some (some ev)) :
    c.connections ≠ [] ∧ c.ends = [.handedOver] ∧ c.calls.length ≤ 1 ∧
      (c.stack = [] ∨ c.stack = [.insideEstablished]) ∧
      (∀ ev, c.sources[c.current]? = some ev → ev.state = .noEvent) ∧
      ∀ entry, c.epoll c.fd = some entry → ∃ k, entry.ptr = .connection k := by
  have hmem : some ev ∈ c.connections := List.mem_of_getElem? hev
  cases h with
  | waiting hopened hconnections => simp [hconnections] at hmem
  | failing hopened hconnections => simp [hconnections] at hmem
  | closed hopened hconnections => simp [hconnections] at hmem
  | handedOver hconnections hends hcalls hstack hidle hentry =>
      exact ⟨hconnections, hends, hcalls, hstack, hidle, hentry⟩

theorem Stage.operateConnection (h : c.Stage) {k : ℕ} {op : SourceOp} {ev : EventSource}
    (hev : c.connections[k]? = some (some ev)) : (c.operateConnection k op ev).Stage := by
  obtain ⟨hconnections, hends, hcalls, hstack, hidle, hentry⟩ := h.of_connection hev
  refine .handedOver ?_ hends hcalls hstack hidle (entry_operateConnection hentry)
  simpa [Connector.operateConnection] using hconnections

theorem Stage.destroyConnection (h : c.Stage) {k : ℕ} {ev : EventSource}
    (hev : c.connections[k]? = some (some ev)) : (c.destroyConnection k).Stage := by
  obtain ⟨hconnections, hends, hcalls, hstack, hidle, hentry⟩ := h.of_connection hev
  refine .handedOver ?_ hends hcalls hstack hidle ?_
  · simpa [Connector.destroyConnection] using hconnections
  · intro entry hsome
    simp only [Connector.destroyConnection, ctl] at hsome
    split at hsome
    · rw [Function.update_self] at hsome
      cases hsome
    · exact hentry entry hsome

theorem Stage.destroy (h : c.Stage) : c.destroy.Stage := by
  have hsources : c.destroy.sources = [] → c.sources = [] := sources_operate_eq_nil.mp
  cases h with
  | waiting hopened hconnections hends hcalls hentry hstack =>
      refine .waiting ?_ ?_ ?_ ?_ ?_ ?_
      · simpa [Connector.destroy] using hopened
      · simpa [Connector.destroy] using hconnections
      · simpa [Connector.destroy] using hends
      · simpa [Connector.destroy] using hcalls
      · intro hnil
        rw [Connector.destroy, operate_of_nil (hsources hnil)]
        exact hentry (hsources hnil)
      · simp only [Connector.destroy, stack_operate]
        exact hstack.imp id fun hevents => ⟨fun hnil => hevents.1 (hsources hnil), hevents.2⟩
  | failing hopened hconnections hends hcalls hstack =>
      refine .failing ?_ ?_ ?_ ?_ ?_
      · simpa [Connector.destroy] using hopened
      · simpa [Connector.destroy] using hconnections
      · simpa [Connector.destroy] using hends
      · simpa [Connector.destroy] using hcalls
      · simpa [Connector.destroy] using hstack
  | closed hopened hconnections hends hcalls hstack hentry =>
      refine .closed ?_ ?_ ?_ ?_ ?_ ?_
      · simpa [Connector.destroy] using hopened
      · simpa [Connector.destroy] using hconnections
      · simpa [Connector.destroy] using hends
      · simpa [Connector.destroy] using hcalls
      · simpa [Connector.destroy] using hstack
      · simpa [Connector.destroy, epoll_operate_of_closed hopened] using hentry
  | handedOver hconnections hends hcalls hstack hidle hentry =>
      refine .handedOver ?_ ?_ ?_ ?_ ?_ ?_
      · simpa [Connector.destroy] using hconnections
      · simpa [Connector.destroy] using hends
      · simpa [Connector.destroy] using hcalls
      · simpa [Connector.destroy] using hstack
      · intro ev hev
        have hev : (c.operate c.current .disableAll).sources[c.current]? = some ev := by
          simpa [Connector.destroy, current] using hev
        unfold Connector.operate at hev
        split at hev
        · exact hidle ev hev
        · rename_i old hold
          have hlt := (List.getElem?_eq_some_iff.mp hold).1
          simp only [List.getElem?_set_self hlt, Option.some.injEq] at hev
          rw [← hev]
          exact EventSource.state_disableAll
      · simpa [Connector.destroy, epoll_disableAll hidle] using hentry

theorem Stage.close (h : c.Stage) {rest : List Frame} (hstack : c.stack = .close :: rest) :
    ({ c with stack := rest }.close).Stage := by
  cases h.pending hstack with
  | close hopened hconnections hends hcalls hrest =>
      refine .closed rfl hconnections (congrArg (End.closed :: ·) hends) hcalls hrest ?_
      simp [Connector.close, ctl, hopened]

theorem Stage.disableAll (h : c.Stage) {attempt : ℕ} {rest : List Frame}
    (hstack : c.stack = .disableAll attempt :: rest) :
    ({ c with stack := rest }.operate attempt .disableAll).Stage := by
  cases h.pending hstack with
  | disableAll hopened hconnections hends hcalls hentry =>
      refine .closed ?_ ?_ ?_ ?_ (Or.inl (by simp)) ?_
      · simpa using hopened
      · simpa using hconnections
      · simpa using hends
      · simpa using hcalls
      · rw [fd_operate, epoll_operate_of_closed (by exact hopened)]
        exact hentry

/-- A user callback returns. -/
theorem Stage.returns (h : c.Stage) {frame : Frame} {rest : List Frame}
    (hstack : c.stack = frame :: rest)
    (hframe : frame = .insideError ∨ frame = .insideEstablished) :
    ({ c with stack := rest }).Stage := by
  cases h.pending hstack with
  | insideError hopened hconnections hends hcalls hrest =>
      exact .failing hopened hconnections hends hcalls ⟨_, hrest, Or.inl rfl⟩
  | insideEstablished hconnections hends hcalls hidle hentry =>
      exact .handedOver hconnections hends hcalls (Or.inl rfl) hidle hentry
  | events | close | disableAll => rcases hframe with hframe | hframe <;> cases hframe

theorem Stage.report (h : c.Stage) {attempt : ℕ} {events readyOps : UInt32}
    (hstack : c.stack = []) (hentry : c.epoll c.fd = some ⟨events, .source attempt⟩) :
    ({ c with stack := [.events attempt readyOps] }).Stage := by
  cases h with
  | waiting hopened hconnections hends hcalls habsent =>
      refine .waiting hopened hconnections hends hcalls habsent (Or.inr ⟨?_, _, _, rfl⟩)
      intro hnil
      cases hentry.symm.trans (habsent hnil)
  | failing hopened hconnections hends hcalls hstack' =>
      obtain ⟨rest, -, hstack' | hstack'⟩ := hstack' <;> cases hstack.symm.trans hstack'
  | closed hopened hconnections hends hcalls hstack' habsent =>
      cases hentry.symm.trans habsent
  | handedOver hconnections hends hcalls hstack' hidle howner =>
      obtain ⟨k, hptr⟩ := howner _ hentry
      cases hptr

/-- The handler is called. -/
theorem Stage.events (h : c.Stage) (hwired : c.Wired) {attempt : ℕ} {readyOps : UInt32}
    {rest : List Frame} (hstack : c.stack = .events attempt readyOps :: rest) (err : ℤ) :
    ({ c with stack := rest }.handleEvents attempt readyOps err).Stage := by
  cases h.pending hstack with
  | events hopened hconnections hends hcalls hne =>
      have hwired' : ({ c with stack := [] } : Connector).Wired :=
        ⟨hwired.source, hwired.connection⟩
      exact .handleEvents hwired' hopened hconnections hends hcalls hne rfl attempt readyOps err

/-! ## Every step -/

theorem Wired.startConnect (h : c.Wired) (connected : Bool) :
    (c.startConnect connected).Wired := by
  have hadded : ({ c with sources := c.sources ++ [EventSource.new c.fd] } : Connector).Wired := by
    refine ⟨fun ev hev => ?_, h.connection⟩
    rcases List.mem_append.mp hev with hold | hnew
    · exact h.source ev hold
    · rw [List.mem_singleton.mp hnew]
      exact ⟨rfl, Or.inl rfl⟩
  cases connected with
  | true => exact hadded.operate rfl _
  | false => exact ⟨hadded.source, hadded.connection⟩

theorem Wired.handOver (h : c.Wired) (attempt : ℕ) : (c.handOver attempt).Wired := by
  refine ⟨h.source, fun ev hev => ?_⟩
  rcases List.mem_append.mp hev with hold | hnew
  · exact h.connection ev hold
  · cases List.mem_singleton.mp hnew
    exact EventSource.fd_enableOps _

theorem Wired.handleEvents (h : c.Wired) (attempt : ℕ) (readyOps : UInt32) (err : ℤ) :
    (c.handleEvents attempt readyOps err).Wired := by
  have hdisabled : (c.operate c.current .disableWriting).Wired := h.operate rfl c.current
  unfold Connector.handleEvents
  split
  · exact ⟨h.source, h.connection⟩
  · split
    · unfold handleConnected
      dsimp only
      split
      · exact ⟨hdisabled.source, hdisabled.connection⟩
      · exact hdisabled.handOver attempt
    · exact h

theorem Wired.operateConnection (h : c.Wired) {k : ℕ} {op : SourceOp} {ev : EventSource}
    (hev : c.connections[k]? = some (some ev)) : (c.operateConnection k op ev).Wired := by
  refine ⟨h.source, fun ev' hev' => ?_⟩
  rcases List.mem_or_eq_of_mem_set hev' with hold | hnew
  · exact h.connection ev' hold
  · cases hnew
    rw [EventSource.fd_operate]
    exact h.connection ev (List.mem_of_getElem? hev)

theorem Wired.destroyConnection (h : c.Wired) (k : ℕ) : (c.destroyConnection k).Wired := by
  refine ⟨h.source, fun ev hev => ?_⟩
  rcases List.mem_or_eq_of_mem_set hev with hold | hnew
  · exact h.connection ev hold
  · cases hnew

/-- Code that ran did so on a connector that exists. -/
theorem guarded_eq_next {next : Connector} (h : c.guarded next = .next c') : c' = next := by
  unfold guarded at h
  split at h
  · cases h
    rfl
  · cases h

/-- **Every step leads from one stage to the next.** -/
theorem Stage.step (h : c.Stage) (hwired : c.Wired) (hok : c.Restarts action)
    (hstep : c.step action = .next c') : c'.Stage ∧ c'.Wired := by
  cases action with
  | startConnect connected =>
      simp only [Connector.step] at hstep
      split at hstep <;> cases hstep
      exact ⟨h.startConnect (hok connected rfl), hwired.startConnect connected⟩
  | report readyOps =>
      simp only [Connector.step] at hstep
      split at hstep
      · rename_i hstack hentry
        split at hstep <;> cases hstep
        exact ⟨h.report hstack hentry, hwired.source, hwired.connection⟩
      · cases hstep
  | handleEvents err =>
      simp only [Connector.step] at hstep
      split at hstep
      · rename_i attempt readyOps rest hstack
        rw [guarded_eq_next hstep]
        have hwired' : ({ c with stack := rest } : Connector).Wired :=
          ⟨hwired.source, hwired.connection⟩
        exact ⟨h.events hwired hstack err, hwired'.handleEvents attempt readyOps err⟩
      · cases hstep
  | returns =>
      simp only [Connector.step] at hstep
      split at hstep
      · cases hstep
        exact ⟨h.returns ‹_› (Or.inl rfl), hwired.source, hwired.connection⟩
      · cases hstep
        exact ⟨h.returns ‹_› (Or.inr rfl), hwired.source, hwired.connection⟩
      · cases hstep
  | close =>
      simp only [Connector.step] at hstep
      split at hstep
      · rw [guarded_eq_next hstep]
        exact ⟨h.close ‹_›, hwired.source, hwired.connection⟩
      · cases hstep
  | disableAll =>
      simp only [Connector.step] at hstep
      split at hstep
      · rename_i attempt rest hstack
        rw [guarded_eq_next hstep]
        have hwired' : ({ c with stack := rest } : Connector).Wired :=
          ⟨hwired.source, hwired.connection⟩
        exact ⟨h.disableAll hstack, hwired'.operate rfl attempt⟩
      · cases hstep
  | destroy =>
      simp only [Connector.step] at hstep
      split at hstep <;> cases hstep
      have hwired' : (c.operate c.current .disableAll).Wired := hwired.operate rfl c.current
      exact ⟨h.destroy, hwired'.source, hwired'.connection⟩
  | operateConnection k op =>
      simp only [Connector.step] at hstep
      split at hstep <;> cases hstep
      exact ⟨h.operateConnection ‹_›, hwired.operateConnection ‹_›⟩
  | destroyConnection k =>
      simp only [Connector.step] at hstep
      split at hstep <;> cases hstep
      exact ⟨h.destroyConnection ‹_›, hwired.destroyConnection k⟩

theorem reach_stage (h : machine.Reach Restarts c) : c.Stage ∧ c.Wired := by
  refine h.invariant (fun c => c.Stage ∧ c.Wired) ?_ ?_
  · rintro _ ⟨fd, errorSet, establishedSet, rfl⟩
    refine ⟨.waiting rfl rfl rfl rfl (fun _ => rfl) (Or.inl rfl), ?_, ?_⟩
    · intro ev hev
      cases hev
    · intro ev hev
      cases hev
  · exact fun _ _ _ _ hinv hok hstep => hinv.1.step hinv.2 hok hstep

/-- **As long as connecting is not started again on a descriptor that has ended or
is about to, the descriptor has one owner and one end.** It is closed by the
connector or handed to a connection at most once in total, and never closed by
the connector once a connection has it; each call of `start_connect` leads to at
most one user callback; and destroying the connector after a hand-over leaves the
epoll table as it is. -/
theorem descriptor_has_one_end (c : Connector) (h : machine.Reach Restarts c) :
    c.ends.length ≤ 1 ∧ (.handedOver ∈ c.ends → .closed ∉ c.ends) ∧
      (∀ attempt, c.calls.count attempt ≤ 1) ∧
      (.handedOver ∈ c.ends → ∀ c', c.step .destroy = .next c' → c'.epoll = c.epoll) := by
  have hcount : c.calls.length ≤ 1 → ∀ attempt, c.calls.count attempt ≤ 1 :=
    fun hle attempt => List.count_le_length.trans hle
  cases (reach_stage h).1 with
  | waiting hopened hconnections hends hcalls => simp [hends, hcalls]
  | failing hopened hconnections hends hcalls =>
      exact ⟨by simp [hends], by simp [hends], hcount hcalls, by simp [hends]⟩
  | closed hopened hconnections hends hcalls =>
      exact ⟨by simp [hends], by simp [hends], hcount hcalls, by simp [hends]⟩
  | handedOver hconnections hends hcalls hstack hidle =>
      refine ⟨by simp [hends], by simp [hends], hcount hcalls, fun _ c' hstep => ?_⟩
      simp only [step] at hstep
      split at hstep <;> cases hstep
      exact epoll_disableAll hidle

/-- Connecting is started again while it is under way, and again from the error
callback, with a `connect` that does not fail. -/
theorem descriptor_has_one_end_of_restarts :
    ∃ c : Connector, machine.Reach Restarts c ∧ c.sources.length = 3 ∧ c.ends = [.closed] ∧
      ∀ attempt, c.calls.count attempt ≤ 1 := by
  have hnew : machine.Reach Restarts (new 5 true true) := .init ⟨5, true, true, rfl⟩
  obtain ⟨c, hreach, hlength, hends⟩ := hnew.exists_of_leads
    [.startConnect true, .startConnect true, .report 0x00c, .handleEvents 0, .startConnect true,
      .returns, .close, .disableAll]
    (P := fun c => c.sources.length = 3 ∧ c.ends = [.closed])
    (by decide)
  exact ⟨c, hreach, hlength, hends, (descriptor_has_one_end c hreach).2.2.1⟩

/-- Calling `start_connect` again after a failure closes the descriptor a second
time; after a success it closes the descriptor of the connection, or, where the
second `connect` succeeds, makes the destructor take the connection out of the
epoll table. -/
theorem not_descriptor_has_one_end :
    (∃ c : Connector, machine.Reach Machine.anyStep c ∧ c.ends = [.closed, .closed]) ∧
    (∃ c : Connector, machine.Reach Machine.anyStep c ∧ c.ends = [.closed, .handedOver]) ∧
    ∃ c c' : Connector, machine.Reach Machine.anyStep c ∧ c.ends = [.handedOver] ∧
      c.epoll 5 = some ⟨epollIn, .connection 0⟩ ∧ c.step .destroy = .next c' ∧
      c'.epoll 5 = none := by
  have hnew : machine.Reach Machine.anyStep (new 5 true true) := .init ⟨5, true, true, rfl⟩
  refine ⟨?_, ?_, ?_⟩
  · exact hnew.exists_of_leads
      [.startConnect false, .returns, .close, .startConnect false, .returns, .close]
      (by decide)
  · exact hnew.exists_of_leads
      [.startConnect true, .report 0x004, .handleEvents 0, .returns, .startConnect false,
        .returns, .close]
      (by decide)
  · obtain ⟨c, hreach, hends, hentry, hleads⟩ := hnew.exists_of_leads
      [.startConnect true, .report 0x004, .handleEvents 0, .returns, .startConnect true]
      (P := fun c => c.ends = [.handedOver] ∧ c.epoll 5 = some ⟨epollIn, .connection 0⟩ ∧
        (c.step .destroy).Leads fun c' => c'.epoll 5 = none)
      (by decide)
    obtain ⟨c', hstep, hnone⟩ := Outcome.leads_iff.mp hleads
    exact ⟨c, c', hreach, hends, hentry, hstep, hnone⟩

end Connector

end Mutiplex
