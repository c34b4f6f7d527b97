/-
# Events and the life of their sources

`epoll_wait` leaves raw pointers to event sources, and user code runs between
one handler and the next.  A connection that is not closed has its entry in
`connections_`, which only a task takes out, so it outlives the event phase
whatever user code does.  A closed connection that user code still points to has
no entry any more, but is still in the epoll table: `close` and `force_close` do
not take it out.  Once it is reported, the last `ConnectionPtr` to it can go
before its handler is called, or inside it.
-/

import Mutiplex.Connection.Registry

namespace Mutiplex

open CMemory Transition

variable {τ : Type} [DecidableEq τ]

/-- The connection whose `handle_events` a frame is, or a part of. -/
def Frame.source : Frame → Option ConnId
  | .events c _ => some c
  | .writable c _ => some c
  | .callForceClose c => some c
  | _ => none

theorem Frame.source_of_isIdle {frame : Frame} (h : frame.isIdle = true) :
    frame.source = none := by
  cases frame <;> first | rfl | cases h

theorem Frame.source_of_frameJob {n : ℤ} {frame : Frame} {c : ConnId} {job : Job}
    (h : World.frameJob n frame = some (c, job)) : frame.source = some c := by
  cases frame with
  | events _ readyOps =>
      simp only [World.frameJob] at h
      split at h
      · cases h
        rfl
      · split at h <;> cases h <;> rfl
  | writable _ readyOps =>
      simp only [World.frameJob] at h
      split at h <;> cases h <;> rfl
  | callForceClose _ =>
      cases h
      rfl
  | _ => cases h

theorem Frame.source_of_frameRest {frame rest : Frame} (h : rest ∈ World.frameRest frame) :
    rest.source = frame.source := by
  cases frame with
  | events c readyOps =>
      simp only [World.frameRest] at h
      split at h
      · cases h
      · rw [List.mem_singleton.mp h]
        rfl
  | _ => cases h

/-- Only tasks change the state of a connection. -/
theorem Connection.Ran.state_eq {conn : Connection} {c : ConnId} {table : Epoll ConnId}
    {registered : Bool} {job : Job} {effect : Effect}
    (h : conn.Ran c table registered job effect) (htask : job.isTask = false) :
    effect.conn.state = conn.state := by
  cases h <;> first | rfl | cases htask

namespace World

variable {w w' : World τ} {action : Action τ} {c : ConnId}

/-- The connections whose event sources `epoll_wait` puts into `active_events`. -/
def reported (w : World τ) (events : List Ready) : List ConnId :=
  events.filterMap fun ready => (readyFd ready).bind fun fd => (w.epoll fd).map (·.ptr)

/-- The events an action reports. -/
def Action.events : Action τ → List Ready
  | .epollWait events => events
  | _ => []

/-- No closed connection is reported. -/
def ReportsOpen (w : World τ) (action : Action τ) : Prop :=
  ∀ c ∈ w.reported action.events, ∀ conn ∈ w.conns c, conn.state ≠ .closed

instance : DecidableRel (ReportsOpen : World τ → Action τ → Prop) :=
  fun w action => inferInstanceAs
    (Decidable (∀ c ∈ w.reported action.events, ∀ conn ∈ w.conns c, conn.state ≠ .closed))

/-- No closed connection is reported, and no connection is made of the descriptor
of another one. -/
def Orderly (w : World τ) (action : Action τ) : Prop := w.ReportsOpen action ∧ w.Fresh action

instance : DecidableRel (Orderly : World τ → Action τ → Prop) :=
  fun w action => inferInstanceAs (Decidable (w.ReportsOpen action ∧ w.Fresh action))

/-- The loop thread is in the loop over `active_events`, and no connection is made
of the descriptor of another one. -/
def Dispatching (w : World τ) (action : Action τ) : Prop :=
  w.loop.phase.handlesEvents = true ∧ w.Fresh action

instance : DecidableRel (Dispatching : World τ → Action τ → Prop) :=
  fun w action =>
    inferInstanceAs (Decidable (w.loop.phase.handlesEvents = true ∧ w.Fresh action))

/-! ## An open connection outlives the event phase -/

/-- The connection exists, has a descriptor and is not closed. -/
def IsOpen (w : World τ) (c : ConnId) : Prop :=
  ∃ conn, w.conns c = some conn ∧ 0 ≤ conn.fd ∧ conn.state ≠ .closed

omit [DecidableEq τ] in
theorem nextEntry_of_handlesEvents (h : w.loop.phase.handlesEvents = true) :
    w.loop.nextEntry = none := by
  unfold EventLoop.nextEntry
  split
  · rename_i hphase
    rw [hphase] at h
    cases h
  · rename_i hphase
    rw [hphase] at h
    cases h
  · rfl

theorem IsOpen.step (h : w.IsOpen c) (hreach : machine.Reach Fresh w)
    (hphase : w.loop.phase.handlesEvents = true) (hstep : w.step action = .next w') :
    w'.IsOpen c := by
  obtain ⟨conn, hconn, hnonneg, hopen⟩ := h
  have hmoves := moves_of_step hstep
  cases hmoves.fate (reach_loop hreach).1 (reach_loop_queues hreach) c with
  | same heq => exact ⟨conn, heq ▸ hconn, hnonneg, hopen⟩
  | gone heq =>
      exact absurd ((reach_listed hreach).closed_of_destroyed hmoves hconn hnonneg heq) hopen
  | posted heq => exact ⟨conn, heq ▸ hconn, hnonneg, hopen⟩
  | callbacks hold heq =>
      cases hconn.symm.trans hold
      exact ⟨_, heq, hnonneg, hopen⟩
  | born hnew hc =>
      exact absurd (hc ▸ (reach_numbered hreach).live c conn hconn) (Nat.lt_irrefl _)
  | ran hjob hbody hold hanswers hran hposts heq =>
      cases hconn.symm.trans hold
      refine ⟨_, heq, hran.fd_eq ▸ hnonneg, ?_⟩
      rcases hbody with ⟨-, htask⟩ | ⟨entry, -, hnext, -⟩
      · rwa [hran.state_eq htask]
      · rw [nextEntry_of_handlesEvents hphase] at hnext
        cases hnext

/-- What `epoll_wait` reports is a connection with a descriptor. -/
theorem isOpen_of_reported {events : List Ready} (hreach : machine.Reach Machine.anyStep w)
    (hok : w.ReportsOpen (.epollWait events)) (hc : c ∈ w.reported events) : w.IsOpen c := by
  obtain ⟨ready, -, hready⟩ := List.mem_filterMap.mp hc
  obtain ⟨fd, -, hptr⟩ := Option.bind_eq_some_iff.mp hready
  obtain ⟨entry, hentry, rfl⟩ := Option.map_eq_some_iff.mp hptr
  have hbacked := reach_backed hreach
  obtain ⟨conn, hconn, rfl⟩ := hbacked.of_entry hentry
  exact ⟨conn, hconn, hbacked.nonneg _ entry hentry, hok _ hc conn hconn⟩

/-! ## The handlers on the stack -/

/-- All handlers on the stack are of these connections. -/
def HandlersOf (w : World τ) (sources : List ConnId) : Prop :=
  ∀ frame ∈ w.stack, ∀ c, frame.source = some c → c ∈ sources

theorem HandlersOf.moves {sources : List ConnId} (h : w.HandlersOf sources)
    (hphase : w.loop.phase.handlesEvents = true) (hmoves : Moves w action w') :
    w'.HandlersOf sources := by
  have hidle : ∀ frame : Frame, frame.isIdle = true → ∀ c, frame.source = some c →
      c ∈ sources := by
    intro frame hidle c hsource
    rw [Frame.source_of_isIdle hidle] at hsource
    cases hsource
  intro frame hframe c hsource
  cases hmoves with
  | loop hstep hpost hcall hstack hplace =>
      rcases hstack.mem hframe with hold | hnew
      · exact h frame hold c hsource
      · exact hidle frame hnew c hsource
  | epollWait hempty hreports hstep =>
      cases EventLoop.moves_of_step hstep with
      | waitReturns hwaiting =>
          rw [hwaiting] at hphase
          cases hphase
  | pointers hconnections howned hstack =>
      rcases hstack.mem hframe with hold | hnew
      · exact h frame hold c hsource
      · exact hidle frame hnew c hsource
  | destroyed hlost hnot hheld hstack hplace =>
      rw [stack_destroy] at hframe
      exact h frame (hplace frame hframe) c hsource
  | posted => exact h frame hframe c hsource
  | setCallbacks => exact h frame hframe c hsource
  | fdClosed => exact h frame hframe c hsource
  | born =>
      simp only [onNewConnection, List.mem_append, Option.mem_toList,
        Option.map_eq_some_iff] at hframe
      rcases hframe with (⟨old, -, rfl⟩ | ⟨callback, -, rfl⟩) | hold
      · cases hsource
      · cases hsource
      · exact h frame hold c hsource
  | exec hfree hstack hjob hconn hanswers hran =>
      have hself := h _ (hstack ▸ List.mem_cons_self) _ (Frame.source_of_frameJob hjob)
      simp only [apply, List.mem_append, Option.mem_toList, Option.map_eq_some_iff] at hframe
      rcases hframe with (⟨callback, -, rfl⟩ | hafter) | hrest | htail
      · cases hsource
      · rcases hran.after_eq hafter with rfl | rfl
        · cases hsource
          exact hself
        · cases hsource
      · rw [Frame.source_of_frameRest hrest, Frame.source_of_frameJob hjob] at hsource
        cases hsource
        exact hself
      · exact h frame (hstack ▸ List.mem_cons_of_mem _ htail) c hsource
  | call hempty hcall hnext =>
      rw [nextEntry_of_handlesEvents hphase] at hnext
      cases hnext

theorem handlersOf_of_epollWait {events : List Ready}
    (hstep : w.step (.epollWait events) = .next w') : w'.HandlersOf (w.reported events) := by
  intro frame hframe c hsource
  cases branch_of_step hstep with
  | epollWait hempty hreports hmove =>
      rcases mem_readyFrame hframe with rfl | rfl | ⟨fd, readyOps, entry, hmem, hentry, rfl⟩
      · cases hsource
      · cases hsource
      · cases hsource
        exact List.mem_filterMap.mpr ⟨_, hmem, by simp [readyFd, hentry]⟩

/-- **As long as no closed connection is reported and no connection is made of a
descriptor that another one has, event dispatch never outlives its sources.** From
`epoll_wait` to the end of the event phase, whatever user code does, all
connections whose sources were reported exist; and these are the connections of
all handlers that are still to be called or have not returned. -/
theorem sources_outlive_dispatch (w waited later : World τ) (events : List Ready)
    (h : machine.Reach Orderly w) (hok : w.ReportsOpen (.epollWait events))
    (hwait : w.step (.epollWait events) = .next waited)
    (hpath : machine.Path Dispatching waited later) :
    (∀ c ∈ w.reported events, ∃ conn, later.conns c = some conn) ∧
      ∀ frame ∈ later.stack, ∀ c, frame.source = some c →
        c ∈ w.reported events ∧ ∃ conn, later.conns c = some conn := by
  have hnext : machine.step w (.epollWait events) = .next waited := hwait
  have hwaited : machine.Reach Fresh waited :=
    (h.mono fun _ _ => And.right).step (by rintro fd ⟨⟩) hnext
  have hwaiting : ∀ c ∈ w.reported events, waited.IsOpen c := by
    intro c hc
    obtain ⟨conn, hconn, hrest⟩ := isOpen_of_reported h.any hok hc
    cases moves_of_step hwait with
    | loop => exact ⟨conn, hconn, hrest⟩
    | epollWait => exact ⟨conn, hconn, hrest⟩
    | pointers => exact ⟨conn, hconn, hrest⟩
    | destroyed hlost => cases hlost
  obtain ⟨-, hhandlers, hopen⟩ := hpath.invariant
    (fun w' => machine.Reach Fresh w' ∧ w'.HandlersOf (w.reported events) ∧
      ∀ c ∈ w.reported events, w'.IsOpen c)
    ⟨hwaited, handlersOf_of_epollWait hwait, hwaiting⟩
    (by
      rintro source action target ⟨hreach, hhandlers, hopen⟩ ⟨hphase, hfresh⟩ hstep
      exact ⟨hreach.step hfresh hstep, hhandlers.moves hphase (moves_of_step hstep),
        fun c hc => (hopen c hc).step hreach hphase hstep⟩)
  have hexists : ∀ c ∈ w.reported events, ∃ conn, later.conns c = some conn := by
    intro c hc
    obtain ⟨conn, hconn, -⟩ := hopen c hc
    exact ⟨conn, hconn⟩
  refine ⟨hexists, fun frame hframe c hsource => ?_⟩
  have hc := hhandlers frame hframe c hsource
  exact ⟨hc, hexists c hc⟩

/-- Two connections are reported; the read callback of the first closes the
second by force and lets the last `ConnectionPtr` to it go. -/
theorem sources_outlive_dispatch_of_drop :
    ∃ w waited later : World ℕ, machine.Reach Orderly w ∧
      w.step (.epollWait [.source 5 1, .source 6 1]) = .next waited ∧
      machine.Path Dispatching waited later ∧ later.held 1 = 0 ∧
      ∃ conn, later.conns 1 = some conn := by
  have hnew : machine.Reach Orderly (new 0 : World ℕ) := .init ⟨0, rfl⟩
  obtain ⟨w, hreach, hok, hreported, hleads⟩ := hnew.exists_of_leads
    [.user 0 (.allocateReceiveBuffer 4096),
      .user 0 (.onNewConnection 5 ⟨false, true, false, false⟩),
      .user 0 (.onNewConnection 6 ⟨false, true, false, false⟩),
      .loop (.enterRun 0), .loop .testRunning]
    (P := fun w => w.ReportsOpen (.epollWait [.source 5 1, .source 6 1]) ∧
      1 ∈ w.reported [.source 5 1, .source 6 1] ∧
      (w.step (.epollWait [.source 5 1, .source 6 1])).Leads fun waited =>
        (machine.runWithin Dispatching waited
          [.exec 3, .user 0 (.forceClose 1), .user 0 (.drop 1), .returns, .exec 0]).Leads
          fun later => later.held 1 = 0)
    (by decide)
  obtain ⟨waited, hwait, hruns⟩ := Outcome.leads_iff.mp hleads
  obtain ⟨later, hpath, hheld⟩ := Machine.exists_path_of_leads _ hruns
  exact ⟨w, waited, later, hreach, hwait, hpath, hheld,
    (sources_outlive_dispatch w waited later _ hreach hok hwait hpath).1 1 hreported⟩

/-- The handler of a destroyed connection can be called: a connection that was
closed, and to which user code still has a pointer, is reported together with
another one, whose read callback lets that pointer go. -/
theorem not_sources_outlive_dispatch :
    ∃ w : World ℕ, machine.Reach Machine.anyStep w ∧
      w.stack.head? = some (.events 1 1) ∧ w.conns 1 = none := by
  have hnew : machine.Reach Machine.anyStep (new 0 : World ℕ) := .init ⟨0, rfl⟩
  exact hnew.exists_of_leads
    [.user 0 (.allocateReceiveBuffer 4096),
      .user 0 (.onNewConnection 5 ⟨false, true, false, false⟩),
      .user 0 (.onNewConnection 6 ⟨false, true, false, false⟩), .user 0 (.close 1),
      .loop (.enterRun 0), .loop .testRunning, .epollWait [], .loop .swapPending, .loop .endBatch,
      .call, .exec 0, .exec 0, .callReturns, .exec 0, .endIteration, .loop .testRunning,
      .epollWait [.source 5 1, .source 6 1], .exec 3, .user 0 (.drop 1), .returns, .exec 0, .exec 0]
    (by decide)

end World

end Mutiplex
