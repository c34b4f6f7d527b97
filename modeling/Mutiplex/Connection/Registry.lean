/-
# The registry of connections

`connections_` is keyed by descriptor.  A connection is entered under its own
descriptor, over whatever was there, and the tasks that close it erase that
number again, later and possibly twice.  Nothing goes wrong as long as the
numbers tell the connections apart.  Two things break that: the -1 of a failed
`accept4`, which the accept callback passes on like any other, and a `Connector`
that closes or hands over a descriptor which a connection still has.
-/

import Mutiplex.Connection.Descriptors

namespace Mutiplex

open CMemory Transition

variable {τ : Type} [DecidableEq τ]

/-! ## The task being executed -/

namespace EventLoop

variable {κ : Type} {s s' : EventLoop τ κ} {action : Action τ κ}

/-- The callback the loop thread is inside of. -/
def current (s : EventLoop τ κ) : Option (Posted τ κ) :=
  match s.phase with
  | .batch true => s.ran.getLast?
  | .draining true => s.taskQueue.head?
  | _ => none

omit [DecidableEq τ] in
theorem userCode_of_current {entry : Posted τ κ} (h : s.current = some entry) :
    s.phase.userCode = true := by
  unfold current at h
  split at h
  · rename_i hphase
    rw [hphase]
    rfl
  · rename_i hphase
    rw [hphase]
    rfl
  · cases h

omit [DecidableEq τ] in
/-- The callback being called is still in one of the vectors of the loop. -/
theorem mem_entries_of_current {entry : Posted τ κ} (h : s.current = some entry) :
    entry ∈ s.entries := by
  unfold current at h
  simp only [entries, List.mem_append]
  split at h
  · exact Or.inl (Or.inr (List.mem_of_getLast? h))
  · exact Or.inr (List.mem_of_head? h)
  · cases h

theorem current_postCallback {entry : Posted τ κ} (h : s.current = some entry) (thread : τ)
    (callback : κ) : (s.postCallback thread callback).current = some entry := by
  unfold postCallback
  split
  · unfold current at h ⊢
    split at h
    · simp [*]
    · simp [*, List.head?_append]
    · cases h
  · exact h

/-- A callback that is being called is so until it returns. -/
theorem current_move {entry : Posted τ κ} (h : s.current = some entry)
    (hmove : s.move action = some s') :
    s'.current = some entry ∨ s'.phase.userCode = false := by
  have hnone : (∀ calling, s.phase ≠ .batch calling) → (∀ calling, s.phase ≠ .draining calling) →
      False := by
    intro hbatch hdraining
    unfold current at h
    split at h
    · exact hbatch true ‹_›
    · exact hdraining true ‹_›
    · cases h
  cases moves_of_move hmove with
  | callbackReturns hphase => exact Or.inr rfl
  | taskReturns hphase hqueue => exact Or.inr rfl
  | endBatch hphase hcallbacks => exact Or.inr rfl
  | endIteration hphase hqueue => exact Or.inr rfl
  | callCallback hphase hcallbacks => simp [current, hphase] at h
  | callTask hphase hqueue => simp [current, hphase] at h
  | post hmay => exact Or.inl (current_postCallback h _ _)
  | stopFlag hmay => exact Or.inl h
  | stopNotify hmem => exact Or.inl h
  | enterRun hphase hfree => exact (hnone (by simp [hphase]) (by simp [hphase])).elim
  | goOn hphase hrunning => exact Or.inr rfl
  | leave hphase hrunning => exact (hnone (by simp [hphase]) (by simp [hphase])).elim
  | waitFails hphase => exact (hnone (by simp [hphase]) (by simp [hphase])).elim
  | waitReturns hphase hcount => exact (hnone (by simp [hphase]) (by simp [hphase])).elim
  | readNotify hphase => exact (hnone (by simp [hphase]) (by simp [hphase])).elim
  | swapPending hphase => exact Or.inr rfl

/-- A call makes the next callback the current one. -/
theorem current_of_call {entry : Posted τ κ} (hcall : action.isCall = true)
    (hnext : s.nextEntry = some entry) (hmove : s.move action = some s') :
    s'.current = some entry := by
  cases moves_of_move hmove with
  | callCallback hphase hcallbacks =>
      simp only [nextEntry, hphase, hcallbacks, List.head?_cons] at hnext
      simp [current, hnext]
  | callTask hphase hqueue =>
      simp only [nextEntry, hphase] at hnext
      exact hnext
  | _ => cases hcall

end EventLoop

/-- A connection is closed before its entry is taken out, and by a task. -/
theorem Connection.Ran.removes {conn : Connection} {c other : ConnId} {table : Epoll ConnId}
    {registered : Bool} {job : Job} {effect : Effect} {fd : ℤ}
    (h : conn.Ran c table registered job effect)
    (hframe : .removeConnection other fd ∈ effect.after) :
    job.isTask = true ∧ other = c ∧ fd = conn.fd ∧ effect.conn.state = .closed := by
  cases h with
  | closes => simpa [Job.isTask] using hframe
  | forceCloses => simp_all [Job.isTask]
  | readFails => simp at hframe
  | _ => cases hframe

namespace World

variable {w w' : World τ} {action : Action τ} {c : ConnId}

/-! ## Entries taken out -/

/-- Every `remove_connection` that is still to come belongs to the task being
executed, whose connection is closed and has that descriptor. -/
def Removing (w : World τ) : Prop :=
  ∀ c fd, Frame.removeConnection c fd ∈ w.stack →
    (∃ entry, w.loop.current = some entry ∧ entry.callback.captured = some c) ∧
      ∃ conn, w.conns c = some conn ∧ conn.fd = fd ∧ conn.state = .closed

omit [DecidableEq τ] in
theorem owned_of_current {entry : Posted τ Task} (hcurrent : w.loop.current = some entry)
    (hcaptured : entry.callback.captured = some c) : w.Owned c :=
  Or.inr (Or.inr (Or.inr ⟨entry, EventLoop.mem_entries_of_current hcurrent, hcaptured⟩))

theorem not_removeConnection_frameRest {frame : Frame} {fd : ℤ} :
    Frame.removeConnection c fd ∉ frameRest frame := by
  cases frame <;> simp only [frameRest, List.not_mem_nil, not_false_eq_true]
  split <;> simp

omit [DecidableEq τ] in
theorem not_removeConnection_readyFrame {events : List Ready} {fd : ℤ} :
    Frame.removeConnection c fd ∉ events.filterMap w.readyFrame := by
  intro hframe
  rcases mem_readyFrame hframe with heq | heq | ⟨_, _, _, -, -, heq⟩ <;> cases heq

theorem current_apply {entry : Option (Posted τ Task)} {job : Job} {found : ConnState}
    {effect : Effect} {task : Posted τ Task} (h : w.loop.current = some task) :
    (w.apply entry c job found effect).loop.current = some task := by
  rcases loop_apply entry c job found effect with heq | ⟨posted, -, heq⟩
  · rwa [heq]
  · rw [heq]
    exact EventLoop.current_postCallback h _ _

omit [DecidableEq τ] in
/-- The tasks of `close` and `force_close` hold a pointer to their connection. -/
theorem captured_of_removes {conn : Connection} {table : Epoll ConnId} {registered : Bool}
    {task : Task} {job : Job} {effect : Effect} {other : ConnId} {fd : ℤ}
    (hjob : w.taskJob task = some (c, job)) (hran : conn.Ran c table registered job effect)
    (hframe : .removeConnection other fd ∈ effect.after) : task.captured = some c := by
  cases task with
  | close c => cases hjob; rfl
  | forceClose c => cases hjob; rfl
  | writeBuffer c buffer => cases hjob; rfl
  | writeData c data =>
      cases hjob
      cases hran <;> cases hframe
  | user => cases hjob

/-- Where a `remove_connection` that is still to come stood before the step. -/
theorem Moves.removing_or_called (hmoves : Moves w action w') (h : w.Removing) {fd : ℤ}
    (hframe : Frame.removeConnection c fd ∈ w'.stack) :
    (∃ entry, w'.loop.current = some entry ∧ entry.callback.captured = some c) ∧
      (Frame.removeConnection c fd ∈ w.stack ∨
        ∃ conn, w'.conns c = some conn ∧ conn.fd = fd ∧ conn.state = .closed) := by
  cases hmoves with
  | loop hstep hpost hcall hstack hplace =>
      have hold : Frame.removeConnection c fd ∈ w.stack :=
        (hstack.mem hframe).resolve_right (by simp [Frame.isIdle])
      obtain ⟨⟨entry, hcurrent, hcaptured⟩, -⟩ := h c fd hold
      refine ⟨⟨entry, ?_, hcaptured⟩, Or.inl hold⟩
      rcases EventLoop.current_move hcurrent (EventLoop.move_of_step hstep) with hcurrent' | hleft
      · exact hcurrent'
      · -- The call has returned, so no code of it can be left on the stack.
        rcases hplace with hfits | ⟨-, hphase⟩
        · have huser : Frame.fits _ (.removeConnection c fd) = true := hfits _ hframe
          exact absurd huser (by simp [Frame.fits, hleft])
        · have huser := EventLoop.userCode_of_current hcurrent
          rw [← hphase, hleft] at huser
          cases huser
  | epollWait => exact absurd hframe not_removeConnection_readyFrame
  | pointers hconnections howned hstack hplace =>
      have hold : Frame.removeConnection c fd ∈ w.stack :=
        (hstack.mem hframe).resolve_right (by simp [Frame.isIdle])
      exact ⟨(h c fd hold).1, Or.inl hold⟩
  | destroyed hlost hnot hheld hstack hplace =>
      rw [stack_destroy] at hframe
      rw [loop_destroy]
      exact ⟨(h c fd (hplace _ hframe)).1, Or.inl (hplace _ hframe)⟩
  | posted =>
      obtain ⟨⟨entry, hcurrent, hcaptured⟩, -⟩ := h c fd hframe
      exact ⟨⟨entry, EventLoop.current_postCallback hcurrent _ _, hcaptured⟩, Or.inl hframe⟩
  | setCallbacks => exact ⟨(h c fd hframe).1, Or.inl hframe⟩
  | fdClosed => exact ⟨(h c fd hframe).1, Or.inl hframe⟩
  | born =>
      have hold : Frame.removeConnection c fd ∈ w.stack := by
        simp only [onNewConnection, List.mem_append, Option.mem_toList,
          Option.map_eq_some_iff] at hframe
        rcases hframe with (⟨old, -, heq⟩ | ⟨callback, -, heq⟩) | hold
        · cases heq
        · cases heq
        · exact hold
      exact ⟨(h c fd hold).1, Or.inl hold⟩
  | exec hidle hstack hjob hconn hanswers hran =>
      have hold : Frame.removeConnection c fd ∈ w.stack := by
        simp only [apply, List.mem_append, Option.mem_toList, Option.map_eq_some_iff] at hframe
        rcases hframe with (⟨callback, -, heq⟩ | hafter) | hrest | htail
        · cases heq
        · have htask := (hran.removes hafter).1
          rw [isTask_of_frameJob hjob] at htask
          cases htask
        · exact absurd hrest not_removeConnection_frameRest
        · exact hstack ▸ List.mem_cons_of_mem _ htail
      obtain ⟨⟨entry, hcurrent, hcaptured⟩, -⟩ := h c fd hold
      exact ⟨⟨entry, current_apply hcurrent, hcaptured⟩, Or.inl hold⟩
  | call hempty hcall hnext hstep hjob hconn hanswers hran =>
      simp only [apply, List.mem_append, Option.mem_toList, Option.map_eq_some_iff, hempty,
        List.not_mem_nil, or_false] at hframe
      rcases hframe with ⟨callback, -, heq⟩ | hafter
      · cases heq
      · obtain ⟨-, rfl, rfl, hclosed⟩ := hran.removes hafter
        have hcurrent := EventLoop.current_of_call hcall hnext (EventLoop.move_of_step hstep)
        refine ⟨⟨_, current_apply hcurrent, captured_of_removes hjob hran hafter⟩, Or.inr ?_⟩
        exact ⟨_, Function.update_self .., hran.fd_eq, hclosed⟩

theorem reach_removing {ok : World τ → Action τ → Prop} (h : machine.Reach ok w) :
    w.Removing := by
  refine reach_invariant Removing ?_ ?_ h
  · intro thread c fd hframe
    cases hframe
  · intro source action target hreach hinv hok hmoves c fd hframe
    obtain ⟨hcurrent, hold⟩ := hmoves.removing_or_called hinv hframe
    refine ⟨hcurrent, ?_⟩
    rcases hold with hframe' | hnew
    · obtain ⟨-, conn, hconn, hfd, hclosed⟩ := hinv c fd hframe'
      obtain ⟨entry, hcurrent, hcaptured⟩ := hcurrent
      obtain ⟨conn', hconn'⟩ :=
        (reach_alive hreach).moves hmoves c (owned_of_current hcurrent hcaptured)
      rcases hmoves.origin hreach.any hconn' with hc | ⟨old, hold, hfd', hle⟩
      · exact absurd (hc ▸ (reach_numbered hreach).live c conn hconn) (Nat.lt_irrefl _)
      · cases hconn.symm.trans hold
        exact ⟨conn', hconn', hfd'.trans hfd, ConnState.eq_closed_of_rank (hclosed ▸ hle)⟩
    · exact hnew

/-! ## The entries -/

/-- What a step does to `connections_`. -/
inductive Registering (w : World τ) (action : Action τ) (w' : World τ) : Prop
  | keeps (hnext : w'.nextId = w.nextId) (heq : w'.connections = w.connections)
  | erases {c : ConnId} {fd : ℤ} {rest : List Frame} (hnext : w'.nextId = w.nextId)
      (hstack : w.stack = .removeConnection c fd :: rest)
      (heq : w'.connections = w.connections.filter (·.1 != fd))
  | adds {fd : ℤ} {callbacks : Callbacks}
      (haction : action = .user w.loop.pthreadId (.onNewConnection fd callbacks))
      (heq : w' = w.onNewConnection fd callbacks)

omit [DecidableEq τ] in
theorem Registering.of_release {before : World τ} (hnext : before.nextId = w.nextId)
    (hconnections : before.connections = w.connections) :
    Registering w action (before.release c) := by
  unfold release
  split
  · exact .keeps hnext hconnections
  · exact .keeps (by rw [nextId_destroy, hnext]) (by rw [connections_destroy, hconnections])

theorem Registering.of_runJob {before : World τ} {entry : Option (Posted τ Task)} {job : Job}
    (h : before.runJob entry c job = .next w') (hnext : before.nextId = w.nextId)
    (hconnections : before.connections = w.connections) : Registering w action w' := by
  obtain ⟨conn, effect, -, -, -, rfl⟩ := runJob_eq_next h
  exact .keeps hnext hconnections

theorem Registering.of_exec {n : ℤ} (h : w.exec n = .next w') : Registering w action w' := by
  cases executed_of_exec h with
  | readNotify hstack hmove => exact .keeps rfl rfl
  | removeConnection hstack =>
      unfold removeConnection
      split
      · exact .keeps rfl rfl
      · exact .erases rfl hstack rfl
  | release hstack => exact .of_release rfl rfl
  | job hstack hjob hrun => exact .of_runJob hrun rfl rfl

theorem Registering.of_userCall {thread : τ} {call : Call}
    (h : w.userCall thread call = .next w') : Registering w (.user thread call) w' := by
  cases called_of_userCall h with
  | drop hheld => exact .of_release rfl rfl
  | onNewConnection hthread =>
      subst hthread
      exact .adds rfl rfl
  | _ => exact .keeps rfl rfl

theorem Registering.of_callEntry {loop : EventLoop τ Task} {entry : Posted τ Task}
    (h : { w with loop := loop }.callEntry entry = .next w') : Registering w action w' := by
  unfold callEntry at h
  split at h
  · cases h
    exact .keeps rfl rfl
  · exact .of_runJob h rfl rfl

/-- **An entry comes with a new connection and goes with `remove_connection`.** -/
theorem registering_of_step (h : w.step action = .next w') : Registering w action w' := by
  cases branch_of_step h with
  | exec hidle hexec => exact .of_exec hexec
  | call hempty hnext hcall hmove hentry => exact .of_callEntry hentry
  | user hmay hcall => exact .of_userCall hcall
  | _ => exact .keeps rfl rfl

/-- Every entry leads to a connection that has its descriptor. -/
def Entered (w : World τ) : Prop :=
  ∀ fd c, (fd, c) ∈ w.connections → ∃ conn, w.conns c = some conn ∧ conn.fd = fd

/-- An entry that is kept still leads to its connection. -/
theorem Entered.kept (h : w.Entered) (hreach : machine.Reach Machine.anyStep w)
    (hmoves : Moves w action w') {fd : ℤ} (hmem : (fd, c) ∈ w.connections)
    (hmem' : (fd, c) ∈ w'.connections) : ∃ conn, w'.conns c = some conn ∧ conn.fd = fd := by
  obtain ⟨conn, hconn, hfd⟩ := h fd c hmem
  have howned : w'.Owned c := Or.inl (List.mem_map_of_mem hmem')
  obtain ⟨conn', hconn'⟩ := (reach_alive hreach).moves hmoves c howned
  rcases hmoves.origin hreach hconn' with hc | ⟨old, hold, hfd', -⟩
  · exact absurd (hc ▸ (reach_numbered hreach).live c conn hconn) (Nat.lt_irrefl _)
  · cases hconn.symm.trans hold
    exact ⟨conn', hconn', hfd'.trans hfd⟩

omit [DecidableEq τ] in
theorem mem_onNewConnection {fd fd' : ℤ} {callbacks : Callbacks} :
    (fd', c) ∈ (w.onNewConnection fd callbacks).connections ↔
      fd' = fd ∧ c = w.nextId ∨ (fd', c) ∈ w.connections ∧ fd' ≠ fd := by
  simp [onNewConnection]

theorem Entered.step (h : w.Entered) (hreach : machine.Reach Machine.anyStep w)
    (hstep : w.step action = .next w') : w'.Entered := by
  have hmoves := moves_of_step hstep
  intro fd c hmem
  cases registering_of_step hstep with
  | keeps hnext heq => exact h.kept hreach hmoves (heq ▸ hmem) hmem
  | erases hnext hstack heq =>
      have hold := hmem
      rw [heq] at hold
      exact h.kept hreach hmoves (List.mem_of_mem_filter hold) hmem
  | adds haction heq =>
      subst haction heq
      rcases mem_onNewConnection.mp hmem with ⟨rfl, rfl⟩ | ⟨hold, -⟩
      · exact ⟨_, Function.update_self .., rfl⟩
      · exact h.kept hreach hmoves hold hmem

/-- In every reachable state the entries lead to connections with their keys. -/
theorem reach_entered {ok : World τ → Action τ → Prop} (h : machine.Reach ok w) :
    w.Entered := by
  refine h.invariant Entered ?_ fun _ _ _ hreach hinv _ hstep => hinv.step hreach.any hstep
  rintro _ ⟨thread, rfl⟩ fd c hmem
  cases hmem

omit [DecidableEq τ] in
/-- A descriptor from 0 on tells its connection. -/
theorem Entered.eq_of_key (h : w.Entered) (hdistinct : w.Distinct) {fd : ℤ} {other : ConnId}
    {conn : Connection} (hmem : (fd, c) ∈ w.connections) (hnonneg : 0 ≤ fd)
    (hconn : w.conns other = some conn) (hfd : conn.fd = fd) : c = other := by
  obtain ⟨old, hold, hfd'⟩ := h fd c hmem
  rcases hdistinct c other old conn hold hconn (hfd'.trans hfd.symm) with heq | hneg
  · exact heq
  · omega

/-- Every connection that has a descriptor and is not closed has its entry. -/
def Listed (w : World τ) : Prop :=
  ∀ c conn, w.conns c = some conn → 0 ≤ conn.fd → conn.state ≠ .closed →
    (conn.fd, c) ∈ w.connections

/-- An open connection was open before the step, and so had its entry. -/
theorem Listed.before (h : w.Listed) (hreach : machine.Reach Machine.anyStep w)
    (hmoves : Moves w action w') {conn' : Connection} (hconn' : w'.conns c = some conn')
    (hnonneg : 0 ≤ conn'.fd) (hopen : conn'.state ≠ .closed) (hold : c ≠ w.nextId) :
    ∃ conn, w.conns c = some conn ∧ conn'.fd = conn.fd ∧ conn.state ≠ .closed ∧
      (conn'.fd, c) ∈ w.connections := by
  obtain ⟨conn, hconn, hfd, hle⟩ := (hmoves.origin hreach hconn').resolve_left hold
  have hopen' : conn.state ≠ .closed :=
    fun hclosed => hopen (ConnState.eq_closed_of_rank (hclosed ▸ hle))
  exact ⟨conn, hconn, hfd, hopen', hfd ▸ h c conn hconn (hfd ▸ hnonneg) hopen'⟩

/-- **No step takes the entry of an open connection, unless a new one is made of
its descriptor.** -/
theorem Listed.step (h : w.Listed) (hreach : machine.Reach Machine.anyStep w)
    (hdistinct : w.Distinct) (hok : w.Fresh action) (hstep : w.step action = .next w') :
    w'.Listed := by
  have hmoves := moves_of_step hstep
  have hlive := (reach_numbered hreach).moves (reach_alive hreach) (reach_loop hreach).1
    (reach_loop_queues hreach) hmoves
  intro c conn' hconn' hnonneg hopen
  cases registering_of_step hstep with
  | keeps hnext heq =>
      have hold : c ≠ w.nextId := (hnext ▸ hlive.live c conn' hconn').ne
      obtain ⟨conn, -, -, -, hmem⟩ := h.before hreach hmoves hconn' hnonneg hopen hold
      exact heq ▸ hmem
  | @erases closing fd rest hnext hstack heq =>
      have hold : c ≠ w.nextId := (hnext ▸ hlive.live c conn' hconn').ne
      obtain ⟨conn, hconn, hfd, hopen', hmem⟩ :=
        h.before hreach hmoves hconn' hnonneg hopen hold
      -- Only the entry of the connection whose task this is goes, and that one is closed.
      have hne : conn'.fd ≠ fd := by
        intro hsame
        obtain ⟨-, gone, hgone, hgoneFd, hclosed⟩ :=
          reach_removing hreach closing fd (hstack ▸ List.mem_cons_self)
        have hc := (reach_entered hreach).eq_of_key hdistinct hmem hnonneg hgone
          (hgoneFd.trans hsame.symm)
        subst hc
        cases hconn.symm.trans hgone
        exact hopen' hclosed
      rw [heq, List.mem_filter]
      exact ⟨hmem, by simpa using hne⟩
  | @adds fd callbacks haction heq =>
      subst haction heq
      rw [mem_onNewConnection]
      by_cases hold : c = w.nextId
      · subst hold
        cases (Function.update_self ..).symm.trans hconn'
        exact Or.inl ⟨rfl, rfl⟩
      · obtain ⟨conn, hconn, hfd, -, hmem⟩ :=
          h.before hreach hmoves hconn' hnonneg hopen hold
        refine Or.inr ⟨hmem, fun hsame => ?_⟩
        rcases hok fd rfl with hfailed | hfree
        · omega
        · exact ne_of_hasFd (reach_numbered hreach) hfree c conn hconn (hfd.symm.trans hsame)

theorem reach_listed (h : machine.Reach Fresh w) : w.Listed := by
  refine h.invariant Listed ?_ ?_
  · rintro _ ⟨thread, rfl⟩ c conn hconn
    cases hconn
  · exact fun _ _ _ hreach hinv hok hstep =>
      hinv.step hreach.any (reach_distinct hreach) hok hstep

/-- A connection is not destroyed before it is closed. -/
theorem Listed.closed_of_destroyed (h : w.Listed) (hmoves : Moves w action w')
    {conn : Connection} (hconn : w.conns c = some conn) (hnonneg : 0 ≤ conn.fd)
    (hgone : w'.conns c = none) : conn.state = .closed := by
  cases hmoves with
  | @destroyed _ lost held stack hlost hnot =>
      by_contra hopen
      have hc : c = lost := by
        by_contra hne
        rw [conns_destroy, Function.update_of_ne hne] at hgone
        cases hconn.symm.trans hgone
      subst hc
      exact hnot (Or.inl (List.mem_map_of_mem (h c conn hconn hnonneg hopen)))
  | setCallbacks hold =>
      obtain ⟨new, hnew⟩ := exists_update (Or.inr ⟨conn, hconn⟩)
      cases hnew.symm.trans hgone
  | born =>
      obtain ⟨new, hnew⟩ := exists_update (Or.inr ⟨conn, hconn⟩)
      cases hnew.symm.trans hgone
  | exec hidle hstack hjob hold hanswers hran =>
      obtain ⟨new, hnew⟩ := exists_update (Or.inr ⟨conn, hconn⟩)
      cases hnew.symm.trans hgone
  | call hempty hcall hnext hstep hjob hold hanswers hran =>
      obtain ⟨new, hnew⟩ := exists_update (Or.inr ⟨conn, hconn⟩)
      cases hnew.symm.trans hgone
  | _ => cases hconn.symm.trans hgone

/-- `remove_connection` takes out the entry of no connection but its own. -/
theorem Entered.kept_of_remove (h : w.Entered) (hdistinct : w.Distinct)
    (hreach : machine.Reach Machine.anyStep w) {fd fd' : ℤ} {rest : List Frame} {other : ConnId}
    {n : ℤ} (hstack : w.stack = .removeConnection c fd :: rest)
    (hstep : w.step (.exec n) = .next w') (hne : other ≠ c) (hmem : (fd', other) ∈ w.connections)
    (hnonneg : 0 ≤ fd') : (fd', other) ∈ w'.connections := by
  cases registering_of_step hstep with
  | keeps hnext heq => exact heq ▸ hmem
  | erases hnext hstack' heq =>
      cases hstack.symm.trans hstack'
      obtain ⟨-, conn, hconn, hfd, -⟩ := reach_removing hreach c fd (hstack ▸ List.mem_cons_self)
      rw [heq, List.mem_filter]
      refine ⟨hmem, bne_iff_ne.mpr fun hsame => hne ?_⟩
      exact h.eq_of_key hdistinct hmem hnonneg hconn (hfd.trans hsame.symm)
  | adds haction => cases haction

/-! ## Accepts that succeed -/

/-- No `accept4` fails. -/
def AcceptsSucceed (_ : World τ) (action : Action τ) : Prop := ∀ fd ∈ action.accepted, 0 ≤ fd

instance : DecidableRel (AcceptsSucceed : World τ → Action τ → Prop) :=
  fun _ action => inferInstanceAs (Decidable (∀ fd ∈ action.accepted, 0 ≤ fd))

/-- A new connection gets a descriptor, and one that no other connection has. -/
def AcceptsFresh (w : World τ) (action : Action τ) : Prop :=
  w.AcceptsSucceed action ∧ w.Fresh action

instance : DecidableRel (AcceptsFresh : World τ → Action τ → Prop) :=
  fun w action => inferInstanceAs (Decidable (w.AcceptsSucceed action ∧ w.Fresh action))

theorem reach_fd_nonneg (h : machine.Reach AcceptsSucceed w) {conn : Connection}
    (hconn : w.conns c = some conn) : 0 ≤ conn.fd := by
  refine reach_invariant (fun w => ∀ c conn, w.conns c = some conn → 0 ≤ conn.fd) ?_ ?_ h c conn
    hconn
  · intro thread c conn hconn
    cases hconn
  · intro source action target hreach hinv hok hmoves c conn' hconn'
    rcases hmoves.fd_origin hreach.any hconn' with ⟨conn, hconn, hfd⟩ | ⟨-, haccepted⟩
    · exact hfd ▸ hinv c conn hconn
    · exact hok _ haccepted

omit [DecidableEq τ] in
theorem Entered.lookup_eq_some (h : w.Entered) (hdistinct : w.Distinct) {fd : ℤ}
    (hmem : (fd, c) ∈ w.connections) (hnonneg : 0 ≤ fd) :
    w.connections.lookup fd = some c := by
  cases hfound : w.connections.lookup fd with
  | none =>
      have hnone := List.lookup_eq_none_iff.mp hfound (fd, c) hmem
      simp at hnone
  | some other =>
      obtain ⟨before, after, hsplit, -⟩ := List.lookup_eq_some_iff.mp hfound
      have hother : (fd, other) ∈ w.connections := by simp [hsplit]
      obtain ⟨conn, hconn, hfd⟩ := h fd c hmem
      rw [h.eq_of_key hdistinct hother hnonneg hconn hfd]

/-- **As long as no `accept4` fails and no connection is made of a descriptor that
another one has, the registry is sound.** Every entry maps a descriptor to an
existing connection that has it; every connection that is not closed, announced
or not, is the entry under its own descriptor, and is not destroyed before it is
closed; and `remove_connection` executed for one connection leaves the entries of
all others. -/
theorem registry_sound (w : World τ) (h : machine.Reach AcceptsFresh w) :
    (∀ fd c, (fd, c) ∈ w.connections →
        0 ≤ fd ∧ ∃ conn, w.conns c = some conn ∧ conn.fd = fd) ∧
      (∀ c conn, w.conns c = some conn → conn.state ≠ .closed →
        w.connections.lookup conn.fd = some c ∧
          ∀ action w', w.step action = .next w' → w'.conns c ≠ none) ∧
      ∀ c fd rest n w', w.stack = .removeConnection c fd :: rest →
        w.step (.exec n) = .next w' → ∀ fd' other, other ≠ c →
          (fd', other) ∈ w.connections → (fd', other) ∈ w'.connections := by
  have hentered := reach_entered h
  have hfresh : machine.Reach Fresh w := h.mono fun _ _ => And.right
  have hdistinct := reach_distinct hfresh
  have hlisted := reach_listed hfresh
  have hnonneg : ∀ {c conn}, w.conns c = some conn → 0 ≤ conn.fd :=
    reach_fd_nonneg (h.mono fun _ _ => And.left)
  have hkey : ∀ fd c, (fd, c) ∈ w.connections →
      0 ≤ fd ∧ ∃ conn, w.conns c = some conn ∧ conn.fd = fd := by
    intro fd c hmem
    obtain ⟨conn, hconn, hfd⟩ := hentered fd c hmem
    exact ⟨hfd ▸ hnonneg hconn, conn, hconn, hfd⟩
  refine ⟨hkey, fun c conn hconn hopen => ⟨?_, ?_⟩, ?_⟩
  · exact hentered.lookup_eq_some hdistinct (hlisted c conn hconn (hnonneg hconn) hopen)
      (hnonneg hconn)
  · exact fun action w' hstep hgone => hopen
      (hlisted.closed_of_destroyed (moves_of_step hstep) hconn (hnonneg hconn) hgone)
  · exact fun c fd rest n w' hstack hstep fd' other hne hmem =>
      hentered.kept_of_remove hdistinct h.any hstack hstep hne hmem (hkey fd' other hmem).1

/-- Two connections, the first of which is closed and has its descriptor given
to a third: the entry of the second stays. -/
theorem registry_sound_of_reuse :
    ∃ w : World ℕ, machine.Reach AcceptsFresh w ∧ ∃ conn, w.conns 2 = some conn ∧
      conn.fd = 5 ∧ w.conns 0 = none ∧ w.connections.lookup 5 = some 2 := by
  have hnew : machine.Reach AcceptsFresh (new 0 : World ℕ) := .init ⟨0, rfl⟩
  obtain ⟨w, hreach, hdead, conn, hconn, hopen, hfd⟩ := hnew.exists_of_leads
    [.user 0 (.onNewConnection 5 ⟨false, false, false, false⟩),
      .user 0 (.onNewConnection 6 ⟨false, false, false, false⟩), .user 0 (.close 0),
      .user 0 (.drop 0), .loop (.enterRun 0), .loop .testRunning, .epollWait [.other],
      .returns, .loop .swapPending, .loop .endBatch, .call, .exec 0, .exec 0, .callReturns,
      .exec 0, .endIteration, .loop .testRunning, .epollWait [.other],
      .user 0 (.onNewConnection 5 ⟨false, false, false, false⟩)]
    (P := fun w => w.conns 0 = none ∧ ∃ conn ∈ w.conns 2, conn.state ≠ .closed ∧ conn.fd = 5)
    (by decide)
  obtain ⟨-, hlisted, -⟩ := registry_sound w hreach
  exact ⟨w, hreach, conn, hconn, hfd, hdead, hfd ▸ (hlisted 2 conn hconn hopen).1⟩

/-- Two failed `accept4`s make two connections with descriptor -1: the second
takes the entry of the first, and closing the first takes the entry of the
second out.  Without any failure, a descriptor that was closed under its
connection is accepted again, and the new connection takes the entry of the old
one, which is still open. -/
theorem not_registry_sound :
    (∃ w : World ℕ, machine.Reach Machine.anyStep w ∧ (-1, 1) ∈ w.connections ∧
      ∃ conn, w.conns 0 = some conn ∧ conn.state = .receiving ∧
        w.connections.lookup conn.fd ≠ some 0) ∧
    (∃ w w' : World ℕ, machine.Reach Machine.anyStep w ∧
      w.stack.head? = some (.removeConnection 0 (-1)) ∧ w.step (.exec 0) = .next w' ∧
      (-1, 1) ∈ w.connections ∧ (-1, 1) ∉ w'.connections) ∧
    ∃ w : World ℕ, machine.Reach AcceptsSucceed w ∧ (5, 1) ∈ w.connections ∧
      ∃ conn, w.conns 0 = some conn ∧ conn.state = .receiving ∧ conn.fd = 5 ∧
        w.connections.lookup conn.fd ≠ some 0 := by
  have hnew : machine.Reach Machine.anyStep (new 0 : World ℕ) := .init ⟨0, rfl⟩
  refine ⟨?_, ?_, ?_⟩
  · obtain ⟨w, hreach, hmem, conn, hconn, hopen, hlookup⟩ := hnew.exists_of_leads
      [.user 0 (.onNewConnection (-1) ⟨false, false, false, false⟩),
        .user 0 (.onNewConnection (-1) ⟨false, false, false, false⟩)]
      (P := fun w => (-1, 1) ∈ w.connections ∧ ∃ conn ∈ w.conns 0,
        conn.state = .receiving ∧ w.connections.lookup conn.fd ≠ some 0)
      (by decide)
    exact ⟨w, hreach, hmem, conn, hconn, hopen, hlookup⟩
  · obtain ⟨w, hreach, hstack, hmem, hleads⟩ := hnew.exists_of_leads
      [.user 0 (.onNewConnection (-1) ⟨false, false, false, false⟩),
        .user 0 (.onNewConnection (-1) ⟨false, false, false, false⟩), .exec 0,
        .user 0 (.close 0), .loop (.enterRun 0), .loop .testRunning, .epollWait [],
        .loop .swapPending, .loop .endBatch, .call]
      (P := fun w => w.stack.head? = some (.removeConnection 0 (-1)) ∧
        (-1, 1) ∈ w.connections ∧ (w.step (.exec 0)).Leads fun w' => (-1, 1) ∉ w'.connections)
      (by decide)
    obtain ⟨w', hstep, hgone⟩ := Outcome.leads_iff.mp hleads
    exact ⟨w, w', hreach, hstack, hstep, hmem, hgone⟩
  · have hnew : machine.Reach AcceptsSucceed (new 0 : World ℕ) := .init ⟨0, rfl⟩
    obtain ⟨w, hreach, hmem, conn, hconn, hopen, hfd, hlookup⟩ := hnew.exists_of_leads
      [.user 0 (.onNewConnection 5 ⟨true, true, true, false⟩), .returns, .exec 0,
        .user 0 (.closeFd 5), .user 0 (.onNewConnection 5 ⟨true, true, true, false⟩)]
      (P := fun w => (5, 1) ∈ w.connections ∧ ∃ conn ∈ w.conns 0,
        conn.state = .receiving ∧ conn.fd = 5 ∧ w.connections.lookup conn.fd ≠ some 0)
      (by decide)
    exact ⟨w, hreach, hmem, conn, hconn, hopen, hfd, hlookup⟩

end World

end Mutiplex
