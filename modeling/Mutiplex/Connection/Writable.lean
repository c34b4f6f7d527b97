/-
# The writable handler

`handle_write` asserts that there is something to write.  The kernel reports
`EPOLLOUT` to a connection that is not closed only if the event source asks for
it, and the event source asks for it only while the buffer is not empty, unless
a `write` of no bytes switched it on.  Nothing empties the buffer between the
report and the handler, since the events of one `epoll_wait` name every
connection once.

After a `force_close` the table still has the old interest set; the handler of a
closed connection that user code keeps alive then finds its buffer empty.
-/

import Mutiplex.Connection.Output
import Mutiplex.Connection.Kernel

namespace Mutiplex

open CMemory Transition

variable {τ : Type} [DecidableEq τ]

/-! ## Handlers that write -/

/-- The connection whose `handle_write` a frame may still call. -/
def Frame.out : Frame → Option ConnId
  | .events c readyOps => if wants readyOps epollOut then some c else none
  | .writable c readyOps => if wants readyOps epollOut then some c else none
  | _ => none

theorem Frame.out_of_isIdle {frame : Frame} (h : frame.isIdle = true) : frame.out = none := by
  cases frame <;> first | rfl | cases h

theorem Shrinks.out {old new : List Frame} (h : Shrinks old new) :
    (new.filterMap Frame.out).Sublist (old.filterMap Frame.out) := by
  obtain ⟨idle, rest, rfl, hsuffix, hidle⟩ := h
  rw [List.filterMap_append, List.filterMap_eq_nil_iff.mpr, List.nil_append]
  · exact hsuffix.sublist.filterMap Frame.out
  · exact fun frame hframe => Frame.out_of_isIdle (hidle frame hframe)

theorem out_frameRest (frame : Frame) (rest : List Frame) :
    ((World.frameRest frame ++ rest).filterMap Frame.out).Sublist
      ((frame :: rest).filterMap Frame.out) := by
  cases frame with
  | events c readyOps =>
      simp only [World.frameRest]
      split
      · exact (List.sublist_cons_self _ rest).filterMap Frame.out
      · exact List.Sublist.refl _
  | _ => exact (List.sublist_cons_self _ rest).filterMap Frame.out

namespace Connection

variable {conn : Connection} {c : ConnId} {table : Epoll ConnId} {registered : Bool} {job : Job}
  {effect : Effect}

/-- Whoever waits for `EPOLLOUT` has something to send. -/
def Offers (conn : Connection) : Prop :=
  conn.state ≠ .closed → wants conn.source.interestOps epollOut = true → conn.backlog ≠ 0

/-- A `do_write` leaves something in the buffer. -/
def LeavesBytes (conn : Connection) : Job → Prop
  | .doWrite data => conn.state ≠ .closed → conn.backlog + UInt32.ofNat data.length ≠ 0
  | _ => True

instance : DecidablePred conn.LeavesBytes
  | .doWrite data => inferInstanceAs (Decidable
      (conn.state ≠ .closed → conn.backlog + UInt32.ofNat data.length ≠ 0))
  | .skip | .error | .read _ | .write _ | .callForceClose | .close | .forceClose => isTrue trivial

theorem Ran.offers (h : conn.Ran c table registered job effect) (hleaves : conn.LeavesBytes job)
    (hoffers : conn.Offers) : effect.conn.Offers ∨ effect.post = some (.forceClose c) := by
  cases h with
  | error => exact Or.inr rfl
  | readEnds =>
      left
      intro hopen hwants
      refine hoffers hopen ?_
      simpa [withSource, EventSource.disableReading] using hwants
  | writeFails => exact Or.inr rfl
  | writesNone => exact Or.inr rfl
  | writesLast =>
      left
      intro _ hwants
      simp [withSource, EventSource.disableWriting, afterWrite] at hwants
  | writesAll =>
      left
      intro _ hwants
      simp [withSource, EventSource.disableWriting, afterWrite] at hwants
  | writesPart hb hne hn hstate hbytes => exact Or.inl fun _ _ => hasBytesToWrite_eq_true.mp hbytes
  | callForceClose => exact Or.inr rfl
  | closeWaits hbytes => exact Or.inl fun _ _ => hasBytesToWrite_eq_true.mp hbytes
  | closes => exact Or.inl fun hopen => absurd rfl hopen
  | forceCloses => exact Or.inl fun hopen => absurd rfl hopen
  | doWriteClosed => exact Or.inr rfl
  | appends hstate hput =>
      left
      intro _ _
      show CircularBuffer.bufferLen _ ≠ 0
      rw [backlog_put hput]
      exact hleaves hstate
  | _ => exact Or.inl hoffers

/-- Only the writable handler and the tasks touch the buffer or the state. -/
theorem Ran.same_of_not_write (h : conn.Ran c table registered job effect)
    (htask : job.isTask = false) (hwrite : ∀ n, job ≠ .write n) :
    effect.conn.backlog = conn.backlog ∧ effect.conn.state = conn.state := by
  cases h <;> first | exact absurd rfl (hwrite _) | exact ⟨rfl, rfl⟩ | cases htask

end Connection

namespace World

variable {w w' : World τ} {action : Action τ} {c : ConnId}

/-! ## From the report to the handler -/

/-- Every `do_write` on a connection that is not closed leaves something in the
buffer. -/
def LeavesBytes : World τ → Action τ → Prop := EachJob fun _ _ conn job => conn.LeavesBytes job

instance : DecidableRel (LeavesBytes (τ := τ)) := inferInstanceAs (DecidableRel (EachJob _))

theorem reach_offers (h : machine.Reach LeavesBytes w) :
    ∀ c conn, w.conns c = some conn → conn.Offers ∨ w.AboutToClose c := by
  refine reach_invariant
    (fun w => ∀ c conn, w.conns c = some conn → conn.Offers ∨ w.AboutToClose c) ?_ ?_ h
  · intro thread c conn hconn
    cases hconn
  · intro source action target hreach hinv hok hmoves c
    refine hmoves.unlessAboutToClose Connection.Offers (reach_loop hreach).1
      (reach_loop_queues hreach) (hinv c) ?_ (fun _ _ => id) ?_ ?_
    · exact fun conn hclosed hopen => absurd hclosed hopen
    · intro fd callbacks table _ hwants
      have hops : (Connection.registerEvent fd callbacks c table).1.source.interestOps = epollIn :=
        (EventSource.interestOps_enableOps epollIn).trans UInt32.zero_or
      rw [hops] at hwants
      cases hwants
    · intro job conn effect hjob hconn hanswers hran hoffers
      exact hran.offers (hok.of_job hjob hconn) hoffers

/-- The connections whose writable handler is still to come in this round of
events: each is there once, and those that are not closed have something to
send. -/
structure Offered (w : World τ) : Prop where
  nodup : (w.stack.filterMap Frame.out).Nodup
  named : ∀ c ∈ w.stack.filterMap Frame.out, c < w.nextId
  bytes : ∀ c ∈ w.stack.filterMap Frame.out, ∀ conn, w.conns c = some conn →
    conn.state ≠ .closed → conn.backlog ≠ 0

omit [DecidableEq τ] in
/-- Fewer handlers to come, and connections that have not changed. -/
theorem Offered.mono (h : w.Offered)
    (hstack : (w'.stack.filterMap Frame.out).Sublist (w.stack.filterMap Frame.out))
    (hnext : w.nextId ≤ w'.nextId)
    (hconns : ∀ c ∈ w'.stack.filterMap Frame.out, ∀ conn', w'.conns c = some conn' →
      ∃ conn, w.conns c = some conn ∧ conn'.backlog = conn.backlog ∧ conn'.state = conn.state) :
    w'.Offered where
  nodup := h.nodup.sublist hstack
  named c hc := Nat.lt_of_lt_of_le (h.named c (hstack.subset hc)) hnext
  bytes c hc conn' hconn' hopen := by
    obtain ⟨conn, hconn, hbacklog, hstate⟩ := hconns c hc conn' hconn'
    rw [hbacklog]
    exact h.bytes c (hstack.subset hc) conn hconn (hstate ▸ hopen)

omit [DecidableEq τ] in
/-- The handlers to come after `epoll_wait`. -/
theorem mem_out_readyFrame {events : List Ready}
    (hc : c ∈ (events.filterMap w.readyFrame).filterMap Frame.out) :
    ∃ fd readyOps entry, .source fd readyOps ∈ events ∧ w.epoll fd = some entry ∧
      entry.ptr = c ∧ wants readyOps epollOut = true := by
  obtain ⟨frame, hframe, hout⟩ := List.mem_filterMap.mp hc
  rcases mem_readyFrame hframe with rfl | rfl | ⟨fd, readyOps, entry, hready, hentry, rfl⟩
  · cases hout
  · cases hout
  · simp only [Frame.out] at hout
    split at hout
    · rename_i hwants
      cases hout
      exact ⟨fd, readyOps, entry, hready, hentry, rfl, hwants⟩
    · cases hout

omit [DecidableEq τ] in
theorem offered_of_epollWait {events : List Ready} {loop : EventLoop τ Task}
    (hbacked : w.Backed) (hnumbered : w.Numbered)
    (hoffers : ∀ c conn, w.conns c = some conn → conn.Offers ∨ w.AboutToClose c)
    (hreports : w.Reports events) (hwaiting : w.loop.phase = .waiting) :
    { w with loop := loop, stack := events.filterMap w.readyFrame }.Offered where
  nodup := by
    obtain ⟨-, hnodup, -⟩ := hreports
    rw [List.Nodup, List.pairwise_filterMap] at hnodup
    rw [List.filterMap_filterMap, List.Nodup, List.pairwise_filterMap]
    refine hnodup.imp ?_
    intro first second hfds c hc c' hc' heq
    subst heq
    obtain ⟨frame, hframe, hout⟩ := Option.bind_eq_some_iff.mp hc
    obtain ⟨frame', hframe', hout'⟩ := Option.bind_eq_some_iff.mp hc'
    have hfirst : c ∈ ([first].filterMap w.readyFrame).filterMap Frame.out := by
      simp [hframe, hout]
    have hsecond : c ∈ ([second].filterMap w.readyFrame).filterMap Frame.out := by
      simp [hframe', hout']
    obtain ⟨fd, ops, entry, hmem, hentry, hptr, -⟩ := mem_out_readyFrame hfirst
    obtain ⟨fd', ops', entry', hmem', hentry', hptr', -⟩ := mem_out_readyFrame hsecond
    obtain ⟨conn, hconn, hfd⟩ := hbacked.of_entry hentry
    obtain ⟨conn', hconn', hfd'⟩ := hbacked.of_entry hentry'
    rw [hptr] at hconn
    rw [hptr'] at hconn'
    cases hconn.symm.trans hconn'
    rw [List.mem_singleton] at hmem hmem'
    subst hmem hmem'
    exact hfds fd rfl fd' rfl (hfd.symm.trans hfd')
  named c hc := by
    obtain ⟨fd, ops, entry, -, hentry, rfl, -⟩ := mem_out_readyFrame hc
    obtain ⟨conn, hconn, -⟩ := hbacked.of_entry hentry
    exact hnumbered.live _ conn hconn
  bytes c hc conn hconn hopen := by
    obtain ⟨fd, ops, entry, hmem, hentry, rfl, hwants⟩ := mem_out_readyFrame hc
    obtain ⟨conn', hconn', rfl⟩ := hbacked.of_entry hentry
    cases hconn.symm.trans hconn'
    have hreported := hreports.1 _ hmem
    simp only [Reportable, hentry, beq_iff_eq] at hreported
    have hmask : entry.events = conn.source.interestOps :=
      (hbacked.conn _ conn hconn).mask hopen _ entry hentry rfl
    rcases hoffers _ conn hconn with hoffer | habout
    · exact hoffer hopen (hmask ▸ wants_of_reported rfl hwants hreported)
    · have hbusy := habout.busy
      rw [hwaiting] at hbusy
      cases hbusy

theorem out_apply {conn : Connection} {table : Epoll ConnId} {registered : Bool}
    {entry : Option (Posted τ Task)} {job : Job} {found : ConnState} {effect : Effect}
    (hran : conn.Ran c table registered job effect) :
    (w.apply entry c job found effect).stack.filterMap Frame.out =
      w.stack.filterMap Frame.out := by
  have hcalled : ((effect.called.map fun _ => Frame.inside (some c)).toList).filterMap Frame.out =
      [] := by
    cases effect.called <;> rfl
  have hafter : effect.after.filterMap Frame.out = [] := by
    refine List.filterMap_eq_nil_iff.mpr fun frame hframe => ?_
    rcases hran.after_eq hframe with rfl | rfl <;> rfl
  simp only [World.apply, List.filterMap_append, hcalled, hafter, List.nil_append]

/-- Only the second half of `handle_events` calls `handle_write`. -/
theorem eq_writable_of_frameJob {n m : ℤ} {frame : Frame}
    (h : frameJob n frame = some (c, .write m)) :
    ∃ readyOps, frame = .writable c readyOps ∧ wants readyOps epollOut = true := by
  cases frame with
  | events other readyOps =>
      simp only [frameJob] at h
      split at h
      · cases h
      · split at h <;> cases h
  | writable other readyOps =>
      simp only [frameJob] at h
      split at h
      · rename_i hwants
        cases h
        exact ⟨readyOps, rfl, hwants⟩
      · cases h
  | _ => cases h

/-- A frame of a connection leaves the other connections alone, and its own one
unless it is the writable handler, which it then was the last to call. -/
theorem Offered.exec {n : ℤ} {frame : Frame} {rest : List Frame} {job : Job}
    {conn : Connection} {effect : Effect} (h : w.Offered) (hstack : w.stack = frame :: rest)
    (hjob : frameJob n frame = some (c, job)) (hconn : w.conns c = some conn)
    (hran : conn.Ran c w.epoll (w.registered conn.fd) job effect) :
    ({ w with stack := frameRest frame ++ rest }.apply none c job conn.state effect).Offered := by
  have hout : ({ w with stack := frameRest frame ++ rest }.apply none c job conn.state
      effect).stack.filterMap Frame.out = (frameRest frame ++ rest).filterMap Frame.out :=
    out_apply hran
  refine h.mono ?_ (Nat.le_refl _) fun other hother conn' hconn' => ?_
  · rw [hout, hstack]
    exact out_frameRest frame rest
  · rw [hout] at hother
    by_cases hc : other = c
    · subst hc
      simp only [World.apply, Function.update_self, Option.some.injEq] at hconn'
      subst hconn'
      refine ⟨conn, hconn, hran.same_of_not_write (isTask_of_frameJob hjob) fun n hwrite => ?_⟩
      subst hwrite
      obtain ⟨readyOps, rfl, hwants⟩ := eq_writable_of_frameJob hjob
      have hframe : (Frame.writable other readyOps).out = some other := by
        simp [Frame.out, hwants]
      have hnodup := h.nodup
      rw [hstack, List.filterMap_cons_some hframe] at hnodup
      exact (List.nodup_cons.mp hnodup).1 hother
    · simp only [World.apply, Function.update_of_ne hc] at hconn'
      exact ⟨conn', hconn', rfl, rfl⟩

omit [DecidableEq τ] in
theorem offered_of_nil (h : w.stack.filterMap Frame.out = []) : w.Offered := by
  refine ⟨?_, ?_, ?_⟩ <;> rw [h] <;> simp

theorem Offered.moves (h : w.Offered) (hbacked : w.Backed) (hnumbered : w.Numbered)
    (hoffers : ∀ c conn, w.conns c = some conn → conn.Offers ∨ w.AboutToClose c)
    (hmoves : Moves w action w') : w'.Offered := by
  have hsame : ∀ c ∈ w'.stack.filterMap Frame.out, w'.conns c = w.conns c →
      ∀ conn', w'.conns c = some conn' →
      ∃ conn, w.conns c = some conn ∧ conn'.backlog = conn.backlog ∧ conn'.state = conn.state :=
    fun c _ heq conn' hconn' => ⟨conn', heq ▸ hconn', rfl, rfl⟩
  cases hmoves with
  | loop hstep hpost hcall hstack =>
      exact h.mono hstack.out (Nat.le_refl _) fun c hc => hsame c hc rfl
  | epollWait hempty hreports hstep =>
      refine offered_of_epollWait hbacked hnumbered hoffers hreports ?_
      have hmove := EventLoop.move_of_step hstep
      simp only [EventLoop.move] at hmove
      split at hmove
      · rename_i hguard
        exact hguard.1
      · cases hmove
  | pointers hconnections howned hstack =>
      exact h.mono hstack.out (Nat.le_refl _) fun c hc => hsame c hc rfl
  | destroyed hlost hnot hheld hstack =>
      refine h.mono ?_ (by simp) fun c _ conn' hconn' => ?_
      · simpa using hstack.out
      · rw [conns_destroy] at hconn'
        refine ⟨conn', ?_, rfl, rfl⟩
        grind
  | posted => exact h.mono (List.Sublist.refl _) (Nat.le_refl _) fun c hc => hsame c hc rfl
  | fdClosed => exact h.mono (List.Sublist.refl _) (Nat.le_refl _) fun c hc => hsame c hc rfl
  | @setCallbacks _ c conn callbacks hconn =>
      refine h.mono (List.Sublist.refl _) (Nat.le_refl _) fun other hother conn' hconn' => ?_
      by_cases hc : other = c
      · subst hc
        simp only [Function.update_self, Option.some.injEq] at hconn'
        subst hconn'
        exact ⟨conn, hconn, rfl, rfl⟩
      · exact hsame other hother (Function.update_of_ne hc _ _) conn' hconn'
  | @born fd callbacks =>
      have hout : (w.onNewConnection fd callbacks).stack.filterMap Frame.out =
          w.stack.filterMap Frame.out := by
        simp only [onNewConnection, List.filterMap_append]
        cases w.connections.lookup fd <;>
          cases (Connection.registerEvent fd callbacks w.nextId w.epoll).1.userCallback
            .established <;> rfl
      refine h.mono (hout ▸ List.Sublist.refl _) (Nat.le_succ _) fun c hc => hsame c hc ?_
      refine Function.update_of_ne ?_ _ _
      rw [hout] at hc
      exact Nat.ne_of_lt (h.named c hc)
  | exec hidle hstack hjob hconn hanswers hran => exact h.exec hstack hjob hconn hran
  | call hempty hcall hnext hstep hjob hconn hanswers hran =>
      refine offered_of_nil ?_
      rw [out_apply hran]
      simp [hempty]

theorem reach_offered (h : machine.Reach LeavesBytes w) : w.Offered := by
  refine reach_invariant Offered ?_ ?_ h
  · exact fun thread => offered_of_nil rfl
  · exact fun _ _ _ hreach hinv _ hmoves => hinv.moves (reach_backed hreach)
      (reach_numbered hreach) (reach_offers hreach) hmoves

/-- **In every run in which each `do_write` on a connection that is not closed
leaves something in the buffer, the writable handler has something to write if
and only if the connection is not closed.** Whenever an event reaches
`handle_write`, the buffer is there and not empty exactly if the connection is
not closed. -/
theorem writable_handler_has_bytes_iff (w : World τ) (h : machine.Reach LeavesBytes w) (n : ℤ)
    (c : ConnId) (hjob : w.job (.exec n) = some (c, .write n)) (conn : Connection)
    (hconn : w.conns c = some conn) :
    (∃ b, conn.bufferOut = some b ∧ b.empty = false) ↔ conn.state ≠ .closed := by
  have hbytes : (∃ b, conn.bufferOut = some b ∧ b.empty = false) ↔ conn.backlog ≠ 0 := by
    rw [← Connection.hasBytesToWrite_eq_true, Connection.hasBytesToWrite]
    cases conn.bufferOut <;> simp
  rw [hbytes]
  constructor
  · exact fun hne hclosed => hne (reach_settled h hconn hclosed)
  · intro hopen
    obtain ⟨frame, hframe, hjob⟩ := Option.bind_eq_some_iff.mp hjob
    obtain ⟨readyOps, rfl, hwants⟩ := eq_writable_of_frameJob hjob
    refine (reach_offered h).bytes c ?_ conn hconn hopen
    exact List.mem_filterMap.mpr
      ⟨_, List.mem_of_mem_head? hframe, by simp [Frame.out, hwants]⟩

/-- A connection with two bytes to send whose descriptor becomes writable. -/
theorem writable_handler_has_bytes_iff_of_write :
    ∃ (w : World ℕ) (conn : Connection), machine.Reach LeavesBytes w ∧
      w.job (.exec 2) = some (0, .write 2) ∧ w.conns 0 = some conn ∧
      ∃ b, conn.bufferOut = some b ∧ b.empty = false := by
  have hnew : machine.Reach LeavesBytes (new 0 : World ℕ) := .init ⟨0, rfl⟩
  obtain ⟨w, hreach, hjob, conn, hconn, hstate⟩ := hnew.exists_of_leads
    [.loop (.enterRun 0), .loop .testRunning, .epollWait [.other],
      .user 0 (.onNewConnection 5 ⟨false, false, true, false⟩),
      .user 0 (.writeData 0 [1, 2]), .user 0 (.drop 0), .returns, .loop .swapPending,
      .loop .endBatch, .call, .callReturns, .endIteration, .loop .testRunning,
      .epollWait [.source 5 4], .exec 0]
    (P := fun w => w.job (.exec 2) = some (0, .write 2) ∧
      ∃ conn ∈ w.conns 0, conn.state = .receiving)
    (by decide)
  exact ⟨w, conn, hreach, hjob, hconn,
    (writable_handler_has_bytes_iff w hreach 2 0 hjob conn hconn).mpr (by rw [hstate]; decide)⟩

/-- The writable handler can find nothing to write: after a `write` of a
`ByteBuffer` with no remaining bytes. -/
theorem not_writable_handler_has_bytes :
    ¬ ∀ w : World ℕ, machine.Reach Machine.anyStep w → ∀ n c,
        w.job (.exec n) = some (c, .write n) → ∀ conn, w.conns c = some conn →
          ∃ b, conn.bufferOut = some b ∧ b.empty = false := by
  intro hclaim
  have hnew : machine.Reach Machine.anyStep (new 0 : World ℕ) := .init ⟨0, rfl⟩
  obtain ⟨w, hreach, hjob, conn, hconn, hempty⟩ := hnew.exists_of_leads
    [.loop (.enterRun 0), .loop .testRunning, .epollWait [.other],
      .user 0 (.onNewConnection 5 ⟨false, false, true, false⟩),
      .user 0 (.writeBuffer 0 0), .user 0 (.drop 0), .returns, .loop .swapPending,
      .loop .endBatch, .call, .callReturns, .exec 0, .endIteration, .loop .testRunning,
      .epollWait [.source 5 4], .exec 0]
    (P := fun w => w.job (.exec 0) = some (0, .write 0) ∧
      ∃ conn ∈ w.conns 0, conn.hasBytesToWrite = false)
    (by decide)
  obtain ⟨b, hb, hne⟩ := hclaim w hreach 0 0 hjob conn hconn
  simp [Connection.hasBytesToWrite, hb, hne] at hempty

end World

end Mutiplex
