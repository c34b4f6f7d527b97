/-
# Output flows

`do_write` switches `EPOLLOUT` on and two branches of `handle_write` switch it
off.  The branch for a connection that is disconnecting does so without looking
whether the buffer is empty, and leaves the rest to the task of `close`, which
then waits for an event that is no longer asked for.  As long as the kernel takes
all that is left of a disconnecting connection at once, a connection with a
backlog is always waiting for `EPOLLOUT`, or is about to be closed by force.
-/

import Mutiplex.Connection.Life

namespace Mutiplex

open CMemory Transition

variable {τ : Type} [DecidableEq τ]

namespace Connection

variable {conn : Connection} {c : ConnId} {table : Epoll ConnId} {registered : Bool} {job : Job}
  {effect : Effect}

/-- Whoever has something to send waits for `EPOLLOUT`. -/
def Flows (conn : Connection) : Prop :=
  conn.state ≠ .closed → conn.backlog ≠ 0 → wants conn.source.interestOps epollOut = true

theorem flows_of_backlog (h : conn.backlog = 0) : conn.Flows := fun _ hne => absurd h hne

/-- A disconnecting connection sends all it has in one go; a `write` that returns
2^31 or more counts as failed. -/
def DrainsAtOnce (conn : Connection) : Job → Prop
  | .write n => conn.state = .disconnecting → 0 < n → n < 2 ^ 31 → n = conn.backlog.toNat
  | _ => True

instance : DecidablePred conn.DrainsAtOnce
  | .write n => inferInstanceAs (Decidable
      (conn.state = .disconnecting → 0 < n → n < 2 ^ 31 → n = conn.backlog.toNat))
  | .skip | .error | .read _ | .callForceClose | .close | .forceClose | .doWrite _ =>
      isTrue trivial

theorem Ran.flows (h : conn.Ran c table registered job effect)
    (hanswers : World.Answers conn job) (hsettled : conn.Settled) (hdrains : conn.DrainsAtOnce job)
    (hflows : conn.Flows) : effect.conn.Flows ∨ effect.post = some (.forceClose c) := by
  cases h with
  | error => exact Or.inr rfl
  | readEnds =>
      left
      intro hopen hbytes
      simpa [withSource, EventSource.disableReading] using hflows hopen hbytes
  | writeFails => exact Or.inr rfl
  | writesNone => exact Or.inr rfl
  | @writesLast n b hb hne hn hstate =>
      left
      have hlt := conn.backlog.toNat_lt
      obtain ⟨hlow, hhigh⟩ := hanswers
      have hpos : 0 < n ∧ n < 2 ^ 31 := by
        rcases castInt_cases hlow (by omega) with ⟨hneg, -⟩ | ⟨hzero, -⟩ | ⟨-, hpos⟩
        · omega
        · omega
        · exact hpos
      have hall := hdrains hstate hpos.1 hpos.2
      have hleft := backlog_afterWrite hb hhigh
      refine flows_of_backlog (UInt32.toNat_inj.mp ?_)
      show (conn.afterWrite b n).backlog.toNat = 0
      omega
  | writesAll hb hne hn hstate hempty =>
      exact Or.inl (flows_of_backlog (hasBytesToWrite_eq_false.mp hempty))
  | writesPart hb hne => exact Or.inl fun hopen _ => hflows hopen (backlog_ne_zero hb hne)
  | callForceClose => exact Or.inr rfl
  | closeWaits hbytes =>
      left
      intro _ hne
      exact hflows (fun hclosed => hne (hsettled hclosed)) hne
  | closes => exact Or.inl fun hopen => absurd rfl hopen
  | forceCloses => exact Or.inl fun hopen => absurd rfl hopen
  | doWriteClosed => exact Or.inr rfl
  | appends =>
      left
      intro _ _
      simp [withSource, EventSource.enableWriting]
  | _ => exact Or.inl hflows

end Connection

/-! ## Forced closes that wait -/

/-- An iteration ends only when no task waits any more. -/
theorem EventLoop.busy_of_move {κ : Type} {s s' : EventLoop τ κ} {action : EventLoop.Action τ κ}
    (hmove : s.move action = some s') (hbusy : s.phase.busy = true) :
    s'.phase.busy = true ∨ s.localTasks = [] := by
  cases action with
  | endIteration =>
      simp only [move] at hmove
      split at hmove
      · rename_i hguard
        right
        simpa [localTasks, hguard.1] using hguard.2
      · cases hmove
  | epollWait reported =>
      cases reported with
      | none =>
          simp only [move] at hmove
          split at hmove
          · simp_all [Phase.busy]
          · cases hmove
      | some notify =>
          simp only [move] at hmove
          split at hmove <;> cases hmove
          exact Or.inl rfl
  | testRunning =>
      simp only [move] at hmove
      split at hmove
      · simp_all [Phase.busy]
      · cases hmove
  | post thread callback =>
      simp only [move] at hmove
      split at hmove <;> cases hmove
      rw [phase_postCallback]
      exact Or.inl hbusy
  | _ =>
      simp only [move] at hmove
      split at hmove
      · cases hmove
        simp_all [Phase.busy, notifyEvent]
      · cases hmove

namespace World

variable {w w' : World τ} {action : Action τ} {c : ConnId}

/-- A task of `force_close` waits in the task queue, and will be called in this
iteration. -/
structure AboutToClose (w : World τ) (c : ConnId) : Prop where
  waits : ∃ entry ∈ w.loop.localTasks, entry.callback = .forceClose c
  busy : w.loop.phase.busy = true

theorem AboutToClose.move {move : EventLoop.Action τ Task} {loop : EventLoop τ Task}
    {stack : List Frame} (h : w.AboutToClose c) (hqueues : w.loop.Queues)
    (hstep : w.loop.step move = some loop) (hpost : move.isPost = false)
    (hcall : move.isCall = true → ∀ entry, w.loop.nextEntry = some entry →
      entry.callback ≠ .forceClose c) :
    { w with loop := loop, stack := stack }.AboutToClose c := by
  obtain ⟨⟨entry, hentry, htask⟩, hbusy⟩ := h
  have hmove := EventLoop.move_of_step hstep
  constructor
  · rcases EventLoop.mem_localTasks_of_move hqueues hmove hpost hentry with
      hwaits | ⟨hcalled, hnext⟩
    · exact ⟨entry, hwaits, htask⟩
    · exact absurd htask (hcall hcalled entry hnext)
  · rcases EventLoop.busy_of_move hmove hbusy with hbusy' | hempty
    · exact hbusy'
    · rw [hempty] at hentry
      cases hentry

theorem AboutToClose.apply {other : ConnId} {job : Job} {found : ConnState} {effect : Effect}
    {entry : Option (Posted τ Task)} (h : w.AboutToClose c) (hqueues : w.loop.Queues) :
    (w.apply entry other job found effect).AboutToClose c := by
  obtain ⟨⟨waiting, hwaiting, htask⟩, hbusy⟩ := h
  refine ⟨⟨waiting, ?_, htask⟩, by rwa [phase_apply]⟩
  rcases loop_apply entry other job found effect with heq | ⟨task, -, heq⟩
  · rwa [heq]
  · rw [heq]
    exact EventLoop.mem_localTasks_postCallback hqueues _ task hwaiting

/-- A forced close stays about to happen until it has happened. -/
theorem AboutToClose.moves (h : w.AboutToClose c) (hqueues : w.loop.Queues)
    (hmoves : Moves w action w') :
    w'.AboutToClose c ∨ ∀ conn, w'.conns c = some conn → conn.state = .closed := by
  cases hmoves with
  | loop hstep hpost hcall =>
      refine Or.inl (h.move hqueues hstep hpost fun hcalled entry hnext => ?_)
      obtain ⟨user, huser, htask⟩ := hcall hcalled
      cases hnext.symm.trans huser
      simp [htask]
  | epollWait hempty hreports hstep =>
      exact Or.inl (h.move hqueues hstep rfl (by simp [EventLoop.Action.isCall]))
  | pointers => exact Or.inl ⟨h.waits, h.busy⟩
  | destroyed => exact Or.inl ⟨by simpa using h.waits, by simpa using h.busy⟩
  | posted =>
      obtain ⟨entry, hentry, htask⟩ := h.waits
      refine Or.inl ⟨⟨entry, EventLoop.mem_localTasks_postCallback hqueues _ _ hentry, htask⟩, ?_⟩
      rw [post, EventLoop.phase_postCallback]
      exact h.busy
  | setCallbacks => exact Or.inl ⟨h.waits, h.busy⟩
  | fdClosed => exact Or.inl ⟨h.waits, h.busy⟩
  | born => exact Or.inl ⟨h.waits, h.busy⟩
  | exec =>
      left
      apply AboutToClose.apply
      · exact ⟨h.waits, h.busy⟩
      · exact hqueues
  | @call _ entry _ _ job _ _ hempty hcall hnext hstep hjob hconn hanswers hran =>
      by_cases htask : entry.callback = .forceClose c
      · right
        rw [htask] at hjob
        cases hjob
        intro conn hconn'
        simp only [World.apply, Function.update_self, Option.some.injEq] at hconn'
        rw [← hconn']
        exact hran.closed_of_forceClose
      · left
        apply AboutToClose.apply
        · refine h.move hqueues hstep (isPost_of_isCall hcall) fun _ other hother => ?_
          cases hnext.symm.trans hother
          exact htask
        · exact hqueues.move (EventLoop.move_of_step hstep)

/-- What every new connection has, what a closed one has trivially, and what
every job keeps unless it posts a `force_close`, a connection has as long as no
forced close is about to happen. -/
theorem Moves.unlessAboutToClose (Q : Connection → Prop) (hmoves : Moves w action w')
    (hplaced : w.Placed) (hqueues : w.loop.Queues)
    (hold : ∀ conn, w.conns c = some conn → Q conn ∨ w.AboutToClose c)
    (hclosed : ∀ conn, conn.state = .closed → Q conn)
    (hcallbacks : ∀ conn callbacks, Q conn → Q { conn with callbacks := callbacks })
    (hborn : ∀ fd callbacks table, Q (Connection.registerEvent fd callbacks c table).1)
    (hran : ∀ job conn effect, w.job action = some (c, job) → w.conns c = some conn →
      Answers conn job → conn.Ran c w.epoll (w.registered conn.fd) job effect → Q conn →
      Q effect.conn ∨ effect.post = some (.forceClose c)) :
    ∀ conn, w'.conns c = some conn → Q conn ∨ w'.AboutToClose c := by
  intro conn' hconn'
  have habout : w.AboutToClose c → Q conn' ∨ w'.AboutToClose c := by
    intro habout
    rcases habout.moves hqueues hmoves with habout' | hall
    · exact Or.inr habout'
    · exact Or.inl (hclosed conn' (hall conn' hconn'))
  cases hmoves.fate hplaced hqueues c with
  | same heq => exact (hold conn' (heq ▸ hconn')).elim Or.inl habout
  | gone heq =>
      rw [heq] at hconn'
      cases hconn'
  | posted heq => exact (hold conn' (heq ▸ hconn')).elim Or.inl habout
  | callbacks hconn heq =>
      cases heq.symm.trans hconn'
      exact (hold _ hconn).elim (fun hQ => Or.inl (hcallbacks _ _ hQ)) habout
  | born hconn hc hnext heq =>
      cases heq.symm.trans hconn'
      exact Or.inl (hconn ▸ hborn _ _ _)
  | ran hjob hbody hconn hanswers heffect hposts heq =>
      cases heq.symm.trans hconn'
      refine (hold _ hconn).elim (fun hQ => ?_) habout
      rcases hran _ _ _ hjob hconn hanswers heffect hQ with hQ' | hpost
      · exact Or.inl hQ'
      · obtain ⟨hwaits, hbusy⟩ := hposts _ hpost
        exact Or.inr ⟨hwaits, hbusy⟩

/-! ## No stalled output -/

/-- A disconnecting connection that can send sends all it has. -/
def DrainsAtOnce : World τ → Action τ → Prop := EachJob fun _ _ conn job => conn.DrainsAtOnce job

instance : DecidableRel (DrainsAtOnce (τ := τ)) := inferInstanceAs (DecidableRel (EachJob _))

theorem reach_flows (h : machine.Reach DrainsAtOnce w) :
    ∀ c conn, w.conns c = some conn → conn.Flows ∨ w.AboutToClose c := by
  refine reach_invariant
    (fun w => ∀ c conn, w.conns c = some conn → conn.Flows ∨ w.AboutToClose c) ?_ ?_ h
  · intro thread c conn hconn
    cases hconn
  · intro source action target hreach hinv hok hmoves c
    refine hmoves.unlessAboutToClose Connection.Flows (reach_loop hreach).1
      (reach_loop_queues hreach) (hinv c) ?_ (fun _ _ => id) ?_ ?_
    · exact fun conn hclosed hopen => absurd hclosed hopen
    · exact fun fd callbacks table => Connection.flows_of_backlog rfl
    · intro job conn effect hjob hconn hanswers hran hflows
      exact hran.flows hanswers (reach_settled hreach hconn) (hok.of_job hjob hconn) hflows

/-- **As long as a disconnecting connection sends all it has whenever it can
send, no output stalls.** In every such run, whenever the loop is in
`epoll_wait`, a connection that is not closed and has something to send has
`EPOLLOUT` in the interest set of its event source. -/
theorem no_stalled_output (w : World τ) (h : machine.Reach DrainsAtOnce w)
    (hwaiting : w.loop.phase = .waiting) (c : ConnId) (conn : Connection)
    (hconn : w.conns c = some conn) (hopen : conn.state ≠ .closed)
    (hbytes : conn.hasBytesToWrite = true) :
    wants conn.source.interestOps epollOut = true := by
  rcases reach_flows h c conn hconn with hflows | habout
  · exact hflows hopen (Connection.hasBytesToWrite_eq_true.mp hbytes)
  · have hbusy := habout.busy
    rw [hwaiting] at hbusy
    cases hbusy

/-- A connection that is closed with two bytes to send, both of which the kernel
takes; in between the loop waits. -/
theorem no_stalled_output_of_close :
    ∃ (w : World ℕ) (conn : Connection), machine.Reach DrainsAtOnce w ∧
      w.loop.phase = .waiting ∧ w.conns 0 = some conn ∧ conn.state = .disconnecting ∧
      conn.hasBytesToWrite = true ∧ wants conn.source.interestOps epollOut = true := by
  have hnew : machine.Reach DrainsAtOnce (new 0 : World ℕ) := .init ⟨0, rfl⟩
  obtain ⟨w, hreach, hwaiting, conn, hconn, hstate, hbytes⟩ := hnew.exists_of_leads
    [.loop (.enterRun 0), .loop .testRunning, .epollWait [.other],
      .user 0 (.onNewConnection 5 ⟨false, false, true, false⟩),
      .user 0 (.writeData 0 [1, 2]), .user 0 (.close 0), .user 0 (.drop 0), .returns,
      .loop .swapPending, .loop .endBatch, .call, .callReturns, .call, .callReturns, .exec 0,
      .endIteration, .loop .testRunning]
    (P := fun w => w.loop.phase = .waiting ∧ ∃ conn ∈ w.conns 0,
      conn.state = .disconnecting ∧ conn.hasBytesToWrite = true)
    (by decide)
  exact ⟨w, conn, hreach, hwaiting, hconn, hstate, hbytes,
    no_stalled_output w hreach hwaiting 0 conn hconn (by rw [hstate]; decide) hbytes⟩

/-- Output can stall: a disconnecting connection has two bytes to send and the
kernel takes one of them; the other is never asked for again. -/
theorem not_no_stalled_output :
    ¬ ∀ w : World ℕ, machine.Reach Machine.anyStep w → w.loop.phase = .waiting →
        w.loop.taskQueue = [] → ∀ c conn, w.conns c = some conn → conn.state ≠ .closed →
          conn.hasBytesToWrite = true → wants conn.source.interestOps epollOut = true := by
  intro hclaim
  have hnew : machine.Reach Machine.anyStep (new 0 : World ℕ) := .init ⟨0, rfl⟩
  obtain ⟨w, hreach, hwaiting, hempty, conn, hconn, hstate, hbytes, hstalled⟩ :=
    hnew.exists_of_leads
      [.loop (.enterRun 0), .loop .testRunning, .epollWait [.other],
        .user 0 (.onNewConnection 5 ⟨false, false, true, false⟩),
        .user 0 (.writeData 0 [1, 2]), .user 0 (.close 0), .user 0 (.drop 0), .returns,
        .loop .swapPending, .loop .endBatch, .call, .callReturns, .call, .callReturns, .exec 0,
        .endIteration, .loop .testRunning, .epollWait [.source 5 4], .exec 0, .exec 1,
        .loop .swapPending, .loop .endBatch, .call, .callReturns, .exec 0, .endIteration,
        .loop .testRunning]
      (P := fun w => w.loop.phase = .waiting ∧ w.loop.taskQueue = [] ∧ ∃ conn ∈ w.conns 0,
        conn.state = .disconnecting ∧ conn.hasBytesToWrite = true ∧
          wants conn.source.interestOps epollOut = false)
      (by decide)
  have hflows := hclaim w hreach hwaiting hempty 0 conn hconn (by rw [hstate]; decide) hbytes
  rw [hstalled] at hflows
  cases hflows

end World

end Mutiplex
