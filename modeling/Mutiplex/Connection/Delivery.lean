/-
# From `write` to the output buffer

`write` looks at the state when it is called, the task it posts when it runs; in
between the connection can be closed by whatever task runs first.  If it was not,
the task appends the whole payload.
-/

import Mutiplex.Connection.Life

namespace Mutiplex

open CMemory Transition

variable {τ : Type} [DecidableEq τ]

namespace Connection

variable {conn : Connection} {c : ConnId} {table : Epoll ConnId} {registered recvBuffer : Bool}
  {job : Job} {effect : Effect}

/-! ## The buffer of a connection -/

/-- The bytes still to send. -/
def contents (conn : Connection) : List Cell :=
  match conn.bufferOut with
  | none => []
  | some b => b.contents

/-- The growths in which `put` loses its bytes. -/
def losesWrite (conn : Connection) (data : List UInt8) : Bool :=
  match conn.bufferOut with
  | none => false
  | some b => b.losesPut data

/-- The backlog stays within 2^31 bytes. -/
def Bounded (conn : Connection) : Job → Prop
  | .doWrite data => conn.state ≠ .closed → conn.backlog.toNat + data.length ≤ 2 ^ 31
  | _ => True

instance : DecidablePred conn.Bounded
  | .doWrite data => inferInstanceAs (Decidable
      (conn.state ≠ .closed → conn.backlog.toNat + data.length ≤ 2 ^ 31))
  | .skip | .error | .read _ | .write _ | .callForceClose | .close | .forceClose => isTrue trivial

/-- The buffer, if there is one, is valid. -/
def Sound (conn : Connection) : Prop := ∀ b, conn.bufferOut = some b → b.Valid

theorem Sound.afterWrite (h : conn.Sound) {b : CircularBuffer} {n : ℤ}
    (hb : conn.bufferOut = some b) (hn : n ≤ conn.backlog.toNat) :
    (conn.afterWrite b n).Sound := by
  rintro _ ⟨⟩
  split
  · exact h b hb
  · rw [backlog_of_some hb] at hn
    exact (h b hb).advance (by omega)

/-- The buffer `do_write` puts the payload into, old or new. -/
theorem getD_new (hsound : conn.Sound) (data : List UInt8) :
    ∃ b, conn.bufferOut.getD (.new (UInt32.ofNat data.length)) = b ∧ b.Valid ∧
      b.bufferLen = conn.backlog ∧ b.contents = conn.contents ∧
      b.losesPut data = conn.losesWrite data := by
  cases hb : conn.bufferOut with
  | some b => exact ⟨b, rfl, hsound b hb, by simp [backlog, hb], by simp [contents, hb],
      by simp [losesWrite, hb]⟩
  | none =>
      have hvalid := CircularBuffer.valid_new (UInt32.ofNat data.length)
      refine ⟨_, rfl, hvalid, ?_, ?_, ?_⟩
      · simp [backlog, hb, CircularBuffer.bufferLen_new]
      · simp [contents, hb, CircularBuffer.contents_new]
      · have hcap := hvalid.capacity_pos
        have hfull : (CircularBuffer.new (UInt32.ofNat data.length)).full = false := by
          rw [← Bool.not_eq_true, CircularBuffer.full_iff, CircularBuffer.bufferLen_new,
            UInt32.toNat_zero]
          omega
        simp [CircularBuffer.losesPut, losesWrite, hb, hfull]

theorem Ran.sound (h : conn.Ran c table registered job effect)
    (hanswers : World.Answers conn job) (hbounded : conn.Bounded job) (hsound : conn.Sound) :
    effect.conn.Sound := by
  cases h with
  | writeFails hb => exact hsound.afterWrite hb hanswers.2
  | writesNone hb => exact hsound.afterWrite hb hanswers.2
  | writesLast hb => exact hsound.afterWrite hb hanswers.2
  | writesAll hb => exact hsound.afterWrite hb hanswers.2
  | writesPart hb => exact hsound.afterWrite hb hanswers.2
  | forceCloses hb =>
      rintro _ ⟨⟩
      exact (hsound _ hb).clear
  | @appends data b hstate hput =>
      rintro _ ⟨⟩
      obtain ⟨old, hold, hvalid, hlen, -, -⟩ := getD_new hsound data
      rw [hold] at hput
      obtain ⟨b', hput', hvalid', -, -⟩ :=
        CircularBuffer.put_spec hvalid (hlen ▸ hbounded hstate)
      cases hput.symm.trans hput'
      exact hvalid'
  | _ => exact hsound

/-- `do_write` appends the payload, as long as the connection is not closed, the
backlog stays within 2^31 bytes and the growth keeps the bytes. -/
theorem doWrite_appends (hsound : conn.Sound) (hopen : conn.state ≠ .closed) {data : List UInt8}
    (hbounded : conn.backlog.toNat + data.length ≤ 2 ^ 31)
    (hkeeps : conn.losesWrite data = false) :
    ∃ effect, conn.run c table registered recvBuffer (.doWrite data) = .ok effect ∧
      effect.conn.contents = conn.contents ++ data.map some := by
  obtain ⟨old, hold, hvalid, hlen, hcontents, hloses⟩ := getD_new hsound data
  obtain ⟨b, hput, -, -, happended⟩ := CircularBuffer.put_spec hvalid (hlen ▸ hbounded)
  refine ⟨{ conn with bufferOut := some b }.withSource c table EventSource.enableWriting, ?_, ?_⟩
  · simp only [run, doWrite, if_neg hopen, hold, hput]
    rfl
  · show b.contents = _
    rw [happended, hcontents, CircularBuffer.appended, hloses, hkeeps]
    rfl

/-- Only two tasks close a connection. -/
theorem Ran.closing (h : conn.Ran c table registered job effect) (hopen : conn.state ≠ .closed)
    (hclosed : effect.conn.state = .closed) : job = .close ∨ job = .forceClose := by
  cases h with
  | closes => exact Or.inl rfl
  | forceCloses => exact Or.inr rfl
  | closeWaits => cases hclosed
  | _ => exact absurd hclosed hopen

end Connection

namespace World

variable {w w' : World τ} {action : Action τ} {c : ConnId}

/-! ## Accepted writes -/

/-- No payload takes the backlog of the connection above 2^31 bytes while it is
not closed. -/
def Bounded (c : ConnId) : World τ → Action τ → Prop :=
  EachJob fun _ other conn job => other = c → conn.Bounded job

instance : DecidableRel (Bounded (τ := τ) c) := inferInstanceAs (DecidableRel (EachJob _))

theorem reach_sound (h : machine.Reach (Bounded c) w) {conn : Connection}
    (hconn : w.conns c = some conn) : conn.Sound := by
  have hsound := reach_trail
    (fun other value _ => other = c → ∀ conn, value = some conn → conn.Sound)
    (fun other _ conn h => by cases h)
    (fun other value trail _ _ conn h => by cases h)
    (fun other value entry trail hold _ _ => hold)
    (fun other conn callbacks trail hold hc new h => by cases h; exact hold hc conn rfl)
    (fun other fd callbacks table _ conn h b hb => by cases h; cases hb)
    (fun source action other job conn effect loop entry trail _ hok hjob _ hconn hanswers hran
        hold hc new h => by
      cases h
      exact hran.sound hanswers (hok.of_job hjob hconn hc) (hold hc conn rfl)) h c
  exact hsound rfl conn hconn

/-- A task that closed the connection: that of a `force_close`, or that of a
`close` which found nothing to send. -/
def Closes (c : ConnId) (event : Event τ) : Prop :=
  ∃ entry job found left, event = .ran entry job found left ∧
    (entry.callback = .forceClose c ∨ entry.callback = .close c ∧ left = .closed)

omit [DecidableEq τ] in
theorem callback_of_taskJob {task : Task} {job : Job} (h : w.taskJob task = some (c, job)) :
    (job = .close → task = .close c) ∧ (job = .forceClose → task = .forceClose c) := by
  cases task <;> cases h <;> simp

/-- The task that closes a connection is on record. -/
theorem closes_mem_records {source : World τ} {conn : Connection} {table : Epoll ConnId}
    {registered : Bool} {job : Job} {effect : Effect} {loop : EventLoop τ Task}
    {entry : Option (Posted τ Task)} (hran : conn.Ran c table registered job effect)
    (hbody : source.BodyOf entry c job)
    (hopen : conn.state ≠ .closed) (hclosed : effect.conn.state = .closed) :
    ∃ event ∈ records loop entry c job conn.state effect, Closes c event := by
  have hjob := hran.closing hopen hclosed
  rcases hbody with ⟨-, htask⟩ | ⟨task, rfl, -, htaskJob⟩
  · rcases hjob with rfl | rfl <;> cases htask
  · refine ⟨_, ran_mem_records.mpr ⟨rfl, rfl, rfl, rfl⟩, task, _, _, _, rfl, ?_⟩
    rcases hjob with hjob | hjob
    · exact Or.inr ⟨(callback_of_taskJob htaskJob).1 hjob, hclosed⟩
    · exact Or.inl ((callback_of_taskJob htaskJob).2 hjob)

/-- The tasks a job posts are no writes. -/
theorem not_isWrite_of_records {conn : Connection} {table : Epoll ConnId} {registered : Bool}
    {job : Job} {effect : Effect} {loop : EventLoop τ Task} {entry : Option (Posted τ Task)}
    (hran : conn.Ran c table registered job effect) {written : Posted τ Task}
    (h : .posted written ∈ records loop entry c job conn.state effect) :
    written.callback.isWrite = false := by
  obtain ⟨task, hpost, rfl⟩ := posted_mem_records.mp h
  rcases hran.post_eq hpost with rfl | rfl <;> rfl

/-- Whenever the connection is closed, a task that ran after any accepted
`write` has closed it. -/
def ClosedSince (c : ConnId) (value : Option Connection) (trail : List (Event τ)) : Prop :=
  ∀ newer older entry, trail = newer ++ .posted entry :: older →
    entry.callback.isWrite = true → ∀ conn, value = some conn → conn.state = .closed →
      ∃ event ∈ newer, Closes c event

omit [DecidableEq τ] in
theorem ClosedSince.posted {value : Option Connection} {trail : List (Event τ)}
    {entry : Posted τ Task} (h : ClosedSince c value trail)
    (hwrite : entry.callback.isWrite = true → ∃ conn, value = some conn ∧ conn.isClosed = false) :
    ClosedSince c value (.posted entry :: trail) := by
  intro newer older written htrail hwritten conn hconn hclosed
  rcases List.cons_eq_append_iff.mp htrail with ⟨-, heq⟩ | ⟨rest, rfl, heq⟩
  · cases heq
    obtain ⟨_, hopen, hnot⟩ := hwrite hwritten
    cases hconn.symm.trans hopen
    simp [Connection.isClosed, hclosed] at hnot
  · obtain ⟨event, hevent, hcloses⟩ := h rest older written heq hwritten conn hconn hclosed
    exact ⟨event, List.mem_cons_of_mem _ hevent, hcloses⟩

theorem ClosedSince.ran {source : World τ} {conn : Connection} {table : Epoll ConnId}
    {registered : Bool} {job : Job} {effect : Effect} {loop : EventLoop τ Task}
    {entry : Option (Posted τ Task)} {trail : List (Event τ)} (h : ClosedSince c (some conn) trail)
    (hran : conn.Ran c table registered job effect)
    (hbody : source.BodyOf entry c job) :
    ClosedSince c (some effect.conn) (records loop entry c job conn.state effect ++ trail) := by
  rintro newer older written htrail hwritten _ ⟨⟩ hclosed
  -- the write was posted before the job, whose own posts are no writes
  obtain ⟨rest, rfl, heq⟩ : ∃ rest, newer = records loop entry c job conn.state effect ++ rest ∧
      trail = rest ++ .posted written :: older := by
    rcases List.append_eq_append_iff.mp htrail with hafter | ⟨rest, hrecords, heq⟩
    · exact hafter
    · cases rest with
      | nil => exact ⟨[], by simpa using hrecords.symm, by simpa using heq.symm⟩
      | cons event rest =>
          cases heq
          have hmem : .posted written ∈ records loop entry c job conn.state effect := by
            rw [hrecords]
            exact List.mem_append_right _ List.mem_cons_self
          rw [not_isWrite_of_records hran hmem] at hwritten
          cases hwritten
  by_cases hopen : conn.state = .closed
  · obtain ⟨event, hevent, hcloses⟩ := h rest older written heq hwritten conn rfl hopen
    exact ⟨event, List.mem_append_right _ hevent, hcloses⟩
  · obtain ⟨event, hevent, hcloses⟩ := closes_mem_records hran hbody hopen hclosed
    exact ⟨event, List.mem_append_left _ hevent, hcloses⟩

theorem reach_closedSince {ok : World τ → Action τ → Prop} (h : machine.Reach ok w)
    (c : ConnId) : ClosedSince c (w.conns c) (w.trail c) := by
  refine reach_trail (fun c => ClosedSince c) ?_ ?_ ?_ ?_ ?_ ?_ h c
  · exact fun c newer older entry _ _ conn hconn => by cases hconn
  · exact fun c value trail _ newer older entry _ _ conn hconn => by cases hconn
  · exact fun c value entry trail hold _ hwrite => hold.posted hwrite
  · intro c conn callbacks trail hold newer older entry htrail hwrite new hnew hclosed
    cases hnew
    exact hold newer older entry htrail hwrite conn rfl hclosed
  · intro c fd callbacks table newer older entry _ _ conn hconn hclosed
    cases hconn
    cases hclosed
  · intro source action c job conn effect loop entry trail _ _ _ hbody _ _ hran hold
    exact hold.ran hran hbody

omit [DecidableEq τ] in
/-- A split of the history is a split of the trail. -/
theorem trail_split {newer older : List (Event τ)} {event : Event τ}
    (hhistory : w.history = newer ++ event :: older) (hsubject : event.subject = some c) :
    w.trail c = newer.filter (fun event => event.subject = some c) ++
      event :: older.filter (fun event => event.subject = some c) := by
  rw [trail, hhistory, List.filter_append, List.filter_cons_of_pos (by simpa using hsubject)]

omit [DecidableEq τ] in
/-- The task of a `write` appends the bytes it copied, or what its buffer holds
when it runs. -/
theorem taskJob_of_isWrite {task : Task} (hwrite : task.isWrite = true)
    (htarget : task.target = some c) : ∃ data, w.taskJob task = some (c, .doWrite data) ∧
      (∀ bytes, task = .writeData c bytes → data = bytes) ∧
      ∀ buffer, task = .writeBuffer c buffer → data = w.buffers buffer := by
  cases task with
  | writeBuffer other buffer =>
      cases htarget
      exact ⟨w.buffers buffer, rfl, by simp, by simp⟩
  | writeData other data =>
      cases htarget
      exact ⟨data, rfl, by simp, by simp⟩
  | _ => cases hwrite

/-! ## Payloads -/

/-- What the task of a `write` appends: the copy that `write(const void*,
uint32_t)` took, or what the `ByteBuffer` of the other overload held when the
task was called. -/
def Payload (w : World τ) (entry : Posted τ Task) (data : List UInt8) : Prop :=
  match entry.callback with
  | .writeData _ bytes => data = bytes
  | .writeBuffer _ buffer => ∃ before after, machine.Reach Machine.anyStep before ∧
      before.loop.nextEntry = some entry ∧ machine.step before .call = .next after ∧
      machine.Path Machine.anyStep after w ∧ data = before.buffers buffer
  | _ => False

/-- A task that is on record has been called. -/
theorem exists_call_of_ran (h : machine.Reach Machine.anyStep w) {entry : Posted τ Task}
    {job : Job} {found left : ConnState} (hran : .ran entry job found left ∈ w.history) :
    ∃ before after c, machine.Reach Machine.anyStep before ∧
      before.loop.nextEntry = some entry ∧ machine.step before .call = .next after ∧
      machine.Path Machine.anyStep after w ∧ before.taskJob entry.callback = some (c, job) := by
  obtain ⟨before, action, after, hbefore, hstep, hnot, hmem, hpath⟩ :=
    h.exists_step (fun w => Event.ran entry job found left ∈ w.history)
      (by rintro _ ⟨thread, rfl⟩; exact List.not_mem_nil) hran
  cases moves_of_step hstep with
  | loop => exact absurd hmem hnot
  | epollWait => exact absurd hmem hnot
  | pointers => exact absurd hmem hnot
  | destroyed =>
      rw [history_destroy] at hmem
      exact absurd hmem hnot
  | posted => exact absurd (List.mem_of_ne_of_mem (by simp) hmem) hnot
  | setCallbacks => exact absurd hmem hnot
  | fdClosed => exact absurd hmem hnot
  | born => exact absurd ((List.mem_append.mp hmem).resolve_left (by simp)) hnot
  | exec =>
      refine absurd ((List.mem_append.mp hmem).resolve_left fun hrecords => ?_) hnot
      cases (ran_mem_records.mp hrecords).1
  | @call move called loop c task conn effect hempty hcall hnext hmove hjob =>
      have hrecords := (List.mem_append.mp hmem).resolve_right hnot
      obtain ⟨hentry, rfl, -⟩ := ran_mem_records.mp hrecords
      cases hentry
      exact ⟨before, _, c, hbefore, hnext, hstep, hpath, hjob⟩

/-- Whatever a `write` task appended was its payload. -/
theorem reach_payload {ok : World τ → Action τ → Prop} (h : machine.Reach ok w)
    {entry : Posted τ Task} {data : List UInt8} {found left : ConnState}
    (hran : .ran entry (.doWrite data) found left ∈ w.history) : w.Payload entry data := by
  obtain ⟨before, after, c, hbefore, hnext, hstep, hpath, hjob⟩ := exists_call_of_ran h.any hran
  unfold Payload
  cases hcallback : entry.callback with
  | writeData c' bytes =>
      rw [hcallback] at hjob
      cases hjob
      rfl
  | writeBuffer c' buffer =>
      rw [hcallback] at hjob
      cases hjob
      exact ⟨before, after, hbefore, hnext, hstep, hpath, rfl⟩
  | _ =>
      rw [hcallback] at hjob
      cases hjob

/-- **An accepted write is not dropped unless its connection was closed in
between.** When the task of a `write` that returned true is called, and no task
that closed the connection has been executed since that `write`, then the
connection is not closed; it exists if the task captured it; and `do_write`
appends the whole payload, in every run that keeps the backlog within 2^31 bytes
and whenever the growth of the buffer keeps its bytes.  The payload is the copy
that `write(const void*, uint32_t)` took, or what the `ByteBuffer` of the other
overload holds when the task is called. -/
theorem accepted_write_appends (w : World τ) (h : machine.Reach Machine.anyStep w)
    (entry : Posted τ Task) (c : ConnId) (hnext : w.loop.nextEntry = some entry)
    (hwrite : entry.callback.isWrite = true) (htarget : entry.callback.target = some c)
    (newer older : List (Event τ)) (hhistory : w.history = newer ++ .posted entry :: older)
    (hsince : ∀ event ∈ newer, ¬ Closes c event) :
    (entry.callback.captured = some c → ∃ conn, w.conns c = some conn) ∧
      ∃ data, w.job .call = some (c, .doWrite data) ∧
        (∀ bytes, entry.callback = .writeData c bytes → data = bytes) ∧
        (∀ buffer, entry.callback = .writeBuffer c buffer → data = w.buffers buffer) ∧
        ∀ conn, w.conns c = some conn → conn.state ≠ .closed ∧
          (machine.Reach (Bounded c) w → conn.Bounded (.doWrite data) →
            conn.losesWrite data = false →
              ∃ effect, conn.run c w.epoll (w.registered conn.fd) w.recvBuffer (.doWrite data) =
                  .ok effect ∧
                effect.conn.contents = conn.contents ++ data.map some) := by
  have hopen : ∀ conn, w.conns c = some conn → conn.state ≠ .closed := by
    intro conn hconn hclosed
    obtain ⟨event, hevent, hcloses⟩ := reach_closedSince h c _ _ entry
      (trail_split hhistory htarget) hwrite conn hconn hclosed
    exact hsince event (List.mem_of_mem_filter hevent) hcloses
  obtain ⟨data, hjob, hcopied, hheld⟩ := taskJob_of_isWrite (w := w) hwrite htarget
  refine ⟨fun hcaptured => ?_, data, (job_call hnext).trans hjob, hcopied, hheld,
    fun conn hconn => ?_⟩
  · have hmem := EventLoop.mem_entries_of_unexecuted
      (EventLoop.mem_unexecuted_of_nextEntry hnext)
    exact reach_alive h c (Or.inr (Or.inr (Or.inr ⟨entry, hmem, hcaptured⟩)))
  · refine ⟨hopen conn hconn, fun hbounded hfits hkeeps => ?_⟩
    have hstate := hopen conn hconn
    exact Connection.doWrite_appends (reach_sound hbounded hconn) hstate (hfits hstate) hkeeps

/-- A server that fills a `ByteBuffer`, writes it, and then closes. -/
theorem accepted_write_appends_of_write_then_close :
    ∃ (w : World ℕ) (conn : Connection) (effect : Effect),
      machine.Reach Machine.anyStep w ∧ w.conns 0 = some conn ∧
      w.loop.nextEntry = some ⟨0, 0, true, .writeBuffer 0 3⟩ ∧
      conn.run 0 w.epoll (w.registered conn.fd) w.recvBuffer (.doWrite [1, 2]) = .ok effect ∧
      effect.conn.contents = conn.contents ++ [some 1, some 2] := by
  have hnew : machine.Reach (Bounded 0) (new 0 : World ℕ) := .init ⟨0, rfl⟩
  obtain ⟨w, hreach, hnext, hhistory, hbuffer, conn, hconn, hfits, hkeeps⟩ := hnew.exists_of_leads
    [.loop (.enterRun 0), .loop .testRunning, .epollWait [.other],
      .user 0 (.onNewConnection 5 ⟨false, false, true, false⟩),
      .user 0 (.setBuffer 3 [1, 2]), .user 0 (.writeBuffer 0 3), .user 0 (.close 0),
      .user 0 (.drop 0), .returns, .loop .swapPending, .loop .endBatch]
    (P := fun w => w.loop.nextEntry = some ⟨0, 0, true, .writeBuffer 0 3⟩ ∧
      w.history = [.posted ⟨0, 1, true, .close 0⟩] ++
        .posted ⟨0, 0, true, .writeBuffer 0 3⟩ :: [] ∧
      w.buffers 3 = [1, 2] ∧
      ∃ conn ∈ w.conns 0, conn.Bounded (.doWrite [1, 2]) ∧ conn.losesWrite [1, 2] = false)
    (by decide)
  have hsince : ∀ event ∈ [(.posted ⟨0, 1, true, .close 0⟩ : Event ℕ)], ¬ Closes 0 event := by
    rintro _ hevent ⟨entry, job, found, left, rfl, -⟩
    cases List.mem_singleton.mp hevent
  obtain ⟨-, data, -, -, hheld, happends⟩ :=
    accepted_write_appends w hreach.any _ 0 hnext rfl rfl _ _ hhistory hsince
  obtain rfl : data = [1, 2] := (hheld 3 rfl).trans hbuffer
  obtain ⟨effect, hrun, hcontents⟩ := (happends conn hconn).2 hreach hfits hkeeps
  exact ⟨w, conn, effect, hreach.any, hconn, hnext, hrun, hcontents⟩

/-- An accepted write can be dropped with no forced close: the loop thread calls
`close()` and then `write`, which still sees the old state and returns true; the
task of the `close` runs first. -/
theorem not_accepted_write_appends :
    ¬ ∀ w : World ℕ, machine.Reach Machine.anyStep w →
        (∀ entry ∈ w.loop.posted, entry.onLoop = true) →
          ∀ entry c newer older, w.loop.nextEntry = some entry →
            entry.callback.isWrite = true → entry.callback.target = some c →
            w.history = newer ++ .posted entry :: older →
            (∀ ran job found left, .ran ran job found left ∈ newer →
              ran.callback ≠ .forceClose c) →
              ∀ conn, w.conns c = some conn → conn.state ≠ .closed := by
  intro hclaim
  have hnew : machine.Reach Machine.anyStep (new 0 : World ℕ) := .init ⟨0, rfl⟩
  obtain ⟨w, hreach, hthread, hnext, hhistory, conn, hconn, hclosed⟩ := hnew.exists_of_leads
    [.loop (.enterRun 0), .loop .testRunning, .epollWait [.other],
      .user 0 (.onNewConnection 5 ⟨false, false, false, false⟩),
      .user 0 (.close 0), .user 0 (.writeData 0 [1, 2]), .returns,
      .loop .swapPending, .loop .endBatch, .call, .exec 0, .exec 0, .callReturns, .exec 0]
    (P := fun w => (∀ entry ∈ w.loop.posted, entry.onLoop = true) ∧
      w.loop.nextEntry = some ⟨0, 1, true, .writeData 0 [1, 2]⟩ ∧
      w.history = [.ran ⟨0, 0, true, .close 0⟩ .close .receiving .closed] ++
        .posted ⟨0, 1, true, .writeData 0 [1, 2]⟩ :: [.posted ⟨0, 0, true, .close 0⟩] ∧
      ∃ conn ∈ w.conns 0, conn.state = .closed)
    (by decide)
  refine hclaim w hreach hthread _ 0 _ _ hnext rfl rfl hhistory ?_ conn hconn hclosed
  intro ran job found left hran
  cases List.mem_singleton.mp hran
  decide

end World

end Mutiplex
