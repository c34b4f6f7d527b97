/-
# From the output buffer to the wire

The bytes the kernel took and the bytes in the buffer are together the bytes of
all `do_write` tasks, until the connection is closed.  So a `close` that finds
the buffer empty leaves none of them behind.  And since the task queue keeps its
order, no `write` made on the loop thread is still to run when the task of a
later `close` does, if that was called on the loop thread as well; a `close`
called on another thread goes through the other queue and can overtake it.
-/

import Mutiplex.Connection.Delivery

namespace Mutiplex

open CMemory Transition

variable {τ : Type} [DecidableEq τ]

/-! ## Bytes -/

/-- The number of bytes a job puts into the output buffer. -/
def Job.payload : Job → ℕ
  | .doWrite data => data.length
  | _ => 0

/-- The number of bytes the kernel took. -/
def Event.sentBytes : Event τ → ℕ
  | .sent _ bytes => bytes
  | _ => 0

/-- The number of bytes a task wrote. -/
def Event.writtenBytes : Event τ → ℕ
  | .ran _ job _ _ => job.payload
  | _ => 0

/-- The task that was posted. -/
def Event.posting : Event τ → Option (Posted τ Task)
  | .posted entry => some entry
  | _ => none

theorem Job.payload_of_not_isTask {job : Job} (h : job.isTask = false) : job.payload = 0 := by
  cases job <;> first | rfl | cases h

namespace Connection

variable {conn : Connection} {c : ConnId} {table : Epoll ConnId} {registered : Bool} {job : Job}
  {effect : Effect}

theorem getD_taken (n : ℤ) : (taken n).getD 0 = n.toNat := by
  unfold taken
  split
  · rw [Option.getD_none]
    omega
  · rfl

/-- What a job sends and leaves in the buffer is what was there and what it
wrote, as long as the connection is not closed. -/
theorem Ran.balance (h : conn.Ran c table registered job effect)
    (hanswers : World.Answers conn job) (hbounded : conn.Bounded job)
    (hopen : effect.conn.state ≠ .closed) :
    effect.sent.getD 0 + effect.conn.backlog.toNat = conn.backlog.toNat + job.payload := by
  have hwrite : ∀ {n : ℤ} {b : CircularBuffer}, conn.bufferOut = some b →
      n ≤ conn.backlog.toNat →
        (taken n).getD 0 + (conn.afterWrite b n).backlog.toNat = conn.backlog.toNat + 0 := by
    intro n b hb hn
    have hbacklog := backlog_afterWrite hb hn
    rw [getD_taken]
    omega
  cases h with
  | writeFails hb => exact hwrite hb hanswers.2
  | writesNone hb => exact hwrite hb hanswers.2
  | writesLast hb => exact hwrite hb hanswers.2
  | writesAll hb => exact hwrite hb hanswers.2
  | writesPart hb => exact hwrite hb hanswers.2
  | closes => exact absurd rfl hopen
  | forceCloses => exact absurd rfl hopen
  | doWriteClosed hstate => exact absurd hstate hopen
  | @appends data b hstate hput =>
      have hfits := hbounded hstate
      have hlen : b.bufferLen = conn.backlog + UInt32.ofNat data.length := backlog_put hput
      have hdata : data.length % 2 ^ 32 = data.length := Nat.mod_eq_of_lt (by omega)
      show 0 + b.bufferLen.toNat = conn.backlog.toNat + data.length
      rw [hlen, UInt32.toNat_add, UInt32.toNat_ofNat', hdata, Nat.mod_eq_of_lt (by omega)]
      omega
  | _ => exact Nat.zero_add _

end Connection

namespace World

variable {w w' : World τ} {action : Action τ} {c : ConnId}

/-- The number of bytes the kernel has accepted on a connection. -/
def sentBytes (w : World τ) (c : ConnId) : ℕ := ((w.trail c).map Event.sentBytes).sum

/-- The total length of the `do_write` tasks executed on a connection. -/
def writtenBytes (w : World τ) (c : ConnId) : ℕ := ((w.trail c).map Event.writtenBytes).sum

theorem sum_records (loop : EventLoop τ Task) (entry : Option (Posted τ Task)) (c : ConnId)
    (job : Job) (found : ConnState) (effect : Effect)
    (hentry : entry = none → job.isTask = false) :
    ((records loop entry c job found effect).map Event.sentBytes).sum = effect.sent.getD 0 ∧
      ((records loop entry c job found effect).map Event.writtenBytes).sum = job.payload := by
  constructor
  · cases hcalled : effect.called <;> cases hpost : effect.post <;> cases hsent : effect.sent <;>
      cases entry <;> simp [records, hcalled, hpost, hsent, Event.sentBytes]
  · cases entry with
    | none =>
        rw [Job.payload_of_not_isTask (hentry rfl)]
        cases hcalled : effect.called <;> cases hpost : effect.post <;>
          cases hsent : effect.sent <;>
            simp [records, hcalled, hpost, hsent, Event.writtenBytes]
    | some entry =>
        cases hcalled : effect.called <;> cases hpost : effect.post <;>
          cases hsent : effect.sent <;>
            simp [records, hcalled, hpost, hsent, Event.writtenBytes]

/-- **As long as a connection is not closed, no byte is lost or sent twice.** The
bytes the kernel took and those in the buffer are those of all `do_write`
tasks. -/
theorem reach_balance (h : machine.Reach (Bounded c) w) {conn : Connection}
    (hconn : w.conns c = some conn) (hopen : conn.state ≠ .closed) :
    w.sentBytes c + conn.backlog.toNat = w.writtenBytes c := by
  have hbalance := reach_trail
    (fun other value trail => other = c → ∀ conn, value = some conn → conn.state ≠ .closed →
      (trail.map Event.sentBytes).sum + conn.backlog.toNat =
        (trail.map Event.writtenBytes).sum) ?_ ?_ ?_ ?_ ?_ ?_ h c
  · exact hbalance rfl conn hconn hopen
  · exact fun other _ conn hconn => by cases hconn
  · exact fun other value trail _ _ conn hconn => by cases hconn
  · intro other value entry trail hold _ _ hc conn hconn hopen
    simpa [Event.sentBytes, Event.writtenBytes] using hold hc conn hconn hopen
  · intro other conn callbacks trail hold hc new hnew hopen
    cases hnew
    exact hold hc conn rfl hopen
  · intro other fd callbacks table _ conn hconn _
    cases hconn
    cases hset : (Connection.registerEvent fd callbacks other table).1.userCallback .established <;>
      rfl
  · intro source action other job conn effect loop entry trail hreach hok hjob hbody hconn
      hanswers hran hold hc new hnew hopen
    cases hnew
    have hopen' : conn.state ≠ .closed :=
      fun hclosed => hopen (hran.closed (reach_settled hreach hconn) hclosed)
    have hjobBalance := hran.balance hanswers (hok.of_job hjob hconn hc) hopen
    have htrail := hold hc conn rfl hopen'
    obtain ⟨hsent, hwritten⟩ :=
      sum_records loop entry other job conn.state effect hbody.isTask_eq_false
    rw [List.map_append, List.map_append, List.sum_append, List.sum_append, hsent, hwritten]
    omega

/-- A connection that is not closed has never been found closed. -/
theorem reach_found {ok : World τ → Action τ → Prop} (h : machine.Reach ok w)
    {conn : Connection} (hconn : w.conns c = some conn) (hopen : conn.state ≠ .closed)
    {entry : Posted τ Task} {job : Job} {found left : ConnState}
    (hran : .ran entry job found left ∈ w.trail c) : found ≠ .closed := by
  have hfound := reach_trail
    (fun _ value trail => ∀ conn, value = some conn → conn.state ≠ .closed →
      ∀ entry job found left, .ran entry job found left ∈ trail → found ≠ .closed)
    ?_ ?_ ?_ ?_ ?_ ?_ h c
  · exact hfound conn hconn hopen entry job found left hran
  · exact fun c conn hconn => by cases hconn
  · exact fun c value trail _ conn hconn => by cases hconn
  · intro c value entry trail hold _ _ conn hconn hopen ran job found left hmem
    exact hold conn hconn hopen ran job found left (by simpa using hmem)
  · intro c conn callbacks trail hold new hnew hopen
    cases hnew
    exact hold conn rfl hopen
  · intro c fd callbacks table conn hconn hopen ran job found left hmem
    obtain ⟨callback, -, heq⟩ := Option.map_eq_some_iff.mp (Option.mem_toList.mp hmem)
    cases heq
  · intro source action c job conn effect loop entry trail hreach _ _ _ hconn _ hran hold new hnew
      hopen ran job' found left hmem
    cases hnew
    have hopen' : conn.state ≠ .closed :=
      fun hclosed => hopen (hran.closed (reach_settled hreach hconn) hclosed)
    rcases List.mem_append.mp hmem with hrecords | hold'
    · obtain ⟨-, -, rfl, -⟩ := ran_mem_records.mp hrecords
      exact hopen'
    · exact hold conn rfl hopen' ran job' found left hold'

/-! ## Order -/

theorem posting_records (loop : EventLoop τ Task) (entry : Option (Posted τ Task)) (c : ConnId)
    (job : Job) (found : ConnState) (effect : Effect) :
    (records loop entry c job found effect).filterMap Event.posting =
      (effect.post.map (loop.entry loop.pthreadId)).toList := by
  cases hcalled : effect.called <;> cases hpost : effect.post <;> cases hsent : effect.sent <;>
    cases entry <;> simp [records, hcalled, hpost, hsent, Event.posting, List.filterMap_cons]

theorem posted_apply (entry : Option (Posted τ Task)) (c : ConnId) (job : Job)
    (found : ConnState) (effect : Effect) :
    (w.apply entry c job found effect).loop.posted =
      w.loop.posted ++ (effect.post.map (w.loop.entry w.loop.pthreadId)).toList := by
  cases hpost : effect.post with
  | none => simp [apply, hpost]
  | some task => simp [apply, hpost, EventLoop.posted_postCallback]

/-- The posts on record are those of the loop. -/
def Logged (w : World τ) : Prop := w.history.filterMap Event.posting = w.loop.posted.reverse

theorem Logged.apply (h : w.Logged) {loop : EventLoop τ Task}
    (hposted : loop.posted = w.loop.posted) {stack : List Frame}
    (entry : Option (Posted τ Task)) (c : ConnId) (job : Job) (found : ConnState)
    (effect : Effect) :
    ({ w with loop := loop, stack := stack }.apply entry c job found effect).Logged := by
  rw [Logged, posted_apply, List.reverse_append]
  show List.filterMap Event.posting (records loop entry c job found effect ++ w.history) = _
  rw [List.filterMap_append, posting_records, h, hposted]
  cases effect.post <;> rfl

theorem posted_of_step {loop : EventLoop τ Task} {move : EventLoop.Action τ Task}
    (hstep : w.loop.step move = some loop) (hpost : move.isPost = false) :
    loop.posted = w.loop.posted := by
  rcases EventLoop.move_frame (EventLoop.move_of_step hstep) with ⟨_, _, rfl, -⟩ | ⟨hposted, -⟩
  · cases hpost
  · exact hposted

theorem reach_logged {ok : World τ → Action τ → Prop} (h : machine.Reach ok w) : w.Logged := by
  refine reach_invariant Logged (fun _ => rfl) ?_ h
  intro source action target _ hinv _ hmoves
  cases hmoves with
  | loop hstep hpost =>
      rw [Logged, posted_of_step hstep hpost]
      exact hinv
  | epollWait hempty hreports hstep =>
      rw [Logged, posted_of_step hstep rfl]
      exact hinv
  | pointers => exact hinv
  | destroyed =>
      rw [Logged, history_destroy, loop_destroy]
      exact hinv
  | @posted thread call task =>
      rw [Logged, post, EventLoop.posted_postCallback, List.reverse_append]
      show source.loop.entry thread task :: source.history.filterMap Event.posting = _
      rw [hinv]
      rfl
  | setCallbacks => exact hinv
  | fdClosed => exact hinv
  | @born fd callbacks =>
      have hcalled : ∀ called : Option UserCallback,
          (called.map (Event.called source.nextId)).toList.filterMap Event.posting =
            ([] : List (Posted τ Task)) := by
        intro called
        cases called <;> rfl
      show List.filterMap Event.posting (_ ++ source.history) = _
      rw [List.filterMap_append, hcalled, hinv]
      rfl
  | exec => exact hinv.apply rfl _ _ _ _ _
  | call hempty hcall hnext hstep =>
      exact hinv.apply (posted_of_step hstep (isPost_of_isCall hcall)) _ _ _ _ _

theorem executed_apply (entry : Option (Posted τ Task)) (c : ConnId) (job : Job)
    (found : ConnState) (effect : Effect) :
    (w.apply entry c job found effect).loop.executed = w.loop.executed := by
  rcases loop_apply entry c job found effect with heq | ⟨task, -, heq⟩
  · rw [heq]
  · rw [heq, EventLoop.executed_postCallback]

/-- Every `write` task that was called is on record. -/
theorem reach_ran {ok : World τ → Action τ → Prop} (h : machine.Reach ok w) :
    ∀ entry ∈ w.loop.executed, entry.callback.isWrite = true →
      ∃ data found left, .ran entry (.doWrite data) found left ∈ w.history := by
  refine reach_invariant (fun w => ∀ entry ∈ w.loop.executed, entry.callback.isWrite = true →
    ∃ data found left, .ran entry (.doWrite data) found left ∈ w.history) ?_ ?_ h
  · intro thread entry hentry
    cases hentry
  · intro source action target _ hinv _ hmoves entry hentry hwrite
    have hold : ∀ new : List (Event τ), entry ∈ source.loop.executed →
        ∃ data found left, .ran entry (.doWrite data) found left ∈ new ++ source.history := by
      intro new hmem
      obtain ⟨data, found, left, hran⟩ := hinv entry hmem hwrite
      exact ⟨data, found, left, List.mem_append_right _ hran⟩
    cases hmoves with
    | loop hstep hpost hcall =>
        rcases EventLoop.executed_move (EventLoop.move_of_step hstep) with
          ⟨called, hisCall, hnext, hexecuted⟩ | ⟨-, hexecuted⟩
        · rw [hexecuted] at hentry
          rcases List.mem_append.mp hentry with hmem | hmem
          · exact hinv entry hmem hwrite
          · obtain ⟨user, hnext', huser⟩ := hcall hisCall
            cases hnext.symm.trans hnext'
            rw [List.mem_singleton.mp hmem, huser] at hwrite
            cases hwrite
        · exact hinv entry (hexecuted ▸ hentry) hwrite
    | epollWait hempty hreports hstep =>
        rcases EventLoop.executed_move (EventLoop.move_of_step hstep) with
          ⟨called, hisCall, -⟩ | ⟨-, hexecuted⟩
        · cases hisCall
        · exact hinv entry (hexecuted ▸ hentry) hwrite
    | pointers => exact hinv entry hentry hwrite
    | destroyed =>
        rw [loop_destroy] at hentry
        rw [history_destroy]
        exact hinv entry hentry hwrite
    | posted =>
        rw [post, EventLoop.executed_postCallback] at hentry
        exact hold [_] hentry
    | setCallbacks => exact hinv entry hentry hwrite
    | fdClosed => exact hinv entry hentry hwrite
    | born => exact hold _ hentry
    | exec =>
        rw [executed_apply] at hentry
        exact hold _ hentry
    | @call _ called loop c job conn effect hempty hcall hnext hstep hjob =>
        rw [executed_apply] at hentry
        rcases EventLoop.executed_move (EventLoop.move_of_step hstep) with
          ⟨next, -, hnext', hexecuted⟩ | ⟨hnot, -⟩
        · rw [hexecuted] at hentry
          rcases List.mem_append.mp hentry with hmem | hmem
          · exact hold _ hmem
          · cases hnext.symm.trans hnext'
            cases List.mem_singleton.mp hmem
            obtain ⟨data, hdata, -⟩ := taskJob_of_isWrite (w := source) hwrite
              (target_of_taskJob hjob)
            cases hjob.symm.trans hdata
            exact ⟨data, conn.state, effect.conn.state, List.mem_append_left _
              (ran_mem_records.mpr ⟨rfl, rfl, rfl, rfl⟩)⟩
        · rw [hcall] at hnot
          cases hnot

/-- The step in which the task of a `close` sets the state to `Closed`. -/
theorem closing_step {entry : Posted τ Task} (hnext : w.loop.nextEntry = some entry)
    (hclose : entry.callback = .close c) (hstep : machine.step w .call = .next w')
    {conn conn' : Connection} (hconn : w.conns c = some conn) (hopen : conn.state ≠ .closed)
    (hconn' : w'.conns c = some conn') (hclosed : conn'.state = .closed) :
    conn.backlog = 0 ∧ w'.loop.posted = w.loop.posted ∧
      ∃ effect loop, conn.Ran c w.epoll (w.registered conn.fd) .close effect ∧
        effect.sent = none ∧
        w'.history = records loop (some entry) c .close conn.state effect ++ w.history := by
  have hsame : w'.conns c ≠ w.conns c := by
    intro heq
    cases hconn.symm.trans (heq.symm.trans hconn')
    exact hopen hclosed
  have hmoves : Moves w .call w' := moves_of_step hstep
  cases hmoves with
  | loop => exact absurd rfl hsame
  | pointers => exact absurd rfl hsame
  | @destroyed _ other =>
      rw [conns_destroy] at hconn' hsame
      by_cases hc : c = other
      · rw [hc, Function.update_self] at hconn'
        cases hconn'
      · exact absurd (Function.update_of_ne hc _ _) hsame
  | @call move called loop other job old effect hempty hcall hnext' hmove hjob hold hanswers hran =>
      cases hnext.symm.trans hnext'
      rw [hclose] at hjob
      cases hjob
      cases hconn.symm.trans hold
      have heffect : effect.conn = conn' := by
        simpa [apply] using hconn'
      have hposted := posted_of_step hmove (isPost_of_isCall hcall)
      have hran' := hran
      cases hran with
      | closeWaits =>
          rw [← heffect] at hclosed
          cases hclosed
      | closes hbytes =>
          refine ⟨Connection.hasBytesToWrite_eq_false.mp hbytes, ?_, _, loop, hran', rfl, rfl⟩
          rw [posted_apply]
          exact (List.append_nil _).trans hposted

/-- **A graceful close does not truncate.** At the moment the task of a `close`
first sets the state to `Closed`, in a run that keeps the backlog of the
connection within 2^31 bytes, the kernel has accepted exactly as many bytes as
the executed `do_write` tasks had; and if that `close` was called on the loop
thread, these tasks include those of all the `write`s that were made there
before it and returned true, each with the payload of its `write`. -/
theorem graceful_close_complete (w w' : World τ) (c : ConnId) (h : machine.Reach (Bounded c) w)
    (entry : Posted τ Task) (hnext : w.loop.nextEntry = some entry)
    (hclose : entry.callback = .close c) (hstep : machine.step w .call = .next w')
    (conn conn' : Connection) (hconn : w.conns c = some conn) (hopen : conn.state ≠ .closed)
    (hconn' : w'.conns c = some conn') (hclosed : conn'.state = .closed) :
    w'.sentBytes c = w'.writtenBytes c ∧
      (entry.onLoop = true → ∀ newer older, w'.history = newer ++ .posted entry :: older →
        ∀ written, .posted written ∈ older → written.onLoop = true →
          written.callback.isWrite = true → written.callback.target = some c →
            ∃ data found left, .ran written (.doWrite data) found left ∈ w'.history ∧
              found ≠ .closed ∧ w'.Payload written data) := by
  obtain ⟨hbacklog, hposted, effect, loop, hran, hsent, hhistory'⟩ :=
    closing_step hnext hclose hstep hconn hopen hconn' hclosed
  constructor
  · have hbalance := reach_balance h hconn hopen
    have hsubject : ∀ event ∈ records loop (some entry) c .close conn.state effect,
        event.subject = some c := by
      refine fun _ => subject_of_records hran fun e he => ?_
      cases he
      rw [hclose]
      rfl
    obtain ⟨hsum, hwritten⟩ :=
      sum_records loop (some entry) c .close conn.state effect (by simp)
    rw [hbacklog] at hbalance
    rw [sentBytes, writtenBytes, trail_of_self hhistory' hsubject, List.map_append,
      List.map_append, List.sum_append, List.sum_append, hsum, hwritten, hsent]
    simpa [sentBytes, writtenBytes, Job.payload] using hbalance
  · intro hon newer older hhistory written hwritten hwrittenOn hwrite htarget
    have hreach' : machine.Reach Machine.anyStep w' := .step h.any trivial hstep
    have hlogged : w.loop.posted =
        (older.filterMap Event.posting).reverse ++ entry ::
          (newer.filterMap Event.posting).reverse := by
      have hlogged' := reach_logged hreach'
      simp only [Logged, hhistory, hposted, List.filterMap_append, List.filterMap_cons,
        Event.posting] at hlogged'
      rw [← List.reverse_reverse w.loop.posted, ← hlogged']
      simp
    have hbefore : written ∈ (older.filterMap Event.posting).reverse :=
      List.mem_reverse.mpr (List.mem_filterMap.mpr ⟨_, hwritten, rfl⟩)
    have hexecuted := (reach_loop_queues h).executed_of_before hnext hon hlogged hbefore hwrittenOn
    obtain ⟨data, found, left, hran⟩ := reach_ran h written hexecuted hwrite
    have hran' : .ran written (.doWrite data) found left ∈ w'.history := by
      rw [hhistory']
      exact List.mem_append_right _ hran
    exact ⟨data, found, left, hran', reach_found h hconn hopen (mem_trail.mpr ⟨hran, htarget⟩),
      reach_payload hreach' hran'⟩

/-- A server that writes and then closes: the task of the `close` waits for the
writing callback, which calls `close` again. -/
theorem graceful_close_complete_of_datetime :
    ∃ w w' : World ℕ, machine.Reach (Bounded 0) w ∧ machine.step w .call = .next w' ∧
      w'.sentBytes 0 = w'.writtenBytes 0 ∧
      ∃ data found left,
        .ran ⟨0, 0, true, .writeData 0 [1, 2]⟩ (.doWrite data) found left ∈ w'.history ∧
          found ≠ .closed ∧ w'.Payload ⟨0, 0, true, .writeData 0 [1, 2]⟩ data := by
  have hnew : machine.Reach (Bounded 0) (new 0 : World ℕ) := .init ⟨0, rfl⟩
  obtain ⟨w, hreach, hnext, ⟨conn, hconn, hopen⟩, hleads⟩ := hnew.exists_of_leads
    [.loop (.enterRun 0), .loop .testRunning, .epollWait [.other],
      .user 0 (.onNewConnection 5 ⟨false, false, true, false⟩),
      .user 0 (.writeData 0 [1, 2]), .user 0 (.close 0), .user 0 (.drop 0), .returns,
      .loop .swapPending, .loop .endBatch, .call, .callReturns, .call, .callReturns, .exec 0,
      .endIteration, .loop .testRunning, .epollWait [.source 5 4], .exec 0, .exec 2,
      .loop .swapPending, .loop .endBatch]
    (P := fun w => w.loop.nextEntry = some ⟨0, 2, true, .close 0⟩ ∧
      (∃ conn ∈ w.conns 0, conn.state ≠ .closed) ∧
      (w.step .call).Leads fun w' => (∃ conn ∈ w'.conns 0, conn.state = .closed) ∧
        w'.history = [.called 0 .closed,
          .ran ⟨0, 2, true, .close 0⟩ .close .disconnecting .closed] ++
          .posted ⟨0, 2, true, .close 0⟩ :: [.sent 0 2,
            .ran ⟨0, 1, true, .close 0⟩ .close .receiving .disconnecting,
            .ran ⟨0, 0, true, .writeData 0 [1, 2]⟩ (.doWrite [1, 2]) .receiving .receiving,
            .posted ⟨0, 1, true, .close 0⟩, .posted ⟨0, 0, true, .writeData 0 [1, 2]⟩])
    (by decide)
  obtain ⟨w', hstep, ⟨conn', hconn', hclosed⟩, hhistory⟩ := Outcome.leads_iff.mp hleads
  obtain ⟨hsent, hwritten⟩ := graceful_close_complete w w' 0 hreach _ hnext rfl hstep conn
    conn' hconn hopen hconn' hclosed
  refine ⟨w, w', hreach, hstep, hsent, ?_⟩
  exact hwritten rfl _ _ hhistory _ (by simp) rfl rfl rfl

/-- A `close` called on another thread can overtake a `write`: the pending
callbacks are run before the task queue, so the connection is closed before the
bytes that the loop thread has written are in its buffer. -/
theorem not_graceful_close_complete :
    ¬ ∀ (w w' : World ℕ) (c : ConnId), machine.Reach (Bounded c) w →
        (∀ ran job found left, .ran ran job found left ∈ w.history →
          ran.callback ≠ .forceClose c) →
          ∀ entry conn conn', w.loop.nextEntry = some entry → entry.callback = .close c →
            machine.step w .call = .next w' → w.conns c = some conn → conn.state ≠ .closed →
            w'.conns c = some conn' → conn'.state = .closed →
              w'.sentBytes c = w'.writtenBytes c ∧
                ∀ newer older, w'.history = newer ++ .posted entry :: older →
                  ∀ written, .posted written ∈ older → written.onLoop = true →
                    written.callback.isWrite = true → written.callback.target = some c →
                      ∃ data found left,
                        .ran written (.doWrite data) found left ∈ w'.history := by
  intro hclaim
  have hnew : machine.Reach (Bounded 0) (new 0 : World ℕ) := .init ⟨0, rfl⟩
  obtain ⟨w, hreach, hnext, ⟨conn, hconn, hopen⟩, hbefore, hleads⟩ := hnew.exists_of_leads
    [.loop (.enterRun 0), .loop .testRunning, .epollWait [.other],
      .user 0 (.onNewConnection 5 ⟨false, false, false, false⟩),
      .user 0 (.writeData 0 [1, 2]), .user 1 (.close 0), .returns, .loop .swapPending]
    (P := fun w => w.loop.nextEntry = some ⟨1, 1, false, .close 0⟩ ∧
      (∃ conn ∈ w.conns 0, conn.state ≠ .closed) ∧
      w.history = [.posted ⟨1, 1, false, .close 0⟩,
        .posted ⟨0, 0, true, .writeData 0 [1, 2]⟩] ∧
      (w.step .call).Leads fun w' => (∃ conn ∈ w'.conns 0, conn.state = .closed) ∧
        w'.history = [.ran ⟨1, 1, false, .close 0⟩ .close .receiving .closed] ++
          .posted ⟨1, 1, false, .close 0⟩ :: [.posted ⟨0, 0, true, .writeData 0 [1, 2]⟩])
    (by decide)
  obtain ⟨w', hstep, ⟨conn', hconn', hclosed⟩, hhistory⟩ := Outcome.leads_iff.mp hleads
  obtain ⟨-, hwritten⟩ := hclaim w w' 0 hreach (by simp [hbefore]) _ conn conn' hnext rfl hstep
    hconn hopen hconn' hclosed
  obtain ⟨data, found, left, hran⟩ :=
    hwritten _ _ hhistory ⟨0, 0, true, .writeData 0 [1, 2]⟩ List.mem_cons_self rfl rfl rfl
  simp [hhistory] at hran

end World

end Mutiplex
