/-
# What a program's writes come to

`Kept` is the invariant of one connection: what its callbacks were told to write
is what the posted writes carry and what is still to be called.  In an `Orderly`
program no write is posted after a `close`, whether the program closes or the
library does when the input has ended, and the tasks of the connection run in the
order they were posted.
-/

import Mutiplex.Service.Basic

namespace Mutiplex

open CMemory Transition

variable {τ : Type} [DecidableEq τ]

namespace Call

/-- A call on the connection that writes bytes, sets its callbacks or closes it. -/
inductive Plain (c : ConnId) : Call → Prop
  | writeData (data : List UInt8) : Plain c (.writeData c data)
  | setCallbacks (callbacks : Callbacks) : Plain c (.setCallbacks c callbacks)
  | close : Plain c (.close c)

/-- The call writes. -/
def isWrite : Call → Bool
  | .writeBuffer _ _ => true
  | .writeData _ _ => true
  | _ => false

/-- Plain calls on the connection, none of which writes after one that closes. -/
structure InOrder (c : ConnId) (calls : List Call) : Prop where
  plain : ∀ call ∈ calls, call.Plain c
  order : calls.Pairwise fun earlier later => earlier = .close c → later.isWrite = false

variable {c other : ConnId} {call : Call} {calls : List Call}

theorem inOrder_nil : InOrder c [] := ⟨by simp, .nil⟩

theorem InOrder.tail (h : InOrder c (call :: calls)) : InOrder c calls :=
  ⟨fun call hcall => h.plain call (List.mem_cons_of_mem _ hcall), (List.pairwise_cons.mp h.order).2⟩

theorem Plain.eq (h : call.Plain c) (h' : call.Plain other) : c = other := by
  cases h <;> cases h' <;> rfl

theorem bytesTo_of_ne (h : InOrder other calls) (hne : c ≠ other) :
    calls.flatMap (·.bytesTo c) = [] := by
  refine List.flatMap_eq_nil_iff.mpr fun call hcall => ?_
  cases h.plain call hcall with
  | writeData data => rw [bytesTo, if_neg (Ne.symm hne)]
  | _ => rfl

theorem bytesTo_of_forall (h : ∀ data, .writeData c data ∉ calls) :
    calls.flatMap (·.bytesTo c) = [] := by
  refine List.flatMap_eq_nil_iff.mpr fun call hcall => ?_
  cases call with
  | writeData other data =>
      rw [bytesTo, if_neg]
      rintro rfl
      exact h data hcall
  | _ => rfl

end Call

namespace Program

/-- No callback calls `close`. -/
def NeverCloses (program : Program) : Prop :=
  ∀ c, (∀ timestamp, .close c ∉ program.onEstablished c timestamp) ∧
    ∀ data, .close c ∉ program.onRead c data

/-- The callbacks use the connection they are told of, and no write follows a
`close`: either no callback closes, or `read_callback_` does not write. -/
structure Orderly (program : Program) : Prop where
  established : ∀ c timestamp, Call.InOrder c (program.onEstablished c timestamp)
  read : ∀ c data, Call.InOrder c (program.onRead c data)
  quiet : program.NeverCloses ∨ ∀ c data, ∀ call ∈ program.onRead c data, call.isWrite = false

end Program

namespace Service

variable {program : Program} {e e' : Service τ} {action : Action τ} {c : ConnId}

/-- The tasks posted on a connection, and the bytes they write. -/
def posts (e : Service τ) (c : ConnId) : List (Posted τ Task) := World.postsOf (e.world.trail c)

def posted (e : Service τ) (c : ConnId) : List UInt8 := (e.posts c).flatMap (·.callback.bytes)

/-- What the callback that runs has still to write to a connection. -/
def dueFor (e : Service τ) (c : ConnId) : List UInt8 := e.code.flatMap (·.bytesTo c)

/-- The calls to come are those of one callback. -/
def Sequenced (program : Program) (e : Service τ) : Prop :=
  ∃ c, Call.InOrder c e.code ∧ (program.NeverCloses → .close c ∉ e.code)

/-- What is kept of a connection. -/
structure Kept (program : Program) (c : ConnId) (e : Service τ) : Prop where
  onLoop : ∀ entry ∈ e.posts c, entry.onLoop = true
  writes : ∀ entry ∈ e.posts c, entry.callback.isWrite = true →
    ∃ data, entry.callback = .writeData c data
  order : (e.posts c).Pairwise fun earlier later =>
    earlier.callback = .close c → later.callback.isWrite = false
  deaf : program.NeverCloses →
    ∀ entry ∈ e.posts c, entry.callback = .close c → World.Deaf c e.world
  sent : e.posted c <+: e.asked c
  all : ∀ conn, e.world.conns c = some conn → Unforced (e.world.trail c) →
    e.posted c ++ e.dueFor c = e.asked c
  due : ∀ data, .writeData c data ∈ e.code → ∀ entry ∈ e.posts c, entry.callback ≠ .close c
  closed : ∀ conn, e.world.conns c = some conn → Unforced (e.world.trail c) →
    conn.state = .closed → ∃ entry ∈ World.runsOf (e.world.trail c), entry.callback = .close c
  disconnecting : ∀ conn, e.world.conns c = some conn → conn.state = .disconnecting →
    ∃ entry ∈ e.posts c, entry.callback = .close c
  hungUp : ∀ conn, e.world.conns c = some conn →
    (∃ entry ∈ World.runsOf (e.world.trail c), entry.callback = .close c) →
      conn.state = .disconnecting ∨ conn.state = .closed
  complete : Unforced (e.world.trail c) →
    (World.chunksOf (e.world.trail c)).map (·.1) =
      (World.runsOf (e.world.trail c)).filter (·.callback.isWrite)
  fresh : e.world.nextId ≤ c → e.asked c = [] ∧ ∀ call ∈ e.code, ¬ call.Plain c

omit [DecidableEq τ] in
/-- The call of a user callback adds nothing to the tasks of a trail. -/
theorem of_called (called : Option UserCallback) (trail : List (Event τ)) :
    World.postsOf ((called.map (Event.called c)).toList ++ trail) = World.postsOf trail ∧
      World.runsOf ((called.map (Event.called c)).toList ++ trail) = World.runsOf trail ∧
      World.chunksOf ((called.map (Event.called c)).toList ++ trail) = World.chunksOf trail := by
  rw [World.postsOf_append, World.runsOf_append, World.chunksOf_append]
  cases called <;> simp [World.postsOf, World.runsOf, World.chunksOf, Event.posting,
    Event.running, Event.chunk]

omit [DecidableEq τ] in
theorem dueFor_of_nil (h : e.code = []) : e.dueFor c = [] := by
  rw [dueFor, h, List.flatMap_nil]

/-! ## Steps without a job -/

/-- The step runs no code of a connection, and the connection was there before. -/
theorem Kept.of_no_job (h : Kept program c e) {worldAction : World.Action τ}
    (hstep : e.world.step worldAction = .next e'.world)
    (hnone : e.world.job worldAction = none)
    (hquiet : ∀ thread call, worldAction = .user thread call → e'.world.loop = e.world.loop)
    (hnot : ∀ thread fd callbacks, worldAction = .user thread (.onNewConnection fd callbacks) →
      c ≠ e.world.nextId)
    (hasked : e'.asked c = e.asked c) (hdueFor : e'.dueFor c = e.dueFor c)
    (hcode : ∀ call ∈ e'.code, call.Plain c → call ∈ e.code) : Kept program c e' := by
  obtain ⟨called, htrail, hstates⟩ := World.step_of_no_job hstep hnone hquiet c
  obtain ⟨hposts, hruns, hchunks⟩ := of_called (c := c) called (e.world.trail c)
  rw [← htrail] at hposts hruns hchunks
  have hmoves := World.moves_of_step hstep
  have hunforced : Unforced (e'.world.trail c) → Unforced (e.world.trail c) :=
    fun hnot => Unforced.of_append (htrail ▸ hnot)
  have hsame : e'.posts c = e.posts c := hposts
  have hposted : e'.posted c = e.posted c := by rw [posted, posted, hsame]
  have hold : ∀ conn', e'.world.conns c = some conn' →
      ∃ conn, e.world.conns c = some conn ∧ conn'.state = conn.state := by
    intro conn' hconn'
    rcases hstates conn' hconn' with hold | ⟨hborn, thread, fd, callbacks, huser⟩
    · exact hold
    · exact absurd hborn (hnot thread fd callbacks huser)
  refine {
    onLoop := hsame ▸ h.onLoop
    writes := hsame ▸ h.writes
    order := hsame ▸ h.order
    deaf := fun hnever entry hentry hclose =>
      (h.deaf hnever entry (hsame ▸ hentry) hclose).moves hmoves
    sent := by rw [hposted, hasked]; exact h.sent
    all := fun conn hconn hnot => ?_
    due := fun data hdata => hsame ▸ h.due data (hcode _ hdata (.writeData data))
    closed := fun conn hconn hnot hclosed => ?_
    disconnecting := fun conn hconn hstate => ?_
    hungUp := fun conn hconn hran => ?_
    complete := fun hnot => by rw [hchunks, hruns]; exact h.complete (hunforced hnot)
    fresh := fun hle => ?_ }
  · obtain ⟨old, hconn', -⟩ := hold conn hconn
    rw [hposted, hdueFor, hasked]
    exact h.all old hconn' (hunforced hnot)
  · obtain ⟨old, hconn', hstate⟩ := hold conn hconn
    rw [hruns]
    exact h.closed old hconn' (hunforced hnot) (hstate ▸ hclosed)
  · obtain ⟨old, hconn', hstate'⟩ := hold conn hconn
    rw [hsame]
    exact h.disconnecting old hconn' (hstate' ▸ hstate)
  · obtain ⟨old, hconn', hstate⟩ := hold conn hconn
    rw [hstate]
    exact h.hungUp old hconn' (hruns ▸ hran)
  · obtain ⟨hnil, hfresh⟩ := h.fresh (Nat.le_trans hmoves.nextId_le hle)
    exact ⟨hasked.trans hnil, fun call hcall hplain => hfresh call (hcode call hcall hplain) hplain⟩

/-- The connection is made. -/
theorem kept_of_born (hreach : World.machine.Reach Machine.anyStep e.world) {fd : ℤ}
    {callbacks : Callbacks}
    (hworld : e'.world = e.world.onNewConnection fd callbacks)
    (hasked : e'.asked e.world.nextId = e'.dueFor e.world.nextId) :
    Kept program e.world.nextId e' := by
  have hempty : e.world.trail e.world.nextId = [] := by
    by_contra hne
    exact Nat.lt_irrefl _ ((World.reach_numbered hreach).recorded e.world.nextId hne)
  obtain ⟨called, htrail⟩ : ∃ called : Option UserCallback,
      e'.world.trail e.world.nextId = (called.map (Event.called e.world.nextId)).toList := by
    refine ⟨(Connection.registerEvent fd callbacks e.world.nextId e.world.epoll).1.userCallback
      .established, ?_⟩
    rw [hworld, ← List.append_nil (Option.toList _), ← hempty]
    refine World.trail_of_self rfl ?_
    intro event hevent
    obtain ⟨callback, -, rfl⟩ := Option.map_eq_some_iff.mp (Option.mem_toList.mp hevent)
    rfl
  obtain ⟨hposts, hruns, hchunks⟩ := of_called (c := e.world.nextId) called
    ([] : List (Event τ))
  rw [List.append_nil, ← htrail] at hposts hruns hchunks
  have hnone : e'.posts e.world.nextId = [] := hposts
  have hstate : ∀ conn, e'.world.conns e.world.nextId = some conn → conn.state = .receiving := by
    intro conn hconn
    rw [hworld] at hconn
    cases (Function.update_self ..).symm.trans hconn
    rfl
  refine {
    onLoop := by simp [hnone]
    writes := by simp [hnone]
    order := by simp [hnone]
    deaf := by simp [hnone]
    sent := by simp [posted, hnone]
    all := fun conn hconn hnot => by simp [posted, hnone, hasked]
    due := by simp [hnone]
    closed := fun conn hconn hnot hclosed => by cases (hstate conn hconn).symm.trans hclosed
    disconnecting := fun conn hconn hstate' => by cases (hstate conn hconn).symm.trans hstate'
    hungUp := fun conn hconn hran => ?_
    complete := fun hnot => by rw [hchunks, hruns]; rfl
    fresh := fun hle => ?_ }
  · obtain ⟨entry, hentry, -⟩ := hran
    rw [hruns] at hentry
    exact absurd hentry List.not_mem_nil
  · rw [hworld] at hle
    exact absurd hle (Nat.not_succ_le_self _)

/-! ## Jobs -/

/-- A step that leaves the connection as it was. -/
theorem Kept.of_same (h : Kept program c e) {worldAction : World.Action τ}
    (hmoves : World.Moves e.world worldAction e'.world)
    (htrail : e'.world.trail c = e.world.trail c)
    (hconn : e'.world.conns c = e.world.conns c) (hasked : e'.asked c = e.asked c)
    (hdueFor : ∀ conn, e.world.conns c = some conn → Unforced (e.world.trail c) →
      e'.dueFor c = e.dueFor c)
    (hcode : ∀ call ∈ e'.code, call.Plain c → call ∈ e.code) : Kept program c e' := by
  have hsame : e'.posts c = e.posts c := congrArg World.postsOf htrail
  have hposted : e'.posted c = e.posted c := by rw [posted, posted, hsame]
  refine {
    onLoop := hsame ▸ h.onLoop
    writes := hsame ▸ h.writes
    order := hsame ▸ h.order
    deaf := fun hnever entry hentry hclose =>
      (h.deaf hnever entry (hsame ▸ hentry) hclose).moves hmoves
    sent := by rw [hposted, hasked]; exact h.sent
    all := fun conn hconn' hnot => ?_
    due := fun data hdata => hsame ▸ h.due data (hcode _ hdata (.writeData data))
    closed := fun conn hconn' hnot => htrail ▸ h.closed conn (hconn ▸ hconn') (htrail ▸ hnot)
    disconnecting := fun conn hconn' => hsame ▸ h.disconnecting conn (hconn ▸ hconn')
    hungUp := fun conn hconn' => htrail ▸ h.hungUp conn (hconn ▸ hconn')
    complete := htrail ▸ h.complete
    fresh := fun hle => ?_ }
  · rw [hposted, hasked, hdueFor conn (hconn ▸ hconn') (htrail ▸ hnot)]
    exact h.all conn (hconn ▸ hconn') (htrail ▸ hnot)
  · obtain ⟨hnil, hfresh⟩ := h.fresh (Nat.le_trans hmoves.nextId_le hle)
    exact ⟨hasked.trans hnil, fun call hcall hplain => hfresh call (hcode call hcall hplain) hplain⟩

/-- A job of another connection, and the callback it calls. -/
theorem Kept.of_other_job (h : Kept program c e) {worldAction : World.Action τ} {other : ConnId}
    {job : Job} (hstep : e.world.step worldAction = .next e'.world)
    (hjob : e.world.job worldAction = some (other, job)) (hne : c ≠ other)
    (hcode : e.code = []) (horder : Call.InOrder other e'.code)
    (hasked : e'.asked c = e.asked c) : Kept program c e' := by
  obtain ⟨entry, loop, conn, effect, -, -, -, -, hconns, -, hothers⟩ := World.step_of_job hstep hjob
  refine h.of_same (World.moves_of_step hstep) (hothers c hne)
    (by rw [hconns, Function.update_of_ne hne]) hasked (fun _ _ _ => ?_)
    fun call hcall hplain => absurd (hplain.eq (horder.plain call hcall)) hne
  rw [dueFor_of_nil hcode, dueFor, Call.bytesTo_of_ne horder hne]

end Service

namespace Connection

variable {conn : Connection} {c : ConnId} {table : Epoll ConnId} {registered : Bool} {job : Job}
  {effect : Effect}

/-- Only the tasks of `close` and `force_close` change the state. -/
theorem Ran.state_of_other (h : conn.Ran c table registered job effect) (hclose : job ≠ .close)
    (hforce : job ≠ .forceClose) : effect.conn.state = conn.state := by
  cases h with
  | closeWaits => exact absurd rfl hclose
  | closes => exact absurd rfl hclose
  | forceCloses => exact absurd rfl hforce
  | _ => simp [idle, errorCallback, withSource, afterWrite]

/-- A connection asks for a `close` when its input ends, or when it has sent the
last bytes of an earlier one. -/
theorem Ran.post_close (h : conn.Ran c table registered job effect)
    (hpost : effect.post = some (.close c)) :
    job = .read 0 ∨ conn.state = .disconnecting := by
  cases h with
  | readEnds => exact Or.inl rfl
  | writesLast hb hne hn hstate => exact Or.inr hstate
  | _ => simp [idle, errorCallback, withSource] at hpost

theorem Sound.contents_eq_nil (h : conn.Sound) (hempty : conn.backlog = 0) :
    conn.contents = [] := by
  cases hb : conn.bufferOut with
  | none => simp [contents, hb]
  | some b =>
      have hzero : b.bufferLen = 0 := by simpa [backlog, hb] using hempty
      have hlength : b.contents.length = 0 := (h b hb).length_contents.trans (by rw [hzero]; rfl)
      simpa [contents, hb] using hlength

theorem Ran.hangs_up (h : conn.Ran c table registered .close effect) :
    effect.conn.state = .disconnecting ∨ effect.conn.state = .closed := by
  cases h with
  | closeWaits => exact Or.inl rfl
  | closes => exact Or.inr rfl

end Connection

namespace Service

variable {program : Program} {e e' : Service τ} {action : Action τ} {c : ConnId}

/-- The tasks of a connection run in the order they were posted. -/
theorem Kept.posts_eq (h : Kept program c e)
    (hreach : World.machine.Reach Machine.anyStep e.world) :
    e.posts c = World.runsOf (e.world.trail c) ++
      e.world.loop.localTasks.filter (·.callback.target = some c) := by
  have hqueues := World.reach_loop_queues hreach
  have hposts : e.posts c = e.world.loop.posted.filter (·.callback.target = some c) :=
    World.posts_trail hreach c
  have honLoop : ∀ l : List (Posted τ Task), (∀ entry ∈ l, entry ∈ e.world.loop.posted) →
      (l.filter (·.onLoop)).filter (·.callback.target = some c) =
        l.filter (·.callback.target = some c) := by
    intro l hl
    rw [List.filter_filter]
    refine List.filter_congr fun entry hentry => ?_
    by_cases htarget : entry.callback.target = some c
    · have hmem : entry ∈ e.posts c := by
        rw [hposts]
        exact List.mem_filter.mpr ⟨hl entry hentry, by simpa using htarget⟩
      simp [htarget, h.onLoop entry hmem]
    · simp [htarget]
  rw [hposts, World.runs_trail hreach, ← honLoop _ fun _ => id, hqueues.localOrder,
    List.filter_append, honLoop _ fun _ => hqueues.mem_posted_of_executed]

/-- No write waits behind a `close` that ran. -/
theorem Kept.not_isWrite (h : Kept program c e)
    (hreach : World.machine.Reach Machine.anyStep e.world)
    {task : Posted τ Task} (htask : task ∈ e.world.loop.localTasks)
    (htarget : task.callback.target = some c)
    (hran : ∃ entry ∈ World.runsOf (e.world.trail c), entry.callback = .close c) :
    task.callback.isWrite = false := by
  obtain ⟨entry, hentry, hclose⟩ := hran
  have horder := h.order
  rw [h.posts_eq hreach, List.pairwise_append] at horder
  exact horder.2.2 entry hentry task (List.mem_filter.mpr ⟨htask, by simpa using htarget⟩) hclose

/-- The next task of the connection waits in the task queue. -/
theorem Kept.next_mem (h : Kept program c e) (hreach : World.machine.Reach Machine.anyStep e.world)
    {task : Posted τ Task} (hnext : e.world.loop.nextEntry = some task)
    (htarget : task.callback.target = some c) :
    task ∈ e.world.loop.localTasks ∧ task ∈ e.posts c := by
  have hqueues := World.reach_loop_queues hreach
  have hposted : task ∈ e.world.loop.posted := by
    have hwaiting := EventLoop.mem_unexecuted_of_nextEntry hnext
    rw [← Multiset.mem_coe, hqueues.posted_eq]
    simp only [EventLoop.unexecuted, EventLoop.foreignTasks, List.mem_append] at hwaiting
    simp only [Multiset.mem_add, Multiset.mem_coe]
    tauto
  have hposts : task ∈ e.posts c := by
    rw [posts, World.posts_trail hreach]
    exact List.mem_filter.mpr ⟨hposted, by simpa using htarget⟩
  obtain ⟨rest, hlocal⟩ := hqueues.localTasks_of_nextEntry hnext (h.onLoop task hposts)
  exact ⟨hlocal ▸ List.mem_cons_self, hposts⟩

/-- The task that a job of the connection is the body of. -/
theorem Kept.task_of_job (h : Kept program c e)
    (hreach : World.machine.Reach Machine.anyStep e.world)
    {entry : Option (Posted τ Task)} {job : Job} (hbody : e.world.BodyOf entry c job)
    (htask : job.isTask = true) :
    ∃ task, entry = some task ∧ task ∈ e.world.loop.localTasks ∧ task ∈ e.posts c ∧
      e.world.taskJob task.callback = some (c, job) := by
  rcases hbody with ⟨-, hnot⟩ | ⟨task, hentry, hnext, hjob⟩
  · cases htask.symm.trans hnot
  · obtain ⟨hlocal, hposts⟩ := h.next_mem hreach hnext (World.target_of_taskJob hjob)
    exact ⟨task, hentry, hlocal, hposts, hjob⟩

/-- A connection that reads is not deaf. -/
theorem not_deaf_of_read {worldAction : World.Action τ} {n : ℤ}
    (hstep : e.world.step worldAction = .next e'.world)
    (hjob : e.world.job worldAction = some (c, .read n)) : ¬ World.Deaf c e.world := by
  intro hdeaf
  obtain ⟨readyOps, rest, more, conn, effect, hstack, hwants, -⟩ := World.ran_of_read hstep hjob
  refine hdeaf.frames ?_
  rw [hstack, List.filterMap_cons_some (by simp [Frame.input, hwants] :
    (Frame.events c readyOps).input = some c)]
  exact List.mem_cons_self

/-- What a job of the connection posts: no writes, and all on the loop thread. -/
theorem entry_of_ran {conn : Connection} {table : Epoll ConnId} {registered : Bool} {job : Job}
    {effect : Effect} (hran : conn.Ran c table registered job effect) {loop : EventLoop τ Task}
    {entry : Posted τ Task}
    (hentry : entry ∈ (effect.post.map (loop.entry loop.pthreadId)).toList) :
    entry.onLoop = true ∧ entry.callback.isWrite = false ∧ entry.callback.bytes = [] ∧
      effect.post = some entry.callback := by
  obtain ⟨task, hpost, rfl⟩ := Option.map_eq_some_iff.mp (Option.mem_toList.mp hentry)
  refine ⟨by simp [EventLoop.entry], ?_, ?_, hpost⟩ <;>
    rcases hran.post_eq hpost with rfl | rfl <;> rfl

section Job

variable {entry : Option (Posted τ Task)} {conn : Connection} {registered : Bool} {job : Job}
  {effect : Effect}

/-- A task of `close` that runs was posted as one. -/
theorem Kept.closing (h : Kept program c e) (hreach : World.machine.Reach Machine.anyStep e.world)
    (hbody : e.world.BodyOf entry c .close) :
    ∃ task, entry = some task ∧ task ∈ e.posts c ∧ task.callback = .close c := by
  obtain ⟨task, hentry, -, hmem, htask⟩ := h.task_of_job hreach hbody rfl
  refine ⟨task, hentry, hmem, ?_⟩
  cases hcallback : task.callback <;> rw [hcallback] at htask <;> cases htask
  rfl

omit [DecidableEq τ] in
/-- The body of a task of `close` is that job. -/
theorem eq_close_of_bodyOf {task : Posted τ Task} (hbody : e.world.BodyOf entry c job)
    (hentry : task ∈ entry.toList) (hclose : task.callback = .close c) : job = .close := by
  rcases hbody with ⟨rfl, -⟩ | ⟨other, rfl, -, htask⟩
  · cases hentry
  · rw [Option.toList_some, List.mem_singleton] at hentry
    rw [← hentry, hclose] at htask
    cases htask
    rfl

/-- A connection that is closed after a job, and was never closed by force, has
run a task of `close`. -/
theorem Kept.closed_of_job (h : Kept program c e)
    (hreach : World.machine.Reach Machine.anyStep e.world) (hbody : e.world.BodyOf entry c job)
    (hconn : e.world.conns c = some conn)
    (hran : conn.Ran c e.world.epoll registered job effect)
    (hnot : Unforced (e.world.trail c)) (hforced : ∀ task ∈ entry, job ≠ .forceClose)
    (hstate : effect.conn.state = .closed) :
    ∃ task ∈ World.runsOf (e.world.trail c) ++ entry.toList, task.callback = .close c := by
  by_cases hclose : job = .close
  · subst hclose
    obtain ⟨task, rfl, -, hcallback⟩ := h.closing hreach hbody
    exact ⟨task, List.mem_append_right _ (List.mem_singleton_self task), hcallback⟩
  · have hforce : job ≠ .forceClose := by
      rintro rfl
      obtain ⟨task, rfl, -⟩ := h.task_of_job hreach hbody rfl
      exact hforced task rfl rfl
    rw [hran.state_of_other hclose hforce] at hstate
    obtain ⟨earlier, hearlier, hcallback⟩ := h.closed conn hconn hnot hstate
    exact ⟨earlier, List.mem_append_left _ hearlier, hcallback⟩

/-- A connection that a job leaves disconnecting has been asked for a `close`. -/
theorem Kept.disconnecting_of_job (h : Kept program c e)
    (hreach : World.machine.Reach Machine.anyStep e.world) (hbody : e.world.BodyOf entry c job)
    (hconn : e.world.conns c = some conn)
    (hran : conn.Ran c e.world.epoll registered job effect)
    (hstate : effect.conn.state = .disconnecting) :
    ∃ task ∈ e.posts c, task.callback = .close c := by
  by_cases hclose : job = .close
  · subst hclose
    obtain ⟨task, -, hmem, hcallback⟩ := h.closing hreach hbody
    exact ⟨task, hmem, hcallback⟩
  · have hforce : job ≠ .forceClose := by
      rintro rfl
      cases hran.closed_of_forceClose.symm.trans hstate
    rw [hran.state_of_other hclose hforce] at hstate
    exact h.disconnecting conn hconn hstate

omit [DecidableEq τ] in
/-- A connection that has run a task of `close` has hung up. -/
theorem Kept.hungUp_of_job (h : Kept program c e) (hbody : e.world.BodyOf entry c job)
    (hconn : e.world.conns c = some conn)
    (hran : conn.Ran c e.world.epoll registered job effect)
    (hclose : ∃ task ∈ World.runsOf (e.world.trail c) ++ entry.toList, task.callback = .close c) :
    effect.conn.state = .disconnecting ∨ effect.conn.state = .closed := by
  by_cases hjob : job = .close
  · subst hjob
    exact hran.hangs_up
  · by_cases hforce : job = .forceClose
    · subst hforce
      exact Or.inr hran.closed_of_forceClose
    · rw [hran.state_of_other hjob hforce]
      obtain ⟨task, htask, hcallback⟩ := hclose
      rcases List.mem_append.mp htask with hold | hentry
      · exact h.hungUp conn hconn ⟨task, hold, hcallback⟩
      · exact absurd (eq_close_of_bodyOf hbody hentry hcallback) hjob

/-- A task of the connection that runs when it is closed is no write. -/
theorem Kept.filter_of_closed (h : Kept program c e)
    (hreach : World.machine.Reach Machine.anyStep e.world) (hbody : e.world.BodyOf entry c job)
    (hconn : e.world.conns c = some conn) (hnot : Unforced (e.world.trail c))
    (hstate : conn.state = .closed) : entry.toList.filter (·.callback.isWrite) = [] := by
  rcases hbody with ⟨rfl, -⟩ | ⟨task, rfl, hnext, hjob⟩
  · rfl
  · have htarget := World.target_of_taskJob hjob
    have hnotWrite := h.not_isWrite hreach (h.next_mem hreach hnext htarget).1 htarget
      (h.closed conn hconn hnot hstate)
    simp [hnotWrite]

end Job

/-- A `close` that a job asks for finds the connection deaf. -/
theorem Kept.deaf_of_post (h : Kept program c e)
    (hreach : World.machine.Reach Machine.anyStep e.world) {worldAction : World.Action τ}
    {job : Job} {conn : Connection} {registered : Bool} {effect : Effect}
    (hstep : e.world.step worldAction = .next e'.world)
    (hjob : e.world.job worldAction = some (c, job)) (hconn : e.world.conns c = some conn)
    (hran : conn.Ran c e.world.epoll registered job effect)
    (hpost : effect.post = some (.close c)) (hnever : program.NeverCloses) :
    World.Deaf c e'.world := by
  rcases hran.post_close hpost with rfl | hstate
  · exact World.deaf_of_end hreach hstep hjob
  · obtain ⟨earlier, hearlier, hclose⟩ := h.disconnecting conn hconn hstate
    exact (h.deaf hnever earlier hearlier hclose).moves (World.moves_of_step hstep)

/-- A connection that has read bytes has not been asked for a `close`, and is not
asked for one. -/
theorem Kept.not_close_of_read (h : Kept program c e) {worldAction : World.Action τ} {n : ℤ}
    {conn : Connection} {registered : Bool} {effect : Effect}
    (hstep : e.world.step worldAction = .next e'.world)
    (hjob : e.world.job worldAction = some (c, .read n)) (hpos : 0 < n)
    (hconn : e.world.conns c = some conn)
    (hran : conn.Ran c e.world.epoll registered (.read n) effect)
    (hnever : program.NeverCloses) :
    (∀ entry ∈ e.posts c, entry.callback ≠ .close c) ∧ effect.post ≠ some (.close c) := by
  have hold : ∀ entry ∈ e.posts c, entry.callback ≠ .close c := fun entry hentry hclose =>
    not_deaf_of_read hstep hjob (h.deaf hnever entry hentry hclose)
  refine ⟨hold, fun hpost => ?_⟩
  rcases hran.post_close hpost with hend | hstate
  · cases hend
    exact absurd hpos (Int.lt_irrefl 0)
  · obtain ⟨earlier, hearlier, hclose⟩ := h.disconnecting conn hconn hstate
    exact hold earlier hearlier hclose

/-- A job of the connection, and the callback it calls. -/
theorem Kept.of_job (h : Kept program c e) (hreach : World.machine.Reach Machine.anyStep e.world)
    {worldAction : World.Action τ} {job : Job} (hstep : e.world.step worldAction = .next e'.world)
    (hjob : e.world.job worldAction = some (c, job)) (hcode : e.code = [])
    (hasked : e'.asked c = e.asked c ++ e'.dueFor c)
    (hread : ∀ data, .writeData c data ∈ e'.code →
      program.NeverCloses ∧ ∃ n, 0 < n ∧ job = .read n) : Kept program c e' := by
  obtain ⟨entry, loop, conn, effect, hbody, hconn, -, hran, hconns, htrail, -⟩ :=
    World.step_of_job hstep hjob
  have hmoves := World.moves_of_step hstep
  have hnamed : c < e.world.nextId := (World.reach_numbered hreach).live c conn hconn
  have hsame : e'.world.conns c = some effect.conn := by rw [hconns, Function.update_self]
  have hposts : e'.posts c =
      e.posts c ++ (effect.post.map (loop.entry loop.pthreadId)).toList := by
    rw [posts, htrail, World.postsOf_append, World.postsOf_records]
    rfl
  have hposted : e'.posted c = e.posted c := by
    have hnil : (effect.post.map (loop.entry loop.pthreadId)).toList.flatMap
        (·.callback.bytes) = [] :=
      List.flatMap_eq_nil_iff.mpr fun _ hentry => (entry_of_ran hran hentry).2.2.1
    rw [posted, hposts, List.flatMap_append, hnil, List.append_nil]
    rfl
  have hunforced : Unforced (e'.world.trail c) → Unforced (e.world.trail c) :=
    fun hnot => Unforced.of_append (htrail ▸ hnot)
  have hruns : World.runsOf (e'.world.trail c) =
      World.runsOf (e.world.trail c) ++ entry.toList := by
    rw [htrail, World.runsOf_append, World.runsOf_records]
  have hall := fun hnot => h.all conn hconn (hunforced hnot)
  rw [dueFor_of_nil hcode, List.append_nil] at hall
  refine {
    onLoop := fun entry hentry => ?_
    writes := fun entry hentry hwrite => ?_
    order := ?_
    deaf := fun hnever entry hentry hclose => ?_
    sent := by
      rw [hposted, hasked]
      exact h.sent.trans (List.prefix_append _ _)
    all := fun _ _ hnot => by rw [hposted, hasked, hall hnot]
    due := fun data hdata entry hentry hclose => ?_
    closed := fun conn' hconn' hnot hstate => ?_
    disconnecting := fun conn' hconn' hstate => ?_
    hungUp := fun conn' hconn' hclose => ?_
    complete := fun hnot => ?_
    fresh := fun hle => absurd (Nat.lt_of_lt_of_le hnamed hmoves.nextId_le) (Nat.not_lt.mpr hle) }
  · rw [hposts] at hentry
    exact (List.mem_append.mp hentry).elim (h.onLoop entry) fun hnew =>
      (entry_of_ran hran hnew).1
  · rw [hposts] at hentry
    rcases List.mem_append.mp hentry with hold | hnew
    · exact h.writes entry hold hwrite
    · cases (entry_of_ran hran hnew).2.1.symm.trans hwrite
  · rw [hposts, List.pairwise_append]
    refine ⟨h.order, ?_, fun _ _ later hlater _ => (entry_of_ran hran hlater).2.1⟩
    cases effect.post <;> simp
  · rw [hposts] at hentry
    rcases List.mem_append.mp hentry with hold | hnew
    · exact (h.deaf hnever entry hold hclose).moves hmoves
    · exact h.deaf_of_post hreach hstep hjob hconn hran
        (hclose ▸ (entry_of_ran hran hnew).2.2.2) hnever
  · obtain ⟨hnever, n, hpos, rfl⟩ := hread data hdata
    obtain ⟨hnone, hpost⟩ := h.not_close_of_read hstep hjob hpos hconn hran hnever
    rw [hposts] at hentry
    rcases List.mem_append.mp hentry with hold | hnew
    · exact hnone entry hold hclose
    · exact hpost (hclose ▸ (entry_of_ran hran hnew).2.2.2)
  · cases hsame.symm.trans hconn'
    rw [hruns]
    refine h.closed_of_job hreach hbody hconn hran (hunforced hnot) ?_ hstate
    rintro task rfl rfl
    have hmem : .ran task .forceClose conn.state effect.conn.state ∈ e'.world.trail c := by
      rw [htrail]
      exact List.mem_append_left _ (World.ran_mem_records.mpr ⟨rfl, rfl, rfl, rfl⟩)
    cases hnot _ hmem
  · cases hsame.symm.trans hconn'
    obtain ⟨task, hmem, hcallback⟩ := h.disconnecting_of_job hreach hbody hconn hran hstate
    exact ⟨task, hposts ▸ List.mem_append_left _ hmem, hcallback⟩
  · cases hsame.symm.trans hconn'
    exact h.hungUp_of_job hbody hconn hran (hruns ▸ hclose)
  · obtain ⟨-, hclosed, hopen⟩ := World.chunks_of_bodyOf hbody conn effect loop
    rw [hruns, htrail, World.chunksOf_append, List.map_append, List.filter_append,
      h.complete (hunforced hnot)]
    congr 1
    by_cases hstate : conn.state = .closed
    · rw [hclosed hstate, h.filter_of_closed hreach hbody hconn (hunforced hnot) hstate]
      rfl
    · rw [hopen hstate, World.runsOf_records]

end Service

end Mutiplex
