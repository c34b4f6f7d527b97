/-
# The life of a connection

What a step can do to one connection is its `Fate`: nothing, a task posted on
it, a change of callbacks, one job of its own, its birth or its end.  Each fate
says what becomes of the connection and of its trail, the record of what
happened to it.  `reach_trail` is the invariant rule over fates; the results
about single connections are proved with it and look at jobs only.
-/

import Mutiplex.Connection.Ownership

namespace Mutiplex

open CMemory Transition

variable {τ : Type} [DecidableEq τ]

/-- The connection a record is about. -/
def Event.subject : Event τ → Option ConnId
  | .posted entry => entry.callback.target
  | .ran entry _ _ _ => entry.callback.target
  | .sent c _ => some c
  | .called c _ => some c

namespace World

variable {w w' : World τ} {action : Action τ} {c : ConnId}

/-! ## Trails -/

/-- The record of one connection, newest first. -/
def trail (w : World τ) (c : ConnId) : List (Event τ) :=
  w.history.filter fun event => event.subject = some c

omit [DecidableEq τ] in
theorem mem_trail {event : Event τ} :
    event ∈ w.trail c ↔ event ∈ w.history ∧ event.subject = some c := by
  simp [trail]

omit [DecidableEq τ] in
theorem trail_append {new : List (Event τ)} (h : w'.history = new ++ w.history) (c : ConnId) :
    w'.trail c = new.filter (fun event => event.subject = some c) ++ w.trail c := by
  rw [trail, h, List.filter_append]
  rfl

omit [DecidableEq τ] in
/-- New records about one connection leave the trails of the others. -/
theorem trail_of_ne {new : List (Event τ)} {other : ConnId} (h : w'.history = new ++ w.history)
    (hnew : ∀ event ∈ new, event.subject = some other) (hne : c ≠ other) :
    w'.trail c = w.trail c := by
  rw [trail_append h, List.filter_eq_nil_iff.mpr, List.nil_append]
  intro event hevent
  rw [hnew event hevent, decide_eq_true_eq, Option.some.injEq]
  exact fun heq => hne heq.symm

omit [DecidableEq τ] in
theorem trail_of_self {new : List (Event τ)} (h : w'.history = new ++ w.history)
    (hnew : ∀ event ∈ new, event.subject = some c) : w'.trail c = new ++ w.trail c := by
  rw [trail_append h, List.filter_eq_self.mpr]
  exact fun event hevent => decide_eq_true (hnew event hevent)

omit [DecidableEq τ] in
theorem target_of_taskJob {task : Task} {job : Job} (h : w.taskJob task = some (c, job)) :
    task.target = some c := by
  cases task <;> simp_all [taskJob, Task.target]

theorem mem_records {loop : EventLoop τ Task} {entry : Option (Posted τ Task)} {job : Job}
    {found : ConnState} {effect : Effect} {event : Event τ} :
    event ∈ records loop entry c job found effect ↔
      (∃ callback, effect.called = some callback ∧ .called c callback = event) ∨
      (∃ task, effect.post = some task ∧ .posted (loop.entry loop.pthreadId task) = event) ∨
      (∃ bytes, effect.sent = some bytes ∧ .sent c bytes = event) ∨
      ∃ ran, entry = some ran ∧ .ran ran job found effect.conn.state = event := by
  simp only [records, List.mem_append, Option.mem_toList, Option.map_eq_some_iff, or_assoc]

section MemRecords

variable {loop : EventLoop τ Task} {entry : Option (Posted τ Task)} {job : Job}
  {found : ConnState} {effect : Effect}

@[simp]
theorem called_mem_records {other : ConnId} {callback : UserCallback} :
    .called other callback ∈ records loop entry c job found effect ↔
      c = other ∧ effect.called = some callback := by
  simp [mem_records, and_comm]

@[simp]
theorem posted_mem_records {posted : Posted τ Task} :
    .posted posted ∈ records loop entry c job found effect ↔
      ∃ task, effect.post = some task ∧ loop.entry loop.pthreadId task = posted := by
  simp [mem_records]

@[simp]
theorem ran_mem_records {ran : Posted τ Task} {job' : Job} {found' left : ConnState} :
    .ran ran job' found' left ∈ records loop entry c job found effect ↔
      entry = some ran ∧ job = job' ∧ found = found' ∧ effect.conn.state = left := by
  simp [mem_records]

end MemRecords

/-- The records of a job are about its own connection. -/
theorem subject_of_records {conn : Connection} {table : Epoll ConnId} {registered : Bool}
    {loop : EventLoop τ Task} {entry : Option (Posted τ Task)} {job : Job} {found : ConnState}
    {effect : Effect} (hran : conn.Ran c table registered job effect)
    (hentry : ∀ e, entry = some e → e.callback.target = some c) {event : Event τ}
    (h : event ∈ records loop entry c job found effect) : event.subject = some c := by
  rcases mem_records.mp h with ⟨callback, -, rfl⟩ | ⟨task, hpost, rfl⟩ | ⟨bytes, -, rfl⟩ |
    ⟨ran, hran', rfl⟩
  · rfl
  · rcases hran.post_eq hpost with rfl | rfl <;> rfl
  · rfl
  · exact hentry ran hran'

/-! ## Conditions on jobs -/

/-- Whatever code of a connection the action runs, it meets the condition. -/
def EachJob (P : World τ → ConnId → Connection → Job → Prop) (w : World τ) (action : Action τ) :
    Prop :=
  match w.job action with
  | none => True
  | some (c, job) => ∀ conn ∈ w.conns c, P w c conn job

instance (P : World τ → ConnId → Connection → Job → Prop)
    [∀ w c conn job, Decidable (P w c conn job)] : DecidableRel (EachJob P) := by
  intro w action
  unfold EachJob
  split
  · infer_instance
  · infer_instance

omit [DecidableEq τ] in
theorem EachJob.of_job {P : World τ → ConnId → Connection → Job → Prop} (h : EachJob P w action)
    {job : Job} {conn : Connection} (hjob : w.job action = some (c, job))
    (hconn : w.conns c = some conn) : P w c conn job := by
  simp only [EachJob, hjob] at h
  exact h conn hconn

omit [DecidableEq τ] in
/-- A weaker condition allows more steps. -/
theorem EachJob.mono {P Q : World τ → ConnId → Connection → Job → Prop}
    (hle : ∀ w c conn job, P w c conn job → Q w c conn job) (h : EachJob P w action) :
    EachJob Q w action := by
  unfold EachJob at h ⊢
  cases hjob : w.job action with
  | none => trivial
  | some run =>
      simp only [hjob] at h ⊢
      exact fun conn hconn => hle _ _ _ _ (h conn hconn)

/-! ## Fates -/

/-- The job is the body of the task `entry` that is called next, or of no task. -/
def BodyOf (w : World τ) (entry : Option (Posted τ Task)) (c : ConnId) (job : Job) : Prop :=
  entry = none ∧ job.isTask = false ∨ ∃ task, entry = some task ∧
    w.loop.nextEntry = some task ∧ w.taskJob task.callback = some (c, job)

omit [DecidableEq τ] in
theorem BodyOf.isTask_eq_false {entry : Option (Posted τ Task)} {job : Job}
    (h : w.BodyOf entry c job) (hnone : entry = none) : job.isTask = false := by
  rcases h with ⟨-, htask⟩ | ⟨task, hsome, -⟩
  · exact htask
  · cases hnone.symm.trans hsome

/-- What a step did to one connection. -/
inductive Fate (w : World τ) (action : Action τ) (w' : World τ) (c : ConnId) : Prop
  | same (heq : w'.conns c = w.conns c) (htrail : w'.trail c = w.trail c)
  | gone (heq : w'.conns c = none) (htrail : w'.trail c = w.trail c)
  | posted {entry : Posted τ Task} (heq : w'.conns c = w.conns c) (howned : w.Owned c)
      (htarget : entry.callback.target = some c)
      (hwrite : entry.callback.isWrite = true →
        ∃ conn, w.conns c = some conn ∧ conn.isClosed = false)
      (htrail : w'.trail c = .posted entry :: w.trail c)
  | callbacks {conn : Connection} {callbacks : Callbacks} (hconn : w.conns c = some conn)
      (heq : w'.conns c = some { conn with callbacks := callbacks })
      (htrail : w'.trail c = w.trail c)
  | born {fd : ℤ} {callbacks : Callbacks} {conn : Connection}
      (hconn : conn = (Connection.registerEvent fd callbacks c w.epoll).1) (hc : c = w.nextId)
      (hnext : w'.nextId = w.nextId + 1) (heq : w'.conns c = some conn)
      (htrail : w'.trail c =
        ((conn.userCallback .established).map (Event.called c)).toList ++ w.trail c)
      (haction : action = .user w.loop.pthreadId (.onNewConnection fd callbacks))
  | ran {loop : EventLoop τ Task} {entry : Option (Posted τ Task)} {job : Job}
      {conn : Connection} {effect : Effect} (hjob : w.job action = some (c, job))
      (hbody : w.BodyOf entry c job)
      (hconn : w.conns c = some conn) (hanswers : Answers conn job)
      (hran : conn.Ran c w.epoll (w.registered conn.fd) job effect)
      (hposts : ∀ task, effect.post = some task →
        (∃ entry ∈ w'.loop.localTasks, entry.callback = task) ∧ w'.loop.phase.busy = true)
      (heq : w'.conns c = some effect.conn)
      (htrail : w'.trail c = records loop entry c job conn.state effect ++ w.trail c)

omit [DecidableEq τ] in
theorem job_exec {n : ℤ} {frame : Frame} {rest : List Frame} (hstack : w.stack = frame :: rest) :
    w.job (.exec n) = frameJob n frame := by
  simp [job, hstack]

omit [DecidableEq τ] in
theorem job_call {entry : Posted τ Task} (hnext : w.loop.nextEntry = some entry) :
    w.job .call = w.taskJob entry.callback := by
  simp [job, hnext]

theorem isTask_of_frameJob {n : ℤ} {frame : Frame} {job : Job}
    (h : frameJob n frame = some (c, job)) : job.isTask = false := by
  cases frame with
  | events _ readyOps =>
      simp only [frameJob] at h
      split at h
      · cases h
        rfl
      · split at h <;> cases h <;> rfl
  | writable _ readyOps =>
      simp only [frameJob] at h
      split at h <;> cases h <;> rfl
  | callForceClose _ =>
      cases h
      rfl
  | _ => cases h

/-- Records about one connection, which alone has changed. -/
theorem Fate.of_update {other : ConnId} {new : List (Event τ)} {value : Option Connection}
    (hconns : w'.conns = Function.update w.conns other value)
    (hhistory : w'.history = new ++ w.history)
    (hnew : ∀ event ∈ new, event.subject = some other)
    (hself : c = other → w'.conns c = value → w'.trail c = new ++ w.trail c →
      Fate w action w' c) : Fate w action w' c := by
  by_cases hc : c = other
  · refine hself hc (by rw [hconns, hc, Function.update_self]) (trail_of_self hhistory ?_)
    exact hc ▸ hnew
  · exact .same (by rw [hconns, Function.update_of_ne hc]) (trail_of_ne hhistory hnew hc)

/-- What a job posts waits in the task queue, and will be called in this
iteration. -/
theorem posts_of_apply {entry : Option (Posted τ Task)} {job : Job} {found : ConnState}
    {effect : Effect} (hqueues : w.loop.Queues) (hbusy : w.loop.phase.busy = true) :
    ∀ task, effect.post = some task →
      (∃ waiting ∈ (w.apply entry c job found effect).loop.localTasks,
        waiting.callback = task) ∧
      (w.apply entry c job found effect).loop.phase.busy = true := by
  intro task hpost
  have heq : (w.apply entry c job found effect).loop =
      w.loop.postCallback w.loop.pthreadId task := by
    simp [World.apply, hpost]
  refine ⟨⟨w.loop.entry w.loop.pthreadId task, ?_, rfl⟩, by rwa [phase_apply]⟩
  rw [heq]
  exact EventLoop.entry_mem_localTasks hqueues _

/-- A step decides the fate of every connection. -/
theorem Moves.fate (hmoves : Moves w action w') (hplaced : w.Placed) (hqueues : w.loop.Queues)
    (c : ConnId) : Fate w action w' c := by
  cases hmoves with
  | loop => exact .same rfl rfl
  | epollWait => exact .same rfl rfl
  | pointers => exact .same rfl rfl
  | destroyed =>
      refine .of_update (conns_destroy _) ((history_destroy _).trans (List.nil_append _).symm)
        (by simp) ?_
      exact fun _ heq htrail => .gone heq htrail
  | @posted thread _ task hmay htarget hwrite =>
      have hhistory : (w.post thread task).history =
          [.posted (w.loop.entry thread task)] ++ w.history := rfl
      by_cases hc : task.target = some c
      · refine .posted rfl (htarget c hc).owned hc (fun h => hwrite h c hc)
          (trail_of_self hhistory fun event h => ?_)
        rw [List.mem_singleton.mp h]
        exact hc
      · refine .same rfl ?_
        rw [trail_append hhistory, List.filter_eq_nil_iff.mpr, List.nil_append]
        intro event h
        rw [List.mem_singleton.mp h, decide_eq_true_eq]
        exact hc
  | setCallbacks hconn =>
      refine .of_update rfl (List.nil_append _).symm (by simp) fun hc heq htrail => ?_
      subst hc
      exact .callbacks hconn heq htrail
  | fdClosed => exact .same rfl rfl
  | born =>
      refine .of_update rfl rfl ?_ fun hc heq htrail => ?_
      · intro event hevent
        obtain ⟨callback, -, rfl⟩ := Option.map_eq_some_iff.mp (Option.mem_toList.mp hevent)
        rfl
      · subst hc
        exact .born rfl rfl rfl heq htrail rfl
  | exec hidle hstack hjob hconn hanswers hran =>
      refine .of_update rfl rfl (fun _ => subject_of_records hran (by simp)) ?_
      intro hc heq htrail
      subst hc
      refine .ran ((job_exec hstack).trans hjob) (Or.inl ⟨rfl, isTask_of_frameJob hjob⟩)
        hconn hanswers hran (posts_of_apply hqueues ?_) heq htrail
      exact busy_of_handlesEvents (hplaced.of_frameJob hstack hjob)
  | call hempty hcall hnext hstep hjob hconn hanswers hran =>
      refine .of_update rfl rfl (fun _ => subject_of_records hran ?_) ?_
      · intro e he
        cases he
        exact target_of_taskJob hjob
      · intro hc heq htrail
        subst hc
        refine .ran ((job_call hnext).trans hjob) (Or.inr ⟨_, rfl, hnext, hjob⟩)
          hconn hanswers hran (posts_of_apply ?_ (busy_of_call hcall hstep)) heq htrail
        exact hqueues.move (EventLoop.move_of_step hstep)

/-! ## Names -/

/-- Connections and the records about them have the names given out so far. -/
structure Numbered (w : World τ) : Prop where
  live : ∀ c conn, w.conns c = some conn → c < w.nextId
  recorded : ∀ c, w.trail c ≠ [] → c < w.nextId

theorem Moves.nextId_le (hmoves : Moves w action w') : w.nextId ≤ w'.nextId := by
  cases hmoves with
  | destroyed => rw [nextId_destroy]
  | born => exact Nat.le_succ _
  | _ => exact Nat.le_refl _

theorem Numbered.moves (h : w.Numbered) (halive : w.Alive) (hplaced : w.Placed)
    (hqueues : w.loop.Queues) (hmoves : Moves w action w') : w'.Numbered := by
  have hle := hmoves.nextId_le
  have hlive : ∀ c conn, w.conns c = some conn → c < w'.nextId :=
    fun c conn hconn => Nat.lt_of_lt_of_le (h.live c conn hconn) hle
  have hrecorded : ∀ c, w.trail c ≠ [] → c < w'.nextId :=
    fun c htrail => Nat.lt_of_lt_of_le (h.recorded c htrail) hle
  constructor
  · intro c conn hconn
    cases hmoves.fate hplaced hqueues c with
    | same heq => exact hlive c conn (heq ▸ hconn)
    | gone heq =>
        rw [heq] at hconn
        cases hconn
    | posted heq => exact hlive c conn (heq ▸ hconn)
    | callbacks hold => exact hlive c _ hold
    | born _ hc hnext =>
        rw [hc, hnext]
        exact Nat.lt_succ_self _
    | ran _ _ hold => exact hlive c _ hold
  · intro c htrail'
    cases hmoves.fate hplaced hqueues c with
    | same _ htrail => exact hrecorded c (htrail ▸ htrail')
    | gone _ htrail => exact hrecorded c (htrail ▸ htrail')
    | posted _ howned =>
        obtain ⟨conn, hconn⟩ := halive c howned
        exact hlive c conn hconn
    | callbacks hold => exact hlive c _ hold
    | born _ hc hnext =>
        rw [hc, hnext]
        exact Nat.lt_succ_self _
    | ran _ _ hold => exact hlive c _ hold

theorem reach_numbered {ok : World τ → Action τ → Prop} (h : machine.Reach ok w) :
    w.Numbered := by
  refine reach_invariant Numbered ?_ ?_ h
  · intro thread
    refine ⟨fun c conn hconn => ?_, fun c htrail => ?_⟩
    · cases hconn
    · exact absurd rfl htrail
  · exact fun _ _ _ hreach hinv _ hmoves => hinv.moves (reach_alive hreach)
      (reach_loop hreach).1 (reach_loop_queues hreach) hmoves

/-- **The invariant rule over fates.** What holds of a connection that does not
exist yet and survives every fate holds of every connection and its trail. -/
theorem reach_trail {ok : World τ → Action τ → Prop}
    (P : ConnId → Option Connection → List (Event τ) → Prop)
    (hnone : ∀ c, P c none [])
    (hgone : ∀ c value trail, P c value trail → P c none trail)
    (hposted : ∀ c value entry trail, P c value trail → entry.callback.target = some c →
      (entry.callback.isWrite = true → ∃ conn, value = some conn ∧ conn.isClosed = false) →
      P c value (.posted entry :: trail))
    (hcallbacks : ∀ c conn callbacks trail, P c (some conn) trail →
      P c (some { conn with callbacks := callbacks }) trail)
    (hborn : ∀ c fd callbacks table, P c (some (Connection.registerEvent fd callbacks c table).1)
      (((Connection.registerEvent fd callbacks c table).1.userCallback .established).map
        (Event.called c)).toList)
    (hran : ∀ (source : World τ) action c job conn effect loop entry trail,
      machine.Reach ok source → ok source action → source.job action = some (c, job) →
      source.BodyOf entry c job → source.conns c = some conn → Answers conn job →
      conn.Ran c source.epoll (source.registered conn.fd) job effect → P c (some conn) trail →
      P c (some effect.conn) (records loop entry c job conn.state effect ++ trail))
    (h : machine.Reach ok w) (c : ConnId) : P c (w.conns c) (w.trail c) := by
  refine reach_invariant (fun w => ∀ c, P c (w.conns c) (w.trail c)) ?_ ?_ h c
  · exact fun _ => hnone
  · intro source action target hreach hinv hok hmoves c
    have hold := hinv c
    cases hmoves.fate (reach_loop hreach).1 (reach_loop_queues hreach) c with
    | same heq htrail => rwa [heq, htrail]
    | gone heq htrail =>
        rw [heq, htrail]
        exact hgone c _ _ hold
    | posted heq howned htarget hwrite htrail =>
        rw [heq, htrail]
        exact hposted c _ _ _ hold htarget hwrite
    | callbacks hconn heq htrail =>
        rw [heq, htrail]
        exact hcallbacks c _ _ _ (hconn ▸ hold)
    | born hconn hc hnext heq htrail =>
        have hempty : source.trail c = [] := by
          by_contra hne
          exact Nat.lt_irrefl _ (hc ▸ (reach_numbered hreach).recorded c hne)
        rw [heq, htrail, hempty, List.append_nil, hconn]
        exact hborn c _ _ _
    | ran hjob hbody hconn hanswers heffect hposts heq htrail =>
        rw [heq, htrail]
        exact hran source action c _ _ _ _ _ _ hreach hok hjob hbody hconn hanswers heffect
          (hconn ▸ hold)

/-- A closed connection has nothing left to send. -/
theorem reach_settled {ok : World τ → Action τ → Prop} (h : machine.Reach ok w)
    {conn : Connection} (hconn : w.conns c = some conn) : conn.Settled := by
  have hsettled := reach_trail (fun _ value _ => ∀ conn, value = some conn → conn.Settled)
    (fun c conn h => by cases h)
    (fun c value trail _ conn h => by cases h)
    (fun c value entry trail hold _ _ => hold)
    (fun c conn callbacks trail hold new h => by cases h; exact hold conn rfl)
    (fun c fd callbacks table conn h hclosed => by cases h; cases hclosed)
    (fun source action c job conn effect loop entry trail _ _ _ _ _ _ hran hold new h => by
      cases h
      exact hran.settled (hold conn rfl)) h c
  exact hsettled conn hconn

end World

end Mutiplex
