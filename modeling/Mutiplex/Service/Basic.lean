/-
# Programs over the library

`Service` is a loop with a program on it.  User code is the two callbacks of the
program's connections, which make their calls in order, and the callback of the
acceptor or of the connector, which registers a connection and then lets its own
pointer go.  All other steps are those of `World`.

`code` is what the callback that runs has still to call.  `wire`, `received` and
`asked` record what the kernel took, what it gave, and what the callbacks were
told to write.
-/

import Mutiplex.Connection.Input
import Mutiplex.Connection.Reclaim
import Mutiplex.Connection.Stream

namespace Mutiplex

open CMemory Transition

variable {τ : Type} [DecidableEq τ]

/-- The user code of a program: the callbacks that are set before a connection is
registered, and the calls that `established_callback_` and `read_callback_` make
when they are told of a connection.  The other callbacks call nothing. -/
structure Program where
  callbacks : Callbacks
  receiveCapacity : ℕ
  onEstablished : ConnId → UInt64 → List Call
  onRead : ConnId → List UInt8 → List Call

/-- A loop with a program on it. -/
structure Service (τ : Type) where
  world : World τ
  code : List Call
  wire : ConnId → List Cell
  received : ConnId → List UInt8
  asked : ConnId → List UInt8

/-- The bytes that a call writes to the connection. -/
def Call.bytesTo (c : ConnId) : Call → List UInt8
  | .writeData other data => if other = c then data else []
  | _ => []

namespace Service

/-- The program has allocated the receive buffer of its loop. -/
def new (thread : τ) : Service τ where
  world := { World.new thread with recvBuffer := true }
  code := []
  wire _ := []
  received _ := []
  asked _ := []

/-- One step. -/
inductive Action (τ : Type)
  | /-- A step of the library in which no bytes are read. -/
    library (action : World.Action τ)
  | /-- `read` fills the receive buffer. -/
    read (data : List UInt8)
  | /-- The next call of the callback that runs. -/
    user
  | /-- The callback of the acceptor or the connector, up to the return of
    `on_new_connection`. -/
    register (fd : ℤ) (timestamp : UInt64)
  | /-- Its end, where its own pointer goes. -/
    release (c : ConnId)

variable (program : Program) (e : Service τ)

/-- The connection the next frame would read from. -/
def reader (n : ℤ) : Option ConnId :=
  match e.world.job (.exec n) with
  | some (c, .read _) => some c
  | _ => none

/-- User code makes no other calls, and as long as the callback that runs has
calls to make the loop thread does nothing else. -/
def IsLibrary : World.Action τ → Prop
  | .user .. => False
  | .loop _ => True
  | .exec n => e.code = [] ∧ (0 < n → e.reader n = none)
  | _ => e.code = []

instance (action : World.Action τ) : Decidable (e.IsLibrary action) := by
  unfold IsLibrary
  split <;> infer_instance

/-- The loop thread is in the callback of the acceptor or the connector. -/
def InHandler : Prop := e.code = [] ∧ e.world.stack.head? = some (.inside none)

instance : Decidable e.InHandler := inferInstanceAs (Decidable (_ ∧ _))

/-- The step of the world, if the program takes it. -/
def worldAction : Action τ → Option (World.Action τ)
  | .library action => if e.IsLibrary action then some action else none
  | .read data =>
      if e.code = [] ∧ 0 < data.length ∧ data.length ≤ program.receiveCapacity ∧
          (e.reader data.length).isSome then
        some (.exec data.length)
      else none
  | .user => e.code.head?.map (.user e.world.loop.pthreadId)
  | .register fd _ =>
      if e.InHandler then
        some (.user e.world.loop.pthreadId (.onNewConnection fd program.callbacks))
      else none
  | .release c =>
      if e.InHandler then some (.user e.world.loop.pthreadId (.drop c)) else none

/-- The calls of the callback that the step calls. -/
def entered : Action τ → List Call
  | .read data =>
      match e.reader data.length with
      | none => []
      | some c =>
          if (e.world.conns c).any (·.callbacks.read) then program.onRead c data else []
  | .register _ timestamp =>
      if program.callbacks.established then program.onEstablished e.world.nextId timestamp
      else []
  | _ => []

/-- What the callback that runs has still to call after the step. -/
def codeBy : Action τ → List Call
  | .user => e.code.tail
  | action => e.code ++ e.entered program action

/-- What has been read from each connection after the step. -/
def receivedBy : Action τ → ConnId → List UInt8
  | .read data =>
      match e.reader data.length with
      | none => e.received
      | some c => Function.update e.received c (e.received c ++ data)
  | _ => e.received

/-- One step. -/
def step (action : Action τ) : Outcome (Service τ) Fault :=
  match e.worldAction program action with
  | none => .blocked
  | some worldAction =>
      (e.world.step worldAction).andThen fun world => .next {
        world := world
        code := e.codeBy program action
        wire := World.note World.tap e.world worldAction world e.wire
        received := e.receivedBy action
        asked := fun c => e.asked c ++ (e.entered program action).flatMap (·.bytesTo c) }

/-- A service as a machine. -/
def machine : Machine (Service τ) (Action τ) Fault where
  Init e := ∃ thread, e = new thread
  step e action := e.step program action

/-- The backlog of the connection stays within 2^31 bytes and its buffer keeps
what it is given. -/
def Keeps (c : ConnId) (e : Service τ) (action : Action τ) : Prop :=
  ∀ worldAction ∈ e.worldAction program action, World.Keeps c e.world worldAction

instance {c : ConnId} : DecidableRel (Keeps (τ := τ) program c) := fun e action =>
  inferInstanceAs (Decidable (∀ worldAction ∈ e.worldAction program action,
    World.Keeps c e.world worldAction))

end Service

namespace World

variable {w w' : World τ} {action : Action τ} {c : ConnId}

/-! ## The posts of a trail -/

/-- The posted tasks of a trail, in their order. -/
def postsOf (trail : List (Event τ)) : List (Posted τ Task) :=
  trail.reverse.filterMap Event.posting

omit [DecidableEq τ] in
theorem postsOf_append (new trail : List (Event τ)) :
    postsOf (new ++ trail) = postsOf trail ++ postsOf new := by
  simp [postsOf]

theorem postsOf_records (loop : EventLoop τ Task) (entry : Option (Posted τ Task)) (c : ConnId)
    (job : Job) (found : ConnState) (effect : Effect) :
    postsOf (records loop entry c job found effect) =
      (effect.post.map (loop.entry loop.pthreadId)).toList := by
  rw [postsOf, List.filterMap_reverse, posting_records]
  cases effect.post <;> rfl

theorem posts_trail {ok : World τ → Action τ → Prop} (h : machine.Reach ok w) (c : ConnId) :
    postsOf (w.trail c) = w.loop.posted.filter (·.callback.target = some c) := by
  rw [postsOf, filterMap_trail ?_, List.filterMap_reverse, reach_logged h, List.reverse_reverse]
  intro event entry hposting
  cases event <;> cases hposting
  rfl

/-- A step that runs a job of a connection. -/
theorem step_of_job {other : ConnId} {job : Job} (h : w.step action = .next w')
    (hjob : w.job action = some (other, job)) :
    ∃ entry loop conn effect, w.BodyOf entry other job ∧ w.conns other = some conn ∧
      Answers conn job ∧ conn.Ran other w.epoll (w.registered conn.fd) job effect ∧
      w'.conns = Function.update w.conns other (some effect.conn) ∧
      w'.trail other = records loop entry other job conn.state effect ++ w.trail other ∧
      ∀ c ≠ other, w'.trail c = w.trail c := by
  obtain ⟨entry, loop, stack, conn, effect, hbody, hconn, hanswers, hran, rfl⟩ := ran_of_job h hjob
  have hsubject : ∀ event ∈ records loop entry other job conn.state effect,
      event.subject = some other := by
    refine fun event hevent => subject_of_records hran ?_ hevent
    rintro task rfl
    rcases hbody with ⟨hnone, -⟩ | ⟨task', hsome, -, htask⟩
    · cases hnone
    · cases hsome
      exact target_of_taskJob htask
  exact ⟨entry, loop, conn, effect, hbody, hconn, hanswers, hran, rfl,
    trail_of_self rfl hsubject, fun c hc => trail_of_ne rfl hsubject hc⟩

/-- A step that runs no job and posts nothing. -/
theorem step_of_no_job (h : w.step action = .next w') (hnone : w.job action = none)
    (hquiet : ∀ thread call, action = .user thread call → w'.loop = w.loop) (c : ConnId) :
    ∃ called : Option UserCallback,
      w'.trail c = (called.map (Event.called c)).toList ++ w.trail c ∧
      ∀ conn', w'.conns c = some conn' →
        (∃ conn, w.conns c = some conn ∧ conn'.state = conn.state) ∨
          c = w.nextId ∧
            ∃ thread fd callbacks, action = .user thread (.onNewConnection fd callbacks) := by
  have hsame : ∀ conn', w.conns c = some conn' →
      (∃ conn, w.conns c = some conn ∧ conn'.state = conn.state) ∨
        c = w.nextId ∧
          ∃ thread fd callbacks, action = .user thread (.onNewConnection fd callbacks) :=
    fun conn' hconn' => Or.inl ⟨conn', hconn', rfl⟩
  cases moves_of_step h with
  | loop => exact ⟨none, rfl, hsame⟩
  | epollWait => exact ⟨none, rfl, hsame⟩
  | pointers => exact ⟨none, rfl, hsame⟩
  | @destroyed _ other held stack =>
      refine ⟨none, ?_, fun conn' hconn' => hsame conn' ?_⟩
      · rw [trail, history_destroy]
        rfl
      · rw [conns_destroy] at hconn'
        by_cases hc : c = other
        · subst hc
          cases (Function.update_self ..).symm.trans hconn'
        · rwa [Function.update_of_ne hc] at hconn'
  | @posted thread call task =>
      have hposted := congrArg EventLoop.posted (hquiet thread call rfl)
      simp [post, EventLoop.posted_postCallback] at hposted
  | @setCallbacks thread other conn callbacks hconn =>
      refine ⟨none, rfl, fun conn' hconn' => ?_⟩
      by_cases hc : c = other
      · subst hc
        cases (Function.update_self ..).symm.trans hconn'
        exact Or.inl ⟨conn, hconn, rfl⟩
      · exact hsame conn' ((Function.update_of_ne hc ..).symm.trans hconn')
  | fdClosed => exact ⟨none, rfl, hsame⟩
  | @born fd callbacks =>
      by_cases hc : c = w.nextId
      · subst hc
        refine ⟨_, trail_of_self rfl ?_, fun conn' _ => Or.inr ⟨rfl, _, fd, callbacks, rfl⟩⟩
        intro event hevent
        obtain ⟨callback, -, rfl⟩ := Option.map_eq_some_iff.mp (Option.mem_toList.mp hevent)
        rfl
      · refine ⟨none, trail_of_ne rfl ?_ hc, fun conn' hconn' => hsame conn' ?_⟩
        · intro event hevent
          obtain ⟨callback, -, rfl⟩ := Option.map_eq_some_iff.mp (Option.mem_toList.mp hevent)
          rfl
        · exact (Function.update_of_ne hc ..).symm.trans hconn'
  | exec hidle hstack hjob =>
      rw [job_exec hstack, hjob] at hnone
      cases hnone
  | call hempty hcall hnext hstep hjob =>
      rw [job_call hnext, hjob] at hnone
      cases hnone

end World

/-- The bytes that a task writes. -/
def Task.bytes : Task → List UInt8
  | .writeData _ data => data
  | _ => []

/-- No task of a `force_close` ran. -/
def Unforced (trail : List (Event τ)) : Prop := ∀ event ∈ trail, event.isForced = false

omit [DecidableEq τ] in
theorem Unforced.of_append {new trail : List (Event τ)} (h : Unforced (new ++ trail)) :
    Unforced trail :=
  fun event hevent => h event (List.mem_append_right new hevent)

namespace Service

variable {program : Program} {e e' : Service τ} {action : Action τ} {c : ConnId}

omit [DecidableEq τ] in
theorem codeBy_read (data : List UInt8) :
    e.codeBy program (.read data) = e.code ++ e.entered program (.read data) := rfl

omit [DecidableEq τ] in
theorem codeBy_register (fd : ℤ) (timestamp : UInt64) :
    e.codeBy program (.register fd timestamp) =
      e.code ++ e.entered program (.register fd timestamp) := rfl

/-! ## Refinement -/

/-- A step of the service is a step of the world, with its records. -/
theorem step_eq_next (h : e.step program action = .next e') :
    ∃ worldAction, e.worldAction program action = some worldAction ∧
      e.world.step worldAction = .next e'.world ∧
      e'.code = e.codeBy program action ∧
      e'.wire = World.note World.tap e.world worldAction e'.world e.wire ∧
      e'.received = e.receivedBy action ∧
      ∀ c, e'.asked c = e.asked c ++ (e.entered program action).flatMap (·.bytesTo c) := by
  unfold step at h
  split at h
  · cases h
  · rename_i worldAction haction
    obtain ⟨world, hstep, hnext⟩ := Outcome.andThen_eq_next.mp h
    cases hnext
    exact ⟨worldAction, haction, hstep, rfl, rfl, rfl, fun _ => rfl⟩

/-- `allocate_receive_buffer` on a new loop. -/
theorem step_new (thread : τ) :
    World.machine.step (World.new thread) (.user thread (.allocateReceiveBuffer 4096)) =
      .next (new thread : Service τ).world :=
  if_pos ⟨List.not_mem_nil, Or.inr rfl⟩

theorem reach_world {ok : Service τ → Action τ → Prop} (h : (machine program).Reach ok e) :
    World.machine.Reach Machine.anyStep e.world := by
  refine h.invariant (fun e => World.machine.Reach Machine.anyStep e.world) ?_ ?_
  · rintro _ ⟨thread, rfl⟩
    exact .step (.init ⟨thread, rfl⟩) trivial (step_new thread)
  · intro source action target _ hreach _ hstep
    obtain ⟨worldAction, -, hnext, -⟩ := step_eq_next hstep
    exact .step hreach trivial hnext

/-- **The runs of a service are runs of the library.** -/
theorem reach_noted (h : (machine program).Reach (Keeps program c) e) :
    World.Noted [] World.tap (World.Keeps c) e.world e.wire := by
  refine h.invariant (fun e => World.Noted [] World.tap (World.Keeps c) e.world e.wire) ?_ ?_
  · rintro _ ⟨thread, rfl⟩
    have hkeeps : World.Keeps c (World.new thread)
        (.user thread (.allocateReceiveBuffer 4096)) := trivial
    have hnew : World.Noted [] World.tap (World.Keeps c) (World.new thread) fun _ => [] :=
      .init ⟨⟨thread, rfl⟩, rfl⟩
    exact .step hnew hkeeps (Machine.watched_eq_next.mpr ⟨step_new thread, rfl⟩)
  · intro source action target _ hnoted hok hstep
    obtain ⟨worldAction, haction, hnext, -, hwire, -⟩ := step_eq_next hstep
    exact .step hnoted (hok worldAction haction)
      (Machine.watched_eq_next.mpr ⟨hnext, hwire⟩)

omit [DecidableEq τ] in
/-- The frame reads as many bytes as the kernel gives. -/
theorem reader_eq_some {n : ℤ} (h : e.reader n = some c) :
    e.world.job (.exec n) = some (c, .read n) := by
  unfold reader at h
  split at h
  · rename_i other m hjob
    cases h
    rw [hjob]
    cases hstack : e.world.stack with
    | nil => simp [World.job, hstack] at hjob
    | cons frame rest =>
        rw [World.job_exec hstack] at hjob
        unfold World.frameJob at hjob
        split at hjob
        · split_ifs at hjob <;> cases hjob
          rfl
        · split_ifs at hjob <;> cases hjob
        · cases hjob
        · cases hjob
  · cases h

end Service

end Mutiplex
