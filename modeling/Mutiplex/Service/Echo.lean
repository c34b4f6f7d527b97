/-
# The echo server

A program that `Relays` writes back what it reads, behind the greeting it writes
first, if it has one.  Its `read_callback_` may be set in `established_callback_`
only, which is in time: the loop thread reads nothing in between.  The echo server
is the one without a greeting.
-/

import Mutiplex.Service.Wire

namespace Mutiplex

open CMemory Transition

variable {τ : Type} [DecidableEq τ]

namespace Connection

/-- No job touches the callbacks. -/
theorem Ran.callbacks {conn : Connection} {c : ConnId} {table : Epoll ConnId} {registered : Bool}
    {job : Job} {effect : Effect} (h : conn.Ran c table registered job effect) :
    effect.conn.callbacks = conn.callbacks := by
  cases h <;> simp [idle, errorCallback, withSource, afterWrite]

end Connection

namespace World

variable {w w' : World τ} {action : Action τ} {c : ConnId}

/-- Callbacks are set when the connection is made, and by user code. -/
theorem callbacks_of_moves (h : Moves w action w') {conn' : Connection}
    (hconn' : w'.conns c = some conn') :
    (∃ conn, w.conns c = some conn ∧ conn'.callbacks = conn.callbacks) ∨
      (∃ thread, action = .user thread (.setCallbacks c conn'.callbacks)) ∨
      c = w.nextId ∧ ∃ thread fd,
        action = .user thread (.onNewConnection fd conn'.callbacks) := by
  have hupdate : ∀ {other : ConnId} {conn new : Connection}, w.conns other = some conn →
      Function.update w.conns other (some new) c = some conn' → new.callbacks = conn.callbacks →
        ∃ conn, w.conns c = some conn ∧ conn'.callbacks = conn.callbacks := by
    intro other conn new hconn hupdate hcallbacks
    by_cases hc : c = other
    · subst hc
      cases (Function.update_self ..).symm.trans hupdate
      exact ⟨conn, hconn, hcallbacks⟩
    · exact ⟨conn', (Function.update_of_ne hc ..).symm.trans hupdate, rfl⟩
  cases h with
  | @destroyed _ other held stack =>
      rw [conns_destroy] at hconn'
      by_cases hc : c = other
      · subst hc
        cases (Function.update_self ..).symm.trans hconn'
      · exact Or.inl ⟨conn', (Function.update_of_ne hc ..).symm.trans hconn', rfl⟩
  | @setCallbacks thread other conn callbacks hconn =>
      by_cases hc : c = other
      · subst hc
        cases (Function.update_self ..).symm.trans hconn'
        exact Or.inr (Or.inl ⟨thread, rfl⟩)
      · exact Or.inl ⟨conn', (Function.update_of_ne hc ..).symm.trans hconn', rfl⟩
  | @born fd callbacks =>
      by_cases hc : c = w.nextId
      · subst hc
        cases (Function.update_self ..).symm.trans hconn'
        exact Or.inr (Or.inr ⟨rfl, _, fd, rfl⟩)
      · exact Or.inl ⟨conn', (Function.update_of_ne hc ..).symm.trans hconn', rfl⟩
  | exec hidle hstack hjob hconn hanswers hran =>
      exact Or.inl (hupdate hconn hconn' hran.callbacks)
  | call hempty hcall hnext hstep hjob hconn hanswers hran =>
      exact Or.inl (hupdate hconn hconn' hran.callbacks)
  | _ => exact Or.inl ⟨conn', hconn', rfl⟩

/-- Only `on_new_connection` gives a name. -/
theorem nextId_of_moves (h : Moves w action w')
    (hnot : ∀ thread fd callbacks, action ≠ .user thread (.onNewConnection fd callbacks)) :
    w'.nextId = w.nextId := by
  cases h with
  | destroyed => rw [nextId_destroy]
  | born => exact absurd rfl (hnot _ _ _)
  | _ => rfl

theorem setCallbacks_eq_next {thread : τ} {callbacks : Callbacks}
    (h : w.step (.user thread (.setCallbacks c callbacks)) = .next w') :
    ∃ conn, w.conns c = some conn ∧ w' = { w with
      conns := Function.update w.conns c (some { conn with callbacks := callbacks }) } := by
  simp only [step] at h
  split at h
  · simp only [userCall] at h
    split at h
    · split at h <;> cases h
      exact ⟨_, ‹_›, rfl⟩
    · cases h
  · cases h

end World

/-- `read_callback_` writes back what was read; `established_callback_` does
nothing, or it writes the greeting and sets `read_callback_`. -/
structure Program.Relays (program : Program) (greeting : List UInt8) : Prop where
  read : ∀ c data, program.onRead c data = [.writeData c data]
  established : (program.callbacks.read = true ∧ greeting = [] ∧
      ∀ c timestamp, program.onEstablished c timestamp = []) ∨
    program.callbacks.established = true ∧ ∀ c timestamp,
      program.onEstablished c timestamp = [.writeData c greeting,
        .setCallbacks c { program.callbacks with read := true }]

namespace Program.Relays

variable {program : Program} {greeting : List UInt8}

theorem orderly (h : program.Relays greeting) : program.Orderly := by
  refine ⟨fun c timestamp => ?_, fun c data => ?_,
    Or.inl fun c => ⟨fun timestamp => ?_, fun data => ?_⟩⟩
  · rcases h.established with ⟨-, -, hnil⟩ | ⟨-, hcalls⟩
    · rw [hnil]
      exact Call.inOrder_nil
    · rw [hcalls]
      refine ⟨?_, by simp⟩
      simp only [List.forall_mem_cons]
      exact ⟨.writeData greeting, .setCallbacks _, by simp⟩
  · rw [h.read]
    exact ⟨by simpa using .writeData data, List.pairwise_singleton _ _⟩
  · rcases h.established with ⟨-, -, hnil⟩ | ⟨-, hcalls⟩
    · simp [hnil]
    · simp [hcalls]
  · simp [h.read]

end Program.Relays

namespace Service

variable {program : Program} {greeting : List UInt8} {e e' : Service τ} {action : Action τ}
  {c : ConnId}

/-- The greeting, if the connection was made. -/
def greeted (greeting : List UInt8) (e : Service τ) (c : ConnId) : List UInt8 :=
  if c < e.world.nextId then greeting else []

/-- What a relay keeps of a connection. -/
structure Relayed (greeting : List UInt8) (c : ConnId) (e : Service τ) : Prop where
  reads : ∀ conn, e.world.conns c = some conn →
    conn.callbacks.read = true ∨ ∃ callbacks, .setCallbacks c callbacks ∈ e.code
  sets : ∀ callbacks, .setCallbacks c callbacks ∈ e.code → callbacks.read = true
  asked : e.asked c = e.greeted greeting c ++ e.received c
  fresh : e.world.nextId ≤ c → e.received c = []

/-- A step that makes no connection and sets no callbacks of this one. -/
theorem Relayed.of_quiet (h : Relayed greeting c e) {worldAction : World.Action τ}
    (hmoves : World.Moves e.world worldAction e'.world)
    (hnot : ∀ thread fd callbacks, worldAction ≠ .user thread (.onNewConnection fd callbacks))
    (hset : ∀ thread callbacks, worldAction ≠ .user thread (.setCallbacks c callbacks))
    (hcode : ∀ callbacks, .setCallbacks c callbacks ∈ e'.code ↔
      .setCallbacks c callbacks ∈ e.code)
    (data : List UInt8) (hreceived : e'.received c = e.received c ++ data)
    (hasked : e'.asked c = e.asked c ++ data)
    (hnamed : data ≠ [] → c < e.world.nextId) : Relayed greeting c e' := by
  have hnext := World.nextId_of_moves hmoves hnot
  refine ⟨fun conn' hconn' => ?_,
    fun callbacks hmem => h.sets callbacks ((hcode callbacks).mp hmem), ?_, fun hle => ?_⟩
  · rcases World.callbacks_of_moves hmoves hconn' with ⟨conn, hconn, hsame⟩ | ⟨thread, huser⟩ |
      ⟨-, thread, fd, huser⟩
    · rw [hsame]
      exact (h.reads conn hconn).imp_right fun ⟨callbacks, hmem⟩ =>
        ⟨callbacks, (hcode callbacks).mpr hmem⟩
    · exact absurd huser (hset thread _)
    · exact absurd huser (hnot thread fd _)
  · rw [hasked, h.asked, hreceived, greeted, greeted, hnext, List.append_assoc]
  · have hnil : data = [] := by
      by_contra hdata
      exact Nat.lt_irrefl _ (Nat.lt_of_lt_of_le (hnamed hdata) (hnext ▸ hle))
    rw [hreceived, h.fresh (hnext ▸ hle), hnil, List.append_nil]

/-- A call that sets callbacks. -/
theorem Relayed.of_setCallbacks (h : Relayed greeting c e) {other : ConnId} {callbacks : Callbacks}
    {rest : List Call} (hcode : e.code = .setCallbacks other callbacks :: rest)
    (hstep : e.world.step (.user e.world.loop.pthreadId (.setCallbacks other callbacks)) =
      .next e'.world)
    (hcode' : e'.code = rest) (hreceived : e'.received = e.received)
    (hasked : e'.asked c = e.asked c) : Relayed greeting c e' := by
  have hnext := World.nextId_of_moves (World.moves_of_step hstep) (by simp)
  obtain ⟨conn, hconn, hworld⟩ := World.setCallbacks_eq_next hstep
  refine ⟨fun conn' hconn' => ?_, fun callbacks hmem => h.sets callbacks ?_, ?_,
    fun hle => by rw [hreceived]; exact h.fresh (hnext ▸ hle)⟩
  · rw [hworld] at hconn'
    by_cases hc : c = other
    · subst hc
      cases (Function.update_self ..).symm.trans hconn'
      exact Or.inl (h.sets callbacks (hcode ▸ List.mem_cons_self))
    · refine (h.reads conn' ((Function.update_of_ne hc ..).symm.trans hconn')).imp_right ?_
      rintro ⟨pending, hmem⟩
      rw [hcode, List.mem_cons] at hmem
      refine ⟨pending, hcode' ▸ hmem.resolve_left ?_⟩
      rintro ⟨⟩
      exact hc rfl
  · exact hcode ▸ List.mem_cons_of_mem _ (hcode' ▸ hmem)
  · rw [hasked, h.asked, greeted, greeted, hnext, hreceived]

omit [DecidableEq τ] in
/-- What a relay calls when a connection is made. -/
theorem entered_of_relays (hrelays : program.Relays greeting) (fd : ℤ) (timestamp : UInt64) :
    (e.entered program (.register fd timestamp) = [] ∧ greeting = [] ∧
      program.callbacks.read = true) ∨
    e.entered program (.register fd timestamp) = [.writeData e.world.nextId greeting,
      .setCallbacks e.world.nextId { program.callbacks with read := true }] := by
  rcases hrelays.established with ⟨hread, hgreeting, hnil⟩ | ⟨hset, hcalls⟩
  · refine Or.inl ⟨?_, hgreeting, hread⟩
    simp [entered, hnil]
  · refine Or.inr ?_
    rw [entered, if_pos hset, hcalls]

/-- A connection is made, and greeted. -/
theorem Relayed.of_register (h : Relayed greeting c e) (hrelays : program.Relays greeting)
    {fd : ℤ} {timestamp : UInt64} (hnil : e.code = [])
    (hstep : e.world.step (.user e.world.loop.pthreadId
      (.onNewConnection fd program.callbacks)) = .next e'.world)
    (hcode : e'.code = e.entered program (.register fd timestamp))
    (hreceived : e'.received = e.received)
    (hasked : e'.asked c = e.asked c ++ e'.dueFor c) : Relayed greeting c e' := by
  have horder := (entered_register (e := e) hrelays.orderly fd timestamp).1
  have hentered := entered_of_relays (e := e) hrelays fd timestamp
  rw [← hcode] at horder hentered
  have hnext : e'.world.nextId = e.world.nextId + 1 := by
    rw [World.onNewConnection_eq_next hstep]
    rfl
  refine ⟨fun conn' hconn' => ?_, fun callbacks hmem => ?_, ?_, fun hle => ?_⟩
  · rcases World.callbacks_of_moves (World.moves_of_step hstep) hconn' with
      ⟨conn, hconn, hsame⟩ | ⟨thread, huser⟩ | ⟨rfl, thread, fd', huser⟩
    · rw [hsame]
      exact Or.inl ((h.reads conn hconn).resolve_right (by simp [hnil]))
    · cases huser
    · simp only [World.Action.user.injEq, Call.onNewConnection.injEq] at huser
      rcases hentered with ⟨-, -, hread⟩ | hentered
      · exact Or.inl (huser.2.2 ▸ hread)
      · exact Or.inr ⟨{ program.callbacks with read := true }, by rw [hentered]; simp⟩
  · rcases hentered with ⟨hempty, -⟩ | hentered
    · simp [hempty] at hmem
    · rw [hentered] at hmem
      simp only [List.mem_cons, reduceCtorEq, Call.setCallbacks.injEq, List.not_mem_nil, or_false,
        false_or] at hmem
      rw [hmem.2]
  · rw [hasked, h.asked, hreceived, greeted, greeted, hnext]
    by_cases hc : c = e.world.nextId
    · subst hc
      rw [if_neg (Nat.lt_irrefl _), if_pos (Nat.lt_succ_self _), h.fresh le_rfl, dueFor]
      rcases hentered with ⟨hempty, hgreeting, -⟩ | hentered
      · rw [hempty, hgreeting]
        rfl
      · rw [hentered]
        simp [Call.bytesTo]
    · rw [dueFor, Call.bytesTo_of_ne horder hc, List.append_nil]
      congr 1
      exact if_congr ⟨Nat.lt_succ_of_lt, fun hlt => Nat.lt_of_le_of_ne (Nat.lt_succ_iff.mp hlt) hc⟩
        rfl rfl
  · rw [hreceived]
    rw [hnext] at hle
    exact h.fresh (Nat.le_trans (Nat.le_succ _) hle)

/-- Bytes are read, and written back. -/
theorem Relayed.of_read (h : Relayed greeting c e) (hrelays : program.Relays greeting)
    (hreach : World.machine.Reach Machine.anyStep e.world)
    {data : List UInt8} {other : ConnId} (hnil : e.code = [])
    (hreader : e.reader data.length = some other)
    (hreads : ∀ conn, e.world.conns other = some conn → conn.callbacks.read = true)
    (hstep : e.world.step (.exec data.length) = .next e'.world)
    (hcode : e'.code = e.entered program (.read data))
    (hreceived : e'.received = e.receivedBy (.read data))
    (hasked : e'.asked c = e.asked c ++ e'.dueFor c) : Relayed greeting c e' := by
  have hmoves := World.moves_of_step hstep
  obtain ⟨readyOps, rest, more, conn, effect, -, -, hconn, -⟩ :=
    World.ran_of_read hstep (reader_eq_some hreader)
  have hentered : e'.code = [.writeData other data] := by
    simp [hcode, entered, hreader, hconn, hreads conn hconn, hrelays.read]
  simp only [receivedBy, hreader] at hreceived
  refine h.of_quiet hmoves (by simp) (by simp) (by simp [hentered, hnil]) _ ?_ hasked
    fun hdata => ?_
  · by_cases hc : c = other
    · subst hc
      simp [hreceived, dueFor, hentered, Call.bytesTo]
    · simp [hreceived, dueFor, hentered, Call.bytesTo, Ne.symm hc, Function.update_of_ne hc]
  · by_cases hc : c = other
    · subst hc
      exact (World.reach_numbered hreach).live c conn hconn
    · exact absurd (by simp [dueFor, hentered, Call.bytesTo, Ne.symm hc]) hdata

theorem reach_relayed {ok : Service τ → Action τ → Prop} (hrelays : program.Relays greeting)
    (h : (machine program).Reach ok e) : ∀ c, Relayed greeting c e := by
  refine h.invariant (fun e => ∀ c, Relayed greeting c e) ?_ ?_
  · rintro _ ⟨thread, rfl⟩ c
    have hnone : ¬ c < (World.new thread : World τ).nextId := Nat.not_lt_zero c
    exact ⟨by rintro _ ⟨⟩, by simp [new], by simp [new, greeted, hnone], fun _ => rfl⟩
  · intro source action target hsource hold _ hstep c
    obtain ⟨worldAction, haction, hnext, hcode, -, hreceived, hasked⟩ := step_eq_next hstep
    have hmoves := World.moves_of_step hnext
    cases action with
    | library action =>
        simp only [Service.worldAction, Option.ite_none_right_eq_some,
          Option.some.injEq] at haction
        obtain ⟨hlibrary, rfl⟩ := haction
        have hsame : target.code = source.code := hcode.trans (List.append_nil _)
        refine (hold c).of_quiet hmoves (fun thread fd callbacks huser => ?_)
          (fun thread callbacks huser => ?_) (by simp [hsame]) []
          ((congrFun hreceived c).trans (List.append_nil _).symm) (hasked c) (absurd rfl)
        · subst huser
          exact hlibrary.elim
        · subst huser
          exact hlibrary.elim
    | read data =>
        simp only [Service.worldAction, Option.ite_none_right_eq_some,
          Option.some.injEq] at haction
        obtain ⟨⟨hnil, -, -, hreader⟩, rfl⟩ := haction
        obtain ⟨other, hother⟩ := Option.isSome_iff_exists.mp hreader
        rw [codeBy_read, hnil, List.nil_append] at hcode
        exact (hold c).of_read hrelays (reach_world hsource) hnil hother
          (fun conn hconn => ((hold other).reads conn hconn).resolve_right (by simp [hnil])) hnext
          hcode hreceived (by rw [hasked, dueFor, hcode])
    | user =>
        obtain ⟨call, hcall, rfl⟩ := Option.map_eq_some_iff.mp haction
        obtain ⟨rest, hrest⟩ := List.head?_eq_some_iff.mp hcall
        have htail : target.code = rest := by rw [hcode, codeBy, hrest, List.tail_cons]
        obtain ⟨other, horder, -⟩ := reach_sequenced hrelays.orderly hsource
        have hquiet : (∀ callbacks, call ≠ .setCallbacks other callbacks) →
            Relayed greeting c target := by
          intro hnot
          have hplain := horder.plain call (hrest ▸ List.mem_cons_self)
          refine (hold c).of_quiet hmoves ?_ ?_ ?_ []
            ((congrFun hreceived c).trans (List.append_nil _).symm) (hasked c) (absurd rfl)
          · rintro thread fd callbacks ⟨⟩
            cases hplain
          · rintro thread callbacks ⟨⟩
            cases hplain
            exact hnot callbacks rfl
          · intro callbacks
            rw [htail, hrest, List.mem_cons]
            refine ⟨Or.inr, fun hmem => hmem.resolve_left ?_⟩
            rintro rfl
            cases hplain
            exact hnot callbacks rfl
        cases hplain : horder.plain call (hrest ▸ List.mem_cons_self) with
        | setCallbacks callbacks =>
            exact (hold c).of_setCallbacks hrest hnext htail hreceived
              ((hasked c).trans (List.append_nil _))
        | _ => exact hquiet (by simp)
    | register fd timestamp =>
        simp only [Service.worldAction, Option.ite_none_right_eq_some,
          Option.some.injEq] at haction
        obtain ⟨⟨hnil, -⟩, rfl⟩ := haction
        rw [codeBy_register, hnil, List.nil_append] at hcode
        exact (hold c).of_register hrelays hnil hnext hcode hreceived
          (by rw [hasked, dueFor, hcode])
    | release other =>
        simp only [Service.worldAction, Option.ite_none_right_eq_some,
          Option.some.injEq] at haction
        obtain ⟨-, rfl⟩ := haction
        have hsame : target.code = source.code := hcode.trans (List.append_nil _)
        exact (hold c).of_quiet hmoves (by simp) (by simp) (by simp [hsame]) []
          ((congrFun hreceived c).trans (List.append_nil _).symm) (hasked c) (absurd rfl)

/-- What a relay was told to write is its greeting and what it read. -/
theorem asked_of_relays {ok : Service τ → Action τ → Prop} (hrelays : program.Relays greeting)
    (h : (machine program).Reach ok e) (c : ConnId) :
    e.asked c = e.greeted greeting c ++ e.received c :=
  (reach_relayed hrelays h c).asked

/-! ## The server -/

/-- `EchoServer` of the echo benchmark; its `established_callback_` prints the
addresses. -/
def echoServer : Program where
  callbacks := ⟨true, true, false, false⟩
  receiveCapacity := 64 * 1024
  onEstablished _ _ := []
  onRead c data := [.writeData c data]

theorem echoServer_relays : echoServer.Relays [] :=
  ⟨fun _ _ => rfl, Or.inl ⟨rfl, rfl, fun _ _ => rfl⟩⟩

/-- **The echo server sends back what it reads.** In every run whose backlog on a
connection stays within 2^31 bytes and whose growths lose no bytes, the bytes on
its wire are the first ones that were read from it, in their order.  Until an
error forces the connection closed none are missing: what is not on the wire is in
the output buffer, in the tasks that wait and in the call to come.  So when the
peer has ended its stream and the connection is closed, the peer was sent back all
it sent. -/
theorem echo_sends_back_what_it_reads (e : Service τ) (c : ConnId)
    (h : (machine echoServer).Reach (Keeps echoServer c) e) :
    e.wire c <+: (e.received c).map some ∧
      ∀ conn, e.world.conns c = some conn → Unforced (e.world.trail c) →
        e.wire c ++ conn.contents ++ (e.waiting c ++ e.dueFor c).map some =
            (e.received c).map some ∧
          (conn.state = .closed → e.wire c = (e.received c).map some) := by
  have hwire := wire_of_asked echoServer_relays.orderly h
  have hgreeted : e.greeted [] c = [] := ite_self _
  rwa [asked_of_relays echoServer_relays h c, hgreeted, List.nil_append] at hwire

/-- The peer sends three bytes and ends its stream; the kernel takes the answer in
two parts, the second after the end was read. -/
theorem echo_sends_back_what_it_reads_of_three_bytes :
    ∃ (e : Service ℕ) (conn : Connection),
      (machine echoServer).Reach (Keeps echoServer 0) e ∧ e.received 0 = [1, 2, 3] ∧
      e.world.conns 0 = some conn ∧ conn.state = .closed ∧
      e.wire 0 = [some 1, some 2, some 3] := by
  have hnew : (machine echoServer).Reach (Keeps echoServer 0) (new 0 : Service ℕ) := .init ⟨0, rfl⟩
  obtain ⟨e, hreach, hreceived, hnot, conn, hconn, hclosed⟩ := hnew.exists_of_leads
    [.library (.loop (.enterRun 0)), .library (.loop .testRunning),
      .library (.epollWait [.other]), .register 5 0, .library .returns, .library (.exec 0),
      .release 0, .library .returns, .library (.loop .swapPending), .library (.loop .endBatch),
      .library .endIteration, .library (.loop .testRunning), .library (.epollWait [.source 5 1]),
      .read [1, 2, 3], .user, .library .returns, .library (.exec 0), .library (.exec 0),
      .library (.loop .swapPending), .library (.loop .endBatch), .library .call,
      .library .callReturns, .library .endIteration, .library (.loop .testRunning),
      .library (.epollWait [.source 5 5]), .library (.exec 0), .library (.exec 2),
      .library (.loop .swapPending), .library (.loop .endBatch), .library .call,
      .library .callReturns, .library (.exec 0), .library .endIteration,
      .library (.loop .testRunning), .library (.epollWait [.source 5 4]), .library (.exec 0),
      .library (.exec 1), .library (.loop .swapPending), .library (.loop .endBatch),
      .library .call]
    (P := fun e => e.received 0 = [1, 2, 3] ∧ (∀ event ∈ e.world.trail 0, event.isForced = false) ∧
      ∃ conn ∈ e.world.conns 0, conn.state = .closed)
    (by decide)
  refine ⟨e, conn, hreach, hreceived, hconn, hclosed, ?_⟩
  rw [((echo_sends_back_what_it_reads e 0 hreach).2 conn hconn hnot).2 hclosed, hreceived]
  rfl

end Service

end Mutiplex
