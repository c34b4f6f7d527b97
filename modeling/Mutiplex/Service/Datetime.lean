/-
# The datetime server

The datetime server writes the time to each new connection and closes it at once.
`write` and `close` only post their tasks, so what the peer is sent rests on their
order in the queue and on `close` waiting for the output buffer.
-/

import Mutiplex.Service.Echo
import Mutiplex.Timestamp

namespace Mutiplex

open CMemory Transition

variable {τ : Type} [DecidableEq τ]

namespace World

variable {w w' : World τ} {action : Action τ} {c : ConnId}

/-- The past is not changed. -/
theorem history_of_moves (h : Moves w action w') : ∃ new, w'.history = new ++ w.history := by
  cases h with
  | destroyed => exact ⟨[], by rw [history_destroy]; rfl⟩
  | posted => exact ⟨[_], rfl⟩
  | born => exact ⟨_, rfl⟩
  | exec => exact ⟨_, rfl⟩
  | call => exact ⟨_, rfl⟩
  | _ => exact ⟨[], rfl⟩

/-- What was posted stays posted. -/
theorem mem_posts_of_moves (h : Moves w action w') {entry : Posted τ Task}
    (hentry : entry ∈ postsOf (w.trail c)) : entry ∈ postsOf (w'.trail c) := by
  obtain ⟨new, hnew⟩ := history_of_moves h
  rw [trail_append hnew, postsOf_append]
  exact List.mem_append_left _ hentry

end World

namespace Service

/-- The line the server writes, the time and a newline. -/
def timeLine (localtime : ℕ → Tm) (timestamp : UInt64) : List UInt8 :=
  Timestamp.toString localtime timestamp ++ [10]

/-- `EchoServer` of the datetime benchmark. -/
def datetimeServer (localtime : ℕ → Tm) : Program where
  callbacks := ⟨true, false, false, false⟩
  receiveCapacity := 64 * 1024
  onEstablished c timestamp := [.writeData c (timeLine localtime timestamp), .close c]
  onRead _ _ := []

variable {localtime : ℕ → Tm} {e e' : Service τ} {action : Action τ} {c : ConnId}

theorem datetimeServer_orderly : (datetimeServer localtime).Orderly := by
  refine ⟨fun c timestamp => ⟨?_, ?_⟩, fun _ _ => Call.inOrder_nil,
    Or.inr (by simp [datetimeServer])⟩
  · simp only [datetimeServer, List.forall_mem_cons]
    exact ⟨.writeData _, .close, by simp⟩
  · simp [datetimeServer]

/-- A connection that was made is told the time and closed. -/
structure Told (localtime : ℕ → Tm) (c : ConnId) (e : Service τ) : Prop where
  line : c < e.world.nextId → ∃ timestamp, e.asked c = timeLine localtime timestamp
  hangsUp : c < e.world.nextId →
    .close c ∈ e.code ∨ ∃ entry ∈ e.posts c, entry.callback = .close c
  fresh : e.world.nextId ≤ c → e.asked c = []

/-- A step that makes no connection. -/
theorem Told.of_quiet (h : Told localtime c e) {worldAction : World.Action τ}
    (hstep : e.world.step worldAction = .next e'.world)
    (hnot : ∀ thread fd callbacks, worldAction ≠ .user thread (.onNewConnection fd callbacks))
    (hclose : .close c ∈ e.code → .close c ∈ e'.code ∨
      ∃ thread, worldAction = .user thread (.close c))
    (hasked : e'.asked c = e.asked c) : Told localtime c e' := by
  have hmoves := World.moves_of_step hstep
  have hnext := World.nextId_of_moves hmoves hnot
  refine ⟨fun hlt => hasked ▸ h.line (hnext ▸ hlt), fun hlt => ?_,
    fun hle => hasked.trans (h.fresh (hnext ▸ hle))⟩
  rcases h.hangsUp (hnext ▸ hlt) with hmem | ⟨entry, hentry, hcallback⟩
  · rcases hclose hmem with hmem' | ⟨thread, rfl⟩
    · exact Or.inl hmem'
    · refine Or.inr ⟨e.world.loop.entry thread (.close c), ?_, rfl⟩
      have htrail : e'.world.trail c =
          [.posted (e.world.loop.entry thread (.close c))] ++ e.world.trail c := by
        rw [World.close_eq_next hstep]
        refine World.trail_of_self rfl fun event hevent => ?_
        rw [List.mem_singleton.mp hevent]
        rfl
      rw [posts, htrail, World.postsOf_append]
      exact List.mem_append_right _ List.mem_cons_self
  · exact Or.inr ⟨entry, World.mem_posts_of_moves hmoves hentry, hcallback⟩

/-- A connection is made. -/
theorem Told.of_register (h : Told localtime c e) {fd : ℤ} {timestamp : UInt64}
    {callbacks : Callbacks}
    (hstep : e.world.step (.user e.world.loop.pthreadId (.onNewConnection fd callbacks)) =
      .next e'.world)
    (hcode : e'.code = [.writeData e.world.nextId (timeLine localtime timestamp),
      .close e.world.nextId])
    (hnil : e.code = []) (hasked : e'.asked c = e.asked c ++ e'.dueFor c) :
    Told localtime c e' := by
  have hmoves := World.moves_of_step hstep
  have hnext : e'.world.nextId = e.world.nextId + 1 := by
    rw [World.onNewConnection_eq_next hstep]
    rfl
  by_cases hc : c = e.world.nextId
  · subst hc
    refine ⟨fun _ => ⟨timestamp, ?_⟩, fun _ => Or.inl (by simp [hcode]), fun hle => ?_⟩
    · rw [hasked, h.fresh le_rfl, dueFor, hcode]
      simp [Call.bytesTo]
    · rw [hnext] at hle
      exact absurd hle (Nat.not_succ_le_self _)
  · have hdueFor : e'.dueFor c = [] := by
      rw [dueFor, hcode]
      simp [Call.bytesTo, Ne.symm hc]
    rw [hdueFor, List.append_nil] at hasked
    have hold : c < e'.world.nextId → c < e.world.nextId := by
      rw [hnext]
      exact fun hlt => Nat.lt_of_le_of_ne (Nat.lt_succ_iff.mp hlt) hc
    refine ⟨fun hlt => hasked ▸ h.line (hold hlt), fun hlt => Or.inr ?_,
      fun hle => hasked.trans (h.fresh (Nat.le_trans hmoves.nextId_le hle))⟩
    obtain ⟨entry, hentry, hcallback⟩ := (h.hangsUp (hold hlt)).resolve_left (by simp [hnil])
    exact ⟨entry, World.mem_posts_of_moves hmoves hentry, hcallback⟩

theorem reach_told {ok : Service τ → Action τ → Prop}
    (h : (machine (datetimeServer localtime)).Reach ok e) : Told localtime c e := by
  refine h.invariant (Told localtime c) ?_ ?_
  · rintro _ ⟨thread, rfl⟩
    have hnone : ¬ c < (new thread : Service τ).world.nextId := Nat.not_lt_zero c
    exact ⟨fun hlt => absurd hlt hnone, fun hlt => absurd hlt hnone, fun _ => rfl⟩
  · intro source action target hsource hold _ hstep
    obtain ⟨worldAction, haction, hnext, hcode, -, -, hasked⟩ := step_eq_next hstep
    cases action with
    | library action =>
        simp only [Service.worldAction, Option.ite_none_right_eq_some,
          Option.some.injEq] at haction
        obtain ⟨hlibrary, rfl⟩ := haction
        have hsame : target.code = source.code := hcode.trans (List.append_nil _)
        refine hold.of_quiet hnext (fun thread fd callbacks huser => ?_)
          (fun hmem => Or.inl (hsame ▸ hmem)) ((hasked c).trans (List.append_nil _))
        subst huser
        exact hlibrary.elim
    | read data =>
        simp only [Service.worldAction, Option.ite_none_right_eq_some,
          Option.some.injEq] at haction
        obtain ⟨⟨hnil, -⟩, rfl⟩ := haction
        have hentered : source.entered (datetimeServer localtime) (.read data) = [] := by
          simp only [entered]
          split
          · rfl
          · exact ite_self _
        refine hold.of_quiet hnext (by simp) (by simp [hnil]) ?_
        rw [hasked, hentered, List.flatMap_nil, List.append_nil]
    | user =>
        obtain ⟨call, hcall, rfl⟩ := Option.map_eq_some_iff.mp haction
        obtain ⟨rest, hrest⟩ := List.head?_eq_some_iff.mp hcall
        obtain ⟨other, horder, -⟩ := reach_sequenced datetimeServer_orderly hsource
        have hplain := horder.plain call (hrest ▸ List.mem_cons_self)
        refine hold.of_quiet hnext ?_ (fun hmem => ?_) ((hasked c).trans (List.append_nil _))
        · rintro thread fd callbacks ⟨⟩
          cases hplain
        · rw [hcode, codeBy, hrest, List.tail_cons]
          rw [hrest] at hmem
          rcases List.mem_cons.mp hmem with rfl | hmem
          · exact Or.inr ⟨_, rfl⟩
          · exact Or.inl hmem
    | register fd timestamp =>
        simp only [Service.worldAction, Option.ite_none_right_eq_some,
          Option.some.injEq] at haction
        obtain ⟨⟨hnil, -⟩, rfl⟩ := haction
        rw [codeBy_register, hnil, List.nil_append] at hcode
        exact hold.of_register hnext hcode hnil (by rw [hasked, dueFor, hcode])
    | release other =>
        simp only [Service.worldAction, Option.ite_none_right_eq_some,
          Option.some.injEq] at haction
        obtain ⟨-, rfl⟩ := haction
        have hsame : target.code = source.code := hcode.trans (List.append_nil _)
        exact hold.of_quiet hnext (by simp) (fun hmem => Or.inl (hsame ▸ hmem))
          ((hasked c).trans (List.append_nil _))

/-- **The datetime server sends its line and hangs up.** In every run whose backlog
on a connection stays within 2^31 bytes and whose growths lose no bytes, its peer is
sent the line of one time, or the first bytes of it.  When the callback has returned
and no task of the connection waits, the server has begun to close it, whatever the
peer does; and a connection that was closed without an error was sent the whole
line. -/
theorem datetime_line_is_sent (localtime : ℕ → Tm) (e : Service τ) (c : ConnId)
    (h : (machine (datetimeServer localtime)).Reach (Keeps (datetimeServer localtime) c) e)
    (hc : c < e.world.nextId) :
    ∃ timestamp, e.wire c <+: (timeLine localtime timestamp).map some ∧
      ∀ conn, e.world.conns c = some conn →
        (e.code = [] →
          (∀ task ∈ e.world.loop.localTasks, task.callback.target ≠ some c) →
            conn.state = .disconnecting ∨ conn.state = .closed) ∧
        (Unforced (e.world.trail c) → conn.state = .closed →
          e.wire c = (timeLine localtime timestamp).map some) := by
  have hkept := reach_kept datetimeServer_orderly h
  have htold : Told localtime c e := reach_told h
  obtain ⟨timestamp, hasked⟩ := htold.line hc
  obtain ⟨hsent, hall⟩ := wire_of_asked datetimeServer_orderly h
  rw [hasked] at hsent hall
  refine ⟨timestamp, hsent, fun conn hconn => ⟨fun hnil hnone => ?_, fun hnot hclosed =>
    (hall conn hconn hnot).2 hclosed⟩⟩
  obtain ⟨entry, hentry, hcallback⟩ := (htold.hangsUp hc).resolve_left (by simp [hnil])
  rw [hkept.posts_eq (reach_world h)] at hentry
  rcases List.mem_append.mp hentry with hran | hwaits
  · exact hkept.hungUp conn hconn ⟨entry, hran, hcallback⟩
  · obtain ⟨hmem, htarget⟩ := List.mem_filter.mp hwaits
    exact absurd (by simpa using htarget) (hnone entry hmem)

/-- The output buffer still holds the line when the first `close` is run. -/
theorem datetime_line_is_sent_of_one_peer :
    ∃ (e : Service ℕ) (conn : Connection) (timestamp : UInt64),
      (machine (datetimeServer Timestamp.firstDay)).Reach
        (Keeps (datetimeServer Timestamp.firstDay) 0) e ∧
      e.world.conns 0 = some conn ∧ conn.state = .closed ∧
      e.wire 0 = (timeLine Timestamp.firstDay timestamp).map some := by
  have hnew : (machine (datetimeServer Timestamp.firstDay)).Reach
      (Keeps (datetimeServer Timestamp.firstDay) 0) (new 0 : Service ℕ) := .init ⟨0, rfl⟩
  obtain ⟨e, hreach, hnamed, hnot, conn, hconn, hclosed⟩ := hnew.exists_of_leads
    [.library (.loop (.enterRun 0)), .library (.loop .testRunning),
      .library (.epollWait [.other]), .register 5 61000007, .user, .user, .library .returns,
      .library (.exec 0), .release 0, .library .returns, .library (.loop .swapPending),
      .library (.loop .endBatch), .library .call, .library .callReturns, .library .call,
      .library .callReturns, .library (.exec 0), .library .endIteration,
      .library (.loop .testRunning), .library (.epollWait [.source 5 4]), .library (.exec 0),
      .library (.exec 27), .library (.loop .swapPending), .library (.loop .endBatch),
      .library .call]
    (P := fun e => 0 < e.world.nextId ∧ (∀ event ∈ e.world.trail 0, event.isForced = false) ∧
      ∃ conn ∈ e.world.conns 0, conn.state = .closed)
    (by decide)
  obtain ⟨timestamp, -, hsent⟩ := datetime_line_is_sent Timestamp.firstDay e 0 hreach hnamed
  exact ⟨e, conn, timestamp, hreach, hconn, hclosed, (hsent conn hconn).2 hnot hclosed⟩

end Service

end Mutiplex
