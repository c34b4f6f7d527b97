/-
# The runs of a program

Every step of an orderly program keeps `Kept`.  The calls of a callback post their
tasks behind the ones already posted, and a `write` that is due is refused only
when the connection was forced closed.
-/

import Mutiplex.Service.Kept

namespace Mutiplex

open CMemory Transition

variable {τ : Type} [DecidableEq τ]

namespace World

variable {w w' : World τ} {thread : τ} {c : ConnId}

theorem writeData_eq_next {data : List UInt8}
    (h : w.step (.user thread (.writeData c data)) = .next w') :
    ∃ conn, w.conns c = some conn ∧ (conn.isClosed = true ∧ w' = w ∨
      conn.isClosed = false ∧ w' = w.post thread (.writeData c data)) := by
  simp only [step] at h
  split at h
  · simp only [userCall] at h
    split at h
    · unfold write at h
      split at h
      · cases h
      · rename_i conn hconn
        refine ⟨conn, hconn, ?_⟩
        cases hclosed : conn.isClosed with
        | true =>
            rw [if_pos hclosed] at h
            cases h
            exact Or.inl ⟨rfl, rfl⟩
        | false =>
            rw [if_neg (by simp [hclosed])] at h
            split at h <;> cases h
            exact Or.inr ⟨rfl, rfl⟩
    · cases h
  · cases h

theorem close_eq_next (h : w.step (.user thread (.close c)) = .next w') :
    w' = w.post thread (.close c) := by
  simp only [step] at h
  split at h
  · simp only [userCall] at h
    split at h <;> cases h
    rfl
  · cases h

/-- These calls leave the queues of the loop alone. -/
theorem loop_of_user {call : Call}
    (hcall : (∃ fd callbacks, call = .onNewConnection fd callbacks) ∨ (∃ c, call = .drop c) ∨
      ∃ c callbacks, call = .setCallbacks c callbacks)
    (h : w.step (.user thread call) = .next w') : w'.loop = w.loop := by
  simp only [step] at h
  split at h
  · rcases hcall with ⟨fd, callbacks, rfl⟩ | ⟨c, rfl⟩ | ⟨c, callbacks, rfl⟩
    · simp only [userCall] at h
      split at h <;> cases h
      rfl
    · simp only [userCall] at h
      split at h <;> cases h
      rw [loop_release]
    · simp only [userCall] at h
      split at h
      · split at h <;> cases h
        rfl
      · cases h
  · cases h

theorem onNewConnection_eq_next {fd : ℤ} {callbacks : Callbacks}
    (h : w.step (.user thread (.onNewConnection fd callbacks)) = .next w') :
    w' = w.onNewConnection fd callbacks := by
  simp only [step] at h
  split at h
  · simp only [userCall] at h
    split at h <;> cases h
    rfl
  · cases h

end World

namespace Service

variable {program : Program} {e e' : Service τ} {action : Action τ} {c : ConnId}

/-! ## The calls of a callback -/

/-- As long as a write is due no `close` has been asked for, so it is accepted
unless the connection was forced closed. -/
theorem Kept.isClosed_eq_false (h : Kept program c e)
    (hreach : World.machine.Reach Machine.anyStep e.world) {data : List UInt8}
    (hdue : .writeData c data ∈ e.code) {conn : Connection} (hconn : e.world.conns c = some conn)
    (hnot : Unforced (e.world.trail c)) : conn.isClosed = false := by
  have hnone := h.due data hdue
  by_contra hclosed
  rw [Bool.not_eq_false, Connection.isClosed, decide_eq_true_eq] at hclosed
  rcases hclosed with hstate | hstate
  · obtain ⟨entry, hentry, hcallback⟩ := h.closed conn hconn hnot hstate
    refine hnone entry ?_ hcallback
    rw [h.posts_eq hreach]
    exact List.mem_append_left _ hentry
  · obtain ⟨entry, hentry, hcallback⟩ := h.disconnecting conn hconn hstate
    exact hnone entry hentry hcallback

/-- The task that a call posts. -/
inductive Posts (c : ConnId) : Call → Task → Prop
  | writeData (data : List UInt8) : Posts c (.writeData c data) (.writeData c data)
  | close : Posts c (.close c) (.close c)

/-- A call posts its task, the last one of the connection.  A write is accepted on
an open connection. -/
theorem Kept.of_post (h : Kept program c e) {worldAction : World.Action τ}
    {task : Task} {call : Call} {rest : List Call} (htask : Posts c call task)
    (hmoves : World.Moves e.world worldAction e'.world)
    (hworld : e'.world = e.world.post e.world.loop.pthreadId task)
    (hcode : e.code = call :: rest) (horder : Call.InOrder c e.code)
    (hnever : program.NeverCloses → .close c ∉ e.code) (hcode' : e'.code = rest)
    (hasked : e'.asked c = e.asked c)
    (hopen : task.isWrite = true →
      ∃ conn, e.world.conns c = some conn ∧ Unforced (e.world.trail c)) :
    Kept program c e' := by
  have hhistory : e'.world.history =
      [.posted (e.world.loop.entry e.world.loop.pthreadId task)] ++ e.world.history := by
    rw [hworld]
    rfl
  have hconns : e'.world.conns = e.world.conns := by
    rw [hworld]
    rfl
  have htrail : e'.world.trail c =
      [.posted (e.world.loop.entry e.world.loop.pthreadId task)] ++ e.world.trail c := by
    refine World.trail_of_self hhistory fun event hevent => ?_
    rw [List.mem_singleton.mp hevent]
    cases htask <;> rfl
  have hposts : e'.posts c =
      e.posts c ++ [e.world.loop.entry e.world.loop.pthreadId task] := by
    rw [posts, htrail, World.postsOf_append]
    rfl
  have hposted : e'.posted c = e.posted c ++ task.bytes := by
    rw [posted, hposts, List.flatMap_append]
    simp [posted, EventLoop.entry]
  have hruns : World.runsOf (e'.world.trail c) = World.runsOf (e.world.trail c) := by
    rw [htrail, World.runsOf_append]
    exact List.append_nil _
  have hchunks : World.chunksOf (e'.world.trail c) = World.chunksOf (e.world.trail c) := by
    rw [htrail, World.chunksOf_append]
    exact List.append_nil _
  have hunforced : Unforced (e'.world.trail c) → Unforced (e.world.trail c) :=
    fun hnot => Unforced.of_append (htrail ▸ hnot)
  have hdueFor : e.dueFor c = task.bytes ++ e'.dueFor c := by
    rw [dueFor, hcode, List.flatMap_cons, dueFor, hcode']
    cases htask <;> simp [Call.bytesTo, Task.bytes]
  have hall : ∀ conn, e.world.conns c = some conn → Unforced (e.world.trail c) →
      e'.posted c ++ e'.dueFor c = e'.asked c := by
    intro conn hconn hnot
    rw [hposted, List.append_assoc, ← hdueFor, hasked, h.all conn hconn hnot]
  have hmem : ∀ entry ∈ e'.posts c, entry ∈ e.posts c ∨
      entry = e.world.loop.entry e.world.loop.pthreadId task := by
    rw [hposts]
    simp
  have hfirst : ∀ later ∈ rest, call = .close c → later.isWrite = false :=
    (List.pairwise_cons.mp (hcode ▸ horder.order : (call :: rest).Pairwise _)).1
  refine {
    onLoop := fun entry hentry => ?_
    writes := fun entry hentry hwrite => ?_
    order := ?_
    deaf := fun hnot entry hentry hclose => ?_
    sent := ?_
    all := fun conn hconn hnot => hall conn (hconns ▸ hconn) (hunforced hnot)
    due := fun data hdata entry hentry hclose => ?_
    closed := fun conn hconn hnot => hruns ▸ h.closed conn (hconns ▸ hconn) (hunforced hnot)
    disconnecting := fun conn hconn hstate => ?_
    hungUp := fun conn hconn hran => h.hungUp conn (hconns ▸ hconn) (hruns ▸ hran)
    complete := fun hnot => by
      rw [hchunks, hruns]
      exact h.complete (hunforced hnot)
    fresh := fun hle => ?_ }
  · rcases hmem entry hentry with hold | rfl
    · exact h.onLoop entry hold
    · simp [EventLoop.entry]
  · rcases hmem entry hentry with hold | rfl
    · exact h.writes entry hold hwrite
    · cases htask with
      | writeData data => exact ⟨data, rfl⟩
      | close => cases hwrite
  · rw [hposts, List.pairwise_append]
    refine ⟨h.order, List.pairwise_singleton _ _, fun earlier hearlier later hlater hclose => ?_⟩
    rw [List.mem_singleton.mp hlater]
    cases htask with
    | writeData data =>
        exact absurd hclose (h.due data (hcode ▸ List.mem_cons_self) earlier hearlier)
    | close => rfl
  · rcases hmem entry hentry with hold | rfl
    · exact (h.deaf hnot entry hold hclose).moves hmoves
    · cases htask with
      | writeData data => cases hclose
      | close => exact absurd (hcode ▸ List.mem_cons_self) (hnever hnot)
  · cases htask with
    | writeData data =>
        obtain ⟨conn, hconn, hnot⟩ := hopen rfl
        exact ⟨_, hall conn hconn hnot⟩
    | close =>
        have hsame : e'.posted c = e.posted c := hposted.trans (List.append_nil _)
        rw [hsame, hasked]
        exact h.sent
  · rw [hcode'] at hdata
    rcases hmem entry hentry with hold | rfl
    · exact h.due data (hcode ▸ List.mem_cons_of_mem _ hdata) entry hold hclose
    · cases htask with
      | writeData data => cases hclose
      | close => cases hfirst _ hdata rfl
  · obtain ⟨earlier, hearlier, hclose⟩ := h.disconnecting conn (hconns ▸ hconn) hstate
    exact ⟨earlier, by rw [hposts]; exact List.mem_append_left _ hearlier, hclose⟩
  · have hplain := horder.plain call (hcode ▸ List.mem_cons_self)
    exact absurd hplain
      ((h.fresh (Nat.le_trans hmoves.nextId_le hle)).2 call (hcode ▸ List.mem_cons_self))

/-- The next call of the callback that runs. -/
theorem Kept.user (h : Kept program c e) (hreach : World.machine.Reach Machine.anyStep e.world)
    (hsequenced : e.Sequenced program)
    (hforced : ∀ conn, e.world.conns c = some conn → conn.isClosed = false →
      Unforced (e.world.trail c)) {call : Call} {rest : List Call}
    (hcode : e.code = call :: rest)
    (hstep : e.world.step (.user e.world.loop.pthreadId call) = .next e'.world)
    (hcode' : e'.code = rest) (hasked : e'.asked c = e.asked c) : Kept program c e' := by
  have hmoves := World.moves_of_step hstep
  have hsub : ∀ call ∈ e'.code, call.Plain c → call ∈ e.code :=
    fun call hcall _ => hcode ▸ List.mem_cons_of_mem _ (hcode' ▸ hcall)
  have hdueFor : e.dueFor c = call.bytesTo c ++ e'.dueFor c := by
    rw [dueFor, hcode, List.flatMap_cons, dueFor, hcode']
  have hfirst : call ∈ e.code := hcode ▸ List.mem_cons_self
  obtain ⟨other, horder, hnever⟩ := hsequenced
  -- The call of a callback of another connection posts nothing on this one.
  have hother : c ≠ other → e'.dueFor c = e.dueFor c := by
    intro hne
    have hnil : e.dueFor c = [] := Call.bytesTo_of_ne horder hne
    rw [hnil]
    exact (List.append_eq_nil_iff.mp (hdueFor.symm.trans hnil)).2
  have hpost : ∀ task, Posts other call task →
      e'.world = e.world.post e.world.loop.pthreadId task →
      (task.isWrite = true → ∃ conn, e.world.conns other = some conn ∧ conn.isClosed = false) →
      Kept program c e' := by
    intro task htask hworld hopen
    by_cases hc : c = other
    · subst hc
      refine h.of_post htask hmoves hworld hcode horder hnever hcode' hasked fun hwrite => ?_
      obtain ⟨conn, hconn, hopen⟩ := hopen hwrite
      exact ⟨conn, hconn, hforced conn hconn hopen⟩
    · have hhistory : e'.world.history =
          [.posted (e.world.loop.entry e.world.loop.pthreadId task)] ++ e.world.history := by
        rw [hworld]
        rfl
      have hconns : e'.world.conns = e.world.conns := by
        rw [hworld]
        rfl
      refine h.of_same hmoves (World.trail_of_ne hhistory ?_ hc) (by rw [hconns]) hasked
        (fun _ _ _ => hother hc) hsub
      intro event hevent
      rw [List.mem_singleton.mp hevent]
      cases htask <;> rfl
  cases horder.plain call hfirst with
  | writeData data =>
      obtain ⟨conn, hconn, ⟨hclosed, hworld⟩ | ⟨hopen, hworld⟩⟩ := World.writeData_eq_next hstep
      · refine h.of_same hmoves (by rw [hworld]) (by rw [hworld]) hasked
          (fun conn' hconn' hnot => ?_) hsub
        by_cases hc : c = other
        · subst hc
          cases hconn.symm.trans hconn'
          cases hclosed.symm.trans (h.isClosed_eq_false hreach hfirst hconn hnot)
        · exact hother hc
      · exact hpost _ (.writeData data) hworld fun _ => ⟨conn, hconn, hopen⟩
  | setCallbacks callbacks =>
      refine h.of_no_job hstep rfl (fun _ _ huser => ?_) (fun _ _ _ huser => ?_) hasked
        hdueFor.symm hsub
      · cases huser
        exact World.loop_of_user (Or.inr (Or.inr ⟨other, callbacks, rfl⟩)) hstep
      · cases huser
  | close => exact hpost _ .close (World.close_eq_next hstep) (by simp [Task.isWrite])

/-! ## Steps -/

omit [DecidableEq τ] in
/-- What `read_callback_` calls. -/
theorem entered_read (horderly : program.Orderly) {data : List UInt8} {other : ConnId}
    (hreader : e.reader data.length = some other) :
    Call.InOrder other (e.entered program (.read data)) ∧
      (program.NeverCloses → .close other ∉ e.entered program (.read data)) ∧
      ∀ call ∈ e.entered program (.read data), call.isWrite = true → program.NeverCloses := by
  simp only [entered, hreader]
  split
  · refine ⟨horderly.read other data, fun hnever => (hnever other).2 data,
      fun call hcall hwrite => ?_⟩
    rcases horderly.quiet with hnever | hquiet
    · exact hnever
    · cases (hquiet other data call hcall).symm.trans hwrite
  · exact ⟨Call.inOrder_nil, by simp, by simp⟩

omit [DecidableEq τ] in
/-- What `established_callback_` calls. -/
theorem entered_register (horderly : program.Orderly) (fd : ℤ) (timestamp : UInt64) :
    Call.InOrder e.world.nextId (e.entered program (.register fd timestamp)) ∧
      (program.NeverCloses →
        .close e.world.nextId ∉ e.entered program (.register fd timestamp)) := by
  simp only [entered]
  split
  · exact ⟨horderly.established _ timestamp, fun hnever => (hnever _).1 timestamp⟩
  · exact ⟨Call.inOrder_nil, by simp⟩

/-- The callbacks of an orderly program keep the calls in order. -/
theorem Sequenced.step (h : e.Sequenced program) (horderly : program.Orderly)
    (hstep : e.step program action = .next e') : e'.Sequenced program := by
  obtain ⟨worldAction, haction, -, hcode, -⟩ := step_eq_next hstep
  obtain ⟨other, horder, hnever⟩ := h
  cases action with
  | read data =>
      simp only [Service.worldAction, Option.ite_none_right_eq_some] at haction
      obtain ⟨⟨hnil, -, -, hreader⟩, -⟩ := haction
      obtain ⟨reading, hreading⟩ := Option.isSome_iff_exists.mp hreader
      obtain ⟨horder', hnever', -⟩ := entered_read horderly hreading
      refine ⟨reading, ?_⟩
      rw [hcode, codeBy_read, hnil, List.nil_append]
      exact ⟨horder', hnever'⟩
  | user =>
      refine ⟨other, ?_⟩
      rw [hcode, codeBy]
      refine ⟨?_, fun hnot hclose => hnever hnot (List.mem_of_mem_tail hclose)⟩
      cases hcalls : e.code with
      | nil => exact Call.inOrder_nil
      | cons call rest => exact (hcalls ▸ horder : Call.InOrder other (call :: rest)).tail
  | register fd timestamp =>
      simp only [Service.worldAction, Option.ite_none_right_eq_some] at haction
      obtain ⟨⟨hnil, -⟩, -⟩ := haction
      refine ⟨e.world.nextId, ?_⟩
      rw [hcode, codeBy_register, hnil, List.nil_append]
      exact entered_register horderly fd timestamp
  | _ =>
      refine ⟨other, ?_⟩
      rw [hcode, codeBy, entered, List.append_nil]
      · exact ⟨horder, hnever⟩
      all_goals simp

/-- A step of the library alone. -/
theorem Kept.library (h : Kept program c e)
    (hreach : World.machine.Reach Machine.anyStep e.world)
    {worldAction : World.Action τ} (hlibrary : e.IsLibrary worldAction)
    (hstep : e.world.step worldAction = .next e'.world)
    (hcode : e'.code = e.code) (hasked : e'.asked c = e.asked c) : Kept program c e' := by
  have hdueFor : e'.dueFor c = e.dueFor c := by rw [dueFor, hcode, dueFor]
  cases hjob : e.world.job worldAction with
  | none =>
      refine h.of_no_job hstep hjob (fun _ _ huser => ?_) (fun _ _ _ huser => ?_) hasked hdueFor
        fun call hcall _ => hcode ▸ hcall
      · subst huser
        exact hlibrary.elim
      · subst huser
        exact hlibrary.elim
  | some run =>
      obtain ⟨other, job⟩ := run
      have hnil : e.code = [] := by
        cases worldAction with
        | exec n => exact hlibrary.1
        | call => exact hlibrary
        | _ => cases hjob
      have hnil' : e'.code = [] := hcode.trans hnil
      by_cases hc : c = other
      · subst hc
        refine h.of_job hreach hstep hjob hnil ?_ (by simp [hnil'])
        rw [hasked, dueFor_of_nil hnil', List.append_nil]
      · exact h.of_other_job hstep hjob hc hnil (hnil' ▸ Call.inOrder_nil) hasked

/-- Bytes are read, and `read_callback_` is called if it is set. -/
theorem Kept.read (h : Kept program c e) (hreach : World.machine.Reach Machine.anyStep e.world)
    (horderly : program.Orderly) {data : List UInt8} {other : ConnId} (hnil : e.code = [])
    (hsome : 0 < data.length) (hreader : e.reader data.length = some other)
    (hstep : e.world.step (.exec data.length) = .next e'.world)
    (hcode : e'.code = e.entered program (.read data))
    (hasked : e'.asked c = e.asked c ++ e'.dueFor c) : Kept program c e' := by
  have hjob := reader_eq_some hreader
  obtain ⟨horder, -, hquiet⟩ := entered_read horderly hreader
  rw [← hcode] at horder hquiet
  by_cases hc : c = other
  · subst hc
    exact h.of_job hreach hstep hjob hnil hasked fun bytes hwrite =>
      ⟨hquiet _ hwrite rfl, _, Int.natCast_pos.mpr hsome, rfl⟩
  · refine h.of_other_job hstep hjob hc hnil horder ?_
    rw [hasked, dueFor, Call.bytesTo_of_ne horder hc, List.append_nil]

/-- A connection is made, and `established_callback_` is called if it is set. -/
theorem Kept.register (h : Kept program c e)
    (hreach : World.machine.Reach Machine.anyStep e.world) (horderly : program.Orderly) {fd : ℤ}
    {timestamp : UInt64}
    (hnil : e.code = [])
    (hstep : e.world.step (.user e.world.loop.pthreadId
      (.onNewConnection fd program.callbacks)) = .next e'.world)
    (hcode : e'.code = e.entered program (.register fd timestamp))
    (hasked : e'.asked c = e.asked c ++ e'.dueFor c) : Kept program c e' := by
  have horder := (entered_register (e := e) horderly fd timestamp).1
  rw [← hcode] at horder
  by_cases hc : c = e.world.nextId
  · subst hc
    refine kept_of_born hreach (World.onNewConnection_eq_next hstep) ?_
    rw [hasked, (h.fresh le_rfl).1, List.nil_append]
  · have hdueFor : e'.dueFor c = [] := Call.bytesTo_of_ne horder hc
    refine h.of_no_job hstep rfl (fun _ _ huser => ?_) (fun _ _ _ _ => hc) ?_ ?_
      fun call hcall hplain => absurd (hplain.eq (horder.plain call hcall)) hc
    · cases huser
      exact World.loop_of_user (Or.inl ⟨fd, _, rfl⟩) hstep
    · rw [hasked, hdueFor, List.append_nil]
    · rw [hdueFor, dueFor_of_nil hnil]

/-- Every step keeps it. -/
theorem Kept.step (h : Kept program c e) (horderly : program.Orderly)
    (hsequenced : e.Sequenced program)
    (hnoted : World.Noted [] World.tap (World.Keeps c) e.world e.wire)
    (hstep : e.step program action = .next e') : Kept program c e' := by
  have hreach : World.machine.Reach Machine.anyStep e.world := (Machine.Watched.reach hnoted).any
  obtain ⟨worldAction, haction, hnext, hcode, -, -, hasked⟩ := step_eq_next hstep
  cases action with
  | library action =>
      simp only [Service.worldAction, Option.ite_none_right_eq_some, Option.some.injEq] at haction
      obtain ⟨hlibrary, rfl⟩ := haction
      exact h.library hreach hlibrary hnext (hcode.trans (List.append_nil _))
        ((hasked c).trans (List.append_nil _))
  | read data =>
      simp only [Service.worldAction, Option.ite_none_right_eq_some, Option.some.injEq] at haction
      obtain ⟨⟨hnil, hsome, -, hreader⟩, rfl⟩ := haction
      obtain ⟨other, hother⟩ := Option.isSome_iff_exists.mp hreader
      rw [codeBy_read, hnil, List.nil_append] at hcode
      exact h.read hreach horderly hnil hsome hother hnext hcode
        (by rw [hasked, dueFor, hcode])
  | user =>
      obtain ⟨call, hcall, rfl⟩ := Option.map_eq_some_iff.mp haction
      obtain ⟨rest, hrest⟩ := List.head?_eq_some_iff.mp hcall
      refine h.user hreach hsequenced (fun conn hconn hopen event hevent => ?_) hrest hnext
        (by rw [hcode, codeBy, hrest, List.tail_cons]) ((hasked c).trans (List.append_nil _))
      by_contra hforced
      have hclosed := (World.Keeps.tracks hnoted).forced conn hconn event hevent
        (by simpa using hforced)
      simp [Connection.isClosed, hclosed] at hopen
  | register fd timestamp =>
      simp only [Service.worldAction, Option.ite_none_right_eq_some, Option.some.injEq] at haction
      obtain ⟨⟨hnil, -⟩, rfl⟩ := haction
      rw [codeBy_register, hnil, List.nil_append] at hcode
      exact h.register hreach horderly hnil hnext hcode (by rw [hasked, dueFor, hcode])
  | release other =>
      simp only [Service.worldAction, Option.ite_none_right_eq_some, Option.some.injEq] at haction
      obtain ⟨-, rfl⟩ := haction
      have hsame : e'.code = e.code := hcode.trans (List.append_nil _)
      refine h.of_no_job hnext rfl (fun _ _ huser => ?_) (fun _ _ _ huser => ?_)
        ((hasked c).trans (List.append_nil _)) (by rw [dueFor, hsame, dueFor])
        fun call hcall _ => hsame ▸ hcall
      · cases huser
        exact World.loop_of_user (Or.inr (Or.inl ⟨other, rfl⟩)) hnext
      · cases huser

/-! ## Runs -/

theorem reach_sequenced {ok : Service τ → Action τ → Prop} (horderly : program.Orderly)
    (h : (machine program).Reach ok e) : e.Sequenced program := by
  refine h.invariant (Sequenced program) ?_ ?_
  · rintro _ ⟨thread, rfl⟩
    exact ⟨0, Call.inOrder_nil, by simp [new]⟩
  · exact fun source action target _ hsequenced _ hstep => hsequenced.step horderly hstep

theorem reach_kept (horderly : program.Orderly) (h : (machine program).Reach (Keeps program c) e) :
    Kept program c e := by
  refine h.invariant (Kept program c) ?_ ?_
  · rintro _ ⟨thread, rfl⟩
    have hnil : (new thread : Service τ).posts c = [] := rfl
    refine {
      onLoop := by simp [hnil]
      writes := by simp [hnil]
      order := by simp [hnil]
      deaf := by simp [hnil]
      sent := by simp [posted, hnil]
      all := by rintro _ ⟨⟩
      due := by simp [hnil]
      closed := by rintro _ ⟨⟩
      disconnecting := by rintro _ ⟨⟩
      hungUp := by rintro _ ⟨⟩
      complete := fun _ => rfl
      fresh := fun _ => ⟨rfl, by simp [new]⟩ }
  · exact fun source action target hreach hkept _ hstep =>
      hkept.step horderly (reach_sequenced horderly hreach) (reach_noted hreach) hstep

end Service

end Mutiplex
