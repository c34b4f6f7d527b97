/-
# Owners

A connection that something owns exists: a pointer is only made from another
one, and the object goes when the last one does.  So a queued task that captured
a shared pointer finds its connection.  The task of `write(const void*,
uint32_t)` captured `this` only; it finds its connection exactly as long as no
connection loses its last owner while such a task of it waits.
-/

import Mutiplex.Connection.Steps

namespace Mutiplex

open CMemory Transition

variable {τ : Type} [DecidableEq τ]

namespace World

variable {w w' : World τ} {action : Action τ} {c : ConnId}

/-! ## What is owned exists -/

/-- Whatever is owned exists. -/
def Alive (w : World τ) : Prop := ∀ c, w.Owned c → ∃ conn, w.conns c = some conn

theorem captured_eq_some {task : Task} (h : task.captured = some c) : task.target = some c := by
  cases task <;> simp_all [Task.captured, Task.target]

/-- A post adds the owner that the task captures. -/
theorem owned_of_post {loop : EventLoop τ Task} {thread : τ} {task : Task}
    (h : { w with loop := loop.postCallback thread task }.Owned c) :
    { w with loop := loop }.Owned c ∨ task.captured = some c := by
  rcases h with hmap | hheld | hframe | ⟨entry, hentry, hcaptured⟩
  · exact Or.inl (Or.inl hmap)
  · exact Or.inl (Or.inr (Or.inl hheld))
  · exact Or.inl (Or.inr (Or.inr (Or.inl hframe)))
  · rcases EventLoop.mem_entries_postCallback thread task hentry with hold | rfl
    · exact Or.inl (Or.inr (Or.inr (Or.inr ⟨entry, hold, hcaptured⟩)))
    · exact Or.inr hcaptured

/-- A job gives new owners to its own connection only. -/
theorem owned_of_apply {conn : Connection} {table : Epoll ConnId} {registered : Bool}
    {entry : Option (Posted τ Task)} {job : Job} {found : ConnState} {effect : Effect}
    {other : ConnId} (h : (w.apply entry c job found effect).Owned other)
    (hran : conn.Ran c table registered job effect) : other = c ∨ w.Owned other := by
  have hstack : Frame.inside (some other) ∈ (w.apply entry c job found effect).stack →
      other = c ∨ Frame.inside (some other) ∈ w.stack := by
    intro hframe
    simp only [apply, List.mem_append, Option.mem_toList, Option.map_eq_some_iff] at hframe
    rcases hframe with (⟨callback, -, heq⟩ | hafter) | hold
    · cases heq
      exact Or.inl rfl
    · rcases hran.after_eq hafter with heq | heq <;> cases heq
    · exact Or.inr hold
  have hentries : ∀ e ∈ (w.apply entry c job found effect).loop.entries,
      e.callback.captured = some other → other = c ∨ e ∈ w.loop.entries := by
    intro e he hcaptured
    rcases loop_apply entry c job found effect with heq | ⟨task, hpost, heq⟩
    · exact Or.inr (heq ▸ he)
    · rw [heq] at he
      rcases EventLoop.mem_entries_postCallback _ task he with hold | rfl
      · exact Or.inr hold
      · left
        have htarget : task.target = some other := captured_eq_some hcaptured
        rcases hran.post_eq hpost with rfl | rfl <;> cases htarget <;> rfl
  rcases h with hmap | hheld | hframe | ⟨e, he, hcaptured⟩
  · exact Or.inr (Or.inl hmap)
  · exact Or.inr (Or.inr (Or.inl hheld))
  · exact (hstack hframe).imp id fun hold => Or.inr (Or.inr (Or.inl hold))
  · exact (hentries e he hcaptured).imp id fun hold =>
      Or.inr (Or.inr (Or.inr ⟨e, hold, hcaptured⟩))

/-- Changing one connection into another one keeps it alive. -/
theorem exists_update {conns : ConnId → Option Connection} {conn : Connection} {other : ConnId}
    (h : other = c ∨ ∃ old, conns other = some old) :
    ∃ new, Function.update conns c (some conn) other = some new := by
  by_cases hc : other = c
  · exact ⟨conn, by rw [hc, Function.update_self]⟩
  · obtain ⟨old, hold⟩ := h.resolve_left hc
    exact ⟨old, by rw [Function.update_of_ne hc, hold]⟩

omit [DecidableEq τ] in
/-- The handlers of what `epoll_wait` reports. -/
theorem mem_readyFrame {events : List Ready} {frame : Frame}
    (h : frame ∈ events.filterMap w.readyFrame) :
    frame = .readNotify ∨ frame = .inside none ∨
      ∃ fd readyOps entry, .source fd readyOps ∈ events ∧ w.epoll fd = some entry ∧
        frame = .events entry.ptr readyOps := by
  obtain ⟨ready, hmem, hready⟩ := List.mem_filterMap.mp h
  cases ready with
  | notify =>
      cases hready
      exact Or.inl rfl
  | other =>
      cases hready
      exact Or.inr (Or.inl rfl)
  | source fd readyOps =>
      obtain ⟨entry, hentry, rfl⟩ := Option.map_eq_some_iff.mp hready
      exact Or.inr (Or.inr ⟨fd, readyOps, entry, hmem, hentry, rfl⟩)

omit [DecidableEq τ] in
theorem not_inside_readyFrame {events : List Ready} :
    Frame.inside (some c) ∉ events.filterMap w.readyFrame := by
  intro hframe
  rcases mem_readyFrame hframe with heq | heq | ⟨_, _, _, -, -, heq⟩ <;> cases heq

omit [DecidableEq τ] in
theorem owned_of_born {fd : ℤ} {callbacks : Callbacks}
    (h : (w.onNewConnection fd callbacks).Owned c) : c = w.nextId ∨ w.Owned c := by
  rcases h with hmap | hheld | hframe | hentry
  · simp only [onNewConnection, List.map_cons, List.mem_cons] at hmap
    rcases hmap with hc | hold
    · exact Or.inl hc
    · exact Or.inr (Or.inl ((List.filter_sublist.map Prod.snd).subset hold))
  · by_cases hc : c = w.nextId
    · exact Or.inl hc
    · right
      right
      left
      simpa only [onNewConnection, Function.update_of_ne hc] using hheld
  · simp only [onNewConnection, List.mem_append, Option.mem_toList,
      Option.map_eq_some_iff] at hframe
    rcases hframe with (⟨old, -, heq⟩ | ⟨callback, -, heq⟩) | hold
    · cases heq
    · cases heq
      exact Or.inl rfl
    · exact Or.inr (Or.inr (Or.inr (Or.inl hold)))
  · exact Or.inr (Or.inr (Or.inr (Or.inr hentry)))

theorem Alive.moves (h : w.Alive) (hmoves : Moves w action w') : w'.Alive := by
  intro c howned
  cases hmoves with
  | loop hstep hpost hcall hstack =>
      exact h c (howned.mono (List.Sublist.refl _) id hstack.inside
        fun _ => EventLoop.mem_entries_of_move (EventLoop.move_of_step hstep) hpost)
  | epollWait hempty hreports hstep =>
      exact h c (howned.mono (List.Sublist.refl _) id
        (fun hframe => absurd hframe not_inside_readyFrame)
        fun _ => EventLoop.mem_entries_of_move (EventLoop.move_of_step hstep) rfl)
  | pointers hconnections howned' => exact h c (howned' c howned)
  | @destroyed _ gone held stack hlost hnot hheld hstack =>
      have hinner : { w with held := held, stack := stack }.Owned c := by
        simpa only [Owned, connections_destroy, held_destroy, stack_destroy, loop_destroy]
          using howned
      have hne : c ≠ gone := by
        rintro rfl
        exact hnot hinner
      obtain ⟨conn, hconn⟩ := h c
        (hinner.mono (List.Sublist.refl _) (hheld c) hstack.inside fun _ => id)
      exact ⟨conn, by rw [conns_destroy, Function.update_of_ne hne, hconn]⟩
  | posted hmay htarget =>
      rcases owned_of_post howned with hold | hcaptured
      · exact h c hold
      · exact h c (htarget c (captured_eq_some hcaptured)).owned
  | setCallbacks hconn => exact exists_update (Or.inr (h c howned))
  | fdClosed => exact h c howned
  | born => exact exists_update ((owned_of_born howned).imp id (h c))
  | exec hidle hstack hjob hconn hanswers hran =>
      refine exists_update ((owned_of_apply howned hran).imp id fun hold => h c ?_)
      refine hold.mono (List.Sublist.refl _) id (fun hframe => ?_) fun _ => id
      rcases List.mem_append.mp hframe with hrest | htail
      · exact absurd hrest not_inside_frameRest
      · exact hstack ▸ List.mem_cons_of_mem _ htail
  | call hempty hcall hnext hstep hjob hconn hanswers hran =>
      refine exists_update ((owned_of_apply howned hran).imp id fun hold => h c ?_)
      exact hold.mono (List.Sublist.refl _) id id fun _ =>
        EventLoop.mem_entries_of_move (EventLoop.move_of_step hstep) (isPost_of_isCall hcall)

theorem reach_alive {ok : World τ → Action τ → Prop} (h : machine.Reach ok w) : w.Alive := by
  refine reach_invariant Alive ?_ ?_ h
  · intro thread c howned
    simp [Owned, new, EventLoop.new, EventLoop.entries] at howned
  · exact fun _ _ _ _ hinv _ hmoves => hinv.moves hmoves

/-! ## Tasks and their connections -/

/-- A step that takes the last owner of a connection away does so when every
task of the connection that still waits has captured it, which is to say that no
task of `write(const void*, uint32_t)` waits. -/
def KeepsWriters (w : World τ) (action : Action τ) : Prop :=
  match w.lost action with
  | none => True
  | some c => ∀ entry ∈ w.loop.unexecuted, entry.callback.target = some c →
      entry.callback.captured = some c

instance (action : Action τ) : Decidable (w.KeepsWriters action) := by
  unfold KeepsWriters
  split <;> infer_instance

/-- The connections of all tasks that wait exist. -/
def TasksAlive (w : World τ) : Prop :=
  ∀ entry ∈ w.loop.unexecuted, ∀ c, entry.callback.target = some c →
    ∃ conn, w.conns c = some conn

/-- A job posts tasks of its own connection only. -/
theorem mem_unexecuted_apply {conn : Connection} {table : Epoll ConnId} {registered : Bool}
    {entry : Option (Posted τ Task)} {job : Job} {found : ConnState} {effect : Effect}
    {waiting : Posted τ Task}
    (h : waiting ∈ (w.apply entry c job found effect).loop.unexecuted) (hqueues : w.loop.Queues)
    (hran : conn.Ran c table registered job effect) :
    waiting ∈ w.loop.unexecuted ∨ waiting.callback.target = some c := by
  rcases loop_apply entry c job found effect with heq | ⟨task, hpost, heq⟩
  · exact Or.inl (heq ▸ h)
  · rw [heq] at h
    rcases EventLoop.mem_unexecuted_postCallback hqueues _ task h with hold | rfl
    · exact Or.inl hold
    · right
      rcases hran.post_eq hpost with rfl | rfl <;> rfl

theorem TasksAlive.moves (h : w.TasksAlive) (halive : w.Alive) (hqueues : w.loop.Queues)
    (hok : w.KeepsWriters action) (hmoves : Moves w action w') : w'.TasksAlive := by
  intro entry hentry c htarget
  cases hmoves with
  | loop hstep hpost =>
      have hmove := EventLoop.move_of_step hstep
      exact h entry (EventLoop.mem_unexecuted_of_move hqueues hmove hpost hentry) c htarget
  | epollWait hempty hreports hstep =>
      have hmove := EventLoop.move_of_step hstep
      exact h entry (EventLoop.mem_unexecuted_of_move hqueues hmove rfl hentry) c htarget
  | pointers => exact h entry hentry c htarget
  | @destroyed _ gone held stack hlost hnot =>
      rw [loop_destroy] at hentry
      simp only [KeepsWriters, hlost] at hok
      have hne : c ≠ gone := by
        rintro rfl
        exact hnot (Or.inr (Or.inr (Or.inr
          ⟨entry, EventLoop.mem_entries_of_unexecuted hentry, hok entry hentry htarget⟩)))
      obtain ⟨conn, hconn⟩ := h entry hentry c htarget
      exact ⟨conn, by rw [conns_destroy, Function.update_of_ne hne, hconn]⟩
  | posted hmay hpointer =>
      rcases EventLoop.mem_unexecuted_postCallback hqueues _ _ hentry with hold | rfl
      · exact h entry hold c htarget
      · exact halive c (hpointer c htarget).owned
  | setCallbacks hconn => exact exists_update (Or.inr (h entry hentry c htarget))
  | fdClosed => exact h entry hentry c htarget
  | born => exact exists_update (Or.inr (h entry hentry c htarget))
  | exec hidle hstack hjob hconn hanswers hran =>
      rcases mem_unexecuted_apply hentry hqueues hran with hold | hself
      · exact exists_update (Or.inr (h entry hold c htarget))
      · exact exists_update (Or.inl (Option.some.inj (htarget.symm.trans hself)))
  | call hempty hcall hnext hstep hjob hconn hanswers hran =>
      have hmove := EventLoop.move_of_step hstep
      rcases mem_unexecuted_apply hentry (hqueues.move hmove) hran with hold | hself
      · refine exists_update (Or.inr (h entry ?_ c htarget))
        exact EventLoop.mem_unexecuted_of_move hqueues hmove (isPost_of_isCall hcall) hold
      · exact exists_update (Or.inl (Option.some.inj (htarget.symm.trans hself)))

theorem reach_tasksAlive (h : machine.Reach KeepsWriters w) : w.TasksAlive := by
  refine reach_invariant TasksAlive ?_ ?_ h
  · intro thread entry hentry
    cases hentry
  · exact fun _ _ _ hreach hinv hok hmoves =>
      hinv.moves (reach_alive hreach) (reach_loop_queues hreach) hok hmoves

/-- **As long as no connection loses its last owner while a task of
`write(const void*, uint32_t)` on it waits, no task is executed on a destroyed
connection.** Whatever task the loop thread calls next, the connection it
operates on exists, and so do the connections of all tasks that still wait. -/
theorem executed_tasks_name_existing_connections (w : World τ)
    (h : machine.Reach KeepsWriters w) :
    (∀ entry c, w.loop.nextEntry = some entry → entry.callback.target = some c →
        ∃ conn, w.conns c = some conn) ∧
      ∀ entry ∈ w.loop.unexecuted, ∀ c, entry.callback.target = some c →
        ∃ conn, w.conns c = some conn := by
  have halive := reach_tasksAlive h
  refine ⟨fun entry c hnext => ?_, halive⟩
  exact halive entry (EventLoop.mem_unexecuted_of_nextEntry hnext) c

/-- A client that writes, closes and lets its pointer go: the write is executed
before the close. -/
theorem executed_tasks_name_existing_connections_of_write_then_close :
    ∃ w : World ℕ, machine.Reach KeepsWriters w ∧
      w.loop.nextEntry = some ⟨0, 0, true, .writeData 0 [1, 2]⟩ ∧
      w.held 0 = 0 ∧ ∃ conn, w.conns 0 = some conn := by
  have hnew : machine.Reach KeepsWriters (new 0) := .init ⟨0, rfl⟩
  obtain ⟨w, hreach, hnext, hheld⟩ := hnew.exists_of_leads
    [.user 0 (.onNewConnection 5 ⟨false, false, true, false⟩), .user 0 (.writeData 0 [1, 2]),
      .user 0 (.close 0), .user 0 (.drop 0), .loop (.enterRun 0), .loop .testRunning,
      .epollWait [], .loop .swapPending, .loop .endBatch]
    (P := fun w => w.loop.nextEntry = some ⟨0, 0, true, .writeData 0 [1, 2]⟩ ∧ w.held 0 = 0)
    (by decide)
  exact ⟨w, hreach, hnext, hheld,
    (executed_tasks_name_existing_connections w hreach).1 _ 0 hnext rfl⟩

/-- A task can be executed on a destroyed connection: a client closes, writes
through `write(const void*, uint32_t)` and lets its pointer go; the close
destroys the connection while the write still waits. -/
theorem not_executed_tasks_name_existing_connections :
    ¬ ∀ w : World ℕ, machine.Reach Machine.anyStep w → ∀ entry c,
        w.loop.nextEntry = some entry → entry.callback.target = some c →
          ∃ conn, w.conns c = some conn := by
  intro hclaim
  have hnew : machine.Reach Machine.anyStep (new 0 : World ℕ) := .init ⟨0, rfl⟩
  obtain ⟨w, hreach, hnext, hdead⟩ := hnew.exists_of_leads
    [.user 0 (.onNewConnection 5 ⟨false, false, true, false⟩), .user 0 (.close 0),
      .user 0 (.writeData 0 [1, 2]), .user 0 (.drop 0), .loop (.enterRun 0), .loop .testRunning,
      .epollWait [], .loop .swapPending, .loop .endBatch, .call, .returns, .exec 0, .exec 0,
      .exec 0, .callReturns, .exec 0]
    (P := fun w => w.loop.nextEntry = some ⟨0, 1, true, .writeData 0 [1, 2]⟩ ∧ w.conns 0 = none)
    (by decide)
  obtain ⟨conn, hconn⟩ := hclaim w hreach _ 0 hnext rfl
  rw [hdead] at hconn
  cases hconn

end World

end Mutiplex
