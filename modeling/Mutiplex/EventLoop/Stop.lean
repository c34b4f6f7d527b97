/-
# Leaving the loop

`run` has two exits: the test of `running_` at the head of an iteration, and the
`break` after a failed `epoll_wait`.  Neither drains the queues.  What the loop
owes to a callback is decided by the swap of `pending_callbacks_`: once a swap
followed the post, the callback is executed before the iteration ends, and so
before `run` can return.
-/

import Mutiplex.EventLoop.Scheduling
import Mutiplex.EventLoop.Wakeup

namespace Mutiplex

open Transition

/-- The loop thread is between the swap of an iteration and its end. -/
def Phase.runsTasks : Phase → Bool
  | .batch _ => true
  | .draining _ => true
  | _ => false

namespace EventLoop

variable {τ κ : Type} [DecidableEq τ]
variable {s s' : EventLoop τ κ} {action : Action τ κ}

/-- Some call of `stop` has begun. -/
def StopCalled (s : EventLoop τ κ) : Prop := s.stopping ≠ [] ∨ s.stopped = true

/-- The step leaves `run`. -/
structure Returns (s : EventLoop τ κ) (action : Action τ κ) (s' : EventLoop τ κ) : Prop where
  inside : s.phase ≠ .outside
  step : s.step action = some s'
  outside : s'.phase = .outside

/-- The two exits of `run`. -/
theorem Returns.exit (h : s.Returns action s') :
    s' = { s with phase := .outside } ∧
      (action = .testRunning ∧ s.phase = .test ∧ s.running = false ∨
        action = .epollWait none ∧ s.phase = .waiting) := by
  have hinside := h.inside
  have houtside := h.outside
  cases moves_of_step h.step with
  | leave htest hrunning => exact ⟨rfl, Or.inl ⟨rfl, htest, hrunning⟩⟩
  | waitFails hwaiting => exact ⟨rfl, Or.inr ⟨rfl, hwaiting⟩⟩
  | post hmay =>
      rw [phase_postCallback] at houtside
      exact absurd houtside hinside
  | stopFlag hmay => exact absurd houtside hinside
  | stopNotify hmem => exact absurd houtside hinside
  | _ => cases houtside

/-! ## The flag and the call of `stop` -/

/-- Only `stop` lowers `running_`. -/
theorem stopCalled_move (h : s.running = false → s.StopCalled) (hmove : s.move action = some s') :
    s'.running = false → s'.StopCalled := by
  cases moves_of_move hmove with
  | stopFlag hmay => exact fun _ => Or.inl (List.cons_ne_nil _ _)
  | stopNotify hmem => exact fun _ => Or.inr rfl
  | post hmay =>
      unfold postCallback
      split <;> exact h
  | _ => exact h

theorem reach_stopCalled {ok : EventLoop τ κ → Action τ κ → Prop} (h : machine.Reach ok s) :
    s.running = false → s.StopCalled := by
  refine h.invariant (fun s => s.running = false → s.StopCalled) ?_ ?_
  · rintro _ ⟨thread, rfl⟩ hrunning
    simp [new] at hrunning
  · intro source action target _ hinv _ hstep
    exact stopCalled_move hinv (move_of_step (step_eq_next.mp hstep))

/-! ## From the swap to the end of the iteration -/

/-- A step adds nothing to the pending callbacks but what it posts. -/
theorem mem_pending_of_move (hmove : s.move action = some s') {entry : Posted τ κ}
    (hentry : entry ∈ s'.pendingCallbacks) :
    entry ∈ s.pendingCallbacks ∨ entry.ticket = s.posted.length := by
  cases moves_of_move hmove with
  | post hmay =>
      unfold postCallback at hentry
      split at hentry
      · exact Or.inl hentry
      · rcases List.mem_append.mp hentry with hold | hnew
        · exact Or.inl hold
        · exact Or.inr (by rw [List.mem_singleton.mp hnew]; rfl)
  | swapPending hphase => cases hentry
  | _ => exact Or.inl hentry

/-- The loop over the tasks is left at the end of the iteration, with an empty
task queue. -/
theorem runsTasks_move (hmove : s.move action = some s') (htasks : s.phase.runsTasks = true) :
    s'.phase.runsTasks = true ∨ s.phase = .draining false ∧ s.taskQueue = [] := by
  cases moves_of_move hmove with
  | endIteration hphase hqueue => exact Or.inr ⟨hphase, hqueue⟩
  | post hmay => exact Or.inl (by rwa [phase_postCallback])
  | enterRun hphase hfree => simp [hphase, Phase.runsTasks] at htasks
  | goOn hphase hrunning => simp [hphase, Phase.runsTasks] at htasks
  | leave hphase hrunning => simp [hphase, Phase.runsTasks] at htasks
  | waitFails hphase => simp [hphase, Phase.runsTasks] at htasks
  | waitReturns hphase hcount => simp [hphase, Phase.runsTasks] at htasks
  | readNotify hphase => simp [hphase, Phase.runsTasks] at htasks
  | stopFlag hmay => exact Or.inl htasks
  | stopNotify hmem => exact Or.inl htasks
  | _ => exact Or.inl rfl

/-- What was executed stays executed. -/
theorem mem_executed_of_move (hmove : s.move action = some s') {entry : Posted τ κ}
    (hentry : entry ∈ s.executed) : entry ∈ s'.executed := by
  rcases executed_move hmove with ⟨called, -, -, heq⟩ | ⟨-, heq⟩
  · rw [heq]
    exact List.mem_append_left _ hentry
  · rwa [heq]

theorem mem_posted_of_move (hmove : s.move action = some s') {entry : Posted τ κ}
    (hentry : entry ∈ s.posted) : entry ∈ s'.posted := by
  rcases move_frame hmove with ⟨thread, callback, -, rfl⟩ | ⟨heq, -⟩
  · rw [posted_postCallback]
    exact List.mem_append_left _ hentry
  · rwa [heq]

omit [DecidableEq τ] in
/-- The ticket of the next post is new. -/
theorem Queues.ticket_ne (h : s.Queues) {entry : Posted τ κ} (hentry : entry ∈ s.posted) :
    entry.ticket ≠ s.posted.length := by
  have hmem : entry.ticket ∈ s.posted.map (·.ticket) := List.mem_map_of_mem hentry
  rw [h.tickets, List.mem_range] at hmem
  exact hmem.ne

omit [DecidableEq τ] in
/-- With the batch and the task queue empty, all that was posted was executed or
is pending. -/
theorem Queues.executed_or_pending (h : s.Queues) (hcallbacks : s.callbacks = [])
    (hqueue : s.taskQueue = []) {entry : Posted τ κ} (hentry : entry ∈ s.posted) :
    entry ∈ s.executed ∨ entry ∈ s.pendingCallbacks := by
  have hlocal : s.localTasks = [] := by
    unfold localTasks
    split <;> simp [hqueue]
  rw [← Multiset.mem_coe, h.posted_eq, hcallbacks, hlocal] at hentry
  simpa using hentry

/-- The callback was executed, or will be before the iteration ends: it was
swapped out, or waits in the task queue. -/
def Due (entry : Posted τ κ) (s : EventLoop τ κ) : Prop :=
  entry ∈ s.posted ∧
    (entry ∈ s.executed ∨ s.phase.runsTasks = true ∧ entry ∉ s.pendingCallbacks)

theorem Due.move {entry : Posted τ κ} (h : Due entry s) (hqueues : s.Queues)
    (hmove : s.move action = some s') : Due entry s' := by
  obtain ⟨hposted, hdue⟩ := h
  refine ⟨mem_posted_of_move hmove hposted, ?_⟩
  rcases hdue with hexecuted | ⟨htasks, hpending⟩
  · exact Or.inl (mem_executed_of_move hmove hexecuted)
  · rcases runsTasks_move hmove htasks with htasks' | ⟨hphase, hqueue⟩
    · refine Or.inr ⟨htasks', fun hmem => ?_⟩
      rcases mem_pending_of_move hmove hmem with hold | hticket
      · exact hpending hold
      · exact hqueues.ticket_ne hposted hticket
    · have hcallbacks := hqueues.callbacks_eq_nil (by simp [hphase])
      rcases hqueues.executed_or_pending hcallbacks hqueue hposted with hexecuted | hmem
      · exact Or.inl (mem_executed_of_move hmove hexecuted)
      · exact absurd hmem hpending

/-- What was posted before a swap is due after it, for the rest of the run. -/
theorem due_of_swap {ok : EventLoop τ κ → Action τ κ → Prop} {swapped last : EventLoop τ κ}
    (h : machine.Reach ok swapped) (hswap : s.step .swapPending = some swapped)
    (hpath : machine.Path ok swapped last) {entry : Posted τ κ} (hentry : entry ∈ s.posted) :
    Due entry last := by
  refine h.invariant_path (Due entry) hpath ?_ ?_
  · cases moves_of_step hswap with
    | swapPending hphase => exact ⟨hentry, Or.inr ⟨rfl, List.not_mem_nil⟩⟩
  · intro source action target hreach hinv _ hstep
    exact hinv.move (reach_queues hreach) (move_of_step (step_eq_next.mp hstep))

/-- **The loop stops in order.** `run` returns only after a call of `stop` has
begun or `epoll_wait` has failed.  When it returns, in either way, every callback
that had been posted when some `stop` began, or at any other moment, was
executed if a swap of the pending callbacks followed that moment; and when it
returns after at least one complete iteration, through the test of `running_` or
through a failed `epoll_wait`, only pending callbacks of other threads were not
executed. -/
theorem run_stops_in_order (last returned : EventLoop τ κ) (action : Action τ κ)
    (h : machine.Reach Machine.anyStep last) (hreturns : last.Returns action returned) :
    (action = .epollWait none ∨ action = .testRunning ∧ last.StopCalled) ∧
      (∀ asked s swapped, machine.Reach Machine.anyStep asked →
        machine.Path Machine.anyStep asked s → s.step .swapPending = some swapped →
        machine.Path Machine.anyStep swapped last →
        ∀ entry ∈ asked.posted, entry ∈ returned.executed) ∧
      (action = .testRunning ∧ 0 < last.iteration ∨
          action = .epollWait none ∧ 1 < last.iteration →
        (returned.posted : Multiset (Posted τ κ)) =
            returned.executed + returned.pendingCallbacks ∧
          ∀ entry ∈ returned.pendingCallbacks, entry.onLoop = false) := by
  obtain ⟨rfl, hexit⟩ := hreturns.exit
  have hqueues := reach_queues h
  refine ⟨?_, ?_, ?_⟩
  · rcases hexit with ⟨htest, -, hrunning⟩ | ⟨hwait, -⟩
    · exact Or.inr ⟨htest, reach_stopCalled h hrunning⟩
    · exact Or.inl hwait
  · intro asked s swapped hasked hbefore hswap hafter entry hentry
    have hs : machine.Reach Machine.anyStep s := hasked.path hbefore
    have hposted : entry ∈ s.posted :=
      hasked.invariant_path (entry ∈ ·.posted) hbefore hentry
        fun _ _ _ _ hmem _ hstep => mem_posted_of_move (move_of_step (step_eq_next.mp hstep)) hmem
    have hdue := due_of_swap (hs.step trivial (step_eq_next.mpr hswap)) hswap hafter hposted
    rcases hdue.2 with hexecuted | ⟨htasks, -⟩
    · exact hexecuted
    · rcases hexit with ⟨-, hphase, -⟩ | ⟨-, hphase⟩ <;>
        simp [hphase, Phase.runsTasks] at htasks
  · intro hiteration
    -- at either exit the batch is over and the tasks of the last iteration are done
    have hends : last.taskQueue = [] ∧ (last.phase = .test ∨ last.phase = .waiting) := by
      rcases hexit with ⟨rfl, hphase, -⟩ | ⟨rfl, hphase⟩
      · have hpositive : 0 < last.iteration := by simpa using hiteration
        exact ⟨(reach_wakeable h).test hphase hpositive, Or.inl hphase⟩
      · have hsecond : 1 < last.iteration := by simpa using hiteration
        exact ⟨(reach_wakeable h).waiting hphase hsecond, Or.inr hphase⟩
    obtain ⟨hqueue, hphase⟩ := hends
    have hcallbacks : last.callbacks = [] := by
      rcases hphase with hphase | hphase <;> exact hqueues.callbacks_eq_nil (by simp [hphase])
    have hlocal : last.localTasks = [] := by
      rcases hphase with hphase | hphase <;> simp [localTasks, hphase, hqueue]
    constructor
    · show (last.posted : Multiset (Posted τ κ)) = last.executed + last.pendingCallbacks
      rw [hqueues.posted_eq, hcallbacks, hlocal]
      simp
    · exact fun entry hentry => hqueues.offLoop entry (List.mem_append_right _ hentry)

/-- A run in which the callback of another thread is posted before the swap, and
`stop` is called afterwards. -/
theorem run_stops_in_order_of_late_stop :
    ∃ last returned : EventLoop ℕ Char, machine.Reach Machine.anyStep last ∧
      last.Returns .testRunning returned ∧ last.StopCalled ∧
      ∀ entry ∈ last.posted, entry ∈ returned.executed := by
  let start : EventLoop ℕ Char := new 0
  let x : Posted ℕ Char := ⟨1, 0, false, 'x'⟩
  let s : EventLoop ℕ Char :=
    { start with
      notifyCount := 1, pendingCallbacks := [x], phase := .dispatching false, iteration := 1
      posted := [x] }
  let swapped : EventLoop ℕ Char :=
    { s with callbacks := [x], pendingCallbacks := [], phase := .batch false }
  let last : EventLoop ℕ Char :=
    { s with
      running := false, notifyCount := 2, pendingCallbacks := [], phase := .test, stopped := true
      executed := [x] }
  have hs : machine.Reach Machine.anyStep s :=
    (Machine.Reach.init ⟨0, rfl⟩ : machine.Reach Machine.anyStep start).runWithin
      [.enterRun 0, .testRunning, .epollWait (some false), .post 1 'x'] rfl
  have hswap : s.step .swapPending = some swapped := rfl
  have hafter : machine.Path Machine.anyStep swapped last :=
    Machine.path_of_runWithin
      [.callCallback, .stopFlag 2, .callbackReturns, .endBatch, .endIteration, .stopNotify 2] rfl
  have hlast := (hs.step trivial (step_eq_next.mpr hswap)).path hafter
  have hreturns : last.Returns .testRunning { last with phase := .outside } :=
    ⟨by simp [last], rfl, rfl⟩
  exact ⟨last, _, hlast, hreturns, Or.inr rfl,
    (run_stops_in_order last _ _ hlast hreturns).2.1 s s swapped hs .refl hswap hafter⟩

/-- `run` leaves its loop without any `stop` when `epoll_wait` fails; and a
callback that another thread posted after the swap, but before `stop` began, is
not executed when `run` returns. -/
theorem run_not_always_in_order :
    (∃ last returned : EventLoop ℕ Char, machine.Reach Machine.anyStep last ∧
      last.Returns (.epollWait none) returned ∧ ¬ last.StopCalled) ∧
    ∃ asked asked' last returned : EventLoop ℕ Char, machine.Reach Machine.anyStep asked ∧
      asked.step (.stopFlag 2) = some asked' ∧ machine.Path Machine.anyStep asked' last ∧
      last.Returns .testRunning returned ∧ ∃ entry ∈ asked.posted, entry ∉ returned.executed := by
  let start : EventLoop ℕ Char := new 0
  have hstart : machine.Reach Machine.anyStep start := .init ⟨0, rfl⟩
  constructor
  · let last : EventLoop ℕ Char := { start with phase := .waiting, iteration := 1 }
    refine ⟨last, { last with phase := .outside }, ?_, ⟨by simp [last], rfl, rfl⟩, ?_⟩
    · exact hstart.runWithin [.enterRun 0, .testRunning] rfl
    · simp [StopCalled, last, start, new]
  · let x : Posted ℕ Char := ⟨1, 0, false, 'x'⟩
    let asked : EventLoop ℕ Char :=
      { start with
        notifyCount := 1, pendingCallbacks := [x], phase := .batch false, iteration := 1
        posted := [x] }
    let last : EventLoop ℕ Char :=
      { asked with running := false, notifyCount := 2, phase := .test, stopped := true }
    refine ⟨asked, { asked with running := false, stopping := [2] }, last,
      { last with phase := .outside }, ?_, rfl, ?_, ⟨by simp [last], rfl, rfl⟩, x, ?_, ?_⟩
    · exact hstart.runWithin
        [.enterRun 0, .testRunning, .epollWait (some false), .swapPending, .post 1 'x'] rfl
    · exact Machine.path_of_runWithin [.stopNotify 2, .endBatch, .endIteration] rfl
    · exact List.mem_singleton_self x
    · exact List.not_mem_nil

end EventLoop

end Mutiplex
