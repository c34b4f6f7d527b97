/-
# No lost wake-up

The eventfd counter is reset in the event phase, the pending callbacks are taken
later in the same iteration, and `running_` is tested at the head of the next
one.  `Wakeable` ties the counter to the phase: outside the event phase a
pending callback keeps the counter up, and a completed `stop` keeps it up while
the loop waits.  The task queue is empty whenever an iteration is over.
-/

import Mutiplex.EventLoop.Basic

namespace Mutiplex

open Transition

namespace EventLoop

variable {τ κ : Type} [DecidableEq τ]
variable {s s' : EventLoop τ κ} {action : Action τ κ}

/-- Writing the eventfd leaves its counter up, also where the write fails. -/
theorem eventfdWrite_ne_zero (count : ℕ) : eventfdWrite count ≠ 0 := by
  unfold eventfdWrite
  split <;> omega

/-- The coupling of the eventfd counter, the queues and the phase. -/
structure Wakeable (s : EventLoop τ κ) : Prop where
  pending : s.pendingCallbacks ≠ [] → (∀ notify, s.phase ≠ .dispatching notify) →
    s.notifyCount ≠ 0
  stopping : s.stopping ≠ [] ∨ s.stopped = true → s.running = false
  stop : s.stopped = true → s.phase = .waiting → s.notifyCount ≠ 0
  test : s.phase = .test → 0 < s.iteration → s.taskQueue = []
  waiting : s.phase = .waiting → 1 < s.iteration → s.taskQueue = []

omit [DecidableEq τ] in
theorem wakeable_new (thread : τ) : (new thread : EventLoop τ κ).Wakeable where
  pending h := by simp [new] at h
  stopping h := by simp [new] at h
  stop h := by simp [new] at h
  test h := by simp [new] at h
  waiting h := by simp [new] at h

omit [DecidableEq τ] in
/-- A post on the loop thread happens outside the test and the wait. -/
theorem MayCall.userCode (h : s.MayCall s.pthreadId) :
    s.phase ≠ .test ∧ s.phase ≠ .waiting := by
  rcases h.2 with hne | huser
  · exact absurd rfl hne
  · constructor <;> rintro heq <;> simp [heq, Phase.userCode] at huser

theorem Wakeable.post (h : s.Wakeable) {thread : τ} (hmay : s.MayCall thread) (callback : κ) :
    (s.postCallback thread callback).Wakeable := by
  unfold postCallback
  split
  · rename_i hthread
    subst hthread
    obtain ⟨htest, hwaiting⟩ := hmay.userCode
    exact ⟨h.pending, h.stopping, h.stop, fun hphase => absurd hphase htest,
      fun hphase => absurd hphase hwaiting⟩
  · exact ⟨fun _ _ => eventfdWrite_ne_zero _, h.stopping, fun _ _ => eventfdWrite_ne_zero _,
      h.test, h.waiting⟩

omit [DecidableEq τ] in
/-- A step to a phase in which the loop neither tests, waits nor reads the
counter. -/
theorem Wakeable.change_phase (h : s.Wakeable) (hold : ∀ notify, s.phase ≠ .dispatching notify)
    (htest : s'.phase ≠ .test) (hwaiting : s'.phase ≠ .waiting)
    (hpending : s'.pendingCallbacks = s.pendingCallbacks)
    (hcount : s'.notifyCount = s.notifyCount) (hrunning : s'.running = s.running)
    (hstopping : s'.stopping = s.stopping) (hstopped : s'.stopped = s.stopped) :
    s'.Wakeable where
  pending hne _ := by
    rw [hcount]
    exact h.pending (hpending ▸ hne) hold
  stopping hcalled := by
    rw [hrunning]
    exact h.stopping (hstopping ▸ hstopped ▸ hcalled)
  stop _ hphase := absurd hphase hwaiting
  test hphase := absurd hphase htest
  waiting hphase := absurd hphase hwaiting

/-- **Every step keeps the loop wakeable.** -/
theorem Wakeable.move (h : s.Wakeable) (hmove : s.move action = some s') : s'.Wakeable := by
  cases moves_of_move hmove with
  | enterRun hphase hfree =>
      exact ⟨fun hne _ => h.pending hne (by simp [hphase]), h.stopping, by simp, by simp, by simp⟩
  | goOn hphase hrunning =>
      -- The wait is entered only while no `stop` was completed.
      have hstopped : s.stopped ≠ true := by
        intro hstopped
        simp [h.stopping (Or.inr hstopped)] at hrunning
      exact ⟨fun hne _ => h.pending hne (by simp [hphase]), h.stopping,
        fun hst => absurd hst hstopped, by simp,
        fun _ hiter => h.test hphase (by simpa using hiter)⟩
  | leave hphase hrunning =>
      exact h.change_phase (by simp [hphase]) (by simp) (by simp) rfl rfl rfl rfl rfl
  | waitFails hphase =>
      exact h.change_phase (by simp [hphase]) (by simp) (by simp) rfl rfl rfl rfl rfl
  | @waitReturns notify hphase hcount =>
      exact ⟨fun _ hne => absurd rfl (hne notify), h.stopping, by simp, by simp, by simp⟩
  | readNotify hphase =>
      exact ⟨fun _ hne => absurd rfl (hne false), h.stopping, by simp, by simp, by simp⟩
  | swapPending hphase => exact ⟨by simp, h.stopping, by simp, by simp, by simp⟩
  | callCallback hphase hcallbacks =>
      exact h.change_phase (by simp [hphase]) (by simp) (by simp) rfl rfl rfl rfl rfl
  | callbackReturns hphase =>
      exact h.change_phase (by simp [hphase]) (by simp) (by simp) rfl rfl rfl rfl rfl
  | endBatch hphase hcallbacks =>
      exact h.change_phase (by simp [hphase]) (by simp) (by simp) rfl rfl rfl rfl rfl
  | callTask hphase hqueue =>
      exact h.change_phase (by simp [hphase]) (by simp) (by simp) rfl rfl rfl rfl rfl
  | taskReturns hphase hqueue =>
      exact h.change_phase (by simp [hphase]) (by simp) (by simp) rfl rfl rfl rfl rfl
  | endIteration hphase hqueue =>
      exact ⟨fun hne _ => h.pending hne (by simp [hphase]), h.stopping, by simp,
        fun _ _ => hqueue, by simp⟩
  | post hmay => exact h.post hmay _
  | stopFlag hmay => exact ⟨h.pending, fun _ => rfl, h.stop, h.test, h.waiting⟩
  | stopNotify hmem =>
      have hrunning := h.stopping (Or.inl (List.ne_nil_of_mem hmem))
      exact ⟨fun _ _ => eventfdWrite_ne_zero _, fun _ => hrunning,
        fun _ _ => eventfdWrite_ne_zero _, h.test, h.waiting⟩

/-- The loop is wakeable in every reachable state. -/
theorem reach_wakeable {ok : EventLoop τ κ → Action τ κ → Prop} (h : machine.Reach ok s) :
    s.Wakeable := by
  refine h.invariant Wakeable ?_ ?_
  · rintro _ ⟨thread, rfl⟩
    exact wakeable_new thread
  · intro source action target _ hinv _ hstep
    exact hinv.move (move_of_step (step_eq_next.mp hstep))

/-- **No wake-up is lost.** In every interleaving, while the loop is in
`epoll_wait` with a pending callback or after a completed `stop`, the eventfd
counter is not zero; and `epoll_wait` is entered with an empty task queue in
every iteration after the first. -/
theorem no_lost_wakeup (s : EventLoop τ κ) (h : machine.Reach Machine.anyStep s)
    (hwaiting : s.phase = .waiting) :
    (s.pendingCallbacks ≠ [] ∨ s.stopped = true → s.notifyCount ≠ 0) ∧
      (1 < s.iteration → s.taskQueue = []) := by
  have hwakeable := reach_wakeable h
  refine ⟨?_, hwakeable.waiting hwaiting⟩
  rintro (hpending | hstopped)
  · exact hwakeable.pending hpending (by simp [hwaiting])
  · exact hwakeable.stop hstopped hwaiting

/-- A post and a `stop` that fall between the test of `running_` and the wait
of the second iteration. -/
theorem no_lost_wakeup_of_late_stop :
    ∃ s : EventLoop ℕ Char, machine.Reach Machine.anyStep s ∧ s.phase = .waiting ∧
      s.iteration = 2 ∧ s.stopped = true ∧ s.pendingCallbacks ≠ [] ∧ s.notifyCount ≠ 0 := by
  let x : Posted ℕ Char := ⟨1, 0, false, 'x'⟩
  let s : EventLoop ℕ Char :=
    { pthreadId := 0, running := false, notifyCount := 2, pendingCallbacks := [x]
      taskQueue := [], ran := [], callbacks := [], phase := .waiting
      stopping := [], stopped := true, iteration := 2, posted := [x], executed := [] }
  have hreach : machine.Reach Machine.anyStep s :=
    (Machine.Reach.init ⟨0, rfl⟩ : machine.Reach Machine.anyStep (new 0)).runWithin
      [.enterRun 0, .testRunning, .epollWait (some false), .swapPending, .endBatch,
        .endIteration, .testRunning, .stopFlag 2, .post 1 'x', .stopNotify 2] rfl
  exact ⟨s, hreach, rfl, rfl, rfl, by simp [s],
    (no_lost_wakeup s hreach rfl).1 (Or.inr rfl)⟩

end EventLoop

end Mutiplex
