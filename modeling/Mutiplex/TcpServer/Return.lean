/-
# `run` returns, and the destructor after it

The main thread sleeps on `cv_` only as long as some I/O thread is still to
notify it, so it cannot sleep on when all have counted down.  Once the loops have
ended some step of an epilogue or of the main thread is possible in every state,
and each of them is paid for by `work`; only waking up for no reason adds to it.
-/

import Mathlib.Algebra.BigOperators.Fin
import Mutiplex.TcpServer.Lifetime

namespace Mutiplex

open CMemory Transition

/-- The steps of an epilogue to come, and those of the main thread when it is
notified. -/
def Epilogue.work : Epilogue → ℕ
  | .inside => 8
  | .locked => 7
  | .counted => 6
  | .notified => 3
  | .unlocked => 2
  | .closed => 1
  | .exited => 0

theorem Epilogue.work_le (epilogue : Epilogue) : epilogue.work ≤ 8 := by
  cases epilogue <;> decide

namespace Lifetime

variable {κ : Type} {s s' : Lifetime κ} {action : Action κ} {i : ℕ}

/-- The steps of the main thread to come, as long as nobody wakes it. -/
def mainWork (s : Lifetime κ) : ℕ :=
  match s.main with
  | .starting => 2 * s.server.numIoThreads + 4
  | .testing => 2 * s.server.numIoThreads + 3
  | .waiting => 2 * s.server.numIoThreads + if .main ∈ s.monitor.sleeping then 2 else 4
  | .returned => 2 * s.server.numIoThreads + 2
  | .destroying joined deleted =>
      (s.server.numIoThreads - joined) + (s.server.numIoThreads - deleted) + 1
  | .destroyed => 0

/-- The steps to come. -/
def work (s : Lifetime κ) : ℕ :=
  (∑ i ∈ Finset.range s.server.numIoThreads, (s.epilogue i).work) + s.mainWork

theorem mainWork_le (s : Lifetime κ) : s.mainWork ≤ 2 * s.server.numIoThreads + 4 := by
  unfold mainWork
  split
  · exact Nat.le_refl _
  · omega
  · split <;> omega
  · omega
  · omega
  · omega

theorem work_le (s : Lifetime κ) : s.work ≤ 10 * s.server.numIoThreads + 4 := by
  have hsum : ∑ i ∈ Finset.range s.server.numIoThreads, (s.epilogue i).work ≤
      (Finset.range s.server.numIoThreads).card • 8 :=
    Finset.sum_le_card_nsmul _ _ 8 fun i _ => (s.epilogue i).work_le
  rw [Finset.card_range, smul_eq_mul] at hsum
  have hmain := s.mainWork_le
  unfold work
  omega

/-- A step of the thread's epilogue is worth the difference. -/
theorem sum_goTo (epilogue : Epilogue) (hlt : i < s.server.numIoThreads) :
    (∑ j ∈ Finset.range s.server.numIoThreads, ((s.goTo i epilogue).epilogue j).work) +
        (s.epilogue i).work =
      (∑ j ∈ Finset.range s.server.numIoThreads, (s.epilogue j).work) + epilogue.work := by
  have hmem : i ∈ Finset.range s.server.numIoThreads := Finset.mem_range.mpr hlt
  rw [← Finset.add_sum_erase _ _ hmem, ← Finset.add_sum_erase _ _ hmem]
  have hsame : ∑ j ∈ (Finset.range s.server.numIoThreads).erase i,
        ((s.goTo i epilogue).epilogue j).work =
      ∑ j ∈ (Finset.range s.server.numIoThreads).erase i, (s.epilogue j).work := by
    refine Finset.sum_congr rfl fun j hj => ?_
    rw [goTo_of_ne s (Finset.ne_of_mem_erase hj)]
  rw [hsame, goTo_self]
  omega

/-- The steps of the epilogues, of the end of `run` and of the destructor. -/
def Action.ends : Action κ → Bool
  | .server _ => false
  | .wakes => false
  | _ => true

/-- The main thread wakes up for no reason. -/
def Action.isSpurious : Action κ → Bool
  | .wakes => true
  | _ => false

theorem mainWork_monitor_le (monitor : Monitor Party) :
    ({ s with monitor := monitor } : Lifetime κ).mainWork ≤ s.mainWork + 2 := by
  unfold mainWork
  dsimp only
  split
  · omega
  · omega
  · split <;> split <;> omega
  · omega
  · omega
  · omega

/-- A thread pays for a step of its epilogue. -/
theorem work_goTo (monitor : Monitor Party) {epilogue : Epilogue}
    (hlt : i < s.server.numIoThreads)
    (hpays : 1 + epilogue.work + ({ s with monitor := monitor } : Lifetime κ).mainWork ≤
      (s.epilogue i).work + s.mainWork) :
    1 + ({ s with monitor := monitor }.goTo i epilogue : Lifetime κ).work ≤ s.work := by
  have hsum := sum_goTo (s := s) epilogue hlt
  have hsame : ({ s with monitor := monitor }.goTo i epilogue : Lifetime κ).work =
      (∑ j ∈ Finset.range s.server.numIoThreads, ((s.goTo i epilogue).epilogue j).work) +
        ({ s with monitor := monitor } : Lifetime κ).mainWork := rfl
  rw [hsame, work]
  omega

/-- A step of the end is paid for by the work to come. -/
theorem work_moves (hplaced : s.Placed) (hfiled : s.server.Filed)
    (hmoves : Moves s action s') :
    (if action.ends then 1 else 0) + s'.work ≤
      s.work + if action.isSpurious then 2 else 0 := by
  have hmainStep : ∀ {t : Lifetime κ}, t.server.numIoThreads = s.server.numIoThreads →
      t.epilogue = s.epilogue → 1 + t.mainWork ≤ s.mainWork → 1 + t.work ≤ s.work := by
    intro t hsize hepilogue hpays
    rw [work, work, hsize, hepilogue]
    omega
  cases hmoves with
  | @server action server hruns hstep =>
      have hnot : ∀ i, action ≠ .countDown i := by
        rintro i rfl
        exact hruns
      have hsize := ((TcpServer.moves_of_step hstep).keeps hnot).1
      have hsame : ({ s with server := server } : Lifetime κ).work = s.work := by
        simp only [work, mainWork, hsize]
      simp [Action.ends, hsame]
  | @lock i monitor hthread hinside hlock =>
      obtain ⟨-, rfl⟩ := Monitor.lock_eq_some.mp hlock
      refine work_goTo _ (hfiled.lt_of_started i (by simp [hthread])) ?_
      rw [hinside]
      exact Nat.le_refl _
  | @countDown i server hlocked hstep =>
      have hlt := hplaced.small i (by simp [hlocked])
      cases TcpServer.moves_of_step hstep with
      | countDown hthread =>
          refine work_goTo s.monitor hlt ?_
          rw [hlocked]
          exact Nat.le_refl _
  | @notifyOne i monitor hcounted hnotify =>
      have hmain := s.mainWork_monitor_le monitor
      refine work_goTo _ (hplaced.small i (by simp [hcounted])) ?_
      rw [hcounted]
      simp only [Epilogue.work]
      omega
  | @unlock i monitor hnotified hunlock =>
      obtain ⟨-, rfl⟩ := Monitor.unlock_eq_some.mp hunlock
      refine work_goTo _ (hplaced.small i (by simp [hnotified])) ?_
      rw [hnotified]
      exact Nat.le_refl _
  | @closeAcceptor i hunlocked =>
      refine work_goTo s.monitor (hplaced.small i (by simp [hunlocked])) ?_
      rw [hunlocked]
      exact Nat.le_refl _
  | @exit i hclosed =>
      refine work_goTo s.monitor (hplaced.small i (by simp [hclosed])) ?_
      rw [hclosed]
      exact Nat.le_refl _
  | mainLocks hmain hlock =>
      obtain ⟨⟨-, hawake⟩, rfl⟩ := Monitor.lock_eq_some.mp hlock
      refine hmainStep rfl rfl ?_
      rcases hmain with hmain | ⟨hmain, -⟩ <;> simp only [mainWork, hmain, if_neg hawake] <;> omega
  | mainWaits hmain hcount hwait =>
      obtain ⟨-, rfl⟩ := Monitor.wait_eq_some.mp hwait
      refine hmainStep rfl rfl ?_
      simp only [mainWork, hmain, Finset.mem_insert_self, if_true]
      omega
  | wakes hmain =>
      have hwoken := s.mainWork_monitor_le (s.monitor.wake .main)
      simp only [Action.ends, Action.isSpurious, Bool.false_eq_true, if_false, if_true, work]
      omega
  | mainReturns hmain hunlock hstep =>
      cases TcpServer.moves_of_step hstep with
      | returns hstarted hcount =>
          refine hmainStep rfl rfl ?_
          simp only [mainWork, hmain]
          omega
  | destroy hmain =>
      refine hmainStep rfl rfl ?_
      simp only [mainWork, hmain]
      omega
  | join hmain hlt hexited =>
      refine hmainStep rfl rfl ?_
      simp only [mainWork, hmain]
      omega
  | deleteLoop hmain hlt =>
      refine hmainStep rfl rfl ?_
      simp only [mainWork, hmain]
      omega
  | destroyMembers hmain =>
      refine hmainStep rfl rfl ?_
      simp only [mainWork, hmain]
      omega

/-! ## Progress -/

theorem serverStep_of_step {called : TcpServer.Action κ} {server : TcpServer κ}
    {rest : Lifetime κ → Lifetime κ} (hstep : s.server.step called = .next server)
    (hnot : ¬ s.Dangles called) :
    s.serverStep called rest = .next (rest { s with server := server }) := by
  simp [serverStep, hstep, hnot]

theorem monitorStep_of_some {monitor : Monitor Party} {rest : Lifetime κ → Lifetime κ}
    (hnot : s.main ≠ .destroyed) :
    s.monitorStep (some monitor) rest = .next (rest { s with monitor := monitor }) := by
  simp [monitorStep, hnot]

/-- Some step of the end is possible. -/
def CanEnd (s : Lifetime κ) : Prop :=
  ∃ (action : Action κ) (s' : Lifetime κ), action.ends = true ∧ s.step action = .next s'

/-- The notification is always possible. -/
theorem Placed.exists_notifyOne (h : s.Placed) :
    ∃ monitor, s.monitor.notifyOne s.sleeper = some monitor := by
  by_cases hmem : Party.main ∈ s.monitor.sleeping
  · exact ⟨s.monitor.wake .main, by simp [sleeper, Monitor.notifyOne, hmem]⟩
  · have hnone : s.monitor.sleeping = ∅ :=
      Finset.eq_empty_iff_forall_notMem.mpr fun p hp => hmem ((h.asleep p hp).1 ▸ hp)
    exact ⟨s.monitor, by simp [sleeper, Monitor.notifyOne, hnone]⟩

/-- Who owns the mutex goes on. -/
theorem Placed.owner_goes_on (h : s.Placed) {p : Party} (howner : s.monitor.owner = some p)
    (hnot : s.main ≠ .destroyed) : s.CanEnd := by
  cases p with
  | main =>
      have hmain := h.testing.mpr howner
      have hstarted := h.started (by simp [hmain])
      rcases Nat.eq_zero_or_pos s.server.countDown with hzero | hpos
      · have hunlock : s.monitor.unlock .main = some { s.monitor with owner := none } :=
          Monitor.unlock_eq_some.mpr ⟨howner, rfl⟩
        have hreturns : s.server.step .returns = .next { s.server with returned := true } :=
          if_pos ⟨hstarted, hzero⟩
        have hdangles : ¬ s.Dangles .returns := by simp [Dangles, loopOf, hnot]
        exact ⟨.mainReturns, _, rfl, by
          rw [step, if_pos hmain, hunlock]
          exact serverStep_of_step hreturns hdangles⟩
      · have hwait : s.monitor.wait .main =
            some { owner := none, sleeping := insert .main s.monitor.sleeping } :=
          Monitor.wait_eq_some.mpr ⟨howner, rfl⟩
        exact ⟨.mainWaits, _, rfl, by
          rw [step, if_pos ⟨hmain, hpos⟩, hwait, monitorStep_of_some hnot]⟩
  | io i =>
      have howns := (h.owner i).mpr howner
      cases hepilogue : s.epilogue i with
      | locked =>
          have hcounts : s.server.step (.countDown i) =
              .next { s.server.goOn i .done with countDown := s.server.countDown - 1 } :=
            if_pos (h.locked i hepilogue)
          have hdangles : ¬ s.Dangles (.countDown i) := by simp [Dangles, loopOf, hnot]
          exact ⟨.countDown i, _, rfl, by
            rw [step, if_pos hepilogue, serverStep_of_step hcounts hdangles]⟩
      | counted =>
          obtain ⟨monitor, hnotify⟩ := h.exists_notifyOne
          exact ⟨.notifyOne i, _, rfl, by
            rw [step, if_pos hepilogue, hnotify, monitorStep_of_some hnot]⟩
      | notified =>
          have hunlock : s.monitor.unlock (.io i) = some { s.monitor with owner := none } :=
            Monitor.unlock_eq_some.mpr ⟨howner, rfl⟩
          exact ⟨.unlock i, _, rfl, by
            rw [step, if_pos hepilogue, hunlock, monitorStep_of_some hnot]⟩
      | _ => simp [hepilogue, Epilogue.owns] at howns

/-- A thread that has left its loop goes on when the mutex is free. -/
theorem Placed.thread_goes_on (h : s.Placed) (hfree : s.monitor.owner = none)
    (hleft : s.server.thread i = .left ∨ s.server.thread i = .done)
    (hnot : s.epilogue i ≠ .exited) (hexists : ¬ s.Deleted i) (hmain : s.main ≠ .destroyed) :
    s.CanEnd := by
  have howns : (s.epilogue i).owns ≠ true := by
    rw [ne_eq, h.owner i, hfree]
    simp
  cases hepilogue : s.epilogue i with
  | inside =>
      have hthread : s.server.thread i = .left := by
        refine hleft.resolve_right fun hdone => ?_
        rw [← h.counted, hepilogue] at hdone
        cases hdone
      have hlock : s.monitor.lock (.io i) = some { s.monitor with owner := some (.io i) } := by
        refine Monitor.lock_eq_some.mpr ⟨⟨hfree, fun hp => ?_⟩, rfl⟩
        cases (h.asleep _ hp).1
      exact ⟨.lock i, _, rfl, by
        rw [step, if_pos ⟨hthread, hepilogue⟩, hlock, monitorStep_of_some hmain]⟩
  | unlocked =>
      exact ⟨.closeAcceptor i, _, rfl, by rw [step, if_pos hepilogue, if_neg hexists]⟩
  | closed => exact ⟨.exit i, _, rfl, by rw [step, if_pos hepilogue]⟩
  | exited => exact absurd hepilogue hnot
  | _ => simp [hepilogue, Epilogue.owns] at howns

/-- When all threads have exited, the main thread goes on. -/
theorem main_goes_on (h : machine.Reach Machine.anyStep s)
    (hleft : ∀ i < s.server.numIoThreads,
      s.server.thread i = .left ∨ s.server.thread i = .done)
    (hfree : s.monitor.owner = none)
    (hexited : ∀ i < s.server.numIoThreads, s.epilogue i = .exited)
    (hmain : s.main ≠ .destroyed) : s.CanEnd := by
  have hplaced := reach_placed h
  have hserver := reach_server h
  have hlocks : .main ∉ s.monitor.sleeping →
      (s.main = .waiting ∨ s.main = .starting ∧ s.server.started = s.server.numIoThreads) →
      s.CanEnd := by
    intro hawake hguard
    have hlock : s.monitor.lock .main = some { s.monitor with owner := some .main } :=
      Monitor.lock_eq_some.mpr ⟨⟨hfree, hawake⟩, rfl⟩
    exact ⟨.mainLocks, _, rfl, by rw [step, if_pos hguard, hlock, monitorStep_of_some hmain]⟩
  cases hstate : s.main with
  | starting =>
      refine hlocks (fun hp => ?_) (Or.inr ⟨hstate, ?_⟩)
      · cases hstate.symm.trans (hplaced.asleep _ hp).2
      · refine Nat.le_antisymm (TcpServer.reach_filed hserver).started_le ?_
        by_contra hlt
        have hstarted : s.server.thread (s.server.numIoThreads - 1) ≠ .starting := by
          rcases hleft (s.server.numIoThreads - 1) (by omega) with hthread | hthread <;>
            simp [hthread]
        have hlast := (TcpServer.reach_inTime hserver).started _ hstarted
        omega
  | testing => cases (hfree.symm.trans (hplaced.testing.mp hstate))
  | waiting =>
      have hzero : s.server.countDown = 0 := by
        rw [(TcpServer.reach_counted hserver).count, Finset.card_eq_zero]
        refine Finset.eq_empty_iff_forall_notMem.mpr fun i hi => ?_
        obtain ⟨hlt, hnot⟩ := TcpServer.mem_unfinished.mp hi
        refine hnot ((hplaced.counted i).mp ?_)
        rw [hexited i hlt]
        rfl
      have hnobody := (reach_wakes h).nobody_sleeps hfree hzero
      exact hlocks (by simp [hnobody]) (Or.inl hstate)
  | returned => exact ⟨.destroy, _, rfl, by rw [step, if_pos hstate]⟩
  | destroying joined deleted =>
      obtain ⟨-, hjoined, hdeleted, -⟩ := (reach_joined h).destroying joined deleted hstate
      rcases Nat.lt_or_eq_of_le hjoined with hlt | rfl
      · exact ⟨.join, _, rfl, by simp only [step, hstate]; rw [if_pos ⟨hlt, hexited joined hlt⟩]⟩
      · rcases Nat.lt_or_eq_of_le hdeleted with hlt | rfl
        · exact ⟨.deleteLoop, _, rfl, by simp only [step, hstate]; rw [if_pos ⟨trivial, hlt⟩]⟩
        · exact ⟨.destroyMembers, _, rfl, by
            simp only [step, hstate]
            rw [if_pos ⟨trivial, trivial⟩]⟩
  | destroyed => exact absurd hstate hmain

/-- **`run` returns and the server can be destroyed.** No wake-up is lost: while
the main thread sleeps some thread has not notified it yet.  When the loops have
ended, in whatever way the threads interleave, some step of an epilogue or of
the main thread is possible until the server is destroyed; and no run has more
than ten such steps a thread, four, and two each time the main thread wakes for
no reason. -/
theorem run_returns (s : Lifetime κ) (h : machine.Reach Machine.anyStep s) :
    (.main ∈ s.monitor.sleeping → ∃ i < s.server.numIoThreads,
      s.epilogue i = .inside ∨ s.epilogue i = .locked ∨ s.epilogue i = .counted) ∧
    ((∀ i < s.server.numIoThreads, s.server.thread i = .left ∨ s.server.thread i = .done) →
      s.main ≠ .destroyed → s.CanEnd) ∧
    ∀ later actions, machine.Trace Machine.anyStep s actions later →
      actions.countP Action.ends ≤
        10 * s.server.numIoThreads + 4 + 2 * actions.countP Action.isSpurious := by
  have hplaced := reach_placed h
  refine ⟨fun hasleep => ?_, fun hleft hmain => ?_, fun later actions htrace => ?_⟩
  · by_cases hzero : s.server.countDown = 0
    · obtain ⟨i, hcounted⟩ := (reach_wakes h).asleep ⟨.main, hasleep⟩ hzero
      exact ⟨i, hplaced.small i (by simp [hcounted]), Or.inr (Or.inr hcounted)⟩
    · have hsome : s.server.unfinished.card ≠ 0 :=
        (TcpServer.reach_counted (reach_server h)).count ▸ hzero
      obtain ⟨i, hi⟩ := Finset.card_ne_zero.mp hsome
      obtain ⟨hlt, hnot⟩ := TcpServer.mem_unfinished.mp hi
      rw [ne_eq, ← hplaced.counted i] at hnot
      refine ⟨i, hlt, ?_⟩
      cases hepilogue : s.epilogue i <;> simp_all [Epilogue.hasCounted]
  · cases howner : s.monitor.owner with
    | some p => exact hplaced.owner_goes_on howner hmain
    | none =>
        by_cases hexited : ∀ i < s.server.numIoThreads, s.epilogue i = .exited
        · exact main_goes_on h hleft howner hexited hmain
        · push Not at hexited
          obtain ⟨i, hlt, hnot⟩ := hexited
          have hexists : ¬ s.Deleted i := fun hdeleted =>
            hnot ((reach_joined h).exited (Or.inl hdeleted) i hlt)
          exact hplaced.thread_goes_on howner (hleft i hlt) hnot hexists hmain
  · have hpaid := htrace.paid (machine.Reach Machine.anyStep) Lifetime.work
      (fun action => if action.ends then 1 else 0)
      (fun action => if action.isSpurious then 2 else 0)
      (fun source action target hreach hok hstep =>
        ⟨hreach.step trivial hstep, work_moves (reach_placed hreach)
          (TcpServer.reach_filed (reach_server hreach)) (moves_of_step hstep)⟩) h
    have hle := s.work_le
    rw [sum_price, sum_price] at hpaid
    omega

/-- Two threads; the first one counts down while the main thread sleeps. -/
theorem run_returns_of_two_threads :
    ∃ s : Lifetime Char, machine.Reach Machine.anyStep s ∧ .main ∈ s.monitor.sleeping ∧
      s.server.countDown = 1 ∧
      (∃ i < s.server.numIoThreads,
        s.epilogue i = .inside ∨ s.epilogue i = .locked ∨ s.epilogue i = .counted) ∧
      ∀ later actions, machine.Trace Machine.anyStep s actions later →
        actions.countP Action.ends ≤ 24 + 2 * actions.countP Action.isSpurious := by
  have hnew : machine.Reach Machine.anyStep (new 2 : Lifetime Char) := .init ⟨2, rfl⟩
  obtain ⟨s, hreach, hasleep, hcount, hsize⟩ := hnew.exists_of_leads
    [.server .startThread, .server .startThread, .mainLocks, .mainWaits, .server (.construct 0),
      .server (.store 0), .server (.enterRun 0), .server (.shutdown 7), .server (.stop 7),
      .server (.loop 0 .testRunning), .server (.leaveRun 0), .lock 0, .countDown 0, .notifyOne 0,
      .unlock 0, .mainLocks, .mainWaits]
    (P := fun s => .main ∈ s.monitor.sleeping ∧ s.server.countDown = 1 ∧
      s.server.numIoThreads = 2)
    (by decide)
  obtain ⟨hwaits, -, hbound⟩ := run_returns s hreach
  rw [hsize] at hbound
  exact ⟨s, hreach, hasleep, hcount, hwaits hasleep, hbound⟩

end Lifetime

end Mutiplex
