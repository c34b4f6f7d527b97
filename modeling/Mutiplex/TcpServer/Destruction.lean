/-
# What outlives what

`run` may return, and the owner destroy the server, while I/O threads still
unlock `mutex_` and destroy acceptors that use their loops.  `~TcpServer` joins
the threads before it deletes anything, so no thread of the server's own ever
uses what is gone.  A call of `shutdown` by another thread has no such
protection: between the two statements of `stop` the loop may end, `run` return
and the owner delete the loop.
-/

import Mutiplex.TcpServer.Lifetime

namespace Mutiplex

open CMemory Transition

namespace Lifetime

variable {κ : Type} {s s' : Lifetime κ} {action : Action κ} {i : ℕ}

/-- The thread that takes a step of the server, or calls what takes it. -/
def thread : TcpServer.Action κ → Option ℕ
  | .construct i => some i
  | .store i => some i
  | .enterRun i => some i
  | .loop i action => some (TcpServer.actor i action)
  | .leaveRun i => some i
  | .countDown i => some i
  | .shutdown caller => some caller
  | .stop caller => some caller
  | .stopReturns caller => some caller
  | .shutdownReturns caller => some caller
  | _ => none

/-- An I/O thread that has counted down takes no step of the server any more. -/
theorem Placed.thread_not_done (h : s.Placed)
    (hinTime : s.server.InTime) {action : TcpServer.Action κ} {server : TcpServer κ} {j : ℕ}
    (hruns : s.Runs action) (hstep : s.server.step action = .next server)
    (hthread : thread action = some j) (hlt : j < s.server.numIoThreads) :
    s.server.thread j ≠ .done := by
  have hcalls : s.server.shutdowns j ≠ none → s.server.thread j ≠ .done := by
    intro hcalls hdone
    cases (hinTime.calls j hlt hcalls).symm.trans hdone
  cases TcpServer.moves_of_step hstep with
  | startThread => cases hthread
  | construct hstarted hstate => cases hthread; simp [hstate]
  | store hstate => cases hthread; simp [hstate]
  | enterRun hstate => cases hthread; simp [hstate]
  | loop hnot henter hloop =>
      cases hthread
      have hinside : s.epilogue (TcpServer.actor _ _) = .inside := hruns
      intro hdone
      rw [← h.counted, hinside] at hdone
      cases hdone
  | leaveRun hstate => cases hthread; simp [hstate]
  | countDown => exact hruns.elim
  | returns => cases hthread
  | shutdown hmay =>
      cases hthread
      rcases hmay.2 with hother | ⟨hrunning, -⟩
      · exact absurd hlt (Nat.not_lt.mpr hother)
      · simp [hrunning]
  | stop hwalk => cases hthread; exact hcalls (by simp [hwalk])
  | stopReturns hwalk => cases hthread; exact hcalls (by simp [hwalk])
  | shutdownReturns hwalk => cases hthread; exact hcalls (by simp [hwalk])

/-- While a thread has not exited nothing is deleted. -/
theorem Joined.not_gone (h : s.Joined) {j : ℕ} (hlt : j < s.server.numIoThreads)
    (hnot : s.epilogue j ≠ .exited) : ¬ (s.Deleted i ∨ s.main = .destroyed) :=
  fun hgone => hnot (h.exited hgone j hlt)

theorem Dangles.gone {called : TcpServer.Action κ} (h : s.Dangles called) :
    ∃ i, s.Deleted i ∨ s.main = .destroyed := by
  rcases h with ⟨i, -, hdeleted⟩ | hdestroyed
  · exact ⟨i, Or.inl hdeleted⟩
  · exact ⟨0, Or.inr hdestroyed⟩

/-- Only after `run` has returned. -/
theorem hasReturned_of_gone (h : s.Deleted i ∨ s.main = .destroyed) :
    s.main.hasReturned = true := by
  rcases h with hdeleted | hdestroyed
  · unfold Deleted at hdeleted
    split at hdeleted <;> simp_all [MainState.hasReturned]
  · rw [hdestroyed]
    rfl

theorem serverStep_eq_fault {called : TcpServer.Action κ} {rest : Lifetime κ → Lifetime κ}
    {fault : Fault} (h : s.serverStep called rest = .fault fault) :
    s.server.step called = .fault fault ∨
      s.Dangles called ∧ ∃ server, s.server.step called = .next server := by
  unfold serverStep at h
  split at h
  · cases h
  · rename_i hfault
    cases h
    exact Or.inl hfault
  · split at h <;> cases h
    exact Or.inr ⟨‹_›, _, ‹_›⟩

theorem monitorStep_eq_fault {monitor : Option (Monitor Party)} {rest : Lifetime κ → Lifetime κ}
    {fault : Fault} (h : s.monitorStep monitor rest = .fault fault) : s.main = .destroyed := by
  unfold monitorStep at h
  split at h
  · cases h
  · split at h <;> cases h
    assumption

/-- A step of the server that goes wrong: `shutdown` came too early, or a thread
that is none of the server's own comes too late. -/
theorem late_of_fault {called : TcpServer.Action κ} {fault : Fault}
    (h : machine.Reach Machine.anyStep s) (hruns : s.Runs called)
    (hfault : s.serverStep called id = .fault fault) :
    ¬ TcpServer.StoredInTime s.server called ∨
      ∃ caller, thread called = some caller ∧ s.server.numIoThreads ≤ caller ∧
        s.Dangles called := by
  have hserver := reach_server h
  have hplaced := reach_placed h
  rcases serverStep_eq_fault hfault with hearly | ⟨hdangles, server, hstep⟩
  · exact Or.inl ((TcpServer.fault_iff (TcpServer.reach_filed hserver) called).mp ⟨fault, hearly⟩)
  · right
    obtain ⟨i, hgone⟩ := hdangles.gone
    cases hthread : thread called with
    | none =>
        cases TcpServer.moves_of_step hstep with
        | startThread hlt =>
            have hreturned := hasReturned_of_gone hgone
            refine absurd (hplaced.started fun hmain => ?_) (Nat.ne_of_lt hlt)
            rw [hmain] at hreturned
            cases hreturned
        | returns => exact hruns.elim
        | _ => cases hthread
    | some caller =>
        refine ⟨caller, rfl, ?_, hdangles⟩
        by_contra hlt
        have hlt := Nat.not_le.mp hlt
        refine hplaced.thread_not_done (TcpServer.reach_inTime hserver) hruns hstep hthread hlt ?_
        rw [← hplaced.counted, (reach_joined h).exited hgone caller hlt]
        rfl

/-- Nobody uses `mutex_` when something is deleted. -/
theorem quiet_of_gone (h : machine.Reach Machine.anyStep s)
    (hgone : s.Deleted i ∨ s.main = .destroyed) :
    (∀ j < s.server.numIoThreads, s.epilogue j = .exited) ∧ s.monitor.owner = none ∧
      s.monitor.sleeping = ∅ := by
  have hplaced := reach_placed h
  have hjoined := reach_joined h
  have hexited := hjoined.exited hgone
  have hreturned := hasReturned_of_gone hgone
  refine ⟨hexited, ?_, Finset.eq_empty_iff_forall_notMem.mpr fun p hp => ?_⟩
  · cases howner : s.monitor.owner with
    | none => rfl
    | some p =>
        cases p with
        | main =>
            rw [hplaced.testing.mpr howner] at hreturned
            cases hreturned
        | io j =>
            have howns := (hplaced.owner j).mpr howner
            have hlt := hplaced.small j fun hinside => by simp [hinside, Epilogue.owns] at howns
            rw [hexited j hlt] at howns
            cases howns
  · rw [(hplaced.asleep p hp).2] at hreturned
    cases hreturned

/-- The steps of the epilogues and of the main thread do not go wrong. -/
theorem called_of_fault {fault : Fault} (h : machine.Reach Machine.anyStep s)
    (hfault : s.step action = .fault fault) :
    ∃ called, action = .server called ∧ s.Runs called ∧
      s.serverStep called id = .fault fault := by
  have hplaced := reach_placed h
  have hjoined := reach_joined h
  have hthread : ∀ {j : ℕ}, j < s.server.numIoThreads → s.epilogue j ≠ .exited →
      ∀ i, ¬ (s.Deleted i ∨ s.main = .destroyed) :=
    fun hlt hnot i => hjoined.not_gone hlt hnot
  have hio : ∀ {j : ℕ}, s.epilogue j ≠ .exited → s.epilogue j ≠ .inside →
      ∀ i, ¬ (s.Deleted i ∨ s.main = .destroyed) :=
    fun {j} hnot hinside => hthread (hplaced.small j hinside) hnot
  cases action with
  | server called =>
      simp only [step] at hfault
      split at hfault
      · exact ⟨called, rfl, ‹_›, hfault⟩
      · cases hfault
  | lock j =>
      simp only [step] at hfault
      split at hfault
      · rename_i hguard
        have hlt := (TcpServer.reach_filed (reach_server h)).lt_of_started j (by simp [hguard.1])
        exact absurd (Or.inr (monitorStep_eq_fault hfault))
          (hthread hlt (by simp [hguard.2]) 0)
      · cases hfault
  | countDown j =>
      simp only [step] at hfault
      split at hfault
      · rename_i hlocked
        rcases serverStep_eq_fault hfault with hserver | ⟨hdangles, -⟩
        · simp only [TcpServer.step] at hserver
          split at hserver <;> cases hserver
        · obtain ⟨i, hgone⟩ := hdangles.gone
          exact absurd hgone (hio (j := j) (by simp [hlocked]) (by simp [hlocked]) i)
      · cases hfault
  | notifyOne j =>
      simp only [step] at hfault
      split at hfault
      · rename_i hcounted
        exact absurd (Or.inr (monitorStep_eq_fault hfault))
          (hio (j := j) (by simp [hcounted]) (by simp [hcounted]) 0)
      · cases hfault
  | unlock j =>
      simp only [step] at hfault
      split at hfault
      · rename_i hnotified
        exact absurd (Or.inr (monitorStep_eq_fault hfault))
          (hio (j := j) (by simp [hnotified]) (by simp [hnotified]) 0)
      · cases hfault
  | closeAcceptor j =>
      simp only [step] at hfault
      split at hfault
      · rename_i hunlocked
        split at hfault
        · exact absurd (Or.inl ‹_›) (hio (j := j) (by simp [hunlocked]) (by simp [hunlocked]) j)
        · cases hfault
      · cases hfault
  | mainLocks =>
      simp only [step] at hfault
      split at hfault
      · rename_i hguard
        have hmain := monitorStep_eq_fault hfault
        simp [hmain] at hguard
      · cases hfault
  | mainWaits =>
      simp only [step] at hfault
      split at hfault
      · rename_i hguard
        have hmain := monitorStep_eq_fault hfault
        simp [hmain] at hguard
      · cases hfault
  | mainReturns =>
      simp only [step] at hfault
      split at hfault
      · rename_i hmain
        split at hfault
        · cases hfault
        · rcases serverStep_eq_fault hfault with hserver | ⟨hdangles, -⟩
          · simp only [TcpServer.step] at hserver
            split at hserver <;> cases hserver
          · obtain ⟨i, hgone⟩ := hdangles.gone
            have hreturned := hasReturned_of_gone hgone
            rw [hmain] at hreturned
            cases hreturned
      · cases hfault
  | _ =>
      simp only [step] at hfault
      repeat' split at hfault
      all_goals cases hfault

/-- **The server outlives its threads.** In every run `~TcpServer` deletes a loop
or the members only when every I/O thread has exited, and nobody owns or waits
for `mutex_` then.  A step of any thread goes wrong only where a walk of
`shutdown` comes to an index before its thread has stored its loop there, or
where a thread that is none of the server's own uses what the owner has
deleted. -/
theorem server_outlives_its_threads (s : Lifetime κ) (h : machine.Reach Machine.anyStep s) :
    (∀ i, s.Deleted i ∨ s.main = .destroyed →
      (∀ j < s.server.numIoThreads, s.epilogue j = .exited) ∧ s.monitor.owner = none ∧
        s.monitor.sleeping = ∅) ∧
      ∀ action fault, s.step action = .fault fault → ∃ called, action = .server called ∧
        (¬ TcpServer.StoredInTime s.server called ∨
          ∃ caller, thread called = some caller ∧ s.server.numIoThreads ≤ caller ∧
            s.Dangles called) := by
  refine ⟨fun i => quiet_of_gone h, fun action fault hfault => ?_⟩
  obtain ⟨called, rfl, hruns, hserver⟩ := called_of_fault h hfault
  exact ⟨called, rfl, late_of_fault h hruns hserver⟩

/-- A thread is between the two statements of `stop` when the owner deletes the
loop. -/
theorem server_outlives_its_threads_of_late_stop :
    ∃ s : Lifetime Char, machine.Reach Machine.anyStep s ∧
      s.step (.server (.stopReturns 7)) = .fault .useAfterFree ∧ s.Deleted 0 ∧
      s.epilogue 0 = .exited ∧ s.monitor.owner = none := by
  have hnew : machine.Reach Machine.anyStep (new 1 : Lifetime Char) := .init ⟨1, rfl⟩
  obtain ⟨s, hreach, hsize, hdeleted, hdangles, hleads⟩ := hnew.exists_of_leads
    [.server .startThread, .mainLocks, .mainWaits, .server (.construct 0), .server (.store 0),
      .server (.enterRun 0), .server (.shutdown 7), .server (.stop 7),
      .server (.loop 0 .testRunning), .server (.leaveRun 0), .lock 0, .countDown 0, .notifyOne 0,
      .unlock 0, .mainLocks, .mainReturns, .destroy, .closeAcceptor 0, .exit 0, .join, .deleteLoop]
    (P := fun s => 0 < s.server.numIoThreads ∧ s.Deleted 0 ∧ s.Dangles (.stopReturns 7) ∧
      (s.server.step (.stopReturns 7)).Leads fun _ => True)
    (by decide)
  obtain ⟨server, hstep, -⟩ := Outcome.leads_iff.mp hleads
  obtain ⟨hexited, hfree, -⟩ := (server_outlives_its_threads s hreach).1 0 (Or.inl hdeleted)
  refine ⟨s, hreach, ?_, hdeleted, hexited 0 hsize, hfree⟩
  simp [step, Runs, serverStep, hstep, hdangles]

end Lifetime

end Mutiplex
