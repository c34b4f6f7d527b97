/-
# The end of a server

Behind `loop->run()` an I/O thread locks `mutex_`, decrements `count_down_`,
notifies `cv_`, unlocks, destroys its acceptor, which still uses the loop, and
exits.  `TcpServer::run` waits on `cv_` until `count_down_` is zero, so it may
return while acceptors still exist; `~TcpServer` joins the threads, deletes the
loops and lets the members go.  This model refines `TcpServer`, in which counting
down and returning are one step each: every step here is one step there or none.

The owner destroys the server after `run` has returned.
-/

import Mutiplex.Lib.Monitor
import Mutiplex.Lib.Potential
import Mutiplex.TcpServer

namespace Mutiplex

open CMemory Transition

/-- Who locks `mutex_`. -/
inductive Party
  | main
  | io (i : ℕ)
  deriving DecidableEq, Repr

/-- Where an I/O thread is behind `loop->run()`. -/
inductive Epilogue
  | /-- It is not: `run` has not returned, or it is about to lock `mutex_`. -/
    inside
  | locked
  | counted
  | notified
  | unlocked
  | /-- `~Acceptor` has deleted its event source. -/
    closed
  | exited
  deriving DecidableEq, Repr

/-- The thread owns `mutex_`. -/
def Epilogue.owns : Epilogue → Bool
  | .locked => true
  | .counted => true
  | .notified => true
  | _ => false

/-- The thread has decremented `count_down_`. -/
def Epilogue.hasCounted : Epilogue → Bool
  | .inside => false
  | .locked => false
  | _ => true

/-- The main thread, in `run` and then in `~TcpServer`. -/
inductive MainState
  | /-- It starts the threads. -/
    starting
  | /-- It owns `mutex_` and tests `count_down_`. -/
    testing
  | /-- In `cv_.wait`, asleep or about to lock `mutex_` again. -/
    waiting
  | returned
  | destroying (joined deleted : ℕ)
  | destroyed
  deriving DecidableEq, Repr

/-- `run` has returned. -/
def MainState.hasReturned : MainState → Bool
  | .starting => false
  | .testing => false
  | .waiting => false
  | _ => true

/-- A server with its mutex, the epilogues of its threads and its owner. -/
structure Lifetime (κ : Type) where
  server : TcpServer κ
  monitor : Monitor Party
  epilogue : ℕ → Epilogue
  main : MainState

namespace Lifetime

variable {κ : Type}

def new (numIoThreads : ℕ) : Lifetime κ where
  server := .new numIoThreads
  monitor := .free
  epilogue _ := .inside
  main := .starting

/-- One step of an I/O thread, of the main thread, or of another one. -/
inductive Action (κ : Type)
  | /-- A step that `TcpServer` has, but for the countdown and the return of `run`. -/
    server (action : TcpServer.Action κ)
  | lock (i : ℕ)
  | countDown (i : ℕ)
  | notifyOne (i : ℕ)
  | unlock (i : ℕ)
  | closeAcceptor (i : ℕ)
  | exit (i : ℕ)
  | mainLocks
  | mainWaits
  | /-- The main thread wakes up for no reason. -/
    wakes
  | mainReturns
  | destroy
  | join
  | deleteLoop
  | destroyMembers

variable (s : Lifetime κ)

/-- `io_loops_[i]` has been deleted. -/
def Deleted (i : ℕ) : Prop :=
  match s.main with
  | .destroying _ deleted => i < deleted
  | .destroyed => True
  | _ => False

instance (i : ℕ) : Decidable (s.Deleted i) := by
  unfold Deleted
  split <;> infer_instance

/-- The loop in the entry of `io_loops_` that a walk has reached. -/
def loopAt (caller : ℕ) : Option ℕ :=
  (s.server.shutdowns caller).bind fun walk => (s.server.ioLoops[walk.index]?).join

/-- The loop a step uses. -/
def loopOf : TcpServer.Action κ → Option ℕ
  | .enterRun i => some i
  | .loop i _ => some i
  | .stop caller => s.loopAt caller
  | .stopReturns caller => s.loopAt caller
  | _ => none

/-- A step uses a loop that was deleted, or the server that was destroyed. -/
def Dangles (action : TcpServer.Action κ) : Prop :=
  (∃ i ∈ s.loopOf action, s.Deleted i) ∨ s.main = .destroyed

instance (action : TcpServer.Action κ) : Decidable (s.Dangles action) :=
  inferInstanceAs (Decidable ((∃ i ∈ s.loopOf action, s.Deleted i) ∨ s.main = .destroyed))

/-- An I/O thread that has left its loop runs no user code. -/
def Runs : TcpServer.Action κ → Prop
  | .countDown _ => False
  | .returns => False
  | .loop i action => s.epilogue (TcpServer.actor i action) = .inside
  | _ => True

instance (action : TcpServer.Action κ) : Decidable (s.Runs action) := by
  unfold Runs
  split <;> infer_instance

/-- Thread `i` goes on to its next statement. -/
def goTo (i : ℕ) (epilogue : Epilogue) : Lifetime κ :=
  { s with epilogue := Function.update s.epilogue i epilogue }

@[simp]
theorem goTo_self (i : ℕ) (epilogue : Epilogue) :
    (s.goTo i epilogue).epilogue i = epilogue :=
  Function.update_self ..

theorem goTo_of_ne {i j : ℕ} (h : j ≠ i) (epilogue : Epilogue) :
    (s.goTo i epilogue).epilogue j = s.epilogue j :=
  Function.update_of_ne h ..

/-- Let the server take a step and go on from there. -/
def serverStep (action : TcpServer.Action κ) (rest : Lifetime κ → Lifetime κ) :
    Outcome (Lifetime κ) Fault :=
  match s.server.step action with
  | .blocked => .blocked
  | .fault fault => .fault fault
  | .next server =>
      if s.Dangles action then .fault .useAfterFree else .next (rest { s with server := server })

/-- Use `mutex_` and `cv_` and go on from there. -/
def monitorStep (monitor : Option (Monitor Party)) (rest : Lifetime κ → Lifetime κ) :
    Outcome (Lifetime κ) Fault :=
  match monitor with
  | none => .blocked
  | some monitor =>
      if s.main = .destroyed then .fault .useAfterFree
      else .next (rest { s with monitor := monitor })

/-- The thread that `notify_one` wakes. -/
def sleeper : Option Party := if .main ∈ s.monitor.sleeping then some .main else none

/-- One step. -/
def step : Action κ → Outcome (Lifetime κ) Fault
  | .server action => if s.Runs action then s.serverStep action id else .blocked
  | .lock i =>
      if s.server.thread i = .left ∧ s.epilogue i = .inside then
        s.monitorStep (s.monitor.lock (.io i)) (·.goTo i .locked)
      else .blocked
  | .countDown i =>
      if s.epilogue i = .locked then s.serverStep (.countDown i) (·.goTo i .counted)
      else .blocked
  | .notifyOne i =>
      if s.epilogue i = .counted then
        s.monitorStep (s.monitor.notifyOne s.sleeper) (·.goTo i .notified)
      else .blocked
  | .unlock i =>
      if s.epilogue i = .notified then
        s.monitorStep (s.monitor.unlock (.io i)) (·.goTo i .unlocked)
      else .blocked
  | .closeAcceptor i =>
      if s.epilogue i = .unlocked then
        if s.Deleted i then .fault .useAfterFree else .next (s.goTo i .closed)
      else .blocked
  | .exit i => if s.epilogue i = .closed then .next (s.goTo i .exited) else .blocked
  | .mainLocks =>
      if s.main = .waiting ∨ s.main = .starting ∧ s.server.started = s.server.numIoThreads then
        s.monitorStep (s.monitor.lock .main) fun s => { s with main := .testing }
      else .blocked
  | .mainWaits =>
      if s.main = .testing ∧ 0 < s.server.countDown then
        s.monitorStep (s.monitor.wait .main) fun s => { s with main := .waiting }
      else .blocked
  | .wakes =>
      if s.main = .waiting then .next { s with monitor := s.monitor.wake .main } else .blocked
  | .mainReturns =>
      if s.main = .testing then
        match s.monitor.unlock .main with
        | none => .blocked
        | some monitor =>
            s.serverStep .returns fun s => { s with monitor := monitor, main := .returned }
      else .blocked
  | .destroy => if s.main = .returned then .next { s with main := .destroying 0 0 } else .blocked
  | .join =>
      match s.main with
      | .destroying joined deleted =>
          if joined < s.server.numIoThreads ∧ s.epilogue joined = .exited then
            .next { s with main := .destroying (joined + 1) deleted }
          else .blocked
      | _ => .blocked
  | .deleteLoop =>
      match s.main with
      | .destroying joined deleted =>
          if joined = s.server.numIoThreads ∧ deleted < s.server.numIoThreads then
            .next { s with main := .destroying joined (deleted + 1) }
          else .blocked
      | _ => .blocked
  | .destroyMembers =>
      match s.main with
      | .destroying joined deleted =>
          if joined = s.server.numIoThreads ∧ deleted = s.server.numIoThreads then
            .next { s with main := .destroyed }
          else .blocked
      | _ => .blocked

/-- The lifetime as a machine, for every number of threads. -/
def machine : Machine (Lifetime κ) (Action κ) Fault where
  Init s := ∃ numIoThreads, s = new numIoThreads
  step s action := s.step action

variable {s} {s' : Lifetime κ} {action : Action κ} {i : ℕ}

/-! ## The steps one by one -/

/-- The steps one by one, each with its guard and its effect. -/
inductive Moves (s : Lifetime κ) : Action κ → Lifetime κ → Prop
  | server {action : TcpServer.Action κ} {server : TcpServer κ} (hruns : s.Runs action)
      (hstep : s.server.step action = .next server) :
      Moves s (.server action) { s with server := server }
  | lock {i : ℕ} {monitor : Monitor Party} (hthread : s.server.thread i = .left)
      (hinside : s.epilogue i = .inside) (hlock : s.monitor.lock (.io i) = some monitor) :
      Moves s (.lock i) ({ s with monitor := monitor }.goTo i .locked)
  | countDown {i : ℕ} {server : TcpServer κ} (hlocked : s.epilogue i = .locked)
      (hstep : s.server.step (.countDown i) = .next server) :
      Moves s (.countDown i) ({ s with server := server }.goTo i .counted)
  | notifyOne {i : ℕ} {monitor : Monitor Party} (hcounted : s.epilogue i = .counted)
      (hnotify : s.monitor.notifyOne s.sleeper = some monitor) :
      Moves s (.notifyOne i) ({ s with monitor := monitor }.goTo i .notified)
  | unlock {i : ℕ} {monitor : Monitor Party} (hnotified : s.epilogue i = .notified)
      (hunlock : s.monitor.unlock (.io i) = some monitor) :
      Moves s (.unlock i) ({ s with monitor := monitor }.goTo i .unlocked)
  | closeAcceptor {i : ℕ} (hunlocked : s.epilogue i = .unlocked) :
      Moves s (.closeAcceptor i) (s.goTo i .closed)
  | exit {i : ℕ} (hclosed : s.epilogue i = .closed) : Moves s (.exit i) (s.goTo i .exited)
  | mainLocks {monitor : Monitor Party}
      (hmain : s.main = .waiting ∨
        s.main = .starting ∧ s.server.started = s.server.numIoThreads)
      (hlock : s.monitor.lock .main = some monitor) :
      Moves s .mainLocks { s with monitor := monitor, main := .testing }
  | mainWaits {monitor : Monitor Party} (hmain : s.main = .testing)
      (hcount : 0 < s.server.countDown) (hwait : s.monitor.wait .main = some monitor) :
      Moves s .mainWaits { s with monitor := monitor, main := .waiting }
  | wakes (hmain : s.main = .waiting) :
      Moves s .wakes { s with monitor := s.monitor.wake .main }
  | mainReturns {monitor : Monitor Party} {server : TcpServer κ} (hmain : s.main = .testing)
      (hunlock : s.monitor.unlock .main = some monitor)
      (hstep : s.server.step .returns = .next server) :
      Moves s .mainReturns { s with server := server, monitor := monitor, main := .returned }
  | destroy (hmain : s.main = .returned) : Moves s .destroy { s with main := .destroying 0 0 }
  | join {joined deleted : ℕ} (hmain : s.main = .destroying joined deleted)
      (hlt : joined < s.server.numIoThreads) (hexited : s.epilogue joined = .exited) :
      Moves s .join { s with main := .destroying (joined + 1) deleted }
  | deleteLoop {deleted : ℕ} (hmain : s.main = .destroying s.server.numIoThreads deleted)
      (hlt : deleted < s.server.numIoThreads) :
      Moves s .deleteLoop { s with main := .destroying s.server.numIoThreads (deleted + 1) }
  | destroyMembers
      (hmain : s.main = .destroying s.server.numIoThreads s.server.numIoThreads) :
      Moves s .destroyMembers { s with main := .destroyed }

theorem serverStep_eq_next {action : TcpServer.Action κ} {rest : Lifetime κ → Lifetime κ}
    (h : s.serverStep action rest = .next s') :
    ∃ server, s.server.step action = .next server ∧ s' = rest { s with server := server } := by
  unfold serverStep at h
  split at h
  · cases h
  · cases h
  · split at h <;> cases h
    exact ⟨_, ‹_›, rfl⟩

theorem monitorStep_eq_next {monitor : Option (Monitor Party)} {rest : Lifetime κ → Lifetime κ}
    (h : s.monitorStep monitor rest = .next s') :
    ∃ next, monitor = some next ∧ s' = rest { s with monitor := next } := by
  unfold monitorStep at h
  split at h
  · cases h
  · split at h <;> cases h
    exact ⟨_, rfl, rfl⟩

/-- **There are no other steps.** -/
theorem moves_of_step (h : s.step action = .next s') : Moves s action s' := by
  cases action with
  | server action =>
      simp only [step] at h
      split at h
      · obtain ⟨server, hstep, rfl⟩ := serverStep_eq_next h
        exact .server ‹_› hstep
      · cases h
  | lock i =>
      simp only [step] at h
      split at h
      · rename_i hguard
        obtain ⟨monitor, hlock, rfl⟩ := monitorStep_eq_next h
        exact .lock hguard.1 hguard.2 hlock
      · cases h
  | countDown i =>
      simp only [step] at h
      split at h
      · obtain ⟨server, hstep, rfl⟩ := serverStep_eq_next h
        exact .countDown ‹_› hstep
      · cases h
  | notifyOne i =>
      simp only [step] at h
      split at h
      · obtain ⟨monitor, hnotify, rfl⟩ := monitorStep_eq_next h
        exact .notifyOne ‹_› hnotify
      · cases h
  | unlock i =>
      simp only [step] at h
      split at h
      · obtain ⟨monitor, hunlock, rfl⟩ := monitorStep_eq_next h
        exact .unlock ‹_› hunlock
      · cases h
  | closeAcceptor i =>
      simp only [step] at h
      split at h
      · split at h <;> cases h
        exact .closeAcceptor ‹_›
      · cases h
  | exit i =>
      simp only [step] at h
      split at h <;> cases h
      exact .exit ‹_›
  | mainLocks =>
      simp only [step] at h
      split at h
      · obtain ⟨monitor, hlock, rfl⟩ := monitorStep_eq_next h
        exact .mainLocks ‹_› hlock
      · cases h
  | mainWaits =>
      simp only [step] at h
      split at h
      · rename_i hguard
        obtain ⟨monitor, hwait, rfl⟩ := monitorStep_eq_next h
        exact .mainWaits hguard.1 hguard.2 hwait
      · cases h
  | wakes =>
      simp only [step] at h
      split at h <;> cases h
      exact .wakes ‹_›
  | mainReturns =>
      simp only [step] at h
      split at h
      · split at h
        · cases h
        · obtain ⟨server, hstep, rfl⟩ := serverStep_eq_next h
          exact .mainReturns ‹_› ‹_› hstep
      · cases h
  | destroy =>
      simp only [step] at h
      split at h <;> cases h
      exact .destroy ‹_›
  | join =>
      simp only [step] at h
      split at h
      · split at h
        · rename_i hguard
          cases h
          exact .join ‹_› hguard.1 hguard.2
        · cases h
      · cases h
  | deleteLoop =>
      simp only [step] at h
      split at h
      · rename_i joined deleted hmain
        split at h
        · rename_i hguard
          obtain ⟨rfl, hlt⟩ := hguard
          cases h
          exact .deleteLoop hmain hlt
        · cases h
      · cases h
  | destroyMembers =>
      simp only [step] at h
      split at h
      · rename_i joined deleted hmain
        split at h
        · rename_i hguard
          obtain ⟨rfl, rfl⟩ := hguard
          cases h
          exact .destroyMembers hmain
        · cases h
      · cases h

/-- The invariant rule over these steps. -/
theorem reach_invariant {ok : Lifetime κ → Action κ → Prop} (Inv : Lifetime κ → Prop)
    (hinit : ∀ numIoThreads, Inv (new numIoThreads))
    (hmoves : ∀ source action target, machine.Reach ok source → Inv source →
      Moves source action target → Inv target)
    (h : machine.Reach ok s) : Inv s := by
  refine h.invariant Inv ?_ ?_
  · rintro _ ⟨numIoThreads, rfl⟩
    exact hinit numIoThreads
  · intro source action target hreach hinv _ hstep
    exact hmoves source action target hreach hinv (moves_of_step hstep)

/-! ## Refinement -/

/-- **Every step is one of `TcpServer` or none.** -/
theorem reach_server {ok : Lifetime κ → Action κ → Prop} (h : machine.Reach ok s) :
    TcpServer.machine.Reach Machine.anyStep s.server := by
  refine reach_invariant (fun s => TcpServer.machine.Reach Machine.anyStep s.server) ?_ ?_ h
  · exact fun numIoThreads => .init ⟨numIoThreads, rfl⟩
  · intro source action target _ hserver hmoves
    have hnext : ∀ {action : TcpServer.Action κ} {server : TcpServer κ},
        source.server.step action = .next server →
        TcpServer.machine.Reach Machine.anyStep server :=
      fun hstep => .step hserver trivial hstep
    cases hmoves with
    | server hruns hstep => exact hnext hstep
    | countDown hlocked hstep => exact hnext hstep
    | mainReturns hmain hunlock hstep => exact hnext hstep
    | _ => exact hserver

end Lifetime

namespace TcpServer

variable {κ : Type} {s s' : TcpServer κ} {action : Action κ} {i : ℕ}

/-- What the steps other than the countdown leave alone. -/
theorem Moves.keeps (h : Moves s action s') (hnot : ∀ i, action ≠ .countDown i) :
    s'.numIoThreads = s.numIoThreads ∧ s'.countDown = s.countDown ∧
      (s.started = s.numIoThreads → s'.started = s.numIoThreads) ∧
      (∀ i, s.thread i = .left → s'.thread i = .left) ∧
      ∀ i, s'.thread i = .done ↔ s.thread i = .done := by
  have hgoOn : ∀ {i : ℕ} {state : ThreadState}, s.thread i ≠ .left → s.thread i ≠ .done →
      state ≠ .done → (∀ j, s.thread j = .left → (s.goOn i state).thread j = .left) ∧
        ∀ j, (s.goOn i state).thread j = .done ↔ s.thread j = .done := by
    intro i state hleft hdone hstate
    refine ⟨fun j hj => ?_, fun j => ?_⟩
    · have hij : j ≠ i := fun hij => hleft (hij ▸ hj)
      simpa [goOn, hij] using hj
    · by_cases hij : j = i
      · subst hij
        simp [goOn, hdone, hstate]
      · simp [goOn, hij]
  cases h with
  | startThread hlt =>
      exact ⟨rfl, rfl, fun hall => absurd hall (Nat.ne_of_lt hlt), fun _ => id, fun _ => Iff.rfl⟩
  | construct hstarted hthread =>
      exact ⟨rfl, rfl, id, hgoOn (by simp [hthread]) (by simp [hthread]) (by simp)⟩
  | store hthread =>
      exact ⟨rfl, rfl, id, hgoOn (by simp [hthread]) (by simp [hthread]) (by simp)⟩
  | enterRun hthread hstep =>
      exact ⟨rfl, rfl, id, hgoOn (by simp [hthread]) (by simp [hthread]) (by simp)⟩
  | leaveRun hthread hphase =>
      exact ⟨rfl, rfl, id, hgoOn (by simp [hthread]) (by simp [hthread]) (by simp)⟩
  | @countDown i hthread => exact absurd rfl (hnot i)
  | _ => exact ⟨rfl, rfl, id, fun _ => id, fun _ => Iff.rfl⟩

theorem step_of_leaveRun (h : s.step (.leaveRun i) = .next s') : s.shutdowns i = none := by
  simp only [step] at h
  split at h
  · exact (‹_ ∧ _› : _ ∧ _ ∧ _).2.2
  · cases h

/-- An I/O thread that has not left its loop for good is in it while it calls
`shutdown`; and who has made its loop was started. -/
structure InTime (s : TcpServer κ) : Prop where
  calls : ∀ i < s.numIoThreads, s.shutdowns i ≠ none → s.thread i = .running
  started : ∀ i, s.thread i ≠ .starting → i < s.started

theorem InTime.moves (h : s.InTime) (hmoves : Moves s action s')
    (hleave : ∀ i, action = .leaveRun i → s.shutdowns i = none) : s'.InTime := by
  have hgoOn : ∀ {i : ℕ} {state : ThreadState},
      (i < s.numIoThreads → s.shutdowns i ≠ none → state = .running) → i < s.started →
      (∀ j < s.numIoThreads, s.shutdowns j ≠ none → (s.goOn i state).thread j = .running) ∧
        ∀ j, (s.goOn i state).thread j ≠ .starting → j < s.started := by
    intro i state hself hstarted
    refine ⟨fun j hj hcalls => ?_, fun j hj => ?_⟩
    · by_cases hij : j = i
      · subst hij
        simpa [goOn] using hself hj hcalls
      · simpa [goOn, hij] using h.calls j hj hcalls
    · by_cases hij : j = i
      · exact hij ▸ hstarted
      · exact h.started j (by simpa [goOn, hij] using hj)
  have hkeeps : ∀ {i : ℕ} {state : ThreadState}, s.thread i ≠ .running → i < s.started →
      (∀ j < s.numIoThreads, s.shutdowns j ≠ none → (s.goOn i state).thread j = .running) ∧
        ∀ j, (s.goOn i state).thread j ≠ .starting → j < s.started :=
    fun hnot => hgoOn fun hlt hcalls => absurd (h.calls _ hlt hcalls) hnot
  have hwalkTo : ∀ {caller : ℕ} {walk : Option Walk},
      (caller < s.numIoThreads → walk ≠ none → s.thread caller = .running) →
      ∀ j < s.numIoThreads, (s.walkTo caller walk).shutdowns j ≠ none →
        s.thread j = .running := by
    intro caller walk hself j hj hcalls
    by_cases hjc : j = caller
    · subst hjc
      exact hself hj (by simpa [walkTo] using hcalls)
    · exact h.calls j hj (by simpa [walkTo, hjc] using hcalls)
  cases hmoves with
  | startThread hlt => exact ⟨h.calls, fun i hi => Nat.lt_succ_of_lt (h.started i hi)⟩
  | @construct i hstarted hthread =>
      obtain ⟨hcalls, hall⟩ := hkeeps (i := i) (by simp [hthread]) hstarted
      exact ⟨hcalls, hall⟩
  | @store i hthread =>
      obtain ⟨hcalls, hall⟩ := hkeeps (by simp [hthread]) (h.started i (by simp [hthread]))
      exact ⟨hcalls, hall⟩
  | @enterRun i loop hthread hstep =>
      obtain ⟨hcalls, hall⟩ := hgoOn (fun _ _ => rfl) (h.started i (by simp [hthread]))
      exact ⟨hcalls, hall⟩
  | @leaveRun i hthread hphase =>
      obtain ⟨hcalls, hall⟩ := hgoOn (fun _ hcalls => absurd (hleave i rfl) hcalls)
        (h.started i (by simp [hthread]))
      exact ⟨hcalls, hall⟩
  | @countDown i hthread =>
      obtain ⟨hcalls, hall⟩ := hkeeps (by simp [hthread]) (h.started i (by simp [hthread]))
      exact ⟨hcalls, hall⟩
  | shutdown hmay =>
      refine ⟨hwalkTo fun hlt _ => ?_, h.started⟩
      rcases hmay.2 with hother | ⟨hrunning, -⟩
      · exact absurd hlt (Nat.not_lt.mpr hother)
      · exact hrunning
  | stop hwalk hentry hstep =>
      exact ⟨hwalkTo fun hlt _ => h.calls _ hlt (by simp [hwalk]), h.started⟩
  | stopReturns hwalk hentry hstep =>
      exact ⟨hwalkTo fun hlt _ => h.calls _ hlt (by simp [hwalk]), h.started⟩
  | shutdownReturns hwalk => exact ⟨hwalkTo fun _ hsome => absurd rfl hsome, h.started⟩
  | _ => exact ⟨h.calls, h.started⟩

theorem reach_inTime {ok : TcpServer κ → Action κ → Prop} (h : machine.Reach ok s) :
    s.InTime := by
  refine h.invariant InTime ?_ ?_
  · rintro _ ⟨numIoThreads, rfl⟩
    exact ⟨by simp [new], by simp [new]⟩
  · intro source action target _ hinv _ hstep
    refine hinv.moves (moves_of_step hstep) ?_
    rintro i rfl
    exact step_of_leaveRun hstep

end TcpServer

namespace Lifetime

variable {κ : Type} {s s' : Lifetime κ} {action : Action κ} {i : ℕ}

/-! ## The monitor -/

/-- Where the threads and the main thread are, beside the mutex and the count. -/
structure Placed (s : Lifetime κ) : Prop where
  small : ∀ i, s.epilogue i ≠ .inside → i < s.server.numIoThreads
  locked : ∀ i, s.epilogue i = .locked → s.server.thread i = .left
  counted : ∀ i, (s.epilogue i).hasCounted = true ↔ s.server.thread i = .done
  owner : ∀ i, (s.epilogue i).owns = true ↔ s.monitor.owner = some (.io i)
  testing : s.main = .testing ↔ s.monitor.owner = some .main
  asleep : ∀ p ∈ s.monitor.sleeping, p = .main ∧ s.main = .waiting
  started : s.main ≠ .starting → s.server.started = s.server.numIoThreads
  count : s.main.hasReturned = true → s.server.countDown = 0

/-- A thread takes a step of its epilogue other than the countdown. -/
theorem Placed.goTo (h : s.Placed) {monitor : Monitor Party} {epilogue : Epilogue}
    (hlt : i < s.server.numIoThreads)
    (hlocked : epilogue = .locked → s.server.thread i = .left)
    (hcounted : epilogue.hasCounted = (s.epilogue i).hasCounted)
    (howns : epilogue.owns = true ↔ monitor.owner = some (.io i))
    (hothers : ∀ p ≠ .io i, monitor.owner = some p ↔ s.monitor.owner = some p)
    (hsleeping : monitor.sleeping ⊆ s.monitor.sleeping) :
    ({ s with monitor := monitor }.goTo i epilogue).Placed where
  small j hj := by
    by_cases hij : j = i
    · exact hij ▸ hlt
    · exact h.small j (by simpa [Lifetime.goTo, hij] using hj)
  locked j hj := by
    by_cases hij : j = i
    · subst hij
      exact hlocked (by simpa [Lifetime.goTo] using hj)
    · exact h.locked j (by simpa [Lifetime.goTo, hij] using hj)
  counted j := by
    refine Iff.trans ?_ (h.counted j)
    by_cases hij : j = i
    · subst hij
      simp [Lifetime.goTo, hcounted]
    · simp [Lifetime.goTo, hij]
  owner j := by
    by_cases hij : j = i
    · subst hij
      simpa [Lifetime.goTo] using howns
    · have hother : monitor.owner = some (.io j) ↔ s.monitor.owner = some (.io j) :=
        hothers _ (by simpa using hij)
      show _ ↔ monitor.owner = some (.io j)
      rw [hother, ← h.owner j]
      simp [Lifetime.goTo, hij]
  testing := h.testing.trans (hothers _ (by simp)).symm
  asleep p hp := h.asleep p (hsleeping hp)
  started := h.started
  count := h.count

theorem Placed.countDown (h : s.Placed) {server : TcpServer κ} (hlocked : s.epilogue i = .locked)
    (hstep : s.server.step (.countDown i) = .next server) :
    ({ s with server := server }.goTo i .counted).Placed := by
  cases TcpServer.moves_of_step hstep with
  | countDown hthread =>
      refine ⟨fun j hj => ?_, fun j hj => ?_, fun j => ?_, fun j => ?_, h.testing, h.asleep,
        h.started, fun hreturned => ?_⟩
      · by_cases hij : j = i
        · exact hij ▸ h.small i (by simp [hlocked])
        · exact h.small j (by simpa [Lifetime.goTo, hij] using hj)
      · by_cases hij : j = i
        · subst hij
          simp [Lifetime.goTo] at hj
        · simpa [Lifetime.goTo, TcpServer.goOn, hij] using
            h.locked j (by simpa [Lifetime.goTo, hij] using hj)
      · by_cases hij : j = i
        · subst hij
          simp [Lifetime.goTo, TcpServer.goOn, Epilogue.hasCounted]
        · simpa [Lifetime.goTo, TcpServer.goOn, hij] using h.counted j
      · have howner := h.owner j
        by_cases hij : j = i
        · subst hij
          rw [hlocked] at howner
          simpa [Lifetime.goTo, Epilogue.owns] using howner
        · simpa [Lifetime.goTo, hij] using howner
      · show s.server.countDown - 1 = 0
        rw [h.count hreturned]

/-- The owner destroys the server. -/
theorem Placed.destroys (h : s.Placed) {main : MainState} (hbefore : s.main.hasReturned = true)
    (hafter : main.hasReturned = true) : ({ s with main := main } : Lifetime κ).Placed := by
  have hstarted : s.main ≠ .starting := fun hmain => by
    simp [hmain, MainState.hasReturned] at hbefore
  have htesting : s.main ≠ .testing := fun hmain => by
    simp [hmain, MainState.hasReturned] at hbefore
  have hwaiting : s.main ≠ .waiting := fun hmain => by
    simp [hmain, MainState.hasReturned] at hbefore
  refine ⟨h.small, h.locked, h.counted, h.owner, iff_of_false ?_ fun howner => ?_,
    fun p hp => absurd (h.asleep p hp).2 hwaiting, fun _ => h.started hstarted,
    fun _ => h.count hbefore⟩
  · rintro rfl
    cases hafter
  · exact htesting (h.testing.mpr howner)

theorem Placed.moves (h : s.Placed) (hfiled : s.server.Filed) (hmoves : Moves s action s') :
    s'.Placed := by
  cases hmoves with
  | @server action server hruns hstep =>
      have hnot : ∀ i, action ≠ .countDown i := by
        rintro i rfl
        exact hruns
      obtain ⟨hsize, hcount, hstarted, hleft, hdone⟩ :=
        (TcpServer.moves_of_step hstep).keeps hnot
      exact ⟨fun i hi => hsize ▸ h.small i hi, fun i hi => hleft i (h.locked i hi),
        fun i => (h.counted i).trans (hdone i).symm, h.owner, h.testing, h.asleep,
        fun hmain => (hstarted (h.started hmain)).trans hsize.symm,
        fun hreturned => hcount.trans (h.count hreturned)⟩
  | @lock i monitor hthread hinside hlock =>
      obtain ⟨⟨hfree, -⟩, rfl⟩ := Monitor.lock_eq_some.mp hlock
      refine h.goTo (hfiled.lt_of_started i (by simp [hthread])) (fun _ => hthread)
        (by rw [hinside]; rfl) (iff_of_true rfl rfl) (fun p hp => ?_) (fun _ => id)
      simp [hfree, Ne.symm hp]
  | countDown hlocked hstep => exact h.countDown hlocked hstep
  | @notifyOne i monitor hcounted hnotify =>
      have howner := Monitor.owner_of_notifyOne hnotify
      have hself := h.owner i
      rw [hcounted, ← howner] at hself
      refine h.goTo (h.small i (by simp [hcounted])) (by simp) (by rw [hcounted]; rfl) hself
        (fun p _ => by rw [howner]) fun p hp => ?_
      exact Monitor.sleeping_subset_of_notifyOne hnotify hp
  | @unlock i monitor hnotified hunlock =>
      obtain ⟨howner, rfl⟩ := Monitor.unlock_eq_some.mp hunlock
      refine h.goTo (h.small i (by simp [hnotified])) (by simp) (by rw [hnotified]; rfl)
        (by simp [Epilogue.owns]) (fun p hp => ?_) (fun _ => id)
      simp [howner, Ne.symm hp]
  | @closeAcceptor i hunlocked =>
      have hself := h.owner i
      rw [hunlocked] at hself
      exact h.goTo (h.small i (by simp [hunlocked])) (by simp) (by rw [hunlocked]; rfl) hself
        (fun _ _ => Iff.rfl) fun _ => id
  | @exit i hclosed =>
      have hself := h.owner i
      rw [hclosed] at hself
      exact h.goTo (h.small i (by simp [hclosed])) (by simp) (by rw [hclosed]; rfl) hself
        (fun _ _ => Iff.rfl) fun _ => id
  | mainLocks hmain hlock =>
      obtain ⟨⟨hfree, hawake⟩, rfl⟩ := Monitor.lock_eq_some.mp hlock
      refine ⟨h.small, h.locked, h.counted, fun i => ?_, iff_of_true rfl rfl, fun p hp => ?_,
        fun _ => ?_, by simp [MainState.hasReturned]⟩
      · rw [h.owner i, hfree]
        simp
      · exact absurd ((h.asleep p hp).1 ▸ hp) hawake
      · rcases hmain with hmain | ⟨-, hall⟩
        · exact h.started (by simp [hmain])
        · exact hall
  | mainWaits hmain hcount hwait =>
      obtain ⟨howner, rfl⟩ := Monitor.wait_eq_some.mp hwait
      refine ⟨h.small, h.locked, h.counted, fun i => ?_, by simp, fun p hp => ⟨?_, rfl⟩,
        fun _ => h.started (by simp [hmain]), by simp [MainState.hasReturned]⟩
      · rw [h.owner i, howner]
        simp
      · rcases Finset.mem_insert.mp hp with rfl | hp
        · rfl
        · exact (h.asleep p hp).1
  | wakes hmain =>
      exact ⟨h.small, h.locked, h.counted, h.owner, h.testing,
        fun p hp => h.asleep p (Finset.mem_of_mem_erase hp), h.started, h.count⟩
  | mainReturns hmain hunlock hstep =>
      obtain ⟨howner, rfl⟩ := Monitor.unlock_eq_some.mp hunlock
      cases TcpServer.moves_of_step hstep with
      | returns hstarted hcount =>
          refine ⟨h.small, h.locked, h.counted, fun i => ?_, by simp, fun p hp => ?_,
            fun _ => hstarted, fun _ => hcount⟩
          · rw [h.owner i, howner]
            simp
          · cases hmain.symm.trans (h.asleep p hp).2
  | destroy hmain => exact h.destroys (by rw [hmain]; rfl) rfl
  | join hmain hlt hexited => exact h.destroys (by rw [hmain]; rfl) rfl
  | deleteLoop hmain hlt => exact h.destroys (by rw [hmain]; rfl) rfl
  | destroyMembers hmain => exact h.destroys (by rw [hmain]; rfl) rfl

theorem reach_placed {ok : Lifetime κ → Action κ → Prop} (h : machine.Reach ok s) :
    s.Placed := by
  refine reach_invariant Placed ?_ ?_ h
  · intro numIoThreads
    exact ⟨by simp [new], by simp [new], by simp [new, TcpServer.new, Epilogue.hasCounted],
      by simp [new, Epilogue.owns, Monitor.free], by simp [new, Monitor.free],
      by simp [new, Monitor.free], by simp [new], by simp [new, MainState.hasReturned]⟩
  · exact fun _ _ _ hreach hinv hmoves =>
      hinv.moves (TcpServer.reach_filed (reach_server hreach)) hmoves

/-- A thread is between the countdown and the notification. -/
def Pending (s : Lifetime κ) : Prop := ∃ i, s.epilogue i = .counted

theorem pending_goTo {epilogue : Epilogue} (hold : s.epilogue i ≠ .counted)
    (hnew : epilogue ≠ .counted) : (s.goTo i epilogue).Pending ↔ s.Pending := by
  refine exists_congr fun j => ?_
  by_cases hij : j = i
  · subst hij
    simp [goTo, hold, hnew]
  · simp [goTo, hij]

/-- Only the thread that owns the mutex can be there. -/
theorem Placed.pending_owner (h : s.Placed) {j : ℕ} (hcounted : s.epilogue j = .counted) :
    s.monitor.owner = some (.io j) :=
  (h.owner j).mp (by rw [hcounted]; rfl)

theorem Placed.not_pending (h : s.Placed) (howner : s.monitor.owner = some .main) :
    ¬ s.Pending := by
  rintro ⟨j, hj⟩
  cases howner.symm.trans (h.pending_owner hj)

/-- It notifies, or has notified. -/
theorem Placed.not_pending_goTo (h : s.Placed) {epilogue : Epilogue}
    (howner : s.monitor.owner = some (.io i)) (hnew : epilogue ≠ .counted) :
    ¬ (s.goTo i epilogue).Pending := by
  rintro ⟨j, hj⟩
  by_cases hij : j = i
  · subst hij
    exact hnew (by simpa [Lifetime.goTo] using hj)
  · have hcounted : s.epilogue j = .counted := by simpa [Lifetime.goTo, hij] using hj
    cases howner.symm.trans (h.pending_owner hcounted)
    exact hij rfl

/-- No wake-up of the main thread, which waits for `count_down_` to be 0, is
lost. -/
def Wakes (s : Lifetime κ) : Prop := s.monitor.Sound (s.server.countDown = 0) s.Pending

theorem Wakes.moves (h : s.Wakes) (hplaced : s.Placed) (hmoves : Moves s action s') :
    s'.Wakes := by
  unfold Wakes at h ⊢
  cases hmoves with
  | @server action server hruns hstep =>
      have hnot : ∀ i, action ≠ .countDown i := by
        rintro i rfl
        exact hruns
      obtain ⟨-, hcount, -⟩ := (TcpServer.moves_of_step hstep).keeps hnot
      show s.monitor.Sound (server.countDown = 0) s.Pending
      rwa [hcount]
  | @lock i monitor hthread hinside hlock =>
      rw [pending_goTo (by simp [hinside]) (by simp)]
      exact h.lock hlock
  | @countDown i server hlocked hstep =>
      have howner : s.monitor.owner = some (.io i) := (hplaced.owner i).mp (by rw [hlocked]; rfl)
      exact Monitor.Sound.change (m := s.monitor) howner ⟨i, by simp [goTo]⟩
  | @notifyOne i monitor hcounted hnotify =>
      have howner := hplaced.pending_owner hcounted
      refine .notifyOne (i := .main) hnotify (fun p hp => (hplaced.asleep p hp).1) ?_
      exact hplaced.not_pending_goTo howner (by simp)
  | @unlock i monitor hnotified hunlock =>
      have howner := (Monitor.unlock_eq_some.mp hunlock).1
      have hnone : ¬ (s.goTo i .unlocked).Pending := hplaced.not_pending_goTo howner (by simp)
      rw [pending_goTo (by simp [hnotified]) (by simp)] at hnone ⊢
      exact h.unlock hunlock hnone
  | @closeAcceptor i hunlocked =>
      rw [pending_goTo (by simp [hunlocked]) (by simp)]
      exact h
  | @exit i hclosed =>
      rw [pending_goTo (by simp [hclosed]) (by simp)]
      exact h
  | mainLocks hmain hlock => exact h.lock hlock
  | mainWaits hmain hcount hwait =>
      exact .wait hwait (Nat.ne_of_gt hcount)
        (hplaced.not_pending (Monitor.wait_eq_some.mp hwait).1)
  | wakes hmain => exact h.wake .main
  | mainReturns hmain hunlock hstep =>
      cases TcpServer.moves_of_step hstep with
      | returns hstarted hcount =>
          exact h.unlock hunlock (hplaced.not_pending (Monitor.unlock_eq_some.mp hunlock).1)
  | _ => exact h

theorem reach_wakes {ok : Lifetime κ → Action κ → Prop} (h : machine.Reach ok s) : s.Wakes := by
  refine reach_invariant Wakes ?_ ?_ h
  · intro numIoThreads
    exact Monitor.sound_free fun ⟨_, hcounted⟩ => nomatch hcounted
  · exact fun _ _ _ hreach hinv hmoves => hinv.moves (reach_placed hreach) hmoves

/-! ## The destructor -/

/-- The destructor has joined the threads it has passed, and deletes only when it
has joined all. -/
structure Joined (s : Lifetime κ) : Prop where
  destroying : ∀ joined deleted, s.main = .destroying joined deleted →
    (∀ i < joined, s.epilogue i = .exited) ∧ joined ≤ s.server.numIoThreads ∧
      deleted ≤ s.server.numIoThreads ∧ (0 < deleted → joined = s.server.numIoThreads)
  destroyed : s.main = .destroyed → ∀ i < s.server.numIoThreads, s.epilogue i = .exited

theorem Joined.goTo (h : s.Joined) {server : TcpServer κ} {monitor : Monitor Party}
    {epilogue : Epilogue} (hsize : server.numIoThreads = s.server.numIoThreads)
    (hnot : s.epilogue i ≠ .exited) :
    ({ s with server := server, monitor := monitor }.goTo i epilogue).Joined := by
  have hkept : ∀ j, s.epilogue j = .exited →
      (({ s with server := server, monitor := monitor }).goTo i epilogue).epilogue j = .exited := by
    intro j hj
    have hij : j ≠ i := fun hij => hnot (hij ▸ hj)
    simpa [Lifetime.goTo, hij] using hj
  refine ⟨fun joined deleted hmain => ?_, fun hmain j hj => ?_⟩
  · obtain ⟨hexited, hjoined, hdeleted, hall⟩ := h.destroying joined deleted hmain
    exact ⟨fun j hj => hkept j (hexited j hj), hsize ▸ hjoined, hsize ▸ hdeleted,
      fun hpos => (hall hpos).trans hsize.symm⟩
  · exact hkept j (h.destroyed hmain j (hsize ▸ hj))

theorem Joined.moves (h : s.Joined) (hmoves : Moves s action s') : s'.Joined := by
  have hearly : ∀ {main : MainState} {server : TcpServer κ} {monitor : Monitor Party},
      (∀ joined deleted, main ≠ .destroying joined deleted) → main ≠ .destroyed →
      Joined { s with server := server, monitor := monitor, main := main } :=
    fun hne hnot =>
      ⟨fun joined deleted hmain => absurd hmain (hne joined deleted),
        fun hmain => absurd hmain hnot⟩
  cases hmoves with
  | @server action server hruns hstep =>
      have hnot : ∀ i, action ≠ .countDown i := by
        rintro i rfl
        exact hruns
      have hsize := ((TcpServer.moves_of_step hstep).keeps hnot).1
      refine ⟨fun joined deleted hmain => ?_, fun hmain j hj => ?_⟩
      · obtain ⟨hexited, hjoined, hdeleted, hall⟩ := h.destroying joined deleted hmain
        exact ⟨hexited, hsize ▸ hjoined, hsize ▸ hdeleted, fun hpos => (hall hpos).trans hsize.symm⟩
      · exact h.destroyed hmain j (hsize ▸ hj)
  | lock hthread hinside hlock => exact h.goTo rfl (by simp [hinside])
  | countDown hlocked hstep =>
      cases TcpServer.moves_of_step hstep with
      | countDown hthread => exact h.goTo rfl (by simp [hlocked])
  | notifyOne hcounted hnotify => exact h.goTo rfl (by simp [hcounted])
  | unlock hnotified hunlock => exact h.goTo rfl (by simp [hnotified])
  | closeAcceptor hunlocked => exact h.goTo rfl (by simp [hunlocked])
  | exit hclosed => exact h.goTo rfl (by simp [hclosed])
  | mainLocks hmain hlock => exact hearly (by simp) (by simp)
  | mainWaits hmain hcount hwait => exact hearly (by simp) (by simp)
  | wakes hmain => exact hearly (by simp [hmain]) (by simp [hmain])
  | mainReturns hmain hunlock hstep => exact hearly (by simp) (by simp)
  | destroy hmain =>
      refine ⟨fun joined deleted hdestroying => ?_, fun hdestroyed => nomatch hdestroyed⟩
      cases hdestroying
      exact ⟨fun _ hlt => absurd hlt (Nat.not_lt_zero _), Nat.zero_le _, Nat.zero_le _,
        fun hpos => absurd hpos (Nat.lt_irrefl 0)⟩
  | @join joined deleted hmain hlt hexited =>
      obtain ⟨hall, -, hdeleted, hdone⟩ := h.destroying joined deleted hmain
      refine ⟨fun joined' deleted' hdestroying => ?_, fun hdestroyed => nomatch hdestroyed⟩
      cases hdestroying
      refine ⟨fun i hi => ?_, hlt, hdeleted, fun hpos => absurd (hdone hpos) (Nat.ne_of_lt hlt)⟩
      rcases Nat.lt_succ_iff_lt_or_eq.mp hi with hless | rfl
      · exact hall i hless
      · exact hexited
  | @deleteLoop deleted hmain hlt =>
      obtain ⟨hall, -, -, -⟩ := h.destroying _ deleted hmain
      refine ⟨fun joined' deleted' hdestroying => ?_, fun hdestroyed => nomatch hdestroyed⟩
      cases hdestroying
      exact ⟨hall, Nat.le_refl _, hlt, fun _ => rfl⟩
  | destroyMembers hmain =>
      obtain ⟨hall, -, -, -⟩ := h.destroying _ _ hmain
      exact ⟨by simp, fun _ => hall⟩

theorem reach_joined {ok : Lifetime κ → Action κ → Prop} (h : machine.Reach ok s) :
    s.Joined := by
  refine reach_invariant Joined ?_ ?_ h
  · exact fun numIoThreads => ⟨by simp [new], by simp [new]⟩
  · exact fun _ _ _ _ hinv hmoves => hinv.moves hmoves

/-- A loop is deleted, or the server destroyed, only when all threads have
exited. -/
theorem Joined.exited (h : s.Joined) (hgone : s.Deleted i ∨ s.main = .destroyed) :
    ∀ j < s.server.numIoThreads, s.epilogue j = .exited := by
  rcases hgone with hdeleted | hdestroyed
  · unfold Deleted at hdeleted
    split at hdeleted
    · rename_i joined deleted hmain
      obtain ⟨hexited, -, -, hall⟩ := h.destroying joined deleted hmain
      exact hall (Nat.zero_lt_of_lt hdeleted) ▸ hexited
    · exact h.destroyed ‹_›
    · exact hdeleted.elim
  · exact h.destroyed hdestroyed

end Lifetime

end Mutiplex
