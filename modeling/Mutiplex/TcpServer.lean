/-
# The server and its I/O threads

`TcpServer::run` resizes `io_loops_` to NULLs, starts the threads and waits for
`count_down_` to reach zero.  Each thread makes its loop, stores it under its own
index, runs it, and counts down when it has left it.  `shutdown` walks `io_loops_`
meanwhile, from any thread, and calls `stop` on what it finds.

The I/O threads are numbered from 0, like the entries of `io_loops_`; all other
numbers are other threads.  A thread that is inside `shutdown` does nothing else.
The model begins when `io_loops_` has its size; `finished` records that some call
of `shutdown` has returned.
-/

import Mathlib
import Mutiplex.EventLoop.Scheduling
import Mutiplex.Lib.CMemory

namespace Mutiplex

open CMemory Transition

/-- Where an I/O thread is. -/
inductive ThreadState
  | /-- Not started, or at the construction of its loop. -/
    starting
  | constructed
  | stored
  | running
  | left
  | /-- It has decremented `count_down_`. -/
    done
  deriving DecidableEq, Repr

/-- `io_loops_[index]` has been assigned. -/
def ThreadState.hasStored : ThreadState → Bool
  | .starting => false
  | .constructed => false
  | _ => true

/-- A call of `shutdown`: the index the walk has reached, and whether it is between
the two statements of `stop` there. -/
structure Walk where
  index : ℕ
  inStop : Bool
  deriving DecidableEq, Repr

/-- The number of loops a walk has stopped. -/
def Walk.reached (walk : Walk) : ℕ := if walk.inStop then walk.index + 1 else walk.index

/-- The server, its threads, and the calls of `shutdown`. -/
structure TcpServer (κ : Type) where
  numIoThreads : ℕ
  ioLoops : List (Option ℕ)
  countDown : ℕ
  started : ℕ
  returned : Bool
  thread : ℕ → ThreadState
  loop : ℕ → EventLoop ℕ κ
  shutdowns : ℕ → Option Walk
  finished : Bool

namespace EventLoop

variable {τ κ : Type} [DecidableEq τ] {s s' : EventLoop τ κ} {action : Action τ κ}

/-- Nothing raises `running_` again. -/
theorem running_of_step (h : s.running = false) (hstep : s.step action = some s') :
    s'.running = false := by
  cases moves_of_step hstep with
  | stopFlag hmay => rfl
  | post hmay =>
      unfold postCallback
      split <;> exact h
  | _ => exact h

theorem running_of_stopFlag {thread : τ} (hstep : s.step (.stopFlag thread) = some s') :
    s'.running = false := by
  cases moves_of_step hstep
  rfl

/-- `run` is entered by its call only. -/
theorem outside_of_step (h : s.phase = .outside) (henter : ∀ thread, action ≠ .enterRun thread)
    (hstep : s.step action = some s') : s'.phase = .outside := by
  cases moves_of_step hstep with
  | @enterRun thread => exact absurd rfl (henter thread)
  | leave => rfl
  | waitFails => rfl
  | post hmay => rwa [phase_postCallback]
  | stopFlag => exact h
  | stopNotify => exact h
  | goOn hphase => cases h.symm.trans hphase
  | waitReturns hphase => cases h.symm.trans hphase
  | readNotify hphase => cases h.symm.trans hphase
  | swapPending hphase => cases h.symm.trans hphase
  | callCallback hphase => cases h.symm.trans hphase
  | callbackReturns hphase => cases h.symm.trans hphase
  | endBatch hphase => cases h.symm.trans hphase
  | callTask hphase => cases h.symm.trans hphase
  | taskReturns hphase => cases h.symm.trans hphase
  | endIteration hphase => cases h.symm.trans hphase

end EventLoop

namespace TcpServer

variable {κ : Type}

/-- `run` after `resize`. -/
def new (numIoThreads : ℕ) : TcpServer κ where
  numIoThreads := numIoThreads
  ioLoops := List.replicate numIoThreads none
  countDown := numIoThreads
  started := 0
  returned := false
  thread _ := .starting
  loop i := .new i
  shutdowns _ := none
  finished := false

/-- One step of the main thread, of an I/O thread, or of a call of `shutdown`. -/
inductive Action (κ : Type)
  | /-- `run` starts the next thread. -/
    startThread
  | construct (i : ℕ)
  | store (i : ℕ)
  | enterRun (i : ℕ)
  | /-- A step on a loop, of its own thread or of another one. -/
    loop (i : ℕ) (action : EventLoop.Action ℕ κ)
  | leaveRun (i : ℕ)
  | countDown (i : ℕ)
  | /-- `run` returns. -/
    returns
  | shutdown (caller : ℕ)
  | /-- The walk calls `stop` on the loop it finds. -/
    stop (caller : ℕ)
  | /-- That call returns. -/
    stopReturns (caller : ℕ)
  | shutdownReturns (caller : ℕ)

variable (s : TcpServer κ)

/-- The thread that takes a step on the loop of thread `i`. -/
def actor (i : ℕ) : EventLoop.Action ℕ κ → ℕ
  | .post thread _ => thread
  | .stopFlag thread => thread
  | .stopNotify thread => thread
  | _ => i

/-- A thread can call `shutdown`: another thread at any time, an I/O thread from
the user code of its loop. -/
def MayCall (caller : ℕ) : Prop :=
  s.shutdowns caller = none ∧
    (s.numIoThreads ≤ caller ∨ s.thread caller = .running ∧
      (s.loop caller).phase ≠ .outside ∧ (s.loop caller).phase.userCode = true)

instance (caller : ℕ) : Decidable (s.MayCall caller) := inferInstanceAs (Decidable (_ ∧ _))

/-- Let the loop of thread `i` take a step and go on from there. -/
def loopStep (i : ℕ) (action : EventLoop.Action ℕ κ) (rest : TcpServer κ → TcpServer κ) :
    Outcome (TcpServer κ) Fault :=
  match (s.loop i).step action with
  | none => .blocked
  | some loop => .next (rest { s with loop := Function.update s.loop i loop })

/-- Thread `i` goes on to its next statement. -/
def goOn (i : ℕ) (state : ThreadState) : TcpServer κ :=
  { s with thread := Function.update s.thread i state }

/-- The position of a walk. -/
def walkTo (caller : ℕ) (walk : Option Walk) : TcpServer κ :=
  { s with shutdowns := Function.update s.shutdowns caller walk }

/-- `(*it)->stop()`, up to its first statement. -/
def stop (caller : ℕ) : Outcome (TcpServer κ) Fault :=
  match s.shutdowns caller with
  | some ⟨index, false⟩ =>
      match s.ioLoops[index]? with
      | none => .blocked
      | some none => .fault .nullDereference
      | some (some i) => s.loopStep i (.stopFlag caller) (·.walkTo caller (some ⟨index, true⟩))
  | _ => .blocked

/-- The second statement of `stop`. -/
def stopReturns (caller : ℕ) : Outcome (TcpServer κ) Fault :=
  match s.shutdowns caller with
  | some ⟨index, true⟩ =>
      match s.ioLoops[index]? with
      | some (some i) =>
          s.loopStep i (.stopNotify caller) (·.walkTo caller (some ⟨index + 1, false⟩))
      | _ => .blocked
  | _ => .blocked

/-- One step. -/
def step : Action κ → Outcome (TcpServer κ) Fault
  | .startThread =>
      if s.started < s.numIoThreads then .next { s with started := s.started + 1 } else .blocked
  | .construct i =>
      if i < s.started ∧ s.thread i = .starting then
        .next { s.goOn i .constructed with loop := Function.update s.loop i (.new i) }
      else .blocked
  | .store i =>
      if s.thread i = .constructed then
        .next { s.goOn i .stored with ioLoops := s.ioLoops.set i (some i) }
      else .blocked
  | .enterRun i =>
      if s.thread i = .stored then s.loopStep i (.enterRun i) (·.goOn i .running) else .blocked
  | .loop i action =>
      match action with
      | .enterRun _ => .blocked
      | action =>
          if s.thread i ≠ .starting ∧ s.shutdowns (actor i action) = none then
            s.loopStep i action id
          else .blocked
  | .leaveRun i =>
      if s.thread i = .running ∧ (s.loop i).phase = .outside ∧ s.shutdowns i = none then
        .next (s.goOn i .left)
      else .blocked
  | .countDown i =>
      if s.thread i = .left then .next { s.goOn i .done with countDown := s.countDown - 1 }
      else .blocked
  | .returns =>
      if s.started = s.numIoThreads ∧ s.countDown = 0 then .next { s with returned := true }
      else .blocked
  | .shutdown caller =>
      if s.MayCall caller then .next (s.walkTo caller (some ⟨0, false⟩)) else .blocked
  | .stop caller => s.stop caller
  | .stopReturns caller => s.stopReturns caller
  | .shutdownReturns caller =>
      if s.shutdowns caller = some ⟨s.numIoThreads, false⟩ then
        .next { s.walkTo caller none with finished := true }
      else .blocked

/-- The server as a machine, for every number of threads. -/
def machine : Machine (TcpServer κ) (Action κ) Fault where
  Init s := ∃ numIoThreads, s = new numIoThreads
  step s action := s.step action

/-- The caller whose walk goes on to the next `stop`. -/
def Action.stops : Action κ → Option ℕ
  | .stop caller => some caller
  | _ => none

/-- The walk of `shutdown` reaches an index only after its thread has stored its
loop there. -/
def StoredInTime (s : TcpServer κ) (action : Action κ) : Prop :=
  ∀ caller ∈ action.stops, ∀ walk ∈ s.shutdowns caller, walk.inStop = false →
    walk.index < s.numIoThreads → (s.thread walk.index).hasStored = true

instance : DecidableRel (StoredInTime : TcpServer κ → Action κ → Prop) := fun s action =>
  inferInstanceAs (Decidable (∀ caller ∈ action.stops, ∀ walk ∈ s.shutdowns caller,
    walk.inStop = false → walk.index < s.numIoThreads →
      (s.thread walk.index).hasStored = true))

variable {s} {s' : TcpServer κ} {action : Action κ} {i : ℕ}

/-! ## The steps one by one -/

/-- The steps one by one, each with its guard and its effect. -/
inductive Moves (s : TcpServer κ) : Action κ → TcpServer κ → Prop
  | startThread (hlt : s.started < s.numIoThreads) :
      Moves s .startThread { s with started := s.started + 1 }
  | construct {i : ℕ} (hstarted : i < s.started) (hthread : s.thread i = .starting) :
      Moves s (.construct i)
        { s.goOn i .constructed with loop := Function.update s.loop i (.new i) }
  | store {i : ℕ} (hthread : s.thread i = .constructed) :
      Moves s (.store i) { s.goOn i .stored with ioLoops := s.ioLoops.set i (some i) }
  | enterRun {i : ℕ} {loop : EventLoop ℕ κ} (hthread : s.thread i = .stored)
      (hstep : (s.loop i).step (.enterRun i) = some loop) :
      Moves s (.enterRun i) ({ s with loop := Function.update s.loop i loop }.goOn i .running)
  | loop {i : ℕ} {action : EventLoop.Action ℕ κ} {loop : EventLoop ℕ κ}
      (hthread : s.thread i ≠ .starting) (henter : ∀ thread, action ≠ .enterRun thread)
      (hstep : (s.loop i).step action = some loop) :
      Moves s (.loop i action) { s with loop := Function.update s.loop i loop }
  | leaveRun {i : ℕ} (hthread : s.thread i = .running) (hphase : (s.loop i).phase = .outside) :
      Moves s (.leaveRun i) (s.goOn i .left)
  | countDown {i : ℕ} (hthread : s.thread i = .left) :
      Moves s (.countDown i) { s.goOn i .done with countDown := s.countDown - 1 }
  | returns (hstarted : s.started = s.numIoThreads) (hcount : s.countDown = 0) :
      Moves s .returns { s with returned := true }
  | shutdown {caller : ℕ} (hmay : s.MayCall caller) :
      Moves s (.shutdown caller) (s.walkTo caller (some ⟨0, false⟩))
  | stop {caller index i : ℕ} {loop : EventLoop ℕ κ}
      (hwalk : s.shutdowns caller = some ⟨index, false⟩)
      (hentry : s.ioLoops[index]? = some (some i))
      (hstep : (s.loop i).step (.stopFlag caller) = some loop) :
      Moves s (.stop caller)
        ({ s with loop := Function.update s.loop i loop }.walkTo caller (some ⟨index, true⟩))
  | stopReturns {caller index i : ℕ} {loop : EventLoop ℕ κ}
      (hwalk : s.shutdowns caller = some ⟨index, true⟩)
      (hentry : s.ioLoops[index]? = some (some i))
      (hstep : (s.loop i).step (.stopNotify caller) = some loop) :
      Moves s (.stopReturns caller)
        ({ s with loop := Function.update s.loop i loop }.walkTo caller
          (some ⟨index + 1, false⟩))
  | shutdownReturns {caller : ℕ} (hwalk : s.shutdowns caller = some ⟨s.numIoThreads, false⟩) :
      Moves s (.shutdownReturns caller) { s.walkTo caller none with finished := true }

theorem loopStep_eq_next {action : EventLoop.Action ℕ κ} {rest : TcpServer κ → TcpServer κ}
    (h : s.loopStep i action rest = .next s') :
    ∃ loop, (s.loop i).step action = some loop ∧
      s' = rest { s with loop := Function.update s.loop i loop } := by
  unfold loopStep at h
  split at h
  · cases h
  · rename_i loop hstep
    cases h
    exact ⟨loop, hstep, rfl⟩

theorem moves_of_loop {action : EventLoop.Action ℕ κ} (h : s.step (.loop i action) = .next s') :
    Moves s (.loop i action) s' := by
  have hguarded : ∀ action : EventLoop.Action ℕ κ, (∀ thread, action ≠ .enterRun thread) →
      (if s.thread i ≠ .starting ∧ s.shutdowns (actor i action) = none then
        s.loopStep i action id else .blocked) = .next s' → Moves s (.loop i action) s' := by
    intro action henter hstep
    split at hstep
    · rename_i hguard
      obtain ⟨loop, hloop, rfl⟩ := loopStep_eq_next hstep
      exact .loop hguard.1 henter hloop
    · cases hstep
  cases action with
  | enterRun thread => cases h
  | _ => exact hguarded _ (by simp) h

/-- **There are no other steps.** -/
theorem moves_of_step (h : s.step action = .next s') : Moves s action s' := by
  cases action with
  | startThread =>
      simp only [step] at h
      split at h <;> cases h
      exact .startThread ‹_›
  | construct i =>
      simp only [step] at h
      split at h
      · rename_i hguard
        cases h
        exact .construct hguard.1 hguard.2
      · cases h
  | store i =>
      simp only [step] at h
      split at h <;> cases h
      exact .store ‹_›
  | enterRun i =>
      simp only [step] at h
      split at h
      · obtain ⟨loop, hstep, rfl⟩ := loopStep_eq_next h
        exact .enterRun ‹_› hstep
      · cases h
  | loop i action => exact moves_of_loop h
  | leaveRun i =>
      simp only [step] at h
      split at h
      · rename_i hguard
        cases h
        exact .leaveRun hguard.1 hguard.2.1
      · cases h
  | countDown i =>
      simp only [step] at h
      split at h <;> cases h
      exact .countDown ‹_›
  | returns =>
      simp only [step] at h
      split at h
      · rename_i hguard
        cases h
        exact .returns hguard.1 hguard.2
      · cases h
  | shutdown caller =>
      simp only [step] at h
      split at h <;> cases h
      exact .shutdown ‹_›
  | stop caller =>
      simp only [step, TcpServer.stop] at h
      split at h
      · split at h
        · cases h
        · cases h
        · obtain ⟨loop, hstep, rfl⟩ := loopStep_eq_next h
          exact .stop ‹_› ‹_› hstep
      · cases h
  | stopReturns caller =>
      simp only [step, TcpServer.stopReturns] at h
      split at h
      · split at h
        · obtain ⟨loop, hstep, rfl⟩ := loopStep_eq_next h
          exact .stopReturns ‹_› ‹_› hstep
        · cases h
      · cases h
  | shutdownReturns caller =>
      simp only [step] at h
      split at h <;> cases h
      exact .shutdownReturns ‹_›

/-- The invariant rule over these steps. -/
theorem reach_invariant {ok : TcpServer κ → Action κ → Prop} (Inv : TcpServer κ → Prop)
    (hinit : ∀ numIoThreads, Inv (new numIoThreads))
    (hmoves : ∀ source action target, machine.Reach ok source → Inv source →
      Moves source action target → Inv target)
    (h : machine.Reach ok s) : Inv s := by
  refine h.invariant Inv ?_ ?_
  · rintro _ ⟨numIoThreads, rfl⟩
    exact hinit numIoThreads
  · intro source action target hreach hinv _ hstep
    exact hmoves source action target hreach hinv (moves_of_step hstep)

/-! ## The vector of loops -/

/-- `io_loops_` has the loops of the threads that have come so far. -/
structure Filed (s : TcpServer κ) : Prop where
  size : s.ioLoops.length = s.numIoThreads
  started_le : s.started ≤ s.numIoThreads
  lt_of_started : ∀ i, s.thread i ≠ .starting → i < s.numIoThreads
  entry : ∀ i < s.numIoThreads,
    s.ioLoops[i]? = some (if (s.thread i).hasStored then some i else none)

/-- A thread that has stored its loop, or not, goes on. -/
theorem Filed.goOn (h : s.Filed) {state : ThreadState} (hlt : i < s.numIoThreads)
    (hstored : state.hasStored = (s.thread i).hasStored) : (s.goOn i state).Filed := by
  refine ⟨h.size, h.started_le, fun j hj => ?_, fun j hj => ?_⟩
  · by_cases hij : j = i
    · rwa [hij]
    · exact h.lt_of_started j (by simpa [TcpServer.goOn, hij] using hj)
  · have hsame : ((s.goOn i state).thread j).hasStored = (s.thread j).hasStored := by
      by_cases hij : j = i
      · subst hij
        simpa [TcpServer.goOn] using hstored
      · simp [TcpServer.goOn, hij]
    rw [hsame]
    exact h.entry j hj

theorem Filed.store (h : s.Filed) (hthread : s.thread i = .constructed) :
    { s.goOn i .stored with ioLoops := s.ioLoops.set i (some i) }.Filed := by
  have hlt : i < s.numIoThreads := h.lt_of_started i (by simp [hthread])
  refine ⟨by rw [List.length_set]; exact h.size, h.started_le, fun j hj => ?_, fun j hj => ?_⟩
  · by_cases hij : j = i
    · rwa [hij]
    · exact h.lt_of_started j (by simpa [TcpServer.goOn, hij] using hj)
  · by_cases hij : j = i
    · subst hij
      simp only [TcpServer.goOn, Function.update_self, ThreadState.hasStored, if_true]
      exact List.getElem?_set_self (h.size ▸ hlt)
    · simp only [TcpServer.goOn, Function.update_of_ne hij]
      rw [List.getElem?_set_ne (Ne.symm hij)]
      exact h.entry j hj

theorem Filed.moves (h : s.Filed) (hmoves : Moves s action s') : s'.Filed := by
  cases hmoves with
  | startThread hlt => exact ⟨h.size, hlt, h.lt_of_started, h.entry⟩
  | @construct i hstarted hthread =>
      have hfiled : (s.goOn i .constructed).Filed :=
        h.goOn (hstarted.trans_le h.started_le) (by rw [hthread]; rfl)
      exact ⟨hfiled.size, hfiled.started_le, hfiled.lt_of_started, hfiled.entry⟩
  | store hthread => exact h.store hthread
  | @enterRun i loop hthread hstep =>
      have hfiled : (s.goOn i .running).Filed :=
        h.goOn (h.lt_of_started i (by simp [hthread])) (by rw [hthread]; rfl)
      exact ⟨hfiled.size, hfiled.started_le, hfiled.lt_of_started, hfiled.entry⟩
  | leaveRun hthread =>
      exact h.goOn (h.lt_of_started _ (by simp [hthread])) (by rw [hthread]; rfl)
  | @countDown i hthread =>
      have hfiled : (s.goOn i .done).Filed :=
        h.goOn (h.lt_of_started i (by simp [hthread])) (by rw [hthread]; rfl)
      exact ⟨hfiled.size, hfiled.started_le, hfiled.lt_of_started, hfiled.entry⟩
  | _ => exact ⟨h.size, h.started_le, h.lt_of_started, h.entry⟩

theorem reach_filed {ok : TcpServer κ → Action κ → Prop} (h : machine.Reach ok s) : s.Filed := by
  refine reach_invariant Filed ?_ ?_ h
  · intro numIoThreads
    refine ⟨List.length_replicate, Nat.zero_le _, fun i hi => absurd rfl hi, fun i hi => ?_⟩
    simp [new, ThreadState.hasStored, show i < numIoThreads from hi]
  · exact fun _ _ _ _ hinv hmoves => hinv.moves hmoves

/-! ## Loops that were stopped -/

/-- Thread `i` has stored its loop, and `running_` is false there. -/
def Stopped (s : TcpServer κ) (i : ℕ) : Prop :=
  (s.thread i).hasStored = true ∧ (s.loop i).running = false

/-- Thread `i` takes a step and the loops change by steps of their own. -/
theorem Stopped.of_loopStep (h : s.Stopped i) {j : ℕ} {action : EventLoop.Action ℕ κ}
    {loop : EventLoop ℕ κ} (hstep : (s.loop j).step action = some loop) :
    (Function.update s.loop j loop i).running = false := by
  by_cases hij : i = j
  · subst hij
    rw [Function.update_self]
    exact EventLoop.running_of_step h.2 hstep
  · rw [Function.update_of_ne hij]
    exact h.2

theorem Stopped.goOn (h : s.Stopped i) {j : ℕ} {state : ThreadState}
    (hstate : state.hasStored = true) : ((s.goOn j state).thread i).hasStored = true := by
  by_cases hij : i = j
  · subst hij
    simpa [TcpServer.goOn] using hstate
  · simpa [TcpServer.goOn, hij] using h.1

/-- A loop that was stopped stays stopped. -/
theorem Stopped.moves (h : s.Stopped i) (hmoves : Moves s action s') : s'.Stopped i := by
  cases hmoves with
  | @construct j hstarted hthread =>
      have hij : i ≠ j := by
        rintro rfl
        simp [hthread, ThreadState.hasStored, Stopped] at h
      refine ⟨?_, ?_⟩
      · simpa [TcpServer.goOn, hij] using h.1
      · simpa [hij] using h.2
  | store hthread => exact ⟨h.goOn rfl, h.2⟩
  | enterRun hthread hstep => exact ⟨h.goOn rfl, h.of_loopStep hstep⟩
  | loop hthread henter hstep => exact ⟨h.1, h.of_loopStep hstep⟩
  | leaveRun hthread => exact ⟨h.goOn rfl, h.2⟩
  | countDown hthread => exact ⟨h.goOn rfl, h.2⟩
  | stop hwalk hentry hstep => exact ⟨h.1, h.of_loopStep hstep⟩
  | stopReturns hwalk hentry hstep => exact ⟨h.1, h.of_loopStep hstep⟩
  | _ => exact h

/-- All loops that a call of `shutdown` has passed were stopped, and all loops
once one has returned. -/
structure Walked (s : TcpServer κ) : Prop where
  passed : ∀ caller walk, s.shutdowns caller = some walk → ∀ i < walk.reached, s.Stopped i
  finished : s.finished = true → ∀ i < s.numIoThreads, s.Stopped i

/-- An entry that is not NULL is the loop of the thread with that index. -/
theorem Filed.of_entry (h : s.Filed) {index : ℕ} (hentry : s.ioLoops[index]? = some (some i)) :
    i = index ∧ index < s.numIoThreads ∧ (s.thread index).hasStored = true := by
  have hlt : index < s.numIoThreads := h.size ▸ (List.getElem?_eq_some_iff.mp hentry).1
  rw [h.entry index hlt] at hentry
  split at hentry
  · cases hentry
    exact ⟨rfl, hlt, ‹_›⟩
  · cases hentry

/-- The walk of one caller goes on. -/
theorem Walked.walkTo (h : s.Walked) {caller : ℕ} {walk : Walk}
    (hpassed : ∀ i < walk.reached, s.Stopped i) : (s.walkTo caller (some walk)).Walked := by
  refine ⟨fun other walk' hwalk' => ?_, h.finished⟩
  by_cases hother : other = caller
  · subst hother
    cases (Function.update_self ..).symm.trans hwalk'
    exact hpassed
  · exact h.passed other walk' ((Function.update_of_ne hother ..).symm.trans hwalk')

theorem Walked.moves (h : s.Walked) (hfiled : s.Filed) (hmoves : Moves s action s') :
    s'.Walked := by
  have hstays : ∀ i, s.Stopped i → s'.Stopped i := fun i hi => hi.moves hmoves
  cases hmoves with
  | shutdown hmay => exact h.walkTo fun i hi => absurd hi (Nat.not_lt_zero i)
  | @stop caller index i loop hwalk hentry hstep =>
      obtain ⟨rfl, hlt, hstored⟩ := hfiled.of_entry hentry
      have hbefore : ({ s with loop := Function.update s.loop i loop } : TcpServer κ).Walked :=
        ⟨fun other walk hother j hj => hstays j (h.passed other walk hother j hj),
          fun hfinished j hj => hstays j (h.finished hfinished j hj)⟩
      refine hbefore.walkTo fun j hj => ?_
      rcases Nat.lt_succ_iff_lt_or_eq.mp hj with hless | rfl
      · exact hstays j (h.passed caller _ hwalk j hless)
      · refine ⟨hstored, ?_⟩
        show (Function.update s.loop j loop j).running = false
        rw [Function.update_self]
        exact EventLoop.running_of_stopFlag hstep
  | @stopReturns caller index i loop hwalk hentry hstep =>
      have hbefore : ({ s with loop := Function.update s.loop i loop } : TcpServer κ).Walked :=
        ⟨fun other walk hother j hj => hstays j (h.passed other walk hother j hj),
          fun hfinished j hj => hstays j (h.finished hfinished j hj)⟩
      exact hbefore.walkTo fun j hj => hstays j (h.passed caller _ hwalk j hj)
  | @shutdownReturns caller hwalk =>
      refine ⟨fun other walk hother => ?_, fun _ => h.passed caller _ hwalk⟩
      by_cases hsame : other = caller
      · subst hsame
        cases (Function.update_self ..).symm.trans hother
      · exact h.passed other walk ((Function.update_of_ne hsame ..).symm.trans hother)
  | _ =>
      exact ⟨fun other walk hother j hj => hstays j (h.passed other walk hother j hj),
        fun hfinished j hj => hstays j (h.finished hfinished j hj)⟩

theorem reach_walked {ok : TcpServer κ → Action κ → Prop} (h : machine.Reach ok s) :
    s.Walked := by
  refine reach_invariant Walked ?_ ?_ h
  · intro numIoThreads
    refine ⟨fun caller walk hwalk => ?_, fun hfinished => ?_⟩
    · cases hwalk
    · cases hfinished
  · exact fun _ _ _ hreach hinv hmoves => hinv.moves (reach_filed hreach) hmoves

/-! ## Counting down -/

/-- The threads that have not counted down. -/
def unfinished (s : TcpServer κ) : Finset ℕ :=
  (Finset.range s.numIoThreads).filter fun i => s.thread i ≠ .done

/-- The count of the threads that are still there; those that are not have left
their loops. -/
structure Counted (s : TcpServer κ) : Prop where
  count : s.countDown = s.unfinished.card
  returned : s.returned = true → s.countDown = 0
  outside : ∀ i, s.thread i = .left ∨ s.thread i = .done → (s.loop i).phase = .outside

theorem mem_unfinished {j : ℕ} :
    j ∈ s.unfinished ↔ j < s.numIoThreads ∧ s.thread j ≠ .done := by
  simp [unfinished]

theorem unfinished_goOn {state : ThreadState} (hold : s.thread i ≠ .done) (hnew : state ≠ .done) :
    (s.goOn i state).unfinished = s.unfinished := by
  ext j
  rw [mem_unfinished, mem_unfinished]
  by_cases hij : j = i
  · subst hij
    simp [TcpServer.goOn, hold, hnew]
  · simp [TcpServer.goOn, hij]

theorem unfinished_done : (s.goOn i .done).unfinished = s.unfinished.erase i := by
  ext j
  rw [Finset.mem_erase, mem_unfinished, mem_unfinished]
  by_cases hij : j = i
  · subst hij
    simp [TcpServer.goOn]
  · simp [TcpServer.goOn, hij]

/-- A thread that is not at its end takes a step. -/
theorem outside_goOn {state : ThreadState} {j : ℕ}
    (h : ∀ i, s.thread i = .left ∨ s.thread i = .done → (s.loop i).phase = .outside)
    (hthread : (s.goOn i state).thread j = .left ∨ (s.goOn i state).thread j = .done)
    (hself : state = .left ∨ state = .done → (s.loop i).phase = .outside) :
    (s.loop j).phase = .outside := by
  by_cases hij : j = i
  · subst hij
    exact hself (by simpa [TcpServer.goOn] using hthread)
  · exact h j (by simpa [TcpServer.goOn, hij] using hthread)

theorem Counted.loopStep (h : s.Counted) {j : ℕ} {action : EventLoop.Action ℕ κ}
    {loop : EventLoop ℕ κ} (henter : ∀ thread, action ≠ .enterRun thread)
    (hstep : (s.loop j).step action = some loop) :
    ({ s with loop := Function.update s.loop j loop } : TcpServer κ).Counted := by
  refine ⟨h.count, h.returned, fun i hi => ?_⟩
  have hout := h.outside i hi
  by_cases hij : i = j
  · subst hij
    simp only [Function.update_self]
    exact EventLoop.outside_of_step hout henter hstep
  · simpa [hij] using hout

theorem Counted.moves (h : s.Counted) (hfiled : s.Filed) (hmoves : Moves s action s') :
    s'.Counted := by
  cases hmoves with
  | @construct i hstarted hthread =>
      refine ⟨?_, h.returned, fun j hj => ?_⟩
      · exact h.count.trans (congrArg _ (unfinished_goOn (by simp [hthread]) (by simp)).symm)
      · have hij : j ≠ i := by
          rintro rfl
          simp [TcpServer.goOn] at hj
        have hout := outside_goOn h.outside hj (by simp)
        simpa [hij] using hout
  | @store i hthread =>
      refine ⟨?_, h.returned, fun j hj => ?_⟩
      · exact h.count.trans (congrArg _ (unfinished_goOn (by simp [hthread]) (by simp)).symm)
      · have hout : (s.loop j).phase = .outside := outside_goOn h.outside hj (by simp)
        exact hout
  | @enterRun i loop hthread hstep =>
      refine ⟨?_, h.returned, fun j hj => ?_⟩
      · exact h.count.trans (congrArg _ (unfinished_goOn (by simp [hthread]) (by simp)).symm)
      · have hij : j ≠ i := by
          rintro rfl
          simp [TcpServer.goOn] at hj
        have hout := h.outside j (by simpa [TcpServer.goOn, hij] using hj)
        simpa [TcpServer.goOn, hij] using hout
  | loop hthread henter hstep => exact h.loopStep henter hstep
  | leaveRun hthread hphase =>
      refine ⟨?_, h.returned, fun j hj => ?_⟩
      · exact h.count.trans (congrArg _ (unfinished_goOn (by simp [hthread]) (by simp)).symm)
      · have hout : (s.loop j).phase = .outside := outside_goOn h.outside hj fun _ => hphase
        exact hout
  | @countDown i hthread =>
      have hmem : i ∈ s.unfinished := by
        have hlt := hfiled.lt_of_started i (by simp [hthread])
        simp [mem_unfinished, hlt, hthread]
      refine ⟨?_, fun hreturned => ?_, fun j hj => ?_⟩
      · show s.countDown - 1 = (s.goOn i .done).unfinished.card
        rw [unfinished_done, Finset.card_erase_of_mem hmem, h.count]
      · show s.countDown - 1 = 0
        rw [h.returned hreturned]
      · have hout : (s.loop j).phase = .outside :=
          outside_goOn h.outside hj fun _ => h.outside i (Or.inl hthread)
        exact hout
  | returns hstarted hcount => exact ⟨h.count, fun _ => hcount, h.outside⟩
  | stop hwalk hentry hstep =>
      have hcounted := h.loopStep (by simp) hstep
      exact ⟨hcounted.count, hcounted.returned, hcounted.outside⟩
  | stopReturns hwalk hentry hstep =>
      have hcounted := h.loopStep (by simp) hstep
      exact ⟨hcounted.count, hcounted.returned, hcounted.outside⟩
  | _ => exact ⟨h.count, h.returned, h.outside⟩

theorem reach_counted {ok : TcpServer κ → Action κ → Prop} (h : machine.Reach ok s) :
    s.Counted := by
  refine reach_invariant Counted ?_ ?_ h
  · intro numIoThreads
    refine ⟨?_, fun hreturned => ?_, fun i hi => rfl⟩
    · simp [new, unfinished]
    · cases hreturned
  · exact fun _ _ _ hreach hinv hmoves => hinv.moves (reach_filed hreach) hmoves

/-! ## Shutting down -/

theorem loopStep_ne_fault {action : EventLoop.Action ℕ κ} {rest : TcpServer κ → TcpServer κ}
    {fault : Fault} : s.loopStep i action rest ≠ .fault fault := by
  unfold loopStep
  split <;> simp

/-- The walk runs into a NULL. -/
theorem stop_eq_fault {caller : ℕ} :
    (∃ fault, s.stop caller = .fault fault) ↔
      ∃ index, s.shutdowns caller = some ⟨index, false⟩ ∧ s.ioLoops[index]? = some none := by
  constructor
  · rintro ⟨fault, h⟩
    unfold TcpServer.stop at h
    split at h
    · rename_i index hwalk
      split at h
      · cases h
      · exact ⟨index, hwalk, ‹_›⟩
      · exact absurd h loopStep_ne_fault
    · cases h
  · rintro ⟨index, hwalk, hentry⟩
    exact ⟨.nullDereference, by simp only [TcpServer.stop, hwalk, hentry]⟩

/-- The walk runs into a NULL exactly where it comes too early. -/
theorem Filed.stop_eq_fault (h : s.Filed) {caller : ℕ} :
    (∃ fault, s.stop caller = .fault fault) ↔ ¬ StoredInTime s (.stop caller) := by
  rw [TcpServer.stop_eq_fault]
  constructor
  · rintro ⟨index, hwalk, hentry⟩ hstored
    have hlt : index < s.numIoThreads := h.size ▸ (List.getElem?_eq_some_iff.mp hentry).1
    rw [h.entry index hlt, if_pos (hstored caller rfl _ hwalk rfl hlt)] at hentry
    cases hentry
  · intro hearly
    by_contra hnone
    refine hearly fun caller' hcaller walk hwalk hinStop hlt => ?_
    cases hcaller
    by_contra hnot
    refine hnone ⟨walk.index, ?_, by rw [h.entry walk.index hlt, if_neg hnot]⟩
    rw [← hinStop]
    exact hwalk

/-- No other step goes wrong. -/
theorem fault_iff (h : s.Filed) (action : Action κ) :
    (∃ fault, s.step action = .fault fault) ↔ ¬ StoredInTime s action := by
  by_cases hstop : ∃ caller, action = .stop caller
  · obtain ⟨caller, rfl⟩ := hstop
    exact h.stop_eq_fault
  · refine iff_of_false ?_ fun hno => hno fun caller hcaller => ?_
    · rintro ⟨fault, hfault⟩
      cases action with
      | stop caller => exact hstop ⟨caller, rfl⟩
      | stopReturns caller =>
          simp only [step, TcpServer.stopReturns] at hfault
          split at hfault
          · split at hfault
            · exact loopStep_ne_fault hfault
            · cases hfault
          · cases hfault
      | enterRun i =>
          simp only [step] at hfault
          split at hfault
          · exact loopStep_ne_fault hfault
          · cases hfault
      | loop i action =>
          simp only [step] at hfault
          split at hfault
          · cases hfault
          · split at hfault
            · exact loopStep_ne_fault hfault
            · cases hfault
      | _ =>
          simp only [step] at hfault
          split at hfault <;> cases hfault
    · cases action with
      | stop caller => exact absurd ⟨caller, rfl⟩ hstop
      | _ => cases hcaller

/-- **As long as `shutdown` reaches an index only after its thread has stored its
loop there, it reaches every loop.** A step dereferences NULL exactly where that
fails; once a call of `shutdown` has returned every loop exists and has
`running_` false, for good; and `TcpServer::run` returns only when all threads
have left their loops. -/
theorem shutdown_reaches_every_loop (s : TcpServer κ) (h : machine.Reach StoredInTime s) :
    (∀ action, StoredInTime s action ↔ ∀ fault, s.step action ≠ .fault fault) ∧
      (s.finished = true → ∀ i < s.numIoThreads,
        (s.thread i).hasStored = true ∧ (s.loop i).running = false) ∧
      (s.returned = true → ∀ i < s.numIoThreads,
        s.thread i = .done ∧ (s.loop i).phase = .outside) := by
  have hcounted := reach_counted h
  refine ⟨fun action => ?_, (reach_walked h).finished, fun hreturned i hlt => ?_⟩
  · rw [← not_iff_not, ← fault_iff (reach_filed h) action]
    simp
  · have hempty : s.unfinished = ∅ := by
      rw [← Finset.card_eq_zero, ← hcounted.count]
      exact hcounted.returned hreturned
    have hdone : s.thread i = .done := by
      by_contra hnot
      have hmem : i ∈ s.unfinished := mem_unfinished.mpr ⟨hlt, hnot⟩
      rw [hempty] at hmem
      cases hmem
    exact ⟨hdone, hcounted.outside i (Or.inr hdone)⟩

/-- Two threads; another thread shuts the server down when the first runs its loop
and the second is about to. -/
theorem shutdown_reaches_every_loop_of_two_threads :
    ∃ s : TcpServer Char, machine.Reach StoredInTime s ∧ s.numIoThreads = 2 ∧
      s.finished = true ∧ s.returned = true ∧
      ∀ i < 2, (s.loop i).running = false ∧ s.thread i = .done := by
  have hnew : machine.Reach StoredInTime (new 2 : TcpServer Char) := .init ⟨2, rfl⟩
  obtain ⟨s, hreach, hsize, hfinished, hreturned⟩ := hnew.exists_of_leads
    [.startThread, .startThread, .construct 0, .store 0, .enterRun 0, .construct 1,
      .shutdown 7, .stop 7, .store 1, .stopReturns 7, .stop 7, .enterRun 1, .stopReturns 7,
      .shutdownReturns 7, .loop 1 .testRunning, .leaveRun 1, .countDown 1,
      .loop 0 .testRunning, .leaveRun 0, .countDown 0, .returns]
    (P := fun s => s.numIoThreads = 2 ∧ s.finished = true ∧ s.returned = true)
    (by decide)
  obtain ⟨-, hstopped, hdone⟩ := shutdown_reaches_every_loop s hreach
  refine ⟨s, hreach, hsize, hfinished, hreturned, fun i hi => ⟨?_, ?_⟩⟩
  · exact (hstopped hfinished i (hsize ▸ hi)).2
  · exact (hdone hreturned i (hsize ▸ hi)).1

/-- `shutdown` can dereference NULL: it comes before the second thread has stored
its loop. -/
theorem not_shutdown_reaches_every_loop :
    ∃ s : TcpServer Char, machine.Reach Machine.anyStep s ∧
      s.step (.stop 7) = .fault .nullDereference := by
  have hnew : machine.Reach Machine.anyStep (new 2 : TcpServer Char) := .init ⟨2, rfl⟩
  obtain ⟨s, hreach, hwalk, hentry⟩ := hnew.exists_of_leads
    [.startThread, .startThread, .construct 0, .store 0, .enterRun 0, .construct 1,
      .shutdown 7, .stop 7, .stopReturns 7]
    (P := fun s => s.shutdowns 7 = some ⟨1, false⟩ ∧ s.ioLoops[1]? = some none)
    (by decide)
  exact ⟨s, hreach, by simp only [step, TcpServer.stop, hwalk, hentry]⟩

end TcpServer

end Mutiplex
