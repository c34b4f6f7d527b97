/-
# Which sources a call of `pull_events` reports

`epoll_wait` fills at most `epoll_events_.size()` entries, from the head of the
kernel's ready list, and puts the sources it reports back at the tail as long as
they are ready; so successive calls go round.  `pull_events` doubles the vector
whenever a call fills it.  No ready source is left out for long, and soon every
call reports all of them.

The kernel's list is part of the state; between two calls sources become ready,
at the tail, and others stop being ready or are taken out of the table.
`doublings` records the calls that filled the vector.  A call in which
`epoll_wait` fails reports nothing and is the last one: `run` leaves its loop.
-/

import Mathlib
import Mutiplex.Lib.Potential

namespace Mutiplex

open Transition

variable {ι : Type} [DecidableEq ι]

/-- The size of `epoll_events_`, and the sources that are ready. -/
structure Polling (ι : Type) where
  epollEvents : ℕ
  ready : List ι
  doublings : ℕ

namespace Polling

/-- The constructor of the loop. -/
def new : Polling ι := ⟨64, [], 0⟩

/-- A step of the loop thread or of the kernel. -/
inductive Action (ι : Type)
  | /-- `pull_events`, which reports these sources. -/
    pullEvents (events : List ι)
  | becomesReady (source : ι)
  | stopsReady (source : ι)

variable (s : Polling ι)

/-- What `epoll_wait` reports. -/
def reported : List ι := s.ready.take s.epollEvents

/-- `pull_events`; the entries it pushes are `reported`. -/
def pullEvents : Polling ι :=
  let nEvents := s.reported.length
  { epollEvents := if nEvents = s.epollEvents then nEvents * 2 else s.epollEvents
    ready := s.ready.drop s.epollEvents ++ s.reported
    doublings := if nEvents = s.epollEvents then s.doublings + 1 else s.doublings }

/-- One step. -/
def step : Action ι → Outcome (Polling ι) Empty
  | .pullEvents events => if events = s.reported then .next s.pullEvents else .blocked
  | .becomesReady source =>
      if source ∈ s.ready then .blocked else .next { s with ready := s.ready ++ [source] }
  | .stopsReady source =>
      if source ∈ s.ready then .next { s with ready := s.ready.erase source } else .blocked

/-- The polling loop as a machine. -/
def machine : Machine (Polling ι) (Action ι) Empty where
  Init s := s = new
  step s action := s.step action

namespace Action

/-- A call of `pull_events`. -/
def isPull : Action ι → Bool
  | .pullEvents _ => true
  | _ => false

/-- A call that reports the source. -/
def reports (source : ι) : Action ι → Bool
  | .pullEvents events => source ∈ events
  | _ => false

end Action

/-- There are at most so many times 64 ready sources. -/
def AtMost (batches : ℕ) (s : Polling ι) (_ : Action ι) : Prop := s.ready.length ≤ 64 * batches

/-- The source stays ready. -/
def Stays (source : ι) (batches : ℕ) (s : Polling ι) (action : Action ι) : Prop :=
  s.AtMost batches action ∧ action ≠ .stopsReady source

instance (batches : ℕ) (action : Action ι) : Decidable (s.AtMost batches action) :=
  inferInstanceAs (Decidable (_ ≤ _))

variable {s} {s' : Polling ι} {action : Action ι} {source : ι} {batches : ℕ}

/-- What a step can do. -/
inductive Moves : Polling ι → Action ι → Polling ι → Prop
  | pullEvents {s : Polling ι} : Moves s (.pullEvents s.reported) s.pullEvents
  | becomesReady {s : Polling ι} {source : ι} (hnew : source ∉ s.ready) :
      Moves s (.becomesReady source) { s with ready := s.ready ++ [source] }
  | stopsReady {s : Polling ι} {source : ι} (hmem : source ∈ s.ready) :
      Moves s (.stopsReady source) { s with ready := s.ready.erase source }

theorem moves_of_step (hstep : machine.step s action = .next s') : Moves s action s' := by
  cases action with
  | pullEvents events =>
      simp only [machine, step] at hstep
      split at hstep
      · rename_i hevents
        cases hstep
        exact hevents ▸ .pullEvents
      · cases hstep
  | becomesReady source =>
      simp only [machine, step] at hstep
      split at hstep
      · cases hstep
      · cases hstep
        exact .becomesReady ‹_›
  | stopsReady source =>
      simp only [machine, step] at hstep
      split at hstep
      · cases hstep
        exact .stopsReady ‹_›
      · cases hstep

/-! ## The vector -/

omit [DecidableEq ι] in
/-- A call fills the vector when there are sources enough. -/
theorem length_reported : s.reported.length = s.epollEvents ↔ s.epollEvents ≤ s.ready.length := by
  rw [reported, List.length_take]
  omega

/-- The size after so many doublings. -/
structure Sized (batches : ℕ) (s : Polling ι) : Prop where
  size : s.epollEvents = 64 * 2 ^ s.doublings
  bound : s.epollEvents ≤ max 64 (128 * batches)

omit [DecidableEq ι] in
theorem Sized.le (h : Sized batches s) : 64 ≤ s.epollEvents := by
  have hpos := Nat.one_le_two_pow (n := s.doublings)
  rw [h.size]
  omega

omit [DecidableEq ι] in
theorem Sized.pull (h : Sized batches s) (hmost : s.ready.length ≤ 64 * batches) :
    Sized batches s.pullEvents := by
  by_cases hfull : s.epollEvents ≤ s.ready.length
  · have hlength := length_reported.mpr hfull
    refine ⟨?_, ?_⟩
    · simp only [pullEvents, hlength, if_true]
      rw [h.size, Nat.pow_succ, Nat.mul_assoc]
    · simp only [pullEvents, hlength, if_true]
      omega
  · have hlength := mt length_reported.mp hfull
    refine ⟨?_, ?_⟩
    · simpa only [pullEvents, hlength, if_false] using h.size
    · simpa only [pullEvents, hlength, if_false] using h.bound

theorem Sized.step (h : Sized batches s) (hmost : s.AtMost batches action)
    (hstep : machine.step s action = .next s') : Sized batches s' := by
  cases moves_of_step hstep with
  | pullEvents => exact h.pull hmost
  | becomesReady hnew => exact ⟨h.size, h.bound⟩
  | stopsReady hmem => exact ⟨h.size, h.bound⟩

theorem reach_sized (h : machine.Reach (AtMost batches) s) : Sized batches s := by
  refine h.invariant (Sized batches) ?_ fun source action target _ hsized hmost hstep =>
    hsized.step hmost hstep
  rintro _ rfl
  exact ⟨rfl, by simp [new]⟩

omit [DecidableEq ι] in
/-- A call that leaves out a ready source fills the vector. -/
theorem doublings_of_pull (hleft : s.reported ≠ s.ready) :
    s.pullEvents.doublings = s.doublings + 1 := by
  have hlong : s.epollEvents < s.ready.length := by
    by_contra hshort
    exact hleft (List.take_of_length_le (Nat.not_lt.mp hshort))
  simp only [pullEvents, length_reported.mpr hlong.le, if_true]

/-! ## The place of a source -/

/-- Taking out another source moves a source forward. -/
theorem idxOf_erase_le {other : ι} (hne : other ≠ source) (l : List ι) :
    (l.erase other).idxOf source ≤ l.idxOf source := by
  induction l with
  | nil => simp
  | cons head rest ih =>
      by_cases hhead : head = other
      · subst hhead
        rw [List.erase_cons_head, List.idxOf_cons_ne _ hne]
        exact Nat.le_succ _
      · rw [List.erase_cons_tail (by simpa using hhead)]
        by_cases hsource : head = source
        · simp [hsource]
        · rw [List.idxOf_cons_ne _ hsource, List.idxOf_cons_ne _ hsource]
          exact Nat.succ_le_succ ih

/-- A source that a call leaves out moves forward by the size of the vector. -/
theorem idxOf_pull (hmem : source ∈ s.ready) (hleft : source ∉ s.reported) :
    s.pullEvents.ready.idxOf source + s.epollEvents = s.ready.idxOf source := by
  have hsplit : s.reported ++ s.ready.drop s.epollEvents = s.ready :=
    List.take_append_drop s.epollEvents s.ready
  have hdrop : source ∈ s.ready.drop s.epollEvents := by
    rw [← hsplit] at hmem
    exact (List.mem_append.mp hmem).resolve_left hleft
  have hlength : s.reported.length = s.epollEvents := by
    have hpos := List.length_pos_of_mem hdrop
    rw [List.length_drop] at hpos
    exact length_reported.mpr (by omega)
  have hidx : s.ready.idxOf source =
      s.epollEvents + (s.ready.drop s.epollEvents).idxOf source := by
    conv_lhs => rw [← hsplit]
    rw [List.idxOf_append_of_notMem hleft, hlength]
  show (s.ready.drop s.epollEvents ++ s.reported).idxOf source + _ = _
  rw [List.idxOf_append_of_mem hdrop, hidx, Nat.add_comm]

omit [DecidableEq ι] in
theorem mem_ready_pull : source ∈ s.pullEvents.ready ↔ source ∈ s.ready := by
  have hsplit : s.reported ++ s.ready.drop s.epollEvents = s.ready :=
    List.take_append_drop s.epollEvents s.ready
  conv_rhs => rw [← hsplit]
  show source ∈ s.ready.drop s.epollEvents ++ s.reported ↔ _
  rw [List.mem_append, List.mem_append, or_comm]

omit [DecidableEq ι] in
theorem length_ready_pull : s.pullEvents.ready.length = s.ready.length := by
  show (s.ready.drop s.epollEvents ++ s.ready.take s.epollEvents).length = _
  rw [List.length_append, List.length_drop, List.length_take]
  omega

/-- What a source waits for: it is ready, and the vector has at least its first
size. -/
structure Waits (source : ι) (batches : ℕ) (s : Polling ι) : Prop where
  mem : source ∈ s.ready
  sized : Sized batches s

/-- A call that leaves the source out is paid for by the place of the source; a
call that reports it brings a credit for the places it falls back. -/
theorem Waits.step (h : Waits source batches s) (hok : s.Stays source batches action)
    (hstep : machine.step s action = .next s') :
    Waits source batches s' ∧
      (if action.isPull then 1 else 0) + s'.ready.idxOf source / 64 ≤
        s.ready.idxOf source / 64 + if action.reports source then batches else 0 := by
  obtain ⟨hmost, hstays⟩ := hok
  have hsized := h.sized.step hmost hstep
  have hmem := h.mem
  cases moves_of_step hstep with
  | pullEvents =>
      have hmem' : source ∈ s.pullEvents.ready := mem_ready_pull.mpr hmem
      refine ⟨⟨hmem', hsized⟩, ?_⟩
      by_cases hreports : source ∈ s.reported
      · have hlt := List.idxOf_lt_length_of_mem hmem'
        rw [length_ready_pull] at hlt
        unfold AtMost at hmost
        simp only [Action.isPull, Action.reports, hreports, decide_true, if_true]
        omega
      · have hidx := idxOf_pull hmem hreports
        have hle := h.sized.le
        simp only [Action.isPull, Action.reports, hreports, decide_false, if_true]
        omega
  | becomesReady hnew =>
      refine ⟨⟨List.mem_append_left _ hmem, hsized⟩, ?_⟩
      simp [Action.isPull, Action.reports, List.idxOf_append_of_mem hmem]
  | @stopsReady other hother =>
      have hne : other ≠ source := fun heq => hstays (heq ▸ rfl)
      refine ⟨⟨(List.mem_erase_of_ne hne.symm).mpr hmem, hsized⟩, ?_⟩
      have hidx := Nat.div_le_div_right (c := 64) (idxOf_erase_le hne s.ready)
      simpa [Action.isPull, Action.reports] using hidx

/-- Where at most 64 times `batches` sources are ready at once: `epoll_events_`
has doubled from 64 to no more than twice their number, every call that leaves
out a ready source doubles it, and as long as a source stays ready there are no
more calls than its place in the kernel's list accounts for, and `batches` for
each call that reports it. -/
theorem polling_is_fair (s : Polling ι) (batches : ℕ) (h : machine.Reach (AtMost batches) s) :
    s.epollEvents = 64 * 2 ^ s.doublings ∧ s.epollEvents ≤ max 64 (128 * batches) ∧
    (∀ events s', machine.step s (.pullEvents events) = .next s' → events ≠ s.ready →
      s'.doublings = s.doublings + 1) ∧
    ∀ source ∈ s.ready, ∀ later actions, machine.Trace (Stays source batches) s actions later →
      actions.countP Action.isPull ≤
        s.ready.idxOf source / 64 + batches * actions.countP (Action.reports source) := by
  have hsized := reach_sized h
  refine ⟨hsized.size, hsized.bound, fun events s' hstep hleft => ?_,
    fun source hmem later actions htrace => ?_⟩
  · cases moves_of_step hstep
    exact doublings_of_pull hleft
  · have hpaid := htrace.paid (Waits source batches) (fun s => s.ready.idxOf source / 64)
      (fun action => if action.isPull then 1 else 0)
      (fun action => if action.reports source then batches else 0)
      (fun _ _ _ hwaits hok hstep => hwaits.step hok hstep) ⟨hmem, hsized⟩
    rw [sum_price, sum_price, Nat.one_mul] at hpaid
    omega

/-- Of 65 ready sources the first call leaves one out: it doubles the vector, and
the source waits for one more call. -/
theorem polling_is_fair_to_the_last :
    ∃ s : Polling ℕ, machine.Reach (AtMost 2) s ∧ s.ready = List.range 65 ∧
      (∀ s', machine.step s (.pullEvents (List.range 64)) = .next s' →
        s'.doublings = s.doublings + 1) ∧
      ∀ later actions, machine.Trace (Stays 64 2) s actions later →
        actions.countP Action.isPull ≤ 1 + 2 * actions.countP (Action.reports 64) := by
  have hnew : machine.Reach (AtMost 2) (new : Polling ℕ) := .init rfl
  obtain ⟨s, hreach, hready⟩ := hnew.exists_of_leads ((List.range 65).map .becomesReady)
    (P := fun s => s.ready = List.range 65) (by decide +kernel)
  obtain ⟨-, -, hdoubles, hfair⟩ := polling_is_fair s 2 hreach
  rw [hready] at hdoubles hfair
  have hplace : (List.range 65).idxOf 64 / 64 = 1 := by decide +kernel
  refine ⟨s, hreach, hready, fun s' hstep => hdoubles _ s' hstep (by decide +kernel),
    fun later actions htrace => ?_⟩
  simpa only [hplace] using hfair 64 (by decide +kernel) later actions htrace

end Polling

end Mutiplex
