/-
# Event sources mirror the kernel

Any number of event sources share one epoll table.  Each operation decides from
`state_` and `interest_ops_` which `epoll_ctl` to issue, without asking the
kernel; the raw setter changes the one member behind the back of the other.
What holds the two sides together is that `state_` is right about the entry:
`Tracked` for every source, and `Synced`, the mask included, as long as the raw
setter was not used on it.
-/

import Mathlib
import Mutiplex.EventSource
import Mutiplex.Lib.Transition

namespace Mutiplex

open Transition

/-- The public operations of `EventSource`. -/
inductive SourceOp
  | enableReading
  | enableWriting
  | disableReading
  | disableWriting
  | disableAll
  | /-- The raw setter. -/
    interestOps (ops : UInt32)
  deriving DecidableEq, Repr

namespace EventSource

variable {ρ : Type} {ev : EventSource} {ptr : ρ} {table : Epoll ρ} {op : SourceOp}

/-- What an operation does to the source and to the table. -/
def operate (ev : EventSource) (ptr : ρ) (table : Epoll ρ) : SourceOp → EventSource × Epoll ρ
  | .enableReading => ev.enableReading ptr table
  | .enableWriting => ev.enableWriting ptr table
  | .disableReading => ev.disableReading ptr table
  | .disableWriting => ev.disableWriting ptr table
  | .disableAll => ev.disableAll ptr table
  | .interestOps ops => (ev.setInterestOps ops, table)

/-! ## The calls of `epoll_ctl` -/

/-- The `epoll_ctl` of `enable_ops`. -/
def enableCtl (ev : EventSource) (bits : UInt32) : Option CtlOp :=
  if ev.interestOps ||| bits ≠ 0 then
    if ev.state = .noEvent then some .add else some .mod
  else none

/-- The `epoll_ctl` of `disable_ops`. -/
def disableCtl (ev : EventSource) (bits : UInt32) : Option CtlOp :=
  if ev.interestOps &&& ~~~bits = 0 then some .del else some .mod

/-- The `epoll_ctl` an operation issues, if it issues one. -/
def ctl (ev : EventSource) : SourceOp → Option CtlOp
  | .enableReading => ev.enableCtl epollIn
  | .enableWriting => ev.enableCtl epollOut
  | .disableReading => ev.disableCtl epollIn
  | .disableWriting => ev.disableCtl epollOut
  | .disableAll => if ev.state = .registered then some .del else none
  | .interestOps _ => none

/-- The table after that call. -/
def issue (table : Epoll ρ) (call : Option CtlOp) (fd : ℤ) (entry : EpollEntry ρ) : Epoll ρ :=
  match call with
  | none => table
  | some op => epollCtl table op fd entry

/-- An entry is left alone or is the new one. -/
theorem issue_cases {call : Option CtlOp} {fd other : ℤ} {entry found : EpollEntry ρ}
    (h : issue table call fd entry other = some found) :
    table other = some found ∨ found = entry := by
  cases call with
  | none => exact Or.inl h
  | some op => exact (entry_of_epollCtl h).imp id And.right

theorem enableOps_eq_issue (bits : UInt32) :
    (ev.enableOps ptr table bits).2 =
      issue table (ev.enableCtl bits) ev.fd ⟨(ev.enableOps ptr table bits).1.interestOps, ptr⟩ := by
  unfold enableOps enableCtl
  by_cases hops : ev.interestOps ||| bits = 0
  · simp [hops, issue]
  · by_cases hstate : ev.state = .noEvent
    · simp [hops, hstate, issue, registerEvent]
    · simp [hops, hstate, issue, modifyEvent]

theorem disableOps_eq_issue (bits : UInt32) :
    (ev.disableOps ptr table bits).2 =
      issue table (ev.disableCtl bits) ev.fd
        ⟨(ev.disableOps ptr table bits).1.interestOps, ptr⟩ := by
  unfold disableOps disableCtl
  by_cases hops : ev.interestOps &&& ~~~bits = 0
  · simp [hops, issue, unregisterEvent]
  · simp [hops, issue, modifyEvent]

/-- **An operation reaches the table only through its `epoll_ctl`.** -/
theorem operate_eq_issue (op : SourceOp) :
    (ev.operate ptr table op).2 =
      issue table (ev.ctl op) ev.fd ⟨(ev.operate ptr table op).1.interestOps, ptr⟩ := by
  cases op with
  | enableReading => exact enableOps_eq_issue _
  | enableWriting => exact enableOps_eq_issue _
  | disableReading => exact disableOps_eq_issue _
  | disableWriting => exact disableOps_eq_issue _
  | disableAll =>
      show (ev.disableAll ptr table).2 =
        issue table (if ev.state = .registered then some .del else none) ev.fd
          ⟨(ev.disableAll ptr table).1.interestOps, ptr⟩
      unfold disableAll
      by_cases hstate : ev.state = .registered
      · simp [hstate, issue, unregisterEvent]
      · simp [hstate, issue]
  | interestOps ops => rfl

/-- `EPOLL_CTL_ADD` is issued by a source that has no entry. -/
theorem state_of_ctl_add (h : ev.ctl op = some .add) : ev.state = .noEvent := by
  have henable : ∀ bits, ev.enableCtl bits = some .add → ev.state = .noEvent := by
    intro bits hadd
    by_contra hstate
    unfold enableCtl at hadd
    rw [if_neg hstate] at hadd
    split at hadd <;> cases hadd
  have hdisable : ∀ bits, ev.disableCtl bits ≠ some .add := by
    intro bits hadd
    unfold disableCtl at hadd
    split at hadd <;> cases hadd
  cases op with
  | enableReading => exact henable _ h
  | enableWriting => exact henable _ h
  | disableReading => exact absurd h (hdisable _)
  | disableWriting => exact absurd h (hdisable _)
  | disableAll =>
      simp only [ctl] at h
      split at h <;> cases h
  | interestOps ops => cases h

/-! ## What the operations keep -/

@[simp]
theorem fd_operate (op : SourceOp) : (ev.operate ptr table op).1.fd = ev.fd := by
  cases op with
  | enableReading => exact fd_enableOps _
  | enableWriting => exact fd_enableOps _
  | disableReading => exact fd_disableOps _
  | disableWriting => exact fd_disableOps _
  | disableAll => exact fd_disableAll
  | interestOps ops => rfl

theorem operate_of_ne (op : SourceOp) {fd : ℤ} (h : fd ≠ ev.fd) :
    (ev.operate ptr table op).2 fd = table fd := by
  rw [operate_eq_issue]
  cases ev.ctl op with
  | none => rfl
  | some call => exact epollCtl_of_ne _ _ _ h

theorem Tracked.operate (h : ev.Tracked ptr table) (op : SourceOp) :
    (ev.operate ptr table op).1.Tracked ptr (ev.operate ptr table op).2 := by
  cases op with
  | enableReading => exact h.enableOps (by decide)
  | enableWriting => exact h.enableOps (by decide)
  | disableReading => exact h.disableOps
  | disableWriting => exact h.disableOps
  | disableAll => exact h.disableAll.tracked
  | interestOps ops => exact h.setInterestOps ops

/-- The operation changes `interest_ops_` alone. -/
def isRaw : SourceOp → Bool
  | .interestOps _ => true
  | _ => false

theorem Synced.operate (h : ev.Synced ptr table) (hraw : isRaw op = false) :
    (ev.operate ptr table op).1.Synced ptr (ev.operate ptr table op).2 := by
  cases op with
  | enableReading => exact h.enableOps (by decide)
  | enableWriting => exact h.enableOps (by decide)
  | disableReading => exact h.disableOps
  | disableWriting => exact h.disableOps
  | disableAll => exact h.tracked.disableAll
  | interestOps ops => cases hraw

end EventSource

/-! ## Many sources on one loop -/

/-- The event sources of a loop and the kernel's table; `rawUsed` records the
sources on which the raw setter was used. -/
structure Sources where
  sources : ℕ → Option EventSource
  nextId : ℕ
  epoll : Epoll ℕ
  rawUsed : List ℕ

namespace Sources

/-- What can happen to the sources. -/
inductive Action
  | construct (fd : ℕ)
  | operate (id : ℕ) (op : SourceOp)
  | destroy (id : ℕ)

variable (s : Sources)

/-- No source has the descriptor. -/
def isFree (fd : ℤ) : Bool :=
  (List.range s.nextId).all fun id => (s.sources id).all fun ev => ev.fd != fd

/-- The constructor, for a descriptor that no other source has. -/
def construct (fd : ℕ) : Sources :=
  { s with
    sources := Function.update s.sources s.nextId (some (.new fd))
    nextId := s.nextId + 1 }

/-- An operation on a source. -/
def operate (id : ℕ) (op : SourceOp) (ev : EventSource) : Sources :=
  { s with
    sources := Function.update s.sources id (some (ev.operate id s.epoll op).1)
    epoll := (ev.operate id s.epoll op).2
    rawUsed := if EventSource.isRaw op then id :: s.rawUsed else s.rawUsed }

/-- `~EventSource`. -/
def destroy (id : ℕ) (ev : EventSource) : Sources :=
  { s with
    sources := Function.update s.sources id none
    epoll := (ev.disableAll id s.epoll).2 }

/-- One step. -/
def step : Action → Option Sources
  | .construct fd => if s.isFree fd then some (s.construct fd) else none
  | .operate id op => (s.sources id).map (s.operate id op)
  | .destroy id => (s.sources id).map (s.destroy id)

/-- A loop with no sources. -/
def new : Sources := ⟨fun _ => none, 0, fun _ => none, []⟩

/-- The sources as a machine. -/
def machine : Machine Sources Action Empty where
  Init s := s = new
  step s action := Outcome.ofOption (s.step action)

/-- The sources and the table. -/
structure Mirrors (s : Sources) : Prop where
  named : ∀ id ev, s.sources id = some ev → id < s.nextId
  fd_nonneg : ∀ id ev, s.sources id = some ev → 0 ≤ ev.fd
  distinct : ∀ id id' ev ev', s.sources id = some ev → s.sources id' = some ev' →
    ev.fd = ev'.fd → id = id'
  tracked : ∀ id ev, s.sources id = some ev → ev.Tracked id s.epoll
  synced : ∀ id ev, s.sources id = some ev → id ∉ s.rawUsed → ev.Synced id s.epoll
  stray : ∀ fd, (∀ id ev, s.sources id = some ev → ev.fd ≠ fd) → s.epoll fd = none

variable {s}

theorem mirrors_new : new.Mirrors where
  named _ _ h := by cases h
  fd_nonneg _ _ h := by cases h
  distinct _ _ _ _ h := by cases h
  tracked _ _ h := by cases h
  synced _ _ h := by cases h
  stray _ _ := rfl

theorem ne_of_isFree (h : s.Mirrors) {fd : ℤ} (hfree : s.isFree fd = true) :
    ∀ id ev, s.sources id = some ev → ev.fd ≠ fd := by
  intro id ev hev
  have hall := List.all_eq_true.mp hfree id (List.mem_range.mpr (h.named id ev hev))
  simpa [hev] using hall

/-- One source or the other. -/
theorem update_cases {sources : ℕ → Option EventSource} {id id' : ℕ} {value : Option EventSource}
    {ev : EventSource} (h : Function.update sources id value id' = some ev) :
    id' = id ∧ value = some ev ∨ id' ≠ id ∧ sources id' = some ev := by
  by_cases hid : id' = id
  · subst hid
    rw [Function.update_self] at h
    exact Or.inl ⟨rfl, h⟩
  · rw [Function.update_of_ne hid] at h
    exact Or.inr ⟨hid, h⟩

theorem Mirrors.construct (h : s.Mirrors) {fd : ℕ} (hfree : s.isFree fd = true) :
    (s.construct fd).Mirrors := by
  have hne := ne_of_isFree h hfree
  have habsent : s.epoll fd = none := h.stray fd hne
  have hsynced : (EventSource.new fd).Synced s.nextId s.epoll := EventSource.synced_new habsent
  refine ⟨?_, ?_, ?_, ?_, ?_, ?_⟩
  · intro id ev hev
    rcases update_cases hev with ⟨rfl, -⟩ | ⟨-, hold⟩
    · exact Nat.lt_succ_self _
    · exact Nat.lt_succ_of_lt (h.named id ev hold)
  · intro id ev hev
    rcases update_cases hev with ⟨-, hnew⟩ | ⟨-, hold⟩
    · cases hnew
      exact Int.natCast_nonneg fd
    · exact h.fd_nonneg id ev hold
  · intro id id' ev ev' hev hev' hfd
    rcases update_cases hev with ⟨rfl, hnew⟩ | ⟨-, hold⟩ <;>
      rcases update_cases hev' with ⟨rfl, hnew'⟩ | ⟨-, hold'⟩
    · rfl
    · cases hnew
      exact absurd hfd.symm (hne id' ev' hold')
    · cases hnew'
      exact absurd hfd (hne id ev hold)
    · exact h.distinct id id' ev ev' hold hold' hfd
  · intro id ev hev
    rcases update_cases hev with ⟨rfl, hnew⟩ | ⟨-, hold⟩
    · cases hnew
      exact hsynced.tracked
    · exact h.tracked id ev hold
  · intro id ev hev hraw
    rcases update_cases hev with ⟨rfl, hnew⟩ | ⟨-, hold⟩
    · cases hnew
      exact hsynced
    · exact h.synced id ev hold hraw
  · intro fd' hstray
    refine h.stray fd' fun id ev hev => hstray id ev ?_
    show Function.update s.sources s.nextId _ id = some ev
    rw [Function.update_of_ne (h.named id ev hev).ne, hev]

/-- The entries of the other sources are left alone. -/
theorem Mirrors.fd_ne (h : s.Mirrors) {id id' : ℕ} {ev ev' : EventSource}
    (hev : s.sources id = some ev) (hev' : s.sources id' = some ev') (hne : id' ≠ id) :
    ev'.fd ≠ ev.fd :=
  fun hfd => hne (h.distinct id' id ev' ev hev' hev hfd)

theorem Mirrors.operate (h : s.Mirrors) {id : ℕ} {ev : EventSource}
    (hev : s.sources id = some ev) (op : SourceOp) : (s.operate id op ev).Mirrors := by
  have hother : ∀ id' ev', id' ≠ id → s.sources id' = some ev' →
      (ev.operate id s.epoll op).2 ev'.fd = s.epoll ev'.fd :=
    fun id' ev' hne hev' => EventSource.operate_of_ne op (h.fd_ne hev hev' hne)
  have hrawMem : ∀ id', id' ∉ (s.operate id op ev).rawUsed →
      id' ∉ s.rawUsed ∧ (id' = id → EventSource.isRaw op = false) := by
    intro id' hraw
    cases hisRaw : EventSource.isRaw op with
    | true =>
        simp only [Sources.operate, hisRaw, if_true, List.mem_cons, not_or] at hraw
        exact ⟨hraw.2, fun hid => absurd hid hraw.1⟩
    | false =>
        simp only [Sources.operate, hisRaw, Bool.false_eq_true, if_false] at hraw
        exact ⟨hraw, fun _ => rfl⟩
  refine ⟨?_, ?_, ?_, ?_, ?_, ?_⟩
  · intro id' ev' hev'
    rcases update_cases hev' with ⟨rfl, -⟩ | ⟨-, hold⟩
    · exact h.named _ ev hev
    · exact h.named id' ev' hold
  · intro id' ev' hev'
    rcases update_cases hev' with ⟨rfl, hnew⟩ | ⟨-, hold⟩
    · cases hnew
      rw [EventSource.fd_operate]
      exact h.fd_nonneg _ ev hev
    · exact h.fd_nonneg id' ev' hold
  · intro id₁ id₂ ev₁ ev₂ hev₁ hev₂ hfd
    rcases update_cases hev₁ with ⟨rfl, hnew⟩ | ⟨hne, hold⟩ <;>
      rcases update_cases hev₂ with ⟨rfl, hnew'⟩ | ⟨hne', hold'⟩
    · rfl
    · cases hnew
      rw [EventSource.fd_operate] at hfd
      exact h.distinct _ _ ev ev₂ hev hold' hfd
    · cases hnew'
      rw [EventSource.fd_operate] at hfd
      exact h.distinct _ _ ev₁ ev hold hev hfd
    · exact h.distinct _ _ ev₁ ev₂ hold hold' hfd
  · intro id' ev' hev'
    rcases update_cases hev' with ⟨rfl, hnew⟩ | ⟨hne, hold⟩
    · cases hnew
      exact (h.tracked _ ev hev).operate op
    · exact (h.tracked id' ev' hold).congr (hother id' ev' hne hold)
  · intro id' ev' hev' hraw
    obtain ⟨hunused, hisRaw⟩ := hrawMem id' hraw
    rcases update_cases hev' with ⟨rfl, hnew⟩ | ⟨hne, hold⟩
    · cases hnew
      exact (h.synced _ ev hev hunused).operate (hisRaw rfl)
    · exact (h.synced id' ev' hold hunused).congr (hother id' ev' hne hold)
  · intro fd hstray
    have hself : ev.fd ≠ fd := by
      have hnew := hstray id _ (Function.update_self ..)
      rwa [EventSource.fd_operate] at hnew
    show (ev.operate id s.epoll op).2 fd = none
    rw [EventSource.operate_of_ne op hself.symm]
    refine h.stray fd fun id' ev' hev' => ?_
    by_cases hid : id' = id
    · subst hid
      cases hev.symm.trans hev'
      exact hself
    · exact hstray id' ev' ((Function.update_of_ne hid ..).trans hev')

theorem Mirrors.destroy (h : s.Mirrors) {id : ℕ} {ev : EventSource}
    (hev : s.sources id = some ev) : (s.destroy id ev).Mirrors := by
  have hsurvivor : ∀ id' ev', (s.destroy id ev).sources id' = some ev' →
      s.sources id' = some ev' ∧ (s.destroy id ev).epoll ev'.fd = s.epoll ev'.fd := by
    intro id' ev' hev'
    rcases update_cases hev' with ⟨-, hnone⟩ | ⟨hne, hold⟩
    · cases hnone
    · exact ⟨hold, EventSource.disableAll_of_ne (h.fd_ne hev hold hne)⟩
  refine ⟨?_, ?_, ?_, ?_, ?_, ?_⟩
  · exact fun id' ev' hev' => h.named id' ev' (hsurvivor id' ev' hev').1
  · exact fun id' ev' hev' => h.fd_nonneg id' ev' (hsurvivor id' ev' hev').1
  · exact fun id₁ id₂ ev₁ ev₂ hev₁ hev₂ =>
      h.distinct id₁ id₂ ev₁ ev₂ (hsurvivor id₁ ev₁ hev₁).1 (hsurvivor id₂ ev₂ hev₂).1
  · intro id' ev' hev'
    obtain ⟨hold, heq⟩ := hsurvivor id' ev' hev'
    exact (h.tracked id' ev' hold).congr heq
  · intro id' ev' hev' hraw
    obtain ⟨hold, heq⟩ := hsurvivor id' ev' hev'
    exact (h.synced id' ev' hold hraw).congr heq
  · intro fd hstray
    show (ev.disableAll id s.epoll).2 fd = none
    by_cases hself : fd = ev.fd
    · rw [hself]
      exact EventSource.disableAll_self (h.tracked id ev hev)
    · rw [EventSource.disableAll_of_ne hself]
      refine h.stray fd fun id' ev' hev' => ?_
      by_cases hid : id' = id
      · subst hid
        cases hev.symm.trans hev'
        exact fun hfd => hself hfd.symm
      · exact hstray id' ev' ((Function.update_of_ne hid ..).trans hev')

/-- **Every step keeps the sources and the table together.** -/
theorem Mirrors.step (h : s.Mirrors) {action : Action} {s' : Sources}
    (hstep : s.step action = some s') : s'.Mirrors := by
  cases action with
  | construct fd =>
      simp only [Sources.step] at hstep
      split at hstep
      · cases hstep
        exact h.construct ‹_›
      · cases hstep
  | operate id op =>
      obtain ⟨ev, hev, rfl⟩ := Option.map_eq_some_iff.mp hstep
      exact h.operate hev op
  | destroy id =>
      obtain ⟨ev, hev, rfl⟩ := Option.map_eq_some_iff.mp hstep
      exact h.destroy hev

theorem reach_mirrors (h : machine.Reach Machine.anyStep s) : s.Mirrors := by
  refine h.invariant Mirrors ?_ ?_
  · rintro _ rfl
    exact mirrors_new
  · exact fun _ _ _ _ hinv _ hstep => hinv.step (Outcome.ofOption_eq_next.mp hstep)

/-- **Event sources mirror the kernel.** After any operations on any sources,
`state_` is `StateRegistered` exactly when the table has an entry for the
descriptor, and no entry is left of the sources that are gone; no operation
issues `EPOLL_CTL_ADD` for a descriptor that has an entry; and for a source on
which the raw setter was not used the mask of the entry is `interest_ops_`, and
there is an entry exactly when that is not zero. -/
theorem sources_mirror_kernel (s : Sources) (h : machine.Reach Machine.anyStep s) :
    (∀ id ev, s.sources id = some ev →
      (ev.state = .registered ↔ (s.epoll ev.fd).isSome = true) ∧
      (∀ op, (ev.operate id s.epoll op).2 = EventSource.issue s.epoll (ev.ctl op) ev.fd
          ⟨(ev.operate id s.epoll op).1.interestOps, id⟩ ∧
        (ev.ctl op = some .add → s.epoll ev.fd = none)) ∧
      (id ∉ s.rawUsed →
        (∀ entry, s.epoll ev.fd = some entry → entry.events = ev.interestOps) ∧
          ((s.epoll ev.fd).isSome = true ↔ ev.interestOps ≠ 0))) ∧
    ∀ fd, (∀ id ev, s.sources id = some ev → ev.fd ≠ fd) → s.epoll fd = none := by
  have hmirrors := reach_mirrors h
  refine ⟨fun id ev hev => ?_, hmirrors.stray⟩
  have htracked := hmirrors.tracked id ev hev
  have hnonneg := hmirrors.fd_nonneg id ev hev
  have hregistered : ev.state = .registered ↔ (s.epoll ev.fd).isSome = true := by
    constructor
    · intro hstate
      obtain ⟨events, hentry⟩ := htracked.present hstate hnonneg
      rw [hentry]
      rfl
    · intro hentry
      refine ev.state_cases.resolve_left fun hno => ?_
      rw [htracked.absent (Or.inl hno)] at hentry
      cases hentry
  refine ⟨hregistered, fun op => ⟨EventSource.operate_eq_issue op, fun hadd => ?_⟩, fun hraw => ?_⟩
  · exact htracked.absent (Or.inl (EventSource.state_of_ctl_add hadd))
  · have hsynced := hmirrors.synced id ev hev hraw
    refine ⟨fun entry hentry => ?_, hregistered.symm.trans hsynced.registered⟩
    rw [hsynced.entry] at hentry
    split at hentry
    · cases hentry
      rfl
    · cases hentry

/-- Two sources, one of which is enabled again after the raw setter, and a third
one that gets the descriptor of a destroyed one. -/
theorem sources_mirror_kernel_of_raw_setter :
    ∃ s : Sources, machine.Reach Machine.anyStep s ∧ ∃ ev, s.sources 1 = some ev ∧
      1 ∈ s.rawUsed ∧ ev.interestOps = 0x005 ∧ (s.epoll 6).isSome = true := by
  have hnew : machine.Reach Machine.anyStep new := .init rfl
  obtain ⟨s, hreach, hev, hraw⟩ := hnew.exists_of_leads
    [.construct 5, .construct 6, .operate 0 .enableReading, .operate 1 .disableWriting,
      .operate 1 (.interestOps 0x001), .operate 1 .enableWriting, .destroy 0, .construct 5,
      .operate 2 .enableWriting]
    (P := fun s => s.sources 1 = some ⟨.registered, 6, 0x005⟩ ∧ 1 ∈ s.rawUsed)
    (by decide)
  have hentry := ((sources_mirror_kernel s hreach).1 1 _ hev).1.mp rfl
  exact ⟨s, hreach, _, hev, hraw, rfl, hentry⟩

end Sources

end Mutiplex
