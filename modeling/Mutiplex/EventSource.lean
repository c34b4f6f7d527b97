/-
# Event sources and the epoll table

An `EventSource` holds the events its owner is interested in and mirrors them
into the kernel's table with `epoll_ctl`.  The table is modelled with the
documented results of the three operations: adding fails for a descriptor that
is already present or not a descriptor at all, modifying and deleting fail for
one that is absent, and a call that fails changes nothing.

`Synced` says that a source and its entry agree.  All operations keep it except
the raw setter `interest_ops(ops)`, which changes the source behind the
kernel's back.
-/

import Mathlib.Data.Int.Notation
import Mathlib.Logic.Function.Basic
import Mathlib.Tactic.SplitIfs

namespace Mutiplex

/-! ## Event masks -/

/-- `EPOLLIN`. -/
def epollIn : UInt32 := 0x001

/-- `EPOLLOUT`. -/
def epollOut : UInt32 := 0x004

/-- `EPOLLERR`. -/
def epollErr : UInt32 := 0x008

/-- `EPOLLHUP`. -/
def epollHup : UInt32 := 0x010

/-- `ops & bit` as a condition. -/
def wants (ops bit : UInt32) : Bool := ops &&& bit != 0

theorem and_or_absorb (ops bit : UInt32) : (ops ||| bit) &&& bit = bit := by
  apply UInt32.toBitVec_inj.mp
  ext i
  simp only [UInt32.toBitVec_and, UInt32.toBitVec_or, BitVec.getElem_and, BitVec.getElem_or]
  cases ops.toBitVec[i] <;> simp

theorem or_and_of_disjoint {ops other bit : UInt32} (h : other &&& bit = 0) :
    (ops ||| other) &&& bit = ops &&& bit := by
  apply UInt32.toBitVec_inj.mp
  ext i hi
  have hnone := congrArg (fun n : UInt32 => n.toBitVec[i]) h
  simp only [UInt32.toBitVec_and, UInt32.toBitVec_or, BitVec.getElem_and, BitVec.getElem_or,
    UInt32.toBitVec_zero, BitVec.getElem_zero] at *
  rw [Bool.and_or_distrib_right, hnone, Bool.or_false]

@[simp]
theorem wants_or_out (ops : UInt32) : wants (ops ||| epollOut) epollOut = true := by
  rw [wants, and_or_absorb]
  rfl

@[simp]
theorem wants_remove_self (ops bit : UInt32) : wants (ops &&& ~~~bit) bit = false := by
  rw [wants, UInt32.and_assoc, UInt32.not_and_self, UInt32.and_zero]
  rfl

@[simp]
theorem wants_remove_in (ops : UInt32) :
    wants (ops &&& ~~~epollIn) epollOut = wants ops epollOut := by
  rw [wants, wants, UInt32.and_assoc]
  rfl

/-- An event other than an error or a hang-up is reported only where the entry asks
for it. -/
theorem wants_of_reported {ops mask bit : UInt32} (hbit : bit &&& (epollErr ||| epollHup) = 0)
    (h : wants ops bit = true) (hreported : ops &&& ~~~(mask ||| epollErr ||| epollHup) = 0) :
    wants mask bit = true := by
  rw [wants, bne_iff_ne] at h ⊢
  intro hnone
  apply h
  apply UInt32.toBitVec_inj.mp
  ext i hi
  have hwithin : ∀ n : UInt32, n = 0 → n.toBitVec[i] = false := by
    rintro _ rfl
    simp
  have hsilent := hwithin _ hbit
  have hasked := hwithin _ hnone
  have hallowed := hwithin _ hreported
  simp only [UInt32.toBitVec_and, UInt32.toBitVec_or, UInt32.toBitVec_not, BitVec.getElem_and,
    BitVec.getElem_or, BitVec.getElem_not, UInt32.toBitVec_zero, BitVec.getElem_zero] at *
  cases hop : ops.toBitVec[i] <;> cases hb : bit.toBitVec[i] <;> simp_all

/-! ## The kernel's table -/

/-- An entry of the table: the event mask and the user data `data.ptr`. -/
structure EpollEntry (ρ : Type) where
  events : UInt32
  ptr : ρ
  deriving DecidableEq, Repr

/-- The entries by descriptor. -/
abbrev Epoll (ρ : Type) := ℤ → Option (EpollEntry ρ)

/-- The operations of `epoll_ctl`. -/
inductive CtlOp
  | add
  | mod
  | del
  deriving DecidableEq, Repr

variable {ρ : Type}

/-- `epoll_ctl`. -/
def epollCtl (table : Epoll ρ) (op : CtlOp) (fd : ℤ) (entry : EpollEntry ρ) : Epoll ρ :=
  match op, table fd with
  | .add, none => if fd < 0 then table else Function.update table fd (some entry)
  | .mod, some _ => Function.update table fd (some entry)
  | .del, some _ => Function.update table fd none
  | _, _ => table

/-- `::close`: the kernel drops the entry of a descriptor that is closed. -/
def closeFd (table : Epoll ρ) (fd : ℤ) : Epoll ρ := Function.update table fd none

theorem epollCtl_of_ne (table : Epoll ρ) (op : CtlOp) {fd other : ℤ} (entry : EpollEntry ρ)
    (h : other ≠ fd) : epollCtl table op fd entry other = table other := by
  cases op <;> cases hentry : table fd <;> simp only [epollCtl, hentry]
  case add.none =>
    split
    · rfl
    · exact Function.update_of_ne h _ _
  case mod.some => exact Function.update_of_ne h _ _
  case del.some => exact Function.update_of_ne h _ _

theorem epollCtl_del_self (table : Epoll ρ) (fd : ℤ) (entry : EpollEntry ρ) :
    epollCtl table .del fd entry fd = none := by
  cases hentry : table fd with
  | none => simp only [epollCtl, hentry]
  | some old => simp only [epollCtl, hentry, Function.update_self]

theorem epollCtl_mod_self (table : Epoll ρ) (fd : ℤ) (entry : EpollEntry ρ) :
    epollCtl table .mod fd entry fd = (table fd).map fun _ => entry := by
  cases hentry : table fd with
  | none => simp only [epollCtl, hentry, Option.map_none]
  | some old => simp only [epollCtl, hentry, Function.update_self, Option.map_some]

theorem epollCtl_add_self {table : Epoll ρ} {fd : ℤ} (entry : EpollEntry ρ)
    (habsent : table fd = none) :
    epollCtl table .add fd entry fd = if 0 ≤ fd then some entry else none := by
  simp only [epollCtl, habsent]
  by_cases hfd : fd < 0
  · rw [if_pos hfd, if_neg (by omega), habsent]
  · rw [if_neg hfd, if_pos (by omega), Function.update_self]

/-- A call leaves the entry it found, or the new one. -/
theorem entry_of_epollCtl {table : Epoll ρ} {op : CtlOp} {fd fd' : ℤ}
    {new entry : EpollEntry ρ} (h : epollCtl table op fd new fd' = some entry) :
    table fd' = some entry ∨ fd' = fd ∧ entry = new := by
  by_cases hfd : fd' = fd
  · subst hfd
    cases op with
    | add =>
        cases hold : table fd' with
        | none =>
            rw [epollCtl_add_self _ hold] at h
            split at h
            · exact Or.inr ⟨rfl, (Option.some.inj h).symm⟩
            · cases h
        | some old =>
            simp only [epollCtl, hold] at h
            exact Or.inl h
    | mod =>
        rw [epollCtl_mod_self, Option.map_eq_some_iff] at h
        obtain ⟨-, -, rfl⟩ := h
        exact Or.inr ⟨rfl, rfl⟩
    | del =>
        rw [epollCtl_del_self] at h
        cases h
  · exact Or.inl (epollCtl_of_ne table op new hfd ▸ h)

/-- There are no entries under negative numbers. -/
def NonNegative (table : Epoll ρ) : Prop := ∀ fd entry, table fd = some entry → 0 ≤ fd

theorem NonNegative.eq_none {table : Epoll ρ} (h : NonNegative table) {fd : ℤ} (hfd : fd < 0) :
    table fd = none := by
  by_contra hsome
  obtain ⟨entry, hentry⟩ := Option.ne_none_iff_exists'.mp hsome
  have hle := h fd entry hentry
  omega

theorem NonNegative.epollCtl {table : Epoll ρ} (h : NonNegative table) (op : CtlOp) (fd : ℤ)
    (new : EpollEntry ρ) : NonNegative (epollCtl table op fd new) := by
  intro other entry hentry
  by_cases hother : other = fd
  · subst hother
    cases hold : table other with
    | some old => exact h other old hold
    | none =>
        cases op with
        | add =>
            rw [epollCtl_add_self _ hold] at hentry
            split at hentry
            · assumption
            · cases hentry
        | mod =>
            rw [epollCtl_mod_self, hold] at hentry
            cases hentry
        | del =>
            rw [epollCtl_del_self] at hentry
            cases hentry
  · exact h other entry (epollCtl_of_ne table op new hother ▸ hentry)

/-- What is left after a descriptor was closed. -/
theorem closeFd_eq_some {table : Epoll ρ} {fd other : ℤ} {entry : EpollEntry ρ} :
    closeFd table fd other = some entry ↔ other ≠ fd ∧ table other = some entry := by
  by_cases hfd : other = fd
  · simp [closeFd, hfd]
  · simp [closeFd, hfd]

theorem NonNegative.closeFd {table : Epoll ρ} (h : NonNegative table) (fd : ℤ) :
    NonNegative (closeFd table fd) :=
  fun other entry hentry => h other entry (closeFd_eq_some.mp hentry).2

theorem closeFd_of_ne (table : Epoll ρ) {fd other : ℤ} (h : other ≠ fd) :
    closeFd table fd other = table other := Function.update_of_ne h _ _

/-! ## Event sources -/

/-- `EventSource::State`. -/
inductive SourceState
  | noEvent
  | registered
  deriving DecidableEq, Repr

/-- The members of `EventSource` its operations read and write. -/
structure EventSource where
  state : SourceState
  fd : ℤ
  interestOps : UInt32
  deriving DecidableEq, Repr

namespace EventSource

/-- The constructor. -/
def new (fd : ℤ) : EventSource := ⟨.noEvent, fd, 0⟩

variable (ev : EventSource) (ptr : ρ) (table : Epoll ρ)

/-- `EventLoop::register_event`. -/
def registerEvent : Epoll ρ := epollCtl table .add ev.fd ⟨ev.interestOps, ptr⟩

/-- `EventLoop::unregister_event`. -/
def unregisterEvent : Epoll ρ := epollCtl table .del ev.fd ⟨ev.interestOps, ptr⟩

/-- `EventLoop::modify_event`. -/
def modifyEvent : Epoll ρ := epollCtl table .mod ev.fd ⟨ev.interestOps, ptr⟩

/-- `enable_ops`. -/
def enableOps (op : UInt32) : EventSource × Epoll ρ :=
  let ev := { ev with interestOps := ev.interestOps ||| op }
  if ev.interestOps ≠ 0 then
    if ev.state = .noEvent then
      let ev := { ev with state := .registered }
      (ev, ev.registerEvent ptr table)
    else (ev, ev.modifyEvent ptr table)
  else (ev, table)

/-- `disable_ops`. -/
def disableOps (op : UInt32) : EventSource × Epoll ρ :=
  let ev := { ev with interestOps := ev.interestOps &&& ~~~op }
  if ev.interestOps = 0 then
    ({ ev with state := .noEvent }, ev.unregisterEvent ptr table)
  else (ev, ev.modifyEvent ptr table)

/-- `disable_all`, also the whole of the destructor. -/
def disableAll : EventSource × Epoll ρ :=
  let ev := { ev with interestOps := 0 }
  if ev.state = .registered then
    ({ ev with state := .noEvent }, ev.unregisterEvent ptr table)
  else (ev, table)

/-- `enable_reading`. -/
def enableReading : EventSource × Epoll ρ := ev.enableOps ptr table epollIn

/-- `disable_reading`. -/
def disableReading : EventSource × Epoll ρ := ev.disableOps ptr table epollIn

/-- `enable_writing`. -/
def enableWriting : EventSource × Epoll ρ := ev.enableOps ptr table epollOut

/-- `disable_writing`. -/
def disableWriting : EventSource × Epoll ρ := ev.disableOps ptr table epollOut

/-- The raw setter `interest_ops(ops)`. -/
def setInterestOps (ops : UInt32) : EventSource := { ev with interestOps := ops }

variable {ev ptr table}

/-! ## Source and table -/

/-- Whether the table has an entry for the descriptor is what `state_` says. -/
structure Tracked (ev : EventSource) (ptr : ρ) (table : Epoll ρ) : Prop where
  absent : ev.state = .noEvent ∨ ev.fd < 0 → table ev.fd = none
  present : ev.state = .registered → 0 ≤ ev.fd → ∃ events, table ev.fd = some ⟨events, ptr⟩

/-- The entry of the descriptor, if it can have one, is the interest set, and
there is none for the empty set. -/
structure Synced (ev : EventSource) (ptr : ρ) (table : Epoll ρ) : Prop where
  registered : ev.state = .registered ↔ ev.interestOps ≠ 0
  entry : table ev.fd =
    if ev.state = .registered ∧ 0 ≤ ev.fd then some ⟨ev.interestOps, ptr⟩ else none

theorem Synced.tracked (h : ev.Synced ptr table) : ev.Tracked ptr table where
  absent hcase := by
    rw [h.entry, if_neg]
    rintro ⟨hstate, hfd⟩
    rcases hcase with hno | hneg
    · rw [hno] at hstate
      cases hstate
    · omega
  present hstate hfd := ⟨ev.interestOps, by rw [h.entry, if_pos ⟨hstate, hfd⟩]⟩

theorem state_cases (ev : EventSource) : ev.state = .noEvent ∨ ev.state = .registered := by
  cases ev.state
  · exact Or.inl rfl
  · exact Or.inr rfl

@[simp]
theorem fd_enableOps (op : UInt32) : (ev.enableOps ptr table op).1.fd = ev.fd := by
  simp only [enableOps]
  split
  · split <;> rfl
  · rfl

@[simp]
theorem fd_disableOps (op : UInt32) : (ev.disableOps ptr table op).1.fd = ev.fd := by
  simp only [disableOps]
  split <;> rfl

@[simp]
theorem fd_disableAll : (ev.disableAll ptr table).1.fd = ev.fd := by
  simp only [disableAll]
  split <;> rfl

@[simp]
theorem interestOps_enableOps (op : UInt32) :
    (ev.enableOps ptr table op).1.interestOps = ev.interestOps ||| op := by
  simp only [enableOps]
  split
  · split <;> rfl
  · rfl

@[simp]
theorem interestOps_disableOps (op : UInt32) :
    (ev.disableOps ptr table op).1.interestOps = ev.interestOps &&& ~~~op := by
  simp only [disableOps]
  split <;> rfl

@[simp]
theorem interestOps_disableAll : (ev.disableAll ptr table).1.interestOps = 0 := by
  simp only [disableAll]
  split <;> rfl

/-- The operations leave the entries of other descriptors alone. -/
theorem enableOps_of_ne (op : UInt32) {fd : ℤ} (h : fd ≠ ev.fd) :
    (ev.enableOps ptr table op).2 fd = table fd := by
  simp only [enableOps]
  split
  · split
    · exact epollCtl_of_ne _ _ _ h
    · exact epollCtl_of_ne _ _ _ h
  · rfl

theorem disableOps_of_ne (op : UInt32) {fd : ℤ} (h : fd ≠ ev.fd) :
    (ev.disableOps ptr table op).2 fd = table fd := by
  simp only [disableOps]
  split
  · exact epollCtl_of_ne _ _ _ h
  · exact epollCtl_of_ne _ _ _ h

theorem disableAll_of_ne {fd : ℤ} (h : fd ≠ ev.fd) :
    (ev.disableAll ptr table).2 fd = table fd := by
  simp only [disableAll]
  split
  · exact epollCtl_of_ne _ _ _ h
  · rfl

theorem or_ne_zero {op : UInt32} (hop : op ≠ 0) (ops : UInt32) : ops ||| op ≠ 0 := by
  intro hzero
  have habsorb := and_or_absorb ops op
  rw [hzero, UInt32.zero_and] at habsorb
  exact hop habsorb.symm

/-- Enabling a non-empty set registers the source. -/
theorem Synced.enableOps {op : UInt32} (h : ev.Synced ptr table) (hop : op ≠ 0) :
    (ev.enableOps ptr table op).1.Synced ptr (ev.enableOps ptr table op).2 := by
  have hne := or_ne_zero hop ev.interestOps
  simp only [EventSource.enableOps, if_pos hne]
  rcases state_cases ev with hstate | hstate
  · have habsent : table ev.fd = none := h.tracked.absent (Or.inl hstate)
    rw [if_pos hstate]
    refine ⟨by simp [hne], ?_⟩
    simp only [registerEvent]
    rw [epollCtl_add_self _ habsent]
    simp
  · rw [if_neg (by simp [hstate])]
    refine ⟨by simp [hne, hstate], ?_⟩
    simp only [modifyEvent]
    rw [epollCtl_mod_self, h.entry]
    by_cases hfd : 0 ≤ ev.fd <;> simp [hstate, hfd]

theorem Synced.disableOps {op : UInt32} (h : ev.Synced ptr table) :
    (ev.disableOps ptr table op).1.Synced ptr (ev.disableOps ptr table op).2 := by
  by_cases hzero : ev.interestOps &&& ~~~op = 0
  · simp only [EventSource.disableOps, if_pos hzero]
    refine ⟨by simp [hzero], ?_⟩
    simp only [unregisterEvent]
    rw [epollCtl_del_self]
    simp
  · simp only [EventSource.disableOps, if_neg hzero]
    have hstate : ev.state = .registered := by
      rw [h.registered]
      intro hops
      rw [hops, UInt32.zero_and] at hzero
      exact hzero rfl
    refine ⟨by simp [hzero, hstate], ?_⟩
    simp only [modifyEvent]
    rw [epollCtl_mod_self, h.entry]
    by_cases hfd : 0 ≤ ev.fd <;> simp [hstate, hfd]

/-- Enabling a non-empty set keeps `state_` right, whatever the raw setter did. -/
theorem Tracked.enableOps {op : UInt32} (h : ev.Tracked ptr table) (hop : op ≠ 0) :
    (ev.enableOps ptr table op).1.Tracked ptr (ev.enableOps ptr table op).2 := by
  have hne := or_ne_zero hop ev.interestOps
  simp only [EventSource.enableOps, if_pos hne]
  rcases state_cases ev with hstate | hstate
  · have habsent : table ev.fd = none := h.absent (Or.inl hstate)
    rw [if_pos hstate]
    refine ⟨fun hcase => ?_, fun _ hfd => ⟨ev.interestOps ||| op, ?_⟩⟩
    · have hfd : ev.fd < 0 := by simpa using hcase
      simp only [registerEvent]
      rw [epollCtl_add_self _ habsent, if_neg (by omega)]
    · simp only [registerEvent]
      rw [epollCtl_add_self _ habsent, if_pos hfd]
  · rw [if_neg (by simp [hstate])]
    refine ⟨fun hcase => ?_, fun _ hfd => ⟨ev.interestOps ||| op, ?_⟩⟩
    · simp only [modifyEvent]
      rw [epollCtl_mod_self, h.absent hcase, Option.map_none]
    · obtain ⟨events, hentry⟩ := h.present hstate hfd
      simp only [modifyEvent]
      rw [epollCtl_mod_self, hentry, Option.map_some]

theorem Tracked.disableOps {op : UInt32} (h : ev.Tracked ptr table) :
    (ev.disableOps ptr table op).1.Tracked ptr (ev.disableOps ptr table op).2 := by
  by_cases hzero : ev.interestOps &&& ~~~op = 0
  · simp only [EventSource.disableOps, if_pos hzero, unregisterEvent]
    exact ⟨fun _ => epollCtl_del_self _ _ _, by simp⟩
  · simp only [EventSource.disableOps, if_neg hzero, modifyEvent]
    refine ⟨fun hcase => ?_, fun hstate hfd => ?_⟩
    · rw [epollCtl_mod_self, h.absent hcase, Option.map_none]
    · obtain ⟨events, hentry⟩ := h.present hstate hfd
      exact ⟨_, by rw [epollCtl_mod_self, hentry]; rfl⟩

/-- `disable_all` removes the entry. -/
theorem disableAll_self (h : ev.Tracked ptr table) :
    (ev.disableAll ptr table).2 ev.fd = none := by
  simp only [disableAll]
  rcases state_cases ev with hstate | hstate
  · rw [if_neg (by simp [hstate])]
    exact h.absent (Or.inl hstate)
  · rw [if_pos hstate]
    exact epollCtl_del_self _ _ _

theorem state_disableAll : (ev.disableAll ptr table).1.state = .noEvent := by
  simp only [disableAll]
  rcases state_cases ev with hstate | hstate
  · rw [if_neg (by simp [hstate])]
    exact hstate
  · rw [if_pos hstate]

theorem Tracked.disableAll (h : ev.Tracked ptr table) :
    (ev.disableAll ptr table).1.Synced ptr (ev.disableAll ptr table).2 where
  registered := by simp [state_disableAll]
  entry := by simp [state_disableAll, disableAll_self h]

/-- The raw setter does not touch the table. -/
theorem Tracked.setInterestOps (h : ev.Tracked ptr table) (ops : UInt32) :
    (ev.setInterestOps ops).Tracked ptr table :=
  ⟨h.absent, h.present⟩

/-! ## Entries that lead to a source -/

section Backed

variable {fd : ℤ} {op : UInt32} {entry : EpollEntry ρ}

/-- An operation leaves the entry it found, or the new interest set. -/
theorem entry_of_enableOps (h : (ev.enableOps ptr table op).2 fd = some entry) :
    table fd = some entry ∨ entry = ⟨(ev.enableOps ptr table op).1.interestOps, ptr⟩ := by
  rw [interestOps_enableOps]
  simp only [enableOps] at h
  split at h
  · split at h <;> exact (entry_of_epollCtl h).imp id And.right
  · exact Or.inl h

theorem entry_of_disableOps (h : (ev.disableOps ptr table op).2 fd = some entry) :
    table fd = some entry ∧ fd ≠ ev.fd ∨
      entry = ⟨(ev.disableOps ptr table op).1.interestOps, ptr⟩ := by
  by_cases hfd : fd = ev.fd
  · subst hfd
    right
    rw [interestOps_disableOps]
    simp only [disableOps, unregisterEvent, modifyEvent] at h
    split at h
    · dsimp only at h
      rw [epollCtl_del_self] at h
      cases h
    · dsimp only at h
      rw [epollCtl_mod_self, Option.map_eq_some_iff] at h
      obtain ⟨-, -, rfl⟩ := h
      rfl
  · rw [disableOps_of_ne op hfd] at h
    exact Or.inl ⟨h, hfd⟩

theorem entry_of_disableAll (h : (ev.disableAll ptr table).2 fd = some entry) :
    table fd = some entry := by
  by_cases hfd : fd = ev.fd
  · subst hfd
    simp only [disableAll, unregisterEvent] at h
    split at h
    · dsimp only at h
      rw [epollCtl_del_self] at h
      cases h
    · exact h
  · rwa [disableAll_of_ne hfd] at h

/-- Whatever else uses the table, an entry that leads to the source is the one of
its descriptor, and there is none unless the source is registered. -/
structure Backed (ev : EventSource) (ptr : ρ) (table : Epoll ρ) : Prop where
  registered : ev.interestOps ≠ 0 → ev.state = .registered
  entry : ∀ fd entry, table fd = some entry → entry.ptr = ptr →
    fd = ev.fd ∧ ev.state = .registered

/-- The mask of an entry that leads to the source is its interest set. -/
def Matched (ev : EventSource) (ptr : ρ) (table : Epoll ρ) : Prop :=
  ∀ fd entry, table fd = some entry → entry.ptr = ptr → entry.events = ev.interestOps

theorem state_enableOps (hop : op ≠ 0) : (ev.enableOps ptr table op).1.state = .registered := by
  simp only [enableOps, if_pos (or_ne_zero hop ev.interestOps)]
  rcases state_cases ev with hstate | hstate
  · rw [if_pos hstate]
  · rw [if_neg (by simp [hstate])]
    exact hstate

theorem state_disableOps :
    (ev.disableOps ptr table op).1.state =
      if ev.interestOps &&& ~~~op = 0 then .noEvent else ev.state := by
  simp only [disableOps]
  split <;> rfl

/-- Enabling writes the new set into the entry of the source, if it has one. -/
theorem Backed.enableOps (h : ev.Backed ptr table) (hop : op ≠ 0) :
    (ev.enableOps ptr table op).1.Backed ptr (ev.enableOps ptr table op).2 ∧
      (ev.enableOps ptr table op).1.Matched ptr (ev.enableOps ptr table op).2 := by
  have hfd : ∀ fd entry, (ev.enableOps ptr table op).2 fd = some entry → entry.ptr = ptr →
      fd = ev.fd := by
    intro fd entry hentry hptr
    by_contra hne
    rw [enableOps_of_ne op hne] at hentry
    exact hne (h.entry fd entry hentry hptr).1
  refine ⟨⟨fun _ => state_enableOps hop, fun fd entry hentry hptr => ?_⟩,
    fun fd entry hentry hptr => ?_⟩
  · exact ⟨(hfd fd entry hentry hptr).trans (fd_enableOps op).symm, state_enableOps hop⟩
  · obtain rfl := hfd fd entry hentry hptr
    rcases entry_of_enableOps hentry with hold | rfl
    · -- an entry of the source means that it is registered, and so its entry is modified
      have hstate := (h.entry _ entry hold hptr).2
      simp only [EventSource.enableOps, if_pos (or_ne_zero hop ev.interestOps)] at hentry ⊢
      rw [if_neg (by simp [hstate])] at hentry ⊢
      simp only [modifyEvent] at hentry
      rw [epollCtl_mod_self, hold] at hentry
      exact (congrArg EpollEntry.events (Option.some.inj hentry)).symm
    · rfl

theorem Backed.disableOps (h : ev.Backed ptr table) :
    (ev.disableOps ptr table op).1.Backed ptr (ev.disableOps ptr table op).2 ∧
      (ev.disableOps ptr table op).1.Matched ptr (ev.disableOps ptr table op).2 := by
  have hown : ∀ fd entry, (ev.disableOps ptr table op).2 fd = some entry → entry.ptr = ptr →
      fd = ev.fd ∧ entry.events = (ev.disableOps ptr table op).1.interestOps := by
    intro fd entry hentry hptr
    constructor
    · by_contra hne
      rw [disableOps_of_ne op hne] at hentry
      exact hne (h.entry fd entry hentry hptr).1
    · rcases entry_of_disableOps hentry with ⟨hold, hne⟩ | rfl
      · exact absurd (h.entry fd entry hold hptr).1 hne
      · rfl
  have hkept : ∀ hne : ev.interestOps &&& ~~~op ≠ 0,
      (ev.disableOps ptr table op).1.state = .registered := by
    intro hne
    rw [state_disableOps, if_neg hne]
    refine h.registered fun hzero => hne ?_
    rw [hzero, UInt32.zero_and]
  refine ⟨⟨fun hne => hkept (by rwa [interestOps_disableOps] at hne),
    fun fd entry hentry hptr => ?_⟩, fun fd entry hentry hptr => (hown fd entry hentry hptr).2⟩
  obtain rfl := (hown fd entry hentry hptr).1
  refine ⟨(fd_disableOps op).symm, hkept fun hzero => ?_⟩
  simp only [EventSource.disableOps, if_pos hzero, unregisterEvent] at hentry
  rw [epollCtl_del_self] at hentry
  cases hentry

theorem nonNegative_enableOps (h : NonNegative table) (op : UInt32) :
    NonNegative (ev.enableOps ptr table op).2 := by
  simp only [EventSource.enableOps]
  split
  · split <;> exact h.epollCtl _ _ _
  · exact h

theorem nonNegative_disableOps (h : NonNegative table) (op : UInt32) :
    NonNegative (ev.disableOps ptr table op).2 := by
  simp only [EventSource.disableOps]
  split <;> exact h.epollCtl _ _ _

theorem nonNegative_disableAll (h : NonNegative table) :
    NonNegative (ev.disableAll ptr table).2 :=
  fun fd entry hentry => h fd entry (entry_of_disableAll hentry)

/-- `disable_all` leaves no entry that leads to the source. -/
theorem Backed.ptr_ne (h : ev.Backed ptr table)
    (hentry : (ev.disableAll ptr table).2 fd = some entry) : entry.ptr ≠ ptr := by
  intro hptr
  obtain ⟨rfl, hstate⟩ := h.entry fd entry (entry_of_disableAll hentry) hptr
  simp only [disableAll, unregisterEvent] at hentry
  rw [if_pos hstate] at hentry
  dsimp only at hentry
  rw [epollCtl_del_self] at hentry
  cases hentry

theorem Backed.disableAll (h : ev.Backed ptr table) :
    (ev.disableAll ptr table).1.Backed ptr (ev.disableAll ptr table).2 ∧
      (ev.disableAll ptr table).1.Matched ptr (ev.disableAll ptr table).2 := by
  refine ⟨⟨fun hne => absurd interestOps_disableAll hne, fun fd entry hentry hptr => ?_⟩,
    fun fd entry hentry hptr => ?_⟩
  · exact absurd hptr (h.ptr_ne hentry)
  · exact absurd hptr (h.ptr_ne hentry)

/-- A new source is the only one with its name. -/
theorem backed_new {fd : ℤ} (h : ∀ fd entry, table fd = some entry → entry.ptr ≠ ptr) :
    (new fd).Backed ptr table where
  registered hne := absurd rfl hne
  entry fd entry hentry hptr := absurd hptr (h fd entry hentry)

end Backed

section Congr

variable {table' : Epoll ρ}

/-- Only the entry of its own descriptor matters to a source. -/
theorem Tracked.congr (h : ev.Tracked ptr table) (heq : table' ev.fd = table ev.fd) :
    ev.Tracked ptr table' where
  absent hcase := heq.trans (h.absent hcase)
  present hstate hfd := by
    rw [heq]
    exact h.present hstate hfd

theorem Synced.congr (h : ev.Synced ptr table) (heq : table' ev.fd = table ev.fd) :
    ev.Synced ptr table' :=
  ⟨h.registered, heq.trans h.entry⟩

end Congr

theorem synced_new {fd : ℤ} (h : table fd = none) : (new fd).Synced ptr table where
  registered := by simp [new]
  entry := by simp [new, h]

end EventSource

end Mutiplex
