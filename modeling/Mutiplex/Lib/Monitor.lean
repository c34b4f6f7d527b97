/-
# Monitors

A mutex and a condition variable on it.  A party that owns the mutex can wait:
it gives the mutex up and sleeps until another one notifies it, or until it wakes
for no reason, and then locks the mutex again.  A wake-up is lost if a party goes
to sleep, or sleeps on, although what it waits for has come and nobody is going
to notify it.  The rules below keep that from happening: who makes the condition
true owns the mutex and notifies before unlocking, and who waits has tested the
condition under the same lock.
-/

import Mathlib.Data.Finset.Basic

universe u

/-- A mutex, and the parties that sleep on its condition variable. -/
structure Monitor (ι : Type u) where
  owner : Option ι
  sleeping : Finset ι

namespace Monitor

variable {ι : Type u} [DecidableEq ι]

/-- A mutex that nobody owns. -/
def free : Monitor ι where
  owner := none
  sleeping := ∅

variable (m : Monitor ι) (i : ι)

/-- Lock the mutex; who sleeps cannot. -/
def lock : Option (Monitor ι) :=
  if m.owner = none ∧ i ∉ m.sleeping then some { m with owner := some i } else none

def unlock : Option (Monitor ι) :=
  if m.owner = some i then some { m with owner := none } else none

/-- Unlock the mutex and sleep, in one step. -/
def wait : Option (Monitor ι) :=
  if m.owner = some i then some { owner := none, sleeping := insert i m.sleeping } else none

/-- Wake up, notified or not. -/
def wake : Monitor ι := { m with sleeping := m.sleeping.erase i }

/-- Wake one of the parties that sleep, if there are any. -/
def notifyOne (woken : Option ι) : Option (Monitor ι) :=
  match woken with
  | none => if m.sleeping = ∅ then some m else none
  | some j => if j ∈ m.sleeping then some (m.wake j) else none

variable {m i} {m' : Monitor ι}

theorem lock_eq_some :
    m.lock i = some m' ↔
      (m.owner = none ∧ i ∉ m.sleeping) ∧ m' = { m with owner := some i } := by
  rw [lock, Option.ite_none_right_eq_some, Option.some.injEq, eq_comm (a := m')]

theorem unlock_eq_some :
    m.unlock i = some m' ↔ m.owner = some i ∧ m' = { m with owner := none } := by
  rw [unlock, Option.ite_none_right_eq_some, Option.some.injEq, eq_comm (a := m')]

theorem wait_eq_some :
    m.wait i = some m' ↔
      m.owner = some i ∧ m' = { owner := none, sleeping := insert i m.sleeping } := by
  rw [wait, Option.ite_none_right_eq_some, Option.some.injEq, eq_comm (a := m')]

theorem owner_of_notifyOne {woken : Option ι} (h : m.notifyOne woken = some m') :
    m'.owner = m.owner := by
  unfold notifyOne at h
  split at h <;> split at h <;> cases h <;> rfl

theorem sleeping_subset_of_notifyOne {woken : Option ι} (h : m.notifyOne woken = some m') :
    m'.sleeping ⊆ m.sleeping := by
  unfold notifyOne at h
  split at h <;> split at h <;> cases h
  · exact Finset.Subset.refl _
  · exact Finset.erase_subset _ _

/-- Notifying the only party that can sleep leaves nobody asleep. -/
theorem sleeping_of_notifyOne {woken : Option ι} (h : m.notifyOne woken = some m')
    (honly : ∀ j ∈ m.sleeping, j = i) : m'.sleeping = ∅ := by
  refine Finset.eq_empty_iff_forall_notMem.mpr fun j hj => ?_
  unfold notifyOne at h
  split at h <;> split at h <;> cases h
  · rename_i hnone
    exact Finset.notMem_empty j (hnone ▸ hj)
  · rename_i hwoken
    obtain ⟨hne, hmem⟩ := Finset.mem_erase.mp hj
    exact hne ((honly j hmem).trans (honly _ hwoken).symm)

/-! ## Lost wake-ups -/

/-- **No wake-up is lost.** Who sleeps has something to wait for, or a
notification is pending; and a notification is pending only as long as somebody
owns the mutex. -/
structure Sound (m : Monitor ι) (ready pending : Prop) : Prop where
  asleep : m.sleeping.Nonempty → ready → pending
  owned : pending → m.owner ≠ none

variable {ready pending : Prop}

omit [DecidableEq ι] in
/-- Nobody sleeps at a free mutex if the condition is true. -/
theorem Sound.nobody_sleeps (h : m.Sound ready pending) (hfree : m.owner = none)
    (hready : ready) : m.sleeping = ∅ := by
  by_contra hne
  exact h.owned (h.asleep (Finset.nonempty_iff_ne_empty.mpr hne) hready) hfree

omit [DecidableEq ι] in
theorem sound_free (hnot : ¬ pending) : (free : Monitor ι).Sound ready pending :=
  ⟨fun hsome => absurd hsome Finset.not_nonempty_empty, fun hpending => absurd hpending hnot⟩

theorem Sound.lock (h : m.Sound ready pending) (hlock : m.lock i = some m') :
    m'.Sound ready pending := by
  obtain ⟨-, rfl⟩ := lock_eq_some.mp hlock
  exact ⟨h.asleep, fun _ => Option.some_ne_none i⟩

/-- The owner unlocks with nothing pending. -/
theorem Sound.unlock (h : m.Sound ready pending) (hunlock : m.unlock i = some m')
    (hnone : ¬ pending) : m'.Sound ready pending := by
  obtain ⟨-, rfl⟩ := unlock_eq_some.mp hunlock
  exact ⟨h.asleep, fun hpending => absurd hpending hnone⟩

/-- The owner has tested the condition and found it false. -/
theorem Sound.wait (hwait : m.wait i = some m') (hnot : ¬ ready) (hnone : ¬ pending) :
    m'.Sound ready pending := by
  obtain ⟨-, rfl⟩ := wait_eq_some.mp hwait
  exact ⟨fun _ hready => absurd hready hnot, fun hpending => absurd hpending hnone⟩

/-- Waking up changes nothing for the others. -/
theorem Sound.wake (h : m.Sound ready pending) (i : ι) : (m.wake i).Sound ready pending :=
  ⟨fun hsome => h.asleep (hsome.mono (Finset.erase_subset i m.sleeping)), h.owned⟩

omit [DecidableEq ι] in
/-- The owner changes what the condition is about, and is going to notify. -/
theorem Sound.change (howner : m.owner = some i) (hpending : pending) :
    m.Sound ready pending :=
  ⟨fun _ _ => hpending, fun _ => by rw [howner]; exact Option.some_ne_none i⟩

/-- The owner notifies the only party that can sleep. -/
theorem Sound.notifyOne {woken : Option ι} (hnotify : m.notifyOne woken = some m')
    (honly : ∀ j ∈ m.sleeping, j = i) (hnone : ¬ pending) : m'.Sound ready pending := by
  refine ⟨fun hsome => ?_, fun hpending => absurd hpending hnone⟩
  rw [sleeping_of_notifyOne hnotify honly] at hsome
  exact absurd hsome Finset.not_nonempty_empty

end Monitor
