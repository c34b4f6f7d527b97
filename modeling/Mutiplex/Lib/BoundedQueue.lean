/-
# Bounded queues

A queue that holds up to `capacity` items, as a list with the bound on its
length.  It takes a batch in at the back if there is room for all of it, and
gives out up to `n` items at the front.  As a device it answers every request
with what came out and with what can be seen of it afterwards.
-/

import Mathlib.Data.List.Basic
import Mutiplex.Lib.Transition

open Transition

universe u v

/-- The items of a queue, oldest first. -/
structure BoundedQueue (α : Type u) (capacity : ℕ) where
  items : List α
  fits : items.length ≤ capacity

namespace BoundedQueue

/-- Put a batch in, or take up to a number of items out. -/
inductive Request (α : Type u)
  | enqueue (batch : List α)
  | dequeue (n : ℕ)

/-- What a request took out, and the queue as it can be seen afterwards. -/
structure Answer (α : Type u) where
  taken : List α
  length : ℕ
  isEmpty : Bool
  isFull : Bool
  deriving DecidableEq, Repr

variable {α : Type u} {capacity : ℕ} (q : BoundedQueue α capacity)

/-- The free space. -/
def remaining : ℕ := capacity - q.items.length

/-- Put a batch in that there is room for. -/
def enqueue (batch : List α) (hroom : batch.length ≤ q.remaining) : BoundedQueue α capacity where
  items := q.items ++ batch
  fits := by
    have := q.fits
    rw [remaining] at hroom
    rw [List.length_append]
    omega

/-- The queue without its first `n` items. -/
def dequeue (n : ℕ) : BoundedQueue α capacity where
  items := q.items.drop n
  fits := by
    have := q.fits
    rw [List.length_drop]
    omega

/-- The answer to a request that took out `taken` and left `q`. -/
def answer (taken : List α) : Answer α where
  taken := taken
  length := q.items.length
  isEmpty := q.items.isEmpty
  isFull := q.items.length == capacity

/-- The queue as a device; a batch without room blocks. -/
def device (α : Type u) (capacity : ℕ) (ε : Type v) :
    Device (BoundedQueue α capacity) (Request α) (Answer α) ε where
  step q
    | .enqueue batch =>
        if hroom : batch.length ≤ q.remaining then
          .next (q.enqueue batch hroom, (q.enqueue batch hroom).answer [])
        else .blocked
    | .dequeue n => .next (q.dequeue n, (q.dequeue n).answer (q.items.take n))

/-- A bounded queue never goes wrong. -/
theorem answers_ne_fault {ε : Type v} (requests : List (Request α)) (error : ε) :
    (device α capacity ε).answers q requests ≠ .fault error := by
  refine Device.answers_ne_fault ?_ requests q error
  intro q request error
  cases request with
  | enqueue batch =>
      simp only [device]
      split <;> simp
  | dequeue n => simp [device]

end BoundedQueue
