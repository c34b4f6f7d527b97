/-
# What cannot be seen of the ring

Neither the wrap of the counters at 2^32 nor that of the positions at the end of
the block shows.  As long as every `put` fits into the free space, the buffer
answers as a bounded queue of its capacity that starts with its contents; two
buffers with the same contents therefore answer alike, wherever in the block
these lie.  And what `write_to_fd` hands to the kernel, in one piece or in two,
is what `get` would return.
-/

import Mathlib
import Mutiplex.CircularBuffer.Spec
import Mutiplex.Lib.BoundedQueue

namespace Mutiplex

open CMemory Transition

namespace CircularBuffer

/-- The two calls that move bytes between the buffer and its user. -/
inductive Transfer
  | put (buffer : List UInt8)
  | get (length : UInt32)
  deriving DecidableEq, Repr

/-- The same call on a bounded queue. -/
def Transfer.request : Transfer → BoundedQueue.Request Cell
  | .put buffer => .enqueue (buffer.map some)
  | .get length => .dequeue length.toNat

/-- The bytes a call returned, with `buffer_len`, `empty` and `full` after it. -/
def answer (b : CircularBuffer) (taken : List Cell) : BoundedQueue.Answer Cell where
  taken := taken
  length := b.bufferLen.toNat
  isEmpty := b.empty
  isFull := b.full

/-- The buffer under calls none of which makes it grow. -/
def device : Device CircularBuffer Transfer (BoundedQueue.Answer Cell) Fault where
  step b
    | .put buffer =>
        if buffer.length ≤ b.bufferRemaining.toNat then
          (Outcome.ofExcept (b.put buffer)).andThen fun b' => .next (b', b'.answer [])
        else .blocked
    | .get length =>
        (Outcome.ofExcept (b.get length)).andThen fun result =>
          .next (result.2, result.2.answer result.1)

variable {b : CircularBuffer}

/-- The queue a valid buffer stands for. -/
def Valid.queue (h : b.Valid) : BoundedQueue Cell b.capacity.toNat where
  items := b.contents
  fits := by
    rw [h.length_contents]
    exact h.fits

/-- A valid buffer of the capacity of the queue, with the items as contents. -/
structure Stores {capacity : ℕ} (b : CircularBuffer) (q : BoundedQueue Cell capacity) : Prop where
  valid : b.Valid
  capacity_eq : b.capacity.toNat = capacity
  items : b.contents = q.items

theorem Valid.stores (h : b.Valid) : b.Stores h.queue := ⟨h, rfl, rfl⟩

namespace Stores

variable {capacity : ℕ} {q : BoundedQueue Cell capacity}

theorem length_items (h : b.Stores q) : q.items.length = b.bufferLen.toNat := by
  rw [← h.items, h.valid.length_contents]

theorem remaining_eq (h : b.Stores q) : b.bufferRemaining.toNat = q.remaining := by
  rw [h.valid.bufferRemaining_eq, BoundedQueue.remaining, h.length_items, h.capacity_eq]

/-- The buffer and the queue look alike. -/
theorem answer_eq (h : b.Stores q) (taken : List Cell) : b.answer taken = q.answer taken := by
  have hempty : b.empty = q.items.isEmpty := by
    rw [Bool.eq_iff_iff, empty_iff, ← h.length_items, List.length_eq_zero_iff,
      List.isEmpty_iff]
  have hfull : b.full = (q.items.length == capacity) := by
    rw [Bool.eq_iff_iff, full_iff, beq_iff_eq, h.length_items, h.capacity_eq]
  rw [answer, BoundedQueue.answer, hempty, hfull, h.length_items]

/-- A call finds room in both or in neither, returns the same bytes from both,
and leaves the one standing for the other. -/
theorem step_matches (h : b.Stores q) (call : Transfer) :
    Outcome.Matches
      (fun result result' => result.1.Stores result'.1 ∧ result.2 = result'.2)
      (device.step b call) ((BoundedQueue.device Cell capacity Fault).step q call.request) := by
  cases call with
  | put buffer =>
      simp only [device, BoundedQueue.device, Transfer.request, List.length_map, h.remaining_eq]
      split
      · rename_i hroom
        have hfits : b.bufferLen.toNat + buffer.length ≤ b.capacity.toNat := by
          have := q.fits
          rw [BoundedQueue.remaining, h.length_items] at hroom
          rw [h.length_items] at this
          rw [h.capacity_eq]
          omega
        obtain ⟨b', hput, hvalid, hcapacity, -, hcontents⟩ := put_of_fits h.valid hfits
        rw [hput]
        have hstores : b'.Stores (q.enqueue (buffer.map some) (by rwa [List.length_map])) :=
          ⟨hvalid, by rw [hcapacity, h.capacity_eq], by rw [hcontents, h.items]; rfl⟩
        exact .next ⟨hstores, hstores.answer_eq []⟩
      · exact .blocked
  | get length =>
      simp only [device, BoundedQueue.device, Transfer.request, get_eq h.valid]
      have hle : min length.toNat b.bufferLen.toNat ≤ b.bufferLen.toNat := min_le_right _ _
      have hstores : (b.advance (min length.toNat b.bufferLen.toNat)).Stores
          (q.dequeue length.toNat) := by
        refine ⟨h.valid.advance hle, h.capacity_eq, ?_⟩
        rw [contents_advance_min h.valid, h.items]
        rfl
      rw [← h.items]
      exact .next ⟨hstores, hstores.answer_eq _⟩

end Stores

/-- **Neither wrap-around can be seen.**  From any counters and any position in
the block, and for every sequence of calls, a valid buffer answers as the
bounded queue with its contents does: the same `put`s have room, the same bytes
come out, and `buffer_len`, `empty` and `full` agree after every call.  So does
any other buffer of this capacity with these contents, and no copy leaves the
block. -/
theorem wrap_around_is_invisible (h : b.Valid) (calls : List Transfer) :
    b.answer [] = h.queue.answer [] ∧
      device.answers b calls =
        (BoundedQueue.device Cell b.capacity.toNat Fault).answers h.queue
          (calls.map Transfer.request) ∧
      (∀ b' : CircularBuffer, b'.Valid → b'.capacity = b.capacity → b'.contents = b.contents →
        b'.answer [] = b.answer [] ∧ device.answers b' calls = device.answers b calls) ∧
      ∀ error, device.answers b calls ≠ .fault error := by
  have hqueue {b' : CircularBuffer} (hstores : b'.Stores h.queue) : device.answers b' calls =
      (BoundedQueue.device Cell b.capacity.toNat Fault).answers h.queue
        (calls.map Transfer.request) :=
    Device.answers_eq_of_lockstep Transfer.request Stores
      (fun _ _ call hstores => hstores.step_matches call) calls hstores
  refine ⟨h.stores.answer_eq [], hqueue h.stores, ?_, ?_⟩
  · intro b' hvalid hcapacity hcontents
    have hstores : b'.Stores h.queue := ⟨hvalid, by rw [hcapacity], hcontents⟩
    rw [hqueue hstores, hqueue h.stores, hstores.answer_eq, h.stores.answer_eq]
    exact ⟨rfl, rfl⟩
  · intro error
    rw [hqueue h.stores]
    exact BoundedQueue.answers_ne_fault _ _ error

/-- Two bytes on both sides of the end of the block, with `in_` already past
2^32, and the same two bytes in the middle of another block. -/
theorem wrap_around_is_invisible_at_the_end :
    ∃ wrapped straight : CircularBuffer,
      wrapped.out_ = 0xffffffff ∧ wrapped.in_ = 1 ∧ straight.out_ = 5 ∧ straight.in_ = 7 ∧
      device.answers straight [.put [3, 4], .get 3, .put [5], .get 9] =
        device.answers wrapped [.put [3, 4], .get 3, .put [5], .get 9] := by
  let wrapped : CircularBuffer :=
    { data := [some 2, none, none, some 1], capacity := 4, in_ := 1, out_ := 0xffffffff }
  let straight : CircularBuffer :=
    { data := [none, some 1, some 2, none], capacity := 4, in_ := 7, out_ := 5 }
  have hwrapped : wrapped.Valid := ⟨⟨2, by decide, by decide⟩, by decide, by decide⟩
  have hstraight : straight.Valid := ⟨⟨2, by decide, by decide⟩, by decide, by decide⟩
  obtain ⟨-, -, hsame, -⟩ :=
    wrap_around_is_invisible hwrapped [.put [3, 4], .get 3, .put [5], .get 9]
  exact ⟨wrapped, straight, rfl, rfl, rfl, rfl,
    (hsame straight hstraight (by decide) (by decide)).2⟩

/-! ## Through the kernel -/

/-- As an `int`, a number of bytes that the kernel can accept at once is itself. -/
theorem castInt_of_accepted {n : ℕ} (hn : n ≤ 0x7ffff000) : castInt n = n := by
  rw [castInt, Int.bmod_def]
  omega

/-- **`write_to_fd` does what `get` does.**  On a buffer with bytes, the one or
two pieces offered to the kernel lie in the block and are the contents in order;
when the kernel accepts some of them, as many as one call can, `write_to_fd`
returns their number and leaves the buffer as a `get` of them does; and a call
that fails returns a negative number and leaves it unchanged. -/
theorem writeToFd_agrees_with_get (h : b.Valid) (hne : b.empty = false) :
    (∃ pieces, b.iovecs = .ok pieces ∧ pieces.flatten = b.contents) ∧
      (∀ n : ℕ, n ≤ b.bufferLen.toNat → n ≤ 0x7ffff000 →
        ∃ written, b.writeToFd n = .ok written ∧ written.total = n ∧
          b.get (UInt32.ofNat n) = .ok (written.taken, written.buffer)) ∧
      ∃ written, b.writeToFd (-1) = .ok written ∧ written.total < 0 ∧ written.taken = [] ∧
        written.buffer = b := by
  refine ⟨iovecs_eq h, ?_, ?_⟩
  · intro n hlen hn
    have hwrite := writeToFd_eq_of_nonneg h hne (Int.natCast_nonneg n)
    rw [castInt_of_accepted hn, Int.toNat_natCast] at hwrite
    have hcount : (UInt32.ofNat n).toNat = n := by
      rw [UInt32.toNat_ofNat', Nat.mod_eq_of_lt (by omega)]
    have hget := get_eq h (UInt32.ofNat n)
    rw [hcount, Nat.min_eq_left hlen] at hget
    exact ⟨_, hwrite, rfl, hget⟩
  · have htotal : castInt (-1) < 0 := by decide
    exact ⟨_, writeToFd_eq_of_neg h hne (by decide), htotal, rfl, rfl⟩

/-- Three bytes in two pieces of a block of four, of which the kernel accepts two. -/
theorem writeToFd_agrees_with_get_across_the_end :
    ∃ b : CircularBuffer, b.iovecs = .ok [[some 1], [some 2, some 3]] ∧
      ∃ written, b.writeToFd 2 = .ok written ∧ written.total = 2 ∧
        b.get 2 = .ok (written.taken, written.buffer) := by
  let b : CircularBuffer :=
    { data := [some 2, some 3, none, some 1], capacity := 4, in_ := 2, out_ := 0xffffffff }
  have hvalid : b.Valid := ⟨⟨2, by decide, by decide⟩, by decide, by decide⟩
  obtain ⟨-, haccepted, -⟩ := writeToFd_agrees_with_get hvalid (by decide)
  exact ⟨b, by decide, haccepted 2 (by decide) (by decide)⟩

end CircularBuffer

end Mutiplex
