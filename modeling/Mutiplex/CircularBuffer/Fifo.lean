/-
# The buffer as a byte queue

The queue the buffer stands for takes bytes in at one end and gives them out at
the other, through `get` or through the kernel.  A `Session` is a buffer with
the record of what went in and what came out since it was last cleared; its law
is that the record and the contents agree.  The law survives every operation
except the `put`s that `losesPut` singles out, and those always break it.
-/

import Mutiplex.CircularBuffer.Spec

namespace Mutiplex

open CMemory Transition

namespace CircularBuffer

/-- The calls a user of the buffer makes; `n` is the kernel's answer. -/
inductive Op
  | put (buffer : List UInt8)
  | get (length : UInt32)
  | clear
  | writeToFd (n : ℤ)
  deriving DecidableEq, Repr

/-- A buffer and what passed through it since the last `clear`. -/
structure Session where
  buffer : CircularBuffer
  received : List UInt8
  delivered : List Cell
  deriving DecidableEq, Repr

namespace Session

/-- A session starts with a new buffer. -/
def new (capacity : UInt32) : Session := ⟨.new capacity, [], []⟩

/-- Perform one call and record the bytes it moved. -/
def call (s : Session) : Op → Except Fault Session
  | .put buffer => do
      let b ← s.buffer.put buffer
      return { s with buffer := b, received := s.received ++ buffer }
  | .get length => do
      let (bytes, b) ← s.buffer.get length
      return { s with buffer := b, delivered := s.delivered ++ bytes }
  | .clear => return ⟨s.buffer.clear, [], []⟩
  | .writeToFd n => do
      let written ← s.buffer.writeToFd n
      return { s with
        buffer := written.buffer
        delivered := s.delivered ++ written.taken }

/-- Sessions as a machine. -/
def machine : Machine Session Op Fault where
  Init s := ∃ capacity, s = new capacity
  step s op := Outcome.ofExcept (s.call op)

/-- The environment: no `put` takes the backlog above 2^31 bytes, and the
kernel does not take more than it is offered. -/
def Admissible (s : Session) : Op → Prop
  | .put buffer => s.buffer.bufferLen.toNat + buffer.length ≤ 2 ^ 31
  | .writeToFd n => n ≤ s.buffer.bufferLen.toNat
  | _ => True

instance (s : Session) (op : Op) : Decidable (s.Admissible op) := by
  cases op <;> unfold Admissible <;> infer_instance

/-- The calls that lose bytes. -/
def Loses (s : Session) : Op → Prop
  | .put buffer => s.buffer.losesPut buffer = true
  | _ => False

instance (s : Session) (op : Op) : Decidable (s.Loses op) := by
  cases op <;> unfold Loses <;> infer_instance

/-- First in, first out: what came out, followed by what is still inside, is
what went in. -/
def Law (s : Session) : Prop :=
  s.delivered ++ s.buffer.contents = s.received.map some

instance (s : Session) : Decidable s.Law := inferInstanceAs (Decidable (_ = _))

variable {s s' : Session}

theorem step_eq_next {op : Op} : machine.step s op = .next s' ↔ s.call op = .ok s' :=
  Outcome.ofExcept_eq_next

theorem reach_new (ok : Session → Op → Prop) (capacity : UInt32) :
    machine.Reach ok (new capacity) :=
  .init ⟨capacity, rfl⟩

theorem law_new (capacity : UInt32) : (new capacity).Law := by
  simp [Law, new, contents_new]

/-- Taking bytes out at the front moves them from the contents to the record. -/
theorem law_take (k : ℕ) (hlaw : s.Law) :
    (s.delivered ++ s.buffer.contents.take k) ++ s.buffer.contents.drop k =
      s.received.map some := by
  rw [List.append_assoc, List.take_append_drop]
  exact hlaw

/-- One admissible call on a valid buffer: unless it is a `write_to_fd` on an
empty buffer it succeeds, keeps the buffer valid, and keeps the law exactly if
it is not one of the calls that lose bytes. -/
theorem call_spec (hvalid : s.buffer.Valid) (hlaw : s.Law) {op : Op}
    (hadm : s.Admissible op) :
    (s.buffer.empty = true ∧ (∃ n, op = .writeToFd n) ∧ s.call op = .error .assertion) ∨
      ∃ s', s.call op = .ok s' ∧ s'.buffer.Valid ∧ (s'.Law ↔ ¬ s.Loses op) := by
  cases op with
  | put buffer =>
      obtain ⟨b', hput, hvalid', -, hcontents⟩ := put_spec hvalid hadm
      refine Or.inr ⟨_, by simp only [call, hput]; rfl, hvalid', ?_⟩
      simp only [Law, Loses, hcontents, List.map_append]
      rw [← List.append_assoc, show s.delivered ++ s.buffer.contents = _ from hlaw,
        List.append_cancel_left_eq, appended]
      by_cases hloses : s.buffer.losesPut buffer = true
      · have hne : buffer ≠ [] := by
          rintro rfl
          simp [losesPut] at hloses
        obtain ⟨byte, rest, rfl⟩ := List.exists_cons_of_ne_nil hne
        simp [hloses, List.replicate_succ]
      · simp [hloses]
  | get length =>
      refine Or.inr ⟨_, by simp only [call, get_eq hvalid]; rfl, ?_, ?_⟩
      · exact hvalid.advance (by omega)
      · refine iff_of_true ?_ id
        rw [Law, contents_advance_min hvalid]
        exact law_take _ hlaw
  | clear =>
      refine Or.inr ⟨_, rfl, hvalid.clear, iff_of_true ?_ id⟩
      simp [Law, contents_clear]
  | writeToFd n =>
      by_cases hempty : s.buffer.empty = true
      · refine Or.inl ⟨hempty, ⟨n, rfl⟩, ?_⟩
        simp only [call, writeToFd_of_empty hempty]
        rfl
      · rw [Bool.not_eq_true] at hempty
        refine Or.inr ?_
        rcases Int.lt_or_le n 0 with hneg | hnonneg
        · refine ⟨s, ?_, hvalid, iff_of_true hlaw id⟩
          simp only [call, writeToFd_eq_of_neg hvalid hempty hneg, bind, Except.bind,
            List.append_nil]
          rfl
        · have hn : n.toNat ≤ s.buffer.bufferLen.toNat := by
            have : n ≤ s.buffer.bufferLen.toNat := hadm
            omega
          refine ⟨_, by simp only [call, writeToFd_eq_of_nonneg hvalid hempty hnonneg]; rfl,
            hvalid.advance hn, iff_of_true ?_ id⟩
          rw [Law, contents_advance hvalid hn]
          exact law_take _ hlaw

/-- Along admissible calls that lose nothing the buffer stays valid and the law
holds. -/
theorem reach_law
    (h : machine.Reach (fun s op => s.Admissible op ∧ ¬ s.Loses op) s) :
    s.buffer.Valid ∧ s.Law := by
  refine h.invariant (fun s => s.buffer.Valid ∧ s.Law) ?_ ?_
  · rintro _ ⟨capacity, rfl⟩
    exact ⟨valid_new capacity, law_new capacity⟩
  · rintro source op target - ⟨hvalid, hlaw⟩ ⟨hadm, hkeeps⟩ hstep
    rw [step_eq_next] at hstep
    rcases call_spec hvalid hlaw hadm with ⟨-, -, hfault⟩ | ⟨s', hcall, hvalid', hiff⟩
    · rw [hfault] at hstep
      cases hstep
    · rw [hcall] at hstep
      cases hstep
      exact ⟨hvalid', hiff.mpr hkeeps⟩

/-- **The buffer is a byte queue exactly as long as no `put` loses its bytes.**
For every initial capacity and every run of admissible calls of which none is a
growth of a full buffer starting at the beginning of its block, the law holds;
any next admissible call succeeds, but for a `write_to_fd` on an empty buffer,
and keeps the law if and only if it is not such a growth. -/
theorem fifo_iff_no_lost_put (s : Session)
    (h : machine.Reach (fun s op => s.Admissible op ∧ ¬ s.Loses op) s) :
    s.Law ∧ ∀ op, s.Admissible op →
      (s.buffer.empty = true ∧ ∃ n, op = .writeToFd n) ∨
        ∃ s', machine.step s op = .next s' ∧ (s'.Law ↔ ¬ s.Loses op) := by
  obtain ⟨hvalid, hlaw⟩ := reach_law h
  refine ⟨hlaw, fun op hadm => ?_⟩
  rcases call_spec hvalid hlaw hadm with ⟨hempty, hop, -⟩ | ⟨s', hcall, -, hiff⟩
  · exact Or.inl ⟨hempty, hop⟩
  · exact Or.inr ⟨s', step_eq_next.mpr hcall, hiff⟩

/-- A run of every kind of call through a growth that keeps its bytes. -/
theorem fifo_iff_no_lost_put_of_growth :
    ∃ s, machine.Reach (fun s op => s.Admissible op ∧ ¬ s.Loses op) s ∧
      s.buffer.capacity = 4 ∧ s.received = [1, 2, 3, 4] ∧ s.delivered = [some 1, some 2] ∧
      s.Law := by
  let s : Session :=
    { buffer :=
        { data := [some 2, some 3, some 4, none], capacity := 4, in_ := 3, out_ := 1 }
      received := [1, 2, 3, 4]
      delivered := [some 1, some 2] }
  have hreach : machine.Reach (fun s op => s.Admissible op ∧ ¬ s.Loses op) s :=
    (reach_new _ 2).runWithin
      [.put [9], .clear, .put [1, 2], .get 1, .put [3, 4], .writeToFd 1] rfl
  exact ⟨s, hreach, rfl, rfl, rfl, (fifo_iff_no_lost_put s hreach).1⟩

/-- The buffer is not a byte queue: created for a first write of two bytes and
filled by it, it counts the byte of a second write without storing it. -/
theorem not_fifo : ¬ ∀ s, machine.Reach Admissible s → s.Law := by
  intro hfifo
  let s : Session :=
    { buffer := { data := [some 1, some 2, none, none], capacity := 4, in_ := 3, out_ := 0 }
      received := [1, 2, 3]
      delivered := [] }
  have hreach : machine.Reach Admissible s :=
    (reach_new _ 2).runWithin [.put [1, 2], .put [3]] rfl
  exact absurd (hfifo s hreach) (by decide)

end Session

end CircularBuffer

end Mutiplex
