/-
# What the assertions of a byte buffer protect

`skip` asserts that it does not pass the limit, and nothing about the other
direction: a negative number takes the position in front of the mark or of the
data, where the next `put` writes over the capacity.  `put` and `get` let
negative lengths through to `memcpy` as well.  Every other call keeps what the
class relies on by its assertion alone.
-/

import Mathlib
import Mutiplex.ByteBuffer.Spec

namespace Mutiplex

open CMemory Transition

namespace ByteBuffer

/-- What the class promises: ordered cursors, and the capacity it was made with. -/
structure Protected (b : ByteBuffer) (capacity : ℤ) : Prop where
  position_nonneg : 0 ≤ b.position
  position_le : b.position ≤ b.limit
  limit_le : b.limit ≤ b.capacity
  mark : b.mark = -1 ∨ 0 ≤ b.mark ∧ b.mark ≤ b.position
  capacity_eq : b.capacity = capacity

/-- The call passes its assertion, its argument is an `int`, and the source of a
`put` has as many bytes as it is said to. -/
def Passes (b : ByteBuffer) : BufferOp → Prop
  | .position p => p ≤ b.limit ∧ 0 ≤ p
  | .limit l => l ≤ b.capacity ∧ 0 ≤ l
  | .reset => 0 ≤ b.mark
  | .put source len => len ≤ b.remaining ∧ len ≤ source.length
  | .skip n => n ≤ b.remaining ∧ -2 ^ 31 ≤ n
  | .get _ | .mark | .clear | .flip | .rewind => True

instance (b : ByteBuffer) : DecidablePred b.Passes
  | .position p => inferInstanceAs (Decidable (p ≤ b.limit ∧ 0 ≤ p))
  | .limit l => inferInstanceAs (Decidable (l ≤ b.capacity ∧ 0 ≤ l))
  | .reset => inferInstanceAs (Decidable (0 ≤ b.mark))
  | .put source len => inferInstanceAs (Decidable (len ≤ b.remaining ∧ len ≤ source.length))
  | .skip n => inferInstanceAs (Decidable (n ≤ b.remaining ∧ -2 ^ 31 ≤ n))
  | .get _ | .mark | .clear | .flip | .rewind => instDecidableTrue

/-- Buffers of one capacity, an `int`, as a machine. -/
def machine (capacity : ℤ) : Machine ByteBuffer BufferOp Fault where
  Init b := capacity < 2 ^ 31 ∧ new capacity = .ok b
  step b op := Outcome.ofExcept (b.operate op)

variable {b b' : ByteBuffer} {capacity : ℤ}

theorem step_eq_next {op : BufferOp} :
    (machine capacity).step b op = .next b' ↔ b.operate op = .ok b' :=
  Outcome.ofExcept_eq_next

theorem Valid.protects (h : b.Valid capacity) : b.Protected capacity where
  position_nonneg := h.position_nonneg
  position_le := h.position_le
  limit_le := h.capacity_eq.symm ▸ h.limit_le
  mark := h.mark
  capacity_eq := h.capacity_eq

/-- A call that passes its assertion returns, unless it runs backwards. -/
theorem Valid.operate_returns (h : b.Valid capacity) {op : BufferOp} (hpasses : b.Passes op)
    (hforward : b.Forward op) : ∃ b', b.operate op = .ok b' := by
  cases op with
  | position p => exact ⟨_, setPosition_eq hpasses.1 hpasses.2⟩
  | limit l => exact ⟨_, setLimit_eq hpasses.1 hpasses.2⟩
  | mark => exact ⟨_, rfl⟩
  | reset => exact ⟨_, reset_eq hpasses⟩
  | clear => exact ⟨_, rfl⟩
  | flip => exact ⟨_, rfl⟩
  | rewind => exact ⟨_, rfl⟩
  | put source len => exact ⟨_, h.put_eq hforward hpasses.1 hpasses.2⟩
  | get len => exact ⟨_, bind_eq_ok.mpr ⟨_, h.get_eq hforward, rfl⟩⟩
  | skip n => exact ⟨_, skip_eq hpasses.1⟩

/-- A call that runs backwards does not return, or breaks the promise. -/
theorem Valid.forward_of_protected (h : b.Valid capacity) {op : BufferOp} (hpasses : b.Passes op)
    (hcall : b.operate op = .ok b') (hprotected : b'.Protected capacity) : b.Forward op := by
  cases op with
  | put source len =>
      obtain ⟨-, hrest⟩ := assert_bind_eq_ok.mp hcall
      by_contra hneg
      rw [if_pos (not_le.mp hneg)] at hrest
      cases hrest
  | get len =>
      obtain ⟨_, hget, -⟩ := bind_eq_ok.mp hcall
      obtain ⟨_, hload, -⟩ := bind_eq_ok.mp hget
      by_contra hneg
      have hmin : min len b.remaining < 0 := lt_of_le_of_lt (min_le_left _ _) (not_le.mp hneg)
      rw [load, if_pos (Or.inr hmin)] at hload
      cases hload
  | skip n =>
      obtain ⟨-, hresult⟩ := assert_bind_eq_ok.mp hcall
      cases hresult
      have hpos := h.position_nonneg
      have hle := h.position_le
      have hlimit := h.limit_le
      have hlt := h.block.lt
      obtain ⟨hroom, hint⟩ := hpasses
      rw [h.remaining_eq] at hroom
      have hwrap : wrapInt (b.position + n) = b.position + n :=
        wrapInt_of_bounds (by omega) (by omega)
      have hlow : 0 ≤ wrapInt (b.position + n) := hprotected.position_nonneg
      have hmark : b.mark = -1 ∨ 0 ≤ b.mark ∧ b.mark ≤ wrapInt (b.position + n) :=
        hprotected.mark
      rw [hwrap] at hlow hmark
      refine ⟨hlow, ?_⟩
      omega
  | _ => trivial

theorem reach_valid (h : (machine capacity).Reach Forward b) : b.Valid capacity := by
  refine h.invariant (fun b => b.Valid capacity) ?_ ?_
  · rintro start ⟨hlt, hnew⟩
    exact new_spec hlt hnew
  · intro source op target _ hvalid hop hstep
    exact hvalid.operate hop (step_eq_next.mp hstep)

/-- **The assertions protect the cursors and the header exactly as long as nothing
runs backwards.**  In every run in which `put` and `get` are handed no negative
length and `skip` does not go in front of the mark or of the data, the promise
holds; and a next call that passes its assertion returns and keeps it, if and
only if it is such a call. -/
theorem protected_iff_forward (h : (machine capacity).Reach Forward b) :
    b.Protected capacity ∧ ∀ op, b.Passes op →
      ((∃ b', (machine capacity).step b op = .next b' ∧ b'.Protected capacity) ↔
        b.Forward op) := by
  have hvalid := reach_valid h
  refine ⟨hvalid.protects, fun op hpasses => ⟨?_, ?_⟩⟩
  · rintro ⟨b', hstep, hprotected⟩
    exact hvalid.forward_of_protected hpasses (step_eq_next.mp hstep) hprotected
  · intro hforward
    obtain ⟨b', hcall⟩ := hvalid.operate_returns hpasses hforward
    exact ⟨b', step_eq_next.mpr hcall, (hvalid.operate hforward hcall).protects⟩

/-- A new buffer for four bytes. -/
theorem reach_four (ok : ByteBuffer → BufferOp → Prop) :
    (machine 4).Reach ok
      ⟨4, -1, 0, [some 0, some 0, some 0, some 4, none, none, none, none]⟩ :=
  .init ⟨by norm_num, by decide +kernel⟩

/-- A byte is put in behind a mark, skipped back over, and read. -/
theorem protected_iff_forward_of_skip_back :
    ∃ b, (machine 4).Reach Forward b ∧ b.Protected 4 ∧ b.mark = 1 ∧ b.position = 2 := by
  obtain ⟨b, hreach, hmark, hposition⟩ := (reach_four Forward).exists_of_leads
    [.position 1, .mark, .put [7] 1, .skip (-1), .get 1]
    (P := fun b => b.mark = 1 ∧ b.position = 2) (by decide +kernel)
  exact ⟨b, hreach, (protected_iff_forward hreach).1, hmark, hposition⟩

/-- The assertions alone do not protect the header: skipped back to the start of
the block, a buffer for four bytes has 9 written over its capacity. -/
theorem not_protected_by_assertions :
    ¬ ∀ capacity b, (machine capacity).Reach Passes b → b.Protected capacity := by
  intro hprotected
  obtain ⟨b, hreach, hcapacity⟩ := (reach_four Passes).exists_of_leads
    [.skip (-4), .put [0, 0, 0, 9] 4] (P := fun b => b.capacity = 9) (by decide +kernel)
  exact absurd (hcapacity.symm.trans (hprotected 4 b hreach).capacity_eq) (by decide)

end ByteBuffer

end Mutiplex
