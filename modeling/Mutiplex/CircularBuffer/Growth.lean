/-
# Capacities and growth

The capacity is the least power of two that covers what was asked for, up to
2^31.  A `put` that does not fit rounds the sum of its length and the old
capacity up, not of its length and the backlog; that this sum can wrap at 2^32
and that the rounding stops at 2^31 does no harm exactly as long as the backlog
stays within 2^31 bytes.  Each growth then at least doubles the capacity, and
leaves it below four times the largest backlog.
-/

import Mathlib
import Mutiplex.CircularBuffer.Fifo

namespace Mutiplex

open CMemory Transition

/-! ## Rounding -/

/-- A power of two whose half does not cover `n` is the least one that does. -/
theorem isLeast_two_pow {n k : ℕ} (hcover : n ≤ 2 ^ k) (hleast : k = 0 ∨ 2 ^ (k - 1) < n) :
    IsLeast {p : ℕ | p.isPowerOfTwo ∧ n ≤ p} (2 ^ k) := by
  refine ⟨⟨⟨k, rfl⟩, hcover⟩, ?_⟩
  rintro _ ⟨⟨j, rfl⟩, hj⟩
  apply Nat.pow_le_pow_right (by decide)
  by_contra hlt
  have hhalf : 2 ^ j ≤ 2 ^ (k - 1) := Nat.pow_le_pow_right (by decide) (by omega)
  omega

theorem roundupPowOfTwo_isLeast {v : UInt32} (hv : v.toNat ≤ 2 ^ 31) :
    IsLeast {p : ℕ | p.isPowerOfTwo ∧ max v.toNat 2 ≤ p} (roundupPowOfTwo v).toNat := by
  obtain ⟨k, hpos, -, hvalue, hcover, hleast⟩ := roundupPowOfTwo_spec v
  have htwo : 2 ^ 1 ≤ 2 ^ k := Nat.pow_le_pow_right (by decide) hpos
  have hv' : v.toNat ≤ 2 ^ k := by
    rcases hcover with hcover | rfl
    · exact hcover
    · exact hv
  rw [hvalue]
  apply isLeast_two_pow
  · omega
  · right
    rcases Nat.lt_or_ge 1 k with hk | hk
    · have := hleast hk
      omega
    · have : k - 1 = 0 := by omega
      rw [this]
      omega

theorem roundupPowOfTwo_of_gt {v : UInt32} (hv : 2 ^ 31 < v.toNat) :
    (roundupPowOfTwo v).toNat = 2 ^ 31 := by
  obtain ⟨k, -, hk, hvalue, hcover, -⟩ := roundupPowOfTwo_spec v
  have hpow : 2 ^ k ≤ 2 ^ 31 := Nat.pow_le_pow_right (by decide) hk
  rcases hcover with hcover | rfl
  · omega
  · exact hvalue

namespace CircularBuffer

variable {b : CircularBuffer}

/-- The clamp of the constructor. -/
theorem toNat_clamp (capacity : UInt32) :
    (if capacity > 0x80000000 then 0x80000000 else capacity).toNat =
      min capacity.toNat (2 ^ 31) := by
  have hlimit : (0x80000000 : UInt32).toNat = 2 ^ 31 := rfl
  split
  · rename_i hgt
    rw [gt_iff_lt, UInt32.lt_iff_toNat_lt] at hgt
    omega
  · rename_i hle
    rw [gt_iff_lt, UInt32.lt_iff_toNat_lt] at hle
    omega

theorem initialCapacity_isLeast {capacity : UInt32} (hne : capacity ≠ 0) :
    IsLeast {p : ℕ | p.isPowerOfTwo ∧ min capacity.toNat (2 ^ 31) ≤ p}
      (initialCapacity capacity).toNat := by
  have hpos : 0 < capacity.toNat := by
    rw [Nat.pos_iff_ne_zero]
    exact fun hzero => hne (UInt32.toNat_inj.mp hzero)
  have hclamp := toNat_clamp capacity
  unfold initialCapacity
  generalize (if capacity > 0x80000000 then 0x80000000 else capacity) = cap at hclamp ⊢
  rw [← hclamp]
  by_cases hpow : isPowOfTwo cap = true
  · rw [if_pos hpow]
    exact ⟨⟨(isPowOfTwo_iff cap).mp hpow, le_rfl⟩, fun p hp => hp.2⟩
  · have htwo : 2 ≤ cap.toNat := by
      by_contra hlt
      have hone : cap.toNat = 2 ^ 0 := by omega
      exact hpow ((isPowOfTwo_iff cap).mpr ⟨0, hone⟩)
    have hleast := roundupPowOfTwo_isLeast (v := cap) (by omega)
    rw [max_eq_left htwo] at hleast
    rw [if_neg hpow]
    exact hleast

/-- **Capacities are rounded up to powers of two.**  `roundup_pow_of_two` returns
the least power of two from 2 on that covers its argument, and 2^31 beyond that;
`is_pow_of_two` decides the powers of two; and the constructor settles on the
least power of two that covers the smaller of its argument and 2^31, or on 2 for
no bytes at all, so that masking with one less is reduction modulo the capacity. -/
theorem capacity_rounding :
    (∀ v : UInt32, v.toNat ≤ 2 ^ 31 →
        IsLeast {p : ℕ | p.isPowerOfTwo ∧ max v.toNat 2 ≤ p} (roundupPowOfTwo v).toNat) ∧
      (∀ v : UInt32, 2 ^ 31 < v.toNat → (roundupPowOfTwo v).toNat = 2 ^ 31) ∧
      (∀ v : UInt32, isPowOfTwo v = true ↔ v.toNat.isPowerOfTwo) ∧
      (new 0).capacity = 2 ∧
      (∀ capacity : UInt32, capacity ≠ 0 →
        IsLeast {p : ℕ | p.isPowerOfTwo ∧ min capacity.toNat (2 ^ 31) ≤ p}
          (new capacity).capacity.toNat) ∧
      ∀ capacity v : UInt32,
        (v &&& ((new capacity).capacity - 1)).toNat = v.toNat % (new capacity).capacity.toNat := by
  refine ⟨?_, ?_, isPowOfTwo_iff, by decide, ?_, ?_⟩
  · intro v hv
    exact roundupPowOfTwo_isLeast hv
  · intro v hv
    exact roundupPowOfTwo_of_gt hv
  · intro capacity hne
    exact initialCapacity_isLeast hne
  · intro capacity v
    exact (valid_new capacity).toNat_and_mask v

/-- The capacity of 30 in the tests. -/
theorem capacity_rounding_of_thirty :
    IsLeast {p : ℕ | p.isPowerOfTwo ∧ min 30 (2 ^ 31) ≤ p} (new 30).capacity.toNat :=
  capacity_rounding.2.2.2.2.1 30 (by decide)

/-! ## The limit of growth -/

/-- **A growth works exactly up to 2^31 bytes.**  A `put`, and so one of more bytes
than there is room for, stays inside the block it allocates, keeps the invariant,
adds its length to the backlog and keeps the old bytes in front, if and only if
the backlog and the new bytes together are at most 2^31. -/
theorem growth_works_iff (h : b.Valid) (buffer : List UInt8) :
    (∃ b', b.put buffer = .ok b' ∧ b'.Valid ∧
        b'.bufferLen.toNat = b.bufferLen.toNat + buffer.length ∧ b.contents <+: b'.contents) ↔
      b.bufferLen.toNat + buffer.length ≤ 2 ^ 31 := by
  constructor
  · rintro ⟨b', -, hvalid, hlen, -⟩
    calc
      b.bufferLen.toNat + buffer.length = b'.bufferLen.toNat := hlen.symm
      _ ≤ b'.capacity.toNat := hvalid.fits
      _ ≤ 2 ^ 31 := hvalid.capacity_le
  · intro hlimit
    obtain ⟨b', hput, hvalid, hlen, hcontents⟩ := put_spec h hlimit
    exact ⟨b', hput, hvalid, hlen, hcontents ▸ List.prefix_append _ _⟩

/-- Three bytes for a buffer of two with one in it. -/
theorem growth_works_iff_of_three :
    ∃ b' : CircularBuffer,
      CircularBuffer.put ⟨[some 1, none], 2, 1, 0⟩ [2, 3, 4] = .ok b' ∧ b'.Valid ∧
        b'.bufferLen.toNat = 4 := by
  let b : CircularBuffer := ⟨[some 1, none], 2, 1, 0⟩
  have hvalid : b.Valid := ⟨⟨1, by decide, by decide⟩, by decide, by decide⟩
  obtain ⟨b', hput, hvalid', hlen, -⟩ := (growth_works_iff hvalid [2, 3, 4]).mpr (by decide)
  have hfour : b.bufferLen.toNat + [2, 3, 4].length = 4 := by decide
  exact ⟨b', hput, hvalid', hlen.trans hfour⟩

/-! ## The policy over whole runs -/

/-- The buffer after a call. -/
def call (b : CircularBuffer) : Op → Except Fault CircularBuffer
  | .put buffer => b.put buffer
  | .get length => do return (← b.get length).2
  | .clear => return b.clear
  | .writeToFd n => do return (← b.writeToFd n).buffer

/-- The calls that allocate a new block. -/
def grows (b : CircularBuffer) : Op → Bool
  | .put buffer => b.bufferRemaining < UInt32.ofNat buffer.length
  | _ => false

/-- No `put` takes the backlog above 2^31 bytes, and the kernel does not take more
than it is offered. -/
def Within (b : CircularBuffer) : Op → Prop
  | .put buffer => b.bufferLen.toNat + buffer.length ≤ 2 ^ 31
  | .writeToFd n => n ≤ b.bufferLen.toNat
  | .get _ | .clear => True

instance (b : CircularBuffer) : DecidablePred b.Within
  | .put buffer => inferInstanceAs (Decidable (b.bufferLen.toNat + buffer.length ≤ 2 ^ 31))
  | .writeToFd n => inferInstanceAs (Decidable (n ≤ b.bufferLen.toNat))
  | .get _ | .clear => instDecidableTrue

/-- A growth rounds the sum of the length and the old capacity up. -/
theorem capacity_of_put {b' : CircularBuffer} {buffer : List UInt8}
    (hput : b.put buffer = .ok b') :
    b'.capacity =
      if b.bufferRemaining < UInt32.ofNat buffer.length then
        roundupPowOfTwo (UInt32.ofNat buffer.length + b.capacity)
      else b.capacity := by
  unfold put at hput
  simp only at hput
  split at hput
  · rw [if_pos ‹_›]
    exact (resize_eq_ok hput).1
  · rw [if_neg ‹_›]
    simp only [bind_eq_ok] at hput
    obtain ⟨front, -, data, -, hresult⟩ := hput
    cases hresult
    rfl

/-- A growth at least doubles the capacity, and gives less than four times the
backlog it makes room for. -/
theorem capacity_of_growth (h : b.Valid) {buffer : List UInt8}
    (hover : b.capacity.toNat < b.bufferLen.toNat + buffer.length)
    (hlimit : b.bufferLen.toNat + buffer.length ≤ 2 ^ 31) :
    2 * b.capacity.toNat ≤
        (roundupPowOfTwo (UInt32.ofNat buffer.length + b.capacity)).toNat ∧
      (roundupPowOfTwo (UInt32.ofNat buffer.length + b.capacity)).toNat <
        4 * (b.bufferLen.toNat + buffer.length) := by
  have hfits := h.fits
  obtain ⟨m, -, hcap⟩ := h.pow
  have hm : m < 31 := by
    rw [← Nat.pow_lt_pow_iff_right (by decide : 1 < 2), ← hcap]
    omega
  have hsum : (UInt32.ofNat buffer.length + b.capacity).toNat =
      buffer.length + b.capacity.toNat := by
    have hhalf : 2 ^ m ≤ 2 ^ 30 := Nat.pow_le_pow_right (by decide) (by omega)
    rw [UInt32.toNat_add, toNat_ofNat_length (by omega)]
    omega
  obtain ⟨k, hpos, hk, hvalue, hcover, hleast⟩ :=
    roundupPowOfTwo_spec (UInt32.ofNat buffer.length + b.capacity)
  rw [hsum] at hcover hleast
  rw [hvalue]
  constructor
  · -- The new exponent is above the old one, also where the rounding stops.
    have hmk : m + 1 ≤ k := by
      rcases hcover with hcover | rfl
      · have : 2 ^ m < 2 ^ k := by omega
        rwa [Nat.pow_lt_pow_iff_right (by decide)] at this
      · omega
    calc
      2 * b.capacity.toNat = 2 ^ (m + 1) := by rw [hcap, Nat.pow_succ, Nat.mul_comm]
      _ ≤ 2 ^ k := Nat.pow_le_pow_right (by decide) hmk
  · rcases Nat.lt_or_ge 1 k with hbig | hsmall
    · have hhalf := hleast hbig
      calc
        2 ^ k = 2 * 2 ^ (k - 1) := by
          rw [← Nat.pow_succ', Nat.succ_eq_add_one, Nat.sub_add_cancel hpos]
        _ < 2 * (buffer.length + b.capacity.toNat) := by omega
        _ < 4 * (b.bufferLen.toNat + buffer.length) := by omega
    · have : k = 1 := by omega
      subst this
      omega

/-- A buffer with the capacity it was constructed with, the number of its growths
and the largest backlog so far. -/
structure Gauge where
  buffer : CircularBuffer
  constructed : UInt32
  growths : ℕ
  peak : ℕ
  deriving DecidableEq, Repr

namespace Gauge

/-- A constructed buffer. -/
def new (capacity : UInt32) : Gauge where
  buffer := .new capacity
  constructed := (CircularBuffer.new capacity).capacity
  growths := 0
  peak := 0

/-- Perform one call and read the gauge. -/
def call (g : Gauge) (op : Op) : Except Fault Gauge := do
  let buffer ← g.buffer.call op
  return { g with
    buffer := buffer
    growths := if g.buffer.grows op then g.growths + 1 else g.growths
    peak := max g.peak buffer.bufferLen.toNat }

/-- Gauged buffers as a machine. -/
def machine : Machine Gauge Op Fault where
  Init g := ∃ capacity, g = new capacity
  step g op := Outcome.ofExcept (g.call op)

variable {g g' : Gauge}

theorem step_eq_next {op : Op} : machine.step g op = .next g' ↔ g.call op = .ok g' :=
  Outcome.ofExcept_eq_next

end Gauge

/-- What a call does to the capacity of a valid buffer. -/
theorem call_spec {b' : CircularBuffer} {op : Op} (h : b.Valid) (hop : b.Within op)
    (hcall : b.call op = .ok b') :
    b'.Valid ∧
      if b.grows op then
        2 * b.capacity.toNat ≤ b'.capacity.toNat ∧
          b'.capacity.toNat < 4 * b'.bufferLen.toNat
      else b'.capacity = b.capacity := by
  cases op with
  | put buffer =>
      have hlength : (UInt32.ofNat buffer.length).toNat = buffer.length := by
        have : b.bufferLen.toNat + buffer.length ≤ 2 ^ 31 := hop
        exact toNat_ofNat_length (by omega)
      obtain ⟨b₁, hput, hvalid, hlen, -⟩ := put_spec h hop
      have hsame : b₁ = b' := Except.ok.inj (hput.symm.trans hcall)
      subst hsame
      refine ⟨hvalid, ?_⟩
      have hcapacity := capacity_of_put hput
      simp only [grows, decide_eq_true_eq]
      by_cases hroom : b.bufferRemaining < UInt32.ofNat buffer.length
      · rw [if_pos hroom] at hcapacity ⊢
        have hover : b.capacity.toNat < b.bufferLen.toNat + buffer.length := by
          rw [UInt32.lt_iff_toNat_lt, h.bufferRemaining_eq, hlength] at hroom
          omega
        rw [hcapacity, hlen]
        exact capacity_of_growth h hover hop
      · rw [if_neg hroom] at hcapacity ⊢
        exact hcapacity
  | get length =>
      simp only [call, get_eq h] at hcall
      cases hcall
      exact ⟨h.advance (min_le_right _ _), rfl⟩
  | clear =>
      cases hcall
      exact ⟨h.clear, rfl⟩
  | writeToFd n =>
      obtain ⟨written, hwrite, hresult⟩ := bind_eq_ok.mp hcall
      cases hresult
      obtain ⟨-, -, hbuffer⟩ := writeToFd_eq_ok hwrite
      rw [hbuffer]
      split
      · exact ⟨h, rfl⟩
      · have hn : n.toNat ≤ b.bufferLen.toNat := by
          have : n ≤ b.bufferLen.toNat := hop
          omega
        exact ⟨h.advance hn, rfl⟩

namespace Gauge

variable {g g' : Gauge}

/-- The invariant: every growth has doubled the capacity, and the last one left
it below four times the largest backlog. -/
structure Kept (g : Gauge) : Prop where
  valid : g.buffer.Valid
  constructed : 0 < g.constructed.toNat
  doubled : g.constructed.toNat * 2 ^ g.growths ≤ g.buffer.capacity.toNat
  policy : g.buffer.capacity.toNat ≤ g.constructed.toNat ∨
    g.buffer.capacity.toNat < 4 * g.peak

theorem kept_new (capacity : UInt32) : (new capacity).Kept where
  valid := valid_new capacity
  constructed := (valid_new capacity).capacity_pos
  doubled := by simp [new]
  policy := Or.inl le_rfl

theorem Kept.call {op : Op} (h : g.Kept) (hop : g.buffer.Within op) (hcall : g.call op = .ok g') :
    g'.Kept := by
  obtain ⟨buffer, hbuffer, hresult⟩ := bind_eq_ok.mp hcall
  cases hresult
  obtain ⟨hvalid, hcapacity⟩ := call_spec h.valid hop hbuffer
  have hdoubled := h.doubled
  have hpolicy := h.policy
  refine ⟨hvalid, h.constructed, ?_, ?_⟩
  · simp only
    split at hcapacity
    · rw [if_pos ‹_›]
      calc
        g.constructed.toNat * 2 ^ (g.growths + 1) =
            2 * (g.constructed.toNat * 2 ^ g.growths) := by ring
        _ ≤ 2 * g.buffer.capacity.toNat := by omega
        _ ≤ buffer.capacity.toNat := hcapacity.1
    · rw [if_neg ‹_›, hcapacity]
      exact hdoubled
  · simp only
    split at hcapacity
    · right
      have := hcapacity.2
      omega
    · rw [hcapacity]
      omega

/-- Capacities are at most 2^31, so there is room for 31 doublings. -/
theorem Kept.growths_le (h : g.Kept) : g.growths ≤ 31 := by
  have hpow : 2 ^ g.growths ≤ 2 ^ 31 := by
    calc
      2 ^ g.growths ≤ g.constructed.toNat * 2 ^ g.growths :=
        Nat.le_mul_of_pos_left _ h.constructed
      _ ≤ g.buffer.capacity.toNat := h.doubled
      _ ≤ 2 ^ 31 := h.valid.capacity_le
  rwa [Nat.pow_le_pow_iff_right (by decide)] at hpow

theorem reach_kept (h : machine.Reach (fun g op => g.buffer.Within op) g) : g.Kept := by
  refine h.invariant Kept ?_ ?_
  · rintro _ ⟨capacity, rfl⟩
    exact kept_new capacity
  · intro source op target _ hkept hop hstep
    exact hkept.call hop (step_eq_next.mp hstep)

/-- **Growth is geometric and never excessive.**  In every run of calls on a buffer
of any initial capacity that keeps the backlog within 2^31 bytes, the capacity is
a power of two, at most the constructed one or less than four times the largest
backlog so far; every growth at least doubles it, and there are at most 31. -/
theorem growth_policy (h : machine.Reach (fun g op => g.buffer.Within op) g) :
    g.buffer.capacity.toNat.isPowerOfTwo ∧
      (g.buffer.capacity.toNat ≤ g.constructed.toNat ∨
        g.buffer.capacity.toNat < 4 * g.peak) ∧
      g.growths ≤ 31 ∧
      ∀ op g', g.buffer.Within op → machine.step g op = .next g' →
        g.buffer.grows op = true → 2 * g.buffer.capacity.toNat ≤ g'.buffer.capacity.toNat := by
  have hkept := reach_kept h
  obtain ⟨k, -, hpow⟩ := hkept.valid.pow
  refine ⟨⟨k, hpow⟩, hkept.policy, hkept.growths_le, ?_⟩
  intro op g' hop hstep hgrows
  obtain ⟨buffer, hbuffer, hresult⟩ := bind_eq_ok.mp (step_eq_next.mp hstep)
  cases hresult
  obtain ⟨-, hcapacity⟩ := call_spec hkept.valid hop hbuffer
  rw [if_pos hgrows] at hcapacity
  exact hcapacity.1

/-- From one byte through two growths, with every kind of call. -/
theorem growth_policy_of_two :
    ∃ g, machine.Reach (fun g op => g.buffer.Within op) g ∧ g.constructed = 1 ∧
      g.growths = 2 ∧ g.buffer.capacity.toNat < 4 * g.peak := by
  have hstart : machine.Reach (fun g op => g.buffer.Within op) (new 1) := .init ⟨1, rfl⟩
  obtain ⟨g, hreach, hone, htwo, hcap⟩ := hstart.exists_of_leads
    [.put [1], .put [2, 3], .get 1, .writeToFd 1, .put [4, 5, 6, 7], .clear]
    (P := fun g => g.constructed = 1 ∧ g.growths = 2 ∧ g.buffer.capacity = 8) (by decide)
  obtain ⟨-, hpolicy, -, -⟩ := growth_policy hreach
  refine ⟨g, hreach, hone, htwo, hpolicy.resolve_left ?_⟩
  rw [hone, hcap]
  decide

end Gauge

end CircularBuffer

end Mutiplex
