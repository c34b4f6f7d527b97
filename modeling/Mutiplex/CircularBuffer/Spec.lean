/-
# What the buffer operations do to the bytes

`Valid` is the invariant of the ring: a power-of-two capacity of at most 2^31, a
block of that size, and a backlog that fits.  Under it every operation is
described by its effect on `contents`, the bytes between `out_` and `in_` in
order.  The only operation whose effect is not that of a queue is the growth of
a full buffer whose data starts at the beginning of the block: the bytes handed
to `put` are counted but not copied.
-/

import Mathlib.Tactic.NormNum
import Mutiplex.CircularBuffer.Basic

namespace Mutiplex

open CMemory CyclicList Transition

@[simp]
theorem toNat_stdMin (a b : UInt32) : (stdMin a b).toNat = min a.toNat b.toNat := by
  unfold stdMin
  split
  · rename_i h
    rw [UInt32.lt_iff_toNat_lt] at h
    omega
  · rename_i h
    rw [UInt32.lt_iff_toNat_lt] at h
    omega

/-! ## Powers of two -/

/-- `is_pow_of_two` decides exactly the powers of two. -/
theorem isPowOfTwo_iff (v : UInt32) : isPowOfTwo v = true ↔ v.toNat.isPowerOfTwo := by
  rw [← Nat.ne_zero_and_sub_one_eq_zero_iff_isPowerOfTwo, isPowOfTwo, Bool.and_eq_true,
    bne_iff_ne, beq_iff_eq, ← UInt32.toNat_inj, ne_eq, ← UInt32.toNat_inj, UInt32.toNat_and,
    UInt32.toNat_zero]
  refine and_congr_right fun hne => ?_
  have hlt := v.toNat_lt
  have hpred : (v - 1).toNat = v.toNat - 1 := by
    rw [UInt32.toNat_sub, UInt32.toNat_one]
    omega
  rw [hpred]

/-- The loop returns the first power of two from its current value on that is
not below `v`, or 2^31. -/
theorem roundupLoop_spec (v : UInt32) : ∀ (n : ℕ) (ret : UInt32), n ≤ 31 →
    ret.toNat = 2 ^ (31 - n) →
    ∃ k, 31 - n ≤ k ∧ k ≤ 31 ∧ (roundupLoop v n ret).toNat = 2 ^ k ∧
      (v.toNat ≤ 2 ^ k ∨ k = 31) ∧ (31 - n < k → 2 ^ (k - 1) < v.toNat) := by
  intro n
  induction n with
  | zero =>
      intro ret _ hret
      exact ⟨31, by omega, le_rfl, hret, Or.inr rfl, by omega⟩
  | succ n ih =>
      intro ret hn hret
      rw [roundupLoop]
      by_cases hge : ret ≥ v
      · rw [if_pos hge]
        have hle : v.toNat ≤ ret.toNat := UInt32.le_iff_toNat_le.mp hge
        exact ⟨31 - (n + 1), le_rfl, by omega, hret, Or.inl (hret ▸ hle), by omega⟩
      · rw [if_neg hge]
        have hlt : ret.toNat < v.toNat := by
          rw [ge_iff_le, UInt32.le_iff_toNat_le] at hge
          omega
        have hpow : 2 ^ (31 - n) ≤ 2 ^ 31 := Nat.pow_le_pow_right (by omega) (by omega)
        have hdouble : 2 ^ (31 - n) = ret.toNat * 2 := by
          rw [hret, ← Nat.pow_succ]
          congr 1
          omega
        have hshift : (ret <<< 1).toNat = 2 ^ (31 - n) := by
          rw [UInt32.toNat_shiftLeft, UInt32.toNat_one, hdouble, Nat.shiftLeft_eq,
            Nat.mod_eq_of_lt (by omega : 1 < 32), Nat.pow_one, Nat.mod_eq_of_lt (by omega)]
        obtain ⟨k, hlow, hhigh, hvalue, hcover, hleast⟩ := ih (ret <<< 1) (by omega) hshift
        refine ⟨k, by omega, hhigh, hvalue, hcover, fun _ => ?_⟩
        rcases Nat.eq_or_lt_of_le hlow with heq | hlt'
        · have : k - 1 = 31 - (n + 1) := by omega
          rw [this, ← hret]
          exact hlt
        · exact hleast hlt'

/-- `roundup_pow_of_two` returns a power of two between 2 and 2^31 that covers
its argument as far as 2^31 does. -/
theorem roundupPowOfTwo_spec (v : UInt32) :
    ∃ k, 1 ≤ k ∧ k ≤ 31 ∧ (roundupPowOfTwo v).toNat = 2 ^ k ∧
      (v.toNat ≤ 2 ^ k ∨ k = 31) ∧ (1 < k → 2 ^ (k - 1) < v.toNat) := by
  unfold roundupPowOfTwo
  by_cases hsmall : v < 2
  · rw [if_pos hsmall]
    rw [UInt32.lt_iff_toNat_lt] at hsmall
    refine ⟨1, le_rfl, by omega, rfl, Or.inl ?_, by omega⟩
    have : (2 : UInt32).toNat = 2 := rfl
    omega
  · rw [if_neg hsmall]
    rw [UInt32.lt_iff_toNat_lt] at hsmall
    have htwo : (2 : UInt32).toNat = 2 := rfl
    obtain ⟨k, -, hk, hvalue, hcover, hleast⟩ := roundupLoop_spec v 31 1 le_rfl rfl
    refine ⟨k, ?_, hk, hvalue, hcover, fun h => hleast (by omega)⟩
    rcases hcover with h | h
    · rcases Nat.eq_zero_or_pos k with rfl | hpos
      · omega
      · exact hpos
    · omega

namespace CircularBuffer

/-! ## The invariant -/

/-- The invariant of the ring. -/
structure Valid (b : CircularBuffer) : Prop where
  pow : ∃ k, k ≤ 31 ∧ b.capacity.toNat = 2 ^ k
  block : b.data.length = b.capacity.toNat
  fits : b.bufferLen.toNat ≤ b.capacity.toNat

/-- The bytes between `out_` and `in_`, oldest first. -/
def contents (b : CircularBuffer) : List Cell :=
  window b.data b.outIndex.toNat b.bufferLen.toNat

variable {b : CircularBuffer}

namespace Valid

theorem capacity_le (h : b.Valid) : b.capacity.toNat ≤ 2 ^ 31 := by
  obtain ⟨k, hk, hcap⟩ := h.pow
  exact hcap ▸ Nat.pow_le_pow_right (by omega) hk

theorem capacity_pos (h : b.Valid) : 0 < b.capacity.toNat := by
  obtain ⟨k, -, hcap⟩ := h.pow
  exact hcap ▸ Nat.two_pow_pos k

theorem capacity_dvd (h : b.Valid) : b.capacity.toNat ∣ 2 ^ 32 := by
  obtain ⟨k, hk, hcap⟩ := h.pow
  exact hcap ▸ Nat.pow_dvd_pow 2 (by omega)

/-- Masking with `capacity_ - 1` is reduction modulo the capacity. -/
theorem toNat_and_mask (h : b.Valid) (v : UInt32) :
    (v &&& (b.capacity - 1)).toNat = v.toNat % b.capacity.toNat := by
  have hpred : (b.capacity - 1).toNat = b.capacity.toNat - 1 := by
    have := h.capacity_pos
    have := b.capacity.toNat_lt
    rw [UInt32.toNat_sub, UInt32.toNat_one]
    omega
  obtain ⟨k, -, hcap⟩ := h.pow
  rw [UInt32.toNat_and, hpred, hcap, Nat.and_two_pow_sub_one_eq_mod]

theorem outIndex_eq (h : b.Valid) :
    b.outIndex.toNat = b.out_.toNat % b.capacity.toNat :=
  h.toNat_and_mask _

theorem outIndex_lt (h : b.Valid) : b.outIndex.toNat < b.capacity.toNat :=
  h.outIndex_eq ▸ Nat.mod_lt _ h.capacity_pos

/-- The write position is the read position plus the backlog, on the ring. -/
theorem inIndex_eq (h : b.Valid) :
    b.inIndex.toNat =
      (b.outIndex.toNat + b.bufferLen.toNat) % b.capacity.toNat := by
  have hin : b.in_.toNat = (b.out_.toNat + b.bufferLen.toNat) % 2 ^ 32 := by
    have := b.in_.toNat_lt
    have := b.out_.toNat_lt
    rw [bufferLen, UInt32.toNat_sub]
    omega
  rw [inIndex, h.toNat_and_mask, hin, Nat.mod_mod_of_dvd _ h.capacity_dvd, h.outIndex_eq,
    Nat.mod_add_mod]

theorem inIndex_lt (h : b.Valid) : b.inIndex.toNat < b.capacity.toNat :=
  h.inIndex_eq ▸ Nat.mod_lt _ h.capacity_pos

theorem bufferRemaining_eq (h : b.Valid) :
    b.bufferRemaining.toNat = b.capacity.toNat - b.bufferLen.toNat := by
  have hfits := h.fits
  have := b.in_.toNat_lt
  have := b.out_.toNat_lt
  have := h.capacity_le
  simp only [bufferRemaining, bufferLen, UInt32.toNat_add, UInt32.toNat_sub] at hfits ⊢
  omega

theorem length_contents (h : b.Valid) :
    b.contents.length = b.bufferLen.toNat :=
  length_window (h.block ▸ h.fits)

end Valid

theorem empty_iff : b.empty = true ↔ b.bufferLen.toNat = 0 := by
  have := b.in_.toNat_lt
  have := b.out_.toNat_lt
  rw [empty, beq_iff_eq, ← UInt32.toNat_inj, bufferLen, UInt32.toNat_sub]
  omega

theorem full_iff : b.full = true ↔ b.bufferLen.toNat = b.capacity.toNat := by
  rw [full, beq_iff_eq, ← UInt32.toNat_inj, bufferLen]

/-! ## Construction, clearing and taking bytes out -/

/-- The constructor settles on a power of two of at most 2^31. -/
theorem initialCapacity_pow (capacity : UInt32) :
    ∃ k, k ≤ 31 ∧ (initialCapacity capacity).toNat = 2 ^ k := by
  have hclamp : (if capacity > 0x80000000 then 0x80000000 else capacity).toNat ≤ 2 ^ 31 := by
    split
    · exact Nat.le_refl _
    · rename_i hle
      rw [gt_iff_lt, UInt32.lt_iff_toNat_lt] at hle
      have : (0x80000000 : UInt32).toNat = 2 ^ 31 := rfl
      omega
  unfold initialCapacity
  generalize (if capacity > 0x80000000 then 0x80000000 else capacity) = cap at hclamp ⊢
  by_cases hpow : isPowOfTwo cap = true
  · obtain ⟨k, hk⟩ := (isPowOfTwo_iff _).mp hpow
    refine ⟨k, ?_, by simpa [hpow] using hk⟩
    rwa [hk, Nat.pow_le_pow_iff_right (by omega)] at hclamp
  · obtain ⟨k, -, hk, hvalue, -⟩ := roundupPowOfTwo_spec cap
    exact ⟨k, hk, by simpa [hpow] using hvalue⟩

theorem bufferLen_new (capacity : UInt32) : (new capacity).bufferLen = 0 := by
  simp [bufferLen, new]

theorem bufferLen_clear (b : CircularBuffer) : b.clear.bufferLen = 0 := by
  simp [bufferLen, clear]

theorem valid_new (capacity : UInt32) : (new capacity).Valid :=
  ⟨initialCapacity_pow capacity, by simp [new], by simp [bufferLen_new]⟩

theorem contents_new (capacity : UInt32) : (new capacity).contents = [] := by
  rw [contents, bufferLen_new]
  exact window_zero _ _

theorem Valid.clear (h : b.Valid) : b.clear.Valid :=
  ⟨h.pow, h.block, by simp [bufferLen_clear]⟩

theorem contents_clear (b : CircularBuffer) : b.clear.contents = [] := by
  rw [contents, bufferLen_clear]
  exact window_zero _ _

/-- Moving `out_` forward over the first `k` bytes. -/
def advance (b : CircularBuffer) (k : ℕ) : CircularBuffer :=
  { b with out_ := b.out_ + UInt32.ofNat k }

theorem bufferLen_advance {k : ℕ} (hk : k ≤ b.bufferLen.toNat) :
    (b.advance k).bufferLen.toNat = b.bufferLen.toNat - k := by
  have := b.bufferLen.toNat_lt
  have := b.in_.toNat_lt
  have := b.out_.toNat_lt
  simp only [bufferLen, advance, UInt32.toNat_sub, UInt32.toNat_add, UInt32.toNat_ofNat'] at *
  omega

theorem Valid.advance (h : b.Valid) {k : ℕ} (hk : k ≤ b.bufferLen.toNat) :
    (b.advance k).Valid := by
  refine ⟨h.pow, h.block, ?_⟩
  have hfits := h.fits
  have hcap : (b.advance k).capacity = b.capacity := rfl
  rw [bufferLen_advance hk, hcap]
  omega

theorem contents_advance (h : b.Valid) {k : ℕ} (hk : k ≤ b.bufferLen.toNat) :
    (b.advance k).contents = b.contents.drop k := by
  have hfits := h.fits
  have hcap := h.capacity_le
  have hdata : (b.advance k).data = b.data := rfl
  have hsum : (b.out_ + UInt32.ofNat k).toNat = (b.out_.toNat + k) % 2 ^ 32 := by
    rw [UInt32.toNat_add, UInt32.toNat_ofNat', Nat.mod_eq_of_lt (a := k) (by omega)]
  have hindex : (b.advance k).outIndex.toNat =
      (b.outIndex.toNat + k) % b.capacity.toNat := by
    rw [(h.advance hk).outIndex_eq, h.outIndex_eq, Nat.mod_add_mod]
    change (b.out_ + UInt32.ofNat k).toNat % b.capacity.toNat = _
    rw [hsum, Nat.mod_mod_of_dvd _ h.capacity_dvd]
  rw [contents, contents, drop_window hk (h.block ▸ hfits), hdata, bufferLen_advance hk,
    hindex, ← h.block, window_mod]

/-- Asking for more than there is takes everything. -/
theorem contents_advance_min (h : b.Valid) (k : ℕ) :
    (b.advance (min k b.bufferLen.toNat)).contents = b.contents.drop k := by
  rw [contents_advance h (min_le_right _ _), ← h.length_contents]
  rcases Nat.le_total k b.contents.length with hle | hge
  · rw [Nat.min_eq_left hle]
  · rw [Nat.min_eq_right hge, List.drop_length, List.drop_of_length_le hge]

/-- The two copies of `get` and `write_to_fd` from a valid buffer. -/
theorem memcpyFrom_pieces (h : b.Valid) (size : UInt32)
    (hsize : size.toNat ≤ b.bufferLen.toNat) :
    ∃ front back,
      memcpyFrom b.data b.outIndex.toNat
        (stdMin size (b.capacity - b.outIndex)).toNat = .ok front ∧
      memcpyFrom b.data 0 (size - stdMin size (b.capacity - b.outIndex)).toNat = .ok back ∧
      front ++ back = b.contents.take size.toNat ∧
      front.length = (stdMin size (b.capacity - b.outIndex)).toNat := by
  have hfits := h.fits
  have hout := h.outIndex_lt
  have hblock := h.block
  have hroom : (b.capacity - b.outIndex).toNat = b.data.length - b.outIndex.toNat := by
    have := b.capacity.toNat_lt
    rw [UInt32.toNat_sub]
    omega
  have hlen : (stdMin size (b.capacity - b.outIndex)).toNat =
      min size.toNat (b.data.length - b.outIndex.toNat) := by
    rw [toNat_stdMin, hroom]
  have hrest : (size - stdMin size (b.capacity - b.outIndex)).toNat =
      size.toNat - min size.toNat (b.data.length - b.outIndex.toNat) := by
    have := size.toNat_lt
    rw [UInt32.toNat_sub, hlen]
    omega
  refine ⟨_, _, memcpyFrom_of_le (by omega), memcpyFrom_of_le (by omega), ?_, ?_⟩
  · rw [contents, take_window hsize, hlen, hrest, List.drop_zero,
      window_eq_pieces (by omega) (by omega)]
  · rw [List.length_take, List.length_drop]
    omega

/-- `get` returns the oldest bytes and removes them. -/
theorem get_eq (h : b.Valid) (length : UInt32) :
    b.get length = .ok (b.contents.take length.toNat,
      b.advance (min length.toNat b.bufferLen.toNat)) := by
  obtain ⟨front, back, hfront, hback, happend, -⟩ :=
    memcpyFrom_pieces h (stdMin length b.bufferLen) (by simp)
  have hcontents : b.contents.take length.toNat =
      b.contents.take (stdMin length b.bufferLen).toNat := by
    rw [List.take_eq_take_iff, h.length_contents, toNat_stdMin]
    omega
  simp only [get, hfront, hback, bind, Except.bind, happend, hcontents, pure, Except.pure]
  congr 2
  rw [advance, ← toNat_stdMin, UInt32.ofNat_toNat]

/-- The memory `write_to_fd` offers the kernel is the contents of the buffer. -/
theorem iovecs_eq (h : b.Valid) :
    ∃ pieces, b.iovecs = .ok pieces ∧ pieces.flatten = b.contents := by
  have hblock := h.block
  unfold iovecs
  by_cases hfull : (b.full && b.inIndex == 0) = true
  · rw [if_pos hfull]
    rw [Bool.and_eq_true, full_iff, beq_iff_eq, ← UInt32.toNat_inj] at hfull
    obtain ⟨hlen, hin⟩ := hfull
    have hout : b.outIndex.toNat = 0 := by
      rw [h.inIndex_eq, hlen, Nat.add_mod_right, Nat.mod_eq_of_lt h.outIndex_lt] at hin
      exact hin
    refine ⟨[b.data.take b.capacity.toNat], ?_, ?_⟩
    · rw [memcpyFrom_of_le (by omega)]
      rfl
    · rw [contents, hout, hlen, window, List.rotate_zero]
      simp
  · rw [if_neg hfull]
    obtain ⟨front, back, hfront, hback, happend, hlength⟩ :=
      memcpyFrom_pieces h b.bufferLen le_rfl
    rw [List.take_of_length_le (le_of_eq h.length_contents)] at happend
    simp only [hfront, hback, bind, Except.bind, pure, Except.pure]
    split
    · rename_i hzero
      rw [beq_iff_eq] at hzero
      refine ⟨[front], rfl, ?_⟩
      rw [hzero] at hback
      have hnil : back = [] := by
        simpa [memcpyFrom] using hback.symm
      simpa [hnil] using happend
    · exact ⟨[front, back], rfl, by simpa using happend⟩

/-- `write_to_fd` on a buffer with bytes, when the kernel takes `n` of them. -/
theorem writeToFd_eq_of_nonneg (h : b.Valid) (hne : b.empty = false) {n : ℤ} (hn : 0 ≤ n) :
    b.writeToFd n = .ok
      { taken := b.contents.take n.toNat, total := castInt n, buffer := b.advance n.toNat } := by
  obtain ⟨pieces, hpieces, hflatten⟩ := iovecs_eq h
  simp [writeToFd, hne, hpieces, hflatten, advance, bind, Except.bind, pure, Except.pure,
    Int.not_lt.mpr hn]

/-- `write_to_fd` on a buffer with bytes, when the call fails. -/
theorem writeToFd_eq_of_neg (h : b.Valid) (hne : b.empty = false) {n : ℤ} (hn : n < 0) :
    b.writeToFd n = .ok { taken := [], total := castInt n, buffer := b } := by
  obtain ⟨pieces, hpieces, -⟩ := iovecs_eq h
  simp [writeToFd, hne, hpieces, bind, Except.bind, pure, Except.pure, hn]

/-- An empty buffer fails the assertion of `write_to_fd`. -/
theorem writeToFd_of_empty (hempty : b.empty = true) (n : ℤ) :
    b.writeToFd n = .error .assertion := by
  simp only [writeToFd, hempty, if_true]
  rfl

/-! ## Putting bytes in -/

/-- The `put`s whose bytes are counted but never copied: a growth of a full
buffer whose data starts at the beginning of the block. -/
def losesPut (b : CircularBuffer) (buffer : List UInt8) : Bool :=
  b.full && b.inIndex == 0 && !buffer.isEmpty

/-- What `put` appends to the contents. -/
def appended (b : CircularBuffer) (buffer : List UInt8) : List Cell :=
  if b.losesPut buffer then List.replicate buffer.length none else buffer.map some

theorem length_appended (b : CircularBuffer) (buffer : List UInt8) :
    (b.appended buffer).length = buffer.length := by
  unfold appended
  split <;> simp

theorem toNat_ofNat_length {buffer : List UInt8} (h : buffer.length < 2 ^ 32) :
    (UInt32.ofNat buffer.length).toNat = buffer.length := by
  rw [UInt32.toNat_ofNat', Nat.mod_eq_of_lt h]

/-- Where `put` splits the new bytes: at the end of the block. -/
def putSplit (b : CircularBuffer) (buffer : List UInt8) : ℕ :=
  min buffer.length (b.data.length - b.inIndex.toNat)

/-- The first piece ends with the block. -/
theorem room_of_putSplit (h : b.Valid) (buffer : List UInt8) :
    b.inIndex.toNat + ((buffer.map some).take (b.putSplit buffer)).length ≤ b.data.length := by
  have hblock := h.block
  have hin := h.inIndex_lt
  rw [List.length_take, List.length_map, putSplit]
  omega

/-- The two copies of a `put` into the free space. -/
theorem put_eq_of_fits (h : b.Valid) {buffer : List UInt8}
    (hfits : b.bufferLen.toNat + buffer.length ≤ b.capacity.toNat) :
    b.put buffer = .ok { b with
      data := overwrite
        (overwrite b.data b.inIndex.toNat ((buffer.map some).take (b.putSplit buffer)))
        0 ((buffer.map some).drop (b.putSplit buffer))
      in_ := b.in_ + UInt32.ofNat buffer.length } := by
  have hcap := h.capacity_le
  have hblock := h.block
  have hin := h.inIndex_lt
  have hlength : (UInt32.ofNat buffer.length).toNat = buffer.length :=
    toNat_ofNat_length (by omega)
  have hroom : ¬ b.bufferRemaining < UInt32.ofNat buffer.length := by
    rw [UInt32.lt_iff_toNat_lt, h.bufferRemaining_eq, hlength]
    omega
  have hsplit : (stdMin (UInt32.ofNat buffer.length) (b.capacity - b.inIndex)).toNat =
      b.putSplit buffer := by
    rw [toNat_stdMin, hlength, UInt32.toNat_sub, putSplit]
    omega
  have hle : b.putSplit buffer ≤ buffer.length := min_le_left _ _
  have hrest : (UInt32.ofNat buffer.length -
        stdMin (UInt32.ofNat buffer.length) (b.capacity - b.inIndex)).toNat =
      buffer.length - b.putSplit buffer := by
    rw [UInt32.toNat_sub, hsplit, hlength]
    omega
  have hback : (buffer.drop (b.putSplit buffer)).take (buffer.length - b.putSplit buffer) =
      buffer.drop (b.putSplit buffer) := by
    rw [List.take_of_length_le]
    rw [List.length_drop]
  have hfront := room_of_putSplit h buffer
  simp only [put, if_neg hroom, hsplit, hrest, hback, List.map_take, List.map_drop]
  rw [memcpyTo_of_le hfront]
  simp only [bind, Except.bind]
  rw [memcpyTo_of_le]
  · rfl
  · rw [length_overwrite hfront, List.length_drop, List.length_map]
    omega

/-- `put` into the free space. -/
theorem put_of_fits (h : b.Valid) {buffer : List UInt8}
    (hfits : b.bufferLen.toNat + buffer.length ≤ b.capacity.toNat) :
    ∃ b', b.put buffer = .ok b' ∧ b'.Valid ∧ b'.capacity = b.capacity ∧
      b'.bufferLen.toNat = b.bufferLen.toNat + buffer.length ∧
      b'.contents = b.contents ++ buffer.map some := by
  refine ⟨_, put_eq_of_fits h hfits, ?_⟩
  have hcap := h.capacity_le
  have hblock := h.block
  have hfront := room_of_putSplit h buffer
  have hback : 0 + ((buffer.map some).drop (b.putSplit buffer)).length ≤
      (overwrite b.data b.inIndex.toNat
        ((buffer.map some).take (b.putSplit buffer))).length := by
    rw [length_overwrite hfront, List.length_drop, List.length_map]
    omega
  have hlen : (b.in_ + UInt32.ofNat buffer.length - b.out_).toNat =
      b.bufferLen.toNat + buffer.length := by
    have := b.in_.toNat_lt
    have := b.out_.toNat_lt
    have hlength : (UInt32.ofNat buffer.length).toNat = buffer.length :=
      toNat_ofNat_length (by omega)
    simp only [bufferLen, UInt32.toNat_sub, UInt32.toNat_add, hlength] at hfits ⊢
    omega
  have hcontents := window_append b.data (buffer.map some) b.outIndex.toNat
    b.bufferLen.toNat (hblock ▸ h.outIndex_lt)
    (by rw [List.length_map]; omega) (hblock ▸ h.inIndex_eq) rfl
  rw [List.length_map] at hcontents
  refine ⟨⟨h.pow, ?_, ?_⟩, rfl, hlen, ?_⟩
  · rw [length_overwrite hback, length_overwrite hfront, hblock]
  · change (b.in_ + UInt32.ofNat buffer.length - b.out_).toNat ≤ b.capacity.toNat
    omega
  · rw [contents, bufferLen, hlen]
    exact hcontents

/-- The block a growth allocates holds the backlog and the new bytes. -/
theorem grown_capacity (h : b.Valid) {buffer : List UInt8}
    (hover : b.capacity.toNat < b.bufferLen.toNat + buffer.length)
    (hlimit : b.bufferLen.toNat + buffer.length ≤ 2 ^ 31) :
    ∃ k, k ≤ 31 ∧
      (roundupPowOfTwo (UInt32.ofNat buffer.length + b.capacity)).toNat = 2 ^ k ∧
      b.bufferLen.toNat + buffer.length ≤ 2 ^ k := by
  have hfits := h.fits
  have hhalf : b.capacity.toNat ≤ 2 ^ 30 := by
    obtain ⟨k, hk, hcap⟩ := h.pow
    have hlt : 2 ^ k < 2 ^ 31 := by omega
    rw [Nat.pow_lt_pow_iff_right (by omega)] at hlt
    exact hcap ▸ Nat.pow_le_pow_right (by omega) (by omega)
  have hsum : (UInt32.ofNat buffer.length + b.capacity).toNat =
      buffer.length + b.capacity.toNat := by
    rw [UInt32.toNat_add, toNat_ofNat_length (by omega)]
    omega
  obtain ⟨k, -, hk, hvalue, hcover, -⟩ :=
    roundupPowOfTwo_spec (UInt32.ofNat buffer.length + b.capacity)
  refine ⟨k, hk, hvalue, ?_⟩
  rcases hcover with hle | rfl
  · omega
  · exact hlimit

/-- A buffer whose data starts at the beginning of its block reads it from
there. -/
theorem contents_of_out_zero (hout : b.out_ = 0) :
    b.contents = b.data.take b.bufferLen.toNat := by
  have hindex : b.outIndex.toNat = 0 := by
    rw [outIndex, hout, UInt32.toNat_and, UInt32.toNat_zero, Nat.zero_and]
  rw [contents, hindex, window, List.rotate_zero]

/-- The branch for a full aligned buffer: the whole block is copied, and the
place of the new bytes stays unset. -/
theorem resize_eq_of_full (h : b.Valid) {buffer : List UInt8} {cap : UInt32}
    (hnew : roundupPowOfTwo (UInt32.ofNat buffer.length + b.capacity) = cap)
    (hroom : b.bufferLen.toNat + buffer.length ≤ cap.toNat)
    (hfull : (b.full && b.inIndex == 0) = true) :
    b.resize buffer (UInt32.ofNat buffer.length) = .ok
      { data := b.contents ++ List.replicate buffer.length none ++
          malloc (cap.toNat - (b.bufferLen.toNat + buffer.length))
        capacity := cap
        in_ := UInt32.ofNat buffer.length + b.bufferLen
        out_ := 0 } := by
  have hblock := h.block
  have hlen := h.length_contents
  have hcontents : (b.data.drop 0).take b.capacity.toNat = b.contents := by
    obtain ⟨pieces, hpieces, hflatten⟩ := iovecs_eq h
    rw [iovecs, if_pos hfull, memcpyFrom_of_le (by omega)] at hpieces
    cases hpieces
    simpa using hflatten
  have hmalloc : malloc (cap.toNat - b.bufferLen.toNat) =
      List.replicate buffer.length none ++
        malloc (cap.toNat - (b.bufferLen.toNat + buffer.length)) := by
    rw [malloc, malloc, ← List.replicate_add]
    congr 1
    omega
  simp only [resize, hnew, bind, Except.bind, if_pos hfull]
  rw [memcpyFrom_of_le (by omega), hcontents]
  simp only
  rw [memcpyTo_of_le (by rw [length_malloc, hlen]; omega), overwrite_malloc_zero, hlen, hmalloc]
  simp [pure, Except.pure]

/-- The other branch: the old bytes in two pieces, then the new ones. -/
theorem resize_eq_of_not_full (h : b.Valid) {buffer : List UInt8} {cap : UInt32}
    (hnew : roundupPowOfTwo (UInt32.ofNat buffer.length + b.capacity) = cap)
    (hroom : b.bufferLen.toNat + buffer.length ≤ cap.toNat)
    (hfull : ¬ (b.full && b.inIndex == 0) = true) :
    b.resize buffer (UInt32.ofNat buffer.length) = .ok
      { data := b.contents ++ buffer.map some ++
          malloc (cap.toNat - (b.bufferLen.toNat + buffer.length))
        capacity := cap
        in_ := UInt32.ofNat buffer.length + b.bufferLen
        out_ := 0 } := by
  have hlen := h.length_contents
  have hlength : (UInt32.ofNat buffer.length).toNat = buffer.length :=
    toNat_ofNat_length (by have := cap.toNat_lt; omega)
  obtain ⟨front, back, hfront, hback, happend, hcount⟩ :=
    memcpyFrom_pieces h b.bufferLen le_rfl
  rw [List.take_of_length_le (le_of_eq hlen)] at happend
  have hsum : front.length + back.length = b.bufferLen.toNat := by
    rw [← hlen, ← happend, List.length_append]
  simp only [resize, hnew, bind, Except.bind, if_neg hfull, hfront, hback]
  rw [memcpyTo_of_le (by rw [length_malloc]; omega), overwrite_malloc_zero]
  simp only [← hcount]
  rw [memcpyTo_of_le (by rw [List.length_append, length_malloc]; omega),
    overwrite_append_malloc, happend]
  simp only [← hlen]
  rw [memcpyTo_of_le (by
      rw [hlength, List.take_of_length_le le_rfl, List.length_append, length_malloc,
        List.length_map]
      omega),
    overwrite_append_malloc, hlength, List.take_of_length_le le_rfl, List.length_map]
  simp only [pure, Except.pure]
  congr 4
  omega

/-- The block `resize` fills: the old bytes, then the new ones unless the
branch for a full aligned buffer is taken. -/
theorem resize_eq (h : b.Valid) {buffer : List UInt8} (hne : buffer ≠ [])
    (hover : b.capacity.toNat < b.bufferLen.toNat + buffer.length)
    (hlimit : b.bufferLen.toNat + buffer.length ≤ 2 ^ 31) :
    ∃ rest, b.resize buffer (UInt32.ofNat buffer.length) = .ok
      { data := b.contents ++ b.appended buffer ++ malloc rest
        capacity := roundupPowOfTwo (UInt32.ofNat buffer.length + b.capacity)
        in_ := UInt32.ofNat buffer.length + b.bufferLen
        out_ := 0 } ∧
      (b.contents ++ b.appended buffer ++ malloc rest).length =
        (roundupPowOfTwo (UInt32.ofNat buffer.length + b.capacity)).toNat := by
  obtain ⟨k, -, hcap, hroom⟩ := grown_capacity h hover hlimit
  rw [← hcap] at hroom
  refine ⟨(roundupPowOfTwo (UInt32.ofNat buffer.length + b.capacity)).toNat -
    (b.bufferLen.toNat + buffer.length), ?_, ?_⟩
  · by_cases hfull : (b.full && b.inIndex == 0) = true
    · have happended : b.appended buffer = List.replicate buffer.length none :=
        if_pos (by simp [losesPut, hfull, hne])
      rw [happended]
      exact resize_eq_of_full h rfl hroom hfull
    · have happended : b.appended buffer = buffer.map some := by
        refine if_neg ?_
        rw [losesPut, Bool.and_eq_true]
        exact fun hloses => hfull hloses.1
      rw [happended]
      exact resize_eq_of_not_full h rfl hroom hfull
  · simp only [List.length_append, length_malloc, length_appended, h.length_contents]
    omega

/-- `put` with growth. -/
theorem put_of_over (h : b.Valid) {buffer : List UInt8}
    (hover : b.capacity.toNat < b.bufferLen.toNat + buffer.length)
    (hlimit : b.bufferLen.toNat + buffer.length ≤ 2 ^ 31) :
    ∃ b', b.put buffer = .ok b' ∧ b'.Valid ∧
      b'.bufferLen.toNat = b.bufferLen.toNat + buffer.length ∧
      b'.contents = b.contents ++ b.appended buffer := by
  have hfits := h.fits
  have hlength : (UInt32.ofNat buffer.length).toNat = buffer.length :=
    toNat_ofNat_length (by omega)
  have hne : buffer ≠ [] := by
    rintro rfl
    simp only [List.length_nil] at hover
    omega
  have hroom : b.bufferRemaining < UInt32.ofNat buffer.length := by
    rw [UInt32.lt_iff_toNat_lt, h.bufferRemaining_eq, hlength]
    omega
  obtain ⟨rest, hresize, hdata⟩ := resize_eq h hne hover hlimit
  obtain ⟨k, hk, hcap, hcover⟩ := grown_capacity h hover hlimit
  have hlen : (UInt32.ofNat buffer.length + b.bufferLen - 0).toNat =
      b.bufferLen.toNat + buffer.length := by
    rw [UInt32.sub_zero, UInt32.toNat_add, hlength]
    omega
  have hput : b.put buffer = b.resize buffer (UInt32.ofNat buffer.length) := by
    rw [put, if_pos hroom]
  refine ⟨_, hput.trans hresize, ⟨⟨k, hk, hcap⟩, hdata, ?_⟩, hlen, ?_⟩
  · rw [bufferLen, hlen, hcap]
    exact hcover
  · rw [contents_of_out_zero rfl, bufferLen, hlen, List.take_append_of_le_length,
      List.take_of_length_le]
    · rw [List.length_append, length_appended, h.length_contents]
    · rw [List.length_append, length_appended, h.length_contents]

/-- **`put` on a valid buffer.** As long as the backlog stays within 2^31 bytes
the invariant is kept, the backlog grows by the number of bytes, and the
contents are extended, by unset cells where the new bytes are lost. -/
theorem put_spec (h : b.Valid) {buffer : List UInt8}
    (hlimit : b.bufferLen.toNat + buffer.length ≤ 2 ^ 31) :
    ∃ b', b.put buffer = .ok b' ∧ b'.Valid ∧
      b'.bufferLen.toNat = b.bufferLen.toNat + buffer.length ∧
      b'.contents = b.contents ++ b.appended buffer := by
  rcases Nat.lt_or_ge b.capacity.toNat (b.bufferLen.toNat + buffer.length) with hover | hfits
  · exact put_of_over h hover hlimit
  · obtain ⟨b', hput, hvalid, -, hlen, hcontents⟩ := put_of_fits h hfits
    refine ⟨b', hput, hvalid, hlen, ?_⟩
    have hloses : b.losesPut buffer = false := by
      by_contra hloses
      simp only [losesPut, Bool.not_eq_false, Bool.and_eq_true, full_iff] at hloses
      have : buffer = [] := List.eq_nil_of_length_eq_zero (by omega)
      simp [this] at hloses
    rw [hcontents, appended, hloses]
    rfl

/-! ## The counters alone

What holds of every buffer, valid or not, as long as the call succeeds. -/

theorem resize_eq_ok {b' : CircularBuffer} {buffer : List UInt8} {length : UInt32}
    (hresize : b.resize buffer length = .ok b') :
    b'.capacity = roundupPowOfTwo (length + b.capacity) ∧
      b'.in_ = length + b.bufferLen ∧ b'.out_ = 0 := by
  unfold resize at hresize
  simp only at hresize
  split at hresize
  · simp only [bind_eq_ok] at hresize
    obtain ⟨old, -, data, -, hresult⟩ := hresize
    cases hresult
    exact ⟨rfl, rfl, rfl⟩
  · simp only [bind_eq_ok] at hresize
    obtain ⟨front, -, first, -, back, -, second, -, data, -, hresult⟩ := hresize
    cases hresult
    exact ⟨rfl, rfl, rfl⟩

/-- `put` adds its length to the backlog, modulo 2^32. -/
theorem bufferLen_of_put {b' : CircularBuffer} {buffer : List UInt8}
    (hput : b.put buffer = .ok b') :
    b'.bufferLen = b.bufferLen + UInt32.ofNat buffer.length := by
  unfold put at hput
  simp only at hput
  split at hput
  · obtain ⟨-, hin, hout⟩ := resize_eq_ok hput
    rw [bufferLen, hin, hout, UInt32.sub_zero, UInt32.add_comm]
  · simp only [bind_eq_ok] at hput
    obtain ⟨front, -, data, -, hresult⟩ := hput
    cases hresult
    simp only [bufferLen, UInt32.sub_eq_add_neg]
    ac_rfl

/-- `write_to_fd` returns the kernel's answer as an `int` and moves `out_` over
the bytes taken. -/
theorem writeToFd_eq_ok {n : ℤ} {written : Written} (h : b.writeToFd n = .ok written) :
    b.empty = false ∧ written.total = castInt n ∧
      written.buffer = if n < 0 then b else b.advance n.toNat := by
  unfold writeToFd at h
  cases hempty : b.empty with
  | true =>
      simp only [hempty, if_true] at h
      cases h
  | false =>
      simp only [hempty] at h
      have h : (b.iovecs >>= fun offered =>
          if n < 0 then pure { taken := [], total := castInt n, buffer := b }
          else pure {
            taken := offered.flatten.take n.toNat
            total := castInt n
            buffer := { b with out_ := b.out_ + UInt32.ofNat n.toNat } }) = .ok written := h
      rw [bind_eq_ok] at h
      obtain ⟨offered, -, hresult⟩ := h
      split at hresult <;> cases hresult
      · exact ⟨rfl, rfl, by rw [if_pos ‹_›]⟩
      · exact ⟨rfl, rfl, by rw [if_neg ‹_›]; rfl⟩

end CircularBuffer

end Mutiplex
