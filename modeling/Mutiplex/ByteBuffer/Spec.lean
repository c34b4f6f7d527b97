/-
# The cursors of a byte buffer

`Valid b cap` is what the class relies on: the header holds `cap`, the block has
room for that many bytes behind it, and the three cursors are ordered.  A new
buffer is valid, and every call that passes its assertion keeps it so, as long
as the lengths handed to `put`, `get` and `skip` are not negative.

The header needs no argument of its own: the copies of a valid buffer start at
`data()`, which lies behind it.
-/

import Mathlib
import Mutiplex.ByteBuffer.Basic
import Mutiplex.Lib.Transition

namespace Mutiplex

open CMemory CyclicList Transition

/-! ## Integers in memory -/

theorem wrapInt_of_bounds {n : ℤ} (hlow : -2 ^ 31 ≤ n) (hhigh : n < 2 ^ 31) : wrapInt n = n := by
  rw [wrapInt, Int.bmod_def]
  split
  · omega
  · omega

@[simp]
theorem length_htonl (n : ℤ) : (htonl n).length = 4 := rfl

/-- `ntohl` reads back the positive numbers `htonl` wrote. -/
theorem ntohl_htonl {n : ℤ} (hnonneg : 0 ≤ n) (hlt : n < 2 ^ 31) :
    ntohl ((htonl n).map some) = n := by
  have hbits : (n % 2 ^ 32).toNat = n.toNat := by omega
  simp only [ntohl, htonl, hbits, List.map_cons, List.map_nil, List.foldl_cons, List.foldl_nil,
    Option.getD_some, UInt8.toNat_ofNat']
  rw [wrapInt_of_bounds (by omega) (by omega)]
  omega

namespace ByteBuffer

theorem assert_eq_ok {condition : Prop} [Decidable condition] :
    assert condition = .ok () ↔ condition := by
  simp [assert]

theorem assert_bind_eq_ok {condition : Prop} [Decidable condition] {α : Type}
    {rest : Except Fault α} {result : α} :
    (do assert condition; rest) = .ok result ↔ condition ∧ rest = .ok result := by
  rw [bind_eq_ok]
  constructor
  · rintro ⟨_, hassert, hrest⟩
    exact ⟨assert_eq_ok.mp hassert, hrest⟩
  · rintro ⟨hcondition, hrest⟩
    exact ⟨(), assert_eq_ok.mpr hcondition, hrest⟩

/-- The assertion fails. -/
theorem assert_bind_eq_error {condition : Prop} [Decidable condition] {α : Type}
    {rest : Except Fault α} (hnot : ¬ condition) :
    (do assert condition; rest) = .error .assertion := by
  simp only [assert, if_neg hnot]
  rfl

/-! ## The invariant -/

/-- The block of a buffer of capacity `cap`. -/
structure Holds (data : Block) (cap : ℤ) : Prop where
  pos : 0 < cap
  lt : cap < 2 ^ 31
  length : data.length = 4 + cap.toNat
  header : data.take 4 = (htonl cap).map some

/-- The invariant of the class. -/
structure Valid (b : ByteBuffer) (cap : ℤ) : Prop where
  block : Holds b.data cap
  position_nonneg : 0 ≤ b.position
  position_le : b.position ≤ b.limit
  limit_le : b.limit ≤ cap
  mark : b.mark = -1 ∨ 0 ≤ b.mark ∧ b.mark ≤ b.position

variable {b b' : ByteBuffer} {cap : ℤ}

theorem Holds.capacity_eq (h : Holds b.data cap) : b.capacity = cap := by
  rw [capacity, h.header, ntohl_htonl (le_of_lt h.pos) h.lt]

theorem clear_eq (h : Holds b.data cap) :
    b.clear = { limit := cap, mark := -1, position := 0, data := b.data } := by
  rw [clear, h.capacity_eq]

theorem setPosition_eq {p : ℤ} (hle : p ≤ b.limit) (hnonneg : 0 ≤ p) :
    b.setPosition p =
      .ok { b with position := p, mark := if p < b.mark then -1 else b.mark } :=
  assert_bind_eq_ok.mpr ⟨⟨hle, hnonneg⟩, rfl⟩

theorem setLimit_eq {l : ℤ} (hle : l ≤ b.capacity) (hnonneg : 0 ≤ l) :
    b.setLimit l = .ok { b with
      limit := l
      position := if l < b.position then l else b.position
      mark := if l < b.mark then -1 else b.mark } :=
  assert_bind_eq_ok.mpr ⟨⟨hle, hnonneg⟩, rfl⟩

theorem reset_eq (hmark : 0 ≤ b.mark) : b.reset = .ok { b with position := b.mark } :=
  assert_bind_eq_ok.mpr ⟨hmark, rfl⟩

theorem skip_eq {n : ℤ} (hle : n ≤ b.remaining) :
    b.skip n = .ok { b with position := wrapInt (b.position + n) } :=
  assert_bind_eq_ok.mpr ⟨hle, rfl⟩

/-- A copy behind the header keeps it. -/
theorem Holds.overwrite {data : Block} (h : Holds data cap) {offset : ℕ} {cells : List Cell}
    (hoffset : 4 ≤ offset) (hroom : offset + cells.length ≤ data.length) :
    Holds (overwrite data offset cells) cap where
  pos := h.pos
  lt := h.lt
  length := by rw [length_overwrite hroom, h.length]
  header := by rw [take_overwrite hoffset (by omega), h.header]

namespace Valid

theorem capacity_eq (h : b.Valid cap) : b.capacity = cap := h.block.capacity_eq

theorem remaining_eq (h : b.Valid cap) : b.remaining = b.limit - b.position := by
  have := h.position_nonneg
  have := h.position_le
  have := h.limit_le
  have := h.block.lt
  exact wrapInt_of_bounds (by omega) (by omega)

theorem offset_nonneg (h : b.Valid cap) : 0 ≤ b.offset := by
  have := h.position_nonneg
  rw [offset]
  omega

/-- A number of bytes that fits before the limit fits into the block. -/
theorem offset_add_le (h : b.Valid cap) {len : ℕ} (hlen : (len : ℤ) ≤ b.remaining) :
    b.offset.toNat + len ≤ b.data.length := by
  have := h.position_nonneg
  have := h.limit_le
  have := h.block.length
  rw [h.remaining_eq] at hlen
  rw [offset]
  omega

theorem store_eq (h : b.Valid cap) {cells : List Cell}
    (hlen : (cells.length : ℤ) ≤ b.remaining) :
    b.store cells = .ok (CyclicList.overwrite b.data b.offset.toNat cells) := by
  rw [store, if_neg (by have := h.offset_nonneg; omega), memcpyTo_of_le (h.offset_add_le hlen)]

theorem load_eq (h : b.Valid cap) {len : ℤ} (hnonneg : 0 ≤ len) (hlen : len ≤ b.remaining) :
    b.load len = .ok ((b.data.drop b.offset.toNat).take len.toNat) := by
  rw [load, if_neg (by have := h.offset_nonneg; omega),
    memcpyFrom_of_le (h.offset_add_le (by omega))]

theorem mark_le (h : b.Valid cap) : b.mark ≤ b.position := by
  have hpos := h.position_nonneg
  rcases h.mark with hnone | ⟨-, hle⟩
  · omega
  · exact hle

/-- The new position is computed without overflow. -/
theorem wrapInt_position (h : b.Valid cap) {n : ℤ} (hlow : 0 ≤ b.position + n)
    (hn : n ≤ b.remaining) : wrapInt (b.position + n) = b.position + n := by
  have hlimit := h.limit_le
  have hlt := h.block.lt
  rw [h.remaining_eq] at hn
  exact wrapInt_of_bounds (by omega) (by omega)

/-- The position may move to anywhere between the mark and the limit. -/
theorem move (h : b.Valid cap) {data : Block} (hdata : Holds data cap) {n : ℤ}
    (hlow : 0 ≤ b.position + n) (hmark : b.mark ≤ b.position + n) (hn : n ≤ b.remaining) :
    Valid { b with data := data, position := wrapInt (b.position + n) } cap := by
  rw [h.wrapInt_position hlow hn]
  rw [h.remaining_eq] at hn
  refine ⟨hdata, hlow, ?_, h.limit_le, ?_⟩
  · show b.position + n ≤ b.limit
    omega
  · exact h.mark.imp_right fun hset => ⟨hset.1, hmark⟩

/-- It moves forward by a number of bytes that fits before the limit. -/
theorem forward (h : b.Valid cap) {data : Block} (hdata : Holds data cap) {n : ℤ}
    (hnonneg : 0 ≤ n) (hn : n ≤ b.remaining) :
    Valid { b with data := data, position := wrapInt (b.position + n) } cap := by
  have hpos := h.position_nonneg
  have hmark := h.mark_le
  exact h.move hdata (by omega) (by omega) hn

/-- `put` of some bytes of a source that has them. -/
theorem put_eq (h : b.Valid cap) {source : List UInt8} {len : ℤ} (hnonneg : 0 ≤ len)
    (hroom : len ≤ b.remaining) (hsource : len ≤ source.length) :
    b.put source len = .ok { b with
      data := CyclicList.overwrite b.data b.offset.toNat ((source.take len.toNat).map some)
      position := b.position + len } := by
  have hpos := h.position_nonneg
  have hcells : ((source.take len.toNat).map some).length = len.toNat := by
    rw [List.length_map, List.length_take]
    omega
  have hcopy : memcpyFrom (source.map some) 0 len.toNat =
      .ok ((source.take len.toNat).map some) := by
    rw [memcpyFrom_of_le (by rw [List.length_map]; omega), List.drop_zero, List.map_take]
  refine assert_bind_eq_ok.mpr ⟨hroom, ?_⟩
  rw [if_neg (by omega)]
  have hfits : (((source.take len.toNat).map some).length : ℤ) ≤ b.remaining := by
    rw [hcells]
    omega
  refine bind_eq_ok.mpr ⟨_, hcopy, bind_eq_ok.mpr ⟨_, h.store_eq hfits, ?_⟩⟩
  rw [h.wrapInt_position (by omega) hroom]
  rfl

/-- `get` of no negative length. -/
theorem get_eq (h : b.Valid cap) {len : ℤ} (hnonneg : 0 ≤ len) :
    b.get len = .ok ((b.data.drop b.offset.toNat).take (min len b.remaining).toNat,
      { b with position := b.position + min len b.remaining }) := by
  have hpos := h.position_nonneg
  have hremaining : 0 ≤ b.remaining := by
    have := h.position_le
    rw [h.remaining_eq]
    omega
  refine bind_eq_ok.mpr ⟨_, h.load_eq (le_min hnonneg hremaining) (min_le_right _ _), ?_⟩
  rw [h.wrapInt_position (by omega) (min_le_right _ _)]
  rfl

/-! ## What each call does to the invariant -/

theorem setPosition {p : ℤ} (h : b.Valid cap) (hcall : b.setPosition p = .ok b') :
    b'.Valid cap := by
  obtain ⟨⟨hle, hnonneg⟩, hresult⟩ := assert_bind_eq_ok.mp hcall
  cases hresult
  refine ⟨h.block, hnonneg, hle, h.limit_le, ?_⟩
  show (if p < b.mark then -1 else b.mark) = -1 ∨ _
  split
  · exact Or.inl rfl
  · rename_i hbelow
    rcases h.mark with hnone | ⟨hmark, -⟩
    · exact Or.inl hnone
    · exact Or.inr ⟨hmark, not_lt.mp hbelow⟩

theorem setLimit {l : ℤ} (h : b.Valid cap) (hcall : b.setLimit l = .ok b') :
    b'.Valid cap := by
  obtain ⟨⟨hle, hnonneg⟩, hresult⟩ := assert_bind_eq_ok.mp hcall
  rw [h.capacity_eq] at hle
  cases hresult
  have hpos := h.position_nonneg
  refine ⟨h.block, ?_, ?_, hle, ?_⟩
  · show 0 ≤ if l < b.position then l else b.position
    split <;> omega
  · show (if l < b.position then l else b.position) ≤ l
    split <;> omega
  · rcases h.mark with hnone | ⟨hmark, hbelow⟩
    · exact Or.inl (by simp [hnone])
    · show (if l < b.mark then -1 else b.mark) = -1 ∨ _
      split
      · exact Or.inl rfl
      · refine Or.inr ⟨hmark, ?_⟩
        show b.mark ≤ if l < b.position then l else b.position
        split <;> omega

theorem setMark (h : b.Valid cap) : b.setMark.Valid cap :=
  ⟨h.block, h.position_nonneg, h.position_le, h.limit_le, Or.inr ⟨h.position_nonneg, le_rfl⟩⟩

theorem reset (h : b.Valid cap) (hcall : b.reset = .ok b') : b'.Valid cap := by
  obtain ⟨hnonneg, hresult⟩ := assert_bind_eq_ok.mp hcall
  cases hresult
  exact ⟨h.block, hnonneg, h.mark_le.trans h.position_le, h.limit_le, Or.inr ⟨hnonneg, le_rfl⟩⟩

/-- `clear` needs only the header: wherever the cursors are, it puts them back. -/
theorem clear (h : Holds b.data cap) : b.clear.Valid cap := by
  rw [clear_eq h]
  exact ⟨h, le_rfl, le_of_lt h.pos, le_rfl, Or.inl rfl⟩

theorem flip (h : b.Valid cap) : b.flip.Valid cap :=
  ⟨h.block, le_rfl, h.position_nonneg, h.position_le.trans h.limit_le, Or.inl rfl⟩

theorem rewind (h : b.Valid cap) : b.rewind.Valid cap :=
  ⟨h.block, le_rfl, h.position_nonneg.trans h.position_le, h.limit_le, Or.inl rfl⟩

theorem put {source : List UInt8} {len : ℤ} (h : b.Valid cap)
    (hcall : b.put source len = .ok b') : b'.Valid cap := by
  obtain ⟨hle, hrest⟩ := assert_bind_eq_ok.mp hcall
  by_cases hneg : len < 0
  · rw [if_pos hneg] at hrest
    cases hrest
  · rw [if_neg hneg] at hrest
    obtain ⟨-, -, hrest⟩ := bind_eq_ok.mp hrest
    obtain ⟨cells, hcells, hrest⟩ := bind_eq_ok.mp hrest
    obtain ⟨data, hdata, hresult⟩ := bind_eq_ok.mp hrest
    cases hresult
    have hlength : (cells.length : ℤ) = len := by
      unfold memcpyFrom at hcells
      split at hcells
      · cases hcells
        rw [List.length_take, List.length_drop]
        omega
      · cases hcells
    rw [h.store_eq (by omega)] at hdata
    cases hdata
    have hoffset : 4 ≤ b.offset.toNat := by
      have := h.position_nonneg
      rw [offset]
      omega
    exact h.forward (h.block.overwrite hoffset (h.offset_add_le (by omega))) (by omega) hle

theorem get {len : ℤ} {cells : List Cell} (h : b.Valid cap) (hnonneg : 0 ≤ len)
    (hcall : b.get len = .ok (cells, b')) : b'.Valid cap := by
  obtain ⟨_, _, hresult⟩ := bind_eq_ok.mp hcall
  cases hresult
  have hremaining : 0 ≤ b.remaining := by
    have := h.position_le
    rw [h.remaining_eq]
    omega
  exact h.forward h.block (le_min hnonneg hremaining) (min_le_right _ _)

theorem skip {n : ℤ} (h : b.Valid cap) (hlow : 0 ≤ b.position + n)
    (hmark : b.mark ≤ b.position + n) (hcall : b.skip n = .ok b') : b'.Valid cap := by
  obtain ⟨hle, hresult⟩ := assert_bind_eq_ok.mp hcall
  cases hresult
  exact h.move h.block hlow hmark hle

end Valid

/-! ## Construction and runs of calls -/

/-- A capacity that passes the assertion of the constructor gives a buffer whose
cursors span it. -/
theorem new_spec {capacity : ℤ} (hlt : capacity < 2 ^ 31) (hnew : new capacity = .ok b) :
    b.Valid capacity := by
  obtain ⟨hpos, hrest⟩ := assert_bind_eq_ok.mp hnew
  have hroom : 0 + ((htonl capacity).map some).length ≤
      (malloc (capacity.toNat + 4)).length := by
    simp
  rw [memcpyTo_of_le hroom] at hrest
  cases hrest
  refine ⟨⟨hpos, hlt, ?_, ?_⟩, le_rfl, le_of_lt hpos, le_rfl, Or.inl rfl⟩
  · rw [length_overwrite hroom, length_malloc, Nat.add_comm]
  · rw [overwrite_malloc_zero, List.take_append_of_le_length (by simp)]
    simp

end ByteBuffer

/-- The lengths handed to `put`, `get` and `skip` are not negative. -/
def BufferOp.NonNegative : BufferOp → Prop
  | .put _ len => 0 ≤ len
  | .get len => 0 ≤ len
  | .skip n => 0 ≤ n
  | _ => True

instance : DecidablePred BufferOp.NonNegative
  | .put _ len => inferInstanceAs (Decidable (0 ≤ len))
  | .get len => inferInstanceAs (Decidable (0 ≤ len))
  | .skip n => inferInstanceAs (Decidable (0 ≤ n))
  | .position _ | .limit _ | .mark | .reset | .clear | .flip | .rewind => instDecidableTrue

namespace ByteBuffer

variable {b b' : ByteBuffer} {cap : ℤ}

/-- `put` and `get` are handed no negative length, and `skip` takes the position
neither in front of the data nor in front of the mark. -/
def Forward (b : ByteBuffer) : BufferOp → Prop
  | .put _ len => 0 ≤ len
  | .get len => 0 ≤ len
  | .skip n => 0 ≤ b.position + n ∧ b.mark ≤ b.position + n
  | _ => True

instance (b : ByteBuffer) : DecidablePred b.Forward
  | .put _ len => inferInstanceAs (Decidable (0 ≤ len))
  | .get len => inferInstanceAs (Decidable (0 ≤ len))
  | .skip n => inferInstanceAs (Decidable (0 ≤ b.position + n ∧ b.mark ≤ b.position + n))
  | .position _ | .limit _ | .mark | .reset | .clear | .flip | .rewind => instDecidableTrue

theorem Valid.forward_of_nonNegative {op : BufferOp} (h : b.Valid cap) (hop : op.NonNegative) :
    b.Forward op := by
  cases op with
  | skip n =>
      have hpos := h.position_nonneg
      have hmark := h.mark_le
      have hn : 0 ≤ n := hop
      constructor
      · omega
      · omega
  | _ => exact hop

/-- Every call that returns keeps the invariant, unless it runs backwards. -/
theorem Valid.operate {op : BufferOp} (h : b.Valid cap) (hop : b.Forward op)
    (hcall : b.operate op = .ok b') : b'.Valid cap := by
  cases op with
  | position p => exact h.setPosition hcall
  | limit l => exact h.setLimit hcall
  | mark =>
      cases hcall
      exact h.setMark
  | reset => exact h.reset hcall
  | clear =>
      have hresult : b.clear = b' := Except.ok.inj hcall
      exact hresult ▸ .clear h.block
  | flip =>
      cases hcall
      exact h.flip
  | rewind =>
      cases hcall
      exact h.rewind
  | put source len => exact h.put hcall
  | get len =>
      obtain ⟨⟨cells, target⟩, hget, hresult⟩ := bind_eq_ok.mp hcall
      cases hresult
      exact h.get hop hget
  | skip n => exact h.skip hop.1 hop.2 hcall

end ByteBuffer

end Mutiplex
