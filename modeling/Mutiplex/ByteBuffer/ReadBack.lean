/-
# Writing, flipping and reading back

Byte strings put into a cleared buffer one after the other can be read back once
it is flipped.  The calls of the read phase are all those that store nothing and
do not take the limit past the end of what was written.  Under them the buffer is
a `Reader` of the concatenated strings: each call is refused by both or moves the
three cursors of both to the same places, and a `get` returns what the reader
takes out.
-/

import Mathlib
import Mutiplex.ByteBuffer.Assertions
import Mutiplex.Lib.Reader

namespace Mutiplex

open CMemory CyclicList Transition

namespace ByteBuffer

/-- A `put` of each string in order. -/
def putAll (b : ByteBuffer) : List (List UInt8) → Except Fault ByteBuffer
  | [] => .ok b
  | string :: rest => do
      let b ← b.put string string.length
      putAll b rest

/-- A `get` of each length in order, and all that they return. -/
def getAll (b : ByteBuffer) : List ℤ → Except Fault (List Cell × ByteBuffer)
  | [] => .ok ([], b)
  | len :: rest => do
      let (cells, b) ← b.get len
      let (later, b) ← getAll b rest
      return (cells ++ later, b)

/-- The calls of the read phase of a buffer that holds `total` bytes. -/
def ReadPhase (total : ℤ) : BufferOp → Prop
  | .get len => 0 ≤ len
  | .skip n => 0 ≤ n
  | .limit l => l ≤ total
  | .position _ | .mark | .reset | .rewind => True
  | .put _ _ | .clear | .flip => False

instance (total : ℤ) : DecidablePred (ReadPhase total)
  | .get len => inferInstanceAs (Decidable (0 ≤ len))
  | .skip n => inferInstanceAs (Decidable (0 ≤ n))
  | .limit l => inferInstanceAs (Decidable (l ≤ total))
  | .position _ | .mark | .reset | .rewind => instDecidableTrue
  | .put _ _ | .clear | .flip => instDecidableFalse

/-- The call as a request to a reader; a negative cursor or length is none. -/
def request : BufferOp → Option Reader.Request
  | .position p => p.toNat?.map .position
  | .limit l => l.toNat?.map .limit
  | .mark => some .mark
  | .reset => some .reset
  | .rewind => some .rewind
  | .get len => len.toNat?.map .get
  | .skip n => n.toNat?.map .skip
  | .put _ _ | .clear | .flip => none

/-- The cursors are those of the reader, where -1 stands for no mark. -/
structure At {text : List UInt8} (b : ByteBuffer) (q : Reader text) : Prop where
  position : b.position = q.position
  limit : b.limit = q.limit
  mark : b.mark = (q.mark.map Int.ofNat).getD (-1)

/-- The bytes behind the header and in front of the position. -/
def written (b : ByteBuffer) : List Cell := (b.data.take b.offset.toNat).drop 4

variable {b b' : ByteBuffer} {cap : ℤ}

/-- `put` of a whole string that there is room for. -/
theorem put_string (h : b.Valid cap) {string : List UInt8}
    (hroom : string.length ≤ b.remaining) :
    ∃ b', b.put string string.length = .ok b' ∧ b'.Valid cap ∧ b'.limit = b.limit ∧
      b'.position = b.position + string.length ∧
      b'.written = b.written ++ string.map some := by
  have hpos := h.position_nonneg
  have hput := h.put_eq (Int.natCast_nonneg string.length) hroom le_rfl
  refine ⟨_, hput, h.put hput, rfl, rfl, ?_⟩
  have hlength : ((string.take string.length).map some).length = string.length := by simp
  have hbelow : b.offset.toNat + 0 ≤ b.data.length :=
    h.offset_add_le (le_trans (Int.natCast_nonneg _) hroom)
  have hend : (4 + (b.position + string.length)).toNat =
      b.offset.toNat + ((string.take string.length).map some).length := by
    rw [hlength, offset]
    omega
  have hheader : 4 ≤ (b.data.take b.offset.toNat).length := by
    rw [List.length_take]
    rw [offset] at hbelow ⊢
    omega
  show ((overwrite b.data _ _).take (4 + (b.position + string.length)).toNat).drop 4 = _
  rw [Int.toNat_natCast, hend, take_add_overwrite (by omega),
    List.drop_append_of_le_length hheader, List.take_length]
  rfl

/-- The `put`s append the strings to what is written. -/
theorem putAll_spec (strings : List (List UInt8)) (h : b.Valid cap)
    (hroom : strings.flatten.length ≤ b.remaining) :
    ∃ w, b.putAll strings = .ok w ∧ w.Valid cap ∧
      w.position = b.position + strings.flatten.length ∧
      w.written = b.written ++ strings.flatten.map some := by
  induction strings generalizing b with
  | nil => exact ⟨b, rfl, h, by simp, by simp⟩
  | cons string rest ih =>
      rw [List.flatten_cons, List.length_append] at hroom
      obtain ⟨b₁, hput, hvalid, hlimit, hposition, hwritten⟩ :=
        put_string h (by omega : (string.length : ℤ) ≤ b.remaining)
      have hroom₁ : (rest.flatten.length : ℤ) ≤ b₁.remaining := by
        rw [h.remaining_eq] at hroom
        rw [hvalid.remaining_eq, hlimit, hposition]
        omega
      obtain ⟨w, hall, hw, hposition', hwritten'⟩ := ih hvalid hroom₁
      refine ⟨w, bind_eq_ok.mpr ⟨b₁, hput, hall⟩, hw, ?_, ?_⟩
      · rw [hposition', hposition, List.flatten_cons, List.length_append]
        omega
      · rw [hwritten', hwritten, List.flatten_cons, List.map_append, List.append_assoc]

/-! ## The read phase -/

/-- A buffer that holds `text` in `data` and stands where the reader does. -/
structure Reading {text : List UInt8} (cap : ℤ) (data : Block) (r : ByteBuffer)
    (q : Reader text) : Prop where
  valid : r.Valid cap
  data_eq : r.data = data
  stored : (data.take (4 + text.length)).drop 4 = text.map some
  stands : r.At q

variable {r r' : ByteBuffer} {data : Block} {text : List UInt8} {q : Reader text}

namespace Reading

theorem remaining_eq (h : Reading cap data r q) : r.remaining = q.remaining := by
  have hle := q.position_le
  rw [h.valid.remaining_eq, h.stands.position, h.stands.limit, Reader.remaining]
  omega

/-- What the reader takes out is stored at `data()`. -/
theorem taken_eq (h : Reading cap data r q) (n : ℕ) :
    (r.data.drop r.offset.toNat).take (min n q.remaining) = (q.taken n).map some := by
  have hle := q.limit_le
  have hoffset : r.offset.toNat = 4 + q.position := by
    rw [offset, h.stands.position]
    omega
  have hshort : min n q.remaining = min (min n q.remaining) (text.length - q.position) := by
    rw [Reader.remaining]
    omega
  calc
    (r.data.drop r.offset.toNat).take (min n q.remaining) =
        ((data.drop (4 + q.position)).take (text.length - q.position)).take
          (min n q.remaining) := by
      rw [h.data_eq, hoffset, List.take_take, ← hshort]
    _ = (((data.take (4 + text.length)).drop 4).drop q.position).take (min n q.remaining) := by
      rw [List.drop_drop, List.drop_take]
      congr 2
      omega
    _ = (q.taken n).map some := by
      rw [h.stored, Reader.taken, List.map_take, List.map_drop]

/-- A `get` returns what the reader takes out and leaves the buffer where it leaves
the reader. -/
theorem get_eq (h : Reading cap data r q) {len : ℤ} (hnonneg : 0 ≤ len) :
    ∃ r', r.get len = .ok ((q.taken len.toNat).map some, r') ∧
      Reading cap data r' (q.advance len.toNat) := by
  have hlength : (min len r.remaining).toNat = min len.toNat q.remaining := by
    rw [h.remaining_eq]
    omega
  have hget := h.valid.get_eq hnonneg
  rw [hlength, h.taken_eq] at hget
  refine ⟨_, hget, h.valid.get hnonneg hget, h.data_eq, h.stored, ?_, h.stands.limit,
    h.stands.mark⟩
  show r.position + min len r.remaining = (q.position + min len.toNat q.remaining : ℕ)
  rw [h.stands.position, h.remaining_eq]
  omega

theorem toNat?_eq_none {n : ℤ} (h : n.toNat? = none) : n < 0 := by
  by_contra hnonneg
  obtain ⟨m, rfl⟩ := Int.eq_ofNat_of_zero_le (not_lt.mp hnonneg)
  cases h

/-- The mark is forgotten where the reader forgets it. -/
theorem mark_filter (m : Option ℕ) (p : ℕ) :
    (if (p : ℤ) < (m.map Int.ofNat).getD (-1) then -1 else (m.map Int.ofNat).getD (-1)) =
      ((m.filter (· ≤ p)).map Int.ofNat).getD (-1) := by
  cases m with
  | none => simp
  | some m =>
      rw [Option.filter_some]
      by_cases hle : m ≤ p
      · have hnot : ¬ (p : ℤ) < (m : ℤ) := by omega
        simp [hle, hnot]
      · have hlt : (p : ℤ) < (m : ℤ) := by omega
        simp [hle, hlt]

theorem moveTo (h : Reading cap data r q) {p : ℕ} (hp : p ≤ q.limit) :
    ∃ r', r.setPosition p = .ok r' ∧ Reading cap data r' (q.moveTo p hp) := by
  have hcall := setPosition_eq (b := r) (p := p) (by rw [h.stands.limit]; omega) (by omega)
  refine ⟨_, hcall, h.valid.setPosition hcall, h.data_eq, h.stored, rfl, h.stands.limit, ?_⟩
  show (if (p : ℤ) < r.mark then -1 else r.mark) = _
  rw [h.stands.mark]
  exact mark_filter q.mark p

theorem limitTo (h : Reading cap data r q) (hfit : text.length ≤ cap) {l : ℕ}
    (hl : l ≤ text.length) :
    ∃ r', r.setLimit l = .ok r' ∧ Reading cap data r' (q.limitTo l hl) := by
  have hcall := setLimit_eq (b := r) (l := l) (by rw [h.valid.capacity_eq]; omega) (by omega)
  refine ⟨_, hcall, h.valid.setLimit hcall, h.data_eq, h.stored, ?_, rfl, ?_⟩
  · show (if (l : ℤ) < r.position then (l : ℤ) else r.position) = (min q.position l : ℕ)
    rw [h.stands.position]
    split <;> omega
  · show (if (l : ℤ) < r.mark then -1 else r.mark) = _
    rw [h.stands.mark]
    exact mark_filter q.mark l

theorem setMark (h : Reading cap data r q) : Reading cap data r.setMark q.setMark :=
  ⟨h.valid.setMark, h.data_eq, h.stored, h.stands.position, h.stands.limit, h.stands.position⟩

theorem rewind (h : Reading cap data r q) : Reading cap data r.rewind q.rewind :=
  ⟨h.valid.rewind, h.data_eq, h.stored, rfl, h.stands.limit, rfl⟩

theorem returnTo (h : Reading cap data r q) {m : ℕ} (hm : q.mark = some m) :
    ∃ r', r.reset = .ok r' ∧ Reading cap data r' (q.returnTo m hm) := by
  have hmark : r.mark = m := by rw [h.stands.mark, hm]; rfl
  have hcall := reset_eq (b := r) (by omega)
  exact ⟨_, hcall, h.valid.reset hcall, h.data_eq, h.stored, hmark, h.stands.limit,
    h.stands.mark⟩

theorem skip (h : Reading cap data r q) {n : ℕ} (hn : n ≤ q.remaining) :
    ∃ r', r.skip n = .ok r' ∧ Reading cap data r' (q.advance n) := by
  have hroom : (n : ℤ) ≤ r.remaining := by
    rw [h.remaining_eq]
    omega
  have hpos := h.valid.position_nonneg
  have hmark := h.valid.mark_le
  have hcall := skip_eq hroom
  refine ⟨_, hcall, h.valid.skip (by omega) (by omega) hcall, h.data_eq, h.stored, ?_,
    h.stands.limit, h.stands.mark⟩
  show wrapInt (r.position + n) = (q.position + min n q.remaining : ℕ)
  rw [h.valid.wrapInt_position (by omega) hroom, h.stands.position]
  omega

/-- **The buffer does what the reader does.** A call of the read phase is refused
by both, or takes both to the same place. -/
theorem operate {op : BufferOp} (h : Reading cap data r q) (hfit : text.length ≤ cap)
    (hop : ReadPhase text.length op) :
    match (request op).bind q.step with
    | some q' => ∃ r', r.operate op = .ok r' ∧ Reading cap data r' q'
    | none => r.operate op = .error .assertion := by
  cases op with
  | position p =>
      cases hp : p.toNat? with
      | none =>
          have hneg := toNat?_eq_none hp
          simp only [request, hp, Option.map_none, Option.bind_none]
          exact assert_bind_eq_error (by omega)
      | some n =>
          obtain rfl := Int.mem_toNat?.mp hp
          by_cases hn : n ≤ q.limit
          · simp only [request, hp, Option.map_some, Option.bind_some, Reader.step, dif_pos hn]
            exact h.moveTo hn
          · simp only [request, hp, Option.map_some, Option.bind_some, Reader.step, dif_neg hn]
            refine assert_bind_eq_error ?_
            rw [h.stands.limit]
            omega
  | limit l =>
      cases hl : l.toNat? with
      | none =>
          have hneg := toNat?_eq_none hl
          simp only [request, hl, Option.map_none, Option.bind_none]
          exact assert_bind_eq_error (by omega)
      | some n =>
          obtain rfl := Int.mem_toNat?.mp hl
          have hn : n ≤ text.length := Int.ofNat_le.mp hop
          simp only [request, hl, Option.map_some, Option.bind_some, Reader.step, dif_pos hn]
          exact h.limitTo hfit hn
  | mark => exact ⟨_, rfl, h.setMark⟩
  | reset =>
      simp only [request, Option.bind_some]
      cases hm : q.mark with
      | none =>
          rw [q.step_reset_of_none hm]
          refine assert_bind_eq_error ?_
          rw [h.stands.mark, hm]
          simp
      | some m =>
          rw [q.step_reset hm]
          exact h.returnTo hm
  | rewind => exact ⟨_, rfl, h.rewind⟩
  | get len =>
      obtain ⟨n, rfl⟩ := Int.eq_ofNat_of_zero_le hop
      obtain ⟨r', hget, hreading⟩ := h.get_eq hop
      exact ⟨r', bind_eq_ok.mpr ⟨_, hget, rfl⟩, hreading⟩
  | skip n =>
      obtain ⟨n, rfl⟩ := Int.eq_ofNat_of_zero_le hop
      by_cases hn : n ≤ q.remaining
      · simp only [request, Int.toNat?, Option.map_some, Option.bind_some, Reader.step, if_pos hn]
        exact h.skip hn
      · simp only [request, Int.toNat?, Option.map_some, Option.bind_some, Reader.step, if_neg hn]
        refine assert_bind_eq_error ?_
        rw [h.remaining_eq]
        omega
  | put source len => cases hop
  | clear => cases hop
  | flip => cases hop

/-- A whole run of the read phase. -/
theorem trace (h : Reading cap data r q) (hfit : text.length ≤ cap) {ops : List BufferOp}
    (htrace : (machine cap).Trace (fun _ => ReadPhase text.length) r ops r') :
    ∃ q', q.run (ops.filterMap request) = some q' ∧ Reading cap data r' q' := by
  induction htrace generalizing q with
  | nil => exact ⟨q, rfl, h⟩
  | @cons source middle target op rest hop hnext _ ih =>
      have hcall := step_eq_next.mp hnext
      have hsame := h.operate hfit hop
      cases hrequest : request op with
      | none =>
          rw [hrequest] at hsame
          cases hcall.symm.trans hsame
      | some asked =>
          rw [hrequest, Option.bind_some] at hsame
          cases hstep : q.step asked with
          | none =>
              rw [hstep] at hsame
              cases hcall.symm.trans hsame
          | some q₁ =>
              rw [hstep] at hsame
              obtain ⟨middle', hcall', hreading⟩ := hsame
              cases hcall.symm.trans hcall'
              obtain ⟨q', hrun, hreading'⟩ := ih hreading
              refine ⟨q', ?_, hreading'⟩
              rw [List.filterMap_cons_some hrequest, Reader.run, hstep, Option.bind_some, hrun]

/-- However the reads are split, together they return one slice. -/
theorem getAll_eq (h : Reading cap data r q) {lens : List ℤ} (hlens : ∀ len ∈ lens, 0 ≤ len) :
    ∃ r', r.getAll lens = .ok ((q.taken lens.sum.toNat).map some, r') ∧
      Reading cap data r' (q.advance lens.sum.toNat) := by
  induction lens generalizing r q with
  | nil =>
      have hnone : q.advance ([] : List ℤ).sum.toNat = q := q.advance_zero
      rw [hnone]
      exact ⟨r, by simp [getAll], h⟩
  | cons len rest ih =>
      have hlen : 0 ≤ len := hlens len List.mem_cons_self
      have hrest : ∀ len ∈ rest, 0 ≤ len := fun len hmem =>
        hlens len (List.mem_cons_of_mem _ hmem)
      have hsum : (len :: rest).sum.toNat = len.toNat + rest.sum.toNat := by
        have := List.sum_nonneg hrest
        rw [List.sum_cons]
        omega
      obtain ⟨r₁, hget, h₁⟩ := h.get_eq hlen
      obtain ⟨r₂, hlater, h₂⟩ := ih h₁ hrest
      rw [Reader.advance_advance, ← hsum] at h₂
      refine ⟨r₂, ?_, h₂⟩
      simp only [getAll, hget, hlater, bind, Except.bind, pure, Except.pure]
      rw [← List.map_append, Reader.taken_append, ← hsum]

/-- `reset` to a mark set before the reads replays them. -/
theorem getAll_reset (h : Reading cap data r q) {lens : List ℤ}
    (hlens : ∀ len ∈ lens, 0 ≤ len) :
    ∃ r₁ r₂ r₃, r.setMark.getAll lens = .ok ((q.taken lens.sum.toNat).map some, r₁) ∧
      r₁.reset = .ok r₂ ∧ r₂.getAll lens = .ok ((q.taken lens.sum.toNat).map some, r₃) := by
  obtain ⟨r₁, hreads, h₁⟩ := h.setMark.getAll_eq hlens
  obtain ⟨r₂, hreset, h₂⟩ := h₁.returnTo rfl
  rw [Reader.returnTo_advance] at h₂
  obtain ⟨r₃, hagain, -⟩ := h₂.getAll_eq hlens
  exact ⟨r₁, r₂, r₃, hreads, hreset, hagain⟩

end Reading

/-- The read phase starts with the whole text in front of the buffer. -/
theorem reading_flip (h : b.Valid cap) (strings : List (List UInt8))
    (hfit : strings.flatten.length ≤ cap) :
    ∃ w, b.clear.putAll strings = .ok w ∧
      Reading cap w.data w.flip (Reader.start strings.flatten) := by
  have hclear : b.clear.Valid cap := .clear h.block
  have hroom : strings.flatten.length ≤ b.clear.remaining := by
    rw [hclear.remaining_eq, clear_eq h.block, sub_zero]
    exact hfit
  obtain ⟨w, hputs, hvalid, hposition, hwritten⟩ := putAll_spec strings hclear hroom
  have hstart : b.clear.position = 0 := by rw [clear_eq h.block]
  rw [hstart, zero_add] at hposition
  refine ⟨w, hputs, hvalid.flip, rfl, ?_, rfl, hposition, rfl⟩
  have hempty : b.clear.written = [] := by
    rw [clear_eq h.block, written]
    apply List.drop_of_length_le
    rw [List.length_take]
    exact min_le_left _ _
  rw [hempty, List.nil_append, written, offset, hposition] at hwritten
  rw [← hwritten]
  congr 2

/-- **What was put in can be read back in any way.**  After `clear`, a `put` of each
string and `flip`, and then any calls of the read phase, no stored byte has
changed and the cursors are those of the reader of the concatenated strings that
was asked for the same; the next call passes its assertion if and only if the
reader does not refuse it.  A `get` returns the bytes from the position on, as many
as it asks for and the limit allows; reads split in any way return one such slice,
from the start after `rewind`, and the same one again after `reset` to a mark; and
reads of enough bytes after `flip` return all that was put in. -/
theorem write_flip_read (h : b.Valid cap) (strings : List (List UInt8))
    (hfit : strings.flatten.length ≤ cap) :
    ∃ w, b.clear.putAll strings = .ok w ∧
      (∀ ops r, (machine cap).Trace (fun _ => ReadPhase strings.flatten.length) w.flip ops r →
        r.data = w.data ∧
        ∃ q : Reader strings.flatten,
          (Reader.start strings.flatten).run (ops.filterMap request) = some q ∧ r.At q ∧
          (∀ op, ReadPhase strings.flatten.length op →
            ((∃ r', r.operate op = .ok r') ↔ (request op).bind q.step ≠ none)) ∧
          (∀ len, 0 ≤ len →
            (∃ r', r.get len = .ok ((q.taken len.toNat).map some, r') ∧
              r'.At (q.advance len.toNat)) ∧
            (q.taken len.toNat).length = min len.toNat (q.limit - q.position)) ∧
          ∀ lens : List ℤ, (∀ len ∈ lens, 0 ≤ len) →
            (∃ r', r.getAll lens = .ok ((q.taken lens.sum.toNat).map some, r')) ∧
            (∃ r', r.rewind.getAll lens =
              .ok ((strings.flatten.take (min lens.sum.toNat q.limit)).map some, r')) ∧
            ∃ r₁ r₂ r₃, r.setMark.getAll lens = .ok ((q.taken lens.sum.toNat).map some, r₁) ∧
              r₁.reset = .ok r₂ ∧
              r₂.getAll lens = .ok ((q.taken lens.sum.toNat).map some, r₃)) ∧
      ∀ lens : List ℤ, (∀ len ∈ lens, 0 ≤ len) → strings.flatten.length ≤ lens.sum →
        ∃ r', w.flip.getAll lens = .ok (strings.flatten.map some, r') := by
  obtain ⟨w, hputs, hflip⟩ := reading_flip h strings hfit
  refine ⟨w, hputs, fun ops r htrace => ?_, fun lens hlens hsum => ?_⟩
  · obtain ⟨q, hrun, hreading⟩ := hflip.trace hfit htrace
    refine ⟨hreading.data_eq, q, hrun, hreading.stands, fun op hop => ?_, fun len hlen => ?_,
      fun lens hlens => ⟨?_, ?_, hreading.getAll_reset hlens⟩⟩
    · have hsame := hreading.operate hfit hop
      cases hstep : (request op).bind q.step with
      | none =>
          rw [hstep] at hsame
          simp [hsame]
      | some q' =>
          rw [hstep] at hsame
          obtain ⟨r', hcall, -⟩ := hsame
          simp [hcall]
    · obtain ⟨r', hget, hreading'⟩ := hreading.get_eq hlen
      exact ⟨⟨r', hget, hreading'.stands⟩, q.length_taken _⟩
    · obtain ⟨r', hreads, -⟩ := hreading.getAll_eq hlens
      exact ⟨r', hreads⟩
    · obtain ⟨r', hreads, -⟩ := hreading.rewind.getAll_eq hlens
      rw [Reader.taken_rewind] at hreads
      exact ⟨r', hreads⟩
  · obtain ⟨r', hreads, -⟩ := hflip.getAll_eq hlens
    rw [Reader.taken_start (by omega)] at hreads
    exact ⟨r', hreads⟩

/-- Two strings are put in; after reads past a mark, a lower limit, `reset` and
`skip`, a `get` returns the one byte in front of the limit. -/
theorem write_flip_read_of_two :
    ∃ w r : ByteBuffer, w.position = 5 ∧
      (machine 8).Trace (fun _ => ReadPhase 5) w.flip
        [.get 1, .mark, .get 3, .limit 3, .reset, .skip 1] r ∧
      ∃ q : Reader ([1, 2, 3, 4, 5] : List UInt8), r.At q ∧ q.position = 2 ∧ q.limit = 3 ∧
        q.mark = some 1 ∧ ∃ target, r.get 9 = .ok ([some 3], target) := by
  let start : ByteBuffer :=
    ⟨8, -1, 0, [some 0, some 0, some 0, some 8, none, none, none, none, none, none, none, none]⟩
  let full : ByteBuffer :=
    ⟨8, -1, 5, [some 0, some 0, some 0, some 8, some 1, some 2, some 3, some 4, some 5, none,
      none, none]⟩
  have hvalid : start.Valid 8 := new_spec (by norm_num) (by decide +kernel)
  obtain ⟨w, hputs, hreads, -⟩ := write_flip_read hvalid [[1, 2], [3, 4, 5]] (by decide)
  have hfull : start.clear.putAll [[1, 2], [3, 4, 5]] = .ok full := by decide +kernel
  obtain rfl : w = full := Except.ok.inj (hputs.symm.trans hfull)
  have hend : ∃ r, (machine 8).Trace (fun _ => ReadPhase 5) full.flip
      [.get 1, .mark, .get 3, .limit 3, .reset, .skip 1] r ∧ r.data = full.data :=
    Machine.exists_trace_of_leads _ (by decide +kernel)
  obtain ⟨r, htrace, -⟩ := hend
  obtain ⟨-, q, hasked, hat, -, hgets, -⟩ := hreads _ _ htrace
  cases Option.some.inj hasked
  obtain ⟨⟨target, hget, -⟩, -⟩ := hgets 9 (by decide)
  exact ⟨full, r, rfl, htrace, _, hat, rfl, rfl, rfl, target, hget⟩

end ByteBuffer

end Mutiplex
