/-
# Reading a text with three cursors

A reader moves a position over a text up to a limit, and can come back to a mark.
The mark lies at or in front of the position; whatever takes the position or the
limit in front of it forgets it.  What a reader takes out is the slice of the text
at its position, so reads that follow each other take out one slice, and a reader
that comes back takes out the same again.
-/

import Mathlib.Algebra.Order.Group.Nat
import Mathlib.Data.List.Basic

universe u

/-- A position in a text, with a limit and perhaps a mark. -/
@[ext]
structure Reader {α : Type u} (text : List α) where
  position : ℕ
  limit : ℕ
  mark : Option ℕ
  position_le : position ≤ limit
  limit_le : limit ≤ text.length
  mark_le : ∀ m ∈ mark, m ≤ position

namespace Reader

/-- What can be asked of a reader. -/
inductive Request
  | position (p : ℕ)
  | limit (l : ℕ)
  | mark
  | reset
  | rewind
  | get (n : ℕ)
  | skip (n : ℕ)
  deriving DecidableEq, Repr

variable {α : Type u} {text : List α}

/-- The whole text lies in front of the reader. -/
def start (text : List α) : Reader text where
  position := 0
  limit := text.length
  mark := none
  position_le := Nat.zero_le _
  limit_le := le_rfl
  mark_le := by simp

variable (q : Reader text)

/-- The number of items up to the limit. -/
def remaining : ℕ := q.limit - q.position

/-- The next `n` items, or those up to the limit. -/
def taken (n : ℕ) : List α := (text.drop q.position).take (min n q.remaining)

/-- The reader behind these. -/
def advance (n : ℕ) : Reader text where
  position := q.position + min n q.remaining
  limit := q.limit
  mark := q.mark
  position_le := by
    have := q.position_le
    rw [remaining]
    omega
  limit_le := q.limit_le
  mark_le m hm := (q.mark_le m hm).trans (Nat.le_add_right _ _)

/-- The reader at another position. -/
def moveTo (p : ℕ) (hp : p ≤ q.limit) : Reader text where
  position := p
  limit := q.limit
  mark := q.mark.filter (· ≤ p)
  position_le := hp
  limit_le := q.limit_le
  mark_le m hm := by simpa using (Option.mem_filter_iff.mp hm).2

/-- The reader with another limit, which takes the position with it. -/
def limitTo (l : ℕ) (hl : l ≤ text.length) : Reader text where
  position := min q.position l
  limit := l
  mark := q.mark.filter (· ≤ l)
  position_le := min_le_right _ _
  limit_le := hl
  mark_le m hm := by
    obtain ⟨hmark, hle⟩ := Option.mem_filter_iff.mp hm
    exact le_min (q.mark_le m hmark) (by simpa using hle)

/-- The reader with a mark at its position. -/
def setMark : Reader text := { q with mark := some q.position, mark_le := by simp }

/-- The reader back at its mark. -/
def returnTo (m : ℕ) (hm : q.mark = some m) : Reader text where
  position := m
  limit := q.limit
  mark := q.mark
  position_le := (q.mark_le m hm).trans q.position_le
  limit_le := q.limit_le
  mark_le := by simp [hm]

/-- The reader at the start of the text, without a mark. -/
def rewind : Reader text where
  position := 0
  limit := q.limit
  mark := none
  position_le := Nat.zero_le _
  limit_le := q.limit_le
  mark_le := by simp

/-- What a request makes of the reader; it is refused where it would leave the
text, pass the limit or come back to no mark. -/
def step : Request → Option (Reader text)
  | .position p => if hp : p ≤ q.limit then some (q.moveTo p hp) else none
  | .limit l => if hl : l ≤ text.length then some (q.limitTo l hl) else none
  | .mark => some q.setMark
  | .reset =>
      match hm : q.mark with
      | none => none
      | some m => some (q.returnTo m hm)
  | .rewind => some q.rewind
  | .get n => some (q.advance n)
  | .skip n => if n ≤ q.remaining then some (q.advance n) else none

/-- What a list of requests makes of the reader. -/
def run : Reader text → List Request → Option (Reader text)
  | q, [] => some q
  | q, request :: rest => (q.step request).bind fun q => run q rest

theorem step_reset {m : ℕ} (hm : q.mark = some m) : q.step .reset = some (q.returnTo m hm) := by
  simp only [step]
  split
  · rename_i hnone
    cases hnone.symm.trans hm
  · rename_i m' hm'
    cases hm'.symm.trans hm
    rfl

theorem step_reset_of_none (hm : q.mark = none) : q.step .reset = none := by
  simp only [step]
  split
  · rfl
  · rename_i m' hm'
    cases hm'.symm.trans hm

/-! ## Slices -/

@[simp]
theorem length_taken (n : ℕ) : (q.taken n).length = min n q.remaining := by
  have := q.limit_le
  rw [taken, List.length_take, List.length_drop, remaining]
  omega

@[simp]
theorem remaining_advance (n : ℕ) : (q.advance n).remaining = q.remaining - n := by
  simp only [remaining, advance]
  omega

@[simp]
theorem taken_zero : q.taken 0 = [] := by simp [taken]

@[simp]
theorem advance_zero : q.advance 0 = q := by simp [advance]

/-- Two reads that follow each other take out one slice. -/
theorem taken_append (m n : ℕ) : q.taken m ++ (q.advance m).taken n = q.taken (m + n) := by
  have hlength : min (m + n) q.remaining = min m q.remaining + min n (q.remaining - m) := by
    omega
  rw [taken, taken, taken, remaining_advance, hlength, List.take_add, List.drop_drop]
  rfl

theorem advance_advance (m n : ℕ) : (q.advance m).advance n = q.advance (m + n) := by
  have hlength : min m q.remaining + min n (q.remaining - m) = min (m + n) q.remaining := by
    omega
  ext
  · show q.position + min m q.remaining + min n (q.advance m).remaining = _
    rw [remaining_advance, Nat.add_assoc, hlength]
    rfl
  · rfl
  · rfl

/-- Enough reads from the start take out the text. -/
theorem taken_start {n : ℕ} (hn : text.length ≤ n) : (start text).taken n = text := by
  have hremaining : (start text).remaining = text.length := Nat.sub_zero _
  rw [taken, hremaining, min_eq_right hn]
  exact List.take_length

theorem taken_rewind (n : ℕ) : q.rewind.taken n = text.take (min n q.limit) := rfl

/-- After any reads from a mark, the reader comes back to where it was marked. -/
theorem returnTo_advance (n : ℕ) : (q.setMark.advance n).returnTo q.position rfl = q.setMark := rfl

end Reader
