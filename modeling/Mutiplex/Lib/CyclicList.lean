/-
# Cyclic windows of a list

A block of memory used as a ring is read and written through windows that run
off its end and continue at its start.  `window block start count` is such a
view, and `overwrite` replaces a run of cells in place.  The lemmas relate the
two pieces a program copies (up to the end, then from the start) to the one
window they make up.
-/

import Mathlib.Data.List.Rotate

namespace CyclicList

universe u

variable {α : Type u}

/-- `count` cells starting at `start`, wrapping at the end of the block. -/
def window (block : List α) (start count : ℕ) : List α :=
  (block.rotate start).take count

/-- Replace the cells from `offset` on by those of `source`. -/
def overwrite (block : List α) (offset : ℕ) (source : List α) : List α :=
  block.take offset ++ source ++ block.drop (offset + source.length)

theorem length_window {block : List α} {start count : ℕ} (h : count ≤ block.length) :
    (window block start count).length = count := by
  simp [window, h]

theorem window_zero (block : List α) (start : ℕ) : window block start 0 = [] := by
  simp [window]

theorem window_mod (block : List α) (start count : ℕ) :
    window block (start % block.length) count = window block start count := by
  simp [window, List.rotate_mod]

theorem length_overwrite {block source : List α} {offset : ℕ}
    (h : offset + source.length ≤ block.length) :
    (overwrite block offset source).length = block.length := by
  simp only [overwrite, List.length_append, List.length_take, List.length_drop]
  omega

theorem getElem?_overwrite {block source : List α} {offset : ℕ}
    (h : offset + source.length ≤ block.length) (i : ℕ) :
    (overwrite block offset source)[i]? =
      if offset ≤ i ∧ i < offset + source.length then source[i - offset]? else block[i]? := by
  have htake : (block.take offset).length = offset := by
    rw [List.length_take]
    omega
  rw [overwrite, List.append_assoc]
  by_cases hlow : i < offset
  · rw [List.getElem?_append_left (by omega), List.getElem?_take_of_lt hlow, if_neg (by omega)]
  · rw [List.getElem?_append_right (by omega), htake]
    by_cases hmid : i < offset + source.length
    · rw [List.getElem?_append_left (by omega), if_pos (by omega)]
    · rw [List.getElem?_append_right (by omega), List.getElem?_drop, if_neg (by omega)]
      congr 1
      omega

/-- What lies before the replaced cells stays. -/
theorem take_overwrite {block source : List α} {offset k : ℕ} (hk : k ≤ offset)
    (hoffset : offset ≤ block.length) :
    (overwrite block offset source).take k = block.take k := by
  rw [overwrite, List.append_assoc, List.take_append_of_le_length (by simp; omega),
    List.take_take, min_eq_left hk]

/-- The replaced cells are those of the source. -/
theorem take_drop_overwrite {block source : List α} {offset : ℕ}
    (hoffset : offset ≤ block.length) :
    ((overwrite block offset source).drop offset).take source.length = source := by
  have htake : (block.take offset).length = offset := by
    rw [List.length_take]
    omega
  rw [overwrite, List.append_assoc, List.drop_append_of_le_length (by omega),
    List.drop_of_length_le (by omega), List.nil_append, List.take_left]

/-- What a run of cells is replaced by follows what lies before it. -/
theorem take_add_overwrite {block source : List α} {offset : ℕ}
    (hoffset : offset ≤ block.length) :
    (overwrite block offset source).take (offset + source.length) =
      block.take offset ++ source := by
  have hlength : (block.take offset ++ source).length = offset + source.length := by
    rw [List.length_append, List.length_take]
    omega
  rw [overwrite, ← hlength, List.take_left]

theorem getElem?_window {block : List α} {start count i : ℕ} (hi : i < count)
    (hlen : i < block.length) :
    (window block start count)[i]? = block[(i + start) % block.length]? := by
  rw [window, List.getElem?_take_of_lt hi, List.getElem?_rotate hlen]

/-- A window is the piece up to the end of the block and the piece from its
start. -/
theorem window_eq_pieces {block : List α} {start count : ℕ} (hstart : start ≤ block.length)
    (hcount : count ≤ block.length) :
    window block start count =
      (block.drop start).take (min count (block.length - start)) ++
        block.take (count - min count (block.length - start)) := by
  rw [window, List.rotate_eq_drop_append_take hstart, List.take_append, List.length_drop,
    List.take_take]
  congr 1
  · rw [List.take_eq_take_iff, List.length_drop]
    omega
  · rw [List.take_eq_take_iff]
    omega

/-- Dropping from the front of a window moves its start. -/
theorem drop_window {block : List α} {start count k : ℕ} (hk : k ≤ count)
    (hcount : count ≤ block.length) :
    (window block start count).drop k = window block (start + k) (count - k) := by
  apply List.ext_getElem?
  intro i
  rw [List.getElem?_drop]
  by_cases hi : i < count - k
  · rw [getElem?_window (by omega) (by omega), getElem?_window hi (by omega)]
    congr 2
    omega
  · rw [List.getElem?_eq_none (by rw [length_window hcount]; omega),
      List.getElem?_eq_none (by rw [length_window (by omega)]; omega)]

/-- Taking from the front of a window shortens it. -/
theorem take_window {block : List α} {start count k : ℕ} (hk : k ≤ count) :
    (window block start count).take k = window block start k := by
  rw [window, window, List.take_take, min_eq_left hk]

/-- An index of the ring wraps at most once. -/
theorem mod_cases {k n : ℕ} (h : k < 2 * n) :
    k < n ∧ k % n = k ∨ n ≤ k ∧ k % n = k - n := by
  rcases Nat.lt_or_ge k n with hlt | hge
  · exact Or.inl ⟨hlt, Nat.mod_eq_of_lt hlt⟩
  · exact Or.inr ⟨hge, by rw [Nat.mod_eq_sub_mod hge, Nat.mod_eq_of_lt (by omega)]⟩

/-- Writing `source` in two pieces at the free end of a window appends it to
the window. -/
theorem window_append (block source : List α) (start count : ℕ) {free split : ℕ}
    (hstart : start < block.length) (hfits : count + source.length ≤ block.length)
    (hfree : free = (start + count) % block.length)
    (hsplit : split = min source.length (block.length - free)) :
    window (overwrite (overwrite block free (source.take split)) 0 (source.drop split))
        start (count + source.length) =
      window block start count ++ source := by
  have hfreeCases := mod_cases (k := start + count) (n := block.length) (by omega)
  rw [← hfree] at hfreeCases
  have hfirst : (source.take split).length = split := by
    rw [List.length_take]
    omega
  have hrest : (source.drop split).length = source.length - split := List.length_drop ..
  have hinner : free + (source.take split).length ≤ block.length := by omega
  have hlength := length_overwrite hinner
  have houter : 0 + (source.drop split).length ≤
      (overwrite block free (source.take split)).length := by omega
  -- Both sides have the same length, so it is enough to compare them index by index.
  apply List.ext_getElem?
  intro i
  by_cases hi : i < count + source.length
  · have hiCases := mod_cases (k := i + start) (n := block.length) (by omega)
    rw [getElem?_window hi (by rw [length_overwrite houter]; omega), length_overwrite houter,
      hlength, getElem?_overwrite houter, getElem?_overwrite hinner, hfirst, hrest]
    by_cases hold : i < count
    · rw [List.getElem?_append_left (by rw [length_window (by omega)]; omega),
        getElem?_window hold (by omega), if_neg (by omega), if_neg (by omega)]
    · rw [List.getElem?_append_right (by rw [length_window (by omega)]; omega),
        length_window (by omega)]
      by_cases hpiece : i - count < split
      · rw [if_neg (by omega), if_pos (by omega), List.getElem?_take_of_lt (by omega)]
        congr 1
        omega
      · rw [if_pos (by omega), List.getElem?_drop]
        congr 1
        omega
  · rw [List.getElem?_eq_none (by
        rw [length_window (by rw [length_overwrite houter]; omega)]; omega),
      List.getElem?_eq_none (by
        rw [List.length_append, length_window (by omega)]; omega)]

end CyclicList
