/-
# Numbers in columns

Decimal numbers padded with zeros to the width of their column, as `printf` does
with `%04d`, and rows of such columns with a text behind each.  Rows of the same
columns come in the order of a dictionary exactly when their numbers do.
-/

import Mutiplex.Lib.Decimal
import Mutiplex.Lib.Lexicographic

namespace Decimal

open Lexicographic

/-- The bytes as numbers, by which texts are compared. -/
def codes (s : List UInt8) : List ℕ := s.map UInt8.toNat

@[simp]
theorem codes_append (s t : List UInt8) : codes (s ++ t) = codes s ++ codes t := List.map_append

@[simp]
theorem length_codes (s : List UInt8) : (codes s).length = s.length := List.length_map _

/-- `%0wd`: at least `width` digits. -/
def padded (width n : ℕ) : List UInt8 :=
  List.replicate (width - (print n).length) (digit 0) ++ print n

theorem length_padded {width n : ℕ} (hwidth : 0 < width) (hn : n < 10 ^ width) :
    (padded width n).length = width := by
  rw [padded, List.length_append, List.length_replicate]
  exact Nat.sub_add_cancel (length_print_le hwidth hn)

theorem padded_one {n : ℕ} (hn : n < 10) : padded 1 n = [digit n] := by
  rw [padded, print_of_lt hn]
  rfl

/-- The last digit stands for itself. -/
theorem padded_succ {width : ℕ} (hwidth : 0 < width) (n : ℕ) :
    padded (width + 1) n = padded width (n / 10) ++ [digit (n % 10)] := by
  rcases Nat.lt_or_ge n 10 with hlt | hge
  · obtain ⟨rest, rfl⟩ := Nat.exists_eq_succ_of_ne_zero hwidth.ne'
    rw [padded, padded, Nat.div_eq_of_lt hlt, Nat.mod_eq_of_lt hlt, print_of_lt hlt,
      print_of_lt (n := 0) (by decide), List.length_singleton, List.length_singleton,
      Nat.succ_eq_add_one, Nat.add_sub_cancel, Nat.add_sub_cancel, List.replicate_succ']
  · rw [padded, padded, print_of_le hge, List.length_append, List.length_singleton,
      Nat.add_sub_add_right, List.append_assoc]

theorem codes_digit {d : ℕ} (hd : d < 10) : codes [digit d] = [48 + d] := by
  rw [codes, List.map_singleton, toNat_digit hd]

/-- Numbers in order are told apart. -/
theorem eq_iff_of_lt_iff {f : ℕ → List ℕ} {m n : ℕ} (hlt : f m < f n ↔ m < n)
    (hgt : f n < f m ↔ n < m) : f m = f n ↔ m = n := by
  refine ⟨fun h => ?_, fun h => by rw [h]⟩
  have hnot : ¬ m < n := fun hmn => lt_irrefl _ (h ▸ hlt.mpr hmn)
  have hnot' : ¬ n < m := fun hnm => lt_irrefl _ (h ▸ hgt.mpr hnm)
  omega

/-- Numbers of one column come in their order. -/
theorem padded_lt_iff {width m n : ℕ} (hwidth : 0 < width) (hm : m < 10 ^ width)
    (hn : n < 10 ^ width) : codes (padded width m) < codes (padded width n) ↔ m < n := by
  induction width, hwidth using Nat.le_induction generalizing m n with
  | base =>
      rw [padded_one (by simpa using hm), padded_one (by simpa using hn),
        codes_digit (by simpa using hm), codes_digit (by simpa using hn), List.cons_lt_cons_iff]
      simp
  | succ width hwidth ih =>
      have hm' : m / 10 < 10 ^ width := by
        rw [Nat.pow_succ] at hm
        omega
      have hn' : n / 10 < 10 ^ width := by
        rw [Nat.pow_succ] at hn
        omega
      have hfirst := ih hm' hn'
      have hsame : codes (padded width (m / 10)) = codes (padded width (n / 10)) ↔
          m / 10 = n / 10 :=
        eq_iff_of_lt_iff (f := fun k => codes (padded width k)) hfirst (ih hn' hm')
      have hlength : (codes (padded width (m / 10))).length =
          (codes (padded width (n / 10))).length := by
        rw [length_codes, length_codes, length_padded hwidth hm', length_padded hwidth hn']
      rw [padded_succ hwidth, padded_succ hwidth, codes_append, codes_append,
        append_lt_append_iff hlength, hfirst, hsame, codes_digit (Nat.mod_lt _ (by decide)),
        codes_digit (Nat.mod_lt _ (by decide)), List.cons_lt_cons_iff]
      simp only [Nat.add_lt_add_iff_left, List.lt_irrefl, and_false, or_false]
      omega

/-- The widths of the columns and the texts behind them. -/
abbrev Format := List (ℕ × List UInt8)

/-- The numbers in their columns. -/
def row : Format → List ℕ → List UInt8
  | (width, text) :: columns, n :: numbers => padded width n ++ (text ++ row columns numbers)
  | _, _ => []

/-- Each number has a column, and fits in it. -/
def Fits (columns : Format) (numbers : List ℕ) : Prop :=
  List.Forall₂ (fun column n => 0 < column.1 ∧ n < 10 ^ column.1) columns numbers

theorem Fits.length_row {columns : Format} {numbers : List ℕ} (h : Fits columns numbers) :
    (row columns numbers).length = (columns.map fun column => column.1 + column.2.length).sum := by
  induction h with
  | nil => rfl
  | @cons column n columns numbers hfits hrest ih =>
      obtain ⟨width, text⟩ := column
      rw [row, List.length_append, List.length_append, length_padded hfits.1 hfits.2, ih,
        List.map_cons, List.sum_cons, Nat.add_assoc]

/-- **Rows come in the order of their numbers.** -/
theorem Fits.row_lt_iff {columns : Format} {numbers numbers' : List ℕ} (h : Fits columns numbers)
    (h' : Fits columns numbers') :
    codes (row columns numbers) < codes (row columns numbers') ↔ numbers < numbers' := by
  induction h generalizing numbers' with
  | nil =>
      cases h'
      simp [row]
  | @cons column n columns numbers hfits hrest ih =>
      obtain ⟨width, text⟩ := column
      cases h' with
      | @cons _ n' _ numbers' hfits' hrest' =>
          have hlt : codes (padded width n) < codes (padded width n') ↔ n < n' :=
            padded_lt_iff hfits.1 hfits.2 hfits'.2
          have hsame : codes (padded width n) = codes (padded width n') ↔ n = n' :=
            eq_iff_of_lt_iff (f := fun k => codes (padded width k)) hlt
              (padded_lt_iff hfits.1 hfits'.2 hfits.2)
          have hlength : (codes (padded width n)).length = (codes (padded width n')).length := by
            rw [length_codes, length_codes, length_padded hfits.1 hfits.2,
              length_padded hfits.1 hfits'.2]
          simp only [row, codes_append]
          rw [append_lt_append_iff hlength, append_lt_append_iff rfl, hlt, hsame, ih hrest',
            List.cons_lt_cons_iff]
          simp

end Decimal
