/-
# Decimal numbers in ASCII

Natural numbers as strings of digits, one byte a digit, and the value of such a
string.  A printed number has no leading zero, and reading it gives it back.
-/

import Mathlib.Data.Nat.Basic
import Mathlib.Tactic.Ring

namespace Decimal

/-- The character of a digit. -/
def digit (d : ℕ) : UInt8 := UInt8.ofNat (48 + d)

/-- `isdigit`. -/
def isDigit (c : UInt8) : Bool := 48 ≤ c.toNat && c.toNat ≤ 57

/-- The number a string of digits stands for. -/
def value (s : List UInt8) : ℕ := s.foldl (fun acc c => acc * 10 + (c.toNat - 48)) 0

/-- A number in decimal, without leading zeros. -/
def print (n : ℕ) : List UInt8 := (Nat.toDigits 10 n).map fun c => UInt8.ofNat c.toNat

theorem toNat_digit {d : ℕ} (hd : d < 10) : (digit d).toNat = 48 + d := by
  rw [digit, UInt8.toNat_ofNat', Nat.mod_eq_of_lt (by omega)]

theorem isDigit_digit {d : ℕ} (hd : d < 10) : isDigit (digit d) = true := by
  rw [isDigit, toNat_digit hd]
  simp
  omega

theorem print_of_lt {n : ℕ} (hn : n < 10) : print n = [digit n] := by
  rw [print, Nat.toDigits_of_lt_base hn, List.map_singleton, Nat.toNat_digitChar_of_lt_ten hn,
    digit]

/-- A number of several digits ends with the last of them. -/
theorem print_of_le {n : ℕ} (hn : 10 ≤ n) : print n = print (n / 10) ++ [digit (n % 10)] := by
  have hdigits := Nat.toDigits_append_toDigits (b := 10) (n := n / 10) (d := n % 10)
    (by decide) (by omega) (by omega)
  rw [Nat.div_add_mod] at hdigits
  rw [print, ← hdigits, List.map_append, ← print, ← print, print_of_lt (n := n % 10) (by omega)]

theorem value_append_singleton (s : List UInt8) (c : UInt8) :
    value (s ++ [c]) = value s * 10 + (c.toNat - 48) := by
  rw [value, List.foldl_append]
  rfl

/-- A printed number is read back. -/
theorem value_print (n : ℕ) : value (print n) = n := by
  induction n using Nat.strong_induction_on with
  | _ n ih =>
      rcases Nat.lt_or_ge n 10 with hlt | hge
      · rw [print_of_lt hlt, value, List.foldl_cons, List.foldl_nil, toNat_digit hlt]
        omega
      · rw [print_of_le hge, value_append_singleton, ih (n / 10) (by omega),
          toNat_digit (by omega)]
        omega

theorem isDigit_of_mem_print {n : ℕ} {c : UInt8} (hc : c ∈ print n) : isDigit c = true := by
  induction n using Nat.strong_induction_on with
  | _ n ih =>
      rcases Nat.lt_or_ge n 10 with hlt | hge
      · rw [print_of_lt hlt, List.mem_singleton] at hc
        exact hc ▸ isDigit_digit hlt
      · rw [print_of_le hge, List.mem_append, List.mem_singleton] at hc
        rcases hc with hc | rfl
        · exact ih (n / 10) (by omega) hc
        · exact isDigit_digit (by omega)

/-- Numbers below a power of ten have no more digits than it has zeros. -/
theorem length_print_le {n k : ℕ} (hk : 0 < k) (hn : n < 10 ^ k) : (print n).length ≤ k := by
  induction k generalizing n with
  | zero => omega
  | succ k ih =>
      rcases Nat.lt_or_ge n 10 with hlt | hge
      · rw [print_of_lt hlt, List.length_singleton]
        omega
      · have hpos : 0 < k := by
          rcases Nat.eq_zero_or_pos k with rfl | hpos
          · omega
          · exact hpos
        have hdiv : n / 10 < 10 ^ k := by
          rw [Nat.pow_succ] at hn
          omega
        rw [print_of_le hge, List.length_append, List.length_singleton]
        exact Nat.succ_le_succ (ih hpos hdiv)

end Decimal
