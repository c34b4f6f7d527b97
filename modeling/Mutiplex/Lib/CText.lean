/-
# Text in C

Strings are lists of bytes.  A function that takes a `const char*` sees them up to
the first NUL.  `strtol` skips white space, reads a sign and the digits that
follow, and stops at the limits of a `long`; `atoi` cuts what it returns down to
an `int` and reports no error.
-/

import Mathlib
import Mutiplex.Lib.Decimal

namespace CText

open Decimal

/-- What a `const char*` to the bytes stands for. -/
def cString (s : List UInt8) : List UInt8 := s.takeWhile (· != 0)

/-- `isspace`: the blank, and the control characters from TAB to CR. -/
def isSpace (c : UInt8) : Bool := c.toNat == 32 || (9 ≤ c.toNat && c.toNat ≤ 13)

/-- `strtol` in base 10; 45 is the minus sign and 43 the plus sign. -/
def strtol (s : List UInt8) : ℤ :=
  let s := s.dropWhile isSpace
  let digits := if s.head? = some 45 ∨ s.head? = some 43 then s.tail else s
  let n : ℤ := value (digits.takeWhile isDigit)
  if s.head? = some 45 then max (-2 ^ 63) (-n) else min (2 ^ 63 - 1) n

/-- `atoi`. -/
def atoi (s : List UInt8) : ℤ := (strtol s).bmod (2 ^ 32)

/-- What `snprintf` leaves of a text in a buffer of `size` bytes. -/
def snprintf (size : ℕ) (text : List UInt8) : List UInt8 := text.take (size - 1)

theorem cString_of_notMem {s : List UInt8} (h : 0 ∉ s) : cString s = s := by
  rw [cString, List.takeWhile_eq_self_iff]
  intro c hc
  rw [bne_iff_ne]
  exact fun heq => h (heq ▸ hc)

theorem snprintf_of_lt {size : ℕ} {text : List UInt8} (h : text.length < size) :
    snprintf size text = text :=
  List.take_of_length_le (by omega)

/-- A digit is neither white space nor a sign. -/
theorem isDigit_bounds {c : UInt8} (hc : isDigit c = true) : 48 ≤ c.toNat ∧ c.toNat ≤ 57 := by
  simpa [isDigit] using hc

/-- `atoi` reads the strings of digits whose value is an `int`. -/
theorem atoi_of_digits {s : List UInt8} (hdigits : ∀ c ∈ s, isDigit c = true)
    (hvalue : value s < 2 ^ 31) : atoi s = value s := by
  have hspace : s.dropWhile isSpace = s := by
    rw [List.dropWhile_eq_self_iff]
    intro hpos
    have hbounds := isDigit_bounds (hdigits _ (List.getElem_mem hpos))
    simp only [isSpace, Bool.or_eq_true, Bool.and_eq_true, beq_iff_eq, decide_eq_true_eq]
    omega
  have hsign (c : UInt8) (hc : c.toNat < 48) : s.head? ≠ some c := by
    intro hhead
    have hbounds := isDigit_bounds (hdigits c (List.mem_of_head? hhead))
    omega
  have hminus := hsign 45 (by decide)
  have hplus := hsign 43 (by decide)
  have hall : s.takeWhile isDigit = s := List.takeWhile_eq_self_iff.mpr hdigits
  have hstrtol : strtol s = value s := by
    simp only [strtol, hspace, hminus, hplus, or_self, if_false, hall]
    omega
  rw [atoi, hstrtol, Int.bmod_def]
  omega

end CText
