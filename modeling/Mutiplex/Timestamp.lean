/-
# Timestamps

A timestamp is a number of microseconds since the epoch.  Its text has the parts
of the local time in columns, the year first and the microseconds last.  What the
local time of a second is, is up to the zone: `localtime_r` is a parameter.
-/

import Mathlib.Data.UInt
import Mutiplex.Lib.CText
import Mutiplex.Lib.Columns

namespace Mutiplex

open Decimal

/-- `struct tm`, with the ranges that `localtime_r` keeps to. -/
structure Tm where
  tmSec : ℕ
  tmMin : ℕ
  tmHour : ℕ
  tmMday : ℕ
  tmMon : ℕ
  tmYear : ℕ
  sec_le : tmSec ≤ 60
  min_le : tmMin ≤ 59
  hour_le : tmHour ≤ 23
  mday_le : tmMday ≤ 31
  mon_le : tmMon ≤ 11

/-- The parts that `to_string` prints, as it prints them. -/
def Tm.parts (tm : Tm) : List ℕ :=
  [tm.tmYear + 1900, tm.tmMon + 1, tm.tmMday, tm.tmHour, tm.tmMin, tm.tmSec]

namespace Timestamp

/-- `MICROSECONDS_PER_SECOND`. -/
def microsecondsPerSecond : ℕ := 1000 * 1000

/-- The columns of `"%04d-%02d-%02d %02d:%02d:%02d.%06lu"`. -/
def format : Format :=
  [(4, [45]), (2, [45]), (2, [32]), (2, [58]), (2, [58]), (2, [46]), (6, [])]

variable (localtime : ℕ → Tm) (timestamp timestamp' : UInt64)

/-- `tv_sec` and `tv_usec`. -/
def seconds : ℕ := timestamp.toNat / microsecondsPerSecond

@[inherit_doc seconds]
def microseconds : ℕ := timestamp.toNat % microsecondsPerSecond

/-- The arguments of `snprintf`. -/
def parts : List ℕ := (localtime (seconds timestamp)).parts ++ [microseconds timestamp]

/-- `to_string`, with its buffer of 64 bytes. -/
def toString : List UInt8 := CText.snprintf 64 (row format (parts localtime timestamp))

variable {localtime timestamp timestamp'}

theorem fits_parts (h : (localtime (seconds timestamp)).tmYear + 1900 < 10000) :
    Fits format (parts localtime timestamp) := by
  have husec : microseconds timestamp < 1000 * 1000 := Nat.mod_lt _ (by decide)
  have hsec := (localtime (seconds timestamp)).sec_le
  have hmin := (localtime (seconds timestamp)).min_le
  have hhour := (localtime (seconds timestamp)).hour_le
  have hmday := (localtime (seconds timestamp)).mday_le
  have hmon := (localtime (seconds timestamp)).mon_le
  refine .cons ⟨by decide, h⟩ (.cons ⟨by decide, ?_⟩ (.cons ⟨by decide, ?_⟩
    (.cons ⟨by decide, ?_⟩ (.cons ⟨by decide, ?_⟩ (.cons ⟨by decide, ?_⟩
      (.cons ⟨by decide, husec⟩ .nil))))))
  all_goals
    show _ < 100
    omega

theorem toString_eq (h : (localtime (seconds timestamp)).tmYear + 1900 < 10000) :
    toString localtime timestamp = row format (parts localtime timestamp) := by
  refine CText.snprintf_of_lt ?_
  rw [(fits_parts h).length_row]
  decide

/-- **Texts of timestamps sort like the times they show.** Up to the year 9999 a text
has 26 bytes, none cut off, and the byte order of two texts is the order of their
parts, the year first.  In a zone whose clock is never turned back it is the order
of the timestamps. -/
theorem to_string_sorts (localtime : ℕ → Tm) (timestamp timestamp' : UInt64)
    (h : (localtime (seconds timestamp)).tmYear + 1900 < 10000)
    (h' : (localtime (seconds timestamp')).tmYear + 1900 < 10000) :
    (toString localtime timestamp).length = 26 ∧
      (codes (toString localtime timestamp) < codes (toString localtime timestamp') ↔
        parts localtime timestamp < parts localtime timestamp') ∧
      ((StrictMono fun second => (localtime second).parts) →
        (codes (toString localtime timestamp) < codes (toString localtime timestamp') ↔
          timestamp < timestamp')) := by
  have hsorts : codes (toString localtime timestamp) < codes (toString localtime timestamp') ↔
      parts localtime timestamp < parts localtime timestamp' := by
    rw [toString_eq h, toString_eq h']
    exact (fits_parts h).row_lt_iff (fits_parts h')
  refine ⟨?_, hsorts, fun hmono => ?_⟩
  · rw [toString_eq h, (fits_parts h).length_row]
    rfl
  · have hless : (localtime (seconds timestamp)).parts < (localtime (seconds timestamp')).parts ↔
        seconds timestamp < seconds timestamp' := hmono.lt_iff_lt
    have hsame : (localtime (seconds timestamp)).parts = (localtime (seconds timestamp')).parts ↔
        seconds timestamp = seconds timestamp' := hmono.injective.eq_iff
    have hlength : (localtime (seconds timestamp)).parts.length =
        (localtime (seconds timestamp')).parts.length := rfl
    have hlast : [microseconds timestamp] < [microseconds timestamp'] ↔
        microseconds timestamp < microseconds timestamp' := by
      rw [List.cons_lt_cons_iff]
      simp
    rw [hsorts, parts, parts, Lexicographic.append_lt_append_iff hlength, hlast, hless, hsame,
      UInt64.lt_iff_toNat_lt]
    simp only [seconds, microseconds, microsecondsPerSecond]
    omega

/-- `localtime_r` in Greenwich, as far as the first day goes: on each later day it
is the first of January of another year. -/
def firstDay (second : ℕ) : Tm where
  tmSec := second % 60
  tmMin := second / 60 % 60
  tmHour := second / 3600 % 24
  tmMday := 1
  tmMon := 0
  tmYear := 70 + second / 86400
  sec_le := by omega
  min_le := by omega
  hour_le := by omega
  mday_le := by decide
  mon_le := by decide

/-- Its clock is never turned back. -/
theorem strictMono_firstDay : StrictMono fun second => (firstDay second).parts := by
  refine strictMono_nat_of_lt_succ fun second => ?_
  have hcarry (second : ℕ) : second / 60 = 60 * (second / 3600) + second / 60 % 60 ∧
      second / 3600 = 24 * (second / 86400) + second / 3600 % 24 := by omega
  have hbefore := hcarry second
  have hafter := hcarry (second + 1)
  simp only [Tm.parts, firstDay, List.cons_lt_cons_iff, lt_irrefl, true_and, false_or]
  omega

/-- The last microsecond of the first minute and the one after it. -/
theorem to_string_sorts_of_first_day :
    (toString firstDay 59999999).length = 26 ∧
      (parts firstDay 59999999 < parts firstDay 60000000) ∧
      codes (toString firstDay 59999999) < codes (toString firstDay 60000000) := by
  obtain ⟨hlength, hsorts, htime⟩ :=
    to_string_sorts firstDay 59999999 60000000 (by decide) (by decide)
  have hless := (htime strictMono_firstDay).mpr (by decide)
  exact ⟨hlength, hsorts.mp hless, hless⟩

end Timestamp

end Mutiplex
