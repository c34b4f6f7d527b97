/-
# The order of a dictionary

Lists over a linear order, compared item by item with a proper prefix first.  A
comparison can be done in two parts, over the common length and then by length;
and the lists that start with a given prefix lie together in the order.
-/

import Mathlib.Data.List.Lex
import Mathlib.Order.Interval.Set.OrdConnected

namespace Lexicographic

universe u

variable {α : Type u} [LinearOrder α]

/-- The comparison over the common length decides, and the length where it does
not. -/
theorem lt_iff_take (a b : List α) :
    a < b ↔ a.take (min a.length b.length) < b.take (min a.length b.length) ∨
      a.take (min a.length b.length) = b.take (min a.length b.length) ∧ a.length < b.length := by
  induction a generalizing b with
  | nil =>
      cases b with
      | nil => simp
      | cons y b => simp
  | cons x a ih =>
      cases b with
      | nil => simp
      | cons y b =>
          have hmin : min (x :: a).length (y :: b).length = min a.length b.length + 1 := by
            simp only [List.length_cons]
            omega
          rw [hmin, List.take_succ_cons, List.take_succ_cons, List.cons_lt_cons_iff,
            List.cons_lt_cons_iff, ih, List.length_cons, List.length_cons, List.cons.injEq,
            Nat.add_lt_add_iff_right]
          tauto

/-- The first parts decide if they have the same length and differ. -/
theorem append_lt_append_iff {a b x y : List α} (h : a.length = b.length) :
    a ++ x < b ++ y ↔ a < b ∨ a = b ∧ x < y := by
  induction a generalizing b with
  | nil =>
      obtain rfl : b = [] := List.length_eq_zero_iff.mp h.symm
      simp
  | cons head a ih =>
      cases b with
      | nil => cases h
      | cons head' b =>
          rw [List.cons_append, List.cons_append, List.cons_lt_cons_iff, List.cons_lt_cons_iff,
            ih (Nat.succ.inj h), List.cons.injEq]
          tauto

theorem cons_le_cons {x y : α} {a b : List α} (h : x :: a ≤ y :: b) :
    x < y ∨ x = y ∧ a ≤ b := by
  rcases lt_or_eq_of_le h with hlt | heq
  · exact (List.cons_lt_cons_iff.mp hlt).imp_right fun htail => ⟨htail.1, htail.2.le⟩
  · obtain ⟨rfl, rfl⟩ := List.cons.inj heq
    exact Or.inr ⟨rfl, le_rfl⟩

/-- What lies between two lists with a common prefix has it as well. -/
theorem isPrefix_of_between {p a b c : List α} (hpa : p <+: a) (hpc : p <+: c) (hab : a ≤ b)
    (hbc : b ≤ c) : p <+: b := by
  induction p generalizing a b c with
  | nil => exact List.nil_prefix
  | cons x p ih =>
      obtain ⟨a, rfl, hpa'⟩ := List.cons_prefix_iff.mp hpa
      obtain ⟨c, rfl, hpc'⟩ := List.cons_prefix_iff.mp hpc
      cases b with
      | nil => exact absurd hab (by simp)
      | cons y b =>
          rcases cons_le_cons hab with hlt | ⟨rfl, hab'⟩
          · rcases cons_le_cons hbc with hgt | ⟨rfl, -⟩
            · exact absurd hgt hlt.asymm
            · exact absurd hlt (lt_irrefl _)
          · rcases cons_le_cons hbc with hgt | ⟨-, hbc'⟩
            · exact absurd hgt (lt_irrefl _)
            · exact List.cons_prefix_cons.mpr ⟨rfl, ih hpa' hpc' hab' hbc'⟩

/-- The lists that start with `p` form an interval. -/
theorem ordConnected_isPrefix (p : List α) : Set.OrdConnected {a : List α | p <+: a} := by
  constructor
  intro a hpa c hpc b hb
  exact isPrefix_of_between hpa hpc hb.1 hb.2

end Lexicographic
