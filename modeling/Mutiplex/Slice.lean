/-
# Slices

A `Slice` points into memory it does not own and knows how many bytes of it are
meant.  Comparison, equality and the prefix test are three functions over
`memcmp`; of this only the documented sign is known, so it is an argument of the
model.
-/

import Mathlib
import Mutiplex.Lib.CMemory
import Mutiplex.Lib.Lexicographic
import Mutiplex.Lib.Transition

namespace Mutiplex

open CMemory Lexicographic Transition

/-- The members: the memory from `data_` on, and how much of it belongs to the
slice. -/
structure Slice where
  data : List UInt8
  size : ℕ
  inBounds : size ≤ data.length
  deriving DecidableEq, Repr

/-- `memcmp`: the first `n` bytes at two places. -/
abbrev Memcmp := List UInt8 → List UInt8 → ℕ → ℤ

namespace Slice

/-- The constructor from a `std::string`. -/
def ofString (s : List UInt8) : Slice where
  data := s
  size := s.length
  inBounds := le_rfl

/-- `to_string`. -/
def toString (s : Slice) : List UInt8 := s.data.take s.size

/-- `empty`. -/
def empty (s : Slice) : Bool := s.size == 0

/-- `remove_prefix`. -/
def removePrefix (s : Slice) (n : ℕ) : Except Fault Slice :=
  if hn : n ≤ s.size then
    .ok {
      data := s.data.drop n
      size := s.size - n
      inBounds := by
        have := s.inBounds
        rw [List.length_drop]
        omega }
  else .error .assertion

variable (memcmp : Memcmp)

/-- `compare`. -/
def compare (s b : Slice) : ℤ :=
  let minLen := if s.size < b.size then s.size else b.size
  let r := memcmp s.data b.data minLen
  if r = 0 then
    if s.size < b.size then -1
    else if s.size > b.size then 1
    else r
  else r

/-- `starts_with`. -/
def startsWith (s x : Slice) : Bool :=
  s.size ≥ x.size && memcmp s.data x.data x.size == 0

/-- `operator==`. -/
def equals (x y : Slice) : Bool :=
  x.size == y.size && memcmp x.data y.data x.size == 0

/-- `operator!=`. -/
def differs (x y : Slice) : Bool := !equals memcmp x y

end Slice

/-- The values of bytes as `unsigned char`. -/
def unsigned (bytes : List UInt8) : List ℕ := bytes.map UInt8.toNat

theorem unsigned_injective : Function.Injective unsigned :=
  List.map_injective_iff.mpr fun _ _ h => UInt8.toNat_inj.mp h

/-- What is documented of `memcmp`: inside both places its result has the sign of
the comparison as unsigned bytes. -/
structure IsMemcmp (memcmp : Memcmp) : Prop where
  neg_iff : ∀ x y n, n ≤ x.length → n ≤ y.length →
    (memcmp x y n < 0 ↔ unsigned (x.take n) < unsigned (y.take n))
  eq_zero_iff : ∀ x y n, n ≤ x.length → n ≤ y.length →
    (memcmp x y n = 0 ↔ x.take n = y.take n)

/-- A `memcmp`: the difference of the first bytes that differ. -/
def byteDifference : Memcmp
  | x :: xs, y :: ys, n + 1 =>
      if x = y then byteDifference xs ys n else x.toNat - y.toNat
  | _, _, _ => 0

theorem byteDifference_spec {x y : List UInt8} {n : ℕ} (hx : n ≤ x.length) (hy : n ≤ y.length) :
    (byteDifference x y n < 0 ↔ unsigned (x.take n) < unsigned (y.take n)) ∧
      (byteDifference x y n = 0 ↔ x.take n = y.take n) := by
  induction n generalizing x y with
  | zero => simp [byteDifference, unsigned]
  | succ n ih =>
      cases x with
      | nil => cases hx
      | cons a xs =>
          cases y with
          | nil => cases hy
          | cons b ys =>
              have hrest := ih (Nat.le_of_succ_le_succ hx) (Nat.le_of_succ_le_succ hy)
              simp only [byteDifference, List.take_succ_cons, unsigned, List.map_cons,
                List.cons_lt_cons_iff, List.cons.injEq]
              by_cases hab : a = b
              · rw [if_pos hab, hrest.1, hrest.2, hab, unsigned, unsigned]
                simp
              · have hne : a.toNat ≠ b.toNat := fun heq => hab (UInt8.toNat_inj.mp heq)
                rw [if_neg hab]
                constructor
                · omega
                · simp only [hab, false_and, iff_false]
                  omega

theorem isMemcmp_byteDifference : IsMemcmp byteDifference where
  neg_iff _ _ _ hx hy := (byteDifference_spec hx hy).1
  eq_zero_iff _ _ _ hx hy := (byteDifference_spec hx hy).2

namespace Slice

variable {memcmp : Memcmp}

theorem length_toString (s : Slice) : s.toString.length = s.size := by
  rw [toString, List.length_take, min_eq_left s.inBounds]

theorem take_toString {s : Slice} {n : ℕ} (hn : n ≤ s.size) :
    s.toString.take n = s.data.take n := by
  rw [toString, List.take_take, min_eq_left hn]

/-- Equality compares the bytes. -/
theorem equals_iff (hmemcmp : IsMemcmp memcmp) (x y : Slice) :
    equals memcmp x y = true ↔ x.toString = y.toString := by
  rw [equals, Bool.and_eq_true, beq_iff_eq, beq_iff_eq]
  constructor
  · rintro ⟨hsize, hzero⟩
    rw [hmemcmp.eq_zero_iff _ _ _ x.inBounds (hsize ▸ y.inBounds)] at hzero
    rw [toString, toString, hzero, hsize]
  · intro heq
    have hsize : x.size = y.size := by
      rw [← length_toString, heq, length_toString]
    refine ⟨hsize, (hmemcmp.eq_zero_iff _ _ _ x.inBounds (hsize ▸ y.inBounds)).mpr ?_⟩
    rw [toString, toString, ← hsize] at heq
    exact heq

/-- The prefix test compares with the first bytes. -/
theorem startsWith_iff_isPrefix (hmemcmp : IsMemcmp memcmp) (s x : Slice) :
    startsWith memcmp s x = true ↔ x.toString <+: s.toString := by
  rw [startsWith, Bool.and_eq_true, decide_eq_true_eq, beq_iff_eq, List.prefix_iff_eq_take,
    length_toString]
  constructor
  · rintro ⟨hsize, hzero⟩
    rw [hmemcmp.eq_zero_iff _ _ _ (hsize.trans s.inBounds) x.inBounds] at hzero
    rw [take_toString hsize, hzero, toString]
  · intro heq
    have hsize : x.size ≤ s.size := by
      have hlength := congrArg List.length heq
      rw [List.length_take, length_toString, length_toString] at hlength
      omega
    rw [take_toString hsize, toString] at heq
    exact ⟨hsize, (hmemcmp.eq_zero_iff _ _ _ (hsize.trans s.inBounds) x.inBounds).mpr heq.symm⟩

/-- The order of the bytes, which `compare` decides. -/
def key (s : Slice) : List ℕ := unsigned s.toString

theorem key_eq_iff (s b : Slice) : s.key = b.key ↔ s.toString = b.toString :=
  unsigned_injective.eq_iff

/-- `compare` first looks at the common length and then at the sizes. -/
theorem key_lt_iff (s b : Slice) :
    s.key < b.key ↔
      unsigned (s.data.take (min s.size b.size)) < unsigned (b.data.take (min s.size b.size)) ∨
        s.data.take (min s.size b.size) = b.data.take (min s.size b.size) ∧ s.size < b.size := by
  have hlength (t : Slice) : t.key.length = t.size := by
    rw [key, unsigned, List.length_map, length_toString]
  have htake {t : Slice} {n : ℕ} (hn : n ≤ t.size) : t.key.take n = unsigned (t.data.take n) := by
    rw [key, unsigned, ← List.map_take, take_toString hn, unsigned]
  rw [lt_iff_take, hlength, hlength, htake (min_le_left _ _), htake (min_le_right _ _),
    unsigned_injective.eq_iff]

theorem compare_neg_iff (hmemcmp : IsMemcmp memcmp) (s b : Slice) :
    compare memcmp s b < 0 ↔ s.key < b.key := by
  have hmin : (if s.size < b.size then s.size else b.size) = min s.size b.size := by
    split <;> omega
  have hs : min s.size b.size ≤ s.data.length := (min_le_left _ _).trans s.inBounds
  have hb : min s.size b.size ≤ b.data.length := (min_le_right _ _).trans b.inBounds
  rw [key_lt_iff, ← hmemcmp.neg_iff _ _ _ hs hb, ← hmemcmp.eq_zero_iff _ _ _ hs hb]
  simp only [compare, hmin]
  generalize memcmp s.data b.data (min s.size b.size) = r
  split
  · rename_i hzero
    subst hzero
    split
    · simp [*]
    · split <;> simp [*]
  · rename_i hne
    simp [hne]

theorem compare_eq_zero_iff (hmemcmp : IsMemcmp memcmp) (s b : Slice) :
    compare memcmp s b = 0 ↔ s.toString = b.toString := by
  rw [← equals_iff hmemcmp, equals, Bool.and_eq_true, beq_iff_eq, beq_iff_eq]
  simp only [compare]
  rcases lt_trichotomy s.size b.size with hlt | heq | hgt
  · rw [if_pos hlt, if_pos hlt]
    split
    · simp [hlt.ne]
    · simp [hlt.ne, *]
  · rw [heq, if_neg (lt_irrefl _), if_neg (lt_irrefl _), if_neg (lt_irrefl _), ite_self]
    simp
  · rw [if_neg hgt.not_gt, if_neg hgt.not_gt, if_pos hgt]
    split
    · simp [hgt.ne']
    · simp [hgt.ne', *]

theorem compare_pos_iff (hmemcmp : IsMemcmp memcmp) (s b : Slice) :
    0 < compare memcmp s b ↔ b.key < s.key := by
  have hneg := compare_neg_iff hmemcmp s b
  have hzero := compare_eq_zero_iff hmemcmp s b
  rw [← key_eq_iff] at hzero
  constructor
  · intro hpos
    rcases lt_trichotomy s.key b.key with hlt | heq | hgt
    · have := hneg.mpr hlt
      omega
    · have := hzero.mpr heq
      omega
    · exact hgt
  · intro hgt
    by_contra hle
    rcases lt_or_eq_of_le (not_lt.mp hle) with hlt | heq
    · exact absurd (hneg.mp hlt) hgt.asymm
    · exact absurd (hzero.mp heq) hgt.ne'

theorem compare_le_iff (hmemcmp : IsMemcmp memcmp) (s b : Slice) :
    compare memcmp s b ≤ 0 ↔ s.key ≤ b.key := by
  rw [← not_lt, compare_pos_iff hmemcmp, not_lt]

/-- What `remove_prefix` leaves. -/
theorem removePrefix_eq {s : Slice} {n : ℕ} (hn : n ≤ s.size) :
    ∃ rest, s.removePrefix n = .ok rest ∧ rest.toString = s.toString.drop n := by
  refine ⟨_, dif_pos hn, ?_⟩
  show (s.data.drop n).take (s.size - n) = (s.data.take s.size).drop n
  rw [List.drop_take]

theorem startsWith_iff_removePrefix (hmemcmp : IsMemcmp memcmp) (s p : Slice) :
    startsWith memcmp s p = true ↔
      ∃ rest, s.removePrefix p.size = .ok rest ∧ s.toString = p.toString ++ rest.toString := by
  rw [startsWith_iff_isPrefix hmemcmp]
  constructor
  · rintro ⟨tail, htail⟩
    have hsize : p.size ≤ s.size := by
      rw [← length_toString p, ← length_toString s, ← htail, List.length_append]
      omega
    obtain ⟨rest, hrest, hbytes⟩ := removePrefix_eq hsize
    refine ⟨rest, hrest, ?_⟩
    rw [hbytes, ← htail, ← length_toString p, List.drop_left]
  · rintro ⟨rest, -, hbytes⟩
    exact ⟨rest.toString, hbytes.symm⟩

theorem startsWith_iff_key (hmemcmp : IsMemcmp memcmp) (s p : Slice) :
    startsWith memcmp s p = true ↔ p.key <+: s.key := by
  rw [startsWith_iff_isPrefix hmemcmp, key, key, unsigned, unsigned,
    List.prefix_map_iff_of_injective]
  exact fun _ _ h => UInt8.toNat_inj.mp h

/-- **Slices are ordered as byte strings.**  With any `memcmp` that compares
unsigned bytes, the sign of `compare` is the order of a dictionary, a proper
prefix first; it is antisymmetric, transitive and total, and 0 exactly where
`operator==` holds; `starts_with` holds exactly if the slice is the prefix
followed by what `remove_prefix` leaves; and what lies between two slices with a
prefix starts with it as well. -/
theorem slices_are_ordered (hmemcmp : IsMemcmp memcmp) :
    (∀ a b : Slice,
      (compare memcmp a b < 0 ↔ unsigned a.toString < unsigned b.toString) ∧
      (compare memcmp a b = 0 ↔ a.toString = b.toString) ∧
      (0 < compare memcmp a b ↔ unsigned b.toString < unsigned a.toString)) ∧
    (∀ a b : Slice, compare memcmp a b = 0 ↔ equals memcmp a b = true) ∧
    (∀ a b : Slice, compare memcmp a b ≤ 0 → compare memcmp b a ≤ 0 →
      equals memcmp a b = true) ∧
    (∀ a b c : Slice, compare memcmp a b ≤ 0 → compare memcmp b c ≤ 0 →
      compare memcmp a c ≤ 0) ∧
    (∀ a b : Slice, compare memcmp a b ≤ 0 ∨ compare memcmp b a ≤ 0) ∧
    (∀ s p : Slice, startsWith memcmp s p = true ↔
      ∃ rest, s.removePrefix p.size = .ok rest ∧ s.toString = p.toString ++ rest.toString) ∧
    ∀ p a b c : Slice, startsWith memcmp a p = true → startsWith memcmp c p = true →
      compare memcmp a b ≤ 0 → compare memcmp b c ≤ 0 → startsWith memcmp b p = true := by
  refine ⟨?_, ?_, ?_, ?_, ?_, startsWith_iff_removePrefix hmemcmp, ?_⟩
  · intro a b
    exact ⟨compare_neg_iff hmemcmp a b, compare_eq_zero_iff hmemcmp a b,
      compare_pos_iff hmemcmp a b⟩
  · intro a b
    rw [compare_eq_zero_iff hmemcmp, equals_iff hmemcmp]
  · intro a b hab hba
    rw [compare_le_iff hmemcmp] at hab hba
    rw [equals_iff hmemcmp, ← key_eq_iff]
    exact le_antisymm hab hba
  · intro a b c hab hbc
    rw [compare_le_iff hmemcmp] at hab hbc ⊢
    exact hab.trans hbc
  · intro a b
    rw [compare_le_iff hmemcmp, compare_le_iff hmemcmp]
    exact le_total _ _
  · intro p a b c ha hc hab hbc
    rw [startsWith_iff_key hmemcmp] at ha hc ⊢
    rw [compare_le_iff hmemcmp] at hab hbc
    exact (ordConnected_isPrefix p.key).out ha hc ⟨hab, hbc⟩

/-- A byte from 128 on is greater than one below it, and a proper prefix comes
first. -/
theorem slices_are_ordered_of_high_byte :
    compare byteDifference (ofString [1, 127]) (ofString [1, 128]) < 0 ∧
      compare byteDifference (ofString [1]) (ofString [1, 0]) < 0 := by
  obtain ⟨hsign, -⟩ := slices_are_ordered isMemcmp_byteDifference
  exact ⟨(hsign _ _).1.mpr (by decide), (hsign _ _).1.mpr (by decide)⟩

end Slice

end Mutiplex
