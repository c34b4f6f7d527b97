/-
# Printing and parsing addresses

Every address can be read back from its text, and every text in canonical form is
printed again as it was.
-/

import Mathlib
import Mutiplex.InetAddress.Basic

namespace Mutiplex

open CText Decimal

/-! ## Octets -/

@[simp]
theorem toNat_htons (n : UInt16) : (htons n).toNat = n.toNat % 256 * 256 + n.toNat / 256 := by
  have := n.toNat_lt
  rw [htons, UInt16.toNat_ofNat', Nat.mod_eq_of_lt (by omega)]

theorem htons_htons (n : UInt16) : htons (htons n) = n := by
  have := n.toNat_lt
  rw [← UInt16.toNat_inj, toNat_htons, toNat_htons]
  omega

theorem toNat_ofOctets {a b c d : ℕ} (ha : a < 256) (hb : b < 256) (hc : c < 256) (hd : d < 256) :
    (ofOctets a b c d).toNat = a + b * 2 ^ 8 + c * 2 ^ 16 + d * 2 ^ 24 := by
  rw [ofOctets, UInt32.toNat_ofNat', Nat.mod_eq_of_lt (by omega)]

/-- The quad of an address made of octets. -/
theorem inetNtop_ofOctets {a b c d : ℕ} (ha : a < 256) (hb : b < 256) (hc : c < 256)
    (hd : d < 256) : inetNtop (ofOctets a b c d) = dottedQuad a b c d := by
  rw [inetNtop, toNat_ofOctets ha hb hc hd]
  congr 1
  · omega
  · omega
  · omega
  · omega

/-- Every address is made of octets. -/
theorem exists_octets (ip : UInt32) :
    ∃ a b c d, a < 256 ∧ b < 256 ∧ c < 256 ∧ d < 256 ∧ ip = ofOctets a b c d := by
  have hip := ip.toNat_lt
  refine ⟨ip.toNat % 256, ip.toNat / 2 ^ 8 % 256, ip.toNat / 2 ^ 16 % 256, ip.toNat / 2 ^ 24,
    by omega, by omega, by omega, by omega, ?_⟩
  rw [← UInt32.toNat_inj, toNat_ofOctets (by omega) (by omega) (by omega) (by omega)]
  omega

/-! ## Dotted quads -/

theorem dottedQuad_eq_intercalate (a b c d : ℕ) :
    dottedQuad a b c d = [dot].intercalate [print a, print b, print c, print d] := by
  simp [dottedQuad, List.intercalate, List.intersperse]

/-- Numbers joined by dots consist of digits and dots. -/
theorem mem_intercalate_dot {parts : List (List UInt8)}
    (h : ∀ s ∈ parts, ∀ c ∈ s, isDigit c = true) :
    ∀ c ∈ [dot].intercalate parts, isDigit c = true ∨ c = dot := by
  induction parts with
  | nil => simp
  | cons s parts ih =>
      obtain ⟨hs, hparts⟩ := List.forall_mem_cons.mp h
      intro c hc
      cases parts with
      | nil =>
          rw [List.intercalate_singleton] at hc
          exact Or.inl (hs c hc)
      | cons next parts =>
          rw [List.intercalate_cons_cons, List.mem_append, List.mem_append,
            List.mem_singleton] at hc
          rcases hc with (hc | hc) | hc
          · exact Or.inl (hs c hc)
          · exact Or.inr hc
          · exact ih hparts c hc

theorem mem_dottedQuad {a b c d : ℕ} :
    ∀ ch ∈ dottedQuad a b c d, isDigit ch = true ∨ ch = dot := by
  rw [dottedQuad_eq_intercalate]
  apply mem_intercalate_dot
  intro s hs ch hch
  simp only [List.mem_cons, List.not_mem_nil, or_false] at hs
  rcases hs with rfl | rfl | rfl | rfl <;> exact isDigit_of_mem_print hch

/-- A quad fits into the `INET_ADDRSTRLEN` bytes it is printed into. -/
theorem length_inetNtop_lt (ip : UInt32) : (inetNtop ip).length < 16 := by
  obtain ⟨a, b, c, d, ha, hb, hc, hd, rfl⟩ := exists_octets ip
  have hlength {n : ℕ} (hn : n < 256) : (print n).length ≤ 3 :=
    length_print_le (by decide) (by omega)
  have hla := hlength ha
  have hlb := hlength hb
  have hlc := hlength hc
  have hld := hlength hd
  rw [inetNtop_ofOctets ha hb hc hd]
  simp only [dottedQuad, List.length_append, List.length_cons]
  omega

/-- Strings of digits and dots have neither a colon nor a NUL. -/
theorem notMem_of_chars {s : List UInt8} (h : ∀ c ∈ s, isDigit c = true ∨ c = dot) :
    colon ∉ s ∧ 0 ∉ s := by
  have hother {c : UInt8} (hdigit : ¬ isDigit c = true) (hdot : c ≠ dot) : c ∉ s := by
    intro hmem
    exact (h c hmem).elim hdigit hdot
  exact ⟨hother (by decide) (by decide), hother (by decide) (by decide)⟩

theorem notMem_inetNtop (ip : UInt32) : colon ∉ inetNtop ip ∧ 0 ∉ inetNtop ip :=
  notMem_of_chars mem_dottedQuad

/-- Two strings that split at the first colon split alike. -/
theorem split_unique {left left' right right' : List UInt8} (hleft : colon ∉ left)
    (hleft' : colon ∉ left') (h : left ++ colon :: right = left' ++ colon :: right') :
    left = left' ∧ right = right' := by
  have htake {l r : List UInt8} (hl : colon ∉ l) :
      (l ++ colon :: r).takeWhile (· != colon) = l := by
    rw [List.takeWhile_append_of_pos, List.takeWhile_cons_of_neg (by simp), List.append_nil]
    intro c hc
    rw [bne_iff_ne]
    exact fun heq => hl (heq ▸ hc)
  have heq : left = left' := by rw [← htake hleft, h, htake hleft']
  subst heq
  exact ⟨rfl, (List.cons.inj (List.append_cancel_left h)).2⟩

/-! ## A parser of dotted quads -/

/-- The value of an octet without leading zeros. -/
def octet (s : List UInt8) : Option ℕ :=
  if s.all isDigit = true ∧ value s < 256 ∧ print (value s) = s then some (value s) else none

/-- An `inet_pton` that accepts exactly what `inet_ntop` prints. -/
def canonicalPton (s : List UInt8) : Option UInt32 :=
  match s.splitOn dot with
  | [a, b, c, d] => do return ofOctets (← octet a) (← octet b) (← octet c) (← octet d)
  | _ => none

theorem octet_print {n : ℕ} (hn : n < 256) : octet (print n) = some n := by
  have hdigits : (print n).all isDigit = true :=
    List.all_eq_true.mpr fun _ hc => isDigit_of_mem_print hc
  rw [octet, value_print, if_pos ⟨hdigits, hn, rfl⟩]

theorem isDigit_of_octet {s : List UInt8} {n : ℕ} (h : octet s = some n) :
    ∀ c ∈ s, isDigit c = true := by
  unfold octet at h
  split at h
  next hoctet => exact List.all_eq_true.mp hoctet.1
  next => cases h

theorem dot_notMem_print (n : ℕ) : dot ∉ print n :=
  fun hmem => absurd (isDigit_of_mem_print hmem) (by decide)

theorem isInetPton_canonicalPton : IsInetPton canonicalPton where
  chars s ip h := by
    unfold canonicalPton at h
    split at h
    next a b c d hsplit =>
      simp only [Option.bind_eq_bind, Option.bind_eq_some_iff] at h
      obtain ⟨na, ha, nb, hb, nc, hc, nd, hd, -⟩ := h
      have hs : s = [dot].intercalate [a, b, c, d] := by
        rw [← hsplit, List.intercalate_splitOn]
      rw [hs]
      apply mem_intercalate_dot
      intro part hpart
      simp only [List.mem_cons, List.not_mem_nil, or_false] at hpart
      rcases hpart with rfl | rfl | rfl | rfl
      · exact isDigit_of_octet ha
      · exact isDigit_of_octet hb
      · exact isDigit_of_octet hc
      · exact isDigit_of_octet hd
    next => cases h
  inetNtop ip := by
    obtain ⟨a, b, c, d, ha, hb, hc, hd, rfl⟩ := exists_octets ip
    have hsplit : (dottedQuad a b c d).splitOn dot = [print a, print b, print c, print d] := by
      rw [dottedQuad_eq_intercalate, List.splitOn_intercalate]
      · intro l hl
        simp only [List.mem_cons, List.not_mem_nil, or_false] at hl
        rcases hl with rfl | rfl | rfl | rfl <;> exact dot_notMem_print _
      · exact List.cons_ne_nil _ _
    rw [inetNtop_ofOctets ha hb hc hd]
    simp only [canonicalPton, hsplit, octet_print ha, octet_print hb, octet_print hc,
      octet_print hd]
    rfl

namespace InetAddress

variable {inetPton : List UInt8 → Option UInt32}

/-! ## The parser -/

theorem parse_of_notMem {s : List UInt8} (h : colon ∉ s) :
    parse inetPton s = .error .invalidAddr := by
  have hnone : s.idxOf? colon = none := List.idxOf?_eq_none_iff.mpr h
  rw [parse, hnone]

theorem idxOf?_append {ip port : List UInt8} (h : colon ∉ ip) :
    (ip ++ colon :: port).idxOf? colon = some ip.length := by
  rw [List.idxOf?_eq_some_iff]
  refine ⟨by simp, by simp, ?_⟩
  intro j hj heq
  rw [List.getElem_append_left hj] at heq
  exact h (heq ▸ List.getElem_mem hj)

theorem drop_append {ip port : List UInt8} :
    (ip ++ colon :: port).drop (ip.length + 1) = port := by
  simp

/-- The parser looks at the parts before and after the first colon. -/
theorem parse_append_of_some {ip port : List UInt8} {quad : UInt32} (h : colon ∉ ip)
    (hquad : inetPton (cString ip) = some quad) :
    parse inetPton (ip ++ colon :: port) =
      .ok ⟨htons (UInt16.ofNat (atoi (cString port) % 2 ^ 16).toNat), quad⟩ := by
  simp only [parse, idxOf?_append h, List.take_left, drop_append, hquad]

theorem parse_append_of_none {ip port : List UInt8} (h : colon ∉ ip)
    (hquad : inetPton (cString ip) = none) :
    parse inetPton (ip ++ colon :: port) = .error .invalidIp := by
  simp only [parse, idxOf?_append h, List.take_left, hquad]

/-- A port in digits is read as its value. -/
theorem hostPort_of_digits {port : List UInt8} (hdigits : ∀ c ∈ port, isDigit c = true)
    (hvalue : value port ≤ 65535) (ip : UInt32) :
    (hostPort ⟨htons (UInt16.ofNat (atoi (cString port) % 2 ^ 16).toNat), ip⟩).toNat =
      value port := by
  have hnul : 0 ∉ port := (notMem_of_chars fun c hc => Or.inl (hdigits c hc)).2
  have hatoi := atoi_of_digits hdigits (by omega)
  rw [cString_of_notMem hnul, hatoi, hostPort, ntohs, htons_htons, UInt16.toNat_ofNat']
  omega

/-! ## The round trip -/

/-- The buffer of 32 bytes does not cut the text. -/
theorem toString_eq (addr : InetAddress) :
    addr.toString = inetNtop addr.ip ++ colon :: print addr.hostPort.toNat := by
  have hquad := length_inetNtop_lt addr.ip
  have hport : (print addr.hostPort.toNat).length ≤ 5 :=
    length_print_le (by decide) (by have := addr.hostPort.toNat_lt; omega)
  apply snprintf_of_lt
  rw [List.length_append, List.length_cons]
  omega

theorem parse_toString (hpton : IsInetPton inetPton) (addr : InetAddress) :
    parse inetPton addr.toString = .ok addr := by
  obtain ⟨hcolon, hnul⟩ := notMem_inetNtop addr.ip
  have hquad : inetPton (cString (inetNtop addr.ip)) = some addr.ip := by
    rw [cString_of_notMem hnul, hpton.inetNtop]
  rw [toString_eq, parse_append_of_some hcolon hquad]
  have hdigits : ∀ c ∈ print addr.hostPort.toNat, isDigit c = true :=
    fun _ hc => isDigit_of_mem_print hc
  have hvalue : value (print addr.hostPort.toNat) ≤ 65535 := by
    have := addr.hostPort.toNat_lt
    rw [value_print]
    omega
  have hport := hostPort_of_digits hdigits hvalue addr.ip
  rw [value_print, UInt16.toNat_inj] at hport
  have hsame := congrArg htons hport
  simp only [hostPort, ntohs, htons_htons] at hsame
  simp only [hostPort, ntohs]
  rw [hsame]

/-- **Addresses and their texts determine each other.**  Every address is read back
from its text, which the buffer never cuts, so that different addresses have
different texts; and every canonical text, with octets up to 255 and a port up to
65535 in decimal without leading zeros, is the text of the address it is read as. -/
theorem address_round_trip (hpton : IsInetPton inetPton) :
    (∀ addr, parse inetPton (toString addr) = .ok addr) ∧
      (∀ addr : InetAddress,
        addr.toString = inetNtop addr.ip ++ colon :: print addr.hostPort.toNat) ∧
      Function.Injective toString ∧
      ∀ a b c d p : ℕ, a ≤ 255 → b ≤ 255 → c ≤ 255 → d ≤ 255 → p ≤ 65535 →
        ∃ addr, parse inetPton (dottedQuad a b c d ++ colon :: print p) = .ok addr ∧
          addr.toString = dottedQuad a b c d ++ colon :: print p := by
  refine ⟨parse_toString hpton, toString_eq, ?_, ?_⟩
  · intro addr addr' heq
    have hparse := parse_toString hpton addr
    rw [heq, parse_toString hpton addr'] at hparse
    exact (Except.ok.inj hparse).symm
  · intro a b c d p ha hb hc hd hp
    let addr : InetAddress := ⟨htons (UInt16.ofNat p), ofOctets a b c d⟩
    have hport : addr.hostPort.toNat = p := by
      show (htons (htons (UInt16.ofNat p))).toNat = p
      rw [htons_htons, UInt16.toNat_ofNat', Nat.mod_eq_of_lt (by omega)]
    have htext : addr.toString = dottedQuad a b c d ++ colon :: print p := by
      rw [toString_eq, hport]
      show inetNtop (ofOctets a b c d) ++ _ = _
      rw [inetNtop_ofOctets (by omega) (by omega) (by omega) (by omega)]
    exact ⟨addr, htext ▸ parse_toString hpton addr, htext⟩

/-- The address of the repository's test, 127.0.0.1:443. -/
theorem address_round_trip_of_localhost :
    ∃ addr, parse canonicalPton (dottedQuad 127 0 0 1 ++ colon :: print 443) = .ok addr ∧
      addr.toString = dottedQuad 127 0 0 1 ++ colon :: print 443 :=
  (address_round_trip isInetPton_canonicalPton).2.2.2 127 0 0 1 443 (by decide) (by decide)
    (by decide) (by decide) (by decide)

end InetAddress

end Mutiplex
