/-
# What the address parser accepts

The grammar of an address is a quad for `inet_pton`, a colon and a port in decimal
digits up to 65535.  The parser accepts every such string and reads its port, but
it accepts others as well: it hands `inet_pton` only what comes before the first
NUL, and what follows the colon goes through `atoi` without a check.
-/

import Mathlib
import Mutiplex.InetAddress.Text

namespace Mutiplex

open CText Decimal

namespace InetAddress

variable (inetPton : List UInt8 → Option UInt32)

/-! ## The grammar -/

/-- A port: one digit or more, with a value of 16 bits. -/
def IsPort (s : List UInt8) : Prop :=
  s ≠ [] ∧ (∀ c ∈ s, isDigit c = true) ∧ value s ≤ 65535

instance (s : List UInt8) : Decidable (IsPort s) :=
  inferInstanceAs (Decidable (_ ∧ _ ∧ _))

/-- The string is a quad that `inet_pton` accepts, a colon and a port. -/
def IsAddress (s quad port : List UInt8) : Prop :=
  s = quad ++ colon :: port ∧ (inetPton quad).isSome ∧ IsPort port

/-- The parser succeeds exactly on the addresses, and reads the value of the port. -/
def MeetsGrammar (s : List UInt8) : Prop :=
  ((∃ addr, parse inetPton s = .ok addr) ↔ ∃ quad port, IsAddress inetPton s quad port) ∧
    ∀ addr quad port, parse inetPton s = .ok addr → IsAddress inetPton s quad port →
      addr.hostPort.toNat = value port

/-- What the parser does not check: where `inet_pton` accepts the part before the
first colon up to its first NUL, that part has no NUL and a port follows. -/
def PortChecked (s : List UInt8) : Prop :=
  ∀ quad port, s = quad ++ colon :: port → colon ∉ quad →
    (inetPton (cString quad)).isSome → 0 ∉ quad ∧ IsPort port

variable {inetPton}

/-! ## The parser against the grammar -/

/-- The quad of an address ends at the first colon. -/
theorem isAddress_append_iff (hpton : IsInetPton inetPton) {ip port : List UInt8}
    (hip : colon ∉ ip) {quad digits : List UInt8} :
    IsAddress inetPton (ip ++ colon :: port) quad digits ↔
      (quad = ip ∧ digits = port) ∧ (inetPton ip).isSome ∧ IsPort port := by
  constructor
  · rintro ⟨hsplit, hquad, hport⟩
    obtain ⟨addr, haddr⟩ := Option.isSome_iff_exists.mp hquad
    have hcolon := (notMem_of_chars (hpton.chars quad addr haddr)).1
    obtain ⟨rfl, rfl⟩ := split_unique hip hcolon hsplit
    exact ⟨⟨rfl, rfl⟩, hquad, hport⟩
  · rintro ⟨⟨rfl, rfl⟩, hquad, hport⟩
    exact ⟨rfl, hquad, hport⟩

/-- The parser succeeds when `inet_pton` accepts the quad up to its first NUL. -/
theorem parse_append_ok_iff {ip port : List UInt8} (hip : colon ∉ ip) :
    (∃ addr, parse inetPton (ip ++ colon :: port) = .ok addr) ↔
      (inetPton (cString ip)).isSome := by
  cases hquad : inetPton (cString ip) with
  | none => simp [parse_append_of_none hip hquad]
  | some addr => simp [parse_append_of_some hip hquad]

/-- The port of an address is read as its value. -/
theorem hostPort_of_isAddress (hpton : IsInetPton inetPton) {s quad port : List UInt8}
    {addr : InetAddress} (hparse : parse inetPton s = .ok addr)
    (haddress : IsAddress inetPton s quad port) : addr.hostPort.toNat = value port := by
  obtain ⟨rfl, hquad, -, hdigits, hvalue⟩ := haddress
  obtain ⟨ip, hip⟩ := Option.isSome_iff_exists.mp hquad
  obtain ⟨hcolon, hnul⟩ := notMem_of_chars (hpton.chars quad ip hip)
  rw [parse_append_of_some hcolon (by rwa [cString_of_notMem hnul])] at hparse
  rw [← Except.ok.inj hparse]
  exact hostPort_of_digits hdigits hvalue ip

/-- **The parser follows the grammar where the port is checked for it.**  It
accepts exactly the addresses, with the port as written, on the strings that it
rejects for want of a colon or for their IP address, and among the others on those
without a NUL before the first colon and with a port after it. -/
theorem meetsGrammar_iff (hpton : IsInetPton inetPton) (s : List UInt8) :
    MeetsGrammar inetPton s ↔ PortChecked inetPton s := by
  constructor
  · rintro ⟨haccepts, -⟩ ip port rfl hip hquad
    obtain ⟨quad, digits, haddress⟩ := haccepts.mp ((parse_append_ok_iff hip).mpr hquad)
    obtain ⟨-, haccepted, hport⟩ := (isAddress_append_iff hpton hip).mp haddress
    obtain ⟨addr, haddr⟩ := Option.isSome_iff_exists.mp haccepted
    exact ⟨(notMem_of_chars (hpton.chars ip addr haddr)).2, hport⟩
  · intro hchecked
    refine ⟨?_, fun addr quad port => hostPort_of_isAddress hpton⟩
    by_cases hmem : colon ∈ s
    · obtain ⟨ip, port, rfl, hip⟩ := List.eq_append_cons_of_mem hmem
      rw [parse_append_ok_iff hip]
      constructor
      · intro hquad
        obtain ⟨hnul, hport⟩ := hchecked ip port rfl hip hquad
        rw [cString_of_notMem hnul] at hquad
        exact ⟨ip, port, rfl, hquad, hport⟩
      · rintro ⟨quad, digits, haddress⟩
        obtain ⟨-, haccepted, -⟩ := (isAddress_append_iff hpton hip).mp haddress
        obtain ⟨addr, haddr⟩ := Option.isSome_iff_exists.mp haccepted
        rwa [cString_of_notMem (notMem_of_chars (hpton.chars ip addr haddr)).2]
    · constructor
      · rintro ⟨addr, hparse⟩
        rw [parse_of_notMem hmem] at hparse
        cases hparse
      · rintro ⟨quad, port, rfl, -⟩
        exact absurd (List.mem_append_right quad List.mem_cons_self) hmem

/-- 127.0.0.1:443 is parsed as the grammar says. -/
theorem meetsGrammar_of_localhost :
    MeetsGrammar canonicalPton (dottedQuad 127 0 0 1 ++ colon :: print 443) := by
  apply (meetsGrammar_iff isInetPton_canonicalPton _).mpr
  intro quad port hsplit hquad _
  obtain ⟨rfl, rfl⟩ := split_unique (by decide +kernel) hquad hsplit
  exact ⟨by decide +kernel, by decide +kernel⟩

/-- 1.2.3.4:65616 is accepted, as the address 1.2.3.4:80. -/
theorem not_meetsGrammar :
    IsInetPton canonicalPton ∧
      parse canonicalPton (dottedQuad 1 2 3 4 ++ colon :: print 65616) =
        .ok ⟨htons 80, ofOctets 1 2 3 4⟩ ∧
      ¬ MeetsGrammar canonicalPton (dottedQuad 1 2 3 4 ++ colon :: print 65616) := by
  have hparse : parse canonicalPton (dottedQuad 1 2 3 4 ++ colon :: print 65616) =
      .ok ⟨htons 80, ofOctets 1 2 3 4⟩ := by decide +kernel
  have hcolon : colon ∉ dottedQuad 1 2 3 4 := by decide +kernel
  refine ⟨isInetPton_canonicalPton, hparse, fun hmeets => ?_⟩
  obtain ⟨quad, port, haddress⟩ := hmeets.1.mp ⟨_, hparse⟩
  obtain ⟨-, -, -, -, hvalue⟩ :=
    (isAddress_append_iff isInetPton_canonicalPton hcolon).mp haddress
  rw [value_print] at hvalue
  omega

end InetAddress

end Mutiplex
