/-
# Internet addresses

An `InetAddress` keeps the IP address and the port as they go over the network;
on a little-endian host the first octet of `ip_` is its lowest byte, and `htons`
swaps the bytes of a port.  Its text has the form `127.0.0.1:8080`.

`inet_pton` is an argument of the model, with what is documented of it: it accepts
strings of digits and dots only, and reads back the dotted quads that `inet_ntop`
prints.  Whether it accepts other quads, such as those with leading zeros, is left
open.
-/

import Mathlib
import Mutiplex.Lib.CText

namespace Mutiplex

open CText Decimal

/-- The members, both in network order. -/
structure InetAddress where
  port : UInt16
  ip : UInt32
  deriving DecidableEq, Repr

/-- What the constructor throws. -/
inductive AddressError
  | invalidAddr
  | invalidIp
  deriving DecidableEq, Repr

/-- The text of the `std::runtime_error`. -/
def AddressError.what : AddressError → String
  | .invalidAddr => "invalid addr"
  | .invalidIp => "invalid ip"

/-- The character ':'. -/
def colon : UInt8 := 58

/-- The character '.'. -/
def dot : UInt8 := 46

/-- `htons`. -/
def htons (n : UInt16) : UInt16 := UInt16.ofNat (n.toNat % 256 * 256 + n.toNat / 256)

/-- `ntohs`. -/
def ntohs (n : UInt16) : UInt16 := htons n

/-- Four octets with dots between them. -/
def dottedQuad (a b c d : ℕ) : List UInt8 :=
  print a ++ dot :: (print b ++ dot :: (print c ++ dot :: print d))

/-- The IP address with the given octets. -/
def ofOctets (a b c d : ℕ) : UInt32 := UInt32.ofNat (a + b * 2 ^ 8 + c * 2 ^ 16 + d * 2 ^ 24)

/-- `inet_ntop`. -/
def inetNtop (ip : UInt32) : List UInt8 :=
  dottedQuad (ip.toNat % 256) (ip.toNat / 2 ^ 8 % 256) (ip.toNat / 2 ^ 16 % 256)
    (ip.toNat / 2 ^ 24)

/-- What is documented of `inet_pton`, which returns the address it stores when it
returns 1. -/
structure IsInetPton (inetPton : List UInt8 → Option UInt32) : Prop where
  chars : ∀ s ip, inetPton s = some ip → ∀ c ∈ s, isDigit c = true ∨ c = dot
  inetNtop : ∀ ip, inetPton (inetNtop ip) = some ip

namespace InetAddress

/-- `host_port`. -/
def hostPort (addr : InetAddress) : UInt16 := ntohs addr.port

/-- `ip_str`. -/
def ipStr (addr : InetAddress) : List UInt8 := inetNtop addr.ip

/-- `to_string`, through a buffer of 32 bytes. -/
def toString (addr : InetAddress) : List UInt8 :=
  snprintf 32 (inetNtop addr.ip ++ colon :: print addr.hostPort.toNat)

/-- The constructor from a string. -/
def parse (inetPton : List UInt8 → Option UInt32) (addr : List UInt8) :
    Except AddressError InetAddress :=
  match addr.idxOf? colon with
  | none => .error .invalidAddr
  | some p =>
      let ip := addr.take p
      let port := addr.drop (p + 1)
      match inetPton (cString ip) with
      | none => .error .invalidIp
      | some ip => .ok {
          port := htons (UInt16.ofNat (atoi (cString port) % 2 ^ 16).toNat)
          ip := ip }

end InetAddress

end Mutiplex
