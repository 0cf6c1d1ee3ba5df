import WafProxy.Lib.ByteOrder
import WafProxy.Lib.CString
import WafProxy.Packet

/-
  Addresses — ip_addr.h, ip_addr.c

  An IPv4 address is a `u_int32_t` in network order: its first byte in memory is
  the first of the four numbers. The machine is little-endian, so as a number the
  first byte is the least significant one, and `ntohl` turns the bytes round.

  `inet_pton` and `inet_ntop` belong to the C library. What they accept and print
  is a parameter (`Inet`); the laws are what the code relies on.

  What is proved:
    1. `ntohl_toNat`, `octets_ntohl`, `ntohl_ntohl`, `ntohs_ntohs` — the byte order.

  Correspondence (C ↔ Lean):
    `ntohl`, `htonl`        ↔ `ntohl`
    `ntohs`, `htons`        ↔ `ntohs`
    `ip_addr_t`             ↔ `IpAddr`, `IpAddr.Valid`
    `ip_port_t`             ↔ `IpPort`
    `ip4_from_str`          ↔ `Inet.ip4FromStr`
    `ip_addr_from_str`      ↔ `Inet.ipAddrFromStr`
    `ip_addr_to_str`        ↔ `Inet.ipAddrToStr`
    `ip_addr_v4_to_v6`      ↔ `ipAddrV4ToV6`
-/

namespace WafProxy
open Lib

/-! ## Byte order -/

/-- The bytes of a `u_int32_t` in memory. -/
def octets (x : UInt32) : List Byte := littleBytes 4 x.toNat

/-- `ntohl`, and `htonl`. -/
def ntohl (x : UInt32) : UInt32 := UInt32.ofNat (big (octets x))

@[simp] theorem octets_length (x : UInt32) : (octets x).length = 4 := littleBytes_length 4 x.toNat

theorem big_octets_lt (x : UInt32) : big (octets x) < 2 ^ 32 := by
  have hlt := big_lt (octets x)
  rw [octets_length] at hlt
  exact hlt

theorem ntohl_toNat (x : UInt32) : (ntohl x).toNat = big (octets x) := UInt32.toNat_ofNat_of_lt' (big_octets_lt x)

theorem octets_ntohl (x : UInt32) : octets (ntohl x) = (octets x).reverse := by
  have hbytes := littleBytes_little (octets x).reverse
  rw [little_reverse, List.length_reverse, octets_length] at hbytes
  rw [octets, ntohl_toNat, hbytes]

theorem octets_inj {x y : UInt32} (h : octets x = octets y) : x = y :=
  UInt32.toNat_inj.mp (littleBytes_inj x.toNat_lt y.toNat_lt h)

theorem ntohl_ntohl (x : UInt32) : ntohl (ntohl x) = x :=
  octets_inj (by rw [octets_ntohl, octets_ntohl, List.reverse_reverse])

/-- The `u_int32_t` whose bytes in memory are these. -/
def ofOctets (l : List Byte) : UInt32 := UInt32.ofNat (little l)

theorem octets_ofOctets {l : List Byte} (h : l.length = 4) : octets (ofOctets l) = l := by
  have hlt := little_lt l
  rw [h] at hlt
  have hbytes := littleBytes_little l
  rw [h] at hbytes
  rw [octets, ofOctets, UInt32.toNat_ofNat_of_lt' hlt, hbytes]

/-- `ntohs`, and `htons`. -/
def ntohs (x : UInt16) : UInt16 := UInt16.ofNat (big (littleBytes 2 x.toNat))

theorem ntohs_toNat (x : UInt16) : (ntohs x).toNat = big (littleBytes 2 x.toNat) := by
  have hlt := big_lt (littleBytes 2 x.toNat)
  rw [littleBytes_length] at hlt
  exact UInt16.toNat_ofNat_of_lt' hlt

theorem ntohs_ntohs (x : UInt16) : ntohs (ntohs x) = x := by
  have hbytes := littleBytes_little (littleBytes 2 x.toNat).reverse
  rw [little_reverse, List.length_reverse, littleBytes_length] at hbytes
  apply UInt16.toNat_inj.mp
  rw [ntohs_toNat, ntohs_toNat, hbytes, ← little_reverse, List.reverse_reverse, little_littleBytes]
  exact Nat.mod_eq_of_lt x.toNat_lt

theorem ntohs_inj {x y : UInt16} : ntohs x = ntohs y ↔ x = y :=
  ⟨fun h => by rw [← ntohs_ntohs x, h, ntohs_ntohs], fun h => by rw [h]⟩

/-! ## Addresses -/

def AF_INET : Int := 2

def AF_INET6 : Int := 10

namespace IpAddr

/-- An address of one of the two families, with the bytes of that family. -/
def Valid (ip : IpAddr) : Prop :=
  ip.family = AF_INET ∧ ip.addr.length = 4 ∨ ip.family = AF_INET6 ∧ ip.addr.length = 16

/-- Addresses of one family have as many bytes. -/
theorem Valid.length_eq {a b : IpAddr} (ha : a.Valid) (hb : b.Valid) (h : a.family = b.family) :
    a.addr.length = b.addr.length := by
  have hdiffer : AF_INET ≠ AF_INET6 := by decide
  rcases ha with ha | ha <;> rcases hb with hb | hb
  · exact ha.2.trans hb.2.symm
  · exact absurd (ha.1.symm.trans (h.trans hb.1)) hdiffer
  · exact absurd (hb.1.symm.trans (h.symm.trans ha.1)) hdiffer
  · exact ha.2.trans hb.2.symm

/-- `_addr4.s_addr`. -/
def sAddr (ip : IpAddr) : UInt32 := ofOctets (ip.addr.take 4)

theorem octets_sAddr {ip : IpAddr} (h : ip.addr.length = 4) : octets ip.sAddr = ip.addr := by
  rw [sAddr, List.take_of_length_le (Nat.le_of_eq h), octets_ofOctets h]

end IpAddr

/-- `ip_port_t`: an address and a port in network order. -/
structure IpPort extends IpAddr where
  port : UInt16
  deriving DecidableEq

/-- The bytes in front of an IPv4 address mapped to IPv6. -/
def mappedFront : List Byte := [0, 0, 0, 0, 0, 0, 0, 0, 0, 0, 0xff, 0xff]

/-- `ip_addr_v4_to_v6`, when it does not fail. -/
def ipAddrV4ToV6 (v4 : IpAddr) : Option IpAddr :=
  if v4.family ≠ AF_INET then none else some { family := AF_INET6, addr := mappedFront ++ v4.addr.take 4 }

/-! ## Texts -/

/-- What stands in front of the first `c` and behind it, when `strchr` finds one. -/
def cutAt (c : Byte) (s : List Byte) : Option (List Byte × List Byte) :=
  if c ∈ s then some (s.takeWhile (· ≠ c), (s.dropWhile (· ≠ c)).tail) else none

theorem cutAt_append {c : Byte} {front : List Byte} (h : c ∉ front) (back : List Byte) :
    cutAt c (front ++ c :: back) = some (front, back) := by
  have hfront : ∀ b ∈ front, decide (b ≠ c) = true := fun b hb => decide_eq_true fun heq => h (heq ▸ hb)
  unfold cutAt
  rw [if_pos (List.mem_append_right front List.mem_cons_self), List.takeWhile_append_of_pos hfront,
    List.dropWhile_append_of_pos hfront]
  simp

theorem cutAt_none {c : Byte} {s : List Byte} (h : c ∉ s) : cutAt c s = none := if_neg h

/-- `%u`. -/
def unsignedText (n : Nat) : List Byte := (Nat.toDigits 10 n).map ch

/-- `atoi`. -/
def atoi (s : List Byte) : Int := toInt32 (strtol s 10)

/-- `INET_ADDRSTRLEN` and `INET6_ADDRSTRLEN`. -/
def INET_ADDRSTRLEN : Nat := 16

def INET6_ADDRSTRLEN : Nat := 46

/-- `inet_pton` and `inet_ntop` for the two families. -/
structure Inet where
  pton4 : List Byte → Option (List Byte)
  pton6 : List Byte → Option (List Byte)
  ntop4 : List Byte → List Byte
  ntop6 : List Byte → List Byte
  pton4_size : ∀ s a, pton4 s = some a → a.length = 4
  pton6_size : ∀ s a, pton6 s = some a → a.length = 16
  pton4_text : ∀ s a, pton4 s = some a →
    s.length < INET_ADDRSTRLEN ∧ ch '.' ∈ s ∧ ∀ c ∈ s, isdigit c = true ∨ c = ch '.'
  pton6_text : ∀ s a, pton6 s = some a →
    s.length < INET6_ADDRSTRLEN ∧ ch ':' ∈ s ∧ ∀ c ∈ s, isxdigit c = true ∨ c = ch ':' ∨ c = ch '.'
  pton4_ntop4 : ∀ a, a.length = 4 → pton4 (ntop4 a) = some a
  pton6_ntop6 : ∀ a, a.length = 16 → pton6 (ntop6 a) = some a

namespace Inet
variable (inet : Inet)

def ip4FromStr (s : List Byte) : UInt32 :=
  match inet.pton4 s with
  | some a => ofOctets a
  | none => 0

/-- `ip_addr_from_str`: what it returns, and the address. A text with white space ends in `return 0`. -/
def ipAddrFromStr (ip : IpAddr) (s : List Byte) : Int × IpAddr :=
  if s.any isspace then (0, ip)
  else if ch ':' ∈ s then
    match inet.pton6 s with
    | some a => (0, { family := AF_INET6, addr := a })
    | none => (-1, { ip with family := AF_INET6 })
  else
    match inet.pton4 s with
    | some a => (0, { family := AF_INET, addr := a })
    | none => (-1, { ip with family := AF_INET })

/-- `ip_addr_to_str`, when it does not fail. -/
def ipAddrToStr (ip : IpAddr) (len : Nat) : Option (List Byte) :=
  if len < 1 then none
  else if ip.family = AF_INET then
    if (inet.ntop4 ip.addr).length < len then some (inet.ntop4 ip.addr) else none
  else if ip.family = AF_INET6 then
    if (inet.ntop6 ip.addr).length < len then some (inet.ntop6 ip.addr) else none
  else none

end Inet

end WafProxy
