import SpEmu.Lib.Bytes
import Mathlib.Data.Vector.Basic

/-!
# Frames on the management link

The frames that the bridge builds for the SP and the parser of the frames that the SP transmits:
Ethernet with an optional 802.1Q tag, IPv6, and UDP or ICMPv6 with its checksum. Indexing and
slicing are checked: `none` is an access out of range.
-/

set_option autoImplicit false

namespace SpEmu

open ByteMem

abbrev Mac := List.Vector Byte 6
abbrev Ip6 := List.Vector Byte 16

namespace Frames

def ethertypeIpv6 : Half := 0x86DD
def ipprotoUdp : Byte := 17
def ipprotoIcmpv6 : Byte := 58
def icmp6EchoRequest : Byte := 128
def icmp6EchoReply : Byte := 129
def icmp6NeighborSolicit : Byte := 135
def icmp6NeighborAdvert : Byte := 136
def vlanTpid : Half := 0x8100

/-! ## Fields -/

/-- The two bytes of a big-endian field. -/
def be16 (v : Half) : List Byte := [(v >>> 8).setWidth 8, v.setWidth 8]

/-- The big-endian field at an offset. -/
def be16At (f : List Byte) (off : Nat) : Option Half := do
  let hi ← f[off]?
  let lo ← f[off + 1]?
  some ((hi.setWidth 16 : Half) <<< 8 ||| lo.setWidth 16)

/-- The array of `n` bytes at an offset. -/
def arrayAt (n : Nat) (f : List Byte) (off : Nat) : Option (List.Vector Byte n) :=
  let slice := (f.drop off).take n
  if h : slice.length = n then some ⟨slice, h⟩ else none

/-- The bytes from an offset on. -/
def sliceFrom (f : List Byte) (off : Nat) : Option (List Byte) :=
  if off ≤ f.length then some (f.drop off) else none

/-! ## The Internet checksum -/

/-- Add the big-endian half-words of a byte string, the last one padded with a zero byte. -/
def addHalves (sum : Word) : List Byte → Word
  | hi :: lo :: rest =>
      addHalves (sum + (((hi.setWidth 16 : Half) <<< 8) ||| lo.setWidth 16).setWidth 32) rest
  | [hi] => sum + ((hi.setWidth 32 : Word) <<< 8)
  | [] => sum

/-- Fold the carries into the low half; two rounds bring every word below 2 ^ 16. -/
def foldCarries : Nat → Word → Word
  | 0, sum => sum
  | fuel + 1, sum =>
      if sum >>> 16 ≠ 0 then foldCarries fuel ((sum &&& 0xFFFF) + (sum >>> 16)) else sum

/-- The checksum over the IPv6 pseudo-header and `data`. A UDP checksum of zero is sent as its
complement. -/
def checksum6 (src dst : Ip6) (next : Byte) (data : List Byte) : Half :=
  let sum := addHalves (addHalves 0 src.toList) dst.toList
  let sum := sum + BitVec.ofNat 32 data.length + next.setWidth 32
  let sum := foldCarries 3 (addHalves sum data)
  let ck := ~~~(sum.setWidth 16)
  if ck = 0 ∧ next = ipprotoUdp then 0xFFFF else ck

/-- Set the checksum field at an offset. -/
def setChecksum (f : List Byte) (off : Nat) (ck : Half) : List Byte :=
  f.take off ++ be16 ck ++ f.drop (off + 2)

/-! ## Builders -/

/-- The bridge's identity on the link. -/
structure Identity where
  myMac : Mac
  myIp : Ip6

namespace Identity

/-- The identity of every bridge: a locally administered MAC address and fe80::1. -/
def bridge : Identity :=
  ⟨⟨[0x0E, 0, 0, 0, 0, 1], rfl⟩, ⟨[0xFE, 0x80, 0, 0, 0, 0, 0, 0, 0, 0, 0, 0, 0, 0, 0, 1], rfl⟩⟩

variable (me : Identity)

/-- An Ethernet and IPv6 frame to the SP, tagged where the VLAN id is not 0. -/
def buildIpv6From (vid : Half) (dstMac : Mac) (dstIp : Ip6) (next hop : Byte)
    (payload : List Byte) : List Byte :=
  dstMac.toList ++ me.myMac.toList ++
    (if vid ≠ 0 then be16 vlanTpid ++ be16 vid else []) ++
    be16 ethertypeIpv6 ++ [0x60, 0, 0, 0] ++ be16 (BitVec.ofNat 16 payload.length) ++
    [next, hop] ++ me.myIp.toList ++ dstIp.toList ++ payload

def buildUdp6 (vid : Half) (dstMac : Mac) (dstIp : Ip6) (dstPort srcPort : Half)
    (payload : List Byte) : List Byte :=
  let udp := be16 srcPort ++ be16 dstPort ++ be16 (BitVec.ofNat 16 (8 + payload.length)) ++
    [0, 0] ++ payload
  let udp := setChecksum udp 6 (checksum6 me.myIp dstIp ipprotoUdp udp)
  me.buildIpv6From vid dstMac dstIp ipprotoUdp 64 udp

/-- Solicited and override flags, with the target link-layer address option. -/
def buildNeighborAdvert (vid : Half) (dstMac : Mac) (dstIp : Ip6) : List Byte :=
  let icmp := [icmp6NeighborAdvert, 0, 0, 0, 0x60, 0, 0, 0] ++ me.myIp.toList ++ [2, 1] ++
    me.myMac.toList
  let icmp := setChecksum icmp 2 (checksum6 me.myIp dstIp ipprotoIcmpv6 icmp)
  me.buildIpv6From vid dstMac dstIp ipprotoIcmpv6 255 icmp

/-- Identifier 1, sequence number 1 and four bytes of data. -/
def buildEchoRequest (vid : Half) (dstMac : Mac) (dstIp : Ip6) : List Byte :=
  let icmp := [icmp6EchoRequest, 0, 0, 0, 0, 1, 0, 1, 0xDE, 0xAD, 0xBE, 0xEF]
  let icmp := setChecksum icmp 2 (checksum6 me.myIp dstIp ipprotoIcmpv6 icmp)
  me.buildIpv6From vid dstMac dstIp ipprotoIcmpv6 255 icmp

/-- The request's message with its type changed. -/
def buildEchoReply (vid : Half) (dstMac : Mac) (dstIp : Ip6) (req : List Byte) : List Byte :=
  let icmp := setChecksum (icmp6EchoReply :: req.tail) 2 0
  let icmp := setChecksum icmp 2 (checksum6 me.myIp dstIp ipprotoIcmpv6 icmp)
  me.buildIpv6From vid dstMac dstIp ipprotoIcmpv6 64 icmp

end Identity

/-! ## The parser -/

/-- What the bridge takes from a frame of the SP. -/
structure TxFrame where
  vid : Half
  srcMac : Mac
  nextHdr : Byte
  srcIp : Ip6
  dstIp : Ip6
  payload : List Byte

/-- The VLAN id, 0 where there is no tag, and the offset behind the EtherType. -/
def vlanTag (f : List Byte) : Option (Half × Nat) := do
  if (← be16At f 12) = vlanTpid then some ((← be16At f 14) &&& 0xFFF, 18) else some (0, 14)

/-- The IPv6 frame behind the tag; `some none` where the bridge ignores the frame. -/
def parseTx (f : List Byte) : Option (Option TxFrame) := do
  if f.length < 18 then return none
  let srcMac ← arrayAt 6 f 6
  let (vid, ethOff) ← vlanTag f
  let ethertype ← be16At f (ethOff - 2)
  if ethertype ≠ ethertypeIpv6 ∨ f.length < ethOff + 40 then return none
  let ip ← sliceFrom f ethOff
  let version : Byte ← ip[0]?
  if version >>> 4 ≠ 6 then return none
  let nextHdr : Byte ← ip[6]?
  let srcIp ← arrayAt 16 ip 8
  let dstIp ← arrayAt 16 ip 24
  let payload ← sliceFrom ip 40
  return some ⟨vid, srcMac, nextHdr, srcIp, dstIp, payload⟩

/-- fe80::/10. -/
def isLinkLocal (ip : Ip6) : Bool :=
  ip.get 0 == 0xFE && (ip.get 1 &&& 0xC0) == 0x80

end Frames

end SpEmu
