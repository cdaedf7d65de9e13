import Kanrin.Lib.Fixed

/-!
# IP packets

`kanrin-tun/src/packet.rs`: what the client reads off a packet from the TUN
device. `parse_eq_some` is where the payload of a parsed packet starts.
-/

namespace Kanrin

open Lib

abbrev Ipv4Addr := ByteArr 4

abbrev Ipv6Addr := ByteArr 16

inductive IpAddr where
  | v4 (ip : Ipv4Addr)
  | v6 (ip : Ipv6Addr)
deriving DecidableEq

def IpAddr.isIpv4 : IpAddr → Bool
  | v4 _ => true
  | v6 _ => false

inductive IpProtocol where
  | tcp
  | udp
  | icmp
  | icmpv6
  | other (value : UInt8)
deriving DecidableEq

def IpProtocol.fromByte (value : UInt8) : IpProtocol :=
  if value = 1 then .icmp
  else if value = 6 then .tcp
  else if value = 17 then .udp
  else if value = 58 then .icmpv6
  else .other value

/-- The port at `pos` of a transport header. -/
def transportPort (protocol : IpProtocol) (payload : Bytes) (pos : Nat) : Option UInt16 :=
  if protocol = .tcp ∨ protocol = .udp then
    if h : pos + 2 ≤ payload.length then some (u16FromBe (slice payload pos 2)) else none
  else none

structure Ipv4Packet where
  src : Ipv4Addr
  dst : Ipv4Addr
  protocol : IpProtocol
  ttl : UInt8
  headerLen : Nat
  totalLen : Nat
  raw : Bytes
deriving DecidableEq

namespace Ipv4Packet

def parse (data : Bytes) : Option Ipv4Packet :=
  if h : data.length < 20 then none
  else
    let ihl := (data[0] &&& 0x0F).toNat * 4
    if data.length < ihl then none
    else some
      { src := slice data 12 4
        dst := slice data 16 4
        protocol := .fromByte data[9]
        ttl := data[8]
        headerLen := ihl
        totalLen := (u16FromBe (slice data 2 2)).toNat
        raw := data }

def payload (p : Ipv4Packet) : Bytes :=
  if p.raw.length > p.headerLen then p.raw.drop p.headerLen else []

def dstPort (p : Ipv4Packet) : Option UInt16 := transportPort p.protocol p.payload 2

def srcPort (p : Ipv4Packet) : Option UInt16 := transportPort p.protocol p.payload 0

end Ipv4Packet

structure Ipv6Packet where
  src : Ipv6Addr
  dst : Ipv6Addr
  nextHeader : IpProtocol
  hopLimit : UInt8
  payloadLen : Nat
  raw : Bytes
deriving DecidableEq

namespace Ipv6Packet

def parse (data : Bytes) : Option Ipv6Packet :=
  if h : data.length < 40 then none
  else some
    { src := slice data 8 16
      dst := slice data 24 16
      nextHeader := .fromByte data[6]
      hopLimit := data[7]
      payloadLen := (u16FromBe (slice data 4 2)).toNat
      raw := data }

def payload (p : Ipv6Packet) : Bytes := if p.raw.length > 40 then p.raw.drop 40 else []

def dstPort (p : Ipv6Packet) : Option UInt16 := transportPort p.nextHeader p.payload 2

def srcPort (p : Ipv6Packet) : Option UInt16 := transportPort p.nextHeader p.payload 0

end Ipv6Packet

inductive IpPacket where
  | v4 (p : Ipv4Packet)
  | v6 (p : Ipv6Packet)
deriving DecidableEq

namespace IpPacket

def parse (data : Bytes) : Option IpPacket :=
  if h : data.length = 0 then none
  else
    let version := (data[0] >>> 4) &&& 0x0F
    if version = 4 then (Ipv4Packet.parse data).map .v4
    else if version = 6 then (Ipv6Packet.parse data).map .v6
    else none

def dstPort : IpPacket → Option UInt16
  | v4 p => p.dstPort
  | v6 p => p.dstPort

def srcPort : IpPacket → Option UInt16
  | v4 p => p.srcPort
  | v6 p => p.srcPort

def protocol : IpPacket → IpProtocol
  | v4 p => p.protocol
  | v6 p => p.nextHeader

def isDnsQuery (p : IpPacket) : Bool := p.protocol == .udp && p.dstPort == some 53

/-! ## Where the payload starts -/

def src : IpPacket → Bytes
  | v4 p => p.src.toList
  | v6 p => p.src.toList

def dst : IpPacket → Bytes
  | v4 p => p.dst.toList
  | v6 p => p.dst.toList

def headerLen : IpPacket → Nat
  | v4 p => p.headerLen
  | v6 _ => 40

def payload : IpPacket → Bytes
  | v4 p => p.payload
  | v6 p => p.payload

/-- The length of the header by the first byte of the packet. -/
def headerLenOf (b : UInt8) : Nat := if (b >>> 4) &&& 0x0F = 4 then (b &&& 0x0F).toNat * 4 else 40

theorem drop_of_payload (data : Bytes) (n : Nat) :
    (if data.length > n then data.drop n else []) = data.drop n := by
  split
  · rfl
  · rename_i h
    exact (List.drop_eq_nil_of_le (not_lt.mp h)).symm

theorem parse_eq_some {data : Bytes} {p : IpPacket} (h : parse data = some p) :
    ∃ b rest, data = b :: rest ∧ p.headerLen = headerLenOf b
      ∧ p.payload = data.drop p.headerLen := by
  cases data with
  | nil => cases h
  | cons b rest =>
      refine ⟨b, rest, rfl, ?_⟩
      have hne : ¬ (b :: rest).length = 0 := Nat.succ_ne_zero _
      rw [parse, dif_neg hne] at h
      dsimp only at h
      rw [List.getElem_cons_zero] at h
      unfold headerLenOf
      split at h
      · rename_i h4
        rw [if_pos h4]
        obtain ⟨p4, hp4, rfl⟩ := Option.map_eq_some_iff.mp h
        unfold Ipv4Packet.parse at hp4
        split at hp4
        · cases hp4
        dsimp only at hp4
        split at hp4
        · cases hp4
        obtain rfl := Option.some.inj hp4
        exact ⟨rfl, drop_of_payload _ _⟩
      · rename_i h4
        rw [if_neg h4]
        split at h
        · obtain ⟨p6, hp6, rfl⟩ := Option.map_eq_some_iff.mp h
          unfold Ipv6Packet.parse at hp6
          split at hp6
          · cases hp6
          obtain rfl := Option.some.inj hp6
          exact ⟨rfl, drop_of_payload _ _⟩
        · cases h

end IpPacket

end Kanrin
