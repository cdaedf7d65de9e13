import Mathlib.Logic.Function.Basic
import Kanrin.Lib.DnsMessage
import Kanrin.Lib.Text
import Kanrin.Crypto
import Kanrin.Packets

/-!
# DNS interception

`kanrin-tun/src/dns.rs` and the arm of `run_pipeline` that calls it. The
interceptor takes a DNS message, the arm hands it a whole IP packet, and
what comes back is that packet again, with four bytes of its IP header
overwritten and records at its end. `not_answered`: no packet is answered
so, whatever the interceptor has cached or allocated.

The clock is an argument. A domain is its UTF-8 bytes.
-/

namespace Kanrin

open Lib

/-! ## The pool -/

structure FakeIpPool where
  domainToIp : Bytes → Option Ipv4Addr
  ipToDomain : Ipv4Addr → Option Bytes
  nextIp : UInt32
  poolStart : UInt32
  poolEnd : UInt32

namespace FakeIpPool

/-- 198.18.0.1 to 198.19.255.254. -/
def new : FakeIpPool where
  domainToIp _ := none
  ipToDomain _ := none
  nextIp := 0xC6120001
  poolStart := 0xC6120001
  poolEnd := 0xC613FFFE

def allocate (pool : FakeIpPool) (domain : Bytes) : Ipv4Addr × FakeIpPool :=
  match pool.domainToIp domain with
  | some ip => (ip, pool)
  | none =>
      let ip := u32ToBe pool.nextIp
      let next := pool.nextIp + 1
      (ip,
        { pool with
          domainToIp := Function.update pool.domainToIp domain (some ip)
          ipToDomain := Function.update pool.ipToDomain ip (some domain)
          nextIp := if next > pool.poolEnd then pool.poolStart else next })

def lookup (pool : FakeIpPool) (ip : Ipv4Addr) : Option Bytes := pool.ipToDomain ip

/-- The pool maps a domain to what it has allocated for it. -/
theorem domainToIp_allocate (pool : FakeIpPool) (domain : Bytes) :
    (pool.allocate domain).2.domainToIp domain = some (pool.allocate domain).1 := by
  unfold allocate
  split
  · assumption
  · exact Function.update_self ..

end FakeIpPool

/-! ## Messages -/

/-- The labels from `pos` on, up to the root. Each round takes a label. -/
def parseLabels (packet : Bytes) : (fuel pos : Nat) → Option (List Bytes)
  | 0, _ => none
  | fuel + 1, pos =>
      if h : packet.length ≤ pos then none
      else
        let labelLen := packet[pos].toNat
        if labelLen = 0 then some []
        else
          let pos := pos + 1
          if packet.length < pos + labelLen then none
          else
            let label := (packet.drop pos).take labelLen
            if isUtf8 label then (parseLabels packet fuel (pos + labelLen)).map (label :: ·)
            else none

def parseDnsQueryDomain (packet : Bytes) : Option Bytes :=
  if packet.length < 12 then none
  else
    match parseLabels packet packet.length 12 with
    | none | some [] => none
    | some parts => some ([0x2E].intercalate parts)

/-- The record for an address: a pointer to the question, type A, class IN,
60 seconds, and the address. -/
def answerRecord : IpAddr → Bytes
  | .v4 ip =>
      [0xC0, 0x0C, 0x00, 0x01, 0x00, 0x01, 0x00, 0x00, 0x00, 0x3C, 0x00, 0x04] ++ ip.toList
  | .v6 _ => []

/-- The source also walks over the question, and makes no use of where that
ends. -/
def buildDnsResponse (query : Bytes) (addresses : List IpAddr) : Bytes :=
  if query.length < 12 then []
  else
    let answerCount := UInt16.ofNat (addresses.filter IpAddr.isIpv4).length
    let response := (query.set 2 0x81).set 3 0x80
    let response := (response.set 6 (answerCount >>> 8).toUInt8).set 7 (answerCount &&& 0xFF).toUInt8
    response ++ addresses.flatMap answerRecord

/-! ## The interceptor -/

structure DnsCacheEntry where
  addresses : List IpAddr
  expiresAt : Nat

structure DnsInterceptor where
  cache : Bytes → Option DnsCacheEntry
  fakeIpPool : FakeIpPool
  fakeIpEnabled : Bool

namespace DnsInterceptor

def new (fakeIpEnabled : Bool) : DnsInterceptor where
  cache _ := none
  fakeIpPool := .new
  fakeIpEnabled := fakeIpEnabled

def interceptQuery (dns : DnsInterceptor) (now : Nat) (query : Bytes) :
    Option Bytes × DnsInterceptor :=
  match parseDnsQueryDomain query with
  | none => (none, dns)
  | some domain =>
      match (dns.cache domain).filter fun entry => decide (entry.expiresAt > now) with
      | some entry => (some (buildDnsResponse query entry.addresses), dns)
      | none =>
          if dns.fakeIpEnabled then
            let (fakeIp, fakeIpPool) := dns.fakeIpPool.allocate domain
            (some (buildDnsResponse query [.v4 fakeIp]), { dns with fakeIpPool })
          else (none, dns)

/-- What is returned was built from the query. -/
theorem interceptQuery_eq_some {dns : DnsInterceptor} {now : Nat} {query response : Bytes}
    (h : (dns.interceptQuery now query).1 = some response) :
    ∃ addresses, response = buildDnsResponse query addresses := by
  unfold interceptQuery at h
  split at h
  · cases h
  · split at h
    · rename_i entry _
      exact ⟨entry.addresses, (Option.some.inj h).symm⟩
    · split at h
      · exact ⟨_, (Option.some.inj h).symm⟩
      · cases h

end DnsInterceptor

/-- What becomes of a packet from the TUN device. -/
inductive TunPacket where
  /-- Answered by a packet that is written back. -/
  | written (response : Bytes)
  /-- To be sent through the tunnel. -/
  | tunnelled
  | ignored
deriving DecidableEq

/-- The arm of `run_pipeline`. -/
def fromTun (dns : DnsInterceptor) (now : Nat) (raw : Bytes) : TunPacket × DnsInterceptor :=
  match IpPacket.parse raw with
  | none => (.ignored, dns)
  | some ipPacket =>
      if ipPacket.isDnsQuery then
        match dns.interceptQuery now raw with
        | (some response, dns) => (.written response, dns)
        | (none, dns) => (.tunnelled, dns)
      else (.tunnelled, dns)

/-! ## What an answer is -/

/-- What follows the UDP header. -/
def IpPacket.udpPayload (p : IpPacket) : Bytes := p.payload.drop 8

/-- A packet that carries a standard query. -/
structure QueryPacket (raw : Bytes) (p : IpPacket) (q : Dns.Message) : Prop where
  parse : IpPacket.parse raw = some p
  -- no header is shorter
  header : 20 ≤ p.headerLen
  dns : p.isDnsQuery = true
  query : q.IsQuery
  payload : q.encode <+: p.udpPayload

/-- A packet back to where `p` came from, with a message that has the
question of `q` and an A record with the address. -/
structure Answers (reply : Bytes) (p : IpPacket) (q : Dns.Message) (address : Ipv4Addr) : Prop where
  packet : ∃ p', IpPacket.parse reply = some p' ∧ p'.protocol = .udp
    ∧ p'.src = p.dst ∧ p'.dst = p.src ∧ p'.srcPort = p.dstPort ∧ p'.dstPort = p.srcPort
    ∧ ∃ m : Dns.Message, m.Fits ∧ m.encode <+: p'.udpPayload ∧ m.id = q.id
      ∧ m.question = q.question
      ∧ ∃ r ∈ m.answers, r.rtype = Dns.typeA ∧ r.rdata = address.toList

/-- The query is answered with the address that the pool has for its name. -/
def Answered (dns : DnsInterceptor) (now : Nat) (raw : Bytes) (p : IpPacket) (q : Dns.Message) :
    Prop :=
  ∃ reply address, (fromTun dns now raw).1 = .written reply
    ∧ (fromTun dns now raw).2.fakeIpPool.domainToIp ([0x2E].intercalate q.question.labels)
      = some address
    ∧ Answers reply p q address

/-! ## What is written back -/

/-- From the eighth byte on the response is the query, and more. -/
theorem drop_buildDnsResponse {query : Bytes} (hlen : 12 ≤ query.length) (addresses : List IpAddr)
    {n : Nat} (hn : 8 ≤ n) (hle : n ≤ query.length) :
    (buildDnsResponse query addresses).drop n
      = query.drop n ++ addresses.flatMap answerRecord := by
  rw [buildDnsResponse, if_neg (not_lt.mpr hlen)]
  dsimp only
  rw [List.drop_append_of_le_length (by simpa using hle)]
  rw [List.drop_set_of_lt (by omega), List.drop_set_of_lt (by omega), List.drop_set_of_lt (by omega),
    List.drop_set_of_lt (by omega)]

theorem buildDnsResponse_cons {b : UInt8} {rest : Bytes} (hlen : 12 ≤ (b :: rest).length)
    (addresses : List IpAddr) : ∃ rest', buildDnsResponse (b :: rest) addresses = b :: rest' := by
  rw [buildDnsResponse, if_neg (not_lt.mpr hlen)]
  exact ⟨_, rfl⟩

/-- The DNS message is not touched. -/
theorem udpPayload_response {raw : Bytes} {addresses : List IpAddr} {p p' : IpPacket}
    (hp : IpPacket.parse raw = some p) (hheader : 20 ≤ p.headerLen)
    (hpayload : 0 < p.udpPayload.length)
    (hp' : IpPacket.parse (buildDnsResponse raw addresses) = some p') :
    p'.udpPayload = p.udpPayload ++ addresses.flatMap answerRecord := by
  obtain ⟨b, rest, hraw, hlen, hdrop⟩ := IpPacket.parse_eq_some hp
  obtain ⟨b', rest', hreply, hlen', hdrop'⟩ := IpPacket.parse_eq_some hp'
  rw [IpPacket.udpPayload, hdrop, List.drop_drop, List.length_drop] at hpayload
  have hlong : 12 ≤ raw.length := by omega
  have hb : b' = b := by
    subst hraw
    obtain ⟨rest'', hcons⟩ := buildDnsResponse_cons hlong addresses
    rw [hcons] at hreply
    exact (List.cons.inj hreply).1.symm
  rw [IpPacket.udpPayload, IpPacket.udpPayload, hdrop, hdrop', List.drop_drop, List.drop_drop, hlen',
    hb, ← hlen]
  exact drop_buildDnsResponse hlong addresses (by omega) (by omega)

theorem not_answers {raw : Bytes} {addresses : List IpAddr} {p : IpPacket} {q : Dns.Message}
    (h : QueryPacket raw p q) (address : Ipv4Addr) :
    ¬ Answers (buildDnsResponse raw addresses) p q address := by
  rintro ⟨p', hp', -, -, -, -, -, m, hfits, hencode, -, -, r, hr, -⟩
  have hlen := q.length_encode
  have hpos : 0 < p.udpPayload.length := by
    have hle := h.payload.length_le
    omega
  rw [udpPayload_response h.parse h.header hpos hp'] at hencode
  -- both messages stand at the front of the same bytes
  have hboth := h.payload.trans (List.prefix_append _ (addresses.flatMap answerRecord))
  have htake : m.encode.take 8 = q.encode.take 8 := by
    have hm := m.length_encode
    rw [List.prefix_iff_eq_take.mp hencode, List.prefix_iff_eq_take.mp hboth, List.take_take,
      List.take_take, Nat.min_eq_left (by omega), Nat.min_eq_left (by omega)]
  rw [Dns.Message.answers_eq_nil_of_take hfits h.query.answers htake] at hr
  cases hr

/-- No query is answered. -/
theorem not_answered (dns : DnsInterceptor) (now : Nat) {raw : Bytes} {p : IpPacket}
    {q : Dns.Message} (h : QueryPacket raw p q) : ¬ Answered dns now raw p q := by
  rintro ⟨reply, address, hwritten, -, hanswers⟩
  rw [fromTun, h.parse] at hwritten
  dsimp only at hwritten
  rw [if_pos h.dns] at hwritten
  cases hquery : dns.interceptQuery now raw with
  | mk response dns' =>
      rw [hquery] at hwritten
      cases response with
      | none => cases hwritten
      | some response =>
          obtain rfl := TunPacket.written.inj hwritten
          obtain ⟨addresses, rfl⟩ := DnsInterceptor.interceptQuery_eq_some (by rw [hquery])
          exact not_answers h address hanswers

/-! ## A lookup -/

def lookupQuery : Dns.Message where
  id := 0x1234
  flags := 0x0100
  question :=
    { labels := [ascii "www", ascii "abcdefghijklmnopqrstuvwxyzab", ascii "com"]
      qtype := Dns.typeA
      qclass := 1 }
  answers := []
  authority := []
  additional := []

/-- From port 12345 of 10.8.0.2 to port 53 of 8.8.8.8. -/
def lookupPacket : Bytes :=
  [0x45, 0x00, 0x00, 0x52, 0x00, 0x01, 0x00, 0x00, 0x40, 0x11, 0x00, 0x00,
      0x0A, 0x08, 0x00, 0x02, 0x08, 0x08, 0x08, 0x08]
    ++ [0x30, 0x39, 0x00, 0x35, 0x00, 0x3E, 0x00, 0x00]
    ++ lookupQuery.encode

def lookupIp : Ipv4Packet where
  src := 0x0A ::ᵥ 0x08 ::ᵥ 0x00 ::ᵥ 0x02 ::ᵥ .nil
  dst := 0x08 ::ᵥ 0x08 ::ᵥ 0x08 ::ᵥ 0x08 ::ᵥ .nil
  protocol := .udp
  ttl := 0x40
  headerLen := 20
  totalLen := 82
  raw := lookupPacket

theorem queryPacket_lookup : QueryPacket lookupPacket (.v4 lookupIp) lookupQuery where
  parse := by decide +kernel
  header := Nat.le_refl _
  dns := by decide +kernel
  query := ⟨⟨by decide, by decide, by decide⟩, by decide, by decide, rfl⟩
  payload := by
    have hpayload : (IpPacket.v4 lookupIp).udpPayload = lookupQuery.encode := by decide +kernel
    exact hpayload ▸ List.prefix_refl _

theorem lookup_reply :
    (match (fromTun (.new true) 0 lookupPacket).1 with
      | .written reply => (IpPacket.parse reply).map IpPacket.src
      | _ => none) = some [0x0A, 0x08, 0x00, 0x02] := by
  decide +kernel

/-- The packet that is written back comes from the client itself, not from
the server it asked. -/
theorem not_answered_lookup :
    QueryPacket lookupPacket (.v4 lookupIp) lookupQuery
      ∧ ¬ Answered (.new true) 0 lookupPacket (.v4 lookupIp) lookupQuery := by
  refine ⟨queryPacket_lookup, ?_⟩
  rintro ⟨reply, address, hwritten, -, ⟨p', hparse, -, hsrc, -⟩⟩
  have hreply := lookup_reply
  rw [hwritten] at hreply
  dsimp only at hreply
  rw [hparse] at hreply
  have hbad : lookupIp.dst.toList = [0x0A, 0x08, 0x00, 0x02] :=
    hsrc.symm.trans (Option.some.inj hreply)
  exact absurd hbad (by decide)

theorem not_answered_sample : ¬ Answered (.new true) 0 lookupPacket (.v4 lookupIp) lookupQuery :=
  not_answered (.new true) 0 queryPacket_lookup

end Kanrin
