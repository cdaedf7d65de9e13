import Kanrin.Packets

/-!
# IP headers

What `kanrin-tun/src/packet.rs` makes of the lengths and the fragment offset
of a header. The parser copies the header length and the total length and
compares neither with the other, and the ports are read from what stands
behind the header, however long the packet says it is and whichever fragment
this may be. `headerExact_iff` is for which bytes that makes no difference.
-/

namespace Kanrin

open Lib

namespace Headers

/-! ## The fields -/

/-- The 16 bits at `i`. -/
def fieldAt (data : Bytes) (i : Nat) : Option UInt16 :=
  if h : i + 2 ≤ data.length then some (u16FromBe (slice data i 2)) else none

/-- The number they stand for. -/
def word (data : Bytes) (i : Nat) : Nat := ((fieldAt data i).map UInt16.toNat).getD 0

/-- The length of an IPv4 header in words of four bytes. -/
def ihl (data : Bytes) : Nat := ((data[0]?.getD 0) &&& 0x0F).toNat

/-- The low 13 bits of the fourth word of an IPv4 header. -/
def fragmentOffset (data : Bytes) : IpPacket → Nat
  | .v4 _ => word data 6 % 2 ^ 13
  | .v6 _ => 0

/-- An IPv6 header gives the length of what follows it. -/
def totalLen : IpPacket → Nat
  | .v4 p => p.totalLen
  | .v6 p => 40 + p.payloadLen

/-! ## What is asked of a parsed packet -/

def TcpOrUdp (p : IpPacket) : Prop := p.protocol = .tcp ∨ p.protocol = .udp

/-- The port `k` bytes into the transport header is within the packet, and
this is the fragment that the header is in. -/
def CarriesPort (data : Bytes) (p : IpPacket) (k : Nat) : Prop :=
  TcpOrUdp p ∧ fragmentOffset data p = 0 ∧ p.headerLen + k + 2 ≤ totalLen p

/-- A port is there exactly when the packet carries it, and is the field at its place. -/
def PortExact (data : Bytes) (p : IpPacket) (k : Nat) (port : Option UInt16) : Prop :=
  (port.isSome ↔ CarriesPort data p k)
    ∧ ∀ v, port = some v → fieldAt data (p.headerLen + k) = some v

structure HeaderExact (data : Bytes) (p : IpPacket) : Prop where
  lengths : ∀ q, p = .v4 q → 20 ≤ q.headerLen ∧ q.headerLen ≤ q.totalLen
    ∧ q.totalLen ≤ data.length
  srcPort : PortExact data p 0 p.srcPort
  dstPort : PortExact data p 2 p.dstPort
  dns : p.isDnsQuery = true → p.protocol = .udp ∧ CarriesPort data p 2
    ∧ fieldAt data (p.headerLen + 2) = some 53

/-! ## The headers of which it holds -/

/-- The header has its five words, and the length of the packet is between
that of the header and what there is. Of TCP and UDP, a later fragment is
too short for a port; and behind the end of a first one there is no port. -/
structure RegularV4 (data : Bytes) : Prop where
  ihl : 5 ≤ ihl data
  total : 4 * Headers.ihl data ≤ word data 2
  present : word data 2 ≤ data.length
  later : data[9]? = some 6 ∨ data[9]? = some 17 → word data 6 % 2 ^ 13 ≠ 0 →
    data.length < 4 * Headers.ihl data + 2
  first : data[9]? = some 6 ∨ data[9]? = some 17 → word data 6 % 2 ^ 13 = 0 → ∀ n ∈ [2, 4],
    4 * Headers.ihl data + n ≤ data.length → 4 * Headers.ihl data + n ≤ word data 2

/-- Of TCP and UDP, the ports are within the payload if and only if they are there. -/
def RegularV6 (data : Bytes) : Prop :=
  data[6]? = some 6 ∨ data[6]? = some 17 → ∀ n ∈ [2, 4], n ≤ word data 4 ↔ 40 + n ≤ data.length

def Regular (data : Bytes) : IpPacket → Prop
  | .v4 _ => RegularV4 data
  | .v6 _ => RegularV6 data

/-! ## What the parser reads -/

theorem fromByte_tcp_or_udp {b : UInt8} :
    (IpProtocol.fromByte b = .tcp ∨ IpProtocol.fromByte b = .udp) ↔ b = 6 ∨ b = 17 := by
  unfold IpProtocol.fromByte
  split
  · rename_i h; subst h; decide
  split
  · rename_i h; subst h; decide
  split
  · rename_i h; subst h; decide
  split
  · rename_i h; subst h; decide
  · rename_i htcp hudp _
    simp [htcp, hudp]

theorem word_of_le {data : Bytes} {i : Nat} (h : i + 2 ≤ data.length) :
    word data i = (u16FromBe (slice data i 2)).toNat := by
  rw [word, fieldAt, dif_pos h, Option.map_some, Option.getD_some]

theorem parse_v4 {data : Bytes} {q : Ipv4Packet} (h : IpPacket.parse data = some (.v4 q)) :
    q.raw = data ∧ q.headerLen = 4 * ihl data ∧ q.totalLen = word data 2
      ∧ (TcpOrUdp (.v4 q) ↔ data[9]? = some 6 ∨ data[9]? = some 17) := by
  unfold IpPacket.parse at h
  split at h
  · cases h
  dsimp only at h
  split at h
  · obtain ⟨q', hq, heq⟩ := Option.map_eq_some_iff.mp h
    obtain rfl := IpPacket.v4.inj heq
    unfold Ipv4Packet.parse at hq
    split at hq
    · cases hq
    dsimp only at hq
    split at hq
    · cases hq
    rename_i hlong _
    obtain rfl := Option.some.inj hq
    refine ⟨rfl, ?_, (word_of_le (by omega)).symm, ?_⟩
    · rw [ihl, List.getElem?_eq_getElem (by omega), Option.getD_some, Nat.mul_comm]
    · rw [List.getElem?_eq_getElem (by omega), Option.some.injEq, Option.some.injEq]
      exact fromByte_tcp_or_udp
  · split at h
    · obtain ⟨_, _, heq⟩ := Option.map_eq_some_iff.mp h
      cases heq
    · cases h

theorem parse_v6 {data : Bytes} {q : Ipv6Packet} (h : IpPacket.parse data = some (.v6 q)) :
    q.raw = data ∧ q.payloadLen = word data 4
      ∧ (TcpOrUdp (.v6 q) ↔ data[6]? = some 6 ∨ data[6]? = some 17) := by
  unfold IpPacket.parse at h
  split at h
  · cases h
  dsimp only at h
  split at h
  · obtain ⟨_, _, heq⟩ := Option.map_eq_some_iff.mp h
    cases heq
  · split at h
    · obtain ⟨q', hq, heq⟩ := Option.map_eq_some_iff.mp h
      obtain rfl := IpPacket.v6.inj heq
      unfold Ipv6Packet.parse at hq
      split at hq
      · cases hq
      rename_i hlong
      obtain rfl := Option.some.inj hq
      refine ⟨rfl, (word_of_le (by omega)).symm, ?_⟩
      rw [List.getElem?_eq_getElem (by omega), Option.some.injEq, Option.some.injEq]
      exact fromByte_tcp_or_udp
    · cases h

/-- A port is the field at its place, for TCP and UDP and as far as the bytes go. -/
theorem transportPort_eq (protocol : IpProtocol) (data : Bytes) (start k : Nat) :
    transportPort protocol (data.drop start) k
      = if protocol = .tcp ∨ protocol = .udp then fieldAt data (start + k) else none := by
  unfold transportPort fieldAt
  split
  · by_cases hlen : start + k + 2 ≤ data.length
    · have hdrop : k + 2 ≤ (data.drop start).length := by rw [List.length_drop]; omega
      rw [dif_pos hlen, dif_pos hdrop]
      refine congrArg (some ∘ u16FromBe) (ByteArr.toList_inj.mp ?_)
      rw [toList_slice, toList_slice, List.drop_drop]
    · have hdrop : ¬ k + 2 ≤ (data.drop start).length := by rw [List.length_drop]; omega
      rw [dif_neg hlen, dif_neg hdrop]
  · rfl

instance (p : IpPacket) : Decidable (TcpOrUdp p) := inferInstanceAs (Decidable (_ ∨ _))

theorem ports_eq {data : Bytes} {p : IpPacket} (h : IpPacket.parse data = some p) :
    p.srcPort = (if TcpOrUdp p then fieldAt data (p.headerLen + 0) else none)
      ∧ p.dstPort = if TcpOrUdp p then fieldAt data (p.headerLen + 2) else none := by
  obtain ⟨_, _, -, -, hpayload⟩ := IpPacket.parse_eq_some h
  cases p with
  | v4 q =>
      have hdrop : q.payload = data.drop q.headerLen := hpayload
      rw [IpPacket.srcPort, IpPacket.dstPort, Ipv4Packet.srcPort, Ipv4Packet.dstPort, hdrop]
      exact ⟨transportPort_eq .., transportPort_eq ..⟩
  | v6 q =>
      have hdrop : q.payload = data.drop 40 := hpayload
      rw [IpPacket.srcPort, IpPacket.dstPort, Ipv6Packet.srcPort, Ipv6Packet.dstPort, hdrop]
      exact ⟨transportPort_eq .., transportPort_eq ..⟩

/-! ## When it is right -/

/-- Reading a port is right where the bytes are there if and only if the packet carries it. -/
theorem portExact_iff {data : Bytes} {p : IpPacket} {k : Nat} {port : Option UInt16}
    (hport : port = if TcpOrUdp p then fieldAt data (p.headerLen + k) else none) :
    PortExact data p k port ↔ (TcpOrUdp p → (p.headerLen + k + 2 ≤ data.length
      ↔ fragmentOffset data p = 0 ∧ p.headerLen + k + 2 ≤ totalLen p)) := by
  have hsome : port.isSome ↔ TcpOrUdp p ∧ p.headerLen + k + 2 ≤ data.length := by
    rw [hport]
    unfold fieldAt
    split
    · split <;> simp_all
    · simp_all
  have hfield : ∀ v, port = some v → fieldAt data (p.headerLen + k) = some v := by
    rw [hport]
    intro v hv
    split at hv
    · exact hv
    · cases hv
  rw [PortExact, hsome, CarriesPort, and_iff_left hfield, and_congr_right_iff]

theorem dns_of_dstPort {data : Bytes} {p : IpPacket} (h : PortExact data p 2 p.dstPort)
    (hdns : p.isDnsQuery = true) :
    p.protocol = .udp ∧ CarriesPort data p 2 ∧ fieldAt data (p.headerLen + 2) = some 53 := by
  rw [IpPacket.isDnsQuery, Bool.and_eq_true, beq_iff_eq, beq_iff_eq] at hdns
  obtain ⟨hudp, hport⟩ := hdns
  exact ⟨hudp, h.1.mp (by rw [hport]; rfl), h.2 53 hport⟩

/-- A port is there exactly when the packet carries it. -/
theorem RegularV4.port_iff {data : Bytes} (h : RegularV4 data)
    (ht : data[9]? = some 6 ∨ data[9]? = some 17) {k : Nat} (hk : k + 2 ∈ [2, 4]) :
    4 * Headers.ihl data + k + 2 ≤ data.length
      ↔ word data 6 % 2 ^ 13 = 0 ∧ 4 * Headers.ihl data + k + 2 ≤ word data 2 := by
  constructor
  · intro hlen
    have hoffset : word data 6 % 2 ^ 13 = 0 := by
      by_contra hne
      have hshort := h.later ht hne
      omega
    exact ⟨hoffset, h.first ht hoffset (k + 2) hk hlen⟩
  · rintro ⟨-, hin⟩
    exact hin.trans h.present

theorem headerExact_v4 {data : Bytes} {q : Ipv4Packet}
    (h : IpPacket.parse data = some (.v4 q)) :
    HeaderExact data (.v4 q) ↔ RegularV4 data := by
  obtain ⟨-, hheader, htotal, hprotocol⟩ := parse_v4 h
  obtain ⟨hsrc, hdst⟩ := ports_eq h
  have hsrcIff := portExact_iff hsrc
  have hdstIff := portExact_iff hdst
  simp only [hprotocol, fragmentOffset, totalLen, htotal, IpPacket.headerLen, hheader]
    at hsrcIff hdstIff
  constructor
  · rintro ⟨hlengths, hsrcExact, hdstExact, -⟩
    obtain ⟨hmin, hle, hpresent⟩ := hlengths q rfl
    rw [hheader] at hmin hle
    rw [htotal] at hle hpresent
    have hsrcIs := hsrcIff.mp hsrcExact
    have hdstIs := hdstIff.mp hdstExact
    refine ⟨by omega, hle, hpresent, fun ht hoffset => ?_, fun ht hoffset n hn hlen => ?_⟩
    · exact Nat.lt_of_not_le fun hlen => hoffset ((hsrcIs ht).mp hlen).1
    · rcases List.mem_cons.mp hn with rfl | hn
      · exact ((hsrcIs ht).mp hlen).2
      · obtain rfl := List.mem_singleton.mp hn
        exact ((hdstIs ht).mp hlen).2
  · intro hregular
    have hsrcExact := hsrcIff.mpr fun ht => hregular.port_iff ht List.mem_cons_self
    have hdstExact := hdstIff.mpr fun ht =>
      hregular.port_iff ht (List.mem_cons_of_mem _ List.mem_cons_self)
    refine ⟨?_, hsrcExact, hdstExact, dns_of_dstPort hdstExact⟩
    rintro q' ⟨⟩
    rw [hheader, htotal]
    exact ⟨Nat.mul_le_mul_left 4 hregular.ihl, hregular.total, hregular.present⟩

theorem headerExact_v6 {data : Bytes} {q : Ipv6Packet}
    (h : IpPacket.parse data = some (.v6 q)) :
    HeaderExact data (.v6 q) ↔ RegularV6 data := by
  obtain ⟨-, hpayload, hprotocol⟩ := parse_v6 h
  obtain ⟨hsrc, hdst⟩ := ports_eq h
  have hsrcIff := portExact_iff hsrc
  have hdstIff := portExact_iff hdst
  simp only [hprotocol, fragmentOffset, totalLen, hpayload, IpPacket.headerLen, true_and]
    at hsrcIff hdstIff
  constructor
  · rintro ⟨-, hsrcExact, hdstExact, -⟩ ht n hn
    have hsrcIs := hsrcIff.mp hsrcExact ht
    have hdstIs := hdstIff.mp hdstExact ht
    rcases List.mem_cons.mp hn with rfl | hn
    · omega
    · obtain rfl := List.mem_singleton.mp hn
      omega
  · intro hregular
    have hdstExact := hdstIff.mpr fun ht => by
      have hfour := hregular ht 4 (by decide)
      omega
    refine ⟨fun q hq => (by cases hq), hsrcIff.mpr fun ht => ?_, hdstExact,
      dns_of_dstPort hdstExact⟩
    have htwo := hregular ht 2 (by decide)
    omega

/-- The lengths and the ports of a parsed packet are right exactly if its
header is regular. -/
theorem headerExact_iff {data : Bytes} {p : IpPacket} (h : IpPacket.parse data = some p) :
    HeaderExact data p ↔ Regular data p := by
  cases p with
  | v4 q => exact headerExact_v4 h
  | v6 q => exact headerExact_v6 h

/-! ## A fragment -/

/-- The second fragment of a datagram: it begins with the bytes 0, 53, 0, 53. -/
def laterFragment : Bytes :=
  [0x45, 0x00, 0x00, 0x18, 0x00, 0x01, 0x00, 0x01, 0x40, 0x11, 0x00, 0x00,
    0x0A, 0x08, 0x00, 0x02, 0x08, 0x08, 0x08, 0x08, 0x00, 0x35, 0x00, 0x35]

def laterFragmentIp : Ipv4Packet where
  src := ⟨[0x0A, 0x08, 0x00, 0x02], rfl⟩
  dst := ⟨[0x08, 0x08, 0x08, 0x08], rfl⟩
  protocol := .udp
  ttl := 0x40
  headerLen := 20
  totalLen := 24
  raw := laterFragment

theorem parse_laterFragment : IpPacket.parse laterFragment = some (.v4 laterFragmentIp) := by
  decide +kernel

/-- It is taken for a query, and its data for ports. -/
theorem fragment_taken_for_query :
    ¬ (∀ data p, IpPacket.parse data = some p → HeaderExact data p)
      ∧ (IpPacket.v4 laterFragmentIp).isDnsQuery = true
      ∧ fragmentOffset laterFragment (.v4 laterFragmentIp) = 1 := by
  have hdns : (IpPacket.v4 laterFragmentIp).isDnsQuery = true := by decide +kernel
  have hoffset : fragmentOffset laterFragment (.v4 laterFragmentIp) = 1 := by decide +kernel
  refine ⟨fun hall => ?_, hdns, hoffset⟩
  have hcarries := ((hall _ _ parse_laterFragment).dns hdns).2.1
  rw [CarriesPort, hoffset] at hcarries
  exact absurd hcarries.2.1 (by decide)

theorem not_regular_laterFragment :
    ¬ HeaderExact laterFragment (.v4 laterFragmentIp)
      ∧ ¬ Regular laterFragment (.v4 laterFragmentIp) := by
  have hnot : ¬ Regular laterFragment (.v4 laterFragmentIp) := fun hregular =>
    absurd (hregular.later (Or.inr (by decide)) (by decide +kernel)) (by decide)
  exact ⟨fun hexact => hnot ((headerExact_iff parse_laterFragment).mp hexact), hnot⟩

end Headers

end Kanrin
