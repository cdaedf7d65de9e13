import Kanrin.Lib.DnsGrammar
import Kanrin.Interception

/-!
# DNS responses

`build_dns_response` of `kanrin-tun/src/dns.rs`, given a DNS message. It
copies the query, overwrites the flags and the number of answers, finds the
end of the question, and then puts the answers behind everything else. Where
the query has records of its own, the header says that these are the answers
(`synthesised_iff`).
-/

namespace Kanrin

open Lib

namespace Responses

/-! ## Queries and responses -/

/-- A query: whatever its flags and its records, it answers nothing itself. -/
structure Query where
  message : Dns.Message
  wellFormed : message.WellFormed
  answers : message.answers = []

/-- The IPv4 addresses, in order. -/
def ipv4s (addresses : List IpAddr) : List Ipv4Addr :=
  addresses.filterMap fun
    | .v4 ip => some ip
    | .v6 _ => none

/-- The name of the question, by a pointer to where it stands. -/
def answer (ip : Ipv4Addr) : Dns.Record where
  name := [0xC0, 0x0C]
  rtype := Dns.typeA
  rclass := 1
  ttl := 60
  rdata := ip.toList

/-- The bytes are a message that has the id and the question of the query,
one answer for each IPv4 address, and then the records of the query. -/
def Synthesised (q : Query) (addresses : List IpAddr) (response : Bytes) : Prop :=
  ∃ r, Dns.Message.parse response = some r ∧ r.id = q.message.id
    ∧ r.question = q.message.question ∧ r.answers = (ipv4s addresses).map answer
    ∧ r.authority = q.message.authority ∧ r.additional = q.message.additional

/-- The records the query comes with. -/
def trailing (q : Query) : Bytes :=
  (q.message.authority ++ q.message.additional).flatMap Dns.Record.encode

/-- The answers can be counted, and it makes no difference whether they stand
in front of the records of the query or behind them. -/
structure InPlace (q : Query) (addresses : List IpAddr) : Prop where
  countable : (ipv4s addresses).length < 2 ^ 16
  commute : trailing q ++ addresses.flatMap answerRecord
    = addresses.flatMap answerRecord ++ trailing q

/-! ## The bytes of a response -/

theorem length_ipv4s (addresses : List IpAddr) :
    (addresses.filter IpAddr.isIpv4).length = (ipv4s addresses).length := by
  induction addresses with
  | nil => rfl
  | cons a addresses ih =>
      cases a with
      | v4 ip => exact congrArg (· + 1) ih
      | v6 ip => exact ih

theorem encode_answer (ip : Ipv4Addr) : (answer ip).encode = answerRecord (.v4 ip) := by
  have hlen : UInt16.ofNat ip.toList.length = 4 := by rw [ip.toList_length]; rfl
  simp only [Dns.Record.encode, answer, hlen, answerRecord]
  rfl

theorem flatMap_answers (addresses : List IpAddr) :
    ((ipv4s addresses).map answer).flatMap Dns.Record.encode
      = addresses.flatMap answerRecord := by
  induction addresses with
  | nil => rfl
  | cons a addresses ih =>
      rw [List.flatMap_cons, ← ih]
      cases a with
      | v4 ip => rw [← encode_answer]; rfl
      | v6 ip => rfl

theorem wellFormed_answer (ip : Ipv4Addr) : (answer ip).WellFormed where
  name := by
    refine ⟨{ labels := [], last := .pointer 0xC0 0x0C }, ⟨fun _ h => (nomatch h), ?_⟩, rfl⟩
    rintro hi lo ⟨⟩
    exact UInt8.le_refl _
  rdata := by
    rw [answer, ip.toList_length]
    decide

/-- A word is its two bytes. -/
theorem toList_u16ToBe (a : UInt16) :
    (u16ToBe a).toList = [(a >>> 8).toUInt8, (a &&& 0xFF).toUInt8] := by
  have ha := a.toNat_lt
  have hlist : (u16ToBe a).toList
      = [UInt8.ofNat (a.toNat / 256 ^ 1), UInt8.ofNat (a.toNat / 256 ^ 0)] := rfl
  rw [hlist, List.cons.injEq, List.cons.injEq]
  refine ⟨UInt8.toNat_inj.mp ?_, UInt8.toNat_inj.mp ?_, rfl⟩
  · simp [Nat.shiftRight_eq_div_pow]
  · simpa using (Nat.and_two_pow_sub_one_eq_mod (a.toNat % 256) 8).symm

/-- The query with other flags and another number of answers, and the answers behind it. -/
theorem buildDnsResponse_encode (m : Dns.Message) (addresses : List IpAddr) :
    buildDnsResponse m.encode addresses
      = (u16ToBe m.id).toList ++ ((u16ToBe 0x8180).toList ++ ((u16ToBe 1).toList
        ++ ((u16ToBe (UInt16.ofNat (ipv4s addresses).length)).toList
        ++ (Dns.Message.count m.authority ++ (Dns.Message.count m.additional
        ++ (m.question.encode
        ++ ((m.answers ++ m.authority ++ m.additional).flatMap Dns.Record.encode
        ++ addresses.flatMap answerRecord))))))) := by
  have hlen := m.length_encode
  rw [buildDnsResponse, if_neg (by omega), length_ipv4s, Dns.Message.encode]
  simp only [toList_u16ToBe, Dns.Message.count, List.cons_append, List.nil_append,
    List.set_cons_succ, List.set_cons_zero, List.append_assoc]
  rfl

theorem encode_response (q : Query) (r : Dns.Message) (addresses : List IpAddr)
    (hr : r.answers = (ipv4s addresses).map answer) (hauthority : r.authority = q.message.authority)
    (hadditional : r.additional = q.message.additional)
    (hquestion : r.question = q.message.question) (hid : r.id = q.message.id) :
    r.encode = (u16ToBe q.message.id).toList ++ ((u16ToBe r.flags).toList ++ ((u16ToBe 1).toList
        ++ ((u16ToBe (UInt16.ofNat (ipv4s addresses).length)).toList
        ++ (Dns.Message.count q.message.authority ++ (Dns.Message.count q.message.additional
        ++ (q.message.question.encode
        ++ (addresses.flatMap answerRecord ++ trailing q))))))) := by
  rw [Dns.Message.encode, hr, hauthority, hadditional, hquestion, hid, Dns.Message.count,
    List.length_map, List.append_assoc, List.flatMap_append, flatMap_answers, trailing]

/-! ## When a response is in order -/

theorem synthesised_iff (q : Query) (addresses : List IpAddr) :
    Synthesised q addresses (buildDnsResponse q.message.encode addresses)
      ↔ InPlace q addresses := by
  have hbytes := buildDnsResponse_encode q.message addresses
  rw [q.answers, List.nil_append, ← trailing] at hbytes
  constructor
  · rintro ⟨r, hparse, hid, hquestion, hanswers, hauthority, hadditional⟩
    obtain ⟨hr, hencode⟩ := Dns.Message.parse_eq_some_iff.mp hparse
    refine ⟨?_, ?_⟩
    · have hfits := hr.fits.answers
      rwa [hanswers, List.length_map] at hfits
    · rw [hbytes, encode_response q r addresses hanswers hauthority hadditional hquestion hid]
        at hencode
      obtain ⟨-, hflags⟩ := List.append_inj hencode rfl
      obtain ⟨-, hrest⟩ := List.append_inj hflags (by simp)
      simpa only [List.append_cancel_left_eq] using hrest
  · rintro ⟨hcount, hcommute⟩
    refine ⟨{ q.message with flags := 0x8180, answers := (ipv4s addresses).map answer }, ?_,
      rfl, rfl, rfl, rfl, rfl⟩
    refine Dns.Message.parse_eq_some_iff.mpr ⟨?_, ?_⟩
    · refine ⟨⟨?_, q.wellFormed.fits.authority, q.wellFormed.fits.additional⟩,
        q.wellFormed.question, fun r hr => ?_, q.wellFormed.authority, q.wellFormed.additional⟩
      · rwa [List.length_map]
      · obtain ⟨ip, -, rfl⟩ := List.mem_map.mp hr
        exact wellFormed_answer ip
    · rw [hbytes, hcommute]
      exact (encode_response q
        { q.message with flags := 0x8180, answers := (ipv4s addresses).map answer } addresses
        rfl rfl rfl rfl rfl).symm

/-- The response is in order where the query has no records, or nothing is answered. -/
theorem inPlace_of_no_records {q : Query} {addresses : List IpAddr}
    (hcount : (ipv4s addresses).length < 2 ^ 16)
    (h : (q.message.authority = [] ∧ q.message.additional = []) ∨ ipv4s addresses = []) :
    InPlace q addresses := by
  refine ⟨hcount, ?_⟩
  rcases h with ⟨hauthority, hadditional⟩ | hnone
  · have htrailing : trailing q = [] := by rw [trailing, hauthority, hadditional]; rfl
    rw [htrailing, List.nil_append, List.append_nil]
  · have hanswers : addresses.flatMap answerRecord = [] := by
      rw [← flatMap_answers, hnone]
      rfl
    rw [hanswers, List.nil_append, List.append_nil]

/-! ## A query with an OPT record -/

/-- EDNS: a message of up to 4096 bytes can be received. -/
def ednsQuery : Query where
  message :=
    { id := 0x1234
      flags := 0x0100
      question := { labels := [ascii "example", ascii "com"], qtype := Dns.typeA, qclass := 1 }
      answers := []
      authority := []
      additional := [{ name := [0], rtype := 41, rclass := 4096, ttl := 0, rdata := [] }] }
  wellFormed := by
    refine ⟨⟨by decide, by decide, by decide⟩, by unfold Dns.Question.Legible; decide,
      fun _ h => (nomatch h), fun _ h => (nomatch h), fun r hr => ?_⟩
    obtain rfl := List.mem_singleton.mp hr
    refine ⟨⟨{ labels := [], last := .root }, ⟨fun _ h => (nomatch h), ?_⟩, rfl⟩, by decide⟩
    exact fun _ _ h => nomatch h
  answers := rfl

/-- The one answer that the header announces is the OPT record of the query. -/
theorem edns_misplaced :
    ¬ Synthesised ednsQuery [.v4 ⟨[198, 18, 0, 1], rfl⟩]
        (buildDnsResponse ednsQuery.message.encode [.v4 ⟨[198, 18, 0, 1], rfl⟩])
      ∧ (Dns.Message.parse (buildDnsResponse ednsQuery.message.encode
          [.v4 ⟨[198, 18, 0, 1], rfl⟩])).map (·.answers)
        = some ednsQuery.message.additional := by
  have hparse : (Dns.Message.parse (buildDnsResponse ednsQuery.message.encode
      [.v4 ⟨[198, 18, 0, 1], rfl⟩])).map (·.answers) = some ednsQuery.message.additional := by
    decide +kernel
  refine ⟨?_, hparse⟩
  rintro ⟨r, hr, -, -, hanswers, -⟩
  rw [hr, Option.map_some, Option.some.injEq, hanswers] at hparse
  exact absurd hparse (by decide)

end Responses

end Kanrin
