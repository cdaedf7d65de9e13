import Mathlib.Data.Set.Operations
import Mathlib.Data.Set.Function
import Kanrin.Resume

/-!
# What a resume proof proves

The two proofs of `resume.rs` are MACs of concatenated fields under one
key. Every field has a fixed width, so a transcript can be split in only
one way (`transcript_inj`), and the two labels differ in length, so no
request has the transcript of a response (`transcript_ne`). Under a MAC
that keeps its inputs apart, a proof then stands for the fields it was
computed over and for nothing else.
-/

namespace Kanrin

open Lib

/-- No two of these MACs are equal, nor the resumption keys of two of these
sessions. Of a single session's keys the second says nothing. -/
structure Primitives.Ideal (P : Primitives) (calls : Set (Key × Bytes))
    (sessions : Set SessionKeys) : Prop where
  mac : Set.InjOn (fun call => P.hmac call.1 call.2) calls
  resumptionKey : Set.InjOn (deriveResumptionKey P) sessions

/-! ## Transcripts -/

def ResumeRequest.transcript (r : ResumeRequest) : List Bytes :=
  [ascii "kanrin-resume-request", r.sessionId.toList, (u64ToBe r.timestamp).toList,
    r.clientRandom.toList, (u64ToBe r.nextExpected).toList]

def ResumeResponse.transcript (r : ResumeResponse) (request : ResumeRequest) : List Bytes :=
  [ascii "kanrin-resume-response", request.clientRandom.toList, [r.status.toByte],
    r.serverRandom.toList, (u64ToBe r.nextExpected).toList]

theorem ResumeRequest.computeProof_eq (P : Primitives) (r : ResumeRequest) (key : Key) :
    r.computeProof P key = P.hmac key r.transcript.flatten := rfl

theorem ResumeResponse.computeProof_eq (P : Primitives) (r : ResumeResponse) (key : Key)
    (request : ResumeRequest) :
    r.computeProof P key request = P.hmac key (r.transcript request).flatten := rfl

theorem ResumeStatus.toByte_inj {a b : ResumeStatus} : a.toByte = b.toByte ↔ a = b := by
  constructor
  · intro h
    have hread := congrArg ResumeStatus.fromByte h
    rw [fromByte_toByte, fromByte_toByte] at hread
    exact Except.ok.inj hread
  · exact congrArg _

theorem ResumeRequest.transcript_inj {r r' : ResumeRequest} :
    r.transcript.flatten = r'.transcript.flatten
      ↔ r.sessionId = r'.sessionId ∧ r.timestamp = r'.timestamp
        ∧ r.clientRandom = r'.clientRandom ∧ r.nextExpected = r'.nextExpected := by
  have hwidths : r.transcript.map List.length = r'.transcript.map List.length := by
    simp [transcript]
  rw [flatten_inj_of_widths hwidths]
  simp only [transcript, List.cons.injEq, ByteArr.toList_inj, u64ToBe_inj, true_and, and_true]

theorem ResumeResponse.transcript_inj {r r' : ResumeResponse} {request request' : ResumeRequest} :
    (r.transcript request).flatten = (r'.transcript request').flatten
      ↔ request.clientRandom = request'.clientRandom ∧ r.status = r'.status
        ∧ r.serverRandom = r'.serverRandom ∧ r.nextExpected = r'.nextExpected := by
  have hwidths : (r.transcript request).map List.length
      = (r'.transcript request').map List.length := by
    simp [transcript]
  rw [flatten_inj_of_widths hwidths]
  simp only [transcript, List.cons.injEq, ByteArr.toList_inj, u64ToBe_inj,
    ResumeStatus.toByte_inj, true_and, and_true]

/-- 85 bytes against 95. -/
theorem transcript_ne (r : ResumeRequest) (response : ResumeResponse) (request : ResumeRequest) :
    r.transcript.flatten ≠ (response.transcript request).flatten := by
  intro h
  have hlen := congrArg List.length h
  have hrequest : (ascii "kanrin-resume-request").length = 21 := by decide
  have hresponse : (ascii "kanrin-resume-response").length = 22 := by decide
  simp [ResumeRequest.transcript, ResumeResponse.transcript, hrequest, hresponse] at hlen

/-! ## Verification -/

section
variable {P : Primitives} {keys : SessionKeys} {key : Key}

theorem ResumeRequest.verify_eq_ok (hkey : deriveResumptionKey P keys = .ok key)
    (r : ResumeRequest) (now : UInt64) :
    r.verify P keys now = .ok .ok
      ↔ absDiff now r.timestamp ≤ maxResumeDriftSecs ∧ r.computeProof P key = r.proof := by
  rw [verify, ← not_lt]
  by_cases hstale : absDiff now r.timestamp > maxResumeDriftSecs
  · rw [if_pos hstale]
    exact iff_of_false (by rintro ⟨⟩) fun h => h.1 hstale
  · rw [if_neg hstale]
    simp only [hkey, bind, Except.bind, pure, Except.pure, constantTimeEq_iff, ByteArr.toList_inj]
    by_cases hproof : r.computeProof P key = r.proof
    · rw [if_pos hproof]
      exact iff_of_true rfl ⟨hstale, hproof⟩
    · rw [if_neg hproof]
      exact iff_of_false (by rintro ⟨⟩) fun h => hproof h.2

theorem ResumeResponse.verify_eq_true (hkey : deriveResumptionKey P keys = .ok key)
    (r : ResumeResponse) (request : ResumeRequest) :
    r.verify P request keys = .ok true ↔ r.computeProof P key request = r.proof := by
  simp only [verify, hkey, bind, Except.bind, pure, Except.pure, Except.ok.injEq,
    constantTimeEq_iff, ByteArr.toList_inj]

end

/-- Equal MACs are of equal transcripts, in one session. -/
theorem Primitives.Ideal.hmac_iff {P : Primitives} {calls : Set (Key × Bytes)}
    {sessions : Set SessionKeys} (hideal : P.Ideal calls sessions) {keys keys' : SessionKeys}
    (hkeys : keys ∈ sessions) (hkeys' : keys' ∈ sessions) {key key' : Key}
    (hkey : deriveResumptionKey P keys = .ok key) (hkey' : deriveResumptionKey P keys' = .ok key')
    (parts parts' : List Bytes) (hparts : (key, parts.flatten) ∈ calls)
    (hparts' : (key', parts'.flatten) ∈ calls) :
    P.hmac key parts.flatten = P.hmac key' parts'.flatten
      ↔ parts.flatten = parts'.flatten ∧ keys = keys' := by
  constructor
  · intro h
    obtain ⟨rfl, hflat⟩ := Prod.mk.inj (hideal.mac hparts hparts' h)
    exact ⟨hflat, hideal.resumptionKey hkeys hkeys' (hkey.trans hkey'.symm)⟩
  · rintro ⟨hflat, rfl⟩
    obtain rfl := Except.ok.inj (hkey.symm.trans hkey')
    rw [hflat]

/-- A proof verifies for the fields, the session and the kind of message it
was computed over, and no others. -/
theorem resume_unambiguous {P : Primitives} {calls : Set (Key × Bytes)}
    {sessions : Set SessionKeys} (hideal : P.Ideal calls sessions) {keys keys' : SessionKeys}
    (hkeys : keys ∈ sessions) (hkeys' : keys' ∈ sessions) {key key' : Key}
    (hkey : deriveResumptionKey P keys = .ok key) (hkey' : deriveResumptionKey P keys' = .ok key') :
    (∀ (r built : ResumeRequest) (now : UInt64), (key, r.transcript.flatten) ∈ calls →
        (key', built.transcript.flatten) ∈ calls → r.proof = built.computeProof P key' →
        (r.verify P keys now = .ok .ok ↔ absDiff now r.timestamp ≤ maxResumeDriftSecs
          ∧ (r.sessionId = built.sessionId ∧ r.timestamp = built.timestamp
            ∧ r.clientRandom = built.clientRandom ∧ r.nextExpected = built.nextExpected)
          ∧ keys = keys'))
    ∧ (∀ (r built : ResumeResponse) (request answered : ResumeRequest),
        (key, (r.transcript request).flatten) ∈ calls →
        (key', (built.transcript answered).flatten) ∈ calls →
        r.proof = built.computeProof P key' answered →
        (r.verify P request keys = .ok true ↔
          (request.clientRandom = answered.clientRandom ∧ r.status = built.status
            ∧ r.serverRandom = built.serverRandom ∧ r.nextExpected = built.nextExpected)
          ∧ keys = keys'))
    ∧ (∀ (r : ResumeResponse) (request built : ResumeRequest),
        (key, (r.transcript request).flatten) ∈ calls → (key', built.transcript.flatten) ∈ calls →
        r.proof = built.computeProof P key' → r.verify P request keys ≠ .ok true)
    ∧ (∀ (r : ResumeRequest) (built : ResumeResponse) (answered : ResumeRequest) (now : UInt64),
        (key, r.transcript.flatten) ∈ calls →
        (key', (built.transcript answered).flatten) ∈ calls →
        r.proof = built.computeProof P key' answered → r.verify P keys now ≠ .ok .ok) := by
  have hmac := hideal.hmac_iff hkeys hkeys' hkey hkey'
  refine ⟨?_, ?_, ?_, ?_⟩
  · intro r built now hr hbuilt hproof
    rw [ResumeRequest.verify_eq_ok hkey, hproof, ResumeRequest.computeProof_eq,
      ResumeRequest.computeProof_eq, hmac _ _ hr hbuilt, ResumeRequest.transcript_inj]
  · intro r built request answered hr hbuilt hproof
    rw [ResumeResponse.verify_eq_true hkey, hproof, ResumeResponse.computeProof_eq,
      ResumeResponse.computeProof_eq, hmac _ _ hr hbuilt, ResumeResponse.transcript_inj]
  · intro r request built hr hbuilt hproof hverify
    rw [ResumeResponse.verify_eq_true hkey, hproof, ResumeResponse.computeProof_eq,
      ResumeRequest.computeProof_eq, hmac _ _ hr hbuilt] at hverify
    exact transcript_ne built r request hverify.1.symm
  · intro r built answered now hr hbuilt hproof hverify
    rw [ResumeRequest.verify_eq_ok hkey, hproof, ResumeRequest.computeProof_eq,
      ResumeResponse.computeProof_eq, hmac _ _ hr hbuilt] at hverify
    exact transcript_ne r built answered hverify.2.1

/-! ## A request and a response, tampered with -/

def plainResumptionKey : Key := List.Vector.replicate 32 (UInt8.ofNat 'r'.toNat)

/-- With the proof it is signed with. -/
def signedRequest (nextExpected : UInt64) : ResumeRequest :=
  let r : ResumeRequest := ⟨zeroArr 16, 1000, zeroArr 32, nextExpected, zeroArr 32⟩
  { r with proof := r.computeProof .plain plainResumptionKey }

def signedResponse (request : ResumeRequest) : ResumeResponse :=
  let r : ResumeResponse := ⟨.ok, zeroArr 32, 5, zeroArr 32⟩
  { r with proof := r.computeProof .plain plainResumptionKey request }

/-- The receive position is moved on. -/
def tamperedRequest : ResumeRequest := { signedRequest 7 with nextExpected := 8 }

/-- A later request, for which the response was not made. -/
def laterRequest : ResumeRequest :=
  { signedRequest 7 with clientRandom := List.Vector.replicate 32 1 }

def sampleCalls : List (Key × Bytes) :=
  [(plainResumptionKey, (signedRequest 7).transcript.flatten),
    (plainResumptionKey, tamperedRequest.transcript.flatten),
    (plainResumptionKey, ((signedResponse (signedRequest 7)).transcript (signedRequest 7)).flatten),
    (plainResumptionKey, ((signedResponse (signedRequest 7)).transcript laterRequest).flatten)]

theorem resume_unambiguous_tampered :
    (signedRequest 7).verify .plain plainKeys 1030 = .ok .ok
      ∧ tamperedRequest.verify .plain plainKeys 1030 ≠ .ok .ok
      ∧ (signedResponse (signedRequest 7)).verify .plain (signedRequest 7) plainKeys = .ok true
      ∧ (signedResponse (signedRequest 7)).verify .plain laterRequest plainKeys ≠ .ok true := by
  have hideal : Primitives.plain.Ideal {call | call ∈ sampleCalls} {plainKeys} := by
    refine ⟨?_, Set.injOn_singleton ..⟩
    have hall : ∀ a ∈ sampleCalls, ∀ b ∈ sampleCalls,
        Primitives.plain.hmac a.1 a.2 = Primitives.plain.hmac b.1 b.2 → a = b := by
      decide +kernel
    exact fun a ha b hb h => hall a ha b hb h
  have hkey : deriveResumptionKey .plain plainKeys = .ok plainResumptionKey := by decide +kernel
  obtain ⟨hrequest, hresponse, -, -⟩ := resume_unambiguous hideal (Set.mem_singleton plainKeys)
    (Set.mem_singleton plainKeys) hkey hkey
  refine ⟨?_, ?_, ?_, ?_⟩
  · refine (hrequest _ (signedRequest 7) 1030 ?_ ?_ rfl).mpr ⟨by decide, ⟨rfl, rfl, rfl, rfl⟩, rfl⟩
    · exact List.mem_cons_self
    · exact List.mem_cons_self
  · intro h
    have hfields := ((hrequest tamperedRequest (signedRequest 7) 1030 ?_ ?_ rfl).mp h).2.1
    · exact absurd hfields.2.2.2 (by decide)
    · simp [sampleCalls]
    · simp [sampleCalls]
  · refine (hresponse _ (signedResponse (signedRequest 7)) _ (signedRequest 7) ?_ ?_ rfl).mpr
      ⟨⟨rfl, rfl, rfl, rfl⟩, rfl⟩
    · simp [sampleCalls]
    · simp [sampleCalls]
  · intro h
    have hfields := ((hresponse (signedResponse (signedRequest 7))
      (signedResponse (signedRequest 7)) laterRequest (signedRequest 7) ?_ ?_ rfl).mp h).1
    · exact absurd hfields.1 (by decide)
    · simp [sampleCalls]
    · simp [sampleCalls]

end Kanrin
