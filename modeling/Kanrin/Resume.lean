import Mathlib.Logic.Function.Basic
import Kanrin.SendBuffer
import Kanrin.ReceiveBuffer
import Kanrin.Handshake

/-!
# The resumption handshake

`kanrin-protocol/src/resume.rs`, `resume_on` of the client's `switch.rs`
and `ClientSession::accept_resume` of the server's `session.rs`.

The proof in a request is a MAC of its other fields under a key derived
from the session keys, so a request is determined by its fields and the
keys; `signed_of_new` and `verify_of_signed` say that what one side signs
the other accepts while it is fresh. `acceptResume_iff` is everything the
server asks of a signed request.
-/

namespace Kanrin

open Lib

def maxResumeDriftSecs : UInt64 := 30

inductive ResumeStatus where
  | ok
  | unknownSession
  | proofInvalid
  | stale
  | notResumable
deriving DecidableEq, Repr

def ResumeStatus.toByte : ResumeStatus → UInt8
  | .ok => 0x00
  | .unknownSession => 0x01
  | .proofInvalid => 0x02
  | .stale => 0x03
  | .notResumable => 0x04

def ResumeStatus.fromByte (b : UInt8) : Result ResumeStatus :=
  if b = 0x00 then .ok .ok
  else if b = 0x01 then .ok .unknownSession
  else if b = 0x02 then .ok .proofInvalid
  else if b = 0x03 then .ok .stale
  else if b = 0x04 then .ok .notResumable
  else .error (.handshakeFailed ("unknown resume status: 0x" ++ hexByte b))

@[simp] theorem ResumeStatus.fromByte_toByte (s : ResumeStatus) : fromByte s.toByte = .ok s := by
  cases s <;> rfl

/-! ## The request -/

structure ResumeRequest where
  sessionId : SessionId
  timestamp : UInt64
  clientRandom : ByteArr 32
  nextExpected : UInt64
  proof : ByteArr 32
deriving DecidableEq

namespace ResumeRequest

def encode (r : ResumeRequest) : Bytes :=
  r.sessionId.toList ++ ((u64ToBe r.timestamp).toList ++ (r.clientRandom.toList ++
    ((u64ToBe r.nextExpected).toList ++ r.proof.toList)))

def decode (data : Bytes) : Result ResumeRequest :=
  if h : data.length < 96 then .error (.bufferTooShort 96 data.length)
  else .ok
    { sessionId := slice data 0 16
      timestamp := u64FromBe (slice data 16 8)
      clientRandom := slice data 24 32
      nextExpected := u64FromBe (slice data 56 8)
      proof := slice data 64 32 }

@[simp] theorem length_encode (r : ResumeRequest) : r.encode.length = 96 := by
  simp [encode]

theorem decode_encode (r : ResumeRequest) : decode r.encode = .ok r := by
  have hlen : ¬ r.encode.length < 96 := by simp
  have hid : ∀ hb, slice r.encode 0 16 hb = r.sessionId := fun hb =>
    slice_of_append (p := []) rfl rfl hb
  have hts : ∀ hb, slice r.encode 16 8 hb = u64ToBe r.timestamp := fun hb =>
    slice_of_append (p := r.sessionId.toList) rfl (by simp) hb
  have hrnd : ∀ hb, slice r.encode 24 32 hb = r.clientRandom := fun hb =>
    slice_of_append (p := r.sessionId.toList ++ (u64ToBe r.timestamp).toList)
      (by simp [encode]; rfl) (by simp) hb
  have hnext : ∀ hb, slice r.encode 56 8 hb = u64ToBe r.nextExpected := fun hb =>
    slice_of_append
      (p := r.sessionId.toList ++ ((u64ToBe r.timestamp).toList ++ r.clientRandom.toList))
      (t := r.proof.toList) (by simp [encode]) (by simp) hb
  have hproof : ∀ hb, slice r.encode 64 32 hb = r.proof := fun hb =>
    slice_of_append
      (p := r.sessionId.toList ++ ((u64ToBe r.timestamp).toList ++ (r.clientRandom.toList ++
        (u64ToBe r.nextExpected).toList)))
      (t := []) (by simp [encode]) (by simp) hb
  simp only [decode, dif_neg hlen, hid, hts, hrnd, hnext, hproof, u64FromBe_toBe]

variable (P : Primitives)

def computeProof (r : ResumeRequest) (resumptionKey : Key) : ByteArr 32 :=
  macSha256 P resumptionKey
    [ascii "kanrin-resume-request", r.sessionId.toList, (u64ToBe r.timestamp).toList,
      r.clientRandom.toList, (u64ToBe r.nextExpected).toList]

def new (sessionId : SessionId) (nextExpected : UInt64) (keys : SessionKeys) (now : UInt64)
    (clientRandom : ByteArr 32) : Result ResumeRequest := do
  let req : ResumeRequest :=
    { sessionId, timestamp := now, clientRandom, nextExpected, proof := zeroArr 32 }
  let key ← deriveResumptionKey P keys
  return { req with proof := req.computeProof P key }

def verify (r : ResumeRequest) (keys : SessionKeys) (now : UInt64) : Result ResumeStatus := do
  if absDiff now r.timestamp > maxResumeDriftSecs then return .stale
  let key ← deriveResumptionKey P keys
  if constantTimeEq (r.computeProof P key).toList r.proof.toList then return .ok
  else return .proofInvalid

/-- The request carries the proof its keys give it. -/
def Signed (r : ResumeRequest) (keys : SessionKeys) : Prop :=
  ∃ key, deriveResumptionKey P keys = .ok key ∧ r.proof = r.computeProof P key

variable {P}

theorem signed_of_new {id : SessionId} {next now : UInt64} {keys : SessionKeys}
    {random : ByteArr 32} {r : ResumeRequest} (h : new P id next keys now random = .ok r) :
    r.Signed P keys ∧ r.sessionId = id ∧ r.timestamp = now ∧ r.clientRandom = random
      ∧ r.nextExpected = next := by
  obtain ⟨key, hkey, h⟩ := bind_eq_ok.mp h
  obtain rfl := Except.ok.inj h
  exact ⟨⟨key, hkey, rfl⟩, rfl, rfl, rfl, rfl⟩

/-- A signed request is accepted while it is fresh, and stale after. -/
theorem verify_of_signed {r : ResumeRequest} {keys : SessionKeys} (h : r.Signed P keys)
    (now : UInt64) :
    r.verify P keys now
      = .ok (if absDiff now r.timestamp > maxResumeDriftSecs then .stale else .ok) := by
  obtain ⟨key, hkey, hproof⟩ := h
  have heq : constantTimeEq (r.computeProof P key).toList r.proof.toList = true := by
    rw [constantTimeEq_iff, hproof]
  unfold verify
  split
  · rfl
  · simp only [hkey, heq, bind, Except.bind, if_true]
    rfl

end ResumeRequest

/-! ## The response -/

structure ResumeResponse where
  status : ResumeStatus
  serverRandom : ByteArr 32
  nextExpected : UInt64
  proof : ByteArr 32
deriving DecidableEq

namespace ResumeResponse

def encode (r : ResumeResponse) : Bytes :=
  r.status.toByte ::
    (r.serverRandom.toList ++ ((u64ToBe r.nextExpected).toList ++ r.proof.toList))

theorem status_lt {data : Bytes} (h : ¬ data.length < 73) : 0 < data.length := by omega

theorem serverRandom_le {data : Bytes} (h : ¬ data.length < 73) : 1 + 32 ≤ data.length := by omega

theorem nextExpected_le {data : Bytes} (h : ¬ data.length < 73) : 33 + 8 ≤ data.length := by omega

theorem proof_le {data : Bytes} (h : ¬ data.length < 73) : 41 + 32 ≤ data.length := by omega

def decode (data : Bytes) : Result ResumeResponse :=
  if h : data.length < 73 then .error (.bufferTooShort 73 data.length)
  else do
    let status ← ResumeStatus.fromByte (getElem data 0 (status_lt h))
    return { status
             serverRandom := slice data 1 32 (serverRandom_le h)
             nextExpected := u64FromBe (slice data 33 8 (nextExpected_le h))
             proof := slice data 41 32 (proof_le h) }

@[simp] theorem length_encode (r : ResumeResponse) : r.encode.length = 73 := by
  simp [encode]

theorem decode_encode (r : ResumeResponse) : decode r.encode = .ok r := by
  have hlen : ¬ r.encode.length < 73 := by simp
  have hrnd : ∀ hb, slice r.encode 1 32 hb = r.serverRandom := fun hb =>
    slice_of_append (p := [r.status.toByte]) rfl rfl hb
  have hnext : ∀ hb, slice r.encode 33 8 hb = u64ToBe r.nextExpected := fun hb =>
    slice_of_append (p := r.status.toByte :: r.serverRandom.toList) rfl (by simp) hb
  have hproof : ∀ hb, slice r.encode 41 32 hb = r.proof := fun hb =>
    slice_of_append
      (p := r.status.toByte :: (r.serverRandom.toList ++ (u64ToBe r.nextExpected).toList))
      (t := []) (by simp [encode]) (by simp) hb
  have hstatus : r.encode[0] = r.status.toByte := rfl
  simp only [decode, dif_neg hlen, hstatus, ResumeStatus.fromByte_toByte, bind, Except.bind,
    hrnd, hnext, hproof, u64FromBe_toBe]
  rfl

variable (P : Primitives)

def computeProof (r : ResumeResponse) (resumptionKey : Key) (request : ResumeRequest) :
    ByteArr 32 :=
  macSha256 P resumptionKey
    [ascii "kanrin-resume-response", request.clientRandom.toList, [r.status.toByte],
      r.serverRandom.toList, (u64ToBe r.nextExpected).toList]

def new (status : ResumeStatus) (nextExpected : UInt64) (request : ResumeRequest)
    (keys : SessionKeys) (serverRandom : ByteArr 32) : Result ResumeResponse := do
  let resp : ResumeResponse := { status, serverRandom, nextExpected, proof := zeroArr 32 }
  let key ← deriveResumptionKey P keys
  return { resp with proof := resp.computeProof P key request }

def verify (r : ResumeResponse) (request : ResumeRequest) (keys : SessionKeys) : Result Bool := do
  let key ← deriveResumptionKey P keys
  return constantTimeEq (r.computeProof P key request).toList r.proof.toList

variable {P}

/-- Whoever can sign a request can sign, and check, its response. -/
theorem new_of_signed {request : ResumeRequest} {keys : SessionKeys} (h : request.Signed P keys)
    (status : ResumeStatus) (next : UInt64) (random : ByteArr 32) :
    ∃ r, new P status next request keys random = .ok r ∧ r.status = status
      ∧ r.nextExpected = next ∧ r.verify P request keys = .ok true := by
  obtain ⟨key, hkey, -⟩ := h
  let resp : ResumeResponse :=
    { status, serverRandom := random, nextExpected := next, proof := zeroArr 32 }
  refine ⟨{ resp with proof := resp.computeProof P key request }, ?_, rfl, rfl, ?_⟩
  · simp only [new, hkey, bind, Except.bind, pure, Except.pure, resp]
  · have heq : constantTimeEq (resp.computeProof P key request).toList
        (resp.computeProof P key request).toList = true := constantTimeEq_iff.mpr rfl
    simp only [verify, hkey, bind, Except.bind, pure, Except.pure]
    exact congrArg Except.ok heq

end ResumeResponse

/-! ## The two frames -/

section
variable (P : Primitives)

/-- A resume chunk under the all-zero key and nonce. -/
def resumeFrame (payload : Bytes) : Result Bytes :=
  (Chunk.newResume payload).encodeEncrypted P tempKey tempNonce noPadding

/-- What `resume_on` signs and sends. -/
def resumeRequestFrame (sessionId : SessionId) (nextExpected : UInt64) (keys : SessionKeys)
    (now : UInt64) (clientRandom : ByteArr 32) : Result (ResumeRequest × Bytes) := do
  let request ← ResumeRequest.new P sessionId nextExpected keys now clientRandom
  let frame ← resumeFrame P request.encode
  return (request, frame)

/-- Why `resume_on` gives a response up. -/
inductive ResumeError where
  | tooShort
  | header (e : ProtocolError)
  | chunkType (t : ChunkType)
  | chunk (e : ProtocolError)
  | parse (e : ProtocolError)
  | verify (e : ProtocolError)
  | unverified
  | refused (status : ResumeStatus)

/-- The rest of `resume_on`: the server's receive position. -/
def readResumeResponse (request : ResumeRequest) (keys : SessionKeys) (data : Bytes) :
    Except ResumeError UInt64 := do
  if data.length < headerSize then throw .tooShort
  let header ← (ChunkHeader.decode (data.take headerSize)).mapError .header
  if header.chunkType ≠ .resume then throw (.chunkType header.chunkType)
  let chunk ← (Chunk.decodeEncrypted P data tempKey tempNonce).mapError .chunk
  let response ← (ResumeResponse.decode chunk.payload).mapError .parse
  if !(← (response.verify P request keys).mapError .verify) then throw .unverified
  if response.status ≠ .ok then throw (.refused response.status)
  return response.nextExpected

end

/-! ## The server's side -/

/-- The part of `SessionEntry` that a resumption reads and writes. -/
structure SessionEntry where
  keys : SessionKeys
  sendBuffer : SendBuffer
  recvBuffer : ReceiveBuffer

def SessionEntry.new (keys : SessionKeys) : SessionEntry where
  keys := keys
  sendBuffer := .withDefaultCapacity
  recvBuffer := .withDefaultCapacity

abbrev SessionRegistry := SessionId → Option SessionEntry

/-- Why a first frame ends its connection. -/
inductive AcceptError where
  | tooShort
  | header (e : ProtocolError)
  | chunk (e : ProtocolError)
  | parse (e : ProtocolError)
  | unknownSession
  | verify (e : ProtocolError)
  | rejected (status : ResumeStatus)
  | sign (e : ProtocolError)
  | encode (e : ProtocolError)
  | send

section
variable (P : Primitives)

/-- `run_tunnel`: the type of the first chunk, in the clear in its header. -/
def firstChunkType (first : Bytes) : Except AcceptError ChunkType := do
  if first.length < headerSize then throw .tooShort
  let header ← (ChunkHeader.decode (first.take headerSize)).mapError .header
  return header.chunkType

/-- The checks of `accept_resume`, in order. -/
def checkResume (registry : SessionRegistry) (first : Bytes) (now : UInt64) :
    Except AcceptError (ResumeRequest × SessionEntry) := do
  let chunk ← (Chunk.decodeEncrypted P first tempKey tempNonce).mapError .chunk
  let request ← (ResumeRequest.decode chunk.payload).mapError .parse
  match registry request.sessionId with
  | none => throw .unknownSession
  | some entry =>
      let status ← (request.verify P entry.keys now).mapError .verify
      if status ≠ .ok then throw (.rejected status)
      return (request, entry)

/-- `accept_resume`. The client's position is applied before the response
is built, and stays applied when the connection fails after. `sent` says
whether the response goes out. -/
def acceptResume (registry : SessionRegistry) (first : Bytes) (now : UInt64)
    (serverRandom : ByteArr 32) (sent : Bool) :
    SessionRegistry × Except AcceptError (ResumeRequest × Bytes) :=
  match checkResume P registry first now with
  | .error e => (registry, .error e)
  | .ok (request, entry) =>
      let sendBuffer := (entry.sendBuffer.applyAck request.nextExpected []).2
      (Function.update registry request.sessionId (some { entry with sendBuffer }), do
        let response ← (ResumeResponse.new P .ok entry.recvBuffer.nextExpected request entry.keys
          serverRandom).mapError .sign
        let encoded ← (resumeFrame P response.encode).mapError .encode
        if !sent then throw .send
        return (request, encoded))

end

/-! ## What is accepted -/

section
variable {P : Primitives}

theorem mapError_eq_ok {ε ε' α : Type} {f : ε → ε'} {x : Except ε α} {a : α} :
    x.mapError f = .ok a ↔ x = .ok a := by
  cases x <;> simp [Except.mapError]

theorem resumeFrame_decodes (hP : P.Lawful) {payload frame : Bytes}
    (hfits : payload.length ≤ maxPayloadSize) (h : resumeFrame P payload = .ok frame) :
    Chunk.decodeEncrypted P frame tempKey tempNonce = .ok (Chunk.newResume payload) :=
  Chunk.decodeEncrypted_encodeEncrypted hP (Chunk.wellFormed_withPadding hfits) h

theorem resumeFrame_isOk (hS : P.SealsAll) {payload : Bytes}
    (hfits : payload.length ≤ maxPayloadSize) : ∃ frame, resumeFrame P payload = .ok frame :=
  Chunk.encodeEncrypted_isOk hS (c := Chunk.newResume payload) hfits ..

/-- What the server reads in a first frame, before it looks anything up. -/
def requestOf (P : Primitives) (first : Bytes) : Option ResumeRequest :=
  match Chunk.decodeEncrypted P first tempKey tempNonce with
  | .error _ => none
  | .ok chunk => (ResumeRequest.decode chunk.payload).toOption

theorem requestOf_request (hP : P.Lawful) {r : ResumeRequest} {frame : Bytes}
    (h : resumeFrame P r.encode = .ok frame) : requestOf P frame = some r := by
  have hdec := resumeFrame_decodes hP (by rw [r.length_encode]; decide) h
  have hpay : (Chunk.newResume r.encode).payload = r.encode := rfl
  simp only [requestOf, hdec, hpay, ResumeRequest.decode_encode]
  rfl

/-- A response is too short to be taken for a request. -/
theorem requestOf_response (hP : P.Lawful) {r : ResumeResponse} {frame : Bytes}
    (h : resumeFrame P r.encode = .ok frame) : requestOf P frame = none := by
  have hdec := resumeFrame_decodes hP (by rw [r.length_encode]; decide) h
  have hpay : (Chunk.newResume r.encode).payload = r.encode := rfl
  have hshort : r.encode.length < 96 := by rw [r.length_encode]; decide
  simp only [requestOf, hdec, hpay, ResumeRequest.decode, dif_pos hshort]
  rfl

theorem checkResume_eq_ok {registry : SessionRegistry} {first : Bytes} {now : UInt64}
    {request : ResumeRequest} {entry : SessionEntry} :
    checkResume P registry first now = .ok (request, entry) ↔
      requestOf P first = some request ∧ registry request.sessionId = some entry
        ∧ request.verify P entry.keys now = .ok .ok := by
  constructor
  · intro h
    obtain ⟨chunk, hchunk, h⟩ := bind_eq_ok.mp h
    obtain ⟨r, hr, h⟩ := bind_eq_ok.mp h
    rw [mapError_eq_ok] at hchunk hr
    have hreq : requestOf P first = some r := by
      simp only [requestOf, hchunk, hr]
      rfl
    cases hreg : registry r.sessionId with
    | none =>
        rw [hreg] at h
        cases h
    | some e =>
        rw [hreg] at h
        obtain ⟨status, hstatus, h⟩ := bind_eq_ok.mp h
        rw [mapError_eq_ok] at hstatus
        by_cases hok : status = .ok
        · rw [if_neg (not_not.mpr hok)] at h
          obtain ⟨rfl, rfl⟩ := Prod.mk.inj (Except.ok.inj h)
          exact ⟨hreq, hreg, hok ▸ hstatus⟩
        · rw [if_pos hok] at h
          cases h
  · rintro ⟨hreq, hreg, hverify⟩
    unfold requestOf at hreq
    split at hreq
    · cases hreq
    · rename_i chunk hchunk
      refine bind_eq_ok.mpr ⟨chunk, mapError_eq_ok.mpr hchunk, ?_⟩
      cases hr : ResumeRequest.decode chunk.payload with
      | error e =>
          rw [hr] at hreq
          cases hreq
      | ok r =>
          rw [hr] at hreq
          obtain rfl := Option.some.inj hreq
          refine bind_eq_ok.mpr ⟨r, rfl, ?_⟩
          rw [hreg]
          exact bind_eq_ok.mpr ⟨.ok, mapError_eq_ok.mpr hverify, rfl⟩

/-- A resumption changes no session's keys. -/
theorem keys_acceptResume {registry : SessionRegistry} {first : Bytes} {now : UInt64}
    {random : ByteArr 32} {sent : Bool} {id : SessionId} {entry : SessionEntry}
    (h : (acceptResume P registry first now random sent).1 id = some entry) :
    ∃ before, registry id = some before ∧ before.keys = entry.keys := by
  unfold acceptResume at h
  split at h
  · exact ⟨entry, h, rfl⟩
  · rename_i request found hcheck
    obtain ⟨-, hreg, -⟩ := checkResume_eq_ok.mp hcheck
    by_cases hid : id = request.sessionId
    · subst hid
      simp only [Function.update_self, Option.some.injEq] at h
      exact ⟨found, hreg, by rw [← h]⟩
    · simp only [Function.update_of_ne hid] at h
      exact ⟨entry, h, rfl⟩

/-- Whether a signed request is accepted: its session is registered, it is
fresh, and the response goes out. Nothing else is asked. -/
theorem acceptResume_iff (hS : P.SealsAll) {registry : SessionRegistry} {first : Bytes}
    {now : UInt64} {random : ByteArr 32} {sent : Bool} {r : ResumeRequest}
    (hreq : requestOf P first = some r)
    (hsigned : ∀ entry, registry r.sessionId = some entry → r.Signed P entry.keys) :
    (∃ frame, (acceptResume P registry first now random sent).2 = .ok (r, frame)) ↔
      registry r.sessionId ≠ none ∧ absDiff now r.timestamp ≤ maxResumeDriftSecs
        ∧ sent = true := by
  constructor
  · rintro ⟨frame, h⟩
    unfold acceptResume at h
    split at h
    · cases h
    · rename_i request entry hcheck
      obtain ⟨hreq', hreg, hverify⟩ := checkResume_eq_ok.mp hcheck
      obtain rfl := Option.some.inj (hreq.symm.trans hreq')
      rw [ResumeRequest.verify_of_signed (hsigned entry hreg)] at hverify
      refine ⟨by rw [hreg]; simp, ?_, ?_⟩
      · by_contra hgt
        rw [if_pos (not_le.mp hgt)] at hverify
        cases hverify
      · obtain ⟨response, -, h⟩ := bind_eq_ok.mp h
        obtain ⟨encoded, -, h⟩ := bind_eq_ok.mp h
        cases sent with
        | true => rfl
        | false => cases h
  · rintro ⟨hreg, hfresh, rfl⟩
    obtain ⟨entry, hentry⟩ := Option.ne_none_iff_exists'.mp hreg
    have hverify : r.verify P entry.keys now = .ok .ok := by
      rw [ResumeRequest.verify_of_signed (hsigned entry hentry), if_neg (not_lt.mpr hfresh)]
    obtain ⟨resp, hnew, -⟩ := ResumeResponse.new_of_signed (hsigned entry hentry) .ok
      entry.recvBuffer.nextExpected random
    obtain ⟨frame, hframe⟩ : ∃ frame, resumeFrame P resp.encode = .ok frame :=
      resumeFrame_isOk hS (by rw [resp.length_encode]; decide)
    refine ⟨frame, ?_⟩
    rw [acceptResume, checkResume_eq_ok.mpr ⟨hreq, hentry, hverify⟩]
    simp only [hnew, hframe, Except.mapError, bind, Except.bind, pure, Except.pure]
    rfl

theorem acceptResume_eq_ok {registry : SessionRegistry} {first : Bytes} {now : UInt64}
    {random : ByteArr 32} {sent : Bool} {request : ResumeRequest} {frame : Bytes}
    (h : (acceptResume P registry first now random sent).2 = .ok (request, frame)) :
    requestOf P first = some request
      ∧ ∃ response : ResumeResponse, resumeFrame P response.encode = .ok frame := by
  unfold acceptResume at h
  split at h
  · cases h
  · rename_i req entry hcheck
    obtain ⟨hreq, -, -⟩ := checkResume_eq_ok.mp hcheck
    obtain ⟨response, -, h⟩ := bind_eq_ok.mp h
    obtain ⟨encoded, henc, h⟩ := bind_eq_ok.mp h
    rw [mapError_eq_ok] at henc
    cases sent with
    | false => cases h
    | true =>
        obtain ⟨rfl, rfl⟩ := Prod.mk.inj (Except.ok.inj h)
        exact ⟨hreq, response, henc⟩

end

end Kanrin
