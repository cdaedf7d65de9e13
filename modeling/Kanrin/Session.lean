import Kanrin.Wire

/-!
# Sessions

`kanrin-protocol/src/session.rs`: the outgoing sequence counter and the
encrypt/decrypt entry points of the data plane. The session's clock fields
and its migration token are read by nothing modelled here and are left
out.

`encryptOutgoing_eq_ok` says everything a successful encryption does; the
systems built on sessions use it and never unfold the function.
-/

namespace Kanrin

open Lib

abbrev SessionId := ByteArr 16

instance : LawfulBEq SessionId := inferInstance

structure Session where
  id : SessionId
  keys : SessionKeys
  sendSeq : UInt64
  recvCount : UInt64
  bytesSent : UInt64
  bytesReceived : UInt64
deriving DecidableEq

namespace Session

def new (id : SessionId) (keys : SessionKeys) : Session where
  id := id
  keys := keys
  sendSeq := 0
  recvCount := 0
  bytesSent := 0
  bytesReceived := 0

/-- The key a side writes with. -/
def writeKey (keys : SessionKeys) (isClient : Bool) : Key :=
  if isClient then keys.clientWriteKey else keys.serverWriteKey

/-- The key a side reads with. -/
def readKey (keys : SessionKeys) (isClient : Bool) : Key :=
  if isClient then keys.serverWriteKey else keys.clientWriteKey

def sendNonceValue (s : Session) : UInt64 := s.sendSeq

variable (P : Primitives)

def encryptOutgoing (s : Session) (chunk : Chunk) (isClient : Bool) (rnd : Rand) :
    Result (Bytes × Session) := do
  let key := writeKey s.keys isClient
  let seq := s.sendSeq
  if seq ≥ maxNonce then throw .nonceExhausted
  let encoded ← chunk.encodeSequenced P key seq rnd
  return (encoded,
    { s with sendSeq := s.sendSeq + 1, bytesSent := s.bytesSent + UInt64.ofNat encoded.length })

def decryptIncoming (s : Session) (data : Bytes) (isClient : Bool) : Result (Chunk × Session) := do
  let key := readKey s.keys isClient
  let chunk ← Chunk.decodeSequenced P data key
  return (chunk,
    { s with
      recvCount := s.recvCount + 1
      bytesReceived := s.bytesReceived + UInt64.ofNat data.length })

variable {P}

/-- A successful encryption uses the current sequence, and moves past it. -/
theorem encryptOutgoing_eq_ok {s s' : Session} {chunk : Chunk} {isClient : Bool} {rnd : Rand}
    {bytes : Bytes} (h : s.encryptOutgoing P chunk isClient rnd = .ok (bytes, s')) :
    chunk.encodeSequenced P (writeKey s.keys isClient) s.sendSeq rnd = .ok bytes
      ∧ s.sendSeq.toNat < 2 ^ 64 - 2 ∧ s'.sendSeq.toNat = s.sendSeq.toNat + 1
      ∧ s'.keys = s.keys := by
  by_cases hseq : s.sendSeq ≥ maxNonce
  · simp [encryptOutgoing, hseq, throw, throwThe, MonadExceptOf.throw, bind, Except.bind] at h
  · have hlt : s.sendSeq < maxNonce := not_le.mp hseq
    have hnat : s.sendSeq.toNat < 2 ^ 64 - 2 := UInt64.lt_iff_toNat_lt.mp hlt
    simp only [encryptOutgoing, if_neg hseq, bind, Except.bind, pure, Except.pure] at h
    cases henc : chunk.encodeSequenced P (writeKey s.keys isClient) s.sendSeq rnd with
    | error e => rw [henc] at h; cases h
    | ok encoded =>
        rw [henc] at h
        obtain ⟨rfl, rfl⟩ := Prod.mk.inj (Except.ok.inj h)
        exact ⟨rfl, hnat, toNat_succ_of_lt hlt, rfl⟩

/-- Encryption under the computing primitives only fails when the sequence
space is exhausted. -/
theorem encryptOutgoing_plain {s : Session} (h : s.sendSeq < maxNonce) (chunk : Chunk)
    (isClient : Bool) (rnd : Rand) :
    ∃ bytes s', s.encryptOutgoing .plain chunk isClient rnd = .ok (bytes, s') := by
  rw [encryptOutgoing, if_neg (not_le.mpr h)]
  exact ⟨_, _, rfl⟩

theorem readKey_eq (keys : SessionKeys) (isClient : Bool) :
    readKey keys isClient = writeKey keys !isClient := by
  cases isClient <;> rfl

theorem decryptIncoming_of_decode {s : Session} {data : Bytes} {isClient : Bool} {chunk : Chunk}
    (h : Chunk.decodeSequenced P data (readKey s.keys isClient) = .ok chunk) :
    ∃ s', s.decryptIncoming P data isClient = .ok (chunk, s')
      ∧ s'.keys = s.keys ∧ s'.sendSeq = s.sendSeq := by
  refine ⟨{ s with
    recvCount := s.recvCount + 1
    bytesReceived := s.bytesReceived + UInt64.ofNat data.length }, ?_, rfl, rfl⟩
  simp only [decryptIncoming, h, bind, Except.bind, pure, Except.pure]

/-- What one side encrypts, the other decrypts to the same chunk, carrying
the sequence it was assigned. -/
theorem decryptIncoming_encryptOutgoing (hP : P.Lawful) {s s' t : Session} {chunk : Chunk}
    (hc : chunk.WellFormed) {isClient : Bool} {rnd : Rand} {bytes : Bytes}
    (hkeys : t.keys = s.keys)
    (h : s.encryptOutgoing P chunk isClient rnd = .ok (bytes, s')) :
    ∃ t', t.decryptIncoming P bytes (!isClient) = .ok (chunk.withSequence s.sendSeq, t')
      ∧ t'.keys = t.keys ∧ t'.sendSeq = t.sendSeq := by
  have hdec := Chunk.decodeSequenced_encodeSequenced hP hc (encryptOutgoing_eq_ok h).1
  refine decryptIncoming_of_decode ?_
  rwa [readKey_eq, Bool.not_not, hkeys]

theorem decryptIncoming_eq_ok {s s' : Session} {data : Bytes} {isClient : Bool} {chunk : Chunk}
    (h : s.decryptIncoming P data isClient = .ok (chunk, s')) :
    Chunk.decodeSequenced P data (readKey s.keys isClient) = .ok chunk
      ∧ s'.sendSeq = s.sendSeq ∧ s'.keys = s.keys := by
  rw [decryptIncoming] at h
  cases hdec : Chunk.decodeSequenced P data (readKey s.keys isClient) with
  | error e => rw [hdec] at h; cases h
  | ok c =>
      rw [hdec] at h
      obtain ⟨rfl, rfl⟩ := Prod.mk.inj (Except.ok.inj h)
      exact ⟨rfl, rfl, rfl⟩

end Session

end Kanrin
