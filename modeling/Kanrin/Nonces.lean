import Kanrin.Lib.Run
import Kanrin.Handshake
import Kanrin.Link

/-!
# Nonces under the session keys

Every AEAD encryption that a session makes, in the order it makes them:
those of the handshake (`handshakeCalls`), those of `encrypt_outgoing`
under the session's counter, and those of the resume messages, which go
out under the all-zero temporary key. A replay resends stored bytes and
encrypts nothing.

The handshake's last two messages are encrypted under the write keys with
the zero nonce, which is also the nonce of sequence 0. So a session reuses
a nonce as soon as either side encrypts anything (`nonce_reuse_iff`).
-/

namespace Kanrin

open Lib

/-- One side of an established session. -/
structure Sealer where
  session : Session
  buffer : SendBuffer

/-- Both sides, the frames replays have resent, and the key and nonce of
every AEAD encryption so far. -/
structure Sealing where
  client : Sealer
  server : Sealer
  resent : List Bytes
  calls : List (Key × Nonce)

namespace Sealing

inductive Event where
  | encrypt (isClient : Bool) (chunk : Chunk) (rnd : Rand)
  | replay (isClient : Bool)
  /-- A resume message carries the sender's position to the other side. -/
  | resume (isClient : Bool) (payload : Bytes) (nextExpected : UInt64)

/-- ClientHello, ServerHello, the password, ClientFinished, ServerFinished. -/
def handshakeCalls (client server : SessionKeys) (d : Draws) : List (Key × Nonce) :=
  [(tempKey, tempNonce), (tempKey, tempNonce), (client.clientWriteKey, d.authNonce),
    (client.clientWriteKey, tempNonce), (server.serverWriteKey, tempNonce)]

def afterHandshake (est : Established) (d : Draws) : Sealing where
  client := { session := .new d.sessionId est.clientKeys, buffer := .withDefaultCapacity }
  server := { session := .new d.sessionId est.serverKeys, buffer := .withDefaultCapacity }
  resent := []
  calls := handshakeCalls est.clientKeys est.serverKeys d

def side (t : Sealing) (isClient : Bool) : Sealer := if isClient then t.client else t.server

def setSide (t : Sealing) (isClient : Bool) (s : Sealer) : Sealing :=
  if isClient then { t with client := s } else { t with server := s }

variable (P : Primitives)

/-- Encrypt a chunk; a data chunk is retained as well. -/
def encrypt (t : Sealing) (isClient : Bool) (chunk : Chunk) (rnd : Rand) : Option Sealing :=
  let s := t.side isClient
  let sequence := s.session.sendNonceValue
  match s.session.encryptOutgoing P chunk isClient rnd with
  | .error _ => none
  | .ok (bytes, session) =>
      let buffer :=
        if chunk.header.chunkType = .data then
          match s.buffer.push sequence bytes with
          | .ok buffer => buffer
          | .error _ => s.buffer
        else s.buffer
      some { t.setSide isClient { session, buffer } with
        calls := t.calls ++
          [(Session.writeKey s.session.keys isClient, nonceFromSequence sequence)] }

def step (t : Sealing) : Event → Option Sealing
  | .encrypt isClient chunk rnd => t.encrypt P isClient chunk rnd
  | .replay isClient =>
      some { t with resent := t.resent ++ Link.replayFrames (t.side isClient).buffer }
  | .resume isClient payload nextExpected =>
      match (Chunk.newResume payload).encodeEncrypted P tempKey tempNonce noPadding with
      | .error _ => none
      | .ok _ =>
          let peer := t.side (!isClient)
          some { t.setSide (!isClient) { peer with
              buffer := (peer.buffer.applyAck nextExpected []).2 } with
            calls := t.calls ++ [(tempKey, tempNonce)] }

/-- The nonces used under a key, in order. -/
def noncesUnder (key : Key) (calls : List (Key × Nonce)) : List Nonce :=
  (calls.filter fun c => decide (c.1 = key)).map Prod.snd

/-- No two encryptions under a session key share a nonce. -/
def NoReuse (keys : SessionKeys) (t : Sealing) : Prop :=
  (noncesUnder keys.clientWriteKey t.calls).Nodup
    ∧ (noncesUnder keys.serverWriteKey t.calls).Nodup

instance (keys : SessionKeys) (t : Sealing) : Decidable (t.NoReuse keys) :=
  inferInstanceAs (Decidable (_ ∧ _))

/-- Nothing is encrypted under the session's counter. -/
def Silent (t : Sealing) : Event → Prop
  | .encrypt isClient chunk rnd =>
      ((t.side isClient).session.encryptOutgoing P chunk isClient rnd).isOk = false
  | _ => True

/-! ## Before anything is encrypted -/

/-- Both counters are at zero, and only resume messages have been added to
the handshake's encryptions. -/
structure Quiet (keys : SessionKeys) (d : Draws) (t : Sealing) : Prop where
  shared : ∀ isClient, (t.side isClient).session.keys = keys
  zero : ∀ isClient, (t.side isClient).session.sendSeq = 0
  calls : ∃ n, t.calls = handshakeCalls keys keys d ++ List.replicate n (tempKey, tempNonce)

variable {P}

theorem quiet_start (hP : P.Lawful) {d : Draws} {password expectedPassword : Bytes}
    {assignedIp : ByteArr 4} {est : Established}
    (h : fullHandshake P d password expectedPassword assignedIp = .ok est) :
    (afterHandshake est d).Quiet est.clientKeys d := by
  have hkeys := fullHandshake_keys hP h
  refine ⟨fun isClient => ?_, fun isClient => ?_, 0, ?_⟩
  · cases isClient
    · exact hkeys.symm
    · rfl
  · cases isClient <;> rfl
  · simp [afterHandshake, hkeys]

theorem noncesUnder_append (key : Key) (a b : List (Key × Nonce)) :
    noncesUnder key (a ++ b) = noncesUnder key a ++ noncesUnder key b := by
  simp [noncesUnder]

theorem noncesUnder_replicate_temp {key : Key} (h : key ≠ tempKey) (n : Nat) :
    noncesUnder key (List.replicate n (tempKey, tempNonce)) = [] := by
  simp [noncesUnder, h.symm]

/-- The zero nonce is that of sequence 0. -/
theorem tempNonce_eq : tempNonce = nonceFromSequence 0 := nonceFromSequence_zero.symm

/-- While nothing is encrypted, and the session keys are not the temporary
one, no nonce is reused. -/
theorem Quiet.noReuse {keys : SessionKeys} {d : Draws} {t : Sealing} (hq : t.Quiet keys d)
    (hne : keys.clientWriteKey ≠ keys.serverWriteKey) (hc : keys.clientWriteKey ≠ tempKey)
    (hs : keys.serverWriteKey ≠ tempKey) (hrnd : ∀ seq, d.authNonce ≠ nonceFromSequence seq) :
    t.NoReuse keys := by
  obtain ⟨n, hcalls⟩ := hq.calls
  have hnonce : d.authNonce ≠ tempNonce := fun h => hrnd 0 (h.trans tempNonce_eq)
  constructor
  · rw [hcalls, noncesUnder_append, noncesUnder_replicate_temp hc]
    simp [handshakeCalls, noncesUnder, hc.symm, hne.symm, hnonce]
  · rw [hcalls, noncesUnder_append, noncesUnder_replicate_temp hs]
    simp [handshakeCalls, noncesUnder, hs.symm, hne]

/-- The two hellos share the temporary key and nonce. -/
theorem Quiet.keys_ne_temp {keys : SessionKeys} {d : Draws} {t : Sealing} (hq : t.Quiet keys d)
    (h : t.NoReuse keys) : keys.clientWriteKey ≠ tempKey ∧ keys.serverWriteKey ≠ tempKey := by
  obtain ⟨n, hcalls⟩ := hq.calls
  obtain ⟨hc, hs⟩ := h
  rw [hcalls, noncesUnder_append, List.nodup_append] at hc hs
  constructor
  · intro heq
    have := hc.1
    simp [handshakeCalls, noncesUnder, heq] at this
  · intro heq
    have := hs.1
    simp [handshakeCalls, noncesUnder, heq] at this

/-- The first encryption on either side reuses the zero nonce. -/
theorem Quiet.reuse {keys : SessionKeys} {d : Draws} {t t' : Sealing} (hq : t.Quiet keys d)
    {isClient : Bool} {chunk : Chunk} {rnd : Rand}
    (h : t.encrypt P isClient chunk rnd = some t') : ¬ t'.NoReuse keys := by
  obtain ⟨n, hcalls⟩ := hq.calls
  simp only [encrypt] at h
  split at h
  · cases h
  obtain rfl := Option.some.inj h
  have hzero : nonceFromSequence (t.side isClient).session.sendNonceValue = tempNonce := by
    rw [Session.sendNonceValue, hq.zero, tempNonce_eq]
  rintro ⟨hc, hs⟩
  simp only [hzero, hq.shared, hcalls, noncesUnder_append] at hc hs
  cases isClient with
  | true =>
      have hmem : tempNonce ∈ noncesUnder keys.clientWriteKey (handshakeCalls keys keys d) :=
        List.mem_map.mpr ⟨(keys.clientWriteKey, tempNonce), by simp [handshakeCalls], rfl⟩
      have hlast : tempNonce ∈ noncesUnder keys.clientWriteKey
          [(Session.writeKey keys true, tempNonce)] := by simp [noncesUnder, Session.writeKey]
      exact (List.nodup_append.mp hc).2.2 _ (List.mem_append_left _ hmem) _ hlast rfl
  | false =>
      have hmem : tempNonce ∈ noncesUnder keys.serverWriteKey (handshakeCalls keys keys d) :=
        List.mem_map.mpr ⟨(keys.serverWriteKey, tempNonce), by simp [handshakeCalls], rfl⟩
      have hlast : tempNonce ∈ noncesUnder keys.serverWriteKey
          [(Session.writeKey keys false, tempNonce)] := by simp [noncesUnder, Session.writeKey]
      exact (List.nodup_append.mp hs).2.2 _ (List.mem_append_left _ hmem) _ hlast rfl

theorem encrypt_isSome (t : Sealing) (isClient : Bool) (chunk : Chunk) (rnd : Rand) :
    (t.encrypt P isClient chunk rnd).isSome
      = ((t.side isClient).session.encryptOutgoing P chunk isClient rnd).isOk := by
  simp only [encrypt]
  cases (t.side isClient).session.encryptOutgoing P chunk isClient rnd <;> rfl

/-- A replay or a resumption leaves the session quiet. -/
theorem Quiet.step {keys : SessionKeys} {d : Draws} {t t' : Sealing} (hq : t.Quiet keys d)
    {e : Event} (hsilent : t.Silent P e) (h : t.step P e = some t') : t'.Quiet keys d := by
  cases e with
  | encrypt isClient chunk rnd =>
      have hsome := encrypt_isSome (P := P) t isClient chunk rnd
      have heq : t.encrypt P isClient chunk rnd = some t' := h
      rw [hsilent, heq] at hsome
      cases hsome
  | replay isClient =>
      obtain rfl := Option.some.inj h
      exact ⟨fun b => by cases b <;> [exact hq.shared false; exact hq.shared true],
        fun b => by cases b <;> [exact hq.zero false; exact hq.zero true], hq.calls⟩
  | resume isClient payload nextExpected =>
      simp only [Sealing.step] at h
      split at h
      · cases h
      obtain rfl := Option.some.inj h
      obtain ⟨n, hcalls⟩ := hq.calls
      have hsessions : ∀ b, (side { t.setSide (!isClient) { t.side (!isClient) with
            buffer := ((t.side (!isClient)).buffer.applyAck nextExpected []).2 } with
              calls := t.calls ++ [(tempKey, tempNonce)] } b).session = (t.side b).session := by
        intro b
        cases b <;> cases isClient <;> rfl
      refine ⟨fun b => ?_, fun b => ?_, n + 1, ?_⟩
      · rw [hsessions, hq.shared]
      · rw [hsessions, hq.zero]
      · simp only [hcalls, List.replicate_succ', List.append_assoc]

/-- No nonce is reused under a session key exactly when neither side
encrypts anything after the handshake, and neither key is the temporary
one. -/
theorem nonce_reuse_iff (hP : P.Lawful) {d : Draws} {password expectedPassword : Bytes}
    {assignedIp : ByteArr 4} {est : Established}
    (h : fullHandshake P d password expectedPassword assignedIp = .ok est)
    (hne : est.clientKeys.clientWriteKey ≠ est.clientKeys.serverWriteKey)
    (hrnd : ∀ seq, d.authNonce ≠ nonceFromSequence seq) (es : List Event) :
    Always (step P) (NoReuse est.clientKeys) (afterHandshake est d) es ↔
      est.clientKeys.clientWriteKey ≠ tempKey ∧ est.clientKeys.serverWriteKey ≠ tempKey
        ∧ Meets (step P) (Silent P) (afterHandshake est d) es := by
  have hstart := quiet_start hP h
  constructor
  · intro halways
    obtain ⟨hc, hs⟩ := hstart.keys_ne_temp halways.head
    refine ⟨hc, hs, meets_of_always (fun t e t' hq hstep hreuse => ?_) hstart halways⟩
    have hsilent : t.Silent P e := by
      cases e with
      | encrypt isClient chunk rnd =>
          have hstep' : t.encrypt P isClient chunk rnd = some t' := hstep
          exact absurd hreuse (hq.reuse hstep')
      | replay isClient => trivial
      | resume isClient payload nextExpected => trivial
    exact ⟨hsilent, hq.step hsilent hstep⟩
  · rintro ⟨hc, hs, hmeets⟩
    exact (always_of_meets (fun t e t' hq hsilent hstep => Quiet.step hq hsilent hstep) hstart
      hmeets).mono fun t hq => hq.noReuse hne hc hs hrnd

/-- Draws whose random nonce is that of no sequence: it starts with a one. -/
def sampleDraws : Draws where
  clientSecret := List.Vector.replicate 32 1
  serverSecret := List.Vector.replicate 32 2
  clientRandom := zeroArr 32
  serverRandom := zeroArr 32
  authNonce := List.Vector.replicate 12 1
  token := zeroArr 32
  sessionId := zeroArr 16
  clientNow := 0
  serverNow := 0

theorem sampleDraws_authNonce (seq : UInt64) : sampleDraws.authNonce ≠ nonceFromSequence seq := by
  intro h
  have hhead : (1 : UInt8) = 0 := congrArg (fun n : Nonce => n.toList.headD 0) h
  exact absurd hhead (by decide)

def sampleEstablished : Established where
  clientKeys := plainKeys
  serverKeys := plainKeys
  token := some (zeroArr 4, zeroArr 16)

theorem fullHandshake_sample :
    fullHandshake .plain sampleDraws [0x70] [0x70] (zeroArr 4) = .ok sampleEstablished := by
  decide

theorem nonce_reuse_iff_sample :
    Always (step .plain) (NoReuse plainKeys) (afterHandshake sampleEstablished sampleDraws)
      [.replay true, .resume true [] 0] :=
  (nonce_reuse_iff Primitives.plain_lawful fullHandshake_sample (by decide) sampleDraws_authNonce
    _).mpr ⟨by decide, by decide, fun _ _ => ⟨trivial, fun _ _ => ⟨trivial, trivial⟩⟩⟩

/-- The client's first packet. -/
def firstPacket : List Event := [.encrypt true (Chunk.newData [0x45] 0) noPadding]

theorem isSome_firstPacket :
    (exec (step .plain) (afterHandshake sampleEstablished sampleDraws) firstPacket).isSome := by
  decide

theorem first_packet_reuses_nonce :
    fullHandshake .plain sampleDraws [0x70] [0x70] (zeroArr 4) = .ok sampleEstablished
      ∧ plainKeys.clientWriteKey ≠ plainKeys.serverWriteKey
      ∧ (∀ seq, sampleDraws.authNonce ≠ nonceFromSequence seq)
      ∧ ∃ t, exec (step .plain) (afterHandshake sampleEstablished sampleDraws) firstPacket = some t
        ∧ ¬ t.NoReuse plainKeys :=
  ⟨fullHandshake_sample, by decide, sampleDraws_authNonce, Option.get _ isSome_firstPacket,
    (Option.some_get isSome_firstPacket).symm, by decide⟩

end Sealing

end Kanrin
