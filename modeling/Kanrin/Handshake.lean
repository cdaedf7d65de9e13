import Kanrin.Session

/-!
# The handshake

`kanrin-protocol/src/handshake.rs`, the client's phase 5 in
`kanrin-client/src/pipeline.rs`, and `ClientSession::accept_new` in
`kanrin-server/src/session.rs`.

A key pair is its secret; clocks and random draws are arguments. Every
decoder bounds its slices by the length it has just checked.

`fullHandshake` runs both sides against each other over a link that
delivers every frame. `fullHandshake_keys` is the agreement it is for: both
sides end with the same session keys.
-/

namespace Kanrin

open Lib

theorem bind_eq_ok {ε α β : Type} {x : Except ε α} {f : α → Except ε β} {b : β} :
    x >>= f = .ok b ↔ ∃ a, x = .ok a ∧ f a = .ok b := by
  cases x with
  | error e => simp [bind, Except.bind]
  | ok a => simp [bind, Except.bind]

def maxTimestampDriftSecs : UInt64 := 30

inductive HandshakePhase where
  | initial
  | helloSent
  | helloReceived
  | finished
deriving DecidableEq, Repr

inductive AuthStatus where
  | ok
  | invalidCredentials
  | rateLimited
  | serverFull
deriving DecidableEq, Repr

def AuthStatus.toByte : AuthStatus → UInt8
  | .ok => 0x00
  | .invalidCredentials => 0x01
  | .rateLimited => 0x02
  | .serverFull => 0x03

def AuthStatus.fromByte (b : UInt8) : Result AuthStatus :=
  if b = 0x00 then .ok .ok
  else if b = 0x01 then .ok .invalidCredentials
  else if b = 0x02 then .ok .rateLimited
  else if b = 0x03 then .ok .serverFull
  else .error (.handshakeFailed ("unknown auth status: 0x" ++ hexByte b))

/-! ## Messages -/

structure ClientHello where
  protocolVersion : UInt8
  ephemeralPublic : ByteArr 32
  timestamp : UInt64
  random : ByteArr 32
deriving DecidableEq

namespace ClientHello

def encode (h : ClientHello) : Bytes :=
  h.protocolVersion ::
    (h.ephemeralPublic.toList ++ ((u64ToBe h.timestamp).toList ++ h.random.toList))

def decode (data : Bytes) : Result ClientHello :=
  if h : data.length < 73 then .error (.bufferTooShort 73 data.length)
  else .ok
    { protocolVersion := data[0]
      ephemeralPublic := slice data 1 32
      timestamp := u64FromBe (slice data 33 8)
      random := slice data 41 32 }

@[simp] theorem length_encode (h : ClientHello) : h.encode.length = 73 := by
  simp [encode]

theorem decode_encode (h : ClientHello) : decode h.encode = .ok h := by
  have hlen : ¬ h.encode.length < 73 := by simp
  have hpub : ∀ hb, slice h.encode 1 32 hb = h.ephemeralPublic := fun hb =>
    slice_of_append (p := [h.protocolVersion]) rfl rfl hb
  have hts : ∀ hb, slice h.encode 33 8 hb = u64ToBe h.timestamp := fun hb =>
    slice_of_append (p := h.protocolVersion :: h.ephemeralPublic.toList) rfl (by simp) hb
  have hrnd : ∀ hb, slice h.encode 41 32 hb = h.random := fun hb =>
    slice_of_append
      (p := h.protocolVersion :: (h.ephemeralPublic.toList ++ (u64ToBe h.timestamp).toList))
      (t := []) (by simp [encode]) (by simp) hb
  have hver : h.encode[0] = h.protocolVersion := rfl
  simp only [decode, dif_neg hlen, hver, hpub, hts, hrnd, u64FromBe_toBe]

end ClientHello

structure ServerHello where
  ephemeralPublic : ByteArr 32
  encryptedSessionToken : Bytes
  serverRandom : ByteArr 32
deriving DecidableEq

namespace ServerHello

def encode (h : ServerHello) : Bytes :=
  h.ephemeralPublic.toList ++
    ((u16ToBe (UInt16.ofNat h.encryptedSessionToken.length)).toList ++
      (h.encryptedSessionToken ++ h.serverRandom.toList))

def decode (data : Bytes) : Result ServerHello :=
  if h : data.length < 66 then .error (.bufferTooShort 66 data.length)
  else
    let tokenLen := (u16FromBe (slice data 32 2)).toNat
    if h2 : data.length < 34 + tokenLen + 32 then
      .error (.bufferTooShort (34 + tokenLen + 32) data.length)
    else .ok
      { ephemeralPublic := slice data 0 32
        encryptedSessionToken := (data.drop 34).take tokenLen
        serverRandom := slice data (34 + tokenLen) 32 }

theorem decode_encode {h : ServerHello} (hfits : h.encryptedSessionToken.length < 2 ^ 16) :
    decode h.encode = .ok h := by
  have hlen : h.encode.length = 66 + h.encryptedSessionToken.length := by
    simp only [encode, List.length_append, List.Vector.toList_length]; omega
  have h66 : ¬ h.encode.length < 66 := by omega
  have hpub : ∀ hb, slice h.encode 0 32 hb = h.ephemeralPublic := fun hb =>
    slice_of_append (p := []) rfl rfl hb
  have hcount : ∀ hb, slice h.encode 32 2 hb
      = u16ToBe (UInt16.ofNat h.encryptedSessionToken.length) := fun hb =>
    slice_of_append (p := h.ephemeralPublic.toList) rfl (by simp) hb
  have htok : (UInt16.ofNat h.encryptedSessionToken.length).toNat
      = h.encryptedSessionToken.length := by
    rw [UInt16.toNat_ofNat']; exact Nat.mod_eq_of_lt hfits
  have hdrop : h.encode.drop 34 = h.encryptedSessionToken ++ h.serverRandom.toList := by
    rw [encode, ← List.append_assoc]
    exact List.drop_left' (by simp)
  have hrnd : ∀ hb, slice h.encode (34 + h.encryptedSessionToken.length) 32 hb = h.serverRandom :=
    fun hb => slice_of_append
      (p := h.ephemeralPublic.toList ++
        ((u16ToBe (UInt16.ofNat h.encryptedSessionToken.length)).toList ++ h.encryptedSessionToken))
      (t := []) (by simp [encode]) (by simp; omega) hb
  have hbody : ¬ h.encode.length < 34 + h.encryptedSessionToken.length + 32 := by omega
  simp only [decode, dif_neg h66, hcount, u16FromBe_toBe, htok, dif_neg hbody, hpub, hdrop, hrnd,
    List.take_left']

end ServerHello

structure ClientFinished where
  encryptedAuth : Bytes
deriving DecidableEq

namespace ClientFinished

def encode (f : ClientFinished) : Bytes :=
  (u16ToBe (UInt16.ofNat f.encryptedAuth.length)).toList ++ f.encryptedAuth

def decode (data : Bytes) : Result ClientFinished :=
  if h : data.length < 2 then .error (.bufferTooShort 2 data.length)
  else
    let authLen := (u16FromBe (slice data 0 2)).toNat
    if data.length < 2 + authLen then .error (.bufferTooShort (2 + authLen) data.length)
    else .ok { encryptedAuth := (data.drop 2).take authLen }

end ClientFinished

structure ServerFinished where
  status : AuthStatus
  sessionToken : Option Bytes
deriving DecidableEq

namespace ServerFinished

def encode (f : ServerFinished) : Bytes :=
  f.status.toByte ::
    match f.sessionToken with
    | some token => (u16ToBe (UInt16.ofNat token.length)).toList ++ token
    | none => (u16ToBe 0).toList

def decode (data : Bytes) : Result ServerFinished :=
  if h : data.length < 3 then .error (.bufferTooShort 3 data.length)
  else do
    let status ← AuthStatus.fromByte data[0]
    let tokenLen := (u16FromBe (slice data 1 2)).toNat
    if tokenLen > 0 then
      if data.length < 3 + tokenLen then throw (.bufferTooShort (3 + tokenLen) data.length)
      return { status, sessionToken := some ((data.drop 3).take tokenLen) }
    else return { status, sessionToken := none }

end ServerFinished

/-! ## The two state machines -/

structure ClientHandshake where
  phase : HandshakePhase
  keypair : Option (ByteArr 32)
  sharedSecret : Option (ByteArr 32)
  sessionToken : Option Bytes

structure ServerHandshake where
  phase : HandshakePhase
  keypair : Option (ByteArr 32)
  sharedSecret : Option (ByteArr 32)
  serverRandom : ByteArr 32

def authLabel : Bytes := ascii "kanrin-auth"

section
variable (P : Primitives)

namespace ClientHandshake

def new (secret : ByteArr 32) : ClientHandshake where
  phase := .initial
  keypair := some secret
  sharedSecret := none
  sessionToken := none

def clientHello (hs : ClientHandshake) (now : UInt64) (random : ByteArr 32) : Result ClientHello :=
  match hs.keypair with
  | none => .error (.handshakeFailed "keypair consumed")
  | some secret => .ok
      { protocolVersion := protocolVersion
        ephemeralPublic := P.x25519Public secret
        timestamp := now
        random }

def processServerHello (hs : ClientHandshake) (hello : ServerHello) :
    Result (SessionKeys × ClientHandshake) := do
  match hs.keypair with
  | none => throw (.handshakeFailed "keypair already consumed")
  | some secret =>
      let shared := P.x25519 secret hello.ephemeralPublic
      let keys ← deriveSessionKeys P shared hello.serverRandom.toList
      return (keys,
        { phase := .helloReceived
          keypair := none
          sharedSecret := some shared
          sessionToken := some hello.encryptedSessionToken })

def clientFinished (password : Bytes) (keys : SessionKeys) (nonce : Nonce) :
    Result ClientFinished := do
  let encrypted ← encrypt P keys.clientWriteKey nonce password authLabel
  return { encryptedAuth := nonce.toList ++ encrypted }

end ClientHandshake

namespace ServerHandshake

def new (secret serverRandom : ByteArr 32) : ServerHandshake where
  phase := .initial
  keypair := some secret
  sharedSecret := none
  serverRandom := serverRandom

def processClientHello (hs : ServerHandshake) (hello : ClientHello) (now : UInt64)
    (token : ByteArr 32) : Result (ServerHello × SessionKeys × ServerHandshake) := do
  if absDiff now hello.timestamp > maxTimestampDriftSecs then throw .replayDetected
  if hello.protocolVersion ≠ protocolVersion then
    throw (.unsupportedVersion hello.protocolVersion)
  match hs.keypair with
  | none => throw (.handshakeFailed "keypair consumed")
  | some secret =>
      let shared := P.x25519 secret hello.ephemeralPublic
      let keys ← deriveSessionKeys P shared hs.serverRandom.toList
      return ({ ephemeralPublic := P.x25519Public secret
                encryptedSessionToken := token.toList
                serverRandom := hs.serverRandom }, keys,
        { hs with phase := .helloReceived, keypair := none, sharedSecret := some shared })

def verifyAuth (finished : ClientFinished) (keys : SessionKeys) (expectedPassword : Bytes) :
    AuthStatus :=
  if h : finished.encryptedAuth.length < 12 then .invalidCredentials
  else
    match decrypt P keys.clientWriteKey (slice finished.encryptedAuth 0 12)
        (finished.encryptedAuth.drop 12) authLabel with
    | .error _ => .invalidCredentials
    | .ok plaintext =>
        if constantTimeEq plaintext expectedPassword then .ok else .invalidCredentials

end ServerHandshake

/-! ## The frames each side sends and reads -/

def tempKey : Key := zeroArr 32

def tempNonce : Nonce := zeroArr 12

/-- A handshake chunk under a key and the zero nonce. -/
def handshakeFrame (payload : Bytes) (key : Key) : Result Bytes :=
  (Chunk.newHandshake payload).encodeEncrypted P key tempNonce noPadding

def readFrame (data : Bytes) (key : Key) : Result Bytes :=
  (Chunk.decodeEncrypted P data key tempNonce).map Chunk.payload

/-- The random draws and clock readings of one handshake. -/
structure Draws where
  clientSecret : ByteArr 32
  serverSecret : ByteArr 32
  clientRandom : ByteArr 32
  serverRandom : ByteArr 32
  authNonce : Nonce
  token : ByteArr 32
  sessionId : SessionId
  clientNow : UInt64
  serverNow : UInt64

/-- The client's first message. -/
def clientHelloFrame (d : Draws) : Result Bytes := do
  let hello ← (ClientHandshake.new d.clientSecret).clientHello P d.clientNow d.clientRandom
  handshakeFrame P hello.encode tempKey

/-- `accept_new`, up to the ServerHello it answers with. -/
def acceptClientHello (d : Draws) (data : Bytes) : Result (Bytes × SessionKeys) := do
  let payload ← readFrame P data tempKey
  let hello ← ClientHello.decode payload
  let (serverHello, keys, _) ←
    (ServerHandshake.new d.serverSecret d.serverRandom).processClientHello P hello d.serverNow d.token
  let frame ← handshakeFrame P serverHello.encode tempKey
  return (frame, keys)

/-- The client's answer to the ServerHello. -/
def clientFinishedFrame (d : Draws) (password : Bytes) (data : Bytes) :
    Result (Bytes × SessionKeys) := do
  let payload ← readFrame P data tempKey
  let serverHello ← ServerHello.decode payload
  let (keys, _) ← (ClientHandshake.new d.clientSecret).processServerHello P serverHello
  let finished ← ClientHandshake.clientFinished P password keys d.authNonce
  let frame ← handshakeFrame P finished.encode keys.clientWriteKey
  return (frame, keys)

/-- The rest of `accept_new`: check the credentials and answer. -/
def acceptClientFinished (d : Draws) (keys : SessionKeys) (expectedPassword : Bytes)
    (assignedIp : ByteArr 4) (data : Bytes) : Result (Bytes × AuthStatus) := do
  let payload ← readFrame P data keys.clientWriteKey
  let finished ← ClientFinished.decode payload
  let status := ServerHandshake.verifyAuth P finished keys expectedPassword
  let token := if status = .ok then some (assignedIp.toList ++ d.sessionId.toList) else none
  let frame ← handshakeFrame P { status, sessionToken := token : ServerFinished }.encode
    keys.serverWriteKey
  return (frame, status)

/-- What the client takes from the ServerFinished: the tunnel address and
the session id, unless the status is not `ok`. -/
def readServerFinished (keys : SessionKeys) (data : Bytes) :
    Result (Option (ByteArr 4 × SessionId)) := do
  let payload ← readFrame P data keys.serverWriteKey
  let finished ← ServerFinished.decode payload
  if finished.status ≠ .ok then throw (.authFailed "authentication failed")
  match finished.sessionToken with
  | some token =>
      return if h : 20 ≤ token.length then some (slice token 0 4, slice token 4 16) else none
  | none => return none

structure Established where
  clientKeys : SessionKeys
  serverKeys : SessionKeys
  token : Option (ByteArr 4 × SessionId)
deriving DecidableEq

def fullHandshake (d : Draws) (password expectedPassword : Bytes) (assignedIp : ByteArr 4) :
    Result Established := do
  let hello ← clientHelloFrame P d
  let (serverHello, serverKeys) ← acceptClientHello P d hello
  let (finished, clientKeys) ← clientFinishedFrame P d password serverHello
  let (serverFinished, _) ← acceptClientFinished P d serverKeys expectedPassword assignedIp finished
  let token ← readServerFinished P clientKeys serverFinished
  return { clientKeys, serverKeys, token }

end

/-! ## Both sides derive the same keys -/

section
variable {P : Primitives}

theorem readFrame_handshakeFrame (hP : P.Lawful) {payload frame : Bytes} {key : Key}
    (hfits : payload.length ≤ maxPayloadSize) (h : handshakeFrame P payload key = .ok frame) :
    readFrame P frame key = .ok payload := by
  have hdec := Chunk.decodeEncrypted_encodeEncrypted hP (Chunk.wellFormed_withPadding hfits) h
  rw [readFrame, hdec]
  rfl

theorem clientHelloFrame_eq_ok {d : Draws} {frame : Bytes} (h : clientHelloFrame P d = .ok frame) :
    handshakeFrame P
      { protocolVersion := protocolVersion
        ephemeralPublic := P.x25519Public d.clientSecret
        timestamp := d.clientNow
        random := d.clientRandom : ClientHello }.encode tempKey = .ok frame := h

theorem acceptClientHello_eq_ok {d : Draws} {data frame : Bytes} {keys : SessionKeys}
    (h : acceptClientHello P d data = .ok (frame, keys)) :
    ∃ payload hello, readFrame P data tempKey = .ok payload ∧ ClientHello.decode payload = .ok hello
      ∧ deriveSessionKeys P (P.x25519 d.serverSecret hello.ephemeralPublic) d.serverRandom.toList
          = .ok keys
      ∧ handshakeFrame P
          { ephemeralPublic := P.x25519Public d.serverSecret
            encryptedSessionToken := d.token.toList
            serverRandom := d.serverRandom : ServerHello }.encode tempKey = .ok frame := by
  obtain ⟨payload, hpayload, h⟩ := bind_eq_ok.mp h
  obtain ⟨hello, hhello, h⟩ := bind_eq_ok.mp h
  obtain ⟨⟨serverHello, keys', hs⟩, hproc, h⟩ := bind_eq_ok.mp h
  obtain ⟨frame', hframe, h⟩ := bind_eq_ok.mp h
  obtain ⟨rfl, rfl⟩ := Prod.mk.inj (Except.ok.inj h)
  simp only [ServerHandshake.processClientHello, ServerHandshake.new] at hproc
  split at hproc
  · cases hproc
  split at hproc
  · cases hproc
  obtain ⟨keys'', hkeys, hproc⟩ := bind_eq_ok.mp hproc
  obtain ⟨rfl, hrest⟩ := Prod.mk.inj (Except.ok.inj hproc)
  obtain ⟨rfl, -⟩ := Prod.mk.inj hrest
  exact ⟨payload, hello, hpayload, hhello, hkeys, hframe⟩

theorem clientFinishedFrame_eq_ok {d : Draws} {password data frame : Bytes} {keys : SessionKeys}
    (h : clientFinishedFrame P d password data = .ok (frame, keys)) :
    ∃ payload hello finished, readFrame P data tempKey = .ok payload
      ∧ ServerHello.decode payload = .ok hello
      ∧ deriveSessionKeys P (P.x25519 d.clientSecret hello.ephemeralPublic)
          hello.serverRandom.toList = .ok keys
      ∧ ClientHandshake.clientFinished P password keys d.authNonce = .ok finished
      ∧ handshakeFrame P finished.encode keys.clientWriteKey = .ok frame := by
  obtain ⟨payload, hpayload, h⟩ := bind_eq_ok.mp h
  obtain ⟨hello, hhello, h⟩ := bind_eq_ok.mp h
  obtain ⟨⟨keys', hs⟩, hproc, h⟩ := bind_eq_ok.mp h
  obtain ⟨finished, hfinished, h⟩ := bind_eq_ok.mp h
  obtain ⟨frame', hframe, h⟩ := bind_eq_ok.mp h
  obtain ⟨rfl, rfl⟩ := Prod.mk.inj (Except.ok.inj h)
  obtain ⟨keys'', hkeys, hproc⟩ := bind_eq_ok.mp hproc
  obtain ⟨rfl, -⟩ := Prod.mk.inj (Except.ok.inj hproc)
  exact ⟨payload, hello, finished, hpayload, hhello, hkeys, hfinished, hframe⟩

/-- The four frames of a handshake that went through. -/
theorem fullHandshake_eq_ok {d : Draws} {password expectedPassword : Bytes}
    {assignedIp : ByteArr 4} {est : Established}
    (h : fullHandshake P d password expectedPassword assignedIp = .ok est) :
    ∃ hello serverHello finished serverFinished status,
      clientHelloFrame P d = .ok hello
        ∧ acceptClientHello P d hello = .ok (serverHello, est.serverKeys)
        ∧ clientFinishedFrame P d password serverHello = .ok (finished, est.clientKeys)
        ∧ acceptClientFinished P d est.serverKeys expectedPassword assignedIp finished
            = .ok (serverFinished, status)
        ∧ readServerFinished P est.clientKeys serverFinished = .ok est.token := by
  obtain ⟨hello, h1, h⟩ := bind_eq_ok.mp h
  obtain ⟨⟨serverHello, serverKeys⟩, h2, h⟩ := bind_eq_ok.mp h
  obtain ⟨⟨finished, clientKeys⟩, h3, h⟩ := bind_eq_ok.mp h
  obtain ⟨⟨serverFinished, status⟩, h4, h⟩ := bind_eq_ok.mp h
  obtain ⟨token, h5, h⟩ := bind_eq_ok.mp h
  obtain rfl := Except.ok.inj h
  exact ⟨hello, serverHello, finished, serverFinished, status, h1, h2, h3, h4, h5⟩

/-- Key agreement. -/
theorem fullHandshake_keys (hP : P.Lawful) {d : Draws} {password expectedPassword : Bytes}
    {assignedIp : ByteArr 4} {est : Established}
    (h : fullHandshake P d password expectedPassword assignedIp = .ok est) :
    est.clientKeys = est.serverKeys := by
  obtain ⟨hello, serverHello, finished, serverFinished, status, h1, h2, h3, -, -⟩ :=
    fullHandshake_eq_ok h
  obtain ⟨payload, ch, hread, hch, hserver, hframe⟩ := acceptClientHello_eq_ok h2
  obtain ⟨payload', sh, fin, hread', hsh, hclient, -, -⟩ := clientFinishedFrame_eq_ok h3
  have hch' := readFrame_handshakeFrame hP (by rw [ClientHello.length_encode]; decide)
    (clientHelloFrame_eq_ok h1)
  obtain rfl := Except.ok.inj (hch'.symm.trans hread)
  obtain rfl := Except.ok.inj ((ClientHello.decode_encode _).symm.trans hch)
  have hsh' := readFrame_handshakeFrame hP (by simp [ServerHello.encode, maxPayloadSize]) hframe
  obtain rfl := Except.ok.inj (hsh'.symm.trans hread')
  obtain rfl := Except.ok.inj ((ServerHello.decode_encode (by simp)).symm.trans hsh)
  rw [hP.x25519_comm, hserver] at hclient
  exact (Except.ok.inj hclient).symm

end

end Kanrin
