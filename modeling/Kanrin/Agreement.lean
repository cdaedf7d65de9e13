import Kanrin.Lib.Run
import Kanrin.Deliveries
import Kanrin.Handshake

/-!
# The handshake, call by call

`ClientHandshake` and `ServerHandshake` of `handshake.rs` once more, as
objects whose methods change them in place: a call that fails has done so
at some point of its body, and what it had changed by then stays changed.
Beside each object stand the Diffie-Hellman exchanges its key pair has been
used for.

`exchange` passes all four messages through their codecs.
-/

namespace Kanrin

open Lib

/-- What the protocol relies on beyond `Lawful`: what opens is what
encrypting the opened message gives. The tag is computed from the key, the
nonce, the associated data and the ciphertext, so a cipher that checks it
accepts no other. -/
def Primitives.Tidy (P : Primitives) : Prop :=
  ∀ k n c aad msg, P.aeadOpen k n c aad = some msg → P.aeadSeal k n msg aad = some c

/-- One key is well within what HKDF can expand to. -/
def Primitives.ExpandsAll (P : Primitives) : Prop :=
  ∀ salt ikm info, (P.hkdf salt ikm info).isSome = true

/-! ## The objects -/

structure Used (σ : Type) where
  handshake : σ
  /-- The secret and the peer's public key, for each exchange. -/
  exchanges : List (ByteArr 32 × ByteArr 32)

abbrev HandshakeCall (σ : Type) := ExceptT ProtocolError (StateM (Used σ))

namespace HandshakeCall

variable (P : Primitives)

/-- `KeyPair::diffie_hellman`. -/
def diffieHellman {σ : Type} (secret peer : ByteArr 32) : HandshakeCall σ (ByteArr 32) := do
  modify fun u => { u with exchanges := u.exchanges ++ [(secret, peer)] }
  return P.x25519 secret peer

def lift {σ α : Type} (r : Result α) : HandshakeCall σ α := ExceptT.mk (pure r)

/-- The call on an object, if it succeeds. -/
def onObject {σ α : Type} (call : HandshakeCall σ α) (u : Used σ) : Result (α × Used σ) :=
  match call.run.run u with
  | (.ok a, u') => .ok (a, u')
  | (.error e, _) => .error e

theorem onObject_eq_ok {σ α : Type} {call : HandshakeCall σ α} {u u' : Used σ} {a : α}
    (h : call.run.run u = (.ok a, u')) : call.onObject u = .ok (a, u') := by
  rw [onObject, h]

end HandshakeCall

open HandshakeCall (lift diffieHellman)

namespace ClientHandshake

variable (P : Primitives)

/-- `self.keypair.take()`. -/
def takeKeypair : HandshakeCall ClientHandshake (ByteArr 32) := do
  match (← get).handshake.keypair with
  | none => throw (.handshakeFailed "keypair already consumed")
  | some secret =>
      modify fun u => { u with handshake := { u.handshake with keypair := none } }
      return secret

def callClientHello (now : UInt64) (random : ByteArr 32) :
    HandshakeCall ClientHandshake ClientHello := do
  lift ((← get).handshake.clientHello P now random)

def callProcessServerHello (hello : ServerHello) : HandshakeCall ClientHandshake SessionKeys := do
  let secret ← takeKeypair
  let shared ← diffieHellman P secret hello.ephemeralPublic
  let keys ← lift (deriveSessionKeys P shared hello.serverRandom.toList)
  modify fun u => { u with handshake := { u.handshake with
    sharedSecret := some shared
    sessionToken := some hello.encryptedSessionToken
    phase := .helloReceived } }
  return keys

def callClientFinished (password : Bytes) (keys : SessionKeys) (nonce : Nonce) :
    HandshakeCall ClientHandshake ClientFinished :=
  lift (clientFinished P password keys nonce)

end ClientHandshake

namespace ServerHandshake

variable (P : Primitives)

def takeKeypair : HandshakeCall ServerHandshake (ByteArr 32) := do
  match (← get).handshake.keypair with
  | none => throw (.handshakeFailed "keypair consumed")
  | some secret =>
      modify fun u => { u with handshake := { u.handshake with keypair := none } }
      return secret

def callProcessClientHello (hello : ClientHello) (now : UInt64) (token : ByteArr 32) :
    HandshakeCall ServerHandshake (ServerHello × SessionKeys) := do
  if absDiff now hello.timestamp > maxTimestampDriftSecs then throw .replayDetected
  if hello.protocolVersion ≠ protocolVersion then
    throw (.unsupportedVersion hello.protocolVersion)
  let secret ← takeKeypair
  let serverPublic := P.x25519Public secret
  let shared ← diffieHellman P secret hello.ephemeralPublic
  let serverRandom := (← get).handshake.serverRandom
  let keys ← lift (deriveSessionKeys P shared serverRandom.toList)
  modify fun u => { u with handshake := { u.handshake with
    sharedSecret := some shared
    phase := .helloReceived } }
  return ({ ephemeralPublic := serverPublic
            encryptedSessionToken := token.toList
            serverRandom }, keys)

theorem authNonce_le {finished : ClientFinished} (h : ¬ finished.encryptedAuth.length < 12) :
    0 + 12 ≤ finished.encryptedAuth.length := by
  omega

/-- The source slices and converts; `slice` has the bound as its proof. -/
def callVerifyAuth (finished : ClientFinished) (keys : SessionKeys) (expectedPassword : Bytes) :
    HandshakeCall ServerHandshake AuthStatus := do
  if h : finished.encryptedAuth.length < 12 then return .invalidCredentials
  else
    let nonce := slice finished.encryptedAuth 0 12 (authNonce_le h)
    let ciphertext := finished.encryptedAuth.drop 12
    match decrypt P keys.clientWriteKey nonce ciphertext authLabel with
    | .error _ => return .invalidCredentials
    | .ok plaintext =>
        if constantTimeEq plaintext expectedPassword then return .ok
        else return .invalidCredentials

end ServerHandshake

/-! ## What each call does -/

section
variable {P : Primitives}

theorem run_lift_bind {σ α β : Type} (r : Result α) (f : α → HandshakeCall σ β) (u : Used σ) :
    (lift r >>= f : HandshakeCall σ β).run.run u
      = match r with
        | .ok a => (f a).run.run u
        | .error e => (.error e, u) := by
  cases r <;> rfl

theorem run_callProcessServerHello (hello : ServerHello) (u : Used ClientHandshake) :
    (ClientHandshake.callProcessServerHello P hello).run.run u
      = match u.handshake.keypair with
        | none => (.error (.handshakeFailed "keypair already consumed"), u)
        | some secret =>
            let shared := P.x25519 secret hello.ephemeralPublic
            let exchanges := u.exchanges ++ [(secret, hello.ephemeralPublic)]
            match deriveSessionKeys P shared hello.serverRandom.toList with
            | .error e => (.error e, ⟨{ u.handshake with keypair := none }, exchanges⟩)
            | .ok keys => (.ok keys,
                ⟨{ phase := .helloReceived
                   keypair := none
                   sharedSecret := some shared
                   sessionToken := some hello.encryptedSessionToken }, exchanges⟩) := by
  obtain ⟨⟨phase, keypair, shared, token⟩, exchanges⟩ := u
  cases keypair with
  | none => rfl
  | some secret =>
      refine (run_lift_bind (deriveSessionKeys P (P.x25519 secret hello.ephemeralPublic)
        hello.serverRandom.toList) _ _).trans ?_
      dsimp only
      cases deriveSessionKeys P (P.x25519 secret hello.ephemeralPublic)
        hello.serverRandom.toList with
      | error e => rfl
      | ok keys => rfl

theorem run_callProcessClientHello (hello : ClientHello) (now : UInt64) (token : ByteArr 32)
    (u : Used ServerHandshake) :
    (ServerHandshake.callProcessClientHello P hello now token).run.run u
      = if absDiff now hello.timestamp > maxTimestampDriftSecs then (.error .replayDetected, u)
        else if hello.protocolVersion ≠ protocolVersion then
          (.error (.unsupportedVersion hello.protocolVersion), u)
        else
          match u.handshake.keypair with
          | none => (.error (.handshakeFailed "keypair consumed"), u)
          | some secret =>
              let shared := P.x25519 secret hello.ephemeralPublic
              let exchanges := u.exchanges ++ [(secret, hello.ephemeralPublic)]
              match deriveSessionKeys P shared u.handshake.serverRandom.toList with
              | .error e => (.error e, ⟨{ u.handshake with keypair := none }, exchanges⟩)
              | .ok keys =>
                  (.ok ({ ephemeralPublic := P.x25519Public secret
                          encryptedSessionToken := token.toList
                          serverRandom := u.handshake.serverRandom }, keys),
                    ⟨{ u.handshake with
                       phase := .helloReceived
                       keypair := none
                       sharedSecret := some shared }, exchanges⟩) := by
  unfold ServerHandshake.callProcessClientHello
  by_cases hdrift : absDiff now hello.timestamp > maxTimestampDriftSecs
  · rw [if_pos hdrift, if_pos hdrift]
    rfl
  rw [if_neg hdrift, if_neg hdrift]
  dsimp only
  by_cases hversion : hello.protocolVersion ≠ protocolVersion
  · rw [if_pos hversion, if_pos hversion]
    rfl
  rw [if_neg hversion, if_neg hversion]
  obtain ⟨⟨phase, keypair, shared, random⟩, exchanges⟩ := u
  cases keypair with
  | none => rfl
  | some secret =>
      refine (run_lift_bind (deriveSessionKeys P (P.x25519 secret hello.ephemeralPublic)
        random.toList) _ _).trans ?_
      dsimp only
      cases deriveSessionKeys P (P.x25519 secret hello.ephemeralPublic) random.toList with
      | error e => rfl
      | ok keys => rfl

theorem run_callVerifyAuth (finished : ClientFinished) (keys : SessionKeys)
    (expectedPassword : Bytes) (u : Used ServerHandshake) :
    (ServerHandshake.callVerifyAuth P finished keys expectedPassword).run.run u
      = (.ok (ServerHandshake.verifyAuth P finished keys expectedPassword), u) := by
  unfold ServerHandshake.callVerifyAuth ServerHandshake.verifyAuth
  by_cases hshort : finished.encryptedAuth.length < 12
  · rw [dif_pos hshort, dif_pos hshort]
    rfl
  rw [dif_neg hshort, dif_neg hshort]
  dsimp only
  cases decrypt P keys.clientWriteKey (slice finished.encryptedAuth 0 12)
    (finished.encryptedAuth.drop 12) authLabel with
  | error e => rfl
  | ok plaintext =>
      dsimp only
      split
      · rfl
      · rfl

/-! ## The password -/

/-- A nonce, and the password encrypted under it. -/
def Encloses (P : Primitives) (keys : SessionKeys) (password encryptedAuth : Bytes) : Prop :=
  ∃ (nonce : Nonce) (c : Bytes), encryptedAuth = nonce.toList ++ c
    ∧ P.aeadSeal keys.clientWriteKey nonce password authLabel = some c

theorem verifyAuth_ok_iff (hP : P.Lawful) (hT : P.Tidy) (finished : ClientFinished)
    (keys : SessionKeys) (expectedPassword : Bytes) :
    ServerHandshake.verifyAuth P finished keys expectedPassword = .ok
      ↔ Encloses P keys expectedPassword finished.encryptedAuth := by
  unfold ServerHandshake.verifyAuth
  constructor
  · intro h
    split at h
    · cases h
    split at h
    · cases h
    rename_i hlong _ plaintext hdecrypt
    split at h
    · rename_i heq
      obtain rfl := constantTimeEq_iff.mp heq
      refine ⟨slice finished.encryptedAuth 0 12, finished.encryptedAuth.drop 12, ?_, ?_⟩
      · rw [toList_slice]
        exact (List.take_append_drop 12 _).symm
      · unfold decrypt at hdecrypt
        split at hdecrypt
        · rename_i msg hopen
          obtain rfl := Except.ok.inj hdecrypt
          exact hT _ _ _ _ _ hopen
        · cases hdecrypt
    · cases h
  · rintro ⟨nonce, c, hauth, hseal⟩
    have hlong : ¬ finished.encryptedAuth.length < 12 := by
      rw [hauth, List.length_append, List.Vector.toList_length]
      omega
    have hnonce : slice finished.encryptedAuth 0 12 = nonce :=
      slice_of_append (p := []) hauth rfl (Nat.le_of_not_lt hlong)
    have hc : finished.encryptedAuth.drop 12 = c := by
      rw [hauth]
      exact List.drop_left' (by simp)
    have hopen := decrypt_of_encrypt hP (encrypt_eq_ok.mpr hseal)
    rw [dif_neg hlong, hnonce, hc, hopen]
    exact if_pos (constantTimeEq_iff.mpr rfl)

theorem verifyAuth_of_not_ok {finished : ClientFinished} {keys : SessionKeys} {password : Bytes}
    (h : ServerHandshake.verifyAuth P finished keys password ≠ .ok) :
    ServerHandshake.verifyAuth P finished keys password = .invalidCredentials := by
  rw [ServerHandshake.verifyAuth] at h ⊢
  split
  · rfl
  · rename_i hlong
    rw [dif_neg hlong] at h
    split
    · rfl
    · rename_i hdecrypt
      rw [hdecrypt] at h
      dsimp only at h
      split
      · rename_i heq
        exact absurd (if_pos heq) h
      · rfl

/-- What the client encloses is the password it was given, and no other. -/
theorem encloses_iff (hP : P.Lawful) {keys : SessionKeys} {nonce : Nonce} {password c : Bytes}
    (hseal : P.aeadSeal keys.clientWriteKey nonce password authLabel = some c) (other : Bytes) :
    Encloses P keys other (nonce.toList ++ c) ↔ password = other := by
  constructor
  · rintro ⟨nonce', c', heq, hseal'⟩
    obtain ⟨hnonce, rfl⟩ := List.append_inj heq (by simp)
    obtain rfl := ByteArr.toList_inj.mp hnonce
    exact Option.some.inj
      ((hP.open_seal _ _ _ _ _ hseal).symm.trans (hP.open_seal _ _ _ _ _ hseal'))
  · rintro rfl
    exact ⟨nonce, c, rfl, hseal⟩

/-! ## One exchange -/

theorem ClientFinished.decode_encode {f : ClientFinished} (hfits : f.encryptedAuth.length < 2 ^ 16) :
    decode f.encode = .ok f := by
  have hlen : f.encode.length = 2 + f.encryptedAuth.length := by simp [encode]
  have h2 : ¬ f.encode.length < 2 := by omega
  have hbody : ¬ f.encode.length < 2 + f.encryptedAuth.length := by omega
  have hcount : ∀ hb, slice f.encode 0 2 hb = u16ToBe (UInt16.ofNat f.encryptedAuth.length) :=
    fun hb => slice_of_append (p := []) (by rfl) rfl hb
  have hsize : (UInt16.ofNat f.encryptedAuth.length).toNat = f.encryptedAuth.length := by
    rw [UInt16.toNat_ofNat']
    exact Nat.mod_eq_of_lt hfits
  have hdrop : f.encode.drop 2 = f.encryptedAuth := List.drop_left' (by simp)
  simp only [decode, dif_neg h2, hcount, u16FromBe_toBe, hsize, if_neg hbody, hdrop,
    List.take_length]

theorem AuthStatus.fromByte_toByte (s : AuthStatus) : fromByte s.toByte = .ok s := by
  cases s <;> rfl

/-- A token is not empty: an empty one is read as none. -/
theorem ServerFinished.decode_encode {f : ServerFinished}
    (hfits : ∀ token, f.sessionToken = some token → token ≠ [] ∧ token.length < 2 ^ 16) :
    decode f.encode = .ok f := by
  obtain ⟨status, token⟩ := f
  cases token with
  | none =>
      have h3 : ¬ (encode ⟨status, none⟩).length < 3 := by simp [encode]
      have hstatus : (encode ⟨status, none⟩)[0] = status.toByte := rfl
      have hcount : ∀ hb, slice (encode ⟨status, none⟩) 1 2 hb = u16ToBe 0 := fun hb =>
        slice_of_append (p := [status.toByte]) (t := []) (by simp [encode]) rfl hb
      simp only [decode, dif_neg h3, hstatus, AuthStatus.fromByte_toByte, bind, Except.bind, hcount,
        u16FromBe_toBe]
      rfl
  | some token =>
      obtain ⟨hne, hlt⟩ := hfits token rfl
      have hpos : 0 < token.length := List.length_pos_of_ne_nil hne
      have hlen : (encode ⟨status, some token⟩).length = 3 + token.length := by
        simp only [encode, List.length_cons, List.length_append, List.Vector.toList_length]
        omega
      have h3 : ¬ (encode ⟨status, some token⟩).length < 3 := by omega
      have hbody : ¬ (encode ⟨status, some token⟩).length < 3 + token.length := by omega
      have hstatus : (encode ⟨status, some token⟩)[0] = status.toByte := rfl
      have hcount : ∀ hb, slice (encode ⟨status, some token⟩) 1 2 hb
          = u16ToBe (UInt16.ofNat token.length) := fun hb =>
        slice_of_append (p := [status.toByte]) (by rfl) rfl hb
      have hsize : (UInt16.ofNat token.length).toNat = token.length := by
        rw [UInt16.toNat_ofNat']
        exact Nat.mod_eq_of_lt hlt
      have hdrop : (encode ⟨status, some token⟩).drop 3 = token := by
        rw [encode, ← List.cons_append]
        exact List.drop_left' (by simp)
      simp only [decode, dif_neg h3, hstatus, AuthStatus.fromByte_toByte, bind, Except.bind, hcount,
        u16FromBe_toBe, hsize, gt_iff_lt, if_pos hpos, if_neg hbody, hdrop, List.take_length]
      rfl

end

structure Exchanged where
  clientKeys : SessionKeys
  serverKeys : SessionKeys
  /-- What `verify_auth` returned. -/
  status : AuthStatus
  /-- What the client reads in the answer. -/
  answer : ServerFinished
deriving DecidableEq

/-- The four messages, each written out and read back on the other side. -/
def exchange (P : Primitives) (d : Draws) (password expectedPassword : Bytes)
    (assignedIp : ByteArr 4) : Result Exchanged := do
  let client : Used ClientHandshake := ⟨.new d.clientSecret, []⟩
  let server : Used ServerHandshake := ⟨.new d.serverSecret d.serverRandom, []⟩
  let (hello, client) ←
    (ClientHandshake.callClientHello P d.clientNow d.clientRandom).onObject client
  let hello ← ClientHello.decode hello.encode
  let ((serverHello, serverKeys), server) ←
    (ServerHandshake.callProcessClientHello P hello d.serverNow d.token).onObject server
  let serverHello ← ServerHello.decode serverHello.encode
  let (clientKeys, client) ← (ClientHandshake.callProcessServerHello P serverHello).onObject client
  let (finished, _) ←
    (ClientHandshake.callClientFinished P password clientKeys d.authNonce).onObject client
  let finished ← ClientFinished.decode finished.encode
  let (status, _) ←
    (ServerHandshake.callVerifyAuth P finished serverKeys expectedPassword).onObject server
  let sessionToken :=
    if status = .ok then some (assignedIp.toList ++ d.sessionId.toList) else none
  let answer ← ServerFinished.decode { status, sessionToken : ServerFinished }.encode
  return { clientKeys, serverKeys, status, answer }

section
variable {P : Primitives}

theorem deriveSessionKeys_isOk (hE : P.ExpandsAll) (shared : ByteArr 32) (salt : Bytes) :
    ∃ keys, deriveSessionKeys P shared salt = .ok keys := by
  have hexpand : ∀ info, ∃ key, hkdfExpand P (some salt) shared.toList info = .ok key := by
    intro info
    obtain ⟨key, hkey⟩ := Option.isSome_iff_exists.mp (hE (some salt) shared.toList info)
    exact ⟨key, by rw [hkdfExpand, hkey]⟩
  obtain ⟨clientKey, hclient⟩ := hexpand (ascii "kanrin-client-write")
  obtain ⟨serverKey, hserver⟩ := hexpand (ascii "kanrin-server-write")
  exact ⟨⟨clientKey, serverKey⟩, bind_eq_ok.mpr ⟨_, hclient, bind_eq_ok.mpr ⟨_, hserver, rfl⟩⟩⟩

/-- The answer of the server carries 20 bytes of token or none. -/
theorem ServerFinished.decode_answer (status : AuthStatus) (assignedIp : ByteArr 4)
    (sessionId : ByteArr 16) :
    let sessionToken := if status = .ok then some (assignedIp.toList ++ sessionId.toList) else none
    decode (encode ⟨status, sessionToken⟩) = .ok ⟨status, sessionToken⟩ := by
  intro sessionToken
  refine decode_encode fun token htoken => ?_
  have hlen : token.length = 20 := by
    simp only [sessionToken] at htoken
    split at htoken
    · obtain rfl := Option.some.inj htoken
      simp
    · cases htoken
  exact ⟨List.ne_nil_of_length_pos (by omega), by omega⟩

/-- Where the clocks agree well enough and the password fits its message,
an exchange goes through: one pair of keys, and the status the passwords
call for. -/
theorem exchange_eq_ok (hP : P.Lawful) (hS : P.SealsAll) (hT : P.Tidy) (hE : P.ExpandsAll)
    {d : Draws} (hdrift : absDiff d.serverNow d.clientNow ≤ maxTimestampDriftSecs)
    {password : Bytes} (hfits : password.length ≤ 65505) (expectedPassword : Bytes)
    (assignedIp : ByteArr 4) :
    ∃ x, exchange P d password expectedPassword assignedIp = .ok x ∧ x.clientKeys = x.serverKeys
      ∧ (x.status = .ok ↔ password = expectedPassword) ∧ x.answer.status = x.status := by
  obtain ⟨keys, hkeys⟩ := deriveSessionKeys_isOk hE
    (P.x25519 d.serverSecret (P.x25519Public d.clientSecret)) d.serverRandom.toList
  have hkeys' : deriveSessionKeys P (P.x25519 d.clientSecret (P.x25519Public d.serverSecret))
      d.serverRandom.toList = .ok keys := by rw [hP.x25519_comm, hkeys]
  obtain ⟨c, hc⟩ := encrypt_isOk hS keys.clientWriteKey d.authNonce authLabel
    (show password.length < 2 ^ 38 - 64 by omega)
  have hseal := encrypt_eq_ok.mp hc
  have hlength : (d.authNonce.toList ++ c).length < 2 ^ 16 := by
    rw [List.length_append, List.Vector.toList_length, length_of_encrypt hP hc, tagSize]
    omega
  have hstatus := (verifyAuth_ok_iff hP hT ⟨d.authNonce.toList ++ c⟩ keys expectedPassword).trans
    (encloses_iff hP hseal expectedPassword)
  generalize hverify : ServerHandshake.verifyAuth P ⟨d.authNonce.toList ++ c⟩ keys expectedPassword
    = status at hstatus
  let hello : ClientHello :=
    ⟨protocolVersion, P.x25519Public d.clientSecret, d.clientNow, d.clientRandom⟩
  let serverHello : ServerHello :=
    ⟨P.x25519Public d.serverSecret, d.token.toList, d.serverRandom⟩
  let sessionToken := if status = .ok then some (assignedIp.toList ++ d.sessionId.toList) else none
  obtain ⟨server, hserver⟩ : ∃ u, (ServerHandshake.callProcessClientHello P hello d.serverNow
      d.token).onObject ⟨.new d.serverSecret d.serverRandom, []⟩ = .ok ((serverHello, keys), u) := by
    have hrun := run_callProcessClientHello (P := P) hello d.serverNow d.token
      ⟨.new d.serverSecret d.serverRandom, []⟩
    rw [if_neg (not_lt.mpr hdrift), if_neg (not_not.mpr rfl)] at hrun
    dsimp only [ServerHandshake.new, hello] at hrun
    rw [hkeys] at hrun
    exact ⟨_, HandshakeCall.onObject_eq_ok hrun⟩
  obtain ⟨client, hclient⟩ : ∃ u, (ClientHandshake.callProcessServerHello P serverHello).onObject
      ⟨.new d.clientSecret, []⟩ = .ok (keys, u) := by
    have hrun := run_callProcessServerHello (P := P) serverHello ⟨.new d.clientSecret, []⟩
    dsimp only [ClientHandshake.new, serverHello] at hrun
    rw [hkeys'] at hrun
    exact ⟨_, HandshakeCall.onObject_eq_ok hrun⟩
  have hfinished : (ClientHandshake.callClientFinished P password keys d.authNonce).onObject client
      = .ok (⟨d.authNonce.toList ++ c⟩, client) := by
    refine HandshakeCall.onObject_eq_ok ?_
    rw [ClientHandshake.callClientFinished, ClientHandshake.clientFinished, hc]
    rfl
  have hauth : (ServerHandshake.callVerifyAuth P ⟨d.authNonce.toList ++ c⟩ keys
      expectedPassword).onObject server = .ok (status, server) := by
    refine HandshakeCall.onObject_eq_ok ?_
    rw [run_callVerifyAuth, hverify]
  have hanswer : ServerFinished.decode (ServerFinished.encode ⟨status, sessionToken⟩)
      = .ok ⟨status, sessionToken⟩ := ServerFinished.decode_answer status assignedIp d.sessionId
  refine ⟨⟨keys, keys, status, status, sessionToken⟩, ?_, rfl, hstatus, rfl⟩
  refine bind_eq_ok.mpr ⟨(hello, _), rfl, ?_⟩
  refine bind_eq_ok.mpr ⟨_, ClientHello.decode_encode hello, ?_⟩
  refine bind_eq_ok.mpr ⟨_, hserver, ?_⟩
  refine bind_eq_ok.mpr ⟨_, ServerHello.decode_encode (by simp [serverHello]), ?_⟩
  refine bind_eq_ok.mpr ⟨_, hclient, ?_⟩
  refine bind_eq_ok.mpr ⟨_, hfinished, ?_⟩
  refine bind_eq_ok.mpr ⟨_, ClientFinished.decode_encode hlength, ?_⟩
  refine bind_eq_ok.mpr ⟨_, hauth, ?_⟩
  exact bind_eq_ok.mpr ⟨_, hanswer, rfl⟩

/-! ## One use of a key pair -/

/-- The calls there are on a client's object. -/
inductive ClientCall where
  | clientHello (now : UInt64) (random : ByteArr 32)
  | processServerHello (hello : ServerHello)
  | clientFinished (password : Bytes) (keys : SessionKeys) (nonce : Nonce)

inductive ServerCall where
  | processClientHello (hello : ClientHello) (now : UInt64) (token : ByteArr 32)
  | verifyAuth (finished : ClientFinished) (keys : SessionKeys) (expectedPassword : Bytes)

/-- What a call leaves of the object, whether it succeeds or fails. -/
def Used.clientStep (P : Primitives) (u : Used ClientHandshake) :
    ClientCall → Option (Used ClientHandshake)
  | .clientHello now random => some ((ClientHandshake.callClientHello P now random).run.run u).2
  | .processServerHello hello => some ((ClientHandshake.callProcessServerHello P hello).run.run u).2
  | .clientFinished password keys nonce =>
      some ((ClientHandshake.callClientFinished P password keys nonce).run.run u).2

def Used.serverStep (P : Primitives) (u : Used ServerHandshake) :
    ServerCall → Option (Used ServerHandshake)
  | .processClientHello hello now token =>
      some ((ServerHandshake.callProcessClientHello P hello now token).run.run u).2
  | .verifyAuth finished keys expectedPassword =>
      some ((ServerHandshake.callVerifyAuth P finished keys expectedPassword).run.run u).2

/-- The key pair has been used at most once, and once it has, every further
call fails and leaves the object as it is. -/
def UsedOnce {σ α β : Type} (process : α → HandshakeCall σ β) (u : Used σ) : Prop :=
  u.exchanges.length ≤ 1
    ∧ (u.exchanges ≠ [] → ∀ a, ∃ e, (process a).run.run u = (.error e, u))

/-- Either the key pair is there and unused, or it is gone. -/
def Kept {σ : Type} (keypair : σ → Option (ByteArr 32)) (u : Used σ) : Prop :=
  u.exchanges = [] ∨ (u.exchanges.length ≤ 1 ∧ keypair u.handshake = none)

/-- Taking the key pair is what uses it. -/
theorem Kept.take {σ : Type} {keypair : σ → Option (ByteArr 32)} {u u' : Used σ}
    (h : Kept keypair u) (hthere : keypair u.handshake ≠ none)
    (hgone : keypair u'.handshake = none)
    (hone : u'.exchanges.length = u.exchanges.length + 1) : Kept keypair u' := by
  rcases h with hunused | ⟨-, hnone⟩
  · refine Or.inr ⟨?_, hgone⟩
    rw [hone, hunused, List.length_nil]
  · exact absurd hnone hthere

theorem client_kept {u u' : Used ClientHandshake} {call : ClientCall}
    (h : Kept ClientHandshake.keypair u) (hstep : u.clientStep P call = some u') :
    Kept ClientHandshake.keypair u' := by
  cases call with
  | clientHello now random =>
      obtain rfl := Option.some.inj hstep
      exact h
  | clientFinished password keys nonce =>
      obtain rfl := Option.some.inj hstep
      exact h
  | processServerHello hello =>
      obtain rfl := Option.some.inj hstep
      rw [run_callProcessServerHello]
      cases hkeypair : u.handshake.keypair with
      | none => exact h
      | some secret =>
          have hthere : u.handshake.keypair ≠ none := by simp [hkeypair]
          dsimp only
          split
          · exact h.take hthere rfl List.length_append
          · exact h.take hthere rfl List.length_append

theorem client_usedOnce {u : Used ClientHandshake} (h : Kept ClientHandshake.keypair u) :
    UsedOnce (ClientHandshake.callProcessServerHello P) u := by
  rcases h with hunused | ⟨hlen, hgone⟩
  · exact ⟨by simp [hunused], fun hused => absurd hunused hused⟩
  · refine ⟨hlen, fun _ hello => ?_⟩
    have hrun := run_callProcessServerHello (P := P) hello u
    rw [hgone] at hrun
    exact ⟨_, hrun⟩

theorem server_kept {u u' : Used ServerHandshake} {call : ServerCall}
    (h : Kept ServerHandshake.keypair u) (hstep : u.serverStep P call = some u') :
    Kept ServerHandshake.keypair u' := by
  cases call with
  | verifyAuth finished keys expectedPassword =>
      obtain rfl := Option.some.inj hstep
      rw [run_callVerifyAuth]
      exact h
  | processClientHello hello now token =>
      obtain rfl := Option.some.inj hstep
      rw [run_callProcessClientHello]
      split
      · exact h
      split
      · exact h
      cases hkeypair : u.handshake.keypair with
      | none => exact h
      | some secret =>
          have hthere : u.handshake.keypair ≠ none := by simp [hkeypair]
          dsimp only
          split
          · exact h.take hthere rfl List.length_append
          · exact h.take hthere rfl List.length_append

theorem server_usedOnce {u : Used ServerHandshake} (h : Kept ServerHandshake.keypair u) :
    UsedOnce (fun (hello, now, token) =>
      ServerHandshake.callProcessClientHello P hello now token) u := by
  rcases h with hunused | ⟨hlen, hgone⟩
  · exact ⟨by simp [hunused], fun hused => absurd hunused hused⟩
  · refine ⟨hlen, fun _ (hello, now, token) => ?_⟩
    dsimp only
    rw [run_callProcessClientHello, hgone]
    split
    · exact ⟨_, rfl⟩
    split
    · exact ⟨_, rfl⟩
    · exact ⟨_, rfl⟩

/-- Key agreement, the password check on whatever arrives, and one use of
each key pair whatever is called. -/
theorem handshake_agreement (hP : P.Lawful) (hS : P.SealsAll) (hT : P.Tidy) (hE : P.ExpandsAll) :
    (∀ (d : Draws) (password expectedPassword : Bytes) (assignedIp : ByteArr 4),
        absDiff d.serverNow d.clientNow ≤ maxTimestampDriftSecs →
        password.length ≤ 65505 → expectedPassword.length ≤ 65505 →
        ∃ x, exchange P d password expectedPassword assignedIp = .ok x
          ∧ x.clientKeys = x.serverKeys ∧ (x.status = .ok ↔ password = expectedPassword)
          ∧ x.answer.status = x.status)
    ∧ (∀ (encryptedAuth expectedPassword : Bytes) (keys : SessionKeys) (u : Used ServerHandshake),
        ¬ Encloses P keys expectedPassword encryptedAuth →
        (ServerHandshake.callVerifyAuth P ⟨encryptedAuth⟩ keys expectedPassword).run.run u
          = (.ok .invalidCredentials, u))
    ∧ (∀ (secret : ByteArr 32) (calls : List ClientCall),
        Always (Used.clientStep P) (UsedOnce (ClientHandshake.callProcessServerHello P))
          ⟨.new secret, []⟩ calls)
    ∧ (∀ (secret serverRandom : ByteArr 32) (calls : List ServerCall),
        Always (Used.serverStep P)
          (UsedOnce fun (hello, now, token) =>
            ServerHandshake.callProcessClientHello P hello now token)
          ⟨.new secret serverRandom, []⟩ calls) := by
  refine ⟨?_, ?_, ?_, ?_⟩
  · intro d password expectedPassword assignedIp hdrift hfits _
    exact exchange_eq_ok hP hS hT hE hdrift hfits expectedPassword assignedIp
  · intro encryptedAuth expectedPassword keys u hno
    have hnot := mt (verifyAuth_ok_iff hP hT ⟨encryptedAuth⟩ keys expectedPassword).mp hno
    rw [run_callVerifyAuth, verifyAuth_of_not_ok hnot]
  · intro secret calls
    exact (always_of_invariant (fun _ _ _ => client_kept) (Or.inl rfl)).mono
      fun _ => client_usedOnce
  · intro secret serverRandom calls
    exact (always_of_invariant (fun _ _ _ => server_kept) (Or.inl rfl)).mono
      fun _ => server_usedOnce

end

/-! ## A cipher that checks its tag -/

theorem Primitives.marked_tidy (calls : List SealCall) : (marked calls).Tidy := by
  intro key nonce c aad msg hopen
  change (if _ then _ else _) = _ at hopen
  split at hopen
  · rename_i htag
    obtain rfl := Option.some.inj hopen
    show some _ = some _
    rw [← htag.2, List.take_append_drop]
  · cases hopen

def sampleDraws : Draws where
  clientSecret := List.Vector.replicate 32 3
  serverSecret := List.Vector.replicate 32 5
  clientRandom := zeroArr 32
  serverRandom := zeroArr 32
  authNonce := List.Vector.replicate 12 9
  token := zeroArr 32
  sessionId := zeroArr 16
  clientNow := 1000
  serverNow := 1030

theorem handshake_agreement_sample :
    (∃ x, exchange (.marked []) sampleDraws [0x70, 0x77] [0x70, 0x77] (zeroArr 4) = .ok x
        ∧ x.clientKeys = x.serverKeys ∧ x.status = .ok)
      ∧ (∃ x, exchange (.marked []) sampleDraws [0x70, 0x77] [0x70] (zeroArr 4) = .ok x
        ∧ x.clientKeys = x.serverKeys ∧ x.status ≠ .ok)
      ∧ ((ServerHandshake.callVerifyAuth (.marked []) ⟨[1, 2, 3]⟩ plainKeys [0x70]).run.run
          ⟨.new (zeroArr 32) (zeroArr 32), []⟩).1 = .ok .invalidCredentials := by
  obtain ⟨hexchange, hverify, -, -⟩ := handshake_agreement (Primitives.marked_lawful [])
    (fun _ _ _ _ _ => rfl) (Primitives.marked_tidy []) (fun _ _ _ => rfl)
  have hdrift : absDiff sampleDraws.serverNow sampleDraws.clientNow ≤ maxTimestampDriftSecs := by
    decide
  refine ⟨?_, ?_, ?_⟩
  · obtain ⟨x, hx, hkeys, hstatus, -⟩ := hexchange sampleDraws [0x70, 0x77] [0x70, 0x77] (zeroArr 4)
      hdrift (by decide) (by decide)
    exact ⟨x, hx, hkeys, hstatus.mpr rfl⟩
  · obtain ⟨x, hx, hkeys, hstatus, -⟩ := hexchange sampleDraws [0x70, 0x77] [0x70] (zeroArr 4)
      hdrift (by decide) (by decide)
    exact ⟨x, hx, hkeys, fun hok => absurd (hstatus.mp hok) (by decide)⟩
  · have hno : ¬ Encloses (.marked []) plainKeys [0x70] [1, 2, 3] := by
      rintro ⟨nonce, c, hauth, -⟩
      have hlen := congrArg List.length hauth
      simp at hlen
      omega
    rw [hverify _ _ _ _ hno]

end Kanrin
