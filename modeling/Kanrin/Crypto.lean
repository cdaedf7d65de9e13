import Kanrin.Lib.Fixed

/-!
# Cryptographic primitives and the functions over them

`kanrin-protocol/src/crypto.rs` and `error.rs`. The primitives themselves
(ChaCha20-Poly1305, HKDF-SHA256, HMAC-SHA256, X25519) come from external
crates; they enter as the parameter `Primitives`, and what the protocol
relies on is stated once, in `Primitives.Lawful`. Everything the
repository computes on top of them is defined here.
-/

namespace Kanrin

open Lib

/-- `ProtocolError`. -/
inductive ProtocolError where
  | crypto (text : String)
  | invalidChunk (text : String)
  | handshakeFailed (text : String)
  | session (text : String)
  | authFailed (text : String)
  | replayDetected
  | nonceExhausted
  | sendBufferFull (buffered max : Nat)
  | receiveBufferFull (buffered max : Nat)
  | bufferTooShort (need got : Nat)
  | unsupportedVersion (version : UInt8)
  | rateLimited
deriving DecidableEq, Repr

abbrev Result (α : Type) := Except ProtocolError α

/-- AEAD tag size for ChaCha20-Poly1305. -/
def tagSize : Nat := 16

abbrev Key := ByteArr 32

abbrev Nonce := ByteArr 12

/-- Nonce value from which key rotation is required (`u64::MAX - 1`). -/
def maxNonce : UInt64 := 0xFFFFFFFFFFFFFFFE

theorem toNat_maxNonce : maxNonce.toNat = 2 ^ 64 - 2 := rfl

/-- The external crates. `none` is the crate's own error. -/
structure Primitives where
  /-- `ChaCha20Poly1305::encrypt`: key, nonce, message, associated data. -/
  aeadSeal : Key → Nonce → Bytes → Bytes → Option Bytes
  /-- `ChaCha20Poly1305::decrypt`: key, nonce, ciphertext, associated data. -/
  aeadOpen : Key → Nonce → Bytes → Bytes → Option Bytes
  /-- `Hkdf::<Sha256>::new(salt, ikm)` then `expand(info)` into 32 bytes. -/
  hkdf : Option Bytes → Bytes → Bytes → Option Key
  /-- `Hmac<Sha256>` over one message. -/
  hmac : Key → Bytes → ByteArr 32
  /-- The X25519 public key of a secret. -/
  x25519Public : ByteArr 32 → ByteArr 32
  /-- X25519 of a secret with a peer's public key. -/
  x25519 : ByteArr 32 → ByteArr 32 → ByteArr 32

/-- What the protocol relies on: decryption inverts encryption, a tag is
`tagSize` bytes, and Diffie-Hellman commutes. -/
structure Primitives.Lawful (P : Primitives) : Prop where
  open_seal : ∀ k n msg aad c, P.aeadSeal k n msg aad = some c → P.aeadOpen k n c aad = some msg
  length_seal : ∀ k n msg aad c, P.aeadSeal k n msg aad = some c →
    c.length = msg.length + tagSize
  x25519_comm : ∀ a b, P.x25519 a (P.x25519Public b) = P.x25519 b (P.x25519Public a)

/-- Encryption fails only beyond the cipher's limit of `2 ^ 32 - 1` blocks. -/
def Primitives.SealsAll (P : Primitives) : Prop :=
  ∀ k n msg aad, msg.length < 2 ^ 38 - 64 → (P.aeadSeal k n msg aad).isSome = true

/-- `SessionKeys`. -/
structure SessionKeys where
  clientWriteKey : Key
  serverWriteKey : Key
deriving DecidableEq

/-- `nonce_from_sequence`: `[0u8; 4] || seq.to_be_bytes()`. -/
def nonceFromSequence (seq : UInt64) : Nonce :=
  ⟨List.replicate 4 0 ++ (u64ToBe seq).toList, by simp⟩

theorem nonceFromSequence_injective {a b : UInt64}
    (h : nonceFromSequence a = nonceFromSequence b) : a = b := by
  have hlist : List.replicate 4 (0 : UInt8) ++ (u64ToBe a).toList
      = List.replicate 4 0 ++ (u64ToBe b).toList := congrArg Subtype.val h
  exact u64ToBe_injective (ByteArr.toList_inj.mp (List.append_cancel_left hlist))

theorem nonceFromSequence_zero : nonceFromSequence 0 = zeroArr 12 := by decide

section
variable (P : Primitives)

/-- `encrypt`. -/
def encrypt (key : Key) (nonce : Nonce) (plaintext aad : Bytes) : Result Bytes :=
  match P.aeadSeal key nonce plaintext aad with
  | some c => .ok c
  | none => .error (.crypto "encrypt: aead::Error")

/-- `decrypt`. -/
def decrypt (key : Key) (nonce : Nonce) (ciphertext aad : Bytes) : Result Bytes :=
  match P.aeadOpen key nonce ciphertext aad with
  | some m => .ok m
  | none => .error (.crypto "decryption failed (authentication)")

/-- `Hkdf::expand` into one key, with the error text of its callers. -/
def hkdfExpand (salt : Option Bytes) (ikm info : Bytes) : Result Key :=
  match P.hkdf salt ikm info with
  | some k => .ok k
  | none => .error (.crypto "HKDF expand failed: invalid number of blocks, too large output")

/-- A Rust byte-string literal. -/
def ascii (s : String) : Bytes := s.toList.map fun c => UInt8.ofNat c.toNat

/-- `derive_session_keys`. -/
def deriveSessionKeys (sharedSecret : ByteArr 32) (salt : Bytes) : Result SessionKeys := do
  let clientKey ← hkdfExpand P (some salt) sharedSecret.toList (ascii "kanrin-client-write")
  let serverKey ← hkdfExpand P (some salt) sharedSecret.toList (ascii "kanrin-server-write")
  return { clientWriteKey := clientKey, serverWriteKey := serverKey }

/-- `derive_resumption_key`. -/
def deriveResumptionKey (keys : SessionKeys) : Result Key :=
  hkdfExpand P none (keys.clientWriteKey.toList ++ keys.serverWriteKey.toList)
    (ascii "kanrin-resumption")

/-- `mac_sha256`: the HMAC of the concatenated parts. -/
def macSha256 (key : Key) (parts : List Bytes) : ByteArr 32 := P.hmac key parts.flatten

end

/-- `constant_time_eq`. -/
def constantTimeEq (a b : Bytes) : Bool := if a.length ≠ b.length then false else a == b

@[simp] theorem constantTimeEq_iff {a b : Bytes} : constantTimeEq a b = true ↔ a = b := by
  unfold constantTimeEq
  split
  · rename_i h
    simp only [Bool.false_eq_true, false_iff]
    exact fun hab => h (congrArg List.length hab)
  · simp

/-- The bytes a random generator yields, in order. -/
abbrev Rand := Nat → UInt8

-- for chunks without padding, for which nothing is drawn
def noPadding : Rand := fun _ => 0

/-- `random_bytes_vec`. -/
def randomBytesVec (rnd : Rand) (len : Nat) : Bytes := (List.range len).map rnd

@[simp] theorem length_randomBytesVec (rnd : Rand) (len : Nat) :
    (randomBytesVec rnd len).length = len := by simp [randomBytesVec]

section
variable {P : Primitives}

theorem encrypt_eq_ok {key : Key} {nonce : Nonce} {msg aad c : Bytes} :
    encrypt P key nonce msg aad = .ok c ↔ P.aeadSeal key nonce msg aad = some c := by
  unfold encrypt
  cases P.aeadSeal key nonce msg aad <;> simp

theorem encrypt_isOk (hP : P.SealsAll) (key : Key) (nonce : Nonce) {msg : Bytes} (aad : Bytes)
    (h : msg.length < 2 ^ 38 - 64) : ∃ c, encrypt P key nonce msg aad = .ok c := by
  obtain ⟨c, hc⟩ := Option.isSome_iff_exists.mp (hP key nonce msg aad h)
  exact ⟨c, encrypt_eq_ok.mpr hc⟩

/-- Decryption returns what was encrypted. -/
theorem decrypt_of_encrypt (hP : P.Lawful) {key : Key} {nonce : Nonce} {msg aad c : Bytes}
    (h : encrypt P key nonce msg aad = .ok c) : decrypt P key nonce c aad = .ok msg := by
  rw [decrypt, hP.open_seal _ _ _ _ _ (encrypt_eq_ok.mp h)]

theorem length_of_encrypt (hP : P.Lawful) {key : Key} {nonce : Nonce} {msg aad c : Bytes}
    (h : encrypt P key nonce msg aad = .ok c) : c.length = msg.length + tagSize :=
  hP.length_seal _ _ _ _ _ (encrypt_eq_ok.mp h)

end

/-! ## Primitives that compute

What is lawful is not empty: messages in the clear under a tag of zeros,
and keys told apart by the eighth byte of the label they are derived under
(`kanrin-client-write` and `kanrin-server-write` differ there). -/

def Primitives.plain : Primitives where
  aeadSeal _ _ msg _ := some (msg ++ List.replicate tagSize 0)
  aeadOpen _ _ c _ := if tagSize ≤ c.length then some (c.take (c.length - tagSize)) else none
  hkdf _ _ info := some (List.Vector.replicate 32 (info.getD 7 0))
  hmac _ msg := List.Vector.replicate 32 (msg.foldl (· + ·) 0)
  x25519Public secret := secret
  x25519 secret peer := ⟨secret.toList.zipWith (· + ·) peer.toList, by simp⟩

theorem Primitives.plain_lawful : Primitives.plain.Lawful where
  open_seal _ _ msg _ c h := by
    obtain rfl := Option.some.inj h
    simp [plain]
  length_seal _ _ msg _ c h := by
    obtain rfl := Option.some.inj h
    simp
  x25519_comm a b := by
    simp only [plain]
    refine Subtype.ext (List.zipWith_comm_of_comm ?_ ..)
    exact fun x y => UInt8.add_comm x y

theorem Primitives.plain_sealsAll : Primitives.plain.SealsAll := fun _ _ _ _ _ => rfl

/-- Two different write keys. -/
def plainKeys : SessionKeys where
  clientWriteKey := List.Vector.replicate 32 0x63
  serverWriteKey := List.Vector.replicate 32 0x73

end Kanrin
