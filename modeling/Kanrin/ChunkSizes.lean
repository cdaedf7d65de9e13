import Kanrin.Wire

/-!
# The three sizes of a chunk

A constructor copies the payload's length into the header as a `u16`, the
ciphertext is made of the whole payload, and the receiver trusts the
header. `MAX_PAYLOAD_SIZE` names the bound under which the three agree, and
nothing compares a payload with it: beyond it the length wraps, and the
encoding succeeds nevertheless (`encodesExactly_iff`).
-/

namespace Kanrin

open Lib

namespace Chunk

/-- The chunks the four constructors build of a payload; `r` is the random
draw of the padding. -/
inductive Built (payload : Bytes) : Chunk → Prop
  | data (r : UInt8) : Built payload (newData payload r)
  | control (r : UInt8) : Built payload (newControl payload r)
  | handshake : Built payload (newHandshake payload)
  | resume : Built payload (newResume payload)

/-- `bytes` has the size that is announced, and the result of decoding it
the payload. -/
structure Sound (c : Chunk) (payload bytes : Bytes) (decoded : Result Chunk) : Prop where
  wireSize : bytes.length = c.wireSize
  bodySize : bytes.length = headerSize + c.header.bodySize
  payload : ∃ c', decoded = .ok c' ∧ c'.payload = payload

/-- Whatever an encoding returns is sound, under every key, sequence or
nonce, and padding. -/
structure EncodesExactly (P : Primitives) (c : Chunk) (payload : Bytes) : Prop where
  sequenced : ∀ key seq rnd bytes, c.encodeSequenced P key seq rnd = .ok bytes →
    c.Sound payload bytes (decodeSequenced P bytes key)
  encrypted : ∀ key nonce rnd bytes, c.encodeEncrypted P key nonce rnd = .ok bytes →
    c.Sound payload bytes (decodeEncrypted P bytes key nonce)

/-! ## What a constructor puts into the header -/

theorem Built.withPadding {payload : Bytes} {c : Chunk} (h : Built payload c) :
    ∃ t pad, c = withPadding t payload pad := by
  cases h with
  | data r => exact ⟨_, _, rfl⟩
  | control r => exact ⟨_, _, rfl⟩
  | handshake => exact ⟨_, _, rfl⟩
  | resume => exact ⟨_, _, rfl⟩

theorem Built.payload_eq {payload : Bytes} {c : Chunk} (h : Built payload c) :
    c.payload = payload := by
  obtain ⟨t, pad, rfl⟩ := h.withPadding
  rfl

theorem Built.payloadLength {payload : Bytes} {c : Chunk} (h : Built payload c) :
    c.header.payloadLength.toNat = payload.length % 65536 := by
  obtain ⟨t, pad, rfl⟩ := h.withPadding
  exact UInt16.toNat_ofNat'

theorem Built.wellFormed {payload : Bytes} {c : Chunk} (h : Built payload c)
    (hlen : payload.length ≤ maxPayloadSize) : c.WellFormed := by
  obtain ⟨t, pad, rfl⟩ := h.withPadding
  exact wellFormed_withPadding hlen

/-! ## Payloads that fit, and payloads that do not -/

variable {P : Primitives}

/-- What is encoded of a payload that does not fit is longer than its own
header says. -/
theorem Built.bodySize_lt (hP : P.Lawful) {payload : Bytes} {c : Chunk} (h : Built payload c)
    (hlong : maxPayloadSize < payload.length) {key : Key} {nonce : Nonce} {rnd : Rand}
    {bytes : Bytes} (hbytes : c.encodeEncrypted P key nonce rnd = .ok bytes) :
    headerSize + c.header.bodySize < bytes.length := by
  have hsize := length_encodeEncrypted hP hbytes
  have hwrap := h.payloadLength
  rw [wireSize, h.payload_eq] at hsize
  rw [ChunkHeader.bodySize]
  unfold maxPayloadSize at hlong
  omega

theorem Built.encodesExactly (hP : P.Lawful) {payload : Bytes} {c : Chunk} (h : Built payload c)
    (hlen : payload.length ≤ maxPayloadSize) : EncodesExactly P c payload where
  sequenced key seq rnd bytes hbytes := by
    have hsize := length_encodeSequenced hP hbytes
    refine ⟨hsize, ?_, _, decodeSequenced_encodeSequenced hP (h.wellFormed hlen) hbytes,
      h.payload_eq⟩
    rw [hsize, wireSize, ChunkHeader.bodySize, (h.wellFormed hlen).payloadLength]
    omega
  encrypted key nonce rnd bytes hbytes := by
    have hsize := length_encodeEncrypted hP hbytes
    refine ⟨hsize, ?_, _, decodeEncrypted_encodeEncrypted hP (h.wellFormed hlen) hbytes,
      h.payload_eq⟩
    rw [hsize, wireSize, ChunkHeader.bodySize, (h.wellFormed hlen).payloadLength]
    omega

end Chunk

/-- Encryption fails beyond the cipher's limit of `2 ^ 32 - 1` blocks, and
only there. -/
def Primitives.SealsExactly (P : Primitives) : Prop :=
  ∀ k n msg aad, (P.aeadSeal k n msg aad).isSome = true ↔ msg.length < 2 ^ 38 - 64

namespace Chunk

variable {P : Primitives}

/-- Beyond the cipher's limit there is no encoding. -/
theorem encodeEncrypted_ne_ok (hseal : P.SealsExactly) {c : Chunk}
    (hlong : 2 ^ 38 - 64 ≤ c.payload.length + c.header.paddingLength.toNat) {key : Key}
    {nonce : Nonce} {rnd : Rand} {bytes : Bytes} :
    c.encodeEncrypted P key nonce rnd ≠ .ok bytes := by
  intro h
  obtain ⟨ct, hct, -⟩ := encodeEncrypted_eq_ok h
  have hlt := (hseal _ _ _ _).mp (Option.isSome_iff_exists.mpr ⟨ct, encrypt_eq_ok.mp hct⟩)
  rw [List.length_append, length_randomBytesVec] at hlt
  omega

/-- Below it there is one. -/
theorem encodeEncrypted_isOk_of_lt (hseal : P.SealsExactly) {c : Chunk}
    (hlen : c.payload.length + c.header.paddingLength.toNat < 2 ^ 38 - 64) (key : Key)
    (nonce : Nonce) (rnd : Rand) : ∃ bytes, c.encodeEncrypted P key nonce rnd = .ok bytes := by
  have hmsg : (c.payload ++ randomBytesVec rnd c.header.paddingLength.toNat).length
      < 2 ^ 38 - 64 := by
    rw [List.length_append, length_randomBytesVec]
    exact hlen
  obtain ⟨ct, hct⟩ := encrypt_isOk (fun k n msg aad => (hseal k n msg aad).mpr) key nonce
    c.header.encode hmsg
  refine ⟨c.header.encode ++ ct, ?_⟩
  simp only [encodeEncrypted, hct, bind, Except.bind, pure, Except.pure]

/-- Between the two limits the encoding succeeds and is not exact. -/
theorem Built.not_encodesExactly (hP : P.Lawful) (hseal : P.SealsExactly) {payload : Bytes}
    {c : Chunk} (hc : Built payload c) (hlong : maxPayloadSize < payload.length)
    (hseals : payload.length + c.header.paddingLength.toNat < 2 ^ 38 - 64) :
    ¬ EncodesExactly P c payload := by
  intro h
  rw [← hc.payload_eq] at hseals
  obtain ⟨bytes, hbytes⟩ :=
    encodeEncrypted_isOk_of_lt hseal hseals (zeroArr 32) (zeroArr 12) noPadding
  have hlt := hc.bodySize_lt hP hlong hbytes
  exact absurd (h.encrypted _ _ _ _ hbytes).bodySize hlt.ne'

/-- Encodings are exact for the payloads that fit the length field, and for
those the cipher refuses. -/
theorem encodesExactly_iff (hP : P.Lawful) (hseal : P.SealsExactly) {payload : Bytes} {c : Chunk}
    (hc : Built payload c) :
    EncodesExactly P c payload ↔ payload.length ≤ maxPayloadSize
      ∨ 2 ^ 38 - 64 ≤ payload.length + c.header.paddingLength.toNat := by
  constructor
  · intro h
    by_contra hnot
    obtain ⟨hlong, hseals⟩ := not_or.mp hnot
    exact hc.not_encodesExactly hP hseal (not_le.mp hlong) (not_le.mp hseals) h
  · rintro (hlen | hlong)
    · exact hc.encodesExactly hP hlen
    · rw [← hc.payload_eq] at hlong
      refine ⟨fun key seq rnd bytes h => ?_, fun key nonce rnd bytes h => ?_⟩
      · exact absurd h (encodeEncrypted_ne_ok (c := c.withSequence seq) hseal hlong)
      · exact absurd h (encodeEncrypted_ne_ok hseal hlong)

end Chunk

/-! ## A cipher with the limit -/

/-- `plain`, refusing what the cipher refuses. -/
def Primitives.limited : Primitives :=
  { plain with
    aeadSeal := fun key nonce msg aad =>
      if msg.length < 2 ^ 38 - 64 then plain.aeadSeal key nonce msg aad else none }

theorem Primitives.limited_lawful : Primitives.limited.Lawful where
  open_seal k n msg aad c h := by
    obtain ⟨-, hc⟩ := Option.ite_none_right_eq_some.mp h
    exact plain_lawful.open_seal k n msg aad c hc
  length_seal k n msg aad c h := by
    obtain ⟨-, hc⟩ := Option.ite_none_right_eq_some.mp h
    exact plain_lawful.length_seal k n msg aad c hc
  x25519_comm := plain_lawful.x25519_comm

theorem Primitives.limited_sealsExactly : Primitives.limited.SealsExactly := by
  intro k n msg aad
  unfold limited
  by_cases h : msg.length < 2 ^ 38 - 64
  · simp only [if_pos h]
    exact iff_of_true rfl h
  · simp only [if_neg h]
    exact iff_of_false Bool.false_ne_true h

theorem Chunk.encodesExactly_iff_full :
    EncodesExactly .limited (newResume (List.replicate 65535 0)) (List.replicate 65535 0) :=
  (encodesExactly_iff Primitives.limited_lawful Primitives.limited_sealsExactly .resume).mpr
    (Or.inl (by rw [List.length_replicate, maxPayloadSize]))

/-- One byte more: the header says that the payload is empty. -/
theorem Chunk.newHandshake_truncates :
    ¬ ∀ (payload : Bytes) (c : Chunk), Built payload c → EncodesExactly .limited c payload := by
  intro h
  have hlen : (List.replicate 65536 (0 : UInt8)).length = 65536 := List.length_replicate
  generalize List.replicate 65536 (0 : UInt8) = payload at hlen
  have hpad : (newHandshake payload).header.paddingLength.toNat = 0 := rfl
  refine Built.not_encodesExactly Primitives.limited_lawful Primitives.limited_sealsExactly
    .handshake ?_ ?_ (h payload _ .handshake)
  · rw [maxPayloadSize]
    omega
  · rw [hpad]
    omega

end Kanrin
