import Kanrin.Crypto

/-!
# Wire chunks

The chunk half of `kanrin-protocol/src/wire.rs`: the 13-byte header, the
chunk constructors and the encrypted encoding. A chunk's header is sent in
the clear and authenticated as associated data; the sequenced encoding
also derives the AEAD nonce from the sequence it writes into the header.

Random draws are arguments (`r` for the padding length, `rnd` for the
padding bytes). Fixed slices carry their bound as a proof, so a decoder
here cannot index past the end of its input.

`decodeSequenced_encodeSequenced` is the round trip that the session layer
rests on: a chunk whose declared length is its real length comes back with
exactly its payload and the sequence it was encoded under.
-/

namespace Kanrin

open Lib

def protocolVersion : UInt8 := 1

-- version(1) + type(1) + sequence(8) + payload_len(2) + padding_len(1)
def headerSize : Nat := 13

def maxPayloadSize : Nat := 65535

/-! ## Chunk types -/

inductive ChunkType where
  | handshake
  | data
  | control
  | padding
  | resume
deriving DecidableEq, Repr

def ChunkType.toByte : ChunkType → UInt8
  | .handshake => 0x01
  | .data => 0x02
  | .control => 0x03
  | .padding => 0x04
  | .resume => 0x05

def hexDigit (n : Nat) : Char :=
  if n < 10 then Char.ofNat (48 + n) else Char.ofNat (87 + n)

/-- The format `{:02x}` of a byte. -/
def hexByte (b : UInt8) : String :=
  String.ofList [hexDigit (b.toNat / 16), hexDigit (b.toNat % 16)]

def ChunkType.fromByte (b : UInt8) : Result ChunkType :=
  if b = 0x01 then .ok .handshake
  else if b = 0x02 then .ok .data
  else if b = 0x03 then .ok .control
  else if b = 0x04 then .ok .padding
  else if b = 0x05 then .ok .resume
  else .error (.invalidChunk ("unknown chunk type: 0x" ++ hexByte b))

@[simp] theorem ChunkType.fromByte_toByte (t : ChunkType) : fromByte t.toByte = .ok t := by
  cases t <;> rfl

/-! ## The header -/

structure ChunkHeader where
  version : UInt8
  chunkType : ChunkType
  sequence : UInt64
  payloadLength : UInt16
  paddingLength : UInt8
deriving DecidableEq, Repr

namespace ChunkHeader

def encode (h : ChunkHeader) : Bytes :=
  h.version :: h.chunkType.toByte ::
    ((u64ToBe h.sequence).toList ++ ((u16ToBe h.payloadLength).toList ++ [h.paddingLength]))

@[simp] theorem length_encode (h : ChunkHeader) : h.encode.length = headerSize := by
  simp [encode, headerSize]

def decode (buf : Bytes) : Result ChunkHeader :=
  if h : buf.length < headerSize then
    .error (.bufferTooShort headerSize buf.length)
  else
    have h : 13 ≤ buf.length := Nat.not_lt.mp h
    let version := buf[0]
    if version ≠ protocolVersion then .error (.unsupportedVersion version)
    else do
      let chunkType ← ChunkType.fromByte buf[1]
      let sequence := u64FromBe (slice buf 2 8)
      let payloadLength := u16FromBe (slice buf 10 2)
      return { version, chunkType, sequence, payloadLength, paddingLength := buf[12] }

/-- Payload, padding and tag: what follows the header. -/
def bodySize (h : ChunkHeader) : Nat :=
  h.payloadLength.toNat + h.paddingLength.toNat + tagSize

/-- Reading a header back, whatever follows it. -/
theorem decode_encode {h : ChunkHeader} (hv : h.version = protocolVersion) (rest : Bytes) :
    decode (h.encode ++ rest) = .ok h := by
  have hlen : 13 ≤ (h.encode ++ rest).length := by
    rw [List.length_append, length_encode, headerSize]; omega
  have hbuf : h.encode ++ rest = [h.version, h.chunkType.toByte] ++
      ((u64ToBe h.sequence).toList ++ ((u16ToBe h.payloadLength).toList
        ++ h.paddingLength :: rest)) := by simp [encode]
  have hbuf' : h.encode ++ rest = ([h.version, h.chunkType.toByte] ++
      (u64ToBe h.sequence).toList) ++ ((u16ToBe h.payloadLength).toList
        ++ h.paddingLength :: rest) := by simp [encode]
  have hseq : slice (h.encode ++ rest) 2 8 = u64ToBe h.sequence := slice_of_append hbuf rfl _
  have hpay : slice (h.encode ++ rest) 10 2 = u16ToBe h.payloadLength :=
    slice_of_append hbuf' (by simp) _
  have hpad : (h.encode ++ rest)[12] = h.paddingLength :=
    List.getElem_of_append (by rw [hbuf', ← List.append_assoc]) (by simp)
  have h0 : (h.encode ++ rest)[0] = h.version := rfl
  have h1 : (h.encode ++ rest)[1] = h.chunkType.toByte := rfl
  have hnot : ¬ (h.encode ++ rest).length < headerSize := Nat.not_lt.mpr hlen
  simp only [decode, dif_neg hnot, h0, h1, hv, ne_eq, not_true_eq_false, ↓reduceIte,
    ChunkType.fromByte_toByte, hseq, hpay, hpad, u64FromBe_toBe, u16FromBe_toBe]
  rw [← hv]
  rfl

end ChunkHeader

/-! ## Chunks -/

structure Chunk where
  header : ChunkHeader
  payload : Bytes
deriving DecidableEq, Repr

namespace Chunk

/-- The header every constructor builds: sequence 0, the payload's length
as a `u16`, and the given padding. -/
def withPadding (chunkType : ChunkType) (payload : Bytes) (paddingLength : UInt8) : Chunk where
  header :=
    { version := protocolVersion, chunkType, sequence := 0
      payloadLength := UInt16.ofNat payload.length, paddingLength }
  payload := payload

def newData (payload : Bytes) (r : UInt8) : Chunk := withPadding .data payload (r % 64)

def newHandshake (payload : Bytes) : Chunk := withPadding .handshake payload 0

def newResume (payload : Bytes) : Chunk := withPadding .resume payload 0

def newControl (payload : Bytes) (r : UInt8) : Chunk := withPadding .control payload (r % 32)

def newPadding (size : UInt8) : Chunk := withPadding .padding [] size

def wireSize (c : Chunk) : Nat :=
  headerSize + c.payload.length + c.header.paddingLength.toNat + tagSize

variable (P : Primitives)

def encodeEncrypted (c : Chunk) (key : Key) (nonce : Nonce) (rnd : Rand) : Result Bytes := do
  let aad := c.header.encode
  let padding := randomBytesVec rnd c.header.paddingLength.toNat
  let ciphertext ← encrypt P key nonce (c.payload ++ padding) aad
  return aad ++ ciphertext

def decodeEncrypted (data : Bytes) (key : Key) (nonce : Nonce) : Result Chunk := do
  if data.length < headerSize then throw (.bufferTooShort headerSize data.length)
  let header ← ChunkHeader.decode (data.take headerSize)
  let expectedTotal := headerSize + header.bodySize
  if data.length < expectedTotal then throw (.bufferTooShort expectedTotal data.length)
  let aad := data.take headerSize
  let ciphertext := (data.drop headerSize).take header.bodySize
  let plaintext ← decrypt P key nonce ciphertext aad
  return { header, payload := plaintext.take header.payloadLength.toNat }

/-- `self` with the sequence written into its header. -/
def withSequence (c : Chunk) (sequence : UInt64) : Chunk :=
  { c with header := { c.header with sequence } }

def encodeSequenced (c : Chunk) (key : Key) (sequence : UInt64) (rnd : Rand) : Result Bytes :=
  (c.withSequence sequence).encodeEncrypted P key (nonceFromSequence sequence) rnd

def decodeSequenced (data : Bytes) (key : Key) : Result Chunk := do
  if data.length < headerSize then throw (.bufferTooShort headerSize data.length)
  let header ← ChunkHeader.decode (data.take headerSize)
  decodeEncrypted P data key (nonceFromSequence header.sequence)

/-! ## What a chunk built by a constructor satisfies -/

/-- The declared length is the payload's and the version is current. -/
structure WellFormed (c : Chunk) : Prop where
  version : c.header.version = protocolVersion
  payloadLength : c.header.payloadLength.toNat = c.payload.length

theorem wellFormed_withPadding {t : ChunkType} {payload : Bytes} {pad : UInt8}
    (h : payload.length ≤ maxPayloadSize) : (withPadding t payload pad).WellFormed where
  version := rfl
  payloadLength := by
    rw [maxPayloadSize] at h
    simp only [withPadding, UInt16.toNat_ofNat']
    omega

@[simp] theorem withSequence_payload (c : Chunk) (seq : UInt64) :
    (c.withSequence seq).payload = c.payload := rfl

@[simp] theorem withSequence_chunkType (c : Chunk) (seq : UInt64) :
    (c.withSequence seq).header.chunkType = c.header.chunkType := rfl

@[simp] theorem withSequence_sequence (c : Chunk) (seq : UInt64) :
    (c.withSequence seq).header.sequence = seq := rfl

theorem WellFormed.withSequence {c : Chunk} (h : c.WellFormed) (seq : UInt64) :
    (c.withSequence seq).WellFormed := ⟨h.version, h.payloadLength⟩

/-! ## Round trips -/

variable {P}

/-- The bytes of a successful encoding: the header and then the ciphertext. -/
theorem encodeEncrypted_eq_ok {c : Chunk} {key : Key} {nonce : Nonce} {rnd : Rand}
    {bytes : Bytes} (h : c.encodeEncrypted P key nonce rnd = .ok bytes) :
    ∃ ct, encrypt P key nonce (c.payload ++ randomBytesVec rnd c.header.paddingLength.toNat)
        c.header.encode = .ok ct ∧ bytes = c.header.encode ++ ct := by
  rw [encodeEncrypted] at h
  cases hct : encrypt P key nonce
      (c.payload ++ randomBytesVec rnd c.header.paddingLength.toNat) c.header.encode with
  | error e => rw [hct] at h; cases h
  | ok ct =>
      rw [hct] at h
      exact ⟨ct, rfl, (Except.ok.inj h).symm⟩

/-- A chunk whose payload fits a frame can be encoded. -/
theorem encodeEncrypted_isOk (hP : P.SealsAll) {c : Chunk} (h : c.payload.length ≤ maxPayloadSize)
    (key : Key) (nonce : Nonce) (rnd : Rand) :
    ∃ bytes, c.encodeEncrypted P key nonce rnd = .ok bytes := by
  have hpad := c.header.paddingLength.toNat_lt
  have hlen : (c.payload ++ randomBytesVec rnd c.header.paddingLength.toNat).length
      < 2 ^ 38 - 64 := by
    rw [maxPayloadSize] at h
    rw [List.length_append, length_randomBytesVec]
    omega
  obtain ⟨ct, hct⟩ := encrypt_isOk hP key nonce c.header.encode hlen
  refine ⟨c.header.encode ++ ct, ?_⟩
  simp only [encodeEncrypted, hct, bind, Except.bind, pure, Except.pure]

/-- The header of an encoding can be read without any key. -/
theorem decodeHeader_encodeEncrypted {c : Chunk} (hc : c.header.version = protocolVersion)
    {key : Key} {nonce : Nonce} {rnd : Rand} {bytes : Bytes}
    (h : c.encodeEncrypted P key nonce rnd = .ok bytes) :
    ¬ bytes.length < headerSize
      ∧ ChunkHeader.decode (bytes.take headerSize) = .ok c.header := by
  obtain ⟨ct, -, rfl⟩ := encodeEncrypted_eq_ok h
  have htake : (c.header.encode ++ ct).take headerSize = c.header.encode :=
    List.take_left' c.header.length_encode
  refine ⟨?_, ?_⟩
  · rw [List.length_append, ChunkHeader.length_encode]; omega
  · rw [htake]
    simpa using ChunkHeader.decode_encode hc []

/-- An encoding is as long as `wireSize` says. -/
theorem length_encodeEncrypted (hP : P.Lawful) {c : Chunk} {key : Key} {nonce : Nonce}
    {rnd : Rand} {bytes : Bytes} (h : c.encodeEncrypted P key nonce rnd = .ok bytes) :
    bytes.length = c.wireSize := by
  obtain ⟨ct, hct, rfl⟩ := encodeEncrypted_eq_ok h
  have hlen := length_of_encrypt hP hct
  simp only [List.length_append, length_randomBytesVec] at hlen
  rw [List.length_append, ChunkHeader.length_encode, wireSize]
  omega

theorem decodeEncrypted_encodeEncrypted (hP : P.Lawful) {c : Chunk} (hc : c.WellFormed)
    {key : Key} {nonce : Nonce} {rnd : Rand} {bytes : Bytes}
    (h : c.encodeEncrypted P key nonce rnd = .ok bytes) :
    decodeEncrypted P bytes key nonce = .ok c := by
  have hlen := length_encodeEncrypted hP h
  obtain ⟨ct, hct, rfl⟩ := encodeEncrypted_eq_ok h
  have hctlen : ct.length = c.header.bodySize := by
    have := length_of_encrypt hP hct
    simp only [List.length_append, length_randomBytesVec] at this
    rw [this, ChunkHeader.bodySize, hc.payloadLength]
  have htake : (c.header.encode ++ ct).take headerSize = c.header.encode :=
    List.take_left' c.header.length_encode
  have hdrop : (c.header.encode ++ ct).drop headerSize = ct :=
    List.drop_left' c.header.length_encode
  have hhead : ChunkHeader.decode c.header.encode = .ok c.header := by
    simpa using ChunkHeader.decode_encode hc.version []
  have hshort : ¬ (c.header.encode ++ ct).length < headerSize := by
    rw [List.length_append, ChunkHeader.length_encode]; omega
  have hbody : ¬ (c.header.encode ++ ct).length < headerSize + c.header.bodySize := by
    rw [List.length_append, ChunkHeader.length_encode, hctlen]; omega
  have hplain : (c.payload ++ randomBytesVec rnd c.header.paddingLength.toNat).take
      c.header.payloadLength.toNat = c.payload := List.take_left' hc.payloadLength.symm
  simp only [decodeEncrypted, if_neg hshort, htake, hdrop, hhead, bind, Except.bind, if_neg hbody,
    List.take_of_length_le hctlen.le, decrypt_of_encrypt hP hct, pure, Except.pure, hplain]

/-- The receiver gets exactly the payload and type that were encoded, under
the sequence they were encoded with. -/
theorem decodeSequenced_encodeSequenced (hP : P.Lawful) {c : Chunk} (hc : c.WellFormed)
    {key : Key} {seq : UInt64} {rnd : Rand} {bytes : Bytes}
    (h : c.encodeSequenced P key seq rnd = .ok bytes) :
    decodeSequenced P bytes key = .ok (c.withSequence seq) := by
  have hdec := decodeEncrypted_encodeEncrypted hP (hc.withSequence seq) h
  obtain ⟨ct, -, rfl⟩ := encodeEncrypted_eq_ok h
  have hshort : ¬ ((c.withSequence seq).header.encode ++ ct).length < headerSize := by
    rw [List.length_append, ChunkHeader.length_encode]; omega
  have htake : ((c.withSequence seq).header.encode ++ ct).take headerSize
      = (c.withSequence seq).header.encode := List.take_left' (ChunkHeader.length_encode _)
  have hhead : ChunkHeader.decode (c.withSequence seq).header.encode
      = .ok (c.withSequence seq).header := by
    simpa using ChunkHeader.decode_encode (hc.withSequence seq).version []
  simp only [decodeSequenced, if_neg hshort, htake, hhead, bind, Except.bind]
  exact hdec

/-- What decodes was opened by the cipher with the header's bytes as the
associated data, whatever follows them cut to the declared length. -/
theorem decodeSequenced_eq_ok {data : Bytes} {key : Key} {c : Chunk}
    (h : decodeSequenced P data key = .ok c) :
    ∃ nonce n m, P.aeadOpen key nonce ((data.drop headerSize).take n) (data.take headerSize)
      = some m := by
  rw [decodeSequenced] at h
  by_cases hshort : data.length < headerSize
  · rw [if_pos hshort] at h
    cases h
  rw [if_neg hshort] at h
  cases hhead : ChunkHeader.decode (data.take headerSize) with
  | error e =>
      rw [hhead] at h
      cases h
  | ok header =>
      rw [hhead] at h
      change decodeEncrypted P data key (nonceFromSequence header.sequence) = .ok c at h
      rw [decodeEncrypted, if_neg hshort, hhead] at h
      simp only [bind, Except.bind] at h
      split at h
      · cases h
      refine ⟨nonceFromSequence header.sequence, header.bodySize, ?_⟩
      rw [decrypt] at h
      cases hopen : P.aeadOpen key (nonceFromSequence header.sequence)
          ((data.drop headerSize).take header.bodySize) (data.take headerSize) with
      | none =>
          rw [hopen] at h
          cases h
      | some m => exact ⟨m, rfl⟩

theorem length_encodeSequenced (hP : P.Lawful) {c : Chunk} {key : Key} {seq : UInt64}
    {rnd : Rand} {bytes : Bytes} (h : c.encodeSequenced P key seq rnd = .ok bytes) :
    bytes.length = c.wireSize :=
  length_encodeEncrypted (c := c.withSequence seq) hP h

end Chunk

/-! ## Stream framing -/

/-- `frame_chunk`: the `u32` length prefix and the chunk. -/
def frameChunk (chunkData : Bytes) : Bytes := beBytes 4 chunkData.length ++ chunkData

/-- `deframe_chunk`: the chunk and how many bytes it took, if it is all
there. -/
def deframeChunk (buf : Bytes) : Option (Bytes × Nat) :=
  if h : buf.length < 4 then none
  else
    let length := (u32FromBe (slice buf 0 4)).toNat
    if buf.length < 4 + length then none else some ((buf.drop 4).take length, 4 + length)

end Kanrin
