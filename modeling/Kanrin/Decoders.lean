import Kanrin.Lib.Indexing
import Kanrin.Control
import Kanrin.Proxy
import Kanrin.Resume

/-!
# The decoders on arbitrary bytes

The decoders of `wire.rs`, `handshake.rs` and `resume.rs` with the source's
own indexing: every index, range and conversion may fail, and `none` is the
panic. The decoders of the model cannot index past their input, because
their slices carry their bounds; here each is what its source computes, for
every input (`decode?_eq`), so none of them panics.

`decoders_safe` says it of all of them together, with where the fields of
variable length come from. That a cipher returns as many bytes as it is
given, less the tag, is all that is assumed of it.
-/

namespace Kanrin

open Lib

/-- The cipher returns as many bytes as it is given less the tag, or an
error. -/
def Primitives.OpensShorter (P : Primitives) : Prop :=
  ∀ k n c aad m, P.aeadOpen k n c aad = some m → m.length = c.length - tagSize

theorem decrypt_eq_ok {P : Primitives} {key : Key} {nonce : Nonce} {c aad m : Bytes} :
    decrypt P key nonce c aad = .ok m ↔ P.aeadOpen key nonce c aad = some m := by
  unfold decrypt
  cases P.aeadOpen key nonce c aad <;> simp

/-! ## Chunks -/

def ChunkHeader.decode? (buf : Bytes) : Option (Result ChunkHeader) := do
  if buf.length < headerSize then return .error (.bufferTooShort headerSize buf.length)
  let version ← buf[0]?
  if version ≠ protocolVersion then return .error (.unsupportedVersion version)
  match ChunkType.fromByte (← buf[1]?) with
  | .error e => return .error e
  | .ok chunkType =>
      let sequence := u64FromBe (← bytes? 8 buf [2, 3, 4, 5, 6, 7, 8, 9])
      let payloadLength := u16FromBe (← bytes? 2 buf [10, 11])
      let paddingLength ← buf[12]?
      -- `advance`
      let _ ← range? buf headerSize buf.length
      return .ok { version, chunkType, sequence, payloadLength, paddingLength }

theorem ChunkHeader.decode?_eq (buf : Bytes) : decode? buf = some (decode buf) := by
  unfold decode? decode
  by_cases h : buf.length < headerSize
  · rw [if_pos h, dif_pos h]
    rfl
  · have hlen : 13 ≤ buf.length := Nat.not_lt.mp h
    have hseq : bytes? 8 buf [2, 3, 4, 5, 6, 7, 8, 9] = some (slice buf 2 8) := bytes?_eq 2 rfl _
    have hpay : bytes? 2 buf [10, 11] = some (slice buf 10 2) := bytes?_eq 10 rfl _
    have hrest : range? buf headerSize buf.length
        = some ((buf.drop headerSize).take (buf.length - headerSize)) :=
      range?_eq _ (Nat.add_sub_of_le hlen).symm (Nat.le_refl _)
    rw [if_neg h, dif_neg h, List.getElem?_eq_getElem (by omega : 0 < buf.length),
      List.getElem?_eq_getElem (by omega : 1 < buf.length),
      List.getElem?_eq_getElem (by omega : 12 < buf.length), hseq, hpay, hrest]
    simp only [Option.bind_eq_bind, Option.bind_some]
    split
    · rfl
    · cases ChunkType.fromByte buf[1] with
      | error e => rfl
      | ok chunkType => rfl

namespace Chunk

section
variable (P : Primitives)

def decodeEncrypted? (data : Bytes) (key : Key) (nonce : Nonce) : Option (Result Chunk) := do
  if data.length < headerSize then return .error (.bufferTooShort headerSize data.length)
  match ← ChunkHeader.decode? (← range? data 0 headerSize) with
  | .error e => return .error e
  | .ok header =>
      let expectedTotal := headerSize + header.bodySize
      if data.length < expectedTotal then
        return .error (.bufferTooShort expectedTotal data.length)
      let aad ← range? data 0 headerSize
      let ciphertext ← range? data headerSize expectedTotal
      match decrypt P key nonce ciphertext aad with
      | .error e => return .error e
      | .ok plaintext =>
          return .ok { header, payload := ← range? plaintext 0 header.payloadLength.toNat }

def decodeSequenced? (data : Bytes) (key : Key) : Option (Result Chunk) := do
  if data.length < headerSize then return .error (.bufferTooShort headerSize data.length)
  match ← ChunkHeader.decode? (← range? data 0 headerSize) with
  | .error e => return .error e
  | .ok header => decodeEncrypted? P data key (nonceFromSequence header.sequence)

end

variable {P : Primitives}

theorem range?_header {data : Bytes} (h : ¬ data.length < headerSize) :
    range? data 0 headerSize = some (data.take headerSize) :=
  range?_eq headerSize (Nat.zero_add _).symm (Nat.not_lt.mp h)

theorem decodeEncrypted?_eq (hopen : P.OpensShorter) (data : Bytes) (key : Key) (nonce : Nonce) :
    decodeEncrypted? P data key nonce = some (decodeEncrypted P data key nonce) := by
  unfold decodeEncrypted? decodeEncrypted
  by_cases hshort : data.length < headerSize
  · rw [if_pos hshort, if_pos hshort]
    rfl
  rw [if_neg hshort, if_neg hshort, range?_header hshort, Option.bind_eq_bind, Option.bind_some,
    ChunkHeader.decode?_eq]
  cases ChunkHeader.decode (data.take headerSize) with
  | error e => rfl
  | ok header =>
      simp only [Option.bind_some, bind, Except.bind]
      by_cases hbody : data.length < headerSize + header.bodySize
      · rw [if_pos hbody, if_pos hbody]
        rfl
      have hciphertext : range? data headerSize (headerSize + header.bodySize)
          = some ((data.drop headerSize).take header.bodySize) :=
        range?_eq header.bodySize rfl (Nat.not_lt.mp hbody)
      rw [if_neg hbody, if_neg hbody, hciphertext, Option.bind_some]
      cases hplain : decrypt P key nonce ((data.drop headerSize).take header.bodySize)
          (data.take headerSize) with
      | error e => rfl
      | ok plaintext =>
          -- the payload and the padding were enciphered together
          have hlen : header.payloadLength.toNat ≤ plaintext.length := by
            have hlength := hopen _ _ _ _ _ (decrypt_eq_ok.mp hplain)
            rw [List.length_take, List.length_drop, ChunkHeader.bodySize] at hlength
            unfold ChunkHeader.bodySize at hbody
            omega
          have hpayload : range? plaintext 0 header.payloadLength.toNat
              = some (plaintext.take header.payloadLength.toNat) :=
            range?_eq _ (Nat.zero_add _).symm hlen
          dsimp only
          rw [hpayload]
          rfl

theorem decodeSequenced?_eq (hopen : P.OpensShorter) (data : Bytes) (key : Key) :
    decodeSequenced? P data key = some (decodeSequenced P data key) := by
  unfold decodeSequenced? decodeSequenced
  by_cases hshort : data.length < headerSize
  · rw [if_pos hshort, if_pos hshort]
    rfl
  rw [if_neg hshort, if_neg hshort, range?_header hshort, Option.bind_eq_bind, Option.bind_some,
    ChunkHeader.decode?_eq]
  cases ChunkHeader.decode (data.take headerSize) with
  | error e => rfl
  | ok header => exact decodeEncrypted?_eq hopen data key (nonceFromSequence header.sequence)

end Chunk

def deframeChunk? (buf : Bytes) : Option (Option (Bytes × Nat)) := do
  if buf.length < 4 then return none
  let length := (u32FromBe (← bytes? 4 buf [0, 1, 2, 3])).toNat
  if buf.length < 4 + length then return none
  return some (← range? buf 4 (4 + length), 4 + length)

theorem deframeChunk?_eq (buf : Bytes) : deframeChunk? buf = some (deframeChunk buf) := by
  unfold deframeChunk? deframeChunk
  by_cases h : buf.length < 4
  · rw [if_pos h, dif_pos h]
    rfl
  · have hprefix : bytes? 4 buf [0, 1, 2, 3] = some (slice buf 0 4) := bytes?_eq 0 rfl _
    rw [if_neg h, dif_neg h, hprefix, Option.bind_eq_bind, Option.bind_some]
    dsimp only
    split
    · rfl
    · rename_i hbody
      rw [range?_eq _ rfl (Nat.not_lt.mp hbody)]
      rfl

/-! ## Control messages -/

namespace ControlMessage

/-- The closure that reads one range. -/
def readRange? (b : Bytes) : Option SackRange := do
  let start := u64FromBe (← array? 8 b 0 8)
  let stop := u64FromBe (← array? 8 b 8 b.length)
  return { start, stop }

def decode? (data : Bytes) : Option (Result ControlMessage) := do
  if data.length = 0 then return .error (.invalidChunk "empty control message")
  let tag ← data[0]?
  if tag = 0x01 then
    if data.length < 9 then return .error (.bufferTooShort 9 data.length)
    return .ok (.ping (u64FromBe (← array? 8 data 1 9)))
  else if tag = 0x02 then
    if data.length < 9 then return .error (.bufferTooShort 9 data.length)
    return .ok (.pong (u64FromBe (← array? 8 data 1 9)))
  else if tag = 0x06 then
    if data.length < 2 then return .error (.bufferTooShort 2 data.length)
    return (DisconnectReason.fromByte (← data[1]?)).map .disconnect
  else if tag = 0x07 then
    if data.length < 10 then return .error (.bufferTooShort 10 data.length)
    let nextExpected := u64FromBe (← array? 8 data 1 9)
    let count := (← data[9]?).toNat
    if count > maxSackRanges then
      return .error (.invalidChunk ("too many sack ranges: " ++ toString count))
    let need := 10 + count * 16
    if data.length < need then return .error (.bufferTooShort need data.length)
    let ranges ← (chunksExact 16 (← range? data 10 need)).mapM readRange?
    return (validateSackRanges nextExpected ranges).map fun _ => .ack nextExpected ranges
  else
    return .error (.invalidChunk ("unknown control message type: 0x" ++ hexByte tag))

theorem mapM_readRange? {data : Bytes} {count : Nat} (h : 10 + count * 16 ≤ data.length) :
    (chunksExact 16 ((data.drop 10).take (count * 16))).mapM readRange?
      = some (decodeRanges data count h) := by
  have hlen : ((data.drop 10).take (count * 16)).length = count * 16 := by
    rw [List.length_take, List.length_drop]
    omega
  refine mapM_chunksExact (by decide) hlen fun i => ?_
  have hi := i.isLt
  -- the chunk as a part of the whole
  have hchunk : (((data.drop 10).take (count * 16)).drop (i * 16)).take 16
      = (data.drop (10 + i * 16)).take 16 := by
    rw [List.drop_take, List.take_take, List.drop_drop]
    congr 1
    omega
  have hsize : ((data.drop (10 + i * 16)).take 16).length = 16 := by
    rw [List.length_take, List.length_drop]
    omega
  rw [hchunk, readRange?, hsize, array?_eq rfl (by omega), array?_eq rfl (by omega)]
  refine congrArg some ?_
  rw [SackRange.mk.injEq]
  constructor
  · refine congrArg u64FromBe (ByteArr.toList_inj.mp ?_)
    rw [toList_slice, toList_slice, List.drop_zero, List.take_take]
    rfl
  · refine congrArg u64FromBe (ByteArr.toList_inj.mp ?_)
    rw [toList_slice, toList_slice, List.drop_take, List.drop_drop, List.take_take]
    rfl

theorem decode?_eq (data : Bytes) : decode? data = some (decode data) := by
  unfold decode? decode
  by_cases h0 : data.length = 0
  · rw [if_pos h0, dif_pos h0]
    rfl
  rw [if_neg h0, dif_neg h0, List.getElem?_eq_getElem (Nat.pos_of_ne_zero h0), Option.bind_eq_bind,
    Option.bind_some]
  split
  · split
    · rfl
    · rw [array?_eq rfl (by omega)]
      rfl
  split
  · split
    · rfl
    · rw [array?_eq rfl (by omega)]
      rfl
  split
  · split
    · rfl
    · rw [List.getElem?_eq_getElem (by omega)]
      rfl
  split
  · split
    · rfl
    · rename_i h
      rw [array?_eq rfl (by omega), List.getElem?_eq_getElem (by omega : 9 < data.length)]
      simp only [Option.bind_some]
      split
      · rfl
      split
      · rfl
      · rename_i h2
        rw [range?_eq _ rfl (Nat.not_lt.mp h2)]
        simp only [Option.bind_eq_bind, Option.bind_some]
        rw [mapM_readRange? (Nat.not_lt.mp h2)]
        rfl
  · rfl

end ControlMessage

/-! ## Proxy requests -/

namespace ProxyRequest

def decode? (data : Bytes) : Option (Result ProxyRequest) := do
  if data.length = 0 then return .error (.invalidChunk "empty proxy request")
  let tag ← data[0]?
  if tag = 0x01 then
    if data.length < 4 then return .error (.bufferTooShort 4 data.length)
    let addrLen := (← data[1]?).toNat
    if data.length < 2 + addrLen + 2 then
      return .error (.bufferTooShort (2 + addrLen + 2) data.length)
    let address := fromUtf8Lossy (← range? data 2 (2 + addrLen))
    let port := u16FromBe (← bytes? 2 data [2 + addrLen, 3 + addrLen])
    return .ok (.tcpConnect address port)
  else if tag = 0x02 then
    if data.length < 8 then return .error (.bufferTooShort 8 data.length)
    let sessionId := u32FromBe (← array? 4 data 1 5)
    let addrLen := (← data[5]?).toNat
    let offset := 6 + addrLen
    if data.length < offset + 4 then return .error (.bufferTooShort (offset + 4) data.length)
    let address := fromUtf8Lossy (← range? data 6 (6 + addrLen))
    let port := u16FromBe (← bytes? 2 data [offset, offset + 1])
    let dataLen := (u16FromBe (← bytes? 2 data [offset + 2, offset + 3])).toNat
    let payloadStart := offset + 4
    if data.length < payloadStart + dataLen then
      return .error (.bufferTooShort (payloadStart + dataLen) data.length)
    let payload ← range? data payloadStart (payloadStart + dataLen)
    return .ok (.udpDatagram sessionId address port payload)
  else if tag = 0x03 then
    if data.length < 5 then return .error (.bufferTooShort 5 data.length)
    let id := u16FromBe (← bytes? 2 data [1, 2])
    let queryLen := (u16FromBe (← bytes? 2 data [3, 4])).toNat
    if data.length < 5 + queryLen then return .error (.bufferTooShort (5 + queryLen) data.length)
    return .ok (.dnsQuery id (← range? data 5 (5 + queryLen)))
  else
    return .error (.invalidChunk ("unknown proxy request type: 0x" ++ hexByte tag))

theorem decode?_eq (data : Bytes) : decode? data = some (decode data) := by
  unfold decode? decode
  by_cases h0 : data.length = 0
  · rw [if_pos h0, dif_pos h0]
    rfl
  rw [if_neg h0, dif_neg h0, List.getElem?_eq_getElem (Nat.pos_of_ne_zero h0), Option.bind_eq_bind,
    Option.bind_some]
  split
  · split
    · rfl
    · rename_i h
      rw [List.getElem?_eq_getElem (by omega : 1 < data.length), Option.bind_some]
      dsimp only
      split
      · rfl
      · rename_i h2
        have haddress : range? data 2 (2 + data[1].toNat)
            = some ((data.drop 2).take data[1].toNat) := range?_eq _ rfl (by omega)
        have hport : bytes? 2 data [2 + data[1].toNat, 3 + data[1].toNat]
            = some (slice data (2 + data[1].toNat) 2) := by
          have hsucc : 3 + data[1].toNat = 2 + data[1].toNat + 1 := by omega
          rw [hsucc]
          exact bytes?_eq _ rfl _
        rw [haddress, hport]
        rfl
  split
  · split
    · rfl
    · rename_i h
      have hid : array? 4 data 1 5 = some (slice data 1 4) := array?_eq rfl _
      rw [hid, List.getElem?_eq_getElem (by omega : 5 < data.length)]
      simp only [Option.bind_some]
      split
      · rfl
      · rename_i h2
        have haddress : range? data 6 (6 + data[5].toNat)
            = some ((data.drop 6).take data[5].toNat) := range?_eq _ rfl (by omega)
        have hport : bytes? 2 data [6 + data[5].toNat, 6 + data[5].toNat + 1]
            = some (slice data (6 + data[5].toNat) 2) := bytes?_eq _ rfl _
        have hlength : bytes? 2 data [6 + data[5].toNat + 2, 6 + data[5].toNat + 3]
            = some (slice data (6 + data[5].toNat + 2) 2) := bytes?_eq _ rfl _
        rw [haddress, hport, hlength]
        simp only [Option.bind_eq_bind, Option.bind_some]
        split
        · rfl
        · rename_i h3
          rw [range?_eq _ rfl (Nat.not_lt.mp h3)]
          rfl
  split
  · split
    · rfl
    · rename_i h
      have hid : bytes? 2 data [1, 2] = some (slice data 1 2) := bytes?_eq _ rfl _
      have hlength : bytes? 2 data [3, 4] = some (slice data 3 2) := bytes?_eq _ rfl _
      rw [hid, hlength]
      simp only [Option.bind_eq_bind, Option.bind_some]
      split
      · rfl
      · rename_i h2
        rw [range?_eq _ rfl (Nat.not_lt.mp h2)]
        rfl
  · rfl

end ProxyRequest

/-! ## The handshake -/

namespace ClientHello

def decode? (data : Bytes) : Option (Result ClientHello) := do
  if data.length < 73 then return .error (.bufferTooShort 73 data.length)
  let protocolVersion ← data[0]?
  let ephemeralPublic ← array? 32 data 1 33
  let timestamp := u64FromBe (← array? 8 data 33 41)
  let random ← array? 32 data 41 73
  return .ok { protocolVersion, ephemeralPublic, timestamp, random }

theorem decode?_eq (data : Bytes) : decode? data = some (decode data) := by
  unfold decode? decode
  by_cases h : data.length < 73
  · rw [if_pos h, dif_pos h]
    rfl
  · rw [if_neg h, dif_neg h, List.getElem?_eq_getElem (by omega : 0 < data.length),
      array?_eq rfl (by omega : 1 + 32 ≤ data.length),
      array?_eq rfl (by omega : 33 + 8 ≤ data.length),
      array?_eq rfl (by omega : 41 + 32 ≤ data.length)]
    rfl

end ClientHello

namespace ServerHello

def decode? (data : Bytes) : Option (Result ServerHello) := do
  if data.length < 66 then return .error (.bufferTooShort 66 data.length)
  let ephemeralPublic ← array? 32 data 0 32
  let tokenLen := (u16FromBe (← bytes? 2 data [32, 33])).toNat
  if data.length < 34 + tokenLen + 32 then
    return .error (.bufferTooShort (34 + tokenLen + 32) data.length)
  let encryptedSessionToken ← range? data 34 (34 + tokenLen)
  let serverRandom ← array? 32 data (34 + tokenLen) (66 + tokenLen)
  return .ok { ephemeralPublic, encryptedSessionToken, serverRandom }

theorem decode?_eq (data : Bytes) : decode? data = some (decode data) := by
  unfold decode? decode
  by_cases h : data.length < 66
  · rw [if_pos h, dif_pos h]
    rfl
  · have hlength : bytes? 2 data [32, 33] = some (slice data 32 2) := bytes?_eq _ rfl _
    rw [if_neg h, dif_neg h, array?_eq rfl (by omega : 0 + 32 ≤ data.length), hlength]
    simp only [Option.bind_eq_bind, Option.bind_some]
    split
    · rfl
    · rename_i h2
      rw [range?_eq _ rfl (by omega), array?_eq (by omega) (by omega)]
      rfl

end ServerHello

namespace ClientFinished

def decode? (data : Bytes) : Option (Result ClientFinished) := do
  if data.length < 2 then return .error (.bufferTooShort 2 data.length)
  let authLen := (u16FromBe (← bytes? 2 data [0, 1])).toNat
  if data.length < 2 + authLen then return .error (.bufferTooShort (2 + authLen) data.length)
  return .ok { encryptedAuth := ← range? data 2 (2 + authLen) }

theorem decode?_eq (data : Bytes) : decode? data = some (decode data) := by
  unfold decode? decode
  by_cases h : data.length < 2
  · rw [if_pos h, dif_pos h]
    rfl
  · have hlength : bytes? 2 data [0, 1] = some (slice data 0 2) := bytes?_eq _ rfl _
    rw [if_neg h, dif_neg h, hlength]
    simp only [Option.bind_eq_bind, Option.bind_some]
    split
    · rfl
    · rename_i h2
      rw [range?_eq _ rfl (Nat.not_lt.mp h2)]
      rfl

end ClientFinished

namespace ServerFinished

def decode? (data : Bytes) : Option (Result ServerFinished) := do
  if data.length < 3 then return .error (.bufferTooShort 3 data.length)
  match AuthStatus.fromByte (← data[0]?) with
  | .error e => return .error e
  | .ok status =>
      let tokenLen := (u16FromBe (← bytes? 2 data [1, 2])).toNat
      if tokenLen > 0 then
        if data.length < 3 + tokenLen then
          return .error (.bufferTooShort (3 + tokenLen) data.length)
        return .ok { status, sessionToken := some (← range? data 3 (3 + tokenLen)) }
      else return .ok { status, sessionToken := none }

theorem decode?_eq (data : Bytes) : decode? data = some (decode data) := by
  unfold decode? decode
  by_cases h : data.length < 3
  · rw [if_pos h, dif_pos h]
    rfl
  · have hlength : bytes? 2 data [1, 2] = some (slice data 1 2) := bytes?_eq _ rfl _
    rw [if_neg h, dif_neg h, List.getElem?_eq_getElem (by omega : 0 < data.length), hlength,
      Option.bind_eq_bind, Option.bind_some]
    cases AuthStatus.fromByte data[0] with
    | error e => rfl
    | ok status =>
        simp only [Option.bind_some, bind, Except.bind]
        split
        · split
          · rfl
          · rename_i h2
            rw [range?_eq _ rfl (Nat.not_lt.mp h2)]
            rfl
        · rfl

end ServerFinished

/-! ## The resumption -/

namespace ResumeRequest

def decode? (data : Bytes) : Option (Result ResumeRequest) := do
  if data.length < 96 then return .error (.bufferTooShort 96 data.length)
  let sessionId ← array? 16 data 0 16
  let timestamp := u64FromBe (← array? 8 data 16 24)
  let clientRandom ← array? 32 data 24 56
  let nextExpected := u64FromBe (← array? 8 data 56 64)
  let proof ← array? 32 data 64 96
  return .ok { sessionId, timestamp, clientRandom, nextExpected, proof }

theorem decode?_eq (data : Bytes) : decode? data = some (decode data) := by
  unfold decode? decode
  by_cases h : data.length < 96
  · rw [if_pos h, dif_pos h]
    rfl
  · rw [if_neg h, dif_neg h, array?_eq rfl (by omega : 0 + 16 ≤ data.length),
      array?_eq rfl (by omega : 16 + 8 ≤ data.length),
      array?_eq rfl (by omega : 24 + 32 ≤ data.length),
      array?_eq rfl (by omega : 56 + 8 ≤ data.length),
      array?_eq rfl (by omega : 64 + 32 ≤ data.length)]
    rfl

end ResumeRequest

namespace ResumeResponse

def decode? (data : Bytes) : Option (Result ResumeResponse) := do
  if data.length < 73 then return .error (.bufferTooShort 73 data.length)
  match ResumeStatus.fromByte (← data[0]?) with
  | .error e => return .error e
  | .ok status =>
      let serverRandom ← array? 32 data 1 33
      let nextExpected := u64FromBe (← array? 8 data 33 41)
      let proof ← array? 32 data 41 73
      return .ok { status, serverRandom, nextExpected, proof }

theorem decode?_eq (data : Bytes) : decode? data = some (decode data) := by
  unfold decode? decode
  by_cases h : data.length < 73
  · rw [if_pos h, dif_pos h]
    rfl
  · rw [if_neg h, dif_neg h, List.getElem?_eq_getElem (by omega : 0 < data.length),
      array?_eq rfl (by omega : 1 + 32 ≤ data.length),
      array?_eq rfl (by omega : 33 + 8 ≤ data.length),
      array?_eq rfl (by omega : 41 + 32 ≤ data.length), Option.bind_eq_bind, Option.bind_some]
    cases ResumeStatus.fromByte data[0] with
    | error e => rfl
    | ok status => rfl

end ResumeResponse

/-! ## All of them -/

theorem map_eq_ok {ε α β : Type} {x : Except ε α} {f : α → β} {b : β} :
    x.map f = .ok b ↔ ∃ a, x = .ok a ∧ f a = b := by
  cases x with
  | error e => simp [Except.map]
  | ok a => simp [Except.map]

/-- The decoder returns on every input, and what it returns other than an
error comes from the input as `From` says. -/
def Total {α : Type} (decode? : Bytes → Option (Result α)) (From : Bytes → α → Prop) : Prop :=
  ∀ data, ∃ result, decode? data = some result ∧ ∀ a, result = .ok a → From data a

/-- The payload is a part of what the cipher made of a part of the input. -/
def Chunk.FromPlaintext (P : Primitives) (key : Key) (data : Bytes) (c : Chunk) : Prop :=
  ∃ nonce ciphertext aad plaintext, ciphertext <:+: data ∧ aad <:+: data
    ∧ P.aeadOpen key nonce ciphertext aad = some plaintext ∧ c.payload <:+: plaintext

def ControlMessage.FromInput (data : Bytes) : ControlMessage → Prop
  | ack _ ranges => ranges.flatMap SackRange.encode <:+: data
  | ping _ | pong _ | disconnect _ => True
  -- never decoded
  | configUpdate _ _ | scoreReport _ _ | sessionMigrate _ => False

def ProxyRequest.FromInput (data : Bytes) : ProxyRequest → Prop
  | tcpConnect address _ => ∃ part, part <:+: data ∧ address = fromUtf8Lossy part
  | udpDatagram _ address _ payload =>
      (∃ part, part <:+: data ∧ address = fromUtf8Lossy part) ∧ payload <:+: data
  | dnsQuery _ query => query <:+: data

structure DecodersSafe (P : Primitives) : Prop where
  chunkHeader : Total ChunkHeader.decode? fun _ _ => True
  decodeEncrypted : ∀ key nonce, Total (Chunk.decodeEncrypted? P · key nonce)
    (Chunk.FromPlaintext P key)
  decodeSequenced : ∀ key, Total (Chunk.decodeSequenced? P · key) (Chunk.FromPlaintext P key)
  controlMessage : Total ControlMessage.decode? ControlMessage.FromInput
  proxyRequest : Total ProxyRequest.decode? ProxyRequest.FromInput
  clientHello : Total ClientHello.decode? fun _ _ => True
  serverHello : Total ServerHello.decode? fun data h => h.encryptedSessionToken <:+: data
  clientFinished : Total ClientFinished.decode? fun data f => f.encryptedAuth <:+: data
  serverFinished : Total ServerFinished.decode? fun data f =>
    ∀ token, f.sessionToken = some token → token <:+: data
  resumeRequest : Total ResumeRequest.decode? fun _ _ => True
  resumeResponse : Total ResumeResponse.decode? fun _ _ => True
  deframeChunk : ∀ buf, ∃ frame, deframeChunk? buf = some frame
    ∧ ∀ chunk consumed, frame = some (chunk, consumed) → chunk <:+: buf ∧ consumed ≤ buf.length

theorem total_of_eq {α : Type} {decode? : Bytes → Option (Result α)} {decode : Bytes → Result α}
    {From : Bytes → α → Prop} (heq : ∀ data, decode? data = some (decode data))
    (hfrom : ∀ data a, decode data = .ok a → From data a) : Total decode? From :=
  fun data => ⟨decode data, heq data, hfrom data⟩

section
variable {P : Primitives}

theorem Chunk.fromPlaintext_of_decodeEncrypted {data : Bytes} {key : Key} {nonce : Nonce}
    {c : Chunk} (h : decodeEncrypted P data key nonce = .ok c) : c.FromPlaintext P key data := by
  unfold decodeEncrypted at h
  split at h
  · cases h
  obtain ⟨header, -, h⟩ := bind_eq_ok.mp h
  dsimp only at h
  split at h
  · cases h
  obtain ⟨plaintext, hplain, h⟩ := bind_eq_ok.mp h
  obtain rfl := Except.ok.inj h
  exact ⟨nonce, _, _, plaintext, infix_take_drop .., (List.take_prefix ..).isInfix,
    decrypt_eq_ok.mp hplain, (List.take_prefix ..).isInfix⟩

theorem Chunk.fromPlaintext_of_decodeSequenced {data : Bytes} {key : Key} {c : Chunk}
    (h : decodeSequenced P data key = .ok c) : c.FromPlaintext P key data := by
  unfold decodeSequenced at h
  split at h
  · cases h
  obtain ⟨header, -, h⟩ := bind_eq_ok.mp h
  exact fromPlaintext_of_decodeEncrypted h

end

/-- The ranges, written out again, are the bytes they were read from. -/
theorem ControlMessage.encode_decodeRanges {data : Bytes} {count : Nat}
    (h : 10 + count * 16 ≤ data.length) :
    (decodeRanges data count h).flatMap SackRange.encode = (data.drop 10).take (count * 16) := by
  have hrange : ∀ i : Fin count,
      SackRange.encode
          { start := u64FromBe (slice data (10 + i * 16) 8 (by have := i.isLt; omega))
            stop := u64FromBe (slice data (10 + i * 16 + 8) 8 (by have := i.isLt; omega)) }
        = ((data.drop 10).drop (i * 16)).take 16 := by
    intro i
    rw [SackRange.encode, u64ToBe_fromBe, u64ToBe_fromBe, toList_slice, toList_slice, List.drop_drop]
    show _ = List.take (8 + 8) _
    rw [List.take_add, List.drop_drop]
  rw [decodeRanges, List.flatMap_def, List.map_ofFn, ← flatten_ofFn_take]
  exact congrArg (fun f => (List.ofFn f).flatten) (funext hrange)

theorem ControlMessage.fromInput_of_decode {data : Bytes} {m : ControlMessage}
    (h : decode data = .ok m) : m.FromInput data := by
  unfold decode at h
  split at h
  · cases h
  split at h
  · split at h
    · cases h
    · obtain rfl := Except.ok.inj h
      trivial
  split at h
  · split at h
    · cases h
    · obtain rfl := Except.ok.inj h
      trivial
  split at h
  · split at h
    · cases h
    · obtain ⟨reason, -, rfl⟩ := map_eq_ok.mp h
      trivial
  split at h
  · split at h
    · cases h
    dsimp only at h
    split at h
    · cases h
    split at h
    · cases h
    · obtain ⟨-, -, rfl⟩ := map_eq_ok.mp h
      rw [FromInput, encode_decodeRanges]
      exact infix_take_drop ..
  · cases h

theorem ProxyRequest.fromInput_of_decode {data : Bytes} {r : ProxyRequest}
    (h : decode data = .ok r) : r.FromInput data := by
  unfold decode at h
  split at h
  · cases h
  split at h
  · split at h
    · cases h
    dsimp only at h
    split at h
    · cases h
    · obtain rfl := Except.ok.inj h
      exact ⟨_, infix_take_drop .., rfl⟩
  split at h
  · split at h
    · cases h
    dsimp only at h
    split at h
    · cases h
    split at h
    · cases h
    · obtain rfl := Except.ok.inj h
      exact ⟨⟨_, infix_take_drop .., rfl⟩, infix_take_drop ..⟩
  split at h
  · split at h
    · cases h
    dsimp only at h
    split at h
    · cases h
    · obtain rfl := Except.ok.inj h
      exact infix_take_drop ..
  · cases h

theorem ServerHello.token_infix_of_decode {data : Bytes} {m : ServerHello}
    (h : decode data = .ok m) : m.encryptedSessionToken <:+: data := by
  unfold decode at h
  split at h
  · cases h
  dsimp only at h
  split at h
  · cases h
  · obtain rfl := Except.ok.inj h
    exact infix_take_drop ..

theorem ClientFinished.auth_infix_of_decode {data : Bytes} {m : ClientFinished}
    (h : decode data = .ok m) : m.encryptedAuth <:+: data := by
  unfold decode at h
  split at h
  · cases h
  dsimp only at h
  split at h
  · cases h
  · obtain rfl := Except.ok.inj h
    exact infix_take_drop ..

theorem ServerFinished.token_infix_of_decode {data : Bytes} {m : ServerFinished}
    (h : decode data = .ok m) {token : Bytes} (htoken : m.sessionToken = some token) :
    token <:+: data := by
  unfold decode at h
  split at h
  · cases h
  obtain ⟨status, -, h⟩ := bind_eq_ok.mp h
  dsimp only at h
  split at h
  · split at h
    · cases h
    · obtain rfl := Except.ok.inj h
      obtain rfl := Option.some.inj htoken
      exact infix_take_drop ..
  · obtain rfl := Except.ok.inj h
    cases htoken

theorem infix_of_deframeChunk {buf chunk : Bytes} {consumed : Nat}
    (h : deframeChunk buf = some (chunk, consumed)) : chunk <:+: buf ∧ consumed ≤ buf.length := by
  unfold deframeChunk at h
  split at h
  · cases h
  dsimp only at h
  split at h
  · cases h
  · rename_i hbody
    obtain ⟨rfl, rfl⟩ := Prod.mk.inj (Option.some.inj h)
    exact ⟨infix_take_drop .., Nat.not_lt.mp hbody⟩

/-- No decoder panics, on whatever bytes it is given. -/
theorem decoders_safe {P : Primitives} (hopen : P.OpensShorter) : DecodersSafe P where
  chunkHeader := total_of_eq ChunkHeader.decode?_eq fun _ _ _ => trivial
  decodeEncrypted key nonce :=
    total_of_eq (fun data => Chunk.decodeEncrypted?_eq hopen data key nonce)
      fun _ _ h => Chunk.fromPlaintext_of_decodeEncrypted h
  decodeSequenced key :=
    total_of_eq (fun data => Chunk.decodeSequenced?_eq hopen data key)
      fun _ _ h => Chunk.fromPlaintext_of_decodeSequenced h
  controlMessage :=
    total_of_eq ControlMessage.decode?_eq fun _ _ h => ControlMessage.fromInput_of_decode h
  proxyRequest :=
    total_of_eq ProxyRequest.decode?_eq fun _ _ h => ProxyRequest.fromInput_of_decode h
  clientHello := total_of_eq ClientHello.decode?_eq fun _ _ _ => trivial
  serverHello :=
    total_of_eq ServerHello.decode?_eq fun _ _ h => ServerHello.token_infix_of_decode h
  clientFinished :=
    total_of_eq ClientFinished.decode?_eq fun _ _ h => ClientFinished.auth_infix_of_decode h
  serverFinished :=
    total_of_eq ServerFinished.decode?_eq fun _ _ h _ htoken =>
      ServerFinished.token_infix_of_decode h htoken
  resumeRequest := total_of_eq ResumeRequest.decode?_eq fun _ _ _ => trivial
  resumeResponse := total_of_eq ResumeResponse.decode?_eq fun _ _ _ => trivial
  deframeChunk buf := ⟨Kanrin.deframeChunk buf, deframeChunk?_eq buf, fun _ _ h =>
    infix_of_deframeChunk h⟩

theorem Primitives.plain_opensShorter : Primitives.plain.OpensShorter := by
  intro k n c aad m h
  simp only [plain] at h
  split at h
  · obtain rfl := Option.some.inj h
    rw [List.length_take]
    omega
  · cases h

theorem decoders_safe_plain : DecodersSafe .plain := decoders_safe Primitives.plain_opensShorter

end Kanrin
