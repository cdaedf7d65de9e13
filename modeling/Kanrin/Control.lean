import Kanrin.Wire

/-!
# Control messages

The `ControlMessage` half of `kanrin-protocol/src/wire.rs`. The source's
`f32` score is four opaque bytes here, and the field `end` of a selective
range is called `stop` (the word is reserved).

`decode` mirrors the source's match: it knows the ping, pong, disconnect
and acknowledgement tags and rejects every other first byte, including the
three that `encode` writes for the remaining variants.

`decode_encode_ack` is the round trip of an acknowledgement in canonical
form, which is what `validateSackRanges` accepts (`validateSackRanges_iff`).
-/

namespace Kanrin

open Lib

def maxSackRanges : Nat := 32

/-- The inclusive range of sequences `[start, stop]`. -/
structure SackRange where
  start : UInt64
  stop : UInt64
deriving DecidableEq, Repr

inductive DisconnectReason where
  | clientClose
  | serverClose
  | authFailed
  | trafficExceeded
  | expired
  | timeout
deriving DecidableEq, Repr

def DisconnectReason.toByte : DisconnectReason → UInt8
  | .clientClose => 0x00
  | .serverClose => 0x01
  | .authFailed => 0x02
  | .trafficExceeded => 0x03
  | .expired => 0x04
  | .timeout => 0x05

def DisconnectReason.fromByte (b : UInt8) : Result DisconnectReason :=
  if b = 0x00 then .ok .clientClose
  else if b = 0x01 then .ok .serverClose
  else if b = 0x02 then .ok .authFailed
  else if b = 0x03 then .ok .trafficExceeded
  else if b = 0x04 then .ok .expired
  else if b = 0x05 then .ok .timeout
  else .error (.invalidChunk "unknown disconnect reason")

@[simp] theorem DisconnectReason.fromByte_toByte (r : DisconnectReason) :
    fromByte r.toByte = .ok r := by
  cases r <;> rfl

inductive ControlMessage where
  | ping (timestamp : UInt64)
  | pong (timestamp : UInt64)
  | configUpdate (configHash : ByteArr 32) (url : String)
  | scoreReport (nodeId : String) (score : ByteArr 4)
  | sessionMigrate (newToken : Bytes)
  | disconnect (reason : DisconnectReason)
  | ack (nextExpected : UInt64) (ranges : List SackRange)
deriving DecidableEq

def SackRange.encode (r : SackRange) : Bytes :=
  (u64ToBe r.start).toList ++ (u64ToBe r.stop).toList

namespace ControlMessage

def encode : ControlMessage → Bytes
  | ping timestamp => 0x01 :: (u64ToBe timestamp).toList
  | pong timestamp => 0x02 :: (u64ToBe timestamp).toList
  | configUpdate configHash url =>
      0x03 :: (configHash.toList ++ (u16ToBe (UInt16.ofNat url.toUTF8.size)).toList
        ++ url.toUTF8.toList)
  | scoreReport nodeId score =>
      0x04 :: UInt8.ofNat nodeId.toUTF8.size :: (nodeId.toUTF8.toList ++ score.toList)
  | sessionMigrate newToken =>
      0x05 :: ((u16ToBe (UInt16.ofNat newToken.length)).toList ++ newToken)
  | disconnect reason => [0x06, reason.toByte]
  | ack nextExpected ranges =>
      0x07 :: ((u64ToBe nextExpected).toList ++ UInt8.ofNat ranges.length ::
        ranges.flatMap SackRange.encode)

end ControlMessage

/-! ## The canonical form of an acknowledgement -/

-- `floor` is a `u128` in the source, so that `end + 1` cannot overflow
def validateSackRangesFrom (floor : Nat) : List SackRange → Result Unit
  | [] => .ok ()
  | r :: rs =>
      if r.start > r.stop then .error (.invalidChunk "invalid sack: range start > end")
      else if r.start.toNat ≤ floor then
        .error (.invalidChunk
          "invalid sack: range not ascending/disjoint above cumulative point")
      else validateSackRangesFrom (r.stop.toNat + 1) rs

def validateSackRanges (nextExpected : UInt64) (ranges : List SackRange) : Result Unit :=
  validateSackRangesFrom nextExpected.toNat ranges

/-- Well-formed ranges, ascending from above `floor` with a gap between
neighbours. -/
def Canonical (floor : Nat) : List SackRange → Prop
  | [] => True
  | r :: rs => r.start ≤ r.stop ∧ floor < r.start.toNat ∧ Canonical (r.stop.toNat + 1) rs

theorem validateSackRangesFrom_iff {floor : Nat} {ranges : List SackRange} :
    validateSackRangesFrom floor ranges = .ok () ↔ Canonical floor ranges := by
  induction ranges generalizing floor with
  | nil => simp [validateSackRangesFrom, Canonical]
  | cons r rs ih =>
      unfold validateSackRangesFrom Canonical
      by_cases h1 : r.start > r.stop
      · simp only [if_pos h1, reduceCtorEq, false_iff]
        exact fun h => absurd h.1 (not_le.mpr h1)
      · rw [if_neg h1]
        by_cases h2 : r.start.toNat ≤ floor
        · simp only [if_pos h2, reduceCtorEq, false_iff]
          exact fun h => absurd h.2.1 (not_lt.mpr h2)
        · rw [if_neg h2, ih]
          exact ⟨fun h => ⟨not_lt.mp h1, not_le.mp h2, h⟩, fun h => h.2.2⟩

theorem validateSackRanges_iff {nextExpected : UInt64} {ranges : List SackRange} :
    validateSackRanges nextExpected ranges = .ok () ↔ Canonical nextExpected.toNat ranges :=
  validateSackRangesFrom_iff

namespace ControlMessage

/-! ## Decoding -/

/-- `data[10..10 + 16 * count]` in chunks of 16. -/
def decodeRanges (data : Bytes) (count : Nat) (h : 10 + count * 16 ≤ data.length) :
    List SackRange :=
  List.ofFn fun i : Fin count =>
    { start := u64FromBe (slice data (10 + i * 16) 8 (by have := i.isLt; omega))
      stop := u64FromBe (slice data (10 + i * 16 + 8) 8 (by have := i.isLt; omega)) }

def decode (data : Bytes) : Result ControlMessage :=
  if h0 : data.length = 0 then .error (.invalidChunk "empty control message")
  else if getElem data 0 (length_pos_of_ne_zero h0) = 0x01 then
    if h : data.length < 9 then .error (.bufferTooShort 9 data.length)
    else .ok (.ping (u64FromBe (slice data 1 8)))
  else if getElem data 0 (length_pos_of_ne_zero h0) = 0x02 then
    if h : data.length < 9 then .error (.bufferTooShort 9 data.length)
    else .ok (.pong (u64FromBe (slice data 1 8)))
  else if getElem data 0 (length_pos_of_ne_zero h0) = 0x06 then
    if h : data.length < 2 then .error (.bufferTooShort 2 data.length)
    else (DisconnectReason.fromByte data[1]).map .disconnect
  else if getElem data 0 (length_pos_of_ne_zero h0) = 0x07 then
    if h : data.length < 10 then .error (.bufferTooShort 10 data.length)
    else
      let nextExpected := u64FromBe (slice data 1 8)
      let count := data[9].toNat
      if count > maxSackRanges then
        .error (.invalidChunk ("too many sack ranges: " ++ toString count))
      else if h2 : data.length < 10 + count * 16 then
        .error (.bufferTooShort (10 + count * 16) data.length)
      else
        let ranges := decodeRanges data count (Nat.not_lt.mp h2)
        (validateSackRanges nextExpected ranges).map fun _ => .ack nextExpected ranges
  else .error (.invalidChunk ("unknown control message type: 0x"
    ++ hexByte (getElem data 0 (length_pos_of_ne_zero h0))))

/-! ## The acknowledgement round trip -/

theorem length_flatMap_encode (ranges : List SackRange) :
    (ranges.flatMap SackRange.encode).length = ranges.length * 16 := by
  induction ranges with
  | nil => rfl
  | cons r rs ih => simp [SackRange.encode, ih]; omega

/-- The encoding of an acknowledgement around its `i`-th range. -/
theorem encode_ack_split (next : UInt64) (ranges : List SackRange) {i : Nat}
    (hi : i < ranges.length) :
    ∃ pre rest, (ack next ranges).encode
        = pre ++ ((u64ToBe ranges[i].start).toList ++ ((u64ToBe ranges[i].stop).toList ++ rest))
      ∧ pre.length = 10 + i * 16 := by
  refine ⟨0x07 :: ((u64ToBe next).toList ++ UInt8.ofNat ranges.length ::
    (ranges.take i).flatMap SackRange.encode), (ranges.drop (i + 1)).flatMap SackRange.encode,
    ?_, ?_⟩
  · have hflat : ranges.flatMap SackRange.encode = (ranges.take i).flatMap SackRange.encode
        ++ (ranges[i].encode ++ (ranges.drop (i + 1)).flatMap SackRange.encode) := by
      rw [← List.flatMap_cons, ← List.drop_eq_getElem_cons hi, ← List.flatMap_append,
        List.take_append_drop]
    rw [encode, hflat]
    simp [SackRange.encode]
  · have htake : (ranges.take i).length = i := by simp; omega
    simp only [List.length_cons, List.length_append, length_flatMap_encode, htake,
      List.Vector.toList_length]
    omega

theorem length_encode_ack (next : UInt64) (ranges : List SackRange) :
    (ack next ranges).encode.length = 10 + ranges.length * 16 := by
  unfold encode
  simp only [List.length_append, List.length_cons, length_flatMap_encode,
    List.Vector.toList_length]
  omega

theorem decodeRanges_encode (next : UInt64) (ranges : List SackRange)
    (h : 10 + ranges.length * 16 ≤ (ack next ranges).encode.length) :
    decodeRanges (ack next ranges).encode ranges.length h = ranges := by
  refine List.ext_getElem (by simp [decodeRanges]) ?_
  intro i hi hi'
  obtain ⟨pre, rest, hsplit, hpre⟩ := encode_ack_split next ranges hi'
  have hsplit' : (ack next ranges).encode = (pre ++ (u64ToBe ranges[i].start).toList)
      ++ ((u64ToBe ranges[i].stop).toList ++ rest) := by rw [hsplit, List.append_assoc]
  simp only [decodeRanges, List.getElem_ofFn]
  rw [slice_of_append hsplit hpre, slice_of_append hsplit' (by simp [hpre]), u64FromBe_toBe,
    u64FromBe_toBe]

/-- A canonical acknowledgement of at most `maxSackRanges` ranges survives
the wire. -/
theorem decode_encode_ack {next : UInt64} {ranges : List SackRange}
    (hlen : ranges.length ≤ maxSackRanges) (hcan : Canonical next.toNat ranges) :
    decode (ack next ranges).encode = .ok (ack next ranges) := by
  have hsplit : (ack next ranges).encode = [0x07] ++ ((u64ToBe next).toList ++
      UInt8.ofNat ranges.length :: ranges.flatMap SackRange.encode) := rfl
  have hsplit' : (ack next ranges).encode = ([0x07] ++ (u64ToBe next).toList) ++
      UInt8.ofNat ranges.length :: ranges.flatMap SackRange.encode := by
    rw [hsplit, List.append_assoc]
  have hsize := length_encode_ack next ranges
  have hnext : slice (ack next ranges).encode 1 8 (by omega) = u64ToBe next :=
    slice_of_append hsplit rfl _
  have hcount : (ack next ranges).encode[9].toNat = ranges.length := by
    have hget : (ack next ranges).encode[9] = UInt8.ofNat ranges.length :=
      List.getElem_of_append hsplit' (by simp)
    rw [hget, UInt8.toNat_ofNat']
    unfold maxSackRanges at hlen
    omega
  have hhead : (ack next ranges).encode[0] = 0x07 := rfl
  have hn0 : ¬ (ack next ranges).encode.length = 0 := by omega
  have hn10 : ¬ (ack next ranges).encode.length < 10 := by omega
  have hnlen : ¬ (ack next ranges).encode.length < 10 + ranges.length * 16 := by omega
  simp only [decode, dif_neg hn0, hhead, dif_neg hn10, hnext, hcount, u64FromBe_toBe,
    if_neg (not_lt.mpr hlen), dif_neg hnlen, decodeRanges_encode,
    validateSackRanges_iff.mpr hcan]
  rfl

theorem decode_encode_ping (timestamp : UInt64) :
    decode (ping timestamp).encode = .ok (ping timestamp) := by
  have hts : ∀ h, slice (ping timestamp).encode 1 8 h = u64ToBe timestamp := fun h =>
    slice_of_append (p := [0x01]) (t := []) (by simp [encode]) rfl h
  have hlen : (ping timestamp).encode.length = 9 := by simp [encode]
  have hhead : (ping timestamp).encode[0] = 0x01 := rfl
  simp [decode, hlen, hhead, hts]

theorem decode_encode_pong (timestamp : UInt64) :
    decode (pong timestamp).encode = .ok (pong timestamp) := by
  have hts : ∀ h, slice (pong timestamp).encode 1 8 h = u64ToBe timestamp := fun h =>
    slice_of_append (p := [0x02]) (t := []) (by simp [encode]) rfl h
  have hlen : (pong timestamp).encode.length = 9 := by simp [encode]
  have hhead : (pong timestamp).encode[0] = 0x02 := rfl
  simp [decode, hlen, hhead, hts]

theorem decode_encode_disconnect (reason : DisconnectReason) :
    decode (disconnect reason).encode = .ok (disconnect reason) := by
  have hread : decode (disconnect reason).encode
      = (DisconnectReason.fromByte reason.toByte).map .disconnect := rfl
  rw [hread, DisconnectReason.fromByte_toByte]
  rfl

/-! ## Which messages survive the wire -/

/-- The fields fit their length prefixes, and an acknowledgement is in
canonical form. -/
def Fits : ControlMessage → Prop
  | ping _ | pong _ | disconnect _ => True
  | configUpdate _ url => url.toUTF8.size ≤ 65535
  | scoreReport nodeId _ => nodeId.toUTF8.size ≤ 255
  | sessionMigrate newToken => newToken.length ≤ 65535
  | ack nextExpected ranges => ranges.length ≤ maxSackRanges ∧ Canonical nextExpected.toNat ranges

/-- The variants `decode` has an arm for. -/
def hasArm : ControlMessage → Bool
  | ping _ | pong _ | disconnect _ | ack _ _ => true
  | configUpdate _ _ | scoreReport _ _ | sessionMigrate _ => false

/-- Whatever follows it, a tag without an arm is refused. -/
theorem decode_unknown {tag : UInt8} (h : tag ≠ 0x01 ∧ tag ≠ 0x02 ∧ tag ≠ 0x06 ∧ tag ≠ 0x07)
    (rest : Bytes) : decode (tag :: rest)
      = .error (.invalidChunk ("unknown control message type: 0x" ++ hexByte tag)) := by
  obtain ⟨h1, h2, h6, h7⟩ := h
  have h0 : ¬ (tag :: rest).length = 0 := Nat.succ_ne_zero _
  have hhead : (tag :: rest)[0] = tag := rfl
  simp only [decode, dif_neg h0, hhead, if_neg h1, if_neg h2, if_neg h6, if_neg h7]

/-- Of the messages that fit, `decode` reads back those it has an arm for. -/
theorem decode_encode_iff {m : ControlMessage} (h : m.Fits) :
    decode m.encode = .ok m ↔ m.hasArm = true := by
  cases m with
  | ping timestamp => exact iff_of_true (decode_encode_ping timestamp) rfl
  | pong timestamp => exact iff_of_true (decode_encode_pong timestamp) rfl
  | disconnect reason => exact iff_of_true (decode_encode_disconnect reason) rfl
  | ack nextExpected ranges => exact iff_of_true (decode_encode_ack h.1 h.2) rfl
  | configUpdate configHash url =>
      refine iff_of_false ?_ Bool.false_ne_true
      rw [encode, decode_unknown (by decide)]
      exact fun h => nomatch h
  | scoreReport nodeId score =>
      refine iff_of_false ?_ Bool.false_ne_true
      rw [encode, decode_unknown (by decide)]
      exact fun h => nomatch h
  | sessionMigrate newToken =>
      refine iff_of_false ?_ Bool.false_ne_true
      rw [encode, decode_unknown (by decide)]
      exact fun h => nomatch h

theorem decode_encode_iff_ack :
    decode (ack 5 [⟨7, 9⟩]).encode = .ok (ack 5 [⟨7, 9⟩]) ↔ (ack 5 [⟨7, 9⟩]).hasArm = true :=
  decode_encode_iff ⟨by decide, by simp only [Canonical]; decide⟩

/-- A migration message that fits and is not read back. -/
theorem decode_encode_sessionMigrate :
    (sessionMigrate [0xAB]).Fits
      ∧ decode (sessionMigrate [0xAB]).encode ≠ .ok (sessionMigrate [0xAB]) := by
  refine ⟨?_, ?_⟩
  · show 1 ≤ 65535
    decide
  · decide

end ControlMessage

end Kanrin
