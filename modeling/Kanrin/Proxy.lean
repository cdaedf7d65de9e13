import Kanrin.Lib.Text
import Kanrin.Wire

/-!
# Proxy requests

`ProxyRequest` in `kanrin-protocol/src/wire.rs`. The address of a request
comes after its length in one byte, so where the rest is read depends on
it; the payload of a datagram has a length of its own after that.

The encoder narrows both lengths without looking at them. A request comes
back exactly when they fit (`destination_kept_iff`): a longer address is
never read back, for what is read of it is at most its first 255 bytes.
-/

namespace Kanrin

open Lib

inductive ProxyRequest where
  | tcpConnect (address : String) (port : UInt16)
  | udpDatagram (sessionId : UInt32) (address : String) (port : UInt16) (data : Bytes)
  | dnsQuery (id : UInt16) (query : Bytes)
deriving DecidableEq

namespace ProxyRequest

def encode : ProxyRequest → Bytes
  | tcpConnect address port =>
      0x01 :: UInt8.ofNat (asBytes address).length :: (asBytes address ++ (u16ToBe port).toList)
  | udpDatagram sessionId address port data =>
      0x02 :: ((u32ToBe sessionId).toList ++ UInt8.ofNat (asBytes address).length ::
        (asBytes address ++ ((u16ToBe port).toList
          ++ ((u16ToBe (UInt16.ofNat data.length)).toList ++ data))))
  | dnsQuery id query =>
      0x03 :: ((u16ToBe id).toList ++ ((u16ToBe (UInt16.ofNat query.length)).toList ++ query))

def decode (data : Bytes) : Result ProxyRequest :=
  if h0 : data.length = 0 then .error (.invalidChunk "empty proxy request")
  else if getElem data 0 (length_pos_of_ne_zero h0) = 0x01 then
    if h : data.length < 4 then .error (.bufferTooShort 4 data.length)
    else
      let addrLen := data[1].toNat
      if h2 : data.length < 2 + addrLen + 2 then
        .error (.bufferTooShort (2 + addrLen + 2) data.length)
      else
        .ok (.tcpConnect (fromUtf8Lossy ((data.drop 2).take addrLen))
          (u16FromBe (slice data (2 + addrLen) 2)))
  else if getElem data 0 (length_pos_of_ne_zero h0) = 0x02 then
    if h : data.length < 8 then .error (.bufferTooShort 8 data.length)
    else
      let sessionId := u32FromBe (slice data 1 4)
      let addrLen := data[5].toNat
      let offset := 6 + addrLen
      if h2 : data.length < offset + 4 then .error (.bufferTooShort (offset + 4) data.length)
      else
        let dataLen := (u16FromBe (slice data (offset + 2) 2)).toNat
        let payloadStart := offset + 4
        if data.length < payloadStart + dataLen then
          .error (.bufferTooShort (payloadStart + dataLen) data.length)
        else
          .ok (.udpDatagram sessionId (fromUtf8Lossy ((data.drop 6).take addrLen))
            (u16FromBe (slice data offset 2)) ((data.drop payloadStart).take dataLen))
  else if getElem data 0 (length_pos_of_ne_zero h0) = 0x03 then
    if h : data.length < 5 then .error (.bufferTooShort 5 data.length)
    else
      let queryLen := (u16FromBe (slice data 3 2)).toNat
      if data.length < 5 + queryLen then .error (.bufferTooShort (5 + queryLen) data.length)
      else .ok (.dnsQuery (u16FromBe (slice data 1 2)) ((data.drop 5).take queryLen))
  else .error (.invalidChunk ("unknown proxy request type: 0x"
    ++ hexByte (getElem data 0 (length_pos_of_ne_zero h0))))

/-! ## Which requests come back -/

/-- The lengths fit their prefixes. -/
def Fits : ProxyRequest → Prop
  | tcpConnect address _ => (asBytes address).length ≤ 255
  | udpDatagram _ address _ data => (asBytes address).length ≤ 255 ∧ data.length ≤ 65535
  | dnsQuery _ query => query.length ≤ 65535

theorem take_length_mod_append {s t : Bytes} (m : Nat) :
    (s ++ t).take (s.length % m) = s.take (s.length % m) :=
  List.take_append_of_le_length (Nat.mod_le ..)

/-- A connection request always decodes, to what the wrapped length says. -/
theorem decode_encode_tcpConnect (address : String) (port : UInt16) :
    ∃ port', decode (tcpConnect address port).encode
        = .ok (tcpConnect (fromUtf8Lossy
          ((asBytes address).take ((asBytes address).length % 256))) port')
      ∧ ((asBytes address).length ≤ 255 → port' = port) := by
  generalize haddr : asBytes address = addr
  have henc : (tcpConnect address port).encode
      = 0x01 :: UInt8.ofNat addr.length :: (addr ++ (u16ToBe port).toList) := by
    rw [encode, haddr]
  have hsplit : (tcpConnect address port).encode
      = (0x01 :: UInt8.ofNat addr.length :: addr) ++ ((u16ToBe port).toList ++ []) := by
    rw [henc, List.append_nil]
    rfl
  have hlen : (tcpConnect address port).encode.length = 2 + addr.length + 2 := by
    rw [hsplit]
    simp only [List.length_append, List.length_cons, List.Vector.toList_length, List.length_nil]
    omega
  have hmod := Nat.mod_le addr.length 256
  have hcount : (UInt8.ofNat addr.length).toNat = addr.length % 256 := UInt8.toNat_ofNat'
  have hdrop : ((tcpConnect address port).encode.drop 2).take (addr.length % 256)
      = addr.take (addr.length % 256) := by
    rw [henc]
    exact take_length_mod_append 256
  refine ⟨u16FromBe (slice (tcpConnect address port).encode (2 + addr.length % 256) 2), ?_, ?_⟩
  · have h0 : ¬ (tcpConnect address port).encode.length = 0 := by omega
    have h4 : ¬ (tcpConnect address port).encode.length < 4 := by omega
    have hbody : ¬ (tcpConnect address port).encode.length < 2 + addr.length % 256 + 2 := by omega
    have htag : (tcpConnect address port).encode[0] = 0x01 := rfl
    have hone : (tcpConnect address port).encode[1] = UInt8.ofNat addr.length := by
      simp only [henc]
      rfl
    simp only [decode, dif_neg h0, htag, dif_neg h4, hone, hcount, dif_neg hbody, hdrop, if_true]
  · intro hfits
    have hpos : (0x01 :: UInt8.ofNat addr.length :: addr).length = 2 + addr.length % 256 := by
      rw [List.length_cons, List.length_cons]
      omega
    rw [slice_of_append hsplit hpos, u16FromBe_toBe]

/-- A datagram decodes, if at all, to an address that the wrapped length
cuts off. -/
theorem address_of_decode_udpDatagram {sessionId : UInt32} {address : String} {port : UInt16}
    {data : Bytes} {r : ProxyRequest}
    (h : decode (udpDatagram sessionId address port data).encode = .ok r) :
    ∃ sessionId' port' data', r = udpDatagram sessionId'
      (fromUtf8Lossy ((asBytes address).take ((asBytes address).length % 256))) port' data' := by
  generalize haddr : asBytes address = addr
  generalize henc : (udpDatagram sessionId address port data).encode = enc at h
  obtain ⟨rest, hsplit⟩ : ∃ rest, enc = (0x02 :: (u32ToBe sessionId).toList)
      ++ UInt8.ofNat addr.length :: (addr ++ rest) := ⟨_, by rw [← henc, encode, haddr]; rfl⟩
  have hlen : enc.length = 6 + addr.length + rest.length := by
    rw [hsplit]
    simp only [List.length_append, List.length_cons, List.Vector.toList_length]
    omega
  have h0 : ¬ enc.length = 0 := by omega
  have htag : enc[0] = 0x02 := by
    simp only [hsplit]
    rfl
  have hnot : ¬ (0x02 : UInt8) = 0x01 := by decide
  simp only [decode, dif_neg h0, htag, if_neg hnot, if_true] at h
  by_cases h8 : enc.length < 8
  · rw [dif_pos h8] at h
    cases h
  rw [dif_neg h8] at h
  have hcount : enc[5].toNat = addr.length % 256 := by
    have hget : enc[5] = UInt8.ofNat addr.length := List.getElem_of_append hsplit (by simp)
    rw [hget]
    exact UInt8.toNat_ofNat'
  have hdrop : (enc.drop 6).take (addr.length % 256) = addr.take (addr.length % 256) := by
    have hsix : enc.drop 6 = addr ++ rest := by
      rw [hsplit, List.append_cons]
      exact List.drop_left' (by simp)
    rw [hsix, take_length_mod_append]
  simp only [hcount] at h
  split at h
  · cases h
  split at h
  · cases h
  · obtain rfl := Except.ok.inj h
    exact ⟨_, _, _, by rw [hdrop]⟩

theorem decode_encode_udpDatagram (sessionId : UInt32) {address : String} (port : UInt16)
    (data : Bytes) (hfits : (asBytes address).length ≤ 255) :
    decode (udpDatagram sessionId address port data).encode
      = .ok (udpDatagram sessionId address port (data.take (data.length % 65536))) := by
  have hread := fromUtf8Lossy_asBytes address
  generalize haddr : asBytes address = addr at hfits hread
  generalize henc : (udpDatagram sessionId address port data).encode = enc
  -- the message cut before the session, the port, the length and the data
  have hsession : enc = [0x02] ++ ((u32ToBe sessionId).toList ++ UInt8.ofNat addr.length ::
      (addr ++ ((u16ToBe port).toList
        ++ ((u16ToBe (UInt16.ofNat data.length)).toList ++ data)))) := by
    rw [← henc, encode, haddr]
    rfl
  have hport : enc = ([0x02] ++ (u32ToBe sessionId).toList ++ UInt8.ofNat addr.length :: addr)
      ++ ((u16ToBe port).toList ++ ((u16ToBe (UInt16.ofNat data.length)).toList ++ data)) := by
    rw [hsession]
    simp only [List.append_assoc, List.cons_append]
  have hlength : enc = ([0x02] ++ (u32ToBe sessionId).toList ++ UInt8.ofNat addr.length :: addr
      ++ (u16ToBe port).toList)
      ++ ((u16ToBe (UInt16.ofNat data.length)).toList ++ data) := by
    rw [hport, ← List.append_assoc]
  have hlen : enc.length = 6 + addr.length + 4 + data.length := by
    rw [hlength]
    simp only [List.length_append, List.length_cons, List.Vector.toList_length, List.length_nil]
    omega
  have hmod := Nat.mod_le data.length 65536
  have htag : enc[0] = 0x02 := by
    simp only [hsession]
    rfl
  have hcount : enc[5].toNat = addr.length := by
    have hsplit : enc = ([0x02] ++ (u32ToBe sessionId).toList) ++ UInt8.ofNat addr.length ::
        (addr ++ ((u16ToBe port).toList
          ++ ((u16ToBe (UInt16.ofNat data.length)).toList ++ data))) := by
      rw [hsession, List.append_assoc]
    have hget : enc[5] = UInt8.ofNat addr.length := List.getElem_of_append hsplit (by simp)
    rw [hget, UInt8.toNat_ofNat']
    omega
  have hs : ∀ h, slice enc 1 4 h = u32ToBe sessionId := slice_of_append hsession rfl
  have hp : ∀ h, slice enc (6 + addr.length) 2 h = u16ToBe port :=
    slice_of_append hport (by simp; omega)
  have hl : ∀ h, slice enc (6 + addr.length + 2) 2 h = u16ToBe (UInt16.ofNat data.length) :=
    slice_of_append hlength (by simp; omega)
  have haddress : (enc.drop 6).take addr.length = addr := by
    rw [hport, List.append_cons, List.append_assoc, List.drop_left' (by simp), List.take_left' rfl]
  have hdata : enc.drop (6 + addr.length + 4) = data := by
    rw [hlength, ← List.append_assoc]
    exact List.drop_left' (by simp; omega)
  have h0 : ¬ enc.length = 0 := by omega
  have h8 : ¬ enc.length < 8 := by omega
  have hfixed : ¬ enc.length < 6 + addr.length + 4 := by omega
  have hbody : ¬ enc.length < 6 + addr.length + 4 + data.length % 65536 := by omega
  have hnot : ¬ (0x02 : UInt8) = 0x01 := by decide
  simp only [decode, dif_neg h0, htag, if_neg hnot, if_true, dif_neg h8, hcount, dif_neg hfixed, hs,
    hp, hl, u16FromBe_toBe, u32FromBe_toBe, UInt16.toNat_ofNat', if_neg hbody, haddress, hdata,
    hread]

theorem decode_encode_dnsQuery (id : UInt16) (query : Bytes) :
    decode (dnsQuery id query).encode = .ok (dnsQuery id (query.take (query.length % 65536))) := by
  generalize henc : (dnsQuery id query).encode = enc
  have hid : enc = [0x03] ++ ((u16ToBe id).toList
      ++ ((u16ToBe (UInt16.ofNat query.length)).toList ++ query)) := by
    rw [← henc, encode]
    rfl
  have hlength : enc = ([0x03] ++ (u16ToBe id).toList)
      ++ ((u16ToBe (UInt16.ofNat query.length)).toList ++ query) := by
    rw [hid, List.append_assoc]
  have hlen : enc.length = 5 + query.length := by
    rw [hlength]
    simp only [List.length_append, List.length_cons, List.Vector.toList_length, List.length_nil]
    omega
  have hmod := Nat.mod_le query.length 65536
  have htag : enc[0] = 0x03 := by
    simp only [hid]
    rfl
  have hi : ∀ h, slice enc 1 2 h = u16ToBe id := slice_of_append hid rfl
  have hl : ∀ h, slice enc 3 2 h = u16ToBe (UInt16.ofNat query.length) :=
    slice_of_append hlength (by simp)
  have hquery : enc.drop 5 = query := by
    rw [hlength, ← List.append_assoc]
    exact List.drop_left' (by simp)
  have h0 : ¬ enc.length = 0 := by omega
  have h5 : ¬ enc.length < 5 := by omega
  have hbody : ¬ enc.length < 5 + query.length % 65536 := by omega
  have hnot1 : ¬ (0x03 : UInt8) = 0x01 := by decide
  have hnot2 : ¬ (0x03 : UInt8) = 0x02 := by decide
  simp only [decode, dif_neg h0, htag, if_neg hnot1, if_neg hnot2, if_true, dif_neg h5, hi, hl,
    u16FromBe_toBe, UInt16.toNat_ofNat', if_neg hbody, hquery]

/-! ## A wrapped length loses the request -/

theorem take_length_mod_eq_iff {s : Bytes} {m : Nat} :
    s.take (s.length % (m + 1)) = s ↔ s.length ≤ m := by
  rw [List.take_eq_self_iff]
  constructor
  · intro h
    have hlt := Nat.mod_lt s.length (by omega : m + 1 > 0)
    omega
  · intro h
    rw [Nat.mod_eq_of_lt (Nat.lt_succ_of_le h)]

/-- What is left of a long address is not that address. -/
theorem fromUtf8Lossy_take_mod_iff {address : String} :
    fromUtf8Lossy ((asBytes address).take ((asBytes address).length % 256)) = address
      ↔ (asBytes address).length ≤ 255 := by
  constructor
  · intro h
    have hle := length_le_of_fromUtf8Lossy_take h
    omega
  · intro h
    rw [take_length_mod_eq_iff.mpr h, fromUtf8Lossy_asBytes]

/-- A request comes back, with its destination and its payload, exactly
when its lengths fit. -/
theorem destination_kept_iff (r : ProxyRequest) : decode r.encode = .ok r ↔ r.Fits := by
  cases r with
  | tcpConnect address port =>
      obtain ⟨port', hread, hport⟩ := decode_encode_tcpConnect address port
      rw [hread, Except.ok.injEq, tcpConnect.injEq, fromUtf8Lossy_take_mod_iff, Fits]
      exact ⟨fun h => h.1, fun h => ⟨h, hport h⟩⟩
  | udpDatagram sessionId address port data =>
      constructor
      · intro h
        obtain ⟨sessionId', port', data', hr⟩ := address_of_decode_udpDatagram h
        obtain ⟨-, haddress, -⟩ := udpDatagram.inj hr
        have hfits := fromUtf8Lossy_take_mod_iff.mp haddress.symm
        rw [decode_encode_udpDatagram sessionId port data hfits] at h
        obtain ⟨-, -, -, hdata⟩ := udpDatagram.inj (Except.ok.inj h)
        exact ⟨hfits, take_length_mod_eq_iff.mp hdata⟩
      · intro h
        rw [decode_encode_udpDatagram sessionId port data h.1, take_length_mod_eq_iff.mpr h.2]
  | dnsQuery id query =>
      rw [decode_encode_dnsQuery, Except.ok.injEq, dnsQuery.injEq, take_length_mod_eq_iff, Fits]
      exact ⟨fun h => h.2, fun h => ⟨rfl, h⟩⟩

/-- A name of 260 bytes: its first four become the host, the next two the
port. -/
theorem decode_encode_long :
    decode (tcpConnect (String.ofList (List.replicate 260 'a')) 443).encode
      = .ok (tcpConnect "aaaa" 0x6161) := by
  have haddr : asBytes (String.ofList (List.replicate 260 'a')) = List.replicate 260 0x61 := by
    rw [asBytes, String.toList_ofList]
    decide +kernel
  rw [encode, haddr]
  decide +kernel

theorem destination_lost : ¬ ∀ r : ProxyRequest, decode r.encode = .ok r := by
  intro h
  have hread := decode_encode_long
  rw [h, Except.ok.injEq, tcpConnect.injEq] at hread
  exact absurd hread.2 (by decide)

end ProxyRequest

end Kanrin
