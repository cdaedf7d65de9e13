import Kanrin.Lib.Prefixed

/-!
# The search for the server name

`find_sni_offset` of `kanrin-stealth/src/fragment.rs`, and the ClientHello as
TLS lays it out: a record, in it a handshake message, in it a block of
extensions, each behind its length.

The search follows the lengths of the vectors before the block. It reads the
type of the record, whose bytes have to be there, but not the type of the
message, and it does not stop where the record, the message or the block ends.
So it finds every server name there is (`find_of_sniAt`), and it finds no
other exactly if what it comes to is enclosed (`finds_iff`).
-/

namespace Kanrin

open Lib

namespace FragmentModule

/-! ## The search -/

/-- `u16::from_be_bytes([data[i], data[i + 1]])`. -/
def u16At? (data : Bytes) (i : Nat) : Option Nat :=
  (bytes? 2 data [i, i + 1]).map fun b => (u16FromBe b).toNat

def walkExtensions (data : Bytes) (pos : Nat) : Option (Option Nat) :=
  if pos + 4 ≤ data.length then
    (u16At? data pos).bind fun extType =>
      (u16At? data (pos + 2)).bind fun extLen =>
        if extType = 0x0000 then some (some pos)
        else walkExtensions data (pos + (4 + extLen))
  else some none
termination_by data.length - pos

/-- `none` is a panic. -/
def findSniOffset (data : Bytes) : Option (Option Nat) :=
  if data.length < 5 then some none
  else
    data[0]?.bind fun recordType =>
      if recordType ≠ 0x16 then some none
      else
        (u16At? data 3).bind fun recordLen =>
          if data.length < 5 + recordLen then some none
          else if data.length < 43 then some none
          else
            let pos := 43
            if pos ≥ data.length then some none
            else
              data[pos]?.bind fun sessionIdLen =>
                let pos := pos + (1 + sessionIdLen.toNat)
                if pos + 2 > data.length then some none
                else
                  (u16At? data pos).bind fun cipherSuitesLen =>
                    let pos := pos + (2 + cipherSuitesLen)
                    if pos ≥ data.length then some none
                    else
                      data[pos]?.bind fun compMethodsLen =>
                        let pos := pos + (1 + compMethodsLen.toNat)
                        if pos + 2 > data.length then some none
                        else
                          (u16At? data pos).bind fun _extensionsLen =>
                            walkExtensions data (pos + 2)

/-! ## The ClientHello -/

structure Extension where
  type : UInt16
  data : Bytes
  fits : data.length < 256 ^ 2

def Extension.encode (e : Extension) : Bytes := beBytes 2 e.type.toNat ++ vec 2 e.data

structure ClientHello where
  version : ByteArr 2
  random : ByteArr 32
  sessionId : Bytes
  cipherSuites : Bytes
  compressionMethods : Bytes
  extensions : Bytes
  fitsSessionId : sessionId.length < 256 ^ 1
  fitsCipherSuites : cipherSuites.length < 256 ^ 2
  fitsCompressionMethods : compressionMethods.length < 256 ^ 1
  fitsExtensions : extensions.length < 256 ^ 2

def ClientHello.encode (h : ClientHello) : Bytes :=
  h.version.toList ++ (h.random.toList ++ (vec 1 h.sessionId ++ (vec 2 h.cipherSuites
    ++ (vec 1 h.compressionMethods ++ vec 2 h.extensions))))

/-- The bytes begin with a complete handshake record, and this with the message. -/
def StartsWith (data : Bytes) (hello : ClientHello) : Prop :=
  ∃ (version : ByteArr 2) (more rest : Bytes),
    (beBytes 1 0x01 ++ (vec 3 hello.encode ++ more)).length < 256 ^ 2
      ∧ data = beBytes 1 0x16
        ++ (version.toList ++ (vec 2 (beBytes 1 0x01 ++ (vec 3 hello.encode ++ more)) ++ rest))

/-- Where the extensions begin in the bytes. -/
def ClientHello.extensionsOffset (h : ClientHello) : Nat :=
  5 + 4 + 2 + 32 + (1 + h.sessionId.length) + (2 + h.cipherSuites.length)
    + (1 + h.compressionMethods.length) + 2

/-- The first extension of type 0 of a block is at the offset. -/
def FirstSni (block : Bytes) (offset : Nat) : Prop :=
  ∃ (before : List Extension) (sni : Extension) (after : Bytes),
    block = before.flatMap Extension.encode ++ (sni.encode ++ after)
      ∧ (∀ e ∈ before, e.type ≠ 0) ∧ sni.type = 0
      ∧ offset = (before.flatMap Extension.encode).length

def SniAt (data : Bytes) (pos : Nat) : Prop :=
  ∃ hello offset, StartsWith data hello ∧ FirstSni hello.extensions offset
    ∧ pos = hello.extensionsOffset + offset

/-- The search ends, reads nothing that is not there, and finds the server name
where there is one and nothing elsewhere. -/
def Finds (data : Bytes) : Prop :=
  ∃ found, findSniOffset data = some found ∧ ∀ pos, found = some pos ↔ SniAt data pos

/-! ## Following the lengths -/

section Lengths

variable (data : Bytes)

def cipherSuitesAt : Nat := 44 + numAt 1 data 43

def compressionMethodsAt : Nat := cipherSuitesAt data + 2 + numAt 2 data (cipherSuitesAt data)

def extensionsAt : Nat :=
  compressionMethodsAt data + 1 + numAt 1 data (compressionMethodsAt data)

def firstExtension : Nat := extensionsAt data + 2

def extensionsEnd : Nat := firstExtension data + numAt 2 data (extensionsAt data)

def helloEnd : Nat := 9 + numAt 3 data 6

def recordEnd : Nat := 5 + numAt 2 data 3

/-- From one header to another by the lengths of the extensions, none of type 0. -/
inductive Leads : Nat → Nat → Prop where
  | here (pos : Nat) : Leads pos pos
  | next {pos target : Nat} (hheader : pos + 4 ≤ data.length) (htype : numAt 2 data pos ≠ 0)
      (hrest : Leads (pos + 4 + numAt 2 data (pos + 2)) target) : Leads pos target

/-- In a complete handshake record, or behind it, the lengths lead to a header of type 0. -/
structure ComesTo (pos : Nat) : Prop where
  handshake : numAt 1 data 0 = 0x16
  complete : recordEnd data ≤ data.length
  leads : Leads data (firstExtension data) pos
  header : pos + 4 ≤ data.length
  type : numAt 2 data pos = 0

/-- The extension is in the block, the block is the end of a ClientHello, and
this is in the record. -/
structure Enclosed (pos : Nat) : Prop where
  clientHello : numAt 1 data 5 = 0x01
  extension : pos + 4 + numAt 2 data (pos + 2) ≤ extensionsEnd data
  block : extensionsEnd data = helloEnd data
  message : helloEnd data ≤ recordEnd data

end Lengths

variable {data : Bytes} {pos target : Nat}

theorem Leads.le (h : Leads data pos target) : pos ≤ target := by
  induction h with
  | here pos => exact le_rfl
  | next _ _ _ ih => omega

theorem ComesTo.first_le (h : ComesTo data pos) : firstExtension data + 4 ≤ data.length := by
  have hle := h.leads.le
  have hheader := h.header
  omega

/-! ## What the search comes to -/

theorem u16At?_eq {i : Nat} (h : i + 2 ≤ data.length) : u16At? data i = some (numAt 2 data i) := by
  have hindices : [i, i + 1] = List.range' i 2 := rfl
  rw [u16At?, bytes?_eq i hindices h, Option.map_some, toNat_u16FromBe_slice]

theorem getElem?_eq_numAt (data : Bytes) (i : Nat) (h : i < data.length) :
    ∃ b : UInt8, data[i]? = some b ∧ b.toNat = numAt 1 data i := by
  obtain ⟨b, hb⟩ : ∃ b, data[i]? = some b := ⟨_, List.getElem?_eq_getElem h⟩
  exact ⟨b, hb, (numAt_one hb).symm⟩

theorem walkExtensions_spec (data : Bytes) (start : Nat) :
    ∃ found, walkExtensions data start = some found ∧ ∀ pos, found = some pos
      ↔ Leads data start pos ∧ pos + 4 ≤ data.length ∧ numAt 2 data pos = 0 := by
  induction start using walkExtensions.induct data with
  | case1 start hheader ih =>
      rw [walkExtensions, if_pos hheader, u16At?_eq (by omega), u16At?_eq (by omega),
        Option.bind_some, Option.bind_some]
      by_cases htype : numAt 2 data start = 0
      · rw [if_pos htype]
        refine ⟨_, rfl, fun pos => ?_⟩
        rw [Option.some.injEq]
        constructor
        · rintro rfl
          exact ⟨.here start, hheader, htype⟩
        · rintro ⟨hleads, -, -⟩
          cases hleads with
          | here => rfl
          | next _ hother _ => exact absurd htype hother
      · rw [if_neg htype, ← Nat.add_assoc]
        obtain ⟨found, hfound, hiff⟩ := ih (numAt 2 data (start + 2))
        rw [← Nat.add_assoc] at hfound hiff
        refine ⟨found, hfound, fun pos => (hiff pos).trans ?_⟩
        constructor
        · exact fun h => ⟨.next hheader htype h.1, h.2⟩
        · rintro ⟨hleads, hend, hsni⟩
          cases hleads with
          | here => exact absurd hsni htype
          | next _ _ hrest => exact ⟨hrest, hend, hsni⟩
  | case2 start hshort =>
      rw [walkExtensions, if_neg hshort]
      refine ⟨none, rfl, fun pos => iff_of_false (fun h => nomatch h) ?_⟩
      rintro ⟨hleads, hend, -⟩
      have hle := hleads.le
      omega

theorem comesTo_iff_of_handshake (htype : numAt 1 data 0 = 0x16)
    (hrecord : recordEnd data ≤ data.length) :
    ComesTo data pos ↔ Leads data (firstExtension data) pos ∧ pos + 4 ≤ data.length
      ∧ numAt 2 data pos = 0 :=
  ⟨fun h => ⟨h.leads, h.header, h.type⟩, fun h => ⟨htype, hrecord, h.1, h.2.1, h.2.2⟩⟩

/-- The search ends, and comes to where the lengths lead. -/
theorem findSniOffset_spec (data : Bytes) :
    ∃ found, findSniOffset data = some found ∧ ∀ pos, found = some pos ↔ ComesTo data pos := by
  have hnone : (∀ pos, ¬ ComesTo data pos) → ∃ found, some none = some found
      ∧ ∀ pos, found = some pos ↔ ComesTo data pos :=
    fun h => ⟨none, rfl, fun pos => iff_of_false (fun h => nomatch h) (h pos)⟩
  -- what the checks ask for is what there is room for up to the first extension
  have hshort : data.length < firstExtension data + 4 → ∀ pos, ¬ ComesTo data pos :=
    fun hlt pos h => absurd h.first_le (not_le.mpr hlt)
  have hfirst : firstExtension data = cipherSuitesAt data + 2 + numAt 2 data (cipherSuitesAt data)
    + 1 + numAt 1 data (compressionMethodsAt data) + 2 := rfl
  have hcipher : cipherSuitesAt data = 43 + (1 + numAt 1 data 43) := by
    rw [cipherSuitesAt]
    omega
  unfold findSniOffset
  by_cases hlen5 : data.length < 5
  · rw [if_pos hlen5]
    exact hnone (hshort (by omega))
  obtain ⟨recordType, hrecordType, hnum0⟩ := getElem?_eq_numAt data 0 (by omega)
  rw [if_neg hlen5, hrecordType, Option.bind_some]
  by_cases htype : recordType ≠ 0x16
  · rw [if_pos htype]
    refine hnone fun pos h => htype (UInt8.toNat_inj.mp ?_)
    exact hnum0.trans h.handshake
  rw [if_neg htype, u16At?_eq (by omega), Option.bind_some]
  have hhandshake : numAt 1 data 0 = 0x16 := hnum0.symm.trans (congrArg _ (not_not.mp htype))
  by_cases hrecord : data.length < 5 + numAt 2 data 3
  · rw [if_pos hrecord]
    exact hnone fun pos h => absurd h.complete (not_le.mpr hrecord)
  rw [if_neg hrecord]
  by_cases hlen43 : data.length < 43
  · rw [if_pos hlen43]
    exact hnone (hshort (by omega))
  rw [if_neg hlen43]
  dsimp only
  by_cases hsession : 43 ≥ data.length
  · rw [if_pos hsession]
    exact hnone (hshort (by omega))
  obtain ⟨sessionIdLen, hsessionIdLen, hnum43⟩ := getElem?_eq_numAt data 43 (by omega)
  rw [if_neg hsession, hsessionIdLen, Option.bind_some, hnum43, ← hcipher]
  by_cases hcipherSuites : cipherSuitesAt data + 2 > data.length
  · rw [if_pos hcipherSuites]
    exact hnone (hshort (by omega))
  have hcompression : cipherSuitesAt data + (2 + numAt 2 data (cipherSuitesAt data))
      = compressionMethodsAt data := (Nat.add_assoc ..).symm
  rw [if_neg hcipherSuites, u16At?_eq (by omega), Option.bind_some, hcompression]
  by_cases hmethods : compressionMethodsAt data ≥ data.length
  · rw [if_pos hmethods]
    exact hnone (hshort (by omega))
  obtain ⟨compMethodsLen, hcompMethodsLen, hnum⟩ :=
    getElem?_eq_numAt data (compressionMethodsAt data) (by omega)
  have hextensions : compressionMethodsAt data + (1 + numAt 1 data (compressionMethodsAt data))
      = extensionsAt data := (Nat.add_assoc ..).symm
  rw [if_neg hmethods, hcompMethodsLen, Option.bind_some, hnum, hextensions]
  by_cases hblock : extensionsAt data + 2 > data.length
  · rw [if_pos hblock]
    have hat : firstExtension data = extensionsAt data + 2 := rfl
    exact hnone (hshort (by omega))
  rw [if_neg hblock, u16At?_eq (by omega), Option.bind_some]
  obtain ⟨found, hfound, hiff⟩ := walkExtensions_spec data (extensionsAt data + 2)
  refine ⟨found, hfound, fun pos => (hiff pos).trans ?_⟩
  exact (comesTo_iff_of_handshake hhandshake (not_lt.mp hrecord)).symm

/-! ## Extensions, as they are laid out and as they are stepped over -/

theorem Extension.length_encode (e : Extension) : e.encode.length = 4 + e.data.length := by
  rw [encode, List.length_append, length_beBytes, length_vec]
  omega

/-- What is read of an extension that is there. -/
theorem numAt_of_drop_extension {e : Extension} {t : Bytes} (h : data.drop pos = e.encode ++ t) :
    numAt 2 data pos = e.type.toNat ∧ numAt 2 data (pos + 2) = e.data.length
      ∧ data.drop (pos + 4 + e.data.length) = t ∧ pos + 4 + e.data.length ≤ data.length := by
  have hne : e.encode ≠ [] := by
    intro hnil
    have hlen := e.length_encode
    rw [hnil, List.length_nil] at hlen
    omega
  have hend := add_length_le_of_drop h (le_length_of_drop h hne)
  rw [e.length_encode] at hend
  rw [Extension.encode, List.append_assoc] at h
  have hdata := drop_add_of_drop h (length_beBytes ..)
  have hrest : data.drop (pos + 2 + 2 + e.data.length) = t := drop_add_of_drop_vec hdata
  exact ⟨numAt_of_drop h e.type.toNat_lt, numAt_of_drop_vec hdata e.fits, hrest, by omega⟩

/-- Where the bytes reach as far as its length says there is an extension. -/
theorem exists_extension (data : Bytes) (pos : Nat)
    (h : pos + 4 + numAt 2 data (pos + 2) ≤ data.length) :
    ∃ e : Extension, e.type.toNat = numAt 2 data pos ∧ e.data.length = numAt 2 data (pos + 2)
      ∧ data.drop pos = e.encode ++ data.drop (pos + 4 + numAt 2 data (pos + 2)) := by
  have htype := numAt_lt 2 data pos
  obtain ⟨body, hbody, hdrop⟩ := drop_eq_vec 2 data (pos + 2) (by omega)
  have htoNat : (UInt16.ofNat (numAt 2 data pos)).toNat = numAt 2 data pos := by
    rw [UInt16.toNat_ofNat']
    exact Nat.mod_eq_of_lt htype
  refine ⟨⟨UInt16.ofNat (numAt 2 data pos), body, hbody ▸ numAt_lt 2 data (pos + 2)⟩, htoNat,
    hbody, ?_⟩
  rw [Extension.encode, htoNat, List.append_assoc, ← hdrop]
  exact drop_eq_num 2 data pos (by omega)

theorem leads_of_drop {before : List Extension} {t : Bytes}
    (h : data.drop pos = before.flatMap Extension.encode ++ t)
    (htypes : ∀ e ∈ before, e.type ≠ 0) :
    Leads data pos (pos + (before.flatMap Extension.encode).length) := by
  induction before generalizing pos with
  | nil => exact .here pos
  | cons e before ih =>
      rw [List.flatMap_cons, List.append_assoc] at h
      obtain ⟨htype, hlen, hrest, hend⟩ := numAt_of_drop_extension h
      obtain ⟨hnot, htypes⟩ := List.forall_mem_cons.mp htypes
      refine .next (by omega) (fun hzero => hnot ?_) ?_
      · exact UInt16.toNat_inj.mp (htype.symm.trans hzero)
      · have hleads := ih hrest htypes
        rw [hlen, List.flatMap_cons, List.length_append, e.length_encode]
        rw [show pos + (4 + e.data.length + (before.flatMap Extension.encode).length)
          = pos + 4 + e.data.length + (before.flatMap Extension.encode).length by omega]
        exact hleads

theorem Leads.exists_before (h : Leads data pos target) (hend : target ≤ data.length) :
    ∃ before : List Extension, (∀ e ∈ before, e.type ≠ 0)
      ∧ data.drop pos = before.flatMap Extension.encode ++ data.drop target
      ∧ target = pos + (before.flatMap Extension.encode).length := by
  induction h with
  | here pos => exact ⟨[], fun e he => absurd he List.not_mem_nil, rfl, rfl⟩
  | next hheader htype hrest ih =>
      obtain ⟨before, htypes, hdrop, htarget⟩ := ih hend
      have hle := hrest.le
      obtain ⟨e, he, hlen, hext⟩ := exists_extension data _ (hle.trans hend)
      refine ⟨e :: before, List.forall_mem_cons.mpr ⟨fun hzero => htype ?_, htypes⟩, ?_, ?_⟩
      · rw [← he, hzero]
        rfl
      · rw [List.flatMap_cons, List.append_assoc, ← hdrop, ← hext]
      · rw [List.flatMap_cons, List.length_append, e.length_encode]
        omega

/-! ## The ClientHello, as it is laid out and as it is stepped through -/

theorem ClientHello.length_encode (hello : ClientHello) :
    9 + hello.encode.length = hello.extensionsOffset + hello.extensions.length := by
  simp only [encode, List.length_append, length_vec, List.Vector.toList_length, extensionsOffset]
  omega

/-- What is read of a ClientHello that is there. -/
structure LaidOut (data : Bytes) (hello : ClientHello) : Prop where
  handshake : numAt 1 data 0 = 0x16
  clientHello : numAt 1 data 5 = 0x01
  first : firstExtension data = hello.extensionsOffset
  blockLength : numAt 2 data (extensionsAt data) = hello.extensions.length
  block : ∃ t, data.drop (firstExtension data) = hello.extensions ++ t
  message : extensionsEnd data = helloEnd data
  record : helloEnd data ≤ recordEnd data
  complete : recordEnd data ≤ data.length

/-- What is read of the body of a ClientHello that is there. -/
theorem ClientHello.first_of_drop {hello : ClientHello} {t : Bytes}
    (h : data.drop 9 = hello.encode ++ t) :
    firstExtension data = hello.extensionsOffset
      ∧ numAt 2 data (extensionsAt data) = hello.extensions.length
      ∧ data.drop (firstExtension data) = hello.extensions ++ t := by
  rw [ClientHello.encode] at h
  simp only [List.append_assoc] at h
  have h11 : data.drop 11 = _ := drop_add_of_drop h hello.version.toList_length
  have h43 : data.drop 43 = _ := drop_add_of_drop h11 hello.random.toList_length
  have hcipherSuites : cipherSuitesAt data = 43 + 1 + hello.sessionId.length := by
    rw [cipherSuitesAt, numAt_of_drop_vec h43 hello.fitsSessionId]
  have hcs : data.drop (cipherSuitesAt data) = _ := hcipherSuites ▸ drop_add_of_drop_vec h43
  have hcompression : compressionMethodsAt data
      = cipherSuitesAt data + 2 + hello.cipherSuites.length := by
    rw [compressionMethodsAt, numAt_of_drop_vec hcs hello.fitsCipherSuites]
  have hcm : data.drop (compressionMethodsAt data) = _ := hcompression ▸ drop_add_of_drop_vec hcs
  have hextensions : extensionsAt data
      = compressionMethodsAt data + 1 + hello.compressionMethods.length := by
    rw [extensionsAt, numAt_of_drop_vec hcm hello.fitsCompressionMethods]
  have hext : data.drop (extensionsAt data) = _ := hextensions ▸ drop_add_of_drop_vec hcm
  refine ⟨?_, numAt_of_drop_vec hext hello.fitsExtensions, drop_body_of_drop_vec hext⟩
  rw [firstExtension, hextensions, hcompression, hcipherSuites, ClientHello.extensionsOffset]
  omega

theorem StartsWith.laidOut {hello : ClientHello} (h : StartsWith data hello) :
    LaidOut data hello := by
  obtain ⟨version, more, rest, hfits, hdata⟩ := h
  have hencode := hello.length_encode
  have hlens : (beBytes 1 0x01 ++ (vec 3 hello.encode ++ more)).length
      = 1 + (3 + hello.encode.length + more.length) := by
    rw [List.length_append, List.length_append, length_beBytes, length_vec]
  rw [hlens] at hfits
  have h0 : data.drop 0 = _ := hdata
  have h1 : data.drop 1 = _ := drop_add_of_drop h0 (length_beBytes ..)
  have h3 : data.drop 3 = _ := drop_add_of_drop h1 version.toList_length
  have h5 : data.drop 5 = _ := drop_body_of_drop_vec h3
  rw [List.append_assoc, List.append_assoc] at h5
  have h6 : data.drop 6 = _ := drop_add_of_drop h5 (length_beBytes ..)
  obtain ⟨hfirst, hblock, hdrop⟩ := ClientHello.first_of_drop (drop_body_of_drop_vec h6)
  have hhello : helloEnd data = 9 + hello.encode.length := by
    rw [helloEnd, numAt_of_drop_vec h6 (by omega)]
  have hrecord : recordEnd data = 5 + (1 + (3 + hello.encode.length + more.length)) := by
    rw [recordEnd, numAt_of_drop_vec h3 (hlens ▸ hfits), hlens]
  refine ⟨numAt_of_drop h0 (by omega), numAt_of_drop h5 (by omega), hfirst, hblock,
    ⟨_, hdrop⟩, ?_, by omega, ?_⟩
  · rw [extensionsEnd, hfirst, hblock, hhello, hencode]
  · have hlength := congrArg List.length h0
    simp only [List.drop_zero, List.length_append, length_beBytes, length_vec,
      List.Vector.toList_length] at hlength
    omega

/-- Where there are as many bytes as the lengths say there is the body of a
ClientHello. -/
theorem exists_hello (hend : extensionsEnd data ≤ data.length) :
    ∃ hello : ClientHello, 9 + hello.encode.length = extensionsEnd data
      ∧ data.drop 9 = hello.encode ++ data.drop (extensionsEnd data) := by
  have hextensionsEnd : extensionsEnd data
    = extensionsAt data + 2 + numAt 2 data (extensionsAt data) := rfl
  have hextensionsAt : extensionsAt data
    = compressionMethodsAt data + 1 + numAt 1 data (compressionMethodsAt data) := rfl
  have hcompression : compressionMethodsAt data
    = cipherSuitesAt data + 2 + numAt 2 data (cipherSuitesAt data) := rfl
  have hcipher : cipherSuitesAt data = 43 + 1 + numAt 1 data 43 := rfl
  obtain ⟨sessionId, hsessionId, h43⟩ := drop_eq_vec 1 data 43 (by omega)
  obtain ⟨cipherSuites, hcipherSuites, hcs⟩ :=
    drop_eq_vec 2 data (cipherSuitesAt data) (by omega)
  obtain ⟨methods, hmethods, hcm⟩ :=
    drop_eq_vec 1 data (compressionMethodsAt data) (by omega)
  obtain ⟨extensions, hblock, hext⟩ :=
    drop_eq_vec 2 data (extensionsAt data) (by omega)
  rw [← hcipher] at h43
  rw [← hcompression] at hcs
  rw [← hextensionsAt] at hcm
  rw [← hextensionsEnd] at hext
  let hello : ClientHello :=
    { version := slice data 9 2
      random := slice data 11 32
      sessionId
      cipherSuites
      compressionMethods := methods
      extensions
      fitsSessionId := hsessionId ▸ numAt_lt ..
      fitsCipherSuites := hcipherSuites ▸ numAt_lt ..
      fitsCompressionMethods := hmethods ▸ numAt_lt ..
      fitsExtensions := hblock ▸ numAt_lt .. }
  have hlength : 9 + hello.encode.length = extensionsEnd data := by
    rw [hello.length_encode]
    simp only [ClientHello.extensionsOffset, hello]
    omega
  refine ⟨hello, hlength, ?_⟩
  have h9 := drop_eq_take data 9 2
  have h11 := drop_eq_take data 11 32
  rw [ClientHello.encode]
  simp only [List.append_assoc, hello, toList_slice]
  rw [← hext, ← hcm, ← hcs, ← h43, ← h11, ← h9]

/-- Where what is read fits together there is a ClientHello. -/
theorem exists_startsWith (hhandshake : numAt 1 data 0 = 0x16) (hhello : numAt 1 data 5 = 0x01)
    (hmessage : extensionsEnd data = helloEnd data) (hrecord : helloEnd data ≤ recordEnd data)
    (hcomplete : recordEnd data ≤ data.length) :
    ∃ hello, StartsWith data hello := by
  have hhelloEnd : helloEnd data = 9 + numAt 3 data 6 := rfl
  have hrecordEnd : recordEnd data = 5 + numAt 2 data 3 := rfl
  obtain ⟨hello, hlength, hbody⟩ := @exists_hello data (by omega)
  rw [hmessage] at hlength hbody
  have hencode : hello.encode.length = numAt 3 data 6 := by omega
  -- from the end of the message back to the front
  have hmore : data.drop (helloEnd data)
      = (data.drop (helloEnd data)).take (recordEnd data - helloEnd data)
        ++ data.drop (recordEnd data) := by
    have hsplit := drop_eq_take data (helloEnd data) (recordEnd data - helloEnd data)
    rwa [Nat.add_sub_cancel' hrecord] at hsplit
  have hfragment : beBytes 1 0x01 ++ (vec 3 hello.encode
      ++ (data.drop (helloEnd data)).take (recordEnd data - helloEnd data))
        ++ data.drop (recordEnd data) = data.drop 5 := by
    have h5 := drop_eq_num 1 data 5 (by omega)
    have h6 := drop_eq_num 3 data 6 (by omega)
    rw [hhello] at h5
    rw [vec, hencode]
    simp only [List.append_assoc]
    rw [← hmore, ← hbody, ← h6, ← h5]
  have hfragmentLength : (beBytes 1 0x01 ++ (vec 3 hello.encode
      ++ (data.drop (helloEnd data)).take (recordEnd data - helloEnd data))).length
        = numAt 2 data 3 := by
    have hlen := congrArg List.length hfragment
    rw [List.length_append, List.length_drop, List.length_drop] at hlen
    omega
  refine ⟨hello, slice data 1 2, (data.drop (helloEnd data)).take (recordEnd data - helloEnd data),
    data.drop (recordEnd data), hfragmentLength ▸ numAt_lt .., ?_⟩
  have h0 := drop_eq_num 1 data 0 (by omega)
  have h1 := drop_eq_take data 1 2
  have h3 := drop_eq_num 2 data 3 (by omega)
  rw [List.drop_zero, hhandshake] at h0
  rw [vec, hfragmentLength, List.append_assoc, hfragment, ← h3, toList_slice, ← h1, ← h0]

/-! ## When the search finds the server name and nothing else -/

theorem sniAt_iff : SniAt data pos ↔ ComesTo data pos ∧ Enclosed data pos := by
  constructor
  · rintro ⟨hello, offset, hstarts, ⟨before, sni, after, hblock, htypes, hsni, rfl⟩, rfl⟩
    have hlaid := hstarts.laidOut
    obtain ⟨t, hdrop⟩ := hlaid.block
    rw [hblock, List.append_assoc, List.append_assoc] at hdrop
    have hleads := leads_of_drop hdrop htypes
    obtain ⟨htype, hlen, -, hend⟩ := numAt_of_drop_extension (drop_add_of_drop hdrop rfl)
    have hlength := congrArg List.length hblock
    rw [List.length_append, List.length_append, sni.length_encode, ← hlaid.blockLength] at hlength
    rw [← hlaid.first]
    refine ⟨⟨hlaid.handshake, hlaid.complete, hleads, by omega, ?_⟩,
      hlaid.clientHello, ?_, hlaid.message, hlaid.record⟩
    · rw [htype, hsni]
      rfl
    · rw [hlen, extensionsEnd]
      omega
  · rintro ⟨hcomes, henclosed⟩
    have hcomplete := hcomes.complete
    have hextension := henclosed.extension
    have hmessage := henclosed.block
    have hrecord := henclosed.message
    obtain ⟨hello, hstarts⟩ := exists_startsWith hcomes.handshake henclosed.clientHello hmessage
      hrecord hcomplete
    have hlaid := hstarts.laidOut
    obtain ⟨t, hdrop⟩ := hlaid.block
    have hheader := hcomes.header
    obtain ⟨before, htypes, hbefore, hpos⟩ := hcomes.leads.exists_before (by omega)
    obtain ⟨sni, htype, hlen, hsni⟩ := exists_extension data pos (by omega)
    -- the two ways to split the bytes from the first extension on
    have hprefix : before.flatMap Extension.encode ++ sni.encode <+: hello.extensions := by
      have hstepped : before.flatMap Extension.encode ++ sni.encode
          <+: data.drop (firstExtension data) := by
        rw [hbefore, hsni, ← List.append_assoc]
        exact List.prefix_append ..
      have hdeclared : hello.extensions <+: data.drop (firstExtension data) := by
        rw [hdrop]
        exact List.prefix_append ..
      refine List.prefix_of_prefix_length_le hstepped hdeclared ?_
      rw [List.length_append, sni.length_encode, ← hlaid.blockLength, hlen]
      rw [extensionsEnd] at hextension
      omega
    obtain ⟨after, hafter⟩ := hprefix
    refine ⟨hello, _, hstarts, ⟨before, sni, after, ?_, htypes, ?_, rfl⟩, ?_⟩
    · rw [← hafter, List.append_assoc]
    · exact UInt16.toNat_inj.mp (htype.trans hcomes.type)
    · rw [hpos, hlaid.first]

/-- A server name that is there is found. -/
theorem find_of_sniAt (h : SniAt data pos) : findSniOffset data = some (some pos) := by
  obtain ⟨found, hfound, hiff⟩ := findSniOffset_spec data
  rw [hfound, (hiff pos).mpr (sniAt_iff.mp h).1]

/-- The server name and nothing else is found exactly if what the lengths
lead to is enclosed in a ClientHello. -/
theorem finds_iff (data : Bytes) : Finds data ↔ ∀ pos, ComesTo data pos → Enclosed data pos := by
  obtain ⟨found, hfound, hiff⟩ := findSniOffset_spec data
  constructor
  · rintro ⟨found', hfound', hsni⟩ pos hcomes
    obtain rfl := Option.some.inj (hfound.symm.trans hfound')
    exact (sniAt_iff.mp ((hsni pos).mp ((hiff pos).mpr hcomes))).2
  · intro henclosed
    refine ⟨found, hfound, fun pos => (hiff pos).trans ?_⟩
    rw [sniAt_iff]
    exact ⟨fun hcomes => ⟨hcomes, henclosed pos hcomes⟩, fun h => h.1⟩

/-- A ClientHello without extensions in a record, and four bytes behind the record. -/
def bytesBehind : Bytes :=
  [0x16, 0x03, 0x01, 0x00, 0x2C, 0x01, 0x00, 0x00, 0x28, 0x03, 0x03]
    ++ (List.replicate 32 0x5A ++ ([0x00, 0x00, 0x00, 0x00, 0x00, 0x00] ++ List.replicate 4 0x00))

theorem comesTo_bytesBehind : ComesTo bytesBehind 49 where
  handshake := by decide
  complete := by decide
  leads := (by decide : firstExtension bytesBehind = 49) ▸ .here 49
  header := by decide
  type := by decide

theorem not_finds : ¬ Finds bytesBehind := by
  rintro ⟨found, hfound, hsni⟩
  obtain ⟨found', hfound', hiff⟩ := findSniOffset_spec bytesBehind
  obtain rfl := Option.some.inj (hfound.symm.trans hfound')
  have henclosed := (sniAt_iff.mp ((hsni 49).mp ((hiff 49).mpr comesTo_bytesBehind))).2
  exact absurd henclosed.extension (by decide)

end FragmentModule

end Kanrin
