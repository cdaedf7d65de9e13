import Kanrin.Session

/-!
# Frames delivered in any order

What `test_out_of_order_decrypt` of `kanrin-protocol/src/session.rs` tries
on two frames: the sequence comes from the frame's own header, so the
frames of one side may reach the other in any order, any number of times
or not at all, and each decrypts to what was encrypted.

`encrypt_outgoing` and `decrypt_incoming` change the session in place. That
a refused frame leaves it alone is a fact about them, so they are written
here once more over a session that a failed call could have changed
(`InPlace`).
-/

namespace Kanrin

open Lib

/-! ## The session changed in place -/

namespace Session

abbrev InPlace := ExceptT ProtocolError (StateM Session)

namespace InPlace

variable (P : Primitives)

def encryptOutgoing (chunk : Chunk) (isClient : Bool) (rnd : Rand) : InPlace Bytes := do
  let s ← get
  let key := writeKey s.keys isClient
  let seq := s.sendSeq
  if seq ≥ maxNonce then throw .nonceExhausted
  let encoded ← ExceptT.mk (pure (chunk.encodeSequenced P key seq rnd))
  modify fun s => { s with sendSeq := s.sendSeq + 1 }
  modify fun s => { s with bytesSent := s.bytesSent + UInt64.ofNat encoded.length }
  return encoded

def decryptIncoming (data : Bytes) (isClient : Bool) : InPlace Chunk := do
  let s ← get
  let key := readKey s.keys isClient
  let chunk ← ExceptT.mk (pure (Chunk.decodeSequenced P data key))
  modify fun s => { s with recvCount := s.recvCount + 1 }
  modify fun s => { s with bytesReceived := s.bytesReceived + UInt64.ofNat data.length }
  return chunk

/-- The calls of a list, one after the other, and what each returned. -/
def answers {α β : Type} (call : α → InPlace β) : List α → Session → List (Result β) × Session
  | [], s => ([], s)
  | x :: xs, s =>
      let (answer, s1) := (call x).run.run s
      let (rest, s2) := answers call xs s1
      (answer :: rest, s2)

variable {P}

theorem run_get_bind {α : Type} (f : Session → InPlace α) (s : Session) :
    (get >>= f : InPlace α).run.run s = (f s).run.run s := rfl

theorem run_mk_bind {α β : Type} (r : Result α) (f : α → InPlace β) (s : Session) :
    (ExceptT.mk (pure r) >>= f : InPlace β).run.run s
      = match r with
        | .ok a => (f a).run.run s
        | .error e => (.error e, s) := by
  cases r <;> rfl

/-- What a call comes to, if a failed one keeps the session. -/
def settle {α : Type} (s : Session) : Result (α × Session) → Result α × Session
  | .ok (a, s') => (.ok a, s')
  | .error e => (.error e, s)

theorem run_encryptOutgoing (s : Session) (chunk : Chunk) (isClient : Bool) (rnd : Rand) :
    (encryptOutgoing P chunk isClient rnd).run.run s
      = settle s (s.encryptOutgoing P chunk isClient rnd) := by
  rw [encryptOutgoing, run_get_bind, Session.encryptOutgoing]
  by_cases hseq : s.sendSeq ≥ maxNonce
  · rw [if_pos hseq, if_pos hseq]
    rfl
  · rw [if_neg hseq, if_neg hseq, run_mk_bind]
    cases chunk.encodeSequenced P (writeKey s.keys isClient) s.sendSeq rnd <;> rfl

theorem run_decryptIncoming (s : Session) (data : Bytes) (isClient : Bool) :
    (decryptIncoming P data isClient).run.run s
      = settle s (s.decryptIncoming P data isClient) := by
  rw [decryptIncoming, run_get_bind, Session.decryptIncoming, run_mk_bind]
  cases Chunk.decodeSequenced P data (readKey s.keys isClient) <;> rfl

theorem answers_cons {α β : Type} (call : α → InPlace β) (x : α) (xs : List α) (s : Session) :
    answers call (x :: xs) s
      = let (answer, s1) := (call x).run.run s
        (answer :: (answers call xs s1).1, (answers call xs s1).2) := rfl

theorem length_answers {α β : Type} (call : α → InPlace β) (xs : List α) (s : Session) :
    (answers call xs s).1.length = xs.length := by
  induction xs generalizing s with
  | nil => rfl
  | cons x xs ih =>
      rw [answers_cons]
      exact congrArg Nat.succ (ih _)

end InPlace

end Session

/-! ## What is encrypted -/

/-- A chunk to encrypt, and what is drawn for its padding. -/
structure Outgoing where
  chunkType : ChunkType
  payload : Bytes
  paddingLength : UInt8
  rnd : Rand

namespace Outgoing

def chunk (g : Outgoing) : Chunk := .withPadding g.chunkType g.payload g.paddingLength

/-- What `encrypt_outgoing` returned for each, on a new session. -/
def frames (P : Primitives) (id : SessionId) (keys : SessionKeys) (isClient : Bool)
    (gs : List Outgoing) : List (Result Bytes) :=
  (Session.InPlace.answers (fun g => .encryptOutgoing P g.chunk isClient g.rnd) gs
    (.new id keys)).1

end Outgoing

/-- A call of the cipher. -/
structure SealCall where
  key : Key
  nonce : Nonce
  message : Bytes
  aad : Bytes

def Outgoing.sealCall (g : Outgoing) (key : Key) (sequence : UInt64) : SealCall where
  key := key
  nonce := nonceFromSequence sequence
  message := g.payload ++ randomBytesVec g.rnd g.paddingLength.toNat
  aad := (g.chunk.withSequence sequence).header.encode

/-- The calls an exchange makes, one for each sequence it uses. -/
def Outgoing.sealCalls (keys : SessionKeys) (isClient : Bool) (gs : List Outgoing) : List SealCall :=
  (gs.take (2 ^ 64 - 2)).mapIdx fun i g =>
    g.sealCall (Session.writeKey keys isClient) (UInt64.ofNat i)

/-- The ideal cipher: what these calls made opens, whole or cut short,
under nothing but the key, nonce and associated data it was made with. -/
def Primitives.Binds (P : Primitives) (calls : List SealCall) : Prop :=
  ∀ call ∈ calls, ∀ c, P.aeadSeal call.key call.nonce call.message call.aad = some c →
    ∀ key nonce aad n m, P.aeadOpen key nonce (c.take n) aad = some m →
      key = call.key ∧ nonce = call.nonce ∧ aad = call.aad

namespace Outgoing

variable {P : Primitives}

theorem encryptOutgoing_isOk (hall : P.SealsAll) {g : Outgoing}
    (hlen : g.payload.length ≤ maxPayloadSize) {s : Session} (hseq : s.sendSeq.toNat < 2 ^ 64 - 2)
    (isClient : Bool) :
    ∃ frame s', s.encryptOutgoing P g.chunk isClient g.rnd = .ok (frame, s') := by
  have hlt : s.sendSeq < maxNonce := UInt64.lt_iff_toNat_lt.mpr hseq
  obtain ⟨frame, hframe⟩ := Chunk.encodeEncrypted_isOk hall (c := g.chunk.withSequence s.sendSeq)
    hlen (Session.writeKey s.keys isClient) (nonceFromSequence s.sendSeq) g.rnd
  have henc : g.chunk.encodeSequenced P (Session.writeKey s.keys isClient) s.sendSeq g.rnd
      = .ok frame := hframe
  rw [Session.encryptOutgoing, if_neg (not_le.mpr hlt), henc]
  exact ⟨frame, _, rfl⟩

theorem encryptOutgoing_exhausted {s : Session} (hseq : 2 ^ 64 - 2 ≤ s.sendSeq.toNat)
    (chunk : Chunk) (isClient : Bool) (rnd : Rand) :
    s.encryptOutgoing P chunk isClient rnd = .error .nonceExhausted := by
  have hge : s.sendSeq ≥ maxNonce := UInt64.le_iff_toNat_le.mpr hseq
  rw [Session.encryptOutgoing, if_pos hge]
  rfl

/-- The `i`-th call encrypts under the sequence `i` places after the
session's own, while there are sequences. -/
theorem answers_encryptOutgoing (hall : P.SealsAll) (isClient : Bool) {gs : List Outgoing}
    (hlen : ∀ g ∈ gs, g.payload.length ≤ maxPayloadSize) (s : Session) {i : Nat} {g : Outgoing}
    (hg : gs[i]? = some g) {answer : Result Bytes}
    (hanswer : (Session.InPlace.answers
      (fun g => .encryptOutgoing P g.chunk isClient g.rnd) gs s).1[i]? = some answer) :
    if s.sendSeq.toNat + i < 2 ^ 64 - 2 then
      ∃ frame, answer = .ok frame
        ∧ g.chunk.encodeSequenced P (Session.writeKey s.keys isClient)
            (UInt64.ofNat (s.sendSeq.toNat + i)) g.rnd = .ok frame
    else answer = .error .nonceExhausted := by
  induction gs generalizing s i with
  | nil => cases hg
  | cons g' gs ih =>
      have hrest : ∀ g ∈ gs, g.payload.length ≤ maxPayloadSize := fun g hg =>
        hlen g (List.mem_cons_of_mem _ hg)
      rw [Session.InPlace.answers_cons, Session.InPlace.run_encryptOutgoing] at hanswer
      by_cases hseq : s.sendSeq.toNat < 2 ^ 64 - 2
      · obtain ⟨frame, s1, henc⟩ := encryptOutgoing_isOk hall (hlen g' List.mem_cons_self) hseq
          isClient
        obtain ⟨hframe, -, hnext, hkeys⟩ := Session.encryptOutgoing_eq_ok henc
        rw [henc] at hanswer
        cases i with
        | zero =>
            obtain rfl : g' = g := Option.some.inj hg
            obtain rfl : .ok frame = answer := Option.some.inj hanswer
            rw [Nat.add_zero, if_pos hseq, UInt64.ofNat_toNat]
            exact ⟨frame, rfl, hframe⟩
        | succ i =>
            have h := ih hrest s1 hg hanswer
            rwa [hkeys, hnext, Nat.add_assoc, Nat.add_comm 1 i] at h
      · rw [encryptOutgoing_exhausted (not_lt.mp hseq)] at hanswer
        rw [if_neg (by omega)]
        cases i with
        | zero => exact (Option.some.inj hanswer).symm
        | succ i =>
            have h := ih hrest s hg hanswer
            rwa [if_neg (by omega)] at h

/-! ## Delivery -/

/-- A frame of the exchange is an encryption under the sequence that counts
the calls before it. -/
theorem frame_spec (hall : P.SealsAll) {id : SessionId} {keys : SessionKeys} {isClient : Bool}
    {gs : List Outgoing} (hlen : ∀ g ∈ gs, g.payload.length ≤ maxPayloadSize) {i : Nat}
    {frame : Bytes} (hframe : (frames P id keys isClient gs)[i]? = some (.ok frame)) :
    ∃ g, gs[i]? = some g ∧ i < 2 ^ 64 - 2
      ∧ g.chunk.encodeSequenced P (Session.writeKey keys isClient) (UInt64.ofNat i) g.rnd
          = .ok frame := by
  obtain ⟨hi, -⟩ := List.getElem?_eq_some_iff.mp hframe
  rw [frames, Session.InPlace.length_answers] at hi
  have h := answers_encryptOutgoing hall isClient hlen (.new id keys)
    (List.getElem?_eq_getElem hi) hframe
  have hzero : (Session.new id keys).sendSeq.toNat + i = i := Nat.zero_add i
  rw [hzero] at h
  split at h
  · rename_i hlt
    obtain ⟨frame', heq, henc⟩ := h
    obtain rfl := Except.ok.inj heq
    exact ⟨gs[i], List.getElem?_eq_getElem hi, hlt, henc⟩
  · cases h

theorem sealCall_mem {keys : SessionKeys} {isClient : Bool} {gs : List Outgoing} {i : Nat}
    {g : Outgoing} (hg : gs[i]? = some g) (hi : i < 2 ^ 64 - 2) :
    g.sealCall (Session.writeKey keys isClient) (UInt64.ofNat i) ∈ sealCalls keys isClient gs := by
  have hget : (sealCalls keys isClient gs)[i]?
      = some (g.sealCall (Session.writeKey keys isClient) (UInt64.ofNat i)) := by
    rw [sealCalls, List.getElem?_mapIdx, List.getElem?_take_of_lt hi, hg]
    rfl
  exact List.mem_of_getElem? hget

/-- What decrypts, agrees with a frame of the exchange behind the header
only if it agrees with it in the header and in the key. -/
theorem eq_of_decodeSequenced (hall : P.SealsAll) {id : SessionId} {keys : SessionKeys}
    {isClient : Bool} {gs : List Outgoing} (hlen : ∀ g ∈ gs, g.payload.length ≤ maxPayloadSize)
    (hbinds : P.Binds (sealCalls keys isClient gs)) {i : Nat} {frame : Bytes}
    (hframe : (frames P id keys isClient gs)[i]? = some (.ok frame)) {data : Bytes}
    (hdrop : data.drop headerSize = frame.drop headerSize) {key : Key} {c : Chunk}
    (hdec : Chunk.decodeSequenced P data key = .ok c) :
    key = Session.writeKey keys isClient ∧ data.take headerSize = frame.take headerSize := by
  obtain ⟨g, hg, hi, henc⟩ := frame_spec hall hlen hframe
  obtain ⟨ct, hct, rfl⟩ := Chunk.encodeEncrypted_eq_ok henc
  obtain ⟨nonce, n, m, hopen⟩ := Chunk.decodeSequenced_eq_ok hdec
  rw [hdrop, List.drop_left' (ChunkHeader.length_encode _)] at hopen
  obtain ⟨hkey, -, haad⟩ := hbinds _ (sealCall_mem hg hi) ct (encrypt_eq_ok.mp hct) _ _ _ _ _ hopen
  rw [List.take_left' (ChunkHeader.length_encode _)]
  exact ⟨hkey, haad⟩

/-- The frames of an exchange on their way. -/
structure OrderFree (P : Primitives) (id : SessionId) (keys : SessionKeys) (isClient : Bool)
    (gs : List Outgoing) : Prop where
  /-- Each chunk has its frame, up to the last sequence. -/
  produced : ∀ i < gs.length, i < 2 ^ 64 - 2 →
    ∃ frame, (frames P id keys isClient gs)[i]? = some (.ok frame)
  /-- Whichever frames come, each is what was encrypted. -/
  received : ∀ (peer : Session) (order : List Nat) (deliveries : List Bytes), peer.keys = keys →
    List.Forall₂ (fun i data => (frames P id keys isClient gs)[i]? = some (.ok data))
      order deliveries →
    List.Forall₂ (fun i answer => ∃ g c, gs[i]? = some g ∧ answer = Except.ok c
        ∧ c.payload = g.payload ∧ c.header.chunkType = g.chunkType
        ∧ c.header.sequence.toNat = i)
      order (Session.InPlace.answers (fun data => .decryptIncoming P data !isClient)
        deliveries peer).1
  /-- Bytes that differ from a frame, but in the header only. -/
  altered : ∀ (peer : Session) (i : Nat) (frame data : Bytes), peer.keys = keys →
    (frames P id keys isClient gs)[i]? = some (.ok frame) → data.length = frame.length →
    data.drop headerSize = frame.drop headerSize → data ≠ frame →
    ∃ e, (Session.InPlace.decryptIncoming P data !isClient).run.run peer = (.error e, peer)
  /-- A frame given back to the side it came from. -/
  fedBack : ∀ (self : Session) (i : Nat) (frame : Bytes), self.keys = keys →
    (frames P id keys isClient gs)[i]? = some (.ok frame) →
    ∃ e, (Session.InPlace.decryptIncoming P frame isClient).run.run self = (.error e, self)

/-- A refused frame leaves the session as it was. -/
theorem decryptIncoming_of_refused {s : Session} {data : Bytes} {isClient : Bool}
    (h : ∀ c, Chunk.decodeSequenced P data (Session.readKey s.keys isClient) ≠ .ok c) :
    ∃ e, (Session.InPlace.decryptIncoming P data isClient).run.run s = (.error e, s) := by
  rw [Session.InPlace.run_decryptIncoming, Session.decryptIncoming]
  cases hdec : Chunk.decodeSequenced P data (Session.readKey s.keys isClient) with
  | error e => exact ⟨e, rfl⟩
  | ok c => exact absurd hdec (h c)

theorem orderFree (hP : P.Lawful) (hall : P.SealsAll) {keys : SessionKeys}
    (hkeys : keys.clientWriteKey ≠ keys.serverWriteKey) (id : SessionId) (isClient : Bool)
    {gs : List Outgoing} (hlen : ∀ g ∈ gs, g.payload.length ≤ maxPayloadSize)
    (hbinds : P.Binds (sealCalls keys isClient gs)) : OrderFree P id keys isClient gs where
  produced i hi hlt := by
    have hlength : i < (frames P id keys isClient gs).length := by
      rwa [frames, Session.InPlace.length_answers]
    have h := answers_encryptOutgoing hall isClient hlen (.new id keys)
      (List.getElem?_eq_getElem hi) (List.getElem?_eq_getElem hlength)
    have hzero : (Session.new id keys).sendSeq.toNat + i = i := Nat.zero_add i
    rw [hzero, if_pos hlt] at h
    obtain ⟨frame, heq, -⟩ := h
    exact ⟨frame, (List.getElem?_eq_getElem hlength).trans (congrArg some heq)⟩
  received peer order deliveries hpeer hall₂ := by
    induction hall₂ generalizing peer with
    | nil => exact .nil
    | cons hframe _ ih =>
        rename_i i data order deliveries
        obtain ⟨g, hg, hi, henc⟩ := frame_spec hall hlen hframe
        have hmem := List.mem_of_getElem? hg
        have hdec := Chunk.decodeSequenced_encodeSequenced hP
          (Chunk.wellFormed_withPadding (hlen g hmem)) henc
        have hkey : Session.readKey peer.keys (!isClient) = Session.writeKey keys isClient := by
          rw [Session.readKey_eq, Bool.not_not, hpeer]
        rw [← hkey] at hdec
        obtain ⟨peer', hok, hkeys', -⟩ := Session.decryptIncoming_of_decode hdec
        rw [Session.InPlace.answers_cons, Session.InPlace.run_decryptIncoming, hok]
        refine .cons ⟨g, _, hg, rfl, rfl, rfl, ?_⟩ (ih peer' (hkeys'.trans hpeer))
        exact UInt64.toNat_ofNat_of_lt' (lt_trans hi (by decide))
  altered peer i frame data hpeer hframe hlength hdrop hne := by
    refine decryptIncoming_of_refused fun c hdec => hne ?_
    obtain ⟨-, htake⟩ := eq_of_decodeSequenced hall hlen hbinds hframe hdrop hdec
    rw [← List.take_append_drop headerSize data, htake, hdrop, List.take_append_drop]
  fedBack self i frame hself hframe := by
    refine decryptIncoming_of_refused fun c hdec => hkeys ?_
    obtain ⟨hkey, -⟩ := eq_of_decodeSequenced hall hlen hbinds hframe rfl hdec
    rw [hself] at hkey
    cases isClient with
    | true => exact hkey.symm
    | false => exact hkey

end Outgoing

/-! ## A cipher that binds

Messages in the clear, under a tag that repeats the place of the call in a
list. A message of bytes that are no place cannot be taken for a tag. -/

def Primitives.mark (calls : List SealCall) (key : Key) (nonce : Nonce) (aad : Bytes) : UInt8 :=
  UInt8.ofNat ((calls.map fun c => (c.key, c.nonce, c.aad)).idxOf (key, nonce, aad))

def Primitives.marked (calls : List SealCall) : Primitives where
  aeadSeal key nonce msg aad := some (msg ++ List.replicate tagSize (mark calls key nonce aad))
  aeadOpen key nonce c aad :=
    if tagSize ≤ c.length
        ∧ c.drop (c.length - tagSize) = List.replicate tagSize (mark calls key nonce aad) then
      some (c.take (c.length - tagSize))
    else none
  hkdf := plain.hkdf
  hmac := plain.hmac
  x25519Public := plain.x25519Public
  x25519 := plain.x25519

theorem Primitives.marked_lawful (calls : List SealCall) : (marked calls).Lawful where
  open_seal key nonce msg aad c h := by
    obtain rfl := Option.some.inj h
    have hlen : (msg ++ List.replicate tagSize (mark calls key nonce aad)).length - tagSize
        = msg.length := by simp
    show (if _ then _ else _) = _
    rw [hlen, List.drop_left, List.take_left, if_pos ⟨by simp, rfl⟩]
  length_seal key nonce msg aad c h := by
    obtain rfl := Option.some.inj h
    simp
  x25519_comm := plain_lawful.x25519_comm

theorem Primitives.marked_binds {calls : List SealCall}
    (hmsg : ∀ call ∈ calls, ∀ b ∈ call.message, b = 0xFF) (hlen : calls.length < 255) :
    (marked calls).Binds calls := by
  intro call hcall c hseal key nonce aad n m hopen
  obtain rfl := Option.some.inj hseal
  have hplace : ∀ k n a, (mark calls k n a).toNat
      = (calls.map fun c => (c.key, c.nonce, c.aad)).idxOf (k, n, a)
        ∧ (mark calls k n a).toNat < 255 := by
    intro k n a
    have hle := List.idxOf_le_length (l := calls.map fun c => (c.key, c.nonce, c.aad))
      (a := (k, n, a))
    rw [List.length_map] at hle
    have heq : (mark calls k n a).toNat
        = (calls.map fun c => (c.key, c.nonce, c.aad)).idxOf (k, n, a) :=
      UInt8.toNat_ofNat_of_lt' (by show _ < 256; omega)
    exact ⟨heq, by omega⟩
  -- the byte that starts the tag
  have hbyte : ∃ j : Nat, (call.message ++ List.replicate tagSize
      (mark calls call.key call.nonce call.aad))[j]? = some (mark calls key nonce aad) := by
    generalize call.message ++ List.replicate tagSize _ = c at hopen
    change (if _ then _ else _) = _ at hopen
    split at hopen
    · rename_i htag
      obtain ⟨-, htag⟩ := htag
      have h0 := congrArg (fun l => l[0]?) htag
      simp only [List.getElem?_drop, List.getElem?_take] at h0
      split at h0
      · exact ⟨_, h0⟩
      · cases h0
    · cases hopen
  obtain ⟨j, hj⟩ := hbyte
  rcases Nat.lt_or_ge j call.message.length with hin | hout
  · rw [List.getElem?_append_left hin] at hj
    have hff := hmsg call hcall _ (List.mem_of_getElem? hj)
    have := (hplace key nonce aad).2
    rw [hff] at this
    exact absurd this (by decide)
  · rw [List.getElem?_append_right hout] at hj
    have heq := List.eq_of_mem_replicate (List.mem_of_getElem? hj)
    have hidx := congrArg UInt8.toNat heq
    rw [(hplace ..).1, (hplace ..).1] at hidx
    have hmem : (call.key, call.nonce, call.aad)
        ∈ calls.map fun c => (c.key, c.nonce, c.aad) := List.mem_map.mpr ⟨call, hcall, rfl⟩
    obtain ⟨hkey, hrest⟩ := Prod.mk.inj ((List.idxOf_inj hmem).mp hidx.symm)
    obtain ⟨hnonce, haad⟩ := Prod.mk.inj hrest
    exact ⟨hkey.symm, hnonce.symm, haad.symm⟩

namespace Outgoing

/-- A data chunk, a control chunk with nothing in it, and cover traffic. -/
def mixed : List Outgoing :=
  [⟨.data, [0xFF, 0xFF, 0xFF], 2, fun _ => 0xFF⟩, ⟨.control, [], 0, noPadding⟩,
    ⟨.padding, [], 5, fun _ => 0xFF⟩]

theorem orderFree_mixed :
    let P := Primitives.marked (sealCalls plainKeys true mixed)
    P.Lawful ∧ P.SealsAll ∧ plainKeys.clientWriteKey ≠ plainKeys.serverWriteKey
      ∧ (∀ g ∈ mixed, g.payload.length ≤ maxPayloadSize)
      ∧ P.Binds (sealCalls plainKeys true mixed)
      ∧ OrderFree P (zeroArr 16) plainKeys true mixed := by
  have hall : (Primitives.marked (sealCalls plainKeys true mixed)).SealsAll := fun _ _ _ _ _ => rfl
  have hkeys : plainKeys.clientWriteKey ≠ plainKeys.serverWriteKey := by decide
  have hlen : ∀ g ∈ mixed, g.payload.length ≤ maxPayloadSize := by
    intro g hg
    simp only [mixed, List.mem_cons, List.not_mem_nil, or_false] at hg
    rcases hg with rfl | rfl | rfl
    all_goals decide
  have hbinds : (Primitives.marked (sealCalls plainKeys true mixed)).Binds
      (sealCalls plainKeys true mixed) :=
    Primitives.marked_binds (by decide +kernel) (by decide +kernel)
  have hP := Primitives.marked_lawful (sealCalls plainKeys true mixed)
  exact ⟨hP, hall, hkeys, hlen, hbinds, orderFree hP hall hkeys (zeroArr 16) true hlen hbinds⟩

end Outgoing

end Kanrin
