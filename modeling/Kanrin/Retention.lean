import Kanrin.Lib.Run
import Kanrin.SendBuffer
import Kanrin.Session

/-!
# Retaining what has been numbered

The sending half of `run_pipeline`'s main loop (client) and of the writer
task of `ClientSession::serve` (server): a packet is encrypted, which
consumes a sequence number, and the encoded chunk is pushed to the send
buffer. The client takes packets only while the buffer is not full, and
encrypts and pushes without yielding to another branch of its loop. The
server has no gate; between its encryption and its push the task waits for
the buffer's lock, where acknowledgements may be applied and the task may
be aborted by a later connection.

`outstanding` records the data chunks numbered so far that no
acknowledgement applied since covers. `Retained` says that each of them is
in the buffer, or on its way there. It holds in every state of a run
exactly when every push is admitted while its chunk is outstanding, and no
outstanding chunk is dropped on its way (`client_retained_iff`,
`server_retained_iff`). The client's gate does not provide the first: it
compares the bytes already held with the bound, `push` the bytes held
together with the new chunk.
-/

namespace Kanrin

open Lib

/-- One side's numbered output. `holding` is a data chunk that has been
encrypted and not yet pushed. -/
structure Outbound where
  session : Session
  buffer : SendBuffer
  holding : Option (UInt64 × Bytes)
  outstanding : List (UInt64 × Bytes)
  running : Bool

namespace Outbound

def start (id : SessionId) (keys : SessionKeys) (buffer : SendBuffer) : Outbound where
  session := .new id keys
  buffer := buffer
  holding := none
  outstanding := []
  running := true

/-- `send_buffer.apply_ack`. -/
def applyAck (o : Outbound) (next : UInt64) (ranges : List SackRange) : Outbound :=
  { o with
    buffer := (o.buffer.applyAck next ranges).2
    outstanding := o.outstanding.filter fun e => decide ¬ SendBuffer.Covers next ranges e.1 }

/-- `send_buffer.push`, with a refusal only logged. -/
def pushLogged (o : Outbound) (e : UInt64 × Bytes) : Outbound :=
  match o.buffer.push e.1 e.2 with
  | .ok buffer => { o with buffer, holding := none }
  | .error _ => { o with holding := none }

variable (P : Primitives)

/-- `encrypt_outgoing` of a data chunk, under the sequence read just before. -/
def encryptData (o : Outbound) (packet : Bytes) (r : UInt8) (rnd : Rand) (isClient : Bool) :
    Option Outbound :=
  let sequence := o.session.sendNonceValue
  match o.session.encryptOutgoing P (Chunk.newData packet r) isClient rnd with
  | .ok (bytes, session) =>
      some { o with
        session
        holding := some (sequence, bytes)
        outstanding := o.outstanding ++ [(sequence, bytes)] }
  | .error _ => none

def encryptControl (o : Outbound) (payload : Bytes) (r : UInt8) (rnd : Rand) (isClient : Bool) :
    Outbound :=
  match o.session.encryptOutgoing P (Chunk.newControl payload r) isClient rnd with
  | .ok (_, session) => { o with session }
  | .error _ => o

/-! ## The client's main loop -/

inductive ClientEvent where
  /-- A packet from the TUN queue that is neither malformed nor a DNS query. -/
  | packet (raw : Bytes) (r : UInt8) (rnd : Rand)
  /-- A packet that is dropped or answered locally. -/
  | intercepted (raw : Bytes)
  /-- An acknowledgement or a liveness probe. -/
  | control (payload : Bytes) (r : UInt8) (rnd : Rand)
  | ack (next : UInt64) (ranges : List SackRange)
  /-- A switch applies the server's position, then replays. -/
  | switch (next : UInt64)

def clientStep (o : Outbound) : ClientEvent → Option Outbound
  | .packet raw r rnd =>
      if o.running && !o.buffer.isFull then
        match o.encryptData P raw r rnd true with
        | some o' =>
            match o'.holding with
            | some e => some (o'.pushLogged e)
            | none => some o'
        | none => some { o with running := false }
      else none
  | .intercepted _ => if o.running && !o.buffer.isFull then some o else none
  | .control payload r rnd =>
      if o.running then some (o.encryptControl P payload r rnd true) else none
  | .ack next ranges => if o.running then some (o.applyAck next ranges) else none
  | .switch next => if o.running then some (o.applyAck next []) else none

/-! ## The server's writer task -/

inductive ServerEvent where
  | encrypt (packet : Bytes) (r : UInt8) (rnd : Rand)
  | push
  | control (payload : Bytes) (r : UInt8) (rnd : Rand)
  | ack (next : UInt64) (ranges : List SackRange)
  /-- A later connection aborts the task; its successor writes on. -/
  | abort

def serverStep (o : Outbound) : ServerEvent → Option Outbound
  | .encrypt packet r rnd =>
      if o.holding = none then (o.encryptData P packet r rnd false).orElse fun _ => some o else none
  | .push => o.holding.map o.pushLogged
  | .control payload r rnd =>
      if o.holding = none then some (o.encryptControl P payload r rnd false) else none
  | .ack next ranges => some (o.applyAck next ranges)
  | .abort => some { o with holding := none }

/-! ## The property, and when it holds -/

/-- Every data chunk numbered and not acknowledged is in the buffer, or
about to be pushed. -/
def Retained (o : Outbound) : Prop :=
  ∀ e ∈ o.outstanding, o.buffer.get? e.1 = some e.2 ∨ o.holding = some e

/-- A packet that can be encrypted is taken only when its encoded chunk
fits. -/
def ClientFits (o : Outbound) : ClientEvent → Prop
  | .packet raw r rnd =>
      (o.session.encryptOutgoing P (Chunk.newData raw r) true rnd).isOk = true →
        o.buffer.Admits (Chunk.newData raw r).wireSize
  | _ => True

/-- A chunk that still needs retaining is pushed only when it fits, and the
task is not aborted while it holds one. -/
def ServerFits (o : Outbound) : ServerEvent → Prop
  | .push => ∀ e ∈ o.outstanding, o.holding = some e → o.buffer.Admits e.2.length
  | .abort => ∀ e ∈ o.outstanding, o.holding ≠ some e
  | _ => True

/-- Everything numbered is below the counter, and the chunk on its way is
not in the buffer yet. -/
structure Numbered (o : Outbound) : Prop where
  outstanding : ∀ e ∈ o.outstanding, e.1 < o.session.sendSeq
  buffered : ∀ s, o.buffer.get? s ≠ none → s < o.session.sendSeq
  holding : ∀ h, o.holding = some h → h.1 < o.session.sendSeq ∧ o.buffer.get? h.1 = none
    ∧ ∀ e ∈ o.outstanding, e.1 = h.1 → e = h

theorem numbered_start (id : SessionId) (keys : SessionKeys) (maxBytes : Nat) :
    (start id keys (.new maxBytes)).Numbered where
  outstanding _ h := by cases h
  buffered _ h := absurd rfl h
  holding _ h := by cases h

theorem retained_start (id : SessionId) (keys : SessionKeys) (buffer : SendBuffer) :
    (start id keys buffer).Retained := by
  intro e he
  cases he

theorem mem_outstanding_applyAck {o : Outbound} {next : UInt64} {ranges : List SackRange}
    {e : UInt64 × Bytes} :
    e ∈ (o.applyAck next ranges).outstanding
      ↔ e ∈ o.outstanding ∧ ¬ SendBuffer.Covers next ranges e.1 := by
  simp [applyAck]

theorem Numbered.applyAck {o : Outbound} (h : o.Numbered) (next : UInt64)
    (ranges : List SackRange) : (o.applyAck next ranges).Numbered := by
  refine ⟨fun e he => h.outstanding e (mem_outstanding_applyAck.mp he).1, fun s hs => ?_,
    fun e he => ?_⟩
  · refine h.buffered s fun hnone => hs ?_
    simp [Outbound.applyAck, SendBuffer.get?_applyAck, hnone]
  · obtain ⟨h1, h2, h3⟩ := h.holding e he
    refine ⟨h1, ?_, fun x hx => h3 x (mem_outstanding_applyAck.mp hx).1⟩
    simp [Outbound.applyAck, SendBuffer.get?_applyAck, h2]

/-- An acknowledgement releases only what it takes off the record. -/
theorem Retained.applyAck {o : Outbound} (h : o.Retained) (next : UInt64)
    (ranges : List SackRange) : (o.applyAck next ranges).Retained := by
  intro e he
  obtain ⟨hmem, hnot⟩ := mem_outstanding_applyAck.mp he
  refine (h e hmem).imp_left ?_
  intro hget
  rw [Outbound.applyAck, SendBuffer.get?_applyAck, if_neg hnot, hget]

variable {P}

theorem encryptData_isSome {o : Outbound} {packet : Bytes} {r : UInt8} {rnd : Rand}
    {isClient : Bool} :
    (o.encryptData P packet r rnd isClient).isSome
      = (o.session.encryptOutgoing P (Chunk.newData packet r) isClient rnd).isOk := by
  unfold encryptData
  cases o.session.encryptOutgoing P (Chunk.newData packet r) isClient rnd <;> rfl

theorem encryptData_eq_some {o o' : Outbound} {packet : Bytes} {r : UInt8} {rnd : Rand}
    {isClient : Bool} (h : o.encryptData P packet r rnd isClient = some o') :
    ∃ bytes session,
      (Chunk.newData packet r).encodeSequenced P (Session.writeKey o.session.keys isClient)
          o.session.sendSeq rnd = .ok bytes
        ∧ o.session.sendSeq < maxNonce ∧ session.sendSeq.toNat = o.session.sendSeq.toNat + 1
        ∧ o' = { o with
            session
            holding := some (o.session.sendSeq, bytes)
            outstanding := o.outstanding ++ [(o.session.sendSeq, bytes)] } := by
  simp only [encryptData] at h
  split at h
  · rename_i bytes session henc
    obtain ⟨hseal, hlt, hsucc, -⟩ := Session.encryptOutgoing_eq_ok henc
    exact ⟨bytes, session, hseal, UInt64.lt_iff_toNat_lt.mpr hlt, hsucc, (Option.some.inj h).symm⟩
  · cases h

theorem lt_of_toNat_succ {a b s : UInt64} (h : b.toNat = a.toNat + 1) (hs : s < a) : s < b := by
  rw [UInt64.lt_iff_toNat_lt] at hs ⊢
  omega

/-- Encrypting a data chunk puts it on the record and in hand. -/
theorem Numbered.encryptData {o o' : Outbound} (h : o.Numbered) {packet : Bytes} {r : UInt8}
    {rnd : Rand} {isClient : Bool} (he : o.encryptData P packet r rnd isClient = some o') :
    o'.Numbered := by
  obtain ⟨bytes, session, -, -, hsucc, rfl⟩ := encryptData_eq_some he
  have hself : o.session.sendSeq < session.sendSeq := by
    rw [UInt64.lt_iff_toNat_lt]; omega
  refine ⟨fun e he => ?_, fun s hs => lt_of_toNat_succ hsucc (h.buffered s hs), fun e he => ?_⟩
  · rcases List.mem_append.mp he with he | he
    · exact lt_of_toNat_succ hsucc (h.outstanding e he)
    · rw [List.mem_singleton.mp he]
      exact hself
  · obtain rfl := Option.some.inj he
    refine ⟨hself, ?_, fun x hx heq => ?_⟩
    · by_contra hne
      exact lt_irrefl _ (h.buffered _ hne)
    · rcases List.mem_append.mp hx with hx | hx
      · exact absurd (h.outstanding x hx) (heq ▸ lt_irrefl _)
      · exact List.mem_singleton.mp hx

theorem Numbered.encryptControl {o : Outbound} (h : o.Numbered) (payload : Bytes) (r : UInt8)
    (rnd : Rand) (isClient : Bool) (hnone : o.holding = none) :
    (o.encryptControl P payload r rnd isClient).Numbered := by
  unfold Outbound.encryptControl
  split
  · rename_i session henc
    obtain ⟨-, -, hsucc, -⟩ := Session.encryptOutgoing_eq_ok henc
    refine ⟨fun e he => lt_of_toNat_succ hsucc (h.outstanding e he),
      fun s hs => lt_of_toNat_succ hsucc (h.buffered s hs), fun e he => ?_⟩
    rw [hnone] at he
    cases he
  · exact h

theorem Numbered.pushLogged {o : Outbound} (h : o.Numbered) {e : UInt64 × Bytes}
    (he : o.holding = some e) : (o.pushLogged e).Numbered := by
  unfold Outbound.pushLogged
  split
  · rename_i buffer hpush
    refine ⟨h.outstanding, fun s hs => ?_, fun _ hx => by cases hx⟩
    rw [SendBuffer.get?_push hpush] at hs
    split at hs
    · rename_i heq
      rw [heq]
      exact (h.holding e he).1
    · exact h.buffered s hs
  · exact ⟨h.outstanding, h.buffered, fun _ hx => by cases hx⟩

/-- A push keeps everything retained exactly when the chunk is admitted, or
no longer needed. -/
theorem retained_pushLogged_iff {o : Outbound} (hn : o.Numbered) {e : UInt64 × Bytes}
    (he : o.holding = some e) (hr : ∀ x ∈ o.outstanding, x ≠ e → o.buffer.get? x.1 = some x.2) :
    (o.pushLogged e).Retained ↔ (e ∈ o.outstanding → o.buffer.Admits e.2.length) := by
  obtain ⟨-, hfree, huniq⟩ := hn.holding e he
  unfold pushLogged
  constructor
  · intro h hmem
    by_contra hnot
    cases hpush : o.buffer.push e.1 e.2 with
    | ok buffer => exact hnot (SendBuffer.push_eq_ok hpush).1
    | error err =>
        rw [hpush] at h
        rcases h e hmem with hget | hget
        · exact absurd (hfree.symm.trans hget) (by simp)
        · cases hget
  · intro h x hx
    cases hpush : o.buffer.push e.1 e.2 with
    | ok buffer =>
        refine Or.inl ?_
        simp only [SendBuffer.get?_push hpush]
        by_cases hxe : x = e
        · simp [hxe]
        · rw [if_neg fun heq => hxe (huniq x (by rw [hpush] at hx; exact hx) heq)]
          exact hr x (by rw [hpush] at hx; exact hx) hxe
    | error err =>
        rw [hpush] at hx
        refine Or.inl (hr x hx fun hxe => ?_)
        obtain ⟨buffer, hok⟩ := SendBuffer.push_isOk_iff.mpr (h (hxe ▸ hx))
        rw [hok] at hpush
        cases hpush

theorem retained_encryptControl {o : Outbound} (h : o.Retained) (payload : Bytes) (r : UInt8)
    (rnd : Rand) (isClient : Bool) : (o.encryptControl P payload r rnd isClient).Retained := by
  unfold encryptControl
  split <;> exact h

theorem holding_encryptControl (o : Outbound) (payload : Bytes) (r : UInt8) (rnd : Rand)
    (isClient : Bool) : (o.encryptControl P payload r rnd isClient).holding = o.holding := by
  unfold encryptControl
  split <;> rfl

theorem holding_pushLogged (o : Outbound) (e : UInt64 × Bytes) :
    (o.pushLogged e).holding = none := by
  unfold pushLogged
  split <;> rfl

/-- Just encrypted: everything else on the record is in the buffer. -/
theorem stored_encryptData {o o' : Outbound} (hr : o.Retained) (hnone : o.holding = none)
    {packet : Bytes} {r : UInt8} {rnd : Rand} {isClient : Bool}
    (h : o.encryptData P packet r rnd isClient = some o') :
    ∃ e, o'.holding = some e ∧ e ∈ o'.outstanding ∧ o'.buffer = o.buffer
      ∧ ∀ x ∈ o'.outstanding, x ≠ e → o'.buffer.get? x.1 = some x.2 := by
  obtain ⟨bytes, session, -, -, -, rfl⟩ := encryptData_eq_some h
  refine ⟨(o.session.sendSeq, bytes), rfl, List.mem_append_right _ List.mem_cons_self, rfl,
    fun x hx hne => ?_⟩
  rcases List.mem_append.mp hx with hx | hx
  · refine (hr x hx).resolve_right ?_
    intro h
    rw [hnone] at h
    cases h
  · exact absurd (List.mem_singleton.mp hx) hne

/-! ## The client -/

/-- The client never leaves its loop body with a chunk in hand. -/
structure ClientInv (o : Outbound) : Prop where
  numbered : o.Numbered
  holding : o.holding = none
  retained : o.Retained

theorem client_packet (hP : P.Lawful) {o o' : Outbound} (hi : o.ClientInv) {raw : Bytes}
    {r : UInt8} {rnd : Rand} (h : o.clientStep P (.packet raw r rnd) = some o') :
    o'.Numbered ∧ o'.holding = none ∧ (o'.Retained ↔ o.ClientFits P (.packet raw r rnd)) := by
  simp only [clientStep] at h
  split at h
  · cases henc : o.encryptData P raw r rnd true with
    | none =>
        rw [henc] at h
        obtain rfl := Option.some.inj h
        have hno : (o.session.encryptOutgoing P (Chunk.newData raw r) true rnd).isOk = false := by
          rw [← encryptData_isSome, henc]; rfl
        refine ⟨⟨hi.numbered.outstanding, hi.numbered.buffered, hi.numbered.holding⟩, hi.holding,
          fun _ hok => ?_, fun _ => hi.retained⟩
        rw [hno] at hok
        cases hok
    | some o₁ =>
        rw [henc] at h
        obtain ⟨e, he, hmem, hbuf, hstored⟩ := stored_encryptData hi.retained hi.holding henc
        have hn := hi.numbered.encryptData henc
        simp only [he] at h
        obtain rfl := Option.some.inj h
        have hok : (o.session.encryptOutgoing P (Chunk.newData raw r) true rnd).isOk = true := by
          rw [← encryptData_isSome, henc]; rfl
        have hlen : e.2.length = (Chunk.newData raw r).wireSize := by
          obtain ⟨bytes, session, hseal, -, -, rfl⟩ := encryptData_eq_some henc
          obtain rfl := Option.some.inj he
          exact Chunk.length_encodeSequenced hP hseal
        refine ⟨hn.pushLogged he, holding_pushLogged o₁ e, ?_⟩
        rw [retained_pushLogged_iff hn he hstored, hlen, hbuf]
        exact ⟨fun h _ => h hmem, fun h _ => h hok⟩
  · cases h

/-- One turn of the client's loop keeps everything retained exactly when a
packet it takes fits. -/
theorem client_step (hP : P.Lawful) {o o' : Outbound} (hi : o.ClientInv) {e : ClientEvent}
    (h : o.clientStep P e = some o') :
    o'.Numbered ∧ o'.holding = none ∧ (o'.Retained ↔ o.ClientFits P e) := by
  cases e with
  | packet raw r rnd => exact client_packet hP hi h
  | intercepted raw =>
      simp only [clientStep] at h
      split at h
      · obtain rfl := Option.some.inj h
        exact ⟨hi.numbered, hi.holding, fun _ => trivial, fun _ => hi.retained⟩
      · cases h
  | control payload r rnd =>
      simp only [clientStep] at h
      split at h
      · obtain rfl := Option.some.inj h
        exact ⟨hi.numbered.encryptControl payload r rnd true hi.holding,
          (holding_encryptControl o payload r rnd true).trans hi.holding, fun _ => trivial,
          fun _ => retained_encryptControl hi.retained payload r rnd true⟩
      · cases h
  | ack next ranges =>
      simp only [clientStep] at h
      split at h
      · obtain rfl := Option.some.inj h
        exact ⟨hi.numbered.applyAck next ranges, hi.holding, fun _ => trivial,
          fun _ => hi.retained.applyAck next ranges⟩
      · cases h
  | switch next =>
      simp only [clientStep] at h
      split at h
      · obtain rfl := Option.some.inj h
        exact ⟨hi.numbered.applyAck next [], hi.holding, fun _ => trivial,
          fun _ => hi.retained.applyAck next []⟩
      · cases h

theorem client_retained_iff (hP : P.Lawful) (id : SessionId) (keys : SessionKeys) (maxBytes : Nat)
    (es : List ClientEvent) :
    Always (clientStep P) Retained (start id keys (.new maxBytes)) es
      ↔ Meets (clientStep P) (ClientFits P) (start id keys (.new maxBytes)) es := by
  have hstart : (start id keys (.new maxBytes)).ClientInv :=
    ⟨numbered_start id keys maxBytes, rfl, retained_start id keys _⟩
  refine always_iff_meets (fun o e o' hi _ h => ?_) hstart hstart.retained
  obtain ⟨hn, hh, hiff⟩ := client_step hP hi h
  exact ⟨hiff, fun hr => ⟨hn, hh, hr⟩⟩

/-! ## The server -/

theorem server_push {o : Outbound} (hn : o.Numbered) (hr : o.Retained) {e : UInt64 × Bytes}
    (he : o.holding = some e) :
    (o.pushLogged e).Retained ↔ o.ServerFits .push := by
  have hstored : ∀ x ∈ o.outstanding, x ≠ e → o.buffer.get? x.1 = some x.2 := by
    intro x hx hne
    refine (hr x hx).resolve_right fun h => hne ?_
    rw [he] at h
    exact (Option.some.inj h).symm
  rw [retained_pushLogged_iff hn he hstored]
  constructor
  · intro h x hx hxe
    rw [he] at hxe
    obtain rfl := Option.some.inj hxe
    exact h hx
  · intro h hmem
    exact h e hmem he

/-- One step of the server's writer keeps everything retained exactly when
the chunk it pushes fits, and is not dropped by an abort. -/
theorem server_step {o o' : Outbound} (hn : o.Numbered) (hr : o.Retained) {e : ServerEvent}
    (h : o.serverStep P e = some o') :
    o'.Numbered ∧ (o'.Retained ↔ o.ServerFits e) := by
  cases e with
  | encrypt packet r rnd =>
      simp only [serverStep] at h
      split at h
      · rename_i hnone
        cases henc : o.encryptData P packet r rnd false with
        | none =>
            rw [henc] at h
            obtain rfl := Option.some.inj h
            exact ⟨hn, fun _ => trivial, fun _ => hr⟩
        | some o₁ =>
            rw [henc] at h
            obtain rfl := Option.some.inj h
            obtain ⟨e, he, -, -, hstored⟩ := stored_encryptData hr hnone henc
            refine ⟨hn.encryptData henc, fun _ => trivial, fun _ x hx => ?_⟩
            by_cases hxe : x = e
            · exact Or.inr (hxe ▸ he)
            · exact Or.inl (hstored x hx hxe)
      · cases h
  | push =>
      obtain ⟨e, he, rfl⟩ := Option.map_eq_some_iff.mp h
      exact ⟨hn.pushLogged he, server_push hn hr he⟩
  | control payload r rnd =>
      simp only [serverStep] at h
      split at h
      · rename_i hnone
        obtain rfl := Option.some.inj h
        exact ⟨hn.encryptControl payload r rnd false hnone, fun _ => trivial,
          fun _ => retained_encryptControl hr payload r rnd false⟩
      · cases h
  | ack next ranges =>
      obtain rfl := Option.some.inj h
      exact ⟨hn.applyAck next ranges, fun _ => trivial, fun _ => hr.applyAck next ranges⟩
  | abort =>
      obtain rfl := Option.some.inj h
      refine ⟨⟨hn.outstanding, hn.buffered, fun _ hx => by cases hx⟩, fun h x hx hhold => ?_,
        fun h x hx => Or.inl ((hr x hx).resolve_right (h x hx))⟩
      rcases h x hx with hget | hget
      · exact absurd ((hn.holding x hhold).2.1.symm.trans hget) (by simp)
      · cases hget

theorem server_retained_iff (id : SessionId) (keys : SessionKeys) (maxBytes : Nat)
    (es : List ServerEvent) :
    Always (serverStep P) Retained (start id keys (.new maxBytes)) es
      ↔ Meets (serverStep P) ServerFits (start id keys (.new maxBytes)) es := by
  refine always_iff_meets (fun o e o' hn hr h => ?_) (numbered_start id keys maxBytes)
    (retained_start id keys (.new maxBytes))
  obtain ⟨hn', hiff⟩ := server_step hn hr h
  exact ⟨hiff, fun _ => hn'⟩

/-- Back-pressure drops no retained chunk exactly where each push fits, on
either side. -/
theorem backpressure_retains_iff (hP : P.Lawful) (id : SessionId) (keys : SessionKeys)
    (maxBytes : Nat) :
    (∀ es, Always (clientStep P) Retained (start id keys (.new maxBytes)) es
        ↔ Meets (clientStep P) (ClientFits P) (start id keys (.new maxBytes)) es)
      ∧ ∀ es, Always (serverStep P) Retained (start id keys (.new maxBytes)) es
        ↔ Meets (serverStep P) ServerFits (start id keys (.new maxBytes)) es :=
  ⟨client_retained_iff hP id keys maxBytes, server_retained_iff id keys maxBytes⟩

theorem backpressure_retains_iff_plain :
    Always (clientStep .plain) Retained (start (zeroArr 16) plainKeys .withDefaultCapacity)
      [.packet [0x45] 0 fun _ => 0, .ack 1 []] :=
  ((backpressure_retains_iff Primitives.plain_lawful (zeroArr 16) plainKeys
    defaultMaxBufferBytes).1 _).mpr fun _ _ =>
      ⟨fun _ => Or.inl rfl, fun _ _ => ⟨trivial, trivial⟩⟩

/-! ## Where the gate and the admission test disagree

Packets of the default MTU, drawn with no padding, are 1429 bytes encoded.
The buffer takes 11740 of them and then holds 16776460 bytes: below the
bound of 16777216, so the next packet is taken, and above it once that
packet's chunk is added, so the chunk is refused. -/

def mtuPacket : Bytes := 0x45 :: List.replicate 1399 0

theorem wireSize_mtuPacket : (Chunk.newData mtuPacket 0).wireSize = 1429 := by
  have hlen : mtuPacket.length = 1400 := by rw [mtuPacket, List.length_cons, List.length_replicate]
  simp only [Chunk.wireSize, Chunk.newData, Chunk.withPadding, hlen]
  rfl

def takeMtuPacket : ClientEvent := .packet mtuPacket 0 fun _ => 0

/-- Having taken `n` of these packets, none of them acknowledged. -/
structure Filled (n : Nat) (o : Outbound) : Prop where
  inv : o.ClientInv
  running : o.running = true
  count : o.session.sendSeq.toNat = n
  bytes : o.buffer.bufferedBytes = n * 1429
  bound : o.buffer.maxBytes = defaultMaxBufferBytes

theorem filled_start : Filled 0 (start (zeroArr 16) plainKeys .withDefaultCapacity) where
  inv := ⟨numbered_start _ _ _, rfl, retained_start _ _ _⟩
  running := rfl
  count := rfl
  bytes := rfl
  bound := rfl

/-- The gate is open, and the packet is encrypted. -/
theorem Filled.encrypt {n : Nat} {o : Outbound} (h : Filled n o) (hn : n ≤ 11740) :
    ∃ o₁ e, o.encryptData .plain mtuPacket 0 (fun _ => 0) true = some o₁ ∧ o₁.holding = some e
      ∧ o.clientStep .plain takeMtuPacket = some (o₁.pushLogged e)
      ∧ (o.session.encryptOutgoing .plain (Chunk.newData mtuPacket 0) true fun _ => 0).isOk
        = true := by
  have hseq : o.session.sendSeq < maxNonce := by
    rw [UInt64.lt_iff_toNat_lt, toNat_maxNonce, h.count]
    omega
  obtain ⟨bytes, session, henc⟩ := Session.encryptOutgoing_plain hseq (Chunk.newData mtuPacket 0)
    true fun _ => 0
  have hgate : (o.running && !o.buffer.isFull) = true := by
    have hbytes := h.bytes
    have hbound := h.bound
    rw [defaultMaxBufferBytes] at hbound
    simp only [h.running, SendBuffer.isFull, Bool.true_and, Bool.not_eq_true', decide_eq_false_iff_not]
    omega
  have hok : (o.session.encryptOutgoing .plain (Chunk.newData mtuPacket 0) true fun _ => 0).isOk
      = true := by rw [henc]; rfl
  obtain ⟨o₁, hdata⟩ := Option.isSome_iff_exists.mp (encryptData_isSome.trans hok)
  obtain ⟨e, he, -⟩ := stored_encryptData h.inv.retained h.inv.holding hdata
  refine ⟨o₁, e, hdata, he, ?_, hok⟩
  simp only [takeMtuPacket, clientStep, hgate, hdata, he, ↓reduceIte]

/-- A packet that fits is stored. -/
theorem Filled.step {n : Nat} {o : Outbound} (h : Filled n o) (hn : n < 11740) :
    ∃ o', o.clientStep .plain takeMtuPacket = some o' ∧ Filled (n + 1) o' := by
  obtain ⟨o₁, e, hdata, he, hstep, hok⟩ := h.encrypt hn.le
  obtain ⟨bytes, session, hseal, -, hsucc, rfl⟩ := encryptData_eq_some hdata
  obtain rfl := Option.some.inj he
  have hlen : bytes.length = 1429 := by
    rw [← wireSize_mtuPacket]
    exact Chunk.length_encodeSequenced Primitives.plain_lawful hseal
  have hbytes := h.bytes
  have hbound := h.bound
  have hfits : o.buffer.bufferedBytes + bytes.length ≤ o.buffer.maxBytes := by
    rw [hlen, hbytes, hbound, defaultMaxBufferBytes]
    omega
  obtain ⟨buffer, hpush⟩ : ∃ b, o.buffer.push o.session.sendSeq bytes = .ok b :=
    SendBuffer.push_isOk_iff.mpr (Or.inr hfits)
  obtain ⟨hn', hh, hiff⟩ := client_step Primitives.plain_lawful h.inv hstep
  refine ⟨_, hstep, ⟨hn', hh, hiff.mpr fun _ => ?_⟩, ?_, ?_, ?_, ?_⟩
  · rw [wireSize_mtuPacket, ← hlen]
    exact Or.inr hfits
  all_goals simp only [pushLogged, hpush]
  · exact h.running
  · rw [hsucc, h.count]
  · have hfree : o.buffer.get? o.session.sendSeq = none := by
      by_contra hne
      exact lt_irrefl _ (h.inv.numbered.buffered _ hne)
    rw [SendBuffer.bufferedBytes_push hpush hfree, hbytes, hlen]
    omega
  · rw [(SendBuffer.push_eq_ok hpush).2.2, hbound]

theorem Filled.run (n : Nat) (hn : n ≤ 11740) :
    ∃ o, exec (clientStep .plain) (start (zeroArr 16) plainKeys .withDefaultCapacity)
        (List.replicate n takeMtuPacket) = some o ∧ Filled n o := by
  induction n with
  | zero => exact ⟨_, rfl, filled_start⟩
  | succ n ih =>
      obtain ⟨o, ho, hfilled⟩ := ih (by omega)
      obtain ⟨o', ho', hfilled'⟩ := hfilled.step (by omega)
      exact ⟨o', by rw [List.replicate_succ', exec_concat]; exact ⟨o, ho, ho'⟩, hfilled'⟩

/-- The chunk of the 11741st packet is numbered, and not retained. -/
theorem backpressure_drops_chunk :
    ¬ ∀ es, Always (clientStep .plain) Retained
      (start (zeroArr 16) plainKeys .withDefaultCapacity) es := by
  intro h
  obtain ⟨o, ho, hfilled⟩ := Filled.run 11740 le_rfl
  obtain ⟨o₁, e, -, -, hstep, hok⟩ := hfilled.encrypt le_rfl
  obtain ⟨-, -, hiff⟩ := client_step Primitives.plain_lawful hfilled.inv hstep
  have hlast := (h (List.replicate 11740 takeMtuPacket ++ [takeMtuPacket])).last
    (exec_concat.mpr ⟨o, ho, hstep⟩)
  have hadmits : o.buffer.Admits (Chunk.newData mtuPacket 0).wireSize := hiff.mp hlast hok
  have hbytes := hfilled.bytes
  rw [wireSize_mtuPacket] at hadmits
  rcases hadmits with hempty | hle
  · have := o.buffer.accounted
    rw [SortedMap.total_eq_zero_of_isEmpty hempty] at this
    omega
  · rw [hfilled.bound, defaultMaxBufferBytes] at hle
    omega

end Outbound

end Kanrin
