import Kanrin.Lib.Run
import Kanrin.Ack
import Kanrin.Flow

/-!
# The data plane over one reliable transport

The main loop of `run_pipeline` (client) and the reader and writer of
`ClientSession::serve` (server), joined by a transport that delivers every
frame in order. An event is one branch of one loop: a packet to tunnel, a
liveness probe, a frame read, or (on the server) a control message leaving
through the writer. Packets the client drops or answers locally number
nothing and are left out.

Each side numbers data and control chunks with one counter, and offers
only the data chunks it receives to its reorder buffer. `Tunnel.Inv` is
one `Flow` in each direction. The data numbered so far has been handed on,
once every frame has been read, exactly when no control chunk was numbered
before a data chunk (`no_data_stranded_iff`).
-/

namespace Kanrin

open Lib

/-- An IP packet: its total length is a 16-bit field. -/
structure Packet where
  raw : Bytes
  fits : raw.length ≤ maxPayloadSize

/-- One side's state. `handed` is what reached the TUN device (client) or
the forwarder (server); `log` is what was numbered as data. -/
structure Endpoint where
  session : Session
  sendBuffer : SendBuffer
  recvBuffer : ReceiveBuffer
  unackedChunks : Nat
  handed : List Bytes
  log : List (UInt64 × Bytes)

structure Tunnel where
  client : Endpoint
  server : Endpoint
  /-- The server's channel from its reader to its writer. -/
  ackQueue : List ControlMessage
  toServer : List Bytes
  toClient : List Bytes
  clientRunning : Bool
  serverReading : Bool
  serverWriting : Bool

namespace Endpoint

def start (id : SessionId) (keys : SessionKeys) : Endpoint where
  session := .new id keys
  sendBuffer := .withDefaultCapacity
  recvBuffer := .withDefaultCapacity
  unackedChunks := 0
  handed := []
  log := []

variable (P : Primitives)

/-- Encrypt a packet, retain it (a refusal is only logged), and return the
frame to send. -/
def sendPacket (e : Endpoint) (isClient : Bool) (packet : Packet) (r : UInt8) (rnd : Rand) :
    Option (Bytes × Endpoint) :=
  let sequence := e.session.sendNonceValue
  match e.session.encryptOutgoing P (Chunk.newData packet.raw r) isClient rnd with
  | .error _ => none
  | .ok (bytes, session) =>
      let sendBuffer :=
        match e.sendBuffer.push sequence bytes with
        | .ok sendBuffer => sendBuffer
        | .error _ => e.sendBuffer
      some (bytes, { e with session, sendBuffer, log := e.log ++ [(sequence, packet.raw)] })

def sendControl (e : Endpoint) (isClient : Bool) (message : ControlMessage) (r : UInt8)
    (rnd : Rand) : Option (Bytes × Endpoint) :=
  match e.session.encryptOutgoing P (Chunk.newControl message.encode r) isClient rnd with
  | .error _ => none
  | .ok (bytes, session) => some (bytes, { e with session })

def applyAck (e : Endpoint) (next : UInt64) (ranges : List SackRange) : Endpoint :=
  { e with sendBuffer := (e.sendBuffer.applyAck next ranges).2 }

/-- Hand on what the reorder buffer has ready. -/
def handOn (e : Endpoint) (recv : ReceiveBuffer) : Endpoint :=
  { e with recvBuffer := recv.drainReady.2, handed := e.handed ++ recv.drainReady.1 }

/-- The client's `ChunkType::Data` arm, with the frames it sends. A
duplicate counts towards the next acknowledgement. -/
def clientData (e : Endpoint) (chunk : Chunk) (elapsed : Bool) (r : UInt8) (rnd : Rand) :
    Endpoint × List Bytes :=
  match e.recvBuffer.accept chunk.header.sequence chunk.payload with
  | .error _ => (e, [])
  | .ok (outcome, recv) =>
      let e := if outcome = .duplicate then { e with recvBuffer := recv } else e.handOn recv
      if e.unackedChunks + 1 ≥ ackEveryNChunks || elapsed then
        let e := { e with unackedChunks := 0 }
        match e.sendControl P true e.recvBuffer.buildAck r rnd with
        | some (bytes, e) => (e, [bytes])
        | none => (e, [])
      else ({ e with unackedChunks := e.unackedChunks + 1 }, [])

/-- The server's `ChunkType::Data` arm, with the acknowledgement it queues.
A duplicate is not counted. -/
def serverData (e : Endpoint) (chunk : Chunk) (elapsed : Bool) : Endpoint × List ControlMessage :=
  match e.recvBuffer.accept chunk.header.sequence chunk.payload with
  | .error _ => (e, [])
  | .ok (.duplicate, recv) => ({ e with recvBuffer := recv }, [])
  | .ok (_, recv) =>
      let e := e.handOn recv
      if e.unackedChunks + 1 ≥ ackEveryNChunks || elapsed then
        ({ e with unackedChunks := 0 }, [e.recvBuffer.buildAck])
      else ({ e with unackedChunks := e.unackedChunks + 1 }, [])

/-- The client's dispatch on the type of an inbound chunk. -/
def clientDispatch (e : Endpoint) (chunk : Chunk) (elapsed : Bool) (r : UInt8) (rnd : Rand) :
    Endpoint × List Bytes :=
  match chunk.header.chunkType with
  | .control =>
      match ControlMessage.decode chunk.payload with
      | .ok (.ack next ranges) => (e.applyAck next ranges, [])
      | _ => (e, [])
  | .data => e.clientData P chunk elapsed r rnd
  | _ => (e, [])

/-- The server's dispatch, with the control messages it queues. -/
def serverDispatch (e : Endpoint) (chunk : Chunk) (elapsed : Bool) :
    Endpoint × List ControlMessage :=
  match chunk.header.chunkType with
  | .data => e.serverData chunk elapsed
  | .control =>
      match ControlMessage.decode chunk.payload with
      | .ok (.ack next ranges) => (e.applyAck next ranges, [])
      | .ok (.ping timestamp) => (e, [.pong timestamp])
      | _ => (e, [])
  | _ => (e, [])

variable {P} {keys : SessionKeys}

/-! ## What sending does -/

section
variable {e e' : Endpoint} {isClient : Bool} {r : UInt8} {rnd : Rand} {bytes : Bytes}
  {wire : List Bytes} {recv : ReceiveBuffer} {handed : List Bytes}

theorem sendPacket_isSome (e : Endpoint) (isClient : Bool) (packet : Packet) (r : UInt8)
    (rnd : Rand) :
    (e.sendPacket P isClient packet r rnd).isSome
      = (e.session.encryptOutgoing P (Chunk.newData packet.raw r) isClient rnd).isOk := by
  unfold sendPacket
  cases e.session.encryptOutgoing P (Chunk.newData packet.raw r) isClient rnd <;> rfl

/-- What the sender of a flow keeps of an endpoint it sends from. -/
structure Sent (e e' : Endpoint) : Prop where
  keys : e'.session.keys = e.session.keys
  recvBuffer : e'.recvBuffer = e.recvBuffer
  handed : e'.handed = e.handed

theorem sendPacket_spec (hP : P.Lawful) (hkeys : e.session.keys = keys) {packet : Packet}
    (hf : Flow P (Session.writeKey keys isClient) e.session e.log wire recv handed)
    (h : e.sendPacket P isClient packet r rnd = some (bytes, e')) :
    Sent e e' ∧ e'.log = e.log ++ [(e.session.sendSeq, packet.raw)]
      ∧ Flow P (Session.writeKey keys isClient) e'.session e'.log (wire ++ [bytes]) recv handed := by
  simp only [sendPacket] at h
  split at h
  · cases h
  rename_i bytes' session henc
  obtain ⟨rfl, rfl⟩ := Prod.mk.inj (Option.some.inj h)
  obtain ⟨hseal, hlt, hsucc, hkeys'⟩ := Session.encryptOutgoing_eq_ok henc
  have hdec := Chunk.decodeSequenced_encodeSequenced hP
    (Chunk.wellFormed_withPadding packet.fits) hseal
  rw [hkeys] at hdec
  exact ⟨⟨hkeys', rfl, rfl⟩, rfl, hf.sendData hdec rfl rfl hsucc hlt⟩

theorem sendControl_spec (hP : P.Lawful) (hkeys : e.session.keys = keys)
    {message : ControlMessage} (hfits : message.encode.length ≤ maxPayloadSize)
    (hf : Flow P (Session.writeKey keys isClient) e.session e.log wire recv handed)
    (h : e.sendControl P isClient message r rnd = some (bytes, e')) :
    Sent e e' ∧ e'.log = e.log
      ∧ Flow P (Session.writeKey keys isClient) e'.session e'.log (wire ++ [bytes]) recv handed := by
  simp only [sendControl] at h
  split at h
  · cases h
  rename_i bytes' session henc
  obtain ⟨rfl, rfl⟩ := Prod.mk.inj (Option.some.inj h)
  obtain ⟨hseal, hlt, hsucc, hkeys'⟩ := Session.encryptOutgoing_eq_ok henc
  have hdec := Chunk.decodeSequenced_encodeSequenced hP (Chunk.wellFormed_withPadding hfits) hseal
  rw [hkeys] at hdec
  exact ⟨⟨hkeys', rfl, rfl⟩, rfl, hf.sendControl hdec rfl hsucc hlt⟩

end

/-! ## What receiving does -/

section
variable {e : Endpoint} {sender : Session} {log : List (UInt64 × Bytes)} {key : Key}
  {frame : Bytes} {frames : List Bytes} {chunk : Chunk}

/-- What receiving does to an endpoint, apart from what it sends in answer:
only the reorder buffer and what was handed on follow the flow. -/
structure Absorbed (P : Primitives) (key : Key) (sender : Session) (log : List (UInt64 × Bytes))
    (frames : List Bytes) (e e' : Endpoint) : Prop where
  sameSession : e'.session = e.session
  sameLog : e'.log = e.log
  flow : Flow P key sender log frames e'.recvBuffer e'.handed

/-- The state after `accept` and handing on what is ready. -/
theorem absorbed_accept {outcome : Received} {recv : ReceiveBuffer}
    (hf : Flow P key sender log (frame :: frames) e.recvBuffer e.handed)
    (hdec : Chunk.decodeSequenced P frame key = .ok chunk) (ht : chunk.header.chunkType = .data)
    (hacc : e.recvBuffer.accept chunk.header.sequence chunk.payload = .ok (outcome, recv)) :
    Absorbed P key sender log frames e (e.handOn recv)
      ∧ (outcome = .duplicate →
          Absorbed P key sender log frames e { e with recvBuffer := recv }) := by
  rcases hf.recvData hdec ht with ⟨err, herr, -⟩ | ⟨o, r, hok, hdup, hflow⟩
  · rw [hacc] at herr
    cases herr
  · obtain ⟨rfl, rfl⟩ := Prod.mk.inj (Except.ok.inj (hacc.symm.trans hok))
    refine ⟨⟨rfl, rfl, hflow⟩, fun ho => ⟨rfl, rfl, ?_⟩⟩
    obtain rfl := hdup ho
    rw [ReceiveBuffer.drainReady_of_nil hf.ready, hf.ready, List.append_nil] at hflow
    exact hflow

theorem absorbed_error {err : ProtocolError}
    (hf : Flow P key sender log (frame :: frames) e.recvBuffer e.handed)
    (hdec : Chunk.decodeSequenced P frame key = .ok chunk) (ht : chunk.header.chunkType = .data)
    (hacc : e.recvBuffer.accept chunk.header.sequence chunk.payload = .error err) :
    Absorbed P key sender log frames e e := by
  rcases hf.recvData hdec ht with ⟨-, -, -, hflow⟩ | ⟨o, r, hok, -⟩
  · exact ⟨rfl, rfl, hflow⟩
  · rw [hacc] at hok
    cases hok

theorem serverData_spec (hf : Flow P key sender log (frame :: frames) e.recvBuffer e.handed)
    (hdec : Chunk.decodeSequenced P frame key = .ok chunk) (ht : chunk.header.chunkType = .data)
    (elapsed : Bool) :
    Absorbed P key sender log frames e (e.serverData chunk elapsed).1
      ∧ ∀ m ∈ (e.serverData chunk elapsed).2, m.encode.length ≤ maxPayloadSize := by
  unfold serverData
  split
  · rename_i hacc
    exact ⟨absorbed_error hf hdec ht hacc, by simp⟩
  · rename_i hacc
    exact ⟨(absorbed_accept hf hdec ht hacc).2 rfl, by simp⟩
  · rename_i recv _ hacc
    have h := (absorbed_accept hf hdec ht hacc).1
    simp only
    split
    · refine ⟨⟨h.sameSession, h.sameLog, h.flow⟩, fun m hm => ?_⟩
      rw [List.mem_singleton.mp hm]
      exact ReceiveBuffer.length_encode_buildAck _
    · exact ⟨⟨h.sameSession, h.sameLog, h.flow⟩, by simp⟩

theorem serverDispatch_spec (hf : Flow P key sender log (frame :: frames) e.recvBuffer e.handed)
    (hdec : Chunk.decodeSequenced P frame key = .ok chunk) (elapsed : Bool) :
    Absorbed P key sender log frames e (e.serverDispatch chunk elapsed).1
      ∧ ∀ m ∈ (e.serverDispatch chunk elapsed).2, m.encode.length ≤ maxPayloadSize := by
  unfold serverDispatch
  split
  · rename_i ht
    exact serverData_spec hf hdec ht elapsed
  · rename_i ht
    have hflow := hf.recvControl hdec (by rw [ht]; decide)
    split
    · exact ⟨⟨rfl, rfl, hflow⟩, by simp⟩
    · refine ⟨⟨rfl, rfl, hflow⟩, fun m hm => ?_⟩
      rw [List.mem_singleton.mp hm]
      simp [ControlMessage.encode, maxPayloadSize]
    · exact ⟨⟨rfl, rfl, hflow⟩, by simp⟩
  · rename_i hdata _
    exact ⟨⟨rfl, rfl, hf.recvControl hdec hdata⟩, by simp⟩

/-- The client's arm both absorbs a frame and may send one: an
acknowledgement, numbered like everything it sends. -/
theorem clientData_spec (hP : P.Lawful) (hkeys : e.session.keys = keys)
    {wire : List Bytes} {recv : ReceiveBuffer} {handed : List Bytes}
    (hup : Flow P (Session.writeKey keys true) e.session e.log wire recv handed)
    (hf : Flow P key sender log (frame :: frames) e.recvBuffer e.handed)
    (hdec : Chunk.decodeSequenced P frame key = .ok chunk) (ht : chunk.header.chunkType = .data)
    (elapsed : Bool) (r : UInt8) (rnd : Rand) :
    (e.clientData P chunk elapsed r rnd).1.session.keys = keys
      ∧ (e.clientData P chunk elapsed r rnd).1.log = e.log
      ∧ Flow P key sender log frames (e.clientData P chunk elapsed r rnd).1.recvBuffer
          (e.clientData P chunk elapsed r rnd).1.handed
      ∧ Flow P (Session.writeKey keys true) (e.clientData P chunk elapsed r rnd).1.session
          (e.clientData P chunk elapsed r rnd).1.log
          (wire ++ (e.clientData P chunk elapsed r rnd).2) recv handed := by
  unfold clientData
  split
  · rename_i hacc
    exact ⟨hkeys, rfl, (absorbed_error hf hdec ht hacc).flow, by simpa using hup⟩
  · rename_i outcome recv' hacc
    obtain ⟨hhand, hdup⟩ := absorbed_accept hf hdec ht hacc
    have habs : Absorbed P key sender log frames e
        (if outcome = .duplicate then { e with recvBuffer := recv' } else e.handOn recv') := by
      split
      · exact hdup ‹_›
      · exact hhand
    revert habs
    generalize (if outcome = .duplicate then { e with recvBuffer := recv' } else e.handOn recv')
      = e₁
    intro habs
    have hkeys₁ : e₁.session.keys = keys := by rw [habs.sameSession, hkeys]
    have hup₁ : Flow P (Session.writeKey keys true) e₁.session e₁.log wire recv handed := by
      rw [habs.sameSession, habs.sameLog]
      exact hup
    simp only
    split
    · cases hsend : ({ e₁ with unackedChunks := 0 } : Endpoint).sendControl P true
          e₁.recvBuffer.buildAck r rnd with
      | none => exact ⟨hkeys₁, habs.sameLog, habs.flow, by rw [List.append_nil]; exact hup₁⟩
      | some res =>
          obtain ⟨bytes, e₂⟩ := res
          obtain ⟨hsent, hlog, hup₂⟩ := sendControl_spec (e := { e₁ with unackedChunks := 0 }) hP
            hkeys₁ (ReceiveBuffer.length_encode_buildAck _) hup₁ hsend
          refine ⟨hsent.keys.trans hkeys₁, hlog.trans habs.sameLog, ?_, hup₂⟩
          simp only [hsent.recvBuffer, hsent.handed]
          exact habs.flow
    · exact ⟨hkeys₁, habs.sameLog, habs.flow, by rw [List.append_nil]; exact hup₁⟩

theorem clientDispatch_spec (hP : P.Lawful) (hkeys : e.session.keys = keys)
    {wire : List Bytes} {recv : ReceiveBuffer} {handed : List Bytes}
    (hup : Flow P (Session.writeKey keys true) e.session e.log wire recv handed)
    (hf : Flow P key sender log (frame :: frames) e.recvBuffer e.handed)
    (hdec : Chunk.decodeSequenced P frame key = .ok chunk) (elapsed : Bool) (r : UInt8)
    (rnd : Rand) :
    (e.clientDispatch P chunk elapsed r rnd).1.session.keys = keys
      ∧ (e.clientDispatch P chunk elapsed r rnd).1.log = e.log
      ∧ Flow P key sender log frames (e.clientDispatch P chunk elapsed r rnd).1.recvBuffer
          (e.clientDispatch P chunk elapsed r rnd).1.handed
      ∧ Flow P (Session.writeKey keys true) (e.clientDispatch P chunk elapsed r rnd).1.session
          (e.clientDispatch P chunk elapsed r rnd).1.log
          (wire ++ (e.clientDispatch P chunk elapsed r rnd).2) recv handed := by
  unfold clientDispatch
  split
  · rename_i ht
    have hflow := hf.recvControl hdec (by rw [ht]; decide)
    split <;> exact ⟨hkeys, rfl, hflow, by rw [List.append_nil]; exact hup⟩
  · rename_i ht
    exact clientData_spec hP hkeys hup hf hdec ht elapsed r rnd
  · rename_i _ hdata
    exact ⟨hkeys, rfl, hf.recvControl hdec hdata, by simpa using hup⟩

end

end Endpoint

namespace Tunnel

def start (id : SessionId) (keys : SessionKeys) : Tunnel where
  client := .start id keys
  server := .start id keys
  ackQueue := []
  toServer := []
  toClient := []
  clientRunning := true
  serverReading := true
  serverWriting := true

inductive Event where
  | clientPacket (packet : Packet) (r : UInt8) (rnd : Rand)
  | clientProbe (timestamp : UInt64) (r : UInt8) (rnd : Rand)
  | clientRead (elapsed : Bool) (r : UInt8) (rnd : Rand)
  | serverPacket (packet : Packet) (r : UInt8) (rnd : Rand)
  | serverControl (r : UInt8) (rnd : Rand)
  | serverRead (elapsed : Bool)

variable (P : Primitives)

def clientRead (t : Tunnel) (elapsed : Bool) (r : UInt8) (rnd : Rand) : Option Tunnel :=
  match t.toClient with
  | [] => none
  | frame :: frames =>
      match t.client.session.decryptIncoming P frame true with
      | .error _ => some { t with toClient := frames }
      | .ok (chunk, session) =>
          let (client, sent) := { t.client with session }.clientDispatch P chunk elapsed r rnd
          some { t with client, toClient := frames, toServer := t.toServer ++ sent }

-- a frame that does not decrypt, or a writer that is gone, ends the loop
def serverRead (t : Tunnel) (elapsed : Bool) : Option Tunnel :=
  match t.toServer with
  | [] => none
  | frame :: frames =>
      match t.server.session.decryptIncoming P frame false with
      | .error _ => some { t with toServer := frames, serverReading := false }
      | .ok (chunk, session) =>
          let (server, queued) := { t.server with session }.serverDispatch chunk elapsed
          if t.serverWriting || queued.isEmpty then
            some { t with server, toServer := frames, ackQueue := t.ackQueue ++ queued }
          else some { t with server, toServer := frames, serverReading := false }

def step (t : Tunnel) : Event → Option Tunnel
  | .clientPacket packet r rnd =>
      if t.clientRunning && !t.client.sendBuffer.isFull then
        match t.client.sendPacket P true packet r rnd with
        | some (bytes, client) => some { t with client, toServer := t.toServer ++ [bytes] }
        | none => some { t with clientRunning := false }
      else none
  | .clientProbe timestamp r rnd =>
      if t.clientRunning then
        match t.client.sendControl P true (.ping timestamp) r rnd with
        | some (bytes, client) => some { t with client, toServer := t.toServer ++ [bytes] }
        | none => some t
      else none
  | .clientRead elapsed r rnd => if t.clientRunning then t.clientRead P elapsed r rnd else none
  | .serverPacket packet r rnd =>
      if t.serverWriting then
        match t.server.sendPacket P false packet r rnd with
        | some (bytes, server) => some { t with server, toClient := t.toClient ++ [bytes] }
        | none => some { t with serverWriting := false }
      else none
  | .serverControl r rnd =>
      match t.serverWriting, t.ackQueue with
      | true, message :: queue =>
          match t.server.sendControl P false message r rnd with
          | some (bytes, server) =>
              some { t with server, ackQueue := queue, toClient := t.toClient ++ [bytes] }
          | none => some { t with ackQueue := queue, serverWriting := false }
      | _, _ => none
  | .serverRead elapsed => if t.serverReading then t.serverRead P elapsed else none

/-! ## The property, and when it holds -/

/-- Every payload numbered as data has been handed on, once and in order,
and nothing is held behind a gap. -/
def HandedOn (t : Tunnel) : Prop :=
  t.server.handed = t.client.log.map Prod.snd ∧ t.client.handed = t.server.log.map Prod.snd
    ∧ t.server.recvBuffer.pending.isEmpty = true ∧ t.client.recvBuffer.pending.isEmpty = true

/-- A packet is numbered only while every number its side has used was used
for a packet. -/
def DataFirst (t : Tunnel) : Event → Prop
  | .clientPacket packet r rnd =>
      (t.client.session.encryptOutgoing P (Chunk.newData packet.raw r) true rnd).isOk = true →
        t.client.session.sendSeq.toNat = t.client.log.length
  | .serverPacket packet r rnd =>
      (t.server.session.encryptOutgoing P (Chunk.newData packet.raw r) false rnd).isOk = true →
        t.server.session.sendSeq.toNat = t.server.log.length
  | _ => True

instance (t : Tunnel) : Decidable t.HandedOn := inferInstanceAs (Decidable (_ ∧ _ ∧ _ ∧ _))

/-- Both directions flow, and what the server queues fits in a chunk. -/
structure Inv (keys : SessionKeys) (t : Tunnel) : Prop where
  clientKeys : t.client.session.keys = keys
  serverKeys : t.server.session.keys = keys
  up : Flow P (Session.writeKey keys true) t.client.session t.client.log t.toServer
    t.server.recvBuffer t.server.handed
  down : Flow P (Session.writeKey keys false) t.server.session t.server.log t.toClient
    t.client.recvBuffer t.client.handed
  queue : ∀ message ∈ t.ackQueue, message.encode.length ≤ maxPayloadSize

/-- Neither side has numbered a control chunk before a data chunk. -/
def NoGap (t : Tunnel) : Prop := Contiguous t.client.log ∧ Contiguous t.server.log

variable {P} {keys : SessionKeys}

theorem inv_start (id : SessionId) (keys : SessionKeys) : (start id keys).Inv P keys where
  clientKeys := rfl
  serverKeys := rfl
  up := Flow.start id keys _
  down := Flow.start id keys _
  queue _ h := by cases h

/-! ## Every event keeps the invariant -/

theorem inv_clientPacket (hP : P.Lawful) {t : Tunnel} (hi : t.Inv P keys) {packet : Packet}
    {r : UInt8} {rnd : Rand} {bytes : Bytes} {client : Endpoint}
    (h : t.client.sendPacket P true packet r rnd = some (bytes, client)) :
    Inv P keys { t with client, toServer := t.toServer ++ [bytes] } := by
  obtain ⟨hsent, -, hflow⟩ := Endpoint.sendPacket_spec hP hi.clientKeys hi.up h
  refine ⟨hsent.keys.trans hi.clientKeys, hi.serverKeys, hflow, ?_, hi.queue⟩
  simp only [hsent.recvBuffer, hsent.handed]
  exact hi.down

theorem inv_clientControl (hP : P.Lawful) {t : Tunnel} (hi : t.Inv P keys)
    {message : ControlMessage} (hfits : message.encode.length ≤ maxPayloadSize)
    {r : UInt8} {rnd : Rand} {bytes : Bytes} {client : Endpoint}
    (h : t.client.sendControl P true message r rnd = some (bytes, client)) :
    Inv P keys { t with client, toServer := t.toServer ++ [bytes] } := by
  obtain ⟨hsent, -, hflow⟩ := Endpoint.sendControl_spec hP hi.clientKeys hfits hi.up h
  refine ⟨hsent.keys.trans hi.clientKeys, hi.serverKeys, hflow, ?_, hi.queue⟩
  simp only [hsent.recvBuffer, hsent.handed]
  exact hi.down

theorem inv_serverPacket (hP : P.Lawful) {t : Tunnel} (hi : t.Inv P keys) {packet : Packet}
    {r : UInt8} {rnd : Rand} {bytes : Bytes} {server : Endpoint}
    (h : t.server.sendPacket P false packet r rnd = some (bytes, server)) :
    Inv P keys { t with server, toClient := t.toClient ++ [bytes] } := by
  obtain ⟨hsent, -, hflow⟩ := Endpoint.sendPacket_spec hP hi.serverKeys hi.down h
  refine ⟨hi.clientKeys, hsent.keys.trans hi.serverKeys, ?_, hflow, hi.queue⟩
  simp only [hsent.recvBuffer, hsent.handed]
  exact hi.up

theorem inv_serverControl (hP : P.Lawful) {t : Tunnel} (hi : t.Inv P keys)
    {message : ControlMessage} {queue : List ControlMessage} (hq : t.ackQueue = message :: queue)
    {r : UInt8} {rnd : Rand} {bytes : Bytes} {server : Endpoint}
    (h : t.server.sendControl P false message r rnd = some (bytes, server)) :
    Inv P keys { t with server, ackQueue := queue, toClient := t.toClient ++ [bytes] } := by
  have hfits := hi.queue message (by rw [hq]; exact List.mem_cons_self)
  obtain ⟨hsent, -, hflow⟩ := Endpoint.sendControl_spec hP hi.serverKeys hfits
    hi.down h
  refine ⟨hi.clientKeys, hsent.keys.trans hi.serverKeys, ?_, hflow,
    fun m hm => hi.queue m (by rw [hq]; exact List.mem_cons_of_mem _ hm)⟩
  simp only [hsent.recvBuffer, hsent.handed]
  exact hi.up

/-- Reading a frame: it decrypts, the state follows the dispatch, and
nothing is numbered as data. -/
theorem clientRead_spec (hP : P.Lawful) {t t' : Tunnel} (hi : t.Inv P keys) {elapsed : Bool}
    {r : UInt8} {rnd : Rand} (h : t.clientRead P elapsed r rnd = some t') :
    t'.Inv P keys ∧ t'.client.log = t.client.log ∧ t'.server.log = t.server.log := by
  simp only [clientRead] at h
  split at h
  · cases h
  rename_i frame frames hwire
  have hdown := hi.down
  rw [hwire] at hdown
  obtain ⟨chunk, hdec⟩ := hdown.head_decodes
  have hkey : Session.readKey t.client.session.keys true = Session.writeKey keys false := by
    rw [hi.clientKeys]; rfl
  obtain ⟨session, hin, hskeys, hsseq⟩ := Session.decryptIncoming_of_decode (hkey ▸ hdec)
  rw [hin] at h
  obtain rfl := Option.some.inj h
  obtain ⟨h1, h2, h3, h4⟩ := Endpoint.clientDispatch_spec (e := { t.client with session }) hP
    (hskeys.trans hi.clientKeys) (hi.up.of_sendSeq hsseq) hdown hdec elapsed r rnd
  exact ⟨⟨h1, hi.serverKeys, h4, h3, hi.queue⟩, h2, rfl⟩

theorem serverRead_spec {t t' : Tunnel} (hi : t.Inv P keys) {elapsed : Bool}
    (h : t.serverRead P elapsed = some t') :
    t'.Inv P keys ∧ t'.client.log = t.client.log ∧ t'.server.log = t.server.log := by
  simp only [serverRead] at h
  split at h
  · cases h
  rename_i frame frames hwire
  have hup := hi.up
  rw [hwire] at hup
  obtain ⟨chunk, hdec⟩ := hup.head_decodes
  have hkey : Session.readKey t.server.session.keys false = Session.writeKey keys true := by
    rw [hi.serverKeys]; rfl
  obtain ⟨session, hin, hskeys, hsseq⟩ := Session.decryptIncoming_of_decode (hkey ▸ hdec)
  rw [hin] at h
  obtain ⟨habs, hqueue⟩ := Endpoint.serverDispatch_spec (e := { t.server with session }) hup hdec
    elapsed
  have hkeys := (congrArg Session.keys habs.sameSession).trans (hskeys.trans hi.serverKeys)
  have hdown := hi.down.of_sendSeq ((congrArg Session.sendSeq habs.sameSession).trans hsseq)
  simp only at h
  split at h
  · obtain rfl := Option.some.inj h
    refine ⟨⟨hi.clientKeys, hkeys, habs.flow, ?_, fun m hm => ?_⟩, rfl, habs.sameLog⟩
    · simp only [habs.sameLog]
      exact hdown
    · rcases List.mem_append.mp hm with hm | hm
      · exact hi.queue m hm
      · exact hqueue m hm
  · obtain rfl := Option.some.inj h
    refine ⟨⟨hi.clientKeys, hkeys, habs.flow, ?_, hi.queue⟩, rfl, habs.sameLog⟩
    simp only [habs.sameLog]
    exact hdown

/-- What one event does to the two logs. -/
inductive Logged (t t' : Tunnel) : Event → Prop where
  | clientPacket {packet : Packet} {r : UInt8} {rnd : Rand} :
      (t.client.session.encryptOutgoing P (Chunk.newData packet.raw r) true rnd).isOk = true →
      t'.client.log = t.client.log ++ [(t.client.session.sendSeq, packet.raw)] →
      t'.server.log = t.server.log → Logged t t' (.clientPacket packet r rnd)
  | serverPacket {packet : Packet} {r : UInt8} {rnd : Rand} :
      (t.server.session.encryptOutgoing P (Chunk.newData packet.raw r) false rnd).isOk = true →
      t'.server.log = t.server.log ++ [(t.server.session.sendSeq, packet.raw)] →
      t'.client.log = t.client.log → Logged t t' (.serverPacket packet r rnd)
  | nothing {e : Event} : t.DataFirst P e → t'.client.log = t.client.log →
      t'.server.log = t.server.log → Logged t t' e

theorem step_spec (hP : P.Lawful) {t t' : Tunnel} (hi : t.Inv P keys) {e : Event}
    (h : t.step P e = some t') : t'.Inv P keys ∧ Logged (P := P) t t' e := by
  cases e with
  | clientPacket packet r rnd =>
      simp only [step] at h
      split at h
      · cases hsend : t.client.sendPacket P true packet r rnd with
        | none =>
            rw [hsend] at h
            obtain rfl := Option.some.inj h
            refine ⟨⟨hi.clientKeys, hi.serverKeys, hi.up, hi.down, hi.queue⟩,
              .nothing (fun hok => ?_) rfl rfl⟩
            rw [← Endpoint.sendPacket_isSome, hsend] at hok
            cases hok
        | some res =>
            obtain ⟨bytes, client⟩ := res
            rw [hsend] at h
            obtain rfl := Option.some.inj h
            obtain ⟨-, hlog, -⟩ := Endpoint.sendPacket_spec hP hi.clientKeys hi.up hsend
            have hok := Endpoint.sendPacket_isSome (P := P) t.client true packet r rnd
            rw [hsend] at hok
            exact ⟨inv_clientPacket hP hi hsend, .clientPacket hok.symm hlog rfl⟩
      · cases h
  | clientProbe timestamp r rnd =>
      simp only [step] at h
      split at h
      · cases hsend : t.client.sendControl P true (.ping timestamp) r rnd with
        | none =>
            rw [hsend] at h
            obtain rfl := Option.some.inj h
            exact ⟨hi, .nothing trivial rfl rfl⟩
        | some res =>
            obtain ⟨bytes, client⟩ := res
            rw [hsend] at h
            obtain rfl := Option.some.inj h
            have hfits : (ControlMessage.ping timestamp).encode.length ≤ maxPayloadSize := by
              simp [ControlMessage.encode, maxPayloadSize]
            obtain ⟨-, hlog, -⟩ := Endpoint.sendControl_spec hP hi.clientKeys hfits hi.up hsend
            exact ⟨inv_clientControl hP hi hfits hsend, .nothing trivial hlog rfl⟩
      · cases h
  | clientRead elapsed r rnd =>
      simp only [step] at h
      split at h
      · obtain ⟨hi', h1, h2⟩ := clientRead_spec hP hi h
        exact ⟨hi', .nothing trivial h1 h2⟩
      · cases h
  | serverPacket packet r rnd =>
      simp only [step] at h
      split at h
      · cases hsend : t.server.sendPacket P false packet r rnd with
        | none =>
            rw [hsend] at h
            obtain rfl := Option.some.inj h
            refine ⟨⟨hi.clientKeys, hi.serverKeys, hi.up, hi.down, hi.queue⟩,
              .nothing (fun hok => ?_) rfl rfl⟩
            rw [← Endpoint.sendPacket_isSome, hsend] at hok
            cases hok
        | some res =>
            obtain ⟨bytes, server⟩ := res
            rw [hsend] at h
            obtain rfl := Option.some.inj h
            obtain ⟨-, hlog, -⟩ := Endpoint.sendPacket_spec hP hi.serverKeys
              hi.down hsend
            have hok := Endpoint.sendPacket_isSome (P := P) t.server false packet r rnd
            rw [hsend] at hok
            exact ⟨inv_serverPacket hP hi hsend, .serverPacket hok.symm hlog rfl⟩
      · cases h
  | serverControl r rnd =>
      simp only [step] at h
      split at h
      · rename_i message queue hwriting hqueue
        cases hsend : t.server.sendControl P false message r rnd with
        | none =>
            rw [hsend] at h
            obtain rfl := Option.some.inj h
            refine ⟨⟨hi.clientKeys, hi.serverKeys, hi.up, hi.down, fun m hm => hi.queue m ?_⟩,
              .nothing trivial rfl rfl⟩
            rw [hqueue]
            exact List.mem_cons_of_mem _ hm
        | some res =>
            obtain ⟨bytes, server⟩ := res
            rw [hsend] at h
            obtain rfl := Option.some.inj h
            have hfits := hi.queue message (by rw [hqueue]; exact List.mem_cons_self)
            obtain ⟨-, hlog, -⟩ := Endpoint.sendControl_spec hP hi.serverKeys
              hfits hi.down hsend
            exact ⟨inv_serverControl hP hi hqueue hsend, .nothing trivial rfl hlog⟩
      · cases h
  | serverRead elapsed =>
      simp only [step] at h
      split at h
      · obtain ⟨hi', h1, h2⟩ := serverRead_spec hi h
        exact ⟨hi', .nothing trivial h1 h2⟩
      · cases h

/-- From a state without a gap, one event leaves no gap exactly when it
numbers data first. -/
theorem noGap_step {t t' : Tunnel} {e : Event} (hgap : t.NoGap) (h : Logged (P := P) t t' e) :
    t'.NoGap ↔ t.DataFirst P e := by
  cases h with
  | clientPacket hok hlog hsame =>
      rw [NoGap, hlog, hsame, contiguous_concat]
      exact ⟨fun h _ => h.1.2, fun h => ⟨⟨hgap.1, h hok⟩, hgap.2⟩⟩
  | serverPacket hok hlog hsame =>
      rw [NoGap, hlog, hsame, contiguous_concat]
      exact ⟨fun h _ => h.2.2, fun h => ⟨hgap.1, hgap.2, h hok⟩⟩
  | nothing hfirst hclient hserver =>
      rw [NoGap, hclient, hserver]
      exact ⟨fun _ => hfirst, fun _ => hgap⟩

/-- A gap stays. -/
theorem noGap_back {t t' : Tunnel} {e : Event} (h : Logged (P := P) t t' e) (hgap : t'.NoGap) :
    t.NoGap := by
  cases h with
  | clientPacket hok hlog hsame =>
      rw [NoGap, hlog, hsame] at hgap
      exact ⟨hgap.1.of_append, hgap.2⟩
  | serverPacket hok hlog hsame =>
      rw [NoGap, hlog, hsame] at hgap
      exact ⟨hgap.1, hgap.2.of_append⟩
  | nothing hfirst hclient hserver =>
      rw [NoGap, hclient, hserver] at hgap
      exact hgap

/-! ## Runs -/

theorem inv_exec (hP : P.Lawful) {t : Tunnel} {es : List Event} {id : SessionId}
    (h : exec (step P) (start id keys) es = some t) : t.Inv P keys :=
  exec_invariant (fun _ _ _ hi h => (step_spec hP hi h).1) (inv_start id keys) h

/-- Every packet of a run was numbered first exactly when the run ends
without a gap. -/
theorem meets_dataFirst_iff (hP : P.Lawful) {t s : Tunnel} {es : List Event} (hi : s.Inv P keys)
    (hgap : s.NoGap) (h : exec (step P) s es = some t) :
    Meets (step P) (DataFirst P) s es ↔ t.NoGap := by
  induction es generalizing s with
  | nil =>
      obtain rfl := Option.some.inj h
      exact ⟨fun _ => hgap, fun _ => trivial⟩
  | cons e es ih =>
      obtain ⟨m, hm, h⟩ := exec_cons.mp h
      obtain ⟨him, hlog⟩ := step_spec hP hi hm
      have hiff := noGap_step hgap hlog
      constructor
      · intro hmeets
        obtain ⟨hfirst, hrest⟩ := hmeets m hm
        exact (ih him (hiff.mpr hfirst) h).mp hrest
      · intro ht m' hm'
        obtain rfl := Option.some.inj (hm.symm.trans hm')
        have hgap' : m.NoGap := (always_of_last (fun _ _ _ hi h =>
          ⟨(step_spec hP hi h).1, noGap_back (step_spec hP hi h).2⟩) him h ht).head
        exact ⟨hiff.mp hgap', (ih him hgap' h).mpr ht⟩

/-- Once every frame sent has been read, everything numbered as data has
been handed on exactly when there is no gap. -/
theorem Inv.handedOn_iff {t : Tunnel} (hi : t.Inv P keys) (hserver : t.toServer = [])
    (hclient : t.toClient = []) : t.HandedOn ↔ t.NoGap := by
  have hup := hi.up
  have hdown := hi.down
  rw [hserver] at hup
  rw [hclient] at hdown
  constructor
  · rintro ⟨h1, h2, -, -⟩
    exact ⟨hup.contiguous_of_handed h1, hdown.contiguous_of_handed h2⟩
  · rintro ⟨h1, h2⟩
    obtain ⟨hu, hu'⟩ := hup.handed_of_contiguous h1
    obtain ⟨hd, hd'⟩ := hdown.handed_of_contiguous h2
    exact ⟨hu, hd, hu', hd'⟩

/-- In a run after which every frame sent has been read, no data is
stranded exactly when each side numbered all its data before any control
chunk. -/
theorem no_data_stranded_iff (hP : P.Lawful) (id : SessionId) (keys : SessionKeys)
    (es : List Event) (t : Tunnel) (hrun : exec (step P) (start id keys) es = some t)
    (hserver : t.toServer = []) (hclient : t.toClient = []) :
    t.HandedOn ↔ Meets (step P) (DataFirst P) (start id keys) es :=
  ((inv_exec hP hrun).handedOn_iff hserver hclient).trans
    (meets_dataFirst_iff hP (inv_start id keys) ⟨contiguous_nil, contiguous_nil⟩ hrun).symm

/-- One packet to the server, acknowledged. -/
def acknowledged : List Event :=
  [.clientPacket ⟨[0x45], by decide⟩ 0 fun _ => 0, .serverRead true, .serverControl 0 fun _ => 0,
    .clientRead false 0 fun _ => 0]

theorem isSome_acknowledged :
    (exec (step .plain) (start (zeroArr 16) plainKeys) acknowledged).isSome := by decide

theorem no_data_stranded_iff_acknowledged :
    (Option.get _ isSome_acknowledged).HandedOn ↔
      Meets (step .plain) (DataFirst .plain) (start (zeroArr 16) plainKeys) acknowledged :=
  no_data_stranded_iff Primitives.plain_lawful (zeroArr 16) plainKeys acknowledged _
    (Option.some_get isSome_acknowledged).symm (by decide) (by decide)

/-- A liveness probe, then a packet: the probe takes number 0, and the
packet waits for it in the server's reorder buffer. -/
def probeThenPacket : List Event :=
  [.clientProbe 0 0 fun _ => 0, .clientPacket ⟨[0x45], by decide⟩ 0 fun _ => 0, .serverRead false,
    .serverRead false]

theorem isSome_probeThenPacket :
    (exec (step .plain) (start (zeroArr 16) plainKeys) probeThenPacket).isSome := by decide

theorem probe_strands_data :
    ∃ t, exec (step .plain) (start (zeroArr 16) plainKeys) probeThenPacket = some t
      ∧ t.toServer = [] ∧ t.toClient = [] ∧ ¬ t.HandedOn :=
  ⟨Option.get _ isSome_probeThenPacket, (Option.some_get isSome_probeThenPacket).symm, by decide,
    by decide, by decide⟩

end Tunnel

end Kanrin
