import Kanrin.Lib.Run
import Kanrin.Lib.Parties
import Kanrin.Flow

/-!
# Forwarding from several connections

The read loops of `ClientSession::serve` in the server's `session.rs`. A
new connection evicts the writer of the old one, not its read loop, so any
number of loops feed one receive buffer and one forwarder.

A chunk is offered and what it makes ready is taken out under the buffer's
lock; the packets are forwarded after it, one at a time. So no packet is
taken out twice (`Inv`), and each loop holds a stretch of the stream. The
stream comes out in order if of what the loops hold the first packet is
always forwarded first (`Orderly`).
-/

namespace Kanrin

open Lib

namespace PacketForwarder

/-- Whether `send_to_internet` writes a packet to the TUN device. -/
def Forwardable (packet : Bytes) : Prop :=
  20 ≤ packet.length ∧ (packet.getD 0 0) >>> 4 = 4

instance (packet : Bytes) : Decidable (Forwardable packet) :=
  inferInstanceAs (Decidable (_ ∧ _))

end PacketForwarder

/-- Where a read loop waits. -/
inductive ReadPc where
  | reading
  /-- For the session, with a frame. -/
  | decrypting (data : Bytes)
  /-- For the receive buffer, with a chunk. -/
  | accepting (sequence : UInt64) (payload : Bytes)
  /-- For the forwarder, with the packets that are left. They are those of
  the sequences from `first` on, which the code does not keep. -/
  | forwarding (first : Nat) (packets : List Bytes)
  | closed
deriving DecidableEq

/-- The sequences a loop has taken out and not forwarded. -/
def ReadPc.held : ReadPc → List Nat
  | .forwarding first packets => List.range' first packets.length
  | _ => []

structure Forwarding where
  client : Session
  frames : List Bytes
  server : Session
  buffer : ReceiveBuffer
  loops : List ReadPc
  /-- What was passed to `send_to_internet`. -/
  forwarded : List Bytes
  /-- What that wrote to the TUN device. -/
  written : List Bytes
  /-- The client's data payloads, as they were numbered. -/
  log : List (UInt64 × Bytes)
  /-- The sequences of what was forwarded. -/
  passed : List Nat

namespace Forwarding

def start (id : SessionId) (keys : SessionKeys) (maxBytes : Nat) : Forwarding where
  client := .new id keys
  frames := []
  server := .new id keys
  buffer := .new maxBytes
  loops := []
  forwarded := []
  written := []
  log := []
  passed := []

inductive Event where
  | sendData (packet : Bytes) (r : UInt8) (rnd : Rand)
  | sendControl (payload : Bytes) (r : UInt8) (rnd : Rand)
  | sendPadding (size : UInt8) (rnd : Rand)
  | connect
  /-- The `k`th frame, whether or not it has come before. -/
  | read (i k : Nat)
  | disconnect (i : Nat)
  /-- `alive` is whether the queue of acknowledgements still is. -/
  | decrypt (i : Nat) (alive : Bool)
  | accept (i : Nat)
  /-- `ok` is whether the device takes the packet. -/
  | forward (i : Nat) (ok : Bool)
  | acknowledge (i : Nat) (alive : Bool)

def setLoop (t : Forwarding) (i : Nat) (pc : ReadPc) : Forwarding :=
  { t with loops := t.loops.modify i fun _ => pc }

def reading (alive : Bool) : ReadPc := if alive then .reading else .closed

variable (P : Primitives)

/-- The client encrypts a chunk; the data chunks are logged. -/
def send (t : Forwarding) (chunk : Chunk) (rnd : Rand) : Option Forwarding :=
  if chunk.payload.length ≤ maxPayloadSize then
    match t.client.encryptOutgoing P chunk true rnd with
    | .error _ => none
    | .ok (frame, client) =>
        let log :=
          if chunk.header.chunkType = .data then
            t.log ++ [(t.client.sendNonceValue, chunk.payload)]
          else t.log
        some { t with client, frames := t.frames ++ [frame], log }
  else none

/-- Under the buffer's lock. -/
def acceptChunk (t : Forwarding) (i : Nat) (sequence : UInt64) (payload : Bytes) : Forwarding :=
  match t.buffer.accept sequence payload with
  | .ok (.duplicate, buffer) => { t.setLoop i .reading with buffer }
  | .ok (_, buffer) =>
      let (ready, buffer) := buffer.drainReady
      { t.setLoop i (.forwarding t.buffer.nextExpected.toNat ready) with buffer }
  | .error _ => t.setLoop i .reading

def step (t : Forwarding) : Event → Option Forwarding
  | .sendData packet r rnd => t.send P (.newData packet r) rnd
  | .sendControl payload r rnd => t.send P (.newControl payload r) rnd
  | .sendPadding size rnd => t.send P (.newPadding size) rnd
  | .connect => some { t with loops := t.loops ++ [.reading] }
  | .read i k =>
      match t.loops[i]?, t.frames[k]? with
      | some .reading, some data => some (t.setLoop i (.decrypting data))
      | _, _ => none
  | .disconnect i =>
      match t.loops[i]? with
      | some .reading => some (t.setLoop i .closed)
      | _ => none
  | .decrypt i alive =>
      match t.loops[i]? with
      | some (.decrypting data) =>
          match t.server.decryptIncoming P data false with
          | .error _ => some (t.setLoop i .closed)
          | .ok (chunk, server) =>
              if chunk.header.chunkType = .data then
                some { t.setLoop i (.accepting chunk.header.sequence chunk.payload) with server }
              else some { t.setLoop i (reading alive) with server }
      | _ => none
  | .accept i =>
      match t.loops[i]? with
      | some (.accepting sequence payload) => some (t.acceptChunk i sequence payload)
      | _ => none
  | .forward i ok =>
      match t.loops[i]? with
      | some (.forwarding first (packet :: packets)) =>
          some { t.setLoop i (.forwarding (first + 1) packets) with
            forwarded := t.forwarded ++ [packet]
            written :=
              if PacketForwarder.Forwardable packet ∧ ok = true then t.written ++ [packet]
              else t.written
            passed := t.passed ++ [first] }
      | _ => none
  | .acknowledge i alive =>
      match t.loops[i]? with
      | some (.forwarding _ []) => some (t.setLoop i (reading alive))
      | _ => none

/-- The packets forwarded are the payloads of the client's data chunks,
each at most once and in the order they were numbered in. -/
structure InOrder (t : Forwarding) : Prop where
  numbered : t.log.Pairwise fun a b => a.1 < b.1
  forwarded : t.forwarded.Sublist (t.log.map Prod.snd)
  written : t.written.Sublist t.forwarded

instance (t : Forwarding) : Decidable t.InOrder :=
  decidable_of_iff ((t.log.Pairwise fun a b => a.1 < b.1)
      ∧ t.forwarded.Sublist (t.log.map Prod.snd) ∧ t.written.Sublist t.forwarded)
    ⟨fun h => ⟨h.1, h.2.1, h.2.2⟩, fun h => ⟨h.1, h.2, h.3⟩⟩

/-- A loop forwards a packet when no other loop holds one that comes before
it in the stream. -/
def Orderly (t : Forwarding) : Event → Prop
  | .forward i _ => ∀ pc ∈ t.loops[i]?, ∀ n ∈ pc.held.head?, ∀ pc' ∈ t.loops,
      ∀ m ∈ pc'.held, n ≤ m
  | _ => True

instance (t : Forwarding) : (e : Event) → Decidable (t.Orderly e)
  | .forward i _ => inferInstanceAs (Decidable (∀ pc ∈ t.loops[i]?, ∀ n ∈ pc.held.head?,
      ∀ pc' ∈ t.loops, ∀ m ∈ pc'.held, n ≤ m))
  | .sendData .. | .sendControl .. | .sendPadding .. | .connect | .read .. | .disconnect _
  | .decrypt .. | .accept _ | .acknowledge .. => isTrue trivial

/-! ## The invariant -/

/-- What holds of a loop. -/
def Sound (t : Forwarding) : ReadPc → Prop
  | .decrypting data => data ∈ t.frames
  | .accepting sequence payload => (sequence, payload) ∈ t.log
  | .forwarding first packets =>
      packets.map some = (List.range' first packets.length).map (content t.log)
        ∧ first + packets.length ≤ t.buffer.nextExpected.toNat
  | _ => True

structure Inv (keys : SessionKeys) (t : Forwarding) : Prop where
  clientKeys : t.client.keys = keys
  serverKeys : t.server.keys = keys
  sorted : t.log.Pairwise fun a b => a.1 < b.1
  numbered : ∀ e ∈ t.log, e.1 < t.client.sendSeq
  bound : t.client.sendSeq.toNat ≤ 2 ^ 64 - 2
  frames : ∀ frame ∈ t.frames, ∃ chunk,
    Chunk.decodeSequenced P frame (Session.writeKey keys true) = .ok chunk
      ∧ (chunk.header.chunkType = .data → (chunk.header.sequence, chunk.payload) ∈ t.log)
  ready : t.buffer.ready = []
  stream : ∃ drained, t.buffer.Tracks drained (content t.log)
  sound : ∀ pc ∈ t.loops, t.Sound pc
  disjoint : ∀ (i j : Nat) (pc pc' : ReadPc), i ≠ j → t.loops[i]? = some pc → t.loops[j]? = some pc' →
    ∀ n ∈ pc.held, n ∉ pc'.held
  forwarded : t.forwarded.map some = t.passed.map (content t.log)
  written : t.written.Sublist t.forwarded
  -- what was forwarded was taken out before, and is no longer held
  passedBelow : ∀ n ∈ t.passed, n < t.buffer.nextExpected.toNat
  once : t.passed.Nodup
  gone : ∀ pc ∈ t.loops, ∀ n ∈ pc.held, n ∉ t.passed

/-- What ascends so far, and will if the least packet held comes next. -/
structure Ascending (t : Forwarding) : Prop where
  passed : t.passed.Pairwise (· < ·)
  held : ∀ pc ∈ t.loops, ∀ n ∈ pc.held, ∀ m ∈ t.passed, m < n

variable {P} {keys : SessionKeys}

theorem inv_start (id : SessionId) (keys : SessionKeys) (maxBytes : Nat) :
    (start id keys maxBytes).Inv P keys where
  clientKeys := rfl
  serverKeys := rfl
  sorted := List.Pairwise.nil
  numbered _ h := by cases h
  bound := by simp [start, Session.new]
  frames _ h := by cases h
  ready := rfl
  stream := ⟨[], ReceiveBuffer.tracks_new ..⟩
  sound _ h := by cases h
  disjoint _ _ _ _ _ h := by cases h
  forwarded := rfl
  written := List.Sublist.refl _
  passedBelow _ h := by cases h
  once := List.nodup_nil
  gone _ h := by cases h

theorem ascending_start (id : SessionId) (keys : SessionKeys) (maxBytes : Nat) :
    (start id keys maxBytes).Ascending where
  passed := List.Pairwise.nil
  held _ h := by cases h

theorem Inv.inOrder {t : Forwarding} (h : t.Inv P keys) (hasc : t.Ascending) : t.InOrder where
  numbered := h.sorted
  forwarded := sublist_of_ascending h.sorted hasc.passed h.forwarded
  written := h.written

/-! ## Steps that take nothing out -/

theorem Sound.mono {t t' : Forwarding} {pc : ReadPc} (h : t.Sound pc)
    (hframes : ∀ frame ∈ t.frames, frame ∈ t'.frames) (hlog : ∀ e ∈ t.log, e ∈ t'.log)
    (hcontent : ∀ (payloads : List Bytes) (numbers : List Nat),
      payloads.map some = numbers.map (content t.log) →
        payloads.map some = numbers.map (content t'.log))
    (hnext : t.buffer.nextExpected.toNat ≤ t'.buffer.nextExpected.toNat) : t'.Sound pc := by
  cases pc with
  | decrypting data => exact hframes _ h
  | accepting sequence payload => exact hlog _ h
  | forwarding first packets => exact ⟨hcontent _ _ h.1, h.2.trans hnext⟩
  | reading => trivial
  | closed => trivial

/-- A loop that goes on to hold no more than it did. -/
theorem Inv.setLoop {t : Forwarding} (h : t.Inv P keys) {i : Nat} {pc p : ReadPc}
    (hi : t.loops[i]? = some pc) (hsound : t.Sound p) (hheld : ∀ n ∈ p.held, n ∈ pc.held) :
    (t.setLoop i p).Inv P keys where
  clientKeys := h.clientKeys
  serverKeys := h.serverKeys
  sorted := h.sorted
  numbered := h.numbered
  bound := h.bound
  frames := h.frames
  ready := h.ready
  stream := h.stream
  sound d hd := by
    rcases mem_modify_cases hd with ⟨_, -, rfl⟩ | ⟨j, -, hj⟩
    · exact hsound
    · exact h.sound d (List.mem_of_getElem? hj)
  disjoint j k d d' hjk hj hk n hn hn' := by
    rcases modify_cases hj with ⟨rfl, _, -, rfl⟩ | ⟨-, hj'⟩
    · rcases modify_cases hk with ⟨rfl, _, -, rfl⟩ | ⟨-, hk'⟩
      · exact hjk rfl
      · exact h.disjoint j k pc d' hjk hi hk' n (hheld n hn) hn'
    · rcases modify_cases hk with ⟨rfl, _, -, rfl⟩ | ⟨-, hk'⟩
      · exact h.disjoint j k d pc hjk hj' hi n hn (hheld n hn')
      · exact h.disjoint j k d d' hjk hj' hk' n hn hn'
  forwarded := h.forwarded
  written := h.written
  passedBelow := h.passedBelow
  once := h.once
  gone d hd n hn := by
    rcases mem_modify_cases hd with ⟨_, -, rfl⟩ | ⟨j, -, hj⟩
    · exact h.gone pc (List.mem_of_getElem? hi) n (hheld n hn)
    · exact h.gone d (List.mem_of_getElem? hj) n hn

theorem Ascending.setLoop {t : Forwarding} (h : t.Ascending) {i : Nat} {pc pc' : ReadPc}
    (hi : t.loops[i]? = some pc) (hheld : ∀ n ∈ pc'.held, n ∈ pc.held) :
    (t.setLoop i pc').Ascending where
  passed := h.passed
  held d hd n hn := by
    rcases mem_modify_cases hd with ⟨_, -, rfl⟩ | ⟨j, -, hj⟩
    · exact h.held pc (List.mem_of_getElem? hi) n (hheld n hn)
    · exact h.held d (List.mem_of_getElem? hj) n hn

theorem Inv.withServer {t : Forwarding} (h : t.Inv P keys) {server : Session}
    (hkeys : server.keys = keys) : Inv P keys { t with server } :=
  { h with serverKeys := hkeys }

theorem held_of_nil {pc pc' : ReadPc} (h : pc'.held = []) : ∀ n ∈ pc'.held, n ∈ pc.held := by
  rw [h]
  exact fun _ hn => nomatch hn

theorem held_reading (alive : Bool) : (reading alive).held = [] := by
  cases alive <;> rfl

theorem sound_reading (t : Forwarding) (alive : Bool) : t.Sound (reading alive) := by
  cases alive <;> trivial

/-! ## Sending -/

theorem Inv.send (hP : P.Lawful) {t t' : Forwarding} (h : t.Inv P keys) {chunk : Chunk}
    {rnd : Rand} (hc : chunk.payload.length ≤ maxPayloadSize → chunk.WellFormed)
    (ht : t.send P chunk rnd = some t') :
    t'.Inv P keys ∧ t'.loops = t.loops ∧ t'.passed = t.passed := by
  unfold Forwarding.send at ht
  split at ht
  · rename_i hfits
    split at ht
    · cases ht
    rename_i frame client henc
    obtain rfl := Option.some.inj ht
    obtain ⟨hseal, hlt, hsucc, hkeys⟩ := Session.encryptOutgoing_eq_ok henc
    rw [h.clientKeys] at hseal hkeys
    have hdec := Chunk.decodeSequenced_encodeSequenced hP (hc hfits) hseal
    have hnum : ∀ e ∈ t.log, e.1 < client.sendSeq := fun e he => by
      have := UInt64.lt_iff_toNat_lt.mp (h.numbered e he)
      rw [UInt64.lt_iff_toNat_lt]
      omega
    have hself : t.client.sendSeq < client.sendSeq := by
      rw [UInt64.lt_iff_toNat_lt]
      omega
    refine ⟨?_, rfl, rfl⟩
    by_cases hdata : chunk.header.chunkType = .data
    · rw [if_pos hdata]
      exact
        { clientKeys := hkeys
          serverKeys := h.serverKeys
          sorted := by
            refine List.pairwise_append.mpr ⟨h.sorted, List.pairwise_singleton _ _, ?_⟩
            intro a ha b hb
            rw [List.mem_singleton.mp hb]
            exact h.numbered a ha
          numbered := by
            intro e he
            rcases List.mem_append.mp he with he | he
            · exact hnum e he
            · rw [List.mem_singleton.mp he]
              exact hself
          bound := by
            show client.sendSeq.toNat ≤ _
            omega
          frames := by
            intro f hf
            rcases List.mem_append.mp hf with hf | hf
            · obtain ⟨c, hdec, hin⟩ := h.frames f hf
              exact ⟨c, hdec, fun ht => List.mem_append_left _ (hin ht)⟩
            · rw [List.mem_singleton.mp hf]
              exact ⟨_, hdec, fun _ => List.mem_append_right _ (List.mem_singleton.mpr rfl)⟩
          ready := h.ready
          stream := by
            obtain ⟨drained, htracks⟩ := h.stream
            exact ⟨drained, htracks.mono fun i v hv => content_concat _ hv⟩
          sound := fun pc hpc => (h.sound pc hpc).mono
            (fun _ => List.mem_append_left _) (fun _ => List.mem_append_left _)
            (fun _ _ heq => map_content_concat heq _) le_rfl
          disjoint := h.disjoint
          forwarded := map_content_concat h.forwarded _
          written := h.written
          passedBelow := h.passedBelow
          once := h.once
          gone := h.gone }
    · rw [if_neg hdata]
      exact
        { h with
          clientKeys := hkeys
          numbered := hnum
          bound := by
            show client.sendSeq.toNat ≤ _
            omega
          frames := by
            intro f hf
            rcases List.mem_append.mp hf with hf | hf
            · exact h.frames f hf
            · rw [List.mem_singleton.mp hf]
              exact ⟨_, hdec, fun ht => absurd ht hdata⟩
          sound := fun pc hpc => (h.sound pc hpc).mono
            (fun _ => List.mem_append_left _) (fun _ => id) (fun _ _ => id) le_rfl }
  · cases ht

/-! ## Under the lock -/

/-- What one loop takes out is the stretch of the stream after everything
that was taken out before. -/
theorem Inv.take {t : Forwarding} (h : t.Inv P keys) {i : Nat} {pc : ReadPc}
    (hi : t.loops[i]? = some pc) {sequence : UInt64} {payload : Bytes}
    (hlog : (sequence, payload) ∈ t.log) {o : Received} {buffer : ReceiveBuffer}
    (haccept : t.buffer.accept sequence payload = .ok (o, buffer)) :
    Inv P keys { t.setLoop i (.forwarding t.buffer.nextExpected.toNat buffer.drainReady.1) with
      buffer := buffer.drainReady.2 } := by
  obtain ⟨drained, htracks⟩ := h.stream
  have hbelow : ∀ i v, content t.log i = some v → i < 2 ^ 64 - 1 := by
    intro i v hv
    obtain ⟨s, hs, rfl⟩ := mem_of_content hv
    have := UInt64.lt_iff_toNat_lt.mp (h.numbered _ hs)
    have := h.bound
    simp only at *
    omega
  obtain ⟨htracks', -⟩ := ReceiveBuffer.accept_tracks hbelow htracks
    (content_of_mem h.sorted hlog) haccept
  have hdrained := htracks.stream
  rw [h.ready, List.append_nil] at hdrained
  obtain ⟨hnext, hready⟩ := ReceiveBuffer.ready_continues hdrained htracks'.stream
  have hmono : t.buffer.nextExpected.toNat ≤ buffer.nextExpected.toNat := by omega
  have hold : ∀ (j : Nat) (d : ReadPc), t.loops[j]? = some d →
      ∀ n ∈ d.held, n < t.buffer.nextExpected.toNat := by
    intro j d hj n hn
    cases d with
    | forwarding first packets =>
        have hsound := h.sound _ (List.mem_of_getElem? hj)
        have hlt := List.mem_range'_1.mp hn
        have := hsound.2
        omega
    | decrypting data => cases hn
    | accepting sequence payload => cases hn
    | reading => cases hn
    | closed => cases hn
  have hnew : ∀ n ∈ (ReadPc.forwarding t.buffer.nextExpected.toNat buffer.drainReady.1).held,
      t.buffer.nextExpected.toNat ≤ n := fun n hn => (List.mem_range'_1.mp hn).1
  exact
    { h with
      ready := rfl
      stream := ⟨drained ++ buffer.ready, htracks'.drainReady⟩
      sound := by
        intro d hd
        rcases mem_modify_cases hd with ⟨_, -, rfl⟩ | ⟨j, -, hj⟩
        · exact ⟨hready, hnext.ge⟩
        · exact (h.sound d (List.mem_of_getElem? hj)).mono (fun _ => id) (fun _ => id)
            (fun _ _ => id) hmono
      disjoint := by
        intro j k d d' hjk hj hk n hn hn'
        rcases modify_cases hj with ⟨rfl, _, -, rfl⟩ | ⟨-, hj'⟩
        · rcases modify_cases hk with ⟨rfl, _, -, rfl⟩ | ⟨-, hk'⟩
          · exact hjk rfl
          · exact absurd (hold k d' hk' n hn') (not_lt.mpr (hnew n hn))
        · rcases modify_cases hk with ⟨rfl, _, -, rfl⟩ | ⟨-, hk'⟩
          · exact absurd (hold j d hj' n hn) (not_lt.mpr (hnew n hn'))
          · exact h.disjoint j k d d' hjk hj' hk' n hn hn'
      passedBelow := fun n hn => (h.passedBelow n hn).trans_le hmono
      gone := by
        intro d hd n hn hpassed
        rcases mem_modify_cases hd with ⟨_, -, rfl⟩ | ⟨j, -, hj⟩
        · exact absurd (h.passedBelow n hpassed) (not_lt.mpr (hnew n hn))
        · exact h.gone d (List.mem_of_getElem? hj) n hn hpassed }

/-- It comes after everything forwarded so far. -/
theorem Ascending.take {t : Forwarding} (h : t.Ascending) (hinv : t.Inv P keys) (i : Nat)
    (buffer : ReceiveBuffer) (packets : List Bytes) :
    Ascending { t.setLoop i (.forwarding t.buffer.nextExpected.toNat packets) with buffer } where
  passed := h.passed
  held d hd n hn m hm := by
    rcases mem_modify_cases hd with ⟨_, -, rfl⟩ | ⟨j, -, hj⟩
    · exact (hinv.passedBelow m hm).trans_le (List.mem_range'_1.mp hn).1
    · exact h.held d (List.mem_of_getElem? hj) n hn m hm

theorem acceptChunk_spec {t : Forwarding} (h : t.Inv P keys) {i : Nat} {sequence : UInt64}
    {payload : Bytes} (hi : t.loops[i]? = some (.accepting sequence payload)) :
    (t.acceptChunk i sequence payload).Inv P keys
      ∧ (t.Ascending → (t.acceptChunk i sequence payload).Ascending) := by
  have hlog : (sequence, payload) ∈ t.log := h.sound _ (List.mem_of_getElem? hi)
  have hkeep : (t.setLoop i .reading).Inv P keys
      ∧ (t.Ascending → (t.setLoop i .reading).Ascending) :=
    ⟨h.setLoop hi trivial (held_of_nil rfl), fun hasc => hasc.setLoop hi (held_of_nil rfl)⟩
  unfold acceptChunk
  cases haccept : t.buffer.accept sequence payload with
  | error e => exact hkeep
  | ok res =>
      obtain ⟨o, buffer⟩ := res
      cases o with
      | duplicate =>
          obtain rfl := ReceiveBuffer.eq_of_accept_duplicate haccept
          exact hkeep
      | ready => exact ⟨h.take hi hlog haccept, fun hasc => hasc.take h ..⟩
      | buffered => exact ⟨h.take hi hlog haccept, fun hasc => hasc.take h ..⟩

/-! ## Outside it -/

theorem Inv.forward {t : Forwarding} (h : t.Inv P keys) {i first : Nat} {packet : Bytes}
    {packets : List Bytes} (hi : t.loops[i]? = some (.forwarding first (packet :: packets)))
    {written : List Bytes} (hwritten : written.Sublist (t.forwarded ++ [packet])) :
    Inv P keys { t.setLoop i (.forwarding (first + 1) packets) with
      forwarded := t.forwarded ++ [packet]
      written
      passed := t.passed ++ [first] } := by
  have hsound := h.sound _ (List.mem_of_getElem? hi)
  obtain ⟨hpackets, hle⟩ := hsound
  rw [List.length_cons, List.range'_succ] at hpackets
  obtain ⟨hpacket, hrest⟩ := List.cons.inj hpackets
  rw [List.length_cons] at hle
  have hfirst : first ∈ (ReadPc.forwarding first (packet :: packets)).held :=
    List.mem_range'_1.mpr ⟨le_rfl, by rw [List.length_cons]; omega⟩
  have hshrink : ∀ n ∈ (ReadPc.forwarding (first + 1) packets).held,
      n ∈ (ReadPc.forwarding first (packet :: packets)).held ∧ n ≠ first := by
    intro n hn
    have := List.mem_range'_1.mp hn
    refine ⟨List.mem_range'_1.mpr ?_, by omega⟩
    rw [List.length_cons]
    omega
  have hset := h.setLoop (p := .forwarding (first + 1) packets) hi ⟨hrest, by omega⟩
    fun n hn => (hshrink n hn).1
  exact
    { hset with
      forwarded := by
        rw [List.map_append, List.map_append, h.forwarded]
        exact congrArg _ (congrArg (· :: []) hpacket)
      written := hwritten
      passedBelow := by
        intro n hn
        rcases List.mem_append.mp hn with hn | hn
        · exact h.passedBelow n hn
        · rw [List.mem_singleton.mp hn]
          show first < t.buffer.nextExpected.toNat
          omega
      once := by
        refine List.nodup_append.mpr ⟨h.once, List.nodup_singleton _, fun n hn m hm => ?_⟩
        rw [List.mem_singleton.mp hm]
        rintro rfl
        exact h.gone _ (List.mem_of_getElem? hi) n hfirst hn
      gone := by
        intro d hd n hn hpassed
        rcases List.mem_append.mp hpassed with hpassed | hpassed
        · exact hset.gone d hd n hn hpassed
        · rw [List.mem_singleton.mp hpassed] at hn
          rcases mem_modify_cases hd with ⟨_, -, rfl⟩ | ⟨j, hne, hj⟩
          · exact (hshrink first hn).2 rfl
          · exact h.disjoint j i d _ hne hj hi first hn hfirst }

theorem Ascending.forward {t : Forwarding} (h : t.Ascending) (hinv : t.Inv P keys) {i first : Nat}
    {packet : Bytes} {packets : List Bytes}
    (hi : t.loops[i]? = some (.forwarding first (packet :: packets)))
    (hleast : ∀ pc ∈ t.loops, ∀ m ∈ pc.held, first ≤ m) (forwarded written : List Bytes) :
    Ascending { t.setLoop i (.forwarding (first + 1) packets) with
      forwarded
      written
      passed := t.passed ++ [first] } := by
  have hfirst : first ∈ (ReadPc.forwarding first (packet :: packets)).held :=
    List.mem_range'_1.mpr ⟨le_rfl, by rw [List.length_cons]; omega⟩
  have hmem := List.mem_of_getElem? hi
  refine ⟨?_, fun d hd n hn m hm => ?_⟩
  · refine List.pairwise_append.mpr ⟨h.passed, List.pairwise_singleton _ _, fun m hm n hn => ?_⟩
    rw [List.mem_singleton.mp hn]
    exact h.held _ hmem first hfirst m hm
  have hlt : first < n := by
    rcases mem_modify_cases hd with ⟨_, -, rfl⟩ | ⟨j, hne, hj⟩
    · exact (List.mem_range'_1.mp hn).1
    · refine lt_of_le_of_ne (hleast d (List.mem_of_getElem? hj) n hn) ?_
      rintro rfl
      exact hinv.disjoint j i d _ hne hj hi first hn hfirst
  rcases List.mem_append.mp hm with hm | hm
  · exact (h.held _ hmem first hfirst m hm).trans hlt
  · rw [List.mem_singleton.mp hm]
    exact hlt

theorem Inv.connect {t : Forwarding} (h : t.Inv P keys) :
    Inv P keys { t with loops := t.loops ++ [.reading] } :=
  { h with
    sound := by
      intro pc hpc
      rcases List.mem_append.mp hpc with hpc | hpc
      · exact h.sound pc hpc
      · rw [List.mem_singleton.mp hpc]
        trivial
    disjoint := by
      intro j k d d' hjk hj hk n hn hn'
      rcases concat_cases hj with hj | rfl
      · rcases concat_cases hk with hk | rfl
        · exact h.disjoint j k d d' hjk hj hk n hn hn'
        · cases hn'
      · cases hn
    gone := by
      intro pc hpc n hn
      rcases List.mem_append.mp hpc with hpc | hpc
      · exact h.gone pc hpc n hn
      · rw [List.mem_singleton.mp hpc] at hn
        cases hn }

theorem Ascending.connect {t : Forwarding} (h : t.Ascending) :
    Ascending { t with loops := t.loops ++ [.reading] } where
  passed := h.passed
  held pc hpc n hn m hm := by
    rcases List.mem_append.mp hpc with hpc | hpc
    · exact h.held pc hpc n hn m hm
    · rw [List.mem_singleton.mp hpc] at hn
      cases hn

/-- One step, whichever loop takes it. -/
theorem Inv.step (hP : P.Lawful) {t t' : Forwarding} (h : t.Inv P keys) {e : Event}
    (ht : t.step P e = some t') :
    t'.Inv P keys ∧ (t.Ascending → t.Orderly e → t'.Ascending) := by
  have hsend : ∀ {chunk : Chunk} {rnd : Rand},
      (chunk.payload.length ≤ maxPayloadSize → chunk.WellFormed) →
      t.send P chunk rnd = some t' →
        t'.Inv P keys ∧ (t.Ascending → t.Orderly e → t'.Ascending) := by
    intro chunk rnd hc hsend
    obtain ⟨hinv, hloops, hpassed⟩ := h.send hP hc hsend
    refine ⟨hinv, fun hasc _ => ⟨hpassed ▸ hasc.passed, ?_⟩⟩
    rw [hloops, hpassed]
    exact hasc.held
  cases e with
  | sendData packet r rnd => exact hsend (fun hfits => Chunk.wellFormed_withPadding hfits) ht
  | sendControl payload r rnd => exact hsend (fun hfits => Chunk.wellFormed_withPadding hfits) ht
  | sendPadding size rnd => exact hsend (fun hfits => Chunk.wellFormed_withPadding hfits) ht
  | connect =>
      obtain rfl := Option.some.inj ht
      exact ⟨h.connect, fun hasc _ => hasc.connect⟩
  | read i k =>
      simp only [Forwarding.step] at ht
      split at ht
      · rename_i data hi hdata
        obtain rfl := Option.some.inj ht
        exact ⟨h.setLoop hi (List.mem_of_getElem? hdata) (held_of_nil rfl),
          fun hasc _ => hasc.setLoop hi (held_of_nil rfl)⟩
      · cases ht
  | disconnect i =>
      simp only [Forwarding.step] at ht
      split at ht
      · rename_i hi
        obtain rfl := Option.some.inj ht
        exact ⟨h.setLoop hi trivial (held_of_nil rfl),
          fun hasc _ => hasc.setLoop hi (held_of_nil rfl)⟩
      · cases ht
  | decrypt i alive =>
      simp only [Forwarding.step] at ht
      split at ht
      · rename_i data hi
        obtain ⟨chunk, hdec, hlog⟩ := h.frames data (h.sound _ (List.mem_of_getElem? hi))
        have hkey : Session.readKey t.server.keys false = Session.writeKey keys true := by
          rw [h.serverKeys]
          rfl
        rw [← hkey] at hdec
        obtain ⟨server, hok, hkeys, -⟩ := Session.decryptIncoming_of_decode hdec
        rw [hok] at ht
        dsimp only at ht
        split at ht
        · rename_i hdata
          obtain rfl := Option.some.inj ht
          have hset := h.setLoop (p := .accepting chunk.header.sequence chunk.payload) hi
            (hlog hdata) (held_of_nil rfl)
          exact ⟨hset.withServer (hkeys.trans h.serverKeys),
            fun hasc _ => ⟨hasc.passed, (hasc.setLoop hi (held_of_nil rfl)).held⟩⟩
        · obtain rfl := Option.some.inj ht
          have hset := h.setLoop hi (sound_reading t alive) (held_of_nil (held_reading alive))
          exact ⟨hset.withServer (hkeys.trans h.serverKeys), fun hasc _ =>
            ⟨hasc.passed, (hasc.setLoop hi (held_of_nil (held_reading alive))).held⟩⟩
      · cases ht
  | accept i =>
      simp only [Forwarding.step] at ht
      split at ht
      · rename_i sequence payload hi
        obtain rfl := Option.some.inj ht
        obtain ⟨hinv, hasc⟩ := acceptChunk_spec h hi
        exact ⟨hinv, fun hasc' _ => hasc hasc'⟩
      · cases ht
  | forward i ok =>
      simp only [Forwarding.step] at ht
      split at ht
      · rename_i first packet packets hi
        obtain rfl := Option.some.inj ht
        refine ⟨h.forward hi ?_, fun hasc horder => hasc.forward h hi ?_ _ _⟩
        · split
          · exact h.written.append (List.Sublist.refl _)
          · exact h.written.trans (List.sublist_append_left ..)
        · exact horder _ hi first rfl
      · cases ht
  | acknowledge i alive =>
      simp only [Forwarding.step] at ht
      split at ht
      · rename_i first hi
        obtain rfl := Option.some.inj ht
        exact ⟨h.setLoop hi (sound_reading t alive) (held_of_nil (held_reading alive)),
          fun hasc _ => hasc.setLoop hi (held_of_nil (held_reading alive))⟩
      · cases ht

/-! ## What is forwarded -/

/-- Whatever the order of the loops, each payload is forwarded at most
once. -/
theorem passed_nodup (hP : P.Lawful) (id : SessionId) (maxBytes : Nat) (events : List Event) :
    Always (step P) (fun t => t.passed.Nodup ∧ t.forwarded.map some = t.passed.map (content t.log))
      (start id keys maxBytes) events := by
  have hrun : Always (step P) (Inv P keys) (start id keys maxBytes) events :=
    always_of_invariant (fun _ _ _ hs ht => (Inv.step hP hs ht).1) (inv_start id keys maxBytes)
  exact hrun.mono fun t ht => ⟨ht.once, ht.forwarded⟩

theorem ascending_of_orderly (hP : P.Lawful) {id : SessionId} {maxBytes : Nat}
    {events : List Event} (h : Meets (step P) Orderly (start id keys maxBytes) events) :
    Always (step P) (fun t => t.InOrder ∧ t.passed.Pairwise (· < ·)) (start id keys maxBytes)
      events := by
  have hrun : Always (step P) (fun t => t.Inv P keys ∧ t.Ascending) (start id keys maxBytes)
      events := by
    refine always_of_meets (fun s e s' hs hC ht => ?_)
      ⟨inv_start id keys maxBytes, ascending_start id keys maxBytes⟩ h
    obtain ⟨hinv, hasc⟩ := hs.1.step hP ht
    exact ⟨hinv, hasc hs.2 hC⟩
  exact hrun.mono fun t ht => ⟨ht.1.inOrder ht.2, ht.2.passed⟩

/-- What is forwarded is the payloads of the sequences in `passed`, each at
most once in every run, and in order in a run in which no loop overtakes
another. -/
theorem inOrder_of_orderly (hP : P.Lawful) (id : SessionId) (maxBytes : Nat)
    (events : List Event) :
    Always (step P) (fun t => t.passed.Nodup ∧ t.forwarded.map some = t.passed.map (content t.log))
        (start id keys maxBytes) events ∧
      (Meets (step P) Orderly (start id keys maxBytes) events →
        Always (step P) (fun t => t.InOrder ∧ t.passed.Pairwise (· < ·)) (start id keys maxBytes)
          events) :=
  ⟨passed_nodup hP id maxBytes events, ascending_of_orderly hP⟩

/-! ## Out of order

Two packets, each read by a loop of its own. The first loop takes its
packet out, and is overtaken before it forwards it. -/

/-- The header of an IPv4 packet, told apart by its last byte. -/
def packet (b : UInt8) : Bytes := 0x45 :: List.replicate 18 0 ++ [b]

def bothRead : List Event :=
  [.sendData (packet 1) 0 noPadding, .sendData (packet 2) 0 noPadding, .connect, .connect,
    .read 0 0, .decrypt 0 true, .read 1 1, .decrypt 1 true, .accept 0, .accept 1]

def overtaken : List Event := bothRead ++ [.forward 1 true, .forward 0 true]

def inTurn : List Event :=
  bothRead ++ [.forward 0 true, .acknowledge 0 true, .forward 1 true, .read 0 1]

def plainStart : Forwarding := start (zeroArr 16) plainKeys 64

theorem isSome_overtaken : (exec (step .plain) plainStart overtaken).isSome := by decide +kernel

/-- The packets reach the forwarder in the other order. -/
theorem overtaken_reverses :
    ∃ t, exec (step .plain) plainStart overtaken = some t ∧ t.log = [(0, packet 1), (1, packet 2)]
      ∧ t.forwarded = [packet 2, packet 1] ∧ t.written = [packet 2, packet 1]
      ∧ ¬ Always (step .plain) InOrder plainStart overtaken := by
  have hbad : ¬ (Option.get _ isSome_overtaken).InOrder := by decide +kernel
  exact ⟨Option.get _ isSome_overtaken, (Option.some_get _).symm, by decide +kernel,
    by decide +kernel, by decide +kernel, not_always_of_exec (Option.some_get _).symm hbad⟩

theorem inOrder_of_orderly_inTurn :
    Meets (step .plain) Orderly plainStart inTurn
      ∧ (exec (step .plain) plainStart inTurn).map (fun t => t.passed) = some [0, 1]
      ∧ Always (step .plain) (fun t => t.InOrder ∧ t.passed.Pairwise (· < ·)) plainStart inTurn := by
  have h : Meets (step .plain) Orderly plainStart inTurn := by decide +kernel
  exact ⟨h, by decide +kernel,
    (inOrder_of_orderly Primitives.plain_lawful (zeroArr 16) 64 inTurn).2 h⟩

end Forwarding

end Kanrin
