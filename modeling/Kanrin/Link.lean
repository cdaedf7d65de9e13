import Kanrin.Ack
import Kanrin.Session

/-!
# The continuity layer over a lossy link

One direction of a session: a sender (`Session` and `SendBuffer`), a
receiver (`Session` and `ReceiveBuffer`), and the frames in flight between
them, which the schedule may lose, duplicate, and deliver in any order.
This is the `Sender`, `Receiver` and `switch_transport` of
`kanrin-protocol/tests/transport_switch.rs`, over every schedule.

`sent`, `delivered` and `arrived` record what was sent, what was handed
on, and which frames reached the receiver.

The simulated system is a plain list: `Inv.stream` says that what has been
delivered is the first `nextExpected` payloads sent, and `Inv.retained`
that every other payload is either held by the receiver or still in the
send buffer, from where a replay brings it back (`seen_of_replay`).
-/

namespace Kanrin

open Lib

structure Link where
  tx : Session
  buffer : SendBuffer
  rx : Session
  recv : ReceiveBuffer
  inflight : List Bytes
  acks : List (UInt64 × List SackRange)
  sent : List Bytes
  delivered : List Bytes
  arrived : List Bytes

namespace Link

inductive Event where
  | send (payload : Bytes) (r : UInt8) (rnd : Rand)
  | lose (i : Nat)
  | duplicate (i : Nat)
  | deliver (i : Nat)
  | buildAck
  | applyAck (i : Nat)
  | switch

/-- Both ends hold the same fresh session, `isClient` says which end sends,
and the buffers have any bounds. -/
def start (id : SessionId) (keys : SessionKeys) (sendMax recvMax : Nat) : Link where
  tx := .new id keys
  buffer := .new sendMax
  rx := .new id keys
  recv := .new recvMax
  inflight := []
  acks := []
  sent := []
  delivered := []
  arrived := []

variable (P : Primitives) (isClient : Bool)

/-- `Sender::send`: only a payload that is encrypted and retained is sent. -/
def send (l : Link) (payload : Bytes) (r : UInt8) (rnd : Rand) : Option Link :=
  let sequence := l.tx.sendNonceValue
  match l.tx.encryptOutgoing P (Chunk.newData payload r) isClient rnd with
  | .error _ => none
  | .ok (encoded, tx) =>
      match l.buffer.push sequence encoded with
      | .error _ => none
      | .ok buffer =>
          some { l with tx, buffer, inflight := l.inflight ++ [encoded], sent := l.sent ++ [payload] }

/-- `Receiver::ingest` of one frame. A frame that does not decrypt, or that
the buffer refuses, is lost. -/
def ingest (l : Link) (frame : Bytes) : Link :=
  match l.rx.decryptIncoming P frame (!isClient) with
  | .error _ => l
  | .ok (chunk, rx) =>
      match l.recv.accept chunk.header.sequence chunk.payload with
      | .error _ => { l with rx }
      | .ok (.duplicate, recv) => { l with rx, recv }
      | .ok (_, recv) =>
          { l with rx, recv := recv.drainReady.2, delivered := l.delivered ++ recv.drainReady.1 }

/-- The frames a replay of the buffer puts on the wire. -/
def replayFrames (b : SendBuffer) : List Bytes :=
  (Replay.run b b.chunks.size .new).1.map Prod.snd

/-- `switch_transport`: release what the receiver reports, replay the rest. -/
def switchTransport (l : Link) : Link :=
  let buffer := (l.buffer.applyAck l.recv.nextExpected []).2
  { l with buffer, inflight := l.inflight ++ replayFrames buffer }

def step (l : Link) : Event → Option Link
  | .send payload r rnd => l.send P isClient payload r rnd
  | .lose i =>
      if i < l.inflight.length then some { l with inflight := l.inflight.eraseIdx i } else none
  | .duplicate i => l.inflight[i]?.map fun frame => { l with inflight := l.inflight ++ [frame] }
  | .deliver i =>
      l.inflight[i]?.map fun frame =>
        { l.ingest P isClient frame with
          inflight := l.inflight.eraseIdx i
          arrived := l.arrived ++ [frame] }
  | .buildAck => some { l with acks := l.acks ++ [(l.recv.nextExpected, l.recv.ackRanges)] }
  | .applyAck i => l.acks[i]?.map fun ack => { l with buffer := (l.buffer.applyAck ack.1 ack.2).2 }
  | .switch => some l.switchTransport

/-- Decryption inverts encryption for the chunk a send event builds. -/
def Event.Recovers (key : Key) : Event → Prop
  | .send payload r rnd => ∀ seq bytes,
      (Chunk.newData payload r).encodeSequenced P key seq rnd = .ok bytes →
        Chunk.decodeSequenced P bytes key = .ok ((Chunk.newData payload r).withSequence seq)
  | _ => True

/-- It does for every payload whose length fits the header. -/
theorem recovers_of_lawful (hP : P.Lawful) (key : Key) {payload : Bytes}
    (h : payload.length ≤ maxPayloadSize) (r : UInt8) (rnd : Rand) :
    (Event.send payload r rnd).Recovers P key := fun _ _ henc =>
  Chunk.decodeSequenced_encodeSequenced hP (Chunk.wellFormed_withPadding h) henc

/-! ## The invariant -/

/-- `frame` is one the sender produced for sequence `s`. -/
def Genuine (key : Key) (sent : List Bytes) (s : UInt64) (frame : Bytes) : Prop :=
  ∃ chunk, Chunk.decodeSequenced P frame key = .ok chunk ∧ chunk.header.sequence = s
    ∧ sent[s.toNat]? = some chunk.payload

structure Inv (keys : SessionKeys) (l : Link) : Prop where
  txKeys : l.tx.keys = keys
  rxKeys : l.rx.keys = keys
  count : l.tx.sendSeq.toNat = l.sent.length
  bound : l.sent.length ≤ 2 ^ 64 - 2
  ready : l.recv.ready = []
  stream : l.recv.Tracks l.delivered (fun i => l.sent[i]?)
  inflight : ∀ f ∈ l.inflight, ∃ s, Genuine P (Session.writeKey keys isClient) l.sent s f
  held : ∀ s f, l.buffer.get? s = some f →
    Genuine P (Session.writeKey keys isClient) l.sent s f
  retained : ∀ s : UInt64, s.toNat < l.sent.length → l.buffer.get? s ≠ none ∨ l.recv.Seen s
  acks : ∀ ack ∈ l.acks, ∀ s, SendBuffer.Covers ack.1 ack.2 s → l.recv.Seen s

variable {P isClient} {keys : SessionKeys}

theorem inv_start (id : SessionId) (keys : SessionKeys) (sendMax recvMax : Nat) :
    (start id keys sendMax recvMax).Inv P isClient keys where
  txKeys := rfl
  rxKeys := rfl
  count := rfl
  bound := by simp [start]
  ready := rfl
  stream := ReceiveBuffer.tracks_new recvMax _
  inflight _ h := by cases h
  held _ _ h := by cases h
  retained _ h := by simp [start] at h
  acks _ h := by cases h

theorem Genuine.concat {key : Key} {sent : List Bytes} {s : UInt64} {frame : Bytes}
    (h : Genuine P key sent s frame) (payload : Bytes) :
    Genuine P key (sent ++ [payload]) s frame := by
  obtain ⟨chunk, hdec, hseq, hget⟩ := h
  obtain ⟨hlt, -⟩ := List.getElem?_eq_some_iff.mp hget
  exact ⟨chunk, hdec, hseq, by rw [List.getElem?_append_left hlt, hget]⟩

/-! ## Sending -/

theorem inv_send {l l' : Link} (hl : l.Inv P isClient keys) {payload : Bytes} {r : UInt8}
    {rnd : Rand} (hrec : (Event.send payload r rnd).Recovers P (Session.writeKey keys isClient))
    (h : l.send P isClient payload r rnd = some l') : l'.Inv P isClient keys := by
  simp only [send] at h
  split at h
  · cases h
  rename_i encoded tx henc
  split at h
  · cases h
  rename_i buffer hpush
  obtain rfl := Option.some.inj h
  obtain ⟨hseal, hlt, hsucc, hkeys⟩ := Session.encryptOutgoing_eq_ok henc
  rw [hl.txKeys] at hseal hkeys
  have hnew : Genuine P (Session.writeKey keys isClient) (l.sent ++ [payload]) l.tx.sendSeq encoded :=
    ⟨_, hrec _ _ hseal, rfl, by rw [hl.count]; simp [Chunk.newData, Chunk.withPadding]⟩
  have hget := SendBuffer.get?_push hpush
  refine ⟨hkeys, hl.rxKeys, by simp [hsucc, hl.count], ?_, hl.ready, ?_, ?_, ?_, ?_, hl.acks⟩
  · have := hl.count
    simp only [List.length_append, List.length_singleton]
    omega
  · refine hl.stream.mono ?_
    intro i v hv
    obtain ⟨hi, -⟩ := List.getElem?_eq_some_iff.mp hv
    simp only [List.getElem?_append_left hi, hv]
  · intro f hf
    rcases List.mem_append.mp hf with hf | hf
    · obtain ⟨s, hs⟩ := hl.inflight f hf
      exact ⟨s, hs.concat payload⟩
    · rw [List.mem_singleton.mp hf]
      exact ⟨_, hnew⟩
  · intro s f hf
    rw [hget] at hf
    split at hf
    · rename_i hs
      obtain rfl := Option.some.inj hf
      rw [hs]
      exact hnew
    · exact (hl.held s f hf).concat payload
  · intro s hs
    by_cases heq : s = l.tx.sendSeq
    · exact Or.inl (by rw [hget]; simp [Session.sendNonceValue, heq])
    · have hlt' : s.toNat < l.sent.length := by
        have hne : s.toNat ≠ l.sent.length := by
          rw [← hl.count]
          exact fun h => heq (UInt64.toNat_inj.mp h)
        simp only [List.length_append, List.length_singleton] at hs
        omega
      refine (hl.retained s hlt').imp_left ?_
      intro hget'
      rw [hget, Session.sendNonceValue, if_neg heq]
      exact hget'

/-! ## Receiving -/

/-- What receiving a genuine frame does: the invariant is kept, nothing
that was seen is forgotten, and the frame's sequence is seen if it already
was or is the next one expected. -/
theorem ingest_spec {l : Link} (hl : l.Inv P isClient keys) {s : UInt64} {frame : Bytes}
    (hf : Genuine P (Session.writeKey keys isClient) l.sent s frame) :
    (l.ingest P isClient frame).Inv P isClient keys
      ∧ (∀ x, l.recv.Seen x → (l.ingest P isClient frame).recv.Seen x)
      ∧ (l.recv.Seen s ∨ s = l.recv.nextExpected → (l.ingest P isClient frame).recv.Seen s)
      ∧ (l.ingest P isClient frame).sent = l.sent := by
  obtain ⟨chunk, hdec, hseq, hget⟩ := hf
  have hkey : Session.readKey l.rx.keys (!isClient) = Session.writeKey keys isClient := by
    rw [Session.readKey_eq, Bool.not_not, hl.rxKeys]
  obtain ⟨rx, hrx, hrxKeys, -⟩ := Session.decryptIncoming_of_decode (hkey ▸ hdec)
  have hrxKeys' := hrxKeys.trans hl.rxKeys
  have hbound : ∀ i v, l.sent[i]? = some v → i < 2 ^ 64 - 1 := fun i v hv => by
    obtain ⟨hi, -⟩ := List.getElem?_eq_some_iff.mp hv
    have := hl.bound
    omega
  subst hseq
  cases hacc : l.recv.accept chunk.header.sequence chunk.payload with
  | error e =>
      have heq : l.ingest P isClient frame = { l with rx } := by simp only [ingest, hrx, hacc]
      rw [heq]
      refine ⟨⟨hl.txKeys, hrxKeys', hl.count, hl.bound, hl.ready, hl.stream, hl.inflight, hl.held,
        hl.retained, hl.acks⟩, fun x hx => hx, fun hs => ?_, rfl⟩
      rcases hs with hs | hs
      · exact hs
      · obtain ⟨recv, hok⟩ := l.recv.accept_of_eq chunk.payload
        rw [hs, hok] at hacc
        cases hacc
  | ok res =>
      obtain ⟨o, recv⟩ := res
      obtain ⟨htracks, hseen⟩ := ReceiveBuffer.accept_tracks hbound hl.stream hget hacc
      have hmono : ∀ x, l.recv.Seen x → recv.Seen x := fun x hx => (hseen x).mpr (Or.inr hx)
      have hnew : recv.Seen chunk.header.sequence := (hseen _).mpr (Or.inl rfl)
      have hret : ∀ s : UInt64, s.toNat < l.sent.length → l.buffer.get? s ≠ none ∨ recv.Seen s :=
        fun s hs => (hl.retained s hs).imp_right (hmono s)
      have hack : ∀ ack ∈ l.acks, ∀ s, SendBuffer.Covers ack.1 ack.2 s → recv.Seen s :=
        fun ack h s hs => hmono s (hl.acks ack h s hs)
      cases o with
      | duplicate =>
          have heq : l.ingest P isClient frame = { l with rx, recv } := by
            simp only [ingest, hrx, hacc]
          rw [heq]
          obtain rfl := ReceiveBuffer.eq_of_accept_duplicate hacc
          exact ⟨⟨hl.txKeys, hrxKeys', hl.count, hl.bound, hl.ready, htracks, hl.inflight, hl.held,
            hret, hack⟩, hmono, fun _ => hnew, rfl⟩
      | ready =>
          have heq : l.ingest P isClient frame = { l with
              rx, recv := recv.drainReady.2, delivered := l.delivered ++ recv.drainReady.1 } := by
            simp only [ingest, hrx, hacc]
          rw [heq]
          exact ⟨⟨hl.txKeys, hrxKeys', hl.count, hl.bound, rfl, htracks.drainReady, hl.inflight,
            hl.held, hret, hack⟩, hmono, fun _ => hnew, rfl⟩
      | buffered =>
          have heq : l.ingest P isClient frame = { l with
              rx, recv := recv.drainReady.2, delivered := l.delivered ++ recv.drainReady.1 } := by
            simp only [ingest, hrx, hacc]
          rw [heq]
          exact ⟨⟨hl.txKeys, hrxKeys', hl.count, hl.bound, rfl, htracks.drainReady, hl.inflight,
            hl.held, hret, hack⟩, hmono, fun _ => hnew, rfl⟩

/-! ## The remaining events -/

theorem inv_applyAck {l : Link} (hl : l.Inv P isClient keys) {next : UInt64}
    {ranges : List SackRange} (hcov : ∀ s, SendBuffer.Covers next ranges s → l.recv.Seen s) :
    Inv P isClient keys { l with buffer := (l.buffer.applyAck next ranges).2 } := by
  refine ⟨hl.txKeys, hl.rxKeys, hl.count, hl.bound, hl.ready, hl.stream, hl.inflight, ?_, ?_,
    hl.acks⟩
  · intro s f hf
    simp only [SendBuffer.get?_applyAck] at hf
    split at hf
    · cases hf
    · exact hl.held s f hf
  · intro s hs
    simp only [SendBuffer.get?_applyAck]
    split
    · exact Or.inr (hcov s ‹_›)
    · exact hl.retained s hs

theorem mem_replayFrames {b : SendBuffer} {f : Bytes} :
    f ∈ replayFrames b ↔ ∃ s, b.get? s = some f := by
  rw [replayFrames, (Replay.run_new b).1]
  simp [SendBuffer.get?, SortedMap.get?_eq_some]

theorem inv_switch {l : Link} (hl : l.Inv P isClient keys) :
    l.switchTransport.Inv P isClient keys := by
  have hcov : ∀ s, SendBuffer.Covers l.recv.nextExpected [] s → l.recv.Seen s := by
    rintro s (hs | ⟨r, hr, -⟩)
    · exact Or.inl hs
    · cases hr
  have hack := inv_applyAck hl hcov
  refine ⟨hack.txKeys, hack.rxKeys, hack.count, hack.bound, hack.ready, hack.stream, fun f hf => ?_,
    hack.held, hack.retained, hack.acks⟩
  rcases List.mem_append.mp hf with hf | hf
  · exact hl.inflight f hf
  · obtain ⟨s, hs⟩ := mem_replayFrames.mp hf
    exact ⟨s, hack.held s f hs⟩

theorem inv_of_inflight {l : Link} (hl : l.Inv P isClient keys) {inflight arrived : List Bytes}
    (hsub : ∀ f ∈ inflight, f ∈ l.inflight) :
    Inv P isClient keys { l with inflight, arrived } :=
  ⟨hl.txKeys, hl.rxKeys, hl.count, hl.bound, hl.ready, hl.stream,
    fun f hf => hl.inflight f (hsub f hf), hl.held, hl.retained, hl.acks⟩

theorem ingest_inflight (l : Link) (frame : Bytes) :
    (l.ingest P isClient frame).inflight = l.inflight
      ∧ (l.ingest P isClient frame).arrived = l.arrived := by
  unfold ingest
  split
  · exact ⟨rfl, rfl⟩
  · split <;> exact ⟨rfl, rfl⟩

theorem inv_step {l l' : Link} {e : Event}
    (hrec : e.Recovers P (Session.writeKey keys isClient)) (hl : l.Inv P isClient keys)
    (h : l.step P isClient e = some l') : l'.Inv P isClient keys := by
  cases e with
  | send payload r rnd => exact inv_send hl hrec h
  | lose i =>
      simp only [step] at h
      split at h
      · obtain rfl := Option.some.inj h
        exact inv_of_inflight hl fun f hf => List.mem_of_mem_eraseIdx hf
      · cases h
  | duplicate i =>
      obtain ⟨frame, hframe, rfl⟩ := Option.map_eq_some_iff.mp h
      refine inv_of_inflight hl ?_
      intro f hf
      rcases List.mem_append.mp hf with hf | hf
      · exact hf
      · rw [List.mem_singleton.mp hf]
        exact List.mem_of_getElem? hframe
  | deliver i =>
      obtain ⟨frame, hframe, rfl⟩ := Option.map_eq_some_iff.mp h
      obtain ⟨s, hs⟩ := hl.inflight frame (List.mem_of_getElem? hframe)
      refine inv_of_inflight (ingest_spec hl hs).1 ?_
      intro f hf
      rw [(ingest_inflight l frame).1]
      exact List.mem_of_mem_eraseIdx hf
  | buildAck =>
      obtain rfl := Option.some.inj h
      refine ⟨hl.txKeys, hl.rxKeys, hl.count, hl.bound, hl.ready, hl.stream, hl.inflight, hl.held,
        hl.retained, fun ack hack s hs => ?_⟩
      rcases List.mem_append.mp hack with hack | hack
      · exact hl.acks ack hack s hs
      · obtain rfl := List.mem_singleton.mp hack
        exact ReceiveBuffer.seen_of_covers hs
  | applyAck i =>
      obtain ⟨ack, hack, rfl⟩ := Option.map_eq_some_iff.mp h
      exact inv_applyAck hl (hl.acks ack (List.mem_of_getElem? hack))
  | switch =>
      obtain rfl := Option.some.inj h
      exact inv_switch hl

/-- What is delivered is always a prefix of what was sent. -/
theorem Inv.delivered_sent {l : Link} (hl : l.Inv P isClient keys) : l.delivered <+: l.sent := by
  have hmap : l.delivered.map some = (l.sent.take l.recv.nextExpected.toNat).map some := by
    have hstream := hl.stream.stream
    rw [hl.ready, List.append_nil] at hstream
    refine List.ext_getElem? ?_
    intro i
    rw [hstream]
    by_cases hi : i < l.recv.nextExpected.toNat
    · obtain ⟨v, hv⟩ := hl.stream.content_isSome hi
      simp [hi, hv]
    · simp [hi]
  have heq := List.map_injective_iff.mpr (Option.some_injective _) hmap
  rw [heq]
  exact List.take_prefix _ _

/-- Once every sequence sent has been seen, everything is delivered. -/
theorem Inv.complete {l : Link} (hl : l.Inv P isClient keys)
    (hseen : ∀ s : UInt64, s.toNat < l.sent.length → l.recv.Seen s) :
    l.delivered = l.sent ∧ l.recv.pending.isEmpty = true := by
  obtain ⟨hnext, hpending⟩ := hl.stream.complete
    (fun i v hv => (List.getElem?_eq_some_iff.mp hv).1) hseen
  refine ⟨hl.delivered_sent.eq_of_length ?_, SortedMap.isEmpty_of_get? hpending⟩
  have hlen := congrArg List.length hl.stream.stream
  simpa [hl.ready, hnext] using hlen

/-! ## The final switch -/

/-- `entries` has a copy of everything the receiver has not seen. -/
structure Outstanding (P : Primitives) (isClient : Bool) (keys : SessionKeys) (l : Link)
    (entries : List (UInt64 × Bytes)) : Prop where
  sorted : entries.Pairwise fun a b => a.1 < b.1
  genuine : ∀ e ∈ entries, Genuine P (Session.writeKey keys isClient) l.sent e.1 e.2
  covers : ∀ s : UInt64, s.toNat < l.sent.length → l.recv.Seen s ∨ ∃ f, (s, f) ∈ entries

theorem outstanding_switch {l : Link} (hl : l.Inv P isClient keys) :
    l.switchTransport.Outstanding P isClient keys l.switchTransport.buffer.chunks.entries := by
  have hinv := inv_switch hl
  refine ⟨SortedMap.sorted _, fun e he => hinv.held e.1 e.2 (SortedMap.get?_eq_some.mpr he),
    fun s hs => ?_⟩
  rcases hinv.retained s hs with hget | hseen
  · obtain ⟨f, hf⟩ := Option.ne_none_iff_exists'.mp hget
    exact Or.inr ⟨f, SortedMap.get?_eq_some.mp hf⟩
  · exact Or.inl hseen

/-- Receiving the first outstanding frame leaves the others outstanding: it
is a duplicate, or exactly the sequence expected next. -/
theorem outstanding_ingest {l : Link} (hl : l.Inv P isClient keys) {e : UInt64 × Bytes}
    {rest : List (UInt64 × Bytes)} (ho : l.Outstanding P isClient keys (e :: rest)) :
    (l.ingest P isClient e.2).Outstanding P isClient keys rest := by
  obtain ⟨hfirst, hsorted⟩ := List.pairwise_cons.mp ho.sorted
  obtain ⟨-, hmono, hnew, hsent⟩ := ingest_spec hl (ho.genuine e List.mem_cons_self)
  have hseen : (l.ingest P isClient e.2).recv.Seen e.1 := by
    refine hnew ?_
    by_cases hs : l.recv.Seen e.1
    · exact Or.inl hs
    · have hle : l.recv.nextExpected ≤ e.1 := l.recv.isLeast_nextExpected.2 hs
      have hlt : l.recv.nextExpected.toNat < l.sent.length := by
        obtain ⟨chunk, -, -, hget⟩ := ho.genuine e List.mem_cons_self
        obtain ⟨hlen, -⟩ := List.getElem?_eq_some_iff.mp hget
        exact lt_of_le_of_lt (UInt64.le_iff_toNat_le.mp hle) hlen
      rcases ho.covers _ hlt with hcov | ⟨f, hf⟩
      · exact absurd hcov l.recv.not_seen_nextExpected
      · rcases List.mem_cons.mp hf with hf | hf
        · exact Or.inr (congrArg Prod.fst hf).symm
        · exact Or.inr (le_antisymm (hfirst _ hf).le hle)
  refine ⟨hsorted, fun x hx => ?_, fun s hs => ?_⟩
  · rw [hsent]
    exact ho.genuine x (List.mem_cons_of_mem _ hx)
  · rw [hsent] at hs
    rcases ho.covers s hs with hcov | ⟨f, hf⟩
    · exact Or.inl (hmono s hcov)
    · rcases List.mem_cons.mp hf with hf | hf
      · obtain rfl : s = e.1 := congrArg Prod.fst hf
        exact Or.inl hseen
      · exact Or.inr ⟨f, hf⟩

theorem Outstanding.mono {l l' : Link} {entries : List (UInt64 × Bytes)}
    (ho : l.Outstanding P isClient keys entries) (hsent : l'.sent = l.sent)
    (hseen : ∀ s, l.recv.Seen s → l'.recv.Seen s) : l'.Outstanding P isClient keys entries :=
  ⟨ho.sorted, fun e he => hsent ▸ ho.genuine e he,
    fun s hs => (ho.covers s (hsent ▸ hs)).imp_left (hseen s)⟩

/-- Events after the last switch: nothing new is sent. -/
def Event.isSend : Event → Bool
  | .send .. => true
  | _ => false

/-- A step that sends nothing forgets nothing, and takes at most one frame
off the link. -/
theorem step_frame {l l' : Link} {e : Event} (hl : l.Inv P isClient keys)
    (hsend : e.isSend = false) (h : l.step P isClient e = some l') :
    (l'.arrived = l.arrived ∧ l'.sent = l.sent ∧ l'.recv = l.recv)
      ∨ ∃ f s, Genuine P (Session.writeKey keys isClient) l.sent s f
          ∧ l'.arrived = l.arrived ++ [f] ∧ l'.sent = (l.ingest P isClient f).sent
          ∧ l'.recv = (l.ingest P isClient f).recv := by
  cases e with
  | send payload r rnd => cases hsend
  | lose i =>
      simp only [step] at h
      split at h
      · obtain rfl := Option.some.inj h
        exact Or.inl ⟨rfl, rfl, rfl⟩
      · cases h
  | duplicate i =>
      obtain ⟨frame, -, rfl⟩ := Option.map_eq_some_iff.mp h
      exact Or.inl ⟨rfl, rfl, rfl⟩
  | deliver i =>
      obtain ⟨frame, hframe, rfl⟩ := Option.map_eq_some_iff.mp h
      obtain ⟨s, hs⟩ := hl.inflight frame (List.mem_of_getElem? hframe)
      exact Or.inr ⟨frame, s, hs, rfl, rfl, rfl⟩
  | buildAck => obtain rfl := Option.some.inj h; exact Or.inl ⟨rfl, rfl, rfl⟩
  | applyAck i =>
      obtain ⟨ack, -, rfl⟩ := Option.map_eq_some_iff.mp h
      exact Or.inl ⟨rfl, rfl, rfl⟩
  | switch => obtain rfl := Option.some.inj h; exact Or.inl ⟨rfl, rfl, rfl⟩

theorem recovers_of_not_send {key : Key} {e : Event} (h : e.isSend = false) :
    e.Recovers P key := by
  cases e with
  | send payload r rnd => cases h
  | _ => trivial

theorem arrived_grows {es : List Event} {l u : Link} (hl : l.Inv P isClient keys)
    (hsend : ∀ e ∈ es, e.isSend = false) (h : exec (step P isClient) l es = some u) :
    ∃ later, u.arrived = l.arrived ++ later := by
  induction es generalizing l with
  | nil =>
      obtain rfl := Option.some.inj h
      exact ⟨[], by simp⟩
  | cons e es ih =>
      obtain ⟨m, hm, h⟩ := exec_cons.mp h
      have he := hsend e List.mem_cons_self
      obtain ⟨later, hlater⟩ := ih (inv_step (recovers_of_not_send he) hl hm)
        (fun e he => hsend e (List.mem_cons_of_mem _ he)) h
      rcases step_frame hl he hm with ⟨harr, -⟩ | ⟨f, s, -, harr, -⟩
      · exact ⟨later, by rw [hlater, harr]⟩
      · exact ⟨f :: later, by rw [hlater, harr, List.append_assoc, List.singleton_append]⟩

/-- If the outstanding frames arrive in order, whatever else arrives in
between, everything is seen. -/
theorem seen_of_replay {es : List Event} {l u : Link} {entries : List (UInt64 × Bytes)}
    {arrivals : List Bytes} (hl : l.Inv P isClient keys)
    (ho : l.Outstanding P isClient keys entries) (hsend : ∀ e ∈ es, e.isSend = false)
    (h : exec (step P isClient) l es = some u) (harr : u.arrived = l.arrived ++ arrivals)
    (hsub : (entries.map Prod.snd).Sublist arrivals) :
    u.Inv P isClient keys ∧ ∀ s : UInt64, s.toNat < u.sent.length → u.recv.Seen s := by
  induction es generalizing l entries arrivals with
  | nil =>
      obtain rfl := Option.some.inj h
      obtain rfl : arrivals = [] := by simpa using harr
      obtain rfl : entries = [] := by simpa using hsub
      exact ⟨hl, fun s hs => (ho.covers s hs).resolve_right (by simp)⟩
  | cons e es ih =>
      obtain ⟨m, hm, h⟩ := exec_cons.mp h
      have hminv := inv_step (recovers_of_not_send (hsend e List.mem_cons_self)) hl hm
      have hsend' : ∀ e ∈ es, e.isSend = false := fun e he => hsend e (List.mem_cons_of_mem _ he)
      rcases step_frame hl (hsend e List.mem_cons_self) hm with
        ⟨harr', hsent, hrecv⟩ | ⟨f, s, hf, harr', hsent, hrecv⟩
      · exact ih hminv (ho.mono hsent fun s hs => hrecv ▸ hs) hsend' h (harr' ▸ harr) hsub
      · obtain ⟨-, hmono, -, hsame⟩ := ingest_spec hl hf
        obtain ⟨later, hlater⟩ := arrived_grows hminv hsend' h
        rw [harr', List.append_assoc] at hlater
        obtain rfl : arrivals = f :: later := by
          rw [hlater, List.append_cancel_left_eq] at harr
          exact harr.symm
        have hstep : u.arrived = m.arrived ++ later := by rw [harr', hlater, List.append_assoc]
        cases entries with
        | nil =>
            refine ih hminv (ho.mono (hsent.trans hsame) fun s hs => hrecv ▸ hmono s hs) hsend' h
              hstep (List.nil_sublist _)
        | cons x rest =>
            rw [List.map_cons] at hsub
            rcases List.sublist_cons_iff.mp hsub with hsub | ⟨r, hr, hsub⟩
            · exact ih hminv (ho.mono (hsent.trans hsame) fun s hs => hrecv ▸ hmono s hs) hsend' h
                hstep hsub
            · obtain ⟨rfl, rfl⟩ := List.cons.inj hr
              have hnext := (outstanding_ingest hl ho).mono hsent (fun s hs => hrecv ▸ hs)
              exact ih hminv hnext hsend' h hstep hsub

/-- The continuity layer is a plain list over any schedule: what has been
delivered is always a prefix of what was sent, and a final switch whose
replayed frames arrive in replay order (possibly among others) delivers
everything and leaves nothing pending. -/
theorem stream_integrity (P : Primitives) (isClient : Bool) (id : SessionId) (keys : SessionKeys)
    (sendMax recvMax : Nat) (es : List Event)
    (hrec : ∀ e ∈ es, e.Recovers P (Session.writeKey keys isClient)) :
    Always (step P isClient) (fun l => l.delivered <+: l.sent) (start id keys sendMax recvMax) es
      ∧ ∀ before after l u, es = before ++ .switch :: after →
          exec (step P isClient) (start id keys sendMax recvMax) before = some l →
          exec (step P isClient) l.switchTransport after = some u →
          (∀ e ∈ after, e.isSend = false) →
          (∃ arrivals, u.arrived = l.arrived ++ arrivals
            ∧ (replayFrames l.switchTransport.buffer).Sublist arrivals) →
          u.delivered = u.sent ∧ u.recv.pending.isEmpty = true := by
  have hstart : (start id keys sendMax recvMax).Inv P isClient keys :=
    inv_start id keys sendMax recvMax
  have halways := always_of_meets (fun _ _ _ hl hc => inv_step hc hl) hstart
    (meets_of_forall fun e he _ => hrec e he)
  refine ⟨halways.mono fun _ => Inv.delivered_sent, ?_⟩
  rintro before after l u rfl hbefore hafter hsend ⟨arrivals, harr, hsub⟩
  have hl : l.Inv P isClient keys :=
    always_iff.mp halways before (List.prefix_append _ _) l hbefore
  rw [replayFrames, (Replay.run_new _).1] at hsub
  obtain ⟨hu, hseen⟩ := seen_of_replay (inv_switch hl) (outstanding_switch hl) hsend hafter harr hsub
  exact hu.complete hseen

/-- Two payloads: the first frame is lost, the second arrives ahead of it. -/
def lossy : List Event :=
  [.send [1] 0 fun _ => 0, .send [2] 0 fun _ => 0, .lose 0, .deliver 0, .buildAck]

theorem isSome_lossy :
    (exec (step .plain true) (start (zeroArr 16) plainKeys 100 100) lossy).isSome := by decide

def afterLoss : Link := Option.get _ isSome_lossy

theorem isSome_replayed :
    (exec (step .plain true) afterLoss.switchTransport [.deliver 0, .deliver 0]).isSome := by
  decide

def afterReplay : Link := Option.get _ isSome_replayed

theorem stream_integrity_lossy :
    afterLoss.delivered = [] ∧ afterReplay.delivered = afterReplay.sent
      ∧ afterReplay.recv.pending.isEmpty = true := by
  have hrec : ∀ e ∈ lossy ++ .switch :: [.deliver 0, .deliver 0],
      e.Recovers .plain (Session.writeKey plainKeys true) := by
    intro e he
    simp only [lossy, List.cons_append, List.nil_append, List.mem_cons, List.not_mem_nil,
      or_false] at he
    rcases he with rfl | rfl | rfl | rfl | rfl | rfl | rfl | rfl
    · exact recovers_of_lawful _ Primitives.plain_lawful _ (by decide) _ _
    · exact recovers_of_lawful _ Primitives.plain_lawful _ (by decide) _ _
    all_goals trivial
  refine ⟨by decide, (stream_integrity .plain true (zeroArr 16) plainKeys 100 100 _ hrec).2 lossy
    [.deliver 0, .deliver 0] afterLoss afterReplay rfl (Option.some_get isSome_lossy).symm
    (Option.some_get isSome_replayed).symm (by decide)
    ⟨afterReplay.arrived.drop 1, by decide, by decide⟩⟩

end Link

end Kanrin
