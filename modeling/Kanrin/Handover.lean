import Kanrin.Lib.Run
import Kanrin.Lib.Parties
import Kanrin.SendBuffer
import Kanrin.Session

/-!
# Handing a session from one connection to the next

The connections of one registry entry: `ClientSession::serve` of the
server's `session.rs` and `SessionEntry::attach` of its `registry.rs`. Any
number of connections run at once. Each replays the send buffer under its
lock, spawns a writer task and attaches it, which aborts the writer
attached before; a writer takes the reply queue for as long as it lives.

An event is what happens between two await points. An abort is a mark on
a task, and takes effect (`cancel`) at any await point after. `locked` is
the connection whose replay holds the send buffer's lock; pushes and
acknowledgements wait for it.

- `Retained`: every data chunk numbered and not acknowledged is in the
  buffer, or in the hands of a live writer about to push it.
- `Covered`: whenever a connection evicted another, it had been sent every
  chunk that was then in the buffer.

Neither holds of every run. `Orderly` is what `Inv.step` needs of a step
to keep both: a chunk is not lost between its number and the buffer, no
replay is cut short, and nothing is pushed between the end of a replay and
the eviction it is for.
-/

namespace Kanrin

open Lib

/-- Where a writer task waits. -/
inductive WriterPc where
  | unborn
  /-- For the reply queue. -/
  | claiming
  /-- For a packet or an acknowledgement to send. -/
  | selecting
  /-- For the session, with a chunk to encrypt. -/
  | sealing (chunk : Chunk)
  /-- For the send buffer, with a chunk that has its number. -/
  | retaining (sequence : UInt64) (bytes : Bytes)
  /-- For the transport. -/
  | writing (bytes : Bytes)
  | ended
deriving DecidableEq

/-- Where `serve` has got to. -/
inductive ServePc where
  | queued
  | replaying (replay : Replay)
  | replayed
  | spawned
  | attached
  | closed
deriving DecidableEq

structure Connection where
  serve : ServePc
  writer : WriterPc
  aborted : Bool
  written : List Bytes

namespace Connection

def fresh : Connection where
  serve := .queued
  writer := .unborn
  aborted := false
  written := []

/-- The chunk a writer has numbered and not pushed yet. -/
def inHand (c : Connection) : Option (UInt64 × Bytes) :=
  match c.writer with
  | .retaining sequence bytes => some (sequence, bytes)
  | _ => none

theorem inHand_eq_some {c : Connection} {sequence : UInt64} {bytes : Bytes}
    (h : c.writer = .retaining sequence bytes) : c.inHand = some (sequence, bytes) := by
  rw [inHand, h]

/-- Between the end of the replay and the attachment. -/
def HandingOver (c : Connection) : Prop := c.serve = .replayed ∨ c.serve = .spawned

instance (c : Connection) : Decidable c.HandingOver := inferInstanceAs (Decidable (_ ∨ _))

end Connection

structure Handover where
  session : Session
  buffer : SendBuffer
  locked : Option Nat
  replyOwner : Option Nat
  attached : Option Nat
  conns : List Connection
  outstanding : List (UInt64 × Bytes)
  /-- At each eviction: the buffer, and what the new connection was sent. -/
  evictions : List (SendBuffer × List Bytes)

namespace Handover

def start (id : SessionId) (keys : SessionKeys) (maxBytes : Nat) : Handover where
  session := .new id keys
  buffer := .new maxBytes
  locked := none
  replyOwner := none
  attached := none
  conns := []
  outstanding := []
  evictions := []

inductive Event where
  | arrive
  /-- The replay takes the send buffer's lock. -/
  | lock (i : Nat)
  | replayWrite (i : Nat) (ok : Bool)
  | replayDone (i : Nat)
  | spawn (i : Nat)
  | attach (i : Nat)
  /-- The reader loop ends, and aborts the writer. -/
  | disconnect (i : Nat)
  | claim (i : Nat)
  | receive (i : Nat) (packet : Bytes) (r : UInt8)
  | report (i : Nat) (payload : Bytes) (r : UInt8)
  /-- Both queues are closed. -/
  | hangUp (i : Nat)
  | encrypt (i : Nat) (rnd : Rand)
  | push (i : Nat)
  | write (i : Nat) (ok : Bool)
  | cancel (i : Nat)
  | ack (next : UInt64) (ranges : List SackRange)

def update (t : Handover) (i : Nat) (f : Connection → Connection) : Handover :=
  { t with conns := t.conns.modify i f }

def setWriter (t : Handover) (i : Nat) (writer : WriterPc) : Handover :=
  t.update i fun c => { c with writer }

def setServe (t : Handover) (i : Nat) (serve : ServePc) : Handover :=
  t.update i fun c => { c with serve }

/-- A writer that ends, however it ends, lets go of the reply queue. -/
def endWriter (t : Handover) (i : Nat) : Handover :=
  { t.setWriter i .ended with
    replyOwner := if t.replyOwner = some i then none else t.replyOwner }

/-- `AbortHandle::abort` of a connection's writer. -/
def abort (t : Handover) (i : Nat) : Handover := t.update i fun c => { c with aborted := true }

/-- `SessionEntry::attach`. -/
def attach (t : Handover) (i : Nat) (c : Connection) : Handover :=
  let t' := { t.setServe i .attached with attached := some i }
  match t.attached with
  | none => t'
  | some previous =>
      { t'.abort previous with evictions := t.evictions ++ [(t.buffer, c.written)] }

variable (P : Primitives)

def step (t : Handover) : Event → Option Handover
  | .arrive => some { t with conns := t.conns ++ [.fresh] }
  | .lock i =>
      t.conns[i]?.bind fun c =>
        if c.serve = .queued ∧ t.locked = none then
          some { t.setServe i (.replaying .new) with locked := some i }
        else none
  | .replayWrite i ok =>
      t.conns[i]?.bind fun c =>
        match c.serve with
        | .replaying replay =>
            match replay.nextChunk t.buffer with
            | none => none
            | some (sequence, data) =>
                if ok then
                  some (t.update i fun c =>
                    { c with
                      serve := .replaying (replay.confirmSent sequence)
                      written := c.written ++ [data] })
                else some { t.setServe i .replayed with locked := none }
        | _ => none
  | .replayDone i =>
      t.conns[i]?.bind fun c =>
        match c.serve with
        | .replaying replay =>
            if (replay.nextChunk t.buffer).isNone then
              some { t.setServe i .replayed with locked := none }
            else none
        | _ => none
  | .spawn i =>
      t.conns[i]?.bind fun c =>
        if c.serve = .replayed ∧ c.writer = .unborn then
          some ((t.setServe i .spawned).setWriter i .claiming)
        else none
  | .attach i =>
      t.conns[i]?.bind fun c => if c.serve = .spawned then some (t.attach i c) else none
  | .disconnect i =>
      t.conns[i]?.bind fun c =>
        if c.serve = .attached then some ((t.setServe i .closed).abort i) else none
  | .claim i =>
      t.conns[i]?.bind fun c =>
        if c.writer = .claiming ∧ t.replyOwner = none then
          some { t.setWriter i .selecting with replyOwner := some i }
        else none
  | .receive i packet r =>
      t.conns[i]?.bind fun c =>
        if c.writer = .selecting then some (t.setWriter i (.sealing (Chunk.newData packet r)))
        else none
  | .report i payload r =>
      t.conns[i]?.bind fun c =>
        if c.writer = .selecting then some (t.setWriter i (.sealing (Chunk.newControl payload r)))
        else none
  | .hangUp i =>
      t.conns[i]?.bind fun c => if c.writer = .selecting then some (t.endWriter i) else none
  | .encrypt i rnd =>
      t.conns[i]?.bind fun c =>
        match c.writer with
        | .sealing chunk =>
            let sequence := t.session.sendNonceValue
            match t.session.encryptOutgoing P chunk false rnd with
            | .ok (bytes, session) =>
                if chunk.header.chunkType = .data then
                  some { t.setWriter i (.retaining sequence bytes) with
                    session
                    outstanding := t.outstanding ++ [(sequence, bytes)] }
                else some { t.setWriter i (.writing bytes) with session }
            | .error _ => some (t.endWriter i)
        | _ => none
  | .push i =>
      t.conns[i]?.bind fun c =>
        match c.writer with
        | .retaining sequence bytes =>
            if t.locked = none then
              match t.buffer.push sequence bytes with
              | .ok buffer => some { t.setWriter i (.writing bytes) with buffer }
              | .error _ => some (t.setWriter i (.writing bytes))
            else none
        | _ => none
  | .write i ok =>
      t.conns[i]?.bind fun c =>
        match c.writer with
        | .writing bytes =>
            if ok then
              some (t.update i fun c =>
                { c with writer := .selecting, written := c.written ++ [bytes] })
            else some (t.endWriter i)
        | _ => none
  | .cancel i =>
      t.conns[i]?.bind fun c => if c.aborted then some (t.endWriter i) else none
  | .ack next ranges =>
      if t.locked = none then
        some { t with
          buffer := (t.buffer.applyAck next ranges).2
          outstanding := t.outstanding.filter fun e => decide ¬ SendBuffer.Covers next ranges e.1 }
      else none

/-! ## The two properties -/

def Retained (t : Handover) : Prop :=
  ∀ e ∈ t.outstanding,
    t.buffer.get? e.1 = some e.2 ∨ ∃ c ∈ t.conns, c.writer = .retaining e.1 e.2

def Covered (t : Handover) : Prop :=
  ∀ v ∈ t.evictions, ∀ e ∈ v.1.chunks.entries, e.2 ∈ v.2

def NothingLost (t : Handover) : Prop := t.Retained ∧ t.Covered

instance (t : Handover) : Decidable t.Retained := inferInstanceAs (Decidable (∀ _ ∈ _, _))

instance (t : Handover) : Decidable t.Covered := inferInstanceAs (Decidable (∀ _ ∈ _, _))

instance (t : Handover) : Decidable t.NothingLost := inferInstanceAs (Decidable (_ ∧ _))

/-- What keeps a handover from losing anything. -/
def Orderly (t : Handover) : Event → Prop
  | .replayWrite _ ok => ok = true
  | .push i =>
      (∀ c ∈ t.conns[i]?, ∀ e ∈ c.inHand, e ∈ t.outstanding → t.buffer.Admits e.2.length)
        ∧ ∀ c ∈ t.conns, ¬ c.HandingOver
  | .cancel i => ∀ c ∈ t.conns[i]?, ∀ e ∈ c.inHand, e ∉ t.outstanding
  | _ => True

instance (t : Handover) : (e : Event) → Decidable (t.Orderly e)
  | .replayWrite _ ok => inferInstanceAs (Decidable (ok = true))
  | .push i => inferInstanceAs (Decidable ((∀ c ∈ t.conns[i]?, ∀ e ∈ c.inHand,
      e ∈ t.outstanding → t.buffer.Admits e.2.length) ∧ ∀ c ∈ t.conns, ¬ c.HandingOver))
  | .cancel i => inferInstanceAs (Decidable (∀ c ∈ t.conns[i]?, ∀ e ∈ c.inHand, e ∉ t.outstanding))
  | .arrive | .lock _ | .replayDone _ | .spawn _ | .attach _ | .disconnect _ | .claim _
  | .receive .. | .report .. | .hangUp _ | .encrypt .. | .write .. | .ack .. => isTrue trivial

/-! ## The invariant -/

/-- What holds of the `i`th connection. -/
structure Sound (t : Handover) (i : Nat) (c : Connection) : Prop where
  -- a chunk in hand is the only outstanding one with its number
  held : ∀ sequence bytes, c.writer = .retaining sequence bytes → sequence < t.session.sendSeq
    ∧ ∀ e ∈ t.outstanding, e.1 = sequence → e = (sequence, bytes)
  locked : ∀ replay, c.serve = .replaying replay → t.locked = some i
  replaying : ∀ replay, c.serve = .replaying replay → ∀ e ∈ t.buffer.chunks.entries,
    e ∈ Replay.remaining t.buffer replay.next ∨ e.2 ∈ c.written
  handingOver : c.HandingOver → ∀ e ∈ t.buffer.chunks.entries, e.2 ∈ c.written

structure Inv (t : Handover) : Prop where
  numbered : ∀ e ∈ t.outstanding, e.1 < t.session.sendSeq
  sound : ∀ i c, t.conns[i]? = some c → t.Sound i c
  retained : t.Retained
  covered : t.Covered

theorem inv_start (id : SessionId) (keys : SessionKeys) (maxBytes : Nat) :
    (start id keys maxBytes).Inv where
  numbered _ h := by cases h
  sound _ _ h := by cases h
  retained _ h := by cases h
  covered _ h := by cases h

/-- One connection moves; the others are left as they were. -/
theorem sound_update {t t' : Handover} {i : Nat} {c : Connection} {f : Connection → Connection}
    (hconns : t'.conns = t.conns.modify i f) (hc : t.conns[i]? = some c)
    (hself : t'.Sound i (f c)) (hother : ∀ j d, t.conns[j]? = some d → j ≠ i → t'.Sound j d) :
    ∀ j d, t'.conns[j]? = some d → t'.Sound j d := by
  intro j d hd
  rw [hconns] at hd
  rcases modify_cases hd with ⟨rfl, c0, hc0, rfl⟩ | ⟨hne, hd⟩
  · obtain rfl := Option.some.inj (hc0.symm.trans hc)
    exact hself
  · exact hother j d hd hne

/-- A connection that moves lets go of a chunk in hand only when that chunk
is safe. -/
theorem retained_update {t : Handover} (h : t.Retained) {i : Nat} {c : Connection}
    {f : Connection → Connection} (hc : t.conns[i]? = some c)
    (hold : ∀ sequence bytes, c.writer = .retaining sequence bytes →
      (f c).writer = c.writer ∨ (sequence, bytes) ∉ t.outstanding
        ∨ t.buffer.get? sequence = some bytes) : (t.update i f).Retained := by
  intro e he
  rcases h e he with hget | ⟨d, hd, hw⟩
  · exact Or.inl hget
  obtain ⟨j, hj⟩ := List.mem_iff_getElem?.mp hd
  by_cases hji : j = i
  · subst hji
    obtain rfl := Option.some.inj (hc.symm.trans hj)
    rcases hold e.1 e.2 hw with hsame | hgone | hget
    · exact Or.inr ⟨f c, mem_modify_self f hc, hsame.trans hw⟩
    · exact absurd he hgone
    · exact Or.inl hget
  · exact Or.inr ⟨d, mem_modify_of_ne f hj hji, hw⟩

/-- A connection moves and touches nothing that is shared. -/
theorem Inv.update {t : Handover} (h : t.Inv) {i : Nat} {c : Connection}
    {f : Connection → Connection} (hc : t.conns[i]? = some c) (hself : t.Sound i (f c))
    (hold : ∀ sequence bytes, c.writer = .retaining sequence bytes →
      (f c).writer = c.writer ∨ (sequence, bytes) ∉ t.outstanding
        ∨ t.buffer.get? sequence = some bytes) : (t.update i f).Inv where
  numbered := h.numbered
  sound := by
    have hself' : (t.update i f).Sound i (f c) := ⟨hself.1, hself.2, hself.3, hself.4⟩
    exact sound_update rfl hc hself' fun j d hd _ =>
      ⟨(h.sound j d hd).1, (h.sound j d hd).2, (h.sound j d hd).3, (h.sound j d hd).4⟩
  retained := retained_update h.retained hc hold
  covered := h.covered

/-- Soundness reads the buffer, its lock, the outstanding chunks and a bound
on their numbers. -/
theorem Sound.of_eq {t t' : Handover} {i : Nat} {c : Connection} (h : t.Sound i c)
    (hbuffer : t'.buffer = t.buffer) (hlocked : t'.locked = t.locked)
    (hout : t'.outstanding = t.outstanding) (hseq : t.session.sendSeq ≤ t'.session.sendSeq) :
    t'.Sound i c where
  held sequence bytes hw := by
    obtain ⟨hlt, huniq⟩ := h.held sequence bytes hw
    exact ⟨lt_of_lt_of_le hlt hseq, hout ▸ huniq⟩
  locked := hlocked ▸ h.locked
  replaying := hbuffer ▸ h.replaying
  handingOver := hbuffer ▸ h.handingOver

/-- A writer moves on from where it waited. -/
theorem Inv.setWriter {t : Handover} (h : t.Inv) {i : Nat} {c : Connection} {writer : WriterPc}
    (hc : t.conns[i]? = some c) (hnew : ∀ sequence bytes, writer ≠ .retaining sequence bytes)
    (hold : ∀ sequence bytes, c.writer = .retaining sequence bytes →
      (sequence, bytes) ∉ t.outstanding ∨ t.buffer.get? sequence = some bytes) :
    (t.setWriter i writer).Inv := by
  have hsound := h.sound i c hc
  refine h.update hc ⟨fun sequence bytes hw => absurd hw (hnew sequence bytes), hsound.locked,
    hsound.replaying, hsound.handingOver⟩ fun sequence bytes hw => Or.inr (hold sequence bytes hw)

theorem Inv.withOwner {t : Handover} (h : t.Inv) (replyOwner : Option Nat) :
    Inv { t with replyOwner } :=
  ⟨h.numbered, fun i c hc => (h.sound i c hc).of_eq rfl rfl rfl le_rfl, h.retained, h.covered⟩

theorem Inv.endWriter {t : Handover} (h : t.Inv) {i : Nat} {c : Connection}
    (hc : t.conns[i]? = some c)
    (hold : ∀ sequence bytes, c.writer = .retaining sequence bytes →
      (sequence, bytes) ∉ t.outstanding ∨ t.buffer.get? sequence = some bytes) :
    (t.endWriter i).Inv :=
  (h.setWriter hc (fun _ _ => by simp) hold).withOwner _

theorem Inv.abort {t : Handover} (h : t.Inv) (i : Nat) : (t.abort i).Inv := by
  cases hc : t.conns[i]? with
  | none =>
      have hsame : t.abort i = t := by
        have hlen := List.getElem?_eq_none_iff.mp hc
        simp only [Handover.abort, Handover.update, List.modify_eq_self hlen]
      rw [hsame]
      exact h
  | some c =>
      have hsound := h.sound i c hc
      exact h.update hc ⟨hsound.held, hsound.locked, hsound.replaying, hsound.handingOver⟩
        fun _ _ _ => Or.inl rfl

/-- A writer that waits elsewhere has no chunk in hand. -/
theorem not_in_hand {c : Connection} {writer : WriterPc} {A : UInt64 → Bytes → Prop}
    (hw : c.writer = writer) (hne : ∀ sequence bytes, writer ≠ .retaining sequence bytes) :
    ∀ sequence bytes, c.writer = .retaining sequence bytes → A sequence bytes := by
  intro sequence bytes h
  exact absurd (hw.symm.trans h) (hne sequence bytes)

/-- Past a replay and an attachment nothing is asked of a connection. -/
theorem Inv.setServe {t : Handover} (h : t.Inv) {i : Nat} {c : Connection} {serve : ServePc}
    (hc : t.conns[i]? = some c) (hreplay : ∀ replay, serve ≠ .replaying replay)
    (hhand : serve = .replayed ∨ serve = .spawned → c.HandingOver) : (t.setServe i serve).Inv := by
  have hsound := h.sound i c hc
  exact h.update hc ⟨hsound.held, fun r hr => absurd hr (hreplay r),
    fun r hr => absurd hr (hreplay r), fun hh => hsound.handingOver (hhand hh)⟩
    fun _ _ _ => Or.inl rfl

theorem Inv.not_replaying {t : Handover} (h : t.Inv) (hfree : t.locked = none) {i : Nat}
    {c : Connection} (hc : t.conns[i]? = some c) (replay : Replay) :
    c.serve ≠ .replaying replay := by
  intro hs
  have hlock := (h.sound i c hc).locked replay hs
  rw [hfree] at hlock
  cases hlock

/-! ## The steps that touch what is shared -/

theorem inv_arrive {t : Handover} (h : t.Inv) : Inv { t with conns := t.conns ++ [.fresh] } := by
  refine ⟨h.numbered, fun i c hc => ?_, fun e he => ?_, h.covered⟩
  · rcases concat_cases hc with hc | rfl
    · exact (h.sound i c hc).of_eq rfl rfl rfl le_rfl
    · refine ⟨fun _ _ hw => ?_, fun _ hs => ?_, fun _ hs => ?_, fun hs => ?_⟩
      · cases hw
      · cases hs
      · cases hs
      · rcases hs with hs | hs <;> cases hs
  · exact (h.retained e he).imp_right fun ⟨c, hc, hw⟩ => ⟨c, List.mem_append_left _ hc, hw⟩

/-- A connection takes the lock: everything is left to replay. -/
theorem inv_lock {t : Handover} (h : t.Inv) {i : Nat} {c : Connection} (hc : t.conns[i]? = some c)
    (hfree : t.locked = none) :
    Inv { t.setServe i (.replaying .new) with locked := some i } := by
  have hsound := h.sound i c hc
  refine ⟨h.numbered, sound_update (i := i) rfl hc ⟨hsound.held, fun _ _ => rfl, ?_, ?_⟩ ?_,
    retained_update h.retained hc fun _ _ _ => Or.inl rfl, h.covered⟩
  · intro r hr e he
    obtain rfl := ServePc.replaying.inj hr
    exact Or.inl (Replay.remaining_zero t.buffer ▸ he)
  · intro hh
    rcases hh with hh | hh <;> cases hh
  · intro j d hd _
    have hnot := h.not_replaying hfree hd
    exact ⟨(h.sound j d hd).held, fun r hr => absurd hr (hnot r), fun r hr => absurd hr (hnot r),
      (h.sound j d hd).handingOver⟩

/-- A replay writes the next chunk. -/
theorem inv_replayWrite {t : Handover} (h : t.Inv) {i : Nat} {c : Connection} {replay : Replay}
    {sequence : UInt64} {data : Bytes} (hc : t.conns[i]? = some c)
    (hserve : c.serve = .replaying replay)
    (hnext : replay.nextChunk t.buffer = some (sequence, data)) :
    (t.update i fun c =>
      { c with
        serve := .replaying (replay.confirmSent sequence)
        written := c.written ++ [data] }).Inv := by
  have hsound := h.sound i c hc
  rw [Replay.nextChunk_eq_head?] at hnext
  obtain ⟨rest, hrest⟩ := List.head?_eq_some_iff.mp hnext
  have hrem : Replay.remaining t.buffer (replay.confirmSent sequence).next = rest :=
    Replay.remaining_succ hrest
  refine h.update hc ⟨hsound.held, fun _ _ => hsound.locked replay hserve, ?_, ?_⟩
    fun _ _ _ => Or.inl rfl
  · intro r hr e he
    obtain rfl := ServePc.replaying.inj hr
    rw [hrem]
    rcases hsound.replaying replay hserve e he with hmem | hmem
    · rw [hrest] at hmem
      rcases List.mem_cons.mp hmem with rfl | hmem
      · exact Or.inr (List.mem_append_right _ List.mem_cons_self)
      · exact Or.inl hmem
    · exact Or.inr (List.mem_append_left _ hmem)
  · intro hh
    rcases hh with hh | hh <;> cases hh

/-- A replay that runs to its end has sent the whole buffer. -/
theorem inv_replayDone {t : Handover} (h : t.Inv) {i : Nat} {c : Connection} {replay : Replay}
    (hc : t.conns[i]? = some c) (hserve : c.serve = .replaying replay)
    (hdone : (replay.nextChunk t.buffer).isNone = true) :
    Inv { t.setServe i .replayed with locked := none } := by
  have hsound := h.sound i c hc
  have hlock := hsound.locked replay hserve
  have hrem : Replay.remaining t.buffer replay.next = [] := by
    rw [Replay.nextChunk_eq_head?, Option.isNone_iff_eq_none, List.head?_eq_none_iff] at hdone
    exact hdone
  refine ⟨h.numbered, sound_update (i := i) rfl hc ⟨hsound.held, ?_, ?_, ?_⟩ ?_,
    retained_update h.retained hc fun _ _ _ => Or.inl rfl, h.covered⟩
  · intro r hr
    cases hr
  · intro r hr
    cases hr
  · intro _ e he
    rcases hsound.replaying replay hserve e he with hmem | hmem
    · rw [hrem] at hmem
      cases hmem
    · exact hmem
  · intro j d hd hne
    -- whoever else replayed would hold the lock
    have hnot : ∀ r, d.serve ≠ .replaying r := by
      intro r hr
      have hj := (h.sound j d hd).locked r hr
      exact hne (Option.some.inj (hj.symm.trans hlock))
    exact ⟨(h.sound j d hd).held, fun r hr => absurd hr (hnot r), fun r hr => absurd hr (hnot r),
      (h.sound j d hd).handingOver⟩

theorem inv_attach {t : Handover} (h : t.Inv) {i : Nat} {c : Connection}
    (hc : t.conns[i]? = some c) (hserve : c.serve = .spawned) : (t.attach i c).Inv := by
  have hsent := (h.sound i c hc).handingOver (Or.inr hserve)
  have hset : (t.setServe i .attached).Inv := by
    refine h.setServe hc (fun _ => by simp) ?_
    intro hh
    rcases hh with hh | hh <;> cases hh
  have hattached : Inv { t.setServe i .attached with attached := some i } :=
    ⟨hset.numbered, fun j d hd => (hset.sound j d hd).of_eq rfl rfl rfl le_rfl, hset.retained,
      hset.covered⟩
  unfold attach
  split
  · exact hattached
  · rename_i previous _
    have habort := hattached.abort previous
    refine ⟨habort.numbered, fun j d hd => (habort.sound j d hd).of_eq rfl rfl rfl le_rfl,
      habort.retained, fun v hv => ?_⟩
    rcases List.mem_append.mp hv with hv | hv
    · exact h.covered v hv
    · obtain rfl := List.mem_singleton.mp hv
      exact hsent

variable {P}

/-- Encrypting gives a data chunk the next number, and leaves it in hand. -/
theorem inv_encrypt {t t' : Handover} (h : t.Inv) {i : Nat} {rnd : Rand}
    (hstep : t.step P (.encrypt i rnd) = some t') : t'.Inv := by
  obtain ⟨c, hc, hstep⟩ := Option.bind_eq_some_iff.mp hstep
  split at hstep
  swap
  · cases hstep
  rename_i chunk hwriter
  have hsound := h.sound i c hc
  have hidle : ∀ sequence bytes, c.writer = .retaining sequence bytes →
      (sequence, bytes) ∉ t.outstanding ∨ t.buffer.get? sequence = some bytes :=
    not_in_hand hwriter fun _ _ => by simp
  split at hstep
  swap
  · obtain rfl := Option.some.inj hstep
    exact h.endWriter hc hidle
  rename_i bytes session henc
  obtain ⟨-, -, hsucc, -⟩ := Session.encryptOutgoing_eq_ok henc
  have hself : t.session.sendSeq < session.sendSeq := by
    rw [UInt64.lt_iff_toNat_lt]; omega
  split at hstep
  · obtain rfl := Option.some.inj hstep
    refine ⟨fun e he => ?_, sound_update (i := i) rfl hc ⟨?_, hsound.locked, hsound.replaying,
      hsound.handingOver⟩ ?_, fun e he => ?_, h.covered⟩
    · rcases List.mem_append.mp he with he | he
      · exact (h.numbered e he).trans hself
      · rw [List.mem_singleton.mp he]
        exact hself
    · intro s b hw
      obtain ⟨rfl, rfl⟩ := WriterPc.retaining.inj hw
      refine ⟨hself, fun e he heq => ?_⟩
      rcases List.mem_append.mp he with he | he
      · have hlt := h.numbered e he
        rw [heq] at hlt
        exact absurd hlt (lt_irrefl _)
      · exact List.mem_singleton.mp he
    · intro j d hd _
      refine ⟨fun s b hw => ?_, (h.sound j d hd).locked, (h.sound j d hd).replaying,
        (h.sound j d hd).handingOver⟩
      obtain ⟨hlt, huniq⟩ := (h.sound j d hd).held s b hw
      refine ⟨hlt.trans hself, fun e he heq => ?_⟩
      rcases List.mem_append.mp he with he | he
      · exact huniq e he heq
      · rw [← heq, List.mem_singleton.mp he] at hlt
        exact absurd hlt (lt_irrefl _)
    · rcases List.mem_append.mp he with he | he
      · exact retained_update h.retained hc (fun s b hw => Or.inr (hidle s b hw)) e he
      · obtain rfl := List.mem_singleton.mp he
        exact Or.inr ⟨_, mem_modify_self _ hc, rfl⟩
  · obtain rfl := Option.some.inj hstep
    have hset : (t.setWriter i (.writing bytes)).Inv := h.setWriter hc (fun _ _ => by simp) hidle
    exact ⟨fun e he => (h.numbered e he).trans hself,
      fun j d hd => (hset.sound j d hd).of_eq rfl rfl rfl hself.le, hset.retained, hset.covered⟩

/-- A chunk that fits goes from hand to buffer, when no one is handing over. -/
theorem inv_push {t t' : Handover} (h : t.Inv) {i : Nat} (horderly : t.Orderly (.push i))
    (hstep : t.step P (.push i) = some t') : t'.Inv := by
  obtain ⟨hfits, hnone⟩ := horderly
  obtain ⟨c, hc, hstep⟩ := Option.bind_eq_some_iff.mp hstep
  split at hstep
  swap
  · cases hstep
  rename_i sequence bytes hwriter
  split at hstep
  swap
  · cases hstep
  rename_i hfree
  obtain ⟨-, huniq⟩ := (h.sound i c hc).held sequence bytes hwriter
  have hinhand : ∀ s b, c.writer = .retaining s b → (s, b) = (sequence, bytes) := by
    intro s b hw
    rw [hwriter] at hw
    obtain ⟨rfl, rfl⟩ := WriterPc.retaining.inj hw
    rfl
  split at hstep
  · rename_i buffer hpush
    obtain rfl := Option.some.inj hstep
    have hget := SendBuffer.get?_push hpush
    have hstored : Inv { t with buffer } := by
      refine ⟨h.numbered, fun j d hd => ⟨(h.sound j d hd).held, (h.sound j d hd).locked, ?_, ?_⟩,
        fun e he => ?_, h.covered⟩
      · exact fun r hr => absurd hr (h.not_replaying hfree hd r)
      · exact fun hh => absurd hh (hnone d (List.mem_of_getElem? hd))
      · refine (h.retained e he).imp_left ?_
        intro hold
        simp only [hget]
        by_cases heq : e.1 = sequence
        · rw [if_pos heq, huniq e he heq]
        · rw [if_neg heq, hold]
    refine hstored.setWriter (i := i) hc (fun _ _ => by simp) fun s b hw => Or.inr ?_
    obtain ⟨rfl, rfl⟩ := Prod.mk.inj (hinhand s b hw)
    simp only [hget, if_true]
  · rename_i err hpush
    obtain rfl := Option.some.inj hstep
    refine h.setWriter hc (fun _ _ => by simp) fun s b hw => Or.inl ?_
    intro hmem
    obtain ⟨rfl, rfl⟩ := Prod.mk.inj (hinhand s b hw)
    obtain ⟨buffer, hok⟩ := SendBuffer.push_isOk_iff.mpr
      (hfits c hc _ (Connection.inHand_eq_some hwriter) hmem)
    rw [hok] at hpush
    cases hpush

/-- An acknowledgement releases what it takes off the record. -/
theorem inv_ack {t : Handover} (h : t.Inv) (hfree : t.locked = none) (next : UInt64)
    (ranges : List SackRange) :
    Inv { t with
      buffer := (t.buffer.applyAck next ranges).2
      outstanding :=
        t.outstanding.filter fun e => decide ¬ SendBuffer.Covers next ranges e.1 } := by
  have hentries : ∀ e, e ∈ (t.buffer.applyAck next ranges).2.chunks.entries →
      e ∈ t.buffer.chunks.entries := by
    intro e he
    have hget := SortedMap.get?_eq_some.mpr he
    have hlookup := SendBuffer.get?_applyAck t.buffer next ranges e.1
    rw [SendBuffer.get?, hget] at hlookup
    split at hlookup
    · cases hlookup
    · exact SortedMap.get?_eq_some.mp hlookup.symm
  refine ⟨fun e he => h.numbered e (List.mem_filter.mp he).1, fun j d hd => ?_, fun e he => ?_,
    h.covered⟩
  · refine ⟨fun s b hw => ?_, (h.sound j d hd).locked, ?_, ?_⟩
    · obtain ⟨hlt, huniq⟩ := (h.sound j d hd).held s b hw
      exact ⟨hlt, fun e he => huniq e (List.mem_filter.mp he).1⟩
    · exact fun r hr => absurd hr (h.not_replaying hfree hd r)
    · exact fun hh e he => (h.sound j d hd).handingOver hh e (hentries e he)
  · obtain ⟨hmem, hnot⟩ := List.mem_filter.mp he
    refine (h.retained e hmem).imp_left ?_
    intro hget
    simp only [SendBuffer.get?_applyAck, if_neg (of_decide_eq_true hnot), hget]

/-! ## Runs -/

theorem Inv.step {t t' : Handover} {e : Event} (h : t.Inv) (horderly : t.Orderly e)
    (hstep : t.step P e = some t') : t'.Inv := by
  cases e with
  | arrive =>
      obtain rfl := Option.some.inj hstep
      exact inv_arrive h
  | lock i =>
      obtain ⟨c, hc, hstep⟩ := Option.bind_eq_some_iff.mp hstep
      split at hstep
      · rename_i hguard
        obtain rfl := Option.some.inj hstep
        exact inv_lock h hc hguard.2
      · cases hstep
  | replayWrite i ok =>
      obtain ⟨c, hc, hstep⟩ := Option.bind_eq_some_iff.mp hstep
      split at hstep
      swap
      · cases hstep
      rename_i replay hserve
      split at hstep
      · cases hstep
      · rename_i sequence data hnext
        obtain rfl : ok = true := horderly
        obtain rfl := Option.some.inj hstep
        exact inv_replayWrite h hc hserve hnext
  | replayDone i =>
      obtain ⟨c, hc, hstep⟩ := Option.bind_eq_some_iff.mp hstep
      split at hstep
      swap
      · cases hstep
      rename_i replay hserve
      split at hstep
      · rename_i hdone
        obtain rfl := Option.some.inj hstep
        exact inv_replayDone h hc hserve hdone
      · cases hstep
  | spawn i =>
      obtain ⟨c, hc, hstep⟩ := Option.bind_eq_some_iff.mp hstep
      split at hstep
      swap
      · cases hstep
      rename_i hguard
      obtain rfl := Option.some.inj hstep
      have hserved : (t.setServe i .spawned).Inv :=
        h.setServe hc (fun _ => by simp) fun _ => Or.inl hguard.1
      exact hserved.setWriter (getElem?_modify_self _ hc) (fun _ _ => by simp)
        (not_in_hand (c := { c with serve := .spawned }) hguard.2 fun _ _ => by simp)
  | attach i =>
      obtain ⟨c, hc, hstep⟩ := Option.bind_eq_some_iff.mp hstep
      split at hstep
      · rename_i hserve
        obtain rfl := Option.some.inj hstep
        exact inv_attach h hc hserve
      · cases hstep
  | disconnect i =>
      obtain ⟨c, hc, hstep⟩ := Option.bind_eq_some_iff.mp hstep
      split at hstep
      swap
      · cases hstep
      obtain rfl := Option.some.inj hstep
      refine (h.setServe hc (fun _ => by simp) fun hh => ?_).abort i
      rcases hh with hh | hh <;> cases hh
  | claim i =>
      obtain ⟨c, hc, hstep⟩ := Option.bind_eq_some_iff.mp hstep
      split at hstep
      · rename_i hguard
        obtain rfl := Option.some.inj hstep
        exact (h.setWriter hc (fun _ _ => by simp)
          (not_in_hand hguard.1 fun _ _ => by simp)).withOwner _
      · cases hstep
  | receive i packet r =>
      obtain ⟨c, hc, hstep⟩ := Option.bind_eq_some_iff.mp hstep
      split at hstep
      · rename_i hwriter
        obtain rfl := Option.some.inj hstep
        exact h.setWriter hc (fun _ _ => by simp) (not_in_hand hwriter fun _ _ => by simp)
      · cases hstep
  | report i payload r =>
      obtain ⟨c, hc, hstep⟩ := Option.bind_eq_some_iff.mp hstep
      split at hstep
      · rename_i hwriter
        obtain rfl := Option.some.inj hstep
        exact h.setWriter hc (fun _ _ => by simp) (not_in_hand hwriter fun _ _ => by simp)
      · cases hstep
  | hangUp i =>
      obtain ⟨c, hc, hstep⟩ := Option.bind_eq_some_iff.mp hstep
      split at hstep
      · rename_i hwriter
        obtain rfl := Option.some.inj hstep
        exact h.endWriter hc (not_in_hand hwriter fun _ _ => by simp)
      · cases hstep
  | encrypt i rnd => exact inv_encrypt h hstep
  | push i => exact inv_push h horderly hstep
  | write i ok =>
      obtain ⟨c, hc, hstep⟩ := Option.bind_eq_some_iff.mp hstep
      split at hstep
      swap
      · cases hstep
      rename_i bytes hwriter
      split at hstep
      · obtain rfl := Option.some.inj hstep
        have hsound := h.sound i c hc
        refine h.update hc ⟨fun _ _ hw => ?_, hsound.locked, fun r hr e he => ?_, fun hh e he => ?_⟩
          (not_in_hand hwriter fun _ _ => by simp)
        · cases hw
        · exact (hsound.replaying r hr e he).imp_right (List.mem_append_left _)
        · exact List.mem_append_left _ (hsound.handingOver hh e he)
      · obtain rfl := Option.some.inj hstep
        exact h.endWriter hc (not_in_hand hwriter fun _ _ => by simp)
  | cancel i =>
      obtain ⟨c, hc, hstep⟩ := Option.bind_eq_some_iff.mp hstep
      split at hstep
      · obtain rfl := Option.some.inj hstep
        refine h.endWriter hc fun s b hw => Or.inl ?_
        intro hmem
        exact horderly c hc _ (Connection.inHand_eq_some hw) hmem
      · cases hstep
  | ack next ranges =>
      simp only [Handover.step] at hstep
      split at hstep
      · rename_i hfree
        obtain rfl := Option.some.inj hstep
        exact inv_ack h hfree next ranges
      · cases hstep

/-- In a run whose steps are all orderly no reply chunk is lost, whatever
the number of connections and the order in which they move. -/
theorem handover_loses_nothing (id : SessionId) (keys : SessionKeys) (maxBytes : Nat)
    (es : List Event) (h : Meets (step P) Orderly (start id keys maxBytes) es) :
    Always (step P) NothingLost (start id keys maxBytes) es :=
  (always_of_meets (fun _ _ _ hinv horderly hstep => Inv.step hinv horderly hstep)
    (inv_start id keys maxBytes) h).mono fun _ hinv => ⟨hinv.retained, hinv.covered⟩

/-- A connection that serves, with a packet to send. -/
def firstServes : List Event :=
  [.arrive, .lock 0, .replayDone 0, .spawn 0, .attach 0, .claim 0, .receive 0 [0x45] 0]

/-- The packet is pushed; the next connection replays it and takes over. -/
def handedOver : List Event :=
  firstServes ++ [.encrypt 0 noPadding, .push 0, .arrive, .lock 1, .replayWrite 1 true,
    .replayDone 1, .spawn 1, .attach 1, .cancel 0, .claim 1]

theorem handover_loses_nothing_handedOver :
    Always (step .plain) NothingLost (start (zeroArr 16) plainKeys 4096) handedOver :=
  handover_loses_nothing _ _ _ _ (by decide +kernel)

/-- The next connection takes the buffer's lock first. The packet gets its
number while the replay runs, and its writer is aborted waiting to push. -/
def abortedWaiting : List Event :=
  firstServes ++ [.arrive, .lock 1, .encrypt 0 noPadding, .replayDone 1, .spawn 1, .attach 1,
    .cancel 0]

/-- The packet is pushed, and the write that replays it fails. -/
def replayCutShort : List Event :=
  firstServes ++ [.encrypt 0 noPadding, .push 0, .arrive, .lock 1, .replayWrite 1 false, .spawn 1,
    .attach 1]

theorem isSome_abortedWaiting :
    (exec (step .plain) (start (zeroArr 16) plainKeys 4096) abortedWaiting).isSome := by
  decide +kernel

theorem isSome_replayCutShort :
    (exec (step .plain) (start (zeroArr 16) plainKeys 4096) replayCutShort).isSome := by
  decide +kernel

theorem handover_loses_chunks :
    (∃ t, exec (step .plain) (start (zeroArr 16) plainKeys 4096) abortedWaiting = some t
        ∧ ¬ t.Retained)
      ∧ ∃ t, exec (step .plain) (start (zeroArr 16) plainKeys 4096) replayCutShort = some t
        ∧ ¬ t.Covered :=
  ⟨⟨Option.get _ isSome_abortedWaiting, (Option.some_get isSome_abortedWaiting).symm,
      by decide +kernel⟩,
    ⟨Option.get _ isSome_replayCutShort, (Option.some_get isSome_replayCutShort).symm,
      by decide +kernel⟩⟩

end Handover

end Kanrin
