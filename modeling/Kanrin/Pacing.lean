import Kanrin.MainLoop

/-!
# When data is acknowledged

The acks of the client's main loop, over its runs. `Paced` keeps a record of
the data frames that were processed, and of what was said about them.

No frame waits long for an ack, neither behind too many others nor for too
long a time, and an ack covers whatever has been processed before it,
unless it has no room for more (`acks_keep_up`).
-/

namespace Kanrin

open Lib

/-! ## What an ack covers -/

namespace ReceiveBuffer

theorem exists_run_of_seen {r : ReceiveBuffer} {s : UInt64}
    (h : r.pending.contains s = true) : ∃ p ∈ r.pendingRuns, p.1 ≤ s ∧ s ≤ p.2 := by
  have hmem := SortedMap.mem_keys_iff_contains.mpr h
  have hsorted := r.pending.keys_sorted
  rw [pendingRuns]
  cases hk : r.pending.keys with
  | nil =>
      rw [hk] at hmem
      cases hmem
  | cons k ks =>
      rw [hk] at hmem hsorted
      refine exists_mem_runsFrom le_rfl hsorted ?_
      rcases List.mem_cons.mp hmem with rfl | hmem
      · exact Or.inl ⟨le_rfl, le_rfl⟩
      · exact Or.inr hmem

/-- An ack covers all that has been seen, or has no room for more. -/
theorem covers_of_seen {r : ReceiveBuffer} {s : UInt64} (h : r.Seen s) :
    SendBuffer.Covers r.nextExpected r.ackRanges s ∨ r.ackRanges.length = maxSackRanges := by
  rcases h with hlt | hheld
  · exact Or.inl (Or.inl hlt)
  · obtain ⟨p, hp, hs⟩ := exists_run_of_seen hheld
    rw [coalesce_eq]
    by_cases htake : p ∈ r.pendingRuns.take maxSackRanges
    · exact Or.inl (Or.inr ⟨toRange p, List.mem_map_of_mem htake, hs⟩)
    · refine Or.inr ?_
      rw [List.length_map, List.length_take, min_eq_left_iff]
      by_contra hshort
      exact htake (by rwa [List.take_of_length_le (by omega)])

end ReceiveBuffer

/-! ## The record -/

/-- A data frame, and the ack that went out for it. -/
structure ProcessedFrame where
  time : Nat
  sequence : UInt64
  ack : Option (UInt64 × List SackRange)

namespace ProcessedFrame

def quiet (f : ProcessedFrame) : Bool := f.ack.isNone

/-- When the last ack went out; at the start there is none to wait for. -/
def lastAck (start : Nat) (log : List ProcessedFrame) : Nat :=
  log.foldl (fun n f => if f.quiet then n else f.time) start

theorem lastAck_concat (start : Nat) (log : List ProcessedFrame) (f : ProcessedFrame) :
    lastAck start (log ++ [f]) = if f.quiet then lastAck start log else f.time :=
  List.foldl_concat ..

end ProcessedFrame

namespace MainLoop

variable (P : Primitives)

/-- What the step from `t` to `t'` says of a data frame. An ack has gone out
if a sequence has been used. -/
def processed (t : MainLoop) (e : Event) (t' : MainLoop) : Option ProcessedFrame :=
  match t.pc, e with
  | .select, .frame data now _ _ _ =>
      match t.session.decryptIncoming P data true with
      | .ok (chunk, _) =>
          if chunk.header.chunkType = .data
              ∧ (t.recvBuffer.accept chunk.header.sequence chunk.payload).isOk = true then
            some
              { time := now
                sequence := chunk.header.sequence
                ack :=
                  if t'.session.sendSeq = t.session.sendSeq then none
                  else some (t'.recvBuffer.nextExpected, t'.recvBuffer.ackRanges) }
          else none
      | .error _ => none
  | _, _ => none

/-- What arrives is below the top of the sequence space, and there is still a
sequence for an ack. -/
def Ample (t : MainLoop) : Event → Prop
  | .frame data _ _ _ _ =>
      t.session.sendSeq < maxNonce ∧
        ∀ opened ∈ (t.session.decryptIncoming P data true).toOption,
          opened.1.header.sequence < u64Max
  | _ => True

instance (t : MainLoop) : (e : Event) → Decidable (t.Ample P e)
  | .frame .. => inferInstanceAs (Decidable (_ ∧ ∀ opened ∈ Except.toOption _, _))
  | .packet .. | .intercepted | .readerStopped | .recvFailed .. | .livenessTick ..
  | .postureTick .. | .shutdown | .attempt _ => isTrue trivial

end MainLoop

structure Paced where
  loop : MainLoop
  log : List ProcessedFrame

namespace Paced

variable (P : Primitives) (transports : List String)

def start (session : Session) (transport : String) (now : Nat) : Paced :=
  ⟨.start session transport now, []⟩

def step (w : Paced) (e : MainLoop.Event) : Option Paced :=
  (w.loop.step P transports e).map fun t => ⟨t, w.log ++ (w.loop.processed P e t).toList⟩

/-- No frame waits behind too many others. -/
def Frequent (log : List ProcessedFrame) : Prop :=
  streak ProcessedFrame.quiet log < ackEveryNChunks

/-- None waits where the last ack is too long ago. -/
def Timely (start : Nat) : List ProcessedFrame → Prop :=
  Justified fun older f => f.ack = none → f.time < ProcessedFrame.lastAck start older + ackMaxDelay

/-- An ack covers what came before it, or has no room for more. -/
def Complete : List ProcessedFrame → Prop :=
  Justified fun older f => ∀ next ranges, f.ack = some (next, ranges) →
    (∀ d ∈ older ++ [f], SendBuffer.Covers next ranges d.sequence)
      ∨ ranges.length = maxSackRanges

end Paced

/-! ## What a step does with the acks -/

namespace MainLoop

variable {P : Primitives} {transports : List String}

/-- What the acks go by is the same. -/
structure Untouched (t t' : MainLoop) : Prop where
  unackedChunks : t'.unackedChunks = t.unackedChunks
  lastAck : t'.lastAck = t.lastAck
  recvBuffer : t'.recvBuffer = t.recvBuffer

theorem sent_untouched (t : MainLoop) (r : SendResult) : Untouched t (t.sent r) := by
  cases r with
  | none => exact ⟨rfl, rfl, rfl⟩
  | some e => exact ⟨rfl, rfl, rfl⟩

theorem observeSignal_untouched {t t' : MainLoop} {signal : Signal} {now later : Nat}
    (h : t.observeSignal signal now later = some t') : Untouched t t' := by
  obtain ⟨p, -, rfl⟩ := Option.map_eq_some_iff.mp h
  exact ⟨rfl, rfl, rfl⟩

theorem sendPacket_untouched (t : MainLoop) (raw : Bytes) (r : UInt8) (rnd : Rand)
    (sent : SendResult) : Untouched t (t.sendPacket P raw r rnd sent) := by
  rw [sendPacket]
  split
  · split
    · obtain ⟨h1, h2, h3⟩ := sent_untouched { t with session := _, sendBuffer := _ } sent
      exact ⟨h1, h2, h3⟩
    · obtain ⟨h1, h2, h3⟩ := sent_untouched { t with session := _ } sent
      exact ⟨h1, h2, h3⟩
  · exact ⟨rfl, rfl, rfl⟩

theorem livenessTick_untouched {t t' : MainLoop} {now later : Nat} {timestamp : UInt64} {r : UInt8}
    {rnd : Rand} (h : t.livenessTick P now later timestamp r rnd = some t') : Untouched t t' := by
  rw [livenessTick] at h
  split at h
  · obtain ⟨u, hu, rfl⟩ := Option.map_eq_some_iff.mp h
    obtain ⟨h1, h2, h3⟩ := observeSignal_untouched hu
    exact ⟨h1, h2, h3⟩
  · simp only at h
    split at h
    · split at h
      · obtain rfl := Option.some.inj h
        exact ⟨rfl, rfl, rfl⟩
      · obtain rfl := Option.some.inj h
        exact ⟨rfl, rfl, rfl⟩
    · obtain rfl := Option.some.inj h
      exact ⟨rfl, rfl, rfl⟩

theorem attemptSwitch_untouched {t t' : MainLoop} {reason : SwitchReason} {a : SwitchAttempt}
    {previous : Option Nat} (h : t.attemptSwitch transports reason a = (previous, t')) :
    Untouched t t' := by
  rw [attemptSwitch] at h
  split at h
  · generalize prepareStandby t.activeTransport _ t.handles = prepared at h
    obtain ⟨standby, handles⟩ := prepared
    cases standby with
    | none =>
        obtain ⟨rfl, rfl⟩ := Prod.mk.inj h
        exact ⟨rfl, rfl, rfl⟩
    | some standby =>
        dsimp only at h
        split at h
        · obtain ⟨rfl, rfl⟩ := Prod.mk.inj h
          exact ⟨rfl, rfl, rfl⟩
        · obtain ⟨rfl, rfl⟩ := Prod.mk.inj h
          exact ⟨rfl, rfl, rfl⟩
  · obtain ⟨rfl, rfl⟩ := Prod.mk.inj h
    exact ⟨rfl, rfl, rfl⟩

theorem switchOrGiveUp_untouched (t : MainLoop) (reason : SwitchReason) (a : SwitchAttempt) :
    Untouched t (t.switchOrGiveUp transports reason a) := by
  rw [switchOrGiveUp]
  cases hattempt : t.attemptSwitch transports reason a with
  | mk previous u =>
      obtain ⟨h1, h2, h3⟩ := attemptSwitch_untouched hattempt
      cases previous with
      | some old => exact ⟨h1, h2, h3⟩
      | none =>
          dsimp only
          split
          · exact ⟨h1, h2, h3⟩
          · exact ⟨h1, h2, h3⟩

/-- An ack is sent, or put off. -/
structure Acknowledges (t : MainLoop) (now : Nat) (t' : MainLoop) : Prop where
  recvBuffer : t'.recvBuffer = t.recvBuffer
  due : t.unackedChunks + 1 ≥ ackEveryNChunks ∨ now - t.lastAck ≥ ackMaxDelay →
    t'.session.sendSeq ≠ t.session.sendSeq ∧ t'.unackedChunks = 0 ∧ t'.lastAck = now
  putOff : ¬ (t.unackedChunks + 1 ≥ ackEveryNChunks ∨ now - t.lastAck ≥ ackMaxDelay) →
    t'.session.sendSeq = t.session.sendSeq ∧ t'.unackedChunks = t.unackedChunks + 1
      ∧ t'.lastAck = t.lastAck

@[simp] theorem sent_session (t : MainLoop) (r : SendResult) : (t.sent r).session = t.session := by
  cases r <;> rfl

/-- An ack fits in a chunk, so only the sequence space limits it. -/
theorem encrypt_ack (hall : P.SealsAll) {s : Session} (hseq : s.sendSeq < maxNonce)
    (b : ReceiveBuffer) (r : UInt8) (rnd : Rand) :
    ∃ bytes s', s.encryptOutgoing P (Chunk.newControl b.buildAck.encode r) true rnd
      = .ok (bytes, s') ∧ s'.sendSeq ≠ s.sendSeq := by
  obtain ⟨bytes, hbytes⟩ := Chunk.encodeEncrypted_isOk hall
    (c := (Chunk.newControl b.buildAck.encode r).withSequence s.sendSeq)
    b.length_encode_buildAck (Session.writeKey s.keys true) (nonceFromSequence s.sendSeq) rnd
  have hencode : (Chunk.newControl b.buildAck.encode r).encodeSequenced P
      (Session.writeKey s.keys true) s.sendSeq rnd = .ok bytes := hbytes
  have hok : ∃ s', s.encryptOutgoing P (Chunk.newControl b.buildAck.encode r) true rnd
      = .ok (bytes, s') := by
    rw [Session.encryptOutgoing, if_neg (not_le.mpr hseq), hencode]
    exact ⟨_, rfl⟩
  obtain ⟨s', hs'⟩ := hok
  refine ⟨bytes, s', hs', fun heq => ?_⟩
  have hsucc := (Session.encryptOutgoing_eq_ok hs').2.2.1
  rw [heq] at hsucc
  omega

theorem acknowledge_spec (hall : P.SealsAll) {t : MainLoop} (hseq : t.session.sendSeq < maxNonce)
    (now : Nat) (r : UInt8) (rnd : Rand) (sent : SendResult) :
    Acknowledges t now (t.acknowledge P now r rnd sent) := by
  obtain ⟨bytes, s', henc, hne⟩ := encrypt_ack hall hseq t.recvBuffer r rnd
  rw [acknowledge]
  split
  · rename_i hdue
    dsimp only
    rw [henc]
    obtain ⟨h1, h2, h3⟩ := sent_untouched
      { t with unackedChunks := 0, lastAck := now, session := s' } sent
    refine ⟨h3, fun _ => ⟨?_, h1, h2⟩, fun hnot => absurd hdue hnot⟩
    dsimp only
    rw [sent_session]
    exact hne
  · rename_i hnot
    exact ⟨rfl, fun hdue => absurd hdue hnot, fun _ => ⟨rfl, rfl, rfl⟩⟩

/-- A data frame has been taken up by the receive buffer. -/
structure Processes (t : MainLoop) (f : ProcessedFrame) (t' : MainLoop) : Prop where
  low : f.sequence < u64Max
  accepted : ∃ v o b, t.recvBuffer.accept f.sequence v = .ok (o, b)
    ∧ t'.recvBuffer.nextExpected = b.nextExpected ∧ t'.recvBuffer.pending = b.pending
  due : t.unackedChunks + 1 ≥ ackEveryNChunks ∨ f.time - t.lastAck ≥ ackMaxDelay →
    f.ack = some (t'.recvBuffer.nextExpected, t'.recvBuffer.ackRanges)
      ∧ t'.unackedChunks = 0 ∧ t'.lastAck = f.time
  putOff : ¬ (t.unackedChunks + 1 ≥ ackEveryNChunks ∨ f.time - t.lastAck ≥ ackMaxDelay) →
    f.ack = none ∧ t'.unackedChunks = t.unackedChunks + 1 ∧ t'.lastAck = t.lastAck

theorem processed_frame {t t' u : MainLoop} {data : Bytes} {now : Nat} {r : UInt8} {rnd : Rand}
    {sent : SendResult} {chunk : Chunk} {session : Session} {o : Received} {b : ReceiveBuffer}
    (hpc : t.pc = .select) (hdec : t.session.decryptIncoming P data true = .ok (chunk, session))
    (htype : chunk.header.chunkType = .data) (hlow : chunk.header.sequence < u64Max)
    (hacc : t.recvBuffer.accept chunk.header.sequence chunk.payload = .ok (o, b))
    (hu : u.session = session ∧ u.unackedChunks = t.unackedChunks ∧ u.lastAck = t.lastAck
      ∧ u.recvBuffer.nextExpected = b.nextExpected ∧ u.recvBuffer.pending = b.pending)
    (hack : Acknowledges u now t') :
    ∃ f, t.processed P (.frame data now r rnd sent) t' = some f ∧ Processes t f t' := by
  obtain ⟨hsession, hcount, hlast, hnext, hpending⟩ := hu
  have hseq := (Session.decryptIncoming_eq_ok hdec).2.1
  rw [← hsession] at hseq
  have hok : (t.recvBuffer.accept chunk.header.sequence chunk.payload).isOk = true := by
    rw [hacc]
    rfl
  refine ⟨_, by simp only [processed, hpc, hdec]; exact if_pos ⟨htype, hok⟩, hlow,
    ⟨chunk.payload, o, b, hacc, ?_, ?_⟩, fun hdue => ?_, fun hnot => ?_⟩
  · rw [hack.recvBuffer, hnext]
  · rw [hack.recvBuffer, hpending]
  · rw [← hcount, ← hlast] at hdue
    obtain ⟨hne, hzero, hnow⟩ := hack.due hdue
    rw [hseq] at hne
    exact ⟨if_neg hne, hzero, hnow⟩
  · rw [← hcount, ← hlast] at hnot
    obtain ⟨heq, hsucc, hsame⟩ := hack.putOff hnot
    rw [hseq] at heq
    exact ⟨if_pos heq, hcount ▸ hsucc, hlast ▸ hsame⟩

theorem receive_processed (hall : P.SealsAll) {t : MainLoop} {data : Bytes} {now : Nat} {r : UInt8}
    {rnd : Rand} {sent : SendResult} (hpc : t.pc = .select)
    (hample : t.Ample P (.frame data now r rnd sent)) :
    (t.processed P (.frame data now r rnd sent) (t.receive P data now r rnd sent) = none
        ∧ Untouched t (t.receive P data now r rnd sent))
      ∨ ∃ f, t.processed P (.frame data now r rnd sent) (t.receive P data now r rnd sent) = some f
        ∧ Processes t f (t.receive P data now r rnd sent) := by
  obtain ⟨hseq, hlow⟩ := hample
  cases hdec : t.session.decryptIncoming P data true with
  | error e =>
      simp only [processed, receive, hpc, hdec]
      exact Or.inl ⟨trivial, rfl, rfl, rfl⟩
  | ok opened =>
      obtain ⟨chunk, session⟩ := opened
      have hlow : chunk.header.sequence < u64Max := hlow (chunk, session) (by rw [hdec]; rfl)
      cases htype : chunk.header.chunkType with
      | data =>
          cases hacc : t.recvBuffer.accept chunk.header.sequence chunk.payload with
          | error e =>
              simp only [processed, receive, hpc, hdec, htype, hacc]
              exact Or.inl ⟨if_neg fun h => Bool.false_ne_true h.2, rfl, rfl, rfl⟩
          | ok taken =>
              obtain ⟨o, b⟩ := taken
              have hseq' := (Session.decryptIncoming_eq_ok hdec).2.1
              rw [← hseq'] at hseq
              have hack : ∀ b', b'.nextExpected = b.nextExpected → b'.pending = b.pending →
                  t.receive P data now r rnd sent = MainLoop.acknowledge P
                    { t with
                      monitor := t.monitor.recordInbound now
                      handles := t.handles.receive
                      session := session
                      recvBuffer := b' } now r rnd sent →
                  ∃ f, t.processed P (.frame data now r rnd sent)
                      (t.receive P data now r rnd sent) = some f
                    ∧ Processes t f (t.receive P data now r rnd sent) := by
                intro b' hnext hpending heq
                rw [heq]
                exact processed_frame (u := { t with
                  monitor := t.monitor.recordInbound now
                  handles := t.handles.receive
                  session := session
                  recvBuffer := b' }) hpc hdec htype hlow hacc
                  ⟨rfl, rfl, rfl, hnext, hpending⟩ (acknowledge_spec hall hseq now r rnd sent)
              refine Or.inr ?_
              cases o with
              | duplicate => exact hack b rfl rfl (by simp only [receive, hdec, htype, hacc])
              | ready =>
                  exact hack b.drainReady.2 rfl rfl (by simp only [receive, hdec, htype, hacc])
              | buffered =>
                  exact hack b.drainReady.2 rfl rfl (by simp only [receive, hdec, htype, hacc])
      | control =>
          simp only [processed, receive, hpc, hdec, htype]
          refine Or.inl ⟨if_neg (by rintro ⟨⟨⟩, -⟩), ?_⟩
          split
          · exact ⟨rfl, rfl, rfl⟩
          · exact ⟨rfl, rfl, rfl⟩
      | handshake | padding | resume =>
          simp only [processed, receive, hpc, hdec, htype]
          exact Or.inl ⟨if_neg (by rintro ⟨⟨⟩, -⟩), rfl, rfl, rfl⟩

theorem step_processed (hall : P.SealsAll) {t t' : MainLoop} {e : Event} (hample : t.Ample P e)
    (h : t.step P transports e = some t') :
    (t.processed P e t' = none ∧ Untouched t t')
      ∨ ∃ f, t.processed P e t' = some f ∧ Processes t f t' := by
  have hnone : (∀ data now r rnd sent, e ≠ .frame data now r rnd sent) →
      t.processed P e t' = none := by
    intro hne
    unfold processed
    split
    · exact (hne _ _ _ _ _ rfl).elim
    · rfl
  unfold step at h
  cases hpc : t.pc with
  | select =>
      rw [hpc] at h
      cases e with
      | packet raw r rnd sent =>
          simp only [select] at h
          split at h
          · cases h
          · obtain rfl := Option.some.inj h
            exact Or.inl ⟨hnone (by rintro _ _ _ _ _ ⟨⟩), sendPacket_untouched ..⟩
      | intercepted =>
          simp only [select] at h
          split at h
          · cases h
          · obtain rfl := Option.some.inj h
            exact Or.inl ⟨hnone (by rintro _ _ _ _ _ ⟨⟩), rfl, rfl, rfl⟩
      | readerStopped =>
          simp only [select] at h
          split at h
          · cases h
          · obtain rfl := Option.some.inj h
            exact Or.inl ⟨hnone (by rintro _ _ _ _ _ ⟨⟩), rfl, rfl, rfl⟩
      | frame data now r rnd sent =>
          obtain rfl := Option.some.inj h
          exact receive_processed hall hpc hample
      | recvFailed e now later =>
          obtain ⟨u, hu, rfl⟩ := Option.map_eq_some_iff.mp h
          obtain ⟨h1, h2, h3⟩ := observeSignal_untouched hu
          exact Or.inl ⟨hnone (by rintro _ _ _ _ _ ⟨⟩), h1, h2, h3⟩
      | livenessTick now later timestamp r rnd =>
          exact Or.inl ⟨hnone (by rintro _ _ _ _ _ ⟨⟩), livenessTick_untouched h⟩
      | postureTick now later =>
          exact Or.inl ⟨hnone (by rintro _ _ _ _ _ ⟨⟩), observeSignal_untouched h⟩
      | shutdown =>
          obtain rfl := Option.some.inj h
          exact Or.inl ⟨hnone (by rintro _ _ _ _ _ ⟨⟩), rfl, rfl, rfl⟩
      | attempt a => cases h
  | switching reason =>
      rw [hpc] at h
      cases e with
      | attempt a =>
          obtain rfl := Option.some.inj h
          exact Or.inl ⟨hnone (by rintro _ _ _ _ _ ⟨⟩), switchOrGiveUp_untouched ..⟩
      | _ => cases h
  | ended =>
      rw [hpc] at h
      cases h

end MainLoop

/-! ## The record over a run -/

namespace Paced

variable {P : Primitives} {transports : List String}

/-- What the loop counts is what the record shows. -/
structure Inv (start : Nat) (w : Paced) : Prop where
  count : w.loop.unackedChunks = streak ProcessedFrame.quiet w.log
  frequent : Frequent w.log
  lastAck : w.loop.lastAck = ProcessedFrame.lastAck start w.log
  low : w.loop.recvBuffer.Low
  seen : ∀ d ∈ w.log, w.loop.recvBuffer.Seen d.sequence
  timely : Timely start w.log
  complete : Complete w.log

theorem inv_start (session : Session) (transport : String) (now : Nat) :
    Inv now (start session transport now) where
  count := rfl
  frequent := by
    change streak ProcessedFrame.quiet [] < ackEveryNChunks
    decide
  lastAck := rfl
  low _ hs := by cases hs
  seen _ hd := absurd hd List.not_mem_nil
  timely := justified_nil _
  complete := justified_nil _

theorem Inv.add {start : Nat} {w : Paced} {f : ProcessedFrame} {t : MainLoop} (h : Inv start w)
    (hp : MainLoop.Processes w.loop f t) : Inv start ⟨t, w.log ++ [f]⟩ := by
  obtain ⟨v, o, b, hacc, hnext, hpending⟩ := hp.accepted
  obtain ⟨hlow, hseen⟩ := ReceiveBuffer.seen_accept h.low hp.low hacc
  have hseen' : ∀ x, t.recvBuffer.Seen x ↔ x = f.sequence ∨ w.loop.recvBuffer.Seen x := by
    intro x
    rw [ReceiveBuffer.Seen, hnext, hpending]
    exact hseen x
  have hseenAll : ∀ d ∈ w.log ++ [f], t.recvBuffer.Seen d.sequence := by
    intro d hd
    rcases List.mem_append.mp hd with hd | hd
    · exact (hseen' _).mpr (Or.inr (h.seen d hd))
    · exact (hseen' _).mpr (Or.inl (congrArg _ (List.mem_singleton.mp hd)))
  have hlow' : t.recvBuffer.Low := by
    intro s hs
    rw [hpending] at hs
    exact hlow s hs
  have hcount := h.count
  have hlast := h.lastAck
  by_cases hdue : w.loop.unackedChunks + 1 ≥ ackEveryNChunks ∨ f.time - w.loop.lastAck ≥ ackMaxDelay
  · obtain ⟨hack, hzero, hnow⟩ := hp.due hdue
    have hquiet : f.quiet = false := by
      rw [ProcessedFrame.quiet, hack]
      rfl
    have hstreak : streak ProcessedFrame.quiet (w.log ++ [f]) = 0 := by
      rw [streak_concat, hquiet]
      rfl
    exact
      { count := hzero.trans hstreak.symm
        frequent := by
          rw [Frequent, hstreak]
          decide
        lastAck := by
          rw [ProcessedFrame.lastAck_concat, hquiet]
          exact hnow
        low := hlow'
        seen := hseenAll
        timely := justified_concat.mpr ⟨h.timely, fun hnone => by
          rw [hack] at hnone
          cases hnone⟩
        complete := justified_concat.mpr ⟨h.complete, fun next ranges heq => by
          obtain ⟨rfl, rfl⟩ := Prod.mk.inj (Option.some.inj (hack.symm.trans heq))
          by_cases hfull : t.recvBuffer.ackRanges.length = maxSackRanges
          · exact Or.inr hfull
          · exact Or.inl fun d hd =>
              (ReceiveBuffer.covers_of_seen (hseenAll d hd)).resolve_right hfull⟩ }
  · obtain ⟨hack, hsucc, hsame⟩ := hp.putOff hdue
    have hquiet : f.quiet = true := by
      rw [ProcessedFrame.quiet, hack]
      rfl
    have hstreak : streak ProcessedFrame.quiet (w.log ++ [f]) = w.loop.unackedChunks + 1 := by
      rw [streak_concat, hquiet, hcount]
      rfl
    exact
      { count := hsucc.trans hstreak.symm
        frequent := by
          rw [Frequent, hstreak]
          omega
        lastAck := by
          rw [ProcessedFrame.lastAck_concat, hquiet]
          exact hsame.trans hlast
        low := hlow'
        seen := hseenAll
        timely := justified_concat.mpr ⟨h.timely, fun _ => by
          rw [← hlast]
          omega⟩
        complete := justified_concat.mpr ⟨h.complete, fun next ranges heq => by
          cases hack.symm.trans heq⟩ }

theorem Inv.step (hall : P.SealsAll) {start : Nat} {w w' : Paced} {e : MainLoop.Event}
    (h : Inv start w) (hample : w.loop.Ample P e) (hstep : w.step P transports e = some w') :
    Inv start w' := by
  obtain ⟨t, ht, rfl⟩ := Option.map_eq_some_iff.mp hstep
  rcases MainLoop.step_processed hall hample ht with ⟨hnone, hkeep⟩ | ⟨f, hsome, hp⟩
  · rw [hnone]
    have hlog : w.log ++ (none : Option ProcessedFrame).toList = w.log := List.append_nil _
    rw [hlog]
    exact
      { count := hkeep.unackedChunks.trans h.count
        frequent := h.frequent
        lastAck := hkeep.lastAck.trans h.lastAck
        low := hkeep.recvBuffer ▸ h.low
        seen := hkeep.recvBuffer ▸ h.seen
        timely := h.timely
        complete := h.complete }
  · rw [hsome]
    exact h.add hp

/-- A data chunk as the server sends it. -/
def dataFrame (sequence : UInt64) : Bytes :=
  match (Chunk.newData [0x45] 0).encodeSequenced .plain plainKeys.serverWriteKey sequence
    noPadding with
  | .ok bytes => bytes
  | .error _ => []

/-- The second frame is ahead of one that is missing, and the third is the
first to come late enough. -/
def arrivals : List MainLoop.Event :=
  [.frame (dataFrame 0) 0 0 noPadding none,
    .frame (dataFrame 2) (100 * 10 ^ 6) 0 noPadding none,
    .frame (dataFrame 3) (250 * 10 ^ 6) 0 noPadding none]

example :
    (exec (step .plain ["quic"]) (start (.new (zeroArr 16) plainKeys) "quic" 0) arrivals).map
        (fun w => w.log.map ProcessedFrame.ack)
      = some [none, none, some (1, [⟨2, 3⟩])] := by
  decide +kernel

end Paced

end Kanrin
