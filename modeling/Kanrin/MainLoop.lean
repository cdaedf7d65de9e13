import Kanrin.Lib.History
import Kanrin.Lib.Run
import Kanrin.Ack
import Kanrin.Posture
import Kanrin.Session
import Kanrin.Switch

/-!
# The client's main loop

`run_pipeline` of the client's `pipeline.rs` from its main loop to its
cleanup, one event per turn of `select!` and one per `switch_or_give_up!`,
which ends its turn wherever it stands. What a standby does while
`attempt_switch` brings it up and replays onto it is part of the event; so
are the readings of the clock. The events sent to the user interface, the
statistics and the NAT table are left out.

The loop's connections are numbered in the order they are opened. `Handles`
is what the loop does with them, and `log` the record of it. A connection
displaced by a switch waits in `draining`, a single slot, for the next
frame; the next successful switch takes the slot and closes what is in it.
`makeBeforeBreak_iff` says that this is all that can go wrong.
-/

namespace Kanrin

open Lib

/-! ## Connections -/

inductive HandleEvent where
  | displaced (old new : Nat)
  /-- The main loop has received a frame on the connection. -/
  | received (i : Nat)
  | closed (i : Nat)
deriving DecidableEq

structure Handles where
  connection : Nat
  /-- How many connections have been opened. -/
  opened : Nat
  draining : Option Nat
  log : List HandleEvent

namespace Handles

def start : Handles where
  connection := 0
  opened := 1
  draining := none
  log := []

def close (h : Handles) (i : Nat) : Handles := { h with log := h.log ++ [.closed i] }

/-- `draining.take()` and the frame before it. -/
def receive (h : Handles) : Handles :=
  let h : Handles := { h with log := h.log ++ [.received h.connection] }
  match h.draining with
  | some old => { h with draining := none }.close old
  | none => h

/-- The swap of `attempt_switch`. -/
def swap (h : Handles) (new : Nat) : Handles :=
  { h with connection := new, log := h.log ++ [.displaced h.connection new] }

/-- `draining.replace(old)`. -/
def drain (h : Handles) (old : Nat) : Handles :=
  match h.draining with
  | some stale => { h with draining := some old }.close stale
  | none => { h with draining := some old }

end Handles

/-! ## Liveness -/

/-- Durations and readings of the clock are nanoseconds. -/
def livenessTimeout : Nat := 750 * 10 ^ 6

def probeInterval : Nat := 250 * 10 ^ 6

structure LivenessMonitor where
  lastInbound : Nat
  lastProbe : Nat
  timeout : Nat
  probeInterval : Nat

namespace LivenessMonitor

def new (now : Nat) : LivenessMonitor where
  lastInbound := now
  lastProbe := now
  timeout := livenessTimeout
  probeInterval := Kanrin.probeInterval

def recordInbound (m : LivenessMonitor) (now : Nat) : LivenessMonitor :=
  { m with lastInbound := now }

def shouldProbe (m : LivenessMonitor) (now : Nat) : Bool × LivenessMonitor :=
  let quiet := decide (now - m.lastInbound ≥ m.probeInterval)
  let due := decide (now - m.lastProbe ≥ m.probeInterval)
  if quiet && due then (true, { m with lastProbe := now }) else (false, m)

def isDead (m : LivenessMonitor) (now : Nat) : Bool := decide (now - m.lastInbound ≥ m.timeout)

def reset (m : LivenessMonitor) (now : Nat) : LivenessMonitor :=
  { m with lastInbound := now, lastProbe := now }

end LivenessMonitor

/-! ## Standbys -/

/-- What comes of a registered transport when it is tried. -/
inductive Bringup where
  | unreachable
  /-- Connected, but `resume_on` failed. -/
  | refused
  | resumed (serverNextExpected : UInt64)
deriving DecidableEq

structure Standby where
  connection : Nat
  transport : String
  serverNextExpected : UInt64

def prepareStandby (exclude : String) :
    List (String × Bringup) → Handles → Option Standby × Handles
  | [], h => (none, h)
  | (name, bringup) :: rest, h =>
      if name = exclude then prepareStandby exclude rest h
      else
        match bringup with
        | .unreachable => prepareStandby exclude rest h
        | .refused =>
            prepareStandby exclude rest ({ h with opened := h.opened + 1 }.close h.opened)
        | .resumed next => (some ⟨h.opened, name, next⟩, { h with opened := h.opened + 1 })

/-- The standby takes so many sends before one fails. -/
def replayOnto (b : SendBuffer) (sends : Nat) : Option Nat :=
  let (sent, replay) := Replay.run b b.chunks.size .new
  if sent.length ≤ sends then some replay.replayed else none

/-! ## The loop -/

def ackMaxDelay : Nat := 200 * 10 ^ 6

def maxFailedSwitches : Nat := 5

inductive LoopPc where
  | select
  | switching (reason : SwitchReason)
  /-- The loop has been left and `connection` closed. -/
  | ended
deriving DecidableEq

structure MainLoop where
  pc : LoopPc
  handles : Handles
  activeTransport : String
  failedSwitches : Nat
  policy : SwitchPolicy
  monitor : LivenessMonitor
  posture : PostureController
  session : Session
  sendBuffer : SendBuffer
  recvBuffer : ReceiveBuffer
  unackedChunks : Nat
  lastAck : Nat

/-- The world during `attempt_switch`. `bringup` is by position among the
registered transports. -/
structure SwitchAttempt where
  bringup : Nat → Bringup
  sends : Nat
  now : Nat

namespace MainLoop

/-- What a send may come to: `some e` is an error. -/
abbrev SendResult := Option String

inductive Event where
  /-- A packet from the TUN queue that is neither malformed nor a DNS query. -/
  | packet (raw : Bytes) (r : UInt8) (rnd : Rand) (sent : SendResult)
  /-- A packet that is dropped or answered locally. -/
  | intercepted
  | readerStopped
  | frame (data : Bytes) (now : Nat) (r : UInt8) (rnd : Rand) (sent : SendResult)
  | recvFailed (e : String) (now later : Nat)
  | livenessTick (now later : Nat) (timestamp : UInt64) (r : UInt8) (rnd : Rand)
  | postureTick (now later : Nat)
  | shutdown
  | attempt (a : SwitchAttempt)

/-- Nothing has happened since the tunnel was set up. -/
def start (session : Session) (transport : String) (now : Nat) : MainLoop where
  pc := .select
  handles := .start
  activeTransport := transport
  failedSwitches := 0
  policy := .new
  monitor := .new now
  posture := .withFloor .balanced .performance now
  session := session
  sendBuffer := .withDefaultCapacity
  recvBuffer := .withDefaultCapacity
  unackedChunks := 0
  lastAck := now

/-- `break`, and the cleanup after the loop. What is left in `draining` is
not closed; it goes out of scope with everything else. -/
def leave (t : MainLoop) : MainLoop :=
  { t with pc := .ended, handles := t.handles.close t.handles.connection }

def sent (t : MainLoop) : SendResult → MainLoop
  | none => t
  | some e => { t with pc := .switching (.transportError e) }

def observeSignal (t : MainLoop) (signal : Signal) (now later : Nat) : Option MainLoop :=
  (t.posture.observe signal now later).map fun (_, posture) => { t with posture }

variable (P : Primitives) (transports : List String)

def sendPacket (t : MainLoop) (raw : Bytes) (r : UInt8) (rnd : Rand) (sent : SendResult) :
    MainLoop :=
  let sequence := t.session.sendNonceValue
  match t.session.encryptOutgoing P (Chunk.newData raw r) true rnd with
  | .ok (encrypted, session) =>
      -- the chunk is retained whatever came of the send
      match t.sendBuffer.push sequence encrypted with
      | .ok sendBuffer => { t with session, sendBuffer }.sent sent
      | .error _ => { t with session }.sent sent
  | .error _ => t.leave

def acknowledge (t : MainLoop) (now : Nat) (r : UInt8) (rnd : Rand) (sent : SendResult) :
    MainLoop :=
  let unackedChunks := t.unackedChunks + 1
  if unackedChunks ≥ ackEveryNChunks ∨ now - t.lastAck ≥ ackMaxDelay then
    let t := { t with unackedChunks := 0, lastAck := now }
    let ack := Chunk.newControl t.recvBuffer.buildAck.encode r
    match t.session.encryptOutgoing P ack true rnd with
    | .ok (_, session) => { t with session }.sent sent
    | .error _ => t
  else { t with unackedChunks }

def receive (t : MainLoop) (data : Bytes) (now : Nat) (r : UInt8) (rnd : Rand)
    (sent : SendResult) : MainLoop :=
  let t := { t with monitor := t.monitor.recordInbound now, handles := t.handles.receive }
  match t.session.decryptIncoming P data true with
  | .error _ => t
  | .ok (chunk, session) =>
      let t := { t with session }
      match chunk.header.chunkType with
      | .control =>
          match ControlMessage.decode chunk.payload with
          | .ok (.ack next ranges) =>
              { t with sendBuffer := (t.sendBuffer.applyAck next ranges).2 }
          | _ => t
      | .data =>
          match t.recvBuffer.accept chunk.header.sequence chunk.payload with
          | .ok (.duplicate, recvBuffer) => { t with recvBuffer }.acknowledge P now r rnd sent
          | .ok (_, recvBuffer) =>
              { t with recvBuffer := recvBuffer.drainReady.2 }.acknowledge P now r rnd sent
          | .error _ => t
      | _ => t

def livenessTick (t : MainLoop) (now later : Nat) (timestamp : UInt64) (r : UInt8) (rnd : Rand) :
    Option MainLoop :=
  if t.monitor.isDead now then
    (t.observeSignal .suddenPathLoss now later).map fun t => { t with pc := .switching .linkSilent }
  else
    let (probe, monitor) := t.monitor.shouldProbe now
    let t := { t with monitor }
    if probe then
      let ping := Chunk.newControl (ControlMessage.ping timestamp).encode r
      match t.session.encryptOutgoing P ping true rnd with
      | .ok (_, session) => some { t with session }
      | .error _ => some t
    else some t

/-- The connection displaced, if the switch succeeds. -/
def attemptSwitch (t : MainLoop) (reason : SwitchReason) (a : SwitchAttempt) :
    Option Nat × MainLoop :=
  if t.policy.allows reason a.now then
    let (standby, handles) := prepareStandby t.activeTransport
      (transports.mapIdx fun i name => (name, a.bringup i)) t.handles
    let t := { t with handles }
    match standby with
    | none => (none, t)
    | some standby =>
        let t := { t with
          sendBuffer := (t.sendBuffer.applyAck standby.serverNextExpected []).2 }
        match replayOnto t.sendBuffer a.sends with
        | none => (none, { t with handles := t.handles.close standby.connection })
        | some _ =>
            (some t.handles.connection,
              { t with
                handles := t.handles.swap standby.connection
                activeTransport := standby.transport
                policy := t.policy.record a.now
                monitor := t.monitor.reset a.now })
  else (none, t)

def switchOrGiveUp (t : MainLoop) (reason : SwitchReason) (a : SwitchAttempt) : MainLoop :=
  match t.attemptSwitch transports reason a with
  | (some old, t) =>
      { t with pc := .select, failedSwitches := 0, handles := t.handles.drain old }
  | (none, t) =>
      let t := { t with failedSwitches := t.failedSwitches + 1 }
      if t.failedSwitches ≥ maxFailedSwitches then t.leave else { t with pc := .select }

/-- One turn of `select!`. -/
def select (t : MainLoop) : Event → Option MainLoop
  | .packet raw r rnd sent =>
      if t.sendBuffer.isFull then none else some (t.sendPacket P raw r rnd sent)
  | .intercepted => if t.sendBuffer.isFull then none else some t
  | .readerStopped => if t.sendBuffer.isFull then none else some t.leave
  | .frame data now r rnd sent => some (t.receive P data now r rnd sent)
  | .recvFailed e now later =>
      (t.observeSignal .suspiciousReset now later).map fun t =>
        { t with pc := .switching (.transportError e) }
  | .livenessTick now later timestamp r rnd => t.livenessTick P now later timestamp r rnd
  | .postureTick now later => t.observeSignal .cleanPeriod now later
  | .shutdown => some t.leave
  | .attempt _ => none

def step (t : MainLoop) (e : Event) : Option MainLoop :=
  match t.pc, e with
  | .select, e => t.select P e
  | .switching reason, .attempt a => some (t.switchOrGiveUp transports reason a)
  | _, _ => none

/-! ## Make before break -/

/-- The event is a switch, and it succeeds. -/
def switches (t : MainLoop) (e : Event) : Bool :=
  match t.pc, e with
  | .switching reason, .attempt a => (t.attemptSwitch transports reason a).1.isSome
  | _, _ => false

/-- A switch succeeds only with nothing left to drain. -/
def Drained (t : MainLoop) (e : Event) : Prop :=
  t.switches transports e = true → t.handles.draining = none

end MainLoop

/-- `k` is the connection `new`, or has replaced it since. -/
def Replaces (k new : Nat) (since : List HandleEvent) : Prop :=
  k = new ∨ ∃ old, .displaced old k ∈ since

/-- If `i` was displaced, a frame has been received since on a connection
that replaced it. -/
def Relieved (log : List HandleEvent) (i : Nat) : Prop :=
  ∀ before new since, log = before ++ .displaced i new :: since →
    ∃ k, Replaces k new since ∧ .received k ∈ since

def MakeBeforeBreak : List HandleEvent → Prop :=
  Justified fun older e => ∀ i, e = .closed i → Relieved older i

namespace Handles

/-! ## What is drained has received nothing -/

/-- `i` was displaced, and no frame has been received since. -/
def Waiting (log : List HandleEvent) (i : Nat) : Prop :=
  ∃ before new since, log = before ++ .displaced i new :: since ∧ ∀ k, .received k ∉ since

structure Inv (h : Handles) : Prop where
  connection : h.connection < h.opened
  older : ∀ old new, .displaced old new ∈ h.log → old < h.connection
  replaces : ∀ before old new since, h.log = before ++ .displaced old new :: since →
    Replaces h.connection new since
  draining : ∀ i, h.draining = some i → Waiting h.log i

theorem inv_start : start.Inv where
  connection := Nat.one_pos
  older _ _ h := by cases h
  replaces before old new since h := by simp [start] at h
  draining _ h := by cases h

theorem Waiting.not_relieved {log : List HandleEvent} {i : Nat} (h : Waiting log i) :
    ¬ Relieved log i := by
  obtain ⟨before, new, since, hlog, hnone⟩ := h
  intro hrelieved
  obtain ⟨k, -, hk⟩ := hrelieved before new since hlog
  exact hnone k hk

theorem Waiting.concat {log : List HandleEvent} {i : Nat} (h : Waiting log i) {e : HandleEvent}
    (he : ∀ k, e ≠ .received k) : Waiting (log ++ [e]) i := by
  obtain ⟨before, new, since, rfl, hnone⟩ := h
  refine ⟨before, new, since ++ [e], by simp, fun k hk => ?_⟩
  rcases List.mem_append.mp hk with hk | hk
  · exact hnone k hk
  · exact he k (List.mem_singleton.mp hk).symm

theorem Replaces.concat {k new : Nat} {since : List HandleEvent} (h : Replaces k new since)
    (e : HandleEvent) : Replaces k new (since ++ [e]) :=
  h.imp_right fun ⟨old, hold⟩ => ⟨old, List.mem_append_left _ hold⟩

/-- An entry that displaces nothing. -/
theorem Inv.add {h : Handles} (hinv : h.Inv) {e : HandleEvent} {opened : Nat}
    {draining : Option Nat} (he : ∀ old new, e ≠ .displaced old new) (hopened : h.opened ≤ opened)
    (hdraining : draining = none ∨ draining = h.draining ∧ ∀ k, e ≠ .received k) :
    Inv { h with opened, draining, log := h.log ++ [e] } where
  connection := Nat.lt_of_lt_of_le hinv.connection hopened
  older old new hmem := by
    rcases List.mem_append.mp hmem with hmem | hmem
    · exact hinv.older old new hmem
    · exact absurd (List.mem_singleton.mp hmem).symm (he old new)
  replaces before old new since hlog := by
    rcases concat_eq_append_cons.mp hlog with ⟨-, heq, -⟩ | ⟨since', hlog', rfl⟩
    · exact absurd heq (he old new)
    · exact Replaces.concat (hinv.replaces before old new since' hlog') e
  draining i hi := by
    rcases hdraining with rfl | ⟨rfl, hreceived⟩
    · cases hi
    · exact (hinv.draining i hi).concat hreceived

theorem Inv.close {h : Handles} (hinv : h.Inv) (i : Nat) : (h.close i).Inv :=
  hinv.add (fun _ _ he => nomatch he) (Nat.le_refl _) (Or.inr ⟨rfl, fun _ he => nomatch he⟩)

theorem Inv.receive {h : Handles} (hinv : h.Inv) : h.receive.Inv := by
  have hreceived := hinv.add (e := .received h.connection) (fun _ _ he => nomatch he)
    (Nat.le_refl _) (Or.inl rfl)
  rw [Handles.receive]
  cases hdraining : h.draining with
  | none => exact hreceived
  | some old => exact hreceived.close old

theorem Inv.swap {h : Handles} (hinv : h.Inv) {new : Nat} (hnew : h.connection < new)
    (hlt : new < h.opened) : (h.swap new).Inv where
  connection := hlt
  older old new' hmem := by
    rcases List.mem_append.mp hmem with hmem | hmem
    · exact (hinv.older old new' hmem).trans hnew
    · obtain ⟨rfl, -⟩ := HandleEvent.displaced.inj (List.mem_singleton.mp hmem)
      exact hnew
  replaces before old new' since hlog := by
    rcases concat_eq_append_cons.mp hlog with ⟨-, heq, -⟩ | ⟨since', -, rfl⟩
    · exact Or.inl (HandleEvent.displaced.inj heq).2
    · exact Or.inr ⟨h.connection, List.mem_append_right _ (List.mem_singleton_self _)⟩
  draining i hi := (hinv.draining i hi).concat fun _ he => nomatch he

theorem Inv.drain {h : Handles} (hinv : h.Inv) {old : Nat} (hold : Waiting h.log old) :
    (h.drain old).Inv := by
  have hinv' : Inv { h with draining := some old } :=
    { hinv with draining := fun i hi => Option.some.inj hi ▸ hold }
  rw [Handles.drain]
  cases hdraining : h.draining with
  | none => exact hinv'
  | some stale => exact hinv'.close stale

/-! ## What is closed -/

theorem relieved_of_not_displaced {log : List HandleEvent} {i : Nat}
    (h : ∀ new, .displaced i new ∉ log) : Relieved log i := by
  rintro before new since rfl
  exact absurd (by simp) (h new)

theorem makeBeforeBreak_close {log : List HandleEvent} (h : MakeBeforeBreak log) {i : Nat}
    (hi : Relieved log i) : MakeBeforeBreak (log ++ [.closed i]) :=
  justified_concat.mpr ⟨h, fun _ hj => HandleEvent.closed.inj hj ▸ hi⟩

theorem makeBeforeBreak_other {log : List HandleEvent} (h : MakeBeforeBreak log) {e : HandleEvent}
    (he : ∀ i, e ≠ .closed i) : MakeBeforeBreak (log ++ [e]) :=
  justified_concat.mpr ⟨h, fun i hi => absurd hi (he i)⟩

/-- The connection in use, or one not opened yet. -/
theorem Inv.relieved {h : Handles} (hinv : h.Inv) {i : Nat} (hi : h.connection ≤ i) :
    Relieved h.log i := by
  refine relieved_of_not_displaced ?_
  intro new hmem
  have := hinv.older i new hmem
  omega

theorem Inv.receive_makeBeforeBreak {h : Handles} (hinv : h.Inv) (hmade : MakeBeforeBreak h.log) :
    MakeBeforeBreak h.receive.log := by
  have hreceived : MakeBeforeBreak (h.log ++ [.received h.connection]) :=
    makeBeforeBreak_other hmade fun _ he => nomatch he
  rw [Handles.receive]
  cases h.draining with
  | none => exact hreceived
  | some old =>
      refine makeBeforeBreak_close hreceived ?_
      intro before new since hlog
      rcases concat_eq_append_cons.mp hlog with ⟨-, heq, -⟩ | ⟨since', hlog', rfl⟩
      · cases heq
      · exact ⟨h.connection, Replaces.concat (hinv.replaces before old new since' hlog') _, by simp⟩

/-- A connection that is taken out of `draining` for another. -/
theorem Inv.drain_makeBeforeBreak {h : Handles} (hinv : h.Inv) (old : Nat) :
    MakeBeforeBreak (h.drain old).log ↔ MakeBeforeBreak h.log ∧ h.draining = none := by
  rw [Handles.drain]
  cases hdraining : h.draining with
  | none => exact (and_iff_left rfl).symm
  | some stale =>
      refine iff_of_false (fun hmade => ?_) (fun h => nomatch h.2)
      exact (hinv.draining stale hdraining).not_relieved ((justified_concat.mp hmade).2 stale rfl)

/-! ## Bringing up a standby -/

/-- Connections have been opened, and some of them closed. -/
structure Tried (h h' : Handles) : Prop where
  connection : h'.connection = h.connection
  draining : h'.draining = h.draining
  opened : h.opened ≤ h'.opened
  inv : h.Inv → h'.Inv
  made : h.Inv → MakeBeforeBreak h.log → MakeBeforeBreak h'.log

theorem Tried.refl (h : Handles) : Tried h h :=
  ⟨rfl, rfl, Nat.le_refl _, id, fun _ => id⟩

theorem Tried.trans {h h' h'' : Handles} (first : Tried h h') (second : Tried h' h'') :
    Tried h h'' where
  connection := second.connection.trans first.connection
  draining := second.draining.trans first.draining
  opened := first.opened.trans second.opened
  inv hinv := second.inv (first.inv hinv)
  made hinv hmade := second.made (first.inv hinv) (first.made hinv hmade)

theorem tried_open (h : Handles) : Tried h { h with opened := h.opened + 1 } where
  connection := rfl
  draining := rfl
  opened := Nat.le_succ _
  inv hinv := { hinv with connection := Nat.lt_succ_of_lt hinv.connection }
  made _ := id

theorem Tried.close {h h' : Handles} (htried : Tried h h') {i : Nat} (hi : h.opened ≤ i) :
    Tried h (h'.close i) where
  connection := htried.connection
  draining := htried.draining
  opened := htried.opened
  inv hinv := (htried.inv hinv).close i
  made hinv hmade := by
    have hlt := hinv.connection
    have hconnection := htried.connection
    exact makeBeforeBreak_close (htried.made hinv hmade) ((htried.inv hinv).relieved (by omega))

theorem prepareStandby_tried (exclude : String) (tries : List (String × Bringup)) (h : Handles) :
    Tried h (prepareStandby exclude tries h).2
      ∧ ∀ standby, (prepareStandby exclude tries h).1 = some standby →
          h.opened ≤ standby.connection
            ∧ standby.connection < (prepareStandby exclude tries h).2.opened := by
  induction tries generalizing h with
  | nil => exact ⟨.refl h, fun _ hs => nomatch hs⟩
  | cons try' rest ih =>
      obtain ⟨name, bringup⟩ := try'
      simp only [prepareStandby]
      split
      · exact ih h
      cases bringup with
      | unreachable => exact ih h
      | refused =>
          have hclosed := (tried_open h).close (Nat.le_refl h.opened)
          obtain ⟨htried, hstandby⟩ := ih ({ h with opened := h.opened + 1 }.close h.opened)
          refine ⟨hclosed.trans htried, fun standby hs => ?_⟩
          obtain ⟨hle, hlt⟩ := hstandby standby hs
          exact ⟨hclosed.opened.trans hle, hlt⟩
      | resumed next =>
          refine ⟨tried_open h, fun standby hs => ?_⟩
          obtain rfl := Option.some.inj hs
          exact ⟨Nat.le_refl _, Nat.lt_succ_self _⟩

end Handles

namespace MainLoop

open Handles

/-! ## What a step does with the connections -/

variable {P : Primitives} {transports : List String}

theorem attemptSwitch_spec {t t' : MainLoop} {reason : SwitchReason} {a : SwitchAttempt}
    {previous : Option Nat} (h : t.attemptSwitch transports reason a = (previous, t')) :
    ∃ h', Tried t.handles h' ∧ match previous with
      | none => t'.handles = h'
      | some old => old = h'.connection ∧ ∃ new, t.handles.opened ≤ new ∧ new < h'.opened
          ∧ t'.handles = h'.swap new := by
  rw [attemptSwitch] at h
  split at h
  case isFalse =>
    obtain ⟨rfl, rfl⟩ := Prod.mk.inj h
    exact ⟨_, .refl _, rfl⟩
  case isTrue =>
    obtain ⟨htried, hstandby⟩ := prepareStandby_tried t.activeTransport
      (transports.mapIdx fun i name => (name, a.bringup i)) t.handles
    generalize prepareStandby t.activeTransport
      (transports.mapIdx fun i name => (name, a.bringup i)) t.handles = prepared
      at h htried hstandby
    obtain ⟨standby, h'⟩ := prepared
    cases standby with
    | none =>
        obtain ⟨rfl, rfl⟩ := Prod.mk.inj h
        exact ⟨h', htried, rfl⟩
    | some standby =>
        obtain ⟨hle, hlt⟩ := hstandby standby rfl
        simp only at h
        split at h
        · obtain ⟨rfl, rfl⟩ := Prod.mk.inj h
          exact ⟨_, htried.close hle, rfl⟩
        · obtain ⟨rfl, rfl⟩ := Prod.mk.inj h
          exact ⟨h', htried, rfl, standby.connection, hle, hlt, rfl⟩

@[simp] theorem sent_handles (t : MainLoop) (r : SendResult) : (t.sent r).handles = t.handles := by
  cases r <;> rfl

theorem observeSignal_handles {t t' : MainLoop} {signal : Signal} {now later : Nat}
    (h : t.observeSignal signal now later = some t') : t'.handles = t.handles := by
  obtain ⟨p, -, rfl⟩ := Option.map_eq_some_iff.mp h
  rfl

theorem acknowledge_handles (t : MainLoop) (now : Nat) (r : UInt8) (rnd : Rand)
    (sent : SendResult) : (t.acknowledge P now r rnd sent).handles = t.handles := by
  rw [acknowledge]
  split
  · dsimp only
    split
    · exact sent_handles ..
    · rfl
  · rfl

theorem sendPacket_handles (t : MainLoop) (raw : Bytes) (r : UInt8) (rnd : Rand)
    (sent : SendResult) :
    (t.sendPacket P raw r rnd sent).handles = t.handles
      ∨ (t.sendPacket P raw r rnd sent).handles = t.handles.close t.handles.connection := by
  rw [sendPacket]
  split
  · split
    · exact Or.inl (sent_handles ..)
    · exact Or.inl (sent_handles ..)
  · exact Or.inr rfl

theorem receive_handles (t : MainLoop) (data : Bytes) (now : Nat) (r : UInt8) (rnd : Rand)
    (sent : SendResult) : (t.receive P data now r rnd sent).handles = t.handles.receive := by
  rw [receive]
  dsimp only
  split
  · rfl
  split
  · split
    · rfl
    · rfl
  · split
    · exact acknowledge_handles ..
    · exact acknowledge_handles ..
    · rfl
  · rfl

theorem livenessTick_handles {t t' : MainLoop} {now later : Nat} {timestamp : UInt64} {r : UInt8}
    {rnd : Rand} (h : t.livenessTick P now later timestamp r rnd = some t') :
    t'.handles = t.handles := by
  rw [livenessTick] at h
  split at h
  · obtain ⟨u, hu, rfl⟩ := Option.map_eq_some_iff.mp h
    have hkeep := observeSignal_handles hu
    exact hkeep
  · simp only at h
    split at h
    · split at h
      · obtain rfl := Option.some.inj h
        rfl
      · obtain rfl := Option.some.inj h
        rfl
    · obtain rfl := Option.some.inj h
      rfl

/-- A step that is no successful switch. -/
inductive Move (h : Handles) : Handles → Prop where
  | tried {h' : Handles} (htried : Tried h h') : Move h h'
  | receive : Move h h.receive
  | leave {h' : Handles} (htried : Tried h h') : Move h (h'.close h'.connection)

theorem Move.keep {h h' : Handles} (heq : h' = h) : Move h h' := by
  rw [heq]
  exact .tried (.refl h)

theorem select_handles {t t' : MainLoop} {e : Event} (h : t.select P e = some t') :
    Move t.handles t'.handles := by
  cases e with
  | packet raw r rnd sent =>
      simp only [select] at h
      split at h
      · cases h
      · obtain rfl := Option.some.inj h
        rcases sendPacket_handles t raw r rnd sent with heq | heq
        · exact .keep heq
        · exact heq ▸ .leave (.refl _)
  | intercepted =>
      simp only [select] at h
      split at h
      · cases h
      · obtain rfl := Option.some.inj h
        exact .keep rfl
  | readerStopped =>
      simp only [select] at h
      split at h
      · cases h
      · obtain rfl := Option.some.inj h
        exact .leave (.refl _)
  | frame data now r rnd sent =>
      obtain rfl := Option.some.inj h
      rw [receive_handles]
      exact .receive
  | recvFailed e now later =>
      obtain ⟨u, hu, rfl⟩ := Option.map_eq_some_iff.mp h
      have hkeep := observeSignal_handles hu
      exact .keep hkeep
  | livenessTick now later timestamp r rnd => exact .keep (livenessTick_handles h)
  | postureTick now later => exact .keep (observeSignal_handles h)
  | shutdown =>
      obtain rfl := Option.some.inj h
      exact .leave (.refl _)
  | attempt a => cases h

/-- A switch that succeeds displaces the connection in use and drains it. -/
theorem step_handles {t t' : MainLoop} {e : Event} (h : t.step P transports e = some t') :
    (t.switches transports e = false ∧ Move t.handles t'.handles)
      ∨ t.switches transports e = true ∧ ∃ h' new, Tried t.handles h' ∧ t.handles.opened ≤ new
          ∧ new < h'.opened ∧ t'.handles = (h'.swap new).drain h'.connection := by
  unfold step at h
  split at h
  · rename_i e _ _ hpc
    have hno : t.switches transports e = false := by
      unfold switches
      rw [hpc]
    exact Or.inl ⟨hno, select_handles h⟩
  · rename_i reason a hpc
    obtain rfl := Option.some.inj h
    have hswitches : t.switches transports (.attempt a)
        = (t.attemptSwitch transports reason a).1.isSome := by
      unfold switches
      rw [hpc]
    rw [hswitches, switchOrGiveUp]
    cases hattempt : t.attemptSwitch transports reason a with
    | mk previous u =>
        obtain ⟨h', htried, hprevious⟩ := attemptSwitch_spec hattempt
        cases previous with
        | none =>
            obtain rfl : u.handles = h' := hprevious
            refine Or.inl ⟨rfl, ?_⟩
            dsimp only
            split
            · exact .leave htried
            · exact .tried htried
        | some old =>
            obtain ⟨rfl, new, hle, hlt, hswap⟩ := hprevious
            refine Or.inr ⟨rfl, h', new, htried, hle, hlt, ?_⟩
            rw [← hswap]
  · cases h

/-! ## Runs -/

theorem inv_step {t t' : MainLoop} {e : Event} (hinv : t.handles.Inv)
    (h : t.step P transports e = some t') : t'.handles.Inv := by
  rcases step_handles h with ⟨-, hmove⟩ | ⟨-, h', new, htried, hle, hlt, heq⟩
  · generalize t'.handles = moved at hmove ⊢
    cases hmove with
    | tried htried => exact htried.inv hinv
    | receive => exact hinv.receive
    | leave htried => exact (htried.inv hinv).close _
  · have hconnection := hinv.connection
    have hsame := htried.connection
    have hswap : (h'.swap new).Inv := (htried.inv hinv).swap (by omega) hlt
    rw [heq]
    exact hswap.drain ⟨h'.log, new, [], rfl, by simp⟩

theorem makeBeforeBreak_step {t t' : MainLoop} {e : Event} (hinv : t.handles.Inv)
    (hmade : MakeBeforeBreak t.handles.log) (h : t.step P transports e = some t') :
    MakeBeforeBreak t'.handles.log ↔ t.Drained transports e := by
  rcases step_handles h with ⟨hno, hmove⟩ | ⟨hyes, h', new, htried, hle, hlt, heq⟩
  · refine iff_of_true ?_ fun hyes => absurd (hno.symm.trans hyes) Bool.false_ne_true
    generalize t'.handles = moved at hmove ⊢
    cases hmove with
    | tried htried => exact htried.made hinv hmade
    | receive => exact hinv.receive_makeBeforeBreak hmade
    | leave htried =>
        exact makeBeforeBreak_close (htried.made hinv hmade)
          ((htried.inv hinv).relieved (Nat.le_refl _))
  · have hconnection := hinv.connection
    have hsame := htried.connection
    have hswap : (h'.swap new).Inv := (htried.inv hinv).swap (by omega) hlt
    have hmade' : MakeBeforeBreak (h'.swap new).log :=
      makeBeforeBreak_other (htried.made hinv hmade) fun _ he => nomatch he
    have hdraining : (h'.swap new).draining = t.handles.draining := htried.draining
    rw [heq, hswap.drain_makeBeforeBreak, hdraining, Drained]
    exact ⟨fun h _ => h.2, fun h => ⟨hmade', h hyes⟩⟩

/-- A connection that a switch displaced is closed only after a frame on
one that replaced it, if and only if every successful switch finds nothing
left to drain. -/
theorem makeBeforeBreak_iff (P : Primitives) (transports : List String) (session : Session)
    (transport : String) (now : Nat) (events : List Event) :
    Always (step P transports) (fun t => MakeBeforeBreak t.handles.log)
        (start session transport now) events
      ↔ Meets (step P transports) (Drained transports) (start session transport now) events := by
  refine always_iff_meets (I := fun t => t.handles.Inv) (fun t e t' hinv hmade ht => ?_)
    inv_start (justified_nil _)
  exact ⟨makeBeforeBreak_step hinv hmade ht, fun _ => inv_step hinv ht⟩

/-- The link falls silent, and the replacement never delivers anything. -/
def silentTwice : List Event :=
  [.livenessTick (10 ^ 9) (10 ^ 9) 0 0 noPadding, .attempt ⟨fun _ => .resumed 0, 0, 10 ^ 9⟩,
    .livenessTick (2 * 10 ^ 9) (2 * 10 ^ 9) 0 0 noPadding,
    .attempt ⟨fun _ => .resumed 0, 0, 2 * 10 ^ 9⟩]

theorem silentTwice_log :
    (exec (step .plain ["quic", "tls-tcp"]) (start (.new (zeroArr 16) plainKeys) "quic" 0)
        silentTwice).map (fun t => t.handles.log)
      = some [.displaced 0 1, .displaced 1 2, .closed 0] := by
  decide +kernel

/-- The first connection is closed with nothing received on either of the
two that came after it. -/
theorem silentTwice_breaks :
    ¬ Always (step .plain ["quic", "tls-tcp"]) (fun t => MakeBeforeBreak t.handles.log)
      (start (.new (zeroArr 16) plainKeys) "quic" 0) silentTwice := by
  obtain ⟨t, hexec, hlog⟩ := Option.map_eq_some_iff.mp silentTwice_log
  refine not_always_of_exec hexec ?_
  intro hmade
  rw [hlog] at hmade
  have hrelieved := hmade [.displaced 0 1, .displaced 1 2] (.closed 0) List.prefix_rfl 0 rfl
  obtain ⟨k, -, hk⟩ := hrelieved [] 1 [.displaced 1 2] rfl
  simp at hk

end MainLoop

end Kanrin
