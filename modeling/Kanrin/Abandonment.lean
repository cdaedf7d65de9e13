import Kanrin.MainLoop

/-!
# When the tunnel is given up

The give-up exit of `switch_or_give_up!`, over the runs of the main loop.
`Watched` keeps a record of the frames received and of the switches
attempted. The loop counts failed attempts and starts again from nothing
when one succeeds, but not when a frame arrives: attempts that failed in
outages which have healed since still count. `givenUp_hopeless` says that
nothing else can go wrong: no frame while attempts are being counted, and
the tunnel is given up only when it should be.
-/

namespace Kanrin

open Lib

inductive SwitchEntry where
  /-- A frame has been received on the connection in use. -/
  | received
  | switched
  | failed
  | gaveUp
deriving DecidableEq

/-- The last attempts all failed, as many as the loop has patience for, and
no frame has been received since the first of them. -/
def Hopeless (log : List SwitchEntry) : Prop :=
  ∃ before window, log = before ++ window ∧ window.length = maxFailedSwitches
    ∧ ∀ e ∈ window, e = .failed

def GivenUpHopeless : List SwitchEntry → Prop :=
  Justified fun older e => e = .gaveUp → Hopeless older

def SwitchEntry.isFailed (e : SwitchEntry) : Bool := decide (e = .failed)

theorem hopeless_iff {log : List SwitchEntry} :
    Hopeless log ↔ maxFailedSwitches ≤ streak SwitchEntry.isFailed log := by
  rw [le_streak_iff, Hopeless]
  simp only [SwitchEntry.isFailed, decide_eq_true_eq]

/-! ## The loop and its record -/

structure Watched where
  loop : MainLoop
  log : List SwitchEntry

namespace Watched

variable (P : Primitives) (transports : List String)

/-- What a step of the loop from `t` to `t'` adds to the record. -/
def entries (t : MainLoop) (e : MainLoop.Event) (t' : MainLoop) : List SwitchEntry :=
  match t.pc, e with
  | .select, .frame .. => [.received]
  | .switching _, .attempt _ =>
      if t.switches transports e = true then [.switched]
      else if t'.pc = .ended then [.failed, .gaveUp]
      else [.failed]
  | _, _ => []

def step (w : Watched) (e : MainLoop.Event) : Option Watched :=
  (w.loop.step P transports e).map fun t => ⟨t, w.log ++ entries transports w.loop e t⟩

def start (session : Session) (transport : String) (now : Nat) : Watched :=
  ⟨.start session transport now, []⟩

/-- The event is a frame from the connection in use. -/
def isFrame : MainLoop.Event → Bool
  | .frame .. => true
  | _ => false

/-- No frame is received while failed attempts are being counted. -/
def Uncounted (w : Watched) (e : MainLoop.Event) : Prop :=
  isFrame e = true → w.loop.failedSwitches = 0

instance (w : Watched) (e : MainLoop.Event) : Decidable (w.Uncounted e) :=
  inferInstanceAs (Decidable (_ → _))

end Watched

/-! ## What a step does with the count -/

namespace MainLoop

variable {P : Primitives} {transports : List String}

@[simp] theorem sent_failedSwitches (t : MainLoop) (r : SendResult) :
    (t.sent r).failedSwitches = t.failedSwitches := by
  cases r <;> rfl

theorem observeSignal_failedSwitches {t t' : MainLoop} {signal : Signal} {now later : Nat}
    (h : t.observeSignal signal now later = some t') : t'.failedSwitches = t.failedSwitches := by
  obtain ⟨p, -, rfl⟩ := Option.map_eq_some_iff.mp h
  rfl

theorem sendPacket_failedSwitches (t : MainLoop) (raw : Bytes) (r : UInt8) (rnd : Rand)
    (sent : SendResult) : (t.sendPacket P raw r rnd sent).failedSwitches = t.failedSwitches := by
  rw [sendPacket]
  split
  · split
    · exact sent_failedSwitches ..
    · exact sent_failedSwitches ..
  · rfl

theorem acknowledge_failedSwitches (t : MainLoop) (now : Nat) (r : UInt8) (rnd : Rand)
    (sent : SendResult) :
    (t.acknowledge P now r rnd sent).failedSwitches = t.failedSwitches := by
  rw [acknowledge]
  split
  · dsimp only
    split
    · exact sent_failedSwitches ..
    · rfl
  · rfl

theorem receive_failedSwitches (t : MainLoop) (data : Bytes) (now : Nat) (r : UInt8) (rnd : Rand)
    (sent : SendResult) : (t.receive P data now r rnd sent).failedSwitches = t.failedSwitches := by
  rw [receive]
  dsimp only
  split
  · rfl
  split
  · split
    · rfl
    · rfl
  · split
    · exact acknowledge_failedSwitches ..
    · exact acknowledge_failedSwitches ..
    · rfl
  · rfl

theorem livenessTick_failedSwitches {t t' : MainLoop} {now later : Nat} {timestamp : UInt64}
    {r : UInt8} {rnd : Rand} (h : t.livenessTick P now later timestamp r rnd = some t') :
    t'.failedSwitches = t.failedSwitches := by
  rw [livenessTick] at h
  split at h
  · obtain ⟨u, hu, rfl⟩ := Option.map_eq_some_iff.mp h
    have hkeep := observeSignal_failedSwitches hu
    exact hkeep
  · simp only at h
    split at h
    · split at h
      · obtain rfl := Option.some.inj h
        rfl
      · obtain rfl := Option.some.inj h
        rfl
    · obtain rfl := Option.some.inj h
      rfl

theorem select_failedSwitches {t t' : MainLoop} {e : Event} (h : t.select P e = some t') :
    t'.failedSwitches = t.failedSwitches := by
  cases e with
  | packet raw r rnd sent =>
      simp only [select] at h
      split at h
      · cases h
      · obtain rfl := Option.some.inj h
        exact sendPacket_failedSwitches ..
  | intercepted =>
      simp only [select] at h
      split at h
      · cases h
      · obtain rfl := Option.some.inj h
        rfl
  | readerStopped =>
      simp only [select] at h
      split at h
      · cases h
      · obtain rfl := Option.some.inj h
        rfl
  | frame data now r rnd sent =>
      obtain rfl := Option.some.inj h
      exact receive_failedSwitches ..
  | recvFailed e now later =>
      obtain ⟨u, hu, rfl⟩ := Option.map_eq_some_iff.mp h
      have hkeep := observeSignal_failedSwitches hu
      exact hkeep
  | livenessTick now later timestamp r rnd => exact livenessTick_failedSwitches h
  | postureTick now later => exact observeSignal_failedSwitches h
  | shutdown =>
      obtain rfl := Option.some.inj h
      rfl
  | attempt a => cases h

theorem attemptSwitch_failedSwitches (t : MainLoop) (reason : SwitchReason) (a : SwitchAttempt) :
    (t.attemptSwitch transports reason a).2.failedSwitches = t.failedSwitches := by
  rw [attemptSwitch]
  split
  · dsimp only
    split
    · rfl
    split
    · rfl
    · rfl
  · rfl

theorem switchOrGiveUp_spec (t : MainLoop) (reason : SwitchReason) (a : SwitchAttempt) :
    match (t.attemptSwitch transports reason a).1 with
    | some _ => (t.switchOrGiveUp transports reason a).failedSwitches = 0
    | none =>
        (t.failedSwitches + 1 < maxFailedSwitches
            ∧ (t.switchOrGiveUp transports reason a).pc = .select
            ∧ (t.switchOrGiveUp transports reason a).failedSwitches = t.failedSwitches + 1)
          ∨ maxFailedSwitches ≤ t.failedSwitches + 1
            ∧ (t.switchOrGiveUp transports reason a).pc = .ended := by
  have hcount : (t.attemptSwitch transports reason a).2.failedSwitches = t.failedSwitches :=
    attemptSwitch_failedSwitches t reason a
  rw [switchOrGiveUp]
  cases hattempt : t.attemptSwitch transports reason a with
  | mk previous u =>
      rw [hattempt] at hcount
      cases previous with
      | some old => rfl
      | none =>
          obtain hcount : u.failedSwitches = t.failedSwitches := hcount
          dsimp only
          rw [hcount]
          split
          · rename_i hpatience
            exact Or.inr ⟨hpatience, rfl⟩
          · rename_i hpatience
            exact Or.inl ⟨Nat.lt_of_not_le hpatience, rfl, rfl⟩

end MainLoop

namespace Watched

variable {P : Primitives} {transports : List String}

/-- What one step does to the count and to the record. -/
inductive Effect (w w' : Watched) (e : MainLoop.Event) : Prop where
  | nothing (hlog : w'.log = w.log) (hcount : w'.loop.failedSwitches = w.loop.failedSwitches)
  | received (hframe : isFrame e = true) (hlog : w'.log = w.log ++ [.received])
      (hcount : w'.loop.failedSwitches = w.loop.failedSwitches)
  | switched (hlog : w'.log = w.log ++ [.switched]) (hcount : w'.loop.failedSwitches = 0)
  | failed (hlog : w'.log = w.log ++ [.failed])
      (hcount : w'.loop.failedSwitches = w.loop.failedSwitches + 1)
  | gaveUp (hlog : w'.log = w.log ++ [.failed] ++ [.gaveUp]) (hended : w'.loop.pc = .ended)
      (hpatience : maxFailedSwitches ≤ w.loop.failedSwitches + 1)

theorem step_effect {w w' : Watched} {e : MainLoop.Event}
    (h : w.step P transports e = some w') : Effect w w' e := by
  obtain ⟨t, ht, rfl⟩ := Option.map_eq_some_iff.mp h
  unfold MainLoop.step at ht
  split at ht
  · rename_i e _ _ hpc
    have hcount := MainLoop.select_failedSwitches ht
    cases e with
    | frame data now r rnd sent =>
        refine .received rfl ?_ hcount
        simp only [entries, hpc]
    | _ =>
        refine .nothing ?_ hcount
        simp only [entries, hpc, List.append_nil]
  · rename_i reason a hpc
    obtain rfl := Option.some.inj ht
    have hswitches : w.loop.switches transports (.attempt a)
        = (w.loop.attemptSwitch transports reason a).1.isSome := by
      unfold MainLoop.switches
      rw [hpc]
    have hspec := @MainLoop.switchOrGiveUp_spec transports w.loop reason a
    generalize hprevious : (w.loop.attemptSwitch transports reason a).1 = previous
      at hswitches hspec
    generalize w.loop.switchOrGiveUp transports reason a = t at hspec ⊢
    have hentries : entries transports w.loop (.attempt a) t
        = if previous.isSome = true then [.switched]
          else if t.pc = .ended then [.failed, .gaveUp] else [.failed] := by
      simp only [entries, hpc, hswitches]
    cases previous with
    | some old => exact .switched (congrArg (w.log ++ ·) hentries) hspec
    | none =>
        rcases hspec with ⟨hpatience, hselect, hcount⟩ | ⟨hpatience, hended⟩
        · rw [hselect] at hentries
          exact .failed (congrArg (w.log ++ ·) hentries) hcount
        · rw [hended] at hentries
          refine .gaveUp ?_ hended hpatience
          rw [List.append_assoc]
          exact congrArg (w.log ++ ·) hentries
  · cases ht

/-! ## Runs -/

/-- While the loop runs, the attempts it counts are the last entries of the
record. -/
def Counted (w : Watched) : Prop :=
  w.loop.pc ≠ .ended → w.loop.failedSwitches ≤ streak SwitchEntry.isFailed w.log

theorem counted_start (session : Session) (transport : String) (now : Nat) :
    (start session transport now).Counted :=
  fun _ => Nat.zero_le _

/-- A run that has ended takes no further step. -/
theorem step_running {w w' : Watched} {e : MainLoop.Event}
    (h : w.step P transports e = some w') : w.loop.pc ≠ .ended := by
  intro hended
  obtain ⟨t, ht, -⟩ := Option.map_eq_some_iff.mp h
  simp [MainLoop.step, hended] at ht

theorem counted_step {w w' : Watched} {e : MainLoop.Event} (hcounted : w.Counted)
    (hfree : w.Uncounted e) (h : w.step P transports e = some w') : w'.Counted := by
  intro hrunning
  have hold := hcounted (step_running h)
  cases step_effect h with
  | nothing hlog hcount =>
      rw [hlog, hcount]
      exact hold
  | received hframe _ hcount =>
      -- the frame ends the streak, so nothing may be counted here
      rw [hcount, hfree hframe]
      exact Nat.zero_le _
  | switched _ hcount =>
      rw [hcount]
      exact Nat.zero_le _
  | failed hlog hcount =>
      rw [hlog, hcount, streak_concat]
      exact Nat.succ_le_succ hold
  | gaveUp _ hended _ => exact absurd hended hrunning

theorem givenUpHopeless_other {log : List SwitchEntry} (h : GivenUpHopeless log) {e : SwitchEntry}
    (he : e ≠ .gaveUp) : GivenUpHopeless (log ++ [e]) :=
  justified_concat.mpr ⟨h, fun heq => absurd heq he⟩

theorem givenUpHopeless_step {w w' : Watched} {e : MainLoop.Event} (hcounted : w.Counted)
    (hgiven : GivenUpHopeless w.log) (h : w.step P transports e = some w') :
    GivenUpHopeless w'.log := by
  have hold := hcounted (step_running h)
  cases step_effect h with
  | nothing hlog _ => exact hlog ▸ hgiven
  | received _ hlog _ => exact hlog ▸ givenUpHopeless_other hgiven (by decide)
  | switched hlog _ => exact hlog ▸ givenUpHopeless_other hgiven (by decide)
  | failed hlog _ => exact hlog ▸ givenUpHopeless_other hgiven (by decide)
  | gaveUp hlog _ hpatience =>
      have hfailed : GivenUpHopeless (w.log ++ [.failed]) :=
        givenUpHopeless_other hgiven (by decide)
      have hstreak : maxFailedSwitches ≤ streak SwitchEntry.isFailed (w.log ++ [.failed]) := by
        rw [streak_concat]
        exact hpatience.trans (Nat.succ_le_succ hold)
      rw [hlog]
      exact justified_concat.mpr ⟨hfailed, fun _ => hopeless_iff.mpr hstreak⟩

/-- The tunnel is given up only when the last attempts all failed with no
frame in between, in every run in which no frame is received while failed
attempts are being counted. -/
theorem givenUp_hopeless (P : Primitives) (transports : List String) (session : Session)
    (transport : String) (now : Nat) (events : List MainLoop.Event)
    (hmeets : Meets (step P transports) Uncounted (start session transport now) events) :
    Always (step P transports) (fun w => GivenUpHopeless w.log) (start session transport now)
      events := by
  have hboth : Always (step P transports) (fun w => w.Counted ∧ GivenUpHopeless w.log)
      (start session transport now) events := by
    refine always_of_meets (fun w e w' ⟨hcounted, hgiven⟩ hfree h => ?_)
      ⟨counted_start session transport now, justified_nil _⟩ hmeets
    exact ⟨counted_step hcounted hfree h, givenUpHopeless_step hcounted hgiven h⟩
  exact hboth.mono fun _ hw => hw.2

/-- A frame of the server's. -/
def pongFrame (seq : UInt64) : Bytes :=
  let pong := Chunk.newControl (ControlMessage.pong 0).encode 0
  match pong.encodeSequenced .plain plainKeys.serverWriteKey seq noPadding with
  | .ok frame => frame
  | .error _ => []

/-- The link is silent for two seconds, and no other transport is to be had. -/
def outage (second : Nat) : List MainLoop.Event :=
  [.livenessTick (second * 10 ^ 9) (second * 10 ^ 9) 0 0 noPadding,
    .attempt ⟨fun _ => .unreachable, 0, second * 10 ^ 9⟩]

/-- A frame first, and then one outage that does not end. -/
def lastingOutage : List MainLoop.Event :=
  [.frame (pongFrame 0) (10 ^ 9) 0 noPadding none] ++
  outage 3 ++ outage 5 ++ outage 7 ++ outage 9 ++ outage 11

/-- The tunnel is given up, and rightly. -/
theorem givenUp_hopeless_lastingOutage :
    (exec (step .plain ["quic", "tls-tcp"]) (start (.new (zeroArr 16) plainKeys) "quic" 0)
        lastingOutage).map (fun w => w.log)
      = some [.received, .failed, .failed, .failed, .failed, .failed, .gaveUp] ∧
    Always (step .plain ["quic", "tls-tcp"]) (fun w => GivenUpHopeless w.log)
      (start (.new (zeroArr 16) plainKeys) "quic" 0) lastingOutage :=
  ⟨by decide +kernel, givenUp_hopeless .plain ["quic", "tls-tcp"] (.new (zeroArr 16) plainKeys)
    "quic" 0 lastingOutage (by decide +kernel)⟩

/-- Each outage but the last is over when a frame arrives. -/
def healingOutages : List MainLoop.Event :=
  outage 2 ++ [.frame (pongFrame 0) (2 * 10 ^ 9) 0 noPadding none] ++
  outage 4 ++ [.frame (pongFrame 1) (4 * 10 ^ 9) 0 noPadding none] ++
  outage 6 ++ [.frame (pongFrame 2) (6 * 10 ^ 9) 0 noPadding none] ++
  outage 8 ++ [.frame (pongFrame 3) (8 * 10 ^ 9) 0 noPadding none] ++
  outage 10

theorem healingOutages_log :
    (exec (step .plain ["quic", "tls-tcp"]) (start (.new (zeroArr 16) plainKeys) "quic" 0)
        healingOutages).map (fun w => w.log)
      = some ([.failed, .received, .failed, .received, .failed, .received, .failed, .received,
          .failed] ++ [.gaveUp]) := by
  decide +kernel

/-- The tunnel is given up although the connection in use has delivered a
frame after each of the first four attempts. -/
theorem healingOutages_givenUp :
    ¬ Always (step .plain ["quic", "tls-tcp"]) (fun w => GivenUpHopeless w.log)
      (start (.new (zeroArr 16) plainKeys) "quic" 0) healingOutages := by
  obtain ⟨w, hexec, hlog⟩ := Option.map_eq_some_iff.mp healingOutages_log
  refine not_always_of_exec hexec ?_
  intro hgiven
  rw [hlog] at hgiven
  have hhopeless := hgiven _ .gaveUp List.prefix_rfl rfl
  rw [hopeless_iff] at hhopeless
  revert hhopeless
  decide

end Watched

end Kanrin
