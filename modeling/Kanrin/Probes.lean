import Kanrin.MainLoop

/-!
# Probes

What the main loop does on its own for a link that may have gone silent:
`LivenessMonitor` of the client's `switch.rs`, over the runs of
`run_pipeline`. `Supervised` keeps a record of what is seen of the link.

The timer and the frames race each other, so what the monitor says depends
on when it is asked. As long as it is asked often enough, a link is declared
silent only after it has left a probe unanswered (`silence_probed`), and
silence is not overlooked for longer than it takes to ask once more
(`silence_noticed`). A link that is busy is not probed at all
(`probes_apart`).
-/

namespace Kanrin

open Lib

/-! ## The record -/

inductive LinkEventKind where
  /-- The connection in use is a new one. -/
  | connected
  | received
  | ticked
  /-- A ping is due. -/
  | probed
  /-- The link is declared silent. -/
  | silent
  | other
deriving DecidableEq

structure LinkEvent where
  time : Nat
  kind : LinkEventKind
deriving DecidableEq

namespace LinkEvent

/-- From here on the link is as good as new. -/
def Revives (e : LinkEvent) : Prop := e.kind = .connected ∨ e.kind = .received

instance (e : LinkEvent) : Decidable e.Revives := inferInstanceAs (Decidable (_ ∨ _))

/-- The timer has been served. -/
def Ticks (e : LinkEvent) : Prop := e.kind = .ticked ∨ e.kind = .probed ∨ e.kind = .silent

instance (e : LinkEvent) : Decidable e.Ticks := inferInstanceAs (Decidable (_ ∨ _))

end LinkEvent

namespace MainLoop

variable (P : Primitives) (transports : List String)

/-- The clock, where an event reads it. -/
def Event.time : Event → Option Nat
  | .frame _ now _ _ _ | .recvFailed _ now _ | .livenessTick now _ _ _ _ | .postureTick now _ =>
      some now
  | .attempt a => some a.now
  | .packet .. | .intercepted | .readerStopped | .shutdown => none

/-- What the step from `t` to `t'` shows of the link. -/
def linkEvent (t : MainLoop) (e : Event) (t' : MainLoop) : Option LinkEvent :=
  match t.pc, e with
  | .select, .frame _ now _ _ _ => some ⟨now, .received⟩
  | .select, .livenessTick now _ _ _ _ =>
      some ⟨now,
        if t'.pc = .switching .linkSilent then .silent
        else if (t.monitor.shouldProbe now).1 then .probed
        else .ticked⟩
  | .select, .recvFailed _ now _ | .select, .postureTick now _ => some ⟨now, .other⟩
  | .switching _, .attempt a =>
      some ⟨a.now, if t.switches transports e then .connected else .other⟩
  | _, _ => none

end MainLoop

structure Supervised where
  loop : MainLoop
  /-- The last reading of the clock. -/
  clock : Nat
  /-- When the timer was last served. -/
  lastTick : Nat
  log : List LinkEvent

namespace Supervised

variable (P : Primitives) (transports : List String)

def start (session : Session) (transport : String) (now : Nat) : Supervised where
  loop := .start session transport now
  clock := now
  lastTick := now
  log := [⟨now, .connected⟩]

def record (w : Supervised) (loop : MainLoop) : Option LinkEvent → Supervised
  | none => { w with loop }
  | some e =>
      { loop
        clock := e.time
        lastTick := if e.Ticks then e.time else w.lastTick
        log := w.log ++ [e] }

def step (w : Supervised) (e : MainLoop.Event) : Option Supervised :=
  (w.loop.step P transports e).map fun t => w.record t (w.loop.linkEvent transports e t)

/-- The clock does not go back. -/
def Monotone (w : Supervised) (e : MainLoop.Event) : Prop := ∀ now ∈ e.time, w.clock ≤ now

/-- Nor does it get further than `gap` past the timer. -/
def Punctual (gap : Nat) (w : Supervised) (e : MainLoop.Event) : Prop :=
  ∀ now ∈ e.time, w.clock ≤ now ∧ now ≤ w.lastTick + gap

instance (w : Supervised) (e : MainLoop.Event) : Decidable (w.Monotone e) :=
  inferInstanceAs (Decidable (∀ now ∈ e.time, _))

instance (gap : Nat) (w : Supervised) (e : MainLoop.Event) : Decidable (w.Punctual gap e) :=
  inferInstanceAs (Decidable (∀ now ∈ e.time, _))

end Supervised

/-! ## What a step does with the monitor -/

namespace MainLoop

variable {P : Primitives} {transports : List String}

@[simp] theorem sent_monitor (t : MainLoop) (r : SendResult) : (t.sent r).monitor = t.monitor := by
  cases r <;> rfl

theorem observeSignal_monitor {t t' : MainLoop} {signal : Signal} {now later : Nat}
    (h : t.observeSignal signal now later = some t') : t'.monitor = t.monitor := by
  obtain ⟨p, -, rfl⟩ := Option.map_eq_some_iff.mp h
  rfl

theorem sendPacket_monitor (t : MainLoop) (raw : Bytes) (r : UInt8) (rnd : Rand)
    (sent : SendResult) : (t.sendPacket P raw r rnd sent).monitor = t.monitor := by
  rw [sendPacket]
  split
  · split
    · exact sent_monitor ..
    · exact sent_monitor ..
  · rfl

theorem acknowledge_monitor (t : MainLoop) (now : Nat) (r : UInt8) (rnd : Rand)
    (sent : SendResult) : (t.acknowledge P now r rnd sent).monitor = t.monitor := by
  rw [acknowledge]
  split
  · dsimp only
    split
    · exact sent_monitor ..
    · rfl
  · rfl

theorem receive_monitor (t : MainLoop) (data : Bytes) (now : Nat) (r : UInt8) (rnd : Rand)
    (sent : SendResult) :
    (t.receive P data now r rnd sent).monitor = t.monitor.recordInbound now := by
  rw [receive]
  dsimp only
  split
  · rfl
  split
  · split
    · rfl
    · rfl
  · split
    · exact acknowledge_monitor ..
    · exact acknowledge_monitor ..
    · rfl
  · rfl

/-- The loop takes up a switch, or at most a probe. -/
theorem livenessTick_monitor {t t' : MainLoop} {now later : Nat} {timestamp : UInt64} {r : UInt8}
    {rnd : Rand} (h : t.livenessTick P now later timestamp r rnd = some t') :
    (t.monitor.isDead now = true ∧ t'.pc = .switching .linkSilent ∧ t'.monitor = t.monitor)
      ∨ (t.monitor.isDead now = false ∧ t'.pc = t.pc
        ∧ t'.monitor = (t.monitor.shouldProbe now).2) := by
  rw [livenessTick] at h
  split at h
  · rename_i hdead
    obtain ⟨u, hu, rfl⟩ := Option.map_eq_some_iff.mp h
    have hkeep := observeSignal_monitor hu
    exact Or.inl ⟨hdead, rfl, hkeep⟩
  · rename_i halive
    refine Or.inr ⟨Bool.eq_false_of_not_eq_true halive, ?_⟩
    simp only at h
    split at h
    · split at h
      · obtain rfl := Option.some.inj h
        exact ⟨rfl, rfl⟩
      · obtain rfl := Option.some.inj h
        exact ⟨rfl, rfl⟩
    · obtain rfl := Option.some.inj h
      exact ⟨rfl, rfl⟩

theorem attemptSwitch_monitor {t t' : MainLoop} {reason : SwitchReason} {a : SwitchAttempt}
    {previous : Option Nat} (h : t.attemptSwitch transports reason a = (previous, t')) :
    t'.monitor = if previous.isSome then t.monitor.reset a.now else t.monitor := by
  rw [attemptSwitch] at h
  split at h
  · generalize prepareStandby t.activeTransport _ t.handles = prepared at h
    obtain ⟨standby, handles⟩ := prepared
    cases standby with
    | none =>
        obtain ⟨rfl, rfl⟩ := Prod.mk.inj h
        rfl
    | some standby =>
        dsimp only at h
        split at h
        · obtain ⟨rfl, rfl⟩ := Prod.mk.inj h
          rfl
        · obtain ⟨rfl, rfl⟩ := Prod.mk.inj h
          rfl
  · obtain ⟨rfl, rfl⟩ := Prod.mk.inj h
    rfl

theorem switchOrGiveUp_monitor (t : MainLoop) (reason : SwitchReason) (a : SwitchAttempt) :
    (t.switchOrGiveUp transports reason a).monitor
      = if (t.attemptSwitch transports reason a).1.isSome then t.monitor.reset a.now
        else t.monitor := by
  rw [switchOrGiveUp]
  cases hattempt : t.attemptSwitch transports reason a with
  | mk previous u =>
      have h := attemptSwitch_monitor hattempt
      cases previous with
      | some old => exact h
      | none =>
          dsimp only
          split
          · exact h
          · exact h

end MainLoop

/-- How the monitor goes from `m` to `m'` by what is seen of the link. -/
def LinkEvent.Moves (e : LinkEvent) (m m' : LivenessMonitor) : Prop :=
  match e.kind with
  | .connected => m' = m.reset e.time
  | .received => m' = m.recordInbound e.time
  | .silent => m.isDead e.time = true ∧ m' = m
  | .probed =>
      m.isDead e.time = false ∧ (m.shouldProbe e.time).1 = true ∧ m' = { m with lastProbe := e.time }
  | .ticked => m.isDead e.time = false ∧ (m.shouldProbe e.time).1 = false ∧ m' = m
  | .other => m' = m

namespace LinkEvent.Moves

variable {e : LinkEvent} {m m' : LivenessMonitor} (h : e.Moves m m')
include h

theorem timing : m'.timeout = m.timeout ∧ m'.probeInterval = m.probeInterval := by
  obtain ⟨time, kind⟩ := e
  cases kind with
  | connected | received | other =>
      obtain rfl : m' = _ := h
      exact ⟨rfl, rfl⟩
  | silent =>
      obtain ⟨-, rfl⟩ := h
      exact ⟨rfl, rfl⟩
  | probed | ticked =>
      obtain ⟨-, -, rfl⟩ := h
      exact ⟨rfl, rfl⟩

theorem lastInbound : m'.lastInbound = if e.Revives then e.time else m.lastInbound := by
  obtain ⟨time, kind⟩ := e
  cases kind with
  | connected | received | other =>
      obtain rfl : m' = _ := h
      rfl
  | silent =>
      obtain ⟨-, rfl⟩ := h
      rfl
  | probed | ticked =>
      obtain ⟨-, -, rfl⟩ := h
      rfl

theorem lastProbe :
    m'.lastProbe = if e.kind = .connected ∨ e.kind = .probed then e.time else m.lastProbe := by
  obtain ⟨time, kind⟩ := e
  cases kind with
  | connected | received | other =>
      obtain rfl : m' = _ := h
      rfl
  | silent =>
      obtain ⟨-, rfl⟩ := h
      rfl
  | probed | ticked =>
      obtain ⟨-, -, rfl⟩ := h
      rfl

end LinkEvent.Moves

theorem LivenessMonitor.shouldProbe_snd (m : LivenessMonitor) (now : Nat) :
    (m.shouldProbe now).2 = if (m.shouldProbe now).1 then { m with lastProbe := now } else m := by
  rw [shouldProbe]
  split
  · rfl
  · rfl

theorem LivenessMonitor.shouldProbe_iff (m : LivenessMonitor) (now : Nat) :
    (m.shouldProbe now).1 = true
      ↔ m.probeInterval ≤ now - m.lastInbound ∧ m.probeInterval ≤ now - m.lastProbe := by
  rw [shouldProbe]
  split
  · rename_i h
    rw [Bool.and_eq_true, decide_eq_true_iff, decide_eq_true_iff] at h
    exact iff_of_true rfl h
  · rename_i h
    rw [Bool.and_eq_true, decide_eq_true_iff, decide_eq_true_iff] at h
    exact iff_of_false Bool.false_ne_true h

theorem LivenessMonitor.isDead_iff (m : LivenessMonitor) (now : Nat) :
    m.isDead now = true ↔ m.timeout ≤ now - m.lastInbound := decide_eq_true_iff

namespace MainLoop

variable {P : Primitives} {transports : List String}

theorem select_monitor {t t' : MainLoop} {e : Event} (hpc : t.pc = .select)
    (h : t.select P e = some t') :
    (t.linkEvent transports e t' = none ∧ t'.monitor = t.monitor)
      ∨ ∃ l, t.linkEvent transports e t' = some l ∧ l.time ∈ e.time
        ∧ l.Moves t.monitor t'.monitor := by
  cases e with
  | packet raw r rnd sent =>
      simp only [select] at h
      split at h
      · cases h
      · obtain rfl := Option.some.inj h
        exact Or.inl ⟨by unfold linkEvent; rw [hpc], sendPacket_monitor ..⟩
  | intercepted =>
      simp only [select] at h
      split at h
      · cases h
      · obtain rfl := Option.some.inj h
        exact Or.inl ⟨by unfold linkEvent; rw [hpc], rfl⟩
  | readerStopped =>
      simp only [select] at h
      split at h
      · cases h
      · obtain rfl := Option.some.inj h
        exact Or.inl ⟨by unfold linkEvent; rw [hpc], rfl⟩
  | frame data now r rnd sent =>
      obtain rfl := Option.some.inj h
      exact Or.inr ⟨⟨now, .received⟩, by unfold linkEvent; rw [hpc], rfl, receive_monitor ..⟩
  | recvFailed e now later =>
      obtain ⟨u, hu, rfl⟩ := Option.map_eq_some_iff.mp h
      have hkeep := observeSignal_monitor hu
      exact Or.inr ⟨⟨now, .other⟩, by unfold linkEvent; rw [hpc], rfl, hkeep⟩
  | livenessTick now later timestamp r rnd =>
      refine Or.inr ⟨_, by unfold linkEvent; rw [hpc], rfl, ?_⟩
      rcases livenessTick_monitor h with ⟨hdead, hswitching, hkeep⟩ | ⟨halive, hselect, hprobe⟩
      · rw [if_pos hswitching]
        exact ⟨hdead, hkeep⟩
      · have hne : t'.pc ≠ .switching .linkSilent := by
          rw [hselect, hpc]
          rintro ⟨⟩
        rw [LivenessMonitor.shouldProbe_snd] at hprobe
        rw [if_neg hne]
        cases hdue : (t.monitor.shouldProbe now).1 with
        | true =>
            rw [hdue, if_pos rfl] at hprobe
            exact ⟨halive, hdue, hprobe⟩
        | false =>
            rw [hdue, if_neg Bool.false_ne_true] at hprobe
            exact ⟨halive, hdue, hprobe⟩
  | postureTick now later =>
      exact Or.inr ⟨⟨now, .other⟩, by unfold linkEvent; rw [hpc], rfl, observeSignal_monitor h⟩
  | shutdown =>
      obtain rfl := Option.some.inj h
      exact Or.inl ⟨by unfold linkEvent; rw [hpc], rfl⟩
  | attempt a => cases h

/-- The record is what the monitor goes by. -/
theorem step_monitor {t t' : MainLoop} {e : Event} (h : t.step P transports e = some t') :
    (t.linkEvent transports e t' = none ∧ t'.monitor = t.monitor)
      ∨ ∃ l, t.linkEvent transports e t' = some l ∧ l.time ∈ e.time
        ∧ l.Moves t.monitor t'.monitor := by
  unfold step at h
  split at h
  · rename_i hpc
    exact select_monitor hpc h
  · rename_i reason a hpc
    obtain rfl := Option.some.inj h
    refine Or.inr ⟨_, by unfold linkEvent; rw [hpc], rfl, ?_⟩
    have hswitches : t.switches transports (.attempt a)
        = (t.attemptSwitch transports reason a).1.isSome := by
      unfold switches
      rw [hpc]
    have hmonitor := @switchOrGiveUp_monitor transports t reason a
    rw [hswitches, LinkEvent.Moves]
    cases hdone : (t.attemptSwitch transports reason a).1.isSome with
    | true =>
        rw [hdone, if_pos rfl] at hmonitor
        exact hmonitor
    | false =>
        rw [hdone, if_neg Bool.false_ne_true] at hmonitor
        exact hmonitor
  · cases h

end MainLoop

/-! ## The record over a run -/

/-- A silent link has left a probe unanswered, and not just now. -/
def Unanswered (gap : Nat) (log : List LinkEvent) (now : Nat) : Prop :=
  ∃ r p, r.Revives ∧ Latest LinkEvent.Revives log r ∧ r.time + livenessTimeout ≤ now
    ∧ Latest LinkEvent.Revives log ⟨p, .probed⟩ ∧ r.time + probeInterval ≤ p
    ∧ p + (livenessTimeout - probeInterval) ≤ now + gap

def SilenceProbed (gap : Nat) : List LinkEvent → Prop :=
  Justified fun older e => e.kind = .silent → Unanswered gap older e.time

/-- What comes too late after the last sign of life comes after the link has
been declared silent. -/
def SilenceNoticed (gap : Nat) : List LinkEvent → Prop :=
  Justified fun older e => ∀ r, r.Revives → Latest LinkEvent.Revives older r →
    r.time + livenessTimeout + gap ≤ e.time → ∃ s, Latest LinkEvent.Revives older ⟨s, .silent⟩

def ProbesApart : List LinkEvent → Prop :=
  Justified fun older e => e.kind = .probed →
    ∀ d ∈ older, d.Revives ∨ d.kind = .probed → d.time + probeInterval ≤ e.time

namespace LinkEvent

variable {log : List LinkEvent} {e : LinkEvent}

theorem not_revives {time : Nat} {kind : LinkEventKind}
    (h : kind ≠ .connected ∧ kind ≠ .received) : ¬ Revives ⟨time, kind⟩ := not_or.mpr h

theorem latest_of_not_revives {d : LinkEvent} (he : ¬ e.Revives) (h : Latest Revives log d) :
    Latest Revives (log ++ [e]) d :=
  latest_concat.mpr (Or.inr ⟨he, h⟩)

end LinkEvent

namespace Supervised

variable {P : Primitives} {transports : List String}

theorem step_cases {w w' : Supervised} {e : MainLoop.Event} (h : w.step P transports e = some w') :
    (w' = { w with loop := w'.loop } ∧ w'.loop.monitor = w.loop.monitor)
      ∨ ∃ l, w' = w.record w'.loop (some l) ∧ l.time ∈ e.time
        ∧ l.Moves w.loop.monitor w'.loop.monitor := by
  obtain ⟨t, ht, rfl⟩ := Option.map_eq_some_iff.mp h
  rcases MainLoop.step_monitor ht with ⟨hnone, hkeep⟩ | ⟨l, hsome, htime, hmoves⟩
  · rw [hnone]
    exact Or.inl ⟨rfl, hkeep⟩
  · rw [hsome]
    exact Or.inr ⟨l, rfl, htime, hmoves⟩

/-- What the monitor remembers is what the record shows. -/
structure Inv (w : Supervised) : Prop where
  timeout : w.loop.monitor.timeout = livenessTimeout
  interval : w.loop.monitor.probeInterval = probeInterval
  inbound : ∃ r, r.Revives ∧ Latest LinkEvent.Revives w.log r
    ∧ r.time = w.loop.monitor.lastInbound
  revived : ∀ d ∈ w.log, d.Revives → d.time ≤ w.loop.monitor.lastInbound
  probed : ∀ d ∈ w.log, d.kind = .probed → d.time ≤ w.loop.monitor.lastProbe
  inbound_le : w.loop.monitor.lastInbound ≤ w.clock
  probe_le : w.loop.monitor.lastProbe ≤ w.clock
  tick_le : w.lastTick ≤ w.clock

theorem inv_start (session : Session) (transport : String) (now : Nat) :
    (start session transport now).Inv where
  timeout := rfl
  interval := rfl
  inbound := ⟨⟨now, .connected⟩, Or.inl rfl, ⟨[], [], rfl, fun _ h => absurd h List.not_mem_nil⟩,
    rfl⟩
  revived d hd _ := by
    obtain rfl := List.mem_singleton.mp hd
    exact Nat.le_refl now
  probed d hd _ := by
    obtain rfl := List.mem_singleton.mp hd
    exact Nat.le_refl now
  inbound_le := Nat.le_refl now
  probe_le := Nat.le_refl now
  tick_le := Nat.le_refl now

variable {w : Supervised} {t : MainLoop} {l : LinkEvent}

theorem Inv.record (h : w.Inv) (hclock : w.clock ≤ l.time)
    (hmoves : l.Moves w.loop.monitor t.monitor) : (w.record t (some l)).Inv := by
  have hinbound := h.inbound_le
  have hprobe := h.probe_le
  have htick := h.tick_le
  have hle : w.loop.monitor.lastInbound ≤ t.monitor.lastInbound
      ∧ t.monitor.lastInbound ≤ l.time := by
    rw [hmoves.lastInbound]
    split
    · omega
    · omega
  have hprobes : w.loop.monitor.lastProbe ≤ t.monitor.lastProbe
      ∧ t.monitor.lastProbe ≤ l.time := by
    rw [hmoves.lastProbe]
    split
    · omega
    · omega
  refine ⟨hmoves.timing.1.trans h.timeout, hmoves.timing.2.trans h.interval, ?_, ?_, ?_,
    hle.2, hprobes.2, ?_⟩
  · have hlast : t.monitor.lastInbound
        = if l.Revives then l.time else w.loop.monitor.lastInbound := hmoves.lastInbound
    by_cases hrevives : l.Revives
    · rw [if_pos hrevives] at hlast
      exact ⟨l, hrevives, latest_concat.mpr (Or.inl rfl), hlast.symm⟩
    · rw [if_neg hrevives] at hlast
      obtain ⟨r, hr, hlatest, htime⟩ := h.inbound
      exact ⟨r, hr, LinkEvent.latest_of_not_revives hrevives hlatest, htime.trans hlast.symm⟩
  · intro d hd hrevives
    rcases List.mem_append.mp hd with hd | hd
    · exact (h.revived d hd hrevives).trans hle.1
    · obtain rfl := List.mem_singleton.mp hd
      have hlast := hmoves.lastInbound
      rw [if_pos hrevives] at hlast
      exact hlast.ge
  · intro d hd hprobed
    rcases List.mem_append.mp hd with hd | hd
    · exact (h.probed d hd hprobed).trans hprobes.1
    · obtain rfl := List.mem_singleton.mp hd
      have hlast := hmoves.lastProbe
      rw [if_pos (Or.inr hprobed)] at hlast
      exact hlast.ge
  · change (if l.Ticks then l.time else w.lastTick) ≤ l.time
    split
    · exact Nat.le_refl _
    · omega

/-- Every reading of the clock is in the record, or is not used. -/
theorem Inv.step {w w' : Supervised} {e : MainLoop.Event} (h : w.Inv) (hmono : w.Monotone e)
    (hstep : w.step P transports e = some w') : w'.Inv := by
  rcases step_cases hstep with ⟨heq, hkeep⟩ | ⟨l, heq, htime, hmoves⟩
  · rw [heq]
    exact
      { timeout := hkeep ▸ h.timeout
        interval := hkeep ▸ h.interval
        inbound := hkeep ▸ h.inbound
        revived := hkeep ▸ h.revived
        probed := hkeep ▸ h.probed
        inbound_le := hkeep ▸ h.inbound_le
        probe_le := hkeep ▸ h.probe_le
        tick_le := h.tick_le }
  · rw [heq]
    exact h.record (hmono _ htime) hmoves

/-! ## Probes -/

theorem Inv.record_probesApart (h : w.Inv) (hapart : ProbesApart w.log)
    (hmoves : l.Moves w.loop.monitor t.monitor) : ProbesApart (w.record t (some l)).log := by
  refine justified_concat.mpr ⟨hapart, fun hprobed d hd hkind => ?_⟩
  have hdue : (w.loop.monitor.shouldProbe l.time).1 = true := by
    rw [LinkEvent.Moves, hprobed] at hmoves
    exact hmoves.2.1
  obtain ⟨hquiet, hspaced⟩ := (w.loop.monitor.shouldProbe_iff l.time).mp hdue
  rw [h.interval] at hquiet hspaced
  have hpos : 0 < probeInterval := by decide
  rcases hkind with hrevives | hother
  · have := h.revived d hd hrevives
    omega
  · have := h.probed d hd hother
    omega

/-- A probe is sent only over a link that has been quiet, and left alone,
for an interval. -/
theorem probes_apart {session : Session} {transport : String} {now : Nat}
    {es : List MainLoop.Event}
    (hmono : Meets (step P transports) Monotone (start session transport now) es) :
    Always (step P transports) (fun w => ProbesApart w.log) (start session transport now) es := by
  have hstart : ProbesApart (start session transport now).log :=
    justified_concat.mpr ⟨justified_nil _, fun hkind => by cases hkind⟩
  refine (always_of_meets (I := fun w => w.Inv ∧ ProbesApart w.log) ?_
    ⟨inv_start session transport now, hstart⟩ hmono).mono fun _ h => h.2
  rintro w e w' ⟨hinv, hapart⟩ hclock hstep
  refine ⟨hinv.step hclock hstep, ?_⟩
  rcases step_cases hstep with ⟨heq, -⟩ | ⟨l, heq, -, hmoves⟩
  · rw [heq]
    exact hapart
  · rw [heq]
    exact hinv.record_probesApart hapart hmoves

/-- The link falls silent, and the loop goes over to another. -/
def outage : List MainLoop.Event :=
  [.frame [] (100 * 10 ^ 6) 0 noPadding none,
    .livenessTick (250 * 10 ^ 6) (250 * 10 ^ 6) 0 0 noPadding,
    .livenessTick (500 * 10 ^ 6) (500 * 10 ^ 6) 0 0 noPadding,
    .livenessTick (750 * 10 ^ 6) (750 * 10 ^ 6) 0 0 noPadding,
    .livenessTick (10 ^ 9) (10 ^ 9) 0 0 noPadding,
    .attempt ⟨fun _ => .resumed 0, 0, 10 ^ 9⟩,
    .livenessTick (1250 * 10 ^ 6) (1250 * 10 ^ 6) 0 0 noPadding]

def quiet : Supervised := start (.new (zeroArr 16) plainKeys) "quic" 0

theorem probes_apart_outage :
    Always (step .plain ["quic", "tls-tcp"]) (fun w => ProbesApart w.log) quiet outage :=
  probes_apart (by decide +kernel)

example :
    (exec (step .plain ["quic", "tls-tcp"]) quiet outage).map (fun w => w.log.map LinkEvent.kind)
      = some [.connected, .received, .ticked, .probed, .probed, .silent, .connected, .probed] := by
  decide +kernel

/-! ## Silence -/

/-- The timer has not found the link quiet yet, or has had it probed in
time. -/
def ProbedInTime (gap lastTick : Nat) (m : LivenessMonitor) (log : List LinkEvent) : Prop :=
  (lastTick < m.lastInbound + probeInterval ∧ m.lastProbe ≤ m.lastInbound)
    ∨ ∃ p, Latest LinkEvent.Revives log ⟨p, .probed⟩ ∧ m.lastInbound + probeInterval ≤ p
      ∧ p < m.lastInbound + probeInterval + gap

theorem ProbedInTime.move {gap lastTick : Nat} {m m' : LivenessMonitor} {log : List LinkEvent}
    (h : ProbedInTime gap lastTick m log) (hgap : probeInterval + gap ≤ livenessTimeout)
    (htimeout : m.timeout = livenessTimeout) (hinterval : m.probeInterval = probeInterval)
    (hprobe : m.lastProbe ≤ l.time) (hafter : lastTick ≤ l.time)
    (hlast : l.time ≤ lastTick + gap) (hmoves : l.Moves m m') :
    ProbedInTime gap (if l.Ticks then l.time else lastTick) m' (log ++ [l]) := by
  have hpos : 0 < probeInterval := by decide
  obtain ⟨now, kind⟩ := l
  dsimp only at hprobe hafter hlast
  cases kind with
  | connected =>
      obtain rfl : m' = m.reset now := hmoves
      exact Or.inl ⟨Nat.lt_of_le_of_lt hafter (Nat.lt_add_of_pos_right hpos), Nat.le_refl now⟩
  | received =>
      obtain rfl : m' = m.recordInbound now := hmoves
      exact Or.inl ⟨Nat.lt_of_le_of_lt hafter (Nat.lt_add_of_pos_right hpos), hprobe⟩
  | ticked =>
      obtain ⟨-, hdue, rfl⟩ := hmoves
      have hrevives : ¬ LinkEvent.Revives ⟨now, .ticked⟩ := LinkEvent.not_revives (by decide)
      have hnot := mt (m'.shouldProbe_iff now).mpr (Bool.eq_false_iff.mp hdue)
      rw [hinterval] at hnot
      rcases h with ⟨hearly, hold⟩ | ⟨p, hlatest, hp⟩
      · refine Or.inl ⟨?_, hold⟩
        by_contra hquiet
        change ¬ now < m'.lastInbound + probeInterval at hquiet
        exact hnot ⟨by omega, by omega⟩
      · exact Or.inr ⟨p, LinkEvent.latest_of_not_revives hrevives hlatest, hp⟩
  | probed =>
      obtain ⟨-, hdue, rfl⟩ := hmoves
      have hrevives : ¬ LinkEvent.Revives ⟨now, .probed⟩ := LinkEvent.not_revives (by decide)
      have hquiet := ((m.shouldProbe_iff now).mp hdue).1
      rw [hinterval] at hquiet
      rcases h with ⟨hearly, hold⟩ | ⟨p, hlatest, hp⟩
      · refine Or.inr ⟨now, latest_concat.mpr (Or.inl rfl), ?_, ?_⟩
        · change m.lastInbound + probeInterval ≤ now
          omega
        · change now < m.lastInbound + probeInterval + gap
          omega
      · exact Or.inr ⟨p, LinkEvent.latest_of_not_revives hrevives hlatest, hp⟩
  | silent =>
      obtain ⟨hdead, rfl⟩ := hmoves
      have hrevives : ¬ LinkEvent.Revives ⟨now, .silent⟩ := LinkEvent.not_revives (by decide)
      have hsilent := (m'.isDead_iff now).mp hdead
      rw [htimeout] at hsilent
      rcases h with ⟨hearly, hold⟩ | ⟨p, hlatest, hp⟩
      · -- there would have been a turn of the timer before
        omega
      · exact Or.inr ⟨p, LinkEvent.latest_of_not_revives hrevives hlatest, hp⟩
  | other =>
      obtain rfl : m' = m := hmoves
      have hrevives : ¬ LinkEvent.Revives ⟨now, .other⟩ := LinkEvent.not_revives (by decide)
      rcases h with hearly | ⟨p, hlatest, hp⟩
      · exact Or.inl hearly
      · exact Or.inr ⟨p, LinkEvent.latest_of_not_revives hrevives hlatest, hp⟩

theorem Inv.silenceProbed {gap : Nat} (h : w.Inv)
    (hgap : probeInterval + gap ≤ livenessTimeout)
    (hprobed : ProbedInTime gap w.lastTick w.loop.monitor w.log)
    (hlast : l.time ≤ w.lastTick + gap) (hmoves : l.Moves w.loop.monitor t.monitor)
    (hlog : SilenceProbed gap w.log) : SilenceProbed gap (w.log ++ [l]) := by
  refine justified_concat.mpr ⟨hlog, fun hsilent => ?_⟩
  have hdead : w.loop.monitor.isDead l.time = true := by
    rw [LinkEvent.Moves, hsilent] at hmoves
    exact hmoves.1
  have hquiet := (w.loop.monitor.isDead_iff l.time).mp hdead
  rw [h.timeout] at hquiet
  have hpos : 0 < livenessTimeout := by decide
  obtain ⟨r, hr, hrlatest, hrtime⟩ := h.inbound
  rcases hprobed with ⟨hearly, -⟩ | ⟨p, hplatest, hle, hlt⟩
  · omega
  · exact ⟨r, p, hr, hrlatest, by omega, hplatest, by omega, by omega⟩

/-- A link is declared silent only when nothing has come over it for the
timeout, in spite of a probe. -/
theorem silence_probed {session : Session} {transport : String} {now gap : Nat}
    {es : List MainLoop.Event} (hgap : probeInterval + gap ≤ livenessTimeout)
    (hpunctual : Meets (step P transports) (Punctual gap) (start session transport now) es) :
    Always (step P transports) (fun w => SilenceProbed gap w.log)
      (start session transport now) es := by
  have hstart : SilenceProbed gap (start session transport now).log :=
    justified_concat.mpr ⟨justified_nil _, fun hkind => by cases hkind⟩
  have hpos : 0 < probeInterval := by decide
  refine (always_of_meets (I := fun w => (w.Inv
      ∧ ProbedInTime gap w.lastTick w.loop.monitor w.log) ∧ SilenceProbed gap w.log) ?_
    ⟨⟨inv_start session transport now, Or.inl ⟨Nat.lt_add_of_pos_right hpos, Nat.le_refl now⟩⟩,
      hstart⟩ hpunctual).mono fun _ h => h.2
  rintro w e w' ⟨⟨hinv, hprobed⟩, hlog⟩ hclock hstep
  refine ⟨⟨hinv.step (fun n hn => (hclock n hn).1) hstep, ?_⟩, ?_⟩
  · rcases step_cases hstep with ⟨heq, hkeep⟩ | ⟨l, heq, htime, hmoves⟩
    · rw [heq]
      exact hkeep ▸ hprobed
    · obtain ⟨hle, hlast⟩ := hclock _ htime
      rw [heq]
      exact hprobed.move hgap hinv.timeout hinv.interval (hinv.probe_le.trans hle)
        (hinv.tick_le.trans hle) hlast hmoves
  · rcases step_cases hstep with ⟨heq, hkeep⟩ | ⟨l, heq, htime, hmoves⟩
    · rw [heq]
      exact hlog
    · rw [heq]
      exact hinv.silenceProbed hgap hprobed (hclock _ htime).2 hmoves hlog

theorem silence_probed_outage :
    Always (step .plain ["quic", "tls-tcp"]) (fun w => SilenceProbed probeInterval w.log) quiet
      outage :=
  silence_probed (by decide) (by decide +kernel)

/-- The last turn of the timer came within the timeout, or declared the link
silent. -/
def NoticedInTime (lastTick : Nat) (m : LivenessMonitor) (log : List LinkEvent) : Prop :=
  lastTick < m.lastInbound + livenessTimeout
    ∨ ∃ s, Latest LinkEvent.Revives log ⟨s, .silent⟩

theorem NoticedInTime.move {lastTick : Nat} {m m' : LivenessMonitor} {log : List LinkEvent}
    (h : NoticedInTime lastTick m log) (htimeout : m.timeout = livenessTimeout)
    (hafter : lastTick ≤ l.time) (hmoves : l.Moves m m') :
    NoticedInTime (if l.Ticks then l.time else lastTick) m' (log ++ [l]) := by
  have hpos : 0 < livenessTimeout := by decide
  have hlast := hmoves.lastInbound
  by_cases hrevives : l.Revives
  · rw [if_pos hrevives] at hlast
    refine Or.inl ?_
    rw [hlast]
    split
    · exact Nat.lt_add_of_pos_right hpos
    · exact Nat.lt_of_le_of_lt hafter (Nat.lt_add_of_pos_right hpos)
  · rw [if_neg hrevives] at hlast
    rcases h with hearly | ⟨s, hs⟩
    · obtain ⟨now, kind⟩ := l
      cases kind with
      | connected => exact absurd (Or.inl rfl) hrevives
      | received => exact absurd (Or.inr rfl) hrevives
      | ticked | probed =>
          have halive := mt (m.isDead_iff now).mpr (Bool.eq_false_iff.mp hmoves.1)
          rw [htimeout] at halive
          refine Or.inl ?_
          rw [hlast]
          change now < m.lastInbound + livenessTimeout
          omega
      | silent => exact Or.inr ⟨now, latest_concat.mpr (Or.inl rfl)⟩
      | other => exact Or.inl (hlast ▸ hearly)
    · exact Or.inr ⟨s, LinkEvent.latest_of_not_revives hrevives hs⟩

theorem Inv.silenceNoticed {gap : Nat} (h : w.Inv)
    (hnoticed : NoticedInTime w.lastTick w.loop.monitor w.log)
    (hlast : l.time ≤ w.lastTick + gap) (hlog : SilenceNoticed gap w.log) :
    SilenceNoticed gap (w.log ++ [l]) := by
  refine justified_concat.mpr ⟨hlog, fun r hr hlatest hlate => ?_⟩
  obtain ⟨r', hr', hlatest', htime⟩ := h.inbound
  obtain rfl := hlatest.unique hlatest' hr hr'
  rcases hnoticed with hearly | hsilent
  · omega
  · exact hsilent

/-- Nothing is seen of a link that has been silent for the timeout and one
more turn of the timer, but that the link has been declared silent. -/
theorem silence_noticed {session : Session} {transport : String} {now gap : Nat}
    {es : List MainLoop.Event}
    (hpunctual : Meets (step P transports) (Punctual gap) (start session transport now) es) :
    Always (step P transports) (fun w => SilenceNoticed gap w.log)
      (start session transport now) es := by
  have hstart : SilenceNoticed gap (start session transport now).log :=
    justified_concat.mpr ⟨justified_nil _, fun r _ hlatest => absurd hlatest not_latest_nil⟩
  have hpos : 0 < livenessTimeout := by decide
  refine (always_of_meets (I := fun w => (w.Inv
      ∧ NoticedInTime w.lastTick w.loop.monitor w.log) ∧ SilenceNoticed gap w.log) ?_
    ⟨⟨inv_start session transport now, Or.inl (Nat.lt_add_of_pos_right hpos)⟩, hstart⟩
    hpunctual).mono fun _ h => h.2
  rintro w e w' ⟨⟨hinv, hnoticed⟩, hlog⟩ hclock hstep
  have hinv' := hinv.step (fun n hn => (hclock n hn).1) hstep
  rcases step_cases hstep with ⟨heq, hkeep⟩ | ⟨l, heq, htime, hmoves⟩
  · rw [heq] at hinv' ⊢
    exact ⟨⟨hinv', hkeep ▸ hnoticed⟩, hlog⟩
  · obtain ⟨hle, hlast⟩ := hclock _ htime
    rw [heq] at hinv' ⊢
    exact ⟨⟨hinv', hnoticed.move hinv.timeout (hinv.tick_le.trans hle) hmoves⟩,
      hinv.silenceNoticed hnoticed hlast hlog⟩

theorem silence_noticed_outage :
    Always (step .plain ["quic", "tls-tcp"]) (fun w => SilenceNoticed probeInterval w.log) quiet
      outage :=
  silence_noticed (by decide +kernel)

end Supervised

end Kanrin
