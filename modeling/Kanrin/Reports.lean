import Kanrin.Probes

/-!
# What the user interface is told

The events that `run_pipeline` sends while its main loop runs: that the
transport was switched, and that the posture changed. (The statistics that are
sent every few seconds are not of this kind.)

Whoever reads them all knows where the tunnel stands: they follow on each
other, from what was said when the connection was set up to the transport and
the posture the loop is at, none is about nothing, and the reason each gives
is that for which it was sent (`reports_truthful`). `Reported` keeps the turns
of the loop beside their reports for that.
-/

namespace Kanrin

open Lib

/-! ## The events -/

def SwitchReason.describe : SwitchReason → String
  | .linkSilent => "link went silent"
  | .transportError e => "transport error: " ++ e
  | .betterPathAvailable path => "better path available: " ++ path

def Posture.asStr : Posture → String
  | .performance => "performance"
  | .balanced => "balanced"
  | .evasion => "evasion"

/-- The format `{:?}`. -/
def Signal.debug : Signal → String
  | .handshakeFailed => "HandshakeFailed"
  | .suspiciousReset => "SuspiciousReset"
  | .suddenPathLoss => "SuddenPathLoss"
  | .censorshipDetected => "CensorshipDetected"
  | .cleanPeriod => "CleanPeriod"

/-- The `KanrinEvent`s of the main loop. -/
inductive Report where
  | transportSwitched (before after reason : String)
  | postureChanged (before after reason : String)
deriving DecidableEq

namespace Report

def transportMove : Report → Option (String × String)
  | .transportSwitched before after _ => some (before, after)
  | .postureChanged .. => none

def postureMove : Report → Option (String × String)
  | .postureChanged before after _ => some (before, after)
  | .transportSwitched .. => none

end Report

/-- The moves lead from `a` to `b`, and each of them somewhere else. -/
def Linked (a : String) : List (String × String) → String → Prop
  | [], b => a = b
  | move :: moves, b => a = move.1 ∧ move.1 ≠ move.2 ∧ Linked move.2 moves b

theorem Linked.append {a b c : String} {moves moves' : List (String × String)}
    (h : Linked a moves b) (h' : Linked b moves' c) : Linked a (moves ++ moves') c := by
  induction moves generalizing a with
  | nil =>
      obtain rfl : a = b := h
      exact h'
  | cons move moves ih =>
      obtain ⟨hfrom, hne, hrest⟩ := h
      exact ⟨hfrom, hne, ih hrest⟩

namespace MainLoop

variable (P : Primitives) (transports : List String)

/-- `observe_signal!`. -/
def observed (t : MainLoop) (signal : Signal) (now later : Nat) : List Report :=
  match t.posture.observe signal now later with
  | some (some after, _) =>
      [.postureChanged t.posture.current.asStr after.asStr signal.debug]
  | _ => []

/-- What is sent in the turn that takes `e`. -/
def reports (t : MainLoop) (e : Event) : List Report :=
  match t.pc, e with
  | .select, .recvFailed _ now later => t.observed .suspiciousReset now later
  | .select, .livenessTick now later _ _ _ =>
      if t.monitor.isDead now then t.observed .suddenPathLoss now later else []
  | .select, .postureTick now later => t.observed .cleanPeriod now later
  | .switching reason, .attempt a =>
      match t.attemptSwitch transports reason a with
      | (some _, t') =>
          [.transportSwitched t.activeTransport t'.activeTransport reason.describe]
      | (none, _) => []
  | _, _ => []

end MainLoop

/-- A turn of the loop, and what it has sent. -/
structure LoopTurn where
  event : MainLoop.Event
  reports : List Report

namespace LoopTurn

/-- When the link was heard in the turn, or set up. -/
def hears (turn : LoopTurn) : Option Nat :=
  match turn.event with
  | .frame _ now _ _ _ => some now
  | .attempt a => if turn.reports = [] then none else some a.now
  | _ => none

end LoopTurn

/-- When the link in use was last heard, or set up. -/
def heard (start : Nat) (log : List LoopTurn) : Nat :=
  log.foldl (fun last turn => turn.hears.getD last) start

/-- The event is a reason to switch, with the link last heard at `last`. -/
def Forces (last : Nat) (why : SwitchReason) : MainLoop.Event → Prop
  | .packet _ _ _ (some e) | .frame _ _ _ _ (some e) | .recvFailed e _ _ =>
      why = .transportError e
  | .livenessTick now _ _ _ _ => last + livenessTimeout ≤ now ∧ why = .linkSilent
  | _ => False

/-- The event is a signal for the posture, with the link last heard at `last`. -/
def Signals (last : Nat) (signal : Signal) : MainLoop.Event → Prop
  | .recvFailed .. => signal = .suspiciousReset
  | .livenessTick now _ _ _ _ => last + livenessTimeout ≤ now ∧ signal = .suddenPathLoss
  | .postureTick .. => signal = .cleanPeriod
  | _ => False

/-- Where a signal may take the posture. -/
def Signal.Moves (signal : Signal) (before after : Posture) : Prop :=
  if signal.isAdverse then after = .evasion else before.rank = after.rank + 1

/-- A report, sent in the turn of `e` with the turns in `older` before it, has
the reason it gives. -/
def Explained (transports : List String) (start : Nat) (older : List LoopTurn)
    (e : MainLoop.Event) : Report → Prop
  | .transportSwitched _ after reason =>
      after ∈ transports ∧ (∃ a, e = .attempt a) ∧ ∃ before cause why,
        older = before ++ [cause] ∧ Forces (heard start before) why cause.event
          ∧ reason = why.describe
  | .postureChanged before after reason =>
      ∃ signal p q, Signals (heard start older) signal e ∧ signal.Moves p q
        ∧ before = p.asStr ∧ after = q.asStr ∧ reason = signal.debug

structure Reported where
  loop : MainLoop
  log : List LoopTurn

namespace Reported

variable (P : Primitives) (transports : List String)

def start (session : Session) (transport : String) (now : Nat) : Reported where
  loop := .start session transport now
  log := []

def step (w : Reported) (e : MainLoop.Event) : Option Reported :=
  (w.loop.step P transports e).map fun t => ⟨t, w.log ++ [⟨e, w.loop.reports transports e⟩]⟩

def reports (w : Reported) : List Report := w.log.flatMap LoopTurn.reports

end Reported

/-! ## A change of posture -/

namespace PostureController

theorem set_spec (c : PostureController) (target : Posture) (later : Nat) :
    (c.set target later).1
      = if max target c.floor = c.current then none else some (max target c.floor) := by
  rw [set]
  split
  · rfl
  · rfl

/-- A change is said to be what it is, and there is a reason for it. -/
theorem observe_change {c c' : PostureController} {signal : Signal} {now later : Nat}
    {change : Option Posture} (h : c.observe signal now later = some (change, c')) :
    (change = none ∧ c'.current = c.current)
      ∨ (change = some c'.current ∧ c'.current ≠ c.current
        ∧ if signal.isAdverse then c'.current = .evasion
          else c.current.rank = c'.current.rank + 1) := by
  have hset : ∀ (d : PostureController) (target : Posture),
      d.set target later = (change, c') → d.current = c.current →
        (change = none ∧ c'.current = c.current)
          ∨ (change = some c'.current ∧ c'.current ≠ c.current
            ∧ c'.current = max target d.floor) := by
    intro d target hd hcurrent
    have hchange := d.set_spec target later
    have hafter := d.set_current target later
    rw [hd] at hchange hafter
    rw [hcurrent, ← hafter] at hchange
    split at hchange
    · rename_i hsame
      exact Or.inl ⟨hchange, hsame⟩
    · rename_i hne
      exact Or.inr ⟨hchange, hne, hafter⟩
  -- a step down that the floor allows is a step down
  have hrelax : ∀ (d : PostureController) (target : Posture),
      d.set target later = (change, c') → d.current = c.current → c.current.rank = target.rank + 1 →
      (change = none ∧ c'.current = c.current)
        ∨ (change = some c'.current ∧ c'.current ≠ c.current
          ∧ c.current.rank = c'.current.rank + 1) := by
    intro d target hd hcurrent hrank
    rcases hset d target hd hcurrent with hnone | ⟨hsome, hne, hafter⟩
    · exact Or.inl hnone
    · refine Or.inr ⟨hsome, hne, ?_⟩
      rcases max_choice target d.floor with htarget | hfloor
      · rw [hafter, htarget, hrank]
      · have habove : target.rank ≤ c'.current.rank := hafter ▸ le_max_left target d.floor
        have hbelow : c'.current.rank ≤ c.current.rank := by
          rw [hafter, hfloor, ← hcurrent]
          exact d.above
        have hother : c'.current.rank ≠ c.current.rank := fun heq =>
          hne (Posture.rank_injective heq)
        omega
  rw [observe] at h
  cases hadverse : signal.isAdverse with
  | true =>
      rw [hadverse, if_pos rfl] at h
      obtain ⟨total, -, h⟩ := Option.bind_eq_some_iff.mp h
      rw [Option.pure_def] at h
      rcases hset _ .evasion (Option.some.inj h) rfl with hnone | ⟨hsome, hne, hafter⟩
      · exact Or.inl hnone
      · exact Or.inr ⟨hsome, hne, hafter.trans (max_eq_left (Posture.le_evasion _))⟩
  | false =>
      rw [hadverse, if_neg Bool.false_ne_true] at h
      obtain ⟨streak, -, h⟩ := Option.bind_eq_some_iff.mp h
      simp only [Option.pure_def] at h
      split at h
      · obtain ⟨rfl, rfl⟩ := Prod.mk.inj (Option.some.inj h)
        exact Or.inl ⟨rfl, rfl⟩
      split at h
      · obtain ⟨rfl, rfl⟩ := Prod.mk.inj (Option.some.inj h)
        exact Or.inl ⟨rfl, rfl⟩
      split at h
      · rename_i hcurrent
        exact hrelax _ .balanced (Option.some.inj h) rfl (congrArg Posture.rank hcurrent)
      · rename_i hcurrent
        exact hrelax _ .performance (Option.some.inj h) rfl (congrArg Posture.rank hcurrent)
      · obtain ⟨rfl, rfl⟩ := Prod.mk.inj (Option.some.inj h)
        exact Or.inl ⟨rfl, rfl⟩

end PostureController

/-! ## What a turn has to report -/

namespace MainLoop

variable {P : Primitives} {transports : List String}

/-- There is nothing to report. -/
structure Unreported (t t' : MainLoop) : Prop where
  posture : t'.posture.current = t.posture.current
  transport : t'.activeTransport = t.activeTransport

/-- If the loop is about to switch, it is for the error of its own send. -/
def Failed (r : SendResult) (t : MainLoop) : Prop :=
  ∀ why, t.pc = .switching why → ∃ e, r = some e ∧ why = .transportError e

theorem Failed.of_select {t : MainLoop} (h : t.pc = .select) (r : SendResult) : t.Failed r := by
  intro why hwhy
  rw [h] at hwhy
  cases hwhy

/-- Nothing to report so far, and still in `select!`. -/
structure Quiet (t u : MainLoop) : Prop where
  posture : u.posture.current = t.posture.current
  transport : u.activeTransport = t.activeTransport
  pc : u.pc = .select

theorem Quiet.unreported {t u : MainLoop} (hu : Quiet t u) (r : SendResult) :
    Unreported t u ∧ u.Failed r :=
  ⟨⟨hu.posture, hu.transport⟩, .of_select hu.pc r⟩

theorem Quiet.sent {t u : MainLoop} (hu : Quiet t u) (r : SendResult) :
    Unreported t (u.sent r) ∧ (u.sent r).Failed r := by
  cases r with
  | none => exact hu.unreported none
  | some e =>
      refine ⟨⟨hu.posture, hu.transport⟩, fun why hwhy => ⟨e, rfl, ?_⟩⟩
      exact (LoopPc.switching.inj hwhy).symm

theorem leave_unreported (t : MainLoop) (r : SendResult) :
    Unreported t t.leave ∧ t.leave.Failed r :=
  ⟨⟨rfl, rfl⟩, fun _ h => by cases h⟩

theorem sendPacket_unreported {t : MainLoop} (h : t.pc = .select) (raw : Bytes) (r : UInt8)
    (rnd : Rand) (sent : SendResult) :
    Unreported t (t.sendPacket P raw r rnd sent) ∧ (t.sendPacket P raw r rnd sent).Failed sent := by
  rw [sendPacket]
  split
  · split
    · refine Quiet.sent ?_ sent
      exact ⟨rfl, rfl, h⟩
    · refine Quiet.sent ?_ sent
      exact ⟨rfl, rfl, h⟩
  · exact leave_unreported t sent

theorem Quiet.acknowledge {t u : MainLoop} (hu : Quiet t u) (now : Nat) (r : UInt8) (rnd : Rand)
    (sent : SendResult) :
    Unreported t (u.acknowledge P now r rnd sent)
      ∧ (u.acknowledge P now r rnd sent).Failed sent := by
  obtain ⟨hp, ht, hpc⟩ := hu
  rw [MainLoop.acknowledge]
  split
  · dsimp only
    split
    · refine Quiet.sent ?_ sent
      exact ⟨hp, ht, hpc⟩
    · refine Quiet.unreported ?_ sent
      exact ⟨hp, ht, hpc⟩
  · refine Quiet.unreported ?_ sent
    exact ⟨hp, ht, hpc⟩

theorem receive_unreported {t : MainLoop} (h : t.pc = .select) (data : Bytes) (now : Nat)
    (r : UInt8) (rnd : Rand) (sent : SendResult) :
    Unreported t (t.receive P data now r rnd sent)
      ∧ (t.receive P data now r rnd sent).Failed sent := by
  rw [receive]
  dsimp only
  split
  · refine Quiet.unreported ?_ sent
    exact ⟨rfl, rfl, h⟩
  split
  · split
    · refine Quiet.unreported ?_ sent
      exact ⟨rfl, rfl, h⟩
    · refine Quiet.unreported ?_ sent
      exact ⟨rfl, rfl, h⟩
  · split
    · refine Quiet.acknowledge ?_ now r rnd sent
      exact ⟨rfl, rfl, h⟩
    · refine Quiet.acknowledge ?_ now r rnd sent
      exact ⟨rfl, rfl, h⟩
    · refine Quiet.unreported ?_ sent
      exact ⟨rfl, rfl, h⟩
  · refine Quiet.unreported ?_ sent
    exact ⟨rfl, rfl, h⟩

/-- What the turn of `e` sends tells how the posture and the transport went
from those of `t` to those of `t'`, and why. -/
structure Told (transports : List String) (t : MainLoop) (e : Event) (rs : List Report)
    (t' : MainLoop) : Prop where
  posture : Linked t.posture.current.asStr (rs.filterMap Report.postureMove)
    t'.posture.current.asStr
  transport : Linked t.activeTransport (rs.filterMap Report.transportMove) t'.activeTransport
  change : ∀ before after reason, .postureChanged before after reason ∈ rs →
    ∃ signal p q, Signals t.monitor.lastInbound signal e ∧ signal.Moves p q
      ∧ before = p.asStr ∧ after = q.asStr ∧ reason = signal.debug
  switch : ∀ before after reason, .transportSwitched before after reason ∈ rs →
    after ∈ transports ∧ (∃ a, e = .attempt a) ∧ ∃ why, t.pc = .switching why
      ∧ reason = why.describe
  cause : ∀ why, t'.pc = .switching why → Forces t.monitor.lastInbound why e

theorem Unreported.told {t t' : MainLoop} {e : Event} (h : Unreported t t')
    (hcause : ∀ why, t'.pc = .switching why → Forces t.monitor.lastInbound why e) :
    Told transports t e [] t' where
  posture := congrArg Posture.asStr h.posture.symm
  transport := h.transport.symm
  change _ _ _ hr := absurd hr List.not_mem_nil
  switch _ _ _ hr := absurd hr List.not_mem_nil
  cause := hcause

theorem asStr_injective : Function.Injective Posture.asStr := by
  intro a b h
  cases a <;> cases b <;> first | rfl | exact absurd h (by decide)

/-- `observe_signal!`, and what the turn does next. -/
theorem observeSignal_told {t u t' : MainLoop} {e : Event} {signal : Signal} {now later : Nat}
    (hsignal : Signals t.monitor.lastInbound signal e)
    (h : t.observeSignal signal now later = some u) (hposture : t'.posture = u.posture)
    (htransport : t'.activeTransport = u.activeTransport)
    (hcause : ∀ why, t'.pc = .switching why → Forces t.monitor.lastInbound why e) :
    Told transports t e (t.observed signal now later) t' := by
  obtain ⟨⟨change, c⟩, hobserve, rfl⟩ := Option.map_eq_some_iff.mp h
  have hcurrent : t'.posture.current = c.current := congrArg PostureController.current hposture
  rw [observed, hobserve]
  rcases PostureController.observe_change hobserve with ⟨rfl, hsame⟩ | ⟨rfl, hne, hwhy⟩
  · exact Unreported.told ⟨hcurrent.trans hsame, htransport⟩ hcause
  · refine ⟨⟨rfl, fun heq => hne (asStr_injective heq).symm, ?_⟩, htransport.symm, ?_, ?_, hcause⟩
    · exact congrArg Posture.asStr hcurrent.symm
    · intro before after reason hr
      obtain ⟨rfl, rfl, rfl⟩ := Report.postureChanged.inj (List.mem_singleton.mp hr)
      exact ⟨signal, t.posture.current, c.current, hsignal, hwhy, rfl, rfl, rfl⟩
    · intro before after reason hr
      cases List.mem_singleton.mp hr

theorem prepareStandby_transport {exclude : String} {tries : List (String × Bringup)} {h : Handles}
    {standby : Standby} (hs : (prepareStandby exclude tries h).1 = some standby) :
    standby.transport ≠ exclude ∧ standby.transport ∈ tries.map Prod.fst := by
  induction tries generalizing h with
  | nil => cases hs
  | cons try' rest ih =>
      obtain ⟨name, bringup⟩ := try'
      simp only [prepareStandby] at hs
      split at hs
      · exact (ih hs).imp_right (List.mem_cons_of_mem _)
      · rename_i hother
        cases bringup with
        | unreachable => exact (ih hs).imp_right (List.mem_cons_of_mem _)
        | refused => exact (ih hs).imp_right (List.mem_cons_of_mem _)
        | resumed next =>
            obtain rfl := Option.some.inj hs
            exact ⟨hother, List.mem_cons_self⟩

/-- An attempt goes over to another registered transport, or to none. -/
theorem attemptSwitch_transport {t t' : MainLoop} {reason : SwitchReason} {a : SwitchAttempt}
    {previous : Option Nat} (h : t.attemptSwitch transports reason a = (previous, t')) :
    t'.posture = t.posture
      ∧ if previous.isSome then
          t'.activeTransport ≠ t.activeTransport ∧ t'.activeTransport ∈ transports
        else t'.activeTransport = t.activeTransport := by
  rw [attemptSwitch] at h
  split at h
  · have hnames : (transports.mapIdx fun i name => (name, a.bringup i)).map Prod.fst
        = transports := by
      refine List.ext_getElem? fun i => ?_
      rw [List.getElem?_map, List.getElem?_mapIdx]
      cases transports[i]? with
      | none => rfl
      | some name => rfl
    have hstandby : ∀ standby, (prepareStandby t.activeTransport
        (transports.mapIdx fun i name => (name, a.bringup i)) t.handles).1 = some standby →
        standby.transport ≠ t.activeTransport ∧ standby.transport ∈ transports := by
      intro standby hs
      have hmoved := prepareStandby_transport hs
      rwa [hnames] at hmoved
    generalize prepareStandby t.activeTransport
      (transports.mapIdx fun i name => (name, a.bringup i)) t.handles = prepared at h hstandby
    obtain ⟨standby, handles⟩ := prepared
    cases standby with
    | none =>
        obtain ⟨rfl, rfl⟩ := Prod.mk.inj h
        exact ⟨rfl, rfl⟩
    | some standby =>
        dsimp only at h
        split at h
        · obtain ⟨rfl, rfl⟩ := Prod.mk.inj h
          exact ⟨rfl, rfl⟩
        · obtain ⟨rfl, rfl⟩ := Prod.mk.inj h
          exact ⟨rfl, hstandby standby rfl⟩
  · obtain ⟨rfl, rfl⟩ := Prod.mk.inj h
    exact ⟨rfl, rfl⟩

/-- What is reported of an attempt. -/
theorem switchOrGiveUp_told {t : MainLoop} {why : SwitchReason} (hpc : t.pc = .switching why)
    (a : SwitchAttempt) :
    Told transports t (.attempt a) (t.reports transports (.attempt a))
      (t.switchOrGiveUp transports why a) := by
  unfold reports
  rw [hpc, switchOrGiveUp]
  dsimp only
  cases hattempt : t.attemptSwitch transports why a with
  | mk previous u =>
      obtain ⟨hposture, hmoved⟩ := attemptSwitch_transport hattempt
      have hsame : u.posture.current = t.posture.current := by rw [hposture]
      cases previous with
      | some old =>
          obtain ⟨hne, hmem⟩ := hmoved
          refine ⟨congrArg Posture.asStr hsame.symm, ⟨rfl, hne.symm, rfl⟩, ?_, ?_,
            fun _ hr => by cases hr⟩
          · intro before after reason hr
            cases List.mem_singleton.mp hr
          · intro before after reason hr
            obtain ⟨rfl, rfl, rfl⟩ := Report.transportSwitched.inj (List.mem_singleton.mp hr)
            exact ⟨hmem, ⟨a, rfl⟩, why, hpc, rfl⟩
      | none =>
          dsimp only
          split
          · exact Unreported.told ⟨hsame, hmoved⟩ fun _ hr => by cases hr
          · exact Unreported.told ⟨hsame, hmoved⟩ fun _ hr => by cases hr

/-- What is reported of a turn of `select!`. -/
theorem select_told {t t' : MainLoop} {e : Event} (hpc : t.pc = .select)
    (htimeout : t.monitor.timeout = livenessTimeout) (hstep : t.select P e = some t') :
    Told transports t e (t.reports transports e) t' := by
  have hstays : ∀ why, t.pc = .switching why → Forces t.monitor.lastInbound why e := by
    intro why hwhy
    rw [hpc] at hwhy
    cases hwhy
  unfold reports
  rw [hpc]
  cases e with
  | packet raw r rnd sent =>
      rw [select] at hstep
      split at hstep
      · cases hstep
      · obtain rfl := Option.some.inj hstep
        obtain ⟨hun, hfailed⟩ := @sendPacket_unreported P t hpc raw r rnd sent
        refine hun.told fun why hwhy => ?_
        obtain ⟨e, rfl, rfl⟩ := hfailed why hwhy
        rfl
  | intercepted =>
      rw [select] at hstep
      split at hstep
      · cases hstep
      · obtain rfl := Option.some.inj hstep
        exact Unreported.told ⟨rfl, rfl⟩ hstays
  | readerStopped =>
      rw [select] at hstep
      split at hstep
      · cases hstep
      · obtain rfl := Option.some.inj hstep
        exact Unreported.told ⟨rfl, rfl⟩ fun _ h => by cases h
  | frame data now r rnd sent =>
      obtain rfl := Option.some.inj hstep
      obtain ⟨hun, hfailed⟩ := @receive_unreported P t hpc data now r rnd sent
      refine hun.told fun why hwhy => ?_
      obtain ⟨e, rfl, rfl⟩ := hfailed why hwhy
      rfl
  | recvFailed e now later =>
      obtain ⟨u, hu, rfl⟩ := Option.map_eq_some_iff.mp hstep
      refine observeSignal_told rfl hu rfl rfl fun why hwhy => ?_
      exact (LoopPc.switching.inj hwhy).symm
  | livenessTick now later timestamp r rnd =>
      rw [select, livenessTick] at hstep
      dsimp only
      split at hstep
      · rename_i hdead
        have hsilent : t.monitor.lastInbound + livenessTimeout ≤ now := by
          rw [LivenessMonitor.isDead_iff, htimeout] at hdead
          have hpos : 0 < livenessTimeout := by decide
          omega
        obtain ⟨u, hu, rfl⟩ := Option.map_eq_some_iff.mp hstep
        rw [if_pos hdead]
        refine observeSignal_told ⟨hsilent, rfl⟩ hu rfl rfl fun why hwhy => ⟨hsilent, ?_⟩
        exact (LoopPc.switching.inj hwhy).symm
      · rename_i halive
        rw [if_neg halive]
        dsimp only at hstep
        split at hstep
        · split at hstep
          · obtain rfl := Option.some.inj hstep
            exact Unreported.told ⟨rfl, rfl⟩ hstays
          · obtain rfl := Option.some.inj hstep
            exact Unreported.told ⟨rfl, rfl⟩ hstays
        · obtain rfl := Option.some.inj hstep
          exact Unreported.told ⟨rfl, rfl⟩ hstays
  | postureTick now later =>
      have hkeep : t'.pc = t.pc := by
        obtain ⟨c, -, rfl⟩ := Option.map_eq_some_iff.mp hstep
        rfl
      exact observeSignal_told rfl hstep rfl rfl fun why hwhy => hstays why (hkeep ▸ hwhy)
  | shutdown =>
      obtain rfl := Option.some.inj hstep
      exact Unreported.told ⟨rfl, rfl⟩ fun _ h => by cases h
  | attempt a => cases hstep

/-- Every turn is reported as it was. -/
theorem step_told {t t' : MainLoop} {e : Event} (htimeout : t.monitor.timeout = livenessTimeout)
    (hstep : t.step P transports e = some t') :
    Told transports t e (t.reports transports e) t' := by
  unfold step at hstep
  cases hpc : t.pc with
  | select =>
      rw [hpc] at hstep
      exact select_told hpc htimeout hstep
  | switching why =>
      rw [hpc] at hstep
      cases e with
      | attempt a =>
          obtain rfl := Option.some.inj hstep
          exact switchOrGiveUp_told hpc a
      | _ => cases hstep
  | ended =>
      rw [hpc] at hstep
      cases hstep

/-- The link is heard where the monitor hears it. -/
theorem hears_eq {t t' : MainLoop} {e : Event} (hstep : t.step P transports e = some t') :
    LoopTurn.hears ⟨e, t.reports transports e⟩
      = (t.linkEvent transports e t').bind fun l => if l.Revives then some l.time else none := by
  unfold step at hstep
  cases hpc : t.pc with
  | select =>
      rw [hpc] at hstep
      simp only [linkEvent, hpc]
      cases e with
      | attempt a => cases hstep
      | livenessTick now later timestamp r rnd =>
          refine (if_neg (LinkEvent.not_revives ?_)).symm
          split
          · exact ⟨by decide, by decide⟩
          split
          · exact ⟨by decide, by decide⟩
          · exact ⟨by decide, by decide⟩
      | _ => rfl
  | switching why =>
      rw [hpc] at hstep
      cases e with
      | attempt a =>
          simp only [linkEvent, switches, reports, LoopTurn.hears, hpc]
          cases hattempt : t.attemptSwitch transports why a with
          | mk previous u =>
              cases previous with
              | some old => rfl
              | none => rfl
      | _ => cases hstep
  | ended =>
      rw [hpc] at hstep
      cases hstep

/-- The monitor knows what the turns show. -/
theorem step_hears {t t' : MainLoop} {e : Event} (hstep : t.step P transports e = some t') :
    t'.monitor.timeout = t.monitor.timeout
      ∧ t'.monitor.lastInbound
        = (LoopTurn.hears ⟨e, t.reports transports e⟩).getD t.monitor.lastInbound := by
  rw [hears_eq hstep]
  rcases step_monitor hstep with ⟨hnone, hkeep⟩ | ⟨l, hsome, -, hmoves⟩
  · rw [hnone, hkeep]
    exact ⟨rfl, rfl⟩
  · refine ⟨hmoves.timing.1, ?_⟩
    rw [hsome, hmoves.lastInbound, Option.bind_some]
    split
    · rfl
    · rfl

end MainLoop

namespace Reported

variable {P : Primitives} {transports : List String}

@[simp] theorem heard_concat (start : Nat) (log : List LoopTurn) (turn : LoopTurn) :
    heard start (log ++ [turn]) = turn.hears.getD (heard start log) := by
  rw [heard, heard, List.foldl_append]
  rfl

/-- The turns since the start tell how the loop got where it is. -/
structure Inv (transports : List String) (transport : String) (now : Nat) (w : Reported) :
    Prop where
  posture : Linked "balanced" (w.reports.filterMap Report.postureMove) w.loop.posture.current.asStr
  transport : Linked transport (w.reports.filterMap Report.transportMove) w.loop.activeTransport
  explained : Justified (fun older turn => ∀ r ∈ turn.reports,
    Explained transports now older turn.event r) w.log
  timeout : w.loop.monitor.timeout = livenessTimeout
  inbound : w.loop.monitor.lastInbound = heard now w.log
  cause : ∀ why, w.loop.pc = .switching why →
    ∃ before cause, w.log = before ++ [cause] ∧ Forces (heard now before) why cause.event

theorem inv_start (session : Session) (transport : String) (now : Nat) :
    (start session transport now).Inv transports transport now where
  posture := rfl
  transport := rfl
  explained := justified_nil _
  timeout := rfl
  inbound := rfl
  cause why hwhy := by cases hwhy

theorem Inv.step {transport : String} {now : Nat} {w w' : Reported} {e : MainLoop.Event}
    (h : w.Inv transports transport now) (hstep : step P transports w e = some w') :
    w'.Inv transports transport now := by
  obtain ⟨t, ht, rfl⟩ := Option.map_eq_some_iff.mp hstep
  have htold := MainLoop.step_told h.timeout ht
  obtain ⟨htimeout, hinbound⟩ := MainLoop.step_hears ht
  have hreports : Reported.reports ⟨t, w.log ++ [⟨e, w.loop.reports transports e⟩]⟩
      = w.reports ++ w.loop.reports transports e := by
    simp [Reported.reports]
  refine ⟨?_, ?_, justified_concat.mpr ⟨h.explained, fun r hr => ?_⟩, htimeout.trans h.timeout,
    ?_, ?_⟩
  · rw [hreports, List.filterMap_append]
    exact h.posture.append htold.posture
  · rw [hreports, List.filterMap_append]
    exact h.transport.append htold.transport
  · cases r with
    | transportSwitched before after reason =>
        obtain ⟨hmem, hattempt, why, hpc, hreason⟩ := htold.switch _ _ _ hr
        obtain ⟨earlier, cause, hlog, hforces⟩ := h.cause why hpc
        exact ⟨hmem, hattempt, earlier, cause, why, hlog, hforces, hreason⟩
    | postureChanged before after reason =>
        rw [Explained, ← h.inbound]
        exact htold.change _ _ _ hr
  · rw [heard_concat, ← h.inbound]
    exact hinbound
  · intro why hwhy
    refine ⟨w.log, ⟨e, w.loop.reports transports e⟩, rfl, ?_⟩
    rw [← h.inbound]
    exact htold.cause why hwhy

/-- The reports follow on each other up to the posture and the transport that
the loop is at, each is of a change, and its reason is the event for which it
was sent. -/
theorem reports_truthful (session : Session) (transport : String) (now : Nat)
    (es : List MainLoop.Event) :
    Always (Reported.step P transports)
      (fun w => Linked "balanced" (w.reports.filterMap Report.postureMove)
          w.loop.posture.current.asStr
        ∧ Linked transport (w.reports.filterMap Report.transportMove) w.loop.activeTransport
        ∧ Justified (fun older turn => ∀ r ∈ turn.reports,
            Explained transports now older turn.event r) w.log)
      (start session transport now) es :=
  (always_of_invariant (fun _ _ _ h hstep => Inv.step h hstep)
    (inv_start session transport now)).mono fun _ h => ⟨h.posture, h.transport, h.explained⟩

end Reported

end Kanrin
