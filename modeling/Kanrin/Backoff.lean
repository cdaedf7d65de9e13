import Kanrin.Lib.Run
import Kanrin.Switch

/-!
# The backoff under pressure

`SwitchPolicy` over whole runs of requests. Between two recorded switches
time passes in stretches: nothing is asked for, or a better path is asked
for and refused at every reading of the clock, or a switch that was allowed
is under way. A switch is recorded when it is complete, at the end of such
a stretch.

`record` counts a switch as repeated by the time since the one before it,
and does not see what was asked for and refused in between. So the refusals
of a cooldown that is not shorter than the window look to it like a settled
network (`window_le_of_lowered`). `backoff_persists` says when that never
happens: the window after a recorded switch never runs out on a switch that
is still wanted.
-/

namespace Kanrin

open Lib

namespace SwitchPolicy

/-- The switch recorded now is a repeated one. -/
def Repeated (p : SwitchPolicy) (now : Nat) : Prop :=
  ∃ last ∈ p.lastSwitch, now - last < p.flapWindow

/-! ## What recording a switch does -/

theorem flapping_iff (p : SwitchPolicy) (now : Nat) :
    (p.lastSwitch.any fun last => decide (now - last < p.flapWindow)) = true
      ↔ p.Repeated now := by
  rw [Option.any_eq_true]
  exact exists_congr fun last => and_congr_right fun _ => decide_eq_true_iff

theorem record_of_repeated {p : SwitchPolicy} {now : Nat} (h : p.Repeated now) :
    p.record now = { p with consecutive := p.consecutive + 1, lastSwitch := some now } := by
  rw [record, if_pos ((p.flapping_iff now).mpr h)]

theorem record_of_not_repeated {p : SwitchPolicy} {now : Nat} (h : ¬ p.Repeated now) :
    p.record now = { p with consecutive := 0, lastSwitch := some now } := by
  rw [record, if_neg (mt (p.flapping_iff now).mp h)]

@[simp] theorem record_flapWindow (p : SwitchPolicy) (now : Nat) :
    (p.record now).flapWindow = p.flapWindow := rfl

/-- The counter wraps. -/
theorem succ_eq_zero_iff (n : UInt32) : n + 1 = 0 ↔ n = 0xFFFFFFFF := by
  rw [← UInt32.toNat_inj, ← UInt32.toNat_inj, UInt32.toNat_add]
  have := n.toNat_lt
  show (n.toNat + 1) % 2 ^ 32 = 0 ↔ n.toNat = 4294967295
  omega

theorem toNat_succ {n : UInt32} (h : n ≠ 0xFFFFFFFF) : (n + 1).toNat = n.toNat + 1 := by
  rw [Ne, ← UInt32.toNat_inj] at h
  have := n.toNat_lt
  rw [UInt32.toNat_add]
  change n.toNat ≠ 4294967295 at h
  show (n.toNat + 1) % 2 ^ 32 = n.toNat + 1
  omega

/-- The counter is 0 after a switch that is not a repeated one, or wraps. -/
theorem record_consecutive_eq_zero_iff (p : SwitchPolicy) (now : Nat) :
    (p.record now).consecutive = 0 ↔ ¬ (p.Repeated now ∧ p.consecutive ≠ 0xFFFFFFFF) := by
  by_cases h : p.Repeated now
  · rw [record_of_repeated h]
    show p.consecutive + 1 = 0 ↔ _
    rw [succ_eq_zero_iff]
    exact ⟨fun hmax hin => hin.2 hmax, fun hout => not_not.mp fun hmax => hout ⟨h, hmax⟩⟩
  · rw [record_of_not_repeated h]
    exact iff_of_true rfl fun hin => h hin.1

theorem cooldown_mono {p q : SwitchPolicy} (hbase : p.baseCooldown = q.baseCooldown)
    (hmax : p.maxCooldown = q.maxCooldown)
    (hconsecutive : p.consecutive.toNat ≤ q.consecutive.toNat) : p.cooldown ≤ q.cooldown := by
  have hpow : 2 ^ min p.consecutive.toNat 16 ≤ 2 ^ min q.consecutive.toNat 16 :=
    Nat.pow_le_pow_right (by decide) (min_le_min_right 16 hconsecutive)
  rw [cooldown, cooldown, hbase, hmax]
  exact min_le_min_right _ (Nat.mul_le_mul_left _ hpow)

/-- A repeated switch does not lower the cooldown, and neither does any
switch when there is no backoff yet. -/
theorem cooldown_le_record {p : SwitchPolicy} {now : Nat}
    (h : (p.Repeated now ∧ p.consecutive ≠ 0xFFFFFFFF) ∨ p.consecutive = 0) :
    p.cooldown ≤ (p.record now).cooldown := by
  refine cooldown_mono rfl rfl ?_
  rcases h with ⟨hrepeated, hmax⟩ | hzero
  · rw [record_of_repeated hrepeated]
    show _ ≤ (p.consecutive + 1).toNat
    rw [toNat_succ hmax]
    exact Nat.le_succ _
  · rw [hzero]
    exact Nat.zero_le _

/-- A better path is refused exactly inside the cooldown. -/
theorem allows_betterPath_eq_false_iff (p : SwitchPolicy) (path : String) (now : Nat) :
    p.allows (.betterPathAvailable path) now = false
      ↔ ∃ last ∈ p.lastSwitch, now - last < p.cooldown := by
  have hopportunistic : (SwitchReason.betterPathAvailable path).isFailure = false := rfl
  rw [allows, hopportunistic, if_neg Bool.false_ne_true]
  cases h : p.lastSwitch with
  | none => simp
  | some last => simp

end SwitchPolicy

/-! ## Runs -/

inductive Demand where
  | nothing
  | refused
  | underway
deriving DecidableEq

structure Stretch where
  demand : Demand
  duration : Nat
deriving DecidableEq

/-- The policy, the clock, and what was asked for since the last switch that
was recorded. -/
structure Pressure where
  policy : SwitchPolicy
  now : Nat
  since : List Stretch
deriving DecidableEq

namespace Pressure

inductive Event where
  | idle (duration : Nat)
  /-- A better path is asked for at every reading of the stretch, and refused. -/
  | request (path : String) (duration : Nat)
  /-- A request that is allowed. The switch takes its time and may fail. -/
  | attempt (reason : SwitchReason) (duration : Nat) (completed : Bool)

def start (baseCooldown maxCooldown flapWindow now : Nat) : Pressure where
  policy := .withTiming baseCooldown maxCooldown flapWindow
  now
  since := []

def Refused (w : Pressure) (path : String) (duration : Nat) : Prop :=
  ∀ t, w.now ≤ t → t < w.now + duration →
    w.policy.allows (.betterPathAvailable path) t = false

/-- It is enough that the last reading is refused. -/
theorem refused_iff (w : Pressure) (path : String) {duration : Nat} (h : 0 < duration) :
    w.Refused path duration
      ↔ w.policy.allows (.betterPathAvailable path) (w.now + (duration - 1)) = false := by
  constructor
  · intro hall
    exact hall _ (Nat.le_add_right ..) (by omega)
  · intro hlast t _ ht
    obtain ⟨last, hmem, hcooldown⟩ := (w.policy.allows_betterPath_eq_false_iff ..).mp hlast
    exact (w.policy.allows_betterPath_eq_false_iff ..).mpr ⟨last, hmem, by omega⟩

instance (w : Pressure) (path : String) (duration : Nat) :
    Decidable (0 < duration ∧ w.Refused path duration) :=
  decidable_of_iff (0 < duration
      ∧ w.policy.allows (.betterPathAvailable path) (w.now + (duration - 1)) = false)
    (and_congr_right fun h => (w.refused_iff path h).symm)

def pass (w : Pressure) (demand : Demand) (duration : Nat) : Pressure :=
  { w with now := w.now + duration, since := w.since ++ [⟨demand, duration⟩] }

def step (w : Pressure) : Event → Option Pressure
  | .idle duration => if 0 < duration then some (w.pass .nothing duration) else none
  | .request path duration =>
      if 0 < duration ∧ w.Refused path duration then some (w.pass .refused duration) else none
  | .attempt reason duration completed =>
      if w.policy.allows reason w.now = true then
        if completed = true then
          some
            { policy := w.policy.record (w.now + duration)
              now := w.now + duration
              since := [] }
        else some (w.pass .underway duration)
      else none

def total (stretches : List Stretch) : Nat := (stretches.map Stretch.duration).sum

/-- A better path has been asked for and refused all the time since the last switch. -/
def Pressed (w : Pressure) : Prop := ∀ s ∈ w.since, s.demand = .refused

instance (w : Pressure) : Decidable w.Pressed := inferInstanceAs (Decidable (∀ s ∈ w.since, _))

/-- There has been a time of this length since the last switch in which none was wanted. -/
def QuietFor (w : Pressure) (duration : Nat) : Prop :=
  ∃ older quiet newer, w.since = older ++ quiet ++ newer
    ∧ (∀ s ∈ quiet, s.demand = .nothing) ∧ duration ≤ total quiet

/-- Recording the switch does not lower the cooldown under pressure, and
resets the counter only after a quiet time. -/
def Persists (w : Pressure) : Event → Prop
  | .attempt _ duration true =>
      (w.Pressed → w.policy.cooldown ≤ (w.policy.record (w.now + duration)).cooldown)
        ∧ (w.policy.consecutive ≠ 0 → (w.policy.record (w.now + duration)).consecutive = 0 →
            w.QuietFor w.policy.flapWindow)
  | _ => True

/-- The window of the last recorded switch runs out in a stretch that begins now. -/
def Closes (w : Pressure) (duration : Nat) : Prop :=
  w.policy.lastSwitch ≠ none ∧ total w.since < w.policy.flapWindow
    ∧ w.policy.flapWindow ≤ total w.since + duration

instance (w : Pressure) (duration : Nat) : Decidable (w.Closes duration) :=
  inferInstanceAs (Decidable (_ ∧ _ ∧ _))

/-- The window does not run out while a switch is wanted or under way. It
runs out in an idle time only if nothing was wanted before that time, or if
that time is itself as long. -/
def Settles (w : Pressure) : Event → Prop
  | .idle duration => w.Closes duration →
      (∀ s ∈ w.since, s.demand = .nothing) ∨ w.policy.flapWindow ≤ duration
  | .request _ duration => ¬ w.Closes duration
  | .attempt _ duration completed => ¬ w.Closes duration
      ∧ (completed = true → w.policy.consecutive ≠ 0xFFFFFFFF)

instance (w : Pressure) : ∀ e : Event, Decidable (w.Settles e)
  | .idle _ => inferInstanceAs (Decidable (_ → _))
  | .request .. => inferInstanceAs (Decidable (¬ _))
  | .attempt .. => inferInstanceAs (Decidable (_ ∧ _))

/-! ## The invariant -/

structure Inv (w : Pressure) : Prop where
  unswitched : w.policy.lastSwitch = none → w.policy.consecutive = 0
  elapsed : ∀ last ∈ w.policy.lastSwitch, w.now = last + total w.since
  -- no switch is a repeated one when the window is empty
  window : w.policy.flapWindow = 0 → w.policy.consecutive = 0
  pressed : w.Pressed → w.policy.lastSwitch ≠ none → total w.since ≤ w.policy.cooldown

theorem total_concat (stretches : List Stretch) (s : Stretch) :
    total (stretches ++ [s]) = total stretches + s.duration := by
  simp [total]

theorem inv_start (baseCooldown maxCooldown flapWindow now : Nat) :
    (start baseCooldown maxCooldown flapWindow now).Inv where
  unswitched _ := rfl
  elapsed _ h := nomatch h
  window _ := rfl
  pressed _ h := absurd rfl h

/-- Time that passes without a recorded switch. -/
theorem Inv.pass {w : Pressure} (h : w.Inv) {demand : Demand} {duration : Nat}
    (hrefused : demand = .refused → w.policy.lastSwitch ≠ none →
      total w.since + duration ≤ w.policy.cooldown) : (w.pass demand duration).Inv where
  unswitched := h.unswitched
  elapsed last hlast := by
    show w.now + duration = last + total (w.since ++ [⟨demand, duration⟩])
    rw [total_concat, h.elapsed last hlast, Nat.add_assoc]
  window := h.window
  pressed hpressed hswitched := by
    show total (w.since ++ [⟨demand, duration⟩]) ≤ w.policy.cooldown
    rw [total_concat]
    exact hrefused (hpressed ⟨demand, duration⟩ (List.mem_concat_self ..)) hswitched

theorem inv_record (w : Pressure) (now : Nat) :
    Inv { policy := w.policy.record now, now, since := [] } where
  unswitched h := nomatch h
  elapsed last hlast := Option.some.inj hlast
  window hwindow := by
    refine (w.policy.record_consecutive_eq_zero_iff now).mpr ?_
    rintro ⟨⟨last, -, hlt⟩, -⟩
    rw [SwitchPolicy.record_flapWindow] at hwindow
    omega
  pressed _ _ := Nat.zero_le _

theorem Inv.step {w t : Pressure} {e : Event} (h : w.Inv) (hstep : w.step e = some t) : t.Inv := by
  cases e with
  | idle duration =>
      obtain ⟨-, rfl⟩ := Option.ite_some_none_eq_some.mp hstep
      exact h.pass (fun hrefused => nomatch hrefused)
  | request path duration =>
      obtain ⟨⟨hpos, hrefused⟩, rfl⟩ := Option.ite_some_none_eq_some.mp hstep
      refine h.pass fun _ _ => ?_
      -- the last reading of the stretch is inside the cooldown
      have hlast := (w.refused_iff path hpos).mp hrefused
      obtain ⟨last, hmem, hlt⟩ := (w.policy.allows_betterPath_eq_false_iff ..).mp hlast
      have helapsed := h.elapsed last hmem
      omega
  | attempt reason duration completed =>
      obtain ⟨-, heq⟩ := Option.ite_none_right_eq_some.mp hstep
      cases completed with
      | true =>
          obtain rfl := Option.some.inj heq
          exact inv_record w _
      | false =>
          obtain rfl := Option.some.inj heq
          exact h.pass (fun hrefused => nomatch hrefused)

theorem inv_of_exec {baseCooldown maxCooldown flapWindow now : Nat} {w : Pressure}
    {es : List Event} (h : exec step (start baseCooldown maxCooldown flapWindow now) es = some w) :
    w.Inv :=
  exec_invariant (fun _ _ _ hw hstep => hw.step hstep) (inv_start ..) h

/-! ## When the backoff persists -/

/-- Where nothing but refusals lies behind, there is no quiet time. -/
theorem eq_zero_of_pressed_of_quietFor {w : Pressure} {duration : Nat} (hpressed : w.Pressed)
    (hquiet : w.QuietFor duration) : duration = 0 := by
  obtain ⟨older, quiet, newer, hsince, hnothing, hle⟩ := hquiet
  cases quiet with
  | nil => exact Nat.le_zero.mp hle
  | cons s quiet =>
      have hmem : s ∈ w.since := by
        rw [hsince]
        simp
      have hdemand := hnothing s List.mem_cons_self
      rw [hpressed s hmem] at hdemand
      cases hdemand

/-- The window after the last recorded switch is over only with a quiet time
of that length in it. -/
def Settled (w : Pressure) : Prop :=
  w.policy.lastSwitch ≠ none → w.policy.flapWindow ≤ total w.since →
    w.QuietFor w.policy.flapWindow

theorem settled_start (baseCooldown maxCooldown flapWindow now : Nat) :
    (start baseCooldown maxCooldown flapWindow now).Settled :=
  fun h => absurd rfl h

theorem QuietFor.pass {w : Pressure} {length : Nat} (h : w.QuietFor length) (demand : Demand)
    (duration : Nat) : (w.pass demand duration).QuietFor length := by
  obtain ⟨older, quiet, newer, hsince, hnothing, hle⟩ := h
  refine ⟨older, quiet, newer ++ [⟨demand, duration⟩], ?_, hnothing, hle⟩
  show w.since ++ [⟨demand, duration⟩] = _
  rw [hsince, List.append_assoc (older ++ quiet)]

theorem Settled.pass {w : Pressure} (h : w.Settled) {demand : Demand} {duration : Nat}
    (hcloses : w.Closes duration → (w.pass demand duration).QuietFor w.policy.flapWindow) :
    (w.pass demand duration).Settled := by
  intro hswitched hover
  change w.policy.flapWindow ≤ total (w.since ++ [⟨demand, duration⟩]) at hover
  rw [total_concat] at hover
  by_cases hopen : total w.since < w.policy.flapWindow
  · exact hcloses ⟨hswitched, hopen, hover⟩
  · exact (h hswitched (not_lt.mp hopen)).pass demand duration

/-- A window that runs out in an idle time leaves a quiet time of its length. -/
theorem quietFor_of_closes {w : Pressure} {duration : Nat} (hsettles : w.Settles (.idle duration))
    (hcloses : w.Closes duration) :
    (w.pass .nothing duration).QuietFor w.policy.flapWindow := by
  rcases hsettles hcloses with hnothing | hlong
  · refine ⟨[], w.since ++ [⟨.nothing, duration⟩], [], by simp [Pressure.pass], ?_, ?_⟩
    · intro s hs
      rcases List.mem_append.mp hs with hs | hs
      · exact hnothing s hs
      · rw [List.mem_singleton.mp hs]
    · rw [total_concat]
      exact hcloses.2.2
  · refine ⟨w.since, [⟨.nothing, duration⟩], [], by simp [Pressure.pass], ?_, ?_⟩
    · intro s hs
      rw [List.mem_singleton.mp hs]
    · simpa [total] using hlong

theorem Settled.step {w t : Pressure} {e : Event} (h : w.Settled) (hsettles : w.Settles e)
    (hstep : w.step e = some t) : t.Settled := by
  cases e with
  | idle duration =>
      obtain ⟨-, rfl⟩ := Option.ite_some_none_eq_some.mp hstep
      exact h.pass (quietFor_of_closes hsettles)
  | request path duration =>
      obtain ⟨-, rfl⟩ := Option.ite_some_none_eq_some.mp hstep
      exact h.pass fun hcloses => absurd hcloses hsettles
  | attempt reason duration completed =>
      obtain ⟨-, heq⟩ := Option.ite_none_right_eq_some.mp hstep
      cases completed with
      | true =>
          obtain rfl := Option.some.inj heq
          exact fun _ hover => ⟨[], [], [], rfl, (fun s hs => nomatch hs), hover⟩
      | false =>
          obtain rfl := Option.some.inj heq
          exact h.pass fun hcloses => absurd hcloses hsettles.1

theorem persists_of_settles {w : Pressure} (hinv : w.Inv) (hsettled : w.Settled) {e : Event}
    (hsettles : w.Settles e) : w.Persists e := by
  cases e with
  | idle duration => trivial
  | request path duration => trivial
  | attempt reason duration completed =>
      cases completed with
      | false => trivial
      | true =>
          obtain ⟨hcloses, hmax⟩ := hsettles
          by_cases hzero : w.policy.consecutive = 0
          · exact ⟨fun _ => SwitchPolicy.cooldown_le_record (Or.inr hzero),
              fun hne => absurd hzero hne⟩
          obtain ⟨last, hlast⟩ := Option.ne_none_iff_exists'.mp (mt hinv.unswitched hzero)
          have hswitched : w.policy.lastSwitch ≠ none := by
            rw [hlast]
            exact Option.some_ne_none last
          have helapsed := hinv.elapsed last hlast
          by_cases hwithin : total w.since + duration < w.policy.flapWindow
          · -- within the window: a repeated switch, and it is counted
            have hcounted : w.policy.Repeated (w.now + duration)
                ∧ w.policy.consecutive ≠ 0xFFFFFFFF :=
              ⟨⟨last, hlast, by omega⟩, hmax rfl⟩
            refine ⟨fun _ => SwitchPolicy.cooldown_le_record (Or.inl hcounted),
              fun _ hafter => absurd hcounted ?_⟩
            exact (w.policy.record_consecutive_eq_zero_iff (w.now + duration)).mp hafter
          · -- the window was over before the attempt began
            have hover : w.policy.flapWindow ≤ total w.since := by
              by_contra hopen
              exact hcloses ⟨hswitched, not_le.mp hopen, not_lt.mp hwithin⟩
            have hquiet := hsettled hswitched hover
            refine ⟨fun hpressed => ?_, fun _ _ => hquiet⟩
            exact absurd (hinv.window (eq_zero_of_pressed_of_quietFor hpressed hquiet)) hzero

/-- A switch under pressure lowers the cooldown only if the cooldown, with
the time the switch takes, is not shorter than the window. -/
theorem window_le_of_lowered {baseCooldown maxCooldown flapWindow now : Nat} {w : Pressure}
    {es : List Event} (h : exec step (start baseCooldown maxCooldown flapWindow now) es = some w)
    (hpressed : w.Pressed) (hmax : w.policy.consecutive ≠ 0xFFFFFFFF) {duration : Nat}
    (hlowered : (w.policy.record (w.now + duration)).cooldown < w.policy.cooldown) :
    w.policy.flapWindow ≤ w.policy.cooldown + duration := by
  have hinv := inv_of_exec h
  by_contra hshort
  have hnever : w.policy.cooldown ≤ (w.policy.record (w.now + duration)).cooldown := by
    cases hlast : w.policy.lastSwitch with
    | none => exact SwitchPolicy.cooldown_le_record (Or.inr (hinv.unswitched hlast))
    | some last =>
        have helapsed := hinv.elapsed last hlast
        have hle := hinv.pressed hpressed (by rw [hlast]; exact Option.some_ne_none last)
        have hrepeated : w.policy.Repeated (w.now + duration) :=
          ⟨last, hlast, by omega⟩
        exact SwitchPolicy.cooldown_le_record (Or.inl ⟨hrepeated, hmax⟩)
  omega

/-- A run in which the window never runs out on a switch that is wanted
keeps its backoff under pressure, and resets it after quiet times only. -/
theorem backoff_persists (baseCooldown maxCooldown flapWindow now : Nat) (es : List Event)
    (h : Meets step Settles (start baseCooldown maxCooldown flapWindow now) es) :
    Meets step Persists (start baseCooldown maxCooldown flapWindow now) es :=
  meets_of_meets (I := fun w => w.Inv ∧ w.Settled)
    (fun _ _ _ hw hsettles hstep => ⟨persists_of_settles hw.1 hw.2 hsettles,
      hw.1.step hstep, hw.2.step hsettles hstep⟩)
    ⟨inv_start .., settled_start baseCooldown maxCooldown flapWindow now⟩ h

/-- Two switches at once; a better path, asked for through the cooldown of
10 s and then taken; another, asked for during 5 s of the 20 s that follow.
The link fails again after a quiet minute. -/
def settlingRun : List Event :=
  [.attempt .linkSilent 0 true, .attempt .linkSilent 0 true, .request "quic" (10 * 10 ^ 9),
    .attempt (.betterPathAvailable "quic") (10 ^ 9) true, .request "quic" (5 * 10 ^ 9),
    .idle (60 * 10 ^ 9), .attempt .linkSilent 0 true]

/-- Cooldowns of 5, 10 and 20 s in turn, and 5 s again after the minute. -/
theorem backoff_persists_settlingRun :
    [1, 2, 4, 7].map (fun n => (exec step (start baseCooldown maxCooldown flapWindow 0)
        (settlingRun.take n)).map fun w => w.policy.cooldown)
      = [some (5 * 10 ^ 9), some (10 * 10 ^ 9), some (20 * 10 ^ 9), some (5 * 10 ^ 9)] ∧
    Meets step Persists (start baseCooldown maxCooldown flapWindow 0) settlingRun :=
  ⟨by decide +kernel, backoff_persists baseCooldown maxCooldown flapWindow 0 settlingRun
    (by decide +kernel)⟩

/-- Five switches at once, and then a better path is asked for until the
cooldown of 80 s is over. -/
def pressedFor80s : List Event :=
  List.replicate 5 (.attempt .linkSilent 0 true) ++ [.request "quic" (80 * 10 ^ 9)]

/-- With the default timing the cooldown then drops from 80 s to 5 s. -/
theorem reset_under_pressure :
    ¬ Meets step Persists (start baseCooldown maxCooldown flapWindow 0)
      (pressedFor80s ++ [.attempt (.betterPathAvailable "quic") 0 true]) := by
  intro hmeets
  have hlast : ∃ w, exec step (start baseCooldown maxCooldown flapWindow 0) pressedFor80s = some w
      ∧ (step w (.attempt (.betterPathAvailable "quic") 0 true)).isSome = true ∧ w.Pressed
      ∧ (w.policy.record (w.now + 0)).cooldown < w.policy.cooldown := by
    refine ⟨⟨⟨some 0, 4, baseCooldown, maxCooldown, flapWindow⟩, 80 * 10 ^ 9,
      [⟨.refused, 80 * 10 ^ 9⟩]⟩, ?_, ?_, ?_, ?_⟩ <;> decide +kernel
  obtain ⟨w, hexec, hfires, hpressed, hlowered⟩ := hlast
  obtain ⟨u, hu⟩ := Option.isSome_iff_exists.mp hfires
  have hpersists := (hmeets.last hexec hu).1 hpressed
  exact absurd hlowered (not_lt.mpr hpersists)

end Pressure

end Kanrin
