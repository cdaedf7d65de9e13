import Mathlib.Data.List.Count
import Kanrin.Lib.Run

/-!
# The kill switch

`kanrin-tun/src/killswitch.rs`, on each platform it has code for, over a
firewall that does what the commands say. A command may fail to start, or
fail, and then does nothing.

The switch goes by its flag, and the flag by what the source looks at:
the policy command on Windows, whether `nft` starts, whether the file of
rules can be written. `truthful_iff` says when that is enough: for a flag
that tells whether traffic is blocked, and for an activation that fails to
leave nothing behind.
-/

namespace Kanrin

open Lib

inductive Platform where
  | windows
  | linux
  | macos
  /-- Any other target, for which nothing is compiled. -/
  | other
deriving DecidableEq

inductive KillSwitchError where
  | activateFailed (text : String)
deriving DecidableEq

structure KillSwitchConfig where
  /-- The addresses as they print. -/
  allowedIps : List String
  allowLan : Bool
  allowLoopback : Bool

/-! ## The firewall -/

/-- A rule as its command gives it. -/
inductive Rule where
  | netsh (name : String) (args : List String)
  | nft (line : String)
  | pf (line : String)
deriving DecidableEq

structure Firewall where
  /-- Windows: the default policy for outbound traffic is to block. -/
  blockOutbound : Bool
  pfEnabled : Bool
  /-- `/tmp/kanrin_killswitch.conf`. -/
  rulesFile : Option (List String)
  rules : List Rule

/-- What the switch asks of the system. -/
inductive Command where
  | addRule (name : String) (args : List String)
  | deleteRule (name : String)
  | setPolicy (blockOutbound : Bool)
  /-- `nft -f -`, and what it is given on stdin. -/
  | nftLoad (stdin : List String)
  | nftDeleteTable
  | writeRules (lines : List String)
  | removeRules
  /-- `pfctl -f` with the file of rules, `-e`. -/
  | pfctlLoad
  /-- `pfctl -d`. -/
  | pfctlDisable

inductive CommandOutcome where
  | notStarted (error : String)
  | failed (stderr : String)
  | succeeded
deriving DecidableEq

/-- The outcomes of the commands of one call, in order. -/
abbrev Outcomes := Nat → CommandOutcome

namespace Firewall

def effect (fw : Firewall) : Command → Firewall
  | .addRule name args => { fw with rules := fw.rules ++ [.netsh name args] }
  | .deleteRule name =>
      { fw with
        rules := fw.rules.filter fun
          | .netsh name' _ => name' != name
          | _ => true }
  | .setPolicy blockOutbound => { fw with blockOutbound }
  | .nftLoad stdin => { fw with rules := fw.rules ++ stdin.map .nft }
  | .nftDeleteTable =>
      { fw with
        rules := fw.rules.filter fun
          | .nft _ => false
          | _ => true }
  | .writeRules lines => { fw with rulesFile := some lines }
  | .removeRules => { fw with rulesFile := none }
  | .pfctlLoad =>
      match fw.rulesFile with
      | some lines =>
          { fw with
            pfEnabled := true
            rules := (fw.rules.filter fun
              | .pf _ => false
              | _ => true) ++ lines.map .pf }
      | none => fw
  | .pfctlDisable => { fw with pfEnabled := false }

def run (fw : Firewall) (c : Command) (outcome : CommandOutcome) : Firewall :=
  if outcome = .succeeded then fw.effect c else fw

/-- Commands whose outcome is not looked at, from the `k`th of the call on. -/
def runAll (outcomes : Outcomes) : (k : Nat) → List Command → Firewall → Firewall
  | _, [], fw => fw
  | k, c :: cs, fw => runAll outcomes (k + 1) cs (fw.run c (outcomes k))

end Firewall

/-! ## The platforms -/

def ruleName : String := "KanrinKillSwitch"

def lanRanges : List String := ["10.0.0.0/8", "172.16.0.0/12", "192.168.0.0/16"]

/-- The rules that `activate_windows` adds before it sets the policy. -/
def allowCommands (config : KillSwitchConfig) : List Command :=
  (config.allowedIps.zipIdx.map fun (ip, i) =>
      .addRule (ruleName ++ "_allow_" ++ toString i)
        ["dir=out", "action=allow", "remoteip=" ++ ip, "enable=yes"])
    ++ [.addRule (ruleName ++ "_tun")
        ["dir=out", "action=allow", "remoteip=any", "localip=10.10.0.0/24", "enable=yes"]]
    ++ (if config.allowLoopback then
        [.addRule (ruleName ++ "_loopback")
          ["dir=out", "action=allow", "remoteip=127.0.0.0/8", "enable=yes"]]
      else [])
    ++ (if config.allowLan then
        lanRanges.map fun range =>
          .addRule (ruleName ++ "_lan")
            ["dir=out", "action=allow", "remoteip=" ++ range, "enable=yes"]
      else [])
    ++ [.addRule (ruleName ++ "_dhcp")
        ["dir=out", "action=allow", "protocol=udp", "remoteport=67,68", "enable=yes"]]

def activateWindows (config : KillSwitchConfig) (outcomes : Outcomes) (fw : Firewall) :
    Except KillSwitchError Unit × Firewall :=
  let fw := fw.runAll outcomes 0 (allowCommands config)
  match outcomes (allowCommands config).length with
  | .notStarted error => (.error (.activateFailed error), fw)
  | .failed stderr => (.error (.activateFailed stderr), fw)
  | .succeeded => (.ok (), fw.effect (.setPolicy true))

def deleteCommands (config : KillSwitchConfig) : List Command :=
  (List.range config.allowedIps.length).map
      (fun i => .deleteRule ("KanrinKillSwitch_allow_" ++ toString i))
    ++ ["_tun", "_loopback", "_lan", "_dhcp"].map fun suffix =>
      .deleteRule ("KanrinKillSwitch" ++ suffix)

def deactivateWindows (config : KillSwitchConfig) (outcomes : Outcomes) (fw : Firewall) : Firewall :=
  fw.runAll outcomes 0 (.setPolicy false :: deleteCommands config)

def chainLine : String :=
  "add chain inet kanrin_killswitch output "
    ++ "\x7b type filter hook output priority 0; policy drop; \x7d"

def nftAccept (condition : String) : String :=
  "add rule inet kanrin_killswitch output " ++ condition ++ " accept"

/-- What `activate_linux` puts together. -/
def linuxRules (config : KillSwitchConfig) : List String :=
  ["#!/usr/sbin/nft -f", "add table inet kanrin_killswitch", chainLine]
    ++ (if config.allowLoopback then [nftAccept "oifname \"lo\""] else [])
    ++ config.allowedIps.map (fun ip => nftAccept ("ip daddr " ++ ip))
    ++ (if config.allowLan then lanRanges.map fun range => nftAccept ("ip daddr " ++ range) else [])
    ++ [nftAccept "oifname \"kanrin*\""]

/-- The rules are never written to the child, and its exit status is not
looked at. -/
def activateLinux (outcomes : Outcomes) (fw : Firewall) : Except KillSwitchError Unit × Firewall :=
  match outcomes 0 with
  | .notStarted error => (.error (.activateFailed error), fw)
  | outcome => (.ok (), fw.run (.nftLoad []) outcome)

def deactivateLinux (outcomes : Outcomes) (fw : Firewall) : Firewall :=
  fw.run .nftDeleteTable (outcomes 0)

def blockLine : String := "block out all"

def macosRules (config : KillSwitchConfig) : List String :=
  ["# Kanrin Kill Switch", blockLine]
    ++ (if config.allowLoopback then ["pass out on lo0 all"] else [])
    ++ config.allowedIps.map (fun ip => "pass out to " ++ ip ++ " all")
    ++ (if config.allowLan then lanRanges.map fun range => "pass out to " ++ range ++ " all" else [])
    ++ ["pass out on utun* all"]

def activateMacos (config : KillSwitchConfig) (outcomes : Outcomes) (fw : Firewall) :
    Except KillSwitchError Unit × Firewall :=
  match outcomes 0 with
  | .succeeded =>
      (.ok (), (fw.effect (.writeRules (macosRules config))).run .pfctlLoad (outcomes 1))
  | .notStarted error | .failed error => (.error (.activateFailed error), fw)

def deactivateMacos (outcomes : Outcomes) (fw : Firewall) : Firewall :=
  fw.runAll outcomes 0 [.pfctlDisable, .removeRules]

/-- The part of `activate` that is compiled for a platform. -/
def activateOn (p : Platform) (config : KillSwitchConfig) (outcomes : Outcomes) (fw : Firewall) :
    Except KillSwitchError Unit × Firewall :=
  match p with
  | .windows => activateWindows config outcomes fw
  | .linux => activateLinux outcomes fw
  | .macos => activateMacos config outcomes fw
  | .other => (.ok (), fw)

def deactivateOn (p : Platform) (config : KillSwitchConfig) (outcomes : Outcomes) (fw : Firewall) :
    Firewall :=
  match p with
  | .windows => deactivateWindows config outcomes fw
  | .linux => deactivateLinux outcomes fw
  | .macos => deactivateMacos outcomes fw
  | .other => fw

/-! ## The switch -/

structure KillSwitch where
  config : KillSwitchConfig
  active : Bool

namespace KillSwitch

def new (config : KillSwitchConfig) : KillSwitch where
  config := config
  active := false

def isActive (ks : KillSwitch) : Bool := ks.active

def activate (ks : KillSwitch) (p : Platform) (outcomes : Outcomes) (fw : Firewall) :
    Except KillSwitchError Unit × KillSwitch × Firewall :=
  if ks.active then (.ok (), ks, fw)
  else
    match activateOn p ks.config outcomes fw with
    | (.error e, fw) => (.error e, ks, fw)
    | (.ok (), fw) => (.ok (), { ks with active := true }, fw)

/-- It never fails: no outcome is looked at. -/
def deactivate (ks : KillSwitch) (p : Platform) (outcomes : Outcomes) (fw : Firewall) :
    KillSwitch × Firewall :=
  if !ks.active then (ks, fw)
  else ({ ks with active := false }, deactivateOn p ks.config outcomes fw)

def drop (ks : KillSwitch) (p : Platform) (outcomes : Outcomes) (fw : Firewall) :
    KillSwitch × Firewall :=
  if ks.active then ks.deactivate p outcomes fw else (ks, fw)

end KillSwitch

/-- A kill switch and the system it runs on. -/
structure Guarded where
  killSwitch : KillSwitch
  firewall : Firewall
  /-- The rules there were before the last call, if that is an `activate`
  that has failed. -/
  failedFrom : Option (List Rule)
  dropped : Bool

namespace Guarded

inductive Event where
  | activate (outcomes : Outcomes)
  | deactivate (outcomes : Outcomes)
  | drop (outcomes : Outcomes)

def start (config : KillSwitchConfig) : Guarded where
  killSwitch := .new config
  firewall := { blockOutbound := false, pfEnabled := false, rulesFile := none, rules := [] }
  failedFrom := none
  dropped := false

variable (p : Platform)

def step (t : Guarded) (e : Event) : Option Guarded :=
  if t.dropped then none
  else match e with
    | .activate outcomes =>
        let (result, killSwitch, firewall) := t.killSwitch.activate p outcomes t.firewall
        some
          { t with
            killSwitch, firewall
            failedFrom := match result with
              | .error _ => some t.firewall.rules
              | .ok _ => none }
    | .deactivate outcomes =>
        let (killSwitch, firewall) := t.killSwitch.deactivate p outcomes t.firewall
        some { t with killSwitch, firewall, failedFrom := none }
    | .drop outcomes =>
        let (killSwitch, firewall) := t.killSwitch.drop p outcomes t.firewall
        some { killSwitch, firewall, failedFrom := none, dropped := true }

/-! ## The property -/

/-- Traffic is blocked unless a rule allows it. -/
def inForce (fw : Firewall) : Bool :=
  match p with
  | .windows => fw.blockOutbound
  | .linux => fw.rules.contains (.nft chainLine)
  | .macos => fw.pfEnabled && fw.rules.contains (.pf blockLine)
  | .other => false

/-- Every command succeeds. -/
def granted : Outcomes := fun _ => .succeeded

/-- No rule is there more often than it was. -/
def NoMore (rules rules' : List Rule) : Prop := ∀ r, rules'.count r ≤ rules.count r

structure Truthful (t : Guarded) : Prop where
  active : t.killSwitch.isActive = inForce p t.firewall
  deactivate : ∀ rules, t.failedFrom = some rules →
    NoMore rules (t.killSwitch.deactivate p granted t.firewall).2.rules
  drop : ∀ rules, t.failedFrom = some rules →
    NoMore rules (t.killSwitch.drop p granted t.firewall).2.rules

/-- What an activation needs. On Windows, a policy command that succeeds,
or allow rules that all fail; on Linux, no `nft`; on macOS, a `pfctl` that
succeeds once the rules have been written. -/
def Activates (config : KillSwitchConfig) (outcomes : Outcomes) : Prop :=
  match p with
  | .windows =>
      outcomes (allowCommands config).length = .succeeded
        ∨ ∀ i < (allowCommands config).length, outcomes i ≠ .succeeded
  | .linux => ∃ error, outcomes 0 = .notStarted error
  | .macos => outcomes 0 = .succeeded → outcomes 1 = .succeeded
  | .other => False

/-- The first command of `deactivate` lifts the block. -/
def Careful (t : Guarded) : Event → Prop
  | .activate outcomes =>
      t.killSwitch.active = false → Activates p t.killSwitch.config outcomes
  | .deactivate outcomes | .drop outcomes =>
      t.killSwitch.active = true → outcomes 0 = .succeeded

/-! ## What the commands do -/

variable {p}

theorem truthful_iff_of_none {t : Guarded} (h : t.failedFrom = none) :
    Truthful p t ↔ t.killSwitch.isActive = inForce p t.firewall := by
  constructor
  · exact Truthful.active
  · intro hactive
    refine ⟨hactive, fun rules hrules => ?_, fun rules hrules => ?_⟩
    · rw [h] at hrules
      cases hrules
    · rw [h] at hrules
      cases hrules

/-- After an activation that has failed, nothing is removed any more. -/
theorem truthful_iff_of_some {t : Guarded} {rules : List Rule} (h : t.failedFrom = some rules)
    (hinactive : t.killSwitch.active = false) :
    Truthful p t ↔ inForce p t.firewall = false ∧ NoMore rules t.firewall.rules := by
  have hdeactivate : t.killSwitch.deactivate p granted t.firewall = (t.killSwitch, t.firewall) := by
    rw [KillSwitch.deactivate, hinactive]
    rfl
  have hdrop : t.killSwitch.drop p granted t.firewall = (t.killSwitch, t.firewall) := by
    rw [KillSwitch.drop, hinactive]
    rfl
  constructor
  · intro ht
    have hactive := ht.active
    have hmore := ht.deactivate rules h
    rw [KillSwitch.isActive, hinactive] at hactive
    rw [hdeactivate] at hmore
    exact ⟨hactive.symm, hmore⟩
  · rintro ⟨hforce, hmore⟩
    refine ⟨?_, fun rules' hrules => ?_, fun rules' hrules => ?_⟩
    · rw [KillSwitch.isActive, hinactive, hforce]
    · obtain rfl := Option.some.inj (h.symm.trans hrules)
      rw [hdeactivate]
      exact hmore
    · obtain rfl := Option.some.inj (h.symm.trans hrules)
      rw [hdrop]
      exact hmore

theorem noMore_append_iff {rules added : List Rule} :
    NoMore rules (rules ++ added) ↔ added = [] := by
  constructor
  · intro h
    by_contra hne
    obtain ⟨r, hr⟩ := List.exists_mem_of_ne_nil added hne
    have hcount := h r
    have hpos := List.count_pos_iff.mpr hr
    rw [List.count_append] at hcount
    omega
  · rintro rfl r
    rw [List.append_nil]

end Guarded

namespace Firewall

/-- Allow rules only add to the rules, and add none only if all fail. -/
theorem runAll_addRules (outcomes : Outcomes) {cs : List Command}
    (h : ∀ c ∈ cs, ∃ name args, c = .addRule name args) (k : Nat) (fw : Firewall) :
    ∃ added, fw.runAll outcomes k cs = { fw with rules := fw.rules ++ added }
      ∧ (added = [] ↔ ∀ i < cs.length, outcomes (k + i) ≠ .succeeded) := by
  induction cs generalizing k fw with
  | nil =>
      refine ⟨[], ?_, iff_of_true rfl fun i hi => absurd hi (Nat.not_lt_zero i)⟩
      rw [List.append_nil]
      rfl
  | cons c cs ih =>
      obtain ⟨name, args, rfl⟩ := h c List.mem_cons_self
      obtain ⟨added, hrun, hnil⟩ := ih (fun c hc => h c (List.mem_cons_of_mem _ hc)) (k + 1)
        (fw.run (.addRule name args) (outcomes k))
      rw [runAll, hrun]
      by_cases hsucc : outcomes k = .succeeded
      · refine ⟨.netsh name args :: added, ?_, iff_of_false (fun h => nomatch h) fun h => ?_⟩
        · rw [run, if_pos hsucc, effect]
          simp only [List.append_assoc, List.singleton_append]
        · exact h 0 (Nat.succ_pos _) hsucc
      · refine ⟨added, ?_, hnil.trans ?_⟩
        · rw [run, if_neg hsucc]
        · constructor
          · intro h i hi
            cases i with
            | zero => exact hsucc
            | succ i =>
                rw [← Nat.succ_add_eq_add_succ]
                exact h i (Nat.lt_of_succ_lt_succ hi)
          · intro h i hi
            rw [Nat.succ_add_eq_add_succ]
            exact h (i + 1) (Nat.succ_lt_succ hi)

/-- Nothing but the policy command sets the policy. -/
theorem blockOutbound_runAll {outcomes : Outcomes} {cs : List Command}
    (h : ∀ c ∈ cs, ∃ name, c = .deleteRule name) (k : Nat) (fw : Firewall) :
    (fw.runAll outcomes k cs).blockOutbound = fw.blockOutbound := by
  induction cs generalizing k fw with
  | nil => rfl
  | cons c cs ih =>
      obtain ⟨name, rfl⟩ := h c List.mem_cons_self
      rw [runAll, ih (fun c hc => h c (List.mem_cons_of_mem _ hc)), run]
      split
      · rfl
      · rfl

end Firewall

theorem allowCommands_eq (config : KillSwitchConfig) :
    ∀ c ∈ allowCommands config, ∃ name args, c = .addRule name args := by
  intro c hc
  simp only [allowCommands, List.mem_append, List.mem_map, List.mem_singleton] at hc
  rcases hc with (((⟨q, -, rfl⟩ | rfl) | hc) | hc) | rfl
  · exact ⟨_, _, rfl⟩
  · exact ⟨_, _, rfl⟩
  · split at hc
    · exact ⟨_, _, List.mem_singleton.mp hc⟩
    · cases hc
  · split at hc
    · obtain ⟨range, -, rfl⟩ := List.mem_map.mp hc
      exact ⟨_, _, rfl⟩
    · cases hc
  · exact ⟨_, _, rfl⟩

theorem deleteCommands_eq (config : KillSwitchConfig) :
    ∀ c ∈ deleteCommands config, ∃ name, c = .deleteRule name := by
  intro c hc
  rcases List.mem_append.mp hc with hc | hc
  · obtain ⟨i, -, rfl⟩ := List.mem_map.mp hc
    exact ⟨_, rfl⟩
  · obtain ⟨suffix, -, rfl⟩ := List.mem_map.mp hc
    exact ⟨_, rfl⟩

namespace Guarded

variable {p : Platform}

theorem blockOutbound_deactivateWindows (config : KillSwitchConfig) (outcomes : Outcomes)
    (fw : Firewall) : (deactivateWindows config outcomes fw).blockOutbound
      = if outcomes 0 = .succeeded then false else fw.blockOutbound := by
  rw [deactivateWindows, Firewall.runAll, Firewall.blockOutbound_runAll (deleteCommands_eq config),
    Firewall.run]
  split
  · rfl
  · rfl

theorem inForce_deactivateMacos (outcomes : Outcomes) (fw : Firewall) :
    inForce .macos (deactivateMacos outcomes fw)
      = if outcomes 0 = .succeeded then false else inForce .macos fw := by
  rw [deactivateMacos, Firewall.runAll, Firewall.runAll, Firewall.runAll, Firewall.run,
    Firewall.run]
  split
  · split
    · rfl
    · rfl
  · split
    · rfl
    · rfl

/-- On Linux no rule is ever loaded. -/
def Inv (p : Platform) (t : Guarded) : Prop := p = .linux → ∀ line, Rule.nft line ∉ t.firewall.rules

/-- An activation that failed, by what it left behind. -/
def failed (t : Guarded) (firewall : Firewall) : Guarded :=
  { t with firewall, failedFrom := some t.firewall.rules }

/-- An activation that did not. -/
def activated (t : Guarded) (firewall : Firewall) : Guarded :=
  { t with
    killSwitch := { t.killSwitch with active := true }
    firewall, failedFrom := none }

theorem truthful_activated {t : Guarded} {fw : Firewall} :
    Truthful p (t.activated fw) ↔ inForce p fw = true :=
  (truthful_iff_of_none rfl).trans eq_comm

theorem truthful_failed {t : Guarded} {fw : Firewall} (hinactive : t.killSwitch.active = false) :
    Truthful p (t.failed fw) ↔ inForce p fw = false ∧ NoMore t.firewall.rules fw.rules :=
  truthful_iff_of_some rfl hinactive

/-- What `activate` makes of an inactive switch. -/
theorem step_activate {t t' : Guarded} {outcomes : Outcomes}
    (hinactive : t.killSwitch.active = false) {result : Except KillSwitchError Unit} {fw : Firewall}
    (hplatform : activateOn p t.killSwitch.config outcomes t.firewall = (result, fw))
    (hstep : t.step p (.activate outcomes) = some t') :
    t' = match result with
      | .error _ => t.failed fw
      | .ok _ => t.activated fw := by
  unfold step at hstep
  split at hstep
  · cases hstep
  dsimp only at hstep
  rw [KillSwitch.activate, hinactive, if_neg (by decide), hplatform] at hstep
  cases result with
  | error e => exact (Option.some.inj hstep).symm
  | ok u => exact (Option.some.inj hstep).symm

theorem windows_activate {t t' : Guarded} {outcomes : Outcomes} (h : Truthful .windows t)
    (hinactive : t.killSwitch.active = false)
    (hstep : t.step .windows (.activate outcomes) = some t') :
    Truthful .windows t' ↔ Activates .windows t.killSwitch.config outcomes := by
  have hforce : t.firewall.blockOutbound = false := h.active.symm.trans hinactive
  obtain ⟨added, hrun, hnil⟩ := Firewall.runAll_addRules outcomes
    (allowCommands_eq t.killSwitch.config) 0 t.firewall
  simp only [Nat.zero_add] at hnil
  -- the policy command has not succeeded
  have hfailed : ∀ text, outcomes (allowCommands t.killSwitch.config).length ≠ .succeeded →
      activateWindows t.killSwitch.config outcomes t.firewall
        = (.error (.activateFailed text), { t.firewall with rules := t.firewall.rules ++ added }) →
      (Truthful .windows t' ↔ Activates .windows t.killSwitch.config outcomes) := by
    intro text hne hplatform
    rw [step_activate (p := .windows) hinactive hplatform hstep, truthful_failed hinactive,
      noMore_append_iff, hnil]
    constructor
    · exact fun h => Or.inr h.2
    · rintro (hsucc | hall)
      · exact absurd hsucc hne
      · exact ⟨hforce, hall⟩
  cases hpolicy : outcomes (allowCommands t.killSwitch.config).length with
  | notStarted error =>
      refine hfailed error (by rw [hpolicy]; exact fun h => nomatch h) ?_
      rw [activateWindows, hpolicy, hrun]
  | failed stderr =>
      refine hfailed stderr (by rw [hpolicy]; exact fun h => nomatch h) ?_
      rw [activateWindows, hpolicy, hrun]
  | succeeded =>
      have hplatform : activateWindows t.killSwitch.config outcomes t.firewall
          = (.ok (), (t.firewall.runAll outcomes 0 (allowCommands t.killSwitch.config)).effect
            (.setPolicy true)) := by rw [activateWindows, hpolicy]
      rw [step_activate (p := .windows) hinactive hplatform hstep, truthful_activated]
      exact iff_of_true rfl (Or.inl hpolicy)

theorem not_inForce_linux {t : Guarded} (hinv : Inv .linux t) :
    inForce .linux t.firewall = false := by
  unfold inForce
  by_contra hne
  rw [Bool.not_eq_false, List.contains_iff_mem] at hne
  exact hinv rfl chainLine hne

/-- The rules that are put together would do it, were they sent. -/
theorem inForce_linuxRules (config : KillSwitchConfig) (fw : Firewall) :
    inForce .linux (fw.effect (.nftLoad (linuxRules config))) = true := by
  have hmem : Rule.nft chainLine ∈ (linuxRules config).map Rule.nft := by
    refine List.mem_map_of_mem ?_
    simp only [linuxRules, List.cons_append, List.mem_cons, true_or, or_true]
  rw [inForce, List.contains_iff_mem]
  exact List.mem_append_right _ hmem

theorem linux_activate {t t' : Guarded} {outcomes : Outcomes} (hinv : Inv .linux t)
    (hinactive : t.killSwitch.active = false)
    (hstep : t.step .linux (.activate outcomes) = some t') :
    (Truthful .linux t' ↔ Activates .linux t.killSwitch.config outcomes) ∧ Inv .linux t' := by
  -- whatever `nft` makes of an empty input
  have hload : ∀ outcome, t.firewall.run (.nftLoad []) outcome = t.firewall := by
    intro outcome
    unfold Firewall.run
    split
    · rw [Firewall.effect, List.map_nil, List.append_nil]
    · rfl
  have hstarted : activateLinux outcomes t.firewall = (.ok (), t.firewall) →
      (¬ ∃ error, outcomes 0 = .notStarted error) →
      (Truthful .linux t' ↔ Activates .linux t.killSwitch.config outcomes) ∧ Inv .linux t' := by
    intro hplatform hnot
    rw [step_activate (p := .linux) hinactive hplatform hstep, truthful_activated,
      not_inForce_linux hinv]
    exact ⟨iff_of_false Bool.false_ne_true hnot, hinv⟩
  cases hnft : outcomes 0 with
  | notStarted error =>
      have hplatform : activateLinux outcomes t.firewall
          = (.error (.activateFailed error), t.firewall) := by rw [activateLinux, hnft]
      rw [step_activate (p := .linux) hinactive hplatform hstep, truthful_failed hinactive]
      exact ⟨iff_of_true ⟨not_inForce_linux hinv, fun r => Nat.le_refl _⟩ ⟨error, hnft⟩, hinv⟩
  | failed stderr =>
      refine hstarted ?_ (by rw [hnft]; exact fun ⟨_, h⟩ => nomatch h)
      rw [activateLinux, hnft]
      exact congrArg (Prod.mk _) (hload _)
  | succeeded =>
      refine hstarted ?_ (by rw [hnft]; exact fun ⟨_, h⟩ => nomatch h)
      rw [activateLinux, hnft]
      exact congrArg (Prod.mk _) (hload _)

theorem inForce_pfctlLoad (config : KillSwitchConfig) (fw : Firewall) :
    inForce .macos ((fw.effect (.writeRules (macosRules config))).effect .pfctlLoad) = true := by
  have hmem : Rule.pf blockLine ∈ (macosRules config).map Rule.pf := by
    refine List.mem_map_of_mem ?_
    simp only [macosRules, List.cons_append, List.mem_cons, true_or, or_true]
  unfold inForce
  simp only [Firewall.effect, Bool.true_and, List.contains_iff_mem]
  exact List.mem_append_right _ hmem

theorem macos_activate {t t' : Guarded} {outcomes : Outcomes} (h : Truthful .macos t)
    (hinactive : t.killSwitch.active = false)
    (hstep : t.step .macos (.activate outcomes) = some t') :
    Truthful .macos t' ↔ Activates .macos t.killSwitch.config outcomes := by
  have hforce : inForce .macos t.firewall = false := h.active.symm.trans hinactive
  have hfailed : ∀ text, outcomes 0 ≠ .succeeded →
      activateMacos t.killSwitch.config outcomes t.firewall
        = (.error (.activateFailed text), t.firewall) →
      (Truthful .macos t' ↔ Activates .macos t.killSwitch.config outcomes) := by
    intro text hne hplatform
    rw [step_activate (p := .macos) hinactive hplatform hstep, truthful_failed hinactive]
    exact iff_of_true ⟨hforce, fun r => Nat.le_refl _⟩ fun hsucc => absurd hsucc hne
  cases hwrite : outcomes 0 with
  | notStarted error =>
      refine hfailed error (by rw [hwrite]; exact fun h => nomatch h) ?_
      rw [activateMacos, hwrite]
  | failed error =>
      refine hfailed error (by rw [hwrite]; exact fun h => nomatch h) ?_
      rw [activateMacos, hwrite]
  | succeeded =>
      have hplatform : activateMacos t.killSwitch.config outcomes t.firewall
          = (.ok (), (t.firewall.effect (.writeRules (macosRules t.killSwitch.config))).run
            .pfctlLoad (outcomes 1)) := by rw [activateMacos, hwrite]
      rw [step_activate (p := .macos) hinactive hplatform hstep, truthful_activated, Firewall.run]
      by_cases hload : outcomes 1 = .succeeded
      · rw [if_pos hload]
        exact iff_of_true (inForce_pfctlLoad _ _) fun _ => hload
      · rw [if_neg hload]
        refine iff_of_false (fun hbad => ?_) fun hboth => hload (hboth hwrite)
        cases hforce.symm.trans hbad

theorem other_activate {t t' : Guarded} {outcomes : Outcomes}
    (hinactive : t.killSwitch.active = false)
    (hstep : t.step .other (.activate outcomes) = some t') :
    Truthful .other t' ↔ Activates .other t.killSwitch.config outcomes := by
  have hplatform : ((.ok (), t.firewall) : Except KillSwitchError Unit × Firewall)
      = (.ok (), t.firewall) := rfl
  rw [step_activate (p := .other) hinactive hplatform hstep, truthful_activated]
  exact iff_of_false Bool.false_ne_true id

/-- An active switch is taken down by what its first command does. -/
theorem inForce_deactivateOn {t : Guarded} (hinv : Inv p t) (h : Truthful p t)
    (hactive : t.killSwitch.active = true) (outcomes : Outcomes) :
    inForce p (deactivateOn p t.killSwitch.config outcomes t.firewall) = false
      ↔ outcomes 0 = .succeeded := by
  have hforce : inForce p t.firewall = true := h.active.symm.trans hactive
  cases p with
  | windows =>
      show (deactivateWindows t.killSwitch.config outcomes t.firewall).blockOutbound = false ↔ _
      rw [blockOutbound_deactivateWindows, show t.firewall.blockOutbound = true from hforce]
      split
      · exact iff_of_true rfl (by assumption)
      · exact iff_of_false (fun h => nomatch h) (by assumption)
  | linux => cases (not_inForce_linux hinv).symm.trans hforce
  | macos =>
      show inForce .macos (deactivateMacos outcomes t.firewall) = false ↔ _
      rw [inForce_deactivateMacos, hforce]
      split
      · exact iff_of_true rfl (by assumption)
      · exact iff_of_false (fun h => nomatch h) (by assumption)
  | other => cases hforce

theorem inv_deactivateOn {t : Guarded} (hinv : Inv p t) (config : KillSwitchConfig)
    (outcomes : Outcomes) (hp : p = .linux) (line : String) :
    Rule.nft line ∉ (deactivateOn p config outcomes t.firewall).rules := by
  subst hp
  show Rule.nft line ∉ (t.firewall.run .nftDeleteTable (outcomes 0)).rules
  unfold Firewall.run
  split
  · exact fun hmem => hinv rfl line (List.mem_of_mem_filter hmem)
  · exact hinv rfl line

/-! ## The steps -/

theorem activate_truthful {t t' : Guarded} {outcomes : Outcomes} (hinv : Inv p t)
    (h : Truthful p t) (hstep : t.step p (.activate outcomes) = some t') :
    (Truthful p t' ↔ t.Careful p (.activate outcomes)) ∧ (Truthful p t' → Inv p t') := by
  cases hactive : t.killSwitch.active with
  | true =>
      unfold step at hstep
      split at hstep
      · cases hstep
      dsimp only at hstep
      rw [KillSwitch.activate, if_pos hactive] at hstep
      obtain rfl := Option.some.inj hstep
      have htruthful := (truthful_iff_of_none (p := p) (t := { t with failedFrom := none }) rfl).mpr
        h.active
      refine ⟨iff_of_true htruthful fun hinactive => ?_, fun _ => hinv⟩
      cases hactive.symm.trans hinactive
  | false =>
      have hcareful : t.Careful p (.activate outcomes)
          ↔ Activates p t.killSwitch.config outcomes := ⟨fun h => h hactive, fun h _ => h⟩
      rw [hcareful]
      cases p with
      | windows => exact ⟨windows_activate h hactive hstep, fun _ hp => nomatch hp⟩
      | linux =>
          have hboth := linux_activate hinv hactive hstep
          exact ⟨hboth.1, fun _ => hboth.2⟩
      | macos => exact ⟨macos_activate h hactive hstep, fun _ hp => nomatch hp⟩
      | other => exact ⟨other_activate hactive hstep, fun _ hp => nomatch hp⟩

/-- What `deactivate` and `drop` come to. -/
theorem takenDown_truthful {t : Guarded} (hinv : Inv p t) (h : Truthful p t) (outcomes : Outcomes)
    (t' : Guarded) (hfailed : t'.failedFrom = none)
    (heq : (t'.killSwitch, t'.firewall) = t.killSwitch.deactivate p outcomes t.firewall) :
    (Truthful p t' ↔ (t.killSwitch.active = true → outcomes 0 = .succeeded)) ∧ Inv p t' := by
  rw [truthful_iff_of_none hfailed]
  cases hactive : t.killSwitch.active with
  | false =>
      rw [KillSwitch.deactivate, hactive] at heq
      obtain ⟨hks, hfw⟩ := Prod.mk.inj heq
      rw [hks, hfw, Inv, hfw]
      exact ⟨iff_of_true h.active (fun hbad => nomatch hbad), hinv⟩
  | true =>
      rw [KillSwitch.deactivate, hactive] at heq
      obtain ⟨hks, hfw⟩ := Prod.mk.inj heq
      rw [hks, hfw, Inv, hfw]
      have hdown := inForce_deactivateOn hinv h hactive outcomes
      refine ⟨?_, fun hp line => inv_deactivateOn hinv _ outcomes hp line⟩
      rw [KillSwitch.isActive, eq_comm, hdown]
      exact ⟨fun h _ => h, fun h => h rfl⟩

theorem step_truthful {t t' : Guarded} {e : Event} (hinv : Inv p t) (h : Truthful p t)
    (hstep : t.step p e = some t') :
    (Truthful p t' ↔ t.Careful p e) ∧ (Truthful p t' → Inv p t') := by
  cases e with
  | activate outcomes => exact activate_truthful hinv h hstep
  | deactivate outcomes =>
      unfold step at hstep
      split at hstep
      · cases hstep
      dsimp only at hstep
      have hboth := takenDown_truthful hinv h outcomes t' (by rw [← Option.some.inj hstep])
        (by rw [← Option.some.inj hstep])
      exact ⟨hboth.1, fun _ => hboth.2⟩
  | drop outcomes =>
      unfold step at hstep
      split at hstep
      · cases hstep
      have hdrop : t.killSwitch.drop p outcomes t.firewall
          = t.killSwitch.deactivate p outcomes t.firewall := by
        unfold KillSwitch.drop KillSwitch.deactivate
        cases t.killSwitch.active with
        | true => rfl
        | false => rfl
      dsimp only at hstep
      rw [hdrop] at hstep
      have hboth := takenDown_truthful hinv h outcomes t' (by rw [← Option.some.inj hstep])
        (by rw [← Option.some.inj hstep])
      exact ⟨hboth.1, fun _ => hboth.2⟩

/-- The flag tells whether traffic is blocked, and a failed activation
leaves nothing behind, exactly as far as the commands that the source does
not look at do what it takes them to have done. -/
theorem truthful_iff (p : Platform) (config : KillSwitchConfig) (events : List Event) :
    Always (step p) (Truthful p) (start config) events
      ↔ Meets (step p) (Careful p) (start config) events := by
  refine always_iff_meets (I := Inv p)
    (fun _ _ _ hinv h hstep => step_truthful hinv h hstep) ?_ ?_
  · intro hp line hmem
    cases hmem
  · refine (truthful_iff_of_none rfl).mpr ?_
    cases p with
    | windows => rfl
    | linux => rfl
    | macos => rfl
    | other => rfl

/-! ## Runs that come out wrong -/

/-- The first `n` commands of a call succeed. -/
def firstSucceed (n : Nat) : Outcomes := fun i => if i < n then .succeeded else .failed ""

def sampleConfig : KillSwitchConfig where
  allowedIps := ["203.0.113.7"]
  allowLan := false
  allowLoopback := true

/-- Everything succeeds on Linux, and nothing is blocked. On Windows the
allow rules are added and the policy command fails: they stay. On macOS
the rules are written and `pfctl` fails: the switch says it is active. And
on Windows a switch whose policy command fails on the way down says it is
not, and is never taken down again. -/
theorem killSwitch_untruthful :
    ¬ Always (step .linux) (Truthful .linux) (start sampleConfig) [.activate granted]
      ∧ ¬ Always (step .windows) (Truthful .windows) (start sampleConfig)
        [.activate (firstSucceed 4)]
      ∧ ¬ Always (step .macos) (Truthful .macos) (start sampleConfig)
        [.activate (firstSucceed 1)]
      ∧ ¬ Always (step .windows) (Truthful .windows) (start sampleConfig)
        [.activate granted, .deactivate (firstSucceed 0), .drop granted] := by
  refine ⟨fun h => ?_, fun h => ?_, fun h => ?_, fun h => ?_⟩
  · exact absurd (h.2 _ rfl).active (by decide)
  · have hmore := (h.2 _ rfl).deactivate [] rfl
      (.netsh "KanrinKillSwitch_tun"
        ["dir=out", "action=allow", "remoteip=any", "localip=10.10.0.0/24", "enable=yes"])
    exact absurd hmore (by decide)
  · exact absurd (h.2 _ rfl).active (by decide)
  · exact absurd ((h.2 _ rfl).2 _ rfl).1.active (by decide)

end Guarded

end Kanrin
