import Kanrin.SendBuffer

/-!
# When to switch

The policy half of `kanrin-client/src/switch.rs`. Durations and clock
readings are nanoseconds; a reading is an argument.
-/

namespace Kanrin

open Lib

def baseCooldown : Nat := 5 * 10 ^ 9

def maxCooldown : Nat := 120 * 10 ^ 9

/-- A switch is repeated if it follows the previous one within this window. -/
def flapWindow : Nat := 60 * 10 ^ 9

inductive SwitchReason where
  | linkSilent
  | transportError (e : String)
  | betterPathAvailable (path : String)
deriving DecidableEq, Repr

/-- The transport is unusable, not only worse than another. -/
def SwitchReason.isFailure : SwitchReason → Bool
  | .linkSilent | .transportError _ => true
  | .betterPathAvailable _ => false

structure SwitchPolicy where
  lastSwitch : Option Nat
  consecutive : UInt32
  baseCooldown : Nat
  maxCooldown : Nat
  flapWindow : Nat
deriving DecidableEq

namespace SwitchPolicy

def withTiming (baseCooldown maxCooldown flapWindow : Nat) : SwitchPolicy where
  lastSwitch := none
  consecutive := 0
  baseCooldown
  maxCooldown
  flapWindow

def new : SwitchPolicy where
  lastSwitch := none
  consecutive := 0
  baseCooldown := Kanrin.baseCooldown
  maxCooldown := Kanrin.maxCooldown
  flapWindow := Kanrin.flapWindow

/-- Doubles with each consecutive switch, up to a cap. -/
def cooldown (p : SwitchPolicy) : Nat :=
  min (p.baseCooldown * 2 ^ min p.consecutive.toNat 16) p.maxCooldown

def allows (p : SwitchPolicy) (reason : SwitchReason) (now : Nat) : Bool :=
  if reason.isFailure then true
  else
    match p.lastSwitch with
    | none => true
    | some last => decide (now - last ≥ p.cooldown)

def record (p : SwitchPolicy) (now : Nat) : SwitchPolicy :=
  let flapping := p.lastSwitch.any fun last => decide (now - last < p.flapWindow)
  { p with consecutive := if flapping then p.consecutive + 1 else 0, lastSwitch := some now }

end SwitchPolicy

end Kanrin
