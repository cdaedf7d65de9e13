import Mathlib.Algebra.Ring.Nat

/-!
# Builds

A program is built with overflow checks or without. With them an operation
that overflows is a panic, without them it wraps.
-/

namespace Kanrin

/-- Whether the program is built with overflow checks. -/
inductive Build where
  | checked
  | wrapping
deriving DecidableEq

/-- `+` of two `usize`; `none` is a panic. -/
def Build.add : Build → Nat → Nat → Option Nat
  | .checked, a, b => if a + b < 2 ^ 64 then some (a + b) else none
  | .wrapping, a, b => some ((a + b) % 2 ^ 64)

/-- `<<` of an unsigned word; `none` is a panic. What wraps is the amount. -/
def Build.shl {w : Nat} : Build → BitVec w → Nat → Option (BitVec w)
  | .checked, a, n => if n < w then some (a <<< n) else none
  | .wrapping, a, n => some (a <<< (n % w))

theorem Build.shl_of_lt {w n : Nat} (build : Build) (a : BitVec w) (h : n < w) :
    build.shl a n = some (a <<< n) := by
  cases build with
  | checked => exact if_pos h
  | wrapping => rw [shl, Nat.mod_eq_of_lt h]

/-- A shift by the whole width is no shift. -/
theorem Build.wrapping_shl_width {w : Nat} (a : BitVec w) :
    Build.wrapping.shl a w = some a := by
  rw [shl, Nat.mod_self, BitVec.shiftLeft_zero]

end Kanrin
