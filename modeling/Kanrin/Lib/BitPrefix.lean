import Mathlib.Algebra.Ring.Nat
import Mathlib.Order.Bounds.Defs

/-!
# Words that share their first bits

`AgreeOn p a b`: the words `a` and `b` have their first `p` bits in common.
The words that have them in common with `a` are those that a mask does not
tell from `a` (`and_prefixMask_eq_iff`), and those between a first and a
last one (`agreeOn_iff_between`). Of two such sets that meet, one is inside
the other (`AgreeOn.widen`).
-/

namespace Lib

variable {w p q : Nat} {a b c x : BitVec w}

/-! ## Agreement -/

/-- The first `p` bits of two words agree, or all bits if there are fewer. -/
def AgreeOn (p : Nat) (a b : BitVec w) : Prop :=
  ∀ i < min p w, a.getMsbD i = b.getMsbD i

instance : Decidable (AgreeOn p a b) :=
  inferInstanceAs (Decidable (∀ i < min p w, a.getMsbD i = b.getMsbD i))

theorem AgreeOn.refl (p : Nat) (a : BitVec w) : AgreeOn p a a := fun _ _ => rfl

theorem AgreeOn.symm (h : AgreeOn p a b) : AgreeOn p b a := fun i hi => (h i hi).symm

theorem AgreeOn.trans (hab : AgreeOn p a b) (hbc : AgreeOn p b c) : AgreeOn p a c :=
  fun i hi => (hab i hi).trans (hbc i hi)

theorem AgreeOn.mono (hpq : p ≤ q) (h : AgreeOn q a b) : AgreeOn p a b :=
  fun i hi => h i (by omega)

/-- Of two words that agree with a third, one takes the prefix of the other
as far as the shorter of the two goes. -/
theorem AgreeOn.widen (hpq : p ≤ q) (ha : AgreeOn p a x) (hb : AgreeOn q b x) : AgreeOn p a b :=
  ha.trans (hb.mono hpq).symm

/-! ## The mask -/

/-- Ones in the first `p` bits. -/
def prefixMask (w p : Nat) : BitVec w := BitVec.allOnes w <<< (w - p)

theorem getMsbD_prefixMask (i : Nat) :
    (prefixMask w p).getMsbD i = decide (i < min p w) := by
  rw [prefixMask, BitVec.getMsbD_shiftLeft, BitVec.getMsbD_allOnes]
  refine decide_eq_decide.mpr ?_
  omega

/-- The mask keeps the prefix and nothing else. -/
theorem and_prefixMask_eq_iff : a &&& prefixMask w p = b &&& prefixMask w p ↔ AgreeOn p a b := by
  constructor
  · intro h i hi
    have hbit := congrArg (BitVec.getMsbD · i) h
    simpa only [BitVec.getMsbD_and, getMsbD_prefixMask, hi, decide_true, Bool.and_true] using hbit
  · intro h
    refine BitVec.eq_of_getMsbD_eq fun i _ => ?_
    rw [BitVec.getMsbD_and, BitVec.getMsbD_and, getMsbD_prefixMask]
    by_cases hi : i < min p w
    · rw [h i hi]
    · rw [decide_eq_false hi, Bool.and_false, Bool.and_false]

/-! ## First and last -/

/-- The first word with the prefix of `a`. -/
def firstWith (p : Nat) (a : BitVec w) : BitVec w := a &&& prefixMask w p

/-- The last word with the prefix of `a`. -/
def lastWith (p : Nat) (a : BitVec w) : BitVec w := firstWith p a ||| ~~~prefixMask w p

theorem agreeOn_firstWith (p : Nat) (a : BitVec w) : AgreeOn p a (firstWith p a) := by
  intro i hi
  rw [firstWith, BitVec.getMsbD_and, getMsbD_prefixMask, decide_eq_true hi, Bool.and_true]

theorem agreeOn_lastWith (p : Nat) (a : BitVec w) : AgreeOn p a (lastWith p a) := by
  intro i hi
  rw [lastWith, BitVec.getMsbD_or, ← agreeOn_firstWith p a i hi, BitVec.getMsbD_not,
    getMsbD_prefixMask, decide_eq_true hi, Bool.not_true, Bool.and_false, Bool.or_false]

theorem firstWith_eq_iff : firstWith p a = firstWith p b ↔ AgreeOn p a b :=
  and_prefixMask_eq_iff

/-- Agreement is equality of what is left when the other bits are shifted out. -/
theorem agreeOn_iff_div :
    AgreeOn p a b ↔ a.toNat / 2 ^ (w - p) = b.toNat / 2 ^ (w - p) := by
  rw [← Nat.shiftRight_eq_div_pow, ← Nat.shiftRight_eq_div_pow, ← BitVec.toNat_ushiftRight,
    ← BitVec.toNat_ushiftRight, BitVec.toNat_inj]
  constructor
  · intro h
    refine BitVec.eq_of_getMsbD_eq fun i hi => ?_
    rw [BitVec.getMsbD_ushiftRight, BitVec.getMsbD_ushiftRight]
    by_cases hlow : i < w - p
    · simp [hlow]
    · rw [h (i - (w - p)) (by omega)]
  · intro h i hi
    have hbit := congrArg (BitVec.getMsbD · (i + (w - p))) h
    have hin : i + (w - p) < w := by omega
    have hnot : ¬ i + (w - p) < w - p := by omega
    simpa [BitVec.getMsbD_ushiftRight, hin, hnot] using hbit

theorem firstWith_le (h : AgreeOn p a x) : firstWith p a ≤ x := by
  rw [firstWith_eq_iff.mpr h, BitVec.le_def, firstWith, BitVec.toNat_and]
  exact Nat.and_le_left

theorem le_lastWith (h : AgreeOn p a x) : x ≤ lastWith p a := by
  have hor : lastWith p a = x ||| ~~~prefixMask w p := by
    rw [lastWith, firstWith_eq_iff.mpr h, firstWith]
    refine BitVec.eq_of_getMsbD_eq fun i _ => ?_
    simp only [BitVec.getMsbD_or, BitVec.getMsbD_and, BitVec.getMsbD_not]
    grind
  rw [hor, BitVec.le_def, BitVec.toNat_or]
  exact Nat.left_le_or

/-- The words with the prefix of `a` are those between the first and the last of them. -/
theorem agreeOn_iff_between : AgreeOn p a x ↔ firstWith p a ≤ x ∧ x ≤ lastWith p a := by
  refine ⟨fun h => ⟨firstWith_le h, le_lastWith h⟩, fun ⟨hfirst, hlast⟩ => ?_⟩
  rw [BitVec.le_def] at hfirst hlast
  refine agreeOn_iff_div.mpr (Nat.le_antisymm ?_ ?_)
  · rw [agreeOn_iff_div.mp (agreeOn_firstWith p a)]
    exact Nat.div_le_div_right hfirst
  · rw [agreeOn_iff_div.mp (agreeOn_lastWith p a)]
    exact Nat.div_le_div_right hlast

theorem isLeast_firstWith (p : Nat) (a : BitVec w) : IsLeast {x | AgreeOn p a x} (firstWith p a) :=
  ⟨agreeOn_firstWith p a, fun _ => firstWith_le⟩

theorem isGreatest_lastWith (p : Nat) (a : BitVec w) :
    IsGreatest {x | AgreeOn p a x} (lastWith p a) :=
  ⟨agreeOn_lastWith p a, fun _ => le_lastWith⟩

/-! ## Sets with a common prefix -/

/-- The longer prefix of two that agree has the later first word. -/
theorem firstWith_le_firstWith (hpq : p ≤ q) (h : AgreeOn p a b) :
    firstWith p a ≤ firstWith q b :=
  firstWith_le (h.trans ((agreeOn_firstWith q b).mono hpq))

/-- Prefixes with the same first word agree as far as the shorter of them goes. -/
theorem agreeOn_of_firstWith_eq (hpq : p ≤ q) (h : firstWith p a = firstWith q b) :
    AgreeOn p a b :=
  (agreeOn_firstWith p a).widen hpq (h ▸ agreeOn_firstWith q b)

end Lib
