import Mathlib.Algebra.BigOperators.Ring.Finset
import Mathlib.Algebra.Order.BigOperators.Group.Finset
import Mathlib.Algebra.Order.Field.Basic
import Mathlib.Data.List.MinMax
import Mathlib.Tactic.Linarith
import Mathlib.Tactic.Ring

/-!
# Sharing out by credit

Each of finitely many takers has a credit. In a round everybody's credit
grows by a fixed share, the shares adding up to one, and then a taker whose
credit is greatest spends one. What a round keeps is that the credits add up
to nothing and each is above -1 (`BalancedCredits.spend`); so none is above the
number of the others (`BalancedCredits.le`), however many rounds there are.
-/

namespace Lib

variable {ι K : Type*} [Field K] [LinearOrder K] [IsStrictOrderedRing K]

/-- The credits after a round in which `j` is chosen. -/
def spend [DecidableEq ι] (share credit : ι → K) (j : ι) : ι → K :=
  fun i => credit i + share i - if i = j then 1 else 0

structure BalancedCredits (s : Finset ι) (credit : ι → K) : Prop where
  sum : ∑ i ∈ s, credit i = 0
  lower : ∀ i ∈ s, -1 < credit i

variable {s : Finset ι} {share credit : ι → K} {j : ι}

theorem balancedCredits_zero (s : Finset ι) : BalancedCredits s fun _ : ι => (0 : K) where
  sum := Finset.sum_const_zero
  lower _ _ := by linarith [zero_lt_one (α := K)]

omit [IsStrictOrderedRing K] in
theorem BalancedCredits.congr {credit' : ι → K} (h : BalancedCredits s credit)
    (heq : ∀ i ∈ s, credit' i = credit i) : BalancedCredits s credit' where
  sum := (Finset.sum_congr rfl heq).trans h.sum
  lower i hi := (h.lower i hi).trans_eq (heq i hi).symm

/-- The greatest credit is positive once the shares have been added. -/
theorem BalancedCredits.pos_of_max (h : BalancedCredits s credit) (hshare : ∑ i ∈ s, share i = 1)
    (hmax : ∀ i ∈ s, credit i + share i ≤ credit j + share j) : 0 < credit j + share j := by
  by_contra hle
  have hsum : ∑ i ∈ s, (credit i + share i) ≤ 0 :=
    Finset.sum_nonpos fun i hi => (hmax i hi).trans (not_lt.mp hle)
  rw [Finset.sum_add_distrib, h.sum, hshare] at hsum
  linarith [zero_lt_one (α := K)]

theorem BalancedCredits.spend [DecidableEq ι] (h : BalancedCredits s credit)
    (hshare : ∑ i ∈ s, share i = 1) (hpos : ∀ i ∈ s, 0 ≤ share i) (hj : j ∈ s)
    (hmax : ∀ i ∈ s, credit i + share i ≤ credit j + share j) :
    BalancedCredits s (spend share credit j) := by
  constructor
  · have hone : ∑ i ∈ s, (if i = j then (1 : K) else 0) = 1 := by
      rw [Finset.sum_ite_eq' s j fun _ => (1 : K), if_pos hj]
    simp only [Lib.spend]
    rw [Finset.sum_sub_distrib, Finset.sum_add_distrib, h.sum, hshare, hone]
    ring
  · intro i hi
    unfold Lib.spend
    split
    · rename_i hij
      have hgreat := h.pos_of_max hshare hmax
      rw [← hij] at hgreat
      linarith
    · have hlow := h.lower i hi
      have hadd := hpos i hi
      linarith

/-- The others owe less than one each. -/
theorem BalancedCredits.le [DecidableEq ι] (h : BalancedCredits s credit) (hj : j ∈ s) :
    credit j ≤ s.card - 1 := by
  have hsplit : credit j + ∑ i ∈ s.erase j, credit i = 0 := by
    rw [Finset.add_sum_erase s credit hj, h.sum]
  have hothers : -((s.erase j).card : K) ≤ ∑ i ∈ s.erase j, credit i := by
    calc -((s.erase j).card : K) = ∑ _i ∈ s.erase j, (-1 : K) := by
          rw [Finset.sum_const, nsmul_eq_mul, mul_neg, mul_one]
      _ ≤ ∑ i ∈ s.erase j, credit i :=
          Finset.sum_le_sum fun i hi => (h.lower i (Finset.mem_of_mem_erase hi)).le
  have hcard : ((s.erase j).card : K) = s.card - 1 := by
    rw [Finset.card_erase_of_mem hj, Nat.cast_sub (Finset.card_pos.mpr ⟨j, hj⟩), Nat.cast_one]
  linarith

/-! ## The last of the greatest -/

/-- `max_by`: of several greatest elements the last. -/
def maxBy {α κ : Type*} [LinearOrder κ] (key : α → κ) (l : List α) : Option α :=
  l.reverse.argmax key

section MaxBy

variable {α κ : Type*} [LinearOrder κ] {key : α → κ} {l : List α} {a : α}

theorem maxBy_eq_none : maxBy key l = none ↔ l = [] := by
  rw [maxBy, List.argmax_eq_none, List.reverse_eq_nil_iff]

theorem mem_of_maxBy (h : maxBy key l = some a) : a ∈ l :=
  List.mem_reverse.mp (List.argmax_mem h)

theorem le_of_maxBy (h : maxBy key l = some a) : ∀ b ∈ l, key b ≤ key a := fun _ hb =>
  List.le_of_mem_argmax (List.mem_reverse.mpr hb) h

end MaxBy

end Lib
