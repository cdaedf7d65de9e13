import Kanrin.Lib.Credits

/-!
# Sharing out when the shares change

The rounds of `Kanrin.Lib.Credits`, but the shares are other ones in every
round, and only those that have one may be chosen. A taker that is passed over
for a while keeps its credit, so the others can be as far behind as it is
ahead; what a round keeps is a bound on the credit of every set of takers
(`FairCredits.spend`). It leaves each of them between the number of the others
and its negative (`FairCredits.abs_le_card`), however many rounds there are and
whatever the shares.
-/

namespace Lib

variable {ι K : Type*} [Field K] [LinearOrder K] [IsStrictOrderedRing K]

/-- No `k` of `n` takers are owed more than `k * (n - k)` together. -/
structure FairCredits (s : Finset ι) (credit : ι → K) : Prop where
  sum : ∑ i ∈ s, credit i = 0
  bound : ∀ t ⊆ s, ∑ i ∈ t, credit i ≤ t.card * (s.card - t.card)

variable {s : Finset ι} {share credit : ι → K} {j : ι}

theorem fairCredits_zero (s : Finset ι) : FairCredits s fun _ : ι => (0 : K) where
  sum := Finset.sum_const_zero
  bound t ht := by
    rw [Finset.sum_const_zero]
    have hcard : (t.card : K) ≤ s.card := Nat.cast_le.mpr (Finset.card_le_card ht)
    exact mul_nonneg (Nat.cast_nonneg _) (sub_nonneg.mpr hcard)

omit [IsStrictOrderedRing K] in
theorem FairCredits.congr {credit' : ι → K} (h : FairCredits s credit)
    (heq : ∀ i ∈ s, credit' i = credit i) : FairCredits s credit' where
  sum := (Finset.sum_congr rfl heq).trans h.sum
  bound t ht := (Finset.sum_congr rfl fun i hi => heq i (ht hi)).trans_le (h.bound t ht)

section
variable [DecidableEq ι]

/-- One more taker, that nothing is owed to. -/
theorem FairCredits.insert (h : FairCredits s credit) (hj : j ∉ s) (hzero : credit j = 0) :
    FairCredits (insert j s) credit where
  sum := by rw [Finset.sum_insert hj, hzero, h.sum, add_zero]
  bound t ht := by
    have hsub : t.erase j ⊆ s := fun i hi =>
      (Finset.mem_insert.mp (ht (Finset.mem_of_mem_erase hi))).resolve_left
        (Finset.ne_of_mem_erase hi)
    have hbound := h.bound _ hsub
    have hfew : ((t.erase j).card : K) ≤ s.card := Nat.cast_le.mpr (Finset.card_le_card hsub)
    have hnonneg : (0 : K) ≤ (t.erase j).card := Nat.cast_nonneg _
    rw [Finset.sum_erase t hzero] at hbound
    rw [Finset.card_insert_of_notMem hj, Nat.cast_add, Nat.cast_one]
    by_cases hmem : j ∈ t
    · have hcard : (t.card : K) = (t.erase j).card + 1 := by
        exact_mod_cast (Finset.card_erase_add_one hmem).symm
      rw [hcard]
      linarith
    · rw [Finset.erase_eq_of_notMem hmem] at hbound hnonneg
      linarith

/-- A set of takers that is passed over, though one of them was asked, is
owed no more than what is allowed between one more and one less of them. -/
theorem FairCredits.passed_over (h : FairCredits s credit) (hsum : ∑ i ∈ s, share i = 1)
    (hpos : ∀ i ∈ s, 0 ≤ share i) {t : Finset ι} (ht : t ⊆ s) (hj : j ∈ s) (hout : j ∉ t) {i : ι}
    (hi : i ∈ t) (hmax : credit i + share i ≤ credit j + share j) :
    ∑ k ∈ t, (credit k + share k) ≤ t.card * (s.card - t.card) := by
  have htop : ∀ u ⊆ s, ∑ k ∈ u, (credit k + share k) ≤ u.card * (s.card - u.card) + 1 := by
    intro u hu
    rw [Finset.sum_add_distrib, ← hsum]
    exact add_le_add (h.bound u hu)
      (Finset.sum_le_sum_of_subset_of_nonneg hu fun k hk _ => hpos k hk)
  have hmore := htop _ (Finset.insert_subset hj ht)
  have hless := htop _ ((Finset.erase_subset i t).trans ht)
  have hcard : ((t.erase i).card : K) + 1 = t.card := by
    exact_mod_cast Finset.card_erase_add_one hi
  have hsplit := Finset.add_sum_erase t (fun k => credit k + share k) hi
  rw [Finset.sum_insert hout, Finset.card_insert_of_notMem hout, Nat.cast_add, Nat.cast_one] at hmore
  have hone : ((t.erase i).card : K) = t.card - 1 := by linarith
  rw [hone] at hless
  linarith

theorem FairCredits.spend (h : FairCredits s credit) (hsum : ∑ i ∈ s, share i = 1)
    (hpos : ∀ i ∈ s, 0 ≤ share i) (hj : j ∈ s)
    (hmax : ∀ i ∈ s, 0 < share i → credit i + share i ≤ credit j + share j) :
    FairCredits s (spend share credit j) := by
  have hspent : ∀ t : Finset ι, ∑ i ∈ t, Lib.spend share credit j i
      = ∑ i ∈ t, (credit i + share i) - if j ∈ t then 1 else 0 := by
    intro t
    simp only [Lib.spend]
    rw [Finset.sum_sub_distrib, Finset.sum_ite_eq' t j fun _ => (1 : K)]
  constructor
  · rw [hspent, if_pos hj, Finset.sum_add_distrib, h.sum, hsum, zero_add, sub_self]
  · intro t ht
    rw [hspent]
    by_cases hmem : j ∈ t
    · -- the round takes away at least what it adds
      have hadd : ∑ i ∈ t, share i ≤ 1 := hsum ▸
        Finset.sum_le_sum_of_subset_of_nonneg ht fun i hi _ => hpos i hi
      have hbound := h.bound t ht
      rw [if_pos hmem, Finset.sum_add_distrib]
      linarith
    · rw [if_neg hmem, sub_zero]
      by_cases hasked : ∃ i ∈ t, 0 < share i
      · obtain ⟨i, hi, hshare⟩ := hasked
        exact h.passed_over hsum hpos ht hj hmem hi (hmax i (ht hi) hshare)
      · have hnone : ∑ i ∈ t, share i = 0 := Finset.sum_eq_zero fun i hi =>
          le_antisymm (not_lt.mp fun hlt => hasked ⟨i, hi, hlt⟩) (hpos i (ht hi))
        rw [Finset.sum_add_distrib, hnone, add_zero]
        exact h.bound t ht

theorem FairCredits.abs_le_card (h : FairCredits s credit) (hj : j ∈ s) :
    |credit j| ≤ s.card - 1 := by
  have hcard : ((s.erase j).card : K) = s.card - 1 := by
    rw [Finset.card_erase_of_mem hj, Nat.cast_sub (Finset.card_pos.mpr ⟨j, hj⟩), Nat.cast_one]
  have habove := h.bound {j} (Finset.singleton_subset_iff.mpr hj)
  have hothers := h.bound _ (Finset.erase_subset j s)
  have hsplit := Finset.add_sum_erase s credit hj
  rw [Finset.sum_singleton, Finset.card_singleton, Nat.cast_one, one_mul] at habove
  rw [hcard, sub_sub_cancel, mul_one] at hothers
  rw [h.sum] at hsplit
  exact abs_le.mpr ⟨by linarith, habove⟩

end

end Lib
