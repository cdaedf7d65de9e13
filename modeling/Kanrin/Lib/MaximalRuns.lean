import Mathlib.Order.Interval.Set.Basic
import Mathlib.Order.Cover
import Mathlib.Data.Set.Card
import Mathlib.Data.List.Pairwise

/-!
# Maximal runs of a set

A set over a linear order falls into maximal runs: the intervals it
contains that no larger interval it contains extends. `MaximalRun` says
that of one interval, and `InLowestRuns n` that a point lies in a run with
fewer than `n` runs below it.

For a finite set given as an ascending list, `runsFrom` computes the runs
in one pass that only ever looks at the last run it built. `mem_runsFrom`
is its correctness, and `inLowestRuns_iff` reads the first `n` runs of the
list as the `n` lowest runs of the set.

Intervals with a missing point between neighbours (`Separated`) are the
maximal runs of their points, and so determined by them.
-/

namespace Lib

universe u

variable {α : Type u} [LinearOrder α]

/-- `[a, b]` lies in `S` and no larger interval around it does. -/
structure MaximalRun (S : Set α) (a b : α) : Prop where
  le : a ≤ b
  subset : Set.Icc a b ⊆ S
  maximal : ∀ c d, c ≤ a → b ≤ d → Set.Icc c d ⊆ S → c = a ∧ d = b

/-- `s` lies in a maximal run of `S` that has fewer than `n` runs below it. -/
def InLowestRuns (n : Nat) (S : Set α) (s : α) : Prop :=
  ∃ a b, MaximalRun S a b ∧ s ∈ Set.Icc a b
    ∧ { p : α × α | MaximalRun S p.1 p.2 ∧ p.2 < a }.encard < n

/-! ## Runs of a set -/

theorem maximalRun_Icc {a b : α} (hab : a ≤ b) {c d : α} :
    MaximalRun (Set.Icc a b) c d ↔ c = a ∧ d = b := by
  constructor
  · intro h
    have hc := h.subset (Set.left_mem_Icc.mpr h.le)
    have hd := h.subset (Set.right_mem_Icc.mpr h.le)
    obtain ⟨h1, h2⟩ := h.maximal a b hc.1 hd.2 le_rfl
    exact ⟨h1.symm, h2.symm⟩
  · rintro ⟨rfl, rfl⟩
    refine ⟨hab, le_rfl, fun c' d' hc' hd' hsub => ?_⟩
    have hle : c' ≤ d' := hc'.trans (hab.trans hd')
    exact ⟨le_antisymm hc' (hsub (Set.left_mem_Icc.mpr hle)).1,
      le_antisymm (hsub (Set.right_mem_Icc.mpr hle)).2 hd'⟩

/-- An interval inside two sets on either side of a missing point lies in
one of them. -/
theorem Icc_subset_union {A B : Set α} {m : α} (hA : ∀ x ∈ A, x < m) (hB : ∀ x ∈ B, m < x)
    {a b : α} (h : Set.Icc a b ⊆ A ∪ B) : Set.Icc a b ⊆ A ∨ Set.Icc a b ⊆ B := by
  have hm : m ∉ Set.Icc a b := fun hm => by
    rcases h hm with hm | hm
    · exact lt_irrefl _ (hA m hm)
    · exact lt_irrefl _ (hB m hm)
  by_cases hbm : b < m
  · refine Or.inl fun x hx => (h hx).resolve_right ?_
    intro hxB
    exact absurd (hB x hxB) (not_lt.mpr (hx.2.trans hbm.le))
  · refine Or.inr fun x hx => (h hx).resolve_left ?_
    intro hxA
    exact hm ⟨hx.1.trans (hA x hxA).le, not_lt.mp hbm⟩

theorem MaximalRun.of_union {A B : Set α} {a b : α} (h : MaximalRun (A ∪ B) a b)
    (hsub : Set.Icc a b ⊆ A) : MaximalRun A a b :=
  ⟨h.le, hsub, fun c d hc hd hcd => h.maximal c d hc hd (hcd.trans Set.subset_union_left)⟩

theorem MaximalRun.union {A B : Set α} {m : α} (hA : ∀ x ∈ A, x < m) (hB : ∀ x ∈ B, m < x)
    {a b : α} (h : MaximalRun A a b) : MaximalRun (A ∪ B) a b := by
  refine ⟨h.le, h.subset.trans Set.subset_union_left, fun c d hc hd hcd => ?_⟩
  rcases Icc_subset_union hA hB hcd with hcd | hcd
  · exact h.maximal c d hc hd hcd
  · have hin : a ∈ Set.Icc c d := ⟨hc, h.le.trans hd⟩
    exact absurd ((hA a (h.subset (Set.left_mem_Icc.mpr h.le))).trans (hB a (hcd hin)))
      (lt_irrefl a)

/-- The runs of two sets on either side of a missing point are the runs of
each. -/
theorem maximalRun_union {A B : Set α} {m : α} (hA : ∀ x ∈ A, x < m) (hB : ∀ x ∈ B, m < x)
    {a b : α} : MaximalRun (A ∪ B) a b ↔ MaximalRun A a b ∨ MaximalRun B a b := by
  constructor
  · intro h
    rcases Icc_subset_union hA hB h.subset with hsub | hsub
    · exact Or.inl (h.of_union hsub)
    · rw [Set.union_comm] at h
      exact Or.inr (h.of_union hsub)
  · rintro (h | h)
    · exact h.union hA hB
    · refine ⟨h.le, h.subset.trans Set.subset_union_right, fun c d hc hd hcd => ?_⟩
      rcases Icc_subset_union hA hB hcd with hcd | hcd
      · have hin : a ∈ Set.Icc c d := ⟨hc, h.le.trans hd⟩
        exact absurd ((hA a (hcd hin)).trans (hB a (h.subset (Set.left_mem_Icc.mpr h.le))))
          (lt_irrefl a)
      · exact h.maximal c d hc hd hcd

/-! ## Computing the runs -/

/-- The runs of `[a, b]` and the ascending `keys` above it; `adj` decides
whether a key is the immediate successor of the end of the current run. -/
def runsFrom (adj : α → α → Bool) (a b : α) : List α → List (α × α)
  | [] => [(a, b)]
  | k :: ks => if adj b k then runsFrom adj a k ks else (a, b) :: runsFrom adj k k ks

section
variable {adj : α → α → Bool} (hadj : ∀ a b : α, a < b → (adj a b = true ↔ a ⋖ b))
include hadj

theorem mem_runsFrom {a b : α} (hab : a ≤ b) {keys : List α} (hkeys : (b :: keys).Pairwise (· < ·))
    {p : α × α} :
    p ∈ runsFrom adj a b keys ↔ MaximalRun (Set.Icc a b ∪ { k | k ∈ keys }) p.1 p.2 := by
  induction keys generalizing a b with
  | nil => simp [runsFrom, maximalRun_Icc hab, Prod.ext_iff]
  | cons k ks ih =>
      obtain ⟨hb, hks⟩ := List.pairwise_cons.mp hkeys
      have hbk : b < k := hb k List.mem_cons_self
      rw [runsFrom]
      split
      · rename_i hcov
        have hcov := (hadj b k hbk).mp hcov
        have hset : Set.Icc a b ∪ { x | x ∈ k :: ks } = Set.Icc a k ∪ { x | x ∈ ks } := by
          ext x
          simp only [Set.mem_union, Set.mem_Icc, Set.mem_ofPred_eq, List.mem_cons, ← or_assoc]
          have hiff : (a ≤ x ∧ x ≤ b) ∨ x = k ↔ a ≤ x ∧ x ≤ k := by
            constructor
            · rintro (⟨h1, h2⟩ | rfl)
              · exact ⟨h1, h2.trans hbk.le⟩
              · exact ⟨hab.trans hbk.le, le_rfl⟩
            · rintro ⟨h1, h2⟩
              rcases h2.eq_or_lt with rfl | h2
              · exact Or.inr rfl
              · exact Or.inl ⟨h1, not_lt.mp fun h => hcov.2 h h2⟩
          rw [hiff]
        rw [hset]
        exact ih (hab.trans hbk.le) hks
      · rename_i hncov
        have hncov : ¬ b ⋖ k := fun h => hncov ((hadj b k hbk).mpr h)
        obtain ⟨m, hbm, hmk⟩ := (not_covBy_iff hbk).mp hncov
        have hset : { x | x ∈ k :: ks } = Set.Icc k k ∪ { x | x ∈ ks } := by
          ext x
          simp
        have hB : ∀ x ∈ Set.Icc k k ∪ { x | x ∈ ks }, m < x := by
          rintro x (hx | hx)
          · exact hmk.trans_le hx.1
          · exact hmk.trans ((List.pairwise_cons.mp hks).1 x hx)
        rw [hset, maximalRun_union (fun x hx => lt_of_le_of_lt hx.2 hbm) hB, maximalRun_Icc hab,
          List.mem_cons, ih le_rfl hks, Prod.ext_iff]

omit hadj in
/-- Every key is in a run. -/
theorem exists_mem_runsFrom {a b s : α} (hab : a ≤ b) {keys : List α}
    (hkeys : (b :: keys).Pairwise (· < ·)) (h : (a ≤ s ∧ s ≤ b) ∨ s ∈ keys) :
    ∃ p ∈ runsFrom adj a b keys, p.1 ≤ s ∧ s ≤ p.2 := by
  induction keys generalizing a b with
  | nil =>
      rcases h with h | h
      · exact ⟨(a, b), List.mem_singleton_self _, h⟩
      · cases h
  | cons k ks ih =>
      obtain ⟨hb, hks⟩ := List.pairwise_cons.mp hkeys
      have hbk : b < k := hb k List.mem_cons_self
      rw [runsFrom]
      split
      · refine ih (hab.trans hbk.le) hks ?_
        rcases h with ⟨ha, hs⟩ | h
        · exact Or.inl ⟨ha, hs.trans hbk.le⟩
        · rcases List.mem_cons.mp h with rfl | h
          · exact Or.inl ⟨hab.trans hbk.le, le_rfl⟩
          · exact Or.inr h
      · rcases h with h | h
        · exact ⟨(a, b), List.mem_cons_self, h⟩
        · obtain ⟨p, hp, hs⟩ := ih (a := k) le_rfl hks <| by
            rcases List.mem_cons.mp h with rfl | h
            · exact Or.inl ⟨le_rfl, le_rfl⟩
            · exact Or.inr h
          exact ⟨p, List.mem_cons_of_mem _ hp, hs⟩

omit hadj in
theorem runsFrom_above {a b : α} (hab : a ≤ b) {keys : List α}
    (hkeys : (b :: keys).Pairwise (· < ·)) :
    ∀ p ∈ runsFrom adj a b keys, a ≤ p.1 ∧ p.1 ≤ p.2 := by
  induction keys generalizing a b with
  | nil => simp [runsFrom, hab]
  | cons k ks ih =>
      obtain ⟨hb, hks⟩ := List.pairwise_cons.mp hkeys
      have hbk : b < k := hb k List.mem_cons_self
      intro p hp
      rw [runsFrom] at hp
      split at hp
      · exact ih (hab.trans hbk.le) hks p hp
      · rcases List.mem_cons.mp hp with rfl | hp
        · exact ⟨le_rfl, hab⟩
        · obtain ⟨h1, h2⟩ := ih le_rfl hks p hp
          exact ⟨(hab.trans hbk.le).trans h1, h2⟩

omit hadj in
/-- The runs come out in ascending order. -/
theorem runsFrom_sorted {a b : α} (hab : a ≤ b) {keys : List α}
    (hkeys : (b :: keys).Pairwise (· < ·)) :
    (runsFrom adj a b keys).Pairwise fun p q => p.2 < q.1 := by
  induction keys generalizing a b with
  | nil => exact List.pairwise_singleton _ _
  | cons k ks ih =>
      obtain ⟨hb, hks⟩ := List.pairwise_cons.mp hkeys
      have hbk : b < k := hb k List.mem_cons_self
      rw [runsFrom]
      split
      · exact ih (hab.trans hbk.le) hks
      · exact List.pairwise_cons.mpr
          ⟨fun p hp => hbk.trans_le (runsFrom_above le_rfl hks p hp).1, ih le_rfl hks⟩

end

/-! ## The lowest runs -/

/-- Below the `i`-th of an ascending list of intervals lie exactly `i` of
them. -/
theorem encard_below {runs : List (α × α)} (hle : ∀ p ∈ runs, p.1 ≤ p.2)
    (hsorted : runs.Pairwise fun p q => p.2 < q.1) {i : Nat} (hi : i < runs.length) :
    { p : α × α | p ∈ runs ∧ p.2 < runs[i].1 }.encard = i := by
  have hset : { p : α × α | p ∈ runs ∧ p.2 < runs[i].1 } = { p | p ∈ runs.take i } := by
    ext p
    simp only [Set.mem_ofPred_eq]
    constructor
    · rintro ⟨hp, hlt⟩
      obtain ⟨j, hj, rfl⟩ := List.mem_iff_getElem.mp hp
      have hji : j < i := by
        by_contra hge
        rcases (not_lt.mp hge).eq_or_lt with rfl | hlt'
        · exact absurd hlt (not_lt.mpr (hle _ hp))
        · have h1 := List.pairwise_iff_getElem.mp hsorted i j hi hj hlt'
          have h2 := hle _ (List.getElem_mem hi)
          exact absurd (hlt.trans_le (h2.trans (h1.le.trans (hle _ hp)))) (lt_irrefl _)
      exact List.mem_take_iff_getElem.mpr ⟨j, by omega, rfl⟩
    · intro hp
      obtain ⟨j, hj, rfl⟩ := List.mem_take_iff_getElem.mp hp
      exact ⟨List.getElem_mem _, List.pairwise_iff_getElem.mp hsorted j i (by omega) hi (by omega)⟩
  have hnodup : (runs.take i).Nodup := by
    refine (hsorted.take).imp_of_mem fun {p q} hp _ hpq heq => ?_
    subst heq
    exact absurd hpq (not_lt.mpr (hle p (List.mem_of_mem_take hp)))
  classical
  have hfin : { p | p ∈ runs.take i } = ((runs.take i).toFinset : Set (α × α)) := by
    ext p
    simp
  rw [hset, hfin, Set.encard_coe_eq_coe_finsetCard, List.toFinset_card_of_nodup hnodup,
    List.length_take, min_eq_left hi.le]

/-- The points of the first `n` runs of a list of all runs are the points
in the `n` lowest runs. -/
theorem inLowestRuns_iff {S : Set α} {runs : List (α × α)}
    (hmem : ∀ p, p ∈ runs ↔ MaximalRun S p.1 p.2)
    (hsorted : runs.Pairwise fun p q => p.2 < q.1) {n : Nat} {s : α} :
    InLowestRuns n S s ↔ ∃ p ∈ runs.take n, p.1 ≤ s ∧ s ≤ p.2 := by
  have hle : ∀ p ∈ runs, p.1 ≤ p.2 := fun p hp => ((hmem p).mp hp).le
  have hcount : ∀ i (hi : i < runs.length),
      { p : α × α | MaximalRun S p.1 p.2 ∧ p.2 < runs[i].1 }.encard = i := by
    intro i hi
    have := encard_below hle hsorted hi
    simpa only [hmem] using this
  constructor
  · rintro ⟨a, b, hrun, hs, hcard⟩
    obtain ⟨i, hi, hget⟩ := List.mem_iff_getElem.mp ((hmem (a, b)).mpr hrun)
    have ha : a = runs[i].1 := by rw [hget]
    rw [ha, hcount i hi, Nat.cast_lt] at hcard
    exact ⟨(a, b), List.mem_take_iff_getElem.mpr ⟨i, by omega, hget⟩, hs⟩
  · rintro ⟨p, hp, hs⟩
    obtain ⟨i, hi, rfl⟩ := List.mem_take_iff_getElem.mp hp
    have hin : i < n ∧ i < runs.length := by omega
    refine ⟨_, _, (hmem _).mp (List.getElem_mem hin.2), hs, ?_⟩
    rw [hcount i hin.2, Nat.cast_lt]
    exact hin.1

/-! ## Separated intervals -/

/-- Ascending intervals with a missing point between neighbours. -/
structure Separated (runs : List (α × α)) : Prop where
  le : ∀ p ∈ runs, p.1 ≤ p.2
  gap : runs.Pairwise fun p q => ∃ m, p.2 < m ∧ m < q.1

/-- The points of a list of intervals. -/
def points (runs : List (α × α)) : Set α := { x | ∃ p ∈ runs, x ∈ Set.Icc p.1 p.2 }

theorem points_cons (p : α × α) (runs : List (α × α)) :
    points (p :: runs) = Set.Icc p.1 p.2 ∪ points runs := by
  ext x
  simp [points]

/-- Separated intervals are the maximal runs of their points. -/
theorem Separated.mem_iff {runs : List (α × α)} (h : Separated runs) (p : α × α) :
    p ∈ runs ↔ MaximalRun (points runs) p.1 p.2 := by
  induction runs with
  | nil =>
      refine iff_of_false List.not_mem_nil ?_
      intro hrun
      obtain ⟨q, hq, -⟩ := hrun.subset (Set.left_mem_Icc.mpr hrun.le)
      exact List.not_mem_nil hq
  | cons q runs ih =>
      obtain ⟨hgap, hgaps⟩ := List.pairwise_cons.mp h.gap
      have hrest : Separated runs := ⟨fun p hp => h.le p (List.mem_cons_of_mem _ hp), hgaps⟩
      have hhead : p = q ↔ MaximalRun (Set.Icc q.1 q.2) p.1 p.2 := by
        rw [maximalRun_Icc (h.le q List.mem_cons_self), Prod.ext_iff]
      cases runs with
      | nil =>
          have hnone : points ([] : List (α × α)) = ∅ := by
            ext x
            simp [points]
          rw [points_cons, hnone, Set.union_empty, List.mem_singleton, hhead]
      | cons r runs =>
          -- the point missing before the second interval is below all that follow
          obtain ⟨m, hqm, hmr⟩ := hgap r List.mem_cons_self
          have habove : ∀ x ∈ points (r :: runs), m < x := by
            rintro x ⟨s, hs, hx⟩
            rcases List.mem_cons.mp hs with rfl | hs
            · exact hmr.trans_le hx.1
            · obtain ⟨m', hrm', hms⟩ := (List.pairwise_cons.mp hgaps).1 s hs
              have hr := h.le r (List.mem_cons_of_mem _ List.mem_cons_self)
              exact hmr.trans (hr.trans_lt (hrm'.trans (hms.trans_le hx.1)))
          rw [points_cons, maximalRun_union (fun x hx => lt_of_le_of_lt hx.2 hqm) habove,
            List.mem_cons, hhead, ih hrest]

/-- Separated intervals are determined by their points. -/
theorem Separated.eq_of_points {runs runs' : List (α × α)} (h : Separated runs)
    (h' : Separated runs') (heq : points runs = points runs') : runs = runs' := by
  have hlt : ∀ {l : List (α × α)}, Separated l → l.Pairwise fun p q => p.2 < q.1 := by
    intro l hl
    exact hl.gap.imp fun ⟨_, h1, h2⟩ => h1.trans h2
  have hnodup : ∀ {l : List (α × α)}, Separated l → l.Nodup := by
    intro l hl
    refine (hlt hl).imp_of_mem ?_
    rintro p _ hp _ hpp rfl
    exact absurd hpp (not_lt.mpr (hl.le p hp))
  have hperm : runs.Perm runs' := by
    refine (List.perm_ext_iff_of_nodup (hnodup h) (hnodup h')).mpr fun p => ?_
    rw [h.mem_iff, h'.mem_iff, heq]
  refine List.Perm.eq_of_pairwise ?_ (hlt h) (hlt h') hperm
  intro p q hp hq hpq hqp
  have hback := hqp.trans_le (h.le p hp)
  exact absurd (hpq.trans_le (h'.le q hq)) (not_lt.mpr hback.le)

end Lib
