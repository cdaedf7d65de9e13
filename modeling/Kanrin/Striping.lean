import Mathlib.Algebra.BigOperators.Field
import Kanrin.Multipath

/-!
# Proportional striping

As long as all paths are healthy and their capacities stay as they are, the
credits of the scheduler are what each path is owed (`Tallied`): its share of
the calls so far, less the chunks it was given. `striping_proportional`: no
path is owed a whole chunk too little, or more than the other paths together
can have been given too many, however many calls there have been.
-/

namespace Kanrin

open Lib

namespace Multipath

/-! ## What a path is owed -/

/-- How often the path has been chosen. -/
def timesChosen (w : World) (i : Nat) : Nat :=
  w.log.countP fun assignment => assignment.any (·.primary = w.scheduler.nameAt i)

/-- The part of the chunks that is due to a path. -/
def share (caps : List ℚ) (i : Nat) : ℚ := caps.getD i 0 / caps.sum

/-- All paths are healthy at each call, with the given capacities, and no
chunk is worth a second copy. -/
def Steady (caps : List ℚ) (w : World) : Event → Prop
  | .assign latencyCritical =>
      latencyCritical = false ∧ w.scheduler.paths.map PathHealth.capacityBps = caps
        ∧ ∀ p ∈ w.scheduler.paths, p.isHealthy w.now = true
  | _ => True

instance (caps : List ℚ) (w : World) : (e : Event) → Decidable (Steady caps w e)
  | .assign _ => inferInstanceAs (Decidable (_ ∧ _ ∧ _))
  | .delivered .. | .lost _ | .wait _ => isTrue trivial

def credit (s : Scheduler) (i : Nat) : ℚ := s.credits.getD i 0

structure Tallied (caps : List ℚ) (w : World) : Prop where
  length : w.scheduler.paths.length = caps.length
  credit : ∀ i < caps.length,
    credit w.scheduler i = w.log.length * share caps i - timesChosen w i
  balanced : BalancedCredits (Finset.range caps.length) (Multipath.credit w.scheduler)

theorem sum_getD (l : List ℚ) : ∑ i ∈ Finset.range l.length, l.getD i 0 = l.sum := by
  induction l with
  | nil => rfl
  | cons a l ih =>
      rw [List.length_cons, Finset.sum_range_succ', List.sum_cons, ← ih, add_comm]
      rfl

theorem sum_share {caps : List ℚ} (h : 0 < caps.sum) :
    ∑ i ∈ Finset.range caps.length, share caps i = 1 := by
  unfold share
  rw [← Finset.sum_div, sum_getD, div_self h.ne']

theorem share_nonneg {caps : List ℚ} (hpos : ∀ c ∈ caps, 0 < c) (i : Nat) : 0 ≤ share caps i := by
  have hcap : 0 ≤ caps.getD i 0 := by
    rw [List.getD_eq_getElem?_getD]
    cases h : caps[i]? with
    | none => exact le_rfl
    | some c => exact (hpos c (List.mem_of_getElem? h)).le
  exact div_nonneg hcap (List.sum_nonneg fun c hc => (hpos c hc).le)

/-! ## A call when all paths are healthy -/

section Call

variable {s : Scheduler} {now : ℚ} {caps : List ℚ}

theorem healthy_eq_range (h : ∀ p ∈ s.paths, p.isHealthy now = true) :
    s.healthy now = List.range s.paths.length := by
  refine List.filter_eq_self.mpr fun i hi => ?_
  have hlt := List.mem_range.mp hi
  rw [List.getElem?_eq_getElem hlt]
  exact h _ (List.getElem_mem hlt)

theorem capacity_eq (hcaps : s.paths.map PathHealth.capacityBps = caps) (i : Nat) :
    s.capacity i = caps.getD i 0 := by
  rw [Scheduler.capacity, ← hcaps, List.getD_eq_getElem?_getD, List.getElem?_map]

theorem total_eq (hhealthy : ∀ p ∈ s.paths, p.isHealthy now = true)
    (hcaps : s.paths.map PathHealth.capacityBps = caps) : s.total now = caps.sum := by
  have hmap : (List.range s.paths.length).map s.capacity = caps := by
    refine List.ext_getElem (by rw [← hcaps]; simp) fun i _ hi => ?_
    rw [List.getElem_map, List.getElem_range, capacity_eq hcaps, List.getD_eq_getElem?_getD,
      List.getElem?_eq_getElem hi, Option.getD_some]
  rw [Scheduler.total, healthy_eq_range hhealthy, hmap]

theorem getD_topped (hhealthy : ∀ p ∈ s.paths, p.isHealthy now = true)
    (hcaps : s.paths.map PathHealth.capacityBps = caps) {i : Nat} (hi : i < caps.length) :
    (s.topped now).getD i 0 = credit s i + share caps i := by
  have hlen : s.paths.length = caps.length := by rw [← hcaps, List.length_map]
  have hlt : i < s.credits.length := by rw [s.lengths, hlen]; exact hi
  rw [Scheduler.topped, credit, share, List.getD_eq_getElem?_getD, List.getElem?_mapIdx,
    List.getD_eq_getElem?_getD, List.getElem?_eq_getElem hlt, Option.map_some,
    Option.getD_some, Option.getD_some, healthy_eq_range hhealthy,
    if_pos (List.mem_range.mpr (hlen ▸ hi)), capacity_eq hcaps, total_eq hhealthy hcaps]

/-- The path that is chosen has the greatest credit of all. -/
theorem chosen_max (hhealthy : ∀ p ∈ s.paths, p.isHealthy now = true)
    (hcaps : s.paths.map PathHealth.capacityBps = caps) {j : Nat} (hj : s.chosen now = some j) :
    j < caps.length ∧ ∀ i < caps.length, credit s i + share caps i ≤ credit s j + share caps j := by
  have hlen : s.paths.length = caps.length := by rw [← hcaps, List.length_map]
  have hmem := mem_of_maxBy hj
  have hmax := le_of_maxBy hj
  rw [healthy_eq_range hhealthy, List.mem_range, hlen] at hmem
  refine ⟨hmem, fun i hi => ?_⟩
  rw [← getD_topped hhealthy hcaps hi, ← getD_topped hhealthy hcaps hmem]
  refine hmax i ?_
  rw [healthy_eq_range hhealthy, List.mem_range, hlen]
  exact hi

/-- Its credit is spent. -/
theorem credit_spendOn (hhealthy : ∀ p ∈ s.paths, p.isHealthy now = true)
    (hcaps : s.paths.map PathHealth.capacityBps = caps) {i : Nat} (hi : i < caps.length) (j : Nat) :
    (s.spendOn now j).credits.getD i 0 = spend (share caps) (credit s) j i := by
  have hlen : s.paths.length = caps.length := by rw [← hcaps, List.length_map]
  have hlt : i < (s.topped now).length := by
    rw [Scheduler.topped, List.length_mapIdx, s.lengths, hlen]
    exact hi
  have htopped := getD_topped hhealthy hcaps hi
  rw [List.getD_eq_getElem?_getD, List.getElem?_eq_getElem hlt, Option.getD_some] at htopped
  rw [Scheduler.spendOn, List.getD_eq_getElem?_getD, List.getElem?_modify,
    List.getElem?_eq_getElem hlt, Option.map_eq_map, Option.map_some, htopped, spend]
  split
  · rename_i hji
    rw [if_pos hji.symm]
    rfl
  · rename_i hji
    rw [if_neg (Ne.symm hji), sub_zero]
    rfl

end Call

/-! ## Names -/

theorem nameAt_eq (s : Scheduler) (i : Nat) :
    s.nameAt i = ((s.paths.map PathHealth.name)[i]?).getD "" := by
  rw [Scheduler.nameAt, List.getElem?_map]

/-- Different paths have different names. -/
theorem nameAt_inj {s : Scheduler} {i j : Nat} (hi : i < s.paths.length) (hj : j < s.paths.length) :
    s.nameAt i = s.nameAt j ↔ i = j := by
  refine ⟨fun h => ?_, congrArg s.nameAt⟩
  have hi' : i < (s.paths.map PathHealth.name).length := by rwa [List.length_map]
  have hj' : j < (s.paths.map PathHealth.name).length := by rwa [List.length_map]
  rw [nameAt_eq, nameAt_eq, List.getElem?_eq_getElem hi', List.getElem?_eq_getElem hj',
    Option.getD_some, Option.getD_some] at h
  exact (s.unique.getElem_inj_iff).mp h

theorem nameAt_updatePath (s : Scheduler) (i : Nat) (f : PathHealth → PathHealth)
    (hf : ∀ p, (f p).name = p.name) (j : Nat) : (s.updatePath i f hf).nameAt j = s.nameAt j := by
  rw [nameAt_eq, nameAt_eq]
  exact congrArg (fun names : List String => (names[j]?).getD "") (map_name_modify s.paths i hf)

/-- Outcomes do not concern what is owed. -/
theorem Tallied.updatePath {caps : List ℚ} {w : World} (h : Tallied caps w) (i : Nat)
    (f : PathHealth → PathHealth) (hf : ∀ p, (f p).name = p.name) :
    Tallied caps { w with scheduler := w.scheduler.updatePath i f hf } := by
  refine ⟨?_, fun j hj => ?_, h.balanced⟩
  · exact (List.length_modify ..).trans h.length
  · have hcredit := h.credit j hj
    have htimes : timesChosen { w with scheduler := w.scheduler.updatePath i f hf } j
        = timesChosen w j := by
      unfold timesChosen
      simp only [nameAt_updatePath]
    rw [htimes]
    exact hcredit

/-- Without latency-critical chunks there is no second copy. -/
theorem assign_false {s : Scheduler} {now : ℚ} {j : Nat} (h : s.chosen now = some j) :
    s.assign now false
      = (some { primary := s.nameAt j, hedge := none }, (s.spendOn now j).recordSent j) := by
  rcases Scheduler.assign_of_chosen h false with ⟨-, hassign⟩ | ⟨i, hhedge, -⟩
  · exact hassign
  · exact nomatch hhedge

/-- A chunk for the path `j` counts for this path only. -/
theorem timesChosen_concat {w t : World} {i j : Nat} (hj : j < w.scheduler.paths.length)
    (hi : i < w.scheduler.paths.length)
    (hname : t.scheduler.nameAt i = w.scheduler.nameAt i)
    (hlog : t.log = w.log ++ [some { primary := w.scheduler.nameAt j, hedge := none }]) :
    timesChosen t i = timesChosen w i + if i = j then 1 else 0 := by
  have hsame : w.scheduler.nameAt j = w.scheduler.nameAt i ↔ i = j := by
    rw [nameAt_inj hj hi]
    exact eq_comm
  unfold timesChosen
  rw [hname, hlog, List.countP_append, List.countP_singleton]
  refine congrArg (_ + ·) (if_congr ?_ rfl rfl)
  simpa using hsame

/-- A call tops up what everybody is owed, and pays the path that it chooses. -/
theorem Tallied.assign {caps : List ℚ} {w t : World} (h : Tallied caps w) (hne : caps ≠ [])
    (hpos : ∀ c ∈ caps, 0 < c) {latencyCritical : Bool}
    (hsteady : Steady caps w (.assign latencyCritical))
    (hstep : step w (.assign latencyCritical) = some t) : Tallied caps t := by
  obtain ⟨rfl, hcaps, hhealthy⟩ := hsteady
  have hk : 0 < caps.length := List.length_pos_iff.mpr hne
  have hsum : 0 < caps.sum := List.sum_pos caps hpos hne
  have hnotnil : w.scheduler.healthy w.now ≠ [] := by
    rw [healthy_eq_range hhealthy, h.length]
    exact List.ne_nil_of_mem (List.mem_range.mpr hk)
  obtain ⟨j, hj⟩ := Scheduler.exists_chosen hnotnil
  obtain ⟨hjlt, hmax⟩ := chosen_max hhealthy hcaps hj
  have ht : t = { scheduler := (w.scheduler.spendOn w.now j).recordSent j, now := w.now
                  log := w.log ++ [some { primary := w.scheduler.nameAt j, hedge := none }] } := by
    have hsome := Option.some.inj hstep
    rw [assign_false hj] at hsome
    exact hsome.symm
  have hcredit : ∀ i < caps.length,
      Multipath.credit t.scheduler i = spend (share caps) (Multipath.credit w.scheduler) j i := by
    intro i hi
    rw [ht]
    exact credit_spendOn hhealthy hcaps hi j
  have htimes : ∀ i < caps.length,
      timesChosen t i = timesChosen w i + if i = j then 1 else 0 := by
    intro i hi
    have hname : t.scheduler.nameAt i = w.scheduler.nameAt i := by
      rw [ht]
      exact nameAt_updatePath (w.scheduler.spendOn w.now j) j _ PathHealth.name_recordSent i
    exact timesChosen_concat (h.length ▸ hjlt) (h.length ▸ hi) hname (by rw [ht])
  have hlog : t.log.length = w.log.length + 1 := by rw [ht, List.length_append]; rfl
  refine ⟨?_, fun i hi => ?_, ?_⟩
  · rw [ht]
    exact (List.length_modify ..).trans h.length
  · rw [hcredit i hi, spend, h.credit i hi, htimes i hi, hlog]
    push_cast
    ring
  · have hspent := h.balanced.spend (sum_share hsum) (fun i _ => share_nonneg hpos i)
      (Finset.mem_range.mpr hjlt) fun i hi => hmax i (Finset.mem_range.mp hi)
    exact hspent.congr fun i hi => hcredit i (Finset.mem_range.mp hi)

theorem Tallied.step {caps : List ℚ} (hne : caps ≠ []) (hpos : ∀ c ∈ caps, 0 < c) {w t : World}
    {e : Event} (h : Tallied caps w) (hsteady : Steady caps w e) (hstep : step w e = some t) :
    Tallied caps t := by
  cases e with
  | assign latencyCritical => exact h.assign hne hpos hsteady hstep
  | delivered path bytes rtt =>
      obtain ⟨-, rfl⟩ := Option.ite_some_none_eq_some.mp hstep
      exact h.updatePath path _ (PathHealth.name_recordDelivered w.now bytes rtt)
  | lost path =>
      obtain ⟨-, rfl⟩ := Option.ite_some_none_eq_some.mp hstep
      exact h.updatePath path _ PathHealth.name_recordLost
  | wait duration =>
      obtain ⟨-, rfl⟩ := Option.ite_some_none_eq_some.mp hstep
      exact ⟨h.length, h.credit, h.balanced⟩

/-- Nothing has been assigned, and nothing is owed. -/
structure Fresh (caps : List ℚ) (w : World) : Prop where
  length : w.scheduler.paths.length = caps.length
  credits : ∀ c ∈ w.scheduler.credits, c = 0
  log : w.log = []

theorem Fresh.tallied {caps : List ℚ} {w : World} (h : Fresh caps w) : Tallied caps w := by
  have hzero : ∀ i < caps.length, Multipath.credit w.scheduler i = 0 := by
    intro i hi
    have hlt : i < w.scheduler.credits.length := by rw [w.scheduler.lengths, h.length]; exact hi
    rw [Multipath.credit, List.getD_eq_getElem?_getD, List.getElem?_eq_getElem hlt,
      Option.getD_some]
    exact h.credits _ (List.getElem_mem hlt)
  refine ⟨h.length, fun i hi => ?_,
    (balancedCredits_zero _).congr fun i hi => hzero i (Finset.mem_range.mp hi)⟩
  rw [hzero i hi, timesChosen, h.log]
  simp

/-- However many calls there have been, the number of times a path was chosen
is less than one above its share of them, and less than the number of paths
below it. -/
theorem striping_proportional {caps : List ℚ} {w t : World} {es : List Event}
    (hpos : ∀ c ∈ caps, 0 < c) (hfresh : Fresh caps w) (hsteady : Meets step (Steady caps) w es)
    (hrun : exec step w es = some t) {i : Nat} (hi : i < caps.length) :
    -1 < t.log.length * caps[i] / caps.sum - timesChosen t i
      ∧ t.log.length * caps[i] / caps.sum - timesChosen t i ≤ caps.length - 1 := by
  have hne : caps ≠ [] := List.ne_nil_of_length_pos (Nat.zero_lt_of_lt hi)
  have htallied : Tallied caps t :=
    (always_of_meets (fun _ _ _ hw hC hstep => hw.step hne hpos hC hstep) hfresh.tallied
      hsteady).last hrun
  have hshare : (t.log.length : ℚ) * share caps i = t.log.length * caps[i] / caps.sum := by
    rw [share, List.getD_eq_getElem?_getD, List.getElem?_eq_getElem hi, Option.getD_some,
      mul_div_assoc]
  have hmem := Finset.mem_range.mpr hi
  have hcredit := htallied.credit i hi
  rw [hshare] at hcredit
  rw [← hcredit]
  refine ⟨htallied.balanced.lower i hmem, ?_⟩
  have hle := htallied.balanced.le hmem
  rwa [Finset.card_range] at hle

/-! ## Three chunks on two paths -/

def threeCalls : List Event := [.assign false, .assign false, .assign false]

def evenCaps : List ℚ := [initialCapacity, initialCapacity]

def evenRun : World :=
  (exec step (start "quic" ["tls"] 0 false) threeCalls).getD (start "quic" ["tls"] 0 false)

theorem evenRun_spec : exec step (start "quic" ["tls"] 0 false) threeCalls = some evenRun := by
  have hsome : (exec step (start "quic" ["tls"] 0 false) threeCalls).isSome = true := by
    decide +kernel
  obtain ⟨t, ht⟩ := Option.isSome_iff_exists.mp hsome
  rw [evenRun, ht, Option.getD_some]

/-- The second path got two of them. -/
theorem striping_evenRun :
    timesChosen evenRun 1 = 2
      ∧ -1 < evenRun.log.length * initialCapacity / evenCaps.sum - timesChosen evenRun 1
      ∧ evenRun.log.length * initialCapacity / evenCaps.sum - timesChosen evenRun 1
        ≤ (evenCaps.length : ℚ) - 1 := by
  have hpos : ∀ c ∈ evenCaps, 0 < c := by decide +kernel
  have hfresh : Fresh evenCaps (start "quic" ["tls"] 0 false) :=
    ⟨by decide +kernel, by decide +kernel, rfl⟩
  have hsteady : Meets step (Steady evenCaps) (start "quic" ["tls"] 0 false) threeCalls := by
    decide +kernel
  exact ⟨by decide +kernel,
    striping_proportional hpos hfresh hsteady evenRun_spec (i := 1) (by decide)⟩

end Multipath

end Kanrin
