import Kanrin.Multipath

/-!
# When the scheduler locks itself out

A path with too much loss is given no chunk, and its loss comes down with
deliveries only. The least it can come down to is what it is after all
outstanding chunks have been delivered (`leastLoss`), and no step but a new
chunk gets below that. So a state has a way back to an assignment exactly if
the least loss of some path is low enough (`canAssign_iff`), and a run keeps
one exactly as long as each loss leaves such a path (`always_canAssign_iff`).
-/

namespace Kanrin

open Lib

namespace Multipath

/-! ## The way back -/

/-- There is a run from here after which `assign` has a path for a chunk. -/
def CanAssign (w : World) : Prop :=
  ∃ es t, exec step w es = some t ∧ ∃ latencyCritical,
    (t.scheduler.assign t.now latencyCritical).1 ≠ none

/-- The loss of a path when all its outstanding chunks have been delivered. -/
def leastLoss (p : PathHealth) : ℚ := p.lossEwma * (3 / 4) ^ p.outstanding

def Recoverable (p : PathHealth) : Prop := p.disabled = false ∧ leastLoss p ≤ unhealthyLoss

instance (p : PathHealth) : Decidable (Recoverable p) := inferInstanceAs (Decidable (_ ∧ _))

def Unlocked (s : Scheduler) : Prop := ∃ (i : Nat) (p : PathHealth),
  s.paths[i]? = some p ∧ Recoverable p

/-- After the loss of a chunk of the path some path is still recoverable:
another one, or this one with the loss in its average. -/
def LeavesOne (s : Scheduler) (path : Nat) : Prop :=
  ∃ (i : Nat) (p : PathHealth), s.paths[i]? = some p ∧ p.disabled = false
    ∧ (if i = path then (1 / 4 + 3 / 4 * p.lossEwma) * (3 / 4) ^ (p.outstanding - 1)
        else p.lossEwma * (3 / 4) ^ p.outstanding) ≤ 1 / 5

/-! ## What the steps do to the least loss -/

theorem pow_bounds (n : Nat) : (0 : ℚ) < (3 / 4) ^ n ∧ ((3 : ℚ) / 4) ^ n ≤ 1 :=
  ⟨by positivity, pow_le_one₀ (by norm_num) (by norm_num)⟩

theorem leastLoss_recordDelivered {p : PathHealth} (h : 0 < p.outstanding) (now : ℚ) (bytes : Nat)
    (rtt : ℚ) : leastLoss (p.recordDelivered now bytes rtt) = leastLoss p := by
  have houtstanding : p.outstanding = (p.recordDelivered now bytes rtt).outstanding + 1 := by
    simp only [PathHealth.outstanding, PathHealth.recordDelivered] at h ⊢
    omega
  have hloss : (p.recordDelivered now bytes rtt).lossEwma = 3 / 4 * p.lossEwma := by
    simp only [PathHealth.recordDelivered, ewma, ewmaAlpha]
    ring
  rw [leastLoss, leastLoss, houtstanding, hloss, pow_succ]
  ring

theorem leastLoss_recordLost (p : PathHealth) :
    leastLoss p.recordLost = (1 / 4 + 3 / 4 * p.lossEwma) * (3 / 4) ^ (p.outstanding - 1) := by
  have houtstanding : p.recordLost.outstanding = p.outstanding - 1 := by
    simp only [PathHealth.outstanding, PathHealth.recordLost]
    omega
  have hloss : p.recordLost.lossEwma = 1 / 4 + 3 / 4 * p.lossEwma := by
    simp only [PathHealth.recordLost, ewma, ewmaAlpha]
    ring
  rw [leastLoss, houtstanding, hloss]

theorem leastLoss_le_recordLost {p : PathHealth} (h : 0 < p.outstanding) :
    leastLoss p ≤ leastLoss p.recordLost := by
  obtain ⟨n, hn⟩ : ∃ n, p.outstanding = n + 1 := ⟨p.outstanding - 1, by omega⟩
  rw [leastLoss_recordLost, leastLoss, hn, Nat.add_sub_cancel, pow_succ]
  have hpow := pow_bounds n
  nlinarith [hpow.1]

/-- A path that is healthy stays recoverable when it is given a chunk. -/
theorem recoverable_recordSent {p : PathHealth} {now : ℚ} (h : p.isHealthy now = true) (n : Nat) :
    Recoverable { p with sent := p.sent + n } := by
  obtain ⟨henabled, hloss, -⟩ := (p.isHealthy_iff now).mp h
  refine ⟨henabled, ?_⟩
  have hpow := pow_bounds (PathHealth.outstanding { p with sent := p.sent + n })
  have hlimit : (0 : ℚ) < unhealthyLoss := by norm_num [unhealthyLoss]
  show p.lossEwma * _ ≤ _
  rcases le_total p.lossEwma 0 with hneg | hpos
  · exact (mul_nonpos_of_nonpos_of_nonneg hneg hpow.1.le).trans hlimit.le
  · exact (mul_le_of_le_one_right hpos hpow.2).trans hloss

/-- A path that is healthy is recoverable. -/
theorem recoverable_of_isHealthy {p : PathHealth} {now : ℚ} (h : p.isHealthy now = true) :
    Recoverable p := recoverable_recordSent h 0

/-- A path without outstanding chunks that is recoverable is healthy. -/
theorem isHealthy_of_recoverable {p : PathHealth} (h : Recoverable p) (hnone : p.outstanding = 0)
    (now : ℚ) : p.isHealthy now = true := by
  refine (p.isHealthy_iff now).mpr ⟨h.1, ?_, Or.inl hnone⟩
  have hleast := h.2
  rwa [leastLoss, hnone, pow_zero, mul_one] at hleast

/-! ## What the steps do to the scheduler -/

/-- The path that is given the chunk is recoverable. -/
theorem unlocked_assign {s : Scheduler} {now : ℚ} {latencyCritical : Bool}
    (h : (s.assign now latencyCritical).1 ≠ none) :
    Unlocked (s.assign now latencyCritical).2 := by
  obtain ⟨i, hi⟩ := Scheduler.exists_chosen (mt (Scheduler.assign_eq_none_iff _).mpr h)
  obtain ⟨p, hp, hhealthy⟩ := Scheduler.mem_healthy.mp (mem_of_maxBy hi)
  have hsent : ((s.spendOn now i).recordSent i).paths[i]? = some p.recordSent := by
    have hspent : (s.spendOn now i).paths[i]? = some p := hp
    rw [Scheduler.getElem?_recordSent, if_pos rfl, hspent]
    rfl
  rcases Scheduler.assign_of_chosen hi latencyCritical with ⟨-, h⟩ | ⟨j, -, h⟩
  · rw [h]
    exact ⟨i, p.recordSent, hsent, recoverable_recordSent hhealthy 1⟩
  · rw [h]
    dsimp only
    by_cases hij : j = i
    · refine ⟨i, p.recordSent.recordSent, ?_, recoverable_recordSent hhealthy 2⟩
      rw [Scheduler.getElem?_recordSent, if_pos hij, hsent]
      rfl
    · refine ⟨i, p.recordSent, ?_, recoverable_recordSent hhealthy 1⟩
      rw [Scheduler.getElem?_recordSent, if_neg hij, hsent]

theorem unlocked_recordDelivered {s : Scheduler} {path : Nat} (hawaits : Awaits s path) (now : ℚ)
    (bytes : Nat) (rtt : ℚ) :
    Unlocked (s.recordDelivered path now bytes rtt) ↔ Unlocked s := by
  obtain ⟨q, hq, hout⟩ := hawaits
  have hsame : Recoverable (q.recordDelivered now bytes rtt) ↔ Recoverable q :=
    and_congr_right fun _ => by rw [leastLoss_recordDelivered hout]
  constructor
  · rintro ⟨i, p, hp, hrec⟩
    rw [Scheduler.getElem?_recordDelivered] at hp
    split at hp
    · rename_i hi
      rw [← hi, hq, Option.map_some, Option.some.injEq] at hp
      exact ⟨path, q, hq, hsame.mp (hp ▸ hrec)⟩
    · exact ⟨i, p, hp, hrec⟩
  · rintro ⟨i, p, hp, hrec⟩
    by_cases hi : path = i
    · subst hi
      rw [hq, Option.some.injEq] at hp
      subst hp
      refine ⟨path, q.recordDelivered now bytes rtt, ?_, hsame.mpr hrec⟩
      rw [Scheduler.getElem?_recordDelivered, if_pos rfl, hq]
      rfl
    · refine ⟨i, p, ?_, hrec⟩
      rw [Scheduler.getElem?_recordDelivered, if_neg hi, hp]

theorem unlocked_recordLost (s : Scheduler) (path : Nat) :
    Unlocked (s.recordLost path) ↔ LeavesOne s path := by
  constructor
  · rintro ⟨i, p, hp, henabled, hleast⟩
    rw [Scheduler.getElem?_recordLost] at hp
    split at hp
    · rename_i hi
      obtain ⟨q, hq, rfl⟩ := Option.map_eq_some_iff.mp hp
      rw [leastLoss_recordLost] at hleast
      exact ⟨i, q, hq, henabled, by rw [if_pos hi.symm]; exact hleast⟩
    · rename_i hi
      exact ⟨i, p, hp, henabled, by rw [if_neg (Ne.symm hi)]; exact hleast⟩
  · rintro ⟨i, p, hp, henabled, hleast⟩
    split at hleast
    · rename_i hi
      refine ⟨i, p.recordLost, ?_, henabled, ?_⟩
      · rw [Scheduler.getElem?_recordLost, if_pos hi.symm, hp]
        rfl
      · rw [leastLoss_recordLost]
        exact hleast
    · rename_i hi
      refine ⟨i, p, ?_, henabled, hleast⟩
      rw [Scheduler.getElem?_recordLost, if_neg (Ne.symm hi), hp]

/-- A loss does not open what is locked. -/
theorem unlocked_of_recordLost {s : Scheduler} {path : Nat} (hawaits : Awaits s path)
    (h : Unlocked (s.recordLost path)) : Unlocked s := by
  obtain ⟨q, hq, hout⟩ := hawaits
  obtain ⟨i, p, hp, hrec⟩ := h
  rw [Scheduler.getElem?_recordLost] at hp
  split at hp
  · rename_i hi
    rw [← hi, hq, Option.map_some, Option.some.injEq] at hp
    subst hp
    exact ⟨path, q, hq, hrec.1, (leastLoss_le_recordLost hout).trans hrec.2⟩
  · exact ⟨i, p, hp, hrec⟩

/-! ## Locked is for good -/

theorem healthy_eq_nil_of_locked {s : Scheduler} (h : ¬ Unlocked s) (now : ℚ) :
    s.healthy now = [] := by
  refine List.eq_nil_iff_forall_not_mem.mpr fun i hi => ?_
  obtain ⟨p, hp, hhealthy⟩ := Scheduler.mem_healthy.mp hi
  exact h ⟨i, p, hp, recoverable_of_isHealthy hhealthy⟩

/-- No step opens what is locked. -/
theorem locked_step {w t : World} {e : Event} (h : ¬ Unlocked w.scheduler)
    (hstep : step w e = some t) : ¬ Unlocked t.scheduler := by
  cases e with
  | assign latencyCritical =>
      obtain rfl := Option.some.inj hstep
      rw [Scheduler.assign_of_none (healthy_eq_nil_of_locked h w.now)]
      exact h
  | delivered path bytes rtt =>
      obtain ⟨⟨hawaits, -⟩, rfl⟩ := Option.ite_some_none_eq_some.mp hstep
      exact mt (unlocked_recordDelivered hawaits w.now bytes rtt).mp h
  | lost path =>
      obtain ⟨hawaits, rfl⟩ := Option.ite_some_none_eq_some.mp hstep
      exact mt (unlocked_of_recordLost hawaits) h
  | wait duration =>
      obtain ⟨-, rfl⟩ := Option.ite_some_none_eq_some.mp hstep
      exact h

/-- When all its outstanding chunks have been delivered, a recoverable path is healthy. -/
theorem canAssign_of_recoverable {w : World} {i : Nat} {p : PathHealth}
    (hp : w.scheduler.paths[i]? = some p) (hrec : Recoverable p) : CanAssign w := by
  induction hn : p.outstanding generalizing w p with
  | zero =>
      refine ⟨[], w, rfl, false, ?_⟩
      have hmem : i ∈ w.scheduler.healthy w.now :=
        Scheduler.mem_healthy.mpr ⟨p, hp, isHealthy_of_recoverable hrec hn w.now⟩
      exact mt (Scheduler.assign_eq_none_iff false).mp (List.ne_nil_of_mem hmem)
  | succ n ih =>
      have hawaits : Awaits w.scheduler i := ⟨p, hp, by omega⟩
      have hstep : step w (.delivered i 0 0)
          = some { w with scheduler := w.scheduler.recordDelivered i w.now 0 0 } :=
        if_pos ⟨hawaits, le_refl 0⟩
      have hpath : (w.scheduler.recordDelivered i w.now 0 0).paths[i]?
          = some (p.recordDelivered w.now 0 0) := by
        rw [Scheduler.getElem?_recordDelivered, if_pos rfl, hp]
        rfl
      have hrec' : Recoverable (p.recordDelivered w.now 0 0) :=
        ⟨hrec.1, (leastLoss_recordDelivered (by omega) w.now 0 0).trans_le hrec.2⟩
      have hn' : (p.recordDelivered w.now 0 0).outstanding = n := by
        simp only [PathHealth.outstanding, PathHealth.recordDelivered] at hn ⊢
        omega
      obtain ⟨es, t, hexec, hassign⟩ :=
        ih (w := { w with scheduler := w.scheduler.recordDelivered i w.now 0 0 }) hpath hrec' hn'
      exact ⟨_, t, exec_cons.mpr ⟨_, hstep, hexec⟩, hassign⟩

/-- There is a way back exactly if a path is recoverable. -/
theorem canAssign_iff {w : World} : CanAssign w ↔ Unlocked w.scheduler := by
  constructor
  · rintro ⟨es, t, hexec, latencyCritical, hassign⟩
    by_contra hlocked
    have ht : ¬ Unlocked t.scheduler :=
      exec_invariant (I := fun w => ¬ Unlocked w.scheduler)
        (fun _ _ _ hs hstep => locked_step hs hstep) hlocked hexec
    exact hassign ((Scheduler.assign_eq_none_iff _).mpr (healthy_eq_nil_of_locked ht t.now))
  · rintro ⟨i, p, hp, hrec⟩
    exact canAssign_of_recoverable hp hrec

/-! ## Runs -/

/-- A loss that is recorded leaves a recoverable path. -/
def LossBearable (w : World) : Event → Prop
  | .lost path => LeavesOne w.scheduler path
  | _ => True

theorem mem_addPath {s : Scheduler} {p : PathHealth} (h : p ∈ s.paths) (name : String) (now : ℚ) :
    p ∈ (s.addPath name now).paths := by
  unfold Scheduler.addPath
  split
  · exact h
  · exact List.mem_append_left _ h

theorem unlocked_start (first : String) (others : List String) (now : ℚ) (hedging : Bool) :
    Unlocked (start first others now hedging).scheduler := by
  have hmem : PathHealth.new first now ∈ (others.foldl (fun s name => s.addPath name now)
      (Scheduler.new.addPath first now)).paths := by
    have hfrom : ∀ s : Scheduler, PathHealth.new first now ∈ s.paths →
        PathHealth.new first now ∈ (others.foldl (fun s name => s.addPath name now) s).paths := by
      induction others with
      | nil => exact fun s hs => hs
      | cons name others ih => exact fun s hs => ih _ (mem_addPath hs name now)
    exact hfrom _ (List.mem_singleton.mpr rfl)
  obtain ⟨i, hi⟩ := List.mem_iff_getElem?.mp hmem
  exact ⟨i, _, hi, rfl, by norm_num [leastLoss, PathHealth.new, unhealthyLoss]⟩

/-- A step keeps the way back unless it is a loss that leaves no recoverable path. -/
theorem canAssign_step {w t : World} {e : Event} (h : CanAssign w) (hstep : step w e = some t) :
    CanAssign t ↔ LossBearable w e := by
  rw [canAssign_iff] at h ⊢
  cases e with
  | assign latencyCritical =>
      obtain rfl := Option.some.inj hstep
      refine iff_of_true ?_ trivial
      by_cases hnone : (w.scheduler.assign w.now latencyCritical).1 = none
      · rw [Scheduler.assign_of_none ((Scheduler.assign_eq_none_iff _).mp hnone)]
        exact h
      · exact unlocked_assign hnone
  | delivered path bytes rtt =>
      obtain ⟨⟨hawaits, -⟩, rfl⟩ := Option.ite_some_none_eq_some.mp hstep
      exact iff_of_true ((unlocked_recordDelivered hawaits w.now bytes rtt).mpr h) trivial
  | lost path =>
      obtain ⟨-, rfl⟩ := Option.ite_some_none_eq_some.mp hstep
      exact unlocked_recordLost w.scheduler path
  | wait duration =>
      obtain ⟨-, rfl⟩ := Option.ite_some_none_eq_some.mp hstep
      exact iff_of_true h trivial

/-- A run has a way back to an assignment in each of its states exactly if
each loss leaves a recoverable path. -/
theorem always_canAssign_iff (first : String) (others : List String) (now : ℚ) (hedging : Bool)
    (es : List Event) :
    Always step CanAssign (start first others now hedging) es
      ↔ Meets step LossBearable (start first others now hedging) es :=
  always_iff_meets (I := fun _ => True)
    (fun _ _ _ _ hs hstep => ⟨canAssign_step hs hstep, fun _ => trivial⟩) trivial
    (canAssign_iff.mpr (unlocked_start first others now hedging))

/-- One chunk is sent on the only path, and lost. -/
def oneLoss : List Event := [.assign false, .lost 0]

/-- Its loss is then 0.25, which is above the limit, and stays so. -/
theorem locked_out_by_one_loss :
    ¬ Always step CanAssign (start "quic" [] 0 false) oneLoss := by
  have hlast : (exec step (start "quic" [] 0 false) oneLoss).map
      (fun t => t.scheduler.paths.all fun p => decide (¬ Recoverable p)) = some true := by
    decide +kernel
  obtain ⟨t, hexec, hall⟩ := Option.map_eq_some_iff.mp hlast
  refine not_always_of_exec hexec fun hassign => ?_
  obtain ⟨i, p, hp, hrec⟩ := canAssign_iff.mp hassign
  have hlocked := List.all_eq_true.mp hall p (List.mem_of_getElem? hp)
  exact of_decide_eq_true hlocked hrec

end Multipath

end Kanrin
