import Kanrin.Lib.FairShares
import Kanrin.Striping

/-!
# Fair shares

All that is done with the scheduler of `kanrin-client/src/multipath.rs`, over
exact rationals: paths are added and removed, disabled and enabled again, and
fall ill and get well, and their capacities are estimated anew with every
outcome.

A path is due its share of every chunk that is assigned while it is healthy.
The account of a path (`due`, `given`) is opened when it is added; one that is
removed and added again is another path. `shares_fair`: no account is ever out
by as many chunks as there have been paths, however many chunks there were.
-/

namespace Kanrin

open Lib

/-! ## The rest of the scheduler -/

namespace PathHealth

def disable (p : PathHealth) : PathHealth := { p with disabled := true }

def enable (now : ℚ) (p : PathHealth) : PathHealth :=
  { p with disabled := false, lastSuccess := now }

/-- What is called on a `path_mut`. -/
inductive Update where
  | sent
  | delivered (bytes : Nat) (rtt : ℚ)
  | lost
  | disable
  | enable

def Update.apply (now : ℚ) : Update → PathHealth → PathHealth
  | .sent => PathHealth.recordSent
  | .delivered bytes rtt => PathHealth.recordDelivered now bytes rtt
  | .lost => PathHealth.recordLost
  | .disable => PathHealth.disable
  | .enable => PathHealth.enable now

theorem name_apply (now : ℚ) (u : Update) (p : PathHealth) : (u.apply now p).name = p.name := by
  cases u <;> rfl

theorem ewma_pos {previous sample : ℚ} (hprevious : 0 < previous) (hsample : 0 ≤ sample) :
    0 < ewma previous sample := by
  unfold ewma ewmaAlpha
  linarith

/-- No path is ever taken to have no capacity left. -/
theorem capacity_pos_apply {p : PathHealth} (h : 0 < p.capacityBps) (now : ℚ) (u : Update) :
    0 < (u.apply now p).capacityBps := by
  cases u with
  | sent | disable | enable => exact h
  | delivered bytes rtt =>
      have hrtt : (0 : ℚ) < max rtt (1 / 1000) := lt_max_of_lt_right (by norm_num)
      exact ewma_pos h (div_nonneg (Nat.cast_nonneg bytes) hrtt.le)
  | lost => exact ewma_pos h (by linarith)

end PathHealth

namespace Scheduler

/-- Where the path of a name is. -/
def position (s : Scheduler) (name : String) : Option Nat :=
  s.paths.findIdx? fun p => p.name = name

def removeAt (s : Scheduler) (i : Nat) : Scheduler where
  paths := s.paths.eraseIdx i
  credits := s.credits.eraseIdx i
  hedging := s.hedging
  lengths := by rw [List.length_eraseIdx, List.length_eraseIdx, s.lengths]
  unique := s.unique.sublist ((List.eraseIdx_sublist s.paths i).map _)

def removePath (s : Scheduler) (name : String) : Scheduler :=
  match s.position name with
  | some i => s.removeAt i
  | none => s

def setHedging (s : Scheduler) (enabled : Bool) : Scheduler := { s with hedging := enabled }

/-- `path_mut`, and a call on what it finds. -/
def updateNamed (s : Scheduler) (name : String) (now : ℚ) (u : PathHealth.Update) : Scheduler :=
  match s.position name with
  | some i => s.updatePath i (u.apply now) (PathHealth.name_apply now u)
  | none => s

/-- The part of the next chunk that is due to the `i`th path. -/
def shareAt (s : Scheduler) (now : ℚ) (i : Nat) : ℚ :=
  if i ∈ s.healthy now then s.capacity i / s.total now else 0

end Scheduler

namespace Scheduler

variable {s : Scheduler} {now : ℚ}

theorem capacity_pos (hpos : ∀ p ∈ s.paths, 0 < p.capacityBps) {i : Nat} (hi : i ∈ s.healthy now) :
    0 < s.capacity i := by
  obtain ⟨p, hp, -⟩ := mem_healthy.mp hi
  rw [capacity, hp]
  exact hpos p (List.mem_of_getElem? hp)

theorem total_pos (hpos : ∀ p ∈ s.paths, 0 < p.capacityBps) (h : s.healthy now ≠ []) :
    0 < s.total now := by
  refine List.sum_pos _ ?_ (fun hnil => h (List.map_eq_nil_iff.mp hnil))
  intro c hc
  obtain ⟨i, hi, rfl⟩ := List.mem_map.mp hc
  exact capacity_pos hpos hi

theorem shareAt_pos_iff (hpos : ∀ p ∈ s.paths, 0 < p.capacityBps) {i : Nat} :
    0 < s.shareAt now i ↔ i ∈ s.healthy now := by
  unfold shareAt
  split
  · rename_i hi
    exact iff_of_true (div_pos (capacity_pos hpos hi)
      (total_pos hpos (List.ne_nil_of_mem hi))) hi
  · rename_i hi
    exact iff_of_false (lt_irrefl _) hi

theorem shareAt_nonneg (hpos : ∀ p ∈ s.paths, 0 < p.capacityBps) (i : Nat) :
    0 ≤ s.shareAt now i := by
  by_cases hi : i ∈ s.healthy now
  · exact ((shareAt_pos_iff hpos).mpr hi).le
  · rw [shareAt, if_neg hi]

theorem sum_filter {f : Nat → ℚ} {p : Nat → Bool} (l : List Nat) :
    (l.map fun i => if p i then f i else 0).sum = ((l.filter p).map f).sum := by
  induction l with
  | nil => rfl
  | cons i l ih =>
      rw [List.map_cons, List.sum_cons, ih, List.filter_cons]
      split
      · rw [List.map_cons, List.sum_cons]
      · rw [zero_add]

/-- The whole chunk is due to the healthy paths. -/
theorem sum_shareAt (hpos : ∀ p ∈ s.paths, 0 < p.capacityBps) (h : s.healthy now ≠ []) :
    ((List.range s.paths.length).map (s.shareAt now)).sum = 1 := by
  have hshare : (List.range s.paths.length).map (s.shareAt now)
      = (List.range s.paths.length).map fun i =>
          if s.paths[i]?.any (·.isHealthy now) then s.capacity i / s.total now else 0 := by
    refine List.map_congr_left fun i hi => if_congr ?_ rfl rfl
    rw [healthy, List.mem_filter]
    exact and_iff_right hi
  rw [hshare, sum_filter]
  show ((s.healthy now).map fun i => s.capacity i / s.total now).sum = 1
  simp only [div_eq_mul_inv]
  rw [List.sum_map_mul_right, ← total, mul_inv_cancel₀ (total_pos hpos h).ne']

theorem topped_eq : s.topped now = s.credits.mapIdx fun i credit => credit + s.shareAt now i := by
  rw [topped]
  congr 1
  funext i credit
  rw [shareAt]
  split
  · rfl
  · rw [add_zero]

theorem assign_credits {i : Nat} (h : s.chosen now = some i) (latencyCritical : Bool) :
    ∃ a, (s.assign now latencyCritical).1 = some a ∧ a.primary = s.nameAt i
      ∧ (s.assign now latencyCritical).2.credits = (s.spendOn now i).credits := by
  rcases assign_of_chosen h latencyCritical with ⟨-, heq⟩ | ⟨j, -, heq⟩
  · exact ⟨_, congrArg Prod.fst heq, rfl, congrArg (fun r => r.2.credits) heq⟩
  · exact ⟨_, congrArg Prod.fst heq, rfl, congrArg (fun r => r.2.credits) heq⟩

end Scheduler

/-! ## The system -/

/-- The scheduler, and an account for every path there has been. -/
structure Fleet where
  scheduler : Scheduler
  now : ℚ
  /-- How many paths have been added. -/
  added : Nat
  /-- Which of the additions the paths come from. -/
  ids : List Nat
  due : Nat → ℚ
  given : Nat → Nat

namespace Fleet

inductive Event where
  | assign (latencyCritical : Bool)
  | add (name : String)
  | remove (name : String)
  | setHedging (enabled : Bool)
  | update (name : String) (u : PathHealth.Update)
  | wait (duration : ℚ)

/-- The path of an addition, if it is still there. -/
def place (t : Fleet) (id : Nat) : Option Nat := t.ids.findIdx? (· = id)

def share (t : Fleet) (id : Nat) : ℚ := ((t.place id).map (t.scheduler.shareAt t.now)).getD 0

/-- The chunk is sent on the path of this addition. -/
def Carries (t : Fleet) (assignment : Option Assignment) (id : Nat) : Prop :=
  ∃ a i, assignment = some a ∧ t.place id = some i ∧ t.scheduler.nameAt i = a.primary

instance (t : Fleet) (assignment : Option Assignment) (id : Nat) :
    Decidable (t.Carries assignment id) :=
  decidable_of_iff (assignment.any (fun a =>
      (t.place id).any fun i => t.scheduler.nameAt i = a.primary) = true) <| by
    cases assignment <;> cases h : t.place id <;> simp [Carries, h]

def start (now : ℚ) : Fleet where
  scheduler := .new
  now := now
  added := 0
  ids := []
  due _ := 0
  given _ := 0

/-- A call of `assign`, and what it means for the accounts. -/
def assigned (t : Fleet) (latencyCritical : Bool) : Fleet :=
  { t with
    scheduler := (t.scheduler.assign t.now latencyCritical).2
    due := fun id => t.due id + t.share id
    given := fun id => t.given id
      + if t.Carries (t.scheduler.assign t.now latencyCritical).1 id then 1 else 0 }

def step (t : Fleet) : Event → Option Fleet
  | .assign latencyCritical => some (t.assigned latencyCritical)
  | .add name =>
      if name ∈ t.scheduler.paths.map PathHealth.name then some t
      else some { t with
        scheduler := t.scheduler.addPath name t.now
        added := t.added + 1
        ids := t.ids ++ [t.added] }
  | .remove name =>
      match t.scheduler.position name with
      | some i => some { t with
          scheduler := t.scheduler.removePath name, ids := t.ids.eraseIdx i }
      | none => some t
  | .setHedging enabled => some { t with scheduler := t.scheduler.setHedging enabled }
  | .update name u => some { t with scheduler := t.scheduler.updateNamed name t.now u }
  | .wait duration => if 0 ≤ duration then some { t with now := t.now + duration } else none

/-- What the path is owed. -/
def credit (t : Fleet) (id : Nat) : ℚ := t.due id - t.given id

structure Inv (t : Fleet) : Prop where
  length : t.ids.length = t.scheduler.paths.length
  nodup : t.ids.Nodup
  opened : ∀ id ∈ t.ids, id < t.added
  unopened : ∀ id, t.added ≤ id → t.credit id = 0
  capacity : ∀ p ∈ t.scheduler.paths, 0 < p.capacityBps
  credits : t.scheduler.credits = t.ids.map t.credit
  fair : FairCredits (Finset.range t.added) t.credit

theorem inv_start (now : ℚ) : (start now).Inv where
  length := rfl
  nodup := List.nodup_nil
  opened _ h := absurd h List.not_mem_nil
  unopened _ _ := by
    show (0 : ℚ) - (0 : Nat) = 0
    rw [Nat.cast_zero, sub_zero]
  capacity _ h := absurd h List.not_mem_nil
  credits := rfl
  fair := (fairCredits_zero _).congr fun _ h => absurd h (by simp [start])

variable {t : Fleet}

theorem Inv.place_iff (h : t.Inv) {id i : Nat} : t.place id = some i ↔ t.ids[i]? = some id := by
  rw [place, List.findIdx?_eq_some_iff_getElem, List.getElem?_eq_some_iff]
  constructor
  · rintro ⟨hlt, heq, -⟩
    exact ⟨hlt, of_decide_eq_true heq⟩
  · rintro ⟨hlt, heq⟩
    refine ⟨hlt, decide_eq_true heq, fun j hj hother => ?_⟩
    have hsame := (h.nodup.getElem_inj_iff).mp ((of_decide_eq_true hother).trans heq.symm)
    omega

theorem Inv.share_eq (h : t.Inv) {id i : Nat} (hi : t.ids[i]? = some id) :
    t.share id = t.scheduler.shareAt t.now i := by
  rw [share, h.place_iff.mpr hi]
  rfl

theorem share_eq_zero {id : Nat} (h : id ∉ t.ids) : t.share id = 0 := by
  have hplace : t.place id = none := by
    rw [place, List.findIdx?_eq_none_iff]
    intro k hk
    exact decide_eq_false fun heq => h (heq ▸ hk)
  rw [share, hplace]
  rfl

theorem Inv.share_nonneg (h : t.Inv) (id : Nat) : 0 ≤ t.share id := by
  by_cases hmem : id ∈ t.ids
  · obtain ⟨i, hi⟩ := List.mem_iff_getElem?.mp hmem
    rw [h.share_eq hi]
    exact Scheduler.shareAt_nonneg h.capacity i
  · rw [share_eq_zero hmem]

theorem Inv.sum_share (h : t.Inv) (hne : t.scheduler.healthy t.now ≠ []) :
    ∑ id ∈ Finset.range t.added, t.share id = 1 := by
  have hmap : t.ids.map t.share
      = (List.range t.scheduler.paths.length).map (t.scheduler.shareAt t.now) := by
    refine List.ext_getElem (by simp [h.length]) fun i hi _ => ?_
    rw [List.getElem_map, List.getElem_map, List.getElem_range]
    exact h.share_eq (List.getElem?_eq_getElem (by simpa using hi))
  have hsub : t.ids.toFinset ⊆ Finset.range t.added := fun id hid =>
    Finset.mem_range.mpr (h.opened id (List.mem_toFinset.mp hid))
  rw [← Finset.sum_subset hsub fun id _ hout =>
      share_eq_zero fun hmem => hout (List.mem_toFinset.mpr hmem),
    List.sum_toFinset _ h.nodup, hmap]
  exact Scheduler.sum_shareAt h.capacity hne

/-- The credits that the scheduler compares are what the paths are owed. -/
theorem Inv.topped_eq (h : t.Inv) :
    t.scheduler.topped t.now = t.ids.map fun id => t.credit id + t.share id := by
  refine List.ext_getElem? fun i => ?_
  rw [Scheduler.topped_eq, List.getElem?_mapIdx, h.credits, List.getElem?_map, List.getElem?_map]
  cases hi : t.ids[i]? with
  | none => rfl
  | some id =>
      show some (t.credit id + t.scheduler.shareAt t.now i) = some (t.credit id + t.share id)
      rw [h.share_eq hi]

theorem Inv.getD_topped (h : t.Inv) {id i : Nat} (hi : t.ids[i]? = some id) :
    (t.scheduler.topped t.now).getD i 0 = t.credit id + t.share id := by
  rw [h.topped_eq, List.getD_eq_getElem?_getD, List.getElem?_map, hi]
  rfl

/-- One of them is spent. -/
theorem Inv.credits_spendOn (h : t.Inv) {id i : Nat} (hi : t.ids[i]? = some id) :
    (t.scheduler.spendOn t.now i).credits = t.ids.map (spend t.share t.credit id) := by
  refine List.ext_getElem? fun k => ?_
  rw [Scheduler.spendOn, List.getElem?_modify, h.topped_eq, List.getElem?_map, List.getElem?_map]
  cases hk : t.ids[k]? with
  | none => rfl
  | some k' =>
      have hsame : i = k ↔ k' = id := by
        rw [← h.place_iff] at hi hk
        constructor
        · rintro rfl
          rw [h.place_iff] at hi hk
          exact Option.some.inj (hk.symm.trans hi)
        · rintro rfl
          exact Option.some.inj (hi.symm.trans hk)
      refine congrArg some ?_
      show (if i = k then t.credit k' + t.share k' - 1 else t.credit k' + t.share k') = _
      rw [spend, if_congr hsame rfl rfl]
      split
      · rfl
      · rw [sub_zero]

/-- Who is due a part is owed no more than who gets the chunk. -/
theorem Inv.chosen_max (h : t.Inv) {i id : Nat} (hchosen : t.scheduler.chosen t.now = some i)
    (hi : t.ids[i]? = some id) {k : Nat} (hk : 0 < t.share k) :
    t.credit k + t.share k ≤ t.credit id + t.share id := by
  have hmem : k ∈ t.ids := by
    by_contra hout
    rw [share_eq_zero hout] at hk
    exact lt_irrefl _ hk
  obtain ⟨j, hj⟩ := List.mem_iff_getElem?.mp hmem
  rw [h.share_eq hj, Scheduler.shareAt_pos_iff h.capacity] at hk
  rw [← h.getD_topped hj, ← h.getD_topped hi]
  exact le_of_maxBy hchosen j hk

theorem Inv.carries_iff (h : t.Inv) {i id : Nat} (hi : t.ids[i]? = some id) {a : Assignment}
    (ha : a.primary = t.scheduler.nameAt i) (k : Nat) : t.Carries (some a) k ↔ k = id := by
  have hlt := (List.getElem?_eq_some_iff.mp hi).1
  constructor
  · rintro ⟨b, j, hb, hj, hname⟩
    obtain rfl := Option.some.inj hb
    rw [h.place_iff] at hj
    have hjlt := (List.getElem?_eq_some_iff.mp hj).1
    have hsame := (Multipath.nameAt_inj (h.length ▸ hjlt) (h.length ▸ hlt)).mp (hname.trans ha)
    rw [hsame, hi] at hj
    exact (Option.some.inj hj).symm
  · rintro rfl
    exact ⟨a, i, rfl, h.place_iff.mpr hi, ha.symm⟩

/-- Where nothing is owed otherwise, and no path comes or goes. -/
theorem Inv.of_same (h : t.Inv) {t' : Fleet} (hadded : t'.added = t.added) (hids : t'.ids = t.ids)
    (hpaths : t'.scheduler.paths.length = t.scheduler.paths.length)
    (hcapacity : ∀ p ∈ t'.scheduler.paths, 0 < p.capacityBps)
    (hcredits : t'.scheduler.credits = t.scheduler.credits)
    (hcredit : ∀ id, t'.credit id = t.credit id) : t'.Inv where
  length := by rw [hids, hpaths, h.length]
  nodup := hids ▸ h.nodup
  opened id hid := by
    rw [hids] at hid
    exact hadded ▸ h.opened id hid
  unopened id hid := (hcredit id).trans (h.unopened id (hadded ▸ hid))
  capacity := hcapacity
  credits := by
    rw [hcredits, h.credits, hids]
    exact List.map_congr_left fun id _ => (hcredit id).symm
  fair := by
    rw [hadded]
    exact h.fair.congr fun id _ => hcredit id

theorem capacity_updatePath {s : Scheduler} (hpos : ∀ p ∈ s.paths, 0 < p.capacityBps) (i : Nat)
    {f : PathHealth → PathHealth} (hf : ∀ p, (f p).name = p.name)
    (hkeep : ∀ p : PathHealth, 0 < p.capacityBps → 0 < (f p).capacityBps) :
    ∀ p ∈ (s.updatePath i f hf).paths, 0 < p.capacityBps := by
  intro p hp
  obtain ⟨j, hj⟩ := List.mem_iff_getElem?.mp hp
  rw [Scheduler.getElem?_updatePath] at hj
  split at hj
  · obtain ⟨q, hq, rfl⟩ := Option.map_eq_some_iff.mp hj
    exact hkeep q (hpos q (List.mem_of_getElem? hq))
  · exact hpos p (List.mem_of_getElem? hj)

theorem paths_assign (s : Scheduler) (now : ℚ) (latencyCritical : Bool)
    (hpos : ∀ p ∈ s.paths, 0 < p.capacityBps) :
    (s.assign now latencyCritical).2.paths.length = s.paths.length
      ∧ ∀ p ∈ (s.assign now latencyCritical).2.paths, 0 < p.capacityBps := by
  have hkeep : ∀ p : PathHealth, 0 < p.capacityBps → 0 < p.recordSent.capacityBps := fun _ hp => hp
  cases hchosen : s.chosen now with
  | none =>
      rw [Scheduler.assign, hchosen]
      exact ⟨rfl, hpos⟩
  | some i =>
      have hone := capacity_updatePath (s := s.spendOn now i) hpos i PathHealth.name_recordSent hkeep
      rcases Scheduler.assign_of_chosen hchosen latencyCritical with ⟨-, heq⟩ | ⟨j, -, heq⟩
      · rw [heq]
        exact ⟨List.length_modify .., hone⟩
      · rw [heq]
        exact ⟨(List.length_modify ..).trans (List.length_modify ..),
          capacity_updatePath hone j PathHealth.name_recordSent hkeep⟩

theorem credit_assigned (t : Fleet) (latencyCritical : Bool) (id : Nat) :
    (t.assigned latencyCritical).credit id = t.credit id + t.share id
      - if t.Carries (t.scheduler.assign t.now latencyCritical).1 id then 1 else 0 := by
  rw [credit, credit, assigned]
  push_cast
  ring

/-- Nothing is due where no path is healthy. -/
theorem Inv.share_of_none (h : t.Inv) (hnil : t.scheduler.healthy t.now = []) (id : Nat) :
    t.share id = 0 := by
  by_cases hmem : id ∈ t.ids
  · obtain ⟨i, hi⟩ := List.mem_iff_getElem?.mp hmem
    rw [h.share_eq hi, Scheduler.shareAt, hnil, if_neg List.not_mem_nil]
  · exact share_eq_zero hmem

/-- The accounts after a call. -/
theorem Inv.assigned (h : t.Inv) (latencyCritical : Bool) : (t.assigned latencyCritical).Inv := by
  obtain ⟨hlength, hcapacity⟩ := paths_assign t.scheduler t.now latencyCritical h.capacity
  rcases Option.eq_none_or_eq_some (t.scheduler.chosen t.now) with hchosen | ⟨i, hchosen⟩
  · have hnil : t.scheduler.healthy t.now = [] := maxBy_eq_none.mp hchosen
    have hassign := Scheduler.assign_of_none hnil latencyCritical
    refine h.of_same rfl rfl hlength hcapacity ?_ fun id => ?_
    · exact congrArg (fun r => r.2.credits) hassign
    · have hnone : ¬ t.Carries (t.scheduler.assign t.now latencyCritical).1 id := by
        rw [hassign]
        rintro ⟨a, i, ⟨⟩, -⟩
      rw [credit_assigned, if_neg hnone, h.share_of_none hnil, add_zero, sub_zero]
  · obtain ⟨a, ha, hprimary, hcredits⟩ := Scheduler.assign_credits hchosen latencyCritical
    have hhealthy := mem_of_maxBy hchosen
    obtain ⟨p, hp, -⟩ := Scheduler.mem_healthy.mp hhealthy
    have hlt : i < t.ids.length := by
      rw [h.length]
      exact (List.getElem?_eq_some_iff.mp hp).1
    obtain ⟨id, hi⟩ : ∃ id, t.ids[i]? = some id := ⟨_, List.getElem?_eq_getElem hlt⟩
    have hid := List.mem_of_getElem? hi
    have hcredit : (t.assigned latencyCritical).credit = spend t.share t.credit id := by
      funext k
      rw [credit_assigned, ha, spend, if_congr (h.carries_iff hi hprimary k) rfl rfl]
    have hfair : FairCredits (Finset.range t.added) (spend t.share t.credit id) :=
      h.fair.spend (h.sum_share (List.ne_nil_of_mem hhealthy)) (fun k _ => h.share_nonneg k)
        (Finset.mem_range.mpr (h.opened id hid)) fun k _ hk => h.chosen_max hchosen hi hk
    refine ⟨hlength ▸ h.length, h.nodup, h.opened, fun k hk => ?_, hcapacity, ?_, ?_⟩
    · have hout : k ∉ t.ids := fun hmem => absurd (h.opened k hmem) (not_lt.mpr hk)
      have hne : k ≠ id := fun heq => hout (heq ▸ hid)
      rw [hcredit, spend, h.unopened k hk, share_eq_zero hout, if_neg hne, add_zero, sub_zero]
    · rw [hcredit]
      exact hcredits.trans (h.credits_spendOn hi)
    · rw [hcredit]
      exact hfair

theorem capacity_new (name : String) (now : ℚ) : 0 < (PathHealth.new name now).capacityBps := by
  show 0 < initialCapacity
  norm_num [initialCapacity]

/-- A new account is opened. -/
theorem Inv.add (h : t.Inv) {name : String}
    (hnew : name ∉ t.scheduler.paths.map PathHealth.name) :
    Inv { t with
      scheduler := t.scheduler.addPath name t.now
      added := t.added + 1
      ids := t.ids ++ [t.added] } := by
  have hzero : t.credit t.added = 0 := h.unopened _ le_rfl
  have hout : t.added ∉ t.ids := fun hmem => lt_irrefl _ (h.opened _ hmem)
  rw [Scheduler.addPath, dif_neg hnew]
  refine ⟨?_, ?_, ?_, fun id hid => h.unopened id (Nat.le_of_succ_le hid), ?_, ?_, ?_⟩
  · rw [List.length_append, List.length_append, h.length]
    rfl
  · exact List.nodup_append.mpr ⟨h.nodup, List.nodup_singleton _, fun a ha b hb => by
      rw [List.mem_singleton.mp hb]
      rintro rfl
      exact hout ha⟩
  · intro id hid
    rcases List.mem_append.mp hid with hid | hid
    · exact Nat.lt_succ_of_lt (h.opened id hid)
    · rw [List.mem_singleton.mp hid]
      exact Nat.lt_succ_self _
  · intro p hp
    rcases List.mem_append.mp hp with hp | hp
    · exact h.capacity p hp
    · rw [List.mem_singleton.mp hp]
      exact capacity_new name t.now
  · show t.scheduler.credits ++ [0] = (t.ids ++ [t.added]).map t.credit
    rw [List.map_append, ← h.credits, List.map_singleton, hzero]
  · show FairCredits (Finset.range (t.added + 1)) t.credit
    rw [Finset.range_add_one]
    exact h.fair.insert Finset.notMem_range_self hzero

/-- The account of a path that is removed stays as it is. -/
theorem Inv.remove (h : t.Inv) (i : Nat) :
    Inv { t with scheduler := t.scheduler.removeAt i, ids := t.ids.eraseIdx i } where
  length := by
    show (t.ids.eraseIdx i).length = (t.scheduler.paths.eraseIdx i).length
    rw [List.length_eraseIdx, List.length_eraseIdx, h.length]
  nodup := h.nodup.sublist (List.eraseIdx_sublist _ _)
  opened id hid := h.opened id (List.mem_of_mem_eraseIdx hid)
  unopened := h.unopened
  capacity p hp := h.capacity p (List.mem_of_mem_eraseIdx hp)
  credits := by
    show t.scheduler.credits.eraseIdx i = (t.ids.eraseIdx i).map t.credit
    rw [h.credits, List.eraseIdx_map]
  fair := h.fair

theorem Inv.update (h : t.Inv) (name : String) (u : PathHealth.Update) :
    Inv { t with scheduler := t.scheduler.updateNamed name t.now u } := by
  rw [Scheduler.updateNamed]
  cases t.scheduler.position name with
  | none => exact h
  | some i =>
      refine h.of_same rfl rfl (List.length_modify ..) ?_ rfl fun _ => rfl
      exact capacity_updatePath h.capacity i (PathHealth.name_apply t.now u)
        fun p hp => PathHealth.capacity_pos_apply hp t.now u

theorem Inv.step {e : Event} {t' : Fleet} (h : t.Inv) (hstep : step t e = some t') : t'.Inv := by
  cases e with
  | assign latencyCritical =>
      obtain rfl := Option.some.inj hstep
      exact h.assigned latencyCritical
  | add name =>
      rw [Fleet.step] at hstep
      split at hstep
      · obtain rfl := Option.some.inj hstep
        exact h
      · rename_i hnew
        obtain rfl := Option.some.inj hstep
        exact h.add hnew
  | remove name =>
      rw [Fleet.step, Scheduler.removePath] at hstep
      cases hposition : t.scheduler.position name with
      | none =>
          rw [hposition] at hstep
          obtain rfl := Option.some.inj hstep
          exact h
      | some i =>
          rw [hposition] at hstep
          obtain rfl := Option.some.inj hstep
          exact h.remove i
  | setHedging enabled =>
      obtain rfl := Option.some.inj hstep
      exact h.of_same rfl rfl rfl h.capacity rfl fun _ => rfl
  | update name u =>
      obtain rfl := Option.some.inj hstep
      exact h.update name u
  | wait duration =>
      obtain ⟨-, rfl⟩ := Option.ite_some_none_eq_some.mp hstep
      exact h.of_same rfl rfl rfl h.capacity rfl fun _ => rfl

/-- What a path was given is never as far from what it was due as there have
been paths. -/
theorem shares_fair (now : ℚ) (es : List Event) :
    Always Fleet.step (fun t => ∀ id < t.added, |t.due id - t.given id| ≤ t.added - 1) (start now)
      es := by
  refine (always_of_invariant (fun _ _ _ h hstep => Inv.step h hstep) (inv_start now)).mono ?_
  intro t h id hid
  have habs := h.fair.abs_le_card (Finset.mem_range.mpr hid)
  rwa [Finset.card_range] at habs

end Fleet

end Kanrin
