import Mathlib.Data.Rat.Defs
import Mathlib.Algebra.Order.Field.Rat
import Mathlib.Tactic.Linarith
import Kanrin.Lib.Credits
import Kanrin.Lib.Run
import Kanrin.Lib.SortByKey

/-!
# Multipath scheduling

`kanrin-client/src/multipath.rs` over exact rationals: the health of a path
and the scheduler that gives it chunks. Durations and instants are in seconds,
and the instant of a call is an argument.

A run is made of calls of `assign`, of outcomes, and of time that passes. An
outcome is for a chunk that the path was given and that has had none yet.
-/

namespace Kanrin

open Lib

/-! ## The health of a path -/

def ewmaAlpha : ℚ := 1 / 4

def unhealthyLoss : ℚ := 1 / 5

def staleAfter : ℚ := 5

def initialCapacity : ℚ := 256 * 1024

def ewma (previous sample : ℚ) : ℚ := ewmaAlpha * sample + (1 - ewmaAlpha) * previous

structure PathHealth where
  name : String
  capacityBps : ℚ
  rtt : Option ℚ
  sent : Nat
  acknowledged : Nat
  lost : Nat
  lossEwma : ℚ
  lastSuccess : ℚ
  disabled : Bool
deriving DecidableEq

namespace PathHealth

def new (name : String) (now : ℚ) : PathHealth where
  name := name
  capacityBps := initialCapacity
  rtt := none
  sent := 0
  acknowledged := 0
  lost := 0
  lossEwma := 0
  lastSuccess := now
  disabled := false

def recordSent (p : PathHealth) : PathHealth := { p with sent := p.sent + 1 }

def recordDelivered (now : ℚ) (bytes : Nat) (rtt : ℚ) (p : PathHealth) : PathHealth :=
  { p with
    acknowledged := p.acknowledged + 1
    lastSuccess := now
    lossEwma := ewma p.lossEwma 0
    capacityBps := ewma p.capacityBps (bytes / max rtt (1 / 1000))
    rtt :=
      match p.rtt with
      | some prev => some (ewma prev rtt)
      | none => some rtt }

def recordLost (p : PathHealth) : PathHealth :=
  { p with
    lost := p.lost + 1
    lossEwma := ewma p.lossEwma 1
    capacityBps := ewma p.capacityBps (p.capacityBps * (1 / 2)) }

theorem name_recordSent (p : PathHealth) : p.recordSent.name = p.name := rfl

theorem name_recordDelivered (now : ℚ) (bytes : Nat) (rtt : ℚ) (p : PathHealth) :
    (p.recordDelivered now bytes rtt).name = p.name := rfl

theorem name_recordLost (p : PathHealth) : p.recordLost.name = p.name := rfl

def isHealthy (p : PathHealth) (now : ℚ) : Bool :=
  if p.disabled then false
  else if p.lossEwma > unhealthyLoss then false
  else
    let awaiting := p.sent > p.acknowledged + p.lost
    !(awaiting && now - p.lastSuccess > staleAfter)

/-- The chunks that have had no outcome. -/
def outstanding (p : PathHealth) : Nat := p.sent - (p.acknowledged + p.lost)

theorem isHealthy_iff (p : PathHealth) (now : ℚ) :
    p.isHealthy now = true ↔ p.disabled = false ∧ p.lossEwma ≤ unhealthyLoss
      ∧ (p.outstanding = 0 ∨ now - p.lastSuccess ≤ staleAfter) := by
  unfold isHealthy outstanding
  cases p.disabled with
  | true => simp
  | false =>
      by_cases hloss : p.lossEwma > unhealthyLoss
      · simp [hloss]
      · simp [hloss, not_lt.mp hloss, Nat.sub_eq_zero_iff_le]

/-- Over exact rationals; the code rounds to `f32`. -/
def score (p : PathHealth) (now : ℚ) : ℚ :=
  if p.isHealthy now then
    let throughput := min (p.capacityBps / (4 * 1024 * 1024)) 1
    let latency :=
      match p.rtt with
      | some rtt => max 0 (min (1 - rtt / (1 / 2)) 1)
      | none => 1 / 2
    3 / 5 * throughput + 2 / 5 * latency
  else 0

theorem score_of_unhealthy {p : PathHealth} {now : ℚ} (h : p.isHealthy now = false) :
    p.score now = 0 := by
  rw [score, h]
  rfl

theorem score_le_one (p : PathHealth) (now : ℚ) : p.score now ≤ 1 := by
  unfold score
  split
  · have hthroughput := min_le_right (p.capacityBps / (4 * 1024 * 1024)) 1
    dsimp only
    split
    · rename_i rtt _
      have hlatency : max 0 (min (1 - rtt / (1 / 2)) 1) ≤ 1 :=
        max_le zero_le_one (min_le_right _ _)
      linarith
    · linarith
  · exact zero_le_one

end PathHealth

/-! ## The scheduler -/

structure Assignment where
  primary : String
  hedge : Option String
deriving DecidableEq

/-- There is a credit for each path, and no two paths have one name. -/
structure Scheduler where
  paths : List PathHealth
  credits : List ℚ
  hedging : Bool
  lengths : credits.length = paths.length
  unique : (paths.map PathHealth.name).Nodup

/-- `Duration::MAX`. -/
def durationMax : ℚ := 2 ^ 64 - 1 + 999999999 / 10 ^ 9

theorem map_name_modify (paths : List PathHealth) (i : Nat) {f : PathHealth → PathHealth}
    (hf : ∀ p, (f p).name = p.name) :
    (paths.modify i f).map PathHealth.name = paths.map PathHealth.name := by
  refine List.ext_getElem? fun j => ?_
  rw [List.getElem?_map, List.getElem?_map, List.getElem?_modify]
  cases paths[j]? with
  | none => rfl
  | some p =>
      refine congrArg some ?_
      dsimp only
      split
      · exact hf p
      · rfl

namespace Scheduler

def new : Scheduler where
  paths := []
  credits := []
  hedging := false
  lengths := rfl
  unique := List.nodup_nil

def addPath (s : Scheduler) (name : String) (now : ℚ) : Scheduler :=
  if h : name ∈ s.paths.map PathHealth.name then s
  else
    { paths := s.paths ++ [.new name now]
      credits := s.credits ++ [0]
      hedging := s.hedging
      lengths := by rw [List.length_append, List.length_append, s.lengths]; rfl
      unique := by
        rw [List.map_append]
        exact List.nodup_append.mpr ⟨s.unique, List.nodup_singleton _,
          fun a ha b hb => by rw [List.mem_singleton.mp hb]; rintro rfl; exact h ha⟩ }

/-- What `path_mut` is used for. The path is referred to by its place. -/
def updatePath (s : Scheduler) (i : Nat) (f : PathHealth → PathHealth)
    (hf : ∀ p, (f p).name = p.name) : Scheduler where
  paths := s.paths.modify i f
  credits := s.credits
  hedging := s.hedging
  lengths := by rw [List.length_modify, s.lengths]
  unique := by rw [map_name_modify _ _ hf]; exact s.unique

def recordSent (s : Scheduler) (i : Nat) : Scheduler :=
  s.updatePath i .recordSent PathHealth.name_recordSent

def recordDelivered (s : Scheduler) (i : Nat) (now : ℚ) (bytes : Nat) (rtt : ℚ) : Scheduler :=
  s.updatePath i (.recordDelivered now bytes rtt) (PathHealth.name_recordDelivered now bytes rtt)

def recordLost (s : Scheduler) (i : Nat) : Scheduler :=
  s.updatePath i .recordLost PathHealth.name_recordLost

theorem getElem?_updatePath (s : Scheduler) (i j : Nat) (f : PathHealth → PathHealth)
    (hf : ∀ p, (f p).name = p.name) :
    (s.updatePath i f hf).paths[j]? = if i = j then s.paths[j]?.map f else s.paths[j]? := by
  rw [updatePath, List.getElem?_modify]
  cases s.paths[j]? with
  | none => simp
  | some p => split <;> rfl

theorem getElem?_recordSent (s : Scheduler) (i j : Nat) : (s.recordSent i).paths[j]?
    = if i = j then s.paths[j]?.map .recordSent else s.paths[j]? :=
  getElem?_updatePath ..

theorem getElem?_recordDelivered (s : Scheduler) (i j : Nat) (now : ℚ) (bytes : Nat) (rtt : ℚ) :
    (s.recordDelivered i now bytes rtt).paths[j]?
      = if i = j then s.paths[j]?.map (.recordDelivered now bytes rtt) else s.paths[j]? :=
  getElem?_updatePath ..

theorem getElem?_recordLost (s : Scheduler) (i j : Nat) : (s.recordLost i).paths[j]?
    = if i = j then s.paths[j]?.map .recordLost else s.paths[j]? :=
  getElem?_updatePath ..

/-- The score of every path there is, the unhealthy ones included. -/
def healthReport (s : Scheduler) (now : ℚ) (name : String) : Option ℚ :=
  (s.paths.find? fun p => p.name = name).map (·.score now)

theorem healthReport_eq_some {s : Scheduler} {p : PathHealth} (h : p ∈ s.paths) (now : ℚ) :
    s.healthReport now p.name = some (p.score now) :=
  Option.map_eq_some_iff.mpr ⟨p, find?_of_nodup s.unique h, rfl⟩

section Assign

variable (s : Scheduler) (now : ℚ)

def nameAt (i : Nat) : String := (s.paths[i]?.map PathHealth.name).getD ""

def capacity (i : Nat) : ℚ := (s.paths[i]?.map PathHealth.capacityBps).getD 0

def rttOr (i : Nat) : ℚ := (s.paths[i]?.bind PathHealth.rtt).getD durationMax

def healthy : List Nat :=
  (List.range s.paths.length).filter fun i => s.paths[i]?.any (·.isHealthy now)

def total : ℚ := ((s.healthy now).map s.capacity).sum

/-- The credits with the share of each healthy path added. -/
def topped : List ℚ :=
  s.credits.mapIdx fun i credit =>
    if i ∈ s.healthy now then credit + s.capacity i / s.total now else credit

/-- The highest credit wins. -/
def chosen : Option Nat := maxBy (fun i => (s.topped now).getD i 0) (s.healthy now)

/-- The alternative with the lowest latency. -/
def hedgeFor (latencyCritical : Bool) (chosen : Nat) : Option Nat :=
  if latencyCritical && s.hedging then ((s.healthy now).filter (· ≠ chosen)).argmin s.rttOr
  else none

/-- The credits are topped up and one is spent. -/
def spendOn (i : Nat) : Scheduler where
  paths := s.paths
  credits := (s.topped now).modify i (· - 1)
  hedging := s.hedging
  lengths := by rw [List.length_modify, topped, List.length_mapIdx, s.lengths]
  unique := s.unique

def assign (latencyCritical : Bool) : Option Assignment × Scheduler :=
  match s.chosen now with
  | none => (none, s)
  | some chosen =>
      let spent := (s.spendOn now chosen).recordSent chosen
      match s.hedgeFor now latencyCritical chosen with
      | none => (some { primary := s.nameAt chosen, hedge := none }, spent)
      | some i =>
          (some { primary := s.nameAt chosen, hedge := some (s.nameAt i) }, spent.recordSent i)

end Assign

/-! ## What an assignment does -/

variable {s : Scheduler} {now : ℚ}

theorem mem_healthy {i : Nat} :
    i ∈ s.healthy now ↔ ∃ p, s.paths[i]? = some p ∧ p.isHealthy now = true := by
  rw [healthy, List.mem_filter, List.mem_range, Option.any_eq_true]
  constructor
  · exact fun h => h.2
  · rintro ⟨p, hp, hhealthy⟩
    exact ⟨(List.getElem?_eq_some_iff.mp hp).1, p, hp, hhealthy⟩

theorem assign_of_none (h : s.healthy now = []) (latencyCritical : Bool) :
    s.assign now latencyCritical = (none, s) := by
  have hchosen : s.chosen now = none := maxBy_eq_none.mpr h
  rw [assign, hchosen]

/-- The chunk goes to the path that is chosen, and perhaps to another one too. -/
theorem assign_of_chosen {i : Nat} (h : s.chosen now = some i) (latencyCritical : Bool) :
    (s.hedgeFor now latencyCritical i = none ∧ s.assign now latencyCritical
        = (some { primary := s.nameAt i, hedge := none }, (s.spendOn now i).recordSent i))
      ∨ ∃ j, s.hedgeFor now latencyCritical i = some j ∧ s.assign now latencyCritical
        = (some { primary := s.nameAt i, hedge := some (s.nameAt j) },
            ((s.spendOn now i).recordSent i).recordSent j) := by
  unfold assign
  rw [h]
  dsimp only
  cases hhedge : s.hedgeFor now latencyCritical i with
  | none => exact Or.inl ⟨rfl, rfl⟩
  | some j => exact Or.inr ⟨j, rfl, rfl⟩

theorem exists_chosen (h : s.healthy now ≠ []) : ∃ i, s.chosen now = some i :=
  Option.ne_none_iff_exists'.mp (mt maxBy_eq_none.mp h)

/-- There is an assignment exactly if a path is healthy. -/
theorem assign_eq_none_iff (latencyCritical : Bool) :
    (s.assign now latencyCritical).1 = none ↔ s.healthy now = [] := by
  constructor
  · intro hnone
    by_contra hne
    obtain ⟨i, hi⟩ := exists_chosen hne
    rcases assign_of_chosen hi latencyCritical with ⟨-, h⟩ | ⟨j, -, h⟩
    · rw [h] at hnone
      exact nomatch hnone
    · rw [h] at hnone
      exact nomatch hnone
  · intro hnil
    rw [assign_of_none hnil]

end Scheduler

/-! ## Runs -/

namespace Multipath

inductive Event where
  | assign (latencyCritical : Bool)
  | delivered (path bytes : Nat) (rtt : ℚ)
  | lost (path : Nat)
  | wait (duration : ℚ)

structure World where
  scheduler : Scheduler
  now : ℚ
  /-- What the calls of `assign` have returned. -/
  log : List (Option Assignment)

/-- A chunk of the path has had no outcome. -/
def Awaits (s : Scheduler) (path : Nat) : Prop :=
  ∃ p, s.paths[path]? = some p ∧ 0 < p.outstanding

instance (s : Scheduler) (path : Nat) : Decidable (Awaits s path) :=
  decidable_of_iff ((s.paths[path]?.map PathHealth.outstanding).getD 0 > 0) <| by
    unfold Awaits
    cases s.paths[path]? <;> simp

def step (w : World) : Event → Option World
  | .assign latencyCritical =>
      some
        { w with
          scheduler := (w.scheduler.assign w.now latencyCritical).2
          log := w.log ++ [(w.scheduler.assign w.now latencyCritical).1] }
  | .delivered path bytes rtt =>
      if Awaits w.scheduler path ∧ 0 ≤ rtt then
        some { w with scheduler := w.scheduler.recordDelivered path w.now bytes rtt }
      else none
  | .lost path =>
      if Awaits w.scheduler path then
        some { w with scheduler := w.scheduler.recordLost path }
      else none
  | .wait duration => if 0 ≤ duration then some { w with now := w.now + duration } else none

/-- The paths as they are added, and nothing sent. -/
def start (first : String) (others : List String) (now : ℚ) (hedging : Bool) : World where
  scheduler :=
    { (others.foldl (fun s name => s.addPath name now) (Scheduler.new.addPath first now)) with
      hedging := hedging }
  now := now
  log := []

end Multipath

end Kanrin
