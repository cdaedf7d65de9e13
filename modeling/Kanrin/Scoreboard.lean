import Mathlib.Data.List.Perm.Basic
import Mathlib.Tactic.Linarith
import Mathlib.Tactic.NormNum
import Kanrin.Lib.SortByKey
import Kanrin.Multipath

/-!
# The score board

`ProbeHistory` of `kanrin-engine/src/prober.rs` and `ScoreBoard` of
`kanrin-engine/src/scoreboard.rs`, over exact rationals.

A probe score is a thousand over the latency in milliseconds, and a measured
score is at most 1. So the weight of the measurement is not what decides
(`ranked_above_iff`).
-/

namespace Kanrin

open Lib

/-! ## Probes -/

inductive ProbeResult where
  | available (latencyMs : UInt32)
  | blocked (reason : String)
  | unknown
deriving DecidableEq

/-- What `recalculate` counts. -/
structure ProbeTally where
  totalLatency : Nat
  successCount : Nat
  latencyCount : Nat
deriving DecidableEq

def ProbeTally.add (t : ProbeTally) : ProbeResult → ProbeTally
  | .available latencyMs =>
      { totalLatency := t.totalLatency + latencyMs.toNat
        successCount := t.successCount + 1
        latencyCount := t.latencyCount + 1 }
  | .blocked _ => t
  | .unknown => t

def tallyProbes (results : List ProbeResult) : ProbeTally := results.foldl .add ⟨0, 0, 0⟩

/-- `f64::MAX`. -/
def f64Max : ℚ := (2 ^ 53 - 1) * 2 ^ 971

/-- The average latency and the success rate. -/
def recalculate (results : List ProbeResult) : ℚ × ℚ :=
  if results = [] then (0, 0)
  else
    let t := tallyProbes results
    (if t.latencyCount > 0 then t.totalLatency / t.latencyCount else f64Max,
      t.successCount / results.length)

/-- The averages are those of the results that are kept. -/
structure ProbeHistory where
  results : List ProbeResult
  avgLatencyMs : ℚ
  successRate : ℚ
  maxHistory : Nat
  recalculated : (avgLatencyMs, successRate) = recalculate results
deriving DecidableEq

namespace ProbeHistory

def new (maxHistory : Nat) : ProbeHistory where
  results := []
  avgLatencyMs := 0
  successRate := 0
  maxHistory := maxHistory
  recalculated := rfl

def record (h : ProbeHistory) (result : ProbeResult) : ProbeHistory :=
  let pushed := h.results ++ [result]
  let results := if pushed.length > h.maxHistory then pushed.tail else pushed
  { results
    avgLatencyMs := (recalculate results).1
    successRate := (recalculate results).2
    maxHistory := h.maxHistory
    recalculated := rfl }

def score (h : ProbeHistory) : ℚ :=
  if h.successRate = 0 then 0
  else
    let latencyFactor := if h.avgLatencyMs > 0 then 1000 / h.avgLatencyMs else 50
    h.successRate * latencyFactor

end ProbeHistory

/-! ## The board -/

structure ScoreWeights where
  localWeight : ℚ
  collective : ℚ
  measured : ℚ
deriving DecidableEq

def ScoreWeights.default : ScoreWeights := ⟨4 / 5, 1 / 5, 3 / 5⟩

structure EndpointScore where
  key : String
  localScore : ℚ
  collectiveScore : ℚ
  measuredScore : Option ℚ
  combinedScore : ℚ
deriving DecidableEq

/-- No two histories are of one endpoint. The order in which a hash map is
gone through is an argument of `rankedList`. -/
structure ScoreBoard where
  localResults : List (String × ProbeHistory)
  unique : (localResults.map Prod.fst).Nodup
  collectiveScores : String → Option ℚ
  measuredScores : String → Option ℚ
  weights : ScoreWeights

namespace ScoreBoard

def new (localResults : List (String × ProbeHistory))
    (unique : (localResults.map Prod.fst).Nodup) (weights : ScoreWeights) : ScoreBoard where
  localResults
  unique
  collectiveScores _ := none
  measuredScores _ := none
  weights

def updateMeasured (board : ScoreBoard) (scores : String → Option ℚ) : ScoreBoard :=
  { board with measuredScores := scores }

def collectiveScore (board : ScoreBoard) (key : String) : ℚ :=
  (board.collectiveScores key).getD (1 / 2)

def estimated (board : ScoreBoard) (key : String) (history : ProbeHistory) : ℚ :=
  board.weights.localWeight * history.score + board.weights.collective * board.collectiveScore key

def combined (board : ScoreBoard) (key : String) (history : ProbeHistory) : ℚ :=
  match board.measuredScores key with
  | some m =>
      let w := max 0 (min board.weights.measured 1)
      w * m + (1 - w) * board.estimated key history
  | none => board.estimated key history

def endpointScore (board : ScoreBoard) (entry : String × ProbeHistory) : EndpointScore where
  key := entry.1
  localScore := entry.2.score
  collectiveScore := board.collectiveScore entry.1
  measuredScore := board.measuredScores entry.1
  combinedScore := board.combined entry.1 entry.2

/-- `sort_by` the combined score, the greatest first. -/
def rankedList (board : ScoreBoard) (order : List (String × ProbeHistory)) :
    List EndpointScore :=
  sortByKey (fun e : EndpointScore => -e.combinedScore) (order.map board.endpointScore)

end ScoreBoard

/-! ## What a probe score can be -/

theorem tallyProbes_concat (results : List ProbeResult) (result : ProbeResult) :
    tallyProbes (results ++ [result]) = (tallyProbes results).add result :=
  List.foldl_concat ..

theorem latencyCount_tallyProbes (results : List ProbeResult) :
    (tallyProbes results).latencyCount = (tallyProbes results).successCount := by
  induction results using List.reverseRecOn with
  | nil => rfl
  | append_singleton results result ih =>
      rw [tallyProbes_concat]
      cases result with
      | available latencyMs => exact congrArg (· + 1) ih
      | blocked reason => exact ih
      | unknown => exact ih

namespace ProbeHistory

variable (h : ProbeHistory)

/-- The successes among the results, and a thousand over their average latency. -/
theorem score_eq :
    h.score = (tallyProbes h.results).successCount / h.results.length
      * (if (tallyProbes h.results).totalLatency = 0 then 50
        else 1000 * (tallyProbes h.results).successCount / (tallyProbes h.results).totalLatency
        : ℚ) := by
  have hrecalculated := h.recalculated
  unfold recalculate at hrecalculated
  split at hrecalculated
  · rename_i hnil
    obtain ⟨-, hrate⟩ := Prod.mk.inj hrecalculated
    simp [score, hrate, hnil, tallyProbes]
  · rename_i hne
    dsimp only at hrecalculated
    rw [latencyCount_tallyProbes] at hrecalculated
    obtain ⟨havg, hrate⟩ := Prod.mk.inj hrecalculated
    rw [score, havg, hrate]
    set successes := (tallyProbes h.results).successCount
    set total := (tallyProbes h.results).totalLatency
    rcases Nat.eq_zero_or_pos successes with hzero | hpos
    · simp [hzero]
    · have hlength : (h.results.length : ℚ) ≠ 0 := by simpa using hne
      have hsuccesses : (0 : ℚ) < successes := by exact_mod_cast hpos
      rw [if_neg (div_ne_zero hsuccesses.ne' hlength), if_pos hpos]
      rcases Nat.eq_zero_or_pos total with htotal | htotal
      · simp [htotal]
      · have htotal' : (0 : ℚ) < total := by exact_mod_cast htotal
        rw [if_pos (div_pos htotal' hsuccesses), if_neg htotal.ne', div_div_eq_mul_div]

theorem score_nonneg : 0 ≤ h.score := by
  rw [score_eq]
  refine mul_nonneg (by positivity) ?_
  split <;> positivity

end ProbeHistory

/-! ## Who is ranked above whom -/

/-- `x` comes before `y`. -/
def RankedAbove (ranked : List EndpointScore) (x y : String) : Prop :=
  [x, y].Sublist (ranked.map EndpointScore.key)

instance (ranked : List EndpointScore) (x y : String) : Decidable (RankedAbove ranked x y) :=
  inferInstanceAs (Decidable (List.Sublist ..))

namespace ScoreBoard

variable {board : ScoreBoard} {order : List (String × ProbeHistory)}

theorem nodup_order (horder : order.Perm board.localResults) : (order.map Prod.fst).Nodup :=
  (horder.map Prod.fst).nodup_iff.mpr board.unique

theorem map_key_rankedList (board : ScoreBoard) (order : List (String × ProbeHistory)) :
    (board.rankedList order).map EndpointScore.key
      = (sortByKey (fun entry => -(board.endpointScore entry).combinedScore) order).map
          Prod.fst := by
  rw [rankedList, sortByKey_map, List.map_map]
  rfl

/-- Of two entries the one with the greater score is above, and of equal ones
the one that comes first. -/
theorem rankedAbove_iff (horder : order.Perm board.localResults) {x y : String}
    {hx hy : ProbeHistory} (hmemx : (x, hx) ∈ board.localResults)
    (hmemy : (y, hy) ∈ board.localResults) :
    RankedAbove (board.rankedList order) x y
      ↔ board.combined y hy < board.combined x hx
        ∨ (board.combined x hx = board.combined y hy ∧ [(x, hx), (y, hy)].Sublist order) := by
  have hpair : RankedAbove (board.rankedList order) x y
      ↔ [(x, hx), (y, hy)].Sublist
        (sortByKey (fun entry => -(board.endpointScore entry).combinedScore) order) := by
    rw [RankedAbove, map_key_rankedList]
    constructor
    · intro h
      obtain ⟨pair, hsub, hkeys⟩ := List.sublist_map_iff.mp h
      obtain ⟨e, f, rfl⟩ : ∃ e f, pair = [e, f] :=
        List.length_eq_two.mp (by simpa using (congrArg List.length hkeys).symm)
      simp only [List.map_cons, List.map_nil, List.cons.injEq, and_true] at hkeys
      have hmem := fun z hz => horder.mem_iff.mp (mem_sortByKey.mp (hsub.subset (a := z) hz))
      have he : e = (x, hx) :=
        List.inj_on_of_nodup_map board.unique (hmem e (by simp)) hmemx hkeys.1.symm
      have hf : f = (y, hy) :=
        List.inj_on_of_nodup_map board.unique (hmem f (by simp)) hmemy hkeys.2.symm
      exact he ▸ hf ▸ hsub
    · exact fun h => h.map Prod.fst
  rw [hpair, pair_sublist_sortByKey, neg_lt_neg_iff, neg_inj]
  simp only [horder.mem_iff, hmemx, hmemy, and_true]
  rfl

/-- Above in every order of the map is to have the greater score. -/
theorem forall_rankedAbove_iff {x y : String} {hx hy : ProbeHistory}
    (hmemx : (x, hx) ∈ board.localResults) (hmemy : (y, hy) ∈ board.localResults) (hne : x ≠ y) :
    (∀ order, order.Perm board.localResults → RankedAbove (board.rankedList order) x y)
      ↔ board.combined y hy < board.combined x hx := by
  constructor
  · intro habove
    -- the order in which `y` comes first
    obtain ⟨before, after, hsplit⟩ := List.append_of_mem hmemy
    have horder : ((y, hy) :: (before ++ after)).Perm board.localResults :=
      hsplit ▸ List.perm_middle.symm
    rcases (rankedAbove_iff horder hmemx hmemy).mp (habove _ horder) with hlt | ⟨-, hsub⟩
    · exact hlt
    · have hnodup := nodup_order horder
      have hkeys := hsub.map Prod.fst
      simp only [List.map_cons, List.map_nil] at hkeys hnodup
      rcases List.cons_sublist_cons'.mp hkeys with hrest | ⟨heq, -⟩
      · exact absurd (hrest.subset (by simp)) (List.nodup_cons.mp hnodup).1
      · exact absurd heq hne
  · exact fun hlt order horder => (rankedAbove_iff horder hmemx hmemy).mpr (Or.inl hlt)

theorem combined_measured {key : String} {m : ℚ} (hmeasured : board.measuredScores key = some m)
    (hweights : board.weights = .default) (history : ProbeHistory) :
    board.combined key history
      = 3 / 5 * m + 2 / 5 * (4 / 5 * history.score + 1 / 5 * board.collectiveScore key) := by
  unfold combined estimated
  rw [hmeasured, hweights, ScoreWeights.default]
  norm_num

theorem ne_of_measured {a b : String} (hfails : board.measuredScores a = some 0)
    (hworks : board.measuredScores b = some 1) : b ≠ a := by
  rintro rfl
  rw [hworks] at hfails
  exact absurd (Option.some.inj hfails) one_ne_zero

/-- A path that is seen to work is ranked above one that is seen to fail,
whatever the order, exactly if the probes and the reports of the failing one
are not too much better. -/
theorem ranked_above_iff {a b : String} {ha hb : ProbeHistory}
    (hweights : board.weights = .default) (hmema : (a, ha) ∈ board.localResults)
    (hmemb : (b, hb) ∈ board.localResults) (hfails : board.measuredScores a = some 0)
    (hworks : board.measuredScores b = some 1) :
    (∀ order, order.Perm board.localResults → RankedAbove (board.rankedList order) b a)
      ↔ 4 * (ha.score - hb.score) + (board.collectiveScore a - board.collectiveScore b)
        < 15 / 2 := by
  rw [forall_rankedAbove_iff hmemb hmema (ne_of_measured hfails hworks),
    combined_measured hfails hweights, combined_measured hworks hweights]
  constructor
  · intro h
    linarith
  · intro h
    linarith

/-- A failing path whose probes were no better than one success in 615 ms. -/
theorem ranked_above_of_slow {a b : String} {ha hb : ProbeHistory}
    (hweights : board.weights = .default) (hmema : (a, ha) ∈ board.localResults)
    (hmemb : (b, hb) ∈ board.localResults) (hfails : board.measuredScores a = some 0)
    (hworks : board.measuredScores b = some 1) (hslow : ha.score < 13 / 8)
    (hle : board.collectiveScore a ≤ 1) (hge : 0 ≤ board.collectiveScore b) :
    ∀ order, order.Perm board.localResults → RankedAbove (board.rankedList order) b a := by
  refine (forall_rankedAbove_iff hmemb hmema (ne_of_measured hfails hworks)).mpr ?_
  rw [combined_measured hfails hweights, combined_measured hworks hweights]
  have hscore := hb.score_nonneg
  linarith

section Reported

variable {s : Scheduler} {now : ℚ}

theorem updateMeasured_healthReport (board : ScoreBoard) {p : PathHealth} (hp : p ∈ s.paths) :
    (board.updateMeasured (s.healthReport now)).measuredScores p.name = some (p.score now) :=
  Scheduler.healthReport_eq_some hp now

/-- With the report of the scheduler an unhealthy path keeps two fifths of its
estimate. No report on another path makes up for probes that are so much better. -/
theorem combined_le_of_unhealthy {p q : PathHealth} {hp hq : ProbeHistory}
    (hpmem : p ∈ s.paths) (hqmem : q ∈ s.paths) (hunhealthy : p.isHealthy now = false)
    (hweights : board.weights = .default)
    (hmuch : 15 / 2 ≤ 4 * (hp.score - hq.score)
      + (board.collectiveScore p.name - board.collectiveScore q.name)) :
    (board.updateMeasured (s.healthReport now)).combined q.name hq
      ≤ (board.updateMeasured (s.healthReport now)).combined p.name hp := by
  have hle := q.score_le_one now
  have hcollective : ∀ key, (board.updateMeasured (s.healthReport now)).collectiveScore key
      = board.collectiveScore key := fun _ => rfl
  rw [combined_measured (updateMeasured_healthReport board hqmem) hweights,
    combined_measured (updateMeasured_healthReport board hpmem) hweights,
    PathHealth.score_of_unhealthy hunhealthy, hcollective, hcollective]
  linarith

end Reported

end ScoreBoard

/-! ## A path that keeps its rank -/

def probedOnce (result : ProbeResult) : ProbeHistory := (ProbeHistory.new 10).record result

/-- The one probe of `a` succeeded in 20 ms and that of `b` did not. Now `a` fails and `b` works. -/
def staleBoard : ScoreBoard :=
  (ScoreBoard.new [("a", probedOnce (.available 20)), ("b", probedOnce .unknown)] (by decide)
    .default).updateMeasured
      fun key => if key = "a" then some 0 else if key = "b" then some 1 else none

theorem mem_staleBoard_a : ("a", probedOnce (.available 20)) ∈ staleBoard.localResults :=
  List.mem_cons_self

theorem mem_staleBoard_b : ("b", probedOnce .unknown) ∈ staleBoard.localResults :=
  List.mem_cons_of_mem _ (List.mem_singleton_self _)

theorem ranked_above_iff_staleBoard :
    (∀ order, order.Perm staleBoard.localResults →
        RankedAbove (staleBoard.rankedList order) "b" "a")
      ↔ 4 * ((probedOnce (.available 20)).score - (probedOnce .unknown).score)
        + (staleBoard.collectiveScore "a" - staleBoard.collectiveScore "b") < 15 / 2 :=
  ScoreBoard.ranked_above_iff rfl mem_staleBoard_a mem_staleBoard_b rfl rfl

theorem staleBoard_ranks :
    staleBoard.measuredScores "a" = some 0 ∧ staleBoard.measuredScores "b" = some 1
      ∧ ∀ order, order.Perm staleBoard.localResults →
        ¬ RankedAbove (staleBoard.rankedList order) "b" "a" := by
  refine ⟨rfl, rfl, fun order horder => ?_⟩
  have ha : staleBoard.combined "a" (probedOnce (.available 20)) = 401 / 25 := by decide +kernel
  have hb : staleBoard.combined "b" (probedOnce .unknown) = 16 / 25 := by decide +kernel
  rw [ScoreBoard.rankedAbove_iff horder mem_staleBoard_b mem_staleBoard_a, ha, hb]
  norm_num

end Kanrin
