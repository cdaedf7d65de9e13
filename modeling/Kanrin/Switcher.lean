import Kanrin.Lib.Run
import Kanrin.Scoreboard

/-!
# The switcher

`Switcher` of `kanrin-engine/src/switcher.rs`. Instants are nanoseconds of the
monotonic clock.

`evaluate` compares the current score with the threshold and the best key with
the current key. It does not compare the two scores, so where they are equal
the order in which the map is gone through decides
(`always_improves_iff`).
-/

namespace Kanrin

open Lib

structure Switcher where
  switchThreshold : ℚ
  cooldown : Nat
  lastSwitch : Int
  currentKey : Option String
deriving DecidableEq

/-- The scores that the text of the reason shows. -/
inductive DecisionReason where
  | belowThreshold (currentScore switchThreshold best : ℚ)
  | muchBetter (best currentScore : ℚ)
deriving DecidableEq

inductive SwitchDecision where
  | stay
  | switch (fromKey toKey : String) (reason : DecisionReason)
deriving DecidableEq

namespace Switcher

def new (switchThreshold : ℚ) (cooldown : Nat) (now : Int) : Switcher where
  switchThreshold
  cooldown
  lastSwitch := now - cooldown
  currentKey := none

def setCurrent (s : Switcher) (key : String) : Switcher := { s with currentKey := some key }

def evaluate (s : Switcher) (board : ScoreBoard) (order : List (String × ProbeHistory))
    (now : Int) : SwitchDecision :=
  if (now - s.lastSwitch).toNat < s.cooldown then .stay
  else
    match s.currentKey with
    | none => .stay
    | some currentKey =>
        let ranked := board.rankedList order
        match ranked.head? with
        | none => .stay
        | some best =>
            let currentScore := ((ranked.find? fun e => e.key = currentKey).map
              EndpointScore.combinedScore).getD 0
            if currentScore < s.switchThreshold ∧ best.key ≠ currentKey then
              .switch currentKey best.key
                (.belowThreshold currentScore s.switchThreshold best.combinedScore)
            else if best.key ≠ currentKey ∧ best.combinedScore > currentScore * 2 then
              .switch currentKey best.key (.muchBetter best.combinedScore currentScore)
            else .stay

def recordSwitch (s : Switcher) (newKey : String) (now : Int) : Switcher :=
  { s with currentKey := some newKey, lastSwitch := now }

end Switcher

/-- The combined score of a key, 0 if it is not listed. -/
def ScoreBoard.scoreOf (board : ScoreBoard) (key : String) : ℚ :=
  ((board.localResults.find? fun entry => entry.1 = key).map
    fun entry => board.combined entry.1 entry.2).getD 0

/-! ## Runs on one board -/

/-- The switcher, and the switches so far as from where to where. -/
structure SwitchRun where
  switcher : Switcher
  log : List (String × String)
deriving DecidableEq

namespace SwitchRun

/-- An evaluation, and the order in which it goes through the map. -/
structure Event (board : ScoreBoard) where
  order : List (String × ProbeHistory)
  perm : order.Perm board.localResults
  now : Int

variable (board : ScoreBoard)

/-- What `evaluate` decides is done and recorded. -/
def step (w : SwitchRun) (e : Event board) : Option SwitchRun :=
  match w.switcher.evaluate board e.order e.now with
  | .stay => some w
  | .switch fromKey toKey _ =>
      some
        { switcher := w.switcher.recordSwitch toKey e.now
          log := w.log ++ [(fromKey, toKey)] }

/-- Each switch was to a greater score, and none was undone. -/
def Improves (w : SwitchRun) : Prop :=
  ∀ fromKey toKey, (fromKey, toKey) ∈ w.log →
    board.scoreOf fromKey < board.scoreOf toKey ∧ (toKey, fromKey) ∉ w.log

/-- Where nothing scores more than the current key, it comes first of what
scores the same, or its score is neither below the threshold nor negative. -/
def Settled (w : SwitchRun) (e : Event board) : Prop :=
  w.switcher.cooldown ≤ (e.now - w.switcher.lastSwitch).toNat →
    ∀ key, w.switcher.currentKey = some key →
      (∀ entry ∈ board.localResults, board.combined entry.1 entry.2 ≤ board.scoreOf key) →
        board.localResults = []
          ∨ (e.order.find? fun entry => board.combined entry.1 entry.2 = board.scoreOf key).map
            Prod.fst = some key
          ∨ (w.switcher.switchThreshold ≤ board.scoreOf key ∧ 0 ≤ board.scoreOf key)

end SwitchRun

/-! ## What the ranking shows of the scores -/

namespace ScoreBoard

variable {board : ScoreBoard} {order : List (String × ProbeHistory)}

theorem scoreOf_of_mem {key : String} {history : ProbeHistory}
    (hmem : (key, history) ∈ board.localResults) :
    board.scoreOf key = board.combined key history := by
  rw [scoreOf, find?_of_nodup board.unique hmem]
  rfl

theorem scoreOf_of_not_mem {key : String} (h : key ∉ board.localResults.map Prod.fst) :
    board.scoreOf key = 0 := by
  rw [scoreOf, find?_of_not_mem h]
  rfl

theorem perm_map_key_rankedList (horder : order.Perm board.localResults) :
    ((board.rankedList order).map EndpointScore.key).Perm (board.localResults.map Prod.fst) := by
  rw [map_key_rankedList]
  exact ((perm_sortByKey order).trans horder).map Prod.fst

/-- The score that is found in the ranking is that of the board. -/
theorem find?_rankedList (horder : order.Perm board.localResults) (key : String) :
    (((board.rankedList order).find? fun e => e.key = key).map
      EndpointScore.combinedScore).getD 0 = board.scoreOf key := by
  have hkeys := perm_map_key_rankedList horder
  by_cases hkey : key ∈ board.localResults.map Prod.fst
  · obtain ⟨⟨_, history⟩, hmem, rfl⟩ := List.mem_map.mp hkey
    have hentry : board.endpointScore (_, history) ∈ board.rankedList order :=
      mem_sortByKey.mpr (List.mem_map_of_mem (horder.mem_iff.mpr hmem))
    have hfound := find?_of_nodup (hkeys.nodup_iff.mpr board.unique) hentry
    rw [scoreOf_of_mem hmem]
    exact congrArg (fun found => (found.map EndpointScore.combinedScore).getD 0) hfound
  · rw [scoreOf_of_not_mem hkey, find?_of_not_mem (fun h => hkey (hkeys.mem_iff.mp h))]
    rfl

/-- The best of the ranking is of the board, scores as much as any, and comes
first of what scores the same. -/
theorem head?_rankedList (horder : order.Perm board.localResults) {best : EndpointScore}
    (h : (board.rankedList order).head? = some best) :
    ∃ history, (best.key, history) ∈ board.localResults
      ∧ board.combined best.key history = best.combinedScore
      ∧ (∀ entry ∈ board.localResults, board.combined entry.1 entry.2 ≤ best.combinedScore)
      ∧ order.find? (fun entry => board.combined entry.1 entry.2 = best.combinedScore)
        = some (best.key, history) := by
  rw [rankedList, sortByKey_map, List.head?_map] at h
  obtain ⟨⟨key, history⟩, hhead, rfl⟩ := Option.map_eq_some_iff.mp h
  obtain ⟨hle, hfirst⟩ := head?_sortByKey hhead
  have hmem := horder.mem_iff.mp (List.mem_of_find?_eq_some hfirst)
  refine ⟨history, hmem, rfl, fun entry hentry => ?_, ?_⟩
  · exact neg_le_neg_iff.mp (hle entry (horder.mem_iff.mpr hentry))
  · simp only [Function.comp_apply, neg_inj] at hfirst
    exact hfirst

theorem head?_rankedList_eq_none (horder : order.Perm board.localResults) :
    (board.rankedList order).head? = none ↔ board.localResults = [] := by
  rw [List.head?_eq_none_iff, ← List.length_eq_zero_iff, ← List.length_eq_zero_iff,
    ← (board.localResults).length_map Prod.fst, ← (perm_map_key_rankedList horder).length_eq,
    List.length_map]

end ScoreBoard

/-! ## When the switcher switches -/

namespace Switcher

variable {board : ScoreBoard} {order : List (String × ProbeHistory)} {s : Switcher} {now : Int}

theorem evaluate_eq_switch (horder : order.Perm board.localResults) {fromKey toKey : String} :
    (∃ reason, s.evaluate board order now = .switch fromKey toKey reason)
      ↔ s.cooldown ≤ (now - s.lastSwitch).toNat ∧ s.currentKey = some fromKey ∧ toKey ≠ fromKey
        ∧ ∃ best, (board.rankedList order).head? = some best ∧ best.key = toKey
          ∧ (board.scoreOf fromKey < s.switchThreshold
            ∨ board.scoreOf fromKey * 2 < best.combinedScore) := by
  unfold evaluate
  by_cases hearly : (now - s.lastSwitch).toNat < s.cooldown
  · simp [hearly, not_le.mpr hearly]
  · rw [if_neg hearly]
    cases hcurrent : s.currentKey with
    | none => simp
    | some currentKey =>
        cases hhead : (board.rankedList order).head? with
        | none => simp [hhead]
        | some best =>
            dsimp only
            rw [hhead, ScoreBoard.find?_rankedList horder]
            dsimp only
            constructor
            · rintro ⟨reason, h⟩
              split at h
              · rename_i hlow
                obtain ⟨rfl, rfl, -⟩ := SwitchDecision.switch.inj h
                exact ⟨not_lt.mp hearly, rfl, hlow.2, best, rfl, rfl, Or.inl hlow.1⟩
              · split at h
                · rename_i hbetter
                  obtain ⟨rfl, rfl, -⟩ := SwitchDecision.switch.inj h
                  exact ⟨not_lt.mp hearly, rfl, hbetter.1, best, rfl, rfl, Or.inr hbetter.2⟩
                · cases h
            · rintro ⟨-, hfrom, hne, _, hbest, rfl, hwhy⟩
              obtain rfl := Option.some.inj hfrom
              obtain rfl := Option.some.inj hbest
              split
              · exact ⟨_, rfl⟩
              · rename_i hlow
                have hbetter := hwhy.resolve_left fun hlt => hlow ⟨hlt, hne⟩
                rw [if_pos ⟨hne, hbetter⟩]
                exact ⟨_, rfl⟩

end Switcher

namespace SwitchRun

variable {board : ScoreBoard} {w w' : SwitchRun} {e : Event board}

theorem lt_of_settled (hsettled : Settled board w e) {fromKey toKey : String}
    {reason : DecisionReason}
    (h : w.switcher.evaluate board e.order e.now = .switch fromKey toKey reason) :
    board.scoreOf fromKey < board.scoreOf toKey := by
  obtain ⟨hcooled, hcurrent, hne, best, hhead, rfl, hwhy⟩ :=
    (Switcher.evaluate_eq_switch e.perm).mp ⟨reason, h⟩
  obtain ⟨history, hmem, hscore, hmost, hfirst⟩ := ScoreBoard.head?_rankedList e.perm hhead
  rw [ScoreBoard.scoreOf_of_mem hmem, hscore]
  by_contra hnot
  have htop : ∀ entry ∈ board.localResults,
      board.combined entry.1 entry.2 ≤ board.scoreOf fromKey :=
    fun entry hentry => (hmost entry hentry).trans (not_lt.mp hnot)
  rcases hsettled hcooled fromKey hcurrent htop with hempty | hkey | ⟨hthreshold, hpos⟩
  · exact absurd (hempty ▸ hmem) List.not_mem_nil
  · obtain ⟨entry, hentry, hfromKey⟩ := Option.map_eq_some_iff.mp hkey
    have hlisted := e.perm.mem_iff.mp (List.mem_of_find?_eq_some hentry)
    have hequal : best.combinedScore = board.scoreOf fromKey := by
      refine le_antisymm (not_lt.mp hnot) ?_
      have hsome := List.find?_some hentry
      rw [decide_eq_true_eq] at hsome
      exact hsome ▸ hmost entry hlisted
    rw [hequal, hentry] at hfirst
    exact hne (hfromKey ▸ (congrArg Prod.fst (Option.some.inj hfirst)).symm)
  · rcases hwhy with hlow | hbetter
    · exact absurd hlow (not_lt.mpr hthreshold)
    · linarith [not_lt.mp hnot]

theorem settled_of_lt
    (himproves : ∀ fromKey toKey reason,
      w.switcher.evaluate board e.order e.now = .switch fromKey toKey reason →
        board.scoreOf fromKey < board.scoreOf toKey) :
    Settled board w e := by
  intro hcooled key hcurrent htop
  by_contra hnot
  obtain ⟨hlisted, hkey, hguard⟩ := not_or.mp hnot |>.imp_right not_or.mp
  obtain ⟨best, hhead⟩ := Option.ne_none_iff_exists'.mp
    (mt (ScoreBoard.head?_rankedList_eq_none e.perm).mp hlisted)
  obtain ⟨history, hmem, hscore, hmost, hfirst⟩ := ScoreBoard.head?_rankedList e.perm hhead
  have hle : best.combinedScore ≤ board.scoreOf key := hscore ▸ htop _ hmem
  have hne : best.key ≠ key := by
    rintro rfl
    rw [← hscore, ← ScoreBoard.scoreOf_of_mem hmem] at hfirst
    rw [hfirst] at hkey
    exact hkey rfl
  have hwhy : board.scoreOf key < w.switcher.switchThreshold
      ∨ board.scoreOf key * 2 < best.combinedScore := by
    by_cases hlow : board.scoreOf key < w.switcher.switchThreshold
    · exact Or.inl hlow
    · -- a negative score is one that is listed, so the best is as low
      have hneg : board.scoreOf key < 0 := by
        by_contra hpos
        exact hguard ⟨not_lt.mp hlow, not_lt.mp hpos⟩
      have hcurrent : key ∈ board.localResults.map Prod.fst := by
        by_contra hunlisted
        rw [ScoreBoard.scoreOf_of_not_mem hunlisted] at hneg
        exact absurd hneg (lt_irrefl 0)
      obtain ⟨⟨_, current⟩, hentry, rfl⟩ := List.mem_map.mp hcurrent
      have hge := hmost _ hentry
      rw [← ScoreBoard.scoreOf_of_mem hentry] at hge
      exact Or.inr (by linarith)
  obtain ⟨reason, hswitch⟩ := (Switcher.evaluate_eq_switch e.perm).mpr
    ⟨hcooled, hcurrent, hne, best, hhead, rfl, hwhy⟩
  have hlt := himproves key best.key reason hswitch
  rw [ScoreBoard.scoreOf_of_mem hmem, hscore] at hlt
  exact absurd hlt (not_lt.mpr hle)

/-- A settled evaluation is one that switches only to a greater score. -/
theorem settled_iff :
    Settled board w e ↔ ∀ fromKey toKey reason,
      w.switcher.evaluate board e.order e.now = .switch fromKey toKey reason →
        board.scoreOf fromKey < board.scoreOf toKey :=
  ⟨fun hsettled _ _ _ h => lt_of_settled hsettled h, settled_of_lt⟩

theorem improves_concat {fromKey toKey : String} {s : Switcher} (hw : Improves board w) :
    Improves board ⟨s, w.log ++ [(fromKey, toKey)]⟩
      ↔ board.scoreOf fromKey < board.scoreOf toKey := by
  constructor
  · exact fun h => (h fromKey toKey (by simp)).1
  · intro hlt
    have hless : ∀ x y, (x, y) ∈ w.log ++ [(fromKey, toKey)] →
        board.scoreOf x < board.scoreOf y := by
      intro x y hxy
      rcases List.mem_append.mp hxy with hold | hnew
      · exact (hw x y hold).1
      · obtain ⟨rfl, rfl⟩ := Prod.mk.inj (List.mem_singleton.mp hnew)
        exact hlt
    exact fun x y hxy => ⟨hless x y hxy, fun hyx => lt_asymm (hless x y hxy) (hless y x hyx)⟩

theorem improves_step (hw : Improves board w) (hstep : step board w e = some w') :
    Improves board w' ↔ Settled board w e := by
  rw [settled_iff]
  unfold step at hstep
  cases hdecision : w.switcher.evaluate board e.order e.now with
  | stay =>
      rw [hdecision] at hstep
      obtain rfl := Option.some.inj hstep
      exact iff_of_true hw fun fromKey toKey reason h => nomatch h
  | switch fromKey toKey reason =>
      rw [hdecision] at hstep
      obtain rfl := Option.some.inj hstep
      rw [improves_concat hw]
      constructor
      · intro hlt x y z h
        obtain ⟨rfl, rfl, -⟩ := SwitchDecision.switch.inj h
        exact hlt
      · exact fun h => h fromKey toKey reason rfl

/-- On one board every switch is to a greater score, and none is undone,
exactly if each evaluation is settled. -/
theorem always_improves_iff (board : ScoreBoard) (s : Switcher) (es : List (Event board)) :
    Always (step board) (Improves board) ⟨s, []⟩ es
      ↔ Meets (step board) (Settled board) ⟨s, []⟩ es :=
  always_iff_meets (I := fun _ => True)
    (fun _ _ _ _ hw hstep => ⟨improves_step hw hstep, fun _ => trivial⟩) trivial
    fun _ _ h => absurd h List.not_mem_nil

/-! ## One order -/

/-- Nothing has been switched, or the one switch was to the best of the order. -/
def AtRest (board : ScoreBoard) (order : List (String × ProbeHistory)) (w : SwitchRun) : Prop :=
  w.log = [] ∨ (w.log.length = 1 ∧ ∀ best, (board.rankedList order).head? = some best →
    w.switcher.currentKey = some best.key)

theorem AtRest.step {order : List (String × ProbeHistory)} (hw : AtRest board order w)
    (horder : e.order = order) (hstep : step board w e = some w') : AtRest board order w' := by
  unfold SwitchRun.step at hstep
  cases hdecision : w.switcher.evaluate board e.order e.now with
  | stay =>
      rw [hdecision] at hstep
      exact Option.some.inj hstep ▸ hw
  | switch fromKey toKey reason =>
      rw [hdecision] at hstep
      obtain rfl := Option.some.inj hstep
      obtain ⟨-, hcurrent, hne, best, hhead, rfl, -⟩ :=
        (Switcher.evaluate_eq_switch e.perm).mp ⟨reason, hdecision⟩
      rw [horder] at hhead
      rcases hw with hnone | ⟨-, hbest⟩
      · refine Or.inr ⟨by simp [hnone], fun other hother => ?_⟩
        rw [hhead] at hother
        exact congrArg (fun found : EndpointScore => some found.key) (Option.some.inj hother)
      · exact absurd (Option.some.inj ((hbest best hhead).symm.trans hcurrent)) hne

/-- While the order does not change there is no second switch. -/
theorem log_length_le_one {order : List (String × ProbeHistory)} {s : Switcher}
    {es : List (Event board)} (horder : ∀ e ∈ es, e.order = order)
    (h : exec (SwitchRun.step board) ⟨s, []⟩ es = some w) : w.log.length ≤ 1 := by
  have hall : Always (SwitchRun.step board) (AtRest board order) ⟨s, []⟩ es :=
    always_of_meets (C := fun _ e => e.order = order) (fun _ _ _ hw he => hw.step he)
      (Or.inl rfl) (meets_of_forall fun e he _ => horder e he)
  rcases hall.last h with hnone | ⟨hone, -⟩
  · simp [hnone]
  · exact hone.le

end SwitchRun

/-! ## Two equal scores -/

/-- Neither endpoint has been reached yet. -/
def tiedBoard : ScoreBoard :=
  .new [("b", probedOnce .unknown), ("a", probedOnce .unknown)] (by decide) .default

theorem not_always_improves :
    ¬ Always (SwitchRun.step tiedBoard) (SwitchRun.Improves tiedBoard)
      ⟨(Switcher.new 5 10000000000 0).setCurrent "a", []⟩ [⟨tiedBoard.localResults, .rfl, 0⟩] := by
  have hexec : exec (SwitchRun.step tiedBoard)
      ⟨(Switcher.new 5 10000000000 0).setCurrent "a", []⟩ [⟨tiedBoard.localResults, .rfl, 0⟩]
      = some ⟨⟨5, 10000000000, 0, some "b"⟩, [("a", "b")]⟩ := by
    decide +kernel
  refine not_always_of_exec hexec fun h => ?_
  have hless := (h "a" "b" (by simp)).1
  have hequal : tiedBoard.scoreOf "a" = tiedBoard.scoreOf "b" := by decide +kernel
  exact absurd hequal hless.ne

end Kanrin
