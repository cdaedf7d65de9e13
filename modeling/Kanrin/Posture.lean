import Mathlib.Order.Basic
import Kanrin.Lib.Run
import Kanrin.Lib.History
import Kanrin.Lib.Fixed

/-!
# The posture controller

`PostureController` of the client's `posture.rs`: escalation on the first
adverse signal, relaxation one step at a time after a streak of clean
periods and a time at the posture. Times are nanoseconds of the monotonic
clock; a call reads it once for the time at the posture (`now`) and once
more when it changes the posture (`later`). The shaping profiles and the
names of the postures are read by nothing modelled here and are left out.

`Hysteresis` is what holds of every run, whoever chooses the calls. It is
read off the history of the calls alone: the streak the controller counts
is never more than the streak of quiet calls at the end of the history
(`Inv.streak`), so a relaxation has always been earned.
-/

namespace Kanrin

open Lib

inductive Posture where
  | performance
  | balanced
  | evasion
deriving DecidableEq, Repr

def Posture.rank : Posture → Nat
  | .performance => 0
  | .balanced => 1
  | .evasion => 2

theorem Posture.rank_injective : Function.Injective Posture.rank := by
  intro a b h
  cases a <;> cases b <;> first | rfl | cases h

instance : LinearOrder Posture := LinearOrder.lift' Posture.rank Posture.rank_injective

theorem Posture.le_evasion (p : Posture) : p ≤ .evasion := by
  cases p <;> decide

inductive Signal where
  | handshakeFailed
  | suspiciousReset
  | suddenPathLoss
  | censorshipDetected
  | cleanPeriod
deriving DecidableEq, Repr

def Signal.isAdverse : Signal → Bool
  | .cleanPeriod => false
  | _ => true

/-- `+= 1` on a `u32`. -/
def checkedSucc32 (n : UInt32) : Option UInt32 := if n = 0xFFFFFFFF then none else some (n + 1)

def minTimeAtPosture : Nat := 120 * 1000000000

def cleanPeriodsToRelax : UInt32 := 5

structure PostureController where
  current : Posture
  floor : Posture
  changedAt : Nat
  cleanStreak : UInt32
  adverseTotal : UInt64
  minTimeAtPosture : Nat
  cleanPeriodsToRelax : UInt32
  above : floor ≤ current

namespace PostureController

def withFloor (initial floor : Posture) (now : Nat) : PostureController where
  current := max initial floor
  floor := floor
  changedAt := now
  cleanStreak := 0
  adverseTotal := 0
  minTimeAtPosture := Kanrin.minTimeAtPosture
  cleanPeriodsToRelax := Kanrin.cleanPeriodsToRelax
  above := le_max_right ..

def withTiming (c : PostureController) (minTime : Nat) (cleanPeriods : UInt32) :
    PostureController :=
  { c with minTimeAtPosture := minTime, cleanPeriodsToRelax := cleanPeriods }

/-- `set`: the change that was made, if any. -/
def set (c : PostureController) (target : Posture) (later : Nat) :
    Option Posture × PostureController :=
  let target := max target c.floor
  if target = c.current then (none, c)
  else
    (some target, { c with current := target, changedAt := later, above := le_max_right .. })

def observe (c : PostureController) (signal : Signal) (now later : Nat) :
    Option (Option Posture × PostureController) :=
  if signal.isAdverse then do
    let adverseTotal ← checkedSucc c.adverseTotal
    return { c with adverseTotal, cleanStreak := 0 }.set .evasion later
  else do
    let cleanStreak ← checkedSucc32 c.cleanStreak
    let c := { c with cleanStreak }
    if c.cleanStreak < c.cleanPeriodsToRelax then return (none, c)
    if now - c.changedAt < c.minTimeAtPosture then return (none, c)
    match c.current with
    | .evasion => return { c with cleanStreak := 0 }.set .balanced later
    | .balanced => return { c with cleanStreak := 0 }.set .performance later
    | .performance => return (none, c)

def force (c : PostureController) (target : Posture) (later : Nat) :
    Option Posture × PostureController :=
  { c with cleanStreak := 0 }.set target later

/-! ## What a call does -/

theorem set_floor (c : PostureController) (target : Posture) (later : Nat) :
    (c.set target later).2.floor = c.floor
      ∧ (c.set target later).2.minTimeAtPosture = c.minTimeAtPosture
      ∧ (c.set target later).2.cleanPeriodsToRelax = c.cleanPeriodsToRelax
      ∧ (c.set target later).2.cleanStreak = c.cleanStreak
      ∧ (c.set target later).2.adverseTotal = c.adverseTotal := by
  rw [set]
  split
  · exact ⟨rfl, rfl, rfl, rfl, rfl⟩
  · exact ⟨rfl, rfl, rfl, rfl, rfl⟩

theorem set_current (c : PostureController) (target : Posture) (later : Nat) :
    (c.set target later).2.current = max target c.floor := by
  rw [set]
  split
  · rename_i h
    exact h.symm
  · rfl

theorem set_changedAt (c : PostureController) (target : Posture) (later : Nat) :
    (c.set target later).2.changedAt
      = if (c.set target later).2.current = c.current then c.changedAt else later := by
  rw [set]
  split
  · rw [if_pos rfl]
  · rfl

theorem checkedSucc32_of_lt {n : UInt32} (h : n.toNat + 1 < 2 ^ 32) :
    checkedSucc32 n = some (n + 1) ∧ (n + 1).toNat = n.toNat + 1 := by
  have hne : n ≠ 0xFFFFFFFF := by
    rintro rfl
    exact absurd h (by decide)
  refine ⟨if_neg hne, ?_⟩
  rw [UInt32.toNat_add, UInt32.toNat_one]
  omega

end PostureController

/-! ## Runs -/

inductive PostureCall where
  | observe (signal : Signal)
  | force (target : Posture)
deriving DecidableEq

/-- A call, with the readings of the clock it makes. -/
structure PostureEvent where
  call : PostureCall
  now : Nat
  later : Nat

/-- A call, and the posture before and after. -/
structure PostureEntry where
  event : PostureEvent
  before : Posture
  after : Posture

namespace PostureEntry

def isClean (e : PostureEntry) : Bool := e.event.call = .observe .cleanPeriod

def isAdverse (e : PostureEntry) : Bool :=
  match e.event.call with
  | .observe signal => signal.isAdverse
  | .force _ => false

/-- A clean period that changes nothing. -/
def quiet (e : PostureEntry) : Bool := e.isClean && decide (e.after = e.before)

def relaxes (e : PostureEntry) : Bool := e.isClean && decide (e.after < e.before)

end PostureEntry

structure PostureRun where
  controller : PostureController
  history : List PostureEntry

namespace PostureRun

def start (c : PostureController) : PostureRun := ⟨c, []⟩

def call (c : PostureController) (e : PostureEvent) :
    Option (Option Posture × PostureController) :=
  match e.call with
  | .observe signal => c.observe signal e.now e.later
  | .force target => some (c.force target e.later)

def step (t : PostureRun) (e : PostureEvent) : Option PostureRun :=
  (call t.controller e).map fun (_, controller) =>
    { controller
      history := t.history ++ [⟨e, t.controller.current, controller.current⟩] }

/-- When the posture last changed. -/
def lastChange (createdAt : Nat) (history : List PostureEntry) : Nat :=
  history.foldl (fun at' e => if e.after = e.before then at' else e.event.later) createdAt

/-- `createdAt` and then the readings of the calls, in order. -/
def Monotone (createdAt : Nat) (events : List PostureEvent) : Prop :=
  (createdAt :: events.flatMap fun e => [e.now, e.later]).Pairwise (· ≤ ·)

instance (createdAt : Nat) (events : List PostureEvent) : Decidable (Monotone createdAt events) :=
  inferInstanceAs (Decidable (List.Pairwise (· ≤ ·) _))

/-- The guarantees of a controller that started as `c`. -/
structure Hysteresis (c : PostureController) (t : PostureRun) : Prop where
  /-- The history ends in the posture the controller is at. -/
  current : t.controller.current = (t.history.getLast?.map PostureEntry.after).getD c.current
  floor : c.floor ≤ t.controller.current
  adverse : ∀ e ∈ t.history, e.isAdverse = true → e.after = .evasion
  /-- A clean period lowers the posture by one step or not at all. -/
  oneStep : ∀ e ∈ t.history, e.isClean = true →
    e.after = e.before ∨ e.before.rank = e.after.rank + 1
  /-- It lowers it only as the last of a full streak of clean periods, none
  of which changed the posture before, and after the time at the posture. -/
  earned : ∀ older e, older ++ [e] <+: t.history → e.relaxes = true →
    (∃ oldest window, older = oldest ++ window
        ∧ window.length + 1 = c.cleanPeriodsToRelax.toNat ∧ ∀ q ∈ window, q.quiet = true)
      ∧ lastChange c.changedAt older + c.minTimeAtPosture ≤ e.event.now
  /-- Each relaxation takes clean periods of its own. Those that count may
  come before a stretch; none do if it starts after an adverse signal. -/
  cost : ∀ older stretch, older ++ stretch <+: t.history →
    stretch.countP PostureEntry.relaxes * c.cleanPeriodsToRelax.toNat
      ≤ stretch.countP PostureEntry.isClean + streak PostureEntry.quiet older
  stretch : ∀ older stretch, older ++ stretch <+: t.history →
    (∀ e ∈ older.getLast?, e.isAdverse = true) →
    stretch.countP PostureEntry.relaxes * c.cleanPeriodsToRelax.toNat
      ≤ stretch.countP PostureEntry.isClean

/-! ## The invariant -/

structure Inv (c : PostureController) (t : PostureRun) : Prop where
  floor : t.controller.floor = c.floor
  minTime : t.controller.minTimeAtPosture = c.minTimeAtPosture
  periods : t.controller.cleanPeriodsToRelax = c.cleanPeriodsToRelax
  current : t.controller.current = (t.history.getLast?.map PostureEntry.after).getD c.current
  changedAt : t.controller.changedAt = lastChange c.changedAt t.history
  -- a relaxation that the floor prevents ends the streak as well
  streak : t.controller.cleanStreak.toNat ≤ streak PostureEntry.quiet t.history
  adverseTotal : t.controller.adverseTotal.toNat ≤ t.history.length
  adverse : ∀ e ∈ t.history, e.isAdverse = true → e.after = .evasion
  oneStep : ∀ e ∈ t.history, e.isClean = true →
    e.after = e.before ∨ e.before.rank = e.after.rank + 1
  earned : Earned PostureEntry.quiet PostureEntry.relaxes c.cleanPeriodsToRelax.toNat t.history
  elapsed : Justified (fun older e => e.relaxes = true →
    lastChange c.changedAt older + c.minTimeAtPosture ≤ e.event.now) t.history

theorem lastChange_concat (createdAt : Nat) (history : List PostureEntry) (e : PostureEntry) :
    lastChange createdAt (history ++ [e])
      = if e.after = e.before then lastChange createdAt history else e.event.later := by
  rw [lastChange, List.foldl_append]
  rfl

/-- What an entry has to satisfy to be added to the history. -/
theorem Inv.append {c c' : PostureController} {t : PostureRun} (h : t.Inv c) {e : PostureEntry}
    (hbefore : e.before = t.controller.current) (hafter : e.after = c'.current)
    (hfloor : c'.floor = t.controller.floor)
    (hmin : c'.minTimeAtPosture = t.controller.minTimeAtPosture)
    (hperiods : c'.cleanPeriodsToRelax = t.controller.cleanPeriodsToRelax)
    (hchanged : c'.changedAt
      = if c'.current = t.controller.current then t.controller.changedAt else e.event.later)
    (hstreak : c'.cleanStreak.toNat ≤ Lib.streak PostureEntry.quiet (t.history ++ [e]))
    (htotal : c'.adverseTotal.toNat ≤ t.history.length + 1)
    (hadverse : e.isAdverse = true → e.after = .evasion)
    (hstep : e.isClean = true → e.after = e.before ∨ e.before.rank = e.after.rank + 1)
    (hearned : e.relaxes = true →
      c.cleanPeriodsToRelax.toNat ≤ Lib.streak PostureEntry.quiet t.history + 1
        ∧ t.controller.changedAt + c.minTimeAtPosture ≤ e.event.now) :
    Inv c ⟨c', t.history ++ [e]⟩ where
  floor := hfloor.trans h.floor
  minTime := hmin.trans h.minTime
  periods := hperiods.trans h.periods
  current := by
    rw [List.getLast?_concat]
    exact hafter.symm
  changedAt := by
    rw [lastChange_concat, ← h.changedAt, hafter, hbefore]
    exact hchanged
  streak := hstreak
  adverseTotal := by
    rw [List.length_append, List.length_singleton]
    exact htotal
  adverse e' he' := by
    rcases List.mem_append.mp he' with he' | he'
    · exact h.adverse e' he'
    · rw [List.mem_singleton.mp he']
      exact hadverse
  oneStep e' he' := by
    rcases List.mem_append.mp he' with he' | he'
    · exact h.oneStep e' he'
    · rw [List.mem_singleton.mp he']
      exact hstep
  earned := justified_concat.mpr ⟨h.earned, fun hr => (hearned hr).1⟩
  elapsed := justified_concat.mpr ⟨h.elapsed, fun hr => h.changedAt ▸ (hearned hr).2⟩

theorem inv_start (c : PostureController) (hstreak : c.cleanStreak = 0)
    (htotal : c.adverseTotal = 0) : (start c).Inv c where
  floor := rfl
  minTime := rfl
  periods := rfl
  current := rfl
  changedAt := rfl
  streak := by
    rw [start, hstreak]
    exact Nat.zero_le _
  adverseTotal := by
    rw [start, htotal]
    exact Nat.zero_le _
  adverse _ h := by cases h
  oneStep _ h := by cases h
  earned := justified_nil _
  elapsed := justified_nil _

/-- A call that ends the streak and sets a posture. -/
theorem Inv.reset {c : PostureController} {t : PostureRun} (h : t.Inv c) (e : PostureEvent)
    (target : Posture) (total : UInt64) (htotal : total.toNat ≤ t.history.length + 1) :
    let c' := ({ t.controller with cleanStreak := 0, adverseTotal := total }.set target e.later).2
    (∀ entry : PostureEntry, entry = ⟨e, t.controller.current, c'.current⟩ →
      (entry.isAdverse = true → entry.after = .evasion)
        ∧ (entry.isClean = true → entry.after = entry.before
            ∨ entry.before.rank = entry.after.rank + 1)
        ∧ (entry.relaxes = true →
            c.cleanPeriodsToRelax.toNat ≤ Lib.streak PostureEntry.quiet t.history + 1
              ∧ t.controller.changedAt + c.minTimeAtPosture ≤ e.now)) →
    Inv c ⟨c', t.history ++ [⟨e, t.controller.current, c'.current⟩]⟩ := by
  intro c' hentry
  obtain ⟨hadverse, hstep, hearned⟩ := hentry _ rfl
  obtain ⟨hfloor, hmin, hperiods, hstreak, hadverseTotal⟩ := PostureController.set_floor
    { t.controller with cleanStreak := 0, adverseTotal := total } target e.later
  refine h.append rfl rfl hfloor hmin hperiods (PostureController.set_changedAt ..) ?_ ?_
    hadverse hstep hearned
  · show c'.cleanStreak.toNat ≤ _
    rw [hstreak]
    exact Nat.zero_le _
  · show c'.adverseTotal.toNat ≤ _
    rw [hadverseTotal]
    exact htotal

/-- A clean period that leaves the posture alone. -/
theorem Inv.stay {c : PostureController} {t : PostureRun} (h : t.Inv c) {e : PostureEvent}
    (hcall : e.call = .observe .cleanPeriod) {cleanStreak : UInt32}
    (hsucc : cleanStreak.toNat = t.controller.cleanStreak.toNat + 1) :
    Inv c ⟨{ t.controller with cleanStreak },
      t.history ++ [⟨e, t.controller.current, t.controller.current⟩]⟩ := by
  have hquiet : PostureEntry.quiet ⟨e, t.controller.current, t.controller.current⟩ = true := by
    simp [PostureEntry.quiet, PostureEntry.isClean, hcall]
  refine h.append rfl rfl rfl rfl rfl (if_pos rfl).symm ?_
    (h.adverseTotal.trans (Nat.le_succ _)) ?_ (fun _ => Or.inl rfl) ?_
  · rw [streak_concat, if_pos hquiet]
    have := h.streak
    show cleanStreak.toNat ≤ _
    omega
  · intro hadverse
    rw [PostureEntry.isAdverse, hcall] at hadverse
    cases hadverse
  · intro hrelaxes
    simp [PostureEntry.relaxes] at hrelaxes

/-- A clean period at the end of a full streak. -/
theorem Inv.relax {c : PostureController} {t : PostureRun} (h : t.Inv c) {e : PostureEvent}
    (hcall : e.call = .observe .cleanPeriod) {relaxed : Posture}
    (hrank : t.controller.current.rank = relaxed.rank + 1)
    (hstreak : c.cleanPeriodsToRelax.toNat ≤ t.controller.cleanStreak.toNat + 1)
    (htime : t.controller.changedAt + c.minTimeAtPosture ≤ e.now) :
    let c' := ({ t.controller with cleanStreak := 0 }.set relaxed e.later).2
    Inv c ⟨c', t.history ++ [⟨e, t.controller.current, c'.current⟩]⟩ := by
  intro c'
  refine h.reset e relaxed t.controller.adverseTotal (h.adverseTotal.trans (Nat.le_succ _)) ?_
  rintro entry rfl
  refine ⟨fun hadverse => ?_, fun _ => ?_, fun _ => ⟨?_, htime⟩⟩
  · rw [PostureEntry.isAdverse, hcall] at hadverse
    cases hadverse
  · -- the floor either keeps the posture or does not matter
    show c'.current = t.controller.current ∨ _
    have hcurrent : c'.current = max relaxed t.controller.floor :=
      PostureController.set_current ..
    show c'.current = t.controller.current ∨ t.controller.current.rank = c'.current.rank + 1
    rw [hcurrent]
    rcases le_total relaxed t.controller.floor with hle | hle
    · rw [max_eq_right hle]
      have habove : t.controller.floor.rank ≤ t.controller.current.rank := t.controller.above
      have hle' : relaxed.rank ≤ t.controller.floor.rank := hle
      by_cases heq : t.controller.floor.rank = t.controller.current.rank
      · exact Or.inl (Posture.rank_injective heq)
      · exact Or.inr (by omega)
    · rw [max_eq_left hle]
      exact Or.inr hrank
  · have := h.streak
    omega

/-- A step to a controller that is as it should be. -/
theorem step_eq {t : PostureRun} {e : PostureEvent} {p : Option Posture × PostureController}
    (h : call t.controller e = some p) :
    t.step e = some ⟨p.2, t.history ++ [⟨e, t.controller.current, p.2.current⟩]⟩ := by
  rw [PostureRun.step, h]
  rfl

/-- The call is made and keeps the invariant, and a change is at its time. -/
def Goes (c : PostureController) (t : PostureRun) (e : PostureEvent) : Prop :=
  ∃ c', t.step e = some ⟨c', t.history ++ [⟨e, t.controller.current, c'.current⟩]⟩
    ∧ Inv c ⟨c', t.history ++ [⟨e, t.controller.current, c'.current⟩]⟩
    ∧ (c'.changedAt = t.controller.changedAt ∨ c'.changedAt = e.later)

theorem changedAt_set (d : PostureController) (target : Posture) (later : Nat) :
    (d.set target later).2.changedAt = d.changedAt
      ∨ (d.set target later).2.changedAt = later := by
  rw [PostureController.set_changedAt]
  split
  · exact Or.inl rfl
  · exact Or.inr rfl

theorem Inv.forced {c : PostureController} {t : PostureRun} (h : t.Inv c) (target : Posture)
    (now later : Nat) : Goes c t ⟨.force target, now, later⟩ := by
  refine ⟨_, step_eq rfl, h.reset _ target t.controller.adverseTotal
    (h.adverseTotal.trans (Nat.le_succ _)) ?_, changedAt_set _ target later⟩
  rintro entry rfl
  exact ⟨(fun hadverse => nomatch hadverse), (fun hclean => nomatch hclean),
    (fun hrelaxes => nomatch hrelaxes)⟩

theorem Inv.observeAdverse {c : PostureController} {t : PostureRun} (h : t.Inv c) {signal : Signal}
    (hadverse : signal.isAdverse = true) (now later : Nat) (hlen : t.history.length + 1 < 2 ^ 32) :
    Goes c t ⟨.observe signal, now, later⟩ := by
  have htotal := h.adverseTotal
  have hlt : t.controller.adverseTotal < u64Max := by
    rw [UInt64.lt_iff_toNat_lt]
    show _ < 2 ^ 64 - 1
    omega
  have hobserve : t.controller.observe signal now later
      = some ({ t.controller with
          cleanStreak := 0
          adverseTotal := t.controller.adverseTotal + 1 }.set .evasion later) := by
    rw [PostureController.observe, if_pos hadverse, checkedSucc, if_neg (ne_of_lt hlt)]
    rfl
  have hsucc : (t.controller.adverseTotal + 1).toNat ≤ t.history.length + 1 := by
    rw [UInt64.toNat_add, UInt64.toNat_one]
    omega
  refine ⟨_, step_eq hobserve, h.reset ⟨.observe signal, now, later⟩ .evasion _ hsucc ?_,
    changedAt_set _ .evasion later⟩
  rintro entry rfl
  have hclean : signal ≠ .cleanPeriod := by
    rintro rfl
    cases hadverse
  refine ⟨fun _ => ?_, fun h => ?_, fun h => ?_⟩
  · show (PostureController.set _ .evasion later).2.current = _
    rw [PostureController.set_current]
    exact max_eq_left (Posture.le_evasion _)
  · simp [PostureEntry.isClean, hclean] at h
  · simp [PostureEntry.relaxes, PostureEntry.isClean, hclean] at h

theorem Inv.observeClean {c : PostureController} {t : PostureRun} (h : t.Inv c) {now : Nat}
    (hnow : t.controller.changedAt ≤ now) (later : Nat) (hlen : t.history.length + 1 < 2 ^ 32) :
    Goes c t ⟨.observe .cleanPeriod, now, later⟩ := by
  have hstreak := h.streak.trans (streak_le_length _ _)
  obtain ⟨hok, hsucc⟩ := PostureController.checkedSucc32_of_lt
    (n := t.controller.cleanStreak) (by omega)
  let c1 : PostureController :=
    { t.controller with cleanStreak := t.controller.cleanStreak + 1 }
  have hobserve : t.controller.observe .cleanPeriod now later
      = if c1.cleanStreak < c1.cleanPeriodsToRelax then some (none, c1)
        else if now - c1.changedAt < c1.minTimeAtPosture then some (none, c1)
        else match c1.current with
          | .evasion => some ({ c1 with cleanStreak := 0 }.set .balanced later)
          | .balanced => some ({ c1 with cleanStreak := 0 }.set .performance later)
          | .performance => some (none, c1) := by
    rw [PostureController.observe, hok]
    rfl
  have hstay := h.stay (e := ⟨.observe .cleanPeriod, now, later⟩) rfl hsucc
  split at hobserve
  · exact ⟨_, step_eq hobserve, hstay, Or.inl rfl⟩
  rename_i hfull
  split at hobserve
  · exact ⟨_, step_eq hobserve, hstay, Or.inl rfl⟩
  rename_i htime
  have hperiods : c.cleanPeriodsToRelax.toNat ≤ t.controller.cleanStreak.toNat + 1 := by
    rw [← hsucc, ← h.periods]
    exact UInt32.le_iff_toNat_le.mp (UInt32.not_lt.mp hfull)
  have htime' : t.controller.changedAt + c.minTimeAtPosture ≤ now := by
    rw [← h.minTime]
    have : t.controller.minTimeAtPosture ≤ now - t.controller.changedAt := not_lt.mp htime
    omega
  have hrelax : ∀ relaxed : Posture, t.controller.current.rank = relaxed.rank + 1 →
      Inv c ⟨({ t.controller with cleanStreak := 0 }.set relaxed later).2,
        t.history ++ [⟨⟨.observe .cleanPeriod, now, later⟩, t.controller.current,
          ({ t.controller with cleanStreak := 0 }.set relaxed later).2.current⟩]⟩ :=
    fun relaxed hrank =>
      h.relax (e := ⟨.observe .cleanPeriod, now, later⟩) rfl hrank hperiods htime'
  split at hobserve
  · rename_i hcurrent
    have hcurrent : t.controller.current = .evasion := hcurrent
    exact ⟨_, step_eq hobserve, hrelax .balanced (congrArg Posture.rank hcurrent),
      changedAt_set _ .balanced later⟩
  · rename_i hcurrent
    have hcurrent : t.controller.current = .balanced := hcurrent
    exact ⟨_, step_eq hobserve, hrelax .performance (congrArg Posture.rank hcurrent),
      changedAt_set _ .performance later⟩
  · exact ⟨_, step_eq hobserve, hstay, Or.inl rfl⟩

/-- Every call, at a time not before the last change and in a run short of
the counters' range. -/
theorem Inv.step {c : PostureController} {t : PostureRun} (h : t.Inv c) {e : PostureEvent}
    (hnow : t.controller.changedAt ≤ e.now) (hlen : t.history.length + 1 < 2 ^ 32) :
    Goes c t e := by
  obtain ⟨call, now, later⟩ := e
  cases call with
  | force target => exact h.forced target now later
  | observe signal =>
      cases hadverse : signal.isAdverse with
      | true => exact h.observeAdverse hadverse now later hlen
      | false =>
          obtain rfl : signal = .cleanPeriod := by
            cases signal with
            | cleanPeriod => rfl
            | _ => cases hadverse
          exact h.observeClean hnow later hlen

theorem Monotone.head {createdAt : Nat} {e : PostureEvent} {events : List PostureEvent}
    (h : Monotone createdAt (e :: events)) :
    createdAt ≤ e.now ∧ Monotone createdAt events ∧ Monotone e.later events := by
  simp only [Monotone, List.flatMap_cons, List.cons_append, List.nil_append,
    List.pairwise_cons] at h ⊢
  obtain ⟨hcreated, hnow, hlater, hrest⟩ := h
  refine ⟨hcreated _ (by simp), ⟨fun a ha => ?_, hrest⟩, hlater, hrest⟩
  exact hcreated a (List.mem_cons_of_mem _ (List.mem_cons_of_mem _ ha))

theorem Inv.exec {c : PostureController} {t : PostureRun} (h : t.Inv c)
    {events : List PostureEvent} (hmono : Monotone t.controller.changedAt events)
    (hlen : t.history.length + events.length < 2 ^ 32) :
    ∃ t', Lib.exec PostureRun.step t events = some t' ∧ t'.Inv c := by
  induction events generalizing t with
  | nil => exact ⟨t, rfl, h⟩
  | cons e events ih =>
      obtain ⟨hnow, hkeep, hlater⟩ := hmono.head
      rw [List.length_cons] at hlen
      obtain ⟨c', hstep, hinv, hchanged⟩ := h.step hnow (by omega)
      have hmono' : Monotone c'.changedAt events := by
        rcases hchanged with heq | heq
        · rw [heq]
          exact hkeep
        · rw [heq]
          exact hlater
      obtain ⟨t', hexec, hinv'⟩ := ih hinv hmono' (by
        rw [List.length_append, List.length_singleton]
        omega)
      exact ⟨t', exec_cons.mpr ⟨_, hstep, hexec⟩, hinv'⟩

/-! ## What the history shows -/

theorem quiet_of_relaxes (e : PostureEntry) (h : e.relaxes = true) : e.quiet = false := by
  have hlt : e.after < e.before := by
    simp only [PostureEntry.relaxes, Bool.and_eq_true, decide_eq_true_eq] at h
    exact h.2
  have hne : ¬ e.after = e.before := ne_of_lt hlt
  simp [PostureEntry.quiet, hne]

theorem Inv.cost {c : PostureController} {t : PostureRun} (h : t.Inv c)
    {older stretch : List PostureEntry} (hpre : older ++ stretch <+: t.history) :
    stretch.countP PostureEntry.relaxes * c.cleanPeriodsToRelax.toNat
      ≤ stretch.countP PostureEntry.isClean + Lib.streak PostureEntry.quiet older := by
  have hearned : Earned PostureEntry.quiet PostureEntry.relaxes c.cleanPeriodsToRelax.toNat
      (older ++ stretch) := Justified.older h.earned hpre
  have hcount := countP_mul_le quiet_of_relaxes hearned
  have hclean : stretch.countP (fun e => e.quiet || e.relaxes)
      ≤ stretch.countP PostureEntry.isClean := by
    refine List.countP_mono_left ?_
    intro e _ he
    simp only [PostureEntry.quiet, PostureEntry.relaxes, Bool.or_eq_true, Bool.and_eq_true] at he
    rcases he with he | he
    · exact he.1
    · exact he.1
  omega

theorem Inv.hysteresis {c : PostureController} {t : PostureRun} (h : t.Inv c)
    (hperiods : 1 ≤ c.cleanPeriodsToRelax) : t.Hysteresis c where
  current := h.current
  floor := h.floor ▸ t.controller.above
  adverse := h.adverse
  oneStep := h.oneStep
  earned older e hpre hrelaxes := by
    have hone : 1 ≤ c.cleanPeriodsToRelax.toNat := UInt32.le_iff_toNat_le.mp hperiods
    have hstreak := h.earned older e hpre hrelaxes
    have hwindow : c.cleanPeriodsToRelax.toNat - 1 ≤ Lib.streak PostureEntry.quiet older := by
      omega
    obtain ⟨oldest, window, heq, hlen, hall⟩ := (le_streak_iff _).mp hwindow
    exact ⟨⟨oldest, window, heq, by omega, hall⟩, h.elapsed older e hpre hrelaxes⟩
  cost older stretch hpre := h.cost hpre
  stretch older stretch hpre hlast := by
    have hcost := h.cost hpre
    have hzero : Lib.streak PostureEntry.quiet older = 0 := by
      rcases List.eq_nil_or_concat' older with rfl | ⟨oldest, e, rfl⟩
      · rfl
      · rw [streak_concat, if_neg]
        intro hquiet
        have hadverse := hlast e (by rw [List.getLast?_concat]; rfl)
        simp only [PostureEntry.quiet, PostureEntry.isClean, Bool.and_eq_true,
          decide_eq_true_eq] at hquiet
        rw [PostureEntry.isAdverse, hquiet.1] at hadverse
        cases hadverse
    omega

/-- Whatever calls are made at non-decreasing times, the posture keeps its
hysteresis. -/
theorem posture_hysteresis (initial floor : Posture) (createdAt minTime : Nat) {periods : UInt32}
    (hperiods : 1 ≤ periods) {events : List PostureEvent} (hmono : Monotone createdAt events)
    (hlen : events.length < 2 ^ 32) :
    ∃ t, Lib.exec step (start ((PostureController.withFloor initial floor createdAt).withTiming
        minTime periods)) events = some t
      ∧ t.Hysteresis ((PostureController.withFloor initial floor createdAt).withTiming
          minTime periods) := by
  have hinv := inv_start ((PostureController.withFloor initial floor createdAt).withTiming
    minTime periods) rfl rfl
  obtain ⟨t, hexec, ht⟩ := hinv.exec hmono (by simpa [start] using hlen)
  exact ⟨t, hexec, ht.hysteresis hperiods⟩

/-- A reset and two clean periods, the second of which relaxes. -/
theorem posture_hysteresis_reset :
    let c := (PostureController.withFloor .balanced .performance 0).withTiming 10 2
    ∃ t, Lib.exec step (start c)
        [⟨.observe .suspiciousReset, 1, 2⟩, ⟨.observe .cleanPeriod, 5, 6⟩,
          ⟨.observe .cleanPeriod, 12, 13⟩] = some t
      ∧ t.Hysteresis c :=
  posture_hysteresis .balanced .performance 0 10 (by decide) (by decide) (by decide)

end PostureRun

end Kanrin
