import Kanrin.Lib.Run
import Kanrin.Lib.Parties
import Kanrin.Frontdoor

/-!
# Concurrent admissions

The connections that call `Admitter::admit` of `frontdoor.rs` at once. Each
reads the clock before it asks for the lock of the replay cache, so the
readings need not come to the lock in the order they were made in.

`admitRequest_eq` cuts the check in two: what is decided before the lock
(`presented`), and what happens under it (`spend`). A spent authenticator
stays in the cache until a reading outside of its window takes the lock.
From then on the cache does not know it, while a call that read the clock
earlier may still present it (`prunedWhileWaiting`).
-/

namespace Kanrin

open Lib

structure Authenticator where
  timestamp : UInt64
  nonce : ByteArr 16
  mac : ByteArr 32
deriving DecidableEq

/-- What a request carries in its cookie. -/
def authenticatorOf (head : RequestHead) : Option Authenticator :=
  match cookieValue ((head.header "cookie").getD []) authCookie with
  | none => none
  | some token =>
      match split [0x3A] token with
      | [ts, nonce, mac] =>
          match fromStrRadix 16 64 ts, unhex 16 nonce, unhex 32 mac with
          | some timestamp, some nonce, some mac =>
              some { timestamp := UInt64.ofNat timestamp, nonce, mac }
          | _, _, _ => none
      | _ => none

namespace Admitter

/-- A reading of the clock that an authenticator is accepted at. -/
def InWindow (a : Admitter) (x : Authenticator) (reading : UInt64) : Prop :=
  absDiff reading x.timestamp ≤ a.maxAge

instance (a : Admitter) (x : Authenticator) (reading : UInt64) : Decidable (a.InWindow x reading) :=
  inferInstanceAs (Decidable (_ ≤ _))

variable (P : Primitives)

/-- The authenticator that a call takes to the lock. -/
def presented (a : Admitter) (head : RequestHead) (nowSecs : UInt64) : Option Authenticator :=
  (authenticatorOf head).filter fun x =>
    decide (a.InWindow x nowSecs)
      && constantTimeEq (a.compute P x.timestamp x.nonce).toList x.mac.toList

/-- Under the lock. -/
def spend (a : Admitter) (nowSecs : UInt64) (x : Authenticator) : Admission × Admitter :=
  let seen := a.seen.filter fun s => absDiff nowSecs s.1 ≤ a.maxAge
  if seen.any fun s => s.2 = x.nonce then (.web, { a with seen })
  else (.tunnel, { a with seen := seen ++ [(x.timestamp, x.nonce)] })

theorem check_eq (a : Admitter) (nowSecs : UInt64) (x : Authenticator) :
    (if absDiff nowSecs x.timestamp > a.maxAge then (.web, a)
      else if !constantTimeEq (a.compute P x.timestamp x.nonce).toList x.mac.toList then (.web, a)
      else a.spend nowSecs x)
      = match (some x).filter fun x => decide (a.InWindow x nowSecs)
            && constantTimeEq (a.compute P x.timestamp x.nonce).toList x.mac.toList with
        | none => (.web, a)
        | some x => a.spend nowSecs x := by
  rw [Option.filter_some]
  by_cases hage : a.InWindow x nowSecs
  · rw [if_neg (not_lt.mpr hage), decide_eq_true hage, Bool.true_and]
    cases constantTimeEq (a.compute P x.timestamp x.nonce).toList x.mac.toList <;> rfl
  · rw [if_pos (not_le.mp hage), decide_eq_false hage]
    rfl

theorem admitRequest_eq (a : Admitter) (head : RequestHead) (nowSecs : UInt64) :
    a.admitRequest P head nowSecs = match a.presented P head nowSecs with
      | none => (.web, a)
      | some x => a.spend nowSecs x := by
  rw [admitRequest, presented, authenticatorOf]
  cases cookieValue ((head.header "cookie").getD []) authCookie with
  | none => rfl
  | some token =>
      dsimp only
      -- anything but three parts, each of its own form, is an ordinary request
      rcases split [0x3A] token with _ | ⟨ts, _ | ⟨nonce, _ | ⟨mac, _ | ⟨_, _⟩⟩⟩⟩
      · rfl
      · rfl
      · rfl
      · dsimp only
        cases fromStrRadix 16 64 ts with
        | none => rfl
        | some timestamp =>
            cases unhex 16 nonce with
            | none => rfl
            | some nonce =>
                cases unhex 32 mac with
                | none => rfl
                | some mac => exact check_eq P a nowSecs ⟨UInt64.ofNat timestamp, nonce, mac⟩
      · rfl

end Admitter

/-! ## The system -/

/-- A call of `admit`, with its reading of the clock. -/
structure AdmitCall where
  head : RequestHead
  nowSecs : UInt64
  answer : Option Admission

/-- A call's turn under the lock: its reading, and what it admitted. -/
structure Turn where
  reading : UInt64
  admitted : Option Authenticator
deriving DecidableEq

structure FrontDoor where
  admitter : Admitter
  clock : UInt64
  calls : List AdmitCall
  turns : List Turn

namespace FrontDoor

def start (admitter : Admitter) (clock : UInt64) : FrontDoor where
  admitter := { admitter with seen := [] }
  clock := clock
  calls := []
  turns := []

inductive Event where
  | tick (now : UInt64)
  | call (head : RequestHead)
  /-- The `i`th call goes on to its answer, through the lock if it gets there. -/
  | answer (i : Nat)

variable (P : Primitives)

def step (t : FrontDoor) : Event → Option FrontDoor
  | .tick now => if t.clock ≤ now then some { t with clock := now } else none
  | .call head =>
      some { t with calls := t.calls ++ [{ head, nowSecs := t.clock, answer := none }] }
  | .answer i =>
      match t.calls[i]? with
      | some { head, nowSecs, answer := none } =>
          let (admission, admitter) := t.admitter.admitRequest P head nowSecs
          let calls := t.calls.modify i fun c => { c with answer := some admission }
          match t.admitter.presented P head nowSecs with
          | none => some { t with admitter, calls }
          | some x =>
              let admitted := if admission = .tunnel then some x else none
              some { t with
                admitter, calls, turns := t.turns ++ [{ reading := nowSecs, admitted }] }
      | _ => none

/-- The authenticators admitted so far. -/
def admitted (t : FrontDoor) : List Authenticator := t.turns.filterMap Turn.admitted

def AtMostOnce (t : FrontDoor) : Prop := t.admitted.Nodup

instance (t : FrontDoor) : Decidable t.AtMostOnce := inferInstanceAs (Decidable (List.Nodup _))

/-- The readings that took the lock after an authenticator was admitted. -/
def since (x : Authenticator) : List Turn → List UInt64
  | [] => []
  | turn :: turns => if turn.admitted = some x then turns.map Turn.reading else since x turns

/-- An admission with the nonce of `x` has had no reading outside of its
window take the lock since, and `nowSecs` is in it as well. -/
def Spent (t : FrontDoor) (x : Authenticator) (nowSecs : UInt64) : Prop :=
  ∃ y ∈ t.admitted, y.nonce = x.nonce
    ∧ ∀ reading ∈ since y t.turns ++ [nowSecs], t.admitter.InWindow y reading

instance (t : FrontDoor) (x : Authenticator) (nowSecs : UInt64) : Decidable (t.Spent x nowSecs) :=
  inferInstanceAs (Decidable (∃ _ ∈ _, _))

/-- A call that presents an authenticator once more comes while it still
counts as spent. -/
def Orderly (t : FrontDoor) : Event → Prop
  | .answer i => ∀ c ∈ t.calls[i]?, c.answer = none →
      ∀ x ∈ t.admitter.presented P c.head c.nowSecs, x ∈ t.admitted → t.Spent x c.nowSecs
  | _ => True

instance (t : FrontDoor) : (e : Event) → Decidable (t.Orderly P e)
  | .answer i => inferInstanceAs (Decidable (∀ c ∈ t.calls[i]?, c.answer = none →
      ∀ x ∈ t.admitter.presented P c.head c.nowSecs, x ∈ t.admitted → t.Spent x c.nowSecs))
  | .tick _ | .call _ => isTrue trivial

/-! ## What the replay cache holds -/

/-- The cache holds the admissions that every later reading was in the
window of. -/
structure Inv (t : FrontDoor) : Prop where
  kept : ∀ x ∈ t.admitted, (∀ reading ∈ since x t.turns, t.admitter.InWindow x reading) →
    (x.timestamp, x.nonce) ∈ t.admitter.seen
  origin : ∀ s ∈ t.admitter.seen, ∃ x ∈ t.admitted, s = (x.timestamp, x.nonce)
    ∧ ∀ reading ∈ since x t.turns, t.admitter.InWindow x reading

theorem inv_start (admitter : Admitter) (clock : UInt64) : (start admitter clock).Inv where
  kept _ h := by cases h
  origin _ h := by cases h

/-- A turn after the admission adds its reading. -/
theorem since_concat {turns : List Turn} {x : Authenticator}
    (hx : x ∈ turns.filterMap Turn.admitted) (turn : Turn) :
    since x (turns ++ [turn]) = since x turns ++ [turn.reading] := by
  induction turns with
  | nil => cases hx
  | cons first turns ih =>
      rw [List.cons_append, since, since]
      split
      · rw [List.map_append]
        rfl
      · rename_i hne
        refine ih ?_
        obtain ⟨turn', hmem, heq⟩ := List.mem_filterMap.mp hx
        rcases List.mem_cons.mp hmem with rfl | hmem
        · exact absurd heq hne
        · exact List.mem_filterMap.mpr ⟨turn', hmem, heq⟩

theorem since_admission {turns : List Turn} {x : Authenticator}
    (hx : x ∉ turns.filterMap Turn.admitted) (reading : UInt64) :
    since x (turns ++ [⟨reading, some x⟩]) = [] := by
  induction turns with
  | nil => exact if_pos rfl
  | cons first turns ih =>
      have hne : ¬ first.admitted = some x := fun heq =>
        hx (List.mem_filterMap.mpr ⟨first, List.mem_cons_self, heq⟩)
      rw [List.cons_append, since, if_neg hne]
      refine ih fun hmem => hx ?_
      obtain ⟨turn, hmem, heq⟩ := List.mem_filterMap.mp hmem
      exact List.mem_filterMap.mpr ⟨turn, List.mem_cons_of_mem _ hmem, heq⟩

theorem admitted_concat (turns : List Turn) (turn : Turn) :
    (turns ++ [turn]).filterMap Turn.admitted
      = turns.filterMap Turn.admitted ++ turn.admitted.toList := by
  rw [List.filterMap_append]
  cases h : turn.admitted <;> simp [h]

/-- A turn that finds the nonce spent admits nothing. -/
theorem spend_of_found {a : Admitter} {nowSecs : UInt64} {x : Authenticator}
    (h : ∃ s ∈ a.seen, absDiff nowSecs s.1 ≤ a.maxAge ∧ s.2 = x.nonce) :
    a.spend nowSecs x
      = (.web, { a with seen := a.seen.filter fun s => absDiff nowSecs s.1 ≤ a.maxAge }) := by
  obtain ⟨s, hs, hage, hnonce⟩ := h
  refine if_pos (List.any_eq_true.mpr ⟨s, ?_, decide_eq_true hnonce⟩)
  exact List.mem_filter.mpr ⟨hs, decide_eq_true hage⟩

theorem spend_of_not_found {a : Admitter} {nowSecs : UInt64} {x : Authenticator}
    (h : ¬ ∃ s ∈ a.seen, absDiff nowSecs s.1 ≤ a.maxAge ∧ s.2 = x.nonce) :
    a.spend nowSecs x = (.tunnel, { a with
      seen := a.seen.filter (fun s => absDiff nowSecs s.1 ≤ a.maxAge)
        ++ [(x.timestamp, x.nonce)] }) := by
  refine if_neg fun hany => h ?_
  obtain ⟨s, hs, hnonce⟩ := List.any_eq_true.mp hany
  obtain ⟨hs, hage⟩ := List.mem_filter.mp hs
  exact ⟨s, hs, of_decide_eq_true hage, of_decide_eq_true hnonce⟩

/-- The state after a turn under the lock. -/
def turn (t : FrontDoor) (nowSecs : UInt64) (x : Authenticator) (calls : List AdmitCall) :
    FrontDoor :=
  { t with
    admitter := (t.admitter.spend nowSecs x).2
    calls
    turns := t.turns ++ [{
      reading := nowSecs
      admitted := if (t.admitter.spend nowSecs x).1 = .tunnel then some x else none }] }

/-- The cache finds it. -/
theorem Inv.found_iff {t : FrontDoor} (h : t.Inv) (x : Authenticator) (nowSecs : UInt64) :
    (∃ s ∈ t.admitter.seen, absDiff nowSecs s.1 ≤ t.admitter.maxAge ∧ s.2 = x.nonce)
      ↔ t.Spent x nowSecs := by
  constructor
  · rintro ⟨s, hs, hage, hnonce⟩
    obtain ⟨y, hy, rfl, hin⟩ := h.origin s hs
    refine ⟨y, hy, hnonce, fun reading hr => ?_⟩
    rcases List.mem_append.mp hr with hr | hr
    · exact hin reading hr
    · rw [List.mem_singleton.mp hr]
      exact hage
  · rintro ⟨y, hy, hnonce, hin⟩
    refine ⟨_, h.kept y hy fun reading hr => hin reading (List.mem_append_left _ hr), ?_, hnonce⟩
    exact hin nowSecs (List.mem_append_right _ (List.mem_singleton.mpr rfl))

/-- What a turn keeps of the cache: the entries its own reading is in the
window of. -/
theorem Inv.filter {t : FrontDoor} (h : t.Inv) (turn : Turn) :
    (∀ x ∈ t.admitted, (∀ r ∈ since x (t.turns ++ [turn]), t.admitter.InWindow x r) →
      (x.timestamp, x.nonce)
        ∈ t.admitter.seen.filter fun s => absDiff turn.reading s.1 ≤ t.admitter.maxAge)
      ∧ ∀ s ∈ t.admitter.seen.filter (fun s => absDiff turn.reading s.1 ≤ t.admitter.maxAge),
        ∃ x ∈ t.admitted, s = (x.timestamp, x.nonce)
          ∧ ∀ r ∈ since x (t.turns ++ [turn]), t.admitter.InWindow x r := by
  constructor
  · intro x hx hin
    rw [since_concat hx] at hin
    refine List.mem_filter.mpr ⟨h.kept x hx fun r hr => hin r (List.mem_append_left _ hr), ?_⟩
    exact decide_eq_true (hin _ (List.mem_append_right _ (List.mem_singleton.mpr rfl)))
  · intro s hs
    obtain ⟨hs, hage⟩ := List.mem_filter.mp hs
    obtain ⟨x, hx, rfl, hin⟩ := h.origin s hs
    refine ⟨x, hx, rfl, fun r hr => ?_⟩
    rw [since_concat hx] at hr
    rcases List.mem_append.mp hr with hr | hr
    · exact hin r hr
    · rw [List.mem_singleton.mp hr]
      exact of_decide_eq_true hage

/-- A turn admits an authenticator a second time just when it does not find
it spent. -/
theorem Inv.turn {t : FrontDoor} (h : t.Inv) (honce : t.AtMostOnce) (nowSecs : UInt64)
    (x : Authenticator) (calls : List AdmitCall) :
    ((t.turn nowSecs x calls).AtMostOnce → (t.turn nowSecs x calls).Inv)
      ∧ ((t.turn nowSecs x calls).AtMostOnce ↔ (x ∈ t.admitted → t.Spent x nowSecs)) := by
  by_cases hspent : t.Spent x nowSecs
  · have heq : t.turn nowSecs x calls = { t with
        admitter := { t.admitter with
          seen := t.admitter.seen.filter fun s => absDiff nowSecs s.1 ≤ t.admitter.maxAge }
        calls
        turns := t.turns ++ [⟨nowSecs, none⟩] } := by
      rw [FrontDoor.turn, spend_of_found ((h.found_iff x nowSecs).mpr hspent)]
      rfl
    have hadmitted : (t.turn nowSecs x calls).admitted = t.admitted := by
      rw [heq]
      exact (admitted_concat ..).trans (List.append_nil _)
    obtain ⟨hkept, horigin⟩ := h.filter ⟨nowSecs, none⟩
    refine ⟨fun _ => ?_, iff_of_true (by rwa [AtMostOnce, hadmitted]) fun _ => hspent⟩
    rw [heq] at hadmitted ⊢
    exact ⟨fun y hy => hkept y (hadmitted ▸ hy), fun s hs => hadmitted ▸ horigin s hs⟩
  · have heq : t.turn nowSecs x calls = { t with
        admitter := { t.admitter with
          seen := t.admitter.seen.filter (fun s => absDiff nowSecs s.1 ≤ t.admitter.maxAge)
            ++ [(x.timestamp, x.nonce)] }
        calls
        turns := t.turns ++ [⟨nowSecs, some x⟩] } := by
      rw [FrontDoor.turn, spend_of_not_found (mt (h.found_iff x nowSecs).mp hspent)]
      rfl
    have hadmitted : (t.turn nowSecs x calls).admitted = t.admitted ++ [x] := by
      rw [heq]
      exact admitted_concat ..
    have hiff : (t.turn nowSecs x calls).AtMostOnce ↔ x ∉ t.admitted := by
      rw [AtMostOnce, hadmitted, List.nodup_append_comm, List.singleton_append, List.nodup_cons]
      exact and_iff_left honce
    refine ⟨fun hx => ?_,
      hiff.trans ⟨fun hx hmem => absurd hmem hx, fun hx hmem => hspent (hx hmem)⟩⟩
    replace hx := hiff.mp hx
    obtain ⟨hkept, horigin⟩ := h.filter ⟨nowSecs, some x⟩
    rw [heq] at hadmitted ⊢
    constructor
    · intro y hy hin
      rw [hadmitted] at hy
      rcases List.mem_append.mp hy with hy | hy
      · exact List.mem_append_left _ (hkept y hy hin)
      · rw [List.mem_singleton.mp hy]
        exact List.mem_append_right _ (List.mem_singleton.mpr rfl)
    · intro s hs
      rw [hadmitted]
      rcases List.mem_append.mp hs with hs | hs
      · obtain ⟨y, hy, hrest⟩ := horigin s hs
        exact ⟨y, List.mem_append_left _ hy, hrest⟩
      · refine ⟨x, List.mem_append_right _ (List.mem_singleton.mpr rfl),
          List.mem_singleton.mp hs, ?_⟩
        intro r hr
        have hnil : since x (t.turns ++ [⟨nowSecs, some x⟩]) = [] := since_admission hx nowSecs
        rw [hnil] at hr
        cases hr

/-! ## Runs -/

variable {P}

/-- What a step does to the cache: nothing, or a turn under the lock. -/
theorem step_cases {t t' : FrontDoor} {e : Event} (ht : t.step P e = some t') :
    (t'.admitter = t.admitter ∧ t'.turns = t.turns ∧ t.Orderly P e)
      ∨ ∃ nowSecs x calls, t' = t.turn nowSecs x calls
          ∧ (t.Orderly P e ↔ (x ∈ t.admitted → t.Spent x nowSecs)) := by
  cases e with
  | tick now =>
      simp only [step] at ht
      split at ht
      · obtain rfl := Option.some.inj ht
        exact Or.inl ⟨rfl, rfl, trivial⟩
      · cases ht
  | call head =>
      obtain rfl := Option.some.inj ht
      exact Or.inl ⟨rfl, rfl, trivial⟩
  | answer i =>
      simp only [step] at ht
      split at ht
      · rename_i head nowSecs hi
        rw [Admitter.admitRequest_eq] at ht
        cases hx : t.admitter.presented P head nowSecs with
        | none =>
            rw [hx] at ht
            obtain rfl := Option.some.inj ht
            refine Or.inl ⟨rfl, rfl, fun c hc _ x hpresented => ?_⟩
            obtain rfl := Option.some.inj (hi.symm.trans hc)
            cases hx.symm.trans hpresented
        | some x =>
            rw [hx] at ht
            obtain rfl := Option.some.inj ht
            refine Or.inr ⟨nowSecs, x, _, rfl, fun h => h _ hi rfl x hx, fun h c hc _ y hy => ?_⟩
            obtain rfl := Option.some.inj (hi.symm.trans hc)
            obtain rfl := Option.some.inj (hx.symm.trans hy)
            exact h
      · cases ht

theorem inv_step {t t' : FrontDoor} {e : Event} (h : t.Inv) (honce : t.AtMostOnce)
    (ht : t.step P e = some t') :
    (t'.AtMostOnce → t'.Inv) ∧ (t'.AtMostOnce ↔ t.Orderly P e) := by
  rcases step_cases ht with ⟨hadmitter, hturns, horder⟩ | ⟨nowSecs, x, calls, rfl, horder⟩
  · have hadmitted : t'.admitted = t.admitted := congrArg (List.filterMap Turn.admitted) hturns
    refine ⟨fun _ => ⟨?_, ?_⟩, iff_of_true (by rwa [AtMostOnce, hadmitted]) horder⟩
    · rw [hadmitted, hturns, hadmitter]
      exact h.kept
    · rw [hadmitted, hturns, hadmitter]
      exact h.origin
  · obtain ⟨hinv, honce'⟩ := h.turn honce nowSecs x calls
    exact ⟨hinv, honce'.trans horder.symm⟩

/-- No authenticator is admitted twice in just the runs in which each that
comes again comes while it counts as spent. -/
theorem atMostOnce_iff {admitter : Admitter} {clock : UInt64} {events : List Event} :
    Always (step P) AtMostOnce (start admitter clock) events
      ↔ Meets (step P) (Orderly P) (start admitter clock) events := by
  refine always_iff_meets (fun t e t' hinv honce ht => ?_) (inv_start admitter clock)
    List.nodup_nil
  obtain ⟨hinv', hiff⟩ := inv_step hinv honce ht
  exact ⟨hiff, hinv'⟩

/-! ## A replay that waits -/

def door : Admitter := .new .plain (ascii "pw")

/-- A request with an authenticator minted at `timestamp`. -/
def requestWith (timestamp : UInt64) : Bytes :=
  ascii "GET / HTTP/1.1\r\nCookie: sid=" ++ door.mint .plain timestamp (List.Vector.replicate 16 1)
    ++ crlf ++ crlf

def otherRequest : Bytes :=
  ascii "GET / HTTP/1.1\r\nCookie: sid=" ++ door.mint .plain 1100 (List.Vector.replicate 16 2)
    ++ crlf ++ crlf

def callOf (request : Bytes) : List Event :=
  match RequestHead.parse request with
  | .ok head => [.call head]
  | .error _ => []

/-- The second call with the cookie of the first has read the clock before
it passed the window, and gets to the lock after a call that read it later. -/
def prunedWhileWaiting : List Event :=
  callOf (requestWith 1000) ++ [.answer 0, .tick 1120] ++ callOf (requestWith 1000)
    ++ [.tick 1121] ++ callOf otherRequest ++ [.answer 2, .answer 1]

theorem exec_prunedWhileWaiting :
    (exec (step .plain) (start door 1100) prunedWhileWaiting).map (fun t =>
        (t.calls.map fun c => (c.nowSecs, c.answer), decide t.AtMostOnce))
      = some ([(1100, some .tunnel), (1120, some .tunnel), (1121, some .tunnel)], false) := by
  decide +kernel

theorem prunedWhileWaiting_admits_twice :
    ∃ t, exec (step .plain) (start door 1100) prunedWhileWaiting = some t
      ∧ t.calls.map (fun c => (c.nowSecs, c.answer))
          = [(1100, some .tunnel), (1120, some .tunnel), (1121, some .tunnel)]
      ∧ ¬ Always (step .plain) AtMostOnce (start door 1100) prunedWhileWaiting := by
  obtain ⟨t, hexec, heq⟩ := Option.map_eq_some_iff.mp exec_prunedWhileWaiting
  obtain ⟨hcalls, honce⟩ := Prod.mk.inj heq
  exact ⟨t, hexec, hcalls, not_always_of_exec hexec (of_decide_eq_false honce)⟩

end FrontDoor

end Kanrin
