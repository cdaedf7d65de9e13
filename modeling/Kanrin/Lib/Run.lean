import Mathlib.Data.List.Infix

/-!
# Runs of an event-driven system

A system is a partial step function: `step s e` is the state after event
`e`, or `none` when `e` is not enabled in `s`. Everything that is not
determined by the state (scheduling, random draws, failures, timers) is
part of the event, so a list of events *is* an interleaving and every
statement quantified over event lists is a statement about all of them.

- `exec` fires a list of events.
- `Always P` says that `P` holds in every state a list of events leads
  through, and `Meets C` that each event that fires satisfies `C` in the
  state it fires in.
- `exec_invariant`, `always_of_meets`, `meets_of_always` and
  `always_iff_meets` are the induction rules: one step gives the whole run.
-/

namespace Lib

universe u v

variable {σ : Type u} {ε : Type v} {step : σ → ε → Option σ}

/-- Fire the events in order. -/
def exec (step : σ → ε → Option σ) (s : σ) : List ε → Option σ
  | [] => some s
  | e :: es => (step s e).bind fun t => exec step t es

/-- `P` holds in `s` and in every state the events lead through. -/
def Always (step : σ → ε → Option σ) (P : σ → Prop) (s : σ) : List ε → Prop
  | [] => P s
  | e :: es => P s ∧ ∀ t, step s e = some t → Always step P t es

/-- Every event that fires satisfies `C` in the state it fires in. -/
def Meets (step : σ → ε → Option σ) (C : σ → ε → Prop) (s : σ) : List ε → Prop
  | [] => True
  | e :: es => ∀ t, step s e = some t → C s e ∧ Meets step C t es

instance decidableMeets {C : σ → ε → Prop} [∀ s e, Decidable (C s e)] :
    ∀ (s : σ) (es : List ε), Decidable (Meets step C s es)
  | _, [] => isTrue trivial
  | s, e :: es =>
      match h : step s e with
      | none => isTrue fun t ht => by cases h.symm.trans ht
      | some t =>
          have := decidableMeets (C := C) t es
          decidable_of_iff (C s e ∧ Meets step C t es)
            ⟨fun hC u hu => Option.some.inj (h.symm.trans hu) ▸ hC, fun hC => hC t h⟩

/-! ## Composition -/

@[simp] theorem exec_nil (s : σ) : exec step s [] = some s := rfl

theorem exec_cons {s : σ} {e : ε} {es : List ε} {u : σ} :
    exec step s (e :: es) = some u ↔ ∃ t, step s e = some t ∧ exec step t es = some u :=
  Option.bind_eq_some_iff

theorem exec_append {s u : σ} {es fs : List ε} :
    exec step s (es ++ fs) = some u ↔
      ∃ t, exec step s es = some t ∧ exec step t fs = some u := by
  induction es generalizing s with
  | nil => simp
  | cons e es ih =>
      simp only [List.cons_append, exec_cons, ih]
      constructor
      · rintro ⟨a, ha, t, ht, hu⟩
        exact ⟨t, ⟨a, ha, ht⟩, hu⟩
      · rintro ⟨t, ⟨a, ha, ht⟩, hu⟩
        exact ⟨a, ha, t, ht, hu⟩

theorem exec_concat {s u : σ} {es : List ε} {e : ε} :
    exec step s (es ++ [e]) = some u ↔ ∃ t, exec step s es = some t ∧ step t e = some u := by
  simp [exec_append, exec_cons]

/-- `Always` spelled out: `P` holds after every prefix of the events. -/
theorem always_iff {P : σ → Prop} {s : σ} {es : List ε} :
    Always step P s es ↔ ∀ pre, pre <+: es → ∀ t, exec step s pre = some t → P t := by
  induction es generalizing s with
  | nil =>
      simp only [Always, List.prefix_nil]
      exact ⟨fun h pre hpre t ht => by
        subst hpre; simp only [exec_nil, Option.some.injEq] at ht; exact ht ▸ h,
        fun h => h [] rfl s rfl⟩
  | cons e es ih =>
      simp only [Always, ih]
      constructor
      · rintro ⟨h0, h⟩ pre hpre t ht
        cases pre with
        | nil => simp only [exec_nil, Option.some.injEq] at ht; exact ht ▸ h0
        | cons e' pre =>
            obtain ⟨rfl, hpre'⟩ := List.cons_prefix_cons.mp hpre
            obtain ⟨a, ha, ht⟩ := exec_cons.mp ht
            exact h a ha pre hpre' t ht
      · intro h
        refine ⟨h [] (List.nil_prefix) s rfl, fun a ha pre hpre t ht => ?_⟩
        exact h (e :: pre) (List.cons_prefix_cons.mpr ⟨rfl, hpre⟩) t (exec_cons.mpr ⟨a, ha, ht⟩)

theorem Always.last {P : σ → Prop} {s t : σ} {es : List ε} (h : Always step P s es)
    (ht : exec step s es = some t) : P t :=
  always_iff.mp h es List.prefix_rfl t ht

theorem not_always_of_exec {P : σ → Prop} {s t : σ} {es : List ε} (ht : exec step s es = some t)
    (h : ¬ P t) : ¬ Always step P s es := fun hall => h (hall.last ht)

theorem Always.head {P : σ → Prop} {s : σ} {es : List ε} (h : Always step P s es) : P s := by
  cases es with
  | nil => exact h
  | cons => exact h.1

/-! ## Induction over runs -/

/-- What every step keeps, every run keeps. -/
theorem exec_invariant {I : σ → Prop} (hstep : ∀ s e t, I s → step s e = some t → I t)
    {s t : σ} {es : List ε} (h0 : I s) (h : exec step s es = some t) : I t := by
  induction es generalizing s with
  | nil => simp only [exec_nil, Option.some.injEq] at h; exact h ▸ h0
  | cons e es ih =>
      obtain ⟨a, ha, h⟩ := exec_cons.mp h
      exact ih (hstep s e a h0 ha) h

/-- What every step keeps under `C`, every run whose steps meet `C` keeps
throughout. -/
theorem always_of_meets {I : σ → Prop} {C : σ → ε → Prop}
    (hstep : ∀ s e t, I s → C s e → step s e = some t → I t)
    {s : σ} {es : List ε} (h0 : I s) (h : Meets step C s es) : Always step I s es := by
  induction es generalizing s with
  | nil => exact h0
  | cons e es ih =>
      exact ⟨h0, fun t ht => ih (hstep s e t h0 (h t ht).1 ht) (h t ht).2⟩

/-- What meets `C` meets `D`, where `C` keeps an invariant under which it
implies `D`. -/
theorem meets_of_meets {I : σ → Prop} {C D : σ → ε → Prop}
    (hstep : ∀ s e t, I s → C s e → step s e = some t → D s e ∧ I t)
    {s : σ} {es : List ε} (h0 : I s) (h : Meets step C s es) : Meets step D s es := by
  induction es generalizing s with
  | nil => trivial
  | cons e es ih =>
      intro t ht
      obtain ⟨hD, hI⟩ := hstep s e t h0 (h t ht).1 ht
      exact ⟨hD, ih hI (h t ht).2⟩

theorem meets_of_forall {C : σ → ε → Prop} {s : σ} {es : List ε} (h : ∀ e ∈ es, ∀ s, C s e) :
    Meets step C s es := by
  induction es generalizing s with
  | nil => trivial
  | cons e es ih =>
      exact fun t _ =>
        ⟨h e List.mem_cons_self s, ih fun e he => h e (List.mem_cons_of_mem _ he)⟩

theorem meets_append {C : σ → ε → Prop} {s : σ} {es fs : List ε} (hes : Meets step C s es)
    (hfs : ∀ t, exec step s es = some t → Meets step C t fs) : Meets step C s (es ++ fs) := by
  induction es generalizing s with
  | nil => exact hfs s rfl
  | cons e es ih =>
      intro t ht
      refine ⟨(hes t ht).1, ih (hes t ht).2 fun u hu => hfs u ?_⟩
      exact exec_cons.mpr ⟨t, ht, hu⟩

/-- The last event of a run that meets `C` satisfies it. -/
theorem Meets.last {C : σ → ε → Prop} {s t u : σ} {es : List ε} {e : ε}
    (h : Meets step C s (es ++ [e])) (hes : exec step s es = some t) (he : step t e = some u) :
    C t e := by
  induction es generalizing s with
  | nil =>
      obtain rfl := Option.some.inj hes
      exact (h u he).1
  | cons a es ih =>
      obtain ⟨v, hv, hes⟩ := exec_cons.mp hes
      exact ih (h v hv).2 hes

/-- Two conditions that agree on the events that fire where `I` holds. -/
theorem meets_congr {I : σ → Prop} {C D : σ → ε → Prop}
    (hstep : ∀ s e t, I s → step s e = some t → (C s e ↔ D s e) ∧ I t)
    {s : σ} {es : List ε} (h0 : I s) : Meets step C s es ↔ Meets step D s es := by
  induction es generalizing s with
  | nil => exact Iff.rfl
  | cons e es ih =>
      refine forall₂_congr fun t ht => ?_
      obtain ⟨hiff, hI⟩ := hstep s e t h0 ht
      exact and_congr hiff (ih hI)

/-- If a step that lands in `P` must have met `C`, a run that stays in `P`
met `C` throughout. -/
theorem meets_of_always {I P : σ → Prop} {C : σ → ε → Prop}
    (hstep : ∀ s e t, I s → step s e = some t → P t → C s e ∧ I t)
    {s : σ} {es : List ε} (h0 : I s) (h : Always step P s es) : Meets step C s es := by
  induction es generalizing s with
  | nil => trivial
  | cons e es ih =>
      intro t ht
      have hrest := h.2 t ht
      obtain ⟨hC, hI⟩ := hstep s e t h0 ht hrest.head
      exact ⟨hC, ih hI hrest⟩

theorem Always.mono {P Q : σ → Prop} (hPQ : ∀ s, P s → Q s) {s : σ} {es : List ε}
    (h : Always step P s es) : Always step Q s es := by
  induction es generalizing s with
  | nil => exact hPQ s h
  | cons e es ih => exact ⟨hPQ s h.1, fun t ht => ih (h.2 t ht)⟩

/-- Where a step keeps `P` exactly when it meets `C`, a run keeps `P`
throughout exactly when all its steps meet `C`. The invariant is needed
only as far as `P` holds. -/
theorem always_iff_meets {I P : σ → Prop} {C : σ → ε → Prop}
    (hstep : ∀ s e t, I s → P s → step s e = some t → (P t ↔ C s e) ∧ (P t → I t))
    {s : σ} {es : List ε} (hI : I s) (hP : P s) :
    Always step P s es ↔ Meets step C s es := by
  constructor
  · intro h
    refine meets_of_always (I := fun s => I s ∧ P s) (fun s e t hs ht hPt => ?_) ⟨hI, hP⟩ h
    obtain ⟨hiff, hinv⟩ := hstep s e t hs.1 hs.2 ht
    exact ⟨hiff.mp hPt, hinv hPt, hPt⟩
  · intro h
    have hboth : Always step (fun s => I s ∧ P s) s es := by
      refine always_of_meets (fun s e t hs hC ht => ?_) ⟨hI, hP⟩ h
      obtain ⟨hiff, hinv⟩ := hstep s e t hs.1 hs.2 ht
      exact ⟨hinv (hiff.mpr hC), hiff.mpr hC⟩
    exact hboth.mono fun _ hs => hs.2

/-- A fact that no step can establish holds throughout a run it holds at
the end of. -/
theorem always_of_last {I P : σ → Prop}
    (hback : ∀ s e t, I s → step s e = some t → I t ∧ (P t → P s))
    {s t : σ} {es : List ε} (h0 : I s) (h : exec step s es = some t) (ht : P t) :
    Always step P s es := by
  induction es generalizing s with
  | nil => simp only [exec_nil, Option.some.injEq] at h; exact h ▸ ht
  | cons e es ih =>
      obtain ⟨a, ha, h⟩ := exec_cons.mp h
      obtain ⟨hI, hP⟩ := hback s e a h0 ha
      have hrest := ih hI h
      refine ⟨hP hrest.head, fun b hb => ?_⟩
      obtain rfl := Option.some.inj (ha.symm.trans hb)
      exact hrest

/-- A fact that no condition is needed for holds throughout every run. -/
theorem always_of_invariant {I : σ → Prop} (hstep : ∀ s e t, I s → step s e = some t → I t)
    {s : σ} {es : List ε} (h0 : I s) : Always step I s es := by
  induction es generalizing s with
  | nil => exact h0
  | cons e es ih => exact ⟨h0, fun t ht => ih (hstep s e t h0 ht)⟩

end Lib
