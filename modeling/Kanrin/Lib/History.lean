import Mathlib.Data.List.Infix
import Mathlib.Data.List.TakeWhile
import Mathlib.Data.List.Induction

/-!
# Histories

A history is a list of entries, oldest first, to which a run adds one
entry after the other.

- `Justified ok` says that each entry had, when it was added, what `ok`
  asks of the entries before it.
- `Latest` is an entry that none after it undoes.
- Where some of the entries are quiet, the `streak` of a history is the
  number of quiet entries at its end. If an entry of another kind has to be
  earned by a streak, `countP_mul_le` bounds how many of those there are: an
  entry that spends a streak ends it, so no quiet entry pays twice.
-/

namespace Lib

universe u

variable {α : Type u}

/-! ## Justified entries -/

def Justified (ok : List α → α → Prop) (l : List α) : Prop :=
  ∀ older a, older ++ [a] <+: l → ok older a

theorem justified_nil (ok : List α → α → Prop) : Justified ok [] := by
  intro older a hpre
  exact absurd (List.prefix_nil.mp hpre) (by simp)

theorem justified_concat {ok : List α → α → Prop} {l : List α} {a : α} :
    Justified ok (l ++ [a]) ↔ Justified ok l ∧ ok l a := by
  constructor
  · intro h
    exact ⟨fun older b hpre => h older b (hpre.trans (List.prefix_append ..)),
      h l a List.prefix_rfl⟩
  · rintro ⟨h, ha⟩ older b hpre
    rcases List.prefix_concat_iff.mp hpre with heq | hpre
    · obtain ⟨rfl, hab⟩ := List.append_inj' heq rfl
      obtain rfl := (List.cons.inj hab).1
      exact ha
    · exact h older b hpre

theorem Justified.older {ok : List α → α → Prop} {l l' : List α} (h : Justified ok l)
    (hpre : l' <+: l) : Justified ok l' :=
  fun older a hpre' => h older a (hpre'.trans hpre)

/-- Where an entry stands in a history that has grown by one. -/
theorem concat_eq_append_cons {l older newer : List α} {a b : α} :
    l ++ [b] = older ++ a :: newer
      ↔ (l = older ∧ b = a ∧ newer = [])
        ∨ ∃ newer', l = older ++ a :: newer' ∧ newer = newer' ++ [b] := by
  constructor
  · intro h
    rcases List.eq_nil_or_concat' newer with rfl | ⟨newer', c, rfl⟩
    · obtain ⟨rfl, hab⟩ := List.append_inj' h rfl
      exact Or.inl ⟨rfl, (List.cons.inj hab).1, rfl⟩
    · rw [← List.cons_append, ← List.append_assoc] at h
      obtain ⟨rfl, hbc⟩ := List.append_inj' h rfl
      exact Or.inr ⟨newer', rfl, by rw [(List.cons.inj hbc).1]⟩
  · rintro (⟨rfl, rfl, rfl⟩ | ⟨newer', rfl, rfl⟩)
    · rfl
    · rw [List.append_assoc, List.cons_append]

/-! ## The latest entry -/

/-- `a` is an entry, and none after it undoes it. -/
def Latest (undoes : α → Prop) (l : List α) (a : α) : Prop :=
  ∃ older newer, l = older ++ a :: newer ∧ ∀ b ∈ newer, ¬ undoes b

theorem not_latest_nil {undoes : α → Prop} {a : α} : ¬ Latest undoes [] a := by
  rintro ⟨older, newer, h, -⟩
  simp at h

theorem latest_concat {undoes : α → Prop} {l : List α} {a b : α} :
    Latest undoes (l ++ [b]) a ↔ b = a ∨ (¬ undoes b ∧ Latest undoes l a) := by
  constructor
  · rintro ⟨older, newer, hl, hnone⟩
    rcases concat_eq_append_cons.mp hl with ⟨-, hba, -⟩ | ⟨newer', rfl, rfl⟩
    · exact Or.inl hba
    · refine Or.inr ⟨hnone b (by simp), older, newer', rfl, fun c hc => ?_⟩
      exact hnone c (List.mem_append_left _ hc)
  · rintro (rfl | ⟨hb, older, newer, rfl, hnone⟩)
    · exact ⟨l, [], rfl, fun _ hc => nomatch hc⟩
    · refine ⟨older, newer ++ [b], by simp, fun c hc => ?_⟩
      rcases List.mem_append.mp hc with hc | hc
      · exact hnone c hc
      · rw [List.mem_singleton.mp hc]
        exact hb

/-- Of the entries that undo others, one is the latest. -/
theorem Latest.unique {undoes : α → Prop} {l : List α} {a b : α} (ha : Latest undoes l a)
    (hb : Latest undoes l b) (hundoes : undoes a) (hundoes' : undoes b) : a = b := by
  induction l using List.reverseRecOn with
  | nil => exact absurd ha not_latest_nil
  | append_singleton l c ih =>
      rcases latest_concat.mp ha with rfl | ⟨hc, ha⟩
      · rcases latest_concat.mp hb with rfl | ⟨hc, -⟩
        · rfl
        · exact absurd hundoes hc
      · rcases latest_concat.mp hb with rfl | ⟨-, hb⟩
        · exact absurd hundoes' hc
        · exact ih ha hb

/-! ## Streaks -/

variable (quiet : α → Bool)

def streak (l : List α) : Nat := (l.reverse.takeWhile quiet).length

theorem streak_concat (l : List α) (a : α) :
    streak quiet (l ++ [a]) = if quiet a = true then streak quiet l + 1 else 0 := by
  rw [streak, List.reverse_append, List.reverse_singleton, List.singleton_append,
    List.takeWhile_cons]
  split
  · rfl
  · rfl

theorem streak_le_length (l : List α) : streak quiet l ≤ l.length := by
  have h := (List.takeWhile_prefix (p := quiet) (l := l.reverse)).length_le
  rwa [List.length_reverse] at h

/-- The last `n` entries are quiet. -/
theorem le_streak_iff {l : List α} {n : Nat} :
    n ≤ streak quiet l
      ↔ ∃ older window, l = older ++ window ∧ window.length = n ∧ ∀ a ∈ window, quiet a = true := by
  induction l using List.reverseRecOn generalizing n with
  | nil =>
      constructor
      · intro h
        exact ⟨[], [], rfl, (Nat.le_zero.mp h).symm, fun _ ha => nomatch ha⟩
      · rintro ⟨older, window, heq, rfl, -⟩
        rw [(List.append_eq_nil_iff.mp heq.symm).2]
        exact Nat.le_refl _
  | append_singleton l a ih =>
      rw [streak_concat]
      cases n with
      | zero =>
          exact iff_of_true (Nat.zero_le _) ⟨l ++ [a], [], by simp, rfl, fun _ ha => nomatch ha⟩
      | succ n =>
          constructor
          · intro h
            split at h
            · rename_i hquiet
              obtain ⟨older, window, rfl, hlen, hall⟩ := ih.mp (Nat.le_of_succ_le_succ h)
              refine ⟨older, window ++ [a], by rw [List.append_assoc], by simp [hlen], ?_⟩
              intro b hb
              rcases List.mem_append.mp hb with hb | hb
              · exact hall b hb
              · rw [List.mem_singleton.mp hb]
                exact hquiet
            · exact absurd h (Nat.not_succ_le_zero n)
          · rintro ⟨older, window, heq, hlen, hall⟩
            -- the window ends with the last entry
            obtain ⟨window, b, rfl⟩ : ∃ w b, window = w ++ [b] := by
              rcases List.eq_nil_or_concat' window with rfl | h
              · cases hlen
              · exact h
            rw [← List.append_assoc] at heq
            obtain ⟨hl, hab⟩ := List.append_inj' heq rfl
            obtain rfl := (List.cons.inj hab).1
            rw [if_pos (hall a (by simp))]
            refine Nat.succ_le_succ (ih.mpr ⟨older, window, hl, by simpa using hlen, ?_⟩)
            exact fun c hc => hall c (List.mem_append_left _ hc)

/-- Whatever spends comes at the end of `n` entries that are quiet but for
itself. -/
def Earned (spends : α → Bool) (n : Nat) : List α → Prop :=
  Justified fun older a => spends a = true → n ≤ streak quiet older + 1

variable {quiet}

/-- `n` entries are needed for each that spends, counting the streak that
was there before. -/
theorem countP_mul_le {spends : α → Bool} (hne : ∀ a, spends a = true → quiet a = false) {n : Nat}
    {older l : List α} (h : Earned quiet spends n (older ++ l)) :
    l.countP spends * n + streak quiet (older ++ l)
      ≤ l.countP (fun a => quiet a || spends a) + streak quiet older := by
  induction l using List.reverseRecOn with
  | nil => simp
  | append_singleton l a ih =>
      rw [← List.append_assoc] at h ⊢
      obtain ⟨hold, hlast⟩ := justified_concat.mp h
      have hprev := ih hold
      rw [streak_concat, List.countP_append, List.countP_append, List.countP_singleton,
        List.countP_singleton]
      cases hspends : spends a with
      | true =>
          have hearned := hlast hspends
          rw [hne a hspends]
          simp only [Bool.false_or, if_true, Nat.add_mul, Nat.one_mul]
          simp only [Bool.false_eq_true, if_false]
          omega
      | false =>
          cases hquiet : quiet a with
          | true =>
              simp only [Bool.true_or, Bool.false_eq_true, if_true, if_false, Nat.add_zero]
              omega
          | false =>
              simp only [Bool.or_self, Bool.false_eq_true, if_false, Nat.add_zero]
              omega

end Lib
