import Mathlib.Logic.Basic
import Mathlib.Tactic.ByContra

/-!
# Exclusive ownership of a resource

Holders hold at most one resource each, and some resources are free.
`Owned` says that no resource is held twice and none that is held is free.
The four ways a holding can change (drop, grant, transfer and release) keep
it, each stated by what it does to every holder and every resource, so that
a system only has to say which of the four a step is.

`Covered` is the other half: no resource is lost. It has the same four
rules, with the inclusions the other way.
-/

namespace Lib

universe u v

variable {ι : Type u} {α : Type v} {holds holds' : ι → Option α} {free free' kind : α → Prop}

structure Owned (holds : ι → Option α) (free : α → Prop) : Prop where
  unique : ∀ x y a, holds x = some a → holds y = some a → x = y
  taken : ∀ x a, holds x = some a → ¬ free a

theorem Owned.mono (h : Owned holds free) (hholds : ∀ x a, holds' x = some a → holds x = some a)
    (hfree : ∀ a, free' a → free a) : Owned holds' free' where
  unique x y a hx hy := h.unique x y a (hholds x a hx) (hholds y a hy)
  taken x a hx ha := h.taken x a (hholds x a hx) (hfree a ha)

/-- A free resource is given to a holder. -/
theorem Owned.grant (h : Owned holds free) {x : ι} {a : α} (ha : free a)
    (hself : ∀ b, holds' x = some b → b = a)
    (hother : ∀ y, y ≠ x → ∀ b, holds' y = some b → holds y = some b)
    (hfree : ∀ b, free' b → free b ∧ b ≠ a) : Owned holds' free' := by
  have hne : ∀ y, y ≠ x → holds' y ≠ some a := fun y hy hya => h.taken y a (hother y hy a hya) ha
  refine ⟨fun y z b hy hz => ?_, fun y b hy hb => ?_⟩
  · by_cases hyx : y = x
    · subst hyx
      obtain rfl := hself b hy
      by_contra hyz
      exact hne z (Ne.symm hyz) hz
    · by_cases hzx : z = x
      · subst hzx
        obtain rfl := hself b hz
        exact absurd hy (hne y hyx)
      · exact h.unique y z b (hother y hyx b hy) (hother z hzx b hz)
  · by_cases hyx : y = x
    · subst hyx
      exact (hfree b hb).2 (hself b hy)
    · exact h.taken y b (hother y hyx b hy) (hfree b hb).1

/-- A holder passes its resource on. -/
theorem Owned.transfer (h : Owned holds free) {x y : ι} {a : α} (hx : holds x = some a)
    (hgone : holds' x = none) (hself : ∀ b, holds' y = some b → b = a)
    (hother : ∀ z, z ≠ x → z ≠ y → ∀ b, holds' z = some b → holds z = some b)
    (hfree : ∀ b, free' b → free b) : Owned holds' free' := by
  have hne : ∀ z, z ≠ y → holds' z ≠ some a := by
    intro z hzy hz
    by_cases hzx : z = x
    · rw [hzx, hgone] at hz
      cases hz
    · exact hzx (h.unique z x a (hother z hzx hzy a hz) hx)
  have hback : ∀ z, z ≠ y → ∀ b, holds' z = some b → holds z = some b := by
    intro z hzy b hz
    refine hother z (fun hzx => ?_) hzy b hz
    rw [hzx, hgone] at hz
    cases hz
  refine ⟨fun z w b hz hw => ?_, fun z b hz hb => ?_⟩
  · by_cases hzy : z = y
    · by_cases hwy : w = y
      · rw [hzy, hwy]
      · subst hzy
        obtain rfl := hself b hz
        exact absurd hw (hne w hwy)
    · by_cases hwy : w = y
      · subst hwy
        obtain rfl := hself b hw
        exact absurd hz (hne z hzy)
      · exact h.unique z w b (hback z hzy b hz) (hback w hwy b hw)
  · by_cases hzy : z = y
    · subst hzy
      obtain rfl := hself b hz
      exact h.taken x b hx (hfree b hb)
    · exact h.taken z b (hback z hzy b hz) (hfree b hb)

/-- A holder gives its resource back. -/
theorem Owned.release (h : Owned holds free) {x : ι} {a : α} (hx : holds x = some a)
    (hgone : holds' x = none)
    (hother : ∀ y, y ≠ x → ∀ b, holds' y = some b → holds y = some b)
    (hfree : ∀ b, free' b → free b ∨ b = a) : Owned holds' free' := by
  have hback : ∀ y b, holds' y = some b → y ≠ x ∧ holds y = some b := by
    intro y b hy
    have hyx : y ≠ x := by
      intro hyx
      rw [hyx, hgone] at hy
      cases hy
    exact ⟨hyx, hother y hyx b hy⟩
  refine ⟨fun y z b hy hz => h.unique y z b (hback y b hy).2 (hback z b hz).2,
    fun y b hy hb => ?_⟩
  obtain ⟨hyx, hy⟩ := hback y b hy
  rcases hfree b hb with hb | rfl
  · exact h.taken y b hy hb
  · exact hyx (h.unique y x b hy hx)

/-! ## Nothing is lost -/

/-- Every resource of the kind is free or held. -/
def Covered (kind : α → Prop) (holds : ι → Option α) (free : α → Prop) : Prop :=
  ∀ a, kind a → free a ∨ ∃ x, holds x = some a

theorem Covered.mono (h : Covered kind holds free)
    (hholds : ∀ x a, holds x = some a → holds' x = some a) (hfree : ∀ a, free a → free' a) :
    Covered kind holds' free' := by
  intro a ha
  rcases h a ha with hpool | ⟨x, hx⟩
  · exact Or.inl (hfree a hpool)
  · exact Or.inr ⟨x, hholds x a hx⟩

theorem Covered.grant (h : Covered kind holds free) {x : ι} {a : α} (hself : holds' x = some a)
    (hother : ∀ y b, holds y = some b → holds' y = some b)
    (hfree : ∀ b, free b → free' b ∨ b = a) : Covered kind holds' free' := by
  intro b hb
  rcases h b hb with hpool | ⟨y, hy⟩
  · rcases hfree b hpool with hpool | rfl
    · exact Or.inl hpool
    · exact Or.inr ⟨x, hself⟩
  · exact Or.inr ⟨y, hother y b hy⟩

theorem Covered.transfer (h : Covered kind holds free) {x y : ι} {a : α} (hx : holds x = some a)
    (hself : holds' y = some a) (hother : ∀ z, z ≠ x → ∀ b, holds z = some b → holds' z = some b)
    (hfree : ∀ b, free b → free' b) : Covered kind holds' free' := by
  intro b hb
  rcases h b hb with hpool | ⟨z, hz⟩
  · exact Or.inl (hfree b hpool)
  · by_cases hzx : z = x
    · subst hzx
      obtain rfl := Option.some.inj (hx.symm.trans hz)
      exact Or.inr ⟨y, hself⟩
    · exact Or.inr ⟨z, hother z hzx b hz⟩

theorem Covered.release (h : Covered kind holds free) {x : ι} {a : α} (hx : holds x = some a)
    (hfreed : kind a → free' a) (hother : ∀ y, y ≠ x → ∀ b, holds y = some b → holds' y = some b)
    (hfree : ∀ b, free b → free' b) : Covered kind holds' free' := by
  intro b hb
  rcases h b hb with hpool | ⟨y, hy⟩
  · exact Or.inl (hfree b hpool)
  · by_cases hyx : y = x
    · subst hyx
      obtain rfl := Option.some.inj (hx.symm.trans hy)
      exact Or.inl (hfreed hb)
    · exact Or.inr ⟨y, hother y hyx b hy⟩

end Lib
