import Mathlib.Data.List.Basic

/-!
# Parties of a system

A system of any number of parties keeps them in a list, and a step of party
`i` modifies the `i`th. `modify_cases` reads a lookup after such a step
back: the party that moved, or another one that did not.
-/

namespace Lib

universe u v

variable {α : Type u}

theorem modify_cases {l : List α} {i j : Nat} {f : α → α} {c : α}
    (h : (l.modify i f)[j]? = some c) :
    (j = i ∧ ∃ c0, l[i]? = some c0 ∧ c = f c0) ∨ (j ≠ i ∧ l[j]? = some c) := by
  by_cases hj : j = i
  · subst hj
    rw [List.getElem?_modify_eq] at h
    obtain ⟨c0, hc0, rfl⟩ := Option.map_eq_some_iff.mp h
    exact Or.inl ⟨rfl, c0, hc0, rfl⟩
  · rw [List.getElem?_modify_ne f l (Ne.symm hj)] at h
    exact Or.inr ⟨hj, h⟩

theorem mem_modify_cases {l : List α} {i : Nat} {f : α → α} {c : α} (h : c ∈ l.modify i f) :
    (∃ c0, l[i]? = some c0 ∧ c = f c0) ∨ ∃ j, j ≠ i ∧ l[j]? = some c := by
  obtain ⟨j, hj⟩ := List.mem_iff_getElem?.mp h
  rcases modify_cases hj with ⟨-, hmoved⟩ | ⟨hne, hj⟩
  · exact Or.inl hmoved
  · exact Or.inr ⟨j, hne, hj⟩

theorem getElem?_modify_self {l : List α} {i : Nat} {c : α} (f : α → α) (h : l[i]? = some c) :
    (l.modify i f)[i]? = some (f c) := by
  rw [List.getElem?_modify_eq, h]
  rfl

/-- A party that did not move is still there. -/
theorem mem_modify_of_ne {l : List α} {i j : Nat} {c : α} (f : α → α) (h : l[j]? = some c)
    (hne : j ≠ i) : c ∈ l.modify i f := by
  refine List.mem_of_getElem? (i := j) ?_
  rw [List.getElem?_modify_ne f l (Ne.symm hne), h]

theorem mem_modify_self {l : List α} {i : Nat} {c : α} (f : α → α) (h : l[i]? = some c) :
    f c ∈ l.modify i f := List.mem_of_getElem? (getElem?_modify_self f h)

/-- What a step does not touch reads the same of every party. -/
theorem map_modify {β : Type v} {l : List α} {i : Nat} {f : α → α} {g : α → β}
    (h : ∀ a, g (f a) = g a) : (l.modify i f).map g = l.map g := by
  refine List.ext_getElem? ?_
  intro j
  rw [List.getElem?_map, List.getElem?_map, List.getElem?_modify]
  cases l[j]? with
  | none => rfl
  | some c =>
      by_cases hj : i = j
      · simp [hj, h]
      · simp [hj]

/-- What the step of one party does not change reads the same of every party. -/
theorem map_modify_at {β : Type v} {l : List α} {i : Nat} {a : α} {f : α → α} {g : α → β}
    (ha : l[i]? = some a) (h : g (f a) = g a) : (l.modify i f).map g = l.map g := by
  refine List.ext_getElem? ?_
  intro j
  rw [List.getElem?_map, List.getElem?_map, List.getElem?_modify]
  by_cases hj : i = j
  · subst hj
    simp [ha, h]
  · simp [hj]

/-- One party less is counted. -/
theorem countP_modify_of_not {l : List α} {i : Nat} {a : α} {f : α → α} {p : α → Bool}
    (ha : l[i]? = some a) (h : p a = true) (h' : p (f a) = false) :
    (l.modify i f).countP p + 1 = l.countP p := by
  induction l generalizing i with
  | nil => cases ha
  | cons b l ih =>
      cases i with
      | zero =>
          obtain rfl := Option.some.inj ha
          rw [List.modify_zero_cons, List.countP_cons_of_neg (by simp [h']),
            List.countP_cons_of_pos h]
      | succ i =>
          rw [List.modify_succ_cons, List.countP_cons, List.countP_cons, ← ih ha]
          omega

/-- The same step of each of several parties. -/
theorem getElem?_foldl_modify {l : List α} {is : List Nat} {f : α → α} (hf : ∀ a, f (f a) = f a)
    (j : Nat) :
    (is.foldl (fun l i => l.modify i f) l)[j]? = l[j]?.map fun c => if j ∈ is then f c else c := by
  induction is generalizing l with
  | nil => simp
  | cons i is ih =>
      rw [List.foldl_cons, ih, List.getElem?_modify]
      cases l[j]? with
      | none => rfl
      | some c =>
          by_cases hj : i = j
          · subst hj
            by_cases hmem : i ∈ is <;> simp [hmem, hf]
          · simp [hj, Ne.symm hj]

/-- A new party is last. -/
theorem concat_cases {l : List α} {j : Nat} {a c : α} (h : (l ++ [a])[j]? = some c) :
    l[j]? = some c ∨ c = a := by
  rcases Nat.lt_trichotomy j l.length with hj | hj | hj
  · rw [List.getElem?_append_left hj] at h
    exact Or.inl h
  · subst hj
    rw [List.getElem?_concat_length] at h
    exact Or.inr (Option.some.inj h).symm
  · rw [List.getElem?_eq_none (by simp; omega)] at h
    cases h

end Lib
