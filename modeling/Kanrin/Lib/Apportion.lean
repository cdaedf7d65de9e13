import Mathlib.Data.List.Perm.Basic
import Mathlib.Data.List.Range

/-!
# Numbers from a high-water mark and a free stack

Numbers are handed out from `lo` on. Those that came back wait on a stack,
and the mark `next` only moves when the stack is empty. `Apportioned` is
the invariant of every such scheme: what has come back and what is held
are together a rearrangement of the numbers from `lo` up to the mark.
-/

namespace Lib

/-- Each number from `lo` up to `next` is either freed or held, once. -/
structure Apportioned (lo next : Nat) (freed held : List Nat) : Prop where
  le : lo ≤ next
  perm : (freed ++ held).Perm (List.range' lo (next - lo))

namespace Apportioned

variable {lo next n : Nat} {freed held rest : List Nat}

/-! ## The moves -/

theorem start (lo : Nat) : Apportioned lo lo [] [] where
  le := le_rfl
  perm := by
    rw [Nat.sub_self]
    exact List.Perm.refl []

/-- The top of the stack is handed out. -/
theorem reuse (h : Apportioned lo next (n :: freed) held) :
    Apportioned lo next freed (n :: held) where
  le := h.le
  perm := List.perm_middle.trans h.perm

/-- The mark moves by one. -/
theorem extend (h : Apportioned lo next freed held) :
    Apportioned lo (next + 1) freed (next :: held) where
  le := Nat.le_succ_of_le h.le
  perm := by
    have hle := h.le
    have hmark : lo + (next - lo) = next := by omega
    have hrange : List.range' lo (next + 1 - lo) = List.range' lo (next - lo) ++ [next] := by
      rw [Nat.sub_add_comm hle, List.range'_1_concat, hmark]
    have hfront : (freed ++ next :: held).Perm (next :: List.range' lo (next - lo)) :=
      List.perm_middle.trans (h.perm.cons next)
    rw [hrange]
    exact hfront.trans (List.perm_append_singleton _ _).symm

/-- A number that is held comes back. -/
theorem giveBack (h : Apportioned lo next freed held) (hheld : held.Perm (n :: rest)) :
    Apportioned lo next (n :: freed) rest where
  le := h.le
  perm := (List.perm_middle.symm.trans (hheld.symm.append_left freed)).trans h.perm

/-! ## What it says -/

theorem nodup (h : Apportioned lo next freed held) : (freed ++ held).Nodup :=
  h.perm.nodup_iff.mpr List.nodup_range'

theorem disjoint (h : Apportioned lo next freed held) (hn : n ∈ held) : n ∉ freed :=
  fun hfreed => (List.nodup_append.mp h.nodup).2.2 n hfreed n hn rfl

theorem mem_iff (h : Apportioned lo next freed held) :
    n ∈ held ∨ n ∈ freed ↔ lo ≤ n ∧ n < next := by
  have hle := h.le
  rw [or_comm, ← List.mem_append, h.perm.mem_iff, List.mem_range'_1, Nat.add_sub_cancel' hle]

theorem length_add (h : Apportioned lo next freed held) :
    freed.length + held.length = next - lo := by
  rw [← List.length_append, h.perm.length_eq, List.length_range']

end Apportioned

end Lib
