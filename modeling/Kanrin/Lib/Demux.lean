import Mathlib.Data.List.Infix
import Mathlib.Data.List.Induction

/-!
# Sharing out a stream

A stream of items of which each goes to one receiver at most: a log pairs
each item with the receiver it went to, if any. `share n log` is what
receiver `n` has of it, in the order of the stream (`share_sublist`).
-/

namespace Lib

universe u v

variable {α : Type u} {ι : Type v} [DecidableEq ι]

def share (n : ι) (log : List (α × Option ι)) : List α :=
  log.filterMap fun e => if e.2 = some n then some e.1 else none

@[simp] theorem share_nil (n : ι) : share n ([] : List (α × Option ι)) = [] := rfl

@[simp] theorem share_append (n : ι) (log log' : List (α × Option ι)) :
    share n (log ++ log') = share n log ++ share n log' := List.filterMap_append

@[simp] theorem share_singleton_self (n : ι) (a : α) : share n [(a, some n)] = [a] := by
  simp [share]

theorem share_singleton_of_ne {n : ι} {a : α} {d : Option ι} (h : d ≠ some n) :
    share n [(a, d)] = [] := by
  simp [share, h]

theorem share_sublist (n : ι) (log : List (α × Option ι)) : (share n log).Sublist (log.map Prod.fst) := by
  induction log with
  | nil => exact List.Sublist.refl _
  | cons e log ih =>
      rw [share, List.filterMap_cons, List.map_cons]
      split
      · exact ih.cons _
      · rename_i b hb
        split at hb
        · obtain rfl := Option.some.inj hb
          exact ih.cons_cons _
        · cases hb

theorem mem_share {n : ι} {a : α} {log : List (α × Option ι)} :
    a ∈ share n log ↔ (a, some n) ∈ log := by
  simp only [share, List.mem_filterMap]
  constructor
  · rintro ⟨⟨b, d⟩, hmem, h⟩
    split at h
    · rename_i hd
      obtain rfl := Option.some.inj h
      exact hd ▸ hmem
    · cases h
  · exact fun h => ⟨(a, some n), h, if_pos rfl⟩

end Lib
