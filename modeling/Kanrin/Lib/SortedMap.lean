import Mathlib.Order.Defs.LinearOrder
import Mathlib.Order.Lattice
import Mathlib.Algebra.BigOperators.Group.List.Basic
import Mathlib.Algebra.GroupWithZero.Nat
import Mathlib.Data.List.Pairwise

/-!
# Ordered maps as sorted association lists

A finite map over a linearly ordered key type, held as the list of its
entries in strictly ascending key order. The ordering is a field of the
structure, so every value is a map: no operation has to re-check it.

Each operation is a filter of the entry list, which keeps it computable
and gives its specification in one step: `mem_insert` and `mem_filter` say
which entries survive, `get?_insert` and its siblings restate that for
lookups, and the `total_*` lemmas track a weight summed over the values
(the byte accounting of a bounded buffer).
-/

namespace Lib

universe u v

/-- A map from `K` to `V`: its entries, strictly ascending by key. -/
structure SortedMap (K : Type u) (V : Type v) [LinearOrder K] where
  entries : List (K × V)
  sorted : entries.Pairwise fun a b => a.1 < b.1

namespace SortedMap

variable {K : Type u} {V : Type v} [LinearOrder K]

/-! ## Operations -/

def empty : SortedMap K V := ⟨[], List.Pairwise.nil⟩

def isEmpty (m : SortedMap K V) : Bool := m.entries.isEmpty

def size (m : SortedMap K V) : Nat := m.entries.length

def keys (m : SortedMap K V) : List K := m.entries.map Prod.fst

def get? (m : SortedMap K V) (k : K) : Option V :=
  (m.entries.find? fun e => decide (e.1 = k)).map Prod.snd

def contains (m : SortedMap K V) (k : K) : Bool := (m.get? k).isSome

/-- Keep the entries whose key satisfies `p`. -/
def filter (p : K → Bool) (m : SortedMap K V) : SortedMap K V where
  entries := m.entries.filter fun e => p e.1
  sorted := m.sorted.filter _

def erase (m : SortedMap K V) (k : K) : SortedMap K V :=
  m.filter fun k' => decide (k' ≠ k)

/-- Set `k` to `v`, replacing the entry `k` had. -/
def insert (m : SortedMap K V) (k : K) (v : V) : SortedMap K V where
  entries := (m.entries.filter fun e => decide (e.1 < k)) ++
    (k, v) :: m.entries.filter fun e => decide (k < e.1)
  sorted := by
    refine List.pairwise_append.mpr ⟨m.sorted.filter _, List.pairwise_cons.mpr
      ⟨fun e he => ?_, m.sorted.filter _⟩, fun a ha b hb => ?_⟩
    · simpa using (List.mem_filter.mp he).2
    · have hak : a.1 < k := by simpa using (List.mem_filter.mp ha).2
      rcases List.mem_cons.mp hb with rfl | hb
      · exact hak
      · exact hak.trans (by simpa using (List.mem_filter.mp hb).2)

/-- What lies below `k`, and what from it on. -/
def splitOff (m : SortedMap K V) (k : K) : SortedMap K V × SortedMap K V :=
  (m.filter fun k' => decide (k' < k), m.filter fun k' => decide (k ≤ k'))

/-- The entry with the least key at or above `k`. -/
def firstGE? (m : SortedMap K V) (k : K) : Option (K × V) :=
  m.entries.find? fun e => decide (k ≤ e.1)

/-- A weight summed over the values. -/
def total (w : V → Nat) (m : SortedMap K V) : Nat := (m.entries.map fun e => w e.2).sum

/-! ## Entries -/

theorem eq_of_mem {m : SortedMap K V} {k : K} {v v' : V}
    (h : (k, v) ∈ m.entries) (h' : (k, v') ∈ m.entries) : v = v' := by
  have hpw : m.entries.Pairwise fun a b : K × V => a.1 ≠ b.1 := m.sorted.imp fun hlt => hlt.ne
  have : Std.Symm fun a b : K × V => a.1 ≠ b.1 := ⟨fun _ _ hab => hab.symm⟩
  by_contra hne
  exact hpw.forall h h' (by simpa using hne) rfl

theorem get?_eq_some {m : SortedMap K V} {k : K} {v : V} :
    m.get? k = some v ↔ (k, v) ∈ m.entries := by
  constructor
  · intro h
    obtain ⟨⟨k', v'⟩, hfind, rfl⟩ := Option.map_eq_some_iff.mp h
    have hk : k' = k := by simpa using List.find?_some hfind
    exact hk ▸ List.mem_of_find?_eq_some hfind
  · intro h
    cases hfind : m.entries.find? fun e => decide (e.1 = k) with
    | none => simpa using List.find?_eq_none.mp hfind _ h
    | some e =>
        have hk : e.1 = k := by simpa using List.find?_some hfind
        have hmem : (k, e.2) ∈ m.entries := hk ▸ List.mem_of_find?_eq_some hfind
        simp [get?, hfind, eq_of_mem hmem h]

theorem get?_eq_none {m : SortedMap K V} {k : K} :
    m.get? k = none ↔ ∀ v, (k, v) ∉ m.entries := by
  rw [Option.eq_none_iff_forall_ne_some]
  exact forall_congr' fun v => not_congr get?_eq_some

theorem mem_keys {m : SortedMap K V} {k : K} : k ∈ m.keys ↔ ∃ v, m.get? k = some v := by
  simp [keys, get?_eq_some]

theorem mem_keys_iff_contains {m : SortedMap K V} {k : K} :
    k ∈ m.keys ↔ m.contains k = true := by
  rw [mem_keys, contains, Option.isSome_iff_exists]

theorem keys_sorted (m : SortedMap K V) : m.keys.Pairwise (· < ·) :=
  List.pairwise_map.mpr m.sorted

theorem filter_true (m : SortedMap K V) : m.filter (fun _ => true) = m := by
  cases m
  simp [filter]

theorem filter_false (m : SortedMap K V) : m.filter (fun _ => false) = .empty := by
  simp [filter, empty]

@[simp] theorem mem_filter {m : SortedMap K V} {p : K → Bool} {e : K × V} :
    e ∈ (m.filter p).entries ↔ e ∈ m.entries ∧ p e.1 = true := List.mem_filter

theorem mem_insert {m : SortedMap K V} {k : K} {v : V} {e : K × V} :
    e ∈ (m.insert k v).entries ↔ e = (k, v) ∨ (e ∈ m.entries ∧ e.1 ≠ k) := by
  simp only [insert, List.mem_append, List.mem_filter, List.mem_cons, decide_eq_true_eq]
  constructor
  · rintro (⟨h, hlt⟩ | rfl | ⟨h, hlt⟩)
    · exact Or.inr ⟨h, hlt.ne⟩
    · exact Or.inl rfl
    · exact Or.inr ⟨h, hlt.ne'⟩
  · rintro (rfl | ⟨h, hne⟩)
    · exact Or.inr (Or.inl rfl)
    · rcases lt_or_gt_of_ne hne with hlt | hgt
      · exact Or.inl ⟨h, hlt⟩
      · exact Or.inr (Or.inr ⟨h, hgt⟩)

/-! ## Lookups -/

@[simp] theorem entries_empty : (empty : SortedMap K V).entries = [] := rfl

@[simp] theorem get?_empty (k : K) : (empty : SortedMap K V).get? k = none := rfl

theorem isEmpty_iff {m : SortedMap K V} : m.isEmpty = true ↔ m.entries = [] :=
  List.isEmpty_iff

theorem get?_of_isEmpty {m : SortedMap K V} (h : m.isEmpty = true) (k : K) :
    m.get? k = none := by
  simp [get?_eq_none, isEmpty_iff.mp h]

theorem isEmpty_of_get? {m : SortedMap K V} (h : ∀ k, m.get? k = none) : m.isEmpty = true := by
  rw [isEmpty_iff, List.eq_nil_iff_forall_not_mem]
  exact fun e => get?_eq_none.mp (h e.1) e.2

theorem get?_filter {m : SortedMap K V} {p : K → Bool} (k : K) :
    (m.filter p).get? k = if p k then m.get? k else none := by
  ext v
  by_cases hp : p k = true <;> simp [get?_eq_some, hp]

theorem get?_erase {m : SortedMap K V} {k : K} (k' : K) :
    (m.erase k).get? k' = if k' = k then none else m.get? k' := by
  rw [erase, get?_filter]
  by_cases h : k' = k <;> simp [h]

theorem get?_insert {m : SortedMap K V} {k : K} {v : V} (k' : K) :
    (m.insert k v).get? k' = if k' = k then some v else m.get? k' := by
  ext w
  by_cases h : k' = k
  · rw [get?_eq_some, mem_insert, if_pos h]; simp [h, eq_comm]
  · simp [get?_eq_some, mem_insert, h]

theorem contains_iff {m : SortedMap K V} {k : K} :
    m.contains k = true ↔ ∃ v, m.get? k = some v := Option.isSome_iff_exists

theorem contains_eq_false {m : SortedMap K V} {k : K} :
    m.contains k = false ↔ m.get? k = none := by simp [contains]

theorem contains_insert {m : SortedMap K V} {k : K} {v : V} {k' : K} :
    (m.insert k v).contains k' = true ↔ k' = k ∨ m.contains k' = true := by
  by_cases h : k' = k <;> simp [contains, get?_insert, h]

/-! ## The least entry from a key on -/

theorem firstGE?_eq_some {m : SortedMap K V} {k k' : K} {v : V}
    (h : m.firstGE? k = some (k', v)) :
    m.get? k' = some v ∧ k ≤ k' ∧ ∀ j, m.contains j = true → k ≤ j → k' ≤ j := by
  obtain ⟨hk, pre, post, hsplit, hpre⟩ := List.find?_eq_some_iff_append.mp h
  have hge : k ≤ k' := by simpa using hk
  refine ⟨get?_eq_some.mpr (List.mem_of_find?_eq_some h), hge, fun j hj hkj => ?_⟩
  obtain ⟨w, hw⟩ := contains_iff.mp hj
  have hmem := get?_eq_some.mp hw
  rw [hsplit] at hmem
  have hsorted := m.sorted
  rw [hsplit] at hsorted
  rcases List.mem_append.mp hmem with hin | hin
  · have := hpre _ hin
    simp only [Bool.not_eq_true', decide_eq_false_iff_not] at this
    exact absurd hkj this
  · rcases List.mem_cons.mp hin with heq | hin
    · exact (congrArg Prod.fst heq).ge
    · exact ((List.pairwise_cons.mp (List.pairwise_append.mp hsorted).2.1).1 _ hin).le

theorem firstGE?_eq_none {m : SortedMap K V} {k : K} :
    m.firstGE? k = none ↔ ∀ j, m.contains j = true → j < k := by
  simp only [firstGE?, List.find?_eq_none, decide_eq_true_eq, not_le]
  constructor
  · intro h j hj
    obtain ⟨w, hw⟩ := contains_iff.mp hj
    exact h _ (get?_eq_some.mp hw)
  · intro h e he
    exact h e.1 (contains_iff.mpr ⟨e.2, get?_eq_some.mpr he⟩)

/-! ## Sizes and weights -/

/-- The entries counted as a weight. -/
theorem total_one (m : SortedMap K V) : m.total (fun _ => 1) = m.size := by
  simp [total, size]

theorem size_erase_lt {m : SortedMap K V} {k : K} {v : V} (h : m.get? k = some v) :
    (m.erase k).size < m.size := by
  refine List.length_filter_lt_length_iff_exists.mpr ⟨(k, v), get?_eq_some.mp h, ?_⟩
  simp

@[simp] theorem total_empty (w : V → Nat) : (empty : SortedMap K V).total w = 0 := rfl

/-- Splitting the entries by a key predicate splits the weight. -/
theorem total_filter_add (w : V → Nat) (m : SortedMap K V) (p : K → Bool) :
    (m.filter p).total w + (m.filter fun k => !p k).total w = m.total w := by
  have key : ∀ l : List (K × V),
      ((l.filter fun e => p e.1).map fun e => w e.2).sum
        + ((l.filter fun e => !p e.1).map fun e => w e.2).sum
        = (l.map fun e => w e.2).sum := by
    intro l
    induction l with
    | nil => rfl
    | cons e l ih => cases hp : p e.1 <;> simp [hp] <;> omega
  exact key m.entries

theorem size_filter_add (m : SortedMap K V) (p : K → Bool) :
    (m.filter p).size + (m.filter fun k => !p k).size = m.size := by
  have h := total_filter_add (fun _ => 1) m p
  rwa [total_one, total_one, total_one] at h

theorem total_eq_zero_of_isEmpty {w : V → Nat} {m : SortedMap K V} (h : m.isEmpty = true) :
    m.total w = 0 := by
  simp [total, isEmpty_iff.mp h]

/-- The weight of the single entry a key has. -/
theorem total_filter_eq (w : V → Nat) (m : SortedMap K V) (k : K) :
    (m.filter fun k' => decide (k' = k)).total w = ((m.get? k).map w).getD 0 := by
  have hkey : ∀ l : List (K × V), l.Pairwise (fun a b => a.1 < b.1) →
      ((l.filter fun e => decide (e.1 = k)).map fun e => w e.2).sum
        = (((l.find? fun e => decide (e.1 = k)).map Prod.snd).map w).getD 0 := by
    intro l
    induction l with
    | nil => intro _; rfl
    | cons e l ih =>
        intro hl
        obtain ⟨hlt, hl⟩ := List.pairwise_cons.mp hl
        by_cases he : e.1 = k
        · have hrest : (l.filter fun e => decide (e.1 = k)) = [] :=
            List.filter_eq_nil_iff.mpr fun x hx => by
              have hlt' := hlt x hx
              rw [he] at hlt'
              simpa using hlt'.ne'
          simp [he, hrest]
        · simp [he, ih hl]
  exact hkey m.entries m.sorted

theorem total_erase (w : V → Nat) (m : SortedMap K V) (k : K) :
    (m.erase k).total w + ((m.get? k).map w).getD 0 = m.total w := by
  have h := total_filter_add w m fun k' => decide (k' = k)
  rw [total_filter_eq] at h
  have : (m.filter fun k' => !decide (k' = k)) = m.erase k := by simp [erase]
  rw [this] at h
  omega

theorem size_erase_of_get? {m : SortedMap K V} {k : K} {v : V} (h : m.get? k = some v) :
    (m.erase k).size + 1 = m.size := by
  have herase := total_erase (fun _ => 1) m k
  rwa [h, total_one, total_one] at herase

/-- No value weighs more than all of them. -/
theorem le_total (w : V → Nat) {m : SortedMap K V} {k : K} {v : V} (h : m.get? k = some v) :
    w v ≤ m.total w := by
  have herase := total_erase w m k
  rw [h, Option.map_some, Option.getD_some] at herase
  omega

theorem total_insert (w : V → Nat) (m : SortedMap K V) (k : K) (v : V) :
    (m.insert k v).total w = (m.erase k).total w + w v := by
  have hkey : ∀ l : List (K × V),
      ((l.filter fun e => decide (e.1 < k)).map fun e => w e.2).sum
        + ((l.filter fun e => decide (k < e.1)).map fun e => w e.2).sum
        = ((l.filter fun e => decide (e.1 ≠ k)).map fun e => w e.2).sum := by
    intro l
    induction l with
    | nil => rfl
    | cons e l ih =>
        rcases lt_trichotomy e.1 k with h | h | h
        · simp [h, h.ne, h.not_gt] at ih ⊢; omega
        · simp [h] at ih ⊢; omega
        · simp [h, h.ne', h.not_gt] at ih ⊢; omega
  have := hkey m.entries
  simp only [total, insert, erase, filter, List.map_append, List.map_cons, List.sum_append,
    List.sum_cons]
  omega

/-- A key that is new is one entry more. -/
theorem size_insert {m : SortedMap K V} {k : K} (h : m.contains k = false) (v : V) :
    (m.insert k v).size = m.size + 1 := by
  have hinsert := total_insert (fun _ => 1) m k v
  have herase := total_erase (fun _ => 1) m k
  rw [contains_eq_false.mp h, Option.map_none, Option.getD_none, Nat.add_zero] at herase
  rw [total_one, herase, total_one] at hinsert
  exact hinsert

/-- Where no value weighs nothing, there are no more entries than there is weight. -/
theorem size_le_total {w : V → Nat} {m : SortedMap K V}
    (h : ∀ k v, m.get? k = some v → 1 ≤ w v) : m.size ≤ m.total w := by
  have hall : ∀ e ∈ m.entries, 1 ≤ w e.2 := fun e he => h e.1 e.2 (get?_eq_some.mpr he)
  rw [size, total]
  generalize m.entries = l at hall
  induction l with
  | nil => exact Nat.zero_le _
  | cons e l ih =>
      have hhead := hall e List.mem_cons_self
      have htail := ih fun e' he' => hall e' (List.mem_cons_of_mem _ he')
      rw [List.length_cons, List.map_cons, List.sum_cons]
      omega

theorem size_insert_of_isEmpty {m : SortedMap K V} (h : m.isEmpty = true) (k : K) (v : V) :
    (m.insert k v).size = 1 := by
  have hinsert := total_insert (fun _ => 1) m k v
  have herase := total_erase (fun _ => 1) m k
  rw [total_eq_zero_of_isEmpty h] at herase
  rw [total_one] at hinsert
  omega

end SortedMap

end Lib
