import Mathlib.Data.List.Sort
import Mathlib.Data.List.TakeWhile

/-!
# Sorting by a key, and searching what is sorted

`sortByKey` is stable: what it does to the elements of one key is nothing
(`filter_sortByKey`), and a sorted list is determined by that
(`eq_of_filter_eq`). A list that is sorted again and again while elements
are added is sorted as if once (`sortByKey_concat`). The first match in a
sorted list is the least by key, and of these the first of the unsorted list
(`find?_sortByKey`). An element is found by a key of its own
(`find?_of_nodup`). `partitionPoint` searches by halving.
-/

namespace Lib

variable {α κ : Type*}

/-! ## Sorting -/

section Sorting

variable [LinearOrder κ] (key : α → κ)

/-- `sort_by_key`. -/
def sortByKey (l : List α) : List α := l.insertionSort fun a b => key a ≤ key b

def SortedBy (l : List α) : Prop := l.Pairwise fun a b => key a ≤ key b

variable {key} {l l' : List α} {a : α} {p : α → Bool}

theorem sortedBy_sortByKey (l : List α) : SortedBy key (sortByKey key l) :=
  haveI : Std.Total fun a b : α => key a ≤ key b := ⟨fun a b => le_total (key a) (key b)⟩
  haveI : IsTrans α fun a b => key a ≤ key b := ⟨fun _ _ _ => le_trans⟩
  List.pairwise_insertionSort _ l

theorem perm_sortByKey (l : List α) : (sortByKey key l).Perm l := List.perm_insertionSort _ l

theorem mem_sortByKey : a ∈ sortByKey key l ↔ a ∈ l := List.mem_insertionSort _

/-- Sorting leaves the elements of one key in the order they had. -/
theorem filter_sortByKey (k : κ) (l : List α) :
    (sortByKey key l).filter (key · = k) = l.filter (key · = k) := by
  induction l with
  | nil => rfl
  | cons a l ih =>
      rw [List.filter_cons, ← ih, sortByKey, List.insertionSort_cons_eq_take_drop,
        List.filter_append, List.filter_cons]
      set sorted := l.insertionSort fun a b => key a ≤ key b with hsorted
      have hparts : sorted.filter (key · = k)
          = (sorted.takeWhile fun b => ¬ key a ≤ key b).filter (key · = k)
            ++ (sorted.dropWhile fun b => ¬ key a ≤ key b).filter (key · = k) := by
        rw [← List.filter_append, List.takeWhile_append_dropWhile]
      split
      · -- what `a` is put behind has a smaller key
        rename_i hkey
        have hnone : (sorted.takeWhile fun b => ¬ key a ≤ key b).filter (key · = k) = [] := by
          refine List.filter_eq_nil_iff.mpr fun b hb => ?_
          have hlt := List.mem_takeWhile_imp hb
          simp only [decide_eq_true_eq, not_le] at hkey hlt ⊢
          exact (hkey ▸ hlt).ne
        have hwhole : (sortByKey key l).filter (key · = k) = sorted.filter (key · = k) := rfl
        rw [hwhole, hparts, hnone, List.nil_append, List.nil_append]
      · exact hparts.symm

/-- A sorted list is determined by what it holds of each key. -/
theorem eq_of_filter_eq (hl : SortedBy key l) (hl' : SortedBy key l')
    (h : ∀ k, l.filter (key · = k) = l'.filter (key · = k)) : l = l' := by
  have hmem : ∀ a, a ∈ l ↔ a ∈ l' := fun a => by
    have hfilter := congrArg (a ∈ ·) (h (key a))
    simpa using hfilter
  induction l generalizing l' with
  | nil =>
      refine (List.eq_nil_iff_forall_not_mem.mpr fun a ha => ?_).symm
      exact absurd ((hmem a).mpr ha) List.not_mem_nil
  | cons a l ih =>
      cases l' with
      | nil => exact absurd ((hmem a).mp List.mem_cons_self) List.not_mem_nil
      | cons b l' =>
          have hab : key a = key b := le_antisymm
            ((List.mem_cons.mp ((hmem b).mpr List.mem_cons_self)).elim
              (fun hb => (congrArg key hb).ge) (List.rel_of_pairwise_cons hl))
            ((List.mem_cons.mp ((hmem a).mp List.mem_cons_self)).elim
              (fun ha => (congrArg key ha).ge) (List.rel_of_pairwise_cons hl'))
          have hheads := h (key a)
          rw [List.filter_cons_of_pos (by simp), List.filter_cons_of_pos (by simp [hab])] at hheads
          obtain ⟨rfl, -⟩ := List.cons.inj hheads
          have htails : ∀ k, l.filter (key · = k) = l'.filter (key · = k) := fun k => by
            have hk := h k
            rw [List.filter_cons, List.filter_cons] at hk
            split at hk
            · exact (List.cons.inj hk).2
            · exact hk
          refine congrArg (a :: ·) (ih hl.of_cons hl'.of_cons htails fun b => ?_)
          have hfilter := congrArg (b ∈ ·) (htails (key b))
          simpa using hfilter

/-- Sorting after each element that is added is sorting once. -/
theorem sortByKey_concat (l : List α) (a : α) :
    sortByKey key (sortByKey key l ++ [a]) = sortByKey key (l ++ [a]) := by
  refine eq_of_filter_eq (sortedBy_sortByKey _) (sortedBy_sortByKey _) fun k => ?_
  rw [filter_sortByKey, filter_sortByKey, List.filter_append, List.filter_append,
    filter_sortByKey]

/-- Lists with the same elements, no two of one key, are sorted into the same list. -/
theorem sortByKey_eq_of_perm (hperm : l.Perm l')
    (hdistinct : l.Pairwise fun a b => key a ≠ key b) : sortByKey key l = sortByKey key l' := by
  have hmost : ∀ k, (l.filter (key · = k)).length ≤ 1 := fun k => by
    by_contra hlong
    obtain ⟨a, b, rest, hab⟩ : ∃ a b rest, l.filter (key · = k) = a :: b :: rest := by
      match hfilter : l.filter (key · = k) with
      | [] | [_] => simp [hfilter] at hlong
      | a :: b :: rest => exact ⟨a, b, rest, rfl⟩
    have hpair := (hdistinct.filter _ : (l.filter (key · = k)).Pairwise _)
    have ha : a ∈ l.filter (key · = k) := by simp [hab]
    have hb : b ∈ l.filter (key · = k) := by simp [hab]
    rw [hab] at hpair
    refine List.rel_of_pairwise_cons hpair List.mem_cons_self ?_
    have hka := List.of_mem_filter ha
    have hkb := List.of_mem_filter hb
    simp only [decide_eq_true_eq] at hka hkb
    exact hka.trans hkb.symm
  refine eq_of_filter_eq (sortedBy_sortByKey _) (sortedBy_sortByKey _) fun k => ?_
  rw [filter_sortByKey, filter_sortByKey]
  have hsame := hperm.filter (key · = k)
  match hfilter : l.filter (key · = k) with
  | [] => rw [hfilter] at hsame; exact hsame.nil_eq
  | [a] => rw [hfilter] at hsame; exact (List.perm_singleton.mp hsame.symm).symm
  | a :: b :: rest => have hlong := hmost k; simp [hfilter] at hlong

/-- What comes before what: the smaller key, and of one key what came first. -/
theorem pair_sublist_sortByKey {b : α} :
    [a, b].Sublist (sortByKey key l)
      ↔ (key a < key b ∧ a ∈ l ∧ b ∈ l) ∨ (key a = key b ∧ [a, b].Sublist l) := by
  constructor
  · intro h
    have hle : key a ≤ key b :=
      List.rel_of_pairwise_cons ((sortedBy_sortByKey l).sublist h) (List.mem_singleton_self b)
    rcases hle.lt_or_eq with hlt | heq
    · have hmem := h.subset
      exact Or.inl ⟨hlt, mem_sortByKey.mp (hmem List.mem_cons_self),
        mem_sortByKey.mp (hmem (List.mem_cons_of_mem _ (List.mem_singleton_self b)))⟩
    · have hfilter := h.filter (key · = key b)
      rw [filter_sortByKey, List.filter_eq_self.mpr (by simp [heq])] at hfilter
      exact Or.inr ⟨heq, hfilter.trans List.filter_sublist⟩
  · rintro (⟨hlt, ha, hb⟩ | ⟨heq, h⟩)
    · have ha' : a ∈ sortByKey key l := mem_sortByKey.mpr ha
      have hb' : b ∈ sortByKey key l := mem_sortByKey.mpr hb
      have hsorted : SortedBy key (sortByKey key l) := sortedBy_sortByKey l
      obtain ⟨before, after, hsplit⟩ := List.append_of_mem ha'
      rw [hsplit] at hb' hsorted ⊢
      rcases List.mem_append.mp hb' with hbefore | hafter
      · have hge := (List.pairwise_append.mp hsorted).2.2 b hbefore a List.mem_cons_self
        exact absurd hlt (not_lt.mpr hge)
      · rcases List.mem_cons.mp hafter with rfl | hafter
        · exact absurd hlt (lt_irrefl _)
        · exact ((List.singleton_sublist.mpr hafter).cons_cons a).trans
            (List.sublist_append_right _ _)
    · have hfilter := h.filter (key · = key b)
      rw [← filter_sortByKey (key b) l, List.filter_eq_self.mpr (by simp [heq])] at hfilter
      exact hfilter.trans List.filter_sublist

/-! ## The first and the last -/

/-- The first match of a sorted list has the least key of all matches. -/
theorem SortedBy.find?_le (hl : SortedBy key l) (h : l.find? p = some a) :
    ∀ b ∈ l, p b = true → key a ≤ key b := by
  intro b hb hpb
  obtain ⟨-, before, after, rfl, hbefore⟩ := List.find?_eq_some_iff_append.mp h
  rcases List.mem_append.mp hb with hb | hb
  · exact absurd hpb (by simpa using hbefore b hb)
  · rcases List.mem_cons.mp hb with rfl | hb
    · exact le_rfl
    · exact List.rel_of_pairwise_cons (List.pairwise_append.mp hl).2.1 hb

/-- The first match after sorting: no match has a smaller key, and it is the
first match of its key before sorting. -/
theorem find?_sortByKey (h : (sortByKey key l).find? p = some a) :
    (∀ b ∈ l, p b = true → key a ≤ key b)
      ∧ (l.filter (key · = key a)).find? p = some a := by
  refine ⟨fun b hb => (sortedBy_sortByKey l).find?_le h b (mem_sortByKey.mpr hb), ?_⟩
  rw [← filter_sortByKey]
  obtain ⟨hpa, before, after, hsplit, hbefore⟩ := List.find?_eq_some_iff_append.mp h
  refine List.find?_eq_some_iff_append.mpr ⟨hpa, before.filter (key · = key a),
    after.filter (key · = key a), ?_, fun b hb => hbefore b (List.mem_of_mem_filter hb)⟩
  rw [hsplit, List.filter_append, List.filter_cons_of_pos (by simp)]

/-- What is sorted to the front: no key is smaller, and it is the first of its key. -/
theorem head?_sortByKey (h : (sortByKey key l).head? = some a) :
    (∀ b ∈ l, key a ≤ key b) ∧ l.find? (key · = key a) = some a := by
  obtain ⟨rest, hsorted⟩ := List.head?_eq_some_iff.mp h
  have hfirst : (sortByKey key l).find? (fun _ => true) = some a := by
    rw [hsorted, List.find?_cons_of_pos rfl]
  obtain ⟨hle, hfind⟩ := find?_sortByKey hfirst
  refine ⟨fun b hb => hle b hb rfl, ?_⟩
  rw [List.find?_filter] at hfind
  simpa using hfind

/-- The last of a sorted list has the greatest key, and is the last of its key. -/
theorem SortedBy.getLast?_eq_some (hl : SortedBy key l) (h : l.getLast? = some a) :
    (∀ b ∈ l, key b ≤ key a) ∧ (l.filter (key · = key a)).getLast? = some a := by
  obtain ⟨before, rfl⟩ := List.getLast?_eq_some_iff.mp h
  refine ⟨fun b hb => ?_, ?_⟩
  · rcases List.mem_append.mp hb with hb | hb
    · exact (List.pairwise_append.mp hl).2.2 b hb a (List.mem_singleton.mpr rfl)
    · rw [List.mem_singleton.mp hb]
  · rw [List.filter_append, List.filter_cons_of_pos (by simp), List.filter_nil,
      List.getLast?_concat]

/-- Of the elements with the greatest key there is a last one. -/
theorem exists_last_greatest (key : α → κ) (hne : l ≠ []) :
    ∃ a ∈ l, (∀ b ∈ l, key b ≤ key a) ∧ (l.filter (key · = key a)).getLast? = some a := by
  obtain ⟨b, hb⟩ := List.exists_mem_of_ne_nil l hne
  have hsorted : sortByKey key l ≠ [] := List.ne_nil_of_mem (mem_sortByKey.mpr hb)
  have hlast := List.getLast?_eq_some_getLast hsorted
  obtain ⟨hmax, hof⟩ := (sortedBy_sortByKey l).getLast?_eq_some hlast
  refine ⟨_, mem_sortByKey.mp (List.getLast_mem hsorted),
    fun b hb => hmax b (mem_sortByKey.mpr hb), ?_⟩
  rw [← filter_sortByKey, hof]

/-- Sorting images by a key is sorting by the key of the image. -/
theorem sortByKey_map {β : Type*} (f : β → α) (l : List β) :
    sortByKey key (l.map f) = (sortByKey (key ∘ f) l).map f :=
  (List.map_insertionSort _ _ f l fun _ _ _ _ => Iff.rfl).symm

end Sorting

/-! ## A key that no two elements share -/

theorem find?_of_nodup [DecidableEq κ] {key : α → κ} {l : List α} {a : α}
    (hnodup : (l.map key).Nodup) (ha : a ∈ l) : l.find? (key · = key a) = some a := by
  obtain ⟨before, after, rfl⟩ := List.append_of_mem ha
  rw [List.map_append, List.map_cons] at hnodup
  refine List.find?_eq_some_iff_append.mpr
    ⟨decide_eq_true rfl, before, after, rfl, fun b hb => ?_⟩
  have hother := (List.nodup_append.mp hnodup).2.2 (key b) (List.mem_map_of_mem hb) (key a)
    List.mem_cons_self
  simpa using hother

theorem find?_of_not_mem [DecidableEq κ] {key : α → κ} {l : List α} {k : κ}
    (h : k ∉ l.map key) : l.find? (key · = k) = none := by
  refine List.find?_eq_none.mpr fun a ha => ?_
  rw [decide_eq_true_eq]
  rintro rfl
  exact h (List.mem_map_of_mem ha)

/-! ## Searching by halving -/

section Searching

variable (p : α → Bool) (l : List α)

/-- `size` elements from `base` on are left; before `base` all satisfy `p`. -/
def halve : (fuel size base : Nat) → Nat
  | 0, _, base => base
  | fuel + 1, size, base =>
      if size ≤ 1 then base + (l[base]?.any p).toNat
      else
        let half := size / 2
        halve fuel (size - half) (if l[base + half]?.any p then base + half else base)

/-- `partition_point`: how many elements come first that satisfy `p`. -/
def partitionPoint : Nat := if l.length = 0 then 0 else halve p l l.length l.length 0

/-- The elements that satisfy `p` are those before `k`. -/
def PartitionedAt (k : Nat) : Prop := ∀ i, l[i]?.any p = true ↔ i < k

variable {p l} {k : Nat}

theorem halve_eq (hk : PartitionedAt p l k) {fuel size base : Nat} (hfuel : size ≤ fuel)
    (hsize : 0 < size) (hle : k ≤ base + size) (hbase : base = 0 ∨ base < k) :
    halve p l fuel size base = k := by
  induction fuel generalizing size base with
  | zero => omega
  | succ fuel ih =>
      rw [halve]
      split
      · have hat := hk base
        cases hany : l[base]?.any p with
        | true => have hlt := hat.mp hany; simp only [Bool.toNat_true]; omega
        | false =>
            have hge : ¬ base < k := fun hlt => by simp [hat.mpr hlt] at hany
            simp only [Bool.toNat_false]
            omega
      · have hat := hk (base + size / 2)
        dsimp only
        split
        · rename_i hany
          exact ih (by omega) (by omega) (by omega) (Or.inr (hat.mp hany))
        · rename_i hany
          have hge := mt hat.mpr hany
          exact ih (by omega) (by omega) (by omega) hbase

theorem PartitionedAt.le_length (hk : PartitionedAt p l k) : k ≤ l.length := by
  by_contra hlt
  simpa using (hk l.length).mpr (by omega)

theorem partitionPoint_eq (hk : PartitionedAt p l k) : partitionPoint p l = k := by
  have hend := hk.le_length
  unfold partitionPoint
  split
  · omega
  · exact halve_eq hk le_rfl (by omega) (by omega) (Or.inl rfl)

/-- What is sorted by a key is partitioned by a bound on the key. -/
theorem SortedBy.partitionedAt [LinearOrder κ] {key : α → κ} (hl : SortedBy key l) (x : κ) :
    ∃ k, PartitionedAt (key · ≤ x) l k ∧ l.filter (key · ≤ x) = l.take k := by
  induction l with
  | nil => exact ⟨0, fun i => by simp, rfl⟩
  | cons a l ih =>
      by_cases ha : key a ≤ x
      · obtain ⟨k, hk, hfilter⟩ := ih hl.of_cons
        refine ⟨k + 1, fun i => ?_, ?_⟩
        · cases i with
          | zero => simpa using ha
          | succ i => simpa using hk i
        · rw [List.filter_cons_of_pos (by simpa using ha), hfilter, List.take_succ_cons]
      · have habove : ∀ b ∈ a :: l, ¬ key b ≤ x := by
          intro b hb hbx
          rcases List.mem_cons.mp hb with rfl | hb
          · exact ha hbx
          · exact ha ((List.rel_of_pairwise_cons hl hb).trans hbx)
        refine ⟨0, fun i => ?_, List.filter_eq_nil_iff.mpr (by simpa using habove)⟩
        rw [Option.any_eq_true]
        refine iff_of_false ?_ (Nat.not_lt_zero i)
        rintro ⟨b, hb, hbx⟩
        exact habove b (List.mem_of_getElem? hb) (by simpa using hbx)

/-- What the search ends in front of is the last element that satisfies the bound. -/
theorem SortedBy.getLast?_filter_le [LinearOrder κ] {key : α → κ} (hl : SortedBy key l) (x : κ) :
    (l.filter (key · ≤ x)).getLast?
      = if partitionPoint (key · ≤ x) l = 0 then none
        else l[partitionPoint (key · ≤ x) l - 1]? := by
  obtain ⟨k, hk, hfilter⟩ := hl.partitionedAt x
  rw [partitionPoint_eq hk, hfilter, List.getLast?_take]
  split
  · rfl
  · have hle := hk.le_length
    rw [List.getElem?_eq_getElem (by omega), Option.some_or]

end Searching

end Lib
