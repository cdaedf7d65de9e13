import Kanrin.Lib.Http1

/-!
# Heads put together from lines

What a writer of HTTP/1.1 relies on: lines without a carriage return come
apart again where they were put together (`split_intercalate`), the first
blank line is the one behind the last of them (`splitOnceAt_blank`), and a
number is read from the digits it is written with (`numeral_digits`).
-/

namespace Lib

universe u

/-! ## Splitting what was put together -/

section
variable {α : Type u} [DecidableEq α] {c : α} {s : List α}

theorem not_isPrefixOf_cons {a : α} (h : a ≠ c) (rest : List α) :
    ¬ (c :: s).isPrefixOf (a :: rest) = true := by
  intro hpre
  obtain ⟨t, ht⟩ := List.isPrefixOf_iff_prefix.mp hpre
  exact h (List.cons.inj ht).1.symm

theorem splitFrom_skip (sep t : List α) (p : List α) :
    splitFrom sep p.length (p ++ t) = splitFrom sep 0 t := by
  induction p with
  | nil => rfl
  | cons a p ih => exact ih

theorem splitFrom_of_not_mem {p : List α} (h : c ∉ p) (t : List α) :
    splitFrom (c :: s) 0 (p ++ t) = (splitFrom (c :: s) 0 t).modifyHead (p ++ ·) := by
  induction p with
  | nil =>
      cases hsplit : splitFrom (c :: s) 0 t with
      | nil => exact absurd hsplit (splitFrom_ne_nil _ _ _)
      | cons q qs => simp [hsplit]
  | cons a p ih =>
      have ha : a ≠ c := fun heq => h (heq ▸ List.mem_cons_self)
      have hp : c ∉ p := fun hmem => h (List.mem_cons_of_mem _ hmem)
      rw [List.cons_append, splitFrom, if_neg (not_isPrefixOf_cons ha _), ih hp]
      cases hsplit : splitFrom (c :: s) 0 t with
      | nil => exact absurd hsplit (splitFrom_ne_nil _ _ _)
      | cons q qs => simp

theorem splitFrom_separator (t : List α) :
    splitFrom (c :: s) 0 (c :: s ++ t) = [] :: splitFrom (c :: s) 0 t := by
  have hpre : (c :: s).isPrefixOf (c :: (s ++ t)) = true :=
    List.isPrefixOf_iff_prefix.mpr (List.prefix_append (c :: s) t)
  rw [List.cons_append, splitFrom, if_pos hpre]
  exact congrArg (List.cons []) (splitFrom_skip _ _ _)

/-- Pieces that the separator's first element does not occur in. -/
theorem split_intercalate {ps : List (List α)} (hne : ps ≠ []) (h : ∀ p ∈ ps, c ∉ p) :
    split (c :: s) ((c :: s).intercalate ps) = ps := by
  rw [split]
  induction ps with
  | nil => exact absurd rfl hne
  | cons p ps ih =>
      obtain ⟨hp, hps⟩ := List.forall_mem_cons.mp h
      cases ps with
      | nil =>
          have hskip := splitFrom_of_not_mem (s := s) hp []
          rw [List.append_nil] at hskip
          simpa [splitFrom] using hskip
      | cons q qs =>
          rw [List.intercalate_cons_cons, List.append_assoc, splitFrom_of_not_mem hp,
            splitFrom_separator, ih (List.cons_ne_nil _ _) hps]
          simp

theorem splitOnceAt_of_not_mem {p : List α} (h : c ∉ p) (t : List α) :
    splitOnceAt (c :: s) (p ++ t) = (splitOnceAt (c :: s) t).map fun kv => (p ++ kv.1, kv.2) := by
  induction p with
  | nil => simp
  | cons a p ih =>
      have ha : a ≠ c := fun heq => h (heq ▸ List.mem_cons_self)
      have hp : c ∉ p := fun hmem => h (List.mem_cons_of_mem _ hmem)
      rw [List.cons_append, splitOnceAt, if_neg (not_isPrefixOf_cons ha _), ih hp, Option.map_map]
      rfl

theorem splitOnce_of_not_mem {p : List α} (h : c ∉ p) (t : List α) :
    splitOnce c (p ++ c :: t) = some (p, t) := by
  induction p with
  | nil => exact if_pos rfl
  | cons a p ih =>
      have ha : a ≠ c := fun heq => h (heq ▸ List.mem_cons_self)
      have hp : c ∉ p := fun hmem => h (List.mem_cons_of_mem _ hmem)
      rw [List.cons_append, splitOnce, if_neg ha, ih hp]
      rfl

end

/-! ## The blank line -/

/-- A carriage return. -/
def cr : UInt8 := 0x0D

/-- A line that says something, and nothing that ends it. -/
structure IsLine (line : Bytes) : Prop where
  ne_nil : line ≠ []
  no_cr : cr ∉ line

theorem blank_eq : lineEnd ++ lineEnd = cr :: 0x0A :: lineEnd := rfl

/-- A line end before a line is no blank line. -/
theorem splitOnceAt_lineEnd {b : UInt8} (hb : b ≠ cr) (t : Bytes) :
    splitOnceAt (lineEnd ++ lineEnd) (lineEnd ++ b :: t)
      = (splitOnceAt (lineEnd ++ lineEnd) (b :: t)).map fun kv => (lineEnd ++ kv.1, kv.2) := by
  have hfirst : ¬ (lineEnd ++ lineEnd).isPrefixOf (cr :: 0x0A :: b :: t) = true := by
    intro hpre
    obtain ⟨u, hu⟩ := List.isPrefixOf_iff_prefix.mp hpre
    exact hb (List.cons.inj (List.cons.inj (List.cons.inj hu).2).2).1.symm
  have hsecond : (0x0A : UInt8) ∉ ([] : Bytes) ∧ cr ∉ [(0x0A : UInt8)] := by decide
  show splitOnceAt (lineEnd ++ lineEnd) (cr :: ([0x0A] ++ b :: t)) = _
  rw [splitOnceAt, List.singleton_append, if_neg hfirst, ← List.singleton_append, blank_eq,
    splitOnceAt_of_not_mem hsecond.2, Option.map_map]
  rfl

theorem splitOnceAt_blank {lines : List Bytes} (hne : lines ≠ []) (h : ∀ l ∈ lines, IsLine l)
    (rest : Bytes) :
    splitOnceAt (lineEnd ++ lineEnd) (lineEnd.intercalate lines ++ (lineEnd ++ lineEnd ++ rest))
      = some (lineEnd.intercalate lines, rest) := by
  have hblank : splitOnceAt (lineEnd ++ lineEnd) (lineEnd ++ lineEnd ++ rest) = some ([], rest) := by
    have hpre : (lineEnd ++ lineEnd).isPrefixOf (cr :: (0x0A :: lineEnd ++ rest)) = true :=
      List.isPrefixOf_iff_prefix.mpr (List.prefix_append (lineEnd ++ lineEnd) rest)
    show splitOnceAt (lineEnd ++ lineEnd) (cr :: (0x0A :: lineEnd ++ rest)) = _
    rw [splitOnceAt, if_pos hpre]
    rfl
  induction lines with
  | nil => exact absurd rfl hne
  | cons l ls ih =>
      obtain ⟨hl, hls⟩ := List.forall_mem_cons.mp h
      cases ls with
      | nil =>
          have hskip := splitOnceAt_of_not_mem (s := 0x0A :: lineEnd) hl.no_cr
            (lineEnd ++ lineEnd ++ rest)
          rw [← blank_eq, hblank] at hskip
          simpa using hskip
      | cons m ms =>
          obtain ⟨hm, -⟩ := List.forall_mem_cons.mp hls
          have hrec := ih (List.cons_ne_nil _ _) hls
          -- the next line starts with a byte of its own
          obtain ⟨b, t, hbt⟩ : ∃ b t, lineEnd.intercalate (m :: ms)
              ++ (lineEnd ++ lineEnd ++ rest) = b :: t ∧ b ≠ cr := by
            cases m with
            | nil => exact absurd rfl hm.ne_nil
            | cons b m =>
                have hb : b ≠ cr := fun heq => hm.no_cr (heq ▸ List.mem_cons_self)
                cases ms with
                | nil => exact ⟨b, _, by simp; rfl, hb⟩
                | cons q qs => exact ⟨b, _, by rw [List.intercalate_cons_cons]; rfl, hb⟩
          rw [List.intercalate_cons_cons, List.append_assoc, List.append_assoc]
          rw [hbt.1] at hrec ⊢
          rw [blank_eq, splitOnceAt_of_not_mem hl.no_cr, ← blank_eq, splitOnceAt_lineEnd hbt.2, hrec]
          simp

/-! ## Digits -/

/-- The digits of a number, as bytes. -/
def digits (radix n : Nat) : Bytes := (Nat.toDigits radix n).map fun c => UInt8.ofNat c.toNat

theorem toDigit_digitChar {radix d : Nat} (hradix : radix ≤ 16) (h : d < radix) :
    toDigit radix (UInt8.ofNat d.digitChar.toNat) = some d := by
  have hall : ∀ radix < 17, ∀ d < radix,
      toDigit radix (UInt8.ofNat (Nat.digitChar d).toNat) = some d := by decide
  exact hall radix (Nat.lt_succ_of_le hradix) d h

theorem numeralFrom_append {radix acc n : Nat} {p t : Bytes}
    (h : numeralFrom radix acc p = some n) :
    numeralFrom radix acc (p ++ t) = numeralFrom radix n t := by
  induction p generalizing acc with
  | nil =>
      obtain rfl := Option.some.inj h
      rfl
  | cons b p ih =>
      obtain ⟨d, hd, hrest⟩ := Option.bind_eq_some_iff.mp h
      rw [List.cons_append, numeralFrom, hd]
      exact ih hrest

theorem digits_of_lt {radix n : Nat} (h : n < radix) :
    digits radix n = [UInt8.ofNat n.digitChar.toNat] := by
  rw [digits, Nat.toDigits_of_lt_base h]
  rfl

theorem digits_of_ge {radix n : Nat} (hradix : 1 < radix) (h : radix ≤ n) :
    digits radix n = digits radix (n / radix) ++ digits radix (n % radix) := by
  rw [digits, Nat.toDigits_of_base_le hradix h, List.map_append, digits, digits,
    Nat.toDigits_of_lt_base (Nat.mod_lt n (Nat.zero_lt_of_lt hradix))]

theorem numeralFrom_digits {radix : Nat} (hone : 1 < radix) (hradix : radix ≤ 16) (n : Nat) :
    numeralFrom radix 0 (digits radix n) = some n := by
  have hsingle : ∀ acc d, d < radix →
      numeralFrom radix acc (digits radix d) = some (acc * radix + d) := by
    intro acc d hd
    rw [digits_of_lt hd, numeralFrom, toDigit_digitChar hradix hd]
    rfl
  induction n using Nat.strongRecOn with
  | ind n ih =>
      by_cases hn : n < radix
      · rw [hsingle 0 n hn, Nat.zero_mul, Nat.zero_add]
      · have hle := not_lt.mp hn
        have hpos := Nat.zero_lt_of_lt hone
        rw [digits_of_ge hone hle,
          numeralFrom_append (ih (n / radix) (Nat.div_lt_self (hpos.trans_le hle) hone)),
          hsingle _ _ (Nat.mod_lt n hpos), Nat.mul_comm, Nat.div_add_mod]

theorem digits_ne_nil (radix n : Nat) : digits radix n ≠ [] := by
  intro h
  exact Nat.toDigits_ne_nil (List.map_eq_nil_iff.mp h)

/-- A number is read from its digits. -/
theorem numeral_digits {radix : Nat} (hone : 1 < radix) (hradix : radix ≤ 16) (n : Nat) :
    numeral radix (digits radix n) = some n := by
  have h := numeralFrom_digits hone hradix n
  cases hd : digits radix n with
  | nil => exact absurd hd (digits_ne_nil radix n)
  | cons b rest =>
      rw [hd] at h
      exact h

/-- Nothing that is no digit is among the digits. -/
theorem not_mem_digits {radix n : Nat} (hone : 1 < radix) (hradix : radix ≤ 16) {b : UInt8}
    (hb : toDigit radix b = none) : b ∉ digits radix n := by
  intro hmem
  have hsome := toDigit_of_numeralFrom (numeralFrom_digits hone hradix n) b hmem
  rw [hb] at hsome
  cases hsome

/-! ## What is visible -/

/-- ASCII, and neither white space nor a control character. -/
def IsVisible (b : UInt8) : Prop := 0x20 < b ∧ b < 0x80

instance (b : UInt8) : Decidable (IsVisible b) := inferInstanceAs (Decidable (_ ∧ _))

theorem trim_space (s : Bytes) : trim (0x20 :: s) = trim s := by
  have hfront : trimFrom whiteSpace 0 ([0x20] ++ s) = trimFrom whiteSpace 0 s :=
    trimFrom_ows (fun b rest h => (find?_whiteSpace b rest h).1) (List.forall_mem_singleton.mpr rfl)
      s
  rw [List.singleton_append] at hfront
  rw [trim, trim, hfront]

/-- Only the white space before it is trimmed off what is visible. -/
theorem trim_of_visible {w v : Bytes} (hne : v ≠ []) (hv : ∀ b ∈ v, IsVisible b)
    (hw : ∀ b ∈ w, isOws b = true) : trim (w ++ v) = v := by
  have hends : ∀ w ∈ whiteSpace ++ whiteSpace.map List.reverse,
      w.head? ≠ none ∧ (w.head?.any fun b => decide (IsVisible b)) = false := by decide
  have hhead : ∀ b ∈ v, ∀ w ∈ whiteSpace ++ whiteSpace.map List.reverse,
      w.head? ≠ none ∧ w.head? ≠ some b := by
    intro b hb w hw
    obtain ⟨hnone, hany⟩ := hends w hw
    refine ⟨hnone, fun heq => ?_⟩
    rw [heq, Option.any_some, decide_eq_true (hv b hb)] at hany
    cases hany
  have hfront : trimFrom whiteSpace 0 (w ++ v) = v := by
    rw [trimFrom_ows (fun b rest h => (find?_whiteSpace b rest h).1) hw]
    obtain ⟨b, v, rfl⟩ := List.exists_cons_of_ne_nil hne
    exact trimFrom_of_head
      (fun w hw => hhead b List.mem_cons_self w (List.mem_append_left _ hw)) v
  have hback : trimFrom (whiteSpace.map List.reverse) 0 v.reverse = v.reverse := by
    obtain ⟨b, v', hrev⟩ := List.exists_cons_of_ne_nil (List.reverse_eq_nil_iff.not.mpr hne)
    have hb : b ∈ v := by
      rw [← List.mem_reverse, hrev]
      exact List.mem_cons_self
    rw [hrev]
    exact trimFrom_of_head (fun w hw => hhead b hb w (List.mem_append_right _ hw)) v'
  rw [trim, hfront, hback, List.reverse_reverse]

end Lib
