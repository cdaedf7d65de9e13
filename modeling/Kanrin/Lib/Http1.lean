import Mathlib.Data.List.DropRight
import Kanrin.Lib.Text

/-!
# HTTP/1.1 messages

Where a request ends in a stream of bytes: after its head, which ends with
the first blank line, and its body, which the framing headers delimit.
`Content-Length` is a number, however often it is repeated; of the transfer
codings the last must be the chunked one, and the two exclude each other.
Every other head is faulty, and what follows it is not a body at all.

`fromStrRadix_of_numeral` and `trim_of_numeral` say that parsing and
trimming as Rust's `str` does agrees with this on a proper length, and
`fromStrRadix_eq_none` that it takes nothing else for a list of them.
-/

namespace Lib

universe u

/-! ## Numerals -/

/-- The number that digits after `acc` stand for. -/
def numeralFrom (radix : Nat) : Nat → Bytes → Option Nat
  | acc, [] => some acc
  | acc, b :: rest => (toDigit radix b).bind fun d => numeralFrom radix (acc * radix + d) rest

/-- Digits, at least one, and nothing else. -/
def numeral (radix : Nat) : Bytes → Option Nat
  | [] => none
  | b :: rest => numeralFrom radix 0 (b :: rest)

theorem le_of_numeralFrom {radix acc n : Nat} {s : Bytes} (hradix : 0 < radix)
    (h : numeralFrom radix acc s = some n) : acc ≤ n := by
  induction s generalizing acc with
  | nil => exact (Option.some.inj h).le
  | cons b rest ih =>
      obtain ⟨d, -, hrest⟩ := Option.bind_eq_some_iff.mp h
      calc acc ≤ acc * radix := Nat.le_mul_of_pos_right acc hradix
        _ ≤ acc * radix + d := Nat.le_add_right ..
        _ ≤ n := ih hrest

theorem digitsFrom_of_numeralFrom {radix width acc n : Nat} {s : Bytes} (hradix : 0 < radix)
    (h : numeralFrom radix acc s = some n) (hacc : acc < 2 ^ width) :
    digitsFrom radix width acc s = if n < 2 ^ width then some n else none := by
  induction s generalizing acc with
  | nil =>
      obtain rfl := Option.some.inj h
      rw [if_pos hacc]
      rfl
  | cons b rest ih =>
      obtain ⟨d, hd, hrest⟩ := Option.bind_eq_some_iff.mp h
      rw [digitsFrom, hd]
      show (if _ then _ else _) = _
      split
      · rename_i hnext
        exact ih hrest hnext
      · rename_i hnext
        have hle := le_of_numeralFrom hradix hrest
        rw [if_neg (by omega)]

theorem lt_of_digitsFrom {radix width acc n : Nat} {s : Bytes} (hacc : acc < 2 ^ width)
    (h : digitsFrom radix width acc s = some n) : n < 2 ^ width := by
  induction s generalizing acc with
  | nil =>
      obtain rfl := Option.some.inj h
      exact hacc
  | cons b rest ih =>
      obtain ⟨d, -, hrest⟩ := Option.bind_eq_some_iff.mp h
      dsimp only at hrest
      split at hrest
      · rename_i hnext
        exact ih hnext hrest
      · cases hrest

/-- What is parsed fits. -/
theorem lt_of_fromStrRadix {radix width n : Nat} {s : Bytes}
    (h : fromStrRadix radix width s = some n) : n < 2 ^ width := by
  rw [fromStrRadix.eq_def] at h
  split at h
  · cases h
  · split at h
    · cases h
    · exact lt_of_digitsFrom (Nat.two_pow_pos width) h
  · split at h
    · exact lt_of_digitsFrom (Nat.two_pow_pos width) h
    · exact lt_of_digitsFrom (Nat.two_pow_pos width) h

theorem toDigit_of_numeralFrom {radix acc n : Nat} {s : Bytes}
    (h : numeralFrom radix acc s = some n) : ∀ b ∈ s, (toDigit radix b).isSome = true := by
  induction s generalizing acc with
  | nil =>
      intro b hb
      cases hb
  | cons c rest ih =>
      obtain ⟨d, hd, hrest⟩ := Option.bind_eq_some_iff.mp h
      intro b hb
      rcases List.mem_cons.mp hb with rfl | hb
      · rw [hd]
        rfl
      · exact ih hrest b hb

/-- What is a number is parsed as that number, if it fits. -/
theorem fromStrRadix_of_numeral {radix width n : Nat} {s : Bytes} (hradix : 0 < radix)
    (hplus : toDigit radix 0x2B = none) (h : numeral radix s = some n) :
    fromStrRadix radix width s = if n < 2 ^ width then some n else none := by
  cases s with
  | nil => cases h
  | cons b rest =>
      have hb : b ≠ 0x2B := by
        rintro rfl
        have hsome := toDigit_of_numeralFrom h 0x2B List.mem_cons_self
        rw [hplus] at hsome
        cases hsome
      have hdigits := digitsFrom_of_numeralFrom hradix h (Nat.two_pow_pos width)
      cases rest with
      | nil => rw [fromStrRadix, if_neg hb, hdigits]
      | cons c rest =>
          rw [fromStrRadix, if_neg hb, hdigits]
          exact fun h => nomatch h

theorem digitsFrom_eq_none {radix width acc : Nat} {s : Bytes} {c : UInt8}
    (hc : toDigit radix c = none) (hmem : c ∈ s) : digitsFrom radix width acc s = none := by
  induction s generalizing acc with
  | nil => cases hmem
  | cons b rest ih =>
      rw [digitsFrom]
      rcases List.mem_cons.mp hmem with rfl | hmem
      · rw [hc]
        rfl
      · cases toDigit radix b with
        | none => rfl
        | some d =>
            show (if _ then _ else _) = _
            split
            · exact ih hmem
            · rfl

/-- A byte that is neither a digit nor the sign spoils the number. -/
theorem fromStrRadix_eq_none {radix width : Nat} {s : Bytes} {c : UInt8}
    (hc : toDigit radix c = none) (hplus : c ≠ 0x2B) (hmem : c ∈ s) :
    fromStrRadix radix width s = none := by
  cases s with
  | nil => cases hmem
  | cons b rest =>
      cases rest with
      | nil =>
          rw [fromStrRadix]
          split
          · rfl
          · exact digitsFrom_eq_none hc hmem
      | cons d rest =>
          rw [fromStrRadix]
          · split
            · rename_i hb
              refine digitsFrom_eq_none hc ?_
              rcases List.mem_cons.mp hmem with rfl | hmem
              · exact absurd hb hplus
              · exact hmem
            · exact digitsFrom_eq_none hc hmem
          · exact fun h => nomatch h

/-! ## Optional white space -/

/-- The white space that may stand around a header's value. -/
def isOws (b : UInt8) : Bool := b == 0x20 || b == 0x09

def trimOws (s : Bytes) : Bytes := (s.dropWhile isOws).rdropWhile isOws

theorem exists_trimOws (s : Bytes) :
    ∃ w w', s = w ++ trimOws s ++ w' ∧ (∀ b ∈ w, isOws b = true) ∧ ∀ b ∈ w', isOws b = true := by
  refine ⟨s.takeWhile isOws, (s.dropWhile isOws).rtakeWhile isOws, ?_,
    fun b hb => List.mem_takeWhile_imp hb, fun b hb => List.mem_rtakeWhile_imp hb⟩
  rw [trimOws, List.append_assoc, List.rdropWhile_append_rtakeWhile,
    List.takeWhile_append_dropWhile]

section
variable {seqs : List Bytes}

theorem trimFrom_ows (h : ∀ b rest, isOws b = true →
      seqs.find? (·.isPrefixOf (b :: rest)) = some [b]) {w : Bytes}
    (hw : ∀ b ∈ w, isOws b = true) (s : Bytes) : trimFrom seqs 0 (w ++ s) = trimFrom seqs 0 s := by
  induction w with
  | nil => rfl
  | cons b w ih =>
      rw [List.cons_append, trimFrom, h b _ (hw b List.mem_cons_self)]
      exact ih fun b hb => hw b (List.mem_cons_of_mem _ hb)

/-- Nothing is trimmed before a byte that starts no white space. -/
theorem trimFrom_of_head {b : UInt8} (h : ∀ w ∈ seqs, w.head? ≠ none ∧ w.head? ≠ some b)
    (rest : Bytes) : trimFrom seqs 0 (b :: rest) = b :: rest := by
  have hnone : seqs.find? (·.isPrefixOf (b :: rest)) = none := by
    refine List.find?_eq_none.mpr fun w hw hpre => ?_
    obtain ⟨hne, hb⟩ := h w hw
    obtain ⟨t, ht⟩ := List.isPrefixOf_iff_prefix.mp hpre
    cases w with
    | nil => exact hne rfl
    | cons c w => exact hb (congrArg some (List.cons.inj ht).1)
  rw [trimFrom, hnone]

/-- Trimming drops white space only. -/
theorem mem_trimFrom {c : UInt8} (h : ∀ w ∈ seqs, w ≠ [] ∧ c ∉ w) {k : Nat} {s : Bytes}
    (hmem : c ∈ s.drop k) : c ∈ trimFrom seqs k s := by
  induction s generalizing k with
  | nil =>
      rw [List.drop_nil] at hmem
      cases hmem
  | cons b rest ih =>
      cases k with
      | succ k => exact ih hmem
      | zero =>
          rw [trimFrom]
          split
          · rename_i w hfind
            obtain ⟨hne, hc⟩ := h w (List.mem_of_find?_eq_some hfind)
            have hpre := List.find?_some hfind
            obtain ⟨t, ht⟩ := List.isPrefixOf_iff_prefix.mp hpre
            refine ih ?_
            cases w with
            | nil => exact absurd rfl hne
            | cons d w =>
                obtain ⟨rfl, rfl⟩ := List.cons.inj ht
                rw [List.length_cons, Nat.add_sub_cancel]
                show c ∈ List.drop w.length (w ++ t)
                rw [List.drop_left]
                have hmem : c ∈ (d :: w) ++ t := hmem
                exact (List.mem_append.mp hmem).resolve_left hc
          · exact hmem

end

theorem find?_whiteSpace (b : UInt8) (rest : Bytes) (h : isOws b = true) :
    whiteSpace.find? (·.isPrefixOf (b :: rest)) = some [b]
      ∧ (whiteSpace.map List.reverse).find? (·.isPrefixOf (b :: rest)) = some [b] := by
  rw [isOws, Bool.or_eq_true, beq_iff_eq, beq_iff_eq] at h
  rcases h with rfl | rfl
  · exact ⟨rfl, rfl⟩
  · exact ⟨rfl, rfl⟩

/-- A numeral, and white space that `str::trim` takes off as well. -/
theorem trim_of_numeral {s : Bytes} {n : Nat} (h : numeral 10 (trimOws s) = some n) :
    trim s = trimOws s := by
  obtain ⟨w, w', hs, hw, hw'⟩ := exists_trimOws s
  generalize htrim : trimOws s = t at h hs
  have hdigit : ∀ b ∈ t, (toDigit 10 b).isSome = true := by
    cases t with
    | nil => cases h
    | cons b t => exact toDigit_of_numeralFrom h
  have hne : t ≠ [] := by
    rintro rfl
    cases h
  -- no white space starts or ends with a digit
  have hhead : ∀ b ∈ t, (∀ w ∈ whiteSpace, w.head? ≠ none ∧ w.head? ≠ some b)
      ∧ ∀ w ∈ whiteSpace.map List.reverse, w.head? ≠ none ∧ w.head? ≠ some b := by
    have hws : ∀ w ∈ whiteSpace ++ whiteSpace.map List.reverse,
        (w.head?.bind (toDigit 10)) = none ∧ w.head? ≠ none := by decide
    intro b hb
    have hb := hdigit b hb
    have hall : ∀ w ∈ whiteSpace ++ whiteSpace.map List.reverse,
        w.head? ≠ none ∧ w.head? ≠ some b := by
      intro w hmem
      obtain ⟨hnone, hne⟩ := hws w hmem
      refine ⟨hne, fun heq => ?_⟩
      rw [heq] at hnone
      rw [show toDigit 10 b = none from hnone] at hb
      cases hb
    exact ⟨fun w hw => hall w (List.mem_append_left _ hw),
      fun w hw => hall w (List.mem_append_right _ hw)⟩
  have hfront : trimFrom whiteSpace 0 s = t ++ w' := by
    rw [hs, List.append_assoc, trimFrom_ows (fun b rest h => (find?_whiteSpace b rest h).1) hw]
    cases t with
    | nil => exact absurd rfl hne
    | cons b t => exact trimFrom_of_head (hhead b List.mem_cons_self).1 _
  have hback : trimFrom (whiteSpace.map List.reverse) 0 (t ++ w').reverse = t.reverse := by
    rw [List.reverse_append, trimFrom_ows (fun b rest h => (find?_whiteSpace b rest h).2)
      (fun b hb => hw' b (List.mem_reverse.mp hb))]
    cases hrev : t.reverse with
    | nil => exact absurd (List.reverse_eq_nil_iff.mp hrev) hne
    | cons b t' =>
        refine trimFrom_of_head (hhead b ?_).2 _
        rw [← List.mem_reverse, hrev]
        exact List.mem_cons_self
  rw [trim, hfront, hback, List.reverse_reverse]

/-- A comma is no white space. -/
theorem comma_mem_trim {s : Bytes} (h : 0x2C ∈ s) : 0x2C ∈ trim s := by
  have hws : ∀ w ∈ whiteSpace ++ whiteSpace.map List.reverse, w ≠ [] ∧ 0x2C ∉ w := by decide
  rw [trim, List.mem_reverse]
  refine mem_trimFrom (k := 0) (fun w hw => hws w (List.mem_append_right _ hw)) ?_
  rw [List.drop_zero, List.mem_reverse]
  exact mem_trimFrom (k := 0) (fun w hw => hws w (List.mem_append_left _ hw)) h

/-! ## Framing headers -/

/-- The header lines that have a colon, as lowercased name and value. -/
def fieldsOf (lines : List Bytes) : List (Bytes × Bytes) :=
  (lines.filterMap (splitOnce 0x3A)).map fun kv => (toAsciiLowercase kv.1, kv.2)

/-- What the headers of one name say, in order. -/
def valuesOf (name : Bytes) (fields : List (Bytes × Bytes)) : List Bytes :=
  (fields.filter fun kv => decide (kv.1 = name)).map Prod.snd

theorem valuesOf_cons (name field value : Bytes) (fields : List (Bytes × Bytes)) :
    valuesOf name ((field, value) :: fields)
      = if field = name then value :: valuesOf name fields else valuesOf name fields := by
  rw [valuesOf, List.filter_cons]
  by_cases h : field = name
  · rw [if_pos (decide_eq_true h), if_pos h]
    rfl
  · rw [if_neg (by simpa using h), if_neg h]
    rfl

/-- The elements of a comma-separated value. -/
def listItems (value : Bytes) : List Bytes := (split [0x2C] value).map trimOws

theorem split_of_not_mem {c : UInt8} {s : Bytes} (h : c ∉ s) : split [c] s = [s] := by
  rw [split]
  induction s with
  | nil => rfl
  | cons b rest ih =>
      have hb : ¬ [c].isPrefixOf (b :: rest) = true := by
        intro hpre
        obtain ⟨t, ht⟩ := List.isPrefixOf_iff_prefix.mp hpre
        exact h (List.mem_cons.mpr (Or.inl (List.cons.inj ht).1))
      rw [splitFrom, if_neg hb, ih fun hmem => h (List.mem_cons_of_mem _ hmem)]
      rfl

inductive Framing where
  | length (n : Nat)
  | chunked
  | faulty
deriving DecidableEq

/-- One number, as often as it is said. -/
def lengthFraming (values : List Bytes) : Framing :=
  match values.flatMap listItems with
  | [] => .length 0
  | item :: items =>
      match numeral 10 item with
      | some n => if items.all fun i => decide (numeral 10 i = some n) then .length n else .faulty
      | none => .faulty

def literal (s : String) : Bytes := s.toList.map fun c => UInt8.ofNat c.toNat

/-- What the headers say of the body. -/
def fieldsFraming (fields : List (Bytes × Bytes)) : Framing :=
  match valuesOf (literal "transfer-encoding") fields,
    valuesOf (literal "content-length") fields with
  | [], lengths => lengthFraming lengths
  | codings, [] =>
      if (codings.flatMap listItems).getLast?.map toAsciiLowercase = some (literal "chunked") then
        .chunked
      else .faulty
  | _, _ => .faulty

/-- The bytes of a token. -/
def isTchar (b : UInt8) : Bool :=
  (0x30 ≤ b && b ≤ 0x39) || (0x41 ≤ b && b ≤ 0x5A) || (0x61 ≤ b && b ≤ 0x7A)
    || [0x21, 0x23, 0x24, 0x25, 0x26, 0x27, 0x2A, 0x2B, 0x2D, 0x2E, 0x5E, 0x5F, 0x60, 0x7C,
      0x7E].contains b

/-- A token, a colon, and a value without a line end or a null. There is no
white space before the colon, and a line that goes on with the one before it
is none. -/
def isFieldLine (line : Bytes) : Bool :=
  match splitOnce 0x3A line with
  | none => false
  | some (name, value) =>
      !name.isEmpty && name.all isTchar && value.all fun b => b != 0x0D && b != 0x0A && b != 0x00

/-- How a message with these header lines is framed. -/
def framing (lines : List Bytes) : Framing :=
  if lines.all isFieldLine = true then fieldsFraming (fieldsOf lines) else .faulty

-- the white space would hide the length, and so would the continuation
example : isFieldLine (literal "Content-Length: 5") = true
    ∧ isFieldLine (literal "Content-Length : 5") = false
    ∧ isFieldLine (literal "\tname: 5") = false := by decide

theorem numeral_of_lengthFraming {values : List Bytes} {n : Nat}
    (h : lengthFraming values = .length n) :
    (values.flatMap listItems = [] ∧ n = 0)
      ∨ ∀ item ∈ values.flatMap listItems, numeral 10 item = some n := by
  rw [lengthFraming] at h
  split at h
  · rename_i hnil
    exact Or.inl ⟨hnil, (Framing.length.inj h).symm⟩
  · rename_i item items hitems
    split at h
    · rename_i m hm
      split at h
      · rename_i hall
        obtain rfl := Framing.length.inj h
        refine Or.inr fun i hi => ?_
        rw [hitems] at hi
        rcases List.mem_cons.mp hi with rfl | hi
        · exact hm
        · exact of_decide_eq_true (List.all_eq_true.mp hall i hi)
      · cases h
    · cases h

theorem values_of_framing {fields : List (Bytes × Bytes)} {n : Nat}
    (h : fieldsFraming fields = .length n) :
    lengthFraming (valuesOf (literal "content-length") fields) = .length n := by
  rw [fieldsFraming] at h
  split at h
  · exact h
  · split at h <;> cases h
  · cases h

theorem not_length_of_framing_chunked {fields : List (Bytes × Bytes)}
    (h : fieldsFraming fields = .chunked) : valuesOf (literal "content-length") fields = [] := by
  rw [fieldsFraming] at h
  split at h
  · rw [lengthFraming] at h
    split at h
    · cases h
    · split at h
      · split at h <;> cases h
      · cases h
  · assumption
  · cases h

/-- A value that is no list is a numeral of the length. -/
theorem numeral_of_value {values : List Bytes} {value : Bytes} {n : Nat}
    (h : lengthFraming values = .length n) (hmem : value ∈ values) (hcomma : 0x2C ∉ value) :
    numeral 10 (trimOws value) = some n := by
  have hitem : trimOws value ∈ values.flatMap listItems := by
    refine List.mem_flatMap.mpr ⟨value, hmem, ?_⟩
    rw [listItems, split_of_not_mem hcomma]
    exact List.mem_singleton_self _
  rcases numeral_of_lengthFraming h with ⟨hnil, -⟩ | hall
  · rw [hnil] at hitem
    cases hitem
  · exact hall _ hitem

/-- Whatever of the values can be parsed is the number they all are. -/
theorem eq_of_lengthFraming {values : List Bytes} {value : Bytes} {n parsed : Nat}
    (h : lengthFraming values = .length n) (hmem : value ∈ values)
    (hparse : fromStrRadix 10 64 (trim value) = some parsed) : parsed = n := by
  have hcomma : 0x2C ∉ value := by
    intro hcomma
    rw [fromStrRadix_eq_none (by decide) (by decide) (comma_mem_trim hcomma)] at hparse
    cases hparse
  have hnumeral := numeral_of_value h hmem hcomma
  rw [trim_of_numeral hnumeral,
    fromStrRadix_of_numeral (by decide) (by decide) hnumeral] at hparse
  split at hparse
  · exact (Option.some.inj hparse).symm
  · cases hparse

/-! ## Where a message ends -/

section
variable {α : Type u} [DecidableEq α]

/-- `str::split_once` with a separator of any length. -/
def splitOnceAt (sep : List α) : List α → Option (List α × List α)
  | [] => none
  | a :: rest =>
      if sep.isPrefixOf (a :: rest) then some ([], (a :: rest).drop sep.length)
      else (splitOnceAt sep rest).map fun kv => (a :: kv.1, kv.2)

theorem splitOnceAt_eq_some {sep l k v : List α} (h : splitOnceAt sep l = some (k, v)) :
    l = k ++ sep ++ v := by
  induction l generalizing k with
  | nil => cases h
  | cons a rest ih =>
      rw [splitOnceAt] at h
      split at h
      · rename_i hpre
        obtain ⟨rfl, rfl⟩ := Prod.mk.inj (Option.some.inj h)
        obtain ⟨t, ht⟩ := List.isPrefixOf_iff_prefix.mp hpre
        rw [← ht, List.drop_left]
        rfl
      · obtain ⟨⟨k', v'⟩, hkv, heq⟩ := Option.map_eq_some_iff.mp h
        obtain ⟨rfl, rfl⟩ := Prod.mk.inj heq
        rw [ih hkv]
        rfl

end

/-- A line end. -/
def lineEnd : Bytes := [0x0D, 0x0A]

/-- The size that starts a chunk; an extension may follow. -/
def chunkSize (line : Bytes) : Option Nat :=
  numeral 16 ((line.takeWhile fun b => b != 0x3B).rdropWhile isOws)

/-- What follows the trailer, which ends with an empty line. Each round
takes a line. -/
def afterTrailer : (fuel : Nat) → Bytes → Option Bytes
  | 0, _ => none
  | fuel + 1, s =>
      match splitOnceAt lineEnd s with
      | none => none
      | some ([], rest) => some rest
      | some (_ :: _, rest) => afterTrailer fuel rest

def afterChunked : (fuel : Nat) → Bytes → Option Bytes
  | 0, _ => none
  | fuel + 1, s =>
      match splitOnceAt lineEnd s with
      | none => none
      | some (line, rest) =>
          match chunkSize line with
          | none => none
          | some 0 => afterTrailer fuel rest
          | some size =>
              if size ≤ rest.length ∧ lineEnd.isPrefixOf (rest.drop size) then
                afterChunked fuel (rest.drop (size + 2))
              else none

/-- What follows the body at the front of a stream, if all of it is there. -/
def afterBody : Framing → Bytes → Option Bytes
  | .length n, s => if n ≤ s.length then some (s.drop n) else none
  | .chunked, s => afterChunked s.length s
  | .faulty, _ => none

/-- What follows the message at the front of a stream. -/
def afterMessage (s : Bytes) : Option Bytes :=
  match splitOnceAt (lineEnd ++ lineEnd) s with
  | none => none
  | some (head, rest) => afterBody (framing (split lineEnd head).tail) rest

theorem length_splitOnceAt {s line rest : Bytes} (h : splitOnceAt lineEnd s = some (line, rest)) :
    rest.length < s.length := by
  rw [splitOnceAt_eq_some h]
  simp only [List.length_append]
  show _ < _ + 2 + _
  omega

theorem length_afterTrailer {fuel : Nat} {s left : Bytes} (h : afterTrailer fuel s = some left) :
    left.length < s.length := by
  induction fuel generalizing s with
  | zero => cases h
  | succ fuel ih =>
      rw [afterTrailer] at h
      split at h
      · cases h
      · rename_i hline
        obtain rfl := Option.some.inj h
        exact length_splitOnceAt hline
      · rename_i hline
        exact (ih h).trans (length_splitOnceAt hline)

/-- A chunked body is not empty. -/
theorem length_afterChunked {fuel : Nat} {s left : Bytes} (h : afterChunked fuel s = some left) :
    left.length < s.length := by
  induction fuel generalizing s with
  | zero => cases h
  | succ fuel ih =>
      rw [afterChunked] at h
      split at h
      · cases h
      rename_i line rest hline
      have hrest := length_splitOnceAt hline
      split at h
      · cases h
      · exact (length_afterTrailer h).trans hrest
      · split at h
        · have hlt := ih h
          rw [List.length_drop] at hlt
          omega
        · cases h

/-! ## Responses -/

/-- The version, a code of three digits, and a reason, which may be empty. -/
def statusCode (first : Bytes) : Option Nat :=
  if (literal "HTTP/1.1 ").isPrefixOf first ∧ first[12]? = some 0x20 then
    numeral 10 ((first.drop 9).take 3)
  else none

/-- A name without white space, a colon and a value. -/
def IsField (line : Bytes) : Prop :=
  ∃ name value, splitOnce 0x3A line = some (name, value) ∧ name ≠ [] ∧ ∀ b ∈ name, isOws b = false

instance (line : Bytes) : Decidable (IsField line) :=
  match h : splitOnce 0x3A line with
  | none => isFalse fun ⟨_, _, hsplit, _⟩ => nomatch h.symm.trans hsplit
  | some (name, value) =>
      have : Decidable (∀ b ∈ name, isOws b = false) := List.decidableBAll _ name
      decidable_of_iff (name ≠ [] ∧ ∀ b ∈ name, isOws b = false)
        ⟨fun hname => ⟨name, value, h, hname⟩, fun ⟨name', value', hsplit, hname⟩ => by
          obtain ⟨rfl, rfl⟩ := Prod.mk.inj (Option.some.inj (h.symm.trans hsplit))
          exact hname⟩

inductive ResponseBody where
  | absent
  | length (n : Nat)
  | chunked
  | untilClose
  | faulty
deriving DecidableEq

/-- What delimits the body of a response to `method`. -/
def responseBody (method : Bytes) (status : Nat) (fields : List (Bytes × Bytes)) : ResponseBody :=
  if method = literal "HEAD" ∨ status / 100 = 1 ∨ status = 204 ∨ status = 304
      ∨ (method = literal "CONNECT" ∧ status / 100 = 2) then .absent
  else
    match valuesOf (literal "transfer-encoding") fields,
      valuesOf (literal "content-length") fields with
    | [], [] => .untilClose
    | [], lengths =>
        match lengthFraming lengths with
        | .length n => .length n
        | _ => .faulty
    | codings, [] =>
        if (codings.flatMap listItems).getLast?.map toAsciiLowercase = some (literal "chunked") then
          .chunked
        else .untilClose
    | _, _ => .faulty

/-- The body is all there, and nothing follows it. -/
def ResponseBody.Ends : ResponseBody → Bytes → Prop
  | absent, rest => rest = []
  | length n, rest => rest.length = n
  | chunked, rest => afterChunked rest.length rest = some []
  | untilClose, _ => True
  | faulty, _ => False

instance : ∀ (body : ResponseBody) (rest : Bytes), Decidable (body.Ends rest)
  | .absent, rest => inferInstanceAs (Decidable (rest = []))
  | .length n, rest => inferInstanceAs (Decidable (rest.length = n))
  | .chunked, rest => inferInstanceAs (Decidable (afterChunked rest.length rest = some []))
  | .untilClose, _ => isTrue trivial
  | .faulty, _ => isFalse id

/-- A whole response to `method`, and how its body is delimited. -/
structure IsResponse (method s : Bytes) (body : ResponseBody) (head rest : Bytes) : Prop where
  blank : splitOnceAt (lineEnd ++ lineEnd) s = some (head, rest)
  fields : ∀ line ∈ (split lineEnd head).tail, IsField line
  status : ∃ code, statusCode ((split lineEnd head).headD []) = some code
    ∧ responseBody method code (fieldsOf (split lineEnd head).tail) = body
  ends : body.Ends rest

instance (method s : Bytes) (body : ResponseBody) (head rest : Bytes) :
    Decidable (IsResponse method s body head rest) :=
  decidable_of_iff
    (splitOnceAt (lineEnd ++ lineEnd) s = some (head, rest)
      ∧ (∀ line ∈ (split lineEnd head).tail, IsField line)
      ∧ (statusCode ((split lineEnd head).headD [])).map
          (responseBody method · (fieldsOf (split lineEnd head).tail)) = some body
      ∧ body.Ends rest)
    ⟨fun ⟨hblank, hfields, hstatus, hends⟩ =>
      ⟨hblank, hfields, Option.map_eq_some_iff.mp hstatus, hends⟩,
    fun h => ⟨h.blank, h.fields, Option.map_eq_some_iff.mpr h.status, h.ends⟩⟩

/-- A length that can be parsed is that of the body, unless there is no body
at all. -/
theorem IsResponse.absent_or_length {method s head rest value : Bytes} {body : ResponseBody}
    {parsed : Nat} (h : IsResponse method s body head rest)
    (hmem : value ∈ valuesOf (literal "content-length") (fieldsOf (split lineEnd head).tail))
    (hparse : fromStrRadix 10 64 (trim value) = some parsed) :
    rest = [] ∨ rest.length = parsed := by
  obtain ⟨code, -, hbody⟩ := h.status
  have hends := h.ends
  have hne := List.ne_nil_of_mem hmem
  rw [← hbody, responseBody] at hends
  split at hends
  · exact Or.inl hends
  split at hends
  · exact absurd (by assumption) hne
  · split at hends
    · rename_i n hframing
      rw [eq_of_lengthFraming hframing hmem hparse]
      exact Or.inr hends
    · cases hends
  · exact absurd (by assumption) hne
  · cases hends

end Lib
