import Mathlib.Data.List.Chain
import Kanrin.Lib.Fixed

/-!
# Text

A `str` is its UTF-8 bytes. Separators that are ASCII cannot occur inside
a longer encoding, so splitting, searching and comparing are operations on
bytes, and only `trim` has to know how the white space above ASCII is
encoded.

`intercalate_split` puts a split text together again; it is what bounds
the pieces by the whole (`length_le_of_mem_split`).
-/

namespace Lib

universe u

/-- `str::from_utf8` succeeds. -/
def isUtf8 (b : Bytes) : Bool := ByteArray.validateUTF8 ⟨b.toArray⟩

/-! ## Lossy decoding -/

/-- Whether the second byte may follow the first of a character of three
bytes or more. -/
def mayFollow (b0 b1 : UInt8) : Bool :=
  (b0 == 0xE0 && (0xA0 ≤ b1 && b1 ≤ 0xBF)) || (b0 == 0xED && (0x80 ≤ b1 && b1 ≤ 0x9F))
    || (((0xE1 ≤ b0 && b0 ≤ 0xEC) || b0 == 0xEE || b0 == 0xEF) && (0x80 ≤ b1 && b1 ≤ 0xBF))
    || (b0 == 0xF0 && (0x90 ≤ b1 && b1 ≤ 0xBF)) || (b0 == 0xF4 && (0x80 ≤ b1 && b1 ≤ 0x8F))
    || ((0xF1 ≤ b0 && b0 ≤ 0xF3) && (0x80 ≤ b1 && b1 ≤ 0xBF))

/-- How many bytes one replacement character stands for, where no
character starts: the longest beginning of a character there is. -/
def invalidLength : Bytes → Nat
  | b0 :: b1 :: rest =>
      if mayFollow b0 b1 then
        match rest with
        | b2 :: _ => if 0xF0 ≤ b0 ∧ 0x80 ≤ b2 ∧ b2 ≤ 0xBF then 3 else 2
        | [] => 2
      else 1
  | _ => 1

/-- The characters, and one U+FFFD for every invalid sequence. The number
is how many bytes are still to be skipped. -/
def lossyFrom : Nat → Bytes → List Char
  | _, [] => []
  | k + 1, _ :: rest => lossyFrom k rest
  | 0, b :: rest =>
      match (b :: rest).toByteArray.utf8DecodeChar? 0 with
      | some c => c :: lossyFrom (c.utf8Size - 1) rest
      | none => Char.ofNat 0xFFFD :: lossyFrom (invalidLength (b :: rest) - 1) rest

/-- `String::from_utf8_lossy`. -/
def fromUtf8Lossy (b : Bytes) : String := String.ofList (lossyFrom 0 b)

theorem lossyFrom_append (s t : Bytes) : lossyFrom s.length (s ++ t) = lossyFrom 0 t := by
  induction s with
  | nil => rfl
  | cons b s ih => exact ih

/-- One character at the front is read as such. -/
theorem lossyFrom_encodeChar_append (c : Char) (t : Bytes) :
    lossyFrom 0 (String.utf8EncodeChar c ++ t) = c :: lossyFrom 0 t := by
  have hlen := String.length_utf8EncodeChar c
  have hdecode : (String.utf8EncodeChar c ++ t).toByteArray.utf8DecodeChar? 0 = some c := by
    rw [List.toByteArray_append]
    exact ByteArray.utf8DecodeChar?_utf8EncodeChar_append
  cases hc : String.utf8EncodeChar c with
  | nil =>
      rw [hc] at hlen
      exact absurd c.utf8Size_pos (by rw [← hlen]; exact Nat.lt_irrefl 0)
  | cons b bs =>
      rw [hc] at hlen hdecode
      rw [List.cons_append] at hdecode ⊢
      have hskip : c.utf8Size - 1 = bs.length := by
        rw [← hlen]
        rfl
      rw [lossyFrom, hdecode]
      show c :: lossyFrom (c.utf8Size - 1) (bs ++ _) = _
      rw [hskip, lossyFrom_append]

theorem lossyFrom_encode (cs : List Char) :
    lossyFrom 0 (cs.flatMap String.utf8EncodeChar) = cs := by
  induction cs with
  | nil => rfl
  | cons c cs ih => rw [List.flatMap_cons, lossyFrom_encodeChar_append, ih]

theorem length_lossyFrom_le (k : Nat) (s : Bytes) : (lossyFrom k s).length ≤ s.length := by
  induction s generalizing k with
  | nil => simp [lossyFrom]
  | cons b rest ih =>
      cases k with
      | succ k => exact Nat.le_succ_of_le (ih k)
      | zero =>
          rw [lossyFrom]
          split
          · exact Nat.succ_le_succ (ih _)
          · exact Nat.succ_le_succ (ih _)

/-- `str::as_bytes`. -/
def asBytes (s : String) : Bytes := s.toList.flatMap String.utf8EncodeChar

/-- Nothing is lost of a text. -/
theorem fromUtf8Lossy_asBytes (s : String) : fromUtf8Lossy (asBytes s) = s := by
  rw [fromUtf8Lossy, asBytes, lossyFrom_encode, String.ofList_toList]

/-- A text is the encoding of its characters. -/
theorem isUtf8_iff {b : Bytes} :
    isUtf8 b = true ↔ ∃ cs : List Char, b = cs.flatMap String.utf8EncodeChar := by
  have hbytes : (⟨b.toArray⟩ : ByteArray) = b.toByteArray := by
    apply ByteArray.ext
    simp
  rw [isUtf8, ByteArray.validateUTF8_eq_true_iff, hbytes]
  constructor
  · rintro ⟨cs, hcs⟩
    exact ⟨cs, List.toByteArray_inj.mp hcs⟩
  · rintro ⟨cs, rfl⟩
    exact ⟨cs, rfl⟩

theorem isUtf8_append {b c : Bytes} (hb : isUtf8 b = true) (hc : isUtf8 c = true) :
    isUtf8 (b ++ c) = true := by
  obtain ⟨cs, rfl⟩ := isUtf8_iff.mp hb
  obtain ⟨ds, rfl⟩ := isUtf8_iff.mp hc
  exact isUtf8_iff.mpr ⟨cs ++ ds, List.flatMap_append.symm⟩

theorem isUtf8_asBytes (s : String) : isUtf8 (asBytes s) = true := isUtf8_iff.mpr ⟨s.toList, rfl⟩

theorem utf8EncodeChar_ascii {b : UInt8} (h : b < 0x80) :
    String.utf8EncodeChar (Char.ofNat b.toNat) = [b] := by
  have hall : ∀ n < 128, String.utf8EncodeChar (Char.ofNat n) = [UInt8.ofNat n] := by decide
  have hb := hall b.toNat h
  rwa [UInt8.ofNat_toNat] at hb

theorem isUtf8_of_ascii {b : Bytes} (h : ∀ a ∈ b, a < 0x80) : isUtf8 b = true := by
  refine isUtf8_iff.mpr ⟨b.map fun a => Char.ofNat a.toNat, ?_⟩
  induction b with
  | nil => rfl
  | cons a b ih =>
      obtain ⟨ha, hb⟩ := List.forall_mem_cons.mp h
      rw [List.map_cons, List.flatMap_cons, utf8EncodeChar_ascii ha, ← ih hb]
      rfl

/-- Of the first `k` bytes of a text, the characters that are complete are
read as such, and at most three bytes are left of the next. -/
theorem lossyFrom_take (cs : List Char) (k : Nat) :
    ∃ j tail, lossyFrom 0 ((cs.flatMap String.utf8EncodeChar).take k) = cs.take j ++ tail
      ∧ tail.length ≤ 3 ∧ ((cs.take j).flatMap String.utf8EncodeChar).length ≤ k := by
  induction cs generalizing k with
  | nil => exact ⟨0, [], by simp [lossyFrom], by simp, by simp⟩
  | cons c cs ih =>
      have hlen := String.length_utf8EncodeChar c
      rw [List.flatMap_cons, List.take_append, hlen]
      by_cases hk : c.utf8Size ≤ k
      · obtain ⟨j, tail, hread, htail, hle⟩ := ih (k - c.utf8Size)
        refine ⟨j + 1, tail, ?_, htail, ?_⟩
        · rw [List.take_of_length_le (by omega), lossyFrom_encodeChar_append, hread]
          rfl
        · rw [List.take_succ_cons, List.flatMap_cons, List.length_append, hlen]
          omega
      · have hsize := c.utf8Size_le_four
        have hnone : k - c.utf8Size = 0 := by omega
        refine ⟨0, _, (List.nil_append _).symm, ?_, Nat.zero_le k⟩
        refine (length_lossyFrom_le _ _).trans ?_
        rw [hnone, List.take_zero, List.append_nil, List.length_take]
        omega

theorem length_encode_le (cs : List Char) :
    (cs.flatMap String.utf8EncodeChar).length ≤ 4 * cs.length := by
  induction cs with
  | nil => simp
  | cons c cs ih =>
      have hsize := c.utf8Size_le_four
      rw [List.flatMap_cons, List.length_append, String.length_utf8EncodeChar, List.length_cons]
      omega

/-- A text is not read from its first bytes when more than a few are cut
off. -/
theorem length_le_of_fromUtf8Lossy_take {s : String} {k : Nat}
    (h : fromUtf8Lossy ((asBytes s).take k) = s) : (asBytes s).length ≤ k + 12 := by
  obtain ⟨j, tail, hread, htail, hle⟩ := lossyFrom_take s.toList k
  have hs : s.toList = s.toList.take j ++ tail := by
    calc s.toList = (fromUtf8Lossy ((asBytes s).take k)).toList := by rw [h]
      _ = lossyFrom 0 ((asBytes s).take k) := String.toList_ofList
      _ = s.toList.take j ++ tail := hread
  have hbytes := length_encode_le tail
  have hsplit := congrArg (fun cs => (cs.flatMap String.utf8EncodeChar).length) hs
  simp only [List.flatMap_append, List.length_append] at hsplit
  rw [asBytes, hsplit]
  omega

-- a lone continuation, and a character that breaks off
example : fromUtf8Lossy [0x61, 0xBF, 0xE2, 0x82, 0x62] = "a\uFFFD\uFFFDb" := by decide +kernel

/-! ## Character boundaries -/

/-- A byte `10xxxxxx`, which no character starts with. -/
def isContinuation (b : UInt8) : Bool := 0x80 ≤ b && b < 0xC0

/-- A character is one ASCII byte, or bytes above ASCII of which the first is
no continuation. -/
theorem utf8EncodeChar_eq_cons (c : Char) :
    ∃ b bs, String.utf8EncodeChar c = b :: bs ∧ isContinuation b = false
      ∧ ∀ a ∈ b :: bs, bs = [] ∨ 0x80 ≤ a := by
  have hmax : c.val.toNat < 0x110000 := by
    rcases c.valid with h | h
    · exact Nat.lt_trans h (by decide)
    · exact h.2
  unfold String.utf8EncodeChar
  generalize c.val.toNat = v at hmax
  simp only [isContinuation, UInt8.le_iff_toNat_le, UInt8.lt_iff_toNat_lt]
  split
  · refine ⟨_, _, rfl, ?_, fun _ _ => Or.inl rfl⟩
    simp
    omega
  split
  · refine ⟨_, _, rfl, ?_, ?_⟩
    · simp
      omega
    · simp
      omega
  split
  · refine ⟨_, _, rfl, ?_, ?_⟩
    · simp
      omega
    · simp
      omega
  · refine ⟨_, _, rfl, ?_, ?_⟩
    · simp
      omega
    · simp
      omega

/-- No character goes on behind an ASCII byte. -/
def AsciiEnds (a b : UInt8) : Prop := a < 0x80 → isContinuation b = false

theorem not_continuation_of_head {cs : List Char} {b : UInt8}
    (h : b ∈ (cs.flatMap String.utf8EncodeChar).head?) : isContinuation b = false := by
  cases cs with
  | nil => cases h
  | cons c cs =>
      obtain ⟨b', bs, henc, hfirst, -⟩ := utf8EncodeChar_eq_cons c
      rw [List.flatMap_cons, henc] at h
      obtain rfl := Option.some.inj h
      exact hfirst

theorem isChain_encode (cs : List Char) :
    (cs.flatMap String.utf8EncodeChar).IsChain AsciiEnds := by
  induction cs with
  | nil => exact List.IsChain.nil
  | cons c cs ih =>
      obtain ⟨b, bs, henc, -, habove⟩ := utf8EncodeChar_eq_cons c
      rw [List.flatMap_cons, henc]
      refine List.isChain_append.mpr ⟨?_, ih, fun _ _ _ h _ => not_continuation_of_head h⟩
      cases bs with
      | nil => exact List.isChain_singleton _
      | cons b' bs =>
          refine (List.pairwise_of_forall_mem_list ?_).isChain
          intro x hx y _ hlt
          rcases habove x hx with h | h
          · cases h
          · exact absurd hlt (UInt8.not_lt.mpr h)

/-- `str::is_char_boundary`. -/
def isCharBoundary (s : Bytes) (i : Nat) : Bool :=
  i == 0 || match s[i]? with
    | some b => !isContinuation b
    | none => i == s.length

/-- `str::get` of a range. -/
def strGet (s : Bytes) (start stop : Nat) : Option Bytes :=
  if start ≤ stop && isCharBoundary s start && isCharBoundary s stop then
    some ((s.drop start).take (stop - start))
  else none

/-! ## Splitting -/

section
variable {α : Type u}

theorem intercalate_modifyHead_cons {sep : List α} {a : α} {ps : List (List α)} (h : ps ≠ []) :
    sep.intercalate (ps.modifyHead (List.cons a)) = a :: sep.intercalate ps := by
  cases ps with
  | nil => exact absurd rfl h
  | cons p ps =>
      cases ps with
      | nil => simp
      | cons q ps => simp [List.intercalate_cons_cons]

theorem length_le_intercalate (sep : List α) {p : List α} {ps : List (List α)} (h : p ∈ ps) :
    p.length ≤ (sep.intercalate ps).length := by
  induction ps with
  | nil => cases h
  | cons q ps ih =>
      cases ps with
      | nil =>
          obtain rfl := List.mem_singleton.mp h
          simp
      | cons r ps =>
          rw [List.intercalate_cons_cons]
          simp only [List.length_append]
          rcases List.mem_cons.mp h with rfl | h
          · omega
          · have := ih h
            omega

variable [DecidableEq α]

/-- The pieces between occurrences of `sep`, found left to right. The
number is how much of an occurrence is still to be skipped. -/
def splitFrom (sep : List α) : Nat → List α → List (List α)
  | _, [] => [[]]
  | k + 1, _ :: rest => splitFrom sep k rest
  | 0, a :: rest =>
      if sep.isPrefixOf (a :: rest) then [] :: splitFrom sep (sep.length - 1) rest
      else (splitFrom sep 0 rest).modifyHead (List.cons a)

/-- `str::split`. -/
def split (sep : List α) (l : List α) : List (List α) := splitFrom sep 0 l

theorem splitFrom_ne_nil (sep : List α) (k : Nat) (l : List α) : splitFrom sep k l ≠ [] := by
  induction l generalizing k with
  | nil => simp [splitFrom]
  | cons a rest ih =>
      cases k with
      | succ k => exact ih k
      | zero =>
          rw [splitFrom]
          split
          · simp
          · cases h : splitFrom sep 0 rest with
            | nil => exact absurd h (ih 0)
            | cons p ps => simp

theorem intercalate_splitFrom {sep : List α} (hsep : sep ≠ []) (k : Nat) (l : List α) :
    sep.intercalate (splitFrom sep k l) = l.drop k := by
  induction l generalizing k with
  | nil => simp [splitFrom]
  | cons a rest ih =>
      cases k with
      | succ k => exact ih k
      | zero =>
          rw [splitFrom]
          split
          · rename_i hpre
            obtain ⟨t, ht⟩ := List.isPrefixOf_iff_prefix.mp hpre
            rw [List.intercalate_cons_of_ne_nil (splitFrom_ne_nil _ _ _), ih]
            cases sep with
            | nil => exact absurd rfl hsep
            | cons b sep =>
                obtain ⟨rfl, rfl⟩ := List.cons.inj ht
                simp
          · rw [intercalate_modifyHead_cons (splitFrom_ne_nil _ _ _), ih]
            rfl

/-- The pieces, put together with the separator between them. -/
theorem intercalate_split {sep : List α} (hsep : sep ≠ []) (l : List α) :
    sep.intercalate (split sep l) = l := by
  rw [split, intercalate_splitFrom hsep, List.drop_zero]

theorem length_le_of_mem_split {sep p l : List α} (hsep : sep ≠ []) (h : p ∈ split sep l) :
    p.length ≤ l.length := by
  have := length_le_intercalate sep h
  rwa [intercalate_split hsep] at this

/-- A piece does not contain the separator. -/
theorem not_mem_of_mem_split {c : α} {p l : List α} (h : p ∈ split [c] l) : c ∉ p := by
  unfold split at h
  induction l generalizing p with
  | nil =>
      obtain rfl := List.mem_singleton.mp h
      exact List.not_mem_nil
  | cons a rest ih =>
      rw [splitFrom] at h
      split at h
      · rcases List.mem_cons.mp h with rfl | h
        · exact List.not_mem_nil
        · exact ih h
      · rename_i hpre
        cases hrest : splitFrom [c] 0 rest with
        | nil => exact absurd hrest (splitFrom_ne_nil _ _ _)
        | cons q qs =>
            rw [hrest] at h ih
            rcases List.mem_cons.mp h with rfl | h
            · intro hmem
              rcases List.mem_cons.mp hmem with rfl | hmem
              · exact hpre (by simp)
              · exact ih List.mem_cons_self hmem
            · exact ih (List.mem_cons_of_mem _ h)

/-- Text split at one of its separators, whose two bytes cannot overlap. -/
theorem splitFrom_append {c d : α} (hcd : c ≠ d) {a : List α} (b : List α) {k : Nat}
    (hk : k ≤ a.length) : splitFrom [c, d] k (a ++ c :: d :: b)
      = splitFrom [c, d] k a ++ splitFrom [c, d] 0 b := by
  induction a generalizing k with
  | nil =>
      obtain rfl : k = 0 := Nat.le_zero.mp hk
      have hpre : [c, d].isPrefixOf (c :: d :: b) = true := by simp
      show (if [c, d].isPrefixOf (c :: d :: b) = true then [] :: splitFrom [c, d] 1 (d :: b)
        else _) = _
      rw [if_pos hpre]
      rfl
  | cons x rest ih =>
      cases k with
      | succ k => exact ih (Nat.le_of_succ_le_succ hk)
      | zero =>
          rw [List.cons_append, splitFrom, splitFrom]
          by_cases hpre : [c, d].isPrefixOf (x :: rest) = true
          · have hlen := (List.isPrefixOf_iff_prefix.mp hpre).length_le
            have hwhole : [c, d].isPrefixOf (x :: (rest ++ c :: d :: b)) = true :=
              List.isPrefixOf_iff_prefix.mpr ((List.isPrefixOf_iff_prefix.mp hpre).trans
                (List.prefix_append (x :: rest) _))
            rw [if_pos hpre, if_pos hwhole]
            exact congrArg (List.cons []) (ih (Nat.le_of_succ_le_succ hlen))
          · have hwhole : ¬ [c, d].isPrefixOf (x :: (rest ++ c :: d :: b)) = true := by
              intro h
              cases rest with
              | nil =>
                  obtain ⟨t, ht⟩ := List.isPrefixOf_iff_prefix.mp h
                  exact hcd (List.cons.inj (List.cons.inj ht).2).1.symm
              | cons y rest =>
                  refine hpre (List.isPrefixOf_iff_prefix.mpr ?_)
                  exact List.prefix_of_prefix_length_le (List.isPrefixOf_iff_prefix.mp h)
                    (List.prefix_append (x :: y :: rest) _) (by simp)
            rw [if_neg hpre, if_neg hwhole, ih (Nat.zero_le _)]
            cases hsplit : splitFrom [c, d] 0 rest with
            | nil => exact absurd hsplit (splitFrom_ne_nil _ _ _)
            | cons p ps => rfl

/-- `str::split_once`. -/
def splitOnce (c : α) : List α → Option (List α × List α)
  | [] => none
  | a :: rest => if a = c then some ([], rest) else (splitOnce c rest).map fun kv => (a :: kv.1, kv.2)

theorem splitOnce_eq_some {c : α} {l k v : List α} (h : splitOnce c l = some (k, v)) :
    l = k ++ c :: v := by
  induction l generalizing k with
  | nil => cases h
  | cons a rest ih =>
      rw [splitOnce] at h
      split at h
      · rename_i ha
        obtain ⟨rfl, rfl⟩ := Prod.mk.inj (Option.some.inj h)
        rw [ha]
        rfl
      · obtain ⟨⟨k', v'⟩, hkv, heq⟩ := Option.map_eq_some_iff.mp h
        obtain ⟨rfl, rfl⟩ := Prod.mk.inj heq
        rw [ih hkv]
        rfl

end

/-! ## Trimming -/

/-- The encodings of the characters with the `White_Space` property. -/
def whiteSpace : List Bytes :=
  [[0x09], [0x0A], [0x0B], [0x0C], [0x0D], [0x20], [0xC2, 0x85], [0xC2, 0xA0],
    [0xE1, 0x9A, 0x80], [0xE2, 0x80, 0x80], [0xE2, 0x80, 0x81], [0xE2, 0x80, 0x82],
    [0xE2, 0x80, 0x83], [0xE2, 0x80, 0x84], [0xE2, 0x80, 0x85], [0xE2, 0x80, 0x86],
    [0xE2, 0x80, 0x87], [0xE2, 0x80, 0x88], [0xE2, 0x80, 0x89], [0xE2, 0x80, 0x8A],
    [0xE2, 0x80, 0xA8], [0xE2, 0x80, 0xA9], [0xE2, 0x80, 0xAF], [0xE2, 0x81, 0x9F],
    [0xE3, 0x80, 0x80]]

/-- Drop the given sequences from the front, as long as one is there. -/
def trimFrom (seqs : List Bytes) : Nat → Bytes → Bytes
  | _, [] => []
  | k + 1, _ :: rest => trimFrom seqs k rest
  | 0, b :: rest =>
      match seqs.find? (·.isPrefixOf (b :: rest)) with
      | some w => trimFrom seqs (w.length - 1) rest
      | none => b :: rest

/-- `str::trim`. -/
def trim (s : Bytes) : Bytes :=
  (trimFrom (whiteSpace.map List.reverse) 0 (trimFrom whiteSpace 0 s).reverse).reverse

theorem length_trimFrom_le (seqs : List Bytes) (k : Nat) (s : Bytes) :
    (trimFrom seqs k s).length ≤ s.length := by
  induction s generalizing k with
  | nil => simp [trimFrom]
  | cons b rest ih =>
      cases k with
      | succ k => exact Nat.le_succ_of_le (ih k)
      | zero =>
          rw [trimFrom]
          split
          · exact Nat.le_succ_of_le (ih _)
          · exact Nat.le_refl _

theorem length_trim_le (s : Bytes) : (trim s).length ≤ s.length := by
  rw [trim, List.length_reverse]
  calc (trimFrom (whiteSpace.map List.reverse) 0 (trimFrom whiteSpace 0 s).reverse).length
      ≤ (trimFrom whiteSpace 0 s).reverse.length := length_trimFrom_le ..
    _ = (trimFrom whiteSpace 0 s).length := List.length_reverse
    _ ≤ s.length := length_trimFrom_le ..

/-! ## Case and digits -/

/-- `to_ascii_lowercase`. -/
def toAsciiLowercase (s : Bytes) : Bytes :=
  s.map fun b => if 0x41 ≤ b ∧ b ≤ 0x5A then b + 0x20 else b

@[simp] theorem length_toAsciiLowercase (s : Bytes) : (toAsciiLowercase s).length = s.length :=
  List.length_map ..

/-- `eq_ignore_ascii_case`. -/
def eqIgnoreAsciiCase (s t : Bytes) : Bool := toAsciiLowercase s == toAsciiLowercase t

/-- `char::to_digit`. -/
def toDigit (radix : Nat) (b : UInt8) : Option Nat :=
  let d :=
    if 0x30 ≤ b ∧ b ≤ 0x39 then some (b.toNat - 0x30)
    else if 0x61 ≤ b ∧ b ≤ 0x7A then some (b.toNat - 0x61 + 10)
    else if 0x41 ≤ b ∧ b ≤ 0x5A then some (b.toNat - 0x41 + 10)
    else none
  d.filter (· < radix)

/-- The digits after `acc`, unless the number no longer fits `width` bits. -/
def digitsFrom (radix width : Nat) : Nat → Bytes → Option Nat
  | acc, [] => some acc
  | acc, b :: rest => do
      let d ← toDigit radix b
      let next := acc * radix + d
      if next < 2 ^ width then digitsFrom radix width next rest else none

/-- `from_str_radix` of an unsigned integer: a `+` may come first, and at
least one digit must. -/
def fromStrRadix (radix width : Nat) (s : Bytes) : Option Nat :=
  match s with
  | [] => none
  | [b] => if b = 0x2B then none else digitsFrom radix width 0 [b]
  | b :: rest => if b = 0x2B then digitsFrom radix width 0 rest else digitsFrom radix width 0 s

end Lib
