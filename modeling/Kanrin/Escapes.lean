import Kanrin.Frontdoor
import Kanrin.Lib.Http1

/-!
# Hexadecimal escapes

`percent_decode` of `kanrin-server/src/http.rs` and `unhex` of
`frontdoor.rs` both give each pair of characters to `from_str_radix`, which
takes a sign before the digits. So `%+1` is decoded, and `+f` is a byte of
a token: both functions are exact on the inputs where no such pair decides
(`escapes_exact_iff`).
-/

namespace Kanrin

open Lib

/-! ## Decoding a path -/

/-- The loop of `percent_decode`. The number is how many bytes of the last
escape are still to be passed. -/
def percentDecodeFrom : Nat → Bytes → Option Bytes
  | _, [] => some []
  | k + 1, _ :: rest => percentDecodeFrom k rest
  | 0, b :: rest =>
      if b = 0x25 then do
        let hex ← strGet (b :: rest) 1 3
        let byte ← fromStrRadix 16 8 hex
        let out ← percentDecodeFrom 2 rest
        return UInt8.ofNat byte :: out
      else do
        let out ← percentDecodeFrom 0 rest
        return b :: out

def percentDecode (input : Bytes) : Option Bytes := do
  let out ← percentDecodeFrom 0 input
  if isUtf8 out then some out else none

/-- Every `%` and the two digits behind it stand for one byte. -/
inductive Decodes : Bytes → Bytes → Prop
  | nil : Decodes [] []
  | plain {b : UInt8} {s t : Bytes} (hb : b ≠ 0x25) (h : Decodes s t) : Decodes (b :: s) (b :: t)
  | escape {hi lo : UInt8} {x y : Nat} {s t : Bytes} (hx : toDigit 16 hi = some x)
      (hy : toDigit 16 lo = some y) (h : Decodes s t) :
      Decodes (0x25 :: hi :: lo :: s) (UInt8.ofNat (16 * x + y) :: t)

/-- `percent_decode` accepts what is well-formed, and decodes it. -/
def PercentExact (s : String) : Prop :=
  ∀ t, percentDecode (asBytes s) = some t ↔ Decodes (asBytes s) t ∧ isUtf8 t = true

/-- `unhex` accepts the strings of `2 * n` digits, and reads no other
string as the spelling of an array. -/
structure UnhexExact (n : Nat) (s : Bytes) : Prop where
  accepts : (∃ a, unhex n s = some a) ↔ s.length = 2 * n ∧ ∀ b ∈ s, (toDigit 16 b).isSome = true
  spells : ∀ a, unhex n s = some a → toAsciiLowercase s = hex a.toList

/-! ## Pairs -/

def isHexPair : Bytes → Bool
  | [hi, lo] => (toDigit 16 hi).isSome && (toDigit 16 lo).isSome
  | _ => false

/-- A sign and a digit. -/
def isPlusPair : Bytes → Bool
  | [hi, lo] => hi == 0x2B && (toDigit 16 lo).isSome
  | _ => false

/-- The number the digits of a pair stand for; a sign counts nothing. -/
def pairValue (e : Bytes) : Nat := e.foldl (fun acc b => acc * 16 + (toDigit 16 b).getD 0) 0

theorem toDigit_lt {radix d : Nat} {b : UInt8} (h : toDigit radix b = some d) : d < radix := by
  unfold toDigit at h
  exact of_decide_eq_true (Option.filter_eq_some_iff.mp h).2

theorem toDigit_plus : toDigit 16 0x2B = none := by decide

theorem not_isHexPair_of_isPlusPair {e : Bytes} (h : isPlusPair e = true) :
    isHexPair e = false := by
  match e with
  | [hi, lo] =>
      obtain ⟨hhi, -⟩ := Bool.and_eq_true_iff.mp h
      obtain rfl := eq_of_beq hhi
      rw [isHexPair, toDigit_plus]
      rfl
  | [] | [_] | _ :: _ :: _ :: _ => cases h

/-- What the integer parser makes of two characters. -/
theorem fromStrRadix_pair (hi lo : UInt8) :
    fromStrRadix 16 8 [hi, lo] = if isHexPair [hi, lo] || isPlusPair [hi, lo] then
      some (pairValue [hi, lo]) else none := by
  have hread : fromStrRadix 16 8 [hi, lo]
      = if hi = 0x2B then digitsFrom 16 8 0 [lo] else digitsFrom 16 8 0 [hi, lo] := rfl
  rw [hread]
  by_cases hplus : hi = 0x2B
  · subst hplus
    rw [if_pos rfl]
    cases hy : toDigit 16 lo with
    | none => simp [digitsFrom, isHexPair, isPlusPair, hy]
    | some y =>
        have hlt := toDigit_lt hy
        have hfits : y < 256 := by omega
        simp [digitsFrom, isHexPair, isPlusPair, pairValue, hy, toDigit_plus, hfits]
  · rw [if_neg hplus]
    cases hx : toDigit 16 hi with
    | none => simp [digitsFrom, isHexPair, isPlusPair, hx, hplus]
    | some x =>
        have hxlt := toDigit_lt hx
        have hxfits : x < 256 := by omega
        cases hy : toDigit 16 lo with
        | none => simp [digitsFrom, isHexPair, isPlusPair, hx, hy]
        | some y =>
            have hylt := toDigit_lt hy
            have hfits : x * 16 + y < 256 := by omega
            simp [digitsFrom, isHexPair, isPlusPair, pairValue, hx, hy, hxfits, hfits]

/-! ## The escapes of a path -/

/-- What follows each `%`, two bytes of it if there are as many. -/
def escapesFrom : Nat → Bytes → List Bytes
  | _, [] => []
  | k + 1, _ :: rest => escapesFrom k rest
  | 0, b :: rest => if b = 0x25 then rest.take 2 :: escapesFrom 2 rest else escapesFrom 0 rest

/-- The bytes that the characters and the escapes stand for. -/
def unescapedFrom : Nat → Bytes → Bytes
  | _, [] => []
  | k + 1, _ :: rest => unescapedFrom k rest
  | 0, b :: rest =>
      if b = 0x25 then UInt8.ofNat (pairValue (rest.take 2)) :: unescapedFrom 2 rest
      else b :: unescapedFrom 0 rest

def escapes (s : Bytes) : List Bytes := escapesFrom 0 s

def unescaped (s : Bytes) : Bytes := unescapedFrom 0 s

/-- A pair the integer parser takes. -/
def isTaken (e : Bytes) : Bool := isHexPair e || isPlusPair e

theorem toDigit_eq_none_of_le {radix : Nat} {b : UInt8} (h : 0x80 ≤ b) :
    toDigit radix b = none := by
  unfold toDigit
  rw [UInt8.le_iff_toNat_le] at h
  simp only [UInt8.le_iff_toNat_le]
  have h1 : ¬ ((0x30 : UInt8).toNat ≤ b.toNat ∧ b.toNat ≤ (0x39 : UInt8).toNat) := by
    simp at h ⊢
    omega
  have h2 : ¬ ((0x61 : UInt8).toNat ≤ b.toNat ∧ b.toNat ≤ (0x7A : UInt8).toNat) := by
    simp at h ⊢
    omega
  have h3 : ¬ ((0x41 : UInt8).toNat ≤ b.toNat ∧ b.toNat ≤ (0x5A : UInt8).toNat) := by
    simp at h ⊢
    omega
  rw [if_neg h1, if_neg h2, if_neg h3]
  rfl

/-- In a text, `get` finds the two characters behind a `%` wherever they
are digits. -/
theorem bind_strGet {rest : Bytes} (h : (0x25 :: rest).IsChain AsciiEnds) :
    (strGet (0x25 :: rest) 1 3).bind (fromStrRadix 16 8)
      = if isTaken (rest.take 2) then some (pairValue (rest.take 2)) else none := by
  match rest with
  | [] => rfl
  | [a] => simp [strGet, isCharBoundary, isTaken, isHexPair, isPlusPair]
  | a :: b :: rest =>
      show _ = if isHexPair [a, b] || isPlusPair [a, b] then some (pairValue [a, b]) else none
      rw [← fromStrRadix_pair]
      by_cases hb : b < 0x80
      · obtain ⟨hpercent, h⟩ := List.isChain_cons_cons.mp h
        obtain ⟨-, h⟩ := List.isChain_cons_cons.mp h
        have hstart : isCharBoundary (0x25 :: a :: b :: rest) 1 = true := by
          simp [isCharBoundary, hpercent (by decide)]
        have hstop : isCharBoundary (0x25 :: a :: b :: rest) 3 = true := by
          cases rest with
          | nil => rfl
          | cons c rest =>
              have hc := (List.isChain_cons_cons.mp h).1 hb
              simp [isCharBoundary, hc]
        rw [strGet, hstart, hstop]
        rfl
      · have hnone : fromStrRadix 16 8 [a, b] = none :=
          fromStrRadix_eq_none (toDigit_eq_none_of_le (UInt8.not_lt.mp hb))
            (fun hplus => hb (by rw [hplus]; decide)) (by simp)
        rw [hnone, strGet]
        split
        · exact hnone
        · rfl

/-- The loop takes every pair the integer parser takes. -/
theorem percentDecodeFrom_eq {k : Nat} {s : Bytes} (h : s.IsChain AsciiEnds) :
    percentDecodeFrom k s
      = if (escapesFrom k s).all isTaken then some (unescapedFrom k s) else none := by
  induction s generalizing k with
  | nil => simp [percentDecodeFrom, escapesFrom, unescapedFrom]
  | cons b rest ih =>
      have hrest : rest.IsChain AsciiEnds := h.tail
      cases k with
      | succ k => exact ih hrest
      | zero =>
          rw [percentDecodeFrom, escapesFrom, unescapedFrom]
          by_cases hb : b = 0x25
          · subst hb
            rw [if_pos rfl, if_pos rfl, if_pos rfl, List.all_cons]
            show ((strGet (0x25 :: rest) 1 3).bind fun hex => (fromStrRadix 16 8 hex).bind
              fun byte => (percentDecodeFrom 2 rest).bind fun out =>
                some (UInt8.ofNat byte :: out)) = _
            rw [← Option.bind_assoc, bind_strGet h, ih hrest]
            cases isTaken (rest.take 2) with
            | false => rfl
            | true =>
                cases (escapesFrom 2 rest).all isTaken with
                | false => rfl
                | true => rfl
          · rw [if_neg hb, if_neg hb, if_neg hb, ih hrest]
            cases (escapesFrom 0 rest).all isTaken with
            | false => rfl
            | true => rfl

/-- What the escapes have to be for a path to be well-formed. -/
theorem decodes_drop_iff {k : Nat} {s t : Bytes} :
    Decodes (s.drop k) t ↔
      (∀ e ∈ escapesFrom k s, isHexPair e = true) ∧ t = unescapedFrom k s := by
  induction s generalizing k t with
  | nil =>
      rw [List.drop_nil]
      constructor
      · rintro ⟨⟩
        exact ⟨by simp [escapesFrom], rfl⟩
      · rintro ⟨-, rfl⟩
        exact .nil
  | cons b rest ih =>
      cases k with
      | succ k => exact ih
      | zero =>
          rw [List.drop_zero, escapesFrom, unescapedFrom]
          by_cases hb : b = 0x25
          · subst hb
            rw [if_pos rfl, if_pos rfl, List.forall_mem_cons]
            constructor
            · intro h
              cases h with
              | plain hb => exact absurd rfl hb
              | @escape hi lo x y s t hx hy h =>
                  obtain ⟨hall, rfl⟩ := (ih (k := 2)).mp h
                  refine ⟨⟨?_, hall⟩, ?_⟩
                  · show ((toDigit 16 hi).isSome && (toDigit 16 lo).isSome) = true
                    rw [hx, hy]
                    rfl
                  · have hvalue : pairValue [hi, lo] = 16 * x + y := by
                      simp [pairValue, hx, hy]
                      omega
                    rw [← hvalue]
                    rfl
            · rintro ⟨⟨hpair, hall⟩, rfl⟩
              match rest, hpair with
              | hi :: lo :: s, hpair =>
                  obtain ⟨hhi, hlo⟩ := Bool.and_eq_true_iff.mp hpair
                  obtain ⟨x, hx⟩ := Option.isSome_iff_exists.mp hhi
                  obtain ⟨y, hy⟩ := Option.isSome_iff_exists.mp hlo
                  have hvalue : pairValue [hi, lo] = 16 * x + y := by
                    simp [pairValue, hx, hy]
                    omega
                  have hrest := (ih (k := 2)).mpr ⟨hall, rfl⟩
                  have hstep := Decodes.escape hx hy hrest
                  rw [← hvalue] at hstep
                  exact hstep
          · rw [if_neg hb, if_neg hb]
            constructor
            · intro h
              cases h with
              | plain hb h =>
                  obtain ⟨hall, rfl⟩ := (ih (k := 0)).mp h
                  exact ⟨hall, rfl⟩
              | escape => exact absurd rfl hb
            · rintro ⟨hall, rfl⟩
              exact .plain hb ((ih (k := 0)).mpr ⟨hall, rfl⟩)

theorem decodes_iff {s t : Bytes} :
    Decodes s t ↔ (∀ e ∈ escapes s, isHexPair e = true) ∧ t = unescaped s :=
  decodes_drop_iff (k := 0)

theorem percentDecode_eq_some (s : String) {t : Bytes} :
    percentDecode (asBytes s) = some t ↔
      (∀ e ∈ escapes (asBytes s), isTaken e = true) ∧ t = unescaped (asBytes s)
        ∧ isUtf8 t = true := by
  have hread := percentDecodeFrom_eq (k := 0) (isChain_encode s.toList)
  rw [← asBytes, ← escapes, ← unescaped] at hread
  rw [percentDecode, hread, ← List.all_eq_true]
  cases (escapes (asBytes s)).all isTaken with
  | false => exact iff_of_false (Option.some_ne_none _).symm (fun h => Bool.false_ne_true h.1)
  | true =>
      show (if isUtf8 (unescaped (asBytes s)) = true then some (unescaped (asBytes s)) else none)
        = some t ↔ _
      rw [Option.ite_none_right_eq_some, Option.some.injEq]
      constructor
      · rintro ⟨hutf8, rfl⟩
        exact ⟨rfl, rfl, hutf8⟩
      · rintro ⟨-, rfl, hutf8⟩
        exact ⟨hutf8, rfl⟩

/-- Where a sign does not decide: no pair has one, or another pair is
malformed anyway. -/
def SignIdle (es : List Bytes) : Prop :=
  (∀ e ∈ es, isPlusPair e = false) ∨ ∃ e ∈ es, isHexPair e = false ∧ isPlusPair e = false

/-- Then, and only then, the integer parser takes just the pairs of digits. -/
theorem signIdle_iff {es : List Bytes} :
    SignIdle es ↔ ((∀ e ∈ es, isTaken e = true) → ∀ e ∈ es, isHexPair e = true) := by
  constructor
  · rintro (hnone | ⟨e, he, hhex, hplus⟩) hall
    · intro e he
      have := hall e he
      rwa [isTaken, hnone e he, Bool.or_false] at this
    · have := hall e he
      rw [isTaken, hhex, hplus] at this
      cases this
  · intro h
    by_cases hall : ∀ e ∈ es, isTaken e = true
    · refine Or.inl fun e he => ?_
      by_contra hplus
      have hhex := not_isHexPair_of_isPlusPair (Bool.eq_true_of_not_eq_false hplus)
      rw [h hall e he] at hhex
      cases hhex
    · obtain ⟨e, hnot⟩ := not_forall.mp hall
      obtain ⟨he, hnot⟩ := Classical.not_imp.mp hnot
      rw [isTaken, Bool.not_eq_true, Bool.or_eq_false_iff] at hnot
      exact Or.inr ⟨e, he, hnot⟩

theorem percentExact_iff (s : String) :
    PercentExact s ↔ SignIdle (escapes (asBytes s)) ∨ isUtf8 (unescaped (asBytes s)) = false := by
  have htaken : (∀ e ∈ escapes (asBytes s), isHexPair e = true) →
      ∀ e ∈ escapes (asBytes s), isTaken e = true := by
    intro h e he
    rw [isTaken, h e he]
    rfl
  simp only [PercentExact, percentDecode_eq_some, decodes_iff, signIdle_iff]
  constructor
  · intro h
    by_cases hutf8 : isUtf8 (unescaped (asBytes s)) = true
    · exact Or.inl fun hall => ((h _).mp ⟨hall, rfl, hutf8⟩).1.1
    · exact Or.inr (Bool.eq_false_of_not_eq_true hutf8)
  · intro h t
    constructor
    · rintro ⟨hall, rfl, hutf8⟩
      rcases h with h | h
      · exact ⟨⟨h hall, rfl⟩, hutf8⟩
      · rw [h] at hutf8
        cases hutf8
    · rintro ⟨⟨hall, rfl⟩, hutf8⟩
      exact ⟨htaken hall, rfl, hutf8⟩

/-! ## The pairs of a token -/

def pairs : Nat → Bytes → List Bytes
  | 0, _ => []
  | n + 1, s => s.take 2 :: pairs n (s.drop 2)

/-- The bytes that pairs stand for. -/
def pairBytes (es : List Bytes) : Bytes := es.map fun e => UInt8.ofNat (pairValue e)

theorem exists_pair {n : Nat} {s : Bytes} (h : s.length = 2 * (n + 1)) :
    ∃ hi lo rest, s = hi :: lo :: rest ∧ rest.length = 2 * n := by
  match s with
  | hi :: lo :: rest =>
      refine ⟨hi, lo, rest, rfl, ?_⟩
      simp only [List.length_cons] at h
      omega
  | [] | [_] =>
      simp only [List.length_nil, List.length_singleton] at h
      omega

theorem unhexFrom_eq {n : Nat} {s : Bytes} (h : s.length = 2 * n) :
    (unhexFrom n s).map List.Vector.toList
      = if (pairs n s).all isTaken then some (pairBytes (pairs n s)) else none := by
  induction n generalizing s with
  | zero => rfl
  | succ n ih =>
      obtain ⟨hi, lo, rest, rfl, hrest⟩ := exists_pair h
      have hrec := ih hrest
      show ((fromStrRadix 16 8 [hi, lo]).bind fun byte => (unhexFrom n rest).bind fun out =>
        some (UInt8.ofNat byte ::ᵥ out)).map List.Vector.toList
          = if (isTaken [hi, lo] && (pairs n rest).all isTaken) = true then
              some (UInt8.ofNat (pairValue [hi, lo]) :: pairBytes (pairs n rest)) else none
      rw [fromStrRadix_pair, ← isTaken]
      cases isTaken [hi, lo] with
      | false => rfl
      | true =>
          cases hread : unhexFrom n rest with
          | none =>
              rw [hread] at hrec
              split at hrec
              · cases hrec
              · rename_i hall
                rw [Bool.true_and, if_neg hall]
                rfl
          | some out =>
              rw [hread] at hrec
              split at hrec
              · rename_i hall
                rw [Bool.true_and, if_pos hall, ← Option.some.inj hrec]
                rfl
              · cases hrec

theorem unhex_eq_some {n : Nat} {s : Bytes} {a : ByteArr n} :
    unhex n s = some a ↔
      s.length = 2 * n ∧ (∀ e ∈ pairs n s, isTaken e = true)
        ∧ a.toList = pairBytes (pairs n s) := by
  rw [unhex, Nat.mul_comm n 2]
  by_cases hlen : s.length = 2 * n
  · rw [if_neg (not_not.mpr hlen), ← List.all_eq_true]
    have hread := unhexFrom_eq hlen
    cases hall : (pairs n s).all isTaken with
    | false =>
        rw [hall, if_neg Bool.false_ne_true, Option.map_eq_none_iff] at hread
        rw [hread]
        exact iff_of_false (Option.some_ne_none _).symm (fun h => Bool.false_ne_true h.2.1)
    | true =>
        rw [hall, if_pos rfl, Option.map_eq_some_iff] at hread
        obtain ⟨out, hout, hbytes⟩ := hread
        rw [hout, Option.some.injEq, ← hbytes, ByteArr.toList_inj]
        exact ⟨fun h => ⟨hlen, rfl, h.symm⟩, fun h => h.2.2.symm⟩
  · rw [if_pos hlen]
    exact iff_of_false (Option.some_ne_none _).symm (fun h => hlen h.1)

theorem digits_iff {n : Nat} {s : Bytes} (h : s.length = 2 * n) :
    (∀ b ∈ s, (toDigit 16 b).isSome = true) ↔ ∀ e ∈ pairs n s, isHexPair e = true := by
  induction n generalizing s with
  | zero =>
      obtain rfl := List.length_eq_zero_iff.mp h
      exact iff_of_true (by simp) (by simp [pairs])
  | succ n ih =>
      obtain ⟨hi, lo, rest, rfl, hrest⟩ := exists_pair h
      show _ ↔ ∀ e ∈ [hi, lo] :: pairs n rest, isHexPair e = true
      rw [List.forall_mem_cons, List.forall_mem_cons, List.forall_mem_cons, ih hrest, isHexPair,
        Bool.and_eq_true, and_assoc]

/-- A digit, in lower case, is the digit `hexByte` writes. -/
theorem lower_digit {b : UInt8} {x : Nat} (h : toDigit 16 b = some x) :
    (if 0x41 ≤ b ∧ b ≤ 0x5A then b + 0x20 else b) = UInt8.ofNat (hexDigit x).toNat := by
  have hall : ∀ n < 256, ∀ x ∈ toDigit 16 (UInt8.ofNat n),
      (if 0x41 ≤ UInt8.ofNat n ∧ UInt8.ofNat n ≤ 0x5A then UInt8.ofNat n + 0x20
        else UInt8.ofNat n) = UInt8.ofNat (hexDigit x).toNat := by
    decide +kernel
  have hb := hall b.toNat b.toNat_lt x
  rw [UInt8.ofNat_toNat] at hb
  exact hb h

theorem lower_pair {hi lo : UInt8} (h : isHexPair [hi, lo] = true) :
    toAsciiLowercase [hi, lo] = ascii (hexByte (UInt8.ofNat (pairValue [hi, lo]))) := by
  obtain ⟨hhi, hlo⟩ := Bool.and_eq_true_iff.mp h
  obtain ⟨x, hx⟩ := Option.isSome_iff_exists.mp hhi
  obtain ⟨y, hy⟩ := Option.isSome_iff_exists.mp hlo
  have hxlt := toDigit_lt hx
  have hylt := toDigit_lt hy
  have hvalue : (UInt8.ofNat (pairValue [hi, lo])).toNat = x * 16 + y := by
    simp [pairValue, hx, hy]
    omega
  have hdiv : (x * 16 + y) / 16 = x := by omega
  have hmod : (x * 16 + y) % 16 = y := by omega
  rw [hexByte, hvalue, hdiv, hmod, ascii, String.toList_ofList]
  exact congrArg₂ (fun a b => [a, b]) (lower_digit hx) (lower_digit hy)

theorem lower_eq_hex {n : Nat} {s : Bytes} (h : s.length = 2 * n)
    (hhex : ∀ e ∈ pairs n s, isHexPair e = true) :
    toAsciiLowercase s = hex (pairBytes (pairs n s)) := by
  induction n generalizing s with
  | zero =>
      obtain rfl := List.length_eq_zero_iff.mp h
      rfl
  | succ n ih =>
      obtain ⟨hi, lo, rest, rfl, hrest⟩ := exists_pair h
      obtain ⟨hpair, hpairs⟩ := List.forall_mem_cons.mp hhex
      show toAsciiLowercase [hi, lo] ++ toAsciiLowercase rest
        = ascii (hexByte (UInt8.ofNat (pairValue [hi, lo]))) ++ hex (pairBytes (pairs n rest))
      rw [lower_pair hpair, ih hrest hpairs]

theorem unhexExact_iff (n : Nat) (s : Bytes) :
    UnhexExact n s ↔ s.length ≠ 2 * n ∨ SignIdle (pairs n s) := by
  rw [signIdle_iff]
  constructor
  · intro h
    by_cases hlen : s.length = 2 * n
    · refine Or.inr fun hall => ?_
      have hread := unhexFrom_eq hlen
      rw [if_pos (List.all_eq_true.mpr hall), Option.map_eq_some_iff] at hread
      obtain ⟨a, -, hbytes⟩ := hread
      have hsome : ∃ a, unhex n s = some a := ⟨a, unhex_eq_some.mpr ⟨hlen, hall, hbytes⟩⟩
      exact (digits_iff hlen).mp (h.accepts.mp hsome).2
    · exact Or.inl hlen
  · intro h
    refine ⟨⟨?_, ?_⟩, ?_⟩
    · rintro ⟨a, ha⟩
      obtain ⟨hlen, hall, -⟩ := unhex_eq_some.mp ha
      exact ⟨hlen, (digits_iff hlen).mpr (h.resolve_left (not_not.mpr hlen) hall)⟩
    · rintro ⟨hlen, hdigits⟩
      have hhex := (digits_iff hlen).mp hdigits
      have hall : ∀ e ∈ pairs n s, isTaken e = true := by
        intro e he
        rw [isTaken, hhex e he]
        rfl
      have hread := unhexFrom_eq hlen
      rw [if_pos (List.all_eq_true.mpr hall), Option.map_eq_some_iff] at hread
      obtain ⟨a, -, hbytes⟩ := hread
      exact ⟨a, unhex_eq_some.mpr ⟨hlen, hall, hbytes⟩⟩
    · intro a ha
      obtain ⟨hlen, hall, hbytes⟩ := unhex_eq_some.mp ha
      rw [hbytes]
      exact lower_eq_hex hlen (h.resolve_left (not_not.mpr hlen) hall)

/-! ## Where both are exact -/

/-- Both decoders are exact on precisely the inputs where no sign decides;
a path may also stand for bytes that are no text. -/
theorem escapes_exact_iff (path : String) (n : Nat) (s : Bytes) :
    (PercentExact path ↔
      SignIdle (escapes (asBytes path)) ∨ isUtf8 (unescaped (asBytes path)) = false)
    ∧ (UnhexExact n s ↔ s.length ≠ 2 * n ∨ SignIdle (pairs n s)) :=
  ⟨percentExact_iff path, unhexExact_iff n s⟩

/-- `%+1` is no escape, and `+f` is not how a byte is written. -/
theorem signs_accepted :
    ¬ (∀ s : String, PercentExact s) ∧ ¬ ∀ (n : Nat) (s : Bytes), UnhexExact n s := by
  refine ⟨fun h => ?_, fun h => ?_⟩
  · have hread : percentDecode (asBytes "%+1") = some [1] := by decide +kernel
    obtain ⟨hdecodes, -⟩ := (h "%+1" [1]).mp hread
    have hhex := (decodes_iff.mp hdecodes).1 [0x2B, 0x31] (by decide +kernel)
    cases hhex
  · have hread : unhex 1 (ascii "+f") = some (15 ::ᵥ .nil) := by decide +kernel
    exact absurd ((h 1 (ascii "+f")).spells _ hread) (by decide +kernel)

end Kanrin
