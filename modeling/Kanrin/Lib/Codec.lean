import Kanrin.Lib.Fixed

/-!
# Codecs

An encoder and a decoder of one message at the front of its input. A
decoder that reads no further than the message it finds (`Delimited`)
decides every beginning of an encoding, and every continuation of one, by
the round trip alone (`Delimited.exact`).
-/

namespace Lib

universe u v w

section
variable {α : Type u} {β : Type v} {ε : Type w}

/-- A message comes back whatever follows it, and not before all of it is
there. -/
structure Exact (encode : α → List β) (decode : List β → Except ε α) (m : α) : Prop where
  roundTrip : ∀ t, decode (encode m ++ t) = .ok m
  truncated : ∀ p, p <+: encode m → p ≠ encode m → ∃ e, decode p = .error e

/-- More input does not change what has been read, and what has been read
is no longer than the input. -/
structure Delimited (encode : α → List β) (decode : List β → Except ε α) : Prop where
  stable : ∀ p m t, decode p = .ok m → decode (p ++ t) = .ok m
  consumes : ∀ p m, decode p = .ok m → (encode m).length ≤ p.length

theorem Delimited.exact {encode : α → List β} {decode : List β → Except ε α}
    (h : Delimited encode decode) {m : α} (hm : decode (encode m) = .ok m) :
    Exact encode decode m where
  roundTrip t := h.stable _ _ t hm
  truncated p hp hne := by
    obtain ⟨t, ht⟩ := hp
    cases hread : decode p with
    | error e => exact ⟨e, rfl⟩
    | ok m' =>
        exfalso
        have hsame := h.stable p m' t hread
        rw [ht, hm] at hsame
        obtain rfl := Except.ok.inj hsame
        have hlen := h.consumes p m hread
        rw [← ht, List.length_append] at hlen
        obtain rfl : t = [] := List.length_eq_zero_iff.mp (by omega)
        rw [List.append_nil] at ht
        exact hne ht

/-- What is read behind a check has passed it. -/
theorem dite_error_eq_ok {c : Prop} [Decidable c] {e : c → ε} {f : ¬ c → Except ε α} {m : α} :
    (if h : c then .error (e h) else f h) = .ok m ↔ ∃ h : ¬ c, f h = .ok m := by
  constructor
  · intro h
    split at h
    · cases h
    · exact ⟨_, h⟩
  · rintro ⟨hnot, h⟩
    rw [dif_neg hnot, h]

theorem ite_error_eq_ok {c : Prop} [Decidable c] {e : ε} {r : Except ε α} {m : α} :
    (if c then .error e else r) = .ok m ↔ ¬ c ∧ r = .ok m := by
  constructor
  · intro h
    split at h
    · cases h
    · exact ⟨‹_›, h⟩
  · rintro ⟨hnot, h⟩
    rw [if_neg hnot, h]

end

theorem not_length_append_lt {data : Bytes} {n : Nat} (h : ¬ data.length < n) (t : Bytes) :
    ¬ (data ++ t).length < n := by
  rw [List.length_append]
  omega

/-- A slice of the input is a slice of whatever it is continued to. -/
theorem slice_append {data t : Bytes} {pos n : Nat} (h : pos + n ≤ data.length)
    (h' : pos + n ≤ (data ++ t).length) : slice (data ++ t) pos n h' = slice data pos n h := by
  rw [← ByteArr.toList_inj, toList_slice, toList_slice,
    List.drop_append_of_le_length (by omega)]
  exact List.take_append_of_le_length (by rw [List.length_drop]; omega)

theorem take_drop_append {data t : Bytes} {pos n : Nat} (h : pos + n ≤ data.length) :
    ((data ++ t).drop pos).take n = (data.drop pos).take n := by
  rw [List.drop_append_of_le_length (by omega)]
  exact List.take_append_of_le_length (by rw [List.length_drop]; omega)

end Lib
