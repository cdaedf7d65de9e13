import Kanrin.Lib.Codec
import Kanrin.Lib.MaximalRuns
import Kanrin.Decoders
import Kanrin.SendBuffer

/-!
# The canonical form of an acknowledgement

`validateSackRanges` walks the ranges with a floor that is one wider than a
sequence. What it accepts are well-formed ranges above the cumulative point
with a sequence missing between neighbours (`canonical_iff`), also where
the last of them ends at `u64::MAX`. Such ranges are the maximal runs of
what they cover, so an accepted acknowledgement is the only one for the
sequences it acknowledges.
-/

namespace Kanrin

open Lib

/-! ## The floor as a gap -/

/-- Above the widened floor of a range there is room for a missing
sequence, and only there. -/
theorem exists_between_iff {a b : UInt64} :
    (∃ q, a < q ∧ q < b) ↔ a.toNat + 1 < b.toNat := by
  constructor
  · rintro ⟨q, haq, hqb⟩
    have h1 := UInt64.lt_iff_toNat_lt.mp haq
    have h2 := UInt64.lt_iff_toNat_lt.mp hqb
    omega
  · intro h
    have hlt : a < b := UInt64.lt_iff_toNat_lt.mpr (by omega)
    have hsucc := toNat_succ_of_lt hlt
    exact ⟨a + 1, UInt64.lt_iff_toNat_lt.mpr (by omega), UInt64.lt_iff_toNat_lt.mpr (by omega)⟩

/-- A sequence between the end of one range and the start of the next. -/
def SackRange.Apart (r s : SackRange) : Prop := ∃ q, r.stop < q ∧ q < s.start

theorem canonical_floor_iff {floor : Nat} {ranges : List SackRange} :
    Canonical floor ranges ↔
      (∀ r ∈ ranges, r.start ≤ r.stop ∧ floor < r.start.toNat)
        ∧ ranges.Pairwise SackRange.Apart := by
  induction ranges generalizing floor with
  | nil => simp [Canonical]
  | cons r rs ih =>
      rw [Canonical, ih, List.forall_mem_cons, List.pairwise_cons]
      constructor
      · rintro ⟨hle, hfloor, hrs, hpair⟩
        have hstop := UInt64.le_iff_toNat_le.mp hle
        refine ⟨⟨⟨hle, hfloor⟩, fun s hs => ⟨(hrs s hs).1, ?_⟩⟩, fun s hs => ?_, hpair⟩
        · have := (hrs s hs).2
          omega
        · exact exists_between_iff.mpr (hrs s hs).2
      · rintro ⟨⟨⟨hle, hfloor⟩, hrs⟩, hhead, hpair⟩
        exact ⟨hle, hfloor, fun s hs => ⟨(hrs s hs).1, exists_between_iff.mp (hhead s hs)⟩, hpair⟩

theorem canonical_iff {next : UInt64} {ranges : List SackRange} :
    Canonical next.toNat ranges ↔
      (∀ r ∈ ranges, r.start ≤ r.stop ∧ next < r.start) ∧ ranges.Pairwise SackRange.Apart := by
  simp only [canonical_floor_iff, UInt64.lt_iff_toNat_lt]

/-! ## What follows an acknowledgement -/

namespace ControlMessage

theorem decodeRanges_append {data t : Bytes} {count : Nat} (h : 10 + count * 16 ≤ data.length)
    (h' : 10 + count * 16 ≤ (data ++ t).length) :
    decodeRanges (data ++ t) count h' = decodeRanges data count h := by
  unfold decodeRanges
  refine congrArg List.ofFn (funext fun i => ?_)
  have hi := i.isLt
  rw [slice_append (by omega), slice_append (by omega)]

/-- The arm of the acknowledgement tag. -/
theorem decode_ack_arm (body : Bytes) {data : Bytes} {m : ControlMessage}
    (hdata : data = 0x07 :: body) :
    decode data = .ok m ↔
      ∃ (hnext : 1 + 8 ≤ data.length) (hcount : 9 < data.length)
        (hlen : 10 + data[9].toNat * 16 ≤ data.length),
        data[9].toNat ≤ maxSackRanges
          ∧ Canonical (u64FromBe (slice data 1 8 hnext)).toNat
              (decodeRanges data data[9].toNat hlen)
          ∧ m = ack (u64FromBe (slice data 1 8 hnext)) (decodeRanges data data[9].toNat hlen) := by
  subst hdata
  have h0 : ¬ (0x07 :: body).length = 0 := Nat.succ_ne_zero _
  have hhead : (0x07 :: body)[0] = 0x07 := rfl
  have h1 : ¬ (0x07 : UInt8) = 0x01 := by decide
  have h2 : ¬ (0x07 : UInt8) = 0x02 := by decide
  have h6 : ¬ (0x07 : UInt8) = 0x06 := by decide
  rw [decode, dif_neg h0]
  simp only [hhead, if_neg h1, if_neg h2, if_neg h6, if_true]
  generalize (0x07 :: body : Bytes) = data
  constructor
  · intro h
    obtain ⟨h10, h⟩ := dite_error_eq_ok.mp h
    obtain ⟨hmax, h⟩ := ite_error_eq_ok.mp h
    obtain ⟨hlen, h⟩ := dite_error_eq_ok.mp h
    obtain ⟨⟨⟩, hvalid, rfl⟩ := map_eq_ok.mp h
    exact ⟨by omega, by omega, Nat.not_lt.mp hlen, Nat.not_lt.mp hmax,
      validateSackRanges_iff.mp hvalid, rfl⟩
  · rintro ⟨hnext, hcount, hlen, hmax, hcan, rfl⟩
    refine dite_error_eq_ok.mpr ⟨Nat.not_lt.mpr hcount, ?_⟩
    refine ite_error_eq_ok.mpr ⟨Nat.not_lt.mpr hmax, ?_⟩
    refine dite_error_eq_ok.mpr ⟨Nat.not_lt.mpr hlen, ?_⟩
    exact map_eq_ok.mpr ⟨(), validateSackRanges_iff.mpr hcan, rfl⟩

theorem decode_ack_append {body t : Bytes} {m : ControlMessage}
    (h : decode (0x07 :: body) = .ok m) : decode ((0x07 :: body) ++ t) = .ok m := by
  have hcons : (0x07 :: body) ++ t = 0x07 :: (body ++ t) := rfl
  rw [decode_ack_arm (body ++ t) hcons]
  clear hcons
  rw [decode_ack_arm body rfl] at h
  generalize (0x07 :: body : Bytes) = data at h ⊢
  obtain ⟨hnext, hcount, hlen, hmax, hcan, rfl⟩ := h
  have hle : data.length ≤ (data ++ t).length := by
    rw [List.length_append]
    exact Nat.le_add_right _ _
  have hbyte : (data ++ t)[9] = data[9] := List.getElem_append_left hcount
  simp only [hbyte, slice_append hnext, decodeRanges_append hlen]
  exact ⟨hnext.trans hle, hcount.trans_le hle, hlen.trans hle, hmax, hcan, trivial⟩

/-- No other tag is read as an acknowledgement. -/
theorem eq_cons_of_decode_ack {data : Bytes} {next : UInt64} {ranges : List SackRange}
    (h : decode data = .ok (ack next ranges)) : ∃ body, data = 0x07 :: body := by
  unfold decode at h
  split at h
  · cases h
  split at h
  · split at h
    · cases h
    · cases Except.ok.inj h
  split at h
  · split at h
    · cases h
    · cases Except.ok.inj h
  split at h
  · split at h
    · cases h
    · obtain ⟨reason, -, hm⟩ := map_eq_ok.mp h
      cases hm
  split at h
  · rename_i h0 _ _ _ h7
    refine ⟨data.drop 1, ?_⟩
    rw [← h7]
    exact (List.drop_eq_getElem_cons (Nat.pos_of_ne_zero h0))
  · cases h

/-- What `decode` returns for the acknowledgement tag, and when. -/
theorem decode_ack_eq_ok {body : Bytes} {m : ControlMessage} :
    decode (0x07 :: body) = .ok m ↔
      ∃ next ranges rest, m = ack next ranges
        ∧ 0x07 :: body = (ack next ranges).encode ++ rest
        ∧ ranges.length ≤ maxSackRanges ∧ Canonical next.toNat ranges := by
  constructor
  · intro h
    rw [decode_ack_arm body rfl] at h
    have hhead : (0x07 :: body : Bytes) = 0x07 :: (0x07 :: body : Bytes).drop 1 := rfl
    generalize (0x07 :: body : Bytes) = data at h hhead ⊢
    obtain ⟨hnext, hnine, hlen, hmax, hcan, rfl⟩ := h
    have hcount : (decodeRanges data data[9].toNat hlen).length = data[9].toNat := by
      unfold decodeRanges
      exact List.length_ofFn
    refine ⟨_, _, data.drop (10 + data[9].toNat * 16), rfl, ?_, hcount.trans_le hmax, hcan⟩
    have hranges : data.drop 10 = (data.drop 10).take (data[9].toNat * 16)
        ++ data.drop (10 + data[9].toNat * 16) := by
      rw [← List.drop_drop, List.take_append_drop]
    have htail : data.drop 1 = (data.drop 1).take 8 ++ data[9] :: data.drop 10 := by
      rw [← List.drop_eq_getElem_cons hnine, ← List.drop_drop (i := 8),
        List.take_append_drop]
    calc data = (0x07 : UInt8) :: ((data.drop 1).take 8 ++ data[9] :: data.drop 10) := by
          rw [← htail]
          exact hhead
      _ = ((0x07 : UInt8) :: ((data.drop 1).take 8
            ++ data[9] :: (data.drop 10).take (data[9].toNat * 16)))
          ++ data.drop (10 + data[9].toNat * 16) := by
        rw [List.cons_append, List.append_assoc, List.cons_append, ← hranges]
      _ = _ := by
        rw [encode, encode_decodeRanges, hcount, u64ToBe_fromBe, toList_slice, UInt8.ofNat_toNat]
  · rintro ⟨next, ranges, rest, rfl, hdata, hlen, hcan⟩
    have hread := decode_encode_ack hlen hcan
    rw [hdata]
    exact @decode_ack_append _ rest _ hread

theorem canonical_of_decode {data : Bytes} {next : UInt64} {ranges : List SackRange}
    (h : decode data = .ok (ack next ranges)) : Canonical next.toNat ranges := by
  obtain ⟨body, rfl⟩ := eq_cons_of_decode_ack h
  obtain ⟨next', ranges', -, hm, -, -, hcan⟩ := decode_ack_eq_ok.mp h
  obtain ⟨rfl, rfl⟩ := ack.inj hm
  exact hcan

end ControlMessage

/-! ## Two acknowledgements of the same sequences -/

def SackRange.ends (r : SackRange) : UInt64 × UInt64 := (r.start, r.stop)

theorem SackRange.ends_injective : Function.Injective SackRange.ends := by
  rintro ⟨a, b⟩ ⟨c, d⟩ h
  obtain ⟨rfl, rfl⟩ := Prod.mk.inj h
  rfl

theorem separated_ends {next : UInt64} {ranges : List SackRange}
    (h : Canonical next.toNat ranges) : Separated (ranges.map SackRange.ends) := by
  obtain ⟨hranges, hpair⟩ := canonical_iff.mp h
  refine ⟨?_, List.pairwise_map.mpr hpair⟩
  intro p hp
  obtain ⟨r, hr, rfl⟩ := List.mem_map.mp hp
  exact (hranges r hr).1

theorem mem_points_ends {ranges : List SackRange} {s : UInt64} :
    s ∈ points (ranges.map SackRange.ends) ↔ ∃ r ∈ ranges, r.start ≤ s ∧ s ≤ r.stop := by
  simp [points, SackRange.ends]

/-- The cumulative point is the least sequence that is not covered. -/
theorem le_of_covers_imp {next next' : UInt64} {ranges ranges' : List SackRange}
    (hcan : Canonical next.toNat ranges)
    (himp : ∀ s, SendBuffer.Covers next' ranges' s → SendBuffer.Covers next ranges s) :
    next' ≤ next := by
  by_contra hlt
  rcases himp next (Or.inl (not_le.mp hlt)) with h | ⟨r, hr, hle, -⟩
  · exact lt_irrefl _ h
  · exact absurd ((canonical_iff.mp hcan).1 r hr).2 (not_lt.mpr hle)

/-- Above the cumulative point, what is covered lies in a range. -/
theorem covers_above_iff {next : UInt64} {ranges : List SackRange}
    (hcan : Canonical next.toNat ranges) {s : UInt64} :
    s ∈ points (ranges.map SackRange.ends) ↔ next ≤ s ∧ SendBuffer.Covers next ranges s := by
  rw [mem_points_ends]
  constructor
  · rintro ⟨r, hr, hstart, hstop⟩
    have habove := ((canonical_iff.mp hcan).1 r hr).2
    exact ⟨(habove.trans_le hstart).le, Or.inr ⟨r, hr, hstart, hstop⟩⟩
  · rintro ⟨hle, hlt | hin⟩
    · exact absurd hlt (not_lt.mpr hle)
    · exact hin

theorem canonical_unique {next next' : UInt64} {ranges ranges' : List SackRange}
    (hcan : Canonical next.toNat ranges) (hcan' : Canonical next'.toNat ranges')
    (hsame : ∀ s, SendBuffer.Covers next ranges s ↔ SendBuffer.Covers next' ranges' s) :
    next = next' ∧ ranges = ranges' := by
  obtain rfl : next = next' :=
    le_antisymm (le_of_covers_imp hcan' fun s => (hsame s).mp)
      (le_of_covers_imp hcan fun s => (hsame s).mpr)
  refine ⟨rfl, List.map_injective_iff.mpr SackRange.ends_injective ?_⟩
  refine (separated_ends hcan).eq_of_points (separated_ends hcan') ?_
  ext s
  rw [covers_above_iff hcan, covers_above_iff hcan', hsame]

/-! ## Acceptance and uniqueness -/

/-- `decode` accepts, of the messages with the acknowledgement tag, exactly
those that begin with a complete acknowledgement in canonical form, and no
two of these acknowledge the same sequences. -/
theorem ack_canonical_form :
    (∀ (body : Bytes) (m : ControlMessage), ControlMessage.decode (0x07 :: body) = .ok m ↔
      ∃ next ranges rest, m = .ack next ranges
        ∧ 0x07 :: body = (ControlMessage.ack next ranges).encode ++ rest
        ∧ ranges.length ≤ 32
        ∧ (∀ r ∈ ranges, r.start ≤ r.stop ∧ next < r.start)
        ∧ ranges.Pairwise fun r s => ∃ q, r.stop < q ∧ q < s.start)
    ∧ ∀ (data data' : Bytes) (next next' : UInt64) (ranges ranges' : List SackRange),
      ControlMessage.decode data = .ok (.ack next ranges) →
      ControlMessage.decode data' = .ok (.ack next' ranges') →
      (∀ s, SendBuffer.Covers next ranges s ↔ SendBuffer.Covers next' ranges' s) →
      ControlMessage.ack next ranges = .ack next' ranges' := by
  refine ⟨?_, ?_⟩
  · intro body m
    rw [ControlMessage.decode_ack_eq_ok]
    simp only [canonical_iff]
    rfl
  · intro data data' next next' ranges ranges' h h' hsame
    obtain ⟨rfl, rfl⟩ := canonical_unique (ControlMessage.canonical_of_decode h)
      (ControlMessage.canonical_of_decode h') hsame
    rfl

/-- A range up to the last sequence, with bytes behind the message: it is
accepted, and it is the only acknowledgement of all sequences but two. -/
theorem ack_canonical_form_top :
    ControlMessage.decode ((ControlMessage.ack 5 [⟨7, u64Max⟩]).encode ++ [0xAA, 0xBB])
        = .ok (.ack 5 [⟨7, u64Max⟩])
      ∧ ∀ data next ranges, ControlMessage.decode data = .ok (.ack next ranges) →
        (∀ s, SendBuffer.Covers next ranges s ↔ s ≠ 5 ∧ s ≠ 6) →
        ControlMessage.ack next ranges = .ack 5 [⟨7, u64Max⟩] := by
  obtain ⟨hform, hunique⟩ := ack_canonical_form
  have hread : ControlMessage.decode
      ((ControlMessage.ack 5 [⟨7, u64Max⟩]).encode ++ [0xAA, 0xBB])
        = .ok (.ack 5 [⟨7, u64Max⟩]) := by
    refine (hform _ _).mpr ⟨5, [⟨7, u64Max⟩], [0xAA, 0xBB], rfl, rfl, ?_, ?_, ?_⟩
    · show 1 ≤ 32
      omega
    · intro r hr
      obtain rfl := List.mem_singleton.mp hr
      decide
    · exact List.pairwise_singleton _ _
  refine ⟨hread, ?_⟩
  intro data next ranges hdata hcovers
  refine hunique data _ next 5 ranges [⟨7, u64Max⟩] hdata hread fun s => ?_
  have hmax := s.toNat_lt
  rw [hcovers, SendBuffer.Covers]
  simp only [List.mem_singleton, exists_eq_left, UInt64.lt_iff_toNat_lt, UInt64.le_iff_toNat_le,
    ne_eq, ← UInt64.toNat_inj, toNat_u64Max]
  show (¬ s.toNat = 5 ∧ ¬ s.toNat = 6) ↔ _
  have h5 : (5 : UInt64).toNat = 5 := rfl
  have h7 : (7 : UInt64).toNat = 7 := rfl
  omega

end Kanrin
