import Kanrin.Lib.Indexing

/-!
# Numbers at offsets, and vectors behind their length

`numAt w data i` is the big-endian number of `w` bytes at an offset, and
`vec w body` is a byte string behind its length in `w` bytes. Where a
suffix of the data begins with one, `numAt` reads it; and where the data is
long enough for the length that is read, the suffix begins with a vector of
that length (`drop_eq_vec`).
-/

namespace Lib

/-- The number of `w` bytes at offset `i`. -/
def numAt (w : Nat) (data : Bytes) (i : Nat) : Nat := beNat ((data.drop i).take w)

/-- A byte string behind its length. -/
def vec (w : Nat) (body : Bytes) : Bytes := beBytes w body.length ++ body

variable {data body t : Bytes} {w n i : Nat}

@[simp] theorem length_vec : (vec w body).length = w + body.length := by
  rw [vec, List.length_append, length_beBytes]

theorem numAt_of_drop (h : data.drop i = beBytes w n ++ t) (hn : n < 256 ^ w) :
    numAt w data i = n := by
  rw [numAt, h, List.take_left' (length_beBytes w n), beNat_beBytes_of_lt hn]

theorem numAt_of_drop_vec (h : data.drop i = vec w body ++ t) (hbody : body.length < 256 ^ w) :
    numAt w data i = body.length := by
  rw [vec, List.append_assoc] at h
  exact numAt_of_drop h hbody

theorem numAt_lt (w : Nat) (data : Bytes) (i : Nat) : numAt w data i < 256 ^ w :=
  (beNat_lt _).trans_le (Nat.pow_le_pow_right (by omega) (List.length_take_le w _))

theorem drop_add_of_drop {front : Bytes} (h : data.drop i = front ++ t)
    (hfront : front.length = n) : data.drop (i + n) = t := by
  rw [← List.drop_drop, h, List.drop_left' hfront]

theorem drop_body_of_drop_vec (h : data.drop i = vec w body ++ t) :
    data.drop (i + w) = body ++ t := by
  rw [vec, List.append_assoc] at h
  exact drop_add_of_drop h (length_beBytes ..)

theorem drop_add_of_drop_vec (h : data.drop i = vec w body ++ t) :
    data.drop (i + w + body.length) = t :=
  drop_add_of_drop (drop_body_of_drop_vec h) rfl

/-- What a suffix begins with is within the bounds. -/
theorem add_length_le_of_drop {front : Bytes} (h : data.drop i = front ++ t)
    (hi : i ≤ data.length) : i + front.length ≤ data.length := by
  have hlen := congrArg List.length h
  rw [List.length_drop, List.length_append] at hlen
  omega

theorem le_length_of_drop {front : Bytes} (h : data.drop i = front ++ t) (hne : front ≠ []) :
    i ≤ data.length := by
  by_contra hgt
  rw [List.drop_of_length_le (by omega)] at h
  exact hne (List.append_eq_nil_iff.mp h.symm).1

theorem drop_eq_take (data : Bytes) (i n : Nat) :
    data.drop i = (data.drop i).take n ++ data.drop (i + n) := by
  rw [← List.drop_drop, List.take_append_drop]

/-- What is at an offset is the number that is read there. -/
theorem drop_eq_num (w : Nat) (data : Bytes) (i : Nat) (h : i + w ≤ data.length) :
    data.drop i = beBytes w (numAt w data i) ++ data.drop (i + w) := by
  have hlen : ((data.drop i).take w).length = w := by
    rw [List.length_take, List.length_drop]
    omega
  have hnum := beBytes_beNat ((data.drop i).take w)
  rw [hlen] at hnum
  rw [numAt, hnum, ← drop_eq_take]

/-- Where there are as many bytes as the length says there is a vector. -/
theorem drop_eq_vec (w : Nat) (data : Bytes) (i : Nat)
    (h : i + w + numAt w data i ≤ data.length) :
    ∃ body : Bytes, body.length = numAt w data i
      ∧ data.drop i = vec w body ++ data.drop (i + w + numAt w data i) := by
  refine ⟨(data.drop (i + w)).take (numAt w data i), ?_, ?_⟩
  · rw [List.length_take, List.length_drop]
    omega
  · have hlen : ((data.drop (i + w)).take (numAt w data i)).length = numAt w data i := by
      rw [List.length_take, List.length_drop]
      omega
    rw [vec, hlen, List.append_assoc, ← drop_eq_take, ← drop_eq_num w data i (by omega)]

/-! ## Reading them by index -/

theorem numAt_one {b : UInt8} (h : data[i]? = some b) : numAt 1 data i = b.toNat := by
  obtain ⟨hlt, rfl⟩ := List.getElem?_eq_some_iff.mp h
  rw [numAt, List.drop_eq_getElem_cons hlt, List.take_succ_cons, List.take_zero]
  exact Nat.zero_add _

theorem toNat_u16FromBe_slice (h : i + 2 ≤ data.length) :
    (u16FromBe (slice data i 2 h)).toNat = numAt 2 data i := by
  have hlt := numAt_lt 2 data i
  rw [u16FromBe, toList_slice, UInt16.toNat_ofNat']
  exact Nat.mod_eq_of_lt hlt

end Lib
