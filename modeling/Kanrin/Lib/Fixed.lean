import Mathlib.Order.Defs.LinearOrder
import Mathlib.Data.Vector.Basic
import Mathlib.Tactic.Linarith
import Mathlib.Tactic.Ring

/-!
# Fixed-width integers and byte strings

The machine-level vocabulary of the model: `u64` as `UInt64` with its
linear order and its checked operations, byte strings, fixed-size arrays,
and the big-endian encoding of a number in a given width with its two
round trips (`beNat_beBytes`, `beBytes_beNat`).
-/

namespace Lib

/-! ## The order on 64-bit words -/

instance linearOrderUInt64 : LinearOrder UInt64 where
  le_refl := UInt64.le_refl
  le_trans _ _ _ := UInt64.le_trans
  lt_iff_le_not_ge a b := by grind
  le_antisymm _ _ := UInt64.le_antisymm
  le_total := UInt64.le_total
  toDecidableLE := inferInstance
  toDecidableEq := inferInstance
  toDecidableLT := inferInstance

/-- The largest 64-bit word. -/
def u64Max : UInt64 := 0xFFFFFFFFFFFFFFFF

/-- `checked_add` of one: `none` at the top of the range. -/
def checkedSucc (a : UInt64) : Option UInt64 := if a = u64Max then none else some (a + 1)

/-- `checked_sub` of one: `none` at zero. -/
def checkedPred (a : UInt64) : Option UInt64 := if a = 0 then none else some (a - 1)

/-- `abs_diff`. -/
def absDiff (a b : UInt64) : UInt64 := if a < b then b - a else a - b

theorem toNat_u64Max : u64Max.toNat = 2 ^ 64 - 1 := rfl

theorem checkedSucc_eq_none {a : UInt64} : checkedSucc a = none ↔ a = u64Max := by
  simp [checkedSucc]

theorem checkedSucc_eq_some {a b : UInt64} :
    checkedSucc a = some b ↔ b.toNat = a.toNat + 1 := by
  have ha := a.toNat_lt
  have hb := b.toNat_lt
  simp only [checkedSucc, ← UInt64.toNat_inj, toNat_u64Max]
  split
  · simp only [reduceCtorEq, false_iff]; omega
  · rw [Option.some.injEq, ← UInt64.toNat_inj, UInt64.toNat_add, UInt64.toNat_one]
    omega

theorem checkedPred_eq_some {a b : UInt64} :
    checkedPred a = some b ↔ b.toNat + 1 = a.toNat := by
  have ha := a.toNat_lt
  simp only [checkedPred]
  split
  · simp_all
  · rename_i h
    have hpos : 0 < a.toNat := by
      rw [← UInt64.toNat_inj, UInt64.toNat_zero] at h; omega
    have hle : (1 : UInt64) ≤ a := by
      rw [UInt64.le_iff_toNat_le, UInt64.toNat_one]; exact hpos
    rw [Option.some.injEq, ← UInt64.toNat_inj, UInt64.toNat_sub_of_le _ _ hle, UInt64.toNat_one]
    omega

/-- Incrementing below the top does not wrap. -/
theorem toNat_succ_of_lt {a b : UInt64} (h : a < b) : (a + 1).toNat = a.toNat + 1 := by
  have hb := b.toNat_lt
  rw [UInt64.lt_iff_toNat_lt] at h
  rw [UInt64.toNat_add, UInt64.toNat_one]
  omega

/-! ## Byte strings -/

/-- A byte string (`Vec<u8>`, `&[u8]`). -/
abbrev Bytes := List UInt8

/-- A fixed-size byte array (`[u8; n]`). -/
abbrev ByteArr (n : Nat) := List.Vector UInt8 n

/-- `[0u8; n]`. -/
def zeroArr (n : Nat) : ByteArr n := List.Vector.replicate n 0

theorem length_pos_of_ne_zero {data : Bytes} (h : ¬ data.length = 0) : 0 < data.length :=
  Nat.pos_of_ne_zero h

/-- `data[pos..pos + n]` as an array. The bound is a proof obligation of the
caller, so an out-of-range slice cannot be written. -/
def slice (data : Bytes) (pos n : Nat) (h : pos + n ≤ data.length := by omega) : ByteArr n :=
  ⟨(data.drop pos).take n, by simp; omega⟩

@[simp] theorem toList_slice {data : Bytes} {pos n : Nat} (h : pos + n ≤ data.length) :
    (slice data pos n h).toList = (data.drop pos).take n := rfl

theorem ByteArr.toList_inj {n : Nat} {a b : ByteArr n} : a.toList = b.toList ↔ a = b :=
  Subtype.ext_iff.symm

/-- Reading back an array that was laid out after a prefix of known length. -/
theorem slice_of_append {n pos : Nat} {data p t : Bytes} {a : ByteArr n}
    (hdata : data = p ++ (a.toList ++ t)) (hpre : p.length = pos)
    (h : pos + n ≤ data.length) : slice data pos n h = a := by
  subst hdata
  rw [← ByteArr.toList_inj, toList_slice, List.drop_left' hpre,
    List.take_append_of_le_length (by simp), List.take_of_length_le (by simp)]

/-- Parts of known widths can be told apart when they are put together. -/
theorem flatten_inj_of_widths {parts parts' : List Bytes}
    (hwidths : parts.map List.length = parts'.map List.length) :
    parts.flatten = parts'.flatten ↔ parts = parts' :=
  (List.eq_iff_flatten_eq.trans (and_iff_left hwidths)).symm

/-! ## Big-endian numbers -/

/-- The low `w` base-256 digits of `n`, most significant first. -/
def beBytes : (w n : Nat) → Bytes
  | 0, _ => []
  | w + 1, n => UInt8.ofNat (n / 256 ^ w) :: beBytes w n

/-- The number a big-endian byte string denotes. -/
def beNat (bs : Bytes) : Nat := bs.foldl (fun acc b => acc * 256 + b.toNat) 0

@[simp] theorem length_beBytes (w n : Nat) : (beBytes w n).length = w := by
  induction w with
  | zero => rfl
  | succ w ih => simp [beBytes, ih]

theorem beNat_foldl (bs : Bytes) (acc : Nat) :
    bs.foldl (fun acc b => acc * 256 + b.toNat) acc = acc * 256 ^ bs.length + beNat bs := by
  induction bs generalizing acc with
  | nil => simp [beNat]
  | cons b bs ih =>
      simp only [beNat, List.foldl_cons, List.length_cons]
      rw [ih, ih (0 * 256 + b.toNat), Nat.pow_succ]
      ring_nf

theorem beNat_cons (b : UInt8) (bs : Bytes) :
    beNat (b :: bs) = b.toNat * 256 ^ bs.length + beNat bs := by
  simpa [beNat] using beNat_foldl bs b.toNat

theorem beNat_lt (bs : Bytes) : beNat bs < 256 ^ bs.length := by
  induction bs with
  | nil => simp [beNat]
  | cons b bs ih =>
      have hb := b.toNat_lt
      rw [beNat_cons, List.length_cons, Nat.pow_succ]
      nlinarith

/-- Reading a number back from its `w` digits gives it modulo `256 ^ w`. -/
theorem beNat_beBytes (w n : Nat) : beNat (beBytes w n) = n % 256 ^ w := by
  induction w with
  | zero => simp [beNat, beBytes, Nat.mod_one]
  | succ w ih =>
      have hpow : 256 ^ (w + 1) = 256 ^ w * 256 := pow_succ 256 w
      rw [beBytes, beNat_cons, ih, length_beBytes, UInt8.toNat_ofNat', hpow, Nat.mod_mul,
        Nat.add_comm, Nat.mul_comm]

theorem beNat_beBytes_of_lt {w n : Nat} (h : n < 256 ^ w) : beNat (beBytes w n) = n := by
  rw [beNat_beBytes, Nat.mod_eq_of_lt h]

/-- Writing out the number a byte string denotes gives the byte string. -/
theorem beBytes_beNat (bs : Bytes) : beBytes bs.length (beNat bs) = bs := by
  have digit : ∀ (w a r : Nat), beBytes w (a * 256 ^ w + r) = beBytes w r := by
    intro w
    induction w with
    | zero => intro a r; rfl
    | succ w ih =>
        intro a r
        have hpos : 0 < 256 ^ w := Nat.pow_pos (by omega)
        have hsplit : a * 256 ^ (w + 1) + r = (a * 256) * 256 ^ w + r := by
          rw [Nat.pow_succ]; ring
        rw [beBytes, beBytes, hsplit, ih, Nat.add_comm, Nat.add_mul_div_right _ _ hpos]
        refine congrArg (· :: beBytes w r) (UInt8.toNat_inj.mp ?_)
        simp
  induction bs with
  | nil => rfl
  | cons b bs ih =>
      have hlt := beNat_lt bs
      have hpos : 0 < 256 ^ bs.length := Nat.pow_pos (by omega)
      rw [beNat_cons, List.length_cons, beBytes, digit, ih, Nat.add_comm,
        Nat.add_mul_div_right _ _ hpos, Nat.div_eq_of_lt hlt]
      simp

/-- `to_be_bytes` of a `u64`. -/
def u64ToBe (a : UInt64) : ByteArr 8 := ⟨beBytes 8 a.toNat, length_beBytes ..⟩

/-- `from_be_bytes` of a `u64`. -/
def u64FromBe (a : ByteArr 8) : UInt64 := UInt64.ofNat (beNat a.toList)

/-- `to_be_bytes` of a `u16`. -/
def u16ToBe (a : UInt16) : ByteArr 2 := ⟨beBytes 2 a.toNat, length_beBytes ..⟩

/-- `from_be_bytes` of a `u16`. -/
def u16FromBe (a : ByteArr 2) : UInt16 := UInt16.ofNat (beNat a.toList)

/-- `to_be_bytes` of a `u32`. -/
def u32ToBe (a : UInt32) : ByteArr 4 := ⟨beBytes 4 a.toNat, length_beBytes ..⟩

/-- `from_be_bytes` of a `u32`. -/
def u32FromBe (a : ByteArr 4) : UInt32 := UInt32.ofNat (beNat a.toList)

@[simp] theorem u64FromBe_toBe (a : UInt64) : u64FromBe (u64ToBe a) = a := by
  have ha := a.toNat_lt
  have hread : beNat (u64ToBe a).toList = a.toNat := beNat_beBytes_of_lt (by omega)
  rw [u64FromBe, hread, UInt64.ofNat_toNat]

@[simp] theorem u16FromBe_toBe (a : UInt16) : u16FromBe (u16ToBe a) = a := by
  have ha := a.toNat_lt
  have hread : beNat (u16ToBe a).toList = a.toNat := beNat_beBytes_of_lt (by omega)
  rw [u16FromBe, hread, UInt16.ofNat_toNat]

@[simp] theorem u32FromBe_toBe (a : UInt32) : u32FromBe (u32ToBe a) = a := by
  have ha := a.toNat_lt
  have hread : beNat (u32ToBe a).toList = a.toNat := beNat_beBytes_of_lt (by omega)
  rw [u32FromBe, hread, UInt32.ofNat_toNat]

theorem beBytes_beNat_toList {n : Nat} (a : ByteArr n) :
    beBytes n (beNat a.toList) = a.toList := by
  have hread := beBytes_beNat a.toList
  rwa [a.toList_length] at hread

@[simp] theorem u64ToBe_fromBe (a : ByteArr 8) : u64ToBe (u64FromBe a) = a := by
  have hlt : beNat a.toList < 2 ^ 64 := by simpa using beNat_lt a.toList
  rw [← ByteArr.toList_inj, u64ToBe, u64FromBe, UInt64.toNat_ofNat', Nat.mod_eq_of_lt hlt]
  exact beBytes_beNat_toList a

@[simp] theorem u16ToBe_fromBe (a : ByteArr 2) : u16ToBe (u16FromBe a) = a := by
  have hlt : beNat a.toList < 2 ^ 16 := by simpa using beNat_lt a.toList
  rw [← ByteArr.toList_inj, u16ToBe, u16FromBe, UInt16.toNat_ofNat', Nat.mod_eq_of_lt hlt]
  exact beBytes_beNat_toList a

@[simp] theorem u32ToBe_fromBe (a : ByteArr 4) : u32ToBe (u32FromBe a) = a := by
  have hlt : beNat a.toList < 2 ^ 32 := by simpa using beNat_lt a.toList
  rw [← ByteArr.toList_inj, u32ToBe, u32FromBe, UInt32.toNat_ofNat', Nat.mod_eq_of_lt hlt]
  exact beBytes_beNat_toList a

theorem u16ToBe_injective {a b : UInt16} (h : u16ToBe a = u16ToBe b) : a = b := by
  rw [← u16FromBe_toBe a, h, u16FromBe_toBe]

theorem u64ToBe_injective {a b : UInt64} (h : u64ToBe a = u64ToBe b) : a = b := by
  rw [← u64FromBe_toBe a, h, u64FromBe_toBe]

theorem u64ToBe_inj {a b : UInt64} : u64ToBe a = u64ToBe b ↔ a = b :=
  ⟨u64ToBe_injective, congrArg u64ToBe⟩

end Lib
