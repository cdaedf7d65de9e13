import Kanrin.Lib.Fixed

/-!
# Readers

A reader takes a value off the front of a byte string and leaves the rest.
`Reads encode ok read`: it takes exactly the encodings of the values that are
`ok`, whatever follows them. One value after another, and a number of values
one after another, are read in the same sense.
-/

namespace Lib

universe u

variable {α β : Type u}

abbrev Reader (α : Type u) := Bytes → Option (α × Bytes)

/-- What is read is what was encoded, and the rest is what came behind it. -/
def Reads (encode : α → Bytes) (ok : α → Prop) (read : Reader α) : Prop :=
  ∀ b a t, read b = some (a, t) ↔ ok a ∧ b = encode a ++ t

/-- What is read first, and what becomes of the rest. -/
theorem Reads.bind_eq_some_iff {encode : α → Bytes} {ok : α → Prop} {read : Reader α}
    (h : Reads encode ok read) {f : α × Bytes → Option β} {b : Bytes} {c : β} :
    (read b >>= f) = some c ↔ ∃ a s, (ok a ∧ b = encode a ++ s) ∧ f (a, s) = some c := by
  rw [Option.bind_eq_bind, Option.bind_eq_some_iff, Prod.exists]
  exact exists₂_congr fun a s => and_congr_left fun _ => h b a s

/-! ## Bytes and numbers -/

/-- `n` bytes. -/
def readBytes (n : Nat) : Reader Bytes := fun b =>
  if n ≤ b.length then some (b.take n, b.drop n) else none

theorem reads_readBytes (n : Nat) : Reads id (·.length = n) (readBytes n) := by
  intro b a t
  unfold readBytes
  split
  · rename_i hn
    rw [Option.some.injEq, Prod.mk.injEq]
    constructor
    · rintro ⟨rfl, rfl⟩
      exact ⟨List.length_take_of_le hn, (List.take_append_drop n b).symm⟩
    · rintro ⟨rfl, rfl⟩
      exact ⟨List.take_left, List.drop_left⟩
  · rename_i hn
    refine iff_of_false (by simp) ?_
    rintro ⟨rfl, rfl⟩
    exact hn (by simp)

/-- An array of `n` bytes. -/
def readArr (n : Nat) : Reader (ByteArr n) := fun b =>
  if h : 0 + n ≤ b.length then some (slice b 0 n h, b.drop n) else none

theorem reads_readArr (n : Nat) : Reads List.Vector.toList (fun _ => True) (readArr n) := by
  intro b a t
  have hbytes := reads_readBytes n b a.toList t
  unfold readBytes at hbytes
  unfold readArr
  by_cases hn : 0 + n ≤ b.length
  · rw [dif_pos hn, Option.some.injEq, Prod.mk.injEq, ← ByteArr.toList_inj, toList_slice,
      List.drop_zero]
    rw [if_pos (by omega), Option.some.injEq, Prod.mk.injEq] at hbytes
    rw [hbytes, and_iff_right a.toList_length, true_and]
    rfl
  · rw [dif_neg hn]
    rw [if_neg (by omega)] at hbytes
    refine iff_of_false (by simp) ?_
    rintro ⟨-, hb⟩
    exact absurd (hbytes.mpr ⟨a.toList_length, hb⟩) (by simp)

/-- A big-endian `u16`. -/
def readU16 : Reader UInt16 := fun b => (readArr 2 b).map fun p => (u16FromBe p.1, p.2)

/-- A big-endian `u32`. -/
def readU32 : Reader UInt32 := fun b => (readArr 4 b).map fun p => (u32FromBe p.1, p.2)

/-- Reading what stands for a value by a pair of inverse functions. -/
theorem Reads.map {encode : α → Bytes} {ok : α → Prop} {read : Reader α}
    (h : Reads encode ok read) {f : α → β} {g : β → α} (hfg : ∀ b, f (g b) = b)
    (hgf : ∀ a, g (f a) = a) :
    Reads (fun b => encode (g b)) (fun b => ok (g b))
      fun s => (read s).map fun p => (f p.1, p.2) := by
  intro s b t
  rw [← h s (g b) t, Option.map_eq_some_iff]
  constructor
  · rintro ⟨⟨a, t'⟩, hread, heq⟩
    obtain ⟨rfl, rfl⟩ := Prod.mk.inj heq
    rw [hread, hgf]
  · intro hread
    exact ⟨(g b, t), hread, by rw [hfg]⟩

theorem reads_readU16 : Reads (fun a => (u16ToBe a).toList) (fun _ => True) readU16 :=
  (reads_readArr 2).map u16FromBe_toBe u16ToBe_fromBe

theorem reads_readU32 : Reads (fun a => (u32ToBe a).toList) (fun _ => True) readU32 :=
  (reads_readArr 4).map u32FromBe_toBe u32ToBe_fromBe

/-! ## One after another -/

/-- `n` values of one kind. -/
def readMany (read : Reader α) : Nat → Reader (List α)
  | 0, b => some ([], b)
  | n + 1, b => do
      let (a, b) ← read b
      let (as, b) ← readMany read n b
      return (a :: as, b)

theorem Reads.many {encode : α → Bytes} {ok : α → Prop} {read : Reader α}
    (h : Reads encode ok read) (n : Nat) :
    Reads (·.flatMap encode) (fun l => l.length = n ∧ ∀ a ∈ l, ok a) (readMany read n) := by
  induction n with
  | zero =>
      intro b l t
      rw [readMany, Option.some.injEq, Prod.mk.injEq]
      constructor
      · rintro ⟨rfl, rfl⟩
        exact ⟨⟨rfl, fun _ ha => nomatch ha⟩, rfl⟩
      · rintro ⟨⟨hlen, -⟩, hb⟩
        obtain rfl := List.length_eq_zero_iff.mp hlen
        exact ⟨rfl, hb⟩
  | succ n ih =>
      intro b l t
      simp only [readMany, h.bind_eq_some_iff, ih.bind_eq_some_iff, Option.pure_def,
        Option.some.injEq, Prod.mk.injEq]
      constructor
      · rintro ⟨a, s, ⟨ha, rfl⟩, as, s', ⟨⟨hlen, has⟩, rfl⟩, rfl, rfl⟩
        refine ⟨⟨congrArg (· + 1) hlen, List.forall_mem_cons.mpr ⟨ha, has⟩⟩, ?_⟩
        rw [List.flatMap_cons, List.append_assoc]
      · rintro ⟨⟨hlen, hall⟩, rfl⟩
        cases l with
        | nil => exact absurd hlen (Nat.succ_ne_zero n).symm
        | cons a as =>
            obtain ⟨ha, has⟩ := List.forall_mem_cons.mp hall
            refine ⟨a, as.flatMap encode ++ t, ⟨ha, ?_⟩, as, t,
              ⟨⟨Nat.succ.inj hlen, has⟩, rfl⟩, rfl, rfl⟩
            rw [List.flatMap_cons, List.append_assoc]

end Lib
