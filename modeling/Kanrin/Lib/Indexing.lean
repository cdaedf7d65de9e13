import Kanrin.Lib.Fixed

/-!
# Indexing that may fail

Reading a byte string the way Rust reads a slice: an index, a range or a
fixed-size conversion that does not fit panics, which is `none` here. Each
lemma says that under its bound nothing fails, and that what is read is
what `slice` and `drop` read.
-/

namespace Lib

/-- `&data[lo..hi]`. -/
def range? (data : Bytes) (lo hi : Nat) : Option Bytes :=
  if lo ≤ hi ∧ hi ≤ data.length then some ((data.drop lo).take (hi - lo)) else none

/-- `try_into().unwrap()`. -/
def toArray? (n : Nat) (bytes : Bytes) : Option (ByteArr n) :=
  if h : bytes.length = n then some ⟨bytes, h⟩ else none

/-- `data[lo..hi].try_into().unwrap()`. -/
def array? (n : Nat) (data : Bytes) (lo hi : Nat) : Option (ByteArr n) :=
  (range? data lo hi).bind (toArray? n)

/-- `[data[i], data[j], ...]`. -/
def bytes? (n : Nat) (data : Bytes) (indices : List Nat) : Option (ByteArr n) :=
  (indices.mapM fun i => data[i]?).bind (toArray? n)

theorem range?_eq {data : Bytes} {lo hi : Nat} (n : Nat) (hhi : hi = lo + n)
    (hle : hi ≤ data.length) : range? data lo hi = some ((data.drop lo).take n) := by
  subst hhi
  rw [range?, if_pos ⟨Nat.le_add_right lo n, hle⟩, Nat.add_sub_cancel_left]

theorem toArray?_slice {data : Bytes} {lo n : Nat} (h : lo + n ≤ data.length) :
    toArray? n ((data.drop lo).take n) = some (slice data lo n h) := by
  rw [toArray?, dif_pos]
  rfl

theorem array?_eq {n : Nat} {data : Bytes} {lo hi : Nat} (hhi : hi = lo + n)
    (h : lo + n ≤ data.length) : array? n data lo hi = some (slice data lo n h) := by
  rw [array?, range?_eq n hhi (hhi ▸ h), Option.bind_some, toArray?_slice h]

theorem mapM_range' (data : Bytes) (lo : Nat) {n : Nat} (h : lo + n ≤ data.length) :
    (List.range' lo n).mapM (fun i => data[i]?) = some ((data.drop lo).take n) := by
  induction n generalizing lo with
  | zero => rfl
  | succ n ih =>
      have hlt : lo < data.length := by omega
      rw [List.range'_succ, List.mapM_cons, List.getElem?_eq_getElem hlt,
        ih (lo + 1) (by omega), List.drop_eq_getElem_cons hlt, List.take_succ_cons]
      rfl

/-- Consecutive bytes, taken one by one. -/
theorem bytes?_eq {n : Nat} {data : Bytes} {indices : List Nat} (lo : Nat)
    (hindices : indices = List.range' lo n) (h : lo + n ≤ data.length) :
    bytes? n data indices = some (slice data lo n h) := by
  rw [bytes?, hindices, mapM_range' data lo h, Option.bind_some, toArray?_slice h]

/-! ## Chunks -/

/-- `chunks_exact`. -/
def chunksExact (n : Nat) (data : Bytes) : List Bytes :=
  List.ofFn fun i : Fin (data.length / n) => (data.drop (i * n)).take n

section
universe u v
variable {α : Type u} {β : Type v}

theorem mapM_ofFn {n : Nat} {f : α → Option β} {g : Fin n → α} {h : Fin n → β}
    (hf : ∀ i, f (g i) = some (h i)) : (List.ofFn g).mapM f = some (List.ofFn h) := by
  induction n with
  | zero => rfl
  | succ n ih =>
      rw [List.ofFn_succ, List.ofFn_succ, List.mapM_cons, hf 0, ih fun i => hf i.succ]
      rfl

/-- What is read off every chunk. -/
theorem mapM_chunksExact {n count : Nat} (hn : 0 < n) {data : Bytes}
    (hlen : data.length = count * n) {f : Bytes → Option β} {h : Fin count → β}
    (hf : ∀ i : Fin count, f ((data.drop (i * n)).take n) = some (h i)) :
    (chunksExact n data).mapM f = some (List.ofFn h) := by
  have hcount : data.length / n = count := by rw [hlen, Nat.mul_div_cancel _ hn]
  subst hcount
  exact mapM_ofFn hf

end

/-- The chunks make up the bytes they were cut from. -/
theorem flatten_ofFn_take (n count : Nat) (data : Bytes) :
    (List.ofFn fun i : Fin count => (data.drop (i * n)).take n).flatten
      = data.take (count * n) := by
  induction count with
  | zero => simp
  | succ count ih =>
      rw [List.ofFn_succ_last, List.flatten_append, Nat.succ_mul, List.take_add]
      simp only [Fin.val_castSucc, Fin.val_last, List.flatten_singleton]
      rw [ih]

/-! ## Parts of the input -/

theorem infix_take_drop (data : Bytes) (lo n : Nat) : (data.drop lo).take n <:+: data :=
  (List.take_prefix n _).isInfix.trans (List.drop_suffix lo data).isInfix

end Lib
