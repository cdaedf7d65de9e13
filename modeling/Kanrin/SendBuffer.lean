import Kanrin.Lib.SortedMap
import Kanrin.Control

/-!
# The send buffer and the replay cursor

`SendBuffer` and `Replay` of `kanrin-protocol/src/continuity.rs`. A send
buffer retains the encoded bytes of every data chunk until the peer
acknowledges it; a replay walks what is still retained, in order, onto a
replacement transport.

The byte accounting is a field (`accounted`), so `bufferedBytes` is the
total of what is held in every buffer that can be built. Lookups describe
the rest: `get?_push` and `get?_applyAck` say what each operation does to
every sequence, and `Replay.run_eq` says that the replay loop writes the
retained chunks from the cursor on, each once and in order.
-/

namespace Kanrin

open Lib

def defaultMaxBufferBytes : Nat := 16 * 1024 * 1024

structure SendBuffer where
  chunks : SortedMap UInt64 Bytes
  bufferedBytes : Nat
  maxBytes : Nat
  accounted : bufferedBytes = chunks.total List.length

namespace SendBuffer

theorem accounted_empty : 0 = (SortedMap.empty : SortedMap UInt64 Bytes).total List.length := rfl

def new (maxBytes : Nat) : SendBuffer where
  chunks := .empty
  bufferedBytes := 0
  maxBytes := maxBytes
  accounted := accounted_empty

def withDefaultCapacity : SendBuffer := new defaultMaxBufferBytes

def get? (b : SendBuffer) (seq : UInt64) : Option Bytes := b.chunks.get? seq

def isFull (b : SendBuffer) : Bool := b.maxBytes ≤ b.bufferedBytes

/-- The condition under which `push` admits `len` more bytes. -/
def Admits (b : SendBuffer) (len : Nat) : Prop :=
  b.chunks.isEmpty = true ∨ b.bufferedBytes + len ≤ b.maxBytes

instance (b : SendBuffer) (len : Nat) : Decidable (b.Admits len) :=
  inferInstanceAs (Decidable (_ ∨ _))

def push (b : SendBuffer) (seq : UInt64) (data : Bytes) : Result SendBuffer :=
  if !b.chunks.isEmpty && b.bufferedBytes + data.length > b.maxBytes then
    .error (.sendBufferFull b.bufferedBytes b.maxBytes)
  else
    .ok
      { chunks := b.chunks.insert seq data
        bufferedBytes := b.bufferedBytes - ((b.get? seq).map List.length).getD 0 + data.length
        maxBytes := b.maxBytes
        accounted := by
          have herase := SortedMap.total_erase List.length b.chunks seq
          rw [SortedMap.total_insert, b.accounted, get?]
          omega }

/-! ## Acknowledgement -/

-- `split_off(up_to + 1)` keeps the tail; at the top of the range nothing is left
def ackCumulative (b : SendBuffer) (upTo : UInt64) : Nat × SendBuffer :=
  let above : UInt64 → Bool := fun s =>
    match checkedSucc upTo with
    | some boundary => boundary ≤ s
    | none => false
  let removed := b.chunks.filter fun s => !above s
  (removed.size,
    { chunks := b.chunks.filter above
      bufferedBytes := b.bufferedBytes - removed.total List.length
      maxBytes := b.maxBytes
      accounted := by
        have hsplit := SortedMap.total_filter_add List.length b.chunks above
        have := b.accounted
        simp only [removed]
        omega })

/-- `chunks.remove(seq)`, with the bytes of a removed chunk released. -/
def remove (b : SendBuffer) (seq : UInt64) : SendBuffer where
  chunks := b.chunks.erase seq
  bufferedBytes := b.bufferedBytes - ((b.get? seq).map List.length).getD 0
  maxBytes := b.maxBytes
  accounted := by
    have herase := SortedMap.total_erase List.length b.chunks seq
    have := b.accounted
    simp only [get?]
    omega

def ackSelective (b : SendBuffer) : List UInt64 → Nat × SendBuffer
  | [] => (0, b)
  | seq :: seqs =>
      match b.get? seq with
      | some _ => ((b.remove seq).ackSelective seqs).map (· + 1) id
      | none => b.ackSelective seqs

def ackRange (b : SendBuffer) (start stop : UInt64) : Nat × SendBuffer :=
  if start > stop then (0, b)
  else b.ackSelective (b.chunks.keys.filter fun s => start ≤ s && s ≤ stop)

def ackRanges (b : SendBuffer) : List SackRange → Nat × SendBuffer
  | [] => (0, b)
  | r :: rs =>
      let (n, b') := b.ackRange r.start r.stop
      (b'.ackRanges rs).map (n + ·) id

def applyAck (b : SendBuffer) (nextExpected : UInt64) (ranges : List SackRange) :
    Nat × SendBuffer :=
  let (cumulative, b') :=
    match checkedPred nextExpected with
    | some upTo => b.ackCumulative upTo
    | none => (0, b)
  (b'.ackRanges ranges).map (cumulative + ·) id

/-- The sequences an acknowledgement releases. -/
def Covers (nextExpected : UInt64) (ranges : List SackRange) (s : UInt64) : Prop :=
  s < nextExpected ∨ ∃ r ∈ ranges, r.start ≤ s ∧ s ≤ r.stop

instance (nextExpected : UInt64) (ranges : List SackRange) (s : UInt64) :
    Decidable (Covers nextExpected ranges s) := inferInstanceAs (Decidable (_ ∨ _))

/-! ## What each operation does to a lookup -/

/-- A push succeeds exactly when the chunk is admitted. -/
theorem push_isOk_iff {b : SendBuffer} {seq : UInt64} {data : Bytes} :
    (∃ b', b.push seq data = .ok b') ↔ b.Admits data.length := by
  unfold push Admits
  cases b.chunks.isEmpty <;> simp
  split <;> simp <;> omega

theorem push_eq_ok {b b' : SendBuffer} {seq : UInt64} {data : Bytes}
    (h : b.push seq data = .ok b') :
    b.Admits data.length ∧ b'.chunks = b.chunks.insert seq data ∧ b'.maxBytes = b.maxBytes := by
  refine ⟨push_isOk_iff.mp ⟨b', h⟩, ?_⟩
  unfold push at h
  split at h
  · cases h
  · obtain rfl := Except.ok.inj h
    exact ⟨rfl, rfl⟩

theorem bufferedBytes_push {b b' : SendBuffer} {seq : UInt64} {data : Bytes}
    (h : b.push seq data = .ok b') (hnew : b.get? seq = none) :
    b'.bufferedBytes = b.bufferedBytes + data.length := by
  unfold push at h
  split at h
  · cases h
  · obtain rfl := Except.ok.inj h
    simp [hnew]

theorem get?_push {b b' : SendBuffer} {seq : UInt64} {data : Bytes}
    (h : b.push seq data = .ok b') (s : UInt64) :
    b'.get? s = if s = seq then some data else b.get? s := by
  rw [get?, (push_eq_ok h).2.1, SortedMap.get?_insert]
  rfl

@[simp] theorem get?_remove (b : SendBuffer) (seq s : UInt64) :
    (b.remove seq).get? s = if s = seq then none else b.get? s :=
  SortedMap.get?_erase s

theorem get?_ackCumulative (b : SendBuffer) (upTo s : UInt64) :
    (b.ackCumulative upTo).2.get? s = if s ≤ upTo then none else b.get? s := by
  have habove : ∀ h : s ≤ upTo, (b.ackCumulative upTo).2.get? s = none := by
    intro h
    simp only [ackCumulative, get?, SortedMap.get?_filter]
    cases hsucc : checkedSucc upTo with
    | none => simp
    | some boundary =>
        have hnot : ¬ boundary ≤ s := by
          have := checkedSucc_eq_some.mp hsucc
          rw [UInt64.le_iff_toNat_le] at h ⊢
          omega
        simp [hnot]
  split
  · exact habove ‹_›
  · rename_i hgt
    simp only [ackCumulative, get?, SortedMap.get?_filter]
    cases hsucc : checkedSucc upTo with
    | none =>
        have hmax := checkedSucc_eq_none.mp hsucc
        have := s.toNat_lt
        rw [hmax, UInt64.le_iff_toNat_le, toNat_u64Max] at hgt
        omega
    | some boundary =>
        have hle : boundary ≤ s := by
          have := checkedSucc_eq_some.mp hsucc
          rw [UInt64.le_iff_toNat_le] at hgt ⊢
          omega
        simp [hle]

theorem get?_ackSelective (b : SendBuffer) (seqs : List UInt64) (s : UInt64) :
    (b.ackSelective seqs).2.get? s = if s ∈ seqs then none else b.get? s := by
  induction seqs generalizing b with
  | nil => simp [ackSelective]
  | cons seq seqs ih =>
      unfold ackSelective
      cases hseq : b.get? seq with
      | some data =>
          simp only [Prod.map_snd, id, ih, get?_remove, List.mem_cons]
          by_cases h : s = seq <;> simp [h]
      | none =>
          simp only [ih, List.mem_cons]
          by_cases h : s = seq
          · simp [h, hseq]
          · simp [h]

theorem get?_ackRange (b : SendBuffer) (start stop s : UInt64) :
    (b.ackRange start stop).2.get? s = if start ≤ s ∧ s ≤ stop then none else b.get? s := by
  unfold ackRange
  split
  · rename_i hlt
    have hnot : ¬ (start ≤ s ∧ s ≤ stop) := fun h => absurd (h.1.trans h.2) (not_le.mpr hlt)
    rw [if_neg hnot]
  · rw [get?_ackSelective]
    simp only [List.mem_filter, Bool.and_eq_true, decide_eq_true_eq]
    by_cases hin : start ≤ s ∧ s ≤ stop
    · cases hget : b.get? s with
      | none => simp
      | some data =>
          have hkey : s ∈ b.chunks.keys := SortedMap.mem_keys.mpr ⟨data, hget⟩
          simp [hin, hkey]
    · simp [hin]

theorem get?_ackRanges (b : SendBuffer) (ranges : List SackRange) (s : UInt64) :
    (b.ackRanges ranges).2.get? s
      = if ∃ r ∈ ranges, r.start ≤ s ∧ s ≤ r.stop then none else b.get? s := by
  induction ranges generalizing b with
  | nil => simp [ackRanges]
  | cons r rs ih =>
      simp only [ackRanges, Prod.map_snd, id, ih, get?_ackRange, List.exists_mem_cons_iff]
      by_cases hr : r.start ≤ s ∧ s ≤ r.stop <;> simp [hr]

/-- Applying an acknowledgement releases exactly what it covers. -/
theorem get?_applyAck (b : SendBuffer) (next : UInt64) (ranges : List SackRange) (s : UInt64) :
    (b.applyAck next ranges).2.get? s = if Covers next ranges s then none else b.get? s := by
  simp only [applyAck, Covers, Prod.map_snd, id, get?_ackRanges]
  by_cases hr : ∃ r ∈ ranges, r.start ≤ s ∧ s ≤ r.stop
  · simp [hr]
  · simp only [hr, if_false, or_false]
    cases hpred : checkedPred next with
    | none =>
        have hzero : next = 0 := by
          unfold checkedPred at hpred
          split at hpred
          · assumption
          · cases hpred
        simp [hzero]
    | some upTo =>
        have hiff : s ≤ upTo ↔ s < next := by
          have := checkedPred_eq_some.mp hpred
          rw [UInt64.le_iff_toNat_le, UInt64.lt_iff_toNat_lt]
          omega
        simp only [get?_ackCumulative, hiff]

@[simp] theorem maxBytes_ackSelective (b : SendBuffer) (seqs : List UInt64) :
    (b.ackSelective seqs).2.maxBytes = b.maxBytes := by
  induction seqs generalizing b with
  | nil => rfl
  | cons seq seqs ih =>
      unfold ackSelective
      cases b.get? seq with
      | some data => exact ih (b.remove seq)
      | none => exact ih b

@[simp] theorem maxBytes_ackRanges (b : SendBuffer) (ranges : List SackRange) :
    (b.ackRanges ranges).2.maxBytes = b.maxBytes := by
  induction ranges generalizing b with
  | nil => rfl
  | cons r rs ih =>
      simp only [ackRanges, Prod.map_snd, id, ih]
      unfold ackRange
      split
      · rfl
      · exact maxBytes_ackSelective b _

@[simp] theorem maxBytes_applyAck (b : SendBuffer) (next : UInt64) (ranges : List SackRange) :
    (b.applyAck next ranges).2.maxBytes = b.maxBytes := by
  simp only [applyAck, Prod.map_snd, id, maxBytes_ackRanges]
  cases checkedPred next <;> rfl

end SendBuffer

/-! ## Replay -/

-- `next` is `none` once the cursor has run off the end of the sequence space
structure Replay where
  next : Option UInt64
  replayed : Nat
deriving DecidableEq

namespace Replay

def new : Replay := { next := some 0, replayed := 0 }

def nextChunk (r : Replay) (b : SendBuffer) : Option (UInt64 × Bytes) :=
  r.next.bind fun start => b.chunks.firstGE? start

def confirmSent (r : Replay) (seq : UInt64) : Replay :=
  { next := checkedSucc seq, replayed := r.replayed + 1 }

def isComplete (r : Replay) (b : SendBuffer) : Bool := (r.nextChunk b).isNone

/-- The loop every replay runs: take the next chunk, send it, confirm it,
until there is none. Returns what was sent. -/
def run (b : SendBuffer) : (fuel : Nat) → Replay → List (UInt64 × Bytes) × Replay
  | 0, r => ([], r)
  | fuel + 1, r =>
      match r.nextChunk b with
      | none => ([], r)
      | some (seq, data) => (run b fuel (r.confirmSent seq)).map ((seq, data) :: ·) id

/-- What is left for a cursor to send. -/
def remaining (b : SendBuffer) : Option UInt64 → List (UInt64 × Bytes)
  | none => []
  | some start => b.chunks.entries.filter fun e => start ≤ e.1

theorem remaining_zero (b : SendBuffer) : remaining b (some 0) = b.chunks.entries := by
  refine List.filter_eq_self.mpr ?_
  intro e _
  simp [UInt64.le_iff_toNat_le]

theorem nextChunk_eq_head? (r : Replay) (b : SendBuffer) :
    r.nextChunk b = (remaining b r.next).head? := by
  cases hnext : r.next with
  | none => simp [nextChunk, remaining, hnext]
  | some start => simp [nextChunk, remaining, hnext, SortedMap.firstGE?, List.head?_filter]

/-- Moving the cursor past the first chunk left leaves the rest. -/
theorem remaining_succ {b : SendBuffer} {cursor : Option UInt64} {seq : UInt64} {data : Bytes}
    {rest : List (UInt64 × Bytes)} (h : remaining b cursor = (seq, data) :: rest) :
    remaining b (checkedSucc seq) = rest := by
  cases cursor with
  | none => simp [remaining] at h
  | some start =>
      have hsorted : (remaining b (some start)).Pairwise fun a c => a.1 < c.1 :=
        b.chunks.sorted.filter _
      rw [h, List.pairwise_cons] at hsorted
      have hstart : start ≤ seq := by
        have hmem : (seq, data) ∈ remaining b (some start) := by rw [h]; exact List.mem_cons_self
        simpa [remaining] using (List.mem_filter.mp hmem).2
      cases hsucc : checkedSucc seq with
      | none =>
          have hmax := checkedSucc_eq_none.mp hsucc
          cases rest with
          | nil => rfl
          | cons e rest =>
              have hlt := UInt64.lt_iff_toNat_lt.mp (hsorted.1 e List.mem_cons_self)
              have := e.1.toNat_lt
              rw [hmax, toNat_u64Max] at hlt
              omega
      | some boundary =>
          have hnat := checkedSucc_eq_some.mp hsucc
          have hsub : remaining b (some boundary)
              = (remaining b (some start)).filter fun e => decide (boundary ≤ e.1) := by
            simp only [remaining, List.filter_filter]
            refine List.filter_congr ?_
            intro e _
            by_cases hb : boundary ≤ e.1
            · have : start ≤ e.1 := by
                rw [UInt64.le_iff_toNat_le] at hb hstart ⊢; omega
              simp [hb, this]
            · simp [hb]
          have hself : ¬ boundary ≤ seq := by rw [UInt64.le_iff_toNat_le]; omega
          rw [hsub, h, List.filter_cons, if_neg (by simpa using hself)]
          refine List.filter_eq_self.mpr ?_
          intro e he
          have hlt := UInt64.lt_iff_toNat_lt.mp (hsorted.1 e he)
          have : boundary ≤ e.1 := by rw [UInt64.le_iff_toNat_le]; simp only at hlt; omega
          simpa using this

/-- With as much fuel as there are chunks left, the loop sends them all, in
order, and is then complete. -/
theorem run_eq (b : SendBuffer) (fuel : Nat) {r : Replay}
    (hfuel : (remaining b r.next).length ≤ fuel) :
    (run b fuel r).1 = remaining b r.next ∧ (run b fuel r).2.isComplete b = true
      ∧ (run b fuel r).2.replayed = r.replayed + (remaining b r.next).length := by
  induction fuel generalizing r with
  | zero =>
      have hnil : remaining b r.next = [] := List.length_eq_zero_iff.mp (by omega)
      simp [run, hnil, isComplete, nextChunk_eq_head?]
  | succ fuel ih =>
      rw [run, nextChunk_eq_head?]
      cases hrem : remaining b r.next with
      | nil => simp [isComplete, nextChunk_eq_head?, hrem]
      | cons e rest =>
          have hrest : remaining b (r.confirmSent e.1).next = rest := remaining_succ hrem
          rw [hrem, List.length_cons] at hfuel
          obtain ⟨h1, h2, h3⟩ := ih (r := r.confirmSent e.1) (by rw [hrest]; omega)
          rw [hrest] at h1 h3
          simp only [List.head?_cons, Prod.map_fst, Prod.map_snd, id, h1, h2, h3,
            List.length_cons, true_and]
          have : (r.confirmSent e.1).replayed = r.replayed + 1 := rfl
          omega

/-- A replay from the start sends everything retained. -/
theorem run_new (b : SendBuffer) :
    (run b b.chunks.size new).1 = b.chunks.entries
      ∧ (run b b.chunks.size new).2.isComplete b = true := by
  have hnew : remaining b new.next = b.chunks.entries := remaining_zero b
  have h := run_eq b b.chunks.size (r := new) (by rw [hnew]; exact le_rfl)
  exact ⟨h.1.trans hnew, h.2.1⟩

end Replay

end Kanrin
