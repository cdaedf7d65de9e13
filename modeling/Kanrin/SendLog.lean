import Kanrin.Lib.History
import Kanrin.Lib.Run
import Kanrin.ReceiveQueue
import Kanrin.SendBuffer

/-!
# The send buffer over its calls

`SendBuffer` of `continuity.rs` once more, as the source has it: a record
of three fields with nothing known about them, in which the subtraction
from `buffered_bytes` stops the program (`none`) where it would underflow.
`push_toRaw` and its siblings say that the structure of the same name,
which carries its accounting, does the same, and never stops.

`SendLog` keeps every call and what came of it. The chunks held are read
off the calls alone: the latest accepted push of each sequence that no
acknowledgement has settled (`LatestPush`).
-/

namespace Kanrin

open Lib

structure RawSendBuffer where
  chunks : SortedMap UInt64 Bytes
  bufferedBytes : Nat
  maxBytes : Nat

namespace RawSendBuffer

open RawReceiveBuffer (checkedSub)

def new (maxBytes : Nat) : RawSendBuffer where
  chunks := .empty
  bufferedBytes := 0
  maxBytes := maxBytes

-- `buffered_bytes + data.len()` cannot overflow: it is all in memory
def push (b : RawSendBuffer) (sequence : UInt64) (data : Bytes) :
    Option (Result Unit × RawSendBuffer) :=
  if !b.chunks.isEmpty && b.bufferedBytes + data.length > b.maxBytes then
    some (.error (.sendBufferFull b.bufferedBytes b.maxBytes), b)
  else do
    let chunks := b.chunks.insert sequence data
    let bufferedBytes ← match b.chunks.get? sequence with
      | some old => checkedSub b.bufferedBytes old.length
      | none => some b.bufferedBytes
    return (.ok (), { b with chunks, bufferedBytes := bufferedBytes + data.length })

def ackCumulative (b : RawSendBuffer) (upTo : UInt64) : Option (Nat × RawSendBuffer) := do
  let (removed, retained) := match checkedSucc upTo with
    | some boundary => b.chunks.splitOff boundary
    | none => (b.chunks, .empty)
  let bufferedBytes ← checkedSub b.bufferedBytes (removed.total List.length)
  return (removed.size, { b with chunks := retained, bufferedBytes })

def ackSelective (b : RawSendBuffer) : List UInt64 → Option (Nat × RawSendBuffer)
  | [] => some (0, b)
  | seq :: seqs =>
      match b.chunks.get? seq with
      | some chunk => do
          let bufferedBytes ← checkedSub b.bufferedBytes chunk.length
          let b := { b with chunks := b.chunks.erase seq, bufferedBytes }
          let (removed, b) ← b.ackSelective seqs
          return (removed + 1, b)
      | none => b.ackSelective seqs

def ackRange (b : RawSendBuffer) (start stop : UInt64) : Option (Nat × RawSendBuffer) :=
  if start > stop then some (0, b)
  else b.ackSelective (b.chunks.keys.filter fun s => start ≤ s && s ≤ stop)

def ackRanges (b : RawSendBuffer) : List SackRange → Option (Nat × RawSendBuffer)
  | [] => some (0, b)
  | r :: rs => do
      let (n, b) ← b.ackRange r.start r.stop
      let (m, b) ← b.ackRanges rs
      return (n + m, b)

def applyAck (b : RawSendBuffer) (nextExpected : UInt64) (ranges : List SackRange) :
    Option (Nat × RawSendBuffer) := do
  let (cumulative, b) ← match checkedPred nextExpected with
    | some upTo => b.ackCumulative upTo
    | none => some (0, b)
  let (n, b) ← b.ackRanges ranges
  return (cumulative + n, b)

/-- The chunks that are left, in the order of the map. -/
def unacked (b : RawSendBuffer) : List (UInt64 × Bytes) := b.chunks.entries

def len (b : RawSendBuffer) : Nat := b.chunks.size

end RawSendBuffer

/-! ## The two buffers do the same -/

namespace SendBuffer

open RawReceiveBuffer (checkedSub)

def toRaw (b : SendBuffer) : RawSendBuffer where
  chunks := b.chunks
  bufferedBytes := b.bufferedBytes
  maxBytes := b.maxBytes

/-- What is held can be taken out of the account. -/
theorem checkedSub_held {b : SendBuffer} {seq : UInt64} {chunk : Bytes}
    (h : b.chunks.get? seq = some chunk) :
    checkedSub b.bufferedBytes chunk.length = some (b.bufferedBytes - chunk.length) := by
  refine if_pos ?_
  rw [b.accounted]
  exact SortedMap.le_total List.length h

theorem push_toRaw (b : SendBuffer) (seq : UInt64) (data : Bytes) :
    b.toRaw.push seq data = some (match b.push seq data with
      | .ok b' => (.ok (), b'.toRaw)
      | .error e => (.error e, b.toRaw)) := by
  unfold RawSendBuffer.push push
  by_cases hfull : (!b.chunks.isEmpty && b.bufferedBytes + data.length > b.maxBytes) = true
  · rw [if_pos hfull]
    exact if_pos hfull
  · rw [if_neg hfull]
    refine (if_neg hfull).trans ?_
    cases hold : b.chunks.get? seq with
    | none =>
        simp only [toRaw, get?, hold, Option.map_none, Option.getD_none, Nat.sub_zero]
        rfl
    | some old =>
        simp only [toRaw, get?, hold, checkedSub_held hold, Option.map_some, Option.getD_some]
        rfl

/-- What `ack_cumulative` keeps: nothing, once the space is used up. -/
def aboveCursor (boundary : Option UInt64) (s : UInt64) : Bool :=
  match boundary with
  | some boundary => boundary ≤ s
  | none => false

theorem ackCumulative_toRaw (b : SendBuffer) (upTo : UInt64) :
    b.toRaw.ackCumulative upTo = some ((b.ackCumulative upTo).map id toRaw) := by
  have hle : ∀ p : UInt64 → Bool, checkedSub b.bufferedBytes ((b.chunks.filter p).total List.length)
      = some (b.bufferedBytes - (b.chunks.filter p).total List.length) := by
    intro p
    refine if_pos ?_
    rw [b.accounted, ← SortedMap.total_filter_add List.length b.chunks p]
    exact Nat.le_add_right _ _
  have hsplit : (match checkedSucc upTo with
      | some boundary => b.chunks.splitOff boundary
      | none => (b.chunks, .empty))
      = (b.chunks.filter fun s => !aboveCursor (checkedSucc upTo) s,
          b.chunks.filter (aboveCursor (checkedSucc upTo))) := by
    cases checkedSucc upTo with
    | some boundary =>
        have hbelow : (fun s : UInt64 => decide (s < boundary))
            = fun s => !decide (boundary ≤ s) := by
          funext s
          rw [← decide_not, decide_eq_decide, not_le]
        show b.chunks.splitOff boundary = _
        rw [SortedMap.splitOff, hbelow]
        rfl
    | none =>
        have hall : b.chunks.filter (fun _ => !false) = b.chunks := SortedMap.filter_true b.chunks
        have hno : b.chunks.filter (fun _ => false) = .empty := SortedMap.filter_false b.chunks
        exact (Prod.ext hall hno).symm
  show (match (match checkedSucc upTo with
      | some boundary => b.chunks.splitOff boundary
      | none => (b.chunks, .empty)) with
    | (removed, retained) => (checkedSub b.bufferedBytes (removed.total List.length)).bind
        fun bufferedBytes => some (removed.size,
          ({ chunks := retained, bufferedBytes, maxBytes := b.maxBytes } : RawSendBuffer))) = _
  rw [hsplit]
  dsimp only
  rw [hle]
  rfl

theorem ackSelective_toRaw (b : SendBuffer) (seqs : List UInt64) :
    b.toRaw.ackSelective seqs = some ((b.ackSelective seqs).map id toRaw) := by
  induction seqs generalizing b with
  | nil => rfl
  | cons seq seqs ih =>
      unfold RawSendBuffer.ackSelective ackSelective
      cases hget : b.chunks.get? seq with
      | none =>
          simp only [toRaw, get?, hget]
          exact ih b
      | some chunk =>
          have hremove : (b.remove seq).toRaw = { b.toRaw with
              chunks := b.chunks.erase seq
              bufferedBytes := b.bufferedBytes - chunk.length } := by
            simp only [toRaw, remove, get?, hget, Option.map_some, Option.getD_some]
          have hrest := ih (b.remove seq)
          rw [hremove] at hrest
          simp only [toRaw, get?, hget, checkedSub_held hget] at hrest ⊢
          show (RawSendBuffer.ackSelective _ seqs).bind _ = _
          rw [hrest]
          rfl

theorem ackRange_toRaw (b : SendBuffer) (start stop : UInt64) :
    b.toRaw.ackRange start stop = some ((b.ackRange start stop).map id toRaw) := by
  unfold RawSendBuffer.ackRange ackRange
  split
  · rfl
  · exact ackSelective_toRaw ..

theorem ackRanges_toRaw (b : SendBuffer) (ranges : List SackRange) :
    b.toRaw.ackRanges ranges = some ((b.ackRanges ranges).map id toRaw) := by
  induction ranges generalizing b with
  | nil => rfl
  | cons r rs ih =>
      unfold RawSendBuffer.ackRanges ackRanges
      rw [ackRange_toRaw]
      show (RawSendBuffer.ackRanges (b.ackRange r.start r.stop).2.toRaw rs).bind _ = _
      rw [ih]
      rfl

theorem applyAck_toRaw (b : SendBuffer) (nextExpected : UInt64) (ranges : List SackRange) :
    b.toRaw.applyAck nextExpected ranges
      = some ((b.applyAck nextExpected ranges).map id toRaw) := by
  unfold RawSendBuffer.applyAck applyAck
  cases checkedPred nextExpected with
  | some upTo =>
      dsimp only
      rw [ackCumulative_toRaw]
      show (RawSendBuffer.ackRanges (b.ackCumulative upTo).2.toRaw ranges).bind _ = _
      rw [ackRanges_toRaw]
      rfl
  | none =>
      show (RawSendBuffer.ackRanges b.toRaw ranges).bind _ = _
      rw [ackRanges_toRaw]
      rfl

/-! ## Calls -/

inductive Op where
  | push (sequence : UInt64) (data : Bytes)
  | ackCumulative (upTo : UInt64)
  | ackSelective (sequences : List UInt64)
  | ackRange (start stop : UInt64)
  | applyAck (nextExpected : UInt64) (ranges : List SackRange)

/-- What a call returns. -/
inductive Outcome where
  | pushed (r : Result Unit)
  | removed (n : Nat)

def Op.Acknowledges : Op → UInt64 → Prop
  | .push .., _ => False
  | .ackCumulative upTo, s => s ≤ upTo
  | .ackSelective sequences, s => s ∈ sequences
  | .ackRange start stop, s => start ≤ s ∧ s ≤ stop
  | .applyAck nextExpected ranges, s => Covers nextExpected ranges s

instance (op : Op) (s : UInt64) : Decidable (op.Acknowledges s) :=
  match op with
  | .push .. => isFalse id
  | .ackCumulative upTo => inferInstanceAs (Decidable (s ≤ upTo))
  | .ackSelective sequences => inferInstanceAs (Decidable (s ∈ sequences))
  | .ackRange start stop => inferInstanceAs (Decidable (start ≤ s ∧ s ≤ stop))
  | .applyAck nextExpected ranges => inferInstanceAs (Decidable (Covers nextExpected ranges s))

def call (b : SendBuffer) : Op → Outcome × SendBuffer
  | .push sequence data =>
      match b.push sequence data with
      | .ok b' => (.pushed (.ok ()), b')
      | .error e => (.pushed (.error e), b)
  | .ackCumulative upTo => (b.ackCumulative upTo).map .removed id
  | .ackSelective sequences => (b.ackSelective sequences).map .removed id
  | .ackRange start stop => (b.ackRange start stop).map .removed id
  | .applyAck nextExpected ranges => (b.applyAck nextExpected ranges).map .removed id

end SendBuffer

namespace RawSendBuffer

open SendBuffer (Op Outcome)

def call (b : RawSendBuffer) : Op → Option (Outcome × RawSendBuffer)
  | .push sequence data => (b.push sequence data).map (.map .pushed id)
  | .ackCumulative upTo => (b.ackCumulative upTo).map (.map .removed id)
  | .ackSelective sequences => (b.ackSelective sequences).map (.map .removed id)
  | .ackRange start stop => (b.ackRange start stop).map (.map .removed id)
  | .applyAck nextExpected ranges => (b.applyAck nextExpected ranges).map (.map .removed id)

end RawSendBuffer

namespace SendBuffer

theorem call_toRaw (b : SendBuffer) (op : Op) :
    b.toRaw.call op = some ((b.call op).map id toRaw) := by
  cases op with
  | push sequence data =>
      show (b.toRaw.push sequence data).map _ = _
      rw [push_toRaw, call]
      cases b.push sequence data with
      | ok b' => rfl
      | error e => rfl
  | ackCumulative upTo =>
      show (b.toRaw.ackCumulative upTo).map _ = _
      rw [ackCumulative_toRaw]
      rfl
  | ackSelective sequences =>
      show (b.toRaw.ackSelective sequences).map _ = _
      rw [ackSelective_toRaw]
      rfl
  | ackRange start stop =>
      show (b.toRaw.ackRange start stop).map _ = _
      rw [ackRange_toRaw]
      rfl
  | applyAck nextExpected ranges =>
      show (b.toRaw.applyAck nextExpected ranges).map _ = _
      rw [applyAck_toRaw]
      rfl

/-! ## What an acknowledgement removes -/

/-- So many chunks are gone, and nothing has come in. -/
structure Releases (b : SendBuffer) (r : Nat × SendBuffer) : Prop where
  counted : r.1 + r.2.chunks.size = b.chunks.size
  lighter : r.2.bufferedBytes ≤ b.bufferedBytes
  cap : r.2.maxBytes = b.maxBytes
  kept : ∀ s data, r.2.get? s = some data → b.get? s = some data

theorem Releases.none (b : SendBuffer) : b.Releases (0, b) :=
  ⟨Nat.zero_add _, Nat.le_refl _, rfl, fun _ _ => id⟩

theorem Releases.trans {b b' : SendBuffer} {n : Nat} {r : Nat × SendBuffer}
    (first : b.Releases (n, b')) (second : b'.Releases r) : b.Releases (r.map (n + ·) id) where
  counted := by
    have h := first.counted
    have h' := second.counted
    simp only [Prod.map_fst, Prod.map_snd, id] at h h' ⊢
    omega
  lighter := second.lighter.trans first.lighter
  cap := second.cap.trans first.cap
  kept s data h := first.kept s data (second.kept s data h)

theorem ackCumulative_releases (b : SendBuffer) (upTo : UInt64) :
    b.Releases (b.ackCumulative upTo) where
  counted := by
    rw [Nat.add_comm]
    exact SortedMap.size_filter_add b.chunks _
  lighter := Nat.sub_le _ _
  cap := rfl
  kept s data h := by
    rw [get?_ackCumulative] at h
    split at h
    · cases h
    · exact h

theorem remove_releases {b : SendBuffer} {seq : UInt64} {chunk : Bytes}
    (h : b.get? seq = some chunk) : b.Releases (1, b.remove seq) where
  counted := by
    rw [Nat.add_comm]
    exact SortedMap.size_erase_of_get? h
  lighter := Nat.sub_le _ _
  cap := rfl
  kept s data hs := by
    rw [get?_remove] at hs
    split at hs
    · cases hs
    · exact hs

theorem ackSelective_releases (b : SendBuffer) (seqs : List UInt64) :
    b.Releases (b.ackSelective seqs) := by
  induction seqs generalizing b with
  | nil => exact .none b
  | cons seq seqs ih =>
      unfold ackSelective
      cases hget : b.get? seq with
      | none => exact ih b
      | some chunk =>
          have hrest := (remove_releases hget).trans (ih (b.remove seq))
          have hcomm : (1 + ·) = (· + 1) := funext (Nat.add_comm 1)
          rwa [hcomm] at hrest

theorem ackRange_releases (b : SendBuffer) (start stop : UInt64) :
    b.Releases (b.ackRange start stop) := by
  unfold ackRange
  split
  · exact .none b
  · exact ackSelective_releases ..

theorem ackRanges_releases (b : SendBuffer) (ranges : List SackRange) :
    b.Releases (b.ackRanges ranges) := by
  induction ranges generalizing b with
  | nil => exact .none b
  | cons r rs ih => exact (ackRange_releases b r.start r.stop).trans (ih _)

theorem applyAck_releases (b : SendBuffer) (nextExpected : UInt64) (ranges : List SackRange) :
    b.Releases (b.applyAck nextExpected ranges) := by
  unfold applyAck
  cases checkedPred nextExpected with
  | some upTo => exact (ackCumulative_releases b upTo).trans (ackRanges_releases _ ranges)
  | none => exact (Releases.none b).trans (ackRanges_releases b ranges)

/-- The bound, which a chunk too large for it may exceed alone. -/
def Bounded (b : SendBuffer) : Prop := b.bufferedBytes ≤ b.maxBytes ∨ b.chunks.size = 1

theorem Releases.bounded {b : SendBuffer} {r : Nat × SendBuffer} (h : b.Releases r)
    (hb : b.Bounded) : r.2.Bounded := by
  have hlighter := h.lighter
  have hcap := h.cap
  have hcounted := h.counted
  rcases hb with hle | hone
  · exact Or.inl (by omega)
  · -- the chunk that was alone is still there, or nothing is
    by_cases hsize : r.2.chunks.size = 1
    · exact Or.inr hsize
    · refine Or.inl ?_
      have hempty : r.2.chunks.isEmpty = true :=
        SortedMap.isEmpty_iff.mpr (List.length_eq_zero_iff.mp (show r.2.chunks.size = 0 by omega))
      rw [r.2.accounted, SortedMap.total_eq_zero_of_isEmpty hempty]
      exact Nat.zero_le _

theorem push_bounded {b b' : SendBuffer} {seq : UInt64} {data : Bytes}
    (h : b.push seq data = .ok b') : b'.Bounded := by
  obtain ⟨hadmits, hchunks, hcap⟩ := push_eq_ok h
  rcases hadmits with hempty | hfits
  · right
    rw [hchunks]
    exact SortedMap.size_insert_of_isEmpty hempty seq data
  · left
    have herase := SortedMap.total_erase List.length b.chunks seq
    have haccounted := b.accounted
    rw [b'.accounted, hchunks, SortedMap.total_insert, hcap]
    omega

theorem call_releases {b : SendBuffer} {op : Op} {n : Nat} (h : (b.call op).1 = .removed n) :
    b.Releases (n, (b.call op).2) := by
  cases op with
  | push sequence data =>
      rw [call] at h
      cases hpush : b.push sequence data with
      | ok b' => rw [hpush] at h; cases h
      | error e => rw [hpush] at h; cases h
  | ackCumulative upTo =>
      obtain rfl := Outcome.removed.inj h
      exact ackCumulative_releases b upTo
  | ackSelective sequences =>
      obtain rfl := Outcome.removed.inj h
      exact ackSelective_releases b sequences
  | ackRange start stop =>
      obtain rfl := Outcome.removed.inj h
      exact ackRange_releases b start stop
  | applyAck nextExpected ranges =>
      obtain rfl := Outcome.removed.inj h
      exact applyAck_releases b nextExpected ranges

theorem call_bounded {b : SendBuffer} (hb : b.Bounded) (op : Op) :
    (b.call op).2.Bounded ∧ (b.call op).2.maxBytes = b.maxBytes := by
  cases houtcome : (b.call op).1 with
  | removed n =>
      have hreleases := call_releases houtcome
      exact ⟨hreleases.bounded hb, hreleases.cap⟩
  | pushed r =>
      cases op with
      | push sequence data =>
          rw [call]
          cases hpush : b.push sequence data with
          | ok b' => exact ⟨push_bounded hpush, (push_eq_ok hpush).2.2⟩
          | error e => exact ⟨hb, rfl⟩
      | _ => cases houtcome

end SendBuffer

/-! ## The log -/

open SendBuffer (Op Outcome)

structure SendCall where
  op : Op
  outcome : Outcome

namespace SendCall

/-- The chunk, if the call is a push that was accepted. -/
def accepted? (c : SendCall) : Option (UInt64 × Bytes) :=
  match c.op, c.outcome with
  | .push sequence data, .pushed (.ok _) => some (sequence, data)
  | _, _ => none

/-- The call acknowledges `s`, or puts another chunk in its place. -/
def Settles (s : UInt64) (c : SendCall) : Prop :=
  c.op.Acknowledges s ∨ ∃ data, c.accepted? = some (s, data)

end SendCall

/-- The last push of `s` to be accepted was of `data`, and nothing has
acknowledged `s` since. -/
def LatestPush (calls : List SendCall) (s : UInt64) (data : Bytes) : Prop :=
  ∃ c, c.accepted? = some (s, data) ∧ Latest (SendCall.Settles s) calls c

theorem latestPush_concat {calls : List SendCall} {c : SendCall} {s : UInt64} {data : Bytes} :
    LatestPush (calls ++ [c]) s data
      ↔ c.accepted? = some (s, data) ∨ (¬ c.Settles s ∧ LatestPush calls s data) := by
  constructor
  · rintro ⟨c', hc', hlatest⟩
    rcases latest_concat.mp hlatest with rfl | ⟨hno, hlatest⟩
    · exact Or.inl hc'
    · exact Or.inr ⟨hno, c', hc', hlatest⟩
  · rintro (hc | ⟨hno, c', hc', hlatest⟩)
    · exact ⟨c, hc, latest_concat.mpr (Or.inl rfl)⟩
    · exact ⟨c', hc', latest_concat.mpr (Or.inr ⟨hno, hlatest⟩)⟩

/-- What a call does to a lookup. -/
theorem SendBuffer.get?_call (b : SendBuffer) (op : Op) (s : UInt64) (data : Bytes) :
    (b.call op).2.get? s = some data
      ↔ SendCall.accepted? ⟨op, (b.call op).1⟩ = some (s, data)
        ∨ (¬ SendCall.Settles s ⟨op, (b.call op).1⟩ ∧ b.get? s = some data) := by
  have hack : ∀ {n : Nat} {b' : SendBuffer} {op : Op},
      b'.get? s = (if op.Acknowledges s then none else b.get? s) →
      SendCall.accepted? ⟨op, .removed n⟩ = none →
      (b'.get? s = some data ↔ SendCall.accepted? ⟨op, .removed n⟩ = some (s, data)
        ∨ (¬ SendCall.Settles s ⟨op, .removed n⟩ ∧ b.get? s = some data)) := by
    intro n b' op hget hno
    rw [hget, hno, SendCall.Settles, hno]
    by_cases hs : op.Acknowledges s
    · simp [hs]
    · simp [hs]
  cases op with
  | push sequence chunk =>
      rw [call]
      cases hpush : b.push sequence chunk with
      | error e => simp [SendCall.accepted?, SendCall.Settles, Op.Acknowledges]
      | ok b' =>
          simp only [SendCall.accepted?, SendCall.Settles, Op.Acknowledges, false_or]
          rw [get?_push hpush]
          by_cases hs : s = sequence
          · simp [hs]
          · simp [hs, Ne.symm hs]
  | ackCumulative upTo => exact @hack _ _ (.ackCumulative upTo) (get?_ackCumulative b upTo s) rfl
  | ackSelective sequences => exact hack (get?_ackSelective b sequences s) rfl
  | ackRange start stop => exact hack (get?_ackRange b start stop s) rfl
  | applyAck nextExpected ranges => exact hack (get?_applyAck b nextExpected ranges s) rfl

structure SendLog where
  buffer : RawSendBuffer
  calls : List SendCall

namespace SendLog

def start (maxBytes : Nat) : SendLog where
  buffer := .new maxBytes
  calls := []

def step (t : SendLog) (op : Op) : Option SendLog :=
  (t.buffer.call op).map fun (outcome, buffer) =>
    { buffer, calls := t.calls ++ [⟨op, outcome⟩] }

/-- The account of the buffer is true, and what it holds is what its calls
say. -/
structure Accounted (maxBytes : Nat) (t : SendLog) : Prop where
  bytes : t.buffer.bufferedBytes = (t.buffer.unacked.map fun chunk => chunk.2.length).sum
  held : ∀ s data, (s, data) ∈ t.buffer.unacked ↔ LatestPush t.calls s data
  bounded : t.buffer.bufferedBytes ≤ maxBytes ∨ t.buffer.len = 1
  ordered : t.buffer.unacked.Pairwise fun chunk later => chunk.1 < later.1

/-- What a call returns is true of what it does. -/
structure Answers (b : RawSendBuffer) (op : Op) (outcome : Outcome) (b' : RawSendBuffer) : Prop where
  answer : b.call op = some (outcome, b')
  refused : ∀ e, outcome = .pushed (.error e) → b' = b
  removed : ∀ n, outcome = .removed n →
    n + b'.len = b.len ∧ ∀ chunk ∈ b'.unacked, chunk ∈ b.unacked

/-! ## The invariant -/

structure Inv (maxBytes : Nat) (t : SendLog) (b : SendBuffer) : Prop where
  buffer : t.buffer = b.toRaw
  held : ∀ s data, b.get? s = some data ↔ LatestPush t.calls s data
  bounded : b.Bounded
  cap : b.maxBytes = maxBytes

theorem inv_start (maxBytes : Nat) : (start maxBytes).Inv maxBytes (.new maxBytes) where
  buffer := rfl
  held s data := by
    refine iff_of_false (fun h => nomatch h) ?_
    rintro ⟨c, -, hlatest⟩
    exact not_latest_nil hlatest
  bounded := Or.inl (Nat.zero_le _)
  cap := rfl

theorem Inv.accounted {maxBytes : Nat} {t : SendLog} {b : SendBuffer} (h : t.Inv maxBytes b) :
    t.Accounted maxBytes := by
  obtain ⟨buffer, calls⟩ := t
  obtain rfl : buffer = b.toRaw := h.buffer
  exact
    { bytes := b.accounted
      held := fun s data => SortedMap.get?_eq_some.symm.trans (h.held s data)
      bounded := h.cap ▸ h.bounded
      ordered := b.chunks.sorted }

theorem Inv.answers {maxBytes : Nat} {t : SendLog} {b : SendBuffer} (h : t.Inv maxBytes b)
    (op : Op) : Answers t.buffer op (b.call op).1 (b.call op).2.toRaw where
  answer := by
    rw [h.buffer, SendBuffer.call_toRaw]
    rfl
  refused e houtcome := by
    rw [h.buffer]
    cases op with
    | push sequence data =>
        rw [SendBuffer.call] at houtcome ⊢
        cases hpush : b.push sequence data with
        | ok b' => rw [hpush] at houtcome; cases houtcome
        | error e => rfl
    | _ => cases houtcome
  removed n houtcome := by
    have hreleases := SendBuffer.call_releases houtcome
    rw [h.buffer]
    refine ⟨hreleases.counted, fun chunk hchunk => ?_⟩
    exact SortedMap.get?_eq_some.mp (hreleases.kept _ _ (SortedMap.get?_eq_some.mpr hchunk))

theorem Inv.call {maxBytes : Nat} {t : SendLog} {b : SendBuffer} (h : t.Inv maxBytes b) (op : Op) :
    ∃ t', t.step op = some t' ∧ t'.Inv maxBytes (b.call op).2 := by
  refine ⟨⟨(b.call op).2.toRaw, t.calls ++ [⟨op, (b.call op).1⟩]⟩, ?_, ?_⟩
  · rw [step, (h.answers op).answer]
    rfl
  · exact
      { buffer := rfl
        held := fun s data => by
          rw [latestPush_concat, SendBuffer.get?_call, h.held]
        bounded := (SendBuffer.call_bounded h.bounded op).1
        cap := h.cap ▸ (SendBuffer.call_bounded h.bounded op).2 }

/-- No run of calls stops the program, each leaves the account true, and
the next call is answered accordingly. -/
theorem send_log (maxBytes : Nat) (ops : List Op) :
    ∃ t, exec step (start maxBytes) ops = some t ∧ t.Accounted maxBytes
      ∧ ∀ op, ∃ outcome buffer, Answers t.buffer op outcome buffer := by
  have hrun : ∀ (ops : List Op) (t : SendLog) (b : SendBuffer), t.Inv maxBytes b →
      ∃ t' b', exec step t ops = some t' ∧ t'.Inv maxBytes b' := by
    intro ops
    induction ops with
    | nil => exact fun t b h => ⟨t, b, rfl, h⟩
    | cons op ops ih =>
        intro t b h
        obtain ⟨t1, hstep, hinv⟩ := h.call op
        obtain ⟨t', b', hexec, hinv'⟩ := ih t1 _ hinv
        exact ⟨t', b', exec_cons.mpr ⟨t1, hstep, hexec⟩, hinv'⟩
  obtain ⟨t, b, hexec, hinv⟩ := hrun ops _ _ (inv_start maxBytes)
  exact ⟨t, hexec, hinv.accounted, fun op => ⟨_, _, hinv.answers op⟩⟩

end SendLog

end Kanrin
