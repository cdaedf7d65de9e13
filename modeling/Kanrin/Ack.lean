import Kanrin.Lib.MaximalRuns
import Kanrin.Lib.Run
import Kanrin.ReceiveBuffer
import Kanrin.SendBuffer

/-!
# Acknowledgements

`ReceiveBuffer::build_ack` and what applying its result to a send buffer
releases.

The coalescing loop is a capped prefix of the run decomposition of the
held sequences (`coalesce_eq`); from that, the ranges of an
acknowledgement cover the `maxSackRanges` lowest maximal runs
(`covers_buildAck`) and are canonical (`canonical_buildAck`).

`AckLink` is the system of one receive buffer, one send buffer and every
acknowledgement built so far, any of which may be applied at any time and
any number of times.
-/

namespace Kanrin

open Lib

def ackEveryNChunks : Nat := 32

namespace ReceiveBuffer

/-! ## Building an acknowledgement -/

/-- The last range grown by `seq`, when it ends right below it. -/
def extendLast (ranges : List SackRange) (seq : UInt64) : Option (List SackRange) :=
  match ranges.getLast? with
  | some last =>
      if last.stop + 1 = seq then some (ranges.dropLast ++ [{ last with stop := seq }]) else none
  | none => none

def coalesce (ranges : List SackRange) : List UInt64 → List SackRange
  | [] => ranges
  | seq :: keys =>
      match extendLast ranges seq with
      | some extended => coalesce extended keys
      | none =>
          if ranges.length = maxSackRanges then ranges
          else coalesce (ranges ++ [{ start := seq, stop := seq }]) keys

def ackRanges (r : ReceiveBuffer) : List SackRange := coalesce [] r.pending.keys

def buildAck (r : ReceiveBuffer) : ControlMessage := .ack r.nextExpected r.ackRanges

/-! ## The ranges are the lowest runs -/

def adjacent (a b : UInt64) : Bool := a + 1 == b

theorem adjacent_iff {a b : UInt64} (h : a < b) : adjacent a b = true ↔ a ⋖ b := by
  have hsucc := toNat_succ_of_lt h
  rw [adjacent, beq_iff_eq, ← UInt64.toNat_inj, hsucc]
  constructor
  · intro heq
    refine ⟨h, fun c hac hcb => ?_⟩
    rw [UInt64.lt_iff_toNat_lt] at hac hcb
    omega
  · intro hcov
    have hle : b ≤ a + 1 := not_lt.mp (hcov.2 (by rw [UInt64.lt_iff_toNat_lt]; omega))
    rw [UInt64.le_iff_toNat_le] at hle
    rw [UInt64.lt_iff_toNat_lt] at h
    omega

def toRange (p : UInt64 × UInt64) : SackRange := { start := p.1, stop := p.2 }

theorem extendLast_concat (init : List SackRange) (last : SackRange) (seq : UInt64) :
    extendLast (init ++ [last]) seq
      = if last.stop + 1 = seq then some (init ++ [{ last with stop := seq }]) else none := by
  simp [extendLast]

/-- The loop, with ranges built before, is the run decomposition cut off at
the cap. -/
theorem coalesce_concat (keys : List UInt64) (init : List SackRange) (a b : UInt64)
    (hlen : init.length < maxSackRanges) :
    coalesce (init ++ [toRange (a, b)]) keys
      = (init ++ (runsFrom adjacent a b keys).map toRange).take maxSackRanges := by
  induction keys generalizing init a b with
  | nil => simp [coalesce, runsFrom, hlen]
  | cons seq keys ih =>
      rw [coalesce, extendLast_concat, runsFrom]
      by_cases hadj : adjacent b seq = true
      · have hstop : (toRange (a, b)).stop + 1 = seq := by simpa [adjacent, toRange] using hadj
        rw [if_pos hstop, if_pos hadj]
        exact ih init a seq hlen
      · have hstop : ¬ (toRange (a, b)).stop + 1 = seq := by simpa [adjacent, toRange] using hadj
        rw [if_neg hstop, if_neg hadj]
        simp only [List.map_cons, List.length_append, List.length_singleton]
        by_cases hcap : init.length + 1 = maxSackRanges
        · rw [if_pos hcap, List.take_append, List.take_of_length_le (by omega)]
          have : maxSackRanges - init.length = 1 := by omega
          simp [this]
        · rw [if_neg hcap]
          have := ih (init ++ [toRange (a, b)]) seq seq (by simp; omega)
          simpa [toRange] using this

/-- The runs of the held sequences, in ascending order. -/
def pendingRuns (r : ReceiveBuffer) : List (UInt64 × UInt64) :=
  match r.pending.keys with
  | [] => []
  | k :: ks => runsFrom adjacent k k ks

theorem coalesce_eq (r : ReceiveBuffer) :
    r.ackRanges = (r.pendingRuns.take maxSackRanges).map toRange := by
  unfold ackRanges pendingRuns
  cases r.pending.keys with
  | nil => rfl
  | cons k ks =>
      have h := coalesce_concat ks [] k k (by decide)
      rw [List.nil_append, List.nil_append, ← List.map_take] at h
      exact h

theorem mem_pendingRuns (r : ReceiveBuffer) (p : UInt64 × UInt64) :
    p ∈ r.pendingRuns ↔ MaximalRun { s | r.pending.contains s = true } p.1 p.2 := by
  have hkeys : { s | r.pending.contains s = true } = { s | s ∈ r.pending.keys } := by
    ext s
    exact SortedMap.mem_keys_iff_contains.symm
  have hsorted := r.pending.keys_sorted
  rw [hkeys, pendingRuns]
  cases hk : r.pending.keys with
  | nil =>
      simp only [List.not_mem_nil, false_iff]
      intro h
      simpa using h.subset (Set.left_mem_Icc.mpr h.le)
  | cons k ks =>
      rw [hk] at hsorted
      have hset : { s | s ∈ k :: ks } = Set.Icc k k ∪ { s | s ∈ ks } := by
        ext s
        simp
      rw [hset]
      exact mem_runsFrom (fun _ _ => adjacent_iff) le_rfl hsorted

theorem pendingRuns_sorted (r : ReceiveBuffer) :
    r.pendingRuns.Pairwise fun p q => p.2 < q.1 := by
  have hsorted := r.pending.keys_sorted
  unfold pendingRuns
  cases hk : r.pending.keys with
  | nil => exact List.Pairwise.nil
  | cons k ks =>
      rw [hk] at hsorted
      exact runsFrom_sorted le_rfl hsorted

/-- What a receiver's acknowledgement covers: everything below the
cumulative point, and the lowest maximal runs of what it holds. -/
theorem covers_buildAck (r : ReceiveBuffer) (s : UInt64) :
    SendBuffer.Covers r.nextExpected r.ackRanges s ↔
      s < r.nextExpected ∨ InLowestRuns maxSackRanges { s | r.pending.contains s = true } s := by
  rw [inLowestRuns_iff r.mem_pendingRuns r.pendingRuns_sorted, SendBuffer.Covers, coalesce_eq]
  simp [toRange, -List.map_take]

/-- An acknowledgement covers nothing that has not been seen. -/
theorem seen_of_covers {r : ReceiveBuffer} {s : UInt64}
    (h : SendBuffer.Covers r.nextExpected r.ackRanges s) : r.Seen s := by
  rcases (covers_buildAck r s).mp h with hlt | ⟨a, b, hrun, hs, -⟩
  · exact Or.inl hlt
  · exact Or.inr (hrun.subset hs)

/-! ## The ranges are canonical -/

theorem canonical_runsFrom {floor : Nat} {a b : UInt64} (hfloor : floor < a.toNat) (hab : a ≤ b)
    {keys : List UInt64} (hkeys : (b :: keys).Pairwise (· < ·)) :
    Canonical floor ((runsFrom adjacent a b keys).map toRange) := by
  induction keys generalizing floor a b with
  | nil => exact ⟨hab, hfloor, trivial⟩
  | cons k ks ih =>
      obtain ⟨hb, hks⟩ := List.pairwise_cons.mp hkeys
      have hbk : b < k := hb k List.mem_cons_self
      rw [runsFrom]
      split
      · exact ih hfloor (hab.trans hbk.le) hks
      · rename_i hnot
        have hsucc := toNat_succ_of_lt hbk
        have hgap : b.toNat + 1 < k.toNat := by
          have hne : ¬ b + 1 = k := by simpa [adjacent] using hnot
          rw [← UInt64.toNat_inj, hsucc] at hne
          rw [UInt64.lt_iff_toNat_lt] at hbk
          omega
        exact ⟨hab, hfloor, ih hgap le_rfl hks⟩

theorem canonical_take {floor : Nat} {ranges : List SackRange} (h : Canonical floor ranges)
    (n : Nat) : Canonical floor (ranges.take n) := by
  induction ranges generalizing floor n with
  | nil => simpa using h
  | cons r rs ih =>
      cases n with
      | zero => trivial
      | succ n => exact ⟨h.1, h.2.1, ih h.2.2 n⟩

theorem canonical_buildAck (r : ReceiveBuffer) : Canonical r.nextExpected.toNat r.ackRanges := by
  rw [coalesce_eq, List.map_take]
  refine canonical_take ?_ _
  have hsorted := r.pending.keys_sorted
  unfold pendingRuns
  cases hk : r.pending.keys with
  | nil => trivial
  | cons k ks =>
      rw [hk] at hsorted
      have hmem : k ∈ r.pending.keys := by rw [hk]; exact List.mem_cons_self
      have habove := r.above k (SortedMap.mem_keys_iff_contains.mp hmem)
      exact canonical_runsFrom (UInt64.lt_iff_toNat_lt.mp habove) le_rfl hsorted

theorem length_ackRanges (r : ReceiveBuffer) : r.ackRanges.length ≤ maxSackRanges := by
  rw [coalesce_eq, List.length_map, List.length_take]
  exact min_le_left _ _

/-- Every acknowledgement survives the wire. -/
theorem decode_encode_buildAck (r : ReceiveBuffer) :
    ControlMessage.decode r.buildAck.encode = .ok r.buildAck :=
  ControlMessage.decode_encode_ack r.length_ackRanges r.canonical_buildAck

/-- It also fits in one chunk. -/
theorem length_encode_buildAck (r : ReceiveBuffer) :
    r.buildAck.encode.length ≤ maxPayloadSize := by
  have := r.length_ackRanges
  rw [buildAck, ControlMessage.length_encode_ack, maxPayloadSize]
  rw [maxSackRanges] at this
  omega

/-- Applying the current acknowledgement releases exactly what it covers. -/
theorem get?_applyAck_buildAck (r : ReceiveBuffer) (b : SendBuffer) {s : UInt64} :
    ((b.applyAck r.nextExpected r.ackRanges).2.get? s = none) ↔
      b.get? s = none ∨ s < r.nextExpected
        ∨ InLowestRuns maxSackRanges { s | r.pending.contains s = true } s := by
  rw [SendBuffer.get?_applyAck, ← covers_buildAck]
  by_cases h : SendBuffer.Covers r.nextExpected r.ackRanges s <;> simp [h]

end ReceiveBuffer

/-! ## Acknowledgements in any order -/

/-- A receive buffer, a send buffer, and the acknowledgements built so far.
`accepted` records the sequences the receiver has taken. -/
structure AckLink where
  recv : ReceiveBuffer
  send : SendBuffer
  acks : List (UInt64 × List SackRange)
  accepted : List UInt64

namespace AckLink

inductive Event where
  | accept (sequence : UInt64) (payload : Bytes)
  | drainReady
  | buildAck
  | push (sequence : UInt64) (data : Bytes)
  | applyAck (index : Nat)

def start (maxBytes : Nat) (send : SendBuffer) : AckLink where
  recv := .new maxBytes
  send := send
  acks := []
  accepted := []

/-- A refused chunk, on either side, changes nothing. -/
def step (l : AckLink) : Event → Option AckLink
  | .accept sequence payload =>
      match l.recv.accept sequence payload with
      | .ok (.duplicate, recv) => some { l with recv := recv }
      | .ok (_, recv) => some { l with recv := recv, accepted := sequence :: l.accepted }
      | .error _ => some l
  | .drainReady => some { l with recv := l.recv.drainReady.2 }
  | .buildAck => some { l with acks := l.acks ++ [(l.recv.nextExpected, l.recv.ackRanges)] }
  | .push sequence data =>
      match l.send.push sequence data with
      | .ok send => some { l with send := send }
      | .error _ => some l
  | .applyAck index =>
      l.acks[index]?.map fun ack => { l with send := (l.send.applyAck ack.1 ack.2).2 }

/-- Nothing is seen, and nothing acknowledged, that was not accepted. -/
structure Inv (l : AckLink) : Prop where
  seen : ∀ s, l.recv.Seen s → s ∈ l.accepted
  acks : ∀ ack ∈ l.acks, ∀ s, SendBuffer.Covers ack.1 ack.2 s → s ∈ l.accepted

theorem inv_start (maxBytes : Nat) (send : SendBuffer) : (start maxBytes send).Inv where
  seen s h := by
    rcases h with h | h
    · simp [start, ReceiveBuffer.new, UInt64.lt_iff_toNat_lt] at h
    · cases h
  acks _ h := by cases h

theorem inv_accept {l : AckLink} (hl : l.Inv) {sequence : UInt64} {payload : Bytes} {o : Received}
    {recv : ReceiveBuffer} (h : l.recv.accept sequence payload = .ok (o, recv)) :
    Inv { l with recv := recv, accepted := sequence :: l.accepted } where
  seen s hs := by
    rcases ReceiveBuffer.seen_of_accept h hs with hs | rfl
    · exact List.mem_cons_of_mem _ (hl.seen s hs)
    · exact List.mem_cons_self
  acks ack hack s hs := List.mem_cons_of_mem _ (hl.acks ack hack s hs)

theorem inv_step {l l' : AckLink} {e : Event} (hl : l.Inv) (h : l.step e = some l') : l'.Inv := by
  cases e with
  | accept sequence payload =>
      simp only [step] at h
      split at h
      · rename_i recv hacc
        obtain rfl := Option.some.inj h
        obtain rfl := ReceiveBuffer.eq_of_accept_duplicate hacc
        exact hl
      · rename_i hacc
        obtain rfl := Option.some.inj h
        exact inv_accept hl hacc
      · obtain rfl := Option.some.inj h
        exact hl
  | drainReady =>
      obtain rfl := Option.some.inj h
      exact ⟨fun s hs => hl.seen s (ReceiveBuffer.seen_drainReady.mp hs), hl.acks⟩
  | buildAck =>
      obtain rfl := Option.some.inj h
      refine ⟨hl.seen, fun ack hack s hs => ?_⟩
      rcases List.mem_append.mp hack with hack | hack
      · exact hl.acks ack hack s hs
      · obtain rfl := List.mem_singleton.mp hack
        exact hl.seen s (ReceiveBuffer.seen_of_covers hs)
  | push sequence data =>
      simp only [step] at h
      split at h <;> obtain rfl := Option.some.inj h <;> exact ⟨hl.seen, hl.acks⟩
  | applyAck index =>
      obtain ⟨ack, -, rfl⟩ := Option.map_eq_some_iff.mp h
      exact ⟨hl.seen, hl.acks⟩

/-- What acknowledgements may do to the send buffer: an acknowledgement
built at any earlier receiver state removes only accepted sequences, and
the current one, unchanged by the wire, removes exactly the held sequences
below the cumulative point or inside the lowest runs held. -/
structure Exact (l : AckLink) : Prop where
  wire : ControlMessage.decode l.recv.buildAck.encode = .ok l.recv.buildAck
  safe : ∀ ack ∈ l.acks, ∀ s, l.send.get? s ≠ none →
    (l.send.applyAck ack.1 ack.2).2.get? s = none → s ∈ l.accepted
  current : ∀ s, l.send.get? s ≠ none →
    ((l.send.applyAck l.recv.nextExpected l.recv.ackRanges).2.get? s = none ↔
      s < l.recv.nextExpected
        ∨ InLowestRuns maxSackRanges { s | l.recv.pending.contains s = true } s)

theorem Inv.exact {l : AckLink} (hl : l.Inv) : l.Exact where
  wire := l.recv.decode_encode_buildAck
  safe ack hack s hheld hgone := by
    rw [SendBuffer.get?_applyAck] at hgone
    split at hgone
    · exact hl.acks ack hack s ‹_›
    · exact absurd hgone hheld
  current s hheld := by
    rw [ReceiveBuffer.get?_applyAck_buildAck]
    simp [hheld]

end AckLink

end Kanrin
