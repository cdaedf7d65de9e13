import Kanrin.Lib.Run
import Kanrin.ReceiveBuffer

/-!
# How many chunks a receive buffer holds

`ReceiveBuffer::accept`, call after call. Whether a chunk is held depends on
the bytes of its payload, and an empty payload has none. So the bound on the
bytes is a bound on the chunks only as far as payloads are not empty
(`always_bounded_of_nonempty`), and any number of empty chunks is held
(`not_always_bounded`).
-/

namespace Kanrin

open Lib

namespace ReceiveBuffer

def pendingLen (r : ReceiveBuffer) : Nat := r.pending.size

namespace Holding

/-- A sequence and the payload that is received under it. -/
structure Offer where
  sequence : UInt64
  payload : Bytes

/-- A chunk that is refused leaves the buffer as it was. -/
def step (r : ReceiveBuffer) (e : Offer) : Option ReceiveBuffer :=
  match r.accept e.sequence e.payload with
  | .ok (_, r') => some r'
  | .error _ => some r

/-- There are no more chunks held than the buffer may hold bytes. -/
def Bounded (r : ReceiveBuffer) : Prop := r.pendingLen ≤ r.maxBytes

/-- The chunk is ahead of the gap, not held yet, and within the bound on the bytes. -/
def ToBeHeld (r : ReceiveBuffer) (e : Offer) : Prop :=
  r.nextExpected < e.sequence ∧ r.pending.contains e.sequence = false
    ∧ r.bufferedBytes + e.payload.length ≤ r.maxBytes

/-- A chunk that is to be held finds fewer chunks than the bound has bytes. -/
def HasRoom (r : ReceiveBuffer) (e : Offer) : Prop :=
  ToBeHeld r e → r.pendingLen < r.maxBytes

/-! ## What a call does to the number of chunks held -/

theorem size_drain_le (fuel : Nat) (r : Reassembly) :
    (r.drain fuel).pending.size ≤ r.pending.size :=
  Reassembly.drain_induct (I := fun q => q.pending.size ≤ r.pending.size)
    (fun _ _ h hle => (SortedMap.size_erase_lt h).le.trans hle) fuel le_rfl

theorem get?_of_get?_drain {fuel : Nat} {r : Reassembly} {s : UInt64} {v : Bytes}
    (h : (r.drain fuel).pending.get? s = some v) : r.pending.get? s = some v := by
  have hsub : ∀ s v, (r.drain fuel).pending.get? s = some v → r.pending.get? s = some v := by
    refine Reassembly.drain_induct
      (I := fun q => ∀ s v, q.pending.get? s = some v → r.pending.get? s = some v)
      (fun q _ _ hq s v hv => hq s v ?_) fuel fun _ _ hv => hv
    rw [Reassembly.release, SortedMap.get?_erase] at hv
    split at hv
    · cases hv
    · exact hv
  exact hsub s v h

theorem step_of_toBeHeld {r : ReceiveBuffer} {e : Offer} (h : ToBeHeld r e) :
    ∃ r', step r e = some r' ∧ r'.maxBytes = r.maxBytes ∧ r'.nextExpected = r.nextExpected
      ∧ r'.pending = r.pending.insert e.sequence e.payload
      ∧ r'.bufferedBytes = r.bufferedBytes + e.payload.length := by
  obtain ⟨habove, hnew, hfits⟩ := h
  have hunseen : ¬ (e.sequence < r.nextExpected ∨ r.pending.contains e.sequence = true) := by
    rintro (hbelow | hheld)
    · exact lt_asymm hbelow habove
    · rw [hnew] at hheld
      cases hheld
  unfold step accept
  rw [dif_neg hunseen, dif_pos habove, if_neg (not_lt.mpr hfits)]
  exact ⟨_, rfl, rfl, rfl, rfl, rfl⟩

theorem step_of_not_toBeHeld {r : ReceiveBuffer} {e : Offer} (h : ¬ ToBeHeld r e) :
    ∃ r', step r e = some r' ∧ r'.maxBytes = r.maxBytes ∧ r'.pendingLen ≤ r.pendingLen
      ∧ ∀ s v, r'.pending.get? s = some v → r.pending.get? s = some v := by
  unfold step accept
  split
  · rename_i o r' haccept
    refine ⟨r', rfl, ?_⟩
    split at haccept
    · obtain ⟨-, rfl⟩ := Prod.mk.inj (Except.ok.inj haccept)
      exact ⟨rfl, le_rfl, fun _ _ hv => hv⟩
    rename_i hunseen
    split at haccept
    · rename_i habove
      split at haccept
      · cases haccept
      · rename_i hfits
        have hnew : r.pending.contains e.sequence = false := by
          simpa using (not_or.mp hunseen).2
        exact absurd ⟨habove, hnew, not_lt.mp hfits⟩ h
    · obtain ⟨-, rfl⟩ := Prod.mk.inj (Except.ok.inj haccept)
      exact ⟨rfl, size_drain_le _ _, fun _ _ hv => get?_of_get?_drain hv⟩
  · exact ⟨r, rfl, rfl, le_rfl, fun _ _ hv => hv⟩

/-! ## When the number of chunks is bounded -/

theorem bounded_new (maxBytes : Nat) : Bounded (.new maxBytes) := Nat.zero_le _

/-- A call keeps the number within the bound exactly if a chunk that is to be held has room. -/
theorem bounded_step {r r' : ReceiveBuffer} {e : Offer} (hr : Bounded r)
    (hstep : step r e = some r') : Bounded r' ↔ HasRoom r e := by
  by_cases h : ToBeHeld r e
  · obtain ⟨held, heq, hmax, -, hpending, -⟩ := step_of_toBeHeld h
    obtain rfl := Option.some.inj (hstep.symm.trans heq)
    have hlen : r'.pendingLen = r.pendingLen + 1 := by
      rw [pendingLen, hpending, SortedMap.size_insert h.2.1]
      rfl
    rw [Bounded, hmax, hlen]
    exact ⟨fun hle _ => hle, fun hroom => hroom h⟩
  · obtain ⟨left, heq, hmax, hle, -⟩ := step_of_not_toBeHeld h
    obtain rfl := Option.some.inj (hstep.symm.trans heq)
    refine iff_of_true ?_ fun hheld => absurd hheld h
    rw [Bounded, hmax]
    exact hle.trans hr

/-- In a run there are never more chunks held than the bound has bytes
exactly if each chunk that is to be held has room. -/
theorem always_bounded_iff (maxBytes : Nat) (es : List Offer) :
    Always step Bounded (.new maxBytes) es ↔ Meets step HasRoom (.new maxBytes) es :=
  always_iff_meets (I := fun _ => True)
    (fun _ _ _ _ hr hstep => ⟨bounded_step hr hstep, fun _ => trivial⟩) trivial
    (bounded_new maxBytes)

/-! ## Chunks that are not empty, and chunks that are -/

/-- Every chunk that is held has a byte at least. -/
def Counted (r : ReceiveBuffer) : Prop := ∀ s v, r.pending.get? s = some v → 1 ≤ v.length

theorem Counted.pendingLen_le {r : ReceiveBuffer} (h : Counted r) :
    r.pendingLen ≤ r.bufferedBytes := by
  rw [r.accounted]
  exact SortedMap.size_le_total h

/-- Where no chunk is empty, the bytes leave no room for too many. -/
theorem hasRoom_of_counted {r : ReceiveBuffer} {e : Offer} (h : Counted r)
    (he : 1 ≤ e.payload.length) : HasRoom r e := by
  rintro ⟨-, -, hfits⟩
  have hle := h.pendingLen_le
  omega

theorem Counted.step {r r' : ReceiveBuffer} {e : Offer} (h : Counted r)
    (he : 1 ≤ e.payload.length) (hstep : step r e = some r') : Counted r' := by
  intro s v hv
  by_cases hheld : ToBeHeld r e
  · obtain ⟨held, heq, -, -, hpending, -⟩ := step_of_toBeHeld hheld
    obtain rfl := Option.some.inj (hstep.symm.trans heq)
    rw [hpending, SortedMap.get?_insert] at hv
    split at hv
    · obtain rfl := Option.some.inj hv
      exact he
    · exact h s v hv
  · obtain ⟨left, heq, -, -, hsub⟩ := step_of_not_toBeHeld hheld
    obtain rfl := Option.some.inj (hstep.symm.trans heq)
    exact h s v (hsub s v hv)

/-- A run without empty payloads. -/
theorem always_bounded_of_nonempty (maxBytes : Nat) {es : List Offer}
    (h : ∀ e ∈ es, e.payload ≠ []) : Always step Bounded (.new maxBytes) es := by
  have hmeets : Meets step (fun _ e => 1 ≤ e.payload.length) (.new maxBytes) es :=
    meets_of_forall fun e he _ => List.length_pos_iff.mpr (h e he)
  have hcounted : Always step (fun r => Bounded r ∧ Counted r) (.new maxBytes) es := by
    refine always_of_meets (fun r e r' hr he hstep => ?_)
      ⟨bounded_new maxBytes, fun _ _ hv => nomatch hv⟩ hmeets
    exact ⟨(bounded_step hr.1 hstep).mpr (hasRoom_of_counted hr.2 he),
      hr.2.step he hstep⟩
  exact hcounted.mono fun _ hr => hr.1

/-- The empty chunks with the sequences from 1 to `n`. -/
def empties (n : Nat) : List Offer :=
  (List.range n).map fun i => { sequence := UInt64.ofNat (i + 1), payload := [] }

/-- They are all held. -/
theorem exec_empties (maxBytes : Nat) {n : Nat} (hn : n < 2 ^ 64) :
    ∃ r, exec step (.new maxBytes) (empties n) = some r ∧ r.nextExpected = 0
      ∧ r.bufferedBytes = 0 ∧ r.maxBytes = maxBytes ∧ r.pendingLen = n
      ∧ ∀ s, r.pending.contains s = true → s.toNat ≤ n := by
  induction n with
  | zero =>
      exact ⟨.new maxBytes, rfl, rfl, rfl, rfl, rfl, fun _ h => nomatch h⟩
  | succ n ih =>
      obtain ⟨r, hexec, hnext, hbytes, hmax, hlen, hkeys⟩ := ih (by omega)
      have hsequence : (UInt64.ofNat (n + 1)).toNat = n + 1 := by
        rw [UInt64.toNat_ofNat', Nat.mod_eq_of_lt hn]
      have hheld : ToBeHeld r { sequence := UInt64.ofNat (n + 1), payload := [] } := by
        refine ⟨?_, ?_, ?_⟩
        · rw [hnext, UInt64.lt_iff_toNat_lt, hsequence]
          exact Nat.succ_pos n
        · refine Bool.eq_false_iff.mpr fun hcontains => ?_
          exact absurd (hsequence.symm.trans_le (hkeys _ hcontains)) (Nat.not_succ_le_self n)
        · rw [hbytes]
          exact Nat.zero_le _
      obtain ⟨r', hstep, hmax', hnext', hpending, hbytes'⟩ := step_of_toBeHeld hheld
      refine ⟨r', ?_, hnext'.trans hnext, hbytes'.trans hbytes, hmax'.trans hmax, ?_, ?_⟩
      · rw [empties, List.range_succ, List.map_append]
        exact exec_concat.mpr ⟨r, hexec, hstep⟩
      · rw [pendingLen, hpending, SortedMap.size_insert hheld.2.1]
        exact congrArg (· + 1) hlen
      · intro s hs
        rw [hpending] at hs
        rcases SortedMap.contains_insert.mp hs with rfl | hs
        · exact hsequence.le
        · exact (hkeys s hs).trans (Nat.le_succ n)

/-- One empty chunk more than a buffer of the default size may hold bytes. -/
theorem not_always_bounded :
    ¬ Always step Bounded withDefaultCapacity (empties (16 * 1024 * 1024 + 1)) := by
  obtain ⟨r, hexec, -, -, hmax, hlen, -⟩ :=
    exec_empties (16 * 1024 * 1024) (n := 16 * 1024 * 1024 + 1) (by norm_num)
  refine not_always_of_exec hexec ?_
  rw [Bounded, hlen, hmax]
  exact Nat.not_succ_le_self _

end Holding

end ReceiveBuffer

end Kanrin
