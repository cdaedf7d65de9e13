import Kanrin.Lib.SortedMap
import Kanrin.Control

/-!
# The receive buffer

`ReceiveBuffer` of `kanrin-protocol/src/continuity.rs`: chunks arrive in
any order and more than once, payloads leave in sequence order.

Two structures carry the two invariants of the code. While an in-order
chunk is being delivered the held chunks are only known to be at or above
the cumulative point (`Reassembly.atLeast`, what the `while` loop keeps);
between calls they are strictly above it (`ReceiveBuffer.above`, what the
loop establishes by running until the next sequence is missing).

What the buffer is for is stated against `content`, the payload every
sequence number carries: `Tracks` says that the payloads delivered so far
are those of the sequences below `nextExpected`, each once and in order,
and that what is held is genuine. `accept_tracks` is the step lemma; it
also says that a chunk that is not refused is from then on `Seen`, and
nothing else is. `isLeast_nextExpected` reads the cumulative point back as
the least sequence not seen.
-/

namespace Kanrin

open Lib

inductive Received where
  | ready
  | buffered
  | duplicate
deriving DecidableEq, Repr

theorem succ_le_of_lt {a b : UInt64} (h : a < b) : a + 1 ≤ b := by
  have hnat := toNat_succ_of_lt h
  rw [UInt64.lt_iff_toNat_lt] at h
  rw [UInt64.le_iff_toNat_le]
  omega

/-! ## The delivery loop -/

structure Reassembly where
  nextExpected : UInt64
  pending : SortedMap UInt64 Bytes
  ready : List Bytes
  bufferedBytes : Nat
  accounted : bufferedBytes = pending.total List.length
  atLeast : ∀ s, pending.contains s = true → nextExpected ≤ s

namespace Reassembly

/-- The body of the `while` loop, for a held chunk at the cumulative point. -/
def release (r : Reassembly) (next : Bytes) (h : r.pending.get? r.nextExpected = some next) :
    Reassembly where
  nextExpected := r.nextExpected + 1
  pending := r.pending.erase r.nextExpected
  ready := r.ready ++ [next]
  bufferedBytes := r.bufferedBytes - next.length
  accounted := by
    have herase := SortedMap.total_erase List.length r.pending r.nextExpected
    rw [h, Option.map_some, Option.getD_some] at herase
    rw [r.accounted]
    omega
  atLeast s hs := by
    obtain ⟨v, hv⟩ := SortedMap.contains_iff.mp hs
    rw [SortedMap.get?_erase] at hv
    split at hv
    · cases hv
    · rename_i hne
      have hle := r.atLeast s (SortedMap.contains_iff.mpr ⟨v, hv⟩)
      exact succ_le_of_lt (lt_of_le_of_ne hle (Ne.symm hne))

def drain : (fuel : Nat) → Reassembly → Reassembly
  | 0, r => r
  | fuel + 1, r =>
      match h : r.pending.get? r.nextExpected with
      | none => r
      | some next => drain fuel (r.release next h)

/-- What the loop body keeps, the loop keeps. -/
theorem drain_induct {I : Reassembly → Prop}
    (hstep : ∀ r next h, I r → I (release r next h)) (fuel : Nat) {r : Reassembly} (h : I r) :
    I (drain fuel r) := by
  induction fuel generalizing r with
  | zero => exact h
  | succ fuel ih =>
      unfold drain
      split
      · exact h
      · exact ih (hstep _ _ _ h)

/-- With as much fuel as there are chunks held, the loop stops because the
chunk at the cumulative point is missing. -/
theorem get?_drain {fuel : Nat} {r : Reassembly} (hfuel : r.pending.size ≤ fuel) :
    (drain fuel r).pending.get? (drain fuel r).nextExpected = none := by
  induction fuel generalizing r with
  | zero =>
      have hnil : r.pending.entries = [] := List.length_eq_zero_iff.mp (Nat.le_zero.mp hfuel)
      exact SortedMap.get?_of_isEmpty (SortedMap.isEmpty_iff.mpr hnil) _
  | succ fuel ih =>
      unfold drain
      split
      · assumption
      · rename_i next h
        have hlt : (release r next h).pending.size < r.pending.size := SortedMap.size_erase_lt h
        exact ih (by omega)

end Reassembly

/-! ## The buffer -/

structure ReceiveBuffer where
  nextExpected : UInt64
  pending : SortedMap UInt64 Bytes
  ready : List Bytes
  bufferedBytes : Nat
  maxBytes : Nat
  accounted : bufferedBytes = pending.total List.length
  above : ∀ s, pending.contains s = true → nextExpected < s

namespace ReceiveBuffer

def new (maxBytes : Nat) : ReceiveBuffer where
  nextExpected := 0
  pending := .empty
  ready := []
  bufferedBytes := 0
  maxBytes := maxBytes
  accounted := rfl
  above _ h := by cases h

def withDefaultCapacity : ReceiveBuffer := new (16 * 1024 * 1024)

/-- The state in which the `while` loop starts: `payload` is delivered. -/
def deliver (r : ReceiveBuffer) (payload : Bytes) : Reassembly where
  nextExpected := r.nextExpected + 1
  pending := r.pending
  ready := r.ready ++ [payload]
  bufferedBytes := r.bufferedBytes
  accounted := r.accounted
  atLeast s hs := succ_le_of_lt (r.above s hs)

def ofDrained (r : Reassembly) (maxBytes : Nat) (h : r.pending.get? r.nextExpected = none) :
    ReceiveBuffer where
  nextExpected := r.nextExpected
  pending := r.pending
  ready := r.ready
  bufferedBytes := r.bufferedBytes
  maxBytes := maxBytes
  accounted := r.accounted
  above s hs := lt_of_le_of_ne (r.atLeast s hs) fun heq => by
    rw [SortedMap.contains, ← heq, h] at hs
    cases hs

/-- Hold a chunk that is ahead of the gap. -/
def hold (r : ReceiveBuffer) (sequence : UInt64) (payload : Bytes)
    (hnew : r.pending.contains sequence = false) (habove : r.nextExpected < sequence) :
    ReceiveBuffer where
  nextExpected := r.nextExpected
  pending := r.pending.insert sequence payload
  ready := r.ready
  bufferedBytes := r.bufferedBytes + payload.length
  maxBytes := r.maxBytes
  accounted := by
    have herase := SortedMap.total_erase List.length r.pending sequence
    rw [SortedMap.contains_eq_false.mp hnew, Option.map_none, Option.getD_none] at herase
    rw [SortedMap.total_insert, r.accounted]
    omega
  above s hs := by
    rcases SortedMap.contains_insert.mp hs with rfl | hs
    · exact habove
    · exact r.above s hs

def accept (r : ReceiveBuffer) (sequence : UInt64) (payload : Bytes) :
    Result (Received × ReceiveBuffer) :=
  if hdup : sequence < r.nextExpected ∨ r.pending.contains sequence = true then
    .ok (.duplicate, r)
  else if habove : sequence > r.nextExpected then
    if r.bufferedBytes + payload.length > r.maxBytes then
      .error (.receiveBufferFull r.bufferedBytes r.maxBytes)
    else
      .ok (.buffered, r.hold sequence payload (by simpa using (not_or.mp hdup).2) habove)
  else
    .ok (.ready, ofDrained ((r.deliver payload).drain r.pending.size) r.maxBytes
      (Reassembly.get?_drain le_rfl))

def drainReady (r : ReceiveBuffer) : List Bytes × ReceiveBuffer := (r.ready, { r with ready := [] })

/-! ## What has been seen -/

/-- The sequences that need no resending: delivered or held. -/
def Seen (r : ReceiveBuffer) (s : UInt64) : Prop :=
  s < r.nextExpected ∨ r.pending.contains s = true

instance (r : ReceiveBuffer) (s : UInt64) : Decidable (r.Seen s) :=
  inferInstanceAs (Decidable (_ ∨ _))

theorem not_seen_nextExpected (r : ReceiveBuffer) : ¬ r.Seen r.nextExpected := by
  rintro (h | h)
  · exact lt_irrefl _ h
  · exact lt_irrefl _ (r.above _ h)

/-- The cumulative point is the least sequence not seen. -/
theorem isLeast_nextExpected (r : ReceiveBuffer) :
    IsLeast { s | ¬ r.Seen s } r.nextExpected :=
  ⟨r.not_seen_nextExpected, fun _ hs => not_lt.mp fun hlt => hs (Or.inl hlt)⟩

theorem drainReady_of_nil {r : ReceiveBuffer} (h : r.ready = []) : r.drainReady.2 = r := by
  cases r
  cases h
  rfl

@[simp] theorem seen_drainReady {r : ReceiveBuffer} {s : UInt64} :
    r.drainReady.2.Seen s ↔ r.Seen s := Iff.rfl

/-! ## The stream a buffer delivers -/

/-- `delivered` has been handed on, and `content` is what each sequence
carries. -/
structure TracksAt (next : UInt64) (pending : SortedMap UInt64 Bytes) (ready delivered : List Bytes)
    (content : Nat → Option Bytes) : Prop where
  stream : (delivered ++ ready).map some = (List.range next.toNat).map content
  held : ∀ s v, pending.get? s = some v → content s.toNat = some v

abbrev Tracks (r : ReceiveBuffer) (delivered : List Bytes) (content : Nat → Option Bytes) : Prop :=
  TracksAt r.nextExpected r.pending r.ready delivered content

theorem tracks_new (maxBytes : Nat) (content : Nat → Option Bytes) :
    (new maxBytes).Tracks [] content where
  stream := rfl
  held _ _ h := by simp [new] at h

theorem Tracks.drainReady {r : ReceiveBuffer} {delivered : List Bytes}
    {content : Nat → Option Bytes} (h : r.Tracks delivered content) :
    r.drainReady.2.Tracks (delivered ++ r.ready) content where
  stream := by simpa [ReceiveBuffer.drainReady] using h.stream
  held := h.held

/-- Sequences that carry nothing yet may be given a content later. -/
theorem TracksAt.mono {next : UInt64} {pending : SortedMap UInt64 Bytes}
    {ready delivered : List Bytes} {content content' : Nat → Option Bytes}
    (h : TracksAt next pending ready delivered content)
    (hle : ∀ i v, content i = some v → content' i = some v) :
    TracksAt next pending ready delivered content' where
  stream := by
    rw [h.stream]
    refine List.map_congr_left ?_
    intro i hi
    have hmem : content i ∈ (delivered ++ ready).map some := by
      rw [h.stream]
      exact List.mem_map.mpr ⟨i, hi, rfl⟩
    obtain ⟨v, -, hv⟩ := List.mem_map.mp hmem
    rw [← hv, hle i v hv.symm]
  held s v hv := hle _ _ (h.held s v hv)

theorem TracksAt.content_isSome {next : UInt64} {pending : SortedMap UInt64 Bytes}
    {ready delivered : List Bytes} {content : Nat → Option Bytes}
    (h : TracksAt next pending ready delivered content) {i : Nat} (hi : i < next.toNat) :
    ∃ v, content i = some v := by
  have hmem : content i ∈ (delivered ++ ready).map some := by
    rw [h.stream]
    exact List.mem_map.mpr ⟨i, List.mem_range.mpr hi, rfl⟩
  obtain ⟨v, -, hv⟩ := List.mem_map.mp hmem
  exact ⟨v, hv.symm⟩

/-- What is ready continues the stream from where all of it was delivered. -/
theorem ready_continues {content : Nat → Option Bytes} {delivered ready : List Bytes} {n m : Nat}
    (hn : delivered.map some = (List.range n).map content)
    (hm : (delivered ++ ready).map some = (List.range m).map content) :
    m = n + ready.length ∧ ready.map some = (List.range' n ready.length).map content := by
  have hlen := congrArg List.length hn
  have hlen' := congrArg List.length hm
  simp only [List.length_map, List.length_append, List.length_range] at hlen hlen'
  have hmn : m = n + ready.length := by omega
  refine ⟨hmn, ?_⟩
  rw [hmn, List.range_eq_range', ← List.range'_append_1, Nat.zero_add, List.map_append,
    List.map_append, hn, ← List.range_eq_range'] at hm
  exact List.append_cancel_left hm

section
variable {content : Nat → Option Bytes} {delivered : List Bytes}

/-- Delivering the payload of the cumulative point extends the stream by it. -/
theorem stream_concat {next : UInt64} {ready : List Bytes} {v : Bytes}
    (hstream : (delivered ++ ready).map some = (List.range next.toNat).map content)
    (hv : content next.toNat = some v) (hsucc : (next + 1).toNat = next.toNat + 1) :
    (delivered ++ (ready ++ [v])).map some = (List.range (next + 1).toNat).map content := by
  rw [hsucc, List.range_succ, List.map_append (f := content), ← hstream]
  simp [hv]

theorem toNat_succ_of_content (hbound : ∀ i v, content i = some v → i < 2 ^ 64 - 1)
    {next : UInt64} {v : Bytes} (hv : content next.toNat = some v) :
    (next + 1).toNat = next.toNat + 1 := by
  have := hbound _ _ hv
  rw [UInt64.toNat_add, UInt64.toNat_one]
  omega

/-- What the delivery loop keeps: the stream, and the set of sequences
delivered or held. -/
def LoopInv (content : Nat → Option Bytes) (delivered : List Bytes) (seen : UInt64 → Prop)
    (r : Reassembly) : Prop :=
  TracksAt r.nextExpected r.pending r.ready delivered content
    ∧ ∀ s, (s < r.nextExpected ∨ r.pending.contains s = true) ↔ seen s

theorem loopInv_release (hbound : ∀ i v, content i = some v → i < 2 ^ 64 - 1)
    {seen : UInt64 → Prop} (r : Reassembly) (next : Bytes)
    (h : r.pending.get? r.nextExpected = some next) (hr : LoopInv content delivered seen r) :
    LoopInv content delivered seen (r.release next h) := by
  obtain ⟨ht, hseen⟩ := hr
  have hcontent := ht.held _ _ h
  have hsucc := toNat_succ_of_content hbound hcontent
  refine ⟨⟨stream_concat ht.stream hcontent hsucc, fun s v hv => ?_⟩, fun s => ?_⟩
  · simp only [Reassembly.release, SortedMap.get?_erase] at hv
    split at hv
    · cases hv
    · exact ht.held s v hv
  · rw [← hseen s]
    simp only [Reassembly.release, SortedMap.contains, SortedMap.get?_erase]
    by_cases hs : s = r.nextExpected
    · have hlt : s < r.nextExpected + 1 := by
        rw [UInt64.lt_iff_toNat_lt, hsucc, hs]; omega
      simp [hs, h, hs ▸ hlt]
    · have hiff : s < r.nextExpected + 1 ↔ s < r.nextExpected := by
        rw [← UInt64.toNat_inj] at hs
        rw [UInt64.lt_iff_toNat_lt, UInt64.lt_iff_toNat_lt, hsucc]; omega
      simp [hs, hiff]

/-! ## The outcome of offering a chunk -/

theorem accept_of_seen {r : ReceiveBuffer} {s : UInt64} (h : r.Seen s) (v : Bytes) :
    r.accept s v = .ok (.duplicate, r) := by
  unfold accept
  exact dif_pos h

theorem accept_of_eq (r : ReceiveBuffer) (v : Bytes) :
    ∃ r', r.accept r.nextExpected v = .ok (.ready, r') := by
  unfold accept
  exact ⟨_, (dif_neg r.not_seen_nextExpected).trans (dif_neg (lt_irrefl _))⟩

/-- With nothing held, the chunk at the cumulative point is all that is
delivered. -/
theorem accept_of_isEmpty (r : ReceiveBuffer) (v : Bytes) (h : r.pending.isEmpty = true) :
    ∃ r', r.accept r.nextExpected v = .ok (.ready, r') ∧ r'.nextExpected = r.nextExpected + 1
      ∧ r'.ready = r.ready ++ [v] ∧ r'.pending = r.pending := by
  have hdrain : (r.deliver v).drain r.pending.size = r.deliver v := by
    rw [SortedMap.size, SortedMap.isEmpty_iff.mp h]
    rfl
  unfold accept
  refine ⟨_, (dif_neg r.not_seen_nextExpected).trans (dif_neg (lt_irrefl _)), ?_⟩
  simp only [ofDrained, hdrain]
  exact ⟨rfl, rfl, rfl⟩

/-- The three successful outcomes, and what each does to the buffer. -/
theorem accept_cases {r r' : ReceiveBuffer} {s : UInt64} {v : Bytes} {o : Received}
    (h : r.accept s v = .ok (o, r')) :
    (o = .duplicate ∧ r.Seen s ∧ r' = r)
      ∨ (∃ hnew habove, o = .buffered ∧ r' = r.hold s v hnew habove)
      ∨ (∃ hdone, o = .ready ∧ s = r.nextExpected
          ∧ r' = ofDrained ((r.deliver v).drain r.pending.size) r.maxBytes hdone) := by
  unfold accept at h
  split at h
  · rename_i hseen
    obtain ⟨rfl, rfl⟩ := Prod.mk.inj (Except.ok.inj h)
    exact Or.inl ⟨rfl, hseen, rfl⟩
  · rename_i hnot
    split at h
    · rename_i habove
      split at h
      · cases h
      · obtain ⟨rfl, rfl⟩ := Prod.mk.inj (Except.ok.inj h)
        exact Or.inr (Or.inl ⟨_, habove, rfl, rfl⟩)
    · rename_i hle
      obtain ⟨rfl, rfl⟩ := Prod.mk.inj (Except.ok.inj h)
      have heq : s = r.nextExpected :=
        le_antisymm (not_lt.mp hle) (not_lt.mp (not_or.mp hnot).1)
      exact Or.inr (Or.inr ⟨_, rfl, heq, rfl⟩)

/-- A chunk that is not refused leaves the buffer within its bound. -/
theorem accept_bounded {r r' : ReceiveBuffer} {s : UInt64} {v : Bytes} {o : Received}
    (h : r.accept s v = .ok (o, r')) (hle : r.bufferedBytes ≤ r.maxBytes) :
    r'.maxBytes = r.maxBytes ∧ r'.bufferedBytes ≤ r.maxBytes := by
  unfold accept at h
  split at h
  · obtain ⟨-, rfl⟩ := Prod.mk.inj (Except.ok.inj h)
    exact ⟨rfl, hle⟩
  split at h
  · split at h
    · cases h
    · rename_i hfits
      obtain ⟨-, rfl⟩ := Prod.mk.inj (Except.ok.inj h)
      exact ⟨rfl, not_lt.mp hfits⟩
  · obtain ⟨-, rfl⟩ := Prod.mk.inj (Except.ok.inj h)
    refine ⟨rfl, ?_⟩
    -- the loop only gives bytes back
    have hloop := Reassembly.drain_induct (I := fun q => q.bufferedBytes ≤ r.maxBytes)
      (fun q next hq hI => (Nat.sub_le _ _).trans hI) r.pending.size (r := r.deliver v) hle
    exact hloop

theorem eq_of_accept_duplicate {r r' : ReceiveBuffer} {s : UInt64} {v : Bytes}
    (h : r.accept s v = .ok (.duplicate, r')) : r' = r := by
  rcases accept_cases h with ⟨-, -, rfl⟩ | ⟨_, _, h, -⟩ | ⟨_, h, -⟩
  · rfl
  · cases h
  · cases h

theorem lt_add_one_cases {a b : UInt64} (h : a < b + 1) : a < b ∨ a = b := by
  rw [UInt64.lt_iff_toNat_lt, UInt64.toNat_add, UInt64.toNat_one] at h
  rw [UInt64.lt_iff_toNat_lt, ← UInt64.toNat_inj]
  have := b.toNat_lt
  omega

/-- Offering a chunk makes no other sequence seen, also where the cumulative
point wraps around at the top of the sequence space. -/
theorem seen_of_accept {r r' : ReceiveBuffer} {s x : UInt64} {v : Bytes} {o : Received}
    (h : r.accept s v = .ok (o, r')) (hx : r'.Seen x) : r.Seen x ∨ x = s := by
  rcases accept_cases h with ⟨-, -, rfl⟩ | ⟨hnew, habove, -, rfl⟩ | ⟨hdone, -, rfl, rfl⟩
  · exact Or.inl hx
  · simp only [Seen, hold, SortedMap.contains_insert] at hx ⊢
    tauto
  · refine Reassembly.drain_induct
      (I := fun q => (x < q.nextExpected ∨ q.pending.contains x = true) →
        r.Seen x ∨ x = r.nextExpected) (fun q next hq ih hx => ih ?_) r.pending.size ?_ hx
    · rcases hx with hx | hx
      · rcases lt_add_one_cases hx with hx | rfl
        · exact Or.inl hx
        · exact Or.inr (SortedMap.contains_iff.mpr ⟨next, hq⟩)
      · obtain ⟨w, hw⟩ := SortedMap.contains_iff.mp hx
        simp only [Reassembly.release, SortedMap.get?_erase] at hw
        split at hw
        · cases hw
        · exact Or.inr (SortedMap.contains_iff.mpr ⟨w, hw⟩)
    · rintro (hx | hx)
      · exact (lt_add_one_cases hx).imp_left Or.inl
      · exact Or.inl (Or.inr hx)

/-- A genuine chunk that is not refused keeps the stream, and is the only
sequence that becomes seen. -/
theorem accept_tracks (hbound : ∀ i v, content i = some v → i < 2 ^ 64 - 1)
    {r r' : ReceiveBuffer} (ht : r.Tracks delivered content) {s : UInt64} {v : Bytes}
    (hv : content s.toNat = some v) {o : Received} (h : r.accept s v = .ok (o, r')) :
    r'.Tracks delivered content ∧ ∀ x, r'.Seen x ↔ x = s ∨ r.Seen x := by
  rcases accept_cases h with ⟨-, hseen, rfl⟩ | ⟨hnew, habove, -, rfl⟩ | ⟨hdone, -, rfl, rfl⟩
  · refine ⟨ht, fun x => ⟨Or.inr, ?_⟩⟩
    rintro (rfl | hx)
    · exact hseen
    · exact hx
  · refine ⟨⟨ht.stream, fun x w hw => ?_⟩, fun x => ?_⟩
    · simp only [hold, SortedMap.get?_insert] at hw
      split at hw
      · rename_i hx
        obtain rfl := Option.some.inj hw
        exact hx ▸ hv
      · exact ht.held x w hw
    · simp only [Seen, hold, SortedMap.contains_insert]
      tauto
  · have hsucc := toNat_succ_of_content hbound hv
    have hstart : LoopInv content delivered (fun x => x = r.nextExpected ∨ r.Seen x)
        (r.deliver v) := by
      refine ⟨⟨stream_concat ht.stream hv hsucc, ht.held⟩, fun x => ?_⟩
      have hiff : x < r.nextExpected + 1 ↔ x = r.nextExpected ∨ x < r.nextExpected := by
        rw [UInt64.lt_iff_toNat_lt, UInt64.lt_iff_toNat_lt, ← UInt64.toNat_inj, hsucc]; omega
      simp only [deliver, Seen, hiff, or_assoc]
    obtain ⟨hdone', hseen⟩ := Reassembly.drain_induct (fun r next h => loopInv_release hbound r next h)
      r.pending.size hstart
    exact ⟨hdone', hseen⟩

/-- Everything the content has is seen, so everything is delivered. -/
theorem Tracks.complete {r : ReceiveBuffer} {n : Nat}
    (ht : r.Tracks delivered content) (hcontent : ∀ i v, content i = some v → i < n)
    (hseen : ∀ s : UInt64, s.toNat < n → r.Seen s) :
    r.nextExpected.toNat = n ∧ ∀ s, r.pending.get? s = none := by
  have hle : n ≤ r.nextExpected.toNat := by
    by_contra hlt
    exact r.not_seen_nextExpected (hseen _ (by omega))
  have hge : r.nextExpected.toNat ≤ n := by
    by_contra hgt
    obtain ⟨v, hv⟩ := ht.content_isSome (i := n) (by omega)
    exact absurd (hcontent n v hv) (lt_irrefl n)
  refine ⟨by omega, fun s => ?_⟩
  cases hs : r.pending.get? s with
  | none => rfl
  | some v =>
      have hlt := hcontent _ _ (ht.held s v hs)
      have habove := UInt64.lt_iff_toNat_lt.mp
        (r.above s (SortedMap.contains_iff.mpr ⟨v, hs⟩))
      omega

end

/-! ## Below the top of the sequence space -/

/-- What is held is below the top of the sequence space. -/
def Low (r : ReceiveBuffer) : Prop := ∀ s, r.pending.contains s = true → s < u64Max

/-- What the delivery loop keeps where the cumulative point cannot wrap. -/
def Keeps (seen : UInt64 → Prop) (r : Reassembly) : Prop :=
  (∀ s, r.pending.contains s = true → s < u64Max)
    ∧ ∀ s, (s < r.nextExpected ∨ r.pending.contains s = true) ↔ seen s

theorem lt_succ_iff {a b : UInt64} (hb : b < u64Max) : a < b + 1 ↔ a = b ∨ a < b := by
  rw [UInt64.lt_iff_toNat_lt, UInt64.lt_iff_toNat_lt, ← UInt64.toNat_inj, toNat_succ_of_lt hb]
  omega

theorem keeps_release {seen : UInt64 → Prop} (r : Reassembly) (next : Bytes)
    (h : r.pending.get? r.nextExpected = some next) (hr : Keeps seen r) :
    Keeps seen (r.release next h) := by
  obtain ⟨hlow, hseen⟩ := hr
  have hcontains : r.pending.contains r.nextExpected = true := SortedMap.contains_iff.mpr ⟨_, h⟩
  refine ⟨fun s hs => ?_, fun s => ?_⟩
  · obtain ⟨v, hv⟩ := SortedMap.contains_iff.mp hs
    simp only [Reassembly.release, SortedMap.get?_erase] at hv
    split at hv
    · cases hv
    · exact hlow s (SortedMap.contains_iff.mpr ⟨v, hv⟩)
  · rw [← hseen s]
    simp only [Reassembly.release, SortedMap.contains, SortedMap.get?_erase,
      lt_succ_iff (hlow _ hcontains)]
    by_cases hs : s = r.nextExpected
    · simp [hs, h]
    · simp [hs]

/-- A chunk that is not refused is seen from then on. -/
theorem seen_accept {r r' : ReceiveBuffer} (hlow : r.Low) {s : UInt64} (hs : s < u64Max)
    {v : Bytes} {o : Received} (h : r.accept s v = .ok (o, r')) :
    r'.Low ∧ ∀ x, r'.Seen x ↔ x = s ∨ r.Seen x := by
  rcases accept_cases h with ⟨-, hseen, rfl⟩ | ⟨hnew, habove, -, rfl⟩ | ⟨hdone, -, rfl, rfl⟩
  · refine ⟨hlow, fun x => ⟨Or.inr, ?_⟩⟩
    rintro (rfl | hx)
    · exact hseen
    · exact hx
  · refine ⟨fun x hx => ?_, fun x => ?_⟩
    · rcases SortedMap.contains_insert.mp hx with rfl | hx
      · exact hs
      · exact hlow x hx
    · simp only [Seen, hold, SortedMap.contains_insert]
      tauto
  · have hstart : Keeps (fun x => x = r.nextExpected ∨ r.Seen x) (r.deliver v) := by
      refine ⟨hlow, fun x => ?_⟩
      simp only [deliver, Seen, lt_succ_iff hs, or_assoc]
    exact Reassembly.drain_induct keeps_release r.pending.size hstart

end ReceiveBuffer

end Kanrin
