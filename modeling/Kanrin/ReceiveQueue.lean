import Kanrin.Lib.Run
import Kanrin.ReceiveBuffer

/-!
# The receive buffer as a queue

`ReceiveBuffer` of `continuity.rs` once more, as the source has it: a
record of five fields with nothing known about them, changed in place, and
an arithmetic operation that would overflow or underflow stops the program
(`none`). `accept_toRaw` says that the structure of the same name, which
carries its invariants, does the same, and never stops.

What the buffer is for is said by `ReceiveQueue`, which keeps every call
and what came of it: the payloads handed out are those of the first
accepted call of each sequence, in order, none missing (`Refines`).
-/

namespace Kanrin

open Lib

structure RawReceiveBuffer where
  nextExpected : UInt64
  pending : SortedMap UInt64 Bytes
  ready : List Bytes
  bufferedBytes : Nat
  maxBytes : Nat

namespace RawReceiveBuffer

def new (maxBytes : Nat) : RawReceiveBuffer where
  nextExpected := 0
  pending := .empty
  ready := []
  bufferedBytes := 0
  maxBytes := maxBytes

/-- `a -= b` on a `usize`. -/
def checkedSub (a b : Nat) : Option Nat := if b ≤ a then some (a - b) else none

/-- The `while` loop. Each turn removes a chunk, so there are at most as
many turns as chunks. -/
def drainLoop : (fuel : Nat) → RawReceiveBuffer → Option RawReceiveBuffer
  | 0, r => some r
  | fuel + 1, r =>
      match r.pending.get? r.nextExpected with
      | none => some r
      | some next => do
          let bufferedBytes ← checkedSub r.bufferedBytes next.length
          let nextExpected ← checkedSucc r.nextExpected
          drainLoop fuel
            { r with
              nextExpected
              pending := r.pending.erase r.nextExpected
              ready := r.ready ++ [next]
              bufferedBytes }

def accept (r : RawReceiveBuffer) (sequence : UInt64) (payload : Bytes) :
    Option (Result Received × RawReceiveBuffer) :=
  if sequence < r.nextExpected ∨ r.pending.contains sequence = true then some (.ok .duplicate, r)
  else if sequence > r.nextExpected then
    if r.bufferedBytes + payload.length > r.maxBytes then
      some (.error (.receiveBufferFull r.bufferedBytes r.maxBytes), r)
    else
      some (.ok .buffered,
        { r with
          bufferedBytes := r.bufferedBytes + payload.length
          pending := r.pending.insert sequence payload })
  else do
    let nextExpected ← checkedSucc r.nextExpected
    let r ← drainLoop r.pending.size { r with nextExpected, ready := r.ready ++ [payload] }
    return (.ok .ready, r)

def drainReady (r : RawReceiveBuffer) : List Bytes × RawReceiveBuffer :=
  (r.ready, { r with ready := [] })

end RawReceiveBuffer

/-! ## The two buffers do the same -/

def Reassembly.toRaw (r : Reassembly) (maxBytes : Nat) : RawReceiveBuffer where
  nextExpected := r.nextExpected
  pending := r.pending
  ready := r.ready
  bufferedBytes := r.bufferedBytes
  maxBytes := maxBytes

def ReceiveBuffer.toRaw (r : ReceiveBuffer) : RawReceiveBuffer where
  nextExpected := r.nextExpected
  pending := r.pending
  ready := r.ready
  bufferedBytes := r.bufferedBytes
  maxBytes := r.maxBytes

theorem checkedSucc_of_lt {s : UInt64} (h : s < u64Max) : checkedSucc s = some (s + 1) :=
  if_neg (ne_of_lt h)

/-- The loop neither underflows nor overflows, and does what the loop over
the structure does. -/
theorem drainLoop_toRaw (fuel : Nat) {r : Reassembly} (maxBytes : Nat)
    (hkeys : ∀ s, r.pending.contains s = true → s < u64Max) :
    RawReceiveBuffer.drainLoop fuel (r.toRaw maxBytes) = some ((r.drain fuel).toRaw maxBytes) := by
  induction fuel generalizing r with
  | zero => rfl
  | succ fuel ih =>
      unfold RawReceiveBuffer.drainLoop Reassembly.drain
      split
      · rename_i hnone
        split
        · rfl
        · rename_i next hnext
          exact nomatch hnone.symm.trans hnext
      · rename_i next hnext
        split
        · rename_i hnone
          exact nomatch hnone.symm.trans hnext
        · rename_i next' hnext'
          obtain rfl := Option.some.inj (hnext.symm.trans hnext')
          have hle : next.length ≤ r.bufferedBytes := by
            rw [r.accounted]
            exact SortedMap.le_total List.length hnext
          have hlt : r.nextExpected < u64Max := hkeys _ (SortedMap.contains_iff.mpr ⟨next, hnext⟩)
          have hsub : RawReceiveBuffer.checkedSub r.bufferedBytes next.length
              = some (r.bufferedBytes - next.length) := if_pos hle
          show (RawReceiveBuffer.checkedSub r.bufferedBytes next.length).bind _ = _
          rw [hsub, Option.bind_some]
          show (checkedSucc r.nextExpected).bind _ = _
          rw [checkedSucc_of_lt hlt, Option.bind_some]
          refine ih (r := r.release next hnext) ?_
          intro s hs
          obtain ⟨v, hv⟩ := SortedMap.contains_iff.mp hs
          simp only [Reassembly.release, SortedMap.get?_erase] at hv
          split at hv
          · cases hv
          · exact hkeys s (SortedMap.contains_iff.mpr ⟨v, hv⟩)

theorem accept_toRaw {r : ReceiveBuffer} {sequence : UInt64} (hseq : sequence < u64Max)
    (hkeys : ∀ s, r.pending.contains s = true → s < u64Max) (payload : Bytes) :
    r.toRaw.accept sequence payload = some (match r.accept sequence payload with
      | .ok (o, r') => (.ok o, r'.toRaw)
      | .error e => (.error e, r.toRaw)) := by
  unfold RawReceiveBuffer.accept ReceiveBuffer.accept
  by_cases hdup : sequence < r.nextExpected ∨ r.pending.contains sequence = true
  · rw [dif_pos hdup]
    exact if_pos hdup
  rw [dif_neg hdup]
  refine (if_neg hdup).trans ?_
  by_cases habove : sequence > r.nextExpected
  · rw [dif_pos habove]
    refine (if_pos habove).trans ?_
    by_cases hfull : r.bufferedBytes + payload.length > r.maxBytes
    · rw [if_pos hfull]
      exact if_pos hfull
    · rw [if_neg hfull]
      exact if_neg hfull
  · rw [dif_neg habove]
    refine (if_neg habove).trans ?_
    have heq : sequence = r.nextExpected :=
      le_antisymm (not_lt.mp habove) (not_lt.mp (not_or.mp hdup).1)
    have hloop := drainLoop_toRaw r.pending.size (r := r.deliver payload) r.maxBytes hkeys
    have hsucc : checkedSucc r.nextExpected = some (r.nextExpected + 1) :=
      checkedSucc_of_lt (heq ▸ hseq)
    show (checkedSucc r.nextExpected).bind _ = _
    rw [hsucc, Option.bind_some]
    show (RawReceiveBuffer.drainLoop r.pending.size
      ((r.deliver payload).toRaw r.maxBytes)).bind _ = _
    rw [hloop]
    rfl

/-! ## The queue it is -/

/-- A call of `accept` and what it returned. -/
structure Offer where
  sequence : UInt64
  payload : Bytes
  outcome : Result Received

def Offer.accepted (o : Offer) : Bool := o.outcome.toOption.isSome

structure ReceiveQueue where
  buffer : RawReceiveBuffer
  /-- The payloads handed out by `drain_ready`. -/
  drained : List Bytes
  offers : List Offer

namespace ReceiveQueue

inductive Op where
  | accept (sequence : UInt64) (payload : Bytes)
  | drainReady

def start (maxBytes : Nat) : ReceiveQueue where
  buffer := .new maxBytes
  drained := []
  offers := []

def record (t : ReceiveQueue) (buffer : RawReceiveBuffer) (o : Offer) : ReceiveQueue :=
  { t with buffer, offers := t.offers ++ [o] }

def step (t : ReceiveQueue) : Op → Option ReceiveQueue
  | .accept sequence payload =>
      (t.buffer.accept sequence payload).map fun (outcome, buffer) =>
        t.record buffer { sequence, payload, outcome }
  | .drainReady =>
      let (payloads, buffer) := t.buffer.drainReady
      some { t with buffer, drained := t.drained ++ payloads }

/-- The payload of the first call for a sequence that was not refused. -/
def firstAccepted (t : ReceiveQueue) (i : Nat) : Option Bytes :=
  (t.offers.find? fun o => decide (o.sequence.toNat = i) && o.accepted).map Offer.payload

/-- The buffer is the queue of the payloads first accepted. -/
structure Refines (maxBytes : Nat) (t : ReceiveQueue) : Prop where
  stream : (t.drained ++ t.buffer.ready).map some
    = (List.range t.buffer.nextExpected.toNat).map t.firstAccepted
  pending : ∀ s v, t.buffer.pending.get? s = some v
    ↔ t.firstAccepted s.toNat = some v ∧ t.buffer.nextExpected < s
  accounted : t.buffer.bufferedBytes = t.buffer.pending.total List.length
  bounded : t.buffer.bufferedBytes ≤ maxBytes

/-- How the next call comes out. -/
structure Answers (t : ReceiveQueue) (s : UInt64) (v : Bytes) (outcome : Result Received)
    (buffer : RawReceiveBuffer) : Prop where
  answer : t.buffer.accept s v = some (outcome, buffer)
  duplicate : outcome = .ok .duplicate ↔ (t.firstAccepted s.toNat).isSome = true
  inOrder : s = t.buffer.nextExpected → ∃ o, outcome = .ok o
  refused : ∀ e, outcome = .error e → buffer = t.buffer

/-! ## The invariant -/

structure Inv (maxBytes : Nat) (t : ReceiveQueue) (r : ReceiveBuffer) : Prop where
  buffer : t.buffer = r.toRaw
  tracks : r.Tracks t.drained t.firstAccepted
  seen : ∀ s : UInt64, r.Seen s ↔ (t.firstAccepted s.toNat).isSome = true
  below : ∀ i v, t.firstAccepted i = some v → i < 2 ^ 64 - 1
  cap : r.maxBytes = maxBytes
  bounded : r.bufferedBytes ≤ maxBytes

theorem inv_start (maxBytes : Nat) : (start maxBytes).Inv maxBytes (.new maxBytes) where
  buffer := rfl
  tracks := ReceiveBuffer.tracks_new ..
  seen s := by
    constructor
    · rintro (h | h)
      · exact absurd h (by simp [ReceiveBuffer.new])
      · cases h
    · intro h
      cases h
  below i v h := by cases h
  cap := rfl
  bounded := Nat.zero_le _

/-- One more call is the first for its sequence, if it is accepted and no
earlier one was. -/
theorem firstAccepted_concat (t : ReceiveQueue) (buffer : RawReceiveBuffer) (o : Offer) (i : Nat) :
    (t.record buffer o).firstAccepted i
      = (t.firstAccepted i).or
          (if o.sequence.toNat = i ∧ o.accepted = true then some o.payload else none) := by
  simp only [firstAccepted, record, List.find?_append, Option.map_or]
  congr 1
  by_cases h : o.sequence.toNat = i ∧ o.accepted = true
  · simp [h.1, h.2]
  · rw [if_neg h]
    have hnot : (decide (o.sequence.toNat = i) && o.accepted) = false := by
      simpa only [Bool.and_eq_false_iff, decide_eq_false_iff_not, Bool.not_eq_true,
        Decidable.not_and_iff_not_or_not] using h
    simp [hnot]

theorem Inv.refines {maxBytes : Nat} {t : ReceiveQueue} {r : ReceiveBuffer}
    (h : t.Inv maxBytes r) : t.Refines maxBytes where
  stream := by
    rw [h.buffer]
    exact h.tracks.stream
  pending s v := by
    rw [h.buffer]
    constructor
    · intro hget
      have habove := r.above s (SortedMap.contains_iff.mpr ⟨v, hget⟩)
      exact ⟨h.tracks.held s v hget, habove⟩
    · rintro ⟨hfirst, habove⟩
      -- accepted and not yet delivered, so it is held
      have hseen : r.Seen s := (h.seen s).mpr (by rw [hfirst]; rfl)
      rcases hseen with hlt | hcontains
      · exact absurd hlt (lt_asymm habove)
      · obtain ⟨w, hw⟩ := SortedMap.contains_iff.mp hcontains
        have := (h.tracks.held s w hw).symm.trans hfirst
        rw [← Option.some.inj this]
        exact hw
  accounted := by
    rw [h.buffer]
    exact r.accounted
  bounded := by
    rw [h.buffer]
    exact h.bounded

theorem Inv.drainReady {maxBytes : Nat} {t : ReceiveQueue} {r : ReceiveBuffer}
    (h : t.Inv maxBytes r) : ∃ t' r', t.step .drainReady = some t' ∧ t'.Inv maxBytes r' := by
  obtain ⟨buffer, drained, offers⟩ := t
  obtain rfl : buffer = r.toRaw := h.buffer
  exact ⟨_, r.drainReady.2, rfl,
    { buffer := rfl
      tracks := h.tracks.drainReady
      seen := h.seen
      below := h.below
      cap := h.cap
      bounded := h.bounded }⟩

/-- A call that is no news: refused, or for a sequence accepted before. -/
theorem Inv.keep {maxBytes : Nat} {t : ReceiveQueue} {r : ReceiveBuffer} (h : t.Inv maxBytes r)
    {o : Offer} (hold : o.accepted = true → (t.firstAccepted o.sequence.toNat).isSome = true) :
    (t.record r.toRaw o).Inv maxBytes r := by
  have hfirst : (t.record r.toRaw o).firstAccepted = t.firstAccepted := by
    funext i
    rw [firstAccepted_concat]
    split
    · rename_i hnew
      obtain ⟨w, hw⟩ := Option.isSome_iff_exists.mp (hnew.1 ▸ hold hnew.2)
      rw [hw, Option.or_some]
      rfl
    · exact Option.or_none
  exact
    { buffer := rfl
      tracks := by
        rw [hfirst]
        exact h.tracks
      seen := by
        rw [hfirst]
        exact h.seen
      below := by
        rw [hfirst]
        exact h.below
      cap := h.cap
      bounded := h.bounded }

/-- A call that is the first to be accepted for its sequence. -/
theorem Inv.extend {maxBytes : Nat} {t : ReceiveQueue} {r r' : ReceiveBuffer}
    (h : t.Inv maxBytes r) {s : UInt64} {v : Bytes} {o : Received} (hs : s < u64Max)
    (hnew : ¬ r.Seen s) (haccept : r.accept s v = .ok (o, r')) :
    (t.record r'.toRaw ⟨s, v, .ok o⟩).Inv maxBytes r' := by
  have hnone : t.firstAccepted s.toNat = none := by
    rw [h.seen, Option.not_isSome_iff_eq_none] at hnew
    exact hnew
  have hfirst : ∀ i, (t.record r'.toRaw ⟨s, v, .ok o⟩).firstAccepted i
        = if s.toNat = i then some v else t.firstAccepted i := by
    intro i
    rw [firstAccepted_concat]
    by_cases hi : s.toNat = i
    · subst hi
      simp [hnone, Offer.accepted, Except.toOption]
    · simp [hi]
  have hmono : ∀ i w, t.firstAccepted i = some w → (t.record r'.toRaw ⟨s, v, .ok o⟩).firstAccepted i
        = some w := by
    intro i w hw
    rw [hfirst, if_neg, hw]
    rintro rfl
    rw [hnone] at hw
    cases hw
  have hbelow : ∀ i w, (t.record r'.toRaw ⟨s, v, .ok o⟩).firstAccepted i
        = some w → i < 2 ^ 64 - 1 := by
    intro i w hw
    rw [hfirst] at hw
    split at hw
    · rename_i hi
      rw [← hi]
      exact UInt64.lt_iff_toNat_lt.mp hs
    · exact h.below i w hw
  obtain ⟨htracks, hseen⟩ := ReceiveBuffer.accept_tracks hbelow (h.tracks.mono hmono)
    (by rw [hfirst, if_pos rfl]) haccept
  obtain ⟨hcap, hbounded⟩ := ReceiveBuffer.accept_bounded haccept (h.cap.symm ▸ h.bounded)
  exact
    { buffer := rfl
      tracks := htracks
      seen := fun x => by
        rw [hseen, hfirst]
        by_cases hx : s = x
        · subst hx
          simp
        · have hne : s.toNat ≠ x.toNat := fun heq => hx (UInt64.toNat_inj.mp heq)
          rw [if_neg hne, h.seen]
          exact ⟨fun hor => hor.resolve_left fun heq => hx heq.symm, Or.inr⟩
      below := hbelow
      cap := hcap.trans h.cap
      bounded := h.cap ▸ hbounded }

theorem Inv.held_lt {maxBytes : Nat} {t : ReceiveQueue} {r : ReceiveBuffer} (h : t.Inv maxBytes r)
    (s : UInt64) (hs : r.pending.contains s = true) : s < u64Max := by
  obtain ⟨v, hv⟩ := Option.isSome_iff_exists.mp ((h.seen s).mp (Or.inr hs))
  exact UInt64.lt_iff_toNat_lt.mpr (h.below _ v hv)

theorem Inv.accept {maxBytes : Nat} {t : ReceiveQueue} {r : ReceiveBuffer} (h : t.Inv maxBytes r)
    {s : UInt64} (hs : s < u64Max) (v : Bytes) :
    ∃ (outcome : Result Received) (r' : ReceiveBuffer), t.Answers s v outcome r'.toRaw
      ∧ (t.record r'.toRaw ⟨s, v, outcome⟩).Inv maxBytes r' := by
  have hraw := accept_toRaw hs h.held_lt v
  have hnext : t.buffer.nextExpected = r.nextExpected := by
    rw [h.buffer]
    rfl
  by_cases hseen : r.Seen s
  · rw [ReceiveBuffer.accept_of_seen hseen v] at hraw
    have hsome := (h.seen s).mp hseen
    exact ⟨.ok .duplicate, r,
      { answer := by
          rw [h.buffer]
          exact hraw
        duplicate := iff_of_true rfl hsome
        inOrder := fun _ => ⟨_, rfl⟩
        refused := fun _ he => (nomatch he) }, h.keep fun _ => hsome⟩
  have hnone : ¬ (t.firstAccepted s.toNat).isSome = true :=
    fun hsome => hseen ((h.seen s).mpr hsome)
  cases haccept : r.accept s v with
  | error e =>
      rw [haccept] at hraw
      refine ⟨.error e, r,
        { answer := by
            rw [h.buffer]
            exact hraw
          duplicate := iff_of_false (by rintro ⟨⟩) hnone
          inOrder := fun heq => ?_
          refused := fun _ _ => h.buffer.symm }, h.keep fun hacc => (nomatch hacc)⟩
      obtain ⟨r', hok⟩ := r.accept_of_eq v
      rw [heq, hnext, hok] at haccept
      cases haccept
  | ok p =>
      obtain ⟨o, r'⟩ := p
      rw [haccept] at hraw
      refine ⟨.ok o, r',
        { answer := by
            rw [h.buffer]
            exact hraw
          duplicate := iff_of_false (fun heq => ?_) hnone
          inOrder := fun _ => ⟨o, rfl⟩
          refused := fun _ he => (nomatch he) }, h.extend hs hseen haccept⟩
      obtain rfl := Except.ok.inj heq
      rcases ReceiveBuffer.accept_cases haccept with ⟨-, hs', -⟩ | ⟨_, _, ho, -⟩ | ⟨_, ho, -⟩
      · exact hseen hs'
      · cases ho
      · cases ho

/-- The sequence of a call of `accept`. -/
def Op.sequence? : Op → Option UInt64
  | .accept sequence _ => some sequence
  | .drainReady => none

/-- Below the top of the sequence space, no run of calls stops the program,
each leaves the buffer the queue of the payloads first accepted, and the
next call is answered accordingly. -/
theorem receive_queue {maxBytes : Nat} {ops : List Op}
    (hops : ∀ op ∈ ops, ∀ s ∈ op.sequence?, s < u64Max) :
    ∃ t, exec step (start maxBytes) ops = some t ∧ t.Refines maxBytes
      ∧ ∀ s v, s < u64Max → ∃ outcome buffer, t.Answers s v outcome buffer := by
  have hrun : ∀ (ops : List Op) (t : ReceiveQueue) (r : ReceiveBuffer), t.Inv maxBytes r →
      (∀ op ∈ ops, ∀ s ∈ op.sequence?, s < u64Max) →
      ∃ t' r', exec step t ops = some t' ∧ t'.Inv maxBytes r' := by
    intro ops
    induction ops with
    | nil => exact fun t r h _ => ⟨t, r, rfl, h⟩
    | cons op ops ih =>
        intro t r h hops
        have hrest : ∀ op' ∈ ops, ∀ s ∈ op'.sequence?, s < u64Max := fun op' hop' =>
          hops op' (List.mem_cons_of_mem _ hop')
        cases op with
        | accept s v =>
            have hs : s < u64Max := hops _ List.mem_cons_self s rfl
            obtain ⟨outcome, r', hanswer, hinv⟩ := h.accept hs v
            obtain ⟨t', r'', hexec, hinv'⟩ := ih _ r' hinv hrest
            refine ⟨t', r'', exec_cons.mpr ⟨_, ?_, hexec⟩, hinv'⟩
            simp only [step, hanswer.answer, Option.map_some]
        | drainReady =>
            obtain ⟨t1, r', hstep, hinv⟩ := h.drainReady
            obtain ⟨t', r'', hexec, hinv'⟩ := ih t1 r' hinv hrest
            exact ⟨t', r'', exec_cons.mpr ⟨t1, hstep, hexec⟩, hinv'⟩
  obtain ⟨t, r, hexec, hinv⟩ := hrun ops _ _ (inv_start maxBytes) hops
  refine ⟨t, hexec, hinv.refines, fun s v hs => ?_⟩
  obtain ⟨outcome, r', hanswer, -⟩ := hinv.accept hs v
  exact ⟨outcome, r'.toRaw, hanswer⟩

/-- Out of order, repeated with another payload, refused for want of room,
and a drain in between. -/
def reordered : List Op :=
  [.accept 1 [0x11], .accept 1 [0x99], .accept 3 [0x31, 0x32, 0x33], .accept 5 [0x51, 0x52],
    .accept 0 [0x01], .drainReady, .accept 2 [0x21], .accept 0 [0x02]]

theorem receive_queue_reordered :
    (∀ op ∈ reordered, ∀ s ∈ op.sequence?, s < u64Max)
      ∧ (∃ t, exec step (start 4) reordered = some t
          ∧ t.drained = [[0x01], [0x11]] ∧ t.buffer.ready = [[0x21], [0x31, 0x32, 0x33]])
      ∧ ∃ t, exec step (start 4) reordered = some t ∧ t.Refines 4
          ∧ ∀ s v, s < u64Max → ∃ outcome buffer, t.Answers s v outcome buffer := by
  have hops : ∀ op ∈ reordered, ∀ s ∈ op.sequence?, s < u64Max := by
    simp only [reordered, List.forall_mem_cons, Op.sequence?, Option.mem_def, Option.some.injEq,
      forall_eq', List.not_mem_nil, false_imp_iff, implies_true, and_true, reduceCtorEq]
    decide
  exact ⟨hops, ⟨_, rfl, rfl, rfl⟩, receive_queue hops⟩

end ReceiveQueue

end Kanrin
