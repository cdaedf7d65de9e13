import Mathlib.Data.List.Perm.Subperm
import Kanrin.SendLog

/-!
# Replay over a live buffer

`Replay` of `continuity.rs` while the buffer under its cursor changes. The
calls of the replay and those of the buffer come in any order; what is
asked of the callers is that only the chunk just returned is confirmed,
and that a new chunk has a higher sequence than any before it.

The cursor never has an unconfirmed chunk behind it (`Inv.covered`), so
the replay is complete when it has nothing to return, and what is left of
it is among the chunks held.
-/

namespace Kanrin

open Lib

structure Replaying where
  buffer : SendBuffer
  replay : Replay
  /-- The chunk `next_chunk` has just returned, until it is confirmed. -/
  returned : Option (UInt64 × Bytes)
  confirmed : List UInt64
  /-- The sequences held since the replay began. -/
  everHeld : List UInt64

namespace Replaying

open SendBuffer (Outcome)

inductive Op where
  | nextChunk
  /-- `confirm_sent` of the chunk just returned. -/
  | confirmSent
  | call (op : SendBuffer.Op)

def start (b : SendBuffer) : Replaying where
  buffer := b
  replay := .new
  returned := none
  confirmed := []
  everHeld := b.chunks.keys

/-- A push is of a higher sequence than any before it. -/
def Fresh (t : Replaying) : SendBuffer.Op → Prop
  | .push sequence _ => ∀ s ∈ t.everHeld, s < sequence
  | _ => True

instance (t : Replaying) (op : SendBuffer.Op) : Decidable (t.Fresh op) :=
  match op with
  | .push sequence _ => inferInstanceAs (Decidable (∀ s ∈ t.everHeld, s < sequence))
  | .ackCumulative _ | .ackSelective _ | .ackRange .. | .applyAck .. => isTrue trivial

def step (t : Replaying) : Op → Option Replaying
  | .nextChunk => some { t with returned := t.replay.nextChunk t.buffer }
  | .confirmSent =>
      t.returned.map fun (sequence, _) =>
        { t with
          replay := t.replay.confirmSent sequence
          returned := none
          confirmed := t.confirmed ++ [sequence] }
  | .call op =>
      if t.Fresh op then
        let (outcome, buffer) := t.buffer.call op
        let pushed := (SendCall.accepted? ⟨op, outcome⟩).toList.map Prod.fst
        some { t with buffer, everHeld := t.everHeld ++ pushed }
      else none

def Op.isPush : Op → Bool
  | .call (.push ..) => true
  | _ => false

/-- The chunks held, and the one just returned if an acknowledgement has
removed it since. -/
def outstanding (t : Replaying) : List UInt64 :=
  t.buffer.chunks.keys
    ++ (t.returned.toList.map Prod.fst).filter fun s => !t.buffer.chunks.contains s

/-- The replay so far is in order, misses nothing, and comes to an end. -/
structure Sound (t : Replaying) : Prop where
  ordered : t.confirmed.Pairwise (· < ·)
  held : ∀ seq data, t.replay.nextChunk t.buffer = some (seq, data) →
    t.buffer.get? seq = some data
  complete : t.replay.nextChunk t.buffer = none →
    ∀ s data, t.buffer.get? s = some data → s ∈ t.confirmed
  untouched : ∀ op t', op = .nextChunk ∨ op = .confirmSent → t.step op = some t' →
    t'.buffer = t.buffer
  bounded : ∀ ops t', (∀ op ∈ ops, op.isPush = false) → exec step t ops = some t' →
    t'.confirmed.length ≤ t.confirmed.length + t.outstanding.length
  terminates : (Replay.run t.buffer t.buffer.chunks.size t.replay).2.isComplete t.buffer = true

/-! ## The cursor -/

/-- The cursor has yet to pass `s`. -/
def Ahead (cursor : Option UInt64) (s : UInt64) : Prop := ∃ start, cursor = some start ∧ start ≤ s

theorem ahead_succ {c s : UInt64} : Ahead (checkedSucc c) s ↔ c < s := by
  rw [UInt64.lt_iff_toNat_lt]
  constructor
  · rintro ⟨start, hstart, hle⟩
    have hnat := checkedSucc_eq_some.mp hstart
    rw [UInt64.le_iff_toNat_le] at hle
    omega
  · intro hlt
    cases hsucc : checkedSucc c with
    | none =>
        have hmax := checkedSucc_eq_none.mp hsucc
        have hbound := s.toNat_lt
        rw [hmax, toNat_u64Max] at hlt
        omega
    | some start =>
        have hnat := checkedSucc_eq_some.mp hsucc
        exact ⟨start, rfl, UInt64.le_iff_toNat_le.mpr (by omega)⟩

theorem not_ahead {cursor : Option UInt64} {c s : UInt64} (hc : ¬ Ahead cursor c)
    (hs : Ahead cursor s) : c < s := by
  obtain ⟨start, rfl, hle⟩ := hs
  refine lt_of_not_ge fun hge => hc ⟨start, rfl, hle.trans hge⟩

/-- The chunk returned is the first the cursor has yet to pass. -/
theorem nextChunk_eq_some {r : Replay} {b : SendBuffer} {seq : UInt64} {data : Bytes}
    (h : r.nextChunk b = some (seq, data)) :
    b.get? seq = some data ∧ Ahead r.next seq
      ∧ ∀ s, b.chunks.contains s = true → Ahead r.next s → seq ≤ s := by
  obtain ⟨start, hnext, hfirst⟩ := Option.bind_eq_some_iff.mp h
  obtain ⟨hget, hle, hleast⟩ := SortedMap.firstGE?_eq_some hfirst
  refine ⟨hget, ⟨start, hnext, hle⟩, ?_⟩
  rintro s hs ⟨start', hnext', hle'⟩
  obtain rfl := Option.some.inj (hnext.symm.trans hnext')
  exact hleast s hs hle'

theorem nextChunk_eq_none {r : Replay} {b : SendBuffer} (h : r.nextChunk b = none) {s : UInt64}
    (hs : b.chunks.contains s = true) : ¬ Ahead r.next s := by
  rintro ⟨start, hnext, hle⟩
  rw [Replay.nextChunk, hnext, Option.bind_some] at h
  exact absurd hle (not_le.mpr (SortedMap.firstGE?_eq_none.mp h s hs))

/-! ## The invariant -/

structure Inv (t : Replaying) : Prop where
  ordered : t.confirmed.Pairwise (· < ·)
  behind : ∀ c ∈ t.confirmed, ¬ Ahead t.replay.next c
  covered : ∀ s, t.buffer.chunks.contains s = true → s ∈ t.confirmed ∨ Ahead t.replay.next s
  returned : ∀ chunk, t.returned = some chunk → chunk.1 ∈ t.everHeld
    ∧ Ahead t.replay.next chunk.1
    ∧ ∀ s, t.buffer.chunks.contains s = true → Ahead t.replay.next s → chunk.1 ≤ s
  held : ∀ s, t.buffer.chunks.contains s = true → s ∈ t.everHeld
  cursor : t.replay.next = some 0 ∨ ∃ c ∈ t.everHeld, t.replay.next = checkedSucc c

theorem inv_start (b : SendBuffer) : (start b).Inv where
  ordered := List.Pairwise.nil
  behind _ h := nomatch h
  covered _ _ := Or.inr ⟨0, rfl, UInt64.le_iff_toNat_le.mpr (Nat.zero_le _)⟩
  returned _ h := nomatch h
  held _ h := SortedMap.mem_keys_iff_contains.mpr h
  cursor := Or.inl rfl

theorem Inv.nextChunk {t : Replaying} (hinv : t.Inv) :
    Inv { t with returned := t.replay.nextChunk t.buffer } :=
  { hinv with
    returned := fun chunk hchunk => by
      obtain ⟨hget, hahead, hleast⟩ := @nextChunk_eq_some _ _ _ chunk.2 hchunk
      exact ⟨hinv.held _ (SortedMap.contains_iff.mpr ⟨_, hget⟩), hahead, hleast⟩ }

theorem Inv.confirmSent {t : Replaying} (hinv : t.Inv) {chunk : UInt64 × Bytes}
    (hreturned : t.returned = some chunk) :
    Inv { t with
      replay := t.replay.confirmSent chunk.1
      returned := none
      confirmed := t.confirmed ++ [chunk.1] } := by
  obtain ⟨hever, hahead, hleast⟩ := hinv.returned chunk hreturned
  have hbelow : ∀ c ∈ t.confirmed, c < chunk.1 := fun c hc => not_ahead (hinv.behind c hc) hahead
  have hnext : ∀ s, Ahead (t.replay.confirmSent chunk.1).next s ↔ chunk.1 < s := fun s => ahead_succ
  exact
    { ordered := by
        refine List.pairwise_append.mpr ⟨hinv.ordered, List.pairwise_singleton _ _, ?_⟩
        intro c hc s hs
        rw [List.mem_singleton.mp hs]
        exact hbelow c hc
      behind := by
        intro c hc
        rw [hnext, not_lt]
        rcases List.mem_append.mp hc with hc | hc
        · exact (hbelow c hc).le
        · exact (List.mem_singleton.mp hc).le
      covered := by
        intro s hs
        rw [hnext, List.mem_append, List.mem_singleton]
        rcases hinv.covered s hs with hmem | hs'
        · exact Or.inl (Or.inl hmem)
        · -- nothing held lies between the cursor and the chunk returned
          rcases (hleast s hs hs').eq_or_lt with heq | hlt
          · exact Or.inl (Or.inr heq.symm)
          · exact Or.inr hlt
      returned := fun _ h => nomatch h
      held := hinv.held
      cursor := Or.inr ⟨chunk.1, hever, rfl⟩ }

/-- What is held after a call was held before it, or has just been pushed. -/
theorem contains_call {b : SendBuffer} {op : SendBuffer.Op} {s : UInt64}
    (h : (b.call op).2.chunks.contains s = true) :
    b.chunks.contains s = true
      ∨ s ∈ (SendCall.accepted? ⟨op, (b.call op).1⟩).toList.map Prod.fst := by
  obtain ⟨data, hget⟩ := SortedMap.contains_iff.mp h
  rcases (SendBuffer.get?_call b op s data).mp hget with haccepted | ⟨-, hold⟩
  · right
    rw [haccepted]
    exact List.mem_singleton_self s
  · exact Or.inl (SortedMap.contains_iff.mpr ⟨data, hold⟩)

theorem Fresh.lt {t : Replaying} {op : SendBuffer.Op} (hfresh : t.Fresh op) {outcome : Outcome}
    {s : UInt64} (hs : s ∈ (SendCall.accepted? ⟨op, outcome⟩).toList.map Prod.fst) :
    ∀ s' ∈ t.everHeld, s' < s := by
  cases op with
  | push sequence data =>
      cases outcome with
      | pushed r =>
          cases r with
          | ok u =>
              obtain rfl : s = sequence := List.mem_singleton.mp hs
              exact hfresh
          | error e => cases hs
      | removed n => cases hs
  | _ => cases hs

/-- A fresh sequence is ahead of the cursor, wherever that is. -/
theorem Inv.ahead_of_fresh {t : Replaying} (hinv : t.Inv) {s : UInt64}
    (hs : ∀ s' ∈ t.everHeld, s' < s) : Ahead t.replay.next s := by
  rcases hinv.cursor with hnext | ⟨c, hc, hnext⟩
  · exact ⟨0, hnext, UInt64.le_iff_toNat_le.mpr (Nat.zero_le _)⟩
  · rw [hnext, ahead_succ]
    exact hs c hc

theorem Inv.call {t : Replaying} (hinv : t.Inv) {op : SendBuffer.Op} (hfresh : t.Fresh op) :
    Inv { t with
      buffer := (t.buffer.call op).2
      everHeld := t.everHeld
        ++ (SendCall.accepted? ⟨op, (t.buffer.call op).1⟩).toList.map Prod.fst } where
  ordered := hinv.ordered
  behind := hinv.behind
  covered s hs := by
    rcases contains_call hs with hold | hnew
    · exact hinv.covered s hold
    · exact Or.inr (hinv.ahead_of_fresh (hfresh.lt hnew))
  returned chunk hchunk := by
    obtain ⟨hever, hahead, hleast⟩ := hinv.returned chunk hchunk
    refine ⟨List.mem_append_left _ hever, hahead, fun s hs hs' => ?_⟩
    rcases contains_call hs with hold | hnew
    · exact hleast s hold hs'
    · exact (hfresh.lt hnew _ hever).le
  held s hs := by
    rcases contains_call hs with hold | hnew
    · exact List.mem_append_left _ (hinv.held s hold)
    · exact List.mem_append_right _ hnew
  cursor := hinv.cursor.imp_right fun ⟨c, hc, hnext⟩ => ⟨c, List.mem_append_left _ hc, hnext⟩

theorem inv_step {t t' : Replaying} {op : Op} (hinv : t.Inv) (h : t.step op = some t') :
    t'.Inv := by
  cases op with
  | nextChunk =>
      obtain rfl := Option.some.inj h
      exact hinv.nextChunk
  | confirmSent =>
      obtain ⟨chunk, hchunk, rfl⟩ := Option.map_eq_some_iff.mp h
      exact hinv.confirmSent hchunk
  | call op =>
      rw [step] at h
      split at h
      · rename_i hfresh
        obtain rfl := Option.some.inj h
        exact hinv.call hfresh
      · cases h

/-! ## What is left -/

/-- Everything confirmed since `t` was outstanding then. -/
structure Within (t u : Replaying) : Prop where
  held : ∀ s, u.buffer.chunks.contains s = true → s ∈ t.outstanding
  returned : ∀ chunk, u.returned = some chunk → chunk.1 ∈ t.outstanding
  confirmed : ∃ since, u.confirmed = t.confirmed ++ since ∧ ∀ c ∈ since, c ∈ t.outstanding

theorem within_refl (t : Replaying) : t.Within t where
  held s hs := List.mem_append_left _ (SortedMap.mem_keys_iff_contains.mpr hs)
  returned chunk hchunk := by
    rw [outstanding, hchunk, List.mem_append]
    by_cases hheld : t.buffer.chunks.contains chunk.1 = true
    · exact Or.inl (SortedMap.mem_keys_iff_contains.mpr hheld)
    · exact Or.inr (List.mem_filter.mpr ⟨List.mem_singleton_self _, by simpa using hheld⟩)
  confirmed := ⟨[], (List.append_nil _).symm, fun _ hc => nomatch hc⟩

theorem Within.step {t u u' : Replaying} {op : Op} (h : t.Within u) (hop : op.isPush = false)
    (hstep : u.step op = some u') : t.Within u' := by
  cases op with
  | nextChunk =>
      obtain rfl := Option.some.inj hstep
      refine { h with returned := fun chunk hchunk => h.held _ ?_ }
      exact SortedMap.contains_iff.mpr ⟨chunk.2, (@nextChunk_eq_some _ _ _ chunk.2 hchunk).1⟩
  | confirmSent =>
      obtain ⟨chunk, hchunk, rfl⟩ := Option.map_eq_some_iff.mp hstep
      obtain ⟨since, hconfirmed, hsince⟩ := h.confirmed
      refine ⟨h.held, (fun _ h => nomatch h), since ++ [chunk.1], ?_, ?_⟩
      · rw [← List.append_assoc, ← hconfirmed]
      · intro c hc
        rcases List.mem_append.mp hc with hc | hc
        · exact hsince c hc
        · rw [List.mem_singleton.mp hc]
          exact h.returned chunk hchunk
  | call op =>
      rw [Replaying.step] at hstep
      split at hstep
      · obtain rfl := Option.some.inj hstep
        refine { h with held := fun s hs => ?_ }
        rcases contains_call hs with hold | hnew
        · exact h.held s hold
        · cases op with
          | push sequence data => cases hop
          | _ => cases hnew
      · cases hstep

theorem Inv.bounded {t u : Replaying} (hinv : u.Inv) (h : t.Within u) :
    u.confirmed.length ≤ t.confirmed.length + t.outstanding.length := by
  obtain ⟨since, hconfirmed, hsince⟩ := h.confirmed
  have hordered := hinv.ordered
  rw [hconfirmed] at hordered
  have hnodup : since.Nodup := (List.pairwise_append.mp hordered).2.1.imp fun hlt => hlt.ne
  have hlength := (List.subperm_of_subset hnodup hsince).length_le
  rw [hconfirmed, List.length_append]
  exact Nat.add_le_add_left hlength _

theorem Inv.sound {t : Replaying} (hinv : t.Inv) : t.Sound where
  ordered := hinv.ordered
  held seq data h := (nextChunk_eq_some h).1
  complete h s data hget := by
    have hheld := SortedMap.contains_iff.mpr ⟨data, hget⟩
    exact (hinv.covered s hheld).resolve_right (nextChunk_eq_none h hheld)
  untouched op t' hop hstep := by
    rcases hop with rfl | rfl
    · obtain rfl := Option.some.inj hstep
      rfl
    · obtain ⟨chunk, -, rfl⟩ := Option.map_eq_some_iff.mp hstep
      rfl
  bounded ops t' hops hexec := by
    have hrun : ∀ (ops : List Op) (u : Replaying), u.Inv → t.Within u →
        (∀ op ∈ ops, op.isPush = false) → exec Replaying.step u ops = some t' →
        t'.Inv ∧ t.Within t' := by
      intro ops
      induction ops with
      | nil =>
          intro u hu hwithin _ hexec
          obtain rfl := Option.some.inj hexec
          exact ⟨hu, hwithin⟩
      | cons op ops ih =>
          intro u hu hwithin hops hexec
          obtain ⟨u', hstep, hexec⟩ := exec_cons.mp hexec
          have hop := hops op List.mem_cons_self
          exact ih u' (inv_step hu hstep) (hwithin.step hop hstep)
            (fun op hop => hops op (List.mem_cons_of_mem _ hop)) hexec
    obtain ⟨hinv', hwithin⟩ := hrun ops t hinv (within_refl t) hops hexec
    exact hinv'.bounded hwithin
  terminates := by
    refine (Replay.run_eq t.buffer t.buffer.chunks.size ?_).2.1
    unfold Replay.remaining
    split
    · exact Nat.zero_le _
    · exact List.length_filter_le ..

/-- From any buffer, whatever comes in between, the replay confirms chunks
in order, has nothing left to return only when all that is held has been
confirmed, and has no more to do than there are chunks held. -/
theorem replay_sound (b : SendBuffer) (ops : List Op) : Always step Sound (start b) ops :=
  (always_of_invariant (fun _ _ _ => inv_step) (inv_start b)).mono fun _ hinv => hinv.sound

end Replaying

end Kanrin
