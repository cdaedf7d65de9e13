import Kanrin.Framing

/-!
# Frames on streams of their own

`QuicConnection` of `kanrin-transport/src/quic.rs`. Every `send` opens a
stream and writes one frame on it; `recv` accepts the next stream and reads
the frame off it, in three awaits. What `recv` has accepted and read so far
is kept in the future alone, and goes with it when a `select!` drops it:
`intact_iff` says that this, and frames beyond the cap, are all that keeps
a frame from being returned.

A frame is still to come if there is a way for `recv` to return it. Up to a
frame that has been lost the states of the streams say so as well (`Kept`):
bytes arrive and `recv` reads as long as there is anything left to do
(`progress`).

The connection itself stays up. Streams are numbered in the order they were
opened, which is the order they are accepted in.
-/

namespace Kanrin

open Lib

structure QuicStream where
  /-- What `send` was called with. -/
  frame : Bytes
  /-- How many bytes of the stream have arrived. -/
  arrived : Nat
deriving DecidableEq

/-- The bytes `send` writes. -/
def QuicStream.wire (s : QuicStream) : Bytes := frameChunk s.frame

/-- Where the pending `recv` waits, and what it holds there. -/
inductive RecvPc where
  | idle
  /-- In `accept_bi`. -/
  | accepting
  /-- In the first `read_exact`. -/
  | readingLen (stream : Nat) (lenBuf : Bytes)
  /-- In the second. -/
  | readingData (stream : Nat) (length : Nat) (buf : Bytes)
deriving DecidableEq

def RecvPc.stream? : RecvPc → Option Nat
  | .idle | .accepting => none
  | .readingLen i _ | .readingData i _ _ => some i

structure QuicReceiving where
  streams : List QuicStream
  accepted : Nat
  pc : RecvPc
  alive : Bool
  /-- What each call of `recv` returned, and the stream it had accepted. -/
  results : List (Nat × Except RecvError Bytes)

namespace QuicReceiving

inductive Event where
  /-- The peer sends a frame. -/
  | send (frame : Bytes)
  /-- `n` more bytes of stream `i` arrive. -/
  | arrive (i n : Nat)
  | recv
  /-- `accept_bi` returns. -/
  | accept
  /-- The pending `read_exact` takes `n` bytes. -/
  | read (n : Nat)
  /-- The pending future is dropped. -/
  | drop

def start : QuicReceiving where
  streams := []
  accepted := 0
  pc := .idle
  alive := true
  results := []

def finish (t : QuicReceiving) (i : Nat) (result : Except RecvError Bytes) : QuicReceiving :=
  { t with pc := .idle, results := t.results ++ [(i, result)] }

/-- The first `read_exact` is done. -/
def afterLen (t : QuicReceiving) (i : Nat) (lenBuf : Bytes) : QuicReceiving :=
  let length := beNat lenBuf
  if length > maxFrame then { t with alive := false }.finish i (.error .frameTooLarge)
  -- there is nothing to wait for
  else if length = 0 then t.finish i (.ok [])
  else { t with pc := .readingData i length [] }

def step (t : QuicReceiving) : Event → Option QuicReceiving
  | .send frame => some { t with streams := t.streams ++ [⟨frame, 0⟩] }
  | .arrive i n =>
      match t.streams[i]? with
      | some s =>
          if s.arrived + n ≤ s.wire.length then
            some { t with streams := t.streams.set i { s with arrived := s.arrived + n } }
          else none
      | none => none
  | .recv => if t.pc = .idle then some { t with pc := .accepting } else none
  | .accept =>
      -- a stream is known once a byte of it, or of a later one, has arrived
      if t.pc = .accepting ∧ (t.streams.drop t.accepted).any (fun s => decide (0 < s.arrived)) then
        some { t with pc := .readingLen t.accepted [], accepted := t.accepted + 1 }
      else none
  | .read n =>
      match t.pc with
      | .readingLen i lenBuf =>
          match t.streams[i]? with
          | some s =>
              if lenBuf.length + n ≤ 4 ∧ lenBuf.length + n ≤ s.arrived then
                let lenBuf := lenBuf ++ (s.wire.drop lenBuf.length).take n
                if lenBuf.length = 4 then some (t.afterLen i lenBuf)
                else some { t with pc := .readingLen i lenBuf }
              else none
          | none => none
      | .readingData i length buf =>
          match t.streams[i]? with
          | some s =>
              if buf.length + n ≤ length ∧ 4 + buf.length + n ≤ s.arrived then
                let buf := buf ++ (s.wire.drop (4 + buf.length)).take n
                if buf.length = length then some (t.finish i (.ok buf))
                else some { t with pc := .readingData i length buf }
              else none
          | none => none
      | _ => none
  | .drop => if t.pc = .idle then none else some { t with pc := .idle }

/-! ## What becomes of each stream -/

/-- What was returned for a stream. -/
def resultsOf (t : QuicReceiving) (i : Nat) : List (Except RecvError Bytes) :=
  (t.results.filter fun r => decide (r.1 = i)).map Prod.snd

/-- Nothing is sent, and no `recv` is dropped. -/
def Event.goesOn : Event → Bool
  | .send _ | .drop => false
  | .arrive .. | .recv | .accept | .read _ => true

/-- The frame of stream `i` will be returned, if bytes arrive and `recv` is
left to read them. -/
def ToCome (t : QuicReceiving) (i : Nat) (frame : Bytes) : Prop :=
  ∃ es t', (∀ e ∈ es, e.goesOn = true) ∧ exec step t es = some t'
    ∧ t'.resultsOf i = t.resultsOf i ++ [.ok frame]

/-- Every frame is still to come, or has been returned, once. -/
def Intact (t : QuicReceiving) : Prop :=
  ∀ i s, t.streams[i]? = some s →
    (t.resultsOf i = [] ∧ t.ToCome i s.frame) ∨ t.resultsOf i = [.ok s.frame]

/-- A `recv` is dropped only before it has accepted a stream, and a frame
that is sent is within the cap. -/
def Careful (t : QuicReceiving) : Event → Prop
  | .drop => t.pc.stream? = none
  | .send frame => frame.length ≤ maxFrame
  | _ => True

/-! ## What a step does -/

theorem length_wire (s : QuicStream) : s.wire.length = 4 + s.frame.length := by
  rw [QuicStream.wire, frameChunk, List.length_append, length_beBytes]

theorem wire_drop (s : QuicStream) : s.wire.drop 4 = s.frame := List.drop_left' (length_beBytes ..)

/-- The length that `recv` reads for a frame. -/
def declared (frame : Bytes) : Nat := frame.length % 2 ^ 32

theorem declared_of_le {frame : Bytes} (h : frame.length ≤ maxFrame) :
    declared frame = frame.length := by
  have hcap : maxFrame < 2 ^ 32 := by decide
  exact Nat.mod_eq_of_lt (by omega)

theorem beNat_wire_take (s : QuicStream) : beNat (s.wire.take 4) = declared s.frame := by
  have hhead : s.wire.take 4 = beBytes 4 s.frame.length := List.take_left' (length_beBytes ..)
  rw [hhead, beNat_beBytes]
  rfl

/-- What `recv` holds of the stream it reads. -/
def Holds (s : QuicStream) : RecvPc → Prop
  | .readingLen _ lenBuf => lenBuf = s.wire.take lenBuf.length ∧ lenBuf.length < 4
  | .readingData _ length buf => length = declared s.frame ∧ length ≤ maxFrame
      ∧ buf = s.frame.take buf.length ∧ buf.length < length
  | .idle | .accepting => True

theorem resultsOf_finish (t : QuicReceiving) (i j : Nat) (r : Except RecvError Bytes) :
    (t.finish i r).resultsOf j = t.resultsOf j ++ if i = j then [r] else [] := by
  simp only [resultsOf, finish, List.filter_append, List.map_append]
  by_cases h : i = j
  · simp [h]
  · simp [h]

/-- The invariant of the machine itself. -/
structure Inv (t : QuicReceiving) : Prop where
  accepted : t.accepted ≤ t.streams.length
  waiting : ∀ i, t.accepted ≤ i → t.resultsOf i = []
  reading : ∀ i, t.pc.stream? = some i → i < t.accepted ∧ t.resultsOf i = []
  holds : ∀ i s, t.pc.stream? = some i → t.streams[i]? = some s → Holds s t.pc
  arrived : ∀ s ∈ t.streams, s.arrived ≤ s.wire.length
  capped : ∀ r ∈ t.results, ∀ data, r.2 = .ok data → data.length ≤ maxFrame

theorem inv_start : start.Inv where
  accepted := Nat.le_refl _
  waiting _ _ := rfl
  reading _ h := nomatch h
  holds _ _ h := nomatch h
  arrived _ h := absurd h List.not_mem_nil
  capped _ h := absurd h List.not_mem_nil

/-- What each event does. -/
inductive Effect (t t' : QuicReceiving) : Event → Prop where
  | send (frame : Bytes) (ht' : t' = { t with streams := t.streams ++ [⟨frame, 0⟩] }) :
      Effect t t' (.send frame)
  | arrive (i n : Nat) (s : QuicStream) (hs : t.streams[i]? = some s)
      (hfits : s.arrived + n ≤ s.wire.length)
      (ht' : t' = { t with streams := t.streams.set i { s with arrived := s.arrived + n } }) :
      Effect t t' (.arrive i n)
  | recv (hpc : t.pc = .idle) (ht' : t' = { t with pc := .accepting }) : Effect t t' .recv
  | accept (hpc : t.pc = .accepting) (hlt : t.accepted < t.streams.length)
      (ht' : t' = { t with pc := .readingLen t.accepted [], accepted := t.accepted + 1 }) :
      Effect t t' .accept
  | reads (n i : Nat) (s : QuicStream) (pc : RecvPc) (hs : t.streams[i]? = some s)
      (hreading : t.pc.stream? = some i) (hsame : pc.stream? = some i) (hholds : Holds s pc)
      (ht' : t' = { t with pc }) : Effect t t' (.read n)
  | finishes (n i : Nat) (s : QuicStream) (alive : Bool) (r : Except RecvError Bytes)
      (hs : t.streams[i]? = some s) (hreading : t.pc.stream? = some i)
      (hr : (maxFrame < declared s.frame ∧ r = .error .frameTooLarge)
        ∨ (declared s.frame ≤ maxFrame ∧ r = .ok (s.frame.take (declared s.frame))))
      (ht' : t' = { t with alive }.finish i r) : Effect t t' (.read n)
  | drop (ht' : t' = { t with pc := .idle }) : Effect t t' .drop

/-- The prefix has been read. -/
theorem afterLen_effect {t : QuicReceiving} {i : Nat} {s : QuicStream}
    (hs : t.streams[i]? = some s) (hreading : t.pc.stream? = some i) (n : Nat) :
    Effect t (t.afterLen i (s.wire.take 4)) (.read n) := by
  rw [afterLen, beNat_wire_take]
  split
  · rename_i hlarge
    exact .finishes n i s false _ hs hreading (Or.inl ⟨hlarge, rfl⟩) rfl
  rename_i hsmall
  have hcap : declared s.frame ≤ maxFrame := Nat.le_of_not_gt hsmall
  split
  · rename_i hzero
    refine .finishes n i s t.alive _ hs hreading (Or.inr ⟨hcap, ?_⟩) rfl
    rw [hzero, List.take_zero]
  · rename_i hpos
    exact .reads n i s (.readingData i (declared s.frame) []) hs hreading rfl
      ⟨rfl, hcap, rfl, Nat.pos_of_ne_zero hpos⟩ rfl

theorem readLen_effect {t t' : QuicReceiving} (hinv : t.Inv) {i n : Nat} {lenBuf : Bytes}
    (hpc : t.pc = .readingLen i lenBuf) (hstep : t.step (.read n) = some t') :
    Effect t t' (.read n) := by
  have hreading : t.pc.stream? = some i := by rw [hpc]; rfl
  simp only [step, hpc] at hstep
  cases hs : t.streams[i]? with
  | none =>
      rw [hs] at hstep
      cases hstep
  | some s =>
      rw [hs] at hstep
      dsimp only at hstep
      split at hstep
      case isFalse => cases hstep
      rename_i hfits
      have hholds := hinv.holds i s hreading hs
      rw [hpc] at hholds
      have hwire := length_wire s
      have hbuf : lenBuf ++ (s.wire.drop lenBuf.length).take n
          = s.wire.take (lenBuf.length + n) := by
        rw [List.take_add, ← hholds.1]
      have hlen : (s.wire.take (lenBuf.length + n)).length = lenBuf.length + n := by
        rw [List.length_take]
        omega
      rw [hbuf, hlen] at hstep
      split at hstep
      · rename_i hfull
        obtain rfl := Option.some.inj hstep
        rw [hfull]
        exact afterLen_effect hs hreading n
      · rename_i hpart
        obtain rfl := Option.some.inj hstep
        refine .reads n i s (.readingLen i (s.wire.take (lenBuf.length + n))) hs hreading rfl
          ⟨by rw [hlen], ?_⟩ rfl
        rw [hlen]
        omega

theorem readData_effect {t t' : QuicReceiving} (hinv : t.Inv) {i n length : Nat} {buf : Bytes}
    (hpc : t.pc = .readingData i length buf) (hstep : t.step (.read n) = some t') :
    Effect t t' (.read n) := by
  have hreading : t.pc.stream? = some i := by rw [hpc]; rfl
  simp only [step, hpc] at hstep
  cases hs : t.streams[i]? with
  | none =>
      rw [hs] at hstep
      cases hstep
  | some s =>
      rw [hs] at hstep
      dsimp only at hstep
      split at hstep
      case isFalse => cases hstep
      rename_i hfits
      have hholds := hinv.holds i s hreading hs
      rw [hpc] at hholds
      obtain ⟨rfl, hcap, hpart, -⟩ := hholds
      have hdrop : s.wire.drop (4 + buf.length) = s.frame.drop buf.length := by
        rw [← List.drop_drop, wire_drop]
      have hbuf : buf ++ (s.frame.drop buf.length).take n = s.frame.take (buf.length + n) := by
        rw [List.take_add, ← hpart]
      have hle : declared s.frame ≤ s.frame.length := Nat.mod_le ..
      have hlen : (s.frame.take (buf.length + n)).length = buf.length + n := by
        rw [List.length_take]
        omega
      rw [hdrop, hbuf, hlen] at hstep
      split at hstep
      · rename_i hfull
        obtain rfl := Option.some.inj hstep
        rw [hfull]
        exact .finishes n i s t.alive _ hs hreading (Or.inr ⟨hcap, rfl⟩) rfl
      · rename_i hmore
        obtain rfl := Option.some.inj hstep
        refine .reads n i s
          (.readingData i (declared s.frame) (s.frame.take (buf.length + n))) hs hreading rfl
          ⟨rfl, hcap, by rw [hlen], ?_⟩ rfl
        rw [hlen]
        omega

theorem step_effect {t t' : QuicReceiving} {e : Event} (hinv : t.Inv)
    (hstep : t.step e = some t') : Effect t t' e := by
  cases e with
  | send frame => exact .send frame (Option.some.inj hstep).symm
  | arrive i n =>
      simp only [step] at hstep
      cases hs : t.streams[i]? with
      | none =>
          rw [hs] at hstep
          cases hstep
      | some s =>
          rw [hs] at hstep
          obtain ⟨hfits, heq⟩ := Option.ite_none_right_eq_some.mp hstep
          exact .arrive i n s hs hfits (Option.some.inj heq).symm
  | recv =>
      obtain ⟨hpc, heq⟩ := Option.ite_none_right_eq_some.mp hstep
      exact .recv hpc (Option.some.inj heq).symm
  | accept =>
      obtain ⟨⟨hpc, hany⟩, heq⟩ := Option.ite_none_right_eq_some.mp hstep
      refine .accept hpc ?_ (Option.some.inj heq).symm
      obtain ⟨s, hs, -⟩ := List.any_eq_true.mp hany
      have hpos := List.length_pos_of_mem hs
      rw [List.length_drop] at hpos
      omega
  | read n =>
      cases hpc : t.pc with
      | idle => simp [step, hpc] at hstep
      | accepting => simp [step, hpc] at hstep
      | readingLen i lenBuf => exact readLen_effect hinv hpc hstep
      | readingData i length buf => exact readData_effect hinv hpc hstep
  | drop =>
      obtain ⟨-, heq⟩ := Option.ite_none_left_eq_some.mp hstep
      exact .drop (Option.some.inj heq).symm

/-- The streams keep their frames, whatever arrives of them. -/
theorem frame_of_arrive {streams : List QuicStream} {i : Nat} {s : QuicStream}
    (hs : streams[i]? = some s) (n : Nat) {j : Nat} {s' : QuicStream}
    (hs' : (streams.set i { s with arrived := s.arrived + n })[j]? = some s') :
    ∃ s0 : QuicStream, streams[j]? = some s0 ∧ s0.frame = s'.frame := by
  by_cases hij : i = j
  · subst hij
    have hlt : i < streams.length := (List.getElem?_eq_some_iff.mp hs).1
    rw [List.getElem?_set_self hlt] at hs'
    obtain rfl := Option.some.inj hs'
    exact ⟨s, hs, rfl⟩
  · rw [List.getElem?_set_ne hij] at hs'
    exact ⟨s', hs', rfl⟩

theorem holds_congr {s s' : QuicStream} (h : s.frame = s'.frame) {pc : RecvPc} (hs : Holds s pc) :
    Holds s' pc := by
  have hwire : s.wire = s'.wire := congrArg frameChunk h
  cases pc with
  | idle => trivial
  | accepting => trivial
  | readingLen i lenBuf =>
      rw [Holds, ← hwire]
      exact hs
  | readingData i length buf =>
      rw [Holds, ← h]
      exact hs

theorem Inv.step {t t' : QuicReceiving} {e : Event} (hinv : t.Inv) (hstep : t.step e = some t') :
    t'.Inv := by
  have hlt : ∀ i, t.pc.stream? = some i → i < t.streams.length := fun i hi =>
    Nat.lt_of_lt_of_le (hinv.reading i hi).1 hinv.accepted
  cases step_effect hinv hstep with
  | send frame ht' =>
      subst ht'
      refine ⟨?_, hinv.waiting, hinv.reading, fun i s hi hs => ?_, fun s hs => ?_, hinv.capped⟩
      · have hle := hinv.accepted
        simp only [List.length_append, List.length_singleton]
        omega
      · refine hinv.holds i s hi ?_
        rwa [List.getElem?_append_left (hlt i hi)] at hs
      · rcases List.mem_append.mp hs with hs | hs
        · exact hinv.arrived s hs
        · obtain rfl := List.mem_singleton.mp hs
          exact Nat.zero_le _
  | arrive i n s hs hfits ht' =>
      subst ht'
      refine ⟨?_, hinv.waiting, hinv.reading, fun j s' hj hs' => ?_, fun s' hs' => ?_, hinv.capped⟩
      · rw [List.length_set]
        exact hinv.accepted
      · obtain ⟨s0, hs0, hframe⟩ := frame_of_arrive hs n hs'
        exact holds_congr hframe (hinv.holds j s0 hj hs0)
      · rcases List.mem_or_eq_of_mem_set hs' with hmem | rfl
        · exact hinv.arrived s' hmem
        · exact hfits
  | recv hpc ht' =>
      subst ht'
      exact ⟨hinv.accepted, hinv.waiting, fun _ h => (by cases h), fun _ _ h => (by cases h),
        hinv.arrived, hinv.capped⟩
  | accept hpc hlt ht' =>
      subst ht'
      refine ⟨hlt, fun i hi => hinv.waiting i (Nat.le_of_succ_le hi), fun i hi => ?_,
        fun _ _ _ _ => ⟨rfl, by decide⟩, hinv.arrived, hinv.capped⟩
      obtain rfl := Option.some.inj hi
      exact ⟨Nat.lt_succ_self _, hinv.waiting _ le_rfl⟩
  | reads n i s pc hs hreading hsame hholds ht' =>
      subst ht'
      refine ⟨hinv.accepted, hinv.waiting, fun j hj => ?_, fun j s' hj hs' => ?_, hinv.arrived,
        hinv.capped⟩
      · exact hinv.reading j (hreading.trans (hsame.symm.trans hj))
      · obtain rfl := Option.some.inj (hsame.symm.trans hj)
        obtain rfl := Option.some.inj (hs.symm.trans hs')
        exact hholds
  | finishes n i s alive r hs hreading hr ht' =>
      subst ht'
      have hi := (hinv.reading i hreading).1
      refine ⟨hinv.accepted, fun j hj => ?_, fun _ h => (by cases h), fun _ _ h => (by cases h),
        hinv.arrived, fun r' hr' data hdata => ?_⟩
      · have hj : t.accepted ≤ j := hj
        rw [resultsOf_finish, if_neg (by omega), List.append_nil]
        exact hinv.waiting j hj
      · rcases List.mem_append.mp hr' with hr' | hr'
        · exact hinv.capped r' hr' data hdata
        · obtain rfl := List.mem_singleton.mp hr'
          rcases hr with ⟨-, rfl⟩ | ⟨hcap, rfl⟩
          · cases hdata
          · obtain rfl := Except.ok.inj hdata
            exact (List.length_take_le ..).trans hcap
  | drop ht' =>
      subst ht'
      exact ⟨hinv.accepted, hinv.waiting, fun _ h => (by cases h), fun _ _ h => (by cases h),
        hinv.arrived, hinv.capped⟩

/-! ## Frames that are lost -/

/-- Stream `i` was accepted, and nobody reads it any more. -/
structure Lost (i : Nat) (t : QuicReceiving) : Prop where
  accepted : i < t.accepted
  unread : t.pc.stream? ≠ some i
  none : t.resultsOf i = []

theorem Lost.step {i : Nat} {t t' : QuicReceiving} {e : Event} (h : Lost i t) (hinv : t.Inv)
    (hstep : t.step e = some t') : Lost i t' := by
  cases step_effect hinv hstep with
  | send frame ht' =>
      subst ht'
      exact ⟨h.accepted, h.unread, h.none⟩
  | arrive j n s hs hfits ht' =>
      subst ht'
      exact ⟨h.accepted, h.unread, h.none⟩
  | recv hpc ht' =>
      subst ht'
      exact ⟨h.accepted, (fun heq => by cases heq), h.none⟩
  | accept hpc hlt ht' =>
      subst ht'
      refine ⟨Nat.lt_succ_of_lt h.accepted, fun heq => ?_, h.none⟩
      exact absurd h.accepted (Nat.not_lt.mpr (Option.some.inj heq).le)
  | reads n j s pc hs hreading hsame hholds ht' =>
      subst ht'
      exact ⟨h.accepted, fun heq => h.unread (hreading.trans (hsame.symm.trans heq)), h.none⟩
  | finishes n j s alive r hs hreading hr ht' =>
      subst ht'
      refine ⟨h.accepted, (fun heq => by cases heq), ?_⟩
      have hne : j ≠ i := fun heq => h.unread (heq ▸ hreading)
      rw [resultsOf_finish, if_neg hne, List.append_nil]
      exact h.none
  | drop ht' =>
      subst ht'
      exact ⟨h.accepted, (fun heq => by cases heq), h.none⟩

theorem Lost.not_intact {i : Nat} {t : QuicReceiving} (h : Lost i t) (hinv : t.Inv) :
    ¬ t.Intact := by
  intro hintact
  have hlt := Nat.lt_of_lt_of_le h.accepted hinv.accepted
  rcases hintact i _ (List.getElem?_eq_getElem hlt) with ⟨-, es, t', -, hexec, hresults⟩ | hone
  · have hlost : t'.Inv ∧ Lost i t' :=
      exec_invariant (I := fun t => t.Inv ∧ Lost i t)
        (fun _ _ _ hs hstep => ⟨hs.1.step hstep, hs.2.step hs.1 hstep⟩) ⟨hinv, h⟩ hexec
    rw [hlost.2.none, h.none] at hresults
    cases hresults
  · cases h.none.symm.trans hone

/-- What is beyond the cap is not returned. -/
theorem not_intact_of_oversized {t : QuicReceiving} (hinv : t.Inv) {i : Nat} {s : QuicStream}
    (hs : t.streams[i]? = some s) (hlarge : maxFrame < s.frame.length) : ¬ t.Intact := by
  have hnever : ∀ u : QuicReceiving, u.Inv → .ok s.frame ∉ u.resultsOf i := by
    intro u hu hmem
    obtain ⟨r, hr, heq⟩ := List.mem_map.mp hmem
    exact absurd (hu.capped r (List.mem_filter.mp hr).1 s.frame heq) (Nat.not_le.mpr hlarge)
  intro hintact
  rcases hintact i s hs with ⟨-, es, t', -, hexec, hresults⟩ | hone
  · have hinv' := exec_invariant (fun _ _ _ hu hstep => Inv.step hu hstep) hinv hexec
    refine hnever t' hinv' ?_
    rw [hresults]
    exact List.mem_concat_self ..
  · refine hnever t hinv ?_
    rw [hone]
    exact List.mem_singleton_self _

/-! ## Frames that are kept -/

/-- The stream has not been accepted, or `recv` is reading it. -/
def Pending (t : QuicReceiving) (i : Nat) : Prop := t.accepted ≤ i ∨ t.pc.stream? = some i

/-- Every stream is within the cap, and pending as long as there is no
result for it. -/
def Kept (t : QuicReceiving) : Prop :=
  ∀ i s, t.streams[i]? = some s → s.frame.length ≤ maxFrame
    ∧ ((t.Pending i ∧ t.resultsOf i = []) ∨ t.resultsOf i = [.ok s.frame])

theorem kept_start : start.Kept := by
  intro i s hs
  cases hs

theorem Kept.pending {t : QuicReceiving} (h : t.Kept) {i : Nat} {s : QuicStream}
    (hs : t.streams[i]? = some s) (hnone : t.resultsOf i = []) : t.Pending i := by
  rcases (h i s hs).2 with ⟨hpending, -⟩ | hone
  · exact hpending
  · cases hnone.symm.trans hone

/-- A step that returns nothing keeps every stream that is pending. -/
theorem Kept.of_pending {t t' : QuicReceiving} (h : t.Kept) (hresults : t'.results = t.results)
    (hstreams : t'.streams = t.streams) (hpending : ∀ i, t.Pending i → t'.Pending i) : t'.Kept := by
  intro i s hs
  rw [hstreams] at hs
  have hof : t'.resultsOf i = t.resultsOf i := by rw [resultsOf, resultsOf, hresults]
  rw [hof]
  exact (h i s hs).imp_right fun hkept => hkept.imp_left fun hp => ⟨hpending i hp.1, hp.2⟩

theorem Kept.step {t t' : QuicReceiving} {e : Event} (h : t.Kept) (hinv : t.Inv)
    (hcareful : t.Careful e) (hstep : t.step e = some t') : t'.Kept := by
  cases step_effect hinv hstep with
  | send frame ht' =>
      subst ht'
      intro i s hs
      by_cases hi : i < t.streams.length
      · exact h i s (by rwa [List.getElem?_append_left hi] at hs)
      · have hle := hinv.accepted
        have hi' : t.accepted ≤ i := by omega
        rw [List.getElem?_append_right (Nat.le_of_not_lt hi)] at hs
        obtain rfl := List.mem_singleton.mp (List.mem_of_getElem? hs)
        exact ⟨hcareful, Or.inl ⟨Or.inl hi', hinv.waiting i hi'⟩⟩
  | arrive i n s hs hfits ht' =>
      subst ht'
      intro j s' hs'
      obtain ⟨s0, hs0, hframe⟩ := frame_of_arrive hs n hs'
      rw [← hframe]
      exact h j s0 hs0
  | recv hpc ht' =>
      subst ht'
      refine h.of_pending rfl rfl fun i hpending => Or.inl (hpending.resolve_right ?_)
      rw [hpc]
      rintro ⟨⟩
  | accept hpc hlt ht' =>
      subst ht'
      refine h.of_pending rfl rfl fun i hpending => ?_
      rcases hpending with hle | hreading
      · rcases hle.eq_or_lt with rfl | hlt'
        · exact Or.inr rfl
        · exact Or.inl hlt'
      · rw [hpc] at hreading
        cases hreading
  | reads n i s pc hs hreading hsame hholds ht' =>
      subst ht'
      exact h.of_pending rfl rfl fun j hpending =>
        hpending.imp_right fun hj => hsame.trans (hreading.symm.trans hj)
  | finishes n i s alive r hs hreading hr ht' =>
      subst ht'
      intro j s' hs'
      obtain ⟨hcap, hkept⟩ := h j s' hs'
      refine ⟨hcap, ?_⟩
      rw [resultsOf_finish]
      by_cases hij : i = j
      · subst hij
        obtain rfl := Option.some.inj (hs.symm.trans hs')
        have hdeclared := declared_of_le hcap
        have hresult : r = .ok s.frame := by
          rcases hr with ⟨hlarge, -⟩ | ⟨-, rfl⟩
          · omega
          · rw [hdeclared, List.take_length]
        have hnone : t.resultsOf i = [] := (hinv.reading i hreading).2
        refine Or.inr ?_
        rw [if_pos rfl, hresult]
        show t.resultsOf i ++ _ = _
        rw [hnone, List.nil_append]
      · rw [if_neg hij, List.append_nil]
        refine hkept.imp_left fun hp => ⟨Or.inl (hp.1.resolve_right ?_), hp.2⟩
        rw [hreading]
        exact fun heq => hij (Option.some.inj heq)
  | drop ht' =>
      subst ht'
      refine h.of_pending rfl rfl fun i hpending => Or.inl (hpending.resolve_right ?_)
      have hnone : t.pc.stream? = none := hcareful
      rw [hnone]
      rintro ⟨⟩

theorem careful_of_goesOn (t : QuicReceiving) {e : Event} (h : e.goesOn = true) : t.Careful e := by
  cases e with
  | send frame => cases h
  | drop => cases h
  | _ => trivial

/-! ## What is kept will come -/

/-- How far the pending `recv` is from the next stream. -/
def RecvPc.rank : RecvPc → Nat
  | .accepting => 0
  | .idle => 1
  | .readingData .. => 2
  | .readingLen .. => 3

def partly (s : QuicStream) : Bool := decide (s.arrived < s.wire.length)

/-- How much there is left to do. -/
def remaining (t : QuicReceiving) : Nat :=
  t.streams.countP partly + 4 * (t.streams.length - t.accepted) + RecvPc.rank t.pc

/-- The rest of a stream arrives. -/
theorem progress_arrive {t : QuicReceiving} (hinv : t.Inv) {i : Nat} {s : QuicStream}
    (hs : t.streams[i]? = some s) (hpart : partly s = true) :
    ∃ e t', e.goesOn = true ∧ t.step e = some t' ∧ t'.remaining < t.remaining := by
  have hlt : i < t.streams.length := (List.getElem?_eq_some_iff.mp hs).1
  have hmem : t.streams[i] = s := (List.getElem?_eq_some_iff.mp hs).2
  have harrived := hinv.arrived s (hmem ▸ List.getElem_mem hlt)
  have hall : s.arrived + (s.wire.length - s.arrived) = s.wire.length := by omega
  have hstep : t.step (.arrive i (s.wire.length - s.arrived))
      = some { t with streams := t.streams.set i { s with arrived := s.wire.length } } := by
    simp only [step, hs]
    rw [hall, if_pos le_rfl]
  refine ⟨_, _, rfl, hstep, ?_⟩
  have hwhole : partly { s with arrived := s.wire.length } = false := decide_eq_false (lt_irrefl _)
  have hcount : 0 < t.streams.countP partly :=
    List.countP_pos_iff.mpr ⟨s, hmem ▸ List.getElem_mem hlt, hpart⟩
  have hset : (t.streams.set i { s with arrived := s.wire.length }).countP partly
      = t.streams.countP partly - 1 := by
    rw [List.countP_set hlt, hmem, hpart, hwhole]
    rfl
  simp only [remaining, hset, List.length_set]
  omega

theorem afterLen_remaining (t : QuicReceiving) (i : Nat) (lenBuf : Bytes) :
    (t.afterLen i lenBuf).remaining + RecvPc.rank t.pc ≤ t.remaining + 2 := by
  rw [afterLen]
  split
  · simp only [remaining, finish, RecvPc.rank]
    omega
  split
  · simp only [remaining, finish, RecvPc.rank]
    omega
  · simp only [remaining, RecvPc.rank]
    omega

/-- What is left of the length prefix is read. -/
theorem progress_readLen {t : QuicReceiving} {i : Nat} {lenBuf : Bytes} {s : QuicStream}
    (hpc : t.pc = .readingLen i lenBuf) (hs : t.streams[i]? = some s) (hholds : Holds s t.pc)
    (harrived : s.arrived = s.wire.length) :
    ∃ e t', e.goesOn = true ∧ t.step e = some t' ∧ t'.remaining < t.remaining := by
  rw [hpc] at hholds
  rw [length_wire] at harrived
  have hshort : lenBuf.length < 4 := hholds.2
  have hsum : lenBuf.length + (4 - lenBuf.length) = 4 := by omega
  have hlen : (lenBuf ++ (s.wire.drop lenBuf.length).take (4 - lenBuf.length)).length = 4 := by
    rw [List.length_append, List.length_take, List.length_drop, length_wire]
    omega
  have hstep : t.step (.read (4 - lenBuf.length))
      = some (t.afterLen i (lenBuf ++ (s.wire.drop lenBuf.length).take (4 - lenBuf.length))) := by
    simp only [step, hpc, hs]
    rw [hsum, if_pos ⟨le_rfl, by omega⟩, if_pos hlen]
  refine ⟨_, _, rfl, hstep, ?_⟩
  have hless := t.afterLen_remaining i
    (lenBuf ++ (s.wire.drop lenBuf.length).take (4 - lenBuf.length))
  rw [hpc, RecvPc.rank] at hless
  omega

/-- What is left of the frame is read. -/
theorem progress_readData {t : QuicReceiving} {i length : Nat} {buf : Bytes} {s : QuicStream}
    (hpc : t.pc = .readingData i length buf) (hs : t.streams[i]? = some s) (hholds : Holds s t.pc)
    (harrived : s.arrived = s.wire.length) :
    ∃ e t', e.goesOn = true ∧ t.step e = some t' ∧ t'.remaining < t.remaining := by
  rw [hpc] at hholds
  rw [length_wire] at harrived
  obtain ⟨hlength, -, -, hshort⟩ := hholds
  have hle : length ≤ s.frame.length := hlength ▸ Nat.mod_le ..
  have hsum : buf.length + (length - buf.length) = length := by omega
  have hlen : (buf ++ (s.wire.drop (4 + buf.length)).take (length - buf.length)).length
      = length := by
    rw [List.length_append, List.length_take, List.length_drop, length_wire]
    omega
  have hstep : t.step (.read (length - buf.length))
      = some (t.finish i
        (.ok (buf ++ (s.wire.drop (4 + buf.length)).take (length - buf.length)))) := by
    simp only [step, hpc, hs]
    rw [hsum, if_pos ⟨le_rfl, by omega⟩, if_pos hlen]
  refine ⟨_, _, rfl, hstep, ?_⟩
  simp only [remaining, finish, hpc, RecvPc.rank]
  omega

/-- Where all has arrived, `recv` goes on. -/
theorem progress_recv {t : QuicReceiving} (hinv : t.Inv)
    (hall : ∀ s ∈ t.streams, s.arrived = s.wire.length)
    (hwaits : t.pc = .accepting → t.accepted < t.streams.length) :
    ∃ e t', e.goesOn = true ∧ t.step e = some t' ∧ t'.remaining < t.remaining := by
  have hstream : ∀ i, t.pc.stream? = some i →
      ∃ s, t.streams[i]? = some s ∧ Holds s t.pc ∧ s.arrived = s.wire.length := by
    intro i hi
    have hlt := Nat.lt_of_lt_of_le (hinv.reading i hi).1 hinv.accepted
    have hs := List.getElem?_eq_getElem hlt
    exact ⟨_, hs, hinv.holds i _ hi hs, hall _ (List.getElem_mem hlt)⟩
  cases hpc : t.pc with
  | idle =>
      refine ⟨.recv, _, rfl, if_pos hpc, ?_⟩
      simp only [remaining, hpc, RecvPc.rank]
      omega
  | accepting =>
      have hlt := hwaits hpc
      have hany : (t.streams.drop t.accepted).any (fun s => decide (0 < s.arrived)) = true := by
        refine List.any_eq_true.mpr ⟨t.streams[t.accepted], ?_, decide_eq_true ?_⟩
        · rw [List.drop_eq_getElem_cons hlt]
          exact List.mem_cons_self
        · rw [hall _ (List.getElem_mem hlt), length_wire]
          omega
      refine ⟨.accept, _, rfl, if_pos ⟨hpc, hany⟩, ?_⟩
      simp only [remaining, hpc, RecvPc.rank]
      omega
  | readingLen i lenBuf =>
      obtain ⟨s, hs, hholds, harrived⟩ := hstream i (by rw [hpc]; rfl)
      exact progress_readLen hpc hs hholds harrived
  | readingData i length buf =>
      obtain ⟨s, hs, hholds, harrived⟩ := hstream i (by rw [hpc]; rfl)
      exact progress_readData hpc hs hholds harrived

/-- As long as a frame is pending there is something left to do, and it
can be done. -/
theorem progress {t : QuicReceiving} (hinv : t.Inv) {i : Nat} (hi : i < t.streams.length)
    (hpending : t.Pending i) :
    ∃ e t', e.goesOn = true ∧ t.step e = some t' ∧ t'.remaining < t.remaining := by
  by_cases hpart : ∃ s ∈ t.streams, partly s = true
  · obtain ⟨s, hs, hpart⟩ := hpart
    obtain ⟨j, hj⟩ := List.getElem?_of_mem hs
    exact progress_arrive hinv hj hpart
  · refine progress_recv hinv (fun s hs => ?_) fun hpc => ?_
    · have hle := hinv.arrived s hs
      have hno : ¬ s.arrived < s.wire.length := fun hlt =>
        hpart ⟨s, hs, decide_eq_true hlt⟩
      omega
    · have hle : t.accepted ≤ i := hpending.resolve_right (by rw [hpc]; rintro ⟨⟩)
      omega

theorem frames_of_goesOn {t t' : QuicReceiving} {e : Event} (hinv : t.Inv)
    (hgoes : e.goesOn = true) (hstep : t.step e = some t') {i : Nat} {s : QuicStream}
    (hs : t.streams[i]? = some s) :
    ∃ s' : QuicStream, t'.streams[i]? = some s' ∧ s'.frame = s.frame := by
  cases step_effect hinv hstep with
  | send frame ht' => cases hgoes
  | drop ht' => cases hgoes
  | arrive j n s0 hs0 hfits ht' =>
      subst ht'
      by_cases hij : j = i
      · subst hij
        obtain rfl := Option.some.inj (hs0.symm.trans hs)
        exact ⟨_, List.getElem?_set_self (List.getElem?_eq_some_iff.mp hs).1, rfl⟩
      · exact ⟨s, by rw [List.getElem?_set_ne hij]; exact hs, rfl⟩
  | recv hpc ht' =>
      subst ht'
      exact ⟨s, hs, rfl⟩
  | accept hpc hlt ht' =>
      subst ht'
      exact ⟨s, hs, rfl⟩
  | reads n j s0 pc hs0 hreading hsame hholds ht' =>
      subst ht'
      exact ⟨s, hs, rfl⟩
  | finishes n j s0 alive r hs0 hreading hr ht' =>
      subst ht'
      exact ⟨s, hs, rfl⟩

/-- What is kept and has not been returned will be. -/
theorem Kept.comes {t : QuicReceiving} (h : t.Kept) (hinv : t.Inv) {i : Nat} {s : QuicStream}
    (hs : t.streams[i]? = some s) (hnone : t.resultsOf i = []) :
    ∃ es t', (∀ e ∈ es, e.goesOn = true) ∧ exec QuicReceiving.step t es = some t'
      ∧ t'.resultsOf i = [.ok s.frame] := by
  -- by how much there is left to do
  induction hn : t.remaining using Nat.strong_induction_on generalizing t s with
  | _ n ih =>
      have hi := (List.getElem?_eq_some_iff.mp hs).1
      obtain ⟨e, u, hgoes, hstep, hless⟩ := progress hinv hi (h.pending hs hnone)
      have hkept := h.step hinv (t.careful_of_goesOn hgoes) hstep
      obtain ⟨s', hs', hframe⟩ := frames_of_goesOn hinv hgoes hstep hs
      by_cases hdone : u.resultsOf i = []
      · obtain ⟨es, t', hall, hexec, hresults⟩ :=
          ih u.remaining (hn ▸ hless) hkept (hinv.step hstep) hs' hdone rfl
        exact ⟨e :: es, t', List.forall_mem_cons.mpr ⟨hgoes, hall⟩,
          exec_cons.mpr ⟨u, hstep, hexec⟩, hframe ▸ hresults⟩
      · refine ⟨[e], u, List.forall_mem_singleton.mpr hgoes, exec_cons.mpr ⟨u, hstep, rfl⟩, ?_⟩
        rw [← hframe]
        exact (hkept i s' hs').2.resolve_left fun hp => hdone hp.2

theorem Kept.intact {t : QuicReceiving} (h : t.Kept) (hinv : t.Inv) : t.Intact := by
  intro i s hs
  refine (h i s hs).2.imp_left fun hp => ⟨hp.2, ?_⟩
  obtain ⟨es, t', hall, hexec, hresults⟩ := h.comes hinv hs hp.2
  exact ⟨es, t', hall, hexec, by rw [hresults, hp.2, List.nil_append]⟩

/-! ## The steps -/

/-- A step keeps every frame exactly if it is careful. -/
theorem step_intact_iff {t t' : QuicReceiving} {e : Event} (h : t.Kept) (hinv : t.Inv)
    (hstep : t.step e = some t') : t'.Intact ↔ t.Careful e := by
  have hinv' := hinv.step hstep
  constructor
  · intro hintact
    cases step_effect hinv hstep with
    | send frame ht' =>
        refine not_lt.mp fun hlarge => ?_
        refine not_intact_of_oversized hinv' (i := t.streams.length) (s := ⟨frame, 0⟩) ?_ hlarge
          hintact
        rw [ht', List.getElem?_append_right le_rfl, Nat.sub_self]
        rfl
    | drop ht' =>
        show t.pc.stream? = none
        cases hstream : t.pc.stream? with
        | none => rfl
        | some i =>
            exfalso
            obtain ⟨hlt, hnone⟩ := hinv.reading i hstream
            have hlost : Lost i t' := by
              subst ht'
              exact ⟨hlt, (fun heq => by cases heq), hnone⟩
            exact hlost.not_intact hinv' hintact
    | _ => trivial
  · intro hcareful
    exact (h.step hinv hcareful hstep).intact hinv'

/-- Every frame is still to come or has been returned exactly once, if and
only if no `recv` is dropped after it has accepted a stream, and no frame
is sent that is beyond the cap. -/
theorem intact_iff (events : List Event) :
    Always step Intact start events ↔ Meets step Careful start events := by
  refine always_iff_meets (I := fun t => t.Inv ∧ t.Kept) (fun t e t' hs hintact hstep => ?_)
    ⟨inv_start, kept_start⟩ (kept_start.intact inv_start)
  have hiff := step_intact_iff hs.2 hs.1 hstep
  exact ⟨hiff, fun h' => ⟨hs.1.step hstep, hs.2.step hs.1 (hiff.mp h') hstep⟩⟩

/-- Another branch of the `select!` wins while the second frame has only
half arrived. -/
def droppedHalfway : List Event :=
  [.send [1, 2], .send [3, 4, 5], .arrive 0 6, .recv, .accept, .read 4, .read 2, .arrive 1 5,
    .recv, .accept, .read 4, .read 1, .drop, .arrive 1 2, .recv]

theorem droppedHalfway_results :
    (exec step start droppedHalfway).map
        (fun t => (t.streams[1]?, t.accepted, t.pc, t.results.map Prod.fst))
      = some (some ⟨[3, 4, 5], 7⟩, 2, .accepting, [0]) := by
  decide +kernel

/-- All of the second frame has arrived, and no `recv` will return it. -/
theorem droppedHalfway_loses : ¬ Always step Intact start droppedHalfway := by
  obtain ⟨t, hexec, ht⟩ := Option.map_eq_some_iff.mp droppedHalfway_results
  obtain ⟨-, hrest⟩ := Prod.mk.inj ht
  obtain ⟨haccepted, hrest⟩ := Prod.mk.inj hrest
  obtain ⟨hpc, hresults⟩ := Prod.mk.inj hrest
  refine not_always_of_exec hexec (Lost.not_intact (i := 1) ⟨?_, ?_, ?_⟩ ?_)
  · rw [haccepted]
    decide
  · rw [hpc]
    rintro ⟨⟩
  · -- the only result is that of the first stream
    refine List.map_eq_nil_iff.mpr (List.filter_eq_nil_iff.mpr fun r hr => ?_)
    have hfirst : r.1 ∈ t.results.map Prod.fst := List.mem_map_of_mem hr
    rw [hresults] at hfirst
    rw [List.mem_singleton.mp hfirst]
    decide
  · exact exec_invariant (fun _ _ _ hs hstep => Inv.step hs hstep) inv_start hexec

end QuicReceiving

end Kanrin
