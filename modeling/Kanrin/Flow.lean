import Mathlib.Data.List.Perm.Subperm
import Mathlib.Data.List.Induction
import Kanrin.ReceiveBuffer
import Kanrin.Session

/-!
# One direction of a reliable transport

What holds of one direction of a session while its frames travel over one
in-order, loss-free transport: a sender numbers its chunks with one
counter, data and control alike, a wire carries the frames in order, and
the receiver offers the data chunks to its reorder buffer.

`log` is what the sender has numbered as data, with the numbers. The two
ends agree on `content log`; what the receiver has handed on is always the
stretch of it below the cumulative point. If the data chunks have taken
every number (`Contiguous`), everything that has arrived has been handed
on (`Flow.inOrder`); if a control chunk has taken one, the chunks numbered
after it wait for a sequence that no data chunk will ever carry
(`contiguous_of_handed`).
-/

namespace Kanrin

open Lib

/-! ## What a sequence number carries -/

/-- The payload numbered `i`. -/
def content (log : List (UInt64 × Bytes)) (i : Nat) : Option Bytes :=
  (log.find? fun e => decide (e.1.toNat = i)).map Prod.snd

theorem mem_of_content {log : List (UInt64 × Bytes)} {i : Nat} {v : Bytes}
    (h : content log i = some v) : ∃ s, (s, v) ∈ log ∧ s.toNat = i := by
  obtain ⟨⟨s, w⟩, hfind, rfl⟩ := Option.map_eq_some_iff.mp h
  exact ⟨s, List.mem_of_find?_eq_some hfind, by simpa using List.find?_some hfind⟩

theorem content_concat {log : List (UInt64 × Bytes)} {i : Nat} {v : Bytes} (e : UInt64 × Bytes)
    (h : content log i = some v) : content (log ++ [e]) i = some v := by
  obtain ⟨x, hfind, rfl⟩ := Option.map_eq_some_iff.mp h
  rw [content, List.find?_append, hfind]
  rfl

/-- What is logged later is not what was read before. -/
theorem map_content_concat {log : List (UInt64 × Bytes)} {payloads : List Bytes}
    {numbers : List Nat} (h : payloads.map some = numbers.map (content log))
    (e : UInt64 × Bytes) : payloads.map some = numbers.map (content (log ++ [e])) := by
  rw [h]
  refine List.map_congr_left ?_
  intro i hi
  have hmem : content log i ∈ payloads.map some := by
    rw [h]
    exact List.mem_map.mpr ⟨i, hi, rfl⟩
  obtain ⟨v, -, hv⟩ := List.mem_map.mp hmem
  rw [← hv, content_concat e hv.symm]

theorem content_of_mem {log : List (UInt64 × Bytes)} (hlog : log.Pairwise fun a b => a.1 < b.1)
    {s : UInt64} {v : Bytes} (h : (s, v) ∈ log) : content log s.toNat = some v := by
  induction log with
  | nil => cases h
  | cons e log ih =>
      obtain ⟨hlt, hlog⟩ := List.pairwise_cons.mp hlog
      rcases List.mem_cons.mp h with rfl | h
      · simp [content]
      · have hne : ¬ e.1.toNat = s.toNat := (UInt64.lt_iff_toNat_lt.mp (hlt _ h)).ne
        simpa [content, hne] using ih hlog h

/-- Payloads of ascending numbers of a log follow one another in it. -/
theorem sublist_of_ascending {log : List (UInt64 × Bytes)}
    (hlog : log.Pairwise fun a b => a.1 < b.1) {numbers : List Nat}
    (hasc : numbers.Pairwise (· < ·)) {payloads : List Bytes}
    (h : payloads.map some = numbers.map (content log)) :
    payloads.Sublist (log.map Prod.snd) := by
  induction log generalizing numbers payloads with
  | nil =>
      cases numbers with
      | nil =>
          rw [List.map_eq_nil_iff.mp h]
          exact .slnil
      | cons n numbers =>
          cases payloads with
          | nil => cases h
          | cons v payloads => cases (List.cons.inj h).1
  | cons e log ih =>
      obtain ⟨hlt, hlog⟩ := List.pairwise_cons.mp hlog
      have hother : ∀ n, n ≠ e.1.toNat → content (e :: log) n = content log n := by
        intro n hn
        simp [content, Ne.symm hn]
      cases numbers with
      | nil =>
          rw [List.map_eq_nil_iff.mp h]
          exact List.nil_sublist _
      | cons n numbers =>
          obtain ⟨hfirst, hasc'⟩ := List.pairwise_cons.mp hasc
          cases payloads with
          | nil => cases h
          | cons v payloads =>
              obtain ⟨hv, hrest⟩ := List.cons.inj h
              by_cases hn : n = e.1.toNat
              · -- the head of the log is the next one passed on
                have hev : v = e.2 := by simpa [content, hn] using hv
                rw [List.map_cons, ← hev]
                refine (ih hlog hasc' ?_).cons_cons v
                rw [hrest]
                exact List.map_congr_left fun m hm => hother m (hn ▸ (hfirst m hm).ne')
              · -- it is passed over, and with it all that is left is above it
                rw [hother n hn] at hv
                obtain ⟨s, hs, hsn⟩ := mem_of_content hv.symm
                have habove : e.1.toNat < n := hsn ▸ UInt64.lt_iff_toNat_lt.mp (hlt _ hs)
                refine (ih hlog hasc ?_).cons e.2
                rw [h]
                refine List.map_congr_left fun m hm => hother m ?_
                rcases List.mem_cons.mp hm with rfl | hm
                · exact hn
                · exact (habove.trans (hfirst m hm)).ne'

/-! ## Logs without gaps -/

/-- The data chunks have taken every number so far. -/
def Contiguous (log : List (UInt64 × Bytes)) : Prop :=
  log.map (fun e => e.1.toNat) = List.range log.length

theorem contiguous_nil : Contiguous [] := rfl

theorem contiguous_concat {log : List (UInt64 × Bytes)} {e : UInt64 × Bytes} :
    Contiguous (log ++ [e]) ↔ Contiguous log ∧ e.1.toNat = log.length := by
  simp only [Contiguous, List.map_append, List.length_append, List.length_singleton,
    List.range_succ, List.map_cons, List.map_nil]
  constructor
  · intro h
    obtain ⟨h1, h2⟩ := List.append_inj' h rfl
    exact ⟨h1, by simpa using h2⟩
  · rintro ⟨h1, h2⟩
    rw [h1, h2]

theorem Contiguous.of_append {log rest : List (UInt64 × Bytes)} (h : Contiguous (log ++ rest)) :
    Contiguous log := by
  induction rest using List.reverseRecOn with
  | nil => simpa using h
  | append_singleton rest e ih =>
      rw [← List.append_assoc] at h
      exact ih (contiguous_concat.mp h).1

/-- In a log without gaps, the chunk after the first `done.length` has that
number. -/
theorem Contiguous.head {done rest : List (UInt64 × Bytes)} {e : UInt64 × Bytes}
    (h : Contiguous (done ++ e :: rest)) : e.1.toNat = done.length := by
  have hsplit : done ++ e :: rest = (done ++ [e]) ++ rest := by simp
  rw [hsplit] at h
  exact (contiguous_concat.mp h.of_append).2

/-- An ascending log in which each of the first `n` numbers occurs, `n`
being its length, has no gap. -/
theorem contiguous_of_content {log : List (UInt64 × Bytes)}
    (hlog : log.Pairwise fun a b => a.1 < b.1)
    (h : ∀ i, i < log.length → ∃ v, content log i = some v) : Contiguous log := by
  have hsorted : (log.map fun e => e.1.toNat).Pairwise (· < ·) :=
    List.pairwise_map.mpr (hlog.imp fun hlt => UInt64.lt_iff_toNat_lt.mp hlt)
  have hsub : List.range log.length ⊆ log.map fun e => e.1.toNat := by
    intro i hi
    obtain ⟨v, hv⟩ := h i (List.mem_range.mp hi)
    obtain ⟨s, hs, rfl⟩ := mem_of_content hv
    exact List.mem_map.mpr ⟨_, hs, rfl⟩
  have hperm : (List.range log.length).Perm (log.map fun e => e.1.toNat) :=
    (List.nodup_range.subperm hsub).perm_of_length_le (by simp)
  exact (hperm.eq_of_pairwise (fun a b _ _ h1 h2 => absurd (h1.trans h2) (lt_irrefl a))
    List.pairwise_lt_range hsorted).symm

/-! ## Frames in order -/

/-- The frames of a wire and the data chunks among them, in order. -/
inductive Carries (P : Primitives) (key : Key) : List Bytes → List (UInt64 × Bytes) → Prop where
  | nil : Carries P key [] []
  | data {frame : Bytes} {frames : List Bytes} {chunk : Chunk} {log : List (UInt64 × Bytes)} :
      Chunk.decodeSequenced P frame key = .ok chunk → chunk.header.chunkType = .data →
      Carries P key frames log →
      Carries P key (frame :: frames) ((chunk.header.sequence, chunk.payload) :: log)
  | control {frame : Bytes} {frames : List Bytes} {chunk : Chunk} {log : List (UInt64 × Bytes)} :
      Chunk.decodeSequenced P frame key = .ok chunk → chunk.header.chunkType = .control →
      Carries P key frames log → Carries P key (frame :: frames) log

variable {P : Primitives} {key : Key}

theorem Carries.append {f₁ f₂ : List Bytes} {l₁ l₂ : List (UInt64 × Bytes)}
    (h₁ : Carries P key f₁ l₁) (h₂ : Carries P key f₂ l₂) : Carries P key (f₁ ++ f₂) (l₁ ++ l₂) := by
  induction h₁ with
  | nil => exact h₂
  | data hdec ht _ ih => exact .data hdec ht ih
  | control hdec ht _ ih => exact .control hdec ht ih

/-- The direction from `sender` to the holder of `recv`. -/
structure Flow (P : Primitives) (key : Key) (sender : Session) (log : List (UInt64 × Bytes))
    (wire : List Bytes) (recv : ReceiveBuffer) (handed : List Bytes) : Prop where
  sorted : log.Pairwise fun a b => a.1 < b.1
  numbered : ∀ e ∈ log, e.1 < sender.sendSeq
  bound : sender.sendSeq.toNat ≤ 2 ^ 64 - 2
  ready : recv.ready = []
  stream : recv.Tracks handed (content log)
  flying : ∃ done rest, log = done ++ rest ∧ Carries P key wire rest
    ∧ (Contiguous log → recv.nextExpected.toNat = done.length ∧ handed = done.map Prod.snd
        ∧ recv.pending.isEmpty = true)

namespace Flow

variable {sender sender' : Session} {log : List (UInt64 × Bytes)} {wire : List Bytes}
  {recv : ReceiveBuffer} {handed : List Bytes}

theorem start (id : SessionId) (keys : SessionKeys) (maxBytes : Nat) :
    Flow P key (.new id keys) [] [] (.new maxBytes) [] where
  sorted := List.Pairwise.nil
  numbered _ h := by cases h
  bound := by simp [Session.new]
  ready := rfl
  stream := ReceiveBuffer.tracks_new maxBytes _
  flying := ⟨[], [], rfl, .nil, fun _ => ⟨rfl, rfl, rfl⟩⟩

/-- Of the sender's session only the counter matters. -/
theorem of_sendSeq (hf : Flow P key sender log wire recv handed)
    (h : sender'.sendSeq = sender.sendSeq) : Flow P key sender' log wire recv handed :=
  ⟨hf.sorted, fun e he => h ▸ hf.numbered e he, h ▸ hf.bound, hf.ready, hf.stream, hf.flying⟩

/-- Every frame on the wire decrypts. -/
theorem head_decodes {frame : Bytes} {frames : List Bytes}
    (hf : Flow P key sender log (frame :: frames) recv handed) :
    ∃ chunk, Chunk.decodeSequenced P frame key = .ok chunk := by
  obtain ⟨done, rest, hlog, hcarries, hin⟩ := hf.flying
  cases hcarries with
  | data hdec _ _ => exact ⟨_, hdec⟩
  | control hdec _ _ => exact ⟨_, hdec⟩

/-- A control chunk takes a number and is logged as nothing. -/
theorem sendControl (hf : Flow P key sender log wire recv handed) {frame : Bytes} {chunk : Chunk}
    (hdec : Chunk.decodeSequenced P frame key = .ok chunk) (ht : chunk.header.chunkType = .control)
    (hseq : sender'.sendSeq.toNat = sender.sendSeq.toNat + 1)
    (hlt : sender.sendSeq.toNat < 2 ^ 64 - 2) :
    Flow P key sender' log (wire ++ [frame]) recv handed := by
  obtain ⟨done, rest, hlog, hcarries, hin⟩ := hf.flying
  refine ⟨hf.sorted, fun e he => ?_, by omega, hf.ready, hf.stream, done, rest, hlog, ?_, hin⟩
  · have := UInt64.lt_iff_toNat_lt.mp (hf.numbered e he)
    rw [UInt64.lt_iff_toNat_lt]
    omega
  · have := hcarries.append (.control hdec ht .nil)
    simpa using this

/-- A data chunk takes the number it is logged under. -/
theorem sendData (hf : Flow P key sender log wire recv handed) {frame : Bytes} {chunk : Chunk}
    (hdec : Chunk.decodeSequenced P frame key = .ok chunk) (ht : chunk.header.chunkType = .data)
    (hnum : chunk.header.sequence = sender.sendSeq)
    (hseq : sender'.sendSeq.toNat = sender.sendSeq.toNat + 1)
    (hlt : sender.sendSeq.toNat < 2 ^ 64 - 2) :
    Flow P key sender' (log ++ [(sender.sendSeq, chunk.payload)]) (wire ++ [frame]) recv handed := by
  obtain ⟨done, rest, hlog, hcarries, hin⟩ := hf.flying
  refine ⟨?_, fun e he => ?_, by omega, hf.ready, hf.stream.mono fun i v hv => content_concat _ hv,
    done, rest ++ [(sender.sendSeq, chunk.payload)], by rw [hlog, List.append_assoc], ?_,
    fun hcont => hin (contiguous_concat.mp hcont).1⟩
  · refine List.pairwise_append.mpr ⟨hf.sorted, List.pairwise_singleton _ _, fun a ha b hb => ?_⟩
    rw [List.mem_singleton.mp hb]
    exact hf.numbered a ha
  · rw [UInt64.lt_iff_toNat_lt]
    rcases List.mem_append.mp he with he | he
    · have := UInt64.lt_iff_toNat_lt.mp (hf.numbered e he)
      omega
    · rw [List.mem_singleton.mp he]
      simp only
      omega
  · have hlast : Carries P key [frame] [(sender.sendSeq, chunk.payload)] := by
      rw [← hnum]
      exact .data hdec ht .nil
    exact hcarries.append hlast

/-- A control chunk that arrives leaves the stream alone. -/
theorem recvControl {frame : Bytes} {frames : List Bytes} {chunk : Chunk}
    (hf : Flow P key sender log (frame :: frames) recv handed)
    (hdec : Chunk.decodeSequenced P frame key = .ok chunk) (ht : chunk.header.chunkType ≠ .data) :
    Flow P key sender log frames recv handed := by
  obtain ⟨done, rest, hlog, hcarries, hin⟩ := hf.flying
  refine ⟨hf.sorted, hf.numbered, hf.bound, hf.ready, hf.stream, done, rest, hlog, ?_, hin⟩
  cases hcarries with
  | data hdec' ht' _ =>
      obtain rfl := Except.ok.inj (hdec.symm.trans hdec')
      exact absurd ht' ht
  | control _ _ h => exact h

theorem content_bound (hf : Flow P key sender log wire recv handed) :
    ∀ i v, content log i = some v → i < 2 ^ 64 - 1 := by
  intro i v hv
  obtain ⟨s, hs, rfl⟩ := mem_of_content hv
  have := UInt64.lt_iff_toNat_lt.mp (hf.numbered _ hs)
  have := hf.bound
  simp only at *
  omega

/-- Offering an arriving data chunk to the reorder buffer and handing on
what becomes ready. -/
theorem recvData {frame : Bytes} {frames : List Bytes} {chunk : Chunk}
    (hf : Flow P key sender log (frame :: frames) recv handed)
    (hdec : Chunk.decodeSequenced P frame key = .ok chunk) (ht : chunk.header.chunkType = .data) :
    (∃ e, recv.accept chunk.header.sequence chunk.payload = .error e ∧ ¬ Contiguous log
        ∧ Flow P key sender log frames recv handed)
      ∨ ∃ o r, recv.accept chunk.header.sequence chunk.payload = .ok (o, r)
        ∧ (o = .duplicate → r = recv)
        ∧ Flow P key sender log frames r.drainReady.2 (handed ++ r.ready) := by
  obtain ⟨done, rest, hlog, hcarries, hin⟩ := hf.flying
  obtain ⟨rest, rfl, hrest⟩ : ∃ rest', rest = (chunk.header.sequence, chunk.payload) :: rest'
      ∧ Carries P key frames rest' := by
    cases hcarries with
    | data hdec' _ h =>
        obtain rfl := Except.ok.inj (hdec.symm.trans hdec')
        exact ⟨_, rfl, h⟩
    | control hdec' ht' _ =>
        obtain rfl := Except.ok.inj (hdec.symm.trans hdec')
        rw [ht] at ht'
        cases ht'
  have hmem : (chunk.header.sequence, chunk.payload) ∈ log := by rw [hlog]; simp
  have hcontent := content_of_mem hf.sorted hmem
  have hnext : Contiguous log → chunk.header.sequence = recv.nextExpected := fun hcont => by
    obtain ⟨hnext, -, -⟩ := hin hcont
    rw [hlog] at hcont
    rw [← UInt64.toNat_inj, hnext]
    exact hcont.head
  cases hacc : recv.accept chunk.header.sequence chunk.payload with
  | error e =>
      have hgap : ¬ Contiguous log := fun hcont => by
        obtain ⟨r, hok⟩ := recv.accept_of_eq chunk.payload
        rw [hnext hcont, hok] at hacc
        cases hacc
      exact Or.inl ⟨e, rfl, hgap, hf.sorted, hf.numbered, hf.bound, hf.ready, hf.stream,
        done ++ [(chunk.header.sequence, chunk.payload)], rest, by simp [hlog], hrest,
        fun hcont => absurd hcont hgap⟩
  | ok res =>
      obtain ⟨o, r⟩ := res
      obtain ⟨htracks, -⟩ := ReceiveBuffer.accept_tracks hf.content_bound hf.stream hcontent hacc
      have hdup : o = .duplicate → r = recv := fun ho =>
        ReceiveBuffer.eq_of_accept_duplicate (ho ▸ hacc)
      refine Or.inr ⟨o, r, rfl, hdup, hf.sorted, hf.numbered, hf.bound, rfl, htracks.drainReady,
        done ++ [(chunk.header.sequence, chunk.payload)], rest, by simp [hlog], hrest,
        fun hcont => ?_⟩
      obtain ⟨hdone, hhanded, hempty⟩ := hin hcont
      obtain ⟨r', hr', h1, h2, h3⟩ := recv.accept_of_isEmpty chunk.payload hempty
      rw [hnext hcont, hr'] at hacc
      obtain ⟨-, rfl⟩ := Prod.mk.inj (Except.ok.inj hacc)
      refine ⟨?_, ?_, ?_⟩
      · have hsucc := ReceiveBuffer.toNat_succ_of_content hf.content_bound hcontent
        rw [hnext hcont] at hsucc
        simp [ReceiveBuffer.drainReady, h1, hsucc, hdone]
      · simp [h2, hf.ready, hhanded]
      · simpa [ReceiveBuffer.drainReady, h3] using hempty

/-! ## When everything has arrived -/

/-- With nothing left on the wire, a log without gaps has been handed on
whole. -/
theorem handed_of_contiguous (hf : Flow P key sender log [] recv handed) (h : Contiguous log) :
    handed = log.map Prod.snd ∧ recv.pending.isEmpty = true := by
  obtain ⟨done, rest, hlog, hcarries, hin⟩ := hf.flying
  cases hcarries
  obtain ⟨-, h2, h3⟩ := hin h
  exact ⟨by rw [h2, hlog, List.append_nil], h3⟩

/-- A log that has been handed on whole has no gap. -/
theorem contiguous_of_handed (hf : Flow P key sender log wire recv handed)
    (h : handed = log.map Prod.snd) : Contiguous log := by
  refine contiguous_of_content hf.sorted ?_
  intro i hi
  have hlen := congrArg List.length hf.stream.stream
  rw [hf.ready, List.append_nil, h] at hlen
  simp only [List.length_map, List.length_range] at hlen
  exact hf.stream.content_isSome (by omega)

end Flow

end Kanrin
