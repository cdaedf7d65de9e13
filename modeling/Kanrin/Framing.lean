import Kanrin.Lib.Run
import Kanrin.Wire

/-!
# Length-prefixed frames over a stream

`TlsTcpConnection` of `kanrin-transport/src/tls_tcp.rs`. A read of the
stream returns any part of what has arrived, and the pending `recv` may be
dropped whenever it waits for one; the bytes read so far stay in
`read_buf`.

`Receiving` runs `recv` against a stream. `recv_frames` says that the
frames come out as they went in, each by the first `recv` that has all of it,
and that a prefix beyond the cap ends the stream of frames there.
-/

namespace Kanrin

open Lib

/-- Either side's cap on a frame. -/
def maxFrame : Nat := 1024 * 1024

inductive FrameRead where
  | incomplete
  | tooLarge
  | frame (data rest : Bytes)

/-- The first length-prefixed frame of the bytes received
(`TlsTcpConnection::recv`, `ClientSession::recv_frame`). -/
def takeFrame (buf : Bytes) : FrameRead :=
  if buf.length < 4 then .incomplete
  else
    let length := beNat (buf.take 4)
    if length > maxFrame then .tooLarge
    else if 4 + length ≤ buf.length then
      .frame ((buf.drop 4).take length) (buf.drop (4 + length))
    else .incomplete

/-- `send`: the bytes it writes for all its calls. -/
def framed (frames : List Bytes) : Bytes := frames.flatMap frameChunk

/-- What follows the frames: nothing, or a prefix beyond the cap. -/
def EndsFrames (tail : Bytes) : Prop :=
  tail = [] ∨ 4 ≤ tail.length ∧ maxFrame < beNat (tail.take 4)

/-! ## Reading a frame off a buffer -/

theorem takeFrame_append_frame {buf data rest : Bytes} (h : takeFrame buf = .frame data rest)
    (more : Bytes) : takeFrame (buf ++ more) = .frame data (rest ++ more) := by
  rw [takeFrame] at h
  split at h
  · cases h
  rename_i hlen
  dsimp only at h
  split at h
  · cases h
  rename_i hcap
  split at h
  · rename_i hfits
    obtain ⟨rfl, rfl⟩ := FrameRead.frame.inj h
    have htake : (buf ++ more).take 4 = buf.take 4 := List.take_append_of_le_length (by omega)
    have hlen' : ¬ (buf ++ more).length < 4 := by rw [List.length_append]; omega
    have hfits' : 4 + beNat (buf.take 4) ≤ (buf ++ more).length := by
      rw [List.length_append]; omega
    have hdrop4 : (buf ++ more).drop 4 = buf.drop 4 ++ more :=
      List.drop_append_of_le_length (by omega)
    simp only [takeFrame, if_neg hlen', htake, if_neg hcap, if_pos hfits', hdrop4,
      List.drop_append_of_le_length hfits]
    rw [List.take_append_of_le_length (by rw [List.length_drop]; omega)]
  · cases h

theorem takeFrame_append_tooLarge {buf : Bytes} (h : takeFrame buf = .tooLarge) (more : Bytes) :
    takeFrame (buf ++ more) = .tooLarge := by
  rw [takeFrame] at h
  split at h
  · cases h
  rename_i hlen
  dsimp only at h
  split at h
  · rename_i hcap
    have htake : (buf ++ more).take 4 = buf.take 4 := List.take_append_of_le_length (by omega)
    have hlen' : ¬ (buf ++ more).length < 4 := by rw [List.length_append]; omega
    simp only [takeFrame, if_neg hlen', htake, if_pos hcap]
  · split at h <;> cases h

/-- A frame that was sent is read back, whatever follows it. -/
theorem takeFrame_frameChunk {data : Bytes} (h : data.length ≤ maxFrame) (rest : Bytes) :
    takeFrame (frameChunk data ++ rest) = .frame data rest := by
  rw [maxFrame] at h
  have hhead : (beBytes 4 data.length).length = 4 := length_beBytes ..
  have htake : (frameChunk data ++ rest).take 4 = beBytes 4 data.length := by
    rw [frameChunk, List.append_assoc, List.take_left' hhead]
  have hdrop : (frameChunk data ++ rest).drop 4 = data ++ rest := by
    rw [frameChunk, List.append_assoc, List.drop_left' hhead]
  have htail : (frameChunk data ++ rest).drop (4 + data.length) = rest :=
    List.drop_left' (by rw [frameChunk, List.length_append, hhead])
  have hlen : (frameChunk data ++ rest).length = 4 + data.length + rest.length := by
    rw [frameChunk, List.length_append, List.length_append, hhead]
  have hnat : beNat (beBytes 4 data.length) = data.length := beNat_beBytes_of_lt (by omega)
  have hshort : ¬ (frameChunk data ++ rest).length < 4 := by omega
  have hcap : ¬ data.length > maxFrame := by rw [maxFrame]; omega
  have hfits : 4 + data.length ≤ (frameChunk data ++ rest).length := by omega
  simp only [takeFrame, if_neg hshort, htake, hnat, if_neg hcap, if_pos hfits, hdrop,
    List.take_left]
  rw [htail]

theorem takeFrame_oversized {tail : Bytes} (hlen : 4 ≤ tail.length)
    (hcap : maxFrame < beNat (tail.take 4)) : takeFrame tail = .tooLarge := by
  simp only [takeFrame, if_neg (Nat.not_lt.mpr hlen), if_pos hcap]

/-- The bytes received begin with the next frame, or are a part of it. -/
theorem takeFrame_next {data buf stream later : Bytes} (hdata : data.length ≤ maxFrame)
    (h : buf ++ stream = frameChunk data ++ later) :
    ((frameChunk data).length ≤ buf.length
        ∧ ∃ rest, takeFrame buf = .frame data rest ∧ rest ++ stream = later)
      ∨ (buf.length < (frameChunk data).length ∧ takeFrame buf = .incomplete) := by
  have hwhole : takeFrame (buf ++ stream) = .frame data later := by
    rw [h]
    exact takeFrame_frameChunk hdata later
  by_cases hlen : (frameChunk data).length ≤ buf.length
  · have hhead : frameChunk data <+: buf ++ stream := h ▸ List.prefix_append ..
    obtain ⟨rest, rfl⟩ := List.prefix_of_prefix_length_le hhead (List.prefix_append ..) hlen
    refine Or.inl ⟨hlen, rest, takeFrame_frameChunk hdata rest, ?_⟩
    rw [List.append_assoc] at h
    exact List.append_cancel_left h
  · refine Or.inr ⟨Nat.lt_of_not_le hlen, ?_⟩
    cases htake : takeFrame buf with
    | incomplete => rfl
    | tooLarge =>
        rw [takeFrame_append_tooLarge htake] at hwhole
        cases hwhole
    | frame data' rest =>
        -- what a frame leaves would be longer than what follows it
        rw [takeFrame_append_frame htake] at hwhole
        obtain ⟨rfl, rfl⟩ := FrameRead.frame.inj hwhole
        have hsum := congrArg List.length h
        simp only [List.length_append] at hsum
        omega

/-- After the last frame there is none. -/
theorem takeFrame_end {tail buf stream : Bytes} (htail : EndsFrames tail)
    (h : buf ++ stream = tail) :
    (4 ≤ buf.length ∧ takeFrame buf = .tooLarge)
      ∨ (buf.length < 4 ∧ takeFrame buf = .incomplete) := by
  by_cases hlen : 4 ≤ buf.length
  · refine Or.inl ⟨hlen, ?_⟩
    rcases htail with rfl | ⟨-, hcap⟩
    · obtain ⟨rfl, -⟩ := List.append_eq_nil_iff.mp h
      cases hlen
    · rw [← h, List.take_append_of_le_length hlen] at hcap
      exact takeFrame_oversized hlen hcap
  · exact Or.inr ⟨Nat.lt_of_not_le hlen, if_pos (Nat.lt_of_not_le hlen)⟩

/-! ## The connection -/

inductive RecvError where
  | frameTooLarge
  | connectionClosed
  | io
deriving DecidableEq

structure TlsTcpConnection where
  alive : Bool
  readBuf : Bytes
deriving DecidableEq

/-- The head of the loop of `recv`: a frame that is complete is served, and
otherwise the stream has to be read. -/
def TlsTcpConnection.serveFrame (c : TlsTcpConnection) :
    Option (Except RecvError Bytes) × TlsTcpConnection :=
  match takeFrame c.readBuf with
  | .frame data rest => (some (.ok data), { c with readBuf := rest })
  | .tooLarge => (some (.error .frameTooLarge), { c with alive := false })
  | .incomplete => (none, c)

structure Receiving where
  connection : TlsTcpConnection
  /-- The bytes written by the peer and not read yet. -/
  stream : Bytes
  /-- A `recv` is pending at its read. -/
  pending : Bool
  results : List (Except RecvError Bytes)
deriving DecidableEq

namespace Receiving

inductive Event where
  | recv
  /-- The read returns `n` bytes. -/
  | read (n : Nat)
  | eof
  | ioError
  /-- The pending future is dropped. -/
  | drop

def start (stream : Bytes) : Receiving where
  connection := { alive := true, readBuf := [] }
  stream := stream
  pending := false
  results := []

/-- `recv` goes through the head of its loop. -/
def loopHead (t : Receiving) : Receiving :=
  match t.connection.serveFrame with
  | (some result, connection) =>
      { t with connection, pending := false, results := t.results ++ [result] }
  | (none, connection) => { t with connection, pending := true }

def step (t : Receiving) : Event → Option Receiving
  | .recv => if t.pending then none else some t.loopHead
  | .read n =>
      if t.pending ∧ 0 < n ∧ n ≤ 16 * 1024 ∧ n ≤ t.stream.length then
        let readBuf := t.connection.readBuf ++ t.stream.take n
        some { t with
          connection := { t.connection with readBuf }
          stream := t.stream.drop n }.loopHead
      else none
  | .eof =>
      if t.pending ∧ t.stream = [] then
        some { t with
          connection := { t.connection with alive := false }
          pending := false
          results := t.results ++ [.error .connectionClosed] }
      else none
  | .ioError =>
      if t.pending then some { t with pending := false, results := t.results ++ [.error .io] }
      else none
  | .drop => if t.pending then some { t with pending := false } else none

/-- The frames that `recv` has returned, in order. -/
def received (t : Receiving) : List Bytes := t.results.filterMap Except.toOption

/-- `recv` is called, or a read brings it more. -/
def Event.runs : Event → Bool
  | .recv | .read _ => true
  | .eof | .ioError | .drop => false

/-- What `recv` has to return after `k` frames, once `n` bytes of the stream
have been read. -/
def owed (frames : List Bytes) (k n : Nat) : Option (Except RecvError Bytes) :=
  match frames[k]? with
  | some f => if (framed (frames.take (k + 1))).length ≤ n then some (.ok f) else none
  | none => if (framed frames).length + 4 ≤ n then some (.error .frameTooLarge) else none

/-- How much of what was sent has been read. -/
def bytesRead (sent : Bytes) (t : Receiving) : Nat := sent.length - t.stream.length

/-- The frames come out as they went in. -/
structure Delivers (frames : List Bytes) (tail : Bytes) (t : Receiving) : Prop where
  ordered : t.received <+: frames
  /-- A prefix beyond the cap is refused once all the frames before it are out. -/
  refused : .error .frameTooLarge ∈ t.results → t.received = frames ∧ tail ≠ []
  drained : t.pending = true → t.stream = [] → t.received = frames ∧ tail = []
  /-- `recv` returns what it has to, and waits only if that is nothing. -/
  answers : ∀ e t', e.runs = true → t.step e = some t' →
    t'.results
        = t.results ++ (owed frames t.received.length (t'.bytesRead (framed frames ++ tail))).toList
      ∧ (t'.pending = true ↔
        owed frames t.received.length (t'.bytesRead (framed frames ++ tail)) = none)
  /-- It only has to be called, and to read, to return all frames that are left. -/
  completes : ∃ es t', (∀ e ∈ es, e.runs = true) ∧ exec step t es = some t'
    ∧ t'.results = t.results ++ (frames.drop t.received.length).map .ok

/-- What is buffered and what is to come are the frames not yet returned. -/
structure Inv (frames : List Bytes) (tail : Bytes) (t : Receiving) : Prop where
  rest : ∃ rest, frames = t.received ++ rest
    ∧ t.connection.readBuf ++ t.stream = framed rest ++ tail
  pending : t.pending = true → takeFrame t.connection.readBuf = .incomplete
  tooLarge : .error .frameTooLarge ∈ t.results → t.received = frames ∧ tail ≠ []

section
variable {frames : List Bytes} {tail : Bytes}

theorem inv_start : (start (framed frames ++ tail)).Inv frames tail where
  rest := ⟨frames, rfl, rfl⟩
  pending h := nomatch h
  tooLarge h := nomatch h

theorem received_ok (t : Receiving) (data : Bytes) :
    { t with results := t.results ++ [Except.ok data] }.received = t.received ++ [data] := by
  simp [received, Except.toOption]

theorem received_error (t : Receiving) (e : RecvError) :
    { t with results := t.results ++ [Except.error e] }.received = t.received := by
  simp [received, Except.toOption]

theorem loopHead_stream (t : Receiving) : t.loopHead.stream = t.stream := by
  unfold Receiving.loopHead
  split
  · rfl
  · rfl

/-- A result is the next frame, or the refusal of what ends them. -/
theorem loopHead_cases {t : Receiving} (hfits : ∀ f ∈ frames, f.length ≤ maxFrame)
    (htail : EndsFrames tail) {rest : List Bytes} (hframes : frames = t.received ++ rest)
    (hbytes : t.connection.readBuf ++ t.stream = framed rest ++ tail) :
    (∃ f rest' left, rest = f :: rest' ∧ (frameChunk f).length ≤ t.connection.readBuf.length
        ∧ left ++ t.stream = framed rest' ++ tail
        ∧ t.loopHead = { t with
          connection := { t.connection with readBuf := left }
          pending := false
          results := t.results ++ [.ok f] })
      ∨ (rest = [] ∧ 4 ≤ t.connection.readBuf.length
        ∧ t.loopHead = { t with
          connection := { t.connection with alive := false }
          pending := false
          results := t.results ++ [.error .frameTooLarge] })
      ∨ ((∀ f ∈ rest.head?, t.connection.readBuf.length < (frameChunk f).length)
        ∧ (rest = [] → t.connection.readBuf.length < 4)
        ∧ takeFrame t.connection.readBuf = .incomplete
        ∧ t.loopHead = { t with pending := true }) := by
  unfold Receiving.loopHead TlsTcpConnection.serveFrame
  cases rest with
  | nil =>
      rcases takeFrame_end htail hbytes with ⟨hlen, htake⟩ | ⟨hlen, htake⟩
      · rw [htake]
        exact Or.inr (Or.inl ⟨rfl, hlen, rfl⟩)
      · rw [htake]
        exact Or.inr (Or.inr ⟨(fun _ hf => nomatch hf), fun _ => hlen, rfl, rfl⟩)
  | cons f rest =>
      have hf : f.length ≤ maxFrame := hfits f (by rw [hframes]; simp)
      rw [framed, List.flatMap_cons, List.append_assoc] at hbytes
      rcases takeFrame_next hf hbytes with ⟨hlen, left, htake, hleft⟩ | ⟨hlen, htake⟩
      · rw [htake]
        exact Or.inl ⟨f, rest, left, rfl, hlen, hleft, rfl⟩
      · rw [htake]
        refine Or.inr (Or.inr ⟨fun g hg => ?_, (fun h => nomatch h), rfl, rfl⟩)
        rwa [← Option.some.inj hg]

theorem Inv.loopHead {t : Receiving} (hfits : ∀ f ∈ frames, f.length ≤ maxFrame)
    (htail : EndsFrames tail)
    (hrest : ∃ rest, frames = t.received ++ rest
      ∧ t.connection.readBuf ++ t.stream = framed rest ++ tail)
    (hlarge : .error .frameTooLarge ∈ t.results → t.received = frames ∧ tail ≠ []) :
    t.loopHead.Inv frames tail := by
  obtain ⟨rest, hframes, hbytes⟩ := hrest
  rcases loopHead_cases hfits htail hframes hbytes with ⟨f, rest, left, rfl, -, hleft, heq⟩
    | ⟨rfl, hlen, heq⟩ | ⟨-, -, htake, heq⟩
  · rw [heq]
    have hreceived : frames = (t.received ++ [f]) ++ rest := by
      rw [hframes, List.append_assoc]
      rfl
    refine ⟨⟨rest, ?_, hleft⟩, (fun h => nomatch h), ?_⟩
    · rw [hreceived, ← received_ok t f]
      rfl
    · intro hmem
      -- a connection that has refused a prefix has no frame left
      have hmem' : .error .frameTooLarge ∈ t.results := by simpa using hmem
      have hall := (hlarge hmem').1
      rw [hframes] at hall
      simp at hall
  · rw [heq]
    have hall : { t with
        results := t.results ++ [Except.error RecvError.frameTooLarge] }.received = frames := by
      rw [received_error, hframes, List.append_nil]
    refine ⟨⟨[], ?_, hbytes⟩, (fun h => nomatch h), fun _ => ⟨hall, ?_⟩⟩
    · rw [List.append_nil]
      exact hall.symm
    · rintro rfl
      rw [(List.append_eq_nil_iff.mp hbytes).1] at hlen
      cases hlen
  · rw [heq]
    exact ⟨⟨rest, hframes, hbytes⟩, fun _ => htake, hlarge⟩

/-- What is owed depends on what is buffered. -/
theorem owed_eq {t : Receiving} {rest : List Bytes} (hframes : frames = t.received ++ rest)
    (hbytes : t.connection.readBuf ++ t.stream = framed rest ++ tail) :
    owed frames t.received.length (t.bytesRead (framed frames ++ tail)) =
      match rest with
      | f :: _ =>
          if (frameChunk f).length ≤ t.connection.readBuf.length then some (.ok f) else none
      | [] =>
          if 4 ≤ t.connection.readBuf.length then some (.error .frameTooLarge) else none := by
  have hall : framed frames = framed t.received ++ framed rest := by
    rw [hframes, framed, framed, framed, List.flatMap_append]
  have hread : t.bytesRead (framed frames ++ tail)
      = (framed t.received).length + t.connection.readBuf.length := by
    have hlen := congrArg List.length hbytes
    rw [bytesRead, hall]
    simp only [List.length_append] at hlen ⊢
    omega
  rw [owed, hread]
  cases rest with
  | nil =>
      have hnone : frames[t.received.length]? = none := by
        rw [hframes, List.append_nil, List.getElem?_length]
      have hsame : framed frames = framed t.received := by
        rw [hall, framed, framed, List.flatMap_nil, List.append_nil]
      simp only [hnone, hsame, Nat.add_le_add_iff_left]
  | cons f rest =>
      have hsome : frames[t.received.length]? = some f := by
        rw [hframes, List.getElem?_append_right le_rfl, Nat.sub_self]
        rfl
      have htake : framed (frames.take (t.received.length + 1))
          = framed t.received ++ frameChunk f := by
        rw [hframes, List.take_length_add_append]
        simp [framed]
      simp only [hsome, htake, List.length_append, Nat.add_le_add_iff_left]

theorem loopHead_answers {t : Receiving} (hfits : ∀ f ∈ frames, f.length ≤ maxFrame)
    (htail : EndsFrames tail) {rest : List Bytes} (hframes : frames = t.received ++ rest)
    (hbytes : t.connection.readBuf ++ t.stream = framed rest ++ tail) :
    t.loopHead.results
        = t.results ++ (owed frames t.received.length (t.bytesRead (framed frames ++ tail))).toList
      ∧ (t.loopHead.pending = true ↔
        owed frames t.received.length (t.bytesRead (framed frames ++ tail)) = none) := by
  rw [owed_eq hframes hbytes]
  rcases loopHead_cases hfits htail hframes hbytes with ⟨f, rest, left, rfl, hlen, -, heq⟩
    | ⟨rfl, hlen, heq⟩ | ⟨hnext, hend, -, heq⟩
  · rw [heq]
    simp [hlen]
  · rw [heq]
    simp [hlen]
  · rw [heq]
    cases rest with
    | nil => simp [hend rfl]
    | cons f rest => simp [hnext f rfl]

theorem Inv.step {t t' : Receiving} {e : Event} (hfits : ∀ f ∈ frames, f.length ≤ maxFrame)
    (htail : EndsFrames tail) (h : t.Inv frames tail) (hstep : t.step e = some t') :
    t'.Inv frames tail := by
  cases e with
  | recv =>
      simp only [Receiving.step] at hstep
      split at hstep
      · cases hstep
      · obtain rfl := Option.some.inj hstep
        exact Inv.loopHead hfits htail h.rest h.tooLarge
  | read n =>
      simp only [Receiving.step] at hstep
      split at hstep
      · obtain rfl := Option.some.inj hstep
        obtain ⟨rest, hframes, hbytes⟩ := h.rest
        refine Inv.loopHead hfits htail ⟨rest, hframes, ?_⟩ h.tooLarge
        rw [List.append_assoc, List.take_append_drop]
        exact hbytes
      · cases hstep
  | eof =>
      simp only [Receiving.step] at hstep
      split at hstep
      · obtain rfl := Option.some.inj hstep
        obtain ⟨rest, hframes, hbytes⟩ := h.rest
        have hsame := received_error t .connectionClosed
        refine ⟨⟨rest, hframes.trans (congrArg (· ++ rest) hsame.symm), hbytes⟩,
          (fun hp => nomatch hp), fun hmem => ?_⟩
        have hmem' : .error .frameTooLarge ∈ t.results := by simpa using hmem
        exact ⟨hsame.trans (h.tooLarge hmem').1, (h.tooLarge hmem').2⟩
      · cases hstep
  | ioError =>
      simp only [Receiving.step] at hstep
      split at hstep
      · obtain rfl := Option.some.inj hstep
        obtain ⟨rest, hframes, hbytes⟩ := h.rest
        have hsame := received_error t .io
        refine ⟨⟨rest, hframes.trans (congrArg (· ++ rest) hsame.symm), hbytes⟩,
          (fun hp => nomatch hp), fun hmem => ?_⟩
        have hmem' : .error .frameTooLarge ∈ t.results := by simpa using hmem
        exact ⟨hsame.trans (h.tooLarge hmem').1, (h.tooLarge hmem').2⟩
      · cases hstep
  | drop =>
      simp only [Receiving.step] at hstep
      split at hstep
      · obtain rfl := Option.some.inj hstep
        exact ⟨h.rest, (fun hp => nomatch hp), h.tooLarge⟩
      · cases hstep

/-- A run of `recv` answers as it has to. -/
theorem Inv.answers {t t' : Receiving} {e : Event} (hfits : ∀ f ∈ frames, f.length ≤ maxFrame)
    (htail : EndsFrames tail) (h : t.Inv frames tail) (hruns : e.runs = true)
    (hstep : t.step e = some t') :
    t'.results
        = t.results ++ (owed frames t.received.length (t'.bytesRead (framed frames ++ tail))).toList
      ∧ (t'.pending = true ↔
        owed frames t.received.length (t'.bytesRead (framed frames ++ tail)) = none) := by
  obtain ⟨rest, hframes, hbytes⟩ := h.rest
  have hloop : ∀ u : Receiving, u.loopHead = t' → u.results = t.results →
      u.connection.readBuf ++ u.stream = framed rest ++ tail →
      t'.results = t.results
          ++ (owed frames t.received.length (t'.bytesRead (framed frames ++ tail))).toList
        ∧ (t'.pending = true ↔
          owed frames t.received.length (t'.bytesRead (framed frames ++ tail)) = none) := by
    rintro u rfl hresults hu
    have hreceived : u.received = t.received := congrArg (List.filterMap Except.toOption) hresults
    rw [bytesRead, loopHead_stream, ← bytesRead, ← hreceived, ← hresults]
    exact loopHead_answers hfits htail (hreceived ▸ hframes) hu
  cases e with
  | recv =>
      obtain ⟨-, heq⟩ := Option.ite_none_left_eq_some.mp hstep
      exact hloop t (Option.some.inj heq) rfl hbytes
  | read n =>
      obtain ⟨-, heq⟩ := Option.ite_none_right_eq_some.mp hstep
      refine hloop _ (Option.some.inj heq) rfl ?_
      rw [List.append_assoc, List.take_append_drop]
      exact hbytes
  | eof => cases hruns
  | ioError => cases hruns
  | drop => cases hruns

/-- With frames left, `recv` returns the next of them or waits. -/
theorem Inv.next_or_waits {t t' : Receiving} {e : Event}
    (hfits : ∀ f ∈ frames, f.length ≤ maxFrame) (htail : EndsFrames tail) (h : t.Inv frames tail)
    {f : Bytes} {rest : List Bytes} (hframes : frames = t.received ++ f :: rest)
    (hruns : e.runs = true) (hstep : t.step e = some t') :
    t'.results = t.results ++ [.ok f] ∨ (t'.pending = true ∧ t'.results = t.results) := by
  obtain ⟨hresults, hpending⟩ := h.answers hfits htail hruns hstep
  have hnext : frames[t.received.length]? = some f := by
    rw [hframes, List.getElem?_append_right le_rfl, Nat.sub_self]
    rfl
  generalize t'.bytesRead (framed frames ++ tail) = n at hresults hpending
  rw [owed, hnext] at hresults hpending
  dsimp only at hresults hpending
  split at hresults
  · exact Or.inl hresults
  · rename_i hshort
    exact Or.inr ⟨hpending.mpr (if_neg hshort), hresults.trans (List.append_nil _)⟩

/-- A `recv` that waits for a frame has something to read. -/
theorem Inv.exists_read {t : Receiving} (hfits : ∀ f ∈ frames, f.length ≤ maxFrame)
    (h : t.Inv frames tail) {f : Bytes} {rest : List Bytes}
    (hframes : frames = t.received ++ f :: rest) (hpending : t.pending = true) :
    ∃ t', t.step (.read 1) = some t' ∧ t'.stream.length < t.stream.length := by
  obtain ⟨rest', hframes', hbytes⟩ := h.rest
  obtain rfl : rest' = f :: rest := List.append_cancel_left (hframes'.symm.trans hframes)
  have hf : f.length ≤ maxFrame := hfits f (by rw [hframes]; simp)
  rw [framed, List.flatMap_cons, List.append_assoc] at hbytes
  have hne : 1 ≤ t.stream.length := by
    rcases takeFrame_next hf hbytes with ⟨-, left, htake, -⟩ | ⟨hlen, -⟩
    · rw [h.pending hpending] at htake
      cases htake
    · have hsum := congrArg List.length hbytes
      simp only [List.length_append] at hsum
      omega
  refine ⟨_, if_pos ⟨hpending, by decide, by decide, hne⟩, ?_⟩
  rw [loopHead_stream, List.length_drop]
  omega

/-- The next frame comes if `recv` goes on reading. -/
theorem Inv.next_of_pending {t : Receiving} (hfits : ∀ f ∈ frames, f.length ≤ maxFrame)
    (htail : EndsFrames tail) (h : t.Inv frames tail) {f : Bytes} {rest : List Bytes}
    (hframes : frames = t.received ++ f :: rest) (hpending : t.pending = true) :
    ∃ es t', (∀ e ∈ es, e.runs = true) ∧ exec Receiving.step t es = some t'
      ∧ t'.results = t.results ++ [.ok f] := by
  -- by how much there is to read
  induction hn : t.stream.length using Nat.strong_induction_on generalizing t with
  | _ n ih =>
      obtain ⟨u, hread, hless⟩ := h.exists_read hfits hframes hpending
      have hu := h.step hfits htail hread
      rcases h.next_or_waits hfits htail hframes rfl hread with hdone | ⟨hwaits, hsame⟩
      · exact ⟨[.read 1], u, List.forall_mem_singleton.mpr rfl, exec_cons.mpr ⟨u, hread, rfl⟩,
          hdone⟩
      · have hreceived : u.received = t.received := congrArg (List.filterMap Except.toOption) hsame
        obtain ⟨es, t', hruns, hexec, hresults⟩ :=
          ih u.stream.length (hn ▸ hless) hu (hreceived ▸ hframes) hwaits rfl
        exact ⟨.read 1 :: es, t', List.forall_mem_cons.mpr ⟨rfl, hruns⟩,
          exec_cons.mpr ⟨u, hread, hexec⟩, hsame ▸ hresults⟩

theorem Inv.next {t : Receiving} (hfits : ∀ f ∈ frames, f.length ≤ maxFrame)
    (htail : EndsFrames tail) (h : t.Inv frames tail) {f : Bytes} {rest : List Bytes}
    (hframes : frames = t.received ++ f :: rest) :
    ∃ es t', (∀ e ∈ es, e.runs = true) ∧ exec Receiving.step t es = some t'
      ∧ t'.results = t.results ++ [.ok f] := by
  cases hpending : t.pending with
  | true => exact h.next_of_pending hfits htail hframes hpending
  | false =>
      have hcall : t.step .recv = some t.loopHead := if_neg (by rw [hpending]; decide)
      have hu := h.step hfits htail hcall
      rcases h.next_or_waits hfits htail hframes rfl hcall with hdone | ⟨hwaits, hsame⟩
      · exact ⟨[.recv], t.loopHead, List.forall_mem_singleton.mpr rfl,
          exec_cons.mpr ⟨_, hcall, rfl⟩, hdone⟩
      · have hreceived : t.loopHead.received = t.received :=
          congrArg (List.filterMap Except.toOption) hsame
        obtain ⟨es, t', hruns, hexec, hresults⟩ :=
          hu.next_of_pending hfits htail (hreceived ▸ hframes) hwaits
        exact ⟨.recv :: es, t', List.forall_mem_cons.mpr ⟨rfl, hruns⟩,
          exec_cons.mpr ⟨_, hcall, hexec⟩, hsame ▸ hresults⟩

theorem Inv.completes {t : Receiving} (hfits : ∀ f ∈ frames, f.length ≤ maxFrame)
    (htail : EndsFrames tail) (h : t.Inv frames tail) {rest : List Bytes}
    (hframes : frames = t.received ++ rest) :
    ∃ es t', (∀ e ∈ es, e.runs = true) ∧ exec Receiving.step t es = some t'
      ∧ t'.results = t.results ++ rest.map .ok := by
  induction rest generalizing t with
  | nil => exact ⟨[], t, fun e he => absurd he List.not_mem_nil, rfl, (List.append_nil _).symm⟩
  | cons f rest ih =>
      obtain ⟨es, u, hruns, hexec, hresults⟩ := h.next hfits htail hframes
      have hu : u.Inv frames tail :=
        exec_invariant (fun _ _ _ hI hstep => hI.step hfits htail hstep) h hexec
      have hreceived : u.received = t.received ++ [f] := by
        rw [received, hresults, List.filterMap_append]
        rfl
      have hleft : frames = u.received ++ rest := by
        rw [hreceived, hframes, List.append_assoc]
        rfl
      obtain ⟨es', t', hruns', hexec', hresults'⟩ := ih hu hleft
      refine ⟨es ++ es', t', ?_, exec_append.mpr ⟨u, hexec, hexec'⟩, ?_⟩
      · exact fun e he => (List.mem_append.mp he).elim (hruns e) (hruns' e)
      · rw [hresults', hresults, List.append_assoc]
        rfl

theorem Inv.drained {t : Receiving} (hfits : ∀ f ∈ frames, f.length ≤ maxFrame)
    (htail : EndsFrames tail) (h : t.Inv frames tail) (hpending : t.pending = true)
    (hstream : t.stream = []) : t.received = frames ∧ tail = [] := by
  obtain ⟨rest, hframes, hbytes⟩ := h.rest
  have hinc := h.pending hpending
  rw [hstream, List.append_nil] at hbytes
  rw [hbytes] at hinc
  cases rest with
  | nil =>
      refine ⟨by rw [hframes, List.append_nil], ?_⟩
      rcases htail with htail | ⟨hlen, hcap⟩
      · exact htail
      · rw [framed, List.flatMap_nil, List.nil_append, takeFrame_oversized hlen hcap] at hinc
        cases hinc
  | cons f rest =>
      have hf : f.length ≤ maxFrame := hfits f (by rw [hframes]; simp)
      rw [framed, List.flatMap_cons, List.append_assoc, takeFrame_frameChunk hf] at hinc
      cases hinc

/-- The frames come out as they went in, however the stream is cut into
reads and however often a pending `recv` is dropped. -/
theorem recv_frames (hfits : ∀ f ∈ frames, f.length ≤ maxFrame) (htail : EndsFrames tail)
    {es : List Event} {t : Receiving}
    (h : exec Receiving.step (start (framed frames ++ tail)) es = some t) :
    t.Delivers frames tail := by
  have hinv : t.Inv frames tail :=
    exec_invariant (fun _ _ _ hI hstep => hI.step hfits htail hstep) inv_start h
  obtain ⟨rest, hframes, -⟩ := hinv.rest
  refine ⟨⟨rest, hframes.symm⟩, hinv.tooLarge, hinv.drained hfits htail,
    fun e t' hruns hstep => hinv.answers hfits htail hruns hstep, ?_⟩
  have hrest : frames.drop t.received.length = rest := by
    rw [hframes, List.drop_left]
  rw [hrest]
  exact hinv.completes hfits htail hframes

end

/-- A `recv` dropped in the middle of a prefix, two frames, and a prefix
beyond the cap. -/
def cancelledRun : List Event := [.recv, .read 2, .drop, .recv, .read 13, .recv, .recv]

def cancelledFrames : List Bytes := [[1, 2, 3], []]

def cancelledTail : Bytes := [0xFF, 0xFF, 0xFF, 0xFF]

theorem exec_cancelledRun :
    exec Receiving.step (start (framed cancelledFrames ++ cancelledTail)) cancelledRun
      = some
        { connection := { alive := false, readBuf := cancelledTail }
          stream := []
          pending := false
          results := [.ok [1, 2, 3], .ok [], .error .frameTooLarge] } := by decide

theorem recv_frames_cancelledRun :
    ∃ t, exec Receiving.step (start (framed cancelledFrames ++ cancelledTail)) cancelledRun = some t
      ∧ t.results = [.ok [1, 2, 3], .ok [], .error .frameTooLarge]
      ∧ t.Delivers cancelledFrames cancelledTail :=
  ⟨_, exec_cancelledRun, rfl,
    recv_frames (by decide) (Or.inr ⟨by decide, by decide⟩) exec_cancelledRun⟩

end Receiving

end Kanrin
