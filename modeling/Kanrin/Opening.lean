import Kanrin.Framing
import Kanrin.Frontdoor
import Kanrin.Resume

/-!
# Opening a tunnel

Phases 4 and 5 of `run_pipeline` over `TlsTcpTransport`, against
`ClientSession::run`, from the moment the TLS connection stands. The
connection is two byte streams that lose and reorder nothing; how the
bytes are cut into reads, what the origin answers, and when a side learns
that the other one is gone are events.

The server serves HTTP first: it reads a request head byte by byte, and
only a request with an authenticator is upgraded. The client sends no
request. Its first bytes are the frame of its ClientHello, the server
reads them as the head of a request, and they are too few to carry an
authenticator. Whatever the first request turns out to be, it is answered
as a visitor's, and the loop that serves visitors has no way into the
tunnel (`tunnel_never_opens`).
-/

namespace Kanrin

open Lib

inductive ClientPc where
  | start
  | awaitServerHello
  | awaitServerFinished (keys : SessionKeys)
  | established (keys : SessionKeys) (token : Option (ByteArr 4 × SessionId))
  /-- `run_pipeline` has returned an error and dropped the connection. -/
  | failed
deriving DecidableEq

/-- The server's position. `web` tells `serve_web` from `run`. -/
inductive ServerPc where
  | head (web : Bool) (buf : Bytes)
  | body (web : Bool) (head : RequestHead)
  | respond (web : Bool) (head : RequestHead) (body : Bytes)
  | firstFrame
  | authFrame (keys : SessionKeys)
  | serving
  | closed

/-- The arguments of `registry.insert`. -/
structure Insertion where
  sessionId : SessionId
  keys : SessionKeys
  assignedIp : ByteArr 4

/-- What a run is given: one password for both sides, their random draws
and clocks, the address reserved for the connection, and the sessions that
other clients hold. -/
structure Setup where
  password : Bytes
  draws : Draws
  assignedIp : ByteArr 4
  registry : SessionRegistry

structure Opening where
  client : ClientPc
  readBuf : Bytes
  toServer : Bytes
  toClient : Bytes
  server : ServerPc
  admitter : Admitter
  registry : SessionRegistry
  inserted : Option Insertion

namespace Opening

inductive Event where
  | sendHello
  /-- A `read` of the client returns `n` bytes. -/
  | deliver (n : Nat)
  /-- The client's `recv` returns. -/
  | recv
  /-- A `read` of the client returns nothing: the server has closed. -/
  | clientEof
  | readByte
  | readBody
  | respond (response : Bytes) (now : UInt64)
  | recvFirst (serverRandom : ByteArr 32)
  | recvAuth
  /-- A read or a write of the server fails: the client is gone. -/
  | hangUp

section
variable (P : Primitives) (cfg : Setup)

def start : Opening where
  client := .start
  readBuf := []
  toServer := []
  toClient := []
  server := .head false []
  admitter := .new P cfg.password
  registry := cfg.registry
  inserted := none

/-- The client has a frame of the server. -/
def clientFrame (t : Opening) (data : Bytes) : Opening :=
  match t.client with
  | .awaitServerHello =>
      match clientFinishedFrame P cfg.draws cfg.password data with
      | .ok (frame, keys) =>
          { t with client := .awaitServerFinished keys, toServer := t.toServer ++ frameChunk frame }
      | .error _ => { t with client := .failed }
  | .awaitServerFinished keys =>
      match readServerFinished P keys data with
      | .ok token => { t with client := .established keys token }
      | .error _ => { t with client := .failed }
  | _ => t

/-- `run_tunnel`, given its first frame. -/
def runTunnel (t : Opening) (data : Bytes) (serverRandom : ByteArr 32) : Opening :=
  match firstChunkType data with
  | .ok .handshake =>
      match acceptClientHello P cfg.draws data with
      | .ok (frame, keys) =>
          { t with server := .authFrame keys, toClient := t.toClient ++ frameChunk frame }
      | .error _ => { t with server := .closed }
  | .ok .resume =>
      match acceptResume P t.registry data cfg.draws.serverNow serverRandom true with
      | (registry, .ok (_, frame)) =>
          { t with server := .serving, registry, toClient := t.toClient ++ frameChunk frame }
      | (registry, .error _) => { t with server := .closed, registry }
  | _ => { t with server := .closed }

/-- The rest of `accept_new`, given the ClientFinished. -/
def acceptAuth (t : Opening) (keys : SessionKeys) (data : Bytes) : Opening :=
  match acceptClientFinished P cfg.draws keys cfg.password cfg.assignedIp data with
  | .ok (frame, status) =>
      let t := { t with toClient := t.toClient ++ frameChunk frame }
      if status = .ok then
        { t with
          server := .serving
          registry := Function.update t.registry cfg.draws.sessionId (some (.new keys))
          inserted := some ⟨cfg.draws.sessionId, keys, cfg.assignedIp⟩ }
      else { t with server := .closed }
  | .error _ => { t with server := .closed }

/-- A request has been answered: `run` goes on to the tunnel or to
`serve_web`, and `serve_web` to its next request or to its end. -/
def answered (web : Bool) (head : RequestHead) (admission : Admission) : ServerPc :=
  match web, admission with
  | false, .web => .head true []
  | false, .tunnel => .firstFrame
  | true, .tunnel => .closed
  | true, .web => if head.wantsKeepAlive then .head true [] else .closed

def step (t : Opening) : Event → Option Opening
  | .sendHello =>
      match t.client with
      | .start =>
          match clientHelloFrame P cfg.draws with
          | .ok frame =>
              some { t with client := .awaitServerHello, toServer := t.toServer ++ frameChunk frame }
          | .error _ => some { t with client := .failed }
      | _ => none
  | .deliver n =>
      match takeFrame t.readBuf with
      | .incomplete =>
          if 0 < n ∧ n ≤ 16 * 1024 ∧ n ≤ t.toClient.length then
            some { t with readBuf := t.readBuf ++ t.toClient.take n, toClient := t.toClient.drop n }
          else none
      | _ => none
  | .recv =>
      match takeFrame t.readBuf with
      | .incomplete => none
      | .tooLarge => some { t with client := .failed }
      | .frame data rest => some ({ t with readBuf := rest }.clientFrame P cfg data)
  | .clientEof =>
      match t.server, t.toClient with
      | .closed, [] => some { t with client := .failed }
      | _, _ => none
  | .readByte =>
      match t.server, t.toServer with
      | .head web buf, b :: rest =>
          let buf := buf ++ [b]
          match RequestHead.parse buf with
          | .ok head => some { t with server := .body web head, toServer := rest }
          | .error .incomplete => some { t with server := .head web buf, toServer := rest }
          | .error _ => some { t with server := .closed, toServer := rest }
      | _, _ => none
  | .readBody =>
      match t.server with
      | .body web head =>
          let length := head.contentLength.getD 0
          if length = 0 then some { t with server := .respond web head [] }
          else if length > maxRequestBody then
            -- `serve_web` answers a body it could not read as if it were empty
            some { t with server := if web then .respond web head [] else .closed }
          else if length ≤ t.toServer.length then
            some { t with
              server := .respond web head (t.toServer.take length)
              toServer := t.toServer.drop length }
          else none
      | _ => none
  | .respond response now =>
      match t.server with
      | .respond web head _ =>
          let (admission, admitter) := t.admitter.admitRequest P head now
          some { t with
            server := answered web head admission
            toClient := t.toClient ++ response
            admitter }
      | _ => none
  | .recvFirst serverRandom =>
      match t.server with
      | .firstFrame =>
          match takeFrame t.toServer with
          | .incomplete => none
          | .tooLarge => some { t with server := .closed }
          | .frame data rest => some ({ t with toServer := rest }.runTunnel P cfg data serverRandom)
      | _ => none
  | .recvAuth =>
      match t.server with
      | .authFrame keys =>
          match takeFrame t.toServer with
          | .incomplete => none
          | .tooLarge => some { t with server := .closed }
          | .frame data rest => some ({ t with toServer := rest }.acceptAuth P cfg keys data)
      | _ => none
  | .hangUp => if t.client = .failed then some { t with server := .closed } else none

/-- The tunnel is open: both sides hold one session, one address and one
pair of keys. -/
def Opened (t : Opening) : Prop :=
  ∃ ins, t.inserted = some ins
    ∧ t.client = .established ins.keys (some (ins.assignedIp, ins.sessionId))

/-- Some run opens the tunnel. -/
def Opens : Prop := ∃ es t, exec (step P cfg) (start P cfg) es = some t ∧ t.Opened

end

/-! ## The server never leaves the front door -/

section
variable {P : Primitives} {cfg : Setup}

/-- The length of the ClientHello on the wire, with its prefix. -/
def helloSize : Nat := 4 + headerSize + 73 + tagSize

theorem length_clientHelloFrame (hP : P.Lawful) {d : Draws} {frame : Bytes}
    (h : clientHelloFrame P d = .ok frame) : (frameChunk frame).length = helloSize := by
  have hframe := Chunk.length_encodeEncrypted hP (clientHelloFrame_eq_ok h)
  have hpayload : ∀ p, (Chunk.newHandshake p).payload = p := fun _ => rfl
  have hpad : ∀ p, (Chunk.newHandshake p).header.paddingLength = 0 := fun _ => rfl
  rw [frameChunk, List.length_append, length_beBytes, hframe, Chunk.wireSize, hpayload, hpad,
    ClientHello.length_encode]
  rfl

/-- What the client may still send without having heard anything. -/
def unsent : ClientPc → Nat
  | .start => helloSize
  | _ => 0

/-- The client has heard nothing, and its ClientHello is all there is. -/
structure Silent (t : Opening) (consumed : Nat) : Prop where
  nothing : t.toClient = []
  unread : t.readBuf = []
  bound : consumed + t.toServer.length + unsent t.client ≤ helloSize

/-- A first request that is too short to be admitted. -/
def Short (head : RequestHead) : Prop :=
  ∃ buf, RequestHead.parse buf = .ok head ∧ buf.length ≤ helloSize

/-- Where the server can be: still in the first request, or in `serve_web`
for good. -/
def AtDoor (t : Opening) : Prop :=
  match t.server with
  | .head false buf => t.Silent buf.length
  | .body false head => Short head
  | .respond false head _ => Short head
  | .head true _ | .body true _ | .respond true _ _ | .closed => True
  | .firstFrame | .authFrame _ | .serving => False

structure Inv (t : Opening) : Prop where
  notInserted : t.inserted = none
  atDoor : t.AtDoor

theorem inv_start : (start P cfg).Inv where
  notInserted := rfl
  atDoor := ⟨rfl, rfl, Nat.le_refl _⟩

/-- No short request is admitted. -/
theorem admit_of_short {a : Admitter} {head : RequestHead} (h : Short head) (now : UInt64) :
    (a.admitRequest P head now).1 = .web := by
  obtain ⟨buf, hparse, hlen⟩ := h
  cases hadmit : (a.admitRequest P head now).1 with
  | web => rfl
  | tunnel =>
      have := length_of_admitted hparse hadmit
      have hsize : helloSize = 106 := rfl
      omega

/-- A step of the client leaves the server where it is. -/
theorem AtDoor.client {t t' : Opening} (h : t.AtDoor) (hserver : t'.server = t.server)
    (hsilent : ∀ n, t.Silent n → t'.Silent n) : t'.AtDoor := by
  simp only [AtDoor, hserver] at h ⊢
  split at h
  · exact hsilent _ h
  all_goals exact h

theorem inv_sendHello (hP : P.Lawful) {t t' : Opening} (h : t.Inv)
    (hstep : step P cfg t .sendHello = some t') : t'.Inv := by
  simp only [step] at hstep
  split at hstep
  · rename_i hclient
    split at hstep
    · rename_i frame hframe
      obtain rfl := Option.some.inj hstep
      refine ⟨h.notInserted, h.atDoor.client rfl ?_⟩
      intro n hsilent
      have hlen := length_clientHelloFrame hP hframe
      have hbound := hsilent.bound
      rw [hclient, unsent] at hbound
      refine ⟨hsilent.nothing, hsilent.unread, ?_⟩
      simp only [List.length_append, unsent]
      omega
    · obtain rfl := Option.some.inj hstep
      refine ⟨h.notInserted, h.atDoor.client rfl ?_⟩
      intro n hsilent
      have hbound := hsilent.bound
      exact ⟨hsilent.nothing, hsilent.unread, by simp only [unsent]; omega⟩
  · cases hstep

theorem inv_deliver {t t' : Opening} {n : Nat} (h : t.Inv)
    (hstep : step P cfg t (.deliver n) = some t') : t'.Inv := by
  simp only [step] at hstep
  split at hstep
  · split at hstep
    · rename_i hn
      obtain rfl := Option.some.inj hstep
      refine ⟨h.notInserted, h.atDoor.client rfl ?_⟩
      intro m hsilent
      -- a client that has been sent nothing has nothing to read
      rw [hsilent.nothing, List.length_nil] at hn
      omega
    · cases hstep
  · cases hstep

theorem clientFrame_server (P : Primitives) (cfg : Setup) (t : Opening) (data : Bytes) :
    (t.clientFrame P cfg data).server = t.server
      ∧ (t.clientFrame P cfg data).inserted = t.inserted := by
  simp only [clientFrame]
  split
  · split <;> exact ⟨rfl, rfl⟩
  · split <;> exact ⟨rfl, rfl⟩
  · exact ⟨rfl, rfl⟩

theorem inv_recv {t t' : Opening} (h : t.Inv) (hstep : step P cfg t .recv = some t') : t'.Inv := by
  -- a client that has read nothing has no frame
  have hread : ∀ n, t.Silent n → takeFrame t.readBuf = .incomplete := by
    intro n hsilent
    rw [hsilent.unread]
    rfl
  simp only [step] at hstep
  split at hstep
  · cases hstep
  · rename_i htake
    obtain rfl := Option.some.inj hstep
    refine ⟨h.notInserted, h.atDoor.client rfl fun n hsilent => ?_⟩
    rw [hread n hsilent] at htake
    cases htake
  · rename_i data rest htake
    obtain rfl := Option.some.inj hstep
    obtain ⟨hserver, hinserted⟩ :=
      clientFrame_server P cfg { t with readBuf := rest } data
    refine ⟨hinserted.trans h.notInserted, h.atDoor.client hserver fun n hsilent => ?_⟩
    rw [hread n hsilent] at htake
    cases htake

theorem inv_readByte {t t' : Opening} (h : t.Inv) (hstep : step P cfg t .readByte = some t') :
    t'.Inv := by
  have hdoor := h.atDoor
  simp only [step] at hstep
  split at hstep
  · rename_i web buf b rest hserver hbytes
    simp only [AtDoor, hserver] at hdoor
    cases web with
    | true =>
        split at hstep
        all_goals
          obtain rfl := Option.some.inj hstep
          exact ⟨h.notInserted, trivial⟩
    | false =>
        have hbound := hdoor.bound
        rw [hbytes, List.length_cons] at hbound
        split at hstep
        · rename_i head hparse
          obtain rfl := Option.some.inj hstep
          refine ⟨h.notInserted, buf ++ [b], hparse, ?_⟩
          rw [List.length_append, List.length_singleton]
          omega
        · obtain rfl := Option.some.inj hstep
          refine ⟨h.notInserted, hdoor.nothing, hdoor.unread, ?_⟩
          simp only [List.length_append, List.length_singleton]
          omega
        · obtain rfl := Option.some.inj hstep
          exact ⟨h.notInserted, trivial⟩
  · cases hstep

theorem inv_readBody {t t' : Opening} (h : t.Inv) (hstep : step P cfg t .readBody = some t') :
    t'.Inv := by
  have hdoor := h.atDoor
  simp only [step] at hstep
  split at hstep
  · rename_i web head hserver
    simp only [AtDoor, hserver] at hdoor
    have hnext : ∀ body rest,
        { t with server := .respond web head body, toServer := rest }.AtDoor := by
      intro body rest
      cases web with
      | true => trivial
      | false => exact hdoor
    split at hstep
    · obtain rfl := Option.some.inj hstep
      exact ⟨h.notInserted, hnext _ _⟩
    split at hstep
    · obtain rfl := Option.some.inj hstep
      cases web with
      | true => exact ⟨h.notInserted, trivial⟩
      | false => exact ⟨h.notInserted, trivial⟩
    split at hstep
    · obtain rfl := Option.some.inj hstep
      exact ⟨h.notInserted, hnext _ _⟩
    · cases hstep
  · cases hstep

theorem inv_respond {t t' : Opening} {response : Bytes} {now : UInt64} (h : t.Inv)
    (hstep : step P cfg t (.respond response now) = some t') : t'.Inv := by
  have hdoor := h.atDoor
  simp only [step] at hstep
  split at hstep
  · rename_i web head body hserver
    simp only [AtDoor, hserver] at hdoor
    obtain rfl := Option.some.inj hstep
    refine ⟨h.notInserted, ?_⟩
    cases web with
    | true =>
        simp only [AtDoor, answered]
        cases (t.admitter.admitRequest P head now).1 with
        | tunnel => trivial
        | web => cases head.wantsKeepAlive <;> trivial
    | false =>
        simp only [AtDoor, answered, admit_of_short hdoor now]
  · cases hstep

theorem Inv.step (hP : P.Lawful) {t t' : Opening} {e : Event} (h : t.Inv)
    (hstep : t.step P cfg e = some t') : t'.Inv := by
  have hdoor := h.atDoor
  cases e with
  | sendHello => exact inv_sendHello hP h hstep
  | deliver n => exact inv_deliver h hstep
  | recv => exact inv_recv h hstep
  | readByte => exact inv_readByte h hstep
  | readBody => exact inv_readBody h hstep
  | respond response now => exact inv_respond h hstep
  | clientEof =>
      simp only [Opening.step] at hstep
      split at hstep
      · rename_i hserver htoClient
        obtain rfl := Option.some.inj hstep
        refine ⟨h.notInserted, ?_⟩
        simp only [AtDoor, hserver]
      · cases hstep
  | recvFirst serverRandom =>
      simp only [Opening.step] at hstep
      split at hstep
      · rename_i hserver
        simp only [AtDoor, hserver] at hdoor
      · cases hstep
  | recvAuth =>
      simp only [Opening.step] at hstep
      split at hstep
      · rename_i keys hserver
        simp only [AtDoor, hserver] at hdoor
      · cases hstep
  | hangUp =>
      simp only [Opening.step] at hstep
      split at hstep
      · obtain rfl := Option.some.inj hstep
        exact ⟨h.notInserted, trivial⟩
      · cases hstep

/-- No run registers a session. -/
theorem inv_exec (hP : P.Lawful) {es : List Event} {t : Opening}
    (h : exec (step P cfg) (start P cfg) es = some t) : t.Inv :=
  exec_invariant (fun _ _ _ => Inv.step hP) inv_start h

theorem Inv.not_opened {t : Opening} (h : t.Inv) : ¬ t.Opened := by
  rintro ⟨ins, hins, -⟩
  rw [h.notInserted] at hins
  cases hins

/-- Client and server have no way of opening a tunnel. -/
theorem tunnel_never_opens (hP : P.Lawful) (cfg : Setup) : ¬ Opens P cfg := by
  rintro ⟨es, t, hrun, hopened⟩
  exact (inv_exec hP hrun).not_opened hopened

end

/-! ## Both sides wait -/

def ServerPc.readsHead : ServerPc → Bool
  | .head _ _ => true
  | _ => false

/-- Each side has read all there is, and waits for more. -/
structure Waiting (t : Opening) : Prop where
  client : t.client = .awaitServerHello
  unread : t.readBuf = []
  toServer : t.toServer = []
  toClient : t.toClient = []
  server : ServerPc.readsHead t.server = true

instance (t : Opening) : Decidable t.Waiting :=
  decidable_of_iff (t.client = .awaitServerHello ∧ t.readBuf = [] ∧ t.toServer = []
      ∧ t.toClient = [] ∧ ServerPc.readsHead t.server = true)
    ⟨fun ⟨h1, h2, h3, h4, h5⟩ => ⟨h1, h2, h3, h4, h5⟩,
      fun ⟨h1, h2, h3, h4, h5⟩ => ⟨h1, h2, h3, h4, h5⟩⟩

theorem Waiting.stuck {P : Primitives} {cfg : Setup} {t : Opening} (h : t.Waiting) (e : Event) :
    t.step P cfg e = none := by
  have hserver := h.server
  have hread : takeFrame t.readBuf = .incomplete := by
    rw [h.unread]
    rfl
  cases hpc : t.server with
  | head web buf =>
      cases e with
      | sendHello => simp only [step, h.client]
      | deliver n =>
          simp only [step, hread, h.toClient, List.length_nil]
          exact if_neg (by omega)
      | recv => simp only [step, hread]
      | clientEof => simp only [step, hpc]
      | readByte => simp only [step, hpc, h.toServer]
      | readBody => simp only [step, hpc]
      | respond response now => simp only [step, hpc]
      | recvFirst serverRandom => simp only [step, hpc]
      | recvAuth => simp only [step, hpc]
      | hangUp => simp only [step, h.client, reduceCtorEq, ↓reduceIte]
  | _ =>
      rw [hpc] at hserver
      cases hserver

/-- One password, clocks that agree, and draws of zeros. -/
def sampleSetup : Setup where
  password := ascii "correct horse"
  draws :=
    { clientSecret := zeroArr 32
      serverSecret := zeroArr 32
      clientRandom := zeroArr 32
      serverRandom := zeroArr 32
      authNonce := zeroArr 12
      token := zeroArr 32
      sessionId := zeroArr 16
      clientNow := 1800000000
      serverNow := 1800000000 }
  assignedIp := ⟨[10, 10, 0, 2], rfl⟩
  registry _ := none

theorem tunnel_never_opens_sample : ¬ Opens .plain sampleSetup :=
  tunnel_never_opens Primitives.plain_lawful sampleSetup

/-- The client sends its ClientHello, and the server reads all of it. -/
def helloRun : List Event := .sendHello :: List.replicate helloSize .readByte

theorem waiting_helloRun :
    (exec (step .plain sampleSetup) (start .plain sampleSetup) helloRun).any
      (fun t => decide t.Waiting) = true := by
  decide +kernel

/-- The server waits for the rest of a request, the client for an answer. -/
theorem opening_deadlocks :
    ¬ Opens .plain sampleSetup ∧
      ∃ es t, exec (step .plain sampleSetup) (start .plain sampleSetup) es = some t
        ∧ (∀ e, t.step .plain sampleSetup e = none) ∧ ¬ t.Opened := by
  have hnot : ∀ es t, exec (step .plain sampleSetup) (start .plain sampleSetup) es = some t →
      ¬ t.Opened := by
    intro es t hrun
    exact (inv_exec Primitives.plain_lawful hrun).not_opened
  refine ⟨?_, ?_⟩
  · rintro ⟨es, t, hrun, hopened⟩
    exact hnot es t hrun hopened
  · have hany := waiting_helloRun
    cases hrun : exec (step .plain sampleSetup) (start .plain sampleSetup) helloRun with
    | none =>
        rw [hrun] at hany
        cases hany
    | some t =>
        rw [hrun, Option.any_some] at hany
        exact ⟨helloRun, t, hrun, (of_decide_eq_true hany).stuck, hnot _ t hrun⟩

end Opening

end Kanrin
