import Kanrin.Lib.Parties
import Kanrin.Lib.Run
import Kanrin.Resume
import Kanrin.Switch

/-!
# Two commits of one switch

`attempt_switch` of the client's `pipeline.rs`, with `prepare_standby`,
`resume_on` and `replay_onto` of its `switch.rs`, against the tasks that
`ClientSession::serve` and `SessionEntry::attach` run on the server. Any
connect, send, receive or close of a standby may fail; the connection in
use does not.

The client commits to a standby when its own replay is through, the server
when it attaches the standby's writer, which aborts the one attached
before. Nothing ties the two together. A client that gives a standby up
keeps the connection it has, and the server goes on to attach a standby it
has accepted, whatever became of it.

`failed_switch_keeps_writer` is what it takes for a failed attempt to cost
nothing: the server attaches no standby that the client has given up, and
the client gives none up that is attached.
-/

namespace Kanrin

open Lib

inductive WriterTask where
  | unborn
  | live
  | ended
deriving DecidableEq

/-- How far the server's task has got with a connection. -/
inductive ServeTask where
  /-- In `run_tunnel`, before the first frame. -/
  | first
  | replaying (replay : Replay)
  | replayed
  | spawned
  | attached
  | closed
deriving DecidableEq

/-- Between the first frame and the attachment. -/
def ServeTask.underWay : ServeTask → Bool
  | .replaying _ | .replayed | .spawned => true
  | .first | .attached | .closed => false

/-- A connection from end to end. -/
structure LinkEnds where
  /-- The client has closed its end. -/
  dropped : Bool
  toServer : List Bytes
  toClient : List Bytes
  serve : ServeTask
  writer : WriterTask
  aborted : Bool
deriving DecidableEq

namespace LinkEnds

/-- A standby that has just connected. -/
def fresh : LinkEnds where
  dropped := false
  toServer := []
  toClient := []
  serve := .first
  writer := .unborn
  aborted := false

/-- The connection the session was opened on. -/
def original : LinkEnds where
  dropped := false
  toServer := []
  toClient := []
  serve := .attached
  writer := .live
  aborted := false

end LinkEnds

/-- Where `attempt_switch` waits. `rest` are the transports that
`prepare_standby` has not tried. -/
inductive SwitchPc where
  | idle
  | preparing (rest : List String)
  | requesting (i : Nat) (name : String) (rest : List String)
  | awaiting (i : Nat) (name : String) (rest : List String) (request : ResumeRequest)
  | replaying (i : Nat) (name : String) (replay : Replay)
  /-- The standby is given up: `prepare_standby` goes on with `rest`, or
  after a failed replay the attempt is over. -/
  | closing (i : Nat) (rest : Option (List String))
deriving DecidableEq

/-- The connection being brought up. -/
def SwitchPc.standby : SwitchPc → Option Nat
  | .requesting i _ _ | .awaiting i _ _ _ | .replaying i _ _ => some i
  | .idle | .preparing _ | .closing _ _ => none

theorem SwitchPc.ne_idle_of_standby {pc : SwitchPc} {i : Nat} (h : pc.standby = some i) :
    pc ≠ .idle := by
  rintro rfl
  cases h

structure Switchover where
  links : List LinkEnds
  /-- The client's `connection` and the name of its transport. -/
  active : Nat
  activeTransport : String
  pc : SwitchPc
  sendBuffer : SendBuffer
  nextExpected : UInt64
  policy : SwitchPolicy
  registry : SessionRegistry
  /-- The connection whose tasks `SessionEntry::attached` holds. -/
  attached : Option Nat
  /-- The last attempt has returned `None`. -/
  kept : Bool
  /-- The last attempt began with the connection in use served. -/
  servedBefore : Bool

/-- What does not change: the session, its keys, the registered transports. -/
structure SwitchSetup where
  sessionId : SessionId
  keys : SessionKeys
  transports : List String

namespace Switchover

inductive Event where
  | attempt (reason : SwitchReason) (now : Nat)
  | connect (ok : Bool)
  /-- There is no transport left to try. -/
  | exhaust
  | request (now : UInt64) (clientRandom : ByteArr 32) (ok : Bool)
  | recv
  | recvFail
  | replaySend (ok : Bool)
  | replayDone (now : Nat)
  | close (ok : Bool)
  /-- The main loop carries traffic. -/
  | carry (sendBuffer : SendBuffer) (nextExpected : UInt64)
  /-- The main loop closes a connection it no longer uses. -/
  | retire (i : Nat)
  | accept (i : Nat) (now : UInt64) (serverRandom : ByteArr 32) (ok : Bool)
  | serverReplay (i : Nat) (ok : Bool)
  | serverReplayDone (i : Nat)
  | spawn (i : Nat)
  | attach (i : Nat)
  /-- The server's read fails on a connection the client has closed. -/
  | disconnect (i : Nat)
  /-- An aborted writer stops. -/
  | cancel (i : Nat)
  /-- Replies and acknowledgements move the session's buffers. -/
  | traffic (sendBuffer : SendBuffer) (recvBuffer : ReceiveBuffer)

/-- The connection in use is the one that the session's attached writer
serves, and that writer goes on writing. -/
def served (t : Switchover) : Bool :=
  decide (t.attached = some t.active)
    && t.links[t.active]?.any fun l => decide (l.writer = .live) && !l.aborted

def update (t : Switchover) (i : Nat) (f : LinkEnds → LinkEnds) : Switchover :=
  { t with links := t.links.modify i f }

def setServe (t : Switchover) (i : Nat) (serve : ServeTask) : Switchover :=
  t.update i fun l => { l with serve }

def abort (t : Switchover) (i : Nat) : Switchover := t.update i fun l => { l with aborted := true }

/-- `SessionEntry::attach`. -/
def attach (t : Switchover) (i : Nat) : Switchover :=
  let t' := { t.setServe i .attached with attached := some i }
  match t.attached with
  | none => t'
  | some previous => t'.abort previous

/-- `attempt_switch` returns `None`. -/
def giveUp (t : Switchover) : Switchover := { t with pc := .idle, kept := true }

section
variable (P : Primitives) (cfg : SwitchSetup)

def start (sendBuffer : SendBuffer) (nextExpected : UInt64) (transport : String)
    (registry : SessionRegistry) : Switchover where
  links := [.original]
  active := 0
  activeTransport := transport
  pc := .idle
  sendBuffer := sendBuffer
  nextExpected := nextExpected
  policy := .new
  registry := registry
  attached := some 0
  kept := false
  servedBefore := false

/-- What the standby `i` has for the client is a response that `resume_on`
takes. -/
def answer (t : Switchover) (i : Nat) (request : ResumeRequest) : Option (Except ResumeError UInt64) :=
  t.links[i]?.bind fun l =>
    l.toClient.head?.map (readResumeResponse P request cfg.keys)

def clientStep (t : Switchover) : Event → Option Switchover
  | .attempt reason now =>
      match t.pc with
      | .idle =>
          let t := { t with servedBefore := t.served, kept := false }
          if t.policy.allows reason now then
            some { t with pc := .preparing (cfg.transports.filter (· ≠ t.activeTransport)) }
          else some t.giveUp
      | _ => none
  | .connect ok =>
      match t.pc with
      | .preparing (name :: rest) =>
          if ok then
            some { t with links := t.links ++ [.fresh], pc := .requesting t.links.length name rest }
          else some { t with pc := .preparing rest }
      | _ => none
  | .exhaust =>
      match t.pc with
      | .preparing [] => some t.giveUp
      | _ => none
  | .request now clientRandom ok =>
      match t.pc with
      | .requesting i name rest =>
          match resumeRequestFrame P cfg.sessionId t.nextExpected cfg.keys now clientRandom with
          | .ok (request, frame) =>
              if ok then
                some ({ t with pc := .awaiting i name rest request }.update i fun l =>
                  { l with toServer := l.toServer ++ [frame] })
              else some { t with pc := .closing i (some rest) }
          | .error _ => some { t with pc := .closing i (some rest) }
      | _ => none
  | .recv =>
      match t.pc with
      | .awaiting i name rest request =>
          match t.answer P cfg i request with
          | none => none
          | some (.ok next) =>
              let sendBuffer := (t.sendBuffer.applyAck next []).2
              some ({ t with sendBuffer, pc := .replaying i name .new }.update i fun l =>
                { l with toClient := l.toClient.tail })
          | some (.error _) => some { t with pc := .closing i (some rest) }
      | _ => none
  | .recvFail =>
      match t.pc with
      | .awaiting i _ rest _ => some { t with pc := .closing i (some rest) }
      | _ => none
  | .replaySend ok =>
      match t.pc with
      | .replaying i name replay =>
          match replay.nextChunk t.sendBuffer with
          | none => none
          | some (sequence, data) =>
              if ok then
                some ({ t with
                  pc := .replaying i name (replay.confirmSent sequence) }.update i fun l =>
                  { l with toServer := l.toServer ++ [data] })
              else some { t with pc := .closing i none }
      | _ => none
  | .replayDone now =>
      match t.pc with
      | .replaying i name replay =>
          if (replay.nextChunk t.sendBuffer).isNone then
            some { t with
              active := i
              activeTransport := name
              policy := t.policy.record now
              pc := .idle }
          else none
      | _ => none
  | .close _ =>
      match t.pc with
      | .closing i rest =>
          -- the handle goes out of scope, whether or not it closed cleanly
          let t := t.update i fun l => { l with dropped := true }
          match rest with
          | some rest => some { t with pc := .preparing rest }
          | none => some t.giveUp
      | _ => none
  | .carry sendBuffer nextExpected =>
      match t.pc with
      | .idle => some { t with sendBuffer, nextExpected }
      | _ => none
  | .retire i =>
      match t.pc with
      | .idle =>
          if i ≠ t.active then some (t.update i fun l => { l with dropped := true }) else none
      | _ => none
  | _ => none

def serverStep (t : Switchover) : Event → Option Switchover
  | .accept i now serverRandom ok =>
      t.links[i]?.bind fun l =>
        match l.serve, l.toServer with
        | .first, frame :: rest =>
            match firstChunkType frame with
            | .ok .resume =>
                match acceptResume P t.registry frame now serverRandom ok with
                | (registry, .ok (_, response)) =>
                    some { t.update i fun l => { l with
                        toServer := rest
                        serve := .replaying .new
                        toClient := l.toClient ++ [response] } with registry }
                | (registry, .error _) =>
                    some { t.update i fun l => { l with toServer := rest, serve := .closed } with
                      registry }
            -- a standby sends nothing else first
            | _ => some (t.update i fun l => { l with toServer := rest, serve := .closed })
        | _, _ => none
  | .serverReplay i ok =>
      t.links[i]?.bind fun l =>
        match l.serve, t.registry cfg.sessionId with
        | .replaying replay, some entry =>
            match replay.nextChunk entry.sendBuffer with
            | none => none
            | some (sequence, data) =>
                if ok then
                  some (t.update i fun l => { l with
                    serve := .replaying (replay.confirmSent sequence)
                    toClient := l.toClient ++ [data] })
                else some (t.setServe i .replayed)
        | _, _ => none
  | .serverReplayDone i =>
      t.links[i]?.bind fun l =>
        match l.serve, t.registry cfg.sessionId with
        | .replaying replay, some entry =>
            if (replay.nextChunk entry.sendBuffer).isNone then some (t.setServe i .replayed) else none
        | _, _ => none
  | .spawn i =>
      t.links[i]?.bind fun l =>
        if l.serve = .replayed then
          some (t.update i fun l => { l with serve := .spawned, writer := .live })
        else none
  | .attach i =>
      t.links[i]?.bind fun l => if l.serve = .spawned then some (t.attach i) else none
  | .disconnect i =>
      t.links[i]?.bind fun l =>
        if l.dropped ∧ (l.serve = .first ∨ l.serve = .attached) then
          some (t.update i fun l => { l with serve := .closed, aborted := true })
        else none
  | .cancel i =>
      t.links[i]?.bind fun l =>
        if l.aborted ∧ l.writer = .live then
          some (t.update i fun l => { l with writer := .ended })
        else none
  | .traffic sendBuffer recvBuffer =>
      match t.registry cfg.sessionId with
      | some entry =>
          some { t with registry :=
            Function.update t.registry cfg.sessionId (some { entry with sendBuffer, recvBuffer }) }
      | none => none
  | _ => none

def step (t : Switchover) (e : Event) : Option Switchover :=
  match e with
  | .accept .. | .serverReplay .. | .serverReplayDone _ | .spawn _ | .attach _ | .disconnect _
  | .cancel _ | .traffic .. => t.serverStep P cfg e
  | _ => t.clientStep P cfg e

/-! ## The property and its condition -/

/-- After a failed attempt, the connection in use is served if it was when
the attempt began. -/
def CostsNothing (t : Switchover) : Prop :=
  t.kept = true → t.servedBefore = true → t.served = true

instance (t : Switchover) : Decidable t.CostsNothing := inferInstanceAs (Decidable (_ → _))

/-- The standby has not been attached. -/
def Unattached (t : Switchover) : Prop := ∀ i ∈ t.attached, t.pc.standby ≠ some i

instance (t : Switchover) : Decidable t.Unattached := inferInstanceAs (Decidable (∀ _ ∈ _, _))

/-- The client waits on a standby for which a good response has arrived. -/
def answered (t : Switchover) : Bool :=
  match t.pc with
  | .awaiting i _ _ request =>
      match t.answer P cfg i request with
      | some (.ok _) => true
      | _ => false
  | _ => false

/-- The two commits agree: no standby is attached that the client has given
up, and none is given up that is attached. -/
def Agreed (t : Switchover) : Event → Prop
  | .attach i => i = t.active ∨ t.pc.standby = some i
  | .recv => t.answered P cfg = true ∨ t.Unattached
  | .recvFail => t.Unattached
  | .replaySend ok => ok = true ∨ t.Unattached
  | _ => True

instance (t : Switchover) : (e : Event) → Decidable (t.Agreed P cfg e)
  | .attach i => inferInstanceAs (Decidable (i = t.active ∨ t.pc.standby = some i))
  | .recv => inferInstanceAs (Decidable (t.answered P cfg = true ∨ t.Unattached))
  | .recvFail => inferInstanceAs (Decidable t.Unattached)
  | .replaySend ok => inferInstanceAs (Decidable (ok = true ∨ t.Unattached))
  | .attempt .. | .connect _ | .exhaust | .request .. | .replayDone _ | .close _ | .carry ..
  | .retire _ | .accept .. | .serverReplay .. | .serverReplayDone _ | .spawn _ | .disconnect _
  | .cancel _ | .traffic .. => isTrue trivial

end

/-! ## The invariant -/

/-- `serve` is past its attachment. -/
def LinkEnds.Settled (l : LinkEnds) : Prop := l.serve = .attached ∨ l.serve = .closed

/-- An attempt is under way, or the last one failed. -/
def Attempted (t : Switchover) : Prop := t.kept = true ∨ t.pc ≠ .idle

theorem unsettled {l : LinkEnds} (hattached : l.serve ≠ .attached) (hclosed : l.serve ≠ .closed) :
    ¬ LinkEnds.Settled l := fun hs => hs.elim hattached hclosed

/-- What holds of the `i`th connection. -/
structure Sound (t : Switchover) (i : Nat) (l : LinkEnds) : Prop where
  active : i = t.active → l.dropped = false
  standby : t.pc.standby = some i → l.dropped = false
  attached : t.attached = some i → LinkEnds.Settled l
  requesting : ∀ name rest, t.pc = .requesting i name rest → l.serve = .first ∧ l.toServer = []
  servedBefore : t.servedBefore = true → t.Attempted → i = t.active → LinkEnds.Settled l

structure Inv (t : Switchover) : Prop where
  sound : ∀ (i : Nat) (l : LinkEnds), t.links[i]? = some l → t.Sound i l
  activeLt : t.active < t.links.length
  standbyLt : ∀ i, t.pc.standby = some i → i < t.links.length ∧ i ≠ t.active
  attachedLt : ∀ i, t.attached = some i → i < t.links.length
  closing : ∀ i rest, t.pc = .closing i rest → i ≠ t.active
  kept : t.kept = true → t.pc = .idle
  served : t.servedBefore = true → t.Attempted →
    t.served = true ∨ ∃ i, t.attached = some i ∧ t.pc.standby = some i

theorem inv_start (sendBuffer : SendBuffer) (nextExpected : UInt64) (transport : String)
    (registry : SessionRegistry) : (start sendBuffer nextExpected transport registry).Inv where
  sound i l h := by
    have hl : l = .original := by
      cases i with
      | zero => exact (Option.some.inj h).symm
      | succ i => cases h
    subst hl
    exact
      { active := fun _ => rfl
        standby := fun _ => rfl
        attached := fun _ => Or.inl rfl
        requesting := fun _ _ h => nomatch h
        servedBefore := fun h => nomatch h }
  activeLt := Nat.zero_lt_one
  standbyLt i h := by cases h
  attachedLt i h := by
    obtain rfl := Option.some.inj h
    exact Nat.zero_lt_one
  closing i rest h := by cases h
  kept h := by cases h
  served h := by cases h

theorem served_iff {t : Switchover} : t.served = true ↔ t.attached = some t.active
    ∧ ∃ l, t.links[t.active]? = some l ∧ l.writer = .live ∧ l.aborted = false := by
  simp only [Switchover.served, Bool.and_eq_true, decide_eq_true_eq, Option.any_eq_true_iff_get,
    Bool.not_eq_true']
  constructor
  · rintro ⟨hattached, hsome, hl⟩
    exact ⟨hattached, _, (Option.some_get hsome).symm, hl⟩
  · rintro ⟨hattached, l, hl, hwriter⟩
    refine ⟨hattached, by rw [hl]; rfl, ?_⟩
    simpa only [hl, Option.get_some] using hwriter

theorem Inv.costsNothing {t : Switchover} (h : t.Inv) : t.CostsNothing := by
  intro hkept hbefore
  rcases h.served hbefore (Or.inl hkept) with hserved | ⟨i, -, hstandby⟩
  · exact hserved
  · rw [h.kept hkept] at hstandby
    cases hstandby

/-- The attempt moves on, with the standby it has or without one. -/
theorem Inv.setPc {t : Switchover} {pc : SwitchPc} (h : t.Inv) (hidle : t.pc ≠ .idle)
    (hstandby : ∀ i, pc.standby = some i → t.pc.standby = some i)
    (hnew : ∀ i name rest, pc ≠ .requesting i name rest)
    (hclosing : ∀ i rest, pc = .closing i rest → i ≠ t.active)
    (hkeep : pc.standby = t.pc.standby ∨ t.Unattached) : { t with pc }.Inv where
  sound i l hl := by
    have hs := h.sound i l hl
    exact
      { active := hs.active
        standby := fun hi => hs.standby (hstandby i hi)
        attached := hs.attached
        requesting := fun name rest hreq => absurd hreq (hnew i name rest)
        servedBefore := fun hbefore _ => hs.servedBefore hbefore (Or.inr hidle) }
  activeLt := h.activeLt
  standbyLt i hi := h.standbyLt i (hstandby i hi)
  attachedLt := h.attachedLt
  closing := hclosing
  kept hkept := absurd (h.kept hkept) hidle
  served hbefore _ := by
    rcases h.served hbefore (Or.inr hidle) with hserved | ⟨i, hattached, hi⟩
    · exact Or.inl hserved
    · rcases hkeep with hkeep | hkeep
      · exact Or.inr ⟨i, hattached, hkeep.trans hi⟩
      · exact absurd hi (hkeep i hattached)

/-- One connection moves. -/
theorem Inv.update {t : Switchover} {i : Nat} {l : LinkEnds} {f : LinkEnds → LinkEnds} (h : t.Inv)
    (hl : t.links[i]? = some l) (hsettled : LinkEnds.Settled l → LinkEnds.Settled (f l))
    (hdropped : (f l).dropped = l.dropped ∨ i ≠ t.active ∧ t.pc.standby ≠ some i)
    (hreq : ∀ name rest, t.pc = .requesting i name rest →
      (f l).serve = .first ∧ (f l).toServer = [])
    (hserved : t.served = true → i = t.active → (f l).writer = .live ∧ (f l).aborted = false) :
    (t.update i f).Inv where
  sound j m hm := by
    rcases modify_cases hm with ⟨rfl, l0, hl0, rfl⟩ | ⟨hne, hm⟩
    · obtain rfl := Option.some.inj (hl0.symm.trans hl)
      have hs := h.sound j l0 hl
      refine
        { active := fun hj => ?_
          standby := fun hj => ?_
          attached := fun hj => hsettled (hs.attached hj)
          requesting := hreq
          servedBefore := fun hbefore hatt hj => hsettled (hs.servedBefore hbefore hatt hj) }
      · rcases hdropped with hdropped | ⟨hne, -⟩
        · exact hdropped.trans (hs.active hj)
        · exact absurd hj hne
      · rcases hdropped with hdropped | ⟨-, hne⟩
        · exact hdropped.trans (hs.standby hj)
        · exact absurd hj hne
    · have hs := h.sound j m hm
      exact ⟨hs.active, hs.standby, hs.attached, hs.requesting, hs.servedBefore⟩
  activeLt := by simpa [Switchover.update] using h.activeLt
  standbyLt j hj := by simpa [Switchover.update] using h.standbyLt j hj
  attachedLt j hj := by simpa [Switchover.update] using h.attachedLt j hj
  closing := h.closing
  kept := h.kept
  served hbefore hatt := by
    rcases h.served hbefore hatt with hold | hstandby
    · refine Or.inl (served_iff.mpr ?_)
      obtain ⟨hattached, m, hm, hwriter, haborted⟩ := served_iff.mp hold
      by_cases hi : i = t.active
      · subst hi
        obtain rfl := Option.some.inj (hm.symm.trans hl)
        exact ⟨hattached, f m, getElem?_modify_self f hm, hserved hold rfl⟩
      · refine ⟨hattached, m, ?_, hwriter, haborted⟩
        show (t.links.modify i f)[t.active]? = some m
        rw [List.getElem?_modify_ne f t.links hi, hm]
    · exact Or.inr hstandby

/-- The attempt is over, without a standby. -/
theorem Inv.giveUp {t : Switchover} (h : t.Inv)
    (hserved : t.servedBefore = true → t.served = true)
    (hsettled : t.servedBefore = true → ∀ l, t.links[t.active]? = some l → LinkEnds.Settled l) :
    t.giveUp.Inv where
  sound i l hl := by
    have hs := h.sound i l hl
    exact
      { active := hs.active
        standby := fun hi => nomatch hi
        attached := hs.attached
        requesting := fun name rest hreq => nomatch hreq
        servedBefore := fun hbefore _ hi => hsettled hbefore l (hi ▸ hl) }
  activeLt := h.activeLt
  standbyLt i hi := nomatch hi
  attachedLt := h.attachedLt
  closing i rest hi := nomatch hi
  kept _ := rfl
  served hbefore _ := Or.inl (hserved hbefore)

/-- A connection that is served has been attached. -/
theorem Inv.settled_of_served {t : Switchover} (h : t.Inv) (hserved : t.served = true)
    {l : LinkEnds} (hl : t.links[t.active]? = some l) : LinkEnds.Settled l :=
  (h.sound t.active l hl).attached (served_iff.mp hserved).1

/-- An attempt that has no standby ends. -/
theorem Inv.finish {t : Switchover} (h : t.Inv) (hidle : t.pc ≠ .idle)
    (hstandby : t.pc.standby = none) : t.giveUp.Inv := by
  refine h.giveUp ?_ ?_
  · intro hbefore
    rcases h.served hbefore (Or.inr hidle) with hserved | ⟨i, -, hi⟩
    · exact hserved
    · rw [hstandby] at hi
      cases hi
  · intro hbefore l hl
    exact (h.sound t.active l hl).servedBefore hbefore (Or.inr hidle) rfl

/-- An attempt begins. -/
theorem Inv.attempt {t : Switchover} (h : t.Inv) (hidle : t.pc = .idle) :
    { t with servedBefore := t.served, kept := false }.Inv where
  sound i l hl := by
    have hs := h.sound i l hl
    exact
      { active := hs.active
        standby := hs.standby
        attached := hs.attached
        requesting := hs.requesting
        servedBefore := fun hbefore _ hi => by
          subst hi
          exact h.settled_of_served hbefore hl }
  activeLt := h.activeLt
  standbyLt := h.standbyLt
  attachedLt := h.attachedLt
  closing := h.closing
  kept _ := hidle
  served hbefore _ := Or.inl hbefore

/-- The attempt has transports to try. -/
theorem Inv.prepare {t : Switchover} (h : t.Inv) (rest : List String)
    (hkept : t.kept = false) (hserved : t.servedBefore = true → t.served = true) :
    { t with pc := .preparing rest }.Inv where
  sound i l hl := by
    have hs := h.sound i l hl
    exact
      { active := hs.active
        standby := fun hi => nomatch hi
        attached := hs.attached
        requesting := fun name rest hreq => nomatch hreq
        servedBefore := fun hbefore _ hi => by
          subst hi
          exact h.settled_of_served (hserved hbefore) hl }
  activeLt := h.activeLt
  standbyLt i hi := nomatch hi
  attachedLt := h.attachedLt
  closing i rest hi := nomatch hi
  kept hk := by
    rw [hkept] at hk
    cases hk
  served hbefore _ := Or.inl (hserved hbefore)

/-- A standby connects. -/
theorem Inv.connect {t : Switchover} {name : String} {rest : List String} (h : t.Inv)
    (hidle : t.pc ≠ .idle) (hstandby : t.pc.standby = none) :
    { t with
      links := t.links ++ [LinkEnds.fresh]
      pc := .requesting t.links.length name rest }.Inv where
  sound i l hl := by
    rcases Nat.lt_trichotomy i t.links.length with hi | rfl | hi
    · rw [List.getElem?_append_left hi] at hl
      have hs := h.sound i l hl
      have hne : (SwitchPc.requesting t.links.length name rest).standby ≠ some i := by
        intro heq
        have := Option.some.inj heq
        omega
      exact
        { active := hs.active
          standby := fun heq => absurd heq hne
          attached := hs.attached
          requesting := fun name' rest' heq => by
            obtain ⟨rfl, -, -⟩ := SwitchPc.requesting.inj heq
            exact absurd hi (Nat.lt_irrefl _)
          servedBefore := fun hbefore _ => hs.servedBefore hbefore (Or.inr hidle) }
    · rw [List.getElem?_concat_length] at hl
      obtain rfl := Option.some.inj hl
      exact
        { active := fun _ => rfl
          standby := fun _ => rfl
          attached := fun heq => absurd (h.attachedLt _ heq) (Nat.lt_irrefl _)
          requesting := fun _ _ _ => ⟨rfl, rfl⟩
          servedBefore := fun _ _ heq => by
            have hlt := h.activeLt
            rw [← heq] at hlt
            exact absurd hlt (Nat.lt_irrefl _) }
    · have hout : (t.links ++ [LinkEnds.fresh]).length ≤ i := by
        rw [List.length_append, List.length_singleton]
        omega
      rw [List.getElem?_eq_none hout] at hl
      cases hl
  activeLt := by
    have := h.activeLt
    simp only [List.length_append, List.length_singleton]
    omega
  standbyLt i hi := by
    obtain rfl := Option.some.inj hi
    have := h.activeLt
    simp only [List.length_append, List.length_singleton]
    omega
  attachedLt i hi := by
    have := h.attachedLt i hi
    simp only [List.length_append, List.length_singleton]
    omega
  closing i rest hi := nomatch hi
  kept hk := absurd (h.kept hk) hidle
  served hbefore _ := by
    rcases h.served hbefore (Or.inr hidle) with hserved | ⟨i, -, hi⟩
    · obtain ⟨hattached, l, hl, hwriter⟩ := served_iff.mp hserved
      refine Or.inl (served_iff.mpr ⟨hattached, l, ?_, hwriter⟩)
      show (t.links ++ [LinkEnds.fresh])[t.active]? = some l
      rw [List.getElem?_append_left h.activeLt, hl]
    · rw [hstandby] at hi
      cases hi

/-- The client commits. -/
theorem Inv.commit {t : Switchover} {i : Nat} {name : String} {policy : SwitchPolicy} (h : t.Inv)
    (hi : t.pc.standby = some i) :
    { t with active := i, activeTransport := name, policy, pc := .idle }.Inv where
  sound j l hl := by
    have hs := h.sound j l hl
    exact
      { active := fun hj => hs.standby (hj ▸ hi)
        standby := fun hj => nomatch hj
        attached := hs.attached
        requesting := fun name rest hreq => nomatch hreq
        servedBefore := fun _ hatt => by
          rcases hatt with hkept | hne
          · exact absurd (h.kept hkept) (SwitchPc.ne_idle_of_standby hi)
          · exact absurd rfl hne }
  activeLt := (h.standbyLt i hi).1
  standbyLt j hj := nomatch hj
  attachedLt := h.attachedLt
  closing j rest hj := nomatch hj
  kept _ := rfl
  served _ hatt := by
    rcases hatt with hkept | hne
    · exact absurd (h.kept hkept) (SwitchPc.ne_idle_of_standby hi)
    · exact absurd rfl hne

/-- The server commits, to the connection in use or to the standby. -/
theorem Inv.settle {t : Switchover} {i : Nat} {l : LinkEnds} (h : t.Inv)
    (hl : t.links[i]? = some l) (hspawned : l.serve = .spawned)
    (hagreed : i = t.active ∨ t.pc.standby = some i) :
    { t.setServe i .attached with attached := some i }.Inv where
  sound j m hm := by
    rcases modify_cases hm with ⟨rfl, l0, hl0, rfl⟩ | ⟨hne, hm⟩
    · obtain rfl := Option.some.inj (hl0.symm.trans hl)
      have hs := h.sound j l0 hl
      exact
        { active := hs.active
          standby := hs.standby
          attached := fun _ => Or.inl rfl
          requesting := fun name rest hreq => by
            have hfirst := (hs.requesting name rest hreq).1
            rw [hspawned] at hfirst
            cases hfirst
          servedBefore := fun _ _ _ => Or.inl rfl }
    · have hs := h.sound j m hm
      exact
        { active := hs.active
          standby := hs.standby
          attached := fun heq => absurd (Option.some.inj heq).symm hne
          requesting := hs.requesting
          servedBefore := hs.servedBefore }
  activeLt := by simpa [setServe, Switchover.update] using h.activeLt
  standbyLt j hj := by simpa [setServe, Switchover.update] using h.standbyLt j hj
  attachedLt j hj := by
    obtain rfl := Option.some.inj hj
    simpa [setServe, Switchover.update] using (List.getElem?_eq_some_iff.mp hl).1
  closing := h.closing
  kept := h.kept
  served hbefore hatt := by
    rcases hagreed with rfl | hstandby
    · -- a connection that was served has been attached once and for all
      rcases (h.sound _ l hl).servedBefore hbefore hatt rfl with hserve | hserve
      all_goals
        rw [hspawned] at hserve
        cases hserve
    · exact Or.inr ⟨i, rfl, hstandby⟩

theorem Inv.attach {t : Switchover} {i : Nat} {l : LinkEnds} (h : t.Inv)
    (hl : t.links[i]? = some l) (hspawned : l.serve = .spawned)
    (hagreed : i = t.active ∨ t.pc.standby = some i) : (t.attach i).Inv := by
  have hset := h.settle hl hspawned hagreed
  rw [Switchover.attach]
  cases hprev : t.attached with
  | none => exact hset
  | some previous =>
      have hlt : previous < { t.setServe i .attached with attached := some i }.links.length := by
        simpa [setServe, Switchover.update] using h.attachedLt previous hprev
      refine hset.update (List.getElem?_eq_getElem hlt) (fun hs => hs) (Or.inl rfl) ?_ ?_
      · intro name rest hreq
        exact (hset.sound _ _ (List.getElem?_eq_getElem hlt)).requesting name rest hreq
      · intro hserved hactive
        -- the writer that is aborted is not that of the connection in use
        have hi : i = t.active := Option.some.inj (served_iff.mp hserved).1
        have hactive' : previous = t.active := hactive
        have hsettled := (h.sound i l hl).attached (by rw [hprev, hactive', hi])
        rcases hsettled with hserve | hserve
        all_goals
          rw [hspawned] at hserve
          cases hserve

/-- A step that the invariant does not read. -/
theorem Inv.congr {t t' : Switchover} (h : t.Inv) (hlinks : t'.links = t.links)
    (hactive : t'.active = t.active) (hpc : t'.pc = t.pc) (hattached : t'.attached = t.attached)
    (hkept : t'.kept = t.kept) (hbefore : t'.servedBefore = t.servedBefore) : t'.Inv := by
  obtain ⟨links, active, transport, pc, sendBuffer, next, policy, registry, attached, kept,
    before⟩ := t
  obtain ⟨links', active', transport', pc', sendBuffer', next', policy', registry', attached', kept',
    before'⟩ := t'
  dsimp only at hlinks hactive hpc hattached hkept hbefore
  subst hlinks hactive hpc hattached hkept hbefore
  exact ⟨fun i l hl => ⟨(h.sound i l hl).1, (h.sound i l hl).2, (h.sound i l hl).3,
    (h.sound i l hl).4, (h.sound i l hl).5⟩, h.activeLt, h.standbyLt, h.attachedLt, h.closing, h.kept,
    h.served⟩

/-! ## Every step keeps it -/

theorem Inv.unattached_of_requesting {t : Switchover} (h : t.Inv) {i : Nat} {name : String}
    {rest : List String} (hpc : t.pc = .requesting i name rest) : t.Unattached := by
  intro j hj hstandby
  have hij : t.pc.standby = some i := by rw [hpc]; rfl
  obtain rfl := Option.some.inj (hij.symm.trans hstandby)
  have hl := List.getElem?_eq_getElem (h.standbyLt i hij).1
  have hs := h.sound i _ hl
  have hfirst := (hs.requesting name rest hpc).1
  rcases hs.attached hj with hserve | hserve
  all_goals
    rw [hfirst] at hserve
    cases hserve

/-- The client closes a connection that it neither uses nor brings up. -/
theorem Inv.drop {t : Switchover} {i : Nat} (h : t.Inv) (hne : i ≠ t.active)
    (hstandby : t.pc.standby ≠ some i) : (t.update i fun l => { l with dropped := true }).Inv := by
  cases hl : t.links[i]? with
  | none =>
      have hsame : t.links.modify i (fun l => { l with dropped := true }) = t.links :=
        List.modify_eq_self (List.getElem?_eq_none_iff.mp hl)
      exact h.congr hsame rfl rfl rfl rfl rfl
  | some l =>
      have hreq : ∀ name rest, t.pc ≠ .requesting i name rest := by
        intro name rest hpc
        rw [hpc] at hstandby
        exact hstandby rfl
      exact h.update hl (fun hs => hs) (Or.inr ⟨hne, hstandby⟩)
        (fun name rest hpc => absurd hpc (hreq name rest)) fun _ hactive => absurd hactive hne

/-- The server's task moves on, before its attachment. -/
theorem Inv.advance {t : Switchover} {i : Nat} {l : LinkEnds} {f : LinkEnds → LinkEnds}
    (h : t.Inv) (hl : t.links[i]? = some l) (hunsettled : ¬ LinkEnds.Settled l)
    (hbusy : ¬ (l.serve = .first ∧ l.toServer = []))
    (hf : (f l).dropped = l.dropped) : (t.update i f).Inv := by
  refine h.update hl (fun hs => absurd hs hunsettled) (Or.inl hf) ?_ ?_
  · intro name rest hpc
    exact absurd ((h.sound i l hl).requesting name rest hpc) hbusy
  · intro hserved hactive
    subst hactive
    exact absurd (h.settled_of_served hserved hl) hunsettled

theorem Inv.advance_underWay {t : Switchover} {i : Nat} {l : LinkEnds} {f : LinkEnds → LinkEnds}
    (h : t.Inv) (hl : t.links[i]? = some l) (hserve : l.serve.underWay = true)
    (hf : (f l).dropped = l.dropped) : (t.update i f).Inv := by
  refine h.advance hl (unsettled ?_ ?_) ?_ hf
  · intro heq
    rw [heq] at hserve
    cases hserve
  · intro heq
    rw [heq] at hserve
    cases hserve
  · intro hfirst
    rw [hfirst.1] at hserve
    cases hserve

/-- The client gives its standby up. -/
theorem Inv.abandon {t : Switchover} {i : Nat} {rest : Option (List String)} (h : t.Inv)
    (hi : t.pc.standby = some i) (hun : t.Unattached) :
    { t with pc := .closing i rest }.Inv := by
  refine h.setPc (SwitchPc.ne_idle_of_standby hi) (fun j hj => nomatch hj)
    (fun _ _ _ heq => nomatch heq) ?_ (Or.inr hun)
  intro j rest' heq
  obtain ⟨rfl, -⟩ := SwitchPc.closing.inj heq
  exact (h.standbyLt i hi).2

/-- The client goes on with its standby, and moves its queues only. -/
theorem Inv.proceed {t : Switchover} {i : Nat} {pc : SwitchPc} {f : LinkEnds → LinkEnds}
    (h : t.Inv) (hi : t.pc.standby = some i) (hpc : pc.standby = some i)
    (hnew : ∀ j name rest, pc ≠ .requesting j name rest)
    (hf : ∀ l, (f l).dropped = l.dropped ∧ (f l).serve = l.serve ∧ (f l).writer = l.writer
      ∧ (f l).aborted = l.aborted) : ({ t with pc }.update i f).Inv := by
  have hclosing : ∀ j rest, pc = .closing j rest → j ≠ t.active := by
    intro j rest heq
    rw [heq] at hpc
    cases hpc
  have hset : { t with pc }.Inv :=
    h.setPc (SwitchPc.ne_idle_of_standby hi) (fun j hj => by rw [hi, ← hpc, hj]) hnew hclosing
      (Or.inl (hpc.trans hi.symm))
  obtain ⟨l, hl⟩ : ∃ l, t.links[i]? = some l :=
    ⟨_, List.getElem?_eq_getElem (h.standbyLt i hi).1⟩
  obtain ⟨hdropped, hserve, hwriter, haborted⟩ := hf l
  refine hset.update hl ?_ (Or.inl hdropped) (fun name rest heq => absurd heq (hnew i name rest)) ?_
  · rw [LinkEnds.Settled, LinkEnds.Settled, hserve]
    exact fun hs => hs
  · intro _ hactive
    exact absurd hactive (h.standbyLt i hi).2

section
variable {P : Primitives} {cfg : SwitchSetup}

theorem Inv.clientStep {t t' : Switchover} {e : Event} (h : t.Inv) (hC : t.Agreed P cfg e)
    (hstep : t.clientStep P cfg e = some t') : t'.Inv := by
  cases e with
  | attempt reason now =>
      simp only [Switchover.clientStep] at hstep
      split at hstep
      · rename_i hpc
        have hnew := h.attempt hpc
        split at hstep
        · obtain rfl := Option.some.inj hstep
          exact hnew.prepare _ rfl fun hbefore => hbefore
        · obtain rfl := Option.some.inj hstep
          exact hnew.giveUp (fun hbefore => hbefore) fun hbefore l hl =>
            hnew.settled_of_served hbefore hl
      · cases hstep
  | connect ok =>
      simp only [Switchover.clientStep] at hstep
      split at hstep
      · rename_i name rest hpc
        have hidle : t.pc ≠ .idle := by rw [hpc]; exact fun heq => nomatch heq
        have hnone : t.pc.standby = none := by rw [hpc]; rfl
        split at hstep
        · obtain rfl := Option.some.inj hstep
          exact h.connect hidle hnone
        · obtain rfl := Option.some.inj hstep
          exact h.setPc hidle (fun i hi => nomatch hi) (fun _ _ _ heq => nomatch heq)
            (fun _ _ heq => nomatch heq) (Or.inl hnone.symm)
      · cases hstep
  | exhaust =>
      simp only [Switchover.clientStep] at hstep
      split at hstep
      · rename_i hpc
        obtain rfl := Option.some.inj hstep
        exact h.finish (by rw [hpc]; exact fun heq => nomatch heq) (by rw [hpc]; rfl)
      · cases hstep
  | request now clientRandom ok =>
      simp only [Switchover.clientStep] at hstep
      split at hstep
      · rename_i i name rest hpc
        have hi : t.pc.standby = some i := by rw [hpc]; rfl
        have hun := h.unattached_of_requesting hpc
        split at hstep
        · split at hstep
          · obtain rfl := Option.some.inj hstep
            exact h.proceed hi rfl (fun _ _ _ heq => nomatch heq) fun l => ⟨rfl, rfl, rfl, rfl⟩
          · obtain rfl := Option.some.inj hstep
            exact h.abandon hi hun
        · obtain rfl := Option.some.inj hstep
          exact h.abandon hi hun
      · cases hstep
  | recv =>
      simp only [Switchover.clientStep] at hstep
      split at hstep
      · rename_i i name rest request hpc
        have hi : t.pc.standby = some i := by rw [hpc]; rfl
        split at hstep
        · cases hstep
        · obtain rfl := Option.some.inj hstep
          have hmoved : ({ t with pc := .replaying i name .new }.update i fun l =>
              { l with toClient := l.toClient.tail }).Inv :=
            h.proceed hi rfl (fun _ _ _ heq => nomatch heq) fun l => ⟨rfl, rfl, rfl, rfl⟩
          exact hmoved.congr rfl rfl rfl rfl rfl rfl
        · rename_i err hanswer
          obtain rfl := Option.some.inj hstep
          refine h.abandon hi (hC.resolve_left ?_)
          simp only [answered, hpc, hanswer]
          exact Bool.false_ne_true
      · cases hstep
  | recvFail =>
      simp only [Switchover.clientStep] at hstep
      split at hstep
      · rename_i i name rest request hpc
        obtain rfl := Option.some.inj hstep
        exact h.abandon (by rw [hpc]; rfl) hC
      · cases hstep
  | replaySend ok =>
      simp only [Switchover.clientStep] at hstep
      split at hstep
      · rename_i i name replay hpc
        have hi : t.pc.standby = some i := by rw [hpc]; rfl
        split at hstep
        · cases hstep
        split at hstep
        · obtain rfl := Option.some.inj hstep
          exact h.proceed hi rfl (fun _ _ _ heq => nomatch heq) fun l => ⟨rfl, rfl, rfl, rfl⟩
        · rename_i hok
          obtain rfl := Option.some.inj hstep
          exact h.abandon hi (hC.resolve_left hok)
      · cases hstep
  | replayDone now =>
      simp only [Switchover.clientStep] at hstep
      split at hstep
      · rename_i i name replay hpc
        split at hstep
        · obtain rfl := Option.some.inj hstep
          exact h.commit (by rw [hpc]; rfl)
        · cases hstep
      · cases hstep
  | close ok =>
      simp only [Switchover.clientStep] at hstep
      split at hstep
      · rename_i i rest hpc
        have hne := h.closing i rest hpc
        have hnone : t.pc.standby = none := by rw [hpc]; rfl
        have hidle : t.pc ≠ .idle := by rw [hpc]; exact fun heq => nomatch heq
        have hdrop := h.drop hne (by rw [hnone]; exact fun heq => nomatch heq)
        split at hstep
        · obtain rfl := Option.some.inj hstep
          exact hdrop.setPc hidle (fun i hi => nomatch hi) (fun _ _ _ heq => nomatch heq)
            (fun _ _ heq => nomatch heq) (Or.inl hnone.symm)
        · obtain rfl := Option.some.inj hstep
          exact hdrop.finish hidle hnone
      · cases hstep
  | carry sendBuffer nextExpected =>
      simp only [Switchover.clientStep] at hstep
      split at hstep
      · obtain rfl := Option.some.inj hstep
        exact h.congr rfl rfl rfl rfl rfl rfl
      · cases hstep
  | retire i =>
      simp only [Switchover.clientStep] at hstep
      split at hstep
      · rename_i hpc
        split at hstep
        · rename_i hne
          obtain rfl := Option.some.inj hstep
          exact h.drop hne (by rw [hpc]; exact fun heq => nomatch heq)
        · cases hstep
      · cases hstep
  | _ => cases hstep

theorem Inv.serverStep {t t' : Switchover} {e : Event} (h : t.Inv) (hC : t.Agreed P cfg e)
    (hstep : t.serverStep P cfg e = some t') : t'.Inv := by
  cases e with
  | accept i now serverRandom ok =>
      obtain ⟨l, hl, hstep⟩ := Option.bind_eq_some_iff.mp hstep
      split at hstep
      · rename_i frame rest hserve hframe
        have hbusy : ¬ (l.serve = .first ∧ l.toServer = []) := by
          rw [hframe]
          exact fun heq => nomatch heq.2
        have hunsettled := unsettled (by rw [hserve]; exact fun heq => nomatch heq)
          (by rw [hserve]; exact fun heq => nomatch heq)
        split at hstep
        · split at hstep
          · obtain rfl := Option.some.inj hstep
            refine Inv.congr (h.advance hl hunsettled hbusy ?_) rfl rfl rfl rfl rfl rfl
            rfl
          · obtain rfl := Option.some.inj hstep
            refine Inv.congr (h.advance hl hunsettled hbusy ?_) rfl rfl rfl rfl rfl rfl
            rfl
        · obtain rfl := Option.some.inj hstep
          refine h.advance hl hunsettled hbusy ?_
          rfl
      · cases hstep
  | serverReplay i ok =>
      obtain ⟨l, hl, hstep⟩ := Option.bind_eq_some_iff.mp hstep
      split at hstep
      · rename_i replay entry hserve hentry
        have hway : l.serve.underWay = true := by rw [hserve]; rfl
        split at hstep
        · cases hstep
        split at hstep
        · obtain rfl := Option.some.inj hstep
          exact h.advance_underWay hl hway rfl
        · obtain rfl := Option.some.inj hstep
          exact h.advance_underWay hl hway rfl
      · cases hstep
  | serverReplayDone i =>
      obtain ⟨l, hl, hstep⟩ := Option.bind_eq_some_iff.mp hstep
      split at hstep
      · rename_i replay entry hserve hentry
        have hway : l.serve.underWay = true := by rw [hserve]; rfl
        split at hstep
        · obtain rfl := Option.some.inj hstep
          exact h.advance_underWay hl hway rfl
        · cases hstep
      · cases hstep
  | spawn i =>
      obtain ⟨l, hl, hstep⟩ := Option.bind_eq_some_iff.mp hstep
      split at hstep
      · rename_i hserve
        have hway : l.serve.underWay = true := by rw [hserve]; rfl
        obtain rfl := Option.some.inj hstep
        exact h.advance_underWay hl hway rfl
      · cases hstep
  | attach i =>
      obtain ⟨l, hl, hstep⟩ := Option.bind_eq_some_iff.mp hstep
      split at hstep
      · rename_i hserve
        obtain rfl := Option.some.inj hstep
        exact h.attach hl hserve hC
      · cases hstep
  | disconnect i =>
      obtain ⟨l, hl, hstep⟩ := Option.bind_eq_some_iff.mp hstep
      split at hstep
      · rename_i hdropped
        obtain rfl := Option.some.inj hstep
        -- neither the connection in use nor the standby has been closed
        have hs := h.sound i l hl
        have hne : i ≠ t.active := by
          intro hactive
          rw [hs.active hactive] at hdropped
          cases hdropped.1
        have hstandby : t.pc.standby ≠ some i := by
          intro hi
          rw [hs.standby hi] at hdropped
          cases hdropped.1
        refine h.update hl (fun _ => Or.inr rfl) (Or.inl rfl) ?_ fun _ hactive => absurd hactive hne
        intro name rest hpc
        rw [hpc] at hstandby
        exact absurd rfl hstandby
      · cases hstep
  | cancel i =>
      obtain ⟨l, hl, hstep⟩ := Option.bind_eq_some_iff.mp hstep
      split at hstep
      · rename_i habort
        obtain rfl := Option.some.inj hstep
        refine h.update hl (fun hs => hs) (Or.inl rfl) ?_ ?_
        · intro name rest hpc
          exact (h.sound i l hl).requesting name rest hpc
        · intro hserved hactive
          obtain ⟨-, m, hm, -, haborted⟩ := served_iff.mp hserved
          subst hactive
          obtain rfl := Option.some.inj (hm.symm.trans hl)
          rw [haborted] at habort
          cases habort.1
      · cases hstep
  | traffic sendBuffer recvBuffer =>
      simp only [Switchover.serverStep] at hstep
      split at hstep
      · obtain rfl := Option.some.inj hstep
        exact h.congr rfl rfl rfl rfl rfl rfl
      · cases hstep
  | _ => cases hstep

theorem Inv.step {t t' : Switchover} {e : Event} (h : t.Inv) (hC : t.Agreed P cfg e)
    (hstep : t.step P cfg e = some t') : t'.Inv := by
  unfold Switchover.step at hstep
  split at hstep
  all_goals first
    | exact h.serverStep hC hstep
    | exact h.clientStep hC hstep

/-- A failed switch costs nothing, as long as the two commits agree. -/
theorem failed_switch_keeps_writer {sendBuffer : SendBuffer} {nextExpected : UInt64}
    {transport : String} {registry : SessionRegistry} {es : List Event}
    (h : Meets (Switchover.step P cfg) (Agreed P cfg)
      (start sendBuffer nextExpected transport registry) es) :
    Always (Switchover.step P cfg) CostsNothing
      (start sendBuffer nextExpected transport registry) es :=
  (always_of_meets (fun _ _ _ hI hC hstep => hI.step hC hstep) (inv_start ..) h).mono
    fun _ hI => hI.costsNothing

end

/-! ## A switch that fails, in two ways -/

def sampleSwitch : SwitchSetup where
  sessionId := zeroArr 16
  keys := plainKeys
  transports := ["quic", "tls-tcp"]

def sampleStart : Switchover :=
  start .withDefaultCapacity 0 "quic" fun id =>
    if id = zeroArr 16 then some (.new plainKeys) else none

/-- The request goes nowhere. -/
def lostRequest : List Event :=
  [.attempt .linkSilent 0, .connect true, .request 1800000000 (zeroArr 32) true, .recvFail,
    .close true, .exhaust]

theorem failed_switch_keeps_writer_lostRequest :
    Always (Switchover.step .plain sampleSwitch) CostsNothing sampleStart lostRequest :=
  failed_switch_keeps_writer (by decide +kernel)

/-- The server attaches the standby, and the response is lost. -/
def lostResponse : List Event :=
  [.attempt .linkSilent 0, .connect true, .request 1800000000 (zeroArr 32) true,
    .accept 1 1800000000 (zeroArr 32) true, .serverReplayDone 1, .spawn 1, .attach 1, .recvFail,
    .close true, .exhaust]

theorem isSome_lostResponse :
    (exec (Switchover.step .plain sampleSwitch) sampleStart lostResponse).isSome = true := by
  decide +kernel

/-- The client keeps a connection whose writer the server has aborted. -/
theorem failed_switch_evicts_writer :
    ∃ es t, exec (Switchover.step .plain sampleSwitch) sampleStart es = some t
      ∧ ¬ t.CostsNothing :=
  ⟨lostResponse, Option.get _ isSome_lostResponse, (Option.some_get isSome_lostResponse).symm,
    by decide +kernel⟩

end Switchover

end Kanrin
