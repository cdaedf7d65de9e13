import Kanrin.Lib.Run
import Kanrin.Lib.History
import Kanrin.ResumeProofs

/-!
# Who can take a session over

The exchange of `resume.rs`, from the client's `resume_on` and the server's
`accept_resume`, over a network that hands either of them whatever bytes it
likes, whenever it likes, any number of times. The one thing that it cannot
do is make a proof up: one that verifies under the resumption key of a
session has been computed with that key before (`Unforged`).

Then what the two conclude is so. The server takes up only a session whose
client has asked for it, at the position that the client has given, and the
client takes a position for the server's only when the server has answered
that very request with it. Neither needs to know that requests and responses
are read from the same kind of frame, or that the frames are sealed with a
key that everybody has: it is all in the two transcripts.
-/

namespace Kanrin

open Lib

/-- What happens in a session that matters to both sides. -/
inductive ResumeStep where
  /-- `resume_on` has sent the request. -/
  | requested (r : ResumeRequest)
  /-- `accept_resume` has accepted it, with the server at `position`. -/
  | answered (r : ResumeRequest) (position : UInt64)
  /-- `resume_on` has returned, with `position` for the server's. -/
  | resumed (r : ResumeRequest) (position : UInt64)
deriving DecidableEq

/-- The random that a request is recognised by. -/
def ResumeStep.drawn : ResumeStep → Option (ByteArr 32)
  | .requested r => some r.clientRandom
  | .answered .. | .resumed .. => none

structure Takeover where
  registry : SessionRegistry
  issued : List (SessionId × SessionKeys)
  /-- The requests that clients await a response to, with their keys. -/
  waiting : List (ResumeRequest × SessionKeys)
  /-- What has been signed, and with which resumption key. -/
  signed : List (Key × Bytes)
  log : List ResumeStep

namespace Takeover

inductive Event where
  /-- `accept_new` inserts an entry. -/
  | establish (id : SessionId) (keys : SessionKeys)
  /-- The reaper drops an entry. -/
  | reap (id : SessionId)
  /-- The server receives a data chunk of a session. -/
  | data (id : SessionId) (sequence : UInt64) (payload : Bytes)
  /-- Replies and acknowledgements move the other buffer. -/
  | replies (id : SessionId) (sendBuffer : SendBuffer)
  | request (id : SessionId) (keys : SessionKeys) (nextExpected now : UInt64) (random : ByteArr 32)
  /-- A connection opens with these bytes. -/
  | first (bytes : Bytes) (now : UInt64) (serverRandom : ByteArr 32) (sent : Bool)
  /-- The `i`th waiting client receives these bytes. -/
  | response (i : Nat) (data : Bytes)

def start : Takeover where
  registry _ := none
  issued := []
  waiting := []
  signed := []
  log := []

variable (P : Primitives)

/-- The response that `accept_resume` signs, and the key it is signed with. -/
def answer (registry : SessionRegistry) (bytes : Bytes) (now : UInt64) (serverRandom : ByteArr 32) :
    Option (ResumeRequest × ResumeResponse × Key) :=
  match checkResume P registry bytes now with
  | .error _ => none
  | .ok (request, entry) =>
      match deriveResumptionKey P entry.keys,
          ResumeResponse.new P .ok entry.recvBuffer.nextExpected request entry.keys serverRandom with
      | .ok key, .ok response => some (request, response, key)
      | _, _ => none

local instance : LawfulBEq (SessionId × SessionKeys) := inferInstance

local instance : LawfulBEq (ByteArr 32) := inferInstance

def step (t : Takeover) : Event → Option Takeover
  | .establish id keys =>
      if id ∈ t.issued.map Prod.fst then none
      else some { t with
        registry := Function.update t.registry id (some (.new keys))
        issued := t.issued ++ [(id, keys)] }
  | .reap id => some { t with registry := Function.update t.registry id none }
  | .data id sequence payload =>
      (t.registry id).map fun entry =>
        match entry.recvBuffer.accept sequence payload with
        | .error _ => t
        | .ok (_, buffer) =>
            { t with
              registry := Function.update t.registry id
                (some { entry with recvBuffer := buffer.drainReady.2 }) }
  | .replies id sendBuffer =>
      (t.registry id).map fun entry =>
        { t with registry := Function.update t.registry id (some { entry with sendBuffer }) }
  | .request id keys nextExpected now random =>
      -- the client's random is a fresh draw
      if (id, keys) ∈ t.issued ∧ random ∉ t.log.filterMap ResumeStep.drawn then
        match deriveResumptionKey P keys, resumeRequestFrame P id nextExpected keys now random with
        | .ok key, .ok (request, _) =>
            some { t with
              waiting := t.waiting ++ [(request, keys)]
              signed := t.signed ++ [(key, request.transcript.flatten)]
              log := t.log ++ [.requested request] }
        | _, _ => some t
      else none
  | .first bytes now serverRandom sent =>
      match firstChunkType bytes with
      | .ok .resume =>
          let registry := (acceptResume P t.registry bytes now serverRandom sent).1
          match answer P t.registry bytes now serverRandom with
          | none => some { t with registry }
          | some (request, response, key) =>
              -- signed, whether or not it is sent in the end
              some { t with
                registry
                signed := t.signed ++ [(key, (response.transcript request).flatten)]
                log := t.log ++ [.answered request response.nextExpected] }
      | _ => some t
  | .response i data =>
      t.waiting[i]?.map fun (request, keys) =>
        match readResumeResponse P request keys data with
        | .error _ => { t with waiting := t.waiting.eraseIdx i }
        | .ok position =>
            { t with
              waiting := t.waiting.eraseIdx i
              log := t.log ++ [.resumed request position] }

/-! ## The network -/

/-- What a client reads in a response, before it checks anything. -/
def responseOf (data : Bytes) : Option ResumeResponse :=
  match Chunk.decodeEncrypted P data tempKey tempNonce with
  | .error _ => none
  | .ok chunk => (ResumeResponse.decode chunk.payload).toOption

/-- The proofs in what the network delivers have been computed by somebody
who has the key, as far as they verify. -/
def Unforged (t : Takeover) : Event → Prop
  | .first bytes _ _ _ =>
      ∀ r ∈ requestOf P bytes, ∀ entry ∈ t.registry r.sessionId,
        ∀ key ∈ (deriveResumptionKey P entry.keys).toOption,
          r.proof = r.computeProof P key → (key, r.transcript.flatten) ∈ t.signed
  | .response i data =>
      ∀ w ∈ t.waiting[i]?, ∀ r ∈ responseOf P data,
        ∀ key ∈ (deriveResumptionKey P w.2).toOption,
          r.proof = r.computeProof P key w.1 → (key, (r.transcript w.1).flatten) ∈ t.signed
  -- and no session lives to the end of its sequence space
  | .data _ sequence _ => sequence < u64Max
  | _ => True

/-- By the key in `o`, if there is one, and not by all keys. -/
instance decidableForallKey {p : Key → Prop} [DecidablePred p] (o : Option Key) :
    Decidable (∀ key ∈ o, p key) := Option.decidableForallMem o

instance (t : Takeover) : (e : Event) → Decidable (t.Unforged P e)
  | .first bytes _ _ _ => inferInstanceAs (Decidable (∀ r ∈ requestOf P bytes,
      ∀ entry ∈ t.registry r.sessionId, ∀ key ∈ (deriveResumptionKey P entry.keys).toOption,
        r.proof = r.computeProof P key → (key, r.transcript.flatten) ∈ t.signed))
  | .response i data => inferInstanceAs (Decidable (∀ w ∈ t.waiting[i]?, ∀ r ∈ responseOf P data,
      ∀ key ∈ (deriveResumptionKey P w.2).toOption,
        r.proof = r.computeProof P key w.1 → (key, (r.transcript w.1).flatten) ∈ t.signed))
  | .data _ sequence _ => inferInstanceAs (Decidable (sequence < u64Max))
  | .establish .. | .reap _ | .replies .. | .request .. => isTrue trivial

/-! ## The property -/

/-- What must have happened before a step. -/
def Agreed (older : List ResumeStep) : ResumeStep → Prop
  | .requested r => ∀ r', .requested r' ∈ older → r'.clientRandom ≠ r.clientRandom
  | .answered r _ => .requested r ∈ older
  | .resumed r position =>
      .answered r position ∈ older ∧ ∀ position', .resumed r position' ∉ older

/-- What the client takes for received by the server has been received. -/
def Received (t : Takeover) : Prop :=
  ∀ r position, .resumed r position ∈ t.log → ∀ entry, t.registry r.sessionId = some entry →
    ∀ s < position, entry.recvBuffer.Seen s

/-! ## What has been signed -/

/-- Whose work a signature is. -/
def Honest (log : List ResumeStep) (call : Key × Bytes) : Prop :=
  (∃ r, .requested r ∈ log ∧ call.2 = r.transcript.flatten ∧ r.proof = r.computeProof P call.1)
    ∨ ∃ (r : ResumeRequest) (response : ResumeResponse), .answered r response.nextExpected ∈ log
        ∧ call.2 = (response.transcript r).flatten

structure Inv (t : Takeover) : Prop where
  agreed : Justified Agreed t.log
  signed : ∀ call ∈ t.signed, Honest P t.log call
  waiting : ∀ w ∈ t.waiting, .requested w.1 ∈ t.log ∧ ∀ position, .resumed w.1 position ∉ t.log
  apart : (t.waiting.map fun w => w.1.clientRandom).Nodup

variable {P}

theorem inv_start : start.Inv P where
  agreed := justified_nil _
  signed _ h := by cases h
  waiting _ h := by cases h
  apart := List.nodup_nil

theorem Honest.older {log : List ResumeStep} {call : Key × Bytes} (h : Honest P log call)
    (s : ResumeStep) : Honest P (log ++ [s]) call := by
  rcases h with ⟨r, hr, hcall⟩ | ⟨r, response, hr, hcall⟩
  · exact Or.inl ⟨r, List.mem_append_left _ hr, hcall⟩
  · exact Or.inr ⟨r, response, List.mem_append_left _ hr, hcall⟩

/-- What the log has on record was justified when it was recorded. -/
theorem agreed_of_mem {log : List ResumeStep} (h : Justified Agreed log) {s : ResumeStep}
    (hs : s ∈ log) : ∃ older, older <+: log ∧ Agreed older s := by
  obtain ⟨older, newer, rfl⟩ := List.append_of_mem hs
  refine ⟨older, List.prefix_append .., h older s ?_⟩
  exact ⟨newer, by rw [List.append_assoc, List.singleton_append]⟩

theorem requested_of_answered {log : List ResumeStep} (h : Justified Agreed log)
    {r : ResumeRequest} {position : UInt64} (hr : .answered r position ∈ log) :
    .requested r ∈ log := by
  obtain ⟨older, hpre, hagreed⟩ := agreed_of_mem h hr
  exact hpre.subset hagreed

/-- A request is recognised by its random. -/
theorem requested_unique {log : List ResumeStep} (h : Justified Agreed log) {r r' : ResumeRequest}
    (hr : .requested r ∈ log) (hr' : .requested r' ∈ log)
    (heq : r.clientRandom = r'.clientRandom) : r = r' := by
  induction log using List.reverseRecOn with
  | nil => cases hr
  | append_singleton log s ih =>
      obtain ⟨hbefore, hlast⟩ := justified_concat.mp h
      rcases List.mem_append.mp hr with hold | hnew
      · rcases List.mem_append.mp hr' with hold' | hnew'
        · exact ih hbefore hold hold'
        · rw [← List.mem_singleton.mp hnew'] at hlast
          exact absurd heq (hlast r hold)
      · rw [← List.mem_singleton.mp hnew] at hlast
        rcases List.mem_append.mp hr' with hold' | hnew'
        · exact absurd heq.symm (hlast r' hold')
        · exact ResumeStep.requested.inj
            ((List.mem_singleton.mp hnew).trans (List.mem_singleton.mp hnew').symm)

/-- A request that verifies and was not forged is one that was made. -/
theorem requested_of_signed {log : List ResumeStep} {r : ResumeRequest} {key : Key}
    (hproof : r.proof = r.computeProof P key)
    (h : Honest P log (key, r.transcript.flatten)) : .requested r ∈ log := by
  rcases h with ⟨made, hmade, hsame, hmac⟩ | ⟨answered, response, -, hsame⟩
  · obtain ⟨hid, htime, hrandom, hnext⟩ := ResumeRequest.transcript_inj.mp hsame
    have hproof' : r.proof = made.proof := by
      rw [hproof, hmac, ResumeRequest.computeProof_eq, ResumeRequest.computeProof_eq, ← hsame]
    cases r
    cases made
    dsimp only at hid htime hrandom hnext hproof'
    subst hid htime hrandom hnext hproof'
    exact hmade
  · exact absurd hsame (transcript_ne r response answered)

/-- A response that verifies and was not forged is the server's, to the
request it is read for. -/
theorem answered_of_signed {log : List ResumeStep} (hagreed : Justified Agreed log)
    {request : ResumeRequest} {response : ResumeResponse} {key : Key}
    (hrequest : .requested request ∈ log)
    (h : Honest P log (key, (response.transcript request).flatten)) :
    .answered request response.nextExpected ∈ log := by
  rcases h with ⟨made, -, hsame, -⟩ | ⟨answered, sent, hsent, hsame⟩
  · exact absurd hsame.symm (transcript_ne made response request)
  · obtain ⟨hrandom, -, -, hnext⟩ := ResumeResponse.transcript_inj.mp hsame
    obtain rfl := requested_unique hagreed hrequest (requested_of_answered hagreed hsent) hrandom
    exact hnext ▸ hsent

theorem readResumeResponse_eq_ok {request : ResumeRequest} {keys : SessionKeys} {data : Bytes}
    {position : UInt64} (h : readResumeResponse P request keys data = .ok position) :
    ∃ response, responseOf P data = some response
      ∧ response.verify P request keys = .ok true ∧ response.nextExpected = position := by
  unfold readResumeResponse at h
  split at h
  · cases h
  obtain ⟨header, -, h⟩ := bind_eq_ok.mp h
  split at h
  · cases h
  obtain ⟨chunk, hchunk, h⟩ := bind_eq_ok.mp h
  obtain ⟨response, hresponse, h⟩ := bind_eq_ok.mp h
  obtain ⟨verified, hverified, h⟩ := bind_eq_ok.mp h
  rw [mapError_eq_ok] at hchunk hresponse hverified
  cases verified with
  | false => cases h
  | true =>
      refine ⟨response, ?_, hverified, ?_⟩
      · simp only [responseOf, hchunk, hresponse]
        rfl
      · cases hstatus : response.status with
        | ok =>
            rw [hstatus] at h
            exact Except.ok.inj h
        | _ =>
            rw [hstatus] at h
            cases h

theorem answer_eq_some {registry : SessionRegistry} {bytes : Bytes} {now : UInt64}
    {serverRandom : ByteArr 32} {request : ResumeRequest} {response : ResumeResponse} {key : Key}
    (h : answer P registry bytes now serverRandom = some (request, response, key)) :
    requestOf P bytes = some request ∧ ∃ entry, registry request.sessionId = some entry
      ∧ deriveResumptionKey P entry.keys = .ok key ∧ request.proof = request.computeProof P key
      ∧ response.nextExpected = entry.recvBuffer.nextExpected := by
  unfold answer at h
  split at h
  · cases h
  · rename_i r entry hcheck
    split at h
    · rename_i k resp hkey hnew
      obtain ⟨rfl, hrest⟩ := Prod.mk.inj (Option.some.inj h)
      obtain ⟨rfl, rfl⟩ := Prod.mk.inj hrest
      obtain ⟨hreq, hentry, hverify⟩ := checkResume_eq_ok.mp hcheck
      obtain ⟨k', -, hbuilt⟩ := bind_eq_ok.mp hnew
      obtain rfl := Except.ok.inj hbuilt
      refine ⟨hreq, entry, hentry, hkey, ?_, rfl⟩
      exact ((ResumeRequest.verify_eq_ok hkey r now).mp hverify).2.symm
    · cases h

/-! ## The invariant -/

/-- A step that adds nothing to the record. -/
theorem Inv.quiet {t t' : Takeover} (h : t.Inv P) (hlog : t'.log = t.log)
    (hsigned : t'.signed = t.signed) (hwaiting : t'.waiting.Sublist t.waiting) : t'.Inv P where
  agreed := hlog ▸ h.agreed
  signed call hcall := hlog ▸ h.signed call (hsigned ▸ hcall)
  waiting w hw := hlog ▸ h.waiting w (hwaiting.subset hw)
  apart := (hwaiting.map _).nodup h.apart

theorem inv_request {t t' : Takeover} (h : t.Inv P) {id : SessionId} {keys : SessionKeys}
    {nextExpected now : UInt64} {random : ByteArr 32}
    (hstep : t.step P (.request id keys nextExpected now random) = some t') : t'.Inv P := by
  simp only [step] at hstep
  split at hstep
  swap
  · cases hstep
  rename_i hguard
  split at hstep
  · rename_i key request frame hkey hrequest
    obtain rfl := Option.some.inj hstep
    obtain ⟨r, hnew, hframe⟩ := bind_eq_ok.mp hrequest
    obtain ⟨f, -, hpair⟩ := bind_eq_ok.mp hframe
    obtain ⟨rfl, rfl⟩ := Prod.mk.inj (Except.ok.inj hpair)
    obtain ⟨⟨key', hkey', hproof⟩, -, -, hrandom, -⟩ := ResumeRequest.signed_of_new hnew
    obtain rfl := Except.ok.inj (hkey.symm.trans hkey')
    have hfresh : ∀ r', .requested r' ∈ t.log → r'.clientRandom ≠ r.clientRandom := by
      intro r' hr' heq
      exact hguard.2 (List.mem_filterMap.mpr ⟨_, hr', congrArg some (heq.trans hrandom)⟩)
    refine ⟨justified_concat.mpr ⟨h.agreed, hfresh⟩, fun call hcall => ?_, fun w hw => ?_, ?_⟩
    · rcases List.mem_append.mp hcall with hcall | hcall
      · exact (h.signed call hcall).older _
      · obtain rfl := List.mem_singleton.mp hcall
        exact Or.inl ⟨r, List.mem_append_right _ List.mem_cons_self, rfl, hproof⟩
    · rcases List.mem_append.mp hw with hw | hw
      · obtain ⟨hmem, hnot⟩ := h.waiting w hw
        refine ⟨List.mem_append_left _ hmem, fun position hlog => ?_⟩
        rcases List.mem_append.mp hlog with hlog | hlog
        · exact hnot position hlog
        · exact ResumeStep.noConfusion (List.mem_singleton.mp hlog)
      · obtain rfl := List.mem_singleton.mp hw
        refine ⟨List.mem_append_right _ List.mem_cons_self, fun position hlog => ?_⟩
        rcases List.mem_append.mp hlog with hlog | hlog
        · obtain ⟨older, hpre, hagreed⟩ := agreed_of_mem h.agreed hlog
          have hasked := requested_of_answered h.agreed (hpre.subset hagreed.1)
          exact hfresh r hasked rfl
        · exact ResumeStep.noConfusion (List.mem_singleton.mp hlog)
    · rw [List.map_append, List.map_singleton]
      refine List.nodup_append.mpr ⟨h.apart, List.nodup_singleton _, ?_⟩
      rintro x hx y hy rfl
      obtain ⟨w, hw, hsame⟩ := List.mem_map.mp hx
      exact hfresh w.1 (h.waiting w hw).1 (hsame.trans (List.mem_singleton.mp hy))
  · obtain rfl := Option.some.inj hstep
    exact h

theorem inv_first {t t' : Takeover} (h : t.Inv P) {bytes : Bytes} {now : UInt64}
    {serverRandom : ByteArr 32} {sent : Bool}
    (hunforged : t.Unforged P (.first bytes now serverRandom sent))
    (hstep : t.step P (.first bytes now serverRandom sent) = some t') : t'.Inv P := by
  simp only [step] at hstep
  split at hstep
  swap
  · obtain rfl := Option.some.inj hstep
    exact h
  split at hstep
  · obtain rfl := Option.some.inj hstep
    exact h.quiet rfl rfl (List.Sublist.refl _)
  · rename_i request response key hanswer
    obtain rfl := Option.some.inj hstep
    obtain ⟨hreq, entry, hentry, hkey, hproof, -⟩ := answer_eq_some hanswer
    have hsigned := hunforged request hreq entry hentry key (by rw [hkey]; rfl) hproof
    have hasked := requested_of_signed hproof (h.signed _ hsigned)
    refine ⟨justified_concat.mpr ⟨h.agreed, hasked⟩, fun call hcall => ?_, fun w hw => ?_,
      h.apart⟩
    · rcases List.mem_append.mp hcall with hcall | hcall
      · exact (h.signed call hcall).older _
      · obtain rfl := List.mem_singleton.mp hcall
        exact Or.inr ⟨request, response, List.mem_append_right _ List.mem_cons_self, rfl⟩
    · obtain ⟨hmem, hnot⟩ := h.waiting w hw
      refine ⟨List.mem_append_left _ hmem, fun position hlog => ?_⟩
      rcases List.mem_append.mp hlog with hlog | hlog
      · exact hnot position hlog
      · exact ResumeStep.noConfusion (List.mem_singleton.mp hlog)

theorem inv_response {t t' : Takeover} (h : t.Inv P) {i : Nat} {data : Bytes}
    (hunforged : t.Unforged P (.response i data))
    (hstep : t.step P (.response i data) = some t') : t'.Inv P := by
  obtain ⟨⟨request, keys⟩, hi, hstep⟩ := Option.map_eq_some_iff.mp hstep
  obtain ⟨hasked, hnot⟩ := h.waiting _ (List.mem_of_getElem? hi)
  dsimp only at hstep
  split at hstep
  · subst hstep
    exact h.quiet rfl rfl (List.eraseIdx_sublist _ _)
  · rename_i position hread
    subst hstep
    obtain ⟨response, hresponse, hverify, rfl⟩ := readResumeResponse_eq_ok hread
    obtain ⟨key, hkey, -⟩ := bind_eq_ok.mp hverify
    have hproof := ((ResumeResponse.verify_eq_true hkey response request).mp hverify).symm
    have hsigned := hunforged _ hi response hresponse key (by rw [hkey]; rfl) hproof
    have hanswered := answered_of_signed h.agreed hasked (h.signed _ hsigned)
    refine ⟨justified_concat.mpr ⟨h.agreed, hanswered, hnot⟩,
      fun call hcall => (h.signed call hcall).older _, fun w hw => ?_, ?_⟩
    · obtain ⟨j, hj, hw⟩ := List.mem_eraseIdx_iff_getElem?.mp hw
      obtain ⟨hmem, hopen⟩ := h.waiting w (List.mem_of_getElem? hw)
      refine ⟨List.mem_append_left _ hmem, fun position hlog => ?_⟩
      rcases List.mem_append.mp hlog with hlog | hlog
      · exact hopen position hlog
      · obtain ⟨hsame, -⟩ := ResumeStep.resumed.inj (List.mem_singleton.mp hlog)
        have hbound := (List.getElem?_eq_some_iff.mp hw).1
        refine hj ((List.getElem?_inj (by rwa [List.length_map]) h.apart).mp ?_)
        rw [List.getElem?_map, List.getElem?_map, hw, hi, Option.map_some, Option.map_some, hsame]
    · exact ((List.eraseIdx_sublist _ _).map _).nodup h.apart

theorem Inv.step {t t' : Takeover} {e : Event} (h : t.Inv P) (hunforged : t.Unforged P e)
    (hstep : t.step P e = some t') : t'.Inv P := by
  cases e with
  | establish id keys =>
      simp only [Takeover.step] at hstep
      split at hstep
      · cases hstep
      · obtain rfl := Option.some.inj hstep
        exact h.quiet rfl rfl (List.Sublist.refl _)
  | reap id =>
      obtain rfl := Option.some.inj hstep
      exact h.quiet rfl rfl (List.Sublist.refl _)
  | data id sequence payload =>
      obtain ⟨entry, -, rfl⟩ := Option.map_eq_some_iff.mp hstep
      split
      · exact h
      · exact h.quiet rfl rfl (List.Sublist.refl _)
  | replies id sendBuffer =>
      obtain ⟨entry, -, rfl⟩ := Option.map_eq_some_iff.mp hstep
      exact h.quiet rfl rfl (List.Sublist.refl _)
  | request id keys nextExpected now random => exact inv_request h hstep
  | first bytes now serverRandom sent => exact inv_first h hunforged hstep
  | response i data => exact inv_response h hunforged hstep

/-! ## The server's position -/

structure Reached (t : Takeover) : Prop where
  issued : ∀ r, .requested r ∈ t.log → r.sessionId ∈ t.issued.map Prod.fst
  low : ∀ id entry, t.registry id = some entry → entry.recvBuffer.Low
  seen : ∀ r position, .answered r position ∈ t.log →
    ∀ entry, t.registry r.sessionId = some entry → ∀ s < position, entry.recvBuffer.Seen s

theorem reached_start : start.Reached where
  issued _ h := by cases h
  low _ _ h := by cases h
  seen _ _ h := by cases h

/-- An entry whose buffer has seen at least what the one before it had. -/
def Follows (t : Takeover) (id : SessionId) (entry : SessionEntry) : Prop :=
  ∃ before, t.registry id = some before ∧ entry.recvBuffer.Low
    ∧ ∀ s, before.recvBuffer.Seen s → entry.recvBuffer.Seen s

theorem Reached.follows {t t' : Takeover} (h : t.Reached) (hissued : t'.issued = t.issued)
    (hregistry : ∀ id entry, t'.registry id = some entry → t.Follows id entry)
    (hasked : ∀ r, .requested r ∈ t'.log → r.sessionId ∈ t.issued.map Prod.fst)
    (hanswered : ∀ r position, .answered r position ∈ t'.log → .answered r position ∈ t.log
      ∨ ∃ entry, t.registry r.sessionId = some entry
        ∧ position = entry.recvBuffer.nextExpected) : t'.Reached where
  issued r hr := hissued ▸ hasked r hr
  low id entry hentry := by
    obtain ⟨-, -, hlow, -⟩ := hregistry id entry hentry
    exact hlow
  seen r position hr entry hentry s hs := by
    obtain ⟨before, hbefore, -, hmono⟩ := hregistry _ entry hentry
    refine hmono s ?_
    rcases hanswered r position hr with hold | ⟨found, hfound, rfl⟩
    · exact h.seen r position hold before hbefore s hs
    · obtain rfl := Option.some.inj (hbefore.symm.trans hfound)
      exact Or.inl hs

theorem Follows.refl {t : Takeover} (h : t.Reached) {id : SessionId} {entry : SessionEntry}
    (hentry : t.registry id = some entry) : t.Follows id entry :=
  ⟨entry, hentry, h.low id entry hentry, fun _ hs => hs⟩

theorem Follows.replies {t : Takeover} (h : t.Reached) {id : SessionId} {entry : SessionEntry}
    (hentry : t.registry id = some entry) (sendBuffer : SendBuffer) :
    t.Follows id { entry with sendBuffer } :=
  ⟨entry, hentry, h.low id entry hentry, fun _ hs => hs⟩

/-- One entry is replaced. -/
theorem Follows.update {t : Takeover} (h : t.Reached) {id : SessionId} {new : SessionEntry}
    (hnew : t.Follows id new) {id' : SessionId} {entry : SessionEntry}
    (hentry : Function.update t.registry id (some new) id' = some entry) : t.Follows id' entry := by
  by_cases hid : id' = id
  · subst hid
    rw [Function.update_self] at hentry
    exact Option.some.inj hentry ▸ hnew
  · rw [Function.update_of_ne hid] at hentry
    exact .refl h hentry

theorem Reached.acceptResume {t : Takeover} (h : t.Reached) {bytes : Bytes} {now : UInt64}
    {serverRandom : ByteArr 32} {sent : Bool} {id : SessionId} {entry : SessionEntry}
    (hentry : (acceptResume P t.registry bytes now serverRandom sent).1 id = some entry) :
    t.Follows id entry := by
  unfold Kanrin.acceptResume at hentry
  split at hentry
  · exact .refl h hentry
  · rename_i request found hcheck
    obtain ⟨-, hfound, -⟩ := checkResume_eq_ok.mp hcheck
    exact Follows.update h (.replies h hfound _) hentry

theorem Reached.step {t t' : Takeover} {e : Event} (h : t.Reached) (hunforged : t.Unforged P e)
    (hinv : t.Inv P) (hstep : t.step P e = some t') : t'.Reached := by
  cases e with
  | establish id keys =>
      simp only [Takeover.step] at hstep
      split at hstep
      · cases hstep
      rename_i hfresh
      obtain rfl := Option.some.inj hstep
      refine ⟨fun r hr => ?_, fun id' entry hentry => ?_, fun r position hr entry hentry => ?_⟩
      · rw [List.map_append]
        exact List.mem_append_left _ (h.issued r hr)
      · by_cases hid : id' = id
        · subst hid
          simp only [Function.update_self, Option.some.injEq] at hentry
          subst hentry
          intro s hs
          cases hs
        · simp only [Function.update_of_ne hid] at hentry
          exact h.low id' entry hentry
      · have hissued := h.issued r (requested_of_answered hinv.agreed hr)
        have hne : r.sessionId ≠ id := fun heq => hfresh (heq ▸ hissued)
        simp only [Function.update_of_ne hne] at hentry
        exact h.seen r position hr entry hentry
  | reap id =>
      obtain rfl := Option.some.inj hstep
      refine h.follows rfl (fun id' entry hentry => ?_) h.issued fun _ _ hr => Or.inl hr
      by_cases hid : id' = id
      · subst hid
        simp only [Function.update_self] at hentry
        cases hentry
      · simp only [Function.update_of_ne hid] at hentry
        exact .refl h hentry
  | data id sequence payload =>
      obtain ⟨entry, hentry, rfl⟩ := Option.map_eq_some_iff.mp hstep
      split
      · exact h
      · rename_i outcome buffer haccept
        obtain ⟨hlow, hseen⟩ := ReceiveBuffer.seen_accept (h.low id entry hentry) hunforged haccept
        refine h.follows rfl (fun id' entry' hentry' => ?_) h.issued fun _ _ hr => Or.inl hr
        exact Follows.update h ⟨entry, hentry, hlow, fun s hs => (hseen s).mpr (Or.inr hs)⟩ hentry'
  | replies id sendBuffer =>
      obtain ⟨entry, hentry, rfl⟩ := Option.map_eq_some_iff.mp hstep
      refine h.follows rfl (fun id' entry' hentry' => ?_) h.issued fun _ _ hr => Or.inl hr
      exact Follows.update h (.replies h hentry sendBuffer) hentry'
  | request id keys nextExpected now random =>
      simp only [Takeover.step] at hstep
      split at hstep
      swap
      · cases hstep
      rename_i hguard
      split at hstep
      · rename_i key request frame hkey hrequest
        obtain rfl := Option.some.inj hstep
        obtain ⟨r, hnew, hframe⟩ := bind_eq_ok.mp hrequest
        obtain ⟨f, -, hpair⟩ := bind_eq_ok.mp hframe
        obtain ⟨rfl, rfl⟩ := Prod.mk.inj (Except.ok.inj hpair)
        obtain ⟨-, hid, -⟩ := ResumeRequest.signed_of_new hnew
        refine h.follows rfl (fun _ _ hentry => .refl h hentry) (fun r' hr' => ?_)
          fun r' position hr' => ?_
        · rcases List.mem_append.mp hr' with hold | hlast
          · exact h.issued r' hold
          · obtain rfl := ResumeStep.requested.inj (List.mem_singleton.mp hlast)
            exact hid ▸ List.mem_map_of_mem hguard.1
        · refine Or.inl ((List.mem_append.mp hr').resolve_right fun hlast => ?_)
          exact ResumeStep.noConfusion (List.mem_singleton.mp hlast)
      · obtain rfl := Option.some.inj hstep
        exact h
  | first bytes now serverRandom sent =>
      simp only [Takeover.step] at hstep
      split at hstep
      swap
      · obtain rfl := Option.some.inj hstep
        exact h
      split at hstep
      · obtain rfl := Option.some.inj hstep
        exact h.follows rfl (fun _ _ hentry => h.acceptResume hentry) h.issued
          fun _ _ hr => Or.inl hr
      · rename_i request response key hanswer
        obtain rfl := Option.some.inj hstep
        obtain ⟨-, found, hfound, -, -, hposition⟩ := answer_eq_some hanswer
        refine h.follows rfl (fun _ _ hentry => h.acceptResume hentry) (fun r hr => ?_)
          fun r position hr => ?_
        · refine h.issued r ((List.mem_append.mp hr).resolve_right fun hlast => ?_)
          exact ResumeStep.noConfusion (List.mem_singleton.mp hlast)
        · refine (List.mem_append.mp hr).imp_right fun hlast => ?_
          obtain ⟨rfl, rfl⟩ := ResumeStep.answered.inj (List.mem_singleton.mp hlast)
          exact ⟨found, hfound, hposition⟩
  | response i data =>
      obtain ⟨⟨request, keys⟩, hi, hstep⟩ := Option.map_eq_some_iff.mp hstep
      dsimp only at hstep
      split at hstep
      · subst hstep
        exact h.follows rfl (fun _ _ hentry => .refl h hentry) h.issued fun _ _ hr => Or.inl hr
      · subst hstep
        refine h.follows rfl (fun _ _ hentry => .refl h hentry) (fun r hr => ?_)
          fun r position hr => Or.inl ((List.mem_append.mp hr).resolve_right fun hlast => ?_)
        · refine h.issued r ((List.mem_append.mp hr).resolve_right fun hlast => ?_)
          exact ResumeStep.noConfusion (List.mem_singleton.mp hlast)
        · exact ResumeStep.noConfusion (List.mem_singleton.mp hlast)

theorem received_of_reached {t : Takeover} (hinv : t.Inv P) (h : t.Reached) : t.Received := by
  intro r position hr entry hentry s hs
  obtain ⟨older, hpre, hanswered, -⟩ := agreed_of_mem hinv.agreed hr
  exact h.seen r position (hpre.subset hanswered) entry hentry s hs

/-- However requests and responses are delayed, repeated, reordered, altered
or made up: a session is taken up only at its client's request, what the
client takes for the server's position is the server's answer to that, and
the server has everything below it. -/
theorem takeover_agreed (es : List Event) (h : Meets (step P) (Unforged P) start es) :
    Always (step P) (fun t => Justified Agreed t.log ∧ t.Received) start es := by
  refine (always_of_meets (I := fun t => t.Inv P ∧ t.Reached)
    (fun t e t' hboth hunforged hstep => ?_) ⟨inv_start, reached_start⟩ h).mono
    fun t hboth => ⟨hboth.1.agreed, received_of_reached hboth.1 hboth.2⟩
  exact ⟨hboth.1.step hunforged hstep, hboth.2.step hunforged hboth.1 hstep⟩

/-! ## A contested session -/

def sampleRequest : ResumeRequest :=
  let r : ResumeRequest := ⟨zeroArr 16, 100, zeroArr 32, 7, zeroArr 32⟩
  { r with proof := r.computeProof .plain plainResumptionKey }

def sampleResponse (position : UInt64) : ResumeResponse :=
  let r : ResumeResponse := ⟨.ok, zeroArr 32, position, zeroArr 32⟩
  { r with proof := r.computeProof .plain plainResumptionKey sampleRequest }

def sampleFrame (payload : Bytes) : Bytes := (resumeFrame .plain payload).toOption.getD []

/-- The network tries the request with another position first, and then
offers the client's own twice. -/
def contested : List Event :=
  [.establish (zeroArr 16) plainKeys, .data (zeroArr 16) 0 [0x45],
    .request (zeroArr 16) plainKeys 7 100 (zeroArr 32),
    .first (sampleFrame { sampleRequest with nextExpected := 9 }.encode) 100 (zeroArr 32) true,
    .first (sampleFrame sampleRequest.encode) 110 (zeroArr 32) true,
    .first (sampleFrame sampleRequest.encode) 120 (zeroArr 32) true,
    .response 0 (sampleFrame (sampleResponse 1).encode)]

theorem takeover_agreed_contested :
    Always (step .plain) (fun t => Justified Agreed t.log ∧ t.Received) start contested
      ∧ (exec (step .plain) start contested).map Takeover.log
        = some [.requested sampleRequest, .answered sampleRequest 1, .answered sampleRequest 1,
          .resumed sampleRequest 1] :=
  ⟨takeover_agreed _ (by decide +kernel), by decide +kernel⟩

end Takeover

end Kanrin
