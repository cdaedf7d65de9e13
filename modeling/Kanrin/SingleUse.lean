import Kanrin.Lib.Run
import Kanrin.Resume

/-!
# Spending a resume request

A server, the sessions it has registered, and a network that keeps every
frame it has carried and may offer any of them as the first frame of any
later connection. Session ids and client randoms are random draws that do
not repeat; clock readings, losses, the reaper and the traffic of the
sessions are events.

The server remembers nothing about the requests it has accepted. So a
request is accepted once more whenever it is offered while its session is
registered and its timestamp within the drift, and single use comes down
to that not happening (`single_use_iff`).
-/

namespace Kanrin

open Lib

structure Resumption where
  registry : SessionRegistry
  issued : List (SessionId × SessionKeys)
  minted : List ResumeRequest
  carried : List Bytes
  /-- The `client_random` of every request that was accepted, in order. -/
  accepted : List (ByteArr 32)

namespace Resumption

inductive Event where
  /-- `accept_new` inserts an entry. -/
  | establish (id : SessionId) (keys : SessionKeys)
  /-- The reaper drops an entry. -/
  | reap (id : SessionId)
  /-- Data and acknowledgements move a session's buffers. -/
  | traffic (id : SessionId) (sendBuffer : SendBuffer) (recvBuffer : ReceiveBuffer)
  /-- A client signs and sends a request for a session it holds. -/
  | mint (id : SessionId) (keys : SessionKeys) (nextExpected now : UInt64) (random : ByteArr 32)
  /-- The network carries a chunk of another type. -/
  | carry (frame : Bytes)
  /-- A connection opens with the `i`th frame carried so far. -/
  | present (i : Nat) (now : UInt64) (serverRandom : ByteArr 32) (sent : Bool)

def start : Resumption where
  registry _ := none
  issued := []
  minted := []
  carried := []
  accepted := []

variable (P : Primitives)

def step (t : Resumption) : Event → Option Resumption
  | .establish id keys =>
      if id ∈ t.issued.map Prod.fst then none
      else some { t with
        registry := Function.update t.registry id (some (.new keys))
        issued := t.issued ++ [(id, keys)] }
  | .reap id => some { t with registry := Function.update t.registry id none }
  | .traffic id sendBuffer recvBuffer =>
      (t.registry id).map fun entry =>
        { t with registry :=
            Function.update t.registry id (some { entry with sendBuffer, recvBuffer }) }
  | .mint id keys nextExpected now random =>
      if (id, keys) ∈ t.issued ∧ random ∉ t.minted.map ResumeRequest.clientRandom then
        match resumeRequestFrame P id nextExpected keys now random with
        | .ok (request, frame) =>
            some { t with minted := t.minted ++ [request], carried := t.carried ++ [frame] }
        | .error _ => none
      else none
  | .carry frame =>
      match firstChunkType frame with
      | .ok .resume => none
      | _ => some { t with carried := t.carried ++ [frame] }
  | .present i now serverRandom sent =>
      t.carried[i]?.map fun first =>
        match firstChunkType first with
        | .ok .resume =>
            match acceptResume P t.registry first now serverRandom sent with
            | (registry, .ok (request, response)) =>
                { t with
                  registry
                  carried := t.carried ++ [response]
                  accepted := t.accepted ++ [request.clientRandom] }
            | (registry, .error _) => { t with registry }
        -- a handshake chunk starts a new session, anything else ends the connection
        | _ => t

/-- Each request minted so far has been accepted at most once. -/
def SingleUse (t : Resumption) : Prop :=
  ∀ r ∈ t.minted, t.accepted.count r.clientRandom ≤ 1

instance (t : Resumption) : Decidable t.SingleUse := inferInstanceAs (Decidable (∀ _ ∈ _, _))

/-- An accepted request is not offered again while its session is
registered and its timestamp within the drift, on a connection that takes
the response. -/
def NotReoffered (t : Resumption) : Event → Prop
  | .present i now _ sent =>
      ∀ first r, t.carried[i]? = some first → firstChunkType first = .ok .resume →
        requestOf P first = some r → r.clientRandom ∈ t.accepted →
          ¬ (t.registry r.sessionId ≠ none ∧ absDiff now r.timestamp ≤ maxResumeDriftSecs
            ∧ sent = true)
  | _ => True

/-! ## What the network carries -/

/-- A frame opens a resumption only when it is a request that was minted
for a session the server issued. -/
def Genuine (t : Resumption) (first : Bytes) : Prop :=
  firstChunkType first = .ok .resume → ∀ r, requestOf P first = some r →
    r ∈ t.minted ∧ ∃ keys, (r.sessionId, keys) ∈ t.issued ∧ r.Signed P keys

structure Inv (t : Resumption) : Prop where
  issued : (t.issued.map Prod.fst).Nodup
  registered : ∀ id entry, t.registry id = some entry → (id, entry.keys) ∈ t.issued
  genuine : ∀ first ∈ t.carried, t.Genuine P first
  accepted : ∀ x ∈ t.accepted, x ∈ t.minted.map ResumeRequest.clientRandom

variable {P}

theorem inv_start : start.Inv P where
  issued := List.nodup_nil
  registered _ _ h := by cases h
  genuine _ h := by cases h
  accepted _ h := by cases h

theorem Genuine.mono {t t' : Resumption} {first : Bytes} (h : t.Genuine P first)
    (hminted : ∀ r ∈ t.minted, r ∈ t'.minted) (hissued : ∀ x ∈ t.issued, x ∈ t'.issued) :
    t'.Genuine P first := by
  intro htype r hr
  obtain ⟨hmem, keys, hkeys, hsigned⟩ := h htype r hr
  exact ⟨hminted r hmem, keys, hissued _ hkeys, hsigned⟩

/-- The keys a session is registered with are those of its requests. -/
theorem Inv.signed {t : Resumption} (h : t.Inv P) {r : ResumeRequest} {keys : SessionKeys}
    (hissued : (r.sessionId, keys) ∈ t.issued) (hsigned : r.Signed P keys) (entry : SessionEntry)
    (hentry : t.registry r.sessionId = some entry) : r.Signed P entry.keys := by
  have hmem := h.registered _ _ hentry
  have hkeys := List.inj_on_of_nodup_map h.issued hissued hmem rfl
  obtain rfl := (Prod.mk.inj hkeys).2
  exact hsigned

/-- A registry that only loses entries, or keeps their keys, stays within
the sessions issued. -/
theorem Inv.withRegistry {t : Resumption} (h : t.Inv P) {registry : SessionRegistry}
    (hkeys : ∀ id entry, registry id = some entry →
      ∃ before, t.registry id = some before ∧ before.keys = entry.keys) :
    Inv P { t with registry } where
  issued := h.issued
  registered id entry hentry := by
    obtain ⟨before, hbefore, heq⟩ := hkeys id entry hentry
    exact heq ▸ h.registered id before hbefore
  genuine := h.genuine
  accepted := h.accepted

theorem inv_establish {t t' : Resumption} (h : t.Inv P) {id : SessionId} {keys : SessionKeys}
    (hstep : t.step P (.establish id keys) = some t') : t'.Inv P := by
  simp only [step] at hstep
  split at hstep
  · cases hstep
  rename_i hfresh
  obtain rfl := Option.some.inj hstep
  refine ⟨?_, fun id' entry hentry => ?_, fun first hfirst => ?_, h.accepted⟩
  · rw [List.map_append]
    refine List.nodup_append.mpr ⟨h.issued, List.nodup_singleton _, fun x hx y hy heq => ?_⟩
    rw [List.map_singleton, List.mem_singleton] at hy
    rw [heq, hy] at hx
    exact hfresh hx
  · by_cases hid : id' = id
    · subst hid
      simp only [Function.update_self, Option.some.injEq] at hentry
      subst hentry
      exact List.mem_append_right _ List.mem_cons_self
    · simp only [Function.update_of_ne hid] at hentry
      exact List.mem_append_left _ (h.registered id' entry hentry)
  · exact (h.genuine first hfirst).mono (fun _ hr => hr) fun x hx => List.mem_append_left _ hx

theorem inv_mint (hP : P.Lawful) {t t' : Resumption} (h : t.Inv P) {id : SessionId}
    {keys : SessionKeys} {next now : UInt64} {random : ByteArr 32}
    (hstep : t.step P (.mint id keys next now random) = some t') : t'.Inv P := by
  simp only [step] at hstep
  split at hstep
  swap
  · cases hstep
  rename_i hguard
  split at hstep
  swap
  · cases hstep
  rename_i request frame hmint
  obtain rfl := Option.some.inj hstep
  obtain ⟨r, hnew, hframe⟩ := bind_eq_ok.mp hmint
  obtain ⟨f, hf, hpair⟩ := bind_eq_ok.mp hframe
  obtain ⟨rfl, rfl⟩ := Prod.mk.inj (Except.ok.inj hpair)
  obtain ⟨hsigned, hid, -, -, -⟩ := ResumeRequest.signed_of_new hnew
  refine ⟨h.issued, h.registered, fun first hfirst => ?_, fun x hx => ?_⟩
  · rcases List.mem_append.mp hfirst with hfirst | hfirst
    · exact (h.genuine first hfirst).mono (fun _ hr => List.mem_append_left _ hr) fun _ hx => hx
    · obtain rfl := List.mem_singleton.mp hfirst
      intro _ r' hr'
      obtain rfl := Option.some.inj ((requestOf_request hP hf).symm.trans hr')
      exact ⟨List.mem_append_right _ List.mem_cons_self, keys, hid ▸ hguard.1, hsigned⟩
  · rw [List.map_append]
    exact List.mem_append_left _ (h.accepted x hx)

theorem inv_carry {t t' : Resumption} (h : t.Inv P) {frame : Bytes}
    (hstep : t.step P (.carry frame) = some t') : t'.Inv P := by
  simp only [step] at hstep
  split at hstep
  · cases hstep
  rename_i hother
  obtain rfl := Option.some.inj hstep
  refine ⟨h.issued, h.registered, fun first hfirst => ?_, h.accepted⟩
  rcases List.mem_append.mp hfirst with hfirst | hfirst
  · exact h.genuine first hfirst
  · obtain rfl := List.mem_singleton.mp hfirst
    exact fun htype => absurd htype hother

/-- What offering a frame can do: change buffers, or accept the request in
it and send a response. -/
theorem present_cases {t t' : Resumption} {i : Nat} {now : UInt64} {random : ByteArr 32}
    {sent : Bool} (hstep : t.step P (.present i now random sent) = some t') :
    ∃ first, t.carried[i]? = some first ∧
      ((t' = t ∧ firstChunkType first ≠ .ok .resume)
        ∨ (firstChunkType first = .ok .resume ∧ ∃ registry e,
            acceptResume P t.registry first now random sent = (registry, .error e)
              ∧ t' = { t with registry })
        ∨ (firstChunkType first = .ok .resume ∧ ∃ registry request response,
            acceptResume P t.registry first now random sent = (registry, .ok (request, response))
              ∧ t' = { t with
                  registry
                  carried := t.carried ++ [response]
                  accepted := t.accepted ++ [request.clientRandom] })) := by
  obtain ⟨first, hfirst, rfl⟩ := Option.map_eq_some_iff.mp hstep
  refine ⟨first, hfirst, ?_⟩
  split
  · rename_i htype
    cases haccept : acceptResume P t.registry first now random sent with
    | mk registry outcome =>
        cases outcome with
        | error e => exact Or.inr (Or.inl ⟨htype, registry, e, rfl, rfl⟩)
        | ok out => exact Or.inr (Or.inr ⟨htype, registry, out.1, out.2, rfl, rfl⟩)
  · rename_i hother
    exact Or.inl ⟨rfl, hother⟩

theorem inv_present (hP : P.Lawful) {t t' : Resumption} (h : t.Inv P) {i : Nat} {now : UInt64}
    {random : ByteArr 32} {sent : Bool}
    (hstep : t.step P (.present i now random sent) = some t') : t'.Inv P := by
  obtain ⟨first, hfirst, hcases⟩ := present_cases hstep
  rcases hcases with ⟨rfl, -⟩ | ⟨-, registry, e, haccept, rfl⟩
    | ⟨htype, registry, request, response, haccept, rfl⟩
  · exact h
  · refine h.withRegistry ?_
    intro id entry hentry
    exact keys_acceptResume (P := P) (by rw [haccept]; exact hentry)
  · obtain ⟨hreq, resp, hresp⟩ := acceptResume_eq_ok (congrArg Prod.snd haccept)
    have hkeys : Inv P { t with registry } := h.withRegistry fun id entry hentry =>
      keys_acceptResume (P := P) (by rw [haccept]; exact hentry)
    have hgenuine := h.genuine first (List.mem_of_getElem? hfirst) htype request hreq
    refine ⟨h.issued, hkeys.registered, fun f hf => ?_, fun x hx => ?_⟩
    · rcases List.mem_append.mp hf with hf | hf
      · exact (h.genuine f hf).mono (fun _ hr => hr) fun _ hx => hx
      · obtain rfl := List.mem_singleton.mp hf
        intro _ r hr
        rw [requestOf_response hP hresp] at hr
        cases hr
    · rcases List.mem_append.mp hx with hx | hx
      · exact h.accepted x hx
      · obtain rfl := List.mem_singleton.mp hx
        exact List.mem_map.mpr ⟨request, hgenuine.1, rfl⟩

theorem inv_step (hP : P.Lawful) {t t' : Resumption} (h : t.Inv P) {e : Event}
    (hstep : t.step P e = some t') : t'.Inv P := by
  cases e with
  | establish id keys => exact inv_establish h hstep
  | reap id =>
      obtain rfl := Option.some.inj hstep
      refine h.withRegistry ?_
      intro id' entry hentry
      by_cases hid : id' = id
      · subst hid
        simp at hentry
      · rw [Function.update_of_ne hid] at hentry
        exact ⟨entry, hentry, rfl⟩
  | traffic id sendBuffer recvBuffer =>
      obtain ⟨found, hfound, rfl⟩ := Option.map_eq_some_iff.mp hstep
      refine h.withRegistry ?_
      intro id' entry hentry
      by_cases hid : id' = id
      · subst hid
        simp only [Function.update_self, Option.some.injEq] at hentry
        exact ⟨found, hfound, by rw [← hentry]⟩
      · rw [Function.update_of_ne hid] at hentry
        exact ⟨entry, hentry, rfl⟩
  | mint id keys next now random => exact inv_mint hP h hstep
  | carry frame => exact inv_carry h hstep
  | present i now random sent => exact inv_present hP h hstep

/-! ## Single use -/

/-- A step that offers no frame adds nothing to what was accepted, and a
request it mints is new. -/
theorem singleUse_of_quiet {t t' : Resumption} (h : t.Inv P) {e : Event}
    (hstep : t.step P e = some t') (hquiet : ∀ i now random sent, e ≠ .present i now random sent)
    (hs : t.SingleUse) : t'.SingleUse := by
  cases e with
  | establish id keys =>
      simp only [step] at hstep
      split at hstep
      · cases hstep
      · obtain rfl := Option.some.inj hstep
        exact hs
  | reap id =>
      obtain rfl := Option.some.inj hstep
      exact hs
  | traffic id sendBuffer recvBuffer =>
      obtain ⟨found, -, rfl⟩ := Option.map_eq_some_iff.mp hstep
      exact hs
  | carry frame =>
      simp only [step] at hstep
      split at hstep
      · cases hstep
      · obtain rfl := Option.some.inj hstep
        exact hs
  | present i now random sent => exact absurd rfl (hquiet i now random sent)
  | mint id keys next now random =>
      simp only [step] at hstep
      split at hstep
      swap
      · cases hstep
      rename_i hguard
      split at hstep
      swap
      · cases hstep
      rename_i request frame hmint
      obtain rfl := Option.some.inj hstep
      obtain ⟨r, hnew, hframe⟩ := bind_eq_ok.mp hmint
      obtain ⟨f, -, hpair⟩ := bind_eq_ok.mp hframe
      obtain ⟨rfl, rfl⟩ := Prod.mk.inj (Except.ok.inj hpair)
      obtain ⟨-, -, -, hrandom, -⟩ := ResumeRequest.signed_of_new hnew
      intro r' hr'
      rcases List.mem_append.mp hr' with hr' | hr'
      · exact hs r' hr'
      · obtain rfl := List.mem_singleton.mp hr'
        have hnot : r'.clientRandom ∉ t.accepted := fun hmem =>
          hguard.2 (hrandom ▸ h.accepted _ hmem)
        rw [List.count_eq_zero_of_not_mem hnot]
        exact Nat.zero_le 1

/-- Offering a frame keeps single use exactly when the frame is not an
accepted request that would be accepted again. -/
theorem singleUse_present_iff (hS : P.SealsAll) {t t' : Resumption} (h : t.Inv P) {i : Nat}
    {now : UInt64} {random : ByteArr 32} {sent : Bool}
    (hstep : t.step P (.present i now random sent) = some t') (hs : t.SingleUse) :
    t'.SingleUse ↔ t.NotReoffered P (.present i now random sent) := by
  obtain ⟨first, hfirst, hcases⟩ := present_cases hstep
  have haccepts : ∀ r, firstChunkType first = .ok .resume → requestOf P first = some r →
      ((∃ frame, (acceptResume P t.registry first now random sent).2 = .ok (r, frame)) ↔
        t.registry r.sessionId ≠ none ∧ absDiff now r.timestamp ≤ maxResumeDriftSecs
          ∧ sent = true) := by
    intro r htype hr
    obtain ⟨-, keys, hissued, hsigned⟩ := h.genuine first (List.mem_of_getElem? hfirst) htype r hr
    exact acceptResume_iff hS hr (h.signed hissued hsigned)
  rcases hcases with ⟨rfl, hother⟩ | ⟨htype, registry, e, haccept, rfl⟩
    | ⟨htype, registry, request, response, haccept, rfl⟩
  · refine iff_of_true hs ?_
    intro first' r hfirst' htype'
    obtain rfl := Option.some.inj (hfirst.symm.trans hfirst')
    exact absurd htype' hother
  · refine iff_of_true hs ?_
    intro first' r hfirst' _ hr _ hwould
    obtain rfl := Option.some.inj (hfirst.symm.trans hfirst')
    obtain ⟨frame, hok⟩ := (haccepts r htype hr).mpr hwould
    rw [haccept] at hok
    cases hok
  · obtain ⟨hreq, -, -⟩ := acceptResume_eq_ok (congrArg Prod.snd haccept)
    have hwould := (haccepts request htype hreq).mp ⟨response, by rw [haccept]⟩
    have hminted := (h.genuine first (List.mem_of_getElem? hfirst) htype request hreq).1
    constructor
    · intro hs' first' r hfirst' _ hr hmem _
      obtain rfl := Option.some.inj (hfirst.symm.trans hfirst')
      obtain rfl := Option.some.inj (hreq.symm.trans hr)
      have hcount := hs' request hminted
      simp only [List.count_append, List.count_singleton_self] at hcount
      have := List.count_pos_iff.mpr hmem
      omega
    · intro hnot r hr
      have hnew : request.clientRandom ∉ t.accepted := fun hmem =>
        hnot first request hfirst htype hreq hmem hwould
      have hcount := hs r hr
      simp only [List.count_append]
      by_cases heq : r.clientRandom = request.clientRandom
      · rw [heq, List.count_eq_zero_of_not_mem hnew, List.count_singleton_self]
      · rw [List.count_singleton, if_neg (by simpa using Ne.symm heq)]
        omega

/-- In every run, each request is accepted at most once in every state
reached exactly when no accepted request is offered again in time. -/
theorem single_use_iff (hP : P.Lawful) (hS : P.SealsAll) (es : List Event) :
    Always (step P) SingleUse start es ↔ Meets (step P) (NotReoffered P) start es := by
  have hquiet : ∀ {t t' : Resumption} {e : Event}, t.Inv P → t.step P e = some t' →
      t.SingleUse → (t'.SingleUse ↔ t.NotReoffered P e) := by
    intro t t' e hinv hstep hs
    by_cases hp : ∃ i now random sent, e = .present i now random sent
    · obtain ⟨i, now, random, sent, rfl⟩ := hp
      exact singleUse_present_iff hS hinv hstep hs
    · push Not at hp
      refine iff_of_true (singleUse_of_quiet hinv hstep hp hs) ?_
      cases e with
      | present i now random sent => exact absurd rfl (hp i now random sent)
      | _ => trivial
  have hs0 : SingleUse start := fun r hr => by cases hr
  refine always_iff_meets (I := Inv P) (fun t e t' hinv hs ht => ?_) inv_start hs0
  exact ⟨hquiet hinv ht hs, fun _ => inv_step hP hinv ht⟩

/-- A session is established and its client asks to resume it. -/
def resumed : List Event :=
  [.establish (zeroArr 16) plainKeys, .mint (zeroArr 16) plainKeys 0 100 (zeroArr 32),
    .present 0 100 (zeroArr 32) true]

theorem single_use_iff_resumed : Always (step .plain) SingleUse start resumed := by
  refine (single_use_iff Primitives.plain_lawful Primitives.plain_sealsAll _).mpr ?_
  refine fun t1 h1 => ⟨trivial, fun t2 h2 => ⟨trivial, fun t3 h3 => ⟨?_, trivial⟩⟩⟩
  obtain rfl := Option.some.inj h1
  have hnone : t2.accepted = [] := by
    simp only [step] at h2
    split at h2
    · split at h2
      · obtain rfl := Option.some.inj h2
        rfl
      · cases h2
    · cases h2
  intro first r _ _ _ hmem
  rw [hnone] at hmem
  cases hmem

/-- The same frame opens a second connection, thirty seconds later. -/
def reoffered : List Event := resumed ++ [.present 0 130 (zeroArr 32) true]

theorem isSome_reoffered : (exec (step .plain) start reoffered).isSome := by
  decide +kernel

theorem request_accepted_twice :
    ∃ t, exec (step .plain) start reoffered = some t ∧ ¬ t.SingleUse :=
  ⟨Option.get _ isSome_reoffered, (Option.some_get isSome_reoffered).symm, by decide +kernel⟩

end Resumption

end Kanrin
