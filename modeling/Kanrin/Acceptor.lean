import Kanrin.Addresses
import Kanrin.Visitors

/-!
# The acceptor

The accept loop of the server's `main.rs` with the first request of every
connection it accepts: `ClientSession::run` up to the response. What the
connections hold of the server is `Leases`: before a connection gets a task
it is counted against `max_clients`, and a tunnel address is reserved for
it. Neither waits until the connection is known to be a tunnel.

A connection comes with everything its visitor sends, now or later. A task
that has read the first request answers it whatever becomes of the other
connections, so the only connections to go unanswered are those that the
accept loop drops (`all_answered_iff`). An error of the listener itself ends the
server, and with it every run. A task always gets its answer from the origin:
a `respond` that panics, which it does in a build with overflow checks only
(`OriginKind.exists_origin`), is not among the steps.
-/

namespace Kanrin

open Lib

/-! ## Who gets a task -/

namespace Leases

/-- The two checks of the accept loop. -/
def HasRoom (t : Leases) : Prop :=
  t.active < t.maxClients ∧ (t.alloc.freed ≠ [] ∨ t.alloc.next < 254)

instance (t : Leases) : Decidable t.HasRoom := inferInstanceAs (Decidable (_ ∧ _))

theorem allocate_isSome_iff (a : IpAllocator) :
    a.allocate.isSome = true ↔ a.freed ≠ [] ∨ a.next < 254 := by
  unfold IpAllocator.allocate
  split
  · rename_i host rest hfreed
    have hne : a.freed ≠ [] := hfreed ▸ List.cons_ne_nil host rest
    exact iff_of_true rfl (Or.inl hne)
  · rename_i hfreed
    split
    · rename_i hnext
      refine iff_of_false Bool.false_ne_true ?_
      intro h
      rcases h with hne | hlt
      · exact hne hfreed
      · exact not_lt.mpr hnext hlt
    · rename_i hnext
      exact iff_of_true rfl (Or.inr (not_le.mp hnext))

theorem step_accept (t : Leases) :
    ∃ t', t.step .accept = some t' ∧ if t.HasRoom then
        ∃ ip, t'.tasks = t.tasks ++ [{ reserved := ip, pc := .opening, writing := false }]
      else t'.tasks = t.tasks := by
  rw [step]
  split
  · rename_i hactive
    exact ⟨t, rfl, by rw [if_neg fun hroom => not_lt.mpr hactive hroom.1]⟩
  rename_i hactive
  have hiff := allocate_isSome_iff t.alloc
  split
  · rename_i hnone
    rw [hnone] at hiff
    exact ⟨t, rfl, by rw [if_neg fun hroom => Bool.false_ne_true (hiff.mpr hroom.2)]⟩
  · rename_i ip alloc hsome
    rw [hsome] at hiff
    refine ⟨_, rfl, ?_⟩
    rw [if_pos ⟨not_le.mp hactive, hiff.mp rfl⟩]
    exact ⟨ip, rfl⟩

/-- The task that an event takes out of its opening. -/
def Event.opens : Event → Option Nat
  | .fail i | .establish i _ | .lookup i _ => some i
  | _ => none

/-- No task but the one that `opens` names leaves its opening. -/
structure Stays (opens : Option Nat) (ts ts' : List ConnTask) : Prop where
  length : ts'.length = ts.length
  opening : ∀ j c', ts'[j]? = some c' →
    ∃ c, ts[j]? = some c ∧ (opens ≠ some j → c.pc = .opening → c'.pc = .opening)

theorem Stays.refl (opens : Option Nat) (ts : List ConnTask) : Stays opens ts ts :=
  ⟨rfl, fun _ c' hc' => ⟨c', hc', fun _ => id⟩⟩

theorem stays_modify {opens : Option Nat} {ts : List ConnTask} {i : Nat} {f : ConnTask → ConnTask}
    (hf : ∀ c, ts[i]? = some c → opens = some i ∨ c.pc ≠ .opening ∨ (f c).pc = c.pc) :
    Stays opens ts (ts.modify i f) where
  length := List.length_modify ..
  opening j c' hc' := by
    rcases modify_cases hc' with ⟨rfl, c, hc, rfl⟩ | ⟨-, hc⟩
    · refine ⟨c, hc, fun hopens hopening => ?_⟩
      rcases hf c hc with heq | hne | heq
      · exact absurd heq hopens
      · exact absurd hopening hne
      · exact heq.trans hopening
    · exact ⟨c', hc, fun _ => id⟩

theorem stays_modify_of_ne {opens : Option Nat} {ts : List ConnTask} {i : Nat} {c : ConnTask}
    {f : ConnTask → ConnTask} {pc : TaskPc} (hc : ts[i]? = some c) (hpc : c.pc = pc)
    (hne : pc ≠ .opening) : Stays opens ts (ts.modify i f) := by
  refine stays_modify fun c' hc' => Or.inr (Or.inl ?_)
  rwa [Option.some.inj (hc'.symm.trans hc), hpc]

theorem stays_step {t t' : Leases} {e : Event} (he : e ≠ .accept) (h : t.step e = some t') :
    Stays e.opens t.tasks t'.tasks := by
  cases steps_of_step h with
  | full | exhausted | accept => exact absurd rfl he
  | tick | frame | reap | unregister | release => exact .refl ..
  | fail | establish | lookup => exact stays_modify fun _ _ => Or.inl rfl
  | respond hc hpc => exact stays_modify_of_ne hc hpc (fun heq => nomatch heq)
  | attach hc hpc => exact stays_modify_of_ne hc hpc (fun heq => nomatch heq)
  | writerEnds i => exact stays_modify fun _ _ => Or.inr (Or.inr rfl)
  | disconnect hc hpc => exact stays_modify_of_ne hc hpc (fun heq => nomatch heq)
  | leave hc hpc => exact stays_modify_of_ne hc hpc (fun heq => nomatch heq)

end Leases

/-! ## The first request -/

/-- What `run` reads before it answers. -/
def firstRequest (stream : Bytes) : Option (RequestHead × Bytes) :=
  (readRequestHead stream).bind fun (head, rest) =>
    (readBody head rest).1.map fun body => (head, body)

inductive VisitorPc where
  | reading
  | answering (head : RequestHead) (body : Bytes)
  /-- Answered; in `serve_web` or in `run_tunnel`. -/
  | served (admission : Admission)
  /-- No request could be read. -/
  | refused
  /-- A read or a write has failed. -/
  | lost

def VisitorPc.isServed : VisitorPc → Bool
  | .served _ => true
  | _ => false

def VisitorPc.isTunnel : VisitorPc → Bool
  | .served .tunnel => true
  | _ => false

theorem VisitorPc.isServed_of_isTunnel {pc : VisitorPc} (h : pc.isTunnel = true) :
    pc.isServed = true := by
  cases pc with
  | served admission => rfl
  | _ => cases h

/-- A connection that has a task. -/
structure Visitor where
  /-- What the visitor sends before it closes, sent already or not. -/
  stream : Bytes
  pc : VisitorPc
  /-- What has been written to it for its first request. -/
  response : Option Bytes

/-- `visitors` are those with a task, in the order of the tasks. -/
structure Acceptor where
  leases : Leases
  admitter : Admitter
  visitors : List Visitor
  /-- The connections that got no task. -/
  dropped : List Bytes

namespace Acceptor

inductive Event where
  | accept (stream : Bytes)
  /-- `read_request_head` and `read_body` return. -/
  | read (i : Nat)
  | respond (i : Nat) (nowSecs : UInt64)
  /-- A read or a write of `run` fails. -/
  | socketError (i : Nat)
  /-- What happens once a connection has been answered, and to sessions. -/
  | lease (e : Leases.Event)

variable (P : Primitives) (origin : Origin)

def start (baseIp : UInt32) (maxClients : Nat) (password : Bytes) : Acceptor where
  leases := .start baseIp maxClients
  admitter := .new P password
  visitors := []
  dropped := []

def setVisitor (t : Acceptor) (i : Nat) (v : Visitor) : Acceptor :=
  { t with visitors := t.visitors.modify i fun _ => v }

/-- `run` returns before it has answered. -/
def bail (t : Acceptor) (i : Nat) (v : Visitor) : Option Acceptor :=
  (t.leases.step (.fail i)).map fun leases => { t.setVisitor i v with leases }

/-- Only a visitor that has been answered gets further, and only one that
was admitted into the tunnel. -/
def permits (t : Acceptor) : Leases.Event → Bool
  | .accept => false
  | .fail i => t.visitors[i]?.any fun v => v.pc.isServed
  | .establish i _ | .lookup i _ => t.visitors[i]?.any fun v => v.pc.isTunnel
  | _ => true

def step (t : Acceptor) : Event → Option Acceptor
  | .accept stream =>
      (t.leases.step .accept).map fun leases =>
        if leases.tasks.length = t.leases.tasks.length then
          { t with leases, dropped := t.dropped ++ [stream] }
        else
          { t with
            leases
            visitors := t.visitors ++ [{ stream, pc := .reading, response := none }] }
  | .read i =>
      t.visitors[i]?.bind fun v =>
        match v.pc with
        | .reading =>
            match firstRequest v.stream with
            | some (head, body) => some (t.setVisitor i { v with pc := .answering head body })
            | none => t.bail i { v with pc := .refused }
        | _ => none
  | .respond i nowSecs =>
      t.visitors[i]?.bind fun v =>
        match v.pc with
        | .answering head body =>
            let response := origin head body
            let (admission, admitter) := t.admitter.admitRequest P head nowSecs
            some { t.setVisitor i { v with pc := .served admission, response := some response } with
              admitter }
        | _ => none
  | .socketError i =>
      t.visitors[i]?.bind fun v =>
        match v.pc with
        | .reading | .answering _ _ => t.bail i { v with pc := .lost }
        | _ => none
  | .lease e =>
      if t.permits e then (t.leases.step e).map fun leases => { t with leases } else none

/-! ## The property -/

/-- `run` has returned, and with it the connection is closed. -/
def closed (t : Acceptor) (i : Nat) : Bool :=
  t.leases.tasks[i]?.any fun c => match c.pc with
    | .leaving _ | .done => true
    | _ => false

/-- A connection with a first request is not closed before the response to
it has been written, other than by a socket error. -/
structure Answered (t : Acceptor) : Prop where
  dropped : ∀ stream ∈ t.dropped, firstRequest stream = none
  visitors : ∀ i v, t.visitors[i]? = some v → t.closed i = true → v.pc ≠ .lost →
    ∀ head body, firstRequest v.stream = some (head, body) → v.response = some (origin head body)

/-- A connection with a first request is accepted only when there is a task
for it. -/
def Roomy (t : Acceptor) : Event → Prop
  | .accept stream => (firstRequest stream).isSome = true → t.leases.HasRoom
  | _ => True

/-! ## What a task has done for its visitor -/

/-- A visitor, and the task that serves it. -/
def Sound (v : Visitor) (c : ConnTask) : Prop :=
  match v.pc with
  | .reading => c.pc = .opening
  | .answering head body => c.pc = .opening ∧ firstRequest v.stream = some (head, body)
  | .served _ =>
      ∃ head body, firstRequest v.stream = some (head, body) ∧ v.response = some (origin head body)
  | .refused => firstRequest v.stream = none
  | .lost => True

structure Inv (t : Acceptor) : Prop where
  paired : t.visitors.length = t.leases.tasks.length
  sound : ∀ (i : Nat) (v : Visitor) (c : ConnTask), t.visitors[i]? = some v →
    t.leases.tasks[i]? = some c → Sound origin v c

variable {P : Primitives} {origin : Origin}

theorem inv_start (baseIp : UInt32) (maxClients : Nat) (password : Bytes) :
    Inv origin (start P baseIp maxClients password) where
  paired := rfl
  sound _ _ _ h := by cases h

/-- Only the accept loop closes a connection that is to be answered. -/
theorem Inv.answered_iff {t : Acceptor} (h : t.Inv origin) :
    t.Answered origin ↔ ∀ stream ∈ t.dropped, firstRequest stream = none := by
  refine ⟨Answered.dropped, fun hdropped => ⟨hdropped, ?_⟩⟩
  intro i v hv hclosed hlost head body hrequest
  obtain ⟨c, hc, hpc⟩ := (Option.any_eq_true _ _).mp hclosed
  have hsound := h.sound i v c hv hc
  have hopening : c.pc ≠ .opening := by
    intro heq
    rw [heq] at hpc
    cases hpc
  unfold Sound at hsound
  split at hsound
  · exact absurd hsound hopening
  · exact absurd hsound.1 hopening
  · obtain ⟨head', body', hrequest', hresponse⟩ := hsound
    obtain ⟨rfl, rfl⟩ := Prod.mk.inj (Option.some.inj (hrequest.symm.trans hrequest'))
    exact hresponse
  · exact nomatch hrequest.symm.trans hsound
  · rename_i hpc'
    exact absurd hpc' hlost

/-! ## The steps -/

theorem Sound.stays {v : Visitor} {c c' : ConnTask} (h : Sound origin v c)
    (hstays : v.pc.isServed = true ∨ (c.pc = .opening → c'.pc = .opening)) :
    Sound origin v c' := by
  obtain ⟨stream, pc, response⟩ := v
  cases pc with
  | reading => exact hstays.elim (fun hserved => nomatch hserved) fun hopening => hopening h
  | answering head body =>
      exact hstays.elim (fun hserved => nomatch hserved) fun hopening => ⟨hopening h.1, h.2⟩
  | served admission => exact h
  | refused => exact h
  | lost => trivial

theorem Inv.setVisitor {t : Acceptor} (h : t.Inv origin) {i : Nat} {v : Visitor}
    (hv : ∀ c, t.leases.tasks[i]? = some c → Sound origin v c) : (t.setVisitor i v).Inv origin where
  paired := (List.length_modify ..).trans h.paired
  sound j w c hw hc := by
    rcases modify_cases hw with ⟨rfl, -, -, rfl⟩ | ⟨-, hw⟩
    · exact hv c hc
    · exact h.sound j w c hw hc

/-- The other connections notice nothing of what happens to one. -/
theorem Inv.stays {t : Acceptor} (h : t.Inv origin) {leases : Leases} {opens : Option Nat}
    (hstays : Leases.Stays opens t.leases.tasks leases.tasks)
    (hopens : ∀ i v, opens = some i → t.visitors[i]? = some v →
      v.pc.isServed = true ∨ ∀ c, Sound origin v c) :
    Inv origin { t with leases } where
  paired := h.paired.trans hstays.length.symm
  sound i v c' hv hc' := by
    obtain ⟨c, hc, hopening⟩ := hstays.opening i c' hc'
    have hsound := h.sound i v c hv hc
    by_cases heq : opens = some i
    · rcases hopens i v heq hv with hserved | hany
      · exact hsound.stays (Or.inl hserved)
      · exact hany c'
    · exact hsound.stays (Or.inr (hopening heq))

theorem Inv.bail {t t' : Acceptor} (h : t.Inv origin) {i : Nat} {v : Visitor}
    (hv : ∀ c, Sound origin v c) (hbail : t.bail i v = some t') :
    t'.Inv origin ∧ t'.dropped = t.dropped := by
  obtain ⟨leases, hleases, rfl⟩ := Option.map_eq_some_iff.mp hbail
  have hne : Leases.Event.fail i ≠ .accept := fun heq => nomatch heq
  have hstays := Leases.stays_step hne hleases
  refine ⟨(h.setVisitor fun c _ => hv c).stays hstays fun j w hj hw => ?_, rfl⟩
  obtain rfl := Option.some.inj hj
  rcases modify_cases hw with ⟨-, -, -, rfl⟩ | ⟨hne, -⟩
  · exact Or.inr hv
  · exact absurd rfl hne

theorem isServed_of_permits {t : Acceptor} {e : Leases.Event} (h : t.permits e = true) :
    e ≠ .accept ∧ ∀ (i : Nat) (v : Visitor), e.opens = some i → t.visitors[i]? = some v →
      v.pc.isServed = true := by
  have hany : ∀ (i : Nat) (v : Visitor) (f : VisitorPc → Bool), t.visitors[i]? = some v →
      (t.visitors[i]?.any fun v => f v.pc) = true → f v.pc = true := by
    intro i v f hv hany
    rwa [hv, Option.any_some] at hany
  cases e with
  | accept => cases h
  | fail i =>
      refine ⟨(fun heq => nomatch heq), fun j v hj hv => ?_⟩
      obtain rfl := Option.some.inj hj
      exact hany i v _ hv h
  | establish i id =>
      refine ⟨(fun heq => nomatch heq), fun j v hj hv => ?_⟩
      obtain rfl := Option.some.inj hj
      exact VisitorPc.isServed_of_isTunnel (hany i v _ hv h)
  | lookup i id =>
      refine ⟨(fun heq => nomatch heq), fun j v hj hv => ?_⟩
      obtain rfl := Option.some.inj hj
      exact VisitorPc.isServed_of_isTunnel (hany i v _ hv h)
  | _ => exact ⟨(fun heq => nomatch heq), (fun j v hj => nomatch hj)⟩

/-- A new connection gets a task or is dropped. -/
theorem accept_cases {t t' : Acceptor} {stream : Bytes}
    (h : t.step P origin (.accept stream) = some t') :
    (t.leases.HasRoom ∧ t'.dropped = t.dropped
        ∧ t'.visitors = t.visitors ++ [{ stream, pc := .reading, response := none }]
        ∧ ∃ ip, t'.leases.tasks
          = t.leases.tasks ++ [{ reserved := ip, pc := .opening, writing := false }])
      ∨ ¬ t.leases.HasRoom ∧ t'.dropped = t.dropped ++ [stream] ∧ t'.visitors = t.visitors
        ∧ t'.leases.tasks = t.leases.tasks := by
  obtain ⟨leases, hleases, rfl⟩ := Option.map_eq_some_iff.mp h
  obtain ⟨leases', hleases', htasks⟩ := t.leases.step_accept
  obtain rfl := Option.some.inj (hleases.symm.trans hleases')
  by_cases hroom : t.leases.HasRoom
  · rw [if_pos hroom] at htasks
    obtain ⟨ip, htasks⟩ := htasks
    have hlen : leases.tasks.length ≠ t.leases.tasks.length := by
      rw [htasks, List.length_append, List.length_singleton]
      omega
    rw [if_neg hlen]
    exact Or.inl ⟨hroom, rfl, rfl, ip, htasks⟩
  · rw [if_neg hroom] at htasks
    rw [if_pos (congrArg List.length htasks)]
    exact Or.inr ⟨hroom, rfl, rfl, htasks⟩

theorem inv_accept {t t' : Acceptor} (hinv : t.Inv origin) {stream : Bytes}
    (h : t.step P origin (.accept stream) = some t') : t'.Inv origin := by
  rcases accept_cases h with ⟨-, -, hvisitors, ip, htasks⟩ | ⟨-, -, hvisitors, htasks⟩
  · constructor
    · rw [hvisitors, htasks, List.length_append, List.length_append, hinv.paired]
      rfl
    · intro i v c hv hc
      rw [hvisitors] at hv
      rw [htasks] at hc
      by_cases hi : i < t.visitors.length
      · rw [List.getElem?_append_left hi] at hv
        rw [List.getElem?_append_left (hinv.paired ▸ hi)] at hc
        exact hinv.sound i v c hv hc
      · rcases concat_cases hv with hv | rfl
        · exact absurd (List.getElem?_eq_some_iff.mp hv).1 hi
        rcases concat_cases hc with hc | rfl
        · exact absurd (hinv.paired ▸ (List.getElem?_eq_some_iff.mp hc).1) hi
        · rfl
  · constructor
    · rw [hvisitors, htasks, hinv.paired]
    · intro i v c hv hc
      rw [hvisitors] at hv
      rw [htasks] at hc
      exact hinv.sound i v c hv hc

/-- What is not an accept drops no connection. -/
theorem step_spec {t t' : Acceptor} (hinv : t.Inv origin) {e : Event}
    (h : t.step P origin e = some t') :
    t'.Inv origin ∧ ((∃ stream, e = .accept stream) ∨ t'.dropped = t.dropped) := by
  cases e with
  | accept stream => exact ⟨inv_accept hinv h, Or.inl ⟨stream, rfl⟩⟩
  | read i =>
      obtain ⟨v, hv, h⟩ := Option.bind_eq_some_iff.mp h
      split at h
      case h_2 => cases h
      rename_i hpc
      split at h
      · rename_i head body hrequest
        obtain rfl := Option.some.inj h
        refine ⟨hinv.setVisitor fun c hc => ?_, Or.inr rfl⟩
        have hsound := hinv.sound i v c hv hc
        rw [Sound, hpc] at hsound
        exact ⟨hsound, hrequest⟩
      · rename_i hrequest
        obtain ⟨hinv', hdropped⟩ := hinv.bail (v := { v with pc := .refused }) (fun _ => hrequest) h
        exact ⟨hinv', Or.inr hdropped⟩
  | respond i nowSecs =>
      obtain ⟨v, hv, h⟩ := Option.bind_eq_some_iff.mp h
      split at h
      case h_2 => cases h
      rename_i head body hpc
      obtain rfl := Option.some.inj h
      have hset := hinv.setVisitor (i := i) (v := { v with
        pc := .served (t.admitter.admitRequest P head nowSecs).1
        response := some (origin head body) }) fun c hc => by
          have hsound := hinv.sound i v c hv hc
          rw [Sound, hpc] at hsound
          exact ⟨head, body, hsound.2, rfl⟩
      exact ⟨⟨hset.paired, hset.sound⟩, Or.inr rfl⟩
  | socketError i =>
      obtain ⟨v, hv, h⟩ := Option.bind_eq_some_iff.mp h
      split at h
      case h_3 => cases h
      all_goals
        obtain ⟨hinv', hdropped⟩ := hinv.bail (v := { v with pc := .lost }) (fun _ => trivial) h
        exact ⟨hinv', Or.inr hdropped⟩
  | lease e =>
      rw [step] at h
      split at h
      case isFalse => cases h
      rename_i hpermits
      obtain ⟨leases, hleases, rfl⟩ := Option.map_eq_some_iff.mp h
      obtain ⟨haccept, hserved⟩ := isServed_of_permits hpermits
      have hstays := Leases.stays_step haccept hleases
      exact ⟨hinv.stays hstays fun i v hi hv => Or.inl (hserved i v hi hv), Or.inr rfl⟩

theorem answered_step {t t' : Acceptor} {e : Event} (hinv : t.Inv origin)
    (hanswered : t.Answered origin) (h : t.step P origin e = some t') :
    t'.Answered origin ↔ t.Roomy e := by
  obtain ⟨hinv', hdropped⟩ := step_spec hinv h
  rw [hinv'.answered_iff]
  by_cases haccept : ∃ stream, e = .accept stream
  · obtain ⟨stream, rfl⟩ := haccept
    rcases accept_cases h with ⟨hroom, hsame, -⟩ | ⟨hroom, hsame, -⟩
    · rw [hsame]
      exact iff_of_true hanswered.dropped fun _ => hroom
    · rw [hsame]
      constructor
      · intro hall hrequest
        rw [hall stream (by simp)] at hrequest
        cases hrequest
      · intro hroomy stream' hmem
        rcases List.mem_append.mp hmem with hmem | hmem
        · exact hanswered.dropped stream' hmem
        · rw [List.mem_singleton.mp hmem]
          exact Option.not_isSome_iff_eq_none.mp fun hrequest => hroom (hroomy hrequest)
  · rw [hdropped.resolve_left haccept]
    refine iff_of_true hanswered.dropped ?_
    cases e with
    | accept stream => exact absurd ⟨stream, rfl⟩ haccept
    | _ => trivial

/-- Every connection that makes a well-formed first request is answered
before it is closed, if and only if each finds room when it is accepted. -/
theorem all_answered_iff (P : Primitives) (origin : Origin) (baseIp : UInt32) (maxClients : Nat)
    (password : Bytes) (events : List Event) :
    Always (step P origin) (Answered origin) (start P baseIp maxClients password) events
      ↔ Meets (step P origin) Roomy (start P baseIp maxClients password) events := by
  have hinv : (start P baseIp maxClients password).Inv origin := inv_start ..
  have hstart : (start P baseIp maxClients password).Answered origin :=
    hinv.answered_iff.mpr fun _ hmem => nomatch hmem
  refine always_iff_meets (fun t e t' ht hanswered hstep => ?_) hinv hstart
  exact ⟨answered_step ht hanswered hstep, fun _ => (step_spec ht hstep).1⟩

def homePage : Bytes := ascii "GET / HTTP/1.1\r\n\r\n"

/-- One visitor more than there are tunnel addresses. -/
def crowd : List Event := List.replicate 253 (.accept homePage)

theorem crowd_dropped :
    (exec (step .plain emptyOrigin) (start .plain 0x0A0A0000 256 (ascii "pw")) crowd).map
        (fun t => t.dropped)
      = some [homePage] := by
  decide +kernel

/-- The last of them is dropped without a word, short of `max_clients`. -/
theorem crowd_unanswered :
    ¬ Always (step .plain emptyOrigin) (Answered emptyOrigin)
      (start .plain 0x0A0A0000 256 (ascii "pw")) crowd := by
  obtain ⟨t, hexec, hdropped⟩ := Option.map_eq_some_iff.mp crowd_dropped
  refine not_always_of_exec hexec ?_
  intro hanswered
  have hnone := hanswered.dropped homePage (by rw [hdropped]; exact List.mem_singleton_self _)
  exact absurd hnone (by decide +kernel)

end Acceptor

end Kanrin
