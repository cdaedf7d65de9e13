import Kanrin.Lib.Run
import Kanrin.Lib.Parties
import Kanrin.Lib.History

/-!
# The life of a client

`KanrinClient` of the client's `lib.rs`: `start` and `stop`, one call at a
time, against the pipelines they spawn, each on a runtime of its own.

Caller and pipelines write the state and send the event that tells of it in
two steps, so they interleave. A runtime that is shut down or dropped drops
its pipeline where it next awaits; stretches without an `await` (raising
the tunnel, lowering it, reporting the result) run to their end. The
shutdown signal makes the loop end, which it does for other reasons too, so
a step of its own models it.

`client_truthful` is what the interleavings leave of the state as long as
no shutdown runs into its timeout; with one that does, a pipeline writes
the state of a client that has been stopped.
-/

namespace Kanrin

open Lib

inductive ClientState where
  | disconnected | connecting | connected | reconnecting | disconnecting | error
deriving DecidableEq

/-- What tells of the state, of what goes to `event_tx`. -/
inductive ClientEvent where
  | stateChanged (state : ClientState)
  | connected
  | error
deriving DecidableEq

/-- Where the task of a pipeline is. -/
inductive PipelinePc where
  /-- Awaiting, in any of the phases before the routes are changed. -/
  | connecting
  /-- Routes, kill switch and engines are set up, without an `await`. -/
  | raising
  /-- `Connected` is written. -/
  | announcing
  /-- Awaiting, in the main loop. -/
  | looping
  /-- Awaiting the close of the connection. -/
  | closing
  /-- Kill switch and routes are undone, without an `await`. -/
  | lowering
  /-- `run_pipeline` has returned. -/
  | returned (ok : Bool)
  /-- Its result is written. -/
  | reporting (ok : Bool)
  | ended
  /-- Dropped where it awaited. -/
  | cancelled
deriving DecidableEq

namespace PipelinePc

/-- There is a state it has still to write. -/
def live : PipelinePc → Bool
  | .reporting _ | .ended | .cancelled => false
  | _ => true

/-- The runtime has nothing left to wait for. -/
def finished : PipelinePc → Bool
  | .ended | .cancelled => true
  | _ => false

/-- Where the task can be dropped. -/
def awaiting : PipelinePc → Bool
  | .connecting | .looping | .closing => true
  | _ => false

/-- The event of its connection is still to come. -/
def unannounced : PipelinePc → Bool
  | .connecting | .raising | .announcing => true
  | _ => false

/-- The state a pipeline that is live has written, or its caller for it. -/
def shown : PipelinePc → ClientState
  | .connecting | .raising | .returned false => .connecting
  | _ => .connected

end PipelinePc

structure PipelineTask where
  pc : PipelinePc
  /-- Its runtime is being shut down. -/
  closing : Bool
deriving DecidableEq

/-- Where the caller is. -/
inductive CallPc where
  | idle
  /-- `start` has read `Disconnected`. -/
  | starting
  | announcingStart
  | building
  /-- The new runtime takes the place of the one of task `i`. -/
  | replacing (i : Nat)
  /-- `stop` has read another state. -/
  | stopping
  | announcingStop
  | signalling
  /-- In `shutdown_timeout`, for the runtime of task `i`. -/
  | waiting (i : Nat)
  | settling
  | announcingEnd
deriving DecidableEq

structure Lifecycle where
  state : ClientState
  events : List ClientEvent
  call : CallPc
  /-- The runtime that the client holds, by its task. -/
  runtime : Option Nat
  tasks : List PipelineTask
deriving DecidableEq

namespace Lifecycle

def new : Lifecycle where
  state := .disconnected
  events := []
  call := .idle
  runtime := none
  tasks := []

inductive Event where
  | callStart
  | callStop
  /-- The caller's next step, where there is but one. -/
  | advance
  | build (ok : Bool)
  | timedOut
  /-- A task's next step. -/
  | proceed (i : Nat)
  /-- An error on the way to the connection. -/
  | fail (i : Nat)
  | cancel (i : Nat)
deriving DecidableEq

def write (t : Lifecycle) (state : ClientState) (call : CallPc) : Lifecycle :=
  { t with state, call }

def send (t : Lifecycle) (event : ClientEvent) (call : CallPc) : Lifecycle :=
  { t with events := t.events ++ [event], call }

def setPc (t : Lifecycle) (i : Nat) (pc : PipelinePc) : Lifecycle :=
  { t with tasks := t.tasks.modify i fun c => { c with pc } }

/-- A runtime is shut down, or dropped. -/
def shut (t : Lifecycle) (i : Nat) : Lifecycle :=
  { t with tasks := t.tasks.modify i fun c => { c with closing := true } }

def hasFinished (t : Lifecycle) (i : Nat) : Bool := t.tasks[i]?.any (·.pc.finished)

def spawn (t : Lifecycle) : Lifecycle :=
  { t with
    tasks := t.tasks ++ [{ pc := .connecting, closing := false }]
    runtime := some t.tasks.length }

def advance (t : Lifecycle) : Option Lifecycle :=
  match t.call with
  | .idle | .building => none
  | .starting => some (t.write .connecting .announcingStart)
  | .announcingStart => some (t.send (.stateChanged .connecting) .building)
  | .replacing i => if t.hasFinished i then some { t with call := .idle } else none
  | .stopping => some (t.write .disconnecting .announcingStop)
  | .announcingStop => some (t.send (.stateChanged .disconnecting) .signalling)
  | .signalling =>
      match t.runtime with
      | some i => some { t.shut i with runtime := none, call := .waiting i }
      | none => some { t with call := .settling }
  | .waiting i => if t.hasFinished i then some { t with call := .settling } else none
  | .settling => some (t.write .disconnected .announcingEnd)
  | .announcingEnd => some (t.send (.stateChanged .disconnected) .idle)

/-- The next step of a task. -/
def proceed (t : Lifecycle) (i : Nat) : PipelinePc → Option Lifecycle
  | .connecting => some (t.setPc i .raising)
  | .raising => some ((t.setPc i .announcing).write .connected t.call)
  | .announcing => some ((t.setPc i .looping).send .connected t.call)
  | .looping => some (t.setPc i .closing)
  | .closing => some (t.setPc i .lowering)
  | .lowering => some (t.setPc i (.returned true))
  | .returned ok =>
      some ((t.setPc i (.reporting ok)).write (if ok then .disconnected else .error) t.call)
  | .reporting ok =>
      some ((t.setPc i .ended).send (if ok then .stateChanged .disconnected else .error) t.call)
  | .ended | .cancelled => none

def step (t : Lifecycle) : Event → Option Lifecycle
  | .callStart =>
      match t.call with
      | .idle => some (if t.state = .disconnected then { t with call := .starting } else t)
      | _ => none
  | .callStop =>
      match t.call with
      | .idle => some (if t.state = .disconnected then t else { t with call := .stopping })
      | _ => none
  | .advance => t.advance
  | .build ok =>
      match t.call with
      | .building =>
          if ok then
            match t.runtime with
            | some i => some { t.spawn.shut i with call := .replacing i }
            | none => some { t.spawn with call := .idle }
          else some { t with call := .idle }
      | _ => none
  | .timedOut =>
      match t.call with
      | .waiting _ => some { t with call := .settling }
      | _ => none
  | .proceed i => t.tasks[i]?.bind fun c => t.proceed i c.pc
  | .fail i =>
      t.tasks[i]?.bind fun c =>
        match c.pc with
        | .connecting => some (t.setPc i (.returned false))
        | _ => none
  | .cancel i =>
      t.tasks[i]?.bind fun c =>
        if c.closing = true ∧ c.pc.awaiting = true then some (t.setPc i .cancelled) else none

/-! ## The property -/

/-- Task `i` has a state to write. -/
def Live (t : Lifecycle) (i : Nat) (c : PipelineTask) : Prop :=
  t.tasks[i]? = some c ∧ c.pc.live = true

def Quiet (t : Lifecycle) : Prop := ∀ i c, ¬ t.Live i c

/-- Between two `Connected` events there is a `Connecting`. -/
def Announced : List ClientEvent → Prop :=
  Justified fun older e =>
    e = .connected → Latest (· = .connected) older (.stateChanged .connecting)

structure Truthful (t : Lifecycle) : Prop where
  /-- Two pipelines never run at a time. -/
  single : ∀ i j c d, t.Live i c → t.Live j d → i = j
  /-- The one that runs is the client's, and the state is its state. -/
  live : t.call = .idle → ∀ i c, t.Live i c → t.runtime = some i ∧ t.state = c.pc.shown
  /-- Where none runs, the client is disconnected, or in error, or never got
  a runtime. -/
  quiet : t.call = .idle → t.Quiet →
    t.state = .disconnected ∨ t.state = .error ∨ t.state = .connecting
  announced : Announced t.events

/-! ## The invariant -/

/-- Whose a live task is, by what the caller is doing. -/
def Placed (t : Lifecycle) (i : Nat) (c : PipelineTask) : Prop :=
  match t.call with
  | .idle | .replacing _ => t.runtime = some i ∧ c.closing = false ∧ t.state = c.pc.shown
  | .stopping | .announcingStop | .signalling => t.runtime = some i ∧ c.closing = false
  | .waiting j => i = j
  | .starting | .announcingStart | .building | .settling | .announcingEnd => False

/-- What the state is where no task is live. -/
def Rests (t : Lifecycle) : Prop :=
  match t.call with
  | .idle | .replacing _ => t.state = .disconnected ∨ t.state = .error ∨ t.state = .connecting
  | .starting | .announcingEnd => t.state = .disconnected
  | .announcingStart | .building => t.state = .connecting
  | .stopping | .announcingStop | .signalling | .waiting _ | .settling => True

/-- A `Connected` event is due. -/
def Due (t : Lifecycle) : Prop :=
  t.call = .building ∨ ∃ i c, t.Live i c ∧ c.pc.unannounced = true

structure Inv (t : Lifecycle) : Prop where
  placed : ∀ i c, t.Live i c → t.Placed i c
  rests : t.Quiet → t.Rests
  announced : Announced t.events
  due : t.Due → Latest (· = .connected) t.events (.stateChanged .connecting)
  held : ∀ i, t.runtime = some i → i < t.tasks.length

theorem inv_new : new.Inv where
  held i h := by cases h
  placed i c h := by cases h.1
  rests _ := Or.inl rfl
  announced := justified_nil _
  due h := by
    rcases h with h | ⟨i, c, h, -⟩
    · cases h
    · cases h.1

theorem placed_unique {t : Lifecycle} {i j : Nat} {c d : PipelineTask} (hi : t.Placed i c)
    (hj : t.Placed j d) : i = j := by
  unfold Placed at hi hj
  cases hcall : t.call with
  | idle | replacing _ | stopping | announcingStop | signalling =>
      rw [hcall] at hi hj
      exact Option.some.inj (hi.1.symm.trans hj.1)
  | waiting _ =>
      rw [hcall] at hi hj
      exact hi.trans hj.symm
  | starting | announcingStart | building | settling | announcingEnd =>
      rw [hcall] at hi
      exact hi.elim

theorem Inv.single {t : Lifecycle} (h : t.Inv) {i j : Nat} {c d : PipelineTask} (hi : t.Live i c)
    (hj : t.Live j d) : i = j :=
  placed_unique (h.placed i c hi) (h.placed j d hj)

theorem Inv.truthful {t : Lifecycle} (h : t.Inv) : t.Truthful where
  single _ _ _ _ hi hj := h.single hi hj
  live hcall i c hc := by
    have hplaced := h.placed i c hc
    rw [Placed, hcall] at hplaced
    exact ⟨hplaced.1, hplaced.2.2⟩
  quiet hcall hquiet := by
    have hrests := h.rests hquiet
    rwa [Rests, hcall] at hrests
  announced := h.announced

/-! ## What a task does -/

@[simp] theorem length_setPc (t : Lifecycle) (i : Nat) (pc : PipelinePc) :
    (t.setPc i pc).tasks.length = t.tasks.length := List.length_modify ..

theorem live_setPc {t : Lifecycle} {i j : Nat} {pc : PipelinePc} {d : PipelineTask}
    (h : (t.setPc i pc).Live j d) :
    (j = i ∧ pc.live = true ∧ ∃ c, t.tasks[i]? = some c ∧ d = { c with pc })
      ∨ (j ≠ i ∧ t.Live j d) := by
  obtain ⟨hd, hlive⟩ := h
  rcases modify_cases hd with ⟨rfl, c, hc, rfl⟩ | ⟨hne, hd⟩
  · exact Or.inl ⟨rfl, hlive, c, hc, rfl⟩
  · exact Or.inr ⟨hne, hd, hlive⟩

/-- A step of the live task: it is the only one, before and after. -/
theorem Inv.live_moved {t : Lifecycle} (h : t.Inv) {i j : Nat} {c d : PipelineTask}
    {pc : PipelinePc} (hc : t.Live i c) (hd : (t.setPc i pc).Live j d) :
    j = i ∧ pc.live = true ∧ d = { c with pc } := by
  rcases live_setPc hd with ⟨rfl, hlive, c', hc', rfl⟩ | ⟨hne, hd⟩
  · obtain rfl := Option.some.inj (hc.1.symm.trans hc')
    exact ⟨rfl, hlive, rfl⟩
  · exact absurd (h.single hd hc) hne

theorem Inv.quiet_moved {t : Lifecycle} (h : t.Inv) {i : Nat} {c : PipelineTask} {pc : PipelinePc}
    (hc : t.Live i c) (hpc : pc.live = false) : (t.setPc i pc).Quiet := by
  intro j d hd
  have hlive := (h.live_moved hc hd).2.1
  rw [hpc] at hlive
  cases hlive

/-- A step of the live task that writes nothing. -/
theorem Inv.keep {t : Lifecycle} (h : t.Inv) {i : Nat} {c : PipelineTask} {pc : PipelinePc}
    (hc : t.Live i c) (hlive : pc.live = true) (hshown : pc.shown = c.pc.shown)
    (hdue : pc.unannounced = true → c.pc.unannounced = true) : (t.setPc i pc).Inv where
  held j hj := (length_setPc ..).symm ▸ h.held j hj
  placed j d hd := by
    obtain ⟨rfl, -, rfl⟩ := h.live_moved hc hd
    have hplaced := h.placed j c hc
    unfold Placed at hplaced ⊢
    rw [show (t.setPc j pc).call = t.call from rfl]
    cases hcall : t.call with
    | idle | replacing _ =>
        rw [hcall] at hplaced
        exact ⟨hplaced.1, hplaced.2.1, hplaced.2.2.trans hshown.symm⟩
    | stopping | announcingStop | signalling | waiting _ | starting | announcingStart | building
    | settling | announcingEnd =>
        rw [hcall] at hplaced
        exact hplaced
  rests hquiet := by
    have hmoved : (t.setPc i pc).Live i { c with pc } := ⟨getElem?_modify_self _ hc.1, hlive⟩
    exact absurd hmoved (hquiet _ _)
  announced := h.announced
  due hd := by
    rcases hd with hd | ⟨j, d, hd, hpc⟩
    · exact h.due (Or.inl hd)
    · obtain ⟨rfl, -, rfl⟩ := h.live_moved hc hd
      exact h.due (Or.inr ⟨j, c, hc, hdue hpc⟩)

/-- The tunnel is up, and the state says so. -/
theorem Inv.raise {t : Lifecycle} (h : t.Inv) {i : Nat} {c : PipelineTask} (hc : t.Live i c)
    (hpc : c.pc = .raising) : ((t.setPc i .announcing).write .connected t.call).Inv where
  held j hj := (length_setPc ..).symm ▸ h.held j hj
  placed j d hd := by
    obtain ⟨rfl, -, rfl⟩ := h.live_moved hc hd
    have hplaced := h.placed j c hc
    unfold Placed at hplaced ⊢
    rw [show ((t.setPc j .announcing).write .connected t.call).call = t.call from rfl]
    cases hcall : t.call with
    | idle | replacing _ =>
        rw [hcall] at hplaced
        exact ⟨hplaced.1, hplaced.2.1, rfl⟩
    | stopping | announcingStop | signalling | waiting _ | starting | announcingStart | building
    | settling | announcingEnd =>
        rw [hcall] at hplaced
        exact hplaced
  rests hquiet := by
    have hmoved : (t.setPc i .announcing).Live i { c with pc := .announcing } :=
      ⟨getElem?_modify_self _ hc.1, rfl⟩
    exact absurd hmoved (hquiet _ _)
  announced := h.announced
  due hd := by
    refine h.due ?_
    rcases hd with hd | -
    · exact Or.inl hd
    · exact Or.inr ⟨i, c, hc, by rw [hpc]; rfl⟩

/-- The event of the connection uses up the one of the start. -/
theorem Inv.announce {t : Lifecycle} (h : t.Inv) {i : Nat} {c : PipelineTask} (hc : t.Live i c)
    (hpc : c.pc = .announcing) : ((t.setPc i .looping).send .connected t.call).Inv where
  held j hj := (length_setPc ..).symm ▸ h.held j hj
  placed := by
    have hshown : PipelinePc.looping.shown = c.pc.shown := by rw [hpc]; rfl
    exact (h.keep hc rfl hshown (by rintro ⟨⟩)).placed
  rests hquiet := by
    have hmoved : (t.setPc i .looping).Live i { c with pc := .looping } :=
      ⟨getElem?_modify_self _ hc.1, rfl⟩
    exact absurd hmoved (hquiet _ _)
  announced := by
    refine justified_concat.mpr ⟨h.announced, fun _ => ?_⟩
    exact h.due (Or.inr ⟨i, c, hc, by rw [hpc]; rfl⟩)
  due hd := by
    rcases hd with hd | ⟨j, d, hd, hdue⟩
    · -- no task is live while a runtime is built
      have hplaced := h.placed i c hc
      have hbuilding : t.call = .building := hd
      rw [Placed, hbuilding] at hplaced
      exact hplaced.elim
    · obtain ⟨-, -, rfl⟩ := h.live_moved hc hd
      cases hdue

/-- The pipeline has returned, and writes the state for the last time. -/
theorem Inv.finish {t : Lifecycle} (h : t.Inv) {i : Nat} {c : PipelineTask} (hc : t.Live i c)
    (ok : Bool) : ((t.setPc i (.reporting ok)).write (if ok then .disconnected else .error)
      t.call).Inv where
  held j hj := (length_setPc ..).symm ▸ h.held j hj
  placed j d hd := absurd hd (h.quiet_moved hc rfl j d)
  rests _ := by
    have hplaced := h.placed i c hc
    unfold Placed at hplaced
    unfold Rests
    rw [show ((t.setPc i (.reporting ok)).write (if ok then .disconnected else .error)
      t.call).call = t.call from rfl]
    cases hcall : t.call with
    | idle | replacing _ =>
        cases ok with
        | true => exact Or.inl rfl
        | false => exact Or.inr (Or.inl rfl)
    | stopping | announcingStop | signalling | waiting _ | settling => trivial
    | starting | announcingStart | building | announcingEnd =>
        rw [hcall] at hplaced
        exact hplaced.elim
  announced := h.announced
  due hd := by
    rcases hd with hd | ⟨j, d, hd, -⟩
    · exact h.due (Or.inl hd)
    · exact absurd hd (h.quiet_moved hc rfl j d)

theorem announced_send {l : List ClientEvent} (h : Announced l) {e : ClientEvent}
    (he : e ≠ .connected) : Announced (l ++ [e]) :=
  justified_concat.mpr ⟨h, fun heq => absurd heq he⟩

theorem latest_send {l : List ClientEvent} {a e : ClientEvent} (h : Latest (· = .connected) l a)
    (he : e ≠ .connected) : Latest (· = .connected) (l ++ [e]) a :=
  latest_concat.mpr (Or.inr ⟨he, h⟩)

/-- A step of a task that is not live, and that tells of no connection. -/
theorem Inv.report {t : Lifecycle} (h : t.Inv) {i : Nat} {c : PipelineTask}
    (hi : t.tasks[i]? = some c) (hc : c.pc.live = false) {e : ClientEvent} (he : e ≠ .connected) :
    ((t.setPc i .ended).send e t.call).Inv := by
  have hback : ∀ j d, (t.setPc i .ended).Live j d → t.Live j d := by
    intro j d hd
    rcases live_setPc hd with ⟨-, hlive, -⟩ | ⟨-, hd⟩
    · cases hlive
    · exact hd
  have hforth : ∀ j d, t.Live j d → (t.setPc i .ended).Live j d := by
    intro j d hd
    have hne : j ≠ i := by
      rintro rfl
      obtain rfl := Option.some.inj (hi.symm.trans hd.1)
      exact Bool.false_ne_true (hc.symm.trans hd.2)
    exact ⟨(List.getElem?_modify_ne _ t.tasks (Ne.symm hne)).trans hd.1, hd.2⟩
  refine ⟨fun j d hd => h.placed j d (hback j d hd), fun hquiet => ?_,
    announced_send h.announced he, fun hd => latest_send (h.due ?_) he,
    fun j hj => (length_setPc ..).symm ▸ h.held j hj⟩
  · exact h.rests fun j d hd => hquiet j d (hforth j d hd)
  · rcases hd with hd | ⟨j, d, hd, hpc⟩
    · exact Or.inl hd
    · exact Or.inr ⟨j, d, hback j d hd, hpc⟩

/-- A task is only dropped while `stop` waits for it, or in silence. -/
theorem Inv.cancel {t : Lifecycle} (h : t.Inv) {i : Nat} {c : PipelineTask} (hc : t.Live i c)
    (hclosing : c.closing = true) : (t.setPc i .cancelled).Inv where
  held j hj := (length_setPc ..).symm ▸ h.held j hj
  placed j d hd := absurd hd (h.quiet_moved hc rfl j d)
  rests _ := by
    have hplaced := h.placed i c hc
    unfold Placed at hplaced
    unfold Rests
    rw [show (t.setPc i .cancelled).call = t.call from rfl]
    cases hcall : t.call with
    | idle | replacing _ =>
        rw [hcall, hclosing] at hplaced
        cases hplaced.2.1
    | stopping | announcingStop | signalling | waiting _ | settling => trivial
    | starting | announcingStart | building | announcingEnd =>
        rw [hcall] at hplaced
        exact hplaced.elim
  announced := h.announced
  due hd := by
    rcases hd with hd | ⟨j, d, hd, -⟩
    · exact h.due (Or.inl hd)
    · exact absurd hd (h.quiet_moved hc rfl j d)

theorem Inv.proceed {t t' : Lifecycle} (h : t.Inv) {i : Nat} {c : PipelineTask}
    (hc : t.tasks[i]? = some c) (hstep : t.proceed i c.pc = some t') : t'.Inv := by
  cases hpc : c.pc with
  | connecting =>
      rw [hpc] at hstep
      obtain rfl := Option.some.inj hstep
      exact h.keep ⟨hc, by rw [hpc]; rfl⟩ rfl (by rw [hpc]; rfl) fun _ => by rw [hpc]; rfl
  | raising =>
      rw [hpc] at hstep
      obtain rfl := Option.some.inj hstep
      exact h.raise ⟨hc, by rw [hpc]; rfl⟩ hpc
  | announcing =>
      rw [hpc] at hstep
      obtain rfl := Option.some.inj hstep
      exact h.announce ⟨hc, by rw [hpc]; rfl⟩ hpc
  | looping | closing | lowering =>
      rw [hpc] at hstep
      obtain rfl := Option.some.inj hstep
      exact h.keep ⟨hc, by rw [hpc]; rfl⟩ rfl (by rw [hpc]; rfl) (by rintro ⟨⟩)
  | returned ok =>
      rw [hpc] at hstep
      obtain rfl := Option.some.inj hstep
      exact h.finish ⟨hc, by rw [hpc]; rfl⟩ ok
  | reporting ok =>
      rw [hpc] at hstep
      obtain rfl := Option.some.inj hstep
      refine h.report hc (by rw [hpc]; rfl) ?_
      cases ok <;> simp
  | ended | cancelled =>
      rw [hpc] at hstep
      cases hstep

/-! ## What the caller does -/

/-- A step of the caller that sends nothing. -/
theorem Inv.recall {t t' : Lifecycle} (h : t.Inv) (htasks : t'.tasks = t.tasks)
    (hevents : t'.events = t.events) (hruntime : t'.runtime = t.runtime)
    (hcall : t'.call ≠ .building)
    (hplaced : ∀ i c, t.Placed i c → t'.Placed i c) (hrests : t.Quiet → t'.Rests) : t'.Inv := by
  have hback : ∀ i c, t'.Live i c → t.Live i c := fun i c hc => ⟨htasks ▸ hc.1, hc.2⟩
  refine ⟨fun i c hc => hplaced i c (h.placed i c (hback i c hc)), fun hquiet => hrests ?_, ?_,
    fun hd => ?_, fun i hi => htasks ▸ h.held i (hruntime ▸ hi)⟩
  · exact fun i c hc => hquiet i c ⟨htasks ▸ hc.1, hc.2⟩
  · rw [hevents]
    exact h.announced
  · rw [hevents]
    rcases hd with hd | ⟨i, c, hc, hpc⟩
    · exact absurd hd hcall
    · exact h.due (Or.inr ⟨i, c, hback i c hc, hpc⟩)

/-- One that sends an event of the caller's. -/
theorem Inv.tell {t : Lifecycle} (h : t.Inv) {e : ClientEvent} {call : CallPc}
    (he : e ≠ .connected) (hdue : call = .building → e = .stateChanged .connecting)
    (hplaced : ∀ i c, t.Placed i c → (t.send e call).Placed i c)
    (hrests : t.Quiet → (t.send e call).Rests) : (t.send e call).Inv where
  placed i c hc := hplaced i c (h.placed i c hc)
  rests := hrests
  announced := announced_send h.announced he
  due hd := by
    rcases hd with hd | hlive
    · exact latest_concat.mpr (Or.inl (hdue hd))
    · exact latest_send (h.due (Or.inr hlive)) he
  held := h.held

theorem shown_ne_disconnected (pc : PipelinePc) : pc.shown ≠ .disconnected := by
  cases pc with
  | returned ok => cases ok <;> decide
  | reporting _ => rintro ⟨⟩
  | _ => decide

theorem Inv.callStart {t : Lifecycle} (h : t.Inv) (hcall : t.call = .idle)
    (hstate : t.state = .disconnected) : Inv { t with call := .starting } := by
  refine h.recall rfl rfl rfl (by rintro ⟨⟩) (fun i c hc => ?_) fun _ => hstate
  rw [Placed, hcall] at hc
  exact absurd (hc.2.2.symm.trans hstate) (shown_ne_disconnected c.pc)

theorem Inv.callStop {t : Lifecycle} (h : t.Inv) (hcall : t.call = .idle) :
    Inv { t with call := .stopping } := by
  refine h.recall rfl rfl rfl (by rintro ⟨⟩) (fun i c hc => ?_) fun _ => trivial
  rw [Placed, hcall] at hc
  exact ⟨hc.1, hc.2.1⟩

theorem not_live_of_over {t : Lifecycle} {i : Nat} (hover : t.hasFinished i = true) (c : PipelineTask) :
    ¬ t.Live i c := by
  rintro ⟨hc, hlive⟩
  rw [hasFinished, hc] at hover
  have hboth : c.pc.finished = true := hover
  cases hpc : c.pc <;> simp [hpc, PipelinePc.finished, PipelinePc.live] at hboth hlive

theorem live_shut {t : Lifecycle} {i j : Nat} {d : PipelineTask} (h : (t.shut i).Live j d) :
    (j = i ∧ ∃ c, t.Live i c ∧ d = { c with closing := true }) ∨ (j ≠ i ∧ t.Live j d) := by
  obtain ⟨hd, hlive⟩ := h
  rcases modify_cases hd with ⟨rfl, c, hc, rfl⟩ | ⟨hne, hd⟩
  · exact Or.inl ⟨rfl, c, ⟨hc, hlive⟩, rfl⟩
  · exact Or.inr ⟨hne, hd, hlive⟩

/-- `stop` hands the runtime over to be shut down. -/
theorem Inv.shut {t : Lifecycle} (h : t.Inv) {i : Nat} (hcall : t.call = .signalling)
    (hruntime : t.runtime = some i) :
    Inv { t.shut i with runtime := none, call := .waiting i } where
  placed j d hd := by
    rcases live_shut hd with ⟨rfl, -⟩ | ⟨hne, hd⟩
    · exact rfl
    · have hplaced := h.placed j d hd
      rw [Placed, hcall] at hplaced
      exact absurd (Option.some.inj (hplaced.1.symm.trans hruntime)) hne
  rests _ := trivial
  announced := h.announced
  due hd := by
    rcases hd with hd | ⟨j, d, hd, hpc⟩
    · cases hd
    · rcases live_shut hd with ⟨rfl, c, hc, rfl⟩ | ⟨-, hd⟩
      · exact h.due (Or.inr ⟨j, c, hc, hpc⟩)
      · exact h.due (Or.inr ⟨j, d, hd, hpc⟩)
  held j hj := by cases hj

theorem Inv.advance {t t' : Lifecycle} (h : t.Inv) (hstep : t.advance = some t') : t'.Inv := by
  unfold Lifecycle.advance at hstep
  split at hstep
  · cases hstep
  · cases hstep
  · rename_i hcall
    obtain rfl := Option.some.inj hstep
    refine h.recall rfl rfl rfl (by rintro ⟨⟩) (fun i c hc => ?_) fun _ => rfl
    rw [Placed, hcall] at hc
    exact hc
  · rename_i hcall
    obtain rfl := Option.some.inj hstep
    refine h.tell (by rintro ⟨⟩) (fun _ => rfl) (fun i c hc => ?_) fun hquiet => ?_
    · rw [Placed, hcall] at hc
      exact hc
    · have hrests := h.rests hquiet
      rw [Rests, hcall] at hrests
      exact hrests
  · rename_i i hcall
    split at hstep
    · obtain rfl := Option.some.inj hstep
      refine h.recall rfl rfl rfl (by rintro ⟨⟩) (fun j c hc => ?_) fun hquiet => ?_
      · rw [Placed, hcall] at hc
        exact hc
      · have hrests := h.rests hquiet
        rw [Rests, hcall] at hrests
        exact hrests
    · cases hstep
  · rename_i hcall
    obtain rfl := Option.some.inj hstep
    refine h.recall rfl rfl rfl (by rintro ⟨⟩) (fun i c hc => ?_) fun _ => trivial
    rw [Placed, hcall] at hc
    exact hc
  · rename_i hcall
    obtain rfl := Option.some.inj hstep
    refine h.tell (by rintro ⟨⟩) (by rintro ⟨⟩) (fun i c hc => ?_) fun _ => trivial
    rw [Placed, hcall] at hc
    exact hc
  · rename_i hcall
    split at hstep
    · rename_i i hruntime
      obtain rfl := Option.some.inj hstep
      exact h.shut hcall hruntime
    · rename_i hruntime
      obtain rfl := Option.some.inj hstep
      refine h.recall rfl rfl rfl (by rintro ⟨⟩) (fun i c hc => ?_) fun _ => trivial
      rw [Placed, hcall, hruntime] at hc
      cases hc.1
  · rename_i i hcall
    split at hstep
    · rename_i hover
      obtain rfl := Option.some.inj hstep
      -- the task that was waited for was the only one that could be live
      have hquiet : t.Quiet := by
        intro j c hc
        have hplaced := h.placed j c hc
        rw [Placed, hcall] at hplaced
        exact not_live_of_over hover c (hplaced ▸ hc)
      exact ⟨fun j c hc => absurd hc (hquiet j c), fun _ => trivial, h.announced, fun hd =>
        hd.elim (by rintro ⟨⟩) fun ⟨j, c, hc, _⟩ => absurd hc (hquiet j c), h.held⟩
    · cases hstep
  · rename_i hcall
    obtain rfl := Option.some.inj hstep
    refine h.recall rfl rfl rfl (by rintro ⟨⟩) (fun i c hc => ?_) fun _ => rfl
    rw [Placed, hcall] at hc
    exact hc
  · rename_i hcall
    obtain rfl := Option.some.inj hstep
    refine h.tell (by rintro ⟨⟩) (by rintro ⟨⟩) (fun i c hc => ?_) fun hquiet => ?_
    · rw [Placed, hcall] at hc
      exact hc.elim
    · have hrests := h.rests hquiet
      rw [Rests, hcall] at hrests
      exact Or.inl hrests

/-- The new pipeline is the only one, whatever becomes of the old runtime. -/
theorem Inv.spawn {t t' : Lifecycle} (h : t.Inv) (hcall : t.call = .building)
    (hstate : t'.state = t.state) (hevents : t'.events = t.events)
    (hcall' : t'.call = .idle ∨ ∃ j, t'.call = .replacing j)
    (hruntime : t'.runtime = some t.tasks.length)
    (hlength : t'.tasks.length = t.tasks.length + 1)
    (hlive : ∀ i c, t'.Live i c → i = t.tasks.length ∧ c = ⟨.connecting, false⟩)
    (hthere : t'.Live t.tasks.length ⟨.connecting, false⟩) : t'.Inv := by
  have hquiet : t.Quiet := by
    intro i c hc
    have hplaced := h.placed i c hc
    rw [Placed, hcall] at hplaced
    exact hplaced
  have hconnecting := h.rests hquiet
  rw [Rests, hcall] at hconnecting
  refine ⟨fun i c hc => ?_, fun hq => absurd hthere (hq _ _), ?_, fun _ => ?_, fun i hi => ?_⟩
  · obtain ⟨rfl, rfl⟩ := hlive i c hc
    have hplaced : t'.runtime = some t.tasks.length ∧ false = false
        ∧ t'.state = PipelinePc.connecting.shown := ⟨hruntime, rfl, hstate.trans hconnecting⟩
    rcases hcall' with hcall' | ⟨j, hcall'⟩
    · rw [Placed, hcall']
      exact hplaced
    · rw [Placed, hcall']
      exact hplaced
  · rw [hevents]
    exact h.announced
  · rw [hevents]
    exact h.due (Or.inl hcall)
  · obtain rfl := Option.some.inj (hruntime.symm.trans hi)
    omega

theorem Inv.build {t t' : Lifecycle} (h : t.Inv) {ok : Bool}
    (hstep : t.step (.build ok) = some t') : t'.Inv := by
  simp only [Lifecycle.step] at hstep
  split at hstep
  · rename_i hcall
    have hquiet : t.Quiet := by
      intro i c hc
      have hplaced := h.placed i c hc
      rw [Placed, hcall] at hplaced
      exact hplaced
    have hnew : ∀ i c, t.spawn.Live i c → i = t.tasks.length ∧ c = ⟨.connecting, false⟩ := by
      intro i c hc
      rcases Nat.lt_trichotomy i t.tasks.length with hi | hi | hi
      · exact absurd ⟨(List.getElem?_append_left hi).symm.trans hc.1, hc.2⟩ (hquiet i c)
      · subst hi
        have hlast := hc.1
        rw [Lifecycle.spawn, List.getElem?_concat_length] at hlast
        exact ⟨rfl, (Option.some.inj hlast).symm⟩
      · have hnone := hc.1
        rw [Lifecycle.spawn, List.getElem?_eq_none (by simp; omega)] at hnone
        cases hnone
    have hthere : t.spawn.Live t.tasks.length ⟨.connecting, false⟩ :=
      ⟨List.getElem?_concat_length, rfl⟩
    split at hstep
    · split at hstep
      · rename_i i hruntime
        obtain rfl := Option.some.inj hstep
        have hne : t.tasks.length ≠ i := Nat.ne_of_gt (h.held i hruntime)
        refine h.spawn hcall rfl rfl (Or.inr ⟨i, rfl⟩) rfl ?_ (fun j c hc => ?_) ?_
        · exact (List.length_modify ..).trans List.length_append
        · rcases live_shut hc with ⟨rfl, d, hd, -⟩ | ⟨-, hc⟩
          · exact absurd (hnew _ _ hd).1.symm hne
          · exact hnew j c hc
        · exact ⟨(List.getElem?_modify_ne _ t.spawn.tasks (Ne.symm hne)).trans hthere.1, rfl⟩
      · obtain rfl := Option.some.inj hstep
        exact h.spawn hcall rfl rfl (Or.inl rfl) rfl List.length_append hnew hthere
    · obtain rfl := Option.some.inj hstep
      refine h.recall rfl rfl rfl (by rintro ⟨⟩) (fun i c hc => ?_) fun hq => ?_
      · rw [Placed, hcall] at hc
        exact hc.elim
      · have hrests := h.rests hq
        rw [Rests, hcall] at hrests
        exact Or.inr (Or.inr hrests)
  · cases hstep

theorem Inv.step {t t' : Lifecycle} {e : Event} (h : t.Inv) (he : e ≠ .timedOut)
    (hstep : t.step e = some t') : t'.Inv := by
  cases e with
  | callStart =>
      simp only [Lifecycle.step] at hstep
      split at hstep
      · rename_i hcall
        obtain rfl := Option.some.inj hstep
        split
        · rename_i hstate
          exact h.callStart hcall hstate
        · exact h
      · cases hstep
  | callStop =>
      simp only [Lifecycle.step] at hstep
      split at hstep
      · rename_i hcall
        obtain rfl := Option.some.inj hstep
        split
        · exact h
        · exact h.callStop hcall
      · cases hstep
  | advance => exact h.advance hstep
  | build ok => exact h.build hstep
  | timedOut => exact absurd rfl he
  | proceed i =>
      obtain ⟨c, hc, hstep⟩ := Option.bind_eq_some_iff.mp hstep
      exact h.proceed hc hstep
  | fail i =>
      obtain ⟨c, hc, hstep⟩ := Option.bind_eq_some_iff.mp hstep
      split at hstep
      · rename_i hpc
        obtain rfl := Option.some.inj hstep
        exact h.keep ⟨hc, by rw [hpc]; rfl⟩ rfl (by rw [hpc]; rfl) (by rintro ⟨⟩)
      · cases hstep
  | cancel i =>
      obtain ⟨c, hc, hstep⟩ := Option.bind_eq_some_iff.mp hstep
      split at hstep
      · rename_i hboth
        obtain rfl := Option.some.inj hstep
        refine h.cancel ⟨hc, ?_⟩ hboth.1
        have hawaiting := hboth.2
        cases hpc : c.pc <;> simp [hpc, PipelinePc.awaiting, PipelinePc.live] at hawaiting ⊢
      · cases hstep

/-- As long as no shutdown runs into its timeout, a client never runs two
pipelines, its state between two calls is that of the one it runs, or says
that there is none, and every connection it announces was started. -/
theorem client_truthful {es : List Event} (h : .timedOut ∉ es) :
    Always step Truthful new es := by
  have hmeets : Meets step (fun _ e => e ≠ Event.timedOut) new es :=
    meets_of_forall fun e he _ heq => h (heq ▸ he)
  exact (always_of_meets (fun _ _ _ hinv he hstep => hinv.step he hstep) inv_new hmeets).mono
    fun _ hinv => hinv.truthful

/-- A client is started, stopped while it runs, and started again. -/
theorem client_truthful_restart :
    Always step Truthful new
      [.callStart, .advance, .advance, .build true, .proceed 0, .proceed 0, .callStop, .advance,
        .proceed 0, .advance, .advance, .cancel 0, .advance, .advance, .advance, .callStart] :=
  client_truthful (by decide)

/-! ## After a stop -/

/-- `stop` is on its way, or has left nothing that could write the state. -/
def Stopped (t : Lifecycle) : Prop :=
  match t.call with
  | .idle | .announcingEnd => t.Quiet ∧ t.state = .disconnected
  | .stopping | .announcingStop | .signalling | .waiting _ | .settling => True
  | .starting | .announcingStart | .building | .replacing _ => False

theorem quiet_setPc {t : Lifecycle} (h : t.Quiet) {i : Nat} {pc : PipelinePc}
    (hpc : pc.live = false) : (t.setPc i pc).Quiet := by
  intro j d hd
  rcases live_setPc hd with ⟨-, hlive, -⟩ | ⟨-, hd⟩
  · exact Bool.false_ne_true (hpc.symm.trans hlive)
  · exact h j d hd

/-- A step of a task leaves the caller where it is, and writes no state
unless the task is live. -/
theorem task_step {t t' : Lifecycle} {i : Nat} {e : Event}
    (he : e = .proceed i ∨ e = .fail i ∨ e = .cancel i) (hstep : t.step e = some t') :
    t'.call = t.call ∧ (t.Quiet → t'.Quiet ∧ t'.state = t.state) := by
  rcases he with rfl | rfl | rfl
  · obtain ⟨c, hc, hstep⟩ := Option.bind_eq_some_iff.mp hstep
    cases hpc : c.pc with
    | reporting ok =>
        rw [hpc] at hstep
        obtain rfl := Option.some.inj hstep
        exact ⟨rfl, fun hquiet => ⟨quiet_setPc hquiet rfl, rfl⟩⟩
    | ended | cancelled =>
        rw [hpc] at hstep
        cases hstep
    | connecting | raising | announcing | looping | closing | lowering | returned ok =>
        rw [hpc] at hstep
        obtain rfl := Option.some.inj hstep
        exact ⟨rfl, fun hquiet => absurd ⟨hc, by rw [hpc]; rfl⟩ (hquiet i c)⟩
  · obtain ⟨c, hc, hstep⟩ := Option.bind_eq_some_iff.mp hstep
    split at hstep
    · rename_i hpc
      obtain rfl := Option.some.inj hstep
      exact ⟨rfl, fun hquiet => absurd ⟨hc, by rw [hpc]; rfl⟩ (hquiet i c)⟩
    · cases hstep
  · obtain ⟨c, hc, hstep⟩ := Option.bind_eq_some_iff.mp hstep
    split at hstep
    · obtain rfl := Option.some.inj hstep
      exact ⟨rfl, fun hquiet => ⟨quiet_setPc hquiet rfl, rfl⟩⟩
    · cases hstep

theorem Stopped.task {t t' : Lifecycle} (h : t.Stopped) (hcall : t'.call = t.call)
    (hquiet : t.Quiet → t'.Quiet ∧ t'.state = t.state) : t'.Stopped := by
  unfold Stopped at h ⊢
  rw [hcall]
  cases hc : t.call with
  | idle | announcingEnd =>
      rw [hc] at h
      obtain ⟨hq, hstate⟩ := hquiet h.1
      exact ⟨hq, hstate.trans h.2⟩
  | stopping | announcingStop | signalling | waiting _ | settling => trivial
  | starting | announcingStart | building | replacing _ =>
      rw [hc] at h
      exact h

theorem Stopped.advance {t t' : Lifecycle} (hinv : t.Inv) (h : t.Stopped)
    (hstep : t.advance = some t') : t'.Stopped := by
  unfold Lifecycle.advance at hstep
  unfold Stopped at h
  cases hcall : t.call with
  | idle | building =>
      rw [hcall] at hstep
      cases hstep
  | starting | announcingStart | replacing _ =>
      rw [hcall] at h
      exact h.elim
  | stopping | announcingStop =>
      rw [hcall] at hstep
      obtain rfl := Option.some.inj hstep
      trivial
  | signalling =>
      simp only [hcall] at hstep
      split at hstep
      · obtain rfl := Option.some.inj hstep
        trivial
      · obtain rfl := Option.some.inj hstep
        trivial
  | waiting i =>
      simp only [hcall] at hstep
      split at hstep
      · obtain rfl := Option.some.inj hstep
        trivial
      · cases hstep
  | settling =>
      rw [hcall] at hstep
      obtain rfl := Option.some.inj hstep
      refine ⟨fun i c hc => ?_, rfl⟩
      have hplaced := hinv.placed i c hc
      rw [Placed, hcall] at hplaced
      exact hplaced
  | announcingEnd =>
      rw [hcall] at hstep h
      obtain rfl := Option.some.inj hstep
      exact h

theorem Stopped.step {t t' : Lifecycle} {e : Event} (hinv : t.Inv) (h : t.Stopped)
    (he : e ≠ .timedOut) (he' : e ≠ .callStart) (hstep : t.step e = some t') : t'.Stopped := by
  cases e with
  | callStart => exact absurd rfl he'
  | callStop =>
      simp only [Lifecycle.step] at hstep
      split at hstep
      · obtain rfl := Option.some.inj hstep
        split
        · exact h
        · trivial
      · cases hstep
  | advance => exact h.advance hinv hstep
  | build ok =>
      simp only [Lifecycle.step] at hstep
      split at hstep
      · rename_i hcall
        rw [Stopped, hcall] at h
        exact h.elim
      · cases hstep
  | timedOut => exact absurd rfl he
  | proceed i =>
      obtain ⟨hcall, hquiet⟩ := task_step (Or.inl rfl) hstep
      exact h.task hcall hquiet
  | fail i =>
      obtain ⟨hcall, hquiet⟩ := task_step (Or.inr (Or.inl rfl)) hstep
      exact h.task hcall hquiet
  | cancel i =>
      obtain ⟨hcall, hquiet⟩ := task_step (Or.inr (Or.inr rfl)) hstep
      exact h.task hcall hquiet

/-- Once `stop` has returned, nothing writes the state until the next
`start`: the client is disconnected, and no pipeline runs. -/
theorem stop_final {s t : Lifecycle} {pre es : List Event} (hpre : exec step new pre = some s)
    (hcall : s.call = .idle) (hrun : exec step s (.callStop :: es) = some t)
    (htimely : .timedOut ∉ pre ++ es) (hstart : .callStart ∉ es) (hidle : t.call = .idle) :
    t.state = .disconnected ∧ t.Quiet := by
  have htimely' : .timedOut ∉ pre ∧ .timedOut ∉ es := by
    simpa only [List.mem_append, not_or] using htimely
  have hkeeps : ∀ s es t, .timedOut ∉ es → .callStart ∉ es → s.Inv ∧ s.Stopped →
      exec step s es = some t → t.Inv ∧ t.Stopped := by
    intro s es t htimely hstart h hrun
    have hmeets : Meets step (fun _ e => e ≠ Event.timedOut ∧ e ≠ Event.callStart) s es :=
      meets_of_forall fun e he _ => ⟨fun heq => htimely (heq ▸ he), fun heq => hstart (heq ▸ he)⟩
    refine (always_of_meets (I := fun s => s.Inv ∧ s.Stopped) ?_ h hmeets).last hrun
    exact fun _ _ _ hinv he hstep =>
      ⟨hinv.1.step he.1 hstep, hinv.2.step hinv.1 he.1 he.2 hstep⟩
  have hinv : s.Inv := by
    have hmeets : Meets step (fun _ e => e ≠ Event.timedOut) new pre :=
      meets_of_forall fun e he _ heq => htimely'.1 (heq ▸ he)
    exact (always_of_meets (fun _ _ _ hinv he hstep => hinv.step he hstep) inv_new hmeets).last hpre
  obtain ⟨u, hstep, hrun⟩ := exec_cons.mp hrun
  have hstopped : u.Stopped := by
    simp only [step, hcall, Option.some.injEq] at hstep
    subst hstep
    split
    · rename_i hstate
      refine (?_ : Stopped s)
      rw [Stopped, hcall]
      refine ⟨fun i c hc => ?_, hstate⟩
      have hplaced := hinv.placed i c hc
      rw [Placed, hcall] at hplaced
      exact shown_ne_disconnected c.pc (hplaced.2.2.symm.trans hstate)
    · trivial
  have hlast := (hkeeps u es t htimely'.2 hstart ⟨hinv.step (by rintro ⟨⟩) hstep, hstopped⟩ hrun).2
  rw [Stopped, hidle] at hlast
  exact ⟨hlast.2, hlast.1⟩

/-- The pipeline reports its own end while `stop` is under way. -/
theorem stop_final_crossing :
    ∃ s t : Lifecycle,
      exec step new [.callStart, .advance, .advance, .build true, .fail 0] = some s ∧
      exec step s [.callStop, .advance, .proceed 0, .proceed 0, .advance, .advance, .advance,
        .advance, .advance] = some t ∧
      t.state = .disconnected ∧ t.Quiet := by
  refine ⟨_, _, rfl, rfl, ?_⟩
  exact @stop_final _ _ [.callStart, .advance, .advance, .build true, .fail 0]
    [.advance, .proceed 0, .proceed 0, .advance, .advance, .advance, .advance, .advance]
    rfl rfl rfl (by decide) (by decide) rfl

/-- A pipeline that outlives the timeout connects a client that has been
stopped. -/
example :
    (exec step new [.callStart, .advance, .advance, .build true, .proceed 0, .callStop, .advance,
      .advance, .advance, .timedOut, .advance, .advance, .proceed 0]).map
        (fun t => (t.call, t.state, t.runtime)) = some (.idle, .connected, none) := by decide

end Lifecycle

end Kanrin
