import Kanrin.Lib.Run
import Kanrin.Lib.Demux
import Kanrin.Lib.Parties
import Kanrin.Forwarding
import Kanrin.Packets
import Mathlib.Logic.Function.Basic

/-!
# Dispatching replies

`PacketForwarder` of the server's `forwarder.rs` in the direction of the
clients: the queues that `register_client` and `unregister_client` file
under tunnel addresses, and the loop of `spawn_dispatcher`.

The loop takes the lock on the table twice, once to look a queue up and
once more to remove it if nobody reads from it any longer. Between the two
the address can be registered anew, for another client. What follows is
that a queue gets nothing but packets of its own address, each packet at
most once and in order (`dispatcher_shares`), and that a registration the
loop holds no older queue against gets all of them (`client_receives`).
-/

namespace Kanrin

open Lib

namespace PacketForwarder

theorem Forwardable.slice_bound {packet : Bytes} (h : Forwardable packet) :
    16 + 4 ≤ packet.length := h.1

/-- Whose packet it is, if the dispatcher looks at it at all. -/
def destination (packet : Bytes) : Option Ipv4Addr :=
  if h : Forwardable packet then some (slice packet 16 4 h.slice_bound) else none

end PacketForwarder

open PacketForwarder (destination)

/-- A channel that `register_client` opened. What waits in it is what was
sent beyond the first `taken` packets. -/
structure ReplyQueue where
  address : Ipv4Addr
  sent : List Bytes
  taken : Nat
  /-- The receiver is gone. -/
  closed : Bool
  bounded : taken ≤ sent.length

namespace ReplyQueue

def new (address : Ipv4Addr) : ReplyQueue where
  address := address
  sent := []
  taken := 0
  closed := false
  bounded := Nat.le_refl 0

theorem bounded_push {q : ReplyQueue} (packet : Bytes) :
    q.taken ≤ (q.sent ++ [packet]).length := by
  rw [List.length_append]
  exact Nat.le_add_right_of_le q.bounded

def push (q : ReplyQueue) (packet : Bytes) : ReplyQueue :=
  { q with sent := q.sent ++ [packet], bounded := bounded_push packet }

/-- Drop the receiver. -/
def close (q : ReplyQueue) : ReplyQueue := { q with closed := true }

/-- The session's writer takes the next packet. -/
def recv (q : ReplyQueue) : ReplyQueue :=
  if h : q.taken < q.sent.length then { q with taken := q.taken + 1, bounded := h } else q

/-- What the session's writer has taken. -/
def received (q : ReplyQueue) : List Bytes := q.sent.take q.taken

@[simp] theorem address_push (q : ReplyQueue) (p : Bytes) : (q.push p).address = q.address := rfl

@[simp] theorem closed_push (q : ReplyQueue) (p : Bytes) : (q.push p).closed = q.closed := rfl

@[simp] theorem sent_push (q : ReplyQueue) (p : Bytes) : (q.push p).sent = q.sent ++ [p] := rfl

@[simp] theorem sent_close (q : ReplyQueue) : q.close.sent = q.sent := rfl

@[simp] theorem address_close (q : ReplyQueue) : q.close.address = q.address := rfl

@[simp] theorem sent_recv (q : ReplyQueue) : q.recv.sent = q.sent := by
  unfold recv
  split <;> rfl

@[simp] theorem address_recv (q : ReplyQueue) : q.recv.address = q.address := by
  unfold recv
  split <;> rfl

@[simp] theorem closed_recv (q : ReplyQueue) : q.recv.closed = q.closed := by
  unfold recv
  split <;> rfl

end ReplyQueue

/-- Where the dispatcher is. -/
inductive DispatchPc where
  | reading
  /-- About to look up the owner of a packet. -/
  | looking (packet : Bytes) (dst : Ipv4Addr)
  /-- With a sender it cloned out of the table. -/
  | sending (packet : Bytes) (dst : Ipv4Addr) (queue : Nat)
  /-- Nobody reads from the queue any longer. -/
  | removing (dst : Ipv4Addr)
  /-- The TUN device failed. -/
  | stopped
deriving DecidableEq

/-- The packet the dispatcher has read and not dealt with. -/
def DispatchPc.inHand : DispatchPc → List Bytes
  | .looking packet _ | .sending packet _ _ => [packet]
  | _ => []

structure Dispatch where
  clients : Ipv4Addr → Option Nat
  queues : List ReplyQueue
  pc : DispatchPc

namespace Dispatch

def start : Dispatch where
  clients := fun _ => none
  queues := []
  pc := .reading

inductive Event where
  | register (address : Ipv4Addr)
  | unregister (address : Ipv4Addr)
  /-- The session that owns the receiver is dropped. -/
  | drop (queue : Nat)
  | recv (queue : Nat)
  /-- The dispatcher reads a packet from the TUN device. -/
  | read (packet : Bytes)
  | readFails
  | lookup
  | send
  | remove
deriving DecidableEq

def setQueue (s : Dispatch) (n : Nat) (f : ReplyQueue → ReplyQueue) : Dispatch :=
  { s with queues := s.queues.modify n f }

@[simp] theorem pc_setQueue (s : Dispatch) (n : Nat) (f : ReplyQueue → ReplyQueue) :
    (s.setQueue n f).pc = s.pc := rfl

def step (s : Dispatch) : Event → Option Dispatch
  | .register a =>
      some { s with
        clients := Function.update s.clients a (some s.queues.length)
        queues := s.queues ++ [.new a] }
  | .unregister a => some { s with clients := Function.update s.clients a none }
  | .drop n => some (s.setQueue n .close)
  | .recv n => some (s.setQueue n .recv)
  | .read packet =>
      match s.pc with
      | .reading =>
          match destination packet with
          | none => some s
          | some dst => some { s with pc := .looking packet dst }
      | _ => none
  | .readFails =>
      match s.pc with
      | .reading => some { s with pc := .stopped }
      | _ => none
  | .lookup =>
      match s.pc with
      | .looking packet dst =>
          match s.clients dst with
          | some n => some { s with pc := .sending packet dst n }
          | none => some { s with pc := .reading }
      | _ => none
  | .send =>
      match s.pc with
      | .sending packet dst n =>
          s.queues[n]?.map fun q =>
            if q.closed then { s with pc := .removing dst }
            else { s.setQueue n (.push · packet) with pc := .reading }
      | _ => none
  | .remove =>
      match s.pc with
      | .removing dst =>
          some { s with clients := Function.update s.clients dst none, pc := .reading }
      | _ => none

/-- What the dispatcher read in a run. -/
def readsOf (es : List Event) : List Bytes :=
  es.filterMap fun
    | .read packet => some packet
    | _ => none

/-! ## The steps -/

inductive Steps (s : Dispatch) : Event → Dispatch → Prop where
  | register (a : Ipv4Addr) : Steps s (.register a) { s with
      clients := Function.update s.clients a (some s.queues.length)
      queues := s.queues ++ [.new a] }
  | unregister (a : Ipv4Addr) :
      Steps s (.unregister a) { s with clients := Function.update s.clients a none }
  | drop (n : Nat) : Steps s (.drop n) (s.setQueue n .close)
  | recv (n : Nat) : Steps s (.recv n) (s.setQueue n .recv)
  | skip {packet : Bytes} (hpc : s.pc = .reading) (hnone : destination packet = none) :
      Steps s (.read packet) s
  | read {packet : Bytes} {dst : Ipv4Addr} (hpc : s.pc = .reading)
      (hdst : destination packet = some dst) :
      Steps s (.read packet) { s with pc := .looking packet dst }
  | readFails (hpc : s.pc = .reading) : Steps s .readFails { s with pc := .stopped }
  | found {packet : Bytes} {dst : Ipv4Addr} {n : Nat} (hpc : s.pc = .looking packet dst)
      (hn : s.clients dst = some n) : Steps s .lookup { s with pc := .sending packet dst n }
  | unknown {packet : Bytes} {dst : Ipv4Addr} (hpc : s.pc = .looking packet dst)
      (hnone : s.clients dst = none) : Steps s .lookup { s with pc := .reading }
  | dead {packet : Bytes} {dst : Ipv4Addr} {n : Nat} {q : ReplyQueue}
      (hpc : s.pc = .sending packet dst n) (hq : s.queues[n]? = some q) (hclosed : q.closed = true) :
      Steps s .send { s with pc := .removing dst }
  | sent {packet : Bytes} {dst : Ipv4Addr} {n : Nat} {q : ReplyQueue}
      (hpc : s.pc = .sending packet dst n) (hq : s.queues[n]? = some q)
      (hopen : q.closed = false) :
      Steps s .send { s.setQueue n (.push · packet) with pc := .reading }
  | remove {dst : Ipv4Addr} (hpc : s.pc = .removing dst) :
      Steps s .remove { s with clients := Function.update s.clients dst none, pc := .reading }

theorem steps_of_step {s t : Dispatch} {e : Event} (h : s.step e = some t) : Steps s e t := by
  cases e with
  | register a | unregister a | drop n | recv n =>
      obtain rfl := Option.some.inj h
      constructor
  | read packet =>
      simp only [step] at h
      split at h
      · rename_i hpc
        split at h
        · rename_i hnone
          obtain rfl := Option.some.inj h
          exact .skip hpc hnone
        · rename_i dst hdst
          obtain rfl := Option.some.inj h
          exact .read hpc hdst
      · cases h
  | readFails =>
      simp only [step] at h
      split at h
      · rename_i hpc
        obtain rfl := Option.some.inj h
        exact .readFails hpc
      · cases h
  | lookup =>
      simp only [step] at h
      split at h
      · rename_i packet dst hpc
        split at h
        · rename_i n hn
          obtain rfl := Option.some.inj h
          exact .found hpc hn
        · rename_i hnone
          obtain rfl := Option.some.inj h
          exact .unknown hpc hnone
      · cases h
  | send =>
      simp only [step] at h
      split at h
      · rename_i packet dst n hpc
        obtain ⟨q, hq, rfl⟩ := Option.map_eq_some_iff.mp h
        cases hclosed : q.closed with
        | true => exact .dead hpc hq hclosed
        | false => exact .sent hpc hq hclosed
      · cases h
  | remove =>
      simp only [step] at h
      split at h
      · rename_i dst hpc
        obtain rfl := Option.some.inj h
        exact .remove hpc
      · cases h

/-! ## Who gets what -/

/-- The addresses of the queues, in the order they were opened. -/
def addresses (s : Dispatch) : List Ipv4Addr := s.queues.map ReplyQueue.address

theorem addresses_setQueue (s : Dispatch) (n : Nat) {f : ReplyQueue → ReplyQueue}
    (h : ∀ q, (f q).address = q.address) : (s.setQueue n f).addresses = s.addresses :=
  map_modify h

theorem lt_of_addresses {s : Dispatch} {n : Nat} {a : Ipv4Addr} (h : s.addresses[n]? = some a) :
    n < s.queues.length := by
  obtain ⟨hlt, -⟩ := List.getElem?_eq_some_iff.mp h
  rwa [addresses, List.length_map] at hlt

theorem addresses_concat {s : Dispatch} {n : Nat} {a b : Ipv4Addr} (h : s.addresses[n]? = some a) :
    (s.addresses ++ [b])[n]? = some a := by
  rwa [List.getElem?_append_left (List.getElem?_eq_some_iff.mp h).1]

/-- `log` says what became of each packet the dispatcher has dealt with. -/
structure Told (s : Dispatch) (log : List (Bytes × Option Nat)) : Prop where
  sent : ∀ n, ∀ q ∈ s.queues[n]?, q.sent = share n log
  own : ∀ n, ∀ p ∈ share n log, ∃ a, destination p = some a ∧ s.addresses[n]? = some a
  registered : ∀ a n, s.clients a = some n → s.addresses[n]? = some a
  looking : ∀ p dst, s.pc = .looking p dst → destination p = some dst
  sending : ∀ p dst n, s.pc = .sending p dst n →
    destination p = some dst ∧ s.addresses[n]? = some dst

theorem told_start : start.Told [] where
  sent n q h := by cases h
  own n p h := by cases h
  registered a n h := by cases h
  looking p dst h := by cases h
  sending p dst n h := by cases h

theorem Told.share_fresh {s : Dispatch} {log : List (Bytes × Option Nat)} (h : s.Told log) :
    share s.queues.length log = [] := by
  refine List.eq_nil_iff_forall_not_mem.mpr fun p hp => ?_
  obtain ⟨a, -, ha⟩ := h.own _ p hp
  exact Nat.lt_irrefl _ (lt_of_addresses ha)

theorem Told.register {s : Dispatch} {log : List (Bytes × Option Nat)} (h : s.Told log)
    (a : Ipv4Addr) : Told { s with
      clients := Function.update s.clients a (some s.queues.length)
      queues := s.queues ++ [.new a] } log := by
  have haddr : addresses { s with
      clients := Function.update s.clients a (some s.queues.length)
      queues := s.queues ++ [.new a] } = s.addresses ++ [a] := List.map_append
  refine ⟨fun n q hq => ?_, fun n p hp => ?_, fun b n hb => ?_, h.looking, fun p dst n hpc => ?_⟩
  · rcases Nat.lt_trichotomy n s.queues.length with hn | rfl | hn
    · rw [List.getElem?_append_left hn] at hq
      exact h.sent n q hq
    · rw [List.getElem?_concat_length] at hq
      obtain rfl := Option.some.inj hq
      exact h.share_fresh.symm
    · rw [List.getElem?_eq_none (by simp; omega)] at hq
      cases hq
  · obtain ⟨b, hb, hn⟩ := h.own n p hp
    exact ⟨b, hb, by rw [haddr]; exact addresses_concat hn⟩
  · rw [haddr]
    by_cases hba : b = a
    · subst hba
      simp only [Function.update_self, Option.some.injEq] at hb
      subst hb
      have hlen : s.addresses.length = s.queues.length := List.length_map _
      rw [← hlen, List.getElem?_concat_length]
    · simp only [Function.update_of_ne hba] at hb
      exact addresses_concat (h.registered b n hb)
  · obtain ⟨hdst, hn⟩ := h.sending p dst n hpc
    exact ⟨hdst, by rw [haddr]; exact addresses_concat hn⟩

theorem Told.setQueue {s : Dispatch} {log : List (Bytes × Option Nat)} (h : s.Told log) (n : Nat)
    {f : ReplyQueue → ReplyQueue} (hsent : ∀ q, (f q).sent = q.sent)
    (haddr : ∀ q, (f q).address = q.address) : (s.setQueue n f).Told log := by
  have heq := addresses_setQueue s n haddr
  refine ⟨fun m q hq => ?_, ?_, ?_, h.looking, ?_⟩
  · rcases modify_cases hq with ⟨rfl, q0, hq0, rfl⟩ | ⟨-, hq⟩
    · exact (hsent q0).trans (h.sent m q0 hq0)
    · exact h.sent m q hq
  · rw [heq]
    exact h.own
  · rw [heq]
    exact h.registered
  · rw [heq]
    exact h.sending

/-- A client less, and the dispatcher wherever it holds no packet. -/
theorem Told.forget {s : Dispatch} {log : List (Bytes × Option Nat)} (h : s.Told log)
    (a : Ipv4Addr) : Told { s with clients := Function.update s.clients a none } log := by
  refine ⟨h.sent, h.own, fun b n hb => ?_, h.looking, h.sending⟩
  by_cases hba : b = a
  · subst hba
    simp only [Function.update_self, reduceCtorEq] at hb
  · simp only [Function.update_of_ne hba] at hb
    exact h.registered b n hb

/-- The dispatcher moves to a point where it holds no packet. -/
theorem Told.idle {s : Dispatch} {log : List (Bytes × Option Nat)} (h : s.Told log)
    {pc : DispatchPc} (hpc : pc.inHand = []) : Told { s with pc } log := by
  refine ⟨h.sent, h.own, h.registered, fun p dst heq => ?_, fun p dst n heq => ?_⟩
  · subst heq
    cases hpc
  · subst heq
    cases hpc

/-- A packet that goes nowhere. -/
theorem Told.lose {s : Dispatch} {log : List (Bytes × Option Nat)} (h : s.Told log) (p : Bytes) :
    s.Told (log ++ [(p, none)]) := by
  have hsame : ∀ n, share n (log ++ [(p, none)]) = share n log := by
    intro n
    rw [share_append, share_singleton_of_ne (Option.some_ne_none n).symm, List.append_nil]
  refine ⟨fun n q hq => ?_, fun n => ?_, h.registered, h.looking, h.sending⟩
  · rw [hsame]
    exact h.sent n q hq
  · rw [hsame]
    exact h.own n

theorem Told.deliver {s : Dispatch} {log : List (Bytes × Option Nat)} (h : s.Told log)
    {p : Bytes} {dst : Ipv4Addr} {n : Nat} (hpc : s.pc = .sending p dst n) :
    Told { s.setQueue n (.push · p) with pc := .reading } (log ++ [(p, some n)]) := by
  obtain ⟨hdst, hn⟩ := h.sending p dst n hpc
  have haddr := addresses_setQueue s n (f := (ReplyQueue.push · p)) fun _ => rfl
  refine ⟨fun m q hq => ?_, fun m x hx => ?_, ?_, by rintro _ _ ⟨⟩, by rintro _ _ _ ⟨⟩⟩
  · rw [share_append]
    rcases modify_cases hq with ⟨rfl, q0, hq0, rfl⟩ | ⟨hne, hq⟩
    · rw [ReplyQueue.sent_push, h.sent m q0 hq0, share_singleton_self]
    · rw [share_singleton_of_ne fun heq => hne (Option.some.inj heq).symm, List.append_nil]
      exact h.sent m q hq
  · have hown : ∃ a, destination x = some a ∧ s.addresses[m]? = some a := by
      rcases List.mem_append.mp (share_append m log _ ▸ hx) with hx | hx
      · exact h.own m x hx
      · obtain hmem := List.mem_singleton.mp (mem_share.mp hx)
        obtain ⟨rfl, hm⟩ := Prod.mk.inj hmem
        obtain rfl := Option.some.inj hm
        exact ⟨dst, hdst, hn⟩
    obtain ⟨a, ha, hm⟩ := hown
    exact ⟨a, ha, haddr ▸ hm⟩
  · exact fun a m ha => haddr ▸ h.registered a m ha

/-- The packets that are read are dealt with one after the other. -/
theorem Told.step {s t : Dispatch} {log : List (Bytes × Option Nat)} {e : Event} (h : s.Told log)
    (hstep : s.step e = some t) :
    ∃ log', t.Told log' ∧ log'.map Prod.fst ++ t.pc.inHand
      = log.map Prod.fst ++ s.pc.inHand ++ readsOf [e] := by
  cases steps_of_step hstep with
  | register a => exact ⟨log, h.register a, by simp [readsOf]⟩
  | unregister a => exact ⟨log, h.forget a, by simp [readsOf]⟩
  | drop n =>
      exact ⟨log, h.setQueue n ReplyQueue.sent_close ReplyQueue.address_close,
        by simp [readsOf]⟩
  | recv n =>
      exact ⟨log, h.setQueue n ReplyQueue.sent_recv ReplyQueue.address_recv,
        by simp [readsOf]⟩
  | @skip packet hpc hnone =>
      exact ⟨_, h.lose packet, by simp [readsOf, hpc, DispatchPc.inHand]⟩
  | @read packet dst hpc hdst =>
      refine ⟨log, ⟨h.sent, h.own, h.registered, ?_, by rintro _ _ _ ⟨⟩⟩,
        by simp [readsOf, hpc, DispatchPc.inHand]⟩
      rintro p d ⟨⟩
      exact hdst
  | readFails hpc => exact ⟨log, h.idle rfl, by simp [readsOf, hpc, DispatchPc.inHand]⟩
  | @found packet dst n hpc hn =>
      refine ⟨log, ⟨h.sent, h.own, h.registered, by rintro _ _ ⟨⟩, ?_⟩,
        by simp [readsOf, hpc, DispatchPc.inHand]⟩
      rintro p d m ⟨⟩
      exact ⟨h.looking _ _ hpc, h.registered _ _ hn⟩
  | @unknown packet dst hpc hnone =>
      exact ⟨_, (h.lose packet).idle rfl, by simp [readsOf, hpc, DispatchPc.inHand]⟩
  | @dead packet dst n q hpc hq hclosed =>
      exact ⟨_, (h.lose packet).idle rfl, by simp [readsOf, hpc, DispatchPc.inHand]⟩
  | @sent packet dst n q hpc hq hopen =>
      exact ⟨_, h.deliver hpc, by simp [readsOf, hpc, DispatchPc.inHand]⟩
  | @remove dst hpc =>
      exact ⟨log, (h.forget dst).idle rfl, by simp [readsOf, hpc, DispatchPc.inHand]⟩

theorem readsOf_cons (e : Event) (es : List Event) : readsOf (e :: es) = readsOf [e] ++ readsOf es :=
  List.filterMap_append (l := [e])

theorem Told.exec {s t : Dispatch} {log : List (Bytes × Option Nat)} {es : List Event}
    (h : s.Told log) (hrun : Lib.exec Dispatch.step s es = some t) :
    ∃ log', t.Told log' ∧ log'.map Prod.fst ++ t.pc.inHand
      = log.map Prod.fst ++ s.pc.inHand ++ readsOf es := by
  induction es generalizing s log with
  | nil =>
      obtain rfl := Option.some.inj hrun
      exact ⟨log, h, by simp [readsOf]⟩
  | cons e es ih =>
      obtain ⟨u, hstep, hrun⟩ := exec_cons.mp hrun
      obtain ⟨mid, hmid, heq⟩ := h.step hstep
      obtain ⟨log', hlog', heq'⟩ := ih hmid hrun
      exact ⟨log', hlog', by rw [heq', heq, readsOf_cons e es, List.append_assoc]⟩

/-- The packets that were read are shared out among the queues, in order,
none of them twice, and none to a queue of another address. -/
theorem dispatcher_shares {t : Dispatch} {es : List Event}
    (hrun : exec step start es = some t) :
    ∃ log : List (Bytes × Option Nat),
      log.map Prod.fst ++ t.pc.inHand = readsOf es ∧
      ∀ n, ∀ q ∈ t.queues[n]?, q.sent = share n log ∧ q.sent.Sublist (readsOf es)
        ∧ q.received <+: q.sent ∧ ∀ p ∈ q.sent, destination p = some q.address := by
  obtain ⟨log, htold, heq⟩ := told_start.exec hrun
  have hreads : log.map Prod.fst ++ t.pc.inHand = readsOf es := by
    simpa [start, DispatchPc.inHand] using heq
  refine ⟨log, hreads, fun n q hq => ?_⟩
  have hsent := htold.sent n q hq
  have horder := (share_sublist n log).trans (hreads ▸ List.sublist_append_left _ _)
  refine ⟨hsent, hsent ▸ horder, List.take_prefix _ _, fun p hp => ?_⟩
  obtain ⟨a, ha, haddr⟩ := htold.own n p (hsent ▸ hp)
  rw [addresses, List.getElem?_map, hq] at haddr
  rw [ha, ← Option.some.inj haddr]

/-- An echo reply to the first client address. -/
def clientAddress : Ipv4Addr := 10 ::ᵥ 10 ::ᵥ 0 ::ᵥ 2 ::ᵥ .nil

def reply : Bytes :=
  [0x45, 0, 0, 28, 0, 0, 0, 0, 64, 1, 0, 0, 1, 1, 1, 1, 10, 10, 0, 2, 0, 0, 0, 0, 0, 0, 0, 0]

/-- A client comes, and the first packets for it wait when it goes. -/
theorem dispatcher_shares_first :
    ∃ (t : Dispatch) (log : List (Bytes × Option Nat)),
      exec step start [.register clientAddress, .read reply, .lookup, .send, .recv 0] = some t ∧
        log.map Prod.fst ++ t.pc.inHand = [reply] ∧
        ∀ n, ∀ q ∈ t.queues[n]?, q.sent = share n log ∧ q.sent.Sublist [reply]
          ∧ q.received <+: q.sent ∧ ∀ p ∈ q.sent, destination p = some q.address := by
  have hrun : exec step start [.register clientAddress, .read reply, .lookup, .send, .recv 0]
      = some _ := rfl
  obtain ⟨log, hlog⟩ := dispatcher_shares hrun
  exact ⟨_, log, hrun, hlog⟩

/-! ## What a client gets -/

def addressed (a : Ipv4Addr) (packet : Bytes) : Bool := decide (destination packet = some a)

/-- The dispatcher holds no queue that was registered for `a`. -/
def Clear (a : Ipv4Addr) : DispatchPc → Prop
  | .sending _ dst _ | .removing dst => dst ≠ a
  | _ => True

instance (a : Ipv4Addr) : (pc : DispatchPc) → Decidable (Clear a pc)
  | .sending _ dst _ | .removing dst => inferInstanceAs (Decidable (dst ≠ a))
  | .reading | .looking .. | .stopped => isTrue trivial

/-- The calls that end the registration of `a` or its queue `n`. -/
def Event.Ends (a : Ipv4Addr) (n : Nat) : Event → Prop
  | .register b | .unregister b => b = a
  | .drop m => m = n
  | _ => False

instance (a : Ipv4Addr) (n : Nat) : (e : Event) → Decidable (e.Ends a n)
  | .register b | .unregister b => inferInstanceAs (Decidable (b = a))
  | .drop m => inferInstanceAs (Decidable (m = n))
  | .recv _ | .read _ | .readFails | .lookup | .send | .remove => isFalse id

/-- Queue `n` is the one of `a`, has got the packets `got`, and there is
nothing in the dispatcher's hands that would end that. -/
structure Serves (s : Dispatch) (a : Ipv4Addr) (n : Nat) (got : List Bytes) : Prop where
  told : ∃ log, s.Told log
  registered : s.clients a = some n
  queue : ∃ q, s.queues[n]? = some q ∧ q.closed = false ∧ q.sent = got
  sending : ∀ p dst m, s.pc = .sending p dst m → (dst = a ↔ m = n)
  removing : s.pc ≠ .removing a

theorem serves_register {s : Dispatch} {log : List (Bytes × Option Nat)} (h : s.Told log)
    {a : Ipv4Addr} (hclear : Clear a s.pc) :
    Serves { s with
      clients := Function.update s.clients a (some s.queues.length)
      queues := s.queues ++ [.new a] } a s.queues.length [] := by
  refine ⟨⟨log, h.register a⟩, Function.update_self .., ⟨_, List.getElem?_concat_length, rfl, rfl⟩,
    fun p dst m hpc => ?_, fun hpc => ?_⟩
  · have hpc' : s.pc = .sending p dst m := hpc
    rw [hpc'] at hclear
    have hlt := lt_of_addresses (h.sending p dst m hpc').2
    exact iff_of_false hclear (Nat.ne_of_lt hlt)
  · have hpc' : s.pc = .removing a := hpc
    rw [hpc'] at hclear
    exact hclear rfl

theorem Serves.setQueue {s : Dispatch} {a : Ipv4Addr} {n : Nat} {got : List Bytes}
    (h : s.Serves a n got) {m : Nat} {f : ReplyQueue → ReplyQueue}
    (htold : ∃ log, (s.setQueue m f).Told log)
    (hkeep : m = n → ∀ q, (f q).closed = q.closed ∧ (f q).sent = q.sent) :
    (s.setQueue m f).Serves a n got := by
  obtain ⟨q, hq, hopen, hgot⟩ := h.queue
  refine ⟨htold, h.registered, ?_, h.sending, h.removing⟩
  by_cases hm : m = n
  · subst hm
    obtain ⟨hclosed, hsent⟩ := hkeep rfl q
    exact ⟨f q, getElem?_modify_self f hq, hclosed.trans hopen, hsent.trans hgot⟩
  · refine ⟨q, ?_, hopen, hgot⟩
    exact (List.getElem?_modify_ne f s.queues hm).trans hq

/-- Two addresses are not filed under one queue. -/
theorem Serves.ne_of_registered {s : Dispatch} {a dst : Ipv4Addr} {n m : Nat} {got : List Bytes}
    (h : s.Serves a n got) (hm : s.clients dst = some m) : dst = a ↔ m = n := by
  obtain ⟨log, htold⟩ := h.told
  constructor
  · rintro rfl
    exact Option.some.inj (hm.symm.trans h.registered)
  · rintro rfl
    exact Option.some.inj ((htold.registered _ _ hm).symm.trans (htold.registered _ _ h.registered))

theorem Serves.step {s t : Dispatch} {a : Ipv4Addr} {n : Nat} {got : List Bytes} {e : Event}
    (h : s.Serves a n got) (hlasts : ¬ e.Ends a n) (hstep : s.step e = some t) :
    ∃ got', t.Serves a n got' ∧ got' ++ t.pc.inHand.filter (addressed a)
      = got ++ (s.pc.inHand ++ readsOf [e]).filter (addressed a) := by
  obtain ⟨log, htold⟩ := h.told
  obtain ⟨log', htold', -⟩ := htold.step hstep
  have hlog' : ∃ log, t.Told log := ⟨log', htold'⟩
  obtain ⟨q, hq, hopen, hgot⟩ := h.queue
  cases steps_of_step hstep with
  | register b =>
      refine ⟨got, ⟨hlog', ?_, ⟨q, ?_, hopen, hgot⟩, h.sending, h.removing⟩, by simp [readsOf]⟩
      · exact (Function.update_of_ne (Ne.symm hlasts) _ _).trans h.registered
      · exact (List.getElem?_append_left (List.getElem?_eq_some_iff.mp hq).1).trans hq
  | unregister b =>
      refine ⟨got, ⟨hlog', ?_, h.queue, h.sending, h.removing⟩, by simp [readsOf]⟩
      exact (Function.update_of_ne (Ne.symm hlasts) _ _).trans h.registered
  | drop m =>
      exact ⟨got, h.setQueue hlog' fun hm => absurd hm hlasts, by simp [readsOf]⟩
  | recv m =>
      refine ⟨got, h.setQueue hlog' fun _ q => ?_, by simp [readsOf]⟩
      exact ⟨ReplyQueue.closed_recv q, ReplyQueue.sent_recv q⟩
  | @skip packet hpc hnone =>
      have hother : destination packet ≠ some a := by rw [hnone]; exact (Option.some_ne_none a).symm
      refine ⟨got, h, ?_⟩
      simp [readsOf, hpc, DispatchPc.inHand, addressed, hother]
  | @read packet dst hpc hdst =>
      exact ⟨got, ⟨hlog', h.registered, h.queue, by rintro _ _ _ ⟨⟩, by rintro ⟨⟩⟩,
        by simp [readsOf, hpc, DispatchPc.inHand]⟩
  | readFails hpc =>
      exact ⟨got, ⟨hlog', h.registered, h.queue, by rintro _ _ _ ⟨⟩, by rintro ⟨⟩⟩,
        by simp [readsOf, hpc, DispatchPc.inHand]⟩
  | @found packet dst m hpc hm =>
      refine ⟨got, ⟨hlog', h.registered, h.queue, ?_, by rintro ⟨⟩⟩,
        by simp [readsOf, hpc, DispatchPc.inHand]⟩
      rintro _ _ _ ⟨⟩
      exact h.ne_of_registered hm
  | @unknown packet dst hpc hnone =>
      have hne : dst ≠ a := by
        rintro rfl
        exact Option.some_ne_none n (h.registered.symm.trans hnone)
      have hother : destination packet ≠ some a := by
        rw [htold.looking _ _ hpc]
        exact fun heq => hne (Option.some.inj heq)
      refine ⟨got, ⟨hlog', h.registered, h.queue, by rintro _ _ _ ⟨⟩, by rintro ⟨⟩⟩, ?_⟩
      simp [readsOf, hpc, DispatchPc.inHand, addressed, hother]
  | @dead packet dst m q' hpc hq' hclosed =>
      have hne : dst ≠ a := by
        intro heq
        obtain rfl := (h.sending _ _ _ hpc).mp heq
        obtain rfl := Option.some.inj (hq.symm.trans hq')
        exact Bool.false_ne_true (hopen.symm.trans hclosed)
      have hother : destination packet ≠ some a := by
        rw [(htold.sending _ _ _ hpc).1]
        exact fun heq => hne (Option.some.inj heq)
      refine ⟨got, ⟨hlog', h.registered, h.queue, by rintro _ _ _ ⟨⟩, ?_⟩, ?_⟩
      · rintro ⟨⟩
        exact hne rfl
      · simp [readsOf, hpc, DispatchPc.inHand, addressed, hother]
  | @sent packet dst m q' hpc hq' hopen' =>
      have hdst := (htold.sending _ _ _ hpc).1
      by_cases ha : dst = a
      · -- the packet goes to the queue it is about
        obtain rfl := (h.sending _ _ _ hpc).mp ha
        subst ha
        refine ⟨got ++ [packet], ⟨hlog', h.registered, ?_, by rintro _ _ _ ⟨⟩, by rintro ⟨⟩⟩, ?_⟩
        · exact ⟨q.push packet, getElem?_modify_self _ hq, hopen, by rw [ReplyQueue.sent_push, hgot]⟩
        · simp [readsOf, hpc, DispatchPc.inHand, addressed, hdst]
      · have hm : m ≠ n := fun heq => ha ((h.sending _ _ _ hpc).mpr heq)
        have hother : destination packet ≠ some a := by
          rw [hdst]
          exact fun heq => ha (Option.some.inj heq)
        refine ⟨got, ⟨hlog', h.registered, ⟨q, ?_, hopen, hgot⟩, by rintro _ _ _ ⟨⟩,
          by rintro ⟨⟩⟩, ?_⟩
        · exact (List.getElem?_modify_ne _ s.queues hm).trans hq
        · simp [readsOf, hpc, DispatchPc.inHand, addressed, hother]
  | @remove dst hpc =>
      have hne : dst ≠ a := by
        rintro rfl
        exact h.removing hpc
      refine ⟨got, ⟨hlog', ?_, h.queue, by rintro _ _ _ ⟨⟩, by rintro ⟨⟩⟩,
        by simp [readsOf, hpc, DispatchPc.inHand]⟩
      exact (Function.update_of_ne (Ne.symm hne) _ _).trans h.registered

theorem Serves.exec {s t : Dispatch} {a : Ipv4Addr} {n : Nat} {got : List Bytes} {es : List Event}
    (h : s.Serves a n got) (hlasts : ∀ e ∈ es, ¬ e.Ends a n)
    (hrun : Lib.exec Dispatch.step s es = some t) :
    ∃ got', t.Serves a n got' ∧ got' ++ t.pc.inHand.filter (addressed a)
      = got ++ (s.pc.inHand ++ readsOf es).filter (addressed a) := by
  induction es generalizing s got with
  | nil =>
      obtain rfl := Option.some.inj hrun
      exact ⟨got, h, by simp [readsOf]⟩
  | cons e es ih =>
      obtain ⟨u, hstep, hrun⟩ := exec_cons.mp hrun
      obtain ⟨mid, hmid, heq⟩ := h.step (hlasts e List.mem_cons_self) hstep
      obtain ⟨got', hgot', heq'⟩ := ih hmid (fun e he => hlasts e (List.mem_cons_of_mem _ he)) hrun
      refine ⟨got', hgot', ?_⟩
      rw [heq', List.filter_append, ← List.append_assoc, heq, readsOf_cons e es]
      simp only [List.filter_append, List.append_assoc]

/-- If the dispatcher holds nothing against an address when it is
registered, the client gets every packet for it that is read from then on,
in order, as long as it stays: the dispatcher never takes it out of the
table. -/
theorem client_receives {s t : Dispatch} {pre es : List Event} {a : Ipv4Addr}
    (hpre : exec step start pre = some s) (hclear : Clear a s.pc)
    (hlasts : ∀ e ∈ es, ¬ e.Ends a s.queues.length)
    (hrun : exec step s (.register a :: es) = some t) :
    t.clients a = some s.queues.length ∧ ∃ q, t.queues[s.queues.length]? = some q ∧
      q.closed = false ∧ q.sent ++ t.pc.inHand.filter (addressed a)
        = (s.pc.inHand ++ readsOf es).filter (addressed a) := by
  obtain ⟨log, htold, -⟩ := told_start.exec hpre
  obtain ⟨u, hstep, hrun⟩ := exec_cons.mp hrun
  obtain rfl := Option.some.inj hstep
  obtain ⟨got, hserves, heq⟩ := (serves_register htold hclear).exec hlasts hrun
  obtain ⟨q, hq, hopen, hgot⟩ := hserves.queue
  exact ⟨hserves.registered, q, hq, hopen, by rw [hgot]; simpa using heq⟩

/-- The address goes from one client to another while a packet for it waits
to be looked up: the new client gets that one as well. -/
theorem client_receives_handover :
    ∃ s t : Dispatch,
      exec step start [.register clientAddress, .read reply, .drop 0, .unregister clientAddress]
        = some s ∧
      exec step s [.register clientAddress, .lookup, .send, .read reply] = some t ∧
      t.clients clientAddress = some s.queues.length ∧ ∃ q, t.queues[s.queues.length]? = some q ∧
        q.closed = false ∧ q.sent ++ t.pc.inHand.filter (addressed clientAddress)
          = (s.pc.inHand ++ readsOf [.lookup, .send, .read reply]).filter
              (addressed clientAddress) := by
  have hpre : exec step start
      [.register clientAddress, .read reply, .drop 0, .unregister clientAddress] = some _ := rfl
  exact ⟨_, _, hpre, rfl, client_receives hpre (by decide) (by decide) rfl⟩

/-- A queue that the dispatcher looked up before it was dropped costs the
next client of the address its own. -/
example :
    (exec step start [.register clientAddress, .read reply, .lookup, .drop 0,
      .unregister clientAddress, .register clientAddress, .send, .remove]).map
        (·.clients clientAddress) = some none := rfl

end Dispatch

end Kanrin
