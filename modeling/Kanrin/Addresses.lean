import Kanrin.Lib.Run
import Kanrin.Lib.Parties
import Kanrin.Lib.Ownership
import Kanrin.Session

/-!
# Tunnel addresses

`IpAllocator` of the server's `session.rs`, and everything that moves an
address: the accept loop and the reaper of `main.rs`, the entries of
`registry.rs`, and the connection tasks of `session.rs`.

An address is reserved by a connection task, then belongs to the registry
entry the task creates, until the reaper drops the entry and releases it.
A connection task that resumes keeps a handle on its entry without being
its owner: the reaper judges by the writer task and by `last_seen` alone,
so it can drop an entry a connection is about to serve or still serves.
`Unshared` is what that must not lead to, and `addresses_exclusive` shows
that nothing else goes wrong.

A task ends when it returns. One that panics, as `respond` does in a build
with overflow checks, would give nothing back, and is not among the endings.
-/

namespace Kanrin

open Lib

/-! ## The allocator -/

/-- The host octet of an address. -/
def hostOf (ip : UInt32) : Nat := (ip &&& 0xFF).toNat

/-- The top of the stack of freed octets is the head of the list. -/
structure IpAllocator where
  base : UInt32
  next : Nat
  freed : List Nat
  network : base.toNat % 256 = 0
  bounded : next ≤ 254
  nodup : freed.Nodup

namespace IpAllocator

def new (baseIp : UInt32) : IpAllocator where
  base := baseIp &&& 0xFFFFFF00
  next := 2
  freed := []
  network := by
    have hmod := Nat.and_mod_two_pow (a := baseIp.toNat) (b := 0xFFFFFF00) (n := 8)
    simpa using hmod
  bounded := by decide
  nodup := List.nodup_nil

def address (a : IpAllocator) (host : Nat) : UInt32 := a.base ||| UInt32.ofNat host

def allocate (a : IpAllocator) : Option (UInt32 × IpAllocator) :=
  match h : a.freed with
  | host :: rest => some (a.address host,
      { a with
        freed := rest
        nodup := (List.nodup_cons.mp (h ▸ a.nodup)).2 })
  | [] =>
      if hnext : a.next ≥ 254 then none
      else some (a.address a.next, { a with next := a.next + 1, bounded := by omega })

def release (a : IpAllocator) (ip : UInt32) : IpAllocator :=
  if hostOf ip < 2 ∨ hostOf ip ≥ 254 then a
  else if hmem : hostOf ip ∈ a.freed then a
  else
    { a with
      freed := hostOf ip :: a.freed
      nodup := List.nodup_cons.mpr ⟨hmem, a.nodup⟩ }

/-- The pool: what was given back, and what was never handed out. -/
def Free (a : IpAllocator) (host : Nat) : Prop := host ∈ a.freed ∨ (a.next ≤ host ∧ host < 254)

instance (a : IpAllocator) (host : Nat) : Decidable (a.Free host) :=
  inferInstanceAs (Decidable (_ ∨ _))

/-- Only octets that have been handed out come back. -/
def Used (a : IpAllocator) : Prop := ∀ h ∈ a.freed, h < a.next

theorem hostOf_address (a : IpAllocator) {host : Nat} (h : host < 256) :
    hostOf (a.address host) = host := by
  have hmask : ∀ n, n &&& 255 = n % 256 := fun n => Nat.and_two_pow_sub_one_eq_mod n 8
  have hor := Nat.or_mod_two_pow (a := a.base.toNat) (b := host) (n := 8)
  have hof : (UInt32.ofNat host).toNat = host := by
    rw [UInt32.toNat_ofNat']; omega
  simp only [Nat.reducePow, a.network, Nat.zero_or, Nat.mod_eq_of_lt h] at hor
  simp only [hostOf, address, UInt32.toNat_and, UInt32.toNat_or, hof]
  rw [show (0xFF : UInt32).toNat = 255 from rfl, hmask, hor]

/-- An allocation takes a free octet out of the pool. -/
theorem allocate_eq_some {a a' : IpAllocator} {ip : UInt32} (h : a.allocate = some (ip, a'))
    (hused : a.Used) :
    a.Free (hostOf ip) ∧ a'.Used ∧ ∀ host, a'.Free host → a.Free host ∧ host ≠ hostOf ip := by
  unfold allocate at h
  split at h
  · rename_i host rest hfreed
    obtain ⟨rfl, rfl⟩ := Prod.mk.inj (Option.some.inj h)
    have hmem : host ∈ a.freed := by rw [hfreed]; exact List.mem_cons_self
    have hlt := hused host hmem
    have hb := a.bounded
    rw [a.hostOf_address (by omega)]
    refine ⟨Or.inl hmem, fun x hx => hused x (by rw [hfreed]; exact List.mem_cons_of_mem _ hx),
      fun x hx => ?_⟩
    rcases hx with hx | hx
    · refine ⟨Or.inl (by rw [hfreed]; exact List.mem_cons_of_mem _ hx), ?_⟩
      rintro rfl
      exact (List.nodup_cons.mp (hfreed ▸ a.nodup)).1 hx
    · have hge : a.next ≤ x := hx.1
      exact ⟨Or.inr hx, by omega⟩
  · rename_i hfreed
    split at h
    · cases h
    rename_i hnext
    obtain ⟨rfl, rfl⟩ := Prod.mk.inj (Option.some.inj h)
    rw [a.hostOf_address (by omega)]
    refine ⟨Or.inr ⟨le_rfl, by omega⟩, fun x hx => (hused x hx).trans (Nat.lt_succ_self _),
      fun x hx => ?_⟩
    rcases hx with hx | ⟨hge, hlt⟩
    · rw [hfreed] at hx
      cases hx
    · have hge' : a.next + 1 ≤ x := hge
      exact ⟨Or.inr ⟨by omega, hlt⟩, by omega⟩

theorem free_release {a : IpAllocator} {ip : UInt32} {host : Nat}
    (h : (a.release ip).Free host) : a.Free host ∨ host = hostOf ip := by
  unfold release at h
  split at h
  · exact Or.inl h
  · split at h
    · exact Or.inl h
    · rcases h with h | h
      · rcases List.mem_cons.mp h with rfl | h
        · exact Or.inr rfl
        · exact Or.inl (Or.inl h)
      · exact Or.inl (Or.inr h)

/-- Giving back an octet that is not free: it was handed out. -/
theorem used_release {a : IpAllocator} (h : a.Used) {ip : UInt32} (hheld : ¬ a.Free (hostOf ip)) :
    (a.release ip).Used := by
  unfold release
  split
  · exact h
  · rename_i hrange
    split
    · exact h
    · intro x hx
      rcases List.mem_cons.mp hx with rfl | hx
      · by_contra hge
        exact hheld (Or.inr ⟨not_lt.mp hge, by omega⟩)
      · exact h x hx

end IpAllocator

/-! ## The server -/

/-- How long an unattached session is kept, in milliseconds. -/
def sessionLinger : Nat := 120000

/-- `reaped` entries have left the registry, and their address is on its
way back to the pool. -/
inductive EntryStatus where
  | registered
  | reaped
  | released
deriving DecidableEq

/-- The part of a registry entry that decides about its address. -/
structure Lease where
  id : SessionId
  assignedIp : UInt32
  /-- The connection whose writer task was attached last. -/
  attached : Option Nat
  lastSeen : Nat
  status : EntryStatus
deriving DecidableEq

inductive TaskPc where
  /-- Before the first frame has decided what the connection is. -/
  | opening
  /-- In `accept_resume`, with a handle on the `k`th entry. -/
  | resuming (k : Nat)
  | serving (k : Nat) (resumed attached : Bool)
  /-- `run` has returned; `unused` addresses go back to the pool. -/
  | leaving (unused : Bool)
  | done
deriving DecidableEq

/-- Who has the address, and how. -/
def Lease.hold (e : Lease) : UInt32 × EntryStatus := (e.assignedIp, e.status)

/-- A connection task, and the writer task it spawned. -/
structure ConnTask where
  reserved : UInt32
  pc : TaskPc
  writing : Bool
deriving DecidableEq

namespace ConnTask

/-- The reserved address is still the task's own. -/
def keeps (c : ConnTask) : Bool :=
  match c.pc with
  | .opening | .resuming _ => true
  | .serving _ resumed _ => resumed
  | .leaving unused => unused
  | .done => false

def serves (c : ConnTask) (k : Nat) : Bool :=
  match c.pc with
  | .serving k' _ _ => k' = k
  | _ => false

/-- The entry a task in `accept_resume` has a handle on. -/
def resumes (c : ConnTask) : Option Nat :=
  match c.pc with
  | .resuming k => some k
  | _ => none

end ConnTask

structure Leases where
  alloc : IpAllocator
  maxClients : Nat
  active : Nat
  entries : List Lease
  tasks : List ConnTask
  /-- The addresses the forwarder has a queue for. -/
  clients : List UInt32
  /-- The entries whose addresses the reaper has yet to release. -/
  reclaiming : List Nat
  /-- The first of them has been unregistered from the forwarder. -/
  unregistered : Bool
  now : Nat

namespace Leases

def start (baseIp : UInt32) (maxClients : Nat) : Leases where
  alloc := .new baseIp
  maxClients := maxClients
  active := 0
  entries := []
  tasks := []
  clients := []
  reclaiming := []
  unregistered := false
  now := 0

inductive Event where
  | tick (elapsed : Nat)
  | accept
  /-- The task returns before it serves: an error, a web visitor, or a
  failed authentication. -/
  | fail (i : Nat)
  /-- `accept_new` registers the address and inserts an entry. -/
  | establish (i : Nat) (id : SessionId)
  /-- `accept_resume` finds the entry and verifies the request. -/
  | lookup (i : Nat) (id : SessionId)
  /-- The response is out, and `serve` begins. -/
  | respond (i : Nat)
  | attach (i : Nat)
  /-- A frame is read. -/
  | frame (i : Nat)
  /-- The writer task ends, for whatever reason. -/
  | writerEnds (i : Nat)
  /-- The reader loop ends, and `run` returns. -/
  | disconnect (i : Nat)
  /-- What `main` does with the outcome. -/
  | leave (i : Nat)
  /-- `reap_expired` drops the expired entries, in the table's order. -/
  | reap (order : List Nat)
  | unregister
  | release

def setPc (t : Leases) (i : Nat) (pc : TaskPc) : Leases :=
  { t with tasks := t.tasks.modify i fun c => { c with pc } }

def touch (t : Leases) (k : Nat) : Leases :=
  { t with entries := t.entries.modify k fun e => { e with lastSeen := t.now } }

/-- `SessionRegistry::get`. -/
def find (t : Leases) (id : SessionId) : Option Nat :=
  t.entries.findIdx? fun e => decide (e.status = .registered ∧ e.id = id)

/-- `is_attached`. -/
def isAttached (t : Leases) (e : Lease) : Bool :=
  match e.attached with
  | none => false
  | some i => (t.tasks[i]?.map ConnTask.writing).getD false

/-- The entries that `reap_expired` drops. -/
def expired (t : Leases) : List Nat :=
  (List.range t.entries.length).filter fun k =>
    t.entries[k]?.any fun e =>
      decide (e.status = .registered) && !t.isAttached e
        && decide (t.now - e.lastSeen > sessionLinger)

def step (t : Leases) : Event → Option Leases
  | .tick elapsed => some { t with now := t.now + elapsed }
  | .accept =>
      if t.active ≥ t.maxClients then some t
      else
        match t.alloc.allocate with
        | none => some t
        | some (ip, alloc) =>
            some { t with
              alloc
              active := t.active + 1
              tasks := t.tasks ++ [{ reserved := ip, pc := .opening, writing := false }] }
  | .fail i =>
      t.tasks[i]?.bind fun c =>
        match c.pc with
        | .opening | .resuming _ => some (t.setPc i (.leaving true))
        | _ => none
  | .establish i id =>
      t.tasks[i]?.bind fun c =>
        if c.pc = .opening ∧ id ∉ t.entries.map Lease.id then
          some { t.setPc i (.serving t.entries.length false false) with
            clients := t.clients ++ [c.reserved]
            entries := t.entries ++
              [{ id, assignedIp := c.reserved, attached := none, lastSeen := t.now
                 status := .registered }] }
        else none
  | .lookup i id =>
      t.tasks[i]?.bind fun c =>
        match c.pc, t.find id with
        | .opening, some k => some (t.setPc i (.resuming k))
        | _, _ => none
  | .respond i =>
      t.tasks[i]?.bind fun c =>
        match c.pc with
        | .resuming k => some (t.setPc i (.serving k true false))
        | _ => none
  | .attach i =>
      t.tasks[i]?.bind fun c =>
        match c.pc with
        | .serving k resumed false =>
            some { t with
              tasks := t.tasks.modify i fun c =>
                { c with pc := .serving k resumed true, writing := true }
              entries := t.entries.modify k fun e =>
                { e with attached := some i, lastSeen := t.now } }
        | _ => none
  | .frame i =>
      t.tasks[i]?.bind fun c =>
        match c.pc with
        | .serving k _ true => some (t.touch k)
        | _ => none
  | .writerEnds i =>
      some { t with tasks := t.tasks.modify i fun c => { c with writing := false } }
  | .disconnect i =>
      t.tasks[i]?.bind fun c =>
        match c.pc with
        | .serving k resumed true => some ((t.touch k).setPc i (.leaving resumed))
        | _ => none
  | .leave i =>
      t.tasks[i]?.bind fun c =>
        match c.pc with
        | .leaving unused =>
            some { t.setPc i .done with
              alloc := if unused then t.alloc.release c.reserved else t.alloc
              active := t.active - 1 }
        | _ => none
  | .reap order =>
      if t.reclaiming = [] ∧ order.Perm t.expired then
        some { t with
          entries := order.foldl
            (fun es k => es.modify k fun e => { e with status := .reaped }) t.entries
          reclaiming := order }
      else none
  | .unregister =>
      match t.reclaiming with
      | k :: _ =>
          if t.unregistered then none
          else
            t.entries[k]?.map fun e =>
              { t with clients := t.clients.filter (· ≠ e.assignedIp), unregistered := true }
      | [] => none
  | .release =>
      match t.reclaiming with
      | k :: rest =>
          if t.unregistered then
            t.entries[k]?.map fun e =>
              { t with
                alloc := t.alloc.release e.assignedIp
                entries := t.entries.modify k fun e => { e with status := .released }
                reclaiming := rest
                unregistered := false }
          else none
      | [] => none

/-! ## The property -/

/-- The sessions that a registry entry or a serving connection holds. -/
def held (t : Leases) : List Lease :=
  (t.entries.zipIdx.filter fun x =>
    decide (x.1.status = .registered) || t.tasks.any (·.serves x.2)).map Prod.fst

/-- Two sessions held do not share an address, and none of their addresses
is in the pool. -/
def Unshared (t : Leases) : Prop :=
  (∀ x ∈ t.held, ∀ y ∈ t.held, x.id ≠ y.id → x.assignedIp ≠ y.assignedIp)
    ∧ ∀ x ∈ t.held, ¬ t.alloc.Free (hostOf x.assignedIp)

instance (t : Leases) : Decidable t.Unshared := inferInstanceAs (Decidable (_ ∧ _))

/-- The reaper releases no address that a connection is using, and a
connection starts on no entry whose address has been released. -/
def Undisturbed (t : Leases) : Event → Prop
  | .release => ∀ k ∈ t.reclaiming.head?, ∀ c ∈ t.tasks, c.serves k = false
  | .respond i => ∀ c ∈ t.tasks[i]?, ∀ k ∈ c.resumes, ∀ e ∈ t.entries[k]?, e.status ≠ .released
  | _ => True

instance (t : Leases) : (e : Event) → Decidable (t.Undisturbed e)
  | .release => inferInstanceAs (Decidable (∀ k ∈ t.reclaiming.head?, ∀ c ∈ t.tasks,
      c.serves k = false))
  | .respond i => inferInstanceAs (Decidable (∀ c ∈ t.tasks[i]?, ∀ k ∈ c.resumes,
      ∀ e ∈ t.entries[k]?, e.status ≠ .released))
  | .tick _ | .accept | .fail _ | .establish .. | .lookup .. | .attach _ | .frame _
  | .writerEnds _ | .disconnect _ | .leave _ | .reap _ | .unregister => isTrue trivial

/-! ## Who owns an address -/

inductive Holder where
  | task (i : Nat)
  | entry (k : Nat)

def holds (t : Leases) : Holder → Option Nat
  | .task i => t.tasks[i]?.bind fun c => if c.keeps then some (hostOf c.reserved) else none
  | .entry k => t.entries[k]?.bind fun e =>
      if e.status = .released then none else some (hostOf e.assignedIp)

theorem holds_task {t : Leases} {i host : Nat} :
    t.holds (.task i) = some host ↔
      ∃ c, t.tasks[i]? = some c ∧ c.keeps = true ∧ hostOf c.reserved = host := by
  simp only [holds, Option.bind_eq_some_iff]
  refine exists_congr fun c => and_congr_right ?_
  intro _
  cases c.keeps <;> simp

theorem holds_entry {t : Leases} {k host : Nat} :
    t.holds (.entry k) = some host ↔
      ∃ e, t.entries[k]? = some e ∧ e.status ≠ .released ∧ hostOf e.assignedIp = host := by
  simp only [holds, Option.bind_eq_some_iff]
  refine exists_congr fun e => and_congr_right ?_
  intro _
  by_cases he : e.status = .released <;> simp [he]

/-- What a task serves has not been released, and what it resumes exists. -/
structure Placed (t : Leases) (c : ConnTask) : Prop where
  serving : ∀ k, c.serves k = true → ∃ e, t.entries[k]? = some e ∧ e.status ≠ .released
  resuming : ∀ k ∈ c.resumes, k < t.entries.length

/-- No address has two owners, and none that has one is in the pool. -/
structure Kept (t : Leases) : Prop where
  used : t.alloc.Used
  owned : Owned t.holds t.alloc.Free
  reclaiming : t.reclaiming.Nodup ∧
    ∀ k ∈ t.reclaiming, ∃ e, t.entries[k]? = some e ∧ e.status = .reaped

theorem kept_start (baseIp : UInt32) (maxClients : Nat) : (start baseIp maxClients).Kept where
  used _ h := by cases h
  owned := by
    have hnone : ∀ x, (start baseIp maxClients).holds x = none := fun x => by cases x <;> rfl
    refine ⟨fun x y a hx => ?_, fun x a hx => ?_⟩
    · rw [hnone x] at hx
      cases hx
    · rw [hnone x] at hx
      cases hx
  reclaiming := ⟨List.nodup_nil, fun _ h => by cases h⟩

structure Inv (t : Leases) : Prop where
  used : t.alloc.Used
  owned : Owned t.holds t.alloc.Free
  placed : ∀ c ∈ t.tasks, t.Placed c
  reclaiming : t.reclaiming.Nodup ∧
    ∀ k ∈ t.reclaiming, ∃ e, t.entries[k]? = some e ∧ e.status = .reaped

theorem Inv.kept {t : Leases} (h : t.Inv) : t.Kept := ⟨h.used, h.owned, h.reclaiming⟩

theorem Kept.inv {t : Leases} (h : t.Kept) (hplaced : ∀ c ∈ t.tasks, t.Placed c) : t.Inv :=
  ⟨h.used, h.owned, hplaced, h.reclaiming⟩

theorem inv_start (baseIp : UInt32) (maxClients : Nat) : (start baseIp maxClients).Inv :=
  (kept_start baseIp maxClients).inv fun _ h => by cases h

theorem mem_held {t : Leases} {e : Lease} (h : e ∈ t.held) :
    ∃ k, t.entries[k]? = some e ∧
      (e.status = .registered ∨ ∃ c ∈ t.tasks, c.serves k = true) := by
  obtain ⟨⟨e', k⟩, hmem, rfl⟩ := List.mem_map.mp h
  obtain ⟨hmem, hheld⟩ := List.mem_filter.mp hmem
  refine ⟨k, List.mk_mem_zipIdx_iff_getElem?.mp hmem, ?_⟩
  simpa using hheld

/-- Whatever is held has not been released, so it has one owner. -/
theorem Inv.unshared {t : Leases} (h : t.Inv) : t.Unshared := by
  have hholds : ∀ e ∈ t.held, ∃ k, t.entries[k]? = some e
      ∧ t.holds (.entry k) = some (hostOf e.assignedIp) := by
    intro e he
    obtain ⟨k, hk, hheld⟩ := mem_held he
    refine ⟨k, hk, holds_entry.mpr ⟨e, hk, ?_, rfl⟩⟩
    rcases hheld with hreg | ⟨c, hc, hserves⟩
    · rw [hreg]
      decide
    · obtain ⟨e', he', hstatus⟩ := (h.placed c hc).serving k hserves
      obtain rfl := Option.some.inj (he'.symm.trans hk)
      exact hstatus
  constructor
  · intro x hx y hy hid hip
    obtain ⟨k, hk, hkx⟩ := hholds x hx
    obtain ⟨l, hl, hly⟩ := hholds y hy
    rw [hip] at hkx
    obtain rfl := Holder.entry.inj (h.owned.unique _ _ _ hkx hly)
    exact hid (congrArg Lease.id (Option.some.inj (hk.symm.trans hl)))
  · intro x hx
    obtain ⟨k, -, hkx⟩ := hholds x hx
    exact h.owned.taken _ _ hkx

/-! ## What a step does -/

/-- The steps there are, each with what holds where it is taken. -/
inductive Steps (t : Leases) : Event → Leases → Prop where
  | tick (elapsed : Nat) : Steps t (.tick elapsed) { t with now := t.now + elapsed }
  | full (hfull : t.active ≥ t.maxClients) : Steps t .accept t
  | exhausted (hroom : ¬ t.active ≥ t.maxClients) (hnone : t.alloc.allocate = none) :
      Steps t .accept t
  | accept {ip : UInt32} {alloc : IpAllocator} (hroom : ¬ t.active ≥ t.maxClients)
      (halloc : t.alloc.allocate = some (ip, alloc)) :
      Steps t .accept { t with
        alloc
        active := t.active + 1
        tasks := t.tasks ++ [{ reserved := ip, pc := .opening, writing := false }] }
  | fail {i : Nat} {c : ConnTask} (hc : t.tasks[i]? = some c) (hkeeps : c.keeps = true) :
      Steps t (.fail i) (t.setPc i (.leaving true))
  | establish {i : Nat} {c : ConnTask} (id : SessionId) (hc : t.tasks[i]? = some c)
      (hpc : c.pc = .opening) (hnew : id ∉ t.entries.map Lease.id) :
      Steps t (.establish i id) { t.setPc i (.serving t.entries.length false false) with
        clients := t.clients ++ [c.reserved]
        entries := t.entries ++
          [{ id, assignedIp := c.reserved, attached := none, lastSeen := t.now
             status := .registered }] }
  | lookup {i k : Nat} {id : SessionId} {c : ConnTask} (hc : t.tasks[i]? = some c)
      (hpc : c.pc = .opening) (hfind : t.find id = some k) :
      Steps t (.lookup i id) (t.setPc i (.resuming k))
  | respond {i k : Nat} {c : ConnTask} (hc : t.tasks[i]? = some c) (hpc : c.pc = .resuming k) :
      Steps t (.respond i) (t.setPc i (.serving k true false))
  | attach {i k : Nat} {resumed : Bool} {c : ConnTask} (hc : t.tasks[i]? = some c)
      (hpc : c.pc = .serving k resumed false) :
      Steps t (.attach i) { t with
        tasks := t.tasks.modify i fun c => { c with pc := .serving k resumed true, writing := true }
        entries := t.entries.modify k fun e => { e with attached := some i, lastSeen := t.now } }
  | frame {i k : Nat} {resumed : Bool} {c : ConnTask} (hc : t.tasks[i]? = some c)
      (hpc : c.pc = .serving k resumed true) : Steps t (.frame i) (t.touch k)
  | writerEnds (i : Nat) :
      Steps t (.writerEnds i)
        { t with tasks := t.tasks.modify i fun c => { c with writing := false } }
  | disconnect {i k : Nat} {resumed : Bool} {c : ConnTask} (hc : t.tasks[i]? = some c)
      (hpc : c.pc = .serving k resumed true) :
      Steps t (.disconnect i) ((t.touch k).setPc i (.leaving resumed))
  | leave {i : Nat} {unused : Bool} {c : ConnTask} (hc : t.tasks[i]? = some c)
      (hpc : c.pc = .leaving unused) :
      Steps t (.leave i) { t.setPc i .done with
        alloc := if unused then t.alloc.release c.reserved else t.alloc
        active := t.active - 1 }
  | reap {order : List Nat} (hidle : t.reclaiming = []) (hperm : order.Perm t.expired) :
      Steps t (.reap order) { t with
        entries := order.foldl
          (fun es k => es.modify k fun e => { e with status := .reaped }) t.entries
        reclaiming := order }
  | unregister {k : Nat} {rest : List Nat} {e : Lease} (hreclaiming : t.reclaiming = k :: rest)
      (hregistered : ¬ t.unregistered = true) (he : t.entries[k]? = some e) :
      Steps t .unregister
        { t with clients := t.clients.filter (· ≠ e.assignedIp), unregistered := true }
  | release {k : Nat} {rest : List Nat} {e : Lease} (hreclaiming : t.reclaiming = k :: rest)
      (hunregistered : t.unregistered = true) (he : t.entries[k]? = some e) :
      Steps t .release { t with
        alloc := t.alloc.release e.assignedIp
        entries := t.entries.modify k fun e => { e with status := .released }
        reclaiming := rest
        unregistered := false }

theorem steps_of_step {t t' : Leases} {e : Event} (hstep : t.step e = some t') :
    t.Steps e t' := by
  cases e with
  | tick elapsed =>
      obtain rfl := Option.some.inj hstep
      exact .tick elapsed
  | accept =>
      simp only [Leases.step] at hstep
      split at hstep
      · rename_i hfull
        obtain rfl := Option.some.inj hstep
        exact .full hfull
      · rename_i hroom
        split at hstep
        · rename_i hnone
          obtain rfl := Option.some.inj hstep
          exact .exhausted hroom hnone
        · rename_i ip alloc halloc
          obtain rfl := Option.some.inj hstep
          exact .accept hroom halloc
  | fail i =>
      obtain ⟨c, hc, hstep⟩ := Option.bind_eq_some_iff.mp hstep
      split at hstep
      · rename_i hpc
        obtain rfl := Option.some.inj hstep
        exact .fail hc (by rw [ConnTask.keeps, hpc])
      · rename_i k hpc
        obtain rfl := Option.some.inj hstep
        exact .fail hc (by rw [ConnTask.keeps, hpc])
      · cases hstep
  | establish i id =>
      obtain ⟨c, hc, hstep⟩ := Option.bind_eq_some_iff.mp hstep
      split at hstep
      · rename_i hguard
        obtain rfl := Option.some.inj hstep
        exact .establish id hc hguard.1 hguard.2
      · cases hstep
  | lookup i id =>
      obtain ⟨c, hc, hstep⟩ := Option.bind_eq_some_iff.mp hstep
      split at hstep
      · rename_i k hpc hfind
        obtain rfl := Option.some.inj hstep
        exact .lookup hc hpc hfind
      · cases hstep
  | respond i =>
      obtain ⟨c, hc, hstep⟩ := Option.bind_eq_some_iff.mp hstep
      split at hstep
      · rename_i k hpc
        obtain rfl := Option.some.inj hstep
        exact .respond hc hpc
      · cases hstep
  | attach i =>
      obtain ⟨c, hc, hstep⟩ := Option.bind_eq_some_iff.mp hstep
      split at hstep
      · rename_i k resumed hpc
        obtain rfl := Option.some.inj hstep
        exact .attach hc hpc
      · cases hstep
  | frame i =>
      obtain ⟨c, hc, hstep⟩ := Option.bind_eq_some_iff.mp hstep
      split at hstep
      · rename_i k resumed hpc
        obtain rfl := Option.some.inj hstep
        exact .frame hc hpc
      · cases hstep
  | writerEnds i =>
      obtain rfl := Option.some.inj hstep
      exact .writerEnds i
  | disconnect i =>
      obtain ⟨c, hc, hstep⟩ := Option.bind_eq_some_iff.mp hstep
      split at hstep
      · rename_i k resumed hpc
        obtain rfl := Option.some.inj hstep
        exact .disconnect hc hpc
      · cases hstep
  | leave i =>
      obtain ⟨c, hc, hstep⟩ := Option.bind_eq_some_iff.mp hstep
      split at hstep
      · rename_i unused hpc
        obtain rfl := Option.some.inj hstep
        exact .leave hc hpc
      · cases hstep
  | reap order =>
      simp only [Leases.step] at hstep
      split at hstep
      · rename_i hguard
        obtain rfl := Option.some.inj hstep
        exact .reap hguard.1 hguard.2
      · cases hstep
  | unregister =>
      simp only [Leases.step] at hstep
      split at hstep
      · rename_i k rest hreclaiming
        split at hstep
        · cases hstep
        · rename_i hregistered
          obtain ⟨e, he, rfl⟩ := Option.map_eq_some_iff.mp hstep
          exact .unregister hreclaiming hregistered he
      · cases hstep
  | release =>
      simp only [Leases.step] at hstep
      split at hstep
      · rename_i k rest hreclaiming
        split at hstep
        · rename_i hunregistered
          obtain ⟨e, he, rfl⟩ := Option.map_eq_some_iff.mp hstep
          exact .release hreclaiming hunregistered he
        · cases hstep
      · cases hstep

/-! ## What keeps the ownership -/

/-- Entries that read the same hold the same addresses. -/
theorem entry_of_hold {es es' : List Lease} (h : es'.map Lease.hold = es.map Lease.hold) {k : Nat}
    {e' : Lease} (he' : es'[k]? = some e') :
    ∃ e, es[k]? = some e ∧ e'.assignedIp = e.assignedIp ∧ e'.status = e.status := by
  have hk := congrArg (fun l => l[k]?) h
  simp only [List.getElem?_map, he', Option.map_some] at hk
  obtain ⟨e, he, heq⟩ := Option.map_eq_some_iff.mp hk.symm
  obtain ⟨hip, hstatus⟩ := Prod.mk.inj heq
  exact ⟨e, he, hip.symm, hstatus.symm⟩

/-- A step that moves no address: entries read the same, and tasks keep no
more than before. -/
theorem Kept.quiet {t t' : Leases} (h : t.Kept) (halloc : t'.alloc = t.alloc)
    (hentries : t'.entries.map Lease.hold = t.entries.map Lease.hold)
    (hreclaiming : t'.reclaiming = t.reclaiming)
    (htasks : ∀ (i : Nat) (c' : ConnTask), t'.tasks[i]? = some c' →
      ∃ c : ConnTask, t.tasks[i]? = some c ∧ c'.reserved = c.reserved
        ∧ (c'.keeps = true → c.keeps = true)) : t'.Kept := by
  have hholds : ∀ x a, t'.holds x = some a → t.holds x = some a := by
    intro x a hx
    cases x with
    | task i =>
        obtain ⟨c', hc', hkeeps, hhost⟩ := holds_task.mp hx
        obtain ⟨c, hc, hreserved, hkeeps'⟩ := htasks i c' hc'
        exact holds_task.mpr ⟨c, hc, hkeeps' hkeeps, hreserved ▸ hhost⟩
    | entry k =>
        obtain ⟨e', he', hstatus, hhost⟩ := holds_entry.mp hx
        obtain ⟨e, he, hip, hsame⟩ := entry_of_hold hentries he'
        exact holds_entry.mpr ⟨e, he, hsame ▸ hstatus, hip ▸ hhost⟩
  refine ⟨halloc ▸ h.used, h.owned.mono hholds fun a ha => halloc ▸ ha,
    hreclaiming ▸ h.reclaiming.1, fun k hk => ?_⟩
  obtain ⟨e, he, hstatus⟩ := h.reclaiming.2 k (hreclaiming ▸ hk)
  obtain ⟨e', he', -, hsame⟩ := entry_of_hold hentries.symm he
  exact ⟨e', he', hsame ▸ hstatus⟩

/-- The tasks stay where they are. -/
theorem Kept.still {t t' : Leases} (h : t.Kept) (halloc : t'.alloc = t.alloc)
    (hentries : t'.entries.map Lease.hold = t.entries.map Lease.hold)
    (hreclaiming : t'.reclaiming = t.reclaiming) (htasks : t'.tasks = t.tasks) : t'.Kept := by
  refine h.quiet halloc hentries hreclaiming ?_
  intro i c hc
  rw [htasks] at hc
  exact ⟨c, hc, rfl, fun hk => hk⟩

/-- One task moves. -/
theorem Kept.move {t t' : Leases} (h : t.Kept) {i : Nat} {c : ConnTask} {f : ConnTask → ConnTask}
    (hc : t.tasks[i]? = some c) (halloc : t'.alloc = t.alloc)
    (hentries : t'.entries.map Lease.hold = t.entries.map Lease.hold)
    (hreclaiming : t'.reclaiming = t.reclaiming) (htasks : t'.tasks = t.tasks.modify i f)
    (hreserved : (f c).reserved = c.reserved)
    (hkeeps : (f c).keeps = true → c.keeps = true) : t'.Kept := by
  refine h.quiet halloc hentries hreclaiming ?_
  intro j d hd
  rw [htasks] at hd
  rcases modify_cases hd with ⟨rfl, c0, hc0, rfl⟩ | ⟨-, hd⟩
  · obtain rfl := Option.some.inj (hc0.symm.trans hc)
    exact ⟨c0, hc, hreserved, hkeeps⟩
  · exact ⟨d, hd, rfl, fun hk => hk⟩

theorem hold_touch (t : Leases) (k : Nat) :
    (t.touch k).entries.map Lease.hold = t.entries.map Lease.hold := map_modify fun _ => rfl

/-- A place in the list other than the new one is an old place. -/
theorem lt_of_concat {α : Type} {l : List α} {a c : α} {j : Nat} (h : (l ++ [a])[j]? = some c)
    (hne : j ≠ l.length) : l[j]? = some c := by
  have hbound := (List.getElem?_eq_some_iff.mp h).1
  rw [List.length_append, List.length_singleton] at hbound
  rwa [List.getElem?_append_left (by omega)] at h

theorem getElem?_concat_of_some {α : Type} {l : List α} {k : Nat} {e : α} (h : l[k]? = some e)
    (a : α) : (l ++ [a])[k]? = some e :=
  (List.getElem?_append_left (List.getElem?_eq_some_iff.mp h).1).trans h

theorem kept_accept {t : Leases} (h : t.Kept) {ip : UInt32} {alloc : IpAllocator}
    (halloc : t.alloc.allocate = some (ip, alloc)) :
    Kept { t with
      alloc
      active := t.active + 1
      tasks := t.tasks ++ [{ reserved := ip, pc := .opening, writing := false }] } := by
  obtain ⟨hfree, hused, hpool⟩ := IpAllocator.allocate_eq_some halloc h.used
  refine ⟨hused, h.owned.grant (x := .task t.tasks.length) hfree ?_ ?_ hpool, h.reclaiming⟩
  · intro host hhost
    obtain ⟨c, hc, -, rfl⟩ := holds_task.mp hhost
    rw [List.getElem?_concat_length] at hc
    obtain rfl := Option.some.inj hc
    rfl
  · intro y hy host hhost
    cases y with
    | task i =>
        obtain ⟨c, hc, hkeeps, hip⟩ := holds_task.mp hhost
        exact holds_task.mpr ⟨c, lt_of_concat hc fun heq => hy (heq ▸ rfl), hkeeps, hip⟩
    | entry k => exact hhost

/-- The reserved address becomes the entry's. -/
theorem kept_establish {t : Leases} (h : t.Kept) {i : Nat} {id : SessionId} {c : ConnTask}
    (hc : t.tasks[i]? = some c) (hpc : c.pc = .opening) :
    Kept { t.setPc i (.serving t.entries.length false false) with
      clients := t.clients ++ [c.reserved]
      entries := t.entries ++
        [{ id, assignedIp := c.reserved, attached := none, lastSeen := t.now
           status := .registered }] } := by
  have hkeeps : c.keeps = true := by rw [ConnTask.keeps, hpc]
  have hself : t.holds (.task i) = some (hostOf c.reserved) :=
    holds_task.mpr ⟨c, hc, hkeeps, rfl⟩
  refine ⟨h.used, h.owned.transfer (x := .task i) (y := .entry t.entries.length) hself ?_ ?_ ?_
    fun _ hb => hb, h.reclaiming.1, fun k hk => ?_⟩
  · simp only [holds, setPc, getElem?_modify_self _ hc, Option.bind_some, ConnTask.keeps]
    rfl
  · intro host hhost
    obtain ⟨e, he, -, rfl⟩ := holds_entry.mp hhost
    rw [List.getElem?_concat_length] at he
    obtain rfl := Option.some.inj he
    rfl
  · intro z hz hz' host hhost
    cases z with
    | task j =>
        obtain ⟨d, hd, hkeeps', hip⟩ := holds_task.mp hhost
        rcases modify_cases hd with ⟨rfl, -⟩ | ⟨-, hd⟩
        · exact absurd rfl hz
        · exact holds_task.mpr ⟨d, hd, hkeeps', hip⟩
    | entry k =>
        obtain ⟨e, he, hstatus, hip⟩ := holds_entry.mp hhost
        exact holds_entry.mpr ⟨e, lt_of_concat he fun heq => hz' (heq ▸ rfl), hstatus, hip⟩
  · obtain ⟨e, he, hstatus⟩ := h.reclaiming.2 k hk
    exact ⟨e, getElem?_concat_of_some he _, hstatus⟩

/-- An address goes back to the pool, and its holder holds nothing. -/
theorem kept_release {t t' : Leases} (h : t.Kept) {x : Holder} {ip : UInt32}
    (hx : t.holds x = some (hostOf ip)) (halloc : t'.alloc = t.alloc.release ip)
    (hgone : t'.holds x = none)
    (hother : ∀ y, y ≠ x → ∀ b, t'.holds y = some b → t.holds y = some b)
    (hreclaiming : t'.reclaiming.Nodup ∧
      ∀ k ∈ t'.reclaiming, ∃ e, t'.entries[k]? = some e ∧ e.status = .reaped) : t'.Kept where
  used := halloc ▸ IpAllocator.used_release h.used (h.owned.taken _ _ hx)
  owned := h.owned.release hx hgone hother fun _ hb => IpAllocator.free_release (halloc ▸ hb)
  reclaiming := hreclaiming

theorem kept_leave {t : Leases} (h : t.Kept) {i : Nat} {unused : Bool} {c : ConnTask}
    (hc : t.tasks[i]? = some c) (hpc : c.pc = .leaving unused) :
    Kept { t.setPc i .done with
      alloc := if unused then t.alloc.release c.reserved else t.alloc
      active := t.active - 1 } := by
  cases unused with
  | false => exact h.move hc rfl rfl rfl rfl rfl fun hk => by cases hk
  | true =>
      have hself : t.holds (.task i) = some (hostOf c.reserved) :=
        holds_task.mpr ⟨c, hc, by rw [ConnTask.keeps, hpc], rfl⟩
      refine kept_release h hself rfl ?_ (fun y hy b hb => ?_) h.reclaiming
      · simp only [holds, setPc, getElem?_modify_self _ hc, Option.bind_some, ConnTask.keeps]
        rfl
      · cases y with
        | entry k => exact hb
        | task j =>
            obtain ⟨d, hd, hkeeps, hip⟩ := holds_task.mp hb
            rcases modify_cases hd with ⟨rfl, -⟩ | ⟨-, hd⟩
            · exact absurd rfl hy
            · exact holds_task.mpr ⟨d, hd, hkeeps, hip⟩

theorem mem_expired {t : Leases} {k : Nat} (h : k ∈ t.expired) :
    ∃ e, t.entries[k]? = some e ∧ e.status = .registered := by
  obtain ⟨-, hany⟩ := List.mem_filter.mp h
  cases he : t.entries[k]? with
  | none =>
      rw [he] at hany
      cases hany
  | some e =>
      rw [he, Option.any_some] at hany
      simp only [Bool.and_eq_true, decide_eq_true_eq] at hany
      exact ⟨e, rfl, hany.1.1⟩

theorem nodup_expired (t : Leases) : t.expired.Nodup := List.nodup_range.filter _

/-- The entries after a reaping. -/
theorem getElem?_reaped (t : Leases) (order : List Nat) (k : Nat) : (order.foldl
    (fun es k => es.modify k fun e : Lease => { e with status := .reaped }) t.entries)[k]?
      = t.entries[k]?.map fun e => if k ∈ order then { e with status := .reaped } else e :=
  getElem?_foldl_modify (f := fun e : Lease => { e with status := .reaped }) (fun _ => rfl) k

/-- Dropping an entry from the registry moves no address yet. -/
theorem kept_reap {t : Leases} (h : t.Kept) {order : List Nat} (hperm : order.Perm t.expired) :
    Kept { t with
      entries := order.foldl
        (fun es k => es.modify k fun e => { e with status := .reaped }) t.entries
      reclaiming := order } := by
  refine ⟨h.used, h.owned.mono (fun x a hx => ?_) fun _ ha => ha,
    hperm.nodup_iff.mpr t.nodup_expired, fun k hk => ?_⟩
  · cases x with
    | task i => exact hx
    | entry k =>
        obtain ⟨e', he', hstatus, hip⟩ := holds_entry.mp hx
        rw [getElem?_reaped] at he'
        obtain ⟨e, he, rfl⟩ := Option.map_eq_some_iff.mp he'
        refine holds_entry.mpr ⟨e, he, ?_, ?_⟩
        · by_cases hk : k ∈ order
          · obtain ⟨e0, he0, hreg⟩ := mem_expired (hperm.mem_iff.mp hk)
            obtain rfl := Option.some.inj (he.symm.trans he0)
            rw [hreg]
            decide
          · rwa [if_neg hk] at hstatus
        · split at hip <;> exact hip
  · obtain ⟨e, he, -⟩ := mem_expired (hperm.mem_iff.mp hk)
    refine ⟨{ e with status := .reaped }, ?_, rfl⟩
    rw [getElem?_reaped, he, Option.map_some, if_pos hk]

/-- The reaper's next entry owns the address it is about to release. -/
theorem Kept.reaped_holds {t : Leases} (h : t.Kept) {k : Nat} {e : Lease}
    (hk : k ∈ t.reclaiming) (he : t.entries[k]? = some e) :
    t.holds (.entry k) = some (hostOf e.assignedIp) := by
  obtain ⟨e0, he0, hreaped⟩ := h.reclaiming.2 k hk
  obtain rfl := Option.some.inj (he.symm.trans he0)
  exact holds_entry.mpr ⟨e, he, by rw [hreaped]; decide, rfl⟩

/-- The reaper releases the address of an entry. -/
theorem kept_releaseEntry {t : Leases} (h : t.Kept) {k : Nat} {rest : List Nat} {e : Lease}
    (hreclaiming : t.reclaiming = k :: rest) (he : t.entries[k]? = some e) :
    Kept { t with
      alloc := t.alloc.release e.assignedIp
      entries := t.entries.modify k fun e => { e with status := .released }
      reclaiming := rest
      unregistered := false } := by
  have hnodup := h.reclaiming.1
  rw [hreclaiming, List.nodup_cons] at hnodup
  have hself := h.reaped_holds (hreclaiming ▸ List.mem_cons_self) he
  refine kept_release h hself rfl ?_ (fun y hy b hb => ?_) ⟨hnodup.2, fun l hl => ?_⟩
  · simp only [holds, getElem?_modify_self _ he, Option.bind_some, if_true]
  · cases y with
    | task i => exact hb
    | entry l =>
        obtain ⟨e', he', hstatus, hip⟩ := holds_entry.mp hb
        rcases modify_cases he' with ⟨rfl, -⟩ | ⟨-, he'⟩
        · exact absurd rfl hy
        · exact holds_entry.mpr ⟨e', he', hstatus, hip⟩
  · obtain ⟨e', he', hstatus⟩ := h.reclaiming.2 l (hreclaiming ▸ List.mem_cons_of_mem _ hl)
    have hne : k ≠ l := fun heq => hnodup.1 (heq ▸ hl)
    exact ⟨e', (List.getElem?_modify_ne _ _ hne).trans he', hstatus⟩

/-- Every step keeps the ownership of addresses, whatever is served. -/
theorem Kept.step {t t' : Leases} {e : Event} (h : t.Kept) (hstep : t.step e = some t') :
    t'.Kept := by
  cases steps_of_step hstep with
  | tick elapsed => exact h.still rfl rfl rfl rfl
  | full | exhausted => exact h
  | accept hroom halloc => exact kept_accept h halloc
  | fail hc hkeeps => exact h.move hc rfl rfl rfl rfl rfl fun _ => hkeeps
  | establish id hc hpc hnew => exact kept_establish h hc hpc
  | lookup hc hpc hfind =>
      exact h.move hc rfl rfl rfl rfl rfl fun _ => by rw [ConnTask.keeps, hpc]
  | respond hc hpc =>
      exact h.move hc rfl rfl rfl rfl rfl fun _ => by rw [ConnTask.keeps, hpc]
  | attach hc hpc =>
      refine h.move hc rfl (map_modify fun _ => rfl) rfl rfl rfl fun hk => ?_
      rw [ConnTask.keeps, hpc]
      exact hk
  | frame hc hpc => exact h.still rfl (hold_touch t _) rfl rfl
  | writerEnds i =>
      cases hc : t.tasks[i]? with
      | none =>
          refine h.still rfl rfl rfl ?_
          exact List.modify_eq_self (List.getElem?_eq_none_iff.mp hc)
      | some c => exact h.move hc rfl rfl rfl rfl rfl fun hk => hk
  | @disconnect i k resumed c hc hpc =>
      refine h.move hc rfl (hold_touch t k) rfl rfl rfl fun hk => ?_
      rw [ConnTask.keeps, hpc]
      exact hk
  | leave hc hpc => exact kept_leave h hc hpc
  | reap hidle hperm => exact kept_reap h hperm
  | unregister => exact h.still rfl rfl rfl rfl
  | release hreclaiming hunregistered he => exact kept_releaseEntry h hreclaiming he

/-! ## What is served -/

/-- No entry a task knows of is lost, nor is its address released. -/
theorem Placed.mono {t t' : Leases} {c : ConnTask} (h : t.Placed c)
    (hstays : ∀ k e, c.serves k = true → t.entries[k]? = some e → e.status ≠ .released →
      ∃ e', t'.entries[k]? = some e' ∧ e'.status ≠ .released)
    (hlen : t.entries.length ≤ t'.entries.length) : t'.Placed c where
  serving k hk := by
    obtain ⟨e, he, hstatus⟩ := h.serving k hk
    exact hstays k e hk he hstatus
  resuming k hk := (h.resuming k hk).trans_le hlen

theorem Placed.of_hold {t t' : Leases} {c : ConnTask} (h : t.Placed c)
    (hentries : t'.entries.map Lease.hold = t.entries.map Lease.hold) : t'.Placed c := by
  refine h.mono (fun k e _ he hstatus => ?_) ?_
  · obtain ⟨e', he', -, hsame⟩ := entry_of_hold hentries.symm he
    exact ⟨e', he', hsame ▸ hstatus⟩
  · have hlen := congrArg List.length hentries
    rw [List.length_map, List.length_map] at hlen
    exact hlen.ge

/-- A task with no entry in view. -/
theorem placed_of_none {t : Leases} {c : ConnTask} (hserves : ∀ k, c.serves k = false)
    (hresumes : c.resumes = none) : t.Placed c where
  serving k hk := by
    rw [hserves k] at hk
    cases hk
  resuming k hk := by
    rw [hresumes] at hk
    cases hk

/-- One task moves, and the entries read the same. -/
theorem placed_move {t t' : Leases} (h : ∀ c ∈ t.tasks, t.Placed c) {i : Nat} {c : ConnTask}
    {f : ConnTask → ConnTask} (hc : t.tasks[i]? = some c)
    (hentries : t'.entries.map Lease.hold = t.entries.map Lease.hold)
    (htasks : t'.tasks = t.tasks.modify i f) (hplaced : t.Placed (f c)) :
    ∀ d ∈ t'.tasks, t'.Placed d := by
  intro d hd
  rw [htasks] at hd
  rcases mem_modify_cases hd with ⟨c0, hc0, rfl⟩ | ⟨j, -, hd⟩
  · obtain rfl := Option.some.inj (hc0.symm.trans hc)
    exact hplaced.of_hold hentries
  · exact (h d (List.mem_of_getElem? hd)).of_hold hentries

theorem find_lt {t : Leases} {id : SessionId} {k : Nat} (h : t.find id = some k) :
    k < t.entries.length := (List.findIdx?_eq_some_iff_findIdx_eq.mp h).1

theorem placed_establish {t : Leases} (h : ∀ c ∈ t.tasks, t.Placed c) (i : Nat) (l : Lease)
    (hl : l.status = .registered) (clients : List UInt32) :
    ∀ c ∈ (t.setPc i (.serving t.entries.length false false)).tasks,
      Placed { t.setPc i (.serving t.entries.length false false) with
        clients, entries := t.entries ++ [l] } c := by
  intro d hd
  rcases mem_modify_cases hd with ⟨c0, -, rfl⟩ | ⟨j, -, hd⟩
  · refine ⟨fun k hk => ?_, fun k hk => by cases hk⟩
    obtain rfl := of_decide_eq_true hk
    exact ⟨l, List.getElem?_concat_length .., by rw [hl]; decide⟩
  · refine (h d (List.mem_of_getElem? hd)).mono (fun k e _ he hstatus => ?_) ?_
    · exact ⟨e, getElem?_concat_of_some he _, hstatus⟩
    · rw [List.length_append]
      exact Nat.le_add_right _ _

theorem placed_reap {t : Leases} (h : ∀ c ∈ t.tasks, t.Placed c) (order : List Nat) :
    ∀ c ∈ t.tasks, Placed { t with
      entries := order.foldl
        (fun es k => es.modify k fun e => { e with status := .reaped }) t.entries
      reclaiming := order } c := by
  intro c hc
  refine (h c hc).mono (fun k e _ he hstatus => ?_) ?_
  · refine ⟨_, by rw [getElem?_reaped, he]; rfl, ?_⟩
    split
    · simp
    · exact hstatus
  · by_contra hlt
    have hnone := getElem?_reaped t order (order.foldl
      (fun es k => es.modify k fun e => { e with status := .reaped }) t.entries).length
    rw [List.getElem?_eq_none le_rfl, List.getElem?_eq_getElem (not_le.mp hlt)] at hnone
    cases hnone

/-- The reaper releases the address of an entry that no one serves. -/
theorem placed_releaseEntry {t : Leases} (h : ∀ c ∈ t.tasks, t.Placed c) {k : Nat}
    {rest : List Nat} {alloc : IpAllocator} (hfree : ∀ c ∈ t.tasks, c.serves k = false) :
    ∀ c ∈ t.tasks, Placed { t with
      alloc
      entries := t.entries.modify k fun e => { e with status := .released }
      reclaiming := rest
      unregistered := false } c := by
  intro c hc
  refine (h c hc).mono (fun l e hl he hstatus => ?_) ?_
  · have hne : k ≠ l := by
      rintro rfl
      rw [hfree c hc] at hl
      cases hl
    exact ⟨e, (List.getElem?_modify_ne _ _ hne).trans he, hstatus⟩
  · rw [List.length_modify]

/-- A task that has its response serves the entry that it resumed. -/
theorem placed_respond {t : Leases} (h : ∀ c ∈ t.tasks, t.Placed c) {i k : Nat} {c : ConnTask}
    (hc : t.tasks[i]? = some c) (hpc : c.pc = .resuming k)
    (hundisturbed : t.Undisturbed (.respond i)) :
    ∀ d ∈ (t.setPc i (.serving k true false)).tasks,
      (t.setPc i (.serving k true false)).Placed d := by
  have hresumes : k ∈ c.resumes := by
    rw [ConnTask.resumes, hpc]
    rfl
  have hget := List.getElem?_eq_getElem
    ((h c (List.mem_of_getElem? hc)).resuming k hresumes)
  refine placed_move h hc rfl rfl ⟨fun l hl => ?_, fun l hl => by cases hl⟩
  obtain rfl := of_decide_eq_true hl
  exact ⟨_, hget, hundisturbed c hc k hresumes _ hget⟩

/-- What is served stays unreleased, as long as no one is disturbed. -/
theorem placed_step {t t' : Leases} {e : Event} (h : ∀ c ∈ t.tasks, t.Placed c)
    (hundisturbed : t.Undisturbed e) (hstep : t.step e = some t') :
    ∀ c ∈ t'.tasks, t'.Placed c := by
  cases steps_of_step hstep with
  | tick elapsed => exact fun c hc => (h c hc).of_hold rfl
  | full | exhausted => exact h
  | accept hroom halloc =>
      intro c hc
      rcases List.mem_append.mp hc with hc | hc
      · exact (h c hc).of_hold rfl
      · obtain rfl := List.mem_singleton.mp hc
        exact placed_of_none (fun _ => rfl) rfl
  | fail hc hkeeps => exact placed_move h hc rfl rfl (placed_of_none (fun _ => rfl) rfl)
  | @establish i c id hc hpc hnew => exact placed_establish h i _ rfl _
  | lookup hc hpc hfind =>
      refine placed_move h hc rfl rfl ⟨fun l hl => ?_, fun l hl => ?_⟩
      · cases hl
      · obtain rfl := Option.some.inj hl
        exact find_lt hfind
  | respond hc hpc => exact placed_respond h hc hpc hundisturbed
  | @attach i k resumed c hc hpc =>
      refine placed_move h hc (map_modify fun _ => rfl) rfl ⟨fun l hl => ?_, fun l hl => ?_⟩
      · refine (h c (List.mem_of_getElem? hc)).serving l ?_
        rw [ConnTask.serves, hpc]
        exact hl
      · cases hl
  | frame hc hpc => exact fun c hc => (h c hc).of_hold (hold_touch t _)
  | writerEnds i =>
      intro d hd
      rcases mem_modify_cases hd with ⟨c, hc, rfl⟩ | ⟨j, -, hd⟩
      · have hplaced := h c (List.mem_of_getElem? hc)
        exact Placed.of_hold ⟨hplaced.serving, hplaced.resuming⟩ rfl
      · exact (h d (List.mem_of_getElem? hd)).of_hold rfl
  | disconnect hc hpc =>
      exact placed_move h hc (hold_touch t _) rfl (placed_of_none (fun _ => rfl) rfl)
  | leave hc hpc => exact placed_move h hc rfl rfl (placed_of_none (fun _ => rfl) rfl)
  | @reap order hidle hperm => exact placed_reap h order
  | unregister => exact fun c hc => (h c hc).of_hold rfl
  | @release k rest e hreclaiming hunregistered he =>
      refine placed_releaseEntry h (hundisturbed k ?_)
      rw [hreclaiming]
      rfl

/-! ## Runs -/

theorem Inv.step {t t' : Leases} {e : Event} (h : t.Inv) (hundisturbed : t.Undisturbed e)
    (hstep : t.step e = some t') : t'.Inv :=
  (h.kept.step hstep).inv (placed_step h.placed hundisturbed hstep)

/-- In every run in which the reaper disturbs no connection, no address is
shared and none in use is in the pool. -/
theorem addresses_exclusive (baseIp : UInt32) (maxClients : Nat) (es : List Event)
    (h : Meets step Undisturbed (start baseIp maxClients) es) :
    Always step Unshared (start baseIp maxClients) es :=
  (always_of_meets (fun _ _ _ hinv hundisturbed hstep => Inv.step hinv hundisturbed hstep)
    (inv_start baseIp maxClients) h).mono fun _ hinv => hinv.unshared

/-- A session moves to a second connection, both end, and it expires. -/
def switched : List Event :=
  [.accept, .establish 0 (zeroArr 16), .attach 0, .accept, .lookup 1 (zeroArr 16), .respond 1,
    .attach 1, .writerEnds 0, .disconnect 0, .leave 0, .disconnect 1, .writerEnds 1, .leave 1,
    .tick 130000, .reap [0], .unregister, .release]

theorem addresses_exclusive_switched : Always step Unshared (start 0x0A0A0001 256) switched :=
  addresses_exclusive _ _ _ (by decide +kernel)

/-- The client comes back 119 seconds after its connection ended. While its
resumption is answered the entry expires and is reaped; the connection
serves it all the same, and a new client is given its address. -/
def reapedWhileResuming : List Event :=
  [.accept, .establish 0 (zeroArr 16), .attach 0, .disconnect 0, .writerEnds 0, .leave 0,
    .tick 119000, .accept, .lookup 1 (zeroArr 16), .tick 2000, .reap [0], .unregister, .release,
    .respond 1, .accept, .establish 2 (List.Vector.replicate 16 1)]

theorem isSome_reapedWhileResuming :
    (exec step (start 0x0A0A0001 256) reapedWhileResuming).isSome := by
  decide +kernel

theorem address_given_twice :
    ∃ t, exec step (start 0x0A0A0001 256) reapedWhileResuming = some t ∧ ¬ t.Unshared :=
  ⟨Option.get _ isSome_reapedWhileResuming, (Option.some_get isSome_reapedWhileResuming).symm,
    by decide +kernel⟩

end Leases

end Kanrin
