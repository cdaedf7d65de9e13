import Kanrin.Lib.Run
import Kanrin.Lib.Apportion
import Kanrin.Addresses

/-!
# What the allocator hands out

`IpAllocator` under any history of calls, from whichever task. A `Ledger`
keeps beside the allocator what its callers have of it: the addresses
outstanding, and those given back and not handed out since.

The octets freed and those outstanding are `Apportioned` between 2 and the
high-water mark as long as only outstanding addresses are released, which
gives `allocator_accounted`. The last section shows that the callers in
`main.rs` keep to it: whatever a connection's task or the reaper releases
is its own (`Leases.calls_due`), whether or not it is still being served.
-/

namespace Kanrin

open Lib

namespace IpAllocator

/-! ## The two sources -/

/-- Where an address comes from: the stack, or the mark. -/
theorem allocate_cases {a a' : IpAllocator} {ip : UInt32} (h : a.allocate = some (ip, a')) :
    ∃ host, ip = a.address host ∧ a'.base = a.base ∧
      ((a.freed = host :: a'.freed ∧ a'.next = a.next)
        ∨ (a.freed = [] ∧ a'.freed = [] ∧ host = a.next ∧ a.next < 254
          ∧ a'.next = a.next + 1)) := by
  unfold allocate at h
  split at h
  · rename_i host rest hfreed
    obtain ⟨rfl, rfl⟩ := Prod.mk.inj (Option.some.inj h)
    exact ⟨host, rfl, rfl, Or.inl ⟨hfreed, rfl⟩⟩
  · rename_i hfreed
    split at h
    · cases h
    rename_i hnext
    obtain ⟨rfl, rfl⟩ := Prod.mk.inj (Option.some.inj h)
    exact ⟨a.next, rfl, rfl, Or.inr ⟨hfreed, hfreed, rfl, by omega, rfl⟩⟩

theorem allocate_eq_none_iff {a : IpAllocator} :
    a.allocate = none ↔ a.freed = [] ∧ a.next = 254 := by
  have hb := a.bounded
  unfold allocate
  split
  · rename_i host rest hfreed
    simp [hfreed]
  · rename_i hfreed
    split
    · simp only [hfreed, true_and, true_iff]
      omega
    · simp only [hfreed, true_and, reduceCtorEq, false_iff]
      omega

/-- A freed octet is not freed again. -/
theorem release_of_mem {a : IpAllocator} {ip : UInt32} (h : hostOf ip ∈ a.freed) :
    a.release ip = a := by
  unfold release
  rw [dif_pos h, ite_self]

theorem release_of_not_mem {a : IpAllocator} {ip : UInt32} (hrange : 2 ≤ hostOf ip)
    (hbound : hostOf ip < 254) (h : hostOf ip ∉ a.freed) :
    (a.release ip).base = a.base ∧ (a.release ip).next = a.next
      ∧ (a.release ip).freed = hostOf ip :: a.freed := by
  unfold release
  rw [if_neg (by omega), dif_neg h]
  exact ⟨rfl, rfl, rfl⟩

/-- The address in dotted form: the three octets of the base, and the host. -/
theorem toNat_address (a : IpAllocator) {host : Nat} (h : host < 256) :
    (a.address host).toNat = a.base.toNat + host := by
  have hof : (UInt32.ofNat host).toNat = host := by
    rw [UInt32.toNat_ofNat']
    omega
  have hbase : a.base.toNat = 2 ^ 8 * (a.base.toNat / 256) := by
    have hnetwork := a.network
    omega
  rw [address, UInt32.toNat_or, hof, hbase]
  exact (Nat.two_pow_add_eq_or_of_lt h _).symm

end IpAllocator

/-! ## The calls -/

inductive Call where
  | allocate
  | release (ip : UInt32)
deriving DecidableEq

structure Ledger where
  alloc : IpAllocator
  /-- Handed out, and not given back since. -/
  outstanding : List UInt32
  /-- Given back, and not handed out since. -/
  returned : List UInt32

namespace Ledger

def start (baseIp : UInt32) : Ledger := ⟨.new baseIp, [], []⟩

def step (l : Ledger) : Call → Option Ledger
  | .allocate =>
      match l.alloc.allocate with
      | none => some l
      | some (ip, alloc) => some ⟨alloc, ip :: l.outstanding, l.returned.filter (· ≠ ip)⟩
  | .release ip => some ⟨l.alloc.release ip, l.outstanding.erase ip, ip :: l.returned⟩

/-- The caller has what it gives back. -/
def Due (l : Ledger) : Call → Prop
  | .allocate => True
  | .release ip => ip ∈ l.outstanding

instance (l : Ledger) : ∀ c, Decidable (l.Due c)
  | .allocate => isTrue trivial
  | .release ip => inferInstanceAs (Decidable (ip ∈ l.outstanding))

/-! ## The property -/

/-- What the ledger says of the allocator of the network `baseIp` is in. -/
structure Accounted (baseIp : UInt32) (l : Ledger) : Prop where
  nodup : l.outstanding.Nodup
  hosts : ∀ ip ∈ l.outstanding, ∃ host, 2 ≤ host ∧ host ≤ 253 ∧
    ip.toNat = baseIp.toNat / 256 * 256 + host
  disjoint : ∀ ip ∈ l.outstanding, hostOf ip ∉ l.alloc.freed
  below : ∀ host, (∃ ip ∈ l.outstanding, hostOf ip = host) ∨ host ∈ l.alloc.freed
    ↔ 2 ≤ host ∧ host < l.alloc.next
  exhausted : l.alloc.allocate = none ↔ l.outstanding.length = 252
  again : ∀ ip ∈ l.returned, l.alloc.release ip = l.alloc

/-! ## The invariant -/

/-- The octets are apportioned, and an octet stands for its address. -/
structure Inv (baseIp : UInt32) (l : Ledger) : Prop where
  base : l.alloc.base = baseIp &&& 0xFFFFFF00
  octets : Apportioned 2 l.alloc.next l.alloc.freed (l.outstanding.map hostOf)
  outstanding : ∀ ip ∈ l.outstanding, l.alloc.base ||| UInt32.ofNat (hostOf ip) = ip
  returned : ∀ ip ∈ l.returned,
    l.alloc.base ||| UInt32.ofNat (hostOf ip) = ip ∧ hostOf ip ∈ l.alloc.freed

theorem toNat_network (baseIp : UInt32) :
    (baseIp &&& 0xFFFFFF00).toNat = baseIp.toNat / 256 * 256 := by
  have hlow := (IpAllocator.new baseIp).network
  have hlt := baseIp.toNat_lt
  have hhigh : (baseIp &&& 0xFFFFFF00).toNat / 256 = baseIp.toNat / 256 := by
    have hdiv := Nat.and_div_two_pow (a := baseIp.toNat) (b := 0xFFFFFF00) (n := 8)
    have hmask := Nat.and_two_pow_sub_one_eq_mod (baseIp.toNat / 256) 24
    rw [Nat.mod_eq_of_lt (by omega)] at hmask
    rw [UInt32.toNat_and]
    exact hdiv.trans hmask
  simp only [IpAllocator.new] at hlow
  omega

theorem inv_start (baseIp : UInt32) : (start baseIp).Inv baseIp where
  base := rfl
  octets := Apportioned.start 2
  outstanding _ h := by cases h
  returned _ h := by cases h

/-! ## The steps -/

theorem Inv.host_range {baseIp : UInt32} {l : Ledger} (h : l.Inv baseIp) {ip : UInt32}
    (hip : ip ∈ l.outstanding) : 2 ≤ hostOf ip ∧ hostOf ip < l.alloc.next :=
  h.octets.mem_iff.mp (Or.inl (List.mem_map_of_mem hip))

theorem Inv.allocate {baseIp : UInt32} {l : Ledger} (h : l.Inv baseIp) {ip : UInt32}
    {alloc : IpAllocator} (halloc : l.alloc.allocate = some (ip, alloc)) :
    Inv baseIp ⟨alloc, ip :: l.outstanding, l.returned.filter (· ≠ ip)⟩ := by
  obtain ⟨host, hip, hbase, hsource⟩ := IpAllocator.allocate_cases halloc
  have hbound := l.alloc.bounded
  have hoctets : host < 256 ∧ Apportioned 2 alloc.next alloc.freed
      (host :: l.outstanding.map hostOf) := by
    rcases hsource with ⟨hfreed, hnext⟩ | ⟨hfreed, hfreed', rfl, hlt, hnext⟩
    · have hmem := h.octets.mem_iff.mp (Or.inr (hfreed ▸ List.mem_cons_self))
      refine ⟨by omega, ?_⟩
      rw [hnext]
      exact (hfreed ▸ h.octets).reuse
    · refine ⟨by omega, ?_⟩
      rw [hnext, hfreed']
      exact (hfreed ▸ h.octets).extend
  have hhost : hostOf ip = host := by rw [hip, IpAllocator.hostOf_address _ hoctets.1]
  have hself : alloc.base ||| UInt32.ofNat (hostOf ip) = ip := by
    rw [hhost, hbase, hip]
    rfl
  refine ⟨hbase.trans h.base, ?_, fun x hx => ?_, fun x hx => ?_⟩
  · rw [List.map_cons, hhost]
    exact hoctets.2
  · rcases List.mem_cons.mp hx with rfl | hx
    · exact hself
    · rw [hbase]
      exact h.outstanding x hx
  · obtain ⟨hx, hne⟩ := List.mem_filter.mp hx
    obtain ⟨haddr, hmem⟩ := h.returned x hx
    refine ⟨by rw [hbase]; exact haddr, ?_⟩
    rcases hsource with ⟨hfreed, -⟩ | ⟨hfreed, -⟩
    · rw [hfreed] at hmem
      refine (List.mem_cons.mp hmem).resolve_left fun heq => ?_
      have hsame : x = ip := by rw [← haddr, heq, hip]; rfl
      exact of_decide_eq_true hne hsame
    · rw [hfreed] at hmem
      cases hmem

theorem Inv.release {baseIp : UInt32} {l : Ledger} (h : l.Inv baseIp) {ip : UInt32}
    (hip : ip ∈ l.outstanding) :
    Inv baseIp ⟨l.alloc.release ip, l.outstanding.erase ip, ip :: l.returned⟩ := by
  obtain ⟨hlow, hhigh⟩ := h.host_range hip
  have hbound := l.alloc.bounded
  have hheld : hostOf ip ∉ l.alloc.freed := h.octets.disjoint (List.mem_map_of_mem hip)
  obtain ⟨hbase, hnext, hfreed⟩ :=
    IpAllocator.release_of_not_mem hlow (by omega) hheld
  refine ⟨hbase.trans h.base, ?_, fun x hx => ?_, fun x hx => ?_⟩
  · have hperm := (List.perm_cons_erase hip).map hostOf
    rw [List.map_cons] at hperm
    simp only [hnext, hfreed]
    exact h.octets.giveBack hperm
  · simp only [hbase]
    exact h.outstanding x (List.mem_of_mem_erase hx)
  · simp only [hbase, hfreed]
    rcases List.mem_cons.mp hx with rfl | hx
    · exact ⟨h.outstanding x hip, List.mem_cons_self⟩
    · obtain ⟨haddr, hmem⟩ := h.returned x hx
      exact ⟨haddr, List.mem_cons_of_mem _ hmem⟩

theorem Inv.step {baseIp : UInt32} {l l' : Ledger} {c : Call} (h : l.Inv baseIp) (hdue : l.Due c)
    (hstep : l.step c = some l') : l'.Inv baseIp := by
  cases c with
  | allocate =>
      simp only [Ledger.step] at hstep
      split at hstep
      · obtain rfl := Option.some.inj hstep
        exact h
      · rename_i ip alloc halloc
        obtain rfl := Option.some.inj hstep
        exact h.allocate halloc
  | release ip =>
      obtain rfl := Option.some.inj hstep
      exact h.release hdue

theorem Inv.accounted {baseIp : UInt32} {l : Ledger} (h : l.Inv baseIp) : l.Accounted baseIp where
  nodup := by
    have hhosts : (l.outstanding.map hostOf).Nodup := (List.nodup_append.mp h.octets.nodup).2.1
    exact hhosts.of_map hostOf
  hosts ip hip := by
    obtain ⟨hlow, hhigh⟩ := h.host_range hip
    have hbound := l.alloc.bounded
    have haddr : (l.alloc.address (hostOf ip)).toNat = ip.toNat :=
      congrArg UInt32.toNat (h.outstanding ip hip)
    refine ⟨hostOf ip, hlow, by omega, ?_⟩
    rw [← haddr, l.alloc.toNat_address (by omega), h.base, toNat_network]
  disjoint ip hip := h.octets.disjoint (List.mem_map_of_mem hip)
  below host := by rw [← h.octets.mem_iff, List.mem_map]
  exhausted := by
    have hsum := h.octets.length_add
    have hbound := l.alloc.bounded
    rw [List.length_map] at hsum
    rw [IpAllocator.allocate_eq_none_iff, ← List.length_eq_zero_iff]
    have hle := h.octets.le
    omega
  again ip hip := IpAllocator.release_of_mem (h.returned ip hip).2

/-- As long as only outstanding addresses are released, no address is
outstanding twice, and each is a host of the network that the allocator has
neither kept nor freed. -/
theorem allocator_accounted (baseIp : UInt32) (calls : List Call)
    (h : Meets step Due (start baseIp) calls) :
    Always step (Accounted baseIp) (start baseIp) calls :=
  (always_of_meets (fun _ _ _ hinv hdue hstep => Inv.step hinv hdue hstep)
    (inv_start baseIp) h).mono fun _ hinv => hinv.accounted

/-- Two clients, of which the first leaves and a third takes its place. -/
theorem allocator_accounted_reused :
    Always step (Accounted 0x0A0A0000) (start 0x0A0A0000)
      [.allocate, .allocate, .release 0x0A0A0002, .allocate] :=
  allocator_accounted _ _ (by decide +kernel)

/-- An octet that is not in the pool is outstanding, and so is its address. -/
theorem Inv.outstanding_of_not_free {baseIp : UInt32} {l : Ledger} (h : l.Inv baseIp) {ip : UInt32}
    (hrange : 2 ≤ hostOf ip ∧ hostOf ip < 254)
    (haddr : l.alloc.base ||| UInt32.ofNat (hostOf ip) = ip) (hheld : ¬ l.alloc.Free (hostOf ip)) :
    ip ∈ l.outstanding := by
  have hfreed : hostOf ip ∉ l.alloc.freed := fun hmem => hheld (Or.inl hmem)
  have hlt : hostOf ip < l.alloc.next := by
    by_contra hge
    exact hheld (Or.inr ⟨not_lt.mp hge, hrange.2⟩)
  have hmem := (h.octets.mem_iff.mpr ⟨hrange.1, hlt⟩).resolve_right hfreed
  obtain ⟨ip', hip', hsame⟩ := List.mem_map.mp hmem
  have heq : ip' = ip := by rw [← h.outstanding ip' hip', hsame, haddr]
  exact heq ▸ hip'

end Ledger

/-! ## The callers -/

namespace Leases

/-- The call to the allocator that an event is. -/
def callOf (t : Leases) : Event → Option Call
  | .accept => if t.active ≥ t.maxClients then none else some .allocate
  | .leave i =>
      t.tasks[i]?.bind fun c =>
        match c.pc with
        | .leaving true => some (.release c.reserved)
        | _ => none
  | .release => (t.reclaiming.head?.bind (t.entries[·]?)).map fun e => .release e.assignedIp
  | _ => none

/-- The calls of a run, in order. -/
def callsOf (t : Leases) : List Event → List Call
  | [] => []
  | e :: es =>
      match t.step e with
      | none => []
      | some t' => (t.callOf e).toList ++ t'.callsOf es

/-- The addresses that tasks and entries know. -/
def known (t : Leases) : List UInt32 :=
  t.tasks.map ConnTask.reserved ++ t.entries.map Lease.assignedIp

/-- What a step does about addresses, by the call it makes. -/
inductive Moves (t t' : Leases) : Option Call → Prop where
  | quiet (halloc : t'.alloc = t.alloc) (hknown : t'.known ⊆ t.known) : Moves t t' none
  | exhausted (hnone : t.alloc.allocate = none) (hsame : t' = t) : Moves t t' (some .allocate)
  | granted (ip : UInt32) (halloc : t.alloc.allocate = some (ip, t'.alloc))
      (hknown : t'.known ⊆ ip :: t.known) : Moves t t' (some .allocate)
  | returned (ip : UInt32) (x : Holder) (hheld : t.holds x = some (hostOf ip))
      (hip : ip ∈ t.known) (halloc : t'.alloc = t.alloc.release ip)
      (hknown : t'.known ⊆ t.known) : Moves t t' (some (.release ip))

theorem known_subset {t t' : Leases}
    (htasks : t'.tasks.map ConnTask.reserved = t.tasks.map ConnTask.reserved)
    (hentries : t'.entries.map Lease.hold = t.entries.map Lease.hold) : t'.known ⊆ t.known := by
  have hips := congrArg (List.map Prod.fst) hentries
  rw [List.map_map, List.map_map] at hips
  have heq : t'.known = t.known := congrArg₂ (· ++ ·) htasks hips
  rw [heq]
  exact List.Subset.refl _

theorem reserved_setPc (t : Leases) (i : Nat) (pc : TaskPc) :
    (t.setPc i pc).tasks.map ConnTask.reserved = t.tasks.map ConnTask.reserved :=
  map_modify fun _ => rfl

theorem mem_known_task {t : Leases} {i : Nat} {c : ConnTask} (h : t.tasks[i]? = some c) :
    c.reserved ∈ t.known :=
  List.mem_append_left _ (List.mem_map_of_mem (List.mem_of_getElem? h))

theorem mem_known_entry {t : Leases} {k : Nat} {e : Lease} (h : t.entries[k]? = some e) :
    e.assignedIp ∈ t.known :=
  List.mem_append_right _ (List.mem_map_of_mem (List.mem_of_getElem? h))

theorem assignedIp_reaped (order : List Nat) (es : List Lease) :
    (order.foldl (fun es k => es.modify k fun e => { e with status := .reaped }) es).map
      Lease.assignedIp = es.map Lease.assignedIp := by
  induction order generalizing es with
  | nil => rfl
  | cons k order ih =>
      rw [List.foldl_cons, ih]
      exact map_modify fun _ => rfl

theorem moves_leave {t : Leases} {i : Nat} {unused : Bool} {c : ConnTask}
    (hc : t.tasks[i]? = some c) (hpc : c.pc = .leaving unused) :
    t.Moves { t.setPc i .done with
      alloc := if unused then t.alloc.release c.reserved else t.alloc
      active := t.active - 1 } (t.callOf (.leave i)) := by
  have hknown : ∀ alloc : IpAllocator,
      known { t.setPc i .done with alloc, active := t.active - 1 } ⊆ t.known :=
    fun alloc => known_subset (reserved_setPc t i .done) rfl
  cases unused with
  | false =>
      have hcall : t.callOf (.leave i) = none := by simp only [callOf, hc, Option.bind_some, hpc]
      rw [hcall]
      exact .quiet rfl (hknown _)
  | true =>
      have hcall : t.callOf (.leave i) = some (.release c.reserved) := by
        simp only [callOf, hc, Option.bind_some, hpc]
      rw [hcall]
      have hkeeps : c.keeps = true := by rw [ConnTask.keeps, hpc]
      exact .returned _ (.task i) (holds_task.mpr ⟨c, hc, hkeeps, rfl⟩) (mem_known_task hc) rfl
        (hknown _)

theorem moves_release {t : Leases} (h : t.Kept) {k : Nat} {rest : List Nat} {e : Lease}
    (hreclaiming : t.reclaiming = k :: rest) (he : t.entries[k]? = some e) :
    t.Moves { t with
      alloc := t.alloc.release e.assignedIp
      entries := t.entries.modify k fun e => { e with status := .released }
      reclaiming := rest
      unregistered := false } (t.callOf .release) := by
  have hcall : t.callOf .release = some (.release e.assignedIp) := by
    simp only [callOf, hreclaiming, List.head?_cons, Option.bind_some, he, Option.map_some]
  rw [hcall]
  refine .returned _ (.entry k) (h.reaped_holds (hreclaiming ▸ List.mem_cons_self) he)
    (mem_known_entry he) rfl ?_
  have hips : (t.entries.modify k fun e => { e with status := .released }).map Lease.assignedIp
      = t.entries.map Lease.assignedIp := map_modify fun _ => rfl
  simp only [known, hips]
  exact List.Subset.refl _

theorem moves {t t' : Leases} {e : Event} (h : t.Kept) (hstep : t.step e = some t') :
    t.Moves t' (t.callOf e) := by
  cases steps_of_step hstep with
  | tick elapsed => exact .quiet rfl (known_subset rfl rfl)
  | full hfull =>
      rw [callOf, if_pos hfull]
      exact .quiet rfl (List.Subset.refl _)
  | exhausted hroom hnone =>
      rw [callOf, if_neg hroom]
      exact .exhausted hnone rfl
  | @accept ip alloc hroom halloc =>
      rw [callOf, if_neg hroom]
      refine .granted ip halloc fun x hx => ?_
      simp only [known, List.map_append, List.map_cons, List.map_nil, List.append_assoc] at hx
      simpa [known, or_left_comm] using hx
  | establish id hc hpc hnew =>
      refine .quiet rfl fun x hx => ?_
      simp only [known, reserved_setPc, List.map_append, List.map_cons, List.map_nil,
        List.mem_append, List.mem_singleton] at hx
      rcases hx with hx | hx | rfl
      · exact List.mem_append_left _ hx
      · exact List.mem_append_right _ hx
      · exact mem_known_task hc
  | fail | lookup | respond => exact .quiet rfl (known_subset (reserved_setPc _ _ _) rfl)
  | attach hc hpc =>
      exact .quiet rfl (known_subset (map_modify fun _ => rfl) (map_modify fun _ => rfl))
  | frame hc hpc => exact .quiet rfl (known_subset rfl (hold_touch t _))
  | writerEnds i => exact .quiet rfl (known_subset (map_modify fun _ => rfl) rfl)
  | disconnect hc hpc =>
      exact .quiet rfl (known_subset (reserved_setPc _ _ _) (hold_touch t _))
  | leave hc hpc => exact moves_leave hc hpc
  | reap hidle hperm =>
      refine .quiet rfl ?_
      simp only [known, assignedIp_reaped]
      exact List.Subset.refl _
  | unregister => exact .quiet rfl (known_subset rfl rfl)
  | release hreclaiming hunregistered he => exact moves_release h hreclaiming he

/-- The server's state beside the ledger of the calls it has made. -/
structure Books (baseIp : UInt32) (t : Leases) (l : Ledger) : Prop where
  kept : t.Kept
  alloc : l.alloc = t.alloc
  ledger : l.Inv baseIp
  known : ∀ ip ∈ t.known, (2 ≤ hostOf ip ∧ hostOf ip < 254)
    ∧ l.alloc.base ||| UInt32.ofNat (hostOf ip) = ip

theorem books_start (baseIp : UInt32) (maxClients : Nat) :
    Books baseIp (start baseIp maxClients) (.start baseIp) where
  kept := kept_start baseIp maxClients
  alloc := rfl
  ledger := Ledger.inv_start baseIp
  known _ h := by cases h

theorem Books.step {baseIp : UInt32} {t t' : Leases} {l : Ledger} {e : Event}
    (h : Books baseIp t l) (hstep : t.step e = some t') :
    Meets Ledger.step Ledger.Due l (t.callOf e).toList ∧
      ∃ l', exec Ledger.step l (t.callOf e).toList = some l' ∧ Books baseIp t' l' := by
  have hkept := h.kept.step hstep
  have hmoves := moves h.kept hstep
  generalize t.callOf e = call at hmoves ⊢
  cases hmoves with
  | quiet halloc hknown =>
      exact ⟨trivial, l, rfl, hkept, h.alloc.trans halloc.symm, h.ledger,
        fun ip hip => h.known ip (hknown hip)⟩
  | exhausted hnone hsame =>
      subst hsame
      refine ⟨fun _ _ => ⟨trivial, trivial⟩, l, ?_, h⟩
      rw [Option.toList_some, exec, Ledger.step, h.alloc, hnone]
      rfl
  | granted ip halloc hknown =>
      have hrun := h.ledger.allocate (h.alloc ▸ halloc)
      refine ⟨fun _ _ => ⟨trivial, trivial⟩, _, ?_, hkept, rfl, hrun, fun x hx => ?_⟩
      · rw [Option.toList_some, exec, Ledger.step, h.alloc, halloc]
        rfl
      · rcases List.mem_cons.mp (hknown hx) with rfl | hx
        · have hmem : x ∈ x :: l.outstanding := List.mem_cons_self
          have hrange := hrun.host_range hmem
          have hbound := t'.alloc.bounded
          exact ⟨⟨hrange.1, hrange.2.trans_le hbound⟩, hrun.outstanding x hmem⟩
        · obtain ⟨hrange, haddr⟩ := h.known x hx
          exact ⟨hrange, by rw [hrun.base, ← h.ledger.base, haddr]⟩
  | returned ip x hheld hip halloc hknown =>
      obtain ⟨hrange, haddr⟩ := h.known ip hip
      have hfree : ¬ l.alloc.Free (hostOf ip) := by
        rw [h.alloc]
        exact h.kept.owned.taken x _ hheld
      have hdue : ip ∈ l.outstanding := h.ledger.outstanding_of_not_free hrange haddr hfree
      have hrun := h.ledger.release hdue
      refine ⟨fun _ _ => ⟨hdue, trivial⟩, _, rfl, hkept, ?_, hrun, fun y hy => ?_⟩
      · rw [halloc, h.alloc]
      · obtain ⟨hrange, haddr⟩ := h.known y (hknown hy)
        exact ⟨hrange, by rw [hrun.base, ← h.ledger.base, haddr]⟩

theorem Books.calls_due {baseIp : UInt32} {t : Leases} {l : Ledger} (h : Books baseIp t l)
    (es : List Event) : Meets Ledger.step Ledger.Due l (t.callsOf es) := by
  induction es generalizing t l with
  | nil => trivial
  | cons e es ih =>
      rw [callsOf]
      split
      · trivial
      · rename_i t' hstep
        obtain ⟨hdue, l', hl', hbooks⟩ := h.step hstep
        refine meets_append hdue fun u hu => ?_
        obtain rfl := Option.some.inj (hl'.symm.trans hu)
        exact ih hbooks

theorem Books.exec {baseIp : UInt32} {t t' : Leases} {l : Ledger} {es : List Event}
    (h : Books baseIp t l) (hrun : exec Leases.step t es = some t') :
    ∃ l', Lib.exec Ledger.step l (t.callsOf es) = some l' ∧ Books baseIp t' l' := by
  induction es generalizing t l with
  | nil =>
      obtain rfl := Option.some.inj hrun
      exact ⟨l, rfl, h⟩
  | cons e es ih =>
      obtain ⟨u, hstep, hrun⟩ := exec_cons.mp hrun
      obtain ⟨-, m, hm, hbooks⟩ := h.step hstep
      obtain ⟨l', hl', hend⟩ := ih hbooks hrun
      refine ⟨l', ?_, hend⟩
      rw [callsOf, hstep]
      exact exec_append.mpr ⟨m, hm, hl'⟩

/-- Whatever the connections and the reaper do, an address is released only
while it is outstanding. -/
theorem calls_due (baseIp : UInt32) (maxClients : Nat) (es : List Event) :
    Meets Ledger.step Ledger.Due (.start baseIp) ((start baseIp maxClients).callsOf es) :=
  (books_start baseIp maxClients).calls_due es

/-- So the allocator of a running server is accounted for. -/
theorem server_accounted {baseIp : UInt32} {maxClients : Nat} {es : List Event} {t : Leases}
    (h : exec step (start baseIp maxClients) es = some t) :
    ∃ l, exec Ledger.step (.start baseIp) ((start baseIp maxClients).callsOf es) = some l
      ∧ l.alloc = t.alloc ∧ l.Accounted baseIp := by
  obtain ⟨l, hl, hbooks⟩ := (books_start baseIp maxClients).exec h
  exact ⟨l, hl, hbooks.alloc, hbooks.ledger.accounted⟩

end Leases

end Kanrin
