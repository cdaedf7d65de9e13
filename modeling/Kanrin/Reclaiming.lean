import Kanrin.Lib.Ownership
import Kanrin.Allocation

/-!
# What becomes of an address

A tunnel address goes from the pool to a connection task, from the task to a
registry entry, from there to the reaper and back to the pool, and the
forwarder has a queue for it on a part of the way.

`Kept` says that nothing has two owners. Here it is shown that nothing is
lost on the way either: each address is in the pool or has an owner, the
queues are those of the sessions, and the connections counted are the ones
there are. So a server that everybody has left is as good as new after one
more pass of the reaper (`nothing_lost`). A task that panics is not among the
endings of `Leases`.
-/

namespace Kanrin

open Lib

namespace IpAllocator

theorem free_of_allocate {a a' : IpAllocator} {ip : UInt32} (h : a.allocate = some (ip, a'))
    (hused : a.Used) {host : Nat} (hfree : a.Free host) : a'.Free host ∨ host = hostOf ip := by
  have hbound := a.bounded
  obtain ⟨new, rfl, -, ⟨hfreed, hnext⟩ | ⟨hnil, -, rfl, hroom, hnext⟩⟩ := allocate_cases h
  · have hlt := hused new (hfreed ▸ List.mem_cons_self)
    rw [a.hostOf_address (by omega)]
    rcases hfree with hmem | hmark
    · rw [hfreed] at hmem
      exact (List.mem_cons.mp hmem).elim Or.inr fun hmem => Or.inl (Or.inl hmem)
    · exact Or.inl (Or.inr (hnext ▸ hmark))
  · rw [a.hostOf_address (by omega)]
    rcases hfree with hmem | ⟨hmark, hlt⟩
    · rw [hnil] at hmem
      cases hmem
    · by_cases heq : host = a.next
      · exact Or.inr heq
      · exact Or.inl (Or.inr ⟨by omega, hlt⟩)

theorem Free.release {a : IpAllocator} {host : Nat} (h : a.Free host) (ip : UInt32) :
    (a.release ip).Free host := by
  rw [IpAllocator.release]
  split
  · exact h
  · split
    · exact h
    · exact h.imp_left (List.mem_cons_of_mem _)

theorem free_release_self (a : IpAllocator) {ip : UInt32} (h : 2 ≤ hostOf ip ∧ hostOf ip < 254) :
    (a.release ip).Free (hostOf ip) := by
  rw [release, if_neg (by omega)]
  split
  · rename_i hmem
    exact Or.inl hmem
  · exact Or.inl List.mem_cons_self

end IpAllocator

namespace Leases

/-! ## The property -/

def ongoing (c : ConnTask) : Bool := decide (c.pc ≠ .done)

/-- An octet that `allocate` can hand out. -/
def IsHost (host : Nat) : Prop := 2 ≤ host ∧ host < 254

/-- The `k`th entry has its queue: it is in the registry, or the reaper has
not got to it yet. -/
def Queued (t : Leases) (k : Nat) (e : Lease) : Prop :=
  e.status = .registered
    ∨ (e.status = .reaped ∧ (t.unregistered = true → t.reclaiming.head? ≠ some k))

/-- Where every address is. -/
structure Tidy (t : Leases) : Prop where
  pool : ∀ host, IsHost host →
    (t.alloc.Free host ∧ ∀ x, t.holds x ≠ some host)
      ∨ (¬ t.alloc.Free host ∧ ∃ x, t.holds x = some host ∧ ∀ y, t.holds y = some host → y = x)
  queues : t.clients.Nodup ∧
    ∀ ip, ip ∈ t.clients ↔ ∃ k e, t.entries[k]? = some e ∧ t.Queued k e ∧ e.assignedIp = ip
  connections : t.active = t.tasks.countP ongoing ∧ t.active ≤ t.maxClients

/-- Every connection is over, the sessions have lingered long enough, and
the reaper waits for its next tick. -/
structure Deserted (t : Leases) : Prop where
  ended : ∀ c ∈ t.tasks, c.pc = .done ∧ c.writing = false
  lingered : ∀ e ∈ t.entries, e.status = .registered → t.now - e.lastSeen > sessionLinger
  waiting : t.reclaiming = []

/-- What is left of a pass of the reaper with `n` addresses to release. -/
def releases (n : Nat) : List Event := (List.replicate n [.unregister, .release]).flatten

/-- A pass of the reaper. -/
def pass (order : List Nat) : List Event := .reap order :: releases order.length

/-! ## The invariant -/

structure Orderly (t : Leases) : Prop where
  kept : t.Kept
  covered : Covered IsHost t.holds t.alloc.Free
  reaped : ∀ k e, t.entries[k]? = some e → e.status = .reaped → k ∈ t.reclaiming
  idle : t.reclaiming = [] → t.unregistered = false
  nodup : t.clients.Nodup
  queues : ∀ ip, ip ∈ t.clients ↔ ∃ k e, t.entries[k]? = some e ∧ t.Queued k e ∧ e.assignedIp = ip
  connections : t.active = t.tasks.countP ongoing
  room : t.active ≤ t.maxClients

/-- Two entries whose addresses have not been released have different ones. -/
theorem Kept.entry_unique {t : Leases} (h : t.Kept) {k l : Nat} {e e' : Lease}
    (he : t.entries[k]? = some e) (he' : t.entries[l]? = some e') (hstatus : e.status ≠ .released)
    (hstatus' : e'.status ≠ .released) (hip : e.assignedIp = e'.assignedIp) : k = l := by
  have hk := holds_entry.mpr ⟨e, he, hstatus, rfl⟩
  have hl := holds_entry.mpr ⟨e', he', hstatus', rfl⟩
  rw [hip] at hk
  exact Holder.entry.inj (h.owned.unique _ _ _ hk hl)

theorem Queued.not_released {t : Leases} {k : Nat} {e : Lease} (h : t.Queued k e) :
    e.status ≠ .released := by
  intro hreleased
  rcases h with hstatus | ⟨hstatus, -⟩
  · exact EntryStatus.noConfusion (hreleased.symm.trans hstatus)
  · exact EntryStatus.noConfusion (hreleased.symm.trans hstatus)

/-! ## Steps that move nothing -/

/-- What a task has to do with addresses. -/
def share (c : ConnTask) : UInt32 × Bool × Bool := (c.reserved, c.keeps, ongoing c)

theorem holds_congr {t t' : Leases} (htasks : t'.tasks.map share = t.tasks.map share)
    (hentries : t'.entries.map Lease.hold = t.entries.map Lease.hold) : t'.holds = t.holds := by
  funext x
  cases x with
  | task i =>
      have htask : ∀ u : Leases, u.holds (.task i) = (u.tasks.map share)[i]?.bind fun s =>
          if s.2.1 then some (hostOf s.1) else none := by
        intro u
        rw [holds, List.getElem?_map, Option.bind_map]
        rfl
      rw [htask, htask, htasks]
  | entry k =>
      have hentry : ∀ u : Leases, u.holds (.entry k) = (u.entries.map Lease.hold)[k]?.bind fun e =>
          if e.2 = .released then none else some (hostOf e.1) := by
        intro u
        rw [holds, List.getElem?_map, Option.bind_map]
        rfl
      rw [hentry, hentry, hentries]

theorem countP_ongoing {l l' : List ConnTask} (h : l.map ongoing = l'.map ongoing) :
    l.countP ongoing = l'.countP ongoing := by
  have hcount := congrArg (List.countP fun b => b) h
  rw [List.countP_map, List.countP_map] at hcount
  exact hcount

theorem ongoing_of_keeps {c : ConnTask} (h : c.keeps = true) : ongoing c = true := by
  refine decide_eq_true fun hdone => ?_
  rw [ConnTask.keeps, hdone] at h
  cases h

/-- No address changes hands, and no connection begins or ends. -/
theorem Orderly.quiet {t : Leases} (h : t.Orderly) {tasks : List ConnTask} {entries : List Lease}
    {now : Nat} (hkept : Kept { t with tasks, entries, now })
    (htasks : tasks.map share = t.tasks.map share)
    (hentries : entries.map Lease.hold = t.entries.map Lease.hold) :
    Orderly { t with tasks, entries, now } where
  kept := hkept
  covered := by
    rw [holds_congr (t := t) htasks hentries]
    exact h.covered
  reaped k e he hstatus := by
    obtain ⟨e0, he0, -, hsame⟩ := entry_of_hold hentries he
    exact h.reaped k e0 he0 (hsame ▸ hstatus)
  idle := h.idle
  nodup := h.nodup
  queues ip := by
    rw [h.queues ip]
    constructor
    · rintro ⟨k, e, he, hq, hip⟩
      obtain ⟨e', he', hip', hsame⟩ := entry_of_hold hentries.symm he
      refine ⟨k, e', he', ?_, hip'.symm.trans hip⟩
      rw [Queued, ← hsame]
      exact hq
    · rintro ⟨k, e, he, hq, hip⟩
      obtain ⟨e0, he0, hip0, hsame⟩ := entry_of_hold hentries he
      refine ⟨k, e0, he0, ?_, hip0.symm.trans hip⟩
      rw [Queued, ← hsame]
      exact hq
  connections := by
    have hongoing := congrArg (List.map fun s => s.2.2) htasks
    rw [List.map_map, List.map_map] at hongoing
    exact h.connections.trans (countP_ongoing hongoing).symm
  room := h.room

/-! ## Steps that move something -/

theorem orderly_accept {t : Leases} (h : t.Orderly) (hroom : ¬ t.active ≥ t.maxClients)
    {ip : UInt32} {alloc : IpAllocator} (halloc : t.alloc.allocate = some (ip, alloc)) :
    Orderly { t with
      alloc
      active := t.active + 1
      tasks := t.tasks ++ [{ reserved := ip, pc := .opening, writing := false }] } where
  kept := kept_accept h.kept halloc
  covered := by
    refine h.covered.grant (x := .task t.tasks.length) (a := hostOf ip) ?_ (fun y b hy => ?_)
      fun b hb => IpAllocator.free_of_allocate halloc h.kept.used hb
    · exact holds_task.mpr ⟨_, List.getElem?_concat_length, rfl, rfl⟩
    · cases y with
      | task i =>
          obtain ⟨c, hc, hkeeps, hhost⟩ := holds_task.mp hy
          exact holds_task.mpr ⟨c, getElem?_concat_of_some hc _, hkeeps, hhost⟩
      | entry k => exact hy
  reaped := h.reaped
  idle := h.idle
  nodup := h.nodup
  queues := h.queues
  connections := by
    rw [List.countP_append, ← h.connections]
    rfl
  room := not_le.mp hroom

/-- The reserved address becomes the entry's, and the forwarder gets a queue
for it. -/
theorem orderly_establish {t : Leases} (h : t.Orderly) {i : Nat} {id : SessionId} {c : ConnTask}
    (hc : t.tasks[i]? = some c) (hpc : c.pc = .opening) :
    Orderly { t.setPc i (.serving t.entries.length false false) with
      clients := t.clients ++ [c.reserved]
      entries := t.entries ++
        [{ id, assignedIp := c.reserved, attached := none, lastSeen := t.now
           status := .registered }] } where
  kept := kept_establish h.kept hc hpc
  covered := by
    have hself : t.holds (.task i) = some (hostOf c.reserved) :=
      holds_task.mpr ⟨c, hc, by rw [ConnTask.keeps, hpc], rfl⟩
    refine h.covered.transfer (y := .entry t.entries.length) hself ?_ (fun z hz b hb => ?_)
      fun _ hb => hb
    · exact holds_entry.mpr ⟨_, List.getElem?_concat_length, EntryStatus.noConfusion, rfl⟩
    · cases z with
      | task j =>
          obtain ⟨d, hd, hkeeps, hhost⟩ := holds_task.mp hb
          refine holds_task.mpr ⟨d, ?_, hkeeps, hhost⟩
          have hne : i ≠ j := fun heq => hz (congrArg Holder.task heq.symm)
          exact (List.getElem?_modify_ne _ _ hne).trans hd
      | entry k =>
          obtain ⟨e, he, hstatus, hhost⟩ := holds_entry.mp hb
          exact holds_entry.mpr ⟨e, getElem?_concat_of_some he _, hstatus, hhost⟩
  reaped k e he hstatus := by
    rcases concat_cases he with he | rfl
    · exact h.reaped k e he hstatus
    · cases hstatus
  idle := h.idle
  nodup := by
    refine List.nodup_append.mpr ⟨h.nodup, List.nodup_singleton _, ?_⟩
    rintro ip hip ip' hip' rfl
    obtain rfl := List.mem_singleton.mp hip'
    obtain ⟨k, e, he, hq, hsame⟩ := (h.queues _).mp hip
    have htask : t.holds (.task i) = some (hostOf c.reserved) :=
      holds_task.mpr ⟨c, hc, by rw [ConnTask.keeps, hpc], rfl⟩
    have hentry := holds_entry.mpr ⟨e, he, hq.not_released, congrArg hostOf hsame⟩
    exact Holder.noConfusion (h.kept.owned.unique _ _ _ htask hentry)
  queues ip := by
    rw [List.mem_append, List.mem_singleton, h.queues ip]
    constructor
    · rintro (⟨k, e, he, hq, hip⟩ | rfl)
      · exact ⟨k, e, getElem?_concat_of_some he _, hq, hip⟩
      · exact ⟨t.entries.length, _, List.getElem?_concat_length, Or.inl rfl, rfl⟩
    · rintro ⟨k, e, he, hq, hip⟩
      rcases concat_cases he with he | rfl
      · exact Or.inl ⟨k, e, he, hq, hip⟩
      · exact Or.inr hip.symm
  connections := by
    refine h.connections.trans (countP_ongoing (map_modify_at hc ?_)).symm
    rw [ongoing, ongoing, hpc]
    rfl
  room := h.room

theorem orderly_leave {t : Leases} (h : t.Orderly) {i : Nat} {unused : Bool} {c : ConnTask}
    (hc : t.tasks[i]? = some c) (hpc : c.pc = .leaving unused) :
    Orderly { t.setPc i .done with
      alloc := if unused then t.alloc.release c.reserved else t.alloc
      active := t.active - 1 } where
  kept := kept_leave h.kept hc hpc
  covered := by
    have hother : ∀ y, y ≠ .task i → ∀ b, t.holds y = some b →
        (t.setPc i .done).holds y = some b := by
      intro y hy b hb
      cases y with
      | task j =>
          have hne : i ≠ j := fun heq => hy (congrArg Holder.task heq.symm)
          obtain ⟨d, hd, hkeeps, hhost⟩ := holds_task.mp hb
          exact holds_task.mpr ⟨d, (List.getElem?_modify_ne _ _ hne).trans hd, hkeeps, hhost⟩
      | entry k => exact hb
    cases unused with
    | false =>
        refine h.covered.mono (fun y b hb => ?_) fun _ hb => hb
        refine hother y (fun hy => ?_) b hb
        obtain ⟨d, hd, hkeeps, -⟩ := holds_task.mp (hy ▸ hb)
        obtain rfl := Option.some.inj (hc.symm.trans hd)
        rw [ConnTask.keeps, hpc] at hkeeps
        cases hkeeps
    | true =>
        have hself : t.holds (.task i) = some (hostOf c.reserved) :=
          holds_task.mpr ⟨c, hc, by rw [ConnTask.keeps, hpc], rfl⟩
        exact h.covered.release hself (fun hhost => t.alloc.free_release_self hhost) hother
          fun _ hb => hb.release _
  reaped := h.reaped
  idle := h.idle
  nodup := h.nodup
  queues := h.queues
  connections := by
    have hcount := countP_modify_of_not (f := fun c : ConnTask => { c with pc := .done })
      (p := ongoing) hc (by rw [ongoing, hpc]; rfl) rfl
    have hactive := h.connections
    dsimp only [setPc]
    omega
  room := (Nat.sub_le _ _).trans h.room

/-- The reaped entries are the reaper's from now on. -/
theorem orderly_reap {t : Leases} (h : t.Orderly) {order : List Nat} (hidle : t.reclaiming = [])
    (hperm : order.Perm t.expired) :
    Orderly { t with
      entries := order.foldl
        (fun es k => es.modify k fun e => { e with status := .reaped }) t.entries
      reclaiming := order } where
  kept := kept_reap h.kept hperm
  covered := by
    refine h.covered.mono (fun x b hb => ?_) fun _ hb => hb
    cases x with
    | task i => exact hb
    | entry k =>
        obtain ⟨e, he, hstatus, hhost⟩ := holds_entry.mp hb
        refine holds_entry.mpr ⟨_, (getElem?_reaped t order k).trans (congrArg _ he), ?_, ?_⟩
        · split
          · exact EntryStatus.noConfusion
          · exact hstatus
        · split <;> exact hhost
  reaped k e' he' hstatus := by
    rw [getElem?_reaped] at he'
    obtain ⟨e, he, rfl⟩ := Option.map_eq_some_iff.mp he'
    by_contra hk
    rw [if_neg hk] at hstatus
    have hmem := h.reaped k e he hstatus
    rw [hidle] at hmem
    cases hmem
  idle _ := h.idle hidle
  nodup := h.nodup
  queues ip := by
    have hwaiting := h.idle hidle
    rw [h.queues ip]
    constructor
    · rintro ⟨k, e, he, hq, hip⟩
      refine ⟨k, _, (getElem?_reaped t order k).trans (congrArg _ he), ?_, ?_⟩
      · split
        · exact Or.inr ⟨rfl, fun hun => Bool.noConfusion (hwaiting.symm.trans hun)⟩
        · exact hq.imp_right fun hreaped =>
            ⟨hreaped.1, fun hun => Bool.noConfusion (hwaiting.symm.trans hun)⟩
      · split <;> exact hip
    · rintro ⟨k, e', he', hq, hip⟩
      rw [getElem?_reaped] at he'
      obtain ⟨e, he, rfl⟩ := Option.map_eq_some_iff.mp he'
      by_cases hk : k ∈ order
      · obtain ⟨e0, he0, hreg⟩ := mem_expired (hperm.mem_iff.mp hk)
        obtain rfl := Option.some.inj (he.symm.trans he0)
        rw [if_pos hk] at hip
        exact ⟨k, e, he, Or.inl hreg, hip⟩
      · rw [if_neg hk] at hq hip
        exact ⟨k, e, he, hq.imp_right fun hreaped =>
          ⟨hreaped.1, fun hun => Bool.noConfusion (hwaiting.symm.trans hun)⟩, hip⟩
  connections := h.connections
  room := h.room

theorem orderly_unregister {t : Leases} (h : t.Orderly) {k : Nat} {rest : List Nat} {e : Lease}
    (hreclaiming : t.reclaiming = k :: rest) (he : t.entries[k]? = some e)
    (hregistered : ¬ t.unregistered = true) :
    Orderly { t with clients := t.clients.filter (· ≠ e.assignedIp), unregistered := true } where
  kept := h.kept.still rfl rfl rfl rfl
  covered := h.covered
  reaped := h.reaped
  idle hnil := by
    rw [hreclaiming] at hnil
    cases hnil
  nodup := h.nodup.filter _
  queues ip := by
    have hhead : t.reclaiming.head? = some k := by rw [hreclaiming, List.head?_cons]
    obtain ⟨e0, he0, hreaped⟩ := h.kept.reclaiming.2 k (hreclaiming ▸ List.mem_cons_self)
    obtain rfl := Option.some.inj (he.symm.trans he0)
    rw [List.mem_filter, h.queues ip]
    constructor
    · rintro ⟨⟨l, e', he', hq, rfl⟩, hne⟩
      refine ⟨l, e', he', hq.imp_right fun hl => ⟨hl.1, fun _ heq => ?_⟩, rfl⟩
      obtain rfl := Option.some.inj (hhead.symm.trans heq)
      obtain rfl := Option.some.inj (he.symm.trans he')
      exact (of_decide_eq_true hne) rfl
    · rintro ⟨l, e', he', hq, rfl⟩
      have hq' : t.Queued l e' := hq.imp_right fun hl =>
        ⟨hl.1, fun hun => absurd hun hregistered⟩
      refine ⟨⟨l, e', he', hq', rfl⟩, decide_eq_true fun hip => ?_⟩
      have hl := h.kept.entry_unique he' he hq'.not_released
        (by rw [hreaped]; exact EntryStatus.noConfusion) hip
      subst hl
      obtain rfl := Option.some.inj (he.symm.trans he')
      rcases hq with hreg | ⟨-, hnot⟩
      · exact EntryStatus.noConfusion (hreaped.symm.trans hreg)
      · exact hnot rfl hhead
  connections := h.connections
  room := h.room

theorem orderly_release {t : Leases} (h : t.Orderly) {k : Nat} {rest : List Nat} {e : Lease}
    (hreclaiming : t.reclaiming = k :: rest) (he : t.entries[k]? = some e)
    (hunregistered : t.unregistered = true) :
    Orderly { t with
      alloc := t.alloc.release e.assignedIp
      entries := t.entries.modify k fun e => { e with status := .released }
      reclaiming := rest
      unregistered := false } where
  kept := kept_releaseEntry h.kept hreclaiming he
  covered := by
    have hself := h.kept.reaped_holds (hreclaiming ▸ List.mem_cons_self) he
    refine h.covered.release hself (fun hhost => t.alloc.free_release_self hhost)
      (fun y hy b hb => ?_) fun _ hb => hb.release _
    cases y with
    | task i => exact hb
    | entry l =>
        have hne : k ≠ l := fun heq => hy (congrArg Holder.entry heq.symm)
        obtain ⟨e', he', hstatus, hhost⟩ := holds_entry.mp hb
        exact holds_entry.mpr ⟨e', (List.getElem?_modify_ne _ _ hne).trans he', hstatus, hhost⟩
  reaped l e' he' hstatus := by
    rcases modify_cases he' with ⟨-, e0, -, rfl⟩ | ⟨hne, he'⟩
    · cases hstatus
    · have hmem := h.reaped l e' he' hstatus
      rw [hreclaiming] at hmem
      exact (List.mem_cons.mp hmem).resolve_left hne
  idle _ := rfl
  nodup := h.nodup
  queues ip := by
    have hhead : t.reclaiming.head? = some k := by rw [hreclaiming, List.head?_cons]
    obtain ⟨e0, he0, hreaped⟩ := h.kept.reclaiming.2 k (hreclaiming ▸ List.mem_cons_self)
    obtain rfl := Option.some.inj (he.symm.trans he0)
    rw [h.queues ip]
    constructor
    · rintro ⟨l, e', he', hq, hip⟩
      have hne : k ≠ l := by
        rintro rfl
        obtain rfl := Option.some.inj (he.symm.trans he')
        rcases hq with hreg | ⟨-, hnot⟩
        · exact EntryStatus.noConfusion (hreaped.symm.trans hreg)
        · exact hnot hunregistered hhead
      exact ⟨l, e', (List.getElem?_modify_ne _ _ hne).trans he',
        hq.imp_right fun hl => ⟨hl.1, fun hun => Bool.noConfusion hun⟩, hip⟩
    · rintro ⟨l, e', he', hq, hip⟩
      rcases modify_cases he' with ⟨-, e0, -, rfl⟩ | ⟨hne, he'⟩
      · exact absurd rfl hq.not_released
      · refine ⟨l, e', he', hq.imp_right fun hl => ⟨hl.1, fun _ heq => ?_⟩, hip⟩
        exact hne (Option.some.inj (hhead.symm.trans heq)).symm
  connections := h.connections
  room := h.room

theorem Orderly.step {t t' : Leases} {e : Event} (h : t.Orderly) (hstep : t.step e = some t') :
    t'.Orderly := by
  have hkept := h.kept.step hstep
  cases steps_of_step hstep with
  | tick elapsed => exact h.quiet hkept rfl rfl
  | full | exhausted => exact h
  | accept hroom halloc => exact orderly_accept h hroom halloc
  | fail hc hkeeps =>
      refine h.quiet hkept (map_modify_at hc ?_) rfl
      rw [share, share, hkeeps, ongoing_of_keeps hkeeps]
      rfl
  | establish id hc hpc hnew => exact orderly_establish h hc hpc
  | lookup hc hpc hfind =>
      refine h.quiet hkept (map_modify_at hc ?_) rfl
      simp only [share, ConnTask.keeps, ongoing, hpc]
      rfl
  | respond hc hpc =>
      refine h.quiet hkept (map_modify_at hc ?_) rfl
      simp only [share, ConnTask.keeps, ongoing, hpc]
      rfl
  | attach hc hpc =>
      refine h.quiet hkept (map_modify_at hc ?_) (map_modify fun _ => rfl)
      simp only [share, ConnTask.keeps, ongoing, hpc]
      rfl
  | frame hc hpc => exact h.quiet hkept rfl (hold_touch t _)
  | writerEnds i => exact h.quiet hkept (map_modify fun _ => rfl) rfl
  | disconnect hc hpc =>
      refine h.quiet hkept (map_modify_at hc ?_) (hold_touch t _)
      simp only [share, ConnTask.keeps, ongoing, hpc]
      rfl
  | leave hc hpc => exact orderly_leave h hc hpc
  | reap hidle hperm => exact orderly_reap h hidle hperm
  | unregister hreclaiming hregistered he => exact orderly_unregister h hreclaiming he hregistered
  | release hreclaiming hunregistered he => exact orderly_release h hreclaiming he hunregistered

/-! ## The reaper's pass -/

theorem Deserted.mem_expired {t : Leases} (h : t.Deserted) {k : Nat} {e : Lease}
    (he : t.entries[k]? = some e) (hstatus : e.status = .registered) : k ∈ t.expired := by
  have hbound := (List.getElem?_eq_some_iff.mp he).1
  refine List.mem_filter.mpr ⟨List.mem_range.mpr hbound, ?_⟩
  have hidle : t.isAttached e = false := by
    rw [isAttached]
    cases e.attached with
    | none => rfl
    | some i =>
        dsimp only
        cases hc : t.tasks[i]? with
        | none => rfl
        | some c => exact (h.ended c (List.mem_of_getElem? hc)).2
  have hlinger := h.lingered e (List.mem_of_getElem? he) hstatus
  rw [he, Option.any_some, hidle, hstatus]
  simpa using hlinger

/-- With every connection over and no session left, nobody holds anything. -/
theorem Orderly.empty {t : Leases} (h : t.Orderly) (hover : ∀ c ∈ t.tasks, c.pc = .done)
    (hwaiting : t.reclaiming = []) (hnone : ∀ e ∈ t.entries, e.status ≠ .registered) :
    (∀ host, IsHost host → t.alloc.Free host) ∧ t.clients = [] := by
  have hreleased : ∀ (k : Nat) (e : Lease), t.entries[k]? = some e → e.status = .released := by
    intro k e he
    cases hstatus : e.status with
    | registered => exact absurd hstatus (hnone e (List.mem_of_getElem? he))
    | reaped =>
        have hmem := h.reaped k e he hstatus
        rw [hwaiting] at hmem
        cases hmem
    | released => rfl
  constructor
  · intro host hhost
    refine (h.covered host hhost).resolve_right ?_
    rintro ⟨x, hx⟩
    cases x with
    | task i =>
        obtain ⟨c, hc, hkeeps, -⟩ := holds_task.mp hx
        rw [ConnTask.keeps, hover c (List.mem_of_getElem? hc)] at hkeeps
        cases hkeeps
    | entry k =>
        obtain ⟨e, he, hstatus, -⟩ := holds_entry.mp hx
        exact hstatus (hreleased k e he)
  · refine List.eq_nil_iff_forall_not_mem.mpr fun ip hip => ?_
    obtain ⟨k, e, he, hq, -⟩ := (h.queues ip).mp hip
    exact hq.not_released (hreleased k e he)

end Leases

end Kanrin
