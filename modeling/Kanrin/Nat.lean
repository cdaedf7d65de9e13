import Mathlib.Logic.Function.Basic
import Kanrin.Build
import Kanrin.Lib.Run
import Kanrin.Packets

/-!
# The NAT table

`NatTable` of `kanrin-tun/src/nat.rs`. Instants are nanoseconds of the
monotonic clock, and the reading of a call is an argument.

`cleanup` goes by `lastSeen`, which is set when an entry is made and renewed by
`tcpActivity`. A lookup by `tcpOutgoing` or `udpOutgoing` is a use of the entry
and does not renew it, and nothing else renews a UDP entry.
`cleanup_keeps_iff` is in which runs that makes no difference.
-/

namespace Kanrin

open Lib

inductive SocketAddr where
  | v4 (ip : Ipv4Addr) (port : UInt16)
  | v6 (ip : Ipv6Addr) (port : UInt16) (flowinfo scopeId : UInt32)
deriving DecidableEq

structure NatKey where
  localAddr : SocketAddr
  remote : SocketAddr
deriving DecidableEq

inductive ConnectionState where
  | synSent
  | established
  | closing
  | closed
  | udp
deriving DecidableEq

structure NatEntry where
  localAddr : SocketAddr
  remoteAddr : SocketAddr
  createdAt : Nat
  lastSeen : Nat
  bytesTx : Nat
  bytesRx : Nat
  state : ConnectionState
deriving DecidableEq

/-- `bytes_tx` and `bytes_rx` are 64 bits wide. -/
def NatEntry.count (build : Build) (entry : NatEntry) (bytes : Nat) (isTx : Bool) :
    Option NatEntry :=
  if isTx then (build.add entry.bytesTx bytes).map fun bytesTx => { entry with bytesTx }
  else (build.add entry.bytesRx bytes).map fun bytesRx => { entry with bytesRx }

structure NatTable where
  tcpEntries : NatKey → Option NatEntry
  udpEntries : NatKey → Option NatEntry
  tcpTimeout : Nat
  udpTimeout : Nat

namespace NatTable

def new (tcpTimeout udpTimeout : Nat) : NatTable where
  tcpEntries _ := none
  udpEntries _ := none
  tcpTimeout
  udpTimeout

/-- `entry(key).or_insert_with`, for an entry that starts in `state`. -/
def lookUpOrCreate (entries : NatKey → Option NatEntry) (state : ConnectionState)
    (localAddr remote : SocketAddr) (now : Nat) : NatEntry × (NatKey → Option NatEntry) :=
  match entries ⟨localAddr, remote⟩ with
  | some entry => (entry, entries)
  | none =>
      let entry : NatEntry :=
        { localAddr
          remoteAddr := remote
          createdAt := now
          lastSeen := now
          bytesTx := 0
          bytesRx := 0
          state }
      (entry, Function.update entries ⟨localAddr, remote⟩ (some entry))

def tcpOutgoing (t : NatTable) (localAddr remote : SocketAddr) (now : Nat) :
    NatEntry × NatTable :=
  let (entry, tcpEntries) := lookUpOrCreate t.tcpEntries .synSent localAddr remote now
  (entry, { t with tcpEntries })

def udpOutgoing (t : NatTable) (localAddr remote : SocketAddr) (now : Nat) :
    NatEntry × NatTable :=
  let (entry, udpEntries) := lookUpOrCreate t.udpEntries .udp localAddr remote now
  (entry, { t with udpEntries })

def tcpActivity (build : Build) (t : NatTable) (localAddr remote : SocketAddr) (bytes : Nat)
    (isTx : Bool) (now : Nat) : Option NatTable :=
  let key : NatKey := ⟨localAddr, remote⟩
  match t.tcpEntries key with
  | none => some t
  | some entry =>
      (NatEntry.count build { entry with lastSeen := now } bytes isTx).map fun entry =>
        { t with tcpEntries := Function.update t.tcpEntries key (some entry) }

def tcpSetState (t : NatTable) (localAddr remote : SocketAddr) (state : ConnectionState) :
    NatTable :=
  let key : NatKey := ⟨localAddr, remote⟩
  match t.tcpEntries key with
  | none => t
  | some entry =>
      { t with tcpEntries := Function.update t.tcpEntries key (some { entry with state }) }

def cleanup (t : NatTable) (now : Nat) : NatTable :=
  { t with
    tcpEntries := fun key => (t.tcpEntries key).filter fun entry =>
      entry.state ≠ .closed && now - entry.lastSeen < t.tcpTimeout
    udpEntries := fun key => (t.udpEntries key).filter fun entry =>
      now - entry.lastSeen < t.udpTimeout }

end NatTable

/-! ## Runs -/

inductive NatProtocol where
  | tcp
  | udp
deriving DecidableEq

namespace NatTable

def entries (t : NatTable) : NatProtocol → NatKey → Option NatEntry
  | .tcp => t.tcpEntries
  | .udp => t.udpEntries

def timeout (t : NatTable) : NatProtocol → Nat
  | .tcp => t.tcpTimeout
  | .udp => t.udpTimeout

end NatTable

inductive NatCall where
  | tcpOutgoing (localAddr remote : SocketAddr)
  | udpOutgoing (localAddr remote : SocketAddr)
  | tcpActivity (localAddr remote : SocketAddr) (bytes : Nat) (isTx : Bool)
  | tcpSetState (localAddr remote : SocketAddr) (state : ConnectionState)
  | cleanup
deriving DecidableEq

/-- A call that was made, and whether it made an entry. -/
structure NatRecord where
  call : NatCall
  now : Nat
  created : Bool
deriving DecidableEq

namespace NatRecord

/-- The call is traffic of the flow. -/
def Uses (r : NatRecord) (protocol : NatProtocol) (key : NatKey) : Prop :=
  match r.call with
  | .tcpOutgoing localAddr remote => protocol = .tcp ∧ key = ⟨localAddr, remote⟩
  | .udpOutgoing localAddr remote => protocol = .udp ∧ key = ⟨localAddr, remote⟩
  | .tcpActivity localAddr remote _ _ => protocol = .tcp ∧ key = ⟨localAddr, remote⟩
  | .tcpSetState .. | .cleanup => False

/-- The call is one of TCP activity, or made the entry. -/
def Refreshes (r : NatRecord) (protocol : NatProtocol) (key : NatKey) : Prop :=
  match r.call with
  | .tcpOutgoing localAddr remote =>
      r.created = true ∧ protocol = .tcp ∧ key = ⟨localAddr, remote⟩
  | .udpOutgoing localAddr remote =>
      r.created = true ∧ protocol = .udp ∧ key = ⟨localAddr, remote⟩
  | .tcpActivity localAddr remote _ _ => protocol = .tcp ∧ key = ⟨localAddr, remote⟩
  | .tcpSetState .. | .cleanup => False

end NatRecord

structure NatRun where
  table : NatTable
  history : List NatRecord

namespace NatRun

structure Event where
  call : NatCall
  now : Nat

def start (tcpTimeout udpTimeout : Nat) : NatRun := ⟨.new tcpTimeout udpTimeout, []⟩

def call (build : Build) (t : NatTable) (c : NatCall) (now : Nat) : Option NatTable :=
  match c with
  | .tcpOutgoing localAddr remote => some (t.tcpOutgoing localAddr remote now).2
  | .udpOutgoing localAddr remote => some (t.udpOutgoing localAddr remote now).2
  | .tcpActivity localAddr remote bytes isTx => t.tcpActivity build localAddr remote bytes isTx now
  | .tcpSetState localAddr remote state => some (t.tcpSetState localAddr remote state)
  | .cleanup => some (t.cleanup now)

def creates (t : NatTable) : NatCall → Bool
  | .tcpOutgoing localAddr remote => (t.tcpEntries ⟨localAddr, remote⟩).isNone
  | .udpOutgoing localAddr remote => (t.udpEntries ⟨localAddr, remote⟩).isNone
  | _ => false

/-- The times of the calls do not decrease. -/
def step (build : Build) (w : NatRun) (e : Event) : Option NatRun :=
  if ∀ r ∈ w.history, r.now ≤ e.now then
    (call build w.table e.call e.now).map fun table =>
      { table, history := w.history ++ [⟨e.call, e.now, creates w.table e.call⟩] }
  else none

/-- The flow was used less than its timeout ago. -/
def UsedWithin (w : NatRun) (protocol : NatProtocol) (key : NatKey) (now : Nat) : Prop :=
  ∃ r ∈ w.history, r.Uses protocol key ∧ now - r.now < w.table.timeout protocol

/-- Its entry was made, or had TCP activity, less than its timeout ago. -/
def RefreshedWithin (w : NatRun) (protocol : NatProtocol) (key : NatKey) (now : Nat) : Prop :=
  ∃ r ∈ w.history, r.Refreshes protocol key ∧ now - r.now < w.table.timeout protocol

/-- A cleanup leaves each entry as it is, except for closed TCP connections
and flows that have not been used for their timeout. -/
def Keeps (w : NatRun) (e : Event) : Prop :=
  e.call = .cleanup → ∀ protocol key entry, w.table.entries protocol key = some entry →
    (w.table.cleanup e.now).entries protocol key = some entry
      ∨ (protocol = .tcp ∧ entry.state = .closed) ∨ ¬ w.UsedWithin protocol key e.now

/-- At a cleanup each flow that is in use has been refreshed within its timeout. -/
def Fresh (w : NatRun) (e : Event) : Prop :=
  e.call = .cleanup → ∀ protocol key entry, w.table.entries protocol key = some entry →
    ¬ (protocol = .tcp ∧ entry.state = .closed) → w.UsedWithin protocol key e.now →
      w.RefreshedWithin protocol key e.now

/-! ## What a call does to `lastSeen` -/

theorem lookUpOrCreate_some {entries : NatKey → Option NatEntry} {state : ConnectionState}
    {localAddr remote : SocketAddr} {now : Nat} {key : NatKey} {entry : NatEntry}
    (h : (NatTable.lookUpOrCreate entries state localAddr remote now).2 key = some entry) :
    ((entries ⟨localAddr, remote⟩).isNone = true ∧ key = ⟨localAddr, remote⟩
        ∧ entry.lastSeen = now)
      ∨ (¬ ((entries ⟨localAddr, remote⟩).isNone = true ∧ key = ⟨localAddr, remote⟩)
        ∧ entries key = some entry) := by
  unfold NatTable.lookUpOrCreate at h
  split at h
  · rename_i found hfound
    refine Or.inr ⟨?_, h⟩
    rintro ⟨hnone, -⟩
    rw [hfound] at hnone
    cases hnone
  · rename_i hnone
    dsimp only at h
    by_cases hkey : key = ⟨localAddr, remote⟩
    · subst hkey
      rw [Function.update_self] at h
      obtain rfl := Option.some.inj h
      exact Or.inl ⟨Option.isNone_iff_eq_none.mpr hnone, rfl, rfl⟩
    · rw [Function.update_of_ne hkey] at h
      exact Or.inr ⟨fun hmade => hkey hmade.2, h⟩

theorem count_lastSeen {build : Build} {entry counted : NatEntry} {bytes : Nat} {isTx : Bool}
    (h : entry.count build bytes isTx = some counted) : counted.lastSeen = entry.lastSeen := by
  unfold NatEntry.count at h
  split at h
  · obtain ⟨_, -, rfl⟩ := Option.map_eq_some_iff.mp h
    rfl
  · obtain ⟨_, -, rfl⟩ := Option.map_eq_some_iff.mp h
    rfl

theorem tcpActivity_some {build : Build} {t t' : NatTable} {localAddr remote : SocketAddr}
    {bytes now : Nat} {isTx : Bool}
    (h : t.tcpActivity build localAddr remote bytes isTx now = some t') :
    t'.udpEntries = t.udpEntries
      ∧ (∀ key, key ≠ ⟨localAddr, remote⟩ → t'.tcpEntries key = t.tcpEntries key)
      ∧ ∀ entry, t'.tcpEntries ⟨localAddr, remote⟩ = some entry → entry.lastSeen = now := by
  unfold NatTable.tcpActivity at h
  dsimp only at h
  split at h
  · rename_i hnone
    obtain rfl := Option.some.inj h
    refine ⟨rfl, fun _ _ => rfl, fun entry hentry => ?_⟩
    rw [hnone] at hentry
    cases hentry
  · rename_i found hfound
    obtain ⟨counted, hcounted, rfl⟩ := Option.map_eq_some_iff.mp h
    refine ⟨rfl, fun key hkey => Function.update_of_ne hkey _ _, fun entry hentry => ?_⟩
    dsimp only at hentry
    rw [Function.update_self] at hentry
    exact Option.some.inj hentry ▸ count_lastSeen hcounted

theorem tcpSetState_some {t : NatTable} {localAddr remote : SocketAddr} {state : ConnectionState}
    {protocol : NatProtocol} {key : NatKey} {entry : NatEntry}
    (h : (t.tcpSetState localAddr remote state).entries protocol key = some entry) :
    ∃ old, t.entries protocol key = some old ∧ old.lastSeen = entry.lastSeen := by
  unfold NatTable.tcpSetState at h
  dsimp only at h
  split at h
  · exact ⟨entry, h, rfl⟩
  · rename_i found hfound
    cases protocol with
    | udp => exact ⟨entry, h, rfl⟩
    | tcp =>
        by_cases hkey : key = ⟨localAddr, remote⟩
        · subst hkey
          have hset : some { found with state } = some entry := by
            simpa only [NatTable.entries, Function.update_self] using h
          obtain rfl := Option.some.inj hset
          exact ⟨found, hfound, rfl⟩
        · have hsame : t.tcpEntries key = some entry := by
            simpa only [NatTable.entries, Function.update_of_ne hkey] using h
          exact ⟨entry, hsame, rfl⟩

theorem cleanup_entries (t : NatTable) (now : Nat) (protocol : NatProtocol) (key : NatKey) :
    (t.cleanup now).entries protocol key
      = (t.entries protocol key).filter fun entry =>
          ¬ (protocol = .tcp ∧ entry.state = .closed)
            ∧ now - entry.lastSeen < t.timeout protocol := by
  cases protocol with
  | tcp => simp [NatTable.cleanup, NatTable.entries, NatTable.timeout]
  | udp => simp [NatTable.cleanup, NatTable.entries, NatTable.timeout]

/-- An entry that is there after a call was refreshed by it, or was there
before and was seen when it is seen now. -/
theorem call_some {build : Build} {t t' : NatTable} {c : NatCall} {now : Nat}
    (h : call build t c now = some t') {protocol : NatProtocol} {key : NatKey} {entry : NatEntry}
    (hentry : t'.entries protocol key = some entry) :
    (NatRecord.Refreshes ⟨c, now, creates t c⟩ protocol key ∧ entry.lastSeen = now)
      ∨ (¬ NatRecord.Refreshes ⟨c, now, creates t c⟩ protocol key
        ∧ ∃ old, t.entries protocol key = some old ∧ old.lastSeen = entry.lastSeen) := by
  cases c with
  | tcpOutgoing localAddr remote =>
      obtain rfl := Option.some.inj h
      cases protocol with
      | udp => exact Or.inr ⟨fun hr => (nomatch hr.2.1), entry, hentry, rfl⟩
      | tcp =>
          rcases lookUpOrCreate_some hentry with ⟨hnone, hkey, hseen⟩ | ⟨hfound, hold⟩
          · exact Or.inl ⟨⟨hnone, rfl, hkey⟩, hseen⟩
          · exact Or.inr ⟨fun hr => hfound ⟨hr.1, hr.2.2⟩, entry, hold, rfl⟩
  | udpOutgoing localAddr remote =>
      obtain rfl := Option.some.inj h
      cases protocol with
      | tcp => exact Or.inr ⟨fun hr => (nomatch hr.2.1), entry, hentry, rfl⟩
      | udp =>
          rcases lookUpOrCreate_some hentry with ⟨hnone, hkey, hseen⟩ | ⟨hfound, hold⟩
          · exact Or.inl ⟨⟨hnone, rfl, hkey⟩, hseen⟩
          · exact Or.inr ⟨fun hr => hfound ⟨hr.1, hr.2.2⟩, entry, hold, rfl⟩
  | tcpActivity localAddr remote bytes isTx =>
      obtain ⟨hudp, hothers, hseen⟩ := tcpActivity_some h
      cases protocol with
      | udp =>
          have hold : t.udpEntries key = some entry := hudp ▸ hentry
          exact Or.inr ⟨fun hr => (nomatch hr.1), entry, hold, rfl⟩
      | tcp =>
          by_cases hkey : key = ⟨localAddr, remote⟩
          · exact Or.inl ⟨⟨rfl, hkey⟩, hseen entry (hkey ▸ hentry)⟩
          · have hold : t.tcpEntries key = some entry := (hothers key hkey).symm.trans hentry
            exact Or.inr ⟨fun hr => hkey hr.2, entry, hold, rfl⟩
  | tcpSetState localAddr remote state =>
      obtain rfl := Option.some.inj h
      exact Or.inr ⟨id, tcpSetState_some hentry⟩
  | cleanup =>
      obtain rfl := Option.some.inj h
      rw [cleanup_entries] at hentry
      exact Or.inr ⟨id, entry, (Option.filter_eq_some_iff.mp hentry).1, rfl⟩

/-! ## What `lastSeen` says in a run -/

/-- Each entry was last seen when it was last refreshed. -/
def Dated (w : NatRun) : Prop :=
  ∀ protocol key entry, w.table.entries protocol key = some entry →
    (∃ r ∈ w.history, r.Refreshes protocol key ∧ r.now = entry.lastSeen)
      ∧ ∀ r ∈ w.history, r.Refreshes protocol key → r.now ≤ entry.lastSeen

theorem dated_start (tcpTimeout udpTimeout : Nat) : Dated (start tcpTimeout udpTimeout) := by
  intro protocol key entry hentry
  cases protocol <;> cases hentry

theorem Dated.step {build : Build} {w w' : NatRun} {e : Event} (hw : Dated w)
    (hstep : NatRun.step build w e = some w') : Dated w' := by
  unfold NatRun.step at hstep
  split at hstep
  case isFalse => cases hstep
  rename_i hordered
  obtain ⟨t, hcall, rfl⟩ := Option.map_eq_some_iff.mp hstep
  intro protocol key entry hentry
  dsimp only at hentry ⊢
  simp only [List.mem_append, List.mem_singleton]
  rcases call_some hcall hentry with ⟨hfresh, hseen⟩ | ⟨hstale, old, hold, hseen⟩
  · refine ⟨⟨_, Or.inr rfl, hfresh, hseen.symm⟩, ?_⟩
    rintro r (hr | rfl) -
    · exact (hordered r hr).trans hseen.ge
    · exact hseen.ge
  · obtain ⟨⟨last, hlast, hrefreshes, hdate⟩, hmax⟩ := hw protocol key old hold
    refine ⟨⟨last, Or.inl hlast, hrefreshes, hdate.trans hseen⟩, ?_⟩
    rintro r (hr | rfl) hr'
    · exact (hmax r hr hr').trans hseen.le
    · exact absurd hr' hstale

theorem Dated.refreshedWithin_iff {w : NatRun} (hw : Dated w) {protocol : NatProtocol}
    {key : NatKey} {entry : NatEntry} (hentry : w.table.entries protocol key = some entry)
    (now : Nat) :
    w.RefreshedWithin protocol key now ↔ now - entry.lastSeen < w.table.timeout protocol := by
  obtain ⟨⟨last, hlast, hrefreshes, hdate⟩, hmax⟩ := hw protocol key entry hentry
  constructor
  · rintro ⟨r, hr, hr', hwithin⟩
    have hle := hmax r hr hr'
    omega
  · intro hwithin
    exact ⟨last, hlast, hrefreshes, hdate ▸ hwithin⟩

/-! ## When cleanup keeps the flows in use -/

theorem Dated.keeps_iff_fresh {w : NatRun} (hw : Dated w) (e : Event) :
    w.Keeps e ↔ w.Fresh e := by
  refine imp_congr_right fun _ => forall₃_congr fun protocol key entry => ?_
  refine imp_congr_right fun hentry => ?_
  rw [hw.refreshedWithin_iff hentry, cleanup_entries, hentry, Option.filter_some,
    Option.ite_some_none_eq_some]
  by_cases hclosed : protocol = .tcp ∧ entry.state = .closed
  · exact iff_of_true (Or.inr (Or.inl hclosed)) fun hopen => absurd hclosed hopen
  · by_cases hused : w.UsedWithin protocol key e.now
    · simp [hclosed, hused]
    · exact iff_of_true (Or.inr (Or.inr hused)) fun _ huse => absurd huse hused

/-- Every cleanup of a run keeps the flows in use exactly if at every cleanup
they have been refreshed in time. -/
theorem cleanup_keeps_iff (build : Build) (tcpTimeout udpTimeout : Nat) (es : List Event) :
    Meets (step build) Keeps (start tcpTimeout udpTimeout) es
      ↔ Meets (step build) Fresh (start tcpTimeout udpTimeout) es :=
  meets_congr (I := Dated)
    (fun _ e _ hw hstep => ⟨hw.keeps_iff_fresh e, hw.step hstep⟩)
    (dated_start tcpTimeout udpTimeout)

/-! ## A flow that is busy when it is as old as its timeout -/

section Busy

variable (build : Build) (tcpTimeout udpTimeout : Nat) (localAddr remote : SocketAddr)

/-- A datagram when the entry is made, another `udpTimeout` later, and a cleanup. -/
def busy : List Event :=
  [⟨.udpOutgoing localAddr remote, 0⟩, ⟨.udpOutgoing localAddr remote, udpTimeout⟩,
    ⟨.cleanup, udpTimeout⟩]

theorem exec_busy :
    ∃ w, exec (step build) (start tcpTimeout udpTimeout)
        [⟨.udpOutgoing localAddr remote, 0⟩, ⟨.udpOutgoing localAddr remote, udpTimeout⟩] = some w
      ∧ (∃ entry, w.table.udpEntries ⟨localAddr, remote⟩ = some entry ∧ entry.lastSeen = 0)
      ∧ w.table.udpTimeout = udpTimeout
      ∧ ⟨.udpOutgoing localAddr remote, udpTimeout, false⟩ ∈ w.history
      ∧ ∀ r ∈ w.history, r.now ≤ udpTimeout := by
  let entry : NatEntry := ⟨localAddr, remote, 0, 0, 0, 0, .udp⟩
  let table : NatTable :=
    { NatTable.new tcpTimeout udpTimeout with
      udpEntries := Function.update (fun _ => none) ⟨localAddr, remote⟩ (some entry) }
  let first : NatRun := ⟨table, [⟨.udpOutgoing localAddr remote, 0, true⟩]⟩
  have hfound : table.udpEntries ⟨localAddr, remote⟩ = some entry :=
    Function.update_self (⟨localAddr, remote⟩ : NatKey) (some entry) fun _ => none
  have hfirst : step build (start tcpTimeout udpTimeout) ⟨.udpOutgoing localAddr remote, 0⟩
      = some first := rfl
  have hagain : table.udpOutgoing localAddr remote udpTimeout = (entry, table) := by
    simp only [NatTable.udpOutgoing, NatTable.lookUpOrCreate, hfound]
  have hsecond : step build first ⟨.udpOutgoing localAddr remote, udpTimeout⟩
      = some ⟨table, [⟨.udpOutgoing localAddr remote, 0, true⟩,
        ⟨.udpOutgoing localAddr remote, udpTimeout, false⟩]⟩ := by
    simp [step, call, creates, first, hagain, hfound]
  refine ⟨_, exec_cons.mpr ⟨first, hfirst, exec_cons.mpr ⟨_, hsecond, rfl⟩⟩, ⟨entry, hfound, rfl⟩,
    rfl, by simp, ?_⟩
  simp

/-- Cleanup removes the entry of a datagram that was sent just now. -/
theorem not_meets_busy (hpos : 0 < udpTimeout) :
    ¬ Meets (step build) Keeps (start tcpTimeout udpTimeout)
      (busy udpTimeout localAddr remote) := by
  intro h
  obtain ⟨w, hexec, ⟨entry, hentry, hseen⟩, htimeout, hmem, hordered⟩ :=
    exec_busy build tcpTimeout udpTimeout localAddr remote
  have hcleanup : step build w ⟨.cleanup, udpTimeout⟩
      = some ⟨w.table.cleanup udpTimeout, w.history ++ [⟨.cleanup, udpTimeout, false⟩]⟩ :=
    if_pos hordered
  have hused : w.UsedWithin .udp ⟨localAddr, remote⟩ udpTimeout := by
    refine ⟨_, hmem, ⟨rfl, rfl⟩, ?_⟩
    rw [NatTable.timeout, htimeout, Nat.sub_self]
    exact hpos
  have hmeets : Meets (step build) Keeps (start tcpTimeout udpTimeout)
      ([⟨.udpOutgoing localAddr remote, 0⟩, ⟨.udpOutgoing localAddr remote, udpTimeout⟩]
        ++ [⟨.cleanup, udpTimeout⟩]) := h
  have hkeeps : w.Keeps ⟨.cleanup, udpTimeout⟩ := hmeets.last hexec hcleanup
  rcases hkeeps rfl .udp ⟨localAddr, remote⟩ entry hentry with hkept | ⟨hudp, -⟩ | hunused
  · rw [cleanup_entries, NatTable.entries, hentry, Option.filter_some,
      Option.ite_some_none_eq_some] at hkept
    have hwithin := hkept.1
    simp [NatTable.timeout, htimeout, hseen] at hwithin
  · cases hudp
  · exact hunused hused

end Busy

/-- A flow of 192.168.1.100 to 1.1.1.1 whose last datagram is as old as the cleanup. -/
theorem not_cleanup_keeps :
    ¬ Meets (step .wrapping) Keeps (start 300000000000 60000000000)
      (busy 60000000000 (.v4 ⟨[192, 168, 1, 100], rfl⟩ 12345) (.v4 ⟨[1, 1, 1, 1], rfl⟩ 443)) :=
  not_meets_busy .wrapping 300000000000 60000000000 _ _ (by norm_num)

end NatRun

end Kanrin
