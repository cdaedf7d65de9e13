import Mathlib.Data.List.Induction
import Mathlib.Logic.Function.Basic
import Kanrin.Packets

/-!
# The system's routes

`RoutingManager` of `kanrin-tun/src/routing.rs` on Linux, and the `ip route`
commands it runs. The table is that of IPv4, which is the one that
`ip route show default` shows: for the default and for every host one route
of each metric at most. A command on an IPv6 address is one on another table,
and a command that cannot be carried out has no effect.

What is saved is the first gateway that the table shows, which an earlier
activation may have changed, and what is restored is a route of metric 0 via
that gateway. `undone_iff` is when the two come to the same.
-/

namespace Kanrin

/-! ## Routes to one destination -/

structure Route where
  via : Option Ipv4Addr
  dev : String
  metric : Nat
deriving DecidableEq

/-- In the order in which they are shown and looked at, no metric twice. -/
structure Routes where
  toList : List Route
  ascending : toList.Pairwise (·.metric < ·.metric)
deriving DecidableEq

instance : Membership Route Routes := ⟨fun rs r => r ∈ rs.toList⟩

namespace Routes

theorem ascending_replace (r : Route) (rs : Routes) :
    (rs.toList.filter (·.metric < r.metric)
      ++ r :: rs.toList.filter (r.metric < ·.metric)).Pairwise (·.metric < ·.metric) := by
  rw [List.pairwise_append, List.pairwise_cons]
  refine ⟨rs.ascending.filter _, ⟨fun b hb => ?_, rs.ascending.filter _⟩, fun a ha b hb => ?_⟩
  · simpa using (List.mem_filter.mp hb).2
  · have hlt : a.metric < r.metric := by simpa using (List.mem_filter.mp ha).2
    rcases List.mem_cons.mp hb with rfl | hb
    · exact hlt
    · exact hlt.trans (by simpa using (List.mem_filter.mp hb).2)

/-- What `replace` does: the route takes the place of the one of its metric,
and where there is none its own. -/
def replace (r : Route) (rs : Routes) : Routes where
  toList := rs.toList.filter (·.metric < r.metric) ++ r :: rs.toList.filter (r.metric < ·.metric)
  ascending := ascending_replace r rs

/-- What `add` does: there it is refused where there is one of its metric. -/
def add (r : Route) (rs : Routes) : Routes :=
  if ∃ r' ∈ rs.toList, r'.metric = r.metric then rs else rs.replace r

/-- What `delete` does that names no metric. -/
def deleteFirst (rs : Routes) : Routes where
  toList := rs.toList.tail
  ascending := rs.ascending.tail

theorem mem_replace (r : Route) (rs : Routes) : r ∈ rs.replace r :=
  List.mem_append_right _ List.mem_cons_self

@[simp] theorem replace_replace {r r' : Route} (h : r.metric = r'.metric) (rs : Routes) :
    (rs.replace r).replace r' = rs.replace r' := by
  have hbelow (a : Route) :
      (decide (a.metric < r.metric) && decide (r.metric < a.metric)) = false := by grind
  have habove (a : Route) :
      (decide (r.metric < a.metric) && decide (a.metric < r.metric)) = false := by grind
  simp [replace, ← h, List.filter_filter, hbelow, habove]

theorem replace_of_mem {r : Route} {rs : Routes} (h : r ∈ rs) : rs.replace r = rs := by
  obtain ⟨before, after, hsplit⟩ := List.append_of_mem h
  have hascending := rs.ascending
  rw [hsplit, List.pairwise_append, List.pairwise_cons] at hascending
  obtain ⟨-, ⟨hafter, -⟩, hbefore⟩ := hascending
  have hless (a : Route) (ha : a ∈ before) : a.metric < r.metric :=
    hbefore a ha r List.mem_cons_self
  have hbelow : rs.toList.filter (·.metric < r.metric) = before := by
    rw [hsplit, List.filter_append, List.filter_eq_self.mpr fun a ha => decide_eq_true (hless a ha),
      List.filter_eq_nil_iff.mpr, List.append_nil]
    intro a ha
    rcases List.mem_cons.mp ha with rfl | ha
    · simp
    · simpa using (hafter a ha).le
  have habove : rs.toList.filter (r.metric < ·.metric) = after := by
    rw [hsplit, List.filter_append, List.filter_eq_nil_iff.mpr fun a ha => by
      simpa using (hless a ha).le, List.filter_cons_of_neg (by simp),
      List.filter_eq_self.mpr fun a ha => decide_eq_true (hafter a ha), List.nil_append]
  have hlist : (rs.replace r).toList = rs.toList := by
    show rs.toList.filter (·.metric < r.metric) ++ r :: rs.toList.filter (r.metric < ·.metric) = _
    rw [hbelow, habove, hsplit]
  rwa [Routes.mk.injEq]

theorem replace_eq_self_iff {r : Route} {rs : Routes} : rs.replace r = rs ↔ r ∈ rs :=
  ⟨fun h => h ▸ mem_replace r rs, replace_of_mem⟩

/-- Metric 0 comes first. -/
theorem toList_replace {r : Route} (h : r.metric = 0) (rs : Routes) :
    (rs.replace r).toList = r :: rs.toList.filter (0 < ·.metric) := by
  simp [replace, h]

theorem add_add {r r' : Route} (h : r.metric = r'.metric) (rs : Routes) :
    (rs.add r).add r' = rs.add r := by
  have hthere : ∃ r'' ∈ (rs.add r).toList, r''.metric = r'.metric := by
    unfold add
    split
    · rename_i hthere
      rwa [← h]
    · exact ⟨r, mem_replace r rs, h⟩
  conv_lhs => rw [add]
  exact if_pos hthere

theorem mem_of_mem_deleteFirst_add {r route : Route} (h : r.metric = 0) {rs : Routes}
    (hroute : route ∈ (rs.add r).deleteFirst) : route ∈ rs := by
  have htail : route ∈ (rs.add r).toList.tail := hroute
  unfold add at htail
  split at htail
  · exact List.mem_of_mem_tail htail
  · rw [toList_replace h, List.tail_cons] at htail
    exact List.mem_of_mem_filter htail

end Routes

/-! ## The table and the commands -/

structure RouteTable where
  defaults : Routes
  hosts : Ipv4Addr → Routes

/-- A word of the output of a command. -/
inductive Word where
  | text (s : String)
  | addr (ip : IpAddr)
  | number (n : Nat)
deriving DecidableEq

def Word.parse : Word → Option IpAddr
  | .text _ => none
  | .addr ip => some ip
  | .number _ => none

/-- A default route as it is shown; metric 0 is not. -/
def Route.words (r : Route) : List Word :=
  .text "default"
    :: (match r.via with
      | some gateway => [.text "via", .addr (.v4 gateway), .text "dev", .text r.dev]
      | none => [.text "dev", .text r.dev, .text "scope", .text "link"])
    ++ if r.metric = 0 then [] else [.text "metric", .number r.metric]

-- `linkOf` is the device of the network that a gateway can be reached in directly
variable (linkOf : Ipv4Addr → Option String)

/-- The route via a gateway, if it can be reached. A command that names no
metric is about metric 0. -/
def routeVia : IpAddr → Option Route
  | .v4 gateway => (linkOf gateway).map fun dev => ⟨some gateway, dev, 0⟩
  | .v6 _ => none

def Routes.replaceVia (gateway : IpAddr) (rs : Routes) : Routes :=
  match routeVia linkOf gateway with
  | some r => rs.replace r
  | none => rs

def Routes.addVia (gateway : IpAddr) (rs : Routes) : Routes :=
  match routeVia linkOf gateway with
  | some r => rs.add r
  | none => rs

namespace RouteTable

/-- The words of `ip route show default`. -/
def showDefault (t : RouteTable) : List Word := t.defaults.toList.flatMap Route.words

/-- `ip route replace default via`. -/
def replaceDefault (gateway : IpAddr) (t : RouteTable) : RouteTable :=
  { t with defaults := t.defaults.replaceVia linkOf gateway }

/-- `ip route add host/32 via`. -/
def addHost (host gateway : IpAddr) (t : RouteTable) : RouteTable :=
  match host with
  | .v4 host =>
      { t with hosts := Function.update t.hosts host ((t.hosts host).addVia linkOf gateway) }
  | .v6 _ => t

/-- `ip route delete host/32`. -/
def deleteHost (host : IpAddr) (t : RouteTable) : RouteTable :=
  match host with
  | .v4 host => { t with hosts := Function.update t.hosts host (t.hosts host).deleteFirst }
  | .v6 _ => t

end RouteTable

/-! ## The manager -/

inductive RouteError where
  | addFailed (error : String)
  | removeFailed (error : String)
  | noDefaultGateway
deriving DecidableEq

structure SavedRoutes where
  defaultGateway : Option IpAddr
  defaultInterface : Option Word
deriving DecidableEq

/-- The command of an activation that cannot be started. -/
inductive Fault where
  | show
  | add (index : Nat) (error : String)
  | replace
deriving DecidableEq

/-- What the command that adds the host at an index fails with. -/
def Fault.addError : Fault → Nat → Option String
  | .add index error, i => if index = i then some error else none
  | .show, _ => none
  | .replace, _ => none

structure RoutingManager where
  tunGateway : IpAddr
  serverIps : List IpAddr
  saved : Option SavedRoutes

namespace RoutingManager

def new (tunGateway : IpAddr) (serverIps : List IpAddr) : RoutingManager where
  tunGateway
  serverIps
  saved := none

/-- The word after `via` and the word after `dev`. -/
def currentDefaultRoute (words : List Word) : SavedRoutes where
  defaultGateway := (words.dropWhile (· ≠ .text "via"))[1]?.bind Word.parse
  defaultInterface := (words.dropWhile (· ≠ .text "dev"))[1]?

variable (linkOf : Ipv4Addr → Option String)

/-- The hosts from index `i` on. -/
def addHostRoutes (fault : Option Fault) (gateway : IpAddr) :
    List IpAddr → (i : Nat) → RouteTable → Except RouteError Unit × RouteTable
  | [], _, t => (.ok (), t)
  | host :: hosts, i, t =>
      match fault.bind (·.addError i) with
      | some error => (.error (.addFailed error), t)
      | none => addHostRoutes fault gateway hosts (i + 1) (t.addHost linkOf host gateway)

/-- That the command cannot be started is ignored. -/
def setDefaultRoute (fault : Option Fault) (gateway : IpAddr) (t : RouteTable) : RouteTable :=
  if fault = some .replace then t else t.replaceDefault linkOf gateway

def activate (m : RoutingManager) (fault : Option Fault) (t : RouteTable) :
    Except RouteError Unit × RoutingManager × RouteTable :=
  if fault = some .show then (.error .noDefaultGateway, m, t)
  else
    let saved := currentDefaultRoute t.showDefault
    let m := { m with saved := some saved }
    match saved.defaultGateway with
    | some gateway =>
        match addHostRoutes linkOf fault gateway m.serverIps 0 t with
        | (.error e, t) => (.error e, m, t)
        | (.ok (), t) => (.ok (), m, setDefaultRoute linkOf fault m.tunGateway t)
    | none => (.ok (), m, setDefaultRoute linkOf fault m.tunGateway t)

def deactivate (m : RoutingManager) (t : RouteTable) : RoutingManager × RouteTable :=
  match m.saved with
  | none => (m, t)
  | some saved =>
      let t :=
        match saved.defaultGateway with
        | some gateway => setDefaultRoute linkOf none gateway t
        | none => t
      ({ m with saved := none }, m.serverIps.foldl (fun t host => t.deleteHost host) t)

def drop (m : RoutingManager) (t : RouteTable) : RouteTable :=
  if m.saved.isSome then (m.deactivate linkOf t).2 else t

/-- An activation after another, each with what goes wrong in it. -/
def activateAll (m : RoutingManager) (t : RouteTable) :
    List (Option Fault) → RoutingManager × RouteTable
  | [] => (m, t)
  | fault :: faults =>
      let (_, m, t) := m.activate linkOf fault t
      m.activateAll t faults

inductive Leaving where
  | deactivate
  | drop
deriving DecidableEq

def leave (m : RoutingManager) (t : RouteTable) : Leaving → RouteTable
  | .deactivate => (m.deactivate linkOf t).2
  | .drop => m.drop linkOf t

end RoutingManager

/-! ## What is to be undone -/

/-- The gateway of the first route that has one. A device called `via` hides
those behind it. -/
def firstGateway : List Route → Option Ipv4Addr
  | [] => none
  | ⟨some gateway, _, _⟩ :: _ => some gateway
  | ⟨none, dev, _⟩ :: routes => if dev = "via" then none else firstGateway routes

/-- The default routes are what they were, and each route to a host was there. -/
def Undone (before after : RouteTable) : Prop :=
  after.defaults = before.defaults
    ∧ ∀ host route, route ∈ after.hosts host → route ∈ before.hosts host

namespace RoutingManager

section Condition

variable (linkOf : Ipv4Addr → Option String) (tunGateway : IpAddr) (serverIps : List IpAddr)
  (before : Routes)

/-- An activation that finds the default routes as they were puts the tunnel's
among them. -/
def Redirects (fault : Option Fault) : Prop :=
  routeVia linkOf tunGateway ≠ none
    ∧ match fault with
      | none => True
      | some .show => False
      | some (.add index _) => firstGateway before.toList = none ∨ serverIps.length ≤ index
      | some .replace => False

/-- There is a default route of metric 0 that its gateway alone gives. -/
def Regained : Prop :=
  ∃ gateway dev, linkOf gateway = some dev ∧ ⟨some gateway, dev, 0⟩ ∈ before

/-- No gateway is shown, or one that cannot be reached. -/
def Ungained : Prop := ∀ gateway, firstGateway before.toList = some gateway → linkOf gateway = none

/-- The activations that save a route. -/
def saving (faults : List (Option Fault)) : List (Option Fault) :=
  faults.filter (· ≠ some .show)

/-- No route is saved, or the tunnel's is a default route anyway, or the
gateway that is saved last is that of the route of metric 0 that was there
and gives it again, or no route is lost and none is added. -/
def Restorable (faults : List (Option Fault)) : Prop :=
  saving faults = []
    ∨ (∃ r ∈ before, routeVia linkOf tunGateway = some r)
    ∨ (Regained linkOf before
      ∧ ∀ fault ∈ (saving faults).dropLast, ¬ Redirects linkOf tunGateway serverIps before fault)
    ∨ (Ungained linkOf before
      ∧ ∀ fault ∈ saving faults, ¬ Redirects linkOf tunGateway serverIps before fault)

end Condition

variable {linkOf : Ipv4Addr → Option String}

/-! ## What is saved -/

/-- Without a gateway there is no `via` but as the name of the device, and
the word after that is `scope`. -/
theorem dropWhile_words {dev : String} (hdev : dev ≠ "via") (metric : Nat) (words : List Word) :
    ((Route.mk none dev metric).words ++ words).dropWhile (· ≠ .text "via")
      = words.dropWhile (· ≠ .text "via") := by
  by_cases hmetric : metric = 0 <;> simp [Route.words, hdev, hmetric]

theorem defaultGateway_currentDefaultRoute (t : RouteTable) :
    (currentDefaultRoute t.showDefault).defaultGateway
      = (firstGateway t.defaults.toList).map IpAddr.v4 := by
  have hlist (routes : List Route) :
      ((routes.flatMap Route.words).dropWhile (· ≠ .text "via"))[1]?.bind Word.parse
        = (firstGateway routes).map IpAddr.v4 := by
    induction routes with
    | nil => rfl
    | cons route routes ih =>
        rw [List.flatMap_cons]
        match route with
        | ⟨some gateway, dev, metric⟩ => rfl
        | ⟨none, dev, metric⟩ =>
            by_cases hdev : dev = "via"
            · subst hdev
              rfl
            · rw [dropWhile_words hdev, ih, firstGateway, if_neg hdev]
  exact hlist _

theorem metric_of_routeVia {gateway : IpAddr} {r : Route} (h : routeVia linkOf gateway = some r) :
    r.metric = 0 := by
  cases gateway with
  | v6 ip => cases h
  | v4 ip =>
      obtain ⟨dev, -, rfl⟩ := Option.map_eq_some_iff.mp h
      rfl

/-! ## What an activation changes -/

/-- Nothing is added to the routes of a host but a route of metric 0 to a server. -/
def HostsAdded (serverIps : List IpAddr) (t t' : RouteTable) : Prop :=
  ∀ host, t'.hosts host = t.hosts host
    ∨ (.v4 host ∈ serverIps ∧ ∃ r : Route, r.metric = 0 ∧ t'.hosts host = (t.hosts host).add r)

theorem HostsAdded.refl (serverIps : List IpAddr) (t : RouteTable) : HostsAdded serverIps t t :=
  fun _ => Or.inl rfl

theorem HostsAdded.trans {serverIps : List IpAddr} {t t' t'' : RouteTable}
    (h : HostsAdded serverIps t t') (h' : HostsAdded serverIps t' t'') :
    HostsAdded serverIps t t'' := by
  intro host
  rcases h host with hsame | ⟨hserver, r, hr, hadd⟩
  · rw [← hsame]
    exact h' host
  · refine Or.inr ⟨hserver, r, hr, ?_⟩
    rcases h' host with hsame' | ⟨-, r', hr', hadd'⟩
    · rw [hsame', hadd]
    · rw [hadd', hadd, Routes.add_add (hr.trans hr'.symm)]

variable (linkOf) in
theorem hostsAdded_addHost {serverIps : List IpAddr} {added : IpAddr} (hadded : added ∈ serverIps)
    (gateway : IpAddr) (t : RouteTable) :
    HostsAdded serverIps t (t.addHost linkOf added gateway) := by
  intro host
  cases added with
  | v6 ip => exact Or.inl rfl
  | v4 ip =>
      by_cases hhost : host = ip
      · subst hhost
        have hat : (t.addHost linkOf (.v4 host) gateway).hosts host
            = (t.hosts host).addVia linkOf gateway := Function.update_self ..
        rw [hat, Routes.addVia]
        cases hroute : routeVia linkOf gateway with
        | none => exact Or.inl rfl
        | some r => exact Or.inr ⟨hadded, r, metric_of_routeVia hroute, rfl⟩
      · exact Or.inl (Function.update_of_ne hhost _ _)

theorem defaults_addHost (t : RouteTable) (added gateway : IpAddr) :
    (t.addHost linkOf added gateway).defaults = t.defaults := by
  cases added <;> rfl

variable (linkOf) in
/-- Routes are added to some of the hosts, and to all unless a command cannot be started. -/
theorem addHostRoutes_spec {serverIps : List IpAddr} (fault : Option Fault) (gateway : IpAddr)
    (hosts : List IpAddr) (hservers : ∀ host ∈ hosts, host ∈ serverIps) (i : Nat)
    (t : RouteTable) :
    (addHostRoutes linkOf fault gateway hosts i t).2.defaults = t.defaults
      ∧ HostsAdded serverIps t (addHostRoutes linkOf fault gateway hosts i t).2
      ∧ ((addHostRoutes linkOf fault gateway hosts i t).1 = .ok ()
        ↔ ∀ j < hosts.length, fault.bind (·.addError (i + j)) = none) := by
  induction hosts generalizing i t with
  | nil =>
      exact ⟨rfl, .refl serverIps t, iff_of_true rfl fun _ hj => absurd hj (Nat.not_lt_zero _)⟩
  | cons added hosts ih =>
      unfold addHostRoutes
      cases hfault : fault.bind (·.addError i) with
      | some error =>
          refine ⟨rfl, .refl serverIps t, iff_of_false (fun h => nomatch h) fun h => ?_⟩
          rw [← Nat.add_zero i, h 0 (Nat.succ_pos _)] at hfault
          cases hfault
      | none =>
          obtain ⟨hdefaults, hhosts, hok⟩ :=
            ih (fun host hhost => hservers host (List.mem_cons_of_mem _ hhost)) (i + 1)
              (t.addHost linkOf added gateway)
          have hadded :=
            hostsAdded_addHost linkOf (hservers added List.mem_cons_self) gateway t
          refine ⟨hdefaults.trans (defaults_addHost ..), hadded.trans hhosts, hok.trans ?_⟩
          constructor
          · intro h j hj
            cases j with
            | zero => exact hfault
            | succ j =>
                rw [Nat.add_comm j 1, ← Nat.add_assoc]
                exact h j (Nat.lt_of_succ_lt_succ hj)
          · intro h j hj
            rw [Nat.add_assoc, Nat.add_comm 1 j]
            exact h (j + 1) (Nat.succ_lt_succ hj)

/-- A fault that is none of the commands that add hosts lets them all run. -/
theorem addError_eq_none_iff (fault : Option Fault) (n : Nat) :
    (∀ j < n, fault.bind (·.addError (0 + j)) = none)
      ↔ ∀ index error, fault = some (.add index error) → n ≤ index := by
  constructor
  · rintro h index error rfl
    by_contra hlt
    have hnone := h index (not_le.mp hlt)
    simp [Fault.addError] at hnone
  · intro h j hj
    match fault with
    | none => rfl
    | some .show => rfl
    | some .replace => rfl
    | some (.add index error) =>
        have hle := h index error rfl
        have hne : index ≠ j := by omega
        simp [Fault.addError, hne]

theorem redirects_iff {tunGateway : IpAddr} {serverIps : List IpAddr} {before : Routes}
    {fault : Option Fault} (hshow : fault ≠ some .show) :
    Redirects linkOf tunGateway serverIps before fault
      ↔ routeVia linkOf tunGateway ≠ none ∧ fault ≠ some .replace
        ∧ (firstGateway before.toList = none
          ∨ ∀ index error, fault = some (.add index error) → serverIps.length ≤ index) := by
  refine and_congr_right fun _ => ?_
  match fault with
  | none => simp
  | some .show => exact absurd rfl hshow
  | some .replace => simp
  | some (.add index error) => simp

theorem defaults_setDefaultRoute (fault : Option Fault) (gateway : IpAddr) (t : RouteTable) :
    (setDefaultRoute linkOf fault gateway t).defaults
      = if fault = some .replace then t.defaults else t.defaults.replaceVia linkOf gateway := by
  unfold setDefaultRoute
  split <;> rfl

theorem hosts_setDefaultRoute (fault : Option Fault) (gateway : IpAddr) (t : RouteTable) :
    (setDefaultRoute linkOf fault gateway t).hosts = t.hosts := by
  unfold setDefaultRoute
  split <;> rfl

/-- A gateway that cannot be reached changes nothing. -/
theorem replaceVia_of_none {gateway : IpAddr} (h : routeVia linkOf gateway = none) (rs : Routes) :
    rs.replaceVia linkOf gateway = rs := by
  rw [Routes.replaceVia, h]

theorem replaceVia_of_some {gateway : IpAddr} {r : Route} (h : routeVia linkOf gateway = some r)
    (rs : Routes) : rs.replaceVia linkOf gateway = rs.replace r := by
  rw [Routes.replaceVia, h]

theorem activate_of_show (m : RoutingManager) (t : RouteTable) :
    m.activate linkOf (some .show) t = (.error .noDefaultGateway, m, t) := rfl

theorem defaults_setDefaultRoute_of_not {tunGateway : IpAddr} {fault : Option Fault}
    (h : ¬ (routeVia linkOf tunGateway ≠ none ∧ fault ≠ some .replace)) (t : RouteTable) :
    (setDefaultRoute linkOf fault tunGateway t).defaults = t.defaults := by
  rw [defaults_setDefaultRoute]
  split
  · rfl
  · rename_i hreplace
    refine replaceVia_of_none ?_ _
    by_contra hroute
    exact h ⟨hroute, hreplace⟩

/-- What an activation saves is the gateway it finds, and what it changes are
the default routes if it gets there, and routes to servers. -/
theorem activate_spec (m : RoutingManager) {fault : Option Fault} (hshow : fault ≠ some .show)
    (t : RouteTable) : ∃ outcome t',
    m.activate linkOf fault t
        = (outcome, { m with saved := some (currentDefaultRoute t.showDefault) }, t')
      ∧ (Redirects linkOf m.tunGateway m.serverIps t.defaults fault →
        t'.defaults = t.defaults.replaceVia linkOf m.tunGateway)
      ∧ (¬ Redirects linkOf m.tunGateway m.serverIps t.defaults fault →
        t'.defaults = t.defaults)
      ∧ HostsAdded m.serverIps t t' := by
  have hgateway := defaultGateway_currentDefaultRoute t
  unfold activate
  rw [if_neg hshow, redirects_iff hshow]
  dsimp only
  cases hvia : firstGateway t.defaults.toList with
  | none =>
      rw [hvia] at hgateway
      rw [hgateway]
      refine ⟨_, _, rfl, fun hredirects => ?_, fun hredirects => ?_, fun host => Or.inl ?_⟩
      · rw [defaults_setDefaultRoute, if_neg hredirects.2.1]
      · exact defaults_setDefaultRoute_of_not
          (fun hreaches => hredirects ⟨hreaches.1, hreaches.2, Or.inl rfl⟩) t
      · rw [hosts_setDefaultRoute]
  | some gateway =>
      rw [hvia] at hgateway
      rw [hgateway]
      dsimp only [Option.map_some]
      obtain ⟨hdefaults, hhosts, hok⟩ :=
        addHostRoutes_spec linkOf fault (.v4 gateway) m.serverIps (fun _ h => h) 0 t
      rw [addError_eq_none_iff] at hok
      match hadded : addHostRoutes linkOf fault (.v4 gateway) m.serverIps 0 t with
      | (.error e, t') =>
          rw [hadded] at hdefaults hhosts hok
          refine ⟨_, _, rfl, fun hredirects => ?_, fun _ => hdefaults, hhosts⟩
          rcases hredirects.2.2 with hnone | hall
          · cases hnone
          · cases hok.mpr hall
      | (.ok (), t') =>
          rw [hadded] at hdefaults hhosts hok
          refine ⟨_, _, rfl, fun hredirects => ?_, fun hredirects => ?_, fun host => ?_⟩
          · rw [defaults_setDefaultRoute, if_neg hredirects.2.1, hdefaults]
          · rw [defaults_setDefaultRoute_of_not, hdefaults]
            exact fun hreaches => hredirects ⟨hreaches.1, hreaches.2, Or.inr (hok.mp rfl)⟩
          · rw [hosts_setDefaultRoute]
            exact hhosts host

/-! ## What a sequence of activations comes to -/

theorem activateAll_concat (m : RoutingManager) (t : RouteTable) (faults : List (Option Fault))
    (fault : Option Fault) :
    m.activateAll linkOf t (faults ++ [fault])
      = ((m.activateAll linkOf t faults).1.activate linkOf fault
          (m.activateAll linkOf t faults).2).2 := by
  induction faults generalizing m t with
  | nil => rfl
  | cons first faults ih => exact ih ..

section Activated

variable (linkOf) (tunGateway : IpAddr) (serverIps : List IpAddr) (t : RouteTable)

/-- The tunnel's route is the default route of metric 0 once an activation
has got there. -/
structure Activated (faults : List (Option Fault)) (m : RoutingManager) (t' : RouteTable) :
    Prop where
  sameGateway : m.tunGateway = tunGateway
  sameServers : m.serverIps = serverIps
  untouched : saving faults = [] → m.saved = none ∧ t' = t
  saves : saving faults ≠ [] → m.saved ≠ none
  redirected : (∃ fault ∈ faults, Redirects linkOf tunGateway serverIps t.defaults fault) →
    t'.defaults = t.defaults.replaceVia linkOf tunGateway
  kept : (¬ ∃ fault ∈ faults, Redirects linkOf tunGateway serverIps t.defaults fault) →
    t'.defaults = t.defaults
  hosts : HostsAdded serverIps t t'

variable {linkOf tunGateway serverIps t} {faults : List (Option Fault)} {m : RoutingManager}
  {t' : RouteTable}

theorem not_redirects_show {before : Routes} :
    ¬ Redirects linkOf tunGateway serverIps before (some .show) := fun h => h.2

theorem exists_redirects_concat {before : Routes} {fault : Option Fault} :
    (∃ f ∈ faults ++ [fault], Redirects linkOf tunGateway serverIps before f)
      ↔ (∃ f ∈ faults, Redirects linkOf tunGateway serverIps before f)
        ∨ Redirects linkOf tunGateway serverIps before fault := by
  simp only [List.mem_append, List.mem_singleton, or_and_right, exists_or, exists_eq_left]

theorem saving_concat_show (faults : List (Option Fault)) :
    saving (faults ++ [some .show]) = saving faults := by
  simp [saving]

theorem saving_concat {fault : Option Fault} (hshow : fault ≠ some .show)
    (faults : List (Option Fault)) : saving (faults ++ [fault]) = saving faults ++ [fault] := by
  simp [saving, hshow]

/-- The tunnel's route takes the place of itself. -/
theorem replaceVia_replaceVia (gateway : IpAddr) (rs : Routes) :
    (rs.replaceVia linkOf gateway).replaceVia linkOf gateway = rs.replaceVia linkOf gateway := by
  cases hroute : routeVia linkOf gateway with
  | none => simp only [replaceVia_of_none hroute]
  | some r => simp only [replaceVia_of_some hroute, Routes.replace_replace rfl]

theorem activated_nil :
    Activated linkOf tunGateway serverIps t [] (.new tunGateway serverIps) t where
  sameGateway := rfl
  sameServers := rfl
  untouched _ := ⟨rfl, rfl⟩
  saves hsome := absurd rfl hsome
  redirected := by simp
  kept _ := rfl
  hosts := .refl serverIps t

theorem Activated.concat_show (h : Activated linkOf tunGateway serverIps t faults m t') :
    Activated linkOf tunGateway serverIps t (faults ++ [some .show]) m t' where
  sameGateway := h.sameGateway
  sameServers := h.sameServers
  untouched hnone := h.untouched (saving_concat_show faults ▸ hnone)
  saves hsome := h.saves (saving_concat_show faults ▸ hsome)
  redirected hsome :=
    h.redirected ((exists_redirects_concat.mp hsome).resolve_right not_redirects_show)
  kept hnone := h.kept fun hsome => hnone (exists_redirects_concat.mpr (Or.inl hsome))
  hosts := h.hosts

theorem Activated.concat (h : Activated linkOf tunGateway serverIps t faults m t')
    {fault : Option Fault} (hshow : fault ≠ some .show) : ∃ outcome t'',
    m.activate linkOf fault t'
        = (outcome, { m with saved := some (currentDefaultRoute t'.showDefault) }, t'')
      ∧ Activated linkOf tunGateway serverIps t (faults ++ [fault])
        { m with saved := some (currentDefaultRoute t'.showDefault) } t'' := by
  obtain ⟨outcome, t'', hactivate, hmoved, hkept, hhosts⟩ := activate_spec m hshow t'
  rw [h.sameGateway, h.sameServers] at hmoved hkept
  rw [h.sameServers] at hhosts
  refine ⟨outcome, t'', hactivate, h.sameGateway, h.sameServers, fun hnone => ?_,
    fun _ => Option.some_ne_none _, fun hsome => ?_, fun hnone => ?_, h.hosts.trans hhosts⟩
  · rw [saving_concat hshow] at hnone
    exact absurd hnone (List.append_ne_nil_of_right_ne_nil _ (List.cons_ne_nil _ _))
  · by_cases hearlier : ∃ f ∈ faults, Redirects linkOf tunGateway serverIps t.defaults f
    · -- it is the tunnel's, and stays so
      have htunnel := h.redirected hearlier
      by_cases hnow : Redirects linkOf tunGateway serverIps t'.defaults fault
      · rw [hmoved hnow, htunnel, replaceVia_replaceVia]
      · exact (hkept hnow).trans htunnel
    · have hnow := (exists_redirects_concat.mp hsome).resolve_left hearlier
      rw [← h.kept hearlier] at hnow ⊢
      exact hmoved hnow
  · have hearlier := fun hsome => hnone (exists_redirects_concat.mpr (Or.inl hsome))
    have hnow := fun hnow => hnone (exists_redirects_concat.mpr (Or.inr hnow))
    have hbefore := h.kept hearlier
    rw [← hbefore] at hnow
    exact (hkept hnow).trans hbefore

theorem activated_activateAll (linkOf : Ipv4Addr → Option String) (tunGateway : IpAddr)
    (serverIps : List IpAddr) (t : RouteTable) (faults : List (Option Fault)) :
    Activated linkOf tunGateway serverIps t faults
      ((new tunGateway serverIps).activateAll linkOf t faults).1
      ((new tunGateway serverIps).activateAll linkOf t faults).2 := by
  induction faults using List.reverseRecOn with
  | nil => exact activated_nil
  | append_singleton faults fault ih =>
      rw [activateAll_concat]
      by_cases hshow : fault = some .show
      · subst hshow
        rw [activate_of_show]
        exact ih.concat_show
      · obtain ⟨outcome, t'', hactivate, h⟩ := ih.concat hshow
        rw [hactivate]
        exact h

end Activated

/-! ## What leaving comes to -/

/-- The default routes where the first gateway of others was saved. -/
def givenBack (linkOf : Ipv4Addr → Option String) (seen rs : Routes) : Routes :=
  match firstGateway seen.toList with
  | some gateway => rs.replaceVia linkOf (.v4 gateway)
  | none => rs

theorem defaults_foldl_deleteHost (hosts : List IpAddr) (t : RouteTable) :
    (hosts.foldl (fun t host => t.deleteHost host) t).defaults = t.defaults := by
  induction hosts generalizing t with
  | nil => rfl
  | cons host hosts ih =>
      rw [List.foldl_cons, ih]
      cases host <;> rfl

/-- Of the routes to a server the first is deleted at least. -/
theorem hosts_foldl_deleteHost {hosts : List IpAddr} {t : RouteTable} {host : Ipv4Addr}
    {route : Route} (h : route ∈ (hosts.foldl (fun t host => t.deleteHost host) t).hosts host) :
    route ∈ t.hosts host ∧ (.v4 host ∈ hosts → route ∈ (t.hosts host).deleteFirst) := by
  induction hosts generalizing t with
  | nil => exact ⟨h, fun hmem => absurd hmem List.not_mem_nil⟩
  | cons deleted hosts ih =>
      obtain ⟨hrest, hfirst⟩ := ih h
      cases deleted with
      | v6 ip => exact ⟨hrest, fun hmem => hfirst (by simpa using hmem)⟩
      | v4 ip =>
          by_cases hhost : host = ip
          · subst hhost
            have hat : (t.deleteHost (.v4 host)).hosts host = (t.hosts host).deleteFirst :=
              Function.update_self ..
            rw [hat] at hrest
            exact ⟨List.mem_of_mem_tail hrest, fun _ => hrest⟩
          · have hat : (t.deleteHost (.v4 ip)).hosts host = t.hosts host :=
              Function.update_of_ne hhost _ _
            rw [hat] at hrest hfirst
            refine ⟨hrest, fun hmem => hfirst ?_⟩
            rcases List.mem_cons.mp hmem with heq | hmem
            · exact absurd (IpAddr.v4.inj heq) hhost
            · exact hmem

theorem leave_of_none {m : RoutingManager} (h : m.saved = none) (t : RouteTable)
    (leaving : Leaving) : m.leave linkOf t leaving = t := by
  cases leaving with
  | deactivate => simp [leave, deactivate, h]
  | drop => simp [leave, drop, h]

theorem leave_of_some {m : RoutingManager} (h : m.saved ≠ none) (t : RouteTable)
    (leaving : Leaving) : m.leave linkOf t leaving = (m.deactivate linkOf t).2 := by
  cases leaving with
  | deactivate => rfl
  | drop => exact if_pos (Option.isSome_iff_ne_none.mpr h)

theorem defaults_leave {m : RoutingManager} {seen : RouteTable}
    (h : m.saved = some (currentDefaultRoute seen.showDefault)) (t : RouteTable)
    (leaving : Leaving) :
    (m.leave linkOf t leaving).defaults = givenBack linkOf seen.defaults t.defaults := by
  rw [leave_of_some (by rw [h]; exact Option.some_ne_none _), deactivate, h]
  dsimp only
  rw [defaults_foldl_deleteHost, defaultGateway_currentDefaultRoute, givenBack]
  cases firstGateway seen.defaults.toList with
  | none => rfl
  | some gateway => rfl

theorem hosts_leave {m : RoutingManager} (h : m.saved ≠ none) {t : RouteTable}
    {leaving : Leaving} {host : Ipv4Addr} {route : Route}
    (hroute : route ∈ (m.leave linkOf t leaving).hosts host) :
    route ∈ t.hosts host ∧ (.v4 host ∈ m.serverIps → route ∈ (t.hosts host).deleteFirst) := by
  obtain ⟨saved, hsaved⟩ := Option.ne_none_iff_exists'.mp h
  rw [leave_of_some h, deactivate, hsaved] at hroute
  have hdeleted := hosts_foldl_deleteHost hroute
  split at hdeleted
  · rw [hosts_setDefaultRoute] at hdeleted
    exact hdeleted
  · exact hdeleted

/-! ## When leaving undoes what was activated -/

section Undoing

variable {tunGateway : IpAddr} {serverIps : List IpAddr} {t : RouteTable} {before : Routes}

/-- A route of metric 0 with a gateway is the first that is shown. -/
theorem firstGateway_of_mem {gateway : Ipv4Addr} {dev : String}
    (h : ⟨some gateway, dev, 0⟩ ∈ before) : firstGateway before.toList = some gateway := by
  rw [← Routes.replace_of_mem h, Routes.toList_replace rfl]
  rfl

theorem Regained.givenBack_eq (h : Regained linkOf before) (tunGateway : IpAddr) {rs : Routes}
    (hrs : rs = before ∨ rs = before.replaceVia linkOf tunGateway) :
    givenBack linkOf before rs = before := by
  obtain ⟨gateway, dev, hlink, hmem⟩ := h
  have hroute : routeVia linkOf (.v4 gateway) = some ⟨some gateway, dev, 0⟩ := by
    rw [routeVia, hlink]
    rfl
  rw [givenBack, firstGateway_of_mem hmem]
  show rs.replaceVia linkOf (.v4 gateway) = before
  rw [replaceVia_of_some hroute]
  rcases hrs with rfl | rfl
  · exact Routes.replace_of_mem hmem
  · cases htun : routeVia linkOf tunGateway with
    | none => rw [replaceVia_of_none htun, Routes.replace_of_mem hmem]
    | some r =>
        rw [replaceVia_of_some htun, Routes.replace_replace (metric_of_routeVia htun),
          Routes.replace_of_mem hmem]

theorem Ungained.givenBack_eq (h : Ungained linkOf before) (rs : Routes) :
    givenBack linkOf before rs = rs := by
  unfold givenBack
  cases hfirst : firstGateway before.toList with
  | none => rfl
  | some gateway =>
      refine replaceVia_of_none ?_ rs
      rw [routeVia, h gateway hfirst]
      rfl

/-- Else the gateway gives another route. -/
theorem givenBack_ne (hnot : ¬ Regained linkOf before) (hnot' : ¬ Ungained linkOf before)
    (rs : Routes) : givenBack linkOf before rs ≠ before := by
  simp only [Ungained, not_forall] at hnot'
  obtain ⟨gateway, hfirst, hlink⟩ := hnot'
  obtain ⟨dev, hdev⟩ := Option.ne_none_iff_exists'.mp hlink
  have hroute : routeVia linkOf (.v4 gateway) = some ⟨some gateway, dev, 0⟩ := by
    rw [routeVia, hdev]
    rfl
  intro heq
  rw [givenBack, hfirst] at heq
  have hgiven : rs.replaceVia linkOf (.v4 gateway) = before := heq
  rw [replaceVia_of_some hroute] at hgiven
  exact hnot ⟨gateway, dev, hdev, hgiven ▸ Routes.mem_replace _ rs⟩

theorem regained_of_routeVia {gateway : IpAddr} {r : Route} (h : routeVia linkOf gateway = some r)
    (hmem : r ∈ before) : Regained linkOf before := by
  cases gateway with
  | v6 ip => cases h
  | v4 ip =>
      obtain ⟨dev, hdev, rfl⟩ := Option.map_eq_some_iff.mp h
      exact ⟨ip, dev, hdev, hmem⟩

/-- The tunnel's route is put in to no effect where it is there. -/
theorem replaceVia_eq_self_iff {gateway : IpAddr} (hreach : routeVia linkOf gateway ≠ none) :
    before.replaceVia linkOf gateway = before ↔ ∃ r ∈ before, routeVia linkOf gateway = some r := by
  obtain ⟨r, hr⟩ := Option.ne_none_iff_exists'.mp hreach
  rw [replaceVia_of_some hr, Routes.replace_eq_self_iff, hr]
  constructor
  · exact fun hmem => ⟨r, hmem, rfl⟩
  · rintro ⟨r', hmem, heq⟩
    exact Option.some.inj heq ▸ hmem

/-- A failed `ip route show` redirects nothing, so only the activations that
save a route count. -/
theorem forall_saving_iff {faults : List (Option Fault)} :
    (∀ f ∈ saving faults, ¬ Redirects linkOf tunGateway serverIps before f)
      ↔ ¬ ∃ f ∈ faults, Redirects linkOf tunGateway serverIps before f := by
  constructor
  · rintro hnone ⟨f, hf, hredirects⟩
    refine hnone f (List.mem_filter.mpr ⟨hf, ?_⟩) hredirects
    rw [decide_eq_true_eq]
    rintro rfl
    exact not_redirects_show hredirects
  · exact fun hnone f hf hredirects => hnone ⟨f, List.mem_of_mem_filter hf, hredirects⟩

theorem restorable_concat {faults : List (Option Fault)} {fault : Option Fault}
    (hshow : fault ≠ some .show) :
    Restorable linkOf tunGateway serverIps before (faults ++ [fault])
      ↔ (∃ r ∈ before, routeVia linkOf tunGateway = some r)
        ∨ (Regained linkOf before
          ∧ ¬ ∃ f ∈ faults, Redirects linkOf tunGateway serverIps before f)
        ∨ (Ungained linkOf before
          ∧ ¬ ∃ f ∈ faults ++ [fault], Redirects linkOf tunGateway serverIps before f) := by
  have hsaves : saving faults ++ [fault] ≠ [] := by simp
  rw [Restorable, forall_saving_iff, saving_concat hshow, List.dropLast_concat, forall_saving_iff,
    or_iff_right hsaves]

/-- The tunnel's route is found, and its gateway is saved and given back. -/
theorem Activated.givenBack_of_redirected {faults : List (Option Fault)} {m : RoutingManager}
    {seen : RouteTable} (h : Activated linkOf tunGateway serverIps t faults m seen)
    (hearlier : ∃ f ∈ faults, Redirects linkOf tunGateway serverIps t.defaults f) :
    givenBack linkOf seen.defaults seen.defaults = t.defaults.replaceVia linkOf tunGateway := by
  have htunnel := h.redirected hearlier
  obtain ⟨first, -, hreach, -⟩ := hearlier
  obtain ⟨r, hr⟩ := Option.ne_none_iff_exists'.mp hreach
  have hmem : r ∈ seen.defaults := by
    rw [htunnel, replaceVia_of_some hr]
    exact Routes.mem_replace r _
  rw [(regained_of_routeVia hr hmem).givenBack_eq tunGateway (Or.inl rfl), htunnel]

/-- Given back are the routes that were there if they are regained, or if
nothing is given back and nothing has changed. -/
theorem givenBack_eq_iff (tunGateway : IpAddr) {rs : Routes}
    (hrs : rs = before ∨ rs = before.replaceVia linkOf tunGateway) :
    givenBack linkOf before rs = before
      ↔ Regained linkOf before ∨ (Ungained linkOf before ∧ rs = before) := by
  by_cases hregained : Regained linkOf before
  · exact iff_of_true (hregained.givenBack_eq tunGateway hrs) (Or.inl hregained)
  · by_cases hungained : Ungained linkOf before
    · rw [hungained.givenBack_eq, or_iff_right hregained, and_iff_right hungained]
    · refine iff_of_false (givenBack_ne hregained hungained rs) ?_
      rintro (h | h)
      · exact hregained h
      · exact hungained h.1

/-- The last activation that saves a route saves the gateway that it finds. -/
theorem default_undone_iff {faults : List (Option Fault)} {m : RoutingManager} {seen : RouteTable}
    (h : Activated linkOf tunGateway serverIps t faults m seen) {fault : Option Fault}
    (hshow : fault ≠ some .show) {m' : RoutingManager} {t' : RouteTable}
    (h' : Activated linkOf tunGateway serverIps t (faults ++ [fault]) m' t')
    (hsaved : m'.saved = some (currentDefaultRoute seen.showDefault)) (leaving : Leaving) :
    (m'.leave linkOf t' leaving).defaults = t.defaults
      ↔ Restorable linkOf tunGateway serverIps t.defaults (faults ++ [fault]) := by
  rw [defaults_leave hsaved, restorable_concat hshow]
  have hreach {f : Option Fault} (hf : Redirects linkOf tunGateway serverIps t.defaults f) :
      routeVia linkOf tunGateway ≠ none := hf.1
  by_cases hearlier : ∃ f ∈ faults, Redirects linkOf tunGateway serverIps t.defaults f
  · have hsome : ∃ f ∈ faults ++ [fault], Redirects linkOf tunGateway serverIps t.defaults f :=
      exists_redirects_concat.mpr (Or.inl hearlier)
    have hsame : t'.defaults = seen.defaults :=
      (h'.redirected hsome).trans (h.redirected hearlier).symm
    obtain ⟨first, -, hfirst⟩ := id hearlier
    rw [hsame, h.givenBack_of_redirected hearlier, replaceVia_eq_self_iff (hreach hfirst)]
    simp only [hearlier, hsome, not_true_eq_false, and_false, or_false]
  · rw [h.kept hearlier]
    by_cases hsome : ∃ f ∈ faults ++ [fault], Redirects linkOf tunGateway serverIps t.defaults f
    · -- only the last one redirects
      have hleft := h'.redirected hsome
      obtain ⟨last, -, hlast⟩ := id hsome
      rw [givenBack_eq_iff tunGateway (Or.inr hleft), hleft, replaceVia_eq_self_iff (hreach hlast)]
      constructor
      · rintro (hregained | ⟨-, hthere⟩)
        · exact Or.inr (Or.inl ⟨hregained, hearlier⟩)
        · exact Or.inl hthere
      · rintro (⟨r, hmem, hr⟩ | ⟨hregained, -⟩ | ⟨-, hnone⟩)
        · exact Or.inl (regained_of_routeVia hr hmem)
        · exact Or.inl hregained
        · exact absurd hsome hnone
    · have hleft := h'.kept hsome
      rw [givenBack_eq_iff tunGateway (Or.inl hleft)]
      constructor
      · rintro (hregained | ⟨hungained, -⟩)
        · exact Or.inr (Or.inl ⟨hregained, hearlier⟩)
        · exact Or.inr (Or.inr ⟨hungained, hsome⟩)
      · rintro (⟨r, hmem, hr⟩ | ⟨hregained, -⟩ | ⟨hungained, -⟩)
        · exact Or.inl (regained_of_routeVia hr hmem)
        · exact Or.inl hregained
        · exact Or.inr ⟨hungained, hleft⟩

theorem Activated.hosts_leave {faults : List (Option Fault)} {m : RoutingManager} {t' : RouteTable}
    (h : Activated linkOf tunGateway serverIps t faults m t') (leaving : Leaving) :
    ∀ host route, route ∈ (m.leave linkOf t' leaving).hosts host → route ∈ t.hosts host := by
  intro host route hroute
  by_cases hnone : saving faults = []
  · obtain ⟨hsaved, rfl⟩ := h.untouched hnone
    rw [leave_of_none hsaved] at hroute
    exact hroute
  · obtain ⟨hhost, hfirst⟩ := RoutingManager.hosts_leave (h.saves hnone) hroute
    rw [h.sameServers] at hfirst
    rcases h.hosts host with hsame | ⟨hserver, r, hr, hadd⟩
    · rwa [hsame] at hhost
    · rw [hadd] at hfirst
      exact Routes.mem_of_mem_deleteFirst_add hr (hfirst hserver)

theorem default_undone_activateAll (tunGateway : IpAddr) (serverIps : List IpAddr)
    (t : RouteTable) (faults : List (Option Fault)) (leaving : Leaving) :
    (((new tunGateway serverIps).activateAll linkOf t faults).1.leave linkOf
        ((new tunGateway serverIps).activateAll linkOf t faults).2 leaving).defaults
        = t.defaults
      ↔ Restorable linkOf tunGateway serverIps t.defaults faults := by
  induction faults using List.reverseRecOn with
  | nil => exact iff_of_true (congrArg _ (leave_of_none rfl t leaving)) (Or.inl rfl)
  | append_singleton faults fault ih =>
      rw [activateAll_concat]
      by_cases hshow : fault = some .show
      · subst hshow
        rw [activate_of_show, Restorable, saving_concat_show]
        exact ih
      · have h := activated_activateAll linkOf tunGateway serverIps t faults
        obtain ⟨outcome, t', hactivate, h'⟩ := h.concat hshow
        rw [hactivate]
        exact default_undone_iff h hshow h' rfl leaving

/-- A default route that has a metric, as those that are leased have, is not
restored: another of metric 0 is left beside it. -/
theorem not_default_undone_of_metric {gateway : Ipv4Addr}
    (hmetric : ∀ r ∈ t.defaults, r.metric ≠ 0)
    (hfirst : firstGateway t.defaults.toList = some gateway) (hlink : linkOf gateway ≠ none)
    {faults : List (Option Fault)} (hsaves : saving faults ≠ []) (leaving : Leaving) :
    (((new tunGateway serverIps).activateAll linkOf t faults).1.leave linkOf
        ((new tunGateway serverIps).activateAll linkOf t faults).2 leaving).defaults
        ≠ t.defaults := by
  rw [Ne, default_undone_activateAll]
  rintro (hnil | ⟨r, hmem, hr⟩ | ⟨⟨via, dev, -, hmem⟩, -⟩ | ⟨hungained, -⟩)
  · exact hsaves hnil
  · exact hmetric r hmem (metric_of_routeVia hr)
  · exact hmetric _ hmem rfl
  · exact hlink (hungained gateway hfirst)

/-- What was activated is undone exactly if the default route can be restored. -/
theorem undone_iff (linkOf : Ipv4Addr → Option String) (tunGateway : IpAddr)
    (serverIps : List IpAddr) (t : RouteTable) (faults : List (Option Fault)) (leaving : Leaving) :
    Undone t
        (((new tunGateway serverIps).activateAll linkOf t faults).1.leave linkOf
          ((new tunGateway serverIps).activateAll linkOf t faults).2 leaving)
      ↔ Restorable linkOf tunGateway serverIps t.defaults faults := by
  rw [← default_undone_activateAll]
  refine and_iff_left ?_
  exact (activated_activateAll linkOf tunGateway serverIps t faults).hosts_leave leaving

end Undoing

/-! ## A link without a gateway -/

def tunnelGateway : Ipv4Addr := ⟨[10, 8, 0, 1], rfl⟩

/-- The only network that is reached directly is the tunnel's. -/
def linkOfTunnel (gateway : Ipv4Addr) : Option String :=
  if gateway = tunnelGateway then some "kanrin0" else none

def pointToPoint : RouteTable where
  defaults := ⟨[⟨none, "ppp0", 0⟩], List.pairwise_singleton _ _⟩
  hosts _ := ⟨[], List.Pairwise.nil⟩

def activatedOnce : RoutingManager × RouteTable :=
  (new (.v4 tunnelGateway) [.v4 ⟨[203, 0, 113, 9], rfl⟩]).activateAll linkOfTunnel pointToPoint
    [none]

theorem not_undone :
    ¬ Undone pointToPoint (activatedOnce.1.leave linkOfTunnel activatedOnce.2 .deactivate) := by
  have hdefaults : (activatedOnce.1.leave linkOfTunnel activatedOnce.2 .deactivate).defaults.toList
      = [⟨some tunnelGateway, "kanrin0", 0⟩] := by
    decide +kernel
  intro h
  rw [h.1] at hdefaults
  exact absurd hdefaults (by decide)

end RoutingManager

end Kanrin
