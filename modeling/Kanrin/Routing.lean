import Kanrin.Lib.SortByKey
import Kanrin.Lib.Text
import Kanrin.Crypto
import Kanrin.Cidr

/-!
# Routing

`kanrin-routing/src/rules.rs` and the preset of `iran.rs`. The engine sorts
its rules after each one that is added, and the first that matches decides.
`decide_least`: it is the matching rule that is least by priority, and of
these the one added first.

A name is its UTF-8 bytes.
-/

namespace Kanrin

open Lib

/-! ## Rules -/

inductive RouteDecision where
  | proxy
  | direct
  | block
deriving DecidableEq

inductive Protocol where
  | tcp
  | udp
  | icmp
  | other (value : UInt8)
deriving DecidableEq

structure RoutingContext where
  srcIp : IpAddr
  dstIp : IpAddr
  dstPort : UInt16
  domain : Option Bytes
  protocol : Protocol
  processName : Option Bytes
  processPath : Option Bytes

/-- The trait; `matchesCtx` is `matches`. -/
structure RoutingRule where
  matchesCtx : RoutingContext → Bool
  decision : RouteDecision
  priority : UInt32
  name : Bytes

structure DomainRule where
  pattern : Bytes
  decision : RouteDecision
  priority : UInt32

namespace DomainRule

def matchesCtx (rule : DomainRule) (ctx : RoutingContext) : Bool :=
  match ctx.domain with
  | none => false
  | some domain =>
      if (ascii "*.").isPrefixOf rule.pattern then
        let suffix := rule.pattern.drop 1
        suffix.isSuffixOf domain || domain == rule.pattern.drop 2
      else domain == rule.pattern

def rule (r : DomainRule) : RoutingRule where
  matchesCtx := r.matchesCtx
  decision := r.decision
  priority := r.priority
  name := r.pattern

end DomainRule

structure IpRule where
  network : IpAddr
  prefixLen : UInt8
  decision : RouteDecision
  priority : UInt32
  label : Bytes

namespace IpRule

def matchesCtx (build : Build) (rule : IpRule) (ctx : RoutingContext) : Option Bool :=
  ipInCidr build ctx.dstIp rule.network rule.prefixLen

/-- As built without overflow checks, where matching does not panic. -/
def rule (r : IpRule) : RoutingRule where
  matchesCtx ctx := (r.matchesCtx .wrapping ctx).get (isSome_ipInCidr_wrapping ..)
  decision := r.decision
  priority := r.priority
  name := r.label

end IpRule

structure PortRule where
  ports : List UInt16
  decision : RouteDecision
  priority : UInt32
  label : Bytes

def PortRule.rule (r : PortRule) : RoutingRule where
  matchesCtx ctx := r.ports.contains ctx.dstPort
  decision := r.decision
  priority := r.priority
  name := r.label

structure ProcessRule where
  processNames : List Bytes
  decision : RouteDecision
  priority : UInt32
  label : Bytes

def ProcessRule.rule (r : ProcessRule) : RoutingRule where
  matchesCtx ctx :=
    match ctx.processName with
    | some name => r.processNames.any fun p => eqIgnoreAsciiCase name p
    | none => false
  decision := r.decision
  priority := r.priority
  name := r.label

/-! ## The engine -/

structure RoutingEngine where
  rules : List RoutingRule
  defaultDecision : RouteDecision

namespace RoutingEngine

def new (defaultDecision : RouteDecision) : RoutingEngine where
  rules := []
  defaultDecision := defaultDecision

def addRule (engine : RoutingEngine) (rule : RoutingRule) : RoutingEngine :=
  { engine with rules := sortByKey (fun r => r.priority.toNat) (engine.rules ++ [rule]) }

def decide (engine : RoutingEngine) (ctx : RoutingContext) : RouteDecision :=
  match engine.rules.find? (·.matchesCtx ctx) with
  | some rule => rule.decision
  | none => engine.defaultDecision

/-- `add_rule` for one rule after the other. -/
def addRules (engine : RoutingEngine) (rules : List RoutingRule) : RoutingEngine :=
  rules.foldl addRule engine

end RoutingEngine

/-! ## The preset -/

def iranDomains : List String :=
  ["*.digikala.com", "*.divar.ir", "*.snapp.ir", "*.shaparak.ir", "*.bmi.ir", "*.mellat.ir",
    "*.parsian-bank.ir", "*.bpi.ir", "*.bankmelli-iran.com", "*.irancell.ir", "*.mci.ir",
    "*.aparat.com", "*.filimo.com", "*.namava.ir", "*.telewebion.com", "*.varzesh3.com",
    "*.zoomit.ir", "*.cafebazaar.ir", "*.myket.ir"]

def privateRanges : List (String × UInt32) :=
  [("*.local", 200), ("*.localhost", 201), ("*.lan", 202)]

/-- The rules of the preset in the order in which they are added. -/
def iranPreset : List DomainRule :=
  { pattern := ascii "*.ir", decision := .direct, priority := 100 }
    :: (iranDomains.zipIdx.map fun (domain, i) =>
        { pattern := ascii domain, decision := .direct, priority := 101 + UInt32.ofNat i })
    ++ privateRanges.map fun (pattern, priority) =>
        { pattern := ascii pattern, decision := .direct, priority }

def loadIranPreset (engine : RoutingEngine) : RoutingEngine :=
  engine.addRules (iranPreset.map DomainRule.rule)

/-! ## What is added is sorted once -/

theorem addRules_concat (engine : RoutingEngine) (rules : List RoutingRule)
    (rule : RoutingRule) :
    engine.addRules (rules ++ [rule]) = (engine.addRules rules).addRule rule := by
  rw [RoutingEngine.addRules, List.foldl_append]
  rfl

theorem addRules_new (default : RouteDecision) (rules : List RoutingRule) :
    (RoutingEngine.new default).addRules rules
      = { rules := sortByKey (fun r => r.priority.toNat) rules, defaultDecision := default } := by
  induction rules using List.reverseRecOn with
  | nil => rfl
  | append_singleton rules rule ih =>
      rw [addRules_concat, ih, RoutingEngine.addRule, sortByKey_concat]

/-! ## The rule that decides -/

/-- The rule added as number `i` matches; one that matches too has a higher
priority number, or the same and was not added earlier. -/
structure LeastMatch (rules : List RoutingRule) (ctx : RoutingContext) (i : Nat)
    (r : RoutingRule) : Prop where
  getElem? : rules[i]? = some r
  matchesCtx : r.matchesCtx ctx
  least : ∀ j r', rules[j]? = some r' → r'.matchesCtx ctx →
    r.priority < r'.priority ∨ (r.priority = r'.priority ∧ i ≤ j)

/-- There is only one such rule. -/
theorem LeastMatch.unique {rules : List RoutingRule} {ctx : RoutingContext} {i j : Nat}
    {r r' : RoutingRule} (h : LeastMatch rules ctx i r) (h' : LeastMatch rules ctx j r') :
    r = r' := by
  have hij : i = j := by
    have hle := h.least j r' h'.getElem? h'.matchesCtx
    have hge := h'.least i r h.getElem? h.matchesCtx
    simp only [UInt32.lt_iff_toNat_lt, ← UInt32.toNat_inj] at hle hge
    omega
  have hr := h.getElem?
  rw [hij, h'.getElem?] at hr
  exact (Option.some.inj hr).symm

/-- The first match of the sorted rules is the least match of the rules as added. -/
theorem leastMatch_of_find? {rules : List RoutingRule} {ctx : RoutingContext} {r : RoutingRule}
    (h : (sortByKey (fun r => r.priority.toNat) rules).find? (·.matchesCtx ctx) = some r) :
    ∃ i, LeastMatch rules ctx i r := by
  obtain ⟨hleast, hfirst⟩ := find?_sortByKey h
  rw [List.find?_filter] at hfirst
  obtain ⟨hr, i, hi, hat, hbefore⟩ := List.find?_eq_some_iff_getElem.mp hfirst
  have hmatches : r.matchesCtx ctx = true := by simpa using hr
  refine ⟨i, List.getElem?_eq_some_iff.mpr ⟨hi, hat⟩, hmatches, fun j r' hj hmatch => ?_⟩
  have hle := hleast r' (List.mem_of_getElem? hj) hmatch
  rcases Nat.lt_or_eq_of_le hle with hlt | heq
  · exact Or.inl (UInt32.lt_iff_toNat_lt.mpr hlt)
  · refine Or.inr ⟨UInt32.toNat_inj.mp heq, Nat.le_of_not_lt fun hji => ?_⟩
    have hno := hbefore j hji
    obtain ⟨hjlen, hjat⟩ := List.getElem?_eq_some_iff.mp hj
    rw [hjat] at hno
    simp [heq, hmatch] at hno

/-- What the rules, as added, say about a context. -/
def DecidedByLeast (rules : List RoutingRule) (default : RouteDecision) (ctx : RoutingContext)
    (decision : RouteDecision) : Prop :=
  (∃ i r, LeastMatch rules ctx i r ∧ decision = r.decision)
    ∨ ((∀ r ∈ rules, r.matchesCtx ctx = false) ∧ decision = default)

theorem decidedByLeast_decide (rules : List RoutingRule) (default : RouteDecision)
    (ctx : RoutingContext) :
    DecidedByLeast rules default ctx (((RoutingEngine.new default).addRules rules).decide ctx) := by
  rw [addRules_new, RoutingEngine.decide]
  cases hfind : (sortByKey (fun r => r.priority.toNat) rules).find? (·.matchesCtx ctx) with
  | some r =>
      obtain ⟨i, hi⟩ := leastMatch_of_find? hfind
      exact Or.inl ⟨i, r, hi, rfl⟩
  | none =>
      refine Or.inr ⟨fun r hr => ?_, rfl⟩
      simpa using List.find?_eq_none.mp hfind r (mem_sortByKey.mpr hr)

/-- The matching rule that is least by priority and then by insertion
decides; so the order of insertion is of no consequence where all priorities
differ. -/
theorem decide_least (default : RouteDecision) (rules : List RoutingRule) :
    (∀ ctx, DecidedByLeast rules default ctx
      (((RoutingEngine.new default).addRules rules).decide ctx))
    ∧ (rules.Pairwise (·.priority ≠ ·.priority) → ∀ rules', rules.Perm rules' → ∀ ctx,
        ((RoutingEngine.new default).addRules rules).decide ctx
          = ((RoutingEngine.new default).addRules rules').decide ctx) := by
  refine ⟨fun ctx => decidedByLeast_decide rules default ctx, fun hdistinct rules' hperm ctx => ?_⟩
  have hkeys : rules.Pairwise fun a b => a.priority.toNat ≠ b.priority.toNat :=
    hdistinct.imp fun hab => mt UInt32.toNat_inj.mp hab
  rw [addRules_new, addRules_new, sortByKey_eq_of_perm hperm hkeys]

/-- A connection to port 443 of 1.1.1.1, looked up under a name. -/
def webContext (domain : Bytes) : RoutingContext where
  srcIp := .v4 ⟨[192, 168, 1, 1], rfl⟩
  dstIp := .v4 ⟨[1, 1, 1, 1], rfl⟩
  dstPort := 443
  domain := some domain
  protocol := .tcp
  processName := none
  processPath := none

/-- A rule for all of .ir behind one that blocks a single host of it. -/
def blockedHost : List RoutingRule :=
  [DomainRule.rule { pattern := ascii "*.ir", decision := .direct, priority := 100 },
    DomainRule.rule { pattern := ascii "ad.ir", decision := .block, priority := 10 }]

theorem decide_least_blockedHost :
    ((RoutingEngine.new .proxy).addRules blockedHost).decide (webContext (ascii "ad.ir"))
        = ((RoutingEngine.new .proxy).addRules blockedHost.reverse).decide
            (webContext (ascii "ad.ir"))
      ∧ DecidedByLeast blockedHost .proxy (webContext (ascii "ad.ir")) .block := by
  have hdistinct : blockedHost.Pairwise (·.priority ≠ ·.priority) := by
    simp [blockedHost, DomainRule.rule]
  have hblock : ((RoutingEngine.new .proxy).addRules blockedHost).decide
      (webContext (ascii "ad.ir")) = .block := by decide +kernel
  refine ⟨(decide_least .proxy blockedHost).2 hdistinct _ (List.reverse_perm _).symm _, ?_⟩
  rw [← hblock]
  exact (decide_least .proxy blockedHost).1 _

end Kanrin
