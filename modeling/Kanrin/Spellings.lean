import Mathlib.Data.List.DropRight
import Kanrin.Routing

/-!
# Spellings of a name

Two spellings of a domain name that differ in the case of ASCII letters or
in the dot at the end are one name to the DNS. `DomainRule::matches` compares
bytes, so that they may be two names to the rules. `isFor_of_spelledAlike`: a
pattern that is for the one spelling is for the other as well where the two
agree, letter for letter, in the part of the name that the pattern states.
`namesRespected_iff`: they are decided alike exactly when the first pattern
for either of them states no more than that, or what is first for the other
happens to have the same decision. `decide_trailing_dot`: under rules such as
those of the preset no name with a dot at the end is matched at all.
-/

namespace Kanrin

open Lib

/-! ## Names -/

/-- Without the dot at the end, if there is one. -/
def withoutDot (d : Bytes) : Bytes := if d.getLast? = some 0x2E then d.dropLast else d

/-- Two spellings of one name. -/
def SameName (d d' : Bytes) : Prop :=
  toAsciiLowercase (withoutDot d) = toAsciiLowercase (withoutDot d')

instance (d d' : Bytes) : Decidable (SameName d d') :=
  inferInstanceAs (Decidable (_ = _))

/-- The context with another name. -/
def RoutingContext.withDomain (ctx : RoutingContext) (d : Bytes) : RoutingContext :=
  { ctx with domain := some d }

/-! ## What a pattern is for -/

namespace DomainRule

/-- What a pattern states of a name: all of it, or what is behind `*.`. -/
def stated (rule : DomainRule) : Bytes :=
  if (ascii "*.").isPrefixOf rule.pattern then rule.pattern.drop 2 else rule.pattern

/-- The spelling is what the pattern states, or ends in it behind a dot where
the pattern begins with `*.`. -/
def IsFor (rule : DomainRule) (d : Bytes) : Prop :=
  d = rule.stated ∨ (ascii "*." <+: rule.pattern ∧ ascii "." ++ rule.stated <:+ d)

instance (rule : DomainRule) (d : Bytes) : Decidable (rule.IsFor d) :=
  inferInstanceAs (Decidable (_ ∨ _))

end DomainRule

theorem matchesCtx_iff_isFor (ctx : RoutingContext) {rule : DomainRule} {d : Bytes} :
    rule.matchesCtx (ctx.withDomain d) = true ↔ rule.IsFor d := by
  simp only [DomainRule.matchesCtx, RoutingContext.withDomain, DomainRule.IsFor, DomainRule.stated]
  by_cases hpre : (ascii "*.").isPrefixOf rule.pattern = true
  · obtain ⟨s, hs⟩ := List.isPrefixOf_iff_prefix.mp hpre
    have hsuffix : rule.pattern.drop 1 = ascii "." ++ rule.pattern.drop 2 := by
      rw [← hs]
      rfl
    rw [if_pos hpre, if_pos hpre, Bool.or_eq_true, List.isSuffixOf_iff_suffix, beq_iff_eq, hsuffix,
      or_comm, and_iff_right (List.isPrefixOf_iff_prefix.mp hpre)]
  · rw [if_neg hpre, if_neg hpre, beq_iff_eq, or_iff_left]
    exact fun h => hpre (List.isPrefixOf_iff_prefix.mpr h.1)

theorem stated_wildcard (s : Bytes) (decision : RouteDecision) (priority : UInt32) :
    (DomainRule.mk (ascii "*." ++ s) decision priority).stated = s := by
  rw [DomainRule.stated, if_pos (List.isPrefixOf_iff_prefix.mpr (List.prefix_append _ s))]
  rfl

/-- `*.s` is for `s` and for the names with more labels in front. -/
theorem matchesCtx_wildcard_iff (ctx : RoutingContext) (decision : RouteDecision)
    (priority : UInt32) (s d : Bytes) :
    (DomainRule.mk (ascii "*." ++ s) decision priority).matchesCtx (ctx.withDomain d) = true
      ↔ d = s ∨ ∃ host, d = host ++ ascii "." ++ s := by
  rw [matchesCtx_iff_isFor, DomainRule.IsFor, stated_wildcard,
    and_iff_right (List.prefix_append _ s)]
  simp only [List.suffix_iff_exists_eq_append, List.append_assoc]

theorem getLast?_of_suffix {t l : Bytes} (h : t <:+ l) (ht : t ≠ []) :
    l.getLast? = t.getLast? := by
  obtain ⟨front, rfl⟩ := h
  rw [List.getLast?_append, List.getLast?_eq_some_getLast ht, Option.some_or]

theorem stated_suffix (rule : DomainRule) : rule.stated <:+ rule.pattern := by
  unfold DomainRule.stated
  split
  · exact List.drop_suffix 2 _
  · exact List.suffix_refl _

/-- What a pattern is for ends as the pattern does. -/
theorem getLast?_of_isFor {rule : DomainRule} {d : Bytes} {b : UInt8} (h : rule.IsFor d)
    (hd : d.getLast? = some b) : rule.pattern.getLast? = some b := by
  have hne : d ≠ [] := by rintro rfl; cases hd
  rcases h with heq | ⟨hpre, hends⟩
  · rw [getLast?_of_suffix (heq ▸ stated_suffix rule) hne, hd]
  · have hdot : ascii "." ++ rule.stated <:+ rule.pattern := by
      obtain ⟨s, hs⟩ := hpre
      rw [DomainRule.stated, if_pos (List.isPrefixOf_iff_prefix.mpr ⟨s, hs⟩), ← hs]
      exact List.suffix_append [0x2A] _
    have hlong : ascii "." ++ rule.stated ≠ [] := List.cons_ne_nil 0x2E _
    rw [getLast?_of_suffix hdot hlong, ← getLast?_of_suffix hends hlong, hd]

/-! ## Where two spellings agree -/

/-- Both end in a dot or neither does, and the last `n` bytes of the one are
those of the other, each letter in the same case. -/
def SpelledAlike (n : Nat) (d d' : Bytes) : Prop :=
  (d.getLast? = some 0x2E ↔ d'.getLast? = some 0x2E) ∧ d.rtake n = d'.rtake n

theorem SameName.symm {d d' : Bytes} (h : SameName d d') : SameName d' d := Eq.symm h

theorem toAsciiLowercase_append (s t : Bytes) :
    toAsciiLowercase (s ++ t) = toAsciiLowercase s ++ toAsciiLowercase t :=
  List.map_append

theorem withoutDot_append {d : Bytes} (h : d.getLast? = some 0x2E) :
    withoutDot d ++ ascii "." = d := by
  rw [withoutDot, if_pos h]
  exact List.dropLast_append_getLast? 0x2E h

/-- One name, with the same dot at the end: only the case of letters is left. -/
theorem toAsciiLowercase_eq_of_sameName {d d' : Bytes} (h : SameName d d')
    (hdot : d.getLast? = some 0x2E ↔ d'.getLast? = some 0x2E) :
    toAsciiLowercase d = toAsciiLowercase d' := by
  by_cases hd : d.getLast? = some 0x2E
  · rw [← withoutDot_append hd, ← withoutDot_append (hdot.mp hd), toAsciiLowercase_append,
      toAsciiLowercase_append, show toAsciiLowercase _ = toAsciiLowercase _ from h]
  · have hd' : ¬ d'.getLast? = some 0x2E := fun hd' => hd (hdot.mpr hd')
    rw [SameName, withoutDot, if_neg hd, withoutDot, if_neg hd'] at h
    exact h

/-- No letter stands for the dot. -/
theorem eq_of_toAsciiLowercase_dot {s : Bytes} (h : toAsciiLowercase s = ascii ".") :
    s = ascii "." := by
  obtain ⟨b, rfl⟩ : ∃ b, s = [b] := by
    rw [← List.length_eq_one_iff, ← length_toAsciiLowercase, h]
    rfl
  have hb : (if 0x41 ≤ b ∧ b ≤ 0x5A then b + 0x20 else b) = 0x2E := (List.cons.inj h).1
  split at hb
  · rename_i hupper
    simp only [UInt8.le_iff_toNat_le, ← UInt8.toNat_inj, UInt8.toNat_add] at hupper hb
    simp at hupper hb
    omega
  · rw [hb]
    rfl

theorem rtake_append_right (front s : Bytes) : (front ++ s).rtake s.length = s := by
  rw [List.rtake, List.length_append, Nat.add_sub_cancel, List.drop_left]

/-- A pattern tells apart only what differs in the part that it states. -/
theorem isFor_of_spelledAlike {rule : DomainRule} {d d' : Bytes} (hname : SameName d d')
    (halike : SpelledAlike rule.stated.length d d') (h : rule.IsFor d) : rule.IsFor d' := by
  have hlower := toAsciiLowercase_eq_of_sameName hname halike.1
  have hlen : d'.length = d.length := by
    rw [← length_toAsciiLowercase, ← hlower, length_toAsciiLowercase]
  -- The stated part stands at the end of `d'`, behind as many bytes as in `d`.
  have htake (front : Bytes) (hd : d = front ++ rule.stated) :
      ∃ front', d' = front' ++ rule.stated ∧ toAsciiLowercase front' = toAsciiLowercase front := by
    have hrest : d'.rtake rule.stated.length = rule.stated := by
      rw [← halike.2, hd, rtake_append_right]
    have hsplit : d' = d'.take (d'.length - rule.stated.length) ++ rule.stated := by
      conv_lhs => rw [← List.take_append_drop (d'.length - rule.stated.length) d']
      rw [← List.rtake, hrest]
    refine ⟨_, hsplit, ?_⟩
    rw [hd, hsplit, toAsciiLowercase_append, toAsciiLowercase_append] at hlower
    exact (List.append_inj_left' hlower rfl).symm
  rcases h with heq | ⟨hpre, host, hhost⟩
  · obtain ⟨front, hd', hfront⟩ := htake [] heq
    have hnil : front = [] := by
      rw [← List.length_eq_zero_iff, ← length_toAsciiLowercase, hfront]
      rfl
    exact Or.inl (by rw [hd', hnil, List.nil_append])
  · obtain ⟨front, hd', hfront⟩ := htake (host ++ ascii ".") (by rw [List.append_assoc, hhost])
    -- The byte in front of it is the dot, which has no other case.
    rw [toAsciiLowercase_append] at hfront
    obtain ⟨host', dot, rfl, -, hdot⟩ := List.map_eq_append_iff.mp hfront
    refine Or.inr ⟨hpre, host', ?_⟩
    rw [hd', eq_of_toAsciiLowercase_dot hdot, List.append_assoc]

/-! ## The first pattern for a spelling -/

/-- The pattern added as number `i` is for the spelling; one that is for it
too has a higher priority number, or the same and was not added earlier. -/
structure FirstFor (rules : List DomainRule) (d : Bytes) (i : Nat) (r : DomainRule) : Prop where
  getElem? : rules[i]? = some r
  isFor : r.IsFor d
  least : ∀ j r', rules[j]? = some r' → r'.IsFor d →
    r.priority < r'.priority ∨ (r.priority = r'.priority ∧ i ≤ j)

/-- The first pattern for the spelling has the decision, or there is no
pattern for it and the default is the decision. -/
structure GoesTo (rules : List DomainRule) (default : RouteDecision) (d : Bytes)
    (decision : RouteDecision) : Prop where
  first : ∀ i r, FirstFor rules d i r → r.decision = decision
  none : (∀ r ∈ rules, ¬ r.IsFor d) → default = decision

theorem FirstFor.of_leastMatch {rules : List DomainRule} {ctx : RoutingContext} {d : Bytes}
    {i : Nat} {r : DomainRule} (hr : rules[i]? = some r)
    (h : LeastMatch (rules.map DomainRule.rule) (ctx.withDomain d) i r.rule) :
    FirstFor rules d i r := by
  refine ⟨hr, (matchesCtx_iff_isFor ctx).mp h.matchesCtx, fun j r' hr' hfor => ?_⟩
  have hat : (rules.map DomainRule.rule)[j]? = some r'.rule := by rw [List.getElem?_map, hr']; rfl
  exact h.least j r'.rule hat ((matchesCtx_iff_isFor ctx).mpr hfor)

/-- The first of a pair of patterns that are each for both spellings. -/
theorem FirstFor.eq_of_isFor {rules : List DomainRule} {d d' : Bytes} {i j : Nat}
    {r r' : DomainRule} (h : FirstFor rules d i r) (h' : FirstFor rules d' j r')
    (hr : r.IsFor d') (hr' : r'.IsFor d) : r = r' := by
  have hij : i = j := by
    have hle := h.least j r' h'.getElem? hr'
    have hge := h'.least i r h.getElem? hr
    simp only [UInt32.lt_iff_toNat_lt, ← UInt32.toNat_inj] at hle hge
    omega
  exact Option.some.inj (h.getElem?.symm.trans (hij ▸ h'.getElem?))

section Decisions

variable (rules : List DomainRule) (default : RouteDecision) (ctx : RoutingContext)

/-- `decide` for a spelling under the rules as they were added. -/
def decisionFor (d : Bytes) : RouteDecision :=
  ((RoutingEngine.new default).addRules (rules.map DomainRule.rule)).decide (ctx.withDomain d)

theorem decisionFor_cases (d : Bytes) :
    (∃ i r, FirstFor rules d i r ∧ decisionFor rules default ctx d = r.decision)
      ∨ ((∀ r ∈ rules, ¬ r.IsFor d) ∧ decisionFor rules default ctx d = default) := by
  rcases decidedByLeast_decide (rules.map DomainRule.rule) default (ctx.withDomain d) with
    ⟨i, R, hleast, hdecision⟩ | ⟨hnone, hdecision⟩
  · have hat := hleast.getElem?
    rw [List.getElem?_map] at hat
    obtain ⟨r, hr, rfl⟩ := Option.map_eq_some_iff.mp hat
    exact Or.inl ⟨i, r, FirstFor.of_leastMatch hr hleast, hdecision⟩
  · refine Or.inr ⟨fun r hr hfor => ?_, hdecision⟩
    exact Bool.eq_false_iff.mp (hnone r.rule (List.mem_map_of_mem hr))
      ((matchesCtx_iff_isFor ctx).mpr hfor)

variable {rules default}

theorem goesTo_iff {d : Bytes} {decision : RouteDecision} :
    GoesTo rules default d decision ↔ decisionFor rules default ctx d = decision := by
  rcases decisionFor_cases rules default ctx d with ⟨i, r, hfirst, hr⟩ | ⟨hnone, hdefault⟩
  · constructor
    · exact fun h => hr.trans (h.first i r hfirst)
    · refine fun h => ⟨fun j r' hfirst' => ?_, fun hnone => ?_⟩
      · rw [hfirst'.eq_of_isFor hfirst hfirst'.isFor hfirst.isFor, ← hr, h]
      · exact absurd hfirst.isFor (hnone r (List.mem_of_getElem? hfirst.getElem?))
  · constructor
    · exact fun h => hdefault.trans (h.none hnone)
    · refine fun h => ⟨fun j r' hfirst' => ?_, fun _ => hdefault.symm.trans h⟩
      exact absurd hfirst'.isFor (hnone r' (List.mem_of_getElem? hfirst'.getElem?))

end Decisions

/-- No name with a dot at the end is matched where no pattern ends in one. -/
theorem decide_trailing_dot {rules : List DomainRule} (default : RouteDecision)
    (ctx : RoutingContext) {d : Bytes} (hdot : d.getLast? = some 0x2E)
    (hrules : ∀ r ∈ rules, r.pattern.getLast? ≠ some 0x2E) :
    ((RoutingEngine.new default).addRules (rules.map DomainRule.rule)).decide (ctx.withDomain d)
      = default := by
  rcases decisionFor_cases rules default ctx d with ⟨i, r, hfirst, -⟩ | hdefault
  · exact absurd (getLast?_of_isFor hfirst.isFor hdot)
      (hrules r (List.mem_of_getElem? hfirst.getElem?))
  · exact hdefault.2

/-- So the preset leaves every such name to the default. -/
theorem preset_trailing_dot (default : RouteDecision) (ctx : RoutingContext) {d : Bytes}
    (hdot : d.getLast? = some 0x2E) :
    (loadIranPreset (.new default)).decide (ctx.withDomain d) = default :=
  decide_trailing_dot default ctx hdot (by decide)

/-! ## When spellings are decided alike -/

/-- Where the first pattern for `d` states a letter that `d'` has in the other
case, or just one of the two ends in a dot, there `d'` is sent the same way
by the patterns that are spelled as it is. -/
def Follows (rules : List DomainRule) (default : RouteDecision) (d d' : Bytes) : Prop :=
  ∀ i r, FirstFor rules d i r → ¬ SpelledAlike r.stated.length d d' →
    GoesTo rules default d' r.decision

section Spellings

variable {rules : List DomainRule} {default : RouteDecision} {ctx : RoutingContext} {d d' : Bytes}

/-- A pattern that is first for `d'` is either for `d` as well or made up for. -/
theorem goesTo_of_follows (hname : SameName d d') (hfollows' : Follows rules default d' d)
    {i : Nat} {r : DomainRule} (hfirst : FirstFor rules d i r) (hfor : r.IsFor d') :
    GoesTo rules default d' r.decision := by
  refine ⟨fun j r' hfirst' => ?_, fun hnone => ?_⟩
  · by_cases halike : SpelledAlike r'.stated.length d' d
    · rw [hfirst.eq_of_isFor hfirst' hfor (isFor_of_spelledAlike hname.symm halike hfirst'.isFor)]
    · exact ((hfollows' j r' hfirst' halike).first i r hfirst).symm
  · exact absurd hfor (hnone r (List.mem_of_getElem? hfirst.getElem?))

theorem decisionFor_eq_of_follows (hname : SameName d d') (hfollows : Follows rules default d d')
    (hfollows' : Follows rules default d' d) :
    decisionFor rules default ctx d = decisionFor rules default ctx d' := by
  rcases decisionFor_cases rules default ctx d with ⟨i, r, hfirst, hr⟩ | ⟨hnone, hdefault⟩
  · have hgoes : GoesTo rules default d' r.decision := by
      by_cases halike : SpelledAlike r.stated.length d d'
      · exact goesTo_of_follows hname hfollows' hfirst
          (isFor_of_spelledAlike hname halike hfirst.isFor)
      · exact hfollows i r hfirst halike
    rw [hr, (goesTo_iff ctx).mp hgoes]
  · rw [hdefault]
    refine ((goesTo_iff ctx).mp ⟨fun j r' hfirst' => ?_, fun _ => rfl⟩).symm
    have halike : ¬ SpelledAlike r'.stated.length d' d := fun halike =>
      hnone r' (List.mem_of_getElem? hfirst'.getElem?)
        (isFor_of_spelledAlike hname.symm halike hfirst'.isFor)
    exact ((hfollows' j r' hfirst' halike).none hnone).symm

theorem follows_of_decisionFor_eq
    (h : decisionFor rules default ctx d = decisionFor rules default ctx d') :
    Follows rules default d d' := by
  intro i r hfirst _
  rw [goesTo_iff ctx, ← h]
  exact ((goesTo_iff ctx).mp ⟨fun j r' hfirst' => by
    rw [hfirst'.eq_of_isFor hfirst hfirst'.isFor hfirst.isFor], fun hnone =>
    absurd hfirst.isFor (hnone r (List.mem_of_getElem? hfirst.getElem?))⟩)

end Spellings

/-- In front of all that the patterns for either of them state the two may be
spelled in any way. -/
theorem decide_front {rules : List DomainRule} (default : RouteDecision) (ctx : RoutingContext)
    {front front' t : Bytes} (hname : SameName (front ++ t) (front' ++ t)) (ht : t ≠ [])
    (hrules : ∀ r ∈ rules, r.IsFor (front ++ t) ∨ r.IsFor (front' ++ t) →
      r.stated.length ≤ t.length) :
    decisionFor rules default ctx (front ++ t) = decisionFor rules default ctx (front' ++ t) := by
  have hdot (front : Bytes) : (front ++ t).getLast? = t.getLast? :=
    getLast?_of_suffix (List.suffix_append front t) ht
  have htake (front : Bytes) {n : Nat} (hn : n ≤ t.length) : (front ++ t).rtake n = t.rtake n := by
    rw [List.rtake, List.length_append, Nat.add_sub_assoc hn, List.drop_length_add_append,
      List.rtake]
  have halike (front front' : Bytes) {n : Nat} (hn : n ≤ t.length) :
      SpelledAlike n (front ++ t) (front' ++ t) :=
    ⟨by rw [hdot, hdot], by rw [htake front hn, htake front' hn]⟩
  refine decisionFor_eq_of_follows hname (fun i r hfirst hnot => ?_) fun i r hfirst hnot => ?_
  · exact absurd (halike front front' (hrules r (List.mem_of_getElem? hfirst.getElem?)
      (Or.inl hfirst.isFor))) hnot
  · exact absurd (halike front' front (hrules r (List.mem_of_getElem? hfirst.getElem?)
      (Or.inr hfirst.isFor))) hnot

/-- Both halves of what is asked of names: two spellings of one are decided
alike, and `*.s` is for `s` and what ends in `.s`. -/
structure NamesRespected (rules : List DomainRule) (default : RouteDecision)
    (ctx : RoutingContext) (d d' : Bytes) : Prop where
  alike : SameName d d' →
    ((RoutingEngine.new default).addRules (rules.map DomainRule.rule)).decide (ctx.withDomain d)
      = ((RoutingEngine.new default).addRules (rules.map DomainRule.rule)).decide
        (ctx.withDomain d')
  wildcard : ∀ s decision priority name,
    (DomainRule.mk (ascii "*." ++ s) decision priority).matchesCtx (ctx.withDomain name) = true
      ↔ name = s ∨ ∃ host, name = host ++ ascii "." ++ s

theorem namesRespected_iff (rules : List DomainRule) (default : RouteDecision)
    (ctx : RoutingContext) (d d' : Bytes) :
    NamesRespected rules default ctx d d'
      ↔ (SameName d d' → Follows rules default d d' ∧ Follows rules default d' d) := by
  constructor
  · exact fun h hname => ⟨follows_of_decisionFor_eq (h.alike hname),
      follows_of_decisionFor_eq (h.alike hname).symm⟩
  · exact fun h => ⟨fun hname => decisionFor_eq_of_follows hname (h hname).1 (h hname).2,
      fun s decision priority name => matchesCtx_wildcard_iff ctx decision priority s name⟩

/-- The preset sends bank.ir past the tunnel, and BANK.IR and bank.ir. through it. -/
theorem preset_sets_apart :
    ¬ (∀ (rules : List DomainRule) (default : RouteDecision) (ctx : RoutingContext)
        (d d' : Bytes), NamesRespected rules default ctx d d')
      ∧ (loadIranPreset (.new .proxy)).decide (webContext (ascii "bank.ir")) = .direct
      ∧ (loadIranPreset (.new .proxy)).decide (webContext (ascii "BANK.IR")) = .proxy
      ∧ (loadIranPreset (.new .proxy)).decide (webContext (ascii "bank.ir.")) = .proxy := by
  have hlower : (loadIranPreset (.new .proxy)).decide (webContext (ascii "bank.ir")) = .direct := by
    decide +kernel
  have hupper : (loadIranPreset (.new .proxy)).decide (webContext (ascii "BANK.IR")) = .proxy := by
    decide +kernel
  have hdot : (loadIranPreset (.new .proxy)).decide (webContext (ascii "bank.ir.")) = .proxy := by
    decide +kernel
  refine ⟨fun h => ?_, hlower, hupper, hdot⟩
  have halike := (h iranPreset .proxy (webContext []) (ascii "bank.ir") (ascii "BANK.IR")).alike
    (by decide)
  exact nomatch hlower.symm.trans (halike.trans hupper)

end Kanrin
