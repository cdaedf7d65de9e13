import Kanrin.Lib.SortByKey
import Kanrin.Cidr

/-!
# Countries of addresses

The lookup of `kanrin-routing/src/geoip.rs`. It searches the ranges for the
last that starts at or before the address, and looks at this one only.
`lookupExact_iff` is when this finds what a scan over all ranges would find:
no other range starts between the one that is wanted and the address.
`lookupExact_of_disjoint`: it always does when no two ranges meet.
-/

namespace Kanrin

open Lib

/-! ## The database -/

namespace GeoIpDatabase

def finalize (db : GeoIpDatabase) : GeoIpDatabase where
  ipv4Ranges := sortByKey (fun r => r.start.toNat) db.ipv4Ranges

/-- The index is in bounds, since the search does not leave the list. -/
def lookup (db : GeoIpDatabase) : IpAddr → Option CountryCode
  | .v4 ipv4 =>
      let ipNum := ipv4Bits ipv4
      let idx := partitionPoint (fun r => r.start.toNat ≤ ipNum.toNat) db.ipv4Ranges
      if idx = 0 then none
      else do
        let range ← db.ipv4Ranges[idx - 1]?
        if ipNum ≥ range.start ∧ ipNum ≤ range.last then some range.country else none
  | .v6 _ => none

end GeoIpDatabase

/-! ## What is added -/

/-- The arguments of a call of `add_ipv4_range`. -/
structure CidrRange where
  network : BitVec 32
  prefixLen : UInt8
  country : CountryCode
  pos : 1 ≤ prefixLen
  le_width : prefixLen ≤ 32
deriving DecidableEq

namespace CidrRange

def Contains (r : CidrRange) (ip : BitVec 32) : Prop := AgreeOn r.prefixLen.toNat r.network ip

instance (r : CidrRange) (ip : BitVec 32) : Decidable (r.Contains ip) :=
  inferInstanceAs (Decidable (AgreeOn ..))

def start (r : CidrRange) : BitVec 32 := firstWith r.prefixLen.toNat r.network

/-- What is stored for it. -/
def stored (r : CidrRange) : Ipv4Range := rangeOf r.network r.prefixLen r.country

theorem prefixLen_ne_zero (r : CidrRange) : r.prefixLen ≠ 0 := by
  intro hzero
  have hpos := r.pos
  rw [hzero] at hpos
  exact absurd hpos (by decide)

theorem contains_iff (r : CidrRange) (ip : BitVec 32) :
    r.Contains ip ↔ ip ≥ r.stored.start ∧ ip ≤ r.stored.last := agreeOn_iff_between

theorem contains_start (r : CidrRange) : r.Contains r.start :=
  agreeOn_firstWith r.prefixLen.toNat r.network

theorem start_le {r : CidrRange} {ip : BitVec 32} (h : r.Contains ip) : r.start ≤ ip :=
  firstWith_le h

variable {a b : CidrRange} {ip : BitVec 32}

/-- Of two ranges with an address in common the broader one does not start later. -/
theorem start_le_start (hab : a.prefixLen ≤ b.prefixLen) (ha : a.Contains ip)
    (hb : b.Contains ip) : a.start ≤ b.start :=
  firstWith_le_firstWith hab (ha.widen hab hb)

/-- A range with the same start as a narrower one contains it. -/
theorem contains_of_start_eq (hab : a.prefixLen ≤ b.prefixLen) (h : a.start = b.start)
    (hb : b.Contains ip) : a.Contains ip :=
  (agreeOn_of_firstWith_eq hab h).trans (AgreeOn.mono hab hb)

end CidrRange

/-- The calls one after the other. -/
def load (build : Build) (ranges : List CidrRange) : Option GeoIpDatabase :=
  ranges.foldlM (fun db r => db.addIpv4Range build r.network r.prefixLen r.country) .new

theorem load_eq (build : Build) (ranges : List CidrRange) :
    load build ranges = some { ipv4Ranges := ranges.map CidrRange.stored } := by
  have hfrom : ∀ db : GeoIpDatabase,
      ranges.foldlM (fun db r => db.addIpv4Range build r.network r.prefixLen r.country) db
        = some { ipv4Ranges := db.ipv4Ranges ++ ranges.map CidrRange.stored } := by
    induction ranges with
    | nil => intro db; rw [List.map_nil, List.append_nil]; rfl
    | cons r ranges ih =>
        intro db
        rw [List.foldlM_cons, addIpv4Range_of_ne_zero build db _ _ r.prefixLen_ne_zero,
          Option.bind_eq_bind, Option.bind_some, ih, List.map_cons, List.append_assoc]
        rfl
  exact hfrom .new

/-! ## The scan -/

section Scan

variable (ranges : List CidrRange) (ip : BitVec 32)

/-- No range that contains the address has a longer prefix. -/
structure MostSpecific (r : CidrRange) : Prop where
  mem : r ∈ ranges
  contains : r.Contains ip
  longest : ∀ r' ∈ ranges, r'.Contains ip → r'.prefixLen ≤ r.prefixLen

/-- Nothing is found when no range contains the address, and otherwise the
country of a most specific range. -/
def AgreesWithScan (found : Option CountryCode) : Prop :=
  (found = none ↔ ∀ r ∈ ranges, ¬ r.Contains ip)
    ∧ ∀ country, found = some country → ∃ r, MostSpecific ranges ip r ∧ r.country = country

/-- No range starts between the start of a most specific range and the
address; and of the ranges that start where this one does, the one added
last is not narrower, and one that is broader names the country all the
same. -/
def Unobstructed : Prop :=
  ∀ r, MostSpecific ranges ip r →
    (∀ r' ∈ ranges, r'.start ≤ ip → r'.start ≤ r.start)
    ∧ ∀ latest, (ranges.filter (·.start = r.start)).getLast? = some latest →
        latest.prefixLen ≤ r.prefixLen
        ∧ (latest.prefixLen < r.prefixLen →
            ∃ m, MostSpecific ranges ip m ∧ m.country = latest.country)

/-- The range the lookup looks at: the last one added of those that start
latest, but not after the address. -/
structure Candidate (c : CidrRange) : Prop where
  mem : c ∈ ranges
  start_le : c.start ≤ ip
  latest : ∀ r ∈ ranges, r.start ≤ ip → r.start ≤ c.start
  last : (ranges.filter (·.start = c.start)).getLast? = some c

end Scan

variable {ranges : List CidrRange} {ip : BitVec 32}

theorem exists_mostSpecific {r : CidrRange} (hr : r ∈ ranges) (hip : r.Contains ip) :
    ∃ m, MostSpecific ranges ip m := by
  have hne : ranges.filter (·.Contains ip) ≠ [] :=
    List.ne_nil_of_mem (List.mem_filter.mpr ⟨hr, by simpa using hip⟩)
  obtain ⟨m, hm, hmax, -⟩ := exists_last_greatest (fun r => r.prefixLen.toNat) hne
  obtain ⟨hmem, hcontains⟩ := List.mem_filter.mp hm
  refine ⟨m, hmem, by simpa using hcontains, fun r' hr' hip' => ?_⟩
  exact UInt8.le_iff_toNat_le.mpr (hmax r' (List.mem_filter.mpr ⟨hr', by simpa using hip'⟩))

/-! ## What the lookup looks at -/

/-- The ranges that start at or before the address, in the order of the starts. -/
def started (ranges : List CidrRange) (ip : BitVec 32) : List CidrRange :=
  (sortByKey (fun r => r.start.toNat) ranges).filter (·.start.toNat ≤ ip.toNat)

theorem mem_started {r : CidrRange} : r ∈ started ranges ip ↔ r ∈ ranges ∧ r.start ≤ ip := by
  rw [started, List.mem_filter, mem_sortByKey, decide_eq_true_eq, BitVec.le_def]

theorem candidate_of_getLast? {c : CidrRange} (h : (started ranges ip).getLast? = some c) :
    Candidate ranges ip c := by
  have hc := mem_started.mp (List.mem_of_getLast? h)
  have hsorted : SortedBy (fun r : CidrRange => r.start.toNat) (started ranges ip) :=
    (sortedBy_sortByKey ranges).filter _
  obtain ⟨hmax, hlast⟩ := hsorted.getLast?_eq_some h
  refine ⟨hc.1, hc.2, fun r hr hle => BitVec.le_def.mpr (hmax r (mem_started.mpr ⟨hr, hle⟩)), ?_⟩
  have hle : c.start.toNat ≤ ip.toNat := BitVec.le_def.mp hc.2
  -- what starts where the candidate does has started
  have hsame : (started ranges ip).filter (·.start.toNat = c.start.toNat)
      = (sortByKey (fun r => r.start.toNat) ranges).filter (·.start.toNat = c.start.toNat) := by
    rw [started, List.filter_filter]
    refine List.filter_congr fun r _ => ?_
    grind
  have hword : ranges.filter (·.start.toNat = c.start.toNat)
      = ranges.filter (·.start = c.start) :=
    List.filter_congr fun r _ => decide_eq_decide.mpr BitVec.toNat_inj
  rw [← hword, ← filter_sortByKey, ← hsame, hlast]

theorem exists_candidate {r : CidrRange} (hr : r ∈ ranges) (hle : r.start ≤ ip) :
    ∃ c, (started ranges ip).getLast? = some c :=
  ⟨_, List.getLast?_eq_some_getLast (List.ne_nil_of_mem (mem_started.mpr ⟨hr, hle⟩))⟩

/-- The lookup is the last range that has started, if the address is in it. -/
theorem lookup_finalize (ranges : List CidrRange) (ip : Ipv4Addr) :
    (GeoIpDatabase.finalize { ipv4Ranges := ranges.map CidrRange.stored }).lookup (.v4 ip)
      = (started ranges (ipv4Bits ip)).getLast?.bind fun c =>
          if c.Contains (ipv4Bits ip) then some c.country else none := by
  have hsorted : sortByKey (fun r => r.start.toNat) (ranges.map CidrRange.stored)
      = (sortByKey (fun r => r.start.toNat) ranges).map CidrRange.stored :=
    sortByKey_map CidrRange.stored ranges
  have hranges : SortedBy (fun r : Ipv4Range => r.start.toNat)
      (sortByKey (fun r => r.start.toNat) (ranges.map CidrRange.stored)) := sortedBy_sortByKey _
  have hlast := hranges.getLast?_filter_le (ipv4Bits ip).toNat
  have hstarted : ((sortByKey (fun r => r.start.toNat) (ranges.map CidrRange.stored)).filter
      (·.start.toNat ≤ (ipv4Bits ip).toNat)).getLast?
      = (started ranges (ipv4Bits ip)).getLast?.map CidrRange.stored := by
    rw [hsorted, List.filter_map, List.getLast?_map]
    rfl
  have hfound : (GeoIpDatabase.finalize { ipv4Ranges := ranges.map CidrRange.stored }).lookup
        (.v4 ip)
      = ((started ranges (ipv4Bits ip)).getLast?.map CidrRange.stored).bind fun range =>
          if ipv4Bits ip ≥ range.start ∧ ipv4Bits ip ≤ range.last then some range.country
          else none := by
    rw [← hstarted, hlast]
    unfold GeoIpDatabase.lookup GeoIpDatabase.finalize
    dsimp only
    split <;> rfl
  rw [hfound, Option.bind_map]
  refine congrArg _ (funext fun c => if_congr (c.contains_iff _).symm rfl rfl)

/-! ## When this is what the scan finds -/

theorem Candidate.eq_start {c r : CidrRange} (hc : Candidate ranges ip c)
    (hr : MostSpecific ranges ip r) (hle : c.start ≤ r.start) : c.start = r.start :=
  BitVec.le_antisymm hle (hc.latest r hr.mem (CidrRange.start_le hr.contains))

/-- The candidate is what the scan finds if nothing obstructs it. -/
theorem Candidate.found_iff {c r : CidrRange} (hc : Candidate ranges ip c)
    (hr : MostSpecific ranges ip r) :
    (c.Contains ip ∧ ∃ m, MostSpecific ranges ip m ∧ m.country = c.country)
      ↔ Unobstructed ranges ip := by
  constructor
  · rintro ⟨hcontains, hcountry⟩ r hr
    have hbroader : c.prefixLen ≤ r.prefixLen := hr.longest c hc.mem hcontains
    have hstart : c.start = r.start :=
      hc.eq_start hr (CidrRange.start_le_start hbroader hcontains hr.contains)
    refine ⟨fun r' hr' hle => hstart ▸ hc.latest r' hr' hle, fun latest hlatest => ?_⟩
    rw [← hstart, hc.last, Option.some.injEq] at hlatest
    subst hlatest
    exact ⟨hbroader, fun _ => hcountry⟩
  · intro hfree
    obtain ⟨hbetween, hlast⟩ := hfree r hr
    have hstart : c.start = r.start := hc.eq_start hr (hbetween c hc.mem hc.start_le)
    obtain ⟨hbroader, hcountry⟩ := hlast c (hstart ▸ hc.last)
    have hcontains : c.Contains ip := CidrRange.contains_of_start_eq hbroader hstart hr.contains
    refine ⟨hcontains, ?_⟩
    by_cases hlt : c.prefixLen < r.prefixLen
    · exact hcountry hlt
    · have heq : c.prefixLen = r.prefixLen := UInt8.le_antisymm hbroader (UInt8.not_lt.mp hlt)
      exact ⟨c, ⟨hc.mem, hcontains, fun r' hr' hip => heq ▸ hr.longest r' hr' hip⟩, rfl⟩

/-- The lookup finds what the scan finds. -/
def LookupExact (build : Build) (ranges : List CidrRange) (ip : Ipv4Addr) : Prop :=
  ∃ db, load build ranges = some db
    ∧ AgreesWithScan ranges (ipv4Bits ip) (db.finalize.lookup (.v4 ip))

theorem lookupExact_iff (build : Build) (ranges : List CidrRange) (ip : Ipv4Addr) :
    LookupExact build ranges ip ↔ Unobstructed ranges (ipv4Bits ip) := by
  have hload : LookupExact build ranges ip ↔ AgreesWithScan ranges (ipv4Bits ip)
      ((started ranges (ipv4Bits ip)).getLast?.bind fun c =>
        if c.Contains (ipv4Bits ip) then some c.country else none) := by
    rw [LookupExact, load_eq, ← lookup_finalize]
    simp
  rw [hload]
  generalize ipv4Bits ip = ip
  by_cases hany : ∃ r ∈ ranges, r.Contains ip
  · obtain ⟨r, hr, hip⟩ := hany
    obtain ⟨m, hm⟩ := exists_mostSpecific hr hip
    obtain ⟨c, hlast⟩ := exists_candidate hr (CidrRange.start_le hip)
    rw [hlast, Option.bind_some, ← (candidate_of_getLast? hlast).found_iff hm]
    constructor
    · rintro ⟨hnone, hsome⟩
      by_cases hcontains : c.Contains ip
      · exact ⟨hcontains, hsome c.country (if_pos hcontains)⟩
      · exact absurd hip (hnone.mp (if_neg hcontains) r hr)
    · rintro ⟨hcontains, hcountry⟩
      rw [if_pos hcontains]
      refine ⟨iff_of_false (by simp) (fun h => h r hr hip), ?_⟩
      rintro country ⟨⟩
      exact hcountry
  · simp only [not_exists, not_and] at hany
    refine iff_of_true ?_ fun r hr => absurd hr.contains (hany r hr.mem)
    have hnone : ((started ranges ip).getLast?.bind fun c =>
        if c.Contains ip then some c.country else none) = none := by
      refine Option.bind_eq_none_iff.mpr fun c hc => ?_
      exact if_neg (hany c (candidate_of_getLast? hc).mem)
    rw [hnone]
    exact ⟨iff_of_true rfl hany, fun _ h => nomatch h⟩

/-- No two ranges have an address in common. -/
def RangesDisjoint (ranges : List CidrRange) : Prop :=
  ∀ a ∈ ranges, ∀ b ∈ ranges, a ≠ b → ∀ ip, a.Contains ip → ¬ b.Contains ip

theorem lookupExact_of_disjoint (build : Build) {ranges : List CidrRange} (ip : Ipv4Addr)
    (h : RangesDisjoint ranges) : LookupExact build ranges ip := by
  refine (lookupExact_iff build ranges ip).mpr fun r hr => ⟨fun r' hr' hle => ?_, ?_⟩
  · by_cases heq : r' = r
    · exact heq ▸ BitVec.le_refl _
    -- a start between that of `r` and the address is in `r`
    · refine BitVec.not_lt.mp fun hlt => ?_
      have hlast := (CidrRange.contains_iff r _).mp hr.contains
      have hin : r.Contains r'.start :=
        (CidrRange.contains_iff r _).mpr ⟨BitVec.le_of_lt hlt, BitVec.le_trans hle hlast.2⟩
      exact h r' hr' r hr.mem heq r'.start r'.contains_start hin
  · intro latest hlatest
    obtain ⟨hmem, hstart⟩ := List.mem_filter.mp (List.mem_of_getLast? hlatest)
    have heq : latest = r := by
      by_contra hne
      refine h latest hmem r hr.mem hne latest.start latest.contains_start ?_
      rw [of_decide_eq_true hstart]
      exact r.contains_start
    rw [heq]
    exact ⟨UInt8.le_refl _, fun hlt => absurd hlt (UInt8.lt_irrefl _)⟩

/-- 10.0.0.0/8 is in one country, 10.1.0.0/16 in another. -/
def nestedRanges : List CidrRange :=
  [{ network := 0x0A000000, prefixLen := 8, country := ⟨[0x49, 0x52], rfl⟩
     pos := by decide, le_width := by decide },
    { network := 0x0A010000, prefixLen := 16, country := ⟨[0x44, 0x45], rfl⟩
      pos := by decide, le_width := by decide }]

/-- 10.2.0.1 is in the first of them and is not found. -/
theorem lookup_behind_nested :
    ¬ (∀ (build : Build) (ranges : List CidrRange) (ip : Ipv4Addr), LookupExact build ranges ip)
      ∧ (∃ r ∈ nestedRanges, r.Contains (ipv4Bits ⟨[10, 2, 0, 1], rfl⟩))
      ∧ (load .checked nestedRanges).map (·.finalize.lookup (.v4 ⟨[10, 2, 0, 1], rfl⟩))
        = some none := by
  have hin : ∃ r ∈ nestedRanges, r.Contains (ipv4Bits ⟨[10, 2, 0, 1], rfl⟩) := by decide
  have hfound : (load .checked nestedRanges).map (·.finalize.lookup (.v4 ⟨[10, 2, 0, 1], rfl⟩))
      = some none := by decide +kernel
  refine ⟨fun h => ?_, hin, hfound⟩
  obtain ⟨db, hdb, hscan⟩ := h .checked nestedRanges ⟨[10, 2, 0, 1], rfl⟩
  rw [hdb, Option.map_some, Option.some.injEq] at hfound
  obtain ⟨r, hr, hip⟩ := hin
  exact hscan.1.mp hfound r hr hip

end Kanrin
