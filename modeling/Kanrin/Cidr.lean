import Kanrin.Lib.BitPrefix
import Kanrin.Build
import Kanrin.Packets

/-!
# CIDR prefixes

`ip_in_cidr` of `kanrin-routing/src/rules.rs` and `add_ipv4_range` of
`geoip.rs`. Both shift a word of ones by what the prefix leaves of the width.
A prefix of length 0 leaves the whole width, which is a shift too far
(`cidrExact_iff`); every other length is a prefix of that length.
-/

namespace Kanrin

open Lib

/-! ## The mask -/

/-- `mask`: once for 32 bits and once for 128 in `ip_in_cidr`, and again for
32 bits in `add_ipv4_range`. -/
def cidrMask (build : Build) (w : Nat) (prefixLen : UInt8) : Option (BitVec w) :=
  if prefixLen.toNat ≥ w then some (BitVec.allOnes w)
  else build.shl (BitVec.allOnes w) (w - prefixLen.toNat)

theorem cidrMask_of_ne_zero {prefixLen : UInt8} (build : Build) (w : Nat) (h : prefixLen ≠ 0) :
    cidrMask build w prefixLen = some (prefixMask w prefixLen.toNat) := by
  have hpos : 0 < prefixLen.toNat := by
    rw [← UInt8.toNat_inj.ne, UInt8.toNat_zero] at h
    omega
  unfold cidrMask
  split
  · rename_i hge
    rw [prefixMask, Nat.sub_eq_zero_of_le hge, BitVec.shiftLeft_zero]
  · exact build.shl_of_lt _ (by omega)

theorem cidrMask_checked_zero {w : Nat} (h : 0 < w) : cidrMask .checked w 0 = none := by
  have hzero : (0 : UInt8).toNat = 0 := rfl
  rw [cidrMask, if_neg (by omega)]
  exact if_neg (by omega)

/-- Without overflow checks a prefix of length 0 is the whole word. -/
theorem cidrMask_wrapping_zero (w : Nat) :
    cidrMask .wrapping w 0 = some (BitVec.allOnes w) := by
  unfold cidrMask
  split
  · rfl
  · exact Build.wrapping_shl_width _

/-! ## Matching -/

/-- `u32::from`. -/
def ipv4Bits (ip : Ipv4Addr) : BitVec 32 := BitVec.ofNat 32 (beNat ip.toList)

/-- `u128::from`. -/
def ipv6Bits (ip : Ipv6Addr) : BitVec 128 := BitVec.ofNat 128 (beNat ip.toList)

def ipInCidr (build : Build) (ip network : IpAddr) (prefixLen : UInt8) : Option Bool :=
  match ip, network with
  | .v4 ip, .v4 net =>
      (cidrMask build 32 prefixLen).map fun mask =>
        ipv4Bits ip &&& mask == ipv4Bits net &&& mask
  | .v6 ip, .v6 net =>
      (cidrMask build 128 prefixLen).map fun mask =>
        ipv6Bits ip &&& mask == ipv6Bits net &&& mask
  | _, _ => some false

/-- Addresses of one family whose first bits agree. -/
def SharePrefix (prefixLen : Nat) : IpAddr → IpAddr → Prop
  | .v4 ip, .v4 net => AgreeOn prefixLen (ipv4Bits ip) (ipv4Bits net)
  | .v6 ip, .v6 net => AgreeOn prefixLen (ipv6Bits ip) (ipv6Bits net)
  | _, _ => False

instance (prefixLen : Nat) (ip network : IpAddr) : Decidable (SharePrefix prefixLen ip network) :=
  match ip, network with
  | .v4 ip, .v4 net => inferInstanceAs (Decidable (AgreeOn _ (ipv4Bits ip) (ipv4Bits net)))
  | .v6 ip, .v6 net => inferInstanceAs (Decidable (AgreeOn _ (ipv6Bits ip) (ipv6Bits net)))
  | .v4 _, .v6 _ => isFalse id
  | .v6 _, .v4 _ => isFalse id

theorem ipInCidr_of_ne_zero {prefixLen : UInt8} (build : Build) (ip network : IpAddr)
    (h : prefixLen ≠ 0) :
    ipInCidr build ip network prefixLen
      = some (decide (SharePrefix prefixLen.toNat ip network)) := by
  cases ip <;> cases network
  case v4.v4 ip net =>
    rw [ipInCidr, cidrMask_of_ne_zero build 32 h]
    exact congrArg some (decide_eq_decide.mpr and_prefixMask_eq_iff)
  case v6.v6 ip net =>
    rw [ipInCidr, cidrMask_of_ne_zero build 128 h]
    exact congrArg some (decide_eq_decide.mpr and_prefixMask_eq_iff)
  case v4.v6 | v6.v4 => rfl

/-- Without overflow checks there is no panic. -/
theorem isSome_ipInCidr_wrapping (ip network : IpAddr) (prefixLen : UInt8) :
    (ipInCidr .wrapping ip network prefixLen).isSome := by
  by_cases h : prefixLen = 0
  · subst h
    cases ip <;> cases network <;> simp [ipInCidr, cidrMask_wrapping_zero]
  · rw [ipInCidr_of_ne_zero .wrapping ip network h]
    rfl

/-! ## Ranges -/

/-- `CountryCode`: two bytes. -/
abbrev CountryCode := ByteArr 2

/-- `Ipv4Range`; `last` is `end`. -/
structure Ipv4Range where
  start : BitVec 32
  last : BitVec 32
  country : CountryCode
deriving DecidableEq

structure GeoIpDatabase where
  ipv4Ranges : List Ipv4Range
deriving DecidableEq

namespace GeoIpDatabase

def new : GeoIpDatabase where
  ipv4Ranges := []

def addIpv4Range (build : Build) (db : GeoIpDatabase) (network : BitVec 32) (prefixLen : UInt8)
    (country : CountryCode) : Option GeoIpDatabase :=
  (cidrMask build 32 prefixLen).map fun mask =>
    let start := network &&& mask
    let last := start ||| ~~~mask
    { ipv4Ranges := db.ipv4Ranges ++ [{ start, last, country }] }

end GeoIpDatabase

/-- The range of a prefix. -/
def rangeOf (network : BitVec 32) (prefixLen : UInt8) (country : CountryCode) : Ipv4Range where
  start := firstWith prefixLen.toNat network
  last := lastWith prefixLen.toNat network
  country := country

theorem addIpv4Range_of_ne_zero {prefixLen : UInt8} (build : Build) (db : GeoIpDatabase)
    (network : BitVec 32) (country : CountryCode) (h : prefixLen ≠ 0) :
    db.addIpv4Range build network prefixLen country
      = some { ipv4Ranges := db.ipv4Ranges ++ [rangeOf network prefixLen country] } := by
  rw [GeoIpDatabase.addIpv4Range, cidrMask_of_ne_zero build 32 h]
  rfl

/-! ## What is asked of a prefix -/

/-- The range added for a prefix runs from the first address with it to the last. -/
def StoresRange (build : Build) (db : GeoIpDatabase) (network : BitVec 32) (prefixLen : UInt8)
    (country : CountryCode) : Prop :=
  ∃ start last, db.addIpv4Range build network prefixLen country
      = some { ipv4Ranges := db.ipv4Ranges ++ [{ start, last, country }] }
    ∧ IsLeast {x | AgreeOn prefixLen.toNat network x} start
    ∧ IsGreatest {x | AgreeOn prefixLen.toNat network x} last

/-- A checked build shows whether a shift overflows. -/
structure CidrExact (build : Build) (ip network : IpAddr) (prefixLen : UInt8)
    (db : GeoIpDatabase) (range : BitVec 32) (country : CountryCode) : Prop where
  matches_eq : ipInCidr build ip network prefixLen
    = some (decide (SharePrefix prefixLen.toNat ip network))
  stores : StoresRange build db range prefixLen country
  noOverflow : (ipInCidr .checked ip network prefixLen).isSome
    ∧ (db.addIpv4Range .checked range prefixLen country).isSome

theorem storesRange_of_ne_zero {prefixLen : UInt8} (build : Build) (db : GeoIpDatabase)
    (network : BitVec 32) (country : CountryCode) (h : prefixLen ≠ 0) :
    StoresRange build db network prefixLen country :=
  ⟨_, _, addIpv4Range_of_ne_zero build db network country h,
    isLeast_firstWith _ network, isGreatest_lastWith _ network⟩

/-- What is stored for a prefix of length 0 is one address. -/
theorem not_storesRange_zero (build : Build) (db : GeoIpDatabase) (network : BitVec 32)
    (country : CountryCode) : ¬ StoresRange build db network 0 country := by
  rintro ⟨start, last, hadd, hfirst, hlast⟩
  have hall : ∀ x, AgreeOn (0 : UInt8).toNat network x := fun x i hi =>
    absurd hi (by simp)
  cases build with
  | checked => simp [GeoIpDatabase.addIpv4Range, cidrMask_checked_zero] at hadd
  | wrapping =>
      simp only [GeoIpDatabase.addIpv4Range, cidrMask_wrapping_zero, Option.map_some,
        BitVec.and_allOnes, BitVec.not_allOnes, BitVec.or_zero, Option.some.injEq,
        GeoIpDatabase.mk.injEq, List.append_cancel_left_eq, List.cons.injEq, Ipv4Range.mk.injEq,
        and_true] at hadd
      obtain ⟨rfl, rfl⟩ := hadd
      have hzero : network ≤ 0#32 := hfirst.2 (hall _)
      have hones : BitVec.allOnes 32 ≤ network := hlast.2 (hall _)
      exact absurd (BitVec.le_trans hones hzero) (by decide)

theorem cidrExact_iff (build : Build) (ip network : IpAddr) (prefixLen : UInt8)
    (db : GeoIpDatabase) (range : BitVec 32) (country : CountryCode) :
    CidrExact build ip network prefixLen db range country ↔ prefixLen ≠ 0 := by
  constructor
  · rintro hexact rfl
    exact not_storesRange_zero build db range country hexact.stores
  · intro h
    refine ⟨ipInCidr_of_ne_zero build ip network h,
      storesRange_of_ne_zero build db range country h, ?_, ?_⟩
    · rw [ipInCidr_of_ne_zero .checked ip network h]
      rfl
    · rw [addIpv4Range_of_ne_zero .checked db range country h]
      rfl

/-- 8.8.8.8 is in 0.0.0.0/0; a checked build panics there, and a build
without checks says that it is not. -/
theorem any_address_not_in_cidr :
    ¬ (∀ (build : Build) (ip network : IpAddr) (prefixLen : UInt8) (db : GeoIpDatabase)
        (range : BitVec 32) (country : CountryCode), ip.isIpv4 = network.isIpv4 →
        CidrExact build ip network prefixLen db range country)
      ∧ SharePrefix 0 (.v4 ⟨[8, 8, 8, 8], rfl⟩) (.v4 ⟨[0, 0, 0, 0], rfl⟩)
      ∧ ipInCidr .wrapping (.v4 ⟨[8, 8, 8, 8], rfl⟩) (.v4 ⟨[0, 0, 0, 0], rfl⟩) 0 = some false
      ∧ ipInCidr .checked (.v4 ⟨[8, 8, 8, 8], rfl⟩) (.v4 ⟨[0, 0, 0, 0], rfl⟩) 0 = none := by
  refine ⟨fun h => ?_, by decide, by decide, by decide⟩
  have hexact := h .wrapping (.v4 ⟨[8, 8, 8, 8], rfl⟩) (.v4 ⟨[0, 0, 0, 0], rfl⟩) 0 .new 0
    ⟨[0x49, 0x52], rfl⟩ rfl
  exact absurd hexact.matches_eq (by decide)

end Kanrin
