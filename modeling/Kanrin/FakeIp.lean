import Mathlib.Data.Finset.Card
import Kanrin.Lib.Run
import Kanrin.Interception

/-!
# The pool over its calls

`FakeIpPool::allocate` of `kanrin-tun/src/dns.rs`, call after call. The pool
hands out its addresses in order, and begins again when it is through. What it
does not do is forget the domain that had the address before.
`always_consistent_iff`: the two maps say the same throughout a run exactly
if the run has no more domains than the pool has addresses.
-/

namespace Kanrin

open Lib

namespace FakeIp

/-! ## The system -/

structure World where
  pool : FakeIpPool
  /-- The call that was made last, and what it returned. -/
  last : Option (Bytes × Ipv4Addr)

def start : World where
  pool := .new
  last := none

/-- A call of `allocate`. -/
def step (w : World) (domain : Bytes) : Option World :=
  some
    { pool := (w.pool.allocate domain).2
      last := some (domain, (w.pool.allocate domain).1) }

structure Consistent (w : World) : Prop where
  last : ∀ d ip, w.last = some (d, ip) → w.pool.lookup ip = some d
  exclusive : ∀ d d' ip, w.pool.domainToIp d = some ip → w.pool.domainToIp d' = some ip → d = d'
  mirrored : ∀ d ip, w.pool.domainToIp d = some ip → w.pool.ipToDomain ip = some d

/-! ## The addresses of the pool -/

/-- 198.18.0.1 to 198.19.255.254. -/
def poolSize : Nat := 0x1FFFE

/-- The addresses in the order in which they are handed out. -/
def nth (i : Nat) : Ipv4Addr := u32ToBe (0xC6120001 + UInt32.ofNat i)

theorem toNat_offset {i : Nat} (h : i < poolSize) :
    (0xC6120001 + UInt32.ofNat i : UInt32).toNat = 0xC6120001 + i := by
  have hi : i < 0x1FFFE := h
  have hstart : (0xC6120001 : UInt32).toNat = 0xC6120001 := rfl
  rw [UInt32.toNat_add, UInt32.toNat_ofNat', hstart]
  omega

theorem nth_inj {i j : Nat} (hi : i < poolSize) (hj : j < poolSize) : nth i = nth j ↔ i = j := by
  constructor
  · intro h
    have hword := congrArg u32FromBe h
    rw [nth, nth, u32FromBe_toBe, u32FromBe_toBe] at hword
    have hnat := congrArg UInt32.toNat hword
    rw [toNat_offset hi, toNat_offset hj] at hnat
    omega
  · rintro rfl
    rfl

/-! ## The domains that have been served -/

/-- Where a domain stands when there is one more. -/
theorem getElem?_concat_eq_some_iff {l : List Bytes} {d e : Bytes} {i : Nat} :
    (l ++ [d])[i]? = some e ↔ l[i]? = some e ∨ (i = l.length ∧ d = e) := by
  rcases Nat.lt_trichotomy i l.length with hlt | rfl | hgt
  · rw [List.getElem?_append_left hlt]
    exact ⟨Or.inl, fun h => h.resolve_right fun hlast => hlt.ne hlast.1⟩
  · rw [List.getElem?_concat_length, Option.some.injEq, List.getElem?_eq_none le_rfl]
    simp
  · rw [List.getElem?_eq_none (by rw [List.length_append]; exact hgt),
      List.getElem?_eq_none hgt.le]
    exact iff_of_false (fun h => nomatch h) fun h =>
      h.elim (fun hsome => nomatch hsome) fun hlast => hgt.ne' hlast.1

/-- The domains `l` have been given the first addresses, in this order. -/
structure Serves (pool : FakeIpPool) (l : List Bytes) : Prop where
  nodup : l.Nodup
  length_le : l.length ≤ poolSize
  poolStart : pool.poolStart = 0xC6120001
  poolEnd : pool.poolEnd = 0xC613FFFE
  nextIp : pool.nextIp = 0xC6120001 + UInt32.ofNat (l.length % poolSize)
  domainToIp : ∀ d ip, pool.domainToIp d = some ip ↔ ∃ i, l[i]? = some d ∧ ip = nth i
  ipToDomain : ∀ i, i < l.length → pool.ipToDomain (nth i) = l[i]?

theorem serves_new : Serves .new [] where
  nodup := List.nodup_nil
  length_le := Nat.zero_le _
  poolStart := rfl
  poolEnd := rfl
  nextIp := rfl
  domainToIp d ip := by simp [FakeIpPool.new]
  ipToDomain i hi := absurd hi (Nat.not_lt_zero i)

namespace Serves

variable {pool : FakeIpPool} {l : List Bytes} {d : Bytes}

/-- Where each domain has an address of its own, the maps are consistent. -/
theorem consistent {w : World} (h : Serves w.pool l)
    (hlast : ∀ d ip, w.last = some (d, ip) → w.pool.domainToIp d = some ip) : Consistent w := by
  have hmirrored : ∀ d ip, w.pool.domainToIp d = some ip → w.pool.ipToDomain ip = some d := by
    intro d ip hd
    obtain ⟨i, hi, rfl⟩ := (h.domainToIp d ip).mp hd
    rw [h.ipToDomain i (List.getElem?_eq_some_iff.mp hi).1, hi]
  refine ⟨fun d ip hd => hmirrored d ip (hlast d ip hd), fun d d' ip hd hd' => ?_, hmirrored⟩
  exact Option.some.inj ((hmirrored d ip hd).symm.trans (hmirrored d' ip hd'))

/-- A domain that has been served keeps its address. -/
theorem allocate_of_mem (h : Serves pool l) (hd : d ∈ l) : (pool.allocate d).2 = pool := by
  obtain ⟨i, hi⟩ := List.mem_iff_getElem?.mp hd
  rw [FakeIpPool.allocate, (h.domainToIp d (nth i)).mpr ⟨i, hi, rfl⟩]

theorem domainToIp_eq_none (h : Serves pool l) (hd : d ∉ l) : pool.domainToIp d = none := by
  refine Option.eq_none_iff_forall_ne_some.mpr fun ip hip => ?_
  obtain ⟨i, hi, -⟩ := (h.domainToIp d ip).mp hip
  exact hd (List.mem_of_getElem? hi)

theorem nodup_concat (h : Serves pool l) (hd : d ∉ l) : (l ++ [d]).Nodup := by
  rw [← List.concat_eq_append]
  exact h.nodup.concat hd

/-- A domain that is new gets the address whose turn it is. -/
theorem allocate_of_not_mem (h : Serves pool l) (hd : d ∉ l) :
    pool.allocate d = (nth (l.length % poolSize),
      { pool with
        domainToIp := Function.update pool.domainToIp d (some (nth (l.length % poolSize)))
        ipToDomain := Function.update pool.ipToDomain (nth (l.length % poolSize)) (some d)
        nextIp :=
          if pool.nextIp + 1 > pool.poolEnd then pool.poolStart else pool.nextIp + 1 }) := by
  rw [FakeIpPool.allocate, h.domainToIp_eq_none hd, h.nextIp]
  rfl

/-- The cursor is at the start again when the last address has been handed out. -/
theorem nextIp_succ (h : Serves pool l) (hroom : l.length < poolSize) :
    (if pool.nextIp + 1 > pool.poolEnd then pool.poolStart else pool.nextIp + 1)
      = 0xC6120001 + UInt32.ofNat ((l.length + 1) % poolSize) := by
  have hsize : poolSize = 0x1FFFE := rfl
  have hend : (0xC613FFFE : UInt32).toNat = 0xC613FFFE := rfl
  have hnext : (pool.nextIp + 1).toNat = 0xC6120001 + l.length + 1 := by
    rw [UInt32.toNat_add, h.nextIp, Nat.mod_eq_of_lt hroom, toNat_offset hroom, UInt32.toNat_one]
    omega
  rw [h.poolStart, h.poolEnd]
  split
  · rename_i hlast
    rw [gt_iff_lt, UInt32.lt_iff_toNat_lt, hnext, hend] at hlast
    have hfull : l.length + 1 = poolSize := by omega
    rw [hfull, Nat.mod_self]
    rfl
  · rename_i hlast
    rw [gt_iff_lt, UInt32.lt_iff_toNat_lt, hnext, hend] at hlast
    have hmore : l.length + 1 < poolSize := by omega
    rw [← UInt32.toNat_inj, hnext, Nat.mod_eq_of_lt hmore, toNat_offset hmore]
    omega

theorem concat (h : Serves pool l) (hd : d ∉ l) (hroom : l.length < poolSize) :
    Serves (pool.allocate d).2 (l ++ [d]) := by
  have hturn : l.length % poolSize = l.length := Nat.mod_eq_of_lt hroom
  have hlen : (l ++ [d]).length = l.length + 1 := List.length_append
  rw [h.allocate_of_not_mem hd, hturn]
  refine ⟨h.nodup_concat hd, by omega, h.poolStart, h.poolEnd, ?_, fun e ip => ?_,
    fun i hi => ?_⟩
  · rw [hlen]
    exact h.nextIp_succ hroom
  · show Function.update pool.domainToIp d (some (nth l.length)) e = some ip ↔ _
    by_cases he : e = d
    · subst he
      rw [Function.update_self]
      constructor
      · rintro ⟨⟩
        exact ⟨l.length, List.getElem?_concat_length, rfl⟩
      · rintro ⟨i, hi, rfl⟩
        rcases getElem?_concat_eq_some_iff.mp hi with hold | ⟨rfl, -⟩
        · exact absurd (List.mem_of_getElem? hold) hd
        · rfl
    · rw [Function.update_of_ne he, h.domainToIp]
      refine exists_congr fun i => and_congr_left fun _ => ?_
      rw [getElem?_concat_eq_some_iff, or_iff_left fun hlast => he hlast.2.symm]
  · show Function.update pool.ipToDomain (nth l.length) (some d) (nth i) = _
    by_cases hlt : i < l.length
    · have hne : nth i ≠ nth l.length := by
        rw [Ne, nth_inj (hlt.trans hroom) hroom]
        omega
      rw [Function.update_of_ne hne, h.ipToDomain i hlt, List.getElem?_append_left hlt]
    · rw [show i = l.length by omega, Function.update_self, List.getElem?_concat_length]

/-- When all addresses are given away, a domain that is new gets one that
another still has. -/
theorem not_consistent_of_full {w w' : World} (h : Serves w.pool l) (hd : d ∉ l)
    (hfull : l.length = poolSize) (hstep : step w d = some w') : ¬ Consistent w' := by
  intro hw'
  obtain rfl := Option.some.inj hstep
  have hpos : 0 < l.length := hfull ▸ Nat.succ_pos _
  have hturn : l.length % poolSize = 0 := by rw [hfull, Nat.mod_self]
  have hfirst : w.pool.domainToIp l[0] = some (nth 0) :=
    (h.domainToIp _ _).mpr ⟨0, List.getElem?_eq_getElem hpos, rfl⟩
  have hne : l[0] ≠ d := fun heq => hd (heq ▸ List.getElem_mem hpos)
  refine hne (hw'.exclusive l[0] d (nth 0) ?_ ?_)
  · rw [h.allocate_of_not_mem hd]
    exact (Function.update_of_ne hne ..).trans hfirst
  · rw [h.allocate_of_not_mem hd, hturn]
    exact Function.update_self ..

end Serves

/-! ## A run -/

/-- How many different domains there are. -/
def distinct (domains : List Bytes) : Nat := domains.toFinset.card

theorem distinct_of_nodup {l : List Bytes} (h : l.Nodup) : distinct l = l.length :=
  List.toFinset_card_of_nodup h

/-- A domain again. -/
theorem distinct_append_cons_of_mem {l : List Bytes} {d : Bytes} (hd : d ∈ l)
    (domains : List Bytes) : distinct (l ++ d :: domains) = distinct (l ++ domains) := by
  refine congrArg Finset.card (Finset.ext fun e => ?_)
  simp only [List.mem_toFinset, List.mem_append, List.mem_cons]
  grind

/-- Those after it can only be more. -/
theorem length_lt_distinct {l : List Bytes} {d : Bytes} (h : (l ++ [d]).Nodup)
    (domains : List Bytes) : l.length < distinct (l ++ d :: domains) := by
  have hsub : (l ++ [d]).toFinset ⊆ (l ++ d :: domains).toFinset := by
    intro e
    simp only [List.mem_toFinset, List.mem_append, List.mem_cons]
    grind
  have hmore : distinct (l ++ [d]) = l.length + 1 := by
    rw [distinct_of_nodup h, List.length_append, List.length_singleton]
  calc l.length < distinct (l ++ [d]) := by omega
    _ ≤ distinct (l ++ d :: domains) := Finset.card_le_card hsub

theorem always_consistent_of_serves {w : World} {l : List Bytes} (h : Serves w.pool l)
    (hw : Consistent w) (domains : List Bytes) :
    Always step Consistent w domains ↔ distinct (l ++ domains) ≤ poolSize := by
  induction domains generalizing w l with
  | nil =>
      rw [List.append_nil, distinct_of_nodup h.nodup]
      exact iff_of_true hw h.length_le
  | cons d domains ih =>
      have hlast : ∀ e ip, some (d, (w.pool.allocate d).1) = some (e, ip) →
          (w.pool.allocate d).2.domainToIp e = some ip := by
        rintro e ip ⟨⟩
        exact w.pool.domainToIp_allocate d
      have hrest : Always step Consistent w (d :: domains) ↔ Always step Consistent
          { pool := (w.pool.allocate d).2, last := some (d, (w.pool.allocate d).1) } domains :=
        ⟨fun hall => hall.2 _ rfl, fun hall => ⟨hw, fun _ ht => Option.some.inj ht ▸ hall⟩⟩
      rw [hrest]
      by_cases hd : d ∈ l
      · have hserves : Serves (w.pool.allocate d).2 l := (h.allocate_of_mem hd).symm ▸ h
        rw [distinct_append_cons_of_mem hd]
        exact ih hserves (hserves.consistent hlast)
      · by_cases hroom : l.length < poolSize
        · have hserves := h.concat hd hroom
          rw [List.append_cons]
          exact ih hserves (hserves.consistent hlast)
        · have hfull : l.length = poolSize := Nat.le_antisymm h.length_le (Nat.le_of_not_lt hroom)
          have hmore := length_lt_distinct (h.nodup_concat hd) domains
          exact iff_of_false (fun hall => h.not_consistent_of_full hd hfull rfl hall.head)
            (by omega)

theorem consistent_start : Consistent start :=
  serves_new.consistent fun _ _ h => nomatch h

/-- The maps are consistent at all times exactly if there are no more domains
than addresses. -/
theorem always_consistent_iff (domains : List Bytes) :
    Always step Consistent start domains ↔ distinct domains ≤ poolSize := by
  have hrun := always_consistent_of_serves serves_new consistent_start domains
  rwa [List.nil_append] at hrun

/-- Four letters for a number. -/
def lettersFor (n : Nat) : Bytes :=
  [UInt8.ofNat (0x61 + n / 26 ^ 3 % 26), UInt8.ofNat (0x61 + n / 26 ^ 2 % 26),
    UInt8.ofNat (0x61 + n / 26 % 26), UInt8.ofNat (0x61 + n % 26)]

theorem letter_inj {a b : Nat}
    (h : UInt8.ofNat (0x61 + a % 26) = UInt8.ofNat (0x61 + b % 26)) : a % 26 = b % 26 := by
  rw [← UInt8.toNat_inj, UInt8.toNat_ofNat', UInt8.toNat_ofNat'] at h
  omega

theorem lettersFor_inj {m n : Nat} (hm : m < 26 ^ 4) (hn : n < 26 ^ 4)
    (h : lettersFor m = lettersFor n) : m = n := by
  simp only [lettersFor, List.cons.injEq, and_true] at h
  obtain ⟨h3, h2, h1, h0⟩ := h
  have hthird := letter_inj h3
  have hsecond := letter_inj h2
  have hfirst := letter_inj h1
  have hlast := letter_inj h0
  clear h3 h2 h1 h0
  omega

/-- aaaa, aaab, and so on. -/
def names (n : Nat) : List Bytes := (List.range n).map lettersFor

theorem distinct_names {n : Nat} (hn : n ≤ 26 ^ 4) : distinct (names n) = n := by
  have hnodup : (names n).Nodup := by
    refine List.Nodup.map_on (fun i hi j hj => ?_) List.nodup_range
    rw [List.mem_range] at hi hj
    exact lettersFor_inj (by omega) (by omega)
  rw [distinct_of_nodup hnodup, names, List.length_map, List.length_range]

theorem not_always_of_lt {n : Nat} (hlt : poolSize < n) (hn : n ≤ 26 ^ 4) :
    ¬ Always step Consistent start (names n) := by
  intro hall
  have hle := (always_consistent_of_serves serves_new consistent_start (names n)).mp hall
  rw [List.nil_append, distinct_names hn] at hle
  omega

/-- One domain more than there are addresses. -/
theorem not_always_consistent : ¬ Always step Consistent start (names 131071) :=
  not_always_of_lt (by decide) (by decide)

end FakeIp

end Kanrin
