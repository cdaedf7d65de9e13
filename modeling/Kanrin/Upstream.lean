import Kanrin.Build
import Kanrin.HeadReading

/-!
# The upstream origin

`fetch_upstream` and `complete_response_len` of `kanrin-server/src/origin.rs`.
The front door reads a response until it can tell that it is complete,
until the upstream closes, or until there is too much of it; when none of
these comes in time it answers with an error of its own.

It can tell by a `Content-Length` only, and adds that to where the head ends
before it has looked at it (`lengthExact_iff`). A response that is delimited
otherwise is returned when the upstream closes behind it
(`respond_verbatim_iff`).
-/

namespace Kanrin

open Lib

/-! ## Responses of the front door itself -/

/-- `Response`; the order of the headers is kept. -/
structure Response where
  status : Nat
  reason : String
  headers : List (String × Bytes)
  body : Bytes

namespace Response

def new (status : Nat) (reason : String) : Response where
  status := status
  reason := reason
  headers := []
  body := []

def encode (r : Response) : Bytes :=
  ascii "HTTP/1.1 " ++ ascii (toString r.status) ++ ascii " " ++ ascii r.reason ++ crlf
    ++ (r.headers.flatMap fun (name, value) => ascii name ++ ascii ": " ++ value ++ crlf)
    ++ ascii "Content-Length: " ++ ascii (toString r.body.length) ++ crlf ++ crlf ++ r.body

end Response

def badGateway : Bytes := (Response.new 502 "Bad Gateway").encode

/-! ## When a response is complete -/

/-- The closure of `find_map`: a line that gives the length. -/
def lengthOfLine (line : Bytes) : Option Nat :=
  match splitOnce 0x3A line with
  | none => none
  | some (name, value) =>
      if eqIgnoreAsciiCase name (ascii "content-length") then fromStrRadix 10 64 (trim value)
      else none

/-- Where the head ends, and the first length it declares that is a number. -/
def announced (buf : Bytes) : Option (Nat × Nat) := do
  let headEnd := (← findHeadEnd buf) + 4
  let head := buf.take headEnd
  if !isUtf8 head then none
  else
    let length ← (split crlf head).findSome? lengthOfLine
    return (headEnd, length)

/-- `complete_response_len`; `none` is a panic. -/
def completeResponseLen (build : Build) (buf : Bytes) : Option (Option Nat) :=
  match announced buf with
  | none => some none
  | some (headEnd, length) => do
      let needed ← build.add headEnd length
      -- `then_some` has its argument computed whether it is used or not
      let total ← build.add headEnd length
      return if needed ≤ buf.length then some total else none

/-- It returns, and what it returns is the end of the response where that
has arrived. -/
structure LengthExact (build : Build) (buf : Bytes) : Prop where
  returns : completeResponseLen build buf ≠ none
  total_iff : ∀ total, completeResponseLen build buf = some (some total) ↔
    ∃ headEnd length, announced buf = some (headEnd, length) ∧ total = headEnd + length
      ∧ total ≤ buf.length

theorem announced_eq_some {buf : Bytes} {headEnd length : Nat}
    (h : announced buf = some (headEnd, length)) :
    ∃ n, findHeadEnd buf = some n ∧ headEnd = n + 4 ∧ isUtf8 (buf.take headEnd) = true
      ∧ (split crlf (buf.take headEnd)).findSome? lengthOfLine = some length := by
  obtain ⟨n, hn, h⟩ := Option.bind_eq_some_iff.mp h
  dsimp only at h
  split at h
  · cases h
  rename_i hutf8
  obtain ⟨length', hlength, heq⟩ := Option.bind_eq_some_iff.mp h
  obtain ⟨rfl, rfl⟩ := Prod.mk.inj (Option.some.inj heq)
  exact ⟨n, hn, rfl, by simpa using hutf8, hlength⟩

theorem lt_of_lengthOfLine {line : Bytes} {length : Nat} (h : lengthOfLine line = some length) :
    length < 2 ^ 64 := by
  rw [lengthOfLine] at h
  split at h
  · cases h
  split at h
  · exact lt_of_fromStrRadix h
  · cases h

theorem bounds_of_announced {buf : Bytes} {headEnd length : Nat}
    (h : announced buf = some (headEnd, length)) : headEnd ≤ buf.length ∧ length < 2 ^ 64 := by
  obtain ⟨n, hn, rfl, -, hlength⟩ := announced_eq_some h
  obtain ⟨line, -, hline⟩ := List.exists_of_findSome?_eq_some hlength
  exact ⟨findHeadEnd_le hn, lt_of_lengthOfLine hline⟩

/-- Without overflow, both builds add. -/
theorem completeResponseLen_of_lt {buf : Bytes} {headEnd length : Nat} (build : Build)
    (h : announced buf = some (headEnd, length)) (hlt : headEnd + length < 2 ^ 64) :
    completeResponseLen build buf
      = some (if headEnd + length ≤ buf.length then some (headEnd + length) else none) := by
  have hadd : build.add headEnd length = some (headEnd + length) := by
    cases build with
    | checked => exact if_pos hlt
    | wrapping => exact congrArg some (Nat.mod_eq_of_lt hlt)
  rw [completeResponseLen, h]
  dsimp only
  rw [hadd]
  rfl

/-- With it, one panics and the other ends the response before its body
begins. -/
theorem completeResponseLen_of_ge {buf : Bytes} {headEnd length : Nat} (build : Build)
    (h : announced buf = some (headEnd, length)) (hge : 2 ^ 64 ≤ headEnd + length) :
    completeResponseLen build buf = none
      ∨ ∃ total, completeResponseLen build buf = some (some total) ∧ total < headEnd := by
  obtain ⟨hhead, hlength⟩ := bounds_of_announced h
  rw [completeResponseLen, h]
  cases build with
  | checked =>
      refine Or.inl ?_
      have hadd : Build.checked.add headEnd length = none := if_neg (by omega)
      dsimp only
      rw [hadd]
      rfl
  | wrapping =>
      have hwrap : (headEnd + length) % 2 ^ 64 ≤ headEnd + length - 2 ^ 64 := by
        rw [Nat.mod_eq_sub_mod hge]
        exact Nat.mod_le ..
      refine Or.inr ⟨(headEnd + length) % 2 ^ 64, ?_, by omega⟩
      have hadd : Build.wrapping.add headEnd length = some ((headEnd + length) % 2 ^ 64) := rfl
      dsimp only
      rw [hadd]
      exact congrArg some (if_pos (by omega))

theorem not_lengthExact_of_ge {buf : Bytes} {headEnd length : Nat} {build : Build}
    (h : announced buf = some (headEnd, length)) (hge : 2 ^ 64 ≤ headEnd + length) :
    ¬ LengthExact build buf := by
  intro hexact
  rcases completeResponseLen_of_ge build h hge with hnone | ⟨total, htotal, hlt⟩
  · exact hexact.returns hnone
  · obtain ⟨headEnd', length', h', rfl, -⟩ := (hexact.total_iff total).mp htotal
    obtain ⟨rfl, rfl⟩ := Prod.mk.inj (Option.some.inj (h.symm.trans h'))
    omega

/-- In either build the length is exact for precisely the buffers whose
declared end is a `usize`. -/
theorem lengthExact_iff (build : Build) (buf : Bytes) :
    LengthExact build buf ↔
      ∀ headEnd length, announced buf = some (headEnd, length) → headEnd + length < 2 ^ 64 := by
  constructor
  · intro hexact headEnd length h
    by_contra hge
    exact not_lengthExact_of_ge h (not_lt.mp hge) hexact
  · intro hlt
    cases h : announced buf with
    | none =>
        have hread : completeResponseLen build buf = some none := by
          rw [completeResponseLen, h]
        refine ⟨?_, fun total => ?_⟩
        · rw [hread]
          exact fun h => nomatch h
        · rw [hread]
          refine iff_of_false (fun h => nomatch h) ?_
          rintro ⟨headEnd, length, hsome, -⟩
          cases h.symm.trans hsome
    | some p =>
        obtain ⟨headEnd, length⟩ := p
        have hread := completeResponseLen_of_lt build h (hlt headEnd length h)
        refine ⟨?_, fun total => ?_⟩
        · rw [hread]
          exact fun h => nomatch h
        · rw [hread, Option.some.injEq, Option.ite_none_right_eq_some, Option.some.injEq]
          constructor
          · rintro ⟨hle, rfl⟩
            exact ⟨headEnd, length, h, rfl, hle⟩
          · rintro ⟨headEnd', length', hsome, rfl, hle⟩
            obtain ⟨rfl, rfl⟩ := Prod.mk.inj (Option.some.inj (h.symm.trans hsome))
            exact ⟨hle, rfl⟩

/-- The largest length there is. -/
def largest : Bytes := ascii "HTTP/1.1 200 OK\r\nContent-Length: 18446744073709551615\r\n\r\n"

-- with checks the addition panics, and without them the head loses a byte
example : completeResponseLen .checked largest = none
    ∧ completeResponseLen .wrapping largest = some (some (largest.length - 1)) := by
  decide +kernel

theorem length_overflows :
    ¬ (∀ buf : Bytes, LengthExact .checked buf) ∧ ¬ ∀ buf : Bytes, LengthExact .wrapping buf := by
  have h : announced largest = some (57, 2 ^ 64 - 1) := by decide +kernel
  have hnot : ∀ build : Build, ¬ LengthExact build largest :=
    fun build => not_lengthExact_of_ge h (by omega)
  exact ⟨fun hall => hnot .checked (hall largest), fun hall => hnot .wrapping (hall largest)⟩

/-! ## Reading a response -/

def maxUpstreamBytes : Nat := 8 * 1024 * 1024

theorem maxUpstreamBytes_lt : maxUpstreamBytes < 2 ^ 64 := by decide

/-- What the upstream does when it has sent all that it sends. -/
inductive Ending where
  | closed
  | silent
deriving DecidableEq

inductive Fetched where
  | response (bytes : Bytes)
  | timedOut
  | panicked

/-- The loop of `fetch_upstream`, from what has been read so far. A read
brings some bytes, or the end. -/
def fetchFrom (build : Build) (response : Bytes) : List Bytes → Ending → Fetched
  | [], .closed => .response response
  | [], .silent => .timedOut
  | read :: reads, ending =>
      let response := response ++ read
      if maxUpstreamBytes ≤ response.length then .response response
      else
        match completeResponseLen build response with
        | none => .panicked
        | some (some total) => .response (response.take total)
        | some none => fetchFrom build response reads ending

/-- `Origin::respond` with an upstream, unless it panics. -/
def respondUpstream (build : Build) (reads : List Bytes) (ending : Ending) : Option Bytes :=
  match fetchFrom build [] reads ending with
  | .response bytes => some bytes
  | .timedOut => some badGateway
  | .panicked => none

theorem completeResponseLen_wrapping (buf : Bytes) : completeResponseLen .wrapping buf ≠ none := by
  rw [completeResponseLen]
  split
  · rintro ⟨⟩
  · rintro ⟨⟩

/-- A build without overflow checks always has an answer. -/
theorem respondUpstream_wrapping (reads : List Bytes) (ending : Ending) :
    (respondUpstream .wrapping reads ending).isSome = true := by
  have hfetch : ∀ response, fetchFrom .wrapping response reads ending ≠ .panicked := by
    induction reads with
    | nil =>
        intro response
        cases ending <;> rintro ⟨⟩
    | cons read reads ih =>
        intro response
        rw [fetchFrom]
        split
        · rintro ⟨⟩
        split
        · rename_i hnone
          exact absurd hnone (completeResponseLen_wrapping _)
        · rintro ⟨⟩
        · exact ih _
  rw [respondUpstream]
  split
  · rfl
  · rfl
  · rename_i hpanicked
    exact absurd hpanicked (hfetch [])

/-! ## Where a response could be told to end -/

/-- The head and a length it declares make up the response. -/
def SelfDelimited (r : Bytes) : Prop :=
  ∃ headEnd length, announced r = some (headEnd, length) ∧ headEnd + length = r.length

/-- The declared end is no `usize`. -/
def Overflows (r : Bytes) : Prop :=
  ∃ headEnd length, announced r = some (headEnd, length) ∧ 2 ^ 64 ≤ headEnd + length

instance (r : Bytes) : Decidable (SelfDelimited r) :=
  decidable_of_iff ((announced r).any fun x => decide (x.1 + x.2 = r.length)) (by
    simp [SelfDelimited, Option.any_eq_true])

instance (r : Bytes) : Decidable (Overflows r) :=
  decidable_of_iff ((announced r).any fun x => decide (2 ^ 64 ≤ x.1 + x.2)) (by
    simp [Overflows, Option.any_eq_true])

/-- How much has arrived with the read that brings the `need`-th byte. -/
def arrivedWith (need : Nat) : (arrived : Nat) → List Bytes → Nat
  | arrived, [] => arrived
  | arrived, read :: reads =>
      if need ≤ arrived + read.length then arrived + read.length
      else arrivedWith need (arrived + read.length) reads

/-- A response and what follows it, as they are read. -/
structure Arrives (r following : Bytes) (reads : List Bytes) : Prop where
  flatten : reads.flatten = r ++ following
  read : ∀ read ∈ reads, read ≠ [] ∧ read.length ≤ 8192

instance (r following : Bytes) (reads : List Bytes) : Decidable (Arrives r following reads) :=
  decidable_of_iff (reads.flatten = r ++ following ∧ ∀ read ∈ reads, read ≠ [] ∧ read.length ≤ 8192)
    ⟨fun h => ⟨h.1, h.2⟩, fun h => ⟨h.flatten, h.read⟩⟩

/-- Where the loop comes to return the response and nothing else. -/
def ReturnedWhole (r following : Bytes) (reads : List Bytes) (ending : Ending) : Prop :=
  (SelfDelimited r ∧ (arrivedWith r.length 0 reads < maxUpstreamBytes
      ∨ arrivedWith r.length 0 reads = r.length))
    ∨ (¬ SelfDelimited r ∧ ((ending = .closed ∧ following = [] ∧ ¬ Overflows r)
      ∨ (r.length = maxUpstreamBytes ∧ arrivedWith r.length 0 reads = r.length)))

instance (r following : Bytes) (reads : List Bytes) (ending : Ending) :
    Decidable (ReturnedWhole r following reads ending) := inferInstanceAs (Decidable (_ ∨ _))

/-- The loop once a read has been added. -/
def proceed (build : Build) (response : Bytes) (reads : List Bytes) (ending : Ending) : Fetched :=
  if maxUpstreamBytes ≤ response.length then .response response
  else
    match completeResponseLen build response with
    | none => .panicked
    | some (some total) => .response (response.take total)
    | some none => fetchFrom build response reads ending

/-- Until the `need`-th byte has arrived, the loop goes on if nothing
shorter is complete. -/
theorem fetchFrom_reaches {build : Build} {s response : Bytes} {reads : List Bytes}
    {need : Nat} {ending : Ending}
    (hnone : ∀ p, p <+: s → p.length < need → completeResponseLen build p = some none)
    (hmax : need ≤ maxUpstreamBytes) (hs : response ++ reads.flatten = s)
    (hlt : response.length < need) (hneed : need ≤ s.length) :
    ∃ response' reads', fetchFrom build response reads ending
        = proceed build response' reads' ending
      ∧ response' ++ reads'.flatten = s ∧ (∀ read ∈ reads', read ∈ reads)
      ∧ response'.length = arrivedWith need response.length reads
      ∧ need ≤ response'.length := by
  induction reads generalizing response with
  | nil =>
      rw [← hs, List.flatten_nil, List.append_nil] at hneed
      omega
  | cons read reads ih =>
      have hs' : (response ++ read) ++ reads.flatten = s := by
        rw [← hs, List.flatten_cons, List.append_assoc]
      have hlen : (response ++ read).length = response.length + read.length :=
        List.length_append
      rw [arrivedWith]
      by_cases hreach : need ≤ response.length + read.length
      · refine ⟨response ++ read, reads, rfl, hs', fun _ h => List.mem_cons_of_mem _ h, ?_, ?_⟩
        · rw [if_pos hreach, hlen]
        · rw [hlen]
          exact hreach
      · obtain ⟨response', reads', hfetch, hrest, hmem, harrived, hle⟩ :=
          ih hs' (by omega)
        refine ⟨response', reads', ?_, hrest, fun _ h => List.mem_cons_of_mem _ (hmem _ h), ?_, hle⟩
        · rw [← hfetch, fetchFrom, if_neg (by omega), hnone _ ⟨_, hs'⟩ (by omega)]
        · rw [if_neg hreach, harrived, hlen]

/-- What the loop returns: all that has been read, a complete response, or
what comes of reading on. -/
theorem proceed_eq_response {build : Build} {response x : Bytes} {reads : List Bytes}
    {ending : Ending} (h : proceed build response reads ending = .response x) :
    x = response
      ∨ (∃ total, completeResponseLen build response = some (some total)
        ∧ x = response.take total)
      ∨ fetchFrom build response reads ending = .response x := by
  rw [proceed] at h
  split at h
  · exact Or.inl (Fetched.response.inj h).symm
  split at h
  · cases h
  · rename_i total htotal
    exact Or.inr (Or.inl ⟨total, htotal, (Fetched.response.inj h).symm⟩)
  · exact Or.inr (Or.inr h)

/-- Once there is more than `n` bytes, no less is returned, if nothing as
short as that is complete. -/
theorem length_of_fetchFrom {build : Build} {s response x : Bytes} {reads : List Bytes}
    {ending : Ending} {n : Nat}
    (hlong : ∀ p total, p <+: s → completeResponseLen build p = some (some total) →
      n < total ∧ total ≤ p.length)
    (hs : response ++ reads.flatten = s) (hlt : n < response.length)
    (h : fetchFrom build response reads ending = .response x) : n < x.length := by
  induction reads generalizing response with
  | nil =>
      cases ending with
      | closed =>
          obtain rfl := Fetched.response.inj h
          exact hlt
      | silent => cases h
  | cons read reads ih =>
      have hs' : (response ++ read) ++ reads.flatten = s := by
        rw [← hs, List.flatten_cons, List.append_assoc]
      have hlt' : n < (response ++ read).length := by
        rw [List.length_append]
        omega
      have hproceed : proceed build (response ++ read) reads ending = .response x := h
      rcases proceed_eq_response hproceed with rfl | ⟨total, htotal, rfl⟩ | h
      · exact hlt'
      · obtain ⟨h1, h2⟩ := hlong _ total ⟨_, hs'⟩ htotal
        rw [List.length_take]
        omega
      · exact ih hs' hlt' h

theorem length_of_proceed {build : Build} {s response x : Bytes} {reads : List Bytes}
    {ending : Ending} {n : Nat}
    (hlong : ∀ p total, p <+: s → completeResponseLen build p = some (some total) →
      n < total ∧ total ≤ p.length)
    (hs : response ++ reads.flatten = s) (hlt : n < response.length)
    (h : proceed build response reads ending = .response x) : n < x.length := by
  -- going on with the buffer is a read that brings nothing
  have hread : fetchFrom build response ([] :: reads) ending = .response x := by
    rw [← h, fetchFrom, proceed, List.append_nil]
  have hrest : response ++ ([] :: reads).flatten = s := hs
  exact length_of_fetchFrom hlong hrest hlt hread

/-! ## What the head of a response declares -/

section
variable {r following : Bytes} {n : Nat} (hend : findHeadEnd r = some n)
include hend

theorem announced_of_short {p : Bytes} (hp : p <+: r ++ following) (hlt : p.length < n + 4) :
    announced p = none := by
  have hnone : findHeadEnd p = none := by
    cases hfind : findHeadEnd p with
    | none => rfl
    | some m =>
        have hle := findHeadEnd_le hfind
        obtain ⟨t, ht⟩ := hp
        have hm := findHeadEnd_append_right hfind t
        rw [ht, findHeadEnd_append_right hend following] at hm
        have := Option.some.inj hm
        omega
  rw [announced, hnone]
  rfl

/-- What is declared does not depend on what follows the head. -/
theorem announced_of_long {p : Bytes} (hp : p <+: r ++ following) (hle : n + 4 ≤ p.length) :
    announced p = announced r := by
  have hr := findHeadEnd_le hend
  obtain ⟨t, ht⟩ := hp
  have hfind : findHeadEnd p = some n := by
    refine findHeadEnd_append (t := t) ?_ hle
    rw [ht]
    exact findHeadEnd_append_right hend following
  have htake : p.take (n + 4) = r.take (n + 4) := by
    calc p.take (n + 4) = (p ++ t).take (n + 4) := (List.take_append_of_le_length hle).symm
      _ = r.take (n + 4) := by rw [ht, List.take_append_of_le_length hr]
  rw [announced, announced, hfind, hend]
  simp only [bind, Option.bind_some, htake]

end

theorem lengthOfLine_status {line : Bytes} {code : Nat} (h : statusCode line = some code) :
    lengthOfLine line = none := by
  rw [statusCode] at h
  split at h
  · rename_i hstatus
    obtain ⟨t, ht⟩ := List.isPrefixOf_iff_prefix.mp hstatus.1
    rw [lengthOfLine]
    split
    · rfl
    rename_i name value hsplit
    rw [if_neg]
    intro hname
    have hlower : toAsciiLowercase name = ascii "content-length" := eq_of_beq hname
    -- the name would have to start with the first letter of the version
    cases name with
    | nil => cases hlower
    | cons b name =>
        have hline := splitOnce_eq_some hsplit
        rw [← ht] at hline
        obtain rfl : 0x48 = b := (List.cons.inj hline).1
        cases (List.cons.inj hlower).1
  · cases h

/-- A declared length is one of the lengths of the head. -/
theorem exists_value_of_announced {method r head rest : Bytes} {body : ResponseBody}
    {headEnd length : Nat} (h : IsResponse method r body head rest)
    (hannounced : announced r = some (headEnd, length)) :
    ∃ value ∈ valuesOf (literal "content-length") (fieldsOf (split lineEnd head).tail),
      fromStrRadix 10 64 (trim value) = some length := by
  obtain ⟨n, hn, rfl, -, hlength⟩ := announced_eq_some hannounced
  have hblank := h.blank
  rw [splitOnceAt_of_findHeadEnd hn] at hblank
  obtain ⟨hhead, -⟩ := Prod.mk.inj (Option.some.inj hblank)
  have htake : r.take (n + 4) = head ++ 0x0D :: 0x0A :: crlf := by
    rw [List.take_add, take_drop_findHeadEnd hn, hhead]
    rfl
  have hlines : split crlf (r.take (n + 4)) = split crlf head ++ [[], []] := by
    rw [htake]
    exact splitFrom_append (by decide) crlf (Nat.zero_le _)
  obtain ⟨line, hline, hparse⟩ := List.exists_of_findSome?_eq_some hlength
  have hnil : lengthOfLine [] = none := rfl
  have hmem : line ∈ split crlf head := by
    rw [hlines] at hline
    refine (List.mem_append.mp hline).resolve_right fun hempty => ?_
    obtain rfl : line = [] := by simpa using hempty
    cases hnil.symm.trans hparse
  obtain ⟨code, hcode, -⟩ := h.status
  have htail : line ∈ (split lineEnd head).tail := by
    cases hsplit : split lineEnd head with
    | nil => exact absurd hsplit (splitFrom_ne_nil _ _ _)
    | cons first lines =>
        have hmem : line ∈ split lineEnd head := hmem
        rw [hsplit] at hmem hcode
        refine (List.mem_cons.mp hmem).resolve_left ?_
        rintro rfl
        cases (lengthOfLine_status hcode).symm.trans hparse
  rw [lengthOfLine] at hparse
  split at hparse
  · cases hparse
  rename_i name value hsplit
  split at hparse
  · rename_i hname
    refine ⟨value, ?_, hparse⟩
    have hfield : (literal "content-length", value) ∈ fieldsOf (split lineEnd head).tail := by
      refine List.mem_map.mpr ⟨(name, value), List.mem_filterMap.mpr ⟨line, htail, hsplit⟩, ?_⟩
      exact Prod.ext (eq_of_beq hname) rfl
    exact List.mem_map.mpr ⟨_, List.mem_filter.mpr ⟨hfield, by simp⟩, rfl⟩
  · cases hparse

/-- A declared length is that of the body, or there is no body at all. -/
theorem length_of_announced {method r head rest : Bytes} {body : ResponseBody}
    {headEnd length : Nat} (h : IsResponse method r body head rest)
    (hannounced : announced r = some (headEnd, length)) :
    headEnd = r.length ∨ headEnd + length = r.length := by
  obtain ⟨value, hmem, hparse⟩ := exists_value_of_announced h hannounced
  obtain ⟨n, hn, rfl, -, -⟩ := announced_eq_some hannounced
  have hle := findHeadEnd_le hn
  have hblank := h.blank
  rw [splitOnceAt_of_findHeadEnd hn] at hblank
  obtain ⟨-, hrest⟩ := Prod.mk.inj (Option.some.inj hblank)
  have hlen : rest.length = r.length - (n + 4) := by rw [← hrest, List.length_drop]
  rcases h.absent_or_length hmem hparse with hnil | hbody
  · rw [hnil, List.length_nil] at hlen
    omega
  · omega

/-! ## What is returned -/

theorem badGateway_selfDelimited : SelfDelimited badGateway :=
  by decide +kernel

theorem eq_of_length_eq {a b c d : Bytes} (h : a ++ b = c ++ d) : a = c ↔ a.length = c.length :=
  ⟨congrArg List.length, fun hlen => (List.append_inj h hlen).1⟩

/-- A response that can be told to end is cut there, unless the read that
ends it brings too much. -/
theorem fetchFrom_of_selfDelimited {build : Build} {r following : Bytes} {reads : List Bytes}
    {ending : Ending} (h : SelfDelimited r) (hmax : r.length ≤ maxUpstreamBytes)
    (hreads : reads.flatten = r ++ following) :
    ∃ x, fetchFrom build [] reads ending = .response x
      ∧ (x = r ↔ arrivedWith r.length 0 reads < maxUpstreamBytes
        ∨ arrivedWith r.length 0 reads = r.length) := by
  obtain ⟨headEnd, length, hannounced, hsum⟩ := h
  obtain ⟨n, hn, rfl, -, -⟩ := announced_eq_some hannounced
  have hcap := maxUpstreamBytes_lt
  have hcomplete : ∀ p, p <+: r ++ following → completeResponseLen build p
      = some (if r.length ≤ p.length then some r.length else none) := by
    intro p hp
    by_cases hlong : n + 4 ≤ p.length
    · have hp' := (announced_of_long hn hp hlong).trans hannounced
      rw [completeResponseLen_of_lt build hp' (by omega), hsum]
    · rw [completeResponseLen, announced_of_short hn hp (by omega), if_neg (by omega)]
  have hnone : ∀ p, p <+: r ++ following → p.length < r.length →
      completeResponseLen build p = some none := by
    intro p hp hlt
    rw [hcomplete p hp, if_neg (by omega)]
  obtain ⟨response, reads', hfetch, hrest, -, harrived, hle⟩ := @fetchFrom_reaches build _ [] reads
    r.length ending hnone hmax hreads (by rw [List.length_nil]; omega)
    (by rw [List.length_append]; omega)
  rw [List.length_nil] at harrived
  rw [hfetch, ← harrived, proceed]
  by_cases hcut : maxUpstreamBytes ≤ response.length
  · refine ⟨response, if_pos hcut, ?_⟩
    rw [eq_of_length_eq hrest]
    omega
  · have htake : response.take r.length = r := by
      calc response.take r.length = (response ++ reads'.flatten).take r.length :=
            (List.take_append_of_le_length hle).symm
        _ = r := by rw [hrest, List.take_left]
    refine ⟨r, ?_, iff_of_true rfl (Or.inl (not_le.mp hcut))⟩
    rw [if_neg hcut, hcomplete response ⟨_, hrest⟩, if_pos hle]
    exact congrArg Fetched.response htake

/-- Where a response declares nothing, or more than there is of it, nothing
that is as short as the response is complete. -/
theorem completeResponseLen_of_undelimited {build : Build} {r following p : Bytes} {n : Nat}
    (hn : findHeadEnd r = some n)
    (hdeclared : ∀ headEnd length, announced r = some (headEnd, length) →
      r.length < headEnd + length ∧ headEnd + length < 2 ^ 64) (hp : p <+: r ++ following) :
    completeResponseLen build p = some none
      ∨ ∃ total, completeResponseLen build p = some (some total) ∧ r.length < total
        ∧ total ≤ p.length := by
  by_cases hlong : n + 4 ≤ p.length
  · have hp' := announced_of_long hn hp hlong
    cases hannounced : announced r with
    | none =>
        rw [hannounced] at hp'
        rw [completeResponseLen, hp']
        exact Or.inl rfl
    | some e =>
        obtain ⟨headEnd, length⟩ := e
        obtain ⟨hlt, hsize⟩ := hdeclared headEnd length hannounced
        rw [hannounced] at hp'
        rw [completeResponseLen_of_lt build hp' hsize]
        split
        · rename_i hle
          exact Or.inr ⟨_, rfl, hlt, hle⟩
        · exact Or.inl rfl
  · rw [completeResponseLen, announced_of_short hn hp (by omega)]
    exact Or.inl rfl

/-- A response that declares nothing, or more than there is of it, is
returned when the upstream closes behind it, or when it is just as long as
a response may be. -/
theorem fetchFrom_of_undelimited {build : Build} {r following : Bytes} {n : Nat}
    {reads : List Bytes} {ending : Ending} (hn : findHeadEnd r = some n)
    (hdeclared : ∀ headEnd length, announced r = some (headEnd, length) →
      r.length < headEnd + length ∧ headEnd + length < 2 ^ 64)
    (hmax : r.length ≤ maxUpstreamBytes) (hreads : Arrives r following reads) :
    fetchFrom build [] reads ending = .response r ↔
      (ending = .closed ∧ following = [])
        ∨ (r.length = maxUpstreamBytes ∧ arrivedWith r.length 0 reads = r.length) := by
  have hr := findHeadEnd_le hn
  have hnone : ∀ p, p <+: r ++ following → p.length ≤ r.length →
      completeResponseLen build p = some none := by
    intro p hp hle
    rcases completeResponseLen_of_undelimited hn hdeclared hp with h | ⟨total, -, h1, h2⟩
    · exact h
    · omega
  have hlong : ∀ p total, p <+: r ++ following →
      completeResponseLen build p = some (some total) → r.length < total ∧ total ≤ p.length := by
    intro p total hp htotal
    rcases completeResponseLen_of_undelimited hn hdeclared hp with h | ⟨total', h, hlt⟩
    · cases h.symm.trans htotal
    · obtain rfl := Option.some.inj (Option.some.inj (h.symm.trans htotal))
      exact hlt
  obtain ⟨response, reads', hfetch, hrest, hmem, harrived, hle⟩ := @fetchFrom_reaches build _ []
    reads r.length ending (fun p hp hlt => hnone p hp hlt.le) hmax hreads.flatten
    (by rw [List.length_nil]; omega) (by rw [List.length_append]; omega)
  rw [List.length_nil] at harrived
  rw [hfetch, ← harrived]
  by_cases hexact : response.length = r.length
  · obtain rfl := (eq_of_length_eq hrest).mpr hexact
    have hfollowing : reads'.flatten = following := List.append_cancel_left hrest
    rw [proceed]
    by_cases hcut : maxUpstreamBytes ≤ response.length
    · rw [if_pos hcut]
      exact iff_of_true rfl (Or.inr ⟨by omega, rfl⟩)
    · rw [if_neg hcut, hnone response ⟨_, hrest⟩ le_rfl]
      have hother : ¬ (response.length = maxUpstreamBytes ∧ response.length = response.length) :=
        fun h => hcut h.1.ge
      rw [or_iff_left hother, ← hfollowing]
      cases reads' with
      | nil =>
          cases ending with
          | closed => exact iff_of_true rfl ⟨rfl, rfl⟩
          | silent => exact iff_of_false (fun h => nomatch h) (fun h => nomatch h.1)
      | cons read reads' =>
          have hread := (hreads.read read (hmem read List.mem_cons_self)).1
          refine iff_of_false (fun h => ?_) (fun h => hread (List.append_eq_nil_iff.mp h.2).1)
          have hpos := List.length_pos_iff.mpr hread
          refine lt_irrefl _ (@length_of_proceed _ _ (response ++ read) _ reads' _ _ hlong ?_ ?_ h)
          · rw [← hrest, List.flatten_cons, List.append_assoc]
          · rw [List.length_append]
            omega
  · refine iff_of_false (fun h => ?_) ?_
    · exact lt_irrefl _ (length_of_proceed hlong hrest (by omega) h)
    · rintro (⟨-, rfl⟩ | ⟨-, harrived⟩)
      · have hlen := congrArg List.length hrest
        rw [List.append_nil, List.length_append] at hlen
        omega
      · exact hexact harrived

/-- A response whose declared length overflows has no body, and it is
returned when it is just as long as a response may be. -/
theorem fetchFrom_of_overflows {build : Build} {r following : Bytes} {reads : List Bytes}
    {headEnd length : Nat} {ending : Ending} (hannounced : announced r = some (headEnd, length))
    (hbody : headEnd = r.length) (hge : 2 ^ 64 ≤ headEnd + length)
    (hmax : r.length ≤ maxUpstreamBytes) (hreads : reads.flatten = r ++ following) :
    fetchFrom build [] reads ending = .response r ↔
      r.length = maxUpstreamBytes ∧ arrivedWith r.length 0 reads = r.length := by
  obtain ⟨n, hn, rfl, -, -⟩ := announced_eq_some hannounced
  have hnone : ∀ p, p <+: r ++ following → p.length < r.length →
      completeResponseLen build p = some none := by
    intro p hp hlt
    rw [completeResponseLen, announced_of_short hn hp (by omega)]
  obtain ⟨response, reads', hfetch, hrest, -, harrived, hle⟩ := @fetchFrom_reaches build _ [] reads
    r.length ending hnone hmax hreads (by rw [List.length_nil]; omega)
    (by rw [List.length_append]; omega)
  rw [List.length_nil] at harrived
  rw [hfetch, ← harrived, proceed]
  by_cases hcut : maxUpstreamBytes ≤ response.length
  · rw [if_pos hcut, Fetched.response.injEq, eq_of_length_eq hrest]
    omega
  · rw [if_neg hcut]
    have hsame := announced_of_long hn ⟨_, hrest⟩ (by omega)
    rw [hannounced] at hsame
    refine iff_of_false ?_ (by omega)
    rcases completeResponseLen_of_ge build hsame hge with h | ⟨total, h, hlt⟩
    · rw [h]
      exact fun h => nomatch h
    · rw [h]
      intro h
      have hlen := congrArg List.length (Fetched.response.inj h)
      rw [List.length_take] at hlen
      omega

/-- A failure is not answered with a response that cannot be told to end. -/
theorem respondUpstream_eq_some_iff {build : Build} {r : Bytes} {reads : List Bytes}
    {ending : Ending} (hself : ¬ SelfDelimited r) :
    respondUpstream build reads ending = some r
      ↔ fetchFrom build [] reads ending = .response r := by
  rw [respondUpstream]
  cases fetchFrom build [] reads ending with
  | response bytes => rw [Option.some.injEq, Fetched.response.injEq]
  | timedOut =>
      refine iff_of_false (fun h => ?_) (fun h => nomatch h)
      rw [← Option.some.inj h] at hself
      exact hself badGateway_selfDelimited
  | panicked => exact iff_of_false (fun h => nomatch h) (fun h => nomatch h)

/-- What such a response announces, if anything, is more than there is of it. -/
theorem lt_of_announced {method r head rest : Bytes} {body : ResponseBody}
    (hr : IsResponse method r body head rest) (hself : ¬ SelfDelimited r) (hover : ¬ Overflows r)
    {headEnd length : Nat} (hannounced : announced r = some (headEnd, length)) :
    r.length < headEnd + length ∧ headEnd + length < 2 ^ 64 := by
  have hlt : headEnd + length < 2 ^ 64 :=
    not_le.mp fun hge => hover ⟨headEnd, length, hannounced, hge⟩
  refine ⟨?_, hlt⟩
  rcases length_of_announced hr hannounced with h | h
  · by_contra hle
    exact hself ⟨headEnd, length, hannounced, by omega⟩
  · exact absurd ⟨headEnd, length, hannounced, h⟩ hself

/-- Which responses are returned whole, however they are read and whatever
the upstream does behind them. -/
theorem respond_verbatim_iff (build : Build) {method r following head rest : Bytes}
    {body : ResponseBody} {reads : List Bytes} {ending : Ending}
    (hr : IsResponse method r body head rest) (hmax : r.length ≤ maxUpstreamBytes)
    (hreads : Arrives r following reads) :
    respondUpstream build reads ending = some r ↔ ReturnedWhole r following reads ending := by
  rw [ReturnedWhole]
  by_cases hself : SelfDelimited r
  · obtain ⟨x, hfetch, hx⟩ :=
      @fetchFrom_of_selfDelimited build _ _ _ ending hself hmax hreads.flatten
    rw [respondUpstream, hfetch, or_iff_left fun h => h.1 hself, ← hx]
    exact ⟨fun h => ⟨hself, Option.some.inj h⟩, fun h => congrArg some h.2⟩
  · rw [or_iff_right fun h => hself h.1, respondUpstream_eq_some_iff hself]
    have hcap := maxUpstreamBytes_lt
    by_cases hover : Overflows r
    · obtain ⟨headEnd, length, hannounced, hge⟩ := hover
      have hbody : headEnd = r.length := by
        rcases length_of_announced hr hannounced with h | h
        · exact h
        · omega
      rw [fetchFrom_of_overflows hannounced hbody hge hmax hreads.flatten]
      constructor
      · exact fun h => ⟨hself, Or.inr h⟩
      · rintro ⟨-, ⟨-, -, hnot⟩ | h⟩
        · exact absurd ⟨headEnd, length, hannounced, hge⟩ hnot
        · exact h
    · obtain ⟨n, hn⟩ : ∃ n, findHeadEnd r = some n := by
        refine exists_findHeadEnd ?_
        rw [splitOnceAt_eq_some hr.blank]
        exact ⟨head, rest, rfl⟩
      rw [fetchFrom_of_undelimited hn (fun _ _ => lt_of_announced hr hself hover) hmax hreads]
      constructor
      · rintro (⟨h1, h2⟩ | h)
        · exact ⟨hself, Or.inl ⟨h1, h2, hover⟩⟩
        · exact ⟨hself, Or.inr h⟩
      · rintro ⟨-, ⟨h1, h2, -⟩ | h⟩
        · exact Or.inl ⟨h1, h2⟩
        · exact Or.inr h

/-- A response with five bytes of body, in two reads and with more behind
it. -/
theorem respond_verbatim_sample :
    respondUpstream .wrapping
      [ascii "HTTP/1.1 418 ", ascii "I'm\r\nContent-Length: 5\r\n\r\nbrew!HTTP"] .silent
      = some (ascii "HTTP/1.1 418 I'm\r\nContent-Length: 5\r\n\r\nbrew!") := by
  have hr : IsResponse (ascii "GET") (ascii "HTTP/1.1 418 I'm\r\nContent-Length: 5\r\n\r\nbrew!")
      (.length 5) (ascii "HTTP/1.1 418 I'm\r\nContent-Length: 5") (ascii "brew!") := by
    decide +kernel
  have hreads : Arrives (ascii "HTTP/1.1 418 I'm\r\nContent-Length: 5\r\n\r\nbrew!") (ascii "HTTP")
      [ascii "HTTP/1.1 418 ", ascii "I'm\r\nContent-Length: 5\r\n\r\nbrew!HTTP"] := by
    decide +kernel
  exact (respond_verbatim_iff .wrapping hr (by decide +kernel) hreads).mpr (by decide +kernel)

def chunkedReply : Bytes := ascii "HTTP/1.1 200 OK\r\nTransfer-Encoding: chunked\r\n\r\n0\r\n\r\n"

/-- A chunked response, complete in one read, on a connection that is kept
open. -/
theorem chunkedReply_lost :
    ¬ ∀ (build : Build) (method r following head rest : Bytes) (body : ResponseBody)
      (reads : List Bytes) (ending : Ending), IsResponse method r body head rest →
      r.length ≤ maxUpstreamBytes → Arrives r following reads →
      respondUpstream build reads ending = some r := by
  intro h
  have hr : IsResponse (ascii "GET") chunkedReply .chunked
      (ascii "HTTP/1.1 200 OK\r\nTransfer-Encoding: chunked") (ascii "0\r\n\r\n") := by
    decide +kernel
  have hreads : Arrives chunkedReply [] [chunkedReply] := by decide +kernel
  have hanswer : respondUpstream .checked [chunkedReply] .silent ≠ some chunkedReply := by
    decide +kernel
  exact hanswer (h .checked _ _ [] _ _ _ _ .silent hr (by decide +kernel) hreads)

end Kanrin
