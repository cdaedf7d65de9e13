import Kanrin.Crypto
import Kanrin.Lib.Text

/-!
# The front door's HTTP requests

The request half of `kanrin-server/src/http.rs`. There is one parser for
every connection, and it runs on every prefix of the request until the
blank line has arrived.

`length_header` bounds a header by the head it was read from: whatever a
header carries has been sent in full before the blank line.
-/

namespace Kanrin

open Lib

def maxHeadBytes : Nat := 16 * 1024

def maxRequestBody : Nat := 1024 * 1024

inductive ParseError where
  | incomplete
  | malformed
  | tooLarge
deriving DecidableEq, Repr

structure RequestHead where
  method : Bytes
  target : Bytes
  version : Bytes
  /-- By lowercased name; a repeated header replaces the one before it. -/
  headers : Bytes → Option Bytes
  headLen : Nat
  raw : Bytes

def crlf : Bytes := [0x0D, 0x0A]

/-- The first occurrence of the blank line. -/
def findHeadEnd : Bytes → Option Nat
  | [] => none
  | b :: rest =>
      if (crlf ++ crlf).isPrefixOf (b :: rest) then some 0 else (findHeadEnd rest).map (· + 1)

/-- The loop over the header lines. -/
def parseHeaders : List Bytes → (Bytes → Option Bytes) → Except ParseError (Bytes → Option Bytes)
  | [], headers => .ok headers
  | line :: lines, headers =>
      if line.isEmpty then parseHeaders lines headers
      else
        match splitOnce 0x3A line with
        | none => .error .malformed
        | some (name, value) =>
            if name.isEmpty || name.contains 0x20 then .error .malformed
            else
              parseHeaders lines
                (Function.update headers (toAsciiLowercase name) (some (trim value)))

namespace RequestHead

def parse (buf : Bytes) : Except ParseError RequestHead :=
  if buf.length > maxHeadBytes then .error .tooLarge
  else
    match findHeadEnd buf with
    | none => .error .incomplete
    | some headEnd =>
        let head := buf.take headEnd
        if !isUtf8 head then .error .malformed
        else
          match split crlf head with
          | [] => .error .malformed
          | requestLine :: lines =>
              match split [0x20] requestLine with
              | [method, target, version] =>
                  if method.isEmpty || target.isEmpty || version.isEmpty
                      || !(ascii "HTTP/").isPrefixOf version then .error .malformed
                  else
                    (parseHeaders lines fun _ => none).map fun headers =>
                      { method, target, version, headers
                        headLen := headEnd + 4, raw := buf.take (headEnd + 4) }
              | _ => .error .malformed

def header (head : RequestHead) (name : String) : Option Bytes := head.headers (ascii name)

def contentLength (head : RequestHead) : Option Nat :=
  (head.header "content-length").bind (fromStrRadix 10 64)

def wantsKeepAlive (head : RequestHead) : Bool :=
  match head.header "connection" with
  | some v =>
      if eqIgnoreAsciiCase v (ascii "close") then false
      else if eqIgnoreAsciiCase v (ascii "keep-alive") then true
      else head.version != ascii "HTTP/1.0"
  | none => head.version != ascii "HTTP/1.0"

end RequestHead

/-! ## A header is shorter than its head -/

theorem findHeadEnd_le {buf : Bytes} {n : Nat} (h : findHeadEnd buf = some n) :
    n + 4 ≤ buf.length := by
  induction buf generalizing n with
  | nil => cases h
  | cons b rest ih =>
      rw [findHeadEnd] at h
      split at h
      · rename_i hpre
        obtain rfl := Option.some.inj h
        exact (List.isPrefixOf_iff_prefix.mp hpre).length_le
      · obtain ⟨m, hm, rfl⟩ := Option.map_eq_some_iff.mp h
        have := ih hm
        rw [List.length_cons]
        omega

/-- Every header takes up at most `n` bytes, with the colon. -/
def HeadersFit (n : Nat) (headers : Bytes → Option Bytes) : Prop :=
  ∀ name value, headers name = some value → name.length + 1 + value.length ≤ n

theorem HeadersFit.update {n : Nat} {headers : Bytes → Option Bytes} (h : HeadersFit n headers)
    {name value : Bytes} (hlen : name.length + 1 + value.length ≤ n) :
    HeadersFit n (Function.update headers name (some value)) := by
  intro name' value' hget
  by_cases hname : name' = name
  · subst hname
    rw [Function.update_self] at hget
    obtain rfl := Option.some.inj hget
    exact hlen
  · rw [Function.update_of_ne hname] at hget
    exact h name' value' hget

theorem headersFit_parseHeaders {n : Nat} {lines : List Bytes}
    {acc headers : Bytes → Option Bytes} (hlines : ∀ line ∈ lines, line.length ≤ n)
    (hacc : HeadersFit n acc) (h : parseHeaders lines acc = .ok headers) :
    HeadersFit n headers := by
  induction lines generalizing acc with
  | nil =>
      obtain rfl := Except.ok.inj h
      exact hacc
  | cons line lines ih =>
      have hrest : ∀ l ∈ lines, l.length ≤ n := fun l hl => hlines l (List.mem_cons_of_mem _ hl)
      rw [parseHeaders] at h
      split at h
      · exact ih hrest hacc h
      split at h
      · cases h
      rename_i name value hsplit
      split at h
      · cases h
      refine ih hrest (hacc.update ?_) h
      have hline := hlines line List.mem_cons_self
      have htrim := length_trim_le value
      rw [splitOnce_eq_some hsplit, List.length_append, List.length_cons] at hline
      rw [length_toAsciiLowercase]
      omega

/-- Where a parsed head comes from. -/
theorem RequestHead.parse_eq_ok {buf : Bytes} {head : RequestHead} (h : parse buf = .ok head) :
    ∃ headEnd requestLine lines, findHeadEnd buf = some headEnd
      ∧ split crlf (buf.take headEnd) = requestLine :: lines
      ∧ parseHeaders lines (fun _ => none) = .ok head.headers
      ∧ head.headLen = headEnd + 4 ∧ head.raw = buf.take (headEnd + 4) := by
  rw [parse] at h
  split at h
  · cases h
  split at h
  · cases h
  rename_i headEnd hend
  dsimp only at h
  split at h
  · cases h
  split at h
  · cases h
  rename_i requestLine lines hsplit
  split at h
  · split at h
    · cases h
    cases hheaders : parseHeaders lines (fun _ => none) with
    | error e =>
        rw [hheaders] at h
        cases h
    | ok headers =>
        rw [hheaders] at h
        obtain rfl := Except.ok.inj h
        exact ⟨headEnd, requestLine, lines, hend, hsplit, hheaders, rfl, rfl⟩
  · cases h

/-- A header, its colon and the blank line all fit the bytes parsed. -/
theorem length_header {buf : Bytes} {head : RequestHead} (h : RequestHead.parse buf = .ok head)
    {name : String} {value : Bytes} (hget : head.header name = some value) :
    (ascii name).length + 1 + value.length + 4 ≤ buf.length := by
  obtain ⟨headEnd, requestLine, lines, hend, hsplit, hheaders, -⟩ := RequestHead.parse_eq_ok h
  have hlines : ∀ line ∈ lines, line.length ≤ headEnd := by
    intro line hline
    have hmem : line ∈ split crlf (buf.take headEnd) := by
      rw [hsplit]
      exact List.mem_cons_of_mem _ hline
    have := length_le_of_mem_split (by decide) hmem
    rw [List.length_take] at this
    omega
  have hnone : HeadersFit headEnd (fun _ => none) := by
    intro name value h
    cases h
  have hfit := headersFit_parseHeaders hlines hnone hheaders _ _ hget
  have hlen := findHeadEnd_le hend
  omega

end Kanrin
