import Kanrin.Visitors
import Kanrin.Lib.Http1

/-!
# Where a request ends

The front door reads a head and a body off a connection, and whatever is
left is the next head. The origin behind it gets the same head and decides
by all of HTTP/1.1 how long the body is (`afterMessage`). `agree_iff`: the
two draw the same line exactly for a request that has proper header lines,
announces its body by a `Content-Length` the front door can take, and has
sent it.

The front door never looks at `Transfer-Encoding`, keeps one of several
lengths, and takes what it cannot parse, or what is too long for it, for
no body at all. It also takes header lines that HTTP/1.1 has a server reject,
where a name is no token, a line goes on with the one before it or a value
holds a bare line end.
-/

namespace Kanrin

open Lib

/-! ## What a connection reads -/

/-- A request that a connection comes to. -/
structure Exchange where
  /-- It is the one that `run` reads itself. -/
  first : Bool
  head : RequestHead
  /-- What there is to be read, from its head on. -/
  stream : Bytes
  /-- What is left once it has been read. -/
  left : Bytes
  action : Action

section
variable (P : Primitives) (origin : Origin)

/-- The requests of `serve_web`. -/
def serveWebExchanges : List DoorState → Bytes → List Exchange
  | [], _ => []
  | door :: doors, stream =>
      match readRequestHead stream with
      | none => []
      | some (head, rest) =>
          let (body, left) := readBody head rest
          let response := origin head (body.getD [])
          let answered (kept : Bool) : Exchange :=
            { first := false, head, stream, left, action := .answered response kept }
          if door.admission P head = .tunnel then [answered false]
          else if head.wantsKeepAlive then answered true :: serveWebExchanges doors left
          else [answered false]

/-- The requests of `run`. -/
def runExchanges : List DoorState → Bytes → List Exchange
  | [], _ => []
  | door :: doors, stream =>
      match readRequestHead stream with
      | none => []
      | some (head, rest) =>
          match readBody head rest with
          | (none, left) => [{ first := true, head, stream, left, action := .ended }]
          | (some body, left) =>
              let response := origin head body
              if door.admission P head = .web then
                { first := true, head, stream, left, action := .answered response true }
                  :: serveWebExchanges P origin doors left
              else [{ first := true, head, stream, left, action := .upgraded response }]

variable {P origin}

theorem serveWebExchanges_action (doors : List DoorState) (stream : Bytes) :
    (serveWebExchanges P origin doors stream).map Exchange.action
      = serveWeb P origin doors stream := by
  induction doors generalizing stream with
  | nil => rfl
  | cons door doors ih =>
      rw [serveWebExchanges, serveWeb]
      cases readRequestHead stream with
      | none => rfl
      | some p =>
          dsimp only
          split
          · rfl
          · split
            · rw [List.map_cons, ih]
            · rfl

/-- They are the requests of the model. -/
theorem runExchanges_action (doors : List DoorState) (stream : Bytes) :
    (runExchanges P origin doors stream).map Exchange.action = run P origin doors stream := by
  cases doors with
  | nil => rfl
  | cons door doors =>
      rw [runExchanges, run]
      cases readRequestHead stream with
      | none => rfl
      | some p =>
          obtain ⟨head, rest⟩ := p
          dsimp only
          cases readBody head rest with
          | mk body left =>
              cases body with
              | none => rfl
              | some body =>
                  dsimp only
                  split
                  · rw [List.map_cons, serveWebExchanges_action]
                  · rfl

/-- How the request of an exchange was read. -/
structure Exchange.WasRead (x : Exchange) (rest : Bytes) : Prop where
  head : readRequestHead x.stream = some (x.head, rest)
  left : x.left = (readBody x.head rest).2
  ended : x.action = .ended ↔ x.first = true ∧ (readBody x.head rest).1 = none

theorem wasRead_serveWeb {doors : List DoorState} {stream : Bytes} {x : Exchange}
    (h : x ∈ serveWebExchanges P origin doors stream) : ∃ rest, x.WasRead rest := by
  induction doors generalizing stream with
  | nil => cases h
  | cons door doors ih =>
      rw [serveWebExchanges] at h
      cases hhead : readRequestHead stream with
      | none =>
          rw [hhead] at h
          cases h
      | some p =>
          obtain ⟨head, rest⟩ := p
          rw [hhead] at h
          dsimp only at h
          have hread : ∀ kept, Exchange.WasRead
              { first := false, head, stream, left := (readBody head rest).2
                action := .answered (origin head ((readBody head rest).1.getD [])) kept } rest :=
            fun kept => ⟨hhead, rfl, iff_of_false (fun h => nomatch h) fun h => nomatch h.1⟩
          split at h
          · obtain rfl := List.mem_singleton.mp h
            exact ⟨rest, hread false⟩
          · split at h
            · rcases List.mem_cons.mp h with rfl | h
              · exact ⟨rest, hread true⟩
              · exact ih h
            · obtain rfl := List.mem_singleton.mp h
              exact ⟨rest, hread false⟩

theorem wasRead_run {doors : List DoorState} {stream : Bytes} {x : Exchange}
    (h : x ∈ runExchanges P origin doors stream) : ∃ rest, x.WasRead rest := by
  cases doors with
  | nil => cases h
  | cons door doors =>
      rw [runExchanges] at h
      cases hhead : readRequestHead stream with
      | none =>
          rw [hhead] at h
          cases h
      | some p =>
          obtain ⟨head, rest⟩ := p
          rw [hhead] at h
          dsimp only at h
          cases hbody : readBody head rest with
          | mk body left =>
              rw [hbody] at h
              cases body with
              | none =>
                  obtain rfl := List.mem_singleton.mp h
                  exact ⟨rest, hhead, by rw [hbody], iff_of_true rfl ⟨rfl, by rw [hbody]⟩⟩
              | some body =>
                  have hended : ∀ x : Exchange, x.head = head → x.action ≠ .ended →
                      (x.action = .ended ↔ x.first = true ∧ (readBody x.head rest).1 = none) := by
                    rintro x rfl hne
                    refine iff_of_false hne fun h => ?_
                    rw [hbody] at h
                    cases h.2
                  dsimp only at h
                  split at h
                  · rcases List.mem_cons.mp h with rfl | h
                    · exact ⟨rest, hhead, by rw [hbody], hended _ rfl fun h => nomatch h⟩
                    · exact wasRead_serveWeb h
                  · obtain rfl := List.mem_singleton.mp h
                    exact ⟨rest, hhead, by rw [hbody], hended _ rfl fun h => nomatch h⟩

end

/-! ## The head -/

theorem findHeadEnd_append {s t : Bytes} {n : Nat} (h : findHeadEnd (s ++ t) = some n)
    (hle : n + 4 ≤ s.length) : findHeadEnd s = some n := by
  induction s generalizing n with
  | nil => exact absurd hle (by simp)
  | cons b rest ih =>
      rw [List.cons_append, findHeadEnd] at h
      rw [findHeadEnd]
      split at h
      · rename_i hpre
        obtain rfl := Option.some.inj h
        rw [if_pos]
        refine List.isPrefixOf_iff_prefix.mpr ?_
        exact List.prefix_of_prefix_length_le (List.isPrefixOf_iff_prefix.mp hpre)
          (List.prefix_append (b :: rest) t) hle
      · rename_i hpre
        obtain ⟨m, hm, rfl⟩ := Option.map_eq_some_iff.mp h
        rw [if_neg, ih hm (by rw [List.length_cons] at hle; omega)]
        · rfl
        · intro hyes
          refine hpre (List.isPrefixOf_iff_prefix.mpr ?_)
          exact (List.isPrefixOf_iff_prefix.mp hyes).trans (List.prefix_append (b :: rest) t)

theorem findHeadEnd_append_right {s : Bytes} {n : Nat} (h : findHeadEnd s = some n) (t : Bytes) :
    findHeadEnd (s ++ t) = some n := by
  induction s generalizing n with
  | nil => cases h
  | cons b rest ih =>
      rw [findHeadEnd] at h
      rw [List.cons_append, findHeadEnd]
      split at h
      · rename_i hpre
        rw [if_pos, h]
        refine List.isPrefixOf_iff_prefix.mpr ?_
        exact (List.isPrefixOf_iff_prefix.mp hpre).trans (List.prefix_append (b :: rest) t)
      · rename_i hpre
        obtain ⟨m, hm, rfl⟩ := Option.map_eq_some_iff.mp h
        rw [if_neg, ih hm]
        · rfl
        · intro hyes
          refine hpre (List.isPrefixOf_iff_prefix.mpr ?_)
          have hlen := findHeadEnd_le hm
          exact List.prefix_of_prefix_length_le (List.isPrefixOf_iff_prefix.mp hyes)
            (List.prefix_append (b :: rest) t) (by
              show 4 ≤ rest.length + 1
              omega)

theorem splitOnceAt_of_findHeadEnd {s : Bytes} {n : Nat} (h : findHeadEnd s = some n) :
    splitOnceAt (lineEnd ++ lineEnd) s = some (s.take n, s.drop (n + 4)) := by
  induction s generalizing n with
  | nil => cases h
  | cons b rest ih =>
      rw [findHeadEnd] at h
      rw [splitOnceAt]
      split at h
      · rename_i hpre
        obtain rfl := Option.some.inj h
        rw [show (lineEnd ++ lineEnd).isPrefixOf (b :: rest) = true from hpre, if_pos rfl]
        rfl
      · rename_i hpre
        obtain ⟨m, hm, rfl⟩ := Option.map_eq_some_iff.mp h
        rw [if_neg (show ¬ (lineEnd ++ lineEnd).isPrefixOf (b :: rest) = true from hpre), ih hm]
        rfl

theorem parseHeaders_ne_incomplete (lines : List Bytes) (acc : Bytes → Option Bytes) :
    parseHeaders lines acc ≠ .error .incomplete := by
  induction lines generalizing acc with
  | nil => rintro ⟨⟩
  | cons line lines ih =>
      rw [parseHeaders]
      split
      · exact ih acc
      split
      · rintro ⟨⟩
      split
      · rintro ⟨⟩
      · exact ih _

theorem findHeadEnd_of_incomplete {buf : Bytes} (h : RequestHead.parse buf = .error .incomplete) :
    findHeadEnd buf = none := by
  cases hend : findHeadEnd buf with
  | none => rfl
  | some n =>
      exfalso
      rw [RequestHead.parse, hend] at h
      split at h
      · cases h
      dsimp only at h
      split at h
      · cases h
      split at h
      · cases h
      rename_i requestLine lines hsplit
      split at h
      · split at h
        · cases h
        · cases hparse : parseHeaders lines (fun _ => none) with
          | error e =>
              rw [hparse] at h
              obtain rfl := Except.error.inj h
              exact parseHeaders_ne_incomplete _ _ hparse
          | ok headers =>
              rw [hparse] at h
              cases h
      · cases h

/-- Reading byte by byte stops with the first blank line. -/
theorem readHeadFrom_eq_some {buf stream rest : Bytes} {head : RequestHead}
    (hbuf : findHeadEnd buf = none) (h : readHeadFrom buf stream = some (head, rest)) :
    ∃ n, findHeadEnd (buf ++ stream) = some n
      ∧ RequestHead.parse ((buf ++ stream).take (n + 4)) = .ok head
      ∧ rest = (buf ++ stream).drop (n + 4) := by
  induction stream generalizing buf with
  | nil => cases h
  | cons byte stream ih =>
      have hassoc : buf ++ byte :: stream = (buf ++ [byte]) ++ stream := by
        rw [List.append_assoc, List.singleton_append]
      rw [readHeadFrom] at h
      rw [hassoc]
      split at h
      · rename_i hparse
        obtain ⟨rfl, rfl⟩ := Prod.mk.inj (Option.some.inj h)
        obtain ⟨n, -, -, hend, -⟩ := RequestHead.parse_eq_ok hparse
        have hle := findHeadEnd_le hend
        -- a blank line within `buf` would have ended it earlier
        have hlen : n + 4 = (buf ++ [byte]).length := by
          by_contra hne
          rw [List.length_append, List.length_singleton] at hle hne
          have hsome := findHeadEnd_append hend (by omega)
          rw [hbuf] at hsome
          cases hsome
        refine ⟨n, findHeadEnd_append_right hend stream, ?_, ?_⟩
        · rw [hlen, List.take_left]
          exact hparse
        · rw [hlen, List.drop_left]
      · rename_i hparse
        exact ih (findHeadEnd_of_incomplete hparse) h
      · cases h

theorem parseHeaders_eq {lines : List Bytes} {acc headers : Bytes → Option Bytes}
    (h : parseHeaders lines acc = .ok headers) (name : Bytes) :
    headers name = ((valuesOf name (fieldsOf lines)).getLast?.map trim).or (acc name) := by
  induction lines generalizing acc with
  | nil =>
      obtain rfl := Except.ok.inj h
      rfl
  | cons line lines ih =>
      rw [parseHeaders] at h
      split at h
      · rename_i hempty
        obtain rfl := List.isEmpty_iff.mp hempty
        exact ih h
      split at h
      · cases h
      rename_i field value hsplit
      split at h
      · cases h
      rw [ih h]
      have hfields : fieldsOf (line :: lines)
          = (toAsciiLowercase field, value) :: fieldsOf lines := by
        rw [fieldsOf, List.filterMap_cons_some hsplit]
        rfl
      rw [hfields, valuesOf_cons]
      by_cases hname : toAsciiLowercase field = name
      · subst hname
        rw [Function.update_self, if_pos rfl, List.getLast?_cons]
        cases (valuesOf (toAsciiLowercase field) (fieldsOf lines)).getLast? with
        | none => rfl
        | some v => rfl
      · rw [Function.update_of_ne (Ne.symm hname), if_neg hname]

/-! ## The body -/

namespace RequestHead

/-- The header lines as they were sent. -/
def lines (head : RequestHead) : List Bytes :=
  (split crlf (head.raw.take (head.headLen - 4))).tail

def fields (head : RequestHead) : List (Bytes × Bytes) := fieldsOf head.lines

/-- The lengths that were sent. -/
def lengths (head : RequestHead) : List Bytes := valuesOf (ascii "content-length") head.fields

/-- The last length is a list, which the front door does not parse. -/
def Listed (head : RequestHead) : Prop := ∃ value, head.lengths.getLast? = some value ∧ 0x2C ∈ value

end RequestHead

namespace Exchange

/-- What follows the head. -/
def rest (x : Exchange) : Bytes := x.stream.drop x.head.headLen

/-- A request is answered only when just its head and its body were read. -/
def Agrees (x : Exchange) : Prop := x.action ≠ .ended → afterMessage x.stream = some x.left

/-- The header lines are in order, and the body has a length, once, that the
front door can take, and all of it is there. -/
def Plain (x : Exchange) : Prop :=
  (∀ line ∈ x.head.lines, isFieldLine line = true)
    ∧ ∃ n, fieldsFraming x.head.fields = .length n ∧ (n = 0 ∨ ¬ x.head.Listed)
      ∧ n ≤ maxRequestBody ∧ n ≤ x.rest.length

/-- The first request is not answered if its body cannot be read. -/
def Refused (x : Exchange) : Prop :=
  x.first = true ∧ (maxRequestBody < x.head.contentLength.getD 0
    ∨ x.rest.length < x.head.contentLength.getD 0)

end Exchange

/-- What the front door makes of a length that HTTP/1.1 makes sense of. -/
theorem contentLength_of_framing {head : RequestHead} {n : Nat}
    (hheader : head.header "content-length" = head.lengths.getLast?.map trim)
    (h : fieldsFraming head.fields = .length n) :
    (head.contentLength.getD 0 = n ∧ ¬ head.Listed)
      ∨ head.contentLength.getD 0 = 0 ∧ (head.Listed ∨ 2 ^ 64 ≤ n) := by
  have hlength : lengthFraming head.lengths = .length n := values_of_framing h
  have hcontent : head.contentLength
      = (head.lengths.getLast?.map trim).bind (fromStrRadix 10 64) := by
    rw [RequestHead.contentLength, hheader]
  cases hlast : head.lengths.getLast? with
  | none =>
      have hnil : head.lengths = [] := List.getLast?_eq_none_iff.mp hlast
      rw [hnil] at hlength
      obtain rfl : 0 = n := Framing.length.inj hlength
      refine Or.inl ⟨by rw [hcontent, hlast]; rfl, ?_⟩
      rintro ⟨value, hvalue, -⟩
      cases hlast.symm.trans hvalue
  | some value =>
      have hvalue : head.contentLength = fromStrRadix 10 64 (trim value) := by
        rw [hcontent, hlast]
        rfl
      by_cases hcomma : 0x2C ∈ value
      · refine Or.inr ⟨?_, Or.inl ⟨value, hlast, hcomma⟩⟩
        rw [hvalue, fromStrRadix_eq_none (by decide) (by decide) (comma_mem_trim hcomma)]
        rfl
      · have hnumeral := numeral_of_value hlength (List.mem_of_getLast? hlast) hcomma
        have hparse := @fromStrRadix_of_numeral 10 64 _ _ (by decide) (by decide) hnumeral
        rw [hvalue, trim_of_numeral hnumeral, hparse]
        split
        · refine Or.inl ⟨rfl, ?_⟩
          rintro ⟨value', hvalue', hcomma'⟩
          obtain rfl := Option.some.inj (hlast.symm.trans hvalue')
          exact hcomma hcomma'
        · rename_i hlarge
          exact Or.inr ⟨rfl, Or.inr (not_lt.mp hlarge)⟩

/-- A head and what follows it, as the stream has them. -/
theorem Exchange.WasRead.message {x : Exchange} {rest : Bytes} (h : x.WasRead rest) :
    rest = x.rest ∧ afterMessage x.stream = afterBody (framing x.head.lines) x.rest
      ∧ x.head.header "content-length" = x.head.lengths.getLast?.map trim := by
  obtain ⟨n, hend, hparse, hrest⟩ := @readHeadFrom_eq_some [] _ _ _ rfl h.head
  rw [List.nil_append] at hend hparse hrest
  obtain ⟨n', requestLine, lines, hend', hsplit, hheaders, hlen, hraw⟩ :=
    RequestHead.parse_eq_ok hparse
  -- the head was parsed from the bytes up to its blank line
  have hn : n' = n := by
    have htake : findHeadEnd (x.stream.take (n + 4)) = some n := by
      refine findHeadEnd_append (t := x.stream.drop (n + 4)) ?_ ?_
      · rw [List.take_append_drop]
        exact hend
      · rw [List.length_take]
        have hle := findHeadEnd_le hend
        omega
    exact Option.some.inj (hend'.symm.trans htake)
  subst hn
  have hhead : x.head.raw.take (x.head.headLen - 4) = x.stream.take n' := by
    have hmin := Nat.min_eq_left (Nat.le_add_right n' 4)
    rw [hraw, hlen, List.take_take, List.take_take, Nat.add_sub_cancel, hmin, hmin]
  have hlines : split crlf (x.stream.take n') = requestLine :: lines := by
    rw [← hsplit, List.take_take, Nat.min_eq_left (Nat.le_add_right n' 4)]
  have hheadLines : x.head.lines = lines := by
    rw [RequestHead.lines, hhead, hlines]
    rfl
  have hrest' : x.rest = x.stream.drop (n' + 4) := by rw [Exchange.rest, hlen]
  refine ⟨hrest.trans hrest'.symm, ?_, ?_⟩
  · rw [afterMessage, splitOnceAt_of_findHeadEnd hend, hrest', hheadLines]
    show afterBody (framing (split crlf (x.stream.take n')).tail) _ = _
    rw [hlines]
    rfl
  · rw [RequestHead.header, parseHeaders_eq hheaders, RequestHead.lengths, RequestHead.fields,
      hheadLines, Option.or_none]

/-- Where the front door thinks the body ends. -/
theorem readBody_left (head : RequestHead) (stream : Bytes) :
    (readBody head stream).2
      = if maxRequestBody < head.contentLength.getD 0 then stream
        else stream.drop (head.contentLength.getD 0) := by
  rw [readBody]
  split
  · rename_i hzero
    rw [hzero]
    rfl
  by_cases hlarge : maxRequestBody < head.contentLength.getD 0
  · rw [if_pos hlarge, if_pos hlarge]
  · rw [if_neg hlarge, if_neg hlarge]
    split
    · rfl
    · rename_i hshort
      exact (List.drop_eq_nil_of_le (not_le.mp hshort).le).symm

theorem afterBody_eq_iff {x : Exchange}
    (hheader : x.head.header "content-length" = x.head.lengths.getLast?.map trim) :
    afterBody (framing x.head.lines) x.rest = some (readBody x.head x.rest).2 ↔ x.Plain := by
  have hcap : maxRequestBody < 2 ^ 64 := by decide
  rw [readBody_left, Exchange.Plain, framing]
  by_cases hfields : x.head.lines.all isFieldLine = true
  case neg =>
    rw [if_neg hfields]
    exact iff_of_false (fun h => nomatch h) fun h => hfields (List.all_eq_true.mpr h.1)
  rw [if_pos hfields, and_iff_right (List.all_eq_true.mp hfields), ← RequestHead.fields]
  cases hframing : fieldsFraming x.head.fields with
  | faulty => exact iff_of_false (fun h => nomatch h) fun ⟨n, h, _⟩ => nomatch h
  | chunked =>
      -- no length was sent, so the front door leaves the body where it is
      refine iff_of_false (fun h => ?_) fun ⟨n, h, _⟩ => nomatch h
      have hnone : x.head.contentLength = none := by
        rw [RequestHead.contentLength, hheader, RequestHead.lengths]
        show ((valuesOf (literal "content-length") x.head.fields).getLast?.map trim).bind _ = none
        rw [not_length_of_framing_chunked hframing]
        rfl
      rw [hnone] at h
      exact absurd (length_afterChunked h) (Nat.lt_irrefl _)
  | length n =>
      rw [afterBody]
      constructor
      · intro h
        split at h
        case isFalse => cases h
        rename_i hpresent
        have hdrop := Option.some.inj h
        -- what has been left out shows in the length
        have hzero : x.rest.drop n = x.rest → n = 0 := by
          intro heq
          have hlen := congrArg List.length heq
          rw [List.length_drop] at hlen
          omega
        refine ⟨n, rfl, ?_⟩
        rcases contentLength_of_framing hheader hframing with ⟨hlength, honce⟩ | ⟨hlength, -⟩
        · refine ⟨Or.inr honce, ?_, hpresent⟩
          rw [hlength] at hdrop
          split at hdrop
          · rw [hzero hdrop]
            exact Nat.zero_le _
          · rename_i hsmall
            exact not_lt.mp hsmall
        · rw [hlength, if_neg (Nat.not_lt_zero _)] at hdrop
          obtain rfl := hzero hdrop
          exact ⟨Or.inl rfl, Nat.zero_le _, Nat.zero_le _⟩
      · rintro ⟨m, hm, honce, hsmall, hpresent⟩
        obtain rfl := Framing.length.inj hm
        have hlength : x.head.contentLength.getD 0 = n := by
          rcases contentLength_of_framing hheader hframing with ⟨hlength, -⟩ | ⟨hlength, hbad⟩
          · exact hlength
          · rcases honce with rfl | honce
            · exact hlength
            · rcases hbad with hlisted | hlarge
              · exact absurd hlisted honce
              · omega
        rw [hlength, if_pos hpresent, if_neg (not_lt.mpr hsmall)]

theorem Exchange.WasRead.agrees_iff {x : Exchange} {rest : Bytes} (h : x.WasRead rest) :
    x.Agrees ↔ x.Plain ∨ x.Refused := by
  obtain ⟨hrest, hmessage, hheader⟩ := h.message
  subst hrest
  have hunreadable : (readBody x.head x.rest).1 = none
      ↔ maxRequestBody < x.head.contentLength.getD 0
        ∨ x.rest.length < x.head.contentLength.getD 0 := by
    rw [← Option.not_isSome_iff_eq_none, readBody_isSome_iff, not_and_or, not_le, not_le]
  have hended : x.action = .ended ↔ x.Refused := by
    rw [h.ended, Exchange.Refused, hunreadable]
  rw [Exchange.Agrees, hmessage, h.left, afterBody_eq_iff hheader]
  by_cases hrefused : x.Refused
  · exact iff_of_true (fun hne => absurd (hended.mpr hrefused) hne) (Or.inr hrefused)
  · have hne : x.action ≠ .ended := fun heq => hrefused (hended.mp heq)
    constructor
    · exact fun hagrees => Or.inl (hagrees hne)
    · rintro (hplain | hbad)
      · exact fun _ => hplain
      · exact absurd hbad hrefused

/-! ## The whole connection -/

/-- The streams that start at a message of the given one. -/
def messages : (n : Nat) → Bytes → List Bytes
  | 0, _ => []
  | n + 1, stream =>
      stream :: match afterMessage stream with
        | none => []
        | some left => messages n left

theorem serveWeb_starts {P : Primitives} {origin : Origin} {doors : List DoorState} {stream : Bytes}
    (h : ∀ x ∈ serveWebExchanges P origin doors stream, x.Agrees) :
    (serveWebExchanges P origin doors stream).map Exchange.stream
      <+: messages doors.length stream := by
  induction doors generalizing stream with
  | nil => exact List.prefix_refl _
  | cons door doors ih =>
      rw [serveWebExchanges] at h ⊢
      rw [List.length_cons, messages]
      cases hhead : readRequestHead stream with
      | none => exact List.nil_prefix
      | some p =>
          obtain ⟨head, rest⟩ := p
          rw [hhead] at h
          dsimp only at h ⊢
          have hone : ∀ l : List Bytes, [stream] <+: stream :: l := fun l =>
            (List.prefix_cons_inj stream).mpr List.nil_prefix
          by_cases hadmit : door.admission P head = .tunnel
          · rw [if_pos hadmit]
            exact hone _
          rw [if_neg hadmit] at h ⊢
          cases hkeep : head.wantsKeepAlive with
          | false =>
              rw [if_neg (by decide)]
              exact hone _
          | true =>
              rw [hkeep, if_pos rfl] at h
              rw [if_pos rfl]
              have hleft := h _ List.mem_cons_self (fun h => nomatch h)
              dsimp only at hleft
              rw [hleft]
              exact (List.prefix_cons_inj stream).mpr
                (ih fun x hx => h x (List.mem_cons_of_mem _ hx))

theorem run_starts {P : Primitives} {origin : Origin} {doors : List DoorState} {stream : Bytes}
    (h : ∀ x ∈ runExchanges P origin doors stream, x.Agrees) :
    (runExchanges P origin doors stream).map Exchange.stream
      <+: messages doors.length stream := by
  cases doors with
  | nil => exact List.prefix_refl _
  | cons door doors =>
      rw [runExchanges] at h ⊢
      rw [List.length_cons, messages]
      have hone : ∀ l : List Bytes, [stream] <+: stream :: l := fun l =>
        (List.prefix_cons_inj stream).mpr List.nil_prefix
      cases hhead : readRequestHead stream with
      | none => exact List.nil_prefix
      | some p =>
          obtain ⟨head, rest⟩ := p
          rw [hhead] at h
          dsimp only at h ⊢
          cases hbody : readBody head rest with
          | mk body left =>
              rw [hbody] at h
              cases body with
              | none => exact hone _
              | some body =>
                  dsimp only at h ⊢
                  by_cases hadmit : door.admission P head = .web
                  · rw [if_pos hadmit] at h ⊢
                    have hleft := h _ List.mem_cons_self (fun h => nomatch h)
                    dsimp only at hleft
                    rw [hleft]
                    exact (List.prefix_cons_inj stream).mpr
                      (serveWeb_starts fun x hx => h x (List.mem_cons_of_mem _ hx))
                  · rw [if_neg hadmit]
                    exact hone _

/-- The front door and the origin agree on where each answered request ends
exactly as far as the requests are plain; and while they agree, every head
is read at the start of a message. -/
theorem agree_iff (P : Primitives) (origin : Origin) (doors : List DoorState) (stream : Bytes) :
    ((∀ x ∈ runExchanges P origin doors stream, x.Agrees)
        ↔ ∀ x ∈ runExchanges P origin doors stream, x.Plain ∨ x.Refused)
      ∧ ((∀ x ∈ runExchanges P origin doors stream, x.Plain ∨ x.Refused) →
        (runExchanges P origin doors stream).map Exchange.stream
          <+: messages doors.length stream) := by
  have hiff : (∀ x ∈ runExchanges P origin doors stream, x.Agrees)
      ↔ ∀ x ∈ runExchanges P origin doors stream, x.Plain ∨ x.Refused := by
    refine forall₂_congr fun x hx => ?_
    obtain ⟨rest, hread⟩ := wasRead_run hx
    exact hread.agrees_iff
  exact ⟨hiff, fun h => run_starts (hiff.mpr h)⟩

/-! ## A chunked request -/

/-- A form that is sent in one chunk, and a page. -/
def chunkedForm : Bytes :=
  ascii "POST / HTTP/1.1\r\nTransfer-Encoding: chunked\r\n\r\n5\r\na=1&b\r\n0\r\n\r\n"
    ++ ascii "GET / HTTP/1.1\r\n\r\n"

theorem chunkedForm_left :
    (runExchanges .plain emptyOrigin [plainDoor, plainDoor] chunkedForm).map
        (fun x => (x.action, x.left.length, (afterMessage x.stream).map List.length))
      = [(.answered emptyResponse true, 33, some 18)] := by
  decide +kernel

/-- The form is answered and its body left on the connection, where it is
taken for the next head. -/
theorem not_agree_chunkedForm :
    ¬ ∀ x ∈ runExchanges .plain emptyOrigin [plainDoor, plainDoor] chunkedForm, x.Agrees := by
  intro h
  obtain ⟨x, hx, heq⟩ := List.mem_map.mp
    (chunkedForm_left ▸ List.mem_cons_self : (Action.answered emptyResponse true, 33, some 18) ∈ _)
  obtain ⟨haction, hrest⟩ := Prod.mk.inj heq
  obtain ⟨hleft, hafter⟩ := Prod.mk.inj hrest
  have hagrees := h x hx (by rw [haction]; exact fun h => nomatch h)
  rw [hagrees, Option.map_some, hleft] at hafter
  cases hafter

end Kanrin
