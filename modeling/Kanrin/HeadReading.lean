import Kanrin.Boundaries

/-!
# Reading a head byte by byte

`read_request_head` runs the parser on every prefix of what arrives. Its
answer changes once, with the byte that completes the first blank line
(`findHeadEnd_of_endsHead`), so the loop ends where one run over all the
bytes that count would say, having taken the head and nothing else
(`head_read_exactly`).

The bytes that count are the first `maxHeadBytes`: a run over more of them
refuses any head, also one that the loop has long returned.
-/

namespace Kanrin

open Lib

/-! ## The loop -/

/-- How `read_request_head` ends. -/
inductive HeadRead where
  | head (head : RequestHead)
  /-- `read_exact` fails: there is no byte left. -/
  | eof
  /-- Malformed or too large, which are not told apart. -/
  | badRequest

namespace HeadRead

/-- The loop, from what has been read so far, and what it leaves. -/
def readFrom (buf : Bytes) : (stream : Bytes) → HeadRead × Bytes
  | [] => (eof, [])
  | byte :: stream =>
      match RequestHead.parse (buf ++ [byte]) with
      | .ok parsed => (head parsed, stream)
      | .error .incomplete => readFrom (buf ++ [byte]) stream
      | .error _ => (badRequest, stream)

def readRequestHead (stream : Bytes) : HeadRead × Bytes := readFrom [] stream

/-- What one run of the parser over a whole stream says of it. -/
def verdict : Except ParseError RequestHead → HeadRead
  | .ok parsed => head parsed
  | .error .incomplete => eof
  | .error .malformed => badRequest
  | .error .tooLarge => badRequest

/-- What the bytes that count say of a stream. -/
def atOnce (stream : Bytes) : HeadRead :=
  match RequestHead.parse (stream.take maxHeadBytes) with
  | .error .incomplete => if stream.length ≤ maxHeadBytes then eof else badRequest
  | parsed => verdict parsed

/-- What `readHeadFrom` keeps of the loop: the head and the rest. -/
theorem readHeadFrom_eq (buf stream : Bytes) :
    readHeadFrom buf stream = match readFrom buf stream with
      | (head parsed, rest) => some (parsed, rest)
      | _ => none := by
  induction stream generalizing buf with
  | nil => rfl
  | cons byte stream ih =>
      rw [readHeadFrom, readFrom]
      cases RequestHead.parse (buf ++ [byte]) with
      | ok parsed => rfl
      | error e =>
          cases e with
          | incomplete => exact ih _
          | malformed => rfl
          | tooLarge => rfl

end HeadRead

/-! ## The first blank line -/

/-- `h` goes through its first blank line. -/
structure EndsHead (h : Bytes) : Prop where
  blank : crlf ++ crlf <:+ h
  first : ¬ crlf ++ crlf <:+: h.dropLast

theorem findHeadEnd_eq_none {b : Bytes} : findHeadEnd b = none ↔ ¬ crlf ++ crlf <:+: b := by
  induction b with
  | nil => exact iff_of_true rfl (by decide)
  | cons a rest ih =>
      rw [findHeadEnd, List.infix_cons_iff, ← List.isPrefixOf_iff_prefix]
      split
      · rename_i hpre
        exact iff_of_false (Option.some_ne_none _) (fun h => h (Or.inl hpre))
      · rename_i hpre
        rw [Option.map_eq_none_iff, ih]
        exact ⟨fun h hor => hor.elim hpre h, fun h hin => h (Or.inr hin)⟩

theorem exists_findHeadEnd {b : Bytes} (h : crlf ++ crlf <:+: b) :
    ∃ n, findHeadEnd b = some n :=
  Option.ne_none_iff_exists'.mp fun hnone => findHeadEnd_eq_none.mp hnone h

theorem take_drop_findHeadEnd {b : Bytes} {n : Nat} (h : findHeadEnd b = some n) :
    (b.drop n).take 4 = crlf ++ crlf := by
  induction b generalizing n with
  | nil => cases h
  | cons a rest ih =>
      rw [findHeadEnd] at h
      split at h
      · rename_i hpre
        obtain rfl := Option.some.inj h
        exact (List.prefix_iff_eq_take.mp (List.isPrefixOf_iff_prefix.mp hpre)).symm
      · obtain ⟨m, hm, rfl⟩ := Option.map_eq_some_iff.mp h
        exact ih hm

/-- What is found is the end of the shortest prefix with a blank line. -/
theorem endsHead_take {b : Bytes} {n : Nat} (h : findHeadEnd b = some n) :
    EndsHead (b.take (n + 4)) where
  blank := by
    rw [List.take_add, take_drop_findHeadEnd h]
    exact List.suffix_append _ _
  first := by
    have hle := findHeadEnd_le h
    have hlast : (b.take (n + 4)).dropLast = b.take (n + 3) := by
      rw [List.dropLast_eq_take, List.length_take, List.take_take]
      exact congrArg (List.take · b) (by omega)
    rw [hlast]
    intro hin
    obtain ⟨m, hm⟩ := exists_findHeadEnd hin
    have hlen := findHeadEnd_le hm
    rw [List.length_take] at hlen
    have hsame := findHeadEnd_append_right hm (b.drop (n + 3))
    rw [List.take_append_drop, h] at hsame
    have := Option.some.inj hsame
    omega

theorem findHeadEnd_of_endsHead {h b : Bytes} (hh : EndsHead h) (hpre : h <+: b) :
    ∃ n, findHeadEnd b = some n ∧ n + 4 = h.length := by
  obtain ⟨n, hn⟩ := exists_findHeadEnd hh.blank.isInfix
  have hle := findHeadEnd_le hn
  refine ⟨n, ?_, ?_⟩
  · obtain ⟨t, rfl⟩ := hpre
    exact findHeadEnd_append_right hn t
  · by_contra hne
    refine hh.first ?_
    by_contra hnone
    have hnil : h ≠ [] := by
      rintro rfl
      exact absurd hle (by simp)
    have hsome : findHeadEnd h.dropLast = some n := by
      refine findHeadEnd_append (t := [h.getLast hnil]) ?_ ?_
      · rw [List.dropLast_concat_getLast]
        exact hn
      · rw [List.length_dropLast]
        omega
    rw [findHeadEnd_eq_none.mpr hnone] at hsome
    cases hsome

/-! ## The parser on one buffer -/

namespace RequestHead

theorem parse_eq_incomplete {b : Bytes} (hlen : b.length ≤ maxHeadBytes) :
    parse b = .error .incomplete ↔ ¬ crlf ++ crlf <:+: b := by
  rw [← findHeadEnd_eq_none]
  constructor
  · exact findHeadEnd_of_incomplete
  · intro hnone
    rw [parse, if_neg (not_lt.mpr hlen), hnone]

theorem parse_of_long {b : Bytes} (hlen : maxHeadBytes < b.length) :
    parse b = .error .tooLarge := by
  rw [parse, if_pos hlen]

/-- Of a buffer that is not too long, the bytes behind the blank line make
no difference. -/
theorem parse_take {b : Bytes} {n : Nat} (hlen : b.length ≤ maxHeadBytes)
    (h : findHeadEnd b = some n) : parse b = parse (b.take (n + 4)) := by
  have hle := findHeadEnd_le h
  have htake : (b.take (n + 4)).length = n + 4 := by
    rw [List.length_take]
    omega
  have hhead : findHeadEnd (b.take (n + 4)) = some n := by
    refine findHeadEnd_append (t := b.drop (n + 4)) ?_ htake.ge
    rw [List.take_append_drop]
    exact h
  rw [parse, parse, if_neg (not_lt.mpr hlen), if_neg (by omega), h, hhead]
  simp only [List.take_take, min_self, Nat.min_eq_left (Nat.le_add_right n 4)]

end RequestHead

/-! ## The parser on every prefix -/

namespace HeadRead

/-- Where the blank line comes in time, the loop ends with it. -/
theorem readFrom_of_findHeadEnd {buf stream : Bytes} {n : Nat} (hbuf : findHeadEnd buf = none)
    (h : findHeadEnd (buf ++ stream) = some n) (hn : n + 4 ≤ maxHeadBytes) :
    readFrom buf stream = (verdict (RequestHead.parse ((buf ++ stream).take (n + 4))),
      (buf ++ stream).drop (n + 4)) := by
  induction stream generalizing buf with
  | nil =>
      rw [List.append_nil, hbuf] at h
      cases h
  | cons byte stream ih =>
      have hassoc : buf ++ byte :: stream = (buf ++ [byte]) ++ stream := by
        rw [List.append_assoc, List.singleton_append]
      -- the blank line is not complete before this byte
      have hlater : (buf ++ [byte]).length ≤ n + 4 := by
        by_contra hlt
        rw [List.length_append, List.length_singleton] at hlt
        have hsome := findHeadEnd_append h (by omega)
        rw [hbuf] at hsome
        cases hsome
      rw [hassoc] at h ⊢
      rw [readFrom]
      by_cases hlast : (buf ++ [byte]).length = n + 4
      · have hend := findHeadEnd_append h hlast.ge
        rw [← hlast, List.take_left, List.drop_left]
        cases hparse : RequestHead.parse (buf ++ [byte]) with
        | ok parsed => rfl
        | error e =>
            cases e with
            | incomplete =>
                rw [findHeadEnd_of_incomplete hparse] at hend
                cases hend
            | malformed => rfl
            | tooLarge => rfl
      · have hnone : findHeadEnd (buf ++ [byte]) = none := by
          cases hend : findHeadEnd (buf ++ [byte]) with
          | none => rfl
          | some m =>
              have hle := findHeadEnd_le hend
              have hsame := findHeadEnd_append_right hend stream
              rw [h] at hsame
              have := Option.some.inj hsame
              omega
        have hparse : RequestHead.parse (buf ++ [byte]) = .error .incomplete :=
          (RequestHead.parse_eq_incomplete (by omega)).mpr (findHeadEnd_eq_none.mp hnone)
        rw [hparse]
        exact ih hnone h

/-- Where it does not, the loop goes on to the end of the stream or to the
first byte too many. -/
theorem readFrom_of_late {buf stream : Bytes} (hbuf : findHeadEnd buf = none)
    (hlen : buf.length ≤ maxHeadBytes)
    (hlate : ∀ n, findHeadEnd (buf ++ stream) = some n → maxHeadBytes < n + 4) :
    readFrom buf stream = (if (buf ++ stream).length ≤ maxHeadBytes then eof else badRequest,
      (buf ++ stream).drop (maxHeadBytes + 1)) := by
  induction stream generalizing buf with
  | nil =>
      rw [List.append_nil, if_pos hlen, List.drop_eq_nil_of_le (by omega)]
      rfl
  | cons byte stream ih =>
      have hassoc : buf ++ byte :: stream = (buf ++ [byte]) ++ stream := by
        rw [List.append_assoc, List.singleton_append]
      rw [hassoc] at hlate ⊢
      rw [readFrom]
      by_cases hfull : (buf ++ [byte]).length ≤ maxHeadBytes
      · have hnone : findHeadEnd (buf ++ [byte]) = none := by
          cases hend : findHeadEnd (buf ++ [byte]) with
          | none => rfl
          | some m =>
              have hle := findHeadEnd_le hend
              have := hlate m (findHeadEnd_append_right hend stream)
              omega
        have hparse : RequestHead.parse (buf ++ [byte]) = .error .incomplete :=
          (RequestHead.parse_eq_incomplete hfull).mpr (findHeadEnd_eq_none.mp hnone)
        rw [hparse]
        exact ih hnone hfull hlate
      · rw [RequestHead.parse_of_long (not_le.mp hfull)]
        have hnext : (buf ++ [byte]).length = maxHeadBytes + 1 := by
          rw [List.length_append, List.length_singleton] at hfull ⊢
          omega
        rw [← hnext, List.drop_left, if_neg]
        rw [List.length_append]
        omega

/-- The parser on one buffer: incomplete until the blank line has come, and
then what it says of the bytes up to there. -/
structure ParsesHead (b : Bytes) : Prop where
  incomplete_iff : RequestHead.parse b = .error .incomplete ↔ ¬ crlf ++ crlf <:+: b
  exists_head : crlf ++ crlf <:+: b → ∃ h, h <+: b ∧ EndsHead h
  of_head : ∀ h, h <+: b → EndsHead h → RequestHead.parse b = RequestHead.parse h
    ∧ ∀ head, RequestHead.parse b = .ok head → head.headLen = h.length ∧ head.raw = h

/-- The loop on one stream: what it returns, and what it has taken. -/
structure ReadsHead (stream : Bytes) : Prop where
  result : (readRequestHead stream).1 = atOnce stream
  left_of_head : ∀ parsed, (readRequestHead stream).1 = head parsed →
    stream = parsed.raw ++ (readRequestHead stream).2
  left_of_blank : ∀ h, h <+: stream → EndsHead h → h.length ≤ maxHeadBytes →
    (readRequestHead stream).2 = stream.drop h.length
  unterminated : (∀ h, h <+: stream → EndsHead h → maxHeadBytes < h.length) →
    readRequestHead stream = (if stream.length ≤ maxHeadBytes then eof else badRequest,
      stream.drop (maxHeadBytes + 1))

theorem parsesHead {b : Bytes} (hlen : b.length ≤ maxHeadBytes) : ParsesHead b where
  incomplete_iff := RequestHead.parse_eq_incomplete hlen
  exists_head h := by
    obtain ⟨n, hn⟩ := exists_findHeadEnd h
    exact ⟨b.take (n + 4), List.take_prefix _ _, endsHead_take hn⟩
  of_head h hpre hh := by
    obtain ⟨n, hn, hsize⟩ := findHeadEnd_of_endsHead hh hpre
    have htake : b.take (n + 4) = h := by
      rw [hsize]
      exact (List.prefix_iff_eq_take.mp hpre).symm
    refine ⟨?_, ?_⟩
    · rw [RequestHead.parse_take hlen hn, htake]
    · intro head hparse
      obtain ⟨n', -, -, hn', -, -, hheadLen, hraw⟩ := RequestHead.parse_eq_ok hparse
      obtain rfl := Option.some.inj (hn.symm.trans hn')
      exact ⟨hheadLen.trans hsize, hraw.trans htake⟩

/-- With the blank line in time, the bytes that count say what its head
says. -/
theorem atOnce_of_findHeadEnd {stream : Bytes} {n : Nat} (h : findHeadEnd stream = some n)
    (hn : n + 4 ≤ maxHeadBytes) :
    atOnce stream = verdict (RequestHead.parse (stream.take (n + 4))) := by
  have hle := findHeadEnd_le h
  have hsize : (stream.take maxHeadBytes).length ≤ maxHeadBytes := by
    rw [List.length_take]
    omega
  have hend : findHeadEnd (stream.take maxHeadBytes) = some n := by
    refine findHeadEnd_append (t := stream.drop maxHeadBytes) ?_ ?_
    · rw [List.take_append_drop]
      exact h
    · rw [List.length_take]
      omega
  have hparse : RequestHead.parse (stream.take maxHeadBytes)
      = RequestHead.parse (stream.take (n + 4)) := by
    rw [RequestHead.parse_take hsize hend, List.take_take, Nat.min_eq_left hn]
  rw [atOnce, ← hparse]
  split
  · rename_i hinc
    rw [findHeadEnd_of_incomplete hinc] at hend
    cases hend
  · rfl

theorem atOnce_of_late {stream : Bytes}
    (hlate : ∀ n, findHeadEnd stream = some n → maxHeadBytes < n + 4) :
    atOnce stream = if stream.length ≤ maxHeadBytes then eof else badRequest := by
  have hsize : (stream.take maxHeadBytes).length ≤ maxHeadBytes := by
    rw [List.length_take]
    omega
  have hnone : findHeadEnd (stream.take maxHeadBytes) = none := by
    cases hend : findHeadEnd (stream.take maxHeadBytes) with
    | none => rfl
    | some m =>
        have hle := findHeadEnd_le hend
        have hsome := findHeadEnd_append_right hend (stream.drop maxHeadBytes)
        rw [List.take_append_drop] at hsome
        have := hlate m hsome
        omega
  rw [atOnce, (RequestHead.parse_eq_incomplete hsize).mpr (findHeadEnd_eq_none.mp hnone)]

theorem readsHead (stream : Bytes) : ReadsHead stream := by
  by_cases hin : ∃ n, findHeadEnd stream = some n ∧ n + 4 ≤ maxHeadBytes
  · obtain ⟨n, hn, hmax⟩ := hin
    have hread : readRequestHead stream = _ := readFrom_of_findHeadEnd rfl hn hmax
    rw [List.nil_append] at hread
    refine ⟨?_, ?_, ?_, ?_⟩
    · rw [hread, atOnce_of_findHeadEnd hn hmax]
    · intro parsed hparsed
      rw [hread] at hparsed ⊢
      cases hparse : RequestHead.parse (stream.take (n + 4)) with
      | ok head =>
          rw [hparse] at hparsed
          obtain rfl := HeadRead.head.inj hparsed
          have hlen : (stream.take (n + 4)).length ≤ maxHeadBytes := by
            rw [List.length_take]
            omega
          have hraw := ((parsesHead hlen).of_head _ (List.prefix_refl _) (endsHead_take hn)).2 _
            hparse
          rw [hraw.2, List.take_append_drop]
      | error e =>
          rw [hparse] at hparsed
          cases e <;> cases hparsed
    · intro h hpre hh _
      obtain ⟨n', hn', hsize⟩ := findHeadEnd_of_endsHead hh hpre
      obtain rfl := Option.some.inj (hn.symm.trans hn')
      rw [hread, hsize]
    · intro hnot
      have hlen := findHeadEnd_le hn
      have hlt := hnot _ (List.take_prefix _ _) (endsHead_take hn)
      rw [List.length_take] at hlt
      omega
  · have hlate : ∀ n, findHeadEnd stream = some n → maxHeadBytes < n + 4 :=
      fun n hn => not_le.mp fun hmax => hin ⟨n, hn, hmax⟩
    have hread : readRequestHead stream = _ := readFrom_of_late rfl (Nat.zero_le _) hlate
    rw [List.nil_append] at hread
    refine ⟨?_, ?_, ?_, fun _ => hread⟩
    · rw [hread, atOnce_of_late hlate]
    · intro parsed hparsed
      rw [hread] at hparsed
      dsimp only at hparsed
      split at hparsed
      · cases hparsed
      · cases hparsed
    · intro h hpre hh hmax
      obtain ⟨n, hn, hsize⟩ := findHeadEnd_of_endsHead hh hpre
      have := hlate n hn
      omega

/-- Parsing is stable beyond the head, and reading byte by byte is parsing
once what counts of the stream. -/
theorem head_read_exactly :
    (∀ b : Bytes, b.length ≤ maxHeadBytes → ParsesHead b)
      ∧ ∀ stream : Bytes, ReadsHead stream :=
  ⟨fun _ => parsesHead, readsHead⟩

/-- A head of 18 bytes with four more behind it. -/
theorem head_read_exactly_sample :
    (readRequestHead (ascii "GET / HTTP/1.1\r\n\r\nrest")).2 = ascii "rest"
      ∧ (RequestHead.parse (ascii "GET / HTTP/1.1\r\n\r\nrest")
        = RequestHead.parse (ascii "GET / HTTP/1.1\r\n\r\n")) := by
  have hends : EndsHead (ascii "GET / HTTP/1.1\r\n\r\n") :=
    ⟨by decide +kernel, by decide +kernel⟩
  have hpre : ascii "GET / HTTP/1.1\r\n\r\n" <+: ascii "GET / HTTP/1.1\r\n\r\nrest" := by
    decide +kernel
  have hparses := head_read_exactly.1 (ascii "GET / HTTP/1.1\r\n\r\nrest") (by decide +kernel)
  have hreads := head_read_exactly.2 (ascii "GET / HTTP/1.1\r\n\r\nrest")
  refine ⟨?_, (hparses.of_head _ hpre hends).1⟩
  rw [hreads.left_of_blank _ hpre hends (by decide +kernel)]
  decide +kernel

/-- A head that the loop has returned, and that is refused when it is parsed
with all that follows it. -/
theorem readRequestHead_ne_verdict :
    ¬ ∀ stream : Bytes, (readRequestHead stream).1 = verdict (RequestHead.parse stream) := by
  intro h
  have hparsed : (RequestHead.parse (ascii "GET / HTTP/1.1\r\n\r\n")).toOption.isSome = true := by
    decide +kernel
  have hends : findHeadEnd (ascii "GET / HTTP/1.1\r\n\r\n") = some 14 := by decide +kernel
  have hblen : (ascii "GET / HTTP/1.1\r\n\r\n").length = 14 + 4 := by decide +kernel
  generalize ascii "GET / HTTP/1.1\r\n\r\n" = b at hparsed hends hblen
  have hloop := @readFrom_of_findHeadEnd [] (b ++ List.replicate maxHeadBytes 0) 14 rfl
    (findHeadEnd_append_right hends _) (by decide +kernel)
  have hwhole := h (b ++ List.replicate maxHeadBytes 0)
  have hlong : maxHeadBytes < (b ++ List.replicate maxHeadBytes (0 : UInt8)).length := by
    rw [List.length_append, List.length_replicate]
    omega
  rw [readRequestHead, hloop, RequestHead.parse_of_long hlong, List.nil_append, ← hblen,
    List.take_left] at hwhole
  cases hread : RequestHead.parse b with
  | ok head =>
      rw [hread] at hwhole
      cases hwhole
  | error e =>
      rw [hread] at hparsed
      cases hparsed

end HeadRead

end Kanrin
