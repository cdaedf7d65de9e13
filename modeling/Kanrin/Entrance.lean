import Kanrin.Admissions
import Kanrin.Escapes
import Kanrin.HeadReading
import Kanrin.Origin

/-!
# The request that opens the tunnel

`admission_request` and `Admitter::mint` of `kanrin-server/src/frontdoor.rs`
against the server's own way of reading a request.

A request that is put together from lines is taken apart into them, however
the bytes after it go on (`readRequestHead_of_lines`). For the admission
request that leaves the token, which is the one that was minted
(`authenticatorOf_mint`), so that the door opens exactly where it knows the
password, the clock is near and the nonce is new (`entrance`).
-/

namespace Kanrin

open Lib

/-! ## A request from its lines -/

/-- What a request line and header fields are made of, so that they can be
told apart. -/
structure ProperRequest (words : List Bytes) (fields : List (String × Bytes)) : Prop where
  word : ∀ w ∈ words, w ≠ [] ∧ cr ∉ w ∧ 0x20 ∉ w
  name : ∀ f ∈ fields, ascii f.1 ≠ [] ∧ cr ∉ ascii f.1 ∧ 0x3A ∉ ascii f.1 ∧ 0x20 ∉ ascii f.1
  value : ∀ f ∈ fields, cr ∉ f.2

def requestLines (words : List Bytes) (fields : List (String × Bytes)) : List Bytes :=
  [0x20].intercalate words :: fields.map Response.fieldLine

theorem mem_intercalate {c : UInt8} {sep : Bytes} {ws : List Bytes} (h : c ∈ sep.intercalate ws) :
    c ∈ sep ∨ ∃ w ∈ ws, c ∈ w := by
  induction ws with
  | nil => cases h
  | cons w ws ih =>
      cases ws with
      | nil => exact Or.inr ⟨w, List.mem_cons_self, by simpa using h⟩
      | cons v vs =>
          rw [List.intercalate_cons_cons, List.mem_append, List.mem_append] at h
          rcases h with (h | h) | h
          · exact Or.inr ⟨w, List.mem_cons_self, h⟩
          · exact Or.inl h
          · rcases ih h with h | ⟨u, hu, h⟩
            · exact Or.inl h
            · exact Or.inr ⟨u, List.mem_cons_of_mem _ hu, h⟩

namespace ProperRequest

variable {words : List Bytes} {fields : List (String × Bytes)} (h : ProperRequest words fields)
include h

theorem isLine_requestLine (hne : words ≠ []) : IsLine ([0x20].intercalate words) := by
  refine ⟨fun hnil => ?_, fun hcr => ?_⟩
  · obtain ⟨w, ws, rfl⟩ := List.exists_cons_of_ne_nil hne
    have hw := (h.word w List.mem_cons_self).1
    cases ws with
    | nil => exact hw (by simpa using hnil)
    | cons v vs =>
        rw [List.intercalate_cons_cons] at hnil
        exact hw (List.append_eq_nil_iff.mp (List.append_eq_nil_iff.mp hnil).1).1
  · rcases mem_intercalate hcr with hsep | ⟨w, hw, hmem⟩
    · exact absurd hsep (by decide)
    · exact (h.word w hw).2.1 hmem

theorem isLine (hne : words ≠ []) : ∀ l ∈ requestLines words fields, IsLine l := by
  intro l hl
  rcases List.mem_cons.mp hl with rfl | hl
  · exact h.isLine_requestLine hne
  · obtain ⟨f, hf, rfl⟩ := List.mem_map.mp hl
    exact Response.isLine_fieldLine (h.name f hf).1 (h.name f hf).2.1 (h.value f hf)

theorem fieldsOf_lines :
    fieldsOf (fields.map Response.fieldLine)
      = fields.map fun f => (toAsciiLowercase (ascii f.1), 0x20 :: f.2) := by
  rw [fieldsOf, Response.filterMap_fieldLine fun f hf => (h.name f hf).2.2.1, List.map_map]
  rfl

/-- No header line is malformed. -/
theorem parseHeaders_lines (acc : Bytes → Option Bytes) :
    ∃ headers, parseHeaders (fields.map Response.fieldLine) acc = .ok headers := by
  induction fields generalizing acc with
  | nil => exact ⟨acc, rfl⟩
  | cons f fs ih =>
      have hrest : ProperRequest words fs :=
        ⟨h.word, fun g hg => h.name g (List.mem_cons_of_mem _ hg),
          fun g hg => h.value g (List.mem_cons_of_mem _ hg)⟩
      obtain ⟨hne, hcr, hcolon, hspace⟩ := h.name f List.mem_cons_self
      have hline := Response.isLine_fieldLine hne hcr (h.value f List.mem_cons_self)
      have hname : ((ascii f.1).isEmpty || (ascii f.1).contains 0x20) = false := by
        rw [List.isEmpty_eq_false_iff.mpr hne, Bool.false_or, List.contains_eq_mem,
          decide_eq_false hspace]
      rw [List.map_cons, parseHeaders, List.isEmpty_eq_false_iff.mpr hline.ne_nil,
        if_neg Bool.false_ne_true, Response.splitOnce_fieldLine hcolon]
      dsimp only
      rw [hname, if_neg Bool.false_ne_true]
      exact ih hrest _

end ProperRequest

/-- How many bytes there are before the body. -/
theorem findHeadEnd_of_lines {lines : List Bytes} (hne : lines ≠ []) (h : ∀ l ∈ lines, IsLine l)
    (rest : Bytes) :
    findHeadEnd (lineEnd.intercalate lines ++ (lineEnd ++ lineEnd ++ rest))
      = some (lineEnd.intercalate lines).length := by
  have hblank := splitOnceAt_blank hne h rest
  have hinfix : crlf ++ crlf <:+: lineEnd.intercalate lines ++ (lineEnd ++ lineEnd ++ rest) :=
    ⟨lineEnd.intercalate lines, rest, List.append_assoc _ _ _⟩
  obtain ⟨n, hn⟩ := exists_findHeadEnd hinfix
  have hle := findHeadEnd_le hn
  obtain ⟨hhead, -⟩ := Prod.mk.inj (Option.some.inj
    ((splitOnceAt_of_findHeadEnd hn).symm.trans hblank))
  have hlength := congrArg List.length hhead
  rw [List.length_take] at hlength
  rw [hn]
  exact congrArg some (by omega)

/-- A request whose head is short enough is read as it was written. -/
theorem readRequestHead_of_lines {method target version : Bytes} {fields : List (String × Bytes)}
    (h : ProperRequest [method, target, version] fields) (hversion : ascii "HTTP/" <+: version)
    (hutf8 : isUtf8 (lineEnd.intercalate (requestLines [method, target, version] fields)) = true)
    (hlen : (lineEnd.intercalate (requestLines [method, target, version] fields)).length + 4
      ≤ maxHeadBytes) (rest : Bytes) :
    ∃ head, readRequestHead (lineEnd.intercalate (requestLines [method, target, version] fields)
          ++ (lineEnd ++ lineEnd ++ rest)) = some (head, rest)
      ∧ head.method = method ∧ head.target = target ∧ head.version = version
      ∧ head.raw = lineEnd.intercalate (requestLines [method, target, version] fields)
          ++ (lineEnd ++ lineEnd)
      ∧ ∀ name, head.header name
          = (valuesOf (ascii name) (fields.map fun f => (toAsciiLowercase (ascii f.1),
              0x20 :: f.2))).getLast?.map trim := by
  have hwords : [method, target, version] ≠ [] := List.cons_ne_nil _ _
  have hlines := h.isLine hwords
  have hne : requestLines [method, target, version] fields ≠ [] := List.cons_ne_nil _ _
  obtain ⟨headers, hheaders⟩ := h.parseHeaders_lines fun _ => none
  generalize htext : lineEnd.intercalate (requestLines [method, target, version] fields) = text
    at hutf8 hlen
  have hend : findHeadEnd (text ++ (lineEnd ++ lineEnd ++ rest)) = some text.length :=
    htext ▸ findHeadEnd_of_lines hne hlines rest
  have hendOwn : findHeadEnd (text ++ (lineEnd ++ lineEnd)) = some text.length := by
    have hown := findHeadEnd_of_lines hne hlines []
    rwa [htext, List.append_nil] at hown
  have hwhole : (text ++ (lineEnd ++ lineEnd ++ rest)).take (text.length + 4)
      = text ++ (lineEnd ++ lineEnd) := by
    rw [← List.append_assoc]
    exact List.take_left' (List.length_append ..)
  have hsplit : split crlf text = requestLines [method, target, version] fields := by
    rw [← htext]
    exact split_intercalate hne fun l hl => (hlines l hl).no_cr
  have hline : split [0x20] ([0x20].intercalate [method, target, version])
      = [method, target, version] :=
    split_intercalate hwords fun w hw => (h.word w hw).2.2
  have hfull : ∀ w ∈ [method, target, version], w.isEmpty = false := fun w hw =>
    List.isEmpty_eq_false_iff.mpr (h.word w hw).1
  have hall : (text ++ (lineEnd ++ lineEnd)).take (text.length + 4)
      = text ++ (lineEnd ++ lineEnd) :=
    List.take_of_length_le (Nat.le_of_eq (List.length_append ..))
  obtain ⟨head, hparse, hmethod, htarget, hversion, hraw, hfields⟩ :
      ∃ head, RequestHead.parse (text ++ (lineEnd ++ lineEnd)) = .ok head
        ∧ head.method = method ∧ head.target = target ∧ head.version = version
        ∧ head.raw = text ++ (lineEnd ++ lineEnd) ∧ head.headers = headers := by
    have hshort : ¬ (text ++ (lineEnd ++ lineEnd)).length > maxHeadBytes := by
      rw [List.length_append]
      exact not_lt.mpr hlen
    rw [RequestHead.parse, if_neg hshort, hendOwn]
    dsimp only
    rw [List.take_left, hutf8, hsplit, Bool.not_true, if_neg Bool.false_ne_true, requestLines]
    dsimp only
    rw [hline]
    dsimp only
    rw [hfull method List.mem_cons_self, hfull target (by simp), hfull version (by simp),
      List.isPrefixOf_iff_prefix.mpr hversion]
    rw [if_neg (by decide), hheaders]
    exact ⟨_, rfl, rfl, rfl, rfl, hall, rfl⟩
  refine ⟨head, ?_, hmethod, htarget, hversion, hraw, fun name => ?_⟩
  · have hread : HeadRead.readFrom [] (text ++ (lineEnd ++ lineEnd ++ rest))
        = (HeadRead.verdict (RequestHead.parse (text ++ (lineEnd ++ lineEnd))),
            (text ++ (lineEnd ++ lineEnd ++ rest)).drop (text.length + 4)) := by
      rw [← hwhole]
      exact HeadRead.readFrom_of_findHeadEnd rfl hend hlen
    have hleft : (text ++ (lineEnd ++ lineEnd ++ rest)).drop (text.length + 4) = rest := by
      rw [← List.append_assoc]
      exact List.drop_left' (List.length_append ..)
    rw [readRequestHead, HeadRead.readHeadFrom_eq, hread, hparse, hleft]
    rfl
  · have hvalue := parseHeaders_eq hheaders (ascii name)
    rw [h.fieldsOf_lines, Option.or_none] at hvalue
    rw [RequestHead.header, hfields]
    exact hvalue

/-! ## The token -/

def HexDigits (s : Bytes) : Prop := ∀ b ∈ s, (toDigit 16 b).isSome = true

theorem HexDigits.not_mem {s : Bytes} (h : HexDigits s) {b : UInt8} (hb : toDigit 16 b = none) :
    b ∉ s := by
  intro hmem
  have hsome := h b hmem
  rw [hb] at hsome
  cases hsome

theorem hexDigits_digits (n : Nat) : HexDigits (digits 16 n) :=
  toDigit_of_numeralFrom (numeralFrom_digits (by decide) (by decide) n)

/-- What is written for a byte is a pair that stands for it. -/
theorem hexByte_pair (b : UInt8) :
    (ascii (hexByte b)).length = 2 ∧ isHexPair (ascii (hexByte b)) = true
      ∧ UInt8.ofNat (pairValue (ascii (hexByte b))) = b := by
  have hall : ∀ n < 256, (ascii (hexByte (UInt8.ofNat n))).length = 2
      ∧ isHexPair (ascii (hexByte (UInt8.ofNat n))) = true
      ∧ UInt8.ofNat (pairValue (ascii (hexByte (UInt8.ofNat n)))) = UInt8.ofNat n := by
    decide +kernel
  have hb := hall b.toNat b.toNat_lt
  rwa [UInt8.ofNat_toNat] at hb

theorem length_hex (bytes : Bytes) : (hex bytes).length = 2 * bytes.length := by
  induction bytes with
  | nil => rfl
  | cons b bytes ih =>
      rw [hex, List.flatMap_cons, List.length_append, ← hex, ih, (hexByte_pair b).1,
        List.length_cons]
      omega

theorem pairs_hex (bytes : Bytes) :
    pairs bytes.length (hex bytes) = bytes.map fun b => ascii (hexByte b) := by
  induction bytes with
  | nil => rfl
  | cons b bytes ih =>
      have htwo := (hexByte_pair b).1
      rw [List.length_cons, pairs, hex, List.flatMap_cons, List.take_left' htwo,
        List.drop_left' htwo, ← hex, ih, List.map_cons]

theorem hexDigits_hex (bytes : Bytes) : HexDigits (hex bytes) := by
  refine (digits_iff (length_hex bytes)).mpr fun e he => ?_
  rw [pairs_hex] at he
  obtain ⟨b, -, rfl⟩ := List.mem_map.mp he
  exact (hexByte_pair b).2.1

theorem unhex_hex {n : Nat} (a : ByteArr n) : unhex n (hex a.toList) = some a := by
  have hpairs := pairs_hex a.toList
  rw [a.toList_length] at hpairs
  refine unhex_eq_some.mpr ⟨?_, ?_, ?_⟩
  · rw [length_hex, a.toList_length]
  · intro e he
    rw [hpairs] at he
    obtain ⟨b, -, rfl⟩ := List.mem_map.mp he
    rw [isTaken, (hexByte_pair b).2.1, Bool.true_or]
  · rw [hpairs, pairBytes, List.map_map]
    exact (List.map_id'' (fun b => (hexByte_pair b).2.2) a.toList).symm

namespace Admitter

variable {P : Primitives} {a : Admitter} {ts : UInt64} {nonce : ByteArr 16}

theorem mint_eq : a.mint P ts nonce = [0x3A].intercalate
    [digits 16 ts.toNat, hex nonce.toList, hex (a.compute P ts nonce).toList] := by
  simp only [mint, List.append_assoc, List.intercalate_cons_cons, List.intercalate_singleton]
  rfl

/-- Hexadecimal digits and the colons between them. -/
theorem of_mem_mint {b : UInt8} (h : b ∈ a.mint P ts nonce) :
    b = 0x3A ∨ (toDigit 16 b).isSome = true := by
  rw [mint_eq] at h
  rcases mem_intercalate h with hsep | ⟨part, hpart, hmem⟩
  · exact Or.inl (List.mem_singleton.mp hsep)
  · refine Or.inr ?_
    rcases List.mem_cons.mp hpart with rfl | hpart
    · exact hexDigits_digits _ b hmem
    rcases List.mem_cons.mp hpart with rfl | hpart
    · exact hexDigits_hex _ b hmem
    · obtain rfl := List.mem_singleton.mp hpart
      exact hexDigits_hex _ b hmem

theorem not_mem_mint {b : UInt8} (h : b ≠ 0x3A ∧ toDigit 16 b = none) : b ∉ a.mint P ts nonce := by
  intro hmem
  rcases of_mem_mint hmem with hcolon | hdigit
  · exact h.1 hcolon
  · rw [h.2] at hdigit
    cases hdigit

theorem isVisible_of_mem_mint {b : UInt8} (h : b ∈ a.mint P ts nonce) : IsVisible b := by
  have hall : ∀ n < 256, UInt8.ofNat n = 0x3A ∨ (toDigit 16 (UInt8.ofNat n)).isSome = true →
      IsVisible (UInt8.ofNat n) := by decide +kernel
  have hb := hall b.toNat b.toNat_lt
  rw [UInt8.ofNat_toNat] at hb
  exact hb (of_mem_mint h)

theorem mint_ne_nil : a.mint P ts nonce ≠ [] := by
  rw [mint_eq, List.intercalate_cons_cons]
  intro hnil
  exact digits_ne_nil _ _ (List.append_eq_nil_iff.mp (List.append_eq_nil_iff.mp hnil).1).1

theorem split_mint : split [0x3A] (a.mint P ts nonce)
    = [digits 16 ts.toNat, hex nonce.toList, hex (a.compute P ts nonce).toList] := by
  rw [mint_eq]
  refine split_intercalate (List.cons_ne_nil _ _) fun part hpart => ?_
  have hcolon : toDigit 16 0x3A = none := by decide
  rcases List.mem_cons.mp hpart with rfl | hpart
  · exact (hexDigits_digits _).not_mem hcolon
  rcases List.mem_cons.mp hpart with rfl | hpart
  · exact (hexDigits_hex _).not_mem hcolon
  · obtain rfl := List.mem_singleton.mp hpart
    exact (hexDigits_hex _).not_mem hcolon

/-- The cookie that a client puts its token in. -/
def cookie (token : Bytes) : Bytes := ascii authCookie ++ 0x3D :: token

theorem cookieValue_mint :
    cookieValue (cookie (a.mint P ts nonce)) authCookie = some (a.mint P ts nonce) := by
  have hname : 0x3B ∉ ascii authCookie ∧ 0x3D ∉ ascii authCookie := by decide
  have hone : 0x3B ∉ cookie (a.mint P ts nonce) := by
    rw [cookie, List.mem_append, List.mem_cons, not_or, not_or]
    exact ⟨hname.1, by decide, not_mem_mint (by decide)⟩
  have htrim : trim (a.mint P ts nonce) = a.mint P ts nonce :=
    trim_of_visible (w := []) mint_ne_nil (fun b hb => isVisible_of_mem_mint hb)
      fun b hb => absurd hb List.not_mem_nil
  have hkey : trim (ascii authCookie) = ascii authCookie := by decide
  rw [cookieValue, split_of_not_mem hone, List.findSome?_cons, cookie,
    splitOnce_of_not_mem hname.2]
  dsimp only
  rw [if_pos hkey, htrim]

/-- What a server reads from the cookie is what was minted. -/
theorem authenticatorOf_mint {head : RequestHead}
    (h : head.header "cookie" = some (cookie (a.mint P ts nonce))) :
    authenticatorOf head = some ⟨ts, nonce, a.compute P ts nonce⟩ := by
  have hnumeral : numeral 16 (digits 16 ts.toNat) = some ts.toNat :=
    numeral_digits (by decide) (by decide) ts.toNat
  have htimestamp : fromStrRadix 16 64 (digits 16 ts.toNat) = some ts.toNat := by
    rw [fromStrRadix_of_numeral (by decide) (by decide) hnumeral, if_pos ts.toNat_lt]
  rw [authenticatorOf, h, Option.getD_some, cookieValue_mint]
  dsimp only
  rw [split_mint]
  dsimp only
  rw [htimestamp, unhex_hex, unhex_hex]
  dsimp only
  rw [UInt64.ofNat_toNat]

end Admitter

/-! ## The request -/

def admissionRequest (host target : String) (token : Bytes) : Bytes :=
  ascii "GET " ++ asBytes target ++ ascii " HTTP/1.1" ++ crlf
    ++ ascii "Host: " ++ asBytes host ++ crlf
    ++ ascii "User-Agent: Mozilla/5.0 (Windows NT 10.0; Win64; x64) AppleWebKit/537.36 "
    ++ ascii "(KHTML, like Gecko) Chrome/131.0.0.0 Safari/537.36" ++ crlf
    ++ ascii "Accept: text/html,application/xhtml+xml,application/xml;q=0.9,*/*;q=0.8" ++ crlf
    ++ ascii "Accept-Language: en-US,en;q=0.9" ++ crlf
    ++ ascii "Accept-Encoding: gzip, deflate, br" ++ crlf
    ++ ascii "Cookie: " ++ ascii authCookie ++ ascii "=" ++ token ++ crlf
    ++ ascii "Connection: keep-alive" ++ crlf
    ++ crlf

namespace Entrance

def words (target : String) : List Bytes := [ascii "GET", asBytes target, ascii "HTTP/1.1"]

def fields (host : String) (token : Bytes) : List (String × Bytes) :=
  [("Host", asBytes host),
    ("User-Agent", ascii "Mozilla/5.0 (Windows NT 10.0; Win64; x64) AppleWebKit/537.36 "
      ++ ascii "(KHTML, like Gecko) Chrome/131.0.0.0 Safari/537.36"),
    ("Accept", ascii "text/html,application/xhtml+xml,application/xml;q=0.9,*/*;q=0.8"),
    ("Accept-Language", ascii "en-US,en;q=0.9"),
    ("Accept-Encoding", ascii "gzip, deflate, br"),
    ("Cookie", Admitter.cookie token),
    ("Connection", ascii "keep-alive")]

theorem admissionRequest_eq (host target : String) (token : Bytes) :
    admissionRequest host target token
      = lineEnd.intercalate (requestLines (words target) (fields host token))
          ++ (lineEnd ++ lineEnd) := by
  have hcrlf : crlf = lineEnd := rfl
  have hget : ascii "GET " = ascii "GET" ++ [0x20] := by decide +kernel
  have hversion : ascii " HTTP/1.1" = [0x20] ++ ascii "HTTP/1.1" := by decide +kernel
  have hhost : ascii "Host: " = ascii "Host" ++ ascii ": " := by decide +kernel
  have hagent : ascii "User-Agent: Mozilla/5.0 (Windows NT 10.0; Win64; x64) AppleWebKit/537.36 "
      = ascii "User-Agent" ++ (ascii ": "
        ++ ascii "Mozilla/5.0 (Windows NT 10.0; Win64; x64) AppleWebKit/537.36 ") := by
      decide +kernel
  have haccept :
      ascii "Accept: text/html,application/xhtml+xml,application/xml;q=0.9,*/*;q=0.8"
        = ascii "Accept" ++ (ascii ": "
          ++ ascii "text/html,application/xhtml+xml,application/xml;q=0.9,*/*;q=0.8") := by
      decide +kernel
  have hlanguage : ascii "Accept-Language: en-US,en;q=0.9"
      = ascii "Accept-Language" ++ (ascii ": " ++ ascii "en-US,en;q=0.9") := by decide +kernel
  have hencoding : ascii "Accept-Encoding: gzip, deflate, br"
      = ascii "Accept-Encoding" ++ (ascii ": " ++ ascii "gzip, deflate, br") := by decide +kernel
  have hcookie : ascii "Cookie: " = ascii "Cookie" ++ ascii ": " := by decide +kernel
  have hequals : ascii "=" = [0x3D] := by decide +kernel
  have hconnection : ascii "Connection: keep-alive"
      = ascii "Connection" ++ (ascii ": " ++ ascii "keep-alive") := by decide +kernel
  unfold admissionRequest
  simp only [hcrlf, hget, hversion, hhost, hagent, haccept, hlanguage, hencoding, hcookie, hequals,
    hconnection, requestLines, words, fields, Response.fieldLine, Admitter.cookie, List.map_cons,
    List.map_nil, List.intercalate_cons_cons, List.intercalate_singleton, List.append_assoc,
    List.cons_append, List.nil_append]

/-- The host and the target stay on their lines, and the target is a word. -/
structure Askable (host target : String) : Prop where
  host : cr ∉ asBytes host
  target : asBytes target ≠ [] ∧ cr ∉ asBytes target ∧ 0x20 ∉ asBytes target

instance (host target : String) : Decidable (Askable host target) :=
  decidable_of_iff (cr ∉ asBytes host
      ∧ asBytes target ≠ [] ∧ cr ∉ asBytes target ∧ 0x20 ∉ asBytes target)
    ⟨fun h => ⟨h.1, h.2⟩, fun h => ⟨h.1, h.2⟩⟩

section
variable {P : Primitives} {a : Admitter} {ts : UInt64} {nonce : ByteArr 16}
  {host target : String}

theorem cr_not_mem_cookie : cr ∉ Admitter.cookie (a.mint P ts nonce) := by
  have hname : cr ∉ ascii authCookie := by decide
  rw [Admitter.cookie, List.mem_append, List.mem_cons, not_or, not_or]
  exact ⟨hname, by decide, Admitter.not_mem_mint (by decide)⟩

theorem proper (h : Askable host target) :
    ProperRequest (words target) (fields host (a.mint P ts nonce)) where
  word := by
    have hget : ascii "GET" ≠ [] ∧ cr ∉ ascii "GET" ∧ 0x20 ∉ ascii "GET" := by decide
    have hversion : ascii "HTTP/1.1" ≠ [] ∧ cr ∉ ascii "HTTP/1.1" ∧ 0x20 ∉ ascii "HTTP/1.1" := by
      decide
    simp only [words, List.forall_mem_cons]
    exact ⟨hget, h.target, hversion, fun w hw => absurd hw List.not_mem_nil⟩
  name := by
    have hnames : ∀ name ∈ ["Host", "User-Agent", "Accept", "Accept-Language", "Accept-Encoding",
        "Cookie", "Connection"], ascii name ≠ [] ∧ cr ∉ ascii name ∧ 0x3A ∉ ascii name
        ∧ 0x20 ∉ ascii name := by decide
    intro f hf
    exact hnames f.1 (List.mem_map_of_mem (f := Prod.fst) hf)
  value := by
    have hagent : cr ∉ ascii "Mozilla/5.0 (Windows NT 10.0; Win64; x64) AppleWebKit/537.36 "
        ++ ascii "(KHTML, like Gecko) Chrome/131.0.0.0 Safari/537.36" := by decide +kernel
    have haccept : cr ∉ ascii "text/html,application/xhtml+xml,application/xml;q=0.9,*/*;q=0.8" := by
      decide +kernel
    have hlanguage : cr ∉ ascii "en-US,en;q=0.9" := by decide
    have hencoding : cr ∉ ascii "gzip, deflate, br" := by decide
    have hconnection : cr ∉ ascii "keep-alive" := by decide
    simp only [fields, List.forall_mem_cons]
    exact ⟨h.host, hagent, haccept, hlanguage, hencoding, cr_not_mem_cookie, hconnection,
      fun f hf => absurd hf List.not_mem_nil⟩

theorem isUtf8_intercalate {sep : Bytes} (hsep : isUtf8 sep = true) {ls : List Bytes}
    (h : ∀ l ∈ ls, isUtf8 l = true) : isUtf8 (sep.intercalate ls) = true := by
  induction ls with
  | nil => exact isUtf8_of_ascii fun a ha => absurd ha List.not_mem_nil
  | cons l ls ih =>
      obtain ⟨hl, hls⟩ := List.forall_mem_cons.mp h
      cases ls with
      | nil => rwa [List.intercalate_singleton]
      | cons k ks =>
          rw [List.intercalate_cons_cons]
          exact isUtf8_append (isUtf8_append hl hsep) (ih hls)

theorem isUtf8_head : isUtf8 (lineEnd.intercalate
    (requestLines (words target) (fields host (a.mint P ts nonce)))) = true := by
  have hfixed : ∀ s ∈ ["GET", "HTTP/1.1", ": ", "Host", "User-Agent", "Accept", "Accept-Language",
      "Accept-Encoding", "Cookie", "Connection"], isUtf8 (ascii s) = true := by decide +kernel
  have hagent : isUtf8 (ascii "Mozilla/5.0 (Windows NT 10.0; Win64; x64) AppleWebKit/537.36 "
      ++ ascii "(KHTML, like Gecko) Chrome/131.0.0.0 Safari/537.36") = true := by decide +kernel
  have hrest : ∀ s ∈ ["text/html,application/xhtml+xml,application/xml;q=0.9,*/*;q=0.8",
      "en-US,en;q=0.9", "gzip, deflate, br", "keep-alive"], isUtf8 (ascii s) = true := by
    decide +kernel
  have hcookie : isUtf8 (Admitter.cookie (a.mint P ts nonce)) = true := by
    refine isUtf8_append (by decide +kernel) (isUtf8_of_ascii fun b hb => ?_)
    rcases List.mem_cons.mp hb with rfl | hb
    · decide
    · exact (Admitter.isVisible_of_mem_mint hb).2
  have hvalue : ∀ f ∈ fields host (a.mint P ts nonce), isUtf8 f.2 = true := by
    simp only [fields, List.forall_mem_cons]
    exact ⟨isUtf8_asBytes host, hagent, hrest _ (by simp), hrest _ (by simp), hrest _ (by simp),
      hcookie, hrest _ (by simp), fun f hf => absurd hf List.not_mem_nil⟩
  refine isUtf8_intercalate (by decide +kernel) fun l hl => ?_
  rcases List.mem_cons.mp hl with rfl | hl
  · refine isUtf8_intercalate (by decide +kernel) ?_
    simp only [words, List.forall_mem_cons]
    exact ⟨hfixed _ (by simp), isUtf8_asBytes target, hfixed _ (by simp),
      fun w hw => absurd hw List.not_mem_nil⟩
  · obtain ⟨f, hf, rfl⟩ := List.mem_map.mp hl
    have hname : isUtf8 (ascii f.1) = true :=
      hfixed f.1 (List.mem_cons_of_mem _ (List.mem_cons_of_mem _ (List.mem_cons_of_mem _
        (List.mem_map_of_mem (f := Prod.fst) hf))))
    exact isUtf8_append (isUtf8_append hname (hfixed _ (by simp))) (hvalue f hf)

theorem cookie_values (token : Bytes) :
    valuesOf (ascii "cookie")
        ((fields host token).map fun f => (toAsciiLowercase (ascii f.1), 0x20 :: f.2))
      = [0x20 :: Admitter.cookie token] := by
  have hcookie : toAsciiLowercase (ascii "Cookie") = ascii "cookie" := by decide
  have hother : ∀ name ∈ ["Host", "User-Agent", "Accept", "Accept-Language", "Accept-Encoding",
      "Connection"], toAsciiLowercase (ascii name) ≠ ascii "cookie" := by decide
  simp only [fields, List.map_cons, List.map_nil, valuesOf_cons, hcookie, if_true]
  rw [if_neg (hother _ (by simp)), if_neg (hother _ (by simp)), if_neg (hother _ (by simp)),
    if_neg (hother _ (by simp)), if_neg (hother _ (by simp)), if_neg (hother _ (by simp))]
  rfl

theorem host_values (token : Bytes) :
    valuesOf (ascii "host")
        ((fields host token).map fun f => (toAsciiLowercase (ascii f.1), 0x20 :: f.2))
      = [0x20 :: asBytes host] := by
  have hhost : toAsciiLowercase (ascii "Host") = ascii "host" := by decide
  have hother : ∀ name ∈ ["User-Agent", "Accept", "Accept-Language", "Accept-Encoding", "Cookie",
      "Connection"], toAsciiLowercase (ascii name) ≠ ascii "host" := by decide
  simp only [fields, List.map_cons, List.map_nil, valuesOf_cons, hhost, if_true]
  rw [if_neg (hother _ (by simp)), if_neg (hother _ (by simp)), if_neg (hother _ (by simp)),
    if_neg (hother _ (by simp)), if_neg (hother _ (by simp)), if_neg (hother _ (by simp))]
  rfl

theorem no_length (token : Bytes) :
    valuesOf (ascii "content-length")
        ((fields host token).map fun f => (toAsciiLowercase (ascii f.1), 0x20 :: f.2)) = [] := by
  have hother : ∀ name ∈ ["Host", "User-Agent", "Accept", "Accept-Language", "Accept-Encoding",
      "Cookie", "Connection"], toAsciiLowercase (ascii name) ≠ ascii "content-length" := by decide
  refine Response.valuesOf_eq_nil fun kv hkv => ?_
  obtain ⟨f, hf, rfl⟩ := List.mem_map.mp hkv
  exact hother f.1 (List.mem_map_of_mem (f := Prod.fst) hf)

/-- All of the request is its head. -/
theorem length_admissionRequest (token : Bytes) :
    (admissionRequest host target token).length
      = (lineEnd.intercalate (requestLines (words target) (fields host token))).length + 4 := by
  rw [admissionRequest_eq, List.length_append]
  rfl

/-- The server reads the request, and nothing after it. -/
theorem readRequestHead_admission (h : Askable host target)
    (hlen : (admissionRequest host target (a.mint P ts nonce)).length ≤ maxHeadBytes)
    (rest : Bytes) :
    ∃ head, readRequestHead (admissionRequest host target (a.mint P ts nonce) ++ rest)
        = some (head, rest)
      ∧ head.method = ascii "GET" ∧ head.target = asBytes target
      ∧ head.version = ascii "HTTP/1.1" ∧ head.header "host" = some (trim (asBytes host))
      ∧ head.raw = admissionRequest host target (a.mint P ts nonce)
      ∧ authenticatorOf head = some ⟨ts, nonce, a.compute P ts nonce⟩
      ∧ head.contentLength = none := by
  rw [length_admissionRequest] at hlen
  obtain ⟨head, hread, hmethod, htarget, hversion, hraw, hheader⟩ :=
    readRequestHead_of_lines (proper h) (by decide) isUtf8_head hlen rest
  have hhost : head.header "host" = some (trim (asBytes host)) := by
    rw [hheader, host_values]
    exact congrArg some (trim_space (asBytes host))
  have hcookie : head.header "cookie" = some (Admitter.cookie (a.mint P ts nonce)) := by
    have hvisible : ∀ b ∈ Admitter.cookie (a.mint P ts nonce), IsVisible b := by
      have hname : ∀ b ∈ ascii authCookie ++ [0x3D], decide (IsVisible b) = true :=
        List.all_eq_true.mp (by decide)
      intro b hb
      rw [Admitter.cookie, ← List.singleton_append, ← List.append_assoc, List.mem_append] at hb
      exact hb.elim (fun hb => of_decide_eq_true (hname b hb)) Admitter.isVisible_of_mem_mint
    have htrim : trim ([0x20] ++ Admitter.cookie (a.mint P ts nonce))
        = Admitter.cookie (a.mint P ts nonce) :=
      trim_of_visible (by simp [Admitter.cookie]) hvisible (List.forall_mem_singleton.mpr rfl)
    rw [hheader, cookie_values]
    exact congrArg some htrim
  refine ⟨head, ?_, hmethod, htarget, hversion, hhost,
    hraw.trans (admissionRequest_eq host target _).symm, Admitter.authenticatorOf_mint hcookie, ?_⟩
  · rw [admissionRequest_eq, List.append_assoc]
    exact hread
  · rw [RequestHead.contentLength, hheader, no_length]
    rfl

end

end Entrance

/-! ## The door -/

/-- The token is of the door's password, from about now, and of a nonce that
it does not remember. -/
structure DoorState.Accepts (P : Primitives) (door : DoorState) (x : Authenticator) : Prop where
  mac : door.admitter.compute P x.timestamp x.nonce = x.mac
  window : door.admitter.InWindow x door.nowSecs
  unspent : ∀ s ∈ door.admitter.seen,
    absDiff door.nowSecs s.1 ≤ door.admitter.maxAge → s.2 ≠ x.nonce

instance (P : Primitives) (door : DoorState) (x : Authenticator) : Decidable (door.Accepts P x) :=
  -- by what is remembered, and not by all nonces
  letI := List.decidableBAll (fun s : UInt64 × ByteArr 16 =>
    absDiff door.nowSecs s.1 ≤ door.admitter.maxAge → s.2 ≠ x.nonce) door.admitter.seen
  decidable_of_iff (door.admitter.compute P x.timestamp x.nonce = x.mac
      ∧ door.admitter.InWindow x door.nowSecs
      ∧ ∀ s ∈ door.admitter.seen,
        absDiff door.nowSecs s.1 ≤ door.admitter.maxAge → s.2 ≠ x.nonce)
    ⟨fun h => ⟨h.1, h.2.1, h.2.2⟩, fun h => ⟨h.1, h.2, h.3⟩⟩

namespace DoorState

variable {P : Primitives} {door : DoorState} {head : RequestHead} {x : Authenticator}

theorem spend_iff {a : Admitter} {nowSecs : UInt64} :
    (a.spend nowSecs x).1 = .tunnel ↔
      ∀ s ∈ a.seen, absDiff nowSecs s.1 ≤ a.maxAge → s.2 ≠ x.nonce := by
  have hany : ((a.seen.filter fun s => absDiff nowSecs s.1 ≤ a.maxAge).any
      fun s => s.2 = x.nonce) = false ↔
        ∀ s ∈ a.seen, absDiff nowSecs s.1 ≤ a.maxAge → s.2 ≠ x.nonce := by
    simp [List.any_eq_false]
  rw [← hany, Admitter.spend]
  cases (a.seen.filter fun s => absDiff nowSecs s.1 ≤ a.maxAge).any fun s => s.2 = x.nonce with
  | true => exact iff_of_false (by rintro ⟨⟩) (by rintro ⟨⟩)
  | false => exact iff_of_true rfl rfl

/-- What opens the door. -/
theorem admission_iff (h : authenticatorOf head = some x) :
    door.admission P head = .tunnel ↔ door.Accepts P x := by
  rw [admission, Admitter.admitRequest_eq, Admitter.presented, h, Option.filter_some]
  by_cases hwindow : door.admitter.InWindow x door.nowSecs
  · rw [decide_eq_true hwindow, Bool.true_and]
    by_cases hmac : door.admitter.compute P x.timestamp x.nonce = x.mac
    · rw [if_pos (constantTimeEq_iff.mpr (congrArg List.Vector.toList hmac))]
      dsimp only
      rw [spend_iff]
      exact ⟨fun hunspent => ⟨hmac, hwindow, hunspent⟩, fun haccepts => haccepts.unspent⟩
    · rw [if_neg fun heq => hmac (ByteArr.toList_inj.mp (constantTimeEq_iff.mp heq))]
      exact iff_of_false (by rintro ⟨⟩) fun haccepts => hmac haccepts.mac
  · rw [decide_eq_false hwindow, Bool.false_and, if_neg Bool.false_ne_true]
    exact iff_of_false (by rintro ⟨⟩) fun haccepts => hwindow haccepts.window

end DoorState

theorem readBody_of_no_length {head : RequestHead} (h : head.contentLength = none)
    (stream : Bytes) : readBody head stream = (some [], stream) := by
  rw [readBody, h]
  rfl

/-- The request that the client enters with is read as it was written, to the
byte, and nothing of what follows it; and it opens the tunnel exactly where
its token is accepted. The answer is the same if it does not. -/
theorem entrance {P : Primitives} {origin : Origin} {a : Admitter} {ts : UInt64}
    {nonce : ByteArr 16} {host target : String} {door : DoorState} {doors : List DoorState}
    (h : Entrance.Askable host target)
    (hlen : (admissionRequest host target (a.mint P ts nonce)).length ≤ maxHeadBytes)
    (rest : Bytes) :
    ∃ head, head.method = ascii "GET" ∧ head.target = asBytes target ∧
      head.version = ascii "HTTP/1.1" ∧ head.header "host" = some (trim (asBytes host)) ∧
      head.raw = admissionRequest host target (a.mint P ts nonce) ∧
      runExchanges P origin (door :: doors)
          (admissionRequest host target (a.mint P ts nonce) ++ rest)
        = if door.Accepts P ⟨ts, nonce, a.compute P ts nonce⟩ then
            [{ first := true, head
               stream := admissionRequest host target (a.mint P ts nonce) ++ rest
               left := rest, action := .upgraded (origin head []) }]
          else
            { first := true, head
              stream := admissionRequest host target (a.mint P ts nonce) ++ rest
              left := rest, action := .answered (origin head []) true }
              :: serveWebExchanges P origin doors rest := by
  obtain ⟨head, hread, hmethod, htarget, hversion, hhost, hraw, hauth, hlength⟩ :=
    Entrance.readRequestHead_admission h hlen rest
  refine ⟨head, hmethod, htarget, hversion, hhost, hraw, ?_⟩
  rw [runExchanges, hread]
  dsimp only
  rw [readBody_of_no_length hlength]
  dsimp only
  by_cases haccepts : door.Accepts P ⟨ts, nonce, a.compute P ts nonce⟩
  · have htunnel := (DoorState.admission_iff hauth).mpr haccepts
    rw [if_pos haccepts, htunnel, if_neg (by decide)]
  · have hweb : door.admission P head = .web := by
      cases hadmission : door.admission P head with
      | web => rfl
      | tunnel => exact absurd ((DoorState.admission_iff hauth).mp hadmission) haccepts
    rw [if_neg haccepts, if_pos hweb]

/-- A client of the same password, half a minute ahead of the door. -/
theorem entrance_opens :
    ∃ head, head.target = asBytes "/" ∧ head.header "host" = some (ascii "example.org") ∧
      runExchanges .plain emptyOrigin [{ plainDoor with nowSecs := 970 }]
          (admissionRequest "example.org" "/"
              ((Admitter.new .plain (ascii "pw")).mint .plain 1000 (zeroArr 16)) ++ ascii "hello")
        = [{ first := true, head
             stream := admissionRequest "example.org" "/"
               ((Admitter.new .plain (ascii "pw")).mint .plain 1000 (zeroArr 16)) ++ ascii "hello"
             left := ascii "hello", action := .upgraded emptyResponse }] := by
  have haskable : Entrance.Askable "example.org" "/" := by decide
  have hlen : (admissionRequest "example.org" "/"
      ((Admitter.new .plain (ascii "pw")).mint .plain 1000 (zeroArr 16))).length ≤ maxHeadBytes := by
    decide +kernel
  have haccepts : DoorState.Accepts .plain { plainDoor with nowSecs := 970 }
      ⟨1000, zeroArr 16, (Admitter.new .plain (ascii "pw")).compute .plain 1000 (zeroArr 16)⟩ := by
    decide +kernel
  have hhost : trim (asBytes "example.org") = ascii "example.org" := by decide +kernel
  obtain ⟨head, -, htarget, -, hvalue, -, hrun⟩ := @entrance .plain emptyOrigin _ _ _ _ _
    { plainDoor with nowSecs := 970 } [] haskable hlen (ascii "hello")
  rw [if_pos haccepts] at hrun
  exact ⟨head, htarget, hvalue.trans (congrArg some hhost), hrun⟩

end Kanrin
