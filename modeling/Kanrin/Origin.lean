import Kanrin.Lib.HeadLines
import Kanrin.StaticFiles
import Kanrin.Upstream
import Kanrin.Visitors

/-!
# The origin's own answers

`Origin::respond` of `kanrin-server/src/origin.rs` where no upstream gives
the answer, with what it uses of `http.rs`: the responses it builds and the
types it gives the files it serves.

Such a response always says how long its body is. That makes it one whole
HTTP/1.1 response to a request, unless the request is of a method whose
response has no body and there is one (`origin_response`).

The front door takes its origin as a function that always answers. In a build
without overflow checks every origin is one (`exists_origin`).
-/

namespace Kanrin

open Lib

/-! ## What is answered -/

def RequestHead.path (head : RequestHead) : Bytes :=
  (split [0x3F] head.target).headD (ascii "/")

namespace Response

def header (r : Response) (name : String) (value : Bytes) : Response :=
  { r with headers := r.headers ++ [(name, value)] }

def withBody (r : Response) (body : Bytes) : Response := { r with body }

def notFound : Response := .new 404 "Not Found"

end Response

/-- `str::rsplit_once`. -/
def rsplitOnce (c : UInt8) (s : Bytes) : Option (Bytes × Bytes) :=
  (splitOnce c s.reverse).map fun kv => (kv.2.reverse, kv.1.reverse)

/-- The extensions that `content_type_for` knows. -/
def contentTypes : List (String × String) :=
  [("html", "text/html; charset=utf-8"), ("htm", "text/html; charset=utf-8"), ("css", "text/css"),
    ("js", "application/javascript"), ("json", "application/json"), ("png", "image/png"),
    ("jpg", "image/jpeg"), ("jpeg", "image/jpeg"), ("svg", "image/svg+xml"),
    ("ico", "image/x-icon"), ("txt", "text/plain; charset=utf-8")]

def contentTypeFor (path : Bytes) : String :=
  match rsplitOnce 0x2E path with
  | some (_, ext) =>
      match contentTypes.find? fun t => toAsciiLowercase ext == ascii t.1 with
      | some (_, contentType) => contentType
      | none => "application/octet-stream"
  | none => "application/octet-stream"

/-- What the file system has to say. -/
structure FileSystem where
  isDir : PathBuf → Bool
  /-- `tokio::fs::read`; `none` is an error. -/
  read : PathBuf → Option Bytes
  /-- `to_string_lossy`. -/
  text : PathBuf → Bytes

/-- The source's `Origin`. -/
inductive OriginKind where
  | upstream
  | static (root : PathBuf) (serverBanner : Bytes)
  | empty

variable (style : Style) (fs : FileSystem)

def serveStatic (root : PathBuf) (head : RequestHead) (banner : Bytes) : Response :=
  let notFound := (Response.notFound.header "Server" banner).header "Content-Type"
    (ascii "text/html")
  match resolvePath style fs.isDir root head.path with
  | none => notFound
  | some path =>
      match fs.read path with
      | some contents =>
          (((Response.new 200 "OK").header "Server" banner).header "Content-Type"
            (ascii (contentTypeFor (fs.text path)))).withBody contents
      | none => notFound

namespace OriginKind

/-- The answer where none has come from an upstream. -/
def own (origin : OriginKind) (head : RequestHead) : Response :=
  match origin with
  | .upstream => .new 502 "Bad Gateway"
  | .static root banner => serveStatic style fs root head banner
  | .empty =>
      ((Response.new 404 "Not Found").header "Server" (ascii "nginx")).header "Content-Type"
        (ascii "text/html")

/-- `respond`; what an upstream sends is `none` where it cannot be reached. -/
def respond (build : Build) (upstream : Option (List Bytes × Ending)) (origin : OriginKind)
    (head : RequestHead) : Option Bytes :=
  match origin, upstream with
  | .upstream, some (reads, ending) => respondUpstream build reads ending
  | origin, _ => some (origin.own style fs head).encode

/-- What an origin is to the front door, whatever the upstream has to say to
a request and its body. -/
theorem exists_origin (upstream : RequestHead → Bytes → Option (List Bytes × Ending))
    (origin : OriginKind) :
    ∃ answer : Origin, ∀ head body,
      origin.respond style fs .wrapping (upstream head body) head = some (answer head body) := by
  have hsome : ∀ head body,
      (origin.respond style fs .wrapping (upstream head body) head).isSome = true := by
    intro head body
    unfold respond
    split
    · exact respondUpstream_wrapping ..
    · rfl
  exact ⟨fun head body => (origin.respond style fs .wrapping (upstream head body) head).get
    (hsome head body), fun head body => (Option.some_get _).symm⟩

/-- The origin of the two visitors. -/
theorem respond_empty (build : Build) (upstream : Option (List Bytes × Ending)) (head : RequestHead)
    (body : Bytes) :
    OriginKind.empty.respond style fs build upstream head = some (emptyOrigin head body) := by
  have hencode : (((Response.new 404 "Not Found").header "Server" (ascii "nginx")).header
      "Content-Type" (ascii "text/html")).encode = emptyResponse := by decide +kernel
  exact congrArg some hencode

end OriginKind

/-! ## What is written -/

namespace Response

/-- The status, the reason and the headers can be told apart. -/
structure Proper (r : Response) : Prop where
  status : 200 ≤ r.status ∧ r.status < 1000 ∧ r.status ≠ 204 ∧ r.status ≠ 304
  reason : cr ∉ ascii r.reason
  name : ∀ h ∈ r.headers, ascii h.1 ≠ [] ∧ cr ∉ ascii h.1 ∧ 0x3A ∉ ascii h.1
    ∧ (ascii h.1).any isOws = false
  framing : ∀ h ∈ r.headers, toAsciiLowercase (ascii h.1) ≠ literal "content-length"
    ∧ toAsciiLowercase (ascii h.1) ≠ literal "transfer-encoding"
  value : ∀ h ∈ r.headers, cr ∉ h.2

def statusLine (r : Response) : Bytes :=
  ascii "HTTP/1.1 " ++ ascii (toString r.status) ++ ascii " " ++ ascii r.reason

def fieldLine (h : String × Bytes) : Bytes := ascii h.1 ++ ascii ": " ++ h.2

def lengthLine (r : Response) : Bytes := ascii "Content-Length: " ++ ascii (toString r.body.length)

def lines (r : Response) : List Bytes := r.statusLine :: (r.headers.map fieldLine ++ [r.lengthLine])

theorem ascii_toString (n : Nat) : ascii (toString n) = digits 10 n := by
  rw [ascii, Nat.toString_eq_ofList_toDigits, String.toList_ofList]
  rfl

theorem flatMap_lineEnd (ls : List Bytes) (l : Bytes) :
    (ls.flatMap fun l => l ++ lineEnd) ++ l = lineEnd.intercalate (ls ++ [l]) := by
  induction ls with
  | nil => simp
  | cons k ls ih =>
      cases ls with
      | nil => simp [List.intercalate_cons_cons]
      | cons m ms =>
          rw [List.flatMap_cons, List.append_assoc, ih]
          simp [List.intercalate_cons_cons]

theorem encode_eq (r : Response) :
    r.encode = lineEnd.intercalate r.lines ++ (lineEnd ++ lineEnd ++ r.body) := by
  have hlines : r.lines = (r.statusLine :: r.headers.map fieldLine) ++ [r.lengthLine] := rfl
  rw [hlines, ← flatMap_lineEnd, List.flatMap_cons, List.flatMap_map]
  simp only [encode, statusLine, fieldLine, lengthLine, List.append_assoc]
  rfl

theorem cr_not_mem_digits (n : Nat) : cr ∉ digits 10 n :=
  not_mem_digits (by decide) (by decide) (by decide)

theorem isLine_fieldLine {f : String × Bytes} (hne : ascii f.1 ≠ []) (hname : cr ∉ ascii f.1)
    (hvalue : cr ∉ f.2) : IsLine (fieldLine f) := by
  have hcolon : cr ∉ ascii ": " := by decide
  refine ⟨fun hnil => hne ?_, ?_⟩
  · exact (List.append_eq_nil_iff.mp (List.append_eq_nil_iff.mp hnil).1).1
  · simp only [fieldLine, List.mem_append, not_or]
    exact ⟨⟨hname, hcolon⟩, hvalue⟩

theorem splitOnce_fieldLine {f : String × Bytes} (h : 0x3A ∉ ascii f.1) :
    splitOnce 0x3A (fieldLine f) = some (ascii f.1, 0x20 :: f.2) := by
  have hline : fieldLine f = ascii f.1 ++ 0x3A :: (0x20 :: f.2) := by
    rw [fieldLine, List.append_assoc]
    rfl
  rw [hline, splitOnce_of_not_mem h]

theorem filterMap_fieldLine {fs : List (String × Bytes)} (h : ∀ f ∈ fs, 0x3A ∉ ascii f.1) :
    (fs.map fieldLine).filterMap (splitOnce 0x3A) = fs.map fun f => (ascii f.1, 0x20 :: f.2) := by
  rw [List.filterMap_map, ← List.filterMap_eq_map']
  exact List.filterMap_congr fun f hf => splitOnce_fieldLine (h f hf)

variable {r : Response}

theorem Proper.isLine (h : r.Proper) : ∀ l ∈ r.lines, IsLine l := by
  intro l hl
  rcases List.mem_cons.mp hl with rfl | hl
  · refine ⟨by simp [statusLine, ascii], ?_⟩
    have hversion : cr ∉ ascii "HTTP/1.1 " ∧ cr ∉ ascii " " := by decide
    simp only [statusLine, ascii_toString, List.mem_append, not_or]
    exact ⟨⟨⟨hversion.1, cr_not_mem_digits _⟩, hversion.2⟩, h.reason⟩
  rcases List.mem_append.mp hl with hl | hl
  · obtain ⟨field, hfield, rfl⟩ := List.mem_map.mp hl
    obtain ⟨hne, hcr, -, -⟩ := h.name field hfield
    exact isLine_fieldLine hne hcr (h.value field hfield)
  · obtain rfl := List.mem_singleton.mp hl
    have hname : cr ∉ ascii "Content-Length: " := by decide
    refine ⟨by simp [lengthLine, ascii], ?_⟩
    simp only [lengthLine, ascii_toString, List.mem_append, not_or]
    exact ⟨hname, cr_not_mem_digits _⟩

/-- The head ends where it was meant to. -/
theorem Proper.blank (h : r.Proper) :
    splitOnceAt (lineEnd ++ lineEnd) r.encode = some (lineEnd.intercalate r.lines, r.body) := by
  rw [encode_eq]
  exact splitOnceAt_blank (List.cons_ne_nil _ _) h.isLine r.body

theorem Proper.split_head (h : r.Proper) :
    split lineEnd (lineEnd.intercalate r.lines) = r.lines :=
  split_intercalate (List.cons_ne_nil _ _) fun l hl => (h.isLine l hl).no_cr

/-! ## How it is read -/

theorem splitOnce_lengthLine (r : Response) :
    splitOnce 0x3A r.lengthLine
      = some (ascii "Content-Length", 0x20 :: digits 10 r.body.length) := by
  have hline :
      r.lengthLine = ascii "Content-Length" ++ 0x3A :: (0x20 :: digits 10 r.body.length) := by
    rw [lengthLine, ascii_toString]
    rfl
  rw [hline, splitOnce_of_not_mem (by decide)]

theorem not_isOws {s : Bytes} (h : s.any isOws = false) : ∀ b ∈ s, isOws b = false :=
  fun b hb => Bool.eq_false_of_not_eq_true (List.any_eq_false.mp h b hb)

theorem Proper.isField (h : r.Proper) : ∀ l ∈ r.lines.tail, IsField l := by
  intro l hl
  rcases List.mem_append.mp hl with hl | hl
  · obtain ⟨field, hfield, rfl⟩ := List.mem_map.mp hl
    obtain ⟨hne, -, hcolon, hows⟩ := h.name field hfield
    exact ⟨_, _, splitOnce_fieldLine hcolon, hne, not_isOws hows⟩
  · obtain rfl := List.mem_singleton.mp hl
    exact ⟨_, _, splitOnce_lengthLine r, by decide, not_isOws (by decide)⟩

theorem Proper.statusCode_eq (h : r.Proper) : statusCode r.statusLine = some r.status := by
  have hlength : (digits 10 r.status).length = 3 := by
    obtain ⟨hlow, hhigh, -⟩ := h.status
    have hle := (Nat.length_toDigits_le_iff (b := 10) (n := r.status) (k := 3) (by decide)
      (by decide)).mpr hhigh
    have hgt := mt (Nat.length_toDigits_le_iff (b := 10) (n := r.status) (k := 2) (by decide)
      (by decide)).mp (by omega)
    rw [digits, List.length_map]
    omega
  obtain ⟨a, b, c, habc⟩ := List.length_eq_three.mp hlength
  have hline : r.statusLine = literal "HTTP/1.1 " ++ ([a, b, c] ++ 0x20 :: ascii r.reason) := by
    rw [statusLine, ascii_toString, habc, List.append_assoc, List.append_assoc]
    rfl
  have hnumeral : numeral 10 (digits 10 r.status) = some r.status :=
    numeral_digits (by decide) (by decide) r.status
  rw [habc] at hnumeral
  rw [hline, statusCode, if_pos ⟨List.isPrefixOf_iff_prefix.mpr (List.prefix_append _ _), rfl⟩]
  exact hnumeral

theorem valuesOf_append (name : Bytes) (fields fields' : List (Bytes × Bytes)) :
    valuesOf name (fields ++ fields') = valuesOf name fields ++ valuesOf name fields' := by
  rw [valuesOf, List.filter_append, List.map_append]
  rfl

theorem valuesOf_eq_nil {name : Bytes} {fields : List (Bytes × Bytes)}
    (h : ∀ kv ∈ fields, kv.1 ≠ name) : valuesOf name fields = [] := by
  rw [valuesOf, List.filter_eq_nil_iff.mpr fun kv hkv => by simpa using h kv hkv]
  rfl

/-- The length is the only thing that says where the body ends. -/
theorem Proper.fields (h : r.Proper) :
    valuesOf (literal "transfer-encoding") (fieldsOf r.lines.tail) = []
      ∧ valuesOf (literal "content-length") (fieldsOf r.lines.tail)
          = [0x20 :: digits 10 r.body.length] := by
  have hfields : fieldsOf r.lines.tail
      = r.headers.map (fun field => (toAsciiLowercase (ascii field.1), 0x20 :: field.2))
        ++ [(literal "content-length", 0x20 :: digits 10 r.body.length)] := by
    have hheaders := filterMap_fieldLine fun field hfield => (h.name field hfield).2.2.1
    have htail : r.lines.tail = r.headers.map fieldLine ++ [r.lengthLine] := rfl
    rw [fieldsOf, htail, List.filterMap_append, hheaders, List.map_append, List.map_map,
      List.filterMap_cons, splitOnce_lengthLine]
    rfl
  have hother : ∀ kv ∈ r.headers.map fun field =>
      (toAsciiLowercase (ascii field.1), 0x20 :: field.2),
      kv.1 ≠ literal "content-length" ∧ kv.1 ≠ literal "transfer-encoding" := by
    intro kv hkv
    obtain ⟨field, hfield, rfl⟩ := List.mem_map.mp hkv
    exact h.framing field hfield
  rw [hfields, valuesOf_append, valuesOf_append, valuesOf_eq_nil fun kv hkv => (hother kv hkv).2,
    valuesOf_eq_nil fun kv hkv => (hother kv hkv).1]
  exact ⟨rfl, rfl⟩

theorem lengthFraming_digits (n : Nat) : lengthFraming [0x20 :: digits 10 n] = .length n := by
  have hcomma : (0x2C : UInt8) ∉ 0x20 :: digits 10 n := by
    intro hmem
    rcases List.mem_cons.mp hmem with hmem | hmem
    · cases hmem
    · exact not_mem_digits (by decide) (by decide) (by decide) hmem
  have hows : ∀ b ∈ digits 10 n, isOws b = false := by
    intro b hb
    by_contra hne
    rw [Bool.not_eq_false, isOws, Bool.or_eq_true, beq_iff_eq, beq_iff_eq] at hne
    rcases hne with rfl | rfl
    · exact not_mem_digits (by decide) (by decide) (by decide) hb
    · exact not_mem_digits (by decide) (by decide) (by decide) hb
  have htrim : trimOws (0x20 :: digits 10 n) = digits 10 n := by
    have hdrop : (0x20 :: digits 10 n).dropWhile isOws = digits 10 n := by
      rw [List.dropWhile_cons_of_pos rfl]
      cases hd : digits 10 n with
      | nil => rfl
      | cons b rest =>
          have hb := hows b (hd ▸ List.mem_cons_self)
          rw [List.dropWhile_cons_of_neg (by rw [hb]; exact Bool.false_ne_true)]
    rw [trimOws, hdrop, List.rdropWhile_eq_self_iff]
    intro hne hlast
    rw [hows _ (List.getLast_mem hne)] at hlast
    cases hlast
  have hitems : [0x20 :: digits 10 n].flatMap listItems = [digits 10 n] := by
    rw [List.flatMap_singleton, listItems, split_of_not_mem hcomma, List.map_singleton, htrim]
  have hnumeral : numeral 10 (digits 10 n) = some n := numeral_digits (by decide) (by decide) n
  rw [lengthFraming, hitems]
  simp [hnumeral]

/-- Methods whose answer has no body, of those that succeed. -/
def Bodyless (method : Bytes) (status : Nat) : Prop :=
  method = literal "HEAD" ∨ (method = literal "CONNECT" ∧ status / 100 = 2)

instance (method : Bytes) (status : Nat) : Decidable (Bodyless method status) :=
  inferInstanceAs (Decidable (_ ∨ _))

theorem Proper.responseBody_eq (h : r.Proper) (method : Bytes) :
    responseBody method r.status (fieldsOf r.lines.tail)
      = if Bodyless method r.status then .absent else .length r.body.length := by
  obtain ⟨hlow, hhigh, h204, h304⟩ := h.status
  obtain ⟨hcoding, hlength⟩ := h.fields
  have hone : r.status / 100 ≠ 1 := by omega
  rw [responseBody]
  by_cases hbodyless : Bodyless method r.status
  · rw [if_pos hbodyless, if_pos]
    rcases hbodyless with hhead | hconnect
    · exact Or.inl hhead
    · exact Or.inr (Or.inr (Or.inr (Or.inr hconnect)))
  · rw [if_neg hbodyless, if_neg, hcoding, hlength]
    · simp only [lengthFraming_digits]
    · rintro (hhead | hstatus | hstatus | hstatus | hconnect)
      · exact hbodyless (Or.inl hhead)
      · exact hone hstatus
      · exact h204 hstatus
      · exact h304 hstatus
      · exact hbodyless (Or.inr hconnect)

/-- A proper response is read as its body, or not at all. -/
theorem Proper.isResponse_iff (h : r.Proper) {method : Bytes} {body : ResponseBody}
    {text rest : Bytes} :
    IsResponse method r.encode body text rest ↔
      text = lineEnd.intercalate r.lines ∧ rest = r.body
        ∧ (body = if Bodyless method r.status then .absent else .length r.body.length)
        ∧ (Bodyless method r.status → r.body = []) := by
  have hfirst : (split lineEnd (lineEnd.intercalate r.lines)).headD [] = r.statusLine := by
    rw [h.split_head]
    rfl
  constructor
  · intro hresponse
    obtain ⟨htext, hrest⟩ := Prod.mk.inj (Option.some.inj (h.blank.symm.trans hresponse.blank))
    subst htext hrest
    obtain ⟨code, hcode, hbody⟩ := hresponse.status
    rw [hfirst, h.statusCode_eq] at hcode
    obtain rfl := Option.some.inj hcode
    rw [h.split_head, h.responseBody_eq] at hbody
    refine ⟨rfl, rfl, hbody.symm, fun hbodyless => ?_⟩
    have hends := hresponse.ends
    rw [← hbody, if_pos hbodyless] at hends
    exact hends
  · rintro ⟨rfl, rfl, rfl, hempty⟩
    refine ⟨h.blank, ?_, ⟨r.status, ?_, ?_⟩, ?_⟩
    · rw [h.split_head]
      exact h.isField
    · rw [hfirst]
      exact h.statusCode_eq
    · rw [h.split_head]
      exact h.responseBody_eq method
    · split
      · rename_i hbodyless
        exact hempty hbodyless
      · exact rfl

end Response

/-! ## The answers are proper -/

namespace OriginKind

variable {style : Style} {fs : FileSystem}

/-- What the file system has behind the path that is asked for. -/
def contents (style : Style) (fs : FileSystem) (origin : OriginKind) (head : RequestHead) : Bytes :=
  match origin with
  | .static root _ =>
      ((resolvePath style fs.isDir root head.path).bind fs.read).getD []
  | .upstream | .empty => []

/-- The banner is one line. -/
def Presentable : OriginKind → Prop
  | .static _ banner => cr ∉ banner
  | .upstream | .empty => True

theorem not_mem_nginx : cr ∉ ascii "nginx" := by decide

theorem cr_not_mem_contentTypeFor (path : Bytes) : cr ∉ ascii (contentTypeFor path) := by
  have hknown : ∀ t ∈ contentTypes, cr ∉ ascii t.2 := by decide
  have hother : cr ∉ ascii "application/octet-stream" := by decide
  rw [contentTypeFor]
  split
  · split
    · rename_i hfind
      exact hknown _ (List.mem_of_find?_eq_some hfind)
    · exact hother
  · exact hother

/-- A server banner and a type, as the origin writes them. -/
theorem proper_of_headers {status : Nat} {reason : String} {banner contentType body : Bytes}
    (hstatus : 200 ≤ status ∧ status < 1000 ∧ status ≠ 204 ∧ status ≠ 304)
    (hreason : cr ∉ ascii reason) (hbanner : cr ∉ banner) (htype : cr ∉ contentType) :
    ((((Response.new status reason).header "Server" banner).header "Content-Type"
      contentType).withBody body).Proper := by
  have hnames : ∀ name ∈ ["Server", "Content-Type"], (ascii name ≠ [] ∧ cr ∉ ascii name
      ∧ 0x3A ∉ ascii name ∧ (ascii name).any isOws = false)
      ∧ toAsciiLowercase (ascii name) ≠ literal "content-length"
      ∧ toAsciiLowercase (ascii name) ≠ literal "transfer-encoding" := by decide
  have hmem : ∀ h ∈ [("Server", banner), ("Content-Type", contentType)],
      h.1 ∈ ["Server", "Content-Type"] ∧ cr ∉ h.2 := by
    intro h hh
    rcases List.mem_cons.mp hh with rfl | hh
    · exact ⟨List.mem_cons_self, hbanner⟩
    · obtain rfl := List.mem_singleton.mp hh
      exact ⟨List.mem_cons_of_mem _ List.mem_cons_self, htype⟩
  exact ⟨hstatus, hreason, fun h hh => (hnames _ (hmem h hh).1).1,
    fun h hh => (hnames _ (hmem h hh).1).2, fun h hh => (hmem h hh).2⟩

theorem proper_own {origin : OriginKind} (h : origin.Presentable) (head : RequestHead) :
    (origin.own style fs head).Proper := by
  have hhtml : cr ∉ ascii "text/html" := by decide
  have hbad : (Response.new 502 "Bad Gateway").Proper :=
    ⟨by decide, by decide, fun _ hmem => absurd hmem List.not_mem_nil,
      fun _ hmem => absurd hmem List.not_mem_nil, fun _ hmem => absurd hmem List.not_mem_nil⟩
  cases origin with
  | upstream => exact hbad
  | static root banner =>
      have hnotFound : ((Response.notFound.header "Server" banner).header "Content-Type"
          (ascii "text/html")).Proper := proper_of_headers (by decide) (by decide) h hhtml
      rw [own, serveStatic]
      split
      · exact hnotFound
      · split
        · exact proper_of_headers (by decide) (by decide) h (cr_not_mem_contentTypeFor _)
        · exact hnotFound
  | empty => exact proper_of_headers (by decide) (by decide) not_mem_nginx hhtml

theorem body_own (origin : OriginKind) (head : RequestHead) :
    (origin.own style fs head).body = origin.contents style fs head := by
  cases origin with
  | upstream | empty => rfl
  | static root banner =>
      rw [own, serveStatic, contents]
      cases resolvePath style fs.isDir root head.path with
      | none => rfl
      | some path =>
          rw [Option.bind_some]
          cases hread : fs.read path with
          | none => simp only [hread]; rfl
          | some body => simp only [hread]; rfl

/-- Only a file that is served comes with a status that a `CONNECT` could
make a tunnel of. -/
theorem status_own {origin : OriginKind} {head : RequestHead}
    (h : origin.contents style fs head ≠ []) : (origin.own style fs head).status = 200 := by
  cases origin with
  | upstream | empty => exact absurd rfl h
  | static root banner =>
      rw [contents] at h
      rw [own, serveStatic]
      cases hpath : resolvePath style fs.isDir root head.path with
      | none =>
          rw [hpath] at h
          exact absurd rfl h
      | some path =>
          rw [hpath, Option.bind_some] at h
          cases hread : fs.read path with
          | none =>
              rw [hread] at h
              exact absurd rfl h
          | some body => simp only [hread]; rfl

theorem respond_eq_own {build : Build} {upstream : Option (List Bytes × Ending)}
    {origin : OriginKind} {head : RequestHead} (hown : origin = .upstream → upstream = none) :
    origin.respond style fs build upstream head = some (origin.own style fs head).encode := by
  cases origin with
  | upstream =>
      rw [hown rfl]
      rfl
  | static root banner => rfl
  | empty => rfl

/-- Whatever the origin answers on its own is read as the contents of the
file, or as nothing where there is none; and it is a whole response to the
request, unless the method takes no body and the file is not empty. -/
theorem origin_response {build : Build} {upstream : Option (List Bytes × Ending)}
    {origin : OriginKind} {head : RequestHead} {bytes : Bytes} (h : origin.Presentable)
    (hown : origin = .upstream → upstream = none)
    (hrespond : origin.respond style fs build upstream head = some bytes) :
    (∀ delimited text rest, IsResponse head.method bytes delimited text rest →
        rest = origin.contents style fs head) ∧
      ((∃ delimited text rest, IsResponse head.method bytes delimited text rest) ↔
        origin.contents style fs head = []
          ∨ (head.method ≠ ascii "HEAD" ∧ head.method ≠ ascii "CONNECT")) := by
  obtain rfl := Option.some.inj ((respond_eq_own hown).symm.trans hrespond)
  have hproper : (origin.own style fs head).Proper := proper_own h head
  have hbody : (origin.own style fs head).body = origin.contents style fs head :=
    body_own origin head
  refine ⟨fun delimited text rest hresponse => ?_, ?_⟩
  · obtain ⟨-, hrest, -⟩ := hproper.isResponse_iff.mp hresponse
    exact hrest.trans hbody
  constructor
  · rintro ⟨delimited, text, rest, hresponse⟩
    obtain ⟨-, -, -, hempty⟩ := hproper.isResponse_iff.mp hresponse
    by_cases hcontents : origin.contents style fs head = []
    · exact Or.inl hcontents
    · have hnot : ¬ Response.Bodyless head.method (origin.own style fs head).status :=
        fun hbodyless => hcontents (hbody.symm.trans (hempty hbodyless))
      rw [status_own hcontents] at hnot
      exact Or.inr ⟨fun heq => hnot (Or.inl heq), fun heq => hnot (Or.inr ⟨heq, rfl⟩)⟩
  · intro hfits
    refine ⟨_, _, _, hproper.isResponse_iff.mpr ⟨rfl, rfl, rfl, fun hbodyless => ?_⟩⟩
    rcases hfits with hcontents | ⟨hhead, hconnect⟩
    · exact hbody.trans hcontents
    · rcases hbodyless with heq | ⟨heq, -⟩
      · exact absurd heq hhead
      · exact absurd heq hconnect

/-- A site of one page. -/
def onePage : FileSystem where
  isDir _ := false
  read _ := some (ascii "hello")
  text _ := ascii "/www/a"

def www : PathBuf := .parse .posix (ascii "/www")

def pageRequest (method : String) : RequestHead where
  method := ascii method
  target := ascii "/a"
  version := ascii "HTTP/1.1"
  headers := fun _ => none
  headLen := 0
  raw := []

theorem resolvePath_page :
    resolvePath .posix onePage.isDir www (ascii "/a") = some (www.below [ascii "a"]) := by
  have hpushed : pushed (ascii "/a") = [ascii "a"] := by decide
  refine resolvePath_eq_some_iff.mpr ⟨ascii "/a", by decide, ?_, ?_⟩
  · rw [hpushed]
    decide
  · rw [hpushed]
    exact (if_neg Bool.false_ne_true).symm

/-- Of a `HEAD` request the whole page is sent. -/
theorem origin_response_head :
    ∃ bytes, (OriginKind.static www (ascii "nginx")).respond .posix onePage .checked none
        (pageRequest "HEAD") = some bytes ∧
      ¬ ∃ delimited text rest,
        IsResponse (pageRequest "HEAD").method bytes delimited text rest := by
  have hpath : (pageRequest "HEAD").path = ascii "/a" := by decide
  have hcontents : (OriginKind.static www (ascii "nginx")).contents .posix onePage
      (pageRequest "HEAD") = ascii "hello" := by
    rw [contents, hpath, resolvePath_page]
    rfl
  have hbanner : (OriginKind.static www (ascii "nginx")).Presentable := not_mem_nginx
  have hrespond := @respond_eq_own .posix onePage .checked none
    (.static www (ascii "nginx")) (pageRequest "HEAD") (by rintro ⟨⟩)
  have hiff := (origin_response hbanner (by rintro ⟨⟩) hrespond).2
  refine ⟨_, hrespond, fun h => ?_⟩
  rcases hiff.mp h with hempty | ⟨hhead, -⟩
  · rw [hcontents] at hempty
    cases hempty
  · exact hhead rfl

end OriginKind

end Kanrin
