import Kanrin.Frontdoor

/-!
# Visitors

One connection of the front door, for as long as no request on it is
admitted: `ClientSession::run` for the first request and `serve_web` for
every later one, over everything the visitor sends before it closes.

The admitter is shared with the other connections and the clock runs, so a
request meets the two as they are then (`DoorState`). The origin is any
function of a request.

`serveWeb_eq`: a later request gets what it and the origin determine
(`webAction`). `alike_iff`: the first one gets the same if its body is there
to be read and it asks to keep the connection, and not otherwise.
-/

namespace Kanrin

open Lib

/-- `Origin::respond`, where it does not panic: the response to a request and
its body. -/
abbrev Origin := RequestHead → Bytes → Bytes

/-! ## Reading a request -/

/-- The loop of `read_request_head`, from what has been read so far. -/
def readHeadFrom (buf : Bytes) : (stream : Bytes) → Option (RequestHead × Bytes)
  | [] => none
  | byte :: stream =>
      match RequestHead.parse (buf ++ [byte]) with
      | .ok head => some (head, stream)
      | .error .incomplete => readHeadFrom (buf ++ [byte]) stream
      | .error _ => none

def readRequestHead (stream : Bytes) : Option (RequestHead × Bytes) := readHeadFrom [] stream

/-- `read_body`, and what it leaves of the stream. A body that is cut short
is read all the same. -/
def readBody (head : RequestHead) (stream : Bytes) : Option Bytes × Bytes :=
  let length := head.contentLength.getD 0
  if length = 0 then (some [], stream)
  else if length > maxRequestBody then (none, stream)
  else if length ≤ stream.length then (some (stream.take length), stream.drop length)
  else (none, [])

/-! ## Answering it -/

/-- What a visitor sees of a request. -/
inductive Action where
  /-- The response, and whether the connection is kept. -/
  | answered (response : Bytes) (kept : Bool)
  /-- The response, and then the tunnel. -/
  | upgraded (response : Bytes)
  /-- The connection ends without a response. -/
  | ended
deriving DecidableEq

/-- The admitter and the clock as a request finds them. -/
structure DoorState where
  admitter : Admitter
  nowSecs : UInt64

def DoorState.admission (P : Primitives) (d : DoorState) (head : RequestHead) : Admission :=
  (d.admitter.admitRequest P head d.nowSecs).1

variable (P : Primitives) (origin : Origin)

/-- `serve_web`, one request for each state of the door. The upgrade of a
kept connection is not wired: after its response the connection ends. -/
def serveWeb : List DoorState → Bytes → List Action
  | [], _ => []
  | door :: doors, stream =>
      match readRequestHead stream with
      | none => []
      | some (head, stream) =>
          let keepAlive := head.wantsKeepAlive
          let (body, stream) := readBody head stream
          let response := origin head (body.getD [])
          if door.admission P head = .tunnel then [.answered response false]
          else if keepAlive then .answered response true :: serveWeb doors stream
          else [.answered response false]

def run : List DoorState → Bytes → List Action
  | [], _ => []
  | door :: doors, stream =>
      match readRequestHead stream with
      | none => []
      | some (head, stream) =>
          match readBody head stream with
          | (none, _) => [.ended]
          | (some body, stream) =>
              let response := origin head body
              if door.admission P head = .web then
                .answered response true :: serveWeb P origin doors stream
              else [.upgraded response]

/-! ## A function of the request -/

/-- A request, with its body if it could be read. -/
structure Request where
  head : RequestHead
  body : Option Bytes

/-- The requests of a connection that is kept as long as each asks for it. -/
def requests : (n : Nat) → Bytes → List Request
  | 0, _ => []
  | n + 1, stream =>
      match readRequestHead stream with
      | none => []
      | some (head, stream) =>
          let (body, stream) := readBody head stream
          { head, body } :: if head.wantsKeepAlive then requests n stream else []

/-- What a later request gets. -/
def webAction (r : Request) : Action :=
  .answered (origin r.head (r.body.getD [])) r.head.wantsKeepAlive

/-- No request of the connection is admitted. -/
def Unadmitted (doors : List DoorState) (stream : Bytes) : Prop :=
  ∀ p ∈ (requests doors.length stream).zip doors, p.2.admission P p.1.head = .web

instance (doors : List DoorState) (stream : Bytes) : Decidable (Unadmitted P doors stream) :=
  inferInstanceAs (Decidable (∀ _ ∈ _, _))

/-- Every request gets what is a function of it and the origin, on a
connection that starts with it as on one that had others before. -/
structure Alike (doors : List DoorState) (stream : Bytes) : Prop where
  first : run P origin doors stream = (requests doors.length stream).map (webAction origin)
  later : serveWeb P origin doors stream = (requests doors.length stream).map (webAction origin)

variable {P origin}

theorem serveWeb_eq {doors : List DoorState} {stream : Bytes} (h : Unadmitted P doors stream) :
    serveWeb P origin doors stream = (requests doors.length stream).map (webAction origin) := by
  induction doors generalizing stream with
  | nil => rfl
  | cons door doors ih =>
      rw [Unadmitted, List.length_cons, requests] at h
      rw [serveWeb, List.length_cons, requests]
      cases hhead : readRequestHead stream with
      | none => rfl
      | some p =>
          obtain ⟨head, rest⟩ := p
          rw [hhead] at h
          dsimp only at h ⊢
          have hweb : door.admission P head = .web := h _ List.mem_cons_self
          rw [hweb, if_neg (by decide), List.map_cons, webAction]
          cases hkeep : head.wantsKeepAlive with
          | false => rfl
          | true =>
              rw [hkeep] at h
              refine congrArg _ (ih fun p hp => h p (List.mem_cons_of_mem _ hp))

/-- What it takes to read a body. -/
theorem readBody_isSome_iff {head : RequestHead} {stream : Bytes} :
    (readBody head stream).1.isSome = true
      ↔ head.contentLength.getD 0 ≤ maxRequestBody
        ∧ head.contentLength.getD 0 ≤ stream.length := by
  rw [readBody]
  split
  · rename_i hzero
    rw [hzero]
    exact iff_of_true rfl ⟨Nat.zero_le _, Nat.zero_le _⟩
  split
  · rename_i hlarge
    exact iff_of_false (fun h => nomatch h) fun h => absurd h.1 (not_le.mpr hlarge)
  split
  · rename_i hle hfits
    exact iff_of_true rfl ⟨not_lt.mp hle, hfits⟩
  · rename_i hshort
    exact iff_of_false (fun h => nomatch h) fun h => hshort h.2

theorem alike_iff {door : DoorState} {doors : List DoorState} {stream : Bytes}
    (h : Unadmitted P (door :: doors) stream) :
    Alike P origin (door :: doors) stream
      ↔ ∀ head rest, readRequestHead stream = some (head, rest) →
          head.contentLength.getD 0 ≤ maxRequestBody
            ∧ head.contentLength.getD 0 ≤ rest.length ∧ head.wantsKeepAlive = true := by
  have hlater : serveWeb P origin (door :: doors) stream
      = (requests (door :: doors).length stream).map (webAction origin) := serveWeb_eq h
  have hfirst : Alike P origin (door :: doors) stream
      ↔ run P origin (door :: doors) stream = serveWeb P origin (door :: doors) stream :=
    ⟨fun ha => ha.first.trans ha.later.symm, fun heq => ⟨heq.trans hlater, hlater⟩⟩
  rw [hfirst, run, serveWeb]
  cases hhead : readRequestHead stream with
  | none => exact iff_of_true rfl fun head rest hsome => nomatch hsome
  | some p =>
      obtain ⟨head, rest⟩ := p
      have hweb : door.admission P head = .web := by
        rw [Unadmitted, List.length_cons, requests, hhead] at h
        exact h _ List.mem_cons_self
      have hbody := @readBody_isSome_iff head rest
      dsimp only
      rw [hweb, if_neg (by decide : ¬ Admission.web = .tunnel)]
      constructor
      · intro heq head' rest' hsome
        obtain ⟨rfl, rfl⟩ := Prod.mk.inj (Option.some.inj hsome)
        rw [← and_assoc, ← hbody]
        cases hread : readBody head rest with
        | mk body rest' =>
            rw [hread] at heq
            cases body with
            | none =>
                cases hkeep : head.wantsKeepAlive <;> rw [hkeep] at heq <;> cases heq
            | some body =>
                refine ⟨rfl, ?_⟩
                cases hkeep : head.wantsKeepAlive with
                | true => rfl
                | false =>
                    rw [hkeep] at heq
                    obtain ⟨hfirst, -⟩ := List.cons.inj heq
                    cases hfirst
      · intro hcond
        obtain ⟨hmax, hlen, hkeep⟩ := hcond head rest rfl
        obtain ⟨body, hsome⟩ := Option.isSome_iff_exists.mp (hbody.mpr ⟨hmax, hlen⟩)
        rw [hkeep, if_pos rfl]
        cases hread : readBody head rest with
        | mk body' rest' =>
            rw [hread] at hsome
            obtain rfl : body' = some body := hsome
            rfl

/-! ## Two visitors -/

/-- What `Origin::Empty` answers. -/
def emptyResponse : Bytes :=
  ascii "HTTP/1.1 404 Not Found\r\nServer: nginx\r\nContent-Type: text/html\r\n"
    ++ ascii "Content-Length: 0\r\n\r\n"

def emptyOrigin : Origin := fun _ _ => emptyResponse

def plainDoor : DoorState := ⟨.new .plain (ascii "pw"), 1000⟩

def closing : Bytes := ascii "GET / HTTP/1.1\r\nConnection: close\r\n\r\n"

def oversized : Bytes := ascii "GET / HTTP/1.1\r\nContent-Length: 1048577\r\n\r\n"

theorem actions_closing :
    run .plain emptyOrigin [plainDoor] closing = [.answered emptyResponse true]
      ∧ serveWeb .plain emptyOrigin [plainDoor] closing = [.answered emptyResponse false] := by
  decide +kernel

theorem actions_oversized :
    run .plain emptyOrigin [plainDoor] oversized = [.ended]
      ∧ serveWeb .plain emptyOrigin [plainDoor] oversized = [.answered emptyResponse true] := by
  decide +kernel

/-- A request that asks to close the connection, and one that announces too
long a body, are treated one way when they come first and another way when
they come later. -/
theorem not_alike :
    (Unadmitted .plain [plainDoor] closing ∧ ¬ Alike .plain emptyOrigin [plainDoor] closing)
      ∧ Unadmitted .plain [plainDoor] oversized
      ∧ ¬ Alike .plain emptyOrigin [plainDoor] oversized := by
  refine ⟨⟨by decide +kernel, fun h => ?_⟩, by decide +kernel, fun h => ?_⟩
  · have heq := h.first.trans h.later.symm
    rw [actions_closing.1, actions_closing.2] at heq
    cases heq
  · have heq := h.first.trans h.later.symm
    rw [actions_oversized.1, actions_oversized.2] at heq
    cases heq

/-- A form is posted, and then a page is read. -/
def ordinary : Bytes :=
  ascii "POST / HTTP/1.1\r\nContent-Length: 3\r\n\r\na=1" ++ ascii "GET / HTTP/1.0\r\n\r\n"

theorem alike_ordinary :
    Unadmitted .plain [plainDoor, plainDoor] ordinary
      ∧ Alike .plain emptyOrigin [plainDoor, plainDoor] ordinary
      ∧ (requests 2 ordinary).length = 2 := by
  have h : Unadmitted .plain [plainDoor, plainDoor] ordinary := by decide +kernel
  have hcond : ∀ p ∈ readRequestHead ordinary, p.1.contentLength.getD 0 ≤ maxRequestBody
      ∧ p.1.contentLength.getD 0 ≤ p.2.length ∧ p.1.wantsKeepAlive = true := by decide +kernel
  exact ⟨h, (alike_iff h).mpr fun head rest hread => hcond (head, rest) hread, by decide +kernel⟩

end Kanrin
