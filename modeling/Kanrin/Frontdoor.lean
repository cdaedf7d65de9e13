import Kanrin.Http
import Kanrin.Wire

/-!
# The front door

The part of `kanrin-server/src/frontdoor.rs` that decides whether a
request opens the tunnel: the authenticator a client sends in a cookie
(`Admitter.mint`) and the check of it (`Admitter.admitRequest`, the source's `admit`).

`length_of_admitted` is a bound on what has to be on the wire before any
request is admitted.
-/

namespace Kanrin

open Lib

def authCookie : String := "sid"

inductive Admission where
  | web
  | tunnel
deriving DecidableEq, Repr

def hex (bytes : Bytes) : Bytes := bytes.flatMap fun b => ascii (hexByte b)

/-- The loop of `unhex`. -/
def unhexFrom : (n : Nat) → Bytes → Option (ByteArr n)
  | 0, _ => some .nil
  | n + 1, s => do
      let byte ← fromStrRadix 16 8 (s.take 2)
      let rest ← unhexFrom n (s.drop 2)
      return UInt8.ofNat byte ::ᵥ rest

def unhex (n : Nat) (s : Bytes) : Option (ByteArr n) :=
  if s.length ≠ n * 2 then none else unhexFrom n s

def cookieValue (header : Bytes) (name : String) : Option Bytes :=
  (split [0x3B] header).findSome? fun pair =>
    match splitOnce 0x3D pair with
    | none => none
    | some (k, v) => if trim k = ascii name then some (trim v) else none

structure Admitter where
  key : Key
  maxAge : UInt64
  seen : List (UInt64 × ByteArr 16)

namespace Admitter

variable (P : Primitives)

def new (password : Bytes) : Admitter where
  key := macSha256 P (zeroArr 32) [ascii "kanrin-frontdoor", password]
  maxAge := 120
  seen := []

def compute (a : Admitter) (timestamp : UInt64) (nonce : ByteArr 16) : ByteArr 32 :=
  macSha256 P a.key [ascii "kanrin-admit", (u64ToBe timestamp).toList, nonce.toList]

/-- The authenticator, with the nonce drawn for it. -/
def mint (a : Admitter) (nowSecs : UInt64) (nonce : ByteArr 16) : Bytes :=
  (Nat.toDigits 16 nowSecs.toNat).map (fun c => UInt8.ofNat c.toNat) ++ ascii ":"
    ++ hex nonce.toList ++ ascii ":" ++ hex (a.compute P nowSecs nonce).toList

def admitRequest (a : Admitter) (head : RequestHead) (nowSecs : UInt64) : Admission × Admitter :=
  match cookieValue ((head.header "cookie").getD []) authCookie with
  | none => (.web, a)
  | some token =>
      match split [0x3A] token with
      | [ts, nonce, mac] =>
          match fromStrRadix 16 64 ts, unhex 16 nonce, unhex 32 mac with
          | some timestamp, some nonce, some mac =>
              let timestamp := UInt64.ofNat timestamp
              if absDiff nowSecs timestamp > a.maxAge then (.web, a)
              else if !constantTimeEq (a.compute P timestamp nonce).toList mac.toList then (.web, a)
              else
                let seen := a.seen.filter fun s => absDiff nowSecs s.1 ≤ a.maxAge
                if seen.any fun s => s.2 = nonce then (.web, { a with seen })
                else (.tunnel, { a with seen := seen ++ [(timestamp, nonce)] })
          | _, _, _ => (.web, a)
      | _ => (.web, a)

end Admitter

/-! ## What an admitted request has carried -/

theorem length_unhex {n : Nat} {s : Bytes} {a : ByteArr n} (h : unhex n s = some a) :
    s.length = n * 2 := by
  rw [unhex] at h
  split at h
  · cases h
  · rename_i hlen
    exact not_not.mp hlen

theorem length_cookieValue {header v : Bytes} {name : String}
    (h : cookieValue header name = some v) : (ascii name).length + 1 + v.length ≤ header.length := by
  obtain ⟨pair, hpair, hv⟩ := List.exists_of_findSome?_eq_some h
  have hle := length_le_of_mem_split (by decide) hpair
  split at hv
  · cases hv
  rename_i k v' hsplit
  split at hv
  · rename_i hname
    obtain rfl := Option.some.inj hv
    have hk := length_trim_le k
    have hv' := length_trim_le v'
    rw [hname] at hk
    rw [splitOnce_eq_some hsplit, List.length_append, List.length_cons] at hle
    omega
  · cases hv

/-- The token of an admitted request has room for a nonce and a MAC. -/
theorem length_token_of_admitted {P : Primitives} {a : Admitter} {head : RequestHead}
    {nowSecs : UInt64} (h : (a.admitRequest P head nowSecs).1 = .tunnel) :
    ∃ token, cookieValue ((head.header "cookie").getD []) authCookie = some token
      ∧ 98 ≤ token.length := by
  rw [Admitter.admitRequest] at h
  split at h
  · cases h
  rename_i token htoken
  split at h
  · rename_i ts nonce mac hsplit
    split at h
    · rename_i timestamp nonce' mac' _ hnonce hmac
      refine ⟨token, htoken, ?_⟩
      have hjoin := intercalate_split (List.cons_ne_nil 0x3A []) token
      rw [hsplit, List.intercalate_cons_cons, List.intercalate_cons_cons,
        List.intercalate_singleton] at hjoin
      have hn := length_unhex hnonce
      have hm := length_unhex hmac
      rw [← hjoin]
      simp only [List.length_append, List.length_singleton]
      omega
    · cases h
  · cases h

/-- No request is admitted before at least 113 bytes of it have arrived. -/
theorem length_of_admitted {P : Primitives} {a : Admitter} {buf : Bytes} {head : RequestHead}
    {nowSecs : UInt64} (hparse : RequestHead.parse buf = .ok head)
    (h : (a.admitRequest P head nowSecs).1 = .tunnel) : 113 ≤ buf.length := by
  obtain ⟨token, htoken, hlen⟩ := length_token_of_admitted h
  have hcookie := length_cookieValue htoken
  have hsid : (ascii authCookie).length = 3 := rfl
  have hname : (ascii "cookie").length = 6 := rfl
  cases hget : head.header "cookie" with
  | none =>
      rw [hget, Option.getD_none, List.length_nil] at hcookie
      omega
  | some value =>
      have hhead := length_header hparse hget
      rw [hget, Option.getD_some] at hcookie
      omega

-- a request that carries a minted authenticator is admitted
example :
    let a := Admitter.new .plain (ascii "pw")
    let token := a.mint .plain 1800000000 (zeroArr 16)
    (RequestHead.parse (ascii "GET / HTTP/1.1\r\nCookie: sid=" ++ token ++ crlf ++ crlf)).map
      (fun head => (a.admitRequest .plain head 1800000000).1) = .ok .tunnel := by decide +kernel

end Kanrin
