import Kanrin.Lib.Codec
import Kanrin.Agreement
import Kanrin.Resume

/-!
# Handshake and resumption messages on the wire

The six codecs of `handshake.rs` and `resume.rs`, with whatever follows a
message and with every beginning of one. No decoder reads past its message,
so all that is needed of each is its round trip.

A `ServerFinished` without a token is sent with a token of length zero, and
that is what such a token is read as: an empty token does not come back.
-/

namespace Kanrin

open Lib

/-! ## Where a message ends -/

theorem ClientHello.delimited : Delimited encode decode where
  stable p m t h := by
    obtain ⟨hp, h⟩ := dite_error_eq_ok.mp h
    refine dite_error_eq_ok.mpr ⟨not_length_append_lt hp t, ?_⟩
    rw [slice_append (by omega), slice_append (by omega), slice_append (by omega),
      List.getElem_append_left (by omega)]
    exact h
  consumes p m h := by
    obtain ⟨hp, -⟩ := dite_error_eq_ok.mp h
    rw [length_encode]
    omega

theorem ServerHello.delimited : Delimited encode decode where
  stable p m t h := by
    obtain ⟨hp, h⟩ := dite_error_eq_ok.mp h
    obtain ⟨hbody, h⟩ := dite_error_eq_ok.mp h
    refine dite_error_eq_ok.mpr ⟨not_length_append_lt hp t, ?_⟩
    have hcount := slice_append (t := t) (by omega : 32 + 2 ≤ p.length)
    simp only [hcount]
    refine dite_error_eq_ok.mpr ⟨not_length_append_lt hbody t, ?_⟩
    rw [slice_append (by omega), slice_append (by omega), take_drop_append (by omega)]
    exact h
  consumes p m h := by
    obtain ⟨hp, h⟩ := dite_error_eq_ok.mp h
    obtain ⟨hbody, h⟩ := dite_error_eq_ok.mp h
    obtain rfl := Except.ok.inj h
    simp only [encode, List.length_append, List.Vector.toList_length, List.length_take]
    omega

theorem ClientFinished.delimited : Delimited encode decode where
  stable p m t h := by
    obtain ⟨hp, h⟩ := dite_error_eq_ok.mp h
    obtain ⟨hbody, h⟩ := ite_error_eq_ok.mp h
    refine dite_error_eq_ok.mpr ⟨not_length_append_lt hp t, ?_⟩
    have hcount := slice_append (t := t) (by omega : 0 + 2 ≤ p.length)
    simp only [hcount]
    refine ite_error_eq_ok.mpr ⟨not_length_append_lt hbody t, ?_⟩
    rw [take_drop_append (by omega)]
    exact h
  consumes p m h := by
    obtain ⟨hp, h⟩ := dite_error_eq_ok.mp h
    obtain ⟨hbody, h⟩ := ite_error_eq_ok.mp h
    obtain rfl := Except.ok.inj h
    simp only [encode, List.length_append, List.Vector.toList_length, List.length_take]
    omega

theorem ServerFinished.delimited : Delimited encode decode where
  stable p m t h := by
    obtain ⟨hp, h⟩ := dite_error_eq_ok.mp h
    obtain ⟨status, hstatus, h⟩ := bind_eq_ok.mp h
    refine dite_error_eq_ok.mpr ⟨not_length_append_lt hp t, bind_eq_ok.mpr ⟨status, ?_, ?_⟩⟩
    · rw [List.getElem_append_left (by omega)]
      exact hstatus
    have hcount := slice_append (t := t) (by omega : 1 + 2 ≤ p.length)
    simp only [hcount]
    by_cases hsome : (u16FromBe (slice p 1 2)).toNat > 0
    · rw [if_pos hsome] at h ⊢
      obtain ⟨hbody, h⟩ := ite_error_eq_ok.mp h
      refine ite_error_eq_ok.mpr ⟨not_length_append_lt hbody t, ?_⟩
      rw [take_drop_append (by omega)]
      exact h
    · rw [if_neg hsome] at h ⊢
      exact h
  consumes p m h := by
    obtain ⟨hp, h⟩ := dite_error_eq_ok.mp h
    obtain ⟨status, -, h⟩ := bind_eq_ok.mp h
    by_cases hsome : (u16FromBe (slice p 1 2)).toNat > 0
    · rw [if_pos hsome] at h
      obtain ⟨hbody, h⟩ := ite_error_eq_ok.mp h
      obtain rfl := Except.ok.inj h
      simp only [encode, List.length_cons, List.length_append, List.Vector.toList_length,
        List.length_take]
      omega
    · rw [if_neg hsome] at h
      obtain rfl := Except.ok.inj h
      simp only [encode, List.length_cons, List.Vector.toList_length]
      omega

theorem ResumeRequest.delimited : Delimited encode decode where
  stable p m t h := by
    obtain ⟨hp, h⟩ := dite_error_eq_ok.mp h
    refine dite_error_eq_ok.mpr ⟨not_length_append_lt hp t, ?_⟩
    rw [slice_append (by omega), slice_append (by omega), slice_append (by omega),
      slice_append (by omega), slice_append (by omega)]
    exact h
  consumes p m h := by
    obtain ⟨hp, -⟩ := dite_error_eq_ok.mp h
    rw [length_encode]
    omega

theorem ResumeResponse.delimited : Delimited encode decode where
  stable p m t h := by
    obtain ⟨hp, h⟩ := dite_error_eq_ok.mp h
    refine dite_error_eq_ok.mpr ⟨not_length_append_lt hp t, ?_⟩
    rw [slice_append (by omega), slice_append (by omega), slice_append (by omega),
      List.getElem_append_left (by omega)]
    exact h
  consumes p m h := by
    obtain ⟨hp, -⟩ := dite_error_eq_ok.mp h
    rw [length_encode]
    omega

/-! ## What comes back -/

/-- An empty token is sent as none is. -/
theorem ServerFinished.encode_empty (status : AuthStatus) :
    encode ⟨status, some []⟩ = encode ⟨status, none⟩ := rfl

theorem ServerFinished.exact {m : ServerFinished}
    (hfits : ∀ token, m.sessionToken = some token → token.length ≤ 65535)
    (hne : m.sessionToken ≠ some []) : Exact encode decode m := by
  refine delimited.exact (decode_encode fun token htoken => ⟨?_, ?_⟩)
  · rintro rfl
    exact hne htoken
  · have hlen := hfits token htoken
    omega

/-- All six codecs, at every length the prefixes have room for. -/
theorem messages_exact :
    (∀ m : ClientHello, Exact ClientHello.encode ClientHello.decode m)
    ∧ (∀ m : ServerHello, m.encryptedSessionToken.length ≤ 65535 →
        Exact ServerHello.encode ServerHello.decode m)
    ∧ (∀ m : ClientFinished, m.encryptedAuth.length ≤ 65535 →
        Exact ClientFinished.encode ClientFinished.decode m)
    ∧ (∀ m : ServerFinished,
        (∀ token, m.sessionToken = some token → token.length ≤ 65535) →
        m.sessionToken ≠ some [] → Exact ServerFinished.encode ServerFinished.decode m)
    ∧ (∀ status : AuthStatus,
        (∀ t, ServerFinished.decode (ServerFinished.encode ⟨status, some []⟩ ++ t)
          = .ok ⟨status, none⟩)
        ∧ ∀ p, p <+: ServerFinished.encode ⟨status, some []⟩ →
          p ≠ ServerFinished.encode ⟨status, some []⟩ → ∃ e, ServerFinished.decode p = .error e)
    ∧ (∀ m : ResumeRequest, Exact ResumeRequest.encode ResumeRequest.decode m)
    ∧ (∀ m : ResumeResponse, Exact ResumeResponse.encode ResumeResponse.decode m) := by
  refine ⟨?_, ?_, ?_, ?_, ?_, ?_, ?_⟩
  · exact fun m => ClientHello.delimited.exact (ClientHello.decode_encode m)
  · intro m hfits
    exact ServerHello.delimited.exact (ServerHello.decode_encode (by omega))
  · intro m hfits
    exact ClientFinished.delimited.exact (ClientFinished.decode_encode (by omega))
  · exact fun m hfits hne => ServerFinished.exact hfits hne
  · intro status
    have hnone : Exact ServerFinished.encode ServerFinished.decode ⟨status, none⟩ :=
      ServerFinished.exact (fun _ h => nomatch h) (fun h => nomatch h)
    rw [ServerFinished.encode_empty]
    exact ⟨hnone.roundTrip, hnone.truncated⟩
  · exact fun m => ResumeRequest.delimited.exact (ResumeRequest.decode_encode m)
  · exact fun m => ResumeResponse.delimited.exact (ResumeResponse.decode_encode m)

theorem messages_exact_sample :
    ServerFinished.decode (ServerFinished.encode ⟨.ok, some [7, 8]⟩ ++ [9])
        = .ok ⟨.ok, some [7, 8]⟩
      ∧ (∃ e, ServerHello.decode ((ServerHello.encode ⟨zeroArr 32, [5], zeroArr 32⟩).take 40)
        = .error e)
      ∧ ClientFinished.decode (ClientFinished.encode ⟨[1, 2, 3]⟩ ++ [4])
        = .ok ⟨[1, 2, 3]⟩ := by
  obtain ⟨-, hserver, hclient, hfinished, -⟩ := messages_exact
  refine ⟨?_, ?_, ?_⟩
  · refine (hfinished ⟨.ok, some [7, 8]⟩ ?_ (by decide)).roundTrip [9]
    rintro token ⟨⟩
    decide
  · refine (hserver ⟨zeroArr 32, [5], zeroArr 32⟩ (by decide)).truncated _ (List.take_prefix ..) ?_
    exact fun h => absurd (congrArg List.length h) (by decide)
  · exact (hclient ⟨[1, 2, 3]⟩ (by decide)).roundTrip [4]

/-- A token that is there, and empty. -/
theorem emptyToken_lost :
    ¬ ∀ m : ServerFinished, (∀ token, m.sessionToken = some token → token.length ≤ 65535) →
      Exact ServerFinished.encode ServerFinished.decode m := by
  intro h
  have hexact := h ⟨.ok, some []⟩ fun token htoken => by
    obtain rfl := Option.some.inj htoken
    decide
  exact absurd (hexact.roundTrip []) (by decide)

end Kanrin
