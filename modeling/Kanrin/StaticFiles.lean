import Kanrin.Escapes
import Kanrin.Lib.Paths

/-!
# Static files

`resolve_path` of `kanrin-server/src/http.rs`. A request path is decoded
first and then pushed onto the root segment by segment, and what a segment
may not contain is decided on the decoded text, so no encoding of a
separator or of dots comes into it (`resolvePath_eq_some_iff`). The segments
that are left are names on every system, and pushing them stays below the
root whatever the root is (`static_paths_below_root`).
-/

namespace Kanrin

open Lib

def slash : UInt8 := 0x2F

def backslash : UInt8 := 0x5C

def dots : Bytes := [0x2E, 0x2E]

/-- What a segment may not contain. -/
def Refused (segment : Bytes) : Prop :=
  dots <:+: segment ∨ backslash ∈ segment ∨ 0x3A ∈ segment

instance (segment : Bytes) : Decidable (Refused segment) := inferInstanceAs (Decidable (_ ∨ _))

-- an empty segment, or one that says where it is already
def skipped (segment : Bytes) : Bool := segment.isEmpty || segment == [0x2E]

/-- The loop over the segments. -/
def pushSegments (style : Style) : PathBuf → List Bytes → Option PathBuf
  | out, [] => some out
  | out, segment :: segments =>
      if skipped segment then pushSegments style out segments
      else if Refused segment then none
      else pushSegments style (out.push style segment) segments

/-- The path below the root, decoded. -/
def relativePath (decoded : Bytes) : Bytes :=
  let trimmed := decoded.dropWhile (· == slash)
  if trimmed.isEmpty then ascii "index.html" else trimmed

/-- `resolve_path`; `isDir` is the file system's answer. -/
def resolvePath (style : Style) (isDir : PathBuf → Bool) (root : PathBuf) (requestPath : Bytes) :
    Option PathBuf := do
  let decoded ← percentDecode requestPath
  let out ← pushSegments style root (split [slash] (relativePath decoded))
  return if isDir out then out.push style (ascii "index.html") else out

/-! ## What is pushed -/

/-- The segments of a request that are pushed. -/
def pushed (decoded : Bytes) : List Bytes :=
  (split [slash] (relativePath decoded)).filter fun segment => !skipped segment

/-- A segment that is neither skipped nor refused is a name. -/
theorem plain_of_segment {segment : Bytes} (hslash : slash ∉ segment)
    (hskip : skipped segment = false) (hok : ¬ Refused segment) : Plain segment where
  ne_nil h := by
    rw [h] at hskip
    cases hskip
  ne_dot h := by
    rw [h] at hskip
    cases hskip
  ne_dots h := hok (Or.inl (by rw [h]; exact List.infix_refl _))
  slash := hslash
  backslash h := hok (Or.inr (Or.inl h))
  colon h := hok (Or.inr (Or.inr h))

theorem plain_index : Plain (ascii "index.html") := by
  refine ⟨?_, ?_, ?_, ?_, ?_, ?_⟩ <;> decide

/-- Pushing segments appends those that are not skipped, unless one of them
is refused. -/
theorem pushSegments_eq_some_iff {style : Style} {out p : PathBuf} {segments : List Bytes}
    (hslash : ∀ segment ∈ segments, slash ∉ segment) :
    pushSegments style out segments = some p ↔
      (∀ segment ∈ segments.filter fun s => !skipped s, ¬ Refused segment)
        ∧ p = out.below (segments.filter fun s => !skipped s) := by
  induction segments generalizing out with
  | nil =>
      rw [pushSegments, List.filter_nil, PathBuf.below_nil, Option.some.injEq]
      exact ⟨fun h => ⟨by simp, h.symm⟩, fun h => h.2.symm⟩
  | cons segment segments ih =>
      obtain ⟨hfirst, hrest⟩ := List.forall_mem_cons.mp hslash
      rw [pushSegments]
      by_cases hskip : skipped segment = true
      · rw [if_pos hskip, ih hrest, List.filter_cons_of_neg (by simp [hskip])]
      · rw [if_neg hskip, List.filter_cons_of_pos (by simp [hskip]), List.forall_mem_cons]
        by_cases hbad : Refused segment
        · rw [if_pos hbad]
          exact iff_of_false (fun h => nomatch h) (fun h => h.1.1 hbad)
        · have hplain := plain_of_segment hfirst (Bool.eq_false_of_not_eq_true hskip) hbad
          rw [if_neg hbad, hplain.push_eq, ih hrest, PathBuf.below_append,
            List.singleton_append]
          exact ⟨fun h => ⟨⟨hbad, h.1⟩, h.2⟩, fun h => ⟨h.1.2, h.2⟩⟩

/-- Where a request leads: below the root by its segments, and to the index
of a directory. -/
theorem resolvePath_eq_some_iff {style : Style} {isDir : PathBuf → Bool} {root p : PathBuf}
    {requestPath : Bytes} :
    resolvePath style isDir root requestPath = some p ↔
      ∃ decoded, percentDecode requestPath = some decoded
        ∧ (∀ segment ∈ pushed decoded, ¬ Refused segment)
        ∧ p = if isDir (root.below (pushed decoded)) then
            root.below (pushed decoded ++ [ascii "index.html"])
          else root.below (pushed decoded) := by
  have hslash : ∀ decoded, ∀ segment ∈ split [slash] (relativePath decoded), slash ∉ segment :=
    fun _ _ h => not_mem_of_mem_split h
  have hindex := plain_index.push_eq style
  rw [resolvePath, Option.bind_eq_bind, Option.bind_eq_some_iff]
  refine exists_congr fun decoded => and_congr_right fun _ => ?_
  rw [Option.bind_eq_bind, Option.bind_eq_some_iff]
  simp only [pushSegments_eq_some_iff (hslash decoded), hindex, pure, Option.some.injEq]
  constructor
  · rintro ⟨out, ⟨hok, rfl⟩, hp⟩
    rw [PathBuf.below_append] at hp
    exact ⟨hok, hp.symm⟩
  · rintro ⟨hok, hp⟩
    refine ⟨_, ⟨hok, rfl⟩, ?_⟩
    rw [PathBuf.below_append]
    exact hp.symm

/-! ## Nothing leaves the root -/

/-- A component no system can read as anything but a name of its own. -/
structure Contained (segment : Bytes) : Prop where
  ne_nil : segment ≠ []
  ne_dot : segment ≠ [0x2E]
  dots : ¬ dots <:+: segment
  slash : slash ∉ segment
  backslash : backslash ∉ segment
  colon : 0x3A ∉ segment

theorem contained_of_mem_pushed {decoded segment : Bytes} (h : segment ∈ pushed decoded)
    (hok : ¬ Refused segment) : Contained segment := by
  obtain ⟨hmem, hskip⟩ := List.mem_filter.mp h
  have hplain := plain_of_segment (not_mem_of_mem_split hmem) (Bool.not_eq_true' _ ▸ hskip) hok
  exact ⟨hplain.ne_nil, hplain.ne_dot, fun hdots => hok (Or.inl hdots), hplain.slash,
    hplain.backslash, hplain.colon⟩

/-- What is resolved is the root and names below it, and the index of a
directory at most. -/
theorem static_paths_below_root (style : Style) (isDir : PathBuf → Bool) (root : PathBuf)
    (requestPath : Bytes) (p : PathBuf)
    (h : resolvePath style isDir root requestPath = some p) :
    ∃ segments index, p = root.below (segments ++ index)
      ∧ (∀ segment ∈ segments, Contained segment)
      ∧ (index = [] ∨ index = [ascii "index.html"]) := by
  obtain ⟨decoded, -, hok, rfl⟩ := resolvePath_eq_some_iff.mp h
  have hall : ∀ segment ∈ pushed decoded, Contained segment :=
    fun segment hmem => contained_of_mem_pushed hmem (hok segment hmem)
  split
  · exact ⟨pushed decoded, _, rfl, hall, Or.inr rfl⟩
  · exact ⟨pushed decoded, [], by rw [List.append_nil], hall, Or.inl rfl⟩

/-- A root on a Windows share, and a directory below it. -/
theorem static_paths_below_share :
    ∃ segments index,
      (PathBuf.parse .windows (ascii "\\\\host\\www")).below
          [ascii "my files", ascii "a.b", ascii "index.html"]
        = (PathBuf.parse .windows (ascii "\\\\host\\www")).below (segments ++ index)
      ∧ (∀ segment ∈ segments, Contained segment)
      ∧ (index = [] ∨ index = [ascii "index.html"]) :=
  static_paths_below_root .windows (fun _ => true) _ (ascii "//my%20files/./%61.b/") _
    (by decide +kernel)

end Kanrin
