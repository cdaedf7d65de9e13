import Kanrin.Lib.Text

/-!
# File system paths

A path of the standard library is what `components` yields of it: a Windows
prefix (`Volume`), whether it has a root, and the components behind that.
Paths with the same components are equal.

`push` appends the components of its argument, unless that is absolute, has
a prefix or has a root; a name without separators and colons is none of
these on either system (`push_plain`).
-/

namespace Lib

inductive Style where
  | posix
  | windows
deriving DecidableEq

def Style.isSep : Style → UInt8 → Bool
  | .posix, b => b == 0x2F
  | .windows, b => b == 0x2F || b == 0x5C

/-! ## Prefixes -/

/-- `std::path::Prefix`. -/
inductive Volume where
  | verbatim (name : Bytes)
  | verbatimUnc (server share : Bytes)
  | verbatimDisk (drive : UInt8)
  | deviceNs (name : Bytes)
  | unc (server share : Bytes)
  | disk (drive : UInt8)
deriving DecidableEq

namespace Volume

def isVerbatim : Volume → Bool
  | verbatim _ | verbatimUnc _ _ | verbatimDisk _ => true
  | deviceNs _ | unc _ _ | disk _ => false

def hasImplicitRoot : Volume → Bool
  | disk _ => false
  | _ => true

-- a share that is missing takes no separator
def shareLength (share : Bytes) : Nat := if share.isEmpty then 0 else 1 + share.length

/-- How many bytes of the path it takes. -/
def length : Volume → Nat
  | verbatim name => 4 + name.length
  | verbatimUnc server share => 8 + server.length + shareLength share
  | verbatimDisk _ => 6
  | deviceNs name => 4 + name.length
  | unc server share => 2 + server.length + shareLength share
  | disk _ => 2

end Volume

/-- What is behind `pattern`, for which `/` counts as a backslash. -/
def stripSeps (pattern s : Bytes) : Option Bytes :=
  if (s.take pattern.length).map (fun b => if b = 0x2F then 0x5C else b) = pattern then
    some (s.drop pattern.length)
  else none

/-- Up to the first separator, and what follows it. -/
def nextComponent (isSep : UInt8 → Bool) (s : Bytes) : Bytes × Bytes :=
  (s.takeWhile (!isSep ·), (s.dropWhile (!isSep ·)).drop 1)

/-- A letter and a colon. -/
def parseDrive : Bytes → Option UInt8
  | d :: c :: _ =>
      if c = 0x3A ∧ ((0x41 ≤ d ∧ d ≤ 0x5A) ∨ (0x61 ≤ d ∧ d ≤ 0x7A)) then
        some (if 0x61 ≤ d then d - 0x20 else d)
      else none
  | _ => none

def parseDriveExact (s : Bytes) : Option UInt8 :=
  if s[2]?.all Style.windows.isSep then parseDrive s else none

def isVerbatimSep (b : UInt8) : Bool := b == 0x5C

-- behind `\\?\`
def parseVerbatim (s : Bytes) : Volume :=
  match stripSeps [0x55, 0x4E, 0x43, 0x5C] s with
  | some rest =>
      let (server, rest) := nextComponent isVerbatimSep rest
      .verbatimUnc server (nextComponent isVerbatimSep rest).1
  | none =>
      match parseDriveExact s with
      | some drive => .verbatimDisk drive
      | none => .verbatim (nextComponent isVerbatimSep s).1

/-- `parse_prefix` on Windows. -/
def parseVolume (s : Bytes) : Option Volume :=
  match stripSeps [0x5C, 0x5C] s with
  | none => (parseDrive s).map .disk
  | some rest =>
      match stripSeps [0x3F, 0x5C] rest, stripSeps [0x2E, 0x5C] rest with
      | some name, _ =>
          if (s.take 4).contains 0x2F then parseUnc rest else some (parseVerbatim name)
      | none, some name => some (.deviceNs (nextComponent Style.windows.isSep name).1)
      | none, none => parseUnc rest
where
  parseUnc (rest : Bytes) : Option Volume :=
    let (server, rest) := nextComponent Style.windows.isSep rest
    let (share, _) := nextComponent Style.windows.isSep rest
    if server.isEmpty || share.isEmpty then none else some (.unc server share)

def volumeOf : Style → Bytes → Option Volume
  | .posix, _ => none
  | .windows, s => parseVolume s

/-! ## Components -/

inductive Component where
  | curDir
  | parentDir
  | normal (name : Bytes)
deriving DecidableEq

/-- A path by its components. -/
structure PathBuf where
  volume : Option Volume
  hasRoot : Bool
  parts : List Component
deriving DecidableEq

-- a dot counts in a verbatim path only
def parseComponent (verbatim : Bool) (piece : Bytes) : Option Component :=
  if piece = [] then none
  else if piece = [0x2E] then if verbatim then some .curDir else none
  else if piece = [0x2E, 0x2E] then some .parentDir
  else some (.normal piece)

/-- The components between separators. A dot that comes first counts where
there is no root. -/
def parseComponents (verbatim hasRoot : Bool) : List Bytes → List Component
  | [] => []
  | piece :: pieces =>
      (if piece = [0x2E] ∧ hasRoot = false then some .curDir
        else parseComponent verbatim piece).toList ++ pieces.filterMap (parseComponent verbatim)

namespace PathBuf

/-- `Path::new` and its `components`. -/
def parse (style : Style) (s : Bytes) : PathBuf :=
  let volume := volumeOf style s
  let rest := s.drop (volume.elim 0 Volume.length)
  let verbatim := volume.any Volume.isVerbatim
  let isSep := if verbatim then isVerbatimSep else style.isSep
  let hasRoot := rest.head?.any isSep || volume.any Volume.hasImplicitRoot
  { volume, hasRoot, parts := parseComponents verbatim hasRoot (rest.splitOnP isSep) }

def isAbsolute (style : Style) (p : PathBuf) : Bool :=
  match style with
  | .posix => p.hasRoot
  | .windows => p.volume.isSome && p.hasRoot

/-- One component behind a verbatim path, where `.` and `..` are resolved. -/
def enter (parts : List Component) : Component → List Component
  | .curDir => parts
  | .parentDir =>
      match parts.getLast? with
      | some (.normal _) => parts.dropLast
      | _ => parts
  | .normal name => parts ++ [.normal name]

/-- `PathBuf::push`. -/
def push (style : Style) (self : PathBuf) (path : Bytes) : PathBuf :=
  let arg := parse style path
  if arg.isAbsolute style || arg.volume.isSome then arg
  else if self.volume.any Volume.isVerbatim && !path.isEmpty then
    { self with
      hasRoot := self.hasRoot || arg.hasRoot
      parts := arg.parts.foldl enter (if arg.hasRoot then [] else self.parts) }
  else if arg.hasRoot then { arg with volume := self.volume }
  -- nothing before the argument's first dot
  else if !self.hasRoot && self.parts.isEmpty then { self with parts := arg.parts }
  else { self with parts := self.parts ++ arg.parts.filter (· ≠ .curDir) }

/-- The path and names below it. -/
def below (p : PathBuf) (names : List Bytes) : PathBuf :=
  { p with parts := p.parts ++ names.map .normal }

@[simp] theorem below_nil (p : PathBuf) : p.below [] = p := by
  rw [below, List.map_nil, List.append_nil]

theorem below_append (p : PathBuf) (names names' : List Bytes) :
    (p.below names).below names' = p.below (names ++ names') := by
  simp only [below, List.map_append, List.append_assoc]

end PathBuf

/-! ## Names that are one component -/

/-- A name no part of which any system gives a meaning to. -/
structure Plain (name : Bytes) : Prop where
  ne_nil : name ≠ []
  ne_dot : name ≠ [0x2E]
  ne_dots : name ≠ [0x2E, 0x2E]
  slash : 0x2F ∉ name
  backslash : 0x5C ∉ name
  colon : 0x3A ∉ name

namespace Plain

variable {name : Bytes} (h : Plain name)
include h

theorem not_isSep (style : Style) : ∀ b ∈ name, style.isSep b = false := by
  intro b hb
  have h1 : b ≠ 0x2F := fun heq => h.slash (heq ▸ hb)
  have h2 : b ≠ 0x5C := fun heq => h.backslash (heq ▸ hb)
  cases style with
  | posix => simp [Style.isSep, h1]
  | windows => simp [Style.isSep, h1, h2]

theorem parseVolume_eq_none : parseVolume name = none := by
  have hslash : stripSeps [0x5C, 0x5C] name = none := by
    unfold stripSeps
    rw [if_neg]
    intro heq
    cases name with
    | nil => exact h.ne_nil rfl
    | cons a rest =>
        have hhead : (if a = 0x2F then 0x5C else a) = 0x5C := (List.cons.inj heq).1
        split at hhead
        · rename_i ha
          exact h.slash (ha ▸ List.mem_cons_self)
        · exact h.backslash (hhead ▸ List.mem_cons_self)
  have hdrive : parseDrive name = none := by
    unfold parseDrive
    split
    · rename_i d c rest
      rw [if_neg]
      rintro ⟨rfl, -⟩
      exact h.colon (by simp)
    · rfl
  rw [parseVolume, hslash, hdrive]
  rfl

theorem parse_eq (style : Style) :
    PathBuf.parse style name = { volume := none, hasRoot := false, parts := [.normal name] } := by
  have hvolume : volumeOf style name = none := by
    cases style with
    | posix => rfl
    | windows => exact h.parseVolume_eq_none
  have hroot : name.head?.any style.isSep = false := by
    cases hname : name with
    | nil => rfl
    | cons b rest => exact h.not_isSep style b (hname ▸ List.mem_cons_self)
  have hpiece : parseComponent false name = some (.normal name) := by
    rw [parseComponent, if_neg h.ne_nil, if_neg h.ne_dot, if_neg h.ne_dots]
  unfold PathBuf.parse
  simp only [hvolume, Option.elim_none, List.drop_zero, Option.any_none, Bool.false_eq_true,
    if_false, hroot, Bool.or_false, List.splitOnP_eq_singleton (h.not_isSep style),
    parseComponents, h.ne_dot, false_and, hpiece]
  rfl

theorem push_eq (style : Style) (p : PathBuf) : p.push style name = p.below [name] := by
  have habsolute : PathBuf.isAbsolute style
      { volume := none, hasRoot := false, parts := [.normal name] } = false := by
    cases style <;> rfl
  have hne : name.isEmpty = false := by
    rw [List.isEmpty_eq_false_iff]
    exact h.ne_nil
  rw [PathBuf.push, h.parse_eq]
  simp only [habsolute, Option.isSome_none, Bool.or_false, Bool.false_eq_true, if_false, hne,
    Bool.not_false, Bool.and_true, List.foldl_cons, List.foldl_nil, PathBuf.enter]
  split
  · rfl
  split
  · rename_i hempty
    obtain ⟨-, hparts⟩ := Bool.and_eq_true_iff.mp hempty
    rw [List.isEmpty_iff] at hparts
    rw [PathBuf.below, hparts]
    rfl
  · rfl

end Plain

end Lib
