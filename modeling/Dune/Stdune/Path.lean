import Dune.Stdune.Local

/-!
# Paths

`Path.t` and its operations, for a workspace whose root and build directory have been set. A path
is in the source tree, in the build directory, or an absolute name of the outside world, and each
of the three is a string of its own kind: a `Local` below the root, a `Local` below the build
directory, or an `External`. Only the Unix behaviour is modelled.
-/

namespace Dune.Stdune

open List Bytes LocalPath

variable {pre s rest x name : Bytes}

namespace Bytes

/-- The bytes `String.escaped` writes for one byte. -/
def escapedByte (c : UInt8) : Bytes :=
  if c = 34 ∨ c = 92 then [92, c]
  else if c = 10 then ascii "\\n"
  else if c = 9 then ascii "\\t"
  else if c = 13 then ascii "\\r"
  else if c = 8 then ascii "\\b"
  else if 32 ≤ c ∧ c ≤ 126 then [c]
  else [92, digit (c.toNat / 100), digit (c.toNat / 10 % 10), digit (c.toNat % 10)]

def escaped (s : Bytes) : Bytes := s.flatMap escapedByte

def maybeQuoted (s : Bytes) : Bytes :=
  if s = escaped s ∧ ¬ s.contains 32 then s else 34 :: (escaped s ++ [34])

def dropPrefix (pre s : Bytes) : Option Bytes :=
  if pre.isPrefixOf s then some (s.drop pre.length) else none

theorem dropPrefix_eq_some_iff : dropPrefix pre s = some rest ↔ s = pre ++ rest := by
  unfold dropPrefix
  split
  next h =>
    obtain ⟨tail, rfl⟩ := isPrefixOf_iff_prefix.mp h
    simp [eq_comm]
  next h =>
    simp only [reduceCtorEq, false_iff]
    rintro rfl
    simp at h

end Bytes

/-! ## External paths -/

/-- An `External.t`: any absolute name. -/
structure External where
  toString : Bytes
  absolute : isRelative toString = false
deriving DecidableEq

namespace External

@[ext] theorem ext {a b : External} (h : a.toString = b.toString) : a = b := by
  cases a
  cases b
  cases h
  rfl

def ofString (t : Bytes) : Except Exn External :=
  if h : isRelative t = false then .ok ⟨t, h⟩
  else .error (.codeError "Path.External.of_string: relative path given")

/-- The first lines of `append_component`: one trailing separator is removed. -/
def stripSlash (x : Bytes) : Bytes := if x.getLast? = some 47 then x.dropLast else x

/-- The strings of `External.append_component`. -/
def appendComponent (x y : Bytes) : Bytes := stripSlash x ++ 47 :: y

/-- The `./` in front of a name. -/
def dropDotSlash : Bytes → Bytes
  | 46 :: 47 :: y => y
  | y => y

/-- The strings of `External.relative`. -/
def relativeString (x y : Bytes) : Bytes :=
  if y = ascii "." then x
  else
    let y := dropDotSlash y
    if y = [] ∨ y = ascii "." then x else appendComponent x y

theorem absolute_appendComponent (h : isRelative x = false) (y : Bytes) :
    isRelative (appendComponent x y) = false := by
  obtain ⟨r, rfl⟩ := isRelative_eq_false_iff.mp h
  rw [isRelative_eq_false_iff, appendComponent, stripSlash]
  split
  · cases r with
    | nil => exact ⟨y, rfl⟩
    | cons c r => exact ⟨_, rfl⟩
  · exact ⟨_, rfl⟩

theorem absolute_relativeString (h : isRelative x = false) (y : Bytes) :
    isRelative (relativeString x y) = false := by
  unfold relativeString
  split
  · exact h
  · dsimp only
    split
    · exact h
    · exact absolute_appendComponent h _

def relative (x : External) (y : Bytes) : External :=
  ⟨relativeString x.toString y, absolute_relativeString x.absolute y⟩

def appendLocal (t : External) (l : Local) : External := t.relative l.toString

@[simp] theorem appendLocal_root (t : External) : t.appendLocal .root = t := rfl

theorem dropDotSlash_canonical (h : isCanonicalized s = true) : dropDotSlash s = s := by
  unfold dropDotSlash
  split
  next y =>
    rw [show (46 : UInt8) :: 47 :: y = [46] ++ 47 :: y from rfl, isCanonicalized_append]
      at h
    cases h
  next => rfl

theorem toString_appendLocal {l : Local} (h : isCanonicalized l.toString = true)
    (t : External) : (t.appendLocal l).toString = appendComponent t.toString l.toString := by
  have hroot : l.toString ≠ ascii "." := by
    intro hroot
    rw [hroot] at h
    cases h
  have hnil : l.toString ≠ [] := by
    intro hnil
    rw [hnil] at h
    cases h
  simp [appendLocal, relative, relativeString, dropDotSlash_canonical h, hnil, hroot]

def root : External := ⟨ascii "/", rfl⟩

/-- `Filename.dirname`, on a name that is not empty: what is left of the last component and of
the separators around it, or the first byte. -/
def dirname (name : Bytes) : Bytes :=
  let noTrailing := name.reverse.dropWhile (· == 47)
  if noTrailing = [] then name.take 1
  else
    let base := noTrailing.dropWhile (· != 47)
    if base = [] then ascii "."
    else
      let intermediate := base.dropWhile (· == 47)
      if intermediate = [] then name.take 1 else intermediate.reverse

theorem absolute_of_isPrefix (h : isRelative name = false) (hpre : pre <+: name) (hne : pre ≠ []) :
    isRelative pre = false := by
  obtain ⟨rest, rfl⟩ := hpre
  obtain ⟨r, hr⟩ := isRelative_eq_false_iff.mp h
  cases pre with
  | nil => exact absurd rfl hne
  | cons c pre =>
    rw [cons_append, List.cons.injEq] at hr
    exact isRelative_eq_false_iff.mpr ⟨pre, by rw [hr.1]⟩

theorem absolute_dirname (h : isRelative name = false) : isRelative (dirname name) = false := by
  have hne : name ≠ [] := by
    rintro rfl
    cases h
  have hprefix := take_prefix 1 name
  have htake : isRelative (name.take 1) = false :=
    absolute_of_isPrefix h hprefix (by simpa using hne)
  -- What each loop leaves is a suffix of the reversed name.
  have hsuffix : ∀ {r : Bytes}, r <:+ name.reverse → r ≠ [] →
      isRelative r.reverse = false := by
    intro r hr hr'
    refine absolute_of_isPrefix h ?_ (by simpa using hr')
    rwa [← reverse_suffix, reverse_reverse]
  have htrailing : name.reverse.dropWhile (· == 47) <:+ name.reverse := dropWhile_suffix _
  unfold dirname
  dsimp only
  generalize name.reverse.dropWhile (· == 47) = noTrailing at htrailing ⊢
  have hbase : noTrailing.dropWhile (· != 47) <:+ name.reverse :=
    (dropWhile_suffix _).trans htrailing
  split
  · exact htake
  next hnonempty =>
    split
    next hnil =>
      -- The name starts with a slash, so the second loop finds one.
      have hslash : ∀ c ∈ noTrailing, c ≠ 47 := by simpa using hnil
      obtain ⟨r, hr⟩ := isRelative_eq_false_iff.mp (hsuffix htrailing hnonempty)
      have hmem : 47 ∈ noTrailing := mem_reverse.mp (hr ▸ mem_cons_self)
      exact absurd rfl (hslash 47 hmem)
    next =>
      split
      · exact htake
      next hintermediate =>
        exact hsuffix ((dropWhile_suffix _).trans hbase) hintermediate

def parent (t : External) : Option External :=
  if t = root then none else some ⟨dirname t.toString, absolute_dirname t.absolute⟩

end External

/-! ## The build directory -/

inductive OutsideBuildDir where
  | external (e : External)
  | inSourceDir (l : Local)
deriving DecidableEq

def OutsideBuildDir.appendLocal (t : OutsideBuildDir) (y : Local) : OutsideBuildDir :=
  match t with
  | .inSourceDir x => .inSourceDir (x.append y)
  | .external x => .external (x.relative y.toString)

/-- `Local.Prefix.t`. What is dropped from a path ends with a slash. -/
structure LocalPrefix where
  len : Int
  path : Bytes
  pathSlash : Bytes
  slash : ∃ dir, pathSlash = dir ++ [47]

namespace LocalPrefix

def make (p : Local) : Except Exn LocalPrefix :=
  if p.isRoot then .error (.codeError "Path.Local.Prefix.make")
  else .ok ⟨p.toString.length, p.toString, p.toString ++ [47], p.toString, rfl⟩

def invalid : LocalPrefix := ⟨-1, [47], [47], [], rfl⟩

theorem isCanonicalized_rest {p : Local} {dir : Bytes} (h : p.toString = dir ++ 47 :: rest) :
    isCanonicalized rest = true := by
  have hcanon := p.eq_root_or_canonical.resolve_left ?_
  · rw [h, isCanonicalized_append, Bool.and_eq_true] at hcanon
    exact hcanon.2
  · rintro rfl
    have hslash : (47 : UInt8) ∈ Local.root.toString := h ▸ by simp
    exact absurd hslash (by decide)

theorem isValid_drop {t : LocalPrefix} {p : Local} {rest : Bytes}
    (h : dropPrefix t.pathSlash p.toString = some rest) : isValid rest = true := by
  obtain ⟨dir, hdir⟩ := t.slash
  rw [dropPrefix_eq_some_iff, hdir, append_assoc] at h
  exact isValid_iff.mpr (.inr (isCanonicalized_rest h))

def drop (t : LocalPrefix) (p : Local) : Option Local :=
  if (p.toString.length : Int) = t.len ∧ p.toString = t.path then some .root
  else (dropPrefix t.pathSlash p.toString).pmap Local.mk fun _ => isValid_drop

theorem drop_invalid (p : Local) : invalid.drop p = none := by
  have hnone : dropPrefix invalid.pathSlash p.toString = none := by
    refine Option.eq_none_iff_forall_ne_some.mpr fun rest hrest => ?_
    have habs := isRelative_eq_false_iff.mpr ⟨rest, dropPrefix_eq_some_iff.mp hrest⟩
    rw [p.isRelative_toString] at habs
    cases habs
  have hlen : ¬ ((p.toString.length : Int) = invalid.len ∧ p.toString = invalid.path) := by
    rintro ⟨hlen, -⟩
    simp only [invalid] at hlen
    omega
  rw [drop, if_neg hlen]
  exact Option.pmap_eq_none_iff.mpr hnone

/-- Dropping a directory is the inverse of appending to it. -/
theorem drop_eq_some_iff {b p q : Local} {t : LocalPrefix} (ht : make b = .ok t) :
    t.drop p = some q ↔ p = b.append q := by
  unfold make at ht
  split at ht
  · cases ht
  next hroot =>
    cases ht
    have hb : isCanonicalized b.toString = true :=
      b.eq_root_or_canonical.resolve_left fun h => hroot (Local.isRoot_iff.mpr h)
    by_cases hself : p = b
    · subst hself
      rw [drop, if_pos ⟨rfl, rfl⟩, Option.some.injEq, eq_comm]
      refine ⟨fun h => h ▸ p.append_root.symm, fun h => ?_⟩
      refine q.eq_root_or_canonical.resolve_right fun hq => ?_
      have hlen := congrArg (fun l : Local => l.toString.length) h
      simp only [Local.append, append_canonical hb hq, length_append,
        length_cons] at hlen
      omega
    · have hne : ¬ ((p.toString.length : Int) = b.toString.length ∧ p.toString = b.toString) :=
        fun h => hself (Local.ext h.2)
      rw [drop, if_neg hne, Option.pmap_eq_some_iff]
      constructor
      · rintro ⟨rest, _, hdrop, rfl⟩
        rw [dropPrefix_eq_some_iff, append_assoc] at hdrop
        refine Local.ext ?_
        rw [hdrop]
        exact (append_canonical hb (isCanonicalized_rest hdrop)).symm
      · rintro rfl
        have hq := q.eq_root_or_canonical.resolve_left fun h => hself (h ▸ b.append_root)
        refine ⟨q.toString, q.valid, dropPrefix_eq_some_iff.mpr ?_, rfl⟩
        rw [append_assoc]
        exact append_canonical hb hq

end LocalPrefix

/-- `Build.set_build_dir`: the prefix for a build directory that is accepted. -/
def setBuildDir (newBuildDir : OutsideBuildDir) : Except Exn LocalPrefix := do
  match newBuildDir with
  | .external _ => pure ()
  | .inSourceDir p =>
    if p.isRoot ∨ p.parent ≠ some .root then
      .error (.userError .none
        ("Invalid build directory: " ++ (maybeQuoted p.toString).toText ++ "\n" ++
          "The build directory must be an absolute path or a sub-directory of the " ++
          "root of the workspace."))
  match newBuildDir with
  | .inSourceDir p => LocalPrefix.make p
  | .external _ => pure .invalid

/-- What is set when `dune` starts: `abs_root`, `Build.build_dir` and `Build.build_dir_prefix`. -/
structure Workspace where
  absRoot : External
  buildDir : OutsideBuildDir
  buildDirPrefix : LocalPrefix
  accepted : setBuildDir buildDir = .ok buildDirPrefix

/-- The build directory is a name below the root, and the prefix drops it; or it is outside, and
the prefix drops nothing. -/
theorem Workspace.buildDir_cases (ws : Workspace) :
    (∃ b, ws.buildDir = .inSourceDir b ∧ b ≠ .root ∧
      ∀ p q, ws.buildDirPrefix.drop p = some q ↔ p = b.append q) ∨
    ∃ e, ws.buildDir = .external e ∧ ∀ p, ws.buildDirPrefix.drop p = none := by
  have haccepted := ws.accepted
  cases hdir : ws.buildDir with
  | external e =>
    rw [hdir] at haccepted
    refine .inr ⟨e, rfl, fun p => ?_⟩
    rw [← Except.ok.inj haccepted]
    exact LocalPrefix.drop_invalid p
  | inSourceDir b =>
    simp only [hdir, setBuildDir] at haccepted
    split at haccepted
    · cases haccepted
    next hvalid =>
      have hroot : b ≠ .root := fun h => hvalid (.inl (Local.isRoot_iff.mpr h))
      exact .inl ⟨b, rfl, hroot, fun p q => LocalPrefix.drop_eq_some_iff haccepted⟩

/-! ## Paths -/

inductive Path where
  | external (e : External)
  | inSourceTree (s : Local)
  | inBuildDir (p : Local)
deriving DecidableEq

namespace Path

variable (ws : Workspace)

/-- `Outside_build_dir.to_absolute_filename`. -/
def outsideToAbsoluteFilename : OutsideBuildDir → External
  | .external s => s
  | .inSourceDir l => ws.absRoot.relative l.toString

def buildToString (p : Local) : Bytes :=
  match ws.buildDir with
  | .inSourceDir b => (b.append p).toString
  | .external b => (b.appendLocal p).toString

def toString : Path → Bytes
  | .inSourceTree p => p.toString
  | .external p => p.toString
  | .inBuildDir p => buildToString ws p

def localOrExternal : Path → OutsideBuildDir
  | .inBuildDir p => ws.buildDir.appendLocal p
  | .inSourceTree s => .inSourceDir s
  | .external s => .external s

def toAbsoluteFilename (t : Path) : External := outsideToAbsoluteFilename ws (localOrExternal ws t)

def makeLocalPath (p : Local) : Path :=
  match ws.buildDirPrefix.drop p with
  | none => .inSourceTree p
  | some p => .inBuildDir p

/-- `Build.relative`, on a relative name. -/
def buildRelative (errorLoc : Loc) (t : Local) (path : Bytes) : Except Exn Local :=
  match t.relativeResult path with
  | some t => .ok t
  | none =>
    .error (.userError errorLoc
      ("path outside the workspace: " ++ path.toText ++ " from " ++ t.toString.toText))

def relative (errorLoc : Loc) (t : Path) (fn : Bytes) : Except Exn Path :=
  if fn = [] ∨ fn = ascii "." then .ok t
  else if !isRelative fn then return .external (← External.ofString fn)
  else
    match t with
    | .inSourceTree p =>
      match p.relativeResult fn with
      | some l => .ok (makeLocalPath ws l)
      | none => .ok (.external ((toAbsoluteFilename ws t).relative fn))
    | .inBuildDir p => return .inBuildDir (← buildRelative errorLoc p fn)
    | .external s => .ok (.external (s.relative fn))

def ofString (s : Bytes) : Except Exn Path :=
  if s = [] ∨ s = ascii "." then .ok (.inSourceTree .root)
  else if isRelative s then return makeLocalPath ws (← Local.ofString s)
  else return .external (← External.ofString s)

def appendLocal (a : Path) (b : Local) : Path :=
  match a with
  | .inSourceTree a => .inSourceTree (a.append b)
  | .inBuildDir a => .inBuildDir (a.append b)
  | .external a => .external (a.relative b.toString)

def appendSource (a : Path) (b : Local) : Path :=
  match a with
  | .inSourceTree a => .inSourceTree (a.append b)
  | .inBuildDir a => .inBuildDir (a.append b)
  | .external a => .external (a.relative b.toString)

def parent : Path → Option Path
  | .external s => s.parent.map .external
  | .inSourceTree l => l.parent.map .inSourceTree
  | .inBuildDir l => l.parent.map .inBuildDir

/-- A workspace in `/ws` with the default build directory. -/
def exampleWorkspace : Workspace where
  absRoot := ⟨ascii "/ws", rfl⟩
  buildDir := .inSourceDir ⟨ascii "_build", rfl⟩
  buildDirPrefix := ⟨6, ascii "_build", ascii "_build/", ascii "_build", rfl⟩
  accepted := rfl

end Path

end Dune.Stdune
