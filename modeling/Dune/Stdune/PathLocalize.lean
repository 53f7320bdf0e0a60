import Dune.Stdune.Path

/-!
# Localising external paths

`Path.Expert.try_localize_external` turns an absolute name into a path of the workspace when the
name starts with the build directory or with the root. The test is on strings: a name that starts
with the name of the directory need not be below it. The file stays the same exactly when the
first directory that matches as a string is a directory of the name (`localize_denotes_iff`).
-/

namespace Dune.Stdune

open Bytes

namespace Path

variable (ws : Workspace)

def dropAbsolutePrefix (pre : OutsideBuildDir) (p : Bytes) : Except Exn (Option Local) :=
  match dropPrefix (outsideToAbsoluteFilename ws pre).toString p with
  | none => .ok none
  | some [] => .ok (some .root)
  | some (c :: rest) => return some (← Local.ofString (if c = 47 then rest else c :: rest))

/-- The function on external paths inside `Expert.try_localize_external`. -/
def localizeExternal (ext : External) : Except Exn (Option Path) := do
  let p := ext.toString
  match ws.buildDir with
  | .external s =>
    match ← dropAbsolutePrefix ws (.external s) p with
    | some s => return some (.inBuildDir s)
    | none => return (← dropAbsolutePrefix ws (.inSourceDir .root) p).map .inSourceTree
  | .inSourceDir _ =>
    return (← dropAbsolutePrefix ws (.inSourceDir .root) p).map (makeLocalPath ws)

def tryLocalizeExternal (t : Path) : Except Exn Path :=
  match t with
  | .external e => return (← localizeExternal ws e).getD t
  | .inSourceTree _ => .ok t
  | .inBuildDir _ => .ok t

/-- The name is the directory, or one of the canonical paths below it. -/
def Below (dir p : External) : Prop := ∃ l : Local, p = dir.appendLocal l

/-- The directories that are tried, in order. -/
def localizeDirs : List External :=
  match ws.buildDir with
  | .external s => [s, ws.absRoot]
  | .inSourceDir _ => [ws.absRoot]

/-- The first directory whose name is a prefix of the string. -/
def matchingDir (p : External) : Option External :=
  (localizeDirs ws).find? fun dir => dir.toString.isPrefixOf p.toString

variable {ws} {pre : OutsideBuildDir}

theorem dropAbsolutePrefix_of_not_isPrefixOf {p : Bytes}
    (h : ¬ (outsideToAbsoluteFilename ws pre).toString.isPrefixOf p = true) :
    dropAbsolutePrefix ws pre p = .ok none := by
  simp [dropAbsolutePrefix, dropPrefix, h]

theorem dropAbsolutePrefix_of_isPrefixOf {p : Bytes}
    (h : (outsideToAbsoluteFilename ws pre).toString.isPrefixOf p = true) :
    dropAbsolutePrefix ws pre p ≠ .ok none := by
  simp only [dropAbsolutePrefix, dropPrefix, h, if_true]
  split
  next heq => cases heq
  next => exact fun hok => by cases hok
  next c rest heq =>
    intro hok
    obtain ⟨l, -, hl⟩ := bind_ok hok
    cases hl

/-- A name below a directory gives the path it is below it. -/
theorem dropAbsolutePrefix_appendLocal (pre : OutsideBuildDir) (l : Local) :
    dropAbsolutePrefix ws pre ((outsideToAbsoluteFilename ws pre).appendLocal l).toString =
      .ok (some l) := by
  generalize hdir : outsideToAbsoluteFilename ws pre = dir
  rcases l.eq_root_or_canonical with rfl | hl
  · have hdrop : dropPrefix dir.toString dir.toString = some [] :=
      dropPrefix_eq_some_iff.mpr (List.append_nil _).symm
    simp [dropAbsolutePrefix, hdir, hdrop]
  · rw [External.toString_appendLocal hl, External.appendComponent, External.stripSlash]
    split
    next hlast =>
      -- The name of the directory ends with the slash.
      obtain ⟨init, hinit⟩ := List.getLast?_eq_some_iff.mp hlast
      have hdrop : dropPrefix dir.toString (dir.toString.dropLast ++ 47 :: l.toString) =
          some l.toString := by
        rw [dropPrefix_eq_some_iff, hinit]
        simp
      have hne : l.toString ≠ [] := by
        intro hnil
        rw [hnil] at hl
        cases hl
      obtain ⟨c, rest, hcons⟩ := List.exists_cons_of_ne_nil hne
      have hc : c ≠ 47 := by
        rintro rfl
        rw [hcons, LocalPath.isCanonicalized_slash] at hl
        cases hl
      have hof : Local.ofString (c :: rest) = .ok l := hcons ▸ Local.ofString_toString l
      rw [hcons] at hdrop ⊢
      simp only [dropAbsolutePrefix, hdir, hdrop, if_neg hc, hof]
      rfl
    next =>
      have hdrop : dropPrefix dir.toString (dir.toString ++ 47 :: l.toString) =
          some (47 :: l.toString) := dropPrefix_eq_some_iff.mpr rfl
      simp only [dropAbsolutePrefix, hdir, hdrop, if_true, Local.ofString_toString]
      rfl

/-- The external path, unless the directory can be dropped from it. -/
def localizeIn (ws : Workspace) (pre : OutsideBuildDir) (wrap : Local → Path) (p : External) :
    Except Exn Path := do
  let dropped ← dropAbsolutePrefix ws pre p.toString
  return (dropped.map wrap).getD (.external p)

/-- A name that matches as a string keeps its file exactly when it is below the directory. -/
theorem localizeIn_denotes_iff {p : External} {wrap : Local → Path}
    (hwrap : ∀ l,
      toAbsoluteFilename ws (wrap l) = (outsideToAbsoluteFilename ws pre).appendLocal l) :
    (∃ t, localizeIn ws pre wrap p = .ok t ∧ toAbsoluteFilename ws t = p) ↔
      ((outsideToAbsoluteFilename ws pre).toString.isPrefixOf p.toString = true →
        Below (outsideToAbsoluteFilename ws pre) p) := by
  by_cases hstarts : (outsideToAbsoluteFilename ws pre).toString.isPrefixOf p.toString = true
  · simp only [hstarts, forall_const]
    constructor
    · rintro ⟨t, hrun, habs⟩
      obtain ⟨dropped, hdrop, ht⟩ := bind_ok hrun
      cases dropped with
      | none => exact absurd hdrop (dropAbsolutePrefix_of_isPrefixOf hstarts)
      | some l =>
        cases ht
        exact ⟨l, habs.symm.trans (hwrap l)⟩
    · rintro ⟨l, rfl⟩
      refine ⟨wrap l, ?_, hwrap l⟩
      rw [localizeIn, dropAbsolutePrefix_appendLocal]
      rfl
  · simp only [hstarts, false_implies, iff_true, Bool.false_eq_true]
    refine ⟨.external p, ?_, rfl⟩
    rw [localizeIn, dropAbsolutePrefix_of_not_isPrefixOf hstarts]
    rfl

variable (ws)

theorem tryLocalizeExternal_inSourceDir {b : Local} (hb : ws.buildDir = .inSourceDir b)
    (p : External) : tryLocalizeExternal ws (.external p) =
      localizeIn ws (.inSourceDir .root) (makeLocalPath ws) p := by
  simp only [tryLocalizeExternal, localizeExternal, hb, localizeIn, bind_assoc, pure_bind]

/-- The root is tried when the name of the build directory does not match. -/
theorem tryLocalizeExternal_external {s : External} (hs : ws.buildDir = .external s)
    (p : External) : tryLocalizeExternal ws (.external p) =
      if s.toString.isPrefixOf p.toString then localizeIn ws (.external s) .inBuildDir p
      else localizeIn ws (.inSourceDir .root) .inSourceTree p := by
  split
  next hstarts =>
    have hdropped : dropAbsolutePrefix ws (.external s) p.toString ≠ .ok none :=
      dropAbsolutePrefix_of_isPrefixOf hstarts
    simp only [tryLocalizeExternal, localizeExternal, hs, localizeIn]
    generalize dropAbsolutePrefix ws (.external s) p.toString = dropped at hdropped ⊢
    cases dropped with
    | error e => rfl
    | ok l =>
      cases l with
      | none => exact absurd rfl hdropped
      | some l => rfl
  next hstarts =>
    have hdropped : dropAbsolutePrefix ws (.external s) p.toString = .ok none :=
      dropAbsolutePrefix_of_not_isPrefixOf hstarts
    simp only [tryLocalizeExternal, localizeExternal, hs, localizeIn, hdropped]
    cases dropAbsolutePrefix ws (.inSourceDir .root) p.toString <;> rfl

/-- Below the root, a local path is the same file whichever way it is represented. -/
theorem toAbsoluteFilename_makeLocalPath {b : Local} (hb : ws.buildDir = .inSourceDir b)
    (hdrop : ∀ p q, ws.buildDirPrefix.drop p = some q ↔ p = b.append q) (l : Local) :
    toAbsoluteFilename ws (makeLocalPath ws l) = ws.absRoot.appendLocal l := by
  unfold makeLocalPath
  split
  next => rfl
  next q hq =>
    rw [(hdrop l q).mp hq, toAbsoluteFilename, localOrExternal, hb]
    rfl

theorem toAbsoluteFilename_inBuildDir {s : External} (hs : ws.buildDir = .external s)
    (l : Local) : toAbsoluteFilename ws (.inBuildDir l) = s.appendLocal l := by
  rw [toAbsoluteFilename, localOrExternal, hs]
  rfl

/-- Localising an external path succeeds and keeps the file exactly when no directory matches as
a string or the first one that does is a directory of the name. -/
theorem localize_denotes_iff (p : External) :
    (∃ t, tryLocalizeExternal ws (.external p) = .ok t ∧ toAbsoluteFilename ws t = p) ↔
      ∀ dir ∈ matchingDir ws p, Below dir p := by
  have hroot : outsideToAbsoluteFilename ws (.inSourceDir .root) = ws.absRoot := rfl
  obtain ⟨b, hb, -, hdrop⟩ | ⟨s, hs, -⟩ := ws.buildDir_cases
  · rw [tryLocalizeExternal_inSourceDir ws hb,
      localizeIn_denotes_iff (toAbsoluteFilename_makeLocalPath ws hb hdrop), hroot, matchingDir,
      localizeDirs, hb]
    cases hstarts : ws.absRoot.toString.isPrefixOf p.toString <;> simp [hstarts]
  · rw [tryLocalizeExternal_external ws hs, matchingDir, localizeDirs, hs]
    cases hbuild : s.toString.isPrefixOf p.toString with
    | true =>
      have hinside := @localizeIn_denotes_iff ws (.external s) p .inBuildDir
        (toAbsoluteFilename_inBuildDir ws hs)
      rw [if_pos rfl, hinside]
      simp [outsideToAbsoluteFilename, hbuild]
    | false =>
      rw [if_neg Bool.false_ne_true, localizeIn_denotes_iff fun _ => rfl, hroot]
      cases hstarts : ws.absRoot.toString.isPrefixOf p.toString <;> simp [hbuild, hstarts]

/-- A directory next to the workspace whose name starts with the name of the root is taken for a
directory of the workspace. -/
theorem localize_sibling :
    tryLocalizeExternal exampleWorkspace (.external ⟨ascii "/wsfoo/x", rfl⟩) =
        .ok (.inSourceTree ⟨ascii "foo/x", rfl⟩) ∧
      (toAbsoluteFilename exampleWorkspace (.inSourceTree ⟨ascii "foo/x", rfl⟩)).toString =
        ascii "/ws/foo/x" ∧
      toAbsoluteFilename exampleWorkspace (.inSourceTree ⟨ascii "foo/x", rfl⟩) ≠
        ⟨ascii "/wsfoo/x", rfl⟩ := by
  decide

end Path

end Dune.Stdune
