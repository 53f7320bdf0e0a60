import Dune.Stdune.Path

/-!
# Canonical paths

A path is canonical when `Path.of_string` gives it back from its string. `of_string` and
`relative` sort a local path into the source tree or the build directory; the injection of source
paths and the two append functions do not. With a build directory outside the workspace the
string of a build path is absolute, and `of_string` never looks for the build directory in an
absolute name.
-/

namespace Dune.Stdune

open Bytes

namespace Path

variable (ws : Workspace)

/-- `Path.of_string` gives the path back from its string. -/
def Canonical (t : Path) : Prop := ofString ws (toString ws t) = .ok t

instance (t : Path) : Decidable (Canonical ws t) := inferInstanceAs (Decidable (_ = _))

/-- A local path that is not in the build directory. -/
def OutsideBuild (s : Local) : Prop := ∀ b q, ws.buildDir = .inSourceDir b → s ≠ b.append q

/-- A source path that is appended to does not get into the build directory. -/
def StaysOutside (t : Path) (l : Local) : Prop :=
  ∀ a, t = .inSourceTree a → OutsideBuild ws (a.append l)

/-- The paths that the constructors and combinators build, when no source path is put into the
build directory by an injection or by appending to it. -/
inductive Built : Path → Prop
  | ofString {s : Bytes} {t : Path} (h : ofString ws s = .ok t) : Built t
  | relative {errorLoc : Loc} {t u : Path} {fn : Bytes} (ht : Built t)
      (h : relative ws errorLoc t fn = .ok u) : Built u
  | appendLocal {t : Path} {l : Local} (ht : Built t) (h : StaysOutside ws t l) :
      Built (appendLocal t l)
  | appendSource {t : Path} {s : Local} (ht : Built t) (h : StaysOutside ws t s) :
      Built (appendSource t s)
  | parent {t u : Path} (ht : Built t) (h : parent t = some u) : Built u
  | source {s : Local} (h : OutsideBuild ws s) : Built (.inSourceTree s)
  | build (p : Local) : Built (.inBuildDir p)
  | external (e : External) : Built (.external e)

variable {ws}

variable {s : Local} {t : Path}

/-- `make_local_path` leaves a path in the source tree exactly when it is not in the build
directory. -/
theorem drop_eq_none_iff : ws.buildDirPrefix.drop s = none ↔ OutsideBuild ws s := by
  obtain ⟨b, hb, -, hdrop⟩ | ⟨e, he, hdrop⟩ := ws.buildDir_cases
  · rw [Option.eq_none_iff_forall_ne_some]
    constructor
    · intro hnone b' q hb' hs
      rw [hb, OutsideBuildDir.inSourceDir.injEq] at hb'
      exact hnone q ((hdrop s q).mpr (hb' ▸ hs))
    · intro houtside q hq
      exact houtside b q hb ((hdrop s q).mp hq)
  · refine iff_of_true (hdrop s) fun b q hb => ?_
    rw [he] at hb
    cases hb

theorem makeLocalPath_of_outside (h : OutsideBuild ws s) :
    makeLocalPath ws s = .inSourceTree s := by
  rw [makeLocalPath, drop_eq_none_iff.mpr h]

theorem outsideBuild_root : OutsideBuild ws .root := by
  intro b q hb hroot
  obtain ⟨b', hb', hne, -⟩ | ⟨e, he, -⟩ := ws.buildDir_cases
  · rw [hb', OutsideBuildDir.inSourceDir.injEq] at hb
    exact Local.append_ne_root (hb ▸ hne) q hroot.symm
  · rw [he] at hb
    cases hb

theorem outsideBuild_of_append {p c : Local} (h : OutsideBuild ws (p.append c)) :
    OutsideBuild ws p := by
  rintro b q hb rfl
  exact h b (q.append c) hb (Local.append_assoc b q c)

theorem ofString_local (h : s ≠ .root) : ofString ws s.toString = .ok (makeLocalPath ws s) := by
  have hnil : s.toString ≠ [] := by
    intro hnil
    have hvalid := s.valid
    rw [hnil] at hvalid
    cases hvalid
  have hdot : s.toString ≠ ascii "." := fun hdot => h (Local.ext hdot)
  rw [ofString, if_neg (not_or.mpr ⟨hnil, hdot⟩), if_pos s.isRelative_toString,
    Local.ofString_toString]
  rfl

theorem ofString_external (e : External) : ofString ws e.toString = .ok (.external e) := by
  obtain ⟨r, hr⟩ := LocalPath.isRelative_eq_false_iff.mp e.absolute
  have hnil : e.toString ≠ [] := by simp [hr]
  have hdot : e.toString ≠ ascii "." := by
    rw [hr]
    exact fun hdot => absurd (List.cons.inj hdot).1 (by decide)
  rw [ofString, if_neg (not_or.mpr ⟨hnil, hdot⟩), if_neg (by simp [e.absolute]), External.ofString,
    dif_pos e.absolute]
  rfl

theorem canonical_external (e : External) : Canonical ws (.external e) := ofString_external e

theorem canonical_inSourceTree (h : OutsideBuild ws s) : Canonical ws (.inSourceTree s) := by
  by_cases hroot : s = .root
  · subst hroot
    rfl
  · rw [Canonical, toString, ofString_local hroot, makeLocalPath_of_outside h]

theorem canonical_inBuildDir {b : Local} (hb : ws.buildDir = .inSourceDir b) (p : Local) :
    Canonical ws (.inBuildDir p) := by
  obtain ⟨b', hb', hne, hdrop⟩ | ⟨e, he, -⟩ := ws.buildDir_cases
  · have hstring : toString ws (.inBuildDir p) = (b'.append p).toString := by
      rw [toString, buildToString, hb']
    rw [Canonical, hstring, ofString_local (Local.append_ne_root hne p), makeLocalPath,
      (hdrop _ p).mpr rfl]
  · rw [he] at hb
    cases hb

/-! ## Paths are built canonical -/

/-- No path of the source tree is in the build directory. -/
def SourceOutside (ws : Workspace) (t : Path) : Prop :=
  ∀ s, t = .inSourceTree s → OutsideBuild ws s

theorem sourceOutside_inBuildDir (p : Local) : SourceOutside ws (.inBuildDir p) := by
  intro s h
  cases h

theorem sourceOutside_external (e : External) : SourceOutside ws (.external e) := by
  intro s h
  cases h

theorem sourceOutside_inSourceTree (h : OutsideBuild ws s) :
    SourceOutside ws (.inSourceTree s) := by
  rintro s' ⟨⟩
  exact h

theorem sourceOutside_makeLocalPath (s : Local) : SourceOutside ws (makeLocalPath ws s) := by
  unfold makeLocalPath
  split
  next hnone => exact sourceOutside_inSourceTree (drop_eq_none_iff.mp hnone)
  next p _ => exact sourceOutside_inBuildDir p

theorem sourceOutside_ofString {s : Bytes} (h : ofString ws s = .ok t) : SourceOutside ws t := by
  unfold ofString at h
  split at h
  · cases h
    exact sourceOutside_inSourceTree outsideBuild_root
  · split at h
    · obtain ⟨l, -, hl⟩ := bind_ok h
      cases hl
      exact sourceOutside_makeLocalPath l
    · obtain ⟨e, -, he⟩ := bind_ok h
      cases he
      exact sourceOutside_external e

theorem sourceOutside_relative {errorLoc : Loc} {u : Path} {fn : Bytes} (ht : SourceOutside ws t)
    (h : relative ws errorLoc t fn = .ok u) : SourceOutside ws u := by
  unfold relative at h
  split at h
  · cases h
    exact ht
  · split at h
    · obtain ⟨e, -, he⟩ := bind_ok h
      cases he
      exact sourceOutside_external e
    · cases t with
      | inSourceTree p =>
        dsimp only at h
        split at h
        · cases h
          exact sourceOutside_makeLocalPath _
        · cases h
          exact sourceOutside_external _
      | inBuildDir p =>
        obtain ⟨l, -, hl⟩ := bind_ok h
        cases hl
        exact sourceOutside_inBuildDir l
      | external e =>
        cases h
        exact sourceOutside_external _

theorem sourceOutside_appendLocal {l : Local} (h : StaysOutside ws t l) :
    SourceOutside ws (appendLocal t l) := by
  cases t with
  | inSourceTree a => exact sourceOutside_inSourceTree (h a rfl)
  | inBuildDir a => exact sourceOutside_inBuildDir _
  | external a => exact sourceOutside_external _

theorem sourceOutside_parent {u : Path} (ht : SourceOutside ws t) (h : parent t = some u) :
    SourceOutside ws u := by
  cases t with
  | inSourceTree s =>
    obtain ⟨p, hp, rfl⟩ := Option.map_eq_some_iff.mp h
    obtain ⟨c, hc⟩ := Local.eq_append_of_parent hp
    exact sourceOutside_inSourceTree (outsideBuild_of_append (hc ▸ ht s rfl))
  | inBuildDir s =>
    obtain ⟨p, -, rfl⟩ := Option.map_eq_some_iff.mp h
    exact sourceOutside_inBuildDir p
  | external s =>
    obtain ⟨p, -, rfl⟩ := Option.map_eq_some_iff.mp h
    exact sourceOutside_external p

theorem Built.sourceOutside (h : Built ws t) : SourceOutside ws t := by
  induction h with
  | ofString h => exact sourceOutside_ofString h
  | relative _ h ih => exact sourceOutside_relative ih h
  | appendLocal _ h _ | appendSource _ h _ => exact sourceOutside_appendLocal h
  | parent _ h ih => exact sourceOutside_parent ih h
  | source h => exact sourceOutside_inSourceTree h
  | build p => exact sourceOutside_inBuildDir p
  | external e => exact sourceOutside_external e

theorem appendLocal_root (t : Path) : appendLocal t .root = t := by
  cases t with
  | inSourceTree a | inBuildDir a => rw [appendLocal, Local.append_root]
  | external a => rfl

/-- Appending a local path is going to its string, unless that leads from the source tree into
the build directory. -/
theorem relative_toString {l : Local} (h : StaysOutside ws t l) (errorLoc : Loc) :
    relative ws errorLoc t l.toString = .ok (appendLocal t l) := by
  by_cases hroot : l = .root
  · subst hroot
    rw [appendLocal_root]
    unfold relative
    exact if_pos (.inr rfl)
  · have hnil : l.toString ≠ [] := by
      intro hnil
      have hvalid := l.valid
      rw [hnil] at hvalid
      cases hvalid
    have hdot : l.toString ≠ ascii "." := fun hdot => hroot (Local.ext hdot)
    unfold relative
    rw [if_neg (not_or.mpr ⟨hnil, hdot⟩), if_neg (by simp [l.isRelative_toString])]
    cases t with
    | inSourceTree a =>
      simp only [Local.relativeResult_toString, makeLocalPath_of_outside (h a rfl), appendLocal]
    | inBuildDir a =>
      simp only [buildRelative, Local.relativeResult_toString, appendLocal]
      rfl
    | external a => rfl

/-- Paths that are built without putting a source path into the build directory: none of them is
a source path in the build directory, each one that is not a build path of an external build
directory is what `of_string` gives for its string, and `append_local` agrees with `relative`. -/
theorem built_canonical {t : Path} (h : Built ws t) :
    (∀ s, t = .inSourceTree s → OutsideBuild ws s) ∧
      ((∀ e p, ws.buildDir = .external e → t ≠ .inBuildDir p) → Canonical ws t) ∧
      ∀ errorLoc l, StaysOutside ws t l →
        relative ws errorLoc t l.toString = .ok (appendLocal t l) := by
  have houtside := h.sourceOutside
  refine ⟨houtside, fun hbuild => ?_, fun errorLoc l hl => relative_toString hl errorLoc⟩
  cases t with
  | inSourceTree s => exact canonical_inSourceTree (houtside s rfl)
  | external e => exact canonical_external e
  | inBuildDir p =>
    cases hdir : ws.buildDir with
    | inSourceDir b => exact canonical_inBuildDir hdir p
    | external e => exact absurd rfl (hbuild e p hdir)

theorem built_canonical_src :
    Built exampleWorkspace (.inSourceTree ⟨ascii "src", rfl⟩) ∧
      Canonical exampleWorkspace (.inSourceTree ⟨ascii "src", rfl⟩) ∧
      relative exampleWorkspace .none (.inSourceTree ⟨ascii "src", rfl⟩) (ascii "a") =
        .ok (.inSourceTree ⟨ascii "src/a", rfl⟩) := by
  have hsrc : Built exampleWorkspace (.inSourceTree ⟨ascii "src", rfl⟩) :=
    .source (drop_eq_none_iff.mp (by decide))
  obtain ⟨-, hcanonical, happend⟩ := built_canonical hsrc
  refine ⟨hsrc, hcanonical fun e p he => (by cases he), happend .none ⟨ascii "a", rfl⟩ ?_⟩
  rintro a ⟨⟩
  exact drop_eq_none_iff.mp (by decide)

/-- A workspace in `/ws` that is built in `/build`. -/
def exampleExternalBuild : Workspace where
  absRoot := exampleWorkspace.absRoot
  buildDir := .external ⟨ascii "/build", rfl⟩
  buildDirPrefix := .invalid
  accepted := rfl

/-- Appending to the root gives a source path in the build directory, where `relative` and
`of_string` give a build path. The string of a build path of an external build directory is read
as an external path. -/
theorem append_enters_build :
    ofString exampleWorkspace (ascii ".") = .ok (.inSourceTree .root) ∧
      appendLocal (.inSourceTree .root) ⟨ascii "_build/x", rfl⟩ =
        .inSourceTree ⟨ascii "_build/x", rfl⟩ ∧
      ofString exampleWorkspace (toString exampleWorkspace
        (.inSourceTree ⟨ascii "_build/x", rfl⟩)) = .ok (.inBuildDir ⟨ascii "x", rfl⟩) ∧
      relative exampleWorkspace .none (.inSourceTree .root) (ascii "_build/x") =
        .ok (.inBuildDir ⟨ascii "x", rfl⟩) ∧
      ofString exampleExternalBuild (toString exampleExternalBuild
        (.inBuildDir ⟨ascii "x", rfl⟩)) = .ok (.external ⟨ascii "/build/x", rfl⟩) := by
  decide

end Path

end Dune.Stdune
