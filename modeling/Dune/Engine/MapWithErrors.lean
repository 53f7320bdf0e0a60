import Dune.Engine.DirectoryDigest

/-!
# Traversals of targets that collect errors

`map_with_errors` and `map_with_errors_fiber` in `targets.ml`. A map is the list of its bindings in
the order of the keys. Both traversals record the errors with the last one first, but `filter_mapi`
visits the files of a directory from the last to the first, and `foldi` from the first to the last.
Fibers are computations in any monad.
-/

namespace Dune.Engine

open List Dune.Stdune

structure Produced (A : Type) where
  root : Bytes
  contents : DirContents A

namespace Produced

variable {A B E : Type}

/-- The errors are the result if there are any. -/
def result (root : Bytes) :
    DirContents B × List (Bytes × E) → Except (List (Bytes × E)) (Produced B)
  | (contents, []) => .ok ⟨root, contents⟩
  | (_, errors) => .error errors

def visitDir (d : Option (Bytes → Except E Unit)) (path : Bytes) (errors : List (Bytes × E)) :
    List (Bytes × E) :=
  match d with
  | none => errors
  | some f =>
    match f path with
    | .ok () => errors
    | .error e => (path, e) :: errors

def visitFile (path : Bytes) (name : Filename) (acc : List (Filename × B) × List (Bytes × E)) :
    Except E B → List (Filename × B) × List (Bytes × E)
  | .ok value => ((name, value) :: acc.1, acc.2)
  | .error e => (acc.1, (relativeFname path name, e) :: acc.2)

section
variable (d : Option (Bytes → Except E Unit)) (f : Bytes → Except E B)

/-- `filter_mapi` with `f`. -/
def filterMapi (path : Bytes) (files : List (Filename × A)) (errors : List (Bytes × E)) :
    List (Filename × B) × List (Bytes × E) :=
  files.foldr (fun file acc => visitFile path file.1 acc (f (relativeFname path file.1)))
    ([], errors)

mutual

def aux (path : Bytes) : DirContents A → List (Bytes × E) → DirContents B × List (Bytes × E)
  | .mk files subdirs, errors =>
    let (files, errors) := filterMapi f path files errors
    let (subdirs, errors) := auxSubdirs path subdirs errors
    (.mk files subdirs, visitDir d path errors)

def auxSubdirs (path : Bytes) : List (Filename × DirContents A) → List (Bytes × E) →
    List (Filename × DirContents B) × List (Bytes × E)
  | [], errors => ([], errors)
  | (dir, contents) :: subdirs, errors =>
    let (contents, errors) := aux (relativeFname path dir) contents errors
    let (subdirs, errors) := auxSubdirs path subdirs errors
    ((dir, contents) :: subdirs, errors)

end

def mapWithErrors (t : Produced A) : Except (List (Bytes × E)) (Produced B) :=
  result t.root (aux d f t.root t.contents [])

end

section
variable {m : Type → Type} [Monad m] (d : Option (Bytes → Except E Unit))
  (f : Bytes → m (Except E B))

def foldFiles (path : Bytes) : List (Filename × A) → List (Filename × B) × List (Bytes × E) →
    m (List (Filename × B) × List (Bytes × E))
  | [], acc => return acc
  | (name, _) :: files, acc => do
    let result ← f (relativeFname path name)
    foldFiles path files (visitFile path name acc result)

mutual

def auxFiber (path : Bytes) :
    DirContents A → List (Bytes × E) → m (DirContents B × List (Bytes × E))
  | .mk files subdirs, errors => do
    let (files, errors) ← foldFiles f path files ([], errors)
    let (subdirs, errors) ← mapSubdirs path subdirs [] errors
    return (.mk files.reverse subdirs, visitDir d path errors)

def mapSubdirs (path : Bytes) : List (Filename × DirContents A) → List (Filename × DirContents B) →
    List (Bytes × E) → m (List (Filename × DirContents B) × List (Bytes × E))
  | [], acc, errors => return (acc.reverse, errors)
  | (dirName, dirContents) :: subdirs, acc, errors => do
    let (mapped, errors) ← auxFiber (relativeFname path dirName) dirContents errors
    mapSubdirs path subdirs ((dirName, mapped) :: acc) errors

end

def mapWithErrorsFiber (t : Produced A) : m (Except (List (Bytes × E)) (Produced B)) := do
  return result t.root (← auxFiber d f t.root t.contents [])

end

section
variable (f : Bytes → Except E B)

/-- The errors of the files of a directory, in the order of their names. -/
def fileErrors (path : Bytes) (files : List (Filename × A)) : List (Bytes × E) :=
  files.filterMap fun file =>
    match f (relativeFname path file.1) with
    | .ok _ => none
    | .error e => some (relativeFname path file.1, e)

mutual

/-- In no directory do the errors show in which order its files were visited. As the paths are
different, this means that at most one file of a directory fails. -/
def Symmetric (path : Bytes) : DirContents A → Prop
  | .mk files subdirs =>
    (fileErrors f path files).reverse = fileErrors f path files ∧ SymmetricAll path subdirs

def SymmetricAll (path : Bytes) : List (Filename × DirContents A) → Prop
  | [] => True
  | (dir, contents) :: subdirs =>
    Symmetric (relativeFname path dir) contents ∧ SymmetricAll path subdirs

end

end

/-- Two lists of errors of one length, which are the same list exactly under `P`. -/
structure Same (es es' : List (Bytes × E)) (P : Prop) : Prop where
  length : es'.length = es.length
  iff : es = es' ↔ P

theorem Same.append {a a' b b' : List (Bytes × E)} {P Q : Prop} (ha : Same a a' P)
    (hb : Same b b' Q) : Same (b ++ a) (b' ++ a') (P ∧ Q) where
  length := by simp only [length_append, ha.length, hb.length]
  iff := by
    rw [← ha.iff, ← hb.iff]
    constructor
    · intro h
      exact (append_inj h hb.length.symm).symm
    · rintro ⟨rfl, rfl⟩
      rfl

theorem Same.append_left {a a' : List (Bytes × E)} {P : Prop} (h : Same a a' P)
    (b : List (Bytes × E)) : Same (b ++ a) (b ++ a') P where
  length := by simp only [length_append, h.length]
  iff := by rw [append_cancel_left_eq, h.iff]

section
variable (d : Option (Bytes → Except E Unit)) (f : Bytes → Except E B) (m : Type → Type) [Monad m]
  [LawfulMonad m]

theorem visitDir_eq (path : Bytes) (errors : List (Bytes × E)) :
    visitDir d path errors = visitDir d path [] ++ errors := by
  unfold visitDir
  repeat' split
  all_goals rfl

theorem files_spec (path : Bytes) (files : List (Filename × A)) : ∃ values : List (Filename × B),
    (∀ errors, filterMapi f path files errors = (values, fileErrors f path files ++ errors)) ∧
    ∀ acc errors, foldFiles (fun p => pure (f p)) path files (acc, errors) =
      (pure (values.reverse ++ acc, (fileErrors f path files).reverse ++ errors) : m _) := by
  induction files with
  | nil => exact ⟨[], fun _ => rfl, fun _ _ => rfl⟩
  | cons file files ih =>
    obtain ⟨values, hr, hl⟩ := ih
    simp only [filterMapi] at hr
    simp only [filterMapi, foldr_cons, hr, foldFiles, pure_bind, fileErrors, filterMap_cons]
    cases f (relativeFname path file.1) with
    | ok value =>
      refine ⟨(file.1, value) :: values, fun _ => rfl, fun acc errors => ?_⟩
      rw [visitFile, hl, reverse_cons, append_assoc]
      rfl
    | error e =>
      refine ⟨values, fun _ => rfl, fun acc errors => ?_⟩
      rw [visitFile, hl, reverse_cons, append_assoc]
      rfl

mutual

theorem aux_spec (path : Bytes) : (contents : DirContents A) → ∃ tree es es',
    Same es es' (Symmetric f path contents) ∧ ∀ errors,
      aux d f path contents errors = (tree, es ++ errors) ∧
      auxFiber d (fun p => pure (f p)) path contents errors = (pure (tree, es' ++ errors) : m _)
  | .mk files subdirs => by
    obtain ⟨values, hr, hl⟩ := files_spec f m path files
    obtain ⟨dirs, es, es', hs, h⟩ := auxSubdirs_spec path subdirs
    have hfiles : Same (fileErrors f path files) (fileErrors f path files).reverse _ :=
      ⟨length_reverse, eq_comm⟩
    refine ⟨.mk values dirs, _, _, (hfiles.append hs).append_left (visitDir d path []),
      fun errors => ⟨?_, ?_⟩⟩
    · simp only [aux, hr, (h _).1]
      rw [visitDir_eq, append_assoc, append_assoc]
    · simp only [auxFiber, hl, pure_bind, (h _).2]
      rw [visitDir_eq, append_assoc, append_assoc, append_nil, reverse_reverse]
      rfl

theorem auxSubdirs_spec (path : Bytes) : (subdirs : List (Filename × DirContents A)) →
    ∃ dirs es es', Same es es' (SymmetricAll f path subdirs) ∧ ∀ errors,
      auxSubdirs d f path subdirs errors = (dirs, es ++ errors) ∧
      ∀ acc, mapSubdirs d (fun p => pure (f p)) path subdirs acc errors =
        (pure (acc.reverse ++ dirs, es' ++ errors) : m _)
  | [] => by
    refine ⟨[], [], [], ⟨rfl, iff_of_true rfl trivial⟩, fun errors => ⟨rfl, fun acc => ?_⟩⟩
    rw [mapSubdirs, append_nil]
    rfl
  | (dir, contents) :: subdirs => by
    obtain ⟨tree, es, es', hs, h⟩ := aux_spec (relativeFname path dir) contents
    obtain ⟨dirs, rest, rest', hs', h'⟩ := auxSubdirs_spec path subdirs
    refine ⟨(dir, tree) :: dirs, _, _, hs.append hs', fun errors => ⟨?_, fun acc => ?_⟩⟩
    · simp only [auxSubdirs, (h _).1, (h' _).1, append_assoc]
    · simp only [mapSubdirs, (h _).2, pure_bind, (h' _).2, append_assoc, reverse_cons,
        singleton_append]

end

/-- The two traversals build the same tree, and find the same errors in the same order exactly when
no directory shows the order of its files. -/
theorem mapWithErrors_eq_fiber_iff (t : Produced A) : ∃ r : Except (List (Bytes × E)) (Produced B),
    mapWithErrorsFiber d (fun p => pure (f p)) t = (pure r : m _) ∧
      (mapWithErrors d f t = r ↔ Symmetric f t.root t.contents) := by
  obtain ⟨tree, es, es', hs, h⟩ := aux_spec d f m t.root t.contents
  refine ⟨result t.root (tree, es'), ?_, ?_⟩
  · simp only [mapWithErrorsFiber, (h []).2, pure_bind, append_nil]
  · rw [mapWithErrors, (h []).1, append_nil, ← hs.iff]
    cases es with
    | nil => simp [List.eq_nil_of_length_eq_zero hs.length]
    | cons e es =>
      cases es' with
      | nil => cases hs.length
      | cons e' es' => simp only [result, Except.error.injEq]

/-- A failing file and another one in a subdirectory. -/
theorem mapWithErrors_eq_fiber_one :
    let t : Produced Unit :=
      ⟨[], .mk [(⟨[97], rfl⟩, ())] [(⟨[98], rfl⟩, .mk [(⟨[97], rfl⟩, ())] [])]⟩
    mapWithErrors none (fun p => (Except.error p : Except Bytes Unit)) t =
      Id.run (mapWithErrorsFiber none (fun p => pure (Except.error p)) t) := by
  intro t
  obtain ⟨r, hr, hiff⟩ := mapWithErrors_eq_fiber_iff none
    (fun p => (Except.error p : Except Bytes Unit)) Id t
  rw [hr]
  exact hiff.mpr ⟨rfl, ⟨rfl, trivial⟩, trivial⟩

/-- Two failing files in one directory. -/
theorem mapWithErrors_ne_fiber :
    let t : Produced Unit := ⟨[], .mk [(⟨[97], rfl⟩, ()), (⟨[98], rfl⟩, ())] []⟩
    mapWithErrors none (fun p => (Except.error p : Except Bytes Unit)) t ≠
      Id.run (mapWithErrorsFiber none (fun p => pure (Except.error p)) t) := by
  intro t h
  exact absurd (Except.error.inj h) (by decide)

end

end Produced

end Dune.Engine
