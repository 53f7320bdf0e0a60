import Dune.Pkg.SolverEnv
import Dune.Stdune.Local

/-!
# Locked packages

The packages of a lock directory. Commands and dependencies are choices between values, each under
a condition on the platform; choosing takes the first value whose condition the platform meets.
Merging the packages that were locked for two platforms puts the conditions of equal values
together.

Actions, boolean conditions and templated strings are parameters (`A`, `C`, `T`): this code only
compares them, structurally.
-/

namespace Dune.Pkg.LockDir

open Dune.Stdune

/-! ## Conditions -/

abbrev SolverEnvDisjunction := List SolverEnv

namespace SolverEnvDisjunction

def matchesPlatform (t : SolverEnvDisjunction) (platform : SolverEnv) : Bool :=
  t.any fun env => env.isSubset platform

end SolverEnvDisjunction

structure Conditional (α : Type) where
  condition : SolverEnvDisjunction
  value : α
deriving DecidableEq

def Conditional.evaluate {α : Type} (platform : SolverEnv) (c : Conditional α) : Option α :=
  if SolverEnvDisjunction.matchesPlatform c.condition platform then some c.value else none

abbrev ConditionalChoice (α : Type) := List (Conditional α)

namespace ConditionalChoice
variable {α : Type}

def singletonMulti (conditions : List SolverEnv) (value : α) : ConditionalChoice α :=
  [⟨conditions.map SolverEnv.removeAllExceptPlatformSpecific, value⟩]

def chooseForPlatform (t : ConditionalChoice α) (platform : SolverEnv) : Option α :=
  t.findSome? (Conditional.evaluate platform)

def containsSolverEnv (t : ConditionalChoice α) (env : SolverEnv) : Bool :=
  t.any fun c => c.condition.contains env

section
variable [DecidableEq α]

/-- The loop of `append_combining_conditions`. -/
def combine (conditional : Conditional α) : ConditionalChoice α → ConditionalChoice α
  | [] => [conditional]
  | x :: xs =>
    if x.value = conditional.value then
      ⟨x.condition ++ conditional.condition, conditional.value⟩ :: xs
    else x :: combine conditional xs

def appendCombiningConditions (t : ConditionalChoice α) (conditional : Conditional α) :
    Except Exn (ConditionalChoice α) :=
  match conditional.condition.find? (containsSolverEnv t) with
  | some _ =>
    .error (.codeError "Tried to add duplicate solver env to lockdir conditional choice")
  | none => .ok (combine conditional t)

def mergeCombiningConditions (a b : ConditionalChoice α) : Except Exn (ConditionalChoice α) :=
  b.foldlM appendCombiningConditions a

end

end ConditionalChoice

/-! ## Packages -/

inductive UrlBackend where
  | http | rsync | git | darcs | hg
deriving DecidableEq, Repr

/-- `OpamUrl.t`. -/
structure Url where
  transport : String
  path : String
  hash : Option String
  backend : UrlBackend
deriving DecidableEq, Repr

inductive HashKind where
  | md5 | sha256 | sha512
deriving DecidableEq, Repr

structure Checksum where
  kind : HashKind
  contents : String
deriving DecidableEq, Repr

structure Source where
  url : Loc × Url
  checksum : Option (Loc × Checksum)
deriving DecidableEq, Repr

structure PkgInfo where
  name : String
  version : String
  dev : Bool
  avoid : Bool
  source : Option Source
  extraSources : List (Local × Source)
deriving DecidableEq

inductive BuildCommand (A : Type) where
  | action (a : A)
  | dune
deriving DecidableEq, Repr

structure Dependency where
  loc : Loc
  name : String
deriving DecidableEq, Repr

inductive EnabledIf (C : Type) where
  | always
  | conditional (condition : C)
deriving DecidableEq, Repr

structure Depexts (C : Type) where
  externalPackageNames : List String
  enabledIf : EnabledIf C
deriving DecidableEq, Repr

inductive EnvUpdateOp where
  | eq | plusEq | eqPlus | colonEq | eqColon | eqPlusEq
deriving DecidableEq, Repr

structure EnvUpdate (T : Type) where
  op : EnvUpdateOp
  var : String
  value : T
deriving DecidableEq, Repr

/-- `Pkg.t`. -/
structure Package (A C T : Type) where
  buildCommand : ConditionalChoice (BuildCommand A)
  installCommand : ConditionalChoice A
  depends : ConditionalChoice (List Dependency)
  depexts : List (Depexts C)
  info : PkgInfo
  exportedEnv : List (EnvUpdate T)
  enabledOnPlatforms : SolverEnvDisjunction
deriving DecidableEq

namespace Package
variable {A C T : Type} [DecidableEq A] [DecidableEq C] [DecidableEq T]

/-- `Pkg.merge_conditionals`. The two packages that are compared at the end have the merged fields
in common, so that it makes no difference that `Pkg.equal` ignores the order of conditions and the
locations of an install command. -/
def mergeConditionals (a b : Package A C T) : Except Exn (Package A C T) := do
  let buildCommand ← a.buildCommand.mergeCombiningConditions b.buildCommand
  let installCommand ← a.installCommand.mergeCombiningConditions b.installCommand
  let depends ← a.depends.mergeCombiningConditions b.depends
  let enabledOnPlatforms := a.enabledOnPlatforms ++ b.enabledOnPlatforms
  let ret := { a with buildCommand, installCommand, depends, enabledOnPlatforms }
  if ret ≠ { b with buildCommand, installCommand, depends, enabledOnPlatforms } then
    .error (.codeError "Packages differ in a non-platform-specific field")
  else return ret

def isEnabledOnPlatform (t : Package A C T) (platform : SolverEnv) : Bool :=
  t.enabledOnPlatforms.isEmpty ||
    SolverEnvDisjunction.matchesPlatform t.enabledOnPlatforms platform

end Package

/-- The values that `opam_package_to_lock_file_pkg_single` finds for a package on one platform. -/
structure Locked (A C T : Type) where
  buildCommand : Option (BuildCommand A)
  installCommand : Option A
  depends : List Dependency
  depexts : List (Depexts C)
  info : PkgInfo
  exportedEnv : List (EnvUpdate T)
deriving DecidableEq

/-- The package that `opam_package_to_lock_file_pkg_single` makes of these values. -/
def Locked.toPackage {A C T : Type} (solverEnv : SolverEnv) (portableLockDir : Bool)
    (l : Locked A C T) : Package A C T where
  buildCommand := (l.buildCommand.map (.singletonMulti [solverEnv])).getD []
  installCommand := (l.installCommand.map (.singletonMulti [solverEnv])).getD []
  depends := .singletonMulti [solverEnv] l.depends
  depexts := l.depexts
  info := l.info
  exportedEnv := l.exportedEnv
  enabledOnPlatforms :=
    if portableLockDir then [solverEnv.removeAllExceptPlatformSpecific] else []

end Dune.Pkg.LockDir
