import Dune.Stdune.Map

/-!
# Closures of libraries

The part of `lib.ml` that computes the libraries to link: the closure of the requirements, the
default implementations of virtual libraries, and the second traversal in which implementations
stand for virtual libraries. Libraries are taken from any ordered type; their fields are the ones of
one compilation mode. Libraries with parameters are left out, and so are the paths in the messages
of errors. A traversal takes a bound on its depth.
-/

namespace Dune.Rules

open Dune.Stdune

inductive LibKind where
  | duneFile
  | parameter
  | virtual
deriving DecidableEq, Repr

inductive LibError (L : Type) where
  | unresolved (lib : L)
  | forbidden (lib : L)
  | overlap (lib : L)
  | dependencyCycle (lib : L)
  | doubleImplementation (impl₁ impl₂ vlib : L)
  | noImplementation (vlib : L)
  | defaultImplementationCycle (cycle : List L)
  | assertFailure
  | codeError (msg : String)
  | outOfBound
deriving DecidableEq, Repr

/-- The fields of libraries. A field that is an error in a library is `none`; `resolved` are the
requirements that the library itself lists. -/
structure LibData (L : Type) where
  kind : L → LibKind
  implements : L → Option L
  defaultImplementation : L → Option (Option L)
  resolved : L → Option (List L)
  requires : L → Option (List L)

namespace LibData

variable {L : Type} [LinearOrder L] (libs : LibData L)

/-- A field, or the error in it. -/
def get {α : Type} (lib : L) : Option α → Except (LibError L) α
  | some a => .ok a
  | none => .error (.unresolved lib)

structure Unimplemented (L : Type) where
  implemented : List L
  unimplemented : List L
deriving DecidableEq, Repr

def Unimplemented.empty : Unimplemented L := ⟨[], []⟩

def Unimplemented.add (t : Unimplemented L) (lib : L) : Except (LibError L) (Unimplemented L) :=
  match libs.implements lib, libs.kind lib with
  | some _, .virtual => .error .assertFailure
  | none, .virtual =>
    .ok (if lib ∈ t.implemented then t
      else { t with unimplemented := Map.insertKey lib t.unimplemented })
  | none, _ => .ok t
  | some vlib, _ =>
    .ok ⟨Map.insertKey vlib t.implemented, t.unimplemented.filter (· ≠ vlib)⟩

def Unimplemented.withDefaultImplementations (t : Unimplemented L) : List L :=
  t.unimplemented.foldl
    (fun acc lib => if (libs.defaultImplementation lib).isSome then lib :: acc else acc) []

/-! ## The implementations of virtual libraries -/

inductive VlibStatus (L : Type) where
  | noImpl (stack : List L)
  | impl (lib : L) (stack : List L)
deriving DecidableEq, Repr

def partialLoop (acc : List (L × VlibStatus L)) :
    List (L × List L) → Except (LibError L) (List (L × VlibStatus L))
  | [] => .ok acc
  | (lib, stack) :: closure =>
    match libs.implements lib, libs.kind lib with
    | none, .duneFile | none, .parameter => partialLoop acc closure
    | none, .virtual => partialLoop (Map.set lib (.noImpl stack) acc) closure
    | some _, .parameter | some _, .virtual => .error .assertFailure
    | some impl, .duneFile =>
      match libs.kind impl with
      | .parameter => partialLoop acc closure
      | .virtual =>
        match Map.find acc impl with
        | none => .error .assertFailure
        | some (.noImpl _) => partialLoop (Map.set impl (.impl lib stack) acc) closure
        | some (.impl lib' _) => .error (.doubleImplementation lib' lib impl)
      | .duneFile => .error (.codeError "implements expected Virtual or Parameter")

def partialMake (closure : List (L × List L)) : Except (LibError L) (List (L × VlibStatus L)) :=
  libs.partialLoop [] closure

def tableLoop (allowPartial : Bool) (acc : List (L × L)) :
    List (L × VlibStatus L) → Except (LibError L) (List (L × L))
  | [] => .ok acc
  | (vlib, .noImpl _) :: impls =>
    if allowPartial then tableLoop allowPartial acc impls else .error (.noImplementation vlib)
  | (vlib, .impl lib _) :: impls => tableLoop allowPartial (Map.set vlib lib acc) impls

def tableMake (impls : List (L × VlibStatus L)) (allowPartial : Bool) :
    Except (LibError L) (List (L × L)) :=
  tableLoop allowPartial [] impls

/-- The implementation that stands for a library. -/
def replace (impls : List (L × L)) (lib : L) : L := (Map.find impls lib).getD lib

/-- `loop` of `second_step_closure`, on the result and the visited libraries. -/
def secondStepLoop (impls : List (L × L)) :
    Nat → List L × List L → L → Except (LibError L) (List L × List L)
  | 0, _, _ => .error .outOfBound
  | bound + 1, (res, visited), t => do
    let t := replace impls t
    if t ∈ visited then return (res, visited)
    else
      let visited := Map.insertKey t visited
      let deps ← get t (libs.requires t)
      let (res, visited) ← deps.foldlM (secondStepLoop impls bound) (res, visited)
      return (t :: res, visited)

inductive ClosureKind where
  | compile
  | partialLink
  | link
deriving DecidableEq, Repr

section Closures

variable [Fintype L]

/-- A bound on the depth of a traversal: the libraries on its path are different. -/
def depth (L : Type) [Fintype L] : Nat := Fintype.card L + 1

def secondStepClosure (ts : List L) (impls : List (L × L)) : Except (LibError L) (List L) := do
  let (res, _) ← ts.foldlM (libs.secondStepLoop impls (depth L)) ([], [])
  return res.reverse

def associate (closure : List (L × List L)) (kind : ClosureKind) :
    Except (LibError L) (List L) := do
  let linking := kind ≠ .compile
  let allowPartial := kind ≠ .link
  let impls ← libs.partialMake closure
  let closure := closure.map Prod.fst
  if linking ∧ impls ≠ [] then
    let impls ← tableMake impls allowPartial
    libs.secondStepClosure closure impls
  else return closure

/-! ## The first closure -/

/-- What looking up the name of a library in a database gives: nothing is looked up for private
libraries. -/
inductive Lookup (L : Type) where
  | skipped
  | found (lib : L)
  | other
deriving DecidableEq, Repr

structure Closure (L : Type) where
  db : Option (L → Lookup L)
  forbiddenLibraries : L → Bool

structure ClosureState (L : Type) where
  result : List (L × List L)
  visited : List L
  unimplemented : Unimplemented L
deriving DecidableEq, Repr

def ClosureState.empty : ClosureState L := ⟨[], [], .empty⟩

/-- The check of `closure_visit` for two libraries of one name. -/
def checkOverlap (t : Closure L) (lib : L) : Except (LibError L) Unit :=
  match t.db with
  | none => .ok ()
  | some db =>
    match db lib with
    | .skipped => .ok ()
    | .found lib' => if lib = lib' then .ok () else .error (.overlap lib)
    | .other => .error (.codeError "Unexpected find result")

def push (stack : List L) (lib : L) : Except (LibError L) (List L) :=
  if lib ∈ stack then .error (.dependencyCycle lib) else .ok (lib :: stack)

def closureVisit (t : Closure L) :
    Nat → List L → ClosureState L → L → Except (LibError L) (ClosureState L)
  | 0, _, _, _ => .error .outOfBound
  | bound + 1, stack, state, lib => do
    if lib ∈ state.visited then return state
    else if t.forbiddenLibraries lib then throw (.forbidden lib)
    else
      let state := { state with visited := Map.insertKey lib state.visited }
      checkOverlap t lib
      let newStack ← push stack lib
      let deps ← get lib (libs.requires lib)
      let unimplemented ← state.unimplemented.add libs lib
      let state := { state with unimplemented }
      let state ← deps.foldlM (closureVisit t bound newStack) state
      return { state with result := (lib, stack) :: state.result }

/-- `Closure.result`. -/
def ClosureState.closure (state : ClosureState L) (kind : ClosureKind) :
    Except (LibError L) (List L) :=
  libs.associate state.result.reverse kind

def step1Closure (t : Closure L) (ts : List L) : Except (LibError L) (ClosureState L) :=
  ts.foldlM (libs.closureVisit t (depth L) []) .empty

def checkForbidden (ts : List L) (forbiddenLibraries : L → Bool) : Except (LibError L) Unit := do
  let state ← libs.step1Closure ⟨none, forbiddenLibraries⟩ ts
  let _ ← state.closure libs .partialLink
  return ()

def compileClosureWithOverlapChecks (t : Closure L) (ts : List L) :
    Except (LibError L) (List L) := do
  let state ← libs.step1Closure t ts
  state.closure libs .compile

/-- The requirements that come from what a library implements, in `instantiate_impl`. -/
def requiresImplements (lib : L) (requires : List L) : Except (LibError L) (List L) :=
  match libs.implements lib with
  | none => .ok []
  | some impl =>
    match libs.kind impl with
    | .parameter => .ok [impl]
    | .virtual => do
      libs.checkForbidden (requires.filter (· ≠ impl)) fun lib => lib = impl
      return [impl]
    | .duneFile => .error (.codeError "expected Virtual or Parameter")

/-- The libraries of a list, each at its first place. -/
def dedup (requires : List L) : List L :=
  (requires.foldl
    (fun (seen, lst) lib =>
      if lib ∈ seen then (seen, lst) else (Map.insertKey lib seen, lib :: lst)) ([], [])).2.reverse

def instantiateRequires (lib : L) : Except (LibError L) (List L) := do
  let requires ← get lib (libs.resolved lib)
  let requiresImplements ← libs.requiresImplements lib requires
  return dedup (requiresImplements ++ requires)

/-! ## Default implementations -/

inductive Mark where
  | visiting
  | visited
deriving DecidableEq, Repr

/-- The state of the traversal in `resolve_default_libraries`. -/
structure DefaultState (L : Type) where
  vlibDefaultParent : List (L × List L)
  visited : List (L × Mark)
deriving DecidableEq, Repr

def avoidDirectParent (vlib impl : L) : Bool :=
  match libs.implements impl with
  | none => true
  | some x => x ≠ vlib

def implFor (vlib : L) : Except (LibError L) (Option L) :=
  match libs.defaultImplementation vlib with
  | none => .ok none
  | some d => some <$> get vlib d

def implDifferentFromVlibDefault (vlib impl : L) : Except (LibError L) Bool := do
  match ← libs.implFor vlib with
  | none => return true
  | some lib => return lib ≠ impl

def libraryIsDefault (vlibDefaultParent : List (L × List L)) (lib : L) : Option (L × L) :=
  match Map.find vlibDefaultParent lib with
  | some (_ :: _) => none
  | none | some [] =>
    match libs.defaultImplementation lib with
    | none | some none => none
    | some (some default) => some (lib, default)

def multiCons (m : List (L × List L)) (key x : L) : List (L × List L) :=
  Map.set key (x :: (Map.find m key).getD []) m

/-- `visit` of `resolve_default_libraries`, with `R.visit`. -/
def visit : Nat → List L → Option L → DefaultState L → L → Except (LibError L) (DefaultState L)
  | 0, _, _, _, _ => .error .outOfBound
  | bound + 1, stack, ancestorVlib, s, lib => do
    match Map.find s.visited lib with
    | some .visited => return s
    | some .visiting => throw (.defaultImplementationCycle (lib :: stack))
    | none =>
      let s := { s with visited := Map.set lib .visiting s.visited }
      let deps ← get lib (libs.requires lib)
      let s ← (deps.filter fun x => libs.avoidDirectParent x lib).foldlM
        (visit bound (lib :: stack) ancestorVlib) s
      let s ← (match libs.implements lib with
        | none => .ok s
        | some vlib => do
          match ← libs.implDifferentFromVlibDefault vlib lib, ancestorVlib with
          | true, none => visit bound (lib :: stack) none s vlib
          | true, some ancestor =>
            let s := { s with vlibDefaultParent := multiCons s.vlibDefaultParent lib ancestor }
            visit bound (lib :: stack) none s vlib
          | false, _ => return s : Except (LibError L) (DefaultState L))
      let s ← (match libs.kind lib with
        | .duneFile => .ok s
        | .parameter | .virtual => do
          match ← libs.implFor lib with
          | none => return s
          | some impl => visit bound (lib :: stack) (some lib) s impl :
        Except (LibError L) (DefaultState L))
      return { s with visited := Map.set lib .visited s.visited }

/-- `resolve_default_libraries`: virtual libraries with the defaults that are added for them. -/
def resolveDefaultLibraries (libraries : List L) : Except (LibError L) (List (L × L)) := do
  let status ← libraries.foldlM (libs.visit (depth L) [] none) ⟨[], []⟩
  return libraries.filterMap (libs.libraryIsDefault status.vlibDefaultParent)

/-- The fold of `fill_impls`. -/
def fill (t : Closure L) (state : ClosureState L) (defaults : List (L × L)) :
    Except (LibError L) (ClosureState L) :=
  defaults.foldlM (fun state d => libs.closureVisit t (depth L) [] state d.2) state

/-- The defaults that a round of `impls_via_defaults` adds. -/
def defaults (state : ClosureState L) : Except (LibError L) (List (L × L)) :=
  libs.resolveDefaultLibraries (state.unimplemented.withDefaultImplementations libs)

/-- `impls_via_defaults` and `fill_impls`, with a bound on the rounds. -/
def implsViaDefaults (t : Closure L) :
    Nat → ClosureState L → Except (LibError L) (ClosureState L)
  | 0, _ => .error .outOfBound
  | bound + 1, state => do
    match ← libs.defaults state with
    | [] => return state
    | d :: ds =>
      let state ← libs.fill t state (d :: ds)
      implsViaDefaults t bound state

def linkingClosureWithOverlapChecks (t : Closure L) (ts : List L) :
    Except (LibError L) (List L) := do
  let state ← libs.step1Closure t ts
  let state ← libs.implsViaDefaults t (depth L) state
  state.closure libs .link

end Closures

end LibData

/-- Libraries as `instantiate_impl` makes them. -/
structure Libs (L : Type) [LinearOrder L] [Fintype L] extends LibData L where
  implementable {lib vlib : L} : implements lib = some vlib → kind vlib ≠ .duneFile
  not_virtual {lib vlib : L} : implements lib = some vlib → kind lib = .duneFile
  default_implements {vlib d : L} :
    defaultImplementation vlib = some (some d) → implements d = some vlib
  requires_eq (lib : L) : requires lib = (toLibData.instantiateRequires lib).toOption

end Dune.Rules
