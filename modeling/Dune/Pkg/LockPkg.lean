import Dune.Pkg.OpamFilter
import Dune.Lang.Slang

/-!
# Translation of opam filters

`filterToBlang` is `Lock_pkg.filter_to_blang`: identifiers and strings become Slang terms, the
connectives become their absorbing forms. `Assignment` gives values to variables;
`Assignment.opamEnv` and `Assignment.expander` are the environments in which opam evaluates the
filter and Dune its translation.
-/

namespace Dune.Pkg

open Dune.Stdune Dune.Lang

/-- The percent forms of the translation: a variable of Dune's own, under the name that opam has
for it, or a package variable of the package being built or of another one. -/
inductive OpamPform where
  | var (name : String)
  | pkgSelf (name : String)
  | pkg (package name : String)
deriving DecidableEq, Repr

def isValidGlobalVariableName (name : String) : Bool := name ≠ "root"

def isValidPackageVariableName (name : String) : Bool :=
  !(["hash", "misc", "opam-version", "depends", "build", "opamfile"].contains name)

/-- The names for which `Pform.Var.of_opam_global_variable_name` has a variable. -/
def isOpamGlobalVariableName (name : String) : Bool :=
  ["lib", "libexec", "bin", "sbin", "toplevel", "share", "etc", "doc", "stublibs", "man",
    "make", "switch", "os", "os-version", "os-distribution", "os-family", "build", "prefix", "user",
    "group", "jobs", "arch", "sys-ocaml-version"].contains name

def invalidVariableError {α : Type} (loc : Loc) (name : String) : Except Exn α :=
  .error (.userError loc ("Cannot translate opam variable " ++ name.quote ++ ".\n" ++
    "Dune only supports a subset of opam variables when translating opam files."))

def absentPackageValue (forStringInterp : Bool) (name : String) : Option (Slang OpamPform) :=
  if name = "installed" then some (.bool false)
  else if name = "version" then some (if forStringInterp then .text "" else .undefined)
  else none

section
variable (packagesInSolution : String → Bool) (loc : Loc)

variable (forStringInterp : Bool)

/-- `convert_with_package_name` of `opam_variable_to_slang`. -/
def convertWithPackageName (name : String) (package : Option String) :
    Except Exn (Slang OpamPform) :=
  if isValidPackageVariableName name then
    match package with
    | some p =>
      if packagesInSolution p then .ok (.pform (.pkg p name))
      else .ok ((absentPackageValue forStringInterp name).getD (.pform (.pkg p name)))
    | none => .ok (.pform (.pkgSelf name))
  else invalidVariableError loc name

def convertPackages (forStringInterp : Bool) (name : String) :
    List (Option String) → Except Exn (List (Slang OpamPform))
  | [] => .ok []
  | package :: packages => do
    let slang ← convertWithPackageName packagesInSolution loc forStringInterp name package
    let slangs ← convertPackages forStringInterp name packages
    return slang :: slangs

def opamVariableToSlang (packages : List (Option String)) (name : String) :
    Except Exn (Slang OpamPform) :=
  match packages with
  | [] =>
    if isValidGlobalVariableName name then
      if isOpamGlobalVariableName name then .ok (.pform (.var name))
      else convertWithPackageName packagesInSolution loc forStringInterp name none
    else invalidVariableError loc name
  | [package] => convertWithPackageName packagesInSolution loc forStringInterp name package
  | many => do
    let many ← convertPackages packagesInSolution loc forStringInterp name many
    return .form .none (.blang (.and (many.map .expr)))

/-- `String.lsplit2 ~on:':'`. -/
def lsplit2Colon (s : String) : Option (String × String) :=
  match s.toList.span (· ≠ ':') with
  | (_, []) => none
  | (before, _ :: after) => some (String.ofList before, String.ofList after)

def desugarSpecialStringInterpolationSyntax (fident : Fident) : Fident :=
  match fident.converter with
  | some (packageAndVariable, "") =>
    if fident.packages = [] ∧ fident.variableName = "" then
      match lsplit2Colon packageAndVariable with
      | some (package, name) => ⟨[some package], name, none⟩
      | none => fident
    else fident
  | _ => fident

/-- The conditional that a string converter becomes. The `else` case also stands for an undefined
variable in the condition. -/
def convertedSlang (then_ else_ : String) : Slang OpamPform → Slang OpamPform
  | .form _ (.blang (.const false)) | .undefined => .text else_
  | slang =>
    .form .none (.if_ (.expr (.form .none (.catchUndefinedVar slang (.bool false))))
      (.text then_) (.text else_))

def opamFidentToSlang (fident : Fident) : Except Exn (Slang OpamPform) :=
  let fident := desugarSpecialStringInterpolationSyntax (Opam.desugarFident fident)
  match fident.converter with
  | none => opamVariableToSlang packagesInSolution loc forStringInterp fident.packages
      fident.variableName
  | some (then_, else_) => do
    let slang ← opamVariableToSlang packagesInSolution loc false fident.packages
      fident.variableName
    return convertedSlang then_ else_ slang

/-- The translation of a piece of a string; `package` is the package that the message names. -/
def pieceToSlang (package : String) : Piece → Except Exn (Slang OpamPform)
  | .text s => .ok (.text s)
  | .percent => .ok (.text "%")
  | .interp fident => opamFidentToSlang packagesInSolution loc true fident
  | .unclosed other =>
    .error (.userError loc ("Encountered malformed variable interpolation while processing " ++
      "commands for package " ++ package ++ ".\nThe variable interpolation:\n" ++ other))

def piecesToSlangs (package : String) : List Piece → Except Exn (List (Slang OpamPform))
  | [] => .ok []
  | piece :: pieces => do
    let slang ← pieceToSlang packagesInSolution loc package piece
    let slangs ← piecesToSlangs package pieces
    return slang :: slangs

variable (lib : OpamLib) (package : String)

def opamStringToSlang (s : String) : Except Exn (Slang OpamPform) := do
  let slangs ← piecesToSlangs packagesInSolution loc package (lib.split s)
  return .form .none (.concat slangs)

/-- `filter_to_slang` of `filter_to_blang`. -/
def filterToSlang : Filter → Except Exn (Slang OpamPform)
  | .fString s => opamStringToSlang packagesInSolution loc lib package s
  | .fIdent fident => opamFidentToSlang packagesInSolution loc false fident
  | _ => .error (.codeError ("The opam file parser should only allow identifiers and strings in " ++
      "places where strings are expected"))

def filterToBlang : Filter → Except Exn (Blang OpamPform)
  | .fBool b => .ok (.const b)
  | .fString s => do
    let slang ← filterToSlang packagesInSolution loc lib package (.fString s)
    return .expr slang
  | .fIdent fident => do
    let slang ← filterToSlang packagesInSolution loc lib package (.fIdent fident)
    return .expr slang
  | .fOp lhs op rhs => do
    let lhs ← filterToSlang packagesInSolution loc lib package lhs
    let rhs ← filterToSlang packagesInSolution loc lib package rhs
    return .compare op lhs rhs
  | .fAnd lhs rhs => do
    let lhs ← filterToBlang lhs
    let rhs ← filterToBlang rhs
    return .expr (.form .none (.andAbsorbUndefinedVar [lhs, rhs]))
  | .fOr lhs rhs => do
    let lhs ← filterToBlang lhs
    let rhs ← filterToBlang rhs
    return .expr (.form .none (.orAbsorbUndefinedVar [lhs, rhs]))
  | .fNot f => do
    let blang ← filterToBlang f
    return .not blang
  | .fDefined f => do
    let blang ← filterToBlang f
    return .not (.expr (.form .none (.hasUndefinedVar (.form .none (.blang blang)))))
  | .fUndef _ => .error (.codeError ("Encountered undefined filter which should not be possible " ++
      "since no filter reduction has taken place."))

end

/-- Values of the variables; those of a package are only used when it is in the solution. -/
structure Assignment where
  global : String → Option Contents
  self : String → Option Contents
  package : String → String → Option Contents

namespace Assignment
variable (σ : Assignment) (packagesInSolution : String → Bool)

/-- A variable of another package. One that is absent from the solution is not installed and has
no other variable. -/
def ofPackage (package name : String) : Option Contents :=
  if packagesInSolution package then σ.package package name
  else if name = "installed" then some (.b false)
  else none

/-- The environment in which opam evaluates the filter. An identifier without package that is no
global variable is one of the package being built. -/
def opamEnv : OpamEnv
  | .global, name => if isOpamGlobalVariableName name then σ.global name else σ.self name
  | .self, name => σ.self name
  | .package package, name => σ.ofPackage packagesInSolution package name

def strings : Contents → List String
  | .b b => [Opam.stringOfBool b]
  | .s s => [s]
  | .l l => l

def ofPform : OpamPform → Option Contents
  | .var name => σ.global name
  | .pkgSelf name => σ.self name
  | .pkg package name => σ.ofPackage packagesInSolution package name

/-- The name that an undefined percent form is reported under. -/
def pformName : OpamPform → String
  | .var name | .pkgSelf name | .pkg _ name => name

/-- The environment in which Dune evaluates the translation. -/
def expander : Env OpamPform Empty where
  expandPform p :=
    match σ.ofPform packagesInSolution p with
    | some contents => .ok (.ok ((strings contents).map .string))
    | none => .ok (.error (pformName p))
  stringOfPath := nofun
  pathToString := nofun
  comparePath := nofun

end Assignment

end Dune.Pkg
