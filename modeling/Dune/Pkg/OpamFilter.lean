import Dune.Lang.Value

/-!
# Opam's filters and their evaluation

The part of `OpamFilter` that evaluates a filter to a boolean. Reduction gives a boolean, a string
or an undefined value; the filter that opam keeps inside an undefined value only serves messages
and is left out. The regular expression that finds the interpolations of a string and the parser of
the identifiers inside are shared by opam and Dune: `split` stands for both. The order of versions
is the parameter `versionCompare`.
-/

namespace Dune.Pkg

open Dune.Lang

/-- `OpamVariable.variable_contents`. -/
inductive Contents where
  | b (b : Bool)
  | s (s : String)
  | l (l : List String)
deriving DecidableEq, Repr

inductive Scope where
  | global
  | self
  | package (name : String)
deriving DecidableEq, Repr

abbrev OpamEnv := Scope → String → Option Contents

structure Fident where
  packages : List (Option String)
  variableName : String
  converter : Option (String × String)
deriving DecidableEq, Repr

inductive Filter where
  | fBool (b : Bool)
  | fString (s : String)
  | fIdent (fident : Fident)
  | fOp (lhs : Filter) (op : Relop) (rhs : Filter)
  | fAnd (lhs rhs : Filter)
  | fOr (lhs rhs : Filter)
  | fNot (f : Filter)
  | fDefined (f : Filter)
  | fUndef (f : Filter)
deriving DecidableEq, Repr

/-- What the interpolation regular expression finds in a string. -/
inductive Piece where
  | text (s : String)
  /-- two percent signs -/
  | percent
  | interp (fident : Fident)
  /-- an interpolation that is not closed -/
  | unclosed (s : String)
deriving DecidableEq, Repr

/-- The parameters of the evaluation. -/
structure OpamLib where
  split : String → List Piece
  versionCompare : String → String → Ordering

namespace Opam

def stringOfBool (b : Bool) : String := if b then "true" else "false"

/-- `bool_of_string`, as an option. -/
def boolOfString (s : String) : Option Bool :=
  if s = "true" then some true else if s = "false" then some false else none

def desugarFident (fident : Fident) : Fident :=
  if fident.packages ≠ [] ∧ fident.variableName = "enable" ∧ fident.converter = none then
    ⟨fident.packages, "installed", some ("enable", "disable")⟩
  else fident

def boolOfValue : Contents → Option Bool
  | .b b => some b
  | .s s | .l [s] => boolOfString s
  | .l _ => none

section

variable (env : OpamEnv)

/-- `resolve` of `resolve_ident_raw`. -/
def resolve (var : String) : Option String → Option Contents
  | some name => env (.package name) var
  | none => env .self var

def resolveStep (var : String) (acc : Option Bool) (name : Option String) : Option Bool :=
  if acc = some false then acc
  else
    match resolve env var name with
    | some (.b true) => acc
    | v => v.bind boolOfValue

/-- The value that a list of packages gives a variable. -/
def resolvePackages (var : String) : List (Option String) → Option Contents
  | [] => env .global var
  | [name] => resolve env var name
  | names => (names.foldl (resolveStep env var) (some true)).map .b

def resolveIdentRaw (fident : Fident) : Option Contents :=
  let fident := desugarFident fident
  let value := resolvePackages env fident.variableName fident.packages
  match fident.converter with
  | some (iftrue, iffalse) =>
    match value.bind boolOfValue with
    | some true => some (.s iftrue)
    | some false => some (.s iffalse)
    | none => some (.s iffalse)
  | none => value

inductive Reduced where
  | bool (b : Bool)
  | string (s : String)
  | undefined
deriving DecidableEq, Repr

def resolveIdent (fident : Fident) : Reduced :=
  match resolveIdentRaw env fident with
  | some (.b b) => .bool b
  | some (.s s) => .string s
  | some (.l l) => .string (String.intercalate " " l)
  | none => .undefined

/-- `value_string` with the empty string as default. -/
def valueString : Reduced → String
  | .bool b => stringOfBool b
  | .string s => s
  | .undefined => ""

def expandPiece : Piece → String
  | .text s => s
  | .percent => "%"
  | .interp fident => valueString (resolveIdent env fident)
  | .unclosed s => s

end

section
variable (lib : OpamLib) (env : OpamEnv)

def expandString (s : String) : String := String.join ((lib.split s).map (expandPiece env))

/-- The boolean of a defined value in `value_bool`. -/
def definedBool : Reduced → Option Bool
  | .bool b => some b
  | .string s => boolOfString s
  | .undefined => none

def logop1 (op : Bool → Bool) (e : Reduced) : Reduced :=
  match definedBool e with
  | some b => .bool (op b)
  | none => .undefined

/-- `logop2`; `absorb` decides the result even against an undefined value, but only as a boolean. -/
def logop2 (op : Bool → Bool → Bool) (absorb : Bool) (e f : Reduced) : Reduced :=
  if f = .bool absorb then .bool absorb
  else if e = .bool absorb then .bool absorb
  else
    match definedBool e, definedBool f with
    | some x, some y => .bool (op x y)
    | _, _ => .undefined

def relop (op : Relop) : Reduced → Reduced → Reduced
  | .undefined, _ | _, .undefined => .undefined
  | e, f => .bool (op.eval (lib.versionCompare (valueString e) (valueString f)))

/-- The last step of `reduce`: the interpolations of a string value are expanded. -/
def expanded : Reduced → Reduced
  | .string s => .string (expandString lib env s)
  | e => e

def reduce : Filter → Reduced
  | .fUndef _ => .undefined
  | .fBool b => .bool b
  | .fString s => expanded lib env (.string s)
  | .fIdent i => expanded lib env (resolveIdent env i)
  | .fOp e op f => relop lib op (reduce e) (reduce f)
  | .fAnd e f => logop2 (· && ·) false (reduce e) (reduce f)
  | .fOr e f => logop2 (· || ·) true (reduce e) (reduce f)
  | .fNot e => logop1 (!·) (reduce e)
  | .fDefined e => .bool (reduce e ≠ .undefined)

/-- `eval_to_bool` with `false` for undefined values. -/
def evalToBool (f : Filter) : Bool := (definedBool (reduce lib env f)).getD false

end

end Opam

end Dune.Pkg
