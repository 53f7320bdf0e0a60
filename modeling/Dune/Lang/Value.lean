import Dune.Stdune.Loc

/-!
# Values, relational operators and strings with variables

The data that `Slang` terms are built from and evaluate to: `Value.t` with
`Value.Deferred_concat`, `Relop.t`, and `String_with_vars.t` with its expansion in mode `Many`.

Percent forms and paths are parameters (`P`, `Q`): the code of this area only compares them,
expands them through the caller's expander and renders paths through `Value.string_of_path`.
The expander environment `Env` collects these three.
-/

namespace Dune.Lang

open Dune.Stdune

/-! ## Values -/

/-- `Value.t`, over the type `Q` of paths. -/
inductive Value (Q : Type) where
  | string (s : String)
  | dir (p : Q)
  | path (p : Q)
deriving DecidableEq, Repr

/-- A `Memo` computation: it returns a value or raises. -/
abbrev Memo (α : Type) := Except Exn α

/-- The expander environment: what a percent form expands to (`Error` is the
`` `Undefined_pkg_var `` outcome, with the variable's name), how a path is rendered
(`Value.string_of_path ~dir`, and `Path.to_string` in messages) and how two paths compare. -/
structure Env (P Q : Type) where
  expandPform : P → Memo (Except String (List (Value Q)))
  stringOfPath : Q → String
  pathToString : Q → String
  comparePath : Q → Q → Ordering

section
variable {P Q : Type}

namespace Value

def ofBool : Bool → Value Q
  | true => .string "true"
  | false => .string "false"

def toStr (env : Env P Q) : Value Q → String
  | .string s => s
  | .dir p => env.stringOfPath p
  | .path p => env.stringOfPath p

def compareVals (env : Env P Q) : Value Q → Value Q → Ordering
  | .string x, .string y => compare x y
  | .string x, y => compare x (y.toStr env)
  | x, .string y => compare (x.toStr env) y
  | .path x, .path y | .path x, .dir y | .dir x, .path y | .dir x, .dir y => env.comparePath x y

/-- `Value.L.compare_vals`: `List.compare` by `compare_vals`. -/
def compareValsL (env : Env P Q) : List (Value Q) → List (Value Q) → Ordering
  | [], [] => .eq
  | [], _ :: _ => .lt
  | _ :: _, [] => .gt
  | x :: a, y :: b =>
    match compareVals env x y with
    | .eq => compareValsL env a b
    | ne => ne

theorem compareValsL_singleton (env : Env P Q) (x y : Value Q) :
    compareValsL env [x] [y] = compareVals env x y := by
  rw [compareValsL]
  split
  · next heq => exact heq.symm
  · rfl

end Value

/-- `Value.Deferred_concat.t`: the values to concatenate. -/
abbrev DeferredConcat (Q : Type) := List (Value Q)

namespace DeferredConcat

/-- `Deferred_concat.concat_values`: the values of one form, separated by `sep`. -/
def concatValues (sep : Option String) (values : List (Value Q)) : DeferredConcat Q :=
  match sep with
  | none => values
  | some sep => values.intersperse (.string sep)

/-- `Deferred_concat.force`: a single value is kept as it is, several are concatenated as
strings. -/
def force (env : Env P Q) : DeferredConcat Q → Value Q
  | [x] => x
  | values => .string (String.join (values.map (Value.toStr env)))

end DeferredConcat

inductive Relop where
  | eq | gte | lte | gt | lt | neq
deriving DecidableEq, Repr

def Relop.eval : Relop → Ordering → Bool
  | .eq, .eq | .gte, .eq | .lte, .eq => true
  | .neq, .lt | .lt, .lt | .lte, .lt => true
  | .neq, .gt | .gt, .gt | .gte, .gt => true
  | _, _ => false

/-! ## Strings with variables -/

/-- `String_with_vars.part`. The `Error` part is a percent form that did not parse. -/
inductive Part (P : Type) where
  | text (s : String)
  | pform (p : P)
  | error (msg : String)
deriving DecidableEq, Repr

structure StringWithVars (P : Type) where
  quoted : Bool
  parts : List (Part P)
  loc : Loc
deriving DecidableEq, Repr

namespace StringWithVars

def makeText (quoted : Bool) (loc : Loc) (s : String) : StringWithVars P :=
  { quoted, loc, parts := [.text s] }

def makePform (quoted : Bool) (loc : Loc) (p : P) : StringWithVars P :=
  { quoted, loc, parts := [.pform p] }

def textOnly (sw : StringWithVars P) : Option String :=
  match sw.parts with
  | [.text s] => some s
  | _ => none

def pformOnly (sw : StringWithVars P) : Option P :=
  match sw.parts with
  | [.pform p] => some p
  | _ => none

/-- What one part of the general case of the expansion gives. -/
def expandPart (env : Env P Q) (loc : Loc) (innerSep : Option String) :
    Part P → Memo (Except String (DeferredConcat Q))
  | .text s => .ok (.ok [.string s])
  | .error msg => .error (.userError loc msg)
  | .pform p => do
    let v ← env.expandPform p
    pure (v.map (DeferredConcat.concatValues innerSep))

def resultAll {ε α : Type} : List (Except ε α) → Except ε (List α)
  | [] => .ok []
  | .error e :: _ => .error e
  | .ok x :: l => (resultAll l).map (x :: ·)

/-- `String_expander.Memo.expand_result_deferred_concat ~mode:Many`: an unquoted percent form
on its own may expand to several values; everything else gives one concatenation. -/
def expandResultDeferredConcat (env : Env P Q) (sw : StringWithVars P) :
    Memo (Except String (List (DeferredConcat Q))) :=
  match sw.parts, sw.quoted with
  | [.pform p], false => do
    let v ← env.expandPform p
    pure (v.map fun vs => vs.map fun x => [x])
  | [], _ => .ok (.ok [[.string ""]])
  | [.text s], _ => .ok (.ok [[.string s]])
  | parts, quoted => do
    let innerSep := if quoted then some " " else none
    let chunks ← parts.mapM (expandPart env sw.loc innerSep)
    pure ((resultAll chunks).map fun chunks => [chunks.flatten])

end StringWithVars

end

end Dune.Lang
