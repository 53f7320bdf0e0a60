import Dune.Engine.DirSetLaws

/-!
# Rule schemes

`scheme.ml`. A scheme describes which rules are attached to which directories of the build tree;
evaluation turns it into a tree that is forced along the directory that is asked for. A lazy value
is its outcome, which is looked at only when the value is forced, so an exception inside of one is
raised by the code that forces it.

The recursion of `union` and `restrict` goes below lazy values. Each is defined up to a depth and
used at the depth of its arguments; `union_eq` and `restrict_eq` are the equations of the source.
-/

namespace Dune

open Dune.Stdune Dune.Engine

/-- A `Path.Build.Map.t`: each path once. -/
structure PathMap (R : Type) where
  bindings : List (List Filename × R)
  nodup : (bindings.map Prod.fst).Nodup

inductive Scheme (R : Type) where
  | empty
  | union (x y : Scheme R)
  | approximation (paths : DirSet) (rules : Scheme R)
  | finite (rules : PathMap R)
  | thunk (f : Unit → Scheme R)

namespace Scheme

inductive Evaluated (R : Type) where
  | mk (byChild : List (Filename × Except Exn (Evaluated R))) (rulesHere : Except Exn (Option R))

namespace Evaluated

section
variable {R : Type}

def byChild : Evaluated R → List (Filename × Except Exn (Evaluated R))
  | .mk byChild _ => byChild

def rulesHere : Evaluated R → Except Exn (Option R)
  | .mk _ rulesHere => rulesHere

mutual

/-- How many lazy values are below each other. -/
def depth : Evaluated R → Nat
  | .mk byChild _ => depths byChild + 1

def depths : List (Filename × Except Exn (Evaluated R)) → Nat
  | [] => 0
  | (_, .ok t) :: m => max (depth t) (depths m)
  | (_, .error _) :: m => depths m

end

def empty : Evaluated R := .mk [] (.ok none)

def descend (t : Evaluated R) (dir : Filename) : Except Exn (Evaluated R) :=
  match Map.find t.byChild dir with
  | none => .ok empty
  | some res => res

def unionUpTo (unionRules : R → R → R) : Nat → Evaluated R → Evaluated R → Evaluated R
  | 0, _, _ => empty
  | n + 1, x, y =>
    .mk
      (Map.union (fun _ data1 data2 => some (do
        let x ← data1
        let y ← data2
        return unionUpTo unionRules n x y)) x.byChild y.byChild)
      (do
        let x ← x.rulesHere
        let y ← y.rulesHere
        return Option.merge unionRules x y)

def union (unionRules : R → R → R) (x y : Evaluated R) : Evaluated R :=
  unionUpTo unionRules (min x.depth y.depth) x y

def lazyDepth : Except Exn (Evaluated R) → Nat
  | .ok t => t.depth
  | .error _ => 0

def restrictRulesHere (dirs : T0) (t : Except Exn (Evaluated R)) : Except Exn (Option R) :=
  if dirs.here then t >>= fun t => t.rulesHere else .ok none

/-- `by_child` in `restrict`, for the recursive calls `f`. -/
def restrictByChild (f : T0 → Except Exn (Evaluated R) → Except Exn (Evaluated R)) (dirs : T0)
    (t : Except Exn (Evaluated R)) : Except Exn (List (Filename × Except Exn (Evaluated R))) :=
  match dirs.default with
  | true => t.map fun t => Map.mapi (fun dir v => f (dirs.descend dir) v) t.byChild
  | false => .ok (Map.mapi (fun dir v => f v (t >>= fun t => t.descend dir)) dirs.exceptions)

def restrictUpTo : Nat → T0 → Except Exn (Evaluated R) → Except Exn (Evaluated R)
  | 0, _, _ => .ok empty
  | n + 1, dirs, t =>
    (restrictByChild (restrictUpTo n) dirs t).map fun byChild =>
      .mk byChild (restrictRulesHere dirs t)

def restrict (dirs : T0) (t : Except Exn (Evaluated R)) : Except Exn (Evaluated R) :=
  restrictUpTo (dirs.depth + lazyDepth t + 1) dirs t

def singleton (path : List Filename) (rules : R) : Evaluated R :=
  match path with
  | [] => .mk [] (.ok (some rules))
  | x :: xs => .mk (Map.singleton x (.ok (singleton xs rules))) (.ok none)

def finite (unionRules : R → R → R) (m : PathMap R) : Evaluated R :=
  m.bindings.foldl (fun acc binding => union unionRules (singleton binding.1 binding.2) acc) empty

/-- The loop of `get_rules`. -/
def descendAll : List Filename → Evaluated R → Except Exn (Evaluated R)
  | [], t => .ok t
  | x :: dir, t => do
    let t ← t.descend x
    descendAll dir t

def getRules (t : Evaluated R) (dir : List Filename) : Except Exn (Option R × List Filename) := do
  let t ← descendAll dir t
  let rules ← t.rulesHere
  return (rules, t.byChild.map Prod.fst)

end

end Evaluated

/-- The loop of `evaluate`. -/
def evaluateIn {R : Type} (unionRules : R → R → R) (env : DirSet) :
    Scheme R → Except Exn (Evaluated R)
  | .empty => .ok .empty
  | .thunk f => evaluateIn unionRules env (f ())
  | .union x y => do
    let x ← evaluateIn unionRules env x
    let y ← evaluateIn unionRules env y
    return .union unionRules x y
  | .approximation paths rules =>
    if !paths.isSubset env && !paths.negate.isSubset env then
      .error (.codeError ("inner [Approximate] specifies a set such that neither it, nor its " ++
        "negation, are a subset of directories specified by the outer [Approximate]."))
    else
      let paths := paths.inter env
      Evaluated.restrict paths.tree (evaluateIn unionRules paths rules)
  | .finite rules =>
    if rules.bindings.all fun binding => env.mem binding.1 then .ok (.finite unionRules rules)
    else
      .error (.codeError
        "Scheme attempted to generate rules in a directory it promised not to touch")

def evaluate {R : Type} (unionRules : R → R → R) (t : Scheme R) : Except Exn (Evaluated R) :=
  evaluateIn unionRules .universal t

end Scheme

end Dune
