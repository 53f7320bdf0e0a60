import Dune.Stdune.Filename

/-!
# Sets of directories

`dir_set.ml`. A set is a tree: what holds for the directory itself, what holds by default for its
children and everything below, and the children for which something else holds. A directory is the
list of its components, as `Path.Local_gen.explode` gives it.

The recursion of `union`, `inter` and `is_subset` goes through functions on maps, so each is
defined up to a depth and used at the depth of its arguments; `union_nontrivial`,
`inter_nontrivial` and `isSubset_nontrivial` are the equations of the source.
-/

namespace Dune.Engine

open Dune.Stdune

inductive T0 where
  | empty
  | universal
  | nontrivial (default here : Bool) (exceptions : List (Filename × T0))

namespace T0

def here : T0 → Bool
  | .empty => false
  | .universal => true
  | .nontrivial _ here _ => here

def default : T0 → Bool
  | .empty => false
  | .universal => true
  | .nontrivial default _ _ => default

def exceptions : T0 → List (Filename × T0)
  | .empty | .universal => []
  | .nontrivial _ _ exceptions => exceptions

def trivial : Bool → T0
  | false => .empty
  | true => .universal

def create (default here : Bool) (exceptions : List (Filename × T0)) : T0 :=
  if exceptions.isEmpty && here == default then trivial default
  else .nontrivial default here exceptions

/-- Leaves out the default of the children of a merged set. -/
def unlessDefault : Bool → T0 → Option T0
  | false, .empty => none
  | true, .universal => none
  | _, res => some res

/-- `merge_exceptions`; of the two records only the fields that it reads. -/
def mergeExceptions (aDefault : Bool) (a : List (Filename × T0)) (bDefault : Bool)
    (b : List (Filename × T0)) (default : Bool) (f : T0 → T0 → T0) : List (Filename × T0) :=
  Map.merge (fun _ x y =>
    unlessDefault default (f (x.getD (trivial aDefault)) (y.getD (trivial bDefault)))) a b

def mergeNontrivial (aDefault aHere : Bool) (a : List (Filename × T0)) (bDefault bHere : Bool)
    (b : List (Filename × T0)) (fOne : Bool → Bool → Bool) (fSet : T0 → T0 → T0) : T0 :=
  let default := fOne aDefault bDefault
  create default (fOne aHere bHere) (mergeExceptions aDefault a bDefault b default fSet)

mutual

/-- How deep the exceptions go. -/
def depth : T0 → Nat
  | .empty | .universal => 0
  | .nontrivial _ _ exceptions => depths exceptions + 1

/-- The depth of the deepest exception. -/
def depths : List (Filename × T0) → Nat
  | [] => 0
  | (_, t) :: m => max (depth t) (depths m)

end

def unionUpTo : Nat → T0 → T0 → T0
  | 0, _, _ => .empty
  | n + 1, x, y =>
    match x, y with
    | .empty, v | v, .empty => v
    | .universal, _ | _, .universal => .universal
    | .nontrivial aDefault aHere a, .nontrivial bDefault bHere b =>
      mergeNontrivial aDefault aHere a bDefault bHere b (· || ·) (unionUpTo n)

def union (x y : T0) : T0 := unionUpTo (max x.depth y.depth + 1) x y

def interUpTo : Nat → T0 → T0 → T0
  | 0, _, _ => .empty
  | n + 1, x, y =>
    match x, y with
    | .universal, v | v, .universal => v
    | .empty, _ | _, .empty => .empty
    | .nontrivial aDefault aHere a, .nontrivial bDefault bHere b =>
      mergeNontrivial aDefault aHere a bDefault bHere b (· && ·) (interUpTo n)

def inter (x y : T0) : T0 := interUpTo (max x.depth y.depth + 1) x y

mutual

def negate : T0 → T0
  | .universal => .empty
  | .empty => .universal
  | .nontrivial default here exceptions => .nontrivial (!default) (!here) (negateAll exceptions)

/-- `Filename.Map.map ~f:negate`. -/
def negateAll : List (Filename × T0) → List (Filename × T0)
  | [] => []
  | (k, t) :: m => (k, negate t) :: negateAll m

end

def mem : T0 → List Filename → Bool
  | .empty, _ => false
  | .universal, _ => true
  | .nontrivial _ here _, [] => here
  | .nontrivial default _ exceptions, child :: rest =>
    match Map.find exceptions child with
    | none => default
    | some t => mem t rest

def descend (t : T0) (child : Filename) : T0 :=
  match t with
  | .empty => .empty
  | .universal => .universal
  | .nontrivial default _ exceptions =>
    match Map.find exceptions child with
    | none => trivial default
    | some t => t

def unionAll (l : List T0) : T0 := l.foldl union .empty

def ofSubtreeGen (subtree : T0) : List Filename → T0
  | [] => subtree
  | component :: rest =>
    create false false (Map.singleton component (ofSubtreeGen subtree rest))

def justTheRoot : T0 := .nontrivial false true []

def subtree (p : List Filename) : T0 := ofSubtreeGen .universal p

def singleton (p : List Filename) : T0 := ofSubtreeGen justTheRoot p

def isSubsetUpTo : Nat → T0 → T0 → Bool
  | 0, _, _ => true
  | n + 1, t, of =>
    match t, of with
    | _, .universal | .empty, _ => true
    | .universal, _ | _, .empty => false
    | .nontrivial xDefault xHere x, .nontrivial yDefault yHere y =>
      (!xHere || yHere) && (!xDefault || yDefault) && Map.isSubset (isSubsetUpTo n) x y

def isSubset (t of : T0) : Bool := isSubsetUpTo (t.depth + 1) t of

end T0

end Dune.Engine
