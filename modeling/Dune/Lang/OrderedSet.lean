import Dune.Stdune.Loc
import Dune.Stdune.Map

/-!
# The ordered set language

`ordered_set_lang.ml`. One evaluator over the syntax has two instances: lists, with the order and
the duplicates that the expression gives, and maps from keys. The second one is the first one with
every element but the first of its key forgotten.
-/

namespace Dune.Lang.OrderedSet

open List Dune.Stdune

/-- `Ast.t` of expanded sets. -/
inductive Ast where
  | element (loc : Loc) (s : String)
  | standard
  | union (elts : List Ast)
  | diff (left right : Ast)

def isStandard : Ast → Bool
  | .standard => true
  | _ => false

/-- The operations that `Eval.of_ast` is given. -/
structure Ops (X S : Type) where
  diff : S → S → S
  singleton : X → S
  union : List S → S

section
variable {X S E : Type} (ops : Ops X S) (parse : Loc → String → Except E X) (standard : S)

mutual

/-- The loop of `Eval.of_ast`; the parser may raise. -/
def loop : Ast → Except E S
  | .element loc s => return ops.singleton (← parse loc s)
  | .standard => return standard
  | .union elts => return ops.union (← loopAll elts)
  | .diff left right => do
    let left ← loop left
    let right ← loop right
    return ops.diff left right

def loopAll : List Ast → Except E (List S)
  | [] => return []
  | t :: elts => do
    let x ← loop t
    let l ← loopAll elts
    return x :: l

end

def ofAst (t : Ast) : Except E S :=
  if isStandard t then return standard else loop ops parse standard t

def ordered (eq : X → X → Bool) : Ops X (List X) where
  diff a b := a.filter fun x => b.all fun y => !eq x y
  singleton x := [x]
  union := List.flatten

def eval (t : Ast) (parse : Loc → String → Except E X) (eq : X → X → Bool) (standard : List X) :
    Except E (List X) :=
  ofAst (ordered eq) parse standard t

variable {K : Type} [LinearOrder K]

def union2 (acc t : List (K × X)) : List (K × X) :=
  Map.merge (fun _ x y =>
    match x, y with
    | some x, _ | _, some x => some x
    | _, _ => none) acc t

def diff2 (a b : List (K × X)) : List (K × X) :=
  Map.merge (fun _ x y =>
    match x, y with
    | some x, none => some x
    | _, _ => none) a b

/-- `Eval.unordered`, with the maps of `Key`. -/
def unordered (key : X → K) : Ops X (List (K × X)) where
  diff := diff2
  singleton x := Map.singleton (key x) x
  union := List.foldl union2 []

def evalUnordered (t : Ast) (parse : Loc → String → Except E X) (key : X → K)
    (standard : List (K × X)) : Except E (List (K × X)) :=
  ofAst (unordered key) parse standard t

end

/-- A map that takes one set of operations to another. -/
structure Ops.Hom {X S S' : Type} (ops : Ops X S) (ops' : Ops X S') (f : S → S') : Prop where
  diff a b : ops'.diff (f a) (f b) = f (ops.diff a b)
  singleton x : ops'.singleton x = f (ops.singleton x)
  union l : ops'.union (l.map f) = f (ops.union l)

section
variable {X S S' E : Type} {ops : Ops X S} {ops' : Ops X S'} {f : S → S'}
  (parse : Loc → String → Except E X) (standard : S)

mutual

theorem Ops.Hom.loop (h : ops.Hom ops' f) :
    ∀ t, loop ops' parse (f standard) t = (loop ops parse standard t).map f
  | .element loc s => by
    simp only [OrderedSet.loop, h.singleton]
    cases parse loc s <;> rfl
  | .standard => rfl
  | .union elts => by
    simp only [OrderedSet.loop, h.loopAll elts]
    cases OrderedSet.loopAll ops parse standard elts with
    | error e => rfl
    | ok l => exact congrArg Except.ok (h.union l)
  | .diff left right => by
    simp only [OrderedSet.loop, h.loop left, h.loop right]
    cases OrderedSet.loop ops parse standard left with
    | error e => rfl
    | ok a =>
      cases OrderedSet.loop ops parse standard right with
      | error e => rfl
      | ok b => exact congrArg Except.ok (h.diff a b)

theorem Ops.Hom.loopAll (h : ops.Hom ops' f) :
    ∀ elts, loopAll ops' parse (f standard) elts =
      (loopAll ops parse standard elts).map (List.map f)
  | [] => rfl
  | t :: elts => by
    simp only [OrderedSet.loopAll, h.loop t, h.loopAll elts]
    cases OrderedSet.loop ops parse standard t with
    | error e => rfl
    | ok x => cases OrderedSet.loopAll ops parse standard elts <;> rfl

end

theorem Ops.Hom.ofAst (h : ops.Hom ops' f) (t : Ast) :
    ofAst ops' parse (f standard) t = (ofAst ops parse standard t).map f := by
  unfold OrderedSet.ofAst
  split
  · rfl
  · exact h.loop parse standard t

end

/-! ## First elements -/

section
variable {X K : Type} [LinearOrder K] (key : X → K)

/-- The map that gives every key its first element in the list. -/
def firsts (l : List X) : List (K × X) := l.foldr (fun x => Map.set (key x) x) []

theorem sorted_firsts (l : List X) : Map.Sorted (firsts key l) := by
  induction l with
  | nil => exact Map.sorted_nil
  | cons x l ih => exact ih.set (key x) x

theorem find_firsts (l : List X) (k : K) :
    Map.find (firsts key l) k = l.find? fun x => key x = k := by
  induction l with
  | nil => rfl
  | cons x l ih =>
    rw [firsts, foldr_cons, Map.find_set, find?_cons]
    by_cases hk : key x = k
    · simp [hk]
    · simp only [hk, if_false, decide_false]
      exact ih

theorem diff2_firsts (a b : List X) :
    diff2 (firsts key a) (firsts key b) =
      firsts key (a.filter fun x => b.all fun y => !decide (key x = key y)) := by
  refine Map.Sorted.ext (Map.Sorted.merge (sorted_firsts key a)) (sorted_firsts key _) fun k => ?_
  -- whether an element stays depends on its key only
  have hkey (x : X) (hx : key x = k) :
      (b.all fun y => !decide (key x = key y)) = (b.find? fun y => key y = k).isNone := by
    subst hx
    rw [Bool.eq_iff_iff, all_eq_true, Option.isNone_iff_eq_none, find?_eq_none]
    refine forall₂_congr fun y _ => ?_
    rw [Bool.not_eq_true', decide_eq_false_iff_not, decide_eq_true_iff, eq_comm]
  rw [diff2, Map.find_merge_of_none rfl, find_firsts, find_firsts, find_firsts, find?_filter]
  induction a with
  | nil => rfl
  | cons x a ih =>
    rw [find?_cons, find?_cons]
    by_cases hx : key x = k
    · rw [hkey x hx]
      cases hb : b.find? fun y => key y = k with
      | none => simp [hx]
      | some y =>
        rw [hb] at ih
        simpa [hx] using ih
    · simpa [hx] using ih

theorem union2_firsts (a b : List X) :
    union2 (firsts key a) (firsts key b) = firsts key (a ++ b) := by
  refine Map.Sorted.ext (Map.Sorted.merge (sorted_firsts key a)) (sorted_firsts key _) fun k => ?_
  rw [union2, Map.find_merge_of_none rfl, find_firsts, find_firsts, find_firsts, find?_append]
  cases a.find? fun x => key x = k with
  | none => cases b.find? fun x => key x = k <;> rfl
  | some x => rfl

theorem foldl_union2_firsts (l : List (List X)) (acc : List X) :
    foldl union2 (firsts key acc) (l.map (firsts key)) = firsts key (acc ++ l.flatten) := by
  induction l generalizing acc with
  | nil => simp
  | cons a l ih => rw [map_cons, foldl_cons, union2_firsts, ih, flatten_cons, append_assoc]

theorem unordered_hom : (ordered fun x y => key x = key y).Hom (unordered key) (firsts key) where
  diff := diff2_firsts key
  singleton _ := rfl
  union l := foldl_union2_firsts key l []

variable {E : Type} (t : Ast) (parse : Loc → String → Except E X) (standard : List X)

/-- Evaluating to a map gives every key that occurs in the list its first element there. -/
theorem evalUnordered_eq :
    evalUnordered t parse key (firsts key standard) =
        (eval t parse (fun x y => key x = key y) standard).map (firsts key) ∧
      ∀ l k, Map.find (firsts key l) k = l.find? fun x => key x = k :=
  ⟨(unordered_hom key).ofAst parse standard t, find_firsts key⟩

end

end Dune.Lang.OrderedSet
