import Mathlib

/-!
# Tasks that share computations

A calculus of cooperative tasks over a shared store. A task calls operations, runs tasks in
parallel and joins them, and updates the store in atomic steps. A computation is run once: the task
that forces it runs its operation under a new frame and then fills its result, and every other task
waits for that result. The frames around a task are its call stack. All interleavings of the steps
of the active tasks are runs of the calculus.
-/

namespace Dune.Task

/-- What follows an atomic step: a result, or a computation that the task forces. -/
inductive Outcome (R C Op : Type) : Type where
  | done (r : R)
  | force (c : C) (op : Op)

/-- What a task does. `S` is the type of stores, `R` of results, `C` of computations and `Op` of
operations. An atomic step sees the call stack and fails by returning nothing; it goes on with `k`
after a result, and with `kf` when the computation that it forces has returned. -/
inductive Code (S R C Op : Type) : Type where
  | ret (r : R)
  | call (op : Op) (k : R → Code S R C Op)
  | par (cs : List (Code S R C Op)) (k : List R → Code S R C Op)
  | atomic (f : List C → S → Option (S × Outcome R C Op)) (k kf : R → Code S R C Op)
  | wait (c : C) (k : R → Code S R C Op)

namespace Code

variable {S R C Op : Type}

def fail : Code S R C Op := .atomic (fun _ _ => none) .ret .ret

/-- An atomic step that forces no computation. -/
def update (f : S → Option (S × R)) (k : R → Code S R C Op) : Code S R C Op :=
  .atomic (fun _ σ => (f σ).map fun x => (x.1, .done x.2)) k .ret

end Code

/-- The operations, and how the store keeps the results of computations. -/
structure Machine (S R C Op : Type) where
  body : Op → Code S R C Op
  ivar : S → C → Option R
  fill : S → C → R → S

/-- Running tasks, with what each of them does when the part it runs has returned. -/
inductive Tree (S R C Op : Type) : Type where
  | leaf (code : Code S R C Op)
  | bind (op : Op) (t : Tree S R C Op) (k : R → Code S R C Op)
  | forced (c : C) (op : Op) (t : Tree S R C Op) (k : R → Code S R C Op)
  | par (ts : List (Tree S R C Op)) (k : List R → Code S R C Op)

variable {S R C Op : Type}

/-- A step of a tree that is not one of a part of it. -/
inductive Head (M : Machine S R C Op) :
    List C → S → Tree S R C Op → S → Tree S R C Op → Prop
  | call {st σ op k} : Head M st σ (.leaf (.call op k)) σ (.bind op (.leaf (M.body op)) k)
  | bindRet {st σ op r k} : Head M st σ (.bind op (.leaf (.ret r)) k) σ (.leaf (k r))
  | atomic {st σ σ' f r k kf} : f st σ = some (σ', .done r) →
      Head M st σ (.leaf (.atomic f k kf)) σ' (.leaf (k r))
  | force {st σ σ' f c op k kf} : f st σ = some (σ', .force c op) →
      Head M st σ (.leaf (.atomic f k kf)) σ' (.forced c op (.leaf (M.body op)) kf)
  | forcedRet {st σ c op r k} :
      Head M st σ (.forced c op (.leaf (.ret r)) k) (M.fill σ c r) (.leaf (k r))
  | wait {st σ c r k} : M.ivar σ c = some r → Head M st σ (.leaf (.wait c k)) σ (.leaf (k r))
  | par {st σ cs k} : Head M st σ (.leaf (.par cs k)) σ (.par (cs.map .leaf) k)
  | parRet {st σ rs k} :
      Head M st σ (.par (rs.map fun r => .leaf (.ret r)) k) σ (.leaf (k rs))

/-- One step of one task, under a call stack. -/
inductive Step (M : Machine S R C Op) :
    List C → S → Tree S R C Op → S → Tree S R C Op → Prop
  | head {st σ σ' t t'} : Head M st σ t σ' t' → Step M st σ t σ' t'
  | bind {st σ σ' op t t' k} : Step M st σ t σ' t' →
      Step M st σ (.bind op t k) σ' (.bind op t' k)
  | forced {st σ σ' c op t t' k} : Step M (c :: st) σ t σ' t' →
      Step M st σ (.forced c op t k) σ' (.forced c op t' k)
  | parStep {st σ σ' l t t' r k} : Step M st σ t σ' t' →
      Step M st σ (.par (l ++ t :: r) k) σ' (.par (l ++ t' :: r) k)

namespace Tree

/-- The subtree runs under the call stack, inside of a tree that runs under another. -/
inductive Active : List C → Tree S R C Op → List C → Tree S R C Op → Prop
  | here {st t} : Active st t st t
  | bind {st op t k st' s} : Active st t st' s → Active st (.bind op t k) st' s
  | forced {st c op t k st' s} : Active (c :: st) t st' s → Active st (.forced c op t k) st' s
  | par {st ts k t st' s} : t ∈ ts → Active st t st' s → Active st (.par ts k) st' s

theorem Active.trans {st st' st'' : List C} {t s u : Tree S R C Op} (h : Active st t st' s)
    (h' : Active st' s st'' u) : Active st t st'' u := by
  induction h with
  | here => exact h'
  | bind _ ih => exact .bind (ih h')
  | forced _ ih => exact .forced (ih h')
  | par ht _ ih => exact .par ht (ih h')

mutual

/-- The computations that the tasks run. -/
def owned : Tree S R C Op → List C
  | .leaf _ => []
  | .bind _ t _ => owned t
  | .forced c _ t _ => c :: owned t
  | .par ts _ => ownedAll ts

def ownedAll : List (Tree S R C Op) → List C
  | [] => []
  | t :: ts => owned t ++ ownedAll ts

end

theorem ownedAll_append (ts ts' : List (Tree S R C Op)) :
    ownedAll (ts ++ ts') = ownedAll ts ++ ownedAll ts' := by
  induction ts with
  | nil => rfl
  | cons t ts ih => rw [List.cons_append, ownedAll, ownedAll, ih, List.append_assoc]

theorem ownedAll_map_leaf (cs : List (Code S R C Op)) : ownedAll (cs.map .leaf) = [] := by
  induction cs with
  | nil => rfl
  | cons c cs ih => exact ih

end Tree

end Dune.Task
