import Mathlib

/-!
# The nodes of Memo

The mutable state of Memo: the nodes with their life cycle, values, run stamps and recorded
dependencies, the computations that are running with the results that their readers wait for, and
the graph of the cycle detection. A node stands for a function applied to its input, so that tables
and node inputs are left out. `N` is the type of nodes, `V` of values and `X` of exceptions.
-/

namespace Dune.Memo

/-- `Deps.Static.t`: what a node read, in the order in which it read it. -/
inductive Deps (N : Type) where
  | empty
  | singleton (node : N)
  | seq (l : List (Deps N))
  | par (l : List (Deps N))

namespace Deps

variable {N : Type}

def isEmpty : Deps N → Bool
  | .empty => true
  | .singleton _ | .seq _ | .par _ => false

def flattenSeqs (sections : List (Deps N)) : Deps N :=
  let flat := sections.flatMap fun
    | .empty => []
    | .seq l => l
    | t => [t]
  match flat with
  | [] => .empty
  | [t] => t
  | flat => .seq flat

/-- `Static.flatten_pars_init`, given the sections of the threads. -/
def flattenPars (threads : List (Deps N)) : Deps N :=
  let flat := threads.flatMap fun
    | .empty => []
    | .par l => l
    | t => [t]
  match flat with
  | [] => .empty
  | [t] => t
  | flat => .par flat

/-- `Dynamic.append_par_init`, on sections of which the most recent comes first. -/
def appendPar (t : List (Deps N)) (threads : List (Deps N)) : List (Deps N) :=
  match flattenPars threads with
  | .empty => t
  | pars => pars :: t

def toStatic (t : List (Deps N)) : Deps N := flattenSeqs t.reverse

end Deps

/-- The exceptions that a node may raise: those of its function, and `Cycle_error.E`. Stacks and
backtraces are left out, since `Exn_set` compares without them. -/
inductive Exn (N X : Type) where
  | user (x : X)
  | cycle (l : List N)
deriving DecidableEq

/-- `Collect_errors_monoid.t`. -/
structure Errors (N X : Type) where
  exns : Finset (Exn N X)
  reproducible : Bool
deriving DecidableEq

inductive Value (N V X : Type) where
  | ok (v : V)
  | error (e : Errors N X)
  | uninitialized

def cancelled {N X : Type} (dependencyCycle : List N) : Errors N X :=
  ⟨{.cycle dependencyCycle}, false⟩

/-! ## Nodes and computations -/

/-- `State.t`; a computation is a position in the table of computations. -/
inductive State where
  | cached
  | notCached
  | outOfDate
  | restoring (restoreFromCache : Nat)
  | computing (compute : Nat)
deriving DecidableEq

/-- The mutable part of `Dep_node.t`. The source packs the two run stamps into one integer. -/
structure Node (N V X : Type) where
  state : State
  value : Value N V X
  lastChangedAt : Int
  lastValidatedAt : Int
  deps : Deps N

def Run.invalid : Int := -1

/-- `make_dep_node`. -/
def Node.make {N V X : Type} : Node N V X :=
  ⟨.notCached, .uninitialized, Run.invalid, Run.invalid, .empty⟩

inductive ChangedOrNot (N : Type) where
  | unchanged
  | changed
  | cancelled (dependencyCycle : List N)

def ChangedOrNot.combine {N : Type} : ChangedOrNot N → ChangedOrNot N → ChangedOrNot N
  | .cancelled c, _ => .cancelled c
  | _, .cancelled c => .cancelled c
  | .changed, _ => .changed
  | _, .changed => .changed
  | .unchanged, .unchanged => .unchanged

inductive Phase where
  | restoreFromCache
  | compute
deriving DecidableEq

/-- The result of a computation, of either phase. -/
inductive Result (N : Type) where
  | restored (r : ChangedOrNot N)
  | computed

/-- `Computation.t`, and the children that its stack frame has added to the graph. -/
structure Computation (N : Type) where
  node : N
  phase : Phase
  ivar : Option (Result N)
  childrenAddedToDag : List Nat

/-- The state of Memo. `cycleError` is `cycle_error_in_the_current_run`, `dag` has the edges of the
cycle detection graph, `inputs` the values of the variables, and `checkPoint` the errors that the
check point raises, if it does. -/
structure Store (N V X : Type) where
  run : Int
  node : N → Node N V X
  computations : List (Computation N)
  dag : List (Nat × Nat)
  cycleError : Option (List N)
  inputs : N → V
  checkPoint : Option (Errors N X)
  lastSawNonReproducibleExnAt : Int

def Store.init {N V X : Type} (inputs : N → V) : Store N V X :=
  ⟨0, fun _ => .make, [], [], none, inputs, none, Run.invalid⟩

namespace Store

variable {N V X : Type} (σ : Store N V X)

section Nodes

variable [DecidableEq N]

def setNode (n : N) (x : Node N V X) : Store N V X :=
  { σ with node := fun m => if m = n then x else σ.node m }

def setState (n : N) (state : State) : Store N V X :=
  σ.setNode n { σ.node n with state }

def validateValue (n : N) : Store N V X :=
  σ.setNode n { σ.node n with lastValidatedAt := σ.run, state := .cached }

end Nodes

def depChangedOrNot (node dep : N) : ChangedOrNot N :=
  if (σ.node node).lastValidatedAt < (σ.node dep).lastChangedAt then .changed else .unchanged

/-- `Run.is_current` of the last validation of a node. -/
def isCurrent (n : N) : Bool := (σ.node n).lastValidatedAt = σ.run

def create (n : N) (phase : Phase) : Store N V X :=
  { σ with computations := σ.computations ++ [⟨n, phase, none, []⟩] }

def peek (c : Nat) : Option (Result N) :=
  σ.computations[c]?.bind (·.ivar)

def modifyComputation (c : Nat) (f : Computation N → Computation N) : Store N V X :=
  { σ with computations := σ.computations.modify c f }

/-- The end of `Computation.force`. -/
def fill (c : Nat) (r : Result N) : Store N V X :=
  σ.modifyComputation c fun x => { x with ivar := some (x.ivar.getD r) }

def childrenAddedToDag (c : Nat) : List Nat :=
  (σ.computations[c]?.map (·.childrenAddedToDag)).getD []

end Store

/-! ## Cycle detection -/

/-- The library of incremental cycle detection, which finds a cycle exactly when the new edge closes
one. -/
structure CycleDetection where
  detect : List (Nat × Nat) → Nat → Nat → Option (List Nat)
  exact : ∀ dag v w, (detect dag v w).isSome ↔
    Relation.ReflTransGen (fun a b => (a, b) ∈ dag) w v

noncomputable def CycleDetection.search : CycleDetection where
  detect dag v w := open Classical in
    if Relation.ReflTransGen (fun a b => (a, b) ∈ dag) w v then some [w, v] else none
  exact dag v w := by
    split
    · next h => exact ⟨fun _ => h, fun _ => rfl⟩
    · next h => exact ⟨nofun, fun h' => absurd h' h⟩

/-- The outcome of `Dag.add_assuming_missing`. -/
inductive Added where
  | added (dag : List (Nat × Nat))
  | cycle (l : List Nat)

/-- `Dag.add_assuming_missing`, whose behaviour is undefined on an edge that exists. -/
def CycleDetection.addAssumingMissing (D : CycleDetection) (dag : List (Nat × Nat)) (v w : Nat) :
    Option Added :=
  if (v, w) ∈ dag then none
  else
    match D.detect dag v w with
    | some cycle => some (.cycle cycle)
    | none => some (.added ((v, w) :: dag))

theorem CycleDetection.addAssumingMissing_cases (D : CycleDetection) {dag : List (Nat × Nat)}
    {v w : Nat} (h : (v, w) ∉ dag) :
    (∃ cycle, D.addAssumingMissing dag v w = some (.cycle cycle) ∧
      Relation.ReflTransGen (fun a b => (a, b) ∈ dag) w v) ∨
    (D.addAssumingMissing dag v w = some (.added ((v, w) :: dag)) ∧
      ¬Relation.ReflTransGen (fun a b => (a, b) ∈ dag) w v) := by
  unfold CycleDetection.addAssumingMissing
  rw [if_neg h, ← D.exact]
  cases D.detect dag v w with
  | some cycle => exact .inl ⟨cycle, rfl, rfl⟩
  | none => exact .inr ⟨rfl, Bool.false_ne_true⟩

namespace Store

variable {N V X : Type} (D : CycleDetection)

/-- `Dag.value` of the nodes of a cycle. -/
def cycleValues (σ : Store N V X) (cycle : List Nat) : List N :=
  cycle.filterMap fun c => σ.computations[c]?.map (·.node)

/-- `record_child_added_to_dag`, and the edge that has been added. -/
def recordChild (σ : Store N V X) (frame dagNode : Nat) (dag : List (Nat × Nat)) : Store N V X :=
  { σ.modifyComputation frame fun c =>
      { c with childrenAddedToDag := dagNode :: c.childrenAddedToDag } with dag }

/-- `add_path_impl` of `Call_stack.add_path_to`. -/
def addPathImpl : List Nat → Nat → Store N V X → Option (Store N V X × Option (List N))
  | [], _, σ => some (σ, none)
  | frame :: stack, dagNode, σ =>
    let children := σ.childrenAddedToDag frame
    if dagNode ∈ children then some (σ, none)
    else
      match D.addAssumingMissing σ.dag frame dagNode with
      | none => none
      | some (.cycle cycle) => some (σ, some (σ.cycleValues cycle))
      | some (.added dag) =>
        let σ' := σ.recordChild frame dagNode dag
        if children.isEmpty then addPathImpl stack frame σ' else some (σ', none)

def addPathTo (σ : Store N V X) (stack : List Nat) (dagNode : Nat) :
    Option (Store N V X × Option (List N)) :=
  match σ.cycleError with
  | some cycle => some (σ, some cycle)
  | none =>
    match addPathImpl D stack dagNode σ with
    | none => none
    | some (σ', none) => some (σ', none)
    | some (σ', some cycle) => some ({ σ' with cycleError := some cycle }, some cycle)

end Store

end Dune.Memo
