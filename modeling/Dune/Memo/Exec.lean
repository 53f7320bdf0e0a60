import Dune.Memo.Node
import Dune.Task.Calculus

/-!
# Executing the nodes of Memo

`Exec` as tasks over the shared state of Memo: reading a node restores it from the cache or
computes it, and every node is restored or computed by the first task that asks for it while the
others wait. An assertion of the source that fails is a step that fails. The interleavings of the
calculus include those of the fibers of the source.
-/

namespace Dune.Memo

open Dune.Task (Code Outcome Tree Machine)

/-! ## Memoized functions -/

/-- The function of a node: it reads nodes one after the other or in the threads of a parallel
section, and sees the errors of what it reads. -/
inductive Prog (N V X : Type) where
  | ret (r : Except (Errors N X) V)
  | read (n : N) (k : Except (Errors N X) V → Prog N V X)
  | par (ps : List (Prog N V X)) (k : List (Except (Errors N X) V) → Prog N V X)

/-- What a node computes: the value of a variable, or that of a function. -/
inductive Fn (N V X : Type) where
  | var
  | prog (p : Prog N V X)

/-- `Spec.t` of every node. -/
structure Spec (N V X : Type) where
  f : N → Fn N V X
  cutoff : N → Option (V → V → Bool)

namespace Spec

variable {N V X : Type} (S : Spec N V X)

def hasCutoff (n : N) : Bool := (S.cutoff n).isSome

def outputChanged (n : N) (old new : V) : Bool :=
  match S.cutoff n with
  | none => true
  | some equal => !equal old new

def valueChanged [DecidableEq N] [DecidableEq X] (n : N) : Value N V X → Value N V X → Bool
  | .uninitialized, _ | _, .uninitialized => true
  | .error ⟨_, false⟩, _ | _, .error ⟨_, false⟩ => true
  | .error _, .ok _ | .ok _, .error _ => true
  | .ok old, .ok new => S.outputChanged n old new
  | .error ⟨prev, true⟩, .error ⟨cur, true⟩ => prev ≠ cur

def updateValue [DecidableEq N] [DecidableEq X] (n : N) (value : Value N V X) (deps : Deps N)
    (σ : Store N V X) : Store N V X :=
  let x := σ.node n
  let x := if S.valueChanged n x.value value then
      { x with value, lastChangedAt := σ.run, lastValidatedAt := σ.run }
    else x
  (σ.setNode n { x with deps }).validateValue n

end Spec

/-! ## Operations and their replies -/

/-- The operations on nodes; `checkDep` is the function that `restore_from_cache` applies to the
dependencies of a node. -/
inductive Op (N : Type) where
  | exec (n : N)
  | checkDep (node dep : N) (okToRecomputeEagerly : Bool)
  | restore (n : N)
  | compute (n : N)
  | considerCompute (n : N)

/-- What reading a node gives: its value, which the reader then depends on, or `Cycle_error.E`. -/
inductive Answer (N V X : Type) where
  | value (r : Except (Errors N X) V)
  | cycle (dependencyCycle : List N)

/-- What operations and atomic steps return. -/
inductive Reply (N V X : Type) where
  | answer (a : Answer N V X)
  | changedOrNot (r : ChangedOrNot N)
  | result (r : Result N)
  | blocked (c : Nat)
  | computed (r : Option (List N))
  | deps (d : Deps N)
  | thread (r : Except (Errors N X) V) (collector : List (Deps N))
  | run

variable {N V X : Type} [DecidableEq N] [DecidableEq X]

abbrev MemoCode (N V X : Type) := Code (Store N V X) (Reply N V X) Nat (Op N)

abbrev MemoOutcome (N V X : Type) := Store N V X × Outcome (Reply N V X) Nat (Op N)

/-- `Value.get_exn` with the errors as the reader of the node sees them: the stack frame that is
added to an exception hides that it was not reproducible. -/
def Value.get? : Value N V X → Option (Except (Errors N X) V)
  | .ok v => some (.ok v)
  | .error e => some (.error { e with reproducible := true })
  | .uninitialized => none

section Steps

variable (D : CycleDetection)

/-- `Computation.read_but_first_check_for_cycles` up to the point where it blocks; `stop` is what
it replies on a cycle. -/
def readButFirstCheckForCycles (c : Nat) (stop : List N → Reply N V X) (stack : List Nat)
    (σ : Store N V X) : Option (MemoOutcome N V X) :=
  match σ.peek c with
  | some res => some (σ, .done (.result res))
  | none =>
    match σ.addPathTo D stack c with
    | none => none
    | some (σ', none) => some (σ', .done (.blocked c))
    | some (σ', some cycle) => some (σ', .done (stop cycle))

variable (n : N)

variable (stack : List Nat)

variable (σ : Store N V X)

/-- `consider_and_restore_from_cache_without_adding_dep`. -/
def considerAndRestoreFromCache : Option (MemoOutcome N V X) :=
  match (σ.node n).state with
  | .cached =>
    let c := σ.computations.length
    some ((σ.create n .restoreFromCache).setState n (.restoring c), .force c (.restore n))
  | .restoring c =>
    readButFirstCheckForCycles D c (fun cycle => .result (.restored (.cancelled cycle))) stack σ
  | .notCached | .outOfDate | .computing _ => some (σ, .done (.result (.restored .changed)))

def startComputing : Option (MemoOutcome N V X) :=
  let c := σ.computations.length
  some ((σ.create n .compute).setState n (.computing c), .force c (.compute n))

/-- `consider_and_compute_without_adding_dep`. -/
def considerAndCompute : Option (MemoOutcome N V X) :=
  match (σ.node n).state with
  | .cached => if σ.isCurrent n then some (σ, .done (.result .computed)) else none
  | .restoring _ => none
  | .notCached | .outOfDate => startComputing n σ
  | .computing c => readButFirstCheckForCycles D c (fun cycle => .computed (some cycle)) stack σ

/-- `add_dep_from_caller_and_get_value`. -/
def getValue : Option (Store N V X × Reply N V X) :=
  (σ.node n).value.get?.map fun r => (σ, .answer (.value r))

/-- The start of `exec_dep_node_now`. -/
def execNow : Option (MemoOutcome N V X) :=
  if σ.isCurrent n then (getValue n σ).map fun x => (x.1, .done x.2)
  else considerAndRestoreFromCache D n stack σ

/-- The start of the check of a dependency. -/
def checkNow (node dep : N) (stack : List Nat) (σ : Store N V X) : Option (MemoOutcome N V X) :=
  if σ.isCurrent dep then some (σ, .done (.changedOrNot (σ.depChangedOrNot node dep)))
  else considerAndRestoreFromCache D dep stack σ

/-- The first part of `restore_from_cache`, up to the dependencies. -/
def startRestore : Reply N V X :=
  match (σ.node n).value with
  | .uninitialized => .changedOrNot .changed
  | .error ⟨_, false⟩ => .changedOrNot .changed
  | .ok _ | .error ⟨_, true⟩ =>
    if (σ.node n).deps.isEmpty then .changedOrNot .unchanged else .deps (σ.node n).deps

/-- The end of `start_restoring`. -/
def finishRestore (S : Spec N V X) (n : N) (r : ChangedOrNot N) (σ : Store N V X) : Store N V X :=
  match r with
  | .unchanged => σ.validateValue n
  | .cancelled cycle => S.updateValue n (.error (cancelled cycle)) .empty σ
  | .changed => σ.setState n .outOfDate

/-- The start of `compute`: the check point, and the value of a variable. -/
def startCompute (S : Spec N V X) (n : N) (σ : Store N V X) : Reply N V X :=
  match σ.checkPoint with
  | some e => .thread (.error e) []
  | none =>
    match S.f n with
    | .var => .thread (.ok (σ.inputs n)) []
    | .prog _ => .run

/-- The end of `compute`. -/
def finishCompute (S : Spec N V X) (n : N) (r : Except (Errors N X) V)
    (collector : List (Deps N)) (σ : Store N V X) : Store N V X :=
  match r with
  | .ok v => S.updateValue n (.ok v) (.toStatic collector) σ
  | .error e =>
    let σ := if e.reproducible then σ else { σ with lastSawNonReproducibleExnAt := σ.run }
    S.updateValue n (.error e) (.toStatic collector) σ

end Steps

/-! ## The code of the operations -/

section Codes

variable (D : CycleDetection) (S : Spec N V X)

/-- Goes on with the result of a computation, which may have to be waited for first. -/
def Reply.withResult (k : Result N → MemoCode N V X) (other : Reply N V X → MemoCode N V X) :
    Reply N V X → MemoCode N V X
  | .result r => k r
  | .blocked c => .wait c fun
    | .result r => k r
    | _ => .fail
  | r => other r

def afterCompute (n : N) : Reply N V X → MemoCode N V X
  | .computed none => .update (getValue n) .ret
  | .computed (some cycle) => .ret (.answer (.cycle cycle))
  | _ => .fail

def afterRestore (n : N) : Result N → MemoCode N V X
  | .restored .unchanged => .update (getValue n) .ret
  | .restored (.cancelled cycle) => .ret (.answer (.cycle cycle))
  | .restored .changed => .call (.considerCompute n) (afterCompute n)
  | .computed => .fail

/-- `exec_dep_node`. -/
def exec (n : N) : MemoCode N V X :=
  let k := Reply.withResult (afterRestore n) fun
    | .answer a => .ret (.answer a)
    | _ => .fail
  .atomic (execNow D n) k k

/-- The comparison of the run stamps as a step of its own. -/
def compareStamps (node dep : N) : MemoCode N V X :=
  .update (fun σ => some (σ, .changedOrNot (σ.depChangedOrNot node dep))) .ret

/-- What the check of a dependency does after the dependency has been recomputed. -/
def checkComputed (node dep : N) : Reply N V X → MemoCode N V X
  | .computed none =>
    if S.hasCutoff dep then compareStamps node dep else .ret (.changedOrNot .changed)
  | .computed (some cycle) => .ret (.changedOrNot (.cancelled cycle))
  | _ => .fail

/-- What the check of a dependency does after the dependency has been restored. -/
def checkRestored (node dep : N) (okToRecomputeEagerly : Bool) : Result N → MemoCode N V X
  | .restored .unchanged => compareStamps node dep
  | .restored (.cancelled cycle) => .ret (.changedOrNot (.cancelled cycle))
  | .restored .changed =>
    if !S.hasCutoff dep && !okToRecomputeEagerly then .ret (.changedOrNot .changed)
    else .call (.considerCompute dep) (checkComputed S node dep)
  | .computed => .fail

/-- The function that `restore_from_cache` applies to the dependencies of a node. -/
def checkDep (node dep : N) (okToRecomputeEagerly : Bool) : MemoCode N V X :=
  let k := Reply.withResult (checkRestored S node dep okToRecomputeEagerly) fun
    | .changedOrNot r => .ret (.changedOrNot r)
    | _ => .fail
  .atomic (checkNow D node dep) k k

/-- The results of the sections that were checked concurrently. -/
def ChangedOrNot.reduce : List (Reply N V X) → Option (ChangedOrNot N)
  | [] => some .unchanged
  | .changedOrNot r :: rs => (reduce rs).map r.combine
  | _ :: _ => none

def Reply.withChangedOrNot (k : ChangedOrNot N → MemoCode N V X) : Reply N V X → MemoCode N V X
  | .changedOrNot r => k r
  | _ => .fail

def withReduced (k : ChangedOrNot N → MemoCode N V X) (rs : List (Reply N V X)) : MemoCode N V X :=
  match ChangedOrNot.reduce rs with
  | some r => k r
  | none => .fail

mutual

/-- `Deps.changed_or_not` for the dependencies of a node; `k` is what follows. -/
def changedOrNot (node : N) (okToRecomputeEagerly : Bool) :
    Deps N → (ChangedOrNot N → MemoCode N V X) → MemoCode N V X
  | .empty, k => k .unchanged
  | .singleton dep, k =>
    .call (.checkDep node dep okToRecomputeEagerly) (Reply.withChangedOrNot k)
  | .seq l, k => changedOrNotSeq node l k
  | .par l, k => .par (changedOrNotPar node l) (withReduced k)

def changedOrNotSeq (node : N) : List (Deps N) → (ChangedOrNot N → MemoCode N V X) → MemoCode N V X
  | [], k => k .unchanged
  | d :: l, k => changedOrNot node false d fun
    | .unchanged => changedOrNotSeq node l k
    | r => k r

def changedOrNotPar (node : N) : List (Deps N) → List (MemoCode N V X)
  | [] => []
  | d :: l =>
    let eagerly := match d with
      | .singleton _ => true
      | _ => false
    changedOrNot node eagerly d (fun r => .ret (.changedOrNot r)) :: changedOrNotPar node l

end

/-- `restore_from_cache` and the end of `start_restoring`. -/
def restore (n : N) : MemoCode N V X :=
  let finish (r : ChangedOrNot N) : MemoCode N V X :=
    .update (fun σ => some (finishRestore S n r σ, .result (.restored r))) .ret
  .update (fun σ => some (σ, startRestore n σ)) fun
    | .changedOrNot r => finish r
    | .deps d => changedOrNot n false d finish
    | _ => .fail

/-- The results and the dependencies of the threads of a parallel section. -/
def threadResults : List (Reply N V X) → Option (List (Except (Errors N X) V) × List (Deps N))
  | [] => some ([], [])
  | .thread r collector :: rs =>
    (threadResults rs).map fun x => (r :: x.1, .toStatic collector :: x.2)
  | _ :: _ => none

/-- Goes on with what reading a node gave; the node is a dependency unless it raised a cycle. -/
def Reply.withAnswer (n : N) (collector : List (Deps N))
    (k : Except (Errors N X) V → List (Deps N) → MemoCode N V X) : Reply N V X → MemoCode N V X
  | .answer (.value r) => k r (.singleton n :: collector)
  | .answer (.cycle cycle) => k (.error (cancelled cycle)) collector
  | _ => .fail

/-- Goes on with the results and the dependencies of threads. -/
def withThreads (k : List (Except (Errors N X) V) → List (Deps N) → MemoCode N V X)
    (rs : List (Reply N V X)) : MemoCode N V X :=
  match threadResults rs with
  | some x => k x.1 x.2
  | none => .fail

mutual

/-- Runs a function that has collected dependencies so far; `k` is what follows. A parallel section
of fewer than two threads collects into the collector of the function. -/
def runProg : Prog N V X → List (Deps N) →
    (Except (Errors N X) V → List (Deps N) → MemoCode N V X) → MemoCode N V X
  | .ret r, collector, k => k r collector
  | .read n kp, collector, k => .call (.exec n) (Reply.withAnswer n collector fun r collector =>
    runProg (kp r) collector k)
  | .par [] kp, collector, k => runProg (kp []) collector k
  | .par [p] kp, collector, k => runProg p collector fun r collector =>
    runProg (kp [r]) collector k
  | .par ps kp, collector, k => .par (runThreads ps) (withThreads fun rs threads =>
    runProg (kp rs) (Deps.appendPar collector threads) k)

/-- The threads of a parallel section, each with a collector of its own. -/
def runThreads : List (Prog N V X) → List (MemoCode N V X)
  | [] => []
  | p :: ps => runProg p [] (fun r collector => .ret (.thread r collector)) :: runThreads ps

end

def compute (n : N) : MemoCode N V X :=
  let finish (r : Except (Errors N X) V) (collector : List (Deps N)) : MemoCode N V X :=
    .update (fun σ => some (finishCompute S n r collector σ, .result .computed)) .ret
  .update (fun σ => some (σ, startCompute S n σ)) fun
    | .thread r collector => finish r collector
    | .run =>
      match S.f n with
      | .prog p => runProg p [] finish
      | .var => .fail
    | _ => .fail

/-- `consider_and_compute_without_adding_dep`. -/
def considerCompute (n : N) : MemoCode N V X :=
  let k := Reply.withResult (fun _ => .ret (.computed none)) fun
    | .computed r => .ret (.computed r)
    | _ => .fail
  .atomic (considerAndCompute D n) k k

/-- Memo as a machine: the operations on nodes and the results of computations. -/
def machine : Machine (Store N V X) (Reply N V X) Nat (Op N) where
  body
    | .exec n => exec D n
    | .checkDep node dep okToRecomputeEagerly => checkDep D S node dep okToRecomputeEagerly
    | .restore n => restore S n
    | .compute n => compute S n
    | .considerCompute n => considerCompute D n
  ivar σ c := (σ.peek c).map .result
  fill σ c
    | .result r => σ.fill c r
    | _ => σ

/-- What `Memo.run` runs at the top level. -/
def request (p : Prog N V X) : Tree (Store N V X) (Reply N V X) Nat (Op N) :=
  .leaf (runProg p [] fun r collector => .ret (.thread r collector))

end Codes

/-- `Node.invalidate`, which raises while the node is being restored or computed. -/
def invalidate (n : N) (σ : Store N V X) : Option (Store N V X) :=
  match (σ.node n).state with
  | .cached | .outOfDate => some (σ.setState n .notCached)
  | .notCached => some σ
  | .restoring _ | .computing _ => none

def execute : List N → Store N V X → Option (Store N V X)
  | [], σ => some σ
  | n :: ns, σ => (invalidate n σ).bind (execute ns)

/-- `Memo.reset`, with the values of the variables that have been set. No node refers to the
computations of the run that ends, so that they are garbage collected with the graph. -/
def reset (invalidation : List N) (inputs : N → V) (σ : Store N V X) : Option (Store N V X) :=
  (execute invalidation σ).map fun σ =>
    { σ with cycleError := none, run := σ.run + 1, inputs, computations := [], dag := [] }

end Dune.Memo
