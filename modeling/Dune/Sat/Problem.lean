import Dune.Stdune.Loc
import Dune.Sat.Semantics

/-!
# The state of the solver

`Problem` is the record `t` of `sat.ml`. Variables and clauses are mutable records there: a variable
is its number and each of its fields a map, a clause is its number in `heap`. The objects attached
to variables are left out.
-/

namespace Dune.Sat

open Dune.Stdune

inductive VarValue where
  | true
  | false
  | undecided
deriving DecidableEq, Repr

def VarValue.invert : VarValue → VarValue
  | .true => .false
  | .false => .true
  | .undecided => .undecided

abbrev ClauseId := Nat

/-- The array of a union has at least two literals. The first two are watched. -/
inductive Clause where
  | union (fst snd : Lit) (rest : List Lit)
  | atMost (nb : Nat) (current : List Lit) (lits : List Lit)
deriving DecidableEq, Repr

/-- Why a literal is set: a clause, or an input fact or a choice of the decider. -/
inductive Reason where
  | clause (c : ClauseId)
  | external (msg : String)
deriving DecidableEq, Repr

/-- What is undone when a variable becomes unbound. -/
inductive Undo where
  | undoAtMost (c : ClauseId)
  | decided
deriving DecidableEq, Repr

structure Problem where
  /-- `id_maker` -/
  numVars : Nat
  vars : List Nat
  value : Nat → VarValue
  reason : Nat → Option Reason
  level : Nat → Int
  undo : Nat → List Undo
  /-- `watch_queue` and `neg_watch_queue` -/
  watchQueue : Lit → List ClauseId
  heap : ClauseId → Clause
  nextClause : ClauseId
  propQ : List Lit
  trail : List Lit
  trailLen : Nat
  trailLim : List Nat
  trailLimLen : Nat
  toplevelConflict : Bool
  setToFalse : Bool
  numClauses : Nat
  numDecisions : Nat
  numConflicts : Nat

/-- An exception, or a loop that was given too few rounds. -/
inductive Fault where
  | exn (e : Exn)
  | outOfFuel
deriving DecidableEq, Repr

/-- `assert`. -/
def check (b : Bool) : Except Fault Unit :=
  if b then .ok () else .error (.exn .assertFailure)

def update {α β : Type} [DecidableEq α] (f : α → β) (a : α) (b : β) : α → β :=
  fun x => if x = a then b else f x

variable {α β : Type}

@[simp] theorem update_same [DecidableEq α] (f : α → β) (a : α) (b : β) :
    update f a b a = b := if_pos rfl

theorem update_of_ne [DecidableEq α] (f : α → β) {a x : α} (b : β) (h : x ≠ a) :
    update f a b x = f x := if_neg h

theorem update_eq_self [DecidableEq α] (f : α → β) (a : α) : update f a (f a) = f := by
  funext x
  by_cases h : x = a
  · subst h
    exact update_same _ _ _
  · exact update_of_ne _ _ h

namespace Problem

def create : Problem where
  numVars := 0
  vars := []
  value _ := .undecided
  reason _ := none
  level _ := -1
  undo _ := []
  watchQueue _ := []
  heap _ := .atMost 0 [] []
  nextClause := 0
  propQ := []
  trail := []
  trailLen := 0
  trailLim := []
  trailLimLen := 0
  toplevelConflict := false
  setToFalse := false
  numClauses := 0
  numDecisions := 0
  numConflicts := 0

section

variable (p : Problem)

def litValue (l : Lit) : VarValue :=
  match l.sign with
  | .pos => p.value l.var
  | .neg => (p.value l.var).invert

def getDecisionLevel : Nat := p.trailLimLen

def firstUndecided : Option Nat := p.vars.find? fun v => p.value v = .undecided

/-- The maps have the fields of `make_var` at every number that is not issued yet. -/
def addVariable : Lit × Problem :=
  (⟨.pos, p.numVars⟩, { p with numVars := p.numVars + 1, vars := p.numVars :: p.vars })

/-- The assignments of `enqueue` to an undecided literal. -/
def assign (lit : Lit) (reason : Reason) : Problem :=
  { p with
    value := update p.value lit.var (if lit.sign = .neg then .false else .true)
    level := update p.level lit.var p.getDecisionLevel
    reason := update p.reason lit.var (some reason)
    trail := lit :: p.trail
    trailLen := p.trailLen + 1
    propQ := p.propQ ++ [lit] }

/-- `lit` becomes true. The result is `false` on a conflict. -/
def enqueue (lit : Lit) (reason : Reason) : Bool × Problem :=
  match p.litValue lit with
  | .false => (false, p)
  | .true => (true, p)
  | .undecided => (true, p.assign lit reason)

/-! ## Undoing -/

/-- `undo`. -/
def undoStep (u : Undo) (lit : Lit) : Except Fault Problem :=
  match u with
  | .decided => .ok { p with setToFalse := false }
  | .undoAtMost c =>
    match p.heap c with
    | .atMost nb (l :: lst) lits => do
      check (lit = l)
      return { p with heap := update p.heap c (.atMost nb lst lits) }
    | _ => .error (.exn .assertFailure)

end

/-- The loop over the undo list of the variable of `lit`. -/
def undoAll (lit : Lit) : List Undo → Problem → Except Fault Problem
  | [], p => .ok p
  | cb :: cbs, p => do
    let p ← undoStep { p with undo := update p.undo lit.var cbs } cb lit
    undoAll lit cbs p

/-- The assignments of `undo_one`. -/
def unassign (p : Problem) (lit : Lit) (rest : List Lit) : Problem :=
  { p with
    value := update p.value lit.var .undecided
    reason := update p.reason lit.var none
    level := update p.level lit.var (-1)
    trail := rest
    trailLen := p.trailLen - 1 }

def undoOne (p : Problem) : Except Fault Problem :=
  match p.trail with
  | [] => .error (.exn .assertFailure)
  | lit :: rest => undoAll lit (p.undo lit.var) (p.unassign lit rest)

def undoMany : Nat → Problem → Except Fault Problem
  | 0, p => .ok p
  | n + 1, p => do
    let p ← p.undoOne
    undoMany n p

def cancel (p : Problem) : Except Fault Problem :=
  match p.trailLim with
  | [] => .error (.exn (.failure "hd"))
  | lim :: lims => do
    let p ← undoMany (p.trailLen - lim) p
    return { p with trailLim := lims, trailLimLen := p.trailLimLen - 1 }

def cancelMany : Nat → Problem → Except Fault Problem
  | 0, p => .ok p
  | n + 1, p => do
    let p ← p.cancel
    cancelMany n p

section

variable (p : Problem)

/-- The loop runs once for every level above `level`. -/
def cancelUntil (level : Int) : Except Fault Problem :=
  cancelMany (p.getDecisionLevel - level).toNat p

def impossible : Problem :=
  { p with numClauses := p.numClauses + 1, toplevelConflict := true }

def watchLit (lit : Lit) (c : ClauseId) : Problem :=
  { p with watchQueue := update p.watchQueue lit (p.watchQueue lit ++ [c]) }

/-! ## Clauses -/

/-- The search of `Clause.calc_reason` for `nb + 1` true literals. -/
def findTrue (p : Problem) (nb : Nat) : Nat → List Lit → List Lit → Except Fault (List Lit)
  | _, _, [] => .error (.exn .assertFailure)
  | nbFounds, founds, x :: xs =>
    if p.litValue x ≠ .true then findTrue p nb nbFounds founds xs
    else if nb ≤ nbFounds then .ok (x :: founds)
    else findTrue p nb (nbFounds + 1) (x :: founds) xs

def calcReason (c : ClauseId) : Except Fault (List Lit) :=
  match p.heap c with
  | .union a b rest => .ok ((a :: b :: rest).map Lit.neg)
  | .atMost nb _ lits => findTrue p nb 0 [] lits

def calcReasonFor (c : ClauseId) (lit : Lit) : Except Fault (List Lit) :=
  match p.heap c with
  | .union a b rest => do
    check (lit = a)
    return ((a :: b :: rest).filter (· ≠ lit)).map Lit.neg
  | .atMost _ _ lits => .ok (lits.filter fun l => l ≠ lit ∧ p.litValue l = .true)

/-- `find_not_false`: the first literal of the rest that is not false, and the rest with `b` in its
place. -/
def findNotFalse (p : Problem) (b : Lit) : List Lit → Option (Lit × List Lit)
  | [] => none
  | x :: xs =>
    if p.litValue x = .false then (findNotFalse p b xs).map fun (y, ys) => (y, x :: ys)
    else some (x, b :: xs)

/-- A union whose second literal has become false, because `lit` is true. -/
def propagateUnion (c : ClauseId) (lit a b : Lit) (rest : List Lit) :
    Except Fault (Bool × Problem) :=
  if p.litValue a = .true then .ok (true, p.watchLit lit c)
  else do
    check (p.litValue b = .false)
    match p.findNotFalse b rest with
    | none => return (p.watchLit lit c).enqueue a (.clause c)
    | some (x, rest) =>
      return (true, { p with heap := update p.heap c (.union a x rest) }.watchLit x.neg c)

end

/-- The loop that sets the other literals of a full group to false. -/
def setOthersFalse (nb : Nat) (c : ClauseId) : List Lit → Nat → Problem → Bool × Problem
  | [], _, p => (true, p)
  | l :: ls, nbTrue, p =>
    match p.litValue l with
    | .true => if nb < nbTrue + 1 then (false, p) else setOthersFalse nb c ls (nbTrue + 1) p
    | .undecided =>
      match p.enqueue l.neg (.clause c) with
      | (true, p) => setOthersFalse nb c ls nbTrue p
      | (false, p) => (false, p)
    | .false => setOthersFalse nb c ls nbTrue p

/-- `lit` is added to the selected literals of a group, until it is undone. -/
def select (p : Problem) (c : ClauseId) (lit : Lit) (nb : Nat) (current lits : List Lit) :
    Problem :=
  { p with
    heap := update p.heap c (.atMost nb (lit :: current) lits)
    undo := update p.undo lit.var (.undoAtMost c :: p.undo lit.var) }

/-- A group one of whose literals has become true. -/
def propagateAtMost (p : Problem) (c : ClauseId) (lit : Lit) (nb : Nat) (current lits : List Lit) :
    Except Fault (Bool × Problem) := do
  let p := p.watchLit lit c
  check (p.litValue lit = .true)
  check (current.length < nb ∨ nb = 0)
  let p := p.select c lit nb current lits
  let nbTrue := (lit :: current).length
  if nbTrue < nb then return (true, p)
  else if nb < nbTrue then
    check (nb = 0)
    return (false, p)
  else return setOthersFalse nb c lits 0 p

def propagateClause (p : Problem) (c : ClauseId) (lit : Lit) : Except Fault (Bool × Problem) :=
  match p.heap c with
  | .union a b rest =>
    if a = lit.neg then
      propagateUnion { p with heap := update p.heap c (.union b a rest) } c lit b a rest
    else propagateUnion p c lit a b rest
  | .atMost nb current lits => propagateAtMost p c lit nb current lits

/-- The loop over the watchers of `lit`. The result is the clause that caused a conflict. -/
def notify (lit : Lit) : List ClauseId → Problem → Except Fault (Option ClauseId × Problem)
  | [], p => .ok (none, p)
  | c :: oldWatches, p => do
    let (ok, p) ← p.propagateClause c lit
    if ok then notify lit oldWatches p
    else
      return (some c, { p with
        watchQueue := update p.watchQueue lit (p.watchQueue lit ++ oldWatches)
        propQ := [] })

/-- `propagate`, for at most the given number of rounds. -/
def propagate : Nat → Problem → Except Fault (Option ClauseId × Problem)
  | 0, _ => .error .outOfFuel
  | n + 1, p =>
    match p.propQ with
    | [] => .ok (none, p)
    | lit :: propQ => do
      let oldWatches := p.watchQueue lit
      let p := { p with propQ := propQ, watchQueue := update p.watchQueue lit [] }
      match ← notify lit oldWatches p with
      | (none, p) => propagate n p
      | (some c, p) => return (some c, p)

end Problem

end Dune.Sat
