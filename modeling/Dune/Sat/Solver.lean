import Dune.Sat.Problem

/-!
# Building and solving a problem

The public functions of `sat.ml`: adding constraints, `analyse`, which turns a conflict into a new
clause, and the loop of `step` and `choose` in `run_solver`.
-/

namespace Dune.Sat

open Dune.Stdune

namespace Problem

/-! ## Adding constraints -/

def swap (xs : List Lit) (i j : Nat) : List Lit :=
  match xs[i]?, xs[j]? with
  | some x, some y => (xs.set i y).set j x
  | _, _ => xs

/-- The loop that looks for a literal of the highest level. -/
def bestIndex (p : Problem) : List Lit → Nat → Int → Nat → Nat
  | [], _, _, bestI => bestI
  | l :: ls, i, bestLevel, bestI =>
    if bestLevel < p.level l.var then bestIndex p ls (i + 1) (p.level l.var) i
    else bestIndex p ls (i + 1) bestLevel bestI

inductive AddedResult where
  | addedFact (ok : Bool)
  | addedClause (c : ClauseId)
deriving DecidableEq, Repr

section

variable (p : Problem)

/-- A new clause that watches for the first two of its literals to become false. -/
def addUnion (a b : Lit) (rest : List Lit) : Problem :=
  let c := p.nextClause
  (({ p with
      heap := update p.heap c (.union a b rest), nextClause := c + 1 }.watchLit a.neg c).watchLit
    b.neg c)

def internalAtLeastOne (lits : List Lit) (learnt : Bool) (reason : Reason) :
    Except Fault (AddedResult × Problem) :=
  match lits with
  | [] => .error (.exn .assertFailure)
  | [lit] =>
    let (ok, p) := p.enqueue lit reason
    .ok (.addedFact ok, p)
  | lits =>
    match if learnt then swap lits 1 (p.bestIndex lits 0 (-1) 1) else lits with
    | a :: b :: rest => .ok (.addedClause p.nextClause, p.addUnion a b rest)
    | _ => .error (.exn (.invalidArgument "index out of bounds"))

def simplifyLoop (p : Problem) : List Lit → List Lit → List Lit → Option (List Lit)
  | _, unique, [] => some unique
  | seen, unique, x :: xs =>
    if x.neg ∈ seen then none
    else if x ∈ seen then simplifyLoop p seen unique xs
    else if p.litValue x = .false then simplifyLoop p seen unique xs
    else simplifyLoop p (x :: seen) (x :: unique) xs

/-- The distinct literals that are not false, unless the clause is always true. -/
def simplify (lits : List Lit) : Option (List Lit) := p.simplifyLoop [] [] lits

def atLeastOne (reason : String) (lits : List Lit) : Except Fault Problem :=
  let p := { p with numClauses := p.numClauses + 1 }
  if lits.isEmpty then .ok { p with toplevelConflict := true }
  else if lits.any fun l => p.litValue l = .true then .ok p
  else
    match p.simplify lits with
    | none => .ok p
    | some [] => .ok { p with toplevelConflict := true }
    | some unique => do
      let (result, p) ← p.internalAtLeastOne unique false (.external reason)
      if result = .addedFact false then return { p with toplevelConflict := true }
      else return p

def implies (reason : String) (first : Lit) (rest : List Lit) : Except Fault Problem :=
  p.atLeastOne reason (first.neg :: rest)

def hasDuplicatesLoop : List Lit → List Lit → Bool
  | _, [] => false
  | seen, lit :: lits => if lit ∈ seen then true else hasDuplicatesLoop (lit :: seen) lits

def hasDuplicates (lits : List Lit) : Bool := hasDuplicatesLoop [] lits

/-- The names of the literals are left out of the message. -/
def atMost (nb : Nat) (lits : List Lit) : Except Fault (ClauseId × Problem) := do
  check (!lits.isEmpty)
  if hasDuplicates lits then
    .error (.exn (.invalidArgument "at_most_one(): duplicates in list!"))
  else
    let lits := lits.filter fun l => p.litValue l ≠ .false
    let c := p.nextClause
    let p := { p with
      numClauses := p.numClauses + 1
      heap := update p.heap c (.atMost nb [] lits)
      nextClause := c + 1 }
    return (c, lits.foldl (fun p l => p.watchLit l c) p)

/-- The variables of `analyse`. -/
structure Analysis where
  learnt : List Lit
  btlevel : Int
  seen : List Nat
  counter : Nat
deriving Repr

/-- One literal of the causes of a conflict. -/
def considerCause (a : Analysis) (lit : Lit) : Analysis :=
  if lit.var ∈ a.seen then a
  else
    let a := { a with seen := lit.var :: a.seen }
    if p.level lit.var = p.getDecisionLevel then { a with counter := a.counter + 1 }
    else if 0 < p.level lit.var then
      { a with learnt := lit.neg :: a.learnt, btlevel := max a.btlevel (p.level lit.var) }
    else a

end

/-- `next_interesting`: pops assignments until one is in `seen`. The number is the length of the
trail. -/
def nextInteresting (seen : List Nat) :
    Nat → Problem → Except Fault ((Option Reason × Lit) × Problem)
  | 0, _ => .error (.exn (.failure "hd"))
  | n + 1, p =>
    match p.trail with
    | [] => .error (.exn (.failure "hd"))
    | lit :: _ => do
      let reason := p.reason lit.var
      let p ← p.undoOne
      if lit.var ∈ seen then return ((reason, lit), p)
      else nextInteresting seen n p

/-- `follow_causes`, for at most the given number of calls. -/
def followCauses : Nat → Problem → Analysis → List Lit → Except Fault (Lit × Analysis × Problem)
  | 0, _, _, _ => .error .outOfFuel
  | n + 1, p, a, pReason => do
    let a := pReason.foldl p.considerCause a
    check (0 < a.counter)
    let ((reason, lit), p) ← nextInteresting a.seen p.trail.length p
    let a := { a with counter := a.counter - 1 }
    if a.counter = 0 then return (lit, a, p)
    else
      match reason with
      | some (.clause c) =>
        let pReason ← p.calcReasonFor c lit
        followCauses n p a pReason
      | some (.external _) => .error (.exn (.codeError "external"))
      | none => .error (.exn (.codeError "No reason!"))

/-- The learnt clause and the level to go back to. -/
def analyse (n : Nat) (p : Problem) (originalCause : ClauseId) :
    Except Fault ((List Lit × Int) × Problem) := do
  let pReason ← p.calcReason originalCause
  let (lit, a, p) ← followCauses n p ⟨[], 0, [], 0⟩ pReason
  check (a.counter = 0)
  return ((lit.neg :: a.learnt, a.btlevel), p)

/-! ## Solving -/

inductive StepResult where
  | sat
  | unsat
  | decide
  | backtrack (nbLevels : Nat)
deriving DecidableEq, Repr

/-- The new clause is added and its first literal set. -/
def learn (p : Problem) (learnt : List Lit) (conflictingClause : ClauseId) :
    Except Fault Problem := do
  let (result, p) ← p.internalAtLeastOne learnt true (.clause conflictingClause)
  match result, learnt with
  | .addedFact true, _ => return p
  | .addedFact false, lit :: _ =>
    let (ok, p) := p.enqueue lit (.external "conflict!")
    check ok
    return p
  | .addedClause c, lit :: _ =>
    let (ok, p) := p.enqueue lit (.clause c)
    check ok
    return p
  | _, [] => .error (.exn (.failure "hd"))

def step (n : Nat) (p : Problem) : Except Fault (StepResult × Problem) :=
  if p.toplevelConflict then .ok (.unsat, p)
  else do
    match ← p.propagate n with
    | (none, p) =>
      match p.firstUndecided with
      | none => return (.sat, p)
      | some _ => return (.decide, p)
    | (some conflictingClause, p) =>
      let p := { p with numConflicts := p.numConflicts + 1 }
      let currentLevel := p.getDecisionLevel
      if currentLevel = 0 then return (.unsat, p)
      else
        let ((learnt, backtrackLevel), p) ← p.analyse n conflictingClause
        let p ← p.cancelUntil backtrackLevel
        let p ← p.learn learnt conflictingClause
        let nbLevels := currentLevel - p.getDecisionLevel
        check (0 < nbLevels)
        return (.backtrack nbLevels, p)

inductive Choice where
  | true (lit : Lit)
  | anyFalse
deriving DecidableEq, Repr

def chosenLit (p : Problem) : Choice → Except Fault (Lit × Problem)
  | .true lit => .ok (lit, p)
  | .anyFalse =>
    match p.firstUndecided with
    | none => .error (.exn .assertFailure)
    | some v =>
      if p.setToFalse then .ok (⟨.neg, v⟩, p)
      else .ok (⟨.neg, v⟩, { p with
        setToFalse := true
        undo := update p.undo v (.decided :: p.undo v) })

def choose (p : Problem) (choice : Choice) : Except Fault Problem := do
  let (lit, p) ← p.chosenLit choice
  if p.litValue lit ≠ .undecided then
    .error (.exn (.codeError "Decider chose already-decided variable"))
  else
    let p := { p with
      trailLim := p.trailLen :: p.trailLim
      trailLimLen := p.trailLimLen + 1
      numDecisions := p.numDecisions + 1 }
    let (ok, p) := p.enqueue lit (.external "considering")
    check ok
    return p

end Problem

/-- The function that chooses literals, with a state of its own. -/
structure Decider (σ : Type) where
  decide : σ → Problem → σ × Option Lit

/-- `run_solver`, for at most the given numbers of rounds of its own loop and of the inner ones. -/
def runSolver {σ : Type} (decider : Decider σ) (bound : Nat) :
    Nat → σ → Problem → Except Fault (Bool × Problem)
  | 0, _, _ => .error .outOfFuel
  | n + 1, s, p => do
    match ← p.step bound with
    | (.sat, p) => return (true, p)
    | (.unsat, p) => return (false, p)
    | (.decide, p) =>
      let (s, choice) :=
        if p.setToFalse then (s, .anyFalse)
        else
          match decider.decide s p with
          | (s, some lit) => (s, .true lit)
          | (s, none) => (s, .anyFalse)
      let p ← p.choose choice
      runSolver decider bound n s p
    | (.backtrack _, p) => runSolver decider bound n s p

/-- A problem made by calls of the functions that add variables and constraints, with the
constraints that were added. -/
inductive Built : Problem → List Constraint → Prop where
  | create : Built .create []
  | addVariable {p Φ} (h : Built p Φ) : Built p.addVariable.2 Φ
  | impossible {p Φ} (h : Built p Φ) : Built p.impossible (Φ ++ [.atLeastOne []])
  | atLeastOne {p p' Φ reason lits} (h : Built p Φ) (hvars : ∀ l ∈ lits, l.var < p.numVars)
      (hp : p.atLeastOne reason lits = .ok p') : Built p' (Φ ++ [.atLeastOne lits])
  | implies {p p' Φ reason first rest} (h : Built p Φ) (hvar : first.var < p.numVars)
      (hvars : ∀ l ∈ rest, l.var < p.numVars) (hp : p.implies reason first rest = .ok p') :
      Built p' (Φ ++ [.atLeastOne (first.neg :: rest)])
  | atMost {p p' Φ nb lits c} (h : Built p Φ) (hvars : ∀ l ∈ lits, l.var < p.numVars)
      (hp : p.atMost nb lits = .ok (c, p')) : Built p' (Φ ++ [.atMost nb lits])

end Dune.Sat
