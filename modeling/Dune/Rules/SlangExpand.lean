import Dune.Lang.Slang

/-!
# Evaluation of Slang terms

`evalRec` and `evalBlangRec` are `Slang_expand.eval_rec` and `eval_blang_rec` with the expander
of package actions. A computation raises (`Except.error` of `Memo`), fails with an undefined
package variable (`Except.error` inside), or succeeds.
-/

namespace Dune.Rules

open Dune.Stdune Dune.Lang

/-- `Slang_expand.error`. -/
structure UndefinedPkgVar (P : Type) where
  literal : StringWithVars P
  variableName : String

/-- The `result` of an evaluation that did not raise. -/
abbrev Res (P α : Type) := Except (UndefinedPkgVar P) α

section
variable {P Q : Type}

def enumerateAnd : List String → String
  | [] => ""
  | [x] => x
  | [x, y] => x ++ " and " ++ y
  | x :: l => x ++ ", " ++ enumerateAnd l

variable (env : Env P Q)

/-- The message of `eval_to_bool` for a value that is no boolean. -/
def notABool : List (Value Q) → String
  | [.string other] =>
    "This expression is used as a condition and so must evaluate to either " ++
      "\"true\" or \"false\", however it evaluated to " ++ other.quote ++ "."
  | [.dir path] | [.path path] =>
    "This expression is used as a condition and so must evaluate to a string " ++
      "whose value is either \"true\" or \"false\", however it evaluated to the path: " ++
      env.pathToString path
  | [] =>
    "This expression is used as a condition and so must evaluate to a single string " ++
      "whose value is either \"true\" or \"false\", however it evaluated to " ++
      "Nil (ie. zero strings)"
  | multipleValues =>
    "This expression is used as a condition and so must evaluate to a single string " ++
      "whose value is either \"true\" or \"false\", however it evaluated to " ++
      "multiple strings: " ++ enumerateAnd (multipleValues.map (Value.toStr env))

/-- The conversion of `eval_to_bool`: exactly one of the two boolean strings is accepted. -/
def toBool (loc : Loc) (result : List (DeferredConcat Q)) : Memo Bool :=
  match result.map (DeferredConcat.force env) with
  | [.string "true"] => .ok true
  | [.string "false"] => .ok false
  | values => .error (.userError loc (notABool env values))

/-- A boolean as the value that `Blang` forms evaluate to. -/
def boolValue (b : Bool) : List (DeferredConcat Q) := [[Value.ofBool b]]

/-- The result of `Result.map` inside `Memo` when the mapped function may raise. -/
def mapResult {ε α β : Type} (f : α → Memo β) : Except ε α → Memo (Except ε β)
  | .ok a => do
    let b ← f a
    pure (.ok b)
  | .error e => .ok (.error e)

mutual

def evalRec (env : Env P Q) : Slang P → Memo (Res P (List (DeferredConcat Q)))
  | .nil => .ok (.ok [])
  | .undefined => .error (.codeError "Unexpected Undefined in slang expansion")
  | .literal sw => do
    let r ← sw.expandResultDeferredConcat env
    pure (r.mapError fun variableName => { literal := sw, variableName })
  | .form _ (.concat xs) => do
    let xs ← evalList env xs
    pure ((StringWithVars.resultAll xs).map fun xs => [xs.flatten.flatten])
  | .form _ (.when_ condition t) => do
    match ← evalBlangRec env condition with
    | .error e => pure (.error e)
    | .ok false => pure (.ok [])
    | .ok true => evalRec env t
  | .form _ (.if_ condition then_ else_) => do
    match ← evalBlangRec env condition with
    | .error e => pure (.error e)
    | .ok true => evalRec env then_
    | .ok false => evalRec env else_
  | .form _ (.hasUndefinedVar t) => do
    match ← evalRec env t with
    | .error _ => pure (.ok (boolValue true))
    | .ok _ => pure (.ok (boolValue false))
  | .form _ (.catchUndefinedVar value fallback) => do
    match ← evalRec env value with
    | .ok value => pure (.ok value)
    | .error _ => evalRec env fallback
  | .form _ (.andAbsorbUndefinedVar bs) => absorbLoop env false (.ok (boolValue true)) bs
  | .form _ (.orAbsorbUndefinedVar bs) => absorbLoop env true (.ok (boolValue false)) bs
  | .form _ (.blang b) => do
    let r ← evalBlangRec env b
    pure (r.map boolValue)

/-- The loop of the absorbing connectives: an undefined variable is kept in `acc` (the first
one, not the last) while a later element may still decide the result. -/
def absorbLoop (env : Env P Q) (absorbing : Bool)
    (acc : Res P (List (DeferredConcat Q))) :
    List (Blang P) → Memo (Res P (List (DeferredConcat Q)))
  | [] => .ok acc
  | x :: xs => do
    match ← evalBlangRec env x with
    | .error e =>
      absorbLoop env absorbing (match acc with | .ok _ => .error e | .error e' => .error e') xs
    | .ok result =>
      if result = absorbing then pure (.ok (boolValue result))
      else absorbLoop env absorbing acc xs

/-- `Slang_expand.eval_blang_rec`. The `Expr` case is `eval_to_bool`. -/
def evalBlangRec (env : Env P Q) : Blang P → Memo (Res P Bool)
  | .const x => .ok (.ok x)
  | .expr s => do
    let r ← evalRec env s
    mapResult (toBool env s.loc) r
  | .and xs => connectiveLoop env true xs
  | .or xs => connectiveLoop env false xs
  | .not b => do
    let r ← evalBlangRec env b
    pure (r.map fun b => !b)
  | .compare op x y => do
    let x ← evalRec env x
    let y ← evalRec env y
    pure (x.bind fun x => y.map fun y =>
      op.eval (Value.compareValsL env (x.map (DeferredConcat.force env))
        (y.map (DeferredConcat.force env))))

/-- The loop of `And` and `Or`: it goes on while the elements are `continue_`. -/
def connectiveLoop (env : Env P Q) (continue_ : Bool) : List (Blang P) → Memo (Res P Bool)
  | [] => .ok (.ok continue_)
  | x :: xs => do
    match ← evalBlangRec env x with
    | .error e => pure (.error e)
    | .ok value =>
      if value = continue_ then connectiveLoop env continue_ xs else pure (.ok (!continue_))

def evalList (env : Env P Q) : List (Slang P) → Memo (List (Res P (List (DeferredConcat Q))))
  | [] => .ok []
  | x :: xs => do
    let r ← evalRec env x
    let rs ← evalList env xs
    pure (r :: rs)

end

def raiseUndefinedPkgVar {α : Type} : Res P α → Memo α
  | .ok x => .ok x
  | .error e =>
    .error (.userError e.literal.loc ("Undefined package variable " ++ e.variableName.quote))

def eval (t : Slang P) : Memo (List (DeferredConcat Q)) :=
  evalRec env t >>= raiseUndefinedPkgVar

def evalBlang (b : Blang P) : Memo Bool :=
  evalBlangRec env b >>= raiseUndefinedPkgVar

end

end Dune.Rules
