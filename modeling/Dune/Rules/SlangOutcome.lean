import Dune.Rules.SlangExpand

/-!
# Outcomes of Slang terms

The meaning of a term without the payload of its errors: a value, an undefined package variable,
or an exception. The outcome of a term is a function of the outcomes of its parts
(`outcome_concat`, `outcome_when`, ...), so the evaluator never has to be unfolded again.

The loops of `And`/`Or` and of their absorbing variants differ in one point only, what an
undefined variable does to the rest of the list, so both are one function `loopOutcome`.
-/

namespace Dune.Rules

open List Dune.Stdune Dune.Lang

/-- An evaluation result without the payload of its errors. -/
inductive Outcome (α : Type) where
  | ok (a : α)
  | undefined
  | raised
deriving DecidableEq, Repr

namespace Outcome

variable {α β γ : Type}

def ofMemo {ε : Type} : Memo (Except ε α) → Outcome α
  | .ok (.ok a) => .ok a
  | .ok (.error _) => .undefined
  | .error _ => .raised

def bind (o : Outcome α) (f : α → Outcome β) : Outcome β :=
  match o with
  | .ok a => f a
  | .undefined => .undefined
  | .raised => .raised

def map (f : α → β) (o : Outcome α) : Outcome β := o.bind fun a => .ok (f a)

/-- Both evaluations run; an exception of either one wins over an undefined variable. -/
def both (f : α → β → γ) : Outcome α → Outcome β → Outcome γ
  | .raised, _ => .raised
  | _, .raised => .raised
  | .undefined, _ => .undefined
  | _, .undefined => .undefined
  | .ok a, .ok b => .ok (f a b)

def isOk : Outcome α → Prop
  | .ok _ => True
  | _ => False

theorem ok_ne_raised {a : α} : ok a ≠ raised := by
  intro h
  cases h

theorem undefined_ne_raised : (undefined : Outcome α) ≠ raised := by
  intro h
  cases h

@[simp] theorem bind_ok (a : α) (f : α → Outcome β) : (ok a).bind f = f a := rfl
@[simp] theorem bind_undefined (f : α → Outcome β) : (undefined : Outcome α).bind f = .undefined :=
  rfl
@[simp] theorem bind_raised (f : α → Outcome β) : (raised : Outcome α).bind f = .raised := rfl
@[simp] theorem map_ok (a : α) (f : α → β) : (ok a).map f = .ok (f a) := rfl
@[simp] theorem map_undefined (f : α → β) : (undefined : Outcome α).map f = .undefined := rfl
@[simp] theorem map_raised (f : α → β) : (raised : Outcome α).map f = .raised := rfl

@[simp] theorem isOk_ok (a : α) : (ok a).isOk := trivial
@[simp] theorem not_isOk_undefined : ¬(undefined : Outcome α).isOk := id
@[simp] theorem not_isOk_raised : ¬(raised : Outcome α).isOk := id

theorem map_map (o : Outcome α) (f : α → β) (g : β → γ) :
    (o.map f).map g = o.map fun a => g (f a) := by
  cases o <;> rfl

theorem map_congr {o : Outcome α} {f g : α → β} (h : ∀ a, o = .ok a → f a = g a) :
    o.map f = o.map g := by
  cases o with
  | ok a => simp [h a rfl]
  | undefined | raised => rfl

theorem isOk_iff {o : Outcome α} : o.isOk ↔ ∃ a, o = .ok a := by
  cases o with
  | ok a | undefined | raised => simp

end Outcome

section
variable {P Q : Type}

def outcome (env : Env P Q) (t : Slang P) : Outcome (List (DeferredConcat Q)) :=
  .ofMemo (evalRec env t)

def outcomeBlang (env : Env P Q) (b : Blang P) : Outcome Bool :=
  .ofMemo (evalBlangRec env b)

/-- The boolean that a list of values stands for in a condition. -/
def toBoolOutcome (env : Env P Q) (ds : List (DeferredConcat Q)) : Outcome Bool :=
  match ds.map (DeferredConcat.force env) with
  | [.string "true"] => .ok true
  | [.string "false"] => .ok false
  | _ => .raised

/-- The values of the elements of a concatenation, in order. -/
def elements (env : Env P Q) : List (Slang P) → Outcome (List (DeferredConcat Q))
  | [] => .ok []
  | x :: xs => .both (· ++ ·) (outcome env x) (elements env xs)

/-- The loop over the elements of a connective. `decisive` ends it; an undefined variable ends
it too when the loop is `strict`, and is kept in `seen` otherwise. -/
def loopOutcome (strict decisive : Bool) (seen : Bool) : List (Outcome Bool) → Outcome Bool
  | [] => if seen then .undefined else .ok (!decisive)
  | .raised :: _ => .raised
  | .undefined :: os => if strict then .undefined else loopOutcome strict decisive true os
  | .ok b :: os => if b = decisive then .ok b else loopOutcome strict decisive seen os

/-! ## Terms -/

variable (env : Env P Q)

attribute [local simp] evalRec evalBlangRec absorbLoop connectiveLoop evalList Outcome.ofMemo

@[simp] theorem outcome_nil (env : Env P Q) : outcome env .nil = .ok [] := by
  simp [outcome]

theorem outcome_literal (sw : StringWithVars P) :
    outcome env (.literal sw) = .ofMemo (sw.expandResultDeferredConcat env) := by
  simp only [outcome, evalRec]
  cases sw.expandResultDeferredConcat env with
  | error e => rfl
  | ok r => cases r <;> rfl

section

variable {ε α β : Type}

/-- The results of evaluations in a row, joined. -/
def joined (xs : Memo (List (Except ε (List α)))) : Outcome (List α) :=
  .ofMemo (do let rs ← xs; pure ((StringWithVars.resultAll rs).map List.flatten))

theorem joined_cons (x : Memo (Except ε (List α))) (xs : Memo (List (Except ε (List α)))) :
    joined (do let r ← x; let rs ← xs; pure (r :: rs)) =
      .both (· ++ ·) (.ofMemo x) (joined xs) := by
  rcases x with e | (u | d) <;> rcases xs with e' | rs <;> try rfl
  all_goals
    cases h : StringWithVars.resultAll rs <;>
      simp [h, joined, StringWithVars.resultAll, Outcome.both, bind, Except.bind, pure, Except.pure,
        Except.map]

theorem joined_map (f : List α → β) (xs : Memo (List (Except ε (List α)))) :
    (joined xs).map f = .ofMemo (do
      let rs ← xs; pure ((StringWithVars.resultAll rs).map fun rs => f rs.flatten)) := by
  rcases xs with e | rs
  · rfl
  · cases h : StringWithVars.resultAll rs <;>
      simp [h, joined, bind, Except.bind, pure, Except.pure, Except.map]

end

theorem elements_evalList (xs : List (Slang P)) : elements env xs = joined (evalList env xs) := by
  induction xs with
  | nil => rfl
  | cons x xs ih =>
    rw [elements, ih, outcome, evalList]
    exact (joined_cons _ _).symm

section

variable (loc : Loc)
include loc

theorem outcome_concat (xs : List (Slang P)) :
    outcome env (.form loc (.concat xs)) = (elements env xs).map fun ds => [ds.flatten] := by
  rw [elements_evalList, joined_map, outcome, evalRec]

theorem outcome_when (c : Blang P) (t : Slang P) :
    outcome env (.form loc (.when_ c t)) =
      (outcomeBlang env c).bind fun b => if b then outcome env t else .ok [] := by
  simp only [outcome, outcomeBlang, evalRec]
  rcases evalBlangRec env c with e | (u | (_ | _)) <;> rfl

theorem outcome_if (c : Blang P) (t e : Slang P) :
    outcome env (.form loc (.if_ c t e)) =
      (outcomeBlang env c).bind fun b => if b then outcome env t else outcome env e := by
  simp only [outcome, outcomeBlang, evalRec]
  rcases evalBlangRec env c with e | (u | (_ | _)) <;> rfl

theorem outcome_hasUndefinedVar (t : Slang P) :
    outcome env (.form loc (.hasUndefinedVar t)) =
      match outcome env t with
      | .ok _ => .ok (boolValue false)
      | .undefined => .ok (boolValue true)
      | .raised => .raised := by
  simp only [outcome, evalRec]
  rcases evalRec env t with e | (u | d) <;> rfl

theorem outcome_catchUndefinedVar (value fallback : Slang P) :
    outcome env (.form loc (.catchUndefinedVar value fallback)) =
      match outcome env value with
      | .ok ds => .ok ds
      | .undefined => outcome env fallback
      | .raised => .raised := by
  simp only [outcome, evalRec]
  rcases evalRec env value with e | (u | d) <;> rfl

theorem outcome_blang (b : Blang P) :
    outcome env (.form loc (.blang b)) = (outcomeBlang env b).map boolValue := by
  simp only [outcome, outcomeBlang, evalRec]
  rcases evalBlangRec env b with e | (u | d) <;> rfl

end

/-- An accumulator of the absorbing loop is its starting value or an error met before. -/
theorem ofMemo_absorbLoop (decisive : Bool) (bs : List (Blang P))
    (acc : Res P (List (DeferredConcat Q))) (hacc : ∀ ds, acc = .ok ds → ds = boolValue !decisive) :
    Outcome.ofMemo (absorbLoop env decisive acc bs) =
      (loopOutcome false decisive (!acc.toBool) (bs.map (outcomeBlang env))).map boolValue := by
  induction bs generalizing acc with
  | nil =>
    rcases acc with u | ds
    · rfl
    · rw [hacc ds rfl]
      simp only [absorbLoop]
      rfl
  | cons x xs ih =>
    rw [map_cons]
    simp only [absorbLoop, outcomeBlang] at ih ⊢
    rcases evalBlangRec env x with e | (u | b)
    · rfl
    · have h := ih (match acc with | .ok _ => .error u | .error e' => .error e')
        (by intro ds h; cases acc <;> cases h)
      rcases acc with u' | ds
      · exact h
      · exact h
    · by_cases hb : b = decisive
      · subst hb
        simp [loopOutcome, bind, Except.bind, pure, Except.pure]
      · simpa [loopOutcome, hb, bind, Except.bind] using ih acc hacc

theorem outcome_andAbsorb (loc : Loc) (bs : List (Blang P)) :
    outcome env (.form loc (.andAbsorbUndefinedVar bs)) =
      (loopOutcome false false false (bs.map (outcomeBlang env))).map boolValue := by
  simp only [outcome, evalRec]
  exact ofMemo_absorbLoop env false bs (.ok (boolValue true)) (by rintro _ ⟨⟩; rfl)

theorem outcome_orAbsorb (loc : Loc) (bs : List (Blang P)) :
    outcome env (.form loc (.orAbsorbUndefinedVar bs)) =
      (loopOutcome false true false (bs.map (outcomeBlang env))).map boolValue := by
  simp only [outcome, evalRec]
  exact ofMemo_absorbLoop env true bs (.ok (boolValue false)) (by rintro _ ⟨⟩; rfl)

/-! ## Conditions -/

@[simp] theorem outcomeBlang_const (b : Bool) : outcomeBlang env (.const b) = .ok b := by
  simp [outcomeBlang]

theorem ofMemo_toBool (loc : Loc) (ds : List (DeferredConcat Q)) :
    Outcome.ofMemo (mapResult (toBool env loc) (.ok ds : Res P _)) = toBoolOutcome env ds := by
  simp only [mapResult, toBool, toBoolOutcome]
  generalize ds.map (DeferredConcat.force env) = vs
  split
  · rfl
  · rfl
  · simp [bind, Except.bind]

theorem outcomeBlang_expr (s : Slang P) :
    outcomeBlang env (.expr s) = (outcome env s).bind (toBoolOutcome env) := by
  simp only [outcome, outcomeBlang, evalBlangRec]
  rcases evalRec env s with e | (u | ds)
  · rfl
  · rfl
  · exact ofMemo_toBool env s.loc ds

theorem outcomeBlang_not (b : Blang P) :
    outcomeBlang env (.not b) = (outcomeBlang env b).map fun b => !b := by
  simp only [outcomeBlang, evalBlangRec]
  rcases evalBlangRec env b with e | (u | d) <;> rfl

theorem outcomeBlang_compare (op : Relop) (x y : Slang P) :
    outcomeBlang env (.compare op x y) =
      .both (fun x y => op.eval (Value.compareValsL env (x.map (DeferredConcat.force env))
        (y.map (DeferredConcat.force env)))) (outcome env x) (outcome env y) := by
  simp only [outcome, outcomeBlang, evalBlangRec]
  rcases evalRec env x with e | (u | d) <;> rcases evalRec env y with e' | (u' | d') <;> rfl

theorem ofMemo_connectiveLoop (decisive : Bool) (bs : List (Blang P)) :
    Outcome.ofMemo (connectiveLoop env (!decisive) bs) =
      loopOutcome true decisive false (bs.map (outcomeBlang env)) := by
  induction bs with
  | nil => rfl
  | cons x xs ih =>
    rw [map_cons]
    simp only [connectiveLoop, outcomeBlang] at ih ⊢
    rcases evalBlangRec env x with e | (u | b)
    · rfl
    · rfl
    · by_cases hb : b = decisive
      · subst hb
        simp [loopOutcome, bind, Except.bind, pure, Except.pure]
      · have hb' : b = !decisive := by cases b <;> cases decisive <;> simp_all
        simpa [loopOutcome, hb, hb', bind, Except.bind] using ih

theorem outcomeBlang_and (bs : List (Blang P)) :
    outcomeBlang env (.and bs) = loopOutcome true false false (bs.map (outcomeBlang env)) := by
  simp only [outcomeBlang, evalBlangRec]
  exact ofMemo_connectiveLoop env false bs

theorem outcomeBlang_or (bs : List (Blang P)) :
    outcomeBlang env (.or bs) = loopOutcome true true false (bs.map (outcomeBlang env)) := by
  simp only [outcomeBlang, evalBlangRec]
  exact ofMemo_connectiveLoop env true bs

end

/-! ## The loop of the connectives -/

section
variable (strict decisive : Bool)

/-- What the loop does after an element whose outcome is `o`. -/
theorem loopOutcome_cons (seen : Bool) (o : Outcome Bool) (os : List (Outcome Bool)) :
    loopOutcome strict decisive seen (o :: os) =
      match o with
      | .raised => .raised
      | .undefined => if strict then .undefined else loopOutcome strict decisive true os
      | .ok b => if b = decisive then .ok b else loopOutcome strict decisive seen os := by
  cases o <;> rfl

attribute [local simp] loopOutcome

@[simp] theorem loopOutcome_identity (seen : Bool) (os : List (Outcome Bool)) :
    loopOutcome strict decisive seen (.ok (!decisive) :: os) =
      loopOutcome strict decisive seen os := by
  simp

/-- A seen undefined variable only replaces the unit of the connective. -/
theorem loopOutcome_seen (os : List (Outcome Bool)) :
    loopOutcome strict decisive true os =
      match loopOutcome strict decisive false os with
      | .ok b => if b = decisive then .ok b else .undefined
      | o => o := by
  induction os with
  | nil => simp
  | cons o os ih =>
    rcases o with b | _ | _
    · by_cases h : b = decisive
      · simp [h]
      · simpa [h] using ih
    · cases strict
      · -- the tail is run with the flag set on both sides
        rw [loopOutcome_cons, loopOutcome_cons, ih]
        rcases loopOutcome false decisive false os with b | _ | _
        · by_cases h : b = decisive <;> simp [h]
        · rfl
        · rfl
      · rfl
    · rfl

variable {os : List (Outcome Bool)}

/-- Elements whose loop has outcome `o` can stand for one element with that outcome. -/
theorem loopOutcome_splice {o : Outcome Bool} (h : loopOutcome strict decisive false os = o)
    (seen : Bool) (rest : List (Outcome Bool)) :
    loopOutcome strict decisive seen (os ++ rest) =
      loopOutcome strict decisive seen (o :: rest) := by
  subst h
  induction os generalizing seen with
  | nil => simp
  | cons o os ih =>
    rw [cons_append, loopOutcome_cons, loopOutcome_cons strict decisive false]
    rcases o with b | _ | _
    · by_cases h : b = decisive
      · simp [h]
      · simpa [h] using ih seen
    · cases strict
      · simp only [Bool.false_eq_true, if_false]
        rw [ih true, loopOutcome_seen false decisive os]
        rcases loopOutcome false decisive false os with b | _ | _
        · by_cases h : b = decisive <;> simp [h]
        · rfl
        · rfl
      · rfl
    · rfl

/-- The flag of a run only goes from unset to set. -/
theorem loopOutcome_append_congr {seen : Bool} {rest rest' : List (Outcome Bool)}
    (h : ∀ later : Bool, (seen → later) →
      loopOutcome strict decisive later rest = loopOutcome strict decisive later rest')
    (os : List (Outcome Bool)) :
    loopOutcome strict decisive seen (os ++ rest) =
      loopOutcome strict decisive seen (os ++ rest') := by
  induction os generalizing seen with
  | nil => exact h seen id
  | cons o os ih =>
    rw [cons_append, cons_append, loopOutcome_cons, loopOutcome_cons]
    rcases o with b | _ | _
    · simp only [ih h]
    · simp only [@ih true fun later hlater => h later fun _ => hlater rfl]
    · rfl

/-- An outcome that already occurred decides nothing the second time. -/
theorem loopOutcome_dup {o : Outcome Bool} (h : o ∈ os) (seen : Bool) (rest : List (Outcome Bool)) :
    loopOutcome strict decisive seen (os ++ o :: rest) =
      loopOutcome strict decisive seen (os ++ rest) := by
  induction os generalizing seen with
  | nil => cases h
  | cons a os ih =>
    rw [cons_append, cons_append, loopOutcome_cons, loopOutcome_cons]
    rcases mem_cons.mp h with rfl | hmem
    · rcases o with b | _ | _
      · by_cases hb : b = decisive
        · simp [hb]
        · have hb' : b = !decisive := by cases b <;> cases decisive <;> simp_all
          subst hb'
          simp only [hb, if_false]
          exact loopOutcome_append_congr strict decisive
            (fun later _ => loopOutcome_identity strict decisive later rest) os
      · cases strict
        · simp only [Bool.false_eq_true, if_false]
          refine loopOutcome_append_congr false decisive (fun later hlater => ?_) os
          rw [hlater rfl]
          rfl
        · rfl
      · rfl
    · rcases a with b | _ | _
      · simp only [ih hmem]
      · simp only [ih hmem]
      · rfl

/-- A loop with the decisive value among its elements ends with it, unless it fails before. -/
theorem loopOutcome_decisive (h : .ok decisive ∈ os) (seen : Bool) :
    loopOutcome strict decisive seen os = .ok decisive ∨
      loopOutcome strict decisive seen os = .raised ∨
      strict ∧ loopOutcome strict decisive seen os = .undefined := by
  fun_induction loopOutcome strict decisive seen os with
  | case1 | case2 => cases h
  | case3 => exact .inr (.inl rfl)
  | case4 _ _ hs => exact .inr (.inr ⟨hs, rfl⟩)
  | case5 _ _ _ ih => exact ih (by simpa using h)
  | case6 => exact .inl rfl
  | case7 _ b _ hb ih =>
    refine ih ((mem_cons.mp h).resolve_left fun heq => hb ?_)
    exact (Outcome.ok.inj heq).symm

end

end Dune.Rules
