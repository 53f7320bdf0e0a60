import Dune.Rules.SimplifyExact

/-!
# Where simplification keeps the meaning of a term

`Slang.simplify` does not keep every outcome. `Exact env obs t` collects what has to hold of the
evaluation of `t` for its rewrites to be invisible: it follows the recursion of the simplifier
and is asked only of the parts that the evaluation of `t` reaches. Each conjunct belongs to one
rewrite that looks at less than the evaluator does:

* a condition whose branches became equal or empty is dropped with the errors it may raise;
* a connective that contains its decisive constant drops the elements before it;
* a concatenation of one element is that element, however many values it has;
* merged literals are quoted again as one, which changes the separator of a percent form;
* `Undefined` in a condition counts as false, where evaluating it is an error.
-/

namespace Dune.Rules

open Dune.Stdune Dune.Lang

section
variable {P Q : Type}

section
variable [DecidableEq P]

mutual

/-- The simplification of a term, on terms of size at most the bound, is invisible to `obs`. -/
def ExactN (env : Env P Q) : Nat → Obs → Slang P → Prop
  | 0, _, _ => True
  | _ + 1, _, .nil => True
  | _ + 1, _, .undefined => True
  | _ + 1, _, .literal _ => True
  | n + 1, obs, .form _ (.concat xs) =>
    (∀ x ∈ xs, ExactN env n .parts x) ∧ ExactConcat env obs (survivors (simplifyN n) xs)
  | n + 1, obs, .form _ (.when_ c t) =>
    ExactBlangN env n c ∧ (outcomeBlang env c = .ok true → ExactN env n obs t) ∧
      ((simplifyN n t).isNil → (outcomeBlang env c).isOk)
  | n + 1, obs, .form _ (.if_ c t e) =>
    ExactBlangN env n c ∧ (outcomeBlang env c = .ok true → ExactN env n obs t) ∧
      (outcomeBlang env c = .ok false → ExactN env n obs e) ∧
      (Slang.equal (simplifyN n t) (simplifyN n e) → (outcomeBlang env c).isOk)
  | n + 1, _, .form _ (.hasUndefinedVar t) => ExactN env n .definedness t
  | n + 1, obs, .form _ (.catchUndefinedVar value fallback) =>
    ExactN env n obs value ∧ (outcome env value = .undefined → ExactN env n obs fallback)
  | n + 1, _, .form l (.andAbsorbUndefinedVar bs) =>
    EachReached env false false (ExactBlangN env n) bs ∧
      (simplifyBlangs (simplifyBlangN n) flattenAndAbsorb true bs = none →
        Completed false (outcome env (.form l (.andAbsorbUndefinedVar bs))))
  | n + 1, _, .form l (.orAbsorbUndefinedVar bs) =>
    EachReached env false true (ExactBlangN env n) bs ∧
      (simplifyBlangs (simplifyBlangN n) flattenOrAbsorb false bs = none →
        Completed false (outcome env (.form l (.orAbsorbUndefinedVar bs))))
  | n + 1, _, .form _ (.blang b) => ExactBlangN env n b

@[inherit_doc ExactN]
def ExactBlangN (env : Env P Q) : Nat → Blang P → Prop
  | 0, _ => True
  | _ + 1, .const _ => True
  | _ + 1, .expr (.literal _) => True
  | n + 1, .expr (.form _ (.blang b)) => ExactBlangN env n b
  | _ + 1, .expr .undefined => False
  | n + 1, .expr s =>
    ExactN env n .values s ∧
      match simplifyN n s with
      | .undefined => False
      | .form _ (.blang b) => ExactBlangN env n b
      | _ => True
  | n + 1, .compare _ lhs rhs =>
    ExactN env n .values lhs ∧ ExactN env n .values rhs ∧
      simplifyN n lhs ≠ .undefined ∧ simplifyN n rhs ≠ .undefined
  | n + 1, .not b => ExactBlangN env n b
  | n + 1, .and bs =>
    EachReached env true false (ExactBlangN env n) bs ∧
      (simplifyBlangs (simplifyBlangN n) flattenAnd true bs = none →
        Completed true (outcomeBlang env (.and bs)))
  | n + 1, .or bs =>
    EachReached env true true (ExactBlangN env n) bs ∧
      (simplifyBlangs (simplifyBlangN n) flattenOr false bs = none →
        Completed true (outcomeBlang env (.or bs)))

end

/-! ## Terms, as they are observed -/

variable {s x y t : Slang P}

section
omit [DecidableEq P]
variable (env : Env P Q) (obs : Obs) (l : Loc)

theorem observed_nil : observed env obs .nil = .ok [] := by
  rw [observed, outcome_nil]
  cases obs <;> rfl

theorem observed_when (c : Blang P) (t : Slang P) :
    observed env obs (.form l (.when_ c t)) =
      (outcomeBlang env c).bind fun b => if b then observed env obs t else .ok [] := by
  rw [observed, outcome_when, ← observed_nil env obs]
  rcases outcomeBlang env c with (_ | _) | _ | _
  · simp [observed]
  · rfl
  · rfl
  · rfl

theorem observed_if (c : Blang P) (t e : Slang P) :
    observed env obs (.form l (.if_ c t e)) =
      (outcomeBlang env c).bind fun b => if b then observed env obs t else observed env obs e := by
  rw [observed, outcome_if]
  rcases outcomeBlang env c with (_ | _) | _ | _ <;> rfl

theorem observed_hasUndefinedVar (t : Slang P) :
    observed env obs (.form l (.hasUndefinedVar t)) =
      match observed env .definedness t with
      | .ok _ => .ok (obs.see env (boolValue false))
      | .undefined => .ok (obs.see env (boolValue true))
      | .raised => .raised := by
  rw [observed, outcome_hasUndefinedVar, observed]
  cases outcome env t <;> rfl

theorem observed_catchUndefinedVar (value fallback : Slang P) :
    observed env obs (.form l (.catchUndefinedVar value fallback)) =
      match observed env obs value with
      | .ok vs => .ok vs
      | .undefined => observed env obs fallback
      | .raised => .raised := by
  rw [observed, outcome_catchUndefinedVar, observed]
  cases outcome env value <;> rfl

theorem observed_blang (b : Blang P) :
    observed env obs (.form l (.blang b)) =
      (outcomeBlang env b).map fun v => obs.see env (boolValue v) := by
  rw [observed, outcome_blang, Outcome.map_map]

/-- A condition only looks at the values of its term. -/
theorem outcomeBlang_expr_observed (t : Slang P) :
    outcomeBlang env (.expr t) = (observed env .values t).bind fun vs =>
      match vs with
      | [.string "true"] => .ok true
      | [.string "false"] => .ok false
      | _ => .raised := by
  rw [outcomeBlang_expr, observed]
  cases outcome env t <;> rfl

theorem outcomeBlang_expr_congr {s' : Slang P}
    (h : observed env .values s = observed env .values s') :
    outcomeBlang env (.expr s) = outcomeBlang env (.expr s') := by
  rw [outcomeBlang_expr_observed, outcomeBlang_expr_observed, h]

theorem outcomeBlang_compare_observed (op : Relop) (x y : Slang P) :
    outcomeBlang env (.compare op x y) =
      .both (fun vs ws => op.eval (Value.compareValsL env vs ws))
        (observed env .values x) (observed env .values y) := by
  rw [outcomeBlang_compare, observed, observed]
  cases outcome env x <;> cases outcome env y <;> rfl

theorem outcomeBlang_compare_congr (op : Relop) {x' y' : Slang P}
    (hx : observed env .values x = observed env .values x')
    (hy : observed env .values y = observed env .values y') :
    outcomeBlang env (.compare op x y) = outcomeBlang env (.compare op x' y') := by
  rw [outcomeBlang_compare_observed, outcomeBlang_compare_observed, hx, hy]

theorem outcomeBlang_expr_blang (b : Blang P) :
    outcomeBlang env (.expr (.form l (.blang b))) = outcomeBlang env b := by
  rw [outcomeBlang_expr, outcome_blang]
  rcases outcomeBlang env b with (_ | _) | _ | _ <;> rfl

end

/-! ## The connectives, case by case -/

section
omit [DecidableEq P]
variable (env : Env P Q)

theorem flattens_and : Flattens env true false (flattenAnd (P := P)) := by
  intro b bs h
  cases b <;> simp only [flattenAnd, Option.some.injEq, reduceCtorEq] at h
  rw [h, outcomeBlang_and]

theorem flattens_or : Flattens env true true (flattenOr (P := P)) := by
  intro b bs h
  cases b <;> simp only [flattenOr, Option.some.injEq, reduceCtorEq] at h
  rw [h, outcomeBlang_or]

/-- A loop that became a term and then a condition again. -/
theorem toBoolOutcome_boolValue (o : Outcome Bool) :
    (o.map boolValue).bind (toBoolOutcome env) = o := by
  rcases o with (_ | _) | _ | _ <;> rfl

theorem flattens_andAbsorb : Flattens env false false (flattenAndAbsorb (P := P)) := by
  intro b bs h
  rw [flattenAndAbsorb.eq_def] at h
  split at h
  · obtain rfl := Option.some.inj h
    rw [outcomeBlang_expr, outcome_andAbsorb, toBoolOutcome_boolValue]
  · cases h

theorem flattens_orAbsorb : Flattens env false true (flattenOrAbsorb (P := P)) := by
  intro b bs h
  rw [flattenOrAbsorb.eq_def] at h
  split at h
  · obtain rfl := Option.some.inj h
    rw [outcomeBlang_expr, outcome_orAbsorb, toBoolOutcome_boolValue]
  · cases h

variable {env} in
theorem textOnly_eq {sw : StringWithVars P} {s : String} (h : sw.textOnly = some s) :
    outcome env (.literal sw) = .ok [[.string s]] := by
  obtain ⟨q, parts, l⟩ := sw
  rw [StringWithVars.textOnly.eq_def] at h
  split at h
  · next heq =>
    obtain rfl := Option.some.inj h
    obtain rfl : parts = _ := heq
    rw [outcome_literal]
    rfl
  · cases h

theorem outcomeBlang_expr_text {sw : StringWithVars P} {s : String} (h : sw.textOnly = some s) :
    outcomeBlang env (.expr (.literal sw)) = toBoolOutcome env [[.string s]] := by
  rw [outcomeBlang_expr, textOnly_eq h, Outcome.bind_ok]

theorem outcomeBlang_compare_texts (op : Relop) {l r : StringWithVars P} {s s' : String}
    (hl : l.textOnly = some s) (hr : r.textOnly = some s') :
    outcomeBlang env (.compare op (.literal l) (.literal r)) = .ok (op.eval (compare s s')) := by
  rw [outcomeBlang_compare, textOnly_eq hl, textOnly_eq hr]
  have hvals : Value.compareValsL env [.string s] [.string s'] = compare s s' :=
    Value.compareValsL_singleton env (.string s) (.string s')
  exact congrArg (fun o => Outcome.ok (op.eval o)) hvals

theorem compare_eq_iff (s s' : String) : (compare s s' == .eq) = (s == s') := by
  by_cases h : s = s'
  · subst h
    have heq : compare s s = .eq := Std.ReflCmp.compare_self
    rw [heq, beq_self_eq_true, beq_self_eq_true]
  · have hne : compare s s' ≠ .eq := fun heq => h (Std.LawfulEqCmp.eq_of_compare heq)
    rw [beq_eq_false_iff_ne.mpr hne, beq_eq_false_iff_ne.mpr h]

theorem Relop.eval_eq (o : Ordering) : Relop.eval .eq o = (o == .eq) := by
  cases o <;> rfl

theorem Relop.eval_neq (o : Ordering) : Relop.eval .neq o = !(o == .eq) := by
  cases o <;> rfl

end

theorem exactBlangN_expr {env : Env P Q} (h : s.isPlainExpr) (n : Nat) :
    ExactBlangN env (n + 1) (.expr s) ↔
      (ExactN env n .values s ∧
        match simplifyN n s with
        | .undefined => False
        | .form _ (.blang b) => ExactBlangN env n b
        | _ => True) := by
  rcases s with _ | _ | sw | ⟨loc, f⟩
  · simp only [ExactBlangN]
  · cases h
  · cases h
  · cases f <;> first | (cases h; done) | simp only [ExactBlangN]

/-! ## One step of the simplifier -/

section
variable {env : Env P Q} {n : Nat}
  (ih : ∀ obs t, ExactN env n obs t → observed env obs (simplifyN n t) = observed env obs t)
  (ihBlang : ∀ b, ExactBlangN env n b → outcomeBlang env (simplifyBlangN n b) = outcomeBlang env b)

include ih ihBlang

variable {l : Loc} {obs : Obs}

theorem observed_simplify_when {c : Blang P} (h : ExactN env (n + 1) obs (.form l (.when_ c t))) :
    observed env obs (simplifyN (n + 1) (.form l (.when_ c t))) =
      observed env obs (.form l (.when_ c t)) := by
  obtain ⟨hc, ht, hnil⟩ := h
  have hc := ihBlang c hc
  rw [observed_when, simplifyN]
  split
  · next heq =>
    rw [heq, outcomeBlang_const] at hc
    rw [← hc]
    exact ih obs t (ht hc.symm)
  · next heq =>
    rw [heq, outcomeBlang_const] at hc
    rw [← hc]
    exact observed_nil env obs
  · split
    · next heq =>
      rw [heq] at hnil
      obtain ⟨v, hv⟩ := Outcome.isOk_iff.mp (hnil rfl)
      rw [hv, observed_nil]
      cases v with
      | false => rfl
      | true =>
        have := ih obs t (ht hv)
        rw [heq, observed_nil] at this
        exact this
    · rw [observed_when, hc]
      cases hv : outcomeBlang env c with
      | ok v =>
        cases v with
        | false => rfl
        | true => exact ih obs t (ht hv)
      | undefined | raised => rfl

theorem observed_simplify_if {c : Blang P} {e : Slang P}
    (h : ExactN env (n + 1) obs (.form l (.if_ c t e))) :
    observed env obs (simplifyN (n + 1) (.form l (.if_ c t e))) =
      observed env obs (.form l (.if_ c t e)) := by
  obtain ⟨hc, ht, he, heq⟩ := h
  have hc := ihBlang c hc
  -- the original term, with its branches simplified
  have hbranches : observed env obs (.form l (.if_ c t e)) =
      (outcomeBlang env c).bind fun b =>
        if b then observed env obs (simplifyN n t) else observed env obs (simplifyN n e) := by
    rw [observed_if]
    cases hv : outcomeBlang env c with
    | ok v =>
      cases v with
      | false => exact (ih obs e (he hv)).symm
      | true => exact (ih obs t (ht hv)).symm
    | undefined | raised => rfl
  rw [hbranches, simplifyN]
  generalize simplifyN n t = t' at heq ⊢
  generalize simplifyN n e = e' at heq ⊢
  split
  · next hconst =>
    rw [hconst, outcomeBlang_const] at hc
    rw [← hc]
    rfl
  · next hconst =>
    rw [hconst, outcomeBlang_const] at hc
    rw [← hc]
    rfl
  · rw [← hc]
    rw [combineIf.eq_def]
    split
    · rw [observed_blang, observed_blang, observed_blang]
      rcases outcomeBlang env (simplifyBlangN n c) with (_ | _) | _ | _ <;> rfl
    · rw [observed_blang, observed_blang, observed_blang, outcomeBlang_not]
      rcases outcomeBlang env (simplifyBlangN n c) with (_ | _) | _ | _ <;> rfl
    · split
      · next hequal =>
        obtain ⟨v, hv⟩ := Outcome.isOk_iff.mp (heq hequal)
        rw [hc, hv, Slang.eq_of_equal hequal]
        cases v <;> rfl
      · rw [observed_if]

omit ihBlang in
theorem observed_simplify_hasUndefinedVar (h : ExactN env n .definedness t) :
    observed env obs (simplifyN (n + 1) (.form l (.hasUndefinedVar t))) =
      observed env obs (.form l (.hasUndefinedVar t)) := by
  have ht := ih .definedness t h
  rw [observed_hasUndefinedVar, ← ht, simplifyN]
  split
  · next heq =>
    rw [heq, observed_blang, observed_blang, outcomeBlang_const, outcomeBlang_const]
    rfl
  · rw [observed_hasUndefinedVar]

omit ihBlang in
theorem observed_simplify_catchUndefinedVar {value fallback : Slang P}
    (h : ExactN env (n + 1) obs (.form l (.catchUndefinedVar value fallback))) :
    observed env obs (simplifyN (n + 1) (.form l (.catchUndefinedVar value fallback))) =
      observed env obs (.form l (.catchUndefinedVar value fallback)) := by
  obtain ⟨hv, hf⟩ := h
  have hv := ih obs value hv
  rw [observed_catchUndefinedVar, ← hv, simplifyN]
  split
  · next heq =>
    rw [heq, observed_blang, outcomeBlang_const]
    rfl
  · rw [observed_catchUndefinedVar]
    cases hk : outcome env value with
    | undefined => rw [ih obs fallback (hf hk)]
    | ok ds | raised => rw [hv, observed, hk]; rfl

variable {flattenNested : Blang P → Option (List (Blang P))} {bs : List (Blang P)}

omit ih in
theorem outcome_simplify_absorb (identity : Bool) {absorb : List (Blang P) → Form P}
    (habsorb : ∀ bs,
      outcome env (.form l (absorb bs)) = (loopOutcome false (!identity) false (bs.map
      (outcomeBlang env))).map boolValue)
    (hflat : Flattens env false (!identity) flattenNested)
    (hp : EachReached env false (!identity) (ExactBlangN env n) bs)
    (hdom : simplifyBlangs (simplifyBlangN n) flattenNested identity bs = none →
      Completed false (outcome env (.form l (absorb bs)))) :
    outcome env (combineAbsorb l identity absorb
        (simplifyBlangs (simplifyBlangN n) flattenNested identity bs)) =
      outcome env (.form l (absorb bs)) := by
  rw [habsorb] at hdom ⊢
  cases hr : simplifyBlangs (simplifyBlangN n) flattenNested identity bs with
  | none =>
    have hok := hdom hr
    rw [loopOutcome_dominated ihBlang hflat hp hr false, combineAbsorb, outcome_blang,
      outcomeBlang_const]
    · cases hl : loopOutcome false (!identity) false (bs.map (outcomeBlang env)) with
      | ok v | undefined => simp [Completed]
      | raised => rw [hl] at hok; exact absurd rfl hok.1
  | some out =>
    rw [← loopOutcome_simplifyBlangs ihBlang hflat hp hr false]
    rcases out with _ | ⟨b, _ | ⟨b', out⟩⟩
    · rw [combineAbsorb, outcome_blang, outcomeBlang_const]
      simp [loopOutcome]
    · rw [combineAbsorb, outcome_blang, List.map_singleton, loopOutcome_singleton]
    · exact habsorb _

omit ih in
theorem outcomeBlang_simplify_connective (identity : Bool) {connect : List (Blang P) → Blang P}
    (hconnect : ∀ bs,
      outcomeBlang env (connect bs) = loopOutcome true (!identity) false (bs.map
      (outcomeBlang env)))
    (hflat : Flattens env true (!identity) flattenNested)
    (hp : EachReached env true (!identity) (ExactBlangN env n) bs)
    (hdom : simplifyBlangs (simplifyBlangN n) flattenNested identity bs = none →
      Completed true (outcomeBlang env (connect bs))) :
    outcomeBlang env (combineConnective identity connect
        (simplifyBlangs (simplifyBlangN n) flattenNested identity bs)) =
      outcomeBlang env (connect bs)  := by
  rw [hconnect] at hdom ⊢
  cases hr : simplifyBlangs (simplifyBlangN n) flattenNested identity bs with
  | none =>
    rw [loopOutcome_dominated ihBlang hflat hp hr false (hdom hr), combineConnective,
      outcomeBlang_const]
  | some out =>
    rw [← loopOutcome_simplifyBlangs ihBlang hflat hp hr false]
    rcases out with _ | ⟨b, _ | ⟨b', out⟩⟩
    · rw [combineConnective, outcomeBlang_const]
      simp [loopOutcome]
    · rw [combineConnective, List.map_singleton, loopOutcome_singleton]
    · exact hconnect _

omit ihBlang in
theorem outcomeBlang_simplify_compare {op : Relop} (h : ExactBlangN env (n + 1) (.compare op x y)) :
    outcomeBlang env (simplifyBlangN (n + 1) (.compare op x y)) =
      outcomeBlang env (.compare op x y) := by
  obtain ⟨hx, hy, hxu, hyu⟩ := h
  rw [← outcomeBlang_compare_congr env op (ih _ _ hx) (ih _ _ hy), simplifyBlangN]
  generalize simplifyN n x = x' at hxu ⊢
  generalize simplifyN n y = y' at hyu ⊢
  rw [combineCompare.eq_def]
  split
  · exact absurd rfl hxu
  · exact absurd rfl hyu
  · next l r _ _ =>
    split
    · next s s' hl hr =>
      rw [outcomeBlang_compare_texts env .eq hl hr, Relop.eval_eq, compare_eq_iff,
        outcomeBlang_const]
    · next s s' hl hr =>
      rw [outcomeBlang_compare_texts env .neq hl hr, Relop.eval_neq, compare_eq_iff,
        outcomeBlang_const]
    · rfl
  · rfl

theorem outcomeBlang_simplify_expr (h : ExactBlangN env (n + 1) (.expr s)) :
    outcomeBlang env (simplifyBlangN (n + 1) (.expr s)) = outcomeBlang env (.expr s) := by
  by_cases hplain : s.isPlainExpr
  · rw [exactBlangN_expr hplain] at h
    obtain ⟨hs, hagain⟩ := h
    rw [simplifyBlangN_expr hplain, ← outcomeBlang_expr_congr env (ih _ _ hs)]
    generalize simplifyN n s = s' at hagain ⊢
    rw [combineExpr.eq_def]
    split
    · exact absurd hagain id
    · rw [outcomeBlang_expr_blang]
      exact ihBlang _ hagain
    · rfl
  · rcases s with _ | _ | sw | ⟨l, f⟩
    · exact absurd rfl hplain
    · exact absurd h id
    · rw [simplifyBlangN]
      split
      · next hs => rw [outcomeBlang_expr_text env hs, outcomeBlang_const]; rfl
      · next hs => rw [outcomeBlang_expr_text env hs, outcomeBlang_const]; rfl
      · rfl
    · cases f with
      | blang b =>
        rw [simplifyBlangN, outcomeBlang_expr_blang]
        exact ihBlang b h
      | _ => exact absurd rfl hplain

omit ih in
theorem outcomeBlang_simplify_not {b : Blang P} (h : ExactBlangN env n b) :
    outcomeBlang env (simplifyBlangN (n + 1) (.not b)) = outcomeBlang env (.not b) := by
  rw [outcomeBlang_not, ← ihBlang b h, simplifyBlangN]
  split
  · next heq => rw [heq, outcomeBlang_const, outcomeBlang_const]; rfl
  · next heq =>
    rw [heq, outcomeBlang_not, Outcome.map_map]
    simp only [Bool.not_not]
    cases outcomeBlang env _ <;> rfl
  · rw [outcomeBlang_not]

end

/-! ## The simplifier -/

/-- Simplification with any bound is invisible on the terms that are exact for it. -/
theorem simplifyN_sound (env : Env P Q) (n : Nat) :
    (∀ obs t, ExactN env n obs t → observed env obs (simplifyN n t) = observed env obs t) ∧
    ∀ b, ExactBlangN env n b → outcomeBlang env (simplifyBlangN n b) = outcomeBlang env b := by
  induction n with
  | zero =>
    constructor
    · intro obs t _
      rw [simplifyN]
    · intro b _
      rw [simplifyBlangN]
  | succ n ih =>
    obtain ⟨ih, ihBlang⟩ := ih
    constructor
    · intro obs t h
      rcases t with _ | _ | sw | ⟨l, f⟩
      · rw [simplifyN]
      · rw [simplifyN]
      · rw [simplifyN]
      · cases f with
        | concat xs =>
          rw [simplifyN]
          exact observed_concat l (fun x hx => ih .parts x (h.1 x hx)) h.2
        | when_ c t => exact observed_simplify_when ih ihBlang h
        | if_ c t e => exact observed_simplify_if ih ihBlang h
        | hasUndefinedVar t => exact observed_simplify_hasUndefinedVar ih h
        | catchUndefinedVar value fallback => exact observed_simplify_catchUndefinedVar ih h
        | andAbsorbUndefinedVar bs =>
          rw [simplifyN, observed, observed, outcome_simplify_absorb ihBlang true
            (outcome_andAbsorb env l) (flattens_andAbsorb env) h.1 h.2]
        | orAbsorbUndefinedVar bs =>
          rw [simplifyN, observed, observed, outcome_simplify_absorb ihBlang false
            (outcome_orAbsorb env l) (flattens_orAbsorb env) h.1 h.2]
        | blang b => rw [simplifyN, observed_blang, observed_blang, ihBlang b h]
    · intro b h
      cases b with
      | const v => rw [simplifyBlangN]
      | not b => exact outcomeBlang_simplify_not ihBlang h
      | expr s => exact outcomeBlang_simplify_expr ih ihBlang h
      | and bs =>
        rw [simplifyBlangN, outcomeBlang_simplify_connective ihBlang true
          (outcomeBlang_and env) (flattens_and env) h.1 h.2]
      | or bs =>
        rw [simplifyBlangN, outcomeBlang_simplify_connective ihBlang false
          (outcomeBlang_or env) (flattens_or env) h.1 h.2]
      | compare op x y => exact outcomeBlang_simplify_compare ih h

/-- Simplifying `t` is invisible to a context that observes `obs`. -/
def Exact (env : Env P Q) (obs : Obs) (t : Slang P) : Prop := ExactN env t.size obs t

/-- Simplifying the condition `b` is invisible. -/
def ExactBlang (env : Env P Q) (b : Blang P) : Prop := ExactBlangN env b.size b

/-- Evaluating a simplified term or condition gives the values, the undefined variable or the
exception that the original gives, wherever the simplification is exact. -/
theorem simplify_outcome (env : Env P Q) :
    (∀ obs t, Exact env obs t → observed env obs t.simplify = observed env obs t) ∧
    ∀ b, ExactBlang env b → outcomeBlang env b.simplify = outcomeBlang env b :=
  ⟨fun obs t => (simplifyN_sound env t.size).1 obs t, fun b => (simplifyN_sound env b.size).2 b⟩

/-- A package action environment in which every percent form has two values. -/
def twoValuesEnv : Env Unit Unit where
  expandPform _ := .ok (.ok [.string "a", .string "b"])
  stringOfPath _ := ""
  pathToString _ := ""
  comparePath _ _ := .eq

/-- A conditional under a concatenation, with a comparison that is decided by the simplifier. -/
theorem simplify_outcome_concat :
    observed twoValuesEnv .values (Slang.simplify (.form .none (.concat
        [.text "lib/", .nil, .form .none
          (.when_ (.compare .eq (.text "x") (.text "x")) (.pform ())) ]))) =
      observed twoValuesEnv .values (.form .none (.concat
        [.text "lib/", .nil, .form .none
          (.when_ (.compare .eq (.text "x") (.text "x")) (.pform ()))])) :=
  (simplify_outcome twoValuesEnv).1 .values _ (by
    refine ⟨?_, ?_⟩
    · intro x hx
      simp only [List.mem_cons, List.not_mem_nil, or_false] at hx
      rcases hx with rfl | rfl | rfl
      · trivial
      · trivial
      · exact ⟨⟨trivial, trivial, nofun, nofun⟩, fun _ => trivial, nofun⟩
    · intro _ sw hsw hq
      have hsw : .literal sw ∈ [Slang.text "lib/", Slang.pform ()] := hsw
      simp only [Slang.text, Slang.pform, List.mem_cons, Slang.literal.injEq, List.not_mem_nil,
        or_false] at hsw
      rcases hsw with rfl | rfl
      · nofun
      · exact absurd rfl hq)

/-- `Undefined` in a condition is an error, and false after simplification. A condition that fails
is dropped where a later operand decides, and where there is nothing to choose. -/
theorem simplify_outcome_undefined :
    (observed twoValuesEnv .values (.form .none (.blang (.expr .undefined))) = .raised ∧
      observed twoValuesEnv .values (Slang.simplify (.form .none (.blang (.expr .undefined)))) =
        .ok [.string "false"]) ∧
    (outcomeBlang twoValuesEnv (.and [.expr (.pform ()), .const false]) = .raised ∧
      outcomeBlang twoValuesEnv (Blang.simplify (.and [.expr (.pform ()), .const false])) =
        .ok false) ∧
    observed twoValuesEnv .values (.form .none (.when_ (.expr (.pform ())) .nil)) = .raised ∧
      observed twoValuesEnv .values
        (Slang.simplify (.form .none (.when_ (.expr (.pform ())) .nil))) = .ok [] :=
  ⟨⟨rfl, rfl⟩, ⟨rfl, rfl⟩, rfl, rfl⟩

end

end

end Dune.Rules
