import Dune.Pkg.FilterAgrees

/-!
# The translation of opam filters

Where `Agrees` holds, the simplified translation of a filter has the outcome that opam computes; in
positive positions an undefined value may have become false (`filterToBlang_matches`). So it is true
exactly when opam's evaluation of the filter is true (`filterToBlang_true_iff`).
-/

namespace Dune.Pkg

open Dune.Stdune Dune.Lang Dune.Rules Opam Blang

/-! ## The simplifier only looks at the simplified parts of a condition -/

section
variable {b b' l l' r r' : Blang OpamPform}

theorem simplify_eq_of_bound (m : Nat)
    (h : ∀ n, m ≤ n → simplifyBlangN (n + 1) b = simplifyBlangN (n + 1) b') :
    b.simplify = b'.simplify := by
  have hn := h (m + b.size + b'.size) (by omega)
  rwa [simplifyBlangN_eq (by omega), simplifyBlangN_eq (by omega)] at hn

theorem simplifyN_eq_of_bound {s s' : Slang OpamPform} (m : Nat)
    (h : ∀ n, m ≤ n → simplifyN (n + 1) s = simplifyN (n + 1) s') : s.simplify = s'.simplify := by
  have hn := h (m + s.size + s'.size) (by omega)
  rwa [simplifyN_eq (by omega), simplifyN_eq (by omega)] at hn

theorem simplify_not_congr (h : b.simplify = b'.simplify) :
    (not b).simplify = (not b').simplify := by
  refine simplify_eq_of_bound (b.size + b'.size) fun n hn => ?_
  rw [simplifyBlangN, simplifyBlangN, simplifyBlangN_eq (by omega), simplifyBlangN_eq (by omega), h]

theorem simplify_compare_eq (op : Relop) (x y : Slang OpamPform) :
    (compare op x y).simplify = combineCompare op x.simplify y.simplify := by
  have hn : (compare op x y).simplify = simplifyBlangN (x.size + y.size + 1) (.compare op x y) :=
    (simplifyBlangN_eq (Nat.le_refl _)).symm
  rw [hn, simplifyBlangN, simplifyN_eq (by omega), simplifyN_eq (by omega)]

/-- A condition made of a term that is no literal and no condition itself. -/
theorem simplify_expr_congr {s s' : Slang OpamPform} (hs : s.isPlainExpr = true)
    (hs' : s'.isPlainExpr = true) (h : s.simplify = s'.simplify) :
    (expr s).simplify = (expr s').simplify := by
  refine simplify_eq_of_bound (s.size + s'.size) fun n hn => ?_
  rw [simplifyBlangN_expr hs, simplifyBlangN_expr hs', simplifyN_eq (by omega),
    simplifyN_eq (by omega), h]

theorem simplifyBlangs_two_congr {simp1 : Blang OpamPform → Blang OpamPform}
    {flattenNested : Blang OpamPform → Option (List (Blang OpamPform))} {identity : Bool}
    (hl : simp1 l = simp1 l') (hr : simp1 r = simp1 r') :
    simplifyBlangs simp1 flattenNested identity [l, r] =
      simplifyBlangs simp1 flattenNested identity [l', r'] := by
  simp only [simplifyBlangs, optionConcatMap, hl, hr]

/-- The absorbing connective with the given neutral element. -/
def absorbing (identity : Bool) (bs : List (Blang OpamPform)) : Form OpamPform :=
  if identity then .andAbsorbUndefinedVar bs else .orAbsorbUndefinedVar bs

theorem simplify_absorbing_congr (loc : Loc) (identity : Bool) (hl : l.simplify = l'.simplify)
    (hr : r.simplify = r'.simplify) :
    (expr (.form loc (absorbing identity [l, r]))).simplify =
      (expr (.form loc (absorbing identity [l', r']))).simplify := by
  refine simplify_expr_congr (by cases identity <;> rfl) (by cases identity <;> rfl) ?_
  refine simplifyN_eq_of_bound (l.size + l'.size + r.size + r'.size) fun n hn => ?_
  have hl : simplifyBlangN n l = simplifyBlangN n l' := by
    rw [simplifyBlangN_eq (by omega), simplifyBlangN_eq (by omega), hl]
  have hr : simplifyBlangN n r = simplifyBlangN n r' := by
    rw [simplifyBlangN_eq (by omega), simplifyBlangN_eq (by omega), hr]
  cases identity with
  | true =>
    simp only [absorbing, if_true, simplifyN]
    rw [simplifyBlangs_two_congr hl hr]
  | false =>
    simp only [absorbing, Bool.false_eq_true, if_false, simplifyN]
    rw [simplifyBlangs_two_congr hl hr]

theorem simplify_hasUndefinedVar_congr (loc : Loc) (h : b.simplify = b'.simplify) :
    (expr (.form loc (.hasUndefinedVar (.form loc (.blang b))))).simplify =
      (expr (.form loc (.hasUndefinedVar (.form loc (.blang b'))))).simplify := by
  refine simplify_expr_congr rfl rfl (simplifyN_eq_of_bound (b.size + b'.size + 1) fun n hn => ?_)
  obtain ⟨n, rfl⟩ := Nat.exists_eq_add_of_le' (Nat.le_of_add_left_le hn)
  simp only [simplifyN, simplifyBlangN_eq (show b.size ≤ n by omega),
    simplifyBlangN_eq (show b'.size ≤ n by omega), h]

end

/-! ## Outcomes -/

section
variable {σ : Assignment} {inSolution : String → Bool} {lib : OpamLib}

/-- The outcome of a filter: its boolean, or undefined. -/
def reducedOutcome (r : Opam.Reduced) : Outcome Bool :=
  match definedBool r with
  | some b => .ok b
  | none => .undefined

/-- The outcome of a translation matches that of the filter. In a positive position an undefined
value may have become false. -/
def Matches (positive : Bool) (translated filter : Outcome Bool) : Prop :=
  translated = filter ∨ positive = true ∧ translated = .ok false ∧ filter = .undefined

/-- A value in the place of a boolean. -/
def IsBoolean (r : Opam.Reduced) : Prop := r = .undefined ∨ (definedBool r).isSome = true

theorem isBoolean_logop1 (op : Bool → Bool) (r : Opam.Reduced) : IsBoolean (logop1 op r) := by
  unfold logop1
  split
  · exact .inr rfl
  · exact .inl rfl

theorem isBoolean_logop2 (op : Bool → Bool → Bool) (absorb : Bool) (r r' : Opam.Reduced) :
    IsBoolean (logop2 op absorb r r') := by
  unfold logop2
  split
  · exact .inr rfl
  split
  · exact .inr rfl
  split
  · exact .inr rfl
  · exact .inl rfl

variable {r l : Opam.Reduced} {positive : Bool} {fident : Fident} {f : Filter}
  {slang : Slang OpamPform} {loc : Loc} {package : String} {b : Blang OpamPform}

theorem reducedOutcome_eq_undefined (h : IsBoolean r) :
    reducedOutcome r = .undefined ↔ r = .undefined := by
  rcases h with rfl | h
  · exact ⟨fun _ => rfl, fun _ => rfl⟩
  · obtain ⟨b, hb⟩ := Option.isSome_iff_exists.mp h
    rw [reducedOutcome, hb]
    refine ⟨nofun, ?_⟩
    rintro rfl
    cases hb

theorem definedBool_eq_some {b : Bool} (h : definedBool r = some b) :
    r = .bool b ∨ r = .string (stringOfBool b) := by
  cases r with
  | bool b' =>
    cases h
    exact .inl rfl
  | string s =>
    have hs : boolOfValue (.s s) = some b := h
    have hsingle := boolOfValue_single hs
    rw [← Option.some.inj hsingle]
    exact .inr rfl
  | undefined => cases h

attribute [local simp] loopOutcome reducedOutcome definedBool

/-- Opam's connectives are the loops of the absorbing connectives. -/
theorem reducedOutcome_logop2 {op : Bool → Bool → Bool} {absorb : Bool}
    (hop : ∀ x y, op x y = if x = absorb then absorb else if y = absorb then absorb else !absorb)
    (hl : IsBoolean l) (hr : IsBoolean r)
    (hlstring : l = .string (stringOfBool absorb) → r ≠ .undefined)
    (hrstring : r = .string (stringOfBool absorb) → l ≠ .undefined) :
    reducedOutcome (logop2 op absorb l r) =
      loopOutcome false absorb false [reducedOutcome l, reducedOutcome r] := by
  rw [logop2]
  -- beside an undefined value, a defined one decides only if it is the absorbing boolean
  have hbeside {v : Opam.Reduced} (hv : (definedBool v).isSome = true)
      (hstring : v ≠ .string (stringOfBool absorb)) :
      v = .bool absorb ∨ v ≠ .bool absorb ∧ reducedOutcome v = .ok !absorb := by
    obtain ⟨y, hy⟩ := Option.isSome_iff_exists.mp hv
    rcases definedBool_eq_some hy with rfl | rfl
    · cases y <;> cases absorb <;> simp
    · cases y <;> cases absorb <;> simp_all [reducedOutcome]
  rcases hl with rfl | hl <;> rcases hr with rfl | hr
  · rfl
  · rcases hbeside hr fun h => hrstring h rfl with rfl | ⟨hne, hout⟩
    · simp
    · rw [hout]
      simp [hne]
  · rcases hbeside hl fun h => hlstring h rfl with rfl | ⟨hne, hout⟩
    · simp
    · rw [hout]
      simp [hne]
  · obtain ⟨x, hx⟩ := Option.isSome_iff_exists.mp hl
    obtain ⟨y, hy⟩ := Option.isSome_iff_exists.mp hr
    have houtl : reducedOutcome l = .ok x := by rw [reducedOutcome, hx]
    have houtr : reducedOutcome r = .ok y := by rw [reducedOutcome, hy]
    rw [houtl, houtr]
    have hloop : loopOutcome false absorb false [.ok x, .ok y] = .ok (op x y) := by
      rw [hop]
      by_cases hxabsorb : x = absorb
      · simp [hxabsorb]
      · by_cases hyabsorb : y = absorb <;> simp [hxabsorb, hyabsorb]
    rw [hloop]
    split
    · next hbool =>
      rw [hbool] at hy
      cases hy
      rw [hop]
      simp
    split
    · next hbool =>
      rw [hbool] at hx
      cases hx
      rw [hop]
      simp
    · simp only [hx, hy]
      rfl

theorem Matches.loop (decisive : Bool) {d d' o o' : Outcome Bool} (h : Matches positive d o)
    (h' : Matches positive d' o') (ho : o ≠ .raised) (ho' : o' ≠ .raised) :
    Matches positive (loopOutcome false decisive false [d, d'])
      (loopOutcome false decisive false [o, o']) := by
  rcases h with rfl | ⟨rfl, rfl, rfl⟩ <;> rcases h' with rfl | ⟨hpos, rfl, rfl⟩
  · exact .inl rfl
  · subst hpos
    cases d with
    | ok b => cases b <;> cases decisive <;> simp [Matches]
    | undefined => cases decisive <;> simp [Matches]
    | raised => exact absurd rfl ho
  · cases d' with
    | ok b => cases b <;> cases decisive <;> simp [Matches]
    | undefined => cases decisive <;> simp [Matches]
    | raised => exact absurd rfl ho'
  · cases decisive <;> simp [Matches]

theorem reducedOutcome_ne_raised (r : Opam.Reduced) : reducedOutcome r ≠ .raised := by
  unfold reducedOutcome
  split
  · exact Outcome.ok_ne_raised
  · exact Outcome.undefined_ne_raised

theorem isBoolean_fIdent (hplain : PlainValue σ inSolution lib fident)
    (hbool : ∀ c, resolveIdentRaw (σ.opamEnv inSolution) fident = some c →
      (boolOfValue c).isSome = true) :
    IsBoolean (reduce lib (σ.opamEnv inSolution) (.fIdent fident)) := by
  rw [reduce, hplain]
  cases hc : resolveIdentRaw (σ.opamEnv inSolution) fident with
  | none =>
    rw [resolveIdent, hc]
    exact .inl rfl
  | some c =>
    have hc' := hbool c hc
    rw [resolveIdent, hc]
    refine .inr ?_
    rcases c with value | value | (_ | ⟨value, _ | _⟩)
    · rfl
    · exact hc'
    · cases hc'
    · exact hc'
    · cases hc'

theorem reduce_absentVersion (h : IsAbsentVersion inSolution fident) :
    reduce lib (σ.opamEnv inSolution) (.fIdent fident) = .undefined := by
  obtain ⟨p, hdesugar, hp⟩ := h
  rw [reduce, resolveIdent, resolveIdentRaw, hdesugar]
  simp [resolvePackages, resolve, Assignment.opamEnv, Assignment.ofPackage, hp,
    expanded]

theorem isBoolean_relop (op : Relop) (l r : Opam.Reduced) : IsBoolean (relop lib op l r) := by
  unfold relop
  split
  · exact .inl rfl
  · exact .inl rfl
  · exact .inr rfl

theorem Agrees.isBoolean (h : Agrees σ inSolution lib positive f) :
    IsBoolean (reduce lib (σ.opamEnv inSolution) f) := by
  cases f with
  | fBool b => exact .inr rfl
  | fString s => exact .inr h.2
  | fIdent fident =>
    rcases h with ⟨-, habsent⟩ | ⟨⟨-, -, hplain⟩, hbool⟩
    · exact .inl (reduce_absentVersion habsent)
    · exact isBoolean_fIdent hplain hbool
  | fOp l op r => exact isBoolean_relop op _ _
  | fAnd l r | fOr l r => exact isBoolean_logop2 _ _ _ _
  | fNot f => exact isBoolean_logop1 _ _
  | fDefined f => exact .inr rfl
  | fUndef f => exact .inl rfl

/-! ## The translation, case by case -/

/-- What the translation of a filter means, once it is simplified. -/
def Sound (σ : Assignment) (packagesInSolution : String → Bool) (positive : Bool)
    (b : Blang OpamPform) (r : Opam.Reduced) : Prop :=
  ∃ b', b.simplify = b'.simplify ∧ CleanBlang (σ.expander packagesInSolution) b' ∧
    Matches positive (outcomeBlang (σ.expander packagesInSolution) b') (reducedOutcome r)

theorem outcomeBlang_expr_operand (hr : IsBoolean r)
    (h : observed (σ.expander inSolution) .values slang = operandValues r) :
    outcomeBlang (σ.expander inSolution) (.expr slang) = reducedOutcome r := by
  rw [outcomeBlang_expr_observed, h]
  rcases hr with rfl | hr
  · rfl
  · obtain ⟨b, hb⟩ := Option.isSome_iff_exists.mp hr
    rcases definedBool_eq_some hb with rfl | rfl
    all_goals cases b <;> rfl

theorem sound_fString {s : String} (hagree : Agrees σ inSolution lib positive (.fString s))
    (h : opamStringToSlang inSolution loc lib package s = .ok slang) :
    Sound σ inSolution positive (.expr slang)
      (reduce lib (σ.opamEnv inSolution) (.fString s)) := by
  obtain ⟨slang', hsimplify, hclean, hvalues, hplain⟩ := operand_fString hagree.1 h
  have hout := outcomeBlang_expr_operand hagree.isBoolean hvalues
  have hplain : slang'.isPlainExpr = true := by
    rcases hplain with hempty | hplain
    · have hbool := hagree.2
      rw [hempty] at hbool
      cases hbool
    · exact hplain
  have hslang : slang.isPlainExpr = true := by
    obtain ⟨slangs, -, h⟩ := bind_ok h
    cases h
    rfl
  refine ⟨.expr slang', simplify_expr_congr hslang hplain hsimplify, ⟨hclean, ?_⟩, .inl hout⟩
  rw [hout]
  exact reducedOutcome_ne_raised _

theorem sound_fIdent (hagree : Agrees σ inSolution lib positive (.fIdent fident))
    (h : opamFidentToSlang inSolution loc false fident = .ok slang) :
    Sound σ inSolution positive (.expr slang)
      (reduce lib (σ.opamEnv inSolution) (.fIdent fident)) := by
  have hboolean := hagree.isBoolean
  rcases hagree with ⟨hpositive, habsent⟩ | ⟨hoperand, hbool⟩
  · obtain ⟨rfl, -⟩ := opamFidentToSlang_absentVersion (σ := σ) habsent h
    rw [reduce_absentVersion habsent]
    exact ⟨.const false, rfl, trivial, .inr ⟨hpositive, outcomeBlang_const _ _, rfl⟩⟩
  · obtain ⟨hclean, hvalues⟩ := operand_fIdent hoperand h
    have hout := outcomeBlang_expr_operand hboolean hvalues
    refine ⟨.expr slang, rfl, ⟨hclean, ?_⟩, .inl hout⟩
    rw [hout]
    exact reducedOutcome_ne_raised _

theorem operand_agrees (hagree : OperandAgrees σ inSolution lib f)
    (h : filterToSlang inSolution loc lib package f = .ok slang) :
    ∃ slang', slang.simplify = slang'.simplify ∧
      CleanSlang (σ.expander inSolution) slang' ∧
      observed (σ.expander inSolution) .values slang' =
        operandValues (reduce lib (σ.opamEnv inSolution) f) := by
  cases f with
  | fString s =>
    obtain ⟨slang', hsimplify, hclean, hvalues, -⟩ := operand_fString hagree h
    exact ⟨slang', hsimplify, hclean, hvalues⟩
  | fIdent fident =>
    obtain ⟨hclean, hvalues⟩ := operand_fIdent hagree h
    exact ⟨slang, rfl, hclean, hvalues⟩
  | _ => exact hagree.elim

theorem operand_absentVersion (habsent : OperandIsAbsentVersion inSolution f)
    (h : filterToSlang inSolution loc lib package f = .ok slang) :
    slang = .undefined ∧ reduce lib (σ.opamEnv inSolution) f = .undefined := by
  cases f with
  | fIdent fident =>
    exact ⟨(opamFidentToSlang_absentVersion (σ := σ) habsent h).1, reduce_absentVersion habsent⟩
  | _ => exact habsent.elim

theorem combineCompare_undefined_left (op : Relop) (y : Slang OpamPform) :
    combineCompare op .undefined y = .const false := by
  cases y <;> rfl

theorem combineCompare_undefined_right (op : Relop) (x : Slang OpamPform) :
    combineCompare op x .undefined = .const false := by
  cases x <;> rfl

theorem compareValsL_single (env : Env OpamPform Empty) (s s' : String) :
    Value.compareValsL env [.string s] [.string s'] = compare s s' :=
  Value.compareValsL_singleton env (.string s) (.string s')

theorem compare_operands {op : Relop}
    (h : l ≠ .undefined → r ≠ .undefined → op.eval (compare (valueString l) (valueString r)) =
      op.eval (lib.versionCompare (valueString l) (valueString r))) :
    Outcome.both (fun vs ws => op.eval (Value.compareValsL (σ.expander inSolution) vs ws))
        (operandValues l) (operandValues r) =
      reducedOutcome (relop lib op l r) := by
  have hdefined : ∀ {l r}, l ≠ .undefined → r ≠ .undefined → relop lib op l r =
      .bool (op.eval (lib.versionCompare (valueString l) (valueString r))) := by
    intro l r hl hr
    cases l <;> cases r <;> first | rfl | contradiction
  have hvalues : ∀ {r}, r ≠ .undefined → operandValues r = .ok [.string (valueString r)] := by
    intro r hr
    cases r <;> first | rfl | contradiction
  by_cases hl : l = .undefined
  · subst hl
    cases r <;> rfl
  by_cases hr : r = .undefined
  · subst hr
    cases l <;> rfl
  rw [hdefined hl hr, hvalues hl, hvalues hr, ← h hl hr, ← compareValsL_single]
  rfl

theorem sound_fOp {l r : Filter} {op : Relop} {x y : Slang OpamPform}
    (hagree : Agrees σ inSolution lib positive (.fOp l op r))
    (hx : filterToSlang inSolution loc lib package l = .ok x)
    (hy : filterToSlang inSolution loc lib package r = .ok y) :
    Sound σ inSolution positive (.compare op x y)
      (reduce lib (σ.opamEnv inSolution) (.fOp l op r)) := by
  rw [reduce]
  rcases hagree with ⟨hpositive, habsent | habsent⟩ | ⟨hl, hr, hcompare⟩
  · obtain ⟨rfl, hundefined⟩ := operand_absentVersion (σ := σ) habsent hx
    refine ⟨.const false, ?_, trivial, .inr ⟨hpositive, outcomeBlang_const _ _, ?_⟩⟩
    · rw [simplify_compare_eq]
      exact combineCompare_undefined_left op _
    · rw [hundefined]
      rfl
  · obtain ⟨rfl, hundefined⟩ := operand_absentVersion (σ := σ) habsent hy
    refine ⟨.const false, ?_, trivial, .inr ⟨hpositive, outcomeBlang_const _ _, ?_⟩⟩
    · rw [simplify_compare_eq]
      exact combineCompare_undefined_right op _
    · rw [hundefined]
      cases reduce lib (σ.opamEnv inSolution) l <;> rfl
  · obtain ⟨x', hx', hcleanx, hvaluesx⟩ := operand_agrees hl hx
    obtain ⟨y', hy', hcleany, hvaluesy⟩ := operand_agrees hr hy
    refine ⟨.compare op x' y', ?_, ⟨hcleanx, hcleany⟩, .inl ?_⟩
    · rw [simplify_compare_eq, simplify_compare_eq, hx', hy']
    · rw [outcomeBlang_compare_observed, hvaluesx, hvaluesy]
      exact compare_operands hcompare

theorem Sound.absorbing (identity : Bool) {b' : Blang OpamPform} {s : Opam.Reduced}
    (hl : Sound σ inSolution positive b l) (hr : Sound σ inSolution positive b' r)
    (hs : reducedOutcome s =
      loopOutcome false (!identity) false [reducedOutcome l, reducedOutcome r]) :
    Sound σ inSolution positive (.expr (.form .none (absorbing identity [b, b']))) s := by
  obtain ⟨c, hsimplify, hclean, hmatches⟩ := hl
  obtain ⟨c', hsimplify', hclean', hmatches'⟩ := hr
  have hout : outcomeBlang (σ.expander inSolution)
      (.expr (.form .none (Pkg.absorbing identity [c, c']))) =
      loopOutcome false (!identity) false [outcomeBlang (σ.expander inSolution) c,
        outcomeBlang (σ.expander inSolution) c'] := by
    rw [outcomeBlang_expr, Pkg.absorbing]
    cases identity with
    | true =>
      rw [if_pos rfl, outcome_andAbsorb, toBoolOutcome_boolValue]
      rfl
    | false =>
      rw [if_neg (by decide), outcome_orAbsorb, toBoolOutcome_boolValue]
      rfl
  have hmatch := hmatches.loop (!identity) hmatches' (reducedOutcome_ne_raised l)
    (reducedOutcome_ne_raised r)
  rw [← hs, ← hout] at hmatch
  refine ⟨_, simplify_absorbing_congr .none identity hsimplify hsimplify', ⟨?_, ?_⟩, hmatch⟩
  · cases identity <;> exact ⟨hclean, hclean', trivial⟩
  · rcases hmatch with h | ⟨-, h, -⟩
    · rw [h]
      exact reducedOutcome_ne_raised _
    · rw [h]
      exact Outcome.ok_ne_raised

section

variable (h : Sound σ inSolution false b r)
include h

theorem Sound.strict :
    ∃ b', b.simplify = b'.simplify ∧ CleanBlang (σ.expander inSolution) b' ∧
      outcomeBlang (σ.expander inSolution) b' = reducedOutcome r := by
  obtain ⟨b', hsimplify, hclean, hout | ⟨hpositive, -⟩⟩ := h
  · exact ⟨b', hsimplify, hclean, hout⟩
  · cases hpositive

theorem Sound.not : Sound σ inSolution positive (.not b) (logop1 (!·) r) := by
  obtain ⟨b', hsimplify, hclean, hout⟩ := h.strict
  refine ⟨.not b', simplify_not_congr hsimplify, hclean, .inl ?_⟩
  rw [outcomeBlang_not, hout, reducedOutcome, logop1]
  cases definedBool r <;> rfl

end

theorem Sound.defined (hr : IsBoolean r) (h : Sound σ inSolution false b r) :
    Sound σ inSolution positive
      (.not (.expr (.form .none (.hasUndefinedVar (.form .none (.blang b))))))
      (.bool (decide (r ≠ .undefined))) := by
  obtain ⟨b', hsimplify, hclean, hout⟩ := h.strict
  have hdefined : outcomeBlang (σ.expander inSolution)
      (.expr (.form .none (.hasUndefinedVar (.form .none (.blang b'))))) =
      .ok (decide (r = .undefined)) := by
    rw [outcomeBlang_expr, outcome_hasUndefinedVar, outcome_blang, hout]
    by_cases h : r = .undefined
    · rw [(reducedOutcome_eq_undefined hr).mpr h, decide_eq_true h]
      rfl
    · have hne : reducedOutcome r ≠ .undefined :=
        fun hu => h ((reducedOutcome_eq_undefined hr).mp hu)
      rw [decide_eq_false h]
      cases ho : reducedOutcome r with
      | ok b => rfl
      | undefined => exact absurd ho hne
      | raised => exact absurd ho (reducedOutcome_ne_raised r)
  refine ⟨_, simplify_not_congr (simplify_hasUndefinedVar_congr .none hsimplify), ⟨hclean, ?_⟩,
    .inl ?_⟩
  · rw [hdefined]
    nofun
  · rw [outcomeBlang_not, hdefined]
    by_cases h : r = .undefined <;> simp [h, Outcome.map]

theorem filterToBlang_matches
    (hagree : Agrees σ inSolution lib positive f)
    (h : filterToBlang inSolution loc lib package f = .ok b) :
    Sound σ inSolution positive b (reduce lib (σ.opamEnv inSolution) f) := by
  induction f generalizing positive b with
  | fBool value =>
    cases h
    exact ⟨.const value, rfl, trivial, .inl (outcomeBlang_const _ _)⟩
  | fString s =>
    obtain ⟨slang, hslang, h⟩ := bind_ok h
    cases h
    exact sound_fString hagree hslang
  | fIdent fident =>
    obtain ⟨slang, hslang, h⟩ := bind_ok h
    cases h
    exact sound_fIdent hagree hslang
  | fOp l op r =>
    obtain ⟨x, hx, h⟩ := bind_ok h
    obtain ⟨y, hy, h⟩ := bind_ok h
    cases h
    exact sound_fOp hagree hx hy
  | fAnd l r ihl ihr =>
    obtain ⟨hl, hr, habsorb⟩ := hagree
    obtain ⟨x, hx, h⟩ := bind_ok h
    obtain ⟨y, hy, h⟩ := bind_ok h
    cases h
    refine (ihl hl hx).absorbing true (ihr hr hy) ?_
    exact reducedOutcome_logop2 (by decide) hl.isBoolean hr.isBoolean habsorb.1 habsorb.2
  | fOr l r ihl ihr =>
    obtain ⟨hl, hr, habsorb⟩ := hagree
    obtain ⟨x, hx, h⟩ := bind_ok h
    obtain ⟨y, hy, h⟩ := bind_ok h
    cases h
    refine (ihl hl hx).absorbing false (ihr hr hy) ?_
    exact reducedOutcome_logop2 (by decide) hl.isBoolean hr.isBoolean habsorb.1 habsorb.2
  | fNot f ih =>
    obtain ⟨x, hx, h⟩ := bind_ok h
    cases h
    exact (ih hagree hx).not
  | fDefined f ih =>
    obtain ⟨x, hx, h⟩ := bind_ok h
    cases h
    exact (ih hagree hx).defined (Agrees.isBoolean hagree)
  | fUndef f => exact hagree.elim

theorem evalBlang_eq_ok_iff {env : Env OpamPform Empty} {value : Bool} :
    evalBlang env b = .ok value ↔ outcomeBlang env b = .ok value := by
  rw [evalBlang, outcomeBlang]
  rcases evalBlangRec env b with e | (u | x)
  · constructor <;> intro h <;> cases h
  · constructor <;> intro h <;> cases h
  · constructor
    all_goals
      intro h
      cases h
      rfl

end

section
variable {σ : Assignment} {packagesInSolution : String → Bool} {lib : OpamLib}

/-- The simplified translation of a filter is true where opam's evaluation of the filter is. -/
theorem filterToBlang_true_iff {loc : Loc} {package : String} {f : Filter} {b : Blang OpamPform}
    (hagree : Agrees σ packagesInSolution lib true f)
    (h : filterToBlang packagesInSolution loc lib package f = .ok b) :
    evalBlang (σ.expander packagesInSolution) b.simplify = .ok true ↔
      evalToBool lib (σ.opamEnv packagesInSolution) f = true := by
  obtain ⟨b', hsimplify, hclean, hmatches⟩ := filterToBlang_matches hagree h
  rw [hsimplify, evalBlang_eq_ok_iff, outcomeBlang_simplify_clean hclean, evalToBool]
  rcases hmatches with hout | ⟨-, hout, hundefined⟩
  · rw [hout, reducedOutcome]
    cases definedBool (reduce lib (σ.opamEnv packagesInSolution) f) <;> simp
  · rw [hout]
    rw [reducedOutcome] at hundefined
    split at hundefined
    · cases hundefined
    · next hnone => simp [hnone]

end

/-- Strings without interpolations, and versions compared as strings. -/
def plainLib : OpamLib where
  split s := [.text s]
  versionCompare := compare

/-- An assignment in which only `with-test` of the package itself is defined. -/
def withTest : Assignment where
  global _ := none
  self name := if name = "with-test" then some (.b true) else none
  package _ _ := none

/-- `with-test & !bar:installed | foo:version = "1"`. -/
def withTestFilter : Filter :=
  .fOr (.fAnd (.fIdent ⟨[], "with-test", none⟩) (.fNot (.fIdent ⟨[some "bar"], "installed", none⟩)))
    (.fOp (.fIdent ⟨[some "foo"], "version", none⟩) .eq (.fString "1"))

theorem agrees_withTestFilter : Agrees withTest (fun _ => false) plainLib true withTestFilter := by
  refine ⟨⟨.inr ⟨⟨?_, ⟨rfl, ?_, nofun⟩, rfl⟩, ?_⟩, .inr ⟨⟨?_, ⟨rfl, ?_, nofun⟩, rfl⟩, ?_⟩, nofun,
    nofun⟩,
    .inl ⟨rfl, .inl ⟨"foo", rfl, rfl⟩⟩, nofun, nofun⟩
  · rintro ⟨p, h, -⟩
    cases h
  · rintro c ⟨⟩
    rfl
  · rintro c ⟨⟩
    rfl
  · rintro ⟨p, h, -⟩
    have hname : "installed" = "version" := congrArg Fident.variableName h
    exact absurd hname (by decide)
  · rintro c ⟨⟩
    rfl
  · rintro c ⟨⟩
    rfl

theorem filterToBlang_true_iff_withTest :
    ∃ b, filterToBlang (fun _ => false) .none plainLib "p" withTestFilter = .ok b ∧
      (evalBlang (withTest.expander fun _ => false) b.simplify = .ok true ↔
        evalToBool plainLib (withTest.opamEnv fun _ => false) withTestFilter = true) :=
  ⟨_, rfl, filterToBlang_true_iff agrees_withTestFilter
    (show filterToBlang (fun _ => false) .none plainLib "p" withTestFilter = _ from rfl)⟩

/-- Below a negation, a comparison with the version of an absent package is false for Dune and
undefined for opam: `!(foo:version = "1")`. -/
theorem filterToBlang_not_absentVersion :
    ∃ b, filterToBlang (fun _ => false) .none plainLib "p"
        (.fNot (.fOp (.fIdent ⟨[some "foo"], "version", none⟩) .eq (.fString "1"))) = .ok b ∧
      evalBlang (withTest.expander fun _ => false) b.simplify = .ok true ∧
      evalToBool plainLib (withTest.opamEnv fun _ => false)
        (.fNot (.fOp (.fIdent ⟨[some "foo"], "version", none⟩) .eq (.fString "1"))) = false :=
  ⟨_, rfl, rfl, rfl⟩

end Dune.Pkg
