import Dune.Pkg.LockPkg
import Dune.Rules.SimplifyClean

/-!
# Where the translation of opam filters agrees with opam

`Agrees` lists what the evaluation of a filter must not depend on for its translation to mean the
same: on the difference between versions and strings in comparisons, on strings in the place of
booleans, on undefined variables inside strings, and on the version of an absent package below a
negation or a definedness test. This module has the conditions and the lemmas about identifiers and
strings.
-/

namespace Dune.Pkg

open List Dune.Stdune Dune.Lang Dune.Rules Opam Assignment

/-- The string of a value that is one. -/
def Contents.single : Contents → Option String
  | .b value => some (stringOfBool value)
  | .s value => some value
  | .l [value] => some value
  | .l _ => none

section
variable (σ : Assignment) (packagesInSolution : String → Bool)

/-- The version of a package that is absent from the solution, outside a string converter. -/
def IsAbsentVersion (fident : Fident) : Prop :=
  ∃ p, desugarFident fident = ⟨[some p], "version", none⟩ ∧ packagesInSolution p = false

section

variable (packages : List (Option String))

/-- The variable has at most one string as its value. -/
def SingleValued (name : String) : Prop :=
  ∀ c, resolvePackages (σ.opamEnv packagesInSolution) name packages = some c →
    c.single.isSome = true

/-- A variable of several packages: a boolean wherever it is defined, and `true` as a boolean after
a package for which it is undefined. -/
def ManyAgree (name : String) : Prop :=
  (∀ p ∈ packages, ∀ c, resolve (σ.opamEnv packagesInSolution) name p = some c →
    (boolOfValue c).isSome = true) ∧
  packages.Pairwise (fun p p' => resolve (σ.opamEnv packagesInSolution) name p = none →
    resolve (σ.opamEnv packagesInSolution) name p' = none ∨
      resolve (σ.opamEnv packagesInSolution) name p' = some (.b true)) ∧
  (name = "version" → ∀ p, some p ∈ packages → packagesInSolution p = true)

/-- A variable before any string converter. -/
def VariableAgrees (name : String) : Prop :=
  match packages with
  | _ :: _ :: _ => ManyAgree σ packagesInSolution packages name
  | _ => SingleValued σ packagesInSolution packages name

end

/-- An identifier whose translation means the same. A converter needs a boolean. -/
def IdentAgrees (fident : Fident) : Prop :=
  let fident := desugarFident fident
  desugarSpecialStringInterpolationSyntax fident = fident ∧
    VariableAgrees σ packagesInSolution fident.packages fident.variableName ∧
    (fident.converter.isSome = true → ∀ c,
      resolvePackages (σ.opamEnv packagesInSolution) fident.variableName fident.packages =
        some c → (boolOfValue c).isSome = true)

/-- A piece of a string: the variable of an interpolation must be defined, unless it is the version
of an absent package. -/
def PieceAgrees : Piece → Prop
  | .interp fident =>
    IsAbsentVersion packagesInSolution fident ∨
      IdentAgrees σ packagesInSolution fident ∧
        (resolveIdentRaw (σ.opamEnv packagesInSolution) fident).isSome = true
  | _ => True

variable (lib : OpamLib)

/-- A value that is not a string with interpolations of its own. -/
def PlainValue (fident : Fident) : Prop :=
  let value := resolveIdent (σ.opamEnv packagesInSolution) fident
  expanded lib (σ.opamEnv packagesInSolution) value = value

/-- An operand of a comparison. -/
def OperandAgrees : Filter → Prop
  | .fString s => ∀ piece ∈ lib.split s, PieceAgrees σ packagesInSolution piece
  | .fIdent fident => ¬IsAbsentVersion packagesInSolution fident ∧
      IdentAgrees σ packagesInSolution fident ∧ PlainValue σ packagesInSolution lib fident
  | _ => False

/-- An operand whose value is the version of an absent package. -/
def OperandIsAbsentVersion : Filter → Prop
  | .fIdent fident => IsAbsentVersion packagesInSolution fident
  | _ => False

/-- Both orders of strings give the operator the same answer. -/
def CompareAgrees (op : Relop) (l r : Filter) : Prop :=
  let l := reduce lib (σ.opamEnv packagesInSolution) l
  let r := reduce lib (σ.opamEnv packagesInSolution) r
  l ≠ .undefined → r ≠ .undefined →
    op.eval (compare (valueString l) (valueString r)) =
      op.eval (lib.versionCompare (valueString l) (valueString r))

/-- A string does not decide a connective against an undefined value. -/
def AbsorbAgrees (absorb : Bool) (l r : Filter) : Prop :=
  let l := reduce lib (σ.opamEnv packagesInSolution) l
  let r := reduce lib (σ.opamEnv packagesInSolution) r
  (l = .string (stringOfBool absorb) → r ≠ .undefined) ∧
    (r = .string (stringOfBool absorb) → l ≠ .undefined)

/-- A filter whose translation means the same. `positive` tells that no negation and no definedness
test is above it, so that an undefined value may as well be false. -/
def Agrees : Bool → Filter → Prop
  | _, .fBool _ => True
  | _, .fString s => OperandAgrees σ packagesInSolution lib (.fString s) ∧
      (boolOfString (expandString lib (σ.opamEnv packagesInSolution) s)).isSome = true
  | positive, .fIdent fident =>
    positive = true ∧ IsAbsentVersion packagesInSolution fident ∨
      OperandAgrees σ packagesInSolution lib (.fIdent fident) ∧
        ∀ c, resolveIdentRaw (σ.opamEnv packagesInSolution) fident = some c →
          (boolOfValue c).isSome = true
  | positive, .fOp l op r =>
    positive = true ∧ (OperandIsAbsentVersion packagesInSolution l ∨
        OperandIsAbsentVersion packagesInSolution r) ∨
      OperandAgrees σ packagesInSolution lib l ∧ OperandAgrees σ packagesInSolution lib r ∧
        CompareAgrees σ packagesInSolution lib op l r
  | positive, .fAnd l r =>
    Agrees positive l ∧ Agrees positive r ∧ AbsorbAgrees σ packagesInSolution lib false l r
  | positive, .fOr l r =>
    Agrees positive l ∧ Agrees positive r ∧ AbsorbAgrees σ packagesInSolution lib true l r
  | _, .fNot f => Agrees false f
  | _, .fDefined f => Agrees false f
  | _, .fUndef _ => False

end

/-! ## Variables -/

section
variable {σ : Assignment} {inSolution : String → Bool}

/-- The outcome of a term with one string as its value. -/
def item : Option String → Outcome (List (DeferredConcat Empty))
  | some s => .ok [[.string s]]
  | none => .undefined

/-- What a variable of one package becomes, besides the version of an absent package. -/
inductive Converted (σ : Assignment) (packagesInSolution : String → Bool)
    (value : Option Contents) :
    Slang OpamPform → Prop where
  | pform (p : OpamPform) (h : σ.ofPform packagesInSolution p = value) :
      Converted σ _ value (.pform p)
  | notInstalled (h : value = some (.b false)) : Converted σ _ value (.bool false)

variable {loc : Loc} {forStringInterp : Bool} {name s package : String} {slang : Slang OpamPform}
  {c : Contents} {value : Option Contents} {packages : List (Option String)}
  {slangs : List (Slang OpamPform)} {env : OpamEnv} {fident : Fident}

theorem convertWithPackageName_cases {package : Option String}
    (h : convertWithPackageName inSolution loc forStringInterp name package = .ok slang) :
    (∃ p, package = some p ∧ name = "version" ∧ inSolution p = false ∧
        slang = if forStringInterp then .text "" else .undefined) ∨
      Converted σ inSolution
        (resolve (σ.opamEnv inSolution) name package) slang := by
  unfold convertWithPackageName at h
  split at h
  · split at h
    · next p =>
      by_cases hp : inSolution p = true
      · rw [if_pos hp] at h
        cases h
        exact .inr (.pform _ rfl)
      · rw [if_neg hp] at h
        rw [Bool.not_eq_true] at hp
        cases h
        rw [absentPackageValue]
        split
        · next hname =>
          subst hname
          refine .inr (.notInstalled ?_)
          simp [resolve, opamEnv, ofPackage, hp]
        · split
          · next hname => exact .inl ⟨p, rfl, hname, hp, rfl⟩
          · exact .inr (.pform _ rfl)
    · cases h
      exact .inr (.pform _ rfl)
  · cases h

theorem convert_absentVersion (loc : Loc) (forStringInterp : Bool) {p : String}
    (hp : inSolution p = false) :
    convertWithPackageName inSolution loc forStringInterp "version" (some p) =
      .ok (if forStringInterp then .text "" else .undefined) := by
  unfold convertWithPackageName
  rw [if_pos (by decide)]
  simp [hp, absentPackageValue]

theorem strings_of_single (h : c.single = some s) : strings c = [s] := by
  match c with
  | .b value => cases h; rfl
  | .s value => cases h; rfl
  | .l [value] => cases h; rfl
  | .l [] => cases h
  | .l (_ :: _ :: _) => cases h

theorem Converted.clean (h : Converted σ inSolution value slang)
    (hsingle : ∀ c, value = some c → c.single.isSome = true) :
    CleanSlang (σ.expander inSolution) slang ∧
      outcome (σ.expander inSolution) slang = item (value.bind Contents.single) := by
  cases h with
  | notInstalled hvalue =>
    subst hvalue
    exact ⟨trivial, rfl⟩
  | pform p hp =>
    simp only [CleanSlang, CleanLiteral, CleanPart, Slang.pform, outcome_literal,
      StringWithVars.makePform, mem_singleton, forall_eq, StringWithVars.expandResultDeferredConcat]
    cases value with
    | none =>
      have hexpand : (σ.expander inSolution).expandPform p =
          .ok (.error (pformName p)) := by
        simp only [expander, hp]
      simp only [hexpand]
      exact ⟨.inl ⟨_, rfl⟩, rfl⟩
    | some c =>
      obtain ⟨s, hs⟩ := Option.isSome_iff_exists.mp (hsingle c rfl)
      have hexpand : (σ.expander inSolution).expandPform p = .ok (.ok [.string s]) := by
        simp [expander, hp, strings_of_single hs]
      simp only [hexpand, Option.bind_some, hs]
      exact ⟨.inr ⟨_, rfl⟩, rfl⟩

def boolOutcome (value : Option Contents) : Outcome Bool :=
  match value with
  | none => .undefined
  | some c =>
    match boolOfValue c with
    | some b => .ok b
    | none => .raised

theorem boolOutcome_eq_undefined (h : boolOutcome value = .undefined) : value = none := by
  cases value with
  | none => rfl
  | some c =>
    simp only [boolOutcome] at h
    split at h <;> cases h

theorem boolOfValue_single {b : Bool} (h : boolOfValue c = some b) :
    c.single = some (stringOfBool b) := by
  have hstring : ∀ s, boolOfString s = some b → s = stringOfBool b := by
    intro s hs
    rw [boolOfString] at hs
    split at hs
    · next heq =>
      cases hs
      exact heq
    · split at hs
      · next heq =>
        cases hs
        exact heq
      · cases hs
  match c with
  | .b value => cases h; rfl
  | .s value => exact congrArg some (hstring value h)
  | .l [value] => exact congrArg some (hstring value h)
  | .l [] => cases h
  | .l (_ :: _ :: _) => cases h

theorem toBoolOutcome_stringOfBool (env : Env OpamPform Empty) (b : Bool) :
    toBoolOutcome env [[.string (stringOfBool b)]] = .ok b := by
  cases b <;> rfl

theorem outcomeBlang_expr_item
    (h : outcome (σ.expander inSolution) slang = item (value.bind Contents.single))
    (hbool : ∀ c, value = some c → (boolOfValue c).isSome = true) :
    outcomeBlang (σ.expander inSolution) (.expr slang) = boolOutcome value ∧
      boolOutcome value ≠ .raised := by
  rw [outcomeBlang_expr, h]
  cases value with
  | none => exact ⟨rfl, Outcome.undefined_ne_raised⟩
  | some c =>
    obtain ⟨b, hb⟩ := Option.isSome_iff_exists.mp (hbool c rfl)
    have hout : boolOutcome (some c) = .ok b := by
      simp only [boolOutcome, hb]
    rw [hout, Option.bind_some, boolOfValue_single hb]
    exact ⟨toBoolOutcome_stringOfBool _ b, Outcome.ok_ne_raised⟩

/-! ## Variables of several packages -/

theorem single_of_boolOfValue (h : (boolOfValue c).isSome = true) : c.single.isSome = true := by
  obtain ⟨b, hb⟩ := Option.isSome_iff_exists.mp h
  rw [boolOfValue_single hb]
  rfl

theorem convertPackages_spec
    (hbool : ∀ p ∈ packages, ∀ c, resolve (σ.opamEnv inSolution) name p = some c →
      (boolOfValue c).isSome = true)
    (hversion : name = "version" → ∀ p, some p ∈ packages → inSolution p = true)
    (h : convertPackages inSolution loc forStringInterp name packages = .ok slangs) :
    (∀ b ∈ slangs.map Blang.expr, CleanConjunct (σ.expander inSolution) b) ∧
      (slangs.map Blang.expr).map (outcomeBlang (σ.expander inSolution)) =
        packages.map fun p => boolOutcome (resolve (σ.opamEnv inSolution) name p) := by
  induction packages generalizing slangs with
  | nil =>
    cases h
    exact ⟨nofun, rfl⟩
  | cons p packages ih =>
    obtain ⟨slang, hp, h⟩ := bind_ok h
    obtain ⟨rest, hrest, h⟩ := bind_ok h
    cases h
    obtain ⟨ihclean, ihout⟩ := ih (fun p hp => hbool p (mem_cons_of_mem _ hp))
      (fun hname p hp => hversion hname p (mem_cons_of_mem _ hp)) hrest
    rcases convertWithPackageName_cases (σ := σ) hp with ⟨q, rfl, hname, hq, -⟩ | hconv
    · rw [hversion hname q mem_cons_self] at hq
      cases hq
    · have hp := hbool p mem_cons_self
      obtain ⟨hclean, hout⟩ := hconv.clean fun c hc => single_of_boolOfValue (hp c hc)
      obtain ⟨hexpr, hraised⟩ := outcomeBlang_expr_item hout hp
      refine ⟨?_, ?_⟩
      · refine forall_mem_cons.mpr ⟨?_, ihclean⟩
        cases hconv with
        | pform q hq => exact ⟨hclean, fun hr => hraised (hexpr.symm.trans hr)⟩
        | notInstalled => trivial
      · rw [map_cons, map_cons, map_cons, ihout, hexpr]

theorem foldl_resolveStep_false (env : OpamEnv) (name : String) (packages : List (Option String)) :
    packages.foldl (resolveStep env name) (some false) = some false := by
  induction packages with
  | nil => rfl
  | cons p packages ih => exact ih

theorem foldl_resolveStep_none
    (h : ∀ p ∈ packages, resolve env name p = none ∨ resolve env name p = some (.b true)) :
    packages.foldl (resolveStep env name) none = none := by
  induction packages with
  | nil => rfl
  | cons p packages ih =>
    have hstep : resolveStep env name none p = none := by
      rcases h p mem_cons_self with hp | hp <;> simp [resolveStep, hp]
    rw [foldl_cons, hstep]
    exact ih fun p hp => h p (mem_cons_of_mem _ hp)

/-- Opam's fold over the packages is the loop of a conjunction. -/
theorem foldl_resolveStep (h : ManyAgree σ inSolution packages name) :
    loopOutcome true false false (packages.map fun p =>
        boolOutcome (resolve (σ.opamEnv inSolution) name p)) =
      match packages.foldl (resolveStep (σ.opamEnv inSolution) name) (some true) with
      | some b => .ok b
      | none => .undefined := by
  obtain ⟨hbool, hpairwise, -⟩ := h
  induction packages with
  | nil => rfl
  | cons p packages ih =>
    obtain ⟨hp, hpairwise⟩ := pairwise_cons.mp hpairwise
    have ih := ih (fun p hp => hbool p (mem_cons_of_mem _ hp)) hpairwise
    rw [map_cons, foldl_cons, loopOutcome_cons]
    cases hres : resolve (σ.opamEnv inSolution) name p with
    | none =>
      have hstep : resolveStep (σ.opamEnv inSolution) name (some true) p = none := by
        simp [resolveStep, hres]
      rw [hstep, foldl_resolveStep_none fun p' hp' => hp p' hp' hres]
      rfl
    | some c =>
      obtain ⟨b, hb⟩ := Option.isSome_iff_exists.mp (hbool p mem_cons_self c hres)
      have hstep : resolveStep (σ.opamEnv inSolution) name (some true) p = some b := by
        rw [resolveStep, hres]
        split
        · next h => cases h
        · split
          · next h =>
            cases h
            cases hb
            rfl
          · exact hb
      simp only [boolOutcome, hb, hstep]
      cases b with
      | true => exact ih
      | false =>
        rw [foldl_resolveStep_false]
        rfl

theorem many_clean {p q : Option String} (hagree : ManyAgree σ inSolution (p :: q :: packages) name)
    (h : convertPackages inSolution loc forStringInterp name (p :: q :: packages) = .ok slangs) :
    CleanSlang (σ.expander inSolution) (.form .none (.blang (.and (slangs.map .expr)))) ∧
      outcome (σ.expander inSolution) (.form .none (.blang (.and (slangs.map .expr)))) =
        item ((resolvePackages (σ.opamEnv inSolution) name (p :: q :: packages)).bind
          Contents.single) := by
  obtain ⟨hclean, hout⟩ := convertPackages_spec hagree.1 hagree.2.2 h
  refine ⟨⟨hclean, ?_⟩, ?_⟩
  · have hordered : ((slangs.map Blang.expr).map
        (outcomeBlang (σ.expander inSolution))).Pairwise
        fun o o' => o = .undefined → o' ≠ .ok false := by
      rw [hout, pairwise_map]
      refine hagree.2.1.imp fun {p p'} hstep hundefined => ?_
      have hnone := boolOutcome_eq_undefined hundefined
      rcases hstep hnone with h' | h' <;> rw [h'] <;> nofun
    exact pairwise_map.mp hordered
  · rw [outcome_blang, outcomeBlang_and, hout, foldl_resolveStep hagree, resolvePackages]
    · cases (p :: q :: packages).foldl (resolveStep (σ.opamEnv inSolution) name)
        (some true) with
      | none => rfl
      | some b => cases b <;> rfl
    all_goals nofun

/-! ## Identifiers -/

/-- A variable before any string converter, besides the version of an absent package. -/
theorem opamVariableToSlang_clean (hagree : VariableAgrees σ inSolution packages name)
    (habsent : ∀ p, packages = [some p] → name = "version" → inSolution p = true)
    (h : opamVariableToSlang inSolution loc forStringInterp packages name = .ok slang) :
    CleanSlang (σ.expander inSolution) slang ∧
      outcome (σ.expander inSolution) slang =
        item ((resolvePackages (σ.opamEnv inSolution) name packages).bind
          Contents.single) := by
  match packages with
  | [] =>
    refine Converted.clean ?_ hagree
    rw [opamVariableToSlang] at h
    split at h
    · split at h
      · next hglobal =>
        cases h
        refine .pform _ ?_
        simp [ofPform, resolvePackages, opamEnv, hglobal]
      · next hglobal =>
        rcases convertWithPackageName_cases (σ := σ) h with ⟨p, hp, -⟩ | hconv
        · cases hp
        · have henv : resolvePackages (σ.opamEnv inSolution) name [] =
              resolve (σ.opamEnv inSolution) name none := by
            simp [resolvePackages, resolve, opamEnv, hglobal]
          rw [henv]
          exact hconv
    · cases h
  | [p] =>
    refine Converted.clean ?_ hagree
    rcases convertWithPackageName_cases (σ := σ) h with ⟨q, rfl, hname, hq, -⟩ | hconv
    · rw [habsent q rfl hname] at hq
      cases hq
    · exact hconv
  | p :: q :: packages =>
    obtain ⟨slangs, hmany, h⟩ := bind_ok h
    cases h
    exact many_clean hagree hmany

theorem cleanSlang_text (env : Env OpamPform Empty) (s : String) :
    CleanSlang env (.text s) ∧ outcome env (.text s) = item (some s) := by
  refine ⟨?_, textOnly_eq rfl⟩
  intro part hpart
  rw [mem_singleton.mp hpart]
  trivial

theorem convertedSlang_clean (hclean : CleanSlang (σ.expander inSolution) slang)
    (hout : outcome (σ.expander inSolution) slang = item (value.bind Contents.single))
    (hbool : ∀ c, value = some c → (boolOfValue c).isSome = true) (then_ else_ : String) :
    CleanSlang (σ.expander inSolution) (convertedSlang then_ else_ slang) ∧
      outcome (σ.expander inSolution) (convertedSlang then_ else_ slang) =
        item (some (if value.bind boolOfValue = some true then then_ else else_)) := by
  -- the condition: the boolean of the value, or false when it is undefined
  have hcond : ∀ loc, outcomeBlang (σ.expander inSolution)
      (.expr (.form loc (.catchUndefinedVar slang (.bool false)))) =
        .ok (decide (value.bind boolOfValue = some true)) := by
    intro loc
    rw [outcomeBlang_expr, outcome_catchUndefinedVar, hout]
    cases value with
    | none => rfl
    | some c =>
      obtain ⟨b, hb⟩ := Option.isSome_iff_exists.mp (hbool c rfl)
      rw [Option.bind_some, Option.bind_some, boolOfValue_single hb, hb]
      cases b <;> rfl
  unfold convertedSlang
  split
  · have hfalse : ¬value.bind boolOfValue = some true := by
      intro htrue
      obtain ⟨c, rfl, hb⟩ := Option.bind_eq_some_iff.mp htrue
      rw [Option.bind_some, boolOfValue_single hb] at hout
      exact absurd (Outcome.ok.inj hout) (by decide)
    rw [if_neg hfalse]
    exact cleanSlang_text _ else_
  · exact hclean.elim
  · obtain ⟨hthen, hthenout⟩ := cleanSlang_text (σ.expander inSolution) then_
    obtain ⟨helse, helseout⟩ := cleanSlang_text (σ.expander inSolution) else_
    refine ⟨⟨⟨⟨hclean, trivial⟩, ?_⟩, ?_, hthen, helse⟩, ?_⟩
    · rw [hcond]
      nofun
    · rw [hcond]
      trivial
    · rw [outcome_if, hcond, Outcome.bind_ok, hthenout, helseout]
      by_cases htrue : value.bind boolOfValue = some true
      · rw [if_pos (decide_eq_true htrue), if_pos htrue]
      · rw [if_neg (by simpa using htrue), if_neg htrue]

theorem single_of_variableAgrees (h : VariableAgrees σ inSolution packages name) (c : Contents)
    (hc : resolvePackages (σ.opamEnv inSolution) name packages = some c) :
    c.single.isSome = true := by
  match packages with
  | [] => exact h c hc
  | [p] => exact h c hc
  | p :: q :: packages =>
    rw [resolvePackages] at hc
    · obtain ⟨b, -, rfl⟩ := Option.map_eq_some_iff.mp hc
      rfl
    all_goals nofun

theorem resolveIdentRaw_converter {then_ else_ : String}
    (h : desugarFident fident = ⟨packages, name, some (then_, else_)⟩) :
    resolveIdentRaw env fident = some (.s
      (if (resolvePackages env name packages).bind boolOfValue = some true then then_
        else else_)) := by
  rw [resolveIdentRaw, h]
  dsimp only
  cases (resolvePackages env name packages).bind boolOfValue with
  | none => rfl
  | some b => cases b <;> rfl

theorem opamFidentToSlang_clean (hagree : IdentAgrees σ inSolution fident)
    (habsent : ¬IsAbsentVersion inSolution fident)
    (h : opamFidentToSlang inSolution loc forStringInterp fident = .ok slang) :
    CleanSlang (σ.expander inSolution) slang ∧
      outcome (σ.expander inSolution) slang =
        item ((resolveIdentRaw (σ.opamEnv inSolution) fident).bind Contents.single) ∧
      ∀ c, resolveIdentRaw (σ.opamEnv inSolution) fident = some c →
        c.single.isSome = true := by
  obtain ⟨hspecial, hvariable, hconverter⟩ := hagree
  rw [opamFidentToSlang, hspecial] at h
  cases hdesugar : desugarFident fident with
  | mk packages name converter =>
    rw [hdesugar] at h hvariable hconverter
    cases converter with
    | none =>
      have hraw : resolveIdentRaw (σ.opamEnv inSolution) fident =
          resolvePackages (σ.opamEnv inSolution) name packages := by
        rw [resolveIdentRaw, hdesugar]
      have habsent' : ∀ p, packages = [some p] → name = "version" → inSolution p = true := by
        rintro p rfl rfl
        exact Bool.of_not_eq_false fun hp => habsent ⟨p, hdesugar, hp⟩
      obtain ⟨hclean, hout⟩ := opamVariableToSlang_clean hvariable habsent' h
      rw [hraw]
      exact ⟨hclean, hout, fun c hc => single_of_variableAgrees hvariable c hc⟩
    | some converter =>
      obtain ⟨then_, else_⟩ := converter
      obtain ⟨slang, hslang, h⟩ := bind_ok h
      cases h
      rw [resolveIdentRaw_converter hdesugar]
      refine and_assoc.mp ⟨?_, by rintro c ⟨⟩; rfl⟩
      by_cases hversion : ∃ p, packages = [some p] ∧ name = "version" ∧ inSolution p = false
      · -- an undefined condition takes the second string
        obtain ⟨p, rfl, rfl, hp⟩ := hversion
        have hundefined : slang = .undefined :=
          Except.ok.inj (hslang.symm.trans (convert_absentVersion loc false hp))
        have hnone : resolvePackages (σ.opamEnv inSolution) "version" [some p] = none := by
          simp [resolvePackages, resolve, opamEnv, ofPackage, hp]
        rw [hundefined, hnone]
        exact cleanSlang_text _ else_
      · obtain ⟨hclean, hout⟩ := opamVariableToSlang_clean hvariable (fun p hpackages hname =>
          Bool.of_not_eq_false fun hp => hversion ⟨p, hpackages, hname, hp⟩) hslang
        exact convertedSlang_clean hclean hout (hconverter rfl) then_ else_

/-! ## Strings -/

theorem resolveIdent_single (h : resolveIdentRaw env fident = some c) (hs : c.single = some s) :
    valueString (resolveIdent env fident) = s ∧
      resolveIdent env fident ≠ .undefined := by
  rw [resolveIdent, h]
  match c with
  | .b value => exact ⟨Option.some.inj hs, nofun⟩
  | .s value => exact ⟨Option.some.inj hs, nofun⟩
  | .l [value] => exact ⟨Option.some.inj hs, nofun⟩
  | .l [] => cases hs
  | .l (_ :: _ :: _) => cases hs

theorem opamFidentToSlang_absentVersion (habsent : IsAbsentVersion inSolution fident)
    (h : opamFidentToSlang inSolution loc forStringInterp fident = .ok slang) :
    slang = (if forStringInterp then .text "" else .undefined) ∧
      resolveIdent (σ.opamEnv inSolution) fident = .undefined := by
  obtain ⟨p, hdesugar, hp⟩ := habsent
  rw [opamFidentToSlang, hdesugar] at h
  refine ⟨Except.ok.inj (h.symm.trans (convert_absentVersion loc forStringInterp hp)), ?_⟩
  rw [resolveIdent, resolveIdentRaw, hdesugar]
  simp [resolvePackages, resolve, opamEnv, ofPackage, hp]

theorem pieceToSlang_clean {piece : Piece} (hagree : PieceAgrees σ inSolution piece)
    (h : pieceToSlang inSolution loc package piece = .ok slang) :
    CleanSlang (σ.expander inSolution) slang ∧
      outcome (σ.expander inSolution) slang =
        item (some (expandPiece (σ.opamEnv inSolution) piece)) := by
  cases piece with
  | text s =>
    cases h
    exact cleanSlang_text _ s
  | percent =>
    cases h
    exact cleanSlang_text _ "%"
  | unclosed s => cases h
  | interp fident =>
    by_cases habsent : IsAbsentVersion inSolution fident
    · obtain ⟨rfl, hundefined⟩ := opamFidentToSlang_absentVersion (σ := σ) habsent h
      rw [expandPiece, hundefined]
      exact cleanSlang_text _ ""
    · obtain ⟨hident, hdefined⟩ := hagree.resolve_left habsent
      obtain ⟨hclean, hout, hsingle⟩ := opamFidentToSlang_clean hident habsent h
      obtain ⟨c, hc⟩ := Option.isSome_iff_exists.mp hdefined
      obtain ⟨s, hs⟩ := Option.isSome_iff_exists.mp (hsingle c hc)
      refine ⟨hclean, ?_⟩
      rw [hout, hc, Option.bind_some, hs, expandPiece, (resolveIdent_single hc hs).1]

theorem piecesToSlangs_clean {pieces : List Piece}
    (hagree : ∀ piece ∈ pieces, PieceAgrees σ inSolution piece)
    (h : piecesToSlangs inSolution loc package pieces = .ok slangs) :
    slangs.length = pieces.length ∧
      (∀ slang ∈ slangs, CleanSlang (σ.expander inSolution) slang) ∧
      elements (σ.expander inSolution) slangs = .ok (pieces.map fun piece =>
        [.string (expandPiece (σ.opamEnv inSolution) piece)]) := by
  induction pieces generalizing slangs with
  | nil =>
    cases h
    exact ⟨rfl, nofun, rfl⟩
  | cons piece pieces ih =>
    obtain ⟨slang, hslang, h⟩ := bind_ok h
    obtain ⟨rest, hrest, h⟩ := bind_ok h
    cases h
    obtain ⟨hlen, hclean, hout⟩ :=
      ih (fun piece hpiece => hagree piece (mem_cons_of_mem _ hpiece)) hrest
    obtain ⟨hclean', hout'⟩ := pieceToSlang_clean (hagree piece mem_cons_self) hslang
    refine ⟨congrArg (· + 1) hlen, ?_, ?_⟩
    · exact forall_mem_cons.mpr ⟨hclean', hclean⟩
    · rw [elements, hout, hout']
      rfl

theorem force_strings (env : Env OpamPform Empty) (l : List String) :
    DeferredConcat.force env (l.map Value.string) = .string (String.join l) := by
  match l with
  | [] => rfl
  | [s] => simp [DeferredConcat.force]
  | s :: s' :: l =>
    rw [DeferredConcat.force, map_map]
    · congr 2
      exact map_id' _
    · nofun

/-- The values of an operand, as a condition or a comparison sees them. -/
def operandValues : Opam.Reduced → Outcome (List (Value Empty))
  | .undefined => .undefined
  | r => .ok [.string (valueString r)]

variable {lib : OpamLib}

theorem operand_fString (hagree : OperandAgrees σ inSolution lib (.fString s))
    (h : opamStringToSlang inSolution loc lib package s = .ok slang) :
    ∃ slang', slang.simplify = slang'.simplify ∧
      CleanSlang (σ.expander inSolution) slang' ∧
      observed (σ.expander inSolution) .values slang' =
        operandValues (reduce lib (σ.opamEnv inSolution) (.fString s)) ∧
      (expandString lib (σ.opamEnv inSolution) s = "" ∨ slang'.isPlainExpr = true) := by
  obtain ⟨slangs, hslangs, h⟩ := bind_ok h
  cases h
  obtain ⟨hlen, hclean, hout⟩ := piecesToSlangs_clean hagree hslangs
  have hvalues : observed (σ.expander inSolution) .values (.form .none (.concat slangs)) =
      .ok [.string (expandString lib (σ.opamEnv inSolution) s)] := by
    have hflatten : ((lib.split s).map fun piece =>
        [Value.string (Q := Empty) (expandPiece (σ.opamEnv inSolution) piece)]).flatten =
        ((lib.split s).map (expandPiece (σ.opamEnv inSolution))).map Value.string := by
      induction lib.split s with
      | nil => rfl
      | cons piece pieces ih => simp [ih]
    rw [observed, outcome_concat, hout, Outcome.map_ok, Outcome.map_ok, hflatten]
    simp only [Obs.see, map_cons, map_nil, force_strings]
    rfl
  cases slangs with
  | nil =>
    -- the empty string: the simplifier turns it into a literal
    have hempty : observed (σ.expander inSolution) .values (.form .none (.concat [])) =
      observed (σ.expander inSolution) .values (.text "") := rfl
    have hs : expandString lib (σ.opamEnv inSolution) s = "" := by
      rw [hempty] at hvalues
      injection hvalues with hvalues
      injection hvalues with hvalues
      injection hvalues with hvalues
      exact hvalues.symm
    exact ⟨.text "", rfl, (cleanSlang_text _ "").1, hempty ▸ hvalues, .inl hs⟩
  | cons x xs =>
    exact ⟨_, rfl, ⟨cons_ne_nil x xs, cleanSlangs_iff.mpr hclean⟩, hvalues, .inr rfl⟩

theorem operand_fIdent (hagree : OperandAgrees σ inSolution lib (.fIdent fident))
    (h : opamFidentToSlang inSolution loc false fident = .ok slang) :
    CleanSlang (σ.expander inSolution) slang ∧
      observed (σ.expander inSolution) .values slang =
        operandValues (reduce lib (σ.opamEnv inSolution) (.fIdent fident)) := by
  obtain ⟨habsent, hident, hplain⟩ := hagree
  obtain ⟨hclean, hout, hsingle⟩ := opamFidentToSlang_clean hident habsent h
  refine ⟨hclean, ?_⟩
  rw [observed, hout, reduce, hplain]
  cases hc : resolveIdentRaw (σ.opamEnv inSolution) fident with
  | none =>
    rw [resolveIdent, hc]
    rfl
  | some c =>
    obtain ⟨s, hs⟩ := Option.isSome_iff_exists.mp (hsingle c hc)
    obtain ⟨hvalue, hne⟩ := resolveIdent_single hc hs
    have hoperand : operandValues (resolveIdent (σ.opamEnv inSolution) fident) =
        .ok [.string s] := by
      rw [← hvalue]
      cases hr : resolveIdent (σ.opamEnv inSolution) fident with
      | undefined => exact absurd hr hne
      | _ => rfl
    rw [hoperand, Option.bind_some, hs]
    rfl

end

end Dune.Pkg
