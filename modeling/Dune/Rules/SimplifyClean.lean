import Dune.Rules.SimplifySound

/-!
# Terms on which the simplifier is exact

`Clean` terms raise no exception anywhere, have one value each, and do not contain the terms that
the simplifier replaces by something else. Simplifying a clean term is exact and gives a clean term
(`clean_simplifyN`).
-/

namespace Dune.Rules

open List Dune.Stdune Dune.Lang Outcome StringWithVars

section
variable {P Q : Type}

/-- A part of a literal with at most one value. -/
def CleanPart (env : Env P Q) : Lang.Part P → Prop
  | .text _ => True
  | .pform p => (∃ name, env.expandPform p = .ok (.error name)) ∨
      ∃ v, env.expandPform p = .ok (.ok [v])
  | .error _ => False

def CleanLiteral (env : Env P Q) (sw : StringWithVars P) : Prop :=
  ∀ part ∈ sw.parts, CleanPart env part

/-- An element of the conjunctions that clean terms may contain. -/
def CleanConjunct (env : Env P Q) : Blang P → Prop
  | .const _ => True
  | .expr (.literal sw) => CleanLiteral env sw ∧ outcomeBlang env (.expr (.literal sw)) ≠ .raised
  | .expr (.form _ (.blang (.const _))) => True
  | _ => False

/-- No element is false after one that is undefined, so that dropping elements cannot be seen. -/
def Ordered (env : Env P Q) (bs : List (Blang P)) : Prop :=
  bs.Pairwise fun b b' => outcomeBlang env b = .undefined → outcomeBlang env b' ≠ .ok false

mutual

/-- A term that raises nothing and has one value. -/
def CleanSlang (env : Env P Q) : Slang P → Prop
  | .nil => False
  | .undefined => False
  | .literal sw => CleanLiteral env sw
  | .form _ f => CleanForm env f

@[inherit_doc CleanSlang]
def CleanForm (env : Env P Q) : Form P → Prop
  | .concat xs => xs ≠ [] ∧ CleanSlangs env xs
  | .when_ _ _ => False
  | .if_ c t e => CleanBlang env c ∧ (outcomeBlang env c).isOk ∧ CleanSlang env t ∧ CleanSlang env e
  | .hasUndefinedVar t => CleanSlang env t
  | .catchUndefinedVar value fallback => CleanSlang env value ∧ CleanSlang env fallback
  | .andAbsorbUndefinedVar bs => CleanBlangs env bs
  | .orAbsorbUndefinedVar bs => CleanBlangs env bs
  | .blang b => CleanBlang env b

/-- A condition that raises nothing. -/
def CleanBlang (env : Env P Q) : Blang P → Prop
  | .const _ => True
  | .not b => CleanBlang env b
  | .expr s => CleanSlang env s ∧ outcomeBlang env (.expr s) ≠ .raised
  | .and bs => (∀ b ∈ bs, CleanConjunct env b) ∧ Ordered env bs
  | .or _ => False
  | .compare _ x y => CleanSlang env x ∧ CleanSlang env y

def CleanSlangs (env : Env P Q) : List (Slang P) → Prop
  | [] => True
  | x :: xs => CleanSlang env x ∧ CleanSlangs env xs

def CleanBlangs (env : Env P Q) : List (Blang P) → Prop
  | [] => True
  | b :: bs => CleanBlang env b ∧ CleanBlangs env bs

end

variable {env : Env P Q} {xs : List (Slang P)}

theorem cleanSlangs_iff : CleanSlangs env xs ↔ ∀ x ∈ xs, CleanSlang env x := by
  induction xs with
  | nil => simp [CleanSlangs]
  | cons x xs ih => simp [CleanSlangs, ih]

variable {bs out : List (Blang P)}

theorem cleanBlangs_iff : CleanBlangs env bs ↔ ∀ b ∈ bs, CleanBlang env b := by
  induction bs with
  | nil => simp [CleanBlangs]
  | cons b bs ih => simp [CleanBlangs, ih]

variable {b : Blang P}

theorem CleanConjunct.ne_raised (h : CleanConjunct env b) : outcomeBlang env b ≠ .raised := by
  unfold CleanConjunct at h
  split at h
  · rw [outcomeBlang_const]
    nofun
  · exact h.2
  · rw [outcomeBlang_expr_blang, outcomeBlang_const]
    nofun
  · exact h.elim

theorem CleanConjunct.clean (h : CleanConjunct env b) : CleanBlang env b := by
  have hne := h.ne_raised
  unfold CleanConjunct at h
  split at h
  · trivial
  · exact h
  · exact ⟨trivial, hne⟩
  · exact h.elim

/-! ## Outcomes of clean terms -/

def OneValue (o : Outcome (List (DeferredConcat Q))) : Prop :=
  o ≠ .raised ∧ ∀ ds, o = .ok ds → ds.length = 1

theorem oneValue_ok {ds : List (DeferredConcat Q)} (h : ds.length = 1) : OneValue (.ok ds) := by
  refine ⟨ok_ne_raised, fun ds' heq => ?_⟩
  cases heq
  exact h

theorem oneValue_undefined : OneValue (.undefined : Outcome (List (DeferredConcat Q))) := by
  refine ⟨undefined_ne_raised, fun ds heq => ?_⟩
  cases heq

theorem oneValue_bool {o : Outcome Bool} (h : o ≠ .raised) :
    OneValue (o.map (boolValue (Q := Q))) := by
  cases o with
  | ok b => exact oneValue_ok rfl
  | undefined => exact oneValue_undefined
  | raised => exact absurd rfl h

theorem loopOutcome_ne_raised (strict decisive seen : Bool) {os : List (Outcome Bool)}
    (h : ∀ o ∈ os, o ≠ .raised) : loopOutcome strict decisive seen os ≠ .raised := by
  fun_induction loopOutcome strict decisive seen os with
  | case1 | case4 => exact undefined_ne_raised
  | case2 | case6 => exact ok_ne_raised
  | case3 => exact absurd rfl (h .raised mem_cons_self)
  | case5 | case7 =>
    rename_i ih
    exact ih fun o ho => h o (mem_cons_of_mem _ ho)

theorem both_ne_raised {α β γ : Type} {f : α → β → γ} {x : Outcome α} {y : Outcome β}
    (hx : x ≠ .raised) (hy : y ≠ .raised) : both f x y ≠ .raised := by
  cases x <;> cases y <;> simp_all [both]

theorem CleanPart.chunk {part : Lang.Part P} (h : CleanPart env part) (loc : Loc)
    (sep : Option String) :
    ofMemo (expandPart env loc sep part) ≠ .raised := by
  cases part with
  | text s => exact ok_ne_raised
  | pform p =>
    rcases h with ⟨name, h⟩ | ⟨v, h⟩
    · rw [expandPart, h]
      exact undefined_ne_raised
    · rw [expandPart, h]
      exact ok_ne_raised
  | error msg => exact h.elim

theorem chunks_ne_raised {parts : List (Lang.Part P)} (h : ∀ part ∈ parts, CleanPart env part)
    (loc : Loc) (sep : Option String) : chunks env loc sep parts ≠ .raised := by
  induction parts with
  | nil => nofun
  | cons part parts ih =>
    rw [chunks_cons]
    exact both_ne_raised ((h part mem_cons_self).chunk loc sep)
      (ih fun part hpart => h part (mem_cons_of_mem _ hpart))

variable {sw : StringWithVars P}

theorem CleanLiteral.oneValue (h : CleanLiteral env sw) : OneValue (outcome env (.literal sw)) := by
  by_cases hgeneral : 2 ≤ sw.parts.length ∨ sw.quoted = true ∧ ∃ p, sw.parts = [.pform p]
  · rw [outcome_literal_chunks env hgeneral]
    have hchunks := chunks_ne_raised h sw.loc (if sw.quoted then some " " else none)
    cases hc : chunks env sw.loc (if sw.quoted then some " " else none) sw.parts with
    | ok ds => exact oneValue_ok rfl
    | undefined => exact oneValue_undefined
    | raised => exact absurd hc hchunks
  · rw [outcome_literal]
    obtain ⟨quoted, parts, loc⟩ := sw
    rcases parts with _ | ⟨part, _ | ⟨part', rest⟩⟩
    · exact oneValue_ok rfl
    · cases part with
      | text s => exact oneValue_ok rfl
      | error msg => exact (h (.error msg) mem_cons_self).elim
      | pform p =>
        cases quoted with
        | true => exact absurd (.inr ⟨rfl, p, rfl⟩) hgeneral
        | false =>
          rcases h (.pform p) mem_cons_self with ⟨name, h⟩ | ⟨v, h⟩
          · simp only [expandResultDeferredConcat, h]
            exact oneValue_undefined
          · simp only [expandResultDeferredConcat, h]
            exact oneValue_ok rfl
    · exact absurd (.inl (by simp)) hgeneral

theorem OneValue.concat (h : ∀ x ∈ xs, OneValue (outcome env x)) (loc : Loc) :
    OneValue (outcome env (.form loc (.concat xs))) := by
  have helements : elements env xs ≠ .raised := by
    induction xs with
    | nil => exact ok_ne_raised
    | cons x xs ih =>
      rw [elements]
      exact both_ne_raised (h x mem_cons_self).1 (ih fun y hy => h y (mem_cons_of_mem _ hy))
  rw [outcome_concat]
  cases he : elements env xs with
  | ok ds => exact oneValue_ok rfl
  | undefined => exact oneValue_undefined
  | raised => exact absurd he helements

mutual

theorem CleanSlang.oneValue : ∀ {t : Slang P}, CleanSlang env t → OneValue (outcome env t)
  | .nil, h => h.elim
  | .undefined, h => h.elim
  | .literal _, h => CleanLiteral.oneValue h
  | .form loc _, h => CleanForm.oneValue loc h

theorem CleanForm.oneValue (loc : Loc) : ∀ {f : Form P}, CleanForm env f →
    OneValue (outcome env (.form loc f))
  | .concat xs, h => OneValue.concat (CleanSlangs.oneValue h.2) loc
  | .when_ _ _, h => h.elim
  | .if_ c t e, h => by
    obtain ⟨-, hc, ht, he⟩ := h
    obtain ⟨b, hb⟩ := Outcome.isOk_iff.mp hc
    rw [outcome_if, hb, Outcome.bind_ok]
    split
    · exact CleanSlang.oneValue ht
    · exact CleanSlang.oneValue he
  | .hasUndefinedVar t, h => by
    have ht := CleanSlang.oneValue h
    rw [outcome_hasUndefinedVar]
    cases hs : outcome env t with
    | ok ds => exact oneValue_bool (o := .ok false) nofun
    | undefined => exact oneValue_bool (o := .ok true) nofun
    | raised => exact absurd hs ht.1
  | .catchUndefinedVar value fallback, h => by
    have hvalue := CleanSlang.oneValue h.1
    rw [outcome_catchUndefinedVar]
    cases hs : outcome env value with
    | ok ds =>
      rw [hs] at hvalue
      exact hvalue
    | undefined => exact CleanSlang.oneValue h.2
    | raised => exact absurd hs hvalue.1
  | .andAbsorbUndefinedVar bs, h => by
    rw [outcome_andAbsorb]
    exact oneValue_bool (loopOutcome_ne_raised _ _ _ (CleanBlangs.ne_raised h))
  | .orAbsorbUndefinedVar bs, h => by
    rw [outcome_orAbsorb]
    exact oneValue_bool (loopOutcome_ne_raised _ _ _ (CleanBlangs.ne_raised h))
  | .blang b, h => by
    rw [outcome_blang]
    exact oneValue_bool (CleanBlang.ne_raised h)

theorem CleanBlang.ne_raised : ∀ {b : Blang P}, CleanBlang env b → outcomeBlang env b ≠ .raised
  | .const b, _ => by
    rw [outcomeBlang_const]
    nofun
  | .not b, h => by
    have hb := CleanBlang.ne_raised (b := b) h
    rw [outcomeBlang_not]
    revert hb
    cases outcomeBlang env b <;> simp
  | .expr s, h => h.2
  | .and bs, h => by
    rw [outcomeBlang_and]
    refine loopOutcome_ne_raised _ _ _ fun o ho => ?_
    obtain ⟨b, hb, rfl⟩ := mem_map.mp ho
    exact (h.1 b hb).ne_raised
  | .or _, h => h.elim
  | .compare op x y, h => by
    rw [outcomeBlang_compare]
    exact both_ne_raised (CleanSlang.oneValue h.1).1 (CleanSlang.oneValue h.2).1

theorem CleanSlangs.oneValue : ∀ {xs : List (Slang P)}, CleanSlangs env xs →
    ∀ x ∈ xs, OneValue (outcome env x)
  | [], _, _, hx => by cases hx
  | y :: ys, h, x, hx => by
    rcases List.mem_cons.mp hx with heq | hx
    · rw [heq]
      exact CleanSlang.oneValue h.1
    · exact CleanSlangs.oneValue h.2 x hx

theorem CleanBlangs.ne_raised : ∀ {bs : List (Blang P)}, CleanBlangs env bs →
    ∀ o ∈ bs.map (outcomeBlang env), o ≠ .raised
  | [], _, _, ho => by cases ho
  | b :: bs, h, o, ho => by
    rw [List.map_cons] at ho
    rcases List.mem_cons.mp ho with rfl | ho
    · exact CleanBlang.ne_raised h.1
    · exact CleanBlangs.ne_raised h.2 o ho

end

/-! ## The rewrites on lists -/

section

variable {α β : Type} {f : α → Option (List β)} {xs : List α} {ys : List β}

theorem mem_optionConcatMap (h : optionConcatMap f xs = some ys) {y : β} (hy : y ∈ ys) :
    ∃ x ∈ xs, ∃ l, f x = some l ∧ y ∈ l := by
  induction xs generalizing ys with
  | nil =>
    cases h
    cases hy
  | cons x xs ih =>
    obtain ⟨l, rest, hl, hrest, rfl⟩ := optionConcatMap_cons h
    rcases mem_append.mp hy with hy | hy
    · exact ⟨x, mem_cons_self, l, hl, hy⟩
    · obtain ⟨x', hx', hl'⟩ := ih hrest hy
      exact ⟨x', mem_cons_of_mem _ hx', hl'⟩

theorem optionConcatMap_sublist {g : α → β} (hf : ∀ x ∈ xs, ∀ l, f x = some l → l.Sublist [g x])
    (h : optionConcatMap f xs = some ys) : ys.Sublist (xs.map g) := by
  induction xs generalizing ys with
  | nil =>
    cases h
    exact List.Sublist.refl _
  | cons x xs ih =>
    obtain ⟨l, rest, hl, hrest, rfl⟩ := optionConcatMap_cons h
    exact (hf x mem_cons_self l hl).append (ih (fun x hx => hf x (mem_cons_of_mem _ hx)) hrest)

end

variable {identity : Bool}

theorem filterConst_sublist {l : List (Blang P)} (h : filterConst identity b = some l) :
    l.Sublist [b] := by
  unfold filterConst at h
  split at h
  · split at h
    · cases h
      exact List.nil_sublist _
    · cases h
  · cases h
    exact List.Sublist.refl _

theorem pform_mem_parts {p : P} (h : sw.pformOnly = some p) : .pform p ∈ sw.parts := by
  unfold pformOnly at h
  split at h
  · next hparts =>
    cases h
    rw [hparts]
    exact mem_cons_self
  · cases h

variable {x y t : Slang P}

theorem simpleTerm_clean (hx : CleanSlang env x) {term : SimpleTerm P}
    (h : simpleTerm x = some term) : CleanPart env term.part := by
  unfold simpleTerm at h
  split at h
  · next sw =>
    split at h
    · cases h
      trivial
    · obtain ⟨p, hp, rfl⟩ := Option.map_eq_some_iff.mp h
      exact hx (.pform p) (pform_mem_parts hp)
  · cases h

section

variable {xs : List (Slang P)} (hne : xs ≠ []) (h : ∀ x ∈ xs, CleanSlang env x)
include hne h

theorem combineConcat_clean (loc : Loc) : CleanSlang env (combineConcat loc xs) := by
  unfold combineConcat
  split
  · exact absurd rfl hne
  · exact h _ mem_cons_self
  · next xs _ _ =>
    dsimp only
    split
    · intro part hpart
      obtain ⟨term, hterm, rfl⟩ := mem_map.mp hpart
      obtain ⟨o, ho, rfl⟩ := mem_filterMap.mp hterm
      obtain ⟨x, hx, hxo⟩ := mem_map.mp ho
      exact simpleTerm_clean (h x hx) hxo
    · exact ⟨hne, cleanSlangs_iff.mpr h⟩

theorem exactConcat_clean (obs : Obs) : ExactConcat env obs xs := by
  unfold ExactConcat
  split
  · exact absurd rfl hne
  · next x => exact fun _ => (h x mem_cons_self).oneValue.2
  · intro _ sw hsw _ p hp vs hvs
    rcases h _ hsw (.pform p) (pform_mem_parts hp) with ⟨name, h⟩ | ⟨v, h⟩
    · rw [h] at hvs
      cases hvs
    · rw [h] at hvs
      cases hvs
      exact Nat.le_refl 1

end

theorem survivors_clean {simp1 : Slang P → Slang P} (h : ∀ x ∈ xs, CleanSlang env (simp1 x)) :
    survivors simp1 xs = xs.map simp1 := by
  induction xs with
  | nil => rfl
  | cons x xs ih =>
    have hx : (simp1 x).isNil = false := by
      have hx := h x mem_cons_self
      cases hs : simp1 x with
      | nil =>
        rw [hs] at hx
        exact hx.elim
      | _ => rfl
    have ih := ih fun y hy => h y (mem_cons_of_mem _ hy)
    rw [map_cons, ← ih]
    simp [survivors, hx]

theorem eachReached_of_forall {strict decisive : Bool} {p : Blang P → Prop} (h : ∀ b ∈ bs, p b) :
    EachReached env strict decisive p bs := by
  induction bs with
  | nil => trivial
  | cons b bs ih =>
    have hrest := ih fun b hb => h b (mem_cons_of_mem _ hb)
    refine ⟨h b mem_cons_self, ?_⟩
    split
    · exact fun _ => hrest
    · exact fun _ => hrest
    · trivial

/-- The elements of an absorbing connective that the simplifier keeps. -/
def FlattensClean (env : Env P Q) (flattenNested : Blang P → Option (List (Blang P))) : Prop :=
  ∀ b bs, CleanBlang env b → flattenNested b = some bs → ∀ b' ∈ bs, CleanBlang env b'

theorem flattensClean_andAbsorb : FlattensClean env (flattenAndAbsorb (P := P)) := by
  intro b bs hb h
  unfold flattenAndAbsorb at h
  split at h
  · cases h
    exact cleanBlangs_iff.mp hb.1
  · cases h

theorem flattensClean_orAbsorb : FlattensClean env (flattenOrAbsorb (P := P)) := by
  intro b bs hb h
  unfold flattenOrAbsorb at h
  split at h
  · cases h
    exact cleanBlangs_iff.mp hb.1
  · cases h

theorem combineCompare_clean {op : Relop} (hx : CleanSlang env x) (hy : CleanSlang env y) :
    CleanBlang env (combineCompare op x y) := by
  unfold combineCompare
  split
  · trivial
  · trivial
  · split
    · trivial
    · trivial
    · exact ⟨hx, hy⟩
  · exact ⟨hx, hy⟩

/-- A false element of an ordered conjunction decides it. -/
theorem loopOutcome_ordered (hraised : ∀ b ∈ bs, outcomeBlang env b ≠ .raised)
    (hordered : Ordered env bs) (hb : b ∈ bs) (hfalse : outcomeBlang env b = .ok false) :
    loopOutcome true false false (bs.map (outcomeBlang env)) = .ok false := by
  induction bs with
  | nil => cases hb
  | cons a bs ih =>
    obtain ⟨ha, hrest⟩ := pairwise_cons.mp hordered
    rw [map_cons, loopOutcome_cons]
    rcases mem_cons.mp hb with rfl | hb
    · rw [hfalse]
      rfl
    · have ih := ih (fun b hb => hraised b (mem_cons_of_mem _ hb)) hrest hb
      cases hout : outcomeBlang env a with
      | ok v =>
        cases v with
        | false => rfl
        | true => exact ih
      | undefined => exact absurd hfalse (ha b hb hout)
      | raised => exact absurd hout (hraised a mem_cons_self)

section
variable [DecidableEq P]

theorem dedupLoop_sublist (acc bs : List (Blang P)) :
    (dedupLoop acc bs).Sublist (acc.reverse ++ bs) := by
  fun_induction dedupLoop acc bs with
  | case1 acc => rw [append_nil]
  | case2 acc b bs _ ih => exact ih.trans (List.Sublist.append_left (sublist_cons_self b bs) _)
  | case3 acc b bs _ ih => rwa [reverse_cons, append_assoc, singleton_append] at ih

variable {simp1 : Blang P → Blang P} {flattenNested : Blang P → Option (List (Blang P))}

theorem mem_simplifyBlangs (h : simplifyBlangs simp1 flattenNested identity bs = some out)
    {b' : Blang P} (hb' : b' ∈ out) : ∃ b ∈ bs, b' ∈ (flattenNested (simp1 b)).getD [simp1 b] := by
  obtain ⟨kept, hkept, rfl⟩ := Option.map_eq_some_iff.mp h
  have hmem := (dedupLoop_sublist [] kept).mem hb'
  rw [reverse_nil, nil_append] at hmem
  obtain ⟨b, hb, l, hl, hbl⟩ := mem_optionConcatMap hkept hmem
  obtain ⟨b'', hb'', l', hl', hbl'⟩ := mem_optionConcatMap hl hbl
  rw [mem_singleton.mp ((filterConst_sublist hl').mem hbl')]
  exact ⟨b, hb, hb''⟩

theorem simplify_conjunct {n : Nat} (h : CleanConjunct env b) :
    CleanConjunct env (simplifyBlangN n b) ∧ flattenAnd (simplifyBlangN n b) = none := by
  unfold CleanConjunct at h
  split at h
  · cases n <;> exact ⟨trivial, rfl⟩
  · cases n with
    | zero => exact ⟨h, rfl⟩
    | succ n =>
      rw [simplifyBlangN]
      split
      · exact ⟨trivial, rfl⟩
      · exact ⟨trivial, rfl⟩
      · exact ⟨h, rfl⟩
  · cases n with
    | zero => exact ⟨trivial, rfl⟩
    | succ n => cases n <;> exact ⟨trivial, rfl⟩
  · exact h.elim

/-- The elements that the simplifier keeps of a conjunction without nested ones, in order. -/
theorem simplifyBlangs_sublist (hflat : ∀ b ∈ bs, flattenAnd (simp1 b) = none)
    (h : simplifyBlangs simp1 flattenAnd true bs = some out) : out.Sublist (bs.map simp1) := by
  obtain ⟨kept, hkept, rfl⟩ := Option.map_eq_some_iff.mp h
  refine (dedupLoop_sublist [] kept).trans (optionConcatMap_sublist (fun b hb l hl => ?_) hkept)
  simp only [hflat b hb, Option.getD_none] at hl
  exact optionConcatMap_sublist (g := id) (fun _ _ _ => filterConst_sublist) hl

/-- When the simplifier finds an element that decides a conjunction, that element is false. -/
theorem simplifyBlangs_none (hflat : ∀ b ∈ bs, flattenAnd (simp1 b) = none)
    (h : simplifyBlangs simp1 flattenAnd true bs = none) : ∃ b ∈ bs, simp1 b = .const false := by
  obtain ⟨b, hb, hnone⟩ := optionConcatMap_none (Option.map_eq_none_iff.mp h)
  simp only [hflat b hb, Option.getD_none] at hnone
  obtain ⟨b', hb', hfilter⟩ := optionConcatMap_none hnone
  rw [mem_singleton.mp hb'] at hfilter
  refine ⟨b, hb, ?_⟩
  unfold filterConst at hfilter
  split at hfilter
  · next v hv =>
    cases v with
    | false => exact hv
    | true => cases hfilter
  · cases hfilter

/-! ## One level of the simplifier -/

section
variable {n : Nat}
  (ih : ∀ t : Slang P, CleanSlang env t →
    (∀ obs, ExactN env n obs t) ∧ CleanSlang env (simplifyN n t))
  (ihB : ∀ b : Blang P, CleanBlang env b →
    ExactBlangN env n b ∧ CleanBlang env (simplifyBlangN n b))

include ih

variable {loc : Loc}

theorem simplify_concat_clean (h : CleanSlang env (.form loc (.concat xs))) :
    (∀ obs, ExactN env (n + 1) obs (.form loc (.concat xs))) ∧
      CleanSlang env (simplifyN (n + 1) (.form loc (.concat xs))) := by
  obtain ⟨hne, hxs⟩ := h
  have hxs := cleanSlangs_iff.mp hxs
  have hmap := survivors_clean fun x hx => (ih x (hxs x hx)).2
  have hne' : xs.map (simplifyN n) ≠ [] := by simpa using hne
  have hclean : ∀ x ∈ xs.map (simplifyN n), CleanSlang env x := by
    intro y hy
    obtain ⟨x, hx, rfl⟩ := mem_map.mp hy
    exact (ih x (hxs x hx)).2
  refine ⟨fun obs => ⟨fun x hx => (ih x (hxs x hx)).1 .parts, ?_⟩, ?_⟩
  · rw [hmap]
    exact exactConcat_clean hne' hclean obs
  · rw [simplifyN, hmap]
    exact combineConcat_clean hne' hclean loc

theorem simplify_hasUndefinedVar_clean (h : CleanSlang env t) :
    (∀ obs, ExactN env (n + 1) obs (.form loc (.hasUndefinedVar t))) ∧
      CleanSlang env (simplifyN (n + 1) (.form loc (.hasUndefinedVar t))) := by
  refine ⟨fun _ => (ih t h).1 .definedness, ?_⟩
  rw [simplifyN]
  split
  · trivial
  · exact (ih t h).2

theorem simplify_catchUndefinedVar_clean {value fallback : Slang P} (hvalue : CleanSlang env value)
    (hfallback : CleanSlang env fallback) :
    (∀ obs, ExactN env (n + 1) obs (.form loc (.catchUndefinedVar value fallback))) ∧
      CleanSlang env (simplifyN (n + 1) (.form loc (.catchUndefinedVar value fallback))) := by
  refine ⟨fun obs => ⟨(ih value hvalue).1 obs, fun _ => (ih fallback hfallback).1 obs⟩, ?_⟩
  rw [simplifyN]
  split
  · trivial
  · exact ⟨(ih value hvalue).2, (ih fallback hfallback).2⟩

theorem simplify_compare_clean {op : Relop} (hx : CleanSlang env x) (hy : CleanSlang env y) :
    ExactBlangN env (n + 1) (.compare op x y) ∧
      CleanBlang env (simplifyBlangN (n + 1) (.compare op x y)) := by
  obtain ⟨hxexact, hxclean⟩ := ih x hx
  obtain ⟨hyexact, hyclean⟩ := ih y hy
  refine ⟨⟨hxexact .values, hyexact .values, ?_, ?_⟩, ?_⟩
  · intro h
    rw [h] at hxclean
    exact hxclean
  · intro h
    rw [h] at hyclean
    exact hyclean
  · rw [simplifyBlangN]
    exact combineCompare_clean hxclean hyclean

include ihB

theorem simplify_if_clean {c : Blang P} {e : Slang P}
    (h : CleanSlang env (.form loc (.if_ c t e))) :
    (∀ obs, ExactN env (n + 1) obs (.form loc (.if_ c t e))) ∧
      CleanSlang env (simplifyN (n + 1) (.form loc (.if_ c t e))) := by
  obtain ⟨hc, hok, ht, he⟩ := h
  obtain ⟨hcexact, hcclean⟩ := ihB c hc
  refine ⟨fun obs => ⟨hcexact, fun _ => (ih t ht).1 obs, fun _ => (ih e he).1 obs, fun _ => hok⟩,
    ?_⟩
  have hok' : (outcomeBlang env (simplifyBlangN n c)).isOk := by
    rw [(simplifyN_sound env n).2 c hcexact]
    exact hok
  rw [simplifyN]
  split
  · exact (ih t ht).2
  · exact (ih e he).2
  · unfold combineIf
    split
    · exact hcclean
    · exact hcclean
    · split
      · exact (ih t ht).2
      · exact ⟨hcclean, hok', (ih t ht).2, (ih e he).2⟩

theorem simplify_expr_clean {s : Slang P} (h : CleanBlang env (.expr s)) :
    ExactBlangN env (n + 1) (.expr s) ∧ CleanBlang env (simplifyBlangN (n + 1) (.expr s)) := by
  obtain ⟨hs, hbool⟩ := h
  by_cases hplain : s.isPlainExpr = true
  · obtain ⟨hexact, hclean⟩ := ih s hs
    have hvalues := (simplifyN_sound env n).1 .values s (hexact .values)
    rw [exactBlangN_expr hplain, simplifyBlangN_expr hplain]
    refine ⟨⟨hexact .values, ?_⟩, ?_⟩
    · cases hsimp : simplifyN n s with
      | undefined =>
        rw [hsimp] at hclean
        exact hclean.elim
      | form l f =>
        rw [hsimp] at hclean
        cases f with
        | blang b => exact (ihB b hclean).1
        | _ => trivial
      | _ => trivial
    · have hexpr : outcomeBlang env (.expr (simplifyN n s)) ≠ .raised := by
        rw [outcomeBlang_expr_congr env hvalues]
        exact hbool
      unfold combineExpr
      split
      · next hsimp =>
        rw [hsimp] at hclean
        exact hclean.elim
      · next hsimp =>
        rw [hsimp] at hclean
        exact (ihB _ hclean).2
      · exact ⟨hclean, hexpr⟩
  · rcases s with _ | _ | sw | ⟨l, f⟩
    · exact hs.elim
    · exact hs.elim
    · refine ⟨trivial, ?_⟩
      rw [simplifyBlangN]
      split
      · trivial
      · trivial
      · exact ⟨hs, hbool⟩
    · cases f with
      | blang b =>
        rw [simplifyBlangN]
        exact ihB b hs
      | _ => exact absurd rfl hplain

omit ih

theorem combineAbsorb_clean {absorb : List (Blang P) → Form P}
    (hflat : FlattensClean env flattenNested)
    (habsorb : ∀ bs, CleanBlangs env bs → CleanForm env (absorb bs)) (h : CleanBlangs env bs) :
    CleanSlang env (combineAbsorb loc identity absorb
      (simplifyBlangs (simplifyBlangN n) flattenNested identity bs)) := by
  have hout : ∀ out, simplifyBlangs (simplifyBlangN n) flattenNested identity bs = some out →
      ∀ b' ∈ out, CleanBlang env b' := by
    intro out hout b' hb'
    obtain ⟨b, hb, hmem⟩ := mem_simplifyBlangs hout hb'
    have hclean := (ihB b (cleanBlangs_iff.mp h b hb)).2
    cases hf : flattenNested (simplifyBlangN n b) with
    | none =>
      rw [hf] at hmem
      rw [mem_singleton.mp hmem]
      exact hclean
    | some l =>
      rw [hf] at hmem
      exact hflat _ l hclean hf b' hmem
  unfold combineAbsorb
  split
  · trivial
  · trivial
  · next b hsome => exact hout [b] hsome b mem_cons_self
  · next out _ _ hsome => exact habsorb out (cleanBlangs_iff.mpr (hout out hsome))

theorem exact_absorb_clean (h : CleanBlangs env bs) (decisive : Bool) :
    EachReached env false decisive (ExactBlangN env n) bs :=
  eachReached_of_forall fun b hb => (ihB b (cleanBlangs_iff.mp h b hb)).1

theorem simplify_not_clean (h : CleanBlang env b) :
    ExactBlangN env (n + 1) (.not b) ∧ CleanBlang env (simplifyBlangN (n + 1) (.not b)) := by
  obtain ⟨hexact, hclean⟩ := ihB b h
  refine ⟨hexact, ?_⟩
  rw [simplifyBlangN]
  split
  · trivial
  · next hsimp =>
    rw [hsimp] at hclean
    exact hclean
  · exact hclean

theorem simplify_and_clean (h : CleanBlang env (.and bs)) :
    ExactBlangN env (n + 1) (.and bs) ∧ CleanBlang env (simplifyBlangN (n + 1) (.and bs)) := by
  obtain ⟨hconj, hordered⟩ := h
  have hsound : ∀ b ∈ bs, outcomeBlang env (simplifyBlangN n b) = outcomeBlang env b :=
    fun b hb => (simplifyN_sound env n).2 b (ihB b (hconj b hb).clean).1
  have hflat : ∀ b ∈ bs, flattenAnd (simplifyBlangN n b) = none :=
    fun b hb => (simplify_conjunct (hconj b hb)).2
  have hraised : ∀ b ∈ bs, outcomeBlang env b ≠ .raised := fun b hb => (hconj b hb).ne_raised
  refine ⟨⟨eachReached_of_forall fun b hb => (ihB b (hconj b hb).clean).1, fun hnone => ?_⟩, ?_⟩
  · obtain ⟨b, hb, hconst⟩ := simplifyBlangs_none hflat hnone
    have hfalse : outcomeBlang env b = .ok false := by
      rw [← hsound b hb, hconst, outcomeBlang_const]
    rw [outcomeBlang_and, loopOutcome_ordered hraised hordered hb hfalse]
    exact ⟨nofun, fun _ => nofun⟩
  · have hout : ∀ out, simplifyBlangs (simplifyBlangN n) flattenAnd true bs = some out →
        CleanBlang env (.and out) := by
      intro out hout
      have hsub := simplifyBlangs_sublist hflat hout
      refine ⟨fun b' hb' => ?_, ?_⟩
      · obtain ⟨b, hb, rfl⟩ := mem_map.mp (hsub.mem hb')
        exact (simplify_conjunct (hconj b hb)).1
      · refine List.Pairwise.sublist hsub (pairwise_map.mpr ?_)
        refine hordered.imp_of_mem fun {b b'} hb hb' hstep => ?_
        rw [hsound b hb, hsound b' hb']
        exact hstep
    rw [simplifyBlangN]
    unfold combineConnective
    split
    · trivial
    · trivial
    · next b hsome => exact ((hout [b] hsome).1 b mem_cons_self).clean
    · next out _ _ hsome => exact hout out hsome

end

/-- A clean term is simplified exactly, to a clean term. -/
theorem clean_simplifyN (n : Nat) :
    (∀ t : Slang P, CleanSlang env t →
      (∀ obs, ExactN env n obs t) ∧ CleanSlang env (simplifyN n t)) ∧
    ∀ b : Blang P, CleanBlang env b →
      ExactBlangN env n b ∧ CleanBlang env (simplifyBlangN n b) := by
  induction n with
  | zero => exact ⟨fun t h => ⟨fun _ => trivial, h⟩, fun b h => ⟨trivial, h⟩⟩
  | succ n ih =>
    obtain ⟨ih, ihB⟩ := ih
    refine ⟨fun t h => ?_, fun b h => ?_⟩
    · cases t with
      | nil | undefined => exact h.elim
      | literal sw => exact ⟨fun _ => trivial, h⟩
      | form l f =>
        cases f with
        | concat _ => exact simplify_concat_clean ih h
        | when_ _ _ => exact h.elim
        | if_ _ _ _ => exact simplify_if_clean ih ihB h
        | hasUndefinedVar _ => exact simplify_hasUndefinedVar_clean ih h
        | catchUndefinedVar _ _ => exact simplify_catchUndefinedVar_clean ih h.1 h.2
        | andAbsorbUndefinedVar bs =>
          refine ⟨fun _ => ⟨exact_absorb_clean ihB h false, fun _ => ?_⟩, ?_⟩
          · exact ⟨(CleanForm.oneValue l h).1, fun hraised => by cases hraised⟩
          · rw [simplifyN]
            refine combineAbsorb_clean ihB flattensClean_andAbsorb ?_ h
            exact fun _ h => h
        | orAbsorbUndefinedVar bs =>
          refine ⟨fun _ => ⟨exact_absorb_clean ihB h true, fun _ => ?_⟩, ?_⟩
          · exact ⟨(CleanForm.oneValue l h).1, fun hraised => by cases hraised⟩
          · rw [simplifyN]
            refine combineAbsorb_clean ihB flattensClean_orAbsorb ?_ h
            exact fun _ h => h
        | blang b => exact ⟨fun _ => (ihB b h).1, (ihB b h).2⟩
    · cases b with
      | const _ => exact ⟨trivial, trivial⟩
      | not _ => exact simplify_not_clean ihB h
      | expr _ => exact simplify_expr_clean ih ihB h
      | and _ => exact simplify_and_clean ihB h
      | or _ => exact h.elim
      | compare _ _ _ => exact simplify_compare_clean ih h.1 h.2

theorem outcomeBlang_simplify_clean (h : CleanBlang env b) :
    outcomeBlang env b.simplify = outcomeBlang env b :=
  (simplifyN_sound env b.size).2 b ((clean_simplifyN b.size).2 b h).1

end

end

end Dune.Rules
