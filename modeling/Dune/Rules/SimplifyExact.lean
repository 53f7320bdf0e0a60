import Dune.Lang.SlangBound
import Dune.Rules.SlangOutcome

/-!
# Concatenations and connectives under simplification

What the context of a term observes of it (`Obs`), and the two families of rewrites that work on
lists: merging the elements of a concatenation, and flattening, filtering and deduplicating the
elements of a connective. `ExactConcat`, `EachReached` and `Completed` say where those rewrites
are invisible; they are the building blocks of `ExactN`.
-/

namespace Dune.Rules

open List Dune.Stdune Dune.Lang StringWithVars

/-- What the context of a term observes of its values. -/
inductive Obs where
  /-- the values themselves -/
  | values
  /-- the parts that an enclosing concatenation joins -/
  | parts
  /-- only whether there are any: the argument of `has_undefined_var` -/
  | definedness
deriving DecidableEq, Repr

section
variable {P Q : Type}

/-- The observed part of a list of values. -/
def Obs.see (env : Env P Q) : Obs → List (DeferredConcat Q) → List (Value Q)
  | .values, ds => ds.map (DeferredConcat.force env)
  | .parts, ds => ds.flatten
  | .definedness, _ => []

/-- The outcome of a term, as its context observes it. -/
def observed (env : Env P Q) (obs : Obs) (t : Slang P) : Outcome (List (Value Q)) :=
  (outcome env t).map (obs.see env)

/-- `p` holds of the elements that the loop of a connective evaluates. -/
def EachReached (env : Env P Q) (strict decisive : Bool) (p : Blang P → Prop) :
    List (Blang P) → Prop
  | [] => True
  | b :: bs => p b ∧
    match outcomeBlang env b with
    | .ok v => v ≠ decisive → EachReached env strict decisive p bs
    | .undefined => strict = false → EachReached env strict decisive p bs
    | .raised => True

/-- The outcome of a loop that met no error it cannot absorb. -/
def Completed {α : Type} (strict : Bool) (o : Outcome α) : Prop :=
  o ≠ .raised ∧ (strict → o ≠ .undefined)

/-- The condition of the `Concat` rewrites, on the elements that remain. -/
def ExactConcat (env : Env P Q) (obs : Obs) : List (Slang P) → Prop
  | [] => obs ≠ .parts
  | [x] => obs = .values → ∀ ds, outcome env x = .ok ds → ds.length = 1
  | xs => (xs.map simpleTerm).all Option.isSome → ∀ sw, .literal sw ∈ xs →
    sw.quoted ≠ mergedQuoted ((xs.map simpleTerm).filterMap id) →
    ∀ p, sw.pformOnly = some p → ∀ vs, env.expandPform p = .ok (.ok vs) → vs.length ≤ 1

/-! ## Concatenations -/

theorem both_append_map_flatten (o o' : Outcome (List (DeferredConcat Q))) :
    (Outcome.both (· ++ ·) o o').map List.flatten =
      .both (· ++ ·) (o.map List.flatten) (o'.map List.flatten) := by
  cases o <;> cases o' <;> simp [Outcome.both]

variable {env : Env P Q} {xs : List (Slang P)} {simp1 : Slang P → Slang P}

/-- The parts of a concatenation are those of its surviving elements. -/
theorem parts_survivors (h : ∀ x ∈ xs, observed env .parts (simp1 x) = observed env .parts x) :
    (elements env (survivors simp1 xs)).map List.flatten = (elements env xs).map List.flatten := by
  induction xs with
  | nil => rfl
  | cons x xs ih =>
    have hx : (outcome env (simp1 x)).map List.flatten = (outcome env x).map List.flatten :=
      h x mem_cons_self
    have ih := ih fun y hy => h y (mem_cons_of_mem x hy)
    rw [elements, both_append_map_flatten, ← hx, ← ih]
    by_cases hnil : (simp1 x).isNil
    · have hx' : simp1 x = .nil := by
        cases hs : simp1 x <;> simp_all [Slang.isNil]
      have hsurv : survivors simp1 (x :: xs) = survivors simp1 xs := by
        simp [survivors, hnil]
      rw [hsurv, hx', outcome_nil]
      cases (elements env (survivors simp1 xs)).map List.flatten <;> rfl
    · have hsurv : survivors simp1 (x :: xs) = simp1 x :: survivors simp1 xs := by
        simp [survivors, hnil]
      rw [hsurv, elements, both_append_map_flatten]

def chunks (env : Env P Q) (loc : Loc) (sep : Option String) (parts : List (Lang.Part P)) :
    Outcome (DeferredConcat Q) :=
  .ofMemo (do
    let cs ← parts.mapM (expandPart env loc sep)
    pure ((resultAll cs).map List.flatten))

theorem chunks_cons (env : Env P Q) (loc : Loc) (sep : Option String) (p : Lang.Part P)
    (ps : List (Lang.Part P)) :
    chunks env loc sep (p :: ps) =
      .both (· ++ ·) (.ofMemo (expandPart env loc sep p)) (chunks env loc sep ps) := by
  simp only [chunks, mapM_cons]
  exact joined_cons _ _

/-- Outside the two special cases, a literal is one concatenation of its chunks. -/
theorem outcome_literal_chunks (env : Env P Q) {sw : StringWithVars P}
    (h : 2 ≤ sw.parts.length ∨ sw.quoted = true ∧ ∃ p, sw.parts = [.pform p]) :
    outcome env (.literal sw) =
      (chunks env sw.loc (if sw.quoted then some " " else none) sw.parts).map fun ds => [ds] := by
  obtain ⟨quoted, parts, loc⟩ := sw
  rw [outcome_literal, chunks]
  have hgen : expandResultDeferredConcat env ⟨quoted, parts, loc⟩ = (do
      let cs ← parts.mapM (expandPart env loc (if quoted then some " " else none))
      pure ((resultAll cs).map fun cs => [cs.flatten])) := by
    rcases h with h | ⟨rfl, p, rfl⟩
    · rcases parts with _ | ⟨a, _ | ⟨b, parts⟩⟩
      · simp at h
      · simp at h
      · simp only [expandResultDeferredConcat]
    · simp only [expandResultDeferredConcat]
  rw [hgen]
  exact (joined_map (fun ds => [ds]) _).symm

theorem concatValues_short (sep : Option String) {vs : List (Value Q)} (h : vs.length ≤ 1) :
    DeferredConcat.concatValues sep vs = vs := by
  rcases vs with _ | ⟨a, _ | ⟨b, vs⟩⟩
  · cases sep <;> rfl
  · cases sep <;> rfl
  · simp at h

/-- A percent form on its own: with quotes its values are joined by blanks. -/
theorem outcome_pformOnly (env : Env P Q) (q : Bool) (p : P) (l : Loc) :
    (outcome env (.literal ⟨q, [.pform p], l⟩)).map List.flatten =
      (.ofMemo (env.expandPform p) : Outcome (List (Value Q))).map
        (DeferredConcat.concatValues (if q then some " " else none)) := by
  cases q with
  | false =>
    rw [outcome_literal]
    simp only [expandResultDeferredConcat]
    rcases env.expandPform p with e | (u | vs)
    · rfl
    · rfl
    · have hflat : (vs.map fun x => [x]).flatten = vs := flatMap_singleton' vs
      simp [Outcome.ofMemo, bind, Except.bind, pure, Except.pure, Except.map, hflat,
        DeferredConcat.concatValues]
  | true =>
    rw [outcome_literal_chunks env (.inr ⟨rfl, p, rfl⟩), chunks_cons]
    simp only [expandPart]
    rcases env.expandPform p with e | (u | vs)
    · rfl
    · rfl
    · simp [chunks, resultAll, Outcome.ofMemo, Outcome.both, bind, Except.bind, pure,
        Except.pure, Except.map]

variable (loc : Loc)

/-- A simple element and its part in the merged literal join the same values, unless the
quotes of the two differ and a percent form has several. -/
theorem parts_simpleTerm {quoted : Bool} {x : Slang P} {term : SimpleTerm P}
    (hterm : simpleTerm x = some term)
    (hquoted : ∀ sw, x = .literal sw → sw.quoted ≠ quoted → ∀ p, sw.pformOnly = some p →
      ∀ vs, env.expandPform p = .ok (.ok vs) → vs.length ≤ 1) :
    (outcome env x).map List.flatten =
      .ofMemo (expandPart env loc (if quoted then some " " else none) term.part) := by
  rcases x with _ | _ | sw | ⟨l, f⟩
  · cases hterm
  · cases hterm
  · obtain ⟨q, parts, l⟩ := sw
    by_cases htext : ∃ s, parts = [.text s]
    · obtain ⟨s, rfl⟩ := htext
      cases hterm
      rw [outcome_literal]
      rfl
    by_cases hpform : ∃ p, parts = [.pform p]
    · obtain ⟨p, rfl⟩ := hpform
      cases hterm
      have hsep : ∀ vs, env.expandPform p = .ok (.ok vs) →
          DeferredConcat.concatValues (if q then some " " else none) vs =
            DeferredConcat.concatValues (if quoted then some " " else none) vs := by
        intro vs hvs
        by_cases hq : q = quoted
        · rw [hq]
        · have hlen := hquoted _ rfl hq p rfl vs hvs
          rw [concatValues_short _ hlen, concatValues_short _ hlen]
      rw [outcome_pformOnly]
      simp only [SimpleTerm.part, expandPart]
      rcases hp : env.expandPform p with e | (u | vs)
      · rfl
      · rfl
      · simpa [Outcome.ofMemo, bind, Except.bind, pure, Except.pure, Except.map] using hsep vs hp
    · -- neither of the two shapes: the term is not simple
      exfalso
      simp only [simpleTerm, textOnly, pformOnly] at hterm
      split at hterm <;> simp_all
  · cases hterm

/-- The merged literal joins the parts of the elements it was made of. -/
theorem chunks_simpleTerms {quoted : Bool}
    (hsimple : (xs.map simpleTerm).all Option.isSome)
    (hquoted : ∀ sw, .literal sw ∈ xs → sw.quoted ≠ quoted → ∀ p, sw.pformOnly = some p →
      ∀ vs, env.expandPform p = .ok (.ok vs) → vs.length ≤ 1) :
    chunks env loc (if quoted then some " " else none)
        (((xs.map simpleTerm).filterMap id).map SimpleTerm.part) =
      (elements env xs).map List.flatten := by
  induction xs with
  | nil => rfl
  | cons x xs ih =>
    rw [map_cons, all_cons, Bool.and_eq_true, Option.isSome_iff_exists] at hsimple
    obtain ⟨⟨term, hterm⟩, hrest⟩ := hsimple
    have hx : (outcome env x).map List.flatten = .ofMemo
        (expandPart env loc (if quoted then some " " else none) term.part) :=
      parts_simpleTerm loc hterm fun sw hsw => hquoted sw (hsw ▸ mem_cons_self)
    have ih := ih hrest fun sw hsw => hquoted sw (mem_cons_of_mem x hsw)
    rw [elements, both_append_map_flatten, hx, ← ih, map_cons, hterm,
      filterMap_cons_some (by rfl), map_cons, chunks_cons]

theorem length_simpleTerms (h : (xs.map simpleTerm).all Option.isSome) :
    ((xs.map simpleTerm).filterMap id).length = xs.length := by
  rw [length_filterMap_eq_countP, countP_eq_length.mpr, length_map]
  simpa using h

/-- Two or more surviving elements: the merged literal is the concatenation. -/
theorem outcome_combineConcat {obs : Obs} (hlen : 2 ≤ xs.length)
    (h : ExactConcat env obs xs) :
    outcome env (combineConcat loc xs) = (elements env xs).map fun ds => [ds.flatten] := by
  rcases xs with _ | ⟨a, _ | ⟨b, rest⟩⟩
  · simp at hlen
  · simp at hlen
  rw [combineConcat]
  split
  · next hsimple =>
    have hparts := length_simpleTerms hsimple
    rw [outcome_literal_chunks env (by left; simp only [make, length_map, hparts, hlen])]
    have hjoin := chunks_simpleTerms loc hsimple (h hsimple)
    refine (congrArg (Outcome.map fun ds => [ds]) hjoin).trans ?_
    rw [Outcome.map_map]
  · rw [outcome_concat]
  · exact fun h => by cases h
  · exact fun x h => by cases h

/-- The rewrites of `Concat` are invisible where `ExactConcat` holds. -/
theorem observed_concat {obs : Obs}
    (hxs : ∀ x ∈ xs, observed env .parts (simp1 x) = observed env .parts x)
    (h : ExactConcat env obs (survivors simp1 xs)) :
    observed env obs (combineConcat loc (survivors simp1 xs)) =
      observed env obs (.form loc (.concat xs)) := by
  have hjoin : outcome env (.form loc (.concat xs)) =
      ((elements env (survivors simp1 xs)).map List.flatten).map fun d => [d] := by
    rw [parts_survivors hxs, outcome_concat, Outcome.map_map]
  rw [observed, observed, hjoin]
  generalize survivors simp1 xs = ys at h ⊢
  rcases ys with _ | ⟨x, _ | ⟨y, ys⟩⟩
  · cases obs with
    | parts => exact absurd rfl h
    | values | definedness => rfl
  · have hx : (elements env [x]).map List.flatten = (outcome env x).map List.flatten := by
      rw [elements, both_append_map_flatten]
      cases outcome env x <;> simp [elements, Outcome.both]
    rw [hx, Outcome.map_map, Outcome.map_map]
    refine Outcome.map_congr fun ds hds => ?_
    cases obs with
    | parts => simp [Obs.see]
    | definedness => rfl
    | values =>
      obtain ⟨d, rfl⟩ := length_eq_one_iff.mp (h rfl ds hds)
      simp [Obs.see]
  · rw [outcome_combineConcat loc (by simp) h, Outcome.map_map, Outcome.map_map, Outcome.map_map]

section

/-! ## Connectives -/

theorem outcomeBlang_dedupLoop [DecidableEq P] (env : Env P Q) (strict decisive seen : Bool)
    (acc bs : List (Blang P)) :
    loopOutcome strict decisive seen ((dedupLoop acc bs).map (outcomeBlang env)) =
      loopOutcome strict decisive seen ((acc.reverse ++ bs).map (outcomeBlang env)) := by
  fun_induction dedupLoop acc bs with
  | case1 => rw [append_nil]
  | case2 acc b bs h ih =>
    obtain ⟨b', hb', heq⟩ := any_eq_true.mp h
    have hmem : outcomeBlang env b ∈ acc.reverse.map (outcomeBlang env) := by
      rw [Blang.eq_of_equal heq]
      exact mem_map_of_mem (mem_reverse.mpr hb')
    rw [ih, map_append, map_append, map_cons, loopOutcome_dup strict decisive hmem]
  | case3 acc b bs _ ih => rw [ih, reverse_cons, append_assoc, singleton_append]

theorem loopOutcome_singleton (strict decisive : Bool) (o : Outcome Bool) :
    loopOutcome strict decisive false [o] = o := by
  cases o with
  | ok v => cases v <;> cases decisive <;> rfl
  | undefined => cases strict <;> rfl
  | raised => rfl

variable {bs out : List (Blang P)}

/-- Dropping the constants of a list of elements, when none of them is decisive. -/
theorem loopOutcome_filterConst (env : Env P Q) (strict identity seen : Bool)
    (h : optionConcatMap (filterConst identity) bs = some out) :
    loopOutcome strict (!identity) seen (out.map (outcomeBlang env)) =
      loopOutcome strict (!identity) seen (bs.map (outcomeBlang env)) := by
  induction bs generalizing seen out with
  | nil =>
    cases h
    rfl
  | cons b bs ih =>
    obtain ⟨l, rest, hl, hrest, rfl⟩ := optionConcatMap_cons h
    have hb : loopOutcome strict (!identity) false (l.map (outcomeBlang env)) =
        outcomeBlang env b := by
      unfold filterConst at hl
      split at hl
      · obtain ⟨rfl, ⟨⟩⟩ := Option.ite_none_right_eq_some.mp hl
        simp [loopOutcome]
      · cases hl
        exact loopOutcome_singleton strict (!identity) _
    rw [map_append, loopOutcome_splice strict (!identity) hb, map_cons, loopOutcome_cons,
      loopOutcome_cons]
    simp only [ih _ hrest]

theorem optionConcatMap_none {α β : Type} {f : α → Option (List β)} {xs : List α}
    (h : optionConcatMap f xs = none) : ∃ x ∈ xs, f x = none := by
  induction xs with
  | nil => cases h
  | cons x xs ih =>
    rw [optionConcatMap] at h
    split at h
    · next hx => exact ⟨x, mem_cons_self, hx⟩
    · obtain ⟨y, hy, hf⟩ := ih (Option.map_eq_none_iff.mp h)
      exact ⟨y, mem_cons_of_mem _ hy, hf⟩

theorem filterConst_none (env : Env P Q) {identity : Bool}
    (h : optionConcatMap (filterConst identity) bs = none) :
    .ok (!identity) ∈ bs.map (outcomeBlang env) := by
  obtain ⟨b, hb, hnone⟩ := optionConcatMap_none h
  unfold filterConst at hnone
  split at hnone
  · next v =>
    have hv : v = !identity := Bool.eq_not.mpr (by simpa using hnone)
    exact mem_map.mpr ⟨_, hb, by rw [outcomeBlang_const, hv]⟩
  · cases hnone

/-- The loop only depends on the elements it reaches. -/
theorem loopOutcome_reached {strict decisive seen : Bool} {p : Blang P → Prop}
    {b : Blang P} (h : EachReached env strict decisive p (b :: bs)) {rest : List (Outcome Bool)}
    (ih : ∀ seen, EachReached env strict decisive p bs →
      loopOutcome strict decisive seen rest = loopOutcome strict decisive seen (bs.map
      (outcomeBlang env))) :
    loopOutcome strict decisive seen (outcomeBlang env b :: rest) =
      loopOutcome strict decisive seen ((b :: bs).map (outcomeBlang env)) := by
  obtain ⟨-, hrest⟩ := h
  rw [map_cons, loopOutcome_cons, loopOutcome_cons]
  cases hb : outcomeBlang env b with
  | ok v =>
    rw [hb] at hrest
    by_cases hv : v = decisive
    · simp [hv]
    · simp only [hv, if_false]
      exact ih seen (hrest hv)
  | undefined =>
    rw [hb] at hrest
    cases strict with
    | true => rfl
    | false => exact ih true (hrest rfl)
  | raised => rfl

section
variable {env : Env P Q} {strict identity : Bool} {simp1 : Blang P → Blang P}
  {flattenNested : Blang P → Option (List (Blang P))} {p : Blang P → Prop}

/-- A nested connective is flattened only when it is the loop of its elements. -/
def Flattens (env : Env P Q) (strict decisive : Bool)
    (flattenNested : Blang P → Option (List (Blang P))) : Prop :=
  ∀ b bs, flattenNested b = some bs →
    loopOutcome strict decisive false (bs.map (outcomeBlang env)) = outcomeBlang env b

theorem loopOutcome_flattened (hflat : Flattens env strict (!identity) flattenNested)
    (b : Blang P) :
    loopOutcome strict (!identity) false
      (((flattenNested b).getD [b]).map (outcomeBlang env)) = outcomeBlang env b := by
  cases hb : flattenNested b with
  | some bs => exact hflat b bs hb
  | none =>
    exact loopOutcome_singleton strict (!identity) _

variable [DecidableEq P]

section

variable (hsimp : ∀ b, p b → outcomeBlang env (simp1 b) = outcomeBlang env b)
include hsimp

section

variable (hflat : Flattens env strict (!identity) flattenNested)
include hflat

/-- The elements that `simplify_blangs` keeps have the same loop as the original ones. -/
theorem loopOutcome_simplifyBlangs (hp : EachReached env strict (!identity) p bs)
    (h : simplifyBlangs simp1 flattenNested identity bs = some out) (seen : Bool) :
    loopOutcome strict (!identity) seen (out.map (outcomeBlang env)) =
      loopOutcome strict (!identity) seen (bs.map (outcomeBlang env)) := by
  obtain ⟨kept, hkept, rfl⟩ := Option.map_eq_some_iff.mp h
  rw [outcomeBlang_dedupLoop, reverse_nil, nil_append]
  clear h
  induction bs generalizing seen kept with
  | nil =>
    cases hkept
    rfl
  | cons b bs ih =>
    obtain ⟨ys, kept', hys, hkept', rfl⟩ := optionConcatMap_cons hkept
    have hb : loopOutcome strict (!identity) false (ys.map (outcomeBlang env)) =
        outcomeBlang env b := by
      rw [loopOutcome_filterConst env strict identity false hys, loopOutcome_flattened hflat,
        hsimp b hp.1]
    rw [map_append, loopOutcome_splice strict (!identity) hb]
    exact loopOutcome_reached hp fun seen hrest => ih hrest seen kept' hkept'

/-- A dominated connective has its decisive value, unless its loop fails before reaching it. -/
theorem loopOutcome_dominated (hp : EachReached env strict (!identity) p bs)
    (h : simplifyBlangs simp1 flattenNested identity bs = none) (seen : Bool)
    (hok : Completed strict (loopOutcome strict (!identity) seen (bs.map (outcomeBlang env)))) :
    loopOutcome strict (!identity) seen (bs.map (outcomeBlang env)) = .ok (!identity) := by
  have hnone := Option.map_eq_none_iff.mp h
  clear h
  induction bs generalizing seen with
  | nil => cases hnone
  | cons b bs ih =>
    obtain ⟨hb, hrest⟩ := hp
    rw [map_cons, loopOutcome_cons] at hok ⊢
    rw [optionConcatMap] at hnone
    split at hnone
    · next hbn =>
      have hmem := filterConst_none env hbn
      have hdec := loopOutcome_decisive strict (!identity) hmem false
      rw [loopOutcome_flattened hflat, hsimp b hb] at hdec
      rcases hdec with hdec | hdec | ⟨hs, hdec⟩
      · simp [hdec]
      · simp [hdec, Completed] at hok
      · simp [hdec, Completed, hs] at hok
    · have hnone := Option.map_eq_none_iff.mp hnone
      cases hob : outcomeBlang env b with
      | ok v =>
        rw [hob] at hrest hok
        by_cases hv : v = !identity
        · simp [hv]
        · simp only [hv, if_false] at hok ⊢
          exact ih (hrest hv) seen hok hnone
      | undefined =>
        rw [hob] at hrest hok
        cases strict with
        | true => exact absurd rfl (hok.2 rfl)
        | false => exact ih (hrest rfl) true hok hnone
      | raised =>
        rw [hob] at hok
        exact absurd rfl hok.1

end

end

end

end

end

end Dune.Rules
