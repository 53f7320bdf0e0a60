import Dune.Sat.Learning

/-!
# Building a problem

Before the solver runs there is one level and no clause has been told of anything. Adding a
constraint keeps this state, for the problem with the new constraint.
-/

open List

namespace Dune.Sat

namespace Problem

section
variable {Φ Ψ : List Constraint} {p q : Problem} {D : ClauseId → List Lit}
  {extra : Lit → List ClauseId} {k : Int}

/-- The state while the problem is built. -/
structure Building (Φ : List Constraint) (p : Problem) : Prop where
  ready : Ready Φ p []
  level : p.trailLimLen = 0
  conflict : p.toplevelConflict = true → ∀ α, ¬Models Φ α

/-- The problem that the invariant speaks of may change while there is a toplevel conflict. -/
theorem Inv.reset (h : Inv Φ p D extra k) (hmono : ∀ α, Models Ψ α → Models Φ α) {b : Bool}
    {n m : Nat}
    (hcomplete : b = false → p.Complete Ψ) :
    Inv Ψ { p with toplevelConflict := b, numClauses := n, numConflicts := m } D extra k where
  trail := { h.trail with }
  reasons := ⟨fun l hl hzero α hα => h.reasons.facts l hl hzero α (hmono α hα), h.reasons.justified⟩
  clauses := { h.clauses with entailed := fun c hc α hα => h.clauses.entailed c hc α (hmono α hα) }
  watch := { h.watch with }
  undo := { h.undo with }
  concluded := h.concluded
  complete := hcomplete

namespace Building
variable (h : Building Φ p)
include h

/-- While the problem is built, every assignment is a fact. -/
theorem level_zero {l : Lit} (hl : l ∈ p.trail) : p.level l.var = 0 := by
  have hle := h.ready.inv.trail.level_le hl
  have hnonneg := h.ready.inv.trail.level_nonneg hl
  rw [h.level] at hle
  omega

theorem forces {l : Lit} (hl : l ∈ p.trail) : Forces Φ l :=
  h.ready.inv.reasons.facts l hl (h.level_zero hl)

variable {c : Constraint} {n : Nat}

theorem skip (hholds : ∀ α, (∀ l ∈ p.trail, l.eval α = true) → c.Holds α) :
    Building (Φ ++ [c]) { p with numClauses := n } := by
  refine ⟨⟨?_, h.ready.trail, h.ready.lower⟩, h.level, fun hconflict α hα =>
    h.conflict hconflict α hα.of_append.1⟩
  exact h.ready.inv.reset (fun α hα => hα.of_append.1) fun hconflict α hfacts hclauses =>
    .append (h.ready.inv.complete hconflict α hfacts hclauses)
      (hholds α fun l hl => hfacts l hl (h.level_zero hl))

theorem contradict (hnot : ∀ α, Models Φ α → ¬c.Holds α) :
    Building (Φ ++ [c]) { p with toplevelConflict := true, numClauses := n } := by
  refine ⟨⟨h.ready.inv.reset (fun α hα => hα.of_append.1) nofun, h.ready.trail, h.ready.lower⟩,
    h.level, fun _ α hα => hnot α hα.of_append.1 hα.of_append.2⟩

theorem fact {lit : Lit} {reason : Reason} (hlit : p.litValue lit = .undecided)
    (hbound : lit.var < p.numVars) (hforces : Forces (Φ ++ [c]) lit)
    (hholds : ∀ α, lit.eval α = true → c.Holds α) :
    Building (Φ ++ [c]) ({ p with numClauses := n }.assign lit reason) := by
  -- the invariant for the new problem, with a toplevel conflict until the fact is known
  have hreset : Inv (Φ ++ [c]) { p with toplevelConflict := true, numClauses := n } _ _ _ :=
    h.ready.inv.reset (fun α hα => hα.of_append.1) nofun
  have hzero : (p.trailLimLen : Int) = 0 := by rw [h.level]; rfl
  have hassigned : Inv (Φ ++ [c])
      ({ p with toplevelConflict := true, numClauses := n }.assign lit reason) _ _ _ :=
    hreset.assign hlit hbound (fun _ => hforces) (.inl (level_assign_self.trans hzero))
  have hinv := hassigned.reset (Ψ := Φ ++ [c]) (b := p.toplevelConflict) (n := n)
      (m := p.numConflicts)
    (fun _ hα => hα) fun hconflict α hfacts hclauses => by
      refine .append ?_ (hholds α (hfacts lit mem_cons_self (level_assign_self.trans hzero)))
      refine h.ready.inv.complete hconflict α (fun l hl hl0 => hfacts l (mem_cons_of_mem _ hl) ?_)
        hclauses
      refine (level_assign_of_ne ?_).trans hl0
      exact h.ready.inv.trail.not_mem_of_undecided hlit l hl
  refine ⟨⟨hinv, ?_, ?_⟩, h.level, fun hconflict α hα => h.conflict hconflict α hα.of_append.1⟩
  · show lit :: p.trail = (p.propQ ++ [lit]).reverse ++ []
    rw [append_nil, reverse_append, h.ready.trail, append_nil]
    rfl
  · intro l hl hlt
    have hnonneg := hinv.trail.level_nonneg hl
    have hlen : ({ p with numClauses := n }.assign lit reason).trailLimLen = 0 := h.level
    rw [hlen] at hlt
    have hnonneg : 0 ≤ ({ p with numClauses := n }.assign lit reason).level l.var := hnonneg
    omega

theorem clause (cl : Clause) {watchQueue' : Lit → List ClauseId}
    (hentailed : Entails (Φ ++ [c]) cl.constraint) (hdistinct : cl.Distinct)
    (hbound : ∀ l ∈ cl.lits, l.var < p.numVars) (hcurrent : cl.current = [])
    (hqueue : p.Queues cl watchQueue')
    (hholds : ∀ α, (∀ l ∈ p.trail, l.eval α = true) → cl.constraint.Holds α → c.Holds α) :
    Building (Φ ++ [c]) { p with
      numClauses := n
      heap := update p.heap p.nextClause cl
      nextClause := p.nextClause + 1
      watchQueue := watchQueue' } := by
  have hreset : Inv (Φ ++ [c]) { p with toplevelConflict := true, numClauses := n } _ _ _ :=
    h.ready.inv.reset (fun α hα => hα.of_append.1) nofun
  have hadded := hreset.addClause cl hentailed hdistinct hbound hcurrent hqueue
  have hinv := hadded.reset (Ψ := Φ ++ [c]) (b := p.toplevelConflict) (n := n) (m := p.numConflicts)
    (fun _ hα => hα) fun hconflict α hfacts hclauses => by
      refine .append ?_ ?_
      · refine h.ready.inv.complete hconflict α hfacts fun e he => ?_
        have hh : (update p.heap p.nextClause cl e).constraint.Holds α :=
          hclauses e (Nat.lt_succ_of_lt he)
        rwa [update_of_ne _ _ (Nat.ne_of_lt he)] at hh
      · have hh : (update p.heap p.nextClause cl p.nextClause).constraint.Holds α :=
          hclauses _ (Nat.lt_succ_self _)
        rw [update_same] at hh
        exact hholds α (fun l hl => hfacts l hl (h.level_zero hl)) hh
  refine ⟨⟨?_, h.ready.trail, h.ready.lower⟩, h.level,
    fun hconflict α hα => h.conflict hconflict α hα.of_append.1⟩
  refine hinv.congr fun e _ => ?_
  by_cases he : e = p.nextClause
  · rw [he, update_same]
  · rw [update_of_ne _ _ he]

end Building

/-! ## At least one -/

/-- What `simplify` finds: an always true clause, or the distinct literals that are not false. -/
def Simplified (p : Problem) (lits : List Lit) (unique : Option (List Lit)) : Prop :=
  match unique with
  | none => ∃ l ∈ lits, l.neg ∈ lits
  | some unique => (unique.map Lit.var).Nodup ∧ (∀ l ∈ unique, l ∈ lits ∧ p.litValue l ≠ .false) ∧
      ∀ l ∈ lits, l ∈ unique ∨ p.litValue l = .false

theorem simplifyLoop_spec (p : Problem) (lits : List Lit) : ∀ {unique xs : List Lit},
    (∀ l ∈ xs, l ∈ lits) → (unique.map Lit.var).Nodup →
    (∀ l ∈ unique, l ∈ lits ∧ p.litValue l ≠ .false) →
    (∀ l ∈ lits, l ∈ unique ∨ p.litValue l = .false ∨ l ∈ xs) →
    p.Simplified lits (p.simplifyLoop unique unique xs)
  | unique, [], _, hnodup, hunique, hlits =>
    ⟨hnodup, hunique, fun l hl => (hlits l hl).imp_right fun h => h.elim id nofun⟩
  | unique, x :: xs, hxs, hnodup, hunique, hlits => by
    have hx := hxs x mem_cons_self
    have hxs' : ∀ l ∈ xs, l ∈ lits := fun l hl => hxs l (mem_cons_of_mem _ hl)
    have hskip (h : x ∈ unique ∨ p.litValue x = .false) :
        ∀ l ∈ lits, l ∈ unique ∨ p.litValue l = .false ∨ l ∈ xs := by
      grind
    rw [simplifyLoop]
    split
    · next hneg => exact ⟨x, hx, (hunique _ hneg).1⟩
    next hneg =>
    split
    · next hmem => exact simplifyLoop_spec p lits hxs' hnodup hunique (hskip (.inl hmem))
    next hmem =>
    split
    · next hfalse => exact simplifyLoop_spec p lits hxs' hnodup hunique (hskip (.inr hfalse))
    · next hfalse =>
      refine simplifyLoop_spec p lits hxs' ?_ ?_ (by grind)
      · refine nodup_cons.mpr ⟨fun hvar => ?_, hnodup⟩
        obtain ⟨l, hl, hvar⟩ := mem_map.mp hvar
        rcases Lit.eq_or_eq_neg hvar with rfl | rfl
        · exact hmem hl
        · exact hneg hl
      · exact forall_mem_cons.mpr ⟨⟨hx, hfalse⟩, hunique⟩

theorem simplify_spec (p : Problem) (lits : List Lit) : p.Simplified lits (p.simplify lits) :=
  simplifyLoop_spec p lits (fun _ hl => hl) nodup_nil nofun fun _ hl => .inr (.inr hl)

namespace Building
variable (h : Building Φ p) {lits : List Lit}
include h

/-- The literals that are left are the only ones that can be true. -/
theorem atLeastOne_unique {unique : List Lit}
    (hlits : ∀ l ∈ lits, l ∈ unique ∨ p.litValue l = .false) :
    Entails (Φ ++ [.atLeastOne lits]) (.atLeastOne unique) := by
  intro α hα
  obtain ⟨l, hl, htrue⟩ := hα.of_append.2
  rcases hlits l hl with hmem | hfalse
  · exact ⟨l, hmem, htrue⟩
  · have hneg := h.forces (h.ready.inv.trail.litValue_false.mp hfalse) α hα.of_append.1
    rw [Lit.eval_neg, htrue] at hneg
    cases hneg

theorem atLeastOne {reason : String} (hbound : ∀ l ∈ lits, l.var < p.numVars) :
    ∃ q, p.atLeastOne reason lits = .ok q ∧ Building (Φ ++ [.atLeastOne lits]) q := by
  have ht := h.ready.inv.trail
  rw [Problem.atLeastOne]
  split
  · next hempty =>
    refine ⟨_, rfl, h.contradict fun α _ hholds => ?_⟩
    rw [isEmpty_iff.mp hempty] at hholds
    obtain ⟨l, hl, -⟩ := hholds
    cases hl
  split
  · next hany =>
    obtain ⟨l, hl, htrue⟩ := any_eq_true.mp hany
    exact ⟨_, rfl, h.skip fun α hfacts =>
      ⟨l, hl, hfacts l ((ht.value l).mp (of_decide_eq_true htrue))⟩⟩
  next hany =>
  have hnotTrue : ∀ l ∈ lits, p.litValue l ≠ .true := by
    intro l hl htrue
    exact hany (any_eq_true.mpr ⟨l, hl, decide_eq_true htrue⟩)
  have hspec := simplify_spec { p with numClauses := p.numClauses + 1 } lits
  generalize hunique : simplify { p with numClauses := p.numClauses + 1 } lits = unique at hspec
  have hundecided : ∀ {l}, l ∈ lits → p.litValue l ≠ .false → p.litValue l = .undecided := by
    intro l hl hfalse
    cases hvalue : p.litValue l with
    | true => exact absurd hvalue (hnotTrue l hl)
    | false => exact absurd hvalue hfalse
    | undecided => rfl
  rcases unique with _ | (_ | ⟨lit, _ | ⟨b, rest⟩⟩)
  · obtain ⟨l, hl, hneg⟩ := hspec
    refine ⟨_, rfl, h.skip fun α _ => ?_⟩
    by_cases htrue : l.eval α = true
    · exact ⟨l, hl, htrue⟩
    · exact ⟨l.neg, hneg, by rw [Lit.eval_neg]; simpa using htrue⟩
  · obtain ⟨-, -, hlits⟩ := hspec
    refine ⟨_, rfl, h.contradict fun α hα hholds => ?_⟩
    obtain ⟨l, hl, -⟩ := h.atLeastOne_unique hlits α (hα.append hholds)
    cases hl
  · obtain ⟨-, hunique, hlits⟩ := hspec
    obtain ⟨hmem, hfalse⟩ := hunique lit mem_cons_self
    have hlit := hundecided hmem hfalse
    have hforces : Forces (Φ ++ [.atLeastOne lits]) lit := by
      intro α hα
      obtain ⟨l, hl, htrue⟩ := h.atLeastOne_unique hlits α hα
      rwa [mem_singleton.mp hl] at htrue
    have hlit' : litValue { p with numClauses := p.numClauses + 1 } lit = .undecided := hlit
    refine ⟨{ p with numClauses := p.numClauses + 1 }.assign lit (.external reason), ?_, ?_⟩
    · simp only [internalAtLeastOne, enqueue_undecided hlit']
      rfl
    · exact h.fact hlit (hbound lit hmem) hforces fun α htrue => ⟨lit, hmem, htrue⟩
  · obtain ⟨hnodup, hunique, hlits⟩ := hspec
    have hab : lit ≠ b := by
      rintro rfl
      exact (nodup_cons.mp hnodup).1 mem_cons_self
    refine ⟨{ p with numClauses := p.numClauses + 1 }.addUnion lit b rest, rfl, ?_⟩
    refine h.clause (.union lit b rest) (h.atLeastOne_unique hlits) hnodup
      (fun l hl => hbound l (hunique l hl).1) rfl (addUnion_queue hab rest) ?_
    rintro α - ⟨l, hl, htrue⟩
    exact ⟨l, (hunique l hl).1, htrue⟩

end Building

/-! ## At most `nb` -/

theorem hasDuplicatesLoop_false : ∀ {lits seen : List Lit}, hasDuplicatesLoop seen lits = false →
    lits.Nodup ∧ ∀ l ∈ lits, l ∉ seen
  | [], _, _ => ⟨List.nodup_nil, nofun⟩
  | x :: lits, seen, h => by
    rw [hasDuplicatesLoop] at h
    split at h
    · cases h
    · next hx =>
      obtain ⟨hnodup, hseen⟩ := hasDuplicatesLoop_false h
      refine ⟨nodup_cons.mpr ⟨fun hmem => hseen x hmem mem_cons_self, hnodup⟩, ?_⟩
      exact forall_mem_cons.mpr ⟨hx, fun l hl hmem => hseen l hl (mem_cons_of_mem _ hmem)⟩

theorem foldl_watchLit (c : ClauseId) : ∀ (lits : List Lit) (p : Problem), lits.Nodup →
    ∃ watchQueue', lits.foldl (fun p l => p.watchLit l c) p = { p with watchQueue := watchQueue' } ∧
      ∀ l, l ∈ lits ∧ watchQueue' l = p.watchQueue l ++ [c] ∨
        l ∉ lits ∧ watchQueue' l = p.watchQueue l
  | [], p, _ => ⟨p.watchQueue, rfl, fun l => .inr ⟨nofun, rfl⟩⟩
  | x :: lits, p, hnodup => by
    obtain ⟨hx, hnodup⟩ := nodup_cons.mp hnodup
    obtain ⟨watchQueue', hrun, hqueue⟩ := foldl_watchLit c lits (p.watchLit x c) hnodup
    refine ⟨watchQueue', hrun, fun l => ?_⟩
    by_cases hl : l = x
    · subst hl
      rcases hqueue l with ⟨hmem, -⟩ | ⟨-, heq⟩
      · exact absurd hmem hx
      · exact .inl ⟨mem_cons_self, heq.trans (update_same _ _ _)⟩
    · have hold : (p.watchLit x c).watchQueue l = p.watchQueue l := update_of_ne _ _ hl
      have hqueue := hqueue l
      rw [hold] at hqueue
      rcases hqueue with ⟨hmem, heq⟩ | ⟨hmem, heq⟩
      · exact .inl ⟨mem_cons_of_mem _ hmem, heq⟩
      · exact .inr ⟨fun hin => (mem_cons.mp hin).elim hl hmem, heq⟩

theorem countP_filter_not_false {α : Assignment} (ht : TrailInv p)
    (hfacts : ∀ l ∈ p.trail, l.eval α = true) (lits : List Lit) :
    (lits.filter fun l => p.litValue l ≠ .false).countP (·.eval α) = lits.countP (·.eval α) := by
  rw [countP_filter]
  refine countP_congr fun l _ => ?_
  constructor
  · intro htrue
    exact (Bool.and_eq_true_iff.mp htrue).1
  · intro htrue
    refine Bool.and_eq_true_iff.mpr ⟨htrue, decide_eq_true fun hfalse => ?_⟩
    have hneg := hfacts _ (ht.litValue_false.mp hfalse)
    rw [Lit.eval_neg, htrue] at hneg
    cases hneg

namespace Building
variable (h : Building Φ p) {lits : List Lit}
include h

theorem atMost {nb : Nat} {c : ClauseId} (hbound : ∀ l ∈ lits, l.var < p.numVars)
    (hrun : p.atMost nb lits = .ok (c, q)) : Building (Φ ++ [.atMost nb lits]) q := by
  have ht := h.ready.inv.trail
  unfold Problem.atMost at hrun
  obtain ⟨-, -, hrun⟩ := Stdune.bind_ok hrun
  split at hrun
  · cases hrun
  next hdup =>
  have hnodup := (hasDuplicatesLoop_false (Bool.eq_false_iff.mpr hdup)).1
  obtain ⟨watchQueue', hfold, hqueue⟩ := foldl_watchLit p.nextClause
    (lits.filter fun l => p.litValue l ≠ .false) { p with
      numClauses := p.numClauses + 1
      heap := update p.heap p.nextClause
        (.atMost nb [] (lits.filter fun l => p.litValue l ≠ .false))
      nextClause := p.nextClause + 1 } (hnodup.filter _)
  have hrun := Except.ok.inj hrun
  rw [← (Prod.mk.inj hrun).2, hfold]
  refine h.clause (.atMost nb [] (lits.filter fun l => p.litValue l ≠ .false)) ?_ (hnodup.filter _)
    (fun l hl => hbound l (mem_filter.mp hl).1) rfl hqueue fun α hfacts hholds => ?_
  · intro α hα
    have hholds : lits.countP (·.eval α) ≤ nb := hα.of_append.2
    have hfacts : ∀ l ∈ p.trail, l.eval α = true := fun l hl => h.forces hl α hα.of_append.1
    show (lits.filter fun l => p.litValue l ≠ .false).countP (·.eval α) ≤ nb
    rwa [countP_filter_not_false ht hfacts]
  · have hholds : (lits.filter fun l => p.litValue l ≠ .false).countP (·.eval α) ≤ nb := hholds
    show lits.countP (·.eval α) ≤ nb
    rwa [countP_filter_not_false ht hfacts] at hholds

theorem addVariable : Building Φ p.addVariable.2 := by
  have hinv := h.ready.inv
  have hvars (v : Nat) : v ∈ p.numVars :: p.vars ↔ v < p.numVars + 1 := by
    rw [mem_cons, hinv.trail.vars]
    omega
  exact { h with ready := { h.ready with inv := { hinv with
    trail := { hinv.trail with
      vars := hvars
      bound := fun l hl => Nat.lt_succ_of_lt (hinv.trail.bound l hl) }
    reasons := { hinv.reasons with }
    clauses := { hinv.clauses with
      bound := fun c hc l hl => Nat.lt_succ_of_lt (hinv.clauses.bound c hc l hl) }
    watch := { hinv.watch with }
    undo := { hinv.undo with } } } }

end Building

end

end Problem

open Problem in
/-- Every problem that can be built is in the state that the solver starts from. -/
theorem Built.building {p : Problem} {Φ : List Constraint} (h : Built p Φ) : Building Φ p := by
  induction h with
  | create =>
    refine ⟨⟨⟨⟨?_, nodup_nil, ?_, nofun, rfl, rfl, nofun, fun _ _ => rfl⟩, ⟨nofun, ?_⟩,
      ⟨nofun, nofun, nofun⟩, ⟨?_, fun _ => nodup_nil⟩, ⟨nofun, nofun, ?_, ?_⟩, nofun, ?_⟩, rfl,
      nofun⟩, rfl, nofun⟩
    · exact fun v => ⟨nofun, nofun⟩
    · rintro ⟨s, v⟩
      cases s <;> exact ⟨nofun, nofun⟩
    · intro l rest hsuffix
      cases eq_nil_of_suffix_nil hsuffix
    · exact fun l c => ⟨nofun, nofun⟩
    · exact fun v c => ⟨nofun, fun hex => absurd hex.1 (Nat.not_lt_zero _)⟩
    · exact fun v c => Nat.zero_le _
    · exact fun _ α _ _ => nofun
  | addVariable _ ih => exact ih.addVariable
  | impossible _ ih =>
    refine ih.contradict fun α _ hholds => ?_
    obtain ⟨l, hl, -⟩ := hholds
    cases hl
  | atLeastOne _ hvars hp ih =>
    obtain ⟨q, hrun, hq⟩ := ih.atLeastOne hvars
    rw [hrun] at hp
    exact Except.ok.inj hp ▸ hq
  | implies _ hvar hvars hp ih =>
    obtain ⟨q, hrun, hq⟩ := ih.atLeastOne (forall_mem_cons.mpr ⟨by rwa [Lit.neg_var], hvars⟩)
    rw [Problem.implies, hrun] at hp
    exact Except.ok.inj hp ▸ hq
  | atMost _ hvars hp ih => exact ih.atMost hvars hp

end Dune.Sat
