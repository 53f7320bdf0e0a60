import Dune.Sat.Building
import Dune.Sat.Progress

/-!
# The solver is correct

`step` keeps the invariant and draws the right conclusions, `choose` opens a new level, and each
round of `run_solver` makes progress, so that the loop ends.
-/

open List

namespace Dune.Sat

namespace Problem

section
variable {Φ : List Constraint} {p q : Problem}

def assignment (p : Problem) : Assignment := fun v => p.value v = .true

/-- The state between two rounds of the solver. -/
structure Solving (Φ : List Constraint) (p : Problem) : Prop where
  ready : ∃ done, Ready Φ p done
  conflict : p.toplevelConflict = true → ∀ α, ¬Models Φ α
  sorted : (p.trail.length :: p.trailLim).Pairwise (· > ·)

theorem Building.solving (h : Building Φ p) : Solving Φ p where
  ready := ⟨[], h.ready⟩
  conflict := h.conflict
  sorted := by
    have hlen := h.ready.inv.trail.limLen
    rw [h.level] at hlen
    rw [eq_nil_of_length_eq_zero hlen.symm]
    exact pairwise_singleton _ _

theorem TrailInv.eval_assignment (h : TrailInv p) {l : Lit} (hl : l ∈ p.trail) :
    l.eval p.assignment = true := by
  have hvalue := (h.value l).mpr hl
  obtain ⟨s, v⟩ := l
  cases s with
  | pos => exact decide_eq_true hvalue
  | neg =>
    have hvalue : (p.value v).invert = .true := hvalue
    show (!decide (p.value v = .true)) = true
    cases hv : p.value v <;> rw [hv] at hvalue <;> first | rfl | cases hvalue

/-- When all variables are decided, a literal is true in the assignment when it is on the trail. -/
theorem TrailInv.eval_assignment_iff (h : TrailInv p)
    (hall : ∀ v < p.numVars, p.value v ≠ .undecided)
    {l : Lit} (hl : l.var < p.numVars) : l.eval p.assignment = true ↔ l ∈ p.trail := by
  refine ⟨fun htrue => ?_, h.eval_assignment⟩
  by_contra hnot
  have hneg : l.neg ∈ p.trail := by
    by_contra hneg
    exact hall _ hl (value_undecided_of_lit (h.litValue_undecided.mpr ⟨hnot, hneg⟩))
  have := h.eval_assignment hneg
  rw [Lit.eval_neg, htrue] at this
  cases this

variable {c : ClauseId} {n : Nat}

/-- Every clause is satisfied when all variables are decided without a conflict. -/
theorem Ready.clause_holds (h : Ready Φ p p.trail) (hall : ∀ v < p.numVars, p.value v ≠ .undecided)
    (hc : c < p.nextClause) : (p.heap c).constraint.Holds p.assignment := by
  have ht := h.inv.trail
  have hbound := h.inv.clauses.bound c hc
  have hconcl := h.inv.concluded c hc
  have hdistinct := h.inv.clauses.distinct c hc
  cases hcl : p.heap c with
  | union a b rest =>
    rw [hcl] at hbound hconcl
    have ha := ht.eval_assignment_iff hall (hbound a mem_cons_self)
    by_cases htrue : a.eval p.assignment = true
    · exact ⟨a, mem_cons_self, htrue⟩
    · have hneg : a.neg ∈ p.trail := by
        rw [← ht.eval_assignment_iff hall (by rw [Lit.neg_var]; exact hbound a mem_cons_self),
          Lit.eval_neg]
        simpa using htrue
      have hlevel := ht.level_le hneg
      rw [Lit.neg_var] at hlevel
      have hb := (hconcl.1 hneg (by omega)).1
      exact ⟨b, mem_cons_of_mem _ mem_cons_self, ht.eval_assignment hb⟩
  | atMost nb cur lits =>
    have hcur := h.inv.undo.current c hc nb cur lits hcl
    rw [hcl] at hbound hconcl hdistinct
    have hsubset : lits.filter (·.eval p.assignment) ⊆ cur := by
      intro l hl
      obtain ⟨hl, htrue⟩ := mem_filter.mp hl
      rw [hcur]
      refine mem_filter.mpr ⟨?_, by simpa using hl⟩
      exact (ht.eval_assignment_iff hall (hbound l hl)).mp htrue
    have hle := ((List.Nodup.filter _ hdistinct).subperm hsubset).length_le
    show lits.countP (·.eval p.assignment) ≤ nb
    rw [countP_eq_length_filter]
    refine Nat.le_trans hle ?_
    cases cur with
    | nil => exact Nat.zero_le _
    | cons x s =>
      have hx : x ∈ p.trail := (mem_filter.mp (hcur ▸ mem_cons_self)).1
      have hlevel := ht.level_le hx
      exact (hconcl x s (suffix_refl _) (by omega)).1

/-! ## One step -/

/-- How far the search has come. -/
def measure (p : Problem) : Nat := progress p.numVars p.trailLim p.trail.length

theorem Conflict.count (h : Conflict Φ p c) (m : Nat) :
    Conflict Φ { p with numConflicts := m } c := by
  obtain ⟨hpropQ, D, h⟩ := h
  exact ⟨hpropQ, D, h.inv.reset (fun _ hα => hα) h.inv.complete, h.lower, h.clause,
    h.cause.congr rfl rfl rfl rfl rfl⟩

/-- A conflict at the lowest level refutes the problem. -/
theorem Conflict.unsat (h : Conflict Φ p c) (hzero : p.trailLimLen = 0) (α : Assignment) :
    ¬Models Φ α := by
  obtain ⟨-, D, h⟩ := h
  obtain ⟨rs, -, hrs, hrefuted, -⟩ := h.cause
  intro hα
  obtain ⟨l, hl, hfalse⟩ := hrefuted α hα
  have hlevel : p.level l.var = 0 := by
    have hle := h.inv.trail.level_le (hrs l hl)
    have hnonneg := h.inv.trail.level_nonneg (hrs l hl)
    rw [hzero] at hle
    omega
  rw [h.inv.reasons.facts l (hrs l hl) hlevel α hα] at hfalse
  cases hfalse

def Stepped (Φ : List Constraint) (p q : Problem) : StepResult → Prop
  | .sat => (∀ v < p.numVars, q.value v ≠ .undecided) ∧ Models Φ q.assignment
  | .unsat => ∀ α, ¬Models Φ α
  | .decide => Solving Φ q ∧ Ready Φ q q.trail ∧ q.propQ = [] ∧
      (∃ v, q.firstUndecided = some v) ∧ p.measure ≤ q.measure
  | .backtrack _ => Solving Φ q ∧ p.measure < q.measure

/-- The states of the solver when it learns from a conflict. -/
structure Backtracks (Φ : List Constraint) (p : Problem) (c : ClauseId) (lit : Lit)
    (learnt : List Lit)
    (p' p'' q : Problem) : Prop where
  lower : Lower Φ p'
  frame : Frame p p'
  propQ : p'.propQ = []
  level : p''.getDecisionLevel < p.getDecisionLevel
  ready : Ready Φ p'' p''.trail
  undecided : p''.litValue lit = .undecided
  learnt : p''.LearntTo lit learnt c q
  sameLevel : q.getDecisionLevel = p''.getDecisionLevel
  trailLim : q.trailLim = p''.trailLim
  numVars : q.numVars = p.numVars
  solving : Solving Φ q
  progress : p.measure < q.measure

/-- The solver learns from a conflict above the lowest level. -/
theorem Conflict.backtrack (h : Conflict Φ p c) (hpos : 0 < p.trailLimLen) (hn : p.numVars < n)
    (hconflict : p.toplevelConflict = true → ∀ α, ¬Models Φ α)
    (hsorted : (p.trail.length :: p.trailLim).Pairwise (· > ·)) :
    ∃ lit learnt p' p'' q, p.analyse n c = .ok ((lit :: learnt, p''.getDecisionLevel), p') ∧
      p'.cancelUntil p''.getDecisionLevel = .ok p'' ∧ p''.learn (lit :: learnt) c = .ok q ∧
      Backtracks Φ p c lit learnt p' p'' q := by
  have hlen : p.trail.length ≤ p.numVars := by
    obtain ⟨-, D, h⟩ := h
    exact h.inv.trail.length_le
  obtain ⟨lit, a, p', hanalyse, hlearnt⟩ := h.analyse hpos (Nat.lt_of_le_of_lt hlen hn)
  obtain ⟨D, ha⟩ := hlearnt.analysing
  have hframe := hlearnt.undone.toFrame
  -- the level of the learnt clause is below that of the conflict
  obtain ⟨t, ht, htlt⟩ : ∃ t : Nat, a.btlevel = t ∧ t < p'.trailLimLen := by
    rw [hframe.trailLimLen]
    rcases ha.btlevel with ⟨hzero, -⟩ | ⟨b, hb, hlevel⟩
    · exact ⟨0, hzero, hpos⟩
    · obtain ⟨-, hposb, hlt, -⟩ := ha.learnt b hb
      rw [hframe.trailLimLen] at hlt
      exact ⟨a.btlevel.toNat, by omega, by omega⟩
  have hlower : Lower Φ p' := ⟨D, ha.inv, ha.lower⟩
  have hpropQ' : p'.propQ = [] := hlearnt.undone.propQ.trans h.1
  obtain ⟨p'', hcancel, hinv, hc⟩ := hlower.cancelUntil htlt
  have hpropQ : p''.propQ = [] := hc.propQ.trans hpropQ'
  have hready : Ready Φ p'' p''.trail := ⟨hinv, by rw [hpropQ]; rfl, fun l hl _ => hl⟩
  have htrail' := ha.inv.trail
  have hlevel' : ∀ l ∈ a.learnt, l.neg ∈ p''.trail ∧ p''.level l.var = p'.level l.var := by
    intro l hl
    obtain ⟨hneg, -, -, hle, -⟩ := ha.learnt l hl
    have hmem := hc.kept l.neg hneg (by rw [Lit.neg_var]; omega)
    have := hc.level l.neg hmem
    rw [Lit.neg_var] at this
    exact ⟨hmem, this⟩
  have hundecided : p''.litValue lit.neg = .undecided := by
    obtain ⟨hnot, hnot'⟩ := htrail'.litValue_undecided.mp hlearnt.undecided
    rw [hready.inv.trail.litValue_undecided, Lit.neg_neg]
    exact ⟨fun hmem => hnot' (hc.suffix.mem hmem), fun hmem => hnot (hc.suffix.mem hmem)⟩
  obtain ⟨q, hlearn, hq, hqtrail, hqlen, hqlim, hqvars, -, hqconflict, hqeq⟩ :=
    hready.learn (c := c) hpropQ
    hundecided (by rw [Lit.neg_var, hc.numVars]; exact hlearnt.bound) hlearnt.entailed ha.distinct
    (fun l hl => (hlevel' l hl).1) (by
      rw [hc.trailLimLen]
      rcases ha.btlevel with ⟨hzero, hnil⟩ | ⟨b, hb, hlevel⟩
      · exact .inl ⟨by omega, hnil⟩
      · exact .inr ⟨b, hb, by rw [(hlevel' b hb).2, hlevel, ht]⟩)
  obtain ⟨upper, hlims⟩ : ∃ upper, p.trailLim = upper ++ p''.trail.length :: p''.trailLim := by
    rcases hc.lims with ⟨heq, -⟩ | ⟨upper, hlims⟩
    · omega
    · exact ⟨upper, hframe.trailLim.symm.trans hlims⟩
  have hnumVars : q.numVars = p.numVars := by rw [hqvars, hc.numVars, hframe.numVars]
  have hlevel'' : p''.getDecisionLevel = t := hc.trailLimLen
  refine ⟨_, _, p', p'', q, by rw [hlevel'', ← ht]; exact hanalyse,
    by rw [hlevel'']; exact hcancel, hlearn, hlower, hframe, hpropQ', ?_, hready,
    hundecided, hqeq, hqlen, hqlim, hnumVars, ⟨⟨_, hq⟩, ?_, ?_⟩, ?_⟩
  · show p''.trailLimLen < p.trailLimLen
    rw [hc.trailLimLen, ← hframe.trailLimLen]
    exact htlt
  · rw [hqconflict, hc.toplevelConflict, hframe.toplevelConflict]
    exact hconflict
  · rw [hqtrail, hqlim, length_cons]
    rw [hlims] at hsorted
    have htail := (pairwise_append.mp (pairwise_cons.mp hsorted).2).2.1
    obtain ⟨hlt, htail⟩ := pairwise_cons.mp htail
    exact pairwise_cons.mpr ⟨fun i hi => Nat.lt_succ_of_lt (hlt i hi), htail⟩
  · rw [measure, measure, hnumVars, hqtrail, hqlim, length_cons]
    exact progress_backtrack hlims hsorted hlen

section

variable (hsound : p.toplevelConflict = false)
include hsound

theorem step_settled
    (hrun : p.propagate n = .ok (none, q)) :
    p.step n = match q.firstUndecided with
      | none => .ok (.sat, q)
      | some _ => .ok (.decide, q) := by
  rw [step, if_neg (Bool.eq_false_iff.mp hsound), hrun]
  rfl

theorem step_refuted
    (hrun : p.propagate n = .ok (some c, q)) (hzero : q.trailLimLen = 0) :
    p.step n = .ok (.unsat, { q with numConflicts := q.numConflicts + 1 }) := by
  rw [step, if_neg (Bool.eq_false_iff.mp hsound), hrun]
  exact if_pos hzero

theorem step_backtrack {p' p'' q' : Problem} {learnt : List Lit} {btlevel : Int}
    (hrun : p.propagate n = .ok (some c, q))
    (hpos : ¬q.trailLimLen = 0)
    (hanalyse : { q with numConflicts := q.numConflicts + 1 }.analyse n c =
      .ok ((learnt, btlevel), p'))
    (hcancel : p'.cancelUntil btlevel = .ok p'') (hlearn : p''.learn learnt c = .ok q')
    (hlevel : q'.getDecisionLevel < q.getDecisionLevel) :
    p.step n = .ok (.backtrack (q.getDecisionLevel - q'.getDecisionLevel), q') := by
  rw [step, if_neg (Bool.eq_false_iff.mp hsound), hrun]
  refine (if_neg hpos).trans ?_
  rw [hanalyse]
  show (p'.cancelUntil btlevel >>= fun p => _) = _
  rw [hcancel]
  show (p''.learn learnt c >>= fun p => _) = _
  rw [hlearn]
  show (check (decide (0 < q.getDecisionLevel - q'.getDecisionLevel)) >>= fun _ => _) = _
  rw [decide_eq_true (Nat.sub_pos_of_lt hlevel)]
  rfl

end

theorem Solving.propagate (h : Solving Φ p) (hn : p.numVars < n) :
    ∃ r q, p.propagate n = .ok (r, q) ∧ Frame p q ∧ p.measure ≤ q.measure ∧
      (q.trail.length :: q.trailLim).Pairwise (· > ·) ∧
      match r with
      | none => Ready Φ q q.trail ∧ q.propQ = []
      | some c => Conflict Φ q c := by
  obtain ⟨done, hready⟩ := h.ready
  obtain ⟨r, q, hrun, hframe, hlen, hresult⟩ := hready.propagate (n := n) (by omega)
  refine ⟨r, q, hrun, hframe, ?_, ?_, hresult⟩
  · rw [measure, measure, hframe.numVars, hframe.trailLim]
    exact progress_mono hlen
  · obtain ⟨hlt, htail⟩ := pairwise_cons.mp h.sorted
    rw [hframe.trailLim]
    exact pairwise_cons.mpr ⟨fun i hi => Nat.lt_of_lt_of_le (hlt i hi) hlen, htail⟩

theorem Solving.step (h : Solving Φ p) (hn : p.numVars < n) :
    ∃ r q, p.step n = .ok (r, q) ∧ q.numVars = p.numVars ∧ Stepped Φ p q r := by
  cases hsound : p.toplevelConflict with
  | true =>
    exact ⟨.unsat, p, by rw [Problem.step, if_pos hsound], rfl, h.conflict hsound⟩
  | false =>
    obtain ⟨r, q, hrun, hframe, hmeasure, hsorted, hresult⟩ := h.propagate hn
    have hqsound : q.toplevelConflict = false := hframe.toplevelConflict.trans hsound
    cases r with
    | none =>
      obtain ⟨hready, hpropQ⟩ := hresult
      have hstep := step_settled hsound hrun
      cases hfirst : q.firstUndecided with
      | none =>
        rw [hfirst] at hstep
        have hall : ∀ v < q.numVars, q.value v ≠ .undecided := by
          intro v hv hvalue
          have := List.find?_eq_none.mp hfirst v ((hready.inv.trail.vars v).mpr hv)
          exact this (decide_eq_true hvalue)
        refine ⟨.sat, q, hstep, hframe.numVars, hframe.numVars ▸ hall, ?_⟩
        exact hready.inv.complete hqsound q.assignment
          (fun l hl _ => hready.inv.trail.eval_assignment hl) fun c hc =>
            hready.clause_holds hall hc
      | some v =>
        rw [hfirst] at hstep
        exact ⟨.decide, q, hstep, hframe.numVars,
          ⟨⟨_, hready⟩, fun hc => absurd (hqsound.symm.trans hc) nofun, hsorted⟩, hready, hpropQ,
          ⟨v, hfirst⟩, hmeasure⟩
    | some c =>
      have hcounted := Conflict.count hresult (q.numConflicts + 1)
      by_cases hzero : q.trailLimLen = 0
      · exact ⟨.unsat, _, step_refuted hsound hrun hzero, hframe.numVars, hcounted.unsat hzero⟩
      · obtain ⟨lit, learnt, p', p'', q', hanalyse, hcancel, hlearn, hb⟩ :=
          hcounted.backtrack (n := n) (Nat.pos_of_ne_zero hzero)
            (show q.numVars < n by rw [hframe.numVars]; exact hn)
            (fun hc => absurd (hqsound.symm.trans hc) nofun) hsorted
        exact ⟨_, q', step_backtrack hsound hrun hzero hanalyse hcancel hlearn
          (hb.sameLevel ▸ hb.level), hb.numVars.trans hframe.numVars, hb.solving,
          Nat.lt_of_le_of_lt hmeasure hb.progress⟩

/-! ## Decisions -/

/-- Conclusions about all levels are conclusions about any higher level. -/
theorem Concluded.raise {d : List Lit} {cl : Clause} {k j : Int} (h : p.Concluded k d cl)
    (hd : ∀ l ∈ d, p.level l.var < k) (hcur : ∀ l ∈ cl.current, l ∈ d) : p.Concluded j d cl := by
  cases cl with
  | union a b rest =>
    refine ⟨fun hmem _ => h.1 hmem ?_, fun hmem _ => h.2 hmem ?_⟩
    · have := hd _ hmem
      rwa [Lit.neg_var] at this
    · have := hd _ hmem
      rwa [Lit.neg_var] at this
  | atMost nb cur lits =>
    exact fun x s hsuffix _ => h x s hsuffix (hd x (hcur x (hsuffix.mem mem_cons_self)))

def newLevel (p : Problem) : Problem :=
  { p with
    trailLim := p.trailLen :: p.trailLim
    trailLimLen := p.trailLimLen + 1
    numDecisions := p.numDecisions + 1 }

theorem Ready.newLevel (h : Ready Φ p p.trail) :
    Inv Φ p.newLevel (fun _ => p.trail) (fun _ => []) (p.newLevel.trailLimLen + 1) where
  trail := { h.inv.trail with
    limLen := congrArg (· + 1) h.inv.trail.limLen
    levels := ⟨[], p.trail, rfl, h.inv.trail.len.symm, nofun, h.inv.trail.levels⟩ }
  reasons := { h.inv.reasons with }
  clauses := { h.inv.clauses with }
  watch := { h.inv.watch with }
  undo := { h.inv.undo with }
  concluded := by
    intro c hc
    refine (h.inv.concluded c hc).raise (fun l hl => ?_) fun l hl => h.inv.undo.current_mem hc hl
    have := h.inv.trail.level_le hl
    show p.level l.var < p.trailLimLen + 1
    omega
  complete := h.inv.complete

theorem UndoInv.decide {D : ClauseId → List Lit} {v : Nat} (h : UndoInv p D) :
    UndoInv { p with setToFalse := true, undo := update p.undo v (.decided :: p.undo v) } D where
  suffix := h.suffix
  current := h.current
  undo := by
    intro w c
    rw [← h.undo w c]
    simp only [update]
    split_ifs with hw
    · subst hw
      exact mem_cons.trans (or_iff_right (by simp))
    · exact Iff.rfl
  nodup := by
    intro w c
    simp only [update]
    split_ifs with hw
    · rw [count_cons_of_ne (by simp)]
      exact h.nodup v c
    · exact h.nodup w c

/-- The function that chooses literals may also give up, when a variable is undecided. -/
def Sensible (p : Problem) : Choice → Prop
  | .true lit => lit.var < p.numVars ∧ p.litValue lit = .undecided
  | .anyFalse => ∃ v, p.firstUndecided = some v

theorem Ready.chosenLit {choice : Choice} (h : Ready Φ p p.trail) (hc : p.Sensible choice) :
    ∃ lit q, p.chosenLit choice = .ok (lit, q) ∧ Ready Φ q q.trail ∧ Frame p q ∧ q.trail = p.trail ∧
      q.propQ = p.propQ ∧ lit.var < q.numVars ∧ q.litValue lit = .undecided := by
  cases choice with
  | true lit => exact ⟨lit, p, rfl, h, .refl p, rfl, rfl, hc⟩
  | anyFalse =>
    obtain ⟨v, hv⟩ := hc
    have hvar : v < p.numVars := (h.inv.trail.vars v).mp (mem_of_find?_eq_some hv)
    have hvalue : p.value v = .undecided := by
      have := List.find?_some (show p.vars.find? (fun v => p.value v = .undecided) = some v from hv)
      exact of_decide_eq_true this
    have hlit : p.litValue ⟨.neg, v⟩ = .undecided := by
      show (p.value v).invert = .undecided
      rw [hvalue]
      rfl
    rw [Problem.chosenLit, hv]
    cases hset : p.setToFalse with
    | true => exact ⟨_, p, rfl, h, .refl p, rfl, rfl, hvar, hlit⟩
    | false =>
      refine ⟨_, _, rfl, { h with inv := { h.inv with
        trail := { h.inv.trail with }
        reasons := { h.inv.reasons with }
        clauses := { h.inv.clauses with }
        watch := { h.inv.watch with }
        undo := h.inv.undo.decide } }, ?_, rfl, rfl, hvar, hlit⟩
      constructor <;> rfl

theorem Solving.choose {choice : Choice} (h : Solving Φ p) (hready : Ready Φ p p.trail)
    (hpropQ : p.propQ = []) (hc : p.Sensible choice) :
    ∃ q, p.choose choice = .ok q ∧ q.numVars = p.numVars ∧ Solving Φ q ∧ p.measure < q.measure := by
  obtain ⟨lit, q, hchosen, hq, hframe, htrail, hqueue, hbound, hlit⟩ := hready.chosenLit hc
  have hlevel : ((q.newLevel.assign lit (.external "considering")).level lit.var) =
      q.trailLimLen + 1 := by
    rw [level_assign_self]
    rfl
  have hassign : Inv Φ (q.newLevel.assign lit (.external "considering")) _ _ _ :=
    hq.newLevel.assign hlit hbound (fun hzero => absurd hzero (Nat.succ_ne_zero _))
      (.inr (.inl ⟨by rw [hlevel]; omega, ?_⟩))
  · have hready := Ready.assign (p := q.newLevel) (hqueue.trans hpropQ) hassign
    refine ⟨q.newLevel.assign lit (.external "considering"), ?_, hframe.numVars,
      ⟨⟨_, hready⟩, ?_, ?_⟩, ?_⟩
    · rw [Problem.choose, hchosen]
      show (if q.litValue lit ≠ .undecided then _ else
        check (q.newLevel.enqueue lit (.external "considering")).1 >>= fun _ =>
          .ok (q.newLevel.enqueue lit (.external "considering")).2) = _
      have hq : q.newLevel.litValue lit = .undecided := hlit
      rw [if_neg (not_not_intro hlit), enqueue, hq]
      rfl
    · show q.toplevelConflict = true → _
      rw [hframe.toplevelConflict]
      exact h.conflict
    · show ((lit :: q.trail).length :: q.trailLen :: q.trailLim).Pairwise (· > ·)
      have hsorted := h.sorted
      rw [← htrail, ← hframe.trailLim] at hsorted
      rw [hq.inv.trail.len, length_cons]
      refine pairwise_cons.mpr ⟨fun i hi => ?_, hsorted⟩
      rcases mem_cons.mp hi with rfl | hi
      · exact Nat.lt_succ_self _
      · exact Nat.lt_succ_of_lt ((pairwise_cons.mp hsorted).1 i hi)
    · show progress p.numVars p.trailLim p.trail.length <
        progress q.numVars (q.trailLen :: q.trailLim) (lit :: q.trail).length
      rw [hq.inv.trail.len, htrail, hframe.numVars, hframe.trailLim]
      exact progress_decide
  · intro x hx
    rw [hlevel, level_assign_of_ne (hq.inv.trail.not_mem_of_undecided hlit x hx)]
    exact Int.lt_add_one_of_le (hq.inv.trail.level_le hx)

end

end Problem

/-! ## The loop -/

section
variable {σ : Type} {decider : Decider σ} {Φ : List Constraint} {bound : Nat}

/-- A function that chooses only undecided literals, in a problem with so many variables. -/
def Decider.Undecided (decider : Decider σ) (numVars : Nat) : Prop :=
  ∀ s p l, p.numVars = numVars → (decider.decide s p).2 = some l →
    l.var < numVars ∧ p.litValue l = .undecided

/-- The choice of a round of `run_solver`. -/
def Decider.choice (decider : Decider σ) (s : σ) (p : Problem) : σ × Problem.Choice :=
  if p.setToFalse then (s, .anyFalse)
  else
    match decider.decide s p with
    | (s, some lit) => (s, .true lit)
    | (s, none) => (s, .anyFalse)

theorem Decider.Undecided.sensible {s : σ} {p : Problem} (hd : decider.Undecided p.numVars)
    (hfirst : ∃ v, p.firstUndecided = some v) : p.Sensible (decider.choice s p).2 := by
  rw [Decider.choice]
  split
  · exact hfirst
  · split
    · next s' lit hdecide => exact hd s p lit rfl (by rw [hdecide])
    · exact hfirst

theorem Problem.Solving.runSolver : ∀ {n : Nat} {s : σ} {p : Problem},
    Solving Φ p → decider.Undecided p.numVars → p.numVars < bound → 3 ^ p.numVars < n + p.measure →
    ∃ result q, runSolver decider bound n s p = .ok (result, q) ∧
      if result then (∀ v < p.numVars, q.value v ≠ .undecided) ∧ Models Φ q.assignment
      else ∀ α, ¬Models Φ α
  | 0, s, p, h, _, _, hn => by
    obtain ⟨done, hready⟩ := h.ready
    have : p.measure < 3 ^ p.numVars := progress_bound hready.inv.trail.length_le
    omega
  | n + 1, s, p, h, hd, hbound, hn => by
    obtain ⟨r, q, hstep, hvars, hstepped⟩ := h.step hbound
    rw [Dune.Sat.runSolver, hstep]
    cases r with
    | sat => exact ⟨true, q, rfl, hstepped⟩
    | unsat => exact ⟨false, q, rfl, hstepped⟩
    | backtrack nbLevels =>
      obtain ⟨hsolving, hprogress⟩ := hstepped
      have := hsolving.runSolver (s := s) (n := n) (hvars ▸ hd) (hvars ▸ hbound)
          (by rw [hvars]; omega)
      rwa [hvars] at this
    | decide =>
      obtain ⟨hsolving, hready, hpropQ, hfirst, hmeasure⟩ := hstepped
      obtain ⟨q', hchoose, hvars', hsolving', hprogress⟩ :=
        hsolving.choose hready hpropQ (Decider.Undecided.sensible (s := s) (hvars ▸ hd) hfirst)
      have hvars' := hvars'.trans hvars
      have := hsolving'.runSolver (s := (decider.choice s q).1) (n := n) (hvars' ▸ hd)
        (hvars' ▸ hbound) (by rw [hvars']; omega)
      show ∃ result q'', (q.choose (decider.choice s q).2 >>= fun p =>
        Dune.Sat.runSolver decider bound n (decider.choice s q).1 p) = .ok (result, q'') ∧ _
      rw [hchoose]
      rwa [hvars'] at this

/-- `run_solver` ends without an exception. When it returns `true` every variable has a value and
the values satisfy all constraints, and when it returns `false` nothing satisfies them. -/
theorem runSolver_correct {n : Nat} {s : σ} {p : Problem} (h : Built p Φ)
    (hd : decider.Undecided p.numVars) (hbound : p.numVars < bound) (hn : 3 ^ p.numVars < n) :
    ∃ result q, runSolver decider bound n s p = .ok (result, q) ∧
      if result then (∀ v < p.numVars, q.value v ≠ .undecided) ∧ Models Φ q.assignment
      else ∀ α, ¬Models Φ α :=
  h.building.solving.runSolver hd hbound (Nat.lt_of_lt_of_le hn (Nat.le_add_right _ _))

end

/-- Two variables of which exactly one holds, and a function that wants the first. -/
theorem runSolver_correct_exactlyOne : let decider : Decider Unit :=
      ⟨fun s p => (s, if p.litValue ⟨.pos, 0⟩ = .undecided then some ⟨.pos, 0⟩ else none)⟩
    let p := Problem.create.addVariable.2.addVariable.2
    ∃ p' p'' c result q, p.atLeastOne "one of them" [⟨.pos, 0⟩, ⟨.pos, 1⟩] = .ok p' ∧
      p'.atMost 1 [⟨.pos, 0⟩, ⟨.pos, 1⟩] = .ok (c, p'') ∧
      runSolver decider 3 10 () p'' = .ok (result, q) ∧
      if result then (∀ v < 2, q.value v ≠ .undecided) ∧
        Models [.atLeastOne [⟨.pos, 0⟩, ⟨.pos, 1⟩], .atMost 1 [⟨.pos, 0⟩, ⟨.pos, 1⟩]] q.assignment
      else ∀ α, ¬Models [.atLeastOne [⟨.pos, 0⟩, ⟨.pos, 1⟩],
        .atMost 1 [⟨.pos, 0⟩, ⟨.pos, 1⟩]] α := by
  intro decider p
  have hp : Built p [] := .addVariable (.addVariable .create)
  have hp' := hp.atLeastOne (by decide)
    (rfl : p.atLeastOne "one of them" [⟨.pos, 0⟩, ⟨.pos, 1⟩] = _)
  have hp'' := hp'.atMost (by decide) (rfl : Problem.atMost _ 1 [⟨.pos, 0⟩, ⟨.pos, 1⟩] = _)
  have hd : decider.Undecided 2 := by
    intro s q l hq hl
    dsimp only [decider] at hl
    split at hl
    · next hundecided =>
      cases hl
      exact ⟨by decide, hundecided⟩
    · cases hl
  obtain ⟨result, q, hrun, hresult⟩ :
      ∃ result q, runSolver decider 3 10 () _ = .ok (result, q) ∧ _ :=
    runSolver_correct hp'' hd (by decide) (by decide)
  exact ⟨_, _, _, result, q, rfl, rfl, hrun, hresult⟩

end Dune.Sat
