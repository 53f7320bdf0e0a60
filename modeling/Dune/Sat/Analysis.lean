import Dune.Sat.Queue

/-!
# Learning from a conflict

`analyse` goes back along the trail. `Analysing` is the invariant of its variables, and `Refutes`
says what they stand for: the causes still to be considered, the variables of the current level that
were seen and the negation of the learnt clause contradict the problem.
-/

open List

namespace Dune.Sat

namespace Problem

/-- The state of `analyse`, at the level of the conflict. -/
structure Analysing (Φ : List Constraint) (p : Problem) (D : ClauseId → List Lit) (a : Analysis) :
    Prop where
  inv : Inv Φ p D (fun _ => []) p.trailLimLen
  lower : ∀ e < p.nextClause, ∀ l ∈ p.trail, p.level l.var < p.trailLimLen → l ∈ D e
  learnt : ∀ l ∈ a.learnt, l.neg ∈ p.trail ∧ 0 < p.level l.var ∧ p.level l.var < p.trailLimLen ∧
    p.level l.var ≤ a.btlevel ∧ l.var ∈ a.seen
  distinct : (a.learnt.map Lit.var).Nodup
  btlevel : a.btlevel = 0 ∧ a.learnt = [] ∨ ∃ l ∈ a.learnt, p.level l.var = a.btlevel
  seen : ∀ l ∈ p.trail, l.var ∈ a.seen → 0 < p.level l.var → p.level l.var < p.trailLimLen →
    l.neg ∈ a.learnt
  counter : ∃ pending : List Lit, pending.Nodup ∧ pending.length = a.counter ∧
    ∀ l, l ∈ pending ↔ l ∈ p.trail ∧ p.level l.var = p.trailLimLen ∧ l.var ∈ a.seen

/-- What has been found out contradicts the problem. -/
def Refutes (Φ : List Constraint) (p : Problem) (a : Analysis) (causes : List Lit) : Prop :=
  ∀ α, Models Φ α → (∀ l ∈ causes, l.eval α = true) →
    (∀ l ∈ p.trail, p.level l.var = p.trailLimLen → l.var ∈ a.seen → l.eval α = true) →
    (∀ l ∈ a.learnt, l.eval α = false) → False

section
variable {Φ : List Constraint} {p q : Problem} {D : ClauseId → List Lit} {a : Analysis} {lit : Lit}
  {c : ClauseId}

/-! ## Considering the causes -/

theorem Analysing.considerCause (h : Analysing Φ p D a) (hlit : lit ∈ p.trail) :
    Analysing Φ p D (p.considerCause a lit) := by
  have ht := h.inv.trail
  rw [Problem.considerCause]
  split
  · exact h
  next hnot =>
  have hseen : ∀ l ∈ p.trail, l.var ∈ lit.var :: a.seen → l = lit ∨ l.var ∈ a.seen := by
    intro l hl hmem
    rcases mem_cons.mp hmem with hvar | hmem
    · exact .inl (ht.eq_of_var hl hlit hvar)
    · exact .inr hmem
  obtain ⟨pending, hnodup, hlen, hpending⟩ := h.counter
  have hlearnt : ∀ l ∈ a.learnt, l.neg ∈ p.trail ∧ 0 < p.level l.var ∧
      p.level l.var < p.trailLimLen ∧
      p.level l.var ≤ a.btlevel ∧ l.var ∈ lit.var :: a.seen := by
    intro l hl
    obtain ⟨hneg, hpos, hlt, hle, hmem⟩ := h.learnt l hl
    exact ⟨hneg, hpos, hlt, hle, mem_cons_of_mem _ hmem⟩
  have hpendingNe : p.level lit.var ≠ p.trailLimLen → ∀ l, l ∈ pending ↔
      l ∈ p.trail ∧ p.level l.var = p.trailLimLen ∧ l.var ∈ lit.var :: a.seen := by
    grind
  simp only [getDecisionLevel]
  split
  · next hlevel =>
    -- a variable of the current level, to be looked at later
    refine ⟨h.inv, h.lower, hlearnt, h.distinct, h.btlevel, ?_, lit :: pending, ?_, ?_, ?_⟩
    · intro l hl hmem hpos hlt
      rcases hseen l hl hmem with rfl | hmem
      · omega
      · exact h.seen l hl hmem hpos hlt
    · exact nodup_cons.mpr ⟨fun hmem => hnot ((hpending lit).mp hmem).2.2, hnodup⟩
    · rw [length_cons, hlen]
    · grind
  next hlevel =>
  split
  · next hpos =>
    -- a variable of a lower level, for the learnt clause
    have hlt : p.level lit.var < p.trailLimLen := by
      have := ht.level_le hlit
      omega
    refine ⟨h.inv, h.lower, ?_, ?_, ?_, ?_, pending, hnodup, hlen, hpendingNe hlevel⟩
    · intro l hl
      rcases mem_cons.mp hl with rfl | hl
      · refine ⟨(Lit.neg_neg lit).symm ▸ hlit, ?_, ?_, ?_, ?_⟩ <;> rw [Lit.neg_var]
        · exact hpos
        · exact hlt
        · exact Int.le_max_right _ _
        · exact mem_cons_self
      · obtain ⟨hneg, hpos', hlt', hle, hmem⟩ := hlearnt l hl
        exact ⟨hneg, hpos', hlt', Int.le_trans hle (Int.le_max_left _ _), hmem⟩
    · refine nodup_cons.mpr ⟨fun hmem => ?_, h.distinct⟩
      obtain ⟨l, hl, hvar⟩ := mem_map.mp hmem
      rw [Lit.neg_var] at hvar
      exact hnot (hvar ▸ (h.learnt l hl).2.2.2.2)
    · right
      by_cases hmax : a.btlevel ≤ p.level lit.var
      · refine ⟨lit.neg, mem_cons_self, ?_⟩
        rw [Lit.neg_var]
        exact (Int.max_eq_right hmax).symm
      · rcases h.btlevel with ⟨hzero, -⟩ | ⟨l, hl, hlevel'⟩
        · omega
        · refine ⟨l, mem_cons_of_mem _ hl, hlevel'.trans ?_⟩
          exact (Int.max_eq_left (by omega)).symm
    · intro l hl hmem hpos' hlt'
      rcases hseen l hl hmem with rfl | hmem
      · exact mem_cons_self
      · exact mem_cons_of_mem _ (h.seen l hl hmem hpos' hlt')
  · next hzero =>
    -- an input fact
    refine ⟨h.inv, h.lower, hlearnt, h.distinct, h.btlevel, ?_, pending, hnodup, hlen,
      hpendingNe hlevel⟩
    intro l hl hmem hpos hlt
    rcases hseen l hl hmem with rfl | hmem
    · exact absurd hpos hzero
    · exact h.seen l hl hmem hpos hlt

theorem considerCause_seen (p : Problem) (a : Analysis) (lit : Lit) {v : Nat} :
    v ∈ (p.considerCause a lit).seen ↔ v = lit.var ∨ v ∈ a.seen := by
  rw [Problem.considerCause]
  split
  · next hmem => exact (or_iff_right_of_imp fun heq => heq ▸ hmem).symm
  · simp only
    split
    · exact mem_cons
    split <;> exact mem_cons

theorem considerCause_learnt (p : Problem) (a : Analysis) (lit : Lit) {l : Lit} (h : l ∈ a.learnt) :
    l ∈ (p.considerCause a lit).learnt := by
  rw [Problem.considerCause]
  split
  · exact h
  · simp only
    split
    · exact h
    split
    · exact mem_cons_of_mem _ h
    · exact h

theorem Refutes.considerCause {rs : List Lit} (h : Refutes Φ p a (lit :: rs))
    (ha : Analysing Φ p D a)
    (hlit : lit ∈ p.trail) : Refutes Φ p (p.considerCause a lit) rs := by
  intro α hα hrs hcurrent hlearnt
  have ha' := ha.considerCause hlit
  have hmem : lit.var ∈ (p.considerCause a lit).seen := (considerCause_seen p a lit).mpr (.inl rfl)
  refine h α hα ?_ ?_ ?_
  · intro l hl
    rcases mem_cons.mp hl with rfl | hl
    · have hle := ha.inv.trail.level_le hlit
      have hnonneg := ha.inv.trail.level_nonneg hlit
      by_cases hlevel : p.level l.var = p.trailLimLen
      · exact hcurrent l hlit hlevel hmem
      by_cases hzero : p.level l.var = 0
      · exact ha.inv.reasons.facts l hlit hzero α hα
      · have hfalse := hlearnt _ (ha'.seen l hlit hmem (by omega) (by omega))
        rw [Lit.eval_neg] at hfalse
        simpa using hfalse
    · exact hrs l hl
  · intro l hl hlevel hseen
    exact hcurrent l hl hlevel ((considerCause_seen p a lit).mpr (.inr hseen))
  · exact fun l hl => hlearnt l (considerCause_learnt p a lit hl)

theorem Analysing.considerCauses : ∀ {rs : List Lit} {a : Analysis}, Analysing Φ p D a →
    Refutes Φ p a rs → (∀ l ∈ rs, l ∈ p.trail) →
    Analysing Φ p D (rs.foldl p.considerCause a) ∧ Refutes Φ p (rs.foldl p.considerCause a) [] ∧
      (∀ l ∈ rs, l.var ∈ (rs.foldl p.considerCause a).seen) ∧
      ∀ v ∈ a.seen, v ∈ (rs.foldl p.considerCause a).seen
  | [], a, h, hrefutes, _ => ⟨h, hrefutes, nofun, fun _ hv => hv⟩
  | l :: rs, a, h, hrefutes, hrs => by
    have hl := hrs l mem_cons_self
    obtain ⟨h', hrefutes', hseen, hmono⟩ := Analysing.considerCauses (h.considerCause hl)
      (hrefutes.considerCause h hl) fun x hx => hrs x (mem_cons_of_mem _ hx)
    refine ⟨h', hrefutes', ?_, fun v hv => hmono v ((considerCause_seen p a l).mpr (.inr hv))⟩
    exact forall_mem_cons.mpr ⟨hmono _ ((considerCause_seen p a l).mpr (.inl rfl)), hseen⟩

/-! ## Going back along the trail -/

/-- The assignments before `rest` have been undone. -/
structure Undone (p q : Problem) (rest : List Lit) : Prop extends Frame p q where
  trail : q.trail = rest
  level : ∀ l ∈ rest, q.level l.var = p.level l.var
  propQ : q.propQ = p.propQ
  implies : ∀ c l more, (q.heap c).Implies l more ↔ (p.heap c).Implies l more

variable {rest : List Lit} {x : Lit}

theorem Undone.trans {r : Problem} {rest' : List Lit} (h : Undone p q rest)
    (h' : Undone q r rest') (hrest : ∀ l ∈ rest', l ∈ rest) : Undone p r rest' where
  toFrame := h.toFrame.trans h'.toFrame
  trail := h'.trail
  level := fun l hl => (h'.level l hl).trans (h.level l (hrest l hl))
  propQ := h'.propQ.trans h.propQ
  implies := fun c l more => (h'.implies c l more).trans (h.implies c l more)

variable {extra : Lit → List ClauseId}

theorem Inv.undone {k : Int} (h : Inv Φ p D extra k) (htrail : p.trail = x :: rest)
    (hlevel : p.level x.var = p.trailLimLen) (hpos : 0 < p.trailLimLen) (hk : k ≤ p.trailLimLen) :
    ∃ q, p.undoOne = .ok q ∧ Inv Φ q (forget D x) extra k ∧ Undone p q rest := by
  obtain ⟨heap', undo', b, hrun, hheap, hinv⟩ := h.undoOne htrail hlevel hpos hk
  refine ⟨_, hrun, hinv, ⟨rfl, rfl, rfl, rfl, rfl, rfl⟩, rfl, ?_, rfl, ?_⟩
  · exact h.trail.level_unassign htrail
  · intro c l more
    show (heap' c).Implies l more ↔ _
    rcases hheap c with heq | heq <;> rw [heq]
    exact Clause.pop_implies _ _ _

theorem forget_mem {l : Lit} (hne : l ≠ x) {e : ClauseId} (h : l ∈ D e) : l ∈ forget D x e :=
  (mem_erase_of_ne hne).mpr h

/-- The state of `analyse` after an assignment of the current level is undone. -/
theorem Analysing.undone (h : Analysing Φ p D a) (htrail : p.trail = x :: rest)
    (hlevel : p.level x.var = p.trailLimLen)
    (hinv : Inv Φ q (forget D x) (fun _ => []) p.trailLimLen) (hq : Undone p q rest) :
    Analysing Φ q (forget D x)
      { a with counter := if x.var ∈ a.seen then a.counter - 1 else a.counter } := by
  have hx : x ∈ p.trail := htrail ▸ mem_cons_self
  have hnot : x ∉ rest := (nodup_cons.mp (htrail ▸ h.inv.trail.trail_nodup)).1
  have hrest : ∀ l ∈ rest, l ∈ p.trail := fun l hl => htrail ▸ mem_cons_of_mem _ hl
  -- what is of a lower level stays
  have hstays : ∀ l ∈ p.trail, p.level l.var < p.trailLimLen → l ∈ rest := by
    intro l hl hlt
    rw [htrail] at hl
    rcases mem_cons.mp hl with rfl | hl
    · omega
    · exact hl
  have hlearntLevel : ∀ l ∈ a.learnt, l.neg ∈ rest ∧ q.level l.var = p.level l.var := by
    intro l hl
    obtain ⟨hneg, -, hlt, -⟩ := h.learnt l hl
    have hmem := hstays l.neg hneg (by rwa [Lit.neg_var])
    have := hq.level l.neg hmem
    rw [Lit.neg_var] at this
    exact ⟨hmem, this⟩
  constructor
  case inv => exact hq.trailLimLen.symm ▸ hinv
  case lower =>
    intro e he l hl hlt
    rw [hq.trail] at hl
    rw [hq.level l hl, hq.trailLimLen] at hlt
    have hne : l ≠ x := fun heq => hnot (heq ▸ hl)
    exact forget_mem hne (h.lower e (hq.nextClause ▸ he) l (hrest l hl) hlt)
  case learnt =>
    intro l hl
    obtain ⟨-, hpos, hlt, hle, hseen⟩ := h.learnt l hl
    obtain ⟨hmem, hl'⟩ := hlearntLevel l hl
    rw [hl', hq.trail, hq.trailLimLen]
    exact ⟨hmem, hpos, hlt, hle, hseen⟩
  case distinct => exact h.distinct
  case btlevel =>
    refine h.btlevel.imp_right fun ⟨l, hl, heq⟩ => ⟨l, hl, ?_⟩
    rw [(hlearntLevel l hl).2, heq]
  case seen =>
    intro l hl hseen hpos hlt
    rw [hq.trail] at hl
    rw [hq.level l hl] at hpos hlt
    exact h.seen l (hrest l hl) hseen hpos (hq.trailLimLen ▸ hlt)
  case counter =>
    obtain ⟨pending, hnodup, hlen, hpending⟩ := h.counter
    have hmem : x ∈ pending ↔ x.var ∈ a.seen := by
      rw [hpending]
      exact ⟨fun h => h.2.2, fun h => ⟨hx, hlevel, h⟩⟩
    refine ⟨pending.erase x, hnodup.erase x, ?_, fun l => ?_⟩
    · rw [length_erase, hlen]
      simp only [hmem]
    · rw [hnodup.mem_erase_iff, hpending, hq.trail, hq.trailLimLen]
      constructor
      · rintro ⟨hne, hl, hl', hseen⟩
        rw [htrail] at hl
        have hl := (mem_cons.mp hl).resolve_left hne
        exact ⟨hl, (hq.level l hl).trans hl', hseen⟩
      · rintro ⟨hl, hl', hseen⟩
        exact ⟨fun heq => hnot (heq ▸ hl), hrest l hl, (hq.level l hl).symm.trans hl', hseen⟩

theorem Refutes.undone (h : Refutes Φ p a []) (htrail : p.trail = x :: rest) (hq : Undone p q rest)
    (n : Nat) : Refutes Φ q { a with counter := n } (if x.var ∈ a.seen then [x] else []) := by
  intro α hα hcauses hcurrent hlearnt
  refine h α hα nofun ?_ hlearnt
  intro l hl hlevel hseen
  rw [htrail] at hl
  rcases mem_cons.mp hl with rfl | hl
  · rw [if_pos hseen] at hcauses
    exact hcauses l (mem_singleton.mpr rfl)
  · exact hcurrent l (hq.trail.symm ▸ hl) (by rw [hq.level l hl, hlevel, hq.trailLimLen]) hseen

/-- What `next_interesting` leaves for the loop: the literal that was undone last, and why it was
set. -/
structure Interesting (Φ : List Constraint) (p q : Problem) (a : Analysis) (reason : Option Reason)
    (lit : Lit) : Prop where
  undone : Undone p q q.trail
  shorter : q.trail.length < p.trail.length
  suffix : q.trail <:+ p.trail
  undecided : q.litValue lit = .undecided
  bound : lit.var < q.numVars
  analysing : ∃ D, Analysing Φ q D { a with counter := a.counter - 1 }
  refutes : Refutes Φ q { a with counter := a.counter - 1 } [lit]
  implied : 1 < a.counter → ∃ c < q.nextClause, reason = some (.clause c) ∧
    (q.heap c).Implies lit q.trail

section

variable (h : Analysing Φ p D a)
include h

/-- The counter counts seen variables of the current level. -/
theorem Analysing.exists_pending (hcounter : 0 < a.counter) :
    ∃ l ∈ p.trail, p.level l.var = p.trailLimLen ∧ l.var ∈ a.seen := by
  obtain ⟨pending, -, hlen, hpending⟩ := h.counter
  obtain ⟨l, hl⟩ := exists_mem_of_length_pos (hlen ▸ hcounter)
  exact ⟨l, (hpending l).mp hl⟩

/-- The most recent assignment is of the current level while some seen variable is. -/
theorem Analysing.head_level (hcounter : 0 < a.counter) :
    ∃ x rest, p.trail = x :: rest ∧ p.level x.var = p.trailLimLen := by
  obtain ⟨l, hmem, hlevel, -⟩ := h.exists_pending hcounter
  cases htrail : p.trail with
  | nil =>
    rw [htrail] at hmem
    cases hmem
  | cons x rest =>
    have hlevels := h.inv.trail.levels
    rw [htrail] at hlevels hmem
    rw [h.inv.trail.limLen] at hlevel ⊢
    exact ⟨x, rest, rfl, hlevels.head hmem hlevel⟩

/-- A seen variable that is not the last one of its level was set by a clause. -/
theorem Analysing.implied (hpos : 0 < p.trailLimLen) (hcounter : 1 < a.counter)
    (htrail : p.trail = x :: rest) (hlevel : p.level x.var = p.trailLimLen) :
    ∃ c < p.nextClause, p.reason x.var = some (.clause c) ∧ (p.heap c).Implies x rest := by
  rcases h.inv.reasons.justified x rest (htrail ▸ suffix_refl _) with hzero | ⟨-, hfirst⟩ | hclause
  · omega
  · obtain ⟨pending, hnodup, hlen, hpending⟩ := h.counter
    have hne : pending.erase x ≠ [] := by
      intro hempty
      have hle : pending.length - 1 ≤ (pending.erase x).length := le_length_erase
      rw [hempty, length_nil] at hle
      omega
    obtain ⟨l, hl⟩ := exists_mem_of_ne_nil _ hne
    obtain ⟨hlx, hl⟩ := hnodup.mem_erase_iff.mp hl
    obtain ⟨hmem, hllevel, -⟩ := (hpending l).mp hl
    rw [htrail] at hmem
    have := hfirst l ((mem_cons.mp hmem).resolve_left hlx)
    omega
  · exact hclause

end

theorem Analysing.nextInteresting : ∀ {n : Nat} {p : Problem} {D : ClauseId → List Lit},
    p.trail.length = n → 0 < p.trailLimLen → Analysing Φ p D a → Refutes Φ p a [] → 0 < a.counter →
    ∃ reason lit q, Problem.nextInteresting a.seen n p = .ok ((reason, lit), q) ∧
      Interesting Φ p q a reason lit
  | 0, p, D, hn, _, h, _, hcounter => by
    obtain ⟨x, rest, htrail, -⟩ := h.head_level hcounter
    rw [htrail] at hn
    cases hn
  | n + 1, p, D, hn, hpos, h, hrefutes, hcounter => by
    obtain ⟨x, rest, htrail, hlevel⟩ := h.head_level hcounter
    rw [htrail] at hn
    cases hn
    obtain ⟨q, hrun, hinv, hq⟩ := h.inv.undone htrail hlevel hpos (Int.le_refl _)
    have hanalysing := h.undone htrail hlevel hinv hq
    have hrefutes' := hrefutes.undone htrail hq
    have hsuffix : rest <:+ p.trail := htrail ▸ suffix_cons _ _
    rw [Problem.nextInteresting, htrail]
    simp only [hrun]
    by_cases hseen : x.var ∈ a.seen
    · simp only [if_pos hseen] at hanalysing hrefutes'
      refine ⟨p.reason x.var, x, q, if_pos hseen, ?_⟩
      have hnot (l : Lit) (hvar : l.var = x.var) (hl : l ∈ rest) :=
        h.inv.trail.tail_var_ne htrail l hl hvar
      constructor
      case undone => exact hq.trail.symm ▸ hq
      case shorter => rw [hq.trail, htrail, length_cons]; omega
      case suffix => exact hq.trail.symm ▸ hsuffix
      case undecided =>
        rw [hinv.trail.litValue_undecided, hq.trail]
        exact ⟨hnot x rfl, hnot x.neg (Lit.neg_var x)⟩
      case bound =>
        rw [hq.numVars]
        exact h.inv.trail.bound x (htrail ▸ mem_cons_self)
      case analysing => exact ⟨_, hanalysing⟩
      case refutes => exact hrefutes' _
      case implied =>
        intro hmore
        obtain ⟨c, hc, hreason, himplies⟩ := h.implied hpos hmore htrail hlevel
        refine ⟨c, hq.nextClause.symm ▸ hc, hreason, ?_⟩
        rw [hq.trail]
        exact (hq.implies c x rest).mpr himplies
    · simp only [if_neg hseen] at hanalysing hrefutes'
      obtain ⟨reason, lit, q', hrun', hnext⟩ := Analysing.nextInteresting
        (congrArg List.length hq.trail)
          (hq.trailLimLen.symm ▸ hpos) hanalysing (hrefutes' _) hcounter
      refine ⟨reason, lit, q', (if_neg hseen).trans hrun', ?_⟩
      have hsub : q'.trail <:+ rest := hq.trail ▸ hnext.suffix
      have hshorter : q'.trail.length < p.trail.length := by
        have := hnext.shorter
        rw [hq.trail] at this
        rw [htrail, length_cons]
        omega
      exact { hnext with
        undone := hq.trans hnext.undone fun l hl => hsub.mem hl
        shorter := hshorter
        suffix := hsub.trans hsuffix }

/-! ## Following the causes -/

theorem Inv.calcReasonFor {k : Int} (h : Inv Φ p D extra k) (hc : c < p.nextClause)
    (himplies : (p.heap c).Implies lit p.trail) (hlit : p.litValue lit = .undecided) :
    ∃ rs, p.calcReasonFor c lit = .ok rs ∧ (∀ l ∈ rs, l ∈ p.trail) ∧
      ∀ α, Models Φ α → (∀ l ∈ rs, l.eval α = true) → lit.eval α = true := by
  have ht := h.trail
  obtain ⟨hnot, hnegnot⟩ := ht.litValue_undecided.mp hlit
  rw [Problem.calcReasonFor]
  cases hcl : p.heap c with
  | union a b more =>
    rw [hcl] at himplies
    obtain ⟨rfl, hmore⟩ := himplies
    have hdistinct := h.clauses.distinct c hc
    rw [hcl] at hdistinct
    have hfilter : (a :: b :: more).filter (· ≠ a) = b :: more := by
      rw [filter_cons_of_neg (by simp), filter_eq_self]
      intro x hx
      have hne : x ≠ a := by
        rintro rfl
        exact (nodup_cons.mp hdistinct).1 (mem_map_of_mem hx)
      simpa using hne
    refine ⟨(b :: more).map Lit.neg, ?_, ?_, ?_⟩
    · simp only [check, decide_true, if_true]
      exact congrArg (fun ls => Except.ok (ls.map Lit.neg)) hfilter
    · intro l hl
      obtain ⟨x, hx, rfl⟩ := mem_map.mp hl
      exact hmore x hx
    · intro α hα hall
      have hholds := h.clauses.entailed c hc α hα
      rw [hcl] at hholds
      obtain ⟨x, hx, htrue⟩ := hholds
      rcases mem_cons.mp hx with rfl | hx
      · exact htrue
      · have hfalse := hall x.neg (mem_map_of_mem hx)
        rw [Lit.eval_neg, htrue] at hfalse
        cases hfalse
  | atMost nb cur lits =>
    rw [hcl] at himplies
    obtain ⟨hmem, hlen⟩ := himplies
    refine ⟨_, rfl, ?_, ?_⟩
    · intro l hl
      have := (mem_filter.mp hl).2
      simp only [decide_eq_true_eq] at this
      exact (ht.value l).mp this.2
    · intro α hα hall
      have hholds := h.clauses.entailed c hc α hα
      rw [hcl] at hholds
      have hforced := atMost_forces hholds (ht.trail_nodup.filter _) hlen
        (fun x hx => by simpa using (mem_filter.mp hx).2) hmem
        (fun hin => hnegnot (mem_filter.mp hin).1) fun x hx => by
          obtain ⟨hx, hxl⟩ := mem_filter.mp hx
          refine hall x (mem_filter.mpr ⟨by simpa using hxl, ?_⟩)
          simp only [decide_eq_true_eq]
          exact ⟨fun heq => hnot (heq ▸ hx), (ht.value x).mpr hx⟩
      rwa [Lit.neg_neg] at hforced

/-- What `follow_causes` returns: the literal to negate and the rest of the learnt clause. -/
structure Followed (Φ : List Constraint) (p q : Problem) (a : Analysis) (lit : Lit) : Prop where
  undone : Undone p q q.trail
  suffix : q.trail <:+ p.trail
  undecided : q.litValue lit = .undecided
  bound : lit.var < q.numVars
  counter : a.counter = 0
  analysing : ∃ D, Analysing Φ q D a
  refutes : Refutes Φ q a [lit]

theorem Analysing.followCauses : ∀ {n : Nat} {p : Problem} {D : ClauseId → List Lit} {a : Analysis}
    {rs : List Lit}, p.trail.length < n → 0 < p.trailLimLen → Analysing Φ p D a → Refutes Φ p a rs →
    (∀ l ∈ rs, l ∈ p.trail) → (0 < a.counter ∨ ∃ l ∈ rs, p.level l.var = p.trailLimLen) →
    ∃ lit a' q, Problem.followCauses n p a rs = .ok (lit, a', q) ∧ Followed Φ p q a' lit
  | 0, _, _, _, _, hn, _, _, _, _, _ => absurd hn (Nat.not_lt_zero _)
  | n + 1, p, D, a, rs, hn, hpos, h, hrefutes, hrs, hsome => by
    obtain ⟨h', hrefutes', hseen, hmono⟩ := h.considerCauses hrefutes hrs
    rw [Problem.followCauses]
    generalize rs.foldl p.considerCause a = a' at h' hrefutes' hseen hmono
    have hcounter : 0 < a'.counter := by
      obtain ⟨pending, hnodup, hlen, hpending⟩ := h'.counter
      obtain ⟨l, hl, hlevel, hlseen⟩ :
          ∃ l ∈ p.trail, p.level l.var = p.trailLimLen ∧ l.var ∈ a'.seen := by
        rcases hsome with hcounter | ⟨l, hl, hlevel⟩
        · obtain ⟨l, hl, hlevel, hlseen⟩ := h.exists_pending hcounter
          exact ⟨l, hl, hlevel, hmono _ hlseen⟩
        · exact ⟨l, hrs l hl, hlevel, hseen l hl⟩
      rw [← hlen]
      exact length_pos_of_mem ((hpending l).mpr ⟨hl, hlevel, hlseen⟩)
    obtain ⟨reason, lit, q, hrun, hnext⟩ := h'.nextInteresting rfl hpos hrefutes' hcounter
    obtain ⟨D', hanalysing⟩ := hnext.analysing
    simp only [check, decide_eq_true hcounter, if_true, hrun]
    show ∃ lit' a'' q', (if a'.counter - 1 = 0 then _ else _) = _ ∧ _
    by_cases hlast : a'.counter - 1 = 0
    · exact ⟨lit, _, q, if_pos hlast, { hnext with counter := hlast }⟩
    · obtain ⟨c, hc, rfl, himplies⟩ := hnext.implied (by omega)
      obtain ⟨rs', hreason, hrs', hforces⟩ :=
        hanalysing.inv.calcReasonFor hc himplies hnext.undecided
      have hrefutes'' : Refutes Φ q { a' with counter := a'.counter - 1 } rs' := by
        intro α hα hall
        refine hnext.refutes α hα fun l hl => ?_
        rw [mem_singleton.mp hl]
        exact hforces α hα hall
      have hshorter := hnext.shorter
      obtain ⟨lit', a'', q', hrun', hfollowed⟩ := Analysing.followCauses (n := n) (by omega)
        (hnext.undone.trailLimLen.symm ▸ hpos) hanalysing hrefutes'' hrs' (.inl (by
          show 0 < a'.counter - 1
          omega))
      refine ⟨lit', a'', q', ?_, ?_⟩
      · simp only [if_neg hlast, hreason]
        exact hrun'
      · exact { hfollowed with
          undone := hnext.undone.trans hfollowed.undone fun l hl => hfollowed.suffix.mem hl
          suffix := hfollowed.suffix.trans hnext.suffix }

/-- The learnt clause and the state in which it was learnt. -/
structure Learnt (Φ : List Constraint) (p q : Problem) (a : Analysis) (lit : Lit) : Prop where
  undone : Undone p q q.trail
  suffix : q.trail <:+ p.trail
  undecided : q.litValue lit = .undecided
  bound : lit.var < q.numVars
  analysing : ∃ D, Analysing Φ q D a
  entailed : Entails Φ (.atLeastOne (lit.neg :: a.learnt))

theorem Conflict.analyse {n : Nat} (h : Conflict Φ p c) (hpos : 0 < p.trailLimLen)
    (hn : p.trail.length < n) :
    ∃ lit a q, Problem.analyse n p c = .ok ((lit.neg :: a.learnt, a.btlevel), q) ∧
      Learnt Φ p q a lit := by
  obtain ⟨-, D, h⟩ := h
  obtain ⟨rs, hreason, hrs, hrefuted, l, hl, hlevel⟩ := h.cause
  have hanalysing : Analysing Φ p D ⟨[], 0, [], 0⟩ :=
    ⟨h.inv, h.lower, nofun, nodup_nil, .inl ⟨rfl, rfl⟩, nofun, [], nodup_nil, rfl,
      fun l => ⟨nofun, nofun⟩⟩
  have hrefutes : Refutes Φ p ⟨[], 0, [], 0⟩ rs := by
    intro α hα hall _ _
    obtain ⟨l, hl, hfalse⟩ := hrefuted α hα
    rw [hall l hl] at hfalse
    cases hfalse
  obtain ⟨lit, a, q, hrun, hfollowed⟩ :=
    hanalysing.followCauses hn hpos hrefutes hrs (.inr ⟨l, hl, hlevel⟩)
  refine ⟨lit, a, q, ?_, { hfollowed with entailed := ?_ }⟩
  · rw [Problem.analyse, hreason]
    show (Problem.followCauses n p ⟨[], 0, [], 0⟩ rs >>= _) = _
    rw [hrun]
    show (check (decide (a.counter = 0)) >>= _) = _
    rw [hfollowed.counter]
    rfl
  · -- no seen variable of the current level is left
    obtain ⟨D', ha⟩ := hfollowed.analysing
    obtain ⟨pending, -, hlen, hpending⟩ := ha.counter
    rw [hfollowed.counter] at hlen
    have hempty := eq_nil_of_length_eq_zero hlen
    intro α hα
    by_contra hnone
    have hfalse : ∀ l ∈ lit.neg :: a.learnt, l.eval α = false := by
      intro l hl
      by_contra htrue
      exact hnone ⟨l, hl, by simpa using htrue⟩
    refine hfollowed.refutes α hα ?_ ?_ fun l hl => hfalse l (mem_cons_of_mem _ hl)
    · intro l hl
      rw [mem_singleton.mp hl]
      have := hfalse lit.neg mem_cons_self
      rw [Lit.eval_neg] at this
      simpa using this
    · intro l hl hlevel hseen
      have := (hpending l).mpr ⟨hl, hlevel, hseen⟩
      rw [hempty] at this
      cases this

end

end Problem

end Dune.Sat
