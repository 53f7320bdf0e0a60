import Dune.Sat.Invariant

/-!
# Assigning and undoing

`enqueue` of an undecided literal and `undo_one` of the most recent assignment keep the invariant.
-/

open List

namespace Dune.Sat

namespace Clause

/-- The literals that a group has counted. -/
def current : Clause → List Lit
  | .union _ _ _ => []
  | .atMost _ cur _ => cur

/-- A group without the last literal that it has counted. -/
def pop : Clause → Clause
  | .atMost nb (_ :: cur) lits => .atMost nb cur lits
  | cl => cl

section

variable (cl : Clause)
include cl

theorem same_pop : cl.Same cl.pop := by
  unfold pop
  split
  · exact same_atMost _ _ _ _
  · exact .refl _

@[simp] theorem pop_watches (l : Lit) : cl.pop.Watches l ↔ cl.Watches l := by
  unfold pop
  split <;> rfl

@[simp] theorem pop_isGroupOf (l : Lit) : cl.pop.IsGroupOf l ↔ cl.IsGroupOf l := by
  unfold pop
  split <;> rfl

@[simp] theorem pop_implies (l : Lit) (rest : List Lit) :
    cl.pop.Implies l rest ↔ cl.Implies l rest := by
  unfold pop
  split <;> rfl

end

end Clause

namespace Problem

section
variable {Φ : List Constraint} {p q : Problem} {D : ClauseId → List Lit}
  {extra : Lit → List ClauseId} {k : Int} {lit : Lit} {reason : Reason}

/-! ## Assigning -/

theorem value_undecided_of_lit (h : p.litValue lit = .undecided) :
    p.value lit.var = .undecided := by
  obtain ⟨s, v⟩ := lit
  cases s with
  | pos => exact h
  | neg =>
    have h : (p.value v).invert = .undecided := h
    cases hv : p.value v <;> rw [hv] at h <;> first | rfl | cases h

theorem enqueue_undecided (h : p.litValue lit = .undecided) :
    p.enqueue lit reason = (true, p.assign lit reason) := by
  rw [enqueue, h]

theorem litValue_assign_of_ne {l : Lit} (h : l.var ≠ lit.var) :
    (p.assign lit reason).litValue l = p.litValue l := by
  simp only [litValue, assign, update_of_ne _ _ h]

theorem litValue_assign_self : (p.assign lit reason).litValue lit = .true := by
  obtain ⟨s, v⟩ := lit
  cases s <;> simp [litValue, assign, VarValue.invert]

theorem TrailInv.not_mem_of_undecided (h : TrailInv p) (hlit : p.litValue lit = .undecided) :
    ∀ l ∈ p.trail, l.var ≠ lit.var :=
  h.value_undecided.mp (value_undecided_of_lit hlit)

theorem level_assign_of_ne {v : Nat} (h : v ≠ lit.var) :
    (p.assign lit reason).level v = p.level v :=
  update_of_ne _ _ h

theorem level_assign_self : (p.assign lit reason).level lit.var = p.trailLimLen :=
  update_same _ _ _

theorem TrailInv.assign (h : TrailInv p) (hlit : p.litValue lit = .undecided)
    (hbound : lit.var < p.numVars) : TrailInv (p.assign lit reason) := by
  have hne := h.not_mem_of_undecided hlit
  constructor
  case vars => exact h.vars
  case nodup =>
    refine nodup_cons.mpr ⟨?_, h.nodup⟩
    intro hmem
    obtain ⟨l, hl, hvar⟩ := mem_map.mp hmem
    exact hne l hl hvar
  case value =>
    intro l
    show _ ↔ l ∈ lit :: p.trail
    by_cases hvar : l.var = lit.var
    · have hnot : l ∉ p.trail := fun hl => hne l hl hvar
      rcases Lit.eq_or_eq_neg hvar with rfl | rfl
      · simp [litValue_assign_self]
      · rw [litValue_neg, litValue_assign_self]
        simp [VarValue.invert, hnot]
    · have hnelit : l ≠ lit := fun heq => hvar (heq ▸ rfl)
      rw [litValue_assign_of_ne hvar, h.value]
      simp [hnelit]
  case bound => exact forall_mem_cons.mpr ⟨hbound, h.bound⟩
  case len => exact congrArg (· + 1) h.len
  case limLen => exact h.limLen
  case levels =>
    have hcongr : Levels (p.assign lit reason).level p.trail p.trailLim :=
      h.levels.congr fun l hl => level_assign_of_ne (hne l hl)
    refine hcongr.cons ?_
    rw [level_assign_self, h.limLen]
  case undecided =>
    intro v hv
    by_cases hvar : v = lit.var
    · subst hvar
      have hv : (if lit.sign = .neg then VarValue.false else .true) = .undecided := by
        rw [← hv]
        exact (update_same _ _ _).symm
      split at hv <;> cases hv
    · rw [level_assign_of_ne hvar]
      refine h.undecided v ?_
      rw [← hv]
      exact (update_of_ne _ _ hvar).symm

theorem ReasonInv.assign (h : ReasonInv Φ p) (htrail : TrailInv p)
    (hlit : p.litValue lit = .undecided) (hfact : p.trailLimLen = 0 → Forces Φ lit)
    (hjust : (p.assign lit reason).Justified lit p.trail) : ReasonInv Φ (p.assign lit reason) := by
  have hne := htrail.not_mem_of_undecided hlit
  constructor
  case facts =>
    intro l hl hlevel
    rcases mem_cons.mp hl with rfl | hl
    · rw [level_assign_self] at hlevel
      exact hfact (by exact_mod_cast hlevel)
    · rw [level_assign_of_ne (hne l hl)] at hlevel
      exact h.facts l hl hlevel
  case justified =>
    intro l rest hsuffix
    rcases suffix_cons_iff.mp hsuffix with heq | hsuffix
    · cases heq
      exact hjust
    · exact (h.justified l rest hsuffix).congr
        (fun x hx => level_assign_of_ne (hne x (hsuffix.mem hx)))
        (update_of_ne _ _ (hne l (hsuffix.mem mem_cons_self))) fun _ hc himp => ⟨hc, himp⟩

variable {c : ClauseId}

theorem UndoInv.current_mem (h : UndoInv p D) (hc : c < p.nextClause) {l : Lit}
    (hl : l ∈ (p.heap c).current) : l ∈ D c := by
  cases hcl : p.heap c with
  | union a b rest =>
    rw [hcl] at hl
    cases hl
  | atMost nb cur lits =>
    rw [hcl] at hl
    rw [Clause.current, h.current c hc nb cur lits hcl] at hl
    exact (mem_filter.mp hl).1

variable {cl : Clause}

/-- Conclusions depend on what the clause knows and on the assignments below level `k`. -/
theorem Concluded.congr {d : List Lit} (h : p.Concluded k d cl)
    (hlevel : ∀ l, l ∈ d ∨ l ∈ cl.current → q.level l.var = p.level l.var)
    (htrail : ∀ l ∈ p.trail, p.level l.var < k → l ∈ q.trail ∧ q.level l.var = p.level l.var) :
    q.Concluded k d cl := by
  cases cl with
  | union a b rest =>
    have hside : ∀ {x y : Lit}, (x.neg ∈ d → p.level x.var < k → y ∈ p.trail ∧
        p.level y.var ≤ p.level x.var) → x.neg ∈ d → q.level x.var < k →
        y ∈ q.trail ∧ q.level y.var ≤ q.level x.var := by
      intro x y h hx hk
      have hxlevel := hlevel x.neg (.inl hx)
      rw [Lit.neg_var] at hxlevel
      rw [hxlevel] at hk ⊢
      obtain ⟨hy, hle⟩ := h hx hk
      obtain ⟨hyq, hylevel⟩ := htrail y hy (by omega)
      exact ⟨hyq, hylevel ▸ hle⟩
    exact ⟨hside h.1, hside h.2⟩
  | atMost nb cur lits =>
    intro x s hsuffix hk
    have hx := hlevel x (.inr (hsuffix.mem mem_cons_self))
    rw [hx] at hk ⊢
    obtain ⟨hle, hfull⟩ := h x s hsuffix hk
    refine ⟨hle, fun heq l hl hnot => ?_⟩
    obtain ⟨hneg, hl'⟩ := hfull heq l hl hnot
    obtain ⟨hnegq, hllevel⟩ := htrail l.neg hneg (by rw [Lit.neg_var]; omega)
    rw [Lit.neg_var] at hllevel
    exact ⟨hnegq, hllevel ▸ hl'⟩

theorem UndoInv.mem_known (h : UndoInv p D) (hc : c < p.nextClause) {l : Lit}
    (hl : l ∈ D c ∨ l ∈ (p.heap c).current) : l ∈ D c :=
  hl.elim id (h.current_mem hc)

theorem Inv.assign (h : Inv Φ p D extra k) (hlit : p.litValue lit = .undecided)
    (hbound : lit.var < p.numVars) (hfact : p.trailLimLen = 0 → Forces Φ lit)
    (hjust : (p.assign lit reason).Justified lit p.trail) :
    Inv Φ (p.assign lit reason) D extra k where
  trail := h.trail.assign hlit hbound
  reasons := h.reasons.assign h.trail hlit hfact hjust
  clauses := { h.clauses with }
  watch := { h.watch with }
  undo := { h.undo with suffix := fun c hc => (h.undo.suffix c hc).trans (suffix_cons _ _) }
  concluded := by
    have hlevel : ∀ l ∈ p.trail, (p.assign lit reason).level l.var = p.level l.var :=
      fun l hl => level_assign_of_ne (h.trail.not_mem_of_undecided hlit l hl)
    exact fun c hc => (h.concluded c hc).congr
      (fun l hl => hlevel l ((h.undo.suffix c hc).mem (h.undo.mem_known hc hl)))
      fun l hl _ => ⟨mem_cons_of_mem _ hl, hlevel l hl⟩
  complete := by
    intro hconflict α hfacts
    refine h.complete hconflict α fun l hl hzero => hfacts l (mem_cons_of_mem _ hl) ?_
    rw [level_assign_of_ne (h.trail.not_mem_of_undecided hlit l hl)]
    exact hzero

/-! ## Undoing -/

/-- The clauses after the undo list `us` has been run. -/
def poppedHeap (us : List Undo) (heap : ClauseId → Clause) (c : ClauseId) : Clause :=
  if .undoAtMost c ∈ us then (heap c).pop else heap c

theorem of_popped {P : Clause → Prop} {us : List Undo} {heap : ClauseId → Clause} {c : ClauseId}
    (hpop : P (heap c).pop) (h : P (heap c)) : P (poppedHeap us heap c) := by
  unfold poppedHeap
  split
  · exact hpop
  · exact h

theorem undoAll_spec : ∀ {us : List Undo} {p : Problem}, p.undo lit.var = us →
    (∀ c, us.count (.undoAtMost c) ≤ 1) →
    (∀ c, .undoAtMost c ∈ us → ∃ nb cur lits, p.heap c = .atMost nb (lit :: cur) lits) →
    ∃ undo' b, undoAll lit us p =
        .ok { p with heap := poppedHeap us p.heap, undo := undo', setToFalse := b } ∧
      undo' lit.var = [] ∧ ∀ v, v ≠ lit.var → undo' v = p.undo v
  | [], p, hus, _, _ => ⟨p.undo, p.setToFalse, rfl, hus, fun _ _ => rfl⟩
  | .decided :: us, p, hus, hcount, hheap => by
    obtain ⟨undo', b, hrun, hself, hother⟩ := undoAll_spec
      (p := { p with undo := update p.undo lit.var us, setToFalse := false }) (update_same _ _ _)
      (fun c => (count_le_count_cons ..).trans (hcount c))
      (fun c hc => hheap c (mem_cons_of_mem _ hc))
    refine ⟨undo', b, ?_, hself, fun v hv => (hother v hv).trans (update_of_ne _ _ hv)⟩
    show undoAll lit us { p with undo := update p.undo lit.var us, setToFalse := false } = _
    rw [hrun]
    congr 2
    funext c
    simp [poppedHeap]
  | .undoAtMost c :: us, p, hus, hcount, hheap => by
    obtain ⟨nb, cur, lits, hc⟩ := hheap c mem_cons_self
    have hnot : Undo.undoAtMost c ∉ us := by
      intro hmem
      have hle := hcount c
      rw [count_cons_self] at hle
      have := count_pos_iff.mpr hmem
      omega
    obtain ⟨undo', b, hrun, hself, hother⟩ := undoAll_spec
      (p := { p with
        undo := update p.undo lit.var us, heap := update p.heap c (.atMost nb cur lits) })
      (update_same _ _ _)
      (fun c => (count_le_count_cons ..).trans (hcount c))
      (fun c' hc' => by
        have hne : c' ≠ c := fun heq => hnot (heq ▸ hc')
        obtain ⟨nb', cur', lits', heq⟩ := hheap c' (mem_cons_of_mem _ hc')
        exact ⟨nb', cur', lits', (update_of_ne _ _ hne).trans heq⟩)
    refine ⟨undo', b, ?_, hself, fun v hv => (hother v hv).trans (update_of_ne _ _ hv)⟩
    have hstep : undoStep { p with undo := update p.undo lit.var us } (.undoAtMost c) lit =
        .ok { p with
          undo := update p.undo lit.var us
          heap := update p.heap c (.atMost nb cur lits) } := by
      simp only [undoStep, hc, check, decide_true, if_true]
      rfl
    rw [undoAll, hstep]
    refine hrun.trans ?_
    congr 2
    funext c'
    by_cases hne : c' = c
    · simp [poppedHeap, hne, hnot, hc, Clause.pop]
    · simp [poppedHeap, hne, update_of_ne _ _ hne]

/-- What the clauses know after the most recent assignment is undone. -/
def forget (D : ClauseId → List Lit) (lit : Lit) (c : ClauseId) : List Lit := (D c).erase lit

section
variable {rest : List Lit}

theorem forget_cases (hnodup : (lit :: rest).Nodup) (h : D c <:+ lit :: rest) :
    (D c = lit :: rest ∧ forget D lit c = rest) ∨
      (lit ∉ D c ∧ D c <:+ rest ∧ forget D lit c = D c) := by
  rcases suffix_cons_iff.mp h with heq | hsuffix
  · refine .inl ⟨heq, ?_⟩
    rw [forget, heq, erase_cons_head]
  · have hnot : lit ∉ D c := fun hmem => (nodup_cons.mp hnodup).1 (hsuffix.mem hmem)
    exact .inr ⟨hnot, hsuffix, erase_of_not_mem hnot⟩

section

variable (h : TrailInv p) (htrail : p.trail = lit :: rest)
include h htrail

theorem TrailInv.tail_var_ne : ∀ l ∈ rest, l.var ≠ lit.var := by
  have hnodup := h.nodup
  rw [htrail, map_cons, nodup_cons] at hnodup
  exact fun l hl hvar => hnodup.1 (mem_map.mpr ⟨l, hl, hvar⟩)

theorem TrailInv.level_unassign : ∀ l ∈ rest, (p.unassign lit rest).level l.var = p.level l.var :=
  fun l hl => update_of_ne _ _ (h.tail_var_ne htrail l hl)

theorem TrailInv.unassign (hlevel : p.level lit.var = p.trailLimLen) :
    TrailInv (p.unassign lit rest) := by
  have hne := h.tail_var_ne htrail
  constructor
  case vars => exact h.vars
  case nodup =>
    have hnodup := h.nodup
    rw [htrail, map_cons] at hnodup
    exact (nodup_cons.mp hnodup).2
  case value =>
    intro l
    show _ ↔ l ∈ rest
    by_cases hvar : l.var = lit.var
    · have hnot : l ∉ rest := fun hl => hne l hl hvar
      have hvalue : (p.unassign lit rest).value l.var = .undecided := by
        rw [hvar]
        exact update_same _ _ _
      simp only [litValue, hvalue, hnot, iff_false]
      cases l.sign <;> simp [VarValue.invert]
    · have hsame : (p.unassign lit rest).litValue l = p.litValue l := by
        simp only [litValue, Problem.unassign, update_of_ne _ _ hvar]
      have hnelit : l ≠ lit := fun heq => hvar (heq ▸ rfl)
      rw [hsame, h.value, htrail]
      simp [hnelit]
  case bound =>
    intro l hl
    exact h.bound l (htrail ▸ mem_cons_of_mem _ hl)
  case len =>
    show p.trailLen - 1 = rest.length
    rw [h.len, htrail]
    rfl
  case limLen => exact h.limLen
  case levels =>
    have hlevels := h.levels
    rw [htrail] at hlevels
    refine (hlevels.tail ?_).congr fun l hl => update_of_ne _ _ (hne l hl)
    rw [hlevel, h.limLen]
  case undecided =>
    intro v hv
    by_cases hvar : v = lit.var
    · subst hvar
      exact update_same _ _ _
    · rw [show (p.unassign lit rest).level v = p.level v from update_of_ne _ _ hvar]
      refine h.undecided v ?_
      rw [← hv]
      exact (update_of_ne _ _ hvar).symm

end

theorem ReasonInv.unassign (h : ReasonInv Φ p) (hp : TrailInv p) (htrail : p.trail = lit :: rest) :
    ReasonInv Φ (p.unassign lit rest) := by
  have hlevel := hp.level_unassign htrail
  constructor
  case facts =>
    intro l hl hzero
    exact h.facts l (htrail ▸ mem_cons_of_mem _ hl) ((hlevel l hl).symm.trans hzero)
  case justified =>
    intro l more hsuffix
    have hne := hp.tail_var_ne htrail l (hsuffix.mem mem_cons_self)
    exact (h.justified l more (htrail ▸ hsuffix.trans (suffix_cons _ _))).congr
      (fun x hx => hlevel x (hsuffix.mem hx)) (update_of_ne _ _ hne) fun _ hc himp => ⟨hc, himp⟩

/-- The most recent assignment of the current level is taken back, when no clause knows of it or has
conclusions at that level. -/
theorem Inv.unassign (h : Inv Φ p D extra k) (htrail : p.trail = lit :: rest)
    (hlevel : p.level lit.var = p.trailLimLen) (hpos : 0 < p.trailLimLen) (hk : k ≤ p.trailLimLen)
    (hD : ∀ c < p.nextClause, D c <:+ rest) : Inv Φ (p.unassign lit rest) D extra k where
  trail := h.trail.unassign htrail hlevel
  reasons := h.reasons.unassign h.trail htrail
  clauses := { h.clauses with }
  watch := { h.watch with }
  undo := { h.undo with suffix := hD }
  concluded := by
    have hsame := h.trail.level_unassign htrail
    refine fun c hc => (h.concluded c hc).congr
      (fun l hl => hsame l ((hD c hc).mem (h.undo.mem_known hc hl))) fun l hl hlt => ?_
    -- an assignment of a level below `k` is not the one that is undone
    rw [htrail] at hl
    rcases mem_cons.mp hl with rfl | hl
    · omega
    · exact ⟨hl, hsame l hl⟩
  complete := by
    intro hconflict α hfacts
    refine h.complete hconflict α fun l hl hzero => ?_
    have hne : l.var ≠ lit.var := by
      intro hvar
      rw [hvar] at hzero
      omega
    rw [htrail] at hl
    have hl := (mem_cons.mp hl).resolve_left fun heq => hne (heq ▸ rfl)
    exact hfacts l hl ((update_of_ne _ _ hne).trans hzero)

/-- A clause that forgets literals keeps its other conclusions. -/
theorem Concluded.subset {d d' : List Lit} (h : p.Concluded k d cl) (hd : ∀ l ∈ d', l ∈ d) :
    p.Concluded k d' cl := by
  cases cl with
  | union a b more => exact ⟨fun ha => h.1 (hd _ ha), fun hb => h.2 (hd _ hb)⟩
  | atMost nb cur lits => exact h

theorem Concluded.pop {d : List Lit} (h : p.Concluded k d cl) : p.Concluded k d cl.pop := by
  match cl, h with
  | .union _ _ _, h => exact h
  | .atMost _ [] _, h => exact h
  | .atMost _ (_ :: _) _, h => exact fun x s hsuffix => h x s (hsuffix.trans (suffix_cons _ _))

section

variable (h : UndoInv p D) (hp : TrailInv p) (htrail : p.trail = lit :: rest)
include h hp htrail

theorem UndoInv.undoAtMost_mem_iff (hc : c < p.nextClause) :
    .undoAtMost c ∈ p.undo lit.var ↔ lit ∈ D c ∧ (p.heap c).IsGroupOf lit := by
  rw [h.undo]
  have hlit : lit ∈ p.trail := htrail ▸ mem_cons_self
  constructor
  · rintro ⟨-, l, hl, hvar, hgroup⟩
    have heq := hp.eq_of_var ((h.suffix c hc).mem hl) hlit hvar
    exact heq ▸ ⟨hl, hgroup⟩
  · rintro ⟨hl, hgroup⟩
    exact ⟨hc, lit, hl, rfl, hgroup⟩

theorem UndoInv.forget_suffix (hc : c < p.nextClause) : forget D lit c <:+ rest := by
  rcases forget_cases (htrail ▸ hp.trail_nodup) (htrail ▸ h.suffix c hc) with
    ⟨-, heq⟩ | ⟨-, hsuffix, heq⟩
  · exact heq ▸ suffix_refl _
  · exact heq ▸ hsuffix

theorem UndoInv.popped {undo' : Nat → List Undo} (hself : undo' lit.var = [])
    (hother : ∀ v, v ≠ lit.var → undo' v = p.undo v) {b : Bool} :
    UndoInv { p with
      heap := poppedHeap (p.undo lit.var) p.heap, undo := undo', setToFalse := b }
        (forget D lit) := by
  have hnodup : (lit :: rest).Nodup := htrail ▸ hp.trail_nodup
  have hcases : ∀ c < p.nextClause, _ := fun c hc => forget_cases hnodup (htrail ▸ h.suffix c hc)
  have hnot : lit ∉ rest := (nodup_cons.mp hnodup).1
  constructor
  case suffix =>
    exact fun c hc => (h.forget_suffix hp htrail hc).trans (htrail ▸ suffix_cons _ _)
  case current =>
    intro c hc nb cur lits hcl
    have hmem := h.undoAtMost_mem_iff hp htrail hc
    have hcl : poppedHeap (p.undo lit.var) p.heap c = .atMost nb cur lits := hcl
    rw [poppedHeap] at hcl
    cases hheap : p.heap c with
    | union a b more =>
      rw [hheap] at hcl
      split at hcl <;> cases hcl
    | atMost nb' cur' lits' =>
      have hcur := h.current c hc nb' cur' lits' hheap
      rw [hheap] at hcl hmem
      rcases hcases c hc with ⟨hD, heq⟩ | ⟨hD, -, heq⟩
      · by_cases hlit : lit ∈ lits'
        · rw [if_pos (hmem.mpr ⟨hD ▸ mem_cons_self, hlit⟩)] at hcl
          rw [hD, filter_cons_of_pos (by simpa using hlit)] at hcur
          rw [hcur] at hcl
          cases hcl
          rw [heq]
        · rw [if_neg fun hin => hlit (hmem.mp hin).2] at hcl
          rw [hD, filter_cons_of_neg (by simpa using hlit)] at hcur
          cases hcl
          rw [heq, hcur]
      · rw [if_neg fun hin => hD (hmem.mp hin).1] at hcl
        cases hcl
        rw [heq, hcur]
  case undo =>
    intro v c
    have hgroup (l : Lit) :
        (poppedHeap (p.undo lit.var) p.heap c).IsGroupOf l ↔ (p.heap c).IsGroupOf l :=
      of_popped (P := (·.IsGroupOf l ↔ _)) (Clause.pop_isGroupOf _ _) Iff.rfl
    show _ ∈ undo' v ↔ c < p.nextClause ∧
      ∃ l ∈ forget D lit c, l.var = v ∧ (poppedHeap (p.undo lit.var) p.heap c).IsGroupOf l
    by_cases hv : v = lit.var
    · subst hv
      rw [hself]
      constructor
      · intro hmem
        cases hmem
      · rintro ⟨hc, l, hl, hvar, -⟩
        have hl' : l ∈ rest := (h.forget_suffix hp htrail hc).mem hl
        have heq := hp.eq_of_var (htrail ▸ mem_cons_of_mem _ hl') (htrail ▸ mem_cons_self) hvar
        exact absurd (heq ▸ hl') hnot
    · rw [hother v hv, h.undo]
      simp only [hgroup]
      refine and_congr_right fun hc => exists_congr fun l => and_congr_left fun ⟨hvar, _⟩ => ?_
      exact (mem_erase_of_ne fun heq => hv (hvar.symm.trans (congrArg Lit.var heq))).symm
  case nodup =>
    intro v c
    show (undo' v).count _ ≤ 1
    by_cases hv : v = lit.var
    · subst hv
      simp [hself]
    · rw [hother v hv]
      exact h.nodup v c

end

/-- Undoing the most recent assignment of the current level, once no clause has conclusions at that
level. -/
theorem Inv.undoOne (h : Inv Φ p D extra k) (htrail : p.trail = lit :: rest)
    (hlevel : p.level lit.var = p.trailLimLen) (hpos : 0 < p.trailLimLen) (hk : k ≤ p.trailLimLen) :
    ∃ heap' undo' b, p.undoOne = .ok { p.unassign lit rest with
        heap := heap', undo := undo', setToFalse := b } ∧
      (∀ c, heap' c = (p.heap c).pop ∨ heap' c = p.heap c) ∧
      Inv Φ { p.unassign lit rest with heap := heap', undo := undo', setToFalse := b }
        (forget D lit) extra k := by
  have hundo := h.undo
  have hmem := fun {c} (hc : c < p.nextClause) => hundo.undoAtMost_mem_iff h.trail htrail hc
  have hlit : lit ∈ p.trail := htrail ▸ mem_cons_self
  have hpop : ∀ c, .undoAtMost c ∈ p.undo lit.var →
      ∃ nb cur lits, (p.unassign lit rest).heap c = .atMost nb (lit :: cur) lits := by
    intro c hin
    have hc := ((hundo.undo _ _).mp hin).1
    obtain ⟨hD, hgroup⟩ := (hmem hc).mp hin
    show ∃ nb cur lits, p.heap c = _
    cases hcl : p.heap c with
    | union a b more =>
      rw [hcl] at hgroup
      exact hgroup.elim
    | atMost nb cur lits =>
      rw [hcl] at hgroup
      have hgroup : lit ∈ lits := hgroup
      have hcur := hundo.current c hc nb cur lits hcl
      rcases forget_cases (htrail ▸ h.trail.trail_nodup) (htrail ▸ hundo.suffix c hc) with
        ⟨heq, -⟩ | ⟨hnot, -⟩
      · rw [heq, filter_cons_of_pos (by simpa using hgroup)] at hcur
        exact ⟨nb, _, lits, by rw [hcur]⟩
      · exact absurd hD hnot
  obtain ⟨undo', b, hrun, hself, hother⟩ := undoAll_spec (p := p.unassign lit rest) rfl
    (fun c => hundo.nodup lit.var c) hpop
  refine ⟨poppedHeap (p.undo lit.var) p.heap, undo', b, ?_, fun c => ite_eq_or_eq _ _ _, ?_⟩
  · rw [Problem.undoOne, htrail]
    exact hrun
  · have hpopped : Inv Φ { p with
        heap := poppedHeap (p.undo lit.var) p.heap, undo := undo', setToFalse := b }
        (forget D lit) extra k := by
      refine h.setClauses (fun c => ?_) (fun c l _ more himplies => ?_) ?_
        (hundo.popped h.trail htrail hself hother) fun c hc => ?_
      · exact of_popped (p.heap c).same_pop (.refl _)
      · exact of_popped (P := (·.Implies l more)) ((Clause.pop_implies _ _ _).mpr himplies) himplies
      · refine ⟨fun l c => (h.watch.mem l c).trans (and_congr_right fun _ => ?_), h.watch.nodup⟩
        exact of_popped (P := ((p.heap c).Watches l ↔ ·.Watches l))
          (Clause.pop_watches _ _).symm Iff.rfl
      · have hconcl : p.Concluded k (forget D lit c) (p.heap c) :=
          (h.concluded c hc).subset fun l hl => mem_of_mem_erase hl
        exact of_popped hconcl.pop hconcl
    exact hpopped.unassign htrail hlevel hpos hk fun c hc => hundo.forget_suffix h.trail htrail hc

end

end

end Problem

end Dune.Sat
