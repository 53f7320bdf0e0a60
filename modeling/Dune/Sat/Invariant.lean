import Dune.Sat.Solver

/-!
# The invariant of the solver

`Inv` holds of every state between two calls on clauses. It is relative to what the clauses have
been told: `D c` is the part of the trail of which clause `c` has been notified, `extra l` are the
watchers of `l` that are out of its queue because they wait for a notification, and clauses have
drawn their conclusions for the levels below `k`.
-/

open List

namespace Dune.Sat

namespace Clause

/-- The constraint that a clause stands for. -/
def constraint : Clause → Constraint
  | .union a b rest => .atLeastOne (a :: b :: rest)
  | .atMost nb _ lits => .atMost nb lits

def lits : Clause → List Lit
  | .union a b rest => a :: b :: rest
  | .atMost _ _ lits => lits

/-- A union has no two literals of one variable, a group no literal twice. -/
def Distinct : Clause → Prop
  | .union a b rest => ((a :: b :: rest).map Lit.var).Nodup
  | .atMost _ _ lits => lits.Nodup

/-- The clause is notified when the literal becomes true. -/
def Watches : Clause → Lit → Prop
  | .union a b _, l => l = a.neg ∨ l = b.neg
  | .atMost _ _ lits, l => l ∈ lits

/-- The clause is a group with the literal. -/
def IsGroupOf : Clause → Lit → Prop
  | .union _ _ _, _ => False
  | .atMost _ _ lits, l => l ∈ lits

/-- The clause makes `l` true when the literals of `rest` are. -/
def Implies : Clause → Lit → List Lit → Prop
  | .union a b more, l, rest => a = l ∧ ∀ x ∈ b :: more, x.neg ∈ rest
  | .atMost nb _ lits, l, rest => l.neg ∈ lits ∧ nb ≤ (rest.filter (· ∈ lits)).length

theorem Implies.eval {cl : Clause} {l : Lit} {rest : List Lit} {α : Assignment}
    (h : cl.Implies l rest)
    (hcl : cl.constraint.Holds α) (hnodup : rest.Nodup) (hl : l.neg ∉ rest)
    (hall : ∀ x ∈ rest, x.eval α = true) : l.eval α = true := by
  cases cl with
  | union a b more =>
    obtain ⟨rfl, hmore⟩ := h
    obtain ⟨x, hx, htrue⟩ := hcl
    rcases mem_cons.mp hx with rfl | hx
    · exact htrue
    · have hfalse := hall x.neg (hmore x hx)
      rw [Lit.eval_neg, htrue] at hfalse
      cases hfalse
  | atMost nb cur lits =>
    obtain ⟨hmem, hlen⟩ := h
    have hforced := atMost_forces hcl (hnodup.filter _) hlen
      (fun x hx => by simpa using (mem_filter.mp hx).2) hmem
      (fun hin => hl (mem_filter.mp hin).1) (fun x hx => hall x (mem_filter.mp hx).1)
    rwa [Lit.neg_neg] at hforced

/-- `cl'` asks for what `cl` does, of the same literals. -/
structure Same (cl cl' : Clause) : Prop where
  holds : ∀ α, cl'.constraint.Holds α ↔ cl.constraint.Holds α
  distinct : cl.Distinct → cl'.Distinct
  lits : ∀ l ∈ cl'.lits, l ∈ cl.lits

theorem Same.refl (cl : Clause) : cl.Same cl := ⟨fun _ => Iff.rfl, id, fun _ => id⟩

theorem same_atMost (nb : Nat) (cur cur' lits : List Lit) :
    (atMost nb cur lits).Same (.atMost nb cur' lits) :=
  ⟨fun _ => Iff.rfl, id, fun _ => id⟩

theorem same_union {a b a' b' : Lit} {rest rest' : List Lit}
    (h : (a' :: b' :: rest').Perm (a :: b :: rest)) :
    (union a b rest).Same (.union a' b' rest') where
  holds _ := exists_congr fun _ => and_congr_left fun _ => h.mem_iff
  distinct hdistinct := (h.map Lit.var).nodup_iff.mpr hdistinct
  lits _ := h.mem_iff.mp

end Clause

namespace Problem

/-- The levels along the trail. `trail_lim` has the lengths of the trail at the decisions. -/
def Levels (level : Nat → Int) : List Lit → List Nat → Prop
  | trail, [] => ∀ l ∈ trail, level l.var = 0
  | trail, lim :: lims => ∃ seg rest, trail = seg ++ rest ∧ rest.length = lim ∧
      (∀ l ∈ seg, level l.var = lims.length + 1) ∧ Levels level rest lims

structure TrailInv (p : Problem) : Prop where
  vars : ∀ v, v ∈ p.vars ↔ v < p.numVars
  nodup : (p.trail.map Lit.var).Nodup
  value : ∀ l, p.litValue l = .true ↔ l ∈ p.trail
  bound : ∀ l ∈ p.trail, l.var < p.numVars
  len : p.trailLen = p.trail.length
  limLen : p.trailLimLen = p.trailLim.length
  levels : Levels p.level p.trail p.trailLim
  undecided : ∀ v, p.value v = .undecided → p.level v = -1

/-- Why `l` is true, if `rest` was true before: it follows from the problem, it was a choice, or a
clause implied it. -/
def Justified (p : Problem) (l : Lit) (rest : List Lit) : Prop :=
  p.level l.var = 0 ∨ (0 < p.level l.var ∧ ∀ q ∈ rest, p.level q.var < p.level l.var) ∨
    ∃ c < p.nextClause, p.reason l.var = some (.clause c) ∧ (p.heap c).Implies l rest

structure ReasonInv (Φ : List Constraint) (p : Problem) : Prop where
  facts : ∀ l ∈ p.trail, p.level l.var = 0 → Forces Φ l
  justified : ∀ l rest, (l :: rest) <:+ p.trail → p.Justified l rest

structure ClauseInv (Φ : List Constraint) (p : Problem) : Prop where
  entailed : ∀ c < p.nextClause, Entails Φ (p.heap c).constraint
  distinct : ∀ c < p.nextClause, (p.heap c).Distinct
  bound : ∀ c < p.nextClause, ∀ l ∈ (p.heap c).lits, l.var < p.numVars

structure WatchInv (p : Problem) (extra : Lit → List ClauseId) : Prop where
  mem : ∀ l c, c ∈ p.watchQueue l ++ extra l ↔ c < p.nextClause ∧ (p.heap c).Watches l
  nodup : ∀ l, (p.watchQueue l ++ extra l).Nodup

structure UndoInv (p : Problem) (D : ClauseId → List Lit) : Prop where
  suffix : ∀ c < p.nextClause, D c <:+ p.trail
  current : ∀ c < p.nextClause, ∀ nb cur lits, p.heap c = .atMost nb cur lits →
    cur = (D c).filter (· ∈ lits)
  undo : ∀ v c, .undoAtMost c ∈ p.undo v ↔
    c < p.nextClause ∧ ∃ l ∈ D c, l.var = v ∧ (p.heap c).IsGroupOf l
  nodup : ∀ v c, (p.undo v).count (.undoAtMost c) ≤ 1

/-- The conclusions of a clause that has been notified of `d`, below level `k`: when one watched
literal of a union became false the other was or became true; when a group became full the others
were or became false. -/
def Concluded (p : Problem) (k : Int) (d : List Lit) : Clause → Prop
  | .union a b _ =>
    (a.neg ∈ d → p.level a.var < k → b ∈ p.trail ∧ p.level b.var ≤ p.level a.var) ∧
      (b.neg ∈ d → p.level b.var < k → a ∈ p.trail ∧ p.level a.var ≤ p.level b.var)
  | .atMost nb cur lits => ∀ h s, (h :: s) <:+ cur → p.level h.var < k →
      s.length + 1 ≤ nb ∧ (s.length + 1 = nb → ∀ l ∈ lits, l ∉ h :: s →
        l.neg ∈ p.trail ∧ p.level l.var ≤ p.level h.var)

/-- The facts and the clauses say everything that the problem asks for. -/
def Complete (p : Problem) (Φ : List Constraint) : Prop :=
  ∀ α, (∀ l ∈ p.trail, p.level l.var = 0 → l.eval α = true) →
    (∀ c < p.nextClause, (p.heap c).constraint.Holds α) → Models Φ α

structure Inv (Φ : List Constraint) (p : Problem) (D : ClauseId → List Lit)
    (extra : Lit → List ClauseId) (k : Int) : Prop where
  trail : TrailInv p
  reasons : ReasonInv Φ p
  clauses : ClauseInv Φ p
  watch : WatchInv p extra
  undo : UndoInv p D
  concluded : ∀ c < p.nextClause, p.Concluded k (D c) (p.heap c)
  complete : p.toplevelConflict = false → p.Complete Φ

section
variable {Φ : List Constraint} {p : Problem} {D D' : ClauseId → List Lit}
  {extra extra' : Lit → List ClauseId} {k k' : Int}

theorem Justified.congr {q : Problem} {l : Lit} {rest : List Lit} (h : p.Justified l rest)
    (hlevel : ∀ x ∈ l :: rest, q.level x.var = p.level x.var)
    (hreason : q.reason l.var = p.reason l.var)
    (himplies : ∀ c < p.nextClause, (p.heap c).Implies l rest →
      c < q.nextClause ∧ (q.heap c).Implies l rest) : q.Justified l rest := by
  rw [forall_mem_cons] at hlevel
  rw [Justified, hlevel.1, hreason]
  refine h.imp_right (Or.imp ?_ ?_)
  · rintro ⟨hpos, hrest⟩
    exact ⟨hpos, fun x hx => (hlevel.2 x hx).symm ▸ hrest x hx⟩
  · rintro ⟨c, hc, hclause, himp⟩
    obtain ⟨hc, himp⟩ := himplies c hc himp
    exact ⟨c, hc, hclause, himp⟩

/-- Replacing clauses by others that ask for the same, and imply what they have implied. -/
theorem Inv.setClauses (h : Inv Φ p D extra k) {heap' : ClauseId → Clause}
    {undo' : Nat → List Undo} {watchQueue' : Lit → List ClauseId} {b : Bool}
    (hsame : ∀ c, (p.heap c).Same (heap' c))
    (himplies : ∀ c, ∀ l ∈ p.trail, ∀ rest, (p.heap c).Implies l rest → (heap' c).Implies l rest)
    (hwatch : WatchInv { p with
      heap := heap', undo := undo', watchQueue := watchQueue', setToFalse := b } extra')
    (hundo : UndoInv { p with
      heap := heap', undo := undo', watchQueue := watchQueue', setToFalse := b } D')
    (hconcl : ∀ c < p.nextClause, p.Concluded k' (D' c) (heap' c)) :
    Inv Φ { p with heap := heap', undo := undo', watchQueue := watchQueue', setToFalse := b }
      D' extra' k' where
  trail := { h.trail with }
  reasons := ⟨h.reasons.facts, fun l rest hsuffix => (h.reasons.justified l rest hsuffix).congr
    (fun _ _ => rfl) rfl fun c hc himp => ⟨hc, himplies c l (hsuffix.mem mem_cons_self) rest himp⟩⟩
  clauses := ⟨fun c hc α hα => ((hsame c).holds α).mpr (h.clauses.entailed c hc α hα),
    fun c hc => (hsame c).distinct (h.clauses.distinct c hc),
    fun c hc l hl => h.clauses.bound c hc l ((hsame c).lits l hl)⟩
  watch := hwatch
  undo := hundo
  concluded := hconcl
  complete hconflict α hfacts hclauses := h.complete hconflict α hfacts fun c hc =>
    ((hsame c).holds α).mp (hclauses c hc)

theorem litValue_neg (p : Problem) (l : Lit) : p.litValue l.neg = (p.litValue l).invert := by
  obtain ⟨s, v⟩ := l
  cases s with
  | pos => rfl
  | neg =>
    show p.value v = (p.value v).invert.invert
    cases p.value v <;> rfl

namespace TrailInv
variable (h : TrailInv p)
include h

variable {l : Lit}

theorem litValue_false : p.litValue l = .false ↔ l.neg ∈ p.trail := by
  rw [← h.value, litValue_neg]
  cases p.litValue l <;> simp [VarValue.invert]

theorem litValue_undecided : p.litValue l = .undecided ↔ l ∉ p.trail ∧ l.neg ∉ p.trail := by
  rw [← h.value, ← h.litValue_false]
  cases p.litValue l <;> simp

theorem value_undecided {v : Nat} : p.value v = .undecided ↔ ∀ l ∈ p.trail, l.var ≠ v := by
  have hlit : p.value v = p.litValue ⟨.pos, v⟩ := rfl
  rw [hlit, h.litValue_undecided]
  constructor
  · rintro ⟨hpos, hneg⟩ ⟨s, w⟩ hl rfl
    cases s
    · exact hpos hl
    · exact hneg hl
  · intro hall
    exact ⟨fun hl => hall _ hl rfl, fun hl => hall _ hl rfl⟩

theorem neg_not_mem (hl : l ∈ p.trail) : l.neg ∉ p.trail := by
  intro hneg
  rw [← h.litValue_false] at hneg
  rw [← h.value, hneg] at hl
  cases hl

theorem eq_of_var {l' : Lit} (hl : l ∈ p.trail) (hl' : l' ∈ p.trail) (hvar : l.var = l'.var) :
    l = l' := by
  rcases Lit.eq_or_eq_neg hvar with heq | heq
  · exact heq
  · rw [heq] at hl
    exact absurd hl (h.neg_not_mem hl')

theorem trail_nodup : p.trail.Nodup := h.nodup.of_map

end TrailInv

variable {level : Nat → Int} {trail : List Lit} {lims : List Nat} {l : Lit}

theorem Levels.bounds : ∀ {trail : List Lit} {lims : List Nat},
    Levels level trail lims → ∀ l ∈ trail, 0 ≤ level l.var ∧ level l.var ≤ lims.length
  | _, [], h, l, hl => by
    rw [h l hl]
    simp
  | _, lim :: lims, ⟨seg, rest, htrail, hlen, hseg, hrest⟩, l, hl => by
    subst htrail
    rw [List.length_cons]
    rcases List.mem_append.mp hl with hl | hl
    · rw [hseg l hl]
      omega
    · have := hrest.bounds l hl
      omega

theorem Levels.congr {level' : Nat → Int} : ∀ {trail : List Lit} {lims : List Nat},
    Levels level trail lims → (∀ l ∈ trail, level' l.var = level l.var) → Levels level' trail lims
  | _, [], h, heq => fun l hl => by rw [heq l hl, h l hl]
  | _, lim :: lims, ⟨seg, rest, htrail, hlen, hseg, hrest⟩, heq => by
    subst htrail
    refine ⟨seg, rest, rfl, hlen, ?_, hrest.congr fun l hl => heq l (List.mem_append_right _ hl)⟩
    intro l hl
    rw [heq l (List.mem_append_left _ hl), hseg l hl]

theorem Levels.cons (h : Levels level trail lims) (hl : level l.var = lims.length) :
    Levels level (l :: trail) lims := by
  cases lims with
  | nil => exact forall_mem_cons.mpr ⟨hl, h⟩
  | cons lim lims =>
    obtain ⟨seg, rest, rfl, hlen, hseg, hrest⟩ := h
    refine ⟨l :: seg, rest, rfl, hlen, forall_mem_cons.mpr ⟨?_, hseg⟩, hrest⟩
    rw [hl, length_cons]
    rfl

/-- An assignment of the current level is the most recent one. -/
theorem Levels.tail (h : Levels level (l :: trail) lims) (hl : level l.var = lims.length) :
    Levels level trail lims := by
  cases lims with
  | nil => exact fun q hq => h q (mem_cons_of_mem _ hq)
  | cons lim lims =>
    obtain ⟨seg, rest, htrail, hlen, hseg, hrest⟩ := h
    cases seg with
    | nil =>
      rw [nil_append] at htrail
      subst htrail
      have := (hrest.bounds l (mem_cons_self)).2
      rw [hl, length_cons] at this
      omega
    | cons q seg =>
      cases htrail
      exact ⟨seg, rest, rfl, hlen, fun q hq => hseg q (mem_cons_of_mem _ hq), hrest⟩

/-- When the current level has an assignment, the most recent one is of that level. -/
theorem Levels.head {x : Lit} (h : Levels level (x :: trail) lims) (hmem : l ∈ x :: trail)
    (hl : level l.var = lims.length) : level x.var = lims.length := by
  cases lims with
  | nil => exact h x mem_cons_self
  | cons lim lims =>
    obtain ⟨seg, rest, htrail, hlen, hseg, hrest⟩ := h
    cases seg with
    | nil =>
      rw [nil_append] at htrail
      rw [htrail] at hmem
      have := (hrest.bounds l hmem).2
      rw [hl, length_cons] at this
      omega
    | cons q seg =>
      cases htrail
      exact hseg x mem_cons_self

theorem TrailInv.level_nonneg (h : TrailInv p) (hl : l ∈ p.trail) : 0 ≤ p.level l.var :=
  (h.levels.bounds l hl).1

theorem TrailInv.level_le (h : TrailInv p) (hl : l ∈ p.trail) : p.level l.var ≤ p.trailLimLen := by
  rw [h.limLen]
  exact (h.levels.bounds l hl).2

end

end Problem

end Dune.Sat
