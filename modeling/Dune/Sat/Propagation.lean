import Dune.Sat.Assign

/-!
# Propagation

Notifying one clause, all watchers of a literal, and the whole queue. In the middle of the loop over
the watchers of `lit`, the clauses that still wait have been told of `done` and the others of
`lit :: done` (`Notifying`). A conflict leaves the conclusions of the lower levels and a set of true
literals that cannot all be true (`Conflicting`).
-/

open List

namespace Dune.Sat

namespace Problem

section
variable {Φ : List Constraint} {p q : Problem} {D : ClauseId → List Lit}
  {extra : Lit → List ClauseId} {k k' : Int} {lit : Lit} {c : ClauseId} {cs : List ClauseId}

/-- What propagation leaves alone. -/
structure Frame (p q : Problem) : Prop where
  numVars : q.numVars = p.numVars
  vars : q.vars = p.vars
  nextClause : q.nextClause = p.nextClause
  trailLim : q.trailLim = p.trailLim
  trailLimLen : q.trailLimLen = p.trailLimLen
  toplevelConflict : q.toplevelConflict = p.toplevelConflict

theorem Frame.refl (p : Problem) : Frame p p := ⟨rfl, rfl, rfl, rfl, rfl, rfl⟩

theorem Frame.trans {r : Problem} (h : Frame p q) (h' : Frame q r) : Frame p r where
  numVars := h'.numVars.trans h.numVars
  vars := h'.vars.trans h.vars
  nextClause := h'.nextClause.trans h.nextClause
  trailLim := h'.trailLim.trans h.trailLim
  trailLimLen := h'.trailLimLen.trans h.trailLimLen
  toplevelConflict := h'.toplevelConflict.trans h.toplevelConflict

/-- The literals of `new` have become true at the current level. -/
structure Extends (p q : Problem) (new : List Lit) : Prop extends Frame p q where
  trail : q.trail = new.reverse ++ p.trail
  propQ : q.propQ = p.propQ ++ new
  newLevel : ∀ l ∈ new, q.level l.var = q.trailLimLen
  level : ∀ l ∈ p.trail, q.level l.var = p.level l.var

variable {new : List Lit} {l b : Lit}

theorem Extends.trans {r : Problem} {new' : List Lit} (h : Extends p q new)
    (h' : Extends q r new') : Extends p r (new ++ new') where
  toFrame := h.toFrame.trans h'.toFrame
  trail := by rw [h'.trail, h.trail, reverse_append, append_assoc]
  propQ := by rw [h'.propQ, h.propQ, append_assoc]
  newLevel := by
    intro l hl
    rcases mem_append.mp hl with hl | hl
    · rw [h'.level l (h.trail ▸ mem_append_left _ (mem_reverse.mpr hl)), h.newLevel l hl,
        h'.trailLimLen]
    · exact h'.newLevel l hl
  level := by
    intro l hl
    rw [h'.level l (h.trail ▸ mem_append_right _ hl), h.level l hl]

theorem Extends.assign (reason : Reason) (h : TrailInv p) (hlit : p.litValue lit = .undecided) :
    Extends p (p.assign lit reason) [lit] where
  toFrame := ⟨rfl, rfl, rfl, rfl, rfl, rfl⟩
  trail := rfl
  propQ := rfl
  newLevel := by
    intro l hl
    rw [mem_singleton.mp hl]
    exact level_assign_self
  level := fun l hl => level_assign_of_ne (h.not_mem_of_undecided hlit l hl)

theorem Extends.of_same (htrail : q.trail = p.trail) (hpropQ : q.propQ = p.propQ)
    (hlevel : q.level = p.level) (hframe : Frame p q) : Extends p q [] where
  toFrame := hframe
  trail := htrail
  propQ := hpropQ.trans (append_nil _).symm
  newLevel := nofun
  level := fun _ _ => by rw [hlevel]

theorem Extends.mem (h : Extends p q new) (hl : l ∈ p.trail) : l ∈ q.trail :=
  h.trail ▸ mem_append_right _ hl

theorem Extends.length_le (h : Extends p q new) : p.trail.length ≤ q.trail.length := by
  rw [h.trail, length_append]
  omega

/-- The watchers that wait for a notification of `lit`. -/
def waiting (lit : Lit) (cs : List ClauseId) : Lit → List ClauseId := update (fun _ => []) lit cs

/-! ## Watch queues -/

theorem WatchInv.congr (h : WatchInv p extra) {heap' : ClauseId → Clause}
    (hheap : ∀ c l, (heap' c).Watches l ↔ (p.heap c).Watches l) :
    WatchInv { p with heap := heap' } extra :=
  ⟨fun l c => (h.mem l c).trans (and_congr_right fun _ => (hheap c l).symm), h.nodup⟩

variable {propQ rest rest' d : List Lit} {watchQueue' extra' : Lit → List ClauseId}

/-- Watchers move between the queues and those that wait. -/
theorem WatchInv.of_perm (h : WatchInv p extra)
    (hperm : ∀ l, (watchQueue' l ++ extra' l).Perm (p.watchQueue l ++ extra l)) :
    WatchInv { p with propQ := propQ, watchQueue := watchQueue' } extra' :=
  ⟨fun l c => (hperm l).mem_iff.trans (h.mem l c), fun l => (hperm l).nodup_iff.mpr (h.nodup l)⟩

attribute [local simp] waiting

theorem WatchInv.requeue (h : WatchInv p (waiting lit (c :: cs))) :
    WatchInv (p.watchLit lit c) (waiting lit cs) := by
  refine h.of_perm fun l => .of_eq ?_
  by_cases hl : l = lit <;> simp [update, hl]

/-- The waiting watchers go back to the queue after a conflict. -/
theorem WatchInv.requeueAll (h : WatchInv p (waiting lit cs)) :
    WatchInv { p with watchQueue := update p.watchQueue lit (p.watchQueue lit ++ cs) } fun _ =>
      [] := by
  refine h.of_perm fun l => .of_eq ?_
  by_cases hl : l = lit <;> simp [update, hl]

theorem WatchInv.dequeue (h : WatchInv p fun _ => []) :
    WatchInv { p with propQ := propQ, watchQueue := update p.watchQueue lit [] }
      (waiting lit (p.watchQueue lit)) := by
  refine h.of_perm fun l => .of_eq ?_
  by_cases hl : l = lit <;> simp [update, hl]

/-- A union that watches `x` instead of the literal that became false. -/
theorem WatchInv.move {a x : Lit} (h : WatchInv p (waiting b.neg (c :: cs))) (hc : c < p.nextClause)
    (hcl : p.heap c = .union a b rest) (hab : a ≠ b) (hxa : x ≠ a) (hxb : x ≠ b) :
    WatchInv ({ p with heap := update p.heap c (.union a x rest') }.watchLit x.neg c)
      (waiting b.neg cs) := by
  have hlit : waiting b.neg (c :: cs) b.neg = c :: cs := update_same _ _ _
  have hbnodup := h.nodup b.neg
  rw [hlit, perm_middle.nodup_iff, nodup_cons] at hbnodup
  obtain ⟨hcnot, hbnodup⟩ := hbnodup
  have hne : x.neg ≠ b.neg := fun heq => hxb (Lit.neg_injective heq)
  have hxnot : c ∉ p.watchQueue x.neg := by
    intro hmem
    have hw := ((h.mem x.neg c).mp (mem_append_left _ hmem)).2
    rw [hcl] at hw
    rcases hw with hw | hw
    · exact hxa (Lit.neg_injective hw)
    · exact hxb (Lit.neg_injective hw)
  -- the watchers of each literal, by cases on the two literals that change
  have hq : ∀ l,
      ({ p with heap := update p.heap c (.union a x rest') }.watchLit x.neg c).watchQueue l =
      if l = x.neg then p.watchQueue x.neg ++ [c] else p.watchQueue l := by
    intro l
    simp only [watchLit, update]
  constructor
  case mem =>
    intro l d
    rw [hq l]
    show _ ↔ d < p.nextClause ∧ (update p.heap c (.union a x rest') d).Watches l
    by_cases hd : d = c
    · subst hd
      rw [update_same]
      simp only [Clause.Watches, hc, true_and]
      split_ifs with hlx
      · subst hlx
        simp [update_of_ne _ _ hne]
      · by_cases hlb : l = b.neg
        · subst hlb
          have hane : b.neg ≠ a.neg := fun heq => hab (Lit.neg_injective heq).symm
          simp [hcnot, hane, hlx]
        · have hold := h.mem l d
          rw [hcl] at hold
          simp only [waiting, update_of_ne _ _ hlb, hc, true_and, Clause.Watches, hlb,
            or_false] at hold ⊢
          rw [hold]
          simp [hlx]
    · rw [update_of_ne _ _ hd, ← h.mem l d]
      split_ifs with hlx
      · subst hlx
        simp [update_of_ne _ _ hne, hd]
      · by_cases hlb : l = b.neg
        · subst hlb
          simp [hd]
        · simp [update_of_ne _ _ hlb]
  case nodup =>
    intro l
    rw [hq l]
    split_ifs with hlx
    · subst hlx
      have hold := h.nodup x.neg
      simp only [waiting, update_of_ne _ _ hne, append_nil] at hold ⊢
      exact nodup_append.mpr ⟨hold, nodup_singleton _, by
        intro d hd e he heq
        rw [mem_singleton.mp he] at heq
        exact hxnot (heq ▸ hd)⟩
    · by_cases hlb : l = b.neg
      · subst hlb
        simpa only [waiting, update_same] using hbnodup
      · have hold := h.nodup l
        simp only [waiting, update_of_ne _ _ hlb] at hold ⊢
        exact hold

theorem Concluded.anti {cl : Clause} (h : p.Concluded k d cl) (hk : k' ≤ k) :
    p.Concluded k' d cl := by
  cases cl with
  | union a b rest =>
    exact ⟨fun ha hlt => h.1 ha (by omega), fun hb hlt => h.2 hb (by omega)⟩
  | atMost nb cur lits => exact fun x s hsuffix hlt => h x s hsuffix (by omega)

theorem Inv.setUnion {a a' b' : Lit} (h : Inv Φ p D extra k) (hcl : p.heap c = .union a b rest)
    (hperm : (a' :: b' :: rest').Perm (a :: b :: rest)) (hfirst : a ∈ p.trail → a' = a)
    (hwatch : WatchInv { p with
      heap := update p.heap c (.union a' b' rest'), watchQueue := watchQueue' } extra')
    (hd : d <:+ p.trail) (hk : k' ≤ k) (hconcl : p.Concluded k' d (.union a' b' rest')) :
    Inv Φ { p with heap := update p.heap c (.union a' b' rest'), watchQueue := watchQueue' }
      (update D c d) extra' k' := by
  refine h.setClauses (fun e => ?_) (fun e l hl more himplies => ?_) hwatch ?_ fun e he => ?_
  · unfold update
    split_ifs with hec
    · rw [hec, hcl]
      exact Clause.same_union hperm
    · exact .refl _
  · unfold update
    split_ifs with hec
    · rw [hec, hcl] at himplies
      obtain ⟨rfl, himplies⟩ := himplies
      have ha := hfirst hl
      subst ha
      exact ⟨rfl, fun x hx => himplies x ((perm_cons _).mp hperm |>.mem_iff.mp hx)⟩
    · exact himplies
  · refine ⟨fun e he => ?_, fun e he nb cur lits => ?_, fun v e => ?_, h.undo.nodup⟩
    · unfold update
      split_ifs
      · exact hd
      · exact h.undo.suffix e he
    · unfold update
      dsimp only
      split_ifs
      · nofun
      · exact h.undo.current e he nb cur lits
    · refine (h.undo.undo v e).trans (and_congr_right fun _ => ?_)
      unfold update
      dsimp only
      split_ifs with hec
      · rw [hec, hcl]
        simp [Clause.IsGroupOf]
      · exact Iff.rfl
  · unfold update
    split_ifs
    · exact hconcl
    · exact (h.concluded e he).anti hk

/-! ## Notifying one union -/

/-- The state in the loop over the watchers of `lit`. -/
structure Notifying (Φ : List Constraint) (p : Problem) (D : ClauseId → List Lit) (lit : Lit)
    (done : List Lit) (cs : List ClauseId) : Prop where
  inv : Inv Φ p D (waiting lit cs) (p.trailLimLen + 1)
  trail : p.trail = p.propQ.reverse ++ lit :: done
  level : p.level lit.var = p.trailLimLen
  lower : ∀ l ∈ p.trail, p.level l.var < p.trailLimLen → l ∈ done
  waiting : ∀ c ∈ cs, D c = done
  notified : ∀ c < p.nextClause, c ∉ cs → D c = lit :: done

/-- A conflict: true literals that cannot all be true, one of them of the current level. -/
def Cause (Φ : List Constraint) (p : Problem) (c : ClauseId) : Prop :=
  ∃ rs, p.calcReason c = .ok rs ∧ (∀ l ∈ rs, l ∈ p.trail) ∧
    (∀ α, Models Φ α → ∃ l ∈ rs, l.eval α = false) ∧ ∃ l ∈ rs, p.level l.var = p.trailLimLen

/-- The state after a clause reported a conflict. -/
structure Conflicting (Φ : List Constraint) (p : Problem) (D : ClauseId → List Lit)
    (extra : Lit → List ClauseId) (c : ClauseId) : Prop where
  inv : Inv Φ p D extra p.trailLimLen
  lower : ∀ e < p.nextClause, ∀ l ∈ p.trail, p.level l.var < p.trailLimLen → l ∈ D e
  clause : c < p.nextClause
  cause : Cause Φ p c

/-- What a notification of clause `c` gives. -/
def Told (Φ : List Constraint) (p : Problem) (D : ClauseId → List Lit) (lit : Lit) (done : List Lit)
    (c : ClauseId) (cs : List ClauseId) (result : Except Fault (Bool × Problem)) : Prop :=
  ∃ ok q, result = .ok (ok, q) ∧ Frame p q ∧ p.trail.length ≤ q.trail.length ∧
    if ok then Notifying Φ q (update D c (lit :: done)) lit done cs
    else Conflicting Φ q (update D c (lit :: done)) (Problem.waiting lit cs) c

theorem findNotFalse_none : ∀ {rest : List Lit}, p.findNotFalse b rest = none →
    ∀ x ∈ rest, p.litValue x = .false
  | [], _, x, hx => by cases hx
  | y :: rest, h, x, hx => by
    rw [findNotFalse] at h
    split at h
    · next hy =>
      rw [Option.map_eq_none_iff] at h
      rcases List.mem_cons.mp hx with rfl | hx
      · exact hy
      · exact findNotFalse_none h x hx
    · cases h

theorem findNotFalse_some {x : Lit} : ∀ {rest rest' : List Lit},
    p.findNotFalse b rest = some (x, rest') →
    p.litValue x ≠ .false ∧ (x :: rest').Perm (b :: rest)
  | [], _, h => by cases h
  | y :: rest, rest', h => by
    rw [findNotFalse] at h
    split at h
    · obtain ⟨⟨z, zs⟩, hz, heq⟩ := Option.map_eq_some_iff.mp h
      cases heq
      obtain ⟨hx, hperm⟩ := findNotFalse_some hz
      refine ⟨hx, (List.Perm.swap _ _ _).trans ?_⟩
      exact (hperm.cons y).trans (List.Perm.swap _ _ _)
    · next hy =>
      cases h
      exact ⟨hy, List.Perm.swap _ _ _⟩

namespace Notifying
variable {done : List Lit} {a b : Lit} {rest : List Lit}

section

variable (h : Notifying Φ p D lit done cs)
include h

theorem lit_mem : lit ∈ p.trail := by
  rw [h.trail]
  exact mem_append_right _ mem_cons_self

theorem done_suffix : (lit :: done) <:+ p.trail :=
  ⟨p.propQ.reverse, h.trail.symm⟩

theorem lit_not_mem_done : lit ∉ done := by
  have hnodup := h.inv.trail.trail_nodup
  rw [h.trail] at hnodup
  exact (nodup_cons.mp (nodup_append.mp hnodup).2.1).1

end

variable {new : List Lit}

/-- The literals of lower levels have been processed. -/
theorem lower_done (h : Notifying Φ p D lit done cs) (hq : Extends p q new)
    (hl : l ∈ q.trail) (hlt : q.level l.var < q.trailLimLen) : l ∈ done := by
  rw [hq.trail] at hl
  rcases mem_append.mp hl with hl | hl
  · rw [hq.newLevel l (mem_reverse.mp hl)] at hlt
    omega
  · rw [hq.level l hl, hq.trailLimLen] at hlt
    exact h.lower l hl hlt

variable (h : Notifying Φ p D lit done (c :: cs))
include h

theorem clause_watches : c < p.nextClause ∧ (p.heap c).Watches lit := by
  refine (h.inv.watch.mem lit c).mp ?_
  simp [Problem.waiting]

theorem clause_lt : c < p.nextClause := h.clause_watches.1

theorem not_mem_tail : c ∉ cs := by
  have hnodup := h.inv.watch.nodup lit
  rw [Problem.waiting, update_same] at hnodup
  exact (nodup_cons.mp (nodup_append.mp hnodup).2.1).1

/-- The other fields of `Notifying`, once the invariant holds after clause `c` was notified. -/
theorem next (hq : Extends p q new)
    (hinv : Inv Φ q (update D c (lit :: done)) (Problem.waiting lit cs) (q.trailLimLen + 1)) :
    Notifying Φ q (update D c (lit :: done)) lit done cs where
  inv := hinv
  trail := by rw [hq.trail, hq.propQ, h.trail, reverse_append, append_assoc]
  level := by rw [hq.level lit h.lit_mem, h.level, hq.trailLimLen]
  lower := fun _ hl hlt => h.lower_done hq hl hlt
  waiting := by
    intro e he
    have hne : e ≠ c := fun heq => h.not_mem_tail (heq ▸ he)
    rw [update_of_ne _ _ hne]
    exact h.waiting e (mem_cons_of_mem _ he)
  notified := by
    intro e he hnot
    by_cases hec : e = c
    · subst hec
      exact update_same _ _ _
    · rw [update_of_ne _ _ hec]
      exact h.notified e (hq.nextClause ▸ he) fun hmem =>
        (mem_cons.mp hmem).elim hec hnot

/-- Below the current level, every clause has been told of everything. -/
theorem lower_mem (hq : Extends p q new) :
    ∀ e < q.nextClause, ∀ l ∈ q.trail, q.level l.var < q.trailLimLen →
      l ∈ update D c (lit :: done) e := by
  intro e he l hl hlt
  have hdone := h.lower_done hq hl hlt
  unfold update
  split_ifs with hec
  · exact mem_cons_of_mem _ hdone
  · by_cases hmem : e ∈ cs
    · rw [h.waiting e (mem_cons_of_mem _ hmem)]
      exact hdone
    · rw [h.notified e (hq.nextClause ▸ he) fun hin => (mem_cons.mp hin).elim hec hmem]
      exact mem_cons_of_mem _ hdone

theorem swapped (hcl : p.heap c = .union lit.neg b rest) :
    Notifying Φ { p with heap := update p.heap c (.union b lit.neg rest) } D lit done
      (c :: cs) := by
  have hc := h.clause_lt
  have hconcl := h.inv.concluded c hc
  rw [hcl] at hconcl
  have hwatch : WatchInv { p with heap := update p.heap c (.union b lit.neg rest) }
      (Problem.waiting lit (c :: cs)) := by
    refine h.inv.watch.congr fun e l => ?_
    unfold update
    split_ifs with hec
    · rw [hec, hcl]
      exact or_comm
    · exact Iff.rfl
  have hinv := h.inv.setUnion hcl (List.Perm.swap _ _ _)
    (fun hmem => absurd hmem (h.inv.trail.neg_not_mem h.lit_mem)) hwatch (h.inv.undo.suffix c hc)
    (Int.le_refl _) ⟨hconcl.2, hconcl.1⟩
  rw [update_eq_self] at hinv
  exact { h with inv := hinv }

theorem union_implies (hcl : p.heap c = .union a lit.neg rest)
    (hfalse : ∀ x ∈ rest, p.litValue x = .false) : (p.heap c).Implies a p.trail := by
  rw [hcl]
  refine ⟨rfl, fun x hx => ?_⟩
  rcases mem_cons.mp hx with rfl | hx
  · rw [Lit.neg_neg]
    exact h.lit_mem
  · exact h.inv.trail.litValue_false.mp (hfalse x hx)

end Notifying

/-- A literal that a clause implies at the lowest level follows from the problem. -/
theorem Inv.forces_of_implies (h : Inv Φ p D extra k) (hc : c < p.nextClause)
    (himplies : (p.heap c).Implies l p.trail) (hl : l.neg ∉ p.trail) (hzero : p.trailLimLen = 0) :
    Forces Φ l := by
  intro α hα
  refine himplies.eval (h.clauses.entailed c hc α hα) h.trail.trail_nodup hl fun x hx => ?_
  refine h.reasons.facts x hx ?_ α hα
  have hle := h.trail.level_le hx
  have hnonneg := h.trail.level_nonneg hx
  rw [hzero] at hle
  omega

theorem Inv.assign_implied (h : Inv Φ p D extra k) (hc : c < p.nextClause)
    (hl : p.litValue l = .undecided) (hbound : l.var < p.numVars)
    (himplies : (p.heap c).Implies l p.trail) : Inv Φ (p.assign l (.clause c)) D extra k :=
  h.assign hl hbound (h.forces_of_implies hc himplies (h.trail.litValue_undecided.mp hl).2)
    (.inr (.inr ⟨c, hc, update_same _ _ _, himplies⟩))

namespace Notifying
variable {done : List Lit} {a b : Lit} {rest : List Lit} (h : Notifying Φ p D lit done (c :: cs))
  (hcl : p.heap c = .union a lit.neg rest)
include h hcl

theorem union_var_ne : a.var ≠ lit.var := by
  have hdistinct := h.inv.clauses.distinct c h.clause_lt
  rw [hcl] at hdistinct
  intro heq
  have hnot := (nodup_cons.mp hdistinct).1
  rw [map_cons, Lit.neg_var, heq] at hnot
  exact hnot mem_cons_self

/-- The clause would have set its second literal had it known that the first is false. -/
theorem union_not_told : a.neg ∉ lit :: done := by
  have ht := h.inv.trail
  have hconcl := h.inv.concluded c h.clause_lt
  rw [hcl, h.waiting c mem_cons_self] at hconcl
  intro hmem
  rcases mem_cons.mp hmem with heq | hmem
  · exact h.union_var_ne hcl (by rw [← heq, Lit.neg_var])
  · have hlevel := ht.level_le (h.done_suffix.mem (mem_cons_of_mem _ hmem))
    rw [Lit.neg_var] at hlevel
    exact ht.neg_not_mem h.lit_mem (hconcl.1 hmem (by omega)).1

theorem requeue (hk : k ≤ p.trailLimLen + 1)
    (hconcl : p.Concluded k (lit :: done) (.union a lit.neg rest)) :
    Inv Φ (p.watchLit lit c) (update D c (lit :: done)) (Problem.waiting lit cs) k := by
  have hsame : ({ p with
      heap := update p.heap c (.union a lit.neg rest)
      watchQueue := (p.watchLit lit c).watchQueue } : Problem) = p.watchLit lit c := by
    rw [← hcl, update_eq_self]
    rfl
  have hinv := h.inv.setUnion hcl (List.Perm.refl _) (fun _ => rfl)
    (hsame ▸ h.inv.watch.requeue) h.done_suffix hk hconcl
  rwa [hsame] at hinv

theorem union_satisfied (ha : a ∈ p.trail) :
    Told Φ p D lit done c cs (.ok (true, p.watchLit lit c)) := by
  have ht := h.inv.trail
  have hinv := h.requeue hcl (Int.le_refl _)
    ⟨fun hneg _ => absurd (h.done_suffix.mem hneg) (ht.neg_not_mem ha),
      fun _ _ => ⟨ha, by rw [Lit.neg_var, h.level]; exact ht.level_le ha⟩⟩
  have hq : Extends p (p.watchLit lit c) [] := .of_same rfl rfl rfl ⟨rfl, rfl, rfl, rfl, rfl, rfl⟩
  exact ⟨true, _, rfl, hq.toFrame, hq.length_le, h.next hq hinv⟩

/-- Another literal is not false, and is watched from now on. -/
theorem union_moved (ha : a ∉ p.trail) {x : Lit}
    (hfind : p.findNotFalse lit.neg rest = some (x, rest')) :
    Told Φ p D lit done c cs
      (.ok (true, { p with heap := update p.heap c (.union a x rest') }.watchLit x.neg c)) := by
  have hc := h.clause_lt
  have ht := h.inv.trail
  have hdistinct := h.inv.clauses.distinct c hc
  rw [hcl] at hdistinct
  have hlitFalse : p.litValue lit.neg = .false := by
    rw [ht.litValue_false, Lit.neg_neg]
    exact h.lit_mem
  obtain ⟨hx, hperm⟩ := findNotFalse_some hfind
  have hxrest : x ∈ rest := by
    rcases mem_cons.mp (hperm.mem_iff.mp mem_cons_self) with rfl | hmem
    · exact absurd hlitFalse hx
    · exact hmem
  have hxa : x ≠ a := by
    rintro rfl
    exact (nodup_cons.mp hdistinct).1 (mem_map_of_mem (mem_cons_of_mem _ hxrest))
  have hxlit : x ≠ lit.neg := by
    rintro rfl
    exact hx hlitFalse
  have halit : a ≠ lit.neg := by
    rintro rfl
    exact h.union_var_ne hcl (Lit.neg_var lit)
  have hmove : WatchInv ({ p with heap := update p.heap c (.union a x rest') }.watchLit x.neg c)
      (Problem.waiting lit cs) := by
    have hwatch := h.inv.watch
    rw [← Lit.neg_neg lit] at hwatch ⊢
    exact hwatch.move hc hcl halit hxa hxlit
  have hinv := h.inv.setUnion hcl (hperm.cons a) (fun hmem => absurd hmem ha) hmove
    h.done_suffix (Int.le_refl _) ⟨fun hneg _ => absurd hneg (h.union_not_told hcl),
      fun hneg _ => absurd (ht.litValue_false.mpr (h.done_suffix.mem hneg)) hx⟩
  have hq : Extends p ({ p with heap := update p.heap c (.union a x rest') }.watchLit x.neg c) [] :=
    .of_same rfl rfl rfl ⟨rfl, rfl, rfl, rfl, rfl, rfl⟩
  exact ⟨true, _, rfl, hq.toFrame, hq.length_le, h.next hq hinv⟩

theorem union_conflict (ha : p.litValue a = .false) (hfalse : ∀ x ∈ rest, p.litValue x = .false) :
    Told Φ p D lit done c cs (.ok (false, p.watchLit lit c)) := by
  have ht := h.inv.trail
  have hinv := h.requeue hcl (k := p.trailLimLen) (by omega)
    ⟨fun hneg _ => absurd hneg (h.union_not_told hcl),
      fun _ hlt => by rw [Lit.neg_var, h.level] at hlt; omega⟩
  have hq : Extends p (p.watchLit lit c) [] := .of_same rfl rfl rfl ⟨rfl, rfl, rfl, rfl, rfl, rfl⟩
  refine ⟨false, _, rfl, hq.toFrame, hq.length_le, hinv, h.lower_mem hq, h.clause_lt, ?_⟩
  refine ⟨(a :: lit.neg :: rest).map Lit.neg, ?_, ?_, ?_, lit, ?_, h.level⟩
  · have hheap : (p.watchLit lit c).heap c = .union a lit.neg rest := hcl
    rw [calcReason, hheap]
  · intro l hl
    obtain ⟨x, hx, rfl⟩ := mem_map.mp hl
    rcases mem_cons.mp hx with rfl | hx
    · exact ht.litValue_false.mp ha
    · have himplies := h.union_implies hcl hfalse
      rw [hcl] at himplies
      exact himplies.2 x hx
  · intro α hα
    have hentailed := h.inv.clauses.entailed c h.clause_lt α hα
    rw [hcl] at hentailed
    obtain ⟨x, hx, htrue⟩ := hentailed
    refine ⟨x.neg, mem_map_of_mem hx, ?_⟩
    rw [Lit.eval_neg, htrue]
    rfl
  · exact mem_map.mpr ⟨lit.neg, by simp, Lit.neg_neg lit⟩

theorem union_unit (ha : p.litValue a = .undecided) (hfalse : ∀ x ∈ rest, p.litValue x = .false) :
    Told Φ p D lit done c cs (.ok (true, (p.watchLit lit c).assign a (.clause c))) := by
  have hc := h.clause_lt
  have hbound : a.var < p.numVars := by
    have hb := h.inv.clauses.bound c hc
    rw [hcl] at hb
    exact hb a mem_cons_self
  have hassigned := h.inv.assign_implied hc ha hbound (h.union_implies hcl hfalse)
  have hassign := Extends.assign (.clause c) h.inv.trail ha
  have hsame : ({ p.assign a (.clause c) with
      heap := update p.heap c (.union a lit.neg rest)
      watchQueue := (p.watchLit lit c).watchQueue } : Problem) =
      (p.watchLit lit c).assign a (.clause c) := by
    rw [← hcl, update_eq_self]
    rfl
  have hwatch : WatchInv ((p.watchLit lit c).assign a (.clause c)) (Problem.waiting lit cs) :=
    { h.inv.watch.requeue with }
  have hinv := hassigned.setUnion hcl (List.Perm.refl _) (fun _ => rfl) (hsame ▸ hwatch)
    (h.done_suffix.trans (suffix_cons _ _)) (Int.le_refl _)
    ⟨fun hneg _ => absurd hneg (h.union_not_told hcl), fun _ _ => ⟨mem_cons_self, by
      simp [level_assign_self, Lit.neg_var, hassign.level lit h.lit_mem, h.level]⟩⟩
  have hq : Extends p ((p.watchLit lit c).assign a (.clause c)) [a] :=
    ⟨⟨rfl, rfl, rfl, rfl, rfl, rfl⟩, rfl, rfl, hassign.newLevel, hassign.level⟩
  exact ⟨true, _, rfl, hq.toFrame, hq.length_le, h.next hq (hsame ▸ hinv)⟩

theorem propagateUnion : Told Φ p D lit done c cs (p.propagateUnion c lit a lit.neg rest) := by
  have ht := h.inv.trail
  have hlitFalse : p.litValue lit.neg = .false := by
    rw [ht.litValue_false, Lit.neg_neg]
    exact h.lit_mem
  rw [Problem.propagateUnion]
  split
  · next htrue => exact h.union_satisfied hcl ((ht.value a).mp htrue)
  · next hatrue =>
    have ha : a ∉ p.trail := fun hmem => hatrue ((ht.value a).mpr hmem)
    simp only [hlitFalse, check, decide_true, if_true]
    cases hfind : p.findNotFalse lit.neg rest with
    | some found => exact h.union_moved hcl ha hfind
    | none =>
      have hfalse := findNotFalse_none hfind
      have hvalue : (p.watchLit lit c).litValue a = p.litValue a := rfl
      cases ha : p.litValue a with
      | true => exact absurd ha hatrue
      | false =>
        show Told Φ p D lit done c cs (.ok ((p.watchLit lit c).enqueue a (.clause c)))
        rw [enqueue, hvalue, ha]
        exact h.union_conflict hcl ha hfalse
      | undecided =>
        show Told Φ p D lit done c cs (.ok ((p.watchLit lit c).enqueue a (.clause c)))
        rw [enqueue_undecided (hvalue.trans ha)]
        exact h.union_unit hcl ha hfalse

end Notifying

end

end Problem

end Dune.Sat
