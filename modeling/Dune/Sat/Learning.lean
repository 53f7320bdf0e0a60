import Dune.Sat.Backtrack

/-!
# Adding clauses

New clauses keep the invariant, whether they come from the problem or from a conflict. A learnt
clause watches the literal that it sets and, among the others, one of the highest level: when that
one is undone, so is the one that was set.
-/

open List

namespace Dune.Sat

namespace Problem

section
variable {Φ : List Constraint} {p q : Problem} {D : ClauseId → List Lit}
  {extra : Lit → List ClauseId} {k : Int} {lit : Lit} {c : ClauseId}

/-! ## New clauses -/

/-- The queues once a new clause is in those of the literals that it watches. -/
def Queues (p : Problem) (cl : Clause) (watchQueue' : Lit → List ClauseId) : Prop :=
  ∀ l, cl.Watches l ∧ watchQueue' l = p.watchQueue l ++ [p.nextClause] ∨
    ¬cl.Watches l ∧ watchQueue' l = p.watchQueue l

variable {watchQueue' : Lit → List ClauseId}

theorem WatchInv.add (h : WatchInv p extra) {cl : Clause} (hqueue : p.Queues cl watchQueue') :
    WatchInv { p with
      heap := update p.heap p.nextClause cl
      nextClause := p.nextClause + 1
      watchQueue := watchQueue' } extra := by
  have hfresh : ∀ l, p.nextClause ∉ p.watchQueue l ++ extra l := by
    intro l hmem
    exact Nat.lt_irrefl _ ((h.mem l _).mp hmem).1
  constructor
  case mem =>
    intro l d
    show d ∈ watchQueue' l ++ extra l ↔
      d < p.nextClause + 1 ∧ (update p.heap p.nextClause cl d).Watches l
    have hperm : ∀ xs ys : List ClauseId, d ∈ (xs ++ [p.nextClause]) ++ ys ↔
        d ∈ xs ++ ys ∨ d = p.nextClause := by
      intro xs ys
      simp only [mem_append, mem_singleton]
      tauto
    by_cases hd : d = p.nextClause
    · subst hd
      rw [update_same]
      rcases hqueue l with ⟨hw, heq⟩ | ⟨hw, heq⟩ <;> rw [heq]
      · rw [hperm]
        simp [hw]
      · simp [hw, hfresh l]
    · rw [update_of_ne _ _ hd]
      have hlt : d < p.nextClause + 1 ↔ d < p.nextClause :=
        ⟨fun hlt => Nat.lt_of_le_of_ne (Nat.le_of_lt_succ hlt) hd, Nat.lt_succ_of_lt⟩
      rw [hlt, ← h.mem l d]
      rcases hqueue l with ⟨hw, heq⟩ | ⟨hw, heq⟩ <;> rw [heq]
      rw [hperm]
      simp [hd]
  case nodup =>
    intro l
    show (watchQueue' l ++ extra l).Nodup
    rcases hqueue l with ⟨-, heq⟩ | ⟨-, heq⟩ <;> rw [heq]
    · rw [append_assoc]
      have hperm : (p.watchQueue l ++ ([p.nextClause] ++ extra l)).Perm
          (p.nextClause :: (p.watchQueue l ++ extra l)) := perm_middle
      exact hperm.nodup_iff.mpr (nodup_cons.mpr ⟨hfresh l, h.nodup l⟩)
    · exact h.nodup l

theorem Inv.addClause (h : Inv Φ p D extra k) (cl : Clause) (hentailed : Entails Φ cl.constraint)
    (hdistinct : cl.Distinct) (hbound : ∀ l ∈ cl.lits, l.var < p.numVars)
    (hcurrent : cl.current = []) (hqueue : p.Queues cl watchQueue') :
    Inv Φ { p with
      heap := update p.heap p.nextClause cl
      nextClause := p.nextClause + 1
      watchQueue := watchQueue' } (update D p.nextClause []) extra k := by
  have hold : ∀ {e}, e < p.nextClause → update p.heap p.nextClause cl e = p.heap e ∧
      update D p.nextClause [] e = D e := by
    intro e he
    have hne : e ≠ p.nextClause := Nat.ne_of_lt he
    exact ⟨update_of_ne _ _ hne, update_of_ne _ _ hne⟩
  -- what holds of the clauses so far and of the new one
  have hall (P : ClauseId → Clause → List Lit → Prop) (h : ∀ e < p.nextClause, P e (p.heap e) (D e))
      (hnew : P p.nextClause cl []) : ∀ e < p.nextClause + 1,
        P e (update p.heap p.nextClause cl e) (update D p.nextClause [] e) := by
    intro e he
    rcases Nat.lt_succ_iff_lt_or_eq.mp he with he | rfl
    · rw [(hold he).1, (hold he).2]
      exact h e he
    · rwa [update_same, update_same]
  constructor
  case trail => exact { h.trail with }
  case reasons =>
    refine ⟨h.reasons.facts, fun l more hsuffix => (h.reasons.justified l more hsuffix).congr
      (fun _ _ => rfl) rfl fun e he himp => ⟨Nat.lt_succ_of_lt he, ?_⟩⟩
    rwa [← (hold he).1] at himp
  case clauses =>
    exact ⟨hall (fun _ cl _ => Entails Φ cl.constraint) h.clauses.entailed hentailed,
      hall (fun _ cl _ => cl.Distinct) h.clauses.distinct hdistinct,
      hall (fun _ cl _ => ∀ l ∈ cl.lits, l.var < p.numVars) h.clauses.bound hbound⟩
  case watch => exact h.watch.add hqueue
  case undo =>
    refine ⟨hall (fun _ _ d => d <:+ p.trail) h.undo.suffix nil_suffix,
      hall (fun _ cl d => ∀ nb cur lits, cl = .atMost nb cur lits → cur = d.filter (· ∈ lits))
        h.undo.current ?_, fun v e => ?_, h.undo.nodup⟩
    · rintro nb cur lits rfl
      exact hcurrent
    · rw [h.undo.undo]
      show _ ↔ e < p.nextClause + 1 ∧ ∃ l ∈ update D p.nextClause [] e,
        l.var = v ∧ (update p.heap p.nextClause cl e).IsGroupOf l
      constructor
      · rintro ⟨he, hl⟩
        rw [(hold he).1, (hold he).2]
        exact ⟨Nat.lt_succ_of_lt he, hl⟩
      · rintro ⟨he, hl⟩
        rcases Nat.lt_succ_iff_lt_or_eq.mp he with he | rfl
        · rw [(hold he).1, (hold he).2] at hl
          exact ⟨he, hl⟩
        · rw [update_same] at hl
          obtain ⟨l, hl, -⟩ := hl
          cases hl
  case concluded =>
    refine hall (fun _ cl d => p.Concluded k d cl) h.concluded ?_
    cases cl with
    | union a b rest => exact ⟨nofun, nofun⟩
    | atMost nb cur lits =>
      cases hcurrent
      intro x s hsuffix
      cases eq_nil_of_suffix_nil hsuffix
  case complete =>
    intro hconflict α hfacts hclauses
    refine h.complete hconflict α hfacts fun e he => ?_
    have hholds : (update p.heap p.nextClause cl e).constraint.Holds α :=
      hclauses e (Nat.lt_succ_of_lt he)
    rwa [(hold he).1] at hholds

variable {a b l : Lit}

theorem addUnion_queue (hab : a ≠ b) (rest : List Lit) :
    p.Queues (.union a b rest) (p.addUnion a b rest).watchQueue := by
  intro l
  have hne : a.neg ≠ b.neg := fun heq => hab (Lit.neg_injective heq)
  simp only [addUnion, watchLit, Clause.Watches]
  by_cases ha : l = a.neg
  · subst ha
    left
    rw [update_of_ne _ _ hne, update_same]
    exact ⟨.inl rfl, rfl⟩
  · by_cases hb : l = b.neg
    · subst hb
      left
      rw [update_same, update_of_ne _ _ hne.symm]
      exact ⟨.inr rfl, rfl⟩
    · right
      rw [update_of_ne _ _ hb, update_of_ne _ _ ha]
      exact ⟨fun hor => hor.elim ha hb, rfl⟩

theorem Inv.addUnion {rest : List Lit} (h : Inv Φ p D extra k)
    (hentailed : Entails Φ (.atLeastOne (a :: b :: rest)))
    (hdistinct : ((a :: b :: rest).map Lit.var).Nodup)
    (hbound : ∀ l ∈ a :: b :: rest, l.var < p.numVars) :
    Inv Φ (p.addUnion a b rest) (update D p.nextClause []) extra k := by
  have hab : a ≠ b := by
    rintro rfl
    exact (nodup_cons.mp hdistinct).1 mem_cons_self
  exact h.addClause (.union a b rest) hentailed hdistinct hbound rfl (addUnion_queue hab rest)

/-- The index that was best so far, or that of a literal of a higher level than all others. -/
theorem bestIndex_spec (p : Problem) : ∀ (ls : List Lit) (i : Nat) (bestLevel : Int) (bestI : Nat),
    (p.bestIndex ls i bestLevel bestI = bestI ∧ ∀ l ∈ ls, p.level l.var ≤ bestLevel) ∨
      ∃ t b, p.bestIndex ls i bestLevel bestI = i + t ∧ ls[t]? = some b ∧
        bestLevel < p.level b.var ∧
        ∀ l ∈ ls, p.level l.var ≤ p.level b.var
  | [], _, _, _ => .inl ⟨rfl, nofun⟩
  | x :: ls, i, bestLevel, bestI => by
    rw [bestIndex]
    by_cases hx : bestLevel < p.level x.var
    · rw [if_pos hx]
      right
      rcases bestIndex_spec p ls (i + 1) (p.level x.var) i with
        ⟨hrun, hle⟩ | ⟨t, b, hrun, hb, hlt, hle⟩
      · exact ⟨0, x, hrun, rfl, hx, List.forall_mem_cons.mpr ⟨Int.le_refl _, hle⟩⟩
      · refine ⟨t + 1, b, by rw [hrun]; omega, hb, by omega, ?_⟩
        exact List.forall_mem_cons.mpr ⟨by omega, hle⟩
    · rw [if_neg hx]
      rcases bestIndex_spec p ls (i + 1) bestLevel bestI with
        ⟨hrun, hle⟩ | ⟨t, b, hrun, hb, hlt, hle⟩
      · exact .inl ⟨hrun, List.forall_mem_cons.mpr ⟨by omega, hle⟩⟩
      · refine .inr ⟨t + 1, b, by rw [hrun]; omega, hb, hlt, ?_⟩
        exact List.forall_mem_cons.mpr ⟨by omega, hle⟩

theorem set_perm {b : Lit} (y : Lit) : ∀ {zs : List Lit} {t : Nat}, zs[t]? = some b →
    (b :: zs.set t y).Perm (y :: zs)
  | [], _, h => by cases h
  | z :: zs, 0, h => by
    cases h
    exact List.Perm.swap _ _ _
  | z :: zs, t + 1, h => by
    have ih : (b :: zs.set t y).Perm (y :: zs) := set_perm y h
    exact (List.Perm.swap _ _ _).trans ((ih.cons z).trans (List.Perm.swap _ _ _))

theorem swap_best {x : Lit} {ys : List Lit} {t : Nat} (h : ys[t]? = some b) :
    ∃ rest, swap (x :: ys) 1 (1 + t) = x :: b :: rest ∧ (b :: rest).Perm ys := by
  cases ys with
  | nil => cases h
  | cons y zs =>
    rw [Nat.add_comm 1 t]
    have hswap : swap (x :: y :: zs) 1 (t + 1) = ((x :: y :: zs).set 1 b).set (t + 1) y := by
      simp [swap, h]
    cases t with
    | zero =>
      cases h
      exact ⟨zs, hswap, List.Perm.refl _⟩
    | succ t => exact ⟨zs.set t y, hswap, set_perm y h⟩

/-! ## Learning -/

/-- The first assignment after every clause has been told of everything. -/
theorem Ready.assign {reason : Reason} (hpropQ : p.propQ = [])
    (h : Inv Φ (p.assign l reason) (fun _ => p.trail) (fun _ => []) (p.trailLimLen + 1)) :
    Ready Φ (p.assign l reason) p.trail where
  inv := h
  trail := by
    show l :: p.trail = (p.propQ ++ [l]).reverse ++ p.trail
    rw [hpropQ]
    rfl
  lower := by
    intro x hx hlt
    rcases mem_cons.mp hx with rfl | hx
    · rw [level_assign_self] at hlt
      exact absurd hlt (Int.lt_irrefl _)
    · exact hx

theorem Ready.learn_unit {reason : Reason} (h : Ready Φ p p.trail) (hpropQ : p.propQ = [])
    (hl : p.litValue l = .undecided) (hbound : l.var < p.numVars) (hzero : p.trailLimLen = 0)
    (hentailed : Entails Φ (.atLeastOne [l])) : Ready Φ (p.assign l reason) p.trail := by
  have hforces : Forces Φ l := by
    intro α hα
    obtain ⟨x, hx, htrue⟩ := hentailed α hα
    rwa [mem_singleton.mp hx] at htrue
  refine .assign hpropQ (h.inv.assign hl hbound (fun _ => hforces) (.inl ?_))
  rw [level_assign_self, hzero]
  rfl

theorem Ready.learn_clause {rest : List Lit} (h : Ready Φ p p.trail) (hpropQ : p.propQ = [])
    (ha : p.litValue a = .undecided) (hentailed : Entails Φ (.atLeastOne (a :: b :: rest)))
    (hdistinct : ((a :: b :: rest).map Lit.var).Nodup)
    (hbound : ∀ l ∈ a :: b :: rest, l.var < p.numVars) (hfalse : ∀ x ∈ b :: rest, x.neg ∈ p.trail)
    (hb : p.level b.var = p.trailLimLen) :
    Ready Φ ((p.addUnion a b rest).assign a (.clause p.nextClause)) p.trail := by
  have hadded := h.inv.addUnion hentailed hdistinct hbound
  have hc : p.nextClause < (p.addUnion a b rest).nextClause := Nat.lt_succ_self _
  have hcl : (p.addUnion a b rest).heap p.nextClause = .union a b rest := update_same _ _ _
  have hassigned := hadded.assign_implied hc ha (hbound a mem_cons_self)
    (hcl.symm ▸ ⟨rfl, hfalse⟩)
  have hlevel : ((p.addUnion a b rest).assign a (.clause p.nextClause)).level b.var =
      p.level b.var := by
    refine level_assign_of_ne fun hvar => ?_
    exact (nodup_cons.mp hdistinct).1 (hvar ▸ mem_map_of_mem mem_cons_self)
  have hwatch := hassigned.watch
  have hsame : ({ (p.addUnion a b rest).assign a (.clause p.nextClause) with
      heap := update (p.addUnion a b rest).heap p.nextClause (.union a b rest)
      watchQueue := (p.addUnion a b rest).watchQueue } : Problem) =
      (p.addUnion a b rest).assign a (.clause p.nextClause) := by
    rw [← hcl, update_eq_self]
    rfl
  have htold := hassigned.setUnion hcl (List.Perm.refl _) (fun _ => rfl) (hsame ▸ hwatch)
    (suffix_cons a p.trail) (Int.le_refl _)
    ⟨fun hneg _ => absurd hneg (h.inv.trail.litValue_undecided.mp ha).2,
      fun _ _ => ⟨mem_cons_self, by rw [level_assign_self, hlevel, hb]; exact Int.le_refl _⟩⟩
  refine .assign hpropQ ((hsame ▸ htold).congr fun e _ => ?_)
  by_cases he : e = p.nextClause
  · rw [he, update_same]
    rfl
  · rw [update_of_ne _ _ he, update_of_ne _ _ he]
    rfl

/-- The state after a clause with the first literal `a` was learnt from a conflict of clause `c`. -/
def LearntTo (p : Problem) (a : Lit) (learnt : List Lit) (c : ClauseId) (q : Problem) : Prop :=
  learnt = [] ∧ q = p.assign a (.clause c) ∨
    ∃ b rest, learnt ≠ [] ∧ q = (p.addUnion a b rest).assign a (.clause p.nextClause)

/-- The learnt clause is added and its first literal is set. -/
theorem Ready.learn {learnt : List Lit} (h : Ready Φ p p.trail) (hpropQ : p.propQ = [])
    (ha : p.litValue a = .undecided) (hbound : a.var < p.numVars)
    (hentailed : Entails Φ (.atLeastOne (a :: learnt))) (hdistinct : (learnt.map Lit.var).Nodup)
    (hfalse : ∀ x ∈ learnt, x.neg ∈ p.trail)
    (hlevel : p.trailLimLen = 0 ∧ learnt = [] ∨ ∃ b ∈ learnt, p.level b.var = p.trailLimLen) :
    ∃ q, p.learn (a :: learnt) c = .ok q ∧ Ready Φ q p.trail ∧ q.trail = a :: p.trail ∧
      q.trailLimLen = p.trailLimLen ∧ q.trailLim = p.trailLim ∧ q.numVars = p.numVars ∧
        q.vars = p.vars ∧
      q.toplevelConflict = p.toplevelConflict ∧ p.LearntTo a learnt c q := by
  have ht := h.inv.trail
  cases learnt with
  | nil =>
    have hzero : p.trailLimLen = 0 := by
      rcases hlevel with ⟨hzero, -⟩ | ⟨b, hb, -⟩
      · exact hzero
      · cases hb
    refine ⟨p.assign a (.clause c), ?_, h.learn_unit hpropQ ha hbound hzero hentailed, rfl, rfl,
      rfl, rfl,
      rfl, rfl, .inl ⟨rfl, rfl⟩⟩
    simp only [Problem.learn, internalAtLeastOne, enqueue_undecided ha]
    rfl
  | cons x xs =>
    obtain ⟨b', hb', hb'level⟩ : ∃ b ∈ x :: xs, p.level b.var = p.trailLimLen := by
      rcases hlevel with ⟨-, hnil⟩ | hb
      · cases hnil
      · exact hb
    have hlevels : ∀ l ∈ x :: xs, 0 ≤ p.level l.var ∧ p.level l.var ≤ p.trailLimLen := by
      intro l hl
      have hmem := hfalse l hl
      have hnonneg := ht.level_nonneg hmem
      have hle := ht.level_le hmem
      rw [Lit.neg_var] at hnonneg hle
      exact ⟨hnonneg, hle⟩
    have halevel : p.level a.var = -1 := ht.undecided _ (value_undecided_of_lit ha)
    have hbest : p.bestIndex (a :: x :: xs) 0 (-1) 1 = p.bestIndex (x :: xs) 1 (-1) 1 := by
      rw [bestIndex, if_neg (by omega)]
    obtain ⟨t, b, hindex, hb, -, hmax⟩ := (bestIndex_spec p (x :: xs) 1 (-1) 1).resolve_left (by
      rintro ⟨-, hle⟩
      have := hle x mem_cons_self
      have := (hlevels x mem_cons_self).1
      omega)
    obtain ⟨rest, hswap, hperm⟩ := swap_best (x := a) hb
    have hbmem : b ∈ x :: xs := hperm.mem_iff.mp mem_cons_self
    have hblevel : p.level b.var = p.trailLimLen := by
      have hle := (hlevels b hbmem).2
      have hge := hmax b' hb'
      omega
    have hnot : a.var ∉ (x :: xs).map Lit.var := by
      intro hmem
      obtain ⟨l, hl, hvar⟩ := mem_map.mp hmem
      exact ht.not_mem_of_undecided ha l.neg (hfalse l hl) (by rw [Lit.neg_var, hvar])
    have hready := h.learn_clause (b := b) hpropQ ha
      (fun α hα => by
        obtain ⟨l, hl, htrue⟩ := hentailed α hα
        exact ⟨l, (hperm.cons a).mem_iff.mpr hl, htrue⟩)
      (((hperm.cons a).map Lit.var).nodup_iff.mpr (nodup_cons.mpr ⟨hnot, hdistinct⟩))
      (fun l hl => by
        rcases mem_cons.mp ((hperm.cons a).mem_iff.mp hl) with rfl | hl
        · exact hbound
        · have := ht.bound _ (hfalse l hl)
          rwa [Lit.neg_var] at this)
      (fun l hl => hfalse l (hperm.mem_iff.mp hl)) hblevel
    refine ⟨_, ?_, hready, rfl, rfl, rfl, rfl, rfl, rfl, .inr ⟨b, rest, cons_ne_nil _ _, rfl⟩⟩
    have hinternal : p.internalAtLeastOne (a :: x :: xs) true (.clause c) =
        .ok (.addedClause p.nextClause, p.addUnion a b rest) := by
      simp [internalAtLeastOne, hbest, hindex, hswap]
    have hundecided : (p.addUnion a b rest).litValue a = .undecided := ha
    simp only [Problem.learn, hinternal]
    show (check ((p.addUnion a b rest).enqueue a (.clause p.nextClause)).1 >>= fun _ =>
      pure ((p.addUnion a b rest).enqueue a (.clause p.nextClause)).2) = _
    rw [enqueue_undecided hundecided]
    rfl

end

end Problem

end Dune.Sat
