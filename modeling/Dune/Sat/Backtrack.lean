import Dune.Sat.Analysis

/-!
# Going back to a lower level

`cancel_until` undoes the assignments above a level. After it, every clause knows the whole trail
and has drawn its conclusions, so that the solver is ready to add the learnt clause and to set its
first literal.
-/

open List

namespace Dune.Sat

namespace Problem

section
variable {Φ : List Constraint} {p q : Problem} {D : ClauseId → List Lit}
  {extra : Lit → List ClauseId} {k : Int} {lit : Lit} {c : ClauseId}

theorem Inv.anti (h : Inv Φ p D extra k) {j : Int} (hj : j ≤ k) : Inv Φ p D extra j :=
  { h with concluded := fun c hc => (h.concluded c hc).anti hj }

theorem Inv.undoMany {rest : List Lit} : ∀ {seg : List Lit} {p : Problem} {D : ClauseId → List Lit},
    Inv Φ p D extra k → p.trail = seg ++ rest → (∀ l ∈ seg, p.level l.var = p.trailLimLen) →
    0 < p.trailLimLen → k ≤ p.trailLimLen →
      ∃ q D', Problem.undoMany seg.length p = .ok q ∧ Inv Φ q D' extra k ∧
      Undone p q rest ∧ ∀ e, ∀ l ∈ rest, l ∈ D e → l ∈ D' e
  | [], p, D, h, htrail, _, _, _ =>
    ⟨p, D, rfl, h, ⟨.refl p, htrail, fun _ _ => rfl, rfl, fun _ _ _ => Iff.rfl⟩, fun _ _ _ hl => hl⟩
  | x :: seg, p, D, h, htrail, hlevel, hpos, hk => by
    have hnodup : (x :: (seg ++ rest)).Nodup := by
      have := h.trail.trail_nodup
      rwa [htrail] at this
    obtain ⟨q, hrun, hinv, hq⟩ := h.undone htrail (hlevel x mem_cons_self) hpos hk
    obtain ⟨q', D', hrun', hinv', hq', hD'⟩ := Inv.undoMany hinv hq.trail (by
      intro l hl
      rw [hq.level l (mem_append_left _ hl), hq.trailLimLen]
      exact hlevel l (mem_cons_of_mem _ hl)) (hq.trailLimLen.symm ▸ hpos) (hq.trailLimLen.symm ▸ hk)
    refine ⟨q', D', ?_, hinv', hq.trans hq' fun l hl => mem_append_right _ hl, ?_⟩
    · rw [length_cons, Problem.undoMany, hrun]
      exact hrun'
    · intro e l hl hmem
      refine hD' e l hl (forget_mem ?_ hmem)
      rintro rfl
      exact (nodup_cons.mp hnodup).1 (mem_append_right _ hl)

/-- The levels above `t` are gone. -/
structure Cancelled (p q : Problem) (t : Nat) : Prop where
  numVars : q.numVars = p.numVars
  vars : q.vars = p.vars
  nextClause : q.nextClause = p.nextClause
  toplevelConflict : q.toplevelConflict = p.toplevelConflict
  propQ : q.propQ = p.propQ
  trailLimLen : q.trailLimLen = t
  suffix : q.trail <:+ p.trail
  level : ∀ l ∈ q.trail, q.level l.var = p.level l.var
  kept : ∀ l ∈ p.trail, p.level l.var ≤ t → l ∈ q.trail
  lims : p.trailLimLen = t ∧ q = p ∨ ∃ upper, p.trailLim = upper ++ q.trail.length :: q.trailLim

theorem Inv.cancel (h : Inv Φ p D extra k) {t : Nat} (hlevel : p.trailLimLen = t + 1)
    (hk : k ≤ t + 1) :
    ∃ q D', p.cancel = .ok q ∧ Inv Φ q D' extra k ∧ Cancelled p q t ∧
      ∀ e, ∀ l ∈ q.trail, l ∈ D e → l ∈ D' e := by
  have ht := h.trail
  have hlevels := ht.levels
  have hlen := ht.limLen
  rw [Problem.cancel]
  cases hlim : p.trailLim with
  | nil =>
    rw [hlim, length_nil] at hlen
    omega
  | cons lim lims =>
    rw [hlim, length_cons, hlevel] at hlen
    rw [hlim] at hlevels
    obtain ⟨seg, rest, htrail, hrest, hseg, hlower⟩ := hlevels
    have hlims : (lims.length : Int) + 1 = p.trailLimLen := by omega
    obtain ⟨q, D', hrun, hinv, hq, hD'⟩ := h.undoMany htrail (fun l hl => hlims ▸ hseg l hl)
      (by omega) (by omega)
    have hcount : p.trailLen - lim = seg.length := by
      rw [ht.len, htrail, length_append, ← hrest]
      omega
    refine ⟨{ q with trailLim := lims, trailLimLen := q.trailLimLen - 1 }, D', ?_, ?_, ?_, ?_⟩
    · show (Problem.undoMany (p.trailLen - lim) p >>= fun _ => _) = _
      rw [hcount, hrun]
      rfl
    · refine { hinv with
        trail := { hinv.trail with limLen := ?_, levels := ?_ }
        reasons := { hinv.reasons with }
        clauses := { hinv.clauses with }
        watch := { hinv.watch with }
        undo := { hinv.undo with } }
      · show q.trailLimLen - 1 = lims.length
        rw [hq.trailLimLen]
        omega
      · show Levels q.level q.trail lims
        rw [hq.trail]
        exact hlower.congr hq.level
    · refine ⟨hq.numVars, hq.vars, hq.nextClause, hq.toplevelConflict, hq.propQ, ?_, ?_, ?_, ?_, ?_⟩
      · show q.trailLimLen - 1 = t
        rw [hq.trailLimLen]
        omega
      · show q.trail <:+ p.trail
        rw [hq.trail, htrail]
        exact suffix_append _ _
      · intro l hl
        exact hq.level l (hq.trail ▸ hl)
      · intro l hl hle
        show l ∈ q.trail
        rw [hq.trail]
        rw [htrail] at hl
        rcases mem_append.mp hl with hl | hl
        · have := hseg l hl
          omega
        · exact hl
      · refine .inr ⟨[], ?_⟩
        show p.trailLim = q.trail.length :: lims
        rw [hq.trail, hrest, hlim]
    · intro e l hl hmem
      exact hD' e l (hq.trail ▸ hl) hmem

theorem Inv.cancelMany {t : Nat} : ∀ {m : Nat} {p : Problem} {D : ClauseId → List Lit},
    Inv Φ p D extra (t + 1) → p.trailLimLen = t + m →
    ∃ q D', Problem.cancelMany m p = .ok q ∧ Inv Φ q D' extra (t + 1) ∧ Cancelled p q t ∧
      ∀ e, ∀ l ∈ q.trail, l ∈ D e → l ∈ D' e
  | 0, p, D, h, hlevel =>
    ⟨p, D, rfl, h, ⟨rfl, rfl, rfl, rfl, rfl, hlevel, List.suffix_refl _, fun _ _ => rfl,
      fun _ hl _ => hl, .inl ⟨hlevel, rfl⟩⟩, fun _ _ _ hl => hl⟩
  | m + 1, p, D, h, hlevel => by
    obtain ⟨q, D', hrun, hinv, hq, hD'⟩ := h.cancel (t := t + m) (by omega) (by omega)
    obtain ⟨q', D'', hrun', hinv', hq', hD''⟩ := Inv.cancelMany hinv hq.trailLimLen
    refine ⟨q', D'', ?_, hinv', ?_,
      fun e l hl hmem => hD'' e l hl (hD' e l (hq'.suffix.mem hl) hmem)⟩
    · rw [Problem.cancelMany, hrun]
      exact hrun'
    · refine ⟨hq'.numVars.trans hq.numVars, hq'.vars.trans hq.vars,
        hq'.nextClause.trans hq.nextClause,
        hq'.toplevelConflict.trans hq.toplevelConflict, hq'.propQ.trans hq.propQ, hq'.trailLimLen,
        hq'.suffix.trans hq.suffix,
        fun l hl => (hq'.level l hl).trans (hq.level l (hq'.suffix.mem hl)), ?_, ?_⟩
      · intro l hl hle
        have hmem := hq.kept l hl (by omega)
        exact hq'.kept l hmem (by rw [hq.level l hmem]; exact hle)
      · rcases hq.lims with ⟨heq, -⟩ | ⟨upper, hlims⟩
        · omega
        · rcases hq'.lims with ⟨-, rfl⟩ | ⟨upper', hlims'⟩
          · exact .inr ⟨upper, hlims⟩
          · refine .inr ⟨upper ++ q.trail.length :: upper', ?_⟩
            rw [hlims, hlims', append_assoc]
            rfl

theorem eq_of_suffix_of_subset {xs ys : List Lit} (h : xs <:+ ys) (hnodup : ys.Nodup)
    (hsubset : ∀ l ∈ ys, l ∈ xs) : xs = ys :=
  h.eq_of_length_le ((hnodup.subperm hsubset).length_le)

/-- Below the current level, every clause has been told of everything. -/
def Lower (Φ : List Constraint) (p : Problem) : Prop :=
  ∃ D, Inv Φ p D (fun _ => []) p.trailLimLen ∧
    ∀ e < p.nextClause, ∀ l ∈ p.trail, p.level l.var < p.trailLimLen → l ∈ D e

/-- After going back to a lower level, every clause has been told of the whole trail. -/
theorem Lower.cancelUntil (h : Lower Φ p) {t : Nat} (hlt : t < p.trailLimLen) :
    ∃ q, p.cancelUntil t = .ok q ∧ Inv Φ q (fun _ => q.trail) (fun _ => []) (q.trailLimLen + 1) ∧
      Cancelled p q t := by
  obtain ⟨D, hinv, hlower⟩ := h
  obtain ⟨m, hm⟩ : ∃ m, p.trailLimLen = t + m := ⟨p.trailLimLen - t, by omega⟩
  obtain ⟨q, D', hrun, hinv, hq, hD'⟩ := (hinv.anti (j := t + 1) (by omega)).cancelMany hm
  refine ⟨q, ?_, ?_, hq⟩
  · rw [Problem.cancelUntil, getDecisionLevel]
    have : ((p.trailLimLen : Int) - t).toNat = m := by omega
    rw [this]
    exact hrun
  · rw [hq.trailLimLen]
    refine hinv.congr fun e he => ?_
    refine (eq_of_suffix_of_subset (hinv.undo.suffix e he) hinv.trail.trail_nodup ?_).symm
    intro l hl
    refine hD' e l hl (hlower e (hq.nextClause ▸ he) l (hq.suffix.mem hl) ?_)
    have := hinv.trail.level_le hl
    rw [hq.level l hl, hq.trailLimLen] at this
    omega

end

end Problem

end Dune.Sat
