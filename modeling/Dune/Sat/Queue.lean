import Dune.Sat.GroupPropagation

/-!
# The propagation queue

`Ready` is the invariant between two rounds of `propagate`: every clause has been told of `done`,
the assignments that are not in the queue any more. The loop ends because each round tells the
clauses of one more variable.
-/

open List

namespace Dune.Sat

namespace Problem

/-- The state between two rounds of `propagate`. -/
structure Ready (Φ : List Constraint) (p : Problem) (done : List Lit) : Prop where
  inv : Inv Φ p (fun _ => done) (fun _ => []) (p.trailLimLen + 1)
  trail : p.trail = p.propQ.reverse ++ done
  lower : ∀ l ∈ p.trail, p.level l.var < p.trailLimLen → l ∈ done

section
variable {Φ : List Constraint} {p q : Problem} {D D' : ClauseId → List Lit}
  {extra : Lit → List ClauseId} {k : Int} {lit : Lit} {cs : List ClauseId} {done : List Lit}

theorem Clause.IsGroupOf.watches {cl : Clause} {l : Lit} (h : cl.IsGroupOf l) : cl.Watches l := by
  cases cl with
  | union a b rest => exact h.elim
  | atMost nb cur lits => exact h

theorem Inv.setQueues (h : Inv Φ p D extra k) {propQ' : List Lit}
    {watchQueue' : Lit → List ClauseId} {extra' : Lit → List ClauseId}
    (hwatch : WatchInv { p with propQ := propQ', watchQueue := watchQueue' } extra') :
    Inv Φ { p with propQ := propQ', watchQueue := watchQueue' } D extra' k :=
  { h with
    trail := { h.trail with }
    reasons := { h.reasons with }
    clauses := { h.clauses with }
    watch := hwatch
    undo := { h.undo with } }

/-- No more than the variables of the problem are assigned. -/
theorem TrailInv.length_le (h : TrailInv p) : p.trail.length ≤ p.numVars := by
  have hsubset : p.trail.map Lit.var ⊆ List.range p.numVars := by
    intro v hv
    obtain ⟨l, hl, rfl⟩ := mem_map.mp hv
    exact mem_range.mpr (h.bound l hl)
  have hle := (h.nodup.subperm hsubset).length_le
  rwa [length_map, length_range] at hle

theorem findTrue_congr (h : ∀ l, q.litValue l = p.litValue l) {nb : Nat} :
    ∀ {ls founds : List Lit} {n : Nat}, q.findTrue nb n founds ls = p.findTrue nb n founds ls
  | [], _, _ => rfl
  | x :: ls, founds, n => by
    rw [findTrue, findTrue, h, findTrue_congr h, findTrue_congr h]

theorem Cause.congr {c : ClauseId} (h : Cause Φ p c) (hvalue : q.value = p.value)
    (hheap : q.heap = p.heap) (htrail : q.trail = p.trail) (hlevel : q.level = p.level)
    (hlen : q.trailLimLen = p.trailLimLen) : Cause Φ q c := by
  obtain ⟨rs, hrun, hcause⟩ := h
  refine ⟨rs, ?_, ?_⟩
  · have hlit : ∀ l, q.litValue l = p.litValue l := fun l => by rw [litValue, litValue, hvalue]
    rw [← hrun, calcReason, calcReason, hheap]
    split
    · rfl
    · exact findTrue_congr hlit
  · rw [htrail, hlevel, hlen]
    exact hcause

/-- The state after a conflict, when the watchers are back in their queues. -/
def Conflict (Φ : List Constraint) (p : Problem) (c : ClauseId) : Prop :=
  p.propQ = [] ∧ ∃ D, Conflicting Φ p D (fun _ => []) c

theorem Conflicting.requeue {c : ClauseId} (h : Conflicting Φ p D (waiting lit cs) c) :
    Conflict Φ { p with
      watchQueue := update p.watchQueue lit (p.watchQueue lit ++ cs), propQ := [] } c := by
  have hwatch := h.inv.watch.requeueAll
  exact ⟨rfl, D, h.inv.setQueues { hwatch with }, h.lower, h.clause,
    h.cause.congr rfl rfl rfl rfl rfl⟩

theorem Notifying.notify : ∀ {cs : List ClauseId} {p : Problem} {D : ClauseId → List Lit},
    Notifying Φ p D lit done cs → ∃ r q, Problem.notify lit cs p = .ok (r, q) ∧ Frame p q ∧
      p.trail.length ≤ q.trail.length ∧
      match r with
      | none => ∃ D', Notifying Φ q D' lit done []
      | some c => Conflict Φ q c
  | [], p, D, h => ⟨none, p, rfl, .refl p, Nat.le_refl _, D, h⟩
  | c :: cs, p, D, h => by
    obtain ⟨ok, q, hrun, hframe, hlen, hresult⟩ := h.propagateClause
    rw [Problem.notify, hrun]
    cases ok with
    | true =>
      obtain ⟨r, q', hrun', hframe', hlen', hresult'⟩ := Notifying.notify hresult
      exact ⟨r, q', hrun', hframe.trans hframe', Nat.le_trans hlen hlen', hresult'⟩
    | false =>
      have hconflict : Conflicting Φ q _ (Problem.waiting lit cs) c := hresult
      exact ⟨some c, _, rfl, { hframe with }, hlen, hconflict.requeue⟩

/-- Clauses that do not watch a literal may count as told of it. -/
theorem Inv.tell (h : Inv Φ p D extra k)
    (hD : ∀ c < p.nextClause, D' c = D c ∨
      ∃ lit, (lit :: D c) <:+ p.trail ∧ D' c = lit :: D c ∧ ¬(p.heap c).Watches lit) :
    Inv Φ p D' extra k := by
  refine { h with
    undo := ⟨fun c hc => ?_, fun c hc nb cur lits hcl => ?_, fun v c => ?_, h.undo.nodup⟩
    concluded := fun c hc => ?_ }
  · obtain heq | ⟨lit, hdone, heq, -⟩ := hD c hc <;> rw [heq]
    · exact h.undo.suffix c hc
    · exact hdone
  · have hcur := h.undo.current c hc nb cur lits hcl
    obtain heq | ⟨lit, -, heq, hnot⟩ := hD c hc <;> rw [heq]
    · exact hcur
    · rw [hcl] at hnot
      have hnot : lit ∉ lits := hnot
      rwa [filter_cons_of_neg (by simpa using hnot)]
  · rw [h.undo.undo]
    refine and_congr_right fun hc => ?_
    obtain heq | ⟨lit, -, heq, hnot⟩ := hD c hc <;> rw [heq]
    rw [exists_mem_cons_iff, or_iff_right fun hgroup => hnot (Clause.IsGroupOf.watches hgroup.2)]
  · have hconcl := h.concluded c hc
    obtain heq | ⟨lit, -, heq, hnot⟩ := hD c hc <;> rw [heq]
    · exact hconcl
    · cases hcl : p.heap c with
      | union a b rest =>
        rw [hcl] at hconcl hnot
        have ha : a.neg ≠ lit := fun heq => hnot (.inl heq.symm)
        have hb : b.neg ≠ lit := fun heq => hnot (.inr heq.symm)
        exact ⟨fun hmem => hconcl.1 ((mem_cons.mp hmem).resolve_left ha),
          fun hmem => hconcl.2 ((mem_cons.mp hmem).resolve_left hb)⟩
      | atMost nb cur lits =>
        rw [hcl] at hconcl
        exact hconcl

theorem Inv.congr (h : Inv Φ p D extra k) (hD : ∀ c < p.nextClause, D' c = D c) :
    Inv Φ p D' extra k :=
  h.tell fun c hc => .inl (hD c hc)

theorem Ready.dequeue (h : Ready Φ p done) {propQ : List Lit} (hpropQ : p.propQ = lit :: propQ) :
    Notifying Φ { p with propQ := propQ, watchQueue := update p.watchQueue lit [] }
      (fun c => if c ∈ p.watchQueue lit then done else lit :: done) lit done
        (p.watchQueue lit) := by
  have htrail : p.trail = propQ.reverse ++ lit :: done := by
    rw [h.trail, hpropQ, reverse_cons, append_assoc]
    rfl
  have hlit : lit ∈ p.trail := htrail ▸ mem_append_right _ mem_cons_self
  have hnot : lit ∉ done := by
    have hnodup := h.inv.trail.trail_nodup
    rw [htrail] at hnodup
    exact (nodup_cons.mp (nodup_append.mp hnodup).2.1).1
  constructor
  case inv =>
    refine (h.inv.tell fun c hc => ?_).setQueues h.inv.watch.dequeue
    by_cases hmem : c ∈ p.watchQueue lit
    · exact .inl (if_pos hmem)
    · refine .inr ⟨lit, ⟨propQ.reverse, htrail.symm⟩, if_neg hmem, fun hw => hmem ?_⟩
      have := (h.inv.watch.mem lit c).mpr ⟨hc, hw⟩
      rwa [append_nil] at this
  case trail => exact htrail
  case level =>
    have hle := h.inv.trail.level_le hlit
    by_contra hne
    have hne : p.level lit.var ≠ p.trailLimLen := hne
    exact hnot (h.lower lit hlit (by omega))
  case lower => exact h.lower
  case waiting => exact fun c hc => if_pos hc
  case notified => exact fun c _ hc => if_neg hc

theorem Notifying.ready (h : Notifying Φ p D lit done []) : Ready Φ p (lit :: done) where
  inv := by
    have hinv : Inv Φ p (fun _ => lit :: done) (Problem.waiting lit []) (p.trailLimLen + 1) :=
      h.inv.congr fun c hc => (h.notified c hc nofun).symm
    have hempty : Problem.waiting lit [] = fun _ => [] := by
      funext l
      rw [Problem.waiting, update, ite_self]
    rwa [hempty] at hinv
  trail := h.trail
  lower := fun l hl hlt => mem_cons_of_mem _ (h.lower l hl hlt)

/-- Propagation ends with every assignment known to every clause, or with a conflict. -/
theorem Ready.propagate : ∀ {n : Nat} {p : Problem} {done : List Lit}, Ready Φ p done →
    p.numVars < n + done.length → ∃ r q, Problem.propagate n p = .ok (r, q) ∧ Frame p q ∧
      p.trail.length ≤ q.trail.length ∧
      match r with
      | none => Ready Φ q q.trail ∧ q.propQ = []
      | some c => Conflict Φ q c
  | 0, p, done, h, hn => by
    have hle := h.inv.trail.length_le
    rw [h.trail, length_append] at hle
    omega
  | n + 1, p, done, h, hn => by
    rw [Problem.propagate]
    cases hpropQ : p.propQ with
    | nil =>
      have htrail : p.trail = done := by rw [h.trail, hpropQ, reverse_nil, nil_append]
      exact ⟨none, p, rfl, .refl p, Nat.le_refl _, htrail ▸ h, hpropQ⟩
    | cons lit propQ =>
      obtain ⟨r, q, hrun, hframe, hlen, hresult⟩ := (h.dequeue hpropQ).notify
      have hframe : Frame p q := { hframe with }
      simp only [hrun]
      cases r with
      | none =>
        obtain ⟨D', hnotified⟩ := hresult
        obtain ⟨r, q', hrun', hframe', hlen', hresult'⟩ := hnotified.ready.propagate (n := n) (by
          rw [hframe.numVars, length_cons]
          omega)
        exact ⟨r, q', hrun', hframe.trans hframe', Nat.le_trans hlen hlen', hresult'⟩
      | some c => exact ⟨some c, q, rfl, hframe, hlen, hresult⟩

end

end Problem

end Dune.Sat
