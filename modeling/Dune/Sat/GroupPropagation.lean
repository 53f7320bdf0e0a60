import Dune.Sat.Propagation

/-!
# Notifying an at-most group

A group counts its true literals. When it is full it sets the others to false, each implied by the
group; one true literal too many is a conflict. The loop of assignments commutes with the change of
the group itself, so that its invariant is that of the state before the notification.
-/

open List

namespace Dune.Sat

namespace Problem

section
variable {Φ : List Constraint} {p q : Problem} {D : ClauseId → List Lit}
  {extra : Lit → List ClauseId} {k k' : Int} {lit : Lit} {c : ClauseId} {cs : List ClauseId}
  {nb : Nat} {cur lits done : List Lit}

theorem select_watches (p : Problem) (c : ClauseId) (lit : Lit) (nb : Nat) (cur lits : List Lit)
    (hcl : p.heap c = .atMost nb cur lits) (e : ClauseId) (l : Lit) :
    ((p.select c lit nb cur lits).heap e).Watches l ↔ (p.heap e).Watches l := by
  show (update p.heap c (.atMost nb (lit :: cur) lits) e).Watches l ↔ _
  unfold update
  split_ifs with hec
  · rw [hec, hcl]
    exact Iff.rfl
  · exact Iff.rfl

theorem UndoInv.select (h : UndoInv p D) (hp : TrailInv p) (hc : c < p.nextClause)
    (hcl : p.heap c = .atMost nb cur lits) (hlit : lit ∈ lits) (hD : D c = done)
    (hdone : (lit :: done) <:+ p.trail) :
    UndoInv (p.select c lit nb cur lits) (update D c (lit :: done)) := by
  have hnot : lit ∉ done := by
    obtain ⟨pre, htrail⟩ := hdone
    have hnodup := hp.trail_nodup
    rw [← htrail] at hnodup
    exact (nodup_cons.mp (nodup_append.mp hnodup).2.1).1
  have hfresh : Undo.undoAtMost c ∉ p.undo lit.var := by
    rw [h.undo]
    rintro ⟨-, l, hl, hvar, -⟩
    rw [hD] at hl
    have heq := hp.eq_of_var (hdone.mem (mem_cons_of_mem _ hl)) (hdone.mem mem_cons_self) hvar
    exact hnot (heq ▸ hl)
  constructor
  case suffix =>
    intro e he
    unfold update
    split_ifs
    · exact hdone
    · exact h.suffix e he
  case current =>
    intro e he nb' cur' lits' heq
    simp only [Problem.select, update] at heq ⊢
    split_ifs at heq ⊢ with hec
    · cases heq
      rw [filter_cons_of_pos (by simpa using hlit), h.current c hc nb cur lits hcl, hD]
    · exact h.current e he nb' cur' lits' heq
  case undo =>
    intro v e
    simp only [Problem.select, update]
    by_cases hec : e = c
    · subst hec
      simp only [if_true]
      split_ifs with hv
      · exact ⟨fun _ => ⟨hc, lit, mem_cons_self, hv.symm, hlit⟩, fun _ => mem_cons_self⟩
      · rw [h.undo, hcl, hD]
        refine and_congr_right fun _ => exists_congr fun l => ?_
        constructor
        · rintro ⟨hl, hvar, hg⟩
          exact ⟨mem_cons_of_mem _ hl, hvar, hg⟩
        · rintro ⟨hl, hvar, hg⟩
          rcases mem_cons.mp hl with rfl | hl
          · exact absurd hvar.symm hv
          · exact ⟨hl, hvar, hg⟩
    · simp only [if_neg hec]
      rw [← h.undo]
      split_ifs with hv
      · have hne : Undo.undoAtMost e ≠ .undoAtMost c := fun heq => hec (Undo.undoAtMost.inj heq)
        simp [hne, hv]
      · exact Iff.rfl
  case nodup =>
    intro v e
    simp only [Problem.select, update]
    split_ifs
    · by_cases hec : e = c
      · subst hec
        simp [count_eq_zero.mpr hfresh]
      · have hne : Undo.undoAtMost c ≠ .undoAtMost e :=
          fun heq => hec (Undo.undoAtMost.inj heq).symm
        rw [count_cons_of_ne hne]
        exact h.nodup _ _
    · exact h.nodup v e

theorem Inv.select (h : Inv Φ p D (waiting lit (c :: cs)) k) (hc : c < p.nextClause)
    (hcl : p.heap c = .atMost nb cur lits) (hlit : lit ∈ lits) (hD : D c = done)
    (hdone : (lit :: done) <:+ p.trail) (hk : k' ≤ k)
    (hconcl : p.Concluded k' (lit :: done) (.atMost nb (lit :: cur) lits)) :
    Inv Φ ((p.watchLit lit c).select c lit nb cur lits) (update D c (lit :: done))
      (waiting lit cs) k' := by
  have hundo := h.undo.select h.trail hc hcl hlit hD hdone
  have hwatch := h.watch.requeue.congr (select_watches (p.watchLit lit c) c lit nb cur lits hcl)
  refine h.setClauses (fun e => ?_) (fun e l _ more himplies => ?_) { hwatch with }
    { hundo with } fun e he => ?_
  · simp only [update]
    split_ifs with hec
    · rw [hec, hcl]
      exact Clause.same_atMost _ _ _ _
    · exact .refl _
  · simp only [update]
    split_ifs with hec
    · rw [hec, hcl] at himplies
      exact himplies
    · exact himplies
  · simp only [update]
    split_ifs
    · exact hconcl
    · exact (h.concluded e he).anti hk

/-! ## Counting true literals -/

def countTrue (p : Problem) (ls : List Lit) : Nat := (ls.filter (· ∈ p.trail)).length

variable {ls new : List Lit} {l : Lit}

theorem countTrue_cons_true (h : l ∈ p.trail) : p.countTrue (l :: ls) = p.countTrue ls + 1 := by
  rw [countTrue, filter_cons_of_pos (by simpa using h), length_cons, countTrue]

theorem countTrue_cons_not (h : l ∉ p.trail) : p.countTrue (l :: ls) = p.countTrue ls := by
  rw [countTrue, filter_cons_of_neg (by simpa using h), countTrue]

theorem findTrue_spec (hp : TrailInv p) : ∀ (ls founds : List Lit) {n : Nat}, n ≤ nb →
    nb < n + p.countTrue ls →
      ∃ xs : List Lit, p.findTrue nb n founds ls = .ok (xs.reverse ++ founds) ∧
      xs.Sublist ls ∧ (∀ x ∈ xs, x ∈ p.trail) ∧ n + xs.length = nb + 1
  | [], founds, n, hn, hlt => by
    simp only [countTrue, List.filter_nil, List.length_nil] at hlt
    omega
  | x :: ls, founds, n, hn, hlt => by
    rw [findTrue]
    by_cases hx : x ∈ p.trail
    · rw [if_neg (not_not.mpr ((hp.value x).mpr hx))]
      rw [countTrue_cons_true hx] at hlt
      by_cases hfull : nb ≤ n
      · rw [if_pos hfull]
        refine ⟨[x], rfl, List.Sublist.cons_cons x (List.nil_sublist _), ?_, by simp; omega⟩
        intro y hy
        rwa [List.mem_singleton.mp hy]
      · rw [if_neg hfull]
        obtain ⟨xs, hrun, hsub, htrue, hlen⟩ :=
          findTrue_spec hp ls (x :: founds) (n := n + 1) (by omega) (by omega)
        refine ⟨x :: xs, ?_, hsub.cons_cons x, ?_, by rw [length_cons]; omega⟩
        · rw [hrun, reverse_cons, append_assoc]
          rfl
        · exact forall_mem_cons.mpr ⟨hx, htrue⟩
    · rw [if_pos fun hval => hx ((hp.value x).mp hval)]
      rw [countTrue_cons_not hx] at hlt
      obtain ⟨xs, hrun, hsub, htrue, hlen⟩ := findTrue_spec hp ls founds hn hlt
      exact ⟨xs, hrun, hsub.cons x, htrue, hlen⟩

/-- The loop of a full group does not look at the parts of the state that `select` changes. -/
theorem setOthersFalse_frame (nb : Nat) (c : ClauseId) (heap' : ClauseId → Clause)
    (undo' : Nat → List Undo)
    (watchQueue' : Lit → List ClauseId) : ∀ (ls : List Lit) (n : Nat) (p : Problem),
    setOthersFalse nb c ls n { p with heap := heap', undo := undo', watchQueue := watchQueue' } =
      ((setOthersFalse nb c ls n p).1, { (setOthersFalse nb c ls n p).2 with
        heap := heap', undo := undo', watchQueue := watchQueue' })
  | [], _, _ => rfl
  | l :: ls, n, p => by
    have hvalue : ∀ x, litValue
        { p with heap := heap', undo := undo', watchQueue := watchQueue' } x =
        p.litValue x := fun _ => rfl
    rw [setOthersFalse, setOthersFalse, hvalue]
    cases hl : p.litValue l with
    | true =>
      show (if nb < n + 1 then _ else _) = _
      by_cases hfull : nb < n + 1
      · simp only [if_pos hfull]
      · simp only [if_neg hfull]
        exact setOthersFalse_frame nb c heap' undo' watchQueue' ls (n + 1) p
    | undecided =>
      have hneg : p.litValue l.neg = .undecided := by
        rw [litValue_neg, hl]
        rfl
      simp only [enqueue_undecided hneg,
        enqueue_undecided
          (p := { p with heap := heap', undo := undo', watchQueue := watchQueue' }) hneg]
      exact setOthersFalse_frame nb c heap' undo' watchQueue' ls n (p.assign l.neg (.clause c))
    | false => exact setOthersFalse_frame nb c heap' undo' watchQueue' ls n p

/-- What the loop of a full group finds in `ls` after it has counted `n` true literals: the others
are false, or there is one true literal too many. -/
def Settles (nb n : Nat) (ls : List Lit) (r : Bool) (q : Problem) : Prop :=
  if r then (∀ l ∈ ls, l ∈ q.trail ∨ l.neg ∈ q.trail) ∧ n + q.countTrue ls ≤ nb
  else nb < n + q.countTrue ls

theorem Settles.cons_true {n : Nat} {r : Bool} (h : Settles nb (n + 1) ls r q) (hl : l ∈ q.trail) :
    Settles nb n (l :: ls) r q := by
  unfold Settles at h ⊢
  rw [countTrue_cons_true hl, ← Nat.add_assoc, Nat.add_right_comm]
  cases r with
  | true => exact ⟨forall_mem_cons.mpr ⟨.inl hl, h.1⟩, h.2⟩
  | false => exact h

theorem Settles.cons_false {n : Nat} {r : Bool} (h : Settles nb n ls r q) (hq : TrailInv q)
    (hl : l.neg ∈ q.trail) : Settles nb n (l :: ls) r q := by
  have hnot := hq.neg_not_mem hl
  rw [Lit.neg_neg] at hnot
  unfold Settles at h ⊢
  rw [countTrue_cons_not hnot]
  cases r with
  | true => exact ⟨forall_mem_cons.mpr ⟨.inr hl, h.1⟩, h.2⟩
  | false => exact h

/-- The loop of a full group: the literals that were not true become false, unless there is one true
literal too many. -/
theorem Inv.setOthersFalse : ∀ {ls : List Lit} {n : Nat} {p : Problem}, Inv Φ p D extra k →
    c < p.nextClause → p.heap c = .atMost nb cur lits → (∀ l ∈ ls, l ∈ lits) →
    nb ≤ (p.trail.filter (· ∈ lits)).length → n ≤ nb →
    ∃ r q new, Problem.setOthersFalse nb c ls n p = (r, q) ∧ Extends p q new ∧ Inv Φ q D extra k ∧
      q.heap = p.heap ∧ q.undo = p.undo ∧ q.watchQueue = p.watchQueue ∧ Settles nb n ls r q
  | [], n, p, h, _, _, _, _, hn =>
    ⟨true, p, [], rfl, .of_same rfl rfl rfl (.refl p), h, rfl, rfl, rfl, nofun, hn⟩
  | l :: ls, n, p, h, hc, hcl, hls, hfull, hn => by
    have hp := h.trail
    have hl := hls l mem_cons_self
    have hls' : ∀ x ∈ ls, x ∈ lits := fun x hx => hls x (mem_cons_of_mem _ hx)
    rw [Problem.setOthersFalse]
    cases hvalue : p.litValue l with
    | true =>
      have hmem := (hp.value l).mp hvalue
      by_cases hmany : nb < n + 1
      · refine ⟨false, p, [], if_pos hmany, .of_same rfl rfl rfl (.refl p), h, rfl, rfl, rfl, ?_⟩
        show nb < n + p.countTrue (l :: ls)
        rw [countTrue_cons_true hmem]
        omega
      · obtain ⟨r, q, new, hrun, hq, hinv, hheap, hundo, hwatch, hresult⟩ :=
          Inv.setOthersFalse (n := n + 1) h hc hcl hls' hfull (by omega)
        exact ⟨r, q, new, (if_neg hmany).trans hrun, hq, hinv, hheap, hundo, hwatch,
          hresult.cons_true (hq.mem hmem)⟩
    | undecided =>
      have hneg : p.litValue l.neg = .undecided := by
        rw [litValue_neg, hvalue]
        rfl
      have hbound : l.neg.var < p.numVars := by
        have hb := h.clauses.bound c hc
        rw [hcl] at hb
        rw [Lit.neg_var]
        exact hb l hl
      have himplies : (p.heap c).Implies l.neg p.trail := by
        rw [hcl]
        exact ⟨(Lit.neg_neg l).symm ▸ hl, hfull⟩
      have hassign := Extends.assign (.clause c) hp hneg
      have hfull' : nb ≤ ((p.assign l.neg (.clause c)).trail.filter (· ∈ lits)).length :=
        Nat.le_trans hfull ((sublist_cons_self l.neg p.trail).filter _).length_le
      obtain ⟨r, q, new, hrun, hq, hinv, hheap, hundo, hwatch, hresult⟩ :=
        Inv.setOthersFalse (n := n) (h.assign_implied hc hneg hbound himplies) hc hcl hls' hfull' hn
      refine ⟨r, q, [l.neg] ++ new, ?_, hassign.trans hq, hinv, hheap, hundo, hwatch,
        hresult.cons_false hinv.trail (hq.mem mem_cons_self)⟩
      simp only [enqueue_undecided hneg]
      exact hrun
    | false =>
      obtain ⟨r, q, new, hrun, hq, hinv, hheap, hundo, hwatch, hresult⟩ :=
        Inv.setOthersFalse (n := n) h hc hcl hls' hfull hn
      exact ⟨r, q, new, hrun, hq, hinv, hheap, hundo, hwatch,
        hresult.cons_false hinv.trail (hq.mem (hp.litValue_false.mp hvalue))⟩

/-! ## Notifying a group -/

namespace Notifying
variable (h : Notifying Φ p D lit done (c :: cs)) (hcl : p.heap c = .atMost nb cur lits)
include h hcl

theorem group_mem : lit ∈ lits := by
  have hw := h.clause_watches.2
  rwa [hcl] at hw

theorem group_current : cur = done.filter (· ∈ lits) := by
  rw [h.inv.undo.current c h.clause_lt nb cur lits hcl, h.waiting c mem_cons_self]

theorem group_distinct : lits.Nodup := by
  have hd := h.inv.clauses.distinct c h.clause_lt
  rwa [hcl] at hd

/-- A full group has set its other literals to false. -/
theorem group_not_full : cur.length < nb ∨ nb = 0 ∧ cur = [] := by
  have ht := h.inv.trail
  have hconcl := h.inv.concluded c h.clause_lt
  rw [hcl] at hconcl
  have hcur := h.group_current hcl
  cases cur with
  | nil =>
    rcases Nat.eq_zero_or_pos nb with hnb | hnb
    · exact .inr ⟨hnb, rfl⟩
    · exact .inl hnb
  | cons x s =>
    have hx : x ∈ done := (mem_filter.mp (hcur ▸ mem_cons_self)).1
    have hxlevel := ht.level_le (h.done_suffix.mem (mem_cons_of_mem _ hx))
    obtain ⟨hle, hfull⟩ := hconcl x s (suffix_refl _) (by omega)
    rw [length_cons]
    by_cases heq : s.length + 1 = nb
    · have hnot : lit ∉ x :: s := by
        intro hmem
        exact h.lit_not_mem_done (mem_filter.mp (hcur ▸ hmem)).1
      exact absurd (hfull heq lit (h.group_mem hcl) hnot).1 (ht.neg_not_mem h.lit_mem)
    · exact .inl (by omega)

/-- The conclusions of the group below the level of `lit` are those it had. -/
theorem group_concluded (hq : Extends p q new) (hheap : q.heap = p.heap)
    (hinv : Inv Φ q D (Problem.waiting lit (c :: cs)) (p.trailLimLen + 1))
    (hk : k ≤ p.trailLimLen + 1)
    (hhead : q.level lit.var < k → cur.length + 1 ≤ nb ∧ (cur.length + 1 = nb → ∀ l ∈ lits,
      l ∉ lit :: cur → l.neg ∈ q.trail ∧ q.level l.var ≤ q.level lit.var)) :
    q.Concluded k (lit :: done) (.atMost nb (lit :: cur) lits) := by
  intro x s hsuffix hlt
  rcases suffix_cons_iff.mp hsuffix with heq | hsuffix
  · cases heq
    exact hhead hlt
  · have hconcl := hinv.concluded c (hq.nextClause.symm ▸ h.clause_lt)
    rw [hheap, hcl] at hconcl
    exact hconcl x s hsuffix (by omega)

theorem group_cause (hq : Extends p q new) (hp : TrailInv q)
    (hentailed : Entails Φ (.atMost nb lits)) (hheap : q.heap c = .atMost nb (lit :: cur) lits)
    (hcur : cur.length ≤ nb) (hmany : nb < q.countTrue lits) : Cause Φ q c := by
  obtain ⟨xs, hrun, hsub, htrue, hlen⟩ :=
    findTrue_spec hp lits [] (Nat.zero_le nb) (by omega)
  have hnodup := hsub.nodup (h.group_distinct hcl)
  refine ⟨xs.reverse, ?_, ?_, ?_, ?_⟩
  · rw [calcReason, hheap]
    exact hrun.trans (congrArg Except.ok (append_nil _))
  · exact fun l hl => htrue l (mem_reverse.mp hl)
  · intro α hα
    obtain ⟨x, hx, hfalse⟩ := atMost_not_all xs (hentailed α hα) hnodup (by omega)
      fun x hx => hsub.subset hx
    exact ⟨x, mem_reverse.mpr hx, hfalse⟩
  · -- otherwise all of them had been counted
    by_contra hnone
    have hsubset : xs ⊆ cur := by
      intro x hx
      have hle := hp.level_le (htrue x hx)
      have hne : q.level x.var ≠ q.trailLimLen := fun heq => hnone ⟨x, mem_reverse.mpr hx, heq⟩
      have hdone := h.lower_done hq (htrue x hx) (by omega)
      rw [h.group_current hcl]
      exact mem_filter.mpr ⟨hdone, by simpa using hsub.subset hx⟩
    have := (hnodup.subperm hsubset).length_le
    omega

theorem group_counted (hroom : cur.length + 1 < nb) :
    Told Φ p D lit done c cs (.ok (true, (p.watchLit lit c).select c lit nb cur lits)) := by
  have hconcl := h.group_concluded hcl (.of_same rfl rfl rfl (.refl p)) rfl h.inv (Int.le_refl _)
    fun _ => ⟨by omega, fun heq => by omega⟩
  have hinv := h.inv.select h.clause_lt hcl (h.group_mem hcl) (h.waiting c mem_cons_self)
    h.done_suffix (Int.le_refl _) hconcl
  have hq : Extends p ((p.watchLit lit c).select c lit nb cur lits) [] :=
    .of_same rfl rfl rfl ⟨rfl, rfl, rfl, rfl, rfl, rfl⟩
  exact ⟨true, _, rfl, hq.toFrame, hq.length_le, h.next hq hinv⟩

theorem group_conflict (hq : Extends p q new) (hheap : q.heap = p.heap)
    (hinv : Inv Φ q D (Problem.waiting lit (c :: cs)) (p.trailLimLen + 1)) (hcur : cur.length ≤ nb)
    (hmany : nb < q.countTrue lits) :
    Conflicting Φ ((q.watchLit lit c).select c lit nb cur lits) (update D c (lit :: done))
      (Problem.waiting lit cs) c := by
  have hc : c < q.nextClause := hq.nextClause.symm ▸ h.clause_lt
  have hcl' : q.heap c = .atMost nb cur lits := by rw [hheap, hcl]
  have hlevel : q.level lit.var = q.trailLimLen := by
    rw [hq.level lit h.lit_mem, h.level, hq.trailLimLen]
  have hdone : (lit :: done) <:+ q.trail := hq.trail ▸ h.done_suffix.trans (suffix_append _ _)
  have hq' : Extends p ((q.watchLit lit c).select c lit nb cur lits) new :=
    { hq with }
  have hlen : (q.trailLimLen : Int) ≤ p.trailLimLen + 1 := by
    rw [hq.trailLimLen]
    omega
  have hinv' := hinv.select hc hcl' (h.group_mem hcl) (h.waiting c mem_cons_self) hdone hlen
    (h.group_concluded hcl hq hheap hinv hlen fun hlt => by omega)
  have hentailed := hinv.clauses.entailed c hc
  rw [hcl'] at hentailed
  exact ⟨hinv', h.lower_mem hq', hc,
    h.group_cause hcl hq' hinv'.trail hentailed (update_same _ _ _) hcur hmany⟩

theorem group_full (hfull : cur.length + 1 = nb) :
    Told Φ p D lit done c cs
      (.ok (Problem.setOthersFalse nb c lits 0 ((p.watchLit lit c).select c lit nb cur lits))) := by
  have hc := h.clause_lt
  have ht := h.inv.trail
  have hcur := h.group_current hcl
  have hselected : lit :: cur = (lit :: done).filter (· ∈ lits) := by
    rw [filter_cons_of_pos (by simpa using h.group_mem hcl), ← hcur]
  have hcount : nb ≤ (p.trail.filter (· ∈ lits)).length := by
    rw [← hfull, ← length_cons, hselected]
    exact (h.done_suffix.sublist.filter _).length_le
  obtain ⟨r, q, new, hrun, hq, hinv, hheap, hundo, hwatch, hresult⟩ :=
    h.inv.setOthersFalse (n := 0) hc hcl (fun _ hl => hl) hcount (Nat.zero_le _)
  have hresult' : Problem.setOthersFalse nb c lits 0 ((p.watchLit lit c).select c lit nb cur lits) =
      (r, (q.watchLit lit c).select c lit nb cur lits) := by
    have hframe := setOthersFalse_frame nb c ((p.watchLit lit c).select c lit nb cur lits).heap
      ((p.watchLit lit c).select c lit nb cur lits).undo
      ((p.watchLit lit c).select c lit nb cur lits).watchQueue lits 0 p
    rw [hrun] at hframe
    refine hframe.trans ?_
    simp only [select, watchLit, hheap, hundo, hwatch]
  have hq' : Extends p ((q.watchLit lit c).select c lit nb cur lits) new :=
    { hq with }
  refine ⟨r, _, congrArg Except.ok hresult', hq'.toFrame, hq'.length_le, ?_⟩
  cases r with
  | false =>
    have hmany : nb < 0 + q.countTrue lits := hresult
    exact h.group_conflict hcl hq hheap hinv (by omega) (by omega)
  | true =>
    obtain ⟨hdecided, hle⟩ := hresult
    have hdone : (lit :: done) <:+ q.trail := hq.trail ▸ h.done_suffix.trans (suffix_append _ _)
    have hlevel : q.level lit.var = q.trailLimLen := by
      rw [hq.level lit h.lit_mem, h.level, hq.trailLimLen]
    have hconcl := h.group_concluded hcl hq hheap hinv (Int.le_refl _) fun _ => by
      refine ⟨Nat.le_of_eq hfull, fun _ l hl hnot => ?_⟩
      -- the selected literals are all the true ones
      have hfalse : l ∉ q.trail := by
        intro hmem
        have hnodup : (l :: lit :: cur).Nodup := by
          refine nodup_cons.mpr ⟨hnot, ?_⟩
          rw [hselected]
          exact (h.done_suffix.sublist.nodup ht.trail_nodup).filter _
        have hsubset : (l :: lit :: cur) ⊆ lits.filter (· ∈ q.trail) := by
          intro x hx
          rcases mem_cons.mp hx with rfl | hx
          · exact mem_filter.mpr ⟨hl, by simpa using hmem⟩
          · rw [hselected] at hx
            obtain ⟨hx, hxl⟩ := mem_filter.mp hx
            exact mem_filter.mpr ⟨by simpa using hxl, by simpa using hdone.mem hx⟩
        have hlen := (hnodup.subperm hsubset).length_le
        rw [length_cons, length_cons] at hlen
        have hle : 0 + (lits.filter (· ∈ q.trail)).length ≤ nb := hle
        omega
      have hneg := (hdecided l hl).resolve_left hfalse
      have hle := hinv.trail.level_le hneg
      rw [Lit.neg_var] at hle
      exact ⟨hneg, hlevel ▸ hle⟩
    refine h.next hq' ?_
    have hinv' := hinv.select (hq.nextClause.symm ▸ hc) (by rw [hheap, hcl]) (h.group_mem hcl)
      (h.waiting c mem_cons_self) hdone (Int.le_refl _) hconcl
    show Inv Φ _ _ _ (q.trailLimLen + 1)
    rw [hq.trailLimLen]
    exact hinv'

theorem propagateAtMost : Told Φ p D lit done c cs (p.propagateAtMost c lit nb cur lits) := by
  have hroom := h.group_not_full hcl
  have htrue : (p.watchLit lit c).litValue lit = .true := (h.inv.trail.value lit).mpr h.lit_mem
  have hcheck : (decide (cur.length < nb ∨ nb = 0)) = true :=
    decide_eq_true (hroom.imp_right And.left)
  rw [Problem.propagateAtMost]
  simp only [htrue, hcheck, check, decide_true, if_true, length_cons]
  show Told Φ p D lit done c cs (if cur.length + 1 < nb then _ else _)
  split
  · next hlt => exact h.group_counted hcl hlt
  · next hlt =>
    split
    · next hgt =>
      obtain ⟨hnb, hcur⟩ : nb = 0 ∧ cur = [] := hroom.resolve_left (by omega)
      have hmany : nb < p.countTrue lits := by
        rw [hnb]
        refine length_pos_of_mem (mem_filter.mpr ⟨h.group_mem hcl, ?_⟩)
        simpa using h.lit_mem
      have hq : Extends p p [] := .of_same rfl rfl rfl (.refl p)
      simp only [hnb, decide_true, if_true]
      refine ⟨false, _, rfl, ⟨rfl, rfl, rfl, rfl, rfl, rfl⟩, Nat.le_refl _, ?_⟩
      have hconflict := h.group_conflict hcl hq rfl h.inv (by rw [hcur]; exact Nat.zero_le _) hmany
      rwa [hnb] at hconflict
    · next hgt => exact h.group_full hcl (by omega)

end Notifying

theorem Notifying.propagateClause (h : Notifying Φ p D lit done (c :: cs)) :
    Told Φ p D lit done c cs (p.propagateClause c lit) := by
  have hw := h.clause_watches.2
  rw [Problem.propagateClause]
  cases hcl : p.heap c with
  | union a b rest =>
    rw [hcl] at hw
    by_cases ha : a = lit.neg
    · subst ha
      obtain ⟨r, q, hrun, hframe, hlen, hresult⟩ :=
        (h.swapped hcl).propagateUnion (update_same _ _ _)
      show Told Φ p D lit done c cs (if lit.neg = lit.neg then _ else _)
      rw [if_pos rfl]
      exact ⟨r, q, hrun, { hframe with }, hlen, hresult⟩
    · have hb : b = lit.neg := by
        rcases hw with hw | hw
        · rw [hw, Lit.neg_neg] at ha
          exact absurd rfl ha
        · rw [hw, Lit.neg_neg]
      subst hb
      simp only [if_neg ha]
      exact h.propagateUnion hcl
  | atMost nb cur lits => exact h.propagateAtMost hcl

end

end Problem

end Dune.Sat
