import Dune.Memo.Valid

/-!
# Operations on nodes against evaluation from scratch

The operations of Memo meet specifications in terms of evaluation from scratch, in the logic of
tasks: an operation works on a node that the requests demand, reading a node gives the value of a
current node, and a dependency that is found to be unchanged is current and not newer than its
reader. The check of the dependencies follows the order of demand (`safe_changedOrNot`), and a
function that returns has read current nodes (`safe_runProg`).
-/

namespace Dune.Memo.Consistency

open List Dune.Task Relation Prog

variable {N V X : Type} [DecidableEq N] [DecidableEq X]

/-! ## Specifications -/

/-- The node that an operation works on. -/
def target : Op N → N
  | .exec n | .restore n | .compute n | .considerCompute n => n
  | .checkDep _ dep _ => dep

/-- What reading a node gives. -/
def Replies (cyclic : Prop) (n : N) (σ : Store N V X) : Answer N V X → Prop
  | .value x => σ.Current n ∧ (σ.node n).value.get? = some x
  | .cycle _ => cyclic

/-- What the check of a dependency finds. -/
def Checked (cyclic : Prop) (node dep : N) (σ : Store N V X) : ChangedOrNot N → Prop
  | .unchanged => σ.Current dep ∧ (σ.node dep).lastChangedAt ≤ σ.run ∧
      (σ.node dep).lastChangedAt ≤ (σ.node node).lastValidatedAt
  | .changed => True
  | .cancelled _ => cyclic

variable {r : ChangedOrNot N}

section Stability

omit [DecidableEq N] [DecidableEq X]

variable {cyclic : Prop} {n node dep : N} {σ σ' : Store N V X}

theorem Replies.mono {a : Answer N V X} (hle : σ.Keeps σ') (h : Replies cyclic n σ a) :
    Replies cyclic n σ' a := by
  cases a with
  | value x => exact ⟨hle.isCurrent h.1, by rw [hle.current n h.1]; exact h.2⟩
  | cycle _ => exact h

theorem Checked.mono (hle : σ.Keeps σ') (h : Checked cyclic node dep σ r) :
    Checked cyclic node dep σ' r := by
  cases r with
  | unchanged =>
    obtain ⟨hcurrent, hrun, hstamp⟩ := h
    refine ⟨hle.isCurrent hcurrent, ?_, ?_⟩ <;> rw [hle.current dep hcurrent]
    · rw [hle.run]
      exact hrun
    · rcases hle.record node with hsame | ⟨hvalidated, -⟩
      · rw [hsame.lastValidatedAt]
        exact hstamp
      · rw [hvalidated]
        exact hrun
  | changed => trivial
  | cancelled _ => exact h

end Stability

section Logic

variable (D : CycleDetection) (S : Spec N V X) (ι : N → V) (requests : List (Prog N V X))

/-- What the operations expect and ensure in a run on the inputs with the requests. -/
def evalLogic : Logic (machine D S) where
  inv := Store.Valid S ι requests
  le := Store.Keeps
  alloc σ c := c < σ.computations.length
  held := Store.Held
  pre op st σ := σ.Chain S ι st (target op) ∧ Demanded S ι requests (target op) ∧
    match op with
    | .exec _ | .checkDep _ _ _ => True
    | .considerCompute n => σ.Settled n
    | .restore _ | .compute _ => False
  post op r σ :=
    match op with
    | .exec n => ∃ a, r = .answer a ∧ Replies (Cyclic S ι requests) n σ a
    | .checkDep node dep _ => ∃ x, r = .changedOrNot x ∧ Checked (Cyclic S ι requests) node dep σ x
    | .considerCompute n => ∃ o, r = .computed o ∧
        (o = none → σ.Current n) ∧ (o ≠ none → Cyclic S ι requests)
    | .restore _ | .compute _ => False
  forcedPre op c st σ := σ.Held c ∧ ∃ phase n, op = Phase.op phase n ∧
    σ.IsComputation c n phase ∧ σ.Chain S ι st n ∧ Demanded S ι requests n
  forcedPost op c r σ := ¬σ.Held c ∧
    ∃ phase n res, op = Phase.op phase n ∧ r = .result res ∧ σ.IsComputation c n phase ∧
      Ends (Cyclic S ι requests) n phase σ res
  waits _ _ _ := True
  forces _ _ _ _ := True
  le_refl := .refl
  le_trans h h' := h.trans h'
  alloc_mono h hc := Nat.lt_of_lt_of_le hc h.length_le
  pre_mono {op _ _ _} h hpre := by
    refine ⟨hpre.1.mono h.toLe, hpre.2.1, ?_⟩
    cases op with
    | considerCompute n => exact h.settled n hpre.2.2
    | _ => exact hpre.2.2
  post_mono {op _ _ _} h hpost := by
    cases op with
    | exec n =>
      obtain ⟨a, ha, hreplies⟩ := hpost
      exact ⟨a, ha, hreplies.mono h⟩
    | checkDep node dep eagerly =>
      obtain ⟨x, hx, hchecked⟩ := hpost
      exact ⟨x, hx, hchecked.mono h⟩
    | considerCompute n =>
      obtain ⟨o, ho, hcurrent, hcyclic⟩ := hpost
      exact ⟨o, ho, fun hnone => h.isCurrent (hcurrent hnone), hcyclic⟩
    | restore n | compute n => exact hpost
  forcedPost_mono h hpost := by
    obtain ⟨hheld, phase, n, res, hop, hr, hc, hres⟩ := hpost
    exact ⟨fun hheld' => hheld (h.held _ hc.lt hheld'), phase, n, res, hop, hr, h.isComputation hc,
      hres.mono h.toLe⟩
  waits_mono _ h := h
  forces_mono _ h := h

variable {D S ι requests} {st own : List Nat} {Q : Reply N V X → Store N V X → Prop}
  {σ : Store N V X} {n : N}

omit [DecidableEq N] [DecidableEq X] in
theorem ends_of_peek {c : Nat} {phase : Phase} {res : Result N}
    (hvalid : σ.Valid S ι requests) (hc : σ.IsComputation c n phase)
    (hpeek : σ.peek c = some res) : Ends (Cyclic S ι requests) n phase σ res := by
  refine ⟨hvalid.inv.peek hc hpeek, ?_⟩
  rintro cycle rfl
  obtain ⟨x, hx, -, -⟩ := hc
  unfold Store.peek at hpeek
  rw [hx] at hpeek
  exact hvalid.works.cancelled c x cycle hx hpeek

omit [DecidableEq N] [DecidableEq X] in
theorem checked_depChangedOrNot {node dep : N} (hvalid : σ.Valid S ι requests)
    (hdep : σ.Current dep) :
    Checked (Cyclic S ι requests) node dep σ (σ.depChangedOrNot node dep) := by
  unfold Store.depChangedOrNot
  split
  · trivial
  · next hstamp =>
    have hchanged := hvalid.cached.changed dep
    rw [hdep.validated] at hchanged
    exact ⟨hdep, hchanged, Int.not_lt.mp hstamp⟩

theorem evalLogic_nodes : NodeLogic (evalLogic D S ι requests)
    (fun st n σ => σ.Chain S ι st n ∧ Demanded S ι requests n) (Cyclic S ι requests) where
  inv := Store.Valid.inv
  le := Store.Keeps.toLe
  le_same := Store.SameNodes.keeps
  alloc := rfl
  held := rfl
  waits _ _ _ := trivial
  stack_mono hle hst := ⟨hst.1.mono hle, hst.2⟩
  peek := ends_of_peek
  addPathTo hvalid hst hc := hvalid.addPathTo D hst.1 hc
  start {σ _ n phase state} hvalid hst hstart := by
    have hc : (σ.start n phase state).IsComputation σ.computations.length n phase :=
      Store.isComputation_start
    exact ⟨hstart.keeps, hstart.valid hvalid hst.2, trivial, hstart.held_new, phase, n, rfl, hc,
      hst.1.mono hstart.le, hst.2⟩
  fill {σ c _ _ res} hvalid hc hends := ⟨Store.keeps_fill σ c res, hvalid.fill hc hends.1 hends.2⟩
  forcedPost {phase n _ _ _} hc := by
    constructor
    · rintro ⟨hnot, phase', n', res, hop, rfl, hc', hends⟩
      obtain ⟨rfl, rfl⟩ := hc.unique hc'
      exact ⟨hnot, res, rfl, hends⟩
    · rintro ⟨hnot, res, rfl, hends⟩
      exact ⟨hnot, phase, n, res, rfl, rfl, hc, hends⟩
  execValue hn hx := ⟨_, rfl, hn, hx⟩
  execCycle _ _ _ hcyclic := ⟨_, rfl, hcyclic⟩
  checkStamps _ hvalid hdep := ⟨_, rfl, checked_depChangedOrNot hvalid hdep⟩
  checkChanged _ _ _ _ := ⟨_, rfl, trivial⟩
  checkCycle _ _ _ _ _ hcyclic := ⟨_, rfl, hcyclic⟩
  computePre hst hn := ⟨hst.1, hst.2, hn⟩
  computePost := Iff.rfl

/-! ## Checking the dependencies of a node -/

variable {node : N}

/-- What the check of dependencies finds. -/
def Walked (cyclic : Prop) (node : N) (ns : List N) (σ : Store N V X) (r : ChangedOrNot N) : Prop :=
  (r = .unchanged → ∀ m ∈ ns, Checked cyclic node m σ .unchanged) ∧
    ∀ cycle, r = .cancelled cycle → cyclic

variable {rs : List (Reply N V X)}

section Walked

omit [DecidableEq N] [DecidableEq X]

variable {cyclic : Prop} {ns ns' : List N} {r r' : ChangedOrNot N}

theorem Walked.mono {σ' : Store N V X} (hle : σ.Keeps σ') (h : Walked cyclic node ns σ r) :
    Walked cyclic node ns σ' r :=
  ⟨fun hr m hm => (h.1 hr m hm).mono hle, h.2⟩

theorem Walked.append (h : Walked cyclic node ns σ .unchanged) (h' : Walked cyclic node ns' σ r) :
    Walked cyclic node (ns ++ ns') σ r := by
  refine ⟨fun hr m hm => ?_, h'.2⟩
  rcases mem_append.mp hm with hm | hm
  · exact h.1 rfl m hm
  · exact h'.1 hr m hm

/-- Sections that have been checked concurrently are unchanged when all of them are. -/
theorem Walked.combine (h : Walked cyclic node ns σ r) (h' : Walked cyclic node ns' σ r') :
    Walked cyclic node (ns ++ ns') σ (r.combine r') := by
  cases r with
  | unchanged =>
    cases r' with
    | unchanged => exact h.append h'
    | changed => exact ⟨nofun, nofun⟩
    | cancelled cycle => exact ⟨nofun, fun _ _ => h'.2 cycle rfl⟩
  | changed =>
    cases r' with
    | unchanged | changed => exact ⟨nofun, nofun⟩
    | cancelled cycle => exact ⟨nofun, fun _ _ => h'.2 cycle rfl⟩
  | cancelled cycle => exact ⟨nofun, fun _ _ => h.2 cycle rfl⟩

def SectionWalked (cyclic : Prop) (node : N) (d : Deps N) (r : Reply N V X) (σ : Store N V X) :
    Prop :=
  ∃ x, r = .changedOrNot x ∧ Walked cyclic node d.nodes σ x

theorem exists_reduce {l : List (Deps N)}
    (h : List.Forall₂ (fun P r => P r σ) (l.map (SectionWalked cyclic node)) rs) :
    ∃ x, ChangedOrNot.reduce rs = some x ∧ Walked cyclic node (Deps.nodesAll l) σ x := by
  induction l generalizing rs with
  | nil =>
    cases h
    exact ⟨_, rfl, fun _ => nofun, nofun⟩
  | cons d l ih =>
    cases h with
    | cons hr hrs =>
      obtain ⟨x, hx, hwalked⟩ := ih hrs
      obtain ⟨y, rfl, hy⟩ := hr
      exact ⟨y.combine x, by rw [ChangedOrNot.reduce, hx]; rfl, hy.combine hwalked⟩

end Walked

section Walk

variable {node : N} {C : N → Prop} {c : Nat}

mutual

/-- The check of the dependencies of a node that is being restored. It goes on in the order of
demand: `hC` says that a dependency which is unchanged has the result that the node has read. -/
theorem safe_changedOrNot {σ : Store N V X} {own : List Nat}
    {Q : Reply N V X → Store N V X → Prop} (eagerly : Bool) (d : Deps N)
    {k : ChangedOrNot N → MemoCode N V X} (hvalid : σ.Valid S ι requests)
    (hd : Demanded S ι requests node) (hst : ∀ m, Needs S ι node m → σ.Chain S ι st m)
    (hguarded : d.Guarded (Needs S ι node) C)
    (hC : ∀ m ∈ d.nodes, ∀ σ', (evalLogic D S ι requests).Rely st σ σ' → σ'.Valid S ι requests →
      Checked (Cyclic S ι requests) node m σ' .unchanged → C m)
    (hk : ∀ r σ', (evalLogic D S ι requests).Rely st σ σ' → σ'.Valid S ι requests →
      Walked (Cyclic S ι requests) node d.nodes σ' r →
      (k r).Safe (evalLogic D S ι requests) st own Q σ') :
    (changedOrNot node eagerly d k).Safe (evalLogic D S ι requests) st own Q σ := by
  match d with
  | .empty => exact hk .unchanged σ (.refl _ _) hvalid ⟨fun _ => nofun, nofun⟩
  | .singleton dep =>
    refine ⟨⟨hst dep hguarded, hd.needs hguarded, trivial⟩, fun r σ' hrely hvalid' hpost => ?_⟩
    obtain ⟨x, rfl, hchecked⟩ := hpost
    refine hk x σ' hrely hvalid' ⟨?_, ?_⟩
    · rintro rfl m hm
      cases mem_singleton.mp hm
      exact hchecked
    · rintro cycle rfl
      exact hchecked
  | .seq l => exact safe_changedOrNotSeq l hvalid hd hst hguarded hC hk
  | .par l =>
    refine ⟨l.map (SectionWalked (Cyclic S ι requests) node), fun P hP r => ?_,
      safe_changedOrNotPar l hvalid hd hst hguarded hC, fun rs σ' hrely hvalid' hrs => ?_⟩
    · obtain ⟨d, -, rfl⟩ := mem_map.mp hP
      rintro σ σ' hle ⟨x, hx, hwalked⟩
      exact ⟨x, hx, hwalked.mono hle⟩
    · obtain ⟨x, hx, hwalked⟩ := exists_reduce hrs
      rw [withReduced, hx]
      exact hk x σ' hrely hvalid' hwalked

theorem safe_changedOrNotSeq {σ : Store N V X} {own : List Nat}
    {Q : Reply N V X → Store N V X → Prop} (l : List (Deps N))
    {k : ChangedOrNot N → MemoCode N V X} (hvalid : σ.Valid S ι requests)
    (hd : Demanded S ι requests node) (hst : ∀ m, Needs S ι node m → σ.Chain S ι st m)
    (hguarded : Deps.GuardedSeq (Needs S ι node) C l)
    (hC : ∀ m ∈ Deps.nodesAll l, ∀ σ', (evalLogic D S ι requests).Rely st σ σ' →
      σ'.Valid S ι requests → Checked (Cyclic S ι requests) node m σ' .unchanged → C m)
    (hk : ∀ r σ', (evalLogic D S ι requests).Rely st σ σ' → σ'.Valid S ι requests →
      Walked (Cyclic S ι requests) node (Deps.nodesAll l) σ' r →
      (k r).Safe (evalLogic D S ι requests) st own Q σ') :
    (changedOrNotSeq node l k).Safe (evalLogic D S ι requests) st own Q σ := by
  match l with
  | [] => exact hk .unchanged σ (.refl _ _) hvalid ⟨fun _ => nofun, nofun⟩
  | d :: l =>
    apply safe_changedOrNot false d hvalid hd hst hguarded.1
    · exact fun m hm => hC m (mem_append_left _ hm)
    intro r σ' hrely hvalid' hwalked
    cases r with
    | unchanged =>
      -- the next sections are demanded because this one has the results that the node has read
      apply safe_changedOrNotSeq l hvalid' hd fun m hm => (hst m hm).mono hrely.le.toLe
      · exact hguarded.2 fun m hm =>
          hC m (mem_append_left _ hm) σ' hrely hvalid' (hwalked.1 rfl m hm)
      · exact fun m hm σ'' hrely' => hC m (mem_append_right _ hm) σ'' (hrely.trans hrely')
      · exact fun r σ'' hrely' hvalid'' hwalked' =>
          hk r σ'' (hrely.trans hrely') hvalid'' ((hwalked.mono hrely'.le).append hwalked')
    | changed => exact hk _ σ' hrely hvalid' ⟨nofun, nofun⟩
    | cancelled cycle => exact hk _ σ' hrely hvalid' ⟨nofun, fun _ _ => hwalked.2 cycle rfl⟩

theorem safe_changedOrNotPar {σ : Store N V X} (l : List (Deps N))
    (hvalid : σ.Valid S ι requests) (hd : Demanded S ι requests node)
    (hst : ∀ m, Needs S ι node m → σ.Chain S ι st m)
    (hguarded : Deps.GuardedPar (Needs S ι node) C l)
    (hC : ∀ m ∈ Deps.nodesAll l, ∀ σ', (evalLogic D S ι requests).Rely st σ σ' →
      σ'.Valid S ι requests → Checked (Cyclic S ι requests) node m σ' .unchanged → C m) :
    Code.AllSafe (evalLogic D S ι requests) (changedOrNotPar node l) st
      (l.map (SectionWalked (Cyclic S ι requests) node)) σ := by
  match l with
  | [] => exact rfl
  | d :: l =>
    refine ⟨_, _, rfl, ?_, safe_changedOrNotPar l hvalid hd hst hguarded.2 fun m hm =>
      hC m (mem_append_right _ hm)⟩
    apply safe_changedOrNot _ d hvalid hd hst hguarded.1
    · exact fun m hm => hC m (mem_append_left _ hm)
    · exact fun r σ' _ _ hwalked => ⟨r, rfl, hwalked⟩

end

end Walk

omit [DecidableEq N] [DecidableEq X] in
/-- The start of a restoration: the node has nothing to restore, or its dependencies decide. -/
theorem startRestore_cases (n : N) (σ : Store N V X) :
    startRestore n σ = .changedOrNot .changed ∨
      ∃ x, (σ.node n).value = .ofResult x ∧ Reproducible x ∧
        ((σ.node n).deps = .empty ∧ startRestore n σ = .changedOrNot .unchanged ∨
          (σ.node n).deps ≠ .empty ∧ startRestore n σ = .deps (σ.node n).deps) := by
  have hdeps : (σ.node n).deps.isEmpty = true ↔ (σ.node n).deps = .empty := by
    cases (σ.node n).deps <;> simp [Deps.isEmpty]
  unfold startRestore
  split
  · exact .inl rfl
  · exact .inl rfl
  · next v hv =>
    refine .inr ⟨.ok v, hv, trivial, ?_⟩
    split
    · next h => exact .inl ⟨hdeps.mp h, rfl⟩
    · next h => exact .inr ⟨fun he => h (hdeps.mpr he), rfl⟩
  · next exns hv =>
    refine .inr ⟨.error ⟨exns, true⟩, hv, rfl, ?_⟩
    split
    · next h => exact .inl ⟨hdeps.mp h, rfl⟩
    · next h => exact .inr ⟨fun he => h (hdeps.mpr he), rfl⟩

section Held

variable {c : Nat} {σ' : Store N V X}

/-- A node that is being restored is not touched. -/
theorem restoring_kept (hvalid : σ.Valid S ι requests) (hvalid' : σ'.Valid S ι requests)
    (hc : σ.IsComputation c n .restoreFromCache) (hheld : σ.Held c)
    (hrely : (evalLogic D S ι requests).Rely (c :: st) σ σ') :
    (σ'.node n).state = .restoring c ∧ Node.SameRecord (σ.node n) (σ'.node n) ∧
      (σ.node n).lastValidatedAt < σ.run := by
  have hstate := hvalid.inv.restoring_of_held hc hheld
  have hstate' := hvalid'.inv.restoring_of_held (hrely.le.isComputation hc)
    (hrely.held c mem_cons_self hheld)
  have hstale {τ : Store N V X} (hτ : τ.Valid S ι requests) (h : (τ.node n).state = .restoring c) :
      (τ.node n).lastValidatedAt ≠ τ.run := by
    intro heq
    rw [hτ.inv.current n heq] at h
    cases h
  refine ⟨hstate', ?_, lt_of_le_of_ne (hvalid.inv.validated n) (hstale hvalid hstate)⟩
  rcases hrely.le.record n with hsame | ⟨hvalidated, -⟩
  · exact hsame
  · rw [← hrely.le.run] at hvalidated
    exact absurd hvalidated (hstale hvalid' hstate')

omit [DecidableEq N] [DecidableEq X] in
/-- A dependency that is unchanged has the result that the node has read. -/
theorem eval_of_checked (hvalid' : σ'.Valid S ι requests) (hle : σ.Keeps σ')
    {α : N → Except (Errors N X) V} {m : N} {v : V}
    (hstale : (σ.node n).lastValidatedAt < σ.run)
    (hsame : Node.SameRecord (σ.node n) (σ'.node n))
    (hα : (σ.node m).lastChangedAt ≤ (σ.node n).lastValidatedAt →
      (σ.node m).value.get? = some (α m))
    (hchecked : Checked (Cyclic S ι requests) n m σ' .unchanged) (hv : α m = .ok v) :
    Eval S ι m (.ok v) := by
  obtain ⟨hcurrent, -, hstamp⟩ := hchecked
  rw [hsame.lastValidatedAt] at hstamp
  obtain ⟨hvalue, hchanged⟩ := hle.value_eq (n := m) (by omega)
  obtain ⟨x, hx, hseen⟩ := hvalid'.inv.answer hcurrent
  rw [hchanged] at hstamp
  have hget := hα hstamp
  rw [← hvalue, hx, Value.get?_ofResult, hv] at hget
  cases seen_eq_ok (Option.some.inj hget)
  rcases hvalid'.cached.answered m _ hcurrent hx with heval | ⟨⟨e, he⟩, -⟩
  · exact heval
  · cases he

end Held

/-! ## Running a function -/

section Functions

omit [DecidableEq N] [DecidableEq X]

/-- The reads of a current node that did not fail. -/
theorem eval_of_answer (hvalid : σ.Valid S ι requests) (hn : σ.Current n) {v : V}
    (hv : σ.answer n = .ok v) : Eval S ι n (.ok v) := by
  obtain ⟨x, hx, hseen⟩ := hvalid.inv.answer hn
  cases seen_eq_ok (hseen.trans hv)
  rcases hvalid.cached.answered n _ hn hx with heval | ⟨⟨e, he⟩, -⟩
  · exact heval
  · cases he

variable {p : Prog N V X} {ps : List (Prog N V X)} {k : List (Except (Errors N X) V) → Prog N V X}
  {excuse : Prop} {collector collector' : List (Deps N)} {r : Except (Errors N X) V}

theorem reads_raises {e : Errors N X} (h : Prog.Raises e p) (m : N) : ¬Reads S ι p m := by
  obtain ⟨e', rfl, -⟩ := h
  exact nofun

theorem propagates_raises {e : Errors N X} (h : Prog.Raises e p) : p.Propagates := by
  obtain ⟨e', rfl, -⟩ := h
  exact .ret _

theorem reads_after_read {k : Except (Errors N X) V → Prog N V X}
    (hp : (read n k).Propagates) (hvalid : σ.Valid S ι requests) (hn : σ.Current n) :
    (k (σ.answer n)).Propagates ∧
      ∀ m, Reads S ι (k (σ.answer n)) m → Reads S ι (.read n k) m := by
  cases hp with
  | read herror hok =>
    cases hx : σ.answer n with
    | error e => exact ⟨propagates_raises (herror e),
        fun m hm => absurd hm (reads_raises (herror e) m)⟩
    | ok v => exact ⟨hok v, fun m hm => .read (eval_of_answer hvalid hn hx) hm⟩

theorem reads_after_par (hp : (par ps k).Propagates) (hvalid : σ.Valid S ι requests)
    (hreads : ∀ m ∈ readsAll σ.answer ps, σ.Current m) :
    (k (results σ.answer ps)).Propagates ∧
      ∀ m, Reads S ι (k (results σ.answer ps)) m → Reads S ι (.par ps k) m := by
  cases hp with
  | par hps herror hok =>
    rcases results_cases (results σ.answer ps) with ⟨vs, hvs⟩ | ⟨e, he⟩
    · obtain ⟨heval, hresults⟩ := eval_of_results_ok hps hvs fun m hm v hv =>
        eval_of_answer hvalid (hreads m hm) hv
      rw [hvs]
      refine ⟨hok vs, fun m hm => ?_⟩
      rw [← hresults] at hm
      exact .par σ.answer heval hm
    · have hraises := herror _ e he
      exact ⟨propagates_raises hraises, fun m hm => absurd hm (reads_raises hraises m)⟩

/-- Threads have run: they have read nodes that are current now, or one has failed because of a
cycle. -/
def RanAll (excuse : Prop) (ps : List (Prog N V X)) (σ : Store N V X)
    (rs : List (Except (Errors N X) V)) (threads : List (Deps N)) : Prop :=
  rs = results σ.answer ps ∧ threads = allSections σ.answer ps ∧
      (∀ m ∈ readsAll σ.answer ps, σ.Current m) ∨
    (∃ e, .error e ∈ rs ∧ e.reproducible = false) ∧ excuse

def ThreadRan (excuse : Prop) (p : Prog N V X) (r : Reply N V X) (σ : Store N V X) : Prop :=
  ∃ x collector, r = .thread x collector ∧ Store.Ran excuse p [] σ x collector

theorem exists_threadResults (h : List.Forall₂ (fun P r => P r σ) (ps.map (ThreadRan excuse)) rs) :
    ∃ x, threadResults rs = some x ∧ RanAll excuse ps σ x.1 x.2 := by
  induction ps generalizing rs with
  | nil =>
    cases h
    exact ⟨_, rfl, .inl ⟨rfl, rfl, nofun⟩⟩
  | cons p ps ih =>
    cases h with
    | cons hr hrs =>
      obtain ⟨x, hx, hall⟩ := ih hrs
      obtain ⟨y, collector, rfl, hran⟩ := hr
      refine ⟨(y :: x.1, .toStatic collector :: x.2), by rw [threadResults, hx]; rfl, ?_⟩
      rcases hran with ⟨hy, hcollector, hreads⟩ | ⟨⟨e, rfl, he⟩, hexcuse⟩
      · rcases hall with ⟨hrs, hthreads, hreadsAll⟩ | ⟨⟨e, hmem, he⟩, hexcuse⟩
        · refine .inl ⟨by rw [hy, hrs]; rfl, ?_, fun m hm => ?_⟩
          · rw [hthreads, hcollector, Deps.toStatic, append_nil, reverse_reverse]
            rfl
          · exact (mem_append.mp hm).elim (hreads m) (hreadsAll m)
        · exact .inr ⟨⟨e, mem_cons_of_mem _ hmem, he⟩, hexcuse⟩
      · exact .inr ⟨⟨e, mem_cons_self, he⟩, hexcuse⟩

theorem ran_read {k : Except (Errors N X) V → Prog N V X} (hn : σ.Current n)
    (h : Store.Ran excuse (k (σ.answer n)) (.singleton n :: collector) σ r collector') :
    Store.Ran excuse (.read n k) collector σ r collector' := by
  refine h.imp_left ?_
  rintro ⟨hr, hcollector, hreads⟩
  refine ⟨hr, ?_, forall_mem_cons.mpr ⟨hn, hreads⟩⟩
  rw [hcollector, Prog.sections, reverse_cons, append_assoc]
  rfl

theorem ran_one (hreads : ∀ m ∈ p.reads σ.answer, σ.Current m)
    (h : Store.Ran excuse (k [p.result σ.answer])
      ((p.sections σ.answer).reverse ++ collector) σ r collector') :
    Store.Ran excuse (.par [p] k) collector σ r collector' := by
  refine h.imp_left ?_
  rintro ⟨hr, hcollector, hreads'⟩
  refine ⟨hr, ?_, fun m hm => ?_⟩
  · rw [hcollector, Prog.sections, reverse_append, append_assoc]
  · rw [reads, readsAll, readsAll, append_nil] at hm
    exact (mem_append.mp hm).elim (hreads m) (hreads' m)

theorem ran_par {q : Prog N V X}
    (hreads : ∀ m ∈ Prog.readsAll σ.answer (p :: q :: ps), σ.Current m)
    (h : Store.Ran excuse (k (Prog.results σ.answer (p :: q :: ps)))
      (Deps.appendPar collector (Prog.allSections σ.answer (p :: q :: ps))) σ r collector') :
    Store.Ran excuse (.par (p :: q :: ps) k) collector σ r collector' := by
  refine h.imp_left ?_
  rintro ⟨hr, hcollector, hreads'⟩
  refine ⟨hr, ?_, fun m hm => (mem_append.mp hm).elim (hreads m) (hreads' m)⟩
  rw [hcollector, Prog.sections, reverse_append, Deps.appendPar_eq, append_assoc]
  all_goals exact nofun

end Functions

mutual

/-- A function reads nodes that are demanded, and returns what it returns on their values. -/
theorem safe_runProg {σ : Store N V X} {own : List Nat} {Q : Reply N V X → Store N V X → Prop}
    (p : Prog N V X) (hp : p.Propagates) (collector : List (Deps N))
    {k : Except (Errors N X) V → List (Deps N) → MemoCode N V X} (hvalid : σ.Valid S ι requests)
    (hreads : ∀ m, Reads S ι p m → σ.Chain S ι st m ∧ Demanded S ι requests m)
    (hk : ∀ r collector' σ', (evalLogic D S ι requests).Rely st σ σ' → σ'.Valid S ι requests →
      Store.Ran (Cyclic S ι requests) p collector σ' r collector' →
      (k r collector').Safe (evalLogic D S ι requests) st own Q σ') :
    (runProg p collector k).Safe (evalLogic D S ι requests) st own Q σ := by
  match p with
  | .ret r => exact hk r collector σ (.refl _ _) hvalid (.inl ⟨rfl, rfl, nofun⟩)
  | .read n kp =>
    obtain ⟨hchain, hdemanded⟩ := hreads n .here
    refine ⟨⟨hchain, hdemanded, trivial⟩, fun r σ' hrely hvalid' hpost => ?_⟩
    obtain ⟨a, rfl, hreplies⟩ := hpost
    cases a with
    | value x =>
      obtain ⟨hcurrent, hget⟩ := hreplies
      have hx : x = σ'.answer n :=
        (Option.some.inj ((hvalid'.inv.get?_answer hcurrent).symm.trans hget)).symm
      obtain ⟨hpx, hreadsx⟩ := reads_after_read hp hvalid' hcurrent
      apply safe_runProg (kp x) (hx ▸ hpx) _ hvalid'
      · rw [hx]
        exact fun m hm => ⟨(hreads m (hreadsx m hm)).1.mono hrely.le.toLe,
          (hreads m (hreadsx m hm)).2⟩
      · intro r collector' σ'' hrely' hvalid'' hran
        apply hk r collector' σ'' (hrely.trans hrely') hvalid''
        rw [hx, ← hrely'.le.answer hcurrent] at hran
        exact ran_read (hrely'.le.isCurrent hcurrent) hran
    | cycle cycle =>
      cases hp with
      | read herror _ =>
        obtain ⟨e', heq, he'⟩ := herror (cancelled cycle)
        simp only [Reply.withAnswer, heq, runProg]
        exact hk _ _ σ' hrely hvalid' (.inr ⟨⟨e', rfl, he' rfl⟩, hreplies⟩)
  | .par [] kp =>
    obtain ⟨hpx, hreadsx⟩ := reads_after_par hp hvalid nofun
    apply safe_runProg (kp []) hpx collector hvalid fun m hm => hreads m (hreadsx m hm)
    exact fun r collector' σ' hrely hvalid' hran => hk r collector' σ' hrely hvalid' hran
  | .par [p] kp =>
    have hpp : p.Propagates := by
      cases hp with
      | par hps _ _ => exact hps p (mem_singleton_self p)
    apply safe_runProg p hpp collector hvalid fun m hm =>
      hreads m (.thread (mem_singleton_self p) hm)
    intro x collector₁ σ' hrely hvalid' hran
    rcases hran with ⟨rfl, rfl, hcurrent⟩ | ⟨⟨e, rfl, he⟩, hcyclic⟩
    · have hall : ∀ m ∈ readsAll σ'.answer [p], σ'.Current m := by
        rwa [readsAll, readsAll, append_nil]
      obtain ⟨hpx, hreadsx⟩ := reads_after_par hp hvalid' hall
      apply safe_runProg (kp [p.result σ'.answer]) hpx _ hvalid'
      · exact fun m hm => ⟨(hreads m (hreadsx m hm)).1.mono hrely.le.toLe,
          (hreads m (hreadsx m hm)).2⟩
      · intro r collector' σ'' hrely' hvalid'' hran
        obtain ⟨hresult, heq, hsections⟩ := p.congr (α := σ'.answer) (β := σ''.answer) fun m hm _ =>
          (hrely'.le.answer (hcurrent m hm)).symm
        apply hk r collector' σ'' (hrely.trans hrely') hvalid''
        rw [hresult, hsections] at hran
        exact ran_one (fun m hm => hrely'.le.isCurrent (hcurrent m (heq ▸ hm))) hran
    · cases hp with
      | par _ herror _ =>
        obtain ⟨e', heq, he'⟩ := herror [.error e] e (mem_singleton_self _)
        rw [heq]
        exact hk _ _ σ' hrely hvalid' (.inr ⟨⟨e', rfl, he' he⟩, hcyclic⟩)
  | .par (p :: q :: ps) kp =>
    have hps : ∀ p' ∈ p :: q :: ps, p'.Propagates := by
      cases hp with
      | par hps _ _ => exact hps
    refine ⟨(p :: q :: ps).map (ThreadRan (Cyclic S ι requests)), fun P hP r => ?_,
      safe_runThreads (p :: q :: ps) hps hvalid fun p' hp' m hm => hreads m (.thread hp' hm),
      fun rs σ' hrely hvalid' hrs => ?_⟩
    · obtain ⟨p', -, rfl⟩ := mem_map.mp hP
      rintro σ σ' hle ⟨x, collector, hx, hran⟩
      exact ⟨x, collector, hx, hran.mono hle.toLe⟩
    · obtain ⟨⟨xs, threads⟩, hx, hall⟩ := exists_threadResults hrs
      rw [withThreads, hx]
      rcases hall with ⟨rfl, rfl, hcurrent⟩ | ⟨⟨e, hmem, he⟩, hcyclic⟩
      · obtain ⟨hpx, hreadsx⟩ := reads_after_par hp hvalid' hcurrent
        apply safe_runProg (kp (results σ'.answer (p :: q :: ps))) hpx _ hvalid'
        · exact fun m hm => ⟨(hreads m (hreadsx m hm)).1.mono hrely.le.toLe,
            (hreads m (hreadsx m hm)).2⟩
        · intro r collector' σ'' hrely' hvalid'' hran
          obtain ⟨hresults, heq, hsections⟩ := congrAll (α := σ'.answer) (β := σ''.answer)
            (p :: q :: ps) fun m hm _ => (hrely'.le.answer (hcurrent m hm)).symm
          apply hk r collector' σ'' (hrely.trans hrely') hvalid''
          rw [hresults, hsections] at hran
          exact ran_par (fun m hm => hrely'.le.isCurrent (hcurrent m (heq ▸ hm))) hran
      · cases hp with
        | par _ herror _ =>
          obtain ⟨e', heq, he'⟩ := herror xs e hmem
          simp only [heq, runProg]
          exact hk _ _ σ' hrely hvalid' (.inr ⟨⟨e', rfl, he' he⟩, hcyclic⟩)

theorem safe_runThreads {σ : Store N V X} (ps : List (Prog N V X))
    (hps : ∀ p ∈ ps, p.Propagates) (hvalid : σ.Valid S ι requests)
    (hreads : ∀ p ∈ ps, ∀ m, Reads S ι p m → σ.Chain S ι st m ∧ Demanded S ι requests m) :
    Code.AllSafe (evalLogic D S ι requests) (runThreads ps) st
      (ps.map (ThreadRan (Cyclic S ι requests))) σ := by
  match ps with
  | [] => exact rfl
  | p :: ps =>
    rw [forall_mem_cons] at hps hreads
    refine ⟨_, _, rfl, ?_, safe_runThreads ps hps.2 hvalid hreads.2⟩
    exact safe_runProg p hps.1 [] hvalid hreads.1 fun r collector σ' _ _ hran =>
      ⟨r, collector, rfl, hran⟩

end

section Operations

variable (hS : S.CutoffExact) (hprop : S.Propagates) {c : Nat}

theorem safe_finishRestore (hc : σ.IsComputation c n .restoreFromCache) (hheld : σ.Held c)
    (hcancelled : ∀ cycle, r = .cancelled cycle → Cyclic S ι requests)
    (hfinish : ∀ σ', (evalLogic D S ι requests).Rely (c :: st) σ σ' → σ'.Valid S ι requests →
      (σ'.node n).state = .restoring c → (finishRestore S n r σ').Valid S ι requests ∧
      Store.Keeps σ' (finishRestore S n r σ')) :
    (Code.update (fun σ => some (finishRestore S n r σ, .result (.restored r))) .ret :
      MemoCode N V X).Safe (evalLogic D S ι requests) (c :: st) [c]
      ((evalLogic D S ι requests).forcedPost (.restore n) c) σ := by
  apply evalLogic_nodes.safe_release hc hheld
  intro σ' hrely hvalid hc' hheld'
  have hstate := hvalid.inv.restoring_of_held hc' hheld'
  have hreleased := released_finishRestore (S := S) hvalid.inv hstate r
  obtain ⟨hvalid', hkeeps⟩ := hfinish σ' hrely hvalid hstate
  refine ⟨hreleased, .inl hstate, hkeeps, hvalid',
    ⟨finishRestore_current, fun _ => hreleased.settled⟩, ?_⟩
  rintro cycle heq
  cases heq
  exact hcancelled cycle rfl

include hS hprop

/-- Restoring a node validates it when its function would read the same. -/
theorem safe_restore (hheld : σ.Held c) (hc : σ.IsComputation c n .restoreFromCache)
    (hst : σ.Chain S ι st n) (hd : Demanded S ι requests n) :
    (restore S n).Safe (evalLogic D S ι requests) (c :: st) [c]
      ((evalLogic D S ι requests).forcedPost (.restore n) c) σ := by
  apply Code.Safe.update
  intro σ₁ hrely hvalid₁
  refine ⟨σ₁, _, rfl, .refl _ _, hvalid₁, fun _ h => h, ?_⟩
  have hc₁ := hrely.le.isComputation hc
  have hheld₁ := hrely.held c mem_cons_self hheld
  have hchain (m : N) (hm : Needs S ι n m) : σ₁.Chain S ι (c :: st) m :=
    ⟨n, _, hc₁, hm, hst.mono hrely.le.toLe⟩
  have hvalidate {x : Except (Errors N X) V} (hx : (σ₁.node n).value = .ofResult x)
      (hr : Reproducible x) {σ₂ : Store N V X}
      (hrely₂ : (evalLogic D S ι requests).Rely (c :: st) σ₁ σ₂) (hvalid₂ : σ₂.Valid S ι requests)
      (hdeps : ∀ m ∈ (σ₁.node n).deps.nodes,
        Checked (Cyclic S ι requests) n m σ₂ .unchanged) :
      (finishRestore S n .unchanged σ₂).Valid S ι requests ∧
        Store.Keeps σ₂ (finishRestore S n .unchanged σ₂) := by
    obtain ⟨hstate, hsame, -⟩ := restoring_kept hvalid₁ hvalid₂ hc₁ hheld₁ hrely₂
    apply hvalid₂.validate hprop hstate (hsame.value.trans hx) hr
    intro m hm
    rw [hsame.deps] at hm
    obtain ⟨hcurrent, -, hstamp⟩ := hdeps m hm
    exact ⟨hcurrent, hstamp⟩
  rcases startRestore_cases n σ₁ with heq | ⟨x, hx, hr, ⟨hempty, heq⟩ | ⟨hne, heq⟩⟩ <;> rw [heq]
  · exact safe_finishRestore (r := .changed) hc₁ hheld₁ nofun fun σ₂ _ hvalid₂ hstate =>
      hvalid₂.outOfDate hstate
  · apply safe_finishRestore (r := .unchanged) hc₁ hheld₁ nofun
    intro σ₂ hrely₂ hvalid₂ _
    apply hvalidate hx hr hrely₂ hvalid₂
    rw [hempty]
    exact nofun
  · -- the function of the node has read its dependencies, so that the check follows its demand
    cases hf : S.f n with
    | var =>
      have hvar := hvalid₁.cached.var n hf (hx ▸ Value.ofResult_ne_uninitialized x)
      exact absurd hvar.1 hne
    | prog p =>
      obtain ⟨α, -, hdeps, hα⟩ := hvalid₁.cached.record n p x hf hx hr
      have hguarded : (σ₁.node n).deps.Guarded (Needs S ι n)
          fun m => ∀ v, α m = .ok v → Eval S ι m (.ok v) := by
        rw [hdeps]
        exact Deps.guarded_flattenSeqs ((hprop n p hf).guarded fun m hm => ⟨p, hf, hm⟩)
      apply safe_changedOrNot false _ hvalid₁ hd hchain hguarded
      · intro m hm σ₂ hrely₂ hvalid₂ hchecked v hv
        obtain ⟨-, hsame, hstale⟩ := restoring_kept hvalid₁ hvalid₂ hc₁ hheld₁ hrely₂
        apply eval_of_checked hvalid₂ hrely₂.le hstale hsame _ hchecked hv
        exact hα m ((Store.mem_nodes_deps hdeps m).mp hm)
      · intro r σ₂ hrely₂ hvalid₂ hwalked
        have hc₂ := hrely₂.le.isComputation hc₁
        have hheld₂ := hrely₂.held c mem_cons_self hheld₁
        apply safe_finishRestore hc₂ hheld₂ hwalked.2
        intro σ₃ hrely₃ hvalid₃ hstate
        cases r with
        | changed => exact hvalid₃.outOfDate hstate
        | cancelled cycle =>
          exact hvalid₃.cancel hS hstate (by rw [hf]; exact nofun) (hwalked.2 cycle rfl) cycle
        | unchanged =>
          apply hvalidate hx hr (hrely₂.trans hrely₃) hvalid₃
          exact fun m hm => (hwalked.1 rfl m hm).mono hrely₃.le

omit [DecidableEq N] [DecidableEq X] hS hprop in
theorem startCompute_cases (S : Spec N V X) (hvalid : σ.Valid S ι requests) :
    S.f n = .var ∧ startCompute S n σ = .thread (.ok (ι n)) [] ∨
      ∃ p, S.f n = .prog p ∧ startCompute S n σ = .run := by
  unfold startCompute
  rw [hvalid.checkPoint, hvalid.inputs]
  cases hf : S.f n with
  | var => exact .inl ⟨rfl, rfl⟩
  | prog p => exact .inr ⟨p, rfl, rfl⟩

theorem safe_finishCompute {r : Except (Errors N X) V} {collector : List (Deps N)}
    (hc : σ.IsComputation c n .compute) (hheld : σ.Held c)
    (hvar : S.f n = .var → collector = [] ∧ r = .ok (ι n))
    (hran : ∀ p, S.f n = .prog p → Store.Ran (Cyclic S ι requests) p [] σ r collector) :
    (Code.update (fun σ => some (finishCompute S n r collector σ, .result .computed)) .ret :
      MemoCode N V X).Safe (evalLogic D S ι requests) (c :: st) [c]
      ((evalLogic D S ι requests).forcedPost (.compute n) c) σ := by
  apply evalLogic_nodes.safe_release hc hheld
  intro σ' hrely hvalid hc' hheld'
  have hstate := hvalid.inv.computing_of_held hc' hheld'
  have hreleased := released_finishCompute (S := S) (σ := σ') (n := n) (c := c) r collector
  obtain ⟨hvalid', hkeeps⟩ := hvalid.finishCompute hS hprop hstate hvar fun p hf =>
    (hran p hf).mono hrely.le.toLe
  exact ⟨hreleased, .inr hstate, hkeeps, hvalid', hreleased.current hstate, nofun⟩

/-- Computing a node gives it the value of its function. -/
theorem safe_compute (hheld : σ.Held c) (hc : σ.IsComputation c n .compute)
    (hst : σ.Chain S ι st n) (hd : Demanded S ι requests n) :
    (compute S n).Safe (evalLogic D S ι requests) (c :: st) [c]
      ((evalLogic D S ι requests).forcedPost (.compute n) c) σ := by
  apply Code.Safe.update
  intro σ₁ hrely hvalid₁
  refine ⟨σ₁, _, rfl, .refl _ _, hvalid₁, fun _ h => h, ?_⟩
  have hc₁ := hrely.le.isComputation hc
  have hheld₁ := hrely.held c mem_cons_self hheld
  rcases startCompute_cases S hvalid₁ with ⟨hf, heq⟩ | ⟨p, hf, heq⟩ <;> rw [heq]
  · apply safe_finishCompute hS hprop hc₁ hheld₁ fun _ => ⟨rfl, rfl⟩
    intro p hf'
    rw [hf] at hf'
    cases hf'
  · simp only [hf]
    apply safe_runProg p (hprop n p hf) [] hvalid₁
    · intro m hm
      have hneeds : Needs S ι n m := ⟨p, hf, hm⟩
      exact ⟨⟨n, _, hc₁, hneeds, hst.mono hrely.le.toLe⟩, hd.needs hneeds⟩
    · intro r collector σ₂ hrely₂ _ hran
      apply safe_finishCompute hS hprop (hrely₂.le.isComputation hc₁)
        (hrely₂.held c mem_cons_self hheld₁)
      · intro hf'
        rw [hf] at hf'
        cases hf'
      · intro p' hf'
        rw [hf] at hf'
        cases hf'
        exact hran

theorem evalLogic_sound : (evalLogic D S ι requests).Sound where
  called op st σ _ hpre := by
    cases op with
    | exec n => exact evalLogic_nodes.safe_exec ⟨hpre.1, hpre.2.1⟩
    | checkDep node dep eagerly => exact evalLogic_nodes.safe_checkDep ⟨hpre.1, hpre.2.1⟩
    | considerCompute n => exact evalLogic_nodes.safe_considerCompute ⟨hpre.1, hpre.2.1⟩ hpre.2.2
    | restore n | compute n => exact hpre.2.2.elim
  forced op c st σ _ hpre := by
    obtain ⟨hheld, phase, n, rfl, hc, hst, hd⟩ := hpre
    cases phase with
    | restoreFromCache => exact safe_restore hS hprop hheld hc hst hd
    | compute => exact safe_compute hS hprop hheld hc hst hd

end Operations

end Logic

end Dune.Memo.Consistency
