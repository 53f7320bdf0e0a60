import Dune.Memo.NodeLogic
import Dune.Task.Schedule

/-!
# Safety of the state machine of Memo

The operations on nodes meet specifications in terms of the states of the nodes
(`stateLogic_nodes`). So no assertion of the source fails in any interleaving: a node that is to be
computed is neither being restored nor cached and stale, and it is cached and current once it has
been computed.
-/

namespace Dune.Memo

open List Dune.Task

variable {N V X : Type} [DecidableEq N] [DecidableEq X]

section Walks

/-- A family of properties of codes that the check of dependencies and the run of a function hand
on. The sections that are checked concurrently have one of them, and the threads another. -/
structure Walks (ops : Op N → Prop) {ι : Type} (Φ : ι → MemoCode N V X → Prop)
    (checked thread : ι) : Prop where
  retSection : ∀ r, Φ checked (.ret (.changedOrNot r))
  retThread : ∀ r collector, Φ thread (.ret (.thread r collector))
  checkDep : ∀ {i node dep eagerly k}, ops (.checkDep node dep eagerly) → (∀ r, Φ i (k r)) →
    Φ i (.call (.checkDep node dep eagerly) (Reply.withChangedOrNot k))
  exec : ∀ {i n collector k}, ops (.exec n) → (∀ r collector, Φ i (k r collector)) →
    Φ i (.call (.exec n) (Reply.withAnswer n collector k))
  sections : ∀ {i cs k}, (∀ code ∈ cs, Φ checked code) → (∀ r, Φ i (k r)) →
    Φ i (.par cs (withReduced k))
  threads : ∀ {i cs k}, (∀ code ∈ cs, Φ thread code) → (∀ rs ds, Φ i (k rs ds)) →
    Φ i (.par cs (withThreads k))

namespace Walks

omit [DecidableEq N] [DecidableEq X]

variable {ops : Op N → Prop} {ι : Type} {Φ : ι → MemoCode N V X → Prop} {checked thread : ι}
  {node : N} (h : Walks ops Φ checked thread)

include h

section

variable (hop : ∀ dep eagerly, ops (.checkDep node dep eagerly))

include hop

set_option linter.unusedSectionVars false in
mutual

theorem changedOrNot (eagerly : Bool) (d : Deps N) {i : ι} {k : ChangedOrNot N → MemoCode N V X}
    (hk : ∀ r, Φ i (k r)) : Φ i (changedOrNot node eagerly d k) := by
  match d with
  | .empty => exact hk .unchanged
  | .singleton dep => exact h.checkDep (hop dep eagerly) hk
  | .seq l => exact changedOrNotSeq l hk
  | .par l => exact h.sections (changedOrNotPar l) hk

theorem changedOrNotSeq (l : List (Deps N)) {i : ι} {k : ChangedOrNot N → MemoCode N V X}
    (hk : ∀ r, Φ i (k r)) : Φ i (changedOrNotSeq node l k) := by
  match l with
  | [] => exact hk .unchanged
  | d :: l =>
    apply changedOrNot false d
    intro r
    cases r with
    | unchanged => exact changedOrNotSeq l hk
    | changed | cancelled cycle => exact hk _

theorem changedOrNotPar (l : List (Deps N)) : ∀ code ∈ changedOrNotPar node l, Φ checked code := by
  match l with
  | [] => exact nofun
  | d :: l => exact forall_mem_cons.mpr ⟨changedOrNot _ d h.retSection, changedOrNotPar l⟩

end

end

variable (hop : ∀ n, ops (.exec n))

include hop

set_option linter.unusedSectionVars false in
mutual

theorem runProg (p : Prog N V X) (collector : List (Deps N)) {i : ι}
    {k : Except (Errors N X) V → List (Deps N) → MemoCode N V X}
    (hk : ∀ r collector, Φ i (k r collector)) : Φ i (runProg p collector k) := by
  match p with
  | .ret r => exact hk r collector
  | .read n kp => exact h.exec (hop n) fun r collector => runProg (kp r) collector hk
  | .par [] kp => exact runProg (kp []) collector hk
  | .par [p] kp => exact runProg p collector fun r collector => runProg (kp [r]) _ hk
  | .par (p :: q :: ps) kp =>
    exact h.threads (runThreads (p :: q :: ps)) fun rs _ => runProg (kp rs) _ hk

theorem runThreads (ps : List (Prog N V X)) : ∀ code ∈ runThreads ps, Φ thread code := by
  match ps with
  | [] => exact nofun
  | p :: ps => exact forall_mem_cons.mpr ⟨runProg p [] h.retThread, runThreads ps⟩

end

end Walks

end Walks

section Logic

variable (D : CycleDetection) (S : Spec N V X)

/-- What the operations expect and ensure of the states of the nodes. -/
def stateLogic : Logic (machine D S) where
  inv := Store.Inv
  le := Store.Le
  alloc σ c := c < σ.computations.length
  held := Store.Held
  pre op st σ := σ.StackOk st ∧
    match op with
    | .exec _ | .checkDep _ _ _ => True
    | .considerCompute n => σ.Settled n
    | .restore _ | .compute _ => False
  post op r σ :=
    match op with
    | .exec _ => ∃ a, r = .answer a
    | .checkDep _ _ _ => ∃ x, r = .changedOrNot x
    | .considerCompute n => ∃ o, r = .computed o ∧ (o = none → σ.Current n)
    | .restore _ | .compute _ => False
  forcedPre op c st σ := σ.StackOk (c :: st) ∧ σ.Held c ∧
    ∃ phase n, op = Phase.op phase n ∧ σ.IsComputation c n phase
  forcedPost op c r σ := ¬σ.Held c ∧
    ∃ phase n res, op = Phase.op phase n ∧ r = .result res ∧ σ.IsComputation c n phase ∧
      σ.ResultOk n phase res
  waits _ _ _ := True
  forces _ _ _ _ := True
  le_refl := .refl
  le_trans h h' := h.trans h'
  alloc_mono h hc := Nat.lt_of_lt_of_le hc h.length_le
  pre_mono {op _ _ _} h hpre := by
    refine ⟨h.stackOk hpre.1, ?_⟩
    cases op with
    | considerCompute n => exact h.settled n hpre.2
    | _ => exact hpre.2
  post_mono {op _ _ _} h hpost := by
    cases op with
    | considerCompute n =>
      obtain ⟨o, ho, hcurrent⟩ := hpost
      exact ⟨o, ho, fun hnone => h.isCurrent (hcurrent hnone)⟩
    | _ => exact hpost
  forcedPost_mono h hpost := by
    obtain ⟨hheld, phase, n, res, hop, hr, hc, hres⟩ := hpost
    exact ⟨fun hheld' => hheld (h.held _ hc.lt hheld'), phase, n, res, hop, hr, h.isComputation hc,
      h.resultOk hres⟩
  waits_mono _ h := h
  forces_mono _ h := h

/-- Any cycle may be found. -/
theorem stateLogic_nodes : NodeLogic (stateLogic D S) (fun st _ σ => σ.StackOk st) True where
  inv := id
  le := id
  le_same := Store.SameNodes.le
  alloc := rfl
  held := rfl
  waits _ _ _ := trivial
  stack_mono hle hst := hle.stackOk hst
  peek hinv hc hpeek := ⟨hinv.peek hc hpeek, fun _ _ => trivial⟩
  addPathTo {_ _ c _ _} hinv hst _ := by
    obtain ⟨σ', o, heq, hsame, hrec⟩ := Store.addPathTo_spec D c hst hinv.recorded
    exact ⟨σ', o, heq, hsame, hsame.inv hinv hrec, fun _ => trivial⟩
  start {σ _ n phase state} hinv hst hstart := by
    have hc : (σ.start n phase state).IsComputation σ.computations.length n phase :=
      Store.isComputation_start
    exact ⟨hstart.le, hstart.inv hinv, trivial,
      forall_mem_cons.mpr ⟨hc.lt, hstart.le.stackOk hst⟩, hstart.held_new, phase, n, rfl, hc⟩
  fill {σ c _ _ res} hinv hc hends := ⟨Store.le_fill σ c res, Store.inv_fill hinv hc hends.1⟩
  forcedPost {phase n _ _ _} hc := by
    constructor
    · rintro ⟨hnot, phase', n', res, hop, rfl, hc', hres⟩
      obtain ⟨rfl, rfl⟩ := hc.unique hc'
      exact ⟨hnot, res, rfl, hres, fun _ _ => trivial⟩
    · rintro ⟨hnot, res, rfl, hres, -⟩
      exact ⟨hnot, phase, n, res, rfl, rfl, hc, hres⟩
  execValue _ _ := ⟨_, rfl⟩
  execCycle _ _ _ _ := ⟨_, rfl⟩
  checkStamps _ _ _ := ⟨_, rfl⟩
  checkChanged _ _ _ _ := ⟨_, rfl⟩
  checkCycle _ _ _ _ _ _ := ⟨_, rfl⟩
  computePre hst hn := ⟨hst, hn⟩
  computePost {_ _ _} := by
    constructor
    · rintro ⟨o, ho, hcurrent⟩
      exact ⟨o, ho, hcurrent, fun _ => trivial⟩
    · rintro ⟨o, ho, hcurrent, -⟩
      exact ⟨o, ho, hcurrent⟩

variable {D S} {st : List Nat} {σ : Store N V X} {c : Nat} {n : N} {rs : List (Reply N V X)}

omit [DecidableEq N] [DecidableEq X] in
theorem exists_reduce (h : ∀ r ∈ rs, ∃ x, r = .changedOrNot x) :
    ∃ x, ChangedOrNot.reduce rs = some x := by
  induction rs with
  | nil => exact ⟨_, rfl⟩
  | cons r rs ih =>
    rw [forall_mem_cons] at h
    obtain ⟨x, hx⟩ := ih h.2
    obtain ⟨y, rfl⟩ := h.1
    exact ⟨y.combine x, by rw [ChangedOrNot.reduce, hx]; rfl⟩

omit [DecidableEq N] [DecidableEq X] in
theorem exists_threadResults (h : ∀ r ∈ rs, ∃ x col, r = .thread x col) :
    ∃ x, threadResults rs = some x := by
  induction rs with
  | nil => exact ⟨_, rfl⟩
  | cons r rs ih =>
    rw [forall_mem_cons] at h
    obtain ⟨x, hx⟩ := ih h.2
    obtain ⟨y, col, rfl⟩ := h.1
    exact ⟨(y :: x.1, .toStatic col :: x.2), by rw [threadResults, hx]; rfl⟩

/-- Safety in all stores that others reach from one with the call stack. -/
theorem stateLogic_walks (hst : σ.StackOk st) : Walks (fun _ => True)
    (fun (i : List Nat × (Reply N V X → Store N V X → Prop)) code =>
      ∀ σ', (stateLogic D S).Rely st σ σ' → σ'.Inv → code.Safe (stateLogic D S) st i.1 i.2 σ')
    ([], fun r _ => ∃ x, r = .changedOrNot x) ([], fun r _ => ∃ x col, r = .thread x col) where
  retSection r _ _ _ := ⟨r, rfl⟩
  retThread r col _ _ _ := ⟨r, col, rfl⟩
  checkDep _ hk σ' hrely _ := by
    refine ⟨⟨hrely.le.stackOk hst, trivial⟩, fun r σ'' hrely' hinv' hpost => ?_⟩
    obtain ⟨x, rfl⟩ := hpost
    exact hk x σ'' (hrely.trans hrely') hinv'
  exec _ hk σ' hrely _ := by
    refine ⟨⟨hrely.le.stackOk hst, trivial⟩, fun r σ'' hrely' hinv' hpost => ?_⟩
    obtain ⟨a, rfl⟩ := hpost
    cases a with
    | value r => exact hk r _ σ'' (hrely.trans hrely') hinv'
    | cycle cycle => exact hk _ _ σ'' (hrely.trans hrely') hinv'
  sections hcs hk σ' hrely hinv := by
    apply Code.Safe.par fun code hcode => hcs code hcode σ' hrely hinv
    intro rs σ'' hrely' hinv' hrs
    obtain ⟨x, hx⟩ := exists_reduce hrs
    rw [withReduced, hx]
    exact hk x σ'' (hrely.trans hrely') hinv'
  threads hcs hk σ' hrely hinv := by
    apply Code.Safe.par fun code hcode => hcs code hcode σ' hrely hinv
    intro rs σ'' hrely' hinv' hrs
    obtain ⟨x, hx⟩ := exists_threadResults hrs
    rw [withThreads, hx]
    exact hk x.1 x.2 σ'' (hrely.trans hrely') hinv'

omit [DecidableEq N] [DecidableEq X] in
theorem startRestore_cases (n : N) (σ : Store N V X) :
    (∃ r, startRestore n σ = .changedOrNot r) ∨ startRestore n σ = .deps (σ.node n).deps := by
  unfold startRestore
  split
  · exact .inl ⟨_, rfl⟩
  · exact .inl ⟨_, rfl⟩
  all_goals
    split
    · exact .inl ⟨_, rfl⟩
    · exact .inr rfl

theorem safe_restore (hst : σ.StackOk (c :: st)) (hheld : σ.Held c)
    (hc : σ.IsComputation c n .restoreFromCache) :
    (restore S n).Safe (stateLogic D S) (c :: st) [c]
      ((stateLogic D S).forcedPost (.restore n) c) σ := by
  have hfinish (r : ChangedOrNot N) (σ₁ : Store N V X)
      (hrely : (stateLogic D S).Rely (c :: st) σ σ₁) :
      (Code.update (fun σ => some (finishRestore S n r σ, .result (.restored r))) .ret :
        MemoCode N V X).Safe (stateLogic D S) (c :: st) [c]
        ((stateLogic D S).forcedPost (.restore n) c) σ₁ := by
    apply (stateLogic_nodes D S).safe_release (hrely.le.isComputation hc)
      (hrely.held c mem_cons_self hheld)
    intro σ₂ _ hinv hc₂ hheld₂
    have hstate := hinv.restoring_of_held hc₂ hheld₂
    have hreleased := released_finishRestore (S := S) hinv hstate r
    exact ⟨hreleased, .inl hstate, hreleased.le (.inl hstate), hreleased.inv hinv (.inl hstate),
      ⟨finishRestore_current, fun _ => hreleased.settled⟩, fun _ _ => trivial⟩
  apply Code.Safe.update
  intro σ₁ hrely hinv
  refine ⟨σ₁, _, rfl, .refl _ _, hinv, fun _ h => h, ?_⟩
  rcases startRestore_cases n σ₁ with ⟨r, heq⟩ | heq <;> rw [heq]
  · exact hfinish r σ₁ hrely
  · apply (stateLogic_walks hst).changedOrNot (i := ([c], _)) (fun _ _ => trivial) false _ _ σ₁
      hrely hinv
    exact fun r σ₂ hrely' _ => hfinish r σ₂ hrely'

omit [DecidableEq N] [DecidableEq X] in
theorem startCompute_cases (S : Spec N V X) (n : N) (σ : Store N V X) :
    (∃ r, startCompute S n σ = .thread r []) ∨
      ∃ p, S.f n = .prog p ∧ startCompute S n σ = .run := by
  unfold startCompute
  split
  · exact .inl ⟨_, rfl⟩
  · split
    · exact .inl ⟨_, rfl⟩
    · next p hf => exact .inr ⟨p, hf, rfl⟩

theorem safe_compute (hst : σ.StackOk (c :: st)) (hheld : σ.Held c)
    (hc : σ.IsComputation c n .compute) :
    (compute S n).Safe (stateLogic D S) (c :: st) [c]
      ((stateLogic D S).forcedPost (.compute n) c) σ := by
  have hfinish (r : Except (Errors N X) V) (collector : List (Deps N)) (σ₁ : Store N V X)
      (hrely : (stateLogic D S).Rely (c :: st) σ σ₁) :
      (Code.update (fun σ => some (finishCompute S n r collector σ, .result .computed)) .ret :
        MemoCode N V X).Safe (stateLogic D S) (c :: st) [c]
        ((stateLogic D S).forcedPost (.compute n) c) σ₁ := by
    apply (stateLogic_nodes D S).safe_release (hrely.le.isComputation hc)
      (hrely.held c mem_cons_self hheld)
    intro σ₂ _ hinv hc₂ hheld₂
    have hstate := hinv.computing_of_held hc₂ hheld₂
    have hreleased := released_finishCompute (S := S) (σ := σ₂) (n := n) (c := c) r collector
    exact ⟨hreleased, .inr hstate, hreleased.le (.inr hstate), hreleased.inv hinv (.inr hstate),
      hreleased.current hstate, fun _ _ => trivial⟩
  apply Code.Safe.update
  intro σ₁ hrely hinv
  refine ⟨σ₁, _, rfl, .refl _ _, hinv, fun _ h => h, ?_⟩
  rcases startCompute_cases S n σ₁ with ⟨r, heq⟩ | ⟨p, hf, heq⟩ <;> rw [heq]
  · exact hfinish r [] σ₁ hrely
  · simp only [hf]
    apply (stateLogic_walks hst).runProg (i := ([c], _)) (fun _ => trivial) p [] _ σ₁ hrely hinv
    exact fun r col σ₂ hrely' _ => hfinish r col σ₂ hrely'

theorem stateLogic_sound : (stateLogic D S).Sound where
  called op st σ _ hpre := by
    cases op with
    | exec n => exact (stateLogic_nodes D S).safe_exec hpre.1
    | checkDep node dep eagerly => exact (stateLogic_nodes D S).safe_checkDep hpre.1
    | considerCompute n => exact (stateLogic_nodes D S).safe_considerCompute hpre.1 hpre.2
    | restore n | compute n => exact hpre.2.elim
  forced op c st σ _ hpre := by
    obtain ⟨hst, hheld, phase, n, rfl, hc⟩ := hpre
    cases phase with
    | restoreFromCache => exact safe_restore hst hheld hc
    | compute => exact safe_compute hst hheld hc

end Logic

/-- The states that Memo reaches, with the tasks that it runs then. A request is started when the
one before it has returned. The check point may start or stop to raise at any time. -/
inductive Reachable (D : CycleDetection) (S : Spec N V X) :
    Store N V X → Tree (Store N V X) (Reply N V X) Nat (Op N) → Prop
  | init (inputs : N → V) : Reachable D S (.init inputs) (.leaf (.ret .run))
  | request {σ r} (p : Prog N V X) : Reachable D S σ (.leaf (.ret r)) →
      Reachable D S { σ with cycleError := none } (request p)
  | step {σ t σ' t'} : Reachable D S σ t → Step (machine D S) [] σ t σ' t' → Reachable D S σ' t'
  | cancel {σ t} (checkPoint : Option (Errors N X)) : Reachable D S σ t →
      Reachable D S { σ with checkPoint } t
  | reset {σ r σ'} (invalidation : List N) (inputs : N → V) : Reachable D S σ (.leaf (.ret r)) →
      Memo.reset invalidation inputs σ = some σ' → Reachable D S σ' (.leaf (.ret r))

/-- What holds between two requests. -/
structure Store.Idle (σ : Store N V X) : Prop where
  run : 0 ≤ σ.run
  validated : ∀ n, (σ.node n).lastValidatedAt ≤ σ.run
  initialized : ∀ n, (σ.node n).value = .uninitialized → (σ.node n).state ≠ .cached
  held : ∀ c, ¬σ.Held c

section Idle

omit [DecidableEq X]

variable {σ σ' : Store N V X}

/-- Between two requests, every node can be invalidated. -/
theorem Store.Idle.invalidate (h : σ.Idle) (n : N) :
    ∃ σ', Memo.invalidate n σ = some σ' ∧ σ'.Idle := by
  have hset : (σ.setState n .notCached).Idle := by
    refine ⟨h.run, fun m => ?_, fun m hm => ?_, fun c => ?_⟩
    · simp only [Store.setState, Store.setNode]
      split
      · exact h.validated n
      · exact h.validated m
    · simp only [Store.setState, Store.setNode] at hm ⊢
      split
      · exact State.noConfusion
      · next hmn =>
        rw [if_neg hmn] at hm
        exact h.initialized m hm
    · rintro ⟨m, hm⟩
      simp only [Store.setState, Store.setNode] at hm
      split at hm
      · rcases hm with hm | hm <;> cases hm
      · exact h.held c ⟨m, hm⟩
  unfold Memo.invalidate
  cases hstate : (σ.node n).state with
  | cached | outOfDate => exact ⟨_, rfl, hset⟩
  | notCached => exact ⟨σ, rfl, h⟩
  | restoring c => exact absurd ⟨n, .inl hstate⟩ (h.held c)
  | computing c => exact absurd ⟨n, .inr hstate⟩ (h.held c)

theorem Store.Idle.execute (h : σ.Idle) (ns : List N) :
    ∃ σ', Memo.execute ns σ = some σ' ∧ σ'.Idle := by
  induction ns generalizing σ with
  | nil => exact ⟨σ, rfl, h⟩
  | cons n ns ih =>
    obtain ⟨σ₁, heq, h₁⟩ := h.invalidate n
    obtain ⟨σ', heq', h'⟩ := ih h₁
    exact ⟨σ', by rw [Memo.execute, heq]; exact heq', h'⟩

omit [DecidableEq N] in
/-- No node is current in a run that has just begun. -/
theorem Store.Idle.inv (h : σ.Idle) (inputs : N → V) : Store.Inv
    { σ with cycleError := none, run := σ.run + 1, inputs, computations := [], dag := [] } where
  run := by
    have := h.run
    simp only
    omega
  validated n := by
    have := h.validated n
    simp only
    omega
  current n hn := by
    have := h.validated n
    simp only at hn
    omega
  initialized n hn := ⟨h.initialized n hn, fun c hc => h.held c ⟨n, .inl hc⟩⟩
  restoring n c hc := absurd ⟨n, .inl hc⟩ (h.held c)
  computing n c hc := absurd ⟨n, .inr hc⟩ (h.held c)
  result _ _ _ hx := nomatch hx
  recorded _ _ hfc := nomatch hfc

end Idle

section Runs

variable {σ σ' : Store N V X}

/-- What holds of the state of Memo together with the tasks. -/
structure Consistent (D : CycleDetection) (S : Spec N V X) (σ : Store N V X)
    (t : Tree (Store N V X) (Reply N V X) Nat (Op N)) : Prop where
  inv : σ.Inv
  owns : t.Owns (stateLogic D S) [] σ
  held : ∀ c, σ.Held c → c ∈ t.owned
  safe : t.Safe (stateLogic D S) [] [] (fun _ _ => True) σ

variable {D : CycleDetection} {S : Spec N V X} {t : Tree (Store N V X) (Reply N V X) Nat (Op N)}

theorem Consistent.leaf {code : MemoCode N V X} (hinv : σ.Inv) (hheld : ∀ c, ¬σ.Held c)
    (hsafe : code.Safe (stateLogic D S) [] [] (fun _ _ => True) σ) :
    Consistent D S σ (.leaf code) :=
  ⟨hinv, ⟨nodup_nil, nofun⟩, fun c hc => absurd hc (hheld c), hsafe⟩

theorem Consistent.idle {r : Reply N V X} (h : Consistent D S σ (.leaf (.ret r))) : σ.Idle :=
  ⟨h.inv.run, h.inv.validated, fun n hn => (h.inv.initialized n hn).1,
    fun c hc => nomatch h.held c hc⟩

theorem Consistent.sameNodes (h : Consistent D S σ t) (hsame : Store.SameNodes σ σ')
    (hrec : σ'.Recorded) : Consistent D S σ' t where
  inv := hsame.inv h.inv hrec
  owns := ⟨h.owns.nodup, fun c hc => (stateLogic D S).alloc_mono hsame.le (h.owns.alloc c hc)⟩
  held c hc := h.held c (hsame.symm.held hc)
  safe := Tree.Safe.mono t ⟨hsame.le, fun _ _ => hsame.held⟩
    (fun _ => Logic.stable_const _ True) h.safe

theorem consistent_init (inputs : N → V) (r : Reply N V X) :
    Consistent D S (.init inputs) (.leaf (.ret r)) := by
  have hinv : (Store.init inputs : Store N V X).Inv := by
    refine ⟨Int.le_refl 0, fun n => Int.negSucc_le_zero 0, fun n hn => ?_, fun n _ => ?_, ?_, ?_,
      ?_, ?_⟩
    · cases hn
    · exact ⟨State.noConfusion, fun _ => State.noConfusion⟩
    all_goals exact nofun
  refine .leaf hinv ?_ trivial
  rintro c ⟨n, hn | hn⟩ <;> cases hn

theorem Consistent.step {t' : Tree (Store N V X) (Reply N V X) Nat (Op N)}
    (h : Consistent D S σ t) (hstep : Step (machine D S) [] σ t σ' t') : Consistent D S σ' t' := by
  obtain ⟨hkept, hsafe⟩ := Tree.Safe.step stateLogic_sound hstep
    (fun _ => Logic.stable_const _ True) h.inv h.owns h.safe
  refine ⟨hkept.inv, hkept.owns h.owns, fun c hc => ?_, hsafe⟩
  rcases hkept.held c hc with hold | hnew
  · by_contra hnot
    exact hkept.released c (h.held c hold) hnot hc
  · exact hnew

theorem Reachable.consistent (h : Reachable D S σ t) : Consistent D S σ t := by
  induction h with
  | init inputs => exact consistent_init inputs _
  | @request σ r p _ ih =>
    have hsame : Store.SameNodes σ { σ with cycleError := none } := ⟨rfl, rfl, rfl, fun _ => rfl⟩
    have hinv := hsame.inv ih.inv ih.inv.recorded
    have hst : Store.StackOk { σ with cycleError := none } [] := nofun
    apply Consistent.leaf hinv ih.idle.held
    apply (stateLogic_walks hst).runProg (i := ([], _)) (fun _ => trivial) p [] _ _ (.refl _ _) hinv
    exact fun _ _ _ _ _ => trivial
  | step _ hstep ih => exact ih.step hstep
  | cancel checkPoint _ ih => exact ih.sameNodes ⟨rfl, rfl, rfl, fun _ => rfl⟩ ih.inv.recorded
  | reset invalidation inputs _ hreset ih =>
    obtain ⟨σ₁, heq, hidle⟩ := ih.idle.execute invalidation
    rw [Memo.reset, heq] at hreset
    cases hreset
    exact .leaf (hidle.inv inputs) hidle.held trivial

end Runs

/-- `consider_and_compute_without_adding_dep` is not entered on a node that is being restored, and
on a cached node only after it has been validated in the current run. When it returns without a
cycle error, the node is cached and validated in the current run. -/
theorem considerCompute_safe {D : CycleDetection} {S : Spec N V X} {σ : Store N V X}
    {t : Tree (Store N V X) (Reply N V X) Nat (Op N)} (h : Reachable D S σ t) (st : List Nat)
    (n : N) (k : Reply N V X → MemoCode N V X) :
    (Tree.Active [] t st (.bind (.considerCompute n) (.leaf (considerCompute D n)) k) →
      (∀ c, (σ.node n).state ≠ .restoring c) ∧
        ((σ.node n).state = .cached → (σ.node n).lastValidatedAt = σ.run)) ∧
    (Tree.Active [] t st (.bind (.considerCompute n) (.leaf (.ret (.computed none))) k) →
      (σ.node n).state = .cached ∧ (σ.node n).lastValidatedAt = σ.run) := by
  have hconsistent := h.consistent
  refine ⟨fun hactive => ?_, fun hactive => ?_⟩
  · obtain ⟨own, P, hbind⟩ := hconsistent.safe.active hactive
    obtain ⟨σ', o, hstep, -⟩ := hbind.1 σ (.refl _ _) hconsistent.inv
    simp only [considerAndCompute] at hstep
    refine ⟨fun c hstate => ?_, fun hstate => ?_⟩
    · rw [hstate] at hstep
      cases hstep
    · rw [hstate] at hstep
      simp only at hstep
      split at hstep
      · next hcurrent => exact of_decide_eq_true hcurrent
      · cases hstep
  · obtain ⟨o, ho, hcurrent⟩ := hconsistent.safe.post hactive
    cases ho
    exact ⟨(hcurrent rfl).state, (hcurrent rfl).validated⟩

section Single

omit [DecidableEq N] [DecidableEq X] in
/-- A computation that reads its own node finds a cycle. -/
theorem considerAndCompute_self [DecidableEq N] (D : CycleDetection) {σ : Store N V X} {n : N}
    {c : Nat} (rest : List Nat) (hstate : (σ.node n).state = .computing c)
    (hpeek : σ.peek c = none) (herror : σ.cycleError = none)
    (hchildren : σ.childrenAddedToDag c = []) (hdag : (c, c) ∉ σ.dag) :
    ∃ cycle, considerAndCompute D n (c :: rest) σ =
      some ({ σ with cycleError := some cycle }, .done (.computed (some cycle))) := by
  rcases D.addAssumingMissing_cases hdag with ⟨cycle, hadd, -⟩ | ⟨-, hreach⟩
  · refine ⟨σ.cycleValues cycle, ?_⟩
    simp [considerAndCompute, hstate, readButFirstCheckForCycles, hpeek, Store.addPathTo, herror,
      Store.addPathImpl, hchildren, hadd]
  · exact absurd .refl hreach

def single (f : Fn Unit Unit Unit) : Spec Unit Unit Unit := ⟨fun _ => f, fun _ => none⟩

variable (D : CycleDetection) (f : Fn Unit Unit Unit)

def singleForced : Store Unit Unit Unit :=
  (Store.init fun _ => ()).start () .compute (.computing 0)

theorem single_enters : ∃ k k', Reachable D (single f) (.init fun _ => ())
    (.bind (.exec ()) (.bind (.considerCompute ()) (.leaf (considerCompute D ())) k) k') := by
  have h₁ := (Reachable.init (D := D) (S := single f) fun _ => ()).request (.read () .ret)
  have h₂ := h₁.step (.head .call)
  have h₃ := h₂.step (.bind (.head (.atomic rfl)))
  exact ⟨_, _, h₃.step (.bind (.head .call))⟩

theorem single_forces : ∃ k k' kf, kf (.result .computed) = .ret (.computed none) ∧
    Reachable D (single f) singleForced (.bind (.exec ()) (.bind (.considerCompute ())
      (.forced 0 (.compute ()) (.leaf (compute (single f) ())) kf) k) k') := by
  obtain ⟨k, k', h⟩ := single_enters D f
  exact ⟨k, k', _, rfl, h.step (.bind (.bind (.head (.force rfl))))⟩

theorem single_returns : ∃ σ k k', Reachable D (single .var) σ
    (.bind (.exec ()) (.bind (.considerCompute ()) (.leaf (.ret (.computed none))) k) k') := by
  obtain ⟨k, k', kf, hkf, h⟩ := single_forces D .var
  have h₁ := Tree.run?_keeps (P := Reachable D (single .var)) (replicate 3 []) .step h rfl
  rw [hkf] at h₁
  exact ⟨_, _, _, h₁⟩

/-- A node that reads itself: its computation returns a cycle error to itself and goes on. -/
theorem considerCompute_returns_while_computing :
    ∃ σ t st cycle k, Reachable CycleDetection.search (single (.prog (.read () .ret))) σ t ∧
      Tree.Active [] t st
        (.bind (.considerCompute ()) (.leaf (.ret (.computed (some cycle)))) k) ∧
      (σ.node ()).state = .computing 0 := by
  obtain ⟨k, k', kf, -, h⟩ := single_forces .search (.prog (.read () .ret))
  obtain ⟨cycle, heq⟩ := considerAndCompute_self CycleDetection.search (σ := singleForced)
    (n := ()) (c := 0) [] rfl rfl rfl rfl not_mem_nil
  have h₁ := Tree.run?_keeps (P := Reachable .search _) (replicate 4 []) .step h rfl
  have h₂ := h₁.step (.bind (.bind (.forced (.bind (.bind (.head (.atomic heq)))))))
  exact ⟨_, _, [0], cycle, _, h₂, .bind (.bind (.forced (.bind .here))), rfl⟩

/-- Reading a variable enters and leaves its computation. -/
theorem considerCompute_safe_single :
    ∃ σ t σ' t' k k', Reachable CycleDetection.search (single .var) σ t ∧
      Tree.Active [] t [] (.bind (.considerCompute ()) (.leaf (considerCompute .search ())) k) ∧
      ((∀ c, (σ.node ()).state ≠ .restoring c) ∧
        ((σ.node ()).state = .cached → (σ.node ()).lastValidatedAt = σ.run)) ∧
      Reachable CycleDetection.search (single .var) σ' t' ∧
      Tree.Active [] t' [] (.bind (.considerCompute ()) (.leaf (.ret (.computed none))) k') ∧
      (σ'.node ()).state = .cached ∧ (σ'.node ()).lastValidatedAt = σ'.run := by
  obtain ⟨k, _, h⟩ := single_enters .search .var
  obtain ⟨σ', k', _, h'⟩ := single_returns .search
  exact ⟨_, _, _, _, k, k', h, .bind .here, (considerCompute_safe h [] () k).1 (.bind .here), h',
    .bind .here, (considerCompute_safe h' [] () k').2 (.bind .here)⟩

end Single

end Dune.Memo
