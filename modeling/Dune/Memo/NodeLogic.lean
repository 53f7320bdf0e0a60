import Dune.Memo.States

/-!
# Logics of nodes

The operations on nodes meet specifications in terms of the states of the nodes, in the logic of
tasks. What these need of a logic is stated once (`NodeLogic`): the order of its stores keeps what
every step keeps, a call stack fits the node that is evaluated on it, and a cycle is found only if
there is one.
-/

namespace Dune.Memo

open List Dune.Task Store

variable {N V X : Type} [DecidableEq N] [DecidableEq X] {σ' σ : Store N V X}

section Released

variable {S : Spec N V X} {σ : Store N V X} {n : N} {c : Nat}

theorem Spec.valueChanged_uninitialized (value : Value N V X) :
    S.valueChanged n .uninitialized value = true := by
  cases value <;> rfl

attribute [local simp] validateValue setNode

theorem released_updateValue {value : Value N V X} (hvalue : value ≠ .uninitialized)
    (deps : Deps N) : Store.Released σ c n (S.updateValue n value deps σ) := by
  refine ⟨rfl, rfl, rfl, fun m hmn => ?_, .inl ⟨⟨?_, ?_⟩, ?_⟩⟩
  · simp only [Spec.updateValue, validateValue, setNode, if_neg hmn]
  · simp [Spec.updateValue]
  · simp [Spec.updateValue]
  · simp only [Spec.updateValue, validateValue, setNode, ↓reduceIte]
    split
    · exact hvalue
    · next hchanged =>
      intro heq
      rw [heq, Spec.valueChanged_uninitialized] at hchanged
      exact hchanged rfl

theorem released_finishRestore (hinv : σ.Inv) (hn : (σ.node n).state = .restoring c)
    (r : ChangedOrNot N) : Store.Released σ c n (finishRestore S n r σ) := by
  cases r with
  | unchanged =>
    refine ⟨rfl, rfl, rfl, fun m hmn => if_neg hmn, .inl ⟨⟨?_, ?_⟩, ?_⟩⟩
    · simp [finishRestore]
    · simp [finishRestore]
    · simp only [finishRestore, validateValue, setNode, ↓reduceIte]
      exact fun hvalue => (hinv.initialized n hvalue).2 c hn
  | changed => exact ⟨rfl, rfl, rfl, fun m hmn => if_neg hmn, .inr ⟨hn, if_pos rfl⟩⟩
  | cancelled cycle =>
    apply released_updateValue
    exact nofun

theorem finishRestore_current {r : ChangedOrNot N} (hr : r = .unchanged) :
    (finishRestore S n r σ).Current n := by
  subst hr
  refine ⟨?_, ?_⟩ <;>
    simp [finishRestore]

theorem released_finishCompute (r : Except (Errors N X) V) (collector : List (Deps N)) :
    Store.Released σ c n (finishCompute S n r collector σ) := by
  unfold finishCompute
  split
  · apply released_updateValue
    exact nofun
  · next e =>
    have hvalue : (Value.error e : Value N V X) ≠ .uninitialized := nofun
    split
    · exact released_updateValue hvalue _
    · obtain ⟨hrun, hcomputations, hdag, hother, hself⟩ :=
        @released_updateValue N V X _ _ S
          { σ with lastSawNonReproducibleExnAt := σ.run } n c _ hvalue
          (.toStatic collector)
      exact ⟨hrun, hcomputations, hdag, hother, hself⟩

omit [DecidableEq N] [DecidableEq X] in
theorem Store.Released.current (h : Store.Released σ c n σ')
    (hstate : (σ.node n).state = .computing c) : σ'.Current n := by
  rcases h.self with ⟨hcurrent, -⟩ | ⟨hrestoring, -⟩
  · exact hcurrent
  · rw [hstate] at hrestoring
    cases hrestoring

end Released

/-! ## Specifications -/

def Phase.op : Phase → N → Op N
  | .restoreFromCache, n => .restore n
  | .compute, n => .compute n

/-- How a computation has left its node. -/
def Consistency.Ends (cyclic : Prop) (n : N) (phase : Phase) (σ : Store N V X) (res : Result N) :
    Prop :=
  σ.ResultOk n phase res ∧ ∀ cycle, res = .restored (.cancelled cycle) → cyclic

open Consistency (Ends)

/-- What a logic says about nodes. `stack` holds of the call stacks on which a node is evaluated,
and `cyclic` when a cycle is found. -/
structure NodeLogic {D : CycleDetection} {S : Spec N V X} (L : Logic (machine D S))
    (stack : List Nat → N → Store N V X → Prop) (cyclic : Prop) : Prop where
  inv : ∀ {σ}, L.inv σ → σ.Inv
  le : ∀ {σ σ'}, L.le σ σ' → σ.Le σ'
  le_same : ∀ {σ σ'}, Store.SameNodes σ σ' → L.le σ σ'
  alloc : L.alloc = fun σ c => c < σ.computations.length
  held : L.held = Store.Held
  waits : ∀ st c σ, L.waits st c σ
  stack_mono : ∀ {st n σ σ'}, σ.Le σ' → stack st n σ → stack st n σ'
  peek : ∀ {σ c n phase res}, L.inv σ → σ.IsComputation c n phase → σ.peek c = some res →
    Ends cyclic n phase σ res
  addPathTo : ∀ {σ st c n phase}, L.inv σ → stack st n σ → σ.IsComputation c n phase →
    ∃ σ' o, σ.addPathTo D st c = some (σ', o) ∧ Store.SameNodes σ σ' ∧ L.inv σ' ∧
      (o ≠ none → cyclic)
  start : ∀ {σ st n phase state}, L.inv σ → stack st n σ → Store.CanStart σ n phase state →
    L.le σ (σ.start n phase state) ∧ L.inv (σ.start n phase state) ∧
      L.forces st σ.computations.length (Phase.op phase n) (σ.start n phase state) ∧
      L.forcedPre (Phase.op phase n) σ.computations.length st (σ.start n phase state)
  fill : ∀ {σ c n phase res}, L.inv σ → σ.IsComputation c n phase → Ends cyclic n phase σ res →
    L.le σ (σ.fill c res) ∧ L.inv (σ.fill c res)
  forcedPost : ∀ {phase n c r σ}, σ.IsComputation c n phase →
    (L.forcedPost (Phase.op phase n) c r σ ↔
      ¬σ.Held c ∧ ∃ res, r = .result res ∧ Ends cyclic n phase σ res)
  execValue : ∀ {n x σ}, σ.Current n → (σ.node n).value.get? = some x →
    L.post (.exec n) (.answer (.value x)) σ
  execCycle : ∀ n cycle σ, cyclic → L.post (.exec n) (.answer (.cycle cycle)) σ
  checkStamps : ∀ {node dep σ} e, L.inv σ → σ.Current dep →
    L.post (.checkDep node dep e) (.changedOrNot (σ.depChangedOrNot node dep)) σ
  checkChanged : ∀ node dep e σ, L.post (.checkDep node dep e) (.changedOrNot .changed) σ
  checkCycle : ∀ node dep e cycle σ, cyclic →
    L.post (.checkDep node dep e) (.changedOrNot (.cancelled cycle)) σ
  computePre : ∀ {n st σ}, stack st n σ → σ.Settled n → L.pre (.considerCompute n) st σ
  computePost : ∀ {n r σ}, L.post (.considerCompute n) r σ ↔
    ∃ o, r = .computed o ∧ (o = none → σ.Current n) ∧ (o ≠ none → cyclic)

variable {res : Result N}

omit [DecidableEq N] [DecidableEq X] in
theorem Consistency.Ends.mono {cyclic : Prop} {n : N} {phase : Phase} (hle : σ.Le σ')
    (h : Ends cyclic n phase σ res) : Ends cyclic n phase σ' res :=
  ⟨hle.resultOk h.1, h.2⟩

omit [DecidableEq N] [DecidableEq X] in
theorem getValue_of_current {n : N} (hinv : σ.Inv) (hn : σ.Current n) :
    ∃ x, (σ.node n).value.get? = some x ∧ getValue n σ = some (σ, .answer (.value x)) := by
  unfold getValue
  cases hvalue : (σ.node n).value with
  | ok v => exact ⟨.ok v, rfl, rfl⟩
  | error e => exact ⟨.error { e with reproducible := true }, rfl, rfl⟩
  | uninitialized => exact absurd hn.state (hinv.initialized n hvalue).1

namespace NodeLogic

variable {D : CycleDetection} {S : Spec N V X} {L : Logic (machine D S)}
  {stack : List Nat → N → Store N V X → Prop} {cyclic : Prop} (h : NodeLogic L stack cyclic)
  {st own : List Nat} {Q : Reply N V X → Store N V X → Prop} {σ : Store N V X} {n node dep : N}
  {c : Nat} {phase : Phase} {K KF : Reply N V X → Store N V X → Prop} {eagerly : Bool}

include h

/-- Reading a computation of a node gives its result, blocks on it or finds a cycle. -/
theorem allows_read {stop : List N → Reply N V X} (hinv : L.inv σ) (hst : stack st n σ)
    (hc : σ.IsComputation c n phase)
    (hresult : ∀ res σ', L.le σ σ' → L.inv σ' → Ends cyclic n phase σ' res → K (.result res) σ')
    (hblocked : ∀ σ', L.le σ σ' → L.inv σ' → σ'.IsComputation c n phase → K (.blocked c) σ')
    (hstop : ∀ cycle σ', L.le σ σ' → L.inv σ' → cyclic → K (stop cycle) σ') :
    L.Allows st own K KF σ (readButFirstCheckForCycles D c stop st σ) := by
  unfold readButFirstCheckForCycles
  cases hpeek : σ.peek c with
  | some res =>
    exact ⟨σ, _, rfl, .refl _ _, hinv, fun _ h => h,
      hresult res σ (L.le_refl σ) hinv (h.peek hinv hc hpeek)⟩
  | none =>
    obtain ⟨σ', o, heq, hsame, hinv', hcyclic⟩ := h.addPathTo hinv hst hc
    have hle := h.le_same hsame
    have hguar : L.Guarantee own σ σ' := ⟨hle, fun _ _ => by rw [h.held]; exact hsame.held⟩
    have hheld : ∀ c, L.held σ' c → L.held σ c := by
      rw [h.held]
      exact fun _ => hsame.symm.held
    simp only [heq]
    cases o with
    | none =>
      exact ⟨σ', _, rfl, hguar, hinv', hheld, hblocked σ' hle hinv' (hsame.isComputation hc)⟩
    | some cycle =>
      exact ⟨σ', _, rfl, hguar, hinv', hheld, hstop cycle σ' hle hinv' (hcyclic nofun)⟩

theorem allows_start {state : State} (hinv : L.inv σ) (hst : stack st n σ)
    (hstart : Store.CanStart σ n phase state)
    (hresult : ∀ res σ', L.le σ σ' → L.inv σ' → Ends cyclic n phase σ' res → KF (.result res) σ') :
    L.Allows st own K KF σ
      (some (σ.start n phase state, .force σ.computations.length (Phase.op phase n))) := by
  have hc : (σ.start n phase state).IsComputation σ.computations.length n phase :=
    isComputation_start
  obtain ⟨hle, hinv', hforces, hpre⟩ := h.start hinv hst hstart
  refine ⟨_, _, rfl, ⟨hle, ?_⟩, hinv', ?_, ?_, ?_, hforces, hpre, ?_⟩
  · rw [h.held]
    exact fun _ _ => hstart.held
  · rw [h.alloc]
    exact Nat.lt_irrefl _
  · rw [h.alloc]
    exact hc.lt
  · rw [h.held]
    exact fun _ => hstart.held_of_held
  · intro r τ hrely hinvτ hpost
    have hcτ := (h.le hrely.le).isComputation hc
    obtain ⟨hnot, res, rfl, hends⟩ := (h.forcedPost hcτ).mp hpost
    obtain ⟨hle', hinv''⟩ := h.fill hinvτ hcτ hends
    rw [h.held]
    refine ⟨hnot, ⟨hle', ?_⟩, hinv'', fun _ h => h,
      hresult res _ (L.le_trans (L.le_trans hle hrely.le) hle') hinv'' (hends.mono (h.le hle'))⟩
    rw [h.held]
    exact fun _ _ h => h

section Results

variable {kr : Result N → MemoCode N V X} {other : Reply N V X → MemoCode N V X}

/-- A task that is blocked goes on with the result of the computation that it waits for. -/
theorem safe_blocked (hc : σ.IsComputation c n phase)
    (hk : ∀ res σ', L.le σ σ' → L.inv σ' → Ends cyclic n phase σ' res →
      (kr res).Safe L st own Q σ') :
    (Reply.withResult kr other (.blocked c)).Safe L st own Q σ := by
  refine ⟨h.waits _ _ _, fun r σ' hrely hinv hivar => ?_⟩
  obtain ⟨res, hpeek, rfl⟩ := Option.map_eq_some_iff.mp hivar
  exact hk res σ' hrely.le hinv (h.peek hinv ((h.le hrely.le).isComputation hc) hpeek)

theorem allows_considerRestore (hinv : L.inv σ) (hst : stack st n σ)
    (hstale : (σ.node n).lastValidatedAt ≠ σ.run)
    (hk : ∀ res σ', L.le σ σ' → L.inv σ' → Ends cyclic n .restoreFromCache σ' res →
      (kr res).Safe L st own Q σ') :
    L.Allows st own (fun r => (Reply.withResult kr other r).Safe L st own Q)
      (fun r => (Reply.withResult kr other r).Safe L st own Q) σ
      (considerAndRestoreFromCache D n st σ) := by
  unfold considerAndRestoreFromCache
  have hsettled (hn : σ.Settled n) : L.Allows st own
      (fun r => (Reply.withResult kr other r).Safe L st own Q)
      (fun r => (Reply.withResult kr other r).Safe L st own Q) σ
      (some (σ, .done (.result (.restored .changed)))) :=
    ⟨σ, _, rfl, .refl _ _, hinv, fun _ h => h,
      hk _ σ (L.le_refl σ) hinv ⟨⟨nofun, fun _ => hn⟩, nofun⟩⟩
  cases hstate : (σ.node n).state with
  | cached => exact h.allows_start hinv hst (.restore hstate hstale) hk
  | restoring c =>
    apply h.allows_read hinv hst ((h.inv hinv).restoring n c hstate) hk
    · exact fun σ' hle _ hc => h.safe_blocked hc fun res σ'' hle' =>
        hk res σ'' (L.le_trans hle hle')
    · exact fun cycle σ' hle hinv' hcyclic =>
        hk _ σ' hle hinv' ⟨⟨nofun, nofun⟩, fun _ _ => hcyclic⟩
  | notCached | outOfDate | computing c =>
    exact hsettled (by unfold Store.Settled; rw [hstate]; trivial)

end Results

/-! ## The operations -/

theorem safe_getValue (hn : σ.Current n) :
    (Code.update (getValue n) .ret : MemoCode N V X).Safe L st own (L.post (.exec n)) σ := by
  apply Code.Safe.update
  intro σ' hrely hinv
  have hn' := (h.le hrely.le).isCurrent hn
  obtain ⟨x, hx, heq⟩ := getValue_of_current (h.inv hinv) hn'
  exact ⟨σ', _, heq, .refl _ _, hinv, fun _ h => h, h.execValue hn' hx⟩

section

variable (hst : stack st n σ)
include hst

theorem safe_considerCompute (hn : σ.Settled n) :
    (considerCompute D n).Safe L st own (L.post (.considerCompute n)) σ := by
  intro σ' hrely hinv
  have hst' := h.stack_mono (h.le hrely.le) hst
  have hn' := (h.le hrely.le).settled n hn
  have hcomputed : ∀ res σ'', L.le σ' σ'' → L.inv σ'' → Ends cyclic n .compute σ'' res →
      (Code.ret (.computed none) : MemoCode N V X).Safe L st own
        (L.post (.considerCompute n)) σ'' := by
    intro res σ'' _ _ hends
    match res, hends with
    | .computed, hends =>
      exact h.computePost.mpr ⟨none, rfl, fun _ => hends.1, fun hne => absurd rfl hne⟩
  simp only [considerAndCompute]
  cases hstate : (σ'.node n).state with
  | cached =>
    have hcurrent := hn'.current hstate
    simp only [if_pos (show σ'.isCurrent n = true from decide_eq_true hcurrent.validated)]
    exact ⟨σ', _, rfl, .refl _ _, hinv, fun _ h => h,
      h.computePost.mpr ⟨none, rfl, fun _ => hcurrent, fun hne => absurd rfl hne⟩⟩
  | restoring c => exact absurd hstate (hn'.not_restoring c)
  | notCached => exact h.allows_start hinv hst' (.compute (.inl hstate)) hcomputed
  | outOfDate => exact h.allows_start hinv hst' (.compute (.inr hstate)) hcomputed
  | computing c =>
    apply h.allows_read hinv hst' ((h.inv hinv).computing n c hstate) hcomputed
    · exact fun σ'' hle _ hc => h.safe_blocked hc fun res τ hle' =>
        hcomputed res τ (L.le_trans hle hle')
    · exact fun cycle σ'' _ _ hcyclic =>
        h.computePost.mpr ⟨some cycle, rfl, nofun, fun _ => hcyclic⟩

theorem safe_afterRestore (hends : Ends cyclic n .restoreFromCache σ res) :
    (afterRestore n res).Safe L st own (L.post (.exec n)) σ := by
  match res, hends with
  | .restored .unchanged, hends => exact h.safe_getValue (hends.1.1 rfl)
  | .restored (.cancelled cycle), hends => exact h.execCycle _ _ _ (hends.2 cycle rfl)
  | .restored .changed, hends =>
    refine ⟨h.computePre hst (hends.1.2 rfl), fun r σ' _ _ hpost => ?_⟩
    obtain ⟨o, rfl, hcurrent, hcyclic⟩ := h.computePost.mp hpost
    cases o with
    | none => exact h.safe_getValue (hcurrent rfl)
    | some cycle => exact h.execCycle _ _ _ (hcyclic nofun)

theorem safe_exec : (exec D n).Safe L st own (L.post (.exec n)) σ := by
  intro σ' hrely hinv
  have hst' := h.stack_mono (h.le hrely.le) hst
  simp only [execNow]
  split
  · next hcurrent =>
    have hcurrent := (h.inv hinv).isCurrent hcurrent
    obtain ⟨x, hx, heq⟩ := getValue_of_current (h.inv hinv) hcurrent
    simp only [heq, Option.map_some]
    exact ⟨σ', _, rfl, .refl _ _, hinv, fun _ h => h, h.execValue hcurrent hx⟩
  · next hstale =>
    apply h.allows_considerRestore hinv hst'
    · exact fun heq => hstale (decide_eq_true heq)
    · exact fun res σ'' hle _ hends => h.safe_afterRestore (h.stack_mono (h.le hle) hst') hends

end

theorem safe_compareStamps (hdep : σ.Current dep) :
    (compareStamps node dep).Safe L st own (L.post (.checkDep node dep eagerly)) σ := by
  apply Code.Safe.update
  exact fun σ' hrely hinv => ⟨σ', _, rfl, .refl _ _, hinv, fun _ h => h,
    h.checkStamps _ hinv ((h.le hrely.le).isCurrent hdep)⟩

theorem safe_checkRestored (hst : stack st dep σ)
    (hends : Ends cyclic dep .restoreFromCache σ res) :
    (checkRestored S node dep eagerly res).Safe L st own
      (L.post (.checkDep node dep eagerly)) σ := by
  match res, hends with
  | .restored .unchanged, hends => exact h.safe_compareStamps (hends.1.1 rfl)
  | .restored (.cancelled cycle), hends => exact h.checkCycle _ _ _ _ _ (hends.2 cycle rfl)
  | .restored .changed, hends =>
    simp only [checkRestored]
    split
    · exact h.checkChanged _ _ _ _
    · refine ⟨h.computePre hst (hends.1.2 rfl), fun r σ' _ _ hpost => ?_⟩
      obtain ⟨o, rfl, hcurrent, hcyclic⟩ := h.computePost.mp hpost
      cases o with
      | none =>
        simp only [checkComputed]
        split
        · exact h.safe_compareStamps (hcurrent rfl)
        · exact h.checkChanged _ _ _ _
      | some cycle => exact h.checkCycle _ _ _ _ _ (hcyclic nofun)

theorem safe_checkDep (hst : stack st dep σ) :
    (checkDep D S node dep eagerly).Safe L st own (L.post (.checkDep node dep eagerly)) σ := by
  intro σ' hrely hinv
  have hst' := h.stack_mono (h.le hrely.le) hst
  simp only [checkNow]
  split
  · next hcurrent =>
    exact ⟨σ', _, rfl, .refl _ _, hinv, fun _ h => h,
      h.checkStamps _ hinv ((h.inv hinv).isCurrent hcurrent)⟩
  · next hstale =>
    apply h.allows_considerRestore hinv hst'
    · exact fun heq => hstale (decide_eq_true heq)
    · exact fun res σ'' hle _ hends => h.safe_checkRestored (h.stack_mono (h.le hle) hst') hends

theorem safe_release {f : Store N V X → Store N V X} (hc : σ.IsComputation c n phase)
    (hheld : σ.Held c)
    (hfinish : ∀ σ', L.Rely (c :: st) σ σ' → L.inv σ' → σ'.IsComputation c n phase → σ'.Held c →
      Store.Released σ' c n (f σ') ∧ ((σ'.node n).state = .restoring c ∨
      (σ'.node n).state = .computing c) ∧ L.le σ' (f σ') ∧ L.inv (f σ') ∧
      Ends cyclic n phase (f σ') res) :
    (Code.update (fun σ => some (f σ, .result res)) .ret : MemoCode N V X).Safe L (c :: st) [c]
      (L.forcedPost (Phase.op phase n) c) σ := by
  apply Code.Safe.update
  intro σ' hrely hinv
  have hc' := (h.le hrely.le).isComputation hc
  have hheld' : σ'.Held c := by
    have := hrely.held c mem_cons_self
    rw [h.held] at this
    exact this hheld
  obtain ⟨hreleased, hstate, hle, hinv', hends⟩ := hfinish σ' hrely hinv hc' hheld'
  refine ⟨_, _, rfl, ⟨hle, ?_⟩, hinv', ?_, (h.forcedPost ((h.le hle).isComputation hc')).mpr
    ⟨hreleased.not_held (h.inv hinv) hstate, res, rfl, hends⟩⟩
  · rw [h.held]
    exact fun c' hc' => hreleased.held_of_ne hstate fun heq => hc' (mem_singleton.mpr heq)
  · rw [h.held]
    exact fun _ => hreleased.held_of_held

end NodeLogic

end Dune.Memo
