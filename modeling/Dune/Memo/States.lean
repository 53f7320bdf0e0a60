import Dune.Memo.Exec
import Dune.Task.Logic

/-!
# The life cycle of the nodes of Memo

What holds of the states of the nodes in all interleavings of restorations and computations. A node
that has been validated in the current run is cached and keeps its record until the run ends. A
node that is restored or computed is released by the task that forced it only, and the result that
its readers then get says how it was left (`Store.ResultOk`).
-/

namespace Dune.Memo

variable {N V X : Type}

namespace Store

variable (σ : Store N V X)

/-- The node is cached and has been validated in the current run. -/
structure Current (n : N) : Prop where
  state : (σ.node n).state = .cached
  validated : (σ.node n).lastValidatedAt = σ.run

/-- The node is not to be restored any more in the current run. -/
def Settled (n : N) : Prop :=
  match (σ.node n).state with
  | .notCached | .outOfDate | .computing _ => True
  | .restoring _ => False
  | .cached => (σ.node n).lastValidatedAt = σ.run

/-- The computation is one of the node. -/
def IsComputation (c : Nat) (n : N) (phase : Phase) : Prop :=
  ∃ x, σ.computations[c]? = some x ∧ x.node = n ∧ x.phase = phase

/-- How a computation has left its node. -/
def ResultOk (n : N) : Phase → Result N → Prop
  | .restoreFromCache, .restored r =>
    (r = .unchanged → σ.Current n) ∧ (r = .changed → σ.Settled n)
  | .compute, .computed => σ.Current n
  | _, _ => False

/-- A node is being restored or computed by the computation. -/
def Held (c : Nat) : Prop :=
  ∃ n, (σ.node n).state = .restoring c ∨ (σ.node n).state = .computing c

/-- The frames of a call stack are those of computations. -/
def StackOk (stack : List Nat) : Prop := ∀ c ∈ stack, c < σ.computations.length

/-- The frames know the edges of the graph that start at them. -/
def Recorded : Prop := ∀ f c, (f, c) ∈ σ.dag → c ∈ σ.childrenAddedToDag f

/-- What holds of the state of Memo at all times. -/
structure Inv : Prop where
  run : 0 ≤ σ.run
  validated : ∀ n, (σ.node n).lastValidatedAt ≤ σ.run
  current : ∀ n, (σ.node n).lastValidatedAt = σ.run → (σ.node n).state = .cached
  initialized : ∀ n, (σ.node n).value = .uninitialized →
    (σ.node n).state ≠ .cached ∧ ∀ c, (σ.node n).state ≠ .restoring c
  restoring : ∀ n c, (σ.node n).state = .restoring c → σ.IsComputation c n .restoreFromCache
  computing : ∀ n c, (σ.node n).state = .computing c → σ.IsComputation c n .compute
  result : ∀ (c : Nat) (x : Computation N) r, σ.computations[c]? = some x → x.ivar = some r →
    σ.ResultOk x.node x.phase r
  recorded : σ.Recorded

/-- What every step keeps. -/
structure Le (σ σ' : Store N V X) : Prop where
  run : σ'.run = σ.run
  current : ∀ n, σ.Current n → σ'.node n = σ.node n
  settled : ∀ n, σ.Settled n → σ'.Settled n
  computations : ∀ (c : Nat) (x : Computation N), σ.computations[c]? = some x →
    ∃ x' : Computation N, σ'.computations[c]? = some x' ∧ x'.node = x.node ∧ x'.phase = x.phase ∧
      (x.ivar.isSome → x'.ivar = x.ivar)
  held : ∀ c, c < σ.computations.length → σ'.Held c → σ.Held c

variable {σ} {σ' σ'' : Store N V X}

variable {n : N} {c : Nat} {phase : Phase}

theorem Current.settled (h : σ.Current n) : σ.Settled n := by
  unfold Settled
  rw [h.state]
  exact h.validated

theorem Settled.current (h : σ.Settled n) (hstate : (σ.node n).state = .cached) : σ.Current n := by
  unfold Settled at h
  rw [hstate] at h
  exact ⟨hstate, h⟩

theorem Settled.not_restoring (h : σ.Settled n) (c : Nat) : (σ.node n).state ≠ .restoring c := by
  intro hstate
  unfold Settled at h
  rw [hstate] at h
  exact h

theorem Inv.isCurrent (h : σ.Inv) (hn : σ.isCurrent n) : σ.Current n := by
  have hvalidated := of_decide_eq_true hn
  exact ⟨h.current n hvalidated, hvalidated⟩

theorem Current.of_node (h : σ'.Current n) (hnode : σ'.node n = σ.node n)
    (hrun : σ'.run = σ.run) : σ.Current n :=
  ⟨hnode ▸ h.state, hnode ▸ hrun ▸ h.validated⟩

variable {c frame c' : Nat} {phase : Phase} {stack : List Nat} {r : Result N}

namespace Le

theorem refl (σ : Store N V X) : Le σ σ where
  run := rfl
  current _ _ := rfl
  settled _ h := h
  computations _ x h := ⟨x, h, rfl, rfl, fun _ => rfl⟩
  held _ _ h := h

theorem length_le (h : Le σ σ') : σ.computations.length ≤ σ'.computations.length := by
  by_contra hlt
  have hget : σ.computations[σ'.computations.length]? =
      some σ.computations[σ'.computations.length] := List.getElem?_eq_getElem (by omega)
  obtain ⟨x', hx', -⟩ := h.computations _ _ hget
  rw [List.getElem?_eq_none (Nat.le_refl _)] at hx'
  cases hx'

variable {n : N}

section

variable (h : Le σ σ')
include h

theorem isCurrent (hn : σ.Current n) : σ'.Current n :=
  hn.of_node (h.current n hn).symm h.run.symm

theorem trans (h' : Le σ' σ'') : Le σ σ'' where
  run := h'.run.trans h.run
  current n hn := (h'.current n (h.isCurrent hn)).trans (h.current n hn)
  settled n hn := h'.settled n (h.settled n hn)
  computations c x hx := by
    obtain ⟨x', hx', hnode, hphase, hivar⟩ := h.computations c x hx
    obtain ⟨x'', hx'', hnode', hphase', hivar'⟩ := h'.computations c x' hx'
    refine ⟨x'', hx'', hnode'.trans hnode, hphase'.trans hphase, fun hsome => ?_⟩
    have heq := hivar hsome
    rw [hivar' (by rw [heq]; exact hsome), heq]
  held c hc hheld := h.held c hc (h'.held c (Nat.lt_of_lt_of_le hc h.length_le) hheld)

theorem isComputation (hc : σ.IsComputation c n phase) : σ'.IsComputation c n phase := by
  obtain ⟨x, hx, rfl, rfl⟩ := hc
  obtain ⟨x', hx', hnode, hphase, -⟩ := h.computations c x hx
  exact ⟨x', hx', hnode, hphase⟩

theorem resultOk (hr : σ.ResultOk n phase r) : σ'.ResultOk n phase r := by
  match phase, r, hr with
  | .restoreFromCache, .restored r, hr =>
    exact ⟨fun hu => h.isCurrent (hr.1 hu), fun hc => h.settled n (hr.2 hc)⟩
  | .compute, .computed, hr => exact h.isCurrent hr

theorem stackOk (hs : σ.StackOk stack) : σ'.StackOk stack :=
  fun c hc => Nat.lt_of_lt_of_le (hs c hc) h.length_le

end

end Le

theorem IsComputation.lt (h : σ.IsComputation c n phase) : c < σ.computations.length := by
  obtain ⟨x, hx, -⟩ := h
  exact (List.getElem?_eq_some_iff.mp hx).1

theorem IsComputation.unique {m : N} {phase' : Phase} (h : σ.IsComputation c n phase)
    (h' : σ.IsComputation c m phase') : n = m ∧ phase = phase' := by
  obtain ⟨x, hx, rfl, rfl⟩ := h
  obtain ⟨y, hy, rfl, rfl⟩ := h'
  rw [hx] at hy
  cases hy
  exact ⟨rfl, rfl⟩

theorem Inv.peek (h : σ.Inv) (hc : σ.IsComputation c n phase) (hr : σ.peek c = some r) :
    σ.ResultOk n phase r := by
  obtain ⟨x, hx, rfl, rfl⟩ := hc
  unfold Store.peek at hr
  rw [hx] at hr
  exact h.result c x r hx hr

/-- A node that a computation holds stays in its state until the computation releases it. -/
theorem Inv.restoring_of_held (h : σ.Inv) (hc : σ.IsComputation c n .restoreFromCache)
    (hheld : σ.Held c) : (σ.node n).state = .restoring c := by
  obtain ⟨m, hm | hm⟩ := hheld
  · obtain ⟨rfl, -⟩ := hc.unique (h.restoring m c hm)
    exact hm
  · exact nomatch (hc.unique (h.computing m c hm)).2

theorem Inv.computing_of_held (h : σ.Inv) (hc : σ.IsComputation c n .compute) (hheld : σ.Held c) :
    (σ.node n).state = .computing c := by
  obtain ⟨m, hm | hm⟩ := hheld
  · exact nomatch (hc.unique (h.restoring m c hm)).2
  · obtain ⟨rfl, -⟩ := hc.unique (h.computing m c hm)
    exact hm

structure NodeOk (σ : Store N V X) (n : N) : Prop where
  validated : (σ.node n).lastValidatedAt ≤ σ.run
  current : (σ.node n).lastValidatedAt = σ.run → (σ.node n).state = .cached
  initialized : (σ.node n).value = .uninitialized →
    (σ.node n).state ≠ .cached ∧ ∀ c, (σ.node n).state ≠ .restoring c
  restoring : ∀ c, (σ.node n).state = .restoring c → σ.IsComputation c n .restoreFromCache
  computing : ∀ c, (σ.node n).state = .computing c → σ.IsComputation c n .compute

theorem NodeOk.of_eq (h : σ.NodeOk n) (hle : Le σ σ') (heq : σ'.node n = σ.node n) :
    σ'.NodeOk n := by
  obtain ⟨hvalidated, hcurrent, hinitialized, hrestoring, hcomputing⟩ := h
  rw [← hle.run, ← heq] at hvalidated hcurrent
  rw [← heq] at hinitialized hrestoring hcomputing
  exact ⟨hvalidated, hcurrent, hinitialized, fun c hc => hle.isComputation (hrestoring c hc),
    fun c hc => hle.isComputation (hcomputing c hc)⟩

theorem Inv.node (h : σ.Inv) (m : N) : σ.NodeOk m :=
  ⟨h.validated m, h.current m, h.initialized m, h.restoring m, h.computing m⟩

theorem Inv.of_nodes (h : σ.Inv) (hle : Le σ σ') (hnode : ∀ m, σ'.NodeOk m)
    (hresult : ∀ (c : Nat) (x : Computation N) r, σ'.computations[c]? = some x → x.ivar = some r →
      σ'.ResultOk x.node x.phase r) (hrec : σ'.Recorded) : σ'.Inv :=
  ⟨hle.run ▸ h.run, fun m => (hnode m).validated, fun m => (hnode m).current,
    fun m => (hnode m).initialized, fun m => (hnode m).restoring, fun m => (hnode m).computing,
    hresult, hrec⟩

/-! ## Adding a path to the graph -/

/-- The states differ in the graph of the cycle detection only. -/
structure SameNodes (σ σ' : Store N V X) : Prop where
  run : σ'.run = σ.run
  node : σ'.node = σ.node
  inputs : σ'.inputs = σ.inputs
  computations : ∀ c : Nat, (σ'.computations[c]?).map (fun x => (x.node, x.phase, x.ivar)) =
    (σ.computations[c]?).map fun x => (x.node, x.phase, x.ivar)

variable {x : Computation N}

namespace SameNodes

theorem refl (σ : Store N V X) : SameNodes σ σ := ⟨rfl, rfl, rfl, fun _ => rfl⟩

theorem trans (h : SameNodes σ σ') (h' : SameNodes σ' σ'') : SameNodes σ σ'' :=
  ⟨h'.run.trans h.run, h'.node.trans h.node, h'.inputs.trans h.inputs,
    fun c => (h'.computations c).trans (h.computations c)⟩

theorem symm (h : SameNodes σ σ') : SameNodes σ' σ :=
  ⟨h.run.symm, h.node.symm, h.inputs.symm, fun c => (h.computations c).symm⟩

variable {c : Nat} {n : N}

section

variable (h : SameNodes σ σ')
include h

theorem getElem? (hx : σ.computations[c]? = some x) :
    ∃ x', σ'.computations[c]? = some x' ∧ x'.node = x.node ∧ x'.phase = x.phase ∧
      x'.ivar = x.ivar := by
  have heq := h.computations c
  rw [hx, Option.map_some, Option.map_eq_some_iff] at heq
  obtain ⟨x', hx', heq⟩ := heq
  simp only [Prod.mk.injEq] at heq
  exact ⟨x', hx', heq⟩

theorem settled (hn : σ.Settled n) : σ'.Settled n := by
  unfold Settled at hn ⊢
  rw [h.node, h.run]
  exact hn

theorem held (hc : σ.Held c) : σ'.Held c := by
  unfold Held
  rw [h.node]
  exact hc

theorem le : Le σ σ' where
  run := h.run
  current n _ := by rw [h.node]
  settled _ hn := h.settled hn
  computations c x hx := by
    obtain ⟨x', hx', hnode, hphase, hivar⟩ := h.getElem? hx
    exact ⟨x', hx', hnode, hphase, fun _ => hivar⟩
  held _ _ hheld := h.symm.held hheld

theorem isCurrent (hn : σ.Current n) : σ'.Current n := h.le.isCurrent hn

theorem isComputation (hc : σ.IsComputation c n phase) : σ'.IsComputation c n phase :=
  h.le.isComputation hc

theorem inv (hinv : σ.Inv) (hrec : σ'.Recorded) : σ'.Inv := by
  refine hinv.of_nodes h.le (fun m => (hinv.node m).of_eq h.le (congrFun h.node m)) ?_ hrec
  intro c x r hx hr
  obtain ⟨x', hx', hnode, hphase, hivar⟩ := h.symm.getElem? hx
  rw [← hnode, ← hphase]
  exact h.le.resultOk (hinv.result c x' r hx' (hivar.trans hr))

theorem length_eq : σ'.computations.length = σ.computations.length :=
  Nat.le_antisymm h.symm.le.length_le h.le.length_le

theorem peek (c : Nat) : σ'.peek c = σ.peek c := by
  have hivar (τ : Store N V X) : τ.peek c =
      ((τ.computations[c]?).map fun x => (x.node, x.phase, x.ivar)).bind (·.2.2) := by
    rw [Store.peek]
    cases τ.computations[c]? <;> rfl
  rw [hivar, hivar, h.computations]

end

end SameNodes

theorem sameNodes_recordChild (σ : Store N V X) (frame dagNode : Nat) (dag : List (Nat × Nat)) :
    SameNodes σ (σ.recordChild frame dagNode dag) := by
  refine ⟨rfl, rfl, rfl, fun c => ?_⟩
  simp only [recordChild, modifyComputation, List.getElem?_modify, Option.map_map,
    Option.map_eq_map]
  congr 1
  funext x
  simp only [Function.comp]
  split <;> rfl

theorem childrenAddedToDag_recordChild (hframe : frame < σ.computations.length) (dagNode : Nat)
    (dag : List (Nat × Nat)) (f : Nat) :
    (σ.recordChild frame dagNode dag).childrenAddedToDag f =
      if frame = f then dagNode :: σ.childrenAddedToDag f else σ.childrenAddedToDag f := by
  unfold childrenAddedToDag recordChild modifyComputation
  rw [List.getElem?_modify]
  split
  · next heq =>
    subst heq
    rw [List.getElem?_eq_getElem hframe]
    rfl
  · cases σ.computations[f]? <;> rfl

theorem mem_childrenAddedToDag {f : Nat} : c ∈ σ.childrenAddedToDag f ↔
    ∃ x, σ.computations[f]? = some x ∧ c ∈ x.childrenAddedToDag := by
  unfold childrenAddedToDag
  cases σ.computations[f]? with
  | none | some x => simp

theorem recorded_recordChild (dagNode : Nat) (hframe : frame < σ.computations.length)
    (hrec : σ.Recorded) : (σ.recordChild frame dagNode ((frame, dagNode) :: σ.dag)).Recorded := by
  intro f c hfc
  rw [childrenAddedToDag_recordChild hframe]
  rcases List.mem_cons.mp hfc with heq | hold
  · cases heq
    rw [if_pos rfl]
    exact List.mem_cons_self
  · split
    · exact List.mem_cons_of_mem _ (hrec f c hold)
    · exact hrec f c hold

/-- No edge that the graph has is added again, and nothing but the graph changes. -/
theorem addPathImpl_spec (D : CycleDetection) (dagNode : Nat) (hstack : σ.StackOk stack)
    (hrec : σ.Recorded) :
    ∃ σ' o, addPathImpl D stack dagNode σ = some (σ', o) ∧ SameNodes σ σ' ∧ σ'.Recorded := by
  induction stack generalizing σ dagNode with
  | nil => exact ⟨σ, none, rfl, .refl σ, hrec⟩
  | cons frame stack ih =>
    unfold addPathImpl
    simp only
    split
    · exact ⟨σ, none, rfl, .refl σ, hrec⟩
    · next hmem =>
      have hmissing : (frame, dagNode) ∉ σ.dag := fun h => hmem (hrec _ _ h)
      rcases D.addAssumingMissing_cases hmissing with ⟨cycle, heq, -⟩ | ⟨heq, -⟩
      · simp only [heq]
        exact ⟨σ, _, rfl, .refl σ, hrec⟩
      · simp only [heq]
        have hsame := sameNodes_recordChild σ frame dagNode ((frame, dagNode) :: σ.dag)
        have hrec' := recorded_recordChild dagNode (hstack frame List.mem_cons_self) hrec
        split
        · obtain ⟨σ', o, heq', hsame', hrec''⟩ := ih frame
            (hsame.le.stackOk fun c hc => hstack c (List.mem_cons_of_mem _ hc)) hrec'
          exact ⟨σ', o, heq', hsame.trans hsame', hrec''⟩
        · exact ⟨_, none, rfl, hsame, hrec'⟩

theorem addPathTo_spec (D : CycleDetection) (dagNode : Nat) (hstack : σ.StackOk stack)
    (hrec : σ.Recorded) :
    ∃ σ' o, σ.addPathTo D stack dagNode = some (σ', o) ∧ SameNodes σ σ' ∧ σ'.Recorded := by
  unfold addPathTo
  split
  · exact ⟨σ, _, rfl, .refl σ, hrec⟩
  · obtain ⟨σ', o, heq, hsame, hrec'⟩ := addPathImpl_spec D dagNode hstack hrec
    rw [heq]
    cases o with
    | none => exact ⟨σ', none, rfl, hsame, hrec'⟩
    | some cycle =>
      exact ⟨_, some cycle, rfl, { hsame with }, hrec'⟩

/-! ## Releasing a node -/

/-- The computation leaves the node that it holds, which is current or, if it was being restored,
out of date. -/
structure Released (σ : Store N V X) (c : Nat) (n : N) (σ' : Store N V X) : Prop where
  run : σ'.run = σ.run
  computations : σ'.computations = σ.computations
  dag : σ'.dag = σ.dag
  other : ∀ m, m ≠ n → σ'.node m = σ.node m
  self : σ'.Current n ∧ (σ'.node n).value ≠ .uninitialized ∨
    (σ.node n).state = .restoring c ∧ σ'.node n = { σ.node n with state := .outOfDate }

namespace Released

variable {c : Nat} {n : N} (h : Released σ c n σ') (hinv : σ.Inv)
  (hn : (σ.node n).state = .restoring c ∨ (σ.node n).state = .computing c)

include h

theorem stale : (∃ c', (σ'.node n).state = .restoring c' ∨ (σ'.node n).state = .computing c') →
    False := by
  rintro ⟨c', hc'⟩
  rcases h.self with ⟨hcurrent, -⟩ | ⟨-, heq⟩
  · rw [hcurrent.state] at hc'
    rcases hc' with hc' | hc' <;> cases hc'
  · rw [heq] at hc'
    rcases hc' with hc' | hc' <;> cases hc'

theorem held_of_held (hheld : σ'.Held c') : σ.Held c' := by
  obtain ⟨m, hm⟩ := hheld
  by_cases hmn : m = n
  · subst hmn
    exact absurd ⟨c', hm⟩ h.stale
  · rw [h.other m hmn] at hm
    exact ⟨m, hm⟩

theorem settled : σ'.Settled n := by
  rcases h.self with ⟨hcurrent, -⟩ | ⟨-, heq⟩
  · exact hcurrent.settled
  · unfold Settled
    rw [heq]
    trivial

theorem settled_other {m : N} (hmn : m ≠ n) (hm : σ.Settled m) : σ'.Settled m := by
  unfold Settled at hm ⊢
  rw [h.other m hmn, h.run]
  exact hm

include hn

theorem held_of_ne (hne : c' ≠ c) (hheld : σ.Held c') : σ'.Held c' := by
  obtain ⟨m, hm⟩ := hheld
  refine ⟨m, ?_⟩
  by_cases hmn : m = n
  · subst hmn
    exfalso
    rcases hm with hm | hm <;> rcases hn with hn | hn <;> rw [hn] at hm <;> cases hm <;>
      exact hne rfl
  · rw [h.other m hmn]
    exact hm

theorem le : Le σ σ' where
  run := h.run
  current m hm := by
    apply h.other
    rintro rfl
    rcases hn with hn | hn <;> rw [hm.state] at hn <;> cases hn
  settled m hm := by
    by_cases hmn : m = n
    · subst hmn
      exact h.settled
    · exact h.settled_other hmn hm
  computations c x hx := ⟨x, by rw [h.computations]; exact hx, rfl, rfl, fun _ => rfl⟩
  held _ _ hheld := h.held_of_held hheld

include hinv

theorem not_held : ¬σ'.Held c := by
  rintro ⟨m, hm⟩
  by_cases hmn : m = n
  · subst hmn
    exact h.stale ⟨c, hm⟩
  · rw [h.other m hmn] at hm
    apply hmn
    rcases hm with hm | hm <;> rcases hn with hn | hn
    · exact ((hinv.restoring m c hm).unique (hinv.restoring n c hn)).1
    · exact ((hinv.restoring m c hm).unique (hinv.computing n c hn)).1
    · exact ((hinv.computing m c hm).unique (hinv.restoring n c hn)).1
    · exact ((hinv.computing m c hm).unique (hinv.computing n c hn)).1

theorem inv : σ'.Inv := by
  refine hinv.of_nodes (h.le hn) (fun m => ?_) (fun c' x r hx hr => ?_) ?_
  · by_cases hmn : m = n
    · subst hmn
      refine ⟨?_, fun hm => ?_, fun hm => ?_, fun c' hm => absurd ⟨c', .inl hm⟩ h.stale,
        fun c' hm => absurd ⟨c', .inr hm⟩ h.stale⟩
      all_goals rcases h.self with ⟨hcurrent, hvalue⟩ | ⟨hstate, heq⟩
      · exact hcurrent.validated.le
      · rw [heq, h.run]
        exact hinv.validated m
      · exact hcurrent.state
      · rw [heq, h.run] at hm
        rw [hinv.current m hm] at hstate
        cases hstate
      · exact absurd hm hvalue
      · rw [heq]
        exact ⟨State.noConfusion, fun _ => State.noConfusion⟩
    · exact (hinv.node m).of_eq (h.le hn) (h.other m hmn)
  · rw [h.computations] at hx
    exact (h.le hn).resultOk (hinv.result c' x r hx hr)
  · unfold Recorded childrenAddedToDag
    rw [h.dag, h.computations]
    exact hinv.recorded

end Released

/-! ## Starting and ending a computation -/

section Starting

variable [DecidableEq N] {n : N} {phase : Phase} {state : State}

/-- A new computation, and the node in the state of its phase. -/
def start (σ : Store N V X) (n : N) (phase : Phase) (state : State) : Store N V X :=
  (σ.create n phase).setState n state

/-- A node may be restored when it is cached and has not been validated, and computed when it is not
cached. -/
inductive CanStart (σ : Store N V X) (n : N) : Phase → State → Prop
  | restore : (σ.node n).state = .cached → (σ.node n).lastValidatedAt ≠ σ.run →
      CanStart σ n .restoreFromCache (.restoring σ.computations.length)
  | compute : (σ.node n).state = .notCached ∨ (σ.node n).state = .outOfDate →
      CanStart σ n .compute (.computing σ.computations.length)

theorem start_other {m : N} (hmn : m ≠ n) : (σ.start n phase state).node m = σ.node m :=
  if_neg hmn

theorem start_self : (σ.start n phase state).node n = { σ.node n with state } :=
  if_pos rfl

theorem getElem?_start (hx : σ.computations[c]? = some x) :
    (σ.start n phase state).computations[c]? = some x :=
  (List.getElem?_append_left (List.getElem?_eq_some_iff.mp hx).1).trans hx

theorem getElem?_start_cases (hx : (σ.start n phase state).computations[c]? = some x) :
    σ.computations[c]? = some x ∨ c = σ.computations.length ∧ x = ⟨n, phase, none, []⟩ := by
  have happ : (σ.computations ++ [⟨n, phase, none, []⟩])[c]? = some x := hx
  rw [List.getElem?_append] at happ
  split at happ
  · exact .inl happ
  · rw [List.getElem?_singleton] at happ
    split at happ
    · exact .inr ⟨by omega, (Option.some.inj happ).symm⟩
    · cases happ

theorem isComputation_start : (σ.start n phase state).IsComputation σ.computations.length n phase :=
  ⟨_, List.getElem?_concat_length, rfl, rfl⟩

namespace CanStart

variable (h : CanStart σ n phase state)

include h

omit [DecidableEq N] in
theorem not_held (c : Nat) : (σ.node n).state ≠ .restoring c ∧ (σ.node n).state ≠ .computing c := by
  cases h with
  | restore hstate _ =>
    rw [hstate]
    exact ⟨State.noConfusion, State.noConfusion⟩
  | compute hstate =>
    rcases hstate with hstate | hstate <;> rw [hstate] <;>
      exact ⟨State.noConfusion, State.noConfusion⟩

theorem held (hheld : σ.Held c) : (σ.start n phase state).Held c := by
  obtain ⟨m, hm⟩ := hheld
  refine ⟨m, ?_⟩
  rw [start_other]
  · exact hm
  · rintro rfl
    rcases hm with hm | hm
    · exact (h.not_held c).1 hm
    · exact (h.not_held c).2 hm

theorem held_new : (σ.start n phase state).Held σ.computations.length := by
  refine ⟨n, ?_⟩
  rw [start_self]
  cases h
  · exact .inl rfl
  · exact .inr rfl

theorem held_of_held (hheld : (σ.start n phase state).Held c) :
    σ.Held c ∨ c = σ.computations.length := by
  obtain ⟨m, hm⟩ := hheld
  by_cases hmn : m = n
  · subst hmn
    rw [start_self] at hm
    right
    cases h with
    | restore | compute => rcases hm with hm | hm <;> cases hm; rfl
  · rw [start_other hmn] at hm
    exact .inl ⟨m, hm⟩

theorem le : Le σ (σ.start n phase state) where
  run := rfl
  current m hm := by
    apply start_other
    rintro rfl
    cases h with
    | restore _ hstale => exact hstale hm.validated
    | compute hstate =>
      rw [hm.state] at hstate
      rcases hstate with hstate | hstate <;> cases hstate
  settled m hm := by
    by_cases hmn : m = n
    · subst hmn
      cases h with
      | restore hstate hstale => exact absurd (hm.current hstate).validated hstale
      | compute hstate =>
        unfold Settled
        rw [start_self]
        trivial
    · unfold Settled at hm ⊢
      rw [start_other hmn]
      exact hm
  computations c x hx := ⟨x, getElem?_start hx, rfl, rfl, fun _ => rfl⟩
  held c hc hheld := (h.held_of_held hheld).resolve_right (Nat.ne_of_lt hc)

theorem inv (hinv : σ.Inv) : (σ.start n phase state).Inv := by
  refine hinv.of_nodes h.le (fun m => ?_) (fun c x r hx hr => ?_) fun f c hfc => ?_
  · by_cases hmn : m = n
    · subst hmn
      refine ⟨?_, fun hm => ?_, fun hm => ?_, fun c hm => ?_, fun c hm => ?_⟩
      all_goals rw [start_self] at *
      · exact hinv.validated m
      · cases h with
        | restore _ hstale => exact absurd hm hstale
        | compute hstate =>
          rw [hinv.current m hm] at hstate
          rcases hstate with hstate | hstate <;> cases hstate
      · cases h with
        | restore hstate _ => exact absurd hstate (hinv.initialized m hm).1
        | compute => exact ⟨State.noConfusion, fun _ => State.noConfusion⟩
      all_goals
        cases h <;> cases hm
        exact isComputation_start
    · exact (hinv.node m).of_eq h.le (start_other hmn)
  · rcases getElem?_start_cases hx with hold | ⟨-, rfl⟩
    · exact h.le.resultOk (hinv.result c x r hold hr)
    · cases hr
  · obtain ⟨x, hx, hc⟩ := mem_childrenAddedToDag.mp (hinv.recorded f c hfc)
    exact mem_childrenAddedToDag.mpr ⟨x, getElem?_start hx, hc⟩

end CanStart

end Starting

theorem getElem?_fill (σ : Store N V X) (c : Nat) (r : Result N) (c' : Nat) :
    (σ.fill c r).computations[c']? = (σ.computations[c']?).map fun x =>
      { x with ivar := if c = c' then some (x.ivar.getD r) else x.ivar } := by
  rw [fill, modifyComputation, List.getElem?_modify]
  split
  · rfl
  · cases σ.computations[c']? <;> rfl

theorem le_fill (σ : Store N V X) (c : Nat) (r : Result N) : Le σ (σ.fill c r) := by
  refine ⟨rfl, fun _ _ => rfl, fun _ h => h, fun c' x hx => ?_, fun _ _ h => h⟩
  rw [getElem?_fill, hx]
  refine ⟨_, rfl, rfl, rfl, fun hsome => ?_⟩
  obtain ⟨r', hr'⟩ := Option.isSome_iff_exists.mp hsome
  simp [hr']

/-- The result of a computation is as good as what its phase promises. -/
theorem inv_fill (hinv : σ.Inv) (hc : σ.IsComputation c n phase) (hr : σ.ResultOk n phase r) :
    (σ.fill c r).Inv := by
  have hle := le_fill σ c r
  refine ⟨hinv.run, hinv.validated, hinv.current, hinv.initialized,
    fun m c' hm => hle.isComputation (hinv.restoring m c' hm),
    fun m c' hm => hle.isComputation (hinv.computing m c' hm), fun c' x r' hx hr' => ?_,
    fun f c' hfc => ?_⟩
  · apply hle.resultOk
    rw [getElem?_fill, Option.map_eq_some_iff] at hx
    obtain ⟨y, hy, rfl⟩ := hx
    simp only at hr' ⊢
    split at hr'
    · next heq =>
      subst heq
      obtain ⟨z, hz, rfl, rfl⟩ := hc
      rw [hy] at hz
      cases hz
      cases hivar : y.ivar with
      | none =>
        rw [hivar] at hr'
        cases hr'
        exact hr
      | some r₀ =>
        rw [hivar] at hr'
        exact hinv.result c y r' hy (hivar.trans hr')
    · exact hinv.result c' y r' hy hr'
  · obtain ⟨x, hx, hmem⟩ := mem_childrenAddedToDag.mp (hinv.recorded f c' hfc)
    apply mem_childrenAddedToDag.mpr
    rw [getElem?_fill, hx]
    exact ⟨_, rfl, hmem⟩

end Store

end Dune.Memo
