import Dune.Memo.Safety
import Dune.Memo.Scratch

/-!
# What the cache of Memo knows

The state of Memo against evaluation from scratch. A record that may be restored is a run of the
function of its node against some answers, and the run stamps tell which of the answers still hold
(`Store.Cached`). A node that is current has been evaluated. The computations of a run are those of
nodes that the requests demand, at most one for each phase of a node, and the edges of the cycle
detection graph lead from nodes to nodes that they need (`Store.Works`).
-/

namespace Dune.Memo

open Relation Value

variable {N V X : Type}

/-- The records differ in the state of the node only. -/
structure Node.SameRecord (x y : Node N V X) : Prop where
  value : y.value = x.value
  lastChangedAt : y.lastChangedAt = x.lastChangedAt
  lastValidatedAt : y.lastValidatedAt = x.lastValidatedAt
  deps : y.deps = x.deps

theorem Node.SameRecord.refl (x : Node N V X) : SameRecord x x := ⟨rfl, rfl, rfl, rfl⟩

theorem Node.SameRecord.of_eq {x y : Node N V X} (h : y = x) : SameRecord x y := h ▸ .refl x

namespace Store

/-- The cached value of the node may be used in the current run. -/
def Usable (σ : Store N V X) (n : N) : Prop :=
  (σ.node n).state = .cached ∨ ∃ c, (σ.node n).state = .restoring c

/-- The frames of a call stack are computations of nodes each of which needs the next one, and the
last one needs the node. -/
def Chain (S : Spec N V X) (ι : N → V) (σ : Store N V X) : List Nat → N → Prop
  | [], _ => True
  | f :: st, m => ∃ n phase, σ.IsComputation f n phase ∧ Needs S ι n m ∧ Chain S ι σ st n

/-- The records of the nodes are those of functions on the inputs. -/
structure Cached (S : Spec N V X) (ι : N → V) (excuse : Prop) (σ : Store N V X) : Prop where
  changed : ∀ n, (σ.node n).lastChangedAt ≤ (σ.node n).lastValidatedAt
  var : ∀ n, S.f n = .var → (σ.node n).value ≠ .uninitialized →
    (σ.node n).deps = .empty ∧ (σ.Usable n → (σ.node n).value = .ok (ι n))
  record : ∀ n p x, S.f n = .prog p → (σ.node n).value = .ofResult x → Reproducible x →
    ∃ α, x = p.result α ∧ (σ.node n).deps = .flattenSeqs (p.sections α) ∧
      ∀ m ∈ p.reads α, (σ.node m).lastChangedAt ≤ (σ.node n).lastValidatedAt →
        (σ.node m).value.get? = some (α m)
  fresh : ∀ n x, σ.Current n → (σ.node n).value = .ofResult x → Reproducible x →
    ∀ m ∈ (σ.node n).deps.nodes, σ.Current m
  answered : ∀ n x, σ.Current n → (σ.node n).value = .ofResult x → Answered S ι excuse n x

/-- The edges of the cycle detection graph lead to nodes that are needed. -/
def EdgesNeed (S : Spec N V X) (ι : N → V) (σ : Store N V X) : Prop :=
  ∀ a b, (a, b) ∈ σ.dag → ∃ n m phase phase', σ.IsComputation a n phase ∧
    σ.IsComputation b m phase' ∧ Needs S ι n m

/-- The work of a run is demanded by its requests and is done once. -/
structure Works (S : Spec N V X) (ι : N → V) (requests : List (Prog N V X)) (σ : Store N V X) :
    Prop where
  unique : ∀ c c' n phase, σ.IsComputation c n phase → σ.IsComputation c' n phase → c = c'
  restored : ∀ c n, σ.IsComputation c n .restoreFromCache →
    (σ.node n).state = .restoring c ∨ σ.Settled n
  computed : ∀ c n, σ.IsComputation c n .compute →
    (σ.node n).state = .computing c ∨ σ.Current n
  demanded : ∀ c n phase, σ.IsComputation c n phase → Demanded S ι requests n
  edges : σ.EdgesNeed S ι
  cancelled : ∀ (c : Nat) x cycle, σ.computations[c]? = some x →
    x.ivar = some (.restored (.cancelled cycle)) → Cyclic S ι requests
  cycleError : σ.cycleError ≠ none → Cyclic S ι requests

/-- What holds of the state of Memo in a run on the inputs with the requests. -/
structure Valid (S : Spec N V X) (ι : N → V) (requests : List (Prog N V X)) (σ : Store N V X) :
    Prop where
  inv : σ.Inv
  inputs : σ.inputs = ι
  checkPoint : σ.checkPoint = none
  cached : σ.Cached S ι (Cyclic S ι requests)
  works : σ.Works S ι requests

/-- What every step keeps. A record that changes in the run is stamped with it. -/
structure Keeps (σ σ' : Store N V X) : Prop extends Le σ σ' where
  record : ∀ n, Node.SameRecord (σ.node n) (σ'.node n) ∨
    (σ'.node n).lastValidatedAt = σ.run ∧
      ((σ'.node n).value = (σ.node n).value ∧
          (σ'.node n).lastChangedAt = (σ.node n).lastChangedAt ∨
        (σ'.node n).lastChangedAt = σ.run)

variable {σ σ' σ'' : Store N V X} {S : Spec N V X} {ι : N → V} {requests : List (Prog N V X)}

namespace Keeps

theorem refl (σ : Store N V X) : Keeps σ σ := ⟨.refl σ, fun _ => .inl (.refl _)⟩

theorem trans (h : Keeps σ σ') (h' : Keeps σ' σ'') : Keeps σ σ'' := by
  refine ⟨h.toLe.trans h'.toLe, fun n => ?_⟩
  rcases h.record n with hsame | ⟨hvalidated, hvalue⟩
  · rcases h'.record n with hsame' | ⟨hvalidated', hvalue'⟩
    · exact .inl ⟨hsame'.value.trans hsame.value, hsame'.lastChangedAt.trans hsame.lastChangedAt,
        hsame'.lastValidatedAt.trans hsame.lastValidatedAt, hsame'.deps.trans hsame.deps⟩
    · right
      rw [← h.run, ← hsame.value, ← hsame.lastChangedAt]
      exact ⟨hvalidated', hvalue'⟩
  · right
    rcases h'.record n with hsame' | ⟨hvalidated', hvalue'⟩
    · rw [hsame'.lastValidatedAt, hsame'.value, hsame'.lastChangedAt]
      exact ⟨hvalidated, hvalue⟩
    · rw [h.run] at hvalidated' hvalue'
      refine ⟨hvalidated', ?_⟩
      rcases hvalue' with ⟨hv, hc⟩ | hc
      · rw [hv, hc]
        exact hvalue
      · exact .inr hc

/-- A node that has not been changed since an earlier run has kept its value. -/
theorem value_eq (h : Keeps σ σ') {n : N} (hn : (σ'.node n).lastChangedAt < σ.run) :
    (σ'.node n).value = (σ.node n).value ∧
      (σ'.node n).lastChangedAt = (σ.node n).lastChangedAt := by
  rcases h.record n with hsame | ⟨-, hvalue | hchanged⟩
  · exact ⟨hsame.value, hsame.lastChangedAt⟩
  · exact hvalue
  · omega

end Keeps

variable {n m : N} {excuse : Prop} {phase : Phase} {c : Nat} {p : Prog N V X} {st stack : List Nat}

theorem Chain.mono (h : Le σ σ') (hst : σ.Chain S ι st n) : σ'.Chain S ι st n := by
  induction st generalizing n with
  | nil => trivial
  | cons f st ih =>
    obtain ⟨m, phase, hf, hneeds, hst⟩ := hst
    exact ⟨m, phase, h.isComputation hf, hneeds, ih hst⟩

theorem Chain.stackOk (hst : σ.Chain S ι st n) : σ.StackOk st := by
  induction st generalizing n with
  | nil => exact nofun
  | cons f st ih =>
    obtain ⟨m, phase, hf, -, hst⟩ := hst
    exact List.forall_mem_cons.mpr ⟨hf.lt, ih hst⟩

/-! ## Steps that change the states of nodes only -/

theorem Cached.same (h : σ.Cached S ι excuse)
    (hrecord : ∀ n, Node.SameRecord (σ.node n) (σ'.node n))
    (hcurrent : ∀ n, σ'.Current n ↔ σ.Current n) (husable : ∀ n, σ'.Usable n → σ.Usable n) :
    σ'.Cached S ι excuse where
  changed n := by
    rw [(hrecord n).lastChangedAt, (hrecord n).lastValidatedAt]
    exact h.changed n
  var n hf hn := by
    rw [(hrecord n).value] at hn ⊢
    rw [(hrecord n).deps]
    obtain ⟨hdeps, hvalue⟩ := h.var n hf hn
    exact ⟨hdeps, fun hu => hvalue (husable n hu)⟩
  record n p x hf hx hr := by
    rw [(hrecord n).value] at hx
    rw [(hrecord n).deps, (hrecord n).lastValidatedAt]
    obtain ⟨α, hresult, hdeps, hα⟩ := h.record n p x hf hx hr
    refine ⟨α, hresult, hdeps, fun m hm => ?_⟩
    rw [(hrecord m).lastChangedAt, (hrecord m).value]
    exact hα m hm
  fresh n x hn hx hr := by
    rw [(hrecord n).value] at hx
    rw [(hrecord n).deps]
    exact fun m hm => (hcurrent m).mpr (h.fresh n x ((hcurrent n).mp hn) hx hr m hm)
  answered n x hn hx := by
    rw [(hrecord n).value] at hx
    exact h.answered n x ((hcurrent n).mp hn) hx

theorem EdgesNeed.of_le (h : σ.EdgesNeed S ι) (hle : Le σ σ') (hdag : σ'.dag = σ.dag) :
    σ'.EdgesNeed S ι := by
  intro a b hab
  obtain ⟨n, m, p, p', hn, hm, hneeds⟩ := h a b (hdag ▸ hab)
  exact ⟨n, m, p, p', hle.isComputation hn, hle.isComputation hm, hneeds⟩

/-- No computation is new, and a node that one of them held is held by it still or is done. -/
theorem Works.of_le (h : σ.Works S ι requests) (hle : Le σ σ')
    (hold : ∀ {c n phase}, σ'.IsComputation c n phase → σ.IsComputation c n phase)
    (hrestoring : ∀ c n, (σ.node n).state = .restoring c →
      (σ'.node n).state = .restoring c ∨ σ'.Settled n)
    (hcomputing : ∀ c n, (σ.node n).state = .computing c →
      (σ'.node n).state = .computing c ∨ σ'.Current n) (hedges : σ'.EdgesNeed S ι)
    (hcancelled : ∀ (c : Nat) x cycle, σ'.computations[c]? = some x →
      x.ivar = some (.restored (.cancelled cycle)) → Cyclic S ι requests)
    (hcycle : σ'.cycleError ≠ none → Cyclic S ι requests) : σ'.Works S ι requests where
  unique c c' n phase hc hc' := h.unique c c' n phase (hold hc) (hold hc')
  restored c n hc :=
    (h.restored c n (hold hc)).elim (hrestoring c n) fun hn => .inr (hle.settled n hn)
  computed c n hc :=
    (h.computed c n (hold hc)).elim (hcomputing c n) fun hn => .inr (hle.isCurrent hn)
  demanded c n phase hc := h.demanded c n phase (hold hc)
  edges := hedges
  cancelled := hcancelled
  cycleError := hcycle

section

variable (h : SameNodes σ σ')
include h

theorem SameNodes.keeps : Keeps σ σ' :=
  ⟨h.le, fun n => .inl (.of_eq (by rw [h.node]))⟩

theorem SameNodes.cached (hcached : σ.Cached S ι excuse) : σ'.Cached S ι excuse := by
  refine hcached.same (fun n => .of_eq (by rw [h.node]))
    (fun n => ⟨h.symm.isCurrent, h.isCurrent⟩) fun n hn => ?_
  unfold Usable at hn
  rw [h.node] at hn
  exact hn

theorem SameNodes.works (hworks : σ.Works S ι requests) (hedges : σ'.EdgesNeed S ι)
    (hcycle : σ'.cycleError ≠ none → Cyclic S ι requests) : σ'.Works S ι requests := by
  refine hworks.of_le h.le h.symm.isComputation (fun c n hn => .inl ?_) (fun c n hn => .inl ?_)
    hedges (fun c x cycle hx hivar => ?_) hcycle
  · rw [h.node, hn]
  · rw [h.node, hn]
  · obtain ⟨x', hx', -, -, hivar'⟩ := h.symm.getElem? hx
    exact hworks.cancelled c x' cycle hx' (hivar'.trans hivar)

end

/-- Reachability in the graph is reachability by need. -/
theorem EdgesNeed.reach (h : σ.EdgesNeed S ι) {a b : Nat} {phase' : Phase}
    (hreach : ReflTransGen (fun a b => (a, b) ∈ σ.dag) a b) (ha : σ.IsComputation a n phase)
    (hb : σ.IsComputation b m phase') : ReflTransGen (Needs S ι) n m := by
  induction hreach generalizing m phase' with
  | refl =>
    rw [(ha.unique hb).1]
  | tail _ hedge ih =>
    obtain ⟨n', m', p, p', hn', hm', hneeds⟩ := h _ _ hedge
    rw [← (hm'.unique hb).1]
    exact (ih hn').tail hneeds

/-- A path is added along nodes that need each other, and a cycle is one of them. -/
theorem addPathImpl_needs {D : CycleDetection} {o : Option (List N)} (hedges : σ.EdgesNeed S ι)
    (hstack : σ.Chain S ι stack m) (hc : σ.IsComputation c m phase)
    (h : addPathImpl D stack c σ = some (σ', o)) :
    σ'.EdgesNeed S ι ∧ σ'.cycleError = σ.cycleError ∧ σ'.checkPoint = σ.checkPoint ∧
      (o ≠ none → ∃ f n phase, σ.IsComputation f n phase ∧ TransGen (Needs S ι) n n) := by
  induction stack generalizing σ c m phase with
  | nil =>
    cases h
    exact ⟨hedges, rfl, rfl, nofun⟩
  | cons frame stack ih =>
    obtain ⟨n, phase', hframe, hneeds, hstack⟩ := hstack
    unfold addPathImpl at h
    simp only at h
    split at h
    · cases h
      exact ⟨hedges, rfl, rfl, nofun⟩
    · by_cases hmem : (frame, c) ∈ σ.dag
      · rw [CycleDetection.addAssumingMissing, if_pos hmem] at h
        cases h
      · rcases D.addAssumingMissing_cases hmem with ⟨cycle, heq, hreach⟩ | ⟨heq, -⟩
        · simp only [heq] at h
          cases h
          refine ⟨hedges, rfl, rfl, fun _ => ⟨frame, n, phase', hframe, ?_⟩⟩
          exact .head' hneeds (hedges.reach hreach hc hframe)
        · simp only [heq] at h
          have hsame := sameNodes_recordChild σ frame c ((frame, c) :: σ.dag)
          have hedges' : (σ.recordChild frame c ((frame, c) :: σ.dag)).EdgesNeed S ι := by
            intro a b hab
            rcases List.mem_cons.mp hab with heq | hold
            · cases heq
              exact ⟨n, m, phase', phase, hsame.isComputation hframe, hsame.isComputation hc,
                hneeds⟩
            · obtain ⟨n', m', p, p', hn', hm', hneeds'⟩ := hedges a b hold
              exact ⟨n', m', p, p', hsame.isComputation hn', hsame.isComputation hm', hneeds'⟩
          split at h
          · obtain ⟨he, hcycle, hcheck, ho⟩ := ih hedges' (hstack.mono hsame.le)
              (hsame.isComputation hframe) h
            refine ⟨he, hcycle, hcheck, fun hne => ?_⟩
            obtain ⟨f, n', p, hf, hn'⟩ := ho hne
            exact ⟨f, n', p, hsame.symm.isComputation hf, hn'⟩
          · cases h
            exact ⟨hedges', rfl, rfl, nofun⟩

/-- `add_path_to` in a valid state: a cycle that it reports is one of the nodes. -/
theorem Valid.addPathTo (h : σ.Valid S ι requests) (D : CycleDetection)
    (hstack : σ.Chain S ι stack m) (hc : σ.IsComputation c m phase) :
    ∃ σ' o, σ.addPathTo D stack c = some (σ', o) ∧ SameNodes σ σ' ∧ σ'.Valid S ι requests ∧
      (o ≠ none → Cyclic S ι requests) := by
  obtain ⟨σ', o, heq, hsame, hrec⟩ := addPathTo_spec D c hstack.stackOk h.inv.recorded
  have hvalid (hedges : σ'.EdgesNeed S ι) (hcheck : σ'.checkPoint = none)
      (hcycle : σ'.cycleError ≠ none → Cyclic S ι requests) : σ'.Valid S ι requests :=
    ⟨hsame.inv h.inv hrec, hsame.inputs.trans h.inputs, hcheck, hsame.cached h.cached,
      hsame.works h.works hedges hcycle⟩
  refine ⟨σ', o, heq, hsame, ?_⟩
  unfold Store.addPathTo at heq
  split at heq
  · next cycle hcycle =>
    cases heq
    have hcyclic := h.works.cycleError (by rw [hcycle]; exact Option.some_ne_none _)
    exact ⟨h, fun _ => hcyclic⟩
  · next hnone =>
    cases himpl : addPathImpl D stack c σ with
    | none => rw [himpl] at heq; cases heq
    | some x =>
      obtain ⟨σ₁, o₁⟩ := x
      obtain ⟨hedges, hcycle, hcheck, ho⟩ := addPathImpl_needs h.works.edges hstack hc himpl
      rw [himpl] at heq
      cases o₁ with
      | none =>
        cases heq
        refine ⟨hvalid hedges (hcheck.trans h.checkPoint) fun hne => ?_, absurd rfl⟩
        exact absurd (hcycle.trans hnone) hne
      | some cycle =>
        cases heq
        obtain ⟨f, n, p, hf, hn⟩ := ho (Option.some_ne_none _)
        have hcyclic : Cyclic S ι requests := ⟨n, h.works.demanded f n p hf, hn⟩
        exact ⟨hvalid hedges (hcheck.trans h.checkPoint) fun _ => hcyclic, fun _ => hcyclic⟩

/-! ## Starting and ending a computation -/

variable {excuse : Prop}

section Starting

variable [DecidableEq N] {n : N} {phase : Phase} {state : State}

theorem sameRecord_start (m : N) : Node.SameRecord (σ.node m) ((σ.start n phase state).node m) := by
  by_cases hmn : m = n
  · subst hmn
    rw [start_self]
    exact ⟨rfl, rfl, rfl, rfl⟩
  · exact .of_eq (start_other hmn)

theorem CanStart.keeps (h : CanStart σ n phase state) : Keeps σ (σ.start n phase state) :=
  ⟨h.le, fun m => .inl (sameRecord_start m)⟩

theorem CanStart.cached (h : CanStart σ n phase state) (hcached : σ.Cached S ι excuse) :
    (σ.start n phase state).Cached S ι excuse := by
  refine hcached.same sameRecord_start (fun m => ⟨fun hm => ?_, h.le.isCurrent⟩) fun m hm => ?_
  · by_cases hmn : m = n
    · subst hmn
      have hstate := hm.state
      rw [start_self] at hstate
      cases h <;> cases hstate
    · exact hm.of_node (start_other hmn) rfl
  · unfold Usable at hm ⊢
    by_cases hmn : m = n
    · subst hmn
      rw [start_self] at hm
      cases h with
      | restore hstate _ => exact .inl hstate
      | compute =>
        rcases hm with hm | ⟨c, hm⟩ <;> cases hm
    · rw [start_other hmn] at hm
      exact hm

theorem isComputation_start_cases {phase' : Phase}
    (hc : (σ.start n phase state).IsComputation c m phase') :
    σ.IsComputation c m phase' ∨ c = σ.computations.length ∧ m = n ∧ phase' = phase := by
  obtain ⟨x, hx, rfl, rfl⟩ := hc
  obtain hold | ⟨rfl, rfl⟩ := getElem?_start_cases hx
  · exact .inl ⟨x, hold, rfl, rfl⟩
  · exact .inr ⟨rfl, rfl, rfl⟩

omit [DecidableEq N] in
theorem CanStart.not_isComputation (h : CanStart σ n phase state)
    (hworks : σ.Works S ι requests) (c : Nat) : ¬σ.IsComputation c n phase := by
  intro hc
  cases h with
  | restore hstate hstale =>
    rcases hworks.restored c n hc with hrestoring | hsettled
    · rw [hstate] at hrestoring
      cases hrestoring
    · exact hstale (hsettled.current hstate).validated
  | compute hstate =>
    rcases hworks.computed c n hc with hcomputing | hcurrent
    · rw [hcomputing] at hstate
      rcases hstate with hstate | hstate <;> cases hstate
    · rw [hcurrent.state] at hstate
      rcases hstate with hstate | hstate <;> cases hstate

theorem CanStart.works (h : CanStart σ n phase state) (hworks : σ.Works S ι requests)
    (hn : Demanded S ι requests n) : (σ.start n phase state).Works S ι requests where
  unique c c' m phase' hc hc' := by
    rcases isComputation_start_cases hc with hold | ⟨heq, rfl, rfl⟩ <;>
      rcases isComputation_start_cases hc' with hold' | ⟨heq', hm, hphase⟩
    · exact hworks.unique c c' m phase' hold hold'
    · subst hm hphase
      exact absurd hold (h.not_isComputation hworks c)
    · exact absurd hold' (h.not_isComputation hworks c')
    · rw [heq, heq']
  restored c m hc := by
    rcases isComputation_start_cases hc with hc | ⟨rfl, rfl, rfl⟩
    · rcases hworks.restored c m hc with hm | hm
      · left
        rw [start_other]
        · exact hm
        · rintro rfl
          exact (h.not_held c).1 hm
      · exact .inr (h.le.settled m hm)
    · left
      rw [start_self]
      cases h
      rfl
  computed c m hc := by
    rcases isComputation_start_cases hc with hc | ⟨rfl, rfl, rfl⟩
    · rcases hworks.computed c m hc with hm | hm
      · left
        rw [start_other]
        · exact hm
        · rintro rfl
          exact (h.not_held c).2 hm
      · exact .inr (h.le.isCurrent hm)
    · left
      rw [start_self]
      cases h
      rfl
  demanded c m phase' hc := by
    rcases isComputation_start_cases hc with hc | ⟨-, rfl, -⟩
    · exact hworks.demanded c m phase' hc
    · exact hn
  edges := hworks.edges.of_le h.le rfl
  cancelled c x cycle hx hivar := by
    rcases getElem?_start_cases hx with hold | ⟨-, rfl⟩
    · exact hworks.cancelled c x cycle hold hivar
    · cases hivar
  cycleError := hworks.cycleError

theorem CanStart.valid (h : CanStart σ n phase state) (hvalid : σ.Valid S ι requests)
    (hn : Demanded S ι requests n) : (σ.start n phase state).Valid S ι requests :=
  ⟨h.inv hvalid.inv, hvalid.inputs, hvalid.checkPoint, h.cached hvalid.cached,
    h.works hvalid.works hn⟩

end Starting

theorem keeps_fill (σ : Store N V X) (c : Nat) (r : Result N) : Keeps σ (σ.fill c r) :=
  ⟨le_fill σ c r, fun _ => .inl (.refl _)⟩

theorem isComputation_fill {c' : Nat} {r : Result N} :
    (σ.fill c r).IsComputation c' n phase → σ.IsComputation c' n phase := by
  rintro ⟨x, hx, rfl, rfl⟩
  rw [getElem?_fill] at hx
  obtain ⟨y, hy, rfl⟩ := Option.map_eq_some_iff.mp hx
  exact ⟨y, hy, rfl, rfl⟩

/-- The result of a computation is kept, and says that it was cancelled because of a cycle only. -/
theorem Valid.fill (h : σ.Valid S ι requests) {r : Result N} (hc : σ.IsComputation c n phase)
    (hr : σ.ResultOk n phase r)
    (hcancelled : ∀ cycle, r = .restored (.cancelled cycle) → Cyclic S ι requests) :
    (σ.fill c r).Valid S ι requests := by
  refine ⟨inv_fill h.inv hc hr, h.inputs, h.checkPoint,
    h.cached.same (fun _ => .refl _) (fun _ => ⟨fun hm => { hm with }, fun hm =>
      { hm with }⟩) fun _ hm => hm, ?_⟩
  have hle := le_fill σ c r
  refine h.works.of_le hle isComputation_fill (fun _ _ hm => .inl hm) (fun _ _ hm => .inl hm)
    (h.works.edges.of_le hle rfl) (fun c' x cycle hx hivar => ?_) h.works.cycleError
  rw [getElem?_fill] at hx
  obtain ⟨y, hy, rfl⟩ := Option.map_eq_some_iff.mp hx
  simp only at hivar
  split at hivar
  · cases hold : y.ivar with
    | none =>
      rw [hold] at hivar
      exact hcancelled cycle (Option.some.inj hivar)
    | some r₀ =>
      rw [hold] at hivar
      exact h.works.cancelled c' y cycle hy (hold.trans hivar)
  · exact h.works.cancelled c' y cycle hy hivar

/-! ## Releasing a node -/

variable {α : N → Except (Errors N X) V}

theorem mem_nodes_deps (hdeps : (σ.node n).deps = .flattenSeqs (p.sections α)) (m : N) :
    m ∈ (σ.node n).deps.nodes ↔ m ∈ p.reads α := by
  rw [hdeps, Deps.nodes_flattenSeqs, Prog.nodesAll_sections]

section Releasing

variable {c : Nat} {n : N} (h : Released σ c n σ') (hinv : σ.Inv)
  (hn : (σ.node n).state = .restoring c ∨ (σ.node n).state = .computing c)

include h hn

/-- The computations of a node that is released are over. -/
theorem Released.works (hworks : σ.Works S ι requests)
    (hcycle : σ'.cycleError = σ.cycleError) : σ'.Works S ι requests := by
  refine hworks.of_le (h.le hn) (fun hc => ?_) (fun c' m hm => ?_) (fun c' m hm => ?_)
    (hworks.edges.of_le (h.le hn) h.dag) (h.computations ▸ hworks.cancelled)
    (hcycle ▸ hworks.cycleError)
  · unfold IsComputation at hc ⊢
    rwa [h.computations] at hc
  · by_cases hmn : m = n
    · subst hmn
      exact .inr h.settled
    · rw [h.other m hmn]
      exact .inl hm
  · by_cases hmn : m = n
    · subst hmn
      rcases h.self with ⟨hcurrent, -⟩ | ⟨hrestoring, -⟩
      · exact .inr hcurrent
      · rw [hm] at hrestoring
        cases hrestoring
    · rw [h.other m hmn]
      exact .inl hm

include hinv in
/-- A node that becomes current with a record that its function has just given, or that has been
found to hold still. No other record can have relied on it in the current run. -/
theorem Released.cached (hcached : σ.Cached S ι excuse) (hcurrent : σ'.Current n)
    (hvalue : (σ'.node n).value = (σ.node n).value ∧
      (σ'.node n).lastChangedAt = (σ.node n).lastChangedAt ∨ (σ'.node n).lastChangedAt = σ.run)
    (hvar : S.f n = .var → (σ'.node n).deps = .empty ∧ (σ'.node n).value = .ok (ι n))
    (hrecord : ∀ p x, S.f n = .prog p → (σ'.node n).value = .ofResult x → Reproducible x → ∃ α,
      x = p.result α ∧ (σ'.node n).deps = .flattenSeqs (p.sections α) ∧ ∀ m ∈ p.reads α,
      σ.Current m ∧ (σ.node m).value.get? = some (α m))
    (hanswered : ∀ x, (σ'.node n).value = .ofResult x → Answered S ι excuse n x) :
    σ'.Cached S ι excuse := by
  have hle := h.le hn
  have hstale : ¬σ.Current n := by
    intro hcur
    rcases hn with hn | hn <;> rw [hcur.state] at hn <;> cases hn
  have hother {m : N} (hm : σ'.Current m) (hmn : m ≠ n) : σ.Current m :=
    hm.of_node (h.other m hmn) h.run
  have hread {m : N} {y : Except (Errors N X) V}
      (hm : σ.Current m ∧ (σ.node m).value.get? = some y) :
      (σ'.node m).value.get? = some y := by
    rw [hle.current m hm.1]
    exact hm.2
  refine ⟨fun m => ?_, fun m hf hm => ?_, fun m p x hf hx hr => ?_, fun m x hm hx hr => ?_,
    fun m x hm hx => ?_⟩
  · by_cases hmn : m = n
    · subst hmn
      rw [hcurrent.validated, h.run]
      rcases hvalue with ⟨-, hchanged⟩ | hchanged
      · rw [hchanged]
        exact Int.le_trans (hcached.changed m) (hinv.validated m)
      · rw [hchanged]
    · rw [h.other m hmn]
      exact hcached.changed m
  · by_cases hmn : m = n
    · subst hmn
      exact ⟨(hvar hf).1, fun _ => (hvar hf).2⟩
    · unfold Usable
      rw [h.other m hmn] at hm ⊢
      exact hcached.var m hf hm
  · by_cases hmn : m = n
    · subst hmn
      obtain ⟨α, hresult, hdeps, hα⟩ := hrecord p x hf hx hr
      exact ⟨α, hresult, hdeps, fun m' hm' _ => hread (hα m' hm')⟩
    · rw [h.other m hmn] at hx ⊢
      obtain ⟨α, hresult, hdeps, hα⟩ := hcached.record m p x hf hx hr
      refine ⟨α, hresult, hdeps, fun m' hm' hstamp => ?_⟩
      by_cases hmn' : m' = n
      · subst hmn'
        rcases hvalue with ⟨heq, hchanged⟩ | hchanged
        · rw [heq]
          rw [hchanged] at hstamp
          exact hα m' hm' hstamp
        · -- then the reader is current, and so is what it depends on
          have hvalidated := hinv.validated m
          have hm : (σ.node m).lastValidatedAt = σ.run := by omega
          refine absurd (hcached.fresh m x ⟨hinv.current m hm, hm⟩ hx hr m' ?_) hstale
          exact (mem_nodes_deps hdeps m').mpr hm'
      · rw [h.other m' hmn'] at hstamp ⊢
        exact hα m' hm' hstamp
  · intro m' hm'
    by_cases hmn : m = n
    · subst hmn
      cases hf : S.f m with
      | var =>
        rw [(hvar hf).1] at hm'
        cases hm'
      | prog p =>
        obtain ⟨α, -, hdeps, hα⟩ := hrecord p x hf hx hr
        exact hle.isCurrent (hα m' ((mem_nodes_deps hdeps m').mp hm')).1
    · have hm := hother hm hmn
      rw [h.other m hmn] at hx hm'
      exact hle.isCurrent (hcached.fresh m x hm hx hr m' hm')
  · by_cases hmn : m = n
    · subst hmn
      exact hanswered x hx
    · have hm := hother hm hmn
      rw [h.other m hmn] at hx
      exact hcached.answered m x hm hx

end Releasing

/-- The order in which a node is released keeps all other records. -/
theorem Released.keeps (h : Released σ c n σ')
    (hn : (σ.node n).state = .restoring c ∨ (σ.node n).state = .computing c)
    (hvalidated : (σ'.node n).lastValidatedAt = σ.run)
    (hvalue : (σ'.node n).value = (σ.node n).value ∧
      (σ'.node n).lastChangedAt = (σ.node n).lastChangedAt ∨ (σ'.node n).lastChangedAt = σ.run) :
    Keeps σ σ' := by
  refine ⟨h.le hn, fun m => ?_⟩
  by_cases hmn : m = n
  · subst hmn
    exact .inr ⟨hvalidated, hvalue⟩
  · exact .inl (.of_eq (h.other m hmn))

def answer (σ : Store N V X) (n : N) : Except (Errors N X) V :=
  (σ.node n).value.get?.getD (.error ⟨∅, true⟩)

theorem Inv.answer (hinv : σ.Inv) (hn : σ.Current n) :
    ∃ x, (σ.node n).value = .ofResult x ∧ seen x = σ.answer n := by
  obtain ⟨x, hx⟩ := exists_ofResult fun hvalue => (hinv.initialized n hvalue).1 hn.state
  refine ⟨x, hx, ?_⟩
  rw [Store.answer, hx, get?_ofResult]
  rfl

theorem Inv.get?_answer (hinv : σ.Inv) (hn : σ.Current n) :
    (σ.node n).value.get? = some (σ.answer n) := by
  obtain ⟨x, hx, hseen⟩ := hinv.answer hn
  rw [hx, get?_ofResult, hseen]

theorem Le.answer (h : Le σ σ') (hn : σ.Current n) : σ'.answer n = σ.answer n := by
  rw [Store.answer, Store.answer, h.current n hn]

/-- A function has run: it has read nodes that are current now, or failed because of a cycle. -/
def Ran (excuse : Prop) (p : Prog N V X) (collector : List (Deps N)) (σ : Store N V X)
    (r : Except (Errors N X) V) (collector' : List (Deps N)) : Prop :=
  r = p.result σ.answer ∧ collector' = (p.sections σ.answer).reverse ++ collector ∧
      (∀ m ∈ p.reads σ.answer, σ.Current m) ∨
    (∃ e, r = .error e ∧ e.reproducible = false) ∧ excuse

theorem Ran.mono {collector collector' : List (Deps N)} {r : Except (Errors N X) V} (h : Le σ σ')
    (hran : Ran excuse p collector σ r collector') : Ran excuse p collector σ' r collector' := by
  refine hran.imp_left ?_
  rintro ⟨hr, hcollector, hreads⟩
  obtain ⟨hresult, heq, hsections⟩ := p.congr (α := σ.answer) (β := σ'.answer) fun m hm _ =>
    (h.answer (hreads m hm)).symm
  rw [← hresult, ← hsections, ← heq]
  exact ⟨hr, hcollector, fun m hm => h.isCurrent (hreads m hm)⟩

/-- The function of a node whose reads are current. -/
theorem Valid.answered (h : σ.Valid S ι requests) (hp : p.Propagates)
    (hα : ∀ m ∈ p.reads α, σ.Current m ∧ (σ.node m).value.get? = some (α m)) :
    p.Evaluates S ι (p.result α) ∨ (∃ e, p.result α = .error e) ∧ Cyclic S ι requests := by
  apply hp.answered
  intro m hm
  obtain ⟨hcurrent, hget⟩ := hα m hm
  obtain ⟨x, hx, -⟩ := h.inv.answer hcurrent
  rw [hx, get?_ofResult] at hget
  exact ⟨x, Option.some.inj hget, h.cached.answered m x hcurrent hx⟩

end Store

/-! ## The ends of restorations and computations -/

/-- A cutoff identifies equal values only. -/
def Spec.CutoffExact (S : Spec N V X) : Prop :=
  ∀ n equal, S.cutoff n = some equal → ∀ old new, equal old new = true → old = new

/-- No function has an error handler. -/
def Spec.Propagates (S : Spec N V X) : Prop := ∀ n p, S.f n = .prog p → p.Propagates

section Finishing

variable [DecidableEq N] [DecidableEq X] {S : Spec N V X} {σ : Store N V X} {ι : N → V}
  {requests : List (Prog N V X)} {n : N} {c : Nat}

section

variable (hS : S.CutoffExact)
include hS

theorem Spec.CutoffExact.eq_of_not_changed {old new : Value N V X}
    (h : S.valueChanged n old new = false) : old = new := by
  unfold Spec.valueChanged at h
  split at h
  case h_7 old new =>
    unfold Spec.outputChanged at h
    split at h
    · cases h
    · next equal hequal =>
      rw [hS n equal hequal old new (by simpa using h)]
  case h_8 prev cur =>
    rw [show prev = cur by simpa using h]
  all_goals cases h

theorem updateValue_node (value : Value N V X) (deps : Deps N) :
    ((S.updateValue n value deps σ).node n).value = value ∧
      ((S.updateValue n value deps σ).node n).deps = deps ∧
      ((S.updateValue n value deps σ).node n).lastValidatedAt = σ.run ∧
      (((S.updateValue n value deps σ).node n).value = (σ.node n).value ∧
          ((S.updateValue n value deps σ).node n).lastChangedAt = (σ.node n).lastChangedAt ∨
        ((S.updateValue n value deps σ).node n).lastChangedAt = σ.run) := by
  simp only [Spec.updateValue, Store.validateValue, Store.setNode, ↓reduceIte, true_and]
  cases hchanged : S.valueChanged n (σ.node n).value value with
  | true => exact ⟨rfl, .inr rfl⟩
  | false => exact ⟨hS.eq_of_not_changed hchanged, .inl ⟨rfl, rfl⟩⟩

theorem Store.Valid.updateValue (h : σ.Valid S ι requests)
    (hn : (σ.node n).state = .restoring c ∨ (σ.node n).state = .computing c)
    (x : Except (Errors N X) V) (deps : Deps N) (lastSawNonReproducibleExnAt : Int)
    (hvar : S.f n = .var → deps = .empty ∧ x = .ok (ι n))
    (hrecord : ∀ p, S.f n = .prog p → Reproducible x →
      ∃ α, x = p.result α ∧ deps = .flattenSeqs (p.sections α) ∧
        ∀ m ∈ p.reads α, σ.Current m ∧ (σ.node m).value.get? = some (α m))
    (hanswered : Answered S ι (Cyclic S ι requests) n x) :
    (S.updateValue n (.ofResult x) deps { σ with lastSawNonReproducibleExnAt }).Valid S ι requests ∧
      Keeps σ (S.updateValue n (.ofResult x) deps { σ with lastSawNonReproducibleExnAt }) := by
  obtain ⟨hvalue, hdeps, hvalidated, hchanged⟩ := updateValue_node (n := n)
    (σ := { σ with lastSawNonReproducibleExnAt }) hS (.ofResult x) deps
  obtain ⟨hrun, hcomputations, hdag, hother, hself⟩ := released_updateValue (c := c) (n := n)
    (σ := { σ with lastSawNonReproducibleExnAt }) (S := S) (ofResult_ne_uninitialized x) deps
  generalize hσ' : S.updateValue n (.ofResult x) deps { σ with lastSawNonReproducibleExnAt } =
    σ' at *
  have hreleased : Released σ c n σ' := ⟨hrun, hcomputations, hdag, hother, hself⟩
  have hcurrent : σ'.Current n :=
    ⟨by
      rw [← hσ', Spec.updateValue, validateValue, setNode]
      exact congrArg Node.state (if_pos rfl),
      hvalidated.trans hrun.symm⟩
  refine ⟨⟨hreleased.inv h.inv hn, ?_, ?_, ?_, hreleased.works hn h.works ?_⟩,
    hreleased.keeps hn hvalidated hchanged⟩
  · rw [← hσ']
    exact h.inputs
  · rw [← hσ']
    exact h.checkPoint
  · apply hreleased.cached h.inv hn h.cached hcurrent hchanged
    · intro hf
      obtain ⟨rfl, rfl⟩ := hvar hf
      exact ⟨hdeps, hvalue⟩
    · intro p y hf hy hr
      cases ofResult_injective (hvalue.symm.trans hy)
      rw [hdeps]
      exact hrecord p hf hr
    · intro y hy
      cases ofResult_injective (hvalue.symm.trans hy)
      exact hanswered
  · rw [← hσ']
    rfl

end

/-- A restoration that leaves its node out of date keeps all records. -/
theorem Store.Valid.outOfDate (h : σ.Valid S ι requests) (hn : (σ.node n).state = .restoring c) :
    (finishRestore S n .changed σ).Valid S ι requests ∧ Keeps σ (finishRestore S n .changed σ) := by
  have hreleased := released_finishRestore (S := S) h.inv hn .changed
  have hle := hreleased.le (.inl hn)
  have hnode : (finishRestore S n .changed σ).node n = { σ.node n with state := .outOfDate } :=
    if_pos rfl
  have hrecord (m : N) : Node.SameRecord (σ.node m) ((finishRestore S n .changed σ).node m) := by
    by_cases hmn : m = n
    · subst hmn
      rw [hnode]
      exact ⟨rfl, rfl, rfl, rfl⟩
    · exact .of_eq (hreleased.other m hmn)
  have hcurrent (m : N) (hm : (finishRestore S n .changed σ).Current m) : σ.Current m := by
    by_cases hmn : m = n
    · subst hmn
      have hstate := hm.state
      rw [hnode] at hstate
      cases hstate
    · exact hm.of_node (hreleased.other m hmn) rfl
  have husable (m : N) (hm : (finishRestore S n .changed σ).Usable m) : σ.Usable m := by
    unfold Usable at hm ⊢
    by_cases hmn : m = n
    · subst hmn
      exact .inr ⟨c, hn⟩
    · rw [hreleased.other m hmn] at hm
      exact hm
  exact ⟨⟨hreleased.inv h.inv (.inl hn), h.inputs, h.checkPoint,
    h.cached.same hrecord (fun m => ⟨hcurrent m, hle.isCurrent⟩) husable,
    hreleased.works (.inl hn) h.works rfl⟩, hle, fun m => .inl (hrecord m)⟩

/-- A restoration may validate a record whose dependencies are current and not newer. -/
theorem Store.Valid.validate (hprop : S.Propagates) (h : σ.Valid S ι requests)
    (hn : (σ.node n).state = .restoring c) {x : Except (Errors N X) V}
    (hx : (σ.node n).value = .ofResult x) (hr : Reproducible x)
    (hdeps : ∀ m ∈ (σ.node n).deps.nodes, σ.Current m ∧
      (σ.node m).lastChangedAt ≤ (σ.node n).lastValidatedAt) :
    (finishRestore S n .unchanged σ).Valid S ι requests ∧
      Keeps σ (finishRestore S n .unchanged σ) := by
  have hreleased := released_finishRestore (S := S) h.inv hn .unchanged
  have hnode : (finishRestore S n .unchanged σ).node n =
      { σ.node n with lastValidatedAt := σ.run, state := .cached } := if_pos rfl
  have hkept : ((finishRestore S n .unchanged σ).node n).value = (σ.node n).value ∧
      ((finishRestore S n .unchanged σ).node n).lastChangedAt = (σ.node n).lastChangedAt := by
    rw [hnode]
    exact ⟨rfl, rfl⟩
  have hvar (hf : S.f n = .var) : (σ.node n).deps = .empty ∧ x = .ok (ι n) := by
    obtain ⟨hempty, hvalue⟩ := h.cached.var n hf (hx ▸ ofResult_ne_uninitialized x)
    have hok : Value.ofResult x = .ofResult (.ok (ι n)) := hx.symm.trans (hvalue (.inr ⟨c, hn⟩))
    exact ⟨hempty, ofResult_injective hok⟩
  have hrecord {p : Prog N V X} (hf : S.f n = .prog p) : ∃ α, x = p.result α ∧
      (σ.node n).deps = .flattenSeqs (p.sections α) ∧
      ∀ m ∈ p.reads α, σ.Current m ∧ (σ.node m).value.get? = some (α m) := by
    obtain ⟨α, hresult, hα, hreads⟩ := h.cached.record n p x hf hx hr
    refine ⟨α, hresult, hα, fun m hm => ?_⟩
    obtain ⟨hcurrent, hstamp⟩ := hdeps m ((mem_nodes_deps hα m).mpr hm)
    exact ⟨hcurrent, hreads m hm hstamp⟩
  refine ⟨⟨hreleased.inv h.inv (.inl hn), h.inputs, h.checkPoint, ?_,
    hreleased.works (.inl hn) h.works rfl⟩,
    hreleased.keeps (.inl hn) (by rw [hnode]) (.inl hkept)⟩
  apply hreleased.cached h.inv (.inl hn) h.cached (finishRestore_current rfl) (.inl hkept)
  · intro hf
    obtain ⟨hempty, rfl⟩ := hvar hf
    rw [hnode]
    exact ⟨hempty, hx⟩
  · intro p y hf hy _
    cases ofResult_injective (hx.symm.trans (hkept.1.symm.trans hy))
    rw [hnode]
    exact hrecord hf
  · intro y hy
    cases ofResult_injective (hx.symm.trans (hkept.1.symm.trans hy))
    cases hf : S.f n with
    | var =>
      obtain ⟨-, rfl⟩ := hvar hf
      exact .inl (.var hf)
    | prog p =>
      obtain ⟨α, rfl, -, hreads⟩ := hrecord hf
      exact (h.answered (hprop n p hf) hreads).imp_left fun he => he.eval hf

theorem Store.Valid.cancel (hS : S.CutoffExact) (h : σ.Valid S ι requests)
    (hn : (σ.node n).state = .restoring c) (hf : S.f n ≠ .var) (hcyclic : Cyclic S ι requests)
    (cycle : List N) : (finishRestore S n (.cancelled cycle) σ).Valid S ι requests ∧
      Keeps σ (finishRestore S n (.cancelled cycle) σ) :=
  h.updateValue hS (.inl hn) (.error (cancelled cycle)) .empty σ.lastSawNonReproducibleExnAt
    (fun hf' => absurd hf' hf) (fun _ _ hr => nomatch hr) (.inr ⟨⟨_, rfl⟩, hcyclic⟩)

theorem Store.Valid.finishCompute (hS : S.CutoffExact) (hprop : S.Propagates)
    (h : σ.Valid S ι requests) (hn : (σ.node n).state = .computing c) {r : Except (Errors N X) V}
    {collector : List (Deps N)} (hvar : S.f n = .var → collector = [] ∧ r = .ok (ι n))
    (hran : ∀ p, S.f n = .prog p → Ran (Cyclic S ι requests) p [] σ r collector) :
    (finishCompute S n r collector σ).Valid S ι requests ∧
      Keeps σ (finishCompute S n r collector σ) := by
  have heq : ∃ w, Memo.finishCompute S n r collector σ =
      S.updateValue n (.ofResult r) (.toStatic collector)
        { σ with lastSawNonReproducibleExnAt := w } := by
    unfold Memo.finishCompute
    split
    · exact ⟨σ.lastSawNonReproducibleExnAt, rfl⟩
    · split
      · exact ⟨σ.lastSawNonReproducibleExnAt, rfl⟩
      · exact ⟨σ.run, rfl⟩
  obtain ⟨w, hw⟩ := heq
  rw [hw]
  apply h.updateValue hS (.inr hn)
  · intro hf
    obtain ⟨rfl, rfl⟩ := hvar hf
    exact ⟨rfl, rfl⟩
  · intro p hf hr
    rcases hran p hf with ⟨rfl, rfl, hreads⟩ | ⟨⟨e, rfl, he⟩, -⟩
    · refine ⟨σ.answer, rfl, ?_, fun m hm => ⟨hreads m hm, h.inv.get?_answer (hreads m hm)⟩⟩
      rw [Deps.toStatic, List.append_nil, List.reverse_reverse]
    · rw [Reproducible, he] at hr
      cases hr
  · cases hf : S.f n with
    | var =>
      obtain ⟨-, rfl⟩ := hvar hf
      exact .inl (.var hf)
    | prog p =>
      rcases hran p hf with ⟨rfl, -, hreads⟩ | ⟨⟨e, rfl, -⟩, hcyclic⟩
      · refine (h.answered (hprop n p hf) fun m hm => ⟨hreads m hm, ?_⟩).imp_left fun he =>
          he.eval hf
        exact h.inv.get?_answer (hreads m hm)
      · exact .inr ⟨⟨e, rfl⟩, hcyclic⟩

end Finishing

end Dune.Memo
