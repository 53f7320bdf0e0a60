import Dune.Memo.Consistency
import Dune.Task.Schedule

/-!
# Histories of runs

Runs of Memo in which the variables that change are invalidated between runs. In every state of such
a history, the functions that have been executed in the current run are those that evaluation of its
requests from scratch executes too, and each of them has been executed once.
-/

namespace Dune.Memo

open List Dune.Task Relation

variable {N V X : Type}

/-! ## Runs and requests -/

variable {σ' : Store N V X}

section Requests

variable {S : Spec N V X} {σ : Store N V X} {ι : N → V} {requests : List (Prog N V X)}

namespace Store

theorem Cached.mono {excuse excuse' : Prop} (himp : excuse → excuse')
    (h : σ.Cached S ι excuse) : σ.Cached S ι excuse' :=
  ⟨h.changed, h.var, h.record, h.fresh, fun n x hn hx =>
    (h.answered n x hn hx).imp_right fun he => ⟨he.1, himp he.2⟩⟩

theorem Valid.request (h : σ.Valid S ι requests) (p : Prog N V X) :
    Valid S ι (p :: requests) { σ with cycleError := none } := by
  have hsame : SameNodes σ { σ with cycleError := none } := ⟨rfl, rfl, rfl, fun _ => rfl⟩
  refine ⟨hsame.inv h.inv h.inv.recorded, h.inputs, h.checkPoint,
    hsame.cached (h.cached.mono (Cyclic.mono p)), ?_⟩
  have hworks : σ.Works S ι (p :: requests) :=
    ⟨h.works.unique, h.works.restored, h.works.computed,
      fun c n phase hc => (h.works.demanded c n phase hc).mono p, h.works.edges,
      fun c x cycle hx hivar => (h.works.cancelled c x cycle hx hivar).mono p,
      fun hne => (h.works.cycleError hne).mono p⟩
  exact hsame.works hworks h.works.edges fun hne => absurd rfl hne

end Store

section Reset

variable [DecidableEq N]

theorem execute_spec {ns : List N} (h : execute ns σ = some σ') :
    σ'.run = σ.run ∧ σ'.checkPoint = σ.checkPoint ∧
      ∀ m, Node.SameRecord (σ.node m) (σ'.node m) ∧
        ((σ'.node m).state = .notCached ∨ m ∉ ns ∧ (σ'.node m).state = (σ.node m).state) := by
  induction ns generalizing σ with
  | nil =>
    cases h
    exact ⟨rfl, rfl, fun m => ⟨.refl _, .inr ⟨nofun, rfl⟩⟩⟩
  | cons n ns ih =>
    obtain ⟨σ₁, heq, h⟩ := Option.bind_eq_some_iff.mp h
    have hone : σ₁.run = σ.run ∧ σ₁.checkPoint = σ.checkPoint ∧
        (σ₁.node n).state = .notCached ∧ Node.SameRecord (σ.node n) (σ₁.node n) ∧
        ∀ m, m ≠ n → σ₁.node m = σ.node m := by
      have hset : ((σ.setState n .notCached).node n) = { σ.node n with state := .notCached } :=
        if_pos rfl
      unfold invalidate at heq
      split at heq
      case h_3 hstate =>
        cases heq
        exact ⟨rfl, rfl, hstate, .refl _, fun _ _ => rfl⟩
      case h_4 => cases heq
      case h_5 => cases heq
      all_goals
        cases heq
        exact ⟨rfl, rfl, by rw [hset], by rw [hset]; exact ⟨rfl, rfl, rfl, rfl⟩,
          fun m hmn => if_neg hmn⟩
    obtain ⟨hrun₁, hcheck₁, hstate₁, hrecord₁, hother₁⟩ := hone
    obtain ⟨hrun, hcheck, hnode⟩ := ih h
    refine ⟨hrun.trans hrun₁, hcheck.trans hcheck₁, fun m => ?_⟩
    obtain ⟨hrecord, hstate⟩ := hnode m
    by_cases hmn : m = n
    · subst hmn
      refine ⟨⟨hrecord.value.trans hrecord₁.value,
        hrecord.lastChangedAt.trans hrecord₁.lastChangedAt,
        hrecord.lastValidatedAt.trans hrecord₁.lastValidatedAt,
        hrecord.deps.trans hrecord₁.deps⟩, .inl ?_⟩
      rcases hstate with hstate | ⟨-, hstate⟩
      · exact hstate
      · exact hstate.trans hstate₁
    · rw [hother₁ m hmn] at hrecord hstate
      refine ⟨hrecord, hstate.imp_right fun hs => ⟨?_, hs.2⟩⟩
      exact fun hmem => (mem_cons.mp hmem).elim hmn hs.1

/-- The invalidation has the variables whose values differ. -/
def Invalidates (S : Spec N V X) (invalidation : List N) (ι ι' : N → V) : Prop :=
  ∀ n, S.f n = .var → ι' n ≠ ι n → n ∈ invalidation

/-- A run starts with records that are as good on the new inputs. -/
theorem Store.Valid.reset (h : σ.Valid S ι requests) (hidle : σ.Idle) {invalidation : List N}
    {inputs : N → V} (hinputs : Invalidates S invalidation ι inputs)
    (hreset : Memo.reset invalidation inputs σ = some σ') : σ'.Valid S inputs [] := by
  obtain ⟨σ₁, heq, rfl⟩ := Option.map_eq_some_iff.mp hreset
  obtain ⟨σ₂, heq', hidle'⟩ := hidle.execute invalidation
  cases heq.symm.trans heq'
  obtain ⟨hrun, hcheck, hnode⟩ := execute_spec heq
  have hstale (n : N) : (σ₁.node n).lastValidatedAt ≠ σ₁.run + 1 := by
    have := hidle'.validated n
    omega
  refine ⟨hidle'.inv inputs, rfl, hcheck.trans h.checkPoint, ?_, ?_⟩
  · refine ⟨fun n => ?_, fun n hf hn => ?_, fun n p x hf hx hr => ?_,
      fun n x hn => absurd hn.validated (hstale n), fun n x hn => absurd hn.validated (hstale n)⟩
    · simp only [(hnode n).1.lastChangedAt, (hnode n).1.lastValidatedAt]
      exact h.cached.changed n
    · simp only [(hnode n).1.value] at hn
      obtain ⟨hdeps, hvalue⟩ := h.cached.var n hf hn
      simp only [(hnode n).1.deps, (hnode n).1.value]
      refine ⟨hdeps, fun husable => ?_⟩
      rcases (hnode n).2 with hstate | ⟨hmem, hstate⟩
      · rcases husable with hs | ⟨c, hs⟩ <;> cases hstate.symm.trans hs
      · rw [hvalue (by unfold Usable at husable ⊢; rw [← hstate]; exact husable)]
        by_contra hne
        exact hmem (hinputs n hf fun heq => hne (by rw [heq]))
    · simp only [(hnode n).1.value] at hx
      obtain ⟨α, hresult, hdeps, hα⟩ := h.cached.record n p x hf hx hr
      refine ⟨α, hresult, by simp only [(hnode n).1.deps]; exact hdeps, fun m hm => ?_⟩
      simp only [(hnode m).1.lastChangedAt, (hnode n).1.lastValidatedAt, (hnode m).1.value]
      exact hα m hm
  · have hnone (c : Nat) (n : N) (phase : Phase) : ¬IsComputation
        { σ₁ with cycleError := none, run := σ₁.run + 1, inputs, computations := [], dag := [] }
        c n phase := fun hc => Nat.not_lt_zero c hc.lt
    exact ⟨fun c c' n phase hc => absurd hc (hnone c n phase),
      fun c n hc => absurd hc (hnone c n _),
      fun c n hc => absurd hc (hnone c n _), fun c n phase hc => absurd hc (hnone c n phase), nofun,
      nofun, fun hne => absurd rfl hne⟩

end Reset

end Requests

/-! ## Histories -/

section Histories

variable [DecidableEq N] [DecidableEq X]

/-- The states of Memo, with the tasks and the requests of the current run, the last one first. The
variables that change between two runs are invalidated. -/
inductive History (D : CycleDetection) (S : Spec N V X) :
    List (Prog N V X) → Store N V X → Tree (Store N V X) (Reply N V X) Nat (Op N) → Prop
  | init (inputs : N → V) : History D S [] (.init inputs) (.leaf (.ret .run))
  | request {requests σ r} {p : Prog N V X} : p.Propagates →
      History D S requests σ (.leaf (.ret r)) →
      History D S (p :: requests) { σ with cycleError := none } (request p)
  | step {requests σ t σ' t'} : History D S requests σ t → Step (machine D S) [] σ t σ' t' →
      History D S requests σ' t'
  | reset {requests σ r σ'} (invalidation : List N) (inputs : N → V) :
      History D S requests σ (.leaf (.ret r)) → Invalidates S invalidation σ.inputs inputs →
      Memo.reset invalidation inputs σ = some σ' → History D S [] σ' (.leaf (.ret r))

variable {D : CycleDetection} {S : Spec N V X} {requests : List (Prog N V X)} {σ : Store N V X}
  {t : Tree (Store N V X) (Reply N V X) Nat (Op N)}

theorem History.reachable (h : History D S requests σ t) : Reachable D S σ t := by
  induction h with
  | init inputs => exact .init inputs
  | request _ _ ih => exact ih.request _
  | step _ hstep ih => exact ih.step hstep
  | reset invalidation inputs _ _ hreset ih => exact ih.reset invalidation inputs hreset

theorem History.propagates (h : History D S requests σ t) : ∀ p ∈ requests, p.Propagates := by
  induction h with
  | init | reset => nofun
  | request hp _ ih => exact forall_mem_cons.mpr ⟨hp, ih⟩
  | step _ _ ih => exact ih

theorem History.run? {schedule : List (List Nat)}
    {x : Config (Store N V X) (Reply N V X) Nat (Op N)} (h : History D S requests σ t)
    (hrun : Tree.run? (machine D S) schedule (σ, t) = some x) : History D S requests x.1 x.2 :=
  Tree.run?_keeps schedule .step h hrun

/-- What the current request returns. -/
def Finished (excuse : Prop) (requests : List (Prog N V X)) (r : Reply N V X)
    (σ : Store N V X) : Prop :=
  ∀ p ∈ requests.head?, ∃ x collector, r = .thread x collector ∧ σ.Ran excuse p [] x collector

/-- What holds of the state of Memo together with the tasks of a run on the inputs. -/
structure Running (D : CycleDetection) (S : Spec N V X) (ι : N → V) (requests : List (Prog N V X))
    (σ : Store N V X) (t : Tree (Store N V X) (Reply N V X) Nat (Op N)) : Prop where
  valid : σ.Valid S ι requests
  owns : t.Owns (Consistency.evalLogic D S ι requests) [] σ
  safe : t.Safe (Consistency.evalLogic D S ι requests) [] []
    (Finished (Cyclic S ι requests) requests) σ

theorem finished_stable (ι : N → V) (r : Reply N V X) :
    (Consistency.evalLogic D S ι requests).Stable
      (Finished (Cyclic S ι requests) requests r) := by
  intro σ σ' hle h p hp
  obtain ⟨x, collector, hr, hran⟩ := h p hp
  exact ⟨x, collector, hr, hran.mono hle.toLe⟩

theorem Running.leaf {ι : N → V} {code : MemoCode N V X} (hvalid : σ.Valid S ι requests)
    (hsafe : code.Safe (Consistency.evalLogic D S ι requests) [] []
      (Finished (Cyclic S ι requests) requests) σ) : Running D S ι requests σ (.leaf code) :=
  ⟨hvalid, ⟨nodup_nil, nofun⟩, hsafe⟩

theorem countP_le_one {α : Type} {p : α → Bool} {l : List α}
    (h : ∀ (i j : Nat) (x y : α), l[i]? = some x → l[j]? = some y → p x = true → p y = true →
      i = j) : l.countP p ≤ 1 := by
  induction l with
  | nil => exact Nat.zero_le 1
  | cons a l ih =>
    rw [countP_cons]
    split
    · next ha =>
      have hzero : l.countP p = 0 := by
        rw [countP_eq_zero]
        intro y hy hpy
        obtain ⟨j, hj⟩ := mem_iff_getElem?.mp hy
        have heq := h 0 (j + 1) a y rfl hj ha hpy
        omega
      omega
    · refine ih fun i j x y hx hy hpx hpy => ?_
      have heq := h (i + 1) (j + 1) x y hx hy hpx hpy
      omega

section Exact

variable (hS : S.CutoffExact) (hprop : S.Propagates)

include hS hprop

theorem Running.step {ι : N → V} {t' : Tree (Store N V X) (Reply N V X) Nat (Op N)}
    (h : Running D S ι requests σ t) (hstep : Step (machine D S) [] σ t σ' t') :
    Running D S ι requests σ' t' := by
  obtain ⟨hkept, hsafe⟩ := Tree.Safe.step (Consistency.evalLogic_sound hS hprop) hstep
    (finished_stable ι) h.valid h.owns h.safe
  exact ⟨hkept.inv, hkept.owns h.owns, hsafe⟩

theorem History.running (h : History D S requests σ t) : Running D S σ.inputs requests σ t := by
  induction h with
  | init inputs =>
    have hinv := (consistent_init (D := D) (S := S) inputs .run).inv
    have hvalid : Store.Valid S inputs [] (Store.init inputs : Store N V X) := by
      refine ⟨hinv, rfl, rfl, ⟨fun _ => Int.le_refl _, fun n _ hn => absurd rfl hn,
        fun n p x _ hx => absurd hx.symm (Value.ofResult_ne_uninitialized x),
        fun n x hn => (nomatch hn.state), fun n x hn => (nomatch hn.state)⟩, ?_⟩
      exact ⟨fun c _ _ _ hc => absurd hc.lt (Nat.not_lt_zero c),
        fun c _ hc => absurd hc.lt (Nat.not_lt_zero c),
        fun c _ hc => absurd hc.lt (Nat.not_lt_zero c),
        fun c _ _ hc => absurd hc.lt (Nat.not_lt_zero c), nofun, nofun,
        fun hne => absurd rfl hne⟩
    exact .leaf hvalid nofun
  | @request requests σ r p hp _ ih =>
    have hvalid := ih.valid.request p
    refine .leaf hvalid (Consistency.safe_runProg p hp [] hvalid ?_ ?_)
    · exact fun m hm => ⟨trivial, .reads mem_cons_self hm⟩
    · intro r collector σ' _ _ hran p' hp'
      cases hp'
      exact ⟨r, collector, rfl, hran⟩
  | step _ hstep ih =>
    have hrunning := ih.step hS hprop hstep
    rw [← hrunning.valid.inputs] at hrunning
    exact hrunning
  | @reset requests σ r σ' invalidation inputs h hinputs hreset ih =>
    have hvalid := ih.valid.reset h.reachable.consistent.idle hinputs hreset
    have heq := hvalid.inputs
    rw [← heq] at hvalid
    exact .leaf hvalid nofun

/-- In every state of every history, the function of a node has been executed at most once in the
current run, and only if evaluation of the requests of the run from scratch executes it too. -/
theorem History.executed_once_if_demanded (h : History D S requests σ t) (n : N) :
    σ.computations.countP (fun x => x.node = n ∧ x.phase = .compute) ≤ 1 ∧
      (∀ x ∈ σ.computations, x.node = n → x.phase = .compute → Demanded S σ.inputs requests n) := by
  have hworks := (h.running hS hprop).valid.works
  refine ⟨?_, fun x hx hn hphase => ?_⟩
  · apply countP_le_one
    intro c c' x y hx hy hpx hpy
    rw [decide_eq_true_iff] at hpx hpy
    exact hworks.unique c c' n .compute ⟨x, hx, hpx⟩ ⟨y, hy, hpy⟩
  · obtain ⟨c, hc, hget⟩ := getElem_of_mem hx
    exact hworks.demanded c n .compute ⟨x, by rw [List.getElem?_eq_getElem hc, hget], hn, hphase⟩

/-- The record of a current node is right in every state of every history, and a request that has
returned gives what its function evaluates to from scratch, or an error if there is a cycle. -/
theorem History.answers (h : History D S requests σ t) :
    (∀ n x, σ.Current n → (σ.node n).value = .ofResult x →
      Answered S σ.inputs (Cyclic S σ.inputs requests) n x) ∧
    ∀ p ∈ requests.head?, ∀ r, t = .leaf (.ret r) → ∃ x collector, r = .thread x collector ∧
      (p.Evaluates S σ.inputs x ∨ (∃ e, x = .error e) ∧ Cyclic S σ.inputs requests) := by
  have hrunning := h.running hS hprop
  refine ⟨hrunning.valid.cached.answered, ?_⟩
  rintro p hp r rfl
  obtain ⟨x, collector, hr, hran⟩ := hrunning.safe p hp
  refine ⟨x, collector, hr, ?_⟩
  obtain ⟨rfl, -, hreads⟩ | ⟨⟨e, he, -⟩, hcyclic⟩ := hran
  · refine hrunning.valid.answered (h.propagates p (mem_of_mem_head? hp)) fun m hm => ?_
    exact ⟨hreads m hm, hrunning.valid.inv.get?_answer (hreads m hm)⟩
  · exact .inr ⟨⟨e, he⟩, hcyclic⟩

end Exact

end Histories

local instance neZero_four : NeZero 4 := ⟨Nat.succ_ne_zero 3⟩

/-- The cutoff of node 1 takes all values for the same. Node 3 reads node 2 if node 1 has the
value 0. -/
def lossy : Spec (Fin 4) Nat Unit where
  f n := match n with
    | 1 => .prog (.read 0 .ret)
    | 3 => .prog (.read 1 fun
      | .ok 0 => .read 2 .ret
      | r => .ret r)
    | _ => .var
  cutoff n := if n = 1 then some fun _ _ => true else none

theorem lossy_needs {n m : Fin 4} (h : Needs lossy (fun _ => 1) n m) : m ≠ 2 := by
  have heval : Eval lossy (fun _ => 1) 1 (.ok 1) := by
    refine Eval.prog (p := .read 0 .ret) (fun _ => .ok 1) rfl fun m hm => ?_
    obtain rfl := mem_singleton.mp hm
    exact .var rfl
  obtain ⟨p, hf, hreads⟩ := h
  match n with
  | 0 | 2 => cases hf
  | 1 =>
    cases hf
    cases hreads with
    | here => decide
    | read _ hreads => cases hreads
  | 3 =>
    cases hf
    cases hreads with
    | here => decide
    | read hx hreads =>
      cases heval.unique hx
      cases hreads

/-- With a cutoff that takes different values for the same, the function of node 2 is executed again
although node 3 no longer reads it. -/
theorem lossy_executes_unneeded :
    ∃ requests σ t, History CycleDetection.search lossy requests σ t ∧
      (∃ x ∈ σ.computations, x.node = 2 ∧ x.phase = .compute) ∧
      ¬Demanded lossy σ.inputs requests 2 := by
  have hrun : ((Tree.run? (machine .search lossy) (.replicate 40 [])
      (.init fun _ => 0, request (.read 3 .ret))).any fun x =>
        x.2.returned?.isSome && (reset [0, 2] (fun _ => 1) x.1).any fun σ =>
          (Tree.run? (machine .search lossy) (.replicate 55 [])
            ({ σ with cycleError := none }, request (.read 3 .ret))).any fun y =>
              decide (∀ n, y.1.inputs n = 1) &&
                y.1.computations.any fun x => x.node = 2 ∧ x.phase = .compute) = true := by
    decide +kernel
  have hp : (Prog.read 3 .ret : Prog (Fin 4) Nat Unit).Propagates :=
    .read (fun e => ⟨e, rfl, id⟩) fun _ => .ret _
  simp only [Option.any_eq_true, Bool.and_eq_true, any_eq_true, decide_eq_true_eq] at hrun
  obtain ⟨x, hx, hreturned, σ, hreset, y, hy, hinputs, hexecuted⟩ := hrun
  obtain ⟨r, hr⟩ := Option.isSome_iff_exists.mp hreturned
  have h₁ := ((History.init fun _ => 0).request hp).run? hx
  rw [Tree.returned?_eq hr] at h₁
  have hinvalidates : Invalidates lossy [0, 2] x.1.inputs fun _ => 1 := by
    intro n hf _
    match n with
    | 0 | 2 => decide
    | 1 | 3 => cases hf
  have h₂ := h₁.reset [0, 2] (fun _ => 1) hinvalidates hreset
  refine ⟨_, _, _, (h₂.request hp).run? hy, hexecuted, ?_⟩
  rw [show y.1.inputs = fun _ => 1 from funext hinputs]
  rintro ⟨p, hp, m, hreads, hneeds⟩
  cases mem_singleton.mp hp
  cases hreads with
  | read _ hreads => cases hreads
  | here =>
    rcases hneeds.cases_tail with heq | ⟨_, _, hneeds⟩
    · cases heq
    · exact lossy_needs hneeds rfl

/-- The nodes of `lossy` without a cutoff. -/
def branching : Spec (Fin 4) Nat Unit := { lossy with cutoff := fun _ => none }

theorem branching_propagates : branching.Propagates := by
  intro n p hf
  match n with
  | 0 | 2 => cases hf
  | 1 =>
    cases hf
    exact .read (fun e => ⟨e, rfl, id⟩) fun _ => .ret _
  | 3 =>
    cases hf
    refine .read (fun e => ⟨e, rfl, id⟩) fun v => ?_
    cases v with
    | zero => exact .read (fun e => ⟨e, rfl, id⟩) fun _ => .ret _
    | succ _ => exact .ret _

theorem branching_executes_demanded :
    ∃ requests σ t, History CycleDetection.search branching requests σ t ∧
      (∃ x ∈ σ.computations, x.node = 2 ∧ x.phase = .compute) ∧
      σ.computations.countP (fun x => x.node = 2 ∧ x.phase = .compute) ≤ 1 ∧
      Demanded branching σ.inputs requests 2 := by
  have hrun : ((Tree.run? (machine .search branching) (.replicate 40 [])
      (.init fun _ => 0, request (.read 3 .ret))).any fun x =>
        x.1.computations.any fun x => x.node = 2 ∧ x.phase = .compute) = true := by
    decide +kernel
  simp only [Option.any_eq_true, any_eq_true, decide_eq_true_eq] at hrun
  obtain ⟨x, hx, y, hy, hnode, hphase⟩ := hrun
  have hp : (Prog.read 3 .ret : Prog (Fin 4) Nat Unit).Propagates :=
    .read (fun e => ⟨e, rfl, id⟩) fun _ => .ret _
  have h := ((History.init (D := .search) fun _ => 0).request hp).run? hx
  obtain ⟨honce, hdemanded⟩ := h.executed_once_if_demanded (fun _ _ => nofun) branching_propagates 2
  exact ⟨_, _, _, h, ⟨y, hy, hnode, hphase⟩, honce, hdemanded y hy hnode hphase⟩

theorem branching_answers : let p : Prog (Fin 4) Nat Unit := .read 3 .ret
    ∃ σ x collector, History .search branching [p] σ (.leaf (.ret (.thread x collector))) ∧
      (p.Evaluates branching σ.inputs x ∨
        (∃ e, x = .error e) ∧ Cyclic branching σ.inputs [p]) := by
  intro p
  have hrun : ((Tree.run? (machine .search branching) (.replicate 40 [])
      (.init fun _ => 0, request p)).bind fun x => x.2.returned?).isSome = true := by
    decide +kernel
  obtain ⟨r, hr⟩ := Option.isSome_iff_exists.mp hrun
  obtain ⟨x, hx, hr⟩ := Option.bind_eq_some_iff.mp hr
  have hp : p.Propagates := .read (fun e => ⟨e, rfl, id⟩) fun _ => .ret _
  have h := ((History.init fun _ => 0).request hp).run? hx
  rw [Tree.returned?_eq hr] at h
  obtain ⟨_, _, rfl, hevaluates⟩ :=
    (h.answers (fun _ _ => nofun) branching_propagates).2 p rfl r rfl
  exact ⟨_, _, _, h, hevaluates⟩

end Dune.Memo
