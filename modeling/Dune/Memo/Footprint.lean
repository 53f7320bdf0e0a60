import Dune.Memo.Safety
import Dune.Task.WaitGraph

/-!
# What the tasks of Memo do to the computations

Every atomic step of a task of Memo adds the call stack of the task to the graph of the cycle
detection, starts one computation, or leaves the graph and the computations as they are. A task
waits for a computation exactly after a step that has added its call stack without a cycle.
-/

namespace Dune.Memo

open Dune.Task

variable {N V X : Type} [DecidableEq N] [DecidableEq X]

/-- The stores that the updates of nodes lead to, in any order and over any number of runs. All else
that Memo does leaves the nodes alone. -/
inductive Updated (S : Spec N V X) : Store N V X → Prop
  | init (inputs : N → V) : Updated S (.init inputs)
  | setState {σ} (n state) : Updated S σ → Updated S (σ.setState n state)
  | validateValue {σ} (n) : Updated S σ → Updated S (σ.validateValue n)
  | updateValue {σ} (n value deps) : Updated S σ → Updated S (S.updateValue n value deps σ)
  | other {σ σ'} : Updated S σ → σ.run ≤ σ'.run → σ'.node = σ.node → Updated S σ'

/-- The computation that a reply tells the task to wait for. -/
def Reply.blocks : Reply N V X → Option Nat
  | .blocked c => some c
  | _ => none

/-- A step of a task leaves the graph and the computations alone and tells its task to go on. -/
structure Leaves (S : Spec N V X) (σ σ' : Store N V X) (r : Reply N V X) : Prop where
  updated : Updated S σ → Updated S σ'
  dag : σ'.dag = σ.dag
  cycleError : σ'.cycleError = σ.cycleError
  computations : σ'.computations = σ.computations
  blocks : r.blocks = none

/-- An atomic step adds its call stack to the graph, starts a computation or leaves both alone. -/
def Footprint (D : CycleDetection) (S : Spec N V X)
    (f : List Nat → Store N V X → Option (MemoOutcome N V X)) : Prop :=
  ∀ st σ σ' o, f st σ = some (σ', o) →
    match o with
    | .done r =>
      Leaves S σ σ' r ∨ ∃ c o, σ.Held c ∧ σ.peek c = none ∧ σ.addPathTo D st c = some (σ', o) ∧
        r.blocks = if o.isSome then none else some c
    | .force c _ => c = σ.computations.length ∧ ∃ n phase state, σ' = σ.start n phase state

/-- The step leaves the graph and the computations alone, whatever its outcome. -/
def Untouched (S : Spec N V X) (f : Store N V X → Option (Store N V X × Reply N V X)) : Prop :=
  ∀ σ σ' r, f σ = some (σ', r) → Leaves S σ σ' r

section Shaped

variable (D : CycleDetection) (S : Spec N V X)

/-- A code of Memo with such steps that waits after a reply that tells it to. -/
abbrev MemoShaped (o : Option Nat) (code : MemoCode N V X) : Prop :=
  code.Shaped (Footprint D S) Reply.blocks o

variable {D S}

theorem shaped_fail : MemoShaped D S none (.fail : MemoCode N V X) := by
  apply Code.fail_shaped
  intro _ _ _ _ h
  cases h

variable {f : Store N V X → Option (Store N V X × Reply N V X)}

theorem shaped_update {k : Reply N V X → MemoCode N V X} (hf : Untouched S f)
    (hk : ∀ σ σ' r, f σ = some (σ', r) → MemoShaped D S none (k r)) :
    MemoShaped D S none (.update f k) := by
  have hdone {σ σ' : Store N V X} {o : Outcome (Reply N V X) Nat (Op N)}
      (h : (f σ).map (fun x => (x.1, Outcome.done x.2)) = some (σ', o)) :
      ∃ r, f σ = some (σ', r) ∧ o = .done r := by
    obtain ⟨⟨σ₁, r⟩, heq, heq'⟩ := Option.map_eq_some_iff.mp h
    cases heq'
    exact ⟨r, heq, rfl⟩
  refine ⟨rfl, ?_, ?_, fun _ hr => ⟨rfl, hr⟩⟩
  · intro st σ σ' o h
    obtain ⟨r, heq, rfl⟩ := hdone h
    exact .inl (hf σ σ' r heq)
  · intro st σ σ' r h
    obtain ⟨r', heq, hr⟩ := hdone h
    cases hr
    rw [(hf σ σ' r heq).blocks]
    exact hk σ σ' r heq

variable {other : Reply N V X → MemoCode N V X} {kr : Result N → MemoCode N V X}

/-- The code that follows a step that may tell it to wait. -/
theorem shaped_withResult (hkr : ∀ r, MemoShaped D S none (kr r))
    (hother : ∀ r, r.blocks = none → MemoShaped D S none (other r)) (r : Reply N V X) :
    MemoShaped D S r.blocks (Reply.withResult kr other r) := by
  cases r with
  | blocked c =>
    refine ⟨rfl, fun r _ => ?_⟩
    cases r with
    | result r => exact hkr r
    | _ => exact shaped_fail
  | result r => exact hkr r
  | _ => exact hother _ rfl

theorem shaped_atomic {f : List Nat → Store N V X → Option (MemoOutcome N V X)}
    (hf : Footprint D S f)
    (hkr : ∀ r, MemoShaped D S none (kr r))
    (hother : ∀ r, r.blocks = none → MemoShaped D S none (other r)) :
    MemoShaped D S none
      (.atomic f (Reply.withResult kr other) (Reply.withResult kr other)) := by
  refine ⟨rfl, hf, fun _ _ _ r _ => shaped_withResult hkr hother r, fun r hr => ?_⟩
  have h := shaped_withResult hkr hother r
  rw [hr] at h
  exact h

variable {σ σ' : Store N V X}

theorem footprint_read {n : N} {c : Nat} {stop : List N → Reply N V X} {st : List Nat}
    {o : Outcome (Reply N V X) Nat (Op N)}
    (hn : (σ.node n).state = .restoring c ∨ (σ.node n).state = .computing c)
    (hstop : ∀ cycle, (stop cycle).blocks = none)
    (h : readButFirstCheckForCycles D c stop st σ = some (σ', o)) :
    ∃ r, o = .done r ∧ (Leaves S σ σ' r ∨ ∃ c o, σ.Held c ∧ σ.peek c = none ∧
      σ.addPathTo D st c = some (σ', o) ∧ r.blocks = if o.isSome then none else some c) := by
  unfold readButFirstCheckForCycles at h
  split at h
  · cases h
    exact ⟨_, rfl, .inl ⟨id, rfl, rfl, rfl, rfl⟩⟩
  · next hpeek =>
    split at h
    · cases h
    · next heq =>
      cases h
      exact ⟨_, rfl, .inr ⟨c, none, ⟨n, hn⟩, hpeek, heq, rfl⟩⟩
    · next cycle heq =>
      cases h
      exact ⟨_, rfl, .inr ⟨c, some cycle, ⟨n, hn⟩, hpeek, heq, hstop cycle⟩⟩

theorem footprint_considerRestore (n : N) :
    Footprint D S (considerAndRestoreFromCache D n : List Nat → Store N V X → _) := by
  intro st σ σ' o h
  unfold considerAndRestoreFromCache at h
  split at h
  · cases h
    exact ⟨rfl, _, _, _, rfl⟩
  · next c hstate =>
    obtain ⟨r, rfl, hr⟩ := footprint_read (.inl hstate) (fun _ => rfl) h
    exact hr
  all_goals
    cases h
    exact .inl ⟨id, rfl, rfl, rfl, rfl⟩

theorem footprint_considerCompute (n : N) :
    Footprint D S (considerAndCompute D n : List Nat → Store N V X → _) := by
  intro st σ σ' o h
  unfold considerAndCompute at h
  split at h
  · split at h
    · cases h
      exact .inl ⟨id, rfl, rfl, rfl, rfl⟩
    · cases h
  · cases h
  · cases h
    exact ⟨rfl, _, _, _, rfl⟩
  · cases h
    exact ⟨rfl, _, _, _, rfl⟩
  · next c hstate =>
    obtain ⟨r, rfl, hr⟩ := footprint_read (.inr hstate) (fun _ => rfl) h
    exact hr

omit [DecidableEq N] [DecidableEq X] in
theorem getValue_eq {n : N} {r : Reply N V X} (h : getValue n σ = some (σ', r)) :
    σ' = σ ∧ ∃ x, r = .answer (.value x) := by
  obtain ⟨x, -, heq⟩ := Option.map_eq_some_iff.mp h
  cases heq
  exact ⟨rfl, x, rfl⟩

theorem leaves_finishRestore (n : N) (r : ChangedOrNot N) :
    Leaves S σ (finishRestore S n r σ) (.result (.restored r)) := by
  refine ⟨fun h => ?_, ?_, ?_, ?_, rfl⟩ <;> cases r
  · exact h.validateValue n
  · exact h.setState n _
  · exact h.updateValue n _ _
  all_goals rfl

theorem leaves_finishCompute (n : N) (r : Except (Errors N X) V) (collector : List (Deps N)) :
    Leaves S σ (finishCompute S n r collector σ) (.result .computed) := by
  unfold finishCompute
  split
  · exact ⟨fun h => h.updateValue n _ _, rfl, rfl, rfl, rfl⟩
  · split
    · exact ⟨fun h => h.updateValue n _ _, rfl, rfl, rfl, rfl⟩
    · exact ⟨fun h => .updateValue n _ _ (h.other (Int.le_refl _) rfl), rfl, rfl, rfl, rfl⟩

/-- A property of codes that the codes after a step hand on to the code before it. The steps have
such footprints, and the operations that are called satisfy `ops`. -/
structure Closed (D : CycleDetection) (S : Spec N V X) (ops : Op N → Prop)
    (Φ : MemoCode N V X → Prop) : Prop where
  ret : ∀ r, r.blocks = none → Φ (.ret r)
  fail : Φ .fail
  call : ∀ {op k}, ops op → (∀ r, Φ (k r)) → Φ (.call op k)
  par : ∀ {cs k}, (∀ code ∈ cs, Φ code) → (∀ rs, Φ (k rs)) → Φ (.par cs k)
  update : ∀ {f k}, Untouched S f → (∀ σ σ' r, f σ = some (σ', r) → Φ (k r)) → Φ (.update f k)
  atomic : ∀ {f kr other}, Footprint D S f → (∀ r, Φ (kr r)) →
    (∀ r, r.blocks = none → Φ (other r)) →
    Φ (.atomic f (Reply.withResult kr other) (Reply.withResult kr other))

theorem shaped_closed : Closed D S (fun _ => True)
    (MemoShaped D S none : MemoCode N V X → Prop) where
  ret _ hr := ⟨rfl, hr⟩
  fail := shaped_fail
  call _ hk := ⟨rfl, fun r _ => hk r⟩
  par hcs hk := ⟨rfl, Code.allShaped_iff.mpr hcs, hk⟩
  update := shaped_update
  atomic := shaped_atomic

namespace Closed

variable {ops : Op N → Prop} {Φ : MemoCode N V X → Prop} (h : Closed D S ops Φ)

include h

theorem walks : Walks ops (fun _ : Unit => Φ) () () where
  retSection _ := h.ret _ rfl
  retThread _ _ := h.ret _ rfl
  checkDep hop hk := by
    refine h.call hop fun r => ?_
    cases r with
    | changedOrNot r => exact hk r
    | _ => exact h.fail
  exec hop hk := by
    refine h.call hop fun r => ?_
    unfold Reply.withAnswer
    split
    · exact hk _ _
    · exact hk _ _
    · exact h.fail
  sections hcs hk := by
    refine h.par hcs fun rs => ?_
    unfold withReduced
    split
    · exact hk _
    · exact h.fail
  threads hcs hk := by
    refine h.par hcs fun rs => ?_
    unfold withThreads
    split
    · exact hk _ _
    · exact h.fail

theorem last (hf : Untouched S f) : Φ (.update f .ret) :=
  h.update hf fun σ σ' r heq => h.ret r (hf σ σ' r heq).blocks

theorem getValue (n : N) : Φ (.update (getValue n) .ret) := by
  refine h.last fun σ σ' r heq => ?_
  obtain ⟨rfl, x, rfl⟩ := getValue_eq heq
  exact ⟨id, rfl, rfl, rfl, rfl⟩

theorem afterRestore {n : N} (hop : ops (.considerCompute n)) (r : Result N) :
    Φ (afterRestore n r) := by
  cases r with
  | computed => exact h.fail
  | restored r =>
    cases r with
    | unchanged => exact h.getValue n
    | cancelled cycle => exact h.ret _ rfl
    | changed =>
      refine h.call hop fun r => ?_
      cases r with
      | computed o =>
        cases o with
        | none => exact h.getValue n
        | some cycle => exact h.ret _ rfl
      | _ => exact h.fail

theorem exec {n : N} (hop : ops (.considerCompute n)) : Φ (exec D n) := by
  apply h.atomic
  · intro st σ σ' o heq
    unfold execNow at heq
    split at heq
    · obtain ⟨⟨σ₁, r⟩, hget, heq'⟩ := Option.map_eq_some_iff.mp heq
      cases heq'
      obtain ⟨rfl, x, rfl⟩ := getValue_eq hget
      exact .inl ⟨id, rfl, rfl, rfl, rfl⟩
    · exact footprint_considerRestore n st σ σ' o heq
  · exact h.afterRestore hop
  · intro r hr
    cases r with
    | answer a => exact h.ret _ rfl
    | _ => exact h.fail

theorem considerCompute (n : N) : Φ (considerCompute D n) := by
  apply h.atomic (footprint_considerCompute n)
  · exact fun _ => h.ret _ rfl
  · intro r hr
    cases r with
    | computed r => exact h.ret _ rfl
    | _ => exact h.fail

theorem compareStamps (node dep : N) : Φ (compareStamps node dep) := by
  refine h.last fun σ σ' r heq => ?_
  cases heq
  exact ⟨id, rfl, rfl, rfl, rfl⟩

theorem checkRestored {dep : N} (hop : ops (.considerCompute dep)) (node : N) (eagerly : Bool)
    (r : Result N) : Φ (checkRestored S node dep eagerly r) := by
  cases r with
  | computed => exact h.fail
  | restored r =>
    cases r with
    | unchanged => exact h.compareStamps node dep
    | cancelled cycle => exact h.ret _ rfl
    | changed =>
      simp only [Memo.checkRestored]
      split
      · exact h.ret _ rfl
      · refine h.call hop fun r => ?_
        cases r with
        | computed o =>
          cases o with
          | none =>
            simp only [checkComputed]
            split
            · exact h.compareStamps node dep
            · exact h.ret _ rfl
          | some cycle => exact h.ret _ rfl
        | _ => exact h.fail

theorem checkDep {dep : N} (hop : ops (.considerCompute dep)) (node : N) (eagerly : Bool) :
    Φ (checkDep D S node dep eagerly) := by
  apply h.atomic
  · intro st σ σ' o heq
    unfold checkNow at heq
    split at heq
    · cases heq
      exact .inl ⟨id, rfl, rfl, rfl, rfl⟩
    · exact footprint_considerRestore dep st σ σ' o heq
  · exact h.checkRestored hop node eagerly
  · intro r hr
    cases r with
    | changedOrNot r => exact h.ret _ rfl
    | _ => exact h.fail

theorem request (hop : ∀ n, ops (.exec n)) (p : Prog N V X) :
    Φ (runProg p [] fun r collector => .ret (.thread r collector)) :=
  h.walks.runProg (i := ()) hop p [] fun _ _ => h.ret _ rfl

theorem restore {n : N} (hop : ∀ dep eagerly, ops (.checkDep n dep eagerly)) : Φ (restore S n) := by
  have hfinish (r : ChangedOrNot N) :
      Φ (.update (fun σ => some (finishRestore S n r σ, .result (.restored r))) .ret) := by
    refine h.last fun σ σ' r' heq => ?_
    cases heq
    exact leaves_finishRestore n r
  apply h.update
  · intro σ σ' r heq
    cases heq
    rcases startRestore_cases n σ with ⟨r, heq⟩ | heq <;> rw [heq] <;>
      exact ⟨id, rfl, rfl, rfl, rfl⟩
  · intro σ σ' r heq
    cases heq
    rcases startRestore_cases n σ with ⟨r, heq⟩ | heq <;> rw [heq]
    · exact hfinish r
    · exact h.walks.changedOrNot (i := ()) hop false _ hfinish

theorem compute {n : N} (hop : ∀ m, ops (.exec m)) : Φ (compute S n) := by
  have hfinish (r : Except (Errors N X) V) (collector : List (Deps N)) :
      Φ (.update (fun σ => some (finishCompute S n r collector σ, .result .computed)) .ret) := by
    refine h.last fun σ σ' r' heq => ?_
    cases heq
    exact leaves_finishCompute n r collector
  apply h.update
  · intro σ σ' r heq
    cases heq
    rcases startCompute_cases S n σ with ⟨r, heq⟩ | ⟨p, -, heq⟩ <;> rw [heq] <;>
      exact ⟨id, rfl, rfl, rfl, rfl⟩
  · intro σ σ' r heq
    cases heq
    rcases startCompute_cases S n σ with ⟨r, heq⟩ | ⟨p, hf, heq⟩ <;> rw [heq]
    · exact hfinish r []
    · simp only [hf]
      exact h.walks.runProg (i := ()) hop p [] hfinish

end Closed

theorem shaped_request (D : CycleDetection) (S : Spec N V X) (p : Prog N V X) :
    MemoShaped D S none (runProg p [] fun r collector => .ret (.thread r collector)) :=
  shaped_closed.request (fun _ => trivial) p

theorem shaped_body (op : Op N) : MemoShaped D S none ((machine D S).body op) := by
  cases op with
  | exec n => exact shaped_closed.exec trivial
  | checkDep node dep eagerly => exact shaped_closed.checkDep trivial node eagerly
  | restore n => exact shaped_closed.restore fun _ _ => trivial
  | compute n => exact shaped_closed.compute fun _ => trivial
  | considerCompute n => exact shaped_closed.considerCompute n

theorem ivar_blocks (σ : Store N V X) (c : Nat) (r : Reply N V X)
    (h : (machine D S).ivar σ c = some r) : r.blocks = none := by
  obtain ⟨res, -, rfl⟩ := Option.map_eq_some_iff.mp h
  rfl

theorem Reachable.shaped {t : Tree (Store N V X) (Reply N V X) Nat (Op N)} (h : Reachable D S σ t) :
    t.Shaped (Footprint D S) Reply.blocks := by
  induction h with
  | init inputs => exact ⟨none, rfl, rfl⟩
  | request p _ _ => exact ⟨none, shaped_request D S p⟩
  | step _ hstep ih => exact ih.step shaped_body ivar_blocks hstep
  | cancel _ _ ih | reset _ _ _ _ ih => exact ih

end Shaped

end Dune.Memo
