import Dune.Graph.Dfs
import Dune.Rules.Lib
import Dune.Stdune.Loc

/-!
# The first closure

A run of `closure_visit` that succeeds is a depth-first search along the requirements (`Runs`,
`Runs.visits`), and the set of unimplemented virtual libraries follows the libraries that it has
visited (`Tracks`).
-/

namespace Dune.Rules

open Dune.Stdune Dune.Graph

namespace LibData

variable {L : Type} [LinearOrder L] (libs : LibData L)

/-- The requirements of a library, none where they are an error. -/
def next (lib : L) : List L := (libs.requires lib).getD []

/-- A traversal of `closure_visit` that succeeds, for the libraries of a list. -/
inductive Runs : ClosureState L → List L → ClosureState L → Prop
  | done {state : ClosureState L} : Runs state [] state
  | seen {lib : L} {state state' : ClosureState L} {todo : List L} : lib ∈ state.visited →
      Runs state todo state' → Runs state (lib :: todo) state'
  | enter {lib : L} {stack deps todo : List L} {unimplemented : Unimplemented L}
      {state state₁ state' : ClosureState L} : lib ∉ state.visited →
      libs.requires lib = some deps → state.unimplemented.add libs lib = .ok unimplemented →
      Runs ⟨state.result, Map.insertKey lib state.visited, unimplemented⟩ deps state₁ →
      Runs { state₁ with result := (lib, stack) :: state₁.result } todo state' →
      Runs state (lib :: todo) state'

variable {libs}

variable {state state' : ClosureState L}

theorem Runs.append {state₁ : ClosureState L} {todo todo' : List L}
    (h : libs.Runs state todo state₁) (h' : libs.Runs state₁ todo' state') :
    libs.Runs state (todo ++ todo') state' := by
  induction h with
  | done => exact h'
  | seen hlib _ ih => exact .seen hlib (ih h')
  | enter hlib hdeps hadd h₁ _ _ ih => exact .enter hlib hdeps hadd h₁ (ih h')

omit [LinearOrder L] in
theorem get_ok {α : Type} {lib : L} {x : Option α} {a : α} (h : get lib x = .ok a) :
    x = some a := by
  cases x with
  | none => cases h
  | some a' =>
    cases h
    rfl

variable {t : Closure L} {bound : Nat}

theorem closureVisit_ok {stack : List L} {lib : L}
    (h : libs.closureVisit t (bound + 1) stack state lib = .ok state') :
    (lib ∈ state.visited ∧ state' = state) ∨
      ∃ deps unimplemented state₁, lib ∉ state.visited ∧ libs.requires lib = some deps ∧
        state.unimplemented.add libs lib = .ok unimplemented ∧
        deps.foldlM (libs.closureVisit t bound (lib :: stack))
          ⟨state.result, Map.insertKey lib state.visited, unimplemented⟩ = .ok state₁ ∧
        state' = { state₁ with result := (lib, stack) :: state₁.result } := by
  simp only [closureVisit] at h
  split at h
  · next hmem =>
    cases h
    exact .inl ⟨hmem, rfl⟩
  · next hmem =>
    split at h
    · cases h
    · obtain ⟨_, -, h⟩ := bind_ok h
      obtain ⟨newStack, hpush, h⟩ := bind_ok h
      obtain ⟨deps, hdeps, h⟩ := bind_ok h
      obtain ⟨unimplemented, hadd, h⟩ := bind_ok h
      obtain ⟨state₁, hfold, hret⟩ := bind_ok h
      have hstack : newStack = lib :: stack := by
        unfold push at hpush
        split at hpush
        · cases hpush
        · cases hpush
          rfl
      subst hstack
      exact .inr ⟨deps, unimplemented, state₁, hmem, get_ok hdeps, hadd, hfold,
        (Except.ok.inj hret).symm⟩

theorem runs_of_fold {f : ClosureState L → L → Except (LibError L) (ClosureState L)}
    (hf : ∀ {state lib state'}, f state lib = .ok state' → libs.Runs state [lib] state')
    {l : List L} (h : l.foldlM f state = .ok state') : libs.Runs state l state' := by
  induction l generalizing state with
  | nil =>
    cases h
    exact .done
  | cons lib l ih =>
    rw [List.foldlM_cons] at h
    obtain ⟨state₁, hlib, h⟩ := bind_ok h
    exact (hf hlib).append (ih h)

theorem closureVisit_runs {stack : List L} {lib : L}
    (h : libs.closureVisit t bound stack state lib = .ok state') :
    libs.Runs state [lib] state' := by
  induction bound generalizing stack state state' lib with
  | zero => cases h
  | succ bound ih =>
    obtain ⟨hmem, rfl⟩ | ⟨deps, un, state₁, hmem, hdeps, hadd, hfold, rfl⟩ := closureVisit_ok h
    · exact .seen hmem .done
    · exact .enter hmem hdeps hadd (runs_of_fold ih hfold) .done

theorem Runs.visits {todo : List L} (h : libs.Runs state todo state') :
    Visits libs.next state.visited (state.result.map Prod.fst) todo state'.visited
      (state'.result.map Prod.fst) := by
  induction h with
  | done => exact .done
  | seen hmem _ ih => exact .seen hmem ih
  | @enter lib stack deps todo un state state₁ state' hmem hdeps hadd _ _ ih ih' =>
    have hnext : libs.next lib = deps := by rw [next, hdeps]; rfl
    exact .enter hmem (fun x => Map.mem_insertKey) (hnext ▸ ih) ih'

/-- The unimplemented virtual libraries are those that have been visited, and no implementation of
them has. -/
structure Tracks (libs : LibData L) (state : ClosureState L) : Prop where
  implemented (v : L) : v ∈ state.unimplemented.implemented ↔
    ∃ x ∈ state.visited, libs.implements x = some v
  unimplemented (v : L) : v ∈ state.unimplemented.unimplemented ↔
    v ∈ state.visited ∧ libs.kind v = .virtual ∧ ∀ x ∈ state.visited, libs.implements x ≠ some v

omit [LinearOrder L] in
theorem Tracks.empty : Tracks libs .empty where
  implemented v := by simp [ClosureState.empty, Unimplemented.empty]
  unimplemented v := by simp [ClosureState.empty, Unimplemented.empty]

end LibData

namespace Libs

open LibData

variable {L : Type} [LinearOrder L] [Fintype L] {libs : Libs L}

theorem tracks_enter {state : ClosureState L} {lib : L} {un : Unimplemented L}
    (h : Tracks libs.toLibData state) (hadd : state.unimplemented.add libs.toLibData lib = .ok un) :
    Tracks libs.toLibData ⟨state.result, Map.insertKey lib state.visited, un⟩ := by
  have hexists (v : L) : (∃ x ∈ Map.insertKey lib state.visited, libs.implements x = some v) ↔
      libs.implements lib = some v ∨ ∃ x ∈ state.visited, libs.implements x = some v := by
    simp [Map.mem_insertKey]
  have hforall (v : L) : (∀ x ∈ Map.insertKey lib state.visited, libs.implements x ≠ some v) ↔
      libs.implements lib ≠ some v ∧ ∀ x ∈ state.visited, libs.implements x ≠ some v := by
    simp [Map.mem_insertKey]
  unfold Unimplemented.add at hadd
  split at hadd
  · cases hadd
  · next himpl hkind =>
    obtain rfl := Except.ok.inj hadd
    refine ⟨fun v => ?_, fun v => ?_⟩
    · rw [hexists, himpl]
      split <;> simpa using h.implemented v
    · rw [hforall, himpl, Map.mem_insertKey]
      have hmem := h.implemented lib
      have hv := h.unimplemented v
      split <;> grind [Map.mem_insertKey]
  · next himpl hkind =>
    obtain rfl := Except.ok.inj hadd
    refine ⟨fun v => ?_, fun v => ?_⟩
    · rw [hexists, himpl]
      simpa using h.implemented v
    · rw [hforall, himpl, Map.mem_insertKey]
      have hv := h.unimplemented v
      grind
  · next vlib himpl hkind =>
    obtain rfl := Except.ok.inj hadd
    refine ⟨fun v => ?_, fun v => ?_⟩
    · rw [hexists, himpl, Map.mem_insertKey, ← h.implemented v, Option.some.injEq, eq_comm]
    · rw [hforall, himpl, Map.mem_insertKey]
      have hv := h.unimplemented v
      have hlib := libs.not_virtual himpl
      grind

theorem tracks_runs {state state' : ClosureState L} {todo : List L}
    (h : libs.Runs state todo state') (htracks : Tracks libs.toLibData state) :
    Tracks libs.toLibData state' := by
  induction h with
  | done => exact htracks
  | seen _ _ ih => exact ih htracks
  | enter _ _ hadd _ _ ih ih' =>
    have hinner := ih (tracks_enter htracks hadd)
    exact ih' { hinner with }

end Libs

end Dune.Rules
