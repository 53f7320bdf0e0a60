import Dune.Stdune.Map

/-!
# Solver environments

`Solver_env.t`: values of the variables that opam's filters read. An environment never sets
`with-test` to `true`, which `decode` and `set` check. Two environments with the same values are
equal, and every operation is described by the values it leaves (`get`).
-/

namespace Dune.Pkg

open Dune.Stdune

def platformSpecific : List String :=
  ["arch", "os", "os-version", "os-distribution", "os-family", "sys-ocaml-version"]

/-- The test of `Solver_env.validate`. -/
def Validated (bindings : List (String × String)) : Prop :=
  Map.find bindings "with-test" ≠ some "true"

structure SolverEnv where
  bindings : List (String × String)
  sorted : Map.Sorted bindings
  validated : Validated bindings
deriving DecidableEq

namespace SolverEnv

def empty : SolverEnv := ⟨[], Map.sorted_nil, by simp [Validated]⟩

variable (t : SolverEnv)

def get (name : String) : Option String := Map.find t.bindings name

@[simp]
theorem get_empty (name : String) : empty.get name = none := rfl

theorem ext_get {a b : SolverEnv} (h : ∀ name, a.get name = b.get name) : a = b := by
  have hb : a.bindings = b.bindings := a.sorted.ext b.sorted h
  cases a
  cases b
  cases hb
  rfl

/-- `Solver_env.set`, for a value that passes the check. -/
def set (name value : String) (h : name = "with-test" → value ≠ "true") : SolverEnv where
  bindings := Map.set name value t.bindings
  sorted := t.sorted.set name value
  validated := by
    rw [Validated, Map.find_set]
    split
    · next heq => exact fun hv => h heq (Option.some.inj hv)
    · exact t.validated

def unset (name : String) : SolverEnv where
  bindings := Map.remove name t.bindings
  sorted := t.sorted.remove name
  validated := by
    rw [Validated, Map.find_remove]
    split
    · exact (Option.some_ne_none _).symm
    · exact t.validated

theorem get_unset (name k : String) : (t.unset name).get k = if name = k then none else t.get k :=
  Map.find_remove name t.bindings k

variable (names : List String)

def unsetMulti : SolverEnv := names.foldl unset t

theorem get_unsetMulti (k : String) :
    (t.unsetMulti names).get k = if k ∈ names then none else t.get k := by
  induction names generalizing t with
  | nil => rfl
  | cons name names ih =>
    refine (ih (t.unset name)).trans ?_
    rw [get_unset]
    by_cases hk : k = name
    · subst hk
      simp
    · simp [hk, Ne.symm hk]

/-- `Solver_env.extend`: the second environment wins. -/
def extend (a b : SolverEnv) : SolverEnv where
  bindings := Map.union (fun _ x _ => some x) b.bindings a.bindings
  sorted := b.sorted.union
  validated := by
    have ha := a.validated
    have hb := b.validated
    unfold Validated at *
    rw [Map.find_union]
    revert ha hb
    cases Map.find b.bindings "with-test" <;> cases Map.find a.bindings "with-test" <;> simp

theorem get_extend (a b : SolverEnv) (k : String) :
    (a.extend b).get k = (b.get k).or (a.get k) := by
  refine (Map.find_union k).trans ?_
  show _ = (Map.find b.bindings k).or (Map.find a.bindings k)
  cases Map.find b.bindings k <;> cases Map.find a.bindings k <;> rfl

def removeAllExcept : SolverEnv :=
  t.bindings.foldl (fun acc b => if b.1 ∈ names then acc else acc.unset b.1) t

theorem get_removeAllExcept_loop (l : List (String × String))
    (acc : SolverEnv) (k : String) :
    (l.foldl (fun acc b => if b.1 ∈ names then acc else acc.unset b.1) acc).get k =
      if k ∉ names ∧ k ∈ l.map Prod.fst then none else acc.get k := by
  induction l generalizing acc with
  | nil => simp
  | cons b l ih =>
    rw [List.foldl_cons, ih]
    by_cases hb : b.1 ∈ names
    · rw [if_pos hb]
      have hk : k ∉ names → k ≠ b.1 := fun hk heq => hk (heq ▸ hb)
      grind
    · rw [if_neg hb, get_unset]
      grind

theorem get_removeAllExcept (k : String) :
    (t.removeAllExcept names).get k = if k ∈ names then t.get k else none := by
  refine (get_removeAllExcept_loop names t.bindings t k).trans ?_
  by_cases hk : k ∈ names
  · simp [hk]
  · by_cases hmem : k ∈ t.bindings.map Prod.fst
    · rw [if_pos ⟨hk, hmem⟩, if_neg hk]
    · rw [if_neg (fun h => hmem h.2), if_neg hk]
      exact Map.find_eq_none.mpr hmem

def removeAllExceptPlatformSpecific : SolverEnv :=
  t.removeAllExcept platformSpecific

def isSubset (t of : SolverEnv) : Bool := Map.isSubset (fun x y => x == y) t.bindings of.bindings

theorem isSubset_iff {t of : SolverEnv} :
    t.isSubset of = true ↔ ∀ name value, t.get name = some value → of.get name = some value := by
  rw [isSubset, Map.isSubset_iff]
  simp only [beq_iff_eq]
  constructor
  · intro h name value hv
    obtain ⟨value', hof, rfl⟩ := h name value hv
    exact hof
  · exact fun h name value hv => ⟨value, h name value hv, rfl⟩

theorem removeAllExceptPlatformSpecific_isSubset :
    t.removeAllExceptPlatformSpecific.isSubset t = true := by
  rw [isSubset_iff]
  intro name value hv
  rw [removeAllExceptPlatformSpecific, get_removeAllExcept] at hv
  split at hv
  · exact hv
  · cases hv

/-- The platform-specific variables of a portable environment are those of the platform. -/
theorem removeAllExceptPlatformSpecific_extend (base platform : SolverEnv) :
    ((base.unsetMulti platformSpecific).extend platform).removeAllExceptPlatformSpecific =
      platform.removeAllExceptPlatformSpecific := by
  refine ext_get fun name => ?_
  simp only [removeAllExceptPlatformSpecific, get_removeAllExcept, get_extend, get_unsetMulti]
  split
  · exact Option.or_none
  · rfl

end SolverEnv

end Dune.Pkg
