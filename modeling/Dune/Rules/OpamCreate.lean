import Dune.Lang.Value

/-!
# The dependency on odoc in generated opam files

`insert_odoc_dep` of `opam_create.ml`. It adds a dependency on odoc unless one is there that is
taken to hold whenever documentation is built. What is taken for the variables that are not known is
that they are false, so that a negation of one is taken to hold (`not_requiresOdoc`).
-/

namespace Dune.Rules.OpamCreate

open List Dune.Lang

/-- `Package_constraint.Value.t`. -/
inductive Value
  | stringLiteral (s : String)
  | variable_ (name : String)

/-- `Package_constraint.t`. -/
inductive PackageConstraint
  | bvar (v : Value)
  | uop (op : Relop) (x : Value)
  | bop (op : Relop) (x y : Value)
  | and (l : List PackageConstraint)
  | or (l : List PackageConstraint)
  | not (t : PackageConstraint)

structure PackageDependency where
  name : String
  constraint : Option PackageConstraint

namespace PackageConstraint

section

variable (σ : String → Bool)

mutual

/-- The truth of a constraint, with every comparison of versions taken to be true. -/
def holds : PackageConstraint → Bool
  | .uop _ _ | .bop _ _ _ => true
  | .bvar (.stringLiteral _) => false
  | .bvar (.variable_ var) => σ var
  | .and l => forAll l
  | .or l => anyHolds l
  | .not t => !holds t

def forAll : List PackageConstraint → Bool
  | [] => true
  | t :: l => holds t && forAll l

def anyHolds : List PackageConstraint → Bool
  | [] => false
  | t :: l => holds t || anyHolds l

end

end

/-- The variables that are true when documentation is built. -/
def docVariables : List String := ["with-doc", "build", "post"]

/-- `already_requires_odoc`: the truth with only these variables taken to be true. -/
def alreadyRequiresOdoc : PackageConstraint → Bool := holds fun var => var ∈ docVariables

end PackageConstraint

open PackageConstraint (docVariables)

def odocName : String := "odoc"

def odocDep : PackageDependency := ⟨odocName, some (.bvar (.variable_ "with-doc"))⟩

def insertOdocLoop (acc : List PackageDependency) : List PackageDependency → List PackageDependency
  | [] => (odocDep :: acc).reverse
  | dep :: rest =>
    if dep.name = odocName ∧ dep.constraint.all PackageConstraint.alreadyRequiresOdoc then
      (dep :: acc).reverse ++ rest
    else insertOdocLoop (dep :: acc) rest

def insertOdocDep (depends : List PackageDependency) : List PackageDependency :=
  insertOdocLoop [] depends

/-- Some dependency on odoc has no constraint, or one that holds. -/
def RequiresOdoc (σ : String → Bool) (depends : List PackageDependency) : Prop :=
  ∃ dep ∈ depends, dep.name = odocName ∧ dep.constraint.all (·.holds σ)

/-- The loop ends at the first dependency that is taken to require odoc. -/
theorem insertOdocLoop_eq (acc depends : List PackageDependency) :
    (RequiresOdoc (· ∈ docVariables) depends →
      insertOdocLoop acc depends = acc.reverse ++ depends) ∧
    (¬RequiresOdoc (· ∈ docVariables) depends →
      insertOdocLoop acc depends = acc.reverse ++ depends ++ [odocDep]) := by
  fun_induction insertOdocLoop acc depends with
  | case1 => simp [RequiresOdoc]
  | case2 acc dep rest h =>
    exact ⟨fun _ => by simp, fun hnot => absurd ⟨dep, mem_cons_self, h⟩ hnot⟩
  | case3 acc dep rest h ih =>
    have hrest : RequiresOdoc (· ∈ docVariables) (dep :: rest) ↔
        RequiresOdoc (· ∈ docVariables) rest := by
      rw [RequiresOdoc, exists_mem_cons_iff]
      exact or_iff_right h
    simpa [hrest] using ih

end Dune.Rules.OpamCreate
