import Mathlib

/-!
# Literals and constraints

The problem that a solver is given: variables are numbered, a constraint asks for at least one or
for at most `n` of a list of literals, and an assignment gives every variable a truth value.
-/

open List

namespace Dune.Sat

inductive Sign where
  | pos
  | neg
deriving DecidableEq, Repr

structure Lit where
  sign : Sign
  var : Nat
deriving DecidableEq, Repr

abbrev Assignment := Nat → Bool

namespace Lit

def neg (l : Lit) : Lit :=
  match l.sign with
  | .pos => ⟨.neg, l.var⟩
  | .neg => ⟨.pos, l.var⟩

def eval (α : Assignment) (l : Lit) : Bool :=
  match l.sign with
  | .pos => α l.var
  | .neg => !α l.var

@[simp] theorem neg_var (l : Lit) : l.neg.var = l.var := by
  obtain ⟨s, v⟩ := l
  cases s <;> rfl

@[simp] theorem neg_neg (l : Lit) : l.neg.neg = l := by
  obtain ⟨s, v⟩ := l
  cases s <;> rfl

@[simp] theorem neg_ne (l : Lit) : l.neg ≠ l := by
  obtain ⟨s, v⟩ := l
  cases s <;> simp [neg]

variable {l l' : Lit}

theorem neg_eq_iff : l.neg = l' ↔ l = l'.neg := by
  constructor
  all_goals
    rintro rfl
    rw [neg_neg]

theorem neg_injective (h : l.neg = l'.neg) : l = l' := by
  rw [neg_eq_iff.mp h, neg_neg]

/-- Two literals of one variable are equal or opposite. -/
theorem eq_or_eq_neg (h : l.var = l'.var) : l = l' ∨ l = l'.neg := by
  obtain ⟨s, v⟩ := l
  obtain ⟨s', v'⟩ := l'
  cases h
  cases s <;> cases s' <;> simp [neg]

@[simp] theorem eval_neg (α : Assignment) (l : Lit) : l.neg.eval α = !l.eval α := by
  obtain ⟨s, v⟩ := l
  cases s <;> simp [neg, eval]

end Lit

inductive Constraint where
  | atLeastOne (lits : List Lit)
  | atMost (nb : Nat) (lits : List Lit)
deriving DecidableEq, Repr

namespace Constraint

def Holds (α : Assignment) : Constraint → Prop
  | .atLeastOne lits => ∃ l ∈ lits, l.eval α = true
  | .atMost nb lits => lits.countP (·.eval α) ≤ nb

instance (α : Assignment) : (c : Constraint) → Decidable (c.Holds α)
  | .atLeastOne lits => inferInstanceAs (Decidable (∃ l ∈ lits, l.eval α = true))
  | .atMost nb lits => inferInstanceAs (Decidable (lits.countP (·.eval α) ≤ nb))

end Constraint

/-- The assignments that satisfy a list of constraints. -/
def Models (Φ : List Constraint) (α : Assignment) : Prop := ∀ c ∈ Φ, c.Holds α

variable {α : Assignment} {lits : List Lit} {Φ : List Constraint}

theorem Models.of_append {c : Constraint} (h : Models (Φ ++ [c]) α) : Models Φ α ∧ c.Holds α := by
  constructor
  · intro d hd
    exact h d (mem_append_left _ hd)
  · exact h c (mem_append_right _ (mem_singleton.mpr rfl))

theorem Models.append {c : Constraint} (h : Models Φ α) (hc : c.Holds α) : Models (Φ ++ [c]) α :=
  forall_mem_append.mpr ⟨h, forall_mem_singleton.mpr hc⟩

/-- What holds in every model of the constraints. -/
def Entails (Φ : List Constraint) (c : Constraint) : Prop := ∀ α, Models Φ α → c.Holds α

/-- A literal that is true in every model. -/
def Forces (Φ : List Constraint) (l : Lit) : Prop := ∀ α, Models Φ α → l.eval α = true

theorem length_le_countP {xs : List Lit} (hnodup : xs.Nodup)
    (h : ∀ x ∈ xs, x ∈ lits ∧ x.eval α = true) : xs.length ≤ lits.countP (·.eval α) := by
  rw [countP_eq_length_filter]
  refine (hnodup.subperm ?_).length_le
  intro x hx
  exact mem_filter.mpr (h x hx)

/-- More than `nb` distinct literals of a group cannot be true together. -/
theorem atMost_not_all {nb : Nat} (xs : List Lit) (h : (Constraint.atMost nb lits).Holds α)
    (hnodup : xs.Nodup) (hlen : nb < xs.length) (hsub : ∀ x ∈ xs, x ∈ lits) :
    ∃ x ∈ xs, x.eval α = false := by
  by_contra hall
  have htrue : ∀ x ∈ xs, x ∈ lits ∧ x.eval α = true := by
    intro x hx
    refine ⟨hsub x hx, ?_⟩
    by_contra hfalse
    exact hall ⟨x, hx, by simpa using hfalse⟩
  have hle := length_le_countP hnodup htrue
  have hh : lits.countP (·.eval α) ≤ nb := h
  omega

/-- When `nb` literals of a group are true, every other one is false. -/
theorem atMost_forces {nb : Nat} {xs : List Lit} {l : Lit} (h : (Constraint.atMost nb lits).Holds α)
    (hnodup : xs.Nodup) (hlen : nb ≤ xs.length) (hsub : ∀ x ∈ xs, x ∈ lits) (hl : l ∈ lits)
    (hnot : l ∉ xs) (hall : ∀ x ∈ xs, x.eval α = true) : l.neg.eval α = true := by
  obtain ⟨x, hx, hfalse⟩ := atMost_not_all (l :: xs) h (nodup_cons.mpr ⟨hnot, hnodup⟩)
    (by simp only [length_cons]; omega) (forall_mem_cons.mpr ⟨hl, hsub⟩)
  rcases mem_cons.mp hx with rfl | hx
  · rw [Lit.eval_neg, hfalse]
    rfl
  · rw [hall x hx] at hfalse
    cases hfalse

end Dune.Sat
