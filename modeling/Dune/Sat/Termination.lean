import Dune.Sat.Correct

/-!
# The solver ends

`run_solver` and its loops are modelled with bounds on their numbers of rounds. A loop that ends
within a bound does the same with every greater one, so what `run_solver` returns does not depend on
the bounds once they are above numbers that only the variables determine.
-/

namespace Dune.Sat

open Dune.Stdune

section
variable {ε α β : Type}

/-- What `x` returns, `y` returns. -/
def ReturnsLe (x y : Except ε α) : Prop := ∀ a, x = .ok a → y = .ok a

theorem ReturnsLe.refl (x : Except ε α) : ReturnsLe x x := fun _ => id

theorem ReturnsLe.bind {x y : Except ε α} {f g : α → Except ε β} (h : ReturnsLe x y)
    (hf : ∀ a, ReturnsLe (f a) (g a)) : ReturnsLe (x >>= f) (y >>= g) := by
  intro b hb
  obtain ⟨a, hx, hb⟩ := bind_ok hb
  rw [h a hx]
  exact hf a b hb

end

namespace Problem

variable {n m : Nat}

theorem propagate_le (hnm : n ≤ m) (p : Problem) : ReturnsLe (propagate n p) (propagate m p) := by
  induction n generalizing m p with
  | zero =>
    intro _ h
    cases h
  | succ n ih =>
    obtain ⟨k, rfl⟩ := Nat.exists_eq_add_of_lt hnm
    rw [propagate, propagate]
    cases p.propQ with
    | nil => exact .refl _
    | cons lit propQ =>
      refine (ReturnsLe.refl _).bind fun r => ?_
      obtain ⟨conflict, p⟩ := r
      cases conflict with
      | none => exact ih (Nat.le_add_right n k) p
      | some c => exact .refl _

theorem followCauses_le (hnm : n ≤ m) (p : Problem) (a : Analysis) (reason : List Lit) :
    ReturnsLe (followCauses n p a reason) (followCauses m p a reason) := by
  induction n generalizing m p a reason with
  | zero =>
    intro _ h
    cases h
  | succ n ih =>
    obtain ⟨k, rfl⟩ := Nat.exists_eq_add_of_lt hnm
    rw [followCauses, followCauses]
    refine (ReturnsLe.refl _).bind fun _ => (ReturnsLe.refl _).bind fun r => ?_
    obtain ⟨⟨reason, lit⟩, p⟩ := r
    dsimp only
    split
    · exact .refl _
    · split
      · exact (ReturnsLe.refl _).bind fun reason => ih (Nat.le_add_right n k) p _ reason
      · exact .refl _
      · exact .refl _

theorem step_le (hnm : n ≤ m) (p : Problem) : ReturnsLe (p.step n) (p.step m) := by
  rw [step, step]
  split
  · exact .refl _
  · refine (propagate_le hnm p).bind fun r => ?_
    obtain ⟨conflict, p⟩ := r
    cases conflict with
    | none => exact .refl _
    | some c =>
      dsimp only
      split
      · exact .refl _
      · refine ReturnsLe.bind ?_ fun _ => .refl _
        exact (ReturnsLe.refl _).bind fun _ => (followCauses_le hnm _ _ _).bind fun _ => .refl _

end Problem

variable {σ : Type} {decider : Decider σ} {Φ : List Constraint}

theorem runSolver_le {n m bound bound' : Nat} (hnm : n ≤ m) (hbound : bound ≤ bound') (s : σ)
    (p : Problem) : ReturnsLe (runSolver decider bound n s p) (runSolver decider bound' m s p) := by
  induction n generalizing m s p with
  | zero =>
    intro _ h
    cases h
  | succ n ih =>
    obtain ⟨k, rfl⟩ := Nat.exists_eq_add_of_lt hnm
    refine (Problem.step_le hbound p).bind fun r => ?_
    obtain ⟨result, p⟩ := r
    cases result with
    | sat | unsat => exact .refl _
    | backtrack nbLevels => exact ih (Nat.le_add_right n k) s p
    | decide => exact (ReturnsLe.refl _).bind fun p => ih (Nat.le_add_right n k) _ p

/-- Whatever undecided literals the function chooses, `run_solver` returns after finitely many
rounds, with the same answer for all bounds on the rounds from some number on. -/
theorem runSolver_terminates {s : σ} {p : Problem} (h : Built p Φ)
    (hd : decider.Undecided p.numVars) :
    ∃ result q, ∀ bound > p.numVars, ∀ n > 3 ^ p.numVars,
      runSolver decider bound n s p = .ok (result, q) := by
  obtain ⟨result, q, hrun, -⟩ := h.building.solving.runSolver (s := s) (n := 3 ^ p.numVars + 1) hd
    (Nat.lt_succ_self _) (Nat.lt_of_lt_of_le (Nat.lt_succ_self _) (Nat.le_add_right _ _))
  exact ⟨result, q, fun bound hbound n hn => runSolver_le hn hbound s p _ hrun⟩

/-- A variable without constraints, and a function that chooses it. -/
theorem runSolver_terminates_one : ∃ result q, ∀ bound > 1, ∀ n > 3,
    runSolver (⟨fun s p => (s, if p.litValue ⟨.pos, 0⟩ = .undecided then some ⟨.pos, 0⟩
      else none)⟩ :
      Decider Unit) bound n () Problem.create.addVariable.2 = .ok (result, q) := by
  refine runSolver_terminates (.addVariable .create) fun s p l _ hl => ?_
  dsimp only at hl
  split at hl
  · next hundecided =>
    cases hl
    exact ⟨by decide, hundecided⟩
  · cases hl

end Dune.Sat
