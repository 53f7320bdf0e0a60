import Mathlib

/-!
# Progress of a backtracking search

A search assigns values one after the other; some are decisions, the others follow. Read along the
assignments, decisions as the digit 1 and the others as the digit 2 of a number in base 3, that
number grows when a value is assigned, and when a decision is replaced by the opposite consequence.
-/

open List

namespace Dune.Sat

/-- The number that a trail of length `len` with decisions at `lims` stands for, in a problem with
`n` variables. -/
def progress (n : Nat) (lims : List Nat) : Nat → Nat
  | 0 => 0
  | i + 1 => progress n lims i + (if i ∈ lims then 1 else 2) * 3 ^ (n - 1 - i)

section
variable {n len len' m : Nat} {lims lims' : List Nat}

theorem progress_mono (h : len ≤ len') : progress n lims len ≤ progress n lims len' := by
  induction h with
  | refl => exact Nat.le_refl _
  | step _ ih => exact Nat.le_trans ih (Nat.le_add_right _ _)

/-- The digits below a position do not depend on the decisions above. -/
theorem progress_congr (h : ∀ i < len, i ∈ lims ↔ i ∈ lims') :
    progress n lims len = progress n lims' len := by
  induction len with
  | zero => rfl
  | succ i ih =>
    rw [progress, progress, ih fun j hj => h j (Nat.lt_succ_of_lt hj)]
    simp only [h i (Nat.lt_succ_self i)]

/-- The digits from a position on are worth less than one unit of the digit before it. -/
theorem progress_lt (lims : List Nat) (hm : m ≤ len) (hlen : len ≤ n) :
    progress n lims len + 3 ^ (n - len) ≤ progress n lims m + 3 ^ (n - m) := by
  induction hm with
  | refl => exact Nat.le_refl _
  | @step i hm ih =>
    have ih := ih (Nat.le_of_succ_le hlen)
    have hpow : 3 ^ (n - i) = 3 * 3 ^ (n - (i + 1)) := by
      rw [← Nat.pow_succ']
      congr 1
      omega
    have hexp : n - 1 - i = n - (i + 1) := by omega
    rw [Nat.succ_eq_add_one, progress, hexp]
    split <;> omega

theorem progress_bound (hlen : len ≤ n) : progress n lims len < 3 ^ n := by
  have h := progress_lt lims (Nat.zero_le len) hlen
  have hpos : 0 < 3 ^ (n - len) := Nat.pow_pos (by decide)
  rw [progress, Nat.sub_zero] at h
  omega

theorem progress_decide : progress n lims len < progress n (len :: lims) (len + 1) := by
  have hpos : 0 < 3 ^ (n - 1 - len) := Nat.pow_pos (by decide)
  have hsame : progress n (len :: lims) len = progress n lims len :=
    progress_congr fun i hi => by simp [Nat.ne_of_lt hi]
  rw [progress, hsame, if_pos mem_cons_self]
  omega

/-- A decision is replaced by its consequence, and what came after it is gone. -/
theorem progress_backtrack {upper lower : List Nat} (hlims : lims = upper ++ m :: lower)
    (hsorted : (len :: lims).Pairwise (· > ·)) (hlen : len ≤ n) :
    progress n lims len < progress n lower (m + 1) := by
  obtain ⟨hlt, hsorted⟩ := pairwise_cons.mp hsorted
  subst hlims
  obtain ⟨-, hlower, hupper⟩ := pairwise_append.mp hsorted
  have hm : m < len := hlt m (mem_append_right _ mem_cons_self)
  have hmnot : m ∉ lower := fun hmem => Nat.lt_irrefl _ ((pairwise_cons.mp hlower).1 m hmem)
  have hsame : progress n (upper ++ m :: lower) m = progress n lower m := by
    refine progress_congr fun i hi => ?_
    have : i ∉ upper := fun hmem => Nat.lt_asymm hi (hupper i hmem m mem_cons_self)
    grind
  have hrest := progress_lt (upper ++ m :: lower) (m := m + 1) hm hlen
  have hpos : 0 < 3 ^ (n - len) := Nat.pow_pos (by decide)
  have hexp : n - (m + 1) = n - 1 - m := by omega
  have hdigit : progress n (upper ++ m :: lower) (m + 1) =
      progress n lower m + 3 ^ (n - 1 - m) := by
    rw [progress, hsame, if_pos (mem_append_right _ mem_cons_self), Nat.one_mul]
  rw [hdigit, hexp] at hrest
  rw [progress, if_neg hmnot]
  omega

end

end Dune.Sat
