import Dune.Stdune.Bytes

/-!
# Decimal numbers

The digits of a number, from the most significant one on.
-/

namespace Dune.Stdune.Bytes

theorem decimalLoop_append (bound n : Nat) (acc : Bytes) :
    decimalLoop bound n acc = decimalLoop bound n [] ++ acc := by
  induction bound generalizing n acc with
  | zero => rfl
  | succ bound ih =>
    rw [decimalLoop, decimalLoop]
    split_ifs
    · rfl
    · rw [ih, ih (n / 10) [digit (n % 10)], List.append_assoc]
      rfl

theorem decimalLoop_bound {bound bound' n : Nat} (h : n < bound) (h' : n < bound') (acc : Bytes) :
    decimalLoop bound n acc = decimalLoop bound' n acc := by
  induction bound generalizing bound' n acc with
  | zero => omega
  | succ bound ih =>
    obtain ⟨bound', rfl⟩ : ∃ b, bound' = b + 1 := ⟨bound' - 1, by omega⟩
    rw [decimalLoop, decimalLoop]
    split_ifs
    · rfl
    · exact ih (by omega) (by omega) _

theorem decimal_of_lt {n : Nat} (h : n < 10) : decimal n = [digit n] := by
  rw [decimal, decimalLoop, if_pos h]

theorem decimal_of_ge {n : Nat} (h : 10 ≤ n) :
    decimal n = decimal (n / 10) ++ [digit (n % 10)] := by
  rw [decimal, decimalLoop, if_neg (by omega), decimalLoop_append, decimal,
    decimalLoop_bound (by omega : n / 10 < n) (by omega : n / 10 < n / 10 + 1)]

/-- A property of the digits of every positive number, from the most significant digit on. -/
theorem decimal_induction {p : Nat → Bytes → Prop} (first : ∀ d, 0 < d → d < 10 → p d [digit d])
    (next : ∀ n d ds, 0 < n → d < 10 → p n ds → p (n * 10 + d) (ds ++ [digit d])) {n : Nat}
    (h : 0 < n) : p n (decimal n) := by
  induction n using Nat.strongRecOn with
  | _ n ih =>
    by_cases hn : n < 10
    · rw [decimal_of_lt hn]
      exact first n h hn
    · rw [decimal_of_ge (by omega)]
      have hdiv : n / 10 * 10 + n % 10 = n := by omega
      have hnext := next (n / 10) (n % 10) _ (by omega) (by omega)
        (ih (n / 10) (by omega) (by omega))
      rwa [hdiv] at hnext

end Dune.Stdune.Bytes
