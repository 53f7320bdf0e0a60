import Dune.Sexp.Parser

/-!
# The bounds of the lexer suffice

Every rule that calls itself has read something of the input, and every token except the end of
the input is at least one byte long. With a bound above the length of the input, no rule runs out
of it.
-/

namespace Dune.Sexp.Lexer

open Dune.Stdune State
open EStateM (Result)

section Rules

variable {st : State}

namespace State

@[simp] theorem length_accept (st : State) (n : Nat) :
    (st.accept n).rest.length = st.rest.length - n :=
  List.length_drop

@[simp] theorem rest_newLine (st : State) : st.newLine.rest = st.rest := rfl

theorem accept_takeWhile_lt {c : UInt8} {s : Bytes} {p : UInt8 → Bool} (hrest : st.rest = c :: s)
    (hc : p c = true) :
    (st.accept ((c :: s).takeWhile p).length).rest.length < (c :: s).length := by
  rw [List.takeWhile_cons_of_pos hc, length_accept, hrest]
  simp only [List.length_cons]
  omega

end State

/-- The bound was enough, and at most `n` bytes of the input are left. -/
def Within {α : Type} (n : Nat) : Result Failure State α → Prop
  | .ok _ st => st.rest.length ≤ n
  | .error e _ => e ≠ .outOfBound

variable {n bound : Nat}

theorem Within.mono {α : Type} {m : Nat} {r : Result Failure State α} (h : Within m r)
    (hle : m ≤ n) : Within n r := by
  cases r with
  | ok a st => exact Nat.le_trans h hle
  | error e st => exact h

theorem State.error_within {α : Type} (st : State) (message : String) (delta : Int) (n : Nat) :
    Within n (st.error message delta : Result Failure State α) :=
  nofun

theorem State.getToken_within (st : State) : Within st.rest.length st.getToken := by
  unfold State.getToken
  split
  · exact Nat.le_refl _
  · nofun

theorem newline_pos {s : Bytes} (h : newline s = some n) : 0 < n ∧ n ≤ s.length := by
  unfold newline at h
  split at h <;> cases h <;> simp

theorem templateVariable_within (st : State) : Within st.rest.length (templateVariable st) := by
  simp only [templateVariable, notAllowed, pformPart, State.error]
  repeat' split
  all_goals simp [Within]

theorem escapeSequence_within (st : State) : Within st.rest.length (escapeSequence st) := by
  simp only [escapeSequence, State.error]
  repeat' split
  all_goals simp [Within]

theorem Within.error {α β : Type} {m : Nat} {e : Failure} {st' : State} {r : Result Failure State α}
    (h : Within m r) (heq : r = .error e st') :
    Within n (.error e st' : Result Failure State β) := by
  rw [heq] at h
  exact h

section

variable {α : Type} {st' : State} {c : UInt8} {s : Bytes} {r : Result Failure State α}

theorem State.accept_lt (hrest : st.rest = c :: s) :
    (st.accept (n + 1)).rest.length < st.rest.length := by
  rw [length_accept, hrest, List.length_cons]
  omega

theorem Within.lt {a : α} (h : Within (st.accept (n + 1)).rest.length r) (heq : r = .ok a st')
    (hrest : st.rest = c :: s) : st'.rest.length < st.rest.length := by
  rw [heq] at h
  exact Nat.lt_of_le_of_lt h (accept_lt hrest)

theorem Within.call (h : st.rest.length < bound + 1) (hst' : st'.rest.length < st.rest.length)
    (ih : st'.rest.length < bound → Within st'.rest.length r) : Within st.rest.length r :=
  (ih (by omega)).mono (Nat.le_of_lt hst')

end

theorem quotedString_within (h : st.rest.length < bound) :
    Within st.rest.length (quotedString bound st) := by
  fun_induction quotedString bound st with
  | case1 => omega
  | case2 bound st n hn ih =>
    obtain ⟨hpos, hle⟩ := newline_pos hn
    exact .call h (by simp; omega) ih
  | case3 => exact error_within _ _ _ _
  | case4 => exact (getToken_within _).mono (by simp)
  | case5 bound st _ rest st' hescape hrest _ ih =>
    have hlt := (escapeSequence_within _).lt hescape hrest
    refine .call h ?_ ih
    rw [skipBlanks, length_accept]
    omega
  | case6 bound st _ rest st' hescape hrest _ ih =>
    exact .call h ((escapeSequence_within _).lt hescape hrest) ih
  | case7 _ _ _ _ _ _ hescape => exact (escapeSequence_within _).error hescape
  | case8 bound st _ c rest hrest _ _ _ var st' hvar ih =>
    exact .call h ((templateVariable_within _).lt hvar hrest) ih
  | case9 _ _ _ _ _ _ _ _ _ _ _ hvar => exact (templateVariable_within _).error hvar
  | case10 bound st _ c rest hrest _ _ _ ih => exact .call h (accept_lt hrest) ih

theorem blockString_within {rule : BlockRule} (h : st.rest.length < bound) :
    Within st.rest.length (blockString bound rule st) := by
  fun_induction blockString bound rule st with
  | case1 => omega
  | case2 bound st n tail hs ih | case3 bound st n tail hs ih =>
    have hpos : 0 < (st.rest.drop n).length := by simp [hs]
    rw [List.length_drop] at hpos
    refine .call h ?_ ih
    rw [length_accept]
    omega
  | case4 | case6 => exact (getToken_within _).mono (by simp)
  | case5 bound rule st _ n hn ih =>
    obtain ⟨hpos, hle⟩ := newline_pos hn
    exact .call h (by simp; omega) ih
  | case7 bound st _ rest hrest _ ih | case8 bound st _ rest hrest _ ih
  | case15 bound st _ c rest hrest _ _ _ ih | case16 bound rule st _ _ c rest hrest _ _ ih =>
    exact .call h (accept_lt hrest) ih
  | case9 => exact error_within _ _ _ _
  | case10 bound st _ rest st' hescape _ hrest ih
  | case11 bound st _ rest st' hescape _ hrest ih =>
    exact .call h ((escapeSequence_within _).lt hescape hrest) ih
  | case12 _ _ _ _ _ _ hescape => exact (escapeSequence_within _).error hescape
  | case13 bound st _ c rest hrest _ _ var st' hvar _ ih =>
    exact .call h ((templateVariable_within _).lt hvar hrest) ih
  | case14 _ _ _ _ _ _ _ _ _ _ hvar => exact (templateVariable_within _).error hvar

theorem startQuotedString_within (st : State) : Within st.rest.length (startQuotedString st) := by
  unfold startQuotedString
  split
  · next hrest =>
    exact (blockString_within (by simp [hrest])).mono (by simp)
  · next hrest =>
    exact (blockString_within (by simp [hrest])).mono (by simp)
  · exact (quotedString_within (by simp)).mono (by simp)

theorem templateToken_within (parts : List Part) (quoted : Bool) (start : Position) (st : State) :
    Within st.rest.length (templateToken parts quoted start st) := by
  simp only [templateToken, invalidDuneOrJbuild, State.error]
  split <;> simp [Within, State.rest]

section

variable (h : st.rest.length < bound)
include h

/-- An atom without text is an error, so that an atom has read something. -/
theorem atom_within {acc : List Part} {start : Position}
    (hn : st.rest.length ≤ n ∨ acc = [] ∧ st.rest.length ≤ n + 1) :
    Within n (atom bound acc start st) := by
  fun_induction atom bound acc start st with
  | case1 => omega
  | case2 | case8 =>
    obtain hn | ⟨rfl, -⟩ := hn
    · exact (templateToken_within _ _ _ _).mono (by simpa using hn)
    · exact error_within _ _ _ _
  | case3 _ _ _ _ _ _ _ _ hvar hrest ih =>
    have hlt := (templateVariable_within _).lt hvar hrest
    exact ih (by omega) (by omega)
  | case4 _ _ _ _ _ _ _ _ hvar => exact (templateVariable_within _).error hvar
  | case5 _ _ _ st _ _ hrest ih =>
    have hlt : (st.accept 1).rest.length < st.rest.length := accept_lt hrest
    exact ih (by omega) (by omega)
  | case6 _ _ _ st _ _ hrest hc37 hatom s ih =>
    have hlt : (st.accept s.length).rest.length < st.rest.length :=
      (accept_takeWhile_lt hrest (by simp [hatom, hc37])).trans_eq (by rw [hrest])
    exact ih (by omega) (by omega)
  | case7 => exact error_within _ _ _ _

theorem commentTrail_within {acc : List Bytes} :
    Within st.rest.length (commentTrail bound acc st) := by
  fun_induction commentTrail bound acc st with
  | case1 => omega
  | case2 | case4 => simp [Within]
  | case3 _ _ _ _ hn _ _ _ _ ih =>
    obtain ⟨hpos, hle⟩ := newline_pos hn
    exact .call h (by rw [length_accept]; omega) ih

/-- Every token but the last has read something. -/
theorem tokenRule_within {withComments : Bool} :
    Within (st.rest.length - 1) (tokenRule withComments bound st) := by
  fun_induction tokenRule withComments bound st with
  | case1 => omega
  | case2 _ _ _ hn ih =>
    obtain ⟨hpos, hle⟩ := newline_pos hn
    exact (ih (by simp; omega)).mono (by simp; omega)
  | case3 _ _ _ hrest => simp [Within, hrest]
  | case4 _ _ _ _ _ hrest hblank ih =>
    have hlt := accept_takeWhile_lt hrest hblank
    rw [← hrest] at hlt
    exact (ih (by omega)).mono (by omega)
  | case5 _ st _ rest s st' =>
    refine (commentTrail_within (Nat.lt_succ_self _)).mono ?_
    rw [length_accept]
    omega
  | case6 _ st _ rest s st' _ hrest _ ih =>
    have hle : st'.rest.length = st.rest.length - (1 + s.length) := length_accept _ _
    have hpos : 0 < st.rest.length := by simp [hrest]
    exact (ih (by omega)).mono (by omega)
  | case7 | case8 => simp [Within]
  | case9 _ st _ _ _ _ _ _ hstring =>
    have hle := startQuotedString_within
      { st.accept 1 with buffer := (st.accept 1).buffer.newToken }
    rw [hstring] at hle
    exact hle.mono (Nat.le_of_eq (st.length_accept 1))
  | case10 _ _ _ _ _ _ _ hstring => exact (startQuotedString_within _).error hstring
  | case11 =>
    refine atom_within (Nat.lt_succ_self _) (.inr ⟨rfl, ?_⟩)
    rw [length_accept]
    omega

end

theorem token_within (withComments : Bool) (st : State) :
    Within (st.rest.length - 1) (token withComments st) :=
  tokenRule_within (Nat.lt_succ_self _)

end Rules

end Dune.Sexp.Lexer

namespace Dune.Sexp.Parser

open Dune.Stdune Lexer
open EStateM (Result)

variable {withComments : Bool} {st : State}

theorem token_of_nil (h : st.rest = []) : token withComments st = .ok .eof (st.accept 0) := by
  simp [token, tokenRule, newline, h]

theorem token_lt {st' : State} {t : Token} (h : token withComments st = .ok t st') (ht : t ≠ .eof) :
    st'.rest.length < st.rest.length := by
  have hne : st.rest ≠ [] := by
    intro hnil
    rw [token_of_nil hnil] at h
    cases h
    exact ht rfl
  have hwithin := token_within withComments st
  rw [h] at hwithin
  have hle : st'.rest.length ≤ st.rest.length - 1 := hwithin
  have hpos : 0 < st.rest.length := List.length_pos_iff.mpr hne
  omega

theorem loop_within {bound depth : Nat} {acc : List Ast} (h : st.rest.length < bound) :
    Within st.rest.length (loop withComments bound depth st acc) := by
  fun_induction loop withComments bound depth st acc with
  | case1 => omega
  | case2 _ _ _ _ _ _ _ heq => exact (token_within _ _).error heq
  | case3 _ _ _ _ _ _ _ heq ih | case4 _ _ _ _ _ _ _ heq ih | case6 _ _ _ _ _ _ _ heq _ _ ih
  | case13 _ _ _ _ _ _ heq ih | case14 _ _ _ _ _ _ _ heq _ ih =>
    exact .call h (token_lt heq nofun) ih
  | case5 | case9 | case11 => nofun
  | case7 _ _ _ _ _ _ heq _ _ hr ih =>
    have hlt := token_lt heq nofun
    exact (ih (by omega)).error hr
  | case8 _ _ _ _ _ _ heq _ _ _ hr ih ih' =>
    have hlt := token_lt heq nofun
    have hle := ih (by omega)
    rw [hr] at hle
    exact .call h (Nat.lt_of_le_of_lt hle hlt) ih'
  | case10 _ _ _ _ _ _ heq => exact Nat.le_of_lt (token_lt heq nofun)
  | case12 wc _ _ st _ _ heq =>
    have hle := token_within wc st
    rw [heq] at hle
    exact Nat.le_trans hle (Nat.sub_le _ _)

end Dune.Sexp.Parser
