import Dune.Sexp.BufferRel
import Dune.Sexp.RoundTrip

/-!
# Valid atoms are what the lexer reads

`Atom.is_valid` and the rule `atom` agree: the atoms that the lexer returns are valid
(`tokenRule_isValid`), and a valid string is read as one atom.
-/

namespace Dune.Sexp.Lexer

open List Dune.Stdune Atom
open EStateM (Result)

variable {s a : Bytes} {bound : Nat} {acc : List Part} {start : Position}
  {st st' : State} {t : Token} {withComments : Bool}

theorem getToken_isQuoted (h : st.getToken = .ok t st') : t.isQuoted = true := by
  unfold State.getToken at h
  split at h
  · next hget =>
    cases h
    exact Buffer.get_isQuoted hget
  · cases h

theorem quotedString_isQuoted (h : quotedString bound st = .ok t st') : t.isQuoted = true := by
  fun_induction quotedString bound st with
  | case1 | case3 | case7 | case9 => cases h
  | case4 => exact getToken_isQuoted h
  | case2 | case5 | case6 | case8 | case10 =>
    rename_i ih
    exact ih h

theorem blockString_isQuoted {rule : BlockRule} (h : blockString bound rule st = .ok t st') :
    t.isQuoted = true := by
  fun_induction blockString bound rule st with
  | case1 | case9 | case12 | case14 => cases h
  | case4 | case6 => exact getToken_isQuoted h
  | case2 | case3 | case5 | case7 | case8 | case10 | case11 | case13 | case15 | case16 =>
    rename_i ih
    exact ih h

theorem startQuotedString_isQuoted (h : startQuotedString st = .ok t st') : t.isQuoted = true := by
  unfold startQuotedString at h
  split at h
  · exact blockString_isQuoted h
  · exact blockString_isQuoted h
  · exact quotedString_isQuoted h

/-- The parts that `atom` has read are one text, or none yet. -/
def IsText (acc : List Part) (t : Bytes) : Prop := acc = [] ∧ t = [] ∨ acc = [.text t]

theorem IsText.of_addText {t : Bytes} (h : IsText (addText acc s) t) :
    ∃ t', IsText acc t' ∧ t = t' ++ s := by
  unfold IsText addText at h
  split at h
  · next s' parts =>
    simp only [reduceCtorEq, false_and, cons.injEq, Part.text.injEq, false_or] at h
    exact ⟨s', .inr (by rw [h.2]), h.1.symm⟩
  · simp only [reduceCtorEq, false_and, cons.injEq, Part.text.injEq, false_or] at h
    exact ⟨[], .inl ⟨h.2, rfl⟩, h.1.symm⟩

theorem templateToken_atom (h : templateToken acc false start st = .ok (.atom a) st') :
    acc = [.text a] ∧ a ≠ [] := by
  simp only [templateToken, invalidDuneOrJbuild, State.error] at h
  split at h
  · cases h
  · cases h
  · next hne =>
    cases h
    exact ⟨rfl, fun hnil => hne (by rw [hnil])⟩
  · cases h

/-- An atom is the text that is read before and in the rule `atom`, as long as no variable is. -/
theorem atom_text (h : atom bound acc start st = .ok (.atom a) st') :
    a ≠ [] ∧ ∃ t u, IsText acc t ∧ a = t ++ u ∧ (∃ r, st.rest = u ++ r) ∧ loop u = true := by
  fun_induction atom bound acc start st with
  | case1 | case4 | case7 => cases h
  | case2 | case8 =>
    obtain ⟨hacc, hne⟩ := templateToken_atom h
    exact ⟨hne, a, [], .inr hacc, (append_nil a).symm, ⟨_, rfl⟩, rfl⟩
  | case3 _ _ _ _ _ _ _ _ hvar hrest ih =>
    obtain ⟨v, rfl⟩ := templateVariable_ok hvar
    obtain ⟨-, t, u, hacc, -⟩ := ih h
    simp [IsText] at hacc
  | case5 _ acc _ st rest hbrace hrest ih =>
    obtain ⟨hne, t, u, hacc, rfl, ⟨r, hu⟩, hloop⟩ := ih h
    obtain ⟨t, ht, rfl⟩ := hacc.of_addText
    obtain rfl : rest = u ++ r := by rwa [State.rest_accept, hrest] at hu
    refine ⟨hne, t, 37 :: u, ht, append_assoc _ _ _, ⟨r, hrest⟩, ?_⟩
    refine afterPercent_iff.mpr ⟨hloop, fun hu => hbrace ?_⟩
    cases u with
    | nil => cases hu
    | cons => exact hu
  | case6 _ _ _ st _ _ hrest hc37 hatom s ih =>
    obtain ⟨hne, t, u, hacc, rfl, ⟨r, hu⟩, hloop⟩ := ih h
    obtain ⟨t, ht, rfl⟩ := hacc.of_addText
    obtain ⟨w, hw⟩ : s <+: _ := takeWhile_prefix _
    obtain rfl : w = u ++ r := by rwa [State.rest_accept, hrest, ← hw, drop_left] at hu
    have hs : s.all isRunChar = true := all_takeWhile ..
    refine ⟨hne, t, s ++ u, ht, append_assoc _ _ _, ⟨r, ?_⟩, by rwa [loop_run hs]⟩
    rw [hrest, ← hw, append_assoc]

theorem tokenRule_isValid (h : tokenRule withComments bound st = .ok (.atom a) st') :
    isValid a = true := by
  fun_induction tokenRule withComments bound st with
  | case1 | case3 | case7 | case8 | case10 => cases h
  | case2 | case4 | case6 =>
    rename_i ih
    exact ih h
  | case5 =>
    obtain ⟨lines, hlines⟩ := commentTrail_comment h
    cases hlines
  | case9 _ _ _ _ _ _ _ _ hstring =>
    cases h
    cases startQuotedString_isQuoted hstring
  | case11 =>
    obtain ⟨hne, t, u, hacc, rfl, -, hloop⟩ := atom_text h
    obtain ⟨-, rfl⟩ | hacc := hacc
    · exact Bool.and_eq_true_iff.mpr ⟨decide_eq_true (length_pos_iff.mpr hne), hloop⟩
    · cases hacc

/-- The valid atoms are the strings that are read as one atom, up to the end of the input. -/
theorem isValid_iff_token (withComments : Bool) (st : State) :
    isValid st.rest = true ↔ ∃ st₁ st₂, token withComments st = .ok (.atom st.rest) st₁ ∧
      token withComments st₁ = .ok .eof st₂ := by
  constructor
  · intro h
    obtain ⟨st₁, htoken, hrest, -⟩ := token_validAtom h (r := []) (fun c r hr => by cases hr)
      (append_nil _).symm withComments
    exact ⟨st₁, _, htoken, Parser.token_of_nil hrest⟩
  · rintro ⟨st₁, st₂, htoken, -⟩
    exact tokenRule_isValid htoken

end Dune.Sexp.Lexer
