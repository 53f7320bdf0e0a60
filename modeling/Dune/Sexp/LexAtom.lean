import Dune.Sexp.LexQuoted

/-!
# Lexing what is printed without quotes

`AtomReads o r acc acc'` says that the rule `atom` reads `o` when `r` follows and takes the parts it
has accumulated from `acc` to `acc'`. It holds for the texts that `Atom.is_valid` accepts
(`atomReads_text`) and for the parts of an unquoted template (`atomReads_parts`).
-/

namespace Dune.Sexp.Lexer

open List Dune.Stdune Atom Template
open EStateM (Result)

/-! ## One step of `atom` -/

/-- The characters that `atom` reads in one go. -/
def isRunChar (c : UInt8) : Bool := isAtomChar c && c ≠ 37

/-- A run of characters ends in front of `r`. -/
def Stops (r : Bytes) : Prop := ∀ c r', r = c :: r' → isRunChar c = false

/-- What follows a printed S-expression: the end, a space or a closing parenthesis. -/
def Delimited (r : Bytes) : Prop := ∀ c r', r = c :: r' → c = 32 ∨ c = 41

variable {r u s : Bytes} {bound : Nat} {acc : List Part} {start : Position} {st : State} {c : UInt8}

theorem Delimited.stops (h : Delimited r) : Stops r := by
  intro c r' hr
  rcases h c r' hr with rfl | rfl <;> decide

theorem Stops.head_ne (h : Stops r) : r[0]? ≠ some 123 := by
  match r with
  | [] => simp
  | c :: r =>
    intro hc
    have hstop := h c r rfl
    rw [Option.some.inj hc] at hstop
    exact absurd hstop (by decide)

theorem stops_pform (v : Pform) (r : Bytes) : Stops (v.toBytes ++ r) := by
  intro c r' hr
  have hhead := Pform.toBytes_head v r
  rw [hr] at hhead
  rw [Option.some.inj hhead]
  decide

theorem takeWhile_run (hu : u.all isRunChar = true) (hr : Stops r) :
    (u ++ r).takeWhile isRunChar = u := by
  match r with
  | [] =>
    rw [takeWhile_append_of_pos (all_eq_true.mp hu), takeWhile_nil, append_nil]
  | c :: r => exact takeWhile_append_cons hu (hr c r rfl)

theorem atom_run (hrest : st.rest = u ++ r) (hne : u ≠ []) (hu : u.all isRunChar = true)
    (hr : Stops r) :
    atom (bound + 1) acc start st = atom bound (addText acc u) start (st.accept u.length) := by
  obtain ⟨c, u', rfl⟩ := exists_cons_of_ne_nil hne
  have hc := hu
  simp only [all_cons, Bool.and_eq_true, isRunChar, decide_eq_true_eq] at hc
  have htake := takeWhile_run hu hr
  rw [cons_append] at hrest htake
  rw [atom, hrest]
  simp only [if_neg hc.1.2, if_pos hc.1.1]
  rw [show (c :: (u' ++ r)).takeWhile (fun c => isAtomChar c && decide (c ≠ 37)) =
    c :: u' from htake]

theorem atom_percent (hrest : st.rest = 37 :: r) (hr : r[0]? ≠ some 123) :
    atom (bound + 1) acc start st = atom bound (addText acc [37]) start (st.accept 1) := by
  rw [atom, hrest]
  simp [if_neg hr]

theorem atom_var {st' : State} {var : Part} (hrest : st.rest = 37 :: 123 :: r)
    (hvar : templateVariable (st.accept 2) = .ok var st') :
    atom (bound + 1) acc start st = atom bound (var :: acc) start st' := by
  rw [atom, hrest]
  simp [hvar]

theorem atom_end (hr : Delimited st.rest) :
    atom (bound + 1) acc start st = templateToken acc false start (st.accept 0) := by
  rw [atom]
  split
  · rfl
  · next c r hrest =>
    rcases hr c r hrest with rfl | rfl <;> rfl

/-! ## Runs of `atom` -/

/-- The rule `atom` reads `o` in front of `r`, up to the locations of variables. -/
def AtomReads (o r : Bytes) (acc acc' : List Part) : Prop :=
  ∀ bound start st parts, st.rest = o ++ r → o.length ≤ bound → parts.map Part.removeLocs = acc →
    ∃ bound' st' parts', bound ≤ bound' + o.length ∧ st'.rest = r ∧ st'.buffer = st.buffer ∧
      parts'.map Part.removeLocs = acc' ∧ atom bound parts start st = atom bound' parts' start st'

theorem AtomReads.nil (r : Bytes) (acc : List Part) : AtomReads [] r acc acc :=
  fun bound _ st parts hrest _ hparts =>
    ⟨bound, st, parts, Nat.le_refl _, hrest, rfl, hparts, rfl⟩

theorem AtomReads.append {o o' : Bytes} {acc' acc'' : List Part}
    (h : AtomReads o (o' ++ r) acc acc') (h' : AtomReads o' r acc' acc'') :
    AtomReads (o ++ o') r acc acc'' := by
  intro bound start st parts hrest hbound hparts
  rw [append_assoc] at hrest
  rw [length_append] at hbound ⊢
  obtain ⟨bound₁, st₁, parts₁, hb₁, hrest₁, hbuf₁, hparts₁, heq₁⟩ :=
    h bound start st parts hrest (by omega) hparts
  obtain ⟨bound₂, st₂, parts₂, hb₂, hrest₂, hbuf₂, hparts₂, heq₂⟩ :=
    h' bound₁ start st₁ parts₁ hrest₁ (by omega) hparts₁
  exact ⟨bound₂, st₂, parts₂, by omega, hrest₂, hbuf₂.trans hbuf₁, hparts₂, heq₁.trans heq₂⟩

theorem atomReads_run (hne : u ≠ []) (hu : u.all isRunChar = true) (hr : Stops r)
    (acc : List Part) : AtomReads u r acc (addText acc u) := by
  intro bound start st parts hrest hbound hparts
  have hpos := length_pos_iff.mpr hne
  obtain ⟨bound, rfl⟩ : ∃ n, bound = n + 1 := ⟨bound - 1, by omega⟩
  refine ⟨bound, st.accept u.length, addText parts u, by omega, ?_, rfl, ?_, ?_⟩
  · rw [State.rest_accept, hrest, drop_left]
  · rw [map_removeLocs_addText, hparts]
  · exact atom_run hrest hne hu hr

theorem atomReads_percent (hr : r[0]? ≠ some 123) (acc : List Part) :
    AtomReads [37] r acc (addText acc [37]) := by
  intro bound start st parts hrest hbound hparts
  obtain ⟨bound, rfl⟩ : ∃ n, bound = n + 1 := ⟨bound - 1, by simp at hbound; omega⟩
  refine ⟨bound, st.accept 1, addText parts [37], Nat.le_refl _, ?_, rfl, ?_, ?_⟩
  · rw [State.rest_accept, hrest]
    rfl
  · rw [map_removeLocs_addText, hparts]
  · exact atom_percent hrest hr

theorem atomReads_pform {v : Pform} (hv : v.isWellFormed = true) (r : Bytes) (acc : List Part) :
    AtomReads v.toBytes r acc ((Part.pform v).removeLocs :: acc) := by
  intro bound start st parts hrest hbound hparts
  obtain ⟨o, ho⟩ := v.exists_toBytes
  rw [ho, length_cons] at hbound ⊢
  obtain ⟨bound, rfl⟩ : ∃ n, bound = n + 1 := ⟨bound - 1, by omega⟩
  have hrest₂ : 37 :: 123 :: (st.accept 2).rest = v.toBytes ++ r := by
    rw [State.rest_accept, hrest, ho]
    rfl
  obtain ⟨loc, st', hvar, hrest', hbuf'⟩ := templateVariable_spec hv hrest₂
  rw [ho] at hrest
  refine ⟨bound, st', .pform { v with loc } :: parts, by omega, hrest', hbuf', ?_, ?_⟩
  · rw [map_cons, hparts]
    rfl
  · exact atom_var hrest hvar

/-! ## Valid texts -/

theorem isAtomChar_eq (c : UInt8) : isAtomChar c = !isForbidden c := by
  rw [isAtomChar, isForbidden]
  ac_rfl

theorem afterPercent_iff : afterPercent s = true ↔ loop s = true ∧ s[0]? ≠ some 123 := by
  cases s with
  | nil => simp [afterPercent, loop]
  | cons c s =>
    rw [afterPercent, loop]
    split_ifs <;> simp_all

theorem loop_head (h : loop (c :: s) = true) : c = 37 ∨ isRunChar c = true := by
  by_cases hc : c = 37
  · exact .inl hc
  · rw [loop, if_neg hc] at h
    split_ifs at h with hforbidden
    simp [isRunChar, isAtomChar_eq, hforbidden, hc]

theorem loop_run (hu : u.all isRunChar = true) : loop (u ++ s) = loop s := by
  induction u with
  | nil => rfl
  | cons c u ih =>
    simp only [all_cons, Bool.and_eq_true, isRunChar, isAtomChar_eq, decide_eq_true_eq,
      Bool.not_eq_true'] at hu
    rw [cons_append, loop, if_neg hu.1.2, hu.1.1, if_neg Bool.false_ne_true]
    exact ih hu.2

/-- After the first run of a valid text comes its end or a percent sign. -/
theorem loop_dropWhile (h : loop s = true) :
    loop (s.dropWhile isRunChar) = true ∧
      ∀ c r, s.dropWhile isRunChar = c :: r → c = 37 := by
  rw [← takeWhile_append_dropWhile (p := isRunChar) (l := s), loop_run (all_takeWhile ..)] at h
  refine ⟨h, fun c r hr => ?_⟩
  have hstop := head?_dropWhile_not isRunChar s
  rw [hr] at h hstop
  refine (loop_head h).resolve_right fun hrun => ?_
  exact Bool.false_ne_true (hstop.symm.trans hrun)

theorem addBufToParts_addText (acc : List Part) (s s' : Bytes) :
    addBufToParts s' (addText acc s) = addText acc (s ++ s') := by
  rw [addBufToParts]
  split
  · next h => rw [h, append_nil]
  · rcases acc with _ | ⟨t | v, acc⟩
    · rfl
    · simp [addText]
    · rfl

theorem atomReads_text (s r : Bytes) (h : loop s = true) (hr : Stops r) (acc : List Part) :
    AtomReads s r acc (addBufToParts s acc) := by
  match s with
  | [] => exact AtomReads.nil r acc
  | c :: s =>
    by_cases hc : c = 37
    · subst hc
      obtain ⟨hs, hhead⟩ := afterPercent_iff.mp h
      have hbrace : (s ++ r)[0]? ≠ some 123 := by
        match s with
        | [] => exact hr.head_ne
        | _ :: _ => exact hhead
      have htail := atomReads_text s r hs hr (addText acc [37])
      rw [addBufToParts_addText] at htail
      exact (atomReads_percent hbrace acc).append htail
    · have hrun : isRunChar c = true := (loop_head h).resolve_left hc
      obtain ⟨hs, hstop⟩ := loop_dropWhile h
      have hlt : ((c :: s).dropWhile isRunChar).length < (c :: s).length := by
        rw [dropWhile_cons_of_pos hrun]
        exact Nat.lt_succ_of_le (dropWhile_sublist _).length_le
      have htail := atomReads_text _ r hs hr (addText acc ((c :: s).takeWhile isRunChar))
      rw [addBufToParts_addText, takeWhile_append_dropWhile] at htail
      have hstops : Stops ((c :: s).dropWhile isRunChar ++ r) := by
        intro d r' hd
        match hw : (c :: s).dropWhile isRunChar with
        | [] =>
          rw [hw] at hd
          exact hr d r' hd
        | d' :: w =>
          rw [hw] at hd
          rw [← (List.cons.inj hd).1, hstop d' w hw]
          decide
      have hhead := atomReads_run (u := (c :: s).takeWhile isRunChar)
        (by rw [takeWhile_cons_of_pos hrun]; exact cons_ne_nil _ _)
        (all_takeWhile ..) hstops acc
      have happend := hhead.append htail
      rw [takeWhile_append_dropWhile] at happend
      exact happend
termination_by s.length
decreasing_by
  · exact Nat.lt_succ_self _
  · exact hlt

/-! ## Unquoted templates -/

section

variable (h : isValid s = true)
include h

theorem isValid_spec : s ≠ [] ∧ loop s = true := by
  rw [isValid, Bool.and_eq_true, decide_eq_true_eq] at h
  exact ⟨length_pos_iff.mp h.1, h.2⟩

theorem exists_cons_of_valid : ∃ c s', s = c :: s' ∧ isAtomChar c = true := by
  obtain ⟨hne, hloop⟩ := isValid_spec h
  obtain ⟨c, s, rfl⟩ := exists_cons_of_ne_nil hne
  refine ⟨c, s, rfl, ?_⟩
  obtain rfl | hrun := loop_head hloop
  · decide
  · exact (Bool.and_eq_true_iff.mp hrun).1

theorem atomReads_textPart (hr : Stops r)
    (hacc : ∀ s' rest, acc ≠ .text s' :: rest) : AtomReads s r acc (.text s :: acc) := by
  obtain ⟨hne, hloop⟩ := isValid_spec h
  have hreads := atomReads_text s r hloop hr acc
  rw [addBufToParts, if_neg hne] at hreads
  rcases acc with _ | ⟨s' | v, rest⟩
  · exact hreads
  · exact absurd rfl (hacc s' rest)
  · exact hreads

theorem commitText_valid : commitText false s = .ok s := by
  rw [commitText, if_neg (isValid_spec h).1, if_neg Bool.false_ne_true, if_pos h]

end

theorem atomReads_parts {parts : List Part} (h : partsAreWellFormed false parts = true) :
    ∃ o, addParts false [] parts = .ok o ∧
      (parts ≠ [] → ∃ c o', o = c :: o' ∧ isAtomChar c = true) ∧
      ∀ r acc, Stops r → (∀ s' rest, acc ≠ .text s' :: rest) →
        AtomReads o r acc ((parts.map Part.removeLocs).reverse ++ acc) := by
  match parts with
  | [] => exact ⟨[], rfl, fun h => absurd rfl h, fun r acc _ _ => AtomReads.nil r acc⟩
  | .pform v :: rest =>
    rw [partsAreWellFormed, Bool.and_eq_true] at h
    obtain ⟨o, ho, -, hreads⟩ := atomReads_parts h.2
    obtain ⟨o', ho'⟩ := v.exists_toBytes
    refine ⟨v.toBytes ++ o, ?_, fun _ => ⟨37, _, by rw [ho']; rfl, rfl⟩, fun r acc hr hacc => ?_⟩
    · rw [addParts, ho]
      rfl
    · have happend := (atomReads_pform h.1 (o ++ r) acc).append
        (hreads r _ hr fun s' rest hne => by cases hne)
      simpa using happend
  | [.text s] =>
    have hs : isValid s = true := h
    refine ⟨s, ?_, fun _ => exists_cons_of_valid hs,
      fun r acc hr hacc => atomReads_textPart hs hr hacc⟩
    rw [addParts, addParts, nil_append, commitText_valid hs]
  | .text s :: .pform v :: rest =>
    rw [partsAreWellFormed, Bool.and_eq_true, Bool.and_eq_true] at h
    have hs : isValid s = true := h.1.1
    obtain ⟨o, ho, -, hreads⟩ := atomReads_parts h.2
    refine ⟨s ++ (v.toBytes ++ o), ?_, fun _ => ?_, fun r acc hr hacc => ?_⟩
    · rw [addParts, addParts, nil_append, commitText_valid hs, ho]
      rfl
    · obtain ⟨c, s', rfl, hc⟩ := exists_cons_of_valid hs
      exact ⟨c, _, rfl, hc⟩
    · have hstops : Stops (v.toBytes ++ o ++ r) := by
        rw [append_assoc]
        exact stops_pform v (o ++ r)
      have happend := (atomReads_textPart hs hstops hacc).append
        ((atomReads_pform h.1.2 (o ++ r) (.text s :: acc)).append
          (hreads r _ hr fun s' rest hne => by cases hne))
      simpa [Part.removeLocs] using happend
  | .text _ :: .text _ :: _ => simp [partsAreWellFormed] at h

theorem isBlank_of_isAtomChar (hc : isAtomChar c = true) : isBlank c = false := by
  rw [Bool.eq_false_iff]
  intro hblank
  simp only [isBlank, Bool.or_eq_true, decide_eq_true_eq] at hblank
  rcases hblank with (rfl | rfl) | rfl <;> cases hc

theorem token_atomChar (hrest : st.rest = c :: r) (hc : isAtomChar c = true) (withComments : Bool) :
    token withComments st =
      atom (st.rest.length + 1) [] (st.accept 0).lexbuf.startP (st.accept 0) := by
  have hne : ∀ d : UInt8, isAtomChar d = false → c ≠ d := by
    rintro d hd rfl
    rw [hc] at hd
    cases hd
  rw [token, tokenRule, hrest, newline_cons (hne 10 (by decide)) (hne 13 (by decide))]
  simp [isBlank_of_isAtomChar hc, hne 59 (by decide), hne 40 (by decide), hne 41 (by decide),
    hne 34 (by decide), hrest]

theorem token_atom {o : Bytes} (hreads : AtomReads o r [] acc) (hr : Delimited r) {o' : Bytes}
    (ho : o = c :: o') (hc : isAtomChar c = true) (hrest : st.rest = o ++ r) (withComments : Bool) :
    ∃ parts start st', parts.map Part.removeLocs = acc ∧ st'.rest = r ∧ st'.buffer = st.buffer ∧
      token withComments st = templateToken parts false start st' := by
  obtain ⟨bound, st₁, parts, hbound, hrest₁, hbuf₁, hparts, heq⟩ :=
    hreads (st.rest.length + 1) (st.accept 0).lexbuf.startP (st.accept 0) [] hrest
      (by rw [hrest, length_append]; omega) rfl
  rw [hrest, length_append] at hbound
  obtain ⟨bound, rfl⟩ : ∃ n, bound = n + 1 := ⟨bound - 1, by omega⟩
  have hend := heq.trans (atom_end (by rw [hrest₁]; exact hr))
  refine ⟨parts, (st.accept 0).lexbuf.startP, st₁.accept 0, hparts, ?_, hbuf₁, ?_⟩
  · rw [State.rest_accept, hrest₁, drop_zero]
  · rw [← hend]
    exact token_atomChar (by rw [hrest, ho]; rfl) hc withComments

end Dune.Sexp.Lexer
