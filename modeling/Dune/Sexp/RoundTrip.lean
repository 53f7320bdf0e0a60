import Dune.Sexp.LexAtom
import Dune.Sexp.Parser

/-!
# Printing and parsing

A printed S-expression is read back: `parse_toBytes`. The lexer reads the printed form of one that
is no list as one token (`token_validAtom`, `token_quotedString`, `token_quotedTemplate`,
`token_unquotedTemplate`), and the loop of the parser follows the structure of the S-expression
(`loopReads_toBytes`).
-/

namespace Dune.Sexp

open List Dune.Stdune Lexer Sexp.Parser Template
open EStateM (Result)

mutual

/-- Atoms satisfy `Atom.is_valid`, templates are as the lexer produces them. -/
def T.isWellFormed : T → Bool
  | .atom a => Atom.isValid a
  | .quotedString _ => true
  | .list l => T.listIsWellFormed l
  | .template t => t.isWellFormed

def T.listIsWellFormed : List T → Bool
  | [] => true
  | t :: l => t.isWellFormed && T.listIsWellFormed l

end

/-! ## Tokens -/

variable {r o : Bytes} {st : State} {c : UInt8} {t : T}

theorem token_validAtom {a : Bytes} (ha : Atom.isValid a = true) (hr : Delimited r)
    (hrest : st.rest = a ++ r) (withComments : Bool) :
    ∃ st', token withComments st = .ok (.atom a) st' ∧ st'.rest = r ∧ st'.buffer = st.buffer := by
  obtain ⟨c, a', rfl, hc⟩ := exists_cons_of_valid ha
  have hreads : AtomReads (c :: a') r [] [.text (c :: a')] :=
    atomReads_textPart ha hr.stops fun s' rest h => by cases h
  obtain ⟨parts, start, st', hparts, hrest', hbuf', htoken⟩ :=
    token_atom hreads hr rfl hc hrest withComments
  match parts, hparts with
  | [.text _], rfl => exact ⟨_, htoken, hrest', hbuf'⟩

theorem token_quotedString (s r : Bytes) (hclean : st.buffer.state = .string)
    (hrest : st.rest = Escape.quoted s ++ r) :
    ∃ st', token false st = .ok (.quotedString s) st' ∧ st'.rest = r ∧ st'.buffer = .init := by
  have hreads := reads_escape s (34 :: r) .init (by simp)
  rw [Escape.quoted_eq, cons_append, append_assoc, singleton_append] at hrest
  have hget : (Buffer.init.addText s).get = (some (.quotedString s), .init) := rfl
  obtain ⟨tok, st', htoken, htok, hrest', hbuf'⟩ := token_quoted hreads hget hrest hclean false
  match tok, htok with
  | .quotedString _, rfl => exact ⟨st', htoken, hrest', hbuf'⟩

theorem partsAreWellFormed_map (quoted : Bool) {parts : List Part}
    (h : partsAreWellFormed quoted parts = true) :
    partsAreWellFormed quoted (parts.map Part.removeLocs) = true := by
  match parts with
  | [] => rfl
  | .pform v :: rest =>
    rw [partsAreWellFormed, Bool.and_eq_true] at h
    simp only [map_cons, Part.removeLocs, partsAreWellFormed,
      partsAreWellFormed_map quoted h.2, Bool.and_true]
    exact h.1
  | [.text s] => exact h
  | .text s :: .pform v :: rest =>
    rw [partsAreWellFormed, Bool.and_eq_true, Bool.and_eq_true] at h
    simp only [map_cons, Part.removeLocs, partsAreWellFormed,
      partsAreWellFormed_map quoted h.2, Bool.and_true, Bool.and_eq_true]
    exact h.1
  | .text _ :: .text _ :: _ => simp [partsAreWellFormed] at h

section Templates

variable {parts : List Part}

theorem hasPform_map : hasPform (parts.map Part.removeLocs) = hasPform parts := by
  simp only [hasPform, any_map]
  congr 1
  funext part
  cases part <;> rfl

theorem token_quotedTemplate (hparts : partsAreWellFormed true parts = true)
    (hpform : hasPform parts = true) :
    ∃ o, addParts true [] parts = .ok o ∧
      ∀ r (st : State), st.buffer.state = .string → st.rest = 34 :: (o ++ 34 :: r) →
        ∃ parts' st', token false st = .ok (.template ⟨true, parts', dummyLoc⟩) st' ∧
          parts'.map Part.removeLocs = parts.map Part.removeLocs ∧ st'.rest = r ∧
          st'.buffer.state = .string := by
  obtain ⟨o, ho, hreads⟩ := reads_parts hparts
  refine ⟨o, ho, fun r st hclean hrest => ?_⟩
  rw [← hasPform_map] at hpform
  have hget := Buffer.get_template (Buffer.state_addParts (b := .init) (.inl hpform))
    (by
      rw [Buffer.parts_addParts rfl (fun s' rest h => by cases h)
        (partsAreWellFormed_map true hparts)]
      exact append_nil _)
    hpform
  obtain ⟨tok, st', htoken, htok, hrest', hbuf'⟩ :=
    token_quoted (hreads (34 :: r) .init (by simp)) hget hrest hclean false
  match tok, htok with
  | .template ⟨quoted, parts', loc⟩, htok =>
    simp only [Token.removeLocs, Token.template.injEq, mk.injEq] at htok
    obtain ⟨rfl, hmap, rfl⟩ := htok
    exact ⟨parts', st', htoken, hmap, hrest', by rw [hbuf']; rfl⟩

theorem token_unquotedTemplate (hparts : partsAreWellFormed false parts = true)
    (hpform : hasPform parts = true) :
    ∃ c o, isAtomChar c = true ∧ addParts false [] parts = .ok (c :: o) ∧
      ∀ r (st : State), Delimited r → st.rest = c :: o ++ r →
        ∃ parts' st', token false st = .ok (.template ⟨false, parts', dummyLoc⟩) st' ∧
          parts'.map Part.removeLocs = parts.map Part.removeLocs ∧ st'.rest = r ∧
          st'.buffer = st.buffer := by
  obtain ⟨o, ho, hhead, hreads⟩ := atomReads_parts hparts
  obtain ⟨c, o', rfl, hc⟩ := hhead (by rintro rfl; cases hpform)
  refine ⟨c, o', hc, ho, fun r st hr hrest => ?_⟩
  obtain ⟨acc, start, st', hacc, hrest', hbuf', htoken⟩ :=
    token_atom (hreads r [] hr.stops fun s' rest h => by cases h) hr rfl hc hrest false
  rw [append_nil, ← map_reverse] at hacc
  refine ⟨acc.reverse, { st' with lexbuf := { st'.lexbuf with startP := start } }, ?_, ?_,
    hrest', hbuf'⟩
  · rw [htoken]
    have hpform' : hasPform (acc.map Part.removeLocs) = true := by
      rw [hacc, hasPform_map, hasPform, any_reverse]
      exact hpform
    match acc with
    | [] => cases hpform'
    | [.text s] => cases hpform'
    | [.pform v] => rfl
    | _ :: _ :: _ => simp [templateToken]
  · rw [map_reverse, hacc, map_reverse, reverse_reverse]

end Templates

/-! ## The loop of the parser -/

theorem token_punctuation :
    (st.rest = 40 :: r → token false st = .ok .lparen (st.accept 1)) ∧
      (st.rest = 41 :: r → token false st = .ok .rparen (st.accept 1)) ∧
      (st.rest = [] → token false st = .ok .eof (st.accept 0)) := by
  refine ⟨fun h => ?_, fun h => ?_, fun h => ?_⟩ <;> rw [token, tokenRule, h] <;> rfl

theorem token_space (hrest : st.rest = 32 :: c :: r) (hc : isBlank c = false) :
    token false st = token false (st.accept 1) := by
  have htake : (32 :: c :: r).takeWhile isBlank = [32] := by
    rw [takeWhile_cons_of_pos (by decide), takeWhile_cons_of_neg (by rw [hc]; decide)]
  have hlen : (st.accept 1).rest.length + 1 = st.rest.length := by
    rw [State.rest_accept, hrest]
    rfl
  rw [token, token, hlen, tokenRule, hrest, newline_cons (by decide) (by decide)]
  simp only [show isBlank 32 = true by decide, if_true, htake]
  rfl

/-- The loop reads the text `o` in front of `r` as one S-expression. -/
def LoopReads (o r : Bytes) (t : T) : Prop :=
  ∀ bound depth st acc, st.buffer.state = .string → st.rest = o ++ r → st.rest.length < bound →
    ∃ bound' ast st', st'.rest = r ∧ r.length < bound' ∧ st'.buffer.state = .string ∧
      ast.removeLocs = t ∧
      Parser.loop false bound depth st acc = Parser.loop false bound' depth st' (ast :: acc)

/-- The loop reads a list of S-expressions from the text `o`, up to `r` behind a closing
parenthesis. -/
def LoopReadsList (o r : Bytes) (l : List T) : Prop :=
  ∀ bound depth st acc, st.buffer.state = .string → st.rest = o → st.rest.length < bound →
    ∃ asts st', st'.rest = r ∧ st'.buffer.state = .string ∧ Ast.listRemoveLocs asts = l ∧
      Parser.loop false bound (depth + 1) st acc = .ok (acc.reverse ++ asts) st'

theorem LoopReads.of_token (ho : o ≠ [])
    (h : ∀ st : State, st.buffer.state = .string → st.rest = o ++ r →
      ∃ ast st', st'.rest = r ∧ st'.buffer.state = .string ∧ ast.removeLocs = t ∧
        ∀ bound depth acc, Parser.loop false (bound + 1) depth st acc =
          Parser.loop false bound depth st' (ast :: acc)) :
    LoopReads o r t := by
  intro bound depth st acc hclean hrest hbound
  obtain ⟨ast, st', hrest', hclean', hast, hloop⟩ := h st hclean hrest
  obtain ⟨bound, rfl⟩ : ∃ n, bound = n + 1 := ⟨bound - 1, by omega⟩
  have hpos := length_pos_iff.mpr ho
  rw [hrest, length_append] at hbound
  exact ⟨bound, ast, st', hrest', by omega, hclean', hast, hloop bound depth acc⟩

theorem loopReads_atom {a : Bytes} (ha : Atom.isValid a = true) (hr : Delimited r) :
    LoopReads a r (.atom a) := by
  refine LoopReads.of_token (isValid_spec ha).1 fun st hclean hrest => ?_
  obtain ⟨st', htoken, hrest', hbuf'⟩ := token_validAtom ha hr hrest false
  refine ⟨.atom st'.lexbuf.loc a, st', hrest', by rw [hbuf', hclean], rfl,
    fun bound depth acc => ?_⟩
  rw [Parser.loop, htoken]

theorem loopReads_quotedString (s r : Bytes) : LoopReads (Escape.quoted s) r (.quotedString s) := by
  refine LoopReads.of_token (by rw [Escape.quoted_eq]; exact cons_ne_nil _ _)
    fun st hclean hrest => ?_
  obtain ⟨st', htoken, hrest', hbuf'⟩ := token_quotedString s r hclean hrest
  refine ⟨.quotedString st'.lexbuf.loc s, st', hrest', by rw [hbuf']; rfl, rfl,
    fun bound depth acc => ?_⟩
  rw [Parser.loop, htoken]

theorem loop_template {st' : State} {quoted : Bool} {parts : List Part} (hparts : parts ≠ [])
    (htoken : token false st = .ok (.template ⟨quoted, parts, dummyLoc⟩) st') (bound depth : Nat)
    (acc : List Ast) :
    Parser.loop false (bound + 1) depth st acc =
      Parser.loop false bound depth st' (.template ⟨quoted, parts, st'.lexbuf.loc⟩ :: acc) := by
  rw [Parser.loop, htoken]
  refine if_neg fun hmarker => hparts ?_
  exact congrArg Template.parts hmarker

theorem loopReads_template {t : Template} (ht : t.isWellFormed = true) :
    ∃ c o, isBlank c = false ∧ t.toBytes = .ok (c :: o) ∧
      ∀ r, Delimited r → LoopReads (c :: o) r (.template t.removeLocs) := by
  obtain ⟨quoted, parts, loc⟩ := t
  rw [isWellFormed, Bool.and_eq_true] at ht
  obtain ⟨hparts, hpform⟩ := ht
  have hne : ∀ parts', parts'.map Part.removeLocs = parts.map Part.removeLocs → parts' ≠ [] := by
    rintro parts' hmap rfl
    rw [← hasPform_map, ← hmap] at hpform
    cases hpform
  cases quoted with
  | true =>
    obtain ⟨o, ho, hreads⟩ := token_quotedTemplate hparts hpform
    refine ⟨34, o ++ [34], rfl, by rw [toBytes, ho]; rfl, fun r hr => ?_⟩
    refine LoopReads.of_token (cons_ne_nil _ _) fun st hclean hrest => ?_
    rw [cons_append, append_assoc, singleton_append] at hrest
    obtain ⟨parts', st', htoken, hmap, hrest', hclean'⟩ := hreads r st hclean hrest
    refine ⟨.template ⟨true, parts', st'.lexbuf.loc⟩, st', hrest', hclean', ?_,
      loop_template (hne parts' hmap) htoken⟩
    simp only [Ast.removeLocs, removeLocs, hmap]
  | false =>
    obtain ⟨c, o, hc, ho, hreads⟩ := token_unquotedTemplate hparts hpform
    refine ⟨c, o, isBlank_of_isAtomChar hc, by rw [toBytes, ho]; rfl, fun r hr => ?_⟩
    refine LoopReads.of_token (cons_ne_nil _ _) fun st hclean hrest => ?_
    obtain ⟨parts', st', htoken, hmap, hrest', hbuf'⟩ := hreads r st hr hrest
    refine ⟨.template ⟨false, parts', st'.lexbuf.loc⟩, st', hrest', by rw [hbuf', hclean], ?_,
      loop_template (hne parts' hmap) htoken⟩
    simp only [Ast.removeLocs, removeLocs, hmap]

theorem delimited_cons (hc : c = 32 ∨ c = 41) (r : Bytes) : Delimited (c :: r) := by
  intro d r' hd
  rw [← (List.cons.inj hd).1]
  exact hc

theorem loopReadsList_nil (r : Bytes) : LoopReadsList (41 :: r) r [] := by
  intro bound depth st acc hclean hrest hbound
  obtain ⟨bound, rfl⟩ : ∃ n, bound = n + 1 := ⟨bound - 1, by omega⟩
  refine ⟨[], st.accept 1, by rw [State.rest_accept, hrest]; rfl, hclean, rfl, ?_⟩
  rw [Parser.loop, token_punctuation.2.1 hrest, append_nil]
  rfl

theorem LoopReadsList.space {l : List T} (h : LoopReadsList (c :: o) r l)
    (hc : isBlank c = false) : LoopReadsList (32 :: c :: o) r l := by
  intro bound depth st acc hclean hrest hbound
  obtain ⟨bound, rfl⟩ : ∃ n, bound = n + 1 := ⟨bound - 1, by omega⟩
  have hrest' : (st.accept 1).rest = c :: o := by
    rw [State.rest_accept, hrest]
    rfl
  rw [hrest, length_cons] at hbound
  rw [Parser.loop, token_space hrest hc, ← Parser.loop]
  exact h (bound + 1) depth (st.accept 1) acc hclean hrest' (by rw [hrest']; omega)

theorem LoopReadsList.cons {o' : Bytes} {l : List T} (h : LoopReadsList o' r l)
    (ht : LoopReads o o' t) : LoopReadsList (o ++ o') r (t :: l) := by
  intro bound depth st acc hclean hrest hbound
  obtain ⟨bound', ast, st', hrest', hbound', hclean', hast, hloop⟩ :=
    ht bound (depth + 1) st acc hclean hrest hbound
  obtain ⟨asts, st'', hrest'', hclean'', hasts, hloop'⟩ :=
    h bound' depth st' (ast :: acc) hclean' hrest' (by rw [hrest']; exact hbound')
  refine ⟨ast :: asts, st'', hrest'', hclean'', ?_, ?_⟩
  · rw [Ast.listRemoveLocs, hast, hasts]
  · rw [hloop, hloop', reverse_cons, append_assoc, singleton_append]

theorem LoopReadsList.list {l : List T} (h : LoopReadsList (o ++ 41 :: r) r l) :
    LoopReads (40 :: (o ++ [41])) r (.list l) := by
  intro bound depth st acc hclean hrest hbound
  rw [cons_append, append_assoc, singleton_append] at hrest
  obtain ⟨bound, rfl⟩ : ∃ n, bound = n + 1 := ⟨bound - 1, by omega⟩
  have hrest₁ : (st.accept 1).rest = o ++ 41 :: r := by
    rw [State.rest_accept, hrest]
    rfl
  rw [hrest, length_cons] at hbound
  obtain ⟨asts, st', hrest', hclean', hasts, hloop⟩ :=
    h bound depth (st.accept 1) [] hclean hrest₁ (by rw [hrest₁]; omega)
  refine ⟨bound, .list ⟨(st.accept 1).lexbuf.startP, st'.lexbuf.currP⟩ asts, st', hrest', ?_,
    hclean', ?_, ?_⟩
  · rw [length_append, length_cons] at hbound
    omega
  · rw [Ast.removeLocs, hasts]
  · rw [Parser.loop, token_punctuation.1 hrest]
    simp [hloop]

mutual

/-- A well-formed S-expression is printed, and the loop reads it back. -/
theorem loopReads_toBytes : ∀ t : T, t.isWellFormed = true →
    ∃ c o, isBlank c = false ∧ t.toBytes = .ok (c :: o) ∧
      ∀ r, Delimited r → LoopReads (c :: o) r t.removeLocs
  | .atom a, h => by
    obtain ⟨c, o, rfl, hc⟩ := exists_cons_of_valid h
    exact ⟨c, o, isBlank_of_isAtomChar hc, rfl, fun r hr => loopReads_atom h hr⟩
  | .quotedString s, _ => by
    refine ⟨34, Escape.escape s ++ [34], rfl, ?_, fun r _ => ?_⟩
    · rw [T.toBytes, Escape.quoted_eq]
    · rw [← Escape.quoted_eq]
      exact loopReads_quotedString s r
  | .list l, h => by
    obtain ⟨strings, hstrings, -, hreads⟩ := loopReads_listToBytes l h
    refine ⟨40, Bytes.concat [32] strings ++ [41], rfl, ?_, fun r _ => (hreads r).list⟩
    rw [T.toBytes, hstrings]
    rfl
  | .template t, h => loopReads_template h

theorem loopReads_listToBytes : ∀ l : List T, T.listIsWellFormed l = true →
    ∃ strings, T.listToBytes l = .ok strings ∧
      (l ≠ [] → ∃ c o, isBlank c = false ∧ Bytes.concat [32] strings = c :: o) ∧
      ∀ r, LoopReadsList (Bytes.concat [32] strings ++ 41 :: r) r (T.listRemoveLocs l)
  | [], _ => ⟨[], rfl, fun h => absurd rfl h, loopReadsList_nil⟩
  | [t], h => by
    rw [T.listIsWellFormed, Bool.and_eq_true] at h
    obtain ⟨c, o, hc, ho, hreads⟩ := loopReads_toBytes t h.1
    refine ⟨[c :: o], ?_, fun _ => ⟨c, o, hc, rfl⟩, fun r => ?_⟩
    · rw [T.listToBytes, ho]
      rfl
    · exact (loopReadsList_nil r).cons (hreads _ (delimited_cons (.inr rfl) r))
  | t :: t' :: l, h => by
    rw [T.listIsWellFormed, Bool.and_eq_true] at h
    obtain ⟨c, o, hc, ho, hreads⟩ := loopReads_toBytes t h.1
    obtain ⟨strings, hstrings, hhead, hreads'⟩ := loopReads_listToBytes (t' :: l) h.2
    obtain ⟨c', o', hc', hconcat⟩ := hhead (cons_ne_nil _ _)
    have hsplit : Bytes.concat [32] ((c :: o) :: strings) = c :: o ++ 32 :: c' :: o' := by
      rw [← hconcat]
      match strings with
      | [] => cases hconcat
      | _ :: _ => exact append_assoc (c :: o) [32] _
    refine ⟨(c :: o) :: strings, ?_, fun _ => ⟨c, _, hc, hsplit⟩, fun r => ?_⟩
    · rw [T.listToBytes, ho, hstrings]
      rfl
    · rw [hsplit, append_assoc]
      rw [hconcat] at hreads'
      exact ((hreads' r).space hc').cons (hreads _ (delimited_cons (.inl rfl) _))

end

/-- Parsing what is printed for a well-formed S-expression gives it back, up to locations. The
global buffer of the lexer is again in the state for strings afterwards. -/
theorem parse_toBytes (t : T) (ht : t.isWellFormed = true) (fname : String) (buffer : Buffer)
    (hclean : buffer.state = .string) :
    ∃ bytes ast st, t.toBytes = .ok bytes ∧
      Parser.parseString fname .single bytes buffer = .ok ast st ∧
      Ast.removeLocs ast = t.removeLocs ∧ st.buffer.state = .string := by
  obtain ⟨c, o, -, ho, hreads⟩ := loopReads_toBytes t ht
  have hnil : Delimited [] := fun c r h => by cases h
  obtain ⟨bound, ast, st, hrest, hbound, hclean', hast, hloop⟩ :=
    hreads [] hnil _ 0 ⟨.fromString fname (c :: o), buffer⟩ [] hclean
      (append_nil _).symm (Nat.lt_succ_self _)
  obtain ⟨bound, rfl⟩ : ∃ n, bound = n + 1 := ⟨bound - 1, by omega⟩
  have hend : Parser.loop false (bound + 1) 0 st [ast] = .ok [ast] (st.accept 0) := by
    rw [Parser.loop, (token_punctuation (r := [])).2.2 hrest]
    rfl
  refine ⟨c :: o, ast, st.accept 0, ho, ?_, hast, hclean'⟩
  rw [Parser.parseString, Parser.parse]
  simp only [Mode.withComments, hloop.trans hend]
  rfl

/-- An atom, a quoted string that needs escapes and a quoted template. -/
def sampleSexp : T :=
  .list [.atom [97], .quotedString [10, 37, 123],
    .template ⟨true, [.text [120], .pform ⟨.none, [110], some [112]⟩], .none⟩]

theorem parse_toBytes_sample :
    sampleSexp.isWellFormed = true ∧ ∃ bytes ast st, sampleSexp.toBytes = .ok bytes ∧
      Parser.parseString "dune" .single bytes .init = .ok ast st ∧
      Ast.removeLocs ast = sampleSexp.removeLocs ∧ st.buffer.state = .string :=
  ⟨by decide, parse_toBytes sampleSexp (by decide) "dune" .init rfl⟩

end Dune.Sexp
