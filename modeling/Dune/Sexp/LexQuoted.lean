import Dune.Sexp.Lexer

/-!
# Lexing what is printed between quotes

`Reads o r b b'` says that `quoted_string` reads `o` when `r` follows and takes the global buffer
from `b` to `b'`. It holds for each escaped character (`reads_chunk`), hence for escaped texts
(`reads_escape`), for variables (`reads_pform`) and for the parts of a quoted template
(`reads_parts`).
-/

namespace Dune.Sexp

open Dune.Stdune Lexer

/-! ## Well-formed templates -/

/-- A variable as `template_variable` reads it. -/
def Pform.isWellFormed (v : Pform) : Bool :=
  v.name ≠ [] && v.name.all isVarnameChar &&
    match v.payload with
    | none => true
    | some payload => payload ≠ [] && payload.all isPayloadChar

theorem Pform.exists_toBytes (v : Pform) : ∃ o, v.toBytes = 37 :: 123 :: o := by
  rw [Pform.toBytes]
  split <;> exact ⟨_, rfl⟩

theorem Pform.toBytes_head (v : Pform) (r : Bytes) : (v.toBytes ++ r)[0]? = some 37 := by
  obtain ⟨o, ho⟩ := v.exists_toBytes
  rw [ho]
  rfl

namespace Template

/-- The text of a part: between quotes any text is allowed. -/
def textIsWellFormed (quoted : Bool) (s : Bytes) : Bool :=
  if quoted then s ≠ [] else Atom.isValid s

/-- The parts of a template as the lexer produces them: texts are not empty and not adjacent. -/
def partsAreWellFormed (quoted : Bool) : List Part → Bool
  | [] => true
  | .pform v :: rest => v.isWellFormed && partsAreWellFormed quoted rest
  | [.text s] => textIsWellFormed quoted s
  | .text s :: .pform v :: rest =>
    textIsWellFormed quoted s && v.isWellFormed && partsAreWellFormed quoted rest
  | .text _ :: .text _ :: _ => false

/-- A template has a variable; a text without one is an atom or a quoted string. -/
def hasPform (parts : List Part) : Bool :=
  parts.any fun
    | .pform _ => true
    | .text _ => false

def isWellFormed (t : Template) : Bool :=
  partsAreWellFormed t.quoted t.parts && hasPform t.parts

end Template

end Dune.Sexp

namespace Dune.Sexp.Lexer

open Dune.Stdune Escape
open EStateM (Result)

open List

open State

/-! ## States -/

@[simp] theorem State.rest_accept (st : State) (n : Nat) :
    (st.accept n).rest = st.rest.drop n := rfl
@[simp] theorem State.buffer_accept (st : State) (n : Nat) : (st.accept n).buffer = st.buffer := rfl

section

variable (b : Buffer)

/-- A buffer without the locations of the variables in it. -/
def Buffer.removeLocs : Buffer :=
  match b.state with
  | .string => b
  | .template parts => { b with state := .template (parts.map Part.removeLocs) }

theorem map_removeLocs_addText (parts : List Part) (s : Bytes) :
    (addText parts s).map Part.removeLocs = addText (parts.map Part.removeLocs) s := by
  match parts with
  | [] => rfl
  | .text _ :: _ => rfl
  | .pform _ :: _ => rfl

theorem map_removeLocs_addBufToParts (text : Bytes) (parts : List Part) :
    (addBufToParts text parts).map Part.removeLocs =
      addBufToParts text (parts.map Part.removeLocs) := by
  rw [addBufToParts, addBufToParts]
  split
  · rfl
  · exact map_removeLocs_addText parts text

theorem Buffer.removeLocs_addText (s : Bytes) :
    (b.addText s).removeLocs = b.removeLocs.addText s := by
  obtain ⟨text, state⟩ := b
  cases state <;> rfl

theorem Buffer.removeLocs_addVar (v : Part) :
    (b.addVar v).removeLocs = b.removeLocs.addVar v.removeLocs := by
  obtain ⟨text, state⟩ := b
  cases state with
  | string =>
    have hmap := map_removeLocs_addBufToParts text []
    simp [removeLocs, addVar, hmap]
  | template parts =>
    simp [removeLocs, addVar, map_removeLocs_addBufToParts]

theorem Buffer.addText_nil : b.addText [] = b := by
  rw [addText, append_nil]

theorem Buffer.addText_append (s s' : Bytes) : (b.addText s).addText s' = b.addText (s ++ s') := by
  simp [addText]

end

/-! ## One step of `quoted_string` -/

/-- A character that stands for itself in a quoted string. -/
def Plain (c : UInt8) : Prop := c ≠ 10 ∧ c ≠ 13 ∧ c ≠ 34 ∧ c ≠ 92

variable {c : UInt8} {bound : Nat} {st st' : State} {r o s : Bytes} {b : Buffer} {tok : Token}

theorem newline_cons (h10 : c ≠ 10) (h13 : c ≠ 13) (r : Bytes) : newline (c :: r) = none := by
  unfold newline
  split
  · next h => exact absurd (cons.inj h).1 h10
  · next h => exact absurd (cons.inj h).1 h13
  · rfl

theorem quotedString_char (hrest : st.rest = c :: r) (hc : Plain c)
    (hbrace : c = 37 → r[0]? ≠ some 123) :
    quotedString (bound + 1) st = quotedString bound ((st.accept 1).addText [c]) := by
  obtain ⟨h10, h13, h34, h92⟩ := hc
  have hvar : ¬(c = 37 ∧ r[0]? = some 123) := fun h => hbrace h.1 h.2
  rw [quotedString, hrest, newline_cons h10 h13]
  simp only [if_neg h34, if_neg h92, if_neg hvar]

theorem quotedString_escape (hrest : st.rest = 92 :: r)
    (hesc : escapeSequence (st.accept 1) = .ok .other st') :
    quotedString (bound + 1) st = quotedString bound st' := by
  rw [quotedString, hrest, newline_cons (by decide) (by decide)]
  simp [hesc]

theorem quotedString_var {var : Part} (hrest : st.rest = 37 :: 123 :: r)
    (hvar : templateVariable (st.accept 2) = .ok var st') :
    quotedString (bound + 1) st = quotedString bound (st'.addVar var) := by
  rw [quotedString, hrest, newline_cons (by decide) (by decide)]
  simp [hvar]

theorem quotedString_quote (hrest : st.rest = 34 :: r) :
    quotedString (bound + 1) st = (st.accept 1).getToken := by
  rw [quotedString, hrest, newline_cons (by decide) (by decide)]
  simp

/-! ## Runs of `quoted_string` -/

/-- `quoted_string` reads `o` in front of `r`, up to the locations of variables. -/
def Reads (o r : Bytes) (b b' : Buffer) : Prop :=
  ∀ bound st, st.rest = o ++ r → o.length ≤ bound → st.buffer.removeLocs = b →
    ∃ bound' st', bound ≤ bound' + o.length ∧ st'.rest = r ∧ st'.buffer.removeLocs = b' ∧
      quotedString bound st = quotedString bound' st'

theorem Reads.nil (r : Bytes) (b : Buffer) : Reads [] r b b := fun bound st hrest _ hbuf =>
  ⟨bound, st, Nat.le_refl _, hrest, hbuf, rfl⟩

theorem Reads.append {o' : Bytes} {b' b'' : Buffer} (h : Reads o (o' ++ r) b b')
    (h' : Reads o' r b' b'') : Reads (o ++ o') r b b'' := by
  intro bound st hrest hbound hbuf
  rw [append_assoc] at hrest
  rw [length_append] at hbound ⊢
  obtain ⟨bound₁, st₁, hb₁, hrest₁, hbuf₁, heq₁⟩ := h bound st hrest (by omega) hbuf
  obtain ⟨bound₂, st₂, hb₂, hrest₂, hbuf₂, heq₂⟩ := h' bound₁ st₁ hrest₁ (by omega) hbuf₁
  exact ⟨bound₂, st₂, by omega, hrest₂, hbuf₂, heq₁.trans heq₂⟩

/-- A step that reads `o` and changes the buffer. -/
theorem Reads.step {b' : Buffer} (hpos : 0 < o.length)
    (h : ∀ st : State, st.rest = o ++ r → st.buffer.removeLocs = b → ∃ st' : State, st'.rest = r ∧
      st'.buffer.removeLocs = b' ∧ ∀ bound, quotedString (bound + 1) st = quotedString bound st') :
    Reads o r b b' := by
  intro bound st hrest hbound hbuf
  obtain ⟨st', hrest', hbuf', heq⟩ := h st hrest hbuf
  obtain ⟨bound, rfl⟩ : ∃ n, bound = n + 1 := ⟨bound - 1, by omega⟩
  exact ⟨bound, st', by omega, hrest', hbuf', heq bound⟩

theorem reads_char (hc : Plain c) (hbrace : c = 37 → r[0]? ≠ some 123) (b : Buffer) :
    Reads [c] r b (b.addText [c]) := by
  refine Reads.step Nat.one_pos fun st hrest hbuf => ⟨(st.accept 1).addText [c], ?_, ?_, ?_⟩
  · rw [rest_addText, rest_accept, hrest]
    rfl
  · rw [← hbuf]
    exact Buffer.removeLocs_addText st.buffer [c]
  · exact fun bound => quotedString_char hrest hc hbrace

theorem reads_plain {l : Bytes} (hl : ∀ c ∈ l, Plain c ∧ c ≠ 37) (b : Buffer) :
    Reads l r b (b.addText l) := by
  induction l generalizing b with
  | nil =>
    rw [Buffer.addText_nil]
    exact Reads.nil r b
  | cons c l ih =>
    obtain ⟨hc, h37⟩ := hl c mem_cons_self
    have hhead := reads_char (r := l ++ r) hc (fun h => absurd h h37) b
    have htail := ih (fun c hc => hl c (mem_cons_of_mem _ hc)) (b.addText [c])
    rw [Buffer.addText_append] at htail
    exact hhead.append htail

/-- A backslash followed by `e`, which `escape_sequence` reads as the text `s`. -/
theorem reads_escapeSequence {e : Bytes} (b : Buffer)
    (h : ∀ st : State, st.rest = e ++ r →
      escapeSequence st = .ok .other ((st.accept e.length).addText s)) :
    Reads (92 :: e) r b (b.addText s) := by
  refine Reads.step (Nat.succ_pos _) fun st hrest hbuf =>
    ⟨((st.accept 1).accept e.length).addText s, ?_, ?_, fun bound => ?_⟩
  · rw [rest_addText, rest_accept, rest_accept, hrest]
    simp
  · rw [← hbuf]
    exact Buffer.removeLocs_addText st.buffer s
  · refine quotedString_escape hrest (h _ ?_)
    rw [rest_accept, hrest]
    rfl

theorem reads_simpleEscape {e : UInt8} (he : simpleEscape e = some c) (r : Bytes) (b : Buffer) :
    Reads [92, e] r b (b.addText [c]) := by
  refine reads_escapeSequence b fun st hrest => ?_
  have h10 : e ≠ 10 := by
    rintro rfl
    cases he
  have h13 : e ≠ 13 := by
    rintro rfl
    cases he
  rw [escapeSequence, hrest, singleton_append, newline_cons h10 h13]
  simp only [he]
  rfl

/-! ## Escaped characters -/

theorem isDigit_spec (h : isDigit c = true) (r : Bytes) :
    simpleEscape c = none ∧ newline (c :: r) = none := by
  simp only [isDigit, Bool.and_eq_true, decide_eq_true_eq] at h
  have hne : ∀ d : UInt8, ¬(48 ≤ d ∧ d ≤ 57) → c ≠ d := by
    rintro d hd rfl
    exact hd h
  refine ⟨?_, newline_cons (hne _ (by decide)) (hne _ (by decide)) r⟩
  simp [simpleEscape, hne 37 (by decide), hne 92 (by decide), hne 39 (by decide),
    hne 34 (by decide), hne 110 (by decide), hne 114 (by decide), hne 98 (by decide),
    hne 116 (by decide)]

theorem toNat_digit {d : Nat} (h : d < 10) : (UInt8.ofNat (48 + d)).toNat = 48 + d := by
  rw [UInt8.toNat_ofNat', Nat.mod_eq_of_lt (by omega)]

theorem isDigit_digit {d : Nat} (h : d < 10) : isDigit (UInt8.ofNat (48 + d)) = true := by
  have hd := toNat_digit h
  simp only [isDigit, Bool.and_eq_true, decide_eq_true_eq, UInt8.le_iff_toNat_le, hd]
  constructor
  · exact Nat.le_add_right 48 d
  · exact Nat.add_le_add_left (Nat.le_of_lt_succ h) 48

theorem evalDecimalEscape_digits (c : UInt8) :
    evalDecimalEscape (UInt8.ofNat (48 + c.toNat / 100)) (UInt8.ofNat (48 + c.toNat / 10 % 10))
      (UInt8.ofNat (48 + c.toNat % 10)) = c.toNat := by
  have hc := c.toNat_lt
  rw [evalDecimalEscape, toNat_digit (by omega), toNat_digit (by omega), toNat_digit (by omega)]
  omega

theorem reads_decimalEscape (c : UInt8) (r : Bytes) (b : Buffer) :
    Reads [92, UInt8.ofNat (48 + c.toNat / 100), UInt8.ofNat (48 + c.toNat / 10 % 10),
      UInt8.ofNat (48 + c.toNat % 10)] r b (b.addText [c]) := by
  refine reads_escapeSequence b fun st hrest => ?_
  have hc := c.toNat_lt
  have h1 := isDigit_digit (show c.toNat / 100 < 10 by omega)
  have h2 := isDigit_digit (show c.toNat / 10 % 10 < 10 by omega)
  have h3 := isDigit_digit (show c.toNat % 10 < 10 by omega)
  simp only [cons_append, nil_append] at hrest
  obtain ⟨hsimple, hnewline⟩ := isDigit_spec h1
    (UInt8.ofNat (48 + c.toNat / 10 % 10) :: UInt8.ofNat (48 + c.toNat % 10) :: r)
  rw [escapeSequence, hrest, hnewline]
  simp only [hsimple, h1, h2, h3, if_true, evalDecimalEscape_digits]
  rw [if_neg (by omega), UInt8.ofNat_toNat]
  rfl

theorem plain_of_le (h : 0x80 ≤ c) : Plain c ∧ c ≠ 37 := by
  refine ⟨⟨?_, ?_, ?_, ?_⟩, ?_⟩ <;> rintro rfl <;> exact absurd h (by decide)

theorem plain_utf8 {k : Nat} (hk : nextValidUtf8UcharLen (c :: s) = some k)
    (hc : Plain c ∧ c ≠ 37) : ∀ d ∈ (c :: s).take k, Plain d ∧ d ≠ 37 := by
  obtain ⟨-, -, -, -, htail⟩ := nextValidUtf8UcharLen_spec hk
  intro d hd
  obtain ⟨i, hi⟩ := mem_iff_getElem?.mp hd
  rw [getElem?_take] at hi
  split at hi
  · next hik =>
    by_cases h0 : i = 0
    · subst h0
      cases hi
      exact hc
    · obtain ⟨d', hd', hle⟩ := htail i (Nat.pos_of_ne_zero h0) hik
      rw [hd'] at hi
      cases hi
      exact plain_of_le hle
  · cases hi

theorem reads_chunk (c : UInt8) (s r : Bytes) (b : Buffer)
    (hbrace : c = 37 → s[0]? ≠ some 123 → r[0]? ≠ some 123) :
    Reads (chunk c s).2 r b (b.addText ((c :: s).take (chunk c s).1)) := by
  rw [chunk]
  split_ifs with h34 h10 h9 h13 h8 hpercent hprint
  · exact reads_simpleEscape (by rcases h34 with rfl | rfl <;> rfl) r b
  · exact reads_simpleEscape (by rw [h10]; rfl) r b
  · exact reads_simpleEscape (by rw [h9]; rfl) r b
  · exact reads_simpleEscape (by rw [h13]; rfl) r b
  · exact reads_simpleEscape (by rw [h8]; rfl) r b
  · exact reads_simpleEscape (by rw [hpercent.1]; rfl) r b
  · rw [not_or] at h34
    refine reads_char ⟨h10, h13, h34.1, h34.2⟩ (fun h37 => ?_) b
    exact hbrace h37 fun h => hpercent ⟨h37, h⟩
  · rw [not_or] at h34
    have h37 : c ≠ 37 := by
      rintro rfl
      exact hprint (by decide)
    split
    · next hk => exact reads_plain (plain_utf8 hk ⟨⟨h10, h13, h34.1, h34.2⟩, h37⟩) b
    · exact reads_decimalEscape c r b

/-- The escaped form of a character starts with a brace only if the character is one. -/
theorem chunk_head (d : UInt8) (s r : Bytes) (hd : d ≠ 123) :
    ((chunk d s).2 ++ r)[0]? ≠ some 123 := by
  rw [chunk]
  iterate 6 (split; · simp)
  split
  · simpa using hd
  · split
    · next hk =>
      obtain ⟨hpos, -⟩ := nextValidUtf8UcharLen_spec hk
      obtain ⟨k, rfl⟩ : ∃ n, _ = n + 1 := ⟨_ - 1, (Nat.sub_add_cancel hpos).symm⟩
      simpa using hd
    · simp

theorem reads_escapeN (bound : Nat) (s r : Bytes) (b : Buffer) (hbound : s.length ≤ bound)
    (hr : r[0]? ≠ some 123) : Reads (escapeN bound s) r b (b.addText s) := by
  induction bound generalizing s b with
  | zero =>
    obtain rfl : s = [] := length_eq_zero_iff.mp (Nat.le_zero.mp hbound)
    rw [Buffer.addText_nil]
    exact Reads.nil r b
  | succ bound ih =>
    cases s with
    | nil =>
      rw [Buffer.addText_nil]
      exact Reads.nil r b
    | cons c s =>
      obtain ⟨hpos, hk, -, -⟩ := chunk_spec c s
      rw [length_cons] at hbound hk
      have htail := ih ((c :: s).drop (chunk c s).1) (b.addText ((c :: s).take (chunk c s).1))
        (by rw [length_drop, length_cons]; omega)
      rw [Buffer.addText_append, take_append_drop] at htail
      refine Reads.append (reads_chunk c s _ b fun h37 hs => ?_) htail
      -- a percent sign that is not escaped is followed by no brace
      subst h37
      have hone : (chunk 37 s).1 = 1 := by simp [chunk, hs]
      rw [hone, drop_succ_cons, drop_zero]
      cases s with
      | nil => cases bound <;> exact hr
      | cons d s =>
        cases bound with
        | zero => simp at hbound
        | succ bound =>
          rw [escapeN, append_assoc]
          exact chunk_head d s _ fun hd => hs (by rw [hd]; rfl)

theorem reads_escape (s r : Bytes) (b : Buffer) (hr : r[0]? ≠ some 123) :
    Reads (escape s) r b (b.addText s) :=
  reads_escapeN s.length s r b (Nat.le_refl _) hr

theorem takeWhile_append_cons {p : UInt8 → Bool} {l : Bytes} (hl : l.all p = true)
    (hc : p c = false) : (l ++ c :: r).takeWhile p = l := by
  rw [takeWhile_append_of_pos (all_eq_true.mp hl),
    takeWhile_cons_of_neg (by rw [hc]; decide), append_nil]

theorem templateVariable_spec {v : Pform} (hv : v.isWellFormed = true)
    (hrest : 37 :: 123 :: st.rest = v.toBytes ++ r) :
    ∃ loc st', templateVariable st = .ok (.pform { v with loc }) st' ∧ st'.rest = r ∧
      st'.buffer = st.buffer := by
  obtain ⟨vloc, name, payload⟩ := v
  simp only [Pform.isWellFormed, Bool.and_eq_true, decide_eq_true_eq] at hv
  obtain ⟨⟨hname, hall⟩, hpayload⟩ := hv
  cases payload with
  | none =>
    have hrest : st.rest = name ++ 125 :: r := by
      simpa [Pform.toBytes] using hrest
    rw [templateVariable, hrest, takeWhile_append_cons hall (by decide), drop_left]
    simp only [hname, if_false, if_true, pformPart, reduceCtorEq]
    refine ⟨_, _, rfl, ?_, rfl⟩
    rw [rest_accept, hrest, ← drop_drop, drop_left]
    rfl
  | some payload =>
    have hrest : st.rest = name ++ 58 :: (payload ++ 125 :: r) := by
      simpa [Pform.toBytes] using hrest
    simp only [Bool.and_eq_true, decide_eq_true_eq] at hpayload
    rw [templateVariable, hrest, takeWhile_append_cons hall (by decide), drop_left]
    simp only [hname, if_false, if_true, (show ¬(58 : UInt8) = 125 by decide),
      takeWhile_append_cons hpayload.2 (show isPayloadChar 125 = false by decide), drop_left,
      pformPart, Option.some.injEq, hpayload.1]
    refine ⟨_, _, rfl, ?_, rfl⟩
    rw [rest_accept, hrest, Nat.add_assoc, Nat.add_assoc, ← drop_drop, drop_left,
      Nat.add_comm 1, drop_succ_cons, ← drop_drop, drop_left]
    rfl

theorem reads_pform {v : Pform} (hv : v.isWellFormed = true) (r : Bytes) (b : Buffer) :
    Reads v.toBytes r b (b.addVar (Part.pform v).removeLocs) := by
  obtain ⟨o, ho⟩ := v.exists_toBytes
  refine Reads.step (by rw [ho]; exact Nat.succ_pos _) fun st hrest hbuf => ?_
  have hrest₂ : 37 :: 123 :: (st.accept 2).rest = v.toBytes ++ r := by
    rw [rest_accept, hrest, ho]
    rfl
  obtain ⟨loc, st', hvar, hrest', hbuf'⟩ := templateVariable_spec hv hrest₂
  refine ⟨st'.addVar (.pform { v with loc }), hrest', ?_, fun bound => ?_⟩
  · have hbuf : st'.buffer.removeLocs = b := by
      rw [hbuf']
      exact hbuf
    rw [← hbuf]
    exact Buffer.removeLocs_addVar st'.buffer _
  · rw [ho] at hrest
    exact quotedString_var hrest hvar

/-! ## The parts of a quoted template -/

/-- What the parts of a template do to the buffer. -/
def Buffer.addParts (b : Buffer) : List Part → Buffer
  | [] => b
  | .text s :: rest => (b.addText s).addParts rest
  | .pform v :: rest => (b.addVar (.pform v)).addParts rest

theorem commitText_quoted (h : s ≠ []) : Template.commitText true s = .ok (escape s) := by
  rw [Template.commitText, if_neg h, if_pos rfl, escaped_eq]

/-- The parts of a quoted template are printed, and `quoted_string` reads them. -/
theorem reads_parts {parts : List Part} (h : Template.partsAreWellFormed true parts = true) :
    ∃ o, Template.addParts true [] parts = .ok o ∧ ∀ r b, r[0]? ≠ some 123 →
      Reads o r b (b.addParts (parts.map Part.removeLocs)) := by
  match parts with
  | [] => exact ⟨[], rfl, fun r b _ => Reads.nil r b⟩
  | .pform v :: rest =>
    rw [Template.partsAreWellFormed, Bool.and_eq_true] at h
    obtain ⟨o, ho, hreads⟩ := reads_parts h.2
    refine ⟨v.toBytes ++ o, ?_, fun r b hr => ?_⟩
    · rw [Template.addParts, ho]
      rfl
    · exact (reads_pform h.1 (o ++ r) b).append (hreads r _ hr)
  | [.text s] =>
    have hs : s ≠ [] := by simpa [Template.partsAreWellFormed, Template.textIsWellFormed] using h
    refine ⟨escape s, ?_, fun r b hr => reads_escape s r b hr⟩
    rw [Template.addParts, Template.addParts, nil_append, commitText_quoted hs]
  | .text s :: .pform v :: rest =>
    rw [Template.partsAreWellFormed, Bool.and_eq_true, Bool.and_eq_true] at h
    have hs : s ≠ [] := by simpa [Template.textIsWellFormed] using h.1.1
    obtain ⟨o, ho, hreads⟩ := reads_parts h.2
    refine ⟨escape s ++ (v.toBytes ++ o), ?_, fun r b hr => ?_⟩
    · rw [Template.addParts, Template.addParts, nil_append, commitText_quoted hs, ho]
      rfl
    · have hhead : (v.toBytes ++ o ++ r)[0]? ≠ some 123 := by
        rw [append_assoc, Pform.toBytes_head]
        decide
      refine (reads_escape s _ b hhead).append ?_
      exact (reads_pform h.1.2 (o ++ r) _).append (hreads r _ hr)
  | .text _ :: .text _ :: _ => simp [Template.partsAreWellFormed] at h

/-- The parts that a buffer holds, in reverse order. -/
def Buffer.parts (b : Buffer) : List Part :=
  match b.state with
  | .string => addBufToParts b.text []
  | .template parts => addBufToParts b.text parts

theorem Buffer.parts_addVar (b : Buffer) (v : Part) : (b.addVar v).parts = v :: b.parts := by
  obtain ⟨text, state⟩ := b
  cases state <;> rfl

/-- A text is a part of its own when the buffer holds no text and the last part is none. -/
theorem Buffer.parts_addText (htext : b.text = []) (hs : s ≠ [])
    (hparts : ∀ s' rest, b.parts ≠ .text s' :: rest) :
    (b.addText s).parts = .text s :: b.parts := by
  obtain ⟨text, state⟩ := b
  subst htext
  cases state with
  | string => simp [parts, addText, addBufToParts, hs, Lexer.addText]
  | template parts =>
    match parts with
    | [] => simp [Buffer.parts, addText, addBufToParts, hs, Lexer.addText]
    | .pform v :: rest => simp [Buffer.parts, addText, addBufToParts, hs, Lexer.addText]
    | .text s' :: rest => exact absurd rfl (hparts s' rest)

theorem Buffer.parts_addParts {b : Buffer} {parts : List Part} (htext : b.text = [])
    (hb : ∀ s' rest, b.parts ≠ .text s' :: rest)
    (h : Template.partsAreWellFormed true parts = true) :
    (b.addParts parts).parts = parts.reverse ++ b.parts := by
  have hvar : ∀ (b : Buffer) (v : Pform), (b.addVar (.pform v)).text = [] ∧
      ∀ s' rest, (b.addVar (.pform v)).parts ≠ .text s' :: rest := by
    intro b v
    refine ⟨?_, fun s' rest hne => ?_⟩
    · rw [addVar]
      split <;> rfl
    · rw [parts_addVar] at hne
      cases hne
  match parts with
  | [] => rfl
  | .pform v :: rest =>
    rw [Template.partsAreWellFormed, Bool.and_eq_true] at h
    rw [addParts, parts_addParts (hvar b v).1 (hvar b v).2 h.2, parts_addVar, reverse_cons,
      append_assoc, singleton_append]
  | [.text s] =>
    have hs : s ≠ [] := by simpa [Template.partsAreWellFormed, Template.textIsWellFormed] using h
    exact parts_addText htext hs hb
  | .text s :: .pform v :: rest =>
    rw [Template.partsAreWellFormed, Bool.and_eq_true, Bool.and_eq_true] at h
    have hs : s ≠ [] := by simpa [Template.textIsWellFormed] using h.1.1
    have hv := hvar (b.addText s) v
    rw [addParts, addParts, parts_addParts hv.1 hv.2 h.2, parts_addVar, parts_addText htext hs hb]
    simp
  | .text _ :: .text _ :: _ => simp [Template.partsAreWellFormed] at h

theorem Buffer.state_addParts {parts : List Part} :
    (Template.hasPform parts = true ∨ ∃ l, b.state = .template l) →
    ∃ l, (b.addParts parts).state = .template l := by
  induction parts generalizing b with
  | nil =>
    rintro (h | h)
    · cases h
    · exact h
  | cons part rest ih =>
    intro h
    cases part with
    | text s => exact ih h
    | pform v =>
      refine ih (.inr ?_)
      rw [addVar]
      split <;> exact ⟨_, rfl⟩

theorem Buffer.get_template {parts : List Part} (hstate : ∃ l, b.state = .template l)
    (hparts : b.parts = parts.reverse) (h : Template.hasPform parts = true) :
    b.get = (some (.template ⟨true, parts, dummyLoc⟩), ⟨[], .string⟩) := by
  obtain ⟨text, state⟩ := b
  obtain ⟨l, rfl⟩ := hstate
  rw [get]
  simp only [Buffer.parts] at hparts
  simp only [hparts]
  split
  · next hnil =>
    rw [reverse_eq_nil_iff.mp hnil] at h
    cases h
  · next s hone =>
    rw [reverse_eq_iff] at hone
    subst hone
    cases h
  · rw [reverse_reverse]

/-! ## Quoted tokens -/

/-- A token without the locations of variables. -/
def Token.removeLocs : Token → Token
  | .template t => .template { t with parts := t.parts.map Part.removeLocs }
  | token => token

theorem Buffer.get_removeLocs (b : Buffer) :
    b.removeLocs.get = (b.get.1.map Token.removeLocs, b.get.2) := by
  obtain ⟨text, state⟩ := b
  cases state with
  | string => rfl
  | template parts =>
    simp only [get, removeLocs, ← map_removeLocs_addBufToParts]
    match addBufToParts text parts with
    | [] => rfl
    | [.text s] => rfl
    | [.pform v] => rfl
    | .text s :: q :: rest => simp [Part.removeLocs, Token.removeLocs]
    | .pform v :: q :: rest => simp [Part.removeLocs, Token.removeLocs]

/-- A block string starts with what is no escape sequence. -/
theorem startQuotedString_eq (h : quotedString (st.rest.length + 1) (st.accept 0) = .ok tok st') :
    startQuotedString st = .ok tok st' := by
  have block : ∀ c r, st.rest = 92 :: c :: r → c = 124 ∨ c = 62 → False := by
    intro c r hrest hc
    rw [quotedString, rest_accept, drop_zero, hrest,
      newline_cons (by decide) (by decide)] at h
    have hesc : (((st.accept 0).accept 1).rest) = c :: r := by
      rw [rest_accept, rest_accept, drop_zero, hrest]
      rfl
    rcases hc with rfl | rfl
    all_goals simp [escapeSequence, hesc, newline, simpleEscape, isDigit, error] at h
  rw [startQuotedString]
  split
  · next hrest => exact (block _ _ hrest (.inl rfl)).elim
  · next hrest => exact (block _ _ hrest (.inr rfl)).elim
  · exact h

theorem token_quote (hrest : st.rest = 34 :: r)
    (h : startQuotedString ⟨st.lexbuf.accept 1, st.buffer.newToken⟩ = .ok tok st')
    (withComments : Bool) :
    token withComments st =
      .ok tok { st' with lexbuf := { st'.lexbuf with startP := (st.lexbuf.accept 1).startP } } := by
  rw [token, tokenRule, hrest, newline_cons (by decide) (by decide)]
  simp only [show isBlank 34 = false by decide, show ¬(34 : UInt8) = 59 by decide,
    show ¬(34 : UInt8) = 40 by decide, show ¬(34 : UInt8) = 41 by decide, if_false, if_true,
    Bool.false_eq_true]
  have hstart : startQuotedString { st.accept 1 with buffer := (st.accept 1).buffer.newToken } =
      .ok tok st' := h
  simp only [hstart]
  rfl

theorem token_quoted (hreads : Reads o (34 :: r) .init b) (hget : b.get = (some tok, .init))
    (hrest : st.rest = 34 :: (o ++ 34 :: r)) (hclean : st.buffer.state = .string)
    (withComments : Bool) :
    ∃ tok' st', token withComments st = .ok tok' st' ∧ tok'.removeLocs = tok ∧ st'.rest = r ∧
      st'.buffer = .init := by
  obtain ⟨lb, text, state⟩ := st
  cases hclean
  let st₁ : State := ⟨lb.accept 1, .init⟩
  have hrest₁ : st₁.rest = o ++ 34 :: r := by
    change lb.rest.drop 1 = _
    rw [show lb.rest = _ from hrest]
    rfl
  obtain ⟨bound, st₂, hbound, hrest₂, hbuf₂, heq⟩ := hreads (st₁.rest.length + 1) (st₁.accept 0)
    (by rw [rest_accept, drop_zero, hrest₁])
    (by rw [hrest₁, length_append]; omega) rfl
  rw [hrest₁, length_append, length_cons] at hbound
  obtain ⟨bound, rfl⟩ : ∃ n, bound = n + 1 := ⟨bound - 1, by omega⟩
  rw [quotedString_quote hrest₂] at heq
  -- the token of the buffer with locations
  rw [← hbuf₂, Buffer.get_removeLocs, Prod.mk.injEq] at hget
  obtain ⟨hget₁, hget₂⟩ := hget
  obtain ⟨tok', htok', hlocs⟩ := Option.map_eq_some_iff.mp hget₁
  have hok : (st₂.accept 1).getToken = .ok tok' { st₂.accept 1 with buffer := .init } := by
    have hpair : st₂.buffer.get = (some tok', .init) := Prod.ext htok' hget₂
    rw [getToken, buffer_accept, hpair]
  have hstart := startQuotedString_eq (heq.trans hok)
  refine ⟨tok', _, token_quote hrest hstart withComments, hlocs, ?_, rfl⟩
  change st₂.rest.drop 1 = r
  rw [hrest₂]
  rfl

end Dune.Sexp.Lexer
