import Dune.Sexp.Parser

/-!
# Two runs of the lexer

Two runs on the same text go through the same rules. What they start with may differ: the
positions of the lexing buffer, or the global buffer that earlier parses have left. A choice of
relations that the operations of the lexer keep (`Relations.Kept`, `Closed`) relates the results of
every rule.
-/

namespace Dune.Sexp.Lexer

open Dune.Stdune
open EStateM (Result)

/-- How the data of two runs are related. -/
structure Relations where
  lexbuf : Lexbuf → Lexbuf → Prop
  position : Position → Position → Prop
  pform : Pform → Pform → Prop
  failure : Failure → Failure → Prop

def Lexbuf.failure (lb : Lexbuf) (message : String) (delta : Int) : Failure :=
  .raised (.userError ⟨{ lb.startP with cnum := lb.startP.cnum + delta }, lb.currP⟩ message)

/-- The percent form that ends at the current position. -/
def Lexbuf.pform (lb : Lexbuf) (name : Bytes) (payload : Option Bytes) : Pform :=
  ⟨⟨{ lb.startP with cnum := lb.startP.cnum - 2 }, lb.currP⟩, name, payload⟩

/-- The lexing engine keeps the relations, and related positions give related results. -/
structure Relations.Kept (R : Relations) : Prop where
  rest {lb lb' : Lexbuf} : R.lexbuf lb lb' → lb'.rest = lb.rest
  fname {lb lb' : Lexbuf} : R.lexbuf lb lb' → lb'.startP.fname = lb.startP.fname
  accept {lb lb' : Lexbuf} (n : Nat) : R.lexbuf lb lb' → R.lexbuf (lb.accept n) (lb'.accept n)
  newLine {lb lb' : Lexbuf} : R.lexbuf lb lb' → R.lexbuf lb.newLine lb'.newLine
  startP {lb lb' : Lexbuf} : R.lexbuf lb lb' → R.position lb.startP lb'.startP
  setStart {lb lb' : Lexbuf} {p p' : Position} : R.lexbuf lb lb' → R.position p p' →
    R.lexbuf { lb with startP := p } { lb' with startP := p' }
  pform {lb lb' : Lexbuf} (name : Bytes) (payload : Option Bytes) : R.lexbuf lb lb' →
    R.pform (lb.pform name payload) (lb'.pform name payload)
  error {lb lb' : Lexbuf} (message : String) (delta : Int) : R.lexbuf lb lb' →
    R.failure (lb.failure message delta) (lb'.failure message delta)
  outOfBound : R.failure .outOfBound .outOfBound

/-- The same text, or related percent forms. -/
inductive Part.Rel (P : Pform → Pform → Prop) : Part → Part → Prop
  | text (s : Bytes) : Part.Rel P (.text s) (.text s)
  | pform {v v' : Pform} : P v v' → Part.Rel P (.pform v) (.pform v')

/-- The same text, or templates with related parts. A template has a part. -/
inductive Token.Rel (P : Pform → Pform → Prop) : Token → Token → Prop
  | atom (a : Bytes) : Token.Rel P (.atom a) (.atom a)
  | quotedString (s : Bytes) : Token.Rel P (.quotedString s) (.quotedString s)
  | template {quoted : Bool} {parts parts' : List Part} {loc : Loc} : parts ≠ [] →
      List.Forall₂ (Part.Rel P) parts parts' →
      Token.Rel P (.template ⟨quoted, parts, loc⟩) (.template ⟨quoted, parts', loc⟩)

/-- Related lexing buffers and related global buffers. -/
def State.Rel (R : Relations) (Q : Buffer → Buffer → Prop) (st st' : State) : Prop :=
  R.lexbuf st.lexbuf st'.lexbuf ∧ Q st.buffer st'.buffer

/-- Related results or errors, in related states. -/
inductive ResultRel (R : Relations) (Q : Buffer → Buffer → Prop) {α : Type} (A : α → α → Prop) :
    Result Failure State α → Result Failure State α → Prop
  | ok {a a' : α} {st st' : State} : A a a' → st.Rel R Q st' →
      ResultRel R Q A (.ok a st) (.ok a' st')
  | error {e e' : Failure} {st st' : State} : R.failure e e' → st.Rel R Q st' →
      ResultRel R Q A (.error e st) (.error e' st')

theorem ResultRel.imp {R : Relations} {Q : Buffer → Buffer → Prop} {α : Type} {A A' : α → α → Prop}
    {r r' : Result Failure State α} (h : ResultRel R Q A r r') (hA : ∀ {a a'}, A a a' → A' a a') :
    ResultRel R Q A' r r' := by
  cases h with
  | ok ha h => exact .ok (hA ha) h
  | error he h => exact .error he h

/-- The buffers stay related while a token is read, and give related tokens. -/
structure Closed (P : Pform → Pform → Prop) (Q : Buffer → Buffer → Prop)
    (V : Token → Token → Prop) : Prop where
  addText {b b' : Buffer} (s : Bytes) : Q b b' → Q (b.addText s) (b'.addText s)
  addVar {b b' : Buffer} {v v' : Pform} : P v v' → Q b b' →
    Q (b.addVar (.pform v)) (b'.addVar (.pform v'))
  get {b b' : Buffer} : Q b b' →
    ∃ t t', b.get = (some t, .init) ∧ b'.get = (some t', .init) ∧ V t t'

section Rules

variable {R : Relations} {Q : Buffer → Buffer → Prop} {V : Token → Token → Prop} {st st' : State}

namespace State.Rel

theorem rest (hR : R.Kept) (h : st.Rel R Q st') : st'.rest = st.rest := hR.rest h.1

theorem accept (hR : R.Kept) (h : st.Rel R Q st') (n : Nat) :
    (st.accept n).Rel R Q (st'.accept n) :=
  ⟨hR.accept n h.1, h.2⟩

theorem newLine (hR : R.Kept) (h : st.Rel R Q st') : st.newLine.Rel R Q st'.newLine :=
  ⟨hR.newLine h.1, h.2⟩

theorem addText (hQ : Closed R.pform Q V) (h : st.Rel R Q st') (s : Bytes) :
    (st.addText s).Rel R Q (st'.addText s) :=
  ⟨h.1, hQ.addText s h.2⟩

theorem addVar (hQ : Closed R.pform Q V) (h : st.Rel R Q st') {v v' : Pform} (hv : R.pform v v') :
    (st.addVar (.pform v)).Rel R Q (st'.addVar (.pform v')) :=
  ⟨h.1, hQ.addVar hv h.2⟩

theorem error {α : Type} {A : α → α → Prop} (hR : R.Kept) (h : st.Rel R Q st') (message : String)
    (delta : Int) : ResultRel R Q A (st.error message delta) (st'.error message delta) :=
  .error (hR.error message delta h.1) h

end State.Rel

variable (hR : R.Kept)

section

variable (h : st.Rel R Q st')
include h

include hR in
theorem notAllowed_rel (skip : Bytes) (other : UInt8) :
    ResultRel R Q (Part.Rel R.pform) (notAllowed st skip other) (notAllowed st' skip other) :=
  (h.accept hR _).error hR _ _

include hR in
theorem pformPart_rel (name : Bytes) (payload : Option Bytes) :
    ResultRel R Q (Part.Rel R.pform) (pformPart st name payload) (pformPart st' name payload) := by
  unfold pformPart
  split
  · exact h.error hR _ _
  · exact .ok (.pform (hR.pform name payload h.1)) h

include hR in
theorem templateVariable_rel :
    ResultRel R Q (Part.Rel R.pform) (templateVariable st) (templateVariable st') := by
  simp only [templateVariable, h.rest hR]
  repeat' split
  · exact (h.accept hR 0).error hR _ _
  · exact notAllowed_rel hR h _ _
  · exact (h.accept hR 1).error hR _ _
  · exact notAllowed_rel hR h _ _
  · exact pformPart_rel hR (h.accept hR _) _ _
  · exact notAllowed_rel hR h _ _
  · exact notAllowed_rel hR h _ _
  · exact pformPart_rel hR (h.accept hR _) _ _
  · exact notAllowed_rel hR h _ _
  · exact notAllowed_rel hR h _ _

end

theorem templateVariable_ok {part : Part} (h : templateVariable st = .ok part st') :
    ∃ v, part = .pform v := by
  simp only [templateVariable, notAllowed, pformPart, State.error] at h
  repeat' split at h
  all_goals cases h
  all_goals exact ⟨_, rfl⟩

variable (hQ : Closed R.pform Q V)

include hR hQ

theorem escapeSequence_rel (h : st.Rel R Q st') :
    ResultRel R Q Eq (escapeSequence st) (escapeSequence st') := by
  unfold escapeSequence
  rw [h.rest hR]
  repeat' split
  any_goals exact (h.accept hR _).error hR _ _
  · exact .ok rfl ((h.accept hR _).newLine hR)
  · exact .ok rfl ((h.accept hR 1).addText hQ _)
  · dsimp only
    split
    · exact (h.accept hR 3).error hR _ _
    · exact .ok rfl ((h.accept hR 3).addText hQ _)
  · exact .ok rfl ((h.accept hR 3).addText hQ _)

omit hR hQ

/-- The end of a rule for strings: both buffers give a token, or both rules fail. -/
inductive StringRel (R : Relations) (Q : Buffer → Buffer → Prop) :
    Result Failure State Token → Result Failure State Token → Prop
  | get {st st' : State} : st.Rel R Q st' → StringRel R Q st.getToken st'.getToken
  | error {e e' : Failure} {st st' : State} : R.failure e e' → st.Rel R Q st' →
      StringRel R Q (.error e st) (.error e' st')

include hR

omit V in
theorem StringRel.of_error (h : st.Rel R Q st') (message : String) (delta : Int) :
    StringRel R Q (st.error message delta) (st'.error message delta) :=
  .error (hR.error message delta h.1) h

include hQ

theorem afterVariable_rel {k : State → Result Failure State Token} (h : st.Rel R Q st')
    (hk : ∀ {st st'}, st.Rel R Q st' → StringRel R Q (k st) (k st')) :
    StringRel R Q
      (match templateVariable st with
      | .ok var st => k (st.addVar var)
      | .error e st => .error e st)
      (match templateVariable st' with
      | .ok var st => k (st.addVar var)
      | .error e st => .error e st) := by
  have hvar := templateVariable_rel hR h
  cases hleft : templateVariable st with
  | ok var st₁ =>
    obtain ⟨v, rfl⟩ := templateVariable_ok hleft
    rw [hleft] at hvar
    generalize templateVariable st' = r at hvar
    cases hvar with
    | ok hv h =>
      cases hv with
      | pform hv => exact hk (h.addVar hQ hv)
  | error e st₁ =>
    rw [hleft] at hvar
    generalize templateVariable st' = r at hvar
    cases hvar with
    | error he h => exact .error he h

theorem afterEscape_rel {k k' : State → Result Failure State Token} (h : st.Rel R Q st')
    (hk : ∀ {st st'}, st.Rel R Q st' → StringRel R Q (k st) (k st'))
    (hk' : ∀ {st st'}, st.Rel R Q st' → StringRel R Q (k' st) (k' st')) :
    StringRel R Q
      (match escapeSequence st with
      | .ok .newline st => k st
      | .ok .other st => k' st
      | .error e st => .error e st)
      (match escapeSequence st' with
      | .ok .newline st => k st
      | .ok .other st => k' st
      | .error e st => .error e st) := by
  have hescape := escapeSequence_rel hR hQ h
  generalize escapeSequence st = r at hescape
  generalize escapeSequence st' = r' at hescape
  cases hescape with
  | @ok kind kind' st st' hkind h =>
    subst hkind
    cases kind with
    | newline => exact hk h
    | other => exact hk' h
  | error he h => exact .error he h

theorem quotedString_rel (bound : Nat) (h : st.Rel R Q st') :
    StringRel R Q (quotedString bound st) (quotedString bound st') := by
  induction bound generalizing st st' with
  | zero => exact .error hR.outOfBound h
  | succ bound ih =>
    simp only [quotedString, h.rest hR]
    split
    · exact ih (((h.accept hR _).newLine hR).addText hQ _)
    · split
      · exact .of_error hR (h.accept hR 0) _ _
      · split_ifs
        · exact .get (h.accept hR 1)
        · refine afterEscape_rel hR hQ (h.accept hR 1) (fun h => ih ?_) ih
          unfold skipBlanks
          rw [h.rest hR]
          exact h.accept hR _
        · exact afterVariable_rel hR hQ (h.accept hR 2) ih
        · exact ih ((h.accept hR 1).addText hQ _)

theorem blockString_rel (bound : Nat) (rule : BlockRule) (h : st.Rel R Q st') :
    StringRel R Q (blockString bound rule st) (blockString bound rule st') := by
  induction bound generalizing rule st st' with
  | zero => exact .error hR.outOfBound h
  | succ bound ih =>
    cases rule with
    | afterNewline =>
      simp only [blockString, h.rest hR]
      split
      · exact ih _ (h.accept hR _)
      · exact ih _ (h.accept hR _)
      · exact .get (h.accept hR 0)
    | start kind =>
      simp only [blockString, h.rest hR]
      split
      · exact ih _ (((h.accept hR _).newLine hR).addText hQ _)
      · split
        · exact .get (h.accept hR 0)
        · split
          · cases kind <;> exact ih _ (h.accept hR 1)
          · exact .of_error hR (h.accept hR 1) _ _
    | string =>
      simp only [blockString, h.rest hR]
      split
      · exact ih _ (((h.accept hR _).newLine hR).addText hQ _)
      · split
        · exact .get (h.accept hR 0)
        · split_ifs
          · exact afterEscape_rel hR hQ (h.accept hR 1) (ih _) (ih _)
          · exact afterVariable_rel hR hQ (h.accept hR 2) (ih _)
          · exact ih _ ((h.accept hR 1).addText hQ _)
    | rawString =>
      simp only [blockString, h.rest hR]
      repeat' split
      · exact ih _ (((h.accept hR _).newLine hR).addText hQ _)
      · exact .get (h.accept hR 0)
      · exact ih _ ((h.accept hR 1).addText hQ _)

theorem startQuotedString_rel (h : st.Rel R Q st') :
    StringRel R Q (startQuotedString st) (startQuotedString st') := by
  simp only [startQuotedString, h.rest hR]
  split
  · exact blockString_rel hR hQ _ _ (h.accept hR 2)
  · exact blockString_rel hR hQ _ _ (h.accept hR 2)
  · exact quotedString_rel hR hQ _ (h.accept hR 0)

omit hQ

variable {acc acc' : List Part}

omit hR in
theorem addText_rel {P : Pform → Pform → Prop} (h : List.Forall₂ (Part.Rel P) acc acc')
    (s : Bytes) : List.Forall₂ (Part.Rel P) (addText acc s) (addText acc' s) := by
  cases h with
  | nil => exact .cons (.text s) .nil
  | cons hx h =>
    cases hx with
    | text s' => exact .cons (.text _) h
    | pform hv => exact .cons (.text s) (.cons (.pform hv) h)

section

variable (h : st.Rel R Q st')
include h

theorem templateToken_rel {parts parts' : List Part}
    (hparts : List.Forall₂ (Part.Rel R.pform) parts parts') (quoted : Bool)
    {start start' : Position} (hstart : R.position start start') :
    ResultRel R Q (Token.Rel R.pform) (templateToken parts quoted start st)
      (templateToken parts' quoted start' st') := by
  have h' : State.Rel R Q { st with lexbuf := { st.lexbuf with startP := start } }
      { st' with lexbuf := { st'.lexbuf with startP := start' } } :=
    ⟨hR.setStart h.1 hstart, h.2⟩
  have hinvalid {α : Type} {A : α → α → Prop} : ResultRel R Q A
      (invalidDuneOrJbuild { st with lexbuf := { st.lexbuf with startP := start } })
      (invalidDuneOrJbuild { st' with lexbuf := { st'.lexbuf with startP := start' } }) := by
    unfold invalidDuneOrJbuild
    rw [hR.fname h'.1]
    exact h'.error hR _ _
  cases hparts with
  | nil => exact hinvalid
  | @cons x x' l l' hx hl =>
    have hrev : List.Forall₂ (Part.Rel R.pform) (x :: l).reverse (x' :: l').reverse :=
      List.rel_reverse (.cons hx hl)
    have hne : (x :: l).reverse ≠ [] := by simp
    cases hx with
    | text s =>
      cases hl with
      | nil =>
        cases s with
        | nil => exact hinvalid
        | cons c s => exact .ok (.atom _) h'
      | cons => cases s <;> exact .ok (.template hne hrev) h'
    | pform hv => exact .ok (.template hne hrev) h'

theorem atom_rel (bound : Nat) (hacc : List.Forall₂ (Part.Rel R.pform) acc acc')
    {start start' : Position} (hstart : R.position start start') :
    ResultRel R Q (Token.Rel R.pform) (atom bound acc start st) (atom bound acc' start' st') := by
  induction bound generalizing acc acc' st st' with
  | zero => exact .error hR.outOfBound h
  | succ bound ih =>
    simp only [atom, h.rest hR]
    split
    · exact templateToken_rel hR (h.accept hR 0) hacc _ hstart
    · split
      · split
        · have hvar := templateVariable_rel hR (h.accept hR 2)
          generalize templateVariable (st.accept 2) = r at hvar
          generalize templateVariable (st'.accept 2) = r' at hvar
          cases hvar with
          | ok hv h => exact ih h (.cons hv hacc)
          | error he h => exact .error he h
        · exact ih (h.accept hR 1) (addText_rel hacc _)
      · split
        · exact ih (h.accept hR _) (addText_rel hacc _)
        · split
          · exact (h.accept hR 1).error hR _ _
          · exact templateToken_rel hR (h.accept hR 0) hacc _ hstart

theorem commentTrail_rel (bound : Nat) (acc : List Bytes) :
    ResultRel R Q Eq (commentTrail bound acc st) (commentTrail bound acc st') := by
  induction bound generalizing acc st st' with
  | zero => exact .error hR.outOfBound h
  | succ bound ih =>
    simp only [commentTrail, h.rest hR]
    split
    · exact .ok rfl (h.accept hR 0)
    · split
      · exact ih (h.accept hR _) _
      · exact .ok rfl (h.accept hR 0)

end

end Rules

end Dune.Sexp.Lexer
