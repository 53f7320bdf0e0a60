import Dune.Sexp.History

/-!
# Line numbers with and without comments

The rule `comment_trail` joins comments on consecutive lines into one token and does not count the
lines between them. A run of the lexer that keeps comments thus falls behind, in line numbers only,
the run on the same text that drops them. `Follows d` relates two such runs when the first one is
`d` lines behind, and `token_follows` says what the next token does to `d`.
-/

variable {d d' bound : Nat}

namespace Dune.Stdune

/-- The position on a line further down, at the same offset. -/
def Position.addLines (p : Position) (d : Nat) : Position := { p with lnum := p.lnum + d }

theorem Position.addLines_zero (p : Position) : p.addLines 0 = p := by simp [addLines]

variable {p p' : Position}

theorem Position.addLines_inj (h : p = p.addLines d) : d = 0 := by
  have hlnum : p.lnum = p.lnum + d := congrArg Position.lnum h
  omega

/-- The location with both ends on a line further down. -/
def Loc.addLines (l : Loc) (d : Nat) : Loc := ⟨l.start.addLines d, l.stop.addLines d⟩

/-- A position that is at most `d` lines behind. -/
def Position.Behind (d : Nat) (p p' : Position) : Prop := ∃ k ≤ d, p' = p.addLines k

theorem Position.Behind.mono (h : p.Behind d p') (hle : d ≤ d') : p.Behind d' p' := by
  obtain ⟨k, hk, hp⟩ := h
  exact ⟨k, Nat.le_trans hk hle, hp⟩

theorem Position.Behind.eq (h : p.Behind 0 p') : p = p' := by
  obtain ⟨k, hk, rfl⟩ := h
  obtain rfl : k = 0 := Nat.le_zero.mp hk
  exact p.addLines_zero.symm

end Dune.Stdune

namespace Dune.Sexp.Lexer

open List Dune.Stdune
open EStateM (Result)

open Lexbuf

/-- The same percent form, at most `d` lines behind. -/
def PformBehind (d : Nat) (v v' : Pform) : Prop :=
  v.loc.start.Behind d v'.loc.start ∧ v.loc.stop.Behind d v'.loc.stop ∧ v'.name = v.name ∧
    v'.payload = v.payload

theorem PformBehind.mono (hle : d ≤ d') {v v' : Pform} (h : PformBehind d v v') :
    PformBehind d' v v' :=
  ⟨h.1.mono hle, h.2.1.mono hle, h.2.2⟩

theorem PformBehind.eq {v v' : Pform} (h : PformBehind 0 v v') : v = v' := by
  obtain ⟨⟨start, stop⟩, name, payload⟩ := v
  obtain ⟨⟨start', stop'⟩, name', payload'⟩ := v'
  obtain ⟨hstart, hstop, rfl, rfl⟩ := h
  obtain rfl : start = start' := hstart.eq
  obtain rfl : stop = stop' := hstop.eq
  rfl

/-- The first run is `d` lines behind the second one. -/
def Relations.behind (d : Nat) : Relations where
  lexbuf lb lb' := lb'.rest = lb.rest ∧ lb'.startP = lb.startP.addLines d ∧
    lb'.currP = lb.currP.addLines d
  position p p' := p' = p.addLines d
  pform := PformBehind d
  failure _ _ := True

theorem Relations.behind_kept (d : Nat) : (Relations.behind d).Kept where
  rest h := h.1
  fname h := by rw [h.2.1]; rfl
  accept n h := ⟨by rw [accept, accept, h.1], h.2.2, by
    rw [accept, accept, h.2.2]
    rfl⟩
  newLine h := by
    refine ⟨h.1, h.2.1, ?_⟩
    simp only [newLine, h.2.2, Position.addLines, Position.mk.injEq, true_and, and_true]
    omega
  startP h := h.2.1
  setStart h hp := ⟨h.1, hp, h.2.2⟩
  pform name payload h := by
    refine ⟨⟨d, Nat.le_refl d, ?_⟩, ⟨d, Nat.le_refl d, h.2.2⟩, rfl, rfl⟩
    simp only [Lexbuf.pform, h.2.1]
    rfl
  error _ _ _ := trivial
  outOfBound := trivial

/-! ## Buffers -/

/-- The parts of the templates in the buffers. -/
inductive BufferState.Behind (d : Nat) : BufferState → BufferState → Prop
  | string : BufferState.Behind d .string .string
  | template {parts parts' : List Part} : List.Forall₂ (Part.Rel (PformBehind d)) parts parts' →
      BufferState.Behind d (.template parts) (.template parts')

/-- The same text, with parts that are at most `d` lines behind. -/
structure Buffer.Behind (d : Nat) (b b' : Buffer) : Prop where
  text : b'.text = b.text
  state : b.state.Behind d b'.state
  ok : b.Ok

theorem Part.Rel.mono {P P' : Pform → Pform → Prop} (hP : ∀ {v v'}, P v v' → P' v v')
    {x x' : Part} (h : Part.Rel P x x') : Part.Rel P' x x' := by
  cases h with
  | text s => exact .text s
  | pform hv => exact .pform (hP hv)

theorem BufferState.Behind.mono (hle : d ≤ d') {s s' : BufferState} (h : s.Behind d s') :
    s.Behind d' s' := by
  cases h with
  | string => exact .string
  | template hparts => exact .template (hparts.imp fun _ _ hx => hx.mono (PformBehind.mono hle))

theorem Buffer.Behind.mono (hle : d ≤ d') {b b' : Buffer} (h : b.Behind d b') : b.Behind d' b' :=
  ⟨h.text, h.state.mono hle, h.ok⟩

theorem Buffer.Behind.refl {b : Buffer} (hok : b.Ok) : b.Behind 0 b := by
  have hpform (v : Pform) : PformBehind 0 v v :=
    ⟨⟨0, Nat.le_refl 0, (Position.addLines_zero _).symm⟩,
      ⟨0, Nat.le_refl 0, (Position.addLines_zero _).symm⟩, rfl, rfl⟩
  refine ⟨rfl, ?_, hok⟩
  cases b.state with
  | string => exact .string
  | template parts =>
    refine .template (forall₂_same.mpr fun x _ => ?_)
    cases x with
    | text s => exact .text s
    | pform v => exact .pform (hpform v)

theorem addBufToParts_rel {P : Pform → Pform → Prop} {parts parts' : List Part}
    (h : List.Forall₂ (Part.Rel P) parts parts') (text : Bytes) :
    List.Forall₂ (Part.Rel P) (addBufToParts text parts) (addBufToParts text parts') := by
  unfold addBufToParts
  split
  · exact h
  · exact addText_rel h text

theorem closed_behind (d : Nat) :
    Closed (PformBehind d) (Buffer.Behind d) (Token.Rel (PformBehind d)) where
  addText s h := ⟨congrArg (· ++ s) h.text, h.state, h.ok⟩
  addVar {b b' v v'} hv h := by
    have hparts : ∀ parts parts', List.Forall₂ (Part.Rel (PformBehind d)) parts parts' →
        List.Forall₂ (Part.Rel (PformBehind d)) (.pform v :: addBufToParts b.text parts)
          (.pform v' :: addBufToParts b'.text parts') := by
      intro parts parts' hparts
      rw [h.text]
      exact .cons (.pform hv) (addBufToParts_rel hparts _)
    obtain ⟨text, state⟩ := b
    obtain ⟨text', state'⟩ := b'
    cases h.state with
    | string =>
      refine ⟨rfl, .template (hparts [] [] .nil), fun parts h => ?_⟩
      cases h
      exact ⟨_, _, rfl⟩
    | template hstate =>
      refine ⟨rfl, .template (hparts _ _ hstate), fun parts h => ?_⟩
      cases h
      exact ⟨_, _, rfl⟩
  get {b b'} h := by
    obtain ⟨text, state⟩ := b
    obtain ⟨text', state'⟩ := b'
    obtain rfl : text' = text := h.text
    cases h.state with
    | string => exact ⟨_, _, Buffer.get_string rfl, Buffer.get_string rfl, .quotedString _⟩
    | @template parts parts' hparts =>
      obtain ⟨v, tail, rfl⟩ := h.ok _ rfl
      cases hparts with
      | cons hv htail =>
        cases hv with
        | pform hv =>
          refine ⟨_, _, Buffer.get_pform rfl, Buffer.get_pform rfl, .template (by simp) ?_⟩
          refine rel_reverse (rel_append ?_ (.cons (.pform hv) htail))
          exact addBufToParts_rel .nil _

variable {s : Bytes} {c : UInt8}

section Skip

variable {withComments : Bool} {st : State}

/-- Any bound above the length of the input gives the same token. -/
theorem tokenRule_eq_token (h : st.rest.length < bound) :
    tokenRule withComments bound st = token withComments st := by
  suffices ∀ {n m : Nat} {st : State}, st.rest.length < n → st.rest.length < m →
      tokenRule withComments n st = tokenRule withComments m st from
    this h (Nat.lt_succ_self _)
  intro n
  induction n with
  | zero => omega
  | succ n ih =>
    intro m st hn hm
    obtain ⟨m, rfl⟩ : ∃ m', m = m' + 1 := ⟨m - 1, by omega⟩
    have hcall {st' : State} (hst' : st'.rest.length < st.rest.length) :
        tokenRule withComments n st' = tokenRule withComments m st' :=
      ih (by omega) (by omega)
    simp only [tokenRule]
    split
    · next k hk =>
      obtain ⟨hpos, hle⟩ := newline_pos hk
      exact hcall (by simp; omega)
    · split
      · rfl
      · next c rest hrest =>
        split_ifs with hblank
        · refine hcall ?_
          rw [hrest]
          exact State.accept_takeWhile_lt hrest hblank
        · rfl
        · refine hcall ?_
          simp only [State.length_accept, hrest, length_cons]
          omega
        all_goals rfl

theorem token_newline {n : Nat} (h : newline st.rest = some n) :
    token withComments st = token withComments (st.accept n).newLine := by
  obtain ⟨hpos, hle⟩ := newline_pos h
  have hlt : (st.accept n).newLine.rest.length < st.rest.length := by simp; omega
  rw [token, tokenRule, h]
  exact tokenRule_eq_token hlt

theorem isBlank_iff : isBlank c = true ↔ c = 32 ∨ c = 9 ∨ c = 12 := by
  simp [isBlank, or_assoc]

theorem token_blanks (hrest : st.rest = c :: s) (hc : isBlank c = true) :
    token withComments st = token withComments (st.accept (st.rest.takeWhile isBlank).length) := by
  have hnewline : newline (c :: s) = none := by
    rcases isBlank_iff.mp hc with rfl | rfl | rfl <;> rfl
  rw [token, tokenRule, hrest, hnewline]
  simp only [hc, if_true]
  refine tokenRule_eq_token ?_
  exact State.accept_takeWhile_lt hrest hc

theorem token_skipComment (hrest : st.rest = 59 :: s) :
    token false st = token false (st.accept (1 + (commentBody s).length)) := by
  have hnewline : newline (59 :: s) = none := rfl
  have hblank : isBlank 59 = false := rfl
  rw [token, tokenRule, hrest, hnewline]
  simp only [hblank, Bool.false_eq_true, if_false, if_true]
  refine tokenRule_eq_token ?_
  simp only [State.length_accept, hrest, length_cons]
  omega

end Skip

/-! ## Runs with and without comments -/

/-- The end of the input or of a line. -/
def AtLineEnd : Bytes → Prop
  | [] => True
  | c :: _ => c = 10 ∨ c = 13

theorem atLineEnd_commentBody (s : Bytes) : AtLineEnd (s.drop (commentBody s).length) := by
  unfold commentBody
  induction s with
  | nil => trivial
  | cons c s ih =>
    rw [takeWhile_cons]
    split
    · exact ih
    · next hc =>
      simp only [ne_eq, decide_not, Bool.and_eq_true, Bool.not_eq_true', decide_eq_false_iff_not,
        not_and, not_not] at hc
      exact or_iff_not_imp_left.mpr hc

/-- The run `st` that keeps comments is `d` lines behind the run `st'` that drops them. The start of
the current line may differ where the line ends. -/
structure Follows (d : Nat) (st st' : State) : Prop where
  rest : st'.rest = st.rest
  buffer : st.buffer.Behind d st'.buffer
  fname : st'.lexbuf.currP.fname = st.lexbuf.currP.fname
  cnum : st'.lexbuf.currP.cnum = st.lexbuf.currP.cnum
  lnum : st'.lexbuf.currP.lnum = st.lexbuf.currP.lnum + d
  bol : AtLineEnd st.rest ∨ st'.lexbuf.currP.bol = st.lexbuf.currP.bol

variable {d : Nat} {st st' : State}

theorem Follows.of_rel (h : st.Rel (.behind d) (Buffer.Behind d) st') : Follows d st st' := by
  obtain ⟨⟨hrest, -, hcurr⟩, hbuffer⟩ := h
  exact ⟨hrest, hbuffer, by rw [hcurr]; rfl, by rw [hcurr]; rfl, by rw [hcurr]; rfl,
    .inr (by rw [hcurr]; rfl)⟩

theorem Follows.accept (h : Follows d st st') (hline : ¬AtLineEnd st.rest) (n : Nat) :
    (st.accept n).Rel (.behind d) (Buffer.Behind d) (st'.accept n) := by
  have hcurr : st'.lexbuf.currP = st.lexbuf.currP.addLines d := by
    have hbol := h.bol.resolve_left hline
    rw [Position.addLines, ← h.fname, ← h.cnum, ← h.lnum, ← hbol]
  have hrest : st'.lexbuf.rest = st.lexbuf.rest := h.rest
  refine ⟨⟨?_, hcurr, ?_⟩, h.buffer⟩
  · simp only [State.accept, Lexbuf.accept, hrest]
  · simp only [State.accept, Lexbuf.accept, hcurr]
    rfl

theorem Follows.newLine (h : Follows d st st') (n : Nat) :
    Follows d (st.accept n).newLine (st'.accept n).newLine := by
  have hrest : st'.lexbuf.rest = st.lexbuf.rest := h.rest
  refine ⟨?_, h.buffer, h.fname, ?_, ?_, .inr ?_⟩
  · simp only [State.rest, State.newLine, State.accept, Lexbuf.newLine, Lexbuf.accept, hrest]
  · simp only [State.newLine, State.accept, Lexbuf.newLine, Lexbuf.accept, h.cnum]
  · simp only [State.newLine, State.accept, Lexbuf.newLine, Lexbuf.accept, h.lnum]
    omega
  · simp only [State.newLine, State.accept, Lexbuf.newLine, Lexbuf.accept, h.cnum]

theorem token_skipBlanksComment (hs : st.rest.drop (st.rest.takeWhile isBlank).length = 59 :: s) :
    token false st =
      token false ((st.accept (st.rest.takeWhile isBlank).length).accept
        (1 + (commentBody s).length)) := by
  by_cases hblank : st.rest.takeWhile isBlank = []
  · have hrest : st.rest = 59 :: s := by rw [← hs, hblank]; rfl
    have haccept (n : Nat) : (st.accept 0).accept n = st.accept n := by
      simp [State.accept, accept]
    rw [hblank, length_nil, haccept]
    exact token_skipComment hrest
  · obtain ⟨c, l, hrest⟩ : ∃ c l, st.rest = c :: l := by
      cases hrest : st.rest with
      | nil => simp [hrest] at hblank
      | cons c l => exact ⟨c, l, rfl⟩
    have hc : isBlank c = true := by
      by_contra hc
      exact hblank (by rw [hrest, takeWhile_cons_of_neg hc])
    rw [token_blanks hrest hc]
    exact token_skipComment hs

theorem Follows.stop (h : Follows d st st') (hline : AtLineEnd st.rest) :
    Follows d (st.accept 0) st' := by
  refine ⟨h.rest, h.buffer, h.fname, ?_, h.lnum, .inl hline⟩
  rw [h.cnum]
  exact (Int.add_zero _).symm

/-- The lines of one comment: the run without comments skips them all and counts them. -/
theorem commentTrail_follows (hbound : st.rest.length < bound) (acc : List Bytes)
    (h : Follows d st st') (hline : AtLineEnd st.rest) :
    ∃ k lines st₁ st₁', commentTrail bound acc st = .ok (.comment lines) st₁ ∧
      lines.length = acc.length + k ∧ token false st' = token false st₁' ∧
      Follows (d + k) st₁ st₁' := by
  fun_induction commentTrail bound acc st generalizing d st' with
  | case1 => omega
  | case2 | case4 => exact ⟨0, _, _, st', rfl, by simp, rfl, h.stop hline⟩
  | case3 =>
    rename_i bound acc st n hn blanks rest hs s ih
    obtain ⟨hpos, hle⟩ := newline_pos hn
    rw [← drop_drop] at hs
    -- The other run reads the end of the line, the blanks and the comment one by one.
    have hskip : token false st' =
        token false (((st'.accept n).newLine.accept blanks).accept (1 + s.length)) := by
      have hrest : (st'.accept n).newLine.rest = st.rest.drop n := by rw [← h.rest]; rfl
      rw [token_newline (h.rest ▸ hn), token_skipBlanksComment (by rw [hrest]; exact hs), hrest]
    have hend : AtLineEnd (st.accept (n + blanks + 1 + s.length)).rest := by
      have hdrop : (st.accept (n + blanks + 1 + s.length)).rest = rest.drop s.length := by
        change st.rest.drop _ = _
        rw [← drop_drop, ← drop_drop, ← drop_drop, hs]
        rfl
      rw [hdrop]
      exact atLineEnd_commentBody rest
    have hnext : Follows (d + 1) (st.accept (n + blanks + 1 + s.length))
        (((st'.accept n).newLine.accept blanks).accept (1 + s.length)) := by
      refine ⟨?_, h.buffer.mono (Nat.le_succ d), h.fname, ?_, ?_, .inl hend⟩
      · change ((st'.rest.drop n).drop _).drop _ = st.rest.drop _
        rw [h.rest, drop_drop, drop_drop]
        congr 1
        omega
      · simp only [State.newLine, State.accept, newLine, accept, h.cnum]
        omega
      · simp only [State.newLine, State.accept, newLine, accept, h.lnum]
        omega
    obtain ⟨k, lines, st₁, st₁', htrail, hlines, htoken, hfollows⟩ :=
      ih (by simp only [State.length_accept]; omega) hnext hend
    refine ⟨k + 1, lines, st₁, st₁', htrail, ?_, hskip.trans htoken, ?_⟩
    · rw [hlines, length_cons]
      omega
    · rw [Nat.add_comm k 1, ← Nat.add_assoc]
      exact hfollows

/-- The next token of the two runs, where it is not a comment. -/
inductive TokenFollows (d : Nat) : Result Failure State Token → Result Failure State Token → Prop
  | error {e e' : Failure} {st st' : State} : TokenFollows d (.error e st) (.error e' st')
  | eof {st st' : State} : TokenFollows d (.ok .eof st) (.ok .eof st')
  | lparen {st st' : State} : st.Rel (.behind d) (Buffer.Behind d) st' →
      TokenFollows d (.ok .lparen st) (.ok .lparen st')
  | rparen {st st' : State} : st.Rel (.behind d) (Buffer.Behind d) st' →
      TokenFollows d (.ok .rparen st) (.ok .rparen st')
  | text {t t' : Token} {st st' : State} : Token.Rel (PformBehind d) t t' →
      st.Rel (.behind d) (Buffer.Behind d) st' → TokenFollows d (.ok t st) (.ok t' st')

variable {r r' : Result Failure State Token}

theorem TokenFollows.of_atom
    (h : ResultRel (.behind d) (Buffer.Behind d) (Token.Rel (PformBehind d)) r r') :
    TokenFollows d r r' := by
  cases h with
  | ok ht h => exact .text ht h
  | error => exact .error

theorem TokenFollows.of_string {start : Position} :
    StringRel (.behind d) (Buffer.Behind d) r r' → TokenFollows d
      (match r with
      | .ok token st => .ok token { st with lexbuf := { st.lexbuf with startP := start } }
      | .error e st => .error e st)
      (match r' with
      | .ok token st =>
        .ok token { st with lexbuf := { st.lexbuf with startP := start.addLines d } }
      | .error e st => .error e st) := by
  intro h
  cases h with
  | @get st st' h =>
    obtain ⟨t, t', ht, ht', hV⟩ := (closed_behind d).get h.2
    have hget : st.getToken = .ok t { st with buffer := .init } := by rw [State.getToken, ht]
    have hget' : st'.getToken = .ok t' { st' with buffer := .init } := by rw [State.getToken, ht']
    rw [hget, hget']
    refine .text hV ⟨(Relations.behind_kept d).setStart h.1 rfl, ?_⟩
    exact (Buffer.Behind.refl Buffer.init_ok).mono (Nat.zero_le d)
  | error => exact .error

theorem token_carriageReturn (withComments : Bool) (hrest : st.rest = 13 :: s)
    (hnewline : newline st.rest = none) : ∃ e st₁, token withComments st = .error e st₁ := by
  have hblank : isBlank 13 = false := by decide
  have hatom : isAtomChar 13 = false := by decide
  have hline : ¬(13 : UInt8) = 59 ∧ ¬(13 : UInt8) = 40 ∧ ¬(13 : UInt8) = 41 ∧
      ¬(13 : UInt8) = 34 ∧ ¬(13 : UInt8) = 37 ∧ ¬(128 : UInt8) ≤ 13 := by decide
  obtain ⟨h59, h40, h41, h34, h37, h128⟩ := hline
  have hrest' : (st.accept 0).rest = 13 :: s := hrest
  rw [hrest] at hnewline
  have htoken : token withComments st =
      templateToken [] false (st.accept 0).lexbuf.startP ((st.accept 0).accept 0) := by
    simp [token, tokenRule, atom, hnewline, hrest, hrest', hblank, hatom, h59, h40, h41, h34, h37,
      h128]
  exact ⟨_, _, htoken⟩

/-- What the next tokens of the two runs are: the runs stay `d` lines apart, or the first one reads
a comment and falls behind by the number of its lines after the first. -/
def NextToken (d : Nat) (st st' : State) : Prop :=
  TokenFollows d (token true st) (token false st') ∨
    ∃ k lines st₁ st₁', token true st = .ok (.comment lines) st₁ ∧ lines.length = k + 1 ∧
      token false st' = token false st₁' ∧ Follows (d + k) st₁ st₁'

section

variable (h : Follows d st st')
include h

/-- Inside a line, before a character that is neither a blank nor starts a comment. -/
theorem nextToken_of_char (hline : ¬AtLineEnd st.rest) (hrest : st.rest = c :: s)
    (hnewline : newline st.rest = none) (hblank : ¬isBlank c = true) (h59 : c ≠ 59) :
    TokenFollows d (token true st) (token false st') := by
  have hR := Relations.behind_kept d
  have haccept := h.accept hline
  rw [hrest] at hnewline
  simp only [token, tokenRule, h.rest, hnewline, hrest]
  rw [if_neg hblank, if_neg hblank, if_neg h59, if_neg h59]
  split_ifs
  · exact .lparen (haccept 1)
  · exact .rparen (haccept 1)
  · have hnew : State.Rel (.behind d) (Buffer.Behind d)
        { st.accept 1 with buffer := (st.accept 1).buffer.newToken }
        { st'.accept 1 with buffer := (st'.accept 1).buffer.newToken } :=
      ⟨(haccept 1).1, rfl, h.buffer.state, h.buffer.ok⟩
    have hstart : (st'.accept 1).lexbuf.startP = (st.accept 1).lexbuf.startP.addLines d :=
      (haccept 1).1.2.1
    rw [hstart]
    exact .of_string (startQuotedString_rel hR (closed_behind d) hnew)
  · have hrest' : (st'.accept 0).rest = (st.accept 0).rest := (haccept 0).1.1
    rw [hrest']
    exact .of_atom (atom_rel hR (haccept 0) _ .nil (haccept 0).1.2.1)

theorem nextToken_of_comment (hline : ¬AtLineEnd st.rest) (hrest : st.rest = 59 :: s) :
    NextToken d st st' := by
  have hnewline : newline (59 :: s) = none := rfl
  have hblank : isBlank 59 = false := rfl
  have hend : AtLineEnd (st.accept (1 + (commentBody s).length)).rest := by
    have hdrop : (st.accept (1 + (commentBody s).length)).rest = s.drop (commentBody s).length := by
      change st.rest.drop _ = _
      rw [hrest, Nat.add_comm]
      rfl
    rw [hdrop]
    exact atLineEnd_commentBody s
  obtain ⟨k, lines, st₁, st₁', htrail, hlines, htoken, hfollows⟩ :=
    commentTrail_follows (Nat.lt_succ_self _) [commentBody s] (.of_rel (h.accept hline _)) hend
  refine .inr ⟨k, lines, st₁, st₁', ?_, ?_, ?_, hfollows⟩
  · simp only [token, tokenRule, hrest, hnewline, hblank, Bool.false_eq_true, if_false, if_true]
    exact htrail
  · rw [hlines, length_singleton, Nat.add_comm]
  · rw [token_skipComment (h.rest.trans hrest)]
    exact htoken

theorem token_follows : NextToken d st st' := by
  induction hn : st.rest.length using Nat.strong_induction_on generalizing st st' with
  | _ n ih =>
    subst hn
    -- Both runs skip the same end of a line or the same blanks.
    have hskip {st₁ st₁' : State} (htrue : token true st = token true st₁)
        (hfalse : token false st' = token false st₁') (hlt : st₁.rest.length < st.rest.length)
        (h₁ : Follows d st₁ st₁') : NextToken d st st' := by
      unfold NextToken
      rw [htrue, hfalse]
      exact ih _ hlt h₁ rfl
    cases hnewline : newline st.rest with
    | some k =>
      obtain ⟨hpos, hle⟩ := newline_pos hnewline
      have hnewline' : newline st'.rest = some k := h.rest ▸ hnewline
      exact hskip (token_newline hnewline) (token_newline hnewline') (by simp; omega)
        (h.newLine k)
    | none =>
      cases hrest : st.rest with
      | nil =>
        unfold NextToken
        rw [Parser.token_of_nil hrest, Parser.token_of_nil (h.rest.trans hrest)]
        exact .inl .eof
      | cons c s =>
        have hrest' : st'.rest = c :: s := h.rest.trans hrest
        by_cases hreturn : c = 13
        · subst hreturn
          obtain ⟨e, st₁, htrue⟩ := token_carriageReturn true hrest hnewline
          obtain ⟨e', st₁', hfalse⟩ :=
            token_carriageReturn false hrest' (h.rest ▸ hnewline)
          unfold NextToken
          rw [htrue, hfalse]
          exact .inl .error
        have hline : ¬AtLineEnd st.rest := by
          rw [hrest]
          rintro (rfl | hc)
          · rw [hrest] at hnewline
            cases hnewline
          · exact hreturn hc
        by_cases hblank : isBlank c = true
        · refine hskip (token_blanks hrest hblank) (token_blanks hrest' hblank) ?_ ?_
          · rw [hrest]
            exact State.accept_takeWhile_lt hrest hblank
          · rw [h.rest]
            exact .of_rel (h.accept hline _)
        by_cases h59 : c = 59
        · subst h59
          exact nextToken_of_comment h hline hrest
        · exact .inl (nextToken_of_char h hline hrest hnewline hblank h59)

end

end Dune.Sexp.Lexer
