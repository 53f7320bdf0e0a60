import Dune.Sexp.LexBound
import Dune.Sexp.LexRel

/-!
# How the lexer depends on its global buffer

The rules only add to the buffer and take a token out of it. A relation between buffers that these
operations keep (`Closed`) relates the results of every rule on the two buffers.
-/

variable {bound depth : Nat}

namespace Dune.Sexp.Lexer

open Dune.Stdune
open EStateM (Result)

/-- The two runs read the same input, at the same positions. -/
def Relations.same : Relations := ⟨Eq, Eq, Eq, Eq⟩

theorem Relations.same_kept : Relations.same.Kept where
  rest h := congrArg Lexbuf.rest (Eq.symm h)
  fname h := congrArg (fun lb : Lexbuf => lb.startP.fname) (Eq.symm h)
  accept n h := congrArg (fun lb : Lexbuf => lb.accept n) h
  newLine h := congrArg Lexbuf.newLine h
  startP h := congrArg Lexbuf.startP h
  setStart h hp := by cases h; cases hp; rfl
  pform name payload h := congrArg (fun lb : Lexbuf => lb.pform name payload) h
  error message delta h := congrArg (fun lb : Lexbuf => lb.failure message delta) h
  outOfBound := rfl

theorem Part.Rel.eq {x x' : Part} (h : Part.Rel Eq x x') : x = x' := by
  cases h with
  | text s => rfl
  | pform hv => rw [hv]

theorem Token.Rel.eq {t t' : Token} (h : Token.Rel Eq t t') : t = t' := by
  cases h with
  | atom | quotedString => rfl
  | template _ h =>
    have heq := h.imp fun _ _ => Part.Rel.eq
    rw [List.forall₂_eq_eq_eq] at heq
    rw [heq]

section Rules

variable {Q : Buffer → Buffer → Prop} {V : Token → Token → Prop} {st st' : State}

/-- The tokens that come from the buffer. -/
def Token.isQuoted : Token → Bool
  | .quotedString _ => true
  | .template t => t.quoted
  | _ => false

variable {b b' : Buffer} {t : Token}

theorem Buffer.get_isQuoted (h : b.get = (some t, b')) : t.isQuoted = true := by
  unfold Buffer.get at h
  split at h
  · cases h
    rfl
  · split at h <;> cases h <;> rfl

theorem atom_isQuoted {acc : List Part} {start : Position}
    (h : atom bound acc start st = .ok t st') : t.isQuoted = false := by
  fun_induction atom bound acc start st with
  | case1 | case4 | case7 => cases h
  | case2 | case8 =>
    simp only [templateToken, invalidDuneOrJbuild, State.error] at h
    split at h <;> cases h <;> rfl
  | case3 | case5 | case6 =>
    rename_i ih
    exact ih h

theorem commentTrail_comment {acc : List Bytes} (h : commentTrail bound acc st = .ok t st') :
    ∃ lines, t = .comment lines := by
  fun_induction commentTrail bound acc st with
  | case1 => cases h
  | case2 | case4 =>
    cases h
    exact ⟨_, rfl⟩
  | case3 _ _ _ _ _ _ _ _ _ ih => exact ih h

/-- How a token depends on the buffers `b` and `b'`. -/
inductive TokenRel (Q : Buffer → Buffer → Prop) (V : Token → Token → Prop) (b b' : Buffer) :
    Result Failure State Token → Result Failure State Token → Prop
  | plain {t : Token} {lb : Lexbuf} : t.isQuoted = false →
      TokenRel Q V b b' (.ok t ⟨lb, b⟩) (.ok t ⟨lb, b'⟩)
  | quoted {t t' : Token} {lb : Lexbuf} : t.isQuoted = true → t'.isQuoted = true → V t t' →
      TokenRel Q V b b' (.ok t ⟨lb, .init⟩) (.ok t' ⟨lb, .init⟩)
  | error (e : Failure) {lb : Lexbuf} {c c' : Buffer} : c = b ∧ c' = b' ∨ Q c c' →
      TokenRel Q V b b' (.error e ⟨lb, c⟩) (.error e ⟨lb, c'⟩)

variable {r r' : Result Failure State Token}

theorem TokenRel.of_same (h : ResultRel .same (fun c c' => c = b ∧ c' = b') Eq r r')
    (hplain : ∀ t st, r = .ok t st → t.isQuoted = false) : TokenRel Q V b b' r r' := by
  cases h with
  | @ok t t' st st' ht h =>
    obtain ⟨lb, c⟩ := st
    obtain ⟨lb', c'⟩ := st'
    obtain ⟨rfl, rfl, rfl⟩ := h
    subst ht
    exact .plain (hplain _ _ rfl)
  | @error e e' st st' he h =>
    obtain ⟨lb, c⟩ := st
    obtain ⟨lb', c'⟩ := st'
    obtain ⟨rfl, hc⟩ := h
    cases he
    exact .error e (.inl hc)

theorem TokenRel.of_string (hQ : Closed Eq Q V) {start : Position} : StringRel .same Q r r' →
    TokenRel Q V b b'
      (match r with
      | .ok token st => .ok token { st with lexbuf := { st.lexbuf with startP := start } }
      | .error e st => .error e st)
      (match r' with
      | .ok token st => .ok token { st with lexbuf := { st.lexbuf with startP := start } }
      | .error e st => .error e st)  := by
  intro h
  cases h with
  | @get st st' h =>
    obtain ⟨t, t', ht, ht', hV⟩ := hQ.get h.2
    have hlexbuf : st.lexbuf = st'.lexbuf := h.1
    simp only [State.getToken, ht, ht', hlexbuf]
    exact .quoted (Buffer.get_isQuoted ht) (Buffer.get_isQuoted ht') hV
  | @error e e' st st' he h =>
    obtain ⟨lb, c⟩ := st
    obtain ⟨lb', c'⟩ := st'
    obtain ⟨rfl, hc⟩ := h
    cases he
    exact .error e (.inr hc)

theorem tokenRule_rel (hQ : Closed Eq Q V) (hnew : Q b.newToken b'.newToken) (withComments : Bool)
    (bound : Nat) (lb : Lexbuf) :
    TokenRel Q V b b' (tokenRule withComments bound ⟨lb, b⟩)
      (tokenRule withComments bound ⟨lb, b'⟩) := by
  induction bound generalizing lb with
  | zero => exact .error _ (.inl ⟨rfl, rfl⟩)
  | succ bound ih =>
    have hsame (lb : Lexbuf) : State.Rel .same (fun c c' => c = b ∧ c' = b') ⟨lb, b⟩ ⟨lb, b'⟩ :=
      ⟨rfl, rfl, rfl⟩
    simp only [tokenRule, State.rest, State.accept, State.newLine]
    split
    · exact ih _
    · split
      · exact .plain rfl
      · split_ifs
        · exact ih _
        · refine .of_same (commentTrail_rel Relations.same_kept (hsame _) _ _) fun t st h => ?_
          obtain ⟨lines, rfl⟩ := commentTrail_comment h
          rfl
        · exact ih _
        · exact .plain rfl
        · exact .plain rfl
        · have hnew : State.Rel .same Q ⟨lb.accept 1, b.newToken⟩
              ⟨lb.accept 1, b'.newToken⟩ := ⟨rfl, hnew⟩
          exact .of_string hQ (startQuotedString_rel Relations.same_kept hQ hnew)
        · exact .of_same ((atom_rel Relations.same_kept (hsame _) _ .nil rfl).imp Token.Rel.eq)
            fun t st h => atom_isQuoted h

end Rules

end Dune.Sexp.Lexer

/-! ## S-expressions -/

namespace Dune.Sexp

open Dune.Stdune Lexer
open EStateM (Result)

def Encoded.isComment : List Ast → Bool
  | .template t :: _ => t = commentMarker
  | _ => false

mutual

/-- The S-expression has a string or a template in quotes. -/
def Ast.hasQuoted : Ast → Bool
  | .atom _ _ => false
  | .quotedString _ _ => true
  | .template t => t.quoted
  | .list _ l => !Encoded.isComment l && Ast.anyQuoted l

def Ast.anyQuoted : List Ast → Bool
  | [] => false
  | x :: l => x.hasQuoted || Ast.anyQuoted l

end

theorem Ast.anyQuoted_append (l l' : List Ast) :
    Ast.anyQuoted (l ++ l') = (Ast.anyQuoted l || Ast.anyQuoted l') := by
  induction l with
  | nil => rfl
  | cons x l ih => rw [List.cons_append, anyQuoted, anyQuoted, ih, Bool.or_assoc]

namespace Parser

/-- The S-expression of a token from the buffer. -/
def leaf (loc : Loc) : Token → Ast
  | .template t => .template { t with loc }
  | .quotedString s => .quotedString loc s
  | _ => .list loc []

/-- Two S-expressions that differ in the token of one leaf. -/
inductive Altered (V : Token → Token → Prop) : Ast → Ast → Prop
  | leaf {loc : Loc} {t t' : Token} : V t t' → Altered V (leaf loc t) (leaf loc t')
  | list {loc : Loc} {l l' : List Ast} {x y : Ast} : Altered V x y →
      Encoded.isComment (l ++ x :: l') = false → Encoded.isComment (l ++ y :: l') = false →
      Altered V (.list loc (l ++ x :: l')) (.list loc (l ++ y :: l'))

/-- Two lists of which one element differs. -/
def AlteredList (V : Token → Token → Prop) (as bs : List Ast) : Prop :=
  ∃ l x y l', as = l ++ x :: l' ∧ bs = l ++ y :: l' ∧ Altered V x y

theorem AlteredList.append_left {V : Token → Token → Prop} {as bs : List Ast}
    (h : AlteredList V as bs) (l : List Ast) : AlteredList V (l ++ as) (l ++ bs) := by
  obtain ⟨l₁, x, y, l', rfl, rfl, h⟩ := h
  exact ⟨l ++ l₁, x, y, l', (List.append_assoc ..).symm, (List.append_assoc ..).symm, h⟩

/-- A result of the loop, with elements in front of it. -/
def prepend (l : List Ast) : Result Failure State (List Ast) → Result Failure State (List Ast)
  | .ok l' st => .ok (l ++ l') st
  | .error e st => .error e st

theorem prepend_prepend (l l' : List Ast) (r : Result Failure State (List Ast)) :
    prepend l (prepend l' r) = prepend (l ++ l') r := by
  cases r with
  | ok l'' st => rw [prepend, prepend, prepend, List.append_assoc]
  | error e st => rfl

theorem loop_acc (withComments : Bool) (bound depth : Nat) (st : State) (acc : List Ast) :
    loop withComments bound depth st acc =
      prepend acc.reverse (loop withComments bound depth st []) := by
  induction bound generalizing withComments depth st acc with
  | zero => rfl
  | succ bound ih =>
    have hcons (wc : Bool) (depth : Nat) (st : State) (x : Ast) :
        loop wc bound depth st (x :: acc) = prepend acc.reverse (loop wc bound depth st [x]) := by
      rw [ih wc depth st (x :: acc), ih wc depth st [x], prepend_prepend, List.reverse_cons]
      rfl
    simp only [loop]
    repeat' split
    any_goals exact hcons _ _ _ _
    any_goals rfl
    any_goals exact congrArg (Result.ok · _) (List.append_nil _).symm
    exact ih _ _ _ _

/-! ## The buffer after a parse -/

end Parser

namespace Lexer

/-- A template in the buffer starts with a percent form. -/
def Buffer.Ok (b : Buffer) : Prop :=
  ∀ parts, b.state = .template parts → ∃ v parts', parts = .pform v :: parts'

theorem Buffer.init_ok : Buffer.init.Ok := nofun

theorem addBufToParts_pform (text : Bytes) (v : Pform) (parts : List Part) :
    addBufToParts text (.pform v :: parts) = addBufToParts text [] ++ .pform v :: parts := by
  unfold addBufToParts
  split <;> rfl

theorem Buffer.get_string {b : Buffer} (h : b.state = .string) :
    b.get = (some (.quotedString b.text), .init) := by
  unfold Buffer.get
  rw [h]
  rfl

theorem Buffer.get_pform {b : Buffer} {v : Pform} {parts : List Part}
    (h : b.state = .template (.pform v :: parts)) :
    b.get = (some (.template ⟨true, (addBufToParts b.text [] ++ .pform v :: parts).reverse,
      dummyLoc⟩), .init) := by
  simp only [Buffer.get, h, addBufToParts_pform]
  rw [addBufToParts]
  split_ifs <;> rfl

theorem closed_ok : Closed Eq (fun b b' => b' = b ∧ b.Ok) Eq where
  addText s h := by
    obtain ⟨rfl, hok⟩ := h
    exact ⟨rfl, hok⟩
  addVar hv h := by
    obtain ⟨rfl, hok⟩ := h
    subst hv
    refine ⟨rfl, fun parts hparts => ?_⟩
    unfold Buffer.addVar at hparts
    split at hparts <;> cases hparts <;> exact ⟨_, _, rfl⟩
  get {b b'} h := by
    obtain ⟨rfl, hok⟩ := h
    cases hstate : b'.state with
    | string => exact ⟨_, _, b'.get_string hstate, b'.get_string hstate, rfl⟩
    | template parts =>
      obtain ⟨v, parts, rfl⟩ := hok parts hstate
      exact ⟨_, _, b'.get_pform hstate, b'.get_pform hstate, rfl⟩

end Lexer

namespace Parser

/-- How the loop depends on the buffers `b` and `b'`. A token that differs is read once: then the
buffers are empty. -/
inductive LoopRel (Q : Buffer → Buffer → Prop) (V : Token → Token → Prop) (b b' : Buffer) :
    Result Failure State (List Ast) → Result Failure State (List Ast) → Prop
  | plain {l : List Ast} {lb : Lexbuf} : Ast.anyQuoted l = false →
      LoopRel Q V b b' (.ok l ⟨lb, b⟩) (.ok l ⟨lb, b'⟩)
  | altered {as bs : List Ast} {lb : Lexbuf} : AlteredList V as bs →
      LoopRel Q V b b' (.ok as ⟨lb, .init⟩) (.ok bs ⟨lb, .init⟩)
  | error (e : Failure) {lb : Lexbuf} {c c' : Buffer} :
      (c = b ∧ c' = b') ∨ Q c c' ∨ (c' = c ∧ c.Ok) →
      LoopRel Q V b b' (.error e ⟨lb, c⟩) (.error e ⟨lb, c'⟩)

section Loop

variable {Q : Buffer → Buffer → Prop} {V : Token → Token → Prop} {b b' : Buffer}

theorem LoopRel.prepend {l : List Ast} (hl : Ast.anyQuoted l = false)
    {r r' : Result Failure State (List Ast)} (h : LoopRel Q V b b' r r') :
    LoopRel Q V b b' (prepend l r) (prepend l r') := by
  cases h with
  | plain h => exact .plain (by rw [Ast.anyQuoted_append, hl, h]; rfl)
  | altered h => exact .altered (h.append_left l)
  | error e h => exact .error e h

/-- After a difference, the loops go on in the same state. -/
theorem LoopRel.altered_prepend {x y : Ast} (h : Altered V x y)
    {r : Result Failure State (List Ast)}
    (hr : LoopRel (fun b b' => b' = b ∧ b.Ok) Eq .init .init r r) :
    LoopRel Q V b b' (Parser.prepend [x] r) (Parser.prepend [y] r) := by
  cases r with
  | ok l st =>
    obtain ⟨lb, c⟩ := st
    have hc : c = .init := by cases hr <;> rfl
    subst hc
    exact .altered ⟨[], x, y, l, rfl, rfl, h⟩
  | error e st =>
    obtain ⟨lb, c⟩ := st
    have hc : c.Ok := by
      cases hr with
      | error _ h =>
        obtain ⟨rfl, -⟩ | ⟨-, h⟩ | ⟨-, h⟩ := h
        · exact Buffer.init_ok
        · exact h
        · exact h
    exact .error e (.inr (.inr ⟨rfl, hc⟩))

theorem loop_isComment {withComments : Bool} {st st' : State} {l : List Ast}
    (h : loop withComments bound depth st [] = .ok l st') : Encoded.isComment l = false := by
  have hcons {wc : Bool} {bound : Nat} {st : State} {x : Ast} (hx : Encoded.isComment [x] = false)
      (h : loop wc bound depth st [x] = .ok l st') : Encoded.isComment l = false := by
    rw [loop_acc] at h
    cases hr : loop wc bound depth st [] with
    | error e st => simp [hr, prepend] at h
    | ok l' st =>
      rw [hr] at h
      cases h
      cases x <;> exact hx
  induction bound generalizing withComments st with
  | zero => cases h
  | succ bound ih =>
    simp only [loop] at h
    repeat' split at h
    any_goals exact hcons rfl h
    any_goals cases h
    any_goals rfl
    · next hmarker => exact hcons (by simpa [Encoded.isComment] using hmarker) h
    · exact ih h

theorem loop_quoted {withComments : Bool} {st st' : State} {t : Token}
    (h : token withComments st = .ok t st') (ht : t.isQuoted = true) :
    loop withComments (bound + 1) depth st [] =
      loop withComments bound depth st' [leaf st'.lexbuf.loc t] := by
  cases t with
  | quotedString s => simp only [loop, h, leaf]
  | template t =>
    have hquoted : t.quoted = true := ht
    simp only [loop, h, leaf]
    rw [if_neg]
    intro hmarker
    simp [Encoded.commentMarker, hquoted] at hmarker
  | atom | lparen | rparen | eof | comment => cases ht

theorem loop_rel (hQ : Closed Eq Q V) (hnew : Q b.newToken b'.newToken) (withComments : Bool)
    (bound depth : Nat) (lb : Lexbuf) :
    LoopRel Q V b b' (loop withComments bound depth ⟨lb, b⟩ [])
      (loop withComments bound depth ⟨lb, b'⟩ []) := by
  induction bound generalizing Q V b b' withComments depth lb with
  | zero => exact .error _ (.inl ⟨rfl, rfl⟩)
  | succ bound ih =>
    have hplain {x : Ast} (hx : Ast.anyQuoted [x] = false) (wc : Bool) (lb : Lexbuf) :
        LoopRel Q V b b' (loop wc bound depth ⟨lb, b⟩ [x]) (loop wc bound depth ⟨lb, b'⟩ [x]) := by
      rw [loop_acc, loop_acc wc bound depth ⟨lb, b'⟩]
      exact (ih hQ hnew wc depth lb).prepend hx
    have haltered {x y : Ast} (h : Altered V x y) (wc : Bool) (lb : Lexbuf) :
        LoopRel Q V b b' (loop wc bound depth ⟨lb, .init⟩ [x])
          (loop wc bound depth ⟨lb, .init⟩ [y]) := by
      rw [loop_acc, loop_acc wc bound depth _ [y]]
      have hnew : Buffer.init.newToken = Buffer.init.newToken ∧ Buffer.init.newToken.Ok :=
        ⟨rfl, Buffer.init_ok⟩
      exact .altered_prepend h (ih closed_ok hnew wc depth lb)
    have htoken : TokenRel Q V b b' (token withComments ⟨lb, b⟩) (token withComments ⟨lb, b'⟩) :=
      tokenRule_rel hQ hnew withComments _ lb
    generalize hr : token withComments ⟨lb, b⟩ = r at htoken
    generalize hr' : token withComments ⟨lb, b'⟩ = r' at htoken
    cases htoken with
    | error e h =>
      simp only [loop, hr, hr']
      exact .error e (h.imp_right .inl)
    | quoted ht ht' hV =>
      rw [loop_quoted hr ht, loop_quoted hr' ht']
      exact haltered (.leaf hV) _ _
    | @plain t lb ht =>
      simp only [loop, hr, hr']
      cases t with
      | atom a => exact hplain rfl _ _
      | quotedString s => cases ht
      | template t =>
        dsimp only
        split
        · exact .error _ (.inl ⟨rfl, rfl⟩)
        · have hquoted : t.quoted = false := ht
          exact hplain (by simp [Ast.anyQuoted, Ast.hasQuoted, hquoted]) _ _
      | lparen =>
        have hinner := ih hQ hnew withComments (depth + 1) lb
        dsimp only
        generalize hr : loop withComments bound (depth + 1) ⟨lb, b⟩ [] = r at hinner ⊢
        generalize hr' : loop withComments bound (depth + 1) ⟨lb, b'⟩ [] = r' at hinner ⊢
        cases hinner with
        | plain h => exact hplain (by simp [Ast.anyQuoted, Ast.hasQuoted, h]) _ _
        | error e h => exact .error e h
        | altered h =>
          obtain ⟨l, x, y, l', rfl, rfl, h⟩ := h
          exact haltered (.list h (loop_isComment hr) (loop_isComment hr')) _ _
      | rparen | eof =>
        dsimp only
        split
        · exact .error _ (.inl ⟨rfl, rfl⟩)
        · exact .plain rfl
      | comment lines =>
        dsimp only
        split
        · exact hplain rfl _ _
        · exact ih hQ hnew _ _ _

end Loop

end Parser

end Dune.Sexp
