import Dune.Sexp.BufferRel

/-!
# Parses one after another

The lexer keeps its buffer in global variables, so a parse starts with what the earlier ones have
left there. `new_token` clears the text but not the parts of a template. A parse that fails between
a percent form and the closing quote leaves its parts behind, and the next string in quotes starts
with them.
-/

namespace Dune.Sexp

open Dune.Stdune Lexer Buffer
open EStateM (Result)

/-! ## Calls of the parser -/

namespace Parser

/-- The modes of the parser, with `Many_as_one`. -/
inductive AnyMode where
  | of (mode : Mode)
  | manyAsOne
deriving DecidableEq, Repr

def AnyMode.Output : AnyMode → Type
  | .of mode => mode.Output
  | .manyAsOne => Ast

def AnyMode.withComments : AnyMode → Bool
  | .of mode => mode.withComments
  | .manyAsOne => false

section Calls

-- The name of the path that `Path.of_string` makes, which may raise.
variable (pathName : String → Except Exn String)

def AnyMode.makeResult : (mode : AnyMode) → Lexbuf → List Ast → Except Exn mode.Output
  | .of mode, lb, sexps => mode.makeResult lb sexps
  | .manyAsOne, lb, sexps =>
    match sexps with
    | [] => do
      let name ← pathName lb.currP.fname
      return .list (.inFile name) []
    | x :: l =>
      let last := l.foldl (fun _ x => x) x
      .ok (.list ⟨x.loc.start, last.loc.stop⟩ (x :: l))

def AnyMode.parse (mode : AnyMode) (st : State) : Result Failure State mode.Output :=
  match loop mode.withComments (st.rest.length + 1) 0 st [] with
  | .error e st => .error e st
  | .ok sexps st =>
    match mode.makeResult pathName st.lexbuf sexps with
    | .error e => .error (.raised e) st
    | .ok result => .ok result st

/-- The parser returns or raises an exception. -/
theorem AnyMode.parse_ne_outOfBound (mode : AnyMode) (st st' : State) :
    mode.parse pathName st ≠ .error .outOfBound st' := by
  have hloop : Within st.rest.length (loop mode.withComments (st.rest.length + 1) 0 st []) :=
    loop_within (Nat.lt_succ_self _)
  unfold AnyMode.parse
  split
  · next e st'' heq =>
    rw [heq] at hloop
    intro h
    cases h
    exact hloop rfl
  · split <;> nofun

def AnyMode.outcome (mode : AnyMode) (st : State) : Except Exn mode.Output :=
  match h : mode.parse pathName st with
  | .ok result _ => .ok result
  | .error (.raised e) _ => .error e
  | .error .outOfBound st' => absurd h (mode.parse_ne_outOfBound pathName st st')

theorem AnyMode.outcome_ok {mode : AnyMode} {st st' : State} {sexps : List Ast}
    (h : loop mode.withComments (st.rest.length + 1) 0 st [] = .ok sexps st') :
    mode.outcome pathName st = mode.makeResult pathName st'.lexbuf sexps := by
  have hparse : mode.parse pathName st =
      match mode.makeResult pathName st'.lexbuf sexps with
      | .error e => .error (.raised e) st'
      | .ok result => .ok result st' := by
    simp only [AnyMode.parse, h]
  unfold AnyMode.outcome
  cases hmake : mode.makeResult pathName st'.lexbuf sexps with
  | ok result | error e =>
    rw [hmake] at hparse
    split <;> simp_all

theorem AnyMode.outcome_error {mode : AnyMode} {st st' : State} {e : Exn}
    (h : loop mode.withComments (st.rest.length + 1) 0 st [] = .error (.raised e) st') :
    mode.outcome pathName st = .error e := by
  have hparse : mode.parse pathName st = .error (.raised e) st' := by
    simp only [AnyMode.parse, h]
  unfold AnyMode.outcome
  split <;> simp_all

end Calls

end Parser

/-! ## Strings in quotes -/

mutual

/-- The S-expression has a string or a template in quotes. -/
def Cst.hasQuoted : Cst → Bool
  | .atom _ _ => false
  | .quotedString _ _ => true
  | .template t => t.quoted
  | .list _ l => Cst.anyQuoted l
  | .comment _ _ => false

def Cst.anyQuoted : List Cst → Bool
  | [] => false
  | x :: l => x.hasQuoted || Cst.anyQuoted l

end

namespace Encoded

/-- A list that is not a comment is decoded element by element. -/
theorem toCst_list {loc : Loc} {l : List Ast} (h : isComment l = false) :
    toCst (.list loc l) = (toCsts l).map (Cst.list loc) := by
  cases l with
  | nil => rw [toCst, toCsts]; rfl
  | cons x l =>
    cases x with
    | template t =>
      have ht : t ≠ commentMarker := of_decide_eq_false h
      rw [toCst, if_neg ht, toCsts, toCst]
      cases toCsts l <;> rfl
    | atom | quotedString =>
      simp only [toCst, toCsts]
      cases toCsts l <;> rfl
    | list loc' l' =>
      rw [toCst, toCsts]
      · cases toCst (.list loc' l') with
        | error e => rfl
        | ok c => cases toCsts l <;> rfl
      · nofun

theorem toCst_comment {loc : Loc} {l : List Ast} {c : Cst} (h : isComment l = true)
    (hc : toCst (.list loc l) = .ok c) : ∃ lines, c = .comment loc lines := by
  cases l with
  | nil => cases h
  | cons x l =>
    cases x with
    | template t =>
      have ht : t = commentMarker := of_decide_eq_true h
      rw [toCst, if_pos ht] at hc
      obtain ⟨lines, -, hc⟩ := bind_ok hc
      cases hc
      exact ⟨lines, rfl⟩
    | atom | quotedString | list => cases h

mutual

theorem toCst_hasQuoted : (x : Ast) → {c : Cst} → toCst x = .ok c → c.hasQuoted = x.hasQuoted
  | .atom loc a, c, h => by
    rw [toCst] at h
    cases h
    rfl
  | .quotedString loc s, c, h => by
    rw [toCst] at h
    cases h
    rfl
  | .template t, c, h => by
    rw [toCst] at h
    cases h
    rfl
  | .list loc l, c, h => by
    cases hcomment : isComment l with
    | true =>
      obtain ⟨lines, rfl⟩ := toCst_comment hcomment h
      simp [Cst.hasQuoted, Ast.hasQuoted, hcomment]
    | false =>
      rw [toCst_list hcomment] at h
      cases hl : toCsts l with
      | error e => simp [hl, Except.map] at h
      | ok csts =>
        rw [hl] at h
        cases h
        simp [Cst.hasQuoted, Ast.hasQuoted, hcomment, toCsts_anyQuoted l hl]

theorem toCsts_anyQuoted : (l : List Ast) → {csts : List Cst} → toCsts l = .ok csts →
    Cst.anyQuoted csts = Ast.anyQuoted l
  | [], csts, h => by
    rw [toCsts] at h
    cases h
    rfl
  | x :: l, csts, h => by
    rw [toCsts] at h
    obtain ⟨c, hx, h⟩ := bind_ok h
    obtain ⟨cs, hl, h⟩ := bind_ok h
    cases h
    rw [Cst.anyQuoted, Ast.anyQuoted, toCst_hasQuoted x hx, toCsts_anyQuoted l hl]

end

theorem toCsts_append (l l' : List Ast) :
    toCsts (l ++ l') = do
      let csts ← toCsts l
      let csts' ← toCsts l'
      return csts ++ csts' := by
  induction l with
  | nil =>
    rw [List.nil_append, toCsts]
    cases toCsts l' <;> rfl
  | cons x l ih =>
    rw [List.cons_append, toCsts, toCsts, ih]
    cases toCst x with
    | error e => rfl
    | ok c =>
      cases toCsts l with
      | error e => rfl
      | ok csts => cases toCsts l' <;> rfl

end Encoded

/-! ## A buffer with stale parts -/

namespace Lexer

/-- A buffer, and the same buffer with the parts of an earlier template below its own. -/
inductive StaleBy (p : List Part) : Buffer → Buffer → Prop
  | string (text : Bytes) : StaleBy p ⟨text, .string⟩ ⟨text, .template p⟩
  | template (text : Bytes) (v : Pform) (parts : List Part) :
      StaleBy p ⟨text, .template (.pform v :: parts)⟩
        ⟨text, .template (.pform v :: (parts ++ p))⟩

/-- A token in quotes, and the same token with more parts. -/
inductive Staled : Token → Token → Prop
  | string (s : Bytes) (t' : Template) : Staled (.quotedString s) (.template t')
  | template {t t' : Template} : t.quoted = true → t.parts ≠ t'.parts →
      Staled (.template t) (.template t')

theorem closed_staleBy (v : Pform) (parts : List Part) :
    Closed Eq (StaleBy (.pform v :: parts)) Staled where
  addText s h := by
    cases h with
    | string text => exact .string _
    | template text v' parts' => exact .template _ _ _
  addVar hv h := by
    subst hv
    cases h with
    | string text =>
      simp only [addVar, addBufToParts_pform]
      exact .template _ _ _
    | template text v'' parts' =>
      simp only [addVar]
      have hassoc : addBufToParts text [] ++ .pform v'' :: (parts' ++ .pform v :: parts) =
          (addBufToParts text [] ++ .pform v'' :: parts') ++ .pform v :: parts := by
        simp
      rw [addBufToParts_pform, addBufToParts_pform, hassoc]
      exact .template _ _ _
  get h := by
    cases h with
    | string text =>
      exact ⟨_, _, get_string rfl, get_pform rfl, .string _ _⟩
    | template text v'' parts' =>
      refine ⟨_, _, get_pform rfl, get_pform rfl, .template rfl fun h => ?_⟩
      have hlength := congrArg List.length h
      simp only [List.length_reverse, List.length_append, List.length_cons] at hlength
      omega

end Lexer

namespace Parser

/-- Two outcomes: the same exception, or different results. -/
inductive Differ {α : Type} : Except Exn α → Except Exn α → Prop
  | error (e : Exn) : Differ (.error e) (.error e)
  | ok {a a' : α} : a ≠ a' → Differ (.ok a) (.ok a')

theorem Differ.map {α β : Type} {r r' : Except Exn α} (h : Differ r r') (f : α → β)
    (hf : ∀ a a', f a = f a' → a = a') : Differ (r.map f) (r'.map f) := by
  cases h with
  | error e => exact .error e
  | ok hne => exact .ok fun h => hne (hf _ _ h)

theorem Altered.loc {V : Token → Token → Prop} {x y : Ast} (h : Altered V x y) : y.loc = x.loc := by
  cases h with
  | @leaf loc t t' => cases t <;> cases t' <;> rfl
  | list => rfl

section Altered

variable {x y : Ast} {as bs : List Ast}

theorem Altered.hasQuoted (h : Altered Staled x y) : x.hasQuoted = true := by
  induction h with
  | leaf h =>
    cases h with
    | string => rfl
    | template hquoted => exact hquoted
  | @list loc l l' x y h hcomment _ ih =>
    simp [Ast.hasQuoted, hcomment, Ast.anyQuoted_append, Ast.anyQuoted, ih]

theorem AlteredList.anyQuoted (h : AlteredList Staled as bs) : Ast.anyQuoted as = true := by
  obtain ⟨l, x, y, l', rfl, rfl, h⟩ := h
  simp [Ast.anyQuoted_append, Ast.anyQuoted, h.hasQuoted]

theorem Altered.ne (h : Altered Staled x y) : x ≠ y := by
  induction h with
  | leaf h =>
    cases h with
    | string => exact nofun
    | template _ hne =>
      intro h
      simp only [Parser.leaf, Ast.template.injEq, Template.mk.injEq] at h
      exact hne h.2.1
  | list h _ _ ih =>
    intro h
    simp only [Ast.list.injEq, List.append_cancel_left_eq, List.cons.injEq] at h
    exact ih h.2.1

theorem AlteredList.ne (h : AlteredList Staled as bs) : as ≠ bs := by
  obtain ⟨l, x, y, l', rfl, rfl, h⟩ := h
  intro heq
  simp only [List.append_cancel_left_eq, List.cons.injEq] at heq
  exact h.ne heq.1

theorem toCsts_differ {l l' : List Ast} (h : Differ (Encoded.toCst x) (Encoded.toCst y)) :
    Differ (Encoded.toCsts (l ++ x :: l')) (Encoded.toCsts (l ++ y :: l')) := by
  rw [Encoded.toCsts_append, Encoded.toCsts_append, Encoded.toCsts, Encoded.toCsts]
  cases Encoded.toCsts l with
  | error e => exact .error e
  | ok csts =>
    generalize Encoded.toCst x = r at h
    generalize Encoded.toCst y = r' at h
    cases h with
    | error e => exact .error e
    | ok hne =>
      cases Encoded.toCsts l' with
      | error e => exact .error e
      | ok csts' => exact .ok (by simpa using hne)

theorem Altered.toCst (h : Altered Staled x y) : Differ (Encoded.toCst x) (Encoded.toCst y) := by
  induction h with
  | leaf h =>
    cases h with
    | string =>
      simp only [Parser.leaf, Encoded.toCst]
      exact .ok fun h => by cases h
    | template _ hne =>
      simp only [Parser.leaf, Encoded.toCst]
      refine .ok fun h => hne ?_
      simp only [Cst.template.injEq, Template.mk.injEq] at h
      exact h.2.1
  | @list loc l l' x y h hx hy ih =>
    rw [Encoded.toCst_list hx, Encoded.toCst_list hy]
    exact (toCsts_differ ih).map (Cst.list loc) fun _ _ h => (Cst.list.inj h).2

end Altered

/-- The result has a string or a template in quotes. -/
def AnyMode.hasQuoted : (mode : AnyMode) → mode.Output → Bool
  | .of .single, sexp => Ast.hasQuoted sexp
  | .of .many, sexps => Ast.anyQuoted sexps
  | .of .cst, csts => Cst.anyQuoted csts
  | .manyAsOne, sexp => Ast.hasQuoted sexp

section Outcomes

variable {pathName : String → Except Exn String} {mode : AnyMode}

theorem AnyMode.hasQuoted_makeResult {lb : Lexbuf} {l : List Ast} {result : mode.Output}
    (hcomment : Encoded.isComment l = false) (h : mode.makeResult pathName lb l = .ok result) :
    mode.hasQuoted result = Ast.anyQuoted l := by
  cases mode with
  | manyAsOne =>
    cases l with
    | nil =>
      obtain ⟨name, -, h⟩ := bind_ok h
      cases h
      rfl
    | cons x l =>
      cases h
      simp [AnyMode.hasQuoted, Ast.hasQuoted, hcomment]
  | of mode =>
    cases mode with
    | many =>
      cases h
      rfl
    | cst => exact Encoded.toCsts_anyQuoted l h
    | single =>
      match l, h with
      | [x], h =>
        cases h
        simp [AnyMode.hasQuoted, Ast.anyQuoted]

/-- One different token gives a different result, unless the call fails for another reason. -/
theorem AnyMode.makeResult_differ {lb : Lexbuf} {as bs : List Ast} (h : AlteredList Staled as bs) :
    Differ (mode.makeResult pathName lb as) (mode.makeResult pathName lb bs) := by
  have hne := h.ne
  obtain ⟨l, x, y, l', rfl, rfl, h⟩ := h
  cases mode with
  | manyAsOne => cases l <;> exact .ok fun h => hne (Ast.list.inj h).2
  | of mode =>
    cases mode with
    | many => exact .ok hne
    | cst => exact toCsts_differ h.toCst
    | single =>
      match l, l' with
      | [], [] => exact .ok h.ne
      | [], _ :: _ => exact .error _
      | [z], l' =>
        have hsecond : Mode.makeResult .single lb ([z] ++ y :: l') =
            Mode.makeResult .single lb ([z] ++ x :: l') := by
          simp [Mode.makeResult, h.loc]
        rw [AnyMode.makeResult, AnyMode.makeResult, hsecond]
        exact .error _
      | _ :: _ :: _, _ => exact .error _

end Outcomes

/-! ## Histories -/

structure Request where
  fname : String
  mode : AnyMode
  text : Bytes

def Request.start (r : Request) (b : Buffer) : State := ⟨.fromString r.fname r.text, b⟩

def Request.sexps (r : Request) (b : Buffer) : Result Failure State (List Ast) :=
  loop r.mode.withComments (r.text.length + 1) 0 (r.start b) []

def bufferOf {α : Type} : Result Failure State α → Buffer
  | .ok _ st | .error _ st => st.buffer

section Histories

variable (pathName : String → Except Exn String)

/-- What the call returns or raises when the buffer is `b`. -/
def Request.outcome (r : Request) (b : Buffer) : Except Exn r.mode.Output :=
  r.mode.outcome pathName (r.start b)

/-- The buffer of a process that has made the calls of `history`. -/
def bufferAfter (history : List Request) : Buffer :=
  history.foldl (fun b r => bufferOf (r.mode.parse pathName (r.start b))) .init

/-- The call returns and its result has a string or a template in quotes. -/
def Request.readsQuoted (r : Request) (b : Buffer) : Bool :=
  match r.outcome pathName b with
  | .ok result => r.mode.hasQuoted result
  | .error _ => false

variable {b : Buffer}

theorem Request.sexps_rel (r : Request) {Q : Buffer → Buffer → Prop} {V : Token → Token → Prop}
    (hQ : Closed Eq Q V) {b' : Buffer} (hnew : Q b.newToken b'.newToken) :
    LoopRel Q V b b' (r.sexps b) (r.sexps b') :=
  loop_rel hQ hnew _ _ _ _

section Sexps

variable {pathName} {r : Request} {b : Buffer} {st : State}

theorem Request.outcome_ok {sexps : List Ast} (h : r.sexps b = .ok sexps st) :
    r.outcome pathName b = r.mode.makeResult pathName st.lexbuf sexps :=
  AnyMode.outcome_ok pathName h

theorem Request.outcome_error {x : Exn} (h : r.sexps b = .error (.raised x) st) :
    r.outcome pathName b = .error x :=
  AnyMode.outcome_error pathName h

theorem Request.sexps_raises {e : Failure} (h : r.sexps b = .error e st) : ∃ x, e = .raised x := by
  have hloop : Within r.text.length (r.sexps b) := loop_within (Nat.lt_succ_self _)
  rw [h] at hloop
  cases e with
  | raised x => exact ⟨x, rfl⟩
  | outOfBound => exact absurd rfl hloop

end Sexps

theorem Request.bufferOf_parse (r : Request) (b : Buffer) :
    bufferOf (r.mode.parse pathName (r.start b)) = bufferOf (r.sexps b) := by
  unfold AnyMode.parse Request.sexps
  change bufferOf (match loop r.mode.withComments (r.text.length + 1) 0 (r.start b) [] with
    | .error e st => .error e st
    | .ok sexps st => _) = _
  cases loop r.mode.withComments (r.text.length + 1) 0 (r.start b) [] with
  | error e st => rfl
  | ok sexps st =>
    dsimp only
    cases r.mode.makeResult pathName st.lexbuf sexps <;> rfl

/-- A loop started with a buffer leaves it, or empties it, or fails with a template in it. -/
theorem Request.bufferOf_sexps_ok (r : Request) (hok : b.Ok) : (bufferOf (r.sexps b)).Ok := by
  have hnew : b.newToken = b.newToken ∧ b.newToken.Ok := ⟨rfl, hok⟩
  have hloop := r.sexps_rel closed_ok hnew
  cases hr : r.sexps b with
  | ok l st =>
    obtain ⟨lb', c⟩ := st
    rw [hr] at hloop
    cases hloop with
    | plain => exact hok
    | altered => exact init_ok
  | error e st =>
    obtain ⟨lb', c⟩ := st
    rw [hr] at hloop
    cases hloop with
    | error _ h =>
      obtain ⟨rfl, -⟩ | ⟨-, h⟩ | ⟨-, h⟩ := h
      · exact hok
      · exact h
      · exact h

theorem bufferAfter_ok (history : List Request) : (bufferAfter pathName history).Ok := by
  suffices ∀ b : Buffer, b.Ok →
      (history.foldl (fun b r => bufferOf (r.mode.parse pathName (r.start b))) b).Ok from
    this .init init_ok
  induction history with
  | nil => exact fun b hb => hb
  | cons r history ih =>
    intro b hb
    have hnext := r.bufferOf_sexps_ok hb
    rw [← r.bufferOf_parse pathName] at hnext
    exact ih _ hnext

/-! ## The outcome and the buffer -/

theorem Altered.eq {x y : Ast} (h : Altered Eq x y) : x = y := by
  induction h with
  | leaf h => rw [h]
  | list _ _ _ ih => rw [ih]

/-- A buffer that holds no template does not matter. -/
theorem Request.outcome_of_string (r : Request) (hb : b.state = .string) :
    r.outcome pathName b = r.outcome pathName .init := by
  have hnew : b.newToken = init.newToken ∧ init.newToken.Ok := by
    refine ⟨?_, init_ok⟩
    unfold newToken
    rw [hb]
    rfl
  have hloop := r.sexps_rel closed_ok hnew
  generalize hr : r.sexps .init = res at hloop
  generalize hr' : r.sexps b = res' at hloop
  cases hloop with
  | plain => rw [outcome_ok hr, outcome_ok hr']
  | altered h =>
    obtain ⟨l, x, y, l', rfl, rfl, h⟩ := h
    rw [outcome_ok hr, outcome_ok hr', h.eq]
  | error e =>
    obtain ⟨x, rfl⟩ := sexps_raises hr
    rw [outcome_error hr, outcome_error hr']

/-- A buffer that holds a template matters to a call that reads a string in quotes, and only to
such a call. -/
theorem Request.outcome_of_template (r : Request) (hok : b.Ok) {parts : List Part}
    (hb : b.state = .template parts) :
    r.outcome pathName b = r.outcome pathName .init ↔ r.readsQuoted pathName .init = false := by
  obtain ⟨v, parts, rfl⟩ := hok parts hb
  have hnew : StaleBy (.pform v :: parts) init.newToken b.newToken := by
    unfold newToken
    rw [hb]
    exact .string []
  have hloop := r.sexps_rel (closed_staleBy v parts) hnew
  unfold readsQuoted
  generalize hr : r.sexps .init = res at hloop
  generalize hr' : r.sexps b = res' at hloop
  cases hloop with
  | @plain l lb hplain =>
    rw [outcome_ok hr, outcome_ok hr']
    cases hmake : r.mode.makeResult pathName lb l with
    | error e => simp
    | ok result => simp [AnyMode.hasQuoted_makeResult (loop_isComment hr) hmake, hplain]
  | @altered as bs lb h =>
    rw [outcome_ok hr, outcome_ok hr']
    have hdiffer : Differ (r.mode.makeResult pathName lb as) (r.mode.makeResult pathName lb bs) :=
      AnyMode.makeResult_differ h
    generalize hmake : r.mode.makeResult pathName lb as = o at hdiffer
    generalize r.mode.makeResult pathName lb bs = o' at hdiffer
    cases hdiffer with
    | error e => simp
    | ok hne =>
      simp [AnyMode.hasQuoted_makeResult (loop_isComment hr) hmake, h.anyQuoted, hne.symm]
  | error e =>
    obtain ⟨x, rfl⟩ := sexps_raises hr
    simp [outcome_error hr, outcome_error hr']

/-- A call returns or raises what it would in a fresh process exactly when no parse has left a
template in the buffer, or the call reads no string in quotes. -/
theorem outcome_eq_fresh_iff (history : List Request) (r : Request) :
    r.outcome pathName (bufferAfter pathName history) = r.outcome pathName .init ↔
      (bufferAfter pathName history).state = .string ∨ r.readsQuoted pathName .init = false := by
  cases hstate : (bufferAfter pathName history).state with
  | string => simp [r.outcome_of_string pathName hstate]
  | template parts =>
    rw [r.outcome_of_template pathName (bufferAfter_ok pathName history) hstate]
    simp

end Histories

/-- After a string that is not closed, the next string starts with the percent form in it. The
texts are `"%{x}` and `"a"`. -/
theorem stale_template :
    let history : List Request := [⟨"dune", .of .many, [34, 37, 123, 120, 125]⟩]
    let r : Request := ⟨"dune", .of .many, [34, 97, 34]⟩
    let loc : Loc := ⟨⟨"dune", 1, 0, 0⟩, ⟨"dune", 1, 0, 3⟩⟩
    let v : Pform := ⟨⟨⟨"dune", 1, 0, 1⟩, ⟨"dune", 1, 0, 5⟩⟩, [120], none⟩
    r.outcome .ok (bufferAfter .ok history) =
        .ok [.template ⟨true, [.pform v, .text [97]], loc⟩] ∧
      r.outcome .ok .init = .ok [.quotedString loc [97]] ∧
      r.outcome .ok (bufferAfter .ok history) ≠ r.outcome .ok .init := by
  refine ⟨rfl, rfl, fun h => ?_⟩
  cases h

end Parser

end Dune.Sexp
