import Dune.Lang.Format
import Dune.Sexp.LineLag

/-!
# Parsing with and without comments

Parsing a text as `Cst` and erasing the comments gives the S-expressions that parsing it as `Ast`
gives, with the same offsets and columns. The line numbers are the same as long as no S-expression
starts or ends behind a comment of more than one line (`Cst.counted`).
-/

namespace Dune.Sexp

open Dune.Stdune Lexer Encoded
open EStateM (Result)

mutual

/-- The lines of comments that `comment_trail` reads without counting them. -/
def Cst.uncounted : Cst → Nat
  | .list _ l => uncountedAll l
  | .comment _ lines => lines.length - 1
  | _ => 0

def Cst.uncountedAll : List Cst → Nat
  | [] => 0
  | c :: l => c.uncounted + uncountedAll l

end

/-- After `d` lines that were not counted, only comments follow. -/
def Cst.counted (d : Nat) : List Cst → Bool
  | [] => true
  | .comment _ lines :: l => counted (d + (lines.length - 1)) l
  | c :: l => d + c.uncounted = 0 && counted d l

/-- Where every line is counted, it does not matter what follows. -/
theorem Cst.counted_of_uncounted {l : List Cst} (h : uncountedAll l = 0) : counted 0 l = true := by
  induction l with
  | nil => rfl
  | cons c l ih =>
    rw [uncountedAll, Nat.add_eq_zero_iff] at h
    cases c with
    | comment loc lines =>
      have hlines : lines.length - 1 = 0 := h.1
      rw [counted, hlines]
      exact ih h.2
    | atom | quotedString | template | list => simp [counted, h.1, ih h.2]

namespace Parser

/-! ## S-expressions behind by some lines -/

/-- A leaf that is `d` lines behind. -/
inductive LeafBehind (d : Nat) : Ast → Ast → Prop
  | atom (loc : Loc) (a : Bytes) : LeafBehind d (.atom loc a) (.atom (loc.addLines d) a)
  | quotedString (loc : Loc) (s : Bytes) :
      LeafBehind d (.quotedString loc s) (.quotedString (loc.addLines d) s)
  | template {quoted : Bool} {parts parts' : List Part} (loc : Loc) :
      List.Forall₂ (Part.Rel (PformBehind d)) parts parts' →
      LeafBehind d (.template ⟨quoted, parts, loc⟩) (.template ⟨quoted, parts', loc.addLines d⟩)

variable {d depth bound : Nat}

theorem addLines_eq_iff {loc : Loc} : loc = loc.addLines d ↔ d = 0 := by
  constructor
  · intro h
    exact Position.addLines_inj (congrArg Loc.start h)
  · rintro rfl
    simp [Loc.addLines, Position.addLines_zero]

theorem LeafBehind.eq_iff {x x' : Ast} (h : LeafBehind d x x') : x = x' ↔ d = 0 := by
  cases h with
  | atom loc a => rw [Ast.atom.injEq, addLines_eq_iff, and_iff_left rfl]
  | quotedString loc s => rw [Ast.quotedString.injEq, addLines_eq_iff, and_iff_left rfl]
  | template loc hparts =>
    rw [Ast.template.injEq, Template.mk.injEq, addLines_eq_iff]
    constructor
    · exact fun h => h.2.2
    · rintro rfl
      have hparts := hparts.imp fun _ _ hx => (hx.mono PformBehind.eq).eq
      rw [List.forall₂_eq_eq_eq] at hparts
      exact ⟨rfl, hparts, rfl⟩

/-- What the loop reads with comments and without, when the first run is `d` lines behind at the
start and `d'` lines at the end. -/
inductive Lags : Nat → List Ast → List Ast → Nat → Prop
  | nil (d : Nat) : Lags d [] [] d
  | comment {d d' k : Nat} {loc : Loc} {lines : List Bytes} {l l' : List Ast} :
      lines.length = k + 1 → Lags (d + k) l l' d' →
      Lags d (comment loc lines :: l) l' d'
  | leaf {d d' : Nat} {x x' : Ast} {l l' : List Ast} : LeafBehind d x x' → Lags d l l' d' →
      Lags d (x :: l) (x' :: l') d'
  | list {d d₁ d' : Nat} {start stop : Position} {inner inner' l l' : List Ast} :
      isComment inner = false → Lags d inner inner' d₁ → Lags d₁ l l' d' →
      Lags d (.list ⟨start, stop⟩ inner :: l)
        (.list ⟨start.addLines d, stop.addLines d₁⟩ inner' :: l') d'

theorem commentLines_map (lines : List Bytes) :
    commentLines (lines.map fun line => .quotedString .none line) = .ok lines := by
  induction lines with
  | nil => rfl
  | cons line lines ih =>
    rw [List.map_cons, commentLines, ih]
    rfl

theorem toCst_encoded (loc : Loc) (lines : List Bytes) :
    toCst (comment loc lines) = .ok (.comment loc lines) := by
  rw [comment, toCst, if_pos rfl, commentLines_map]
  rfl

theorem toCsts_cons {x : Ast} {c : Cst} {l : List Ast} {csts : List Cst} (hx : toCst x = .ok c)
    (hl : toCsts l = .ok csts) : toCsts (x :: l) = .ok (c :: csts) := by
  rw [toCsts, hx, hl]
  rfl

/-- A leaf is decoded to a leaf, which stands for itself. -/
theorem LeafBehind.toCst {d : Nat} {x x' : Ast} (h : LeafBehind d x x') :
    ∃ c, toCst x = .ok c ∧ c.abstract = some x ∧ c.uncounted = 0 ∧
      ∀ d l, Cst.counted d (c :: l) = (decide (d + c.uncounted = 0) && Cst.counted d l) := by
  cases h with
  | atom loc a => exact ⟨.atom loc a, by rw [Encoded.toCst], rfl, rfl, fun _ _ => rfl⟩
  | quotedString loc s => exact ⟨.quotedString loc s, by rw [Encoded.toCst], rfl, rfl,
      fun _ _ => rfl⟩
  | template loc => exact ⟨.template _, by rw [Encoded.toCst], rfl, rfl, fun _ _ => rfl⟩

/-- The comments are decoded, and erasing them gives what the other run has read exactly when every
line is counted. -/
theorem Lags.filterMapAbstract_iff {d' : Nat} {l l' : List Ast} (h : Lags d l l' d') :
    ∃ csts, toCsts l = .ok csts ∧ d' = d + Cst.uncountedAll csts ∧
      (Cst.filterMapAbstract csts = l' ↔ Cst.counted d csts = true) := by
  induction h with
  | nil d => exact ⟨[], by rw [toCsts], rfl, by simp [Cst.filterMapAbstract, Cst.counted]⟩
  | @comment d d' k loc lines l l' hlines _ ih =>
    obtain ⟨csts, hcsts, hd, hiff⟩ := ih
    refine ⟨_, toCsts_cons (toCst_encoded loc lines) hcsts, ?_, ?_⟩
    · rw [hd, Cst.uncountedAll, Cst.uncounted, hlines]
      omega
    · rw [Cst.counted, hlines]
      exact hiff
  | @leaf d d' x x' l l' hx _ ih =>
    obtain ⟨csts, hcsts, hd, hiff⟩ := ih
    obtain ⟨c, hc, habstract, huncounted, hcounted⟩ := hx.toCst
    refine ⟨_, toCsts_cons hc hcsts, ?_, ?_⟩
    · rw [hd, Cst.uncountedAll, huncounted, Nat.zero_add]
    · rw [Cst.filterMapAbstract, habstract, hcounted, huncounted, Bool.and_eq_true,
        decide_eq_true_eq,
        Nat.add_zero, ← hiff, ← hx.eq_iff]
      exact List.cons_eq_cons
  | @list d d₁ d' start stop inner inner' l l' hcomment _ _ ihinner ih =>
    obtain ⟨ci, hci, hd₁, hiffinner⟩ := ihinner
    obtain ⟨csts, hcsts, hd, hiff⟩ := ih
    have hlist : toCst (.list ⟨start, stop⟩ inner) = .ok (.list ⟨start, stop⟩ ci) := by
      rw [toCst_list hcomment, hci]
      rfl
    refine ⟨_, toCsts_cons hlist hcsts, ?_, ?_⟩
    · rw [hd, hd₁, Cst.uncountedAll, Cst.uncounted]
      omega
    · simp only [Cst.filterMapAbstract, Cst.abstract, Cst.counted, Cst.uncounted, List.cons.injEq,
        Ast.list.injEq, Bool.and_eq_true, Loc.mk.injEq]
      constructor
      · rintro ⟨⟨⟨-, hstop⟩, -⟩, htail⟩
        obtain rfl : d₁ = 0 := Position.addLines_inj hstop
        obtain rfl : d = 0 := by omega
        exact ⟨decide_eq_true hd₁.symm, hiff.mp htail⟩
      · rintro ⟨hzero, htail⟩
        have hzero := of_decide_eq_true hzero
        obtain ⟨rfl, hinner⟩ := Nat.add_eq_zero_iff.mp hzero
        obtain rfl : d₁ = 0 := hd₁.trans hzero
        refine ⟨⟨⟨?_, ?_⟩, hiffinner.mpr (Cst.counted_of_uncounted hinner)⟩, hiff.mpr htail⟩
        · exact start.addLines_zero.symm
        · exact stop.addLines_zero.symm

/-! ## The loop -/

/-- How the loop ends in the two runs: both fail, or both have read what `Lags` says. -/
inductive LoopFollows (d depth : Nat) :
    Result Failure State (List Ast) → Result Failure State (List Ast) → Prop
  | error {e e' : Failure} {st st' : State} : LoopFollows d depth (.error e st) (.error e' st')
  | ok {d' : Nat} {l l' : List Ast} {st st' : State} : Lags d l l' d' →
      (0 < depth → st.Rel (.behind d') (Buffer.Behind d') st') →
      LoopFollows d depth (.ok l st) (.ok l' st')

theorem LoopFollows.prepend {d₁ : Nat} {pre pre' : List Ast}
    {r r' : Result Failure State (List Ast)} (h : LoopFollows d₁ depth r r')
    (hpre : ∀ {l l' d'}, Lags d₁ l l' d' → Lags d (pre ++ l) (pre' ++ l') d') :
    LoopFollows d depth (Parser.prepend pre r) (Parser.prepend pre' r') := by
  cases h with
  | error => exact .error
  | ok hlags hrel => exact .ok (hpre hlags) hrel

theorem loop_congr_token {withComments : Bool} {st st' : State} {acc : List Ast}
    (hbound : 0 < bound) (h : token withComments st = token withComments st') :
    loop withComments bound depth st acc = loop withComments bound depth st' acc := by
  obtain ⟨bound, rfl⟩ : ∃ n, bound = n + 1 := ⟨bound - 1, by omega⟩
  simp only [loop, h]

theorem loop_follows {bound' : Nat} {st st' : State} (hbound : st.rest.length < bound)
    (hbound' : st.rest.length < bound') (h : Follows d st st') :
    LoopFollows d depth (loop true bound depth st []) (loop false bound' depth st' []) := by
  induction bound generalizing bound' depth d st st' with
  | zero => omega
  | succ bound ih =>
    obtain ⟨bound', rfl⟩ : ∃ n, bound' = n + 1 := ⟨bound' - 1, by omega⟩
    -- One leaf is read in both runs, and they go on.
    have hleaf {x x' : Ast} {st₁ st₁' : State} (hx : LeafBehind d x x')
        (hrel : st₁.Rel (.behind d) (Buffer.Behind d) st₁')
        (hlt : st₁.rest.length < st.rest.length) :
        LoopFollows d depth (loop true bound depth st₁ [x])
          (loop false bound' depth st₁' [x']) := by
      rw [loop_acc, loop_acc false bound' depth st₁' [x']]
      exact (ih (by omega) (by omega) (.of_rel hrel)).prepend fun h => .leaf hx h
    obtain htoken | ⟨k, lines, st₁, st₁', htrue, hlines, hfalse, hfollows⟩ := token_follows h
    · generalize hr : token true st = r at htoken
      generalize hr' : token false st' = r' at htoken
      cases htoken with
      | error =>
        simp only [loop, hr, hr']
        exact .error
      | eof =>
        simp only [loop, hr, hr']
        split
        · exact .error
        · next hdepth => exact .ok (.nil d) fun hpos => absurd hpos hdepth
      | rparen hrel =>
        simp only [loop, hr, hr']
        split
        · exact .error
        · exact .ok (.nil d) fun _ => hrel
      | @lparen st₁ st₁' hrel =>
        have hlt : st₁.rest.length < st.rest.length := token_lt hr (by simp)
        have hinner : LoopFollows d (depth + 1) (loop true bound (depth + 1) st₁ [])
            (loop false bound' (depth + 1) st₁' []) :=
          ih (by omega) (by omega) (.of_rel hrel)
        have hwithin : Within st₁.rest.length (loop true bound (depth + 1) st₁ []) :=
          loop_within (by omega)
        simp only [loop, hr, hr']
        generalize hri : loop true bound (depth + 1) st₁ [] = ri at hinner hwithin
        generalize loop false bound' (depth + 1) st₁' [] = ri' at hinner
        cases hinner with
        | error => exact .error
        | @ok d₁ inner inner' st₂ st₂' hlags hrel₂ =>
          have hrel₂ := hrel₂ (Nat.succ_pos depth)
          have hle : st₂.rest.length ≤ st₁.rest.length := hwithin
          have hstart : st₁'.lexbuf.startP = st₁.lexbuf.startP.addLines d := hrel.1.2.1
          have hstop : st₂'.lexbuf.currP = st₂.lexbuf.currP.addLines d₁ := hrel₂.1.2.2
          dsimp only
          rw [hstart, hstop, loop_acc, loop_acc false bound' depth st₂']
          refine (ih (by omega) (by omega) (.of_rel hrel₂)).prepend fun h => ?_
          exact .list (loop_isComment hri) hlags h
      | @text t t' st₁ st₁' ht hrel =>
        have hloc : st₁'.lexbuf.loc = st₁.lexbuf.loc.addLines d := by
          simp only [Lexbuf.loc, hrel.1.2.1, hrel.1.2.2, Loc.addLines]
        cases ht with
        | atom a =>
          simp only [loop, hr, hr', hloc]
          exact hleaf (.atom _ a) hrel (token_lt hr (by simp))
        | quotedString s =>
          simp only [loop, hr, hr', hloc]
          exact hleaf (.quotedString _ s) hrel (token_lt hr (by simp))
        | @template quoted parts parts' loc hne hparts =>
          have hne' : parts' ≠ [] := by
            rintro rfl
            cases hparts
            exact hne rfl
          have hmarker {loc : Loc} : Template.mk quoted parts loc ≠ commentMarker :=
            fun h => hne (congrArg Template.parts h)
          have hmarker' {loc : Loc} : Template.mk quoted parts' loc ≠ commentMarker :=
            fun h => hne' (congrArg Template.parts h)
          simp only [loop, hr, hr', hloc, hmarker, hmarker', if_false]
          exact hleaf (.template _ hparts) hrel (token_lt hr (by simp))
    · have hlt : st₁.rest.length < st.rest.length := token_lt htrue (by simp)
      have hcomment : loop true (bound + 1) depth st [] =
          loop true bound depth st₁ [comment st₁.lexbuf.loc lines] := by
        simp [loop, htrue]
      rw [hcomment, loop_congr_token (Nat.succ_pos bound') hfalse, loop_acc]
      have hnext : LoopFollows (d + k) depth (loop true bound depth st₁ [])
          (loop false (bound' + 1) depth st₁' []) :=
        ih (by omega) (by omega) hfollows
      have hnil (r : Result Failure State (List Ast)) : prepend [] r = r := by cases r <;> rfl
      rw [← hnil (loop false (bound' + 1) depth st₁' [])]
      exact hnext.prepend fun h => .comment hlines h

/-! ## Refinement -/

variable (pathName : String → Except Exn String)

/-- Parsing as `Cst`, in a process that has made the calls of `history`. -/
def parseCst (history : List Request) (fname : String) (text : Bytes) : Except Exn (List Cst) :=
  (⟨fname, .of .cst, text⟩ : Request).outcome pathName (bufferAfter pathName history)

/-- Parsing as `Ast`, in a process that has made the calls of `history`. -/
def parseAst (history : List Request) (fname : String) (text : Bytes) : Except Exn (List Ast) :=
  (⟨fname, .of .many, text⟩ : Request).outcome pathName (bufferAfter pathName history)

/-- Both parsers fail, or both succeed and erasing the comments of the first result gives the
second one, locations included. -/
def Refines : Except Exn (List Cst) → Except Exn (List Ast) → Prop
  | .error _, .error _ => True
  | .ok csts, .ok asts => Cst.filterMapAbstract csts = asts
  | _, _ => False

/-- The parsers fail on the same texts, and the comments make no other difference than to the line
numbers. -/
theorem parse_cases (history : List Request) (fname : String) (text : Bytes) :
    (∃ e e', parseCst pathName history fname text = .error e ∧
        parseAst pathName history fname text = .error e') ∨
      ∃ csts asts, parseCst pathName history fname text = .ok csts ∧
        parseAst pathName history fname text = .ok asts ∧
        (Cst.filterMapAbstract csts = asts ↔ Cst.counted 0 csts = true) := by
  unfold parseCst parseAst
  have hok := bufferAfter_ok pathName history
  generalize bufferAfter pathName history = b at hok
  have hfollows : Follows 0 ⟨.fromString fname text, b⟩ ⟨.fromString fname text, b⟩ :=
    ⟨rfl, .refl hok, rfl, rfl, (Int.add_zero _).symm, .inr rfl⟩
  have hloop : LoopFollows 0 0 ((⟨fname, .of .cst, text⟩ : Request).sexps b)
      ((⟨fname, .of .many, text⟩ : Request).sexps b) :=
    loop_follows (Nat.lt_succ_self _) (Nat.lt_succ_self _) hfollows
  generalize hcst : (⟨fname, .of .cst, text⟩ : Request).sexps b = r at hloop
  generalize hast : (⟨fname, .of .many, text⟩ : Request).sexps b = r' at hloop
  cases hloop with
  | error =>
    obtain ⟨x, rfl⟩ := Request.sexps_raises hcst
    obtain ⟨x', rfl⟩ := Request.sexps_raises hast
    exact .inl ⟨x, x', Request.outcome_error hcst, Request.outcome_error hast⟩
  | @ok d' l l' st st' hlags =>
    obtain ⟨csts, hcsts, -, hiff⟩ := hlags.filterMapAbstract_iff
    exact .inr ⟨csts, l', (Request.outcome_ok hcst).trans hcsts, Request.outcome_ok hast, hiff⟩

/-- The parsers fail on the same texts. On the others erasing the comments gives the S-expressions
with their locations exactly when no S-expression starts or ends behind a comment of more than one
line. -/
theorem cst_refines_iff (history : List Request) (fname : String) (text : Bytes) :
    ((∃ e, parseCst pathName history fname text = .error e) ↔
        ∃ e, parseAst pathName history fname text = .error e) ∧
      (Refines (parseCst pathName history fname text) (parseAst pathName history fname text) ↔
        ∀ csts, parseCst pathName history fname text = .ok csts → Cst.counted 0 csts = true) := by
  obtain ⟨e, e', hcst, hast⟩ | ⟨csts, asts, hcst, hast, hiff⟩ :=
    parse_cases pathName history fname text
  · rw [hcst, hast]
    simp [Refines]
  · rw [hcst, hast]
    simp [Refines, hiff]

/-- In the text `;a`, `;b`, `x` the atom is on the third line; behind the comment it is read as on
the second one. -/
theorem cst_lags_after_comment : let text : Bytes := [59, 97, 10, 59, 98, 10, 120]
    let loc (line : Int) : Loc := ⟨⟨"dune", line, 6, 6⟩, ⟨"dune", line, 6, 7⟩⟩
    parseCst .ok [] "dune" text =
        .ok [.comment ⟨⟨"dune", 1, 0, 5⟩, ⟨"dune", 1, 0, 5⟩⟩ [[97], [98]], .atom (loc 2) [120]] ∧
      parseAst .ok [] "dune" text = .ok [.atom (loc 3) [120]] ∧
      ¬Refines (parseCst .ok [] "dune" text) (parseAst .ok [] "dune" text) := by
  refine ⟨rfl, rfl, fun h => ?_⟩
  cases h

end Parser

end Dune.Sexp
