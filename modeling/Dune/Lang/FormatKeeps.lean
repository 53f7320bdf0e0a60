import Dune.Lang.Format

/-!
# What the formatter keeps

`format_keeps_iff`: the document of the formatter has the tokens and comments of its input, and is
read back, exactly when every template can be printed, no list that is displayed wrapped has a
comment in it, and no comment is put on the line of another. A list is displayed wrapped when its
elements are words or lists of at most one element, and the comments inside those lists are not
printed.
-/

open List (all_cons mem_cons_of_mem append_nil isChain_append isChain_cons flatMap_cons)

namespace Dune.Lang

open Dune.Stdune Dune.Sexp Dune.Sexp.Lexer Cst

/-! ## Computations that fail exactly when a condition does -/

/-- The computation succeeds with a value that satisfies `P` if `ok`, and fails otherwise. -/
def Outcome {α : Type} (r : Except Exn α) (ok : Bool) (P : α → Prop) : Prop :=
  match r with
  | .ok x => ok = true ∧ P x
  | .error _ => ok = false

namespace Outcome

variable {α β : Type} {r : Except Exn α} {ok ok' : Bool} {P : α → Prop}

section

variable (h : Outcome r ok P)
include h

theorem exists_iff : (∃ x, r = .ok x) ↔ ok = true := by
  unfold Outcome at h
  cases r with
  | ok x => exact ⟨fun _ => h.1, fun _ => ⟨x, rfl⟩⟩
  | error e => simp [h]

theorem of_ok {x : α} (hr : r = .ok x) : P x := by
  subst hr
  exact h.2

theorem bind {f : α → Except Exn β} {Q : β → Prop}
    (hf : ∀ x, P x → Outcome (f x) ok' Q) : Outcome (r >>= f) (ok && ok') Q := by
  unfold Outcome at h
  cases r with
  | ok x =>
    rw [h.1, Bool.true_and]
    exact hf x h.2
  | error e =>
    rw [h, Bool.false_and]
    rfl

theorem bind_pure {f : α → β} {Q : β → Prop} (hf : ∀ x, P x → Q (f x)) :
    Outcome (do let x ← r; return f x) ok Q := by
  rw [← Bool.and_true ok]
  exact h.bind fun x hx => ⟨rfl, hf x hx⟩

theorem imp {Q : α → Prop} (hPQ : ∀ x, P x → Q x) : Outcome r ok Q := by
  unfold Outcome at h ⊢
  cases r with
  | ok x => exact ⟨h.1, hPQ x h.2⟩
  | error e => exact h

end

theorem mapM {γ : Type} {f : γ → Except Exn α} {okAt : γ → Bool} {P : γ → α → Prop} {l : List γ}
    (h : ∀ x ∈ l, Outcome (f x) (okAt x) (P x)) :
    Outcome (l.mapM f) (l.all okAt) (List.Forall₂ P l) := by
  induction l with
  | nil => exact ⟨rfl, .nil⟩
  | cons x l ih =>
    rw [List.mapM_cons, all_cons]
    apply (h x List.mem_cons_self).bind
    intro d hd
    apply (ih fun y hy => h y (mem_cons_of_mem x hy)).bind_pure
    intro ds hds
    exact .cons hd hds

end Outcome

section Reading

mutual

theorem readTokens_tokens (c : Cst) (rest : List Token) (l : List T) (stack : List (List T)) :
    readTokens (c.tokens ++ rest) (l :: stack) =
      readTokens rest (((c.abstract.map Ast.removeLocs).toList ++ l) :: stack) := by
  match c with
  | .atom _ _ | .quotedString _ _ | .template _ => rfl
  | .list loc cs =>
    rw [tokens, List.cons_append, List.append_assoc, readTokens, readToken, Option.bind_some,
      readTokens_tokensAll cs, append_nil]
    simp [readTokens, readToken, abstract, Ast.removeLocs]
  | .comment _ lines =>
    rw [tokens, abstract]
    induction lines with
    | nil => rfl
    | cons line lines ih => exact ih

theorem readTokens_tokensAll (cs : List Cst) (rest : List Token) (l : List T)
    (stack : List (List T)) :
    readTokens (tokensAll cs ++ rest) (l :: stack) =
      readTokens rest
        (((Ast.listRemoveLocs (filterMapAbstract cs)).reverse ++ l) :: stack) := by
  match cs with
  | [] => rfl
  | c :: cs =>
    rw [tokensAll, List.append_assoc, readTokens_tokens c, readTokens_tokensAll cs,
      filterMapAbstract]
    cases c.abstract with
    | none => rfl
    | some x => simp [Ast.listRemoveLocs]

end

theorem commentLines_append (l l' : List Token) :
    commentLines (l ++ l') = commentLines l ++ commentLines l' :=
  List.flatMap_append

mutual

theorem extractLoop_lines (c : Cst) (acc : List (Loc × List Bytes)) :
    (extractLoop acc c).reverse.flatMap Prod.snd =
      acc.reverse.flatMap Prod.snd ++ commentLines c.tokens := by
  match c with
  | .atom _ _ | .quotedString _ _ | .template _ => exact (append_nil _).symm
  | .list _ l =>
    rw [extractLoop, extractComments_lines l, tokens]
    simp [commentLines]
  | .comment loc lines =>
    have hlines : commentLines (tokens (.comment loc lines)) = lines := by
      rw [tokens, commentLines, List.flatMap_map, List.flatMap_singleton']
    rw [hlines, extractLoop, List.reverse_cons, List.flatMap_append, List.flatMap_singleton]

theorem extractComments_lines (l : List Cst) (acc : List (Loc × List Bytes)) :
    (extractComments acc l).reverse.flatMap Prod.snd =
      acc.reverse.flatMap Prod.snd ++ commentLines (tokensAll l) := by
  match l with
  | [] => exact (append_nil _).symm
  | c :: l =>
    rw [extractComments, extractComments_lines l, extractLoop_lines c, tokensAll,
      commentLines_append, List.append_assoc]

end

end Reading

/-! ## The tokens that are shown -/

def isComment : Token → Bool
  | .comment _ => true
  | _ => false

@[simp] theorem isComment_lparen : isComment .lparen = false := rfl

@[simp] theorem isComment_rparen : isComment .rparen = false := rfl

def plainTokens (l : List Token) : List Token := l.filter (!isComment ·)

/-- Whether a token can be printed: the text of a template may be invalid. -/
def hasText : Token → Bool
  | .template t => t.toBytes.isOk
  | _ => true

def printable (l : List Token) : Bool := l.all hasText

mutual

/-- The tokens that are printed: those of a list displayed wrapped without the comments. -/
def shown : Cst → List Token
  | .list loc l =>
    if canBeDisplayedWrapped l then plainTokens (tokens (.list loc l))
    else .lparen :: (shownAll l ++ [.rparen])
  | c => c.tokens

def shownAll : List Cst → List Token
  | [] => []
  | c :: l => shown c ++ shownAll l

end

mutual

/-- Whether every list that is displayed wrapped is without comments, at any depth. -/
def keeps : Cst → Bool
  | .list _ l => if canBeDisplayedWrapped l then (tokensAll l).all (!isComment ·) else keepsAll l
  | _ => true

def keepsAll : List Cst → Bool
  | [] => true
  | c :: l => keeps c && keepsAll l

end

mutual

theorem shown_sublist (c : Cst) : (shown c).Sublist c.tokens := by
  match c with
  | .atom _ _ | .quotedString _ _ | .template _ | .comment _ _ => exact List.Sublist.refl _
  | .list loc l =>
    unfold shown
    split
    · exact List.filter_sublist
    · exact ((shownAll_sublist l).append (List.Sublist.refl _)).cons_cons _

theorem shownAll_sublist (l : List Cst) : (shownAll l).Sublist (tokensAll l) := by
  match l with
  | [] => exact List.Sublist.refl _
  | c :: l => exact (shown_sublist c).append (shownAll_sublist l)

end

theorem append_eq_append_iff_of_sublist {a a' b b' : List Token} (ha : a.Sublist a')
    (hb : b.Sublist b') : a ++ b = a' ++ b' ↔ a = a' ∧ b = b' := by
  constructor
  · intro h
    have hlen := congrArg List.length h
    rw [List.length_append, List.length_append] at hlen
    have hla := ha.length_le
    have hlb := hb.length_le
    exact ⟨ha.eq_of_length (by omega), hb.eq_of_length (by omega)⟩
  · rintro ⟨rfl, rfl⟩
    rfl

mutual

theorem shown_eq_iff (c : Cst) : shown c = c.tokens ↔ keeps c = true := by
  match c with
  | .atom _ _ | .quotedString _ _ | .template _ | .comment _ _ => exact iff_of_true rfl rfl
  | .list loc l =>
    unfold shown keeps
    split
    · rw [plainTokens, List.filter_eq_self, ← List.all_eq_true, tokens]
      simp
    · rw [tokens, List.cons_inj_right, List.append_left_inj]
      exact shownAll_eq_iff l

theorem shownAll_eq_iff (l : List Cst) : shownAll l = tokensAll l ↔ keepsAll l = true := by
  match l with
  | [] => exact iff_of_true rfl rfl
  | c :: l =>
    rw [shownAll, tokensAll, keepsAll, Bool.and_eq_true,
      append_eq_append_iff_of_sublist (shown_sublist c) (shownAll_sublist l), shown_eq_iff c,
      shownAll_eq_iff l]

end

/-! ## Items -/

section Items

open Doc

/-- The items do not end in a comment. -/
def Closed (l : List Item) : Prop := ∀ a ∈ l.getLast?, a.isComment = false

section

variable (a : Item)
include a

theorem canFollow_newline : a.CanFollow .newline :=
  ⟨fun _ => rfl, fun h => nomatch h.2⟩

theorem newline_canFollow : Item.CanFollow .newline a :=
  ⟨fun h => (nomatch h), fun h => nomatch h.1⟩

theorem canFollow_blank_iff : a.CanFollow .blank ↔ a.isComment = false := by
  rw [← Bool.not_eq_true]
  exact ⟨fun h hc => (nomatch h.1 hc), fun h => ⟨fun hc => absurd hc h, fun hw => nomatch hw.2⟩⟩

theorem blank_canFollow : Item.CanFollow .blank a :=
  ⟨fun h => (nomatch h), fun h => nomatch h.1⟩

theorem lparen_canFollow : Item.CanFollow (.token .lparen) a :=
  ⟨fun h => (nomatch h), fun h => nomatch h.1⟩

end

theorem canFollow_rparen {a : Item} (h : a.isComment = false) : a.CanFollow (.token .rparen) :=
  ⟨fun hc => absurd hc (Bool.eq_false_iff.mp h), fun hw => nomatch hw.2⟩

variable {l m : List Item} {toks : List Token} {apart : Bool}

theorem closed_append_cons {s : Item} (hs : s.isComment = false) (h : Closed m) :
    Closed (l ++ s :: m) := by
  intro a ha
  rw [List.getLast?_append_of_ne_nil l (List.cons_ne_nil s m)] at ha
  match m with
  | [] =>
    cases ha
    exact hs
  | b :: m => exact h a ha

theorem concat_cons_cons (sep x y : Doc) (l : List Doc) :
    concat sep (x :: y :: l) = .seq x (.seq sep (concat sep (y :: l))) := rfl

section

variable {sep : Doc} {b : Bool} {s : Item} (hsep : sep.items b = [s])
include hsep

theorem closed_concat {docs : List Doc} (hs : s.isComment = false)
    (h : ∀ d ∈ docs, Closed (d.items b)) : Closed ((concat sep docs).items b) := by
  match docs with
  | [] => exact fun a ha => by cases ha
  | [d] => exact h d List.mem_cons_self
  | d :: d' :: docs =>
    rw [concat_cons_cons, items, items, hsep]
    exact closed_append_cons hs (closed_concat hs fun x hx => h x (mem_cons_of_mem d hx))

theorem isChain_concat {docs : List Doc} (hs : ∀ a, s.CanFollow a)
    (h : ∀ d ∈ docs, ∀ a ∈ (d.items b).getLast?, a.CanFollow s) :
    ((concat sep docs).items b).IsChain Item.CanFollow ↔
      ∀ d ∈ docs, (d.items b).IsChain Item.CanFollow := by
  match docs with
  | [] => simp [concat, items]
  | [d] => simp [concat]
  | d :: d' :: docs =>
    have hrest := isChain_concat hs fun x hx => h x (mem_cons_of_mem d hx)
    rw [concat_cons_cons, items, items, hsep, isChain_append, List.singleton_append,
      isChain_cons, hrest, List.forall_mem_cons (a := d)]
    have hlast := h d List.mem_cons_self
    constructor
    · rintro ⟨hd, ⟨-, hds⟩, -⟩
      exact ⟨hd, hds⟩
    · rintro ⟨hd, hds⟩
      refine ⟨hd, ⟨fun y _ => hs y, hds⟩, fun x hx y hy => ?_⟩
      cases hy
      exact hlast x hx

theorem tokens_concat (hs : s.token? = none) (docs : List Doc) :
    ((concat sep docs).items b).filterMap Item.token? =
      docs.flatMap fun d => (d.items b).filterMap Item.token? := by
  match docs with
  | [] => rfl
  | [d] => simp [concat]
  | d :: d' :: docs =>
    have hrest := tokens_concat hs (d' :: docs)
    rw [concat_cons_cons, items, items, hsep, List.filterMap_append, List.filterMap_append, hrest,
      flatMap_cons]
    simp [hs]

end

/-- The items show the tokens, and can be told apart exactly if `apart`. -/
structure Shows (l : List Item) (shown : List Token) (apart : Bool) : Prop where
  tokens : l.filterMap Item.token? = shown
  chain : l.IsChain Item.CanFollow ↔ apart = true

theorem Shows.nil : Shows [] [] true := ⟨rfl, iff_of_true .nil rfl⟩

/-- `Shows`, where nothing can go wrong and a blank may follow. -/
structure ShowsPlain (l : List Item) (shown : List Token) : Prop where
  shows : Shows l shown true
  closed : Closed l

theorem Shows.parenthesized (h : Shows l toks apart) (hl : Closed l) :
    Shows (.token .lparen :: (l ++ [.token .rparen])) (.lparen :: (toks ++ [.rparen])) apart where
  tokens := by
    rw [← h.tokens]
    simp [Item.token?]
  chain := by
    rw [isChain_cons, isChain_append, ← h.chain]
    constructor
    · rintro ⟨-, hchain, -⟩
      exact hchain
    · intro hchain
      refine ⟨fun y _ => lparen_canFollow y, hchain, .singleton _, fun x hx y hy => ?_⟩
      cases hy
      exact canFollow_rparen (hl x hx)

/-- What is on both sides of a separator is kept apart if it may follow the first side. -/
theorem Shows.append_cons {toks' : List Token} {apart' ok : Bool} {s : Item}
    (hl : Shows l toks apart) (hm : Shows m toks' apart') (htoken : s.token? = none)
    (hs : ∀ a, s.CanFollow a) (hok : (∀ a ∈ l.getLast?, a.CanFollow s) ↔ ok = true) :
    Shows (l ++ s :: m) (toks ++ toks') (apart && ok && apart') where
  tokens := by
    rw [List.filterMap_append, hl.tokens, List.filterMap_cons_none htoken, hm.tokens]
  chain := by
    rw [isChain_append, isChain_cons, hl.chain, hm.chain, Bool.and_eq_true, Bool.and_eq_true, ← hok]
    constructor
    · rintro ⟨hl, ⟨-, hm⟩, hlast⟩
      exact ⟨⟨hl, fun a ha => hlast a ha s rfl⟩, hm⟩
    · rintro ⟨⟨hl, hlast⟩, hm⟩
      refine ⟨hl, ⟨fun y _ => hs y, hm⟩, fun x hx y hy => ?_⟩
      cases hy
      exact hlast x hx

theorem Shows.newline_append {toks' : List Token} {apart' : Bool} (hl : Shows l toks apart)
    (hm : Shows m toks' apart') :
    Shows (l ++ .newline :: m) (toks ++ toks') (apart && apart') := by
  have h := hl.append_cons hm rfl newline_canFollow
    (iff_of_true (fun a _ => canFollow_newline a) rfl)
  rwa [Bool.and_true] at h

/-- A blank may not follow a comment. -/
theorem Shows.blank_append {toks' : List Token} {apart' ends : Bool} (hl : Shows l toks apart)
    (hends : Closed l ↔ ends = false) (hm : Shows m toks' apart') :
    Shows (l ++ .blank :: m) (toks ++ toks') (apart && !ends && apart') := by
  refine hl.append_cons hm rfl blank_canFollow ?_
  rw [Bool.not_eq_true', ← hends]
  simp only [canFollow_blank_iff, Closed]

theorem closed_parenthesized (l : List Item) :
    Closed (.token .lparen :: (l ++ [.token .rparen])) :=
  closed_append_cons (l := .token .lparen :: l) rfl fun _ ha => nomatch ha

theorem ShowsPlain.parenthesized (h : ShowsPlain l toks) :
    ShowsPlain (.token .lparen :: (l ++ [.token .rparen])) (.lparen :: (toks ++ [.rparen])) :=
  ⟨h.shows.parenthesized h.closed, closed_parenthesized l⟩

theorem showsPlain_singleton {t : Token} (h : isComment t = false) : ShowsPlain [.token t] [t] where
  shows := ⟨rfl, iff_of_true (.singleton _) rfl⟩
  closed := by
    intro a ha
    cases ha
    cases t <;> first | rfl | cases h

theorem ShowsPlain.concat_space {α : Type} {b : Bool} {xs : List α} {docs : List Doc}
    {toks : α → List Token}
    (h : List.Forall₂ (fun x d => ShowsPlain (d.items b) (toks x)) xs docs) :
    ShowsPlain ((concat .space docs).items b) (xs.flatMap toks) := by
  obtain ⟨s, hsep, hcomment, hblank, hfollow, htoken⟩ : ∃ s : Item, Doc.space.items b = [s] ∧
      s.isComment = false ∧ (∀ a : Item, a.isComment = false → a.CanFollow s) ∧
      (∀ a, s.CanFollow a) ∧ s.token? = none := by
    cases b with
    | true => exact ⟨_, rfl, rfl, fun a _ => canFollow_newline a, newline_canFollow, rfl⟩
    | false => exact ⟨_, rfl, rfl, fun a => (canFollow_blank_iff a).mpr, blank_canFollow, rfl⟩
  have hdocs : ∀ d ∈ docs, ∃ l, ShowsPlain (d.items b) l := by
    induction h with
    | nil => simp
    | cons hx _ ih => exact List.forall_mem_cons.mpr ⟨⟨_, hx⟩, ih⟩
  have htokens : (docs.flatMap fun d => (d.items b).filterMap Item.token?) = xs.flatMap toks := by
    clear hdocs
    induction h with
    | nil => rfl
    | cons hx _ ih => rw [flatMap_cons, flatMap_cons, hx.shows.tokens, ih]
  refine ⟨⟨(tokens_concat hsep htoken docs).trans htokens, iff_of_true ?_ rfl⟩, ?_⟩
  · rw [isChain_concat hsep hfollow]
    · intro d hd
      obtain ⟨l, hl⟩ := hdocs d hd
      exact hl.shows.chain.mpr rfl
    · intro d hd a ha
      obtain ⟨l, hl⟩ := hdocs d hd
      exact hblank a (hl.closed a ha)
  · apply closed_concat hsep hcomment
    intro d hd
    obtain ⟨l, hl⟩ := hdocs d hd
    exact hl.closed

end Items

/-! ## What is printed without comments -/

mutual

def termTokens : T → List Token
  | .atom a => [.atom a]
  | .quotedString s => [.quotedString s]
  | .list l => .lparen :: (termTokensAll l ++ [.rparen])
  | .template t => [.template t]

def termTokensAll : List T → List Token
  | [] => []
  | t :: l => termTokens t ++ termTokensAll l

end

theorem termTokensAll_eq (l : List T) : termTokensAll l = l.flatMap termTokens := by
  induction l with
  | nil => rfl
  | cons t l ih => rw [termTokensAll, ih, flatMap_cons]

theorem printable_append (l l' : List Token) :
    printable (l ++ l') = (printable l && printable l') := List.all_append

theorem printable_tokensAll (l : List Cst) :
    printable (tokensAll l) = l.all fun c => printable c.tokens := by
  induction l with
  | nil => rfl
  | cons c l ih => rw [tokensAll, printable_append, ih, all_cons]

theorem printable_parenthesized (l : List Token) :
    printable (.lparen :: (l ++ [.rparen])) = printable l := by
  simp [printable, hasText]

mutual

theorem pp_outcome (t : T) :
    Outcome (pp t) (printable (termTokens t)) fun doc =>
      ∀ b, ShowsPlain (doc.items b) (termTokens t) := by
  match t with
  | .atom a => exact ⟨rfl, fun b => showsPlain_singleton rfl⟩
  | .quotedString s => exact ⟨rfl, fun b => showsPlain_singleton rfl⟩
  | .template t =>
    rw [pp, termTokens]
    cases h : t.toBytes with
    | error e => simp [printable, hasText, Outcome, h, Except.isOk, Except.toBool]
    | ok s =>
      have hprintable : printable [.template t] = true := by
        simp [printable, hasText, h, Except.isOk, Except.toBool]
      exact ⟨hprintable, fun b => showsPlain_singleton rfl⟩
  | .list [] =>
    have hnil : ShowsPlain [] [] := ⟨.nil, fun a ha => nomatch ha⟩
    exact ⟨rfl, fun b => hnil.parenthesized⟩
  | .list (t :: l) =>
    rw [pp, termTokens, printable_parenthesized, termTokensAll, printable_append]
    apply (pp_outcome t).bind
    intro x hx
    apply (ppAll_outcome l).bind_pure
    intro docs hdocs b
    rw [← termTokensAll, termTokensAll_eq]
    have hdocs' := hdocs.imp fun _ _ h => h false
    exact (ShowsPlain.concat_space (.cons (hx false) hdocs')).parenthesized

theorem ppAll_outcome (l : List T) :
    Outcome (ppAll l) (printable (termTokensAll l))
      (List.Forall₂ (fun t doc => ∀ b, ShowsPlain (doc.items b) (termTokens t)) l) := by
  match l with
  | [] => exact ⟨rfl, .nil⟩
  | t :: l =>
    rw [ppAll, termTokensAll, printable_append]
    apply (pp_outcome t).bind
    intro x hx
    apply (ppAll_outcome l).bind_pure
    intro docs hdocs
    exact .cons hx hdocs

end

mutual

theorem termTokens_abstract (c : Cst) :
    (c.abstract.map Ast.removeLocs).toList.flatMap termTokens = plainTokens c.tokens := by
  match c with
  | .atom _ _ | .quotedString _ _ | .template _ => rfl
  | .comment _ lines =>
    rw [tokens, plainTokens, List.filter_map, List.filter_eq_nil_iff.mpr]
    · rfl
    · intro line _
      exact Bool.false_ne_true
  | .list loc l =>
    have hl := termTokens_filterMapAbstract l
    rw [abstract, tokens, plainTokens]
    simp only [Option.map_some, Option.toList_some, List.flatMap_singleton, Ast.removeLocs,
      termTokens, hl]
    simp [plainTokens]

theorem termTokens_filterMapAbstract (l : List Cst) :
    termTokensAll (Ast.listRemoveLocs (filterMapAbstract l)) =
      plainTokens (tokensAll l) := by
  match l with
  | [] => rfl
  | c :: l =>
    have hc := termTokens_abstract c
    have hl := termTokens_filterMapAbstract l
    rw [filterMapAbstract, tokensAll, plainTokens, List.filter_append, ← plainTokens,
      ← plainTokens, ← hc, ← hl]
    cases c.abstract with
    | none => rfl
    | some x => simp [Ast.listRemoveLocs, termTokensAll]

end

theorem printable_plainTokens (l : List Token) : printable (plainTokens l) = printable l := by
  rw [printable, plainTokens, List.all_filter, printable]
  congr 1
  funext t
  cases t <;> rfl

/-! ## The printer -/

section Printer

variable (version : Nat × Nat)

theorem ppSimple_outcome {c : Cst} (hc : ∀ loc lines, c ≠ .comment loc lines) :
    Outcome (ppSimple c) (printable c.tokens) fun doc =>
      ∀ b, ShowsPlain (doc.items b) (plainTokens c.tokens) := by
  have htokens := termTokens_abstract c
  rw [← printable_plainTokens, ← htokens, ppSimple]
  cases h : c.abstract with
  | none => cases c <;> first | exact absurd rfl (hc _ _) | cases h
  | some x =>
    rw [Option.map_some, Option.toList_some, List.flatMap_singleton]
    exact pp_outcome x.removeLocs

theorem printWrappedList_outcome {l : List Cst} (hl : canBeDisplayedWrapped l = true) :
    Outcome (printWrappedList version l) (printable (tokensAll l)) fun doc =>
      ∀ b, ShowsPlain (doc.items b) (.lparen :: (plainTokens (tokensAll l) ++ [.rparen])) := by
  have hsimple : ∀ c ∈ l, Outcome (ppSimple c) (printable c.tokens) fun doc =>
      ∀ b, ShowsPlain (doc.items b) (plainTokens c.tokens) := by
    intro c hc
    apply ppSimple_outcome
    rintro loc lines rfl
    exact Bool.false_ne_true (List.all_eq_true.mp hl _ hc)
  have htokens : plainTokens (tokensAll l) = l.flatMap fun c => plainTokens c.tokens := by
    clear hl hsimple
    induction l with
    | nil => rfl
    | cons c l ih =>
      rw [tokensAll, plainTokens, List.filter_append, flatMap_cons, ← ih]
      rfl
  rw [printable_tokensAll, htokens]
  apply (Outcome.mapM hsimple).bind_pure
  intro docs hdocs b
  split <;> exact (ShowsPlain.concat_space (hdocs.imp fun _ _ h => h false)).parenthesized

/-- Whether a comment line is the last that is printed. -/
def endsInComment : Cst → Bool
  | .comment _ (_ :: _) => true
  | _ => false

mutual

/-- Whether no comment is put on the line of another, as `go` pairs the elements of a list with the
comments that follow them. -/
def apart : Cst → Bool
  | .list _ l => canBeDisplayedWrapped l || apartAll l
  | _ => true

def apartAll : List Cst → Bool
  | x :: .comment loc _ :: xs =>
    apart x && !(x.loc.onSameLine loc && endsInComment x) && apartAll xs
  | .comment _ _ :: xs => apartAll xs
  | [x] => apart x
  | x :: xs => apart x && apartAll xs
  | [] => true

end

theorem ppComment_shows (lines : List Bytes) (b : Bool) :
    Shows ((ppComment lines).items b) (lines.map fun line => .comment [line]) true := by
  refine ⟨?_, iff_of_true ?_ rfl⟩
  · rw [ppComment, Doc.items, tokens_concat rfl rfl, List.flatMap_map]
    exact (List.map_eq_flatMap).symm
  · rw [ppComment, Doc.items,
      isChain_concat rfl newline_canFollow fun _ _ a _ => canFollow_newline a]
    intro d hd
    obtain ⟨line, -, rfl⟩ := List.mem_map.mp hd
    exact .singleton _

theorem ppComment_getLast? (line : Bytes) (lines : List Bytes) (b : Bool) :
    ∃ last, ((ppComment (line :: lines)).items b).getLast? = some (.token (.comment [last])) := by
  induction lines generalizing line with
  | nil => exact ⟨line, rfl⟩
  | cons line' lines ih =>
    obtain ⟨last, hlast⟩ := ih line'
    have hitems : (ppComment (line :: line' :: lines)).items b =
        .token (.comment [line]) :: .newline :: (ppComment (line' :: lines)).items b := rfl
    refine ⟨last, ?_⟩
    rw [hitems, List.getLast?_cons_cons, List.getLast?_cons, hlast]
    rfl

/-- The items of a printed comment end in its last line. -/
theorem ppComment_closed_iff (loc : Loc) (lines : List Bytes) (b : Bool) :
    Closed ((ppComment lines).items b) ↔ endsInComment (.comment loc lines) = false := by
  match lines with
  | [] => exact iff_of_true (fun a ha => nomatch ha) rfl
  | line :: lines =>
    obtain ⟨last, hlast⟩ := ppComment_getLast? line lines b
    exact iff_of_false (fun h => nomatch h _ hlast) Bool.noConfusion

theorem printable_comment (lines : List Bytes) :
    printable (lines.map fun line => .comment [line]) = true := by
  induction lines with
  | nil => rfl
  | cons line lines ih => exact ih

section Cases

/-- The alternatives of `go` after the first are for lists where no comment is second. -/
def NoComment (l : List Cst) : Prop := ∀ loc lines xs, l ≠ .comment loc lines :: xs

theorem noComment_or (x : Cst) (xs : List Cst) :
    NoComment (x :: xs) ∨ ∃ loc lines, x = .comment loc lines := by
  cases x with
  | comment loc lines => exact .inr ⟨loc, lines, rfl⟩
  | _ => exact .inl nofun

variable {x y : Cst} {xs : List Cst}

theorem ppListWithComments_comment {loc : Loc} {c : List Bytes} (h : NoComment xs) :
    ppListWithComments version (.comment loc c :: xs) = (do
      let rest ← ppListWithComments version xs
      return .seq (ppComment c) (.seq .cut rest)) ∧
      apartAll (.comment loc c :: xs) = apartAll xs := by
  rw [ppListWithComments, apartAll]
  · exact ⟨rfl, rfl⟩
  all_goals exact h

theorem ppListWithComments_singleton (h : NoComment [x]) :
    ppListWithComments version [x] = ppSexp version x ∧ apartAll [x] = apart x := by
  rw [ppListWithComments, apartAll]
  · exact ⟨rfl, rfl⟩
  all_goals
    rintro loc c rfl
    exact h loc c [] rfl

theorem ppListWithComments_cons (hx : NoComment [x]) (hy : NoComment (y :: xs)) :
    ppListWithComments version (x :: y :: xs) = (do
      let doc ← ppSexp version x
      let rest ← ppListWithComments version (y :: xs)
      return .seq doc (.seq .cut rest)) ∧
      apartAll (x :: y :: xs) = (apart x && apartAll (y :: xs)) := by
  have hx' : ∀ loc c, x = .comment loc c → False := by
    rintro loc c rfl
    exact hx loc c [] rfl
  rw [ppListWithComments, apartAll]
  · exact ⟨rfl, rfl⟩
  all_goals first | exact hx' | exact hy | simp

end Cases

mutual

theorem ppSexp_outcome (c : Cst) :
    Outcome (ppSexp version c) (printable c.tokens) fun doc =>
      ∀ b, Shows (doc.items b) (shown c) (apart c) ∧
        (Closed (doc.items b) ↔ endsInComment c = false) := by
  match c with
  | .atom loc a => exact ⟨rfl, fun b =>
      ⟨(showsPlain_singleton rfl).shows, iff_of_true (showsPlain_singleton rfl).closed rfl⟩⟩
  | .quotedString loc s => exact ⟨rfl, fun b =>
      ⟨(showsPlain_singleton rfl).shows, iff_of_true (showsPlain_singleton rfl).closed rfl⟩⟩
  | .template t =>
    have h := (ppSimple_outcome (c := .template t) nofun)
    exact h.imp fun doc h b => ⟨(h b).shows, iff_of_true (h b).closed rfl⟩
  | .comment loc lines =>
    rw [tokens, printable_comment]
    exact ⟨rfl, fun b => ⟨ppComment_shows lines b, ppComment_closed_iff loc lines b⟩⟩
  | .list loc l =>
    rw [tokens, printable_parenthesized, ppSexp, shown, apart]
    by_cases hl : canBeDisplayedWrapped l = true
    · rw [if_pos hl, if_pos hl, hl, Bool.true_or]
      apply (printWrappedList_outcome version hl).bind_pure
      intro doc hdoc b
      have hshown : plainTokens (.list loc l : Cst).tokens =
          .lparen :: (plainTokens (tokensAll l) ++ [.rparen]) := by
        simp [tokens, plainTokens]
      rw [hshown]
      exact ⟨(hdoc true).shows, iff_of_true (hdoc true).closed rfl⟩
    · rw [if_neg hl, if_neg hl, Bool.eq_false_iff.mpr hl, Bool.false_or]
      apply (ppListWithComments_outcome l).bind_pure
      rintro doc ⟨hdoc, hclosed⟩ b
      exact ⟨hdoc.parenthesized hclosed, iff_of_true (closed_parenthesized _) rfl⟩

theorem ppListWithComments_outcome (l : List Cst) :
    Outcome (ppListWithComments version l) (printable (tokensAll l)) fun doc =>
      Shows (doc.items true) (shownAll l) (apartAll l) ∧ Closed (doc.items true) := by
  match l with
  | [] =>
    exact ⟨rfl, .nil, fun a ha => nomatch ha⟩
  | [x] =>
    rw [tokensAll, tokensAll, append_nil, shownAll, shownAll, append_nil]
    obtain hx | ⟨loc, c, rfl⟩ := noComment_or x []
    · obtain ⟨hpp, hapart⟩ := ppListWithComments_singleton version hx
      rw [hpp, hapart]
      apply (ppSexp_outcome x).imp
      intro doc hdoc
      refine ⟨(hdoc true).1, (hdoc true).2.mpr ?_⟩
      cases x with
      | comment loc c => exact absurd rfl (hx loc c [])
      | _ => rfl
    · have h := (ppComment_shows c true).newline_append .nil
      rw [tokens, printable_comment]
      rw [append_nil] at h
      exact ⟨rfl, h, closed_append_cons rfl fun a ha => nomatch ha⟩
  | x :: y :: xs =>
    obtain hy | ⟨loc, c, rfl⟩ := noComment_or y xs
    · rw [tokensAll, printable_append, shownAll]
      obtain hx | ⟨loc, c, rfl⟩ := noComment_or x []
      · obtain ⟨hpp, hapart⟩ := ppListWithComments_cons version hx hy
        rw [hpp, hapart]
        apply (ppSexp_outcome x).bind
        intro doc hdoc
        apply (ppListWithComments_outcome (y :: xs)).bind_pure
        rintro rest ⟨hrest, hclosed⟩
        exact ⟨(hdoc true).1.newline_append hrest, closed_append_cons rfl hclosed⟩
      · obtain ⟨hpp, hapart⟩ := ppListWithComments_comment version hy
        rw [hpp, hapart, tokens, printable_comment, Bool.true_and]
        apply (ppListWithComments_outcome (y :: xs)).bind_pure
        rintro rest ⟨hrest, hclosed⟩
        have h := (ppComment_shows c true).newline_append hrest
        exact ⟨h, closed_append_cons rfl hclosed⟩
    · rw [ppListWithComments, tokensAll, tokensAll, tokens, printable_append,
        printable_append, printable_comment, Bool.true_and]
      apply (ppSexp_outcome x).bind
      intro doc hdoc
      apply (ppListWithComments_outcome xs).bind_pure
      rintro rest ⟨hrest, hclosed⟩
      obtain ⟨hshows, hends⟩ := hdoc true
      have hcomment := (ppComment_shows c true).newline_append hrest
      rw [Bool.true_and] at hcomment
      have hcommentClosed : Closed ((ppComment c).items true ++ .newline :: rest.items true) :=
        closed_append_cons rfl hclosed
      have hshown : shownAll (x :: .comment loc c :: xs) =
          shown x ++ ((c.map fun line => .comment [line]) ++ shownAll xs) := rfl
      rw [hshown, apartAll]
      cases hattached : x.loc.onSameLine loc with
      | true =>
        rw [Bool.true_and]
        refine ⟨hshows.blank_append hends hcomment, ?_⟩
        exact closed_append_cons rfl hcommentClosed
      | false =>
        rw [Bool.false_and, Bool.not_false, Bool.and_true]
        exact ⟨hshows.newline_append hcomment, closed_append_cons rfl hcommentClosed⟩

end

theorem ppTopSexps_outcome (sexps : List Cst) :
    Outcome (ppTopSexps version sexps) (printable (tokensAll sexps)) fun doc =>
      Shows (doc.items false) (shownAll sexps) (sexps.all apart) := by
  have htop : ∀ c ∈ sexps, Outcome (ppTopSexp version c) (printable c.tokens) fun doc =>
      Shows (doc.items false) (shown c) (apart c) := by
    intro c _
    apply (ppSexp_outcome version c).bind_pure
    intro doc hdoc
    have h := (hdoc false).1.newline_append .nil
    rw [append_nil, Bool.and_true] at h
    exact h
  rw [printable_tokensAll]
  apply (Outcome.mapM htop).bind_pure
  intro docs hdocs
  refine ⟨?_, ?_⟩
  · rw [tokens_concat rfl rfl]
    induction hdocs with
    | nil => rfl
    | cons hx _ ih =>
      rw [flatMap_cons, shownAll, hx.tokens, ih fun c hc => htop c (mem_cons_of_mem _ hc)]
  · rw [isChain_concat rfl newline_canFollow fun _ _ a _ => canFollow_newline a]
    induction hdocs with
    | nil => simp
    | cons hx _ ih =>
      rw [List.forall_mem_cons, all_cons, Bool.and_eq_true, hx.chain,
        ih fun c hc => htop c (mem_cons_of_mem _ hc)]

end Printer

theorem reparse_eq {doc : Doc} {sexps : List Cst}
    (hchain : (doc.items false).IsChain Doc.Item.CanFollow)
    (htokens : doc.tokens = tokensAll sexps) :
    reparse doc = some (Ast.listRemoveLocs (filterMapAbstract sexps),
      (extractComments [] sexps).reverse.flatMap Prod.snd) := by
  have hread := readTokens_tokensAll sexps [] [] []
  rw [append_nil, append_nil] at hread
  rw [reparse, if_pos hchain, htokens, hread, extractComments_lines]
  simp [readTokens]

end Dune.Lang
