import Dune.Sexp.Parser

/-!
# The formatter of dune files

`ppTopSexps` is `Format.pp_top_sexps`: the document that `dune format` prints for the concrete
syntax of a file. A document is a `Pp.t`, where a text also carries the tokens it is printed for;
`Doc.items` forgets the layout except for what a reader sees of it: where a line ends, and where
there is a blank.
-/

namespace Dune.Sexp

open Dune.Stdune Lexer

/-! ## Concrete syntax -/

namespace Cst

def loc : Cst → Loc
  | .atom loc _ | .quotedString loc _ | .list loc _ | .comment loc _ => loc
  | .template t => t.loc

mutual

def abstract : Cst → Option Ast
  | .atom loc a => some (.atom loc a)
  | .quotedString loc s => some (.quotedString loc s)
  | .template t => some (.template t)
  | .list loc l => some (.list loc (filterMapAbstract l))
  | .comment _ _ => none

/-- `List.filter_map ~f:abstract`. -/
def filterMapAbstract : List Cst → List Ast
  | [] => []
  | c :: l =>
    match abstract c with
    | some x => x :: filterMapAbstract l
    | none => filterMapAbstract l

end

mutual

/-- `loop` of `Cst.extract_comments`. -/
def extractLoop (acc : List (Loc × List Bytes)) : Cst → List (Loc × List Bytes)
  | .atom _ _ | .quotedString _ _ | .template _ => acc
  | .list _ l => extractComments acc l
  | .comment loc lines => (loc, lines) :: acc

/-- `List.fold_left ~f:loop`; the last comment comes first. -/
def extractComments (acc : List (Loc × List Bytes)) : List Cst → List (Loc × List Bytes)
  | [] => acc
  | c :: l => extractComments (extractLoop acc c) l

end

mutual

/-- `Cst.tokenize` without the locations, with a token for every line of a comment. -/
def tokens : Cst → List Token
  | .atom _ a => [.atom a]
  | .quotedString _ s => [.quotedString s]
  | .template t => [.template t.removeLocs]
  | .list _ l => .lparen :: (tokensAll l ++ [.rparen])
  | .comment _ lines => lines.map fun line => .comment [line]

def tokensAll : List Cst → List Token
  | [] => []
  | c :: l => tokens c ++ tokensAll l

end

end Cst

end Dune.Sexp

namespace Dune.Stdune

def Loc.onSameLine (loc₁ loc₂ : Loc) : Bool :=
  loc₁.start.fname = loc₂.start.fname && loc₁.start.lnum = loc₂.start.lnum

end Dune.Stdune

namespace Dune.Lang

open Dune.Stdune Dune.Sexp Dune.Sexp.Lexer

/-! ## Documents -/

/-- The boxes of `Pp`. -/
inductive Box where
  | box
  | vbox
  | hvbox
  | hovbox
deriving DecidableEq, Repr

/-- `Pp.t`. The texts of a document are the `Verbatim` and `Char` nodes that show tokens; the
blanks are the other nodes that print something. -/
inductive Doc where
  | nop
  | seq (a b : Doc)
  | box (kind : Box) (indent : Nat) (t : Doc)
  | text (tokens : List Token) (s : Bytes)
  | space
  | cut
  | newline
  | charSpace
  | charNewline

namespace Doc

def concat (sep : Doc) : List Doc → Doc
  | [] => .nop
  | [x] => x
  | x :: l => .seq x (.seq sep (concat sep l))

/-- What can be seen of a rendered document. -/
inductive Item where
  | token (t : Token)
  | blank
  | newline
deriving DecidableEq, Repr

/-- The items of a document. A vertical box breaks the line at every break; in another box a break
that is one space wide shows as that space or breaks the line. -/
def items (vertical : Bool) : Doc → List Item
  | nop => []
  | seq a b => items vertical a ++ items vertical b
  | box kind _ t => items (kind = .vbox) t
  | text tokens _ => tokens.map .token
  | space => [if vertical then .newline else .blank]
  | cut => if vertical then [.newline] else []
  | newline => [.newline]
  | charSpace => [.blank]
  | charNewline => [.newline]

def Item.isComment : Item → Bool
  | .token (.comment _) => true
  | _ => false

def Item.isWord : Item → Bool
  | .token (.atom _) | .token (.quotedString _) | .token (.template _) => true
  | _ => false

/-- A comment reaches to the end of its line, and two words need something between them. -/
def Item.CanFollow (a b : Item) : Prop :=
  (a.isComment = true → b = .newline) ∧ ¬(a.isWord = true ∧ b.isWord = true)

instance : DecidableRel Item.CanFollow :=
  fun _ _ => inferInstanceAs (Decidable ((_ → _) ∧ ¬_))

def Item.token? : Item → Option Token
  | .token t => some t
  | .blank | .newline => none

/-- The tokens of a document, in the order in which they are printed. -/
def tokens (doc : Doc) : List Token := (doc.items false).filterMap Item.token?

/-- `Pp.char` on a parenthesis. -/
def lparen : Doc := .text [.lparen] [40]

def rparen : Doc := .text [.rparen] [41]

end Doc

/-! ## The printer -/

mutual

def pp : T → Except Exn Doc
  | .atom a => .ok (.text [.atom a] a)
  | .quotedString s => .ok (.text [.quotedString s] (Escape.quoted s))
  | .list [] => .ok (.text [.lparen, .rparen] [40, 41])
  | .list (t :: l) => do
    let x ← pp t
    let l ← ppAll l
    return .box .box 1
      (.seq .lparen (.seq (.box .hvbox 0 (.concat .space (x :: l))) .rparen))
  | .template t => do
    let s ← t.toBytes
    return .text [.template t] s

def ppAll : List T → Except Exn (List Doc)
  | [] => .ok []
  | t :: l => do
    let x ← pp t
    let l ← ppAll l
    return x :: l

end

def canBeDisplayedWrapped (l : List Cst) : Bool :=
  l.all fun
    | .atom _ _ | .quotedString _ _ | .template _ | .list _ [] | .list _ [_] => true
    | .list _ (_ :: _ :: _) | .comment _ _ => false

def ppSimple (t : Cst) : Except Exn Doc :=
  match t.abstract with
  | some x => pp x.removeLocs
  | none => .error (.codeError "Option.value_exn")

variable (version : Nat × Nat)

def printWrappedList (x : List Cst) : Except Exn Doc := do
  let inner ← x.mapM ppSimple
  let inner := Doc.concat .space inner
  return if version.1 < 2 || version.1 = 2 && version.2 < 8 then
    .seq .lparen (.seq (.box .hovbox 1 inner) .rparen)
  else .box .hvbox 1 (.seq .lparen (.seq inner .rparen))

def ppCommentLine (l : Bytes) : Doc := .text [.comment [l]] (59 :: l)

def ppComment (lines : List Bytes) : Doc :=
  .box .vbox 0 (.concat .cut (lines.map ppCommentLine))

def ppBreak (attached : Bool) : Doc := if attached then .charSpace else .cut

mutual

/-- `pp_sexp`; the list that is not displayed wrapped is `pp_sexp_list`. -/
def ppSexp (version : Nat × Nat) : Cst → Except Exn Doc
  | .atom loc a => ppSimple (.atom loc a)
  | .quotedString loc s => ppSimple (.quotedString loc s)
  | .template t => ppSimple (.template t)
  | .list _ sexps => do
    let doc ←
      if canBeDisplayedWrapped sexps then printWrappedList version sexps
      else do
        let doc ← ppListWithComments version sexps
        pure (.seq .lparen (.seq doc .rparen))
    return .box .vbox 1 doc
  | .comment _ c => .ok (ppComment c)

/-- `go` of `pp_list_with_comments`. -/
def ppListWithComments (version : Nat × Nat) : List Cst → Except Exn Doc
  | x :: .comment loc c :: xs => do
    let attached := x.loc.onSameLine loc
    let doc ← ppSexp version x
    let rest ← ppListWithComments version xs
    return .seq doc (.seq (ppBreak attached) (.seq (ppComment c) (.seq .cut rest)))
  | .comment _ c :: xs => do
    let rest ← ppListWithComments version xs
    return .seq (ppComment c) (.seq .cut rest)
  | [x] => ppSexp version x
  | x :: xs => do
    let doc ← ppSexp version x
    let rest ← ppListWithComments version xs
    return .seq doc (.seq .cut rest)
  | [] => .ok .nop

end

def ppTopSexp (sexp : Cst) : Except Exn Doc := do
  let doc ← ppSexp version sexp
  return .seq doc .charNewline

def ppTopSexps (sexps : List Cst) : Except Exn Doc := do
  let docs ← sexps.mapM (ppTopSexp version)
  return .concat .newline docs

/-- One token of the loop of the parser; the stack has the lists that are open, the elements of
each in reverse order. -/
def readToken : Token → List (List T) → Option (List (List T))
  | .atom a, l :: stack => some ((.atom a :: l) :: stack)
  | .quotedString s, l :: stack => some ((.quotedString s :: l) :: stack)
  | .template t, l :: stack => some ((.template t :: l) :: stack)
  | .lparen, stack => some ([] :: stack)
  | .rparen, l :: l' :: stack => some ((.list l.reverse :: l') :: stack)
  | .comment _, stack => some stack
  | _, _ => none

def readTokens : List Token → List (List T) → Option (List (List T))
  | [], stack => some stack
  | t :: l, stack => (readToken t stack).bind (readTokens l)

/-- The lines of the comments among tokens. -/
def commentLines (l : List Token) : List Bytes :=
  l.flatMap fun
    | .comment lines => lines
    | _ => []

/-- The S-expressions and the lines of comments in the text of a document. There are none when a
comment runs into what follows it on its line, or a word into the next. -/
def reparse (doc : Doc) : Option (List T × List Bytes) :=
  if (doc.items false).IsChain Doc.Item.CanFollow then
    match readTokens doc.tokens [[]] with
    | some [l] => some (l.reverse, commentLines doc.tokens)
    | _ => none
  else none

end Dune.Lang
