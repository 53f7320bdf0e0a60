import Dune.Sexp.Lexer

/-!
# The parser of S-expressions

One loop serves the parser that drops comments and the one that keeps them: comments are encoded
as lists that start with a template no text can produce. The modes `Single`, `Many` and `Cst` are
modelled.
-/

namespace Dune.Sexp

open Dune.Stdune Lexer
open EStateM (Result)

inductive Cst where
  | atom (loc : Loc) (a : Bytes)
  | quotedString (loc : Loc) (s : Bytes)
  | template (t : Template)
  | list (loc : Loc) (l : List Cst)
  | comment (loc : Loc) (lines : List Bytes)

namespace Encoded

def commentMarker : Template := ⟨false, [], ⟨⟨"", -1, -1, -1⟩, ⟨"", -2, -2, -2⟩⟩⟩

def comment (loc : Loc) (lines : List Bytes) : Ast :=
  .list loc (.template commentMarker :: lines.map fun line => .quotedString .none line)

/-- The lines of an encoded comment. -/
def commentLines : List Ast → Except Exn (List Bytes)
  | [] => .ok []
  | .quotedString _ s :: l => do
    let lines ← commentLines l
    return s :: lines
  | _ :: _ => .error .assertFailure

mutual

def toCst : Ast → Except Exn Cst
  | .template t => .ok (.template t)
  | .quotedString loc s => .ok (.quotedString loc s)
  | .atom loc a => .ok (.atom loc a)
  | .list loc [] => .ok (.list loc [])
  | .list loc (x :: l) =>
    match x with
    | .template t =>
      if t = commentMarker then do
        let lines ← commentLines l
        return .comment loc lines
      else do
        let l ← toCsts l
        return .list loc (.template t :: l)
    | x => do
      let x ← toCst x
      let l ← toCsts l
      return .list loc (x :: l)

def toCsts : List Ast → Except Exn (List Cst)
  | [] => .ok []
  | x :: l => do
    let x ← toCst x
    let l ← toCsts l
    return x :: l

end

end Encoded

namespace Parser

inductive Mode where
  | single
  | many
  | cst
deriving DecidableEq, Repr

def Mode.Output : Mode → Type
  | .single => Ast
  | .many => List Ast
  | .cst => List Cst

def Mode.withComments : Mode → Bool
  | .single | .many => false
  | .cst => true

def Mode.makeResult : (mode : Mode) → Lexbuf → List Ast → Except Exn mode.Output
  | .single, lb, sexps =>
    match sexps with
    | [sexp] => .ok sexp
    | [] => .error (.userError lb.loc "no s-expression found in input")
    | _ :: sexp :: _ => .error (.userError sexp.loc "too many s-expressions found in input")
  | .many, _, sexps => .ok sexps
  | .cst, _, sexps => Encoded.toCsts sexps

def error {α : Type} (st : State) (message : String) : Result Failure State α :=
  .error (.raised (.userError st.lexbuf.loc message)) st

/-- `loop`, with a bound on the tokens it reads. -/
def loop (withComments : Bool) : Nat → Nat → State → List Ast → Result Failure State (List Ast)
  | 0, _, st, _ => .error .outOfBound st
  | bound + 1, depth, st, acc =>
    match token withComments st with
    | .error e st => .error e st
    | .ok (.atom a) st => loop withComments bound depth st (.atom st.lexbuf.loc a :: acc)
    | .ok (.quotedString s) st =>
      loop withComments bound depth st (.quotedString st.lexbuf.loc s :: acc)
    | .ok (.template t) st =>
      let t := { t with loc := st.lexbuf.loc }
      if t = Encoded.commentMarker then .error (.raised .assertFailure) st
      else loop withComments bound depth st (.template t :: acc)
    | .ok .lparen st =>
      let start := st.lexbuf.startP
      match loop withComments bound (depth + 1) st [] with
      | .error e st => .error e st
      | .ok sexps st =>
        loop withComments bound depth st (.list ⟨start, st.lexbuf.currP⟩ sexps :: acc)
    | .ok .rparen st =>
      if depth = 0 then error st "right parenthesis without matching left parenthesis"
      else .ok acc.reverse st
    | .ok .eof st =>
      if 0 < depth then error st "unclosed parenthesis at end of input" else .ok acc.reverse st
    | .ok (.comment lines) st =>
      if withComments then
        loop withComments bound depth st (Encoded.comment st.lexbuf.loc lines :: acc)
      else loop false bound depth st acc

def parse (mode : Mode) (st : State) : Result Failure State mode.Output :=
  match loop mode.withComments (st.rest.length + 1) 0 st [] with
  | .error e st => .error e st
  | .ok sexps st =>
    match mode.makeResult st.lexbuf sexps with
    | .error e => .error (.raised e) st
    | .ok result => .ok result st

/-- `parse_string`, with the global buffer as earlier calls have left it. -/
def parseString (fname : String) (mode : Mode) (s : Bytes) (buffer : Buffer) :
    Result Failure State mode.Output :=
  parse mode ⟨.fromString fname s, buffer⟩

end Parser

end Dune.Sexp
