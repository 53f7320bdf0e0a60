import Dune.Sexp.Term

/-!
# The lexer of S-expressions

Each rule of `lexer.mll` is a function on the state: what is left of the input with the two
positions of the lexing buffer, and the global `Template.Buffer`. A rule takes the longest match
and the first alternative among equally long ones. An exception leaves the state as it is when it
is raised, since the global buffer outlives it. A rule that calls itself takes a bound; the input
is shorter at every such call.
-/

namespace Dune.Sexp.Lexer

open Dune.Stdune
open EStateM (Result)

/-- The part of `Lexing.lexbuf` that the rules use. -/
structure Lexbuf where
  rest : Bytes
  startP : Position
  currP : Position
deriving DecidableEq, Repr

def Lexbuf.fromString (fname : String) (s : Bytes) : Lexbuf :=
  ⟨s, .dummy, .inFile fname⟩

/-- What the lexing engine does when an alternative has matched `n` bytes. -/
def Lexbuf.accept (lb : Lexbuf) (n : Nat) : Lexbuf :=
  ⟨lb.rest.drop n, lb.currP, { lb.currP with cnum := lb.currP.cnum + n }⟩

def Lexbuf.newLine (lb : Lexbuf) : Lexbuf :=
  { lb with currP := { lb.currP with lnum := lb.currP.lnum + 1, bol := lb.currP.cnum } }

/-- `Loc.of_lexbuf`. -/
def Lexbuf.loc (lb : Lexbuf) : Loc := ⟨lb.startP, lb.currP⟩

/-! ## Tokens and the global buffer -/

inductive Token where
  | atom (a : Bytes)
  | quotedString (s : Bytes)
  | lparen
  | rparen
  | eof
  | template (t : Template)
  | comment (lines : List Bytes)
deriving DecidableEq, Repr

/-- `Template.Buffer.state`. -/
inductive BufferState where
  | string
  | template (parts : List Part)
deriving DecidableEq, Repr

/-- The global variables of `Template.Buffer`. -/
structure Buffer where
  text : Bytes
  state : BufferState
deriving DecidableEq, Repr

/-- The buffer of a fresh process. -/
def Buffer.init : Buffer := ⟨[], .string⟩

def dummyLoc : Loc := ⟨.dummy, .dummy⟩

/-- `Template.add_text`, on parts in reverse order. -/
def addText (parts : List Part) (s : Bytes) : List Part :=
  match parts with
  | .text s' :: parts => .text (s' ++ s) :: parts
  | _ => .text s :: parts

/-- `add_buf_to_parts`, given the contents of the buffer. -/
def addBufToParts (text : Bytes) (parts : List Part) : List Part :=
  if text = [] then parts else addText parts text

namespace Buffer

variable (b : Buffer)

/-- `new_token`; the state is not touched. -/
def newToken : Buffer := { b with text := [] }

/-- `add_text` and `add_text_c`. -/
def addText (s : Bytes) : Buffer := { b with text := b.text ++ s }

def addVar (v : Part) : Buffer :=
  match b.state with
  | .string => ⟨[], .template (v :: addBufToParts b.text [])⟩
  | .template parts => ⟨[], .template (v :: addBufToParts b.text parts)⟩

/-- `get`: the token and the buffer after it, or `none` where an assertion fails. -/
def get : Option Token × Buffer :=
  match b.state with
  | .string => (some (.quotedString b.text), ⟨[], .string⟩)
  | .template parts =>
    match addBufToParts b.text parts with
    | [] => (none, ⟨[], .string⟩)
    | [.text s] => (some (.quotedString s), ⟨[], .string⟩)
    | parts => (some (.template ⟨true, parts.reverse, dummyLoc⟩), ⟨[], .string⟩)

end Buffer

/-! ## The state of the lexer -/

/-- Why a rule has no result: an exception, or its bound was too small. -/
inductive Failure where
  | raised (e : Exn)
  | outOfBound
deriving DecidableEq, Repr

structure State where
  lexbuf : Lexbuf
  buffer : Buffer
deriving DecidableEq, Repr

namespace State

variable (st : State)

def rest : Bytes := st.lexbuf.rest

def accept (n : Nat) : State := { st with lexbuf := st.lexbuf.accept n }

def newLine : State := { st with lexbuf := st.lexbuf.newLine }

def addText (s : Bytes) : State := { st with buffer := st.buffer.addText s }

def addVar (v : Part) : State := { st with buffer := st.buffer.addVar v }

def error {α : Type} (st : State) (message : String) (delta : Int) : Result Failure State α :=
  let start := st.lexbuf.startP
  .error (.raised (.userError
    ⟨{ start with cnum := start.cnum + delta }, st.lexbuf.currP⟩ message)) st

/-- `Template.Buffer.get ()` as the result of a rule. -/
def getToken : Result Failure State Token :=
  match st.buffer.get with
  | (some token, buffer) => .ok token { st with buffer }
  | (none, buffer) => .error (.raised .assertFailure) { st with buffer }

@[simp] theorem rest_addText (s : Bytes) : (st.addText s).rest = st.rest := rfl

@[simp] theorem rest_addVar (v : Part) : (st.addVar v).rest = st.rest := rfl

end State

/-- `newline`: the length of the match. -/
def newline : Bytes → Option Nat
  | 10 :: _ => some 1
  | 13 :: 10 :: _ => some 2
  | _ => none

def isBlank (c : UInt8) : Bool := c = 32 || c = 9 || c = 12

def commentBody (s : Bytes) : Bytes := s.takeWhile fun c => c ≠ 10 && c ≠ 13

section

variable (c : UInt8)

def isDigit : Bool := 48 ≤ c && c ≤ 57

def isHexdigit : Bool := isDigit c || (97 ≤ c && c ≤ 102) || (65 ≤ c && c ≤ 70)

def isAtomChar : Bool :=
  !(c = 59 || c = 40 || c = 41 || c = 34 || c ≤ 32 || 127 ≤ c)

def isVarnameChar : Bool :=
  isAtomChar c && !(c = 58 || c = 37 || c = 123 || c = 125)

def isPayloadChar : Bool := c = 58 || isVarnameChar c

def basename (name : String) : String :=
  if name = "" then "."
  else
    match name.toList.reverse.dropWhile (· = '/') with
    | [] => "/"
    | cs => String.ofList (cs.takeWhile (· ≠ '/')).reverse

def invalidDuneOrJbuild {α : Type} (st : State) : Result Failure State α :=
  st.error ("Invalid " ++ basename st.lexbuf.startP.fname ++ " file") 0

/-- A character as the format `%C` prints it. -/
def charLiteral : String :=
  let body :=
    if c = 39 then "\\'"
    else if c = 92 then "\\\\"
    else if c = 10 then "\\n"
    else if c = 9 then "\\t"
    else if c = 8 then "\\b"
    else if c = 13 then "\\r"
    else if 32 ≤ c ∧ c ≤ 126 then String.ofList [Char.ofNat c.toNat]
    else "\\" ++ toString (c.toNat / 100) ++ toString (c.toNat / 10 % 10) ++ toString (c.toNat % 10)
  "'" ++ body ++ "'"

end

/-! ## Rules -/

/-- The alternatives of `template_variable` that end in an error about a character. -/
def notAllowed (st : State) (skip : Bytes) (other : UInt8) : Result Failure State Part :=
  (st.accept (skip.length + 1)).error
    ("The character " ++ charLiteral other ++ " is not allowed inside %\x7b...\x7d forms")
    skip.length

/-- The action of the first alternative of `template_variable`. -/
def pformPart (st : State) (name : Bytes) (payload : Option Bytes) : Result Failure State Part :=
  if payload = some [] then st.error "payload after : in variable cannot be empty" 0
  else
    let start := st.lexbuf.startP
    .ok (.pform ⟨⟨{ start with cnum := start.cnum - 2 }, st.lexbuf.currP⟩, name, payload⟩) st

/-- `template_variable`. At the end of the input the character that an error is about is the last
one read. -/
def templateVariable (st : State) : Result Failure State Part :=
  let name := st.rest.takeWhile isVarnameChar
  match st.rest.drop name.length with
  | [] =>
    match name.getLast? with
    | none => (st.accept 0).error "%\x7b...\x7d forms cannot be empty" 0
    | some other => notAllowed st name.dropLast other
  | c :: rest =>
    if name = [] then
      if c = 125 then (st.accept 1).error "%\x7b...\x7d forms cannot be empty" 0
      else notAllowed st [] c
    else if c = 125 then pformPart (st.accept (name.length + 1)) name none
    else if c = 58 then
      let payload := rest.takeWhile isPayloadChar
      match rest.drop payload.length with
      | [] =>
        match payload.getLast? with
        | none => notAllowed st name 58
        | some other => notAllowed st (name ++ 58 :: payload.dropLast) other
      | c :: _ =>
        if c = 125 then
          pformPart (st.accept (name.length + 1 + payload.length + 1)) name (some payload)
        else notAllowed st (name ++ 58 :: payload) c
    else notAllowed st name c

/-- `Template.token`, which moves the start of the lexeme back. -/
def templateToken (parts : List Part) (quoted : Bool) (start : Position) (st : State) :
    Result Failure State Token :=
  let st := { st with lexbuf := { st.lexbuf with startP := start } }
  match parts with
  | [] | [.text []] => invalidDuneOrJbuild st
  | [.text s] => .ok (.atom s) st
  | parts => .ok (.template ⟨quoted, parts.reverse, dummyLoc⟩) st

def atom : Nat → List Part → Position → State → Result Failure State Token
  | 0, _, _, st => .error .outOfBound st
  | bound + 1, acc, start, st =>
    match st.rest with
    | [] => templateToken acc false start (st.accept 0)
    | c :: rest =>
      if c = 37 then
        if rest[0]? = some 123 then
          match templateVariable (st.accept 2) with
          | .ok var st => atom bound (var :: acc) start st
          | .error e st => .error e st
        else atom bound (addText acc [37]) start (st.accept 1)
      else if isAtomChar c then
        let s := (c :: rest).takeWhile fun c => isAtomChar c && c ≠ 37
        atom bound (addText acc s) start (st.accept s.length)
      else if 128 ≤ c then (st.accept 1).error Atom.nonAsciiErrorMessage 0
      else templateToken acc false start (st.accept 0)

inductive EscapeSequence where
  | newline
  | other
deriving DecidableEq, Repr

def evalDecimalEscape (c1 c2 c3 : UInt8) : Nat :=
  (c1.toNat - 48) * 100 + (c2.toNat - 48) * 10 + (c3.toNat - 48)

/-- `eval_hex_char`, on a `hexdigit`. -/
def evalHexChar (c : UInt8) : Nat :=
  if isDigit c then c.toNat - 48
  else if 97 ≤ c ∧ c ≤ 102 then c.toNat - 97 + 10
  else c.toNat - 65 + 10

def evalHexEscape (c1 c2 : UInt8) : Nat := evalHexChar c1 * 16 + evalHexChar c2

/-- The character that a one-letter escape stands for. -/
def simpleEscape (c : UInt8) : Option UInt8 :=
  if c = 37 ∨ c = 92 ∨ c = 39 ∨ c = 34 then some c
  else if c = 110 then some 10
  else if c = 114 then some 13
  else if c = 98 then some 8
  else if c = 116 then some 9
  else none

def escapeSequence (st : State) : Result Failure State EscapeSequence :=
  match newline st.rest with
  | some n => .ok .newline (st.accept n).newLine
  | none =>
    match st.rest with
    | [] => (st.accept 0).error "unterminated escape sequence" (-1)
    | c :: rest =>
      match simpleEscape c with
      | some c => .ok .other ((st.accept 1).addText [c])
      | none =>
        if isDigit c then
          match rest with
          | c2 :: c3 :: _ =>
            if isDigit c2 then
              if isDigit c3 then
                let v := evalDecimalEscape c c2 c3
                let st := st.accept 3
                if 255 < v then st.error "escape sequence in quoted string out of range" (-1)
                else .ok .other (st.addText [UInt8.ofNat v])
              else (st.accept 2).error "unterminated decimal escape sequence" (-1)
            else (st.accept 1).error "unterminated decimal escape sequence" (-1)
          | [c2] =>
            (st.accept (if isDigit c2 then 2 else 1)).error
              "unterminated decimal escape sequence" (-1)
          | [] => (st.accept 1).error "unterminated decimal escape sequence" (-1)
        else if c = 120 then
          match rest with
          | c1 :: c2 :: _ =>
            if isHexdigit c1 then
              if isHexdigit c2 then
                .ok .other ((st.accept 3).addText [UInt8.ofNat (evalHexEscape c1 c2)])
              else (st.accept 2).error "unterminated hexadecimal escape sequence" (-1)
            else (st.accept 1).error "unterminated hexadecimal escape sequence" (-1)
          | [c1] =>
            (st.accept (if isHexdigit c1 then 2 else 1)).error
              "unterminated hexadecimal escape sequence" (-1)
          | [] => (st.accept 1).error "unterminated hexadecimal escape sequence" (-1)
        else (st.accept 1).error "unknown escape sequence" (-1)

/-- `quoted_string_after_escaped_newline`: the blanks it skips. -/
def skipBlanks (st : State) : State :=
  st.accept (st.rest.takeWhile fun c => c = 32 || c = 9).length

def quotedString : Nat → State → Result Failure State Token
  | 0, st => .error .outOfBound st
  | bound + 1, st =>
    match newline st.rest with
    | some n => quotedString bound (((st.accept n).newLine).addText (st.rest.take n))
    | none =>
      match st.rest with
      | [] => (st.accept 0).error "unterminated quoted string" 0
      | c :: rest =>
        if c = 34 then (st.accept 1).getToken
        else if c = 92 then
          match escapeSequence (st.accept 1) with
          | .ok .newline st => quotedString bound (skipBlanks st)
          | .ok .other st => quotedString bound st
          | .error e st => .error e st
        else if c = 37 ∧ rest[0]? = some 123 then
          match templateVariable (st.accept 2) with
          | .ok var st => quotedString bound (st.addVar var)
          | .error e st => .error e st
        else quotedString bound ((st.accept 1).addText [c])

inductive BlockStringLineKind where
  | withEscapeSequences
  | raw
deriving DecidableEq, Repr

inductive BlockRule where
  | start (kind : BlockStringLineKind)
  | string
  | afterNewline
  | rawString
deriving DecidableEq, Repr

/-- `block_string_start`, `block_string`, `block_string_after_newline` and `raw_block_string`. -/
def blockString : Nat → BlockRule → State → Result Failure State Token
  | 0, _, st => .error .outOfBound st
  | bound + 1, .afterNewline, st =>
    let n := (st.rest.takeWhile isBlank).length
    match st.rest.drop n with
    | 34 :: 92 :: 124 :: _ => blockString bound (.start .withEscapeSequences) (st.accept (n + 3))
    | 34 :: 92 :: 62 :: _ => blockString bound (.start .raw) (st.accept (n + 3))
    | _ => (st.accept 0).getToken
  | bound + 1, rule, st =>
    match newline st.rest with
    | some n => blockString bound .afterNewline (((st.accept n).newLine).addText (st.rest.take n))
    | none =>
      match st.rest with
      | [] => (st.accept 0).getToken
      | c :: rest =>
        match rule with
        | .start kind =>
          if c = 32 then
            match kind with
            | .withEscapeSequences => blockString bound .string (st.accept 1)
            | .raw => blockString bound .rawString (st.accept 1)
          else (st.accept 1).error "There must be at least one space after \"\\|" 0
        | .string =>
          if c = 92 then
            match escapeSequence (st.accept 1) with
            | .ok .newline st => blockString bound .afterNewline st
            | .ok .other st => blockString bound .string st
            | .error e st => .error e st
          else if c = 37 ∧ rest[0]? = some 123 then
            match templateVariable (st.accept 2) with
            | .ok var st => blockString bound .string (st.addVar var)
            | .error e st => .error e st
          else blockString bound .string ((st.accept 1).addText [c])
        | _ => blockString bound .rawString ((st.accept 1).addText [c])

def startQuotedString (st : State) : Result Failure State Token :=
  match st.rest with
  | 92 :: 124 :: rest =>
    blockString (rest.length + 1) (.start .withEscapeSequences) (st.accept 2)
  | 92 :: 62 :: rest => blockString (rest.length + 1) (.start .raw) (st.accept 2)
  | rest => quotedString (rest.length + 1) (st.accept 0)

def commentTrail : Nat → List Bytes → State → Result Failure State Token
  | 0, _, st => .error .outOfBound st
  | bound + 1, acc, st =>
    match newline st.rest with
    | none => .ok (.comment acc.reverse) (st.accept 0)
    | some n =>
      let blanks := ((st.rest.drop n).takeWhile isBlank).length
      match st.rest.drop (n + blanks) with
      | 59 :: rest =>
        let s := commentBody rest
        commentTrail bound (s :: acc) (st.accept (n + blanks + 1 + s.length))
      | _ => .ok (.comment acc.reverse) (st.accept 0)

def tokenRule (withComments : Bool) : Nat → State → Result Failure State Token
  | 0, st => .error .outOfBound st
  | bound + 1, st =>
    match newline st.rest with
    | some n => tokenRule withComments bound (st.accept n).newLine
    | none =>
      match st.rest with
      | [] => .ok .eof (st.accept 0)
      | c :: rest =>
        if isBlank c then
          tokenRule withComments bound (st.accept (st.rest.takeWhile isBlank).length)
        else if c = 59 then
          let s := commentBody rest
          let st := st.accept (1 + s.length)
          if withComments then commentTrail (st.rest.length + 1) [s] st
          else tokenRule withComments bound st
        else if c = 40 then .ok .lparen (st.accept 1)
        else if c = 41 then .ok .rparen (st.accept 1)
        else if c = 34 then
          let st := st.accept 1
          let start := st.lexbuf.startP
          match startQuotedString { st with buffer := st.buffer.newToken } with
          | .ok token st => .ok token { st with lexbuf := { st.lexbuf with startP := start } }
          | .error e st => .error e st
        else
          let st := st.accept 0
          atom (st.rest.length + 1) [] st.lexbuf.startP st

def token (withComments : Bool) (st : State) : Result Failure State Token :=
  tokenRule withComments (st.rest.length + 1) st

end Dune.Sexp.Lexer
