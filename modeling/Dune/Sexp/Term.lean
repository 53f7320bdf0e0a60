import Dune.Sexp.Escape

/-!
# S-expressions and how they are printed

`T` is `Dune_sexp.T.t`, `Ast` the same with a location on every node, and `Template` the
interpolated strings such as `%{name:payload}`. Strings are lists of bytes.
-/

namespace Dune.Sexp

open Dune.Stdune

namespace Atom

/-- The characters that end an atom in `Atom.is_valid`. -/
def isForbidden (c : UInt8) : Bool :=
  c = 34 || c = 40 || c = 41 || c = 59 || c ≤ 32 || 127 ≤ c

mutual

/-- `loop` of `Atom.is_valid`, on what is left of the string. -/
def loop : Bytes → Bool
  | [] => true
  | c :: s => if c = 37 then afterPercent s else if isForbidden c then false else loop s

def afterPercent : Bytes → Bool
  | [] => true
  | c :: s =>
    if c = 37 then afterPercent s else if isForbidden c || c = 123 then false else loop s

end

def isValid (s : Bytes) : Bool := 0 < s.length && loop s

def nonAsciiErrorMessage : String :=
  "Invalid atom: contains non-ASCII character(s). Atoms must only contain ASCII characters."

end Atom

/-! ## Templates -/

structure Pform where
  loc : Loc
  name : Bytes
  payload : Option Bytes
deriving DecidableEq, Repr

inductive Part where
  | text (s : Bytes)
  | pform (v : Pform)
deriving DecidableEq, Repr

structure Template where
  quoted : Bool
  parts : List Part
  loc : Loc
deriving DecidableEq, Repr

def Part.removeLocs : Part → Part
  | .text s => .text s
  | .pform v => .pform { v with loc := .none }

/-- `Pp.add_pform`. -/
def Pform.toBytes (v : Pform) : Bytes :=
  match v.payload with
  | none => 37 :: 123 :: (v.name ++ [125])
  | some payload => 37 :: 123 :: (v.name ++ 58 :: (payload ++ [125]))

namespace Template

def removeLocs (t : Template) : Template :=
  { t with loc := .none, parts := t.parts.map Part.removeLocs }

/-- `commit_text` of `Pp.to_string`: the text is checked when it is not quoted. -/
def commitText (quoted : Bool) (s : Bytes) : Except Exn Bytes :=
  if s = [] then .ok []
  else if quoted then .ok (Escape.escaped s)
  else if Atom.isValid s then .ok s
  else .error (.codeError "Invalid text in unquoted template")

/-- `add_parts` of `Pp.to_string`: adjacent texts are printed as one. -/
def addParts (quoted : Bool) (accText : Bytes) : List Part → Except Exn Bytes
  | [] => commitText quoted accText
  | .text s :: rest => addParts quoted (accText ++ s) rest
  | .pform v :: rest => do
    let text ← commitText quoted accText
    let rest ← addParts quoted [] rest
    return text ++ (v.toBytes ++ rest)

/-- `to_string`. -/
def toBytes (t : Template) : Except Exn Bytes := do
  let parts ← addParts t.quoted [] t.parts
  return if t.quoted then 34 :: (parts ++ [34]) else parts

end Template

/-! ## S-expressions -/

inductive T where
  | atom (a : Bytes)
  | quotedString (s : Bytes)
  | list (l : List T)
  | template (t : Template)

inductive Ast where
  | atom (loc : Loc) (a : Bytes)
  | quotedString (loc : Loc) (s : Bytes)
  | template (t : Template)
  | list (loc : Loc) (l : List Ast)

mutual

def T.toBytes : T → Except Exn Bytes
  | .atom a => .ok a
  | .quotedString s => .ok (Escape.quoted s)
  | .list l => do
    let strings ← T.listToBytes l
    return 40 :: (Bytes.concat [32] strings ++ [41])
  | .template t => t.toBytes

def T.listToBytes : List T → Except Exn (List Bytes)
  | [] => .ok []
  | t :: l => do
    let string ← t.toBytes
    let strings ← T.listToBytes l
    return string :: strings

end

mutual

def Ast.removeLocs : Ast → T
  | .template t => .template t.removeLocs
  | .atom _ a => .atom a
  | .quotedString _ s => .quotedString s
  | .list _ l => .list (Ast.listRemoveLocs l)

def Ast.listRemoveLocs : List Ast → List T
  | [] => []
  | t :: l => t.removeLocs :: Ast.listRemoveLocs l

end

def Ast.loc : Ast → Loc
  | .atom loc _ | .quotedString loc _ | .list loc _ => loc
  | .template t => t.loc

mutual

/-- An S-expression without the locations in its templates. -/
def T.removeLocs : T → T
  | .template t => .template t.removeLocs
  | .atom a => .atom a
  | .quotedString s => .quotedString s
  | .list l => .list (T.listRemoveLocs l)

def T.listRemoveLocs : List T → List T
  | [] => []
  | t :: l => t.removeLocs :: T.listRemoveLocs l

end

end Dune.Sexp
