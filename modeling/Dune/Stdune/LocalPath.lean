import Dune.Stdune.Bytes

/-!
# Local paths

`Path0.Local_gen`: a path relative to a root, in canonical form: `.` for the root, or components
joined by single slashes. Only the Unix behaviour is modelled.
-/

namespace Dune.Stdune

namespace LocalPath

open Bytes

def root : Bytes := ascii "."

def isRoot (t : Bytes) : Bool := t == root

/-- The loop of `explode_path`: the components between slashes, without the empty ones. -/
def components (path : Bytes) : List Bytes := (split 47 path).filter fun c => !c.isEmpty

def explodePath (path : Bytes) : List Bytes :=
  if path = ascii "." then [path]
  else
    match components path with
    | [] => []
    | c :: xs => if c = ascii "." then xs else c :: xs

/-- `Local_gen.parent`: everything before the last slash. -/
def parent (t : Bytes) : Option Bytes :=
  if isRoot t then none
  else if t.contains 47 then some ((t.reverse.dropWhile (· != 47)).tail.reverse)
  else some root

/-- `Local_gen.L.relative_result`; `none` is `Outside_the_workspace`. -/
def relativeComponents (t : Bytes) : List Bytes → Option Bytes
  | [] => some t
  | fn :: rest =>
    if fn = ascii "." then relativeComponents t rest
    else if fn = ascii ".." then
      match parent t with
      | none => none
      | some parent => relativeComponents parent rest
    else if isRoot t then relativeComponents fn rest
    else relativeComponents (t ++ 47 :: fn) rest

def isRelative : Bytes → Bool
  | 47 :: _ => false
  | _ => true

/-- `Local_gen.relative_result`: an absolute path is a code error. -/
def relativeResult (t path : Bytes) : Except Exn (Option Bytes) :=
  if isRelative path then .ok (relativeComponents t (explodePath path))
  else .error (.codeError "Local.relative: received absolute path")

/-- The states of `is_canonicalized`, which reads a path from its end. -/
inductive Canon where
  | beforeSlash
  | beforeDotSlash
  | beforeDotDotSlash
  | inComponent

/-- The automaton of `is_canonicalized`, on the reversed path. -/
def canonicalFrom : Canon → Bytes → Bool
  | .inComponent, [] => true
  | _, [] => false
  | .inComponent, c :: s =>
    if c = 47 then canonicalFrom .beforeSlash s else canonicalFrom .inComponent s
  | .beforeSlash, c :: s =>
    if c = 47 then false
    else if c = 46 then canonicalFrom .beforeDotSlash s
    else canonicalFrom .inComponent s
  | .beforeDotSlash, c :: s =>
    if c = 47 then false
    else if c = 46 then canonicalFrom .beforeDotDotSlash s
    else canonicalFrom .inComponent s
  | .beforeDotDotSlash, c :: s =>
    if c = 47 then false else canonicalFrom .inComponent s

variable (s : Bytes)

def isCanonicalized : Bool := canonicalFrom .beforeSlash s.reverse

def isValid : Bool := isRoot s || isCanonicalized s

def parseStringResult : Except Exn (Option Bytes) :=
  if isValid s then .ok (some s)
  else if s.isEmpty then .ok (some root)
  else relativeResult root s

def ofString : Except Exn Bytes := do
  match ← parseStringResult s with
  | some t => pure t
  | none =>
    .error (.userError .none
      ("path outside the workspace: " ++ s.toText ++ " from " ++ root.toText))

end LocalPath

end Dune.Stdune
