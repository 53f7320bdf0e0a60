import Dune.Sexp.Term

/-!
# The predicate language

`predicate_lang.ml`: predicates over elements, with their encoder and decoder. A decoder of elements
reads one S-expression. `decodeOne` is `decode_one` on the S-expression it peeks at; the
S-expressions after it are not touched, and `many` reads all of them.
-/

namespace Dune

open Dune.Stdune Dune.Sexp

def Sexp.T.addLoc (loc : Loc) : T → Ast
  | .atom a => .atom loc a
  | .quotedString s => .quotedString loc s
  | .list l => .list loc (addLocs loc l)
  | .template t => .template { t with loc }
where
  addLocs (loc : Loc) : List T → List Ast
    | [] => []
    | t :: l => t.addLoc loc :: addLocs loc l

inductive PredicateLang (A : Type) where
  | true
  | false
  | element (a : A)
  | not (t : PredicateLang A)
  | standard
  | or (l : List (PredicateLang A))
  | and (l : List (PredicateLang A))

namespace PredicateLang

section
variable {A E : Type}

def diff (a : PredicateLang A) : PredicateLang A → PredicateLang A
  | .or [] => a
  | .and [] => .or []
  | b => .and [a, .not b]

/-- `or_`. -/
def orOf : List (PredicateLang A) → PredicateLang A
  | [] => .false
  | [x] => x
  | xs => .or xs

/-- `and_`. -/
def andOf : List (PredicateLang A) → PredicateLang A
  | [] => .true
  | [x] => x
  | xs => .and xs

def notOr (l : List (PredicateLang A)) : PredicateLang A := .not (.or l)

def includeMessage : String := ":include isn't supported in the predicate language"

def quoteMessage : String :=
  "This atom must be quoted because it is the first element of a list and doesn't start with - or:"

mutual

def decodeOne (f : Ast → Except Exn A) : Ast → Except Exn (PredicateLang A)
  | .atom loc s =>
    if s = Bytes.ascii "\\" then .error (.userError loc "unexpected \\")
    else if s = [] then (f (.atom loc s)).map .element
    else if s = Bytes.ascii ":standard" then .ok .standard
    else if s = Bytes.ascii ":include" then .error (.userError loc includeMessage)
    else if s.head? = some 58 then .error (.userError loc ("undefined symbol " ++ s.toText))
    else (f (.atom loc s)).map .element
  | .quotedString loc s => (f (.quotedString loc s)).map .element
  | .template t => (f (.template t)).map .element
  | .list _ [] => many f orOf [] []
  | .list _ (.atom loc s :: args) =>
    if s = Bytes.ascii ":include" then .error (.userError loc includeMessage)
    else if s = Bytes.ascii "or" then many f orOf [] args
    else if s = Bytes.ascii "and" then many f andOf [] args
    else if s = Bytes.ascii "not" then many f notOr [] args
    else if s ≠ [] ∧ s.head? ≠ some 45 ∧ s.head? ≠ some 58 then
      .error (.userError loc quoteMessage)
    else many f orOf [] (.atom loc s :: args)
  | .list _ (x :: l) => many f orOf [] (x :: l)

def many (f : Ast → Except Exn A) (k : List (PredicateLang A) → PredicateLang A)
    (acc : List (PredicateLang A)) : List Ast → Except Exn (PredicateLang A)
  | [] => .ok (k acc.reverse)
  | .atom loc s :: l =>
    if s = Bytes.ascii "\\" then (many f orOf [] l).map (diff (k acc.reverse))
    else do
      let x ← decodeOne f (.atom loc s)
      many f k (x :: acc) l
  | x :: l => do
    let x ← decodeOne f x
    many f k (x :: acc) l

end

/-- `decode`, on all S-expressions that are left. -/
def decode (f : Ast → Except Exn A) (l : List Ast) : Except Exn (PredicateLang A) :=
  many f orOf [] l

mutual

/-- The constants are encoded as `Or []` and `And []` are. -/
def encode (f : A → T) : PredicateLang A → T
  | .true => .list [.atom (Bytes.ascii "or"), .list []]
  | .false => .list [.atom (Bytes.ascii "and"), .list []]
  | .element a => f a
  | .not a => .list [.atom (Bytes.ascii "not"), encode f a]
  | .standard => .atom (Bytes.ascii ":standard")
  | .or xs => .list [.atom (Bytes.ascii "or"), .list (encodeAll f xs)]
  | .and xs => .list [.atom (Bytes.ascii "and"), .list (encodeAll f xs)]

/-- `Encoder.list (encode f)`, without the list around it. -/
def encodeAll (f : A → T) : List (PredicateLang A) → List T
  | [] => []
  | x :: xs => encode f x :: encodeAll f xs

end

mutual

/-- `test_`, with the answer of the standard predicate. -/
def testWith (standard : Bool) (test : A → E → Bool) (elem : E) : PredicateLang A → Bool
  | .true => .true
  | .false => .false
  | .not t => !testWith standard test elem t
  | .element f => test f elem
  | .or xs => testAny standard test elem xs
  | .and xs => testAll standard test elem xs
  | .standard => standard

def testAny (standard : Bool) (test : A → E → Bool) (elem : E) : List (PredicateLang A) → Bool
  | [] => .false
  | x :: xs => testWith standard test elem x || testAny standard test elem xs

def testAll (standard : Bool) (test : A → E → Bool) (elem : E) : List (PredicateLang A) → Bool
  | [] => .true
  | x :: xs => testWith standard test elem x && testAll standard test elem xs

end

/-- `test`. The predicate `std` must not mention the standard one, else the source does not return.
-/
def test (t std : PredicateLang A) (test : A → E → Bool) (elem : E) : Bool :=
  testWith (testWith .false test elem std) test elem t

end

end PredicateLang

end Dune
