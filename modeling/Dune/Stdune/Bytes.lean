import Dune.Stdune.Loc

/-!
# Byte strings

OCaml's `string` and `bytes` are sequences of bytes; both are `Bytes` here. The functions are the
ones of the standard library that the modelled code uses: decimal printing, `int_of_string_opt`
with its prefixes and underscores, splitting and joining.
-/

namespace Dune.Stdune

/-- A `string` or a `bytes` value. -/
abbrev Bytes := List UInt8

namespace Bytes

/-- The bytes of an ASCII literal of the source. -/
def ascii (s : String) : Bytes := s.toList.map fun c => UInt8.ofNat c.toNat

/-- The characters of a byte string, for messages. -/
def toText (s : Bytes) : String := String.ofList (s.map fun b => Char.ofNat b.toNat)

def digit (d : Nat) : UInt8 := UInt8.ofNat (48 + d)

/-- The digits of `n` in front of `acc`. -/
def decimalLoop : Nat → Nat → Bytes → Bytes
  | 0, _, acc => acc
  | bound + 1, n, acc =>
    if n < 10 then digit n :: acc else decimalLoop bound (n / 10) (digit (n % 10) :: acc)

/-- `sprintf "%u"`. -/
def decimal (n : Nat) : Bytes := decimalLoop (n + 1) n []

/-- `sprintf "%d"`. -/
def decimalInt : Int → Bytes
  | .ofNat n => decimal n
  | .negSucc n => ascii "-" ++ decimal (n + 1)

/-- The value of a digit in a base of at most 16. -/
def digitValue (c : UInt8) : Option Nat :=
  if 48 ≤ c ∧ c ≤ 57 then some (c.toNat - 48)
  else if 65 ≤ c ∧ c ≤ 70 then some (c.toNat - 55)
  else if 97 ≤ c ∧ c ≤ 102 then some (c.toNat - 87)
  else none

/-- The digits of a number after the first one. Underscores are skipped; a value that does not
fit in 64 bits is refused. -/
def parseDigits (base : Nat) (res : Nat) : Bytes → Option Nat
  | [] => some res
  | c :: cs =>
    if c = 95 then parseDigits base res cs
    else
      match digitValue c with
      | none => none
      | some d =>
        if base ≤ d ∨ 2 ^ 64 ≤ base * res + d then none else parseDigits base (base * res + d) cs

/-- The base of a number and whether it is signed, from its prefix. -/
def parseBase : Bytes → Nat × Bool × Bytes
  | 48 :: c :: s =>
    if c = 120 ∨ c = 88 then (16, false, s)
    else if c = 111 ∨ c = 79 then (8, false, s)
    else if c = 98 ∨ c = 66 then (2, false, s)
    else if c = 117 ∨ c = 85 then (10, false, s)
    else (10, true, 48 :: c :: s)
  | s => (10, true, s)

def parseSign : Bytes → Bool × Bytes
  | 45 :: s => (true, s)
  | 43 :: s => (false, s)
  | s => (false, s)

/-- A value as a 63-bit integer. -/
def wrap63 (i : Int) : Int := (i + 2 ^ 62) % 2 ^ 63 - 2 ^ 62

/-- `int_of_string_opt`, on 64-bit platforms. -/
def intOfString (s : Bytes) : Option Int := do
  let (negative, s) := parseSign s
  let (base, signed, s) := parseBase s
  match s with
  | [] => none
  | c :: cs =>
    let d ← digitValue c
    if base ≤ d then none
    else
      let res ← parseDigits base d cs
      let limit := if signed then (if negative then 2 ^ 62 + 1 else 2 ^ 62) else 2 ^ 63
      if limit ≤ res then none
      else some (wrap63 (if negative then -(res : Int) else res))

def split (on : UInt8) : Bytes → List Bytes
  | [] => [[]]
  | c :: s =>
    if c = on then [] :: split on s
    else
      match split on s with
      | [] => [[c]]
      | part :: parts => (c :: part) :: parts

def concat (sep : Bytes) : List Bytes → Bytes
  | [] => []
  | [s] => s
  | s :: parts => s ++ sep ++ concat sep parts

end Bytes

end Dune.Stdune
