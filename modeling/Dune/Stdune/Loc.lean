import Mathlib

/-!
# Source locations and exceptions

`Position` is `Lexing.position` and `Loc` a pair of them, as `Lexbuf.Loc.t` stores it.
`Loc.none` is the location that generated terms carry. `Exn` has the exceptions that the
modelled code raises and does not catch.
-/

namespace Dune.Stdune

structure Position where
  fname : String
  lnum : Int
  bol : Int
  cnum : Int
deriving DecidableEq, Repr

/-- `Lexing.dummy_pos`. -/
def Position.dummy : Position := ⟨"", 0, 0, -1⟩

def Position.inFile (fname : String) : Position := ⟨fname, 1, 0, 0⟩

structure Loc where
  start : Position
  stop : Position
deriving DecidableEq, Repr

def Loc.inFile (fname : String) : Loc := ⟨.inFile fname, .inFile fname⟩

def Loc.none : Loc := .inFile "<none>"

/-- An exception: `User_error.E`, `Code_error.E`, or the standard library's
`Invalid_argument`, `Failure` and `Assert_failure`. -/
inductive Exn where
  | userError (loc : Loc) (msg : String)
  | codeError (msg : String)
  | invalidArgument (msg : String)
  | failure (msg : String)
  | assertFailure
deriving DecidableEq, Repr

/-- A computation that succeeds has succeeded in its first step. -/
theorem bind_ok {ε α β : Type} {x : Except ε α} {f : α → Except ε β} {b : β}
    (h : (x >>= f) = .ok b) : ∃ a, x = .ok a ∧ f a = .ok b := by
  cases x with
  | error e => cases h
  | ok a => exact ⟨a, rfl, h⟩

/-- What every step of a loop keeps, a loop that succeeds keeps. -/
theorem foldlM_invariant {ε σ α : Type} {f : σ → α → Except ε σ} {I : σ → Prop}
    (hf : ∀ {s a s'}, I s → f s a = .ok s' → I s') {l : List α} {s s' : σ} (hs : I s)
    (h : l.foldlM f s = .ok s') : I s' := by
  induction l generalizing s with
  | nil =>
    cases h
    exact hs
  | cons a l ih =>
    rw [List.foldlM_cons] at h
    obtain ⟨s₁, ha, h⟩ := bind_ok h
    exact ih (hf hs ha) h

end Dune.Stdune
