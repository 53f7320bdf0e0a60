import Dune.Stdune.Bytes
import Dune.Stdune.Map

/-!
# File names

A `Filename.t` is one component of a path: not empty, not `.` or `..`, and without a slash. File
names are ordered as strings are. Only the Unix behaviour is modelled.
-/

namespace Dune.Stdune

open Bytes

def Filename.isValid (s : Bytes) : Bool :=
  0 < s.length && s != ascii "." && s != ascii ".." && !s.contains 47

structure Filename where
  toString : Bytes
  valid : Filename.isValid toString = true

namespace Filename

/-- The numbers of the bytes, by which strings are compared. -/
def codes (f : Filename) : List Nat := f.toString.map UInt8.toNat

theorem codes_injective : Function.Injective codes := by
  rintro ⟨s, hs⟩ ⟨t, ht⟩ h
  have hst : s = t := List.map_injective_iff.mpr (fun _ _ => UInt8.toNat_inj.mp) h
  subst hst
  rfl

instance : LinearOrder Filename := LinearOrder.lift' codes codes_injective

/-- There is always another file name. -/
instance : Infinite Filename := by
  have hvalid : ∀ n, isValid (List.replicate (n + 3) 97) = true := by
    intro n
    rw [isValid, List.contains_eq_any_beq, List.any_replicate]
    simp [List.replicate_succ, ascii]
  refine Infinite.of_injective (fun n : Nat => ⟨List.replicate (n + 3) 97, hvalid n⟩) ?_
  intro m n h
  have := congrArg (fun f : Filename => f.toString.length) h
  simpa using this

end Filename

end Dune.Stdune
