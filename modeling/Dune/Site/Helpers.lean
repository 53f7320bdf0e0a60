import Dune.Rules.ArtifactCopy
import Dune.Stdune.Local

/-!
# Reading substituted values back

The `Helpers` of the library `dune-site`, which are linked into the programs whose placeholders
`Artifact_substitution` replaces. The two share the text `=<len>:<value>`, padded with blanks or cut
to the length of the placeholder, and the list of library directories that is joined by NUL bytes.
-/

open List

namespace Dune.Site

open Dune.Stdune Dune.Stdune.Bytes Dune.Rules.ArtifactSubstitution

inductive SiteExn where
  | notFound
  | exn (e : Exn)
deriving DecidableEq, Repr

/-- `eval`. The position of the colon is counted from the second byte on. -/
def eval : Bytes → Except SiteExn (Option Bytes)
  | [] => .error (.exn (.invalidArgument "index out of bounds"))
  | c :: s =>
    if c = 61 then
      let colonPos := s.idxOf 58
      if colonPos = s.length then .error .notFound
      else
        match intOfString (s.take colonPos) with
        | none => .error (.exn (.failure "int_of_string"))
        | some vlen =>
          let vlen := min vlen (s.length - colonPos - 1)
          if vlen < 0 then .error (.exn (.invalidArgument "String.sub / Bytes.sub"))
          else .ok (some ((s.drop (colonPos + 1)).take vlen.toNat))
    else .ok none

inductive OcamlPath where
  | none
  | relocatable
  | hardcoded (l : List Bytes)
  | findlibConfig (p : Bytes)
deriving DecidableEq, Repr

/-- The value of `Hardcoded_ocaml_path.t` in a program with the given data. -/
def ocamlPath (hardcodedOcamlpath : Bytes) : Except SiteExn OcamlPath := do
  match ← eval hardcodedOcamlpath with
  | .none => return .none
  | some s =>
    if s = ascii "relocatable" then return .relocatable
    else
      match split 0 s with
      | [] => .error (.exn (.invalidArgument "dune error: hardcoded_ocamlpath parsing error"))
      | x :: l =>
        if x = ascii "hardcoded" then return .hardcoded l
        else
          match l with
          | [p] =>
            if x = ascii "findlibconfig" then return .findlibConfig p
            else .error (.exn (.invalidArgument "dune error: hardcoded_ocamlpath parsing error"))
          | _ => .error (.exn (.invalidArgument "dune error: hardcoded_ocamlpath parsing error"))

theorem parseDigits_append (base res : Nat) (xs ys : Bytes) :
    parseDigits base res (xs ++ ys) = (parseDigits base res xs).bind (parseDigits base · ys) := by
  induction xs generalizing res with
  | nil => rfl
  | cons x xs ih =>
    rw [cons_append, parseDigits, parseDigits]
    split
    · exact ih res
    · cases digitValue x with
      | none => rfl
      | some d =>
        dsimp only
        split
        · rfl
        · exact ih _

theorem digitValue_digit {d : Nat} (h : d < 10) : digitValue (digit d) = some d := by
  obtain ⟨hdigit, hvalue⟩ := isDigit_digit h
  rw [digitValue, if_pos hdigit, hvalue]

variable {n len : Nat}

theorem parseDigits_decimal (hpos : 0 < n) (hn : n < 2 ^ 63) :
    ∃ d ds, 0 < d ∧ d < 10 ∧ decimal n = digit d :: ds ∧ parseDigits 10 d ds = some n := by
  refine decimal_induction (p := fun n ds => n < 2 ^ 63 → ∃ d ds', 0 < d ∧ d < 10 ∧
    ds = digit d :: ds' ∧ parseDigits 10 d ds' = some n) ?_ ?_ hpos hn
  · exact fun d hd hd10 _ => ⟨d, [], hd, hd10, rfl, rfl⟩
  · intro n d ds _ hd ih hn
    obtain ⟨d', ds', hd', hd10, rfl, hparse⟩ := ih (by omega)
    refine ⟨d', ds' ++ [digit d], hd', hd10, rfl, ?_⟩
    have hdigit : digit d ≠ 95 := by
      intro h
      have := digitValue_digit hd
      rw [h] at this
      cases this
    rw [parseDigits_append, hparse, Option.bind_some, parseDigits, if_neg hdigit,
      digitValue_digit hd]
    simp only
    rw [if_neg (by omega), parseDigits, Nat.mul_comm]

theorem intOfString_decimal (hn : n < 2 ^ 62) : intOfString (decimal n) = some (n : Int) := by
  rcases Nat.eq_zero_or_pos n with rfl | hpos
  · decide
  · obtain ⟨d, ds, hd, hd10, hdecimal, hparse⟩ := parseDigits_decimal hpos (by omega)
    have hsign : parseSign (digit d :: ds) = (false, digit d :: ds) := by interval_cases d <;> rfl
    have hbase : parseBase (digit d :: ds) = (10, true, digit d :: ds) := by
      interval_cases d <;> rfl
    have hwrap : wrap63 n = n := by
      rw [wrap63]
      omega
    rw [hdecimal, intOfString, hsign]
    simp only [hbase, digitValue_digit hd10, hparse, hwrap, Option.bind_eq_bind, Option.bind_some,
      if_neg (Nat.not_le.mpr hd10), if_true, Bool.false_eq_true, if_false,
        if_neg (Nat.not_le.mpr hn)]

theorem colon_notMem_decimal (n : Nat) : (58 : UInt8) ∉ decimal n := by
  have hdigit : ∀ d < 10, (58 : UInt8) ∉ [digit d] := by decide
  rcases Nat.eq_zero_or_pos n with rfl | hpos
  · decide
  · refine decimal_induction (p := fun _ ds => (58 : UInt8) ∉ ds) (fun d _ => hdigit d) ?_ hpos
    intro n d ds _ hd hds hmem
    exact (mem_append.mp hmem).elim hds (hdigit d hd)

/-- `Sys.max_string_length` on 64-bit platforms. -/
def maxStringLength : Nat := 2 ^ 57 - 9

/-- The length of what stands before the value. -/
def valueStart (s : Bytes) : Nat := (decimal s.length).length + 2

theorem encodeReplacement_eq {s : Bytes} (h : valueStart s ≤ len) :
    ∃ pad, encodeReplacement len s =
      61 :: (decimal s.length ++ 58 :: (s.take (len - valueStart s) ++ pad)) := by
  have hrepl : ascii "=" ++ decimal s.length ++ ascii ":" ++ s =
      61 :: (decimal s.length ++ [58]) ++ s := rfl
  have hheader : (61 :: (decimal s.length ++ [58])).length = valueStart s := by
    rw [length_cons, length_append]
    rfl
  rw [encodeReplacement, hrepl]
  simp only [length_append, hheader]
  have hshort (hle : valueStart s + s.length ≤ len) : s.take (len - valueStart s) = s :=
    take_of_length_le (by omega)
  split
  · next hlt =>
    refine ⟨replicate (len - (valueStart s + s.length)) 32, ?_⟩
    rw [hshort (by omega)]
    simp
  · split
    · next heq =>
      refine ⟨[], ?_⟩
      rw [hshort (by omega)]
      simp
    · refine ⟨[], ?_⟩
      rw [take_append, hheader, take_of_length_le (hheader.trans_le h)]
      simp

theorem eval_encodeReplacement {s : Bytes} (hs : s.length ≤ maxStringLength)
    (h : valueStart s ≤ len) :
    eval (encodeReplacement len s) = .ok (some (s.take (len - valueStart s))) := by
  have hlen := length_encodeReplacement len s
  obtain ⟨pad, hpad⟩ := encodeReplacement_eq h
  rw [hpad] at hlen ⊢
  simp only [length_cons, length_append] at hlen
  have hcolon : (decimal s.length ++ 58 :: (s.take (len - valueStart s) ++ pad)).idxOf 58 =
      (decimal s.length).length := by
    rw [idxOf_append_of_notMem (colon_notMem_decimal _), idxOf_cons_self, Nat.add_zero]
  have hstart : valueStart s = (decimal s.length).length + 2 := rfl
  have hrest : (s.take (len - valueStart s) ++ pad).length = len - valueStart s := by
    rw [length_append]
    omega
  have hmin : (min (s.length : Int) ((decimal s.length ++ 58 ::
      (s.take (len - valueStart s) ++ pad)).length - (decimal s.length).length - 1)) =
      (s.take (len - valueStart s)).length := by
    rw [length_append, length_cons, hrest, length_take]
    omega
  rw [eval, if_pos rfl]
  simp only [hcolon, take_left, intOfString_decimal (Nat.lt_of_le_of_lt hs (by decide)), hmin]
  rw [if_neg (by simp), if_neg (by omega), Int.toNat_natCast, ← drop_drop, drop_left, drop_one,
    tail_cons, take_left]

/-! ## The list of directories -/

theorem split_concat {on : UInt8} {l : List Bytes} (h : ∀ d ∈ l, on ∉ d) (hne : l ≠ []) :
    split on (Bytes.concat [on] l) = l := by
  induction l with
  | nil => exact absurd rfl hne
  | cons d l ih =>
    obtain ⟨hd, hl⟩ := forall_mem_cons.mp h
    cases l with
    | nil => exact LocalPath.split_of_notMem hd
    | cons d' l =>
      rw [Bytes.concat, append_assoc, singleton_append, LocalPath.split_append hd,
        ih hl (cons_ne_nil _ _)]
      exact fun h => cons_ne_nil _ _ h

theorem ocamlPath_hardcoded {text s : Bytes}
    (h : eval text = .ok (some (ascii "hardcoded" ++ 0 :: s))) :
    ocamlPath text = .ok (.hardcoded (split 0 s)) := by
  have hne : ascii "hardcoded" ++ 0 :: s ≠ ascii "relocatable" := fun heq => by
    cases congrArg head? heq
  simp only [ocamlPath, h, bind, Except.bind, if_neg hne,
    LocalPath.split_append (by decide : (0 : UInt8) ∉ ascii "hardcoded")]
  rfl

/-- A value is read back as far as it fits, and the list of directories that dune encodes is read
back unless it is empty. -/
theorem evalSite_readBack_iff {Q : Type} (conf : Conf Q) {l : List Q}
    (hconf : conf.hardcodedOcamlPath = .ok (.hardcoded l))
    (hnul : ∀ dir ∈ l, 0 ∉ conf.toAbsoluteFilename dir) :
    (∀ s len, s.length ≤ maxStringLength → valueStart s ≤ len →
      eval (encodeReplacement len s) = .ok (some (s.take (len - valueStart s)))) ∧
    ∀ s len, Rules.ArtifactSubstitution.eval conf .hardcodedOcamlPath = .ok s →
      s.length ≤ maxStringLength → valueStart s + s.length ≤ len →
      (ocamlPath (encodeReplacement len s) = .ok (.hardcoded (l.map conf.toAbsoluteFilename)) ↔
        l ≠ []) := by
  refine ⟨fun s len => eval_encodeReplacement, fun s len hs hmax hfits => ?_⟩
  have heval := eval_encodeReplacement hmax (Nat.le_of_add_right_le hfits)
  rw [take_of_length_le (by omega)] at heval
  rw [Rules.ArtifactSubstitution.eval, hconf] at hs
  obtain rfl : ascii "hardcoded" ++ 0 :: Bytes.concat [0] (l.map conf.toAbsoluteFilename) = s :=
    Except.ok.inj hs
  rw [ocamlPath_hardcoded heval]
  constructor
  · rintro h rfl
    cases h
  · intro hne
    rw [split_concat (forall_mem_map.mpr hnul) (mt map_eq_nil_iff.mp hne)]

/-- Paths that are strings already, without version control and locations. -/
def plainConf (l : List Bytes) : Conf Bytes where
  describe _ := .ok none
  getLocation _ _ := []
  getConfigPath _ := .ok none
  hardcodedOcamlPath := .ok (.hardcoded l)
  toAbsoluteFilename := id
  reach path _ := path

theorem evalSite_readBack_two :
    eval (encodeReplacement 5 (ascii "v1.2.3")) = .ok (some (ascii "v1")) ∧
      ocamlPath (encodeReplacement 30 (ascii "hardcoded" ++ 0 :: ascii "/a" ++ 0 :: ascii "/b")) =
        .ok (.hardcoded [ascii "/a", ascii "/b"]) :=
  have h := evalSite_readBack_iff (plainConf [ascii "/a", ascii "/b"]) rfl (by decide)
  ⟨h.1 _ 5 (by decide) (by decide),
    (h.2 _ 30 rfl (by decide) (by decide)).mpr (cons_ne_nil _ _)⟩

theorem emptyPath_not_readBack :
    Rules.ArtifactSubstitution.eval (plainConf []) .hardcodedOcamlPath =
        .ok (ascii "hardcoded" ++ [0]) ∧
      ocamlPath (encodeReplacement 30 (ascii "hardcoded" ++ [0])) = .ok (.hardcoded [[]]) := by
  decide

end Dune.Site
