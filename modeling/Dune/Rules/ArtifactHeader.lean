import Dune.Rules.ArtifactSubstitution
import Dune.Stdune.Decimal

/-!
# Where a placeholder can start

The purpose of the copy, without buffers and automata. `header` reads the length field of a
placeholder at the beginning of a stream, and `copyAll` walks a whole stream from left to right:
where a placeholder starts it writes the replacement and skips the placeholder, elsewhere it
writes the byte. `header_of_decode` connects the two notions of a placeholder: whatever `decode`
accepts announces its own length.
-/

namespace Dune.Rules.ArtifactSubstitution

open List Dune.Stdune Dune.Stdune.Bytes

/-! ## The header of a placeholder -/

/-- The length field and the colon after it; `seen` counts the bytes before them. -/
def headerLength : Nat → Nat → Bytes → Option Nat
  | _, _, [] => none
  | seen, acc, c :: s =>
    if 48 ≤ c ∧ c ≤ 57 then
      let acc := acc * 10 + (c.toNat - 48)
      if acc = 0 ∨ maxLen < acc then none else headerLength (seen + 1) acc s
    else if c = 58 then if acc < seen + 1 then none else some acc
    else none

/-- The length that a placeholder at the beginning of `s` announces. -/
def header (s : Bytes) : Option Nat :=
  if placeholderPrefix <+: s then headerLength prefixLen 0 (s.drop prefixLen) else none

/-- The length of a placeholder that is announced and fits. -/
def candidate (s : Bytes) : Option Nat := (header s).filter (· ≤ s.length)

variable {d n len : Nat}

theorem isDigit_digit (h : d < 10) : (48 ≤ digit d ∧ digit d ≤ 57) ∧ (digit d).toNat - 48 = d := by
  have hd : (digit d).toNat = 48 + d := by
    rw [digit, UInt8.toNat_ofNat']
    omega
  refine ⟨⟨?_, ?_⟩, ?_⟩
  · rw [UInt8.le_iff_toNat_le, hd]
    simp
  · rw [UInt8.le_iff_toNat_le, hd]
    simp
    omega
  · omega

theorem headerLength_digit (h : d < 10) (seen acc : Nat) (rest : Bytes) (hpos : acc * 10 + d ≠ 0)
    (hmax : acc * 10 + d ≤ maxLen) :
    headerLength seen acc (digit d :: rest) = headerLength (seen + 1) (acc * 10 + d) rest := by
  obtain ⟨hdigit, hval⟩ := isDigit_digit h
  rw [headerLength, if_pos hdigit]
  simp only [hval]
  rw [if_neg (by omega)]

/-- Reading the digits of a number, from the left, gives the number. -/
theorem headerLength_decimal (hn : 0 < n) (hmax : n ≤ maxLen) (seen : Nat) (rest : Bytes) :
    headerLength seen 0 (decimal n ++ rest) = headerLength (seen + (decimal n).length) n rest := by
  refine decimal_induction (p := fun n ds => n ≤ maxLen → ∀ rest,
    headerLength seen 0 (ds ++ rest) = headerLength (seen + ds.length) n rest) ?_ ?_ hn hmax rest
  · intro d hd hd10 hmax rest
    rw [singleton_append, headerLength_digit hd10 seen 0 rest (by omega) (by omega)]
    simp
  · intro n d ds hn hd ih hmax rest
    rw [append_assoc, ih (by omega), singleton_append,
      headerLength_digit hd _ _ _ (by omega) hmax, length_append]
    rfl

theorem length_placeholderPrefix : placeholderPrefix.length = prefixLen := by decide

theorem header_placeholder {rest : Bytes} (hmax : n ≤ maxLen)
    (hlen : prefixLen + (decimal n).length + 1 ≤ n) :
    header (placeholderPrefix ++ decimal n ++ 58 :: rest) = some n := by
  have hdrop : (placeholderPrefix ++ decimal n ++ 58 :: rest).drop prefixLen =
      decimal n ++ 58 :: rest := by
    rw [append_assoc, ← length_placeholderPrefix, drop_left]
  rw [header, if_pos ⟨decimal n ++ 58 :: rest, by rw [append_assoc]⟩, hdrop,
    headerLength_decimal (by omega) hmax, headerLength, if_neg (by decide), if_pos rfl,
    if_neg (by omega)]

variable {t : Subst} {s : Bytes}

/-- An encoded placeholder announces its own length. -/
theorem encode_eq {minLen : Nat} (h : encode minLen t = .ok s) :
    ∃ rest, s = placeholderPrefix ++ decimal s.length ++ 58 :: rest ∧ s.length ≤ maxLen := by
  simp only [encode] at h
  split at h
  · cases h
  · next hmax =>
    split at h
    · cases h
    · next hlen =>
      cases h
      generalize max minLen _ = len at *
      generalize hpad : List.replicate (len - List.length (placeholderPrefix ++ decimal len ++
        (ascii ":" ++ symbolicValue t ++ ascii "%%"))) (37 : UInt8) = pad
      have hs : (placeholderPrefix ++ decimal len ++
          (ascii ":" ++ symbolicValue t ++ ascii "%%") ++ pad).length = len := by
        rw [length_append, ← hpad, length_replicate]
        omega
      refine ⟨symbolicValue t ++ ascii "%%" ++ pad, ?_, by omega⟩
      rw [hs]
      simp only [append_assoc]
      rfl

theorem decode_eq_some (h : decode s = .ok (some t)) :
    ∃ rest, s = placeholderPrefix ++ decimal s.length ++ 58 :: rest ∧ s.length ≤ maxLen := by
  simp only [decode] at h
  split at h
  · cases h
  · cases h
  · next t' _ =>
    cases he : encode s.length t' with
    | error e =>
      rw [he] at h
      cases h
    | ok s' =>
      rw [he] at h
      by_cases hs : s' = s
      · subst hs
        exact encode_eq he
      · simp [hs, bind, Except.bind, pure, Except.pure] at h

/-- A placeholder that `decode` accepts at the beginning of a stream announces its length. -/
theorem header_of_decode (hlen : len ≤ s.length) (h : decode (s.take len) = .ok (some t)) :
    candidate s = some len := by
  obtain ⟨rest, heq, hmax⟩ := decode_eq_some h
  have htake : (s.take len).length = len := by
    rw [length_take]
    omega
  rw [htake] at heq hmax
  have hs : s = placeholderPrefix ++ decimal len ++ 58 :: (rest ++ s.drop len) := by
    calc s = s.take len ++ s.drop len := (take_append_drop len s).symm
      _ = _ := by rw [heq, append_assoc]; rfl
  have hsize : prefixLen + (decimal len).length + 1 ≤ len := by
    have := congrArg List.length heq
    rw [htake, length_append, length_append, length_cons,
      length_placeholderPrefix] at this
    omega
  rw [candidate]
  have hheader : header s = some len := by
    rw [hs]
    exact header_placeholder hmax hsize
  rw [hheader, Option.filter_some, if_pos (by simpa using hlen)]

/-! ## Copying a whole stream -/

section
variable {Q : Type}

/-- What the mode outputs of the bytes `s`. -/
def Mode.emit (mode : Mode Q) (s : Bytes) : Bytes :=
  match mode with
  | .test => []
  | .copy _ => s

@[simp] theorem Mode.emit_nil (mode : Mode Q) : mode.emit [] = [] := by
  cases mode <;> rfl

theorem Mode.emit_append (mode : Mode Q) (s s' : Bytes) :
    mode.emit (s ++ s') = mode.emit s ++ mode.emit s' := by
  cases mode <;> rfl

/-- A result with more output in front. -/
def prepend (out : Bytes) (r : Except Exn (Bytes × Status)) : Except Exn (Bytes × Status) :=
  r.map fun (o, status) => (out ++ o, status)

@[simp] theorem prepend_nil (r : Except Exn (Bytes × Status)) : prepend [] r = r := by
  cases r <;> rfl

theorem prepend_prepend (a b : Bytes) (r : Except Exn (Bytes × Status)) :
    prepend a (prepend b r) = prepend (a ++ b) r := by
  rcases r with e | ⟨o, st⟩
  · rfl
  · simp [prepend, Except.map]

/-- The copy of a stream, from its first byte on; `skip` bytes are part of a placeholder that was
replaced already. -/
def copyAll (mode : Mode Q) : Nat → Bytes → Except Exn (Bytes × Status)
  | _, [] => .ok ([], .noSubstitution)
  | skip + 1, _ :: s => copyAll mode skip s
  | 0, c :: s =>
    match candidate (c :: s) with
    | none => prepend (mode.emit [c]) (copyAll mode 0 s)
    | some len =>
      match decode ((c :: s).take len) with
      | .error e => .error e
      | .ok none => prepend (mode.emit [c]) (copyAll mode 0 s)
      | .ok (some t) =>
        match mode with
        | .test => .ok ([], .someSubstitution)
        | .copy conf => do
          let r ← eval conf t
          let (out, _) ← copyAll mode (len - 1) s
          pure (encodeReplacement len r ++ out, .someSubstitution)

/-- No placeholder starts here. -/
def Passes (s : Bytes) : Prop := ∀ len, candidate s = some len → decode (s.take len) = .ok none

variable {s : Bytes}

theorem Passes.of_header (h : header s = none) : Passes s := by
  intro len hc
  rw [candidate, h] at hc
  cases hc

section

variable (mode : Mode Q)
include mode

theorem copyAll_pass {c : UInt8} (h : Passes (c :: s)) :
    copyAll mode 0 (c :: s) = prepend (mode.emit [c]) (copyAll mode 0 s) := by
  rw [copyAll]
  cases hc : candidate (c :: s) with
  | none => rfl
  | some len => simp only [h len hc]

theorem copyAll_passed {k : Nat} (hk : k ≤ s.length) (h : ∀ q < k, Passes (s.drop q)) :
    copyAll mode 0 s = prepend (mode.emit (s.take k)) (copyAll mode 0 (s.drop k)) := by
  induction k generalizing s with
  | zero => simp
  | succ k ih =>
    cases s with
    | nil => simp at hk
    | cons c s =>
      have htail : ∀ q < k, Passes (s.drop q) := by
        intro q hq
        exact h (q + 1) (by omega)
      rw [copyAll_pass mode (h 0 (by omega)), ih (by simpa using hk) htail, prepend_prepend,
        ← Mode.emit_append]
      rfl

theorem copyAll_skip (k : Nat) (s : Bytes) : copyAll mode k s = copyAll mode 0 (s.drop k) := by
  induction k generalizing s with
  | zero => rfl
  | succ k ih =>
    cases s with
    | nil => simp [copyAll]
    | cons c s =>
      rw [copyAll, ih]
      rfl

/-- At a placeholder that fits, the copy depends on how it decodes. -/
theorem copyAll_candidate (hpos : 0 < len) (h : candidate s = some len) :
    copyAll mode 0 s =
      match decode (s.take len) with
      | .error e => .error e
      | .ok none => copyAll mode 0 s
      | .ok (some t) =>
        match mode with
        | .test => .ok ([], .someSubstitution)
        | .copy conf => (do
          let r ← eval conf t
          let (out, _) ← copyAll mode 0 (s.drop len)
          pure (encodeReplacement len r ++ out, .someSubstitution)) := by
  cases s with
  | nil =>
    exfalso
    have hlen := Option.filter_eq_some_iff.mp h
    simp only [length_nil, decide_eq_true_eq] at hlen
    omega
  | cons c s =>
    obtain ⟨len, rfl⟩ : ∃ l, len = l + 1 := ⟨len - 1, by omega⟩
    cases hd : decode ((c :: s).take (len + 1)) with
    | error e => rw [copyAll, h]; simp only [hd]
    | ok r =>
      cases r with
      | none => rfl
      | some t =>
        rw [copyAll, h]
        simp only [hd, Nat.add_sub_cancel, copyAll_skip mode len, drop_succ_cons]

end

end

end Dune.Rules.ArtifactSubstitution
