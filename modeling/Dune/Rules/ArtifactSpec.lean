import Dune.Rules.ArtifactCopy

/-!
# What a copy is

The specification of the copy in terms of `decode` alone: a placeholder is any part of the stream
that `decode` accepts, and the copy of a stream replaces the leftmost placeholders. `parse` meets
it on exactly the streams on which `decode` and `eval` raise nothing (`decodesAll`): `decode`
turns only its own exception into "no placeholder", so a part of a stream that looks like a
placeholder and has, say, an unknown section aborts the copy.
-/

namespace Dune.Rules.ArtifactSubstitution

open List Dune.Stdune Dune.Stdune.Bytes

section
variable {Q : Type}

/-- The placeholder that starts at the beginning of `s`, with its length. -/
def placeholderAt (s : Bytes) : Option (Nat × Subst) :=
  (List.range (s.length + 1)).findSome? fun len =>
    match decode (s.take len) with
    | .ok (some t) => some (len, t)
    | _ => none

/-- The stream with every leftmost placeholder replaced; `none` if a replacement has no value. -/
def substituted (conf : Conf Q) : Nat → Bytes → Option Bytes
  | _, [] => some []
  | skip + 1, _ :: s => substituted conf skip s
  | 0, c :: s =>
    match placeholderAt (c :: s) with
    | none => (substituted conf 0 s).map (c :: ·)
    | some (len, t) =>
      match eval conf t with
      | .error _ => none
      | .ok r => (substituted conf (len - 1) s).map (encodeReplacement len r ++ ·)

/-- Some part of the stream is a placeholder. -/
def HasPlaceholder (s : Bytes) : Prop :=
  ∃ pos len t, pos + len ≤ s.length ∧ decode ((s.drop pos).take len) = .ok (some t)

variable (mode : Mode Q)

/-- The result that a run on `stream` should have. -/
def Meets (stream : Bytes) (r : Except Failure (Bytes × Status)) : Prop :=
  ∃ out status, r = .ok (out, status) ∧ (status = .someSubstitution ↔ HasPlaceholder stream) ∧
    match mode with
    | .test => out = []
    | .copy conf => substituted conf 0 stream = some out ∧ out.length = stream.length

/-- No part of the stream that the copy takes for a placeholder makes `decode` raise, or `eval` if
it is one. -/
def decodesAll (mode : Mode Q) : Nat → Bytes → Bool
  | _, [] => true
  | skip + 1, _ :: s => decodesAll mode skip s
  | 0, c :: s =>
    match candidate (c :: s) with
    | none => decodesAll mode 0 s
    | some len =>
      match decode ((c :: s).take len) with
      | .error _ => false
      | .ok none => decodesAll mode 0 s
      | .ok (some t) =>
        match mode with
        | .test => true
        | .copy conf =>
          match eval conf t with
          | .error _ => false
          | .ok _ => decodesAll mode (len - 1) s

variable {s : Bytes} {len : Nat}

theorem placeholderAt_eq_some {t : Subst} (h : placeholderAt s = some (len, t)) :
    candidate s = some len ∧ decode (s.take len) = .ok (some t) := by
  obtain ⟨len', hmem, hlen'⟩ := exists_of_findSome?_eq_some h
  rw [mem_range] at hmem
  split at hlen'
  · next t' hd =>
    cases hlen'
    exact ⟨header_of_decode (by omega) hd, hd⟩
  · cases hlen'

theorem placeholderAt_of_decode {t : Subst} (hlen : len ≤ s.length)
    (hd : decode (s.take len) = .ok (some t)) : placeholderAt s = some (len, t) := by
  cases hp : placeholderAt s with
  | none =>
    have hnone := List.findSome?_eq_none_iff.mp hp len (mem_range.mpr (by omega))
    rw [hd] at hnone
    cases hnone
  | some r =>
    obtain ⟨len', t'⟩ := r
    obtain ⟨hc', hd'⟩ := placeholderAt_eq_some hp
    have hc := header_of_decode hlen hd
    rw [hc'] at hc
    obtain rfl := Option.some.inj hc
    rw [hd] at hd'
    cases hd'
    rfl

theorem placeholderAt_of_passes (h : Passes s) : placeholderAt s = none := by
  cases hp : placeholderAt s with
  | none => rfl
  | some r =>
    obtain ⟨hc, hd⟩ := placeholderAt_eq_some hp
    rw [h _ hc] at hd
    cases hd

theorem candidate_le (h : candidate s = some len) : 0 < len ∧ len ≤ s.length := by
  obtain ⟨hh, hlen⟩ := Option.filter_eq_some_iff.mp h
  have := (header_bounds hh).1
  rw [decide_eq_true_eq] at hlen
  omega

variable {c : UInt8}

theorem hasPlaceholder_cons (h : Passes (c :: s)) : HasPlaceholder (c :: s) ↔ HasPlaceholder s := by
  constructor
  · rintro ⟨pos, len, t, hlen, hd⟩
    cases pos with
    | zero =>
      have hp := placeholderAt_of_decode (s := c :: s) (by omega) hd
      rw [placeholderAt_of_passes h] at hp
      cases hp
    | succ pos => exact ⟨pos, len, t, by simp at hlen; omega, hd⟩
  · rintro ⟨pos, len, t, hlen, hd⟩
    exact ⟨pos + 1, len, t, by simp; omega, hd⟩

/-! ## The copy meets the specification -/

/-- The output of a copy of the `skip`ped stream `s`, as it should be. -/
def Expected (skip : Nat) (s out : Bytes) : Prop :=
  match mode with
  | .test => out = []
  | .copy conf => substituted conf skip s = some out ∧ out.length = s.length - skip

theorem Expected.cons {mode : Mode Q} {out : Bytes} (hp : Passes (c :: s))
    (h : Expected mode 0 s out) : Expected mode 0 (c :: s) (mode.emit [c] ++ out) := by
  cases mode with
  | test =>
    have hout : out = [] := h
    rw [hout]
    rfl
  | copy conf =>
    obtain ⟨hsub, hlen⟩ := h
    refine ⟨?_, ?_⟩
    · rw [substituted, placeholderAt_of_passes hp, hsub]
      rfl
    · rw [Mode.emit, length_append, hlen, length_singleton, length_cons]
      omega

/-- The stream is copied with the status and the output that are expected. -/
def CopyMeets (mode : Mode Q) (skip : Nat) (s : Bytes) : Prop :=
  ∃ out status, copyAll mode skip s = .ok (out, status) ∧
    (skip = 0 → (status = .someSubstitution ↔ HasPlaceholder s)) ∧ Expected mode skip s out

theorem CopyMeets.pass {mode : Mode Q} (hp : Passes (c :: s)) (h : CopyMeets mode 0 s) :
    CopyMeets mode 0 (c :: s) := by
  obtain ⟨out, status, hcopy, hstatus, hout⟩ := h
  refine ⟨mode.emit [c] ++ out, status, ?_, fun _ => ?_, hout.cons hp⟩
  · rw [copyAll_pass mode hp, hcopy]
    rfl
  · rw [hasPlaceholder_cons hp]
    exact hstatus rfl

theorem copyAll_meets (skip : Nat) (s : Bytes) (hskip : skip ≤ s.length)
    (h : decodesAll mode skip s = true) : CopyMeets mode skip s := by
  fun_induction decodesAll mode skip s with
  | case1 skip =>
    obtain rfl : skip = 0 := by simpa using hskip
    refine ⟨[], .noSubstitution, rfl, fun _ => ⟨nofun, ?_⟩, ?_⟩
    · rintro ⟨pos, len, t, hlen, hd⟩
      have hlen0 : len ≤ ([] : Bytes).length := by simp at hlen ⊢; omega
      have := candidate_le (header_of_decode (s := []) hlen0 (by simpa using hd))
      simp at this
      omega
    · cases mode with
      | test => rfl
      | copy conf => exact ⟨rfl, rfl⟩
  | case2 skip c s ih =>
    obtain ⟨out, status, hcopy, -, hout⟩ := ih (by simpa using hskip) h
    refine ⟨out, status, hcopy, nofun, ?_⟩
    cases mode with
    | test => exact hout
    | copy conf => exact ⟨hout.1, by rw [hout.2, length_cons]; omega⟩
  | case3 c s hc ih =>
    refine CopyMeets.pass (fun len hlen => ?_) (ih (Nat.zero_le _) h)
    rw [hc] at hlen
    cases hlen
  | case4 => cases h
  | case5 c s len hc hd ih =>
    refine CopyMeets.pass (fun len' hlen' => ?_) (ih (Nat.zero_le _) h)
    rw [hc] at hlen'
    rw [← Option.some.inj hlen']
    exact hd
  | case6 c s len hc t hd hmode =>
    obtain ⟨hpos, hle⟩ := candidate_le hc
    subst hmode
    refine ⟨[], .someSubstitution, ?_, fun _ => ⟨fun _ => ⟨0, len, t, by omega, hd⟩, fun _ => rfl⟩,
      rfl⟩
    rw [copyAll_candidate _ hpos hc]
    simp only [hd]
  | case7 => cases h
  | case8 c s len hc t hd conf hmode r he ih =>
    obtain ⟨hpos, hle⟩ := candidate_le hc
    subst hmode
    obtain ⟨out, status, hcopy, -, hsub, hlen⟩ := ih (by simp at hle; omega) h
    refine ⟨encodeReplacement len r ++ out, .someSubstitution, ?_,
      fun _ => ⟨fun _ => ⟨0, len, t, by omega, hd⟩, fun _ => rfl⟩, ?_, ?_⟩
    · simp only [copyAll, hc, hd, he, hcopy, bind, Except.bind, pure, Except.pure]
    · simp [substituted, placeholderAt_of_decode hle hd, he, hsub]
    · rw [length_append, length_encodeReplacement, hlen, length_cons]
      simp at hle
      omega

theorem copyAll_raises (skip : Nat) (s : Bytes)
    (h : decodesAll mode skip s = false) : ∃ e, copyAll mode skip s = .error e := by
  fun_induction decodesAll mode skip s with
  | case1 => cases h
  | case2 _ _ _ ih => exact ih h
  | case3 c s hc ih =>
    obtain ⟨e, he⟩ := ih h
    exact ⟨e, by simp only [copyAll, hc, he]; rfl⟩
  | case4 c s len hc e hd => exact ⟨e, by simp only [copyAll, hc, hd]⟩
  | case5 c s len hc hd ih =>
    obtain ⟨e, he⟩ := ih h
    exact ⟨e, by simp only [copyAll, hc, hd, he]; rfl⟩
  | case6 => cases h
  | case7 c s len hc t hd conf hmode e he =>
    subst hmode
    exact ⟨e, by simp only [copyAll, hc, hd, he, bind, Except.bind]⟩
  | case8 c s len hc t hd conf hmode r he ih =>
    subst hmode
    obtain ⟨e, hcopy⟩ := ih h
    exact ⟨e, by simp only [copyAll, hc, hd, he, hcopy, bind, Except.bind]⟩

/-- A run meets the specification on the streams that decode, and raises on the others. -/
theorem meets_iff_decodesAll (stream : Bytes) (sizes : Nat → Nat) :
    Meets mode stream (parse mode stream sizes) ↔ decodesAll mode 0 stream = true := by
  rw [parse_eq_copyAll]
  constructor
  · rintro ⟨out, status, hr, -⟩
    cases hall : decodesAll mode 0 stream with
    | true => rfl
    | false =>
      obtain ⟨e, he⟩ := copyAll_raises mode 0 stream hall
      rw [he] at hr
      cases hr
  · intro hall
    obtain ⟨out, status, hcopy, hstatus, hout⟩ :=
      copyAll_meets mode 0 stream (Nat.zero_le _) hall
    refine ⟨out, status, ?_, hstatus rfl, hout⟩
    rw [hcopy]
    cases status <;> rfl

/-- Every run stays inside the buffer, ends, and does not depend on how the channel splits the
stream; it copies the stream as specified if and only if nothing on its way makes `decode` or
`eval` raise. -/
theorem parse_copies (mode : Mode Q) (stream : Bytes) (sizes : Nat → Nat) :
    parse mode stream sizes ≠ .error .outOfBounds ∧ parse mode stream sizes ≠ .error .outOfFuel ∧
      (∀ sizes', parse mode stream sizes' = parse mode stream sizes) ∧
      (Meets mode stream (parse mode stream sizes) ↔ decodesAll mode 0 stream = true) := by
  refine ⟨?_, ?_, ?_, meets_iff_decodesAll mode stream sizes⟩
  · rw [parse_eq_copyAll]
    rcases copyAll mode 0 stream with e | ⟨o, _ | _⟩ <;> exact nofun
  · rw [parse_eq_copyAll]
    rcases copyAll mode 0 stream with e | ⟨o, _ | _⟩ <;> exact nofun
  · intro sizes'
    rw [parse_eq_copyAll, parse_eq_copyAll]

end

def Conf.dummy : Conf Unit where
  describe _ := .ok none
  getLocation _ _ := ()
  getConfigPath _ := .ok none
  hardcodedOcamlPath := .ok (.hardcoded [])
  toAbsoluteFilename _ := []
  reach _ _ := []

/-- A stream with an unknown section where a placeholder would have one. -/
theorem parse_unknown_section :
    parse (.copy Conf.dummy) (ascii "%%DUNE_PLACEHOLDER:40:location:foo:1:a%%") (fun _ => 1) =
        .error (.raised (.codeError "Option.value_exn")) ∧
      ¬Meets (.copy Conf.dummy) (ascii "%%DUNE_PLACEHOLDER:40:location:foo:1:a%%")
        (parse (.copy Conf.dummy) (ascii "%%DUNE_PLACEHOLDER:40:location:foo:1:a%%")
          (fun _ => 1)) := by
  constructor
  · rw [parse_eq_copyAll]
    rfl
  · rw [meets_iff_decodesAll]
    decide

end Dune.Rules.ArtifactSubstitution
