import Dune.Rules.ArtifactHeader

/-!
# What `decode` raises

`decode` expects what `encode` writes. It turns its own `Exit` into `None`, but a text that looks
like a placeholder can have a symbolic value on which one of the functions it calls raises
(`Unexpected`), or one that `encode` finds too long.
-/

namespace Dune.Rules.ArtifactSubstitution

open List Dune.Stdune Dune.Stdune.Bytes

variable {minLen : Nat} {t : Subst} {s : Bytes}

/-! ## Lengths -/

theorem length_decimal_le {n k : Nat} (hk : 0 < k) (h : n < 10 ^ k) : (decimal n).length ≤ k := by
  induction k generalizing n with
  | zero => omega
  | succ k ih =>
    by_cases hn : n < 10
    · rw [decimal_of_lt hn, length_singleton]
      omega
    · have hk : 0 < k := by
        rcases Nat.eq_zero_or_pos k with rfl | hk
        · omega
        · exact hk
      have := ih hk (n := n / 10) (by rw [Nat.pow_succ] at h; omega)
      rw [decimal_of_ge (by omega), length_append, length_singleton]
      omega

theorem placeholderLength_fits {len0 len : Nat} (h : placeholderLength len0 ≤ len)
    (hmax : len ≤ maxLen) : len0 + (decimal len).length ≤ len := by
  have hdigits {k : Nat} (hk : 0 < k) (hlen : len < 10 ^ k) := length_decimal_le hk hlen
  have h1 := @hdigits 1
  have h2 := @hdigits 2
  have h3 := @hdigits 3
  have h4 := @hdigits 4
  have h5 := @hdigits 5
  unfold placeholderLength at h
  unfold maxLen at hmax
  split_ifs at h <;> omega

/-- The length that `encode` announces. -/
def encodedLength (minLen : Nat) (t : Subst) : Nat :=
  max minLen (placeholderLength (prefixLen + (symbolicValue t).length + 3))

theorem length_suffix (t : Subst) :
    (ascii ":" ++ symbolicValue t ++ ascii "%%").length = (symbolicValue t).length + 3 := by
  have hcolon : (ascii ":").length = 1 := rfl
  have hend : (ascii "%%").length = 2 := rfl
  rw [length_append, length_append, hcolon, hend]
  omega

theorem encode_of_gt (h : maxLen < encodedLength minLen t) :
    encode minLen t = .error (.codeError "Artifact_substitution.encode: too long") := by
  simp only [encode, length_suffix]
  exact if_pos h

theorem encode_of_le (h : encodedLength minLen t ≤ maxLen) : ∃ s, encode minLen t = .ok s := by
  have hfits := placeholderLength_fits (Nat.le_max_right minLen _) h
  have htext (len : Nat) : (placeholderPrefix ++ decimal len ++
      (ascii ":" ++ symbolicValue t ++ ascii "%%")).length =
        prefixLen + (decimal len).length + ((symbolicValue t).length + 3) := by
    rw [length_append, length_append, length_suffix, length_placeholderPrefix]
  simp only [encode, htext, length_suffix]
  unfold encodedLength at h
  rw [← Nat.add_assoc, if_neg (by omega), if_neg (by omega)]
  exact ⟨_, rfl⟩

/-! ## Texts on which `decode` raises -/

/-- The computation ends with an exception that `decode` does not catch. -/
def Raises {α : Type} (x : Except Abort α) : Prop := ∃ e, x = .error (.raised e)

section
variable {α β : Type}

@[simp] theorem raises_ok (a : α) : ¬Raises (.ok a) := nofun

@[simp] theorem raises_pure (a : α) : ¬Raises (pure a) := nofun

@[simp] theorem raises_exit : ¬Raises (.error .exit : Except Abort α) := nofun

@[simp] theorem raises_raised (e : Exn) : Raises (.error (.raised e) : Except Abort α) := ⟨e, rfl⟩

@[simp] theorem raises_lift (x : Except Exn α) : Raises (lift x) ↔ ∃ e, x = .error e := by
  cases x <;> simp [lift]

@[simp] theorem raises_parseInt (s : Bytes) : ¬Raises (parseInt s) := by
  unfold parseInt
  split <;> simp

theorem raises_bind (x : Except Abort α) (f : α → Except Abort β) :
    Raises (x >>= f) ↔ Raises x ∨ ∃ a, x = .ok a ∧ Raises (f a) := by
  rcases x with (_ | e) | a <;> simp [bind, Except.bind]

end

/-- The length of the payload is negative or exceeds it. -/
def BadLength : List Bytes → Prop
  | [] => False
  | len :: rest => ∃ i, intOfString len = some i ∧
    (i < 0 ∨ (Bytes.concat (ascii ":") rest).length < i.toNat)

theorem raises_readStringPayload (parts : List Bytes) :
    Raises (readStringPayload parts) ↔ BadLength parts := by
  cases parts with
  | nil => simp [readStringPayload, BadLength]
  | cons len rest =>
    simp only [readStringPayload, parseInt, BadLength]
    cases intOfString len with
    | none => simp [bind, Except.bind]
    | some i =>
      simp only [bind, Except.bind, Option.some.injEq, exists_eq_left']
      split
      · next h => simp [h]
      · split
        · next h => simp [h]
        · next h h' => split <;> simp [h, h']

/-- A symbolic value, split at its colons, that `decode` does not expect: a wrong length, a path
outside of the workspace, an empty name or an unknown section. -/
def Unexpected : List Bytes → Prop
  | [] => False
  | keyword :: rest =>
    if keyword = ascii "vcs-describe" then
      BadLength rest ∨ ∃ p, readStringPayload rest = .ok p ∧ ∃ e, LocalPath.ofString p = .error e
    else
      match rest with
      | [] => False
      | kind :: rest =>
        if keyword = ascii "location" then
          BadLength rest ∨ ∃ name, readStringPayload rest = .ok name ∧
            (name = [] ∨ Section.ofString kind = none)
        else keyword = ascii "repeat" ∧ BadLength rest

theorem raises_decodeValue (parts : List Bytes) :
    Raises (decodeValue parts) ↔ Unexpected parts := by
  have hname (name : Bytes) : (∃ e, packageNameOfString name = .error e) ↔ name = [] := by
    cases name <;> simp [packageNameOfString]
  have hsection (kind : Bytes) :
      (∃ e, sectionExn kind = .error e) ↔ Section.ofString kind = none := by
    unfold sectionExn
    cases Section.ofString kind <;> simp
  unfold decodeValue Unexpected
  cases parts with
  | nil => simp
  | cons keyword rest =>
    simp only
    split
    · simp only [raises_bind, raises_readStringPayload, raises_lift, raises_pure, and_false,
        exists_false, or_false]
    · cases rest with
      | nil => split_ifs <;> simp
      | cons kind rest =>
        simp only
        split
        · simp only [raises_bind, raises_readStringPayload, raises_lift, raises_pure, and_false,
            exists_false, or_false, hname, hsection]
          refine or_congr_right (exists_congr fun name => and_congr_right fun _ => ?_)
          cases name <;> simp [packageNameOfString, lift]
        split
        · next hk =>
          subst hk
          split_ifs <;> simp [show ascii "configpath" ≠ ascii "repeat" by decide]
        split
        · next hk =>
          subst hk
          simp [show ascii "hardcoded_ocaml_path" ≠ ascii "repeat" by decide]
        split
        · next hk =>
          simp only [raises_bind, raises_readStringPayload, raises_parseInt, raises_pure,
            and_false, exists_false, or_false, hk, true_and]
        · next hk => simp [hk]

/-- What stands after the length of a placeholder, when its form and its length are right. -/
def fields (s : Bytes) : Option (List Bytes) :=
  let len := s.length
  if maxLen < len ∨ len < 4 ∨ s[0]? ≠ some 37 ∨ s[1]? ≠ some 37 ∨ s[len - 2]? ≠ some 37 ∨
      s[len - 1]? ≠ some 37 then none
  else
    match split 58 ((s.drop 2).take (len - 4)) with
    | dunePlaceholder :: len' :: rest =>
      if dunePlaceholder = ascii "DUNE_PLACEHOLDER" ∧
        intOfString len' = some (len : Int) then some rest
      else none
    | _ => none

theorem decodeBody_eq (s : Bytes) :
    decodeBody s =
      match fields s with
      | none => .error .exit
      | some parts => decodeValue parts := by
  simp only [decodeBody, fields]
  split
  · rfl
  · rcases split 58 ((s.drop 2).take (s.length - 4)) with _ | ⟨d, _ | ⟨len', rest⟩⟩
    · rfl
    · rfl
    · by_cases hd : d = ascii "DUNE_PLACEHOLDER"
      · cases hlen : intOfString len' with
        | none => simp [hd, hlen, parseInt, bind, Except.bind]
        | some i => by_cases hi : i = s.length <;> simp [hd, hlen, hi, parseInt, bind, Except.bind]
      · simp [hd]

/-- `decode` returns unless it meets a symbolic value that it does not expect, or one of which the
encoding is too long. -/
theorem decode_returns_iff (s : Bytes) :
    (∃ r, decode s = .ok r) ↔ ∀ parts, fields s = some parts →
      ¬Unexpected parts ∧ ∀ t, decodeValue parts = .ok t → encodedLength s.length t ≤ maxLen := by
  rw [decode, decodeBody_eq]
  cases hf : fields s with
  | none => simp
  | some parts =>
    simp only [Option.some.injEq, forall_eq', ← raises_decodeValue]
    cases decodeValue parts with
    | error a => cases a <;> simp
    | ok t =>
      simp only [raises_ok, not_false_eq_true, true_and, Except.ok.injEq, forall_eq']
      rcases Nat.lt_or_ge maxLen (encodedLength s.length t) with h | h
      · rw [encode_of_gt h]
        simp [bind, Except.bind, h]
      · obtain ⟨s', hs'⟩ := encode_of_le h
        rw [hs']
        simp [bind, Except.bind, pure, Except.pure, h]

/-- A payload that is shorter than its length says. -/
theorem decode_raises_short :
    decode (ascii "%%DUNE_PLACEHOLDER:35:repeat:1:9:%%") =
      .error (.invalidArgument "String.sub / Bytes.sub") := by
  decide

end Dune.Rules.ArtifactSubstitution
