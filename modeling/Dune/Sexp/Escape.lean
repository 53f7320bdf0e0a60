import Dune.Stdune.Bytes

/-!
# Escaping of quoted strings

`Dune_sexp.Escape` first computes the length of the escaped string and then writes it into a
buffer of that length. `escape` is the escaped string as a list of bytes; `quoted_eq` and
`escaped_eq` say that the buffer holds exactly that, in particular that the precomputed length is
the right one.
-/

namespace Dune.Sexp.Escape

open List Dune.Stdune Dune.Stdune.Bytes

/-! ## The functions of the source -/

/-- A continuation byte of UTF-8 within the given bounds. -/
def isTail (lo hi : UInt8) : Option UInt8 → Bool
  | some c => lo ≤ c && c ≤ hi
  | none => false

/-- The second byte of a character of three bytes: no overlong form, no surrogate. -/
def isSecond3 (c : UInt8) : Option UInt8 → Bool :=
  isTail (if c = 0xE0 then 0xA0 else 0x80) (if c = 0xED then 0x9F else 0xBF)

/-- The second byte of a character of four bytes: no overlong form, at most U+10FFFF. -/
def isSecond4 (c : UInt8) : Option UInt8 → Bool :=
  isTail (if c = 0xF0 then 0x90 else 0x80) (if c = 0xF4 then 0x8F else 0xBF)

/-- `next_valid_utf8_uchar_len` at the beginning of `s`: the length of the character that
`String.get_utf_8_uchar` decodes. -/
def nextValidUtf8UcharLen : Bytes → Option Nat
  | [] => none
  | c :: s =>
    if c ≤ 0x7F then some 1
    else if 0xC2 ≤ c ∧ c ≤ 0xDF then if isTail 0x80 0xBF s[0]? then some 2 else none
    else if 0xE0 ≤ c ∧ c ≤ 0xEF then
      if isSecond3 c s[0]? && isTail 0x80 0xBF s[1]? then some 3 else none
    else if 0xF0 ≤ c ∧ c ≤ 0xF4 then
      if isSecond4 c s[0]? && isTail 0x80 0xBF s[1]? && isTail 0x80 0xBF s[2]? then some 4
      else none
    else none

/-- The loop of `quote_length`, on what is left of the string; `bound` is its length. -/
def quoteLengthLoop : Nat → Bytes → Nat → Nat
  | 0, _, n => n
  | _ + 1, [], n => n
  | bound + 1, c :: s, n =>
    if c = 34 ∨ c = 92 ∨ c = 10 ∨ c = 9 ∨ c = 13 ∨ c = 8 then quoteLengthLoop bound s (n + 2)
    else if c = 37 then quoteLengthLoop bound s (n + if s[0]? = some 123 then 2 else 1)
    else if 32 ≤ c ∧ c ≤ 126 then quoteLengthLoop bound s (n + 1)
    else
      match nextValidUtf8UcharLen (c :: s) with
      | some ucharLen => quoteLengthLoop bound ((c :: s).drop ucharLen) (n + ucharLen)
      | none => quoteLengthLoop bound s (n + 4)

def quoteLength (s : Bytes) : Nat := quoteLengthLoop s.length s 0

/-- The byte at index `i`; the one after the last byte of an OCaml string is zero. -/
def unsafeGet (s : Bytes) (i : Nat) : UInt8 := s[i]?.getD 0

/-- The loop of `escape_to`, on what is left of the string. A character of one byte that is not
printable is copied together with the byte after it, which the next step overwrites; past the end
of the buffer that write is lost (it writes the zero that is there). -/
def escapeTo : Nat → Bytes → Bytes → Nat → Bytes
  | 0, _, dst, _ => dst
  | _ + 1, [], dst, _ => dst
  | bound + 1, c :: s, dst, n =>
    if c = 34 ∨ c = 92 then escapeTo bound s ((dst.set n 92).set (n + 1) c) (n + 2)
    else if c = 10 then escapeTo bound s ((dst.set n 92).set (n + 1) 110) (n + 2)
    else if c = 9 then escapeTo bound s ((dst.set n 92).set (n + 1) 116) (n + 2)
    else if c = 13 then escapeTo bound s ((dst.set n 92).set (n + 1) 114) (n + 2)
    else if c = 8 then escapeTo bound s ((dst.set n 92).set (n + 1) 98) (n + 2)
    else if c = 37 ∧ s[0]? = some 123 then
      escapeTo bound s ((dst.set n 92).set (n + 1) 37) (n + 2)
    else if 32 ≤ c ∧ c ≤ 126 then escapeTo bound s (dst.set n c) (n + 1)
    else
      match nextValidUtf8UcharLen (c :: s) with
      | some ucharLen =>
        let dst := (dst.set n c).set (n + 1) (unsafeGet (c :: s) 1)
        let dst := if 2 < ucharLen then dst.set (n + 2) (unsafeGet (c :: s) 2) else dst
        let dst := if 3 < ucharLen then dst.set (n + 3) (unsafeGet (c :: s) 3) else dst
        escapeTo bound ((c :: s).drop ucharLen) dst (n + ucharLen)
      | none =>
        let a := c.toNat
        let dst := (dst.set n 92).set (n + 1) (UInt8.ofNat (48 + a / 100))
        let dst := (dst.set (n + 2) (UInt8.ofNat (48 + a / 10 % 10))).set (n + 3)
          (UInt8.ofNat (48 + a % 10))
        escapeTo bound s dst (n + 4)

def escaped (s : Bytes) : Bytes :=
  let n := quoteLength s
  if n = 0 ∨ s.length < n then escapeTo s.length s (List.replicate n 0) 0 else s

def quoted (s : Bytes) : Bytes :=
  let len := s.length
  let n := quoteLength s
  let dst := (List.replicate (n + 2) 0).set 0 34
  let dst :=
    if len = 0 ∨ len < n then escapeTo s.length s dst 1
    else dst.take 1 ++ s ++ dst.drop (1 + len)
  dst.set (n + 1) 34

/-! ## The escaped string -/

/-- The number of bytes of the first character of `c :: s`, and its escaped form. -/
def chunk (c : UInt8) (s : Bytes) : Nat × Bytes :=
  if c = 34 ∨ c = 92 then (1, [92, c])
  else if c = 10 then (1, [92, 110])
  else if c = 9 then (1, [92, 116])
  else if c = 13 then (1, [92, 114])
  else if c = 8 then (1, [92, 98])
  else if c = 37 ∧ s[0]? = some 123 then (1, [92, 37])
  else if 32 ≤ c ∧ c ≤ 126 then (1, [c])
  else
    match nextValidUtf8UcharLen (c :: s) with
    | some ucharLen => (ucharLen, (c :: s).take ucharLen)
    | none =>
      (1, [92, UInt8.ofNat (48 + c.toNat / 100), UInt8.ofNat (48 + c.toNat / 10 % 10),
        UInt8.ofNat (48 + c.toNat % 10)])

/-- The escaped form of the first `bound` characters. -/
def escapeN : Nat → Bytes → Bytes
  | 0, _ => []
  | _ + 1, [] => []
  | bound + 1, c :: s => (chunk c s).2 ++ escapeN bound ((c :: s).drop (chunk c s).1)

def escape (s : Bytes) : Bytes := escapeN s.length s

variable {s dst : Bytes}

/-- What the bytes of a valid UTF-8 character look like. -/
theorem nextValidUtf8UcharLen_spec {c : UInt8} {k : Nat}
    (h : nextValidUtf8UcharLen (c :: s) = some k) :
    1 ≤ k ∧ k ≤ 4 ∧ k ≤ (c :: s).length ∧ (c ≤ 0x7F → k = 1) ∧
      ∀ i, 1 ≤ i → i < k → ∃ b, (c :: s)[i]? = some b ∧ 0x80 ≤ b := by
  have tail : ∀ {lo hi : UInt8} {i : Nat}, 0x80 ≤ lo → isTail lo hi s[i]? = true →
      ∃ b, s[i]? = some b ∧ 0x80 ≤ b := by
    intro lo hi i hlo ht
    cases hs : s[i]? with
    | none =>
      rw [hs] at ht
      cases ht
    | some b =>
      rw [hs] at ht
      simp only [isTail, Bool.and_eq_true, decide_eq_true_eq] at ht
      exact ⟨b, rfl, UInt8.le_trans hlo ht.1⟩
  -- the last byte of a character of several bytes shows that the string is long enough
  have wide : ∀ k, 2 ≤ k → k ≤ 4 → ¬c ≤ 0x7F →
      (∀ i, 1 ≤ i → i < k → ∃ b, (c :: s)[i]? = some b ∧ 0x80 ≤ b) →
      1 ≤ k ∧ k ≤ 4 ∧ k ≤ (c :: s).length ∧ (c ≤ 0x7F → k = 1) ∧
        ∀ i, 1 ≤ i → i < k → ∃ b, (c :: s)[i]? = some b ∧ 0x80 ≤ b := by
    intro k h2 h4 hascii hb
    obtain ⟨b, hlast, -⟩ := hb (k - 1) (by omega) (by omega)
    have hlen := (List.getElem?_eq_some_iff.mp hlast).1
    exact ⟨by omega, h4, by omega, fun hc => absurd hc hascii, hb⟩
  simp only [nextValidUtf8UcharLen] at h
  split_ifs at h with hascii _ ht _ ht _ ht
  · cases h
    exact ⟨Nat.le_refl 1, by omega, by simp, fun _ => rfl, fun i hi hi' => by omega⟩
  · cases h
    refine wide 2 (by omega) (by omega) hascii fun i hi hi' => ?_
    obtain rfl : i = 1 := by omega
    exact tail (UInt8.le_refl _) ht
  · cases h
    rw [Bool.and_eq_true] at ht
    refine wide 3 (by omega) (by omega) hascii fun i hi hi' => ?_
    obtain rfl | rfl : i = 1 ∨ i = 2 := by omega
    · exact tail (by split <;> decide) ht.1
    · exact tail (UInt8.le_refl _) ht.2
  · cases h
    rw [Bool.and_eq_true, Bool.and_eq_true] at ht
    refine wide 4 (by omega) (by omega) hascii fun i hi hi' => ?_
    obtain rfl | rfl | rfl : i = 1 ∨ i = 2 ∨ i = 3 := by omega
    · exact tail (by split <;> decide) ht.1.1
    · exact tail (UInt8.le_refl _) ht.1.2
    · exact tail (UInt8.le_refl _) ht.2

theorem chunk_spec (c : UInt8) (s : Bytes) :
    1 ≤ (chunk c s).1 ∧ (chunk c s).1 ≤ (c :: s).length ∧ (chunk c s).1 ≤ (chunk c s).2.length ∧
      ((chunk c s).2.length = (chunk c s).1 → (chunk c s).2 = (c :: s).take (chunk c s).1) := by
  rw [chunk]
  iterate 7 (split; · simp)
  split
  · next hk =>
    obtain ⟨h1, -, hlen, -⟩ := nextValidUtf8UcharLen_spec hk
    refine ⟨h1, hlen, ?_, fun _ => rfl⟩
    rw [length_take]
    exact Nat.le_min.mpr ⟨Nat.le_refl _, hlen⟩
  · simp

variable (bound : Nat)

theorem quoteLengthLoop_cons (c : UInt8) (s : Bytes) (n : Nat) :
    quoteLengthLoop (bound + 1) (c :: s) n =
      quoteLengthLoop bound ((c :: s).drop (chunk c s).1) (n + (chunk c s).2.length) := by
  by_cases hesc : c = 34 ∨ c = 92 ∨ c = 10 ∨ c = 9 ∨ c = 13 ∨ c = 8
  · rw [quoteLengthLoop, if_pos hesc]
    rcases hesc with rfl | rfl | rfl | rfl | rfl | rfl <;> rfl
  · rw [quoteLengthLoop, if_neg hesc]
    simp only [not_or] at hesc
    obtain ⟨h1, h2, h3, h4, h5, h6⟩ := hesc
    by_cases h37 : c = 37
    · subst h37
      by_cases hbrace : s[0]? = some 123 <;> simp [chunk, hbrace]
    · by_cases hprint : 32 ≤ c ∧ c ≤ 126
      · simp [chunk, h1, h2, h3, h4, h5, h6, h37, hprint]
      · simp only [chunk, h1, h2, h3, h4, h5, h6, h37, hprint, or_self, false_and, if_false]
        cases hk : nextValidUtf8UcharLen (c :: s) with
        | none => rfl
        | some k =>
          obtain ⟨-, -, hlen, -⟩ := nextValidUtf8UcharLen_spec hk
          simp only [length_take, Nat.min_eq_left hlen]

theorem quoteLengthLoop_eq (s : Bytes) (n : Nat) :
    quoteLengthLoop bound s n = n + (escapeN bound s).length := by
  induction bound generalizing s n with
  | zero => rfl
  | succ bound ih =>
    cases s with
    | nil => rfl
    | cons c s => rw [quoteLengthLoop_cons, ih, escapeN, length_append, Nat.add_assoc]

theorem quoteLength_eq (s : Bytes) : quoteLength s = (escape s).length := by
  rw [quoteLength, quoteLengthLoop_eq, Nat.zero_add, escape]

/-! ## Writing into the buffer -/

theorem take_set_succ {n : Nat} (h : n < dst.length) (c : UInt8) :
    (dst.set n c).take (n + 1) = dst.take n ++ [c] := by
  rw [take_add_one, take_set_of_le (Nat.le_refl n), List.getElem?_set_self h]
  rfl

def write (dst : Bytes) (n : Nat) : Bytes → Bytes
  | [] => dst
  | c :: o => write (dst.set n c) (n + 1) o

theorem length_write (dst : Bytes) (n : Nat) (o : Bytes) : (write dst n o).length = dst.length := by
  induction o generalizing dst n with
  | nil => rfl
  | cons c o ih => rw [write, ih, length_set]

theorem take_write {n : Nat} {o : Bytes} (h : n + o.length ≤ dst.length) :
    (write dst n o).take (n + o.length) = dst.take n ++ o := by
  induction o generalizing dst n with
  | nil => simp [write]
  | cons c o ih =>
    rw [length_cons] at h
    have hstep := @ih (dst.set n c) (n + 1) (by rw [length_set]; omega)
    rw [take_set_succ (by omega), append_assoc, singleton_append] at hstep
    rw [write, length_cons, ← hstep]
    congr 1
    omega

theorem escapeTo_cons (c : UInt8) (s dst : Bytes) (n : Nat)
    (h : n + (chunk c s).2.length ≤ dst.length) :
    ∃ dst', escapeTo (bound + 1) (c :: s) dst n =
        escapeTo bound ((c :: s).drop (chunk c s).1) dst' (n + (chunk c s).2.length) ∧
      dst'.length = dst.length ∧
      dst'.take (n + (chunk c s).2.length) = dst.take n ++ (chunk c s).2 := by
  -- the writes are those of the chunk, in order
  have exactly : ∀ (r o : Bytes), n + o.length ≤ dst.length →
      ∃ dst', escapeTo bound r (write dst n o) (n + o.length) =
          escapeTo bound r dst' (n + o.length) ∧
        dst'.length = dst.length ∧ dst'.take (n + o.length) = dst.take n ++ o :=
    fun _ o h => ⟨write dst n o, rfl, length_write dst n o, take_write h⟩
  rw [escapeTo]
  unfold chunk at h ⊢
  split_ifs at h ⊢
  · exact exactly s [92, c] h
  · exact exactly s [92, 110] h
  · exact exactly s [92, 116] h
  · exact exactly s [92, 114] h
  · exact exactly s [92, 98] h
  · exact exactly s [92, 37] h
  · exact exactly s [c] h
  · cases hk : nextValidUtf8UcharLen (c :: s) with
    | none =>
      rw [hk] at h
      exact exactly s _ h
    | some k =>
      rw [hk] at h
      obtain ⟨hk1, hk4, hlen, -⟩ := nextValidUtf8UcharLen_spec hk
      obtain rfl | rfl | rfl | rfl : k = 1 ∨ k = 2 ∨ k = 3 ∨ k = 4 := by omega
      · -- a control character: the byte written after it is not kept
        refine ⟨_, rfl, by simp, ?_⟩
        simp only [Nat.reduceLT, if_false]
        have htake : ((dst.set n c).set (n + 1) (unsafeGet (c :: s) 1)).take (n + 1) =
            dst.take n ++ [c] := by
          rw [take_set_of_le (Nat.le_refl (n + 1))]
          exact take_set_succ (Nat.lt_of_succ_le h) c
        exact htake
      · match s, hlen with
        | b :: s, _ => exact exactly s [c, b] h
      · match s, hlen with
        | b :: b' :: s, _ => exact exactly s [c, b, b'] h
      · match s, hlen with
        | b :: b' :: b'' :: s, _ => exact exactly s [c, b, b', b''] h

theorem take_escapeTo (s dst : Bytes) (n : Nat)
    (h : n + (escapeN bound s).length ≤ dst.length) :
    (escapeTo bound s dst n).length = dst.length ∧
      (escapeTo bound s dst n).take (n + (escapeN bound s).length) =
        dst.take n ++ escapeN bound s := by
  induction bound generalizing s dst n with
  | zero => simp [escapeTo, escapeN]
  | succ bound ih =>
    cases s with
    | nil => simp [escapeTo, escapeN]
    | cons c s =>
      rw [escapeN, length_append] at h ⊢
      obtain ⟨dst', hstep, hlen, htake⟩ := escapeTo_cons bound c s dst n (by omega)
      rw [← Nat.add_assoc] at h ⊢
      rw [hstep, ← append_assoc, ← htake, ← hlen]
      exact ih _ _ _ (by rw [hlen]; exact h)

/-- With no more bytes than the string, the escaped form is the string. -/
theorem escapeN_eq_self (s : Bytes) (hbound : s.length ≤ bound) :
    s.length ≤ (escapeN bound s).length ∧
      ((escapeN bound s).length = s.length → escapeN bound s = s) := by
  induction bound generalizing s with
  | zero =>
    have hnil : s = [] := length_eq_zero_iff.mp (Nat.le_zero.mp hbound)
    subst hnil
    exact ⟨Nat.le_refl _, fun _ => rfl⟩
  | succ bound ih =>
    cases s with
    | nil => exact ⟨Nat.le_refl _, fun _ => rfl⟩
    | cons c s =>
      obtain ⟨hpos, hk, hle, heq⟩ := chunk_spec c s
      obtain ⟨ihle, iheq⟩ := ih ((c :: s).drop (chunk c s).1)
        (by rw [length_drop]; omega)
      rw [escapeN, length_append]
      rw [length_drop] at ihle iheq
      refine ⟨by omega, fun hlen => ?_⟩
      rw [heq (by omega), iheq (by omega), take_append_drop]

theorem escape_eq_self (h : (escape s).length ≤ s.length) : escape s = s := by
  obtain ⟨hle, heq⟩ := escapeN_eq_self s.length s (Nat.le_refl _)
  exact heq (Nat.le_antisymm h hle)

theorem escaped_eq (s : Bytes) : escaped s = escape s := by
  simp only [escaped, quoteLength_eq]
  split
  · obtain ⟨hlen, htake⟩ := take_escapeTo s.length s (List.replicate (escape s).length 0) 0
      (Nat.le_of_eq (by rw [Nat.zero_add, length_replicate, escape]))
    rw [Nat.zero_add, ← escape, take_zero, nil_append, take_of_length_le] at htake
    · exact htake
    · exact Nat.le_of_eq (by rw [hlen, length_replicate])
  · next h =>
    rw [not_or] at h
    exact (escape_eq_self (by omega)).symm

theorem quoted_eq (s : Bytes) : quoted s = 34 :: (escape s ++ [34]) := by
  -- the buffer before the closing quote is written
  have close : ∀ dst : Bytes, dst.length = (escape s).length + 2 →
      dst.take (1 + (escape s).length) = 34 :: escape s →
      dst.set ((escape s).length + 1) 34 = 34 :: (escape s ++ [34]) := by
    intro dst hlen htake
    have hall := take_set_succ (show (escape s).length + 1 < dst.length by omega) 34
    rw [take_of_length_le (by rw [length_set]; omega), Nat.add_comm _ 1, htake] at hall
    rw [Nat.add_comm _ 1, hall, cons_append]
  simp only [quoted, quoteLength_eq]
  split
  · have hfits : 1 + (escapeN s.length s).length ≤
        ((List.replicate ((escape s).length + 2) (0 : UInt8)).set 0 34).length := by
      rw [length_set, length_replicate, ← escape]
      omega
    obtain ⟨hlen, htake⟩ := take_escapeTo s.length s _ 1 hfits
    refine close _ (by rw [hlen, length_set, length_replicate]) ?_
    exact htake
  · next h =>
    rw [not_or] at h
    have hraw : escape s = s := escape_eq_self (by omega)
    rw [hraw] at close ⊢
    refine close _ ?_ ?_
    · simp
      omega
    · simp [replicate_succ, Nat.add_comm 1]

end Dune.Sexp.Escape
