import Dune.Rules.ArtifactHeader

/-!
# The scanner automaton

`Inv` says what a state of the automaton knows after `p` bytes of the remaining stream `R`: the
first `k` bytes start no placeholder, and the bytes from `k` to `p` are the part of a header that
the state stands for. Each transition of the automaton keeps it, moving `k` over the positions
that the byte just read rules out; `run_spec` carries it to the end of the buffered data.
-/

namespace Dune.Rules.ArtifactSubstitution

open Dune.Stdune Dune.Stdune.Bytes List Scanner

section
variable {R : Bytes}

/-- The first `k` bytes of the stream start no placeholder. -/
def Passed (R : Bytes) (k : Nat) : Prop := ∀ q < k, Passes (R.drop q)

/-- The `j` bytes of the stream at `k` are the first ones of the prefix. -/
def Matches (R : Bytes) (k j : Nat) : Prop := ∀ i < j, R[k + i]? = placeholderPrefix[i]?

variable {k q : Nat} {s : Bytes}

theorem Passed.extend {k' : Nat} (h : Passed R k) (h' : ∀ q, k ≤ q → q < k' → Passes (R.drop q)) :
    Passed R k' := by
  intro q hq
  by_cases hk : q < k
  · exact h q hk
  · exact h' q (by omega) hq

/-! ## Positions that cannot start a placeholder -/

theorem header_mismatch (i : Nat) (hi : i < prefixLen) (h : s[i]? ≠ placeholderPrefix[i]?) :
    header s = none := by
  rw [header, if_neg]
  intro hp
  apply h
  obtain ⟨t, rfl⟩ := hp
  rw [getElem?_append_left]
  rw [length_placeholderPrefix]
  exact hi

theorem passes_mismatch (i : Nat) (hi : i < prefixLen) (h : R[q + i]? ≠ placeholderPrefix[i]?) :
    Passes (R.drop q) := by
  apply Passes.of_header
  apply header_mismatch i hi
  rwa [getElem?_drop]

theorem passes_head (h : R[q]? ≠ some 37) : Passes (R.drop q) :=
  passes_mismatch 0 (by decide) h

variable {i j len p : Nat}

/-- The percent signs of the prefix are its first two bytes. -/
theorem placeholderPrefix_ne_percent (h : 2 ≤ i) : placeholderPrefix[i]? ≠ some 37 := by
  by_cases hi : i < 19
  · have : ∀ i : Fin 19, 2 ≤ i.val → placeholderPrefix[i.val]? ≠ some 37 := by decide
    exact this ⟨i, hi⟩ h
  · rw [getElem?_eq_none]
    · exact nofun
    · rw [length_placeholderPrefix, prefixLen]
      omega

/-- No placeholder starts strictly inside a part of the prefix. -/
theorem Matches.passes_inside (h : Matches R k j) (hj : 3 ≤ j) (hq : k < q) (hq' : q < k + j) :
    Passes (R.drop q) := by
  by_cases hq1 : q = k + 1
  · subst hq1
    apply passes_mismatch 1 (by decide)
    have h2 := h 2 (by omega)
    have : k + 1 + 1 = k + 2 := rfl
    rw [this, h2]
    decide
  · apply passes_head
    have hi := h (q - k) (by omega)
    have : k + (q - k) = q := by omega
    rw [this] at hi
    rw [hi]
    exact placeholderPrefix_ne_percent (by omega)

theorem Matches.succ (h : Matches R k j) (hj : R[k + j]? = placeholderPrefix[j]?) :
    Matches R k (j + 1) := by
  intro i hi
  by_cases hij : i < j
  · exact h i hij
  · obtain rfl : i = j := by omega
    exact hj

theorem Matches.isPrefix (h : Matches R k prefixLen) : placeholderPrefix <+: R.drop k := by
  rw [prefix_iff_getElem?]
  intro i hi
  rw [getElem?_drop, h i (by rw [← length_placeholderPrefix]; exact hi)]
  exact getElem?_eq_getElem hi

theorem Matches.header_eq (h : Matches R k prefixLen) :
    header (R.drop k) = headerLength prefixLen 0 (R.drop (k + prefixLen)) := by
  rw [header, if_pos h.isPrefix, drop_drop]

theorem headerLength_bounds {seen acc : Nat} (hacc : acc ≤ maxLen)
    (h : headerLength seen acc s = some len) : seen < len ∧ len ≤ maxLen := by
  fun_induction headerLength seen acc s with
  | case1 | case2 | case4 | case6 => cases h
  | case3 =>
    rename_i ih
    have := ih (by omega) h
    omega
  | case5 =>
    cases h
    omega

theorem header_bounds (h : header s = some len) : prefixLen < len ∧ len ≤ maxLen := by
  rw [header] at h
  split at h
  · exact headerLength_bounds (by decide) h
  · cases h

theorem drop_eq_cons {c : UInt8} (h : R[p]? = some c) : R.drop p = c :: R.drop (p + 1) := by
  obtain ⟨hp, rfl⟩ := List.getElem?_eq_some_iff.mp h
  exact drop_eq_getElem_cons hp

/-! ## What a state knows -/

/-- The knowledge of a scanner state, after `p` bytes of the stream, of which the first `k` are
passed. The stream starts at the index `b` of the buffer. -/
def Inv (b : Nat) (R : Bytes) (p k : Nat) : State → Prop
  | .scan0 => k = p
  | .scan1 => p = k + 1 ∧ R[k]? = some 37
  | .scan2 => p = k + 2 ∧ R[k]? = some 37 ∧ R[k + 1]? = some 37
  | .scanPrefix start => start = b + k ∧ k + 3 ≤ p ∧ p < k + prefixLen ∧ Matches R k (p - k)
  | .scanLength start acc =>
    start = b + k ∧ k + prefixLen ≤ p ∧ Matches R k prefixLen ∧ acc ≤ maxLen ∧
      (p = k + prefixLen ∨ 10 ^ (p - k - prefixLen - 1) ≤ acc) ∧
      (∀ q, k + prefixLen ≤ q → q < p → R[q]? ≠ some 37) ∧
      header (R.drop k) = headerLength (p - k) acc (R.drop p)
  | .scanPlaceholder start len => start = b + k ∧ k + prefixLen ≤ p ∧ header (R.drop k) = some len

/-- A state whose knowledge holds, with the positions it rules out. -/
structure Knows (b : Nat) (R : Bytes) (p k : Nat) (st : State) : Prop where
  inv : Inv b R p k st
  passed : Passed R k

variable {st : State}

theorem Inv.le {b : Nat} (h : Inv b R p k st) : k ≤ p := by
  cases st with
  | scan0 => exact Nat.le_of_eq h
  | scan1 | scan2 => have := h.1; omega
  | scanPrefix start | scanLength start acc | scanPlaceholder start len => have := h.2.1; omega

section
variable {b p k : Nat}

variable {c : UInt8} {start acc : Nat}

/-- Falling back to the initial state rules out everything before. -/
theorem Knows.fallback (h : Knows b R p k st) (hc : R[p]? = some c) (hne : c ≠ 37)
    (hk : ∀ q, k ≤ q → q < p → Passes (R.drop q)) : Knows b R (p + 1) (p + 1) .scan0 := by
  refine ⟨rfl, h.passed.extend fun q hq hq' => ?_⟩
  by_cases hp : q < p
  · exact hk q hq hp
  · obtain rfl : q = p := by omega
    apply passes_head
    rw [hc]
    exact fun heq => hne (Option.some.inj heq)

/-- A percent sign after a failed match may be the first one of a placeholder. -/
theorem Knows.restart (h : Knows b R p k st) (hc : R[p]? = some 37)
    (hk : ∀ q, k ≤ q → q < p → Passes (R.drop q)) : Knows b R (p + 1) p .scan1 :=
  ⟨⟨rfl, hc⟩, h.passed.extend hk⟩

theorem Knows.scan1_percent (h : Knows b R p k .scan1) (hc : R[p]? = some 37) :
    Knows b R (p + 1) k .scan2 := by
  obtain ⟨⟨rfl, h0⟩, hp⟩ := h
  exact ⟨⟨rfl, h0, hc⟩, hp⟩

theorem Knows.scan1_other (h : Knows b R p k .scan1) (hc : R[p]? = some c) (hne : c ≠ 37) :
    Knows b R (p + 1) (p + 1) .scan0 := by
  refine h.fallback hc hne fun q hq hq' => ?_
  obtain ⟨rfl, -⟩ := h.inv
  obtain rfl : q = k := by omega
  apply passes_mismatch 1 (by decide)
  rw [hc]
  exact fun heq => hne (Option.some.inj heq)

section

variable (h : Knows b R p k .scan2)
include h

theorem Knows.scan2_percent (hc : R[p]? = some 37) : Knows b R (p + 1) (k + 1) .scan2 := by
  obtain ⟨⟨rfl, h0, h1⟩, hp⟩ := h
  refine ⟨⟨rfl, h1, hc⟩, hp.extend fun q hq hq' => ?_⟩
  obtain rfl : q = k := by omega
  apply passes_mismatch 2 (by decide)
  rw [hc]
  decide

theorem Knows.scan2_D (hc : R[p]? = some 68) : Knows b R (p + 1) k (.scanPrefix (b + k)) := by
  obtain ⟨⟨rfl, h0, h1⟩, hp⟩ := h
  refine ⟨⟨rfl, by omega, by simp [prefixLen], ?_⟩, hp⟩
  intro i hi
  have : i = 0 ∨ i = 1 ∨ i = 2 := by omega
  rcases this with rfl | rfl | rfl
  · exact h0
  · exact h1
  · exact hc

theorem Knows.scan2_other (hc : R[p]? = some c) (hne : c ≠ 37)
    (hD : c ≠ 68) : Knows b R (p + 1) (p + 1) .scan0 := by
  refine h.fallback hc hne fun q hq hq' => ?_
  obtain ⟨rfl, -⟩ := h.inv
  have : q = k ∨ q = k + 1 := by omega
  rcases this with rfl | rfl
  · apply passes_mismatch 2 (by decide)
    rw [hc]
    exact fun heq => hD (Option.some.inj heq)
  · apply passes_mismatch 1 (by decide)
    have : k + 1 + 1 = k + 2 := rfl
    rw [this, hc]
    exact fun heq => hne (Option.some.inj heq)

end

/-- A byte that does not continue the prefix rules out the positions before it. -/
theorem Inv.scanPrefix_mismatch (h : Inv b R p k (.scanPrefix start))
    (hc : R[p]? ≠ placeholderPrefix[p - k]?) : ∀ q, k ≤ q → q < p → Passes (R.drop q) := by
  obtain ⟨-, h3, hlt, hm⟩ := h
  intro q hq hq'
  by_cases hk : q = k
  · subst hk
    apply passes_mismatch (p - q) (by omega)
    have : q + (p - q) = p := by omega
    rwa [this]
  · exact hm.passes_inside (by omega) (by omega) (by omega)

section

variable (h : Knows b R p k (.scanPrefix start))
include h

theorem Knows.scanPrefix_percent (hc : R[p]? = some 37) : Knows b R (p + 1) p .scan1 := by
  refine h.restart hc (h.inv.scanPrefix_mismatch ?_)
  rw [hc]
  have := h.inv.2.1
  exact fun heq => placeholderPrefix_ne_percent (by omega) heq.symm

section

variable (hc : R[p]? = some c)
include hc

theorem Knows.scanPrefix_other (hne : c ≠ 37) (hmis : placeholderPrefix[p - k]? ≠ some c) :
    Knows b R (p + 1) (p + 1) .scan0 := by
  refine h.fallback hc hne (h.inv.scanPrefix_mismatch ?_)
  rw [hc]
  exact fun heq => hmis heq.symm

theorem Knows.scanPrefix_next (hm : placeholderPrefix[p - k]? = some c)
    (hlast : p - k ≠ prefixLen - 1) : Knows b R (p + 1) k (.scanPrefix start) := by
  obtain ⟨⟨hs, h3, hlt, hmatch⟩, hp⟩ := h
  refine ⟨⟨hs, by omega, by omega, ?_⟩, hp⟩
  have : p + 1 - k = p - k + 1 := by omega
  rw [this]
  apply hmatch.succ
  have : k + (p - k) = p := by omega
  rw [this, hc, hm]

theorem Knows.scanPrefix_last (hm : placeholderPrefix[p - k]? = some c)
    (hlast : p - k = prefixLen - 1) : Knows b R (p + 1) k (.scanLength start 0) := by
  obtain ⟨⟨hs, h3, hlt, hmatch⟩, hp⟩ := h
  have hpos : prefixLen = 19 := rfl
  have hend : p + 1 = k + prefixLen := by omega
  have hfull : Matches R k prefixLen := by
    have : prefixLen = p - k + 1 := by omega
    rw [this]
    apply hmatch.succ
    have : k + (p - k) = p := by omega
    rw [this, hc, hm]
  refine ⟨⟨hs, by omega, hfull, by decide, .inl hend, fun q hq hq' => by omega, ?_⟩, hp⟩
  rw [hfull.header_eq, hend, Nat.add_sub_cancel_left]

end

end

/-- A failed length field rules out the positions before the byte that ended it. -/
theorem Inv.scanLength_failed (h : Inv b R p k (.scanLength start acc))
    (hnone : header (R.drop k) = none) : ∀ q, k ≤ q → q < p → Passes (R.drop q) := by
  obtain ⟨-, hle, hm, -, -, hdigits, -⟩ := h
  intro q hq hq'
  by_cases hk : q = k
  · subst hk
    exact Passes.of_header hnone
  · by_cases hin : q < k + prefixLen
    · exact hm.passes_inside (by decide) (by omega) hin
    · exact passes_head (hdigits q (by omega) hq')

section

variable (h : Knows b R p k (.scanLength start acc))
include h

theorem Knows.scanLength_percent (hc : R[p]? = some 37) : Knows b R (p + 1) p .scan1 := by
  refine h.restart hc (h.inv.scanLength_failed ?_)
  obtain ⟨-, -, -, -, -, -, hh⟩ := h.inv
  rw [hh, drop_eq_cons hc, headerLength, if_neg (by decide), if_neg (by decide)]

theorem Knows.scanLength_digit (hc : R[p]? = some c) (hd : 48 ≤ c ∧ c ≤ 57)
    (hacc : ¬(acc * 10 + (c.toNat - 48) = 0 ∨ maxLen < acc * 10 + (c.toNat - 48))) :
    Knows b R (p + 1) k (.scanLength start (acc * 10 + (c.toNat - 48))) := by
  obtain ⟨⟨hs, hle, hm, -, hmin, hdigits, hh⟩, hp⟩ := h
  refine ⟨⟨hs, by omega, hm, by omega, .inr ?_, ?_, ?_⟩, hp⟩
  · rcases hmin with rfl | hmin
    · have : k + prefixLen + 1 - k - prefixLen - 1 = 0 := by omega
      rw [this]
      omega
    · by_cases hfirst : p = k + prefixLen
      · have : p + 1 - k - prefixLen - 1 = 0 := by omega
        rw [this]
        omega
      · have : p + 1 - k - prefixLen - 1 = p - k - prefixLen - 1 + 1 := by omega
        rw [this, Nat.pow_succ]
        omega
  · intro q hq hq'
    by_cases hqp : q = p
    · subst hqp
      rw [hc]
      intro heq
      obtain rfl := Option.some.inj heq
      exact absurd hd (by decide)
    · exact hdigits q hq (by omega)
  · rw [hh, drop_eq_cons hc]
    simp only [headerLength]
    rw [if_pos hd, if_neg hacc]
    have : p + 1 - k = p - k + 1 := by omega
    rw [this]

theorem Knows.scanLength_overflow (hc : R[p]? = some c) (hne : c ≠ 37) (hd : 48 ≤ c ∧ c ≤ 57)
    (hacc : acc * 10 + (c.toNat - 48) = 0 ∨ maxLen < acc * 10 + (c.toNat - 48)) :
    Knows b R (p + 1) (p + 1) .scan0 := by
  refine h.fallback hc hne (h.inv.scanLength_failed ?_)
  obtain ⟨-, -, -, -, -, -, hh⟩ := h.inv
  rw [hh, drop_eq_cons hc]
  simp only [headerLength]
  rw [if_pos hd, if_pos hacc]

theorem Knows.scanLength_short (hc : R[p]? = some 58)
    (hshort : acc < p - k + 1) : Knows b R (p + 1) (p + 1) .scan0 := by
  refine h.fallback hc (by decide) (h.inv.scanLength_failed ?_)
  obtain ⟨-, -, -, -, -, -, hh⟩ := h.inv
  rw [hh, drop_eq_cons hc, headerLength, if_neg (by decide), if_pos rfl, if_pos hshort]

theorem Knows.scanLength_colon (hc : R[p]? = some 58)
    (hlen : ¬acc < p - k + 1) : Knows b R (p + 1) k (.scanPlaceholder start acc) := by
  obtain ⟨⟨hs, hle, -, -, -, -, hh⟩, hp⟩ := h
  refine ⟨⟨hs, by omega, ?_⟩, hp⟩
  rw [hh, drop_eq_cons hc, headerLength, if_neg (by decide), if_pos rfl, if_neg hlen]

theorem Knows.scanLength_other (hc : R[p]? = some c) (hne : c ≠ 37) (hd : ¬(48 ≤ c ∧ c ≤ 57))
    (hcolon : c ≠ 58) : Knows b R (p + 1) (p + 1) .scan0 := by
  refine h.fallback hc hne (h.inv.scanLength_failed ?_)
  obtain ⟨-, -, -, -, -, -, hh⟩ := h.inv
  rw [hh, drop_eq_cons hc, headerLength, if_neg hd, if_neg hcolon]

end

theorem Knows.stop {e : Nat} (hst : Knows b R p k st) (hp : b + p ≤ e) (hlt : ¬b + p < e) :
    ∃ st' k', (Except.ok st : Except Failure State) = .ok st' ∧ k ≤ k' ∧
      Knows b R (e - b) k' st'  := by
  obtain rfl : p = e - b := by omega
  exact ⟨st, k, rfl, Nat.le_refl k, hst⟩

theorem Knows.scan0_percent (h : Knows b R p k .scan0) (hi : R[p + i]? = some 37)
    (hbefore : ∀ j < i, R[p + j]? ≠ some 37) : Knows b R (p + i + 1) (p + i) .scan1 := by
  obtain ⟨hkp, hp⟩ := h
  obtain rfl : k = p := hkp
  refine ⟨⟨rfl, hi⟩, hp.extend fun q hq hq' => passes_head ?_⟩
  have : k + (q - k) = q := by omega
  have hj := hbefore (q - k) (by omega)
  rwa [this] at hj

theorem Knows.scan0_absent (h : Knows b R p k .scan0) {n : Nat}
    (hbefore : ∀ j < n, R[p + j]? ≠ some 37) : Knows b R (p + n) (p + n) .scan0 := by
  obtain ⟨hkp, hp⟩ := h
  obtain rfl : k = p := hkp
  refine ⟨rfl, hp.extend fun q hq hq' => passes_head ?_⟩
  have : k + (q - k) = q := by omega
  have hj := hbefore (q - k) (by omega)
  rwa [this] at hj

end

/-! ## Runs of the automaton -/

/-- `Scanner.run` with an explicit bound. -/
def Scanner.runFuel (buf : Bytes) (endOfData fuel pos : Nat) : State → Except Failure State
  | .scan0 => scan0 buf endOfData fuel pos
  | .scan1 => scan1 buf endOfData fuel pos
  | .scan2 => scan2 buf endOfData fuel pos
  | .scanPrefix start => scanPrefix buf endOfData fuel pos start
  | .scanLength start acc => scanLength buf endOfData fuel pos start acc
  | .scanPlaceholder start len => .ok (.scanPlaceholder start len)

/-- The buffered data, `buf` from `b` to `e`, is the beginning of the stream `R`. -/
structure Buffered (buf : Bytes) (b e : Nat) (R : Bytes) : Prop where
  le : b ≤ e
  fits : e ≤ buf.length
  get_eq : ∀ i < e - b, buf[b + i]? = R[i]?

section
variable {buf : Bytes} {b e : Nat}

variable {p : Nat}

theorem Buffered.get_ok (h : Buffered buf b e R) (hp : b + p < e) :
    ∃ c, get buf (b + p) = .ok c ∧ R[p]? = some c := by
  have hlt : b + p < buf.length := Nat.lt_of_lt_of_le hp h.fits
  refine ⟨buf[b + p], ?_, ?_⟩
  · rw [get, getElem?_eq_getElem hlt]
  · rw [← h.get_eq p (by omega), getElem?_eq_getElem hlt]

theorem position_ok {a c : Nat} (h : c ≤ a) : position a c = .ok (a - c) := if_pos h

theorem get_prefix (h : i < prefixLen) :
    ∃ c, get placeholderPrefix i = .ok c ∧ placeholderPrefix[i]? = some c := by
  have hlt : i < placeholderPrefix.length := by rw [length_placeholderPrefix]; exact h
  refine ⟨placeholderPrefix[i], ?_, getElem?_eq_getElem hlt⟩
  rw [get, getElem?_eq_getElem hlt]

section

variable (h : Buffered buf b e R)
include h

theorem Buffered.index_ok (hp : b + p ≤ e) :
    ∃ r, indexInRange buf (b + p) (e - (b + p)) 37 = .ok r ∧
      match r with
      | none => ∀ j < e - (b + p), R[p + j]? ≠ some 37
      | some percent => ∃ i, percent = b + (p + i) ∧ b + (p + i) < e ∧ R[p + i]? = some 37 ∧
          ∀ j < i, R[p + j]? ≠ some 37 := by
  have hfit : b + p + (e - (b + p)) ≤ buf.length := by have := h.fits; omega
  have hdata : ∀ j < e - (b + p), ((buf.drop (b + p)).take (e - (b + p)))[j]? = R[p + j]? := by
    intro j hj
    rw [getElem?_take_of_lt hj, getElem?_drop, ← h.get_eq (p + j) (by omega)]
    congr 1
    omega
  have hlen : ((buf.drop (b + p)).take (e - (b + p))).length = e - (b + p) := by
    rw [length_take, length_drop]
    omega
  refine ⟨_, if_pos hfit, ?_⟩
  generalize (buf.drop (b + p)).take (e - (b + p)) = data at hdata hlen ⊢
  cases hf : data.findIdx? (· == 37) with
  | none =>
    rw [findIdx?_eq_none_iff] at hf
    intro j hj
    rw [← hdata j hj]
    intro heq
    have := hf 37 (mem_of_getElem? heq)
    simp at this
  | some i =>
    rw [findIdx?_eq_some_iff_getElem] at hf
    obtain ⟨hi, heq, hbefore⟩ := hf
    refine ⟨i, Nat.add_assoc b p i, by omega, ?_, ?_⟩
    · rw [← hdata i (by omega), getElem?_eq_getElem hi]
      simpa using heq
    · intro j hj
      rw [← hdata j (by omega), getElem?_eq_getElem (by omega)]
      have := hbefore j hj
      simpa using this

/-- The automaton reads to the end of the data, or to the colon that ends a header, and keeps its
knowledge. -/
theorem Buffered.runFuel_spec (fuel : Nat) :
    ∀ {st : State} {p k : Nat}, b + p ≤ e → e - (b + p) < fuel → Knows b R p k st →
      ∃ st' k', runFuel buf e fuel (b + p) st = .ok st' ∧ k ≤ k' ∧
        Knows b R (e - b) k' st' := by
  induction fuel with
  | zero =>
    intro st p k _ hf
    omega
  | succ fuel ih =>
    intro st p k hp hf hst
    -- the run goes on from the next byte with the state that the transition gives
    have next : ∀ {q : Nat} {st' : State} {k' : Nat}, p ≤ q → b + q < e → k ≤ k' →
        Knows b R (q + 1) k' st' →
        ∃ st'' k'', runFuel buf e fuel (b + (q + 1)) st' = .ok st'' ∧ k ≤ k'' ∧
          Knows b R (e - b) k'' st'' := by
      intro q st' k' hq hlt hk' hst'
      obtain ⟨st'', k'', hrun, hk'', hst''⟩ := ih (by omega) (by omega) hst'
      exact ⟨st'', k'', hrun, by omega, hst''⟩
    have hkp := hst.inv.le
    cases st with
    | scan0 =>
      obtain ⟨r, hr, hspec⟩ := h.index_ok hp
      simp only [runFuel, scan0, position_ok hp, hr, bind, Except.bind]
      cases r with
      | none =>
        have hend : p + (e - (b + p)) = e - b := by omega
        refine ⟨.scan0, e - b, rfl, by omega, ?_⟩
        rw [← hend]
        exact hst.scan0_absent hspec
      | some percent =>
        obtain ⟨i, rfl, hlt, hi, hbefore⟩ := hspec
        exact next (by omega) hlt (by omega) (hst.scan0_percent hi hbefore)
    | scan1 =>
      simp only [runFuel, scan1]
      split_ifs with hlt
      · obtain ⟨c, hget, hc⟩ := h.get_ok hlt
        simp only [hget, bind, Except.bind]
        split_ifs with h37
        · subst h37
          exact next le_rfl hlt (by omega) (hst.scan1_percent hc)
        · exact next le_rfl hlt (by omega) (hst.scan1_other hc h37)
      · exact hst.stop hp hlt
    | scan2 =>
      simp only [runFuel, scan2]
      split_ifs with hlt
      · obtain ⟨c, hget, hc⟩ := h.get_ok hlt
        simp only [hget, bind, Except.bind]
        split_ifs with h37 h68
        · subst h37
          exact next le_rfl hlt (by omega) (hst.scan2_percent hc)
        · subst h68
          have hp2 := hst.inv.1
          have hstart : b + p + 1 - 3 = b + k := by omega
          rw [position_ok (by omega), hstart]
          exact next le_rfl hlt (by omega) (hst.scan2_D hc)
        · exact next le_rfl hlt (by omega) (hst.scan2_other hc h37 h68)
      · exact hst.stop hp hlt
    | scanPrefix start =>
      simp only [runFuel, scanPrefix]
      split_ifs with hlt
      · obtain ⟨c, hget, hc⟩ := h.get_ok hlt
        obtain ⟨rfl, h3, hpk, -⟩ := hst.inv
        have hpos : b + p - (b + k) = p - k := by omega
        obtain ⟨c', hget', hc'⟩ := get_prefix (show p - k < prefixLen by omega)
        rw [position_ok (by omega), hpos, hget]
        simp only [bind, Except.bind, hget']
        split_ifs with h37 heq hlast
        · subst h37
          exact next le_rfl hlt (by omega) (hst.scanPrefix_percent hc)
        · subst heq
          exact next le_rfl hlt (by omega) (hst.scanPrefix_last hc hc' hlast)
        · subst heq
          exact next le_rfl hlt (by omega) (hst.scanPrefix_next hc hc' hlast)
        · refine next le_rfl hlt (by omega) (hst.scanPrefix_other hc h37 ?_)
          rw [hc']
          exact fun h' => heq (Option.some.inj h').symm
      · exact hst.stop hp hlt
    | scanLength start acc =>
      simp only [runFuel, scanLength]
      split_ifs with hlt
      · obtain ⟨c, hget, hc⟩ := h.get_ok hlt
        obtain ⟨rfl, -⟩ := hst.inv
        have hpos : b + p + 1 - (b + k) = p - k + 1 := by omega
        simp only [hget, position_ok (show b + k ≤ b + p + 1 by omega), hpos, bind, Except.bind]
        split_ifs with h37 hd hacc h58 hshort
        · subst h37
          exact next le_rfl hlt (by omega) (hst.scanLength_percent hc)
        · exact next le_rfl hlt (by omega) (hst.scanLength_overflow hc h37 hd hacc)
        · exact next le_rfl hlt (by omega) (hst.scanLength_digit hc hd hacc)
        · subst h58
          exact next le_rfl hlt (by omega) (hst.scanLength_short hc hshort)
        · subst h58
          obtain ⟨⟨hs, hle, hh⟩, hpass⟩ := hst.scanLength_colon hc hshort
          exact ⟨_, k, rfl, Nat.le_refl k, ⟨hs, by omega, hh⟩, hpass⟩
        · exact next le_rfl hlt (by omega) (hst.scanLength_other hc h37 hd h58)
      · exact hst.stop hp hlt
    | scanPlaceholder start len =>
      obtain ⟨⟨hs, hle, hh⟩, hpass⟩ := hst
      exact ⟨_, k, rfl, Nat.le_refl k, ⟨hs, by omega, hh⟩, hpass⟩

theorem Buffered.run_spec (hp : b + p ≤ e) (hst : Knows b R p k st) :
    ∃ st' k', run buf e st (b + p) = .ok st' ∧ k ≤ k' ∧ Knows b R (e - b) k' st' := by
  obtain ⟨st', k', hrun, hk, hst'⟩ := h.runFuel_spec (e - (b + p) + 1) hp (by omega) hst
  refine ⟨st', k', ?_, hk, hst'⟩
  rw [← hrun]
  cases st <;> rfl

end

end

end

end Dune.Rules.ArtifactSubstitution
