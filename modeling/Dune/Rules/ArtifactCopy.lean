import Dune.Rules.ArtifactScanner

/-!
# The copy through the sliding buffer

`loop_spec`: whatever part of the stream is in the buffer, wherever in it the scan stands and
however the channel splits the rest, the loop of `parse` ends with what `copyAll` makes of the
remaining stream. Its invariant is the scanner's knowledge (`Knows`) about that stream together
with `Buffered`; the measure that the loop decreases is the number of bytes that may still start a
placeholder plus the number of bytes that were not read yet.
-/

namespace Dune.Rules.ArtifactSubstitution

open List Dune.Stdune Dune.Stdune.Bytes

section
variable {Q : Type} {R : Bytes} {b p k : Nat} {st : State}

/-! ## The end of the buffered data -/

variable {e i : Nat} {buf : Bytes}

theorem Inv.placeholderStart_eq (h : Inv b R (e - b) k st) (hbe : b ≤ e) :
    placeholderStart e st = .ok (b + k) := by
  cases st with
  | scan0 =>
    have hk : k = e - b := h
    rw [placeholderStart, hk]
    congr 1
    omega
  | scan1 | scan2 =>
    obtain ⟨hp, -⟩ := h
    rw [placeholderStart, position_ok (by omega)]
    congr 1
    omega
  | scanPrefix start | scanLength start acc | scanPlaceholder start len =>
    rw [placeholderStart, h.1]

/-- The knowledge survives moving the leftover data to the beginning of the buffer. -/
theorem Inv.moveBack_inv (h : Inv b R p k st) : Inv 0 (R.drop k) (p - k) 0 st.moveBack := by
  cases st with
  | scan0 =>
    have hk : k = p := h
    change 0 = p - k
    omega
  | scan1 =>
    obtain ⟨rfl, h0⟩ := h
    refine ⟨by omega, ?_⟩
    rwa [List.getElem?_drop]
  | scan2 =>
    obtain ⟨rfl, h0, h1⟩ := h
    refine ⟨by omega, ?_, ?_⟩
    · rwa [List.getElem?_drop]
    · rwa [List.getElem?_drop]
  | scanPrefix start =>
    obtain ⟨-, h3, hlt, hm⟩ := h
    refine ⟨rfl, by omega, by omega, ?_⟩
    intro i hi
    rw [List.getElem?_drop, Nat.zero_add]
    exact hm i (by omega)
  | scanLength start acc =>
    obtain ⟨-, hle, hm, hacc, hmin, hdigits, hh⟩ := h
    refine ⟨rfl, by omega, ?_, hacc, ?_, ?_, ?_⟩
    · intro i hi
      rw [List.getElem?_drop, Nat.zero_add]
      exact hm i hi
    · rcases hmin with hmin | hmin
      · exact .inl (by omega)
      · exact .inr hmin
    · intro q hq hq'
      rw [List.getElem?_drop]
      exact hdigits (k + q) (by omega) (by omega)
    · have hkp : k + (p - k) = p := by omega
      rw [drop_drop, drop_drop, hkp]
      exact hh
  | scanPlaceholder start len =>
    obtain ⟨-, hle, hh⟩ := h
    exact ⟨rfl, by omega, hh⟩

theorem digits_le {m acc : Nat} (h : 10 ^ m ≤ acc) (hacc : acc ≤ maxLen) : m < 5 := by
  apply Nat.lt_of_not_le
  intro hm
  have h5 : 10 ^ 5 ≤ 10 ^ m := Nat.pow_le_pow_right (by decide) hm
  have : acc ≤ 65536 := hacc
  omega

theorem Inv.leftover_lt (h : Inv b R p k st)
    (hlen : ∀ start len, st = .scanPlaceholder start len → p - k < len) : p - k < bufLen := by
  have hbuf : bufLen = 65536 := rfl
  have hpre : prefixLen = 19 := rfl
  cases st with
  | scan0 =>
    have hk : k = p := h
    omega
  | scan1 | scan2 => have := h.1; omega
  | scanPrefix start => have := h.2.2.1; omega
  | scanLength start acc =>
    obtain ⟨-, hle, -, hacc, hmin, -⟩ := h
    rcases hmin with hmin | hmin
    · omega
    · have := digits_le hmin hacc
      omega
  | scanPlaceholder start len =>
    have := hlen start len rfl
    have := (header_bounds h.2.2).2
    rw [bufLen]
    omega

/-- At the end of the stream, an incomplete header is no placeholder. -/
theorem Inv.passes_end (h : Inv 0 R R.length 0 st)
    (hst : ∀ start len, st ≠ .scanPlaceholder start len) : Passed R R.length := by
  intro q hq
  cases st with
  | scan0 =>
    have hk : 0 = R.length := h
    omega
  | scan1 =>
    obtain ⟨hp, -⟩ := h
    apply passes_mismatch 1 (by decide)
    rw [List.getElem?_eq_none (by omega)]
    decide
  | scan2 =>
    obtain ⟨hp, -⟩ := h
    by_cases h0 : q = 0
    · subst h0
      apply passes_mismatch 2 (by decide)
      rw [List.getElem?_eq_none (by omega)]
      decide
    · apply passes_mismatch 1 (by decide)
      rw [List.getElem?_eq_none (by omega)]
      decide
  | scanPrefix start =>
    refine h.scanPrefix_mismatch ?_ q (by omega) hq
    obtain ⟨-, -, hlt, -⟩ := h
    obtain ⟨c, -, hc⟩ := get_prefix (show R.length - 0 < prefixLen by omega)
    rw [hc, List.getElem?_eq_none (by omega)]
    exact nofun
  | scanLength start acc =>
    refine h.scanLength_failed ?_ q (by omega) hq
    obtain ⟨-, -, -, -, -, -, hh⟩ := h
    rw [hh, drop_length]
    rfl
  | scanPlaceholder start len => exact absurd rfl (hst start len)

variable {len n : Nat}

/-- After a placeholder that was not one, the scan restarts behind its prefix. -/
theorem passed_prefix (hh : header R = some len) (h : Passes R) : Passed R prefixLen := by
  have hm : Matches R 0 prefixLen := by
    have hp : placeholderPrefix <+: R := by
      rw [header] at hh
      split at hh
      · assumption
      · cases hh
    intro i hi
    obtain ⟨t, rfl⟩ := hp
    rw [Nat.zero_add, List.getElem?_append_left]
    rw [length_placeholderPrefix]
    exact hi
  intro q hq
  by_cases h0 : q = 0
  · subst h0
    exact h
  · exact hm.passes_inside (by decide) (by omega) (by omega)

/-! ## The buffer -/

section

variable (h : Buffered buf b e R)
include h

theorem Buffered.take_eq (hi : i + n ≤ e - b) : (buf.drop (b + i)).take n = (R.drop i).take n := by
  apply ext_getElem?
  intro j
  by_cases hj : j < n
  · rw [List.getElem?_take_of_lt hj, List.getElem?_take_of_lt hj, List.getElem?_drop,
      List.getElem?_drop, ← h.get_eq (i + j) (by omega), Nat.add_assoc]
  · rw [List.getElem?_eq_none, List.getElem?_eq_none]
    · rw [length_take]
      omega
    · rw [length_take]
      omega

theorem Buffered.sub_ok (hi : i + n ≤ e - b) : sub buf (b + i) n = .ok ((R.drop i).take n) := by
  have := h.fits
  have := h.le
  rw [sub, if_pos (by omega), h.take_eq hi]

theorem Buffered.drop (hi : i ≤ e - b) : Buffered buf (b + i) e (R.drop i) := by
  have := h.le
  refine ⟨by omega, h.fits, fun j hj => ?_⟩
  rw [List.getElem?_drop, ← h.get_eq (i + j) (by omega), Nat.add_assoc]

theorem Buffered.blit_ok (hk : k ≤ e - b) :
    ∃ buf', moveLeftover buf (b + k) (e - (b + k)) = .ok buf' ∧
      buf'.length = buf.length ∧ Buffered buf' 0 (e - (b + k)) (R.drop k) := by
  have hle := h.le
  have hfits := h.fits
  have hdrop := h.drop hk
  by_cases hpos : 0 < e - (b + k)
  · refine ⟨buf.take 0 ++ (buf.drop (b + k)).take (e - (b + k)) ++ buf.drop (0 + (e - (b + k))),
      ?_, ?_, ?_⟩
    · rw [moveLeftover, if_pos hpos, blit, if_pos (by omega)]
    · simp
      omega
    · refine ⟨by omega, ?_, fun i hi => ?_⟩
      · simp
        omega
      · rw [← hdrop.get_eq i (by omega), take_zero, nil_append,
          List.getElem?_append_left, Nat.zero_add, List.getElem?_take_of_lt (by omega),
          List.getElem?_drop]
        simp
        omega
  · refine ⟨buf, ?_, rfl, by omega, by omega, fun i hi => by omega⟩
    rw [moveLeftover, if_neg hpos]

end

theorem Buffered.input_ok (ch : Channel) (h : Buffered buf 0 e R) (hroom : e < buf.length)
    (hrest : R.drop e = ch.rest) (hR : e ≤ R.length) :
    ∃ read buf' ch', ch.input buf e (buf.length - e) = .ok (read, buf', ch') ∧
      buf'.length = buf.length ∧ Buffered buf' 0 (e + read) R ∧ R.drop (e + read) = ch'.rest ∧
      e + read ≤ R.length ∧ ch'.rest.length + read = ch.rest.length ∧
        (read = 0 → ch.rest = []) := by
  have hlen : R.length = e + ch.rest.length := by
    rw [← hrest, length_drop]
    omega
  have hmin : ∃ read, read =
      min (max 1 (ch.sizes ch.reads)) (min (buf.length - e) ch.rest.length) :=
    ⟨_, rfl⟩
  obtain ⟨read, hread⟩ := hmin
  refine ⟨read, buf.take e ++ ch.rest.take read ++ buf.drop (e + read),
    { ch with rest := ch.rest.drop read, reads := ch.reads + 1 }, ?_, ?_, ?_, ?_, ?_, ?_, ?_⟩
  · rw [Channel.input, if_pos (by omega), hread]
  · simp
    omega
  · refine ⟨by omega, ?_, fun i hi => ?_⟩
    · simp
      omega
    · rw [append_assoc, Nat.zero_add]
      by_cases hie : i < e
      · rw [List.getElem?_append_left (by rw [length_take]; omega),
          List.getElem?_take_of_lt hie, ← h.get_eq i (by omega), Nat.zero_add]
      · have hlt : (buf.take e).length = e := by
          rw [length_take]
          omega
        rw [List.getElem?_append_right (by omega), hlt,
          List.getElem?_append_left (by rw [length_take]; omega),
          List.getElem?_take_of_lt (by omega), ← hrest, List.getElem?_drop]
        congr 1
        omega
  · rw [← drop_drop, hrest]
  · omega
  · rw [length_drop]
    omega
  · intro h0
    apply eq_nil_of_length_eq_zero
    omega

theorem length_encodeReplacement (len : Nat) (s : Bytes) :
    (encodeReplacement len s).length = len := by
  rw [encodeReplacement]
  split
  · rw [length_append, length_replicate]
    omega
  · split
    · assumption
    · rw [length_take]
      omega

/-! ## The loop -/

/-- A result with what was output before, and with the status so far. -/
def finish (out : Bytes) (status : Status) :
    Except Exn (Bytes × Status) → Except Failure (Bytes × Status)
  | .error e => .error (.raised e)
  | .ok (o, .someSubstitution) => .ok (out ++ o, .someSubstitution)
  | .ok (o, .noSubstitution) => .ok (out ++ o, status)

theorem finish_prepend (out sent : Bytes) (status : Status) (r : Except Exn (Bytes × Status)) :
    finish out status (prepend sent r) = finish (out ++ sent) status r := by
  rcases r with e | ⟨o, _ | _⟩
  · rfl
  · simp [prepend, Except.map, finish]
  · simp [prepend, Except.map, finish]

/-- What the recursive calls of the loop do, on streams that are smaller by the measure `n`. -/
def LoopSpec (mode : Mode Q) (n : Nat) (loop : Loop) : Prop :=
  ∀ (R : Bytes) (ch : Channel) (buf out : Bytes) (st : State) (b p e k : Nat) (status : Status),
    buf.length = bufLen → Buffered buf b e R → R.drop (e - b) = ch.rest → e - b ≤ R.length →
    b + p ≤ e → Knows b R p k st → R.length - k + ch.rest.length < n →
    ((∃ conf, mode = .copy conf) ∨ status = .noSubstitution) →
    loop ch buf out st b (b + p) e status = finish out status (copyAll mode 0 R)

section
variable {mode : Mode Q} {n : Nat} {next : Loop} {ch : Channel} {buf : Bytes} {e : Nat}
  {status : Status}

theorem wholePlaceholder_spec (hnext : LoopSpec mode n next) (out : Bytes)
    (hbuf : buf.length = bufLen) (h : Buffered buf b e R) (hrest : R.drop (e - b) = ch.rest)
    (hR : e - b ≤ R.length) (hh : header R = some len) (hlen : len ≤ e - b)
    (hn : R.length + ch.rest.length ≤ n)
    (hmode : (∃ conf, mode = .copy conf) ∨ status = .noSubstitution) :
    wholePlaceholder mode next ch buf out b len e status =
      finish out status (copyAll mode 0 R) := by
  have hbounds := header_bounds hh
  have hle := h.le
  have hcand : candidate R = some len := by
    rw [candidate, hh, Option.filter_some, if_pos]
    simp only [decide_eq_true_eq]
    omega
  have hsub : sub buf b len = .ok (R.take len) := h.sub_ok (i := 0) (by omega)
  simp only [wholePlaceholder, hsub, bind, Except.bind]
  cases hd : decode (R.take len) with
  | error err =>
    rw [copyAll_candidate mode (by omega) hcand]
    simp only [hd, raising]
    rfl
  | ok r =>
    cases r with
    | none =>
      -- the scan goes on behind the prefix
      have hpassed : Passed R prefixLen := by
        refine passed_prefix hh fun len' hlen' => ?_
        rw [hcand] at hlen'
        rw [← Option.some.inj hlen']
        exact hd
      have hpre : prefixLen = 19 := rfl
      exact hnext R ch buf out .scan0 b prefixLen e prefixLen status hbuf h hrest hR
        (by omega) ⟨rfl, hpassed⟩ (by omega) hmode
    | some t =>
      rw [copyAll_candidate mode (by omega) hcand]
      simp only [hd, raising]
      cases mode with
      | test => simp [finish, pure, Except.pure]
      | copy conf =>
        simp only [bind, Except.bind]
        cases he : eval conf t with
        | error err => simp [finish]
        | ok s =>
          have hrepl : sub (encodeReplacement len s) 0 len = .ok (encodeReplacement len s) := by
            rw [sub, if_pos (by rw [length_encodeReplacement]; omega), drop_zero,
              take_of_length_le (Nat.le_of_eq (length_encodeReplacement ..))]
          have hrest' : (R.drop len).drop (e - (b + len)) = ch.rest := by
            rw [drop_drop, ← hrest]
            congr 1
            omega
          have hgo := hnext (R.drop len) ch buf (out ++ encodeReplacement len s) .scan0
              (b + len) 0 e
            0 .someSubstitution hbuf (h.drop hlen) hrest' (by rw [length_drop]; omega)
            (by omega) ⟨rfl, fun q hq => by omega⟩ (by rw [length_drop]; omega)
            (.inl ⟨conf, rfl⟩)
          simp only [hrepl]
          refine hgo.trans ?_
          rcases copyAll (.copy conf) 0 (R.drop len) with err | ⟨o, _ | _⟩
          · rfl
          · simp [finish, pure, Except.pure]
          · simp [finish, pure, Except.pure]

theorem moveBack_eq_scanPlaceholder {start : Nat} (h : st.moveBack = .scanPlaceholder start len) :
    ∃ start', st = .scanPlaceholder start' len := by
  cases st <;> cases h
  exact ⟨_, rfl⟩

/-- The data from the potential placeholder to the end of the buffer is the beginning of `R`; more
data is read behind it. -/
theorem refill_spec (hnext : LoopSpec mode n next) (out : Bytes) (hbuf : buf.length = bufLen)
    (h : Buffered buf b e R) (hrest : R.drop (e - b) = ch.rest) (hR : e - b ≤ R.length)
    (hinv : Inv 0 R (e - b) 0 st.moveBack)
    (hlen : ∀ start len, st = .scanPlaceholder start len → e - b < len)
    (hn : R.length + ch.rest.length ≤ n)
    (hmode : (∃ conf, mode = .copy conf) ∨ status = .noSubstitution) :
    refill mode next ch buf out st b (e - b) status = finish out status (copyAll mode 0 R) := by
  have hroom : e - b < bufLen := hinv.leftover_lt fun start len heq => by
    obtain ⟨start', hst⟩ := moveBack_eq_scanPlaceholder heq
    exact hlen start' len hst
  obtain ⟨buf1, hblit, hlen1, hbuf1⟩ := h.blit_ok (k := 0) (by omega)
  simp only [Nat.add_zero, drop_zero] at hblit hbuf1
  obtain ⟨read, buf2, ch2, hinput, hlen2, hbuf2, hrest2, hR2, hcount, hend⟩ :=
    hbuf1.input_ok ch (by omega) hrest hR
  rw [hlen1, hbuf] at hinput
  simp only [refill, hblit, position_ok (Nat.le_of_lt hroom), hinput, bind, Except.bind]
  by_cases h0 : read = 0
  · -- the end of the stream: `R` is what is in the buffer
    subst h0
    have hnil := hend rfl
    have hRlen : R.length = e - b := by
      have := congrArg List.length hrest
      rw [hnil, length_drop, length_nil] at this
      omega
    rw [Nat.add_zero] at hbuf2 hrest2
    rw [if_pos rfl]
    cases hst : st.moveBack with
    | scanPlaceholder start len =>
      rw [hst] at hinv
      obtain ⟨-, hle, hh⟩ := hinv
      obtain ⟨start', hst'⟩ := moveBack_eq_scanPlaceholder hst
      have hlong := hlen start' len hst'
      have hpassed : Passed R prefixLen := by
        refine passed_prefix hh fun len' hlen' => ?_
        have hcand := Option.filter_eq_some_iff.mp hlen'
        have hh' : header R = some len := hh
        rw [hh', decide_eq_true_eq] at hcand
        obtain ⟨heq, hle'⟩ := hcand
        cases heq
        omega
      have hpre : prefixLen = 19 := rfl
      have hch2 : ch2.rest.length = 0 := by
        have : ch.rest.length = 0 := by rw [hnil]; rfl
        omega
      have hgo := hnext R ch2 buf2 out .scan0 0 prefixLen (e - b) prefixLen status
        (by omega) hbuf2 hrest2 (by omega) (by omega) ⟨rfl, hpassed⟩ (by omega) hmode
      rwa [Nat.zero_add] at hgo
    | _ =>
      have hpassed : Passed R R.length := by
        rw [← hRlen] at hinv
        refine hinv.passes_end fun start len heq => ?_
        rw [hst] at heq
        cases heq
      rw [copyAll_passed mode (Nat.le_refl _) hpassed, finish_prepend, drop_length,
        take_length]
      cases mode with
      | test =>
        rcases hmode with ⟨conf, heq⟩ | rfl
        · cases heq
        · simp [Mode.emit, copyAll, finish, pure, Except.pure]
      | copy conf =>
        have hsub : sub buf2 0 (e - b) = .ok R := by
          have := hbuf2.sub_ok (i := 0) (n := e - b) (by omega)
          rwa [drop_zero, take_of_length_le (by omega)] at this
        simp [hsub, Mode.emit, copyAll, finish, pure, Except.pure]
  · rw [if_neg h0]
    have hgo := hnext R ch2 buf2 out st.moveBack 0 (e - b) (e - b + read) 0 status (by omega) hbuf2
      hrest2 (by omega) (by omega) ⟨hinv, fun q hq => by omega⟩ (by omega) hmode
    rwa [Nat.zero_add] at hgo

end

/-- The loop copies the remaining stream, with any bound above its measure. -/
theorem loop_spec (mode : Mode Q) (fuel : Nat) : LoopSpec mode fuel (loop mode fuel) := by
  induction fuel with
  | zero =>
    intro R ch buf out st b p e k status _ _ _ _ _ _ hn
    omega
  | succ fuel ih =>
    intro R ch buf out st b p e k status hbuf h hrest hR hp hst hn hmode
    obtain ⟨st', k', hrun, hk, hst'⟩ := h.run_spec hp hst
    have hle := hst'.inv.le
    have hbe := h.le
    have hdrop := h.drop hle
    have heq : e - (b + k') = e - b - k' := by omega
    have hsent : sendBefore mode buf b (b + k') = .ok (mode.emit (R.take k')) := by
      rw [sendBefore]
      by_cases hpos : b < b + k'
      · rw [if_pos hpos, Nat.add_sub_cancel_left]
        cases mode with
        | test => rfl
        | copy conf => exact h.sub_ok (i := 0) (by omega)
      · obtain rfl : k' = 0 := by omega
        rw [if_neg hpos, take_zero, Mode.emit_nil]
    have hrest' : (R.drop k').drop (e - (b + k')) = ch.rest := by
      rw [drop_drop, ← hrest]
      congr 1
      omega
    have hlenR : (R.drop k').length = R.length - k' := length_drop
    have hinv := hst'.inv.moveBack_inv
    rw [← heq] at hinv
    rw [copyAll_passed mode (by omega) hst'.passed, finish_prepend]
    simp only [loop, hrun, hst'.inv.placeholderStart_eq hbe, hsent,
      position_ok (show b + k' ≤ e by omega), bind, Except.bind]
    -- whatever the state, not enough data is in the buffer
    have hrefill : (∀ start len, st' = .scanPlaceholder start len → e - (b + k') < len) →
        refill mode (loop mode fuel) ch buf (out ++ mode.emit (R.take k')) st' (b + k')
            (e - (b + k')) status =
          finish (out ++ mode.emit (R.take k')) status (copyAll mode 0 (R.drop k')) :=
      fun hlong => refill_spec ih _ hbuf hdrop hrest' (by omega) hinv hlong (by omega) hmode
    cases st' with
    | scanPlaceholder start len =>
      obtain ⟨rfl, hsize, hh⟩ := hst'.inv
      by_cases hfit : len ≤ e - (b + k')
      · simp only [if_pos hfit]
        exact wholePlaceholder_spec ih _ hbuf hdrop hrest' (by omega) hh hfit (by omega) hmode
      · simp only [if_neg hfit]
        refine hrefill fun start' len' heq' => ?_
        cases heq'
        omega
    | scan0 | scan1 | scan2 | scanPrefix start | scanLength start acc => exact hrefill nofun

/-- However the channel splits the stream, `parse` copies it. -/
theorem parse_eq_copyAll (mode : Mode Q) (stream : Bytes) (sizes : Nat → Nat) :
    parse mode stream sizes = finish [] .noSubstitution (copyAll mode 0 stream) := by
  have hbuf : (List.replicate bufLen (0 : UInt8)).length = bufLen := length_replicate
  have h : Buffered (List.replicate bufLen 0) 0 0 stream :=
    ⟨Nat.le_refl 0, Nat.zero_le _, fun i hi => by omega⟩
  obtain ⟨read, buf, ch, hinput, hlen, hbuffered, hrest, hR, hcount, hend⟩ :=
    h.input_ok { rest := stream, sizes, reads := 0 } (by rw [hbuf]; decide) rfl
      (Nat.zero_le _)
  rw [hbuf, Nat.sub_zero] at hinput
  rw [Nat.zero_add] at hbuffered hrest hR
  simp only [parse, hinput, bind, Except.bind]
  by_cases h0 : read = 0
  · have hnil : stream = [] := hend h0
    rw [if_pos h0, hnil]
    rfl
  · rw [if_neg h0]
    have hcount' : ch.rest.length + read = stream.length := hcount
    exact loop_spec mode _ stream ch buf [] .scan0 0 0 read 0 .noSubstitution (by omega) hbuffered
      hrest hR (by omega) ⟨rfl, fun q hq => by omega⟩ (by omega) (.inr rfl)

end

end Dune.Rules.ArtifactSubstitution
