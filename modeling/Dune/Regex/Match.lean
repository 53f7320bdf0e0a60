import Mathlib

/-!
# Regular expressions with anchors

The combinators of a regular expression library and what they match. A match is a part of a
string in its context: `r.Matches pre mid post` says that `r` matches `mid` in
`pre ++ mid ++ post`, and only the anchors look at `pre` and `post`. An expression occurs in a
string when it matches some part of it.

`Spans n r` bounds what an expression pins down: every match is at most `n` long, or another
string of the same length is matched as well.
-/

open List

namespace Dune.Regex

variable {α : Type}

/-- Regular expressions. The arguments of `diff` are sets of characters. -/
inductive Re (α : Type) where
  | char (c : α)
  | str (s : List α)
  | set (s : List α)
  | any
  | empty
  | diff (r₁ r₂ : Re α)
  | rep (r : Re α)
  | seq (rs : List (Re α))
  | alt (rs : List (Re α))
  | start
  | stop

/-- A part of a string that consists of pieces, each one matched in its own context. -/
inductive Pieces (M : List α → List α → List α → Prop) : List α → List α → List α → Prop
  | nil {pre post : List α} : Pieces M pre [] post
  | cons {pre u v post : List α} (hu : M pre u (v ++ post)) (hv : Pieces M (pre ++ u) v post) :
      Pieces M pre (u ++ v) post

mutual

/-- `r.Matches pre mid post`: the expression matches `mid` between `pre` and `post`. -/
def Re.Matches : Re α → List α → List α → List α → Prop
  | .char c, _, mid, _ => mid = [c]
  | .str s, _, mid, _ => mid = s
  | .set s, _, mid, _ => ∃ c ∈ s, mid = [c]
  | .any, _, mid, _ => ∃ c, mid = [c]
  | .empty, _, _, _ => False
  | .diff r₁ r₂, pre, mid, post => r₁.Matches pre mid post ∧ ¬ r₂.Matches pre mid post
  | .rep r, pre, mid, post => Pieces r.Matches pre mid post
  | .seq rs, pre, mid, post => SeqMatches rs pre mid post
  | .alt rs, pre, mid, post => AltMatches rs pre mid post
  | .start, pre, mid, _ => pre = [] ∧ mid = []
  | .stop, _, mid, post => mid = [] ∧ post = []

def SeqMatches : List (Re α) → List α → List α → List α → Prop
  | [], _, mid, _ => mid = []
  | r :: rs, pre, mid, post =>
    ∃ u v, mid = u ++ v ∧ r.Matches pre u (v ++ post) ∧ SeqMatches rs (pre ++ u) v post

def AltMatches : List (Re α) → List α → List α → List α → Prop
  | [], _, _, _ => False
  | r :: rs, pre, mid, post => r.Matches pre mid post ∨ AltMatches rs pre mid post

end

def Re.Occurs (r : Re α) (w : List α) : Prop :=
  ∃ pre mid post, w = pre ++ mid ++ post ∧ r.Matches pre mid post

variable {rs : List (Re α)} {p : α → Prop} {r : Re α} {n : Nat} {pre mid post : List α}

theorem altMatches_iff : AltMatches rs pre mid post ↔ ∃ r ∈ rs, r.Matches pre mid post := by
  induction rs with
  | nil => simp [AltMatches]
  | cons r rs ih => simp [AltMatches, ih]

theorem seqMatches_append {rs' : List (Re α)} :
    SeqMatches (rs ++ rs') pre mid post ↔
      ∃ u v, mid = u ++ v ∧ SeqMatches rs pre u (v ++ post) ∧ SeqMatches rs' (pre ++ u) v post := by
  induction rs generalizing pre mid with
  | nil => simp [SeqMatches]
  | cons r rs ih =>
    simp only [cons_append, SeqMatches, ih]
    constructor
    · rintro ⟨u, _, rfl, hu, v, w, rfl, hv, hw⟩
      refine ⟨u ++ v, w, by simp, ⟨u, v, rfl, ?_, hv⟩, ?_⟩
      · simpa using hu
      · simpa using hw
    · rintro ⟨_, w, rfl, ⟨u, v, rfl, hu, hv⟩, hw⟩
      refine ⟨u, v ++ w, by simp, ?_, v, w, rfl, hv, ?_⟩
      · simpa using hu
      · simpa using hw

/-- Between the two anchors the whole string is matched. -/
theorem occurs_anchored_iff {w : List α} :
    (Re.seq (.start :: (rs ++ [.stop]))).Occurs w ↔ SeqMatches rs [] w [] := by
  simp only [Re.Occurs, Re.Matches, SeqMatches, seqMatches_append]
  constructor
  · rintro ⟨pre, _, post, rfl, _, _, rfl, ⟨rfl, rfl⟩, u, _, rfl, hu, _, _, rfl, ⟨rfl, hpost⟩, rfl⟩
    simp only [nil_append, append_nil] at hpost hu ⊢
    subst hpost
    simpa using hu
  · intro h
    refine ⟨[], w, [], by simp, [], w, rfl, ⟨rfl, rfl⟩, w, [], by simp, by simpa using h, [], [],
      rfl, ⟨rfl, rfl⟩, rfl⟩

/-! ## Sets of characters -/

/-- The expression matches exactly the single characters of a set. -/
def IsSet (p : α → Prop) (r : Re α) : Prop :=
  ∀ pre mid post, r.Matches pre mid post ↔ ∃ c, p c ∧ mid = [c]

theorem isSet_char (c : α) : IsSet (· = c) (.char c) := by
  intro pre mid post
  simp [Re.Matches]

theorem isSet_set (s : List α) : IsSet (· ∈ s) (.set s) := by
  intro pre mid post
  simp [Re.Matches]

theorem isSet_any : IsSet (fun _ : α => True) .any := by
  intro pre mid post
  simp [Re.Matches]

theorem IsSet.diff {q : α → Prop} {r₁ r₂ : Re α} (h₁ : IsSet p r₁) (h₂ : IsSet q r₂) :
    IsSet (fun c => p c ∧ ¬ q c) (.diff r₁ r₂) := by
  intro pre mid post
  simp only [Re.Matches, h₁ pre mid post, h₂ pre mid post]
  constructor
  · rintro ⟨⟨c, hp, rfl⟩, hq⟩
    exact ⟨c, ⟨hp, fun hc => hq ⟨c, hc, rfl⟩⟩, rfl⟩
  · rintro ⟨c, ⟨hp, hq⟩, rfl⟩
    refine ⟨⟨c, hp, rfl⟩, ?_⟩
    rintro ⟨d, hd, heq⟩
    rw [singleton_inj] at heq
    exact hq (heq ▸ hd)

/-- A repeated set matches the strings over it. -/
theorem IsSet.rep (h : IsSet p r) (pre mid post : List α) :
    (Re.rep r).Matches pre mid post ↔ ∀ c ∈ mid, p c := by
  rw [Re.Matches]
  constructor
  · intro hpieces
    induction hpieces with
    | nil => simp
    | cons hu _ ih =>
      obtain ⟨c, hc, rfl⟩ := (h _ _ _).mp hu
      simpa [hc] using ih
  · intro hall
    induction mid generalizing pre with
    | nil => exact .nil
    | cons c mid ih =>
      have hc : r.Matches pre [c] (mid ++ post) :=
        (h _ _ _).mpr ⟨c, hall c mem_cons_self, rfl⟩
      exact .cons hc (ih _ fun d hd => hall d (mem_cons_of_mem c hd))

/-! ## What an expression pins down -/

/-- Another string of the same length is matched, whatever is around it. -/
def Varies (r : Re α) (mid : List α) : Prop :=
  ∃ mid', mid' ≠ mid ∧ mid'.length = mid.length ∧ ∀ pre post, r.Matches pre mid' post

/-- The expression does not look around, and each of its matches is at most `n` long or can be
varied. -/
structure Spans (n : Nat) (r : Re α) : Prop where
  anywhere : ∀ {pre mid post}, r.Matches pre mid post → ∀ pre' post', r.Matches pre' mid post'
  length : ∀ {pre mid post}, r.Matches pre mid post → mid.length ≤ n ∨ Varies r mid

theorem Spans.mono {m : Nat} (h : Spans n r) (hnm : n ≤ m) : Spans m r :=
  ⟨h.anywhere, fun hm => (h.length hm).imp_left fun hle => hle.trans hnm⟩

theorem spans_str (s : List α) : Spans s.length (.str s) := by
  refine ⟨fun h pre post => ?_, fun h => ?_⟩
  · simpa [Re.Matches] using h
  · rw [Re.Matches] at h
    exact .inl (h ▸ Nat.le_refl _)

theorem IsSet.spans (h : IsSet p r) : Spans 1 r := by
  refine ⟨fun hm pre post => ?_, fun hm => ?_⟩
  · exact (h _ _ _).mpr ((h _ _ _).mp hm)
  · obtain ⟨c, -, rfl⟩ := (h _ _ _).mp hm
    exact .inl (Nat.le_refl 1)

/-- A set with two characters pins nothing down. -/
theorem IsSet.spans_zero (h : IsSet p r) {a b : α} (ha : p a) (hb : p b) (hab : a ≠ b) :
    Spans 0 r := by
  refine ⟨h.spans.anywhere, fun hm => .inr ?_⟩
  obtain ⟨c, -, rfl⟩ := (h _ _ _).mp hm
  by_cases hca : c = a
  · exact ⟨[b], by simpa [hca] using hab.symm, rfl, fun _ _ => (h _ _ _).mpr ⟨b, hb, rfl⟩⟩
  · exact ⟨[a], by simpa using Ne.symm hca, rfl, fun _ _ => (h _ _ _).mpr ⟨a, ha, rfl⟩⟩

theorem IsSet.spans_rep (h : IsSet p r) {a b : α} (ha : p a) (hb : p b) (hab : a ≠ b) :
    Spans 0 (.rep r) := by
  refine ⟨fun hm pre post => (h.rep _ _ _).mpr ((h.rep _ _ _).mp hm), fun {pre mid post} hm => ?_⟩
  have hall := (h.rep _ _ _).mp hm
  cases mid with
  | nil => exact .inl (Nat.le_refl 0)
  | cons c mid =>
    have hmid : ∀ d ∈ mid, p d := fun d hd => hall d (mem_cons_of_mem c hd)
    -- The first character can be replaced by `a` or by `b`.
    obtain ⟨d, hd, hdc⟩ : ∃ d, p d ∧ d ≠ c := by
      by_cases hca : c = a
      · exact ⟨b, hb, hca ▸ hab.symm⟩
      · exact ⟨a, ha, Ne.symm hca⟩
    refine .inr ⟨d :: mid, by simpa using hdc, rfl, fun _ _ => (h.rep _ _ _).mpr ?_⟩
    exact forall_mem_cons.mpr ⟨hd, hmid⟩

theorem spans_seq_nil : Spans 0 (.seq ([] : List (Re α))) := by
  refine ⟨fun hm pre post => ?_, fun hm => ?_⟩
  · simpa [Re.Matches, SeqMatches] using hm
  · simp only [Re.Matches, SeqMatches] at hm
    exact .inl (by simp [hm])

theorem Spans.seq_cons {m : Nat} (hr : Spans n r) (hrs : Spans m (.seq rs)) :
    Spans (n + m) (.seq (r :: rs)) := by
  have hmk : ∀ {u v : List α}, (∀ pre post, r.Matches pre u post) →
      (∀ pre post, (Re.seq rs).Matches pre v post) →
      ∀ pre post, (Re.seq (r :: rs)).Matches pre (u ++ v) post :=
    fun hu hv pre post => ⟨_, _, rfl, hu _ _, hv _ _⟩
  refine ⟨fun hm pre post => ?_, fun hm => ?_⟩
  · obtain ⟨u, v, rfl, hu, hv⟩ := hm
    exact hmk (hr.anywhere hu) (hrs.anywhere hv) pre post
  · obtain ⟨u, v, rfl, hu, hv⟩ := hm
    rcases hr.length hu with hlu | ⟨u', hne, hlen, hu'⟩
    · rcases hrs.length hv with hlv | ⟨v', hne, hlen, hv'⟩
      · left
        rw [length_append]
        omega
      · refine .inr ⟨u ++ v', ?_, ?_, hmk (hr.anywhere hu) hv'⟩
        · simpa using hne
        · simp [hlen]
    · refine .inr ⟨u' ++ v, ?_, ?_, hmk hu' (hrs.anywhere hv)⟩
      · simpa using hne
      · simp [hlen]

theorem spans_alt (h : ∀ r ∈ rs, Spans n r) : Spans n (.alt rs) := by
  refine ⟨fun hm pre post => ?_, fun hm => ?_⟩
  · obtain ⟨r, hr, hm⟩ := altMatches_iff.mp hm
    exact altMatches_iff.mpr ⟨r, hr, (h r hr).anywhere hm pre post⟩
  · obtain ⟨r, hr, hm⟩ := altMatches_iff.mp hm
    refine ((h r hr).length hm).imp_right ?_
    rintro ⟨mid', hne, hlen, hm'⟩
    exact ⟨mid', hne, hlen, fun pre post => altMatches_iff.mpr ⟨r, hr, hm' pre post⟩⟩

end Dune.Regex
