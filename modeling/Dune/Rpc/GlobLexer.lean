import Dune.Stdune.Bytes
import Dune.Regex.Match

/-!
# Parsing globs

The lexer of globs: a stack of what has been read, from which groups and the final regular
expression are built. A glob without special characters, or with escaped ones only, is a literal.

Reading a special character costs a byte: what is accepted is shorter than the glob, or is not the
only string of its length that is accepted (`parseString_fits`). So a glob with a special
character never stands for itself.
-/

namespace Dune.Rpc.GlobLexer

open List Stdune Stdune.Bytes Regex

/-- `Glob_lexer.t`. -/
inductive Parsed where
  | literal (s : Bytes)
  | re (r : Re UInt8)

inductive Stack where
  | bottom
  | lbrace (st : Stack)
  | char (c : UInt8) (st : Stack)
  | re (r : Re UInt8) (st : Stack)
  | comma (st : Stack)

def noSlash : Re UInt8 := .diff .any (.char 47)

def noSlashNoDot : Re UInt8 := .diff .any (.set (ascii "./"))

def makeGroupLoop (currentRe fullRes : List (Re UInt8)) : Stack → Except String Stack
  | .bottom => .error "'\x7d' without opening '\x7b'"
  | .re r st => makeGroupLoop (r :: currentRe) fullRes st
  | .char c st => makeGroupLoop (.char c :: currentRe) fullRes st
  | .comma st => makeGroupLoop [] (.seq currentRe :: fullRes) st
  | .lbrace st => .ok (.re (.alt (.seq currentRe :: fullRes)) st)

def makeGroup (st : Stack) : Except String Stack := makeGroupLoop [] [] st

def finalizeLoop (acc : List (Re UInt8)) : Stack → Except String (Re UInt8)
  | .bottom => .ok (.seq (.start :: acc))
  | .re r st => finalizeLoop (r :: acc) st
  | .char c st => finalizeLoop (.char c :: acc) st
  | .comma st => finalizeLoop (.char 44 :: acc) st
  | .lbrace _ => .error "unclosed '\x7b'"

/-- The last expressions of a glob that is not a literal. -/
def finalRe : Bytes → List (Re UInt8)
  | [] => [.stop]
  | acc => [.str acc, .stop]

def tryStr (acc : Bytes) : Stack → Except String Parsed
  | .bottom => .ok (.literal acc)
  | .comma st => tryStr (44 :: acc) st
  | .char c st => tryStr (c :: acc) st
  | .lbrace st => return .re (← finalizeLoop (finalRe acc) (.lbrace st))
  | .re r st => return .re (← finalizeLoop (finalRe acc) (.re r st))

def finalize (st : Stack) : Except String Parsed := tryStr [] st

/-- An error of an action, with the start of its lexeme. -/
def atLexeme {α : Type} (pos : Nat) : Except String α → Except (Nat × String) α
  | .ok x => .ok x
  | .error msg => .error (pos, msg)

/-- What `char_set` pushes for the bytes before the bracket. -/
def charSetRe : Bytes → Re UInt8
  | 33 :: s => .diff .any (.set s)
  | s => .set s

/-- The rules `glob` and `char_set`; `pos` is the position of the input. -/
def glob (pos : Nat) (st : Stack) (input : Bytes) : Except (Nat × String) Parsed :=
  match input with
  | [] => atLexeme pos (finalize st)
  | 92 :: [] => atLexeme pos (finalize st)
  | 92 :: c :: s => glob (pos + 2) (.char c st) s
  | 42 :: 42 :: s => glob (pos + 2) (.re (.seq [noSlashNoDot, .rep noSlash]) st) s
  | 42 :: s => glob (pos + 1) (.re (.rep noSlash) st) s
  | 63 :: s => glob (pos + 1) (.re noSlash st) s
  | 123 :: s => glob (pos + 1) (.lbrace st) s
  | 44 :: s => glob (pos + 1) (.comma st) s
  | 125 :: s =>
    match atLexeme pos (makeGroup st) with
    | .ok st => glob (pos + 1) st s
    | .error e => .error e
  | 91 :: s =>
    match h : s.dropWhile (· != 93) with
    | _ :: rest =>
      glob (pos + 1 + (s.length - rest.length)) (.re (charSetRe (s.takeWhile (· != 93))) st) rest
    | [] => .error (pos + 1, "unclosed character set")
  | 93 :: _ => .error (pos, "']' without opening '['")
  | c :: s => glob (pos + 1) (.char c st) s
termination_by input.length
decreasing_by
  all_goals simp only [List.length_cons]
  all_goals try omega
  have hle := (List.dropWhile_suffix (l := s) (· != 93)).length_le
  rw [h, List.length_cons] at hle
  omega

def initial (input : Bytes) : Except (Nat × String) Parsed :=
  match input with
  | 42 :: 42 :: s => glob 2 (.re (.rep .any) .bottom) s
  | 42 :: s => glob 1 (.re (.seq [noSlashNoDot, .rep noSlash]) .bottom) s
  | s => glob 0 .bottom s

def parseString (s : Bytes) : Except (Nat × String) Parsed := initial s

/-! ## Special characters -/

/-- The bytes that do not stand for themselves in a glob. -/
def isSpecial (c : UInt8) : Bool :=
  c = 92 || c = 42 || c = 63 || c = 123 || c = 125 || c = 91 || c = 93

def Plain (s : Bytes) : Prop := ∀ c ∈ s, isSpecial c = false

/-- How long a string can be that a glob pins down: a special character costs a byte. -/
def room : Bytes → Nat
  | [] => 0
  | c :: s => if isSpecial c then s.length else room s + 1

theorem room_le (s : Bytes) : room s ≤ s.length := by
  induction s with
  | nil => exact Nat.le_refl 0
  | cons c s ih =>
    rw [room, length_cons]
    split <;> omega

variable {s : Bytes} {n k pos : Nat} {x : Parsed} {st : Stack} {r : Re UInt8} {c : UInt8}

theorem plain_of_room (h : s.length ≤ room s) : Plain s := by
  induction s with
  | nil => simp [Plain]
  | cons c s ih =>
    rw [room, length_cons] at h
    split at h
    · omega
    next hc =>
      exact forall_mem_cons.mpr ⟨Bool.eq_false_iff.mpr hc, ih (by omega)⟩

theorem isSet_noSlash : IsSet (fun c : UInt8 => True ∧ ¬ c = 47) noSlash :=
  isSet_any.diff (isSet_char 47)

theorem isSet_noSlashNoDot : IsSet (fun c => True ∧ ¬ c ∈ ascii "./") noSlashNoDot :=
  isSet_any.diff (isSet_set _)

theorem spans_noSlash : Spans 0 noSlash :=
  isSet_noSlash.spans_zero (a := 97) (b := 98) (by decide) (by decide) (by decide)

theorem spans_rep_noSlash : Spans 0 (.rep noSlash) :=
  isSet_noSlash.spans_rep (a := 97) (b := 98) (by decide) (by decide) (by decide)

theorem spans_noSlashNoDot : Spans 0 noSlashNoDot :=
  isSet_noSlashNoDot.spans_zero (a := 97) (b := 98) (by decide) (by decide) (by decide)

theorem spans_star : Spans 0 (.seq [noSlashNoDot, .rep noSlash]) :=
  spans_noSlashNoDot.seq_cons (spans_rep_noSlash.seq_cons spans_seq_nil)

theorem spans_doubleStar : Spans 0 (.rep (.any : Re UInt8)) :=
  isSet_any.spans_rep (a := 97) (b := 98) trivial trivial (by decide)

theorem spans_charSetRe (s : Bytes) : Spans 1 (charSetRe s) := by
  unfold charSetRe
  split
  · exact (isSet_any.diff (isSet_set _)).spans
  · exact (isSet_set _).spans

/-! ## What the stack pins down -/

/-- The elements of the stack pin down at most `n` bytes. -/
inductive Stacked : Nat → Stack → Prop
  | bottom : Stacked 0 .bottom
  | lbrace {n : Nat} {st : Stack} (h : Stacked n st) : Stacked n (.lbrace st)
  | char {n : Nat} {c : UInt8} {st : Stack} (h : Stacked n st) : Stacked (n + 1) (.char c st)
  | comma {n : Nat} {st : Stack} (h : Stacked n st) : Stacked (n + 1) (.comma st)
  | re {n k : Nat} {r : Re UInt8} {st : Stack} (hr : Spans k r) (h : Stacked n st) :
      Stacked (n + k) (.re r st)

/-- What is pinned down by the result. -/
def Fits (n : Nat) : Parsed → Prop
  | .literal s => s.length ≤ n
  | .re r => ∃ rs, r = .seq (.start :: (rs ++ [.stop])) ∧ Spans n (.seq rs)

theorem Fits.mono {m : Nat} (h : Fits n x) (hnm : n ≤ m) : Fits m x := by
  cases x with
  | literal s => exact Nat.le_trans h hnm
  | re r =>
    obtain ⟨rs, hr, hs⟩ := h
    exact ⟨rs, hr, hs.mono hnm⟩

theorem makeGroupLoop_stacked {st' : Stack} {cur full : List (Re UInt8)} (hst : Stacked n st)
    (hcur : Spans k (.seq cur)) (hfull : ∀ r ∈ full, Spans k r)
    (h : makeGroupLoop cur full st = .ok st') : Stacked (n + k) st' := by
  induction hst generalizing k cur full with
  | bottom => cases h
  | lbrace hst _ =>
    cases h
    exact .re (spans_alt (forall_mem_cons.mpr ⟨hcur, hfull⟩)) hst
  | char _ ih =>
    rw [Nat.add_assoc]
    exact ih ((isSet_char _).spans.seq_cons hcur)
      (fun r hr => (hfull r hr).mono (Nat.le_add_left k 1)) h
  | comma _ ih =>
    rw [Nat.add_assoc]
    refine ih (spans_seq_nil.mono (Nat.zero_le _)) (forall_mem_cons.mpr ⟨?_, fun r hr => ?_⟩) h
    · exact hcur.mono (Nat.le_add_left k 1)
    · exact (hfull r hr).mono (Nat.le_add_left k 1)
  | re hr _ ih =>
    rw [Nat.add_assoc]
    exact ih (hr.seq_cons hcur) (fun r hr => (hfull r hr).mono (Nat.le_add_left k _)) h

theorem finalizeLoop_fits {rs : List (Re UInt8)} (hst : Stacked n st) (hrs : Spans k (.seq rs))
    (h : finalizeLoop (rs ++ [.stop]) st = .ok r) : Fits (n + k) (.re r) := by
  induction hst generalizing k rs with
  | bottom =>
    cases h
    exact ⟨rs, rfl, hrs.mono (Nat.le_add_left k 0)⟩
  | lbrace _ _ => cases h
  | char _ ih | comma _ ih =>
    rw [Nat.add_assoc]
    exact ih ((isSet_char _).spans.seq_cons hrs) h
  | re hr _ ih =>
    rw [Nat.add_assoc]
    exact ih (hr.seq_cons hrs) h

theorem finalRe_spans (acc : Bytes) :
    ∃ rs, finalRe acc = rs ++ [.stop] ∧ Spans acc.length (.seq rs) := by
  cases acc with
  | nil => exact ⟨[], rfl, spans_seq_nil⟩
  | cons c acc => exact ⟨[.str (c :: acc)], rfl, (spans_str (c :: acc)).seq_cons spans_seq_nil⟩

variable {acc input : Bytes}

theorem tryStr_fits (hst : Stacked n st) (h : tryStr acc st = .ok x) : Fits (n + acc.length) x := by
  induction hst generalizing acc with
  | bottom =>
    cases h
    exact Nat.le_add_left _ 0
  | lbrace hst _ =>
    obtain ⟨r, hr, hx⟩ := bind_ok h
    obtain ⟨rs, hfinal, hrs⟩ := finalRe_spans acc
    cases hx
    exact finalizeLoop_fits hst.lbrace hrs (hfinal ▸ hr)
  | char _ ih | comma _ ih => exact (ih h).mono (by simp only [length_cons]; omega)
  | re hr hst _ =>
    obtain ⟨r, hr', hx⟩ := bind_ok h
    obtain ⟨rs, hfinal, hrs⟩ := finalRe_spans acc
    cases hx
    exact finalizeLoop_fits (hst.re hr) hrs (hfinal ▸ hr')

theorem atLexeme_eq_ok {α : Type} {x : Except String α} {a : α} (h : atLexeme pos x = .ok a) :
    x = .ok a := by
  cases x with
  | ok x =>
    cases h
    rfl
  | error msg => cases h

theorem room_special (h : isSpecial c = true) (s : Bytes) : room (c :: s) = s.length := if_pos h

theorem room_ordinary (h : isSpecial c = false) (s : Bytes) : room (c :: s) = room s + 1 := by
  rw [room, h]
  rfl

/-- A special character leaves room for as many bytes as are read after it. -/
theorem le_room_special (h : isSpecial c = true) {rest : Bytes} (hk : rest.length + k ≤ s.length)
    (n : Nat) : n + k + room rest ≤ n + room (c :: s) := by
  have := room_le rest
  rw [room_special h]
  omega

theorem glob_fits (hst : Stacked n st) (h : glob pos st input = .ok x) :
    Fits (n + room input) x := by
  fun_induction glob pos st input generalizing n with
  | case1 | case2 => exact tryStr_fits hst (atLexeme_eq_ok h)
  | case3 _ _ c s ih => exact (ih hst.char h).mono (le_room_special rfl (Nat.le_refl _) n)
  | case4 _ _ s ih =>
    exact (ih (hst.re spans_star) h).mono (le_room_special rfl (Nat.le_succ s.length) n)
  | case5 _ _ s _ ih =>
    exact (ih (hst.re spans_rep_noSlash) h).mono (le_room_special rfl (Nat.le_refl _) n)
  | case6 _ _ s ih =>
    exact (ih (hst.re spans_noSlash) h).mono (le_room_special rfl (Nat.le_refl _) n)
  | case7 _ _ s ih => exact (ih hst.lbrace h).mono (le_room_special (k := 0) rfl (Nat.le_refl _) n)
  | case8 _ _ s ih =>
    refine (ih hst.comma h).mono ?_
    rw [room_ordinary rfl]
    omega
  | case9 _ _ s _ hgroup ih =>
    have hst' := makeGroupLoop_stacked hst spans_seq_nil (by simp) (atLexeme_eq_ok hgroup)
    exact (ih hst' h).mono (le_room_special rfl (Nat.le_refl _) n)
  | case10 => cases h
  | case11 _ _ s _ rest hdrop ih =>
    have hle := (dropWhile_suffix (l := s) (· != 93)).length_le
    rw [hdrop, length_cons] at hle
    exact (ih (hst.re (spans_charSetRe _)) h).mono (le_room_special rfl hle n)
  | case12 | case13 => cases h
  | case14 _ _ c s hlast hescape _ h42 h63 h123 _ h125 h91 h93 ih =>
    have hbackslash : c ≠ 92 := by
      intro hc
      cases s with
      | nil => exact hlast hc rfl
      | cons d s => exact hescape d s hc rfl
    have hordinary : isSpecial c = false := by
      simpa [isSpecial, hbackslash] using ⟨⟨⟨⟨⟨h42, h63⟩, h123⟩, h125⟩, h91⟩, h93⟩
    refine (ih hst.char h).mono ?_
    rw [room_ordinary hordinary]
    omega

/-- What is accepted fits in the room of the glob, or is not the only string of its length. -/
theorem parseString_fits (h : parseString s = .ok x) : Fits (room s) x := by
  rw [← Nat.zero_add (room s)]
  unfold parseString initial at h
  split at h
  next s =>
    have hglob := glob_fits (Stacked.bottom.re spans_doubleStar) h
    exact hglob.mono (le_room_special rfl (Nat.le_succ s.length) 0)
  next s _ =>
    have hglob := glob_fits (Stacked.bottom.re spans_star) h
    exact hglob.mono (le_room_special rfl (Nat.le_refl _) 0)
  next => exact glob_fits .bottom h

/-! ## Strings that stand for themselves -/

/-- The strings that a result accepts. -/
def Parsed.Accepts : Parsed → Bytes → Prop
  | .literal t, s => t = s
  | .re r, s => r.Occurs s

/-- A glob with a special character accepts something else than itself. -/
theorem not_accepts_only (h : parseString s = .ok x) (hplain : ¬ Plain s) :
    ¬ ∀ w, x.Accepts w ↔ s = w := by
  intro honly
  have hfits := parseString_fits h
  have hroom : room s < s.length := by
    by_contra hge
    exact hplain (plain_of_room (Nat.le_of_not_lt hge))
  cases x with
  | literal t =>
    obtain rfl : t = s := (honly s).mpr rfl
    exact absurd hfits (Nat.not_le.mpr hroom)
  | re r =>
    obtain ⟨rs, rfl, hspans⟩ := hfits
    have hself := occurs_anchored_iff.mp ((honly s).mpr rfl)
    rcases hspans.length hself with hle | ⟨w, hne, -, hw⟩
    · omega
    · exact hne ((honly w).mp (occurs_anchored_iff.mpr (hw [] []))).symm

/-- The stack after bytes that are not special. -/
def pushAll (st : Stack) (s : Bytes) : Stack :=
  s.foldl (fun st c => if c = 44 then .comma st else .char c st) st

theorem tryStr_pushAll (st : Stack) (s acc : Bytes) :
    tryStr acc (pushAll st s) = tryStr (s ++ acc) st := by
  induction s generalizing st with
  | nil => rfl
  | cons c s ih =>
    rw [pushAll, foldl_cons]
    refine (ih _).trans ?_
    split
    next hc => rw [hc, tryStr]; rfl
    next => rw [tryStr]; rfl

theorem glob_ordinary (h : isSpecial c = false) (pos : Nat) (st : Stack) (s : Bytes) :
    glob pos st (c :: s) = glob (pos + 1) (if c = 44 then .comma st else .char c st) s := by
  simp only [isSpecial, Bool.or_eq_false_iff, decide_eq_false_iff_not] at h
  obtain ⟨⟨⟨⟨⟨⟨h92, h42⟩, h63⟩, h123⟩, h125⟩, h91⟩, h93⟩ := h
  by_cases hcomma : c = 44
  · subst hcomma
    rw [glob, if_pos rfl]
  · rw [glob, if_neg hcomma] <;> simp_all

theorem glob_plain (h : Plain s) (pos : Nat) (st : Stack) :
    glob pos st s = atLexeme (pos + s.length) (finalize (pushAll st s)) := by
  induction s generalizing pos st with
  | nil =>
    rw [glob]
    rfl
  | cons c s ih =>
    obtain ⟨hc, hs⟩ := forall_mem_cons.mp h
    rw [glob_ordinary hc, ih hs, length_cons, Nat.add_assoc, Nat.add_comm 1]
    rfl

theorem parseString_plain (h : Plain s) : parseString s = .ok (.literal s) := by
  have hglob : parseString s = glob 0 .bottom s := by
    unfold parseString initial
    split
    next => exact absurd (h 42 mem_cons_self) (by decide)
    next => exact absurd (h 42 mem_cons_self) (by decide)
    next => rfl
  rw [hglob, glob_plain h, finalize, tryStr_pushAll, append_nil]
  rfl

/-! ## The first expression -/

/-- The first thing that was pushed is the expression `r`. -/
inductive StartsWith (r : Re UInt8) : Stack → Prop
  | base : StartsWith r (.re r .bottom)
  | lbrace {st : Stack} (h : StartsWith r st) : StartsWith r (.lbrace st)
  | char {c : UInt8} {st : Stack} (h : StartsWith r st) : StartsWith r (.char c st)
  | comma {st : Stack} (h : StartsWith r st) : StartsWith r (.comma st)
  | re {r' : Re UInt8} {st : Stack} (h : StartsWith r st) : StartsWith r (.re r' st)

section

variable (hst : StartsWith r st)
include hst

theorem makeGroupLoop_startsWith {st' : Stack} {cur full : List (Re UInt8)}
    (h : makeGroupLoop cur full st = .ok st') : StartsWith r st' := by
  induction hst generalizing cur full with
  | base => cases h
  | lbrace hst _ =>
    cases h
    exact hst.re
  | char _ ih | comma _ ih | re _ ih => exact ih h

theorem finalizeLoop_startsWith {r' : Re UInt8} {acc : List (Re UInt8)}
    (h : finalizeLoop acc st = .ok r') : ∃ rs, r' = .seq (.start :: r :: rs) := by
  induction hst generalizing acc with
  | base =>
    cases h
    exact ⟨acc, rfl⟩
  | lbrace _ _ => cases h
  | char _ ih | comma _ ih | re _ ih => exact ih h

theorem tryStr_startsWith (h : tryStr acc st = .ok x) :
    ∃ rs, x = .re (.seq (.start :: r :: rs)) := by
  have hfinal : ∀ {st acc}, StartsWith r st →
      (do return Parsed.re (← finalizeLoop acc st)) = .ok x →
      ∃ rs, x = .re (.seq (.start :: r :: rs)) := by
    intro st acc hst h
    obtain ⟨r', hr', hx⟩ := bind_ok h
    obtain ⟨rs, rfl⟩ := finalizeLoop_startsWith hst hr'
    cases hx
    exact ⟨rs, rfl⟩
  induction hst generalizing acc with
  | base => exact hfinal .base h
  | lbrace hst _ => exact hfinal hst.lbrace h
  | char _ ih | comma _ ih => exact ih h
  | re hst _ => exact hfinal hst.re h

theorem glob_startsWith (h : glob pos st input = .ok x) :
    ∃ rs, x = .re (.seq (.start :: r :: rs)) := by
  fun_induction glob pos st input with
  | case1 | case2 => exact tryStr_startsWith hst (atLexeme_eq_ok h)
  | case3 _ _ _ _ ih => exact ih hst.char h
  | case4 _ _ _ ih | case5 _ _ _ _ ih | case6 _ _ _ ih => exact ih hst.re h
  | case7 _ _ _ ih => exact ih hst.lbrace h
  | case8 _ _ _ ih => exact ih hst.comma h
  | case9 _ _ _ _ hgroup ih =>
    exact ih (makeGroupLoop_startsWith hst (atLexeme_eq_ok hgroup)) h
  | case10 => cases h
  | case11 _ _ _ _ _ _ ih => exact ih hst.re h
  | case12 | case13 => cases h
  | case14 _ _ _ _ _ _ _ _ _ _ _ _ _ _ ih => exact ih hst.char h

end

/-- A glob that starts with one star accepts no string that starts with a dot. -/
theorem not_accepts_dot {w : Bytes} (hc : c ≠ 42) (h : parseString (42 :: c :: s) = .ok x) :
    ¬ x.Accepts (46 :: w) := by
  have hglob : glob 1 (.re (.seq [noSlashNoDot, .rep noSlash]) .bottom) (c :: s) = .ok x := by
    unfold parseString initial at h
    split at h
    next heq =>
      simp only [List.cons.injEq, true_and] at heq
      exact absurd heq.1 hc
    next heq =>
      simp only [List.cons.injEq, true_and] at heq
      exact heq ▸ h
    next hstar => exact absurd rfl (hstar _)
  obtain ⟨rs, rfl⟩ := glob_startsWith .base hglob
  rintro ⟨pre, _, post, hw, _, _, rfl, ⟨rfl, rfl⟩, _, v, rfl, ⟨u, _, rfl, hu, -⟩, -⟩
  obtain ⟨d, hd, rfl⟩ := (isSet_noSlashNoDot _ _ _).mp hu
  simp only [nil_append, cons_append, List.cons.injEq] at hw
  exact hd.2 (hw.1 ▸ by decide)

end Dune.Rpc.GlobLexer
