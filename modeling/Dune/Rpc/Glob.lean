import Dune.Rpc.GlobLexer

/-!
# Globs

A glob is compared and hashed by its text, which is kept beside the compiled expression. The text
of a literal is the string it accepts, without the escapes it was written with; the glob of a list
of extensions matches anywhere in a string, unlike the glob its text parses to; and the text of
`empty` is a literal. Everything else that the constructors build is what its text parses to.
-/

namespace Dune.Rpc

open Stdune Stdune.Bytes Regex GlobLexer

/-- A `Filename.Extension.t`: a dot and bytes without a separator. -/
structure Extension where
  toString : Bytes
  valid : (toString.head? == some 46 && !toString.contains 47) = true

inductive Glob where
  | re (re : Re UInt8) (repr : Bytes)
  | literal (s : Bytes)

namespace Glob

def Test : Glob → Bytes → Prop
  | .literal t, s => t = s
  | .re r _, s => r.Occurs s

def empty : Glob := .re .empty [0]

def universal : Glob := .re (.rep .any) (ascii "**")

def ofStringResult (repr : Bytes) : Except (Nat × String) Glob :=
  match parseString repr with
  | .ok (.literal s) => .ok (.literal s)
  | .ok (.re r) => .ok (.re r repr)
  | .error e => .error e

def ofString (repr : Bytes) : Except Exn Glob :=
  match ofStringResult repr with
  | .ok t => .ok t
  | .error (_, msg) => .error (.invalidArgument ("invalid glob: :" ++ msg))

def toString : Glob → Bytes
  | .re _ repr => repr
  | .literal s => s

def compare (x y : Glob) : Ordering := Ord.compare x.toString y.toString

/-- The expression of one extension in `matching_extensions`. -/
def extensionRe (s : Extension) : Except Exn (Re UInt8) := do
  match ← ofString s.toString with
  | .literal _ => return .str s.toString
  | .re _ _ => .error (.codeError "invalid extension")

def matchingExtensions (extensions : List Extension) : Except Exn Glob := do
  let res ← extensions.mapM extensionRe
  let re := .seq [.rep .any, .alt res]
  match extensions with
  | [] => .error (.codeError "empty list of extensions")
  | [x] => return .re re (ascii "*" ++ x.toString)
  | xs =>
    let text := concat (ascii ",") (xs.map Extension.toString)
    return .re re (ascii "*\x7b" ++ text ++ ascii "\x7d")

/-! ## Globs and where they come from -/

inductive Source where
  | ofString (s : Bytes)
  | matchingExtensions (extensions : List Extension)
  | universal
  | empty

def Source.run : Source → Except Exn Glob
  | .ofString s => Glob.ofString s
  | .matchingExtensions exts => Glob.matchingExtensions exts
  | .universal => .ok Glob.universal
  | .empty => .ok Glob.empty

structure Made where
  source : Source
  glob : Glob
  returned : source.run = .ok glob

inductive Kind where
  | literal
  | parsed
  | nothing
  | extensions (exts : List Extension)

def Made.kind (m : Made) : Kind :=
  match m.glob, m.source with
  | .literal _, _ => .literal
  | .re _ _, .ofString _ => .parsed
  | .re _ _, .universal => .parsed
  | .re _ _, .matchingExtensions exts => .extensions exts
  | .re _ _, .empty => .nothing

/-- Each extension contains one of the others. -/
def Covers (exts exts' : List Extension) : Prop :=
  ∀ e ∈ exts, ∃ e' ∈ exts', e'.toString <:+: e.toString

/-- Globs of the two kinds accept the same strings when they have the same text. -/
def Kind.Same : Kind → Kind → Prop
  | .literal, .literal => True
  | .parsed, .parsed => True
  | .nothing, .nothing => True
  | .extensions exts, .extensions exts' => Covers exts exts' ∧ Covers exts' exts
  | _, _ => False

/-- A glob of the kind that accepts the same strings as what its text parses to. -/
def Kind.Reparses (text : Bytes) : Kind → Prop
  | .literal => Plain text
  | .parsed => True
  | .nothing => False
  | .extensions _ => False

/-! ## What the globs of each kind accept -/

/-- What is accepted by a glob with the text. -/
inductive Behaves (text : Bytes) (accepts : Bytes → Prop) : Kind → Prop
  | literal (h : ∀ s, accepts s ↔ text = s) : Behaves text accepts .literal
  | parsed {r : Re UInt8} (hparse : parseString text = .ok (.re r))
      (h : ∀ s, accepts s ↔ r.Occurs s) : Behaves text accepts .parsed
  | nothing (htext : text = [0]) (h : ∀ s, ¬ accepts s) : Behaves text accepts .nothing
  | extensions {exts : List Extension} {c : UInt8} {rest : Bytes} (hne : exts ≠ [])
      (htext : text = 42 :: c :: rest) (hc : c ≠ 42)
      (h : ∀ s, accepts s ↔ ∃ e ∈ exts, e.toString <:+: s) :
      Behaves text accepts (.extensions exts)

theorem Extension.eq_dot (e : Extension) : ∃ s, e.toString = 46 :: s := by
  have hvalid := e.valid
  rw [Bool.and_eq_true, beq_iff_eq] at hvalid
  exact List.head?_eq_some_iff.mp hvalid.1

theorem extensionRe_eq_ok {e : Extension} {r : Re UInt8} (h : extensionRe e = .ok r) :
    r = .str e.toString := by
  obtain ⟨g, -, hg⟩ := bind_ok h
  cases g with
  | literal s =>
    cases hg
    rfl
  | re r repr => cases hg

variable {exts : List Extension} {text : Bytes} {P : Bytes → Prop} {k k' : Kind}

theorem mapM_extensionRe {res : List (Re UInt8)} (h : exts.mapM extensionRe = .ok res) :
    res = exts.map fun e => .str e.toString := by
  induction exts generalizing res with
  | nil =>
    cases h
    rfl
  | cons e exts ih =>
    rw [List.mapM_cons] at h
    obtain ⟨r, hr, h⟩ := bind_ok h
    obtain ⟨rs, hrs, h⟩ := bind_ok h
    cases h
    rw [extensionRe_eq_ok hr, ih hrs, List.map_cons]

/-- The expression of a list of extensions is not anchored: it is found wherever one of them
is. -/
theorem occurs_extensions_iff {w : Bytes} :
    (Re.seq [.rep .any, .alt (exts.map fun e => .str e.toString)]).Occurs w ↔
      ∃ e ∈ exts, e.toString <:+: w := by
  have halt : ∀ pre mid post, AltMatches (exts.map fun e => Re.str e.toString) pre mid post ↔
      ∃ e ∈ exts, mid = e.toString := by
    intro pre mid post
    simp [altMatches_iff, Re.Matches]
  constructor
  · rintro ⟨pre, _, post, rfl, u, _, rfl, -, v, _, rfl, hv, rfl⟩
    obtain ⟨e, he, rfl⟩ := (halt _ _ _).mp hv
    exact ⟨e, he, pre ++ u, post, by simp⟩
  · rintro ⟨e, he, pre, post, rfl⟩
    refine ⟨pre, e.toString, post, rfl, [], e.toString, rfl, .nil, e.toString, [], by simp, ?_, rfl⟩
    exact (halt _ _ _).mpr ⟨e, he, rfl⟩

theorem behaves_matchingExtensions {g : Glob} (h : matchingExtensions exts = .ok g) :
    ∃ r text, g = .re r text ∧ Behaves text g.Test (.extensions exts) := by
  obtain ⟨res, hres, h⟩ := bind_ok h
  have hres := mapM_extensionRe hres
  subst hres
  cases exts with
  | nil => cases h
  | cons x xs =>
    obtain ⟨s, hs⟩ := Extension.eq_dot x
    cases xs with
    | nil =>
      cases h
      exact ⟨_, _, rfl, .extensions (by simp) (by rw [hs]; rfl) (by decide)
        fun s => occurs_extensions_iff⟩
    | cons y xs =>
      cases h
      exact ⟨_, _, rfl, .extensions (by simp) rfl (by decide) fun s => occurs_extensions_iff⟩

theorem parseString_doubleStar :
    parseString (ascii "**") = .ok (.re (.seq [.start, .rep .any, .stop])) := by
  rw [show parseString (ascii "**") = glob 2 (.re (.rep .any) .bottom) [] from rfl, glob]
  rfl

theorem occurs_rep_any (w : Bytes) : (Re.rep .any).Occurs w := ⟨[], [], w, rfl, .nil⟩

theorem occurs_doubleStar (w : Bytes) : (Re.seq [.start, .rep .any, .stop]).Occurs w := by
  refine (@occurs_anchored_iff _ [.rep .any] w).mpr ⟨w, [], by simp, ?_, rfl⟩
  exact (isSet_any.rep _ _ _).mpr fun _ _ => trivial

theorem Made.behaves (m : Made) : Behaves m.glob.toString m.glob.Test m.kind := by
  obtain ⟨source, g, h⟩ := m
  cases source with
  | ofString repr =>
    rw [Source.run, ofString, ofStringResult] at h
    cases hparse : parseString repr with
    | error e =>
      rw [hparse] at h
      cases h
    | ok x =>
      rw [hparse] at h
      cases x with
      | literal s =>
        cases h
        exact .literal fun s => Iff.rfl
      | re r =>
        cases h
        exact .parsed hparse fun s => Iff.rfl
  | matchingExtensions exts =>
    obtain ⟨r, text, rfl, hbehaves⟩ := behaves_matchingExtensions h
    exact hbehaves
  | universal =>
    cases h
    exact .parsed parseString_doubleStar fun s =>
      iff_of_true (occurs_rep_any s) (occurs_doubleStar s)
  | empty =>
    cases h
    refine .nothing rfl fun s => ?_
    rintro ⟨pre, mid, post, -, hempty⟩
    exact hempty

/-! ## Globs with one text -/

def Kind.rank : Kind → Nat
  | .literal => 0
  | .parsed => 1
  | .nothing => 2
  | .extensions _ => 3

theorem plain_zero : Plain [0] := by
  intro c hc
  rw [List.mem_singleton.mp hc]
  rfl

/-- An extension is accepted, and it starts with a dot. -/
theorem accepts_dot {accepts : Bytes → Prop} (hne : exts ≠ [])
    (h : ∀ s, accepts s ↔ ∃ e ∈ exts, e.toString <:+: s) : ∃ s, accepts (46 :: s) := by
  obtain ⟨e, exts, rfl⟩ := List.exists_cons_of_ne_nil hne
  obtain ⟨s, hs⟩ := Extension.eq_dot e
  exact ⟨s, (h _).mpr ⟨e, List.mem_cons_self, hs ▸ List.infix_rfl⟩⟩

/-- Globs of different kinds with one text differ. -/
theorem Behaves.differs {Q : Bytes → Prop} (h : Behaves text P k) (h' : Behaves text Q k')
    (hrank : k.rank < k'.rank) : ¬ ∀ s, P s ↔ Q s := by
  intro hsame
  cases h' with
  | literal _ => exact absurd hrank (Nat.not_lt_zero _)
  | parsed hparse hQ =>
    cases h with
    | literal hP =>
      have hplain : ¬ Plain text := by
        intro hplain
        rw [parseString_plain hplain] at hparse
        cases hparse
      exact not_accepts_only hparse hplain fun w => (hQ w).symm.trans ((hsame w).symm.trans (hP w))
    | parsed _ _ => exact absurd hrank (Nat.lt_irrefl _)
    | nothing _ _ => exact absurd hrank (by decide)
    | extensions _ _ _ _ => exact absurd hrank (Nat.not_lt.mpr (by decide : 1 ≤ 3))
  | nothing htext hQ =>
    cases h with
    | literal hP => exact hQ text ((hsame text).mp ((hP text).mpr rfl))
    | parsed hparse _ =>
      rw [htext, parseString_plain plain_zero] at hparse
      cases hparse
    | nothing _ _ => exact absurd hrank (Nat.lt_irrefl _)
    | extensions _ _ _ _ => exact absurd hrank (Nat.not_lt.mpr (by decide : 2 ≤ 3))
  | extensions hne htext hc hQ =>
    obtain ⟨s, hs⟩ := accepts_dot hne hQ
    have hs := (hsame _).mpr hs
    cases h with
    | literal hP =>
      have htext' := (hP _).mp hs
      rw [htext] at htext'
      exact absurd (List.cons.inj htext').1 (by decide)
    | parsed hparse hP =>
      rw [htext] at hparse
      exact not_accepts_dot hc hparse ((hP _).mp hs)
    | nothing htext' hP => exact hP _ hs
    | extensions _ _ _ _ => exact absurd hrank (Nat.lt_irrefl _)

theorem covers_iff {exts' : List Extension} :
    (∀ s, (∃ e ∈ exts, e.toString <:+: s) → ∃ e ∈ exts', e.toString <:+: s) ↔
      Covers exts exts' := by
  constructor
  · exact fun h e he => h e.toString ⟨e, he, List.infix_rfl⟩
  · rintro h s ⟨e, he, hes⟩
    obtain ⟨e', he', hinfix⟩ := h e he
    exact ⟨e', he', hinfix.trans hes⟩

theorem Kind.rank_eq_of_same (h : k.Same k') : k.rank = k'.rank := by
  cases k <;> cases k' <;> first | rfl | cases h

/-- With one text, globs accept the same strings exactly when they are of the same kind. -/
theorem Behaves.same_iff {Q : Bytes → Prop} (h : Behaves text P k) (h' : Behaves text Q k') :
    (∀ s, P s ↔ Q s) ↔ k.Same k' := by
  by_cases hrank : k.rank = k'.rank
  · cases h with
    | literal hP =>
      cases h' with
      | literal hQ => exact iff_of_true (fun s => (hP s).trans (hQ s).symm) trivial
      | _ => cases hrank
    | parsed hparse hP =>
      cases h' with
      | parsed hparse' hQ =>
        rw [hparse] at hparse'
        cases hparse'
        exact iff_of_true (fun s => (hP s).trans (hQ s).symm) trivial
      | _ => cases hrank
    | nothing _ hP =>
      cases h' with
      | nothing _ hQ => exact iff_of_true (fun s => iff_of_false (hP s) (hQ s)) trivial
      | _ => cases hrank
    | extensions _ _ _ hP =>
      cases h' with
      | extensions _ _ _ hQ =>
        rw [Kind.Same, ← covers_iff, ← covers_iff, ← forall_and]
        refine forall_congr' fun s => ?_
        rw [hP, hQ]
        exact iff_iff_implies_and_implies
      | _ => cases hrank
  · refine iff_of_false ?_ fun hsame => hrank (Kind.rank_eq_of_same hsame)
    rcases Nat.lt_or_gt_of_ne hrank with hlt | hgt
    · exact h.differs h' hlt
    · exact fun hsame => h'.differs h hgt fun s => (hsame s).symm

theorem test_ofStringResult {g : Glob} (h : ofStringResult text = .ok g) :
    ∃ x, parseString text = .ok x ∧ ∀ s, g.Test s ↔ x.Accepts s := by
  unfold ofStringResult at h
  split at h
  next s hparse =>
    cases h
    exact ⟨_, hparse, fun s => Iff.rfl⟩
  next r hparse =>
    cases h
    exact ⟨_, hparse, fun s => Iff.rfl⟩
  next => cases h

/-- The text is parsed back to a glob that accepts the same strings. -/
def ReadBack (text : Bytes) (accepts : Bytes → Prop) : Prop :=
  ∃ g, ofStringResult text = .ok g ∧ ∀ s, g.Test s ↔ accepts s

theorem Behaves.readBack_iff (h : Behaves text P k) : ReadBack text P ↔ k.Reparses text := by
  cases h with
  | literal hP =>
    constructor
    · rintro ⟨g, hg, htest⟩
      obtain ⟨x, hx, haccepts⟩ := test_ofStringResult hg
      by_contra hplain
      exact not_accepts_only hx hplain fun w =>
        (haccepts w).symm.trans ((htest w).trans (hP w))
    · intro hplain
      refine ⟨.literal text, ?_, fun s => (hP s).symm⟩
      rw [ofStringResult, parseString_plain hplain]
  | parsed hparse hP =>
    refine iff_of_true ⟨.re _ text, ?_, fun s => (hP s).symm⟩ trivial
    rw [ofStringResult, hparse]
  | nothing htext hP =>
    refine iff_of_false ?_ id
    rintro ⟨g, hg, htest⟩
    rw [htext, ofStringResult, parseString_plain plain_zero] at hg
    cases hg
    exact hP [0] ((htest [0]).mp rfl)
  | extensions hne htext hc hP =>
    refine iff_of_false ?_ id
    rintro ⟨g, hg, htest⟩
    obtain ⟨x, hx, haccepts⟩ := test_ofStringResult hg
    obtain ⟨s, hs⟩ := accepts_dot hne hP
    rw [htext] at hx
    exact not_accepts_dot hc hx ((haccepts _).mp ((htest _).mpr hs))

/-- Two globs that compare equal accept the same strings exactly when they are of the same kind,
and parsing the text of a glob gives back what it accepts exactly when it is not `empty`, not a
glob of extensions and not a literal with special characters. -/
theorem compare_sound_iff (m m' : Made) :
    ((m.glob.compare m'.glob = .eq → ∀ s, m.glob.Test s ↔ m'.glob.Test s) ↔
      (m.glob.compare m'.glob = .eq → m.kind.Same m'.kind)) ∧
    (ReadBack m.glob.toString m.glob.Test ↔ m.kind.Reparses m.glob.toString) := by
  refine ⟨forall_congr' fun heq => ?_, m.behaves.readBack_iff⟩
  have htext : m.glob.toString = m'.glob.toString := Std.compare_eq_iff_eq.mp heq
  have hbehaves := m.behaves
  rw [htext] at hbehaves
  exact hbehaves.same_iff m'.behaves

theorem parseString_escapedStar : parseString (ascii "\\*") = .ok (.literal (ascii "*")) := by
  rw [show parseString (ascii "\\*") = glob 0 .bottom [92, 42] from rfl, glob, glob]
  rfl

theorem parseString_star : parseString (ascii "*") =
    .ok (.re (.seq [.start, .seq [noSlashNoDot, .rep noSlash], .stop])) := by
  rw [show parseString (ascii "*") =
    glob 1 (.re (.seq [noSlashNoDot, .rep noSlash]) .bottom) [] from rfl, glob]
  rfl

/-- An escaped star is a literal with the text of the star that accepts more. -/
theorem escaped_star_compares_equal :
    ∃ g h, ofString (ascii "\\*") = .ok g ∧ ofString (ascii "*") = .ok h ∧
      g.compare h = .eq ∧ ¬ g.Test (ascii "a") ∧ h.Test (ascii "a") := by
  have hneq : ascii "*" ≠ ascii "a" := by decide
  refine ⟨.literal (ascii "*"),
    .re (.seq [.start, .seq [noSlashNoDot, .rep noSlash], .stop]) (ascii "*"), ?_, ?_, rfl, hneq,
      ?_⟩
  · rw [ofString, ofStringResult, parseString_escapedStar]
  · rw [ofString, ofStringResult, parseString_star]
  · refine (@occurs_anchored_iff _ [.seq [noSlashNoDot, .rep noSlash]] _).mpr ?_
    refine ⟨ascii "a", [], rfl, ⟨ascii "a", [], rfl, ?_, [], [], rfl, .nil, rfl⟩, rfl⟩
    exact (isSet_noSlashNoDot _ _ _).mpr ⟨97, by decide, rfl⟩

end Glob

end Dune.Rpc
