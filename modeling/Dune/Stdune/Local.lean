import Dune.Stdune.LocalPath
import Dune.Stdune.Filename

/-!
# Local paths as values

`is_canonicalized` reads a path from its end; what it accepts is closed under joining and
splitting at a slash (`isCanonicalized_append`), and a canonical path is a file name or a file
name in front of a canonical path (`canonical_induction`). A `Local` is a string that `is_valid`
accepts. `parent`, `append` and `relative_result` stay among these strings.
-/

namespace Dune.Stdune

open List Bytes

namespace LocalPath

/-! ## Canonical strings -/

attribute [local simp] canonicalFrom

theorem canonicalFrom_append (st : Canon) (b a : Bytes) :
    canonicalFrom st (b ++ 47 :: a) = (canonicalFrom st b && canonicalFrom .beforeSlash a) := by
  induction b generalizing st with
  | nil => cases st <;> simp
  | cons c b ih =>
    by_cases hslash : c = 47
    · cases st <;> simp [hslash, ih]
    · by_cases hdot : c = 46
      · cases st <;> simp [hdot, ih]
      · cases st <;> simp [hslash, hdot, ih]

/-- Two paths around a slash form a canonical path exactly when both are canonical. -/
theorem isCanonicalized_append (a b : Bytes) :
    isCanonicalized (a ++ 47 :: b) = (isCanonicalized a && isCanonicalized b) := by
  have hrev : (a ++ 47 :: b).reverse = b.reverse ++ 47 :: a.reverse := by simp
  rw [isCanonicalized, hrev, canonicalFrom_append, Bool.and_comm]
  rfl

theorem isCanonicalized_nil : isCanonicalized [] = false := rfl

theorem isCanonicalized_root : isCanonicalized root = false := rfl

theorem isCanonicalized_slash (b : Bytes) : isCanonicalized (47 :: b) = false := by
  have happend := isCanonicalized_append [] b
  rwa [isCanonicalized_nil, Bool.false_and] at happend

variable {s c path t a b : Bytes}

theorem isRelative_eq_false_iff : isRelative s = false ↔ ∃ r, s = 47 :: r := by
  unfold isRelative
  split
  next r => exact ⟨fun _ => ⟨r, rfl⟩, fun _ => rfl⟩
  next hs =>
    simp only [Bool.true_eq_false, false_iff, not_exists]
    exact hs

theorem isRelative_of_canonical (h : isCanonicalized s = true) : isRelative s = true := by
  refine Bool.not_eq_false _ ▸ fun habs => ?_
  obtain ⟨r, rfl⟩ := isRelative_eq_false_iff.mp habs
  rw [isCanonicalized_slash] at h
  cases h

section

variable (h : 47 ∉ s)
include h

/-- Inside a component every byte but a slash is accepted. -/
theorem canonicalFrom_inComponent : canonicalFrom .inComponent s = true := by
  induction s with
  | nil => rfl
  | cons c s ih =>
    have hc : c ≠ 47 := fun hc => h (hc ▸ mem_cons_self)
    rw [canonicalFrom, if_neg hc, ih fun hs => h (mem_cons_of_mem c hs)]

theorem canonicalFrom_beforeDotDotSlash : canonicalFrom .beforeDotDotSlash s = true ↔ s ≠ [] := by
  cases s with
  | nil => simp
  | cons c s =>
    obtain ⟨hc, hs⟩ := not_or.mp (mem_cons.not.mp h)
    simp [Ne.symm hc, canonicalFrom_inComponent hs]

theorem canonicalFrom_beforeDotSlash :
    canonicalFrom .beforeDotSlash s = true ↔ s ≠ [] ∧ s ≠ [46] := by
  cases s with
  | nil => simp
  | cons c s =>
    obtain ⟨hc, hs⟩ := not_or.mp (mem_cons.not.mp h)
    by_cases hdot : c = 46
    · simp [hdot, canonicalFrom_beforeDotDotSlash hs]
    · simp [Ne.symm hc, hdot, canonicalFrom_inComponent hs]

theorem canonicalFrom_beforeSlash :
    canonicalFrom .beforeSlash s = true ↔ s ≠ [] ∧ s ≠ [46] ∧ s ≠ [46, 46] := by
  cases s with
  | nil => simp
  | cons c s =>
    obtain ⟨hc, hs⟩ := not_or.mp (mem_cons.not.mp h)
    by_cases hdot : c = 46
    · simp [hdot, canonicalFrom_beforeDotSlash hs]
    · simp [Ne.symm hc, hdot, canonicalFrom_inComponent hs]

end

/-- Without a slash, the canonical strings are the file names. -/
theorem isCanonicalized_component (h : 47 ∉ c) :
    isCanonicalized c = true ↔ c ≠ [] ∧ c ≠ ascii "." ∧ c ≠ ascii ".." := by
  have hdots : ascii "." = [46].reverse ∧ ascii ".." = [46, 46].reverse := ⟨rfl, rfl⟩
  have hrev : 47 ∉ c.reverse := fun hmem => h (mem_reverse.mp hmem)
  rw [isCanonicalized, canonicalFrom_beforeSlash hrev, hdots.1, hdots.2]
  simp [reverse_eq_iff]

/-- What holds of file names, and of a file name in front of a path it holds of, holds of every
canonical path. -/
theorem canonical_induction {P : Bytes → Prop}
    (component : ∀ c, 47 ∉ c → isCanonicalized c = true → P c)
    (below : ∀ c s, 47 ∉ c → isCanonicalized c = true → isCanonicalized s = true → P s →
      P (c ++ 47 :: s))
    (s : Bytes) (h : isCanonicalized s = true) : P s := by
  induction hn : s.length using Nat.strong_induction_on generalizing s with
  | _ n ih =>
    by_cases hslash : 47 ∈ s
    · obtain ⟨c, r, rfl, hc⟩ := eq_append_cons_of_mem hslash
      rw [isCanonicalized_append, Bool.and_eq_true] at h
      refine below c r hc h.1 h.2 (ih r.length ?_ r h.2 rfl)
      simp only [← hn, length_append, length_cons]
      omega
    · exact component s hslash h

/-! ## Components -/

theorem split_of_notMem {on : UInt8} (h : on ∉ c) : split on c = [c] := by
  induction c with
  | nil => rfl
  | cons x c ih =>
    obtain ⟨hx, hc⟩ := not_or.mp (mem_cons.not.mp h)
    rw [split, if_neg (Ne.symm hx), ih hc]

theorem split_append {on : UInt8} (h : on ∉ c) (s : Bytes) :
    split on (c ++ on :: s) = c :: split on s := by
  induction c with
  | nil => rw [nil_append, split, if_pos rfl]
  | cons x c ih =>
    obtain ⟨hx, hc⟩ := not_or.mp (mem_cons.not.mp h)
    rw [cons_append, split, if_neg (Ne.symm hx), ih hc]

theorem notMem_of_mem_split {on : UInt8} {s c : Bytes} (h : c ∈ split on s) : on ∉ c := by
  by_cases hon : on ∈ s
  · obtain ⟨d, r, rfl, hd⟩ := eq_append_cons_of_mem hon
    rw [split_append hd] at h
    rcases mem_cons.mp h with rfl | h
    · exact hd
    · exact notMem_of_mem_split h
  · rw [split_of_notMem hon, mem_singleton] at h
    exact h ▸ hon
termination_by s.length
decreasing_by
  subst_vars
  simp only [List.length_append, List.length_cons]
  omega

/-- What `explode_path` returns are components: not empty and without a slash. -/
def IsComponent (c : Bytes) : Prop := c ≠ [] ∧ 47 ∉ c

theorem isComponent_components (h : c ∈ components path) : IsComponent c := by
  obtain ⟨hmem, hne⟩ := mem_filter.mp h
  exact ⟨by simpa using hne, notMem_of_mem_split hmem⟩

theorem isComponent_explodePath (h : c ∈ explodePath path) : IsComponent c := by
  unfold explodePath at h
  split at h
  next hdot =>
    rw [mem_singleton] at h
    subst h hdot
    exact ⟨by decide, by decide⟩
  · have hcomps := fun c (hc : c ∈ components path) => isComponent_components hc
    split at h
    · cases h
    · rename_i heq
      rw [heq] at hcomps
      split at h
      · exact hcomps c (mem_cons_of_mem _ h)
      · exact hcomps c h

theorem components_component (hslash : 47 ∉ c) (hne : c ≠ []) : components c = [c] := by
  simp [components, split_of_notMem hslash, hne]

theorem components_below (hslash : 47 ∉ c) (hne : c ≠ []) (s : Bytes) :
    components (c ++ 47 :: s) = c :: components s := by
  simp [components, split_append hslash, hne]

/-- A canonical path explodes into its components, the first one included. -/
theorem explodePath_canonical (h : isCanonicalized s = true) : explodePath s = components s := by
  have hroot : s ≠ ascii "." := by
    rintro rfl
    rw [show isCanonicalized (ascii ".") = false from rfl] at h
    cases h
  have hfirst : (components s).head? ≠ some (ascii ".") := by
    clear hroot
    refine canonical_induction (P := fun s => (components s).head? ≠ some (ascii ".")) ?_ ?_ s h
    · intro c hslash hc
      obtain ⟨hne, hdot, -⟩ := (isCanonicalized_component hslash).mp hc
      simpa [components_component hslash hne] using hdot
    · intro c s hslash hc _ _
      obtain ⟨hne, hdot, -⟩ := (isCanonicalized_component hslash).mp hc
      simpa [components_below hslash hne] using hdot
  rw [explodePath, if_neg hroot]
  generalize components s = comps at hfirst ⊢
  cases comps with
  | nil => rfl
  | cons c xs =>
    have hc : c ≠ ascii "." := by simpa using hfirst
    exact if_neg hc

/-! ## Closure -/

def append (a b : Bytes) : Bytes :=
  if isRoot a then b
  else if isRoot b then a
  else a ++ 47 :: b

theorem isRoot_iff : isRoot t = true ↔ t = root := beq_iff_eq

theorem isValid_iff : isValid t = true ↔ t = root ∨ isCanonicalized t = true := by
  rw [isValid, Bool.or_eq_true, isRoot_iff]

theorem isRoot_of_canonical (h : isCanonicalized t = true) : isRoot t = false := by
  refine Bool.eq_false_iff.mpr fun hroot => ?_
  rw [isRoot_iff.mp hroot, isCanonicalized_root] at h
  cases h

theorem isValid_root : isValid root = true := rfl

theorem parent_below (hslash : 47 ∉ b) (hroot : isRoot (a ++ 47 :: b) = false) :
    parent (a ++ 47 :: b) = some a := by
  have hrev : (a ++ 47 :: b).reverse = b.reverse ++ 47 :: a.reverse := by simp
  have hdrop : (b.reverse ++ 47 :: a.reverse).dropWhile (· != 47) = 47 :: a.reverse := by
    rw [dropWhile_append_of_pos]
    · rfl
    · intro x hx
      have hx : x ≠ 47 := fun h => hslash (mem_reverse.mp (h ▸ hx))
      simpa using hx
  simp [parent, hroot, hrev, hdrop]

theorem exists_last_slash (h : 47 ∈ t) : ∃ a b, t = a ++ 47 :: b ∧ 47 ∉ b := by
  obtain ⟨b, a, hrev, hb⟩ := eq_append_cons_of_mem (mem_reverse.mpr h)
  refine ⟨a.reverse, b.reverse, ?_, fun hmem => hb (mem_reverse.mp hmem)⟩
  rw [← reverse_reverse t, hrev]
  simp

theorem isValid_parent {p : Bytes} (ht : isValid t = true) (h : parent t = some p) :
    isValid p = true := by
  by_cases hroot : isRoot t = true
  · simp [parent, hroot] at h
  · by_cases hslash : 47 ∈ t
    · obtain ⟨a, b, rfl, hb⟩ := exists_last_slash hslash
      rw [parent_below hb (Bool.eq_false_iff.mpr hroot), Option.some.injEq] at h
      have hcanon := (isValid_iff.mp ht).resolve_left fun heq => hroot (isRoot_iff.mpr heq)
      rw [isCanonicalized_append, Bool.and_eq_true] at hcanon
      exact isValid_iff.mpr (.inr (h ▸ hcanon.1))
    · have hroot : parent t = some root := by simp [parent, hroot, hslash]
      rw [hroot, Option.some.injEq] at h
      exact h ▸ isValid_root

@[simp] theorem root_append (b : Bytes) : append root b = b := rfl

theorem append_root : append a root = a := by
  unfold append
  split
  next h => exact (isRoot_iff.mp h).symm
  next => rfl

theorem append_canonical (ha : isCanonicalized a = true) (hb : isCanonicalized b = true) :
    append a b = a ++ 47 :: b := by
  simp [append, isRoot_of_canonical ha, isRoot_of_canonical hb]

theorem isCanonicalized_append_path (ha : isValid a = true) (hb : isCanonicalized b = true) :
    isCanonicalized (append a b) = true := by
  rcases isValid_iff.mp ha with rfl | ha
  · exact hb
  · rw [append_canonical ha hb, isCanonicalized_append, ha, hb]
    rfl

theorem isValid_append (ha : isValid a = true) (hb : isValid b = true) :
    isValid (append a b) = true := by
  rcases isValid_iff.mp hb with rfl | hb
  · rw [append_root]
    exact ha
  · exact isValid_iff.mpr (.inr (isCanonicalized_append_path ha hb))

/-- A file name among the components goes at the end of the path. -/
theorem relativeComponents_name (hslash : 47 ∉ c) (hc : isCanonicalized c = true) (t : Bytes)
    (comps : List Bytes) :
    relativeComponents t (c :: comps) = relativeComponents (append t c) comps := by
  obtain ⟨-, hdot, hdots⟩ := (isCanonicalized_component hslash).mp hc
  rw [relativeComponents, if_neg hdot, if_neg hdots, append]
  simp only [isRoot_of_canonical hc]
  split <;> rfl

theorem isValid_relativeComponents {u : Bytes} {comps : List Bytes} (ht : isValid t = true)
    (hcomps : ∀ c ∈ comps, IsComponent c) (h : relativeComponents t comps = some u) :
    isValid u = true := by
  induction comps generalizing t with
  | nil =>
    rw [relativeComponents, Option.some.injEq] at h
    exact h ▸ ht
  | cons c comps ih =>
    have hrest : ∀ c ∈ comps, IsComponent c := fun c hc => hcomps c (mem_cons_of_mem _ hc)
    obtain ⟨hne, hslash⟩ := hcomps c mem_cons_self
    by_cases hdot : c = ascii "."
    · rw [relativeComponents, if_pos hdot] at h
      exact ih ht hrest h
    · by_cases hdots : c = ascii ".."
      · rw [relativeComponents, if_neg hdot, if_pos hdots] at h
        cases hparent : parent t with
        | none => simp [hparent] at h
        | some p =>
          simp only [hparent] at h
          exact ih (isValid_parent ht hparent) hrest h
      · have hc := (isCanonicalized_component hslash).mpr ⟨hne, hdot, hdots⟩
        rw [relativeComponents_name hslash hc] at h
        exact ih (isValid_append ht (isValid_iff.mpr (.inr hc))) hrest h

/-- Following the components of a canonical path appends it. -/
theorem relativeComponents_canonical (h : isCanonicalized s = true) (t : Bytes)
    (ht : isValid t = true) : relativeComponents t (components s) = some (append t s) := by
  refine canonical_induction (P := fun s => ∀ t, isValid t = true →
    relativeComponents t (components s) = some (append t s)) ?_ ?_ s h t ht
  · intro c hslash hc t _
    have hne := ((isCanonicalized_component hslash).mp hc).1
    rw [components_component hslash hne, relativeComponents_name hslash hc, relativeComponents]
  · intro c s hslash hc hs ih t ht
    have hne := ((isCanonicalized_component hslash).mp hc).1
    have htc := isCanonicalized_append_path ht hc
    rw [components_below hslash hne, relativeComponents_name hslash hc,
      ih _ (isValid_iff.mpr (.inr htc)), append_canonical htc hs]
    rcases isValid_iff.mp ht with rfl | ht
    · rfl
    · have hcs : isCanonicalized (c ++ 47 :: s) = true := by
        rw [isCanonicalized_append, hc, hs]
        rfl
      rw [append_canonical ht hc, append_canonical ht hcs]
      simp

theorem isValid_relativeResult {u : Bytes} (ht : isValid t = true)
    (h : relativeComponents t (explodePath path) = some u) : isValid u = true :=
  isValid_relativeComponents ht (fun _ => isComponent_explodePath) h

theorem ofString_of_valid (h : isValid s = true) : ofString s = .ok s := by
  simp only [ofString, parseStringResult, h, if_true]
  rfl

theorem isValid_ofString (h : ofString s = .ok t) : isValid t = true := by
  obtain ⟨r, hr, hok⟩ := bind_ok h
  have hvalid : ∀ u, r = some u → isValid u = true := by
    intro u hu
    subst hu
    rw [parseStringResult] at hr
    split at hr
    next hs => cases hr; exact hs
    next =>
      split at hr
      next => cases hr; exact isValid_root
      next =>
        rw [relativeResult] at hr
        split at hr
        next => exact isValid_relativeResult isValid_root (Except.ok.inj hr)
        next => cases hr
  cases r with
  | none => cases hok
  | some u =>
    exact Except.ok.inj hok ▸ hvalid u rfl

end LocalPath

/-! ## The values -/

/-- A `Local.t`; a `Source.t` and a `Build.t` are the same strings. -/
structure Local where
  toString : Bytes
  valid : LocalPath.isValid toString = true
deriving DecidableEq

namespace Local

@[ext] theorem ext {a b : Local} (h : a.toString = b.toString) : a = b := by
  cases a
  cases b
  cases h
  rfl

def root : Local := ⟨LocalPath.root, rfl⟩

def isRoot (t : Local) : Bool := LocalPath.isRoot t.toString

def append (a b : Local) : Local :=
  ⟨LocalPath.append a.toString b.toString, LocalPath.isValid_append a.valid b.valid⟩

def parent (t : Local) : Option Local :=
  (LocalPath.parent t.toString).pmap Local.mk fun _ => LocalPath.isValid_parent t.valid

/-- `Local.L.relative_result t (explode_path path)`; `none` is `Outside_the_workspace`. -/
def relativeResult (t : Local) (path : Bytes) : Option Local :=
  (LocalPath.relativeComponents t.toString (LocalPath.explodePath path)).pmap Local.mk
    fun _ => LocalPath.isValid_relativeResult t.valid

def ofString (s : Bytes) : Except Exn Local :=
  match h : LocalPath.ofString s with
  | .ok t => .ok ⟨t, LocalPath.isValid_ofString h⟩
  | .error e => .error e

variable (t : Local)

theorem eq_root_or_canonical : t = root ∨ LocalPath.isCanonicalized t.toString = true :=
  (LocalPath.isValid_iff.mp t.valid).imp_left fun h => ext h

theorem isRoot_iff {t : Local} : t.isRoot = true ↔ t = root := by
  rw [isRoot, LocalPath.isRoot_iff, Local.ext_iff]
  rfl

@[simp] theorem root_append : append root t = t := rfl

@[simp] theorem append_root : append t root = t := ext LocalPath.append_root

theorem append_assoc (a b c : Local) : (a.append b).append c = a.append (b.append c) := by
  rcases a.eq_root_or_canonical with rfl | ha
  · rfl
  rcases b.eq_root_or_canonical with rfl | hb
  · rw [append_root, root_append]
  rcases c.eq_root_or_canonical with rfl | hc
  · rw [append_root, append_root]
  refine ext ?_
  have hab := LocalPath.isCanonicalized_append_path a.valid hb
  have hbc := LocalPath.isCanonicalized_append_path b.valid hc
  simp only [append]
  rw [LocalPath.append_canonical hab hc, LocalPath.append_canonical ha hbc,
    LocalPath.append_canonical ha hb, LocalPath.append_canonical hb hc, List.append_assoc]
  rfl

/-- A path is below its parent. -/
theorem eq_append_of_parent {t p : Local} (h : t.parent = some p) : ∃ c, t = p.append c := by
  obtain ⟨s, _, hs, rfl⟩ := Option.pmap_eq_some_iff.mp h
  by_cases hslash : 47 ∈ t.toString
  · obtain ⟨a, b, hab, hb⟩ := LocalPath.exists_last_slash hslash
    have hcanon := t.eq_root_or_canonical.resolve_left fun hroot => by
      rw [hroot] at hslash
      exact absurd hslash (by decide)
    rw [hab, LocalPath.parent_below hb (hab ▸ LocalPath.isRoot_of_canonical hcanon),
      Option.some.injEq] at hs
    subst hs
    rw [hab, LocalPath.isCanonicalized_append, Bool.and_eq_true] at hcanon
    refine ⟨⟨b, LocalPath.isValid_iff.mpr (.inr hcanon.2)⟩, ext ?_⟩
    exact hab.trans (LocalPath.append_canonical hcanon.1 hcanon.2).symm
  · have hroot : s = LocalPath.root := by
      unfold LocalPath.parent at hs
      split at hs
      · cases hs
      · rw [if_neg (by simpa using hslash), Option.some.injEq] at hs
        exact hs.symm
    subst hroot
    exact ⟨t, rfl⟩

theorem append_ne_root {a : Local} (ha : a ≠ root) (b : Local) : a.append b ≠ root := by
  intro hroot
  have hcanon := a.eq_root_or_canonical.resolve_left ha
  rcases b.eq_root_or_canonical with rfl | hb
  · rw [append_root] at hroot
    exact ha hroot
  · have happend := LocalPath.isCanonicalized_append_path a.valid hb
    rw [show LocalPath.append a.toString b.toString = LocalPath.root from
      congrArg Local.toString hroot] at happend
    cases happend

theorem isRelative_toString : LocalPath.isRelative t.toString = true := by
  rcases t.eq_root_or_canonical with rfl | h
  · rfl
  · exact LocalPath.isRelative_of_canonical h

@[simp] theorem ofString_toString : ofString t.toString = .ok t := by
  have h := LocalPath.ofString_of_valid t.valid
  unfold ofString
  split
  next u hu =>
    rw [h] at hu
    cases hu
    rfl
  next e he =>
    rw [h] at he
    cases he

theorem relativeResult_toString (t l : Local) :
    t.relativeResult l.toString = some (t.append l) := by
  have happend : LocalPath.relativeComponents t.toString (LocalPath.explodePath l.toString) =
      some (LocalPath.append t.toString l.toString) := by
    rcases l.eq_root_or_canonical with rfl | hl
    · rw [show root.toString = LocalPath.root from rfl, LocalPath.append_root]
      rfl
    · rw [LocalPath.explodePath_canonical hl,
        LocalPath.relativeComponents_canonical hl _ t.valid]
  exact Option.pmap_eq_some_iff.mpr ⟨_, LocalPath.isValid_append t.valid l.valid, happend, rfl⟩

end Local

end Dune.Stdune
