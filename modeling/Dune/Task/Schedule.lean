import Dune.Task.Calculus

/-!
# Schedules

An interpreter of tasks. A choice says which of parallel tasks makes the next step, at every
parallel section on the way to it, and a schedule is a list of choices. What the interpreter
computes is a run of the calculus (`Tree.run?_keeps`).
-/

namespace Dune.Task

open Dune.Task.Tree

variable {S R C Op : Type} (M : Machine S R C Op)

abbrev Config (S R C Op : Type) := S × Tree S R C Op

def Tree.returned? : Tree S R C Op → Option R
  | .leaf (.ret r) => some r
  | _ => none

def Tree.allReturned? : List (Tree S R C Op) → Option (List R)
  | [] => some []
  | t :: ts => t.returned?.bind fun r => (allReturned? ts).map (r :: ·)

def Code.step? (st : List C) (σ : S) : Code S R C Op → Option (Config S R C Op)
  | .ret _ => none
  | .call op k => some (σ, .bind op (.leaf (M.body op)) k)
  | .par cs k => some (σ, .par (cs.map .leaf) k)
  | .atomic f k kf =>
    match f st σ with
    | none => none
    | some (σ', .done r) => some (σ', .leaf (k r))
    | some (σ', .force c op) => some (σ', .forced c op (.leaf (M.body op)) kf)
  | .wait c k => (M.ivar σ c).map fun r => (σ, .leaf (k r))

mutual

def Tree.step? (choice : List Nat) (st : List C) (σ : S) : Tree S R C Op → Option (Config S R C Op)
  | .leaf code => code.step? M st σ
  | .bind op t k =>
    match t.returned? with
    | some r => some (σ, .leaf (k r))
    | none => (step? choice st σ t).map fun x => (x.1, .bind op x.2 k)
  | .forced c op t k =>
    match t.returned? with
    | some r => some (M.fill σ c r, .leaf (k r))
    | none => (step? choice (c :: st) σ t).map fun x => (x.1, .forced c op x.2 k)
  | .par ts k =>
    match allReturned? ts with
    | some rs => some (σ, .leaf (k rs))
    | none =>
      match choice with
      | [] => none
      | i :: choice => (stepAt? choice i st σ ts).map fun x => (x.1, .par x.2 k)

def Tree.stepAt? (choice : List Nat) (i : Nat) (st : List C) (σ : S) :
    List (Tree S R C Op) → Option (S × List (Tree S R C Op))
  | [] => none
  | t :: ts =>
    match i with
    | 0 => (step? choice st σ t).map fun x => (x.1, x.2 :: ts)
    | i + 1 => (stepAt? choice i st σ ts).map fun x => (x.1, t :: x.2)

end

def Tree.run? : List (List Nat) → Config S R C Op → Option (Config S R C Op)
  | [], x => some x
  | choice :: schedule, x => (x.2.step? M choice [] x.1).bind (run? schedule)

variable {M}

theorem Tree.returned?_eq {t : Tree S R C Op} {r : R} (h : t.returned? = some r) :
    t = .leaf (.ret r) := by
  unfold returned? at h
  split at h
  · cases h; rfl
  · cases h

theorem Tree.allReturned?_eq {ts : List (Tree S R C Op)} {rs : List R}
    (h : allReturned? ts = some rs) : ts = rs.map fun r => .leaf (.ret r) := by
  induction ts generalizing rs with
  | nil =>
    cases h
    rfl
  | cons t ts ih =>
    rw [allReturned?] at h
    obtain ⟨r, hr, h⟩ := Option.bind_eq_some_iff.mp h
    obtain ⟨rs', hrs', rfl⟩ := Option.map_eq_some_iff.mp h
    rw [returned?_eq hr, ih hrs']
    rfl

theorem Code.step?_sound {code : Code S R C Op} {st : List C} {σ : S} {x : Config S R C Op}
    (h : code.step? M st σ = some x) : Step M st σ (.leaf code) x.1 x.2 := by
  unfold Code.step? at h
  split at h
  · cases h
  · cases h; exact .head .call
  · cases h; exact .head .par
  · split at h
    · cases h
    · next heq => cases h; exact .head (.atomic heq)
    · next heq => cases h; exact .head (.force heq)
  · obtain ⟨r, hr, rfl⟩ := Option.map_eq_some_iff.mp h
    exact .head (.wait hr)

mutual

theorem Tree.step?_sound (t : Tree S R C Op) {choice : List Nat} {st : List C} {σ : S}
    {x : Config S R C Op} (h : t.step? M choice st σ = some x) : Step M st σ t x.1 x.2 := by
  match t with
  | .leaf code =>
    rw [step?] at h
    exact Code.step?_sound h
  | .bind op t k =>
    rw [step?] at h
    split at h
    · next hr =>
      cases h
      rw [returned?_eq hr]
      exact .head .bindRet
    · obtain ⟨y, hy, rfl⟩ := Option.map_eq_some_iff.mp h
      exact .bind (step?_sound t hy)
  | .forced c op t k =>
    rw [step?] at h
    split at h
    · next hr =>
      cases h
      rw [returned?_eq hr]
      exact .head .forcedRet
    · obtain ⟨y, hy, rfl⟩ := Option.map_eq_some_iff.mp h
      exact .forced (step?_sound t hy)
  | .par ts k =>
    rw [step?.eq_def] at h
    simp only at h
    split at h
    · next hrs =>
      cases h
      rw [allReturned?_eq hrs]
      exact .head .parRet
    · split at h
      · cases h
      · obtain ⟨y, hy, rfl⟩ := Option.map_eq_some_iff.mp h
        obtain ⟨l, t, t', r, rfl, heq, hstep⟩ := stepAt?_sound ts hy
        rw [heq]
        exact .parStep hstep

theorem Tree.stepAt?_sound (ts : List (Tree S R C Op)) {choice : List Nat} {i : Nat} {st : List C}
    {σ : S} {x : S × List (Tree S R C Op)} (h : stepAt? M choice i st σ ts = some x) :
    ∃ l t t' r, ts = l ++ t :: r ∧ x.2 = l ++ t' :: r ∧ Step M st σ t x.1 t' := by
  match ts, i with
  | [], _ =>
    rw [stepAt?] at h
    cases h
  | t :: ts, 0 =>
    rw [stepAt?] at h
    obtain ⟨y, hy, rfl⟩ := Option.map_eq_some_iff.mp h
    exact ⟨[], t, y.2, ts, rfl, rfl, step?_sound t hy⟩
  | t :: ts, i + 1 =>
    rw [stepAt?] at h
    obtain ⟨y, hy, rfl⟩ := Option.map_eq_some_iff.mp h
    obtain ⟨l, s, s', r, rfl, heq, hstep⟩ := stepAt?_sound ts hy
    exact ⟨t :: l, s, s', r, rfl, by rw [heq]; rfl, hstep⟩

end

/-- What every step keeps, a schedule keeps. -/
theorem Tree.run?_keeps {P : S → Tree S R C Op → Prop} (schedule : List (List Nat)) {σ : S}
    {t : Tree S R C Op} {x : Config S R C Op}
    (hP : ∀ {σ t σ' t'}, P σ t → Step M [] σ t σ' t' → P σ' t') (h : P σ t)
    (hrun : run? M schedule (σ, t) = some x) : P x.1 x.2 := by
  induction schedule generalizing σ t with
  | nil =>
    cases hrun
    exact h
  | cons choice schedule ih =>
    rw [run?] at hrun
    obtain ⟨y, hy, hrun⟩ := Option.bind_eq_some_iff.mp hrun
    exact ih (hP h (step?_sound t hy)) hrun

end Dune.Task
