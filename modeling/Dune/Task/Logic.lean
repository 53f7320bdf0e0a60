import Dune.Task.Calculus

/-!
# Rely and guarantee for tasks

A `Logic` has an invariant of the store, a preorder that every step respects, and pre- and
postconditions of the operations that are stable under it. A computation that is `held` in the
store is released by the task that runs it and by no other, and not while that task waits for
others: those of its call stack stay `held` while a task runs. `Code.Safe` is the weakest
precondition of a code under all interference that these rules allow, and `Tree.Safe` that of
running tasks. When every operation meets its specification (`Logic.Sound`), a safe tree stays safe
(`Tree.Safe.step`), so that no atomic step of it fails.
-/

open List

namespace Dune.Task

variable {S R C Op : Type}

/-- Specifications of the operations of a machine: `pre` and `post` of those that are called,
`forcedPre` and `forcedPost` of those that compute a computation. `waits` holds of a task that
waits for a computation and `forces` of one that runs one. -/
structure Logic (M : Machine S R C Op) where
  inv : S → Prop
  le : S → S → Prop
  alloc : S → C → Prop
  held : S → C → Prop
  pre : Op → List C → S → Prop
  post : Op → R → S → Prop
  forcedPre : Op → C → List C → S → Prop
  forcedPost : Op → C → R → S → Prop
  waits : List C → C → S → Prop
  forces : List C → C → Op → S → Prop
  le_refl : ∀ σ, le σ σ
  le_trans : ∀ {σ σ' σ''}, le σ σ' → le σ' σ'' → le σ σ''
  alloc_mono : ∀ {c σ σ'}, le σ σ' → alloc σ c → alloc σ' c
  pre_mono : ∀ {op st σ σ'}, le σ σ' → pre op st σ → pre op st σ'
  post_mono : ∀ {op r σ σ'}, le σ σ' → post op r σ → post op r σ'
  forcedPost_mono : ∀ {op c r σ σ'}, le σ σ' → forcedPost op c r σ → forcedPost op c r σ'
  waits_mono : ∀ {st c σ σ'}, le σ σ' → waits st c σ → waits st c σ'
  forces_mono : ∀ {st c op σ σ'}, le σ σ' → forces st c op σ → forces st c op σ'

namespace Logic

variable {M : Machine S R C Op} (L : Logic M)

/-- A condition on stores that no step invalidates. -/
def Stable (P : S → Prop) : Prop := ∀ {σ σ'}, L.le σ σ' → P σ → P σ'

theorem stable_const (p : Prop) : L.Stable fun _ => p := fun _ h => h

theorem post_stable (op : Op) (r : R) : L.Stable (L.post op r) := L.post_mono

theorem forcedPost_stable (op : Op) (c : C) (r : R) : L.Stable (L.forcedPost op c r) :=
  L.forcedPost_mono

/-- What other tasks do while the computations in `own` are run. -/
structure Rely (own : List C) (σ σ' : S) : Prop where
  le : L.le σ σ'
  held : ∀ c ∈ own, L.held σ c → L.held σ' c

/-- What a task does that runs the computations in `own`. -/
structure Guarantee (own : List C) (σ σ' : S) : Prop where
  le : L.le σ σ'
  held : ∀ c, c ∉ own → L.held σ c → L.held σ' c

variable {L} {own own' : List C} {σ σ' σ'' : S}

theorem Rely.refl (own : List C) (σ : S) : L.Rely own σ σ := ⟨L.le_refl σ, fun _ _ h => h⟩

theorem Guarantee.refl (own : List C) (σ : S) : L.Guarantee own σ σ :=
  ⟨L.le_refl σ, fun _ _ h => h⟩

theorem Rely.trans (h : L.Rely own σ σ') (h' : L.Rely own σ' σ'') : L.Rely own σ σ'' :=
  ⟨L.le_trans h.le h'.le, fun c hc hheld => h'.held c hc (h.held c hc hheld)⟩

theorem Rely.anti (h : L.Rely own σ σ') (hsub : own' ⊆ own) : L.Rely own' σ σ' :=
  ⟨h.le, fun c hc => h.held c (hsub hc)⟩

theorem Guarantee.weaken (h : L.Guarantee own σ σ') (hsub : own ⊆ own') : L.Guarantee own' σ σ' :=
  ⟨h.le, fun c hc => h.held c fun hmem => hc (hsub hmem)⟩

/-- The steps of one task are interference to a task that runs other computations. -/
theorem Guarantee.rely (h : L.Guarantee own σ σ') (hdisj : own.Disjoint own') : L.Rely own' σ σ' :=
  ⟨h.le, fun c hc => h.held c fun hmem => hdisj hmem hc⟩

end Logic

variable {M : Machine S R C Op}

/-- An atomic step of a task that runs the computations in `own` succeeds and keeps the invariant.
`K` holds after a result, and `KF` after the result of the computation that is forced. -/
def Logic.Allows (L : Logic M) (st own : List C) (K KF : R → S → Prop) (σ : S)
    (x : Option (S × Outcome R C Op)) : Prop :=
  ∃ σ' o, x = some (σ', o) ∧ L.Guarantee own σ σ' ∧ L.inv σ' ∧
    match o with
    | .done r => (∀ c, L.held σ' c → L.held σ c) ∧ K r σ'
    | .force c op =>
      ¬L.alloc σ c ∧ L.alloc σ' c ∧ (∀ c', L.held σ' c' → L.held σ c' ∨ c' = c) ∧
        L.forces st c op σ' ∧ L.forcedPre op c st σ' ∧
        ∀ r τ, L.Rely st σ' τ → L.inv τ → L.forcedPost op c r τ →
          ¬L.held τ c ∧ L.Guarantee [] τ (M.fill τ c r) ∧ L.inv (M.fill τ c r) ∧
            (∀ c', L.held (M.fill τ c r) c' → L.held τ c') ∧ KF r (M.fill τ c r)

mutual

/-- The code runs without failure and returns a result that satisfies `Q`, whatever the other tasks
do in between. They release none of the computations of the call stack, and the task releases no
computation but those in `own`. -/
def Code.Safe (L : Logic M) : Code S R C Op → List C → List C → (R → S → Prop) → S → Prop
  | .ret r, _, _, Q, σ => Q r σ
  | .call op k, st, own, Q, σ =>
    L.pre op st σ ∧
      ∀ r σ', L.Rely st σ σ' → L.inv σ' → L.post op r σ' → (k r).Safe L st own Q σ'
  | .par cs k, st, own, Q, σ =>
    ∃ Qs : List (R → S → Prop), (∀ P ∈ Qs, ∀ r, L.Stable (P r)) ∧ Code.AllSafe L cs st Qs σ ∧
      ∀ rs σ', L.Rely st σ σ' → L.inv σ' → List.Forall₂ (fun P r => P r σ') Qs rs →
        (k rs).Safe L st own Q σ'
  | .atomic f k kf, st, own, Q, σ =>
    ∀ σ', L.Rely st σ σ' → L.inv σ' →
      L.Allows st own (fun r => (k r).Safe L st own Q) (fun r => (kf r).Safe L st own Q) σ'
        (f st σ')
  | .wait c k, st, own, Q, σ =>
    L.waits st c σ ∧
      ∀ r σ', L.Rely st σ σ' → L.inv σ' → M.ivar σ' c = some r → (k r).Safe L st own Q σ'

def Code.AllSafe (L : Logic M) : List (Code S R C Op) → List C → List (R → S → Prop) → S → Prop
  | [], _, Qs, _ => Qs = []
  | c :: cs, st, Qs, σ =>
    ∃ P Ps, Qs = P :: Ps ∧ c.Safe L st [] P σ ∧ Code.AllSafe L cs st Ps σ

end

mutual

/-- The tasks run without failure and return a result that satisfies `Q`. -/
def Tree.Safe (L : Logic M) : Tree S R C Op → List C → List C → (R → S → Prop) → S → Prop
  | .leaf code, st, own, Q, σ => code.Safe L st own Q σ
  | .bind op t k, st, own, Q, σ =>
    t.Safe L st [] (L.post op) σ ∧
      ∀ r σ', L.Rely st σ σ' → L.inv σ' → L.post op r σ' → (k r).Safe L st own Q σ'
  | .forced c op t k, st, own, Q, σ =>
    L.forces st c op σ ∧ t.Safe L (c :: st) [c] (L.forcedPost op c) σ ∧
      ∀ r τ, L.Rely st σ τ → L.inv τ → L.forcedPost op c r τ →
        ¬L.held τ c ∧ L.Guarantee [] τ (M.fill τ c r) ∧ L.inv (M.fill τ c r) ∧
          (∀ c', L.held (M.fill τ c r) c' → L.held τ c') ∧
          (k r).Safe L st own Q (M.fill τ c r)
  | .par ts k, st, own, Q, σ =>
    ∃ Qs : List (R → S → Prop), (∀ P ∈ Qs, ∀ r, L.Stable (P r)) ∧ Tree.AllSafe L ts st Qs σ ∧
      ∀ rs σ', L.Rely st σ σ' → L.inv σ' → List.Forall₂ (fun P r => P r σ') Qs rs →
        (k rs).Safe L st own Q σ'

def Tree.AllSafe (L : Logic M) : List (Tree S R C Op) → List C → List (R → S → Prop) → S → Prop
  | [], _, Qs, _ => Qs = []
  | t :: ts, st, Qs, σ =>
    ∃ P Ps, Qs = P :: Ps ∧ t.Safe L st [] P σ ∧ Tree.AllSafe L ts st Ps σ

end

/-- Every operation meets its specifications. -/
structure Logic.Sound (L : Logic M) : Prop where
  called : ∀ op st σ, L.inv σ → L.pre op st σ → (M.body op).Safe L st [] (L.post op) σ
  forced : ∀ op c st σ, L.inv σ → L.forcedPre op c st σ →
    (M.body op).Safe L (c :: st) [c] (L.forcedPost op c) σ

variable {st own : List C} {Q : R → S → Prop}

theorem Code.Safe.update {L : Logic M} {f : S → Option (S × R)} {k : R → Code S R C Op} {σ : S}
    (h : ∀ σ', L.Rely st σ σ' → L.inv σ' → ∃ σ'' r, f σ' = some (σ'', r) ∧ L.Guarantee own σ' σ'' ∧
      L.inv σ'' ∧ (∀ c, L.held σ'' c → L.held σ' c) ∧ (k r).Safe L st own Q σ'') :
    (Code.update f k).Safe L st own Q σ := by
  intro σ' hrely hinv
  obtain ⟨σ'', r, heq, hguar, hinv', hheld, hk⟩ := h σ' hrely hinv
  refine ⟨σ'', .done r, ?_, hguar, hinv', hheld, hk⟩
  simp [heq]

variable {cs : List (Code S R C Op)}

theorem Code.Safe.par {L : Logic M} {P : R → Prop} {k : List R → Code S R C Op} {σ : S}
    (hcs : ∀ code ∈ cs, code.Safe L st [] (fun r _ => P r) σ)
    (hk : ∀ rs σ', L.Rely st σ σ' → L.inv σ' → (∀ r ∈ rs, P r) → (k rs).Safe L st own Q σ') :
    (Code.par cs k).Safe L st own Q σ := by
  refine ⟨cs.map fun _ r _ => P r, ?_, ?_, fun rs σ' hrely hinv hrs => hk rs σ' hrely hinv ?_⟩
  · intro P' hP' r
    obtain ⟨_, -, rfl⟩ := mem_map.mp hP'
    exact L.stable_const _
  · clear hk
    induction cs with
    | nil => rfl
    | cons code cs ih =>
      rw [forall_mem_cons] at hcs
      exact ⟨_, _, rfl, hcs.1, ih hcs.2⟩
  · rw [forall₂_map_left_iff] at hrs
    clear hk hcs
    induction hrs with
    | nil => exact nofun
    | cons hr _ ih => exact forall_mem_cons.mpr ⟨hr, ih⟩

section Stability

variable {L : Logic M} {σ σ' : S}

mutual

theorem Code.Safe.mono {st : List C} (h : L.Rely st σ σ') (code : Code S R C Op) {own : List C}
    {Q : R → S → Prop} (hQ : ∀ r, L.Stable (Q r)) (hsafe : code.Safe L st own Q σ) :
    code.Safe L st own Q σ' := by
  match code with
  | .ret r => exact hQ r h.le hsafe
  | .call op k =>
    exact ⟨L.pre_mono h.le hsafe.1, fun r τ hle => hsafe.2 r τ (h.trans hle)⟩
  | .par cs k =>
    obtain ⟨Qs, hQs, hcs, hk⟩ := hsafe
    exact ⟨Qs, hQs, Code.AllSafe.mono h cs hQs hcs, fun rs τ hle => hk rs τ (h.trans hle)⟩
  | .atomic f k kf => exact fun τ hle => hsafe τ (h.trans hle)
  | .wait c k =>
    exact ⟨L.waits_mono h.le hsafe.1, fun r τ hle => hsafe.2 r τ (h.trans hle)⟩

theorem Code.AllSafe.mono {st : List C} (h : L.Rely st σ σ') (cs : List (Code S R C Op))
    {Qs : List (R → S → Prop)} (hQs : ∀ P ∈ Qs, ∀ r, L.Stable (P r))
    (hsafe : Code.AllSafe L cs st Qs σ) : Code.AllSafe L cs st Qs σ' := by
  match cs with
  | [] => exact hsafe
  | c :: cs =>
    obtain ⟨P, Ps, rfl, hc, hcs⟩ := hsafe
    rw [forall_mem_cons] at hQs
    exact ⟨P, Ps, rfl, Code.Safe.mono h c hQs.1 hc, Code.AllSafe.mono h cs hQs.2 hcs⟩

end

mutual

/-- Other tasks leave the computations of the tree and of its call stack to it. -/
theorem Tree.Safe.mono {st : List C} (t : Tree S R C Op) (h : L.Rely (st ++ t.owned) σ σ')
    {own : List C} {Q : R → S → Prop} (hQ : ∀ r, L.Stable (Q r))
    (hsafe : t.Safe L st own Q σ) : t.Safe L st own Q σ' := by
  have hst := h.anti (subset_append_left st t.owned)
  match t with
  | .leaf code => exact Code.Safe.mono hst code hQ hsafe
  | .bind op t k =>
    exact ⟨Tree.Safe.mono t h (L.post_stable _) hsafe.1,
      fun r τ hle => hsafe.2 r τ (hst.trans hle)⟩
  | .forced c op t k =>
    have ht : L.Rely ((c :: st) ++ t.owned) σ σ' := h.anti perm_middle.symm.subset
    exact ⟨L.forces_mono h.le hsafe.1, Tree.Safe.mono t ht (L.forcedPost_stable _ _) hsafe.2.1,
      fun r τ hle => hsafe.2.2 r τ (hst.trans hle)⟩
  | .par ts k =>
    obtain ⟨Qs, hQs, hts, hk⟩ := hsafe
    exact ⟨Qs, hQs, Tree.AllSafe.mono ts h hQs hts, fun rs τ hle => hk rs τ (hst.trans hle)⟩

theorem Tree.AllSafe.mono {st : List C} (ts : List (Tree S R C Op))
    (h : L.Rely (st ++ Tree.ownedAll ts) σ σ')
    {Qs : List (R → S → Prop)} (hQs : ∀ P ∈ Qs, ∀ r, L.Stable (P r))
    (hsafe : Tree.AllSafe L ts st Qs σ) : Tree.AllSafe L ts st Qs σ' := by
  match ts with
  | [] => exact hsafe
  | t :: ts =>
    obtain ⟨P, Ps, rfl, ht, hts⟩ := hsafe
    rw [forall_mem_cons] at hQs
    have ht' : L.Rely (st ++ t.owned) σ σ' := h.anti fun c => by grind [Tree.ownedAll]
    have hts' : L.Rely (st ++ Tree.ownedAll ts) σ σ' := h.anti fun c => by grind [Tree.ownedAll]
    exact ⟨P, Ps, rfl, Tree.Safe.mono t ht' hQs.1 ht, Tree.AllSafe.mono ts hts' hQs.2 hts⟩

end

end Stability

section Steps

variable {L : Logic M} {σ σ' : S} {st : List C}

variable {Qs : List (R → S → Prop)} {t t' : Tree S R C Op} {l r : List (Tree S R C Op)}
  {k : R → Code S R C Op} {own st' : List C} {Q : R → S → Prop}

theorem Tree.allSafe_map_leaf (h : Code.AllSafe L cs st Qs σ) :
    Tree.AllSafe L (cs.map .leaf) st Qs σ := by
  induction cs generalizing Qs with
  | nil => exact h
  | cons c cs ih =>
    obtain ⟨P, Ps, rfl, hc, hcs⟩ := h
    exact ⟨P, Ps, rfl, hc, ih hcs⟩

theorem Tree.AllSafe.forall₂ {rs : List R}
    (h : Tree.AllSafe (M := M) L (rs.map fun r => .leaf (.ret r)) st Qs σ) :
    List.Forall₂ (fun P r => P r σ) Qs rs := by
  induction rs generalizing Qs with
  | nil =>
    cases h
    exact .nil
  | cons r rs ih =>
    obtain ⟨P, Ps, rfl, hr, hrs⟩ := h
    exact .cons hr (ih hrs)

theorem Tree.AllSafe.exists_of_mem {ts : List (Tree S R C Op)} (h : Tree.AllSafe L ts st Qs σ)
    (ht : t ∈ ts) : ∃ P ∈ Qs, t.Safe L st [] P σ := by
  induction ts generalizing Qs with
  | nil => cases ht
  | cons t' ts ih =>
    obtain ⟨P, Ps, rfl, hsafe, hts⟩ := h
    cases ht with
    | head => exact ⟨P, mem_cons_self, hsafe⟩
    | tail _ ht =>
      obtain ⟨P', hP', hsafe'⟩ := ih hts ht
      exact ⟨P', mem_cons_of_mem P hP', hsafe'⟩

/-- The tasks other than the one that steps only see interference. -/
theorem Tree.AllSafe.replace (hQs : ∀ P ∈ Qs, ∀ r, L.Stable (P r))
    (hrely : L.Rely (st ++ (Tree.ownedAll l ++ Tree.ownedAll r)) σ σ')
    (h : Tree.AllSafe L (l ++ t :: r) st Qs σ)
    (ht : ∀ P ∈ Qs, t.Safe L st [] P σ → t'.Safe L st [] P σ') :
    Tree.AllSafe L (l ++ t' :: r) st Qs σ' := by
  induction l generalizing Qs with
  | nil =>
    obtain ⟨P, Ps, rfl, hsafe, hsafes⟩ := h
    rw [forall_mem_cons] at hQs ht
    exact ⟨P, Ps, rfl, ht.1 hsafe, Tree.AllSafe.mono r hrely hQs.2 hsafes⟩
  | cons t₀ l ih =>
    obtain ⟨P, Ps, rfl, hsafe, hsafes⟩ := h
    rw [forall_mem_cons] at hQs ht
    have ht₀ : L.Rely (st ++ t₀.owned) σ σ' := hrely.anti fun c => by grind [Tree.ownedAll]
    refine ⟨P, Ps, rfl, Tree.Safe.mono t₀ ht₀ hQs.1 hsafe, ih hQs.2 ?_ hsafes ht.2⟩
    exact hrely.anti fun c => by grind [Tree.ownedAll]

/-- The tree runs every computation once, under a call stack of others, and all of them are
allocated. -/
structure Tree.Owns (L : Logic M) (st : List C) (t : Tree S R C Op) (σ : S) : Prop where
  nodup : (st ++ t.owned).Nodup
  alloc : ∀ c ∈ st ++ t.owned, L.alloc σ c

/-- What a step of a safe tree keeps. -/
structure Tree.Kept (L : Logic M) (own : List C) (σ : S) (t : Tree S R C Op) (σ' : S)
    (t' : Tree S R C Op) : Prop where
  guarantee : L.Guarantee (own ++ t.owned) σ σ'
  inv : L.inv σ'
  nodup : t'.owned.Nodup
  owned : ∀ c ∈ t'.owned, c ∈ t.owned ∨ ¬L.alloc σ c ∧ L.alloc σ' c
  held : ∀ c, L.held σ' c → L.held σ c ∨ c ∈ t'.owned
  released : ∀ c ∈ t.owned, c ∉ t'.owned → ¬L.held σ' c

namespace Tree.Kept

variable {own : List C} {t t' : Tree S R C Op}

/-- A step that changes neither the store nor what the tree owns. -/
theorem same (hinv : L.inv σ) (ht : t.owned = []) (ht' : t'.owned = []) :
    Tree.Kept L own σ t σ t' where
  guarantee := .refl _ _
  inv := hinv
  nodup := by rw [ht']; exact nodup_nil
  owned c hc := by rw [ht'] at hc; cases hc
  held c hc := .inl hc
  released c hc := by rw [ht] at hc; cases hc

theorem owns (h : Tree.Kept L own σ t σ' t') (ho : t.Owns L st σ) : t'.Owns L st σ' where
  nodup := by
    rw [nodup_append]
    refine ⟨(nodup_append.mp ho.nodup).1, h.nodup, fun c hc c' hc' heq => ?_⟩
    subst heq
    have halloc := ho.alloc c (mem_append_left _ hc)
    rcases h.owned c hc' with hold | hnew
    · exact (nodup_append.mp ho.nodup).2.2 c hc c hold rfl
    · exact hnew.1 halloc
  alloc c hc := by
    rcases mem_append.mp hc with hc | hc
    · exact L.alloc_mono h.guarantee.le (ho.alloc c (mem_append_left _ hc))
    · rcases h.owned c hc with hold | hnew
      · exact L.alloc_mono h.guarantee.le (ho.alloc c (mem_append_right _ hold))
      · exact hnew.2

end Tree.Kept

theorem Tree.Owns.disjoint (h : t.Owns L st σ) : t.owned.Disjoint st :=
  fun _ hc hc' => disjoint_of_nodup_append h.nodup hc' hc

theorem Tree.Owns.forced {c : C} {op : Op} (h : (Tree.forced c op t k).Owns L st σ) :
    t.Owns L (c :: st) σ := by
  have hperm : (st ++ (Tree.forced c op t k).owned).Perm (c :: st ++ t.owned) :=
    perm_middle
  exact ⟨hperm.nodup_iff.mp h.nodup, fun c' hc' => h.alloc c' (hperm.mem_iff.mpr hc')⟩

theorem Tree.Owns.thread {k : List R → Code S R C Op} (h : (Tree.par (l ++ t :: r) k).Owns L st σ) :
    t.Owns L st σ := by
  have hsub : (st ++ t.owned).Sublist (st ++ (Tree.par (l ++ t :: r) k).owned) := by
    rw [Tree.owned, Tree.ownedAll_append, Tree.ownedAll]
    exact (List.Sublist.refl st).append ((sublist_append_left _ _).trans
      (sublist_append_right _ _))
  exact ⟨hsub.nodup h.nodup, fun c hc => h.alloc c (hsub.subset hc)⟩

/-- What a part of a tree keeps, the tree keeps that owns the part and the rest. -/
theorem Tree.Kept.frame {u u' : Tree S R C Op} {own' : List C} (rest : List C)
    (hu : u.owned.Perm (t.owned ++ rest)) (hu' : u'.owned.Perm (t'.owned ++ rest))
    (hown : own' ⊆ rest) (ho : u.Owns L st σ) (h : Tree.Kept L own' σ t σ' t') :
    Tree.Kept L own σ u σ' u' := by
  have hmem (c : C) := hu.mem_iff (a := c)
  have hmem' (c : C) := hu'.mem_iff (a := c)
  simp only [mem_append] at hmem hmem'
  obtain ⟨-, hrest, hdisj⟩ :=
    nodup_append'.mp (hu.nodup_iff.mp (nodup_append.mp ho.nodup).2.1)
  refine ⟨h.guarantee.weaken fun c hc => ?_, h.inv, ?_, fun c hc => ?_, fun c hc => ?_, ?_⟩
  · rw [mem_append, hmem]
    exact .inr ((mem_append.mp hc).symm.imp_right (@hown c))
  · refine hu'.nodup_iff.mpr (nodup_append'.mpr ⟨h.nodup, hrest, fun c hc hc' => ?_⟩)
    rcases h.owned c hc with hold | hnew
    · exact hdisj hold hc'
    · exact hnew.1 (ho.alloc c (mem_append_right _ ((hmem c).mpr (.inr hc'))))
  · rw [hmem]
    rcases (hmem' c).mp hc with hc | hc
    · exact (h.owned c hc).imp_left .inl
    · exact .inl (.inr hc)
  · rw [hmem']
    exact (h.held c hc).imp_right .inl
  · intro c hc hc'
    rw [hmem', not_or] at hc'
    exact h.released c (((hmem c).mp hc).resolve_right hc'.2) hc'.1

theorem Tree.owned_par {k : List R → Code S R C Op} :
    (Tree.par (l ++ t :: r) k).owned.Perm (t.owned ++ (Tree.ownedAll l ++ Tree.ownedAll r)) := by
  rw [Tree.owned, Tree.ownedAll_append, Tree.ownedAll]
  exact perm_append_comm_assoc _ _ _

/-- A step of a safe tree keeps the invariant and leaves a safe tree. -/
theorem Tree.Safe.step (hL : L.Sound) (hstep : Step M st σ t σ' t') (hQ : ∀ r, L.Stable (Q r))
    (hinv : L.inv σ) (ho : t.Owns L st σ) (hsafe : t.Safe L st own Q σ) :
    Tree.Kept L own σ t σ' t' ∧ t'.Safe L st own Q σ' := by
  induction hstep generalizing own Q with
  | head hhead =>
    cases hhead with
    | call => exact ⟨.same hinv rfl rfl, hL.called _ _ _ hinv hsafe.1, hsafe.2⟩
    | bindRet => exact ⟨.same hinv rfl rfl, hsafe.2 _ _ (.refl _ _) hinv hsafe.1⟩
    | atomic hf =>
      obtain ⟨σ'', o, hf', hguar, hinv', hk⟩ := hsafe _ (.refl _ _) hinv
      rw [hf] at hf'
      cases hf'
      exact ⟨⟨hguar.weaken (subset_append_left _ _), hinv', nodup_nil,
        fun c hc => absurd hc not_mem_nil, fun c hc => .inl (hk.1 c hc),
        fun c hc => absurd hc not_mem_nil⟩, hk.2⟩
    | force hf =>
      obtain ⟨σ'', o, hf', hguar, hinv', hk⟩ := hsafe _ (.refl _ _) hinv
      rw [hf] at hf'
      cases hf'
      obtain ⟨hfresh, halloc, hheld, hforces, hpre, hkf⟩ := hk
      refine ⟨⟨hguar.weaken (subset_append_left _ _), hinv', nodup_singleton _, ?_, ?_,
        fun c hc => absurd hc not_mem_nil⟩, hforces, hL.forced _ _ _ _ hinv' hpre, hkf⟩
      · intro c hc
        cases mem_singleton.mp hc
        exact .inr ⟨hfresh, halloc⟩
      · intro c hc
        rcases hheld c hc with hold | rfl
        · exact .inl hold
        · exact .inr (mem_singleton_self c)
    | forcedRet =>
      obtain ⟨hreleased, hguar, hinv', hheld, hk⟩ :=
        hsafe.2.2 _ _ (.refl _ _) hinv hsafe.2.1
      refine ⟨⟨hguar.weaken (nil_subset _), hinv', nodup_nil,
        fun c hc => absurd hc not_mem_nil, fun c hc => .inl (hheld c hc), ?_⟩, hk⟩
      intro c hc _ hc'
      cases mem_singleton.mp hc
      exact hreleased (hheld _ hc')
    | wait hivar => exact ⟨.same hinv rfl rfl, hsafe.2 _ _ (.refl _ _) hinv hivar⟩
    | par =>
      obtain ⟨Qs, hQs, hcs, hk⟩ := hsafe
      exact ⟨.same hinv rfl (Tree.ownedAll_map_leaf _), Qs, hQs, Tree.allSafe_map_leaf hcs, hk⟩
    | @parRet rs k =>
      obtain ⟨Qs, hQs, hts, hk⟩ := hsafe
      refine ⟨.same hinv ?_ rfl, hk _ _ (.refl _ _) hinv hts.forall₂⟩
      rw [Tree.owned, ← Tree.ownedAll_map_leaf (rs.map .ret), map_map]
      rfl
  | bind _ ih =>
    obtain ⟨hkept, ht'⟩ := ih (L.post_stable _) hinv { ho with } hsafe.1
    have hrely := hkept.guarantee.rely ho.disjoint
    refine ⟨.frame [] ?_ ?_ (nil_subset _) ho hkept, ht', fun r τ h => hsafe.2 r τ (hrely.trans h)⟩
    · exact .of_eq (append_nil _).symm
    · exact .of_eq (append_nil _).symm
  | @forced st σ σ' c op t t' k _ ih =>
    obtain ⟨hkept, ht'⟩ := ih (L.forcedPost_stable _ _) hinv ho.forced hsafe.2.1
    have hrely : L.Rely st σ σ' := hkept.guarantee.rely ho.disjoint
    refine ⟨.frame [c] ?_ ?_ (Subset.refl _) ho hkept, L.forces_mono hrely.le hsafe.1, ht',
      fun r τ h => hsafe.2.2 r τ (hrely.trans h)⟩
    · exact (perm_append_singleton c _).symm
    · exact (perm_append_singleton c _).symm
  | @parStep st σ σ' l t t' r k _ ih =>
    obtain ⟨Qs, hQs, hts, hk⟩ := hsafe
    obtain ⟨P, hP, hsafet⟩ := hts.exists_of_mem (mem_append_right l mem_cons_self)
    obtain ⟨hkept, -⟩ := ih (hQs P hP) hinv ho.thread hsafet
    -- the others own nothing that the task which steps owns
    have hperm : (st ++ (Tree.par (l ++ t :: r) k).owned).Perm _ :=
      (Tree.owned_par.append_left st).trans (perm_append_comm_assoc _ _ _)
    have hrely := hkept.guarantee.rely (disjoint_of_nodup_append (hperm.nodup_iff.mp ho.nodup))
    have hrely' : L.Rely st σ σ' := hrely.anti (subset_append_left _ _)
    refine ⟨.frame _ Tree.owned_par Tree.owned_par (nil_subset _) ho hkept, Qs, hQs, ?_,
      fun rs τ h => hk rs τ (hrely'.trans h)⟩
    exact hts.replace hQs hrely fun P' hP' hsafe' => (ih (hQs P' hP') hinv ho.thread hsafe').2

theorem Tree.Safe.active {s : Tree S R C Op} (h : Tree.Active st t st' s)
    (hsafe : t.Safe L st own Q σ) : ∃ own' P, s.Safe L st' own' P σ := by
  induction h generalizing own Q with
  | here => exact ⟨own, Q, hsafe⟩
  | bind _ ih => exact ih hsafe.1
  | forced _ ih => exact ih hsafe.2.1
  | par ht _ ih =>
    obtain ⟨Qs, -, hts, -⟩ := hsafe
    obtain ⟨P, -, ht⟩ := hts.exists_of_mem ht
    exact ih ht

/-- No atomic step of a safe tree fails. -/
theorem Tree.Safe.atomic {f : List C → S → Option (S × Outcome R C Op)} {kf : R → Code S R C Op}
    (h : Tree.Active st t st' (.leaf (.atomic f k kf))) (hinv : L.inv σ)
    (hsafe : t.Safe L st own Q σ) : ∃ σ' o, f st' σ = some (σ', o) := by
  obtain ⟨own', P, hleaf⟩ := hsafe.active h
  obtain ⟨σ', o, hf, -⟩ := hleaf σ (.refl _ _) hinv
  exact ⟨σ', o, hf⟩

/-- An operation that returns has established its postcondition. -/
theorem Tree.Safe.post {op : Op} {r : R} (h : Tree.Active st t st' (.bind op (.leaf (.ret r)) k))
    (hsafe : t.Safe L st own Q σ) : L.post op r σ := by
  obtain ⟨own', P, hbind⟩ := hsafe.active h
  exact hbind.1

end Steps

end Dune.Task
