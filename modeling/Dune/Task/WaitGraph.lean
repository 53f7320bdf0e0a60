import Dune.Task.Calculus

/-!
# The graph of waiting computations

A computation waits for those that its task forces and for those that one of its tasks is blocked
on. The paths of this graph are read off the call stacks of a tree: `Tree.frames` are those of the
computations that run, `Tree.blocked` those of the tasks that wait. A step of a tree replaces one
subtree (`Step.replaces`), and it exists unless every task is blocked (`Tree.progress`).
-/

open List

namespace Dune.Task

variable {S R C Op : Type}

namespace Tree

mutual

/-- The call stacks of the computations that run, each with its own frame on top. -/
def frames (st : List C) : Tree S R C Op → List (List C)
  | .leaf _ => []
  | .bind _ t _ => t.frames st
  | .forced c _ t _ => (c :: st) :: t.frames (c :: st)
  | .par ts _ => framesAll st ts

def framesAll (st : List C) : List (Tree S R C Op) → List (List C)
  | [] => []
  | t :: ts => t.frames st ++ framesAll st ts

end

mutual

/-- The call stacks of the tasks that wait, each with the computation that it waits for on top. -/
def blocked (st : List C) : Tree S R C Op → List (List C)
  | .leaf (.wait c _) => [c :: st]
  | .leaf _ => []
  | .bind _ t _ => t.blocked st
  | .forced c _ t _ => t.blocked (c :: st)
  | .par ts _ => blockedAll st ts

def blockedAll (st : List C) : List (Tree S R C Op) → List (List C)
  | [] => []
  | t :: ts => t.blocked st ++ blockedAll st ts

end

/-- The first computation waits for the second one. -/
def Waits (t : Tree S R C Op) (a b : C) : Prop :=
  ∃ st, b :: a :: st ∈ t.frames [] ∨ b :: a :: st ∈ t.blocked []

section

variable {st p : List C} {t : Tree S R C Op} {ts : List (Tree S R C Op)}

theorem framesAll_eq (st : List C) (ts : List (Tree S R C Op)) :
    framesAll st ts = ts.flatMap (frames st) := by
  induction ts with
  | nil => rfl
  | cons t ts ih => rw [framesAll, ih, flatMap_cons]

theorem blockedAll_eq (st : List C) (ts : List (Tree S R C Op)) :
    blockedAll st ts = ts.flatMap (blocked st) := by
  induction ts with
  | nil => rfl
  | cons t ts ih => rw [blockedAll, ih, flatMap_cons]

theorem mem_framesAll (ht : t ∈ ts) (hp : p ∈ t.frames st) : p ∈ framesAll st ts := by
  rw [framesAll_eq]
  exact mem_flatMap.mpr ⟨t, ht, hp⟩

theorem mem_blockedAll (ht : t ∈ ts) (hp : p ∈ t.blocked st) : p ∈ blockedAll st ts := by
  rw [blockedAll_eq]
  exact mem_flatMap.mpr ⟨t, ht, hp⟩

end

mutual

/-- Below the frame of a computation that runs or is waited for there is the call stack of a task.
-/
theorem stack_tail {st p : List C} (t : Tree S R C Op)
    (h : p ∈ t.frames st ∨ p ∈ t.blocked st) :
    ∃ c q, p = c :: q ∧ (q = st ∨ q ∈ t.frames st) := by
  match t with
  | .leaf (.wait c _) => exact ⟨c, st, by simpa [frames, blocked] using h, .inl rfl⟩
  | .bind _ t _ => exact stack_tail t h
  | .forced c _ t _ =>
    rw [frames, mem_cons, or_assoc] at h
    rcases h with rfl | h
    · exact ⟨c, st, rfl, .inl rfl⟩
    · obtain ⟨c', q, rfl, rfl | hq⟩ := stack_tail t h
      · exact ⟨c', _, rfl, .inr mem_cons_self⟩
      · exact ⟨c', q, rfl, .inr (mem_cons_of_mem _ hq)⟩
  | .par ts _ => exact stackAll_tail ts h

theorem stackAll_tail {st p : List C} (ts : List (Tree S R C Op))
    (h : p ∈ framesAll st ts ∨ p ∈ blockedAll st ts) :
    ∃ c q, p = c :: q ∧ (q = st ∨ q ∈ framesAll st ts) := by
  match ts with
  | t :: ts =>
    rw [framesAll, blockedAll, mem_append, mem_append, or_or_or_comm] at h
    rcases h with h | h
    · obtain ⟨c, q, rfl, hq⟩ := stack_tail t h
      exact ⟨c, q, rfl, hq.imp_right (mem_append_left _)⟩
    · obtain ⟨c, q, rfl, hq⟩ := stackAll_tail ts h
      exact ⟨c, q, rfl, hq.imp_right (mem_append_right _)⟩

end

mutual

theorem map_head?_frames (st : List C) (t : Tree S R C Op) :
    (t.frames st).map List.head? = t.owned.map some := by
  match t with
  | .leaf _ => rfl
  | .bind _ t _ => exact map_head?_frames st t
  | .forced c _ t _ => exact congrArg (some c :: ·) (map_head?_frames (c :: st) t)
  | .par ts _ => exact map_head?_framesAll st ts

theorem map_head?_framesAll (st : List C) (ts : List (Tree S R C Op)) :
    (framesAll st ts).map List.head? = (ownedAll ts).map some := by
  match ts with
  | [] => rfl
  | t :: ts =>
    rw [framesAll, ownedAll, map_append, map_append, map_head?_frames,
      map_head?_framesAll]

end

variable {st st' p q : List C} {t s : Tree S R C Op} {c : C}

theorem mem_owned_iff (st : List C) : c ∈ t.owned ↔ ∃ q, c :: q ∈ t.frames st := by
  have hmem : some c ∈ t.owned.map some ↔ c ∈ t.owned :=
    mem_map_of_injective (Option.some_injective C)
  rw [← hmem, ← map_head?_frames st, mem_map]
  constructor
  · rintro ⟨p, hp, hhead⟩
    obtain ⟨q, rfl⟩ := List.head?_eq_some_iff.mp hhead
    exact ⟨q, hp⟩
  · rintro ⟨q, hq⟩
    exact ⟨c :: q, hq, rfl⟩

/-- A computation runs under one call stack. -/
theorem frames_unique (h : t.owned.Nodup) (hp : c :: p ∈ t.frames st)
    (hq : c :: q ∈ t.frames st) : p = q := by
  have hnodup : ((t.frames st).map List.head?).Nodup := by
    rw [map_head?_frames]
    exact h.map (Option.some_injective C)
  exact (List.cons.inj (inj_on_of_nodup_map hnodup hp hq rfl)).2

/-- The lower part of the call stack of a computation is that of one of its callers. -/
theorem frames_suffix (hp : p ∈ t.frames []) (h : c :: q <:+ p) : c :: q ∈ t.frames [] := by
  induction p with
  | nil => exact absurd (suffix_nil.mp h) (cons_ne_nil c q)
  | cons d p ih =>
    rcases suffix_cons_iff.mp h with heq | hsuffix
    · rw [heq]
      exact hp
    · obtain ⟨_, _, heq, rfl | hmem⟩ := stack_tail t (.inl hp) <;> cases heq
      · exact absurd (suffix_nil.mp hsuffix) (cons_ne_nil c q)
      · exact ih hmem hsuffix

/-- The callers of a computation run. -/
theorem mem_owned_of_frames (hp : p ∈ t.frames []) (hc : c ∈ p) : c ∈ t.owned := by
  obtain ⟨l, r, rfl⟩ := append_of_mem hc
  exact (mem_owned_iff []).mpr ⟨r, frames_suffix hp (suffix_append l _)⟩

/-- No computation is a caller of itself. -/
theorem frames_nodup (h : t.owned.Nodup) (hp : p ∈ t.frames []) : p.Nodup := by
  induction p with
  | nil => exact nodup_nil
  | cons c p ih =>
    obtain ⟨_, _, heq, htail⟩ := stack_tail t (.inl hp)
    cases heq
    rw [nodup_cons]
    rcases htail with rfl | hmem
    · exact ⟨not_mem_nil, nodup_nil⟩
    · refine ⟨fun hc => ?_, ih hmem⟩
      obtain ⟨l, r, rfl⟩ := append_of_mem hc
      have hsuffix := frames_suffix hmem (suffix_append l (c :: r))
      have hlength := congrArg List.length (frames_unique h hp hsuffix)
      simp at hlength
      omega

section

variable (h : Active st t st' s)
include h

theorem Active.frames_subset : s.frames st' ⊆ t.frames st := by
  induction h with
  | here => exact fun _ hp => hp
  | bind _ ih => exact ih
  | forced _ ih => exact fun p hp => mem_cons_of_mem _ (ih hp)
  | par ht _ ih => exact fun p hp => mem_framesAll ht (ih hp)

theorem Active.blocked_subset : s.blocked st' ⊆ t.blocked st := by
  induction h with
  | here => exact fun _ hp => hp
  | bind _ ih | forced _ ih => exact ih
  | par ht _ ih => exact fun p hp => mem_blockedAll ht (ih hp)

/-- A task runs under the frame of a computation, or under none. -/
theorem Active.stack : st' = st ∨ st' ∈ t.frames st := by
  induction h with
  | here => exact .inl rfl
  | bind _ ih => exact ih
  | forced _ ih =>
    rcases ih with rfl | hmem
    · exact .inr mem_cons_self
    · exact .inr (mem_cons_of_mem _ hmem)
  | par ht _ ih => exact ih.imp_right (mem_framesAll ht)

end

mutual

theorem exists_active_of_mem_frames {st : List C} (t : Tree S R C Op)
    (h : c :: q ∈ t.frames st) : ∃ op s k, Active st t q (.forced c op s k) := by
  match t with
  | .bind _ t _ =>
    obtain ⟨op, s, k, hactive⟩ := exists_active_of_mem_frames t h
    exact ⟨op, s, k, .bind hactive⟩
  | .forced c' op t k =>
    rcases mem_cons.mp h with heq | h
    · cases heq
      exact ⟨op, t, k, .here⟩
    · obtain ⟨op, s, k, hactive⟩ := exists_active_of_mem_frames t h
      exact ⟨op, s, k, .forced hactive⟩
  | .par ts _ =>
    obtain ⟨t, ht, op, s, k, hactive⟩ := exists_active_of_mem_framesAll ts h
    exact ⟨op, s, k, .par ht hactive⟩

theorem exists_active_of_mem_framesAll {st : List C} (ts : List (Tree S R C Op))
    (h : c :: q ∈ framesAll st ts) : ∃ t ∈ ts, ∃ op s k, Active st t q (.forced c op s k) := by
  match ts with
  | t :: ts =>
    rcases mem_append.mp h with h | h
    · exact ⟨t, mem_cons_self, exists_active_of_mem_frames t h⟩
    · obtain ⟨t', ht', hactive⟩ := exists_active_of_mem_framesAll ts h
      exact ⟨t', mem_cons_of_mem _ ht', hactive⟩

end

end Tree

/-- The call stacks of the second tree are those of the first one, but for those of a subtree. -/
structure Tree.Replaces (st : List C) (t t' : Tree S R C Op) (st' : List C)
    (s s' : Tree S R C Op) : Prop where
  active : Tree.Active st t st' s
  frames : ∃ l r, t.frames st = l ++ (s.frames st' ++ r) ∧ t'.frames st = l ++ (s'.frames st' ++ r)
  blocked : ∃ l r, t.blocked st = l ++ (s.blocked st' ++ r) ∧
    t'.blocked st = l ++ (s'.blocked st' ++ r)

variable {M : Machine S R C Op} {st : List C} {σ σ' : S} {t t' : Tree S R C Op}

theorem Tree.Replaces.self (st : List C) (t t' : Tree S R C Op) : Tree.Replaces st t t' st t t' :=
  ⟨.here, ⟨[], [], by simp, by simp⟩, ⟨[], [], by simp, by simp⟩⟩

/-- A step replaces one of the subtrees. -/
theorem Step.replaces (h : Step M st σ t σ' t') :
    ∃ st' s s', Head M st' σ s σ' s' ∧ Tree.Replaces st t t' st' s s' := by
  induction h with
  | head hhead => exact ⟨_, _, _, hhead, .self _ _ _⟩
  | bind _ ih =>
    obtain ⟨st', s, s', hhead, hactive, hframes, hblocked⟩ := ih
    exact ⟨st', s, s', hhead, .bind hactive, hframes, hblocked⟩
  | @forced st _ _ c _ _ _ _ _ ih =>
    obtain ⟨st', s, s', hhead, hactive, ⟨l, r, ht, ht'⟩, hblocked⟩ := ih
    refine ⟨st', s, s', hhead, .forced hactive, ⟨(c :: st) :: l, r, ?_, ?_⟩, hblocked⟩
    · exact congrArg ((c :: st) :: ·) ht
    · exact congrArg ((c :: st) :: ·) ht'
  | @parStep st _ _ l t t' r _ _ ih =>
    obtain ⟨st', s, s', hhead, hactive, ⟨fl, fr, ht, ht'⟩, ⟨bl, br, hb, hb'⟩⟩ := ih
    refine ⟨st', s, s', hhead, .par (mem_append_right l mem_cons_self) hactive,
      ⟨Tree.framesAll st l ++ fl, fr ++ Tree.framesAll st r, ?_, ?_⟩,
      ⟨Tree.blockedAll st l ++ bl, br ++ Tree.blockedAll st r, ?_, ?_⟩⟩
    · simp [Tree.frames, Tree.framesAll_eq, ht]
    · simp [Tree.frames, Tree.framesAll_eq, ht']
    · simp [Tree.blocked, Tree.blockedAll_eq, hb]
    · simp [Tree.blocked, Tree.blockedAll_eq, hb']

/-- A step of a subtree is one of the tree. -/
theorem Tree.Active.step {st' : List C} {s s' : Tree S R C Op} (h : Tree.Active st t st' s)
    (hstep : Step M st' σ s σ' s') : ∃ t', Step M st σ t σ' t' := by
  induction h with
  | here => exact ⟨s', hstep⟩
  | bind _ ih =>
    obtain ⟨t', ht'⟩ := ih hstep
    exact ⟨_, .bind ht'⟩
  | forced _ ih =>
    obtain ⟨t', ht'⟩ := ih hstep
    exact ⟨_, .forced ht'⟩
  | par ht _ ih =>
    obtain ⟨t', ht'⟩ := ih hstep
    obtain ⟨l, r, rfl⟩ := append_of_mem ht
    exact ⟨_, .parStep ht'⟩

/-- The tree has returned, can make a step or has a task that waits. -/
inductive Tree.Progress (M : Machine S R C Op) (st : List C) (σ : S) (t : Tree S R C Op) : Prop
  | ret (r : R) : t = .leaf (.ret r) → Progress M st σ t
  | step {τ : S} {s : Tree S R C Op} : Step M st σ t τ s → Progress M st σ t
  | blocked {c : C} {q : List C} : c :: q ∈ t.blocked st → M.ivar σ c = none → Progress M st σ t

/-- No atomic step of the tree fails. -/
def Tree.Succeeds (st : List C) (σ : S) (t : Tree S R C Op) : Prop :=
  ∀ st' f k kf, Tree.Active st t st' (.leaf (.atomic f k kf)) → (f st' σ).isSome

mutual

theorem Tree.progress (M : Machine S R C Op) {σ : S} {st : List C} (t : Tree S R C Op)
    (h : t.Succeeds st σ) : Tree.Progress M st σ t := by
  match t with
  | .leaf (.ret r) => exact .ret r rfl
  | .leaf (.call op k) => exact .step (.head .call)
  | .leaf (.par cs k) => exact .step (.head .par)
  | .leaf (.atomic f k kf) =>
    obtain ⟨⟨σ', o⟩, heq⟩ := Option.isSome_iff_exists.mp (h st f k kf .here)
    cases o with
    | done r => exact .step (.head (.atomic heq))
    | force c op => exact .step (.head (.force heq))
  | .leaf (.wait c k) =>
    cases hivar : M.ivar σ c with
    | some r => exact .step (.head (.wait hivar))
    | none => exact .blocked mem_cons_self hivar
  | .bind op t k =>
    cases Tree.progress M t fun st' f k' kf hactive => h st' f k' kf (.bind hactive) with
    | ret r heq =>
      subst heq
      exact .step (.head .bindRet)
    | step hstep => exact .step (.bind hstep)
    | blocked hmem hivar => exact .blocked hmem hivar
  | .forced c op t k =>
    cases Tree.progress M t fun st' f k' kf hactive => h st' f k' kf (.forced hactive) with
    | ret r heq =>
      subst heq
      exact .step (.head .forcedRet)
    | step hstep => exact .step (.forced hstep)
    | blocked hmem hivar => exact .blocked hmem hivar
  | .par ts k =>
    rcases Tree.progressAll M ts fun t ht st' f k' kf hactive => h st' f k' kf (.par ht hactive)
      with ⟨rs, rfl⟩ | ⟨l, t, r, rfl, σ', t', hstep⟩ | ⟨c, q, hmem, hivar⟩
    · exact .step (.head .parRet)
    · exact .step (.parStep hstep)
    · exact .blocked hmem hivar

theorem Tree.progressAll (M : Machine S R C Op) {σ : S} {st : List C} (ts : List (Tree S R C Op))
    (h : ∀ t ∈ ts, t.Succeeds st σ) :
    (∃ rs : List R, ts = rs.map fun r => .leaf (.ret r)) ∨
      (∃ l t r, ts = l ++ t :: r ∧ ∃ σ' t', Step M st σ t σ' t') ∨
      ∃ c q, c :: q ∈ Tree.blockedAll st ts ∧ M.ivar σ c = none := by
  match ts with
  | [] => exact .inl ⟨[], rfl⟩
  | t :: ts =>
    rw [forall_mem_cons] at h
    cases Tree.progress M t h.1 with
    | step hstep => exact .inr (.inl ⟨[], t, ts, rfl, _, _, hstep⟩)
    | blocked hmem hivar => exact .inr (.inr ⟨_, _, mem_append_left _ hmem, hivar⟩)
    | ret r heq =>
      rcases Tree.progressAll M ts h.2 with
        ⟨rs, rfl⟩ | ⟨l, t', r', rfl, hstep⟩ | ⟨c, q, hmem, hivar⟩
      · exact .inl ⟨r :: rs, congrArg (· :: _) heq⟩
      · exact .inr (.inl ⟨t :: l, t', r', rfl, hstep⟩)
      · exact .inr (.inr ⟨c, q, mem_append_right _ hmem, hivar⟩)

end

/-! ## Codes that wait for what they are told to -/

section Shaped

variable (P : (List C → S → Option (S × Outcome R C Op)) → Prop) (blocks : R → Option C)

mutual

/-- The atomic steps of the code satisfy `P`. It waits for a computation exactly after an atomic
step that told it to, which `blocks` says of a result. -/
def Code.Shaped : Option C → Code S R C Op → Prop
  | o, .ret r => o = none ∧ blocks r = none
  | o, .call _ k => o = none ∧ ∀ r, blocks r = none → (k r).Shaped none
  | o, .par cs k => o = none ∧ Code.AllShaped cs ∧ ∀ rs, (k rs).Shaped none
  | o, .atomic f k kf => o = none ∧ P f ∧
      (∀ st σ σ' r, f st σ = some (σ', .done r) → (k r).Shaped (blocks r)) ∧
      ∀ r, blocks r = none → (kf r).Shaped none
  | o, .wait c k => o = some c ∧ ∀ r, blocks r = none → (k r).Shaped none

def Code.AllShaped : List (Code S R C Op) → Prop
  | [] => True
  | c :: cs => c.Shaped none ∧ Code.AllShaped cs

end

mutual

def Tree.Shaped : Tree S R C Op → Prop
  | .leaf code => ∃ o, code.Shaped P blocks o
  | .bind _ t k => t.Shaped ∧ ∀ r, blocks r = none → (k r).Shaped P blocks none
  | .forced _ _ t k => t.Shaped ∧ ∀ r, blocks r = none → (k r).Shaped P blocks none
  | .par ts k => Tree.AllShaped ts ∧ ∀ rs, (k rs).Shaped P blocks none

def Tree.AllShaped : List (Tree S R C Op) → Prop
  | [] => True
  | t :: ts => t.Shaped ∧ Tree.AllShaped ts

end

variable {P blocks}

theorem Code.fail_shaped (h : P fun _ _ => none) :
    (Code.fail : Code S R C Op).Shaped P blocks none :=
  ⟨rfl, h, nofun, fun _ hr => ⟨rfl, hr⟩⟩

variable {cs : List (Code S R C Op)}

theorem Code.allShaped_iff :
    Code.AllShaped P blocks cs ↔ ∀ code ∈ cs, code.Shaped P blocks none := by
  induction cs with
  | nil => exact ⟨fun _ => nofun, fun _ => trivial⟩
  | cons c cs ih => rw [Code.AllShaped, ih, forall_mem_cons]

theorem Tree.allShaped_iff {ts : List (Tree S R C Op)} :
    Tree.AllShaped P blocks ts ↔ ∀ t ∈ ts, t.Shaped P blocks := by
  induction ts with
  | nil => exact ⟨fun _ => nofun, fun _ => trivial⟩
  | cons t ts ih => rw [Tree.AllShaped, ih, forall_mem_cons]

theorem Tree.allShaped_map_leaf (h : Code.AllShaped P blocks cs) :
    Tree.AllShaped P blocks (cs.map .leaf) := by
  induction cs with
  | nil => trivial
  | cons c cs ih => exact ⟨⟨none, h.1⟩, ih h.2⟩

theorem Tree.Shaped.active {st' : List C} {s : Tree S R C Op} (h : Tree.Active st t st' s)
    (ht : t.Shaped P blocks) : s.Shaped P blocks := by
  induction h with
  | here => exact ht
  | bind _ ih | forced _ ih => exact ih ht.1
  | par hmem _ ih => exact ih (Tree.allShaped_iff.mp ht.1 _ hmem)

theorem Tree.Shaped.step (hbody : ∀ op, (M.body op).Shaped P blocks none)
    (hivar : ∀ σ c r, M.ivar σ c = some r → blocks r = none) (h : Step M st σ t σ' t')
    (ht : t.Shaped P blocks) : t'.Shaped P blocks := by
  induction h with
  | head hhead =>
    cases hhead with
    | call =>
      obtain ⟨_, _, hk⟩ := ht
      exact ⟨⟨none, hbody _⟩, hk⟩
    | bindRet | forcedRet =>
      obtain ⟨⟨_, _, hr⟩, hk⟩ := ht
      exact ⟨none, hk _ hr⟩
    | atomic hf =>
      obtain ⟨_, _, _, hk, _⟩ := ht
      exact ⟨_, hk _ _ _ _ hf⟩
    | force _ =>
      obtain ⟨_, _, _, _, hkf⟩ := ht
      exact ⟨⟨none, hbody _⟩, hkf⟩
    | wait hr =>
      obtain ⟨_, _, hk⟩ := ht
      exact ⟨none, hk _ (hivar _ _ _ hr)⟩
    | par =>
      obtain ⟨_, _, hcs, hk⟩ := ht
      exact ⟨Tree.allShaped_map_leaf hcs, hk⟩
    | parRet => exact ⟨none, ht.2 _⟩
  | bind _ ih | forced _ ih => exact ⟨ih ht.1, ht.2⟩
  | parStep _ ih =>
    refine ⟨Tree.allShaped_iff.mpr ?_, ht.2⟩
    have hall := Tree.allShaped_iff.mp ht.1
    rw [forall_mem_append, forall_mem_cons] at hall ⊢
    exact ⟨hall.1, ih hall.2.1, hall.2.2⟩

theorem Tree.blocked_leaf {o : Option C} {code : Code S R C Op} (st : List C)
    (h : code.Shaped P blocks o) : (Tree.leaf code).blocked st = o.toList.map (· :: st) := by
  cases code <;> obtain ⟨rfl, _⟩ := h <;> rfl

theorem Tree.blockedAll_map_leaf (st : List C) (h : Code.AllShaped P blocks cs) :
    Tree.blockedAll st (cs.map .leaf) = [] := by
  induction cs with
  | nil => rfl
  | cons c cs ih => rw [map_cons, Tree.blockedAll, Tree.blocked_leaf st h.1, ih h.2]; rfl

theorem Tree.blockedAll_map_ret (st : List C) (rs : List R) :
    Tree.blockedAll st (rs.map fun r => (.leaf (.ret r) : Tree S R C Op)) = [] := by
  induction rs with
  | nil => rfl
  | cons r rs ih => exact ih

/-- What a step does to the store and to the call stacks. -/
inductive Tree.Changes (M : Machine S R C Op)
    (P : (List C → S → Option (S × Outcome R C Op)) → Prop)
    (blocks : R → Option C) (st : List C) (σ : S) (t : Tree S R C Op) :
    S → Tree S R C Op → Prop
  | silent {u} : u.frames st = t.frames st → u.blocked st = t.blocked st →
      Changes M P blocks st σ t σ u
  | wake {u c q r bl br} : M.ivar σ c = some r → u.frames st = t.frames st →
      t.blocked st = bl ++ (c :: q) :: br → u.blocked st = bl ++ br →
      Changes M P blocks st σ t σ u
  | atomic {τ u st' f k kf r bl br} : P f → f st' σ = some (τ, .done r) →
      Tree.Active st t st' (.leaf (.atomic f k kf)) → u.frames st = t.frames st →
      t.blocked st = bl ++ br →
      u.blocked st = bl ++ ((blocks r).toList.map (· :: st') ++ br) →
      Changes M P blocks st σ t τ u
  | force {τ u st' f k kf c op fl fr} : P f → f st' σ = some (τ, .force c op) →
      Tree.Active st t st' (.leaf (.atomic f k kf)) → t.frames st = fl ++ fr →
      u.frames st = fl ++ (c :: st') :: fr → u.blocked st = t.blocked st →
      Changes M P blocks st σ t τ u
  | fill {u st' c op r k fl fr} : Tree.Active st t st' (.forced c op (.leaf (.ret r)) k) →
      t.frames st = fl ++ (c :: st') :: fr → u.frames st = fl ++ fr →
      u.blocked st = t.blocked st → Changes M P blocks st σ t (M.fill σ c r) u

theorem Step.changes (hbody : ∀ op, (M.body op).Shaped P blocks none)
    (hivar : ∀ σ c r, M.ivar σ c = some r → blocks r = none) (h : Step M st σ t σ' t')
    (ht : t.Shaped P blocks) : Tree.Changes M P blocks st σ t σ' t' := by
  obtain ⟨st', s, s', hhead, hactive, ⟨fl, fr, hf, hf'⟩, ⟨bl, br, hb, hb'⟩⟩ := h.replaces
  have hs := ht.active hactive
  have hsame {new : List (List C)} (hnew : s'.blocked st' = new) (hold : s.blocked st' = new) :
      t'.blocked st = t.blocked st := by
    rw [hb', hb, hnew, hold]
  have hsameFrames {new : List (List C)} (hnew : s'.frames st' = new)
      (hold : s.frames st' = new) : t'.frames st = t.frames st := by
    rw [hf', hf, hnew, hold]
  cases hhead with
  | call => exact .silent (hf'.trans hf.symm) (hsame (Tree.blocked_leaf st' (hbody _)) rfl)
  | bindRet =>
    obtain ⟨⟨_, _, hr⟩, hk⟩ := hs
    exact .silent (hf'.trans hf.symm) (hsame (Tree.blocked_leaf st' (hk _ hr)) rfl)
  | atomic heq =>
    obtain ⟨_, _, hP, hk, _⟩ := hs
    have hb₀ : t.blocked st = bl ++ br := hb
    refine .atomic hP heq hactive (hf'.trans hf.symm) hb₀ ?_
    rw [hb', Tree.blocked_leaf st' (hk _ _ _ _ heq)]
  | force heq =>
    obtain ⟨_, _, hP, _, _⟩ := hs
    have hf₀ : t.frames st = fl ++ fr := hf
    exact .force hP heq hactive hf₀ hf' (hsame (Tree.blocked_leaf _ (hbody _)) rfl)
  | forcedRet =>
    obtain ⟨⟨_, _, hr⟩, hk⟩ := hs
    exact .fill hactive hf hf' (hsame (Tree.blocked_leaf st' (hk _ hr)) rfl)
  | wait hr =>
    obtain ⟨_, _, hk⟩ := hs
    refine .wake hr (hf'.trans hf.symm) hb ?_
    rw [hb', Tree.blocked_leaf st' (hk _ (hivar _ _ _ hr))]
    rfl
  | par =>
    obtain ⟨_, _, hcs, hk⟩ := hs
    exact .silent (hsameFrames (by simp [Tree.framesAll_eq, Tree.frames]) rfl)
      (hsame (Tree.blockedAll_map_leaf st' hcs) rfl)
  | @parRet rs k =>
    exact .silent (hsameFrames rfl (by simp [Tree.framesAll_eq, Tree.frames]))
      (hsame (Tree.blocked_leaf st' (hs.2 rs)) (Tree.blockedAll_map_ret st' rs))

end Shaped

end Dune.Task
