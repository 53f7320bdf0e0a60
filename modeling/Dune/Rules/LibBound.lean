import Dune.Rules.LibClosure

/-!
# The traversals end

A traversal marks the library that it enters, so the libraries on its path are different and its
depth is bounded by their number. Every round of the loop that adds default implementations visits
a library that was not visited before. So no bound is reached, and the errors of the traversals are
those of the libraries themselves (`LibError.Ordinary`).
-/

namespace Dune.Rules

open List Dune.Stdune Dune.Graph

/-! ## How a computation ends -/

section Ends

variable {ε α β σ : Type}

/-- The result satisfies `Q`, or the error satisfies `E`. -/
def Ends (Q : α → Prop) (E : ε → Prop) : Except ε α → Prop
  | .ok a => Q a
  | .error e => E e

variable {Q : α → Prop} {E : ε → Prop}

variable {x : Except ε α}

theorem Ends.bind {Q' : β → Prop} {f : α → Except ε β} (h : Ends Q E x)
    (hf : ∀ a, Q a → Ends Q' E (f a)) : Ends Q' E (x >>= f) := by
  cases x with
  | ok a => exact hf a h
  | error e => exact h

theorem Ends.mono {Q' : α → Prop} (h : Ends Q E x) (hQ : ∀ a, Q a → Q' a) : Ends Q' E x := by
  cases x with
  | ok a => exact hQ a h
  | error e => exact h

theorem Ends.imp_error {E' : ε → Prop} (h : Ends Q E x) (hE : ∀ e, E e → E' e) : Ends Q E' x := by
  cases x with
  | ok a => exact h
  | error e => exact hE e h

theorem Ends.foldlM {I : σ → Prop} {f : σ → α → Except ε σ} {l : List α}
    (hf : ∀ s, I s → ∀ x ∈ l, Ends I E (f s x)) {s : σ} (hs : I s) : Ends I E (l.foldlM f s) := by
  induction l generalizing s with
  | nil => exact hs
  | cons x l ih =>
    rw [foldlM_cons]
    refine (hf s hs x mem_cons_self).bind fun s' hs' => ih (fun s hs x hx => ?_) hs'
    exact hf s hs x (mem_cons_of_mem _ hx)

theorem Ends.error_of (h : Ends Q E x) {e : ε} (he : x = .error e) : E e := by
  rw [he] at h
  exact h

theorem Ends.eq_ok (h : Ends Q E x) : Ends (fun a => x = .ok a) E x := by
  cases x with
  | ok a => rfl
  | error e => exact h

end Ends

/-- An error of a library, neither of the bound nor of the tables of implementations. -/
def LibError.Ordinary {L : Type} : LibError L → Prop
  | .assertFailure | .doubleImplementation _ _ _ | .noImplementation _ | .outOfBound => False
  | _ => True

namespace LibData

variable {L : Type} [LinearOrder L] {libs : LibData L}

omit [LinearOrder L] in
theorem get_ends {α : Type} (lib : L) (x : Option α) :
    Ends (fun a => x = some a) LibError.Ordinary (get lib x) := by
  cases x with
  | none => trivial
  | some a => rfl

section Unvisited

variable [Fintype L]

omit [Fintype L] in
local instance lawfulBEq_lib : LawfulBEq L := inferInstance

/-- The number of libraries that are not in the list. -/
def unvisited (visited : List L) : Nat := (Finset.univ.filter (· ∉ visited)).card

theorem unvisited_lt_depth (visited : List L) : unvisited visited < depth L :=
  Nat.lt_succ_of_le (Finset.card_filter_le _ _)

variable {visited : List L}

theorem unvisited_mono {visited' : List L} (h : visited ⊆ visited') :
    unvisited visited' ≤ unvisited visited := by
  refine Finset.card_le_card fun x hx => ?_
  simp only [Finset.mem_filter, Finset.mem_univ, true_and] at hx ⊢
  exact fun hmem => hx (h hmem)

theorem unvisited_lt {visited' : List L} (h : visited ⊆ visited') {lib : L} (hlib : lib ∉ visited)
    (hlib' : lib ∈ visited') : unvisited visited' < unvisited visited := by
  refine Finset.card_lt_card ⟨fun x hx => ?_, fun hsub => ?_⟩
  · simp only [Finset.mem_filter, Finset.mem_univ, true_and] at hx ⊢
    exact fun hmem => hx (h hmem)
  · have := hsub (Finset.mem_filter.mpr ⟨Finset.mem_univ lib, hlib⟩)
    exact (Finset.mem_filter.mp this).2 hlib'

theorem unvisited_insertKey_lt {lib : L} (h : lib ∉ visited) :
    unvisited (Map.insertKey lib visited) < unvisited visited :=
  unvisited_lt (fun _ hx => Map.mem_insertKey.mpr (.inr hx)) h (Map.mem_insertKey.mpr (.inl rfl))

end Unvisited

/-- The computation has a result, or it ends with the error of a library. -/
abbrev Terminates {L α : Type} (x : Except (LibError L) α) : Prop :=
  Ends (fun _ => True) LibError.Ordinary x

theorem checkOverlap_ends (t : Closure L) (lib : L) : Terminates (checkOverlap t lib) := by
  unfold checkOverlap
  split
  · trivial
  · split
    · trivial
    · split <;> trivial
    · trivial

theorem push_ends (stack : List L) (lib : L) : Terminates (push stack lib) := by
  unfold push
  split <;> trivial

variable [Fintype L] {bound : Nat}

theorem foldlM_ends {α σ : Type} {f : σ → α → Except (LibError L) σ} (visited : σ → List L)
    {l : List α} {s : σ} (h : unvisited (visited s) < bound)
    (hf : ∀ s x, unvisited (visited s) < bound →
      Ends (fun s' => visited s ⊆ visited s') LibError.Ordinary (f s x)) :
    Ends (fun s' => visited s ⊆ visited s') LibError.Ordinary (l.foldlM f s) := by
  refine Ends.foldlM (I := fun s' => visited s ⊆ visited s') (fun s' hs x _ => ?_) fun _ hx => hx
  have hle := unvisited_mono hs
  exact (hf s' x (by omega)).mono fun s'' hs' => List.Subset.trans hs hs'

theorem secondStepLoop_ends {impls : List (L × L)} {res visited : List L} (t : L)
    (h : unvisited visited < bound) :
    Ends (fun s => visited ⊆ s.2) LibError.Ordinary
      (libs.secondStepLoop impls bound (res, visited) t) := by
  induction bound generalizing res visited t with
  | zero => omega
  | succ bound ih =>
    simp only [secondStepLoop]
    split
    · exact fun _ hx => hx
    · next hmem =>
      have hlt := unvisited_insertKey_lt hmem
      refine (get_ends _ _).bind fun deps _ => ?_
      have hbound := hlt.trans_le (Nat.le_of_lt_succ h)
      refine (foldlM_ends Prod.snd hbound fun s x => ih x).bind fun s hs => ?_
      exact fun _ hx => hs (Map.mem_insertKey.mpr (.inr hx))

theorem secondStepClosure_ends (ts : List L) (impls : List (L × L)) :
    Terminates (libs.secondStepClosure ts impls) :=
  (foldlM_ends Prod.snd (unvisited_lt_depth _) fun _ x => secondStepLoop_ends x).bind
    fun _ _ => trivial

/-! ## The search for defaults -/

/-- The libraries that the search for defaults has met. -/
def DefaultState.met (s : DefaultState L) : List L := s.visited.map Prod.fst

omit [Fintype L] in
theorem DefaultState.met_set (s : DefaultState L) (lib : L) (mark : Mark) :
    lib ∈ DefaultState.met { s with visited := Map.set lib mark s.visited } ∧
      s.met ⊆ DefaultState.met { s with visited := Map.set lib mark s.visited } := by
  refine ⟨?_, fun x hx => ?_⟩
  · rw [met, ← Map.find_isSome, Map.find_set, if_pos rfl]
    rfl
  · rw [met, ← Map.find_isSome] at hx ⊢
    rw [Map.find_set]
    split
    · rfl
    · exact hx

omit [LinearOrder L] [Fintype L] in
theorem implFor_ends (vlib : L) : Terminates (libs.implFor vlib) := by
  unfold implFor
  split
  · trivial
  · next d _ => cases d <;> trivial

omit [Fintype L] in
theorem implDifferentFromVlibDefault_ends (vlib impl : L) :
    Terminates (libs.implDifferentFromVlibDefault vlib impl) := by
  refine (implFor_ends vlib).bind fun impl' _ => ?_
  cases impl' <;> trivial

theorem visit_ends {stack : List L} {ancestor : Option L} {s : DefaultState L} (lib : L)
    (h : unvisited s.met < bound) :
    Ends (fun s' => s.met ⊆ s'.met) LibError.Ordinary
      (libs.visit bound stack ancestor s lib) := by
  induction bound generalizing stack ancestor s lib with
  | zero => omega
  | succ bound ih =>
    simp only [visit]
    split
    · exact fun _ hx => hx
    · trivial
    · next hfind =>
      have hmet : lib ∉ s.met := by
        rw [DefaultState.met, ← Map.find_eq_none]
        exact hfind
      obtain ⟨hlib, hsub⟩ := s.met_set lib .visiting
      generalize DefaultState.mk s.vlibDefaultParent (Map.set lib Mark.visiting s.visited) = s₀
        at hlib hsub ⊢
      have hlt := unvisited_lt hsub hmet hlib
      -- A state in which at least `lib` has been met since.
      have hvisit {stack : List L} {ancestor : Option L} {s' : DefaultState L} (lib' : L)
          (hs' : s₀.met ⊆ s'.met) :
          Ends (fun s'' => s₀.met ⊆ s''.met) LibError.Ordinary
            (libs.visit bound stack ancestor s' lib') := by
        have hle := unvisited_mono hs'
        exact (ih lib' (by omega)).mono fun s'' hs'' => List.Subset.trans hs' hs''
      refine (get_ends _ _).bind fun deps _ => ?_
      refine (foldlM_ends DefaultState.met (by omega) fun s x => ih x).bind fun s₁ hs₁ => ?_
      refine Ends.bind (Q := fun s' : DefaultState L => s₀.met ⊆ s'.met) ?_ fun s₂ hs₂ => ?_
      · split
        · exact hs₁
        · refine (implDifferentFromVlibDefault_ends _ _).bind fun differs _ => ?_
          split
          · exact hvisit _ hs₁
          · exact hvisit _ hs₁
          · exact hs₁
      refine Ends.bind (Q := fun s' : DefaultState L => s₀.met ⊆ s'.met) ?_ fun s₃ hs₃ => ?_
      · split
        · exact hs₂
        all_goals
          refine (implFor_ends _).bind fun impl _ => ?_
          split
          · exact hs₂
          · exact hvisit _ hs₂
      · exact List.Subset.trans (List.Subset.trans hsub hs₃) (s₃.met_set lib .visited).2

theorem resolveDefaultLibraries_ends (libraries : List L) :
    Terminates (libs.resolveDefaultLibraries libraries) :=
  (foldlM_ends DefaultState.met (unvisited_lt_depth _) fun _ x => visit_ends x).bind
    fun _ _ => trivial

end LibData

namespace Libs

open LibData

variable {L : Type} [LinearOrder L] [Fintype L] {libs : Libs L} {t : Closure L}

theorem add_ends (un : Unimplemented L) (lib : L) : Terminates (un.add libs.toLibData lib) := by
  unfold Unimplemented.add
  split
  · next himpl hkind =>
    rw [libs.not_virtual himpl] at hkind
    cases hkind
  all_goals trivial

variable {bound : Nat} {state state' : ClosureState L}

theorem closureVisit_ends {stack : List L} (lib : L) (h : unvisited state.visited < bound) :
    Ends (fun state' => state.visited ⊆ state'.visited) LibError.Ordinary
      (libs.closureVisit t bound stack state lib) := by
  induction bound generalizing stack state lib with
  | zero => omega
  | succ bound ih =>
    simp only [closureVisit]
    split
    · exact fun _ hx => hx
    · next hmem =>
      have hlt := unvisited_insertKey_lt hmem
      split
      · trivial
      · refine (checkOverlap_ends t lib).bind fun _ _ => ?_
        refine (push_ends stack lib).bind fun newStack _ => ?_
        refine (get_ends _ _).bind fun deps _ => ?_
        refine (add_ends _ lib).bind fun un _ => ?_
        have hbound := hlt.trans_le (Nat.le_of_lt_succ h)
        refine (foldlM_ends ClosureState.visited hbound fun s x => ih x).bind fun state' hs => ?_
        exact fun _ hx => hs (Map.mem_insertKey.mpr (.inr hx))

theorem step1Closure_ends (ts : List L) : Terminates (libs.step1Closure t ts) :=
  (foldlM_ends ClosureState.visited (unvisited_lt_depth _) fun _ x => closureVisit_ends x).mono
    fun _ _ => trivial

theorem fill_ends (state : ClosureState L) (ds : List (L × L)) :
    Terminates (libs.fill t state ds) := by
  refine (foldlM_ends ClosureState.visited (unvisited_lt_depth _) fun s x => ?_).mono
    fun _ _ => trivial
  exact closureVisit_ends x.2

/-! ## Rounds -/

theorem mem_withDefaultImplementations {un : Unimplemented L} {v : L} :
    v ∈ un.withDefaultImplementations libs.toLibData ↔
      v ∈ un.unimplemented ∧ (libs.defaultImplementation v).isSome := by
  suffices ∀ acc : List L,
      v ∈ un.unimplemented.foldl (fun acc lib =>
        if (libs.defaultImplementation lib).isSome then lib :: acc else acc) acc ↔
      v ∈ acc ∨ v ∈ un.unimplemented ∧ (libs.defaultImplementation v).isSome by
    rw [Unimplemented.withDefaultImplementations, this, or_iff_right not_mem_nil]
  induction un.unimplemented with
  | nil => simp
  | cons lib l ih =>
    intro acc
    rw [foldl_cons, ih]
    split
    · grind
    · grind

/-- A default is added for an unimplemented virtual library. -/
theorem of_mem_defaults {ds : List (L × L)} (h : libs.defaults state = .ok ds) {v d : L}
    (hmem : (v, d) ∈ ds) :
    v ∈ state.unimplemented.unimplemented ∧ libs.defaultImplementation v = some (some d) := by
  obtain ⟨status, -, hret⟩ := bind_ok h
  rw [← Except.ok.inj hret] at hmem
  obtain ⟨v', hv', heq⟩ := mem_filterMap.mp hmem
  have hdefault : v' = v ∧ libs.defaultImplementation v' = some (some d) := by
    unfold libraryIsDefault at heq
    split at heq
    · cases heq
    all_goals
      split at heq
      · cases heq
      · cases heq
      · next hd =>
        cases heq
        exact ⟨rfl, hd⟩
  obtain ⟨rfl, hd⟩ := hdefault
  exact ⟨(mem_withDefaultImplementations.mp hv').1, hd⟩

theorem fill_runs {ds : List (L × L)} (h : libs.fill t state ds = .ok state') :
    libs.Runs state (ds.map Prod.snd) state' := by
  unfold fill at h
  rw [← foldlM_map] at h
  exact runs_of_fold closureVisit_runs h

theorem implsViaDefaults_ends (htracks : Tracks libs.toLibData state)
    (h : unvisited state.visited < bound) :
    Terminates (libs.implsViaDefaults t bound state) := by
  induction bound generalizing state with
  | zero => omega
  | succ bound ih =>
    unfold implsViaDefaults
    cases hds : libs.defaults state with
    | error e =>
      have hends : Terminates (libs.defaults state) := resolveDefaultLibraries_ends _
      exact hends.error_of hds
    | ok ds =>
      cases ds with
      | nil => trivial
      | cons b ds =>
        obtain ⟨v, d⟩ := b
        refine (fill_ends state ((v, d) :: ds)).eq_ok.bind fun state' hstate' => ?_
        have hruns := fill_runs hstate'
        obtain ⟨new, hext⟩ := hruns.visits.extension
        have hsub : state.visited ⊆ state'.visited := fun x hx => (hext.mem_marked x).mpr (.inr hx)
        have hd : d ∈ state'.visited := hext.todo_marked d (by simp)
        obtain ⟨hv, hdefault⟩ := of_mem_defaults hds mem_cons_self
        have hnew : d ∉ state.visited := fun hmem =>
          ((htracks.unimplemented v).mp hv).2.2 d hmem (libs.default_implements hdefault)
        have hlt := unvisited_lt hsub hnew hd
        exact ih (tracks_runs hruns htracks) (by omega)

/-- The rounds of `impls_via_defaults`, with the virtual libraries and the defaults that are added
for them. -/
inductive Fills (libs : Libs L) (t : Closure L) :
    ClosureState L → List (L × L) → ClosureState L → Prop
  | stop {state : ClosureState L} : libs.defaults state = .ok [] → Fills libs t state [] state
  | round {state state₁ state' : ClosureState L} {d : L × L} {ds added : List (L × L)} :
      libs.defaults state = .ok (d :: ds) → libs.fill t state (d :: ds) = .ok state₁ →
      Fills libs t state₁ added state' → Fills libs t state (d :: ds ++ added) state'

theorem implsViaDefaults_fills (h : libs.implsViaDefaults t bound state = .ok state') :
    ∃ added, Fills libs t state added state' := by
  induction bound generalizing state with
  | zero => cases h
  | succ bound ih =>
    unfold implsViaDefaults at h
    obtain ⟨ds, hds, h⟩ := bind_ok h
    cases ds with
    | nil =>
      obtain rfl := Except.ok.inj h
      exact ⟨[], .stop hds⟩
    | cons d ds =>
      obtain ⟨state₁, hfill, h⟩ := bind_ok h
      obtain ⟨added, hadded⟩ := ih h
      exact ⟨_, .round hds hfill hadded⟩

theorem Fills.runs {added : List (L × L)} (h : Fills libs t state added state') :
    libs.Runs state (added.map Prod.snd) state' := by
  induction h with
  | stop _ => exact .done
  | round _ hfill _ ih =>
    rw [map_append]
    exact (fill_runs hfill).append ih

/-- The state in which the libraries are linked: the first closure and the rounds. -/
def linkState (libs : Libs L) (t : Closure L) (ts : List L) :
    Except (LibError L) (ClosureState L) := do
  let state ← libs.step1Closure t ts
  libs.implsViaDefaults t (depth L) state

theorem step1Closure_runs {ts : List L} (h : libs.step1Closure t ts = .ok state) :
    libs.Runs .empty ts state :=
  runs_of_fold closureVisit_runs h

theorem linkState_ends (ts : List L) : Terminates (libs.linkState t ts) := by
  refine (step1Closure_ends ts).eq_ok.bind fun state hstate => ?_
  exact implsViaDefaults_ends (tracks_runs (step1Closure_runs hstate) .empty)
    (unvisited_lt_depth state.visited)

end Libs

end Dune.Rules
