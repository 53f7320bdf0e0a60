import Dune.Rules.LibLink

/-!
# Default implementations

The rounds in which default implementations are added. The search of `resolve_default_libraries`
is there to leave out a virtual library that the default of another one implements. It records the
implementation that it meets, and what is looked up is the virtual library, so nothing is ever left
out (`find_vlibDefaultParent`): a round adds the defaults of all virtual libraries that have no
implementation yet (`mem_defaults`). The closure is then the limit of `rounds`, and a default stands
alone in it only if no other implementation of its virtual library comes in with the other defaults.
The order of what is linked is a link order when the graph of the limit, with implementations for
virtual libraries, has no cycles.
-/

namespace Dune.Rules

open List Dune.Stdune Dune.Graph
open Relation (ReflTransGen TransGen)

namespace LibData

variable {L : Type} (libs : LibData L)

/-! ## Rounds of sets -/

/-- The libraries in reach of a set. -/
def closureOf (s : Set L) : Set L :=
  {x | ∃ r ∈ s, ReflTransGen (fun x y => y ∈ libs.next x) r x}

/-- A virtual library of the set that has a default, and no implementation in the set. -/
def Defaulted (s : Set L) (v d : L) : Prop :=
  v ∈ s ∧ libs.kind v = .virtual ∧ libs.defaultImplementation v = some (some d) ∧
    ∀ x ∈ s, libs.implements x ≠ some v

/-- The closure of the roots, and of the defaults that each round adds. -/
def rounds (ts : List L) : Nat → Set L
  | 0 => libs.closureOf {x | x ∈ ts}
  | k + 1 => rounds ts k ∪ libs.closureOf {d | ∃ v, libs.Defaulted (rounds ts k) v d}

/-- No virtual library for which a round adds the default gets another implementation, in this round
or in another one. -/
def DefaultsAlone (ts : List L) : Prop :=
  ∀ k v d, libs.Defaulted (libs.rounds ts k) v d →
    ∀ n, ∀ x ∈ libs.rounds ts n, libs.implements x = some v → x = d

variable {libs}

theorem rounds_mono {ts : List L} {k n : Nat} (h : k ≤ n) :
    libs.rounds ts k ⊆ libs.rounds ts n := by
  induction h with
  | refl => exact fun _ hx => hx
  | step _ ih => exact fun x hx => .inl (ih hx)

/-- The rounds stop when one of them adds nothing. -/
theorem rounds_eq {ts : List L} {k n : Nat} (h : ∀ v d, ¬ libs.Defaulted (libs.rounds ts k) v d)
    (hn : k ≤ n) : libs.rounds ts n = libs.rounds ts k := by
  induction hn with
  | refl => rfl
  | step _ ih =>
    rw [rounds, ih]
    refine Set.union_eq_left.mpr ?_
    rintro x ⟨d, ⟨v, hv⟩, -⟩
    exact absurd hv (h v d)

theorem closureOf_subset {s s' : Set L} (hclosed : ∀ x, x ∈ s → ∀ y ∈ libs.next x, y ∈ s)
    (h : s' ⊆ s) : libs.closureOf s' ⊆ s := by
  rintro x ⟨r, hr, hpath⟩
  induction hpath with
  | refl => exact h hr
  | tail _ hedge ih => exact hclosed _ ih _ hedge

variable [LinearOrder L]

/-- What has been visited is closed under requirements. -/
def Closed (libs : LibData L) (state : ClosureState L) : Prop :=
  ∀ x ∈ state.visited, ∀ y ∈ libs.next x, y ∈ state.visited

/-- A traversal visits what is in reach of its libraries. -/
theorem Runs.visited {state state' : ClosureState L} {todo : List L}
    (h : libs.Runs state todo state') (hclosed : Closed libs state) :
    Closed libs state' ∧
      ∀ x, x ∈ state'.visited ↔ x ∈ state.visited ∨ x ∈ libs.closureOf {x | x ∈ todo} := by
  obtain ⟨new, hext⟩ := h.visits.extension
  have hclosed' : Closed libs state' := by
    intro x hx y hy
    obtain hx | hx := (hext.mem_marked x).mp hx
    · exact hext.closed x hx y hy
    · exact (hext.mem_marked y).mpr (.inr (hclosed x hx y hy))
  refine ⟨hclosed', fun x => ⟨fun hx => ?_, ?_⟩⟩
  · obtain hx | hx := (hext.mem_marked x).mp hx
    · obtain ⟨r, hr, hpath⟩ := hext.reach x hx
      exact .inr ⟨r, hr, ReflTransGen.mono (fun _ _ hedge => hedge.1) _ _ hpath⟩
    · exact .inl hx
  · rintro (hx | ⟨r, hr, hpath⟩)
    · exact (hext.mem_marked x).mpr (.inr hx)
    · exact closureOf_subset hclosed' (fun x hx => hext.todo_marked x hx) ⟨r, hr, hpath⟩

/-! ## The search leaves out nothing -/

/-- The keys of the map are implementations. -/
def ImplementationKeys (libs : LibData L) (s : DefaultState L) : Prop :=
  ∀ v, libs.implements v = none → Map.find s.vlibDefaultParent v = none

theorem ImplementationKeys.multiCons {s : DefaultState L} (h : ImplementationKeys libs s)
    {lib vlib ancestor : L} (hlib : libs.implements lib = some vlib) :
    ImplementationKeys libs
      { s with vlibDefaultParent := LibData.multiCons s.vlibDefaultParent lib ancestor } := by
  intro v hv
  rw [LibData.multiCons, Map.find_set, if_neg]
  · exact h v hv
  · rintro rfl
    rw [hlib] at hv
    cases hv

theorem visit_implementationKeys {bound : Nat} {stack : List L} {ancestor : Option L}
    {s : DefaultState L} (lib : L) (h : ImplementationKeys libs s) :
    Ends (ImplementationKeys libs) (fun _ => True) (libs.visit bound stack ancestor s lib) := by
  have htrue {α : Type} (x : Except (LibError L) α) : Ends (fun _ => True) (fun _ => True) x := by
    cases x <;> trivial
  induction bound generalizing stack ancestor s lib with
  | zero => trivial
  | succ bound ih =>
    simp only [visit]
    split
    · exact h
    · trivial
    · refine (htrue (get lib (libs.requires lib))).bind fun deps _ => ?_
      refine Ends.bind (Ends.foldlM (I := ImplementationKeys libs) (fun s hs x _ => ih x hs) h)
        fun s₁ hs₁ => ?_
      refine Ends.bind (Q := ImplementationKeys libs) ?_ fun s₂ hs₂ => ?_
      · split
        · exact hs₁
        · next vlib hvlib =>
          refine (htrue _).bind fun differs _ => ?_
          split
          · exact ih _ hs₁
          · exact ih _ (hs₁.multiCons hvlib)
          · exact hs₁
      refine Ends.bind (Q := ImplementationKeys libs) ?_ fun s₃ hs₃ => hs₃
      split
      · exact hs₂
      all_goals
        refine (htrue _).bind fun impl _ => ?_
        split
        · exact hs₂
        · exact ih _ hs₂

end LibData

namespace Libs

open LibData

variable {L : Type} [LinearOrder L] [Fintype L] {libs : Libs L} {t : Closure L}

variable {v : L} {state : ClosureState L} {added : List (L × L)} {ts : List L}

theorem implements_eq_none (h : libs.kind v = .virtual) : libs.implements v = none := by
  cases himpl : libs.implements v with
  | none => rfl
  | some vlib =>
    rw [libs.not_virtual himpl] at h
    cases h

/-- The default of a virtual library is added whatever the search has met. -/
theorem libraryIsDefault_eq {libraries : List L} {status : DefaultState L}
    (h : libraries.foldlM (libs.visit (depth L) [] none) ⟨[], []⟩ = .ok status) {d : L}
    (hkind : libs.kind v = .virtual) (hd : libs.defaultImplementation v = some (some d)) :
    libs.libraryIsDefault status.vlibDefaultParent v = some (v, d) := by
  have hkeys : ImplementationKeys libs.toLibData status := by
    have hend : Ends (ImplementationKeys libs.toLibData) (fun _ => True)
        (libraries.foldlM (libs.visit (depth L) [] none) ⟨[], []⟩) :=
      Ends.foldlM (fun s hs x _ => visit_implementationKeys x hs) fun _ _ => rfl
    rwa [h] at hend
  rw [libraryIsDefault, hkeys v (implements_eq_none hkind)]
  simp only [hd]

/-- A round adds the defaults of all virtual libraries that have no implementation. -/
theorem mem_defaults {ds : List (L × L)} {s : Set L} (h : libs.defaults state = .ok ds)
    (htracks : Tracks libs.toLibData state) (hvisited : ∀ x, x ∈ state.visited ↔ x ∈ s) (v d : L) :
    (v, d) ∈ ds ↔ libs.Defaulted s v d := by
  have hun : v ∈ state.unimplemented.unimplemented ↔
      v ∈ s ∧ libs.kind v = .virtual ∧ ∀ x ∈ s, libs.implements x ≠ some v := by
    rw [htracks.unimplemented, hvisited]
    simp only [hvisited]
  constructor
  · intro hmem
    obtain ⟨hv, hd⟩ := of_mem_defaults h hmem
    obtain ⟨hmem, hkind, hnone⟩ := hun.mp hv
    exact ⟨hmem, hkind, hd, hnone⟩
  · rintro ⟨hmem, hkind, hd, hnone⟩
    obtain ⟨status, hfold, hret⟩ := bind_ok h
    rw [← Except.ok.inj hret]
    refine mem_filterMap.mpr ⟨v, ?_, libraryIsDefault_eq hfold hkind hd⟩
    exact mem_withDefaultImplementations.mpr ⟨hun.mpr ⟨hmem, hkind, hnone⟩, by rw [hd]; rfl⟩

/-! ## The loop -/

/-- The loop from a round on: it visits the limit of the rounds, and adds what they add. -/
structure Limit (libs : Libs L) (ts : List L) (k : Nat) (added : List (L × L))
    (state : ClosureState L) : Prop where
  visited (x : L) : x ∈ state.visited ↔ ∃ n, x ∈ libs.rounds ts n
  added (v d : L) : (v, d) ∈ added ↔ ∃ n ≥ k, libs.Defaulted (libs.rounds ts n) v d

theorem Fills.limit {state' : ClosureState L} {k : Nat} (h : Fills libs t state added state')
    (htracks : Tracks libs.toLibData state) (hclosed : Closed libs.toLibData state)
    (hvisited : ∀ x, x ∈ state.visited ↔ x ∈ libs.rounds ts k) : Limit libs ts k added state' := by
  induction h generalizing k with
  | stop hds =>
    have hnone (v d : L) : ¬ libs.Defaulted (libs.rounds ts k) v d := fun hv =>
      not_mem_nil ((mem_defaults hds htracks hvisited v d).mpr hv)
    refine ⟨fun x => ?_, fun v d => ⟨fun hmem => absurd hmem not_mem_nil, ?_⟩⟩
    · rw [hvisited]
      refine ⟨fun hx => ⟨k, hx⟩, fun ⟨n, hx⟩ => ?_⟩
      rw [← rounds_eq hnone (Nat.le_max_right n k)]
      exact rounds_mono (Nat.le_max_left n k) hx
    · rintro ⟨n, hn, hv⟩
      rw [rounds_eq hnone hn] at hv
      exact absurd hv (hnone v d)
  | @round state state₁ state' b ds added hds hfill _ ih =>
    have hruns := fill_runs hfill
    have hmem := mem_defaults hds htracks hvisited
    obtain ⟨hclosed₁, hvisited₁⟩ := hruns.visited hclosed
    have hroots : {x | x ∈ (b :: ds).map Prod.snd} =
        {d | ∃ v, libs.Defaulted (libs.rounds ts k) v d} := by
      ext d
      simp only [Set.mem_ofPred_eq, mem_map, Prod.exists, exists_eq_right, hmem]
    have hlimit : Limit libs ts (k + 1) added state' := by
      refine ih (tracks_runs hruns htracks) hclosed₁ fun x => ?_
      rw [hvisited₁, hvisited, hroots]
      rfl
    refine ⟨hlimit.visited, fun v d => ?_⟩
    rw [mem_append, hmem, hlimit.added]
    constructor
    · rintro (hv | ⟨n, hn, hv⟩)
      · exact ⟨k, le_refl k, hv⟩
      · exact ⟨n, by omega, hv⟩
    · rintro ⟨n, hn, hv⟩
      obtain rfl | hlt := Nat.eq_or_lt_of_le hn
      · exact .inl hv
      · exact .inr ⟨n, hlt, hv⟩

/-- The loop adds these defaults for the roots, and visits these libraries. -/
def Adds (libs : Libs L) (t : Closure L) (ts : List L) (added : List (L × L))
    (state : ClosureState L) : Prop :=
  ∃ state₀, libs.step1Closure t ts = .ok state₀ ∧ Fills libs t state₀ added state

theorem Adds.limit (h : Adds libs t ts added state) : Limit libs ts 0 added state := by
  obtain ⟨state₀, hstep, hfills⟩ := h
  have hruns := step1Closure_runs hstep
  obtain ⟨hclosed, hvisited⟩ := hruns.visited (fun x hx => by cases hx)
  refine hfills.limit (tracks_runs hruns .empty) hclosed fun x => ?_
  rw [hvisited]
  exact or_iff_right not_mem_nil

theorem Adds.runs (h : Adds libs t ts added state) :
    libs.Runs .empty (ts ++ added.map Prod.snd) state := by
  obtain ⟨state₀, hstep, hfills⟩ := h
  exact (step1Closure_runs hstep).append hfills.runs

/-- A default is added for a virtual library that has no other implementation. -/
def Alone (libs : Libs L) (added : List (L × L)) (state : ClosureState L) : Prop :=
  ∀ v d, (v, d) ∈ added → ∀ x ∈ state.visited, libs.implements x = some v → x = d

theorem Adds.alone_iff (h : Adds libs t ts added state) :
    Alone libs added state ↔ libs.DefaultsAlone ts := by
  have hlimit := h.limit
  constructor
  · intro halone k v d hv n x hx himpl
    exact halone v d ((hlimit.added v d).mpr ⟨k, Nat.zero_le k, hv⟩) x
      ((hlimit.visited x).mpr ⟨n, hx⟩) himpl
  · intro halone v d hmem x hx himpl
    obtain ⟨k, -, hv⟩ := (hlimit.added v d).mp hmem
    obtain ⟨n, hx⟩ := (hlimit.visited x).mp hx
    exact halone k v d hv n x hx himpl

theorem adds_of_linkState (h : libs.linkState t ts = .ok state) :
    ∃ added, Adds libs t ts added state := by
  obtain ⟨state₀, hstep, h⟩ := bind_ok h
  obtain ⟨added, hfills⟩ := implsViaDefaults_fills h
  exact ⟨added, state₀, hstep, hfills⟩

/-- Two implementations of a virtual library are in reach without its own default. -/
def Doubled (libs : Libs L) (ts : List L) (added : List (L × L)) (v : L) : Prop :=
  ∃ i j, i ≠ j ∧ libs.implements i = some v ∧ libs.implements j = some v ∧
    ∀ x, x = i ∨ x = j → x ∈ libs.closureOf {r | r ∈ ts ∨ ∃ v', (v', r) ∈ added ∧ v' ≠ v}

/-- Two implementations in the closure, when the default of the virtual library is not added. -/
theorem Adds.doubled (h : Adds libs t ts added state) (halone : Alone libs added state) {a b : L}
    (hne : a ≠ b) (ha : a ∈ state.visited ∧ libs.implements a = some v)
    (hb : b ∈ state.visited ∧ libs.implements b = some v) : Doubled libs ts added v := by
  have hother {v' r : L} (hmem : (v', r) ∈ added) : v' ≠ v := by
    rintro rfl
    exact hne ((halone _ r hmem a ha.1 ha.2).trans (halone _ r hmem b hb.1 hb.2).symm)
  have hreach {x : L} (hx : x ∈ state.visited) :
      x ∈ libs.closureOf {r | r ∈ ts ∨ ∃ v', (v', r) ∈ added ∧ v' ≠ v} := by
    have hvisited := (h.runs.visited (fun x hx => absurd hx not_mem_nil)).2 x
    obtain ⟨r, hr, hpath⟩ := (hvisited.mp hx).resolve_left not_mem_nil
    refine ⟨r, (mem_append.mp hr).imp_right fun hr => ?_, hpath⟩
    obtain ⟨⟨v', d⟩, hmem, rfl⟩ := mem_map.mp hr
    exact ⟨v', hmem, hother hmem⟩
  refine ⟨a, b, hne, ha.2, hb.2, ?_⟩
  rintro x (rfl | rfl)
  · exact hreach ha.1
  · exact hreach hb.1

/-- Default implementations are chosen consistently exactly when the rounds that add all of them
give none of their virtual libraries another implementation. -/
theorem defaults_consistent_iff (libs : Libs L) (t : Closure L) (ts : List L) :
    (libs.linkingClosureWithOverlapChecks t ts ≠ .error .outOfBound ∧
      (∀ added state, Adds libs t ts added state → Alone libs added state) ∧
      ∀ a b v, libs.linkingClosureWithOverlapChecks t ts = .error (.doubleImplementation a b v) →
        ∀ added state, Adds libs t ts added state → Doubled libs ts added v) ↔
      ∀ added state, Adds libs t ts added state → libs.DefaultsAlone ts := by
  constructor
  · rintro ⟨-, halone, -⟩ added state hadds
    exact hadds.alone_iff.mp (halone added state hadds)
  · intro h
    have halone (added : List (L × L)) (state : ClosureState L)
        (hadds : Adds libs t ts added state) : Alone libs added state :=
      hadds.alone_iff.mpr (h added state hadds)
    refine ⟨fun herror => ?_, halone, fun a b v herror added state hadds => ?_⟩
    · obtain hordinary | ⟨v, he⟩ | ⟨state, hstate, hmake⟩ := linking_error herror
      · exact hordinary
      · cases he
      · obtain ⟨_, hruns⟩ := linkState_runs hstate
        have hend := partialMake_of_runs hruns
        rw [hmake] at hend
        cases hend
    · obtain hordinary | ⟨v, he⟩ | ⟨state₁, hstate, hmake⟩ := linking_error herror
      · exact hordinary.elim
      · cases he
      · obtain ⟨added₁, hadds₁⟩ := adds_of_linkState hstate
        have hend := partialMake_of_runs hadds₁.runs
        rw [hmake] at hend
        cases hend with | double ha hb hne himpl₁ himpl₂ hkind => ?_
        -- The closure is the limit of the rounds for both.
        have hmem {x : L} (hx : x ∈ [] ++ state₁.result.reverse.map Prod.fst) :
            x ∈ state.visited := by
          rw [nil_append, map_reverse, mem_reverse] at hx
          rw [hadds.limit.visited, ← hadds₁.limit.visited]
          exact (hadds₁.runs.visits.search.mem_marked x).mpr hx
        exact hadds.doubled (halone added state hadds) hne ⟨hmem ha, himpl₁⟩ ⟨hmem hb, himpl₂⟩

/-- Two virtual libraries with defaults, where the default of the second requires another
implementation of the first. -/
def overridden : Libs (Fin 5) where
  kind
    | 0 | 1 => .virtual
    | _ => .duneFile
  implements
    | 2 | 3 => some 0
    | 4 => some 1
    | _ => none
  defaultImplementation
    | 0 => some (some 2)
    | 1 => some (some 4)
    | _ => none
  resolved
    | 4 => some [3]
    | _ => some []
  requires
    | 2 | 3 => some [0]
    | 4 => some [1, 3]
    | _ => some []
  implementable := by decide
  not_virtual := by decide
  default_implements := by decide
  requires_eq := by decide +kernel

theorem defaults_overridden :
    overridden.linkingClosureWithOverlapChecks ⟨none, fun _ => false⟩ [0, 1] =
      .error (.doubleImplementation 3 2 0) ∧
    ∃ added state, Adds overridden ⟨none, fun _ => false⟩ [0, 1] added state ∧
      ¬ Alone overridden added state ∧ ¬ Doubled overridden [0, 1] added 0 := by
  refine ⟨by decide +kernel, [(1, 4), (0, 2)] ++ [],
    ⟨[(2, []), (4, []), (3, [4]), (1, []), (0, [])], [0, 1, 2, 3, 4], ⟨[0, 1], []⟩⟩,
    ⟨⟨[(1, []), (0, [])], [0, 1], ⟨[], [0, 1]⟩⟩, by decide +kernel, ?_⟩, ?_, ?_⟩
  · exact .round (by decide +kernel) (by decide +kernel) (.stop (by decide +kernel))
  · exact fun h => absurd (h 0 2 (by decide) 3 (by decide) rfl) (by decide)
  · rintro ⟨i, j, hne, hi, hj, hreach⟩
    have htwo : ∀ i j, i ≠ j → overridden.implements i = some 0 →
        overridden.implements j = some 0 → i = 2 ∨ j = 2 := by
      decide
    have hmem := hreach 2 ((htwo i j hne hi hj).imp Eq.symm Eq.symm)
    -- The default is not in reach of the other libraries.
    refine closureOf_subset (s := {x | x ≠ 2}) (by decide) ?_ hmem rfl
    rintro r (hr | ⟨v, hr, hv⟩) rfl
    · exact absurd hr (by decide)
    · simp at hr
      exact hv hr

/-! ## Link orders -/

theorem linkedClosure (h : libs.linkingClosureWithOverlapChecks t ts = .ok l) :
    libs.Linked ts l ∧ (libs.LinkOrder l ↔ libs.NoLinkCycle {x | ∃ n, x ∈ libs.rounds ts n}) := by
  rw [link_eq] at h
  obtain ⟨state, hstate, h⟩ := bind_ok h
  obtain ⟨added, hadds⟩ := adds_of_linkState hstate
  have hsearch : Search libs.next (ts ++ added.map Prod.snd) state.visited
      (state.result.map Prod.fst) := hadds.runs.visits.search
  obtain ⟨impls, hlink⟩ := associate_link hsearch h
  refine ⟨hlink.linked fun x hx => ?_, hlink.linkOrder_iff (fun x => ?_) fun himpl => ?_⟩
  · exact mem_reverse.mpr (hsearch.todo_mem x (mem_append_left _ hx))
  · rw [mem_reverse, ← hsearch.mem_marked]
    exact (hadds.limit.visited x).symm
  · rw [libs.not_virtual himpl]
    decide

/-- Linking is right exactly when the graph of the libraries in reach, in which implementations
stand for virtual libraries, has no cycles. -/
theorem linkingClosure_correct_iff (libs : Libs L) (t : Closure L) (ts : List L)
    (hacyclic : libs.Acyclic) :
    (libs.linkingClosureWithOverlapChecks t ts ≠ .error .assertFailure ∧
      ∀ l, libs.linkingClosureWithOverlapChecks t ts = .ok l →
        libs.Linked ts l ∧ libs.LinkOrder l) ↔
      ((libs.linkingClosureWithOverlapChecks t ts).isOk →
        libs.NoLinkCycle {x | ∃ n, x ∈ libs.rounds ts n}) := by
  constructor
  · intro h hok
    cases hl : libs.linkingClosureWithOverlapChecks t ts with
    | error e =>
      rw [hl] at hok
      cases hok
    | ok l => exact (linkedClosure hl).2.mp (h.2 l hl).2
  · intro h
    refine ⟨?_, fun l hl => ?_⟩
    · intro herror
      obtain hordinary | ⟨v, he⟩ | ⟨state, hstate, hmake⟩ := linking_error herror
      · exact hordinary
      · cases he
      · obtain ⟨added, hruns⟩ := linkState_runs hstate
        exact partialMake_ne_assertFailure hacyclic hruns hmake
    · obtain ⟨hlinked, hiff⟩ := linkedClosure hl
      exact ⟨hlinked, hiff.mpr (h (by rw [hl]; rfl))⟩

omit [Fintype L] in
/-- Edges that go down in the order make no cycle. -/
theorem not_transGen_of_lt {r : L → L → Prop} (h : ∀ x y, r x y → y < x) (x : L) :
    ¬ TransGen r x x := by
  have hlt {x y : L} (hpath : TransGen r x y) : y < x := by
    induction hpath with
    | single hedge => exact h _ _ hedge
    | tail _ hedge ih => exact (h _ _ hedge).trans ih
  exact fun hpath => lt_irrefl x (hlt hpath)

/-- One virtual library with an implementation, and a library that requires it. -/
def single : Libs (Fin 3) where
  kind
    | 0 => .virtual
    | _ => .duneFile
  implements
    | 1 => some 0
    | _ => none
  defaultImplementation _ := none
  resolved
    | 2 => some [0]
    | _ => some []
  requires
    | 0 => some []
    | _ => some [0]
  implementable := by decide
  not_virtual := by decide
  default_implements := by decide
  requires_eq := by decide +kernel

theorem linkingClosure_single : single.Acyclic ∧
    single.linkingClosureWithOverlapChecks ⟨none, fun _ => false⟩ [1, 2] = .ok [1, 2] ∧
    single.Linked [1, 2] [1, 2] ∧ single.LinkOrder [1, 2] := by
  have hacyclic : single.Acyclic := not_transGen_of_lt (by decide)
  have hlink : single.linkingClosureWithOverlapChecks ⟨none, fun _ => false⟩ [1, 2] =
      .ok [1, 2] := by
    decide +kernel
  refine ⟨hacyclic, hlink, ?_⟩
  refine ((linkingClosure_correct_iff single _ [1, 2] hacyclic).mpr fun _ => ?_).2 _ hlink
  have hlt : ∀ x r d, r ≠ x → d ∈ single.next x → single.implements r = some d → r < x := by
    decide
  have hvirtual : ∀ x, ∀ d ∈ single.next x, single.kind d = .virtual := by decide
  refine not_transGen_of_lt ?_
  rintro x r ⟨-, -, hne, d, hd, hr⟩
  rw [if_pos (hvirtual x d hd)] at hr
  exact hlt x r d hne hd hr.2

/-- Two virtual libraries, and two implementations of which each requires the virtual library of the
other. -/
def crossed : Libs (Fin 4) where
  kind
    | 0 | 1 => .virtual
    | _ => .duneFile
  implements
    | 2 => some 0
    | 3 => some 1
    | _ => none
  defaultImplementation _ := none
  resolved
    | 2 => some [1]
    | 3 => some [0]
    | _ => some []
  requires
    | 2 => some [0, 1]
    | 3 => some [1, 0]
    | _ => some []
  implementable := by decide
  not_virtual := by decide
  default_implements := by decide
  requires_eq := by decide +kernel

theorem linkingClosure_crossed : crossed.Acyclic ∧
    crossed.linkingClosureWithOverlapChecks ⟨none, fun _ => false⟩ [2, 3] = .ok [3, 2] ∧
    ¬ crossed.LinkOrder [3, 2] := by
  refine ⟨not_transGen_of_lt (by decide), by decide +kernel, fun h => ?_⟩
  have hmem := h [] 3 [2] rfl 0 (by decide) 2 (by decide) (by decide)
  cases hmem

end Libs

end Dune.Rules
