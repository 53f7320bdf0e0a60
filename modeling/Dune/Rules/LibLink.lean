import Dune.Rules.LibBound
import Dune.Rules.LibVlib

/-!
# The libraries that are linked

What `linking_closure_with_overlap_checks` gives: the libraries of the closure that are not virtual,
one implementation for each virtual library, closed under requirements once implementations stand
for virtual libraries (`Linked`). The order is the one of a second traversal, of the graph in which
implementations stand for virtual libraries. Without cycles in that graph it is a link order;
nothing checks for such cycles, and a graph without cycles can have them once the implementations
are put in.
-/

open List (mem_map mem_reverse mem_cons)

namespace Dune.Rules

open Dune.Stdune Dune.Graph
open Relation (ReflTransGen TransGen)

/-! ## Link orders -/

section Spec

variable {L : Type} [LinearOrder L] (libs : LibData L)

def LibData.Acyclic : Prop := ∀ x, ¬ TransGen (fun x y => y ∈ libs.next x) x x

/-- What stands for a required library among the libraries that are linked: an implementation for a
virtual library. -/
def LibData.Stands (l : List L) (d r : L) : Prop :=
  if libs.kind d = .virtual then r ∈ l ∧ libs.implements r = some d else r = d

instance (l : List L) (d r : L) : Decidable (libs.Stands l d r) :=
  inferInstanceAs (Decidable
    (if libs.kind d = .virtual then r ∈ l ∧ libs.implements r = some d else r = d))

/-- A library is in reach of the roots or of what is linked. -/
def LibData.Reached (ts l : List L) (lib : L) : Prop :=
  ∃ x, (x ∈ ts ∨ x ∈ l) ∧ ReflTransGen (fun x y => y ∈ libs.next x) x lib

/-- Libraries that can be linked for the roots, the order apart. -/
structure LibData.Linked (ts l : List L) : Prop where
  nodup : l.Nodup
  not_virtual : ∀ x ∈ l, libs.kind x ≠ .virtual
  implemented : ∀ v, libs.Reached ts l v → libs.kind v = .virtual →
    ∃! i, i ∈ l ∧ libs.implements i = some v
  closed : ∀ x, x ∈ ts ∨ (∃ y ∈ l, x ∈ libs.next y) → ∃ r ∈ l, libs.Stands l x r

/-- Every library comes after what stands for its requirements. -/
def LibData.LinkOrder (l : List L) : Prop :=
  ∀ pre x post, l = pre ++ x :: post → ∀ d ∈ libs.next x, ∀ r, libs.Stands l d r → r ≠ x → r ∈ pre

/-- The requirements among the libraries of a set, with implementations for virtual libraries. -/
def LibData.LinkEdge (s : Set L) (x r : L) : Prop :=
  x ∈ s ∧ libs.kind x ≠ .virtual ∧ r ≠ x ∧ ∃ d ∈ libs.next x,
    if libs.kind d = .virtual then r ∈ s ∧ libs.implements r = some d else r = d

/-- The graph in which implementations stand for virtual libraries has no cycles. -/
def LibData.NoLinkCycle (s : Set L) : Prop := ∀ x, ¬ TransGen (libs.LinkEdge s) x x

end Spec

namespace LibData

variable {L : Type} [LinearOrder L] {libs : LibData L}

/-! ## The second traversal -/

/-- The requirements of a library with the implementations in their place. -/
def linkNext (libs : LibData L) (impls : List (L × L)) (lib : L) : List L :=
  (libs.next lib).map (replace impls)

variable {impls : List (L × L)} {l closure : List L} {s s' : List L × List L}

theorem visits_of_fold {f : List L × List L → L → Except (LibError L) (List L × List L)}
    (hf : ∀ {s lib s'}, f s lib = .ok s' →
      Visits (libs.linkNext impls) s.2 s.1 [replace impls lib] s'.2 s'.1)
    (h : l.foldlM f s = .ok s') :
    Visits (libs.linkNext impls) s.2 s.1 (l.map (replace impls)) s'.2 s'.1 := by
  induction l generalizing s with
  | nil =>
    cases h
    exact .done
  | cons lib l ih =>
    rw [List.foldlM_cons] at h
    obtain ⟨s₁, hlib, h⟩ := bind_ok h
    exact (hf hlib).append (ih h)

theorem secondStepLoop_visits {bound : Nat} {t : L}
    (h : libs.secondStepLoop impls bound s t = .ok s') :
    Visits (libs.linkNext impls) s.2 s.1 [replace impls t] s'.2 s'.1 := by
  induction bound generalizing s s' t with
  | zero => cases h
  | succ bound ih =>
    obtain ⟨res, visited⟩ := s
    simp only [secondStepLoop] at h
    split at h
    · next hmem =>
      cases h
      exact .seen hmem .done
    · next hmem =>
      obtain ⟨deps, hdeps, h⟩ := bind_ok h
      obtain ⟨s₁, hfold, hret⟩ := bind_ok h
      obtain rfl := (Except.ok.inj hret).symm
      have hnext : libs.linkNext impls (replace impls t) = deps.map (replace impls) := by
        rw [linkNext, next, get_ok hdeps]
        rfl
      exact .enter hmem (fun x => Map.mem_insertKey) (hnext ▸ visits_of_fold ih hfold) .done

theorem secondStepClosure_search [Fintype L] {ts : List L}
    (h : libs.secondStepClosure ts impls = .ok l) :
    ∃ marked, Search (libs.linkNext impls) (ts.map (replace impls)) marked l.reverse := by
  obtain ⟨s, hfold, hret⟩ := bind_ok h
  obtain rfl := (Except.ok.inj hret).symm
  refine ⟨s.2, ?_⟩
  rw [List.reverse_reverse]
  exact (visits_of_fold secondStepLoop_visits hfold).search

/-- The second traversal of a closure: its implementations stand for its virtual libraries. -/
structure LinkOk (libs : LibData L) (closure l : List L) (impls : List (L × L)) : Prop where
  search : ∃ todo marked, Search (libs.linkNext impls) todo marked l.reverse
  mem (x : L) : x ∈ l ↔ x ∈ closure ∧ libs.kind x ≠ .virtual
  closed {x y : L} : x ∈ closure → y ∈ libs.next x → y ∈ closure
  replaced {x : L} : x ∈ closure → libs.kind x ≠ .virtual → replace impls x = x
  implemented {v : L} : v ∈ closure → libs.kind v = .virtual → replace impls v ∈ l ∧
    ∀ i, i ∈ l ∧ libs.implements i = some v ↔ i = replace impls v

section

variable (h : LinkOk libs closure l impls)
include h

theorem LinkOk.stands {d r : L} (hd : d ∈ closure) : libs.Stands l d r ↔ r = replace impls d := by
  unfold Stands
  split
  · next hkind => exact (h.implemented hd hkind).2 r
  · next hkind => rw [h.replaced hd hkind]

theorem LinkOk.replace_mem {d : L} (hd : d ∈ closure) : replace impls d ∈ l := by
  by_cases hkind : libs.kind d = .virtual
  · exact (h.implemented hd hkind).1
  · rw [h.replaced hd hkind]
    exact (h.mem d).mpr ⟨hd, hkind⟩

theorem LinkOk.edge {x r : L} (hx : x ∈ l) :
    Edge (libs.linkNext impls) x r ↔ r ≠ x ∧ ∃ d ∈ libs.next x, libs.Stands l d r := by
  have hclosure {d : L} (hd : d ∈ libs.next x) : d ∈ closure := h.closed ((h.mem x).mp hx).1 hd
  rw [Edge, linkNext, mem_map, and_comm]
  refine and_congr_right fun _ => exists_congr fun d => and_congr_right fun hd => ?_
  rw [h.stands (hclosure hd), eq_comm]

theorem LinkOk.mem_of_path {x y : L} (hx : x ∈ closure)
    (hpath : ReflTransGen (fun x y => y ∈ libs.next x) x y) : y ∈ closure := by
  induction hpath with
  | refl => exact hx
  | tail _ hedge ih => exact h.closed ih hedge

theorem LinkOk.linked {ts : List L} (hts : ∀ x ∈ ts, x ∈ closure) : libs.Linked ts l := by
  obtain ⟨todo, marked, hsearch⟩ := h.search
  constructor
  case nodup => exact List.nodup_reverse.mp hsearch.nodup
  case not_virtual => exact fun x hx => ((h.mem x).mp hx).2
  case implemented =>
    rintro v ⟨x, hx, hpath⟩ hkind
    have hv : v ∈ closure :=
      h.mem_of_path (hx.elim (hts x) fun hx => ((h.mem x).mp hx).1) hpath
    exact ⟨replace impls v, ((h.implemented hv hkind).2 _).mpr rfl,
      fun i hi => ((h.implemented hv hkind).2 i).mp hi⟩
  case closed =>
    intro x hx
    have hclosure : x ∈ closure := by
      obtain hx | ⟨y, hy, hx⟩ := hx
      · exact hts x hx
      · exact h.closed ((h.mem y).mp hy).1 hx
    exact ⟨replace impls x, h.replace_mem hclosure, (h.stands hclosure).mpr rfl⟩

theorem LinkOk.linkEdge {s : Set L} (hs : ∀ x, x ∈ s ↔ x ∈ closure)
    (hkind : ∀ {i v : L}, libs.implements i = some v → libs.kind i ≠ .virtual) {x r : L} :
    libs.LinkEdge s x r ↔ x ∈ l ∧ Edge (libs.linkNext impls) x r := by
  rw [LinkEdge, ← and_assoc, hs, ← h.mem]
  refine and_congr_right fun hx => ?_
  rw [h.edge hx]
  refine and_congr_right fun _ => exists_congr fun d => and_congr_right fun _ => ?_
  unfold Stands
  split
  · rw [hs, h.mem]
    exact ⟨fun ⟨hr, himpl⟩ => ⟨⟨hr, hkind himpl⟩, himpl⟩, fun ⟨hr, himpl⟩ => ⟨hr.1, himpl⟩⟩
  · rfl

theorem LinkOk.linkOrder_iff {s : Set L} (hs : ∀ x, x ∈ s ↔ x ∈ closure)
    (hkind : ∀ {i v : L}, libs.implements i = some v → libs.kind i ≠ .virtual) :
    libs.LinkOrder l ↔ libs.NoLinkCycle s := by
  obtain ⟨todo, marked, hsearch⟩ := h.search
  have horder : libs.LinkOrder l ↔
      Graph.Ordered (libs.linkNext impls) (fun _ => False) l.reverse := by
    rw [ordered_iff_split]
    constructor
    · intro hlink pre x post heq r hr
      have heq' : l = post.reverse ++ x :: pre.reverse := by
        rw [← List.reverse_reverse l, heq]
        simp
      have hx : x ∈ l := by rw [heq']; simp
      obtain ⟨hne, d, hd, hstands⟩ := (h.edge hx).mp hr
      exact mem_reverse.mp (hlink _ x _ heq' d hd r hstands hne)
    · intro hordered pre x post heq d hd r hstands hne
      have hx : x ∈ l := by rw [heq]; simp
      refine mem_reverse.mp (hordered post.reverse x pre.reverse ?_ r ?_)
      · rw [heq]
        simp
      · exact (h.edge hx).mpr ⟨hne, d, hd, hstands⟩
  have hcycle : libs.NoLinkCycle s ↔ AcyclicOn (libs.linkNext impls) l.reverse := by
    constructor
    · intro hno x hx hpath
      refine hno x ?_
      -- A path that starts in the list stays in it.
      suffices ∀ y, TransGen (Edge (libs.linkNext impls)) x y →
          y ∈ l.reverse ∧ TransGen (libs.LinkEdge s) x y from (this x hpath).2
      intro y hpath
      have hstep {x y : L} (hx : x ∈ l.reverse) (hedge : Edge (libs.linkNext impls) x y) :
          y ∈ l.reverse ∧ libs.LinkEdge s x y :=
        ⟨hsearch.closed _ hx _ hedge.1, (h.linkEdge hs hkind).mpr ⟨mem_reverse.mp hx, hedge⟩⟩
      induction hpath with
      | single hedge => exact (hstep hx hedge).imp_right .single
      | tail _ hedge ih => exact (hstep ih.1 hedge).imp_right ih.2.tail
    · intro hacyclic x hpath
      obtain ⟨y, hedge, -⟩ := TransGen.head'_iff.mp hpath
      refine hacyclic x (mem_reverse.mpr ((h.linkEdge hs hkind).mp hedge).1) ?_
      exact TransGen.mono (fun y r hr => ((h.linkEdge hs hkind).mp hr).2) _ _ hpath
  rw [horder, hcycle, hsearch.ordered_iff]

end

end LibData

/-! ## Linking a closure -/

namespace Libs

open LibData

variable {L : Type} [LinearOrder L] [Fintype L] {libs : Libs L} {t : Closure L}
  {acc : List (L × VlibStatus L)} {impls : List (L × L)}

/-- The table for linking holds the implementations of a closure. -/
theorem replace_of_table {closure : List L} (hacc : PartialOk libs closure acc)
    (h : tableMake acc false = .ok impls) {x : L} (hx : x ∈ closure) :
    (libs.kind x ≠ .virtual → replace impls x = x) ∧
      (libs.kind x = .virtual → replace impls x ∈ closure ∧
        ∀ i, i ∈ closure ∧ libs.implements i = some x ↔ i = replace impls x) := by
  have hfind := tableLoop_find hacc.sorted h x
  constructor
  · intro hkind
    obtain ⟨hnone, -⟩ | ⟨i, stack, -, hsome⟩ := hfind
    · rw [replace, hnone]
      rfl
    · have := (hacc.keys x).mp (by rw [hsome]; rfl)
      exact absurd this.2 hkind
  · intro hkind
    obtain ⟨-, hnone⟩ | ⟨i, stack, hi, hsome⟩ := hfind
    · have := (hacc.keys x).mpr ⟨hx, hkind⟩
      rw [hnone] at this
      cases this
    · have hreplace : replace impls x = i := by rw [replace, hi]; rfl
      rw [hreplace]
      obtain ⟨hmem, himpl⟩ := hacc.impl hsome
      refine ⟨hmem, fun j => ⟨fun ⟨hj, hjx⟩ => ?_, ?_⟩⟩
      · obtain ⟨stack', hsome'⟩ := hacc.found hj hjx hkind
        rw [hsome] at hsome'
        cases hsome'
        rfl
      · rintro rfl
        exact ⟨hmem, himpl⟩

variable {l todo ts : List L} {state : ClosureState L}

theorem linkOk_of_table {closure : List L} (hclosed : ∀ x ∈ closure, ∀ y ∈ libs.next x, y ∈ closure)
    (hacc : PartialOk libs closure acc) (himpls : tableMake acc false = .ok impls)
    (h : libs.secondStepClosure closure impls = .ok l) : LinkOk libs.toLibData closure l impls := by
  obtain ⟨marked, hsearch⟩ := secondStepClosure_search h
  have htable {x : L} (hx : x ∈ closure) := replace_of_table hacc himpls hx
  have hfile {i v : L} (hi : libs.implements i = some v) : libs.kind i ≠ .virtual := by
    rw [libs.not_virtual hi]
    decide
  have hreplace {x : L} (hx : x ∈ closure) :
      replace impls x ∈ closure ∧ libs.kind (replace impls x) ≠ .virtual := by
    by_cases hkind : libs.kind x = .virtual
    · obtain ⟨hmem, hiff⟩ := (htable hx).2 hkind
      exact ⟨hmem, hfile ((hiff _).mpr rfl).2⟩
    · rw [(htable hx).1 hkind]
      exact ⟨hx, hkind⟩
  have htodo {x : L} (hx : x ∈ closure) : replace impls x ∈ l :=
    mem_reverse.mp (hsearch.todo_mem _ (List.mem_map_of_mem hx))
  have hmem (x : L) : x ∈ l ↔ x ∈ closure ∧ libs.kind x ≠ .virtual := by
    constructor
    · intro hx
      obtain ⟨v, hv, hpath⟩ := hsearch.reach x (mem_reverse.mpr hx)
      obtain ⟨x', hx', rfl⟩ := mem_map.mp hv
      clear hx
      induction hpath with
      | refl => exact hreplace hx'
      | tail _ hedge ih =>
        obtain ⟨d, hd, rfl⟩ := mem_map.mp hedge.1
        exact hreplace (hclosed _ ih.1 d hd)
    · rintro ⟨hx, hkind⟩
      rw [← (htable hx).1 hkind]
      exact htodo hx
  refine ⟨⟨_, marked, hsearch⟩, hmem, fun hx hy => hclosed _ hx _ hy,
    fun hx => (htable hx).1, fun {v} hv hkind => ⟨htodo hv, fun i => ?_⟩⟩
  rw [← ((htable hv).2 hkind).2 i, hmem]
  exact ⟨fun ⟨hi, himpl⟩ => ⟨hi.1, himpl⟩, fun ⟨hi, himpl⟩ => ⟨⟨hi, hfile himpl⟩, himpl⟩⟩

/-- Without virtual libraries the closure is linked as it is. -/
theorem linkOk_of_nil {marked out : List L} (hsearch : Search libs.next todo marked out)
    (hacc : PartialOk libs out.reverse []) : LinkOk libs.toLibData out.reverse out.reverse [] := by
  have hreplace : replace ([] : List (L × L)) = id := rfl
  have hnext : libs.linkNext [] = libs.next := by
    funext x
    rw [linkNext, hreplace, List.map_id]
  have hkind {x : L} (hx : x ∈ out.reverse) : libs.kind x ≠ .virtual := fun hkind => by
    have := (hacc.keys x).mpr ⟨hx, hkind⟩
    cases this
  constructor
  case search => exact ⟨todo, marked, by rwa [hnext, List.reverse_reverse]⟩
  case mem => exact fun x => ⟨fun hx => ⟨hx, hkind hx⟩, fun hx => hx.1⟩
  case closed =>
    exact fun hx hy => mem_reverse.mpr (hsearch.closed _ (mem_reverse.mp hx) _ hy)
  case replaced => exact fun _ _ => rfl
  case implemented => exact fun hx hvirtual => absurd hvirtual (hkind hx)

variable {result : List (L × List L)}

omit [LinearOrder L] [Fintype L] in
theorem map_reverse_nodup {next : L → List L} {marked : List L}
    (hsearch : Search next todo marked (result.map Prod.fst)) :
    (result.reverse.map Prod.fst).Nodup := by
  rw [List.map_reverse]
  exact List.nodup_reverse.mpr hsearch.nodup

theorem associate_link {marked : List L}
    (hsearch : Search libs.next todo marked (result.map Prod.fst))
    (h : libs.associate result.reverse .link = .ok l) :
    ∃ impls, LinkOk libs.toLibData (result.map Prod.fst).reverse l impls := by
  obtain ⟨acc, hacc, h⟩ := bind_ok h
  have hend : PartialEnd libs [] _ _ := partialMake_end (map_reverse_nodup hsearch)
  rw [hacc] at hend
  cases hend with | ok hok => ?_
  rw [List.nil_append] at hok
  rw [List.map_reverse] at h hok
  split at h
  · obtain ⟨impls, himpls, h⟩ := bind_ok h
    refine ⟨impls, linkOk_of_table (fun x hx y hy => ?_) hok himpls h⟩
    exact mem_reverse.mpr (hsearch.closed x (mem_reverse.mp hx) y hy)
  · next hnil =>
    obtain rfl : acc = [] := by
      by_contra hne
      exact hnil ⟨by decide, hne⟩
    obtain rfl := Except.ok.inj h
    exact ⟨[], linkOk_of_nil hsearch hok⟩

omit [Fintype L] in
/-- The set of `dedup` holds what is in its list. -/
theorem mem_foldl_dedup {requires : List L} {x : L} {acc : List L × List L}
    (hacc : ∀ y, y ∈ acc.1 ↔ y ∈ acc.2) (hx : x ∈ requires ∨ x ∈ acc.2) :
    x ∈ (requires.foldl (fun (seen, lst) lib =>
      if lib ∈ seen then (seen, lst) else (Map.insertKey lib seen, lib :: lst)) acc).2 := by
  induction requires generalizing acc with
  | nil => exact hx.resolve_left List.not_mem_nil
  | cons lib requires ih =>
    obtain ⟨seen, lst⟩ := acc
    simp only [List.foldl_cons]
    split
    · exact ih hacc (by grind)
    · refine ih (fun y => ?_) (by grind)
      rw [Map.mem_insertKey, mem_cons, hacc]

omit [Fintype L] in
theorem mem_dedup {requires : List L} {x : L} (h : x ∈ requires) : x ∈ dedup requires := by
  rw [dedup, mem_reverse]
  exact mem_foldl_dedup (fun _ => Iff.rfl) (.inl h)

theorem implements_mem_next {lib vlib : L} (hsome : (libs.requires lib).isSome)
    (himpl : libs.implements lib = some vlib) : vlib ∈ libs.next lib := by
  rw [libs.requires_eq] at hsome
  cases hrequires : libs.instantiateRequires lib with
  | error e =>
    rw [hrequires] at hsome
    cases hsome
  | ok deps =>
    have hnext : libs.next lib = deps := by
      rw [next, libs.requires_eq, hrequires]
      rfl
    obtain ⟨requires, -, h⟩ := bind_ok hrequires
    obtain ⟨implementing, himplementing, hret⟩ := bind_ok h
    rw [hnext, ← Except.ok.inj hret]
    refine mem_dedup (List.mem_append_left _ ?_)
    unfold requiresImplements at himplementing
    rw [himpl] at himplementing
    simp only at himplementing
    split at himplementing
    · cases himplementing
      exact List.mem_singleton_self _
    · obtain ⟨_, -, hret⟩ := bind_ok himplementing
      rw [← Except.ok.inj hret]
      exact List.mem_singleton_self _
    · cases himplementing

theorem requires_of_runs {state' : ClosureState L} (h : libs.Runs state todo state') :
    ∀ x ∈ state'.result.map Prod.fst, x ∈ state.result.map Prod.fst ∨ (libs.requires x).isSome := by
  induction h with
  | done => exact fun x hx => .inl hx
  | seen _ _ ih => exact ih
  | @enter lib stack deps todo un state state₁ state' _ hdeps _ _ _ ih ih' =>
    intro x hx
    obtain hx | hx := ih' x hx
    · rw [List.map_cons, mem_cons] at hx
      obtain rfl | hx := hx
      · exact .inr (by rw [hdeps]; rfl)
      · exact ih x hx
    · exact .inr hx

/-! ## The closure that is linked -/

theorem link_eq (ts : List L) : libs.linkingClosureWithOverlapChecks t ts =
    libs.linkState t ts >>= fun state => state.closure libs.toLibData .link := by
  rw [linkState, bind_assoc]
  rfl

theorem linkState_runs (h : libs.linkState t ts = .ok state) :
    ∃ added, libs.Runs .empty (ts ++ added) state := by
  obtain ⟨state₁, hstep, h⟩ := bind_ok h
  obtain ⟨added, hfills⟩ := implsViaDefaults_fills h
  exact ⟨_, (step1Closure_runs hstep).append hfills.runs⟩

theorem partialMake_of_runs (hruns : libs.Runs .empty todo state) :
    PartialEnd libs [] state.result.reverse (libs.partialMake state.result.reverse) := by
  have hsearch : Search libs.next todo state.visited (state.result.map Prod.fst) :=
    hruns.visits.search
  exact partialMake_end (map_reverse_nodup hsearch)

/-- A virtual library is traversed before its implementations. -/
theorem partialMake_ne_assertFailure (hacyclic : libs.Acyclic)
    (hruns : libs.Runs .empty todo state) :
    libs.partialMake state.result.reverse ≠ .error .assertFailure := by
  intro h
  have hsearch : Search libs.next todo state.visited (state.result.map Prod.fst) :=
    hruns.visits.search
  have hordered : Graph.Ordered libs.next (fun _ => False) (state.result.map Prod.fst) :=
    hsearch.ordered fun x _ hpath => hacyclic x (TransGen.mono (fun _ _ hr => hr.1) _ _ hpath)
  have hend := partialMake_of_runs hruns
  rw [h] at hend
  cases hend with | @early pre post lib vlib heq himpl hkind hmem => ?_
  have hresult : state.result.map Prod.fst = post.reverse ++ lib :: pre.reverse := by
    rw [List.map_reverse, List.reverse_eq_iff] at heq
    rw [heq]
    simp
  have hlib : (libs.requires lib).isSome := by
    refine (requires_of_runs hruns lib ?_).resolve_left List.not_mem_nil
    rw [hresult]
    simp
  have hne : vlib ≠ lib := by
    rintro rfl
    rw [libs.not_virtual himpl] at hkind
    cases hkind
  have hpre := ordered_iff_split.mp hordered _ lib _ hresult vlib
    ⟨implements_mem_next hlib himpl, hne⟩
  exact hmem (by simpa using hpre)

/-- An error in linking a closure that is not one of the first table. -/
theorem closure_error {e : LibError L} (h : state.closure libs.toLibData .link = .error e) :
    libs.partialMake state.result.reverse = .error e ∨ (∃ v, e = .noImplementation v) ∨
      e.Ordinary := by
  have hend : Ends (fun _ => True) (fun e => libs.partialMake state.result.reverse = .error e ∨
      (∃ v, e = .noImplementation v) ∨ e.Ordinary) (state.closure libs.toLibData .link) := by
    refine Ends.bind (Q := fun _ => True) ?_ fun acc _ => ?_
    · cases hacc : libs.partialMake state.result.reverse with
      | error e => exact .inl rfl
      | ok acc => trivial
    · split
      · refine Ends.bind (Q := fun _ => True) ?_ fun impls _ => ?_
        · cases htable : tableMake acc (decide (ClosureKind.link ≠ ClosureKind.link)) with
          | error e => exact .inr (.inl (tableLoop_error htable))
          | ok impls => trivial
        · exact (secondStepClosure_ends _ impls).imp_error fun e he => .inr (.inr he)
      · trivial
  exact hend.error_of h

theorem linking_error {e : LibError L} (h : libs.linkingClosureWithOverlapChecks t ts = .error e) :
    e.Ordinary ∨ (∃ v, e = .noImplementation v) ∨
      ∃ state, libs.linkState t ts = .ok state ∧
        libs.partialMake state.result.reverse = .error e := by
  rw [link_eq] at h
  cases hstate : libs.linkState t ts with
  | error e' =>
    rw [hstate] at h
    cases h
    exact .inl ((linkState_ends ts).error_of hstate)
  | ok state =>
    rw [hstate] at h
    obtain hmake | hnone | hordinary := closure_error h
    · exact .inr (.inr ⟨state, rfl, hmake⟩)
    · exact .inr (.inl hnone)
    · exact .inl hordinary

/-- The libraries to compile with are those in reach of the roots, each once and, without cycles,
after its requirements. No assertion fails without cycles. -/
theorem compileClosure_search (libs : Libs L) (t : Closure L) (ts : List L) :
    Ends (fun l => ∃ marked, Search libs.next ts marked l.reverse)
      (fun e => e ≠ .outOfBound ∧ (libs.Acyclic → e ≠ .assertFailure))
      (libs.compileClosureWithOverlapChecks t ts) := by
  refine ((step1Closure_ends ts).eq_ok.imp_error fun e he => ?_).bind fun state hstate => ?_
  · exact ⟨by rintro rfl; exact he, by rintro - rfl; exact he⟩
  have hruns := step1Closure_runs hstate
  refine Ends.bind (Q := fun _ => True) ?_ fun acc _ => ?_
  · have hassert := fun h => partialMake_ne_assertFailure h hruns
    generalize hmake : libs.partialMake state.result.reverse = x at hassert ⊢
    cases hmake ▸ partialMake_of_runs hruns with
    | ok => trivial
    | early => exact ⟨by simp, fun hacyclic => absurd rfl (hassert hacyclic)⟩
    | double => simp [Ends]
  · refine ⟨state.visited, ?_⟩
    rw [List.map_reverse, List.reverse_reverse]
    exact hruns.visits.search

end Libs

end Dune.Rules
