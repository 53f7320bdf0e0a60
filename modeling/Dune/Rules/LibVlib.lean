import Dune.Rules.LibClosure

/-!
# The implementations of virtual libraries

What the tables of implementations hold for a closure, and when making them fails.
-/

namespace Dune.Rules

open List Dune.Stdune Dune.Graph

namespace Libs

open LibData

variable {L : Type} [LinearOrder L] [Fintype L] {libs : Libs L}

/-- A table for the libraries of a list: its keys are the virtual libraries, and every
implementation stands at what it implements. -/
structure PartialOk (libs : Libs L) (done : List L) (acc : List (L × VlibStatus L)) : Prop where
  sorted : Map.Sorted acc
  keys (v : L) : (Map.find acc v).isSome ↔ v ∈ done ∧ libs.kind v = .virtual
  impl {v i : L} {stack : List L} : Map.find acc v = some (.impl i stack) →
    i ∈ done ∧ libs.implements i = some v
  found {i v : L} : i ∈ done → libs.implements i = some v → libs.kind v = .virtual →
    ∃ stack, Map.find acc v = some (.impl i stack)

theorem PartialOk.nil : PartialOk libs [] [] where
  sorted := List.Pairwise.nil
  keys v := by simp
  impl h := by simp at h
  found h := by simp at h

variable {done stack : List L} {acc : List (L × VlibStatus L)} {lib : L}
  {closure : List (L × List L)}

theorem virtual_append {v : L} (hlib : libs.kind lib ≠ .virtual) :
    v ∈ done ++ [lib] ∧ libs.kind v = .virtual ↔ v ∈ done ∧ libs.kind v = .virtual := by
  rw [mem_append, mem_singleton, or_and_right, or_iff_left]
  rintro ⟨rfl, hv⟩
  exact hlib hv

section

variable (h : PartialOk libs done acc)
include h

theorem PartialOk.find_eq_none {v : L} (hv : v ∉ done) : Map.find acc v = none := by
  rw [← Option.not_isSome_iff_eq_none, h.keys]
  exact fun hmem => hv hmem.1

theorem PartialOk.skip (hkind : libs.kind lib ≠ .virtual)
    (himpl : ∀ v, libs.implements lib = some v → libs.kind v ≠ .virtual) :
    PartialOk libs (done ++ [lib]) acc where
  sorted := h.sorted
  keys v := by rw [h.keys, virtual_append hkind]
  impl hfind := (h.impl hfind).imp_left (mem_append_left _)
  found hmem hi hv := by
    rw [mem_append, mem_singleton] at hmem
    obtain hmem | rfl := hmem
    · exact h.found hmem hi hv
    · exact absurd hv (himpl _ hi)

theorem PartialOk.virtual (hlib : lib ∉ done)
    (hkind : libs.kind lib = .virtual) (himpl : libs.implements lib = none) :
    PartialOk libs (done ++ [lib]) (Map.set lib (.noImpl stack) acc) where
  sorted := h.sorted.set _ _
  keys v := by
    rw [Map.find_set, mem_append, mem_singleton]
    split
    · next heq => simp [← heq, hkind]
    · next hne => simp [h.keys v, Ne.symm hne]
  impl {v i stack'} hfind := by
    rw [Map.find_set] at hfind
    split at hfind
    · cases hfind
    · exact (h.impl hfind).imp_left (mem_append_left _)
  found {i v} hmem hi hv := by
    rw [mem_append, mem_singleton] at hmem
    obtain hmem | rfl := hmem
    · obtain ⟨stack', hfind⟩ := h.found hmem hi hv
      refine ⟨stack', ?_⟩
      rw [Map.find_set, if_neg, hfind]
      rintro rfl
      rw [h.find_eq_none hlib] at hfind
      cases hfind
    · rw [himpl] at hi
      cases hi

theorem PartialOk.implementation {vlib : L} {stack' : List L}
    (himpl : libs.implements lib = some vlib) (hfind : Map.find acc vlib = some (.noImpl stack')) :
    PartialOk libs (done ++ [lib]) (Map.set vlib (.impl lib stack) acc) where
  sorted := h.sorted.set _ _
  keys v := by
    have hlib : libs.kind lib ≠ .virtual := by rw [libs.not_virtual himpl]; decide
    have hvlib := (h.keys vlib).mp (by rw [hfind]; rfl)
    rw [Map.find_set, virtual_append hlib]
    split
    · next heq => simp [← heq, hvlib]
    · exact h.keys v
  impl {v i stack₁} hfind := by
    rw [Map.find_set] at hfind
    split at hfind
    · next heq =>
      cases hfind
      exact ⟨mem_append_right _ (mem_singleton_self _), heq ▸ himpl⟩
    · exact (h.impl hfind).imp_left (mem_append_left _)
  found {i v} hmem hi hv := by
    rw [mem_append, mem_singleton] at hmem
    rw [Map.find_set]
    split
    · next heq =>
      subst heq
      obtain hmem | rfl := hmem
      · obtain ⟨stack₁, hfind'⟩ := h.found hmem hi hv
        rw [hfind] at hfind'
        cases hfind'
      · exact ⟨stack, rfl⟩
    · next hne =>
      obtain hmem | rfl := hmem
      · exact h.found hmem hi hv
      · rw [himpl] at hi
        exact absurd (Option.some.inj hi) hne

end

/-- How `Vlib.Table.Partial.make` ends: a table, a virtual library that comes after one of its
implementations, or two implementations of one virtual library. -/
inductive PartialEnd (libs : Libs L) (done : List L) (closure : List (L × List L)) :
    Except (LibError L) (List (L × VlibStatus L)) → Prop
  | ok {acc : List (L × VlibStatus L)} : PartialOk libs (done ++ closure.map Prod.fst) acc →
      PartialEnd libs done closure (.ok acc)
  | early (pre post : List L) {lib vlib : L} : closure.map Prod.fst = pre ++ lib :: post →
      libs.implements lib = some vlib → libs.kind vlib = .virtual → vlib ∉ done ++ pre →
      PartialEnd libs done closure (.error .assertFailure)
  | double {impl₁ impl₂ vlib : L} : impl₁ ∈ done ++ closure.map Prod.fst →
      impl₂ ∈ done ++ closure.map Prod.fst → impl₁ ≠ impl₂ → libs.implements impl₁ = some vlib →
      libs.implements impl₂ = some vlib → libs.kind vlib = .virtual →
      PartialEnd libs done closure (.error (.doubleImplementation impl₁ impl₂ vlib))

theorem PartialEnd.cons {r : Except (LibError L) (List (L × VlibStatus L))}
    (h : PartialEnd libs (done ++ [lib]) closure r) :
    PartialEnd libs done ((lib, stack) :: closure) r := by
  have hlist (l : List L) : done ++ [lib] ++ l = done ++ lib :: l := by simp
  cases h with
  | ok h => exact .ok (hlist _ ▸ h)
  | early pre post heq himpl hkind hmem =>
    refine .early (lib :: pre) post ?_ himpl hkind (hlist pre ▸ hmem)
    rw [map_cons, heq, cons_append]
  | double h₁ h₂ hne himpl₁ himpl₂ hkind =>
    exact .double (hlist _ ▸ h₁) (hlist _ ▸ h₂) hne himpl₁ himpl₂ hkind

theorem partialLoop_end (h : PartialOk libs done acc)
    (hnodup : (done ++ closure.map Prod.fst).Nodup) :
    PartialEnd libs done closure (libs.partialLoop acc closure) := by
  induction closure generalizing done acc with
  | nil => exact .ok (by simpa using h)
  | cons b closure ih =>
    obtain ⟨lib, stack⟩ := b
    have hlist : done ++ [lib] ++ closure.map Prod.fst =
        done ++ ((lib, stack) :: closure).map Prod.fst := by
      simp
    have hnext {acc' : List (L × VlibStatus L)} (h' : PartialOk libs (done ++ [lib]) acc') :
        PartialEnd libs done ((lib, stack) :: closure) (libs.partialLoop acc' closure) :=
      (ih h' (hlist ▸ hnodup)).cons
    have hlib : lib ∉ done := by
      rw [← hlist] at hnodup
      have := (nodup_append.mp (nodup_append.mp hnodup).1).2.2
      exact fun hmem => this lib hmem lib (mem_singleton_self _) rfl
    unfold LibData.partialLoop
    split
    · next himpl hkind => exact hnext (h.skip (by simp [hkind]) (by simp [himpl]))
    · next himpl hkind => exact hnext (h.skip (by simp [hkind]) (by simp [himpl]))
    · next himpl hkind => exact hnext (h.virtual hlib hkind himpl)
    · next himpl hkind => exact absurd (libs.not_virtual himpl) (by simp [hkind])
    · next himpl hkind => exact absurd (libs.not_virtual himpl) (by simp [hkind])
    · next vlib himpl hkind =>
      split
      · next hparam =>
        refine hnext (h.skip (by simp [hkind]) fun v hv => ?_)
        rw [himpl, Option.some.injEq] at hv
        simp [← hv, hparam]
      · next hvirtual =>
        have hmem : lib ∈ done ++ ((lib, stack) :: closure).map Prod.fst := by simp
        split
        · next hfind =>
          refine .early [] (closure.map Prod.fst) rfl himpl hvirtual fun hdone => ?_
          rw [append_nil] at hdone
          have := (h.keys vlib).mpr ⟨hdone, hvirtual⟩
          rw [hfind] at this
          cases this
        · next hfind => exact hnext (h.implementation himpl hfind)
        · next lib' stack' hfind =>
          obtain ⟨hdone, himpl'⟩ := h.impl hfind
          have hne : lib' ≠ lib := fun heq => hlib (heq ▸ hdone)
          exact .double (mem_append_left _ hdone) hmem hne himpl' himpl hvirtual
      · next hfile => exact absurd hfile (libs.implementable himpl)

theorem partialMake_end (hnodup : (closure.map Prod.fst).Nodup) :
    PartialEnd libs [] closure (libs.partialMake closure) :=
  partialLoop_end .nil hnodup

variable {impls : List (L × VlibStatus L)} {acc : List (L × L)}

omit [Fintype L] in
/-- When the table is made, every virtual library has an implementation, and the table has it. -/
theorem tableLoop_find {table : List (L × L)} (hsorted : Map.Sorted impls)
    (h : tableLoop false acc impls = .ok table) (v : L) :
    Map.find table v = Map.find acc v ∧ Map.find impls v = none ∨
      ∃ i stack, Map.find table v = some i ∧ Map.find impls v = some (.impl i stack) := by
  induction impls generalizing acc with
  | nil =>
    cases h
    exact .inl ⟨rfl, rfl⟩
  | cons b impls ih =>
    obtain ⟨k, status⟩ := b
    cases status with
    | noImpl stack => cases h
    | impl i stack =>
      have htail : Map.find impls k = none := by
        rw [Map.find_eq_none]
        intro hmem
        obtain ⟨b, hb, heq⟩ := mem_map.mp hmem
        exact absurd heq (ne_of_gt ((pairwise_cons.mp hsorted).1 b hb))
      have ih := ih hsorted.tail h
      rw [Map.find_set] at ih
      rw [Map.find_cons]
      by_cases hk : k = v
      · subst hk
        rw [if_pos rfl] at ih ⊢
        obtain ⟨hfind, -⟩ | ⟨i', stack', -, hfind⟩ := ih
        · exact .inr ⟨i, stack, hfind, rfl⟩
        · rw [htail] at hfind
          cases hfind
      · rw [if_neg hk] at ih ⊢
        exact ih

omit [Fintype L] in
theorem tableLoop_error {e : LibError L} {allowPartial : Bool}
    (h : tableLoop allowPartial acc impls = .error e) : ∃ v, e = .noImplementation v := by
  induction impls generalizing acc with
  | nil => cases h
  | cons b impls ih =>
    obtain ⟨k, status⟩ := b
    cases status with
    | noImpl stack =>
      unfold tableLoop at h
      split at h
      · exact ih h
      · cases h
        exact ⟨k, rfl⟩
    | impl i stack => exact ih h

end Libs

end Dune.Rules
