import Mathlib

/-!
# Ivars that are filled once

Fibers create ivars and wait for them, and other fibers fill them. An ivar waits in a table, or it
has been taken out of the table by a fiber that is going to fill it, or it is full. When every step
of a component creates an ivar in the table, fills one that waits or has been taken, or takes what
waits (`Move`), then each ivar is in one of these places, once (`Accounted`). So none is filled
twice, and all are full when nothing waits and nothing is taken.
-/

open List

namespace Dune.Fiber

variable {K A : Type}

structure Ivars (K A : Type) where
  created : List K
  waiting : List K
  taken : List K
  filled : List (K × A)

namespace Ivars

inductive Move : Ivars K A → Ivars K A → Prop
  | keep {t : Ivars K A} {waiting : List K} (h : t.waiting.Perm waiting) : Move t { t with waiting }
  | create {t : Ivars K A} {k : K} (hk : k ∉ t.created) :
      Move t { t with created := k :: t.created, waiting := k :: t.waiting }
  | fillWaiting {t : Ivars K A} {k : K} {waiting : List K} (h : t.waiting.Perm (k :: waiting))
      (x : A) : Move t { t with waiting, filled := (k, x) :: t.filled }
  | take (t : Ivars K A) : Move t { t with waiting := [], taken := t.waiting ++ t.taken }
  | fillTaken {t : Ivars K A} {k : K} {taken : List K} (h : t.taken.Perm (k :: taken)) (x : A) :
      Move t { t with taken, filled := (k, x) :: t.filled }

/-- Each ivar is in one place. -/
structure Accounted (t : Ivars K A) : Prop where
  nodup : t.created.Nodup
  perm : (t.waiting ++ (t.taken ++ t.filled.map Prod.fst)).Perm t.created

theorem accounted_init : (⟨[], [], [], []⟩ : Ivars K A).Accounted := ⟨nodup_nil, .nil⟩

theorem Move.refl (t : Ivars K A) : Move t t := .keep (.refl _)

namespace Accounted

variable {t t' : Ivars K A}

section

variable (h : t.Accounted)
include h

theorem move (hmove : Move t t') : t'.Accounted := by
  cases hmove with
  | keep hw => exact ⟨h.nodup, (hw.symm.append_right _).trans h.perm⟩
  | create hk => exact ⟨nodup_cons.mpr ⟨hk, h.nodup⟩, h.perm.cons _⟩
  | @fillWaiting k waiting hw x =>
    refine ⟨h.nodup, .trans ?_ h.perm⟩
    have hout : (waiting ++ (t.taken ++ k :: t.filled.map Prod.fst)).Perm
        (waiting ++ (k :: (t.taken ++ t.filled.map Prod.fst))) := perm_middle.append_left _
    exact hout.trans (perm_middle.trans (hw.symm.append_right _))
  | take =>
    refine ⟨h.nodup, ?_⟩
    rw [nil_append, append_assoc]
    exact h.perm
  | @fillTaken k taken ht x =>
    refine ⟨h.nodup, .trans ?_ h.perm⟩
    exact (perm_middle.trans (ht.symm.append_right _)).append_left _

theorem nodup_all :
    (t.waiting ++ (t.taken ++ t.filled.map Prod.fst)).Nodup := h.perm.nodup_iff.mpr h.nodup

theorem nodup_filled : (t.filled.map Prod.fst).Nodup :=
  (nodup_append.mp (nodup_append.mp h.nodup_all).2.1).2.1

variable {k : K}

theorem not_filled_of_waiting (hk : k ∈ t.waiting) : k ∉ t.filled.map Prod.fst := fun hfilled =>
  (nodup_append.mp h.nodup_all).2.2 k hk k (mem_append_right _ hfilled) rfl

theorem not_filled_of_taken (hk : k ∈ t.taken) : k ∉ t.filled.map Prod.fst := fun hfilled =>
  (nodup_append.mp (nodup_append.mp h.nodup_all).2.1).2.2 k hk k hfilled rfl

theorem mem_created_iff :
    k ∈ t.created ↔ k ∈ t.waiting ∨ k ∈ t.taken ∨ k ∈ t.filled.map Prod.fst := by
  rw [← h.perm.mem_iff, mem_append, mem_append]

theorem filled_of_nil (hwaiting : t.waiting = []) (htaken : t.taken = []) (hk : k ∈ t.created) :
    k ∈ t.filled.map Prod.fst := by
  rcases h.mem_created_iff.mp hk with hk | hk | hk
  · rw [hwaiting] at hk
    cases hk
  · rw [htaken] at hk
    cases hk
  · exact hk

end

end Accounted

end Ivars

section Tables

variable {I V : Type} [DecidableEq I]

def Table.find (t : List (I × V)) (i : I) : Option V := (t.find? (·.1 = i)).map Prod.snd

def Table.remove (t : List (I × V)) (i : I) : List (I × V) := t.eraseP (·.1 = i)

theorem Table.perm_remove {t : List (I × V)} {i : I} {v : V} (h : Table.find t i = some v) :
    t.Perm ((i, v) :: Table.remove t i) := by
  induction t with
  | nil => cases h
  | cons b t ih =>
    obtain ⟨j, w⟩ := b
    simp only [Table.find, Table.remove, List.find?_cons, eraseP_cons] at h ⊢
    by_cases hj : j = i
    · subst hj
      simp only [decide_true, Option.map_some, Option.some.injEq] at h
      subst h
      simp
    · simp only [hj, decide_false] at h ⊢
      exact ((ih h).cons _).trans (.swap _ _ _)

end Tables

end Dune.Fiber
