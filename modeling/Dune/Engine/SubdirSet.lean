import Dune.Engine.DirSetLaws

/-!
# Sets of sub-directories

`subdir_set.ml`, and what the set of the sub-directories of a set of directories holds
(`T0.keeps`).
-/

namespace Dune.Engine

open Dune.Stdune

inductive SubdirSet where
  | all
  | these (set : List Filename)

namespace SubdirSet

def empty : SubdirSet := .these []

def toDirSet : SubdirSet → T0
  | .all => .universal
  | .these s => s.foldl (fun acc path => acc.union (T0.singleton [path])) .empty

def mem : SubdirSet → Filename → Bool
  | .all, _ => true
  | .these s, dir => s.contains dir

def union : SubdirSet → SubdirSet → SubdirSet
  | .all, _ | _, .all => .all
  | .these a, .these b => .these (a ++ b)

/-- `Subdir_set.of_dir_set`, with `Dir_set.toplevel_subdirs`. -/
def ofDirSet : T0 → SubdirSet
  | .universal => .all
  | .empty => .these []
  | .nontrivial default _ exceptions => if default then .all else .these (exceptions.map Prod.fst)

end SubdirSet

namespace T0

/-- The directory is one of the sub-directories of the set. -/
def keeps (t : T0) (name : Filename) : Bool := (SubdirSet.ofDirSet t).mem name

@[simp]
theorem keeps_empty (name : Filename) : keeps .empty name = false := rfl

@[simp]
theorem keeps_universal (name : Filename) : keeps .universal name = true := rfl

variable {name : Filename} {exceptions : List (Filename × T0)} {default here : Bool}

theorem keeps_nontrivial :
    keeps (.nontrivial default here exceptions) name = true ↔
      default = true ∨ (Map.find exceptions name).isSome := by
  rw [Map.find_isSome, keeps, SubdirSet.ofDirSet]
  cases default <;> simp [SubdirSet.mem]

theorem keeps_trivial {b : Bool} : keeps (trivial b) name = b := by
  cases b <;> rfl

/-- The sub-directory above a directory of the set is kept. -/
theorem keeps_of_mem {t : T0} {rest : List Filename} (h : mem t (name :: rest) = true) :
    keeps t name = true := by
  cases t with
  | empty => cases h
  | universal => rfl
  | nontrivial default here exceptions =>
    rw [keeps_nontrivial]
    unfold mem at h
    split at h
    · exact .inl h
    · next hfind => exact .inr (by rw [hfind]; rfl)

theorem keeps_of_descend {t : T0} {name' : Filename} (h : keeps (descend t name) name' = true) :
    keeps t name = true := by
  cases t with
  | empty => cases h
  | universal => rfl
  | nontrivial default here exceptions =>
    rw [keeps_nontrivial]
    simp only [descend] at h
    split at h
    · exact .inl (by rwa [keeps_trivial] at h)
    · next hfind => exact .inr (by rw [hfind]; rfl)

theorem keeps_create :
    keeps (create default here exceptions) name = true ↔
      default = true ∨ (Map.find exceptions name).isSome := by
  unfold create
  split
  · next h =>
    have hnil : exceptions = [] := by simp_all
    rw [keeps_trivial, hnil]
    simp
  · exact keeps_nontrivial

theorem keeps_union {x y : T0} (h : keeps (union x y) name = true) :
    keeps x name = true ∨ keeps y name = true := by
  cases x with
  | empty => exact .inr h
  | universal => exact .inl rfl
  | nontrivial aDefault aHere a =>
    cases y with
    | empty => exact .inl h
    | universal => exact .inr rfl
    | nontrivial bDefault bHere b =>
      rw [union_nontrivial, mergeNontrivial, keeps_create, mergeExceptions, Map.find_merge] at h
      rw [keeps_nontrivial, keeps_nontrivial]
      obtain h | h := h
      · exact (Bool.or_eq_true _ _ ▸ h).imp .inl .inl
      · split at h
        · next hkey => exact hkey.imp .inr .inr
        · cases h

section Fold

variable {α : Type} {f : α → T0} {l : List α}

theorem keeps_foldl_union {acc : T0}
    (h : keeps (l.foldl (fun acc a => acc.union (f a)) acc) name = true) :
    keeps acc name = true ∨ ∃ a ∈ l, keeps (f a) name = true := by
  induction l generalizing acc with
  | nil => exact .inl h
  | cons x l ih =>
    obtain h | ⟨a, ha, h⟩ := ih h
    · exact (keeps_union h).imp_right fun h => ⟨x, List.mem_cons_self, h⟩
    · exact .inr ⟨a, List.mem_cons_of_mem _ ha, h⟩

theorem mem_foldl_union {acc : T0} {d : List Filename} {a : α} (ha : a ∈ l)
    (h : mem (f a) d = true) : mem (l.foldl (fun acc a => acc.union (f a)) acc) d = true := by
  have hacc : ∀ (l : List α) (acc : T0), mem acc d = true →
      mem (l.foldl (fun acc a => acc.union (f a)) acc) d = true := by
    intro l
    induction l with
    | nil => exact fun acc hacc => hacc
    | cons x l ih => exact fun acc hacc => ih _ (by rw [mem_union, hacc, Bool.true_or])
  induction l generalizing acc with
  | nil => cases ha
  | cons x l ih =>
    obtain rfl | ha := List.mem_cons.mp ha
    · exact hacc l _ (by rw [mem_union, h, Bool.or_true])
    · exact ih ha

end Fold

theorem keeps_unionAll {l : List T0} (h : keeps (unionAll l) name = true) :
    ∃ t ∈ l, keeps t name = true :=
  (keeps_foldl_union (f := id) h).resolve_left (by simp)

theorem keeps_singleton {p : List Filename} (h : keeps (singleton p) name = true) :
    ∃ rest, p = name :: rest := by
  cases p with
  | nil => cases h
  | cons c rest =>
    rw [singleton, ofSubtreeGen, keeps_create] at h
    have hfind := h.resolve_left (by simp)
    rw [Map.find_singleton] at hfind
    split at hfind
    · next heq => exact ⟨rest, by rw [heq]⟩
    · cases hfind

end T0

theorem SubdirSet.keeps_toDirSet {s : SubdirSet} {name : Filename}
    (h : s.toDirSet.keeps name = true) : s.mem name = true := by
  cases s with
  | all => rfl
  | these l =>
    obtain ⟨path, hpath, h⟩ := (T0.keeps_foldl_union h).resolve_left (by simp)
    obtain ⟨rest, heq⟩ := T0.keeps_singleton h
    rw [← (List.cons.inj heq).1]
    simpa [mem] using hpath

end Dune.Engine
