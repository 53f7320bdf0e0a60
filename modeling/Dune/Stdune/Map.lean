import Mathlib

/-!
# Finite maps

A finite map is the list of its bindings in the order of their keys, each key once. The bindings
are a plain list, so that a type of trees may have maps of trees in its constructors; `Sorted` says
that a list is a map, and two maps are equal when they have the same bindings.
-/

open List

namespace Dune.Stdune.Map

section
variable {K V W X : Type} [LinearOrder K]

/-- Bindings in the order of their keys. -/
def Sorted (m : List (K × V)) : Prop := m.Pairwise fun a b => a.1 < b.1

def find : List (K × V) → K → Option V
  | [], _ => none
  | (k, v) :: m, key => if k = key then some v else find m key

def singleton (k : K) (v : V) : List (K × V) := [(k, v)]

def set (key : K) (v : V) : List (K × V) → List (K × V)
  | [] => [(key, v)]
  | (k, w) :: m =>
    if key < k then (key, v) :: (k, w) :: m
    else if key = k then (key, v) :: m
    else (k, w) :: set key v m

def remove (key : K) (m : List (K × V)) : List (K × V) := m.filter fun b => b.1 ≠ key

def mapi (f : K → V → W) (m : List (K × V)) : List (K × W) := m.map fun b => (b.1, f b.1 b.2)

/-- A key at its place in a list of keys. -/
def insertKey (key : K) : List K → List K
  | [] => [key]
  | k :: ks =>
    if key < k then key :: k :: ks else if key = k then k :: ks else k :: insertKey key ks

def mergeKeys (a : List (K × V)) (b : List (K × W)) : List K :=
  (b.map Prod.fst).foldr insertKey (a.map Prod.fst)

/-- `Map.merge`: every key of one of the maps, with what the function makes of its bindings. -/
def merge (f : K → Option V → Option W → Option X) (a : List (K × V)) (b : List (K × W)) :
    List (K × X) :=
  (mergeKeys a b).filterMap fun k => (f k (find a k) (find b k)).map (k, ·)

def union (f : K → V → V → Option V) (a b : List (K × V)) : List (K × V) :=
  merge (fun k x y =>
    match x, y with
    | some x, some y => f k x y
    | some x, none => some x
    | none, y => y) a b

/-- `Map.is_subset`: the exception that leaves the merge when a binding of the first map has no
counterpart is the answer `false`. -/
def isSubset (f : V → W → Bool) (t : List (K × V)) (of : List (K × W)) : Bool :=
  (mergeKeys t of).all fun k =>
    match find t k, find of k with
    | none, _ => true
    | some _, none => false
    | some x, some y => f x y

/-! ## Lookup -/

@[simp]
theorem find_nil (key : K) : find ([] : List (K × V)) key = none := rfl

@[simp]
theorem find_cons (k : K) (v : V) (m : List (K × V)) (key : K) :
    find ((k, v) :: m) key = if k = key then some v else find m key := rfl

variable {m a b : List (K × V)} {k key : K} {v : V} {f : K → V → V → Option V}

theorem mem_of_find (h : find m k = some v) : (k, v) ∈ m := by
  induction m with
  | nil => cases h
  | cons b m ih =>
    obtain ⟨k', v'⟩ := b
    rw [find_cons] at h
    split at h
    · next heq =>
      cases h
      exact heq ▸ mem_cons_self
    · exact mem_cons_of_mem _ (ih h)

theorem find_eq_none : find m k = none ↔ k ∉ m.map Prod.fst := by
  induction m with
  | nil => simp
  | cons b m ih =>
    obtain ⟨k', v'⟩ := b
    rw [find_cons]
    split
    · next heq => simp [heq]
    · next hne => simp [ih, Ne.symm hne]

theorem find_isSome : (find m k).isSome ↔ k ∈ m.map Prod.fst := by
  rw [← not_iff_not, ← find_eq_none, Option.not_isSome_iff_eq_none]

theorem Sorted.tail {b : K × V} (h : Sorted (b :: m)) : Sorted m :=
  (pairwise_cons.mp h).2

theorem Sorted.find_of_mem (h : Sorted m) (hmem : (k, v) ∈ m) : find m k = some v := by
  induction m with
  | nil => cases hmem
  | cons b m ih =>
    obtain ⟨k', v'⟩ := b
    rw [find_cons]
    rcases mem_cons.mp hmem with heq | hmem
    · cases heq
      exact if_pos rfl
    · have hlt : k' < k := (pairwise_cons.mp h).1 _ hmem
      rw [if_neg (ne_of_lt hlt)]
      exact ih h.tail hmem

theorem Sorted.filterMap_key (h : Sorted m) (key : K) :
    (m.filterMap fun b => if b.1 = key then some b.2 else none) = (find m key).toList := by
  induction m with
  | nil => rfl
  | cons b m ih =>
    obtain ⟨k, v⟩ := b
    rw [filterMap_cons, find_cons, ih h.tail]
    by_cases hk : k = key
    · subst hk
      have hnone : find m k = none := by
        rw [find_eq_none]
        intro hmem
        obtain ⟨c, hc, heq⟩ := mem_map.mp hmem
        exact absurd ((pairwise_cons.mp h).1 c hc) (by rw [heq]; exact lt_irrefl _)
      simp [hnone]
    · simp [hk]

theorem find_set (key : K) (v : V) (m : List (K × V)) (k : K) :
    find (set key v m) k = if key = k then some v else find m k := by
  fun_induction set key v m with
  | case1 | case2 => rfl
  | case3 =>
    rw [find_cons, find_cons]
    split <;> rfl
  | case4 k' w m _ hne ih =>
    rw [find_cons, find_cons, ih]
    split
    · next heq => rw [if_neg (heq ▸ hne)]
    · rfl

theorem mem_set {b : K × V} (h : b ∈ set key v m) : b = (key, v) ∨ b ∈ m := by
  fun_induction set key v m with
  | case1 => exact .inl (mem_singleton.mp h)
  | case2 => exact mem_cons.mp h
  | case3 => exact (mem_cons.mp h).imp_right (mem_cons_of_mem _)
  | case4 k' w m _ _ ih =>
    obtain rfl | h := mem_cons.mp h
    · exact .inr mem_cons_self
    · exact (ih h).imp_right (mem_cons_of_mem _)

theorem Sorted.set (h : Sorted m) (key : K) (v : V) : Sorted (Map.set key v m) := by
  fun_induction Map.set key v m with
  | case1 => exact pairwise_singleton _ _
  | case2 k' w m hlt =>
    have hhead := (pairwise_cons.mp h).1
    exact pairwise_cons.mpr ⟨forall_mem_cons.mpr ⟨hlt, fun b hb => lt_trans hlt (hhead b hb)⟩, h⟩
  | case3 => exact pairwise_cons.mpr (pairwise_cons.mp h)
  | case4 k' w m hnlt hne ih =>
    refine pairwise_cons.mpr ⟨fun b hb => ?_, ih h.tail⟩
    obtain rfl | hb := mem_set hb
    · exact lt_of_le_of_ne (not_lt.mp hnlt) (Ne.symm hne)
    · exact (pairwise_cons.mp h).1 b hb

theorem Sorted.ext (ha : Sorted a) (hb : Sorted b) (h : ∀ k, find a k = find b k) : a = b := by
  have : Std.Irrefl fun x y : K × V => x.1 < y.1 := ⟨fun x => lt_irrefl x.1⟩
  refine Pairwise.eq_of_mem_iff ha hb fun x => ⟨fun hmem => ?_, fun hmem => ?_⟩
  · exact mem_of_find (h x.1 ▸ ha.find_of_mem hmem)
  · exact mem_of_find ((h x.1).symm ▸ hb.find_of_mem hmem)

theorem Sorted.nodup_keys (h : Sorted m) : (m.map Prod.fst).Nodup :=
  pairwise_map.mpr (h.imp ne_of_lt)

/-! ## Operations -/

theorem sorted_nil : Sorted ([] : List (K × V)) := List.Pairwise.nil

theorem sorted_singleton (k : K) (v : V) : Sorted (singleton k v) := pairwise_singleton _ _

theorem find_singleton (k : K) (v : V) (key : K) :
    find (singleton k v) key = if k = key then some v else none := rfl

theorem find_remove (key : K) (m : List (K × V)) (k : K) :
    find (remove key m) k = if key = k then none else find m k := by
  induction m with
  | nil => exact (ite_self _).symm
  | cons b m ih =>
    obtain ⟨k', v⟩ := b
    rw [remove, filter_cons]
    by_cases hk : k' = key
    · subst hk
      rw [if_neg (by simp), find_cons]
      refine ih.trans ?_
      split <;> rfl
    · rw [if_pos (by simpa using hk), find_cons, find_cons]
      by_cases heq : k' = k
      · subst heq
        rw [if_pos rfl, if_pos rfl, if_neg (Ne.symm hk)]
      · rw [if_neg heq, if_neg heq]
        exact ih

theorem Sorted.remove (h : Sorted m) (key : K) : Sorted (remove key m) :=
  h.filter _

theorem find_mapi (f : K → V → W) (m : List (K × V)) (k : K) :
    find (mapi f m) k = (find m k).map (f k) := by
  induction m with
  | nil => rfl
  | cons b m ih =>
    obtain ⟨k', v'⟩ := b
    show (if k' = k then some (f k' v') else find (mapi f m) k) = _
    rw [ih, find_cons]
    split
    · next heq => rw [heq]; rfl
    · rfl

omit [LinearOrder K] in
theorem keys_mapi (f : K → V → W) (m : List (K × V)) :
    (mapi f m).map Prod.fst = m.map Prod.fst := by
  rw [mapi, map_map]
  rfl

theorem Sorted.mapi (h : Sorted m) (f : K → V → W) : Sorted (mapi f m) :=
  pairwise_map.mpr h

theorem mem_insertKey {ks : List K} : k ∈ insertKey key ks ↔ k = key ∨ k ∈ ks := by
  fun_induction insertKey key ks with
  | case1 => simp
  | case2 => exact mem_cons
  | case3 => simp
  | case4 k' ks _ _ ih =>
    rw [mem_cons, ih, mem_cons]
    exact or_left_comm

theorem insertKey_sorted {ks : List K} (h : ks.Pairwise (· < ·)) :
    (insertKey key ks).Pairwise (· < ·) := by
  fun_induction insertKey key ks with
  | case1 => exact pairwise_singleton _ _
  | case2 k ks hlt =>
    have hhead := (pairwise_cons.mp h).1
    exact pairwise_cons.mpr ⟨forall_mem_cons.mpr ⟨hlt, fun k' hk' => hlt.trans (hhead k' hk')⟩, h⟩
  | case3 => exact h
  | case4 k ks hnlt hne ih =>
    obtain ⟨hhead, htail⟩ := pairwise_cons.mp h
    refine pairwise_cons.mpr ⟨fun k' hk' => ?_, ih htail⟩
    rcases mem_insertKey.mp hk' with rfl | hk'
    · exact lt_of_le_of_ne (not_lt.mp hnlt) (Ne.symm hne)
    · exact hhead k' hk'

theorem mem_mergeKeys {b : List (K × W)} :
    k ∈ mergeKeys a b ↔ k ∈ a.map Prod.fst ∨ k ∈ b.map Prod.fst := by
  rw [mergeKeys]
  induction b.map Prod.fst with
  | nil => simp
  | cons key ks ih =>
    rw [foldr_cons, mem_insertKey, ih, mem_cons]
    exact or_left_comm

theorem Sorted.mergeKeys (h : Sorted a) (b : List (K × W)) : (mergeKeys a b).Pairwise (· < ·) := by
  rw [Map.mergeKeys]
  induction b.map Prod.fst with
  | nil => exact pairwise_map.mpr h
  | cons key ks ih => exact insertKey_sorted ih

section
variable {f : K → Option V → Option W → Option X} {a : List (K × V)} {b : List (K × W)}

theorem find_filterMap (g : K → Option X) (ks : List K) (k : K) :
    find (ks.filterMap fun k => (g k).map (k, ·)) k = if k ∈ ks then g k else none := by
  induction ks with
  | nil => rfl
  | cons k' ks ih =>
    rw [filterMap_cons]
    by_cases hk : k' = k
    · subst hk
      rw [if_pos mem_cons_self]
      cases hg : g k' with
      | some x => exact if_pos rfl
      | none =>
        show find (ks.filterMap fun k => (g k).map (k, ·)) k' = none
        rw [ih, hg, ite_self]
    · have hmem : k ∈ k' :: ks ↔ k ∈ ks := by simp [Ne.symm hk]
      simp only [hmem, ← ih]
      cases g k' with
      | some x => exact if_neg hk
      | none => rfl

theorem find_merge (k : K) : find (merge f a b) k =
    if (find a k).isSome ∨ (find b k).isSome then f k (find a k) (find b k) else none := by
  rw [merge, find_filterMap (fun k => f k (find a k) (find b k))]
  simp only [mem_mergeKeys, find_isSome]

/-- The usual case: a key of none of the maps gets no binding. -/
theorem find_merge_of_none (hf : f k none none = none) :
    find (merge f a b) k = f k (find a k) (find b k) := by
  rw [find_merge]
  split
  · rfl
  · next h =>
    rw [not_or, Option.not_isSome_iff_eq_none, Option.not_isSome_iff_eq_none] at h
    rw [h.1, h.2, hf]

theorem Sorted.merge (ha : Sorted a) : Sorted (merge f a b) := by
  rw [Map.merge, Sorted, pairwise_filterMap]
  refine (ha.mergeKeys b).imp fun {k k'} hlt x hx y hy => ?_
  obtain ⟨x', -, rfl⟩ := Option.map_eq_some_iff.mp hx
  obtain ⟨y', -, rfl⟩ := Option.map_eq_some_iff.mp hy
  exact hlt

theorem merge_congr {g : K → Option V → Option W → Option X}
    (h : ∀ k, f k (find a k) (find b k) = g k (find a k) (find b k)) :
    merge f a b = merge g a b := by
  rw [merge, merge]
  exact filterMap_congr fun k _ => by rw [h k]

end

theorem find_union (k : K) :
    find (union f a b) k =
      match find a k, find b k with
      | some x, some y => f k x y
      | some x, none => some x
      | none, y => y :=
  find_merge_of_none rfl

theorem Sorted.union (ha : Sorted a) : Sorted (union f a b) := ha.merge

theorem union_congr {g : K → V → V → Option V}
    (h : ∀ k x y, find a k = some x → find b k = some y → f k x y = g k x y) :
    union f a b = union g a b := by
  refine merge_congr fun k => ?_
  cases hx : find a k with
  | none => rfl
  | some x =>
    cases hy : find b k with
    | none => rfl
    | some y => exact h k x y hx hy

omit [LinearOrder K] in
theorem mapi_congr {f g : K → V → W} (h : ∀ b ∈ m, f b.1 b.2 = g b.1 b.2) : mapi f m = mapi g m :=
  map_congr_left fun b hb => by rw [h b hb]

theorem isSubset_iff {f : V → W → Bool} {t : List (K × V)} {of : List (K × W)} :
    isSubset f t of = true ↔
      ∀ k x, find t k = some x → ∃ y, find of k = some y ∧ f x y = true := by
  rw [isSubset, all_eq_true]
  constructor
  · intro h k x hx
    have hk := h k (mem_mergeKeys.mpr (.inl (find_isSome.mp (by rw [hx]; rfl))))
    rw [hx] at hk
    split at hk
    · next heq => cases heq
    · cases hk
    · next y heq hy =>
      cases heq
      exact ⟨y, hy, hk⟩
  · intro h k _
    cases hx : find t k with
    | none => rfl
    | some x =>
      obtain ⟨y, hy, hf⟩ := h k x hx
      rw [hy]
      exact hf

end

end Dune.Stdune.Map
