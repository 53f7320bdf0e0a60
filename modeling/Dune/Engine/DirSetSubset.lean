import Dune.Engine.DirSetLaws

/-!
# Inclusion of sets of directories

`is_subset` compares the exceptions of two sets key by key: a key of the first set that is not a key
of the second is a failure, and the other keys of the second set are not looked at. The answer is
compared with inclusion of the members.
-/

namespace Dune.Engine

open Dune.Stdune Map

namespace T0

theorem isSubsetUpTo_stable : ∀ {n m : Nat} {x y : T0}, x.depth < n → x.depth < m →
    isSubsetUpTo n x y = isSubsetUpTo m x y
  | n + 1, m + 1, x, .universal, _, _ => by cases x <;> rfl
  | n + 1, m + 1, .empty, y, _, _ => by cases y <;> rfl
  | n + 1, m + 1, .universal, .empty, _, _ => rfl
  | n + 1, m + 1, .universal, .nontrivial _ _ _, _, _ => rfl
  | n + 1, m + 1, .nontrivial _ _ _, .empty, _, _ => rfl
  | n + 1, m + 1, .nontrivial _ xHere a, .nontrivial _ yHere b, hn, hm => by
    rw [depth] at hn hm
    have hmap : Map.isSubset (isSubsetUpTo n) a b = Map.isSubset (isSubsetUpTo m) a b := by
      have hchild : ∀ k x, Map.find a k = some x →
          ∀ y, isSubsetUpTo n x y = isSubsetUpTo m x y := by
        intro k x hx y
        have := depth_of_mem (Map.mem_of_find hx)
        exact isSubsetUpTo_stable (by omega) (by omega)
      rw [Bool.eq_iff_iff, Map.isSubset_iff, Map.isSubset_iff]
      refine forall_congr' fun k => forall_congr' fun x => forall_congr' fun hx => ?_
      simp only [hchild k x hx]
    rw [isSubsetUpTo, isSubsetUpTo, hmap]

theorem isSubset_nontrivial {xDefault xHere yDefault yHere : Bool} {a b : List (Filename × T0)} :
    isSubset (.nontrivial xDefault xHere a) (.nontrivial yDefault yHere b) = true ↔
      (xHere = true → yHere = true) ∧ (xDefault = true → yDefault = true) ∧
        ∀ k x, find a k = some x → ∃ y, find b k = some y ∧ isSubset x y = true := by
  have hstable : ∀ k x, find a k = some x → ∀ y,
      isSubsetUpTo (depth (.nontrivial xDefault xHere a)) x y = isSubset x y := by
    intro k x hx y
    have := depth_of_mem (mem_of_find hx)
    refine isSubsetUpTo_stable ?_ (Nat.lt_succ_self _)
    rw [depth]
    omega
  rw [isSubset, isSubsetUpTo, Bool.and_eq_true, Bool.and_eq_true, isSubset_iff, and_assoc]
  refine and_congr ?_ (and_congr ?_ ?_)
  · cases xHere <;> simp
  · cases xDefault <;> simp
  · refine forall_congr' fun k => forall_congr' fun x => forall_congr' fun hx => ?_
    simp only [hstable k x hx]

/-! ## Common exceptions -/

/-- `a` and `b` are what `x` and `y` say about one directory, all of whose components are exceptions
of both. -/
inductive Common : T0 → T0 → T0 → T0 → Prop where
  | refl (x y : T0) : Common x y x y
  | child {x y x' y' a b : T0} {k : Filename} (hx : find x.exceptions k = some x')
      (hy : find y.exceptions k = some y') (h : Common x' y' a b) : Common x y a b

/-- The comparison of the two sets themselves, without the exceptions, fails. -/
def Clash (a b : T0) : Prop :=
  b ≠ .universal ∧ a ≠ .empty ∧ (a = .universal ∨ b = .empty ∨ (a.here = true ∧ b.here = false) ∨
    (a.default = true ∧ b.default = false))

/-- The first set has an exception that the second has not. -/
def Missing (a b : T0) : Prop :=
  b ≠ .universal ∧ ∃ k, (find a.exceptions k).isSome ∧ find b.exceptions k = none

/-- The second set has an exception that the first has not. -/
def Extra (a b : T0) : Prop :=
  ∃ k, find a.exceptions k = none ∧ (find b.exceptions k).isSome

def Subset (x y : T0) : Prop := ∀ d, mem x d = true → mem y d = true

variable {x y : T0}

theorem Canonical.exception {t : T0} {k : Filename} (h : Canonical x)
    (hk : find x.exceptions k = some t) : t ≠ trivial x.default ∧ Canonical t := by
  cases x with
  | empty | universal => cases hk
  | nontrivial default here m => exact h.child hk

/-- A property that is decided by a condition on the sets and the same property of the common
exceptions is a condition on all pairs of common exceptions. -/
theorem forall_common {Q P : T0 → T0 → Prop}
    (hstep : ∀ x y, Canonical x → Canonical y → (Q x y ↔ P x y ∧ ∀ k x' y',
      find x.exceptions k = some x' → find y.exceptions k = some y' → Q x' y'))
    (hx : Canonical x) (hy : Canonical y) : Q x y ↔ ∀ a b, Common x y a b → P a b := by
  induction x using exceptionsInduct generalizing y with
  | step x ih =>
    rw [hstep x y hx hy]
    have hchild : ∀ {k x' y'}, find x.exceptions k = some x' →
        find y.exceptions k = some y' → (Q x' y' ↔ ∀ a b, Common x' y' a b → P a b) :=
      fun hx' hy' => ih _ _ hx' (hx.exception hx').2 (hy.exception hy').2
    constructor
    · rintro ⟨hP, hQ⟩ a b hab
      cases hab with
      | refl => exact hP
      | child hx' hy' h => exact (hchild hx' hy').mp (hQ _ _ _ hx' hy') a b h
    · intro h
      refine ⟨h x y (.refl x y), fun k x' y' hx' hy' => (hchild hx' hy').mpr fun a b hab => ?_⟩
      exact h a b (.child hx' hy' hab)

theorem isSubset_step (x y : T0) : isSubset x y = true ↔ (¬Clash x y ∧ ¬Missing x y) ∧ ∀ k x' y',
    find x.exceptions k = some x' → find y.exceptions k = some y' → isSubset x' y' = true := by
  cases x with
  | empty | universal => cases y <;> simp [isSubset, isSubsetUpTo, Clash, Missing, exceptions]
  | nontrivial xDefault xHere a =>
    cases y with
    | empty => simp [isSubset, isSubsetUpTo, Clash]
    | universal => simp [isSubset, isSubsetUpTo, Clash, Missing, exceptions]
    | nontrivial yDefault yHere b =>
      rw [isSubset_nontrivial]
      constructor
      · rintro ⟨hhere, hdefault, hall⟩
        refine ⟨⟨?_, ?_⟩, ?_⟩
        · rintro ⟨-, -, h | h | ⟨h, h'⟩ | ⟨h, h'⟩⟩
          · cases h
          · cases h
          · exact Bool.false_ne_true (h'.symm.trans (hhere h))
          · exact Bool.false_ne_true (h'.symm.trans (hdefault h))
        · rintro ⟨-, k, hsome, hnone⟩
          obtain ⟨x, hx⟩ := Option.isSome_iff_exists.mp hsome
          obtain ⟨y, hy, -⟩ := hall k x hx
          cases hnone.symm.trans hy
        · intro k x y hx hy
          obtain ⟨y', hy', hsubset⟩ := hall k x hx
          cases hy'.symm.trans hy
          exact hsubset
      · rintro ⟨⟨hclash, hmissing⟩, hall⟩
        refine ⟨fun h => ?_, fun h => ?_, fun k x hx => ?_⟩
        · by_contra h'
          exact hclash ⟨nofun, nofun, .inr (.inr (.inl ⟨h, Bool.eq_false_iff.mpr h'⟩))⟩
        · by_contra h'
          exact hclash ⟨nofun, nofun, .inr (.inr (.inr ⟨h, Bool.eq_false_iff.mpr h'⟩))⟩
        · cases hy : find b k with
          | none => exact absurd ⟨nofun, k, Option.isSome_iff_exists.mpr ⟨x, hx⟩, hy⟩ hmissing
          | some y => exact ⟨y, rfl, hall k x y hx hy⟩

/-! ## Inclusion -/

theorem subset_iff_descend : Subset x y ↔ (x.here = true → y.here = true) ∧
    ∀ c, Subset (descend x c) (descend y c)  := by
  constructor
  · intro h
    refine ⟨fun hx => ?_, fun c d hd => ?_⟩
    · rw [← mem_nil] at hx ⊢
      exact h [] hx
    · rw [mem_descend] at hd ⊢
      exact h (c :: d) hd
  · rintro ⟨hhere, hchild⟩ d hd
    cases d with
    | nil =>
      rw [mem_nil] at hd ⊢
      exact hhere hd
    | cons c d =>
      rw [← mem_descend] at hd ⊢
      exact hchild c d hd

theorem subset_empty (hx : Canonical x) (h : Subset x .empty) : x = .empty := by
  refine hx.eq_trivial (b := false) fun d => Bool.eq_false_iff.mpr fun hd => ?_
  have := h d hd
  rw [mem_empty] at this
  cases this

theorem universal_subset (hy : Canonical y) (h : Subset .universal y) : y = .universal :=
  hy.eq_trivial (b := true) fun d => h d (mem_universal d)

theorem Subset.default (h : Subset x y) (hx : x.default = true) : y.default = true := by
  obtain ⟨c, hcx, hcy⟩ := exists_fresh x.exceptions y.exceptions
  have hc := (subset_iff_descend.mp h).2 c []
  rw [descend_eq, descend_eq, hcx, hcy, Option.getD_none, Option.getD_none, mem_trivial,
    mem_trivial] at hc
  exact hc hx

theorem subset_step (x y : T0) (hx : Canonical x) (hy : Canonical y) :
    Subset x y ↔ (¬Clash x y ∧ ¬(Missing x y ∧ y.default = false) ∧
      ¬(Extra x y ∧ x.default = true)) ∧
      ∀ k x' y', find x.exceptions k = some x' → find y.exceptions k = some y' →
        Subset x' y' := by
  constructor
  · intro h
    obtain ⟨hhere, hchild⟩ := subset_iff_descend.mp h
    simp only [descend_eq] at hchild
    refine ⟨⟨?_, ?_, ?_⟩, ?_⟩
    · rintro ⟨hne, hne', rfl | rfl | ⟨h₁, h₂⟩ | ⟨h₁, h₂⟩⟩
      · exact hne (universal_subset hy h)
      · exact hne' (subset_empty hx h)
      · exact Bool.false_ne_true (h₂.symm.trans (hhere h₁))
      · exact Bool.false_ne_true (h₂.symm.trans (h.default h₁))
    · rintro ⟨⟨-, k, hsome, hnone⟩, hdefault⟩
      obtain ⟨t, ht⟩ := Option.isSome_iff_exists.mp hsome
      obtain ⟨hne, hcanonical⟩ := hx.exception ht
      have hk := hchild k
      rw [ht, hnone, hdefault] at hk
      have hxdefault : x.default = false :=
        Bool.eq_false_iff.mpr fun htrue =>
          Bool.false_ne_true (hdefault.symm.trans (h.default htrue))
      rw [hxdefault] at hne
      exact hne (subset_empty hcanonical hk)
    · rintro ⟨⟨k, hnone, hsome⟩, hdefault⟩
      obtain ⟨t, ht⟩ := Option.isSome_iff_exists.mp hsome
      obtain ⟨hne, hcanonical⟩ := hy.exception ht
      have hk := hchild k
      rw [ht, hnone, hdefault] at hk
      rw [h.default hdefault] at hne
      exact hne (universal_subset hcanonical hk)
    · intro k x' y' hx' hy'
      have hk := hchild k
      rwa [hx', hy'] at hk
  · rintro ⟨⟨hclash, hmissing, hextra⟩, hall⟩
    by_cases hyu : y = .universal
    · rw [hyu]
      exact fun d _ => mem_universal d
    by_cases hxe : x = .empty
    · rw [hxe]
      exact fun d hd => absurd ((mem_empty d).symm.trans hd) Bool.false_ne_true
    refine subset_iff_descend.mpr ⟨fun hhere => ?_, fun k => ?_⟩
    · by_contra hnot
      exact hclash ⟨hyu, hxe, .inr (.inr (.inl ⟨hhere, Bool.eq_false_iff.mpr hnot⟩))⟩
    rw [descend_eq, descend_eq]
    cases hxk : find x.exceptions k with
    | some x' =>
      cases hyk : find y.exceptions k with
      | some y' => exact hall k x' y' hxk hyk
      | none =>
        intro d _
        rw [Option.getD_none, mem_trivial]
        by_contra hnot
        exact hmissing ⟨⟨hyu, k, by rw [hxk]; rfl, hyk⟩, Bool.eq_false_iff.mpr hnot⟩
    | none =>
      intro d hd
      rw [Option.getD_none, mem_trivial] at hd
      cases hyk : find y.exceptions k with
      | some y' => exact absurd ⟨⟨k, hxk, by rw [hyk]; rfl⟩, hd⟩ hextra
      | none =>
        rw [Option.getD_none, mem_trivial]
        by_contra hnot
        exact hclash ⟨hyu, hxe, .inr (.inr (.inr ⟨hd, Bool.eq_false_iff.mpr hnot⟩))⟩

end T0

namespace DirSet

/-- A directory all of whose components are exceptions of both sets, with what they say there. -/
def Common (x y : DirSet) (a b : T0) : Prop := T0.Common x.tree y.tree a b

/-- `is_subset` is right about two sets when the comparison fails at some common exception, or when
there are exceptions of the first set that the second has not exactly if this, or an exception of
the second set that the first has not, puts a directory of the first set outside of the second. -/
theorem isSubset_exact_iff (x y : DirSet) :
    (isSubset x y = true ↔ ∀ d, mem x d = true → mem y d = true) ↔
      (∃ a b, Common x y a b ∧ T0.Clash a b) ∨
        ((∃ a b, Common x y a b ∧ T0.Missing a b) ↔
          (∃ a b, Common x y a b ∧ T0.Missing a b ∧ b.default = false) ∨
            ∃ a b, Common x y a b ∧ T0.Extra a b ∧ a.default = true) := by
  have hanswer : isSubset x y = true ↔ (¬∃ a b, Common x y a b ∧ T0.Clash a b) ∧
      ¬∃ a b, Common x y a b ∧ T0.Missing a b := by
    rw [isSubset, T0.forall_common (fun x y _ _ => T0.isSubset_step x y) x.canonical y.canonical]
    simp [Common, forall_and]
  have hmembers : (∀ d, mem x d = true → mem y d = true) ↔
      (¬∃ a b, Common x y a b ∧ T0.Clash a b) ∧
        (¬∃ a b, Common x y a b ∧ T0.Missing a b ∧ b.default = false) ∧
          ¬∃ a b, Common x y a b ∧ T0.Extra a b ∧ a.default = true := by
    refine (T0.forall_common T0.subset_step x.canonical y.canonical).trans ?_
    simp [Common, forall_and]
  have hlogic : ∀ C M F E : Prop, (¬C ∧ ¬M ↔ ¬C ∧ ¬F ∧ ¬E) ↔ C ∨ (M ↔ F ∨ E) := by
    intro C M F E
    tauto
  rw [hanswer, hmembers]
  exact hlogic _ _ _ _

/-- The first answer is `true` although the directory `b` is only in the first set, the second is
`false` although everything below `a` is outside of `b`. -/
theorem isSubset_inexact : let a : Filename := ⟨Bytes.ascii "a", rfl⟩
    let b : Filename := ⟨Bytes.ascii "b", rfl⟩
    (isSubset (negate justTheRoot) (negate (subtree [b])) = true ∧
      mem (negate justTheRoot) [b] = true ∧ mem (negate (subtree [b])) [b] = false) ∧
    isSubset (subtree [a]) (negate (subtree [b])) = false ∧
      ∀ d, mem (subtree [a]) d = true → mem (negate (subtree [b])) d = true := by
  intro a b
  refine ⟨by decide, by decide, fun d hd => ?_⟩
  obtain ⟨rest, rfl⟩ := (T0.mem_subtree [a] d).mp hd
  refine (T0.mem_negate _ _).trans ?_
  rw [Bool.not_eq_true', Bool.eq_false_iff]
  intro hb
  exact absurd (List.cons_prefix_cons.mp ((T0.mem_subtree [b] _).mp hb)).1 (by decide)

end DirSet

end Dune.Engine
