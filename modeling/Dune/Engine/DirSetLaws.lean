import Dune.Engine.DirSet

/-!
# The laws of sets of directories

The equations of the recursive operations, what the operations do to the members, and the
canonical form in which the members determine the set.
-/

namespace Dune.Engine

open List Dune.Stdune Map T0

namespace T0

/-! ## Depth -/

variable {t : T0} {default here aDefault aHere bDefault bHere : Bool} {m a b : List (Filename × T0)}
  {c : Filename} {fOne : Bool → Bool → Bool} {fSet : T0 → T0 → T0}

theorem depth_of_mem {k : Filename} : ∀ {m : List (Filename × T0)}, (k, t) ∈ m → t.depth ≤ depths m
  | (k', t') :: m, h => by
    rw [depths]
    rcases List.mem_cons.mp h with heq | h
    · cases heq
      exact Nat.le_max_left _ _
    · exact Nat.le_trans (depth_of_mem h) (Nat.le_max_right _ _)

theorem depth_exception {x : T0} {k : Filename} (hk : find x.exceptions k = some t) :
    t.depth < x.depth := by
  cases x with
  | empty | universal => cases hk
  | nontrivial default here m => exact Nat.lt_succ_of_le (depth_of_mem (mem_of_find hk))

theorem exceptionsInduct {P : T0 → Prop}
    (step : ∀ x, (∀ k t, find x.exceptions k = some t → P t) → P x) (x : T0) : P x := by
  induction hn : x.depth using Nat.strong_induction_on generalizing x with
  | h n ih => exact step x fun k t hk => ih _ (hn ▸ depth_exception hk) t rfl

theorem depth_trivial (b : Bool) : (trivial b).depth = 0 := by cases b <;> rfl

/-- A child that is looked up, or the default in its place, is not deeper than the exceptions. -/
theorem depth_getD (m : List (Filename × T0)) (k : Filename) (b : Bool) :
    ((find m k).getD (trivial b)).depth ≤ depths m := by
  cases h : find m k with
  | none => exact Nat.le_trans (Nat.le_of_eq (depth_trivial b)) (Nat.zero_le _)
  | some t => exact depth_of_mem (mem_of_find h)

theorem mergeNontrivial_congr {f g : T0 → T0 → T0}
    (h : ∀ x y, x.depth ≤ depths a → y.depth ≤ depths b → f x y = g x y) :
    mergeNontrivial aDefault aHere a bDefault bHere b fOne f =
      mergeNontrivial aDefault aHere a bDefault bHere b fOne g := by
  rw [mergeNontrivial, mergeNontrivial, mergeExceptions, mergeExceptions]
  congr 1
  refine merge_congr fun k => ?_
  rw [h _ _ (depth_getD a k aDefault) (depth_getD b k bDefault)]

theorem upTo_stable : ∀ {n m : Nat} {x y : T0}, x.depth < n → y.depth < n → x.depth < m →
    y.depth < m → unionUpTo n x y = unionUpTo m x y ∧ interUpTo n x y = interUpTo m x y
  | n + 1, m + 1, .empty, y, _, _, _, _ => by cases y <;> exact ⟨rfl, rfl⟩
  | n + 1, m + 1, .universal, y, _, _, _, _ => by cases y <;> exact ⟨rfl, rfl⟩
  | n + 1, m + 1, .nontrivial _ _ _, .empty, _, _, _, _ => ⟨rfl, rfl⟩
  | n + 1, m + 1, .nontrivial _ _ _, .universal, _, _, _, _ => ⟨rfl, rfl⟩
  | n + 1, m + 1, .nontrivial _ _ a, .nontrivial _ _ b, hxn, hyn, hxm, hym => by
    rw [depth] at hxn hyn hxm hym
    have h (x y : T0) (hx : x.depth ≤ depths a) (hy : y.depth ≤ depths b) :=
      upTo_stable (n := n) (m := m) (x := x) (y := y) (by omega) (by omega) (by omega) (by omega)
    exact ⟨mergeNontrivial_congr fun x y hx hy => (h x y hx hy).1,
      mergeNontrivial_congr fun x y hx hy => (h x y hx hy).2⟩

theorem upTo_depth {x y : T0} (hx : x.depth ≤ depths a) (hy : y.depth ≤ depths b) :
    let n := max (depth (.nontrivial aDefault aHere a)) (depth (.nontrivial bDefault bHere b))
    unionUpTo n x y = union x y ∧ interUpTo n x y = inter x y := by
  have ha : depth (.nontrivial aDefault aHere a) = depths a + 1 := rfl
  have hb : depth (.nontrivial bDefault bHere b) = depths b + 1 := rfl
  apply upTo_stable <;> omega

theorem union_nontrivial :
    union (.nontrivial aDefault aHere a) (.nontrivial bDefault bHere b) =
      mergeNontrivial aDefault aHere a bDefault bHere b (· || ·) union :=
  mergeNontrivial_congr fun _ _ hx hy => (upTo_depth hx hy).1

theorem inter_nontrivial :
    inter (.nontrivial aDefault aHere a) (.nontrivial bDefault bHere b) =
      mergeNontrivial aDefault aHere a bDefault bHere b (· && ·) inter :=
  mergeNontrivial_congr fun _ _ hx hy => (upTo_depth hx hy).2

section

variable (x : T0)
include x

@[simp]
theorem empty_union : union .empty x = x := rfl

@[simp]
theorem union_empty : union x .empty = x := by cases x <;> rfl

@[simp]
theorem universal_union : union .universal x = .universal := by cases x <;> rfl

@[simp]
theorem union_universal : union x .universal = .universal := by cases x <;> rfl

@[simp]
theorem universal_inter : inter .universal x = x := rfl

@[simp]
theorem inter_universal : inter x .universal = x := by cases x <;> rfl

@[simp]
theorem empty_inter : inter .empty x = .empty := by cases x <;> rfl

@[simp]
theorem inter_empty : inter x .empty = .empty := by cases x <;> rfl

end

/-! ## Members -/

@[simp]
theorem mem_empty (d : List Filename) : mem .empty d = false := by cases d <;> rfl

@[simp]
theorem mem_universal (d : List Filename) : mem .universal d = true := by cases d <;> rfl

theorem mem_trivial (b : Bool) (d : List Filename) : mem (trivial b) d = b := by
  cases b <;> simp [trivial]

theorem mem_nil (t : T0) : mem t [] = t.here := by cases t <;> rfl

theorem mem_nontrivial_cons {d : List Filename} :
    mem (.nontrivial default here m) (c :: d) = mem ((find m c).getD (trivial default)) d := by
  rw [mem]
  cases find m c with
  | none => exact (mem_trivial default d).symm
  | some t => rfl

theorem mem_descend (t : T0) (c : Filename) (d : List Filename) :
    mem (descend t c) d = mem t (c :: d) := by
  cases t with
  | empty => rw [mem_empty]; exact mem_empty d
  | universal => rw [mem_universal]; exact mem_universal d
  | nontrivial default here m =>
    rw [mem_nontrivial_cons, descend]
    cases find m c <;> rfl

theorem descend_eq (x : T0) (c : Filename) :
    descend x c = (find x.exceptions c).getD (trivial x.default) := by
  cases x with
  | empty | universal => rfl
  | nontrivial default here m =>
    rw [descend]
    unfold exceptions T0.default
    cases find m c <;> rfl

theorem mem_create (d : List Filename) :
    mem (create default here m) d = mem (.nontrivial default here m) d := by
  rw [create]
  split
  · next h =>
    rw [Bool.and_eq_true, List.isEmpty_iff, beq_iff_eq] at h
    obtain ⟨rfl, rfl⟩ := h
    rw [mem_trivial]
    cases d <;> rfl
  · rfl

theorem unlessDefault_getD (b : Bool) (t : T0) : (unlessDefault b t).getD (trivial b) = t := by
  cases b <;> cases t <;> rfl

theorem mem_mergeNontrivial (htrivial : ∀ x y, fSet (trivial x) (trivial y) = trivial (fOne x y))
    (c : Filename) (d : List Filename) :
    mem (mergeNontrivial aDefault aHere a bDefault bHere b fOne fSet) (c :: d) =
      mem (fSet ((find a c).getD (trivial aDefault)) ((find b c).getD (trivial bDefault))) d := by
  rw [mergeNontrivial, mem_create, mem_nontrivial_cons, mergeExceptions,
    find_merge_of_none, unlessDefault_getD]
  show unlessDefault _ (fSet (trivial aDefault) (trivial bDefault)) = none
  rw [htrivial]
  cases fOne aDefault bDefault <;> rfl

theorem mem_mergeNontrivial_nil :
    mem (mergeNontrivial aDefault aHere a bDefault bHere b fOne fSet) [] = fOne aHere bHere := by
  rw [mergeNontrivial, mem_create]
  rfl

theorem union_trivial (x y : Bool) : union (trivial x) (trivial y) = trivial (x || y) := by
  cases x <;> cases y <;> rfl

theorem inter_trivial (x y : Bool) : inter (trivial x) (trivial y) = trivial (x && y) := by
  cases x <;> cases y <;> rfl

theorem mem_union_inter (x y : T0) (d : List Filename) :
    mem (union x y) d = (mem x d || mem y d) ∧ mem (inter x y) d = (mem x d && mem y d) := by
  induction d generalizing x y with
  | nil =>
    cases x with
    | empty | universal => simp
    | nontrivial =>
      cases y with
      | empty | universal => simp
      | nontrivial =>
        rw [union_nontrivial, inter_nontrivial, mem_mergeNontrivial_nil, mem_mergeNontrivial_nil]
        exact ⟨rfl, rfl⟩
  | cons c d ih =>
    cases x with
    | empty | universal => simp
    | nontrivial =>
      cases y with
      | empty | universal => simp
      | nontrivial =>
        rw [union_nontrivial, inter_nontrivial, mem_mergeNontrivial union_trivial,
          mem_mergeNontrivial inter_trivial, mem_nontrivial_cons, mem_nontrivial_cons]
        exact ih _ _

theorem mem_union (x y : T0) (d : List Filename) : mem (union x y) d = (mem x d || mem y d) :=
  (mem_union_inter x y d).1

theorem mem_inter (x y : T0) (d : List Filename) : mem (inter x y) d = (mem x d && mem y d) :=
  (mem_union_inter x y d).2

theorem negateAll_eq (m : List (Filename × T0)) : negateAll m = mapi (fun _ t => negate t) m := by
  induction m with
  | nil => rfl
  | cons b m ih =>
    obtain ⟨k, t⟩ := b
    rw [negateAll, ih]
    rfl

theorem negate_trivial (b : Bool) : negate (trivial b) = trivial (!b) := by cases b <;> rfl

theorem mem_negate (x : T0) (d : List Filename) : mem (negate x) d = !mem x d := by
  induction d generalizing x with
  | nil => cases x <;> rfl
  | cons c d ih =>
    cases x with
    | empty | universal => rfl
    | nontrivial default here m =>
      rw [negate, mem_nontrivial_cons, mem_nontrivial_cons, negateAll_eq, find_mapi,
        ← negate_trivial, Option.getD_map, ih]

theorem mem_ofSubtreeGen_nil (t : T0) (c : Filename) (p : List Filename) :
    mem (ofSubtreeGen t (c :: p)) [] = false := by
  rw [ofSubtreeGen, mem_create]
  rfl

theorem mem_ofSubtreeGen_cons (t : T0) (c c' : Filename) (p d : List Filename) :
    mem (ofSubtreeGen t (c :: p)) (c' :: d) = (decide (c = c') && mem (ofSubtreeGen t p) d) := by
  rw [ofSubtreeGen, mem_create, mem_nontrivial_cons, find_singleton]
  by_cases hc : c = c'
  · simp [hc]
  · rw [if_neg hc, decide_eq_false hc, Bool.false_and]
    exact mem_trivial false d

/-- The directories below `p`, and `p` itself. -/
theorem mem_subtree (p d : List Filename) : mem (subtree p) d = true ↔ p <+: d := by
  induction p generalizing d with
  | nil => simp [subtree, ofSubtreeGen]
  | cons c p ih =>
    cases d with
    | nil => simp [subtree, mem_ofSubtreeGen_nil]
    | cons c' d =>
      rw [subtree, mem_ofSubtreeGen_cons, Bool.and_eq_true, decide_eq_true_iff, cons_prefix_cons]
      exact and_congr_right fun _ => ih d

theorem mem_singleton (p d : List Filename) : mem (singleton p) d = true ↔ d = p := by
  induction p generalizing d with
  | nil => cases d <;> simp [singleton, ofSubtreeGen, justTheRoot, mem]
  | cons c p ih =>
    cases d with
    | nil => simp [singleton, mem_ofSubtreeGen_nil]
    | cons c' d =>
      rw [singleton, mem_ofSubtreeGen_cons, Bool.and_eq_true, decide_eq_true_iff, List.cons.injEq,
        eq_comm]
      exact and_congr_right fun _ => ih d

theorem mem_unionAll (l : List T0) (d : List Filename) : mem (unionAll l) d = l.any (mem · d) := by
  have hfold : ∀ (l : List T0) (acc : T0),
      mem (l.foldl union acc) d = (mem acc d || l.any (mem · d)) := by
    intro l
    induction l with
    | nil => simp
    | cons x l ih =>
      intro acc
      rw [foldl_cons, ih, mem_union, any_cons, Bool.or_assoc]
  rw [unionAll, hfold, mem_empty, Bool.false_or]

/-! ## Canonical form -/

mutual

/-- No part of the tree repeats what the default above it says. -/
def Canonical : T0 → Prop
  | .empty | .universal => True
  | .nontrivial default here exceptions =>
    Map.Sorted exceptions ∧ ¬(exceptions = [] ∧ here = default) ∧ CanonicalAll default exceptions

def CanonicalAll (default : Bool) : List (Filename × T0) → Prop
  | [] => True
  | (_, t) :: m => (t ≠ trivial default ∧ Canonical t) ∧ CanonicalAll default m

end

theorem canonicalAll_iff :
    CanonicalAll default m ↔ ∀ b ∈ m, b.2 ≠ trivial default ∧ Canonical b.2 := by
  induction m with
  | nil => simp [CanonicalAll]
  | cons b m ih =>
    obtain ⟨k, t⟩ := b
    rw [CanonicalAll, ih, forall_mem_cons]

theorem exists_fresh (m m' : List (Filename × T0)) : ∃ c, find m c = none ∧ find m' c = none := by
  obtain ⟨c, hc⟩ := Infinite.exists_notMem_finset ((m.map Prod.fst ++ m'.map Prod.fst).toFinset)
  rw [mem_toFinset, mem_append, not_or] at hc
  exact ⟨c, find_eq_none.mpr hc.1, find_eq_none.mpr hc.2⟩

theorem Canonical.child {k : Filename} (h : Canonical (.nontrivial default here m))
    (hk : find m k = some t) : t ≠ trivial default ∧ Canonical t :=
  canonicalAll_iff.mp h.2.2 _ (mem_of_find hk)

theorem mem_cons_of_none (hc : find m c = none) (d : List Filename) :
    mem (.nontrivial default here m) (c :: d) = default := by
  rw [mem_nontrivial_cons, hc]
  exact mem_trivial default d

theorem mem_cons_of_some (hc : find m c = some t) (d : List Filename) :
    mem (.nontrivial default here m) (c :: d) = mem t d := by
  rw [mem_nontrivial_cons, hc]
  rfl

/-- In canonical form only the trivial sets have all directories or none. -/
theorem Canonical.eq_trivial {x : T0} {b : Bool} (hx : Canonical x) (h : ∀ d, mem x d = b) :
    x = trivial b := by
  induction x using exceptionsInduct with
  | step x ih =>
    cases x with
    | empty =>
      rw [← h [], mem_empty]
      rfl
    | universal =>
      rw [← h [], mem_universal]
      rfl
    | nontrivial default here m =>
      obtain ⟨c, hc, -⟩ := exists_fresh m m
      have hdefault : default = b := (mem_cons_of_none hc []).symm.trans (h [c])
      have hhere : here = b := h []
      subst hdefault
      have hm : m = [] := by
        cases m with
        | nil => rfl
        | cons binding m =>
          obtain ⟨k, t⟩ := binding
          have hfind : find ((k, t) :: m) k = some t := if_pos rfl
          have heq := ih k t hfind (hx.child hfind).2
            fun d => (mem_cons_of_some hfind d).symm.trans (h (k :: d))
          exact absurd heq (hx.child hfind).1
      exact absurd ⟨hm, hhere⟩ hx.2.1

/-- In canonical form the members determine the set. -/
theorem Canonical.ext {x y : T0} (hx : Canonical x) (hy : Canonical y)
    (h : ∀ d, mem x d = mem y d) : x = y := by
  induction x using exceptionsInduct generalizing y with
  | step x ih =>
    cases x with
    | empty => exact (hy.eq_trivial fun d => (h d).symm.trans (mem_empty d)).symm
    | universal => exact (hy.eq_trivial fun d => (h d).symm.trans (mem_universal d)).symm
    | nontrivial xDefault xHere a =>
      cases y with
      | empty => exact hx.eq_trivial fun d => (h d).trans (mem_empty d)
      | universal => exact hx.eq_trivial fun d => (h d).trans (mem_universal d)
      | nontrivial yDefault yHere b =>
        obtain ⟨c, hca, hcb⟩ := exists_fresh a b
        have hdefault : xDefault = yDefault := by
          have hc := h [c]
          rwa [mem_cons_of_none hca, mem_cons_of_none hcb] at hc
        have hhere : xHere = yHere := h []
        subst hdefault hhere
        congr 1
        refine hx.1.ext hy.1 fun k => ?_
        have hk := fun d => h (k :: d)
        cases hka : find a k with
        | none =>
          cases hkb : find b k with
          | none => rfl
          | some t =>
            have heq := (hy.child hkb).2.eq_trivial fun d =>
              (mem_cons_of_some hkb d).symm.trans ((hk d).symm.trans (mem_cons_of_none hka d))
            exact absurd heq (hy.child hkb).1
        | some t =>
          cases hkb : find b k with
          | none =>
            have heq := (hx.child hka).2.eq_trivial fun d =>
              (mem_cons_of_some hka d).symm.trans ((hk d).trans (mem_cons_of_none hkb d))
            exact absurd heq (hx.child hka).1
          | some t' =>
            rw [ih k t hka (hx.child hka).2 (hy.child hkb).2 fun d => ?_]
            rw [← mem_cons_of_some hka d, hk d, mem_cons_of_some hkb d]

/-! ## The operations keep the canonical form -/

theorem canonical_trivial (b : Bool) : Canonical (trivial b) := by cases b <;> exact True.intro

theorem canonical_create (hm : Map.Sorted m)
    (hchild : ∀ b ∈ m, b.2 ≠ trivial default ∧ Canonical b.2) :
    Canonical (create default here m) := by
  rw [create]
  split
  · exact canonical_trivial default
  · next h =>
    refine ⟨hm, fun ⟨hnil, hhere⟩ => h ?_, canonicalAll_iff.mpr hchild⟩
    rw [hnil, hhere, beq_self_eq_true]
    rfl

theorem unlessDefault_eq_some {b : Bool} {t' : T0} (h : unlessDefault b t = some t') :
    t' = t ∧ t' ≠ trivial b := by
  cases b <;> cases t <;> cases h <;> exact ⟨rfl, nofun⟩

theorem Canonical.getD (h : Canonical (.nontrivial default here m)) (k : Filename) :
    Canonical ((find m k).getD (trivial default)) := by
  cases hk : find m k with
  | none => exact canonical_trivial default
  | some t => exact (h.child hk).2

theorem Canonical.mergeNontrivial (ha : Canonical (.nontrivial aDefault aHere a))
    (hb : Canonical (.nontrivial bDefault bHere b))
    (hset : ∀ x y, x.depth ≤ depths a → Canonical x → Canonical y → Canonical (fSet x y)) :
    Canonical (mergeNontrivial aDefault aHere a bDefault bHere b fOne fSet) := by
  refine canonical_create ha.1.merge fun ⟨k, t⟩ hmem => ?_
  have hk := ha.1.merge.find_of_mem hmem
  rw [find_merge] at hk
  split at hk
  · obtain ⟨rfl, hne⟩ := unlessDefault_eq_some hk
    exact ⟨hne, hset _ _ (depth_getD a k aDefault) (ha.getD k) (hb.getD k)⟩
  · cases hk

theorem Canonical.union_inter : ∀ {n : Nat} {x y : T0}, x.depth < n → Canonical x → Canonical y →
    Canonical (union x y) ∧ Canonical (inter x y)
  | n + 1, .empty, y, _, hx, hy => by simpa using ⟨hy, hx⟩
  | n + 1, .universal, y, _, hx, hy => by simpa using ⟨hx, hy⟩
  | n + 1, .nontrivial _ _ _, .empty, _, hx, hy => by simpa using ⟨hx, hy⟩
  | n + 1, .nontrivial _ _ _, .universal, _, hx, hy => by simpa using ⟨hy, hx⟩
  | n + 1, .nontrivial _ _ a, .nontrivial _ _ b, hn, hx, hy => by
    have h (x y : T0) (hdepth : x.depth ≤ depths a) (hx : Canonical x) (hy : Canonical y) :=
      union_inter (n := n) (by rw [depth] at hn; omega) hx hy
    rw [union_nontrivial, inter_nontrivial]
    exact ⟨hx.mergeNontrivial hy fun x y hdepth hx hy => (h x y hdepth hx hy).1,
      hx.mergeNontrivial hy fun x y hdepth hx hy => (h x y hdepth hx hy).2⟩

theorem Canonical.union {n : Nat} {x y : T0} (hn : x.depth < n) (hx : Canonical x)
    (hy : Canonical y) : Canonical (union x y) :=
  (hx.union_inter hn hy).1

theorem Canonical.inter {n : Nat} {x y : T0} (hn : x.depth < n) (hx : Canonical x)
    (hy : Canonical y) : Canonical (inter x y) :=
  (hx.union_inter hn hy).2

theorem negate_negate_trivial {b : Bool} (h : negate t = trivial (!b)) : t = trivial b := by
  cases t <;> cases b <;> first | rfl | cases h

theorem Canonical.negate : ∀ {n : Nat} {x : T0}, x.depth < n → Canonical x → Canonical (negate x)
  | n + 1, .empty, _, _ => True.intro
  | n + 1, .universal, _, _ => True.intro
  | n + 1, .nontrivial default here m, hn, hx => by
    rw [T0.negate, negateAll_eq]
    refine ⟨hx.1.mapi _, fun ⟨hnil, hhere⟩ => hx.2.1 ?_, canonicalAll_iff.mpr fun b hb => ?_⟩
    · exact ⟨List.map_eq_nil_iff.mp hnil, Bool.not_inj hhere⟩
    · obtain ⟨⟨k, t⟩, hmem, rfl⟩ := mem_map.mp hb
      obtain ⟨hne, ht⟩ := canonicalAll_iff.mp hx.2.2 _ hmem
      refine ⟨fun heq => hne (negate_negate_trivial heq), Canonical.negate (n := n) ?_ ht⟩
      have hdepth : t.depth ≤ depths m := depth_of_mem hmem
      rw [depth] at hn
      exact Nat.lt_of_le_of_lt hdepth (Nat.lt_of_succ_lt_succ hn)

theorem Canonical.descend {x : T0} (h : Canonical x) (c : Filename) : Canonical (descend x c) := by
  cases x with
  | empty | universal => exact h
  | nontrivial default here m =>
    have := h.getD c
    rw [T0.descend]
    cases hc : find m c with
    | none | some t => rwa [hc] at this

theorem canonical_ofSubtreeGen (ht : Canonical t) (hne : t ≠ .empty) (p : List Filename) :
    Canonical (ofSubtreeGen t p) ∧ ofSubtreeGen t p ≠ .empty := by
  induction p with
  | nil => exact ⟨ht, hne⟩
  | cons c p ih =>
    rw [ofSubtreeGen]
    refine ⟨canonical_create (sorted_singleton _ _) fun b hb => ?_, nofun⟩
    rw [List.mem_singleton.mp hb]
    exact ⟨ih.2, ih.1⟩

theorem canonical_justTheRoot : Canonical justTheRoot :=
  ⟨sorted_nil, nofun, True.intro⟩

theorem canonical_unionAll {l : List T0} (h : ∀ x ∈ l, Canonical x) : Canonical (unionAll l) := by
  have hfold : ∀ (l : List T0) (acc : T0), Canonical acc → (∀ x ∈ l, Canonical x) →
      Canonical (l.foldl T0.union acc) := by
    intro l
    induction l with
    | nil => exact fun _ hacc _ => hacc
    | cons x l ih =>
      intro acc hacc hl
      obtain ⟨hx, hl⟩ := forall_mem_cons.mp hl
      exact ih _ (hacc.union (Nat.lt_succ_self _) hx) hl
  exact hfold l _ True.intro h

end T0

/-! ## Sets of directories -/

/-- `Dir_set.t`: the trees that the operations build. -/
structure DirSet where
  tree : T0
  canonical : tree.Canonical

namespace DirSet

def mem (t : DirSet) (dir : List Filename) : Bool := t.tree.mem dir

def empty : DirSet := ⟨.empty, True.intro⟩

def universal : DirSet := ⟨.universal, True.intro⟩

def union (x y : DirSet) : DirSet :=
  ⟨x.tree.union y.tree, x.canonical.union (Nat.lt_succ_self _) y.canonical⟩

def inter (x y : DirSet) : DirSet :=
  ⟨x.tree.inter y.tree, x.canonical.inter (Nat.lt_succ_self _) y.canonical⟩

def negate (x : DirSet) : DirSet := ⟨x.tree.negate, x.canonical.negate (Nat.lt_succ_self _)⟩

def descend (t : DirSet) (child : Filename) : DirSet :=
  ⟨t.tree.descend child, t.canonical.descend child⟩

def unionAll (l : List DirSet) : DirSet :=
  ⟨T0.unionAll (l.map tree), canonical_unionAll (by
    intro x hx
    obtain ⟨t, -, rfl⟩ := List.mem_map.mp hx
    exact t.canonical)⟩

def justTheRoot : DirSet := ⟨.justTheRoot, canonical_justTheRoot⟩

def subtree (p : List Filename) : DirSet :=
  ⟨.subtree p, (canonical_ofSubtreeGen (canonical_trivial true) nofun p).1⟩

def singleton (p : List Filename) : DirSet :=
  ⟨.singleton p, (canonical_ofSubtreeGen canonical_justTheRoot nofun p).1⟩

def isSubset (t of : DirSet) : Bool := t.tree.isSubset of.tree

theorem ext {x y : DirSet} (h : ∀ d, mem x d = mem y d) : x = y := by
  have htree := x.canonical.ext y.canonical h
  cases x
  cases htree
  rfl

/-- The operations are the operations on sets of directories, and two sets are the same tree when
they have the same directories. -/
theorem operations_agree (x y : DirSet) (l : List DirSet) (ps : List (List Filename))
    (p d : List Filename) (c : Filename) :
    mem empty d = false ∧ mem universal d = true ∧ mem (union x y) d = (mem x d || mem y d) ∧
      mem (inter x y) d = (mem x d && mem y d) ∧ mem (negate x) d = (!mem x d) ∧
      mem (descend x c) d = mem x (c :: d) ∧ (mem (subtree p) d = true ↔ p <+: d) ∧
      (mem (singleton p) d = true ↔ d = p) ∧ mem (unionAll l) d = l.any (mem · d) ∧
      (mem (unionAll (ps.map singleton)) d = true ↔ d ∈ ps) ∧
      (mem justTheRoot d = true ↔ d = []) ∧ (x = y ↔ ∀ d, mem x d = mem y d) := by
  have hunionAll : ∀ l : List DirSet, mem (unionAll l) d = l.any (mem · d) := by
    intro l
    refine (mem_unionAll _ d).trans ?_
    rw [any_map]
    rfl
  refine ⟨mem_empty d, mem_universal d, mem_union _ _ d, mem_inter _ _ d,
    mem_negate _ d, mem_descend _ c d, mem_subtree p d, mem_singleton p d, hunionAll l,
    ?_, mem_singleton [] d, fun h _ => by rw [h], ext⟩
  rw [hunionAll, any_map, any_eq_true]
  constructor
  · rintro ⟨q, hq, hd⟩
    rwa [(mem_singleton q d).mp hd]
  · exact fun hd => ⟨d, hd, (mem_singleton d d).mpr rfl⟩

end DirSet

end Dune.Engine
