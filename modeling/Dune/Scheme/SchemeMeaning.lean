import Dune.Scheme.Scheme

/-!
# What schemes mean

The rules that a scheme attaches to a directory are those of its `Finite` parts, and evaluation
finds them. An evaluated tree is compared with the function from directories to rules that it
represents: `union`, `restrict` and `finite` are followed on the directory that is asked for.
-/

namespace Dune

open List Dune.Stdune Dune.Engine Map

namespace Scheme

namespace Evaluated

section
variable {R : Type} {unionRules : R → R → R}

/-! ## The recursion of `union` and `restrict` -/

theorem lazyDepth_of_mem {b : Filename × Except Exn (Evaluated R)} :
    ∀ {m : List (Filename × Except Exn (Evaluated R))}, b ∈ m → lazyDepth b.2 ≤ depths m
  | (k, .ok t) :: m, h => by
    rw [depths]
    rcases List.mem_cons.mp h with rfl | h
    · exact Nat.le_max_left _ _
    · exact Nat.le_trans (lazyDepth_of_mem h) (Nat.le_max_right _ _)
  | (k, .error e) :: m, h => by
    rw [depths]
    rcases List.mem_cons.mp h with rfl | h
    · exact Nat.zero_le _
    · exact lazyDepth_of_mem h

variable {v : Except Exn (Evaluated R)}

theorem lazyDepth_of_find {k : Filename} {m : List (Filename × Except Exn (Evaluated R))}
    (h : find m k = some v) : lazyDepth v ≤ depths m :=
  lazyDepth_of_mem (mem_of_find h)

theorem depth_eq (t : Evaluated R) : t.depth = depths t.byChild + 1 := by
  cases t
  rfl

theorem lazyDepth_descend (t : Except Exn (Evaluated R)) (k : Filename) :
    lazyDepth (t >>= fun t => t.descend k) ≤ lazyDepth t := by
  cases t with
  | error e => exact Nat.le_refl _
  | ok t =>
    change lazyDepth (t.descend k) ≤ t.depth
    rw [descend, depth_eq]
    cases h : find t.byChild k with
    | none => exact Nat.le_add_left _ _
    | some v => exact Nat.le_succ_of_le (lazyDepth_of_find h)

theorem unionUpTo_stable : ∀ {n m : Nat} {x y : Evaluated R}, min x.depth y.depth ≤ n →
    min x.depth y.depth ≤ m → unionUpTo unionRules n x y = unionUpTo unionRules m x y
  | 0, _, x, y, hn, _ => by
    rw [depth_eq, depth_eq] at hn
    omega
  | _, 0, x, y, _, hm => by
    rw [depth_eq, depth_eq] at hm
    omega
  | n + 1, m + 1, x, y, hn, hm => by
    rw [depth_eq, depth_eq, Nat.add_min_add_right] at hn hm
    unfold unionUpTo
    congr 1
    refine union_congr fun k vx vy hx hy => ?_
    have hdx := lazyDepth_of_find hx
    have hdy := lazyDepth_of_find hy
    cases vx with
    | error e => rfl
    | ok tx =>
      cases vy with
      | error e => rfl
      | ok ty =>
        have hmin : min tx.depth ty.depth ≤ min (depths x.byChild) (depths y.byChild) :=
          min_le_min hdx hdy
        exact congrArg (fun t => some (Except.ok t)) (unionUpTo_stable (by omega) (by omega))

theorem union_eq (x y : Evaluated R) : union unionRules x y = .mk
    (Map.union (fun _ data1 data2 => some (do
      let x ← data1
      let y ← data2
      return union unionRules x y)) x.byChild y.byChild)
    (do
      let x ← x.rulesHere
      let y ← y.rulesHere
      return Option.merge unionRules x y) := by
  rw [union, depth_eq, depth_eq, Nat.add_min_add_right]
  unfold unionUpTo
  congr 1
  refine Map.union_congr fun k vx vy hx hy => ?_
  cases vx with
  | error e => rfl
  | ok tx =>
    cases vy with
    | error e => rfl
    | ok ty =>
      have hmin := min_le_min (lazyDepth_of_find hx) (lazyDepth_of_find hy)
      exact congrArg (fun t => some (Except.ok t)) (unionUpTo_stable hmin (Nat.le_refl _))

theorem depth_of_mem_exceptions {dirs : T0} {b : Filename × T0} (h : b ∈ dirs.exceptions) :
    b.2.depth < dirs.depth := by
  cases dirs with
  | empty | universal => cases h
  | nontrivial default here m => exact Nat.lt_succ_of_le (T0.depth_of_mem h)

theorem depth_descend (dirs : T0) (c : Filename) : (dirs.descend c).depth ≤ dirs.depth := by
  cases dirs with
  | empty | universal => exact Nat.le_refl _
  | nontrivial default here m =>
    rw [T0.descend]
    have := T0.depth_getD m c default
    cases hc : find m c with
    | none | some t =>
      rw [hc] at this
      exact Nat.le_succ_of_le this

theorem restrictByChild_congr {f g : T0 → Except Exn (Evaluated R) → Except Exn (Evaluated R)}
    {dirs : T0} {t : Except Exn (Evaluated R)}
    (h : ∀ dirs' t', dirs'.depth + lazyDepth t' < dirs.depth + lazyDepth t →
      f dirs' t' = g dirs' t') :
    restrictByChild f dirs t = restrictByChild g dirs t := by
  unfold restrictByChild
  cases dirs.default with
  | true =>
    cases t with
    | error e => rfl
    | ok t =>
      refine congrArg Except.ok (mapi_congr fun b hb => h _ _ ?_)
      have hdepth := lazyDepth_of_mem hb
      have hdescend := depth_descend dirs b.1
      rw [lazyDepth, depth_eq]
      omega
  | false =>
    refine congrArg Except.ok (mapi_congr fun b hb => h _ _ ?_)
    have hdepth := depth_of_mem_exceptions hb
    have hdescend := lazyDepth_descend t b.1
    omega

theorem restrictUpTo_stable : ∀ {n m : Nat} {dirs : T0} {t : Except Exn (Evaluated R)},
    dirs.depth + lazyDepth t < n → dirs.depth + lazyDepth t < m →
    restrictUpTo n dirs t = restrictUpTo m dirs t
  | n + 1, m + 1, dirs, t, hn, hm => by
    have hchildren : restrictByChild (restrictUpTo n) dirs t =
        restrictByChild (restrictUpTo m) dirs t :=
      restrictByChild_congr fun _ _ h => restrictUpTo_stable (by omega) (by omega)
    rw [restrictUpTo, restrictUpTo, hchildren]

theorem restrict_eq (dirs : T0) (t : Except Exn (Evaluated R)) : restrict dirs t =
    (restrictByChild restrict dirs t).map fun byChild =>
      .mk byChild (restrictRulesHere dirs t) := by
  rw [restrict, restrictUpTo]
  rw [restrictByChild_congr fun _ _ h => restrictUpTo_stable h (Nat.lt_succ_self _)]
  rfl

/-! ## Directories -/

/-- The tree has the rules of a function from directories, and no lazy value of it raises. The names
of the children of a directory are among those that it has there. -/
def Represents (t : Evaluated R) (f : List Filename → Option R) : Prop :=
  ∀ dir, ∃ children, t.getRules dir = .ok (f dir, children) ∧
    ∀ c rest, f (dir ++ c :: rest) ≠ none → c ∈ children

theorem getRules_cons (t : Evaluated R) (c : Filename) (dir : List Filename) :
    t.getRules (c :: dir) = (t.descend c >>= fun t => t.getRules dir) := by
  rw [getRules, descendAll]
  cases t.descend c <;> rfl

variable {t : Evaluated R} {f : List Filename → Option R}

theorem represents_iff :
    t.Represents f ↔ (t.rulesHere = .ok (f []) ∧
      ∀ c rest, f (c :: rest) ≠ none → c ∈ t.byChild.map Prod.fst) ∧
        ∀ c, ∃ t', t.descend c = .ok t' ∧ t'.Represents fun dir => f (c :: dir) := by
  constructor
  · intro h
    refine ⟨?_, fun c => ?_⟩
    · obtain ⟨children, hrules, hchildren⟩ := h []
      cases hhere : t.rulesHere with
      | error e =>
        change (t.rulesHere >>= _) = _ at hrules
        rw [hhere] at hrules
        cases hrules
      | ok rules =>
        change (t.rulesHere >>= _) = _ at hrules
        rw [hhere] at hrules
        cases hrules
        exact ⟨rfl, hchildren⟩
    · cases hc : t.descend c with
      | error e =>
        obtain ⟨children, hrules, -⟩ := h [c]
        rw [getRules_cons, hc] at hrules
        cases hrules
      | ok t' =>
        refine ⟨t', rfl, fun dir => ?_⟩
        obtain ⟨children, hrules, hchildren⟩ := h (c :: dir)
        rw [getRules_cons, hc] at hrules
        exact ⟨children, hrules, hchildren⟩
  · rintro ⟨⟨hhere, hchildren⟩, hdescend⟩ dir
    cases dir with
    | nil =>
      refine ⟨t.byChild.map Prod.fst, ?_, hchildren⟩
      change (t.rulesHere >>= _) = _
      rw [hhere]
      rfl
    | cons c dir =>
      obtain ⟨t', hc, ht'⟩ := hdescend c
      obtain ⟨children, hrules, hchildren⟩ := ht' dir
      refine ⟨children, ?_, hchildren⟩
      rw [getRules_cons, hc]
      exact hrules

/-- A relation whose trees have the right rules and children here, and whose children are in the
relation again or represent their part of the function. -/
theorem Represents.of_step {S : Evaluated R → (List Filename → Option R) → Prop}
    (hstep : ∀ t f, S t f →
      (t.rulesHere = .ok (f []) ∧
        ∀ c rest, f (c :: rest) ≠ none → c ∈ t.byChild.map Prod.fst) ∧
      ∀ c, ∃ t', t.descend c = .ok t' ∧
        (S t' (fun dir => f (c :: dir)) ∨ t'.Represents fun dir => f (c :: dir)))
    (h : S t f) : t.Represents f := by
  intro dir
  induction dir generalizing t f with
  | nil =>
    obtain ⟨⟨hhere, hchildren⟩, -⟩ := hstep t f h
    refine ⟨t.byChild.map Prod.fst, ?_, hchildren⟩
    change (t.rulesHere >>= _) = _
    rw [hhere]
    rfl
  | cons c dir ih =>
    obtain ⟨t', hc, ht'⟩ := (hstep t f h).2 c
    rw [getRules_cons, hc]
    rcases ht' with ht' | ht'
    · exact ih ht'
    · exact ht' dir

theorem represents_empty : (empty : Evaluated R).Represents fun _ => none := by
  refine Represents.of_step (S := fun t f => t = empty ∧ f = fun _ => none) ?_ ⟨rfl, rfl⟩
  rintro t f ⟨rfl, rfl⟩
  exact ⟨⟨rfl, fun _ _ h => absurd rfl h⟩, fun c => ⟨empty, rfl, .inl ⟨rfl, rfl⟩⟩⟩

theorem Represents.eq_none {c : Filename} (h : t.Represents f) (hc : find t.byChild c = none)
    (dir : List Filename) : f (c :: dir) = none := by
  by_contra hne
  obtain ⟨⟨-, hchildren⟩, -⟩ := represents_iff.mp h
  exact find_eq_none.mp hc (hchildren c dir hne)

theorem Represents.child {c : Filename} (h : t.Represents f) (hc : find t.byChild c = some v) :
    ∃ t', v = .ok t' ∧ t'.Represents fun dir => f (c :: dir) := by
  obtain ⟨-, hdescend⟩ := represents_iff.mp h
  obtain ⟨t', ht', hrepresents⟩ := hdescend c
  rw [descend, hc] at ht'
  exact ⟨t', ht', hrepresents⟩

theorem descend_union (x y : Evaluated R) (c : Filename) : (union unionRules x y).descend c =
    match Map.find x.byChild c, Map.find y.byChild c with
    | some data1, some data2 => do
      let x ← data1
      let y ← data2
      return union unionRules x y
    | some data1, none => data1
    | none, some data2 => data2
    | none, none => .ok empty := by
  rw [union_eq, descend, byChild, Map.find_union]
  cases Map.find x.byChild c <;> cases Map.find y.byChild c <;> rfl

theorem Represents.union (unionRules : R → R → R) {x y : Evaluated R}
    {g : List Filename → Option R} (hx : x.Represents f) (hy : y.Represents g) :
    (union unionRules x y).Represents fun dir => Option.merge unionRules (f dir) (g dir) := by
  refine Represents.of_step (S := fun t h => ∃ x y f g, x.Represents f ∧ y.Represents g ∧
    t = Evaluated.union unionRules x y ∧ h = fun dir => Option.merge unionRules (f dir) (g dir)) ?_
    ⟨x, y, f, g, hx, hy, rfl, rfl⟩
  rintro t h ⟨x, y, f, g, hx, hy, rfl, rfl⟩
  refine ⟨⟨?_, fun c rest hne => ?_⟩, fun c => ?_⟩
  · rw [union_eq, rulesHere, (represents_iff.mp hx).1.1, (represents_iff.mp hy).1.1]
    rfl
  · rw [← Map.find_isSome, union_eq, byChild, Map.find_union]
    cases hxc : Map.find x.byChild c with
    | some v => cases Map.find y.byChild c <;> rfl
    | none =>
      cases hyc : Map.find y.byChild c with
      | some v => rfl
      | none =>
        simp [hx.eq_none hxc, hy.eq_none hyc] at hne
  · rw [descend_union]
    cases hxc : Map.find x.byChild c with
    | none =>
      have hf := hx.eq_none hxc
      cases hyc : Map.find y.byChild c with
      | none =>
        have hg := hy.eq_none hyc
        simp only [hf, hg]
        exact ⟨empty, rfl, .inr represents_empty⟩
      | some v =>
        obtain ⟨y', rfl, hy'⟩ := hy.child hyc
        simp only [hf, Option.merge_none_left]
        exact ⟨y', rfl, .inr hy'⟩
    | some v =>
      obtain ⟨x', rfl, hx'⟩ := hx.child hxc
      cases hyc : Map.find y.byChild c with
      | none =>
        simp only [hy.eq_none hyc, Option.merge_none_right]
        exact ⟨x', rfl, .inr hx'⟩
      | some v =>
        obtain ⟨y', rfl, hy'⟩ := hy.child hyc
        exact ⟨_, rfl, .inl ⟨x', y', _, _, hx', hy', rfl, rfl⟩⟩

theorem represents_singleton (path : List Filename) (rules : R) :
    (singleton path rules).Represents fun dir => if dir = path then some rules else none := by
  induction path with
  | nil =>
    refine represents_iff.mpr ⟨⟨rfl, fun c rest h => absurd (if_neg (cons_ne_nil _ _)) h⟩,
      fun c => ⟨empty, rfl, ?_⟩⟩
    simp only [cons_ne_nil, if_false]
    exact represents_empty
  | cons x xs ih =>
    refine represents_iff.mpr ⟨⟨rfl, fun c rest h => ?_⟩, fun c => ?_⟩
    · by_cases hc : c = x
      · rw [hc]
        exact mem_cons_self
      · simp [hc] at h
    · rw [singleton, descend, byChild, find_singleton]
      by_cases hc : x = c
      · subst hc
        simp only [List.cons.injEq, true_and, if_true]
        exact ⟨_, rfl, ih⟩
      · simp only [List.cons.injEq, Ne.symm hc, false_and, if_false, if_neg hc]
        exact ⟨empty, rfl, represents_empty⟩

/-- Rules that are all in the set survive the restriction to it. -/
theorem Represents.restrict (dirs : T0) (ht : t.Represents f)
    (hf : ∀ dir, f dir ≠ none → dirs.mem dir = true) :
    ∃ t', restrict dirs (.ok t) = .ok t' ∧ t'.Represents f := by
  have hok : ∀ (dirs : T0) (t : Evaluated R), ∃ byChild,
      restrictByChild Evaluated.restrict dirs (.ok t) = .ok byChild := by
    intro dirs t
    unfold restrictByChild
    cases dirs.default <;> exact ⟨_, rfl⟩
  have hrestrict : ∀ (dirs : T0) (t : Evaluated R), ∃ t', Evaluated.restrict dirs (.ok t) =
      .ok t' := by
    intro dirs t
    obtain ⟨byChild, hbyChild⟩ := hok dirs t
    rw [restrict_eq, hbyChild]
    exact ⟨_, rfl⟩
  obtain ⟨t', ht'⟩ := hrestrict dirs t
  refine ⟨t', ht', Represents.of_step (S := fun t' f => ∃ dirs t, t.Represents f ∧
    (∀ dir, f dir ≠ none → dirs.mem dir = true) ∧ Evaluated.restrict dirs (.ok t) = .ok t') ?_
    ⟨dirs, t, ht, hf, ht'⟩⟩
  clear ht hf ht'
  rintro t' f ⟨dirs, t, ht, hf, ht'⟩
  obtain ⟨byChild, hbyChild⟩ := hok dirs t
  rw [restrict_eq, hbyChild] at ht'
  cases ht'
  obtain ⟨⟨hhere, hchildren⟩, hdescend⟩ := represents_iff.mp ht
  have hrules : restrictRulesHere dirs (.ok t) = .ok (f []) := by
    rw [restrictRulesHere]
    split
    · exact hhere
    · next hnot =>
      by_contra hne
      exact hnot ((T0.mem_nil dirs).symm.trans (hf [] fun heq => hne (heq ▸ rfl)))
  cases hdefault : dirs.default with
  | true =>
    rw [restrictByChild, hdefault] at hbyChild
    cases hbyChild
    refine ⟨⟨hrules, fun c rest hne => ?_⟩, fun c => ?_⟩
    · rw [byChild, keys_mapi]
      exact hchildren c rest hne
    · rw [descend, byChild, find_mapi]
      cases hc : find t.byChild c with
      | none =>
        simp only [ht.eq_none hc]
        exact ⟨empty, rfl, .inr represents_empty⟩
      | some v =>
        obtain ⟨child, rfl, hchild⟩ := ht.child hc
        obtain ⟨child', hchild'⟩ := hrestrict (dirs.descend c) child
        refine ⟨child', hchild', .inl ⟨dirs.descend c, child, hchild, fun dir hne => ?_, hchild'⟩⟩
        rw [T0.mem_descend]
        exact hf _ hne
  | false =>
    rw [restrictByChild, hdefault] at hbyChild
    cases hbyChild
    refine ⟨⟨hrules, fun c rest hne => ?_⟩, fun c => ?_⟩
    · rw [byChild, keys_mapi]
      by_contra hnot
      have hmem := hf _ hne
      rw [← T0.mem_descend, T0.descend_eq, find_eq_none.mpr hnot, hdefault] at hmem
      exact absurd (hmem.symm.trans (T0.mem_empty rest)) nofun
    · have hmem : ∀ dir, f (c :: dir) ≠ none →
          ((find dirs.exceptions c).getD (T0.trivial false)).mem dir = true := by
        intro dir hne
        rw [← hdefault, ← T0.descend_eq, T0.mem_descend]
        exact hf _ hne
      rw [descend, byChild, find_mapi]
      cases hc : find dirs.exceptions c with
      | none =>
        rw [hc] at hmem
        have hnone : ∀ dir, f (c :: dir) = none := by
          intro dir
          by_contra hne
          exact absurd ((hmem dir hne).symm.trans (T0.mem_empty dir)) nofun
        simp only [hnone]
        exact ⟨empty, rfl, .inr represents_empty⟩
      | some v =>
        rw [hc] at hmem
        obtain ⟨child, hchild, hrepresents⟩ := hdescend c
        obtain ⟨child', hchild'⟩ := hrestrict v child
        refine ⟨child', ?_, .inl ⟨v, child, hrepresents, hmem, hchild'⟩⟩
        change Evaluated.restrict v (t.descend c) = _
        rw [hchild, hchild']

def lookup (l : List (List Filename × R)) (dir : List Filename) : Option R :=
  match l with
  | [] => none
  | (path, rules) :: l => if dir = path then some rules else lookup l dir

theorem lookup_eq_none {dir : List Filename} : ∀ {l : List (List Filename × R)},
    dir ∉ l.map Prod.fst → lookup l dir = none
  | [], _ => rfl
  | (path, rules) :: l, h => by
    rw [List.map_cons, List.mem_cons, not_or] at h
    rw [lookup, if_neg h.1]
    exact lookup_eq_none h.2

theorem Represents.foldl_union (unionRules : R → R → R) {l : List (List Filename × R)}
    (hl : (l.map Prod.fst).Nodup)
    {acc : Evaluated R} {g : List Filename → Option R} (hacc : acc.Represents g) :
    (l.foldl (fun acc b => Evaluated.union unionRules (singleton b.1 b.2) acc) acc).Represents
      fun dir => Option.merge unionRules (lookup l dir) (g dir) := by
  induction l generalizing acc g with
  | nil =>
    simp only [lookup, Option.merge_none_left]
    exact hacc
  | cons b l ih =>
    obtain ⟨path, rules⟩ := b
    obtain ⟨hpath, hl⟩ := nodup_cons.mp hl
    have hstep := ih hl ((represents_singleton path rules).union unionRules hacc)
    have hlookup : (fun dir => Option.merge unionRules (lookup ((path, rules) :: l) dir) (g dir)) =
        fun dir => Option.merge unionRules (lookup l dir)
          (Option.merge unionRules (if dir = path then some rules else none) (g dir)) := by
      funext dir
      rw [lookup]
      split_ifs with hdir
      · rw [hdir, lookup_eq_none hpath, Option.merge_none_left]
      · rw [Option.merge_none_left]
    rw [hlookup]
    exact hstep

theorem represents_finite (m : PathMap R) :
    (finite unionRules m).Represents (lookup m.bindings) := by
  have h := represents_empty.foldl_union unionRules m.nodup
  simp only [Option.merge_none_right] at h
  exact h

end

end Evaluated

/-! ## The meaning of a scheme -/

section
variable {R : Type} {unionRules : R → R → R}

/-- The rules that a scheme attaches to a directory. -/
def rulesAt : Scheme R → List Filename → List R
  | .empty, _ => []
  | .union x y, dir => x.rulesAt dir ++ y.rulesAt dir
  | .approximation _ rules, dir => rules.rulesAt dir
  | .finite rules, dir => rules.bindings.filterMap fun b => if dir = b.1 then some b.2 else none
  | .thunk f, dir => (f ()).rulesAt dir

def unionOf (unionRules : R → R → R) (l : List R) : Option R :=
  l.foldr (fun rules acc => Option.merge unionRules (some rules) acc) none

/-- Every `Finite` part stays inside of all approximations around it. -/
def Confined : Scheme R → Prop
  | .empty => True
  | .union x y => x.Confined ∧ y.Confined
  | .approximation paths rules =>
    (∀ dir, rules.rulesAt dir ≠ [] → paths.mem dir = true) ∧ rules.Confined
  | .finite _ => True
  | .thunk f => (f ()).Confined

/-- Every approximation passes the comparison with the directories of those around it. -/
def Nested (env : DirSet) : Scheme R → Prop
  | .empty => True
  | .union x y => x.Nested env ∧ y.Nested env
  | .approximation paths rules =>
    (paths.isSubset env = true ∨ paths.negate.isSubset env = true) ∧ rules.Nested (paths.inter env)
  | .finite _ => True
  | .thunk f => (f ()).Nested env

theorem unionOf_eq_none {l : List R} : unionOf unionRules l = none ↔ l = [] := by
  cases l with
  | nil => exact ⟨fun _ => rfl, fun _ => rfl⟩
  | cons rules l =>
    refine ⟨fun h => ?_, nofun⟩
    rw [unionOf, foldr_cons] at h
    cases hacc : List.foldr (fun rules acc => Option.merge unionRules (some rules) acc) none l <;>
      rw [hacc] at h <;> cases h

section
variable (hassoc : ∀ a b c, unionRules (unionRules a b) c = unionRules a (unionRules b c))
include hassoc

theorem merge_assoc (x y z : Option R) : Option.merge unionRules (Option.merge unionRules x y) z =
    Option.merge unionRules x (Option.merge unionRules y z) := by
  cases x <;> cases y <;> cases z <;> simp [Option.merge, hassoc]

theorem unionOf_append (l l' : List R) : unionOf unionRules (l ++ l') =
    Option.merge unionRules (unionOf unionRules l) (unionOf unionRules l') := by
  induction l with
  | nil => exact Option.merge_none_left.symm
  | cons rules l ih =>
    rw [cons_append, unionOf, foldr_cons]
    change Option.merge unionRules (some rules) (unionOf unionRules (l ++ l')) = _
    rw [ih, ← merge_assoc hassoc]
    rfl

theorem unionOf_perm (hcomm : ∀ a b, unionRules a b = unionRules b a) {l l' : List R}
    (h : l.Perm l') :
    unionOf unionRules l = unionOf unionRules l' := by
  have hmerge : ∀ x y : Option R, Option.merge unionRules x y = Option.merge unionRules y x := by
    intro x y
    cases x <;> cases y <;> simp [Option.merge, hcomm]
  unfold unionOf
  refine List.Perm.foldr_eq' h ?_ none
  intro x _ y _ z
  rw [← merge_assoc hassoc, ← merge_assoc hassoc, hmerge (some y)]

end

theorem unionOf_finite (m : PathMap R) (dir : List Filename) :
    unionOf unionRules ((Scheme.finite m).rulesAt dir) = Evaluated.lookup m.bindings dir := by
  obtain ⟨l, hl⟩ := m
  change unionOf unionRules (l.filterMap _) = Evaluated.lookup l dir
  induction l with
  | nil => rfl
  | cons b l ih =>
    obtain ⟨path, rules⟩ := b
    obtain ⟨hpath, hl⟩ := nodup_cons.mp hl
    have ih := ih hl
    rw [Evaluated.lookup, filterMap_cons]
    by_cases hdir : dir = path
    · subst hdir
      rw [Evaluated.lookup_eq_none hpath] at ih
      simp only [if_true]
      rw [unionOf, foldr_cons]
      change Option.merge unionRules (some rules) (unionOf unionRules _) = _
      rw [ih, Option.merge_none_right]
    · simp only [if_neg hdir]
      exact ih

/-- Evaluation finds the rules of the scheme. -/
theorem evaluateIn_represents
    (hassoc : ∀ a b c, unionRules (unionRules a b) c = unionRules a (unionRules b c)) :
    ∀ (s : Scheme R) (env : DirSet), s.Confined → s.Nested env →
      (∀ dir, s.rulesAt dir ≠ [] → env.mem dir = true) →
      ∃ t, evaluateIn unionRules env s = .ok t ∧
        t.Represents fun dir => unionOf unionRules (s.rulesAt dir)
  | .empty, env, _, _, _ => ⟨.empty, rfl, Evaluated.represents_empty⟩
  | .thunk f, env, hconfined, hnested, henv =>
    evaluateIn_represents hassoc (f ()) env hconfined hnested henv
  | .union x y, env, hconfined, hnested, henv => by
    obtain ⟨tx, hx, htx⟩ := evaluateIn_represents hassoc x env hconfined.1 hnested.1
      fun dir hne => henv dir fun h => hne (append_eq_nil_iff.mp h).1
    obtain ⟨ty, hy, hty⟩ := evaluateIn_represents hassoc y env hconfined.2 hnested.2
      fun dir hne => henv dir fun h => hne (append_eq_nil_iff.mp h).2
    refine ⟨.union unionRules tx ty, ?_, ?_⟩
    · rw [evaluateIn, hx, hy]
      rfl
    · simp only [rulesAt, unionOf_append hassoc]
      exact htx.union unionRules hty
  | .approximation paths rules, env, hconfined, hnested, henv => by
    have hinter : ∀ dir, rules.rulesAt dir ≠ [] → (paths.inter env).mem dir = true := by
      intro dir hne
      refine (T0.mem_inter _ _ dir).trans (Bool.and_eq_true_iff.mpr ?_)
      exact ⟨hconfined.1 dir hne, henv dir hne⟩
    obtain ⟨t, hrules, ht⟩ :=
      evaluateIn_represents hassoc rules (paths.inter env) hconfined.2 hnested.2 hinter
    obtain ⟨t', hrestrict, ht'⟩ := ht.restrict (paths.inter env).tree
      fun dir hne => hinter dir fun h => hne (unionOf_eq_none.mpr h)
    refine ⟨t', ?_, ht'⟩
    rw [evaluateIn, if_neg (by rcases hnested.1 with h | h <;> simp [h])]
    change Evaluated.restrict (paths.inter env).tree
      (evaluateIn unionRules (paths.inter env) rules) = _
    rw [hrules, hrestrict]
  | .finite rules, env, _, _, henv => by
    refine ⟨.finite unionRules rules, ?_, ?_⟩
    · rw [evaluateIn, if_pos]
      refine all_eq_true.mpr fun b hb => henv b.1 fun h => ?_
      have hnone := filterMap_eq_nil_iff.mp h b hb
      rw [if_pos rfl] at hnone
      cases hnone
    · simp only [unionOf_finite]
      exact Evaluated.represents_finite rules

/-- `get_rules` on the evaluated scheme gives the union, in any order, of the rules that the parts
of the scheme attach to the directory, and at least the children below which there are rules. -/
theorem evaluate_rules
    (hassoc : ∀ a b c, unionRules (unionRules a b) c = unionRules a (unionRules b c))
    (hcomm : ∀ a b, unionRules a b = unionRules b a) (s : Scheme R) (hconfined : s.Confined)
    (hnested : s.Nested .universal) (dir : List Filename) :
    ∃ t children, evaluate unionRules s = .ok t ∧
      (∀ l, l.Perm (s.rulesAt dir) → t.getRules dir = .ok (unionOf unionRules l, children)) ∧
      ∀ c rest, s.rulesAt (dir ++ c :: rest) ≠ [] → c ∈ children := by
  obtain ⟨t, ht, hrepresents⟩ := evaluateIn_represents hassoc s .universal hconfined hnested
    fun dir _ => T0.mem_universal dir
  obtain ⟨children, hrules, hchildren⟩ := hrepresents dir
  refine ⟨t, children, ht, fun l hl => ?_, fun c rest hne => ?_⟩
  · rw [unionOf_perm hassoc hcomm hl]
    exact hrules
  · exact hchildren c rest fun h => hne (unionOf_eq_none.mp h)

/-- Rules for `a` inside of an approximation, and for `a/b` inside of two. -/
theorem evaluate_rules_nested : let a : Filename := ⟨Bytes.ascii "a", rfl⟩
    let b : Filename := ⟨Bytes.ascii "b", rfl⟩
    let s : Scheme Nat := .approximation (.subtree [a]) (.union
      (.finite ⟨[([a], 1)], by decide⟩)
      (.thunk fun _ => .approximation (.subtree [a, b]) (.finite ⟨[([a, b], 2)], by decide⟩)))
    ∃ t children, evaluate (· + ·) s = .ok t ∧
      (∀ l, l.Perm (s.rulesAt [a]) → t.getRules [a] = .ok (unionOf (· + ·) l, children)) ∧
      ∀ c rest, s.rulesAt ([a] ++ c :: rest) ≠ [] → c ∈ children := by
  intro a b s
  have hinner : ∀ dir, (Scheme.finite (R := Nat) ⟨[([a, b], 2)], by decide⟩).rulesAt dir ≠ [] →
      dir = [a, b] := by
    intro dir hne
    by_contra hdir
    exact hne (by simp [rulesAt, hdir])
  refine evaluate_rules Nat.add_assoc Nat.add_comm s ⟨fun dir hne => ?_, trivial, ?_,
    trivial⟩ ?_ [a]
  · by_cases hdir : dir = [a]
    · rw [hdir]
      decide
    · have hb : dir = [a, b] := hinner dir fun h => hne (by simp [rulesAt, hdir] at h ⊢; exact h)
      rw [hb]
      decide
  · intro dir hne
    rw [hinner dir hne]
    decide
  · exact ⟨by decide, trivial, by decide, trivial⟩

/-- Without any rules: the second approximation is neither inside nor around the first. -/
theorem evaluate_disjoint_approximations : let a : Filename := ⟨Bytes.ascii "a", rfl⟩
    let b : Filename := ⟨Bytes.ascii "b", rfl⟩
    let s : Scheme Nat := .approximation (.subtree [a]) (.approximation (.subtree [b]) .empty)
    s.Confined ∧ (evaluate (· + ·) s >>= fun t => t.getRules [a]) =
      .error (.codeError ("inner [Approximate] specifies a set such that neither it, nor its " ++
        "negation, are a subset of directories specified by the outer [Approximate].")) := by
  refine ⟨⟨nofun, nofun, trivial⟩, ?_⟩
  rfl

end

end Scheme

end Dune
