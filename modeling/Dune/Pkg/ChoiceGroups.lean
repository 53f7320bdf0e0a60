import Dune.Pkg.LockDir

/-!
# Choices between the values of several branches

`merge_combining_conditions` adds the branches of a field one after the other. The choice that
results has their values in the order in which they first occur, each under the conditions of all
its branches (`Groups`), and choosing takes the value of least rank among those that a platform
may have.
-/

namespace Dune.Pkg.LockDir

open List Dune.Stdune ConditionalChoice

section
variable {α : Type} {v : α}

/-- The first value found in a list that is sorted by a rank is the one of least rank. -/
theorem findSome?_eq_some_iff_rank {β : Type} {f : β → Option α} {r : β → Nat} {l : List β}
    (h : l.Pairwise fun a b => r a < r b) :
    l.findSome? f = some v ↔
      ∃ a ∈ l, f a = some v ∧ ∀ b ∈ l, (f b).isSome → r a ≤ r b := by
  induction l with
  | nil => simp
  | cons x l ih =>
    obtain ⟨hx, hl⟩ := pairwise_cons.mp h
    rw [List.findSome?_cons]
    cases hfx : f x with
    | none =>
      refine (ih hl).trans ⟨?_, ?_⟩
      · rintro ⟨a, ha, hfa, hmin⟩
        refine ⟨a, mem_cons_of_mem _ ha, hfa, fun b hb hfb => ?_⟩
        rcases mem_cons.mp hb with rfl | hb
        · simp [hfx] at hfb
        · exact hmin b hb hfb
      · rintro ⟨a, ha, hfa, hmin⟩
        rcases mem_cons.mp ha with rfl | ha
        · simp [hfx] at hfa
        · exact ⟨a, ha, hfa, fun b hb => hmin b (mem_cons_of_mem _ hb)⟩
    | some w =>
      constructor
      · rintro ⟨⟩
        exact ⟨x, mem_cons_self, hfx,
          forall_mem_cons.mpr ⟨fun _ => le_rfl, fun b hb _ => (hx b hb).le⟩⟩
      · rintro ⟨a, ha, hfa, hmin⟩
        rcases mem_cons.mp ha with rfl | ha
        · exact hfx.symm.trans hfa
        · have hle := hmin x mem_cons_self (by simp [hfx])
          exact absurd (hx a ha) (not_lt.mpr hle)

variable [DecidableEq α]

/-- Where a value first occurs. -/
def rank (es : List (SolverEnv × α)) (v : α) : Nat := (es.map Prod.snd).idxOf v

/-- The choice has the values of the list in the order in which they first occur, each under all
its conditions. -/
structure Groups (es : List (SolverEnv × α)) (t : ConditionalChoice α) : Prop where
  mem_iff : ∀ env v, (env, v) ∈ es ↔ ∃ c ∈ t, c.value = v ∧ env ∈ c.condition
  nonempty : ∀ c ∈ t, c.condition ≠ []
  order : t.Pairwise fun a b => rank es a.value < rank es b.value

namespace Groups
variable {es : List (SolverEnv × α)} {t : ConditionalChoice α}

theorem nil : Groups ([] : List (SolverEnv × α)) [] where
  mem_iff := by simp
  nonempty := by simp
  order := .nil

variable {c k : Conditional α}

theorem value_mem (h : Groups es t) (hc : c ∈ t) : c.value ∈ es.map Prod.snd := by
  obtain ⟨env, henv⟩ := exists_mem_of_ne_nil _ (h.nonempty c hc)
  exact mem_map.mpr ⟨(env, c.value), (h.mem_iff _ _).mpr ⟨c, hc, rfl, henv⟩, rfl⟩

variable {env platform : SolverEnv}

theorem containsSolverEnv_iff (h : Groups es t) :
    t.containsSolverEnv env = true ↔ env ∈ es.map Prod.fst := by
  simp only [containsSolverEnv, any_eq_true, contains_iff_mem,
    mem_map, Prod.exists, h.mem_iff]
  grind

omit [DecidableEq α] in
theorem evaluate_eq_some_iff :
    c.evaluate platform = some v ↔
      (∃ env ∈ c.condition, env.isSubset platform = true) ∧ c.value = v := by
  unfold Conditional.evaluate SolverEnvDisjunction.matchesPlatform
  split
  · next hmatch =>
    rw [and_iff_right (any_eq_true.mp hmatch), Option.some_inj]
  · next hmatch =>
    refine ⟨fun hv => absurd hv.symm (Option.some_ne_none v), fun hv => ?_⟩
    exact absurd (any_eq_true.mpr hv.1) hmatch

/-- The value that is chosen is the one that first occurs, of those that the platform may have. -/
theorem chooseForPlatform_eq_some_iff (h : Groups es t) :
    t.chooseForPlatform platform = some v ↔
      (∃ env, (env, v) ∈ es ∧ env.isSubset platform = true) ∧
        ∀ env w, (env, w) ∈ es → env.isSubset platform = true → rank es v ≤ rank es w := by
  refine (findSome?_eq_some_iff_rank h.order).trans ⟨?_, ?_⟩
  · rintro ⟨c, hc, hv, hmin⟩
    obtain ⟨⟨env, henv, hsub⟩, rfl⟩ := evaluate_eq_some_iff.mp hv
    refine ⟨⟨env, (h.mem_iff _ _).mpr ⟨c, hc, rfl, henv⟩, hsub⟩, fun env' w hw hsub' => ?_⟩
    obtain ⟨c', hc', rfl, henv'⟩ := (h.mem_iff _ _).mp hw
    exact hmin c' hc' (Option.isSome_iff_exists.mpr
      ⟨_, evaluate_eq_some_iff.mpr ⟨⟨env', henv', hsub'⟩, rfl⟩⟩)
  · rintro ⟨⟨env, hv, hsub⟩, hmin⟩
    obtain ⟨c, hc, rfl, henv⟩ := (h.mem_iff _ _).mp hv
    refine ⟨c, hc, evaluate_eq_some_iff.mpr ⟨⟨env, henv, hsub⟩, rfl⟩, fun c' hc' hsome => ?_⟩
    obtain ⟨w, hw⟩ := Option.isSome_iff_exists.mp hsome
    obtain ⟨⟨env', henv', hsub'⟩, rfl⟩ := evaluate_eq_some_iff.mp hw
    exact hmin env' c'.value ((h.mem_iff _ _).mpr ⟨c', hc', rfl, henv'⟩) hsub'

theorem chooseForPlatform_eq_none_iff (h : Groups es t) :
    t.chooseForPlatform platform = none ↔
      ∀ env w, (env, w) ∈ es → env.isSubset platform = false := by
  rw [chooseForPlatform, List.findSome?_eq_none_iff]
  constructor
  · intro hnone env w hw
    obtain ⟨c, hc, rfl, henv⟩ := (h.mem_iff _ _).mp hw
    by_contra hsub
    have hsome := evaluate_eq_some_iff.mpr ⟨⟨env, henv, by simpa using hsub⟩, rfl⟩
    exact absurd (hnone c hc) (by rw [hsome]; exact Option.some_ne_none _)
  · intro hnone c hc
    by_contra hsome
    obtain ⟨w, hw⟩ := Option.ne_none_iff_exists'.mp hsome
    obtain ⟨⟨env, henv, hsub⟩, rfl⟩ := evaluate_eq_some_iff.mp hw
    have := hnone env c.value ((h.mem_iff _ _).mpr ⟨c, hc, rfl, henv⟩)
    rw [hsub] at this
    cases this

/-- What is chosen for a platform that is itself one of the branches. -/
theorem chooseForPlatform_eq_iff (h : Groups es t) {o : Option α}
    (ho : ∀ v, o = some v → ∃ env, (env, v) ∈ es ∧ env.isSubset platform = true) :
    t.chooseForPlatform platform = o ↔
      ∀ env w, (env, w) ∈ es → env.isSubset platform = true →
        ∃ v, o = some v ∧ rank es v ≤ rank es w := by
  cases o with
  | none =>
    rw [h.chooseForPlatform_eq_none_iff]
    simp
  | some v =>
    rw [h.chooseForPlatform_eq_some_iff, and_iff_right (ho v rfl)]
    simp

theorem combine_of_forall_ne (h : ∀ c ∈ t, c.value ≠ k.value) : combine k t = t ++ [k] := by
  induction t with
  | nil => rfl
  | cons x t ih =>
    rw [combine, if_neg (h x mem_cons_self),
      ih fun c hc => h c (mem_cons_of_mem _ hc)]
    rfl

theorem combine_of_eq {x : Conditional α} {t₁ t₂ : ConditionalChoice α}
    (h : ∀ c ∈ t₁, c.value ≠ k.value) (hx : x.value = k.value) :
    combine k (t₁ ++ x :: t₂) =
      t₁ ++ ⟨x.condition ++ k.condition, k.value⟩ :: t₂ := by
  induction t₁ with
  | nil => exact if_pos hx
  | cons y t₁ ih =>
    rw [cons_append, combine, if_neg (h y mem_cons_self),
      ih fun c hc => h c (mem_cons_of_mem _ hc)]
    rfl

/-- A further branch does not change the place of a value that has occurred. -/
theorem rank_append {w : α} (h : w ∈ es.map Prod.snd) (e : SolverEnv × α) :
    rank (es ++ [e]) w = rank es w := by
  rw [rank, map_append]
  exact idxOf_append_of_mem h

theorem combine (h : Groups es t) (env : SolverEnv) (v : α) :
    Groups (es ++ [(env, v)]) (combine ⟨[env], v⟩ t) := by
  by_cases hv : ∃ x ∈ t, x.value = v
  · -- the value has occurred: its condition grows, and the order stays
    obtain ⟨x, hx, rfl⟩ := hv
    obtain ⟨t₁, t₂, rfl⟩ := append_of_mem hx
    have hord := pairwise_append.mp h.order
    have hne : ∀ c ∈ t₁, c.value ≠ x.value := fun c hc heq =>
      absurd (hord.2.2 c hc x mem_cons_self) (by rw [heq]; exact lt_irrefl _)
    rw [combine_of_eq (k := ⟨[env], x.value⟩) (x := x) hne rfl]
    refine ⟨fun env' w => ?_, ?_, ?_⟩
    · rw [mem_append, h.mem_iff, mem_singleton, Prod.mk.injEq]
      simp only [mem_append, mem_cons, not_mem_nil, or_false, or_and_right,
        exists_or, exists_eq_left]
      grind
    · have hnonempty := h.nonempty
      rw [forall_mem_append, forall_mem_cons] at hnonempty ⊢
      exact ⟨hnonempty.1, by simp, hnonempty.2.2⟩
    · have hpair : (t₁ ++ ⟨x.condition ++ [env], x.value⟩ :: t₂).Pairwise
          fun a b => rank es a.value < rank es b.value := by
        have hmap := pairwise_map.mpr h.order
        refine pairwise_map.mp ?_
        rw [map_append, map_cons] at hmap ⊢
        exact hmap
      refine hpair.imp_of_mem fun {a b} ha hb hlt => ?_
      have hval : ∀ c ∈ t₁ ++ ⟨x.condition ++ [env], x.value⟩ :: t₂,
          c.value ∈ es.map Prod.snd := by
        have hvalue := h.value_mem hx
        grind [h.value_mem]
      rwa [rank_append (hval a ha), rank_append (hval b hb)]
  · -- a new value comes last
    push Not at hv
    rw [combine_of_forall_ne hv]
    have hnew : v ∉ es.map Prod.snd := by
      intro hmem
      obtain ⟨⟨env', w⟩, he, rfl⟩ := mem_map.mp hmem
      obtain ⟨c, hc, hval, -⟩ := (h.mem_iff _ _).mp he
      exact hv c hc hval
    refine ⟨fun env' w => ?_, fun c hc => ?_, ?_⟩
    · rw [mem_append, h.mem_iff, mem_singleton, Prod.mk.injEq]
      simp only [mem_append, mem_singleton, or_and_right, exists_or, exists_eq_left]
      exact or_congr_right ⟨fun hw => ⟨hw.2.symm, hw.1⟩, fun hw => ⟨hw.2, hw.1.symm⟩⟩
    · rcases mem_append.mp hc with hc | hc
      · exact h.nonempty c hc
      · rw [mem_singleton.mp hc]
        exact cons_ne_nil _ _
    · refine pairwise_append.mpr ⟨?_, pairwise_singleton _ _, fun c hc k hk => ?_⟩
      · refine h.order.imp_of_mem fun {a b} ha hb hlt => ?_
        rwa [rank_append (h.value_mem ha), rank_append (h.value_mem hb)]
      · rw [mem_singleton.mp hk, rank_append (h.value_mem hc)]
        have hlast : rank (es ++ [(env, v)]) v = (es.map Prod.snd).length := by
          rw [rank, map_append, idxOf_append_of_notMem hnew]
          simp
        rw [hlast]
        exact idxOf_lt_length_iff.mpr (h.value_mem hc)

/-- The choice of one branch, for a field that may be missing. -/
def branch (env : SolverEnv) (o : Option α) : ConditionalChoice α :=
  (o.map (.singletonMulti [env])).getD []

def entry (env : SolverEnv) (o : Option α) : List (SolverEnv × α) :=
  (o.map (env.removeAllExceptPlatformSpecific, ·)).toList

theorem single (env : SolverEnv) (o : Option α) : Groups (entry env o) (branch env o) := by
  cases o with
  | none => exact nil
  | some v => exact nil.combine env.removeAllExceptPlatformSpecific v

theorem merge (h : Groups es t) {o : Option α}
    (hnew : o ≠ none → env.removeAllExceptPlatformSpecific ∉ es.map Prod.fst) :
    ∃ t', t.mergeCombiningConditions (branch env o) = .ok t' ∧ Groups (es ++ entry env o) t' := by
  cases o with
  | none => exact ⟨t, rfl, by simpa [entry] using h⟩
  | some v =>
    refine ⟨_, ?_, h.combine env.removeAllExceptPlatformSpecific v⟩
    have hfind : [env.removeAllExceptPlatformSpecific].find? t.containsSolverEnv = none := by
      rw [List.find?_singleton, if_neg]
      rw [h.containsSolverEnv_iff]
      exact hnew (Option.some_ne_none v)
    show t.appendCombiningConditions ⟨[env.removeAllExceptPlatformSpecific], v⟩ >>= pure = _
    rw [appendCombiningConditions, hfind]
    rfl

theorem notMem_of_merge (h : Groups es t) {t' : ConditionalChoice α}
    (hok : t.mergeCombiningConditions (branch env (some v)) = .ok t') :
    env.removeAllExceptPlatformSpecific ∉ es.map Prod.fst := by
  intro hmem
  have hfind : [env.removeAllExceptPlatformSpecific].find? t.containsSolverEnv =
      some env.removeAllExceptPlatformSpecific := by
    rw [List.find?_singleton, if_pos (h.containsSolverEnv_iff.mpr hmem)]
  obtain ⟨t₁, ht₁, -⟩ := bind_ok (f := pure) hok
  rw [appendCombiningConditions] at ht₁
  have : ([env].map SolverEnv.removeAllExceptPlatformSpecific).find? t.containsSolverEnv =
      some env.removeAllExceptPlatformSpecific := hfind
  rw [this] at ht₁
  cases ht₁

end Groups

end

end Dune.Pkg.LockDir
