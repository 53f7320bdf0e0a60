import Dune.Pkg.ChoiceGroups

/-!
# Merging the solutions for several platforms

A portable lock directory is solved for several platforms, and the packages found for each of them
are merged. `Solution` has what the solver found; `Solution.merge` is the merging loop of
`solve_lock_dir`.

A field of a merged package lists the values of the platforms in the order in which they first
occur, each under the platforms that have it (`Groups`). Choosing takes the first value of the list
with a platform whose variables the given platform has, and this need not be the value found for
the platform itself when its variables include those of another one. `Solution.Separable` is the
exact condition under which merging loses nothing.
-/

namespace Dune.Pkg.LockDir

open List Dune.Stdune Locked

/-! ## One package -/

variable {β : Type}

section
variable {A C T : Type}

/-- What was found for two platforms agrees in what is not conditional. -/
def Locked.Agree (l l' : Locked A C T) : Prop :=
  l.depexts = l'.depexts ∧ l.info = l'.info ∧ l.exportedEnv = l'.exportedEnv

theorem Locked.Agree.symm {l l' : Locked A C T} (h : l.Agree l') : l'.Agree l :=
  ⟨h.1.symm, h.2.1.symm, h.2.2.symm⟩

/-- Two branches of a package can be merged: they are for different platforms, and agree in what
is not conditional. -/
def Compatible (a b : SolverEnv × Locked A C T) : Prop :=
  a.1.removeAllExceptPlatformSpecific ≠ b.1.removeAllExceptPlatformSpecific ∧ a.2.Agree b.2

/-- The entries of a field of the branches of a package. -/
def entries {β : Type} (value : Locked A C T → Option β)
    (branches : List (SolverEnv × Locked A C T)) : List (SolverEnv × β) :=
  branches.flatMap fun b => Groups.entry b.1 (value b.2)

variable (value : Locked A C T → Option β)

theorem entries_singleton (b : SolverEnv × Locked A C T) :
    entries value [b] = Groups.entry b.1 (value b.2) :=
  append_nil _

theorem entries_append
    (branches : List (SolverEnv × Locked A C T)) (b : SolverEnv × Locked A C T) :
    entries value (branches ++ [b]) = entries value branches ++ Groups.entry b.1 (value b.2) := by
  simp [entries]

theorem mem_entries {value : Locked A C T → Option β} {branches : List (SolverEnv × Locked A C T)}
    {env : SolverEnv} {v : β} :
    (env, v) ∈ entries value branches ↔
      ∃ b ∈ branches, b.1.removeAllExceptPlatformSpecific = env ∧ value b.2 = some v := by
  simp only [entries, Groups.entry, mem_flatMap, Option.mem_toList,
    Option.map_eq_some_iff, Prod.mk.injEq]
  grind

variable [DecidableEq A] [DecidableEq C] [DecidableEq T]

/-- The package has the branches and nothing else. -/
structure Merges (branches : List (SolverEnv × Locked A C T)) (p : Package A C T) : Prop where
  buildCommand : Groups (entries buildCommand branches) p.buildCommand
  installCommand : Groups (entries installCommand branches) p.installCommand
  depends : Groups (entries (fun l => some l.depends) branches) p.depends
  enabledOnPlatforms :
    p.enabledOnPlatforms = branches.map fun b => b.1.removeAllExceptPlatformSpecific
  depexts : ∀ b ∈ branches, b.2.depexts = p.depexts
  info : ∀ b ∈ branches, b.2.info = p.info
  exportedEnv : ∀ b ∈ branches, b.2.exportedEnv = p.exportedEnv

namespace Merges
variable {branches : List (SolverEnv × Locked A C T)} {p : Package A C T} {env : SolverEnv}
  {l : Locked A C T}

omit [DecidableEq C] [DecidableEq T] in
theorem single (env : SolverEnv) (l : Locked A C T) : Merges [(env, l)] (l.toPackage env true) where
  buildCommand := by rw [entries_singleton]; exact .single env l.buildCommand
  installCommand := by rw [entries_singleton]; exact .single env l.installCommand
  depends := by rw [entries_singleton]; exact .single env (some l.depends)
  enabledOnPlatforms := rfl
  depexts := by simp [toPackage]
  info := by simp [toPackage]
  exportedEnv := by simp [toPackage]

omit [DecidableEq A] [DecidableEq C] [DecidableEq T] in
/-- No entry of a field is for the platform of a branch that is compatible with all others. -/
theorem notMem_entries (value : Locked A C T → Option β)
    (hc : ∀ b ∈ branches, Compatible b (env, l)) :
    env.removeAllExceptPlatformSpecific ∉ (entries value branches).map Prod.fst := by
  intro hmem
  obtain ⟨⟨env', v⟩, he, heq⟩ := mem_map.mp hmem
  obtain ⟨b, hb, rfl, -⟩ := mem_entries.mp he
  exact (hc b hb).1 heq

theorem merge (h : Merges branches p) (hne : branches ≠ [])
    (hc : ∀ b ∈ branches, Compatible b (env, l)) :
    ∃ p', p.mergeConditionals (l.toPackage env true) = .ok p' ∧
      Merges (branches ++ [(env, l)]) p' := by
  obtain ⟨build, hbuild, gbuild⟩ :=
    h.buildCommand.merge (o := l.buildCommand) fun _ => notMem_entries _ hc
  obtain ⟨install, hinstall, ginstall⟩ :=
    h.installCommand.merge (o := l.installCommand) fun _ => notMem_entries _ hc
  obtain ⟨depends, hdepends, gdepends⟩ :=
    h.depends.merge (o := some l.depends) fun _ => notMem_entries _ hc
  obtain ⟨b, hb⟩ := exists_mem_of_ne_nil _ hne
  obtain ⟨-, hdepexts, hinfo, hexported⟩ := hc b hb
  rw [h.depexts b hb] at hdepexts
  rw [h.info b hb] at hinfo
  rw [h.exportedEnv b hb] at hexported
  refine ⟨⟨build, install, depends, p.depexts, p.info, p.exportedEnv,
    p.enabledOnPlatforms ++ [env.removeAllExceptPlatformSpecific]⟩, ?_, ?_⟩
  · have hbuild' : p.buildCommand.mergeCombiningConditions (l.toPackage env true).buildCommand =
        .ok build := hbuild
    have hinstall' : p.installCommand.mergeCombiningConditions
        (l.toPackage env true).installCommand = .ok install := hinstall
    have hdepends' : p.depends.mergeCombiningConditions (l.toPackage env true).depends =
        .ok depends := hdepends
    rw [Package.mergeConditionals, hbuild', hinstall', hdepends']
    refine if_neg (not_not.mpr ?_)
    simp only [toPackage, Package.mk.injEq, true_and, and_true]
    exact ⟨hdepexts, hinfo, hexported⟩
  · exact {
      buildCommand := by rw [entries_append]; exact gbuild
      installCommand := by rw [entries_append]; exact ginstall
      depends := by rw [entries_append]; exact gdepends
      enabledOnPlatforms := by rw [map_append, ← h.enabledOnPlatforms]; rfl
      depexts := forall_mem_append.mpr ⟨h.depexts, by simpa using hdepexts.symm⟩
      info := forall_mem_append.mpr ⟨h.info, by simpa using hinfo.symm⟩
      exportedEnv := forall_mem_append.mpr ⟨h.exportedEnv, by simpa using hexported.symm⟩ }

theorem compatible_of_ok (h : Merges branches p) {p' : Package A C T}
    (hok : p.mergeConditionals (l.toPackage env true) = .ok p') :
    ∀ b ∈ branches, Compatible b (env, l) := by
  rw [Package.mergeConditionals] at hok
  obtain ⟨build, -, hok⟩ := bind_ok hok
  obtain ⟨install, -, hok⟩ := bind_ok hok
  obtain ⟨depends, hdepends, hok⟩ := bind_ok hok
  dsimp only at hok
  split at hok
  · cases hok
  · next heq =>
    simp only [toPackage, Package.mk.injEq, true_and, and_true, ne_eq, not_not] at heq
    intro b hb
    have hnew := h.depends.notMem_of_merge hdepends
    refine ⟨fun henv => hnew ?_, (h.depexts b hb).trans heq.1, (h.info b hb).trans heq.2.1,
      (h.exportedEnv b hb).trans heq.2.2⟩
    refine mem_map.mpr ⟨(b.1.removeAllExceptPlatformSpecific, b.2.depends), ?_, henv⟩
    exact mem_entries.mpr ⟨b, hb, rfl, rfl⟩

end Merges

end

/-! ## Selection -/

section
variable {A C T : Type}

/-- What a package is on a platform. -/
structure Selection (A C T : Type) where
  buildCommand : Option (BuildCommand A)
  installCommand : Option A
  depends : Option (List Dependency)
  depexts : List (Depexts C)
  info : PkgInfo
  exportedEnv : List (EnvUpdate T)
deriving DecidableEq

/-- The package on a platform where it is enabled. -/
def Package.select (p : Package A C T) (platform : SolverEnv) : Option (Selection A C T) :=
  if p.isEnabledOnPlatform platform then
    some {
      buildCommand := p.buildCommand.chooseForPlatform platform
      installCommand := p.installCommand.chooseForPlatform platform
      depends := p.depends.chooseForPlatform platform
      depexts := p.depexts
      info := p.info
      exportedEnv := p.exportedEnv }
  else none

/-- The package as it was found for a platform. -/
def Locked.selection (l : Locked A C T) : Selection A C T where
  buildCommand := l.buildCommand
  installCommand := l.installCommand
  depends := some l.depends
  depexts := l.depexts
  info := l.info
  exportedEnv := l.exportedEnv

/-- The variables of a branch's platform are variables of the given one. -/
abbrev Subsumes (b : SolverEnv × Locked A C T) (platform : SolverEnv) : Prop :=
  b.1.removeAllExceptPlatformSpecific.isSubset platform = true

namespace Merges
variable [DecidableEq A] {branches : List (SolverEnv × Locked A C T)} {p : Package A C T}
  {platform : SolverEnv}

theorem isEnabledOnPlatform_iff (h : Merges branches p) (hne : branches ≠ []) :
    p.isEnabledOnPlatform platform = true ↔ ∃ b ∈ branches, Subsumes b platform := by
  have hsome : (branches.map fun b => b.1.removeAllExceptPlatformSpecific).isEmpty = false := by
    simpa using hne
  rw [Package.isEnabledOnPlatform, h.enabledOnPlatforms, hsome, Bool.false_or,
    SolverEnvDisjunction.matchesPlatform, any_map, any_eq_true]
  rfl

theorem select_eq_none_iff (h : Merges branches p) (hne : branches ≠ []) :
    p.select platform = none ↔ ∀ b ∈ branches, ¬ Subsumes b platform := by
  rw [Package.select, ite_eq_right_iff]
  simp only [reduceCtorEq, imp_false, h.isEnabledOnPlatform_iff hne]
  push Not
  rfl

/-- The platform has a value of the field that occurs before the values of all branches whose
platform it subsumes. -/
def Precedes {β : Type} [DecidableEq β] (value : Locked A C T → Option β)
    (branches : List (SolverEnv × Locked A C T)) (platform : SolverEnv) (l : Locked A C T) : Prop :=
  ∀ b ∈ branches, Subsumes b platform → ∀ w, value b.2 = some w →
    ∃ v, value l = some v ∧
      (branches.filterMap fun b => value b.2).idxOf v ≤
        (branches.filterMap fun b => value b.2).idxOf w

omit [DecidableEq A] in
theorem rank_entries [DecidableEq β] (value : Locked A C T → Option β)
    (branches : List (SolverEnv × Locked A C T)) (v : β) :
    rank (entries value branches) v = (branches.filterMap fun b => value b.2).idxOf v := by
  rw [rank, entries, map_flatMap, filterMap_eq_flatMap_toList]
  congr 2
  funext b
  rw [Groups.entry]
  cases value b.2 <;> rfl

omit [DecidableEq A] in
theorem choose_eq_iff [DecidableEq β] {value : Locked A C T → Option β} {t : ConditionalChoice β}
    (h : Groups (entries value branches) t) {l : Locked A C T}
    (hl : ∃ b ∈ branches, Subsumes b platform ∧ b.2 = l) :
    t.chooseForPlatform platform = value l ↔ Precedes value branches platform l := by
  obtain ⟨b, hb, hsub, rfl⟩ := hl
  rw [h.chooseForPlatform_eq_iff fun v hv => ⟨_, mem_entries.mpr ⟨b, hb, rfl, hv⟩, hsub⟩]
  simp only [rank_entries, mem_entries]
  constructor
  · exact fun hall b' hb' hsub' w hw => hall _ w ⟨b', hb', rfl, hw⟩ hsub'
  · rintro hall env w ⟨b', hb', rfl, hw⟩ hsub'
    exact hall b' hb' hsub' w hw

/-- The package is selected as it was found for one of the branches. -/
theorem select_eq_selection_iff (h : Merges branches p) {l : Locked A C T}
    (hl : ∃ b ∈ branches, Subsumes b platform ∧ b.2 = l) :
    p.select platform = some l.selection ↔
      Precedes Locked.buildCommand branches platform l ∧
        Precedes Locked.installCommand branches platform l ∧
        Precedes (fun l => some l.depends) branches platform l := by
  obtain ⟨b, hb, hsub, rfl⟩ := hl
  have hl : ∃ b' ∈ branches, Subsumes b' platform ∧ b'.2 = b.2 := ⟨b, hb, hsub, rfl⟩
  have henabled := (h.isEnabledOnPlatform_iff (ne_nil_of_mem hb)).mpr ⟨b, hb, hsub⟩
  rw [Package.select, if_pos henabled, Option.some_inj, selection, Selection.mk.injEq,
    ← choose_eq_iff h.buildCommand hl, ← choose_eq_iff h.installCommand hl,
    ← choose_eq_iff h.depends hl, h.depexts b hb, h.info b hb, h.exportedEnv b hb]
  simp

end Merges

end

/-! ## All packages -/

section
variable {A C T : Type} [DecidableEq A] [DecidableEq C] [DecidableEq T]

def deduplicatePlatformOverlays (platformOverlays : List SolverEnv) : List SolverEnv :=
  (platformOverlays.foldl (fun acc overlay => if overlay ∈ acc then acc else overlay :: acc)
    []).reverse

def baseSolverEnvAndPlatforms (solverEnv : SolverEnv) (solveForPlatforms : List SolverEnv)
    (portableLockDir : Bool) : SolverEnv × List SolverEnv :=
  if portableLockDir then
    (solverEnv.unsetMulti platformSpecific, deduplicatePlatformOverlays solveForPlatforms)
  else (solverEnv, [.empty])

/-- The update of the merged packages by a branch. -/
def addBranch (merged : List (String × Package A C T)) (name : String) (package : Package A C T) :
    Except Exn (List (String × Package A C T)) :=
  match Map.find merged name with
  | none => .ok (Map.set name package merged)
  | some previous => do
    let package ← previous.mergeConditionals package
    return Map.set name package merged

/-- The loops of `solve_lock_dir` that merge the branches of all platforms; `reachable` has the
packages that `reject_unreachable_packages` keeps under an environment. The table of the branches
is taken as built: building it is a `Code_error` when a package is locked twice for a platform. -/
def mergeBranches (reachable : SolverEnv → String → Bool)
    (branchesByPlatform : SolverEnv → List (String × Package A C T)) (solverEnvs : List SolverEnv) :
    Except Exn (List (String × Package A C T)) :=
  solverEnvs.foldlM (fun merged solverEnv =>
    (branchesByPlatform solverEnv).foldlM (fun merged b =>
      if reachable solverEnv b.1 then addBranch merged b.1 b.2 else .ok merged) merged) []

/-- What was solved: for the platforms that the workspace asks for, which have to be some, the
packages that were locked under the environment of each. -/
structure Solution (A C T : Type) where
  solverEnv : SolverEnv
  solveForPlatforms : List SolverEnv
  nonempty : solveForPlatforms ≠ []
  locked : SolverEnv → List (String × Locked A C T)
  sorted : ∀ env, Map.Sorted (locked env)
  reachable : SolverEnv → String → Bool

namespace Solution

section

variable (s : Solution A C T)

/-- The platforms that are solved for. -/
def platforms : List SolverEnv :=
  (baseSolverEnvAndPlatforms s.solverEnv s.solveForPlatforms true).2

/-- The environment in which a platform is solved. -/
def fullEnv (platform : SolverEnv) : SolverEnv :=
  (baseSolverEnvAndPlatforms s.solverEnv s.solveForPlatforms true).1.extend platform

/-- The packages of the portable lock directory. -/
def merge : Except Exn (List (String × Package A C T)) :=
  mergeBranches s.reachable (fun env => Map.mapi (fun _ l => l.toPackage env true) (s.locked env))
    (s.platforms.map s.fullEnv)

/-- The package that was solved for a platform. -/
def solved (platform : SolverEnv) (name : String) : Option (Locked A C T) :=
  if s.reachable (s.fullEnv platform) name then Map.find (s.locked (s.fullEnv platform)) name
  else none

/-- Merging succeeds, and selecting on each platform gives back what was solved for it. -/
def Faithful : Prop :=
  ∃ merged, s.merge = .ok merged ∧ ∀ platform ∈ s.platforms, ∀ name,
    (Map.find merged name).bind (·.select platform) =
      (s.solved platform name).map selection

end

/-- One platform has all the platform-specific variables of another. -/
abbrev Includes (platform other : SolverEnv) : Prop :=
  other.removeAllExceptPlatformSpecific.isSubset platform = true

/-- No platform that includes another has a value of the field that first occurs after a value of
the other one; a platform without value includes only platforms without one. -/
def InOrder {β : Type} [DecidableEq β] (platforms : List SolverEnv)
    (value : SolverEnv → Option β) : Prop :=
  ∀ platform ∈ platforms, ∀ other ∈ platforms, Includes platform other →
    ∀ w, value other = some w → ∃ v, value platform = some v ∧
      (platforms.filterMap value).idxOf v ≤ (platforms.filterMap value).idxOf w

/-- The platforms of a package can be told apart after merging. -/
structure Separable (s : Solution A C T) (name : String) : Prop where
  distinct : s.platforms.Pairwise fun p q => (s.solved p name).isSome → (s.solved q name).isSome →
    p.removeAllExceptPlatformSpecific ≠ q.removeAllExceptPlatformSpecific
  constant : ∀ p ∈ s.platforms, ∀ q ∈ s.platforms, ∀ l ∈ s.solved p name, ∀ l' ∈ s.solved q name,
    l.Agree l'
  enabled : ∀ p ∈ s.platforms, ∀ q ∈ s.platforms, Includes p q → (s.solved q name).isSome →
    (s.solved p name).isSome
  buildCommand : InOrder s.platforms fun p => (s.solved p name).bind buildCommand
  installCommand : InOrder s.platforms fun p => (s.solved p name).bind installCommand
  depends : InOrder s.platforms fun p => (s.solved p name).map depends

end Solution

/-! ### The merging loop -/

section

variable (items : List (SolverEnv × String × Locked A C T))

def branchesOf (name : String) : List (SolverEnv × Locked A C T) :=
  items.filterMap fun i => if i.2.1 = name then some (i.1, i.2.2) else none

/-- The merged packages have the given branches. -/
def Tracks (merged : List (String × Package A C T)) : Prop :=
  ∀ name, (branchesOf items name).Pairwise Compatible ∧
    (Map.find merged name = none ∧ branchesOf items name = [] ∨
      ∃ p, Map.find merged name = some p ∧ branchesOf items name ≠ [] ∧
        Merges (branchesOf items name) p)

omit [DecidableEq A] [DecidableEq C] [DecidableEq T] in
theorem branchesOf_append (env : SolverEnv)
    (name : String) (l : Locked A C T) (k : String) :
    branchesOf (items ++ [(env, name, l)]) k =
      if name = k then branchesOf items k ++ [(env, l)] else branchesOf items k := by
  rw [branchesOf, filterMap_append]
  split_ifs with hk <;> simp [branchesOf, hk]

end

namespace Tracks
variable {items : List (SolverEnv × String × Locked A C T)} {merged : List (String × Package A C T)}
  {env : SolverEnv} {name : String} {l : Locked A C T}

omit [DecidableEq C] [DecidableEq T] in
theorem nil : Tracks ([] : List (SolverEnv × String × Locked A C T)) [] :=
  fun _ => ⟨.nil, .inl ⟨rfl, rfl⟩⟩

omit [DecidableEq C] [DecidableEq T] in
theorem set (h : Tracks items merged) {p : Package A C T}
    (hc : ∀ b ∈ branchesOf items name, Compatible b (env, l))
    (hp : Merges (branchesOf items name ++ [(env, l)]) p) :
    Tracks (items ++ [(env, name, l)]) (Map.set name p merged) := by
  intro k
  rw [branchesOf_append, Map.find_set]
  by_cases hk : name = k
  · subst hk
    rw [if_pos rfl, if_pos rfl]
    refine ⟨pairwise_append.mpr ⟨(h name).1, pairwise_singleton _ _, ?_⟩,
      .inr ⟨p, rfl, append_ne_nil_of_right_ne_nil _ (cons_ne_nil _ _), hp⟩⟩
    intro b hb b' hb'
    rw [mem_singleton.mp hb']
    exact hc b hb
  · rw [if_neg hk, if_neg hk]
    exact h k

section

variable (h : Tracks items merged)
include h

variable {merged' : List (String × Package A C T)}

theorem add (hok : addBranch merged name (l.toPackage env true) = .ok merged') :
    Tracks (items ++ [(env, name, l)]) merged' := by
  rw [addBranch] at hok
  rcases (h name).2 with ⟨hfind, hnil⟩ | ⟨p, hfind, hne, hp⟩
  · rw [hfind] at hok
    cases hok
    refine h.set (by simp [hnil]) ?_
    rw [hnil]
    exact .single env l
  · rw [hfind] at hok
    obtain ⟨p', hp', hok⟩ := bind_ok hok
    cases hok
    have hc := hp.compatible_of_ok hp'
    obtain ⟨p'', hp'', hmerges⟩ := hp.merge hne hc
    cases hp'.symm.trans hp''
    exact h.set hc hmerges

theorem exists_add (hc : ∀ b ∈ branchesOf items name, Compatible b (env, l)) :
    ∃ merged', addBranch merged name (l.toPackage env true) = .ok merged' := by
  rw [addBranch]
  rcases (h name).2 with ⟨hfind, hnil⟩ | ⟨p, hfind, hne, hp⟩
  · rw [hfind]
    exact ⟨_, rfl⟩
  · obtain ⟨p', hp', -⟩ := hp.merge hne hc
    rw [hfind]
    simp only [hp']
    exact ⟨_, rfl⟩

variable {rest : List (SolverEnv × String × Locked A C T)}

theorem run
    (hok : rest.foldlM (fun m i => addBranch m i.2.1 (i.2.2.toPackage i.1 true)) merged
      = .ok merged') :
    Tracks (items ++ rest) merged' := by
  induction rest generalizing items merged with
  | nil =>
    cases hok
    rwa [append_nil]
  | cons i rest ih =>
    rw [foldlM_cons] at hok
    obtain ⟨merged₁, hadd, hok⟩ := bind_ok hok
    rw [append_cons]
    exact ih (h.add hadd) hok

/-- The loop succeeds when the branches of each package are compatible. -/
theorem exists_run (hc : ∀ k, (branchesOf (items ++ rest) k).Pairwise Compatible) :
    ∃ merged', rest.foldlM (fun m i => addBranch m i.2.1 (i.2.2.toPackage i.1 true)) merged =
      .ok merged' := by
  induction rest generalizing items merged with
  | nil => exact ⟨merged, rfl⟩
  | cons i rest ih =>
    obtain ⟨env, name, l⟩ := i
    rw [append_cons] at hc
    have hname := hc name
    rw [branchesOf, filterMap_append] at hname
    have hbefore : (branchesOf (items ++ [(env, name, l)]) name).Pairwise Compatible :=
      (pairwise_append.mp hname).1
    rw [branchesOf_append, if_pos rfl] at hbefore
    obtain ⟨merged₁, hadd⟩ := h.exists_add fun b hb =>
      (pairwise_append.mp hbefore).2.2 b hb (env, l) mem_cons_self
    obtain ⟨merged', hrest⟩ := ih (h.add hadd) hc
    refine ⟨merged', ?_⟩
    rw [foldlM_cons, hadd]
    exact hrest

end

end Tracks

/-- The branches of all platforms, in the order in which they are merged. -/
def Solution.items (s : Solution A C T) : List (SolverEnv × String × Locked A C T) :=
  (s.platforms.map s.fullEnv).flatMap fun env =>
    (s.locked env).filterMap fun b => if s.reachable env b.1 then some (env, b.1, b.2) else none

namespace Solution
variable (s : Solution A C T)

theorem merge_eq_foldlM :
    s.merge = s.items.foldlM (fun m i => addBranch m i.2.1 (i.2.2.toPackage i.1 true)) [] := by
  rw [merge, mergeBranches, items]
  generalize ([] : List (String × Package A C T)) = merged
  induction s.platforms.map s.fullEnv generalizing merged with
  | nil => rfl
  | cons env envs ih =>
    rw [foldlM_cons, flatMap_cons, foldlM_append]
    have hinner : ∀ (l : List (String × Locked A C T)) (merged : List (String × Package A C T)),
        (Map.mapi (fun _ l => l.toPackage env true) l).foldlM
            (fun merged b => if s.reachable env b.1 then addBranch merged b.1 b.2 else .ok merged)
            merged =
          (l.filterMap fun b =>
            if s.reachable env b.1 then some (env, b.1, b.2) else none).foldlM
            (fun m i => addBranch m i.2.1 (i.2.2.toPackage i.1 true)) merged := by
      intro l
      induction l with
      | nil => exact fun _ => rfl
      | cons b l ihl =>
        intro merged
        rw [Map.mapi, map_cons, foldlM_cons, filterMap_cons]
        split_ifs
        · exact bind_congr fun m => ihl m
        · exact ihl merged
    rw [hinner]
    exact bind_congr fun m => ih m

section
omit [DecidableEq A] [DecidableEq C] [DecidableEq T]

theorem branchesOf_items (name : String) :
    branchesOf s.items name =
      s.platforms.filterMap fun p => (s.solved p name).map (s.fullEnv p, ·) := by
  rw [branchesOf, items, filterMap_flatMap, flatMap_map,
    filterMap_eq_flatMap_toList]
  congr 1
  funext p
  rw [filterMap_filterMap, solved]
  split_ifs with hr
  · rw [Option.toList_map, ← (s.sorted _).filterMap_key, map_filterMap]
    refine filterMap_congr fun b _ => ?_
    by_cases hb : b.1 = name
    · subst hb
      simp [hr]
    · by_cases hrb : s.reachable (s.fullEnv p) b.1 <;> simp [hb, hrb]
  · refine filterMap_eq_nil_iff.mpr fun b _ => ?_
    by_cases hb : b.1 = name
    · subst hb
      simp [hr]
    · by_cases hrb : s.reachable (s.fullEnv p) b.1 <;> simp [hb, hrb]

theorem removeAllExceptPlatformSpecific_fullEnv (p : SolverEnv) :
    (s.fullEnv p).removeAllExceptPlatformSpecific = p.removeAllExceptPlatformSpecific :=
  SolverEnv.removeAllExceptPlatformSpecific_extend s.solverEnv p

variable {name : String}

theorem mem_branchesOf_items {b : SolverEnv × Locked A C T} :
    b ∈ branchesOf s.items name ↔
      ∃ p ∈ s.platforms, s.solved p name = some b.2 ∧ s.fullEnv p = b.1 := by
  rw [branchesOf_items, mem_filterMap]
  refine exists_congr fun p => and_congr_right fun _ => ?_
  rw [Option.map_eq_some_iff]
  constructor
  · rintro ⟨l, hl, rfl⟩
    exact ⟨hl, rfl⟩
  · rintro ⟨hl, henv⟩
    exact ⟨b.2, hl, by rw [henv]⟩

variable {p : SolverEnv}

theorem mem_branchesOf_of_solved {l : Locked A C T} (hp : p ∈ s.platforms)
    (hl : s.solved p name = some l) : (s.fullEnv p, l) ∈ branchesOf s.items name :=
  s.mem_branchesOf_items.mpr ⟨p, hp, hl, rfl⟩

theorem map_depends (name : String) : (fun p => (s.solved p name).map depends) =
    fun p => (s.solved p name).bind fun l => some l.depends := by
  funext p
  exact Option.map_eq_bind

theorem compatible_iff :
    (branchesOf s.items name).Pairwise Compatible ↔
      (s.platforms.Pairwise fun p q => (s.solved p name).isSome → (s.solved q name).isSome →
        p.removeAllExceptPlatformSpecific ≠ q.removeAllExceptPlatformSpecific) ∧
      ∀ p ∈ s.platforms, ∀ q ∈ s.platforms, ∀ l ∈ s.solved p name, ∀ l' ∈ s.solved q name,
        l.Agree l' := by
  have hagree : (s.platforms.Pairwise fun p q => ∀ l ∈ s.solved p name, ∀ l' ∈ s.solved q name,
      l.Agree l') ↔ ∀ p ∈ s.platforms, ∀ q ∈ s.platforms, ∀ l ∈ s.solved p name,
        ∀ l' ∈ s.solved q name, l.Agree l' := by
    refine ⟨fun h => ?_, fun h => pairwise_of_forall_mem_list fun p hp q hq => h p hp q hq⟩
    have : Std.Symm fun p q => ∀ l ∈ s.solved p name, ∀ l' ∈ s.solved q name, l.Agree l' :=
      ⟨fun p q hpq l hl l' hl' => (hpq l' hl' l hl).symm⟩
    intro p hp q hq
    refine h.forall_of_forall (fun p _ l hl l' hl' => ?_) hp hq
    cases Option.mem_unique hl hl'
    exact ⟨rfl, rfl, rfl⟩
  rw [← hagree, branchesOf_items, pairwise_filterMap, ← pairwise_and_iff]
  refine List.Pairwise.iff fun p q => ?_
  simp only [Option.map_eq_some_iff, forall_exists_index, and_imp, Option.isSome_iff_exists,
    Option.mem_def, Compatible]
  constructor
  · intro h
    refine ⟨fun l hl l' hl' => ?_, fun l hl l' hl' => (h _ l hl rfl _ l' hl' rfl).2⟩
    have := (h _ l hl rfl _ l' hl' rfl).1
    rwa [removeAllExceptPlatformSpecific_fullEnv, removeAllExceptPlatformSpecific_fullEnv] at this
  · rintro ⟨hne, hconst⟩ _ l hl rfl _ l' hl' rfl
    rw [removeAllExceptPlatformSpecific_fullEnv, removeAllExceptPlatformSpecific_fullEnv]
    exact ⟨hne l hl l' hl', hconst l hl l' hl'⟩

/-- The order of the values, seen from a platform that has the package. -/
theorem precedes_iff [DecidableEq β] (value : Locked A C T → Option β) {l : Locked A C T} :
    Merges.Precedes value (branchesOf s.items name) p l ↔
      ∀ q ∈ s.platforms, Includes p q → ∀ w, (s.solved q name).bind value = some w →
        ∃ v, value l = some v ∧
          (s.platforms.filterMap fun p => (s.solved p name).bind value).idxOf v ≤
            (s.platforms.filterMap fun p => (s.solved p name).bind value).idxOf w := by
  have hvalues : ((branchesOf s.items name).filterMap fun b => value b.2) =
      s.platforms.filterMap fun p => (s.solved p name).bind value := by
    rw [branchesOf_items, filterMap_filterMap]
    refine filterMap_congr fun p _ => ?_
    cases s.solved p name <;> rfl
  rw [Merges.Precedes, hvalues]
  constructor
  · intro h q hq hincl w hw
    obtain ⟨l', hl', hw⟩ := Option.bind_eq_some_iff.mp hw
    refine h (s.fullEnv q, l') (s.mem_branchesOf_of_solved hq hl') ?_ w hw
    rw [Subsumes, removeAllExceptPlatformSpecific_fullEnv]
    exact hincl
  · intro h b hb hsub w hw
    obtain ⟨q, hq, hl', henv⟩ := s.mem_branchesOf_items.mp hb
    rw [Subsumes, ← henv, removeAllExceptPlatformSpecific_fullEnv] at hsub
    exact h q hq hsub w (Option.bind_eq_some_iff.mpr ⟨b.2, hl', hw⟩)

theorem subsumes_fullEnv (l : Locked A C T) : Subsumes (s.fullEnv p, l) p := by
  rw [Subsumes, removeAllExceptPlatformSpecific_fullEnv]
  exact p.removeAllExceptPlatformSpecific_isSubset

end

variable {s}

theorem tracks_of_merge {merged : List (String × Package A C T)} (h : s.merge = .ok merged) :
    Tracks s.items merged := by
  rw [merge_eq_foldlM] at h
  exact Tracks.nil.run h

/-- After a faithful merge the platforms of each package can be told apart. -/
theorem Faithful.separable (h : s.Faithful) (name : String) : s.Separable name := by
  obtain ⟨merged, hmerge, hselect⟩ := h
  have htracks := tracks_of_merge hmerge
  obtain ⟨hdistinct, hconstant⟩ := s.compatible_iff.mp (htracks name).1
  have hmerges : ∀ q ∈ s.platforms, ∀ l', s.solved q name = some l' →
      ∃ p, Map.find merged name = some p ∧ Merges (branchesOf s.items name) p := by
    intro q hq l' hl'
    have hmem := s.mem_branchesOf_of_solved hq hl'
    rcases (htracks name).2 with ⟨-, hnil⟩ | ⟨p, hfind, -, hp⟩
    · rw [hnil] at hmem
      cases hmem
    · exact ⟨p, hfind, hp⟩
  have henabled : ∀ p ∈ s.platforms, ∀ q ∈ s.platforms, Includes p q → ∀ l',
      s.solved q name = some l' → ∃ l, s.solved p name = some l := by
    intro p hp q hq hincl l' hl'
    obtain ⟨package, hfind, hpackage⟩ := hmerges q hq l' hl'
    have hmem := s.mem_branchesOf_of_solved hq hl'
    have hsel := hselect p hp name
    rw [hfind, Option.bind_some] at hsel
    by_contra hnone
    rw [Option.eq_none_iff_forall_ne_some.mpr (not_exists.mp hnone), Option.map_none,
      hpackage.select_eq_none_iff (ne_nil_of_mem hmem)] at hsel
    refine hsel _ hmem ?_
    rw [Subsumes, removeAllExceptPlatformSpecific_fullEnv]
    exact hincl
  -- a platform that has the package is selected as it was found, so its values come first
  have hprecedes : ∀ p ∈ s.platforms, ∀ l, s.solved p name = some l →
      Merges.Precedes Locked.buildCommand (branchesOf s.items name) p l ∧
        Merges.Precedes Locked.installCommand (branchesOf s.items name) p l ∧
        Merges.Precedes (fun l => some l.depends) (branchesOf s.items name) p l := by
    intro p hp l hl
    obtain ⟨package, hfind, hpackage⟩ := hmerges p hp l hl
    have hsel := hselect p hp name
    rw [hfind, Option.bind_some, hl, Option.map_some] at hsel
    exact (hpackage.select_eq_selection_iff ⟨_, s.mem_branchesOf_of_solved hp hl,
      s.subsumes_fullEnv l, rfl⟩).mp hsel
  have hinOrder : ∀ {β : Type} [DecidableEq β] (value : Locked A C T → Option β),
      (∀ p ∈ s.platforms, ∀ l, s.solved p name = some l →
        Merges.Precedes value (branchesOf s.items name) p l) →
      InOrder s.platforms fun p => (s.solved p name).bind value := by
    intro β _ value hvalue p hp q hq hincl w hw
    obtain ⟨l', hl', -⟩ := Option.bind_eq_some_iff.mp hw
    obtain ⟨l, hl⟩ := henabled p hp q hq hincl l' hl'
    obtain ⟨v, hv, hle⟩ := (s.precedes_iff value).mp (hvalue p hp l hl) q hq hincl w hw
    exact ⟨v, Option.bind_eq_some_iff.mpr ⟨l, hl, hv⟩, hle⟩
  refine ⟨hdistinct, hconstant, fun p hp q hq hincl hsome => ?_, ?_, ?_, ?_⟩
  · obtain ⟨l', hl'⟩ := Option.isSome_iff_exists.mp hsome
    exact Option.isSome_iff_exists.mpr (henabled p hp q hq hincl l' hl')
  · exact hinOrder _ fun p hp l hl => (hprecedes p hp l hl).1
  · exact hinOrder _ fun p hp l hl => (hprecedes p hp l hl).2.1
  · rw [map_depends]
    exact hinOrder _ fun p hp l hl => (hprecedes p hp l hl).2.2

/-- Packages whose platforms can be told apart are merged faithfully. -/
theorem faithful_of_separable (h : ∀ name, s.Separable name) : s.Faithful := by
  have hcompatible : ∀ name, (branchesOf s.items name).Pairwise Compatible := fun name =>
    s.compatible_iff.mpr ⟨(h name).distinct, (h name).constant⟩
  obtain ⟨merged, hmerge⟩ : ∃ merged, s.merge = .ok merged := by
    rw [merge_eq_foldlM]
    exact Tracks.nil.exists_run hcompatible
  have htracks := tracks_of_merge hmerge
  refine ⟨merged, hmerge, fun platform hplatform name => ?_⟩
  cases hsolved : s.solved platform name with
  | none =>
    rw [Option.map_none]
    rcases (htracks name).2 with ⟨hfind, -⟩ | ⟨p, hfind, hne, hp⟩
    · rw [hfind]
      rfl
    · rw [hfind, Option.bind_some, hp.select_eq_none_iff hne]
      intro b hb hsub
      obtain ⟨q, hq, hl', henv⟩ := s.mem_branchesOf_items.mp hb
      rw [Subsumes, ← henv, removeAllExceptPlatformSpecific_fullEnv] at hsub
      have hsome := (h name).enabled platform hplatform q hq hsub (by rw [hl']; rfl)
      rw [hsolved] at hsome
      cases hsome
  | some l =>
    have hmem := s.mem_branchesOf_of_solved hplatform hsolved
    rcases (htracks name).2 with ⟨-, hnil⟩ | ⟨p, hfind, -, hp⟩
    · rw [hnil] at hmem
      cases hmem
    · rw [hfind, Option.bind_some, Option.map_some,
        hp.select_eq_selection_iff ⟨_, hmem, s.subsumes_fullEnv l, rfl⟩]
      have hprecedes : ∀ {β : Type} [DecidableEq β] (value : Locked A C T → Option β),
          InOrder s.platforms (fun p => (s.solved p name).bind value) →
          Merges.Precedes value (branchesOf s.items name) platform l := by
        intro β _ value horder
        refine (s.precedes_iff value).mpr fun q hq hincl w hw => ?_
        obtain ⟨v, hv, hle⟩ := horder platform hplatform q hq hincl w hw
        dsimp only at hv
        rw [hsolved] at hv
        exact ⟨v, hv, hle⟩
      refine ⟨hprecedes _ (h name).buildCommand, hprecedes _ (h name).installCommand,
        hprecedes _ ?_⟩
      rw [← map_depends]
      exact (h name).depends

/-- Merging the solutions of several platforms is faithful exactly when the platforms of each
package can be told apart: no two of them have the same platform-specific variables, they agree in
what is not conditional, and where one platform includes another, the package and its values for
the larger platform come before those for the smaller one. -/
theorem merge_faithful_iff (s : Solution A C T) : s.Faithful ↔ ∀ name, s.Separable name :=
  ⟨fun h => h.separable, faithful_of_separable⟩

end Solution

end

def linux : SolverEnv := SolverEnv.empty.set "os" "linux" (by decide)

def linuxArm64 : SolverEnv := linux.set "arch" "arm64" (by decide)

/-- A package that has a dependency only on one kind of processor. -/
def linuxSolution : Solution Unit Unit Unit :=
  let package (name : String) (depends : List Dependency) : String × Locked Unit Unit Unit :=
    (name, ⟨some .dune, none, depends, [], ⟨name, "1.0", false, false, none, []⟩, []⟩)
  { solverEnv := .empty
    solveForPlatforms := [linux, linuxArm64]
    nonempty := List.cons_ne_nil _ _
    locked := fun env =>
      if env.get "arch" = some "arm64" then [package "bar" [], package "foo" [⟨.none, "bar"⟩]]
      else [package "foo" []]
    sorted := fun env => by
      split
      · exact List.pairwise_pair.mpr (by decide)
      · exact Map.sorted_singleton _ _
    reachable := fun _ _ => true }

theorem linuxArm64_loses_dependency : ¬ linuxSolution.Faithful := by
  rintro ⟨merged, hmerge, hselect⟩
  have hbar := hselect linuxArm64 (by decide) "foo"
  cases hmerge.symm.trans (show linuxSolution.merge = .ok _ from rfl)
  exact absurd hbar (by decide)

end Dune.Pkg.LockDir
