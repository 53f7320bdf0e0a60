import Dune.Engine.LoadRules

/-!
# The deletion of stale artifacts

What loading a directory leaves in the build directory. A directory that yields rules asks its
parent whether it is known there, and what a directory knows is what it keeps, so that loading the
parent does not delete it. The parent is not asked about a directory of a context without sources
that has the name of a source directory, about `.dune`, and about a directory that has rules only in
its sub-directories (`Unchecked`). Directories that yield rules are safe exactly when these are kept
all the same.
-/

namespace Dune.Engine

open List Dune.Stdune T0

/-! ## What is left of the build directory -/

namespace BuildConfig

variable {p of path t : BuildPath}

theorem isDescendant_iff : isDescendant p of = true ↔ of <:+ p :=
  isSuffixOf_iff_suffix

variable {fs : Fs} {e : BuildPath × FileKind} {dir : BuildPath} {subdirsToKeep : SubdirSet}
  {α : Type} {f : Fs → α → Fs} {l : List α}

theorem Fs.mem_rmRf : e ∈ fs.rmRf path ↔ e ∈ fs ∧ ¬ path <:+ e.1 := by
  rw [Fs.rmRf, mem_filter, Bool.not_eq_true', ← Bool.not_eq_true, isDescendant_iff]

theorem Fs.mem_unlink : e ∈ fs.unlink path ↔ e ∈ fs ∧ e ≠ (path, .other) := by
  rw [Fs.unlink, mem_filter, decide_eq_true_iff]

theorem mem_removeSubdirIfStale {fn : Filename} :
    e ∈ removeSubdirIfStale dir subdirsToKeep fn fs ↔
      e ∈ fs ∧ (subdirsToKeep.mem fn = true ∨ ¬ (fn :: dir) <:+ e.1) := by
  unfold removeSubdirIfStale
  split
  · next hmem => simp [hmem]
  · next hmem => simp [hmem, Fs.mem_rmRf]

/-- The steps of a loop each delete some entries. -/
theorem mem_foldl_iff {P : α → Prop} (hf : ∀ fs a, e ∈ f fs a ↔ e ∈ fs ∧ P a) :
    e ∈ l.foldl f fs ↔ e ∈ fs ∧ ∀ a ∈ l, P a := by
  induction l generalizing fs with
  | nil => simp
  | cons a l ih => rw [foldl_cons, ih, hf, forall_mem_cons, and_assoc]

variable {rulesHere here : RulesHere}

theorem mem_removeOldArtifacts :
    e ∈ removeOldArtifacts dir rulesHere subdirsToKeep fs ↔
      e ∈ fs ∧ ∀ b ∈ (fs.readdir dir).getD [], rulesHere.isTarget (b.1 :: dir) = true ∨
        match b.2 with
        | .dir => subdirsToKeep.mem b.1 = true ∨ ¬ (b.1 :: dir) <:+ e.1
        | .other => e ≠ (b.1 :: dir, .other) := by
  unfold removeOldArtifacts
  split
  · next hread => simp [hread]
  · next hread =>
    rw [hread]
    refine mem_foldl_iff fun fs b => ?_
    obtain ⟨fn, kind⟩ := b
    dsimp only
    split
    · next htarget => simp [htarget]
    · next htarget => cases kind <;> simp [htarget, mem_removeSubdirIfStale, Fs.mem_unlink]

theorem mem_removeOldSubDirs :
    e ∈ removeOldSubDirsInAnonymousActionsDir dir subdirsToKeep fs ↔
      e ∈ fs ∧ ∀ b ∈ (fs.readdir dir).getD [], b.2 = .dir →
        subdirsToKeep.mem b.1 = true ∨ ¬ (b.1 :: dir) <:+ e.1 := by
  unfold removeOldSubDirsInAnonymousActionsDir
  split
  · next hread => simp [hread]
  · next hread =>
    rw [hread]
    refine mem_foldl_iff fun fs b => ?_
    obtain ⟨fn, kind⟩ := b
    cases kind <;> simp [mem_removeSubdirIfStale]

variable {rules produced : Rules} {allowedByParent : Restriction} {d : BuildDirectory}

section

variable {cfg : BuildConfig}

/-- The sub-directories that the generator declares for a directory. -/
def declared (normal : Normal) (dir : BuildPath) : SubdirSet :=
  (Map.find normal.buildDirOnlySubDirs dir).getD .empty

/-- The values that a load of rules has gone through. -/
structure LoadNormal (cfg : BuildConfig) (d : BuildDirectory) (allowedByParent : Restriction)
    (keep : T0) (here : RulesHere) (normal : Normal) (produced : Rules)
    (sourceFilenames sourceDirs : List Filename) : Prop where
  gen : cfg.genRules d.contextName d.contextType d.subDir = .ok (.normal normal)
  rules : normal.rules = .ok produced
  sources : d.contextType = .empty ∧ sourceFilenames = [] ∧ sourceDirs = [] ∨
    d.contextType = .withSources ∧ ∃ ignore,
      sourcePathsToIgnore d.dir (declared normal d.dir) [] [] (produced.find d.dir).consume =
        .ok ignore ∧ (sourceFilenames, sourceDirs) = cfg.sourceFilesAndDirs ignore d.subDir
  keeps : descendantsToKeep d (declared normal d.dir) sourceDirs produced allowedByParent = .ok keep
  compiled : ∃ rules, (sourceFilenames = [] → rules = (produced.find d.dir).consume) ∧
    compileRules d.dir sourceDirs rules = .ok here
  valid : ∀ t ∈ produced.directoryTargets, t ∈ normal.directoryTargets

/-- What a load that succeeds has gone through. -/
def LoadsAs (cfg : BuildConfig) (d : BuildDirectory) (allowedByParent : Restriction) : Loaded → Prop
  | .build keep here => ∃ normal produced files dirs,
      LoadNormal cfg d allowedByParent keep here normal produced files dirs
  | .buildUnderDirectoryTarget ancestor =>
    cfg.genRules d.contextName d.contextType d.subDir = .ok (.underDirectoryTarget ancestor)

theorem loadBuildDirectoryExn_ok {loaded : Loaded}
    (h : cfg.loadBuildDirectoryExn d allowedByParent = .ok loaded) :
    LoadsAs cfg d allowedByParent loaded := by
  obtain ⟨result, hgen, h⟩ := bind_ok h
  cases result with
  | underDirectoryTarget ancestor =>
    cases h
    exact hgen
  | normal normal =>
    obtain ⟨_, -, h⟩ := bind_ok h
    obtain ⟨produced, hproduced, h⟩ := bind_ok h
    obtain ⟨⟨files, dirs⟩, hsources, h⟩ := bind_ok h
    obtain ⟨rules, hrules, h⟩ := bind_ok h
    obtain ⟨keep', hkeep, h⟩ := bind_ok h
    obtain ⟨here', hhere, h⟩ := bind_ok h
    obtain ⟨_, hvalid, h⟩ := bind_ok h
    cases h
    refine ⟨normal, produced, files, dirs, hgen, hproduced, ?_, hkeep, ⟨rules, ?_, hhere⟩, ?_⟩
    · unfold sources at hsources
      split at hsources
      · next hempty =>
        cases hsources
        exact .inl ⟨hempty, rfl, rfl⟩
      · next hwith =>
        obtain ⟨ignore, hignore, hret⟩ := bind_ok hsources
        exact .inr ⟨hwith, ignore, hignore, (Except.ok.inj hret).symm⟩
    · intro hnil
      rw [rulesToCompile, if_pos hnil] at hrules
      exact (Except.ok.inj hrules).symm
    · unfold validateDirectoryTargets at hvalid
      split at hvalid
      · next hall =>
        rw [Bool.and_eq_true] at hall
        simpa using hall.1
      · cases hvalid

/-! ## Targets -/

/-- The targets are files and directories of the directory. -/
def TargetsIn (dir : BuildPath) (rules : List (BuildPath × Rule)) : Prop :=
  ∀ t, (Map.find rules t).isSome → ∃ fn, t = fn :: dir

variable {dir : BuildPath} {sourceDirs : List Filename} {rule : Rule} {name : Filename}

theorem addTarget_targetsIn {rules rules' : List (BuildPath × Rule)} {target : Filename}
    (hdir : dir = rule.targets.root) (hrules : TargetsIn dir rules)
    (h : addTarget dir sourceDirs rule rules target = .ok rules') : TargetsIn dir rules' := by
  unfold addTarget at h
  split at h
  · cases h
  · split at h
    · obtain rfl := Except.ok.inj h
      intro t ht
      rw [Map.find_set] at ht
      split at ht
      · next heq => exact ⟨target, by rw [hdir, heq]⟩
      · exact hrules t ht
    · cases h

theorem compileRule_targetsIn {here' : RulesHere}
    (hhere : TargetsIn dir here.byFileTargets ∧ TargetsIn dir here.byDirectoryTargets)
    (h : compileRule dir sourceDirs here rule = .ok here') :
    TargetsIn dir here'.byFileTargets ∧ TargetsIn dir here'.byDirectoryTargets := by
  unfold compileRule at h
  split at h
  · next hdir =>
    obtain ⟨files, hfiles, h⟩ := bind_ok h
    obtain ⟨dirs, hdirs, h⟩ := bind_ok h
    obtain rfl := Except.ok.inj h
    exact ⟨foldlM_invariant (addTarget_targetsIn hdir) hhere.1 hfiles,
      foldlM_invariant (addTarget_targetsIn hdir) hhere.2 hdirs⟩
  · cases h

theorem compileRules_targets {rules : List Rule} (h : compileRules dir sourceDirs rules = .ok here)
    (ht : here.isTarget t = true) : (∃ fn, t = fn :: dir) ∧ rules ≠ [] := by
  obtain ⟨here', hfold, h⟩ := bind_ok h
  obtain ⟨_, -, h⟩ := bind_ok h
  obtain rfl := Except.ok.inj h
  constructor
  · have hnil : TargetsIn dir [] := fun t ht => by cases ht
    obtain ⟨hfiles, hdirs⟩ := foldlM_invariant compileRule_targetsIn ⟨hnil, hnil⟩ hfold
    rw [RulesHere.isTarget, Bool.or_eq_true] at ht
    exact ht.elim (hfiles t) (hdirs t)
  · rintro rfl
    obtain rfl := Except.ok.inj hfold
    cases ht

variable {d : BuildDirectory} {allowedByParent : Restriction} {keep : T0} {here : RulesHere}
  {normal : Normal} {produced : Rules} {files dirs : List Filename}

section

variable (h : LoadNormal cfg d allowedByParent keep here normal produced files dirs)
include h

/-- A directory that yields rules has source files, or the generator gives rules in it. -/
theorem LoadNormal.yields (ht : here.isTarget t = true) :
    (∃ fn, t = fn :: d.dir) ∧ (files ≠ [] ∨ (Map.find produced d.dir).isSome) := by
  obtain ⟨rules, hrules, hcompile⟩ := h.compiled
  obtain ⟨hname, hne⟩ := compileRules_targets hcompile ht
  refine ⟨hname, or_iff_not_imp_left.mpr fun hfiles => ?_⟩
  cases hfind : Map.find produced d.dir with
  | some rules' => rfl
  | none =>
    refine absurd ?_ hne
    rw [hrules (not_not.mp hfiles), Rules.find, hfind]
    rfl

theorem LoadNormal.source (hsource : files ≠ [] ∨ dirs ≠ []) :
    d.contextType = .withSources ∧ (cfg.sourceTree.findDir d.subDir).isSome := by
  obtain ⟨-, rfl, rfl⟩ | ⟨hwith, ignore, -, heq⟩ := h.sources
  · simp at hsource
  · refine ⟨hwith, ?_⟩
    unfold sourceFilesAndDirs at heq
    split at heq
    · cases heq
      simp at hsource
    · next hfind => rw [hfind]; rfl

end

/-- The directories that the rules of a directory ignore are its directory targets. -/
theorem sourcePathsToIgnore_dirs {subdirs : SubdirSet} {filenames dirnames : List Filename}
    {rules : List Rule} {ignore : List Filename × List Filename}
    (h : sourcePathsToIgnore dir subdirs filenames dirnames rules = .ok ignore)
    (hname : name ∈ ignore.2) :
    name ∈ dirnames ∨ ∃ rule ∈ rules, rule.targets.root = dir ∧ name ∈ rule.targets.dirs := by
  fun_induction sourcePathsToIgnore dir subdirs filenames dirnames rules with
  | case1 =>
    obtain rfl := Except.ok.inj h
    exact .inl hname
  | case2 => cases h
  | case3 | case4 | case5 | case6 | case7 => grind

theorem mem_directoryTargets (hrule : rule ∈ (rules.find dir).consume)
    (hname : name ∈ rule.targets.dirs) : (name :: rule.targets.root) ∈ rules.directoryTargets := by
  unfold Rules.find at hrule
  cases hfind : Map.find rules dir with
  | none =>
    rw [hfind] at hrule
    cases hrule
  | some dirRules =>
    rw [hfind] at hrule
    refine mem_flatMap.mpr ⟨_, Map.mem_of_find hfind, mem_flatMap.mpr ⟨rule, hrule, ?_⟩⟩
    exact mem_map.mpr ⟨name, hname, rfl⟩

/-- A source directory is listed by its parent. -/
theorem findDir_cons {root : SourceDir} {path : SourcePath}
    (h : (root.findDir (name :: path)).isSome) :
    ∃ dir, root.findDir path = some dir ∧ name ∈ dir.subDirNames := by
  unfold SourceDir.findDir at h
  cases hfind : root.findDir path with
  | none =>
    rw [hfind] at h
    cases h
  | some dir =>
    rw [hfind] at h
    exact ⟨dir, rfl, Map.find_isSome.mp h⟩

section

variable (h : LoadNormal cfg d allowedByParent keep here normal produced files dirs)
include h

/-- The source directories of a directory, without its directory targets. -/
theorem LoadNormal.source_dirs (hwith : d.contextType = .withSources)
    (hname : (cfg.sourceTree.findDir (name :: d.subDir)).isSome)
    (htarget : (name :: d.dir) ∉ normal.directoryTargets) : name ∈ dirs := by
  obtain ⟨hempty, -⟩ | ⟨-, ignore, hignore, heq⟩ := h.sources
  · rw [hwith] at hempty
    cases hempty
  · obtain ⟨sourceDir, hfind, hsub⟩ := findDir_cons hname
    have hignored : name ∉ ignore.2 := by
      intro hmem
      obtain ⟨rule, hrule, hroot, hdirs⟩ :=
        (sourcePathsToIgnore_dirs hignore hmem).resolve_left not_mem_nil
      exact htarget (h.valid _ (hroot ▸ mem_directoryTargets hrule hdirs))
    rw [sourceFilesAndDirs, hfind] at heq
    rw [(Prod.mk.inj heq).2, mem_filter]
    exact ⟨hsub, by simpa using hignored⟩

/-! ## What a directory keeps -/

/-- What a directory keeps is what its rules, its sources and its parent say; and with rules of its
own it is allowed by its parent. -/
theorem LoadNormal.keep_eq :
    ∃ allowed, keep = T0.unionAll [rulesGeneratedIn d.dir produced,
        (declared normal d.dir).toDirSet.union (sourceDirsToKeep dirs), allowed] ∧
      (askParent d allowedByParent = .unrestricted ∧ allowed = .empty ∨
        askParent d allowedByParent = .restricted (.ok allowed) ∧
          ((Map.find produced d.dir).isSome → allowed.here = true)) := by
  obtain ⟨_, hcheck, hkeep⟩ := bind_ok h.keeps
  obtain ⟨allowed, hallowed, hret⟩ := bind_ok hkeep
  refine ⟨allowed, (Except.ok.inj hret).symm, ?_⟩
  cases hask : askParent d allowedByParent with
  | unrestricted =>
    rw [hask] at hallowed
    exact .inl ⟨rfl, (Except.ok.inj hallowed).symm⟩
  | restricted restriction =>
    rw [hask] at hallowed hcheck
    obtain rfl : restriction = .ok allowed := hallowed
    refine .inr ⟨rfl, fun hsome => ?_⟩
    obtain ⟨rules, hrules⟩ := Option.isSome_iff_exists.mp hsome
    simp only [checkAllowed, hrules] at hcheck
    obtain ⟨restriction, hrestriction, hcheck⟩ := bind_ok hcheck
    obtain rfl := Except.ok.inj hrestriction
    by_contra hhere
    rw [if_neg hhere] at hcheck
    cases hcheck

theorem LoadNormal.keeps_source (hwith : d.contextType = .withSources)
    (hname : (cfg.sourceTree.findDir (name :: d.subDir)).isSome)
    (htarget : (name :: d.dir) ∉ normal.directoryTargets) : keep.keeps name = true := by
  obtain ⟨allowed, rfl, -⟩ := h.keep_eq
  have hsource : (sourceDirsToKeep dirs).mem [name] = true :=
    mem_foldl_union (h.source_dirs hwith hname htarget) ((mem_singleton _ _).mpr rfl)
  have hmem : (T0.unionAll [rulesGeneratedIn d.dir produced,
      (declared normal d.dir).toDirSet.union (sourceDirsToKeep dirs), allowed]).mem [name] =
        true := by
    rw [mem_unionAll]
    simp [mem_union, hsource]
  exact keeps_of_mem hmem

end

theorem descendant_eq {rel : List Filename} (h : descendant of p = some rel) :
    p = rel.reverse ++ of := by
  fun_induction descendant of p generalizing rel with
  | case1 hof | case3 name p hof =>
    cases h
    rw [hof]
    rfl
  | case2 => cases h
  | case4 name p hof ih =>
    obtain ⟨rel', hrel', rfl⟩ := Option.map_eq_some_iff.mp h
    rw [ih hrel', reverse_append]
    rfl

theorem keeps_rulesGeneratedIn (h : (rulesGeneratedIn dir rules).keeps name = true) :
    ∃ rest, (rest ++ name :: dir) ∈ rules.map Prod.fst := by
  have heq : rulesGeneratedIn dir rules = rules.foldl (fun acc b =>
      acc.union (((descendant dir b.1).map T0.singleton).getD .empty)) .empty := by
    unfold rulesGeneratedIn
    congr 1
    funext acc b
    cases descendant dir b.1 with
    | none => exact (union_empty acc).symm
    | some p => rfl
  rw [heq] at h
  obtain ⟨b, hb, h⟩ := (keeps_foldl_union h).resolve_left (by simp)
  cases hrel : descendant dir b.1 with
  | none =>
    rw [hrel] at h
    cases h
  | some rel =>
    rw [hrel] at h
    obtain ⟨rest, rfl⟩ := keeps_singleton h
    refine ⟨rest.reverse, mem_map.mpr ⟨b, hb, ?_⟩⟩
    rw [descendant_eq hrel]
    simp

/-- What a directory keeps comes from its rules or declarations, from a source directory, or from
its parent. -/
theorem LoadNormal.of_keeps
    (h : LoadNormal cfg d allowedByParent keep here normal produced files dirs)
    (hkeeps : keep.keeps name = true) :
    (∃ rest, (rest ++ name :: d.dir) ∈ produced.map Prod.fst) ∨
      (declared normal d.dir).mem name = true ∨
      (d.contextType = .withSources ∧ (cfg.sourceTree.findDir d.subDir).isSome) ∨
      ∃ allowed, askParent d allowedByParent = .restricted (.ok allowed) ∧
        allowed.keeps name = true := by
  obtain ⟨allowed, rfl, hallowed⟩ := h.keep_eq
  obtain ⟨t, ht, hname⟩ := keeps_unionAll hkeeps
  simp only [mem_cons, not_mem_nil, or_false] at ht
  obtain rfl | rfl | rfl := ht
  · exact .inl (keeps_rulesGeneratedIn hname)
  · obtain hname | hname := keeps_union hname
    · exact .inr (.inl (SubdirSet.keeps_toDirSet hname))
    · obtain ⟨dir, hdir, -⟩ := (keeps_foldl_union hname).resolve_left (by simp)
      exact .inr (.inr (.inl (h.source (.inr (ne_nil_of_mem hdir)))))
  · obtain ⟨-, rfl⟩ | ⟨hask, -⟩ := hallowed
    · cases hname
    · exact .inr (.inr (.inr ⟨_, hask, hname⟩))

end

/-! ## The way from a context to a directory -/

section

variable (cfg : BuildConfig)

/-- The parent is not asked about the directory. -/
inductive Unchecked (d : BuildDirectory) : Prop
  /-- The context has no sources, and a source directory has the name of the directory. -/
  | noSources : d.contextType = .empty → (cfg.sourceTree.findDir d.subDir).isSome → Unchecked d
  | duneDir : d.contextType = .withSources → d.subDir = [duneDirBasename] → Unchecked d
  /-- The directory has no rules, but its generator gives rules below it or declares
  sub-directories. -/
  | noRules {normal : Normal} {produced : Rules} :
      cfg.genRules d.contextName d.contextType d.subDir = .ok (.normal normal) →
      normal.rules = .ok produced → Map.find produced d.dir = none →
      (∃ rest name, (rest ++ name :: d.dir) ∈ produced.map Prod.fst) ∨
        (∃ name, (declared normal d.dir).mem name = true) → Unchecked d

/-- Loading a directory does not delete the sub-directory. -/
def Keeps (parent : BuildPath) (name : Filename) : Prop :=
  ∀ keep here, cfg.loadDir parent = .ok (.build keep here) →
    keep.keeps name = true ∨ here.isTarget (name :: parent) = true

instance (parent : BuildPath) (name : Filename) : Decidable (Keeps cfg parent name) :=
  match h : cfg.loadDir parent with
  | .ok (.build keep here) =>
    decidable_of_iff (keep.keeps name = true ∨ here.isTarget (name :: parent) = true) <| by
      simp [Keeps, h]
  | .ok (.buildUnderDirectoryTarget _) => isTrue (by simp [Keeps, h])
  | .error _ => isTrue (by simp [Keeps, h])

variable {cfg} {ctx : Filename} {ct : ContextType}

/-- A build directory of the configuration. -/
structure IsContext (cfg : BuildConfig) (ctx : Filename) (ct : ContextType) : Prop where
  name : isContextName ctx = true
  find : Map.find cfg.contexts ctx = some ct

theorem IsContext.ne_actions (h : IsContext cfg ctx ct) : ctx ≠ actionsDirBasename := by
  rintro rfl
  exact absurd h.name (by decide)

theorem IsContext.getDirTriage (h : IsContext cfg ctx ct) (sub : SourcePath) :
    cfg.getDirTriage (sub ++ [ctx]) = .ok (.buildDirectory ⟨ctx, ct, sub⟩) := by
  simp [BuildConfig.getDirTriage, h.ne_actions, h.name, h.find]

theorem of_getDirTriage (h : cfg.getDirTriage dir = .ok (.buildDirectory d)) :
    dir = d.dir ∧ IsContext cfg d.contextName d.contextType := by
  unfold BuildConfig.getDirTriage at h
  split at h
  · cases h
  · next name hlast =>
    split at h
    · cases h
    · split at h
      · next hname =>
        split at h
        · cases h
        · next hfind =>
          cases h
          exact ⟨(dropLast_append_getLast? name hlast).symm, hname, hfind⟩
      · cases h

theorem IsContext.loadDir (h : IsContext cfg ctx ct) (name : Filename) (sub : SourcePath) :
    cfg.loadDir (name :: sub ++ [ctx]) = cfg.loadBuildDirectoryExn ⟨ctx, ct, name :: sub⟩
      (cfg.allowedDirs (sub ++ [ctx]) name (cfg.loadDir (sub ++ [ctx]))) := by
  have htriage := h.getDirTriage (name :: sub)
  rw [cons_append] at htriage ⊢
  rw [BuildConfig.loadDir, htriage]
  rfl

theorem loadDir_singleton (ctx : Filename) : cfg.loadDir [ctx] = (cfg.getDirTriage [ctx] >>= fun
    | .known loaded => pure loaded
    | .buildDirectory d =>
      cfg.loadBuildDirectoryExn d (cfg.allowedDirs [] ctx (cfg.loadDir []))) :=
  rfl

theorem IsContext.loadDir_exn (h : IsContext cfg ctx ct) (sub : SourcePath) :
    ∃ allowedByParent, cfg.loadDir (sub ++ [ctx]) =
      cfg.loadBuildDirectoryExn ⟨ctx, ct, sub⟩ allowedByParent := by
  cases sub with
  | nil =>
    have htriage := h.getDirTriage []
    refine ⟨cfg.allowedDirs [] ctx (cfg.loadDir []), ?_⟩
    rw [nil_append] at htriage ⊢
    rw [loadDir_singleton, htriage]
    rfl
  | cons name sub => exact ⟨_, h.loadDir name sub⟩

theorem eq_of_suffix {l₁ l₂ l : BuildPath} (h₁ : l₁ <:+ l) (h₂ : l₂ <:+ l)
    (hlength : l₁.length = l₂.length) : l₁ = l₂ :=
  (suffix_of_suffix_length_le h₁ h₂ (le_of_eq hlength)).eq_of_length hlength

variable {name : Filename} {sub : SourcePath} {normal : Normal} {keep : T0} {here : RulesHere}
  {fs : Fs} {e : BuildPath × FileKind}

theorem IsContext.mem_sourceSubdirs (h : IsContext cfg ctx ct) :
    name ∈ cfg.sourceSubdirsOfBuildDir (sub ++ [ctx]) ↔
      (cfg.sourceTree.findDir (name :: sub)).isSome := by
  have heq : cfg.sourceSubdirsOfBuildDir (sub ++ [ctx]) =
      ((cfg.sourceTree.findDir sub).map SourceDir.subDirNames).getD [] := by
    rw [sourceSubdirsOfBuildDir, List.getLast?_concat, dropLast_concat]
    simp only [h.ne_actions, if_false, h.name, if_true]
    cases cfg.sourceTree.findDir sub <;> rfl
  rw [heq, SourceDir.findDir]
  cases cfg.sourceTree.findDir sub with
  | none => simp
  | some dir => exact Iff.symm Map.find_isSome

/-- Nothing is generated in a directory target. -/
theorem genRules_cons (h : cfg.genRules ctx ct (name :: sub) = .ok (.normal normal)) :
    ∃ normal₀, cfg.genRules ctx ct sub = .ok (.normal normal₀) ∧
      (name :: sub ++ [ctx]) ∉ normal₀.directoryTargets := by
  obtain ⟨result, hresult, h⟩ := bind_ok h
  cases result with
  | underDirectoryTarget ancestor => cases h
  | normal normal₀ =>
    refine ⟨normal₀, hresult, fun hmem => ?_⟩
    simp only at h
    rw [if_pos] at h
    · cases h
    · exact contains_iff_mem.mpr hmem

theorem IsContext.load_ok (hc : IsContext cfg ctx ct)
    (h : cfg.loadDir (sub ++ [ctx]) = .ok (.build keep here)) :
    ∃ allowedByParent normal produced files dirs,
      LoadNormal cfg ⟨ctx, ct, sub⟩ allowedByParent keep here normal produced files dirs := by
  obtain ⟨allowedByParent, heq⟩ := hc.loadDir_exn sub
  rw [heq] at h
  exact ⟨allowedByParent, loadBuildDirectoryExn_ok h⟩

/-- A directory on the way is a source directory, or it has been loaded and has rules or keeps a
sub-directory. -/
def OnWay (cfg : BuildConfig) (ctx : Filename) (sub : SourcePath) : Prop :=
  (cfg.sourceTree.findDir sub).isSome ∨
    ∃ keep here, cfg.loadDir (sub ++ [ctx]) = .ok (.build keep here) ∧
      ((∃ t, here.isTarget t = true) ∨ ∃ name, keep.keeps name = true)

theorem keeps_source (hc : IsContext cfg ctx .withSources)
    (hgen : cfg.genRules ctx .withSources (name :: sub) = .ok (.normal normal))
    (hsource : (cfg.sourceTree.findDir (name :: sub)).isSome) : Keeps cfg (sub ++ [ctx]) name := by
  intro keep here hload
  obtain ⟨allowedByParent, normal₀, produced, files, dirs, hnormal⟩ := hc.load_ok hload
  obtain ⟨normal₁, hgen₁, htarget⟩ := genRules_cons hgen
  obtain rfl : normal₁ = normal₀ := by
    cases hgen₁.symm.trans hnormal.gen
    rfl
  exact .inl (hnormal.keeps_source rfl hsource htarget)

/-- What a directory that is not a source directory has asked its parent. -/
theorem asked_parent (hc : IsContext cfg ctx ct) {files dirs : List Filename}
    (hsource : ¬ (cfg.sourceTree.findDir (name :: sub)).isSome)
    (hdune : ¬ (ct = .withSources ∧ name :: sub = [duneDirBasename]))
    (h : LoadNormal cfg ⟨ctx, ct, name :: sub⟩
      (cfg.allowedDirs (sub ++ [ctx]) name (cfg.loadDir (sub ++ [ctx]))) keep here normal produced
      files dirs) :
    ∃ keep₀ here₀, cfg.loadDir (sub ++ [ctx]) = .ok (.build keep₀ here₀) ∧
      askParent ⟨ctx, ct, name :: sub⟩
        (cfg.allowedDirs (sub ++ [ctx]) name (cfg.loadDir (sub ++ [ctx]))) =
          .restricted (.ok (keep₀.descend name)) := by
  have hnot := hc.mem_sourceSubdirs.not.mpr hsource
  obtain ⟨allowed, -, hallowed⟩ := h.keep_eq
  rw [askParent, if_neg hdune, allowedDirs, if_neg hnot] at hallowed ⊢
  obtain ⟨hunrestricted, -⟩ | ⟨hrestricted, -⟩ := hallowed
  · cases hunrestricted
  · obtain ⟨loaded, hload, hallowed⟩ := bind_ok (Restriction.restricted.inj hrestricted)
    cases loaded with
    | build keep₀ here₀ => exact ⟨keep₀, here₀, hload, by rw [hload]; rfl⟩
    | buildUnderDirectoryTarget ancestor =>
      obtain ⟨normal₀, hgen₀, -⟩ := genRules_cons h.gen
      obtain ⟨allowedByParent, heq⟩ := hc.loadDir_exn sub
      rw [heq] at hload
      cases hgen₀.symm.trans (loadBuildDirectoryExn_ok hload)

/-- A directory that has asked its parent is kept there, or it has rules only below it. -/
theorem keeps_of_asked {keep₀ : T0} {files dirs : List Filename}
    (h : LoadNormal cfg ⟨ctx, ct, name :: sub⟩ allowedByParent keep here normal produced files dirs)
    (hask : askParent ⟨ctx, ct, name :: sub⟩ allowedByParent =
      .restricted (.ok (keep₀.descend name)))
    (hsource : ¬ (cfg.sourceTree.findDir (name :: sub)).isSome)
    (hrest : (∃ t, here.isTarget t = true) ∨ ∃ name', keep.keeps name' = true) :
    keep₀.keeps name = true ∨ Unchecked cfg ⟨ctx, ct, name :: sub⟩ := by
  cases hfind : Map.find produced (BuildDirectory.dir ⟨ctx, ct, name :: sub⟩) with
  | some rules =>
    obtain ⟨allowed, -, ⟨hunrestricted, -⟩ | ⟨hrestricted, hhere⟩⟩ := h.keep_eq
    · rw [hask] at hunrestricted
      cases hunrestricted
    · rw [hask] at hrestricted
      obtain rfl := Except.ok.inj (Restriction.restricted.inj hrestricted)
      have hmem : keep₀.mem [name] = true := by
        rw [← mem_descend, mem_nil]
        exact hhere (by rw [hfind]; rfl)
      exact .inl (keeps_of_mem hmem)
  | none =>
    obtain ⟨t, ht⟩ | ⟨name', hname'⟩ := hrest
    · obtain hfiles | hsome := (h.yields ht).2
      · exact absurd (h.source (.inl hfiles)).2 hsource
      · rw [hfind] at hsome
        cases hsome
    · obtain ⟨rest, hmem⟩ | hmem | ⟨-, hsource'⟩ | ⟨allowed, hallowed, hkeeps⟩ := h.of_keeps hname'
      · exact .inr (.noRules h.gen h.rules hfind (.inl ⟨rest, name', hmem⟩))
      · exact .inr (.noRules h.gen h.rules hfind (.inr ⟨name', hmem⟩))
      · exact absurd hsource' hsource
      · rw [hask] at hallowed
        obtain rfl := Except.ok.inj (Restriction.restricted.inj hallowed)
        exact .inl (keeps_of_descend hkeeps)

section

variable (hc : IsContext cfg ctx ct)
include hc

/-- One step up the way: if the parent keeps the directories about which it is not asked, it keeps
this one, and it is on the way itself. -/
theorem keeps_of_onWay (hgen : cfg.genRules ctx ct (name :: sub) = .ok (.normal normal))
    (hway : OnWay cfg ctx (name :: sub))
    (hunchecked : Unchecked cfg ⟨ctx, ct, name :: sub⟩ → Keeps cfg (sub ++ [ctx]) name) :
    Keeps cfg (sub ++ [ctx]) name ∧ OnWay cfg ctx sub := by
  by_cases hsource : (cfg.sourceTree.findDir (name :: sub)).isSome
  · obtain ⟨dir, hdir, -⟩ := findDir_cons hsource
    refine ⟨?_, .inl (by rw [hdir]; rfl)⟩
    cases ct with
    | empty => exact hunchecked (.noSources rfl hsource)
    | withSources => exact keeps_source hc hgen hsource
  · obtain ⟨keep, here, hload, hrest⟩ := hway.resolve_left hsource
    by_cases hdune : ct = .withSources ∧ name :: sub = [duneDirBasename]
    · have hsub : sub = [] := (List.cons.inj hdune.2).2
      exact ⟨hunchecked (.duneDir hdune.1 hdune.2), .inl (by rw [hsub]; rfl)⟩
    · rw [hc.loadDir] at hload
      obtain ⟨normal', produced, files, dirs, hnormal⟩ := loadBuildDirectoryExn_ok hload
      obtain ⟨keep₀, here₀, hload₀, hask⟩ := asked_parent hc hsource hdune hnormal
      have hkeeps : Keeps cfg (sub ++ [ctx]) name := by
        obtain hname | hname := keeps_of_asked hnormal hask hsource hrest
        · intro keep₁ here₁ hload₁
          obtain ⟨rfl, -⟩ := Loaded.build.inj (Except.ok.inj (hload₀.symm.trans hload₁))
          exact .inl hname
        · exact hunchecked hname
      refine ⟨hkeeps, .inr ⟨keep₀, here₀, hload₀, ?_⟩⟩
      obtain hname | hname := hkeeps keep₀ here₀ hload₀
      · exact .inr ⟨name, hname⟩
      · exact .inl ⟨_, hname⟩

theorem keeps_way
    (hgen : cfg.genRules ctx ct sub = .ok (.normal normal)) (hway : OnWay cfg ctx sub)
    (hunchecked : ∀ name sub', (name :: sub') <:+ sub → Unchecked cfg ⟨ctx, ct, name :: sub'⟩ →
      Keeps cfg (sub' ++ [ctx]) name) :
    ∀ name sub', (name :: sub') <:+ sub → Keeps cfg (sub' ++ [ctx]) name := by
  induction sub generalizing normal with
  | nil =>
    intro name sub' hsuffix
    cases suffix_nil.mp hsuffix
  | cons name₀ sub ih =>
    obtain ⟨hkeeps, hway'⟩ :=
      keeps_of_onWay hc hgen hway (hunchecked name₀ sub (suffix_refl _))
    obtain ⟨normal₀, hgen₀, -⟩ := genRules_cons hgen
    intro name sub' hsuffix
    obtain heq | hsuffix := suffix_cons_iff.mp hsuffix
    · obtain ⟨rfl, rfl⟩ := List.cons.inj heq
      exact hkeeps
    · refine ih hgen₀ hway' (fun name sub' hsuffix => ?_) name sub' hsuffix
      exact hunchecked name sub' (hsuffix.trans (suffix_cons _ _))

/-! ## Loads in any order -/

theorem IsContext.load (h : cfg.loadDir (sub ++ [ctx]) = .ok (.build keep here)) (fs : Fs) :
    cfg.load fs (sub ++ [ctx]) =
      removeOldSubDirsInAnonymousActionsDir (sub ++ [ctx] ++ [actionsDirBasename])
        (SubdirSet.ofDirSet keep)
        (removeOldArtifacts (sub ++ [ctx]) here (SubdirSet.ofDirSet keep) fs) := by
  rw [BuildConfig.load, hc.getDirTriage, h]

/-- What is below a context survives a load that keeps or generates all that is above it. -/
theorem mem_load (he : e ∈ fs) (hctx : [ctx] <:+ e.1)
    (h : ∀ keep here, cfg.loadDir (sub ++ [ctx]) = .ok (.build keep here) →
      ∀ fn, (fn :: (sub ++ [ctx])) <:+ e.1 → here.isTarget (fn :: (sub ++ [ctx])) = true ∨
        keep.keeps fn = true ∧ e ≠ (fn :: (sub ++ [ctx]), .other)) :
    e ∈ cfg.load fs (sub ++ [ctx]) := by
  unfold BuildConfig.load
  split
  · next keep here _ hload =>
    refine mem_removeOldSubDirs.mpr ⟨mem_removeOldArtifacts.mpr ⟨he, fun b _ => ?_⟩,
      fun b _ _ => .inr fun hactions => ?_⟩
    · by_cases hsuffix : (b.1 :: (sub ++ [ctx])) <:+ e.1
      · refine (h keep here hload b.1 hsuffix).imp_right fun hkeeps => ?_
        cases b.2 with
        | dir => exact .inl hkeeps.1
        | other => exact hkeeps.2
      · cases b.2 with
        | dir => exact .inr (.inr hsuffix)
        | other => exact .inr fun heq => hsuffix (by rw [heq])
    · have hlast : [actionsDirBasename] <:+ e.1 :=
        (suffix_append (b.1 :: (sub ++ [ctx])) _).trans hactions
      exact hc.ne_actions (List.cons.inj (eq_of_suffix hctx hlast rfl)).1
  · exact he

end

/-- What belongs to a directory that is loaded: the directory itself, and its targets with all that
is in them. -/
def Current (dir : BuildPath) (here : RulesHere) (e : BuildPath × FileKind) : Prop :=
  e = (dir, .dir) ∨ ∃ t, here.isTarget t = true ∧ t <:+ e.1

/-- Loads of a directory and of the directories above it, in any order, delete nothing that belongs
to it. -/
def Safe (cfg : BuildConfig) (dir : BuildPath) (here : RulesHere) : Prop :=
  ∀ (fs : Fs) (loads : List BuildPath), (∀ a ∈ loads, a <:+ dir) →
    ∀ e ∈ fs, Current dir here e → e ∈ loads.foldl cfg.load fs

theorem suffix_cases {a : BuildPath} (h : a <:+ sub ++ [ctx]) :
    a = [] ∨ a = sub ++ [ctx] ∨ ∃ name sub', (name :: sub') <:+ sub ∧ a = sub' ++ [ctx] := by
  obtain rfl | ⟨sub', rfl, rest, rfl⟩ := suffix_concat_iff.mp h
  · exact .inl rfl
  · obtain rfl | ⟨rest', name, rfl⟩ := eq_nil_or_concat rest
    · exact .inr (.inl rfl)
    · exact .inr (.inr ⟨name, sub', ⟨rest', by simp⟩, rfl⟩)

section

variable (hc : IsContext cfg ctx ct) (h : cfg.loadDir (sub ++ [ctx]) = .ok (.build keep here))
include hc h

theorem Current.suffix (hcurrent : Current (sub ++ [ctx]) here e) :
    e = (sub ++ [ctx], .dir) ∨
      ∃ fn, here.isTarget (fn :: (sub ++ [ctx])) = true ∧ (fn :: (sub ++ [ctx])) <:+ e.1 := by
  refine hcurrent.imp_right fun ⟨t, ht, hsuffix⟩ => ?_
  obtain ⟨allowedByParent, normal, produced, files, dirs, hnormal⟩ := hc.load_ok h
  obtain ⟨⟨fn, rfl⟩, -⟩ := hnormal.yields ht
  exact ⟨fn, ht, hsuffix⟩

theorem load_keeps_own (he : e ∈ fs) (hcurrent : Current (sub ++ [ctx]) here e) :
    e ∈ cfg.load fs (sub ++ [ctx]) := by
  obtain rfl | ⟨fn, hfn, hsuffix⟩ := hcurrent.suffix hc h
  · refine mem_load hc he (suffix_append sub [ctx]) fun keep here _ fn hfn => ?_
    exact absurd hfn.length_le (by simp)
  · have hdir : (sub ++ [ctx]) <:+ e.1 := (suffix_cons _ _).trans hsuffix
    have hctx : [ctx] <:+ e.1 := (suffix_append sub [ctx]).trans hdir
    refine mem_load hc he hctx fun keep' here' h' fn' hfn' => ?_
    obtain ⟨-, rfl⟩ := Loaded.build.inj (Except.ok.inj (h.symm.trans h'))
    obtain rfl := (List.cons.inj (eq_of_suffix hfn' hsuffix rfl)).1
    exact .inl hfn

/-- The load of a directory above keeps it, if it keeps the sub-directory on the way. -/
theorem load_keeps_below {sub' : SourcePath} (hway : (name :: sub') <:+ sub)
    (hkeeps : Keeps cfg (sub' ++ [ctx]) name) (he : e ∈ fs)
    (hcurrent : Current (sub ++ [ctx]) here e) : e ∈ cfg.load fs (sub' ++ [ctx]) := by
  have hway' : (name :: (sub' ++ [ctx])) <:+ (sub ++ [ctx]) := by
    obtain ⟨rest, rfl⟩ := hway
    exact ⟨rest, by simp⟩
  have hcurrent := hcurrent.suffix hc h
  have hdir : (sub ++ [ctx]) <:+ e.1 := by
    obtain rfl | ⟨fn, -, hsuffix⟩ := hcurrent
    · exact suffix_refl _
    · exact (suffix_cons _ _).trans hsuffix
  have hother : e ≠ (name :: (sub' ++ [ctx]), .other) := by
    rintro rfl
    obtain heq | ⟨fn, -, hsuffix⟩ := hcurrent
    · exact absurd (Prod.mk.inj heq).2 (by decide)
    · have hle := hway'.length_le
      have hle' := hsuffix.length_le
      simp at hle hle'
      omega
  refine mem_load hc he ((suffix_append sub [ctx]).trans hdir) fun keep₀ here₀ h₀ fn hfn => ?_
  obtain rfl := (List.cons.inj (eq_of_suffix hfn (hway'.trans hdir) rfl)).1
  exact (hkeeps keep₀ here₀ h₀).symm.imp_right fun hkeeps => ⟨hkeeps, hother⟩

theorem safe_of_keeps
    (hkeeps : ∀ name sub', (name :: sub') <:+ sub → Keeps cfg (sub' ++ [ctx]) name) :
    Safe cfg (sub ++ [ctx]) here := by
  intro fs loads hloads e he hcurrent
  refine foldlRecOn loads cfg.load he fun fs he a ha => ?_
  obtain rfl | rfl | ⟨name, sub', hway, rfl⟩ := suffix_cases (hloads a ha)
  · exact he
  · exact load_keeps_own hc h he hcurrent
  · exact load_keeps_below hc h hway (hkeeps name sub' hway) he hcurrent

end

/-- A sub-directory that is not kept is deleted with the directory below it. -/
theorem keeps_of_safe (hc : IsContext cfg ctx ct) {sub' : SourcePath}
    (hway : (name :: sub') <:+ sub) (h : Safe cfg (sub ++ [ctx]) here) :
    Keeps cfg (sub' ++ [ctx]) name := by
  intro keep₀ here₀ hload₀
  obtain ⟨rest, rfl⟩ := hway
  by_contra hnot
  rw [not_or, Bool.not_eq_true, Bool.not_eq_true] at hnot
  have hmem := h [(sub' ++ [ctx], .dir), (name :: (sub' ++ [ctx]), .dir),
      (rest ++ name :: sub' ++ [ctx], .dir)] [sub' ++ [ctx]]
    (fun a ha => by
      rw [mem_singleton.mp ha]
      exact ⟨rest ++ [name], by simp⟩)
    (rest ++ name :: sub' ++ [ctx], .dir) (by simp) (.inl rfl)
  rw [foldl_cons, foldl_nil, hc.load hload₀] at hmem
  have hdel := (mem_removeOldArtifacts.mp (mem_removeOldSubDirs.mp hmem).1).2 (name, .dir)
    (by simp [Fs.readdir])
  obtain htarget | hkeep | hsuffix := hdel
  · exact Bool.false_ne_true (hnot.2.symm.trans htarget)
  · exact Bool.false_ne_true (hnot.1.symm.trans hkeep)
  · exact hsuffix ⟨rest, by simp⟩

end

/-- What the load of a directory deletes itself is none of its targets. A directory that yields
rules is not deleted with its targets by loads of the directories above it, in any order, exactly
when those of them about which the parent is not asked are kept. -/
theorem stale_deletion_safe_iff (cfg : BuildConfig) (dir : BuildPath) (d : BuildDirectory)
    (keep : T0) (here : RulesHere) (htriage : cfg.getDirTriage dir = .ok (.buildDirectory d))
    (hload : cfg.loadDir dir = .ok (.build keep here)) :
    (∀ fs, ∀ e ∈ fs, Current dir here e → e ∈ cfg.load fs dir) ∧
    ((∃ t, here.isTarget t = true) →
      (Safe cfg dir here ↔ ∀ name sub, (name :: sub) <:+ d.subDir →
        Unchecked cfg ⟨d.contextName, d.contextType, name :: sub⟩ →
          Keeps cfg (sub ++ [d.contextName]) name)) := by
  obtain ⟨rfl, hc⟩ := of_getDirTriage htriage
  refine ⟨fun fs e he hcurrent => load_keeps_own hc hload he hcurrent, fun hyields => ⟨?_, ?_⟩⟩
  · exact fun h name sub hway _ => keeps_of_safe hc hway h
  · intro h
    obtain ⟨allowedByParent, normal, produced, files, dirs, hnormal⟩ := hc.load_ok hload
    refine safe_of_keeps hc hload (keeps_way hc hnormal.gen (.inr ?_) h)
    exact ⟨keep, here, hload, .inl hyields⟩

/-! ## Configurations -/

/-- Loading the directory gives a rule for the target. -/
def Yields (cfg : BuildConfig) (dir t : BuildPath) : Prop :=
  ∃ keep here, cfg.loadDir dir = .ok (.build keep here) ∧ here.isTarget t = true

instance (cfg : BuildConfig) (dir t : BuildPath) : Decidable (Yields cfg dir t) :=
  match h : cfg.loadDir dir with
  | .ok (.build keep here) => decidable_of_iff (here.isTarget t = true) (by simp [Yields, h])
  | .ok (.buildUnderDirectoryTarget _) => isFalse (by simp [Yields, h])
  | .error _ => isFalse (by simp [Yields, h])

theorem not_safe {cfg : BuildConfig} (above : BuildPath) (fs : Fs) (hyields : Yields cfg dir t)
    (habove : above <:+ dir) (hmem : (t, .other) ∈ fs) (hdel : (t, .other) ∉ cfg.load fs above) :
    ∃ keep here, cfg.loadDir dir = .ok (.build keep here) ∧ here.isTarget t = true ∧
      ¬ Safe cfg dir here := by
  obtain ⟨keep, here, hload, ht⟩ := hyields
  refine ⟨keep, here, hload, ht, fun hsafe => hdel ?_⟩
  refine hsafe fs [above] (fun a ha => ?_) _ hmem (.inr ⟨t, ht, suffix_refl t⟩)
  exact mem_singleton.mp ha ▸ habove

def defaultName : Filename := ⟨Bytes.ascii "default", by decide⟩

/-- The name of a directory, and of a file. -/
def aName : Filename := ⟨Bytes.ascii "a", by decide⟩

/-- The generator that gives a rule for one file in one directory, and nothing else. -/
def oneRule (dir : BuildPath) (fn : Filename) :
    Filename → BuildPath → List Filename → Except LoadError GenRules :=
  fun _ dir' _ => .ok (.rules
    ⟨[], [], .ok (if dir' = dir then [(dir, [(0, .rule ⟨⟨dir, [fn], []⟩, .standard, .internal⟩)])]
      else [])⟩)

/-- A rule in a source directory. -/
def sourceConfig (contextType : ContextType) : BuildConfig where
  contexts := [(defaultName, contextType)]
  ruleGenerator := oneRule [aName, defaultName] aName
  sourceTree := .mk [] [(aName, .mk [] [])]

/-- A rule two levels down: the directory between knows about it, the root does not know about the
directory between. -/
def declaredConfig : BuildConfig where
  contexts := [(defaultName, .withSources)]
  ruleGenerator ctx dir components :=
    if dir = [aName, defaultName] then .ok (.rules ⟨[(dir, .these [aName])], [], .ok []⟩)
    else oneRule [aName, aName, defaultName] aName ctx dir components
  sourceTree := .mk [] []

theorem stale_deletion_source :
    ∃ keep here, (sourceConfig .withSources).loadDir [aName, defaultName] = .ok (.build keep here) ∧
      here.isTarget [aName, aName, defaultName] = true ∧
      Safe (sourceConfig .withSources) [aName, defaultName] here := by
  obtain ⟨keep, here, hload, ht⟩ :
      Yields (sourceConfig .withSources) [aName, defaultName] [aName, aName, defaultName] := by
    decide +kernel
  refine ⟨keep, here, hload, ht, ?_⟩
  have hiff := (stale_deletion_safe_iff (sourceConfig .withSources) [aName, defaultName]
    ⟨defaultName, .withSources, [aName]⟩ keep here rfl hload).2 ⟨_, ht⟩
  refine hiff.mpr fun name sub' hway _ => ?_
  obtain heq | hnil := suffix_cons_iff.mp hway
  · obtain ⟨rfl, rfl⟩ := List.cons.inj heq
    decide +kernel
  · cases suffix_nil.mp hnil

/-- The rule in a directory with the name of a source directory, in a context without sources, and
the rule two levels down are deleted by the load of the root. -/
theorem stale_deletion_unsafe :
    (∃ keep here, (sourceConfig .empty).loadDir [aName, defaultName] = .ok (.build keep here) ∧
      here.isTarget [aName, aName, defaultName] = true ∧
      ¬ Safe (sourceConfig .empty) [aName, defaultName] here) ∧
    ∃ keep here, declaredConfig.loadDir [aName, aName, defaultName] = .ok (.build keep here) ∧
      here.isTarget [aName, aName, aName, defaultName] = true ∧
      ¬ Safe declaredConfig [aName, aName, defaultName] here := by
  constructor
  · refine not_safe [defaultName] [([defaultName], .dir), ([aName, defaultName], .dir),
      ([aName, aName, defaultName], .other)] ?_ ?_ ?_ ?_ <;> decide +kernel
  · refine not_safe [defaultName] [([defaultName], .dir), ([aName, defaultName], .dir),
      ([aName, aName, aName, defaultName], .other)] ?_ ?_ ?_ ?_ <;> decide +kernel

end BuildConfig

end Dune.Engine
