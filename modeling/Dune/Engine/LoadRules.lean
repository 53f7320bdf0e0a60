import Dune.Engine.SubdirSet

/-!
# Loading the rules of a directory

The part of `load_rules.ml` that loads build directories: the rules that are generated for a
directory, the directories that its parent allows and those that it keeps itself, and the deletion
of what is left in the build directory from earlier runs.

A path is the list of its components from the innermost on, so that the parent of a path is its
tail. Sets of file names are lists. What the rule generator gives is a value, or the error with
which it ends; the aliases that are expanded for a directory are left out.
-/

namespace Dune.Engine

open Dune.Stdune

abbrev BuildPath := List Filename

abbrev SourcePath := List Filename

/-- `Path.Local_gen.descendant`: the components from `of` on. -/
def descendant (of : BuildPath) : BuildPath → Option (List Filename)
  | [] => if of = [] then some [] else none
  | name :: p => if of = name :: p then some [] else (descendant of p).map (· ++ [name])

def isDescendant (p of : BuildPath) : Bool := of.isSuffixOf p

inductive SourceDir where
  | mk (filenames : List Filename) (subDirs : List (Filename × SourceDir))

namespace SourceDir

def filenames : SourceDir → List Filename
  | .mk filenames _ => filenames

def subDirs : SourceDir → List (Filename × SourceDir)
  | .mk _ subDirs => subDirs

def subDirNames (dir : SourceDir) : List Filename := dir.subDirs.map Prod.fst

/-- `Source_tree.find_dir`, from the root of the tree. -/
def findDir (root : SourceDir) : SourcePath → Option SourceDir
  | [] => some root
  | name :: path => do Map.find (← findDir root path).subDirs name

end SourceDir

/-! ## Rules -/

/-- `Rule.Mode.t`; of a promotion the field that is read. -/
inductive RuleMode where
  | standard
  | fallback
  | promote (only : Option (Filename → Bool))
  | ignoreSourceFiles

/-- `Rule.Info.t`, without the location. -/
inductive RuleInfo where
  | fromDuneFile
  | internal
  | sourceFileCopy (src : SourcePath)

/-- `Targets.Validated.t`. -/
structure Targets where
  root : BuildPath
  files : List Filename
  dirs : List Filename

/-- `Rule.t`, without its action. -/
structure Rule where
  targets : Targets
  mode : RuleMode
  info : RuleInfo

inductive RuleData where
  | rule (rule : Rule)
  | alias (name : Bytes)

/-- `Rules.Dir_rules.t`, a map from identifiers. -/
abbrev DirRules := List (Nat × RuleData)

/-- The rules of `Rules.Dir_rules.consume`. -/
def DirRules.consume (t : DirRules) : List Rule :=
  t.filterMap fun
    | (_, .rule rule) => some rule
    | (_, .alias _) => none

def DirRules.union (a b : DirRules) : DirRules := Map.union (fun _ x _ => some x) a b

abbrev Rules := List (BuildPath × DirRules)

namespace Rules

def union (a b : Rules) : Rules := Map.union (fun _ x y => some (DirRules.union x y)) a b

def find (t : Rules) (p : BuildPath) : DirRules := (Map.find t p).getD []

/-- `Rules.directory_targets`, without the locations. -/
def directoryTargets (rules : Rules) : List BuildPath :=
  rules.flatMap fun (_, dirRules) =>
    (DirRules.consume dirRules).flatMap fun rule =>
      rule.targets.dirs.map fun target => target :: rule.targets.root

end Rules

/-! ## The configuration -/

inductive ContextType where
  | empty
  | withSources
deriving DecidableEq, Repr

inductive LoadError where
  | generator (msg : String)
  | notDescendant (dir example_ : BuildPath)
  | unknownContext (context : Filename)
  | redirectOnRoot (context : Filename)
  | underDirectoryTarget (ancestor : BuildPath)
  | duplicateDirectoryTarget (target : BuildPath)
  | internalDirConflict (target : Filename)
  | sourceDirConflict (dir : BuildPath) (target : Filename) (rule : Rule)
  | ruleConflict (target : BuildPath) (rule₁ rule₂ : Rule)
  | fallbackDirectoryTarget (targets : Targets)
  | fallbackPartly (rule : Rule) (present absent : List Filename)
  | notAllowedByParent (dir : BuildPath) (rules : DirRules) (restriction : T0)
  | directoryTargetsMismatch (dir : BuildPath)
  | anonymousActionDir (dir : BuildPath)
  | assertFailure

/-- `Gen_rules.Rules.t`, and `Normal.t`. The rules are forced where they are used. -/
structure Normal where
  buildDirOnlySubDirs : List (BuildPath × SubdirSet)
  directoryTargets : List BuildPath
  rules : Except LoadError Rules

inductive GenRules where
  | rules (rules : Normal)
  | unknownContext
  | redirectToParent (rules : Normal)

/-- `Context_name.of_string_opt` accepts the name. -/
def isContextName (name : Filename) : Bool :=
  !(name.toString.head? == some 46 || name.toString == Bytes.ascii "log" ||
    name.toString.any fun b => b == 47 || b == 92 || b == 58)

structure BuildConfig where
  contexts : List (Filename × ContextType)
  ruleGenerator : Filename → BuildPath → List Filename → Except LoadError GenRules
  sourceTree : SourceDir

structure BuildDirectory where
  contextName : Filename
  contextType : ContextType
  subDir : SourcePath

/-- The field `dir`: `context_name / sub_dir`. -/
def BuildDirectory.dir (d : BuildDirectory) : BuildPath := d.subDir ++ [d.contextName]

structure RulesHere where
  byFileTargets : List (BuildPath × Rule)
  byDirectoryTargets : List (BuildPath × Rule)

def RulesHere.isTarget (rules : RulesHere) (path : BuildPath) : Bool :=
  (Map.find rules.byFileTargets path).isSome || (Map.find rules.byDirectoryTargets path).isSome

/-- `Loaded.t` for directories of the build directory. -/
inductive Loaded where
  | build (allowedSubdirs : T0) (rulesHere : RulesHere)
  | buildUnderDirectoryTarget (directoryTargetAncestor : BuildPath)

def Loaded.noRules (allowedSubdirs : T0) : Loaded := .build allowedSubdirs ⟨[], []⟩

inductive DirTriage where
  | known (loaded : Loaded)
  | buildDirectory (d : BuildDirectory)

/-- `Dpath.Build.anonymous_actions_dir_basename`. -/
def actionsDirBasename : Filename := ⟨Bytes.ascii ".actions", by decide⟩

/-- The name of the directory that is loaded without asking its parent. -/
def duneDirBasename : Filename := ⟨Bytes.ascii ".dune", by decide⟩

/-! ## What the generator gives -/

inductive GenRulesResult where
  | underDirectoryTarget (directoryTargetAncestor : BuildPath)
  | normal (rules : Normal)

def checkAllRulesAreDescendant (of : BuildPath) (rules : Rules) : Except LoadError Rules :=
  match rules.find? fun b => !isDescendant b.1 of with
  | none => .ok rules
  | some b => .error (.notDescendant of b.1)

/-- `check_all_directory_targets_are_descendant` and
`check_all_sub_dirs_rule_dirs_are_descendant`. -/
def checkAllAreDescendant (of : BuildPath) (paths : List BuildPath) : Except LoadError Unit :=
  match paths.find? fun p => !isDescendant p of with
  | none => .ok ()
  | some p => .error (.notDescendant of p)

namespace Normal

def makeRulesGenResult (of : BuildPath) (t : Normal) : Except LoadError Normal := do
  checkAllAreDescendant of t.directoryTargets
  checkAllAreDescendant of (t.buildDirOnlySubDirs.map Prod.fst)
  return { t with rules := t.rules >>= checkAllRulesAreDescendant of }

/-- `Path.Build.Map.union_exn`, on the keys. -/
def unionExn (a b : List BuildPath) : Except LoadError (List BuildPath) :=
  match a.find? fun p => b.contains p with
  | none => .ok (a ++ b)
  | some p => .error (.duplicateDirectoryTarget p)

def combineExn (r t : Normal) : Except LoadError Normal := do
  let directoryTargets ← unionExn r.directoryTargets t.directoryTargets
  return {
    buildDirOnlySubDirs := Map.union (fun _ a b => some (SubdirSet.union a b))
      r.buildDirOnlySubDirs t.buildDirOnlySubDirs
    directoryTargets
    rules := do return Rules.union (← r.rules) (← t.rules) }

end Normal

def combineGenRulesResult (parent : GenRulesResult) (child : Normal) :
    Except LoadError GenRulesResult :=
  match parent with
  | .underDirectoryTarget ancestor => .error (.underDirectoryTarget ancestor)
  | .normal r => .normal <$> r.combineExn child

namespace BuildConfig

variable (cfg : BuildConfig)

/-- `call_rules_generator`, given what `gen_rules` gives for the parent. -/
def callRulesGenerator (d : BuildDirectory) (parent : Option GenRulesResult) :
    Except LoadError GenRulesResult := do
  match ← cfg.ruleGenerator d.contextName d.dir d.subDir.reverse with
  | .rules rules => return .normal (← rules.makeRulesGenResult d.dir)
  | .unknownContext => throw (.unknownContext d.contextName)
  | .redirectToParent child =>
    match parent with
    | none => throw (.redirectOnRoot d.contextName)
    | some parent => combineGenRulesResult parent (← child.makeRulesGenResult d.dir)

def genRules (contextName : Filename) (contextType : ContextType) :
    SourcePath → Except LoadError GenRulesResult
  | [] => cfg.callRulesGenerator ⟨contextName, contextType, []⟩ none
  | name :: subDir => do
    let d : BuildDirectory := ⟨contextName, contextType, name :: subDir⟩
    match ← genRules contextName contextType subDir with
    | .underDirectoryTarget ancestor => return .underDirectoryTarget ancestor
    | .normal rules =>
      if rules.directoryTargets.contains d.dir then return .underDirectoryTarget d.dir
      else cfg.callRulesGenerator d (some (.normal rules))

/-! ## The sources of a directory -/

/-- `source_paths_to_ignore`: file names and names of directories. -/
def sourcePathsToIgnore (dir : BuildPath) (buildDirOnlySubDirs : SubdirSet) :
    List Filename → List Filename → List Rule → Except LoadError (List Filename × List Filename)
  | filenames, dirnames, [] => .ok (filenames, dirnames)
  | filenames, dirnames, rule :: rules =>
    if dir = rule.targets.root then
      match rule.targets.files.find? buildDirOnlySubDirs.mem with
      | some target => .error (.internalDirConflict target)
      | none =>
        match rule.mode with
        | .standard | .fallback =>
          sourcePathsToIgnore dir buildDirOnlySubDirs filenames dirnames rules
        | .ignoreSourceFiles =>
          sourcePathsToIgnore dir buildDirOnlySubDirs (filenames ++ rule.targets.files)
            (dirnames ++ rule.targets.dirs) rules
        | .promote only =>
          let files :=
            match only with
            | none => rule.targets.files
            | some pred => rule.targets.files.filter pred
          sourcePathsToIgnore dir buildDirOnlySubDirs (filenames ++ files)
            (dirnames ++ rule.targets.dirs) rules
    else sourcePathsToIgnore dir buildDirOnlySubDirs filenames dirnames rules

/-- `source_files_and_dirs`: `source_filenames` and `source_dirs`. -/
def sourceFilesAndDirs (ignore : List Filename × List Filename) (dir : SourcePath) :
    List Filename × List Filename :=
  match cfg.sourceTree.findDir dir with
  | none => ([], [])
  | some d => (d.filenames.filter (· ∉ ignore.1), d.subDirNames.filter (· ∉ ignore.2))

/-- `create_copy_rules`, for the build directory of a context. -/
def createCopyRules (d : BuildDirectory) (filenames : List Filename) : List Rule :=
  filenames.map fun filename =>
    ⟨⟨d.dir, [filename], []⟩, .standard, .sourceFileCopy (filename :: d.subDir)⟩

section

variable (dir : BuildPath)

def addNonFallbackRule (sourceFilenames : List Filename) (acc : List Rule)
    (rule : Rule) : Except LoadError (List Rule) :=
  match rule.mode with
  | .standard | .promote _ | .ignoreSourceFiles => .ok (rule :: acc)
  | .fallback =>
    if rule.targets.dirs ≠ [] then .error (.fallbackDirectoryTarget rule.targets)
    else
      let targets := if dir = rule.targets.root then rule.targets.files else []
      if targets.all (· ∈ sourceFilenames) then .ok acc
      else if targets.all (· ∉ sourceFilenames) then .ok (rule :: acc)
      else .error (.fallbackPartly rule (targets.filter (· ∈ sourceFilenames))
        (targets.filter (· ∉ sourceFilenames)))

def addNonFallbackRules (init : List Rule) (dir : BuildPath) (sourceFilenames : List Filename)
    (rules : List Rule) : Except LoadError (List Rule) :=
  rules.foldlM (addNonFallbackRule dir sourceFilenames) init

/-- The sources of a directory in `load_build_directory_exn`. -/
def sources (d : BuildDirectory) (buildDirOnlySubDirs : SubdirSet) (rules : List Rule) :
    Except LoadError (List Filename × List Filename) :=
  match d.contextType with
  | .empty => .ok ([], [])
  | .withSources => do
    let ignore ← sourcePathsToIgnore d.dir buildDirOnlySubDirs [] [] rules
    return cfg.sourceFilesAndDirs ignore d.subDir

/-- The rules of a directory in `load_build_directory_exn`: without source files the fallback rules
stay. -/
def rulesToCompile (d : BuildDirectory) (sourceFilenames : List Filename) (rules : List Rule) :
    Except LoadError (List Rule) :=
  if sourceFilenames = [] then .ok rules
  else addNonFallbackRules (createCopyRules d sourceFilenames) d.dir sourceFilenames rules

section

variable (sourceDirs : List Filename)

/-- The step of `add_targets` in `compile_rules`. -/
def addTarget (rule : Rule)
    (rules : List (BuildPath × Rule)) (target : Filename) :
    Except LoadError (List (BuildPath × Rule)) :=
  if target ∈ sourceDirs then .error (.sourceDirConflict dir target rule)
  else
    match Map.find rules (target :: rule.targets.root) with
    | none => .ok (Map.set (target :: rule.targets.root) rule rules)
    | some other => .error (.ruleConflict (target :: rule.targets.root) other rule)

/-- The step of `compile_rules`. -/
def compileRule (here : RulesHere) (rule : Rule) : Except LoadError RulesHere :=
  if dir = rule.targets.root then do
    let byFileTargets ←
      rule.targets.files.foldlM (addTarget dir sourceDirs rule) here.byFileTargets
    let byDirectoryTargets ←
      rule.targets.dirs.foldlM (addTarget dir sourceDirs rule) here.byDirectoryTargets
    return ⟨byFileTargets, byDirectoryTargets⟩
  else throw .assertFailure

def compileRules (rules : List Rule) : Except LoadError RulesHere := do
  let rulesHere ← rules.foldlM (compileRule dir sourceDirs) ⟨[], []⟩
  rulesHere.byFileTargets.forM fun (target, rule₁) =>
    match Map.find rulesHere.byDirectoryTargets target with
    | none => .ok ()
    | some rule₂ => .error (.ruleConflict target rule₁ rule₂)
  return rulesHere

/-! ## Restrictions -/

/-- `Generated_directory_restrictions.restriction`; a restriction is forced where it is used. -/
inductive Restriction where
  | unrestricted
  | restricted (restriction : Except LoadError T0)

/-- `source_subdirs_of_build_dir`, with `Dpath.analyse_target`. -/
def sourceSubdirsOfBuildDir : List Filename :=
  match dir.getLast? with
  | none => []
  | some name =>
    if name = actionsDirBasename then []
    else if isContextName name then
      match cfg.sourceTree.findDir dir.dropLast with
      | none => []
      | some d => d.subDirNames
    else []

/-- `allowed_dirs`, given what `load_dir` gives for the directory. -/
def allowedDirs (subdir : Filename) (loaded : Except LoadError Loaded) : Restriction :=
  if subdir ∈ cfg.sourceSubdirsOfBuildDir dir then .unrestricted
  else .restricted do
    match ← loaded with
    | .build allowedSubdirs _ => return allowedSubdirs.descend subdir
    | .buildUnderDirectoryTarget _ => return .empty

def rulesGeneratedIn (rulesProduced : Rules) : T0 :=
  rulesProduced.foldl (fun acc b =>
    match descendant dir b.1 with
    | none => acc
    | some p => acc.union (T0.singleton p)) .empty

def sourceDirsToKeep : T0 :=
  sourceDirs.foldl (fun acc path => acc.union (T0.singleton [path])) .empty

end

variable (d : BuildDirectory)

/-- `allowed_by_parent` of `descendants_to_keep`, given what the parent allows. The rules for all
directories force `.dune/configurator`, so `.dune` does not ask its parent. -/
def askParent (allowedByParent : Restriction) : Restriction :=
  if d.contextType = .withSources ∧ d.subDir = [duneDirBasename] then .unrestricted
  else allowedByParent

/-- The check of `descendants_to_keep` that the directory may have rules. -/
def checkAllowed (rulesProduced : Rules) : Restriction → Except LoadError Unit
  | .unrestricted => .ok ()
  | .restricted restriction =>
    match Map.find rulesProduced dir with
    | none => .ok ()
    | some rules => do
      let restriction ← restriction
      if restriction.here then return ()
      else throw (.notAllowedByParent dir rules restriction)

/-- `allowed_grand_descendants_of_parent` of `descendants_to_keep`. -/
def allowedGrandDescendantsOfParent : Restriction → Except LoadError T0
  | .unrestricted => .ok .empty
  | .restricted restriction => restriction

def descendantsToKeep (buildDirOnlySubDirs : SubdirSet)
    (sourceDirs : List Filename) (rulesProduced : Rules) (allowedByParent : Restriction) :
    Except LoadError T0 := do
  let allowedByParent := askParent d allowedByParent
  checkAllowed d.dir rulesProduced allowedByParent
  let subdirsToKeep := buildDirOnlySubDirs.toDirSet.union (sourceDirsToKeep sourceDirs)
  let allowed ← allowedGrandDescendantsOfParent allowedByParent
  return T0.unionAll [rulesGeneratedIn d.dir rulesProduced, subdirsToKeep, allowed]

def validateDirectoryTargets (real declared : List BuildPath) : Except LoadError Unit :=
  if real.all (· ∈ declared) && declared.all (· ∈ real) then .ok ()
  else .error (.directoryTargetsMismatch dir)

/-- The check of `load_build_directory_exn` for directory targets with the name of an internal
directory. -/
def checkInternalDirs (buildDirOnlySubDirs : SubdirSet)
    (directoryTargets : List BuildPath) : Except LoadError Unit :=
  directoryTargets.forM fun
    | [] => .error .assertFailure
    | name :: parent =>
      if parent = dir ∧ buildDirOnlySubDirs.mem name then .error (.internalDirConflict name)
      else .ok ()

/-- `load_build_directory_exn`; what it deletes is `removeOldArtifacts`. -/
def loadBuildDirectoryExn (allowedByParent : Restriction) : Except LoadError Loaded := do
  match ← cfg.genRules d.contextName d.contextType d.subDir with
  | .underDirectoryTarget ancestor => return .buildUnderDirectoryTarget ancestor
  | .normal normal =>
    let buildDirOnlySubDirs := (Map.find normal.buildDirOnlySubDirs d.dir).getD .empty
    checkInternalDirs d.dir buildDirOnlySubDirs normal.directoryTargets
    let rulesProduced ← normal.rules
    let rules := (rulesProduced.find d.dir).consume
    let (sourceFilenames, sourceDirs) ← cfg.sources d buildDirOnlySubDirs rules
    let rules ← rulesToCompile d sourceFilenames rules
    let descendantsToKeep ←
      descendantsToKeep d buildDirOnlySubDirs sourceDirs rulesProduced allowedByParent
    let rulesHere ← compileRules d.dir sourceDirs rules
    validateDirectoryTargets d.dir rulesProduced.directoryTargets normal.directoryTargets
    return .build descendantsToKeep rulesHere

/-- `get_dir_triage`, for a directory of the build directory. -/
def getDirTriage : Except LoadError DirTriage :=
  match dir.getLast? with
  | none =>
    .ok (.known (.noRules
      (SubdirSet.these (actionsDirBasename :: cfg.contexts.map Prod.fst)).toDirSet))
  | some name =>
    if name = actionsDirBasename then .error (.anonymousActionDir dir)
    else if isContextName name then
      match Map.find cfg.contexts name with
      | none => .ok (.known (.noRules .empty))
      | some contextType => .ok (.buildDirectory ⟨name, contextType, dir.dropLast⟩)
    else .ok (.known (.noRules .empty))

end

/-- `load_dir`, for a directory of the build directory. -/
def loadDir : BuildPath → Except LoadError Loaded
  | [] => do
    match ← cfg.getDirTriage [] with
    | .known loaded => return loaded
    | .buildDirectory _ => throw .assertFailure
  | name :: parent => do
    match ← cfg.getDirTriage (name :: parent) with
    | .known loaded => return loaded
    | .buildDirectory d =>
      cfg.loadBuildDirectoryExn d (cfg.allowedDirs parent name (loadDir parent))

/-! ## The build directory -/

inductive FileKind where
  | dir
  | other
deriving DecidableEq, Repr

/-- What is on the disk in the build directory. -/
abbrev Fs := List (BuildPath × FileKind)

namespace Fs

/-- `readdir_unsorted_with_kinds`. -/
def readdir (fs : Fs) (dir : BuildPath) : Option (List (Filename × FileKind)) :=
  if (dir, .dir) ∈ fs then
    some (fs.filterMap fun
      | (fn :: parent, kind) => if parent = dir then some (fn, kind) else none
      | ([], _) => none)
  else none

def rmRf (fs : Fs) (path : BuildPath) : Fs := fs.filter fun e => !isDescendant e.1 path

/-- `Fpath.unlink_exn`. -/
def unlink (fs : Fs) (path : BuildPath) : Fs := fs.filter fun e => e ≠ (path, .other)

end Fs

variable (dir : BuildPath)

def removeSubdirIfStale (subdirsToKeep : SubdirSet) (fn : Filename) (fs : Fs) : Fs :=
  if subdirsToKeep.mem fn then fs else fs.rmRf (fn :: dir)

def removeOldArtifacts (rulesHere : RulesHere) (subdirsToKeep : SubdirSet) (fs : Fs) : Fs :=
  match fs.readdir dir with
  | none => fs
  | some files =>
    files.foldl (fun fs (fn, kind) =>
      if rulesHere.isTarget (fn :: dir) then fs
      else
        match kind with
        | .dir => removeSubdirIfStale dir subdirsToKeep fn fs
        | .other => fs.unlink (fn :: dir)) fs

def removeOldSubDirsInAnonymousActionsDir (subdirsToKeep : SubdirSet) (fs : Fs) : Fs :=
  match fs.readdir dir with
  | none => fs
  | some files =>
    files.foldl (fun fs (fn, kind) =>
      match kind with
      | .dir => removeSubdirIfStale dir subdirsToKeep fn fs
      | .other => fs) fs

/-- What the load of a directory itself does to the build directory; a call of `load_dir` makes also
the loads of the parents that are asked, which are loads of their own here. A load that fails does
nothing, and neither does one that finds no build directory. -/
def load (fs : Fs) (dir : BuildPath) : Fs :=
  match cfg.getDirTriage dir, cfg.loadDir dir with
  | .ok (.buildDirectory _), .ok (.build descendantsToKeep rulesHere) =>
    let subdirsToKeep := SubdirSet.ofDirSet descendantsToKeep
    removeOldSubDirsInAnonymousActionsDir (dir ++ [actionsDirBasename]) subdirsToKeep
      (removeOldArtifacts dir rulesHere subdirsToKeep fs)
  | _, _ => fs

end BuildConfig

end Dune.Engine
