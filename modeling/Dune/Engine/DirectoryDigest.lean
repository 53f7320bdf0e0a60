import Dune.Stdune.Filename
import Dune.Stdune.LocalPath

/-!
# The digest of a directory target

`directory_digest` in `build_system.ml`, with the traversal of `targets.ml`. A hasher is the bytes
that it has been fed, and the digest is a function of them. The digests of files are taken from any
type, with the text that `Digest.to_string` gives; the digests of directories are of a type of their
own, so that their hash may be without collisions.
-/

namespace Dune.Engine

open Dune.Stdune

inductive DirContents (D : Type) where
  | mk (files : List (Filename × D)) (subdirs : List (Filename × DirContents D))

def relativeFname (t : Bytes) (fn : Filename) : Bytes :=
  if LocalPath.isRoot t then fn.toString else t ++ 47 :: fn.toString

/-- The hash of a directory, and the texts of the digests of files, which are hexadecimal digits. -/
structure Digests (D H : Type) where
  hash : Bytes → H
  toString : D → Bytes
  length_toString (digest : D) : (toString digest).length = 32
  slash_notMem (digest : D) : 47 ∉ toString digest

/-- A name that is followed by bytes other than slashes is a name. -/
theorem isValid_append {s t : Bytes} (hs : Filename.isValid s = true) (ht : 47 ∉ t) :
    Filename.isValid (s ++ t) = true := by
  rcases s with _ | ⟨c, _ | ⟨c', _ | ⟨c'', s⟩⟩⟩ <;> simp_all [Filename.isValid, Bytes.ascii]

theorem slash_notMem {s : Bytes} (hs : Filename.isValid s = true) : 47 ∉ s := by
  simp_all [Filename.isValid]

theorem slash_mem_relativeFname (dir fn : Filename) : 47 ∈ relativeFname dir.toString fn := by
  have hdir := dir.valid
  rw [relativeFname, if_neg] <;> simp_all [Filename.isValid, LocalPath.isRoot, LocalPath.root]

theorem Digests.isValid_toString {D H : Type} (digests : Digests D H) (digest : D) :
    Filename.isValid (digests.toString digest) = true := by
  have hlength := digests.length_toString digest
  have hne (t : Bytes) (ht : t.length < 32) : digests.toString digest ≠ t := by
    rintro rfl
    omega
  simp [Filename.isValid, digests.slash_notMem, hlength, hne (Bytes.ascii ".") (by decide),
    hne (Bytes.ascii "..") (by decide)]

namespace DirContents

mutual

/-- The names of the files of each directory, and those of its subdirectories, are in order. -/
def Sorted {D : Type} : DirContents D → Prop
  | .mk files subdirs => Map.Sorted files ∧ Map.Sorted subdirs ∧ SortedAll subdirs

def SortedAll {D : Type} : List (Filename × DirContents D) → Prop
  | [] => True
  | (_, contents) :: subdirs => Sorted contents ∧ SortedAll subdirs

end

section
variable {D H S T : Type}

mutual

/-- `aux` of `iteri_dir_contents`, with the state of the effects of `d` and `f`. -/
def iteri (d : Bytes → S → S) (f : Bytes → D → S → S) (path : Bytes) : DirContents D → S → S
  | .mk files subdirs, s =>
    iteriSubdirs d f path subdirs
      (files.foldl (fun s file => f (relativeFname path file.1) file.2 s) s)

/-- The loop of `aux` over the subdirectories. -/
def iteriSubdirs (d : Bytes → S → S) (f : Bytes → D → S → S) (path : Bytes) :
    List (Filename × DirContents D) → S → S
  | [], s => s
  | (name, contents) :: subdirs, s =>
    let dir := relativeFname path name
    iteriSubdirs d f path subdirs (iteri d f dir contents (d dir s))

end

def directoryDigest (digests : Digests D H) (contents : DirContents D) : H :=
  digests.hash (iteri (fun d hasher => hasher ++ d)
    (fun path digest hasher => hasher ++ digests.toString digest ++ path) LocalPath.root contents
      [])

/-! ## What is hashed -/

mutual

/-- What the traversal visits: the files with their digests, and the directories. -/
def entriesAt (path : Bytes) : DirContents D → List (Option D × Bytes)
  | .mk files subdirs =>
    files.map (fun file => (some file.2, relativeFname path file.1)) ++ subdirEntries path subdirs

@[inherit_doc entriesAt]
def subdirEntries (path : Bytes) : List (Filename × DirContents D) → List (Option D × Bytes)
  | [] => []
  | (name, contents) :: subdirs =>
    let dir := relativeFname path name
    (none, dir) :: (entriesAt dir contents ++ subdirEntries path subdirs)

end

def entries (contents : DirContents D) : List (Option D × Bytes) :=
  entriesAt LocalPath.root contents

/-- The bytes that are fed for an entry. -/
def feed (digests : Digests D H) : Option D × Bytes → Bytes
  | (none, d) => d
  | (some digest, path) => digests.toString digest ++ path

section
variable (digests : Digests D H)

mutual

theorem iteri_eq : ∀ (contents : DirContents D) (path hasher : Bytes),
    iteri (fun d hasher => hasher ++ d)
      (fun path digest hasher => hasher ++ digests.toString digest ++ path) path contents hasher =
      hasher ++ (entriesAt path contents).flatMap (feed digests)
  | .mk files subdirs, path, hasher => by
    rw [iteri, iteriSubdirs_eq, entriesAt]
    simp [List.foldl_append_eq_append, List.flatMap_def, Function.comp_def, feed]

theorem iteriSubdirs_eq : ∀ (subdirs : List (Filename × DirContents D)) (path hasher : Bytes),
    iteriSubdirs (fun d hasher => hasher ++ d)
      (fun path digest hasher => hasher ++ digests.toString digest ++ path) path subdirs hasher =
      hasher ++ (subdirEntries path subdirs).flatMap (feed digests)
  | [], path, hasher => (List.append_nil hasher).symm
  | (name, contents) :: subdirs, path, hasher => by
    rw [iteriSubdirs, iteriSubdirs_eq, iteri_eq, subdirEntries]
    simp [feed]

end

/-- The bytes that are fed for the directory. -/
def text (contents : DirContents D) : Bytes := contents.entries.flatMap (feed digests)

theorem directoryDigest_eq (contents : DirContents D) :
    directoryDigest digests contents = digests.hash (contents.text digests) :=
  congrArg digests.hash (iteri_eq digests contents _ [])

end

/-- The contents whose subdirectories are empty. -/
def flat (files : List (Filename × D)) (dirs : List Filename) : DirContents D :=
  mk files (dirs.map fun name => (name, mk [] []))

theorem entries_flat (files : List (Filename × D)) (dirs : List Filename) :
    (flat files dirs).entries = files.map (fun file => (some file.2, file.1.toString)) ++
      dirs.map fun name => (none, name.toString) := by
  refine congrArg (_ ++ ·) ?_
  induction dirs with
  | nil => rfl
  | cons name dirs ih => exact congrArg _ ih

theorem isValid_text_flat (digests : Digests D H) {files : List (Filename × D)}
    {dirs : List Filename} (h : (flat files dirs).entries ≠ []) :
    Filename.isValid ((flat files dirs).text digests) = true := by
  have hvalid : ∀ e ∈ (flat files dirs).entries, Filename.isValid (feed digests e) = true := by
    intro e he
    rw [entries_flat, List.mem_append, List.mem_map, List.mem_map] at he
    obtain ⟨file, -, rfl⟩ | ⟨name, -, rfl⟩ := he
    · exact isValid_append (digests.isValid_toString _) (slash_notMem file.1.valid)
    · exact name.valid
  rw [text]
  obtain ⟨e, es, hes⟩ := List.exists_cons_of_ne_nil h
  rw [hes, List.flatMap_cons]
  rw [hes, List.forall_mem_cons] at hvalid
  refine isValid_append hvalid.1 fun hslash => ?_
  obtain ⟨e', he', hslash⟩ := List.mem_flatMap.mp hslash
  exact slash_notMem (hvalid.2 e' he') hslash

/-- The text is neither that of a digest and a name, nor a name and a later one. -/
def Whole (digests : Digests D H) (s : Bytes) : Prop :=
  (∀ digest (fn : Filename), s ≠ digests.toString digest ++ fn.toString) ∧
    ∀ a b : Filename, a < b → s ≠ a.toString ++ b.toString

/-- Such a text without slashes is fed for at most one entry. -/
theorem Whole.eq_flat {digests : Digests D H} {s : Bytes} (h : Whole digests s) (hslash : 47 ∉ s) :
    ∀ {y : DirContents D}, y.Sorted → s = y.text digests →
      ∃ dirs, y = flat [] dirs ∧ dirs.length ≤ 1
  | .mk [] [], _, _ => ⟨[], rfl, Nat.zero_le 1⟩
  | .mk [] [(a, .mk [] [])], _, _ => ⟨[a], rfl, Nat.le_refl 1⟩
  | .mk [] ((a, .mk [] []) :: (b, _) :: _), hy, htext => by
    obtain ⟨rest, rfl⟩ : ∃ rest, s = a.toString ++ (b.toString ++ rest) := ⟨_, htext⟩
    have hvalid := isValid_append b.valid fun hmem : 47 ∈ rest => hslash (by simp [hmem])
    have hlt : a.codes < b.codes := List.rel_of_pairwise_cons hy.2.1 List.mem_cons_self
    refine absurd rfl (h.2 a ⟨_, hvalid⟩ (show a.codes < List.map _ _ from ?_))
    rw [List.map_append]
    exact List.Lex.append_right _ _ hlt
  | .mk [] ((a, .mk ((fn, digest) :: _) _) :: _), _, htext => by
    obtain ⟨rest, rfl⟩ : ∃ rest, s =
      a.toString ++ (digests.toString digest ++ relativeFname a.toString fn ++ rest) := ⟨_, htext⟩
    exact absurd (by simp [slash_mem_relativeFname]) hslash
  | .mk [] ((a, .mk [] ((b, _) :: _)) :: _), _, htext => by
    obtain ⟨rest, rfl⟩ : ∃ rest, s = a.toString ++ (relativeFname a.toString b ++ rest) :=
      ⟨_, htext⟩
    exact absurd (by simp [slash_mem_relativeFname]) hslash
  | .mk ((fn, digest) :: _) _, _, htext => by
    obtain ⟨rest, rfl⟩ : ∃ rest, s = digests.toString digest ++ fn.toString ++ rest := ⟨_, htext⟩
    have hvalid := isValid_append fn.valid fun hmem : 47 ∈ rest => hslash (by simp [hmem])
    exact absurd (List.append_assoc ..) (h.1 digest ⟨_, hvalid⟩)

/-- Where the traversals differ first, the bytes of neither entry begin those of the other. -/
def ToldApart (digests : Digests D H) (x y : DirContents D) : Prop :=
  ∃ common e e' es es', x.entries = common ++ e :: es ∧ y.entries = common ++ e' :: es' ∧
    ¬feed digests e <+: feed digests e' ∧ ¬feed digests e' <+: feed digests e

theorem ToldApart.text_ne {digests : Digests D H} {x y : DirContents D}
    (h : ToldApart digests x y) : x.text digests ≠ y.text digests := by
  obtain ⟨common, e, e', es, es', hx, hy, hne, hne'⟩ := h
  intro heq
  rw [text, text, hx, hy, List.flatMap_append, List.flatMap_append, List.append_cancel_left_eq,
    List.flatMap_cons, List.flatMap_cons] at heq
  have hprefix := List.prefix_or_prefix_of_prefix (List.prefix_append (feed digests e) _)
    (heq ▸ List.prefix_append (feed digests e') _)
  exact hprefix.elim hne hne'

theorem entries_eq_of_length_le_one {digests : Digests D H} {dirs : List Filename}
    (h : dirs.length ≤ 1) : (flat [] dirs : DirContents D).entries =
      let text := (flat [] dirs).text digests
      if text = [] then [] else [(none, text)] := by
  rcases dirs with _ | ⟨a, _ | ⟨b, dirs⟩⟩
  · rfl
  · have hne : a.toString ≠ [] := fun hnil => absurd (hnil ▸ a.valid) (by decide)
    simp [entries_flat, text, feed, hne]
  · simp at h

/-- The text of contents whose subdirectories are empty is also that of one directory, which has it
as its name, and of the parts into which it can be cut. -/
theorem text_flat_determines_iff (digests : Digests D H) (files : List (Filename × D))
    (dirs : List Filename) :
    (∀ y : DirContents D, y.Sorted → (flat files dirs).text digests = y.text digests →
      (flat files dirs).entries = y.entries) ↔
      files = [] ∧ dirs.length ≤ 1 ∧ Whole digests ((flat files dirs).text digests) := by
  constructor
  · intro h
    have hempty : (mk [] [] : DirContents D).Sorted := ⟨Map.sorted_nil, Map.sorted_nil, trivial⟩
    obtain ⟨rfl, hdirs⟩ : files = [] ∧ dirs.length ≤ 1 := by
      by_cases hentries : (flat files dirs).entries = []
      · simp_all [entries_flat]
      · have heq := h (flat [] [⟨_, isValid_text_flat digests hentries⟩])
          ⟨Map.sorted_nil, Map.sorted_singleton _ _, hempty, trivial⟩ (List.append_nil _).symm
        rw [entries_flat, entries_flat] at heq
        rcases files with _ | ⟨file, files⟩
        · exact ⟨rfl, by simpa using (congrArg List.length heq).le⟩
        · cases heq
    refine ⟨rfl, hdirs, fun digest fn htext => ?_, fun a b hab htext => ?_⟩
    · have heq := h (mk [(fn, digest)] []) ⟨Map.sorted_singleton _ _, Map.sorted_nil, trivial⟩
        (htext.trans (List.append_nil _).symm)
      have hmem : (some digest, fn.toString) ∈ (flat [] dirs).entries :=
        heq ▸ List.mem_singleton_self _
      simp [entries_flat] at hmem
    · have heq := h (flat [] [a, b])
        ⟨Map.sorted_nil, List.pairwise_pair.mpr hab, hempty, hempty, trivial⟩
        (htext.trans (by simp [text, entries_flat, feed]))
      have hlength : dirs.length = 2 := by simpa [entries_flat] using congrArg List.length heq
      omega
  · rintro ⟨rfl, hdirs, hwhole⟩ y hy heq
    have hslash : 47 ∉ (flat [] dirs).text digests := by
      by_cases hentries : (flat ([] : List (Filename × D)) dirs).entries = []
      · simp [text, hentries]
      · exact slash_notMem (isValid_text_flat digests hentries)
    obtain ⟨dirs', rfl, hdirs'⟩ := hwhole.eq_flat hslash hy heq
    rw [entries_eq_of_length_le_one hdirs, entries_eq_of_length_le_one hdirs', heq]

end

section Produced
variable {D H : Type}

mutual

/-- The loop of `Produced.digest`, with what the hasher has been fed. -/
def feedDigests (toBinary : D → Bytes) : DirContents D → Bytes → Bytes
  | .mk files subdirs, hasher =>
    feedSubdirs toBinary subdirs
      (files.foldl (fun hasher file => hasher ++ toBinary file.2) hasher)

@[inherit_doc feedDigests]
def feedSubdirs (toBinary : D → Bytes) : List (Filename × DirContents D) → Bytes → Bytes
  | [], hasher => hasher
  | (_, contents) :: subdirs, hasher =>
    feedSubdirs toBinary subdirs (feedDigests toBinary contents hasher)

end

/-- `Produced.digest`; `Manual.digest` feeds `toBinary` of a digest. -/
def producedDigest (hash : Bytes → H) (toBinary : D → Bytes) (contents : DirContents D) : H :=
  hash (feedDigests toBinary contents [])

/-- The names of the targets: of the files, and of the directories. -/
def targets : DirContents D → List Filename × List Filename
  | .mk files subdirs => (files.map Prod.fst, subdirs.map Prod.fst)

/-- Texts of one length are found again in what they make one after the other. -/
theorem flatMap_injective {toBinary : D → Bytes} (hbinary : Function.Injective toBinary) {n : Nat}
    (hlength : ∀ digest, (toBinary digest).length = n) {ds ds' : List D}
    (hds : ds.length = ds'.length) (h : ds.flatMap toBinary = ds'.flatMap toBinary) : ds = ds' := by
  induction ds generalizing ds' with
  | nil => exact (List.length_eq_zero_iff.mp hds.symm).symm
  | cons d ds ih =>
    obtain ⟨d', ds', rfl⟩ := List.exists_cons_of_length_eq_add_one hds.symm
    obtain ⟨hd, hrest⟩ := List.append_inj h ((hlength d).trans (hlength d').symm)
    rw [hbinary hd, ih (Nat.succ.inj hds) hrest]

/-- When the hash has no collisions and the digests of files are of one length, the digest of the
targets of a rule determines them exactly when no target is a directory. -/
theorem producedDigest_determines_iff {hash : Bytes → H} (hinj : Function.Injective hash)
    {toBinary : D → Bytes} (hbinary : Function.Injective toBinary) {n : Nat}
    (hlength : ∀ digest, (toBinary digest).length = n) {x : DirContents D} (hx : x.Sorted) :
    (∀ y : DirContents D, y.Sorted → x.targets = y.targets →
      producedDigest hash toBinary x = producedDigest hash toBinary y → x = y) ↔
      x.targets.2 = [] := by
  obtain ⟨files, subdirs⟩ := x
  constructor
  · intro h
    cases subdirs with
    | nil => rfl
    | cons subdir subdirs =>
      obtain ⟨name, contents⟩ := subdir
      -- the contents of the first directory are moved down by one
      let wrapped : DirContents D := .mk [] [(⟨Bytes.ascii "a", rfl⟩, contents)]
      have hwrapped : wrapped.Sorted :=
        ⟨Map.sorted_nil, Map.sorted_singleton _ _, hx.2.2.1, trivial⟩
      have hsorted : Map.Sorted ((name, wrapped) :: subdirs) := by
        simpa [Map.Sorted] using hx.2.1
      have heq := h (.mk files ((name, wrapped) :: subdirs))
        ⟨hx.1, hsorted, hwrapped, hx.2.2.2⟩ rfl rfl
      injection heq with _ heq
      have := congrArg sizeOf (Prod.mk.inj (List.cons.inj heq).1).2
      simp [wrapped] at this
      omega
  · rintro hsubdirs ⟨files', subdirs'⟩ - htargets heq
    obtain ⟨hnames, hnames'⟩ := Prod.mk.inj htargets
    obtain rfl := List.map_eq_nil_iff.mp hsubdirs
    obtain rfl := List.map_eq_nil_iff.mp hnames'.symm
    have hfeed (files : List (Filename × D)) :
        feedDigests toBinary (.mk files []) [] = (files.map Prod.snd).flatMap toBinary := by
      rw [feedDigests, feedSubdirs, List.foldl_append_eq_append, ← List.flatMap_def,
        List.flatMap_map, List.nil_append]
    have hdigests : files.map Prod.snd = files'.map Prod.snd := by
      refine flatMap_injective hbinary hlength ?_ (hfeed files ▸ hfeed files' ▸ hinj heq)
      simpa using congrArg List.length hnames
    rw [List.zip_of_prod hnames hdigests, ← List.zip_of_prod rfl rfl]

/-- The directory target `a` with a file `a` or with a file `b`, of the same digest. -/
theorem producedDigest_collides : let a : Filename := ⟨Bytes.ascii "a", rfl⟩
    let b : Filename := ⟨Bytes.ascii "b", rfl⟩
    let x : DirContents Nat := .mk [] [(a, .mk [(a, 0)] [])]
    let y : DirContents Nat := .mk [] [(a, .mk [(b, 0)] [])]
    x ≠ y ∧ x.targets = y.targets ∧ ∀ (H : Type) (hash : Bytes → H) (toBinary : Nat → Bytes),
      producedDigest hash toBinary x = producedDigest hash toBinary y :=
  ⟨nofun, rfl, fun _ _ _ => rfl⟩

/-- A rule with one file target, for a hash that keeps everything. -/
theorem producedDigest_determines_file : let a : Filename := ⟨Bytes.ascii "a", rfl⟩
    let x : DirContents UInt8 := .mk [(a, 0)] []
    ∀ y : DirContents UInt8, y.Sorted → x.targets = y.targets →
      producedDigest id (fun d => [d]) x = producedDigest id (fun d => [d]) y → x = y := by
  intro a x
  have hx : x.Sorted := ⟨Map.sorted_singleton _ _, Map.sorted_nil, trivial⟩
  exact (producedDigest_determines_iff Function.injective_id List.singleton_injective
    (fun _ => rfl) hx).mpr rfl

end Produced

end DirContents

end Dune.Engine
