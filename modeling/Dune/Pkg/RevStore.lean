import Dune.Stdune.Bytes

/-!
# Batches of arguments for `git show`

`show` in `rev_store.ml` splits its arguments into batches, one for each command. A batch that is
opened because the one before it is full starts with the whole limit, so that its first argument is
not charged. It is opened also when the one before it is empty.
-/

namespace Dune.Pkg.RevStore

open List Dune.Stdune Dune.Stdune.Bytes

/-- An object, or a path in a revision. -/
inductive Arg where
  | object (o : Bytes)
  | path (r path : Bytes)

def Arg.toString : Arg → Bytes
  | .object o => o
  | .path r p => r ++ ascii ":" ++ p

def command (git : Bytes) (revsAndPaths : List Arg) : List Bytes :=
  git :: ascii "show" :: revsAndPaths.map Arg.toString

def systemLimit (win32 : Bool) : Int := if win32 then 8191 else 2097152

def cliLimit (system : Int) (git : Bytes) : Int :=
  system - (ascii "show").length - 1 - git.length - 100

def cmdLen (cmd : Arg) : Int :=
  1 + match cmd with
    | .object o => (o.length : Int)
    | .path r path => r.length + path.length + 1

def loop (limit : Int) (acc : List (List Arg)) (batch : List Arg) (cmdLenRemaining : Int) :
    List Arg → List (List Arg)
  | [] => batch.reverse :: acc
  | cmd :: cmds =>
    if cmdLenRemaining - cmdLen cmd ≥ 0 then
      loop limit acc (cmd :: batch) (cmdLenRemaining - cmdLen cmd) cmds
    else loop limit (batch.reverse :: acc) [cmd] limit cmds

def batches (system : Int) (git : Bytes) (revsAndPaths : List Arg) : List (List Arg) :=
  (loop (cliLimit system git) [] [] (cliLimit system git) revsAndPaths).reverse

/-- The words of the command with the spaces between them have room. -/
def Fits (system : Int) (git : Bytes) (batch : List Arg) : Prop :=
  ((command git batch).map fun word => (word.length : Int) + 1).sum - 1 ≤ system

structure Correct (system : Int) (git : Bytes) (args : List Arg) (batches : List (List Arg)) :
    Prop where
  nonempty : ∀ batch ∈ batches, batch ≠ []
  fits : ∀ batch ∈ batches, Fits system git batch
  flatten : batches.flatten = args

def total (batch : List Arg) : Int := (batch.map cmdLen).sum

/-- `rest` comes after the arguments that had no room, counted each time from the last of them,
which is `opening`. -/
inductive Opens (limit : Int) (args : List Arg) : (opening : Option Arg) → List Arg → Prop
  | start : Opens limit args none args
  | next {last : Option Arg} {cmd : Arg} {batch rest : List Arg}
      (hlast : Opens limit args last (batch ++ cmd :: rest))
      (hroom : total batch ≤ limit) (hfull : limit < total batch + cmdLen cmd) :
      Opens limit args (some cmd) rest

/-- Each argument that opens a batch has room with those after it that have room without it. -/
def OpenedFit (limit : Int) (args : List Arg) : Prop :=
  ∀ cmd rest, Opens limit args (some cmd) rest → ∀ batch, batch <+: rest → total batch ≤ limit →
    cmdLen cmd + total batch ≤ limit + 100

variable {system limit remaining : Int} {git : Bytes} {args batch rest b : List Arg} {cmd : Arg}
  {opening : Option Arg} {acc : List (List Arg)}

@[simp] theorem total_nil : total [] = 0 := rfl

@[simp] theorem total_cons (cmd : Arg) (batch : List Arg) :
    total (cmd :: batch) = cmdLen cmd + total batch := rfl

@[simp] theorem total_append (batch cmds : List Arg) :
    total (batch ++ cmds) = total batch + total cmds := by
  simp [total]

@[simp] theorem total_reverse (batch : List Arg) : total batch.reverse = total batch := by
  simp [total]

theorem fits_iff : Fits system git batch ↔ total batch ≤ cliLimit system git + 100 := by
  have hword (cmd : Arg) : (cmd.toString.length : Int) + 1 = cmdLen cmd := by
    cases cmd <;> simp [Arg.toString, cmdLen, ascii] <;> ring
  have hshow : (ascii "show").length = 4 := rfl
  have hwords : (batch.map Arg.toString).map (fun word => (word.length : Int) + 1) =
      batch.map cmdLen := by
    rw [map_map]
    exact map_congr_left fun cmd _ => hword cmd
  simp only [Fits, cliLimit, command, map_cons, sum_cons, hwords, hshow, total]
  omega

theorem cmdLen_nonneg (cmd : Arg) : 0 ≤ cmdLen cmd := by
  cases cmd <;> simp only [cmdLen] <;> omega

theorem total_nonneg (batch : List Arg) : 0 ≤ total batch :=
  sum_nonneg (forall_mem_map.mpr fun cmd _ => cmdLen_nonneg cmd)

/-- The batches so far stay, and the last one is a part of one in the end. -/
theorem mem_loop (limit remaining : Int) (acc : List (List Arg)) (batch args : List Arg) :
    acc ⊆ loop limit acc batch remaining args ∧
      ∃ b ∈ loop limit acc batch remaining args, total batch ≤ total b := by
  fun_induction loop limit acc batch remaining args with
  | case1 acc batch => exact ⟨subset_cons_self _ _, _, mem_cons_self, by simp⟩
  | case2 acc batch remaining cmd cmds _ ih =>
    obtain ⟨hacc, b, hb, hle⟩ := ih
    have := cmdLen_nonneg cmd
    exact ⟨hacc, b, hb, by rw [total_cons] at hle; omega⟩
  | case3 acc batch remaining cmd cmds _ ih =>
    exact ⟨fun _ hb => ih.1 (mem_cons_of_mem _ hb), _, ih.1 mem_cons_self, by simp⟩

theorem loop_append {cmds : List Arg} (h : total cmds ≤ remaining) :
    loop limit acc batch remaining (cmds ++ args) =
      loop limit acc (cmds.reverse ++ batch) (remaining - total cmds) args := by
  induction cmds generalizing batch remaining with
  | nil => simp
  | cons cmd cmds ih =>
    rw [total_cons] at h ⊢
    have := total_nonneg cmds
    rw [cons_append, loop, if_pos (by omega), ih (by omega), reverse_cons, append_assoc,
      singleton_append, Int.sub_sub]

theorem loop_opens {cmds : List Arg} (hroom : total cmds ≤ remaining)
    (hfull : remaining < total cmds + cmdLen cmd) :
    loop limit acc batch remaining (cmds ++ cmd :: args) =
      loop limit ((cmds.reverse ++ batch).reverse :: acc) [cmd] limit args := by
  rw [loop_append hroom, loop, if_neg (by omega)]

theorem Opens.loop_eq (h : Opens limit args opening rest) :
    ∃ acc, loop limit [] [] limit args = loop limit acc opening.toList limit rest := by
  induction h with
  | start => exact ⟨[], rfl⟩
  | next _ hroom hfull ih =>
    obtain ⟨acc, ih⟩ := ih
    exact ⟨_, ih.trans (loop_opens hroom hfull)⟩

/-- No batch is empty when the arguments start with one that has room. -/
theorem nil_notMem_loop (hacc : [] ∉ acc)
    (h : batch ≠ [] ∨ ∃ cmd ∈ args.head?, cmdLen cmd ≤ remaining) :
    [] ∉ loop limit acc batch remaining args := by
  fun_induction loop limit acc batch remaining args with
  | case1 => simp_all
  | case2 _ _ _ _ _ _ ih => exact ih hacc (.inl (cons_ne_nil _ _))
  | case3 _ _ _ cmd _ hfull ih =>
    refine ih (mem_cons.not.mpr (not_or.mpr ⟨?_, hacc⟩)) (.inl (cons_ne_nil _ _))
    rcases h with h | ⟨_, heq, h⟩
    · exact fun heq => h (reverse_eq_nil_iff.mp heq.symm)
    · cases heq
      omega

theorem loop_flatten (limit remaining : Int) (acc : List (List Arg)) (batch args : List Arg) :
    (loop limit acc batch remaining args).reverse.flatten =
      acc.reverse.flatten ++ batch.reverse ++ args := by
  fun_induction loop limit acc batch remaining args with
  | case1 => simp
  | case2 _ _ _ _ _ _ ih => simp [ih]
  | case3 _ _ _ _ _ _ ih => simp [ih]

/-- The arguments have room, or there is a first one that has none. -/
theorem total_le_or_overflow (hlimit : 0 ≤ limit) (args : List Arg) :
    total args ≤ limit ∨ ∃ batch cmd rest, args = batch ++ cmd :: rest ∧ total batch ≤ limit ∧
      limit < total batch + cmdLen cmd := by
  induction args using reverseRecOn with
  | nil => exact .inl hlimit
  | append_singleton args last ih =>
    rcases ih with hroom | ⟨batch, cmd, rest, rfl, h⟩
    · rcases le_or_gt (total args + cmdLen last) limit with h | h
      · exact .inl (by simpa using h)
      · exact .inr ⟨args, last, [], rfl, hroom, h⟩
    · exact .inr ⟨batch, cmd, rest ++ [last], by simp, h⟩

theorem Opens.fits (hlimit : 0 ≤ limit) (hopened : OpenedFit limit args)
    (hopens : Opens limit args opening rest) (hb : b ∈ loop limit acc opening.toList limit rest) :
    b ∈ acc ∨ total b ≤ limit + 100 := by
  -- by induction on the number of arguments after the one that opens the batch
  induction hn : rest.length using Nat.strong_induction_on generalizing acc opening rest with
  | _ n ih =>
    have hbatch {cmds : List Arg} (hcmds : cmds <+: rest) (hroom : total cmds ≤ limit) :
        total (cmds.reverse ++ opening.toList).reverse ≤ limit + 100 := by
      cases opening with
      | none =>
        simp
        omega
      | some cmd => simpa using hopened cmd rest hopens cmds hcmds hroom
    rcases total_le_or_overflow hlimit rest with hroom | ⟨cmds, next, rest, rfl, hroom, hfull⟩
    · rw [← append_nil rest, loop_append hroom, loop, mem_cons] at hb
      rcases hb with rfl | hb
      · exact .inr (hbatch prefix_rfl hroom)
      · exact .inl hb
    · rw [loop_opens hroom hfull] at hb
      have hlt : rest.length < n := by
        simp at hn
        omega
      rcases ih _ hlt (hopens.next hroom hfull) hb rfl with hb | hb
      · rcases mem_cons.mp hb with rfl | hb
        · exact .inr (hbatch (prefix_append _ _) hroom)
        · exact .inl hb
      · exact .inr hb

end Dune.Pkg.RevStore
