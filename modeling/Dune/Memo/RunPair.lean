import Dune.Bits.Fields
import Dune.Memo.Cycles

/-!
# The run stamps of a node

`Run.Pair` of `src/memo/run.ml` packs the two run stamps of a node into one integer of 63 bits: the
run of the last validation plus one, and below it how many runs before that the value has changed.
The stores that Memo reaches come about by updates of nodes (`Reachable.updated`), which keep the
stamps in an order in which they can be packed.
-/

namespace Dune.Memo

namespace Run.Pair

open Dune.Bits BitVec

def deltaBits : Nat := 31

/-- `none` when the assertion fails. -/
def create (lastChangedAt lastValidatedAt : BitVec 63) : Option (BitVec 63) :=
  if lastChangedAt.sle lastValidatedAt then
    some (((lastValidatedAt + 1#63) <<< deltaBits) ||| (lastValidatedAt - lastChangedAt))
  else none

def lastValidatedAt (t : BitVec 63) : BitVec 63 := (t >>> deltaBits) - 1#63

def lastChangedAt (t : BitVec 63) : BitVec 63 := lastValidatedAt t - (t &&& mask 63 deltaBits)

def withLastValidatedAt (t lastValidatedAt : BitVec 63) : Option (BitVec 63) :=
  create (lastChangedAt t) lastValidatedAt

section

variable {a d : BitVec 63} (ha : a.toNat < 2 ^ 32) (hd : d.toNat < 2 ^ 31)
include ha hd

theorem toNat_packed : (a <<< deltaBits ||| d).toNat = a.toNat * 2 ^ 31 + d.toNat := by
  rw [deltaBits, toNat_or, toNat_shiftLeft, Nat.shiftLeft_eq, Nat.mod_eq_of_lt (by omega),
    ← Nat.shiftLeft_eq, ← Nat.shiftLeft_add_eq_or_of_lt hd]

theorem packed_shiftRight : (a <<< deltaBits ||| d) >>> deltaBits = a := by
  apply eq_of_toNat_eq
  rw [toNat_ushiftRight, toNat_packed ha hd, Nat.shiftRight_eq_div_pow, deltaBits]
  omega

theorem packed_and_mask : (a <<< deltaBits ||| d) &&& mask 63 deltaBits = d := by
  apply eq_of_toNat_eq
  rw [toNat_and, toNat_packed ha hd, toNat_mask (by decide), Nat.and_two_pow_sub_one_eq_mod,
    deltaBits]
  omega

end

theorem exists_create {c v : BitVec 63} (hc : -1 ≤ c.toInt) (hle : c.toInt ≤ v.toInt)
    (hv : v.toInt < 2 ^ 31 - 1) :
    ∃ t, create c v = some t ∧ lastChangedAt t = c ∧ lastValidatedAt t = v := by
  have hcnat := c.toInt_eq_toNat_cond
  have hvnat := v.toInt_eq_toNat_cond
  have hsucc : (v + 1#63).toNat < 2 ^ 32 := by
    rw [toNat_add, toNat_ofNat]
    split_ifs at hvnat <;> omega
  have hdelta : (v - c).toNat < 2 ^ 31 := by
    rw [toNat_sub]
    split_ifs at hcnat hvnat <;> omega
  have hvalidated : lastValidatedAt ((v + 1#63) <<< deltaBits ||| (v - c)) = v := by
    rw [lastValidatedAt, packed_shiftRight hsucc hdelta]
    exact BitVec.add_sub_cancel v 1#63
  refine ⟨_, if_pos (by rwa [BitVec.sle, decide_eq_true_eq]), ?_, hvalidated⟩
  rw [lastChangedAt, hvalidated, packed_and_mask hsucc hdelta]
  exact sub_sub_cancel v c

end Run.Pair

open Dune.Task

variable {N V X : Type} [DecidableEq N]

section

variable [DecidableEq X] {D : CycleDetection} {S : Spec N V X} {σ σ' : Store N V X}
  {t t' : Tree (Store N V X) (Reply N V X) Nat (Op N)}

theorem Updated.execute (h : Updated S σ) {ns : List N} (heq : Memo.execute ns σ = some σ') :
    Updated S σ' := by
  induction ns generalizing σ with
  | nil => cases heq; exact h
  | cons n ns ih =>
    obtain ⟨σ₁, hn, hns⟩ := Option.bind_eq_some_iff.mp heq
    refine ih ?_ hns
    unfold invalidate at hn
    split at hn <;> cases hn
    exacts [h.setState n _, h.setState n _, h]

theorem Updated.step (h : Updated S σ) (hconsistent : Consistent D S σ t)
    (hshaped : t.Shaped (Footprint D S) Reply.blocks)
    (hstep : Step (machine D S) [] σ t σ' t') : Updated S σ' := by
  cases hstep.changes shaped_body ivar_blocks hshaped with
  | silent | wake => exact h
  | atomic hf heq hactive =>
    rcases hf _ _ _ _ heq with hleaves | ⟨c, o, -, -, hadd, -⟩
    · exact hleaves.updated h
    · have hst : IsStack t _ := hactive.stack
      obtain ⟨σ₁, o₁, heq₁, hsame, -⟩ := Store.addPathTo_spec D c
        (fun f hf => hconsistent.owns.alloc f (hst.mem_owned hf)) hconsistent.inv.recorded
      obtain rfl : σ₁ = σ' := congrArg Prod.fst (Option.some.inj (heq₁.symm.trans hadd))
      exact h.other hsame.run.ge hsame.node
  | force hf heq =>
    obtain ⟨rfl, n, phase, state, rfl⟩ := hf _ _ _ _ heq
    exact .setState n state (h.other (Int.le_refl _) rfl)
  | @fill _ st c op r => cases r <;> exact h.other (Int.le_refl _) rfl

/-- Memo reaches no other stores. -/
theorem Reachable.updated (h : Reachable D S σ t) : Updated S σ := by
  induction h with
  | init inputs => exact .init inputs
  | request _ _ ih | cancel _ _ ih => exact ih.other (Int.le_refl _) rfl
  | step h hstep ih => exact ih.step h.consistent h.shaped hstep
  | reset _ _ _ heq ih =>
    obtain ⟨σ₁, hexecute, rfl⟩ := Option.map_eq_some_iff.mp heq
    exact (ih.execute hexecute).other (Int.le_add_of_nonneg_right (by decide)) rfl

end

/-- The stamps are in order, and not of a later run. -/
def Node.Stamped (run : Int) (x : Node N V X) : Prop :=
  -1 ≤ x.lastChangedAt ∧ x.lastChangedAt ≤ x.lastValidatedAt ∧ x.lastValidatedAt ≤ run

structure Store.Stamped (σ : Store N V X) : Prop where
  run : 0 ≤ σ.run
  node : ∀ n, (σ.node n).Stamped σ.run

namespace Store.Stamped

variable {σ : Store N V X} (h : σ.Stamped)
include h

theorem setNode (n : N) {x : Node N V X} (hx : x.Stamped σ.run) : (σ.setNode n x).Stamped := by
  refine ⟨h.run, fun m => ?_⟩
  simp only [Store.setNode]
  split
  · exact hx
  · exact h.node m

theorem validateValue (n : N) : (σ.validateValue n).Stamped := by
  obtain ⟨hinvalid, hchanged, hvalidated⟩ := h.node n
  exact h.setNode n ⟨hinvalid, hchanged.trans hvalidated, Int.le_refl _⟩

end Store.Stamped

theorem Updated.stamped [DecidableEq X] {S : Spec N V X} {σ : Store N V X} (h : Updated S σ) :
    σ.Stamped := by
  induction h with
  | init => exact ⟨Int.le_refl 0, fun _ => ⟨Int.le_refl _, Int.le_refl _, Int.negSucc_le_zero 0⟩⟩
  | setState n state _ ih => exact ih.setNode n (ih.node n)
  | validateValue n _ ih => exact ih.validateValue n
  | updateValue n value deps _ ih =>
    refine (ih.setNode n ?_).validateValue n
    split
    · exact ⟨(Int.negSucc_le_zero 0).trans ih.run, Int.le_refl _, Int.le_refl _⟩
    · exact ih.node n
  | other _ hrun hnode ih =>
    refine ⟨ih.run.trans hrun, fun n => ?_⟩
    obtain ⟨hinvalid, hchanged, hvalidated⟩ := ih.node n
    rw [hnode]
    exact ⟨hinvalid, hchanged, hvalidated.trans hrun⟩

open Run.Pair in
/-- Both stamps can be read from the integer, a later validation keeps the other one, and in every
state of a node they can be packed as long as the runs are. -/
theorem runs_faithful [DecidableEq X] (S : Spec N V X) :
    (∀ changed validated : BitVec 63, -1 ≤ changed.toInt → changed.toInt ≤ validated.toInt →
      validated.toInt < 2 ^ 31 - 1 → ∃ t, create changed validated = some t ∧
        lastChangedAt t = changed ∧ lastValidatedAt t = validated ∧
        ∀ now : BitVec 63, changed.toInt ≤ now.toInt → now.toInt < 2 ^ 31 - 1 →
          ∃ t', withLastValidatedAt t now = some t' ∧
            lastChangedAt t' = changed ∧ lastValidatedAt t' = now) ∧
    ∀ σ, Updated S σ → ∀ n, (σ.node n).Stamped σ.run := by
  refine ⟨fun changed validated hc hle hv => ?_, fun σ h => h.stamped.node⟩
  obtain ⟨t, ht, hchanged, hvalidated⟩ := exists_create hc hle hv
  refine ⟨t, ht, hchanged, hvalidated, fun now hnow hlt => ?_⟩
  rw [withLastValidatedAt, hchanged]
  exact exists_create hc hnow hlt

end Dune.Memo
