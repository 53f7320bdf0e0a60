import Mathlib

/-!
# Calls of a component by cooperative fibers

A component keeps a state and offers operations that run without interruption. An operation lets
the fiber that calls it go on with a result, or keeps its continuation and lets it wait, and it may
resume fibers whose continuations it has kept. Between two operations any other fiber may run, so
that the runs of all programs that use the component are the sequences of calls (`Reachable`).

A component that neither drops nor copies continuations (`Conserves`) hands one result to every
call that does not wait (`Reachable.conserved`). Where calls of two kinds meet, they are matched in
the order in which they arrive (`Matched`).
-/

open List

namespace Dune.Fiber

variable {σ K Op A : Type}

/-- What an operation does with fibers. -/
inductive Eff (K A : Type)
  /-- The caller goes on. -/
  | continue (x : A)
  /-- The caller waits. -/
  | suspend
  /-- Another fiber will go on with a result of its own. -/
  | resume (k : K) (x : A) (rest : Eff K A)

namespace Eff

/-- The fibers that receive a result, with the result, in the order in which they receive it. -/
def handed (k : K) : Eff K A → List (K × A)
  | .continue x => [(k, x)]
  | .suspend => []
  | .resume r x rest => (r, x) :: rest.handed k

def resumeAll (rs : List (K × A)) (rest : Eff K A) : Eff K A :=
  rs.foldr (fun r => .resume r.1 r.2) rest

@[simp] theorem handed_continue (k : K) (x : A) : (Eff.continue x).handed k = [(k, x)] := rfl

@[simp] theorem handed_suspend (k : K) : (.suspend : Eff K A).handed k = [] := rfl

@[simp] theorem handed_resume (k r : K) (x : A) (rest : Eff K A) :
    (Eff.resume r x rest).handed k = (r, x) :: rest.handed k := rfl

@[simp] theorem handed_resumeAll (k : K) (rs : List (K × A)) (rest : Eff K A) :
    (resumeAll rs rest).handed k = rs ++ rest.handed k := by
  induction rs with
  | nil => rfl
  | cons r rs ih => exact congrArg (r :: ·) ih

end Eff

abbrev Operations (σ K Op A : Type) := Op → K → σ → σ × Eff K A

/-- A component and what has happened to it. -/
structure Session (σ K Op A : Type) where
  store : σ
  /-- The calls, in the order in which they were made. -/
  calls : List (K × Op)
  /-- The results, in the order in which they were handed to the callers. -/
  handed : List (K × A)

namespace Session

def callers (s : Session σ K Op A) : List K := s.calls.map Prod.fst

def call (f : Operations σ K Op A) (k : K) (op : Op) (s : Session σ K Op A) : Session σ K Op A :=
  let (store, eff) := f op k s.store
  { store, calls := s.calls ++ [(k, op)], handed := s.handed ++ eff.handed k }

variable (f : Operations σ K Op A) (k : K) (op : Op) (s : Session σ K Op A)

@[simp] theorem call_store : (s.call f k op).store = (f op k s.store).1 := rfl

@[simp] theorem call_calls : (s.call f k op).calls = s.calls ++ [(k, op)] := rfl

@[simp] theorem call_handed :
    (s.call f k op).handed = s.handed ++ (f op k s.store).2.handed k := rfl

@[simp] theorem call_callers : (s.call f k op).callers = s.callers ++ [k] := by
  simp [callers]

end Session

/-- The states of the component in all programs. Every call has a continuation of its own. The
programs make the calls that are allowed. -/
inductive Reachable (f : Operations σ K Op A) (allowed : Op → Session σ K Op A → Prop)
    (init : σ) : Session σ K Op A → Prop
  | init : Reachable f allowed init ⟨init, [], []⟩
  | call {s : Session σ K Op A} (k : K) (op : Op) : Reachable f allowed init s →
      k ∉ s.callers → allowed op s → Reachable f allowed init (s.call f k op)

/-- The operations keep every continuation that they get until they hand a result to it. -/
def Conserves (f : Operations σ K Op A) (blocked : σ → List K) : Prop :=
  ∀ op k s, (((f op k s).2.handed k).map Prod.fst ++ blocked (f op k s).1).Perm (blocked s ++ [k])

section Conserved

variable {f : Operations σ K Op A} {allowed : Op → Session σ K Op A → Prop} {init : σ}
  {blocked : σ → List K} {s : Session σ K Op A}

theorem Reachable.callers_nodup (h : Reachable f allowed init s) : s.callers.Nodup := by
  induction h with
  | init => exact nodup_nil
  | call k op _ hk _ ih =>
    rw [Session.call_callers]
    exact nodup_append.mpr ⟨ih, nodup_singleton k, fun a ha b hb hab =>
      hk (mem_singleton.mp hb ▸ hab ▸ ha)⟩

variable (hf : Conserves f blocked) (hinit : blocked init = [])

include hf hinit

/-- Every call waits or has received one result. -/
theorem Reachable.conserved (h : Reachable f allowed init s) :
    (s.handed.map Prod.fst ++ blocked s.store).Perm s.callers := by
  induction h with
  | init =>
    rw [hinit]
    exact .nil
  | @call s k op _ _ _ ih =>
    rw [Session.call_handed, Session.call_callers, Session.call_store, map_append,
      append_assoc]
    exact ((hf op k s.store).append_left _).trans
      ((append_assoc _ _ _).symm ▸ ih.append_right [k])

end Conserved

section Matching

variable {α β : Type}

/-- Two sequences are matched in order. What is left of the longer one waits. -/
structure Matched (as : List α) (bs : List β) (pairs : List (α × β)) (left : List α)
    (right : List β) : Prop where
  pairs : pairs = as.zip bs
  left : left = as.drop bs.length
  right : right = bs.drop as.length

namespace Matched

variable {as left : List α} {bs right : List β} {pairs : List (α × β)} {a : α} {b : β}

theorem init (bs : List β) : Matched ([] : List α) bs [] [] bs :=
  ⟨rfl, drop_nil.symm, rfl⟩

theorem swap (h : Matched as bs pairs left right) :
    Matched bs as (pairs.map Prod.swap) right left :=
  ⟨by rw [h.pairs, zip_swap], h.right, h.left⟩

/-- One of the sequences is used up. -/
theorem left_or_right (h : Matched as bs pairs left right) : left = [] ∨ right = [] := by
  rw [h.left, h.right, drop_eq_nil_iff, drop_eq_nil_iff]
  exact Nat.le_total _ _

theorem zip_concat (as : List α) (bs : List β) (a : α) :
    (as ++ [a]).zip bs = as.zip bs ++ ((bs.drop as.length).head?.map (a, ·)).toList := by
  induction as generalizing bs with
  | nil => cases bs <;> simp
  | cons a' as ih =>
    cases bs with
    | nil => simp
    | cons b bs => simpa using ih bs

theorem waits (h : Matched as bs pairs left []) (a : α) :
    Matched (as ++ [a]) bs pairs (left ++ [a]) [] := by
  have hle : bs.length ≤ as.length := drop_eq_nil_iff.mp h.right.symm
  refine ⟨?_, ?_, ?_⟩
  · rw [zip_concat, ← h.right, ← h.pairs]
    exact (append_nil pairs).symm
  · rw [h.left, drop_append_of_le_length hle]
  · symm
    rw [drop_eq_nil_iff, length_append]
    exact Nat.le_add_right_of_le hle

theorem meets (h : Matched as bs pairs left (b :: right)) (a : α) :
    Matched (as ++ [a]) bs (pairs ++ [(a, b)]) [] right := by
  refine ⟨?_, ?_, ?_⟩
  · rw [zip_concat, ← h.right, ← h.pairs]
    rfl
  · symm
    rw [drop_eq_nil_iff, length_append, length_singleton, Nat.succ_le_iff,
      ← Nat.not_le, ← drop_eq_nil_iff, ← h.right]
    exact cons_ne_nil b right
  · rw [length_append, length_singleton, ← drop_drop, ← h.right]
    rfl

theorem waits_right (h : Matched as bs pairs [] right) (b : β) :
    Matched as (bs ++ [b]) pairs [] (right ++ [b]) := by
  simpa using (h.swap.waits b).swap

theorem meets_right (h : Matched as bs pairs (a :: left) right) (b : β) :
    Matched as (bs ++ [b]) (pairs ++ [(a, b)]) left [] := by
  simpa using (h.swap.meets b).swap

end Matched

end Matching

end Dune.Fiber
