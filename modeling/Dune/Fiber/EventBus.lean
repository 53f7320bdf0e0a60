import Dune.Fiber.Calls

/-!
# Event buses

`src/fiber/src/event_bus.ml`: a first-in-first-out queue without storage, where a push waits for a
pop and a pop for a push. Closing the bus ends the operations that wait (`delivery`).
-/

open List

namespace Dune.Fiber.EventBus

variable {α K : Type}

inductive Status
  | open
  | closed
  deriving DecidableEq

/-- `Event_bus.t`. Every operation that waits reads an ivar of its own, which stands for its
continuation. -/
structure T (α K : Type) where
  status : Status
  readers : List K
  writers : List (K × α)

def create : T α K where
  status := .open
  readers := []
  writers := []

inductive Op (α : Type)
  | push (event : α)
  | pop
  | close

inductive Result (α : Type)
  | ok
  | closed
  | next (event : α)
  | unit

def push (event : α) (k : K) (t : T α K) : T α K × Eff K (Result α) :=
  match t.status with
  | .closed => (t, .continue .closed)
  | .open =>
    match t.readers with
    | reader :: readers => ({ t with readers }, .resume reader (.next event) (.continue .ok))
    | [] => ({ t with writers := t.writers ++ [(k, event)] }, .suspend)

/-- The ivars of a queue are filled, the first one first. -/
def popAll (q : List K) (rest : Eff K (Result α)) : Eff K (Result α) :=
  .resumeAll (q.map (·, .closed)) rest

def close (t : T α K) : T α K × Eff K (Result α) :=
  match t.status with
  | .closed => (t, .continue .unit)
  | .open =>
    ({ status := .closed, readers := [], writers := [] },
      popAll t.readers (popAll (t.writers.map Prod.fst) (.continue .unit)))

def pop (k : K) (t : T α K) : T α K × Eff K (Result α) :=
  match t.status with
  | .closed => (t, .continue .closed)
  | .open =>
    match t.writers with
    | (writer, event) :: writers =>
      ({ t with writers }, .resume writer .ok (.continue (.next event)))
    | [] => ({ t with readers := t.readers ++ [k] }, .suspend)

def run : Operations (T α K) K (Op α) (Result α)
  | .push event => push event
  | .pop => pop
  | .close => fun _ => close

/-- The continuations that an event bus keeps. -/
def T.blocked (t : T α K) : List K := t.readers ++ t.writers.map Prod.fst

theorem conserves : Conserves (run (α := α) (K := K)) T.blocked := by
  classical
  rintro (event | _ | _) k ⟨_ | _, readers, writers⟩
  · cases readers <;> simp [run, push, T.blocked, perm_iff_count, count_cons]
    omega
  · simp [run, push, T.blocked, perm_iff_count, count_cons]; omega
  · cases writers <;> simp [run, pop, T.blocked, perm_iff_count, count_cons]
    omega
  · simp [run, pop, T.blocked, perm_iff_count, count_cons]; omega
  · simp [run, close, popAll, T.blocked, Function.comp_def]
  · simp [run, close, T.blocked, perm_iff_count, count_cons]; omega

def Op.isClose : Op α → Bool
  | .close => true
  | _ => false

section Histories

variable (s : Session (T α K) K (Op α) (Result α))

/-- The calls before the bus was closed. -/
def early : List (K × Op α) := s.calls.takeWhile (!·.2.isClose)

/-- The call that closed the bus and the calls after it. -/
def late : List (K × Op α) := s.calls.dropWhile (!·.2.isClose)

/-- The pops of an open bus, in the order in which they arrived. -/
def pops : List K :=
  (early s).filterMap fun
    | (k, .pop) => some k
    | _ => none

/-- The pushes to an open bus, in the order in which they arrived. -/
def pushes : List (K × α) :=
  (early s).filterMap fun
    | (k, .push event) => some (k, event)
    | _ => none

/-- The pops and pushes of a closed bus. -/
def refused : List K :=
  ((late s).filter (!·.2.isClose)).map Prod.fst

/-- The pops that have received an event, in the order in which they did. -/
def received : List (K × α) :=
  s.handed.filterMap fun
    | (k, .next event) => some (k, event)
    | _ => none

/-- The pushes that have reported the delivery of their event. -/
def delivered : List K :=
  s.handed.filterMap fun
    | (k, .ok) => some k
    | _ => none

/-- The operations that have reported that the bus is closed. -/
def ended : List K :=
  s.handed.filterMap fun
    | (k, .closed) => some k
    | _ => none

end Histories

section Steps

variable {s : Session (T α K) K (Op α) (Result α)}

theorem early_call (k : K) (op : Op α) :
    early (s.call run k op) =
      if late s = [] then early s ++ [(k, op)].takeWhile (!·.2.isClose) else early s := by
  have hcalls : early s ++ late s = s.calls := takeWhile_append_dropWhile
  rw [early, Session.call_calls, takeWhile_append]
  change (if (early s).length = s.calls.length then _ else early s) = _
  split
  · next hlen =>
    have hlate : late s = [] := by
      rw [← hcalls, length_append] at hlen
      exact length_eq_zero_iff.mp (by omega)
    rw [hlate, append_nil] at hcalls
    rw [if_pos hlate, hcalls]
  · next hlen =>
    rw [if_neg fun hlate => hlen (by rw [← hcalls, hlate, append_nil])]

theorem late_call (k : K) (op : Op α) :
    late (s.call run k op) =
      if late s = [] then [(k, op)].dropWhile (!·.2.isClose) else late s ++ [(k, op)] := by
  rw [late, Session.call_calls, dropWhile_append]
  change (if (late s).isEmpty then _ else late s ++ [(k, op)]) = _
  cases late s <;> rfl

variable {s' : Session (T α K) K (Op α) (Result α)}

theorem pops_congr (h : early s' = early s) : pops s' = pops s := by
  rw [pops, pops, h]

theorem pushes_congr (h : early s' = early s) : pushes s' = pushes s := by
  rw [pushes, pushes, h]

structure IsOpen (s : Session (T α K) K (Op α) (Result α)) : Prop where
  status : s.store.status = .open
  late : late s = []
  ended : ended s = []
  matched : ∃ pairs, Matched (pops s) (pushes s) pairs s.store.readers s.store.writers ∧
    received s = pairs.map (fun p => (p.1, p.2.2)) ∧ delivered s = pairs.map (·.2.1)

structure IsClosed (s : Session (T α K) K (Op α) (Result α)) : Prop where
  status : s.store.status = .closed
  late : late s ≠ []
  readers : s.store.readers = []
  writers : s.store.writers = []
  received : received s = ((pops s).zip (pushes s)).map fun p => (p.1, p.2.2)
  delivered : delivered s = ((pops s).zip (pushes s)).map (·.2.1)
  ended : ended s = (pops s).drop (pushes s).length ++
    ((pushes s).drop (pops s).length).map Prod.fst ++ refused s

section

attribute [local simp] pops pushes ended received delivered run push pop

theorem isOpen_call (h : IsOpen s) (k : K) {op : Op α} (hop : op.isClose = false) :
    IsOpen (s.call run k op) := by
  have hearly : early (s.call run k op) = early s ++ [(k, op)] := by
    rw [early_call, if_pos h.late]
    simp [hop]
  have hlate : late (s.call run k op) = [] := by
    rw [late_call, if_pos h.late]
    simp [hop]
  obtain ⟨⟨status, readers, writers⟩, calls, handed⟩ := s
  obtain ⟨rfl, -, hended, pairs, hmatched, hreceived, hdelivered⟩ := h
  cases op with
  | push event =>
    cases readers with
    | nil =>
      refine ⟨rfl, hlate, ?_, pairs, ?_, ?_, ?_⟩
      · simpa using hended
      · simpa [hearly] using hmatched.waits_right (k, event)
      · simpa using hreceived
      · simpa using hdelivered
    | cons reader readers =>
      refine ⟨rfl, hlate, ?_, pairs ++ [(reader, k, event)], ?_, ?_, ?_⟩
      · simpa using hended
      · obtain rfl : writers = [] := hmatched.left_or_right.resolve_left (cons_ne_nil _ _)
        simpa [hearly] using hmatched.meets_right (k, event)
      · simpa using hreceived
      · simpa using hdelivered
  | pop =>
    cases writers with
    | nil =>
      refine ⟨rfl, hlate, ?_, pairs, ?_, ?_, ?_⟩
      · simpa using hended
      · simpa [hearly] using hmatched.waits k
      · simpa using hreceived
      · simpa using hdelivered
    | cons writer writers =>
      refine ⟨rfl, hlate, ?_, pairs ++ [(k, writer)], ?_, ?_, ?_⟩
      · simpa using hended
      · obtain rfl : readers = [] := hmatched.left_or_right.resolve_right (cons_ne_nil _ _)
        simpa [hearly] using hmatched.meets k
      · simpa using hreceived
      · simpa using hdelivered
  | close => cases hop

end

theorem isClosed_close (h : IsOpen s) (k : K) : IsClosed (s.call run k .close) := by
  have hearly : early (s.call run k .close) = early s := by
    rw [early_call, if_pos h.late]
    exact append_nil _
  have hlate : late (s.call run k .close) = [(k, .close)] := by
    rw [late_call, if_pos h.late]
    rfl
  have hstore : run .close k s.store = ({ status := .closed, readers := [], writers := [] },
      popAll s.store.readers (popAll (s.store.writers.map Prod.fst) (.continue .unit))) := by
    simp only [run, close, h.status]
  obtain ⟨pairs, ⟨rfl, hreaders, hwriters⟩, hreceived, hdelivered⟩ := h.matched
  refine ⟨by simp [hstore], by simp [hlate], by simp [hstore], by simp [hstore], ?_, ?_, ?_⟩
  all_goals rw [pops_congr hearly, pushes_congr hearly]
  · simpa [received, hstore, popAll] using hreceived
  · simpa [delivered, hstore, popAll] using hdelivered
  · have hended := h.ended
    rw [← hreaders, ← hwriters]
    simpa [ended, hstore, popAll, refused, hlate, Op.isClose] using hended

theorem isClosed_call (h : IsClosed s) (k : K) (op : Op α) : IsClosed (s.call run k op) := by
  have hearly : early (s.call run k op) = early s := by
    rw [early_call, if_neg h.late]
  have hlate : late (s.call run k op) = late s ++ [(k, op)] := by
    rw [late_call, if_neg h.late]
  have hstore : run op k s.store =
      (s.store, .continue (if op.isClose then .unit else .closed)) := by
    cases op <;> simp [run, push, pop, close, h.status, Op.isClose]
  refine ⟨by simp [hstore, h.status], by simp [hlate], by simp [hstore, h.readers],
    by simp [hstore, h.writers], ?_, ?_, ?_⟩
  all_goals rw [pops_congr hearly, pushes_congr hearly]
  · rw [← h.received]
    cases op <;> simp [received, hstore, Op.isClose]
  · rw [← h.delivered]
    cases op <;> simp [delivered, hstore, Op.isClose]
  · have hended : ended (s.call run k op) = ended s ++ if op.isClose then [] else [k] := by
      cases op <;> simp [ended, hstore, Op.isClose]
    have hrefused : refused (s.call run k op) = refused s ++ if op.isClose then [] else [k] := by
      cases op <;> simp [refused, hlate, Op.isClose]
    rw [hended, hrefused, h.ended, append_assoc]

theorem isOpen_or_isClosed (h : Reachable run (fun _ _ => True) create s) :
    IsOpen s ∨ IsClosed s := by
  induction h with
  | init => exact .inl ⟨rfl, rfl, rfl, [], .init [], rfl, rfl⟩
  | call k op _ _ _ ih =>
    rcases ih with ih | ih
    · cases op with
      | push event | pop => exact .inl (isOpen_call ih k rfl)
      | close => exact .inr (isClosed_close ih k)
    · exact .inr (isClosed_call ih k op)

end Steps

/-- In every state, the pops and the pushes of an open bus are matched in order: a pop receives the
event of its push, which reports the delivery. Those that are not matched wait as long as the bus is
open, and report that it is closed when it is, like all later ones. Every operation waits or has
reported once. -/
theorem delivery (s : Session (T α K) K (Op α) (Result α))
    (h : Reachable run (fun _ _ => True) create s) :
    (s.store.readers = [] ∨ s.store.writers = []) ∧
      received s = ((pops s).zip (pushes s)).map (fun p => (p.1, p.2.2)) ∧
      delivered s = ((pops s).zip (pushes s)).map (·.2.1) ∧
      (s.store.status = .open → late s = [] ∧ ended s = [] ∧
        s.store.readers = (pops s).drop (pushes s).length ∧
        s.store.writers = (pushes s).drop (pops s).length) ∧
      (s.store.status = .closed → s.store.readers = [] ∧ s.store.writers = [] ∧
        ended s = (pops s).drop (pushes s).length ++
          ((pushes s).drop (pops s).length).map Prod.fst ++ refused s) ∧
      (s.handed.map Prod.fst ++ s.store.blocked).Perm s.callers := by
  have hconserved := h.conserved conserves rfl
  rcases isOpen_or_isClosed h with hopen | hclosed
  · obtain ⟨pairs, hmatched, hreceived, hdelivered⟩ := hopen.matched
    refine ⟨hmatched.left_or_right, ?_, ?_, fun _ => ⟨hopen.late, hopen.ended, hmatched.left,
      hmatched.right⟩, fun hstatus => ?_, hconserved⟩
    · rw [hreceived, hmatched.pairs]
    · rw [hdelivered, hmatched.pairs]
    · cases hopen.status.symm.trans hstatus
  · refine ⟨.inl hclosed.readers, hclosed.received, hclosed.delivered, fun hstatus => ?_,
      fun _ => ⟨hclosed.readers, hclosed.writers, hclosed.ended⟩, hconserved⟩
    cases hclosed.status.symm.trans hstatus

/-- The second push waits when the bus is closed, and the last pop comes too late. -/
def closedBus : Session (T Nat Nat) Nat (Op Nat) (Result Nat) :=
  ((((Session.call run 0 .pop ⟨create, [], []⟩).call run 1 (.push 5)).call run 2 (.push 6)).call
    run 3 .close).call run 4 .pop

theorem delivery_closedBus :
    received closedBus = [(0, 5)] ∧ delivered closedBus = [1] ∧ ended closedBus = [2, 4] := by
  have h : Reachable run (fun _ _ => True) create closedBus :=
    .call 4 _ (.call 3 _ (.call 2 _ (.call 1 _ (.call 0 _ .init (by decide) trivial) (by decide)
      trivial) (by decide) trivial) (by decide) trivial) (by decide) trivial
  obtain ⟨-, hreceived, hdelivered, -, hclosed, -⟩ := delivery closedBus h
  exact ⟨hreceived, hdelivered, (hclosed rfl).2.2⟩

end Dune.Fiber.EventBus
