import Dune.Fiber.Calls

/-!
# Throttles

`src/fiber/src/throttle.ml`: jobs of given weights start in the order in which they are submitted,
as long as the weight of the running ones is below the size of the throttle (`accounting`).

A job starts when its weight is added to the running one. Its function is called at once, or, if it
has waited, when its fiber comes to its turn.
-/

open List

namespace Dune.Fiber.Throttle

variable {K : Type}

/-- `waiting`. The ivar, which only the job reads, stands for its continuation. -/
structure Waiting (K : Type) where
  weight : Int
  ivar : K

structure T (K : Type) where
  size : Int
  running : Int
  waiting : List (Waiting K)

def create (size : Int) : T K where
  size := size
  running := 0
  waiting := []

inductive Outcome
  | returned
  | raised

inductive Op (K : Type)
  /-- A job is submitted. Its fiber was built when the throttle had the size `built`. -/
  | run (size built : Int)
  /-- The function of a job has ended. -/
  | finally (job : K) (weight : Int) (outcome : Outcome)
  | resize (n : Int)

inductive Result
  /-- The job starts while the throttle has the running weight and the size. -/
  | started (weight running size : Int)
  | finished (outcome : Outcome)
  | unit

/-- The loop of `restart`: the running weight, the jobs that still wait and those that start. -/
def restartLoop (size : Int) : Int → List (Waiting K) → Int × List (Waiting K) × List (K × Result)
  | running, [] => (running, [], [])
  | running, w :: waiting =>
    if running ≥ size then (running, w :: waiting, [])
    else
      let (running', waiting', started) := restartLoop size (running + w.weight) waiting
      (running', waiting', (w.ivar, .started w.weight running size) :: started)

def restart (t : T K) (rest : Eff K Result) : T K × Eff K Result :=
  let (running, waiting, started) := restartLoop t.size t.running t.waiting
  ({ t with running, waiting }, .resumeAll started rest)

def resize (t : T K) (n : Int) : T K × Eff K Result :=
  restart { t with size := n } (.continue .unit)

/-- The body of `run`, up to the call of the function. -/
def submit (weight : Int) (k : K) (t : T K) : T K × Eff K Result :=
  if t.waiting = [] ∧ t.running < t.size then
    ({ t with running := t.running + weight },
      .continue (.started weight t.running t.size))
  else
    ({ t with waiting := t.waiting ++ [{ weight, ivar := k }] }, .suspend)

/-- The `finally` of `run`. The result of the function or its errors come after it. -/
def finish (weight : Int) (outcome : Outcome) (t : T K) : T K × Eff K Result :=
  restart { t with running := t.running - weight } (.continue (.finished outcome))

def run : Operations (T K) K (Op K) Result
  | .run size built => submit (min size built)
  | .finally _ weight outcome => fun _ => finish weight outcome
  | .resize n => fun _ t => resize t n

/-! ## Histories -/

section Histories

variable (s : Session (T K) K (Op K) Result)

/-- The jobs with their weights, in the order in which they were submitted. -/
def submitted : List (K × Int) :=
  s.calls.filterMap fun
    | (k, .run size built) => some (k, min size built)
    | _ => none

def startedJob? : K × Result → Option (K × Int)
  | (k, .started weight _ _) => some (k, weight)
  | _ => none

/-- The jobs that have started, in the order in which they did. -/
def started : List (K × Int) := s.handed.filterMap startedJob?

def finished : List (K × Int) :=
  s.calls.filterMap fun
    | (_, .finally job weight _) => some (job, weight)
    | _ => none

def active [DecidableEq K] : List (K × Int) := (started s).filter (· ∉ finished s)

end Histories

/-- The function of a job ends once, after the job has started. -/
def allowed : Op K → Session (T K) K (Op K) Result → Prop
  | .finally job weight _, s => (job, weight) ∈ started s ∧ (job, weight) ∉ finished s
  | _, _ => True

def Waiting.job (w : Waiting K) : K × Int := (w.ivar, w.weight)

def totalWeight (jobs : List (K × Int)) : Int := (jobs.map Prod.snd).sum

@[simp] theorem totalWeight_nil : totalWeight ([] : List (K × Int)) = 0 := rfl

@[simp] theorem totalWeight_append (jobs jobs' : List (K × Int)) :
    totalWeight (jobs ++ jobs') = totalWeight jobs + totalWeight jobs' := by
  simp [totalWeight]

@[simp] theorem totalWeight_cons (job : K × Int) (jobs : List (K × Int)) :
    totalWeight (job :: jobs) = job.2 + totalWeight jobs := by
  simp [totalWeight]

/-- Jobs start as long as there is room, from the front of the queue. -/
structure Restarts (size running : Int) (waiting : List (Waiting K)) (running' : Int)
    (waiting' : List (Waiting K)) (handed : List (K × Result)) : Prop where
  order : handed.filterMap startedJob? ++ waiting'.map Waiting.job = waiting.map Waiting.job
  running : running' = running + totalWeight (handed.filterMap startedJob?)
  full : waiting' ≠ [] → size ≤ running'
  room : ∀ k weight r n, (k, .started weight r n) ∈ handed → r < n

theorem restartLoop_restarts (size running : Int) (waiting : List (Waiting K)) :
    Restarts size running waiting (restartLoop size running waiting).1
      (restartLoop size running waiting).2.1 (restartLoop size running waiting).2.2 := by
  induction waiting generalizing running with
  | nil => exact ⟨rfl, by simp [restartLoop], fun h => absurd rfl h, nofun⟩
  | cons w waiting ih =>
    unfold restartLoop
    split
    · next hfull => exact ⟨rfl, by simp, fun _ => hfull, nofun⟩
    · next hroom =>
      obtain ⟨horder, hrunning, hfull, hroom'⟩ := ih (running + w.weight)
      refine ⟨congrArg (w.job :: ·) horder, ?_, hfull, ?_⟩
      · change _ = running + totalWeight (w.job :: _)
        rw [hrunning, totalWeight_cons, Int.add_assoc]
        rfl
      · intro k weight r n hmem
        rcases mem_cons.mp hmem with heq | hmem
        · cases heq
          exact Int.not_le.mp hroom
        · exact hroom' k weight r n hmem

theorem restart_restarts (t : T K) (k : K) (r : Result) (hr : startedJob? (k, r) = none) :
    Restarts t.size t.running t.waiting (restart t (.continue r)).1.running
      (restart t (.continue r)).1.waiting ((restart t (.continue r)).2.handed k) := by
  obtain ⟨horder, hrunning, hfull, hroom⟩ := restartLoop_restarts t.size t.running t.waiting
  have hhanded : (restart t (.continue r)).2.handed k =
      (restartLoop t.size t.running t.waiting).2.2 ++ [(k, r)] := Eff.handed_resumeAll k _ _
  have hstarted : ((restart t (.continue r)).2.handed k).filterMap startedJob? =
      (restartLoop t.size t.running t.waiting).2.2.filterMap startedJob? := by
    simp [hhanded, hr]
  refine ⟨by rw [hstarted]; exact horder, by rw [hstarted]; exact hrunning, hfull, ?_⟩
  intro k' weight r' n hmem
  rw [hhanded, mem_append, mem_singleton] at hmem
  rcases hmem with hmem | heq
  · exact hroom k' weight r' n hmem
  · cases heq
    cases hr

theorem submit_restarts (t : T K) (k : K) (weight : Int)
    (hfull : t.waiting ≠ [] → t.size ≤ t.running) :
    Restarts t.size t.running (t.waiting ++ [{ weight, ivar := k }]) (submit weight k t).1.running
      (submit weight k t).1.waiting ((submit weight k t).2.handed k) := by
  by_cases hroom : t.waiting = [] ∧ t.running < t.size
  · rw [submit, if_pos hroom]
    refine ⟨by simp [startedJob?, hroom.1, Waiting.job], by simp [startedJob?],
      fun hne => absurd hroom.1 hne, fun k' weight' r n hmem => ?_⟩
    cases mem_singleton.mp hmem
    exact hroom.2
  · rw [submit, if_neg hroom]
    refine ⟨rfl, by simp, fun _ => ?_, nofun⟩
    by_cases hwaiting : t.waiting = []
    · exact Int.not_lt.mp fun hlt => hroom ⟨hwaiting, hlt⟩
    · exact hfull hwaiting

/-! ## Accounting -/

/-- What holds of a throttle in every state. -/
structure Accounts (s : Session (T K) K (Op K) Result) : Prop where
  running : s.store.running + totalWeight (finished s) = totalWeight (started s)
  full : s.store.waiting ≠ [] → s.store.size ≤ s.store.running
  order : started s ++ s.store.waiting.map Waiting.job = submitted s
  room : ∀ k weight r n, (k, .started weight r n) ∈ s.handed → r < n
  nodup : (finished s).Nodup
  subset : finished s ⊆ started s

section Steps

variable {s : Session (T K) K (Op K) Result}

/-- An operation changes the queue, the size and the running weight and restarts. -/
theorem accounts_call (h : Accounts s) (k : K) (op : Op K) {size running : Int}
    {queue : List (Waiting K)} (hsize : (run op k s.store).1.size = size)
    (hrestarts : Restarts size running queue (run op k s.store).1.running
      (run op k s.store).1.waiting ((run op k s.store).2.handed k))
    (hqueue : started s ++ queue.map Waiting.job = submitted (s.call run k op))
    (hrunning : running + totalWeight (finished (s.call run k op)) = totalWeight (started s))
    (hnodup : (finished (s.call run k op)).Nodup)
    (hsubset : finished (s.call run k op) ⊆ started s) : Accounts (s.call run k op) := by
  have hstarted : started (s.call run k op) =
      started s ++ ((run op k s.store).2.handed k).filterMap startedJob? := by
    simp [started]
  refine ⟨?_, fun hne => hsize.trans_le (hrestarts.full hne), ?_, ?_, hnodup, ?_⟩
  · rw [hstarted, totalWeight_append, Session.call_store, hrestarts.running]
    omega
  · rw [hstarted, append_assoc, Session.call_store, hrestarts.order, hqueue]
  · intro k' weight r n hmem
    rw [Session.call_handed, mem_append] at hmem
    exact hmem.elim (h.room k' weight r n) (hrestarts.room k' weight r n)
  · rw [hstarted]
    exact List.Subset.trans hsubset (subset_append_left _ _)

theorem accounts (size : Int) (h : Reachable run allowed (create size) s) : Accounts s := by
  induction h with
  | init => exact ⟨rfl, fun hne => absurd rfl hne, rfl, nofun, nodup_nil, nil_subset _⟩
  | @call s k op hs hk hallowed ih =>
    cases op with
    | run size built =>
      have hfinished : finished (s.call run k (.run size built)) = finished s := by
        simp [finished]
      apply accounts_call ih k _ _ (submit_restarts s.store k (min size built) ih.full)
      · rw [map_append, ← append_assoc, ih.order]
        simp [submitted, Waiting.job]
      · rw [hfinished]
        exact ih.running
      · rw [hfinished]
        exact ih.nodup
      · rw [hfinished]
        exact ih.subset
      · simp only [run, submit]
        split <;> rfl
    | «finally» job weight outcome =>
      have hfinished : finished (s.call run k (.finally job weight outcome)) =
          finished s ++ [(job, weight)] := by
        simp [finished]
      have hrestarts := restart_restarts ⟨s.store.size, s.store.running - weight, s.store.waiting⟩
        k (.finished outcome) rfl
      apply accounts_call ih k (.finally job weight outcome) rfl hrestarts
      · rw [ih.order]
        simp [submitted]
      · have := ih.running
        simp only [hfinished, totalWeight_append, totalWeight_cons, totalWeight_nil]
        omega
      · rw [hfinished]
        exact concat_eq_append ▸ ih.nodup.concat hallowed.2
      · rw [hfinished]
        exact append_subset.mpr
          ⟨ih.subset, cons_subset.mpr ⟨hallowed.1, nil_subset _⟩⟩
    | resize n =>
      have hfinished : finished (s.call run k (.resize n)) = finished s := by
        simp [finished]
      have hrestarts := restart_restarts ⟨n, s.store.running, s.store.waiting⟩ k .unit rfl
      apply accounts_call ih k (.resize n) rfl hrestarts
      · rw [ih.order]
        simp [submitted]
      · rw [hfinished]
        exact ih.running
      · rw [hfinished]
        exact ih.nodup
      · rw [hfinished]
        exact ih.subset

theorem submitted_nodup (h : s.callers.Nodup) : (submitted s).Nodup := by
  have hsublist : ((submitted s).map Prod.fst).Sublist s.callers := by
    unfold submitted Session.callers
    induction s.calls with
    | nil => exact .slnil
    | cons c calls ih =>
      obtain ⟨k, op⟩ := c
      cases op with
      | run size built => exact ih.cons_cons k
      | _ => exact ih.cons k
  exact (hsublist.nodup h).of_map _

theorem active_perm [DecidableEq K] (h : Accounts s) (hnodup : (started s).Nodup) :
    (finished s ++ active s).Perm (started s) := by
  have hfinished : (finished s).Perm ((started s).filter (· ∈ finished s)) := by
    rw [perm_ext_iff_of_nodup h.nodup (hnodup.filter _)]
    intro job
    rw [mem_filter, decide_eq_true_eq]
    exact ⟨fun hjob => ⟨h.subset hjob, hjob⟩, And.right⟩
  have hsplit := filter_append_perm (· ∈ finished s) (started s)
  simp only [← decide_not] at hsplit
  exact (hfinished.append_right _).trans hsplit

end Steps

/-- In every state, the running weight is that of the jobs that have started and not finished, jobs
wait only if it is not below the size, and jobs start in the order in which they were submitted,
each of them when the running weight was below the size. -/
theorem accounting [DecidableEq K] (size : Int) (s : Session (T K) K (Op K) Result)
    (h : Reachable run allowed (create size) s) :
    s.store.running = totalWeight (active s) ∧
      (s.store.waiting ≠ [] → s.store.running ≥ s.store.size) ∧
      started s ++ s.store.waiting.map Waiting.job = submitted s ∧
      ∀ k weight r n, (k, .started weight r n) ∈ s.handed → r < n := by
  have haccounts := accounts size h
  refine ⟨?_, haccounts.full, haccounts.order, haccounts.room⟩
  have hnodup : (started s).Nodup := by
    have hsubmitted := submitted_nodup h.callers_nodup
    rw [← haccounts.order] at hsubmitted
    exact (nodup_append.mp hsubmitted).1
  have hweight : totalWeight (finished s ++ active s) = totalWeight (started s) :=
    ((active_perm haccounts hnodup).map Prod.snd).sum_eq
  have hrunning := haccounts.running
  rw [totalWeight_append] at hweight
  omega

/-- Two jobs start in a throttle of size 2, and the third one when the second one fails. -/
def failingJob : Session (T Nat) Nat (Op Nat) Result :=
  (((Session.call run 0 (.run 1 2) ⟨create 2, [], []⟩).call run 1 (.run 5 2)).call
    run 2 (.run 1 2)).call run 3 (.finally 1 2 .raised)

theorem accounting_failingJob :
    failingJob.store.running = 2 ∧ started failingJob = [(0, 1), (1, 2), (2, 1)] := by
  have h : Reachable run allowed (create 2) failingJob :=
    .call 3 _ (.call 2 _ (.call 1 _ (.call 0 _ .init (by decide) trivial) (by decide) trivial)
      (by decide) trivial) (by decide) ⟨by decide, by decide⟩
  obtain ⟨hrunning, -, horder, -⟩ := accounting 2 failingJob h
  exact ⟨hrunning, horder⟩

end Dune.Fiber.Throttle
