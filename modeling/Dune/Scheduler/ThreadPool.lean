import Mathlib

/-!
# The thread pool

Between two points where a thread holds no mutex, the code of the pool is one step: a submission,
or a worker that runs from where it took the mutex to where it releases it. Creating a thread is
taken to succeed, tasks do not raise, and `Thread.join` of dead workers touches nothing of the pool.
`Condition.signal` wakes one of the waiting workers, whichever; a worker may also wake up without a
signal.
-/

open List

namespace Dune.Scheduler.ThreadPool

variable {α : Type}

/-- Where a worker is when it does not hold the mutex. -/
inductive Place (α : Type) where
  /-- Spawned, before `loop`. -/
  | starting
  /-- In `run_task`. -/
  | executing (task : α)
  /-- Blocked in `Condition.wait`. -/
  | waiting
  /-- In `Condition.wait`, woken up, before it has the mutex again. -/
  | signalled
deriving DecidableEq

structure Worker (α : Type) where
  thread : Nat
  place : Place α
deriving DecidableEq

def Worker.isWaiting (w : Worker α) : Bool :=
  match w.place with
  | .waiting => true
  | _ => false

def Worker.isIdle (w : Worker α) : Bool :=
  match w.place with
  | .waiting => true
  | .signalled => true
  | _ => false

def Worker.task? (w : Worker α) : Option α :=
  match w.place with
  | .executing task => some task
  | _ => none

/-- A pool, with the tasks that were taken from its queue and those that have ended. -/
structure Pool (α : Type) where
  tasks : List α
  minWorkers : Int
  maxWorkers : Int
  idle : Int
  running : Int
  dead : List Nat
  started : List α
  ended : List α

namespace Pool

/-- `loop`, run by a thread that holds the mutex: the place where it releases it, or nothing for a
worker that exits with `worker_finished_and_unlock`. -/
def loop (t : Pool α) (thread : Nat) : Pool α × Option (Place α) :=
  match t.tasks with
  | task :: tasks =>
    ({ t with tasks := tasks, started := t.started ++ [task] }, some (.executing task))
  | [] =>
    if t.running > t.minWorkers then
      ({ t with running := t.running - 1, dead := thread :: t.dead }, none)
    else ({ t with idle := t.idle + 1 }, some .waiting)

/-- What a worker does from its place on; a waiting worker stays blocked. -/
def resume (t : Pool α) (w : Worker α) : Pool α × Option (Place α) :=
  match w.place with
  | .starting => t.loop w.thread
  | .executing task => { t with ended := t.ended ++ [task] }.loop w.thread
  | .waiting => (t, some .waiting)
  | .signalled =>
    if t.tasks = [] then (t, some .waiting) else { t with idle := t.idle - 1 }.loop w.thread

def needsWorker (t : Pool α) : Bool := t.idle < t.tasks.length && t.running < t.maxWorkers

end Pool

/-- A pool with its workers and the number of threads spawned so far. -/
structure State (α : Type) where
  pool : Pool α
  workers : List (Worker α)
  threads : Nat

def spawnWorker (s : State α) : State α where
  pool := { s.pool with running := s.pool.running + 1 }
  workers := s.workers ++ [⟨s.threads, .starting⟩]
  threads := s.threads + 1

/-- `Condition.signal`, which wakes the waiting worker number `choice`, or the last one. -/
def signal : Nat → List (Worker α) → List (Worker α)
  | _, [] => []
  | choice, w :: workers =>
    if w.isWaiting then
      if choice = 0 ∨ workers.any Worker.isWaiting = false then
        { w with place := .signalled } :: workers
      else w :: signal (choice - 1) workers
    else w :: signal choice workers

def task (s : State α) (f : α) (choice : Nat) : State α :=
  let s := { s with pool := { s.pool with dead := [], tasks := s.pool.tasks ++ [f] } }
  let s := if s.pool.needsWorker then spawnWorker s else s
  { s with workers := signal choice s.workers }

def create (minWorkers maxWorkers : Int) : Except String (State α) :=
  if minWorkers < 0 ∨ maxWorkers ≤ 0 ∨ maxWorkers < minWorkers then
    .error "Thread_pool.create got invalid worker bounds"
  else
    .ok (spawnWorker^[minWorkers.toNat] ⟨⟨[], minWorkers, maxWorkers, 0, 0, [], [], []⟩, [], 0⟩)

inductive Event (α : Type) where
  /-- Some thread submits a task. -/
  | task (f : α) (choice : Nat)
  /-- The `i`th worker runs until it releases the mutex. -/
  | run (i : Nat)
  /-- The `i`th worker wakes up without a signal. -/
  | wakeUp (i : Nat)

/-- The workers with another one, or none, in the place of the `i`th. -/
def replace (workers : List (Worker α)) (i : Nat) (w : Option (Worker α)) : List (Worker α) :=
  workers.take i ++ w.toList ++ workers.drop (i + 1)

/-- What an event does; an event of a worker that does not exist does nothing. -/
def step (s : State α) : Event α → State α
  | .task f choice => task s f choice
  | .run i =>
    match s.workers[i]? with
    | none => s
    | some w =>
      let (pool, place) := s.pool.resume w
      { s with pool := pool, workers := replace s.workers i (place.map (Worker.mk w.thread)) }
  | .wakeUp i =>
    match s.workers[i]? with
    | none => s
    | some w =>
      if w.isWaiting then { s with workers := replace s.workers i (some ⟨w.thread, .signalled⟩) }
      else s

def submitted (es : List (Event α)) : List α :=
  es.filterMap fun
    | .task f _ => some f
    | _ => none

/-- What holds of a pool with these workers after `tasks` were submitted. -/
structure Base (lo hi : Int) (t : Pool α) (workers : List (Worker α)) (tasks : List α) : Prop where
  minWorkers : t.minWorkers = lo
  maxWorkers : t.maxWorkers = hi
  pos : 0 < hi
  atLeast : lo ≤ t.running
  atMost : t.running ≤ hi
  inOrder : t.started ++ t.tasks = tasks
  once : t.started.Perm (t.ended ++ workers.filterMap Worker.task?)
  count : t.running = workers.length
  idle : t.idle = workers.countP Worker.isIdle

/-- What holds when the mutex is free. -/
structure Inv (lo hi : Int) (t : Pool α) (workers : List (Worker α)) (tasks : List α) : Prop
    extends Base lo hi t workers tasks where
  awake : t.tasks ≠ [] → workers.any (!·.isWaiting) = true

attribute [local simp] Worker.task? Worker.isIdle Worker.isWaiting List.filterMap_cons
  List.countP_cons

variable {s : State α}

section
variable {lo hi : Int} {t : Pool α} {tasks : List α} {before after workers : List (Worker α)}
  {thread : Nat} {w : Worker α}

/-- A worker that starts `loop` keeps the invariant to where it releases the mutex. -/
theorem Base.loop (h : Base lo hi t (before ++ ⟨thread, .starting⟩ :: after) tasks) :
    Inv lo hi (t.loop thread).1
      (before ++ ((t.loop thread).2.map (Worker.mk thread)).toList ++ after) tasks := by
  obtain ⟨hlo, hhi, pos, atLeast, atMost, inOrder, once, count, idle⟩ := h
  simp at once count idle
  unfold Pool.loop
  split
  · next task rest htasks =>
    refine ⟨⟨hlo, hhi, pos, atLeast, atMost, ?_, ?_, by simpa using count, by simpa using idle⟩,
      by simp⟩
    · rw [← inOrder, htasks]; simp
    · refine (once.append_right [task]).trans ?_
      simp only [append_assoc, filterMap_append, Option.map_some, Option.toList_some,
        singleton_append, filterMap_cons, Worker.task?]
      exact ((perm_append_singleton ..).append_left _).append_left _
  · next htasks =>
    split
    · exact ⟨⟨hlo, hhi, pos, by simp; omega, by simp; omega, inOrder, by simpa using once,
        by simp; omega, by simpa using idle⟩, fun hne => absurd htasks hne⟩
    · exact ⟨⟨hlo, hhi, pos, atLeast, atMost, inOrder, by simpa using once, by simpa using count,
        by simp; omega⟩, fun hne => absurd htasks hne⟩

theorem Inv.resume (h : Inv lo hi t (before ++ w :: after) tasks) :
    Inv lo hi (t.resume w).1 (before ++ ((t.resume w).2.map (Worker.mk w.thread)).toList ++ after)
      tasks := by
  obtain ⟨thread, place⟩ := w
  have hidle := h.idle
  cases place with
  | starting => exact h.loop
  | executing task =>
    refine Base.loop { h with once := h.once.trans ?_, count := ?_, idle := ?_ }
    · simp only [append_assoc, perm_append_left_iff, filterMap_append]
      exact perm_middle
    · simpa using h.count
    · simpa using hidle
  | waiting => simpa [Pool.resume] using h
  | signalled =>
    by_cases hempty : t.tasks = []
    · simp only [Pool.resume, if_pos hempty]
      exact { h with once := by simpa using h.once, count := by simpa using h.count,
                     idle := by simpa using hidle, awake := fun hne => absurd hempty hne }
    · simp only [Pool.resume, if_neg hempty]
      refine Base.loop { h with once := by simpa using h.once, count := by simpa using h.count,
                                idle := ?_ }
      simp at hidle ⊢
      omega

theorem Base.wake (h : Base lo hi t (before ++ ⟨thread, .waiting⟩ :: after) tasks) :
    Inv lo hi t (before ++ ⟨thread, .signalled⟩ :: after) tasks where
  toBase := { h with once := by simpa using h.once, count := by simpa using h.count,
                     idle := by simpa using h.idle }
  awake := by simp

/-- A signal wakes a worker, unless none is waiting. -/
theorem signal_cases (choice : Nat) (workers : List (Worker α)) :
    (signal choice workers = workers ∧ workers.any Worker.isWaiting = false) ∨
      ∃ before thread after, workers = before ++ ⟨thread, .waiting⟩ :: after ∧
        signal choice workers = before ++ ⟨thread, .signalled⟩ :: after := by
  induction workers generalizing choice with
  | nil => exact .inl ⟨rfl, rfl⟩
  | cons w workers ih =>
    obtain ⟨thread, place⟩ := w
    rw [signal]
    split
    · next hw =>
      obtain rfl : place = .waiting := by cases place <;> simp_all
      split
      · exact .inr ⟨[], thread, workers, rfl, rfl⟩
      · next hrest =>
        rcases ih (choice - 1) with ⟨-, hnone⟩ | ⟨before, thread', after, rfl, hsignal⟩
        · exact absurd (.inr hnone) hrest
        · exact .inr ⟨_ :: before, thread', after, rfl, by rw [hsignal]; rfl⟩
    · next hw =>
      rcases ih choice with ⟨hsignal, hnone⟩ | ⟨before, thread', after, rfl, hsignal⟩
      · exact .inl ⟨by rw [hsignal], by rw [any_cons, Bool.eq_false_iff.mpr hw, hnone]; rfl⟩
      · exact .inr ⟨_ :: before, thread', after, rfl, by rw [hsignal]; rfl⟩

/-- After a signal the invariant holds if some worker is there to be woken up or to run. -/
theorem Base.signal (h : Base lo hi t workers tasks) (hne : workers ≠ []) (choice : Nat) :
    Inv lo hi t (signal choice workers) tasks := by
  rcases signal_cases choice workers with ⟨hsignal, hnone⟩ | ⟨before, thread, after, rfl, hsignal⟩
  · rw [hsignal]
    obtain ⟨w, workers, rfl⟩ := exists_cons_of_ne_nil hne
    simp only [any_cons, Bool.or_eq_false_iff] at hnone
    exact ⟨h, fun _ => by simp only [any_cons, hnone.1]; rfl⟩
  · rw [hsignal]
    exact h.wake

theorem Base.spawnWorker {s : State α} (h : Base lo hi s.pool s.workers tasks)
    (hlt : s.pool.running < hi) :
    Base lo hi (spawnWorker s).pool (spawnWorker s).workers tasks where
  minWorkers := h.minWorkers
  maxWorkers := h.maxWorkers
  pos := h.pos
  atLeast := Int.le_add_one h.atLeast
  atMost := hlt
  inOrder := h.inOrder
  once := by simpa [ThreadPool.spawnWorker] using h.once
  count := by simpa [ThreadPool.spawnWorker] using h.count
  idle := by simpa [ThreadPool.spawnWorker] using h.idle

theorem Inv.task {s : State α} (h : Inv lo hi s.pool s.workers tasks) (f : α) (choice : Nat) :
    Inv lo hi (task s f choice).pool (task s f choice).workers (tasks ++ [f]) := by
  have hpush : Base lo hi { s.pool with dead := [], tasks := s.pool.tasks ++ [f] } s.workers
      (tasks ++ [f]) :=
    { h with inOrder := by rw [← h.inOrder, append_assoc] }
  have hmax := h.maxWorkers
  unfold ThreadPool.task
  dsimp only
  split
  · next hneeds =>
    have hlt : s.pool.running < hi := by simp [Pool.needsWorker] at hneeds; omega
    exact (Base.spawnWorker (s := ⟨_, _, s.threads⟩) hpush hlt).signal
      (by simp [ThreadPool.spawnWorker]) choice
  · next hneeds =>
    refine hpush.signal ?_ choice
    -- without workers the task would have needed one
    intro hempty
    have hcount := h.count
    have hidle := h.idle
    simp only [hempty, length_nil, countP_nil] at hcount hidle
    simp [Pool.needsWorker, hcount, hidle, hmax, h.pos] at hneeds

theorem replace_of_getElem? {i : Nat} (h : workers[i]? = some w) (w' : Option (Worker α)) :
    workers = workers.take i ++ w :: workers.drop (i + 1) ∧
      replace workers i w' = workers.take i ++ w'.toList ++ workers.drop (i + 1) := by
  obtain ⟨hi, rfl⟩ := List.getElem?_eq_some_iff.mp h
  exact ⟨by simp, rfl⟩

theorem Inv.step {s : State α} (h : Inv lo hi s.pool s.workers tasks) (e : Event α) :
    Inv lo hi (step s e).pool (step s e).workers (tasks ++ submitted [e]) := by
  cases e with
  | task f choice => exact h.task f choice
  | run i =>
    rw [show submitted [Event.run i] = ([] : List α) from rfl, append_nil]
    cases hw : s.workers[i]? with
    | none => simpa [ThreadPool.step, hw] using h
    | some w =>
      simp only [ThreadPool.step, hw]
      rw [(replace_of_getElem? hw none).1] at h
      exact h.resume
  | wakeUp i =>
    rw [show submitted [Event.wakeUp i] = ([] : List α) from rfl, append_nil]
    cases hw : s.workers[i]? with
    | none => simpa [ThreadPool.step, hw] using h
    | some w =>
      simp only [ThreadPool.step, hw]
      split
      · next hwait =>
        obtain ⟨thread, place⟩ := w
        obtain rfl : place = .waiting := by cases place <;> simp_all
        rw [(replace_of_getElem? hw none).1] at h
        simpa [replace] using h.toBase.wake
      · exact h

theorem Inv.run (h : Inv lo hi s.pool s.workers tasks) (es : List (Event α)) :
    Inv lo hi (es.foldl ThreadPool.step s).pool (es.foldl ThreadPool.step s).workers
      (tasks ++ submitted es) := by
  induction es generalizing s tasks with
  | nil => simpa [submitted] using h
  | cons e es ih =>
    have hes := ih (h.step e)
    rw [append_assoc] at hes
    rwa [show submitted (e :: es) = submitted [e] ++ submitted es by
      simp only [submitted, ← filterMap_append]; rfl]

theorem spawnWorkers (t : Pool α) (n : Nat) : let s : State α := spawnWorker^[n] ⟨t, [], 0⟩
    s.pool = { t with running := t.running + n } ∧ s.workers.length = n ∧
      s.workers.filterMap Worker.task? = [] ∧ s.workers.countP Worker.isIdle = 0 := by
  induction n with
  | zero => simp
  | succ n ih =>
    simp only [Function.iterate_succ_apply', spawnWorker]
    obtain ⟨hpool, hlen, htask, hidle⟩ := ih
    simp [hpool, hlen, htask, hidle, Int.add_assoc]

theorem inv_create (h : create lo hi = .ok s) : Inv lo hi s.pool s.workers [] := by
  unfold create at h
  split at h
  · cases h
  · next hbounds =>
    simp only [not_or, Int.not_lt, Int.not_le] at hbounds
    cases h
    obtain ⟨hpool, hlen, htask, hidle⟩ :=
      spawnWorkers (⟨[], lo, hi, 0, 0, [], [], []⟩ : Pool α) lo.toNat
    rw [hpool]
    refine ⟨⟨rfl, rfl, hbounds.2.1, ?_, ?_, rfl, ?_, ?_, ?_⟩, fun hne => absurd rfl hne⟩
    · simp
    · simp; omega
    · rw [htask]; rfl
    · simp [hlen]
    · simp [hidle]

end

def Ready (s : State α) (i : Nat) : Prop := ∃ w, s.workers[i]? = some w ∧ w.isWaiting = false

/-- While a task is queued, some worker is not blocked, and whichever such worker runs next takes
the task at the head of the queue. -/
theorem head_started {lo hi : Int} {tasks rest : List α} {f : α}
    (h : Inv lo hi s.pool s.workers tasks) (hf : s.pool.tasks = f :: rest) :
    (∃ i, Ready s i) ∧
      ∀ i, Ready s i →
        (step s (.run i)).pool.started = s.pool.started ++ [f] ∧
        (step s (.run i)).pool.tasks = rest := by
  constructor
  · obtain ⟨w, hmem, hw⟩ := any_eq_true.mp (h.awake (by simp [hf]))
    obtain ⟨i, hi⟩ := mem_iff_getElem?.mp hmem
    exact ⟨i, w, hi, by simpa using hw⟩
  · rintro i ⟨⟨thread, place⟩, hi, hw⟩
    simp only [step, hi]
    cases place with
    | waiting => cases hw
    | starting | executing task | signalled => simp [Pool.resume, Pool.loop, hf]

/-- Every task that is submitted is executed once: the tasks taken from the queue and those still
in it are the submitted ones in their order, and the tasks taken are those that ended and those that
a worker executes. A queued task is always taken next by a worker that is not blocked. The number of
workers keeps its bounds, and `idle` counts the workers in `wait_for_task`. -/
theorem runs_every_task_once {minWorkers maxWorkers : Int} {s₀ : State α}
    (hcreate : create minWorkers maxWorkers = .ok s₀) (es : List (Event α)) :
    let s := es.foldl step s₀
    s.pool.started ++ s.pool.tasks = submitted es ∧
    s.pool.started.Perm (s.pool.ended ++ s.workers.filterMap Worker.task?) ∧
    (∀ f rest, s.pool.tasks = f :: rest →
      (∃ i, Ready s i) ∧
      ∀ i, Ready s i →
        (step s (.run i)).pool.started = s.pool.started ++ [f] ∧
        (step s (.run i)).pool.tasks = rest) ∧
    s.pool.running = s.workers.length ∧
    minWorkers ≤ s.workers.length ∧ s.workers.length ≤ maxWorkers ∧
    s.pool.idle = s.workers.countP Worker.isIdle := by
  have h := (inv_create hcreate).run es
  exact ⟨h.inOrder, h.once, fun f rest hf => head_started h hf, h.count, h.count ▸ h.atLeast,
    h.count ▸ h.atMost, h.idle⟩

/-- One worker at most, none to begin with, and two tasks of which the first one has ended. -/
theorem runs_every_task_once_two : ∃ s₀ : State Nat, create 0 1 = .ok s₀ ∧
    let s := [.task 1 0, .task 2 0, .run 0, .run 0].foldl step s₀
    s.pool.started ++ s.pool.tasks = [1, 2] ∧ s.pool.ended = [1] := by
  have h : create 0 1 = .ok (⟨⟨[], 0, 1, 0, 0, [], [], []⟩, [], 0⟩ : State Nat) := rfl
  exact ⟨_, h, (runs_every_task_once h _).1, rfl⟩

end Dune.Scheduler.ThreadPool
