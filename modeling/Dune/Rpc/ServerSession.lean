import Dune.Fiber.Ivars
import Dune.Stdune.Loc

/-!
# Requests of a server to its client

`Server.Session.Stage1`: a server registers the requests that it sends to a client in a table, with
an ivar each. A response fills the ivar of its request. Closing the session runs a finalizer, which
takes all ivars out of the table and then fills them in parallel, while responses and requests go
on; fibers that close the session meanwhile wait for it.

A fiber runs without interruption between the points where it can be suspended; each event below is
such a stretch of one fiber, and any sequence of them is a run. An event of a fiber that is not
there changes nothing. The other parts of the finalizer (closing the channel, `on_terminate`, the
pollers) do not touch this state; the finalizer ends when they have ended, if they do.
-/

namespace Dune.Rpc.Server

open List Stdune Dune.Fiber

variable {Id R : Type} [DecidableEq Id]

inductive CloseState where
  | opened
  | closing
  | closed
deriving DecidableEq, Repr

inductive PendingResponse (R : Type) where
  | response (r : R)
  | closed
deriving DecidableEq, Repr

/-- `Stage1.t` and the fibers that close it. -/
structure Stage1 (Id R : Type) where
  closeState : CloseState
  pending : List (Id × Nat)
  poolOpen : Bool
  /-- The number of ivars that have been created. -/
  created : Nat
  /-- The ivars that are full. -/
  ivars : List (Nat × PendingResponse R)
  /-- The fibers that are going to run the finalizer. -/
  due : Nat
  /-- The ivars that `close_pending_requests` has taken and not filled. -/
  draining : List Nat
  /-- The finalizers that run. -/
  finalizing : Nat
  /-- How often the finalizer has been called. -/
  finalizerRuns : Nat
  /-- How often an ivar was filled that was full. -/
  fillErrors : Nat

namespace Stage1

def create : Stage1 Id R where
  closeState := .opened
  pending := []
  poolOpen := true
  created := 0
  ivars := []
  due := 0
  draining := []
  finalizing := 0
  finalizerRuns := 0
  fillErrors := 0

section

variable (t : Stage1 Id R)

/-- `Fiber.Ivar.fill`, which raises if the ivar is full. -/
def fill (k : Nat) (x : PendingResponse R) : Stage1 Id R :=
  if k ∈ t.ivars.map Prod.fst then { t with fillErrors := t.fillErrors + 1 }
  else { t with ivars := (k, x) :: t.ivars }

/-- `Close.close`, up to the call of the finalizer. -/
def close : Stage1 Id R :=
  match t.closeState with
  | .closing => t
  | .closed => t
  | .opened => { t with closeState := .closing, due := t.due + 1 }

inductive Requested where
  | full
  | ivar (k : Nat)
  | raised (e : Exn)

/-- `Stage1.request`; the packet is written by another fiber. -/
def request (t : Stage1 Id R) (id : Id) : Stage1 Id R × Requested :=
  match t.closeState with
  | .closing => (t, .full)
  | .closed => (t, .full)
  | .opened =>
    match Table.find t.pending id with
    | some _ => (t, .raised (.codeError "request with this id is already pending"))
    | none =>
      let t' := { t with pending := (id, t.created) :: t.pending, created := t.created + 1 }
      if t.poolOpen then (t', .ivar t.created)
      else (t', .raised (.codeError "pool is closed. new tasks may not be submitted"))

def response (id : Id) (r : R) : Stage1 Id R :=
  match Table.find t.pending id with
  | none =>
    match t.closeState with
    | .closing => t
    | .closed => t
    | .opened => t.close
  | some k => fill { t with pending := Table.remove t.pending id } k (.response r)

/-- The finalizer up to where its parts run in parallel: `close_pending_requests` takes the ivars.
-/
def finalizer : Stage1 Id R :=
  { t with
    due := t.due - 1
    finalizing := t.finalizing + 1
    finalizerRuns := t.finalizerRuns + 1
    draining := t.pending.map Prod.snd ++ t.draining
    pending := [] }

/-- One of the parallel fibers of `close_pending_requests`. -/
def fillClosed (k : Nat) : Stage1 Id R :=
  fill { t with draining := t.draining.erase k } k .closed

/-- The `finally` of `Close.close`. -/
def finish : Stage1 Id R :=
  { t with finalizing := t.finalizing - 1, closeState := .closed }

/-- What a fiber does without interruption. -/
inductive Event (Id R : Type) where
  | request (id : Id)
  | response (id : Id) (r : R)
  | close
  | closePool
  | finalizer
  | fillClosed (k : Nat)
  | finish

def step : Event Id R → Stage1 Id R
  | .request id => (t.request id).1
  | .response id r => t.response id r
  | .close => t.close
  | .closePool => { t with poolOpen := false }
  | .finalizer => if 0 < t.due then t.finalizer else t
  | .fillClosed k => if k ∈ t.draining then t.fillClosed k else t
  | .finish => if 0 < t.finalizing ∧ t.draining = [] then t.finish else t

def run (es : List (Event Id R)) : Stage1 Id R := es.foldl step create

/-! ## What a step does -/

def tickets : Ivars Nat (PendingResponse R) where
  created := (List.range t.created).reverse
  waiting := t.pending.map Prod.snd
  taken := t.draining
  filled := t.ivars

end

/-- How far the closing of the session is. -/
inductive Phase (t : Stage1 Id R) : Prop
  | opened (hstate : t.closeState = .opened) (hdue : t.due = 0) (hfinalizing : t.finalizing = 0)
      (hruns : t.finalizerRuns = 0) (hdraining : t.draining = [])
  | due (hstate : t.closeState = .closing) (hdue : t.due = 1) (hfinalizing : t.finalizing = 0)
      (hruns : t.finalizerRuns = 0) (hdraining : t.draining = [])
  | finalizing (hstate : t.closeState = .closing) (hdue : t.due = 0)
      (hfinalizing : t.finalizing = 1)
      (hruns : t.finalizerRuns = 1) (hpending : t.pending = [])
  | closed (hstate : t.closeState = .closed) (hdue : t.due = 0) (hfinalizing : t.finalizing = 0)
      (hruns : t.finalizerRuns = 1) (hdraining : t.draining = []) (hpending : t.pending = [])

/-- What every step keeps: ivars are accounted for and the session is closed once. -/
structure Invariant (t : Stage1 Id R) : Prop where
  accounted : t.tickets.Accounted
  phase : t.Phase
  fillErrors : t.fillErrors = 0

inductive Stepped (t : Stage1 Id R) : Event Id R → Stage1 Id R → Prop
  | same (e : Event Id R) : Stepped t e t
  | closePool : Stepped t .closePool { t with poolOpen := false }
  | register {id : Id} (hopen : t.closeState = .opened) : Stepped t (.request id)
      { t with pending := (id, t.created) :: t.pending, created := t.created + 1 }
  | respond {id : Id} {r : R} {k : Nat} (hfind : Table.find t.pending id = some k) :
      Stepped t (.response id r) { t with
        pending := Table.remove t.pending id
        ivars := (k, .response r) :: t.ivars }
  | begin (e : Event Id R) (hopen : t.closeState = .opened) :
      Stepped t e { t with closeState := .closing, due := t.due + 1 }
  | finalizer (hdue : 0 < t.due) : Stepped t .finalizer t.finalizer
  | fillClosed {k : Nat} (hk : k ∈ t.draining) : Stepped t (.fillClosed k)
      { t with draining := t.draining.erase k, ivars := (k, .closed) :: t.ivars }
  | finish (hfinalizing : 0 < t.finalizing) (hdraining : t.draining = []) :
      Stepped t .finish t.finish

variable {t : Stage1 Id R} {k : Nat}

omit [DecidableEq Id] in
theorem fill_of_empty (h : k ∉ t.ivars.map Prod.fst) (x : PendingResponse R) :
    t.fill k x = { t with ivars := (k, x) :: t.ivars } := if_neg h

theorem close_stepped (t : Stage1 Id R) (e : Event Id R) : Stepped t e t.close := by
  rw [close]
  split
  next => exact .same e
  next => exact .same e
  next h => exact .begin e h

theorem mem_pending_of_find {id : Id} (h : Table.find t.pending id = some k) :
    k ∈ t.tickets.waiting :=
  mem_map.mpr ⟨(id, k), (Table.perm_remove h).mem_iff.mpr mem_cons_self, rfl⟩

/-- The inversion of a step. An ivar that is to be filled is empty. -/
theorem stepped (h : t.tickets.Accounted) (e : Event Id R) : Stepped t e (t.step e) := by
  cases e with
  | request id =>
    rw [step, request]
    split
    next => exact .same _
    next => exact .same _
    next hopen =>
      repeat' split
      · exact .same _
      · exact .register hopen
      · exact .register hopen
  | response id r =>
    rw [step, response]
    split
    next =>
      split
      next => exact .same _
      next => exact .same _
      next => exact close_stepped t _
    next k hfind =>
      rw [fill_of_empty]
      · exact .respond hfind
      · exact h.not_filled_of_waiting (mem_pending_of_find hfind)
  | close => exact close_stepped t _
  | closePool => exact .closePool
  | finalizer =>
    rw [step]
    split
    next hdue => exact .finalizer hdue
    next => exact .same _
  | fillClosed k =>
    rw [step]
    split
    next hk =>
      rw [Stage1.fillClosed, fill_of_empty]
      · exact .fillClosed hk
      · exact h.not_filled_of_taken hk
    next => exact .same _
  | finish =>
    rw [step]
    split
    next hfinish => exact .finish hfinish.1 hfinish.2
    next => exact .same _

section
variable {t t' : Stage1 Id R} {e : Event Id R}

section

variable (h : Stepped t e t')
include h

theorem Stepped.move : Ivars.Move t.tickets t'.tickets := by
  cases h with
  | same | closePool => exact .refl _
  | register _ =>
    have hmove := Ivars.Move.create (t := t.tickets) (k := t.created) (by simp [tickets])
    simpa [tickets, range_succ] using hmove
  | respond hfind => exact .fillWaiting ((Table.perm_remove hfind).map Prod.snd) _
  | begin => exact .refl _
  | finalizer _ => exact .take _
  | fillClosed hk => exact .fillTaken (perm_cons_erase hk) _
  | finish _ _ => exact .refl _

theorem Stepped.phase (hphase : t.Phase) : t'.Phase := by
  cases h with
  | same => exact hphase
  | closePool =>
    cases hphase with
    | opened hstate hdue hfin hruns hdrain => exact .opened hstate hdue hfin hruns hdrain
    | due hstate hdue hfin hruns hdrain => exact .due hstate hdue hfin hruns hdrain
    | finalizing hstate hdue hfin hruns hpend => exact .finalizing hstate hdue hfin hruns hpend
    | closed hstate hdue hfin hruns hdrain hpend =>
      exact .closed hstate hdue hfin hruns hdrain hpend
  | register hopen =>
    cases hphase with
    | opened hstate hdue hfin hruns hdrain => exact .opened hstate hdue hfin hruns hdrain
    | due hstate | finalizing hstate | closed hstate => cases hopen.symm.trans hstate
  | respond hfind =>
    cases hphase with
    | opened hstate hdue hfin hruns hdrain => exact .opened hstate hdue hfin hruns hdrain
    | due hstate hdue hfin hruns hdrain => exact .due hstate hdue hfin hruns hdrain
    | finalizing _ _ _ _ hpend | closed _ _ _ _ _ hpend =>
      rw [hpend] at hfind
      cases hfind
  | begin _ hopen =>
    cases hphase with
    | opened hstate hdue hfin hruns hdrain =>
      exact .due rfl (congrArg (· + 1) hdue) hfin hruns hdrain
    | due hstate | finalizing hstate | closed hstate => cases hopen.symm.trans hstate
  | finalizer hpos =>
    cases hphase with
    | due hstate hdue hfin hruns hdrain =>
      exact .finalizing hstate (congrArg (· - 1) hdue) (congrArg (· + 1) hfin)
        (congrArg (· + 1) hruns) rfl
    | opened _ hdue | finalizing _ hdue | closed _ hdue => omega
  | @fillClosed k hk =>
    cases hphase with
    | finalizing hstate hdue hfin hruns hpend => exact .finalizing hstate hdue hfin hruns hpend
    | opened _ _ _ _ hdrain | due _ _ _ _ hdrain | closed _ _ _ _ hdrain =>
      rw [hdrain] at hk
      cases hk
  | finish hpos hdrain =>
    cases hphase with
    | finalizing hstate hdue hfin hruns hpend =>
      exact .closed rfl hdue (congrArg (· - 1) hfin) hruns hdrain hpend
    | opened _ _ hfin | due _ _ hfin | closed _ _ hfin => omega

theorem Stepped.fillErrors : t'.fillErrors = t.fillErrors := by
  cases h <;> rfl

end

theorem Invariant.step (h : t.Invariant) (e : Event Id R) : (t.step e).Invariant :=
  have hstep := stepped h.accounted e
  ⟨h.accounted.move hstep.move, hstep.phase h.phase, hstep.fillErrors.trans h.fillErrors⟩

end

theorem run_concat (es : List (Event Id R)) (e : Event Id R) :
    run (es ++ [e]) = (run es).step e := by
  rw [run, run, foldl_append]
  rfl

theorem invariant_run (es : List (Event Id R)) : (run es).Invariant := by
  induction es using List.reverseRecOn with
  | nil => exact ⟨Ivars.accounted_init, .opened rfl rfl rfl rfl rfl, rfl⟩
  | append_singleton es e ih =>
    rw [run_concat]
    exact ih.step e

/-! ## Runs -/

section
variable {t t' : Stage1 Id R} {e : Event Id R}

theorem Stepped.closing (h : Stepped t e t') (hstate : t.closeState ≠ .opened) :
    t'.closeState ≠ .opened ∧ t'.created = t.created := by
  cases h with
  | same | closePool | respond _ | finalizer _ | fillClosed _ => exact ⟨hstate, rfl⟩
  | register hopen | begin _ hopen => exact absurd hopen hstate
  | finish _ _ => exact ⟨fun h => (by cases h), rfl⟩

variable {es : List (Event Id R)}

/-- No request is registered after closing has begun. -/
theorem created_append (h : (run es).closeState ≠ .opened) (es' : List (Event Id R)) :
    (run (es ++ es')).closeState ≠ .opened ∧ (run (es ++ es')).created = (run es).created := by
  induction es' using List.reverseRecOn with
  | nil =>
    rw [append_nil]
    exact ⟨h, rfl⟩
  | append_singleton es' e ih =>
    obtain ⟨hstate, hcreated⟩ := (stepped (invariant_run (es ++ es')).accounted e).closing ih.1
    rw [← append_assoc, run_concat]
    exact ⟨hstate, hcreated.trans ih.2⟩

/-- What fills an ivar: a response to the request that is registered with it, or closing. -/
theorem Stepped.ivars (h : Stepped t e t') {x : PendingResponse R} (hx : (k, x) ∈ t'.ivars) :
    (k, x) ∈ t.ivars ∨
      (∃ id r, x = .response r ∧ e = .response id r ∧ Table.find t.pending id = some k) ∨
      (x = .closed ∧ k ∈ t.draining)  := by
  cases h with
  | @respond id r k' hfind =>
    rcases mem_cons.mp hx with heq | hx
    · cases heq
      exact .inr (.inl ⟨id, r, rfl, rfl, hfind⟩)
    · exact .inl hx
  | fillClosed hk =>
    rcases mem_cons.mp hx with heq | hx
    · cases heq
      exact .inr (.inr ⟨rfl, hk⟩)
    · exact .inl hx
  | same | closePool | register _ | begin | finalizer _ | finish _ _ => exact .inl hx

/-- The outcome of a request is a response to it that came while it was pending, or that the session
has been closing. -/
theorem outcome_of_filled {x : PendingResponse R} (h : (k, x) ∈ (run es).ivars) :
    (∃ es₁ es₂ id r, x = .response r ∧ es = es₁ ++ .response id r :: es₂ ∧
        Table.find (run es₁).pending id = some k) ∨
      x = .closed ∧ (run es).closeState ≠ .opened := by
  induction es using List.reverseRecOn with
  | nil => cases h
  | append_singleton es e ih =>
    have hinv := invariant_run es
    have hstep := stepped hinv.accounted e
    rw [run_concat] at h
    rcases hstep.ivars h with hold | ⟨id, r, hx, rfl, hfind⟩ | ⟨hx, hk⟩
    · rcases ih hold with ⟨es₁, es₂, id, r, hx, rfl, hfind⟩ | ⟨hx, hstate⟩
      · exact .inl ⟨es₁, es₂ ++ [e], id, r, hx, by simp, hfind⟩
      · exact .inr ⟨hx, (created_append hstate [e]).1⟩
    · exact .inl ⟨es, [], id, r, hx, rfl, hfind⟩
    · refine .inr ⟨hx, (created_append ?_ [e]).1⟩
      intro hstate
      cases hinv.phase with
      | opened _ _ _ _ hdrain =>
        rw [hdrain] at hk
        cases hk
      | due hclosing | finalizing hclosing => cases hstate.symm.trans hclosing
      | closed hclosed => cases hstate.symm.trans hclosed

/-- The events of the fibers that close the session. -/
def Event.closing : Event Id R → Prop
  | .finalizer => True
  | .fillClosed _ => True
  | .finish => True
  | _ => False

theorem exists_drained (es : List (Event Id R)) (hstate : (run es).closeState = .closing)
    (hdue : (run es).due = 0) :
    ∃ es', (∀ e ∈ es', e.closing) ∧ (run (es ++ es')).closeState = .closed := by
  induction hn : (run es).draining.length generalizing es with
  | zero =>
    have hdrain := length_eq_zero_iff.mp hn
    refine ⟨[.finish], by simp [Event.closing], ?_⟩
    cases (invariant_run es).phase with
    | finalizing _ _ hfin =>
      rw [run_concat, step, if_pos ⟨by omega, hdrain⟩]
      rfl
    | opened hopen => cases hstate.symm.trans hopen
    | due _ hone => omega
    | closed hclosed => cases hstate.symm.trans hclosed
  | succ n ih =>
    obtain ⟨k, rest, hdrain⟩ := exists_of_length_succ _ hn
    have hk : k ∈ (run es).draining := hdrain ▸ mem_cons_self
    have hempty : k ∉ (run es).ivars.map Prod.fst :=
      (invariant_run es).accounted.not_filled_of_taken hk
    have hrun : run (es ++ [.fillClosed k]) = { run es with
        draining := (run es).draining.erase k, ivars := (k, .closed) :: (run es).ivars } := by
      rw [run_concat, step, if_pos hk, Stage1.fillClosed, fill_of_empty]
      exact hempty
    obtain ⟨es', hes', hclosed⟩ := ih (es ++ [.fillClosed k]) (by rw [hrun]; exact hstate)
      (by rw [hrun]; exact hdue) (by rw [hrun]; simp [length_erase_of_mem hk, hn])
    rw [append_assoc] at hclosed
    exact ⟨.fillClosed k :: es', by simpa [Event.closing] using hes', hclosed⟩

/-- The fibers that close a session can always go on until it is closed. -/
theorem exists_closed (es : List (Event Id R)) (h : (run es).closeState ≠ .opened) :
    ∃ es', (∀ e ∈ es', e.closing) ∧ (run (es ++ es')).closeState = .closed := by
  cases (invariant_run es).phase with
  | opened hopen => exact absurd hopen h
  | due hstate hdue =>
    have hrun : run (es ++ [.finalizer]) = (run es).finalizer := by
      rw [run_concat, step, if_pos (by omega)]
    obtain ⟨es', hes', hclosed⟩ := exists_drained (es ++ [.finalizer]) (by rw [hrun]; exact hstate)
      (by rw [hrun]; exact congrArg (· - 1) hdue)
    rw [append_assoc] at hclosed
    exact ⟨.finalizer :: es', by simpa [Event.closing] using hes', hclosed⟩
  | finalizing hstate hdue => exact exists_drained es hstate hdue
  | closed hclosed => exact ⟨[], by simp, by rw [append_nil]; exact hclosed⟩

end

end Stage1

end Dune.Rpc.Server
