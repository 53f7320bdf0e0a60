import Dune.Fiber.Links

/-!
# Cancellations

`src/fiber/src/cancel.ml`: `with_handler` puts a handler into the list of a cancellation, executes
its body, and forks a fiber that waits for an ivar. The ivar is filled when the cancellation is
fired, and the fiber then calls `on_cancel`, or when the body returns, which takes the handler out
of the list.

A body that raises leaves its handler in the list and the fiber waiting. The handlers are those of
the bodies that run, and no fiber waits in vain, iff no body has raised before the cancellation was
fired (`well_bracketed_iff`).
-/

open List

namespace Dune.Fiber.Cancel

variable {K : Type}

/-- What the ivar of a handler is filled with. -/
inductive Outcome
  | cancelled
  | notCancelled
  deriving DecidableEq

/-- The fiber of a function that was passed to `with_handler`. -/
inductive Branch
  | running
  | returned
  | raised
  deriving DecidableEq

/-- The fiber that waits for the ivar. -/
inductive Waiter
  | waiting
  /-- It has called `on_cancel`. -/
  | handling (onCancel : Branch)
  | returned
  deriving DecidableEq

structure Call where
  /-- Whether the call has put a handler into the list. -/
  hasHandler : Bool
  ivar : Option Outcome
  body : Branch
  waiter : Waiter
  deriving DecidableEq

/-- A cancellation with the calls of `with_handler`, the last one first. -/
structure State (K : Type) where
  /-- Whether the state is `Cancelled`. -/
  fired : Bool
  /-- The list of the handlers. A handler is named like its call. -/
  handlers : Links K
  calls : List K
  call : K → Call
  /-- The calls whose bodies ran when the cancellation was fired. -/
  interrupted : List K
  /-- The calls whose bodies raised before the cancellation was fired. -/
  abandoned : List K

def create (call : K → Call) : State K where
  fired := false
  handlers := .empty
  calls := []
  call := call
  interrupted := []
  abandoned := []

section Operations

variable [DecidableEq K]

def State.setCall (k : K) (c : Call) (s : State K) : State K :=
  { s with call := Function.update s.call k c }

/-- `Ivar.fill` fails if the ivar is full. -/
def fill (k : K) (o : Outcome) (s : State K) : Option (State K) :=
  match (s.call k).ivar with
  | some _ => none
  | none => some (s.setCall k { s.call k with ivar := some o })

/-- The fibers of the body and of the handler are forked. On a cancellation that has been fired,
`on_cancel` is called at once. -/
def withHandler (k : K) (s : State K) : State K :=
  if s.fired then
    State.setCall k ⟨false, none, .running, .handling .running⟩ { s with calls := k :: s.calls }
  else
    State.setCall k ⟨true, none, .running, .waiting⟩
      { s with handlers := s.handlers.push k, calls := k :: s.calls }

/-- The rest of the first fiber of `with_handler`, after its body has returned. -/
def bodyReturns (k : K) (s : State K) : Option (State K) :=
  let s := s.setCall k { s.call k with body := .returned }
  if s.fired then some s else fill k .notCancelled { s with handlers := s.handlers.unlink k }

/-- An exception goes to the error handler of the fiber, which does not know the cancellation. -/
def bodyRaises (k : K) (s : State K) : State K :=
  let s := s.setCall k { s.call k with body := .raised }
  if s.fired then s else { s with abandoned := k :: s.abandoned }

/-- The second fiber of `with_handler`, after its ivar has been filled. -/
def wake (k : K) (o : Outcome) (s : State K) : State K :=
  match o with
  | .cancelled => s.setCall k { s.call k with waiter := .handling .running }
  | .notCancelled => s.setCall k { s.call k with waiter := .returned }

def handled (k : K) (onCancel : Branch) (s : State K) : State K :=
  s.setCall k { s.call k with waiter := .handling onCancel }

def invokeHandlers : List K → State K → Option (State K)
  | [], s => some s
  | k :: ks, s => (fill k .cancelled s).bind (invokeHandlers ks)

/-- The handlers are visited from the first one on. -/
def fire (s : State K) : Option (State K) :=
  if s.fired then some s
  else
    invokeHandlers (s.handlers.walk s.calls.length s.handlers.head)
      { s with fired := true, interrupted := s.calls.filter fun k => (s.call k).body = .running }

inductive Step (s : State K) : State K → Prop
  | withHandler {k} : k ∉ s.calls → Step s (withHandler k s)
  | bodyReturns {k s'} : k ∈ s.calls → (s.call k).body = .running →
      bodyReturns k s = some s' → Step s s'
  | bodyRaises {k} : k ∈ s.calls → (s.call k).body = .running → Step s (bodyRaises k s)
  | wake {k o} : k ∈ s.calls → (s.call k).waiter = .waiting → (s.call k).ivar = some o →
      Step s (wake k o s)
  | handled {k onCancel} : k ∈ s.calls → (s.call k).waiter = .handling .running →
      Step s (handled k onCancel s)
  | fire {s'} : fire s = some s' → Step s s'

/-- The states of a cancellation in all programs. -/
inductive Reachable : State K → Prop
  | create (call : K → Call) : Reachable (create call)
  | step {s s'} : Reachable s → Step s s' → Reachable s'

end Operations

/-- The second fiber has called `on_cancel`, or is about to. -/
def Call.Cancels (c : Call) : Prop :=
  (∃ onCancel, c.waiter = .handling onCancel) ∨ c.waiter = .waiting ∧ c.ivar = some .cancelled

def Call.Blocked (c : Call) : Prop := c.waiter = .waiting ∧ c.ivar = none

structure WellBracketed (s : State K) : Prop where
  /-- The list has the handlers of the bodies that run. -/
  handlers : s.fired = false →
    ∃ ks, s.handlers.Represents ks ∧ ∀ k, k ∈ ks ↔ k ∈ s.calls ∧ (s.call k).body = .running
  /-- The handlers that are invoked are those whose bodies ran when the cancellation was fired. -/
  invoked : ∀ k ∈ s.calls, (s.call k).hasHandler = true →
    ((s.call k).Cancels ↔ k ∈ s.interrupted)
  /-- No call is blocked after its body has ended. -/
  released : ∀ k ∈ s.calls, (s.call k).body ≠ .running → ¬(s.call k).Blocked

/-! ## Before the cancellation is fired -/

structure CallPending (c : Call) : Prop where
  hasHandler : c.hasHandler = true
  ivar : c.ivar = if c.body = .returned then some .notCancelled else none
  waiter : c.waiter = .waiting ∨ c.waiter = .returned ∧ c.body = .returned

structure Pending (s : State K) : Prop where
  fired : s.fired = false
  nodup : s.calls.Nodup
  handlers : ∃ ks, s.handlers.Represents ks ∧
    ∀ k, k ∈ ks ↔ k ∈ s.calls ∧ (s.call k).body ≠ .returned
  call : ∀ k ∈ s.calls, CallPending (s.call k)
  interrupted : s.interrupted = []
  abandoned : ∀ k, k ∈ s.abandoned ↔ k ∈ s.calls ∧ (s.call k).body = .raised

section Pending

variable {s : State K} {k : K}

theorem Pending.not_handling (h : Pending s) (hk : k ∈ s.calls) (onCancel : Branch) :
    (s.call k).waiter ≠ .handling onCancel := by
  intro heq
  rcases (h.call k hk).waiter with hw | ⟨hw, -⟩ <;> cases heq.symm.trans hw

variable [DecidableEq K]

theorem setCall_call (c : Call) (k' : K) :
    (s.setCall k c).call k' = if k' = k then c else s.call k' :=
  Function.update_apply s.call k c k'

attribute [local simp] State.setCall

section

variable (h : Pending s)
include h

theorem Pending.withHandler (hk : k ∉ s.calls) : Pending (withHandler k s) := by
  obtain ⟨ks, hks, hmem⟩ := h.handlers
  have hkks : k ∉ ks := fun hk' => hk ((hmem k).mp hk').1
  have hkabandoned : k ∉ s.abandoned := fun hk' => hk ((h.abandoned k).mp hk').1
  rw [Cancel.withHandler, if_neg (Bool.eq_false_iff.mp h.fired)]
  refine ⟨h.fired, nodup_cons.mpr ⟨hk, h.nodup⟩, ⟨k :: ks, hks.push hkks, fun k' => ?_⟩,
    fun k' hk' => ?_, h.interrupted, fun k' => ?_⟩
  all_goals rw [setCall_call]
  all_goals by_cases heq : k' = k
  · simp [heq]
  · simp [heq, hmem]
  · rw [if_pos heq]
    exact ⟨rfl, rfl, .inl rfl⟩
  · rw [if_neg heq]
    exact h.call k' ((mem_cons.mp hk').resolve_left heq)
  · simp [heq, hkabandoned]
  · simp [heq, h.abandoned]

theorem Pending.bodyReturns (hk : k ∈ s.calls)
    (hrunning : (s.call k).body = .running) : ∃ s', bodyReturns k s = some s' ∧ Pending s' := by
  obtain ⟨ks, hks, hmem⟩ := h.handlers
  have hivar : (s.call k).ivar = none := by
    rw [(h.call k hk).ivar, hrunning]
    rfl
  have hkks : k ∈ ks := (hmem k).mpr ⟨hk, by rw [hrunning]; decide⟩
  refine ⟨State.setCall k { s.call k with body := .returned, ivar := some .notCancelled }
    { s with handlers := s.handlers.unlink k }, ?_, ?_⟩
  · simp [Cancel.bodyReturns, h.fired, fill, hivar]
  · refine ⟨h.fired, h.nodup, ⟨ks.erase k, hks.unlink hkks, fun k' => ?_⟩, fun k' hk' => ?_,
      h.interrupted, fun k' => ?_⟩
    all_goals rw [setCall_call]
    all_goals by_cases heq : k' = k
    · simp [heq, hks.nodup.not_mem_erase]
    · simp [heq, hmem, mem_erase_of_ne]
    · rw [if_pos heq]
      exact ⟨(h.call k hk).hasHandler, rfl, (h.call k hk).waiter.imp_right fun hw => ⟨hw.1, rfl⟩⟩
    · rw [if_neg heq]
      exact h.call k' hk'
    · simp [heq, h.abandoned, hrunning]
    · simp [heq, h.abandoned]

theorem Pending.bodyRaises (hk : k ∈ s.calls)
    (hrunning : (s.call k).body = .running) : Pending (bodyRaises k s) := by
  obtain ⟨ks, hks, hmem⟩ := h.handlers
  have hcall := h.call k hk
  have hraises : Cancel.bodyRaises k s =
      State.setCall k { s.call k with body := .raised } { s with abandoned := k :: s.abandoned } :=
    if_neg (Bool.eq_false_iff.mp h.fired)
  rw [hraises]
  refine ⟨h.fired, h.nodup, ⟨ks, hks, fun k' => ?_⟩, fun k' hk' => ?_, h.interrupted,
    fun k' => ?_⟩
  all_goals rw [setCall_call]
  all_goals by_cases heq : k' = k
  · simp [heq, hmem, hrunning]
  · simp [heq, hmem]
  · rw [if_pos heq]
    have hivar := hcall.ivar
    have hwaiter := hcall.waiter
    rw [hrunning] at hivar hwaiter
    exact ⟨hcall.hasHandler, hivar, .inl (hwaiter.resolve_right nofun)⟩
  · rw [if_neg heq]
    exact h.call k' hk'
  · simp [heq, hk]
  · simp [heq, h.abandoned]

/-- Only the fiber of a body that has returned is woken up. -/
theorem Pending.wake (hk : k ∈ s.calls) {o : Outcome}
    (ho : (s.call k).ivar = some o) : Pending (wake k o s) := by
  obtain ⟨ks, hks, hmem⟩ := h.handlers
  have hcall := h.call k hk
  have hreturned : (s.call k).body = .returned := by
    by_contra hne
    have hivar := hcall.ivar
    rw [if_neg hne, ho] at hivar
    cases hivar
  obtain rfl : o = .notCancelled := by
    have hivar := hcall.ivar
    rw [if_pos hreturned, ho] at hivar
    exact Option.some.inj hivar
  refine ⟨h.fired, h.nodup, ⟨ks, hks, fun k' => ?_⟩, fun k' hk' => ?_, h.interrupted,
    fun k' => ?_⟩
  all_goals rw [Cancel.wake, setCall_call]
  all_goals by_cases heq : k' = k
  · simp [heq, hmem, hreturned]
  · simp [heq, hmem]
  · rw [if_pos heq]
    exact ⟨hcall.hasHandler, hcall.ivar, .inr ⟨rfl, hreturned⟩⟩
  · rw [if_neg heq]
    exact h.call k' hk'
  · simp [heq, h.abandoned, hreturned]
  · simp [heq, h.abandoned]

end

theorem invokeHandlers_eq {ks : List K} (hnodup : ks.Nodup)
    (hempty : ∀ k ∈ ks, (s.call k).ivar = none) :
    ∃ call, invokeHandlers ks s = some { s with call } ∧
      ∀ k, call k = if k ∈ ks then { s.call k with ivar := some .cancelled } else s.call k := by
  induction ks generalizing s with
  | nil => exact ⟨s.call, rfl, fun k => rfl⟩
  | cons k ks ih =>
    obtain ⟨hk, hnodup⟩ := nodup_cons.mp hnodup
    have hfill : fill k .cancelled s =
        some (s.setCall k { s.call k with ivar := some .cancelled }) := by
      rw [fill, hempty k mem_cons_self]
    have hempty' (k') (hk' : k' ∈ ks) :
        ((s.setCall k { s.call k with ivar := some .cancelled }).call k').ivar = none := by
      rw [setCall_call, if_neg (ne_of_mem_of_not_mem hk' hk)]
      exact hempty k' (mem_cons_of_mem k hk')
    obtain ⟨call, heq, hcall⟩ := ih hnodup hempty'
    refine ⟨call, ?_, fun k' => ?_⟩
    · rw [invokeHandlers, hfill, Option.bind_some, heq]
      rfl
    · rw [hcall, setCall_call]
      by_cases heq : k' = k
      · simp [heq, hk]
      · simp [heq]

end Pending

/-! ## After the cancellation was fired -/

/-- What holds of a call, whose handler was in the list or not. -/
structure CallFired (listed : Prop) (c : Call) : Prop where
  invoked : c.hasHandler = true → listed →
    c.ivar = some .cancelled ∧ (c.waiter = .waiting ∨ ∃ onCancel, c.waiter = .handling onCancel)
  released : c.hasHandler = true → ¬listed →
    c.ivar = some .notCancelled ∧ (c.waiter = .waiting ∨ c.waiter = .returned)
  late : c.hasHandler = false → ∃ onCancel, c.waiter = .handling onCancel

structure Fired (s : State K) : Prop where
  fired : s.fired = true
  call : ∀ k ∈ s.calls, CallFired (k ∈ s.interrupted ∨ k ∈ s.abandoned) (s.call k)
  disjoint : ∀ k ∈ s.abandoned, k ∉ s.interrupted
  known : ∀ k, k ∈ s.interrupted ∨ k ∈ s.abandoned → k ∈ s.calls ∧ (s.call k).hasHandler = true

section Fired

variable [DecidableEq K] {s : State K} {k : K}

/-- Firing invokes the handlers of the bodies that run and of those that have raised. -/
theorem Pending.fire (h : Pending s) : ∃ s', fire s = some s' ∧ Fired s' := by
  obtain ⟨ks, hks, hmem⟩ := h.handlers
  have hsubset : ks ⊆ s.calls := fun k hk => ((hmem k).mp hk).1
  have hwalk : s.handlers.walk s.calls.length s.handlers.head = ks :=
    hks.walk (hks.nodup.subperm hsubset).length_le
  have hempty (k) (hk : k ∈ ks) : (s.call k).ivar = none := by
    rw [(h.call k (hsubset hk)).ivar, if_neg ((hmem k).mp hk).2]
  have hlisted (k) : k ∈ ks ↔
      k ∈ s.calls.filter (fun k => (s.call k).body = .running) ∨ k ∈ s.abandoned := by
    rw [hmem, mem_filter, h.abandoned, decide_eq_true_eq, ← and_or_left]
    cases (s.call k).body <;> simp
  obtain ⟨call, heq, hcall⟩ := invokeHandlers_eq (s := { s with
    fired := true, interrupted := s.calls.filter fun k => (s.call k).body = .running })
    hks.nodup hempty
  refine ⟨_, by rw [Cancel.fire, if_neg (Bool.eq_false_iff.mp h.fired), hwalk, heq], rfl,
    fun k hk => ?_, fun k hk hk' => ?_, fun k hk => ?_⟩
  · simp only [hcall, ← hlisted]
    have hpending := h.call k hk
    by_cases hkks : k ∈ ks
    · have hwaiting : (s.call k).waiter = .waiting :=
        hpending.waiter.resolve_right fun hw => ((hmem k).mp hkks).2 hw.2
      rw [if_pos hkks]
      exact ⟨fun _ _ => ⟨rfl, .inl hwaiting⟩, fun _ hne => absurd hkks hne, fun hhas =>
        absurd hhas (by rw [hpending.hasHandler]; decide)⟩
    · have hreturned : (s.call k).body = .returned := by
        by_contra hne
        exact hkks ((hmem k).mpr ⟨hk, hne⟩)
      have hivar := hpending.ivar
      rw [if_pos hreturned] at hivar
      rw [if_neg hkks]
      exact ⟨fun _ hkks' => absurd hkks' hkks, fun _ _ =>
        ⟨hivar, hpending.waiter.imp_right And.left⟩, fun hhas =>
          absurd hhas (by rw [hpending.hasHandler]; decide)⟩
  · have hraised := ((h.abandoned k).mp hk).2
    rw [mem_filter, decide_eq_true_eq, hraised] at hk'
    cases hk'.2
  · have hkks := (hlisted k).mpr hk
    refine ⟨hsubset hkks, ?_⟩
    simp only [hcall, if_pos hkks]
    exact (h.call k (hsubset hkks)).hasHandler

section

variable (h : Fired s)
include h

theorem Fired.setCall {c : Call} (hhas : c.hasHandler = (s.call k).hasHandler)
    (hc : CallFired (k ∈ s.interrupted ∨ k ∈ s.abandoned) c) : Fired (s.setCall k c) := by
  refine ⟨h.fired, fun k' hk' => ?_, h.disjoint, fun k' hk' => ⟨(h.known k' hk').1, ?_⟩⟩
  all_goals rw [setCall_call]
  all_goals split
  · next heq => exact heq ▸ hc
  · exact h.call k' hk'
  · next heq =>
    rw [hhas, ← heq]
    exact (h.known k' hk').2
  · exact (h.known k' hk').2

theorem Fired.withHandler (hk : k ∉ s.calls) : Fired (withHandler k s) := by
  rw [Cancel.withHandler, if_pos h.fired]
  refine ⟨h.fired, fun k' hk' => ?_, h.disjoint, fun k' hk' => ?_⟩
  all_goals rw [setCall_call]
  · split
    · exact ⟨nofun, nofun, fun _ => ⟨.running, rfl⟩⟩
    · next hne => exact h.call k' ((mem_cons.mp hk').resolve_left hne)
  · obtain ⟨hcalls, hhas⟩ := h.known k' hk'
    rw [if_neg (ne_of_mem_of_not_mem hcalls hk)]
    exact ⟨mem_cons_of_mem k hcalls, hhas⟩

section

variable (hk : k ∈ s.calls)
include hk

theorem Fired.bodyReturns : ∃ s', bodyReturns k s = some s' ∧ Fired s' := by
  have hcall := h.call k hk
  exact ⟨_, if_pos h.fired, h.setCall rfl { hcall with }⟩

theorem Fired.bodyRaises : Fired (bodyRaises k s) := by
  have hcall := h.call k hk
  have hraises : Cancel.bodyRaises k s = s.setCall k { s.call k with body := .raised } :=
    if_pos h.fired
  rw [hraises]
  exact h.setCall rfl { hcall with }

theorem Fired.wake (hwaiting : (s.call k).waiter = .waiting)
    {o : Outcome} (ho : (s.call k).ivar = some o) : Fired (wake k o s) := by
  have hcall := h.call k hk
  have hhas : (s.call k).hasHandler ≠ false := by
    intro hfalse
    obtain ⟨onCancel, hw⟩ := hcall.late hfalse
    cases hwaiting.symm.trans hw
  cases o with
  | cancelled =>
    refine h.setCall rfl ⟨fun _ _ => ⟨ho, .inr ⟨_, rfl⟩⟩, fun h₁ h₂ => ?_,
      fun h₁ => absurd h₁ hhas⟩
    cases ho.symm.trans (hcall.released h₁ h₂).1
  | notCancelled =>
    refine h.setCall rfl ⟨fun h₁ h₂ => ?_, fun h₁ h₂ => ⟨ho, .inr rfl⟩, fun h₁ => absurd h₁ hhas⟩
    cases ho.symm.trans (hcall.invoked h₁ h₂).1

theorem Fired.handled (hhandling : (s.call k).waiter = .handling .running) (onCancel : Branch) :
    Fired (handled k onCancel s) := by
  have hcall := h.call k hk
  refine h.setCall rfl ⟨fun h₁ h₂ => ⟨(hcall.invoked h₁ h₂).1, .inr ⟨_, rfl⟩⟩, fun h₁ h₂ => ?_,
    fun _ => ⟨_, rfl⟩⟩
  rcases (hcall.released h₁ h₂).2 with hw | hw <;> cases hhandling.symm.trans hw

end

end

theorem Reachable.pending_or_fired (h : Reachable s) : Pending s ∨ Fired s := by
  induction h with
  | create call =>
    exact .inl ⟨rfl, .nil, ⟨[], .empty, by simp [Cancel.create]⟩, nofun, rfl,
      by simp [Cancel.create]⟩
  | step _ hstep ih =>
    rcases ih with ih | ih
    · cases hstep with
      | withHandler hk => exact .inl (ih.withHandler hk)
      | bodyReturns hk hrunning heq =>
        obtain ⟨s', heq', h'⟩ := ih.bodyReturns hk hrunning
        cases heq.symm.trans heq'
        exact .inl h'
      | bodyRaises hk hrunning => exact .inl (ih.bodyRaises hk hrunning)
      | wake hk _ ho => exact .inl (ih.wake hk ho)
      | handled hk hhandling => exact absurd hhandling (ih.not_handling hk _)
      | fire heq =>
        obtain ⟨s', heq', h'⟩ := ih.fire
        cases heq.symm.trans heq'
        exact .inr h'
    · cases hstep with
      | withHandler hk => exact .inr (ih.withHandler hk)
      | bodyReturns hk _ heq =>
        obtain ⟨s', heq', h'⟩ := ih.bodyReturns hk
        cases heq.symm.trans heq'
        exact .inr h'
      | bodyRaises hk => exact .inr (ih.bodyRaises hk)
      | wake hk hwaiting ho => exact .inr (ih.wake hk hwaiting ho)
      | handled hk hhandling => exact .inr (ih.handled hk hhandling _)
      | fire heq =>
        cases heq.symm.trans (if_pos ih.fired)
        exact .inr ih

/-- No ivar is filled twice. -/
theorem Reachable.fills (h : Reachable s) :
    (∃ s', fire s = some s') ∧
      ∀ k ∈ s.calls, (s.call k).body = .running → ∃ s', bodyReturns k s = some s' := by
  rcases h.pending_or_fired with h | h
  · obtain ⟨s', hfire, -⟩ := h.fire
    refine ⟨⟨s', hfire⟩, fun k hk hrunning => ?_⟩
    obtain ⟨s'', hreturns, -⟩ := h.bodyReturns hk hrunning
    exact ⟨s'', hreturns⟩
  · exact ⟨⟨s, if_pos h.fired⟩, fun k hk _ => (h.bodyReturns hk).imp fun _ => And.left⟩

end Fired

section Iff

variable {s : State K}

theorem Pending.wellBracketed_iff (h : Pending s) : WellBracketed s ↔ s.abandoned = [] := by
  obtain ⟨ks, hks, hmem⟩ := h.handlers
  have hcancels (k) (hk : k ∈ s.calls) : ¬(s.call k).Cancels := by
    rintro (⟨onCancel, hw⟩ | ⟨-, ho⟩)
    · exact h.not_handling hk onCancel hw
    · rw [(h.call k hk).ivar] at ho
      split at ho <;> cases ho
  constructor
  · intro hwell
    refine eq_nil_iff_forall_not_mem.mpr fun k hk => ?_
    obtain ⟨hcalls, hraised⟩ := (h.abandoned k).mp hk
    have hpending := h.call k hcalls
    refine hwell.released k hcalls (by rw [hraised]; decide) ⟨?_, ?_⟩
    · refine hpending.waiter.resolve_right fun hw => ?_
      cases hraised.symm.trans hw.2
    · rw [hpending.ivar, hraised]
      rfl
  · intro hnone
    have hbody (k) (hk : k ∈ s.calls) : (s.call k).body ≠ .raised := fun hraised => by
      have hk' := (h.abandoned k).mpr ⟨hk, hraised⟩
      rw [hnone] at hk'
      cases hk'
    refine ⟨fun _ => ⟨ks, hks, fun k => ?_⟩, fun k hk _ => ?_, fun k hk hne hblocked => ?_⟩
    · rw [hmem]
      refine and_congr_right fun hk => ?_
      have := hbody k hk
      cases hb : (s.call k).body <;> simp_all
    · rw [h.interrupted]
      exact ⟨fun hc => absurd hc (hcancels k hk), nofun⟩
    · have hreturned : (s.call k).body = .returned := by
        have := hbody k hk
        cases hb : (s.call k).body <;> simp_all
      have hivar := (h.call k hk).ivar
      rw [if_pos hreturned, hblocked.2] at hivar
      cases hivar

theorem Fired.wellBracketed_iff (h : Fired s) : WellBracketed s ↔ s.abandoned = [] := by
  have hcancels (k) (hk : k ∈ s.calls) (hhas : (s.call k).hasHandler = true) :
      (s.call k).Cancels ↔ k ∈ s.interrupted ∨ k ∈ s.abandoned := by
    have hcall := h.call k hk
    constructor
    · intro hc
      by_contra hlisted
      obtain ⟨ho, hw⟩ := hcall.released hhas hlisted
      rcases hc with ⟨onCancel, hw'⟩ | ⟨-, ho'⟩
      · rcases hw with hw | hw <;> cases hw'.symm.trans hw
      · cases ho.symm.trans ho'
    · intro hlisted
      obtain ⟨ho, hw⟩ := hcall.invoked hhas hlisted
      exact hw.elim (fun hw => .inr ⟨hw, ho⟩) .inl
  constructor
  · intro hwell
    refine eq_nil_iff_forall_not_mem.mpr fun k hk => ?_
    obtain ⟨hcalls, hhas⟩ := h.known k (.inr hk)
    have hinterrupted := (hwell.invoked k hcalls hhas).mp ((hcancels k hcalls hhas).mpr (.inr hk))
    exact h.disjoint k hk hinterrupted
  · intro hnone
    refine ⟨fun hfired => ?_, fun k hk hhas => ?_, fun k hk _ hblocked => ?_⟩
    · cases h.fired.symm.trans hfired
    · rw [hcancels k hk hhas, hnone]
      simp
    · have hcall := h.call k hk
      obtain ⟨hwaiting, hivar⟩ := hblocked
      cases hhas : (s.call k).hasHandler with
      | false =>
        obtain ⟨onCancel, hw⟩ := hcall.late hhas
        cases hwaiting.symm.trans hw
      | true =>
        by_cases hlisted : k ∈ s.interrupted ∨ k ∈ s.abandoned
        · cases hivar.symm.trans (hcall.invoked hhas hlisted).1
        · cases hivar.symm.trans (hcall.released hhas hlisted).1

end Iff

/-- In every state, the list has the handlers of the bodies that run, `on_cancel` is called for the
bodies that ran when the cancellation was fired, and no call is blocked after its body has ended,
iff no body has raised before the cancellation was fired. -/
theorem well_bracketed_iff [DecidableEq K] (s : State K) (h : Reachable s) :
    WellBracketed s ↔ s.abandoned = [] := by
  rcases h.pending_or_fired with h | h
  all_goals exact h.wellBracketed_iff

/-- A body has raised, and the cancellation has not been fired. -/
def raising : State Nat :=
  bodyRaises 0 (withHandler 0 (create fun _ => ⟨true, none, .running, .waiting⟩))

/-- The handler stays in the list, and the call is blocked. -/
theorem raising_blocked :
    Reachable raising ∧ raising.fired = false ∧ raising.calls = [0] ∧
      (raising.call 0).body = .raised ∧ raising.handlers.Represents [0] ∧
      (raising.call 0).Blocked := by
  have h : Reachable raising := .step (.step (.create _) (.withHandler (by decide)))
    (.bodyRaises mem_cons_self rfl)
  exact ⟨h, rfl, rfl, rfl, Links.Represents.empty.push not_mem_nil, rfl, rfl⟩

/-- A body has returned. -/
theorem well_bracketed_returning :
    ∃ s : State Nat, Reachable s ∧ (s.call 0).body = .returned ∧ WellBracketed s := by
  have h : Reachable (K := Nat)
      (withHandler 0 (create fun _ => ⟨true, none, .running, .waiting⟩)) :=
    .step (.create _) (.withHandler (by decide))
  obtain ⟨s', heq⟩ := h.fills.2 0 mem_cons_self rfl
  have h' := h.step (.bodyReturns mem_cons_self rfl heq)
  cases heq
  exact ⟨_, h', rfl, (well_bracketed_iff _ h').mpr rfl⟩

end Dune.Fiber.Cancel
