import Mathlib.Data.List.Nodup

/-!
# Long polls

`src/rpc/long_poll.ml` and the polls of `src/rpc/server.ml`. A poller is in the table of its session
and in the active set of each instance that it polls. Cancelling the poller takes it out of the
table only, and closing the session out of neither, so that no entry is ever reclaimed
(`reclaimed_iff`).
-/

namespace Dune.Rpc.LongPoll

open List

/-- `Status.t`, without the source of the instance and its `on_cancel`, which does nothing. -/
inductive Status (α : Type)
  | initialized
  | active (value : α)
  | cancelled

/-- `Active_set.t`, a map from the ids of the pollers. -/
abbrev ActiveSet (α : Type) := Nat → Option (Status α)

inductive Updated
  | updated
  | pollerWasCancelled

variable {Id α : Type}

namespace ActiveSet

variable (t : ActiveSet α) (poller : Nat)

/-- `initialize`. It raises a code error if the poller is there. -/
def initializePoller : Option (ActiveSet α) :=
  match t poller with
  | none | some .cancelled => some (Function.update t poller (some .initialized))
  | some (.active _) | some .initialized => none

def cancel : ActiveSet α :=
  match t poller with
  | none | some .cancelled => t
  | some .initialized | some (.active _) => Function.update t poller (some .cancelled)

/-- It raises a code error if the poller is not there. -/
def update (value : α) : Option (Updated × ActiveSet α) :=
  match t poller with
  | some (.active _) | some .initialized =>
    some (.updated, Function.update t poller (some (.active value)))
  | some .cancelled => some (.pollerWasCancelled, t)
  | none => none

def findAndRemoveCancelled : Option (Status α) × ActiveSet α :=
  (t poller, match t poller with
    | some .cancelled => Function.update t poller none
    | none | some (.active _) | some .initialized => t)

end ActiveSet

/-- The sessions and the instances, which are numbered. -/
structure State (Id α : Type) where
  /-- The tables of the sessions. -/
  pollers : List ((Nat × Id) × Nat) := []
  /-- The id of the next poller. -/
  nextPoller : Nat := 0
  /-- The pollers whose `cancel` has fired. -/
  fired : List Nat := []
  /-- The sessions that are closing or closed. -/
  closed : List Nat := []
  activeSets : Nat → ActiveSet α := fun _ _ => none
  /-- The polls in flight: the instance, the poller and the last value. -/
  waiting : List (Nat × Nat × Option α) := []
  /-- The cancellations whose `on_cancel` has not run. -/
  cancelling : List (Nat × Nat) := []
  /-- What `diff` is applied to for the answers to the polls, `none` for `Poll_cancelled`. -/
  answers : List (Nat × Option (Option α × α)) := []

inductive Event (Id α : Type)
  | poll (session inst : Nat) (id : Id)
  /-- The wait of a poll ends, and the source has the value `now`. -/
  | wake (k : Nat) (now : α)
  | cancel (session inst : Nat) (id : Id)
  | onCancel (k : Nat)
  | close (session : Nat)

namespace State

variable [DecidableEq Id] (s : State Id α) (session inst poller : Nat) (id : Id)

def findOrCreatePoller : Nat × State Id α :=
  match s.pollers.lookup (session, id) with
  | some poller => (poller, s)
  | none => (s.nextPoller, { s with
      pollers := ((session, id), s.nextPoller) :: s.pollers
      nextPoller := s.nextPoller + 1 })

def setActive (t : ActiveSet α) : State Id α :=
  { s with activeSets := Function.update s.activeSets inst t }

/-- `make_on_poll` up to the wait. -/
def makeOnPoll : State Id α :=
  let (status, t) := (s.activeSets inst).findAndRemoveCancelled poller
  let wait t last := { s.setActive inst t with waiting := (inst, poller, last) :: s.waiting }
  match status with
  | none => (t.initializePoller poller).elim s (wait · none)
  | some .initialized => wait t none
  | some (.active value) => wait t (some value)
  | some .cancelled => { s.setActive inst t with answers := (poller, none) :: s.answers }

/-- The rest of `make_on_poll`. -/
def send (last : Option α) (now : α) : State Id α :=
  if poller ∈ s.fired then { s with answers := (poller, none) :: s.answers } else
    match (s.activeSets inst).update poller now with
    | none => s
    | some (.pollerWasCancelled, _) => { s with answers := (poller, none) :: s.answers }
    | some (.updated, t) =>
      { s.setActive inst t with answers := (poller, some (last, now)) :: s.answers }

/-- The handlers of `implement_long_poll`, and `close`. -/
def step (s : State Id α) : Event Id α → State Id α
  | .poll session inst id =>
    if session ∈ s.closed then s else
      let (poller, s) := s.findOrCreatePoller session id
      s.makeOnPoll inst poller
  | .wake k now =>
    match s.waiting[k]? with
    | none => s
    | some (inst, poller, last) =>
      { s with waiting := s.waiting.eraseIdx k }.send inst poller last now
  | .cancel session inst id =>
    match s.pollers.lookup (session, id) with
    | none => s
    | some poller => { s with
        pollers := s.pollers.filter (·.1 ≠ (session, id))
        fired := poller :: s.fired
        cancelling := (inst, poller) :: s.cancelling }
  | .onCancel k =>
    match s.cancelling[k]? with
    | none => s
    | some (inst, poller) =>
      { s with cancelling := s.cancelling.eraseIdx k }.setActive inst
        ((s.activeSets inst).cancel poller)
  | .close session => { s with
      closed := session :: s.closed
      fired := (s.pollers.filter (·.1.1 = session)).map Prod.snd ++ s.fired }

def run (es : List (Event Id α)) : State Id α := es.foldl step {}

/-- The poller has been cancelled, by itself or with its session, and nothing of it is in flight. -/
structure Ended : Prop where
  created : poller < s.nextPoller
  fired : poller ∈ s.fired
  waiting : ∀ w ∈ s.waiting, w.2.1 ≠ poller
  cancelling : ∀ c ∈ s.cancelling, c.2 ≠ poller

def Reclaimed : Prop := ∀ poller, s.Ended poller → ∀ inst, s.activeSets inst poller = none

/-- The poller has been taken out of the table of its session. -/
def Gone : Prop := poller < s.nextPoller ∧ poller ∉ s.pollers.map Prod.snd

/-- A poller that is cancelled in an instance is gone, so that no poll finds it there. -/
structure Live : Prop where
  lt : ∀ p ∈ s.pollers.map Prod.snd, p < s.nextPoller
  nodup : (s.pollers.map Prod.snd).Nodup
  cancelled : ∀ inst p, s.activeSets inst p = some .cancelled → s.Gone p
  cancelling : ∀ c ∈ s.cancelling, s.Gone c.2

/-- The pollers have an entry, all but `new`. -/
structure Kept (new : Option Nat) : Prop extends s.Live where
  entered : ∀ p < s.nextPoller, p ∈ new ∨ ∃ inst, s.activeSets inst p ≠ none

variable {s} {new : Option Nat}

omit [DecidableEq Id]

theorem Kept.enter (h : s.Kept new) (status : Status α) (hnew : ∀ p ∈ new, p = poller)
    (hstatus : status = .cancelled → s.Gone poller) :
    (s.setActive inst (Function.update (s.activeSets inst) poller (some status))).Kept none := by
  have hset (i p : Nat) :
      (s.setActive inst (Function.update (s.activeSets inst) poller (some status))).activeSets i p =
        if i = inst ∧ p = poller then some status else s.activeSets i p := by
    simp only [setActive, Function.update_apply]
    split_ifs <;> simp_all
  refine ⟨{ h with cancelled := fun i p hp => ?_ }, fun p hp => .inr ?_⟩
  · rw [hset] at hp
    split_ifs at hp with heq
    · exact heq.2 ▸ hstatus (Option.some.inj hp)
    · exact h.cancelled i p hp
  · rcases h.entered p hp with hp | ⟨i, hi⟩
    · exact ⟨inst, by simp [hset, hnew p hp]⟩
    · refine ⟨i, ?_⟩
      rw [hset]
      split_ifs
      · exact Option.some_ne_none _
      · exact hi

variable {inst poller}

theorem Kept.makeOnPoll (h : s.Kept new) (hnew : ∀ p ∈ new, p = poller)
    (hmem : poller ∈ s.pollers.map Prod.snd) : (s.makeOnPoll inst poller).Kept none := by
  simp only [State.makeOnPoll, ActiveSet.findAndRemoveCancelled]
  cases hfind : s.activeSets inst poller with
  | none =>
    simp only [ActiveSet.initializePoller, hfind]
    exact { h.enter _ _ _ hnew (by simp) with }
  | some status =>
    have hlive : status ≠ .cancelled := fun hc => (h.cancelled inst poller (hc ▸ hfind)).2 hmem
    have hkept := h.enter inst _ _ hnew (absurd · hlive)
    rw [← hfind, Function.update_eq_self] at hkept
    cases status with
    | cancelled => exact absurd rfl hlive
    | initialized | active => exact { hkept with }

theorem Kept.create (h : s.Kept none) (key : Nat × Id) : Kept { s with
    pollers := (key, s.nextPoller) :: s.pollers
    nextPoller := s.nextPoller + 1 } (some s.nextPoller) := by
  have hgone {p : Nat} (hp : s.Gone p) :
      p < s.nextPoller + 1 ∧ p ∉ s.nextPoller :: s.pollers.map Prod.snd :=
    ⟨Nat.lt_succ_of_lt hp.1, not_mem_cons_of_ne_of_not_mem (Nat.ne_of_lt hp.1) hp.2⟩
  refine ⟨⟨?_, ?_, fun inst p hp => hgone (h.cancelled inst p hp),
    fun c hc => hgone (h.cancelling c hc)⟩, fun p hp => ?_⟩
  · exact forall_mem_cons.mpr ⟨Nat.lt_succ_self _, fun p hp => Nat.lt_succ_of_lt (h.lt p hp)⟩
  · exact nodup_cons.mpr ⟨fun hp => Nat.lt_irrefl _ (h.lt _ hp), h.nodup⟩
  · rcases Nat.lt_succ_iff_lt_or_eq.mp hp with hp | rfl
    · exact .inr ((h.entered p hp).resolve_left nofun)
    · exact .inl rfl

theorem Kept.send {last : Option α} {now : α} (h : s.Kept none) :
    (s.send inst poller last now).Kept none := by
  have henter := h.enter inst poller (.active now) nofun (by simp)
  simp only [State.send, ActiveSet.update]
  split_ifs
  · exact { h with }
  · rcases s.activeSets inst poller with _ | _ | _ | _
    · exact h
    · exact { henter with }
    · exact { henter with }
    · exact { h with }

theorem Kept.onCancel (h : s.Kept none) (hgone : s.Gone poller) :
    (s.setActive inst ((s.activeSets inst).cancel poller)).Kept none := by
  have henter := h.enter inst poller .cancelled nofun fun _ => hgone
  have hsame : (s.setActive inst (s.activeSets inst)).Kept none := by
    rwa [setActive, Function.update_eq_self]
  simp only [ActiveSet.cancel]
  rcases s.activeSets inst poller with _ | _ | _ | _
  · exact hsame
  · exact henter
  · exact henter
  · exact hsame

variable [DecidableEq Id] {key : Nat × Id}

theorem mem_of_lookup (h : s.pollers.lookup key = some poller) : (key, poller) ∈ s.pollers := by
  obtain ⟨l, l', hl, -⟩ := lookup_eq_some_iff.mp h
  simp [hl]

theorem Kept.cancel (h : s.Kept none) (hfind : s.pollers.lookup key = some poller) :
    Kept { s with
      pollers := s.pollers.filter (·.1 ≠ key)
      fired := poller :: s.fired
      cancelling := (inst, poller) :: s.cancelling } none := by
  have hsub : ((s.pollers.filter (·.1 ≠ key)).map Prod.snd).Sublist (s.pollers.map Prod.snd) :=
    filter_sublist.map _
  have hgone {p : Nat} (hp : s.Gone p) :
      p < s.nextPoller ∧ p ∉ (s.pollers.filter (·.1 ≠ key)).map Prod.snd :=
    hp.imp_right (mt (hsub.subset ·))
  have hmem := mem_of_lookup hfind
  refine ⟨⟨fun p hp => h.lt p (hsub.subset hp), h.nodup.sublist hsub,
    fun i p hp => hgone (h.cancelled i p hp), forall_mem_cons.mpr
      ⟨⟨h.lt _ (mem_map_of_mem hmem), fun hp => ?_⟩, fun c hc => hgone (h.cancelling c hc)⟩⟩,
        h.entered⟩
  obtain ⟨b, hb, heq⟩ := mem_map.mp hp
  obtain ⟨hb, hne⟩ := mem_filter.mp hb
  simp [inj_on_of_nodup_map h.nodup hb hmem heq] at hne

theorem Kept.step (h : s.Kept none) (e : Event Id α) : (s.step e).Kept none := by
  cases e with
  | poll session inst id =>
    simp only [State.step, findOrCreatePoller]
    split_ifs
    · exact h
    · cases hfind : s.pollers.lookup (session, id) with
      | some poller => exact h.makeOnPoll nofun (mem_map_of_mem (mem_of_lookup hfind))
      | none =>
        exact (h.create (session, id)).makeOnPoll (by simp) mem_cons_self
  | wake k now =>
    simp only [State.step]
    split
    · exact h
    · exact Kept.send { h with }
  | cancel session inst id =>
    simp only [State.step]
    split
    · exact h
    · next hfind => exact h.cancel hfind
  | onCancel k =>
    simp only [State.step]
    split
    · exact h
    · next hfind =>
      exact Kept.onCancel
        { h with cancelling := fun c hc => h.cancelling c (mem_of_mem_eraseIdx hc) }
        (h.cancelling _ (mem_of_getElem? hfind))
  | close session => exact { h with }

theorem kept_run (es : List (Event Id α)) : (run es).Kept none := by
  refine foldlRecOn (motive := fun s => s.Kept none) es step ?_ fun s h e _ => h.step e
  exact ⟨⟨nofun, nodup_nil, nofun, nofun⟩, nofun⟩

/-- The entries are reclaimed only as long as no poller has ended. -/
theorem reclaimed_iff (es : List (Event Id α)) :
    (run es).Reclaimed ↔ ∀ poller, ¬(run es).Ended poller := by
  constructor
  · intro h poller hended
    obtain ⟨inst, hinst⟩ :=
      ((kept_run es).entered poller hended.created).resolve_left nofun
    exact hinst (h poller hended inst)
  · exact fun h poller hended => absurd hended (h poller)

/-- The entry of a poller stays after its one poll, cancelled by its client or with its session. -/
theorem not_reclaimed :
    ¬(run [.poll 0 0 (), .wake 0 (), .cancel 0 0 (), .onCancel 0]).Reclaimed ∧
      ¬(run [.poll 0 0 (), .wake 0 (), .close 0]).Reclaimed := by
  constructor
  · intro h
    cases h 0 ⟨by decide, by decide, by decide, by decide⟩ 0
  · intro h
    cases h 0 ⟨by decide, by decide, by decide, by decide⟩ 0

end State

end Dune.Rpc.LongPoll
