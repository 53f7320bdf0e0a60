import Dune.Fiber.Calls

/-!
# Mvars

`src/fiber/src/mvar.ml`: a cell that holds at most one value. A read of an empty cell and a write to
a full one wait. The values that have been written are handed to the reads one by one, in the order
of the writes and of the reads (`rendezvous`).
-/

namespace Dune.Fiber.Mvar

variable {α K : Type}

/-- `Mvar.t`. The continuations that wait are in queues, the first one first. -/
structure T (α K : Type) where
  writers : List (α × K)
  readers : List K
  value : Option α

/-- `create` and `create_full`. -/
def create (value : Option α) : T α K where
  writers := []
  readers := []
  value := value

inductive Op (α : Type)
  | read
  | write (x : α)

inductive Result (α : Type)
  | value (v : α)
  | unit

def runRead (k : K) (t : T α K) : T α K × Eff K (Result α) :=
  match t.value with
  | none => ({ t with readers := t.readers ++ [k] }, .suspend)
  | some v =>
    match t.writers with
    | [] => ({ t with value := none }, .continue (.value v))
    | (v', w) :: writers =>
      ({ t with value := some v', writers }, .resume w .unit (.continue (.value v)))

def runWrite (x : α) (k : K) (t : T α K) : T α K × Eff K (Result α) :=
  match t.value with
  | some _ => ({ t with writers := t.writers ++ [(x, k)] }, .suspend)
  | none =>
    match t.readers with
    | [] => ({ t with value := some x }, .continue .unit)
    | r :: readers => ({ t with readers }, .resume r (.value x) (.continue .unit))

def run : Operations (T α K) K (Op α) (Result α)
  | .read => runRead
  | .write x => runWrite x

structure Invariant (t : T α K) : Prop where
  empty : t.value = none → t.writers = []
  full : t.value ≠ none → t.readers = []

def T.values (t : T α K) : List α := t.value.toList ++ t.writers.map Prod.fst

section Histories

variable (s : Session (T α K) K (Op α) (Result α))

def written (init : Option α) : List α :=
  init.toList ++ s.calls.filterMap fun
    | (_, .write x) => some x
    | (_, .read) => none

def reads : List K :=
  s.calls.filterMap fun
    | (k, .read) => some k
    | (_, .write _) => none

/-- The reads that have received a value, in the order in which they did. -/
def received : List (K × α) :=
  s.handed.filterMap fun
    | (k, .value v) => some (k, v)
    | (_, .unit) => none

/-- The reads get the values in order. -/
structure Rendezvous (init : Option α) : Prop where
  invariant : Invariant s.store
  matched : Matched (reads s) (written s init) (received s) s.store.readers s.store.values

end Histories

section Steps

attribute [local simp] reads written received run runRead runWrite T.values

variable {init : Option α} {s : Session (T α K) K (Op α) (Result α)}

theorem Rendezvous.read (h : Rendezvous s init) (k : K) : Rendezvous (s.call run k .read) init := by
  obtain ⟨⟨writers, readers, value⟩, calls, handed⟩ := s
  obtain ⟨hinv, hmatched⟩ := h
  cases value with
  | none =>
    obtain rfl := hinv.empty rfl
    have hmatched := hmatched.waits k
    exact ⟨⟨fun _ => rfl, fun hfull => absurd rfl hfull⟩, by simpa using hmatched⟩
  | some v =>
    obtain rfl := hinv.full nofun
    have hmatched := hmatched.meets k
    cases writers with
    | nil =>
      exact ⟨⟨fun _ => rfl, fun _ => rfl⟩, by simpa using hmatched⟩
    | cons w writers =>
      exact ⟨⟨nofun, fun _ => rfl⟩, by simpa using hmatched⟩

theorem Rendezvous.write (h : Rendezvous s init) (k : K) (x : α) :
    Rendezvous (s.call run k (.write x)) init := by
  obtain ⟨⟨writers, readers, value⟩, calls, handed⟩ := s
  obtain ⟨hinv, hmatched⟩ := h
  cases value with
  | some v =>
    obtain rfl := hinv.full nofun
    have hmatched := hmatched.waits_right x
    exact ⟨⟨nofun, fun _ => rfl⟩, by simpa using hmatched⟩
  | none =>
    obtain rfl := hinv.empty rfl
    cases readers with
    | nil =>
      have hmatched := hmatched.waits_right x
      exact ⟨⟨nofun, fun _ => rfl⟩, by simpa using hmatched⟩
    | cons r readers =>
      have hmatched := hmatched.meets_right x
      exact ⟨⟨fun _ => rfl, fun hfull => absurd rfl hfull⟩, by simpa using hmatched⟩

end Steps

/-- The continuations that an mvar keeps. -/
def T.blocked (t : T α K) : List K := t.readers ++ t.writers.map Prod.snd

theorem conserves : Conserves (run (α := α) (K := K)) T.blocked := by
  classical
  rintro (_ | x) k ⟨writers, readers, value⟩
  · cases value with
    | none => simp [run, runRead, T.blocked, List.perm_iff_count, List.count_cons]
    | some v =>
      cases writers <;> simp [run, runRead, T.blocked, List.perm_iff_count, List.count_cons]
      omega
  · cases value with
    | some v => simp [run, runWrite, T.blocked]
    | none =>
      cases readers <;> simp [run, runWrite, T.blocked, List.perm_iff_count, List.count_cons]
      omega

/-- In every state, the reads that have received a value got the values that were written, in order,
and the other values and reads wait in order. A full mvar has no reads that wait and an empty one no
writes, and every operation waits or has received its result once. -/
theorem rendezvous (init : Option α) (s : Session (T α K) K (Op α) (Result α))
    (h : Reachable run (fun _ _ => True) (create init) s) :
    (s.store.value = none → s.store.writers = []) ∧
      (s.store.value ≠ none → s.store.readers = []) ∧
      received s = (reads s).zip (written s init) ∧
      s.store.readers = (reads s).drop (written s init).length ∧
      s.store.values = (written s init).drop (reads s).length ∧
      (s.handed.map Prod.fst ++ s.store.blocked).Perm s.callers := by
  have hrendezvous : Rendezvous s init := by
    induction h with
    | init =>
      exact ⟨⟨fun _ => rfl, fun _ => rfl⟩, by
        simpa [reads, written, received, create, T.values] using Matched.init _⟩
    | call k op _ _ _ ih =>
      cases op with
      | read => exact ih.read k
      | write x => exact ih.write k x
  exact ⟨hrendezvous.invariant.empty, hrendezvous.invariant.full, hrendezvous.matched.pairs,
    hrendezvous.matched.left, hrendezvous.matched.right, h.conserved conserves rfl⟩

def readWriteWrite : Session (T Nat Nat) Nat (Op Nat) (Result Nat) :=
  ((Session.call run 0 .read ⟨create none, [], []⟩).call run 1 (.write 5)).call run 2 (.write 6)

theorem rendezvous_readWriteWrite :
    received readWriteWrite = [(0, 5)] ∧ readWriteWrite.store.values = [6] := by
  have h : Reachable run (fun _ _ => True) (create none) readWriteWrite :=
    .call 2 _ (.call 1 _ (.call 0 _ .init (by decide) trivial) (by decide) trivial) (by decide)
      trivial
  obtain ⟨-, -, hreceived, -, hvalues, -⟩ := rendezvous none readWriteWrite h
  exact ⟨hreceived, hvalues⟩

end Dune.Fiber.Mvar
