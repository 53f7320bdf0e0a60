import Dune.Memo.Footprint

/-!
# Cycle detection of Memo

A task adds its call stack to the graph of the cycle detection when it is about to wait for a
computation, and reports a cycle instead of waiting when the graph would get one. The graph has the
blocked call stacks only, and the stacks are added up to the first frame that was added before.
Still it has all edges that matter: a task is blocked exactly when no cycle of waiting computations
results, so that the tasks never deadlock.
-/

namespace Dune.Memo

open List Dune.Task Relation Tree

/-! ## Graphs -/

def Edge (dag : List (Nat × Nat)) (a b : Nat) : Prop := (a, b) ∈ dag

def Acyclic (E : Nat → Nat → Prop) : Prop := ∀ a, ¬TransGen E a a

/-- The edges of a call stack, from each frame to the one that it forced. -/
def pathEdges : List Nat → List (Nat × Nat)
  | c :: f :: st => (f, c) :: pathEdges (f :: st)
  | _ => []

theorem pathEdges_suffix {p q : List Nat} (h : p <:+ q) : pathEdges p ⊆ pathEdges q := by
  induction q with
  | nil =>
    rw [suffix_nil.mp h]
    exact fun _ he => he
  | cons c q ih =>
    rcases suffix_cons_iff.mp h with rfl | hsuffix
    · exact fun _ he => he
    · intro e he
      have hmem := ih hsuffix he
      cases q with
      | nil => cases hmem
      | cons d q => exact mem_cons_of_mem _ hmem

variable {a b : Nat} {x y g : Nat} {E : Nat → Nat → Prop}

/-- A path in a graph with one more edge uses that edge or not. -/
theorem reflTransGen_or (h : ReflTransGen (fun u v => E u v ∨ u = a ∧ v = b) x y) :
    ReflTransGen E x y ∨ ReflTransGen E x a ∧ ReflTransGen E b y := by
  induction h with
  | refl => exact .inl .refl
  | tail _ hedge ih =>
    rcases hedge with hE | ⟨rfl, rfl⟩
    · rcases ih with h | ⟨hxa, hby⟩
      · exact .inl (h.tail hE)
      · exact .inr ⟨hxa, hby.tail hE⟩
    · rcases ih with h | ⟨hxa, -⟩
      · exact .inr ⟨h, .refl⟩
      · exact .inr ⟨hxa, .refl⟩

/-- A new edge closes a cycle only with a path from its end to its start. -/
theorem reflTransGen_of_cycle (hE : Acyclic E)
    (h : TransGen (fun u v => E u v ∨ u = a ∧ v = b) x x) : ReflTransGen E b a := by
  obtain ⟨z, hxz, hzx⟩ := TransGen.head'_iff.mp h
  rcases hxz with hxz | ⟨rfl, rfl⟩
  · rcases reflTransGen_or hzx with hpath | ⟨hza, hbx⟩
    · exact absurd (TransGen.head' hxz hpath) (hE x)
    · exact (hbx.tail hxz).trans hza
  · rcases reflTransGen_or hzx with hpath | ⟨-, hbx⟩
    · exact hpath
    · exact hbx

theorem Acyclic.cons {dag : List (Nat × Nat)} (hdag : Acyclic (Edge dag))
    (h : ¬ReflTransGen (Edge dag) b a) : Acyclic (Edge ((a, b) :: dag)) := by
  intro x hx
  apply h
  refine reflTransGen_of_cycle hdag (TransGen.mono (fun u v huv => ?_) x x hx)
  rcases mem_cons.mp huv with heq | hmem
  · exact .inr (Prod.mk.inj heq)
  · exact .inl hmem

namespace Store

variable {N V X : Type} {σ σ' : Store N V X} {D : CycleDetection}

/-- The frames that have a child in the graph have all their callers in it. -/
def Traversed (σ : Store N V X) (st : List Nat) : Prop :=
  ∀ f rest, f :: rest <:+ st → σ.childrenAddedToDag f ≠ [] → pathEdges (f :: rest) ⊆ σ.dag

/-- What the addition of a call stack does to the graph. -/
structure AddsPath (σ : Store N V X) (st : List Nat) (c : Nat) (σ' : Store N V X)
    (o : Option (List N)) : Prop where
  subset : σ.dag ⊆ σ'.dag
  new : ∀ e ∈ σ'.dag, e ∈ σ.dag ∨ e ∈ pathEdges (c :: st)
  acyclic : Acyclic (Edge σ'.dag)
  children : ∀ f c, c ∈ σ'.childrenAddedToDag f → (f, c) ∈ σ'.dag
  others : ∀ f, f ∉ st → σ'.childrenAddedToDag f = σ.childrenAddedToDag f
  cycleError : σ'.cycleError = σ.cycleError
  added : o = none → pathEdges (c :: st) ⊆ σ'.dag
  cycle : o.isSome → ∃ f g, (f, g) ∈ pathEdges (c :: st) ∧ ReflTransGen (Edge σ'.dag) g f

theorem addPathImpl_addsPath {stack : List Nat} {c : Nat} {o : Option (List N)}
    (hstack : σ.StackOk stack) (hnodup : stack.Nodup) (hrec : σ.Recorded)
    (hchildren : ∀ f c, c ∈ σ.childrenAddedToDag f → (f, c) ∈ σ.dag)
    (hacyclic : Acyclic (Edge σ.dag)) (htraversed : σ.Traversed stack)
    (h : addPathImpl D stack c σ = some (σ', o)) : AddsPath σ stack c σ' o := by
  induction stack generalizing σ c with
  | nil =>
    cases h
    exact ⟨fun _ h => h, fun _ h => .inl h, hacyclic, hchildren, fun _ _ => rfl, rfl,
      fun _ => nofun,
      nofun⟩
  | cons frame stack ih =>
    unfold addPathImpl at h
    simp only at h
    split at h
    · next hmem =>
      cases h
      have hpath := htraversed frame stack (suffix_refl _) (ne_nil_of_mem hmem)
      exact ⟨fun _ h => h, fun _ h => .inl h, hacyclic, hchildren, fun _ _ => rfl, rfl,
        fun _ => cons_subset.mpr ⟨hchildren frame c hmem, hpath⟩, nofun⟩
    · next hmem =>
      have hmissing : (frame, c) ∉ σ.dag := fun h => hmem (hrec _ _ h)
      rcases D.addAssumingMissing_cases hmissing with ⟨cycle, heq, hreach⟩ | ⟨heq, hreach⟩
      · simp only [heq] at h
        cases h
        exact ⟨fun _ h => h, fun _ h => .inl h, hacyclic, hchildren, fun _ _ => rfl, rfl, nofun,
          fun _ => ⟨frame, c, mem_cons_self, hreach⟩⟩
      · simp only [heq] at h
        have hframe := hstack frame mem_cons_self
        have hchildren₁ := childrenAddedToDag_recordChild hframe c ((frame, c) :: σ.dag)
        have hacyclic₁ := hacyclic.cons hreach
        have hchildren' : ∀ f c', c' ∈
            (σ.recordChild frame c ((frame, c) :: σ.dag)).childrenAddedToDag f →
            (f, c') ∈ (frame, c) :: σ.dag := by
          intro f c' hc'
          rw [hchildren₁] at hc'
          grind
        have hother (f : Nat) (hf : f ≠ frame) :
            (σ.recordChild frame c ((frame, c) :: σ.dag)).childrenAddedToDag f =
              σ.childrenAddedToDag f := by
          rw [hchildren₁, if_neg fun heq => hf heq.symm]
        rw [nodup_cons] at hnodup
        split at h
        · have hsame := sameNodes_recordChild σ frame c ((frame, c) :: σ.dag)
          have hrest := ih (hsame.le.stackOk fun c hc => hstack c (mem_cons_of_mem _ hc))
            hnodup.2 (recorded_recordChild c hframe hrec) hchildren' hacyclic₁
            (fun f rest hsuffix hne => ?_) h
          · refine ⟨fun e he => hrest.subset (mem_cons_of_mem _ he), fun e he => ?_, hrest.acyclic,
              hrest.children, fun f hf => ?_, hrest.cycleError, fun ho => ?_, fun ho => ?_⟩
            · rcases hrest.new e he with he | he
              · exact (mem_cons.mp he).symm.imp_right (mem_cons.mpr ∘ .inl)
              · exact .inr (mem_cons_of_mem _ he)
            · rw [mem_cons, not_or] at hf
              rw [hrest.others f hf.2, hother f hf.1]
            · exact cons_subset.mpr ⟨hrest.subset mem_cons_self, hrest.added ho⟩
            · obtain ⟨f, g, hfg, hpath⟩ := hrest.cycle ho
              exact ⟨f, g, mem_cons_of_mem _ hfg, hpath⟩
          · have hf : f ≠ frame := by
              rintro rfl
              exact hnodup.1 (hsuffix.subset mem_cons_self)
            rw [hother f hf] at hne
            intro e he
            exact mem_cons_of_mem _
              (htraversed f rest (hsuffix.trans (suffix_cons frame stack)) hne he)
        · next hempty =>
          cases h
          have hne : σ.childrenAddedToDag frame ≠ [] := fun heq => hempty (isEmpty_iff.mpr heq)
          have hpath := htraversed frame stack (suffix_refl _) hne
          refine ⟨fun e he => mem_cons_of_mem _ he, fun e he => ?_, hacyclic₁, hchildren',
            fun f hf => hother f fun heq => hf (heq ▸ mem_cons_self), rfl, fun _ => ?_, nofun⟩
          · exact (mem_cons.mp he).symm.imp_right (mem_cons.mpr ∘ .inl)
          · exact cons_subset.mpr
              ⟨mem_cons_self, fun e he => mem_cons_of_mem _ (hpath he)⟩

end Store

/-! ## The graph and the tasks -/

section Waiting

variable {N V X : Type} {σ σ' : Store N V X}
  {t t' : Tree (Store N V X) (Reply N V X) Nat (Op N)}

/-- The computations without a result are those that run, the call stacks of blocked tasks are in
the graph, and the graph has no other edges that are still of interest. -/
structure Waiting (σ : Store N V X) (t : Tree (Store N V X) (Reply N V X) Nat (Op N)) : Prop where
  unfilled : ∀ c ∈ t.owned, σ.peek c = none
  running : ∀ c, c < σ.computations.length → σ.peek c = none → c ∈ t.owned
  alloc : ∀ c q, c :: q ∈ t.blocked [] → c < σ.computations.length
  linked : ∀ p ∈ t.blocked [], pathEdges p ⊆ σ.dag
  targets : ∀ f c, (f, c) ∈ σ.dag → c < σ.computations.length
  waits : σ.cycleError = none → ∀ f c, (f, c) ∈ σ.dag → σ.peek c = none → t.Waits f c
  traversed : σ.cycleError = none → ∀ f st, f :: st ∈ t.frames [] →
    σ.childrenAddedToDag f ≠ [] → pathEdges (f :: st) ⊆ σ.dag
  children : ∀ f c, c ∈ σ.childrenAddedToDag f → (f, c) ∈ σ.dag
  acyclic : Acyclic (Edge σ.dag)

theorem Waiting.empty {r : Reply N V X} (hdag : σ.dag = []) (hcomputations : σ.computations = []) :
    Waiting σ (.leaf (.ret r)) where
  unfilled c hc := absurd hc not_mem_nil
  running c hc := by
    rw [hcomputations] at hc
    exact absurd hc (Nat.not_lt_zero c)
  alloc c q hcq := absurd hcq not_mem_nil
  linked p hp := absurd hp not_mem_nil
  targets f c hfc := by
    rw [hdag] at hfc
    exact absurd hfc not_mem_nil
  waits _ f c hfc := by
    rw [hdag] at hfc
    exact absurd hfc not_mem_nil
  traversed _ f st hst := absurd hst not_mem_nil
  children f c hc := by
    rw [Store.childrenAddedToDag, hcomputations] at hc
    exact absurd hc not_mem_nil
  acyclic a ha := by
    obtain ⟨z, hz, -⟩ := TransGen.head'_iff.mp ha
    rw [Edge, hdag] at hz
    exact absurd hz not_mem_nil

/-- Between two requests, every computation has its result. -/
theorem Waiting.request {r : Reply N V X} {code : MemoCode N V X} (h : Waiting σ (.leaf (.ret r)))
    (hcode : (leaf code).blocked [] = []) :
    Waiting { σ with cycleError := none } (.leaf code) where
  unfilled := nofun
  running c hc hnone := nomatch h.running c hc hnone
  alloc c q hmem := by
    rw [hcode] at hmem
    cases hmem
  linked p hp := by
    rw [hcode] at hp
    cases hp
  targets := h.targets
  waits _ f c hfc hnone := nomatch h.running c (h.targets f c hfc) hnone
  traversed _ := nofun
  children := h.children
  acyclic := h.acyclic

/-- A step that changes neither the graph nor the computations, and no call stack but for that of
a task that need not wait any more. -/
theorem Waiting.same (h : Waiting σ t) (hdag : σ'.dag = σ.dag)
    (herror : σ'.cycleError = σ.cycleError) (hcomputations : σ'.computations = σ.computations)
    (hframes : t'.frames [] = t.frames []) (hsub : t'.blocked [] ⊆ t.blocked [])
    (hblocked : ∀ c q, c :: q ∈ t.blocked [] → σ.peek c = none → c :: q ∈ t'.blocked []) :
    Waiting σ' t' := by
  have howned : ∀ c, c ∈ t'.owned ↔ c ∈ t.owned := by
    intro c
    rw [mem_owned_iff [], mem_owned_iff [], hframes]
  have hpeek : σ'.peek = σ.peek := by
    unfold Store.peek
    rw [hcomputations]
  have hchildren : σ'.childrenAddedToDag = σ.childrenAddedToDag := by
    unfold Store.childrenAddedToDag
    rw [hcomputations]
  constructor <;> simp only [howned, hpeek, hchildren, hcomputations, hdag, herror, hframes]
  · exact h.unfilled
  · exact h.running
  · exact fun c q hmem => h.alloc c q (hsub hmem)
  · exact fun p hp => h.linked p (hsub hp)
  · exact h.targets
  · intro hnone f c hfc hnone'
    obtain ⟨st, hmem | hmem⟩ := h.waits hnone f c hfc hnone'
    · exact ⟨st, .inl (hframes ▸ hmem)⟩
    · exact ⟨st, .inr (hblocked c _ hmem hnone')⟩
  · exact h.traversed
  · exact h.children
  · exact h.acyclic

variable {n : N} {phase : Phase} {state : State} {st p : List Nat} {c f x : Nat}
  {o : Option (List N)}

/-- A new computation has neither a result nor children. -/
theorem read_start [DecidableEq N] {α : Type} {g : Option (Computation N) → α} (c : Nat)
    (hg : g (some ⟨n, phase, none, []⟩) = g none) :
    g ((σ.start n phase state).computations[c]?) = g σ.computations[c]? := by
  have happ : (σ.start n phase state).computations[c]? =
      (σ.computations ++ [⟨n, phase, none, []⟩])[c]? := rfl
  rw [happ, List.getElem?_append]
  split
  · rfl
  · next hge =>
    rw [List.getElem?_eq_none (Nat.le_of_not_lt hge), List.getElem?_singleton]
    split
    · exact hg
    · rfl

theorem peek_start [DecidableEq N] (c : Nat) : (σ.start n phase state).peek c = σ.peek c :=
  read_start (g := (·.bind (·.ivar))) c rfl

theorem childrenAddedToDag_start [DecidableEq N] (c : Nat) :
    (σ.start n phase state).childrenAddedToDag c = σ.childrenAddedToDag c :=
  read_start (g := fun x => (x.map Computation.childrenAddedToDag).getD []) c rfl

variable {fl fr : List (List Nat)}

theorem Waiting.force [DecidableEq N] (h : Waiting σ t) (hframes : t.frames [] = fl ++ fr)
    (hframes' : t'.frames [] = fl ++ (σ.computations.length :: st) :: fr)
    (hblocked : t'.blocked [] = t.blocked []) : Waiting (σ.start n phase state) t' := by
  have hmem (p : List Nat) : p ∈ t'.frames [] ↔
      p ∈ t.frames [] ∨ p = σ.computations.length :: st := by
    rw [hframes, hframes']
    simp only [mem_append, mem_cons]
    tauto
  have howned (c : Nat) : c ∈ t'.owned ↔ c ∈ t.owned ∨ c = σ.computations.length := by
    rw [mem_owned_iff [], mem_owned_iff []]
    simp [hmem, exists_or]
  have hlength : (σ.start n phase state).computations.length = σ.computations.length + 1 :=
    length_append
  have hnew : σ.peek σ.computations.length = none := by
    rw [Store.peek, List.getElem?_eq_none (Nat.le_refl _)]
    rfl
  refine ⟨?_, ?_, ?_, ?_, ?_, ?_, ?_, ?_, h.acyclic⟩ <;>
    simp only [howned, peek_start, childrenAddedToDag_start, hlength, hblocked]
  · rintro c (hc | rfl)
    · exact h.unfilled c hc
    · exact hnew
  · intro c hc hnone
    exact (Nat.lt_succ_iff_lt_or_eq.mp hc).imp_left fun hc => h.running c hc hnone
  · exact fun c q hcq => Nat.lt_succ_of_lt (h.alloc c q hcq)
  · exact h.linked
  · exact fun f c hfc => Nat.lt_succ_of_lt (h.targets f c hfc)
  · intro hnone f c hfc hpeek
    obtain ⟨st', hst' | hst'⟩ := h.waits hnone f c hfc hpeek
    · exact ⟨st', .inl ((hmem _).mpr (.inl hst'))⟩
    · exact ⟨st', .inr (hblocked ▸ hst')⟩
  · intro hnone f st' hf hne
    rcases (hmem _).mp hf with hf | heq
    · exact h.traversed hnone f st' hf hne
    · cases heq
      rw [Store.childrenAddedToDag, List.getElem?_eq_none (Nat.le_refl _)] at hne
      exact absurd rfl hne
  · exact h.children

theorem peek_fill (r : Result N) (c' : Nat) (hc : c' ≠ c) : (σ.fill c r).peek c' = σ.peek c' := by
  rw [Store.peek, Store.peek, Store.getElem?_fill]
  cases σ.computations[c']? with
  | none => rfl
  | some x =>
    simp [if_neg fun heq => hc (Eq.symm heq)]

theorem peek_fill_self (r : Result N) (hc : c < σ.computations.length) :
    (σ.fill c r).peek c ≠ none := by
  rw [Store.peek, Store.getElem?_fill, List.getElem?_eq_getElem hc]
  simp

theorem childrenAddedToDag_fill (c : Nat) (r : Result N) (c' : Nat) :
    (σ.fill c r).childrenAddedToDag c' = σ.childrenAddedToDag c' := by
  rw [Store.childrenAddedToDag, Store.childrenAddedToDag, Store.getElem?_fill]
  cases σ.computations[c']? <;> rfl

theorem Waiting.fill {r : Result N} (h : Waiting σ t) (hnodup : t.owned.Nodup)
    (hc : c < σ.computations.length) (hframes : t.frames [] = fl ++ (c :: st) :: fr)
    (hframes' : t'.frames [] = fl ++ fr) (hblocked : t'.blocked [] = t.blocked []) :
    Waiting (σ.fill c r) t' := by
  have hsub (p : List Nat) (hp : p ∈ t'.frames []) : p ∈ t.frames [] := by grind
  have hkeep (c' : Nat) (q : List Nat) (hq : c' :: q ∈ t.frames []) (hne : c' ≠ c) :
      c' :: q ∈ t'.frames [] := by
    grind
  have hgone (q : List Nat) (hq : c :: q ∈ t'.frames []) : False := by
    have hheads := map_head?_frames [] t
    rw [hframes, map_append, map_cons] at hheads
    have hnd := hnodup.map (Option.some_injective Nat)
    rw [← hheads, nodup_middle, nodup_cons] at hnd
    apply hnd.1
    rw [← map_append, ← hframes']
    exact mem_map.mpr ⟨c :: q, hq, rfl⟩
  have hlength : (σ.fill c r).computations.length = σ.computations.length := length_modify _ _ _
  have hpeek (c' : Nat) : (σ.fill c r).peek c' = none ↔ c' ≠ c ∧ σ.peek c' = none := by
    by_cases hne : c' = c
    · simp [hne, peek_fill_self r hc]
    · simp [hne, peek_fill r c' hne]
  refine ⟨?_, ?_, ?_, ?_, ?_, ?_, ?_, ?_, h.acyclic⟩ <;>
    simp only [mem_owned_iff [], hpeek, childrenAddedToDag_fill, hlength, hblocked]
  · rintro c' ⟨q, hq⟩
    refine ⟨by rintro rfl; exact hgone q hq, h.unfilled c' ?_⟩
    exact (mem_owned_iff []).mpr ⟨q, hsub _ hq⟩
  · rintro c' hc' ⟨hne, hnone⟩
    obtain ⟨q, hq⟩ := (mem_owned_iff []).mp (h.running c' hc' hnone)
    exact ⟨q, hkeep c' q hq hne⟩
  · exact h.alloc
  · exact h.linked
  · exact h.targets
  · rintro hnone f c' hfc ⟨hne, hnone'⟩
    obtain ⟨st', hst' | hst'⟩ := h.waits hnone f c' hfc hnone'
    · exact ⟨st', .inl (hkeep c' _ hst' hne)⟩
    · exact ⟨st', .inr (hblocked ▸ hst')⟩
  · exact fun hnone f st' hf => h.traversed hnone f st' (hsub _ hf)
  · exact h.children

theorem pathEdges_mem {f g : Nat} {p : List Nat} (h : (f, g) ∈ pathEdges p) :
    ∃ rest, g :: f :: rest <:+ p := by
  match p with
  | c :: d :: st =>
    rcases mem_cons.mp h with heq | h
    · cases heq
      exact ⟨st, suffix_refl _⟩
    · obtain ⟨rest, hsuffix⟩ := pathEdges_mem h
      exact ⟨rest, hsuffix.trans (suffix_cons c _)⟩

/-- The call stack under which a task runs. -/
def IsStack (t : Tree (Store N V X) (Reply N V X) Nat (Op N)) (st : List Nat) : Prop :=
  st = [] ∨ st ∈ t.frames []

theorem IsStack.waits (h : IsStack t st) (hfg : (f, g) ∈ pathEdges st) : t.Waits f g := by
  obtain ⟨rest, hsuffix⟩ := pathEdges_mem hfg
  rcases h with rfl | hst
  · exact absurd (suffix_nil.mp hsuffix) (cons_ne_nil _ _)
  · exact ⟨rest, .inl (frames_suffix hst hsuffix)⟩

theorem IsStack.mem_owned (h : IsStack t st) (hf : f ∈ st) : f ∈ t.owned := by
  rcases h with rfl | hst
  · cases hf
  · exact mem_owned_of_frames hst hf

theorem IsStack.nodup (h : IsStack t st) (hnodup : t.owned.Nodup) : st.Nodup := by
  rcases h with rfl | hst
  · exact nodup_nil
  · exact frames_nodup hnodup hst

variable {D : CycleDetection}

section

variable (h : Waiting σ t) (hnodup : t.owned.Nodup)
  (halloc : ∀ c ∈ t.owned, c < σ.computations.length) (hrec : σ.Recorded) (hst : IsStack t st)
include h hnodup halloc hrec hst

/-- Adding the call stack of a task to the graph, while no cycle has been found. -/
theorem Waiting.addsPath (herror : σ.cycleError = none)
    (hadd : Store.addPathImpl D st c σ = some (σ', o)) : Store.AddsPath σ st c σ' o := by
  apply Store.addPathImpl_addsPath _ (hst.nodup hnodup) hrec h.children h.acyclic _ hadd
  · exact fun f hf => halloc f (hst.mem_owned hf)
  · intro f rest hsuffix hne
    rcases hst with rfl | hst
    · exact absurd (suffix_nil.mp hsuffix) (cons_ne_nil _ _)
    · exact h.traversed herror f rest (frames_suffix hst hsuffix) hne

/-- A task has added its call stack to the graph. It is blocked unless a cycle has been found. -/
theorem Waiting.addPathTo {bl br : List (List Nat)} (hc : c < σ.computations.length)
    (hadd : σ.addPathTo D st c = some (σ', o)) (hframes : t'.frames [] = t.frames [])
    (hblocked : t.blocked [] = bl ++ br) (hblocked' : t'.blocked [] =
      bl ++ ((if o.isSome then none else some c).toList.map (· :: st) ++ br)) : Waiting σ' t' := by
  have hmem (p : List Nat) :
      p ∈ t'.blocked [] ↔ p ∈ t.blocked [] ∨ o = none ∧ p = c :: st := by
    rw [hblocked, hblocked']
    cases o <;> simp [or_comm, or_left_comm]
  have howned (c : Nat) : c ∈ t'.owned ↔ c ∈ t.owned := by
    rw [mem_owned_iff [], mem_owned_iff [], hframes]
  unfold Store.addPathTo at hadd
  split at hadd
  · -- A cycle was found before, so that the graph is left alone.
    cases hadd
    refine h.same rfl rfl rfl hframes (fun p hp => ?_) fun c' q hmem' _ => ?_
    · exact ((hmem p).mp hp).resolve_right fun h => Option.some_ne_none _ h.1
    · exact (hmem _).mpr (.inl hmem')
  · next herror =>
    obtain ⟨σ₁, o₁, heq, hsame, -⟩ := Store.addPathImpl_spec D c
      (fun f hf => halloc f (hst.mem_owned hf)) hrec
    have hadds := h.addsPath hnodup halloc hrec hst herror heq
    have hlength := hsame.length_eq
    -- what does not depend on whether a cycle has been found
    have hboth (hdag : σ'.dag = σ₁.dag) (hcomputations : σ'.computations = σ₁.computations)
        (hlinked : o = none → o₁ = none)
        (hwaits : σ'.cycleError = none → o = none) : Waiting σ' t' := by
      have hpeek : σ'.peek = σ.peek := by
        funext c
        rw [← hsame.peek, Store.peek, hcomputations, Store.peek]
      have hchildren : σ'.childrenAddedToDag = σ₁.childrenAddedToDag := by
        unfold Store.childrenAddedToDag
        rw [hcomputations]
      constructor <;> simp only [howned, hpeek, hchildren, hcomputations, hlength, hdag, hframes]
      · exact h.unfilled
      · exact h.running
      · intro c' q hcq
        rcases (hmem _).mp hcq with hold | ⟨-, heq⟩
        · exact h.alloc c' q hold
        · cases heq
          exact hc
      · intro p hp
        rcases (hmem p).mp hp with hold | ⟨ho, rfl⟩
        · exact fun e he => hadds.subset (h.linked p hold he)
        · exact hadds.added (hlinked ho)
      · intro f g hfg
        rcases hadds.new _ hfg with hold | hnew
        · exact h.targets f g hold
        · obtain ⟨rest, hsuffix⟩ := pathEdges_mem hnew
          rcases mem_cons.mp (hsuffix.subset mem_cons_self) with rfl | hg
          · exact hc
          · exact halloc g (hst.mem_owned hg)
      · intro hnone f g hfg hpeek
        rcases hadds.new _ hfg with hold | hnew
        · obtain ⟨st', hst' | hst'⟩ := h.waits herror f g hold hpeek
          · exact ⟨st', .inl (hframes ▸ hst')⟩
          · exact ⟨st', .inr ((hmem _).mpr (.inl hst'))⟩
        · obtain ⟨rest, hsuffix⟩ := pathEdges_mem hnew
          refine ⟨rest, ?_⟩
          rcases suffix_cons_iff.mp hsuffix with heq' | hsuffix
          · exact .inr ((hmem _).mpr (.inr ⟨hwaits hnone, heq'⟩))
          · rw [hframes]
            rcases hst with rfl | hst
            · exact absurd (suffix_nil.mp hsuffix) (cons_ne_nil _ _)
            · exact .inl (frames_suffix hst hsuffix)
      · intro hnone f st' hf hne
        by_cases hfst : f ∈ st
        · -- The frame is one of the call stack that has been added as a whole.
          obtain ⟨l, r, hsplit⟩ := append_of_mem hfst
          have hsuffix : f :: r <:+ st := hsplit ▸ suffix_append l (f :: r)
          have hst₀ : st ∈ t.frames [] := hst.resolve_left (ne_nil_of_mem hfst)
          have heq' := frames_unique hnodup hf (frames_suffix hst₀ hsuffix)
          subst heq'
          have hpath := hadds.added (hlinked (hwaits hnone))
          exact fun e he => hpath (pathEdges_suffix (hsuffix.trans (suffix_cons c st)) he)
        · rw [hadds.others f hfst] at hne
          exact fun e he => hadds.subset (h.traversed herror f st' hf hne he)
      · exact hadds.children
      · exact hadds.acyclic
    rw [heq] at hadd
    cases o₁ with
    | some cycle =>
      cases hadd
      exact hboth rfl rfl nofun nofun
    | none =>
      cases hadd
      exact hboth rfl rfl (fun _ => rfl) fun _ => rfl

end

/-! ## The graph finds all cycles of waiting computations -/

theorem tail_mem_frames (h : c :: f :: st ∈ t.frames [] ∨ c :: f :: st ∈ t.blocked []) :
    f :: st ∈ t.frames [] := by
  obtain ⟨_, _, heq, htail⟩ := stack_tail t h
  cases heq
  exact htail.resolve_left (cons_ne_nil _ _)

/-- When the call stack of a computation is in a graph with the call stacks of the blocked tasks,
then so are all paths of waiting computations that lead to it. -/
theorem Waiting.path {dag : List (Nat × Nat)} {z : Nat} {r : List Nat} (h : Waiting σ t)
    (hnodup : t.owned.Nodup) (hdag : σ.dag ⊆ dag) (hx : x :: r ∈ t.frames [])
    (hpath : pathEdges (x :: r) ⊆ dag) (hz : ReflTransGen t.Waits z x) :
    ReflTransGen (Edge dag) z x ∧ ∀ r', z :: r' ∈ t.frames [] → pathEdges (z :: r') ⊆ dag := by
  induction hz using ReflTransGen.head_induction_on with
  | refl =>
    refine ⟨.refl, fun r' hr' => ?_⟩
    rw [frames_unique hnodup hr' hx]
    exact hpath
  | @head z y hzy _ ih =>
    obtain ⟨st, hst⟩ := hzy
    have hedges : pathEdges (y :: z :: st) ⊆ dag := by
      rcases hst with hst | hst
      · exact ih.2 _ hst
      · exact fun e he => hdag (h.linked _ hst he)
    obtain ⟨hedge, hrest⟩ := cons_subset.mp hedges
    refine ⟨ih.1.head hedge, fun r' hr' => ?_⟩
    rw [frames_unique hnodup hr' (tail_mem_frames hst)]
    exact hrest

/-- The first computation has forced the second one. -/
def Forces (t : Tree (Store N V X) (Reply N V X) Nat (Op N)) (a b : Nat) : Prop :=
  ∃ st, b :: a :: st ∈ t.frames []

theorem transGen_waits (h : TransGen t.Waits x y) :
    TransGen (Forces t) x y ∨ ∃ a b st, ReflTransGen t.Waits x a ∧ b :: a :: st ∈ t.blocked [] ∧
      ReflTransGen t.Waits b y := by
  induction h with
  | single hedge =>
    obtain ⟨st, hst | hst⟩ := hedge
    · exact .inl (.single ⟨st, hst⟩)
    · exact .inr ⟨_, _, st, .refl, hst, .refl⟩
  | tail hpath hedge ih =>
    rcases ih with hforces | ⟨a, b, st, hxa, hab, hby⟩
    · obtain ⟨st, hst | hst⟩ := hedge
      · exact .inl (hforces.tail ⟨st, hst⟩)
      · exact .inr ⟨_, _, st, hpath.to_reflTransGen, hst, .refl⟩
    · exact .inr ⟨a, b, st, hxa, hab, hby.tail hedge⟩

theorem forces_length (hnodup : t.owned.Nodup) (hp : x :: p ∈ t.frames [])
    (h : TransGen (Forces t) x y) : ∃ q, y :: q ∈ t.frames [] ∧ p.length < q.length := by
  induction h with
  | single hedge =>
    obtain ⟨st, hst⟩ := hedge
    rw [frames_unique hnodup hp (tail_mem_frames (.inl hst))]
    exact ⟨_, hst, Nat.lt_succ_self _⟩
  | tail _ hedge ih =>
    obtain ⟨q, hq, hlt⟩ := ih
    obtain ⟨st, hst⟩ := hedge
    rw [frames_unique hnodup hq (tail_mem_frames (.inl hst))] at hlt
    exact ⟨_, hst, Nat.lt_succ_of_lt hlt⟩

/-- No cycle of computations wait for each other. -/
theorem Waiting.waits_acyclic (h : Waiting σ t) (hnodup : t.owned.Nodup) : Acyclic t.Waits := by
  intro x hx
  rcases transGen_waits hx with hforces | ⟨a, b, st, hxa, hab, hbx⟩
  · -- Call stacks grow along the computations that are forced.
    obtain ⟨z, ⟨st, hst⟩, -⟩ := TransGen.head'_iff.mp hforces
    have hframe := tail_mem_frames (.inl hst)
    obtain ⟨q, hq, hlt⟩ := forces_length hnodup hframe hforces
    rw [frames_unique hnodup hq hframe] at hlt
    exact Nat.lt_irrefl _ hlt
  · -- A blocked task has its call stack in the graph, and with it the whole cycle.
    obtain ⟨hedge, hrest⟩ := cons_subset.mp (h.linked _ hab)
    have hpath := h.path hnodup (fun _ he => he) (tail_mem_frames (.inr hab)) hrest (hbx.trans hxa)
    exact h.acyclic a (TransGen.head' hedge hpath.1)

/-- Paths of the graph that end at a running computation are paths of waiting computations, but for
the edge that has been added for the task itself. -/
theorem Waiting.path_waits {u : Nat} {rest : List Nat} {σ₁ : Store N V X} (h : Waiting σ t)
    (herror : σ.cycleError = none) (hst : IsStack t (f :: rest))
    (hadds : Store.AddsPath σ (f :: rest) c σ₁ o) (hu : u ∈ t.owned)
    (hpath : ReflTransGen (Edge σ₁.dag) g u) :
    ReflTransGen (fun a b => t.Waits a b ∨ a = f ∧ b = c) g u := by
  induction hpath with
  | refl => exact .refl
  | @tail y u hgy hyu ih =>
    have hedge : t.Waits y u ∨ y = f ∧ u = c := by
      rcases hadds.new _ hyu with hold | hnew
      · exact .inl (h.waits herror y u hold (h.unfilled u hu))
      · rcases mem_cons.mp hnew with heq | hnew
        · exact .inr (Prod.mk.inj heq)
        · exact .inl (hst.waits hnew)
    have hy : y ∈ t.owned := by
      rcases hedge with ⟨st, hst'⟩ | ⟨rfl, -⟩
      · exact (mem_owned_iff []).mpr ⟨st, tail_mem_frames hst'⟩
      · exact hst.mem_owned mem_cons_self
    exact (ih hy).tail hedge

/-- `add_path_to` finds a cycle exactly when the computation that the task is to wait for waits for
that of the task itself. -/
theorem Waiting.addPathTo_isSome (h : Waiting σ t) (hnodup : t.owned.Nodup)
    (halloc : ∀ c ∈ t.owned, c < σ.computations.length) (hrec : σ.Recorded) (hst : IsStack t st)
    (hadd : σ.addPathTo D st c = some (σ', o)) :
    o.isSome ↔ σ.cycleError.isSome ∨ ∃ f rest, st = f :: rest ∧ ReflTransGen t.Waits c f := by
  unfold Store.addPathTo at hadd
  split at hadd
  · next cycle herror =>
    cases hadd
    rw [herror]
    exact ⟨fun _ => .inl rfl, fun _ => rfl⟩
  · next herror =>
    rw [herror]
    obtain ⟨σ₁, o₁, heq, -⟩ := Store.addPathImpl_spec D c
      (fun f hf => halloc f (hst.mem_owned hf)) hrec
    have hadds := h.addsPath hnodup halloc hrec hst herror heq
    have ho : o.isSome = o₁.isSome := by
      rw [heq] at hadd
      cases o₁ <;> cases hadd <;> rfl
    rw [ho]
    constructor
    · intro hsome
      obtain ⟨f, g, hfg, hpath⟩ := hadds.cycle hsome
      cases st with
      | nil => cases hfg
      | cons top rest =>
        refine .inr ⟨top, rest, rfl, ?_⟩
        have hf : f ∈ top :: rest := by
          rcases mem_cons.mp hfg with heq | hmem
          · cases heq
            exact mem_cons_self
          · obtain ⟨_, hsuffix⟩ := pathEdges_mem hmem
            exact hsuffix.subset (mem_cons_of_mem _ mem_cons_self)
        have hwaits := h.path_waits herror hst hadds (hst.mem_owned hf) hpath
        have hedge : t.Waits f g ∨ f = top ∧ g = c := by
          rcases mem_cons.mp hfg with heq | hmem
          · exact .inr (Prod.mk.inj heq)
          · exact .inl (hst.waits hmem)
        exact reflTransGen_of_cycle (h.waits_acyclic hnodup) (TransGen.head' hedge hwaits)
    · rintro (hfalse | ⟨f, rest, rfl, hreach⟩)
      · cases hfalse
      · by_contra hnone
        have hnone' : o₁ = none := by
          cases o₁ with
          | none => rfl
          | some cycle => exact absurd rfl hnone
        obtain ⟨hedge, hrest⟩ := cons_subset.mp (hadds.added hnone')
        have hframe := hst.resolve_left (cons_ne_nil _ _)
        have hpath := h.path hnodup hadds.subset hframe hrest hreach
        exact hadds.acyclic f (TransGen.head' hedge hpath.1)

/-! ## Progress -/

section

variable {d : Nat} {s : Tree (Store N V X) (Reply N V X) Nat (Op N)}
  (hactive : Tree.Active [] t (c :: st) s)
include hactive

/-- A computation waits for those that its tasks are blocked on. -/
theorem waits_of_frames (hp : d :: p ∈ s.frames (c :: st)) : TransGen t.Waits c d := by
  induction p generalizing d with
  | nil =>
    obtain ⟨_, _, heq, htail⟩ := stack_tail s (.inl hp)
    cases heq
    rcases htail with heq | hmem
    · cases heq
    · obtain ⟨_, _, heq, -⟩ := stack_tail s (.inl hmem)
      cases heq
  | cons d' p ih =>
    obtain ⟨_, _, heq, htail⟩ := stack_tail s (.inl hp)
    cases heq
    have hedge : t.Waits d' d := ⟨p, .inl (hactive.frames_subset hp)⟩
    rcases htail with heq | hmem
    · cases heq
      exact .single hedge
    · exact (ih hmem).tail hedge

theorem waits_of_blocked (hp : d :: p ∈ s.blocked (c :: st)) : TransGen t.Waits c d := by
  obtain ⟨_, _, heq, htail⟩ := stack_tail s (.inr hp)
  cases heq
  have hblocked := hactive.blocked_subset hp
  rcases htail with rfl | hmem
  · exact .single ⟨st, .inr hblocked⟩
  · obtain ⟨d', q, rfl, -⟩ := stack_tail s (.inl hmem)
    exact (waits_of_frames hactive hmem).tail ⟨q, .inr hblocked⟩

end

variable [DecidableEq N] [DecidableEq X] {S : Spec N V X}

theorem Waiting.step (h : Waiting σ t) (hconsistent : Consistent D S σ t)
    (hshaped : t.Shaped (Footprint D S) Reply.blocks)
    (hstep : Step (machine D S) [] σ t σ' t') : Waiting σ' t' := by
  have hnodup : t.owned.Nodup := hconsistent.owns.nodup
  have halloc : ∀ c ∈ t.owned, c < σ.computations.length := hconsistent.owns.alloc
  cases hstep.changes shaped_body ivar_blocks hshaped with
  | silent hframes hblocked =>
    exact h.same rfl rfl rfl hframes (fun p hp => hblocked ▸ hp) fun _ _ hmem _ => hblocked ▸ hmem
  | @wake _ c q r bl br hivar hframes hblocked hblocked' =>
    refine h.same rfl rfl rfl hframes (fun p hp => ?_) fun c' q' hmem hpeek => ?_
    · grind
    · have hne : c' ≠ c := by
        rintro rfl
        obtain ⟨res, hsome, -⟩ := Option.map_eq_some_iff.mp hivar
        rw [hpeek] at hsome
        cases hsome
      grind
  | atomic hf heq hactive hframes hblocked hblocked' =>
    rcases hf _ _ _ _ heq with
      ⟨-, hdag, herror, hcomputations, hnone⟩ | ⟨c, o, hheld, -, hadd, hblocks⟩
    · rw [hnone] at hblocked'
      have hsame : t'.blocked [] = t.blocked [] := hblocked'.trans hblocked.symm
      exact h.same hdag herror hcomputations hframes (fun p hp => hsame ▸ hp)
        fun _ _ hmem _ => hsame ▸ hmem
    · rw [hblocks] at hblocked'
      exact h.addPathTo hnodup halloc hconsistent.inv.recorded hactive.stack
        (halloc c (hconsistent.held c hheld)) hadd hframes hblocked hblocked'
  | force hf heq hactive hframes hframes' hblocked =>
    obtain ⟨rfl, n, phase, state, rfl⟩ := hf _ _ _ _ heq
    exact h.force hframes hframes' hblocked
  | @fill _ st c op r k fl fr hactive hframes hframes' hblocked =>
    obtain ⟨own, P, hsafe⟩ := hconsistent.safe.active hactive
    obtain ⟨-, phase, n, res, -, rfl, hc, -⟩ := hsafe.2.1
    exact h.fill hnodup hc.lt hframes hframes' hblocked

/-- A running computation waits for another one, unless the tasks can make a step. -/
theorem Waiting.exists_waits (h : Waiting σ t) (hsucceeds : t.Succeeds [] σ)
    (hstuck : ∀ σ' t', ¬Step (machine D S) [] σ t σ' t') (hc : c < σ.computations.length)
    (hpeek : σ.peek c = none) :
    ∃ d, d < σ.computations.length ∧ σ.peek d = none ∧ TransGen t.Waits c d := by
  obtain ⟨q, hq⟩ := (mem_owned_iff []).mp (h.running c hc hpeek)
  obtain ⟨op, s, k, hforced⟩ := exists_active_of_mem_frames t hq
  have hactive : Tree.Active [] t (c :: q) s := hforced.trans (.forced .here)
  have hs : s.Succeeds (c :: q) σ := fun st' f k kf h' => hsucceeds st' f k kf (hactive.trans h')
  cases progress (machine D S) s hs with
  | ret r heq =>
    subst heq
    obtain ⟨t', hstep⟩ := hforced.step (M := machine D S) (σ := σ) (.head .forcedRet)
    exact absurd hstep (hstuck _ _)
  | step hstep =>
    obtain ⟨t', hstep'⟩ := hactive.step hstep
    exact absurd hstep' (hstuck _ _)
  | @blocked d p hmem hivar =>
    exact ⟨d, h.alloc d p (hactive.blocked_subset hmem), Option.map_eq_none_iff.mp hivar,
      waits_of_blocked hactive hmem⟩

/-- The tasks never deadlock. -/
theorem Waiting.progress (h : Waiting σ t) (hconsistent : Consistent D S σ t) :
    (∃ r, t = .leaf (.ret r)) ∨ ∃ σ' t', Step (machine D S) [] σ t σ' t' := by
  have hsucceeds : t.Succeeds [] σ := by
    intro st f k kf hactive
    obtain ⟨σ', o, heq⟩ := hconsistent.safe.atomic hactive hconsistent.inv
    exact Option.isSome_iff_exists.mpr ⟨_, heq⟩
  cases Tree.progress (machine D S) t hsucceeds with
  | ret r heq => exact .inl ⟨r, heq⟩
  | step hstep => exact .inr ⟨_, _, hstep⟩
  | @blocked c q hmem hivar =>
    right
    by_contra hstuck
    simp only [not_exists] at hstuck
    -- Otherwise there is no last one among the running computations.
    let after (a b : Fin σ.computations.length) : Prop := TransGen t.Waits b a
    have : IsTrans _ after := ⟨fun _ _ _ hab hbc => hbc.trans hab⟩
    have : Std.Irrefl after := ⟨fun a => h.waits_acyclic hconsistent.owns.nodup a⟩
    have hwf : WellFounded after := Finite.wellFounded_of_trans_of_irrefl after
    obtain ⟨m, hm, hmin⟩ := hwf.has_min {a | σ.peek a = none}
      ⟨⟨c, h.alloc c q hmem⟩, Option.map_eq_none_iff.mp hivar⟩
    obtain ⟨d, hd, hpeek, hmd⟩ := h.exists_waits hsucceeds hstuck m.2 hm
    exact hmin ⟨d, hd⟩ hpeek hmd

theorem Reachable.waiting (h : Reachable D S σ t) : Waiting σ t := by
  induction h with
  | init inputs =>
    exact .empty rfl rfl
  | request p h ih =>
    exact ih.request (blocked_leaf [] (shaped_request D S p))
  | step h hstep ih => exact ih.step h.consistent h.shaped hstep
  | cancel checkPoint _ ih =>
    exact ih.same rfl rfl rfl rfl (fun _ hp => hp) fun _ _ hmem _ => hmem
  | reset invalidation inputs h hreset ih =>
    obtain ⟨σ₁, heq, -⟩ := h.consistent.idle.execute invalidation
    rw [Memo.reset, heq] at hreset
    cases hreset
    exact .empty rfl rfl

/-- The cycle detection is exact. No cycle of computations wait for each other, the tasks never
deadlock, and a task that is to wait for a running computation is told of a cycle exactly when this
computation waits for that of the task, or when a cycle has been found before. No edge is added to
the graph twice, since that would fail. -/
theorem addPathTo_exact (h : Reachable D S σ t) :
    (∀ c, ¬TransGen t.Waits c c) ∧
    ((∃ r, t = .leaf (.ret r)) ∨ ∃ σ' t', Step (machine D S) [] σ t σ' t') ∧
    ∀ st s c, Tree.Active [] t st s → c < σ.computations.length → σ.peek c = none →
      ∃ σ' o, σ.addPathTo D st c = some (σ', o) ∧
        (o.isSome ↔ σ.cycleError.isSome ∨
          ∃ f rest, st = f :: rest ∧ ReflTransGen t.Waits c f) := by
  have hconsistent := h.consistent
  have hnodup : t.owned.Nodup := hconsistent.owns.nodup
  have halloc : ∀ c ∈ t.owned, c < σ.computations.length := hconsistent.owns.alloc
  refine ⟨h.waiting.waits_acyclic hnodup, h.waiting.progress hconsistent,
    fun st s c hactive _ _ => ?_⟩
  have hst : IsStack t st := hactive.stack
  obtain ⟨σ', o, heq, -⟩ := Store.addPathTo_spec D c (fun f hf => halloc f (hst.mem_owned hf))
    hconsistent.inv.recorded
  exact ⟨σ', o, heq,
    h.waiting.addPathTo_isSome hnodup halloc hconsistent.inv.recorded hst heq⟩

end Waiting

local instance neZero_three : NeZero 3 := ⟨Nat.succ_ne_zero 2⟩

/-- A node that reads itself, a variable, and a node that reads the variable. -/
def loopAndReader : Spec (Fin 3) Unit Unit where
  f
    | 0 => .prog (.read 0 .ret)
    | 1 => .var
    | 2 => .prog (.read 1 .ret)
  cutoff _ := none

def readAll : Prog (Fin 3) Unit Unit :=
  .par [.read 0 .ret, .read 1 .ret, .read 2 .ret] fun _ => .ret (.ok ())

/-- The state in which all three nodes are being computed. -/
def allForced : Store (Fin 3) Unit Unit :=
  (((Store.init fun _ => ()).start 1 .compute (.computing 0)).start 2 .compute (.computing 1)).start
    0 .compute (.computing 2)

/-- After a cycle has been found, a node that reads a variable while it is being computed is told of
that cycle, though it does not wait for anything that waits for it. -/
theorem addPathTo_reports_other_cycle :
    ∃ σ t k cycle, Reachable CycleDetection.search loopAndReader σ t ∧
      Tree.Active [] t [1] (.bind (.considerCompute 1) (.leaf (considerCompute .search 1)) k) ∧
      (σ.node 1).state = .computing 0 ∧ σ.peek 0 = none ∧
      σ.addPathTo .search [1] 0 = some (σ, some cycle) ∧ ¬ReflTransGen t.Waits 0 1 := by
  have h₁ := (Reachable.init (D := .search) (S := loopAndReader) fun _ => ()).request readAll
  -- The variable, the node that reads it, and the node that reads itself are being computed.
  have h₂ := Tree.run?_keeps (P := Reachable .search loopAndReader)
    ([] :: replicate 4 [1] ++ replicate 8 [2] ++ replicate 8 [0]) .step h₁ rfl
  obtain ⟨cycle, heq⟩ := considerAndCompute_self CycleDetection.search (σ := allForced)
    (n := 0) (c := 2) [] rfl rfl rfl rfl not_mem_nil
  have h₃ := h₂.step
    (.parStep (l := []) (.bind (.bind (.forced (.bind (.bind (.head (.atomic heq))))))))
  refine ⟨_, _, _, cycle, h₃, .par (mem_append_right _ (.tail _ (.tail _ (.head _))))
    (.bind (.bind (.forced (.bind .here)))), rfl, rfl, rfl, fun hpath => ?_⟩
  obtain heq | ⟨b, ⟨st, hst | hst⟩, -⟩ := ReflTransGen.cases_head hpath
  · cases heq
  · have hframes : b :: 0 :: st ∈ [[2], [0], [1]] := hst
    simp at hframes
  · cases hst

/-- The computation of a node that reads itself is told of the cycle. -/
theorem addPathTo_exact_single :
    ∃ t, Reachable CycleDetection.search (single (.prog (.read () .ret))) singleForced t ∧
      (∀ c, ¬TransGen t.Waits c c) ∧
      (∃ σ' t', Step (machine .search (single (.prog (.read () .ret)))) [] singleForced t σ' t') ∧
      ∃ σ' o, singleForced.addPathTo .search [0] 0 = some (σ', o) ∧ o.isSome := by
  obtain ⟨k, k', kf, -, h⟩ := single_forces .search (.prog (.read () .ret))
  obtain ⟨hacyclic, hprogress, hadd⟩ := addPathTo_exact h
  obtain ⟨σ', o, heq, hiff⟩ :=
    hadd [0] _ 0 (.bind (.bind (.forced .here))) Nat.one_pos rfl
  refine ⟨_, h, hacyclic, ?_, σ', o, heq, hiff.mpr (.inr ⟨0, [], rfl, .refl⟩)⟩
  exact hprogress.resolve_left nofun

end Dune.Memo
