import Dune.Memo.Exec

/-!
# Evaluation from scratch

What Memo is for: a node has a value on the inputs, which is that of its function when every node
that it reads has its own value (`Eval`). A function is run against an oracle that answers its
reads, and gives a result, the nodes that it reads and the sections in which it reads them. The
functions of the Memo monad have no error handler, so that the error of a read is the error of the
function (`Prog.Propagates`). A request demands the nodes that its evaluation reaches, also when
it never ends.
-/

namespace Dune.Memo

open List Relation Deps

variable {N V X : Type}

/-! ## Results -/

/-- The result of a node as its reader sees it. -/
def seen : Except (Errors N X) V → Except (Errors N X) V
  | .ok v => .ok v
  | .error e => .error { e with reproducible := true }

def Value.ofResult : Except (Errors N X) V → Value N V X
  | .ok v => .ok v
  | .error e => .error e

/-- A result that may be restored from the cache. -/
def Reproducible : Except (Errors N X) V → Prop
  | .ok _ => True
  | .error e => e.reproducible = true

theorem Value.get?_ofResult (x : Except (Errors N X) V) :
    (Value.ofResult x).get? = some (seen x) := by
  cases x <;> rfl

theorem Value.exists_ofResult {value : Value N V X} (h : value ≠ .uninitialized) :
    ∃ x, value = .ofResult x := by
  cases value with
  | ok v => exact ⟨.ok v, rfl⟩
  | error e => exact ⟨.error e, rfl⟩
  | uninitialized => exact absurd rfl h

theorem Value.ofResult_injective :
    Function.Injective (Value.ofResult : Except (Errors N X) V → Value N V X) := by
  intro x y h
  cases x <;> cases y <;> cases h <;> rfl

theorem Value.ofResult_ne_uninitialized (x : Except (Errors N X) V) :
    Value.ofResult x ≠ .uninitialized := by
  cases x <;> exact nofun

variable {x : Except (Errors N X) V}

theorem seen_eq_ok {v : V} (h : seen x = .ok v) : x = .ok v := by
  cases x with
  | ok w => exact h
  | error e => cases h

theorem results_cases (rs : List (Except (Errors N X) V)) :
    (∃ vs : List V, rs = vs.map .ok) ∨ ∃ e, .error e ∈ rs := by
  induction rs with
  | nil => exact .inl ⟨[], rfl⟩
  | cons r rs ih =>
    cases r with
    | error e => exact .inr ⟨e, mem_cons_self⟩
    | ok v =>
      rcases ih with ⟨vs, rfl⟩ | ⟨e, he⟩
      · exact .inl ⟨v :: vs, rfl⟩
      · exact .inr ⟨e, mem_cons_of_mem _ he⟩

/-! ## The nodes of dependencies -/

namespace Deps

mutual

/-- The nodes in the order in which they were read. -/
def nodes : Deps N → List N
  | .empty => []
  | .singleton n => [n]
  | .seq l => nodesAll l
  | .par l => nodesAll l

def nodesAll : List (Deps N) → List N
  | [] => []
  | d :: l => nodes d ++ nodesAll l

end

theorem nodesAll_append (l l' : List (Deps N)) :
    nodesAll (l ++ l') = nodesAll l ++ nodesAll l' := by
  induction l with
  | nil => rfl
  | cons d l ih => rw [cons_append, nodesAll, nodesAll, ih, append_assoc]

theorem nodesAll_singleton (d : Deps N) : nodesAll [d] = d.nodes :=
  append_nil _

/-- The sections that a section in a sequence stands for. -/
def seqParts : Deps N → List (Deps N)
  | .empty => []
  | .seq l => l
  | t => [t]

/-- The sections that a thread stands for. -/
def parParts : Deps N → List (Deps N)
  | .empty => []
  | .par l => l
  | t => [t]

/-- One section out of several. -/
def join (combine : List (Deps N) → Deps N) : List (Deps N) → Deps N
  | [] => .empty
  | [t] => t
  | flat => combine flat

section

variable (l : List (Deps N))

theorem flattenSeqs_eq : flattenSeqs l = join .seq (l.flatMap seqParts) := rfl

theorem flattenPars_eq : flattenPars l = join .par (l.flatMap parParts) := rfl

theorem nodesAll_flatMap {parts : Deps N → List (Deps N)} (h : ∀ d, nodesAll (parts d) = d.nodes)
    (l : List (Deps N)) : nodesAll (l.flatMap parts) = nodesAll l := by
  induction l with
  | nil => rfl
  | cons d l ih => rw [flatMap_cons, nodesAll_append, ih, h, nodesAll]

theorem nodes_join {combine : List (Deps N) → Deps N} (h : ∀ l, (combine l).nodes = nodesAll l)
    (l : List (Deps N)) : (join combine l).nodes = nodesAll l := by
  unfold join
  split
  · rfl
  · exact (nodesAll_singleton _).symm
  · exact h _

theorem nodes_flattenSeqs : (flattenSeqs l).nodes = nodesAll l := by
  rw [flattenSeqs_eq, nodes_join fun _ => rfl, nodesAll_flatMap]
  intro d
  cases d <;> first | rfl | exact nodesAll_singleton _

theorem nodes_flattenPars : (flattenPars l).nodes = nodesAll l := by
  rw [flattenPars_eq, nodes_join fun _ => rfl, nodesAll_flatMap]
  intro d
  cases d <;> first | rfl | exact nodesAll_singleton _

end

/-- What a parallel section adds to the sections of a function. -/
def parSection (threads : List (Deps N)) : List (Deps N) :=
  match flattenPars threads with
  | .empty => []
  | pars => [pars]

theorem appendPar_eq (t threads : List (Deps N)) :
    appendPar t threads = (parSection threads).reverse ++ t := by
  unfold appendPar parSection
  cases flattenPars threads <;> rfl

theorem nodesAll_parSection (threads : List (Deps N)) :
    nodesAll (parSection threads) = nodesAll threads := by
  have hnodes := nodes_flattenPars threads
  unfold parSection
  cases hpars : flattenPars threads <;> rw [hpars] at hnodes <;> rw [← hnodes]
  · rfl
  all_goals exact nodesAll_singleton _

/-! ## The order of demand -/

section Guarded

variable (R C : N → Prop)

mutual

/-- The check of the dependencies, in their order, reaches nodes in `R` only as long as the nodes
that it has checked before are in `C`. -/
def Guarded : Deps N → Prop
  | .empty => True
  | .singleton n => R n
  | .seq l => GuardedSeq l
  | .par l => GuardedPar l

def GuardedSeq : List (Deps N) → Prop
  | [] => True
  | d :: l => Guarded d ∧ ((∀ n ∈ d.nodes, C n) → GuardedSeq l)

def GuardedPar : List (Deps N) → Prop
  | [] => True
  | d :: l => Guarded d ∧ GuardedPar l

end

variable {R C}

variable {l : List (Deps N)} {l' : List (Deps N)}

theorem guardedSeq_append :
    GuardedSeq R C (l ++ l') ↔
      GuardedSeq R C l ∧ ((∀ n ∈ nodesAll l, C n) → GuardedSeq R C l') := by
  induction l with
  | nil => exact ⟨fun h => ⟨trivial, fun _ => h⟩, fun h => h.2 nofun⟩
  | cons d l ih =>
    rw [cons_append, GuardedSeq, GuardedSeq, ih, nodesAll]
    simp only [mem_append]
    constructor
    · rintro ⟨hd, hl⟩
      exact ⟨⟨hd, fun hC => (hl hC).1⟩, fun hC => (hl fun n hn => hC n (.inl hn)).2 fun n hn =>
        hC n (.inr hn)⟩
    · rintro ⟨⟨hd, hl⟩, hl'⟩
      exact ⟨hd, fun hC => ⟨hl hC, fun hC' => hl' fun n hn => hn.elim (hC n) (hC' n)⟩⟩

theorem guardedPar_append : GuardedPar R C (l ++ l') ↔ GuardedPar R C l ∧ GuardedPar R C l' := by
  induction l with
  | nil => exact ⟨fun h => ⟨trivial, h⟩, And.right⟩
  | cons d l ih => rw [cons_append, GuardedPar, GuardedPar, ih, and_assoc]

theorem guardedSeq_singleton {d : Deps N} : GuardedSeq R C [d] ↔ d.Guarded R C :=
  ⟨And.left, fun h => ⟨h, fun _ => trivial⟩⟩

theorem guarded_join {c : List (Deps N) → Deps N} (hcombine : (c l).Guarded R C)
    (hone : ∀ d, l = [d] → d.Guarded R C) : (join c l).Guarded R C := by
  unfold join
  split
  · trivial
  · exact hone _ rfl
  · exact hcombine

/-- Flattening keeps the order. -/
theorem guarded_flattenSeqs (h : GuardedSeq R C l) : (flattenSeqs l).Guarded R C := by
  have hflat : GuardedSeq R C (l.flatMap seqParts) := by
    induction l with
    | nil => trivial
    | cons d l ih =>
      rw [flatMap_cons, guardedSeq_append]
      cases d with
      | empty => exact ⟨trivial, fun _ => ih (h.2 nofun)⟩
      | seq l' => exact ⟨h.1, fun hC => ih (h.2 hC)⟩
      | singleton n | par l' =>
        exact ⟨guardedSeq_singleton.mpr h.1, fun hC => ih (h.2 (nodesAll_singleton _ ▸ hC))⟩
  rw [flattenSeqs_eq]
  apply guarded_join (c := .seq) hflat
  intro d hd
  rw [hd] at hflat
  exact hflat.1

theorem guarded_flattenPars (h : GuardedPar R C l) : (flattenPars l).Guarded R C := by
  have hflat : GuardedPar R C (l.flatMap parParts) := by
    induction l with
    | nil => trivial
    | cons d l ih =>
      rw [flatMap_cons, guardedPar_append]
      refine ⟨?_, ih h.2⟩
      cases d with
      | empty => trivial
      | par l' => exact h.1
      | singleton n | seq l' => exact ⟨h.1, trivial⟩
  rw [flattenPars_eq]
  apply guarded_join (c := .par) hflat
  intro d hd
  rw [hd] at hflat
  exact hflat.1

theorem guardedSeq_parSection {threads : List (Deps N)} (h : GuardedPar R C threads) :
    GuardedSeq R C (parSection threads) := by
  have hflat := guarded_flattenPars h
  unfold parSection
  cases hpars : flattenPars threads with
  | empty => trivial
  | _ =>
    rw [hpars] at hflat
    exact guardedSeq_singleton.mpr hflat

end Guarded

end Deps

/-! ## Running a function against an oracle -/

variable {ps : List (Prog N V X)}

namespace Prog

mutual

/-- The result of a function whose reads are answered by the oracle. -/
def result (α : N → Except (Errors N X) V) : Prog N V X → Except (Errors N X) V
  | .ret r => r
  | .read n k => result α (k (α n))
  | .par ps k => result α (k (results α ps))

def results (α : N → Except (Errors N X) V) : List (Prog N V X) → List (Except (Errors N X) V)
  | [] => []
  | p :: ps => result α p :: results α ps

end

mutual

def reads (α : N → Except (Errors N X) V) : Prog N V X → List N
  | .ret _ => []
  | .read n k => n :: reads α (k (α n))
  | .par ps k => readsAll α ps ++ reads α (k (results α ps))

def readsAll (α : N → Except (Errors N X) V) : List (Prog N V X) → List N
  | [] => []
  | p :: ps => reads α p ++ readsAll α ps

end

mutual

/-- The sections in which the function reads them, the first one first. -/
def sections (α : N → Except (Errors N X) V) : Prog N V X → List (Deps N)
  | .ret _ => []
  | .read n k => .singleton n :: sections α (k (α n))
  | .par [] k => sections α (k [])
  | .par [p] k => sections α p ++ sections α (k [result α p])
  | .par ps k => Deps.parSection (allSections α ps) ++ sections α (k (results α ps))

def allSections (α : N → Except (Errors N X) V) : List (Prog N V X) → List (Deps N)
  | [] => []
  | p :: ps => Deps.flattenSeqs (sections α p) :: allSections α ps

end

variable {α β : N → Except (Errors N X) V}

mutual

theorem nodesAll_sections (α : N → Except (Errors N X) V) (p : Prog N V X) :
    Deps.nodesAll (p.sections α) = p.reads α := by
  match p with
  | .ret r => rw [sections, reads, Deps.nodesAll]
  | .read n k =>
    rw [sections, reads, Deps.nodesAll, nodesAll_sections α (k (α n))]
    rfl
  | .par [] k => rw [sections, reads, results, readsAll, nodesAll_sections α (k [])]; rfl
  | .par [p] k =>
    rw [sections, reads, results, results, readsAll, readsAll, append_nil,
      nodesAll_append, nodesAll_sections α p, nodesAll_sections α (k [result α p])]
  | .par (p :: q :: ps) k =>
    rw [sections, reads, nodesAll_append, nodesAll_parSection,
      nodesAll_allSections α (p :: q :: ps),
      nodesAll_sections α (k (results α (p :: q :: ps)))]
    exact nofun
    exact nofun

theorem nodesAll_allSections (α : N → Except (Errors N X) V) (ps : List (Prog N V X)) :
    Deps.nodesAll (allSections α ps) = readsAll α ps := by
  match ps with
  | [] => rw [allSections, readsAll, Deps.nodesAll]
  | p :: ps =>
    rw [allSections, readsAll, Deps.nodesAll, nodes_flattenSeqs, nodesAll_sections α p,
      nodesAll_allSections α ps]

end

theorem mem_readsAll {n : N} : n ∈ readsAll α ps ↔ ∃ p ∈ ps, n ∈ p.reads α := by
  induction ps with
  | nil => exact ⟨nofun, nofun⟩
  | cons p ps ih => simp [readsAll, ih]

mutual

/-- What a function does depends on the answers to its reads only. -/
theorem congr (p : Prog N V X) (h : ∀ n ∈ p.reads α, n ∈ p.reads β → α n = β n) :
    p.result α = p.result β ∧ p.reads α = p.reads β ∧ p.sections α = p.sections β := by
  match p with
  | .ret r => exact ⟨rfl, rfl, rfl⟩
  | .read n k =>
    have hn : α n = β n := h n mem_cons_self mem_cons_self
    rw [result, result, reads, reads, sections, sections, ← hn]
    obtain ⟨hresult, hreads, hsections⟩ := congr (k (α n)) fun m hm hm' =>
      h m (mem_cons_of_mem _ hm) (by rw [reads, ← hn]; exact mem_cons_of_mem _ hm')
    exact ⟨hresult, by rw [hreads], by rw [hsections]⟩
  | .par ps k =>
    obtain ⟨hresults, hreadsAll, hall⟩ := congrAll ps fun m hm hm' =>
      h m (mem_append_left _ hm) (mem_append_left _ hm')
    obtain ⟨hresult, hreads, hsections⟩ := congr (k (results α ps)) fun m hm hm' =>
      h m (mem_append_right _ hm) (by
        rw [reads, ← hresults]
        exact mem_append_right _ hm')
    refine ⟨?_, ?_, ?_⟩
    · rw [result, result, ← hresults, hresult]
    · rw [reads, reads, ← hresults, hreads, hreadsAll]
    · match ps with
      | [] => exact hsections
      | [p] =>
        obtain ⟨hresult', -, hsections'⟩ := congr p fun m hm hm' =>
          h m (mem_append_left _ (mem_append_left _ hm))
            (mem_append_left _ (mem_append_left _ hm'))
        rw [sections, sections, ← hresult', hsections']
        exact congrArg _ hsections
      | p :: q :: ps =>
        rw [sections, sections, ← hresults, hsections, hall]
        all_goals exact nofun

theorem congrAll (ps : List (Prog N V X)) (h : ∀ n ∈ readsAll α ps, n ∈ readsAll β ps → α n = β n) :
    results α ps = results β ps ∧ readsAll α ps = readsAll β ps ∧
      allSections α ps = allSections β ps := by
  match ps with
  | [] => exact ⟨rfl, rfl, rfl⟩
  | p :: ps =>
    obtain ⟨hresult, hreads, hsections⟩ := congr p fun m hm hm' =>
      h m (mem_append_left _ hm) (mem_append_left _ hm')
    obtain ⟨hresults, hreadsAll, hall⟩ := congrAll ps fun m hm hm' =>
      h m (mem_append_right _ hm) (mem_append_right _ hm')
    rw [results, results, readsAll, readsAll, allSections, allSections, hresult, hreads, hsections,
      hresults, hreadsAll, hall]
    exact ⟨rfl, rfl, rfl⟩

end

/-! ## Functions without error handlers -/

/-- The function fails without reading anything, and not reproducibly if the errors are not. -/
def Raises (e : Errors N X) (p : Prog N V X) : Prop :=
  ∃ e' : Errors N X, p = .ret (.error e') ∧ (e.reproducible = false → e'.reproducible = false)

/-- The errors of a read are raised, and those of threads when all of them have ended. -/
inductive Propagates : Prog N V X → Prop
  | ret (r) : Propagates (.ret r)
  | read {n k} : (∀ e, Raises e (k (.error e))) → (∀ v, Propagates (k (.ok v))) →
      Propagates (.read n k)
  | par {ps k} : (∀ p ∈ ps, Propagates p) → (∀ rs e, .error e ∈ rs → Raises e (k rs)) →
      (∀ vs : List V, Propagates (k (vs.map .ok))) → Propagates (.par ps k)

variable {p : Prog N V X}

theorem Raises.result {e : Errors N X} (h : Raises e p) : ∃ e', p.result α = .error e' := by
  obtain ⟨e', rfl, -⟩ := h
  exact ⟨e', rfl⟩

theorem Raises.sections {e : Errors N X} (h : Raises e p) : p.sections α = [] := by
  obtain ⟨e', rfl, -⟩ := h
  rfl

theorem mem_results {r : Except (Errors N X) V} : r ∈ results α ps ↔ ∃ p ∈ ps, r = p.result α := by
  induction ps with
  | nil => exact ⟨nofun, nofun⟩
  | cons p ps ih => rw [results, mem_cons, ih, exists_mem_cons_iff]

/-- A function that does not fail has read no error. -/
theorem Propagates.reads_ok (hp : p.Propagates) {v : V} (h : p.result α = .ok v) :
    ∀ n ∈ p.reads α, ∃ w, α n = .ok w := by
  induction hp generalizing v with
  | ret r => exact nofun
  | @read n k herror _ ih =>
    rw [result] at h
    cases hn : α n with
    | error e =>
      obtain ⟨e', he'⟩ := (herror e).result (α := α)
      rw [hn, he'] at h
      cases h
    | ok w =>
      rw [hn] at h
      rw [reads, hn]
      exact forall_mem_cons.mpr ⟨⟨w, hn⟩, ih w h⟩
  | @par ps k _ herror _ ihps ih =>
    rw [result] at h
    rw [reads]
    rcases results_cases (results α ps) with ⟨vs, hvs⟩ | ⟨e, he⟩
    · rw [hvs] at h ⊢
      intro n hn
      rcases mem_append.mp hn with hn | hn
      · obtain ⟨p, hp, hn⟩ := mem_readsAll.mp hn
        obtain ⟨w, -, hw⟩ := mem_map.mp (hvs ▸ mem_results.mpr ⟨p, hp, rfl⟩)
        exact ihps p hp hw.symm n hn
      · exact ih vs h n hn
    · obtain ⟨e', he'⟩ := (herror _ e he).result (α := α)
      rw [he'] at h
      cases h

end Prog

/-! ## Evaluation -/

section Evaluation

variable (S : Spec N V X) (ι : N → V)

/-- The node has the result on the inputs. `β` are the results of the nodes that it reads. -/
inductive Eval : N → Except (Errors N X) V → Prop
  | var {n} : S.f n = .var → Eval n (.ok (ι n))
  | prog {n p} (β : N → Except (Errors N X) V) : S.f n = .prog p →
      (∀ m ∈ p.reads (seen ∘ β), Eval m (β m)) → Eval n (p.result (seen ∘ β))

/-- The function has the result on the inputs. -/
def Prog.Evaluates (p : Prog N V X) (x : Except (Errors N X) V) : Prop :=
  ∃ β, (∀ m ∈ p.reads (seen ∘ β), Eval S ι m (β m)) ∧ x = p.result (seen ∘ β)

/-- The function comes to read the node when it is evaluated. -/
inductive Reads : Prog N V X → N → Prop
  | here {n k} : Reads (.read n k) n
  | read {n k x m} : Eval S ι n x → Reads (k (seen x)) m → Reads (.read n k) m
  | thread {ps k p m} : p ∈ ps → Reads p m → Reads (.par ps k) m
  | par {ps k m} (β : N → Except (Errors N X) V) :
      (∀ n ∈ Prog.readsAll (seen ∘ β) ps, Eval S ι n (β n)) →
      Reads (k (Prog.results (seen ∘ β) ps)) m → Reads (.par ps k) m

/-- The function of the first node comes to read the second one. -/
def Needs (n m : N) : Prop := ∃ p, S.f n = .prog p ∧ Reads S ι p m

/-- The evaluation of the requests from scratch executes the function of the node. -/
def Demanded (requests : List (Prog N V X)) (n : N) : Prop :=
  ∃ p ∈ requests, ∃ m, Reads S ι p m ∧ ReflTransGen (Needs S ι) m n

/-- The evaluation of the requests comes to a node that needs itself. -/
def Cyclic (requests : List (Prog N V X)) : Prop :=
  ∃ n, Demanded S ι requests n ∧ TransGen (Needs S ι) n n

variable {S ι}

variable {n : N} {requests : List (Prog N V X)}

theorem Eval.unique {y : Except (Errors N X) V} (h : Eval S ι n x) (h' : Eval S ι n y) : x = y := by
  induction h generalizing y with
  | var hf =>
    cases h' with
    | var => rfl
    | prog β hf' => rw [hf] at hf'; cases hf'
  | @prog n p β hf _ ih =>
    cases h' with
    | var hf' => rw [hf] at hf'; cases hf'
    | @prog _ q β' hf' hβ' =>
      rw [hf] at hf'
      cases hf'
      exact (p.congr fun m hm hm' => congrArg seen (ih m hm (hβ' m hm'))).1

theorem Demanded.reads {p : Prog N V X} (hp : p ∈ requests) (h : Reads S ι p n) :
    Demanded S ι requests n :=
  ⟨p, hp, n, h, .refl⟩

theorem Demanded.needs {m : N} (h : Demanded S ι requests n) (hm : Needs S ι n m) :
    Demanded S ι requests m := by
  obtain ⟨p, hp, n', hn', hreach⟩ := h
  exact ⟨p, hp, n', hn', hreach.tail hm⟩

theorem Demanded.mono (p : Prog N V X) (h : Demanded S ι requests n) :
    Demanded S ι (p :: requests) n := by
  obtain ⟨q, hq, hn⟩ := h
  exact ⟨q, mem_cons_of_mem p hq, hn⟩

theorem Cyclic.mono (p : Prog N V X) (h : Cyclic S ι requests) : Cyclic S ι (p :: requests) := by
  obtain ⟨n, hn, hcycle⟩ := h
  exact ⟨n, hn.mono p, hcycle⟩

/-! ## From answers to evaluations -/

section Answers

variable {α : N → Except (Errors N X) V}

theorem eval_of_results_ok (hps : ∀ p ∈ ps, p.Propagates) {vs : List V}
    (hvs : Prog.results α ps = vs.map .ok)
    (hα : ∀ n ∈ Prog.readsAll α ps, ∀ v, α n = .ok v → Eval S ι n (.ok v)) :
    (∀ n ∈ Prog.readsAll (seen ∘ α) ps, Eval S ι n (α n)) ∧
      Prog.results (seen ∘ α) ps = vs.map .ok := by
  have hok : ∀ n ∈ Prog.readsAll α ps, ∃ w, α n = .ok w := by
    intro n hn
    obtain ⟨p, hp, hn⟩ := Prog.mem_readsAll.mp hn
    obtain ⟨w, -, hw⟩ := mem_map.mp (hvs ▸ Prog.mem_results.mpr ⟨p, hp, rfl⟩)
    exact (hps p hp).reads_ok hw.symm n hn
  obtain ⟨hresults, hreads, -⟩ := Prog.congrAll (β := seen ∘ α) ps fun n hn _ => by
    obtain ⟨w, hw⟩ := hok n hn
    rw [Function.comp_apply, hw]
    rfl
  rw [← hreads, ← hresults]
  refine ⟨fun n hn => ?_, hvs⟩
  obtain ⟨w, hw⟩ := hok n hn
  rw [hw]
  exact hα n hn w hw

theorem Prog.guardedPar_allSections {R C : N → Prop}
    (h : ∀ p ∈ ps, Deps.GuardedSeq R C (p.sections α)) :
    Deps.GuardedPar R C (Prog.allSections α ps) := by
  induction ps with
  | nil => trivial
  | cons p ps ih =>
    rw [forall_mem_cons] at h
    exact ⟨guarded_flattenSeqs h.1, ih h.2⟩

variable {p : Prog N V X}

/-- The sections of a function are in the order of demand: a node comes after nodes whose results
lead to its being read. -/
theorem Prog.Propagates.guarded (hp : p.Propagates) {R : N → Prop} (hR : ∀ n, Reads S ι p n → R n) :
    Deps.GuardedSeq R (fun n => ∀ v, α n = .ok v → Eval S ι n (.ok v)) (p.sections α) := by
  induction hp with
  | ret r => trivial
  | @read n k herror _ ih =>
    rw [Prog.sections]
    refine ⟨hR n .here, fun hC => ?_⟩
    cases hn : α n with
    | error e =>
      rw [(herror e).sections]
      trivial
    | ok v => exact ih v fun m hm => hR m (.read (hC n (mem_singleton_self n) v hn) hm)
  | @par ps k hps herror _ ihps ih =>
    -- what follows the threads is reached when none of them has failed
    have hnext (hC : ∀ n ∈ Prog.readsAll α ps, ∀ v, α n = .ok v → Eval S ι n (.ok v)) :
        Deps.GuardedSeq R (fun n => ∀ v, α n = .ok v → Eval S ι n (.ok v))
          ((k (Prog.results α ps)).sections α) := by
      rcases results_cases (Prog.results α ps) with ⟨vs, hvs⟩ | ⟨e, he⟩
      · obtain ⟨heval, hresults⟩ := eval_of_results_ok hps hvs hC
        rw [hvs]
        apply ih vs
        intro m hm
        rw [← hresults] at hm
        exact hR m (.par α heval hm)
      · rw [(herror _ e he).sections]
        trivial
    have hthread (p : Prog N V X) (hp : p ∈ ps) := ihps p hp fun m hm => hR m (.thread hp hm)
    match ps with
    | [] => exact hnext nofun
    | [p] =>
      rw [Prog.sections, guardedSeq_append, Prog.nodesAll_sections]
      refine ⟨hthread p (mem_singleton_self p), fun hC => hnext fun n hn => hC n ?_⟩
      rwa [Prog.readsAll, Prog.readsAll, append_nil] at hn
    | p :: q :: ps =>
      rw [Prog.sections, guardedSeq_append, nodesAll_parSection,
        Prog.nodesAll_allSections]
      · exact ⟨guardedSeq_parSection (Prog.guardedPar_allSections hthread), hnext⟩
      all_goals exact nofun

/-- A node has the result, unless it failed and there is an excuse. -/
def Answered (S : Spec N V X) (ι : N → V) (excuse : Prop) (n : N) (x : Except (Errors N X) V) :
    Prop :=
  Eval S ι n x ∨ (∃ e, x = .error e) ∧ excuse

theorem Prog.Propagates.answered (hp : p.Propagates) {excuse : Prop}
    (h : ∀ n ∈ p.reads α, ∃ x, seen x = α n ∧ Answered S ι excuse n x) :
    p.Evaluates S ι (p.result α) ∨ (∃ e, p.result α = .error e) ∧ excuse := by
  by_cases hall : ∀ n ∈ p.reads α, ∃ x, seen x = α n ∧ Eval S ι n x
  · left
    have : Nonempty (Except (Errors N X) V) := ⟨.error ⟨∅, true⟩⟩
    choose! β hβ using hall
    obtain ⟨hresult, hreads, -⟩ := p.congr (α := α) (β := seen ∘ β) fun n hn _ =>
      (hβ n hn).1.symm
    exact ⟨β, fun n hn => (hβ n (hreads ▸ hn)).2, hresult⟩
  · right
    push Not at hall
    obtain ⟨n, hn, hnot⟩ := hall
    obtain ⟨x, hx, hanswered⟩ := h n hn
    obtain ⟨⟨e, rfl⟩, hexcuse⟩ := hanswered.resolve_left (hnot x hx)
    refine ⟨?_, hexcuse⟩
    cases hresult : p.result α with
    | error e' => exact ⟨e', rfl⟩
    | ok v =>
      obtain ⟨w, hw⟩ := hp.reads_ok hresult n hn
      rw [← hx] at hw
      cases hw

theorem Prog.Evaluates.eval (h : p.Evaluates S ι x) (hf : S.f n = .prog p) : Eval S ι n x := by
  obtain ⟨β, hβ, rfl⟩ := h
  exact .prog β hf hβ

end Answers

end Evaluation

end Dune.Memo
