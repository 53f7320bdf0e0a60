import Mathlib

/-!
# Depth-first search

What a depth-first search does, for any graph given by the successors of a vertex: `Visits` is its
big-step relation. A vertex is marked when it is entered and put out when all its successors have
been visited, so that the vertices come out in reverse order of finishing. Vertices that were marked
before are skipped.

What comes out is closed under successors and in reach of where the search started. Without cycles
every vertex comes out after its successors (`Ordered`), and an order of this kind shows that there
are no cycles. Edges from a vertex to itself play no part.
-/

open List

namespace Dune.Graph

open Relation (ReflTransGen TransGen)

section

variable {V : Type} (next : V → List V)

def Edge (x y : V) : Prop := y ∈ next x ∧ y ≠ x

/-- No vertex of the list is in reach of itself. -/
def AcyclicOn (l : List V) : Prop := ∀ x ∈ l, ¬ TransGen (Edge next) x x

/-- The search through the vertices of a list: the marked vertices and what is put out, before and
after. -/
inductive Visits : List V → List V → List V → List V → List V → Prop
  | done {marked out : List V} : Visits marked out [] marked out
  | seen {v : V} {marked out todo marked' out' : List V} : v ∈ marked →
      Visits marked out todo marked' out' → Visits marked out (v :: todo) marked' out'
  | enter {v : V} {marked inside out todo marked₁ out₁ marked' out' : List V} : v ∉ marked →
      (∀ x, x ∈ inside ↔ x = v ∨ x ∈ marked) → Visits inside out (next v) marked₁ out₁ →
      Visits marked₁ (v :: out₁) todo marked' out' → Visits marked out (v :: todo) marked' out'

/-- In a list in reverse order, every vertex stands before its successors; those in `base` may be
missing. -/
def Ordered (base : V → Prop) : List V → Prop
  | [] => True
  | x :: l => (∀ y, Edge next x y → y ∈ l ∨ base y) ∧ Ordered base l

variable {next}

variable {l marked out todo marked' out' : List V} {v : V}

theorem Ordered.append {base : V → Prop} {l' : List V}
    (h : Ordered next (fun y => y ∈ l' ∨ base y) l) (h' : Ordered next base l') :
    Ordered next base (l ++ l') := by
  induction l with
  | nil => exact h'
  | cons x l ih =>
    refine ⟨fun y hy => ?_, ih h.2⟩
    obtain hy | hy | hy := h.1 y hy
    · exact .inl (mem_append_left _ hy)
    · exact .inl (mem_append_right _ hy)
    · exact .inr hy

/-- The base may shrink to the vertices that a successor can be. -/
theorem Ordered.weaken {base base' : V → Prop} (h : Ordered next base l)
    (hbase : ∀ x ∈ l, ∀ y, Edge next x y → base y → base' y) : Ordered next base' l := by
  induction l with
  | nil => trivial
  | cons x l ih =>
    refine ⟨fun y hy => (h.1 y hy).imp_right (hbase x mem_cons_self y hy), ?_⟩
    exact ih h.2 fun x hx => hbase x (mem_cons_of_mem _ hx)

/-- The order at every place of the list. -/
theorem ordered_iff_split : Ordered next (fun _ => False) l ↔
    ∀ pre x post, l = pre ++ x :: post → ∀ y, Edge next x y → y ∈ post := by
  induction l with
  | nil => simp [Ordered]
  | cons z l ih =>
    constructor
    · rintro ⟨hz, hl⟩ pre x post heq y hy
      cases pre with
      | nil =>
        obtain ⟨rfl, rfl⟩ := List.cons.inj heq
        exact (hz y hy).resolve_right id
      | cons w pre => exact ih.mp hl pre x post (List.cons.inj heq).2 y hy
    · refine fun h => ⟨fun y hy => .inl (h [] z l rfl y hy), ih.mpr fun pre x post heq => ?_⟩
      exact h (z :: pre) x post (by rw [heq, cons_append])

variable (next) in
/-- What a search adds to the vertices put out. -/
structure Extension (marked out todo marked' out' new : List V) : Prop where
  out_eq : out' = new ++ out
  nodup : new.Nodup
  mem_marked : ∀ x, x ∈ marked' ↔ x ∈ new ∨ x ∈ marked
  fresh : ∀ x ∈ new, x ∉ marked
  todo_marked : ∀ x ∈ todo, x ∈ marked'
  closed : ∀ x ∈ new, ∀ y ∈ next x, y ∈ marked'
  reach : ∀ x ∈ new, ∃ v ∈ todo, ReflTransGen (Edge next) v x
  ordered : AcyclicOn next new → Ordered next (· ∈ marked) new

/-- A vertex that is reached from inside `v` is reached from `v`. -/
theorem transGen_of_inside {x : V} (hreach : ∃ w ∈ next v, ReflTransGen (Edge next) w x)
    (hne : x ≠ v) : TransGen (Edge next) v x := by
  obtain ⟨w, hw, hpath⟩ := hreach
  by_cases heq : w = v
  · subst heq
    exact (Relation.reflTransGen_iff_eq_or_transGen.mp hpath).resolve_left hne
  · exact TransGen.head' ⟨hw, heq⟩ hpath

theorem Extension.seen {new : List V} (hv : v ∈ marked)
    (h : Extension next marked out todo marked' out' new) :
    Extension next marked out (v :: todo) marked' out' new where
  out_eq := h.out_eq
  nodup := h.nodup
  mem_marked := h.mem_marked
  fresh := h.fresh
  todo_marked := forall_mem_cons.mpr ⟨(h.mem_marked _).mpr (.inr hv), h.todo_marked⟩
  closed := h.closed
  reach x hx := by
    obtain ⟨w, hw, hpath⟩ := h.reach x hx
    exact ⟨w, mem_cons_of_mem _ hw, hpath⟩
  ordered := h.ordered

theorem Extension.enter {inside marked₁ out₁ new₁ new₂ : List V} (hv : v ∉ marked)
    (hinside : ∀ x, x ∈ inside ↔ x = v ∨ x ∈ marked)
    (h₁ : Extension next inside out (next v) marked₁ out₁ new₁)
    (h₂ : Extension next marked₁ (v :: out₁) todo marked' out' new₂) :
    Extension next marked out (v :: todo) marked' out' (new₂ ++ v :: new₁) := by
  have hmarked₁ (x : V) : x ∈ marked₁ ↔ x ∈ new₁ ∨ x = v ∨ x ∈ marked := by
    rw [h₁.mem_marked, hinside]
  have hmarked' (x : V) : x ∈ marked' ↔ x ∈ new₂ ∨ x ∈ new₁ ∨ x = v ∨ x ∈ marked := by
    rw [h₂.mem_marked, hmarked₁]
  have hreach₁ (x : V) (hx : x ∈ new₁) : TransGen (Edge next) v x :=
    transGen_of_inside (h₁.reach x hx) fun heq => h₁.fresh x hx ((hinside x).mpr (.inl heq))
  have hv₁ : v ∉ new₁ := fun hmem => h₁.fresh v hmem ((hinside v).mpr (.inl rfl))
  constructor
  case out_eq => rw [h₂.out_eq, h₁.out_eq, append_assoc, cons_append]
  case nodup =>
    refine nodup_append.mpr ⟨h₂.nodup, nodup_cons.mpr ⟨hv₁, h₁.nodup⟩, ?_⟩
    rintro x hx y hy rfl
    have := h₂.fresh x hx
    grind
  case mem_marked => grind
  case fresh => grind [h₁.fresh, h₂.fresh]
  case todo_marked => grind [h₂.todo_marked]
  case closed => grind [h₂.closed, h₁.closed, h₁.todo_marked, h₂.mem_marked]
  case reach =>
    intro x hx
    rw [mem_append, mem_cons] at hx
    obtain hx | rfl | hx := hx
    · obtain ⟨w, hw, hpath⟩ := h₂.reach x hx
      exact ⟨w, mem_cons_of_mem _ hw, hpath⟩
    · exact ⟨x, mem_cons_self, .refl⟩
    · exact ⟨v, mem_cons_self, (hreach₁ x hx).to_reflTransGen⟩
  case ordered =>
    intro hacyclic
    -- A successor that is still being visited would close a cycle.
    have hnew₁ : Ordered next (· ∈ marked) new₁ := by
      have hacyclic₁ : AcyclicOn next new₁ := fun x hx =>
        hacyclic x (mem_append_right _ (mem_cons_of_mem _ hx))
      refine (h₁.ordered hacyclic₁).weaken fun x hx y hy hmem => ?_
      obtain rfl | hmem := (hinside y).mp hmem
      · exact absurd ((hreach₁ x hx).tail hy)
          (hacyclic y (mem_append_right _ mem_cons_self))
      · exact hmem
    have hacyclic₂ : AcyclicOn next new₂ := fun x hx => hacyclic x (mem_append_left _ hx)
    refine Ordered.append ((h₂.ordered hacyclic₂).weaken fun x _ y _ hmem => ?_) ⟨?_, hnew₁⟩
    · grind
    · intro y hy
      have := (hmarked₁ y).mp (h₁.todo_marked y hy.1)
      grind [Edge]

theorem Visits.append {marked₁ out₁ todo' : List V} (h : Visits next marked out todo marked₁ out₁)
    (h' : Visits next marked₁ out₁ todo' marked' out') :
    Visits next marked out (todo ++ todo') marked' out' := by
  induction h with
  | done => exact h'
  | seen hv _ ih => exact .seen hv (ih h')
  | enter hv hinside h₁ _ _ ih => exact .enter hv hinside h₁ (ih h')

theorem Visits.extension (h : Visits next marked out todo marked' out') :
    ∃ new, Extension next marked out todo marked' out' new := by
  induction h with
  | done =>
    refine ⟨[], rfl, nodup_nil, ?_, ?_, ?_, ?_, ?_, fun _ => trivial⟩ <;> simp
  | seen hv _ ih =>
    obtain ⟨new, h⟩ := ih
    exact ⟨new, h.seen hv⟩
  | enter hv hinside _ _ ih ih' =>
    obtain ⟨new₁, h₁⟩ := ih
    obtain ⟨new₂, h₂⟩ := ih'
    exact ⟨_, .enter hv hinside h₁ h₂⟩

/-- What a search from nothing puts out. -/
structure Search (next : V → List V) (todo marked out : List V) : Prop where
  nodup : out.Nodup
  mem_marked : ∀ x, x ∈ marked ↔ x ∈ out
  todo_mem : ∀ x ∈ todo, x ∈ out
  closed : ∀ x ∈ out, ∀ y ∈ next x, y ∈ out
  reach : ∀ x ∈ out, ∃ v ∈ todo, ReflTransGen (Edge next) v x
  ordered : AcyclicOn next out → Ordered next (fun _ => False) out

theorem Visits.search (h : Visits next [] [] todo marked out) : Search next todo marked out := by
  obtain ⟨new, h⟩ := h.extension
  have hout : out = new := h.out_eq.trans (append_nil new)
  subst hout
  have hmem (x : V) : x ∈ marked ↔ x ∈ out := by
    rw [h.mem_marked, or_iff_left not_mem_nil]
  constructor
  case nodup => exact h.nodup
  case mem_marked => exact hmem
  case todo_mem => exact fun x hx => (hmem x).mp (h.todo_marked x hx)
  case closed => exact fun x hx y hy => (hmem y).mp (h.closed x hx y hy)
  case reach => exact h.reach
  case ordered =>
    exact fun hacyclic => (h.ordered hacyclic).weaken fun _ _ _ _ => not_mem_nil

/-- A list that is ordered contains the successors of its vertices, and none of them is on a
cycle. -/
theorem Ordered.acyclic (h : Ordered next (fun _ => False) l) (hnodup : l.Nodup) :
    ∀ x ∈ l, (∀ y, TransGen (Edge next) x y → y ∈ l) ∧ ¬ TransGen (Edge next) x x := by
  induction l with
  | nil => simp
  | cons x l ih =>
    obtain ⟨hx, hnodup⟩ := nodup_cons.mp hnodup
    have ih := ih h.2 hnodup
    have hhead (y : V) (hpath : TransGen (Edge next) x y) : y ∈ l := by
      obtain ⟨z, hedge, hpath⟩ := TransGen.head'_iff.mp hpath
      have hz : z ∈ l := (h.1 z hedge).resolve_right id
      obtain rfl | hpath := Relation.reflTransGen_iff_eq_or_transGen.mp hpath
      · exact hz
      · exact (ih z hz).1 y hpath
    intro z hz
    obtain rfl | hz := mem_cons.mp hz
    · exact ⟨fun y hpath => mem_cons_of_mem _ (hhead y hpath), fun hpath => hx (hhead z hpath)⟩
    · exact ⟨fun y hpath => mem_cons_of_mem _ ((ih z hz).1 y hpath), (ih z hz).2⟩

theorem Search.ordered_iff (h : Search next todo marked out) :
    Ordered next (fun _ => False) out ↔ AcyclicOn next out :=
  ⟨fun hordered x hx => (hordered.acyclic h.nodup x hx).2, h.ordered⟩

end

end Dune.Graph
