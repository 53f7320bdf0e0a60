import Mathlib

/-!
# Doubly linked lists

Nodes with a link to the next and to the previous one, which are overwritten in place. The links
represent a list (`Represents`) when they agree with it in both directions. Adding a node in front
and taking out any node keep this, and following the links from the head visits the list.
-/

open List

namespace Dune.Fiber

variable {K : Type}

/-- The first node and the links of all nodes. -/
structure Links (K : Type) where
  head : Option K
  next : K → Option K
  prev : K → Option K

namespace Links

def empty : Links K where
  head := none
  next := fun _ => none
  prev := fun _ => none

section Operations

variable [DecidableEq K]

def setPrev (k : K) (p : Option K) (l : Links K) : Links K :=
  { l with prev := Function.update l.prev k p }

def setNext (k : K) (n : Option K) (l : Links K) : Links K :=
  { l with next := Function.update l.next k n }

def push (k : K) (l : Links K) : Links K :=
  let l' := (l.setNext k l.head).setPrev k none
  let l' := match l.head with
    | none => l'
    | some first => l'.setPrev first (some k)
  { l' with head := some k }

/-- What comes before a node is linked to what comes after it. -/
def skip (k : K) (l : Links K) : Links K :=
  match l.prev k with
  | none => { l with head := l.next k }
  | some p => l.setNext p (l.next k)

def unlink (k : K) (l : Links K) : Links K :=
  match l.next k with
  | none => l.skip k
  | some n => (l.skip k).setPrev n (l.prev k)

end Operations

/-- The nodes that are visited from a node on, in at most `fuel` steps. -/
def walk (l : Links K) : Nat → Option K → List K
  | 0, _ | _ + 1, none => []
  | fuel + 1, some k => k :: walk l fuel (l.next k)

/-- The links of the nodes are those of the list, between the nodes `p` and `n`. -/
def Linked (l : Links K) : Option K → List K → Option K → Prop
  | _, [], _ => True
  | p, k :: ks, n => l.prev k = p ∧ l.next k = ks.head?.or n ∧ l.Linked (some k) ks n

/-- The links are those of the list. -/
structure Represents (l : Links K) (ks : List K) : Prop where
  head : l.head = ks.head?
  linked : l.Linked none ks none
  nodup : ks.Nodup

variable {l l' : Links K} {ks : List K} {k : K} {p n : Option K}

theorem Represents.empty : (empty : Links K).Represents [] := ⟨rfl, trivial, .nil⟩

theorem linked_append {ks' : List K} :
    l.Linked p (ks ++ ks') n ↔
      l.Linked p ks (ks'.head?.or n) ∧ l.Linked (ks.getLast?.or p) ks' n := by
  induction ks generalizing p with
  | nil => simp [Linked]
  | cons k ks ih =>
    rw [cons_append, Linked, Linked, ih, and_assoc, and_assoc]
    cases ks with
    | nil => simp
    | cons k' ks => simp [List.getLast?_cons]

theorem Linked.congr (h : l.Linked p ks n)
    (heq : ∀ k ∈ ks, l'.prev k = l.prev k ∧ l'.next k = l.next k) : l'.Linked p ks n := by
  induction ks generalizing p with
  | nil => trivial
  | cons k ks ih =>
    obtain ⟨hprev, hnext, h⟩ := h
    obtain ⟨hprev', hnext'⟩ := heq k mem_cons_self
    exact ⟨hprev'.trans hprev, hnext'.trans hnext,
      ih h fun k' hk' => heq k' (mem_cons_of_mem k hk')⟩

theorem Linked.walk (h : l.Linked p ks none) {fuel : Nat} (hfuel : ks.length ≤ fuel) :
    l.walk fuel ks.head? = ks := by
  induction ks generalizing p fuel with
  | nil => cases fuel <;> rfl
  | cons k ks ih =>
    obtain ⟨-, hnext, h⟩ := h
    cases fuel with
    | zero => cases hfuel
    | succ fuel =>
      rw [List.head?_cons, Links.walk, hnext, Option.or_none, ih h (Nat.le_of_succ_le_succ hfuel)]

theorem Represents.walk (h : l.Represents ks) {fuel : Nat} (hfuel : ks.length ≤ fuel) :
    l.walk fuel l.head = ks := by
  rw [h.head]
  exact h.linked.walk hfuel

section Operations

variable [DecidableEq K]

theorem setPrev_self (k : K) (p : Option K) (l : Links K) : (l.setPrev k p).prev k = p := by
  simp [setPrev]

theorem setPrev_of_ne {k' : K} (hne : k' ≠ k) (p : Option K) (l : Links K) :
    (l.setPrev k p).prev k' = l.prev k' := by
  simp [setPrev, hne]

theorem setNext_self (k : K) (n : Option K) (l : Links K) : (l.setNext k n).next k = n := by
  simp [setNext]

theorem setNext_of_ne {k' : K} (hne : k' ≠ k) (n : Option K) (l : Links K) :
    (l.setNext k n).next k' = l.next k' := by
  simp [setNext, hne]

theorem Linked.setPrev_of_notMem (h : l.Linked p ks n) (hk : k ∉ ks) (p' : Option K) :
    (l.setPrev k p').Linked p ks n :=
  h.congr fun _ hk' => ⟨setPrev_of_ne (ne_of_mem_of_not_mem hk' hk) p' l, rfl⟩

theorem Linked.setNext_of_notMem (h : l.Linked p ks n) (hk : k ∉ ks) (n' : Option K) :
    (l.setNext k n').Linked p ks n :=
  h.congr fun _ hk' => ⟨rfl, setNext_of_ne (ne_of_mem_of_not_mem hk' hk) n' l⟩

theorem Linked.setPrev (h : l.Linked p (k :: ks) n) (hk : k ∉ ks) (p' : Option K) :
    (l.setPrev k p').Linked p' (k :: ks) n :=
  ⟨setPrev_self k p' l, h.2.1, h.2.2.setPrev_of_notMem hk p'⟩

theorem Linked.setNext (h : l.Linked p (ks ++ [k]) n) (hk : k ∉ ks) (n' : Option K) :
    (l.setNext k n').Linked p (ks ++ [k]) n' := by
  obtain ⟨h, hprev, -, -⟩ := linked_append.mp h
  exact linked_append.mpr ⟨h.setNext_of_notMem hk n', hprev, setNext_self k n' l, trivial⟩

theorem Represents.push (h : l.Represents ks) (hk : k ∉ ks) : (l.push k).Represents (k :: ks) := by
  have hnodup := nodup_cons.mpr ⟨hk, h.nodup⟩
  have hlinked := (h.linked.setNext_of_notMem hk l.head).setPrev_of_notMem hk none
  have hhead := h.head
  cases ks with
  | nil =>
    rw [Links.push, hhead]
    exact ⟨rfl, ⟨setPrev_self k none _, setNext_self k none l, trivial⟩, hnodup⟩
  | cons first ks =>
    have hne : k ≠ first := fun heq => hk (heq ▸ mem_cons_self)
    rw [hhead] at hlinked
    rw [Links.push, hhead]
    have hfirst := hlinked.setPrev (nodup_cons.mp h.nodup).1 (some k)
    refine ⟨rfl, ⟨?_, setNext_self k (some first) l, hfirst.congr fun _ _ => ⟨rfl, rfl⟩⟩, hnodup⟩
    exact (setPrev_of_ne hne _ _).trans (setPrev_self k none _)

theorem skip_represents {as bs : List K} (h : l.Represents (as ++ k :: bs)) :
    (l.skip k).head = (as ++ bs).head? ∧ (l.skip k).Linked none as bs.head? ∧
      (l.skip k).Linked (some k) bs none := by
  obtain ⟨has, hprev, hnext, hbs⟩ := linked_append.mp h.linked
  rw [Option.or_none] at hprev hnext
  obtain ⟨hnodup, -, hdisjoint⟩ := nodup_append.mp h.nodup
  rcases as.eq_nil_or_concat' with rfl | ⟨as, a, rfl⟩
  · rw [skip, hprev]
    exact ⟨hnext, trivial, hbs.congr fun _ _ => ⟨rfl, rfl⟩⟩
  · rw [List.getLast?_concat] at hprev
    have ha : a ∈ as ++ [a] := mem_append_right as mem_cons_self
    rw [skip, hprev, hnext]
    refine ⟨?_, has.setNext ?_ _, hbs.setNext_of_notMem ?_ _⟩
    · cases as <;> exact h.head
    · exact fun hmem => (nodup_append.mp hnodup).2.2 a hmem a mem_cons_self rfl
    · exact fun hmem => hdisjoint a ha a (mem_cons_of_mem k hmem) rfl

theorem Represents.unlink (h : l.Represents ks) (hk : k ∈ ks) :
    (l.unlink k).Represents (ks.erase k) := by
  obtain ⟨as, bs, rfl⟩ := append_of_mem hk
  obtain ⟨hhead, has, hbs⟩ := skip_represents h
  obtain ⟨-, hprev, hnext, -⟩ := linked_append.mp h.linked
  rw [Option.or_none] at hprev hnext
  have hkas : k ∉ as := fun hmem =>
    (nodup_append.mp h.nodup).2.2 k hmem k mem_cons_self rfl
  have hnodup : (as ++ bs).Nodup := h.nodup.sublist ((sublist_cons_self k bs).append_left as)
  rw [erase_append_right _ hkas, erase_cons_head]
  refine ⟨?_, linked_append.mpr ?_, hnodup⟩
  · rw [← hhead, Links.unlink]
    split <;> rfl
  · cases bs with
    | nil =>
      rw [Links.unlink, hnext]
      exact ⟨has, trivial⟩
    | cons b bs =>
      rw [List.head?_cons] at hnext
      simp only [Links.unlink, hnext, hprev, Option.or_none]
      have hb : b ∉ as := fun hmem =>
        (nodup_append.mp hnodup).2.2 b hmem b mem_cons_self rfl
      exact ⟨has.setPrev_of_notMem hb _,
        hbs.setPrev (nodup_cons.mp (nodup_append.mp hnodup).2.1).1 _⟩

end Operations

end Links

end Dune.Fiber
