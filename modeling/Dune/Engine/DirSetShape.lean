import Dune.Engine.DirSet

/-!
# The shape of exception maps

`Filename.Map` is the map of the standard library, a balanced tree whose shape depends on how it was
built. The maps of `T0` are the bindings of these trees.
-/

namespace Dune.Engine

open Dune.Stdune

/-- `Map.t` of the standard library. -/
inductive Tree (K V : Type) where
  | empty
  | node (l : Tree K V) (v : K) (d : V) (r : Tree K V) (h : Nat)

namespace Tree

variable {K V W X : Type}

def height : Tree K V → Nat
  | .empty => 0
  | .node _ _ _ _ h => h

def create (l : Tree K V) (x : K) (d : V) (r : Tree K V) : Tree K V :=
  .node l x d r (if l.height ≥ r.height then l.height + 1 else r.height + 1)

def singleton (x : K) (d : V) : Tree K V := .node .empty x d .empty 1

/-- `Map.bal`; where it raises, which no tree of the source reaches, this is the empty tree. -/
def bal (l : Tree K V) (x : K) (d : V) (r : Tree K V) : Tree K V :=
  if l.height > r.height + 2 then
    match l with
    | .empty => .empty
    | .node ll lv ld lr _ =>
      if ll.height ≥ lr.height then create ll lv ld (create lr x d r)
      else
        match lr with
        | .empty => .empty
        | .node lrl lrv lrd lrr _ => create (create ll lv ld lrl) lrv lrd (create lrr x d r)
  else if r.height > l.height + 2 then
    match r with
    | .empty => .empty
    | .node rl rv rd rr _ =>
      if rr.height ≥ rl.height then create (create l x d rl) rv rd rr
      else
        match rl with
        | .empty => .empty
        | .node rll rlv rld rlr _ => create (create l x d rll) rlv rld (create rlr rv rd rr)
  else create l x d r

def addMinBinding (k : K) (x : V) : Tree K V → Tree K V
  | .empty => singleton k x
  | .node l v d r _ => bal (addMinBinding k x l) v d r

def addMaxBinding (k : K) (x : V) : Tree K V → Tree K V
  | .empty => singleton k x
  | .node l v d r _ => bal l v d (addMaxBinding k x r)

/-- `Map.join` of a node with subtrees of the right tree; `joinRight` joins its own right subtree.
-/
def joinNode (l ll : Tree K V) (lv : K) (ld : V) (joinRight : Tree K V → Tree K V) (v : K) (d : V) :
    Tree K V → Tree K V
  | .empty => addMaxBinding v d l
  | .node rl rv rd rr rh =>
    if l.height > rh + 2 then bal ll lv ld (joinRight (.node rl rv rd rr rh))
    else if rh > l.height + 2 then bal (joinNode l ll lv ld joinRight v d rl) rv rd rr
    else create l v d (.node rl rv rd rr rh)

def join (v : K) (d : V) : Tree K V → Tree K V → Tree K V
  | .empty, r => addMinBinding v d r
  | .node ll lv ld lr lh, r => joinNode (.node ll lv ld lr lh) ll lv ld (join v d lr) v d r

/-- The least binding, and the tree without it. -/
def removeMinBinding : Tree K V → K → V → Tree K V → (K × V) × Tree K V
  | .empty, v, d, r => ((v, d), r)
  | .node ll lv ld lr _, v, d, r =>
    let (binding, l) := removeMinBinding ll lv ld lr
    (binding, bal l v d r)

def concat : Tree K V → Tree K V → Tree K V
  | .empty, t => t
  | t, .empty => t
  | t1, .node l v d r _ =>
    let ((x, d), t2) := removeMinBinding l v d r
    join x d t1 t2

def concatOrJoin (t1 : Tree K V) (v : K) (d : Option V) (t2 : Tree K V) : Tree K V :=
  match d with
  | some d => join v d t1 t2
  | none => concat t1 t2

def split [LinearOrder K] (x : K) : Tree K V → Tree K V × Option V × Tree K V
  | .empty => (.empty, none, .empty)
  | .node l v d r _ =>
    if x = v then (l, some d, r)
    else if x < v then
      let (ll, pres, rl) := split x l
      (ll, pres, join v d rl r)
    else
      let (lr, pres, rr) := split x r
      (join v d l lr, pres, rr)

def cardinal : Tree K V → Nat
  | .empty => 0
  | .node l _ _ r _ => l.cardinal + 1 + r.cardinal

def mergeUpTo [LinearOrder K] (f : K → Option V → Option W → Option X) :
    Nat → Tree K V → Tree K W → Tree K X
  | 0, _, _ => .empty
  | n + 1, s1, s2 =>
    if s1.height ≥ s2.height then
      match s1 with
      | .empty => .empty
      | .node l1 v1 d1 r1 _ =>
        let (l2, d2, r2) := split v1 s2
        concatOrJoin (mergeUpTo f n l1 l2) v1 (f v1 (some d1) d2) (mergeUpTo f n r1 r2)
    else
      match s2 with
      | .empty => .empty
      | .node l2 v2 d2 r2 _ =>
        let (l1, d1, r1) := split v2 s1
        concatOrJoin (mergeUpTo f n l1 l2) v2 (f v2 d1 (some d2)) (mergeUpTo f n r1 r2)

/-- `Map.merge`; every call is about fewer bindings. -/
def merge [LinearOrder K] (f : K → Option V → Option W → Option X) (s1 : Tree K V) (s2 : Tree K W) :
    Tree K X :=
  mergeUpTo f (s1.cardinal + s2.cardinal + 1) s1 s2

/-- The bindings in the order of the keys. -/
def bindings : Tree K V → List (K × V)
  | .empty => []
  | .node l v d r _ => l.bindings ++ (v, d) :: r.bindings

end Tree

/-- `merge_exceptions` of a union of sets, on the trees. -/
def T0.unionExceptions (aDefault : Bool) (a : Tree Filename T0) (bDefault : Bool)
    (b : Tree Filename T0) : Tree Filename T0 :=
  Tree.merge (fun _ x y => unlessDefault (aDefault || bDefault)
    ((x.getD (trivial aDefault)).union (y.getD (trivial bDefault)))) a b

/-- The exceptions of two subtrees make trees of different shapes, but the same maps, in their two
orders. -/
theorem DirSet.union_shapes : let a : Filename := ⟨Bytes.ascii "a", rfl⟩
    let b : Filename := ⟨Bytes.ascii "b", rfl⟩
    let treeA := Tree.singleton a T0.universal
    let treeB := Tree.singleton b T0.universal
    T0.subtree [a] = .nontrivial false false treeA.bindings ∧
    T0.subtree [b] = .nontrivial false false treeB.bindings ∧
    (T0.subtree [a]).union (T0.subtree [b]) =
      .nontrivial false false (T0.unionExceptions false treeA false treeB).bindings ∧
    (T0.subtree [b]).union (T0.subtree [a]) =
      .nontrivial false false (T0.unionExceptions false treeB false treeA).bindings ∧
    T0.unionExceptions false treeA false treeB ≠ T0.unionExceptions false treeB false treeA :=
  ⟨rfl, rfl, rfl, rfl, nofun⟩

end Dune.Engine
