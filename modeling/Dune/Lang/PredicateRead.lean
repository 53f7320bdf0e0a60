import Dune.Lang.PredicateLang

/-!
# Reading encoded predicates

The encoder writes the members of a disjunction or a conjunction as one nested list, which the
decoder takes for a union of its members; the constants are written as the empty lists of the
opposite operators. `asRead` is the predicate that comes back, when one comes back.
-/

namespace Dune.PredicateLang

open Dune.Stdune Dune.Sexp Bytes

section
variable {A : Type}

/-- Elements that are read back: decoding the encoding of an element gives that element. -/
structure Codec (A : Type) where
  encode : A → T
  decode : Ast → Except Exn A
  roundTrip : ∀ a loc, decodeOne decode ((encode a).addLoc loc) = .ok (.element a)

/-! ## What is read -/

/-- The operator that the first S-expression of a list stands for. -/
def operator : T → Option (List (PredicateLang A) → PredicateLang A)
  | .atom s =>
    if s = ascii "or" then some orOf
    else if s = ascii "and" then some andOf
    else if s = ascii "not" then some notOr
    else none
  | _ => none

/-- A first S-expression that the decoder of a list refuses: an atom that is neither an operator nor
starts with a dash or a colon. -/
def Refused : T → Prop
  | .atom s => s = ascii ":include" ∨ (s ∉ [ascii "or", ascii "and", ascii "not"] ∧
      s ≠ [] ∧ s.head? ≠ some 45 ∧ s.head? ≠ some 58)
  | _ => False

mutual

/-- The predicate that is read back. -/
def asRead (f : A → T) : PredicateLang A → PredicateLang A
  | .true => .false
  | .false => .false
  | .element a => .element a
  | .not t => .not (.or [asRead f t])
  | .standard => .standard
  | .or xs => asReadList f xs
  | .and xs => asReadList f xs

/-- The members of a disjunction or a conjunction, read as a list. -/
def asReadList (f : A → T) : List (PredicateLang A) → PredicateLang A
  | [] => .false
  | x :: xs =>
    match operator (encode f x) with
    | some k => k (asReadAll f xs)
    | none => orOf (asRead f x :: asReadAll f xs)

def asReadAll (f : A → T) : List (PredicateLang A) → List (PredicateLang A)
  | [] => []
  | x :: xs => asRead f x :: asReadAll f xs

end

mutual

/-- No list of members starts with an S-expression that the decoder refuses. -/
def Readable (f : A → T) : PredicateLang A → Prop
  | .not t => Readable f t
  | .or xs => ReadableList f xs
  | .and xs => ReadableList f xs
  | _ => True

def ReadableList (f : A → T) : List (PredicateLang A) → Prop
  | [] => True
  | x :: xs => ¬Refused (encode f x) ∧ Readable f x ∧ ReadableAll f xs

def ReadableAll (f : A → T) : List (PredicateLang A) → Prop
  | [] => True
  | x :: xs => Readable f x ∧ ReadableAll f xs

end

/-! ## The decoder on encoded predicates -/

variable (c : Codec A) (loc : Loc)

/-- No encoding is the atom that stands for set difference. -/
theorem encode_ne_backslash (x : PredicateLang A) : encode c.encode x ≠ .atom (ascii "\\") := by
  intro h
  cases x with
  | element a =>
    have hdecode := c.roundTrip a .none
    rw [encode] at h
    rw [h, T.addLoc, decodeOne, if_pos rfl] at hdecode
    cases hdecode
  | standard =>
    rw [encode] at h
    exact absurd (T.atom.inj h) (by decide)
  | _ => cases h

variable {k : List (PredicateLang A) → PredicateLang A} {t : T} {l : List Ast}

theorem many_cons {acc : List (PredicateLang A)} (ht : t ≠ .atom (ascii "\\")) :
    many c.decode k acc (t.addLoc loc :: l) =
      (decodeOne c.decode (t.addLoc loc) >>= fun x => many c.decode k (x :: acc) l) := by
  cases t with
  | atom s =>
    rw [T.addLoc, many, if_neg fun hs => ht (congrArg T.atom hs)]
  | quotedString s | list l | template t => rw [T.addLoc, many]; exact nofun

theorem decodeOne_operator (ht : operator t = some k) :
    decodeOne c.decode (.list loc (t.addLoc loc :: l)) = many c.decode k [] l := by
  cases t with
  | atom s =>
    rw [T.addLoc, decodeOne]
    rw [operator] at ht
    split_ifs at ht with hor hand hnot
    · cases ht
      rw [if_neg (by rw [hor]; decide), if_pos hor]
    · cases ht
      rw [if_neg (by rw [hand]; decide), if_neg hor, if_pos hand]
    · cases ht
      rw [if_neg (by rw [hnot]; decide), if_neg hor, if_neg hand, if_pos hnot]
  | quotedString s | list l | template t => cases ht

theorem decodeOne_list (ht : operator (A := A) t = none) (hr : ¬Refused t) :
    decodeOne c.decode (.list loc (t.addLoc loc :: l)) =
      many c.decode orOf [] (t.addLoc loc :: l) := by
  cases t with
  | atom s =>
    obtain ⟨hinclude, hother⟩ := not_or.mp hr
    rw [operator] at ht
    split_ifs at ht with hor hand hnot
    have hquote : ¬(s ≠ [] ∧ s.head? ≠ some 45 ∧ s.head? ≠ some 58) :=
      fun h => hother ⟨by simp [hor, hand, hnot], h⟩
    rw [T.addLoc, decodeOne, if_neg hinclude, if_neg hor, if_neg hand, if_neg hnot, if_neg hquote]
  | quotedString s | list l | template t => rw [T.addLoc, decodeOne]; exact nofun

theorem decodeOne_refused (hr : Refused t) :
    ∃ e, decodeOne c.decode (.list loc (t.addLoc loc :: l)) = .error e := by
  cases t with
  | atom s =>
    rw [T.addLoc, decodeOne]
    by_cases hinclude : s = ascii ":include"
    · exact ⟨_, if_pos hinclude⟩
    · obtain ⟨hops, hquote⟩ := hr.resolve_left hinclude
      rw [List.mem_cons, List.mem_cons, List.mem_singleton, not_or, not_or] at hops
      rw [if_neg hinclude, if_neg hops.1, if_neg hops.2.1, if_neg hops.2.2, if_pos hquote]
      exact ⟨_, rfl⟩
  | quotedString s | list l | template t => exact hr.elim

theorem decodeOne_unary (op : Bytes) (t : T) (hop : operator (.atom op) = some k)
    (ht : t ≠ .atom (ascii "\\")) :
    decodeOne c.decode ((T.list [.atom op, t]).addLoc loc) =
      (decodeOne c.decode (t.addLoc loc)).map fun x => k [x] := by
  rw [T.addLoc]
  refine (decodeOne_operator c loc (t := .atom op) hop).trans ?_
  rw [T.addLoc.addLocs, T.addLoc.addLocs, many_cons c loc ht]
  cases decodeOne c.decode (t.addLoc loc) <;> rfl

/-- The outcome of decoding an encoding: the predicate if the encoding can be read. -/
def Reads (x : Except Exn (PredicateLang A)) (readable : Prop) (q : PredicateLang A) : Prop :=
  (readable → x = .ok q) ∧ (¬readable → ∃ e, x = .error e)

variable {q x : PredicateLang A}

theorem Reads.map {x : Except Exn (PredicateLang A)} {readable : Prop} (h : Reads x readable q)
    (f : PredicateLang A → PredicateLang A) : Reads (x.map f) readable (f q) := by
  refine ⟨fun hr => ?_, fun hr => ?_⟩
  · rw [h.1 hr]
    rfl
  · obtain ⟨e, he⟩ := h.2 hr
    rw [he]
    exact ⟨e, rfl⟩

theorem many_step {readable : Prop} {qs : List (PredicateLang A)}
    (hx : Reads (decodeOne c.decode ((encode c.encode x).addLoc loc)) (x.Readable c.encode) q)
    (hl : ∀ acc, Reads (many c.decode k acc l) readable (k (acc.reverse ++ qs)))
    (acc : List (PredicateLang A)) :
    Reads (many c.decode k acc ((encode c.encode x).addLoc loc :: l))
      (x.Readable c.encode ∧ readable)
      (k (acc.reverse ++ q :: qs)) := by
  rw [many_cons c loc (encode_ne_backslash c x)]
  by_cases hreadable : x.Readable c.encode
  · rw [hx.1 hreadable]
    have hrest := hl (q :: acc)
    rw [List.reverse_cons, List.append_assoc, List.singleton_append] at hrest
    exact ⟨fun h => hrest.1 h.2, fun h => hrest.2 fun hr => h ⟨hreadable, hr⟩⟩
  · obtain ⟨e, he⟩ := hx.2 hreadable
    rw [he]
    exact ⟨fun h => absurd h.1 hreadable, fun _ => ⟨e, rfl⟩⟩

theorem readable_of_operator {f : A → T} (h : operator (encode f x) = some k) : x.Readable f := by
  cases x with
  | not t | or xs | and xs => cases h
  | _ => exact trivial

mutual

theorem decodeOne_encode : ∀ p : PredicateLang A,
    Reads (decodeOne c.decode ((encode c.encode p).addLoc loc)) (p.Readable c.encode)
      (p.asRead c.encode)
  | .true => ⟨fun _ => rfl, fun h => absurd trivial h⟩
  | .false => ⟨fun _ => rfl, fun h => absurd trivial h⟩
  | .element a => ⟨fun _ => c.roundTrip a loc, fun h => absurd trivial h⟩
  | .not t => by
    have ht := (decodeOne_encode t).map fun x => notOr [x]
    rw [← decodeOne_unary c loc (ascii "not") _ rfl (encode_ne_backslash c t)] at ht
    exact ht
  | .standard => ⟨fun _ => rfl, fun h => absurd trivial h⟩
  | .or xs => by
    have hxs := (decodeOne_encodeList xs).map fun x => orOf [x]
    exact (decodeOne_unary c loc (ascii "or") (.list (encodeAll c.encode xs)) rfl nofun) ▸ hxs
  | .and xs => by
    have hxs := (decodeOne_encodeList xs).map fun x => andOf [x]
    exact (decodeOne_unary c loc (ascii "and") (.list (encodeAll c.encode xs)) rfl nofun) ▸ hxs

theorem decodeOne_encodeList : ∀ xs : List (PredicateLang A),
    Reads (decodeOne c.decode (.list loc (T.addLoc.addLocs loc (encodeAll c.encode xs))))
      (ReadableList c.encode xs) (asReadList c.encode xs)
  | [] => ⟨fun _ => rfl, fun h => absurd trivial h⟩
  | x :: xs => by
    rw [encodeAll, T.addLoc.addLocs, ReadableList, asReadList]
    by_cases hr : Refused (encode c.encode x)
    · exact ⟨fun h => absurd hr h.1, fun _ => decodeOne_refused c loc hr⟩
    cases hop : operator (A := A) (encode c.encode x) with
    | some k =>
      rw [decodeOne_operator c loc hop]
      have hxs := many_encodeAll xs k []
      exact ⟨fun h => hxs.1 h.2.2,
        fun h => hxs.2 fun hall => h ⟨hr, readable_of_operator hop, hall⟩⟩
    | none =>
      rw [decodeOne_list c loc hop hr]
      have hxs := many_step c loc (decodeOne_encode x) (fun acc => many_encodeAll xs orOf acc) []
      exact ⟨fun h => hxs.1 h.2, fun h => hxs.2 fun hall => h ⟨hr, hall⟩⟩

theorem many_encodeAll : ∀ (xs : List (PredicateLang A))
    (k : List (PredicateLang A) → PredicateLang A)
    (acc : List (PredicateLang A)),
    Reads (many c.decode k acc (T.addLoc.addLocs loc (encodeAll c.encode xs)))
      (ReadableAll c.encode xs) (k (acc.reverse ++ asReadAll c.encode xs))
  | [], k, acc => by
    refine ⟨fun _ => ?_, fun h => absurd trivial h⟩
    rw [asReadAll, List.append_nil]
    rfl
  | x :: xs, k, acc =>
    many_step c loc (decodeOne_encode x) (fun acc => many_encodeAll xs k acc) acc

end

/-- Decoding the encoding of a predicate succeeds and gives a predicate that accepts the same
elements exactly when no list of members starts with an atom that the decoder refuses, and the
predicate accepts the same elements when its constants are read as false and the members of its
conjunctions as those of disjunctions. -/
theorem decode_encode_iff (p : PredicateLang A) :
    (∃ q, decode c.decode [(encode c.encode p).addLoc loc] = .ok q ∧
      ∀ (E : Type) (std : PredicateLang A) (test : A → E → Bool) (elem : E),
        q.test std test elem = p.test std test elem) ↔
    p.Readable c.encode ∧ ∀ (E : Type) (std : PredicateLang A) (test : A → E → Bool) (elem : E),
      (p.asRead c.encode).test std test elem = p.test std test elem := by
  have hdecode : decode c.decode [(encode c.encode p).addLoc loc] =
      decodeOne c.decode ((encode c.encode p).addLoc loc) := by
    rw [decode, many_cons c loc (encode_ne_backslash c p)]
    cases decodeOne c.decode ((encode c.encode p).addLoc loc) <;> rfl
  have hp := decodeOne_encode c loc p
  rw [hdecode]
  constructor
  · rintro ⟨q, hq, htest⟩
    by_cases hreadable : p.Readable c.encode
    · rw [hp.1 hreadable] at hq
      cases hq
      exact ⟨hreadable, htest⟩
    · obtain ⟨e, he⟩ := hp.2 hreadable
      rw [he] at hq
      cases hq
  · rintro ⟨hreadable, htest⟩
    exact ⟨_, hp.1 hreadable, htest⟩

end

section
variable {A E : Type} {f : A → T} {standard : Bool} {accepts : A → E → Bool} {elem : E}

/-- Predicates without the constant true and without conjunctions of other than one member, where
no list of members starts with an atom that the decoder refuses or takes for an operator. -/
inductive Plain (f : A → T) : PredicateLang A → Prop
  | false : Plain f .false
  | element (a : A) : Plain f (.element a)
  | standard : Plain f .standard
  | not {t : PredicateLang A} : Plain f t → Plain f (.not t)
  | or {xs : List (PredicateLang A)} :
      (∀ x ∈ xs.head?, ¬Refused (encode f x) ∧ operator (A := A) (encode f x) = none) →
      (∀ x ∈ xs, Plain f x) → Plain f (.or xs)
  | and {x : PredicateLang A} : Plain f (.or [x]) → Plain f (.and [x])

theorem testWith_orOf : ∀ xs : List (PredicateLang A),
    testWith standard accepts elem (orOf xs) = testAny standard accepts elem xs
  | [] | _ :: _ :: _ => rfl
  | [x] => by rw [orOf, testAny, testAny, Bool.or_false]

theorem keeps_all {xs : List (PredicateLang A)} (h : ∀ x ∈ xs, x.Readable f ∧
      testWith standard accepts elem (x.asRead f) = testWith standard accepts elem x) :
    ReadableAll f xs ∧
      testAny standard accepts elem (asReadAll f xs) = testAny standard accepts elem xs := by
  induction xs with
  | nil => exact ⟨trivial, rfl⟩
  | cons x xs ih =>
    obtain ⟨⟨hreadable, hx⟩, hxs⟩ := List.forall_mem_cons.mp h
    exact ⟨⟨hreadable, (ih hxs).1⟩, congrArg₂ Bool.or hx (ih hxs).2⟩

/-- A plain predicate is read back with the meaning it had. -/
theorem Plain.keeps {p : PredicateLang A} (h : Plain f p) : p.Readable f ∧
    testWith standard accepts elem (p.asRead f) = testWith standard accepts elem p := by
  induction h with
  | false | element a | standard => exact ⟨trivial, rfl⟩
  | not _ ih => exact ⟨ih.1, congrArg Bool.not ((Bool.or_false _).trans ih.2)⟩
  | @or xs hhead _ ih =>
    cases xs with
    | nil => exact ⟨trivial, rfl⟩
    | cons x xs =>
      obtain ⟨hrefused, hoperator⟩ := hhead x rfl
      obtain ⟨hreadable, htest⟩ := keeps_all ih
      rw [asRead, asReadList, hoperator]
      exact ⟨⟨hrefused, hreadable⟩, (testWith_orOf _).trans htest⟩
  | and _ ih => exact ⟨ih.1, ih.2.trans ((Bool.or_false _).trans (Bool.and_true _).symm)⟩

end

/-- Strings, always quoted. -/
def quotedStrings : Codec Bytes where
  encode s := .quotedString s
  decode
    | .quotedString _ s => .ok s
    | ast => .error (.userError ast.loc "Quoted string expected")
  roundTrip _ _ := rfl

/-- `Encoder.bool` and `Decoder.bool`. -/
def bools : Codec Bool where
  encode b := .atom (ascii (if b then "true" else "false"))
  decode
    | .atom loc s =>
      if s = ascii "true" then .ok Bool.true
      else if s = ascii "false" then .ok Bool.false
      else .error (.userError loc ("Unknown value " ++ s.toText))
    | ast => .error (.userError ast.loc "Atom expected")
  roundTrip b _ := by cases b <;> rfl

/-- The constant true is read as false, a conjunction of two strings as their disjunction, and a
disjunction of two elements that are encoded as atoms is refused. -/
theorem decode_encode_differs : let a : PredicateLang Bytes := .element (ascii "a")
    let b : PredicateLang Bytes := .element (ascii "b")
    (decode quotedStrings.decode [(encode quotedStrings.encode .true).addLoc .none] = .ok .false) ∧
    (decode quotedStrings.decode [(encode quotedStrings.encode (.and [a, b])).addLoc .none] =
        .ok (.or [a, b]) ∧
      test (.or [a, b]) .false (· == ·) (ascii "a") = Bool.true ∧
      test (.and [a, b]) .false (· == ·) (ascii "a") = Bool.false) ∧
    decode bools.decode [(encode bools.encode
        (.or [.element Bool.true, .element Bool.false])).addLoc .none] =
      .error (.userError .none quoteMessage) :=
  ⟨rfl, ⟨rfl, rfl, rfl⟩, rfl⟩

end Dune.PredicateLang
