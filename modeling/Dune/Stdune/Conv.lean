import Dune.Stdune.Bytes
import Dune.Stdune.Map

/-!
# Bidirectional conversions

`Conv.t`, a language of combinators that describes how values are written as canonical
S-expressions and read back. The descriptions are data, and `to_sexp` and `of_sexp` interpret
them. `Float` and `Fdecl` (recursive descriptions) are left out.
-/

namespace Dune.Stdune

open Bytes

inductive Csexp where
  | atom (s : Bytes)
  | list (l : List Csexp)

abbrev ConvVersion := Int × Int

inductive ConvError where
  | parseError (message : String) (payload : List (Bytes × Csexp))
  | versionError (since : ConvVersion) (until_ : Option ConvVersion) (message : String)
      (payload : List (Bytes × Csexp))

inductive ConvExn where
  | ofSexp (e : ConvError)
  | codeError (message : String)
  | assertFailure

def raiseOfSexp {α : Type} (payload : List (Bytes × Csexp)) (message : String) :
    Except ConvExn α := .error (.ofSexp (.parseError message payload))

/-! ## Fields -/

/-- Names are compared byte by byte. -/
@[reducible] def byteOrder : LinearOrder UInt8 where
  le_refl := UInt8.le_refl
  le_trans _ _ _ := UInt8.le_trans
  lt_iff_le_not_ge a b := by
    rw [UInt8.lt_iff_toNat_lt, UInt8.le_iff_toNat_le, UInt8.le_iff_toNat_le]
    omega
  le_antisymm _ _ := UInt8.le_antisymm
  le_total := UInt8.le_total
  toDecidableLE := inferInstance
  toDecidableLT := inferInstance
  toDecidableEq := inferInstance

attribute [local instance] byteOrder

/-- `Fields.t`: the fields of a record that have not been read yet. -/
structure ConvFields where
  bindings : List (Bytes × Csexp)
  sorted : Map.Sorted bindings

namespace ConvFields

def find (t : ConvFields) (name : Bytes) : Option Csexp := Map.find t.bindings name

def bindingToSexp (b : Bytes × Csexp) : Csexp := .list [.atom b.1, b.2]

def checkEmpty (t : ConvFields) : Except ConvExn Unit :=
  if t.bindings.isEmpty then .ok ()
  else raiseOfSexp [(ascii "unparsed", .list (t.bindings.map bindingToSexp))] "unexpected fields"

def empty : ConvFields := ⟨[], Map.sorted_nil⟩

/-- `Fields.merge`: a field on both sides is an assertion failure. -/
def merge (a b : ConvFields) : Except ConvExn ConvFields :=
  if a.bindings.any fun x => (b.find x.1).isSome then .error .assertFailure
  else .ok ⟨Map.union (fun _ _ _ => none) a.bindings b.bindings, a.sorted.union⟩

def ofField (name : Bytes) (sexp : Csexp) : ConvFields :=
  ⟨Map.singleton name sexp, Map.sorted_singleton name sexp⟩

/-- The function that `Fields.of_sexp` gives to `String.Map.of_list_map`. -/
def readField : Csexp → Except ConvExn (Bytes × Csexp)
  | .list [.atom s, v] => .ok (s, v)
  | _ => raiseOfSexp [] "unable to read field"

/-- The loop of `String.Map.of_list_map`; a name that is already bound stops it. -/
def ofListLoop (acc : ConvFields) : List Csexp → Except ConvExn (Except Bytes ConvFields)
  | [] => .ok (.ok acc)
  | x :: l => do
    let (k, v) ← readField x
    if (acc.find k).isSome then return .error k
    else ofListLoop ⟨Map.set k v acc.bindings, acc.sorted.set k v⟩ l

/-- `Fields.of_sexp`. When a name is bound twice, `of_list_map` reads every field once more. -/
def ofSexp : Csexp → Except ConvExn ConvFields
  | .atom _ => raiseOfSexp [] "Unexpected atom"
  | .list x => do
    match ← ofListLoop empty x with
    | .ok t => return t
    | .error s => do
      let _ ← x.mapM readField
      raiseOfSexp [(ascii "field", .atom s)] "duplicate fields"

def remove (t : ConvFields) (name : Bytes) : ConvFields :=
  ⟨t.bindings.filter fun b => b.1 != name, t.sorted.filter _⟩

def optional (t : ConvFields) (name : Bytes) : Option Csexp × ConvFields :=
  match t.find name with
  | none => (none, t)
  | some v => (some v, t.remove name)

def required (t : ConvFields) (name : Bytes) : Except ConvExn (Csexp × ConvFields) :=
  match t.optional name with
  | (some s, t) => .ok (s, t)
  | (none, _) => raiseOfSexp [(ascii "name", .atom name)] "missing required field"

def toSexp (t : ConvFields) : Csexp := .list (t.bindings.map bindingToSexp)

end ConvFields

/-! ## Descriptions -/

/-- Whether a description is of a value or of some fields of a record. -/
inductive ConvKind where
  | values
  | fields

/-- What a value is written as. -/
abbrev ConvKind.Written : ConvKind → Type
  | .values => Csexp
  | .fields => ConvFields

/-- `ret`: what is left when a value has been read. -/
abbrev ConvKind.Ret : ConvKind → Type
  | .values => Unit
  | .fields => ConvFields

mutual

/-- `Conv.t`. The functions of `Iso` may raise. The constructors of a `Sum` are numbered; a case
is the number of a constructor with its argument. -/
inductive Conv : Type → ConvKind → Type 1
  | string : Conv Bytes .values
  | int : Conv Int .values
  | unit : Conv Unit .values
  | char : Conv UInt8 .values
  | iso {α β : Type} {k : ConvKind} (t : Conv α k) (f : α → Except ConvExn β) (g : β → α) :
      Conv β k
  | isoResult {α β : Type} {k : ConvKind} (t : Conv α k) (f : α → Except ConvExn β)
      (g : β → α) : Conv β k
  | version {α : Type} {k : ConvKind} (t : Conv α k) (since : ConvVersion)
      (until_ : Option ConvVersion) : Conv α k
  | both {α β : Type} (x : Conv α .fields) (y : Conv β .fields) : Conv (α × β) .fields
  | sexp : Conv Csexp .values
  | list {α : Type} (t : Conv α .values) : Conv (List α) .values
  | fieldRequired {α : Type} (name : Bytes) (t : Conv α .values) : Conv α .fields
  | fieldOptional {α : Type} (name : Bytes) (t : Conv α .values) : Conv (Option α) .fields
  | enum {α : Type} [DecidableEq α] (choices : List (Bytes × α)) : Conv α .values
  | sum {α : Type} {n : Nat} {Arg : Fin n → Type} (name : Fin n → Bytes)
      (arg : (i : Fin n) → Conv (Arg i) .values) (inj : (i : Fin n) → Arg i → α)
      (case : α → (i : Fin n) × Arg i) : Conv α .values
  | pair {α β : Type} (x : Conv α .values) (y : Conv β .values) : Conv (α × β) .values
  | triple {α β γ : Type} (x : Conv α .values) (y : Conv β .values) (z : Conv γ .values) :
      Conv (α × β × γ) .values
  | either {α β : Type} (x : Conv α .fields) (y : Conv β .fields) : Conv (α ⊕ β) .fields
  | record {α : Type} (r : Conv α .fields) : Conv α .values
  | recordFields {ρ : Type} (builder : RecordBuilder ρ ρ) : Conv ρ .fields

inductive RecordBuilder : Type → Type → Type 1
  | make {ρ κ : Type} (constructor : κ) : RecordBuilder ρ κ
  | add {ρ α κ : Type} (builder : RecordBuilder ρ (α → κ)) (fields : Conv α .fields)
      (get : ρ → α) : RecordBuilder ρ κ

end

def enumName {α : Type} [DecidableEq α] (choices : List (Bytes × α)) (a : α) : Option Bytes :=
  choices.findSome? fun c => if a = c.2 then some c.1 else none

mutual

/-- The loop of `Conv.to_sexp`. -/
def Conv.write {α : Type} {k : ConvKind} : Conv α k → α → Except ConvExn k.Written
  | .string, a => .ok (.atom a)
  | .int, a => .ok (.atom (decimalInt a))
  | .unit, _ => .ok (.list [])
  | .char, a => .ok (.atom [a])
  | .sexp, a => .ok a
  | .version t _ _, a => t.write a
  | .list t, a => do return .list (← a.mapM t.write)
  | .pair x y, (a, b) => do return .list [← x.write a, ← y.write b]
  | .triple x y z, (a, b, c) => do return .list [← x.write a, ← y.write b, ← z.write c]
  | .record r, a => do return (← r.write a).toSexp
  | .recordFields builder, a => builder.write a
  | .fieldRequired name t, a => do return .ofField name (← t.write a)
  | .fieldOptional name t, a =>
    match a with
    | none => .ok .empty
    | some a => do return .ofField name (← t.write a)
  | .isoResult t _ g, a => t.write (g a)
  | .iso t _ g, a => t.write (g a)
  | .both x y, a => do
    let x ← x.write a.1
    let y ← y.write a.2
    x.merge y
  | .either x y, a =>
    match a with
    | .inl a => x.write a
    | .inr a => y.write a
  | .sum name arg _ case, a => do
    let c := case a
    let written ← (arg c.1).write c.2
    return .list [.atom (name c.1), written]
  | @Conv.enum _ _ choices, a =>
    match enumName choices a with
    | some v => .ok (.atom v)
    | none => .error (.codeError "enum does not include this value")

/-- The function `record_fields` of `Conv.to_sexp`. -/
def RecordBuilder.write {ρ κ : Type} : RecordBuilder ρ κ → ρ → Except ConvExn ConvFields
  | .make _, _ => .ok .empty
  | .add builder fields get, value => do
    let previous ← builder.write value
    let fields ← fields.write (get value)
    previous.merge fields

end

def Conv.toSexp {α : Type} (t : Conv α .values) (a : α) : Except ConvExn Csexp := t.write a

def ConvVersion.lt (a b : ConvVersion) : Bool := a.1 < b.1 || a.1 = b.1 && a.2 < b.2

def checkVersion (version since : ConvVersion) (until_ : Option ConvVersion) :
    Except ConvExn Unit :=
  if version.lt since || until_.any fun u => u.lt version then
    .error (.ofSexp (.versionError since until_ "invalid version" []))
  else .ok ()

def enumValue {α : Type} (choices : List (Bytes × α)) (name : Bytes) : Option α :=
  (choices.find? fun c => c.1 = name).map Prod.snd

def constrIndex {n : Nat} (name : Fin n → Bytes) (head : Bytes) : Option (Fin n) :=
  (List.finRange n).find? fun i => name i = head

mutual

/-- The loop of `Conv.of_sexp`. -/
def Conv.read (version : ConvVersion) {α : Type} {k : ConvKind} :
    Conv α k → k.Written → Except ConvExn (α × k.Ret)
  | .string, ctx =>
    match ctx with
    | .atom s => .ok (s, ())
    | .list l => raiseOfSexp [(ascii "list", .list l)] "string: expected atom. received list"
  | .int, ctx =>
    match ctx with
    | .list l => raiseOfSexp [(ascii "list", .list l)] "int: expected atom. received list"
    | .atom s =>
      match intOfString s with
      | none => raiseOfSexp [] "unable to read int"
      | some i => .ok (i, ())
  | .unit, ctx =>
    match ctx with
    | .list [] => .ok ((), ())
    | _ => raiseOfSexp [] "expected empty list"
  | .char, ctx =>
    match ctx with
    | .atom [c] => .ok (c, ())
    | .atom _ => raiseOfSexp [] "expected only a single character"
    | .list _ => raiseOfSexp [] "expected a string of length 1"
  | .sexp, ctx => .ok (ctx, ())
  | .version t since until_, ctx => do
    checkVersion version since until_
    t.read version ctx
  | .list t, ctx =>
    match ctx with
    | .list xs => do return (← xs.mapM fun x => do return (← t.read version x).1, ())
    | .atom _ => raiseOfSexp [] "expected list"
  | .pair x y, ctx =>
    match ctx with
    | .list [a, b] => do
      let (a, _) ← x.read version a
      let (b, _) ← y.read version b
      return ((a, b), ())
    | _ => raiseOfSexp [] "expected field entry"
  | .triple x y z, ctx =>
    match ctx with
    | .list [a, b, c] => do
      let (a, _) ← x.read version a
      let (b, _) ← y.read version b
      let (c, _) ← z.read version c
      return ((a, b, c), ())
    | _ => raiseOfSexp [] "expected field entry"
  | .record r, ctx => do
    let fields ← ConvFields.ofSexp ctx
    let (a, f) ← r.read version fields
    f.checkEmpty
    return (a, ())
  | .recordFields builder, ctx => builder.read version ctx
  | .fieldRequired name v, ctx => do
    let (field, rest) ← ConvFields.required ctx name
    let (t, _) ← v.read version field
    return (t, rest)
  | .fieldOptional name v, ctx =>
    match ConvFields.optional ctx name with
    | (none, rest) => .ok (none, rest)
    | (some f, rest) => do
      let (a, _) ← v.read version f
      return (some a, rest)
  | .either x y, ctx =>
    match x.read version ctx with
    | .ok (a, x) => .ok (.inl a, x)
    | .error (.ofSexp _) => do
      let (a, y) ← y.read version ctx
      return (.inr a, y)
    | .error e => .error e
  | .iso t f _, ctx => do
    let (a, k) ← t.read version ctx
    return (← f a, k)
  | .isoResult t f _, ctx => do
    let (a, k) ← t.read version ctx
    return (← f a, k)
  | .both x y, ctx => do
    let (a, k) ← x.read version ctx
    let (b, k) ← y.read version k
    return ((a, b), k)
  | .sum name arg inj _, ctx =>
    match ctx with
    | .list [.atom head, args] =>
      match constrIndex name head with
      | none => raiseOfSexp [] "invalid constructor name"
      | some i => do
        let (a, k) ← (arg i).read version args
        return (inj i a, k)
    | _ => raiseOfSexp [] "expected constructor"
  | @Conv.enum _ _ choices, ctx =>
    match ctx with
    | .list _ => raiseOfSexp [] "expected list"
    | .atom a =>
      match enumValue choices a with
      | none => raiseOfSexp [] "unable to read enum"
      | some s => .ok (s, ())

/-- The function `record_fields` of `Conv.of_sexp`. -/
def RecordBuilder.read (version : ConvVersion) {ρ κ : Type} :
    RecordBuilder ρ κ → ConvFields → Except ConvExn (κ × ConvFields)
  | .make constructor, ctx => .ok (constructor, ctx)
  | .add builder fields _, ctx => do
    let (constructor, rest) ← builder.read version ctx
    let (value, rest) ← fields.read version rest
    return (constructor value, rest)

end

def Conv.ofSexp {α : Type} (t : Conv α .values) (version : ConvVersion) (sexp : Csexp) :
    Except ConvExn (Except ConvError α) :=
  match t.read version sexp with
  | .ok (a, _) => .ok (.ok a)
  | .error (.ofSexp e) => .ok (.error e)
  | .error e => .error e

def Conv.three {α β γ : Type} (a : Conv α .fields) (b : Conv β .fields) (c : Conv γ .fields) :
    Conv (α × β × γ) .fields :=
  .iso (.both a (.both b c)) (fun x => .ok (x.1, x.2.1, x.2.2)) fun x => (x.1, x.2.1, x.2.2)

end Dune.Stdune
