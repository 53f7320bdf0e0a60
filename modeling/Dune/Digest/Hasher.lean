import Dune.Stdune.Bytes

/-!
# The shared hasher

`digest.ml` has one hasher, `Hasher.singleton`, for the computations of `Manual` and for the digests
of one value (`Digest.string`, `Digest.repr`). `Manual` gathers its input in one scratch buffer in
front of it. A hasher is the bytes that it has been fed since it was created or reset. The counters
of `Metrics` and the pool of hashers for other threads are left out.
-/

namespace Dune.Digest

open Dune.Stdune
open EStateM (Result)

/-- `Int64.of_int`, in the bytes of `Bytes.set_int64_le`. -/
def le64 (i : Int) : Bytes :=
  (List.range 8).map fun k => UInt8.ofNat ((BitVec.ofInt 64 i).toNat / 256 ^ k)

def boolByte (b : Bool) : UInt8 := if b then 1 else 0

/-- `Bytes.blit_string`: `src` is written at `pos`. -/
def blit (src dst : Bytes) (pos : Nat) : Bytes := dst.take pos ++ src ++ dst.drop (pos + src.length)

/-! ## Values under a representation -/

/-- A value as `feed_repr` sees it under a `Repr.t`: views are applied, the case of a variant is
chosen. Where a function of the representation raises, or no case matches, or the representation
is abstract, that stands in the place of the value. -/
inductive Datum where
  | unit
  | bool (b : Bool)
  | int (i : Int)
  | string (s : Bytes)
  | int32 (i : Int)
  | int64 (i : Int)
  | nativeint (i : Int)
  | bytes (s : Bytes)
  | char (c : UInt8)
  | float (bits : Int)
  | none
  | some (x : Datum)
  | list (l : List Datum)
  | array (l : List Datum)
  | pair (x y : Datum)
  | triple (x y z : Datum)
  | quadruple (x y z w : Datum)
  | record (fields : List (Bytes × Datum))
  | case0 (tag : Bytes)
  | case1 (tag : Bytes) (x : Datum)
  | noCase
  | abstract
  | raises (e : Exn)

/-- A hasher with the scratch buffer of `feed_repr`. -/
structure Sink where
  fed : Bytes
  scratch : Bytes
deriving DecidableEq, Repr

/-- An effect of a feed. An exception keeps what was fed before it. -/
abbrev Feed := EStateM Exn Sink Unit

def feedStringRaw (s : Bytes) : Feed :=
  modify fun st => { st with fed := st.fed ++ s }

/-- `feed_bytes_raw` on the scratch buffer after `src` was written into it at `0`. -/
def feedScratch (src : Bytes) : Feed :=
  modify fun st =>
    let scratch := blit src st.scratch 0
    ⟨st.fed ++ scratch.take src.length, scratch⟩

def feedBool (b : Bool) : Feed := feedScratch [boolByte b]

def feedInt (i : Int) : Feed := feedScratch (le64 i)

def feedString (s : Bytes) : Feed := do
  feedInt s.length
  feedStringRaw s

/-- `feed_int_and_int64` and `feed_int_and_int`. -/
def feedIntAndInt (first second : Int) : Feed := feedScratch (le64 first ++ le64 second)

def feedIntAndBool (i : Int) (b : Bool) : Feed := feedScratch (le64 i ++ [boolByte b])

def feedStringRawAndBool (s : Bytes) (b : Bool) : Feed := do
  if s.length < (← get).scratch.length then feedScratch (s ++ [boolByte b])
  else
    feedStringRaw s
    feedBool b

mutual

/-- `feed_repr`, with the cases of `feed_repr_cases`. -/
def feedRepr : Datum → Feed
  | .unit => feedIntAndBool 1 false
  | .bool b => feedIntAndBool 2 b
  | .int i => feedIntAndInt 3 i
  | .string s => do
    feedIntAndInt 4 s.length
    feedStringRaw s
  | .int32 i => feedIntAndInt 12 i
  | .int64 i => feedIntAndInt 13 i
  | .nativeint i => feedIntAndInt 14 i
  | .bytes s => do
    feedIntAndInt 15 s.length
    feedStringRaw s
  | .char c => feedIntAndInt 16 c.toNat
  | .float bits => feedIntAndInt 17 bits
  | .none => feedIntAndBool 5 false
  | .some x => do
    feedIntAndBool 5 true
    feedRepr x
  | .list l => do
    feedIntAndInt 6 l.length
    feedReprs l
  | .array l => do
    feedIntAndInt 7 l.length
    feedReprs l
  | .pair x y => do
    feedInt 8
    feedRepr x
    feedRepr y
  | .triple x y z => do
    feedInt 9
    feedRepr x
    feedRepr y
    feedRepr z
  | .quadruple x y z w => do
    feedInt 18
    feedRepr x
    feedRepr y
    feedRepr z
    feedRepr w
  | .record fields => do
    feedInt 10
    feedInt fields.length
    feedReprFields fields
  | .case0 tag => do
    feedIntAndInt 11 tag.length
    feedStringRawAndBool tag false
  | .case1 tag x => do
    feedIntAndInt 11 tag.length
    feedStringRawAndBool tag true
    feedRepr x
  | .noCase => do
    feedInt 11
    throw (.codeError "Repr.variant: value did not match any case")
  | .abstract => throw (.codeError "Digest.repr does not support Repr.abstract")
  | .raises e => throw e

def feedReprs : List Datum → Feed
  | [] => pure ()
  | x :: l => do
    feedRepr x
    feedReprs l

def feedReprFields : List (Bytes × Datum) → Feed
  | [] => pure ()
  | (name, x) :: fields => do
    feedString name
    feedRepr x
    feedReprFields fields

end

/-! ## The global variables -/

def scratchLen : Nat := 32768

/-- `Hasher.singleton`, `Hasher.Scratch` and `Hasher.singleton_in_use`. -/
structure Hasher where
  fed : Bytes
  buf : Bytes
  pos : Nat
  inUse : Bool
deriving DecidableEq, Repr

namespace Hasher

/-- The variables of a fresh process. -/
def init : Hasher := ⟨[], List.replicate scratchLen 0, 0, false⟩

def flush (st : Hasher) : Hasher :=
  if 0 < st.pos then { st with fed := st.fed ++ st.buf.take st.pos, pos := 0 } else st

/-- The scratch buffer, flushed when `length` bytes do not fit any more. -/
def reserve (st : Hasher) (length : Nat) : Hasher :=
  if scratchLen < st.pos + length then st.flush else st

def write (st : Hasher) (s : Bytes) : Hasher :=
  { st with buf := blit s st.buf st.pos, pos := st.pos + s.length }

def feedManualString (s : Bytes) (st : Hasher) : Hasher :=
  if scratchLen < s.length then
    let st := st.flush
    { st with fed := st.fed ++ s }
  else (st.reserve s.length).write s

def feedManualInt (i : Int) (st : Hasher) : Hasher := (st.reserve 8).write (le64 i)

def feedManualSizedString (s : Bytes) (st : Hasher) : Hasher :=
  if (s.length : Int) ≤ (scratchLen : Int) - st.pos - 8 then
    { st with
      buf := blit s (blit (le64 s.length) st.buf st.pos) (st.pos + 8)
      pos := st.pos + 8 + s.length }
  else (st.feedManualInt s.length).feedManualString s

def feedManualBool (b : Bool) (st : Hasher) : Hasher :=
  (if st.pos = scratchLen then st.flush else st).write [boolByte b]

end Hasher

/-! ## Calls -/

/-- The calls of `Manual` that feed a computation, for a type `D` of digests. -/
inductive Manual (D : Type) where
  | bool (b : Bool)
  | int (i : Int)
  | string (s : Bytes)
  | stringWithSeparator (left separator right : Bytes)
  | repr (x : Datum)
  | digest (x : D)

/-- The calls of `Manual`, with a name for the computation that a call is part of, and the digests
of one value. -/
inductive Call (D : Type) where
  | create (m : Nat)
  | feed (m : Nat) (op : Manual D)
  | get (m : Nat)
  | string (s : Bytes)
  | repr (x : Datum)

section Calls

variable {D : Type} (hash : Bytes → D) (toBinary : D → Bytes)

/-- The functions of `Manual` that feed. -/
def Manual.exec : Manual D → EStateM Exn Hasher Unit
  | .bool b => modify (·.feedManualBool b)
  | .int i => modify (·.feedManualInt i)
  | .string s => modify (·.feedManualSizedString s)
  | .stringWithSeparator left separator right => do
    modify (·.feedManualInt (left.length + separator.length + right.length : Nat))
    modify (·.feedManualString left)
    modify (·.feedManualString separator)
    modify (·.feedManualString right)
  | .repr x => do
    modify (·.flush)
    fun st =>
      match feedRepr x ⟨st.fed, st.buf⟩ with
      | .ok _ sink => .ok () { st with fed := sink.fed, buf := sink.scratch }
      | .error e sink => .error e { st with fed := sink.fed, buf := sink.scratch }
  | .digest x => modify (·.feedManualString (toBinary x))

/-- The message of `with_singleton` when the hasher is in use. -/
def inUseMessage : String :=
  "[Hasher.with_singleton] called within argument function to " ++
    "[Hasher.with_singleton], which is not allowed."

/-- `with_singleton`. The scratch buffer of the feed is new; its contents are written before they
are fed. -/
def withSingleton (feed : Feed) : EStateM Exn Hasher D := do
  if (← get).inUse then throw (.codeError inUseMessage)
  else
    modify fun st => { st.flush with inUse := true }
    fun st =>
      match feed ⟨st.fed, List.replicate 16 0⟩ with
      | .error e sink => .error e { st with fed := sink.fed }
      | .ok _ sink => .ok (hash sink.fed) { st with fed := [], inUse := false }

def Manual.get : EStateM Exn Hasher D := do
  modify (·.flush)
  modifyGet fun st => (hash st.fed, { st with fed := [] })

/-- A call, with the digest that it returns. -/
def Call.exec : Call D → EStateM Exn Hasher (Option D)
  | .create _ => return none
  | .feed _ op => do
    op.exec toBinary
    return none
  | .get _ => do
    let digest ← Manual.get hash
    return some digest
  | .string s => do
    let digest ← withSingleton hash (feedStringRaw s)
    return some digest
  | .repr x => do
    let digest ← withSingleton hash (feedRepr x)
    return some digest

def stateOf {α : Type} : Result Exn Hasher α → Hasher
  | .ok _ st | .error _ st => st

def outcomeOf {α : Type} : Result Exn Hasher α → Except Exn α
  | .ok a _ => .ok a
  | .error e _ => .error e

/-- The variables after the calls, each made whatever the ones before have raised. -/
def after (calls : List (Call D)) : Hasher :=
  calls.foldl (fun st call => stateOf (call.exec hash toBinary st)) .init

/-- What a call returns or raises after other calls. -/
def outcome (calls : List (Call D)) (call : Call D) : Except Exn (Option D) :=
  outcomeOf (call.exec hash toBinary (after hash toBinary calls))

end Calls

end Dune.Digest
