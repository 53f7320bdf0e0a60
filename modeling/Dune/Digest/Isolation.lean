import Dune.Digest.Hasher

/-!
# What a digest is made of

A digest is the hash of everything that was fed since the last digest was taken, by whichever
computation. The scratch buffer does not show. A digest that is taken inside a computation of
`Manual` takes over what the computation has been fed so far.
-/

namespace Dune.Digest

open List Dune.Stdune
open EStateM (Result)

@[simp] theorem length_le64 (i : Int) : (le64 i).length = 8 := by simp [le64]

@[simp] theorem length_blit (src dst : Bytes) (pos : Nat) (h : pos + src.length ≤ dst.length) :
    (blit src dst pos).length = dst.length := by
  simp only [blit, length_append, length_take, length_drop]
  omega

theorem take_blit (src dst : Bytes) (pos : Nat) (h : pos ≤ dst.length) :
    (blit src dst pos).take (pos + src.length) = dst.take pos ++ src := by
  unfold blit
  rw [take_append_of_le_length]
  · rw [take_of_length_le]
    simp only [length_append, length_take]
    omega
  · simp only [length_append, length_take]
    omega

theorem bind_run {S α β : Type} (x : EStateM Exn S α) (f : α → EStateM Exn S β) (st : S) :
    (x >>= f) st =
      match x st with
      | .ok a st => f a st
      | .error e st => .error e st := by
  change EStateM.bind x f st = _
  unfold EStateM.bind
  cases x st <;> rfl

/-! ## What a value is fed as -/

/-- The bytes that a feed adds, and the exception that stops it. -/
structure Output where
  bytes : Bytes
  stop : Option Exn

namespace Output

def of (s : Bytes) : Output := ⟨s, none⟩

def raise (e : Exn) : Output := ⟨[], some e⟩

def andThen (x y : Output) : Output :=
  match x.stop with
  | none => ⟨x.bytes ++ y.bytes, y.stop⟩
  | some _ => x

end Output

def intAndBool (i : Int) (b : Bool) : Output := .of (le64 i ++ [boolByte b])

def intAndInt (i j : Int) : Output := .of (le64 i ++ le64 j)

mutual

def Datum.encode : Datum → Output
  | .unit => intAndBool 1 false
  | .bool b => intAndBool 2 b
  | .int i => intAndInt 3 i
  | .string s => (intAndInt 4 s.length).andThen (.of s)
  | .int32 i => intAndInt 12 i
  | .int64 i => intAndInt 13 i
  | .nativeint i => intAndInt 14 i
  | .bytes s => (intAndInt 15 s.length).andThen (.of s)
  | .char c => intAndInt 16 c.toNat
  | .float bits => intAndInt 17 bits
  | .none => intAndBool 5 false
  | .some x => (intAndBool 5 true).andThen x.encode
  | .list l => (intAndInt 6 l.length).andThen (Datum.encodes l)
  | .array l => (intAndInt 7 l.length).andThen (Datum.encodes l)
  | .pair x y => (Output.of (le64 8)).andThen (x.encode.andThen y.encode)
  | .triple x y z => (Output.of (le64 9)).andThen (x.encode.andThen (y.encode.andThen z.encode))
  | .quadruple x y z w =>
    (Output.of (le64 18)).andThen
      (x.encode.andThen (y.encode.andThen (z.encode.andThen w.encode)))
  | .record fields =>
    (Output.of (le64 10)).andThen
      ((Output.of (le64 fields.length)).andThen (Datum.encodeFields fields))
  | .case0 tag => (intAndInt 11 tag.length).andThen (.of (tag ++ [boolByte false]))
  | .case1 tag x =>
    (intAndInt 11 tag.length).andThen ((Output.of (tag ++ [boolByte true])).andThen x.encode)
  | .noCase =>
    (Output.of (le64 11)).andThen (.raise (.codeError "Repr.variant: value did not match any case"))
  | .abstract => .raise (.codeError "Digest.repr does not support Repr.abstract")
  | .raises e => .raise e

def Datum.encodes : List Datum → Output
  | [] => .of []
  | x :: l => x.encode.andThen (Datum.encodes l)

def Datum.encodeFields : List (Bytes × Datum) → Output
  | [] => .of []
  | (name, x) :: fields =>
    (Output.of (le64 name.length)).andThen
      ((Output.of name).andThen (x.encode.andThen (Datum.encodeFields fields)))

end

/-- The feed adds the output, whatever the scratch buffer holds. -/
def Feeds (feed : Feed) (out : Output) : Prop :=
  ∀ st : Sink, 16 ≤ st.scratch.length →
    ∃ scratch, scratch.length = st.scratch.length ∧
      feed st = match out.stop with
        | none => .ok () ⟨st.fed ++ out.bytes, scratch⟩
        | some e => .error e ⟨st.fed ++ out.bytes, scratch⟩

theorem Feeds.andThen {feed feed' : Feed} {out out' : Output} (h : Feeds feed out)
    (h' : Feeds feed' out') : Feeds (do feed; feed') (out.andThen out') := by
  intro st hlen
  obtain ⟨scratch, hscratch, hfeed⟩ := h st hlen
  cases hstop : out.stop with
  | some e =>
    refine ⟨scratch, hscratch, ?_⟩
    rw [bind_run, hfeed]
    simp only [Output.andThen, hstop]
  | none =>
    obtain ⟨scratch', hscratch', hfeed'⟩ := h' ⟨st.fed ++ out.bytes, scratch⟩ (hscratch ▸ hlen)
    refine ⟨scratch', hscratch'.trans hscratch, ?_⟩
    rw [bind_run, hfeed]
    simp [Output.andThen, hstop, hfeed']

theorem feeds_pure : Feeds (pure ()) (.of []) := by
  intro st _
  refine ⟨st.scratch, rfl, ?_⟩
  simp only [Output.of, append_nil]
  rfl

theorem feeds_throw (e : Exn) : Feeds (throw e) (.raise e) := by
  intro st _
  refine ⟨st.scratch, rfl, ?_⟩
  simp only [Output.raise, append_nil]
  rfl

theorem feedStringRaw_feeds (s : Bytes) : Feeds (feedStringRaw s) (.of s) :=
  fun st _ => ⟨st.scratch, rfl, rfl⟩

variable {src s : Bytes}

theorem feedScratch_run {st : Sink} (h : src.length ≤ st.scratch.length) :
    ∃ scratch, scratch.length = st.scratch.length ∧
      feedScratch src st = .ok () ⟨st.fed ++ src, scratch⟩ := by
  refine ⟨blit src st.scratch 0, length_blit src st.scratch 0 (by omega), ?_⟩
  have htake := take_blit src st.scratch 0 (Nat.zero_le _)
  rw [Nat.zero_add] at htake
  change Result.ok () (⟨st.fed ++ (blit src st.scratch 0).take src.length, _⟩ : Sink) = _
  rw [htake]
  rfl

theorem feedScratch_feeds (h : src.length ≤ 16) : Feeds (feedScratch src) (.of src) :=
  fun _ hlen => feedScratch_run (Nat.le_trans h hlen)

theorem feedBool_feeds (b : Bool) : Feeds (feedBool b) (.of [boolByte b]) :=
  feedScratch_feeds (by simp)

theorem feedInt_feeds (i : Int) : Feeds (feedInt i) (.of (le64 i)) := feedScratch_feeds (by simp)

theorem feedIntAndInt_feeds (i j : Int) : Feeds (feedIntAndInt i j) (intAndInt i j) :=
  feedScratch_feeds (by simp)

theorem feedIntAndBool_feeds (i : Int) (b : Bool) : Feeds (feedIntAndBool i b) (intAndBool i b) :=
  feedScratch_feeds (by simp)

/-- A tag that fits into the scratch buffer is fed together with its byte. -/
theorem feedStringRawAndBool_feeds (s : Bytes) (b : Bool) :
    Feeds (feedStringRawAndBool s b) (.of (s ++ [boolByte b])) := by
  intro st hlen
  have hrun : feedStringRawAndBool s b st =
      if s.length < st.scratch.length then feedScratch (s ++ [boolByte b]) st
      else (do feedStringRaw s; feedBool b) st := by
    unfold feedStringRawAndBool
    rw [bind_run]
    change (if s.length < st.scratch.length then _ else _ : Feed) st = _
    split <;> rfl
  rw [hrun]
  split
  · next h => exact feedScratch_run (by simpa using Nat.succ_le_of_lt h)
  · exact (feedStringRaw_feeds s).andThen (feedBool_feeds b) st hlen

mutual

theorem feedRepr_feeds : (x : Datum) → Feeds (feedRepr x) x.encode
  | .unit | .bool _ | .none => feedIntAndBool_feeds _ _
  | .int _ | .int32 _ | .int64 _ | .nativeint _ | .char _ | .float _ => feedIntAndInt_feeds _ _
  | .string s | .bytes s => (feedIntAndInt_feeds _ _).andThen (feedStringRaw_feeds s)
  | .some x => (feedIntAndBool_feeds _ _).andThen (feedRepr_feeds x)
  | .list l | .array l => (feedIntAndInt_feeds _ _).andThen (feedReprs_feeds l)
  | .pair x y => (feedInt_feeds _).andThen ((feedRepr_feeds x).andThen (feedRepr_feeds y))
  | .triple x y z =>
    (feedInt_feeds _).andThen
      ((feedRepr_feeds x).andThen ((feedRepr_feeds y).andThen (feedRepr_feeds z)))
  | .quadruple x y z w =>
    (feedInt_feeds _).andThen
      ((feedRepr_feeds x).andThen
        ((feedRepr_feeds y).andThen ((feedRepr_feeds z).andThen (feedRepr_feeds w))))
  | .record fields =>
    (feedInt_feeds _).andThen ((feedInt_feeds _).andThen (feedReprFields_feeds fields))
  | .case0 tag => (feedIntAndInt_feeds _ _).andThen (feedStringRawAndBool_feeds tag _)
  | .case1 tag x =>
    (feedIntAndInt_feeds _ _).andThen
      ((feedStringRawAndBool_feeds tag _).andThen (feedRepr_feeds x))
  | .noCase => (feedInt_feeds _).andThen (feeds_throw _)
  | .abstract | .raises _ => feeds_throw _

theorem feedReprs_feeds : (l : List Datum) → Feeds (feedReprs l) (Datum.encodes l)
  | [] => feeds_pure
  | x :: l => (feedRepr_feeds x).andThen (feedReprs_feeds l)

theorem feedReprFields_feeds :
    (fields : List (Bytes × Datum)) → Feeds (feedReprFields fields) (Datum.encodeFields fields)
  | [] => feeds_pure
  | (name, x) :: fields =>
    (feedInt_feeds _).andThen
      ((feedStringRaw_feeds name).andThen
        ((feedRepr_feeds x).andThen (feedReprFields_feeds fields)))

end

/-! ## The scratch buffer -/

variable {st : Hasher}

namespace Hasher

/-- The scratch buffer has its size, and the position is in it. -/
structure Ok (st : Hasher) : Prop where
  length_buf : st.buf.length = scratchLen
  pos_le : st.pos ≤ scratchLen

/-- What the hasher has been fed, with what waits in the scratch buffer. -/
def pending (st : Hasher) : Bytes := st.fed ++ st.buf.take st.pos

/-- Some bytes are added, in the hasher or in the scratch buffer. -/
structure Adds (st st' : Hasher) (s : Bytes) : Prop where
  ok : st'.Ok
  pending : st'.pending = st.pending ++ s
  inUse : st'.inUse = st.inUse

theorem Adds.trans {st' st'' : Hasher} {s' : Bytes} (h : Adds st st' s) (h' : Adds st' st'' s') :
    Adds st st'' (s ++ s') where
  ok := h'.ok
  pending := by rw [h'.pending, h.pending, append_assoc]
  inUse := h'.inUse.trans h.inUse

variable {st : Hasher}

theorem init_ok : init.Ok where
  length_buf := length_replicate
  pos_le := Nat.zero_le _

theorem flush_pos (st : Hasher) : st.flush.pos = 0 := by
  unfold flush
  split
  · rfl
  · next h => exact Nat.eq_zero_of_not_pos h

theorem flush_fed (st : Hasher) : st.flush.fed = st.pending := by
  unfold flush pending
  split
  · rfl
  · next h => rw [Nat.eq_zero_of_not_pos h, take_zero, append_nil]

theorem pending_of_pos_zero (h : st.pos = 0) : st.pending = st.fed := by
  rw [pending, h, take_zero, append_nil]

theorem pending_flushed (st : Hasher) (fed buf : Bytes) :
    ({ st.flush with fed := fed, buf := buf } : Hasher).pending = fed := by
  rw [pending_of_pos_zero]
  exact st.flush_pos

theorem flush_adds (h : st.Ok) : Adds st st.flush [] where
  ok := by
    refine ⟨?_, by rw [flush_pos]; exact Nat.zero_le _⟩
    unfold flush
    split <;> exact h.length_buf
  pending := by rw [pending_of_pos_zero st.flush_pos, flush_fed, append_nil]
  inUse := by
    unfold flush
    split <;> rfl

theorem write_adds (h : st.Ok) (hs : st.pos + s.length ≤ scratchLen) : Adds st (st.write s) s where
  ok := ⟨(length_blit _ _ _ (by rw [h.length_buf]; exact hs)).trans h.length_buf, hs⟩
  pending := by
    have htake := take_blit s st.buf st.pos (by rw [h.length_buf]; exact h.pos_le)
    simp [pending, write, htake]
  inUse := rfl

theorem reserve_adds (h : st.Ok) (length : Nat) : Adds st (st.reserve length) [] := by
  unfold reserve
  split
  · exact flush_adds h
  · exact ⟨h, (append_nil _).symm, rfl⟩

theorem reserve_fits (st : Hasher) {length : Nat} (h : length ≤ scratchLen) :
    (st.reserve length).pos + length ≤ scratchLen := by
  unfold reserve
  split
  · rw [flush_pos, Nat.zero_add]
    exact h
  · next hfits => exact Nat.le_of_not_lt hfits

theorem feedManualString_adds (h : st.Ok) (s : Bytes) : Adds st (st.feedManualString s) s := by
  unfold feedManualString
  split
  · have hflush := flush_adds h
    refine ⟨{ hflush.ok with }, ?_, hflush.inUse⟩
    exact (pending_flushed st _ _).trans (congrArg (· ++ s) st.flush_fed)
  · next hs =>
    have hwrite := write_adds (reserve_adds h s.length).ok
      (st.reserve_fits (Nat.le_of_not_lt hs))
    exact (reserve_adds h s.length).trans hwrite

theorem feedManualInt_adds (h : st.Ok) (i : Int) : Adds st (st.feedManualInt i) (le64 i) := by
  have hfits : (st.reserve 8).pos + (le64 i).length ≤ scratchLen := by
    rw [length_le64]
    exact st.reserve_fits (by decide)
  exact (reserve_adds h 8).trans (write_adds (reserve_adds h 8).ok hfits)

theorem feedManualSizedString_adds (h : st.Ok) (s : Bytes) :
    Adds st (st.feedManualSizedString s) (le64 s.length ++ s) := by
  unfold feedManualSizedString
  split
  · next hs =>
    -- The length and the text are written one after the other.
    have hint : Adds st (st.write (le64 s.length)) (le64 s.length) :=
      write_adds h (by rw [length_le64]; omega)
    have htext : Adds (st.write (le64 s.length)) ((st.write (le64 s.length)).write s) s :=
      write_adds hint.ok (by simp only [write, length_le64]; omega)
    have heq : { st with
        buf := blit s (blit (le64 s.length) st.buf st.pos) (st.pos + 8)
        pos := st.pos + 8 + s.length } = (st.write (le64 s.length)).write s := by
      simp [write]
    rw [heq]
    exact hint.trans htext
  · exact (feedManualInt_adds h _).trans (feedManualString_adds (feedManualInt_adds h _).ok s)

theorem feedManualBool_adds (h : st.Ok) (b : Bool) :
    Adds st (st.feedManualBool b) [boolByte b] := by
  unfold feedManualBool
  split
  · have hfits : st.flush.pos + [boolByte b].length ≤ scratchLen := by
      rw [flush_pos, Nat.zero_add, length_singleton]
      decide
    exact (flush_adds h).trans (write_adds (flush_adds h).ok hfits)
  · next hpos =>
    have hle := h.pos_le
    exact write_adds h (by simp only [length_singleton]; omega)

end Hasher

/-! ## Calls -/

section Calls

variable {D : Type} {hash : Bytes → D} {toBinary : D → Bytes}

variable (toBinary) in
def Manual.output : Manual D → Output
  | .bool b => .of [boolByte b]
  | .int i => .of (le64 i)
  | .string s => .of (le64 s.length ++ s)
  | .stringWithSeparator left separator right =>
    .of (le64 (left ++ separator ++ right).length ++ (left ++ separator ++ right))
  | .repr x => x.encode
  | .digest x => .of (toBinary x)

open Hasher

/-- A result that has added an output. -/
inductive Added (st : Hasher) (out : Output) : Result Exn Hasher Unit → Prop
  | ok {st' : Hasher} : out.stop = none → Adds st st' out.bytes → Added st out (.ok () st')
  | error {st' : Hasher} {e : Exn} : out.stop = some e → Adds st st' out.bytes →
      Added st out (.error e st')

theorem Manual.exec_repr (x : Datum) (st : Hasher) :
    Manual.exec toBinary (.repr x) st =
      match feedRepr x ⟨st.flush.fed, st.flush.buf⟩ with
      | .ok _ sink => .ok () { st.flush with fed := sink.fed, buf := sink.scratch }
      | .error e sink => .error e { st.flush with fed := sink.fed, buf := sink.scratch } :=
  rfl

theorem Manual.exec_added (op : Manual D) (h : st.Ok) :
    Added st (op.output toBinary) (op.exec toBinary st) := by
  cases op with
  | bool b => exact .ok rfl (feedManualBool_adds h b)
  | int i => exact .ok rfl (feedManualInt_adds h i)
  | string s => exact .ok rfl (feedManualSizedString_adds h s)
  | digest x => exact .ok rfl (feedManualString_adds h _)
  | stringWithSeparator left separator right =>
    have h₁ := feedManualInt_adds h (left.length + separator.length + right.length : Nat)
    have h₂ := feedManualString_adds h₁.ok left
    have h₃ := feedManualString_adds h₂.ok separator
    have h₄ := feedManualString_adds h₃.ok right
    refine .ok rfl ?_
    have hall := ((h₁.trans h₂).trans h₃).trans h₄
    have hbytes : le64 (left.length + separator.length + right.length : Nat) ++ left ++ separator ++
        right = le64 (left ++ separator ++ right).length ++ (left ++ separator ++ right) := by
      simp [Nat.add_assoc]
    rw [hbytes] at hall
    exact hall
  | repr x =>
    have hflush := flush_adds h
    obtain ⟨scratch, hscratch, hfeed⟩ := feedRepr_feeds x ⟨st.flush.fed, st.flush.buf⟩
      (by rw [hflush.ok.length_buf]; decide)
    have hadds : Adds st { st.flush with fed := st.flush.fed ++ x.encode.bytes, buf := scratch }
        x.encode.bytes := by
      refine ⟨⟨hscratch.trans hflush.ok.length_buf, hflush.ok.pos_le⟩, ?_, hflush.inUse⟩
      exact (pending_flushed st _ _).trans (congrArg (· ++ x.encode.bytes) st.flush_fed)
    rw [Manual.exec_repr, hfeed]
    cases hstop : x.encode.stop with
    | none => exact .ok hstop hadds
    | some e => exact .error hstop hadds

variable (hash)

theorem withSingleton_eq (feed : Feed) (h : st.inUse = false) :
    withSingleton hash feed st =
      match feed ⟨st.flush.fed, List.replicate 16 0⟩ with
      | .error e sink => .error e { st.flush with inUse := true, fed := sink.fed }
      | .ok _ sink => .ok (hash sink.fed) { st.flush with fed := [], inUse := false } := by
  unfold withSingleton
  rw [bind_run]
  change (if st.inUse = true then _ else _ : EStateM Exn Hasher D) st = _
  rw [if_neg (by simp [h])]
  rfl

/-- The digest of one value is the hash of what waits and of the value; after an exception the
hasher stays in use. -/
theorem withSingleton_run {feed : Feed} {out : Output} (hfeed : Feeds feed out) (hok : st.Ok)
    (h : st.inUse = false) :
    ∃ st' : Hasher, st'.Ok ∧
      ((out.stop = none ∧ st'.pending = [] ∧ st'.inUse = false ∧
          withSingleton hash feed st = .ok (hash (st.pending ++ out.bytes)) st') ∨
        ∃ e, out.stop = some e ∧ st'.inUse = true ∧ withSingleton hash feed st = .error e st') := by
  have hflush := flush_adds hok
  obtain ⟨scratch, -, hrun⟩ := hfeed ⟨st.flush.fed, List.replicate 16 0⟩ (by simp)
  rw [withSingleton_eq hash feed h, hrun]
  cases hstop : out.stop with
  | none =>
    refine ⟨{ st.flush with fed := [], inUse := false }, ?_, .inl ⟨rfl, ?_, rfl, ?_⟩⟩
    · exact { hflush.ok with }
    · exact pending_of_pos_zero st.flush_pos
    · simp only [st.flush_fed]
  | some e =>
    refine ⟨{ st.flush with inUse := true, fed := st.flush.fed ++ out.bytes }, ?_,
      .inr ⟨e, rfl, rfl, rfl⟩⟩
    exact { hflush.ok with }

theorem Manual.get_run (hok : st.Ok) :
    ∃ st' : Hasher, st'.Ok ∧ st'.pending = [] ∧ st'.inUse = st.inUse ∧
      Manual.get hash st = .ok (hash st.pending) st' := by
  have hflush := flush_adds hok
  refine ⟨{ st.flush with fed := [] }, { hflush.ok with },
    pending_of_pos_zero st.flush_pos, hflush.inUse, ?_⟩
  change Result.ok (hash st.flush.fed) { st.flush with fed := [] } = _
  rw [st.flush_fed]

variable {hash}

/-! ## Sequences of calls -/

/-- A digest of one value that is stopped by an exception. -/
def Call.aborts : Call D → Bool
  | .repr x => x.encode.stop.isSome
  | _ => false

variable (toBinary) in
/-- What waits after a call, if `p` waits before it: a digest takes everything. -/
def Call.next (p : Bytes) : Call D → Bytes
  | .create _ => p
  | .feed _ op => p ++ (op.output toBinary).bytes
  | .get _ | .string _ | .repr _ => []

variable (toBinary) in
/-- The bytes fed since the last digest was taken. -/
def pending (calls : List (Call D)) : Bytes := calls.foldl (Call.next toBinary) []

/-- The variables agree with what waits, and no digest of one value has been stopped. -/
structure Waits (st : Hasher) (p : Bytes) : Prop where
  ok : st.Ok
  pending : st.pending = p
  inUse : st.inUse = false

theorem Waits.exec {p : Bytes} (h : Waits st p) {call : Call D} (hcall : call.aborts = false) :
    Waits (stateOf (call.exec hash toBinary st)) (call.next toBinary p) := by
  cases call with
  | create m => exact h
  | feed m op =>
    have hadded : Added st (op.output toBinary) (op.exec toBinary st) := op.exec_added h.ok
    have hstate : stateOf ((Call.feed m op).exec hash toBinary st) =
        stateOf (op.exec toBinary st) := by
      simp only [Call.exec, bind_run]
      cases op.exec toBinary st <;> rfl
    rw [hstate]
    generalize op.exec toBinary st = r at hadded
    cases hadded with
    | ok _ hadds | error _ hadds =>
      exact ⟨hadds.ok, by rw [stateOf, hadds.pending, h.pending]; rfl, hadds.inUse.trans h.inUse⟩
  | get m =>
    obtain ⟨st', hok, hp, hinUse, hrun⟩ := Manual.get_run hash h.ok
    simp only [Call.exec, bind_run, hrun]
    exact ⟨hok, hp, hinUse.trans h.inUse⟩
  | string s =>
    obtain ⟨st', hok, ⟨-, hp, hinUse, hrun⟩ | ⟨e, hstop, -⟩⟩ :=
      withSingleton_run hash (feedStringRaw_feeds s) h.ok h.inUse
    · simp only [Call.exec, bind_run, hrun]
      exact ⟨hok, hp, hinUse⟩
    · cases hstop
  | repr x =>
    obtain ⟨st', hok, ⟨-, hp, hinUse, hrun⟩ | ⟨e, hstop, -⟩⟩ :=
      withSingleton_run hash (feedRepr_feeds x) h.ok h.inUse
    · simp only [Call.exec, bind_run, hrun]
      exact ⟨hok, hp, hinUse⟩
    · simp [Call.aborts, hstop] at hcall

theorem after_waits {calls : List (Call D)} (h : ∀ call ∈ calls, call.aborts = false) :
    Waits (after hash toBinary calls) (pending toBinary calls) := by
  suffices ∀ st p, Waits st p →
      Waits (calls.foldl (fun st call => stateOf (call.exec hash toBinary st)) st)
        (calls.foldl (Call.next toBinary) p) from
    this .init [] ⟨init_ok, rfl, rfl⟩
  induction calls with
  | nil => exact fun st p hp => hp
  | cons call calls ih =>
    rw [forall_mem_cons] at h
    exact fun st p hp => ih h.2 _ _ (hp.exec h.1)

/-- The calls of one computation feed their bytes one after the other. -/
theorem foldl_next_feed (m : Nat) (ops : List (Manual D)) (p : Bytes) :
    (ops.map (Call.feed m)).foldl (Call.next toBinary) p =
      p ++ ops.flatMap fun op => (op.output toBinary).bytes := by
  induction ops generalizing p with
  | nil => exact (append_nil p).symm
  | cons op ops ih =>
    rw [map_cons, foldl_cons, ih, flatMap_cons, ← append_assoc]
    rfl

variable (hash toBinary) in
/-- A digest is the hash of everything fed since the last digest was taken. Where nothing waits, it
is the digest of a value alone, or of what its own computation has been fed. -/
theorem digest_of_pending (calls : List (Call D)) (h : ∀ call ∈ calls, call.aborts = false) :
    (∀ m, outcome hash toBinary calls (.get m) = .ok (some (hash (pending toBinary calls)))) ∧
    (∀ s, outcome hash toBinary calls (.string s) =
      .ok (some (hash (pending toBinary calls ++ s)))) ∧
    (∀ x, x.encode.stop = none → outcome hash toBinary calls (.repr x) =
      .ok (some (hash (pending toBinary calls ++ x.encode.bytes)))) ∧
    ∀ pre m (ops : List (Manual D)), calls = pre ++ .create m :: ops.map (.feed m) →
      pending toBinary pre = [] →
      outcome hash toBinary calls (.get m) =
        .ok (some (hash (ops.flatMap fun op => (op.output toBinary).bytes))) := by
  have hwaits : Waits (after hash toBinary calls) (pending toBinary calls) := after_waits h
  have hget (m : Nat) :
      outcome hash toBinary calls (.get m) = .ok (some (hash (pending toBinary calls))) := by
    obtain ⟨st', -, -, -, hrun⟩ := Manual.get_run hash hwaits.ok
    simp only [outcome, Call.exec, bind_run, hrun, hwaits.pending]
    rfl
  refine ⟨hget, fun s => ?_, fun x hx => ?_, fun pre m ops hcalls hpre => ?_⟩
  · obtain ⟨st', -, ⟨-, -, -, hrun⟩ | ⟨e, hstop, -⟩⟩ :=
      withSingleton_run hash (feedStringRaw_feeds s) hwaits.ok hwaits.inUse
    · simp only [outcome, Call.exec, bind_run, hrun, hwaits.pending]
      rfl
    · cases hstop
  · obtain ⟨st', -, ⟨-, -, -, hrun⟩ | ⟨e, hstop, -⟩⟩ :=
      withSingleton_run hash (feedRepr_feeds x) hwaits.ok hwaits.inUse
    · simp only [outcome, Call.exec, bind_run, hrun, hwaits.pending]
      rfl
    · cases hx.symm.trans hstop
  · have hpending : pending toBinary calls = ops.flatMap fun op => (op.output toBinary).bytes := by
      rw [hcalls, pending, foldl_append, ← pending, hpre, foldl_cons, Call.next,
        foldl_next_feed, nil_append]
    rw [hget, hpending]

end Calls

/-- A computation that is alone. -/
theorem digest_of_pending_alone :
    let calls : List (Call Bytes) := [.create 0, .feed 0 (.string [97])]
    (∀ call ∈ calls, call.aborts = false) ∧
      outcome id id calls (.get 0) = .ok (some [1, 0, 0, 0, 0, 0, 0, 0, 97]) := by
  intro calls
  have hcalls : ∀ call ∈ calls, call.aborts = false := by simp [calls, Call.aborts]
  exact ⟨hcalls, (digest_of_pending id id calls hcalls).2.2.2 [] 0 [.string [97]] rfl rfl⟩

/-- A text that is digested inside a computation is digested with what the computation was fed, and
the computation loses it. -/
theorem nested_string_takes_pending : let one : List (Call Bytes) := [.create 0, .feed 0 (.int 1)]
    outcome id id one (.string [97]) = .ok (some [1, 0, 0, 0, 0, 0, 0, 0, 97]) ∧
      outcome id id one (.string [97]) ≠ .ok (some [97]) ∧
      outcome id id (one ++ [.string [97]]) (.get 0) = .ok (some []) ∧
      outcome id id (one ++ [.string [97]]) (.get 0) ≠ .ok (some (le64 1)) := by
  have hstring : outcome id id [.create 0, .feed 0 (.int 1)] (.string [97]) =
      .ok (some [1, 0, 0, 0, 0, 0, 0, 0, 97]) := rfl
  have hget : outcome id id [.create 0, .feed 0 (.int 1), .string [97]] (.get 0) =
      .ok (some []) := rfl
  refine ⟨hstring, ?_, hget, ?_⟩
  · rw [hstring]
    nofun
  · intro h
    exact absurd (hget.symm.trans h) nofun

end Dune.Digest
