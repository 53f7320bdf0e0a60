import Dune.Stdune.LocalPath

/-!
# Artifact substitution

`Artifact_substitution`: placeholders of the form `%%DUNE_PLACEHOLDER:<len>:<symbolic-value>%%`
are found in a byte stream by a hand-written automaton over a sliding buffer and replaced.

The buffer is accessed through checked operations: an index outside of the buffer, or a negative
one, is the failure `outOfBounds`, so that a run without that failure stays inside the buffer.
The recursive functions take a bound on the number of their steps; running out of it is the
failure `outOfFuel`.
-/

namespace Dune.Rules.ArtifactSubstitution

open Dune.Stdune Dune.Stdune.Bytes

/-! ## Substitutions -/

/-- `Dune_section.t`. -/
inductive Section where
  | lib | libRoot | libexec | libexecRoot | bin | sbin | toplevel | share | shareRoot | etc
  | doc | stublibs | man | misc
deriving DecidableEq, Repr

def Section.all : List (Section × Bytes) :=
  [(.lib, ascii "lib"), (.libRoot, ascii "lib_root"), (.libexec, ascii "libexec"),
    (.libexecRoot, ascii "libexec_root"), (.bin, ascii "bin"), (.sbin, ascii "sbin"),
    (.toplevel, ascii "toplevel"), (.share, ascii "share"), (.shareRoot, ascii "share_root"),
    (.etc, ascii "etc"), (.doc, ascii "doc"), (.stublibs, ascii "stublibs"), (.man, ascii "man"),
    (.misc, ascii "misc")]

def Section.toString (s : Section) : Bytes :=
  ((Section.all.find? fun p => p.1 = s).map Prod.snd).getD []

def Section.ofString (x : Bytes) : Option Section :=
  (Section.all.find? fun p => p.2 = x).map Prod.fst

inductive Configpath where
  | sourceroot
  | stdlib
deriving DecidableEq, Repr

/-- `Artifact_substitution.t`. -/
inductive Subst where
  | vcsDescribe (p : Bytes)
  | location (kind : Section) (name : Bytes)
  | configpath (d : Configpath)
  | hardcodedOcamlPath
  | repeat_ (n : Int) (s : Bytes)
deriving DecidableEq, Repr

inductive HardcodedOcamlPath (Q : Type) where
  | hardcoded (l : List Q)
  | relocatable (p : Q)

inductive Status where
  | someSubstitution
  | noSubstitution
deriving DecidableEq, Repr

/-- `Conf.t` over the type `Q` of paths, with what `eval` reads through it. `describe` is
`get_vcs` followed by `Vcs.describe`. -/
structure Conf (Q : Type) where
  describe : Bytes → Except Exn (Option Bytes)
  getLocation : Section → Bytes → Q
  getConfigPath : Configpath → Except Exn (Option Q)
  hardcodedOcamlPath : Except Exn (HardcodedOcamlPath Q)
  toAbsoluteFilename : Q → Bytes
  reach : Q → Q → Bytes

section
variable {Q : Type}

def relocatable (conf : Conf Q) (path : Q) : Except Exn Bytes := do
  match ← conf.hardcodedOcamlPath with
  | .hardcoded _ => pure (conf.toAbsoluteFilename path)
  | .relocatable install => pure (conf.reach path install)

/-- `Sys.max_array_length` on 64-bit platforms. -/
def maxArrayLength : Int := 2 ^ 54 - 1

/-- `eval`. `Array.make` refuses a negative size and one that is too large. -/
def eval (conf : Conf Q) : Subst → Except Exn Bytes
  | .repeat_ n s =>
    if n < 0 ∨ maxArrayLength < n then .error (.invalidArgument "Array.make")
    else .ok (List.replicate n.toNat s).flatten
  | .vcsDescribe p => do
    match ← conf.describe p with
    | none => pure []
    | some res => pure res
  | .location name libName => relocatable conf (conf.getLocation name libName)
  | .configpath d => do
    match ← conf.getConfigPath d with
    | none => pure []
    | some dir => relocatable conf dir
  | .hardcodedOcamlPath => do
    match ← conf.hardcodedOcamlPath with
    | .relocatable _ => pure (ascii "relocatable")
    | .hardcoded l =>
      pure (ascii "hardcoded" ++ 0 :: concat [0] (l.map conf.toAbsoluteFilename))

end

/-- `encode_replacement`: padded with blanks or cut to the length of the placeholder. -/
def encodeReplacement (len : Nat) (s : Bytes) : Bytes :=
  let repl := ascii "=" ++ decimal s.length ++ ascii ":" ++ s
  if repl.length < len then repl ++ List.replicate (len - repl.length) 32
  else if repl.length = len then repl
  else repl.take len

/-! ## Encoding and decoding -/

/-- `prefix`. -/
def placeholderPrefix : Bytes := ascii "%%DUNE_PLACEHOLDER:"

def prefixLen : Nat := 19

def maxLen : Nat := 65536

/-- The symbolic value of a placeholder. -/
def symbolicValue : Subst → Bytes
  | .vcsDescribe p => ascii "vcs-describe:" ++ decimal p.length ++ ascii ":" ++ p
  | .location kind name =>
    ascii "location:" ++ kind.toString ++ ascii ":" ++ decimal name.length ++ ascii ":" ++ name
  | .configpath .sourceroot => ascii "configpath:sourceroot:"
  | .configpath .stdlib => ascii "configpath:stdlib:"
  | .hardcodedOcamlPath => ascii "hardcoded_ocaml_path:"
  | .repeat_ n s =>
    ascii "repeat:" ++ decimalInt n ++ ascii ":" ++ decimal s.length ++ ascii ":" ++ s

/-- The length of a placeholder, from the length of everything but the digits of the length. -/
def placeholderLength (len0 : Nat) : Nat :=
  if len0 + 1 < 10 then len0 + 1
  else if len0 + 2 < 100 then len0 + 2
  else if len0 + 3 < 1000 then len0 + 3
  else if len0 + 4 < 10000 then len0 + 4
  else len0 + 5

def encode (minLen : Nat) (t : Subst) : Except Exn Bytes :=
  let suffix := ascii ":" ++ symbolicValue t ++ ascii "%%"
  let len := max minLen (placeholderLength (prefixLen + suffix.length))
  if maxLen < len then .error (.codeError "Artifact_substitution.encode: too long")
  else
    let s := placeholderPrefix ++ decimal len ++ suffix
    if len < s.length then .error (.invalidArgument "String.make")
    else .ok (s ++ List.replicate (len - s.length) 37)

/-- What leaves the body of `decode` early: the local exception `Exit`, which `decode` catches,
or another one, which it does not. -/
inductive Abort where
  | exit
  | raised (e : Exn)

def parseInt (s : Bytes) : Except Abort Int :=
  match intOfString s with
  | none => .error .exit
  | some i => .ok i

/-- A computation that may raise, inside the body of `decode`. -/
def lift {α : Type} : Except Exn α → Except Abort α
  | .ok a => .ok a
  | .error e => .error (.raised e)

/-- `read_string_payload`. A negative length makes the loop read `s.[len]`, and one that is too
large makes `String.sub` fail. -/
def readStringPayload : List Bytes → Except Abort Bytes
  | [] => .error .exit
  | len :: rest => do
    let len ← parseInt len
    let s := concat (ascii ":") rest
    if len < 0 then .error (.raised (.invalidArgument "index out of bounds"))
    else if s.length < len.toNat then
      .error (.raised (.invalidArgument "String.sub / Bytes.sub"))
    else if (s.drop len.toNat).all (· == 37) then .ok (s.take len.toNat)
    else .error .exit

def packageNameOfString (s : Bytes) : Except Exn Bytes :=
  if s.isEmpty then .error (.codeError "Invalid Package.Name.t") else .ok s

/-- `Option.value_exn (Section.of_string kind)`. -/
def sectionExn (kind : Bytes) : Except Exn Section :=
  match Section.ofString kind with
  | some s => .ok s
  | none => .error (.codeError "Option.value_exn")

/-- The symbolic value of a placeholder, split at its colons. -/
def decodeValue : List Bytes → Except Abort Subst
  | [] => .error .exit
  | keyword :: rest =>
    if keyword = ascii "vcs-describe" then do
      let path ← readStringPayload rest
      let path ← lift (LocalPath.ofString path)
      pure (.vcsDescribe path)
    else if keyword = ascii "location" then
      match rest with
      | [] => .error .exit
      | kind :: rest => do
        let name ← readStringPayload rest
        let name ← lift (packageNameOfString name)
        let kind ← lift (sectionExn kind)
        pure (.location kind name)
    else if keyword = ascii "configpath" then
      match rest with
      | [] => .error .exit
      | which :: _ =>
        if which = ascii "sourceroot" then .ok (.configpath .sourceroot)
        else if which = ascii "stdlib" then .ok (.configpath .stdlib)
        else .error .exit
    else if keyword = ascii "hardcoded_ocaml_path" then .ok .hardcodedOcamlPath
    else if keyword = ascii "repeat" then
      match rest with
      | [] => .error .exit
      | n :: rest => do
        -- the arguments of a constructor are evaluated from right to left
        let s ← readStringPayload rest
        let n ← parseInt n
        pure (.repeat_ n s)
    else .error .exit

/-- The body of `decode`, before the comparison with `encode`. -/
def decodeBody (s : Bytes) : Except Abort Subst :=
  let len := s.length
  if maxLen < len ∨ len < 4 ∨ s[0]? ≠ some 37 ∨ s[1]? ≠ some 37 ∨ s[len - 2]? ≠ some 37 ∨
      s[len - 1]? ≠ some 37 then .error .exit
  else
    match split 58 ((s.drop 2).take (len - 4)) with
    | dunePlaceholder :: len' :: rest =>
      if dunePlaceholder ≠ ascii "DUNE_PLACEHOLDER" then .error .exit
      else do
        let len' ← parseInt len'
        if len' ≠ len then .error .exit else decodeValue rest
    | _ => .error .exit

def decode (s : Bytes) : Except Exn (Option Subst) :=
  match decodeBody s with
  | .error .exit => .ok none
  | .error (.raised e) => .error e
  | .ok t => do
    let s' ← encode s.length t
    pure (if s' = s then some t else none)

/-! ## The scanner -/

/-- What ends a run of `parse` without a result. -/
inductive Failure where
  | raised (e : Exn)
  | outOfBounds
  | outOfFuel
deriving DecidableEq, Repr

/-- Subtraction of positions; a negative position is no index of a buffer. -/
def position (a b : Nat) : Except Failure Nat :=
  if b ≤ a then .ok (a - b) else .error .outOfBounds

/-- `Bytes.unsafe_get` and `s.[i]`. -/
def get (buf : Bytes) (pos : Nat) : Except Failure UInt8 :=
  match buf[pos]? with
  | some c => .ok c
  | none => .error .outOfBounds

/-- `Bytes.index_in_range_unchecked`; `none` is `-1`. -/
def indexInRange (buf : Bytes) (pos len : Nat) (c : UInt8) : Except Failure (Option Nat) :=
  if pos + len ≤ buf.length then
    .ok ((((buf.drop pos).take len).findIdx? (· == c)).map (pos + ·))
  else .error .outOfBounds

inductive State where
  | scan0
  | scan1
  | scan2
  | scanPrefix (placeholderStart : Nat)
  | scanLength (placeholderStart acc : Nat)
  | scanPlaceholder (placeholderStart len : Nat)
deriving DecidableEq, Repr

namespace Scanner
section
variable (buf : Bytes) (endOfData : Nat)

mutual

def scan0 : Nat → Nat → Except Failure State
  | 0, _ => .error .outOfFuel
  | fuel + 1, pos => do
    let len ← position endOfData pos
    match ← indexInRange buf pos len 37 with
    | none => pure .scan0
    | some percent => scan1 fuel (percent + 1)

def scan1 : Nat → Nat → Except Failure State
  | 0, _ => .error .outOfFuel
  | fuel + 1, pos =>
    if pos < endOfData then do
      let c ← get buf pos
      let pos := pos + 1
      if c = 37 then scan2 fuel pos else scan0 fuel pos
    else .ok .scan1

def scan2 : Nat → Nat → Except Failure State
  | 0, _ => .error .outOfFuel
  | fuel + 1, pos =>
    if pos < endOfData then do
      let c ← get buf pos
      let pos := pos + 1
      if c = 37 then scan2 fuel pos
      else if c = 68 then do
        let placeholderStart ← position pos 3
        scanPrefix fuel pos placeholderStart
      else scan0 fuel pos
    else .ok .scan2

def scanPrefix : Nat → Nat → Nat → Except Failure State
  | 0, _, _ => .error .outOfFuel
  | fuel + 1, pos, placeholderStart =>
    if pos < endOfData then do
      let posInPrefix ← position pos placeholderStart
      let c ← get buf pos
      let pos := pos + 1
      if c = 37 then scan1 fuel pos
      else do
        let expected ← get placeholderPrefix posInPrefix
        if c = expected then
          if posInPrefix = prefixLen - 1 then scanLength fuel pos placeholderStart 0
          else scanPrefix fuel pos placeholderStart
        else scan0 fuel pos
    else .ok (.scanPrefix placeholderStart)

def scanLength : Nat → Nat → Nat → Nat → Except Failure State
  | 0, _, _, _ => .error .outOfFuel
  | fuel + 1, pos, placeholderStart, acc =>
    if pos < endOfData then do
      let c ← get buf pos
      let pos := pos + 1
      if c = 37 then scan1 fuel pos
      else if 48 ≤ c ∧ c ≤ 57 then
        let acc := acc * 10 + (c.toNat - 48)
        if acc = 0 ∨ maxLen < acc then scan0 fuel pos
        else scanLength fuel pos placeholderStart acc
      else if c = 58 then do
        let seen ← position pos placeholderStart
        if acc < seen then scan0 fuel pos
        else pure (.scanPlaceholder placeholderStart acc)
      else scan0 fuel pos
    else .ok (.scanLength placeholderStart acc)

end

/-- `Scanner.run`. Every call reads at least one byte, so the number of bytes bounds them. -/
def run (state : State) (pos : Nat) : Except Failure State :=
  let fuel := endOfData - pos + 1
  match state with
  | .scan0 => scan0 buf endOfData fuel pos
  | .scan1 => scan1 buf endOfData fuel pos
  | .scan2 => scan2 buf endOfData fuel pos
  | .scanPrefix placeholderStart => scanPrefix buf endOfData fuel pos placeholderStart
  | .scanLength placeholderStart acc => scanLength buf endOfData fuel pos placeholderStart acc
  | .scanPlaceholder _ _ => .ok state

end
end Scanner

/-! ## The copy -/

def bufLen : Nat := maxLen

/-- `mode`. What `Copy` outputs is collected in the result. -/
inductive Mode (Q : Type) where
  | test
  | copy (conf : Conf Q)

/-- The input: what is left of the stream, and how many bytes each read asks for. -/
structure Channel where
  rest : Bytes
  sizes : Nat → Nat
  reads : Nat

/-- `input buf pos len`: at least one byte and at most `len`, unless the stream ended. -/
def Channel.input (ch : Channel) (buf : Bytes) (pos len : Nat) :
    Except Failure (Nat × Bytes × Channel) :=
  if pos + len ≤ buf.length then
    let read := min (max 1 (ch.sizes ch.reads)) (min len ch.rest.length)
    .ok (read, buf.take pos ++ ch.rest.take read ++ buf.drop (pos + read),
      { ch with rest := ch.rest.drop read, reads := ch.reads + 1 })
  else .error .outOfBounds

/-- `Bytes.sub_string`, and the bytes that `output buf pos len` writes. -/
def sub (buf : Bytes) (pos len : Nat) : Except Failure Bytes :=
  if pos + len ≤ buf.length then .ok ((buf.drop pos).take len) else .error .outOfBounds

/-- `Bytes.blit ~src:buf ~dst:buf`. -/
def blit (buf : Bytes) (srcPos dstPos len : Nat) : Except Failure Bytes :=
  if srcPos + len ≤ buf.length ∧ dstPos + len ≤ buf.length then
    .ok (buf.take dstPos ++ (buf.drop srcPos).take len ++ buf.drop (dstPos + len))
  else .error .outOfBounds

section
variable {Q : Type}

/-- The start of the potential placeholder of a scanner state. -/
def placeholderStart (endOfData : Nat) : State → Except Failure Nat
  | .scan0 => .ok endOfData
  | .scan1 => position endOfData 1
  | .scan2 => position endOfData 2
  | .scanPrefix placeholderStart => .ok placeholderStart
  | .scanLength placeholderStart _ => .ok placeholderStart
  | .scanPlaceholder placeholderStart _ => .ok placeholderStart

/-- The scanner state after the leftover data moved to the beginning of the buffer. -/
def State.moveBack : State → State
  | .scan0 => .scan0
  | .scan1 => .scan1
  | .scan2 => .scan2
  | .scanPrefix _ => .scanPrefix 0
  | .scanLength _ acc => .scanLength 0 acc
  | .scanPlaceholder _ len => .scanPlaceholder 0 len

variable (mode : Mode Q)

/-- The bytes that the mode outputs of `buf`. -/
def output (buf : Bytes) (pos len : Nat) : Except Failure Bytes :=
  match mode with
  | .test => .ok []
  | .copy _ => sub buf pos len

/-- The data before the potential placeholder is sent to the output. -/
def sendBefore (buf : Bytes) (beginningOfData start : Nat) : Except Failure Bytes :=
  if beginningOfData < start then output mode buf beginningOfData (start - beginningOfData)
  else .ok []

/-- The leftover data moves to the beginning of the buffer. -/
def moveLeftover (buf : Bytes) (start leftover : Nat) : Except Failure Bytes :=
  if 0 < leftover then blit buf start 0 leftover else .ok buf

/-- A computation that may raise, inside the copy. -/
def raising {α : Type} : Except Exn α → Except Failure α
  | .ok a => .ok a
  | .error e => .error (.raised e)

/-- The arguments of the function `loop` of `parse` that its recursive calls pass on: the channel,
the buffer, what was output so far, the scanner state, `beginning_of_data`, `pos`, `end_of_data`
and the status. -/
abbrev Loop := Channel → Bytes → Bytes → State → Nat → Nat → Nat → Status →
  Except Failure (Bytes × Status)

/-- The branch of `loop` in which the whole placeholder is in the buffer. -/
def wholePlaceholder (loop : Loop) (ch : Channel) (buf out : Bytes)
    (start len endOfData : Nat) (status : Status) : Except Failure (Bytes × Status) := do
  let placeholder ← sub buf start len
  match ← raising (decode placeholder) with
  | some t =>
    match mode with
    | .test => pure (out, .someSubstitution)
    | .copy conf => do
      let s ← raising (eval conf t)
      let sent ← sub (encodeReplacement len s) 0 len
      let pos := start + len
      loop ch buf (out ++ sent) .scan0 pos pos endOfData .someSubstitution
  | none => loop ch buf out .scan0 start (start + prefixLen) endOfData status

/-- The branch of `loop` in which the end of the buffer is reached. -/
def refill (loop : Loop) (ch : Channel) (buf out : Bytes) (state : State)
    (start leftover : Nat) (status : Status) : Except Failure (Bytes × Status) := do
  let buf ← moveLeftover buf start leftover
  let state := state.moveBack
  let room ← position bufLen leftover
  let (read, buf, ch) ← ch.input buf leftover room
  if read = 0 then
    match state with
    | .scanPlaceholder _ _ => loop ch buf out .scan0 0 prefixLen leftover status
    | _ =>
      match mode with
      | .test => pure (out, .noSubstitution)
      | .copy _ => do
        let sent ← sub buf 0 leftover
        pure (out ++ sent, status)
  else loop ch buf out state 0 leftover (leftover + read) status

def loop (mode : Mode Q) : Nat → Loop
  | 0, _, _, _, _, _, _, _, _ => .error .outOfFuel
  | fuel + 1, ch, buf, out, state, beginningOfData, pos, endOfData, status => do
    let state ← Scanner.run buf endOfData state pos
    let start ← placeholderStart endOfData state
    let sent ← sendBefore mode buf beginningOfData start
    let leftover ← position endOfData start
    match state with
    | .scanPlaceholder start len =>
      if len ≤ leftover then
        wholePlaceholder mode (loop mode fuel) ch buf (out ++ sent) start len endOfData status
      else refill mode (loop mode fuel) ch buf (out ++ sent) state start leftover status
    | _ => refill mode (loop mode fuel) ch buf (out ++ sent) state start leftover status

/-- `parse` on a whole stream; `sizes` says how the channel splits it into reads. -/
def parse (stream : Bytes) (sizes : Nat → Nat) : Except Failure (Bytes × Status) := do
  let buf := List.replicate bufLen 0
  let (read, buf, ch) ← Channel.input { rest := stream, sizes, reads := 0 } buf 0 bufLen
  if read = 0 then pure ([], .noSubstitution)
  else loop mode (2 * stream.length + 1) ch buf [] .scan0 0 0 read .noSubstitution

end

end Dune.Rules.ArtifactSubstitution
