import Dune.Stdune.ConvLossless

/-!
# RPC packets

The packets of the RPC protocol and their description. A packet is a record of the fields `id`,
`result`, `method` and `params`, and which of them are present tells requests, notifications and
responses apart. The description of an error lists two of its three kinds, so a response with an
error of the third kind cannot be written; every other packet is read back.
-/

namespace Dune.Rpc

open Stdune Stdune.Bytes

structure Call where
  method_ : Bytes
  params : Csexp

inductive ErrorKind where
  | invalidRequest
  | codeError
  | connectionDead
deriving DecidableEq

structure ResponseError where
  payload : Option Csexp
  message : Bytes
  kind : ErrorKind

abbrev Response := Except ResponseError Csexp

/-- `Packet.t`; an identifier is an S-expression. -/
inductive Packet where
  | request (id : Csexp) (call : Call)
  | response (id : Csexp) (response : Response)
  | notification (call : Call)

/-- The kinds that `Response.Error.sexp` lists. -/
def errorKinds : List (Bytes × ErrorKind) :=
  [(ascii "Invalid_request", .invalidRequest), (ascii "Code_error", .codeError)]

/-- The record of `Response.Error.sexp`. -/
def ResponseError.builder : RecordBuilder ResponseError ResponseError :=
  .add (.add (.add (.make fun payload message kind => ⟨payload, message, kind⟩)
    (.fieldOptional (ascii "payload") .sexp) ResponseError.payload)
    (.fieldRequired (ascii "message") .string) ResponseError.message)
    (.fieldRequired (ascii "kind") (.enum errorKinds)) ResponseError.kind

def ResponseError.sexp : Conv ResponseError .values := .record (.recordFields builder)

namespace Response

/-- The arguments of the constructors of a response. -/
abbrev Arg : Fin 2 → Type
  | 0 => Csexp
  | 1 => ResponseError

def name : Fin 2 → Bytes
  | 0 => ascii "ok"
  | 1 => ascii "error"

def arg : (i : Fin 2) → Conv (Arg i) .values
  | 0 => .sexp
  | 1 => ResponseError.sexp

def inj : (i : Fin 2) → Arg i → Response
  | 0, x => .ok x
  | 1, x => .error x

def case : Response → (i : Fin 2) × Arg i
  | .ok s => ⟨0, s⟩
  | .error e => ⟨1, e⟩

def result : Conv Response .values := .sum name arg inj case

end Response

namespace Packet

/-- A parse error of the functions of an iso. -/
def raise {α : Type} (message : String) : Except ConvExn α :=
  .error (.ofSexp (.parseError message []))

def toCall : Option Bytes × Option Csexp → Except ConvExn (Option Call)
  | (some method_, some params) => .ok (some ⟨method_, params⟩)
  | (none, none) => .ok none
  | (some _, none) => raise "invalid call"
  | (none, some _) => raise "invalid call"

def fromCall : Option Call → Option Bytes × Option Csexp
  | some call => (some call.method_, some call.params)
  | none => (none, none)

def to_ : Option Csexp × Option Response × Option Call → Except ConvExn Packet
  | (some id, none, some call) => .ok (.request id call)
  | (none, none, some call) => .ok (.notification call)
  | (some id, some result, none) => .ok (.response id result)
  | _ => raise "invalid packet"

def from_ : Packet → Option Csexp × Option Response × Option Call
  | .request id payload => (some id, none, some payload)
  | .response id r => (some id, some r, none)
  | .notification call => (none, none, some call)

/-- The fields of a call in `Packet.sexp`. -/
def call : Conv (Option Call) .fields :=
  .iso (.both (.fieldOptional (ascii "method") .string) (.fieldOptional (ascii "params") .sexp))
    toCall fromCall

def sexp : Conv Packet .values :=
  .record (.iso (.three (.fieldOptional (ascii "id") .sexp)
    (.fieldOptional (ascii "result") Response.result) call) to_ from_)

/-- The packet is not a response with an error of the kind that the description leaves out. -/
def Listed : Packet → Prop
  | .response _ (.error e) => e.kind ≠ .connectionDead
  | _ => True

variable {version : ConvVersion} {e : ResponseError}

theorem lossless_responseError (h : e.kind ≠ .connectionDead) :
    ResponseError.sexp.Lossless version e := by
  have hkind : ∃ name, enumName errorKinds e.kind = some name ∧
      enumValue errorKinds name = some e.kind := by
    cases hk : e.kind with
    | invalidRequest => exact ⟨ascii "Invalid_request", by decide, by decide⟩
    | codeError => exact ⟨ascii "Code_error", by decide, by decide⟩
    | connectionDead => exact absurd hk h
  refine ⟨rfl, ?_, ⟨?_, ⟨?_, trivial, fun _ _ => trivial⟩, trivial⟩, hkind⟩
  · decide
  · decide
  · decide

theorem lossless_result {r : Response} (h : ∀ e, r = .error e → e.kind ≠ .connectionDead) :
    Response.result.Lossless version r := by
  cases r with
  | ok s => exact ⟨trivial, rfl, rfl⟩
  | error e => exact ⟨lossless_responseError (h e rfl), rfl, rfl⟩

theorem lossless_call (c : Option Call) : call.Lossless version c := by
  refine ⟨?_, by decide, fun _ _ => trivial, fun _ _ => trivial⟩
  cases c <;> rfl

theorem Listed.lossless {p : Packet} (h : p.Listed) : sexp.Lossless version p := by
  refine ⟨?_, rfl, by decide, fun _ _ => trivial, by decide, ?_, lossless_call _⟩
  · cases p <;> rfl
  · intro r hr
    refine lossless_result ?_
    rintro e rfl
    cases p with
    | request id c | notification c => cases hr
    | response id r =>
      cases hr
      exact h

/-- An error of the kind that is left out cannot be written. -/
theorem kind_of_write {s : Csexp} (h : ResponseError.sexp.write e = .ok s) :
    e.kind ≠ .connectionDead := by
  intro hkind
  obtain ⟨f, hbuilder, -⟩ := bind_ok h
  obtain ⟨_, -, hadd⟩ := bind_ok hbuilder
  obtain ⟨_, hfield, -⟩ := bind_ok hadd
  obtain ⟨_, henum, -⟩ := bind_ok hfield
  rw [Conv.write, hkind] at henum
  cases henum

theorem Listed.of_write {p : Packet} {s : Csexp} (h : sexp.toSexp p = .ok s) : p.Listed := by
  cases p with
  | request id c | notification c => trivial
  | response id r =>
    cases r with
    | ok x => trivial
    | error e =>
      obtain ⟨f, hfields, -⟩ := bind_ok h
      obtain ⟨_, -, hrest⟩ := bind_ok hfields
      obtain ⟨_, hboth, -⟩ := bind_ok hrest
      obtain ⟨_, hresult, -⟩ := bind_ok hboth
      obtain ⟨_, hsum, -⟩ := bind_ok hresult
      obtain ⟨_, herror, -⟩ := bind_ok hsum
      exact kind_of_write herror

/-- A packet is written and read back exactly when it is not a response with an error of the kind
`Connection_dead`. -/
theorem packet_roundtrip_iff (version : ConvVersion) (p : Packet) :
    (∃ s, sexp.toSexp p = .ok s ∧ sexp.ofSexp version s = .ok (.ok p)) ↔ p.Listed := by
  constructor
  · rintro ⟨s, hwrite, -⟩
    exact .of_write hwrite
  · intro h
    exact Conv.ofSexp_toSexp h.lossless

/-- The response that a closed session gives its requests cannot be written. -/
theorem connection_dead_raises :
    sexp.toSexp (.response (.atom (ascii "0")) (.error ⟨none, ascii "closed", .connectionDead⟩)) =
      .error (.codeError "enum does not include this value") := rfl

end Packet

end Dune.Rpc
