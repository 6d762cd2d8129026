import Multiparty.Session

/-!
# Faults

A fault makes one numbered call of one player go wrong: what is sent or received is edited, or the
call fails.

## Main definitions

* `Edit`: a change of a byte string.
* `Fault`: a change of a call.
* `Fault.editOutgoing`, `Fault.refuses`, `Fault.applyIncoming`: the effect of a list of faults.
-/

namespace Multiparty

/-- Changes of a byte string, applied in the order of the fields. -/
structure Edit where
  /-- Changes the byte at a position by an exclusive or; ignored beyond the end. -/
  flip : Option (Nat × UInt8)
  /-- Replaces everything. -/
  replacement : Option Bytes
  /-- Keeps only so many bytes. -/
  truncation : Option Nat
  /-- Adds bytes at the end. -/
  suffix : Option Bytes

namespace Edit

/-- The changed byte string. -/
def apply (e : Edit) (b : Bytes) : Bytes :=
  let b := match e.flip with
    | some (position, mask) => b.modify position (· ^^^ mask)
    | none => b
  let b := e.replacement.getD b
  let b := match e.truncation with
    | some n => b.take n
    | none => b
  b ++ e.suffix.getD []

end Edit

/-- What goes wrong. -/
inductive FaultKind where
  /-- The payload sent is edited. -/
  | outgoing
  /-- Nothing is sent, and the call fails. -/
  | refuse
  /-- A received payload is edited. -/
  | incoming
  /-- A received payload is lost, and the call fails. -/
  | lose
  deriving DecidableEq

/-- A fault of one call of one player. -/
structure Fault where
  player : Nat
  /-- Number of the call, from zero. -/
  call : Nat
  kind : FaultKind
  /-- The only peer concerned, or every peer. -/
  peer : Option Nat
  edit : Edit

namespace Fault

/-- The faults of one call of a player. -/
def ofCall (faults : List Fault) (player call : Nat) : List Fault :=
  faults.filter fun f => f.player = player ∧ f.call = call

/-- The call with its payload edited. -/
def editOutgoing (faults : List Fault) : Call → Call
  | .send peer payload => .send peer (edit payload)
  | .receive peer => .receive peer
  | .broadcast payload => .broadcast (edit payload)
  | .pass offset payload => .pass offset (edit payload)
where
  /-- All edits of sent payloads, in order. -/
  edit (payload : Bytes) : Bytes :=
    faults.foldl (fun b f => if f.kind = .outgoing then f.edit.apply b else b) payload

/-- Whether the call fails before anything is sent. -/
def refuses (faults : List Fault) : Bool := faults.any (·.kind = .refuse)

/-- A received payload after all faults that concern its sender. -/
def editIncoming (faults : List Fault) (sender : Nat) (payload : Bytes) :
    Except TransportError Bytes :=
  (faults.filter fun f => f.peer.all (· = sender)).foldlM (fun b f =>
    match f.kind with
    | .incoming => .ok (f.edit.apply b)
    | .lose => .error (.receive sender)
    | _ => .ok b) payload

/-- All received payloads after the faults, by increasing sender. -/
def applyIncoming (faults : List Fault) (receipts : List (Nat × Bytes)) :
    Except TransportError (List (Nat × Bytes)) :=
  receipts.mapM fun (sender, payload) => do
    pure (sender, ← editIncoming faults sender payload)

end Fault

end Multiparty
