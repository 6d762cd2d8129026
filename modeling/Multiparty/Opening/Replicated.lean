import Multiparty.Codec
import Multiparty.Config.Basic
import Multiparty.Hash.Sha3
import Multiparty.Opening.Basic
import Multiparty.Queue
import Multiparty.Share.Replicated

/-!
# Opening replicated shares

Each party misses one part, which the previous party passes on along the ring. In communication
mode the next party sends the same part too, and both copies are compared when the value is taken.
In hash mode every value taken is remembered, and a check compares a hash of all of them with that
of the others.

## Main definitions

* `ReplicatedOpener`: the state of the opener.
* `ReplicatedOpener.exchange`, `ReplicatedOpener.finalize`, `ReplicatedOpener.check`.
-/

namespace Multiparty

/-- What one opening has received. -/
structure ReplicatedOpening (R : Type) where
  /-- The sum of the two own parts. -/
  localSum : R
  /-- The missing part as sent by the previous party. -/
  fromPrevious : R
  /-- The missing part as sent by the next party, in communication mode. -/
  fromNext : Option R
  deriving DecidableEq

/-- The state of an opener of replicated shares. -/
structure ReplicatedOpener (R : Type) where
  party : Nat
  mode : ReplicatedCheck
  /-- Shares queued for the next exchange. -/
  batch : Array (ReplicatedShare R)
  /-- Openings not yet taken. -/
  received : Queue (ReplicatedOpening R)
  /-- In hash mode, the values taken since the last successful check. -/
  unchecked : Array R
  /-- Whether a check or a comparison has failed. -/
  poisoned : Bool

namespace ReplicatedOpener

variable {R : Type} [CodedRing R]

/-- A fresh opener. -/
def create (party : Nat) (mode : ReplicatedCheck) : ReplicatedOpener R :=
  { party := party
    mode := mode
    batch := #[]
    received := .empty
    unchecked := #[]
    poisoned := false }

/-- The second copies of the missing parts, which only communication mode asks for. -/
def secondCopies : Action (ReplicatedOpener R) (List (Option R)) := do
  let o ← get
  match o.mode with
  | .communication =>
    let payload ← Action.pass 2 (encodeValues (o.batch.toList.map (·.next)))
    let parts ← Action.ofExcept (decodeValues payload (some o.batch.size))
    pure (parts.map some)
  | _ => pure (List.replicate o.batch.size none)

/-- Turns the queued shares and the received parts into openings. -/
def record (previous : List R) (next : List (Option R)) (o : ReplicatedOpener R) :
    ReplicatedOpener R :=
  { o with
    received := o.received.appendList
      (List.zipWith (fun (s, p) n => ⟨s.sum, p, n⟩) (o.batch.toList.zip previous) next)
    batch := #[] }

/-- Passes the first own part of every queued share to the next party, and in communication mode
the second one to the previous party. -/
def exchange : Action (ReplicatedOpener R) Unit := do
  let o ← get
  let seat ← Action.seat
  if o.poisoned then throw .macFail
  else if seat.players ≠ replicatedParties then throw (.misuse .notThreePlayers)
  else if o.batch.isEmpty then pure ()
  else
    let payload ← Action.pass 1 (encodeValues (o.batch.toList.map (·.own)))
    let previous ← Action.ofExcept (decodeValues payload (some o.batch.size))
    let next ← secondCopies
    modify (record previous next)

/-- The next opened value, refused if two copies of the missing part differ. -/
def finalize : Attempt (ReplicatedOpener R) R := fun o =>
  if o.poisoned then (.error .macFail, o)
  else
    match o.received.dequeue? with
    | none => (.error (.misuse .nothingOpened), o)
    | some (opening, received) =>
      let o := { o with received := received }
      if opening.fromNext.any (· ≠ opening.fromPrevious) then
        (.error .macFail, { o with poisoned := true })
      else
        let value := opening.localSum + opening.fromPrevious
        (.ok value,
          if o.mode = .hash then { o with unchecked := o.unchecked.push value } else o)

/-- The hash of all values taken since the last successful check. -/
def digest (o : ReplicatedOpener R) : Bytes := Sha3.hash256 (encodeValues o.unchecked.toList)

/-- Makes the opener unusable and fails. -/
def fail {α : Type} (e : ProtocolError) : Action (ReplicatedOpener R) α := do
  modify fun o => { o with poisoned := true }
  throw e

/-- Whether all byte strings of a list are equal. -/
def allEqual : List Bytes → Bool
  | [] => true
  | b :: bs => bs.all (· = b)

/-- Compares the hash of the values taken since the last check with those of the others. -/
def check : Action (ReplicatedOpener R) Unit := do
  let o ← get
  if o.poisoned then throw .macFail
  else if o.unchecked.isEmpty then pure ()
  else
    match ← (Action.broadcast o.digest).attempt with
    | .error e => fail e
    | .ok digests =>
      if allEqual digests then modify fun o => { o with unchecked := #[] } else fail .macFail

/-- Whether the opener may not be discarded, because opened values were never verified. -/
def hasUnchecked (o : ReplicatedOpener R) : Bool := !o.unchecked.isEmpty && !o.poisoned

instance : Opener (ReplicatedOpener R) (ReplicatedShare R) R where
  party o := o.party
  init o := { o with batch := #[], received := .empty }
  prepare s o := { o with batch := o.batch.push s }
  exchange := exchange
  finalize := finalize
  check := check
  pendingChecks o := if o.unchecked.isEmpty then 0 else 1
  isPoisoned o := o.poisoned
  constant o v := ReplicatedShare.constant v o.party
  discardFault? o := if o.hasUnchecked then some .replicated else none

end ReplicatedOpener

end Multiparty
