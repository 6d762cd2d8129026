import Multiparty.Capacity
import Multiparty.Codec
import Multiparty.Interpolation
import Multiparty.Opening.Basic
import Multiparty.Queue
import Multiparty.Share.Threshold

/-!
# Opening threshold shares

Only the first `threshold + 1` parties send their evaluations, or the first `2 * threshold + 1`
if cheating is to be noticed, and every party receives them. The value is interpolated from the
first `threshold + 1` evaluations; in malicious mode it is compared to the interpolations from one
more evaluation each, up to all that were sent. Counts are machine words, so there is no opener
whose number of senders would not be one.

## Main definitions

* `ThresholdOpener`: the state of the opener.
* `ThresholdOpener.create`: an opener for sound parameters.
* `ThresholdOpener.exchange`, `ThresholdOpener.finalize`, `ThresholdOpener.check`.
-/

namespace Multiparty

/-- The state of an opener of threshold shares. -/
structure ThresholdOpener (F : Type) where
  party : Nat
  parties : Nat
  threshold : Nat
  /-- Whether redundant evaluations are asked for and compared. -/
  malicious : Bool
  /-- Interpolation coefficients: row `k` is for the first `threshold + 1 + k` parties. -/
  rows : List (List F)
  /-- Shares queued for the next exchange. -/
  batch : Array (ThresholdShare F)
  /-- For every opening not yet taken, the evaluations of the senders in party order. -/
  received : Queue (List F)
  /-- Whether interpolations have disagreed. -/
  poisoned : Bool

namespace ThresholdOpener

variable {F : Type} [CodedField F]

/-- Number of parties whose evaluations an opening needs. -/
def sendersFor (threshold : Nat) (malicious : Bool) : Nat :=
  if malicious then 2 * threshold + 1 else threshold + 1

/-- A fresh opener. Refused are first a number of senders that is no machine word, then too few
parties, then a party out of range, then points that collide in the field. -/
def create (party parties threshold : Nat) (malicious : Bool) :
    Except SetupFault (ThresholdOpener F) := do
  let senders := sendersFor threshold malicious
  if !isWord senders then throw .tooLarge
  if parties < senders then
    throw (.refused (.invalidParameters (.tooFewParties threshold senders parties)))
  if party ≥ parties then
    throw (.refused (.invalidParameters (.partyOutOfRange party)))
  let counts := List.range' (threshold + 1) (senders - threshold)
  let rows ← (counts.mapM reconstructionCoefficients).mapError .refused
  pure
    { party := party
      parties := parties
      threshold := threshold
      malicious := malicious
      rows := rows
      batch := #[]
      received := .empty
      poisoned := false }

/-- Number of parties that send their evaluations. -/
def senders (o : ThresholdOpener F) : Nat := o.threshold + o.rows.length

/-- Puts the evaluations that a sender has sent among those collected so far. -/
def collect (o : ThresholdOpener F) (source : Nat) (columns : List (List F)) (bytes : Bytes) :
    Except ProtocolError (List (List F)) := do
  let values ← decodeValues bytes (some o.batch.size)
  pure (columns.set source values)

/-- Visits the parties at one distance: sends the own payload to the party so much further if one's
own evaluations are needed, and receives from the party as much before if that one's are. -/
def visit (o : ThresholdOpener F) (payload : Bytes) (offset : Nat) (columns : List (List F)) :
    Action (ThresholdOpener F) (List (List F)) :=
  let target := (o.party + offset) % o.parties
  let source := (o.party + o.parties - offset) % o.parties
  match decide (o.party < o.senders), decide (source < o.senders) with
  | true, true => do
    let bytes ← Action.pass offset payload
    Action.ofExcept (collect o source columns bytes)
  | true, false => do
    Action.send target payload
    pure columns
  | false, true => do
    let bytes ← Action.receive source
    Action.ofExcept (collect o source columns bytes)
  | false, false => pure columns

/-- Visits the other parties by increasing distance. `columns` collects the evaluations by
sender. -/
def exchangeAt (o : ThresholdOpener F) (payload : Bytes) :
    List Nat → (columns : List (List F)) → Action (ThresholdOpener F) (List (List F))
  | [], columns => pure columns
  | offset :: offsets, columns => do
    let columns ← visit o payload offset columns
    exchangeAt o payload offsets columns

/-- The evaluations of a number of openings, from those of every sender. -/
def byOpening : (openings : Nat) → (columns : List (List F)) → List (List F)
  | 0, _ => []
  | openings + 1, columns =>
    columns.map (·.headD 0) :: byOpening openings (columns.map List.tail)

/-- Queues the evaluations by opening. -/
def record (columns : List (List F)) (o : ThresholdOpener F) : ThresholdOpener F :=
  { o with
    received := o.received.appendList (byOpening o.batch.size columns)
    batch := #[] }

/-- Reveals the queued shares. -/
def exchange : Action (ThresholdOpener F) Unit := do
  let o ← get
  let seat ← Action.seat
  if o.poisoned then throw .macFail
  else if seat.players ≠ o.parties then throw (.misuse .playerCount)
  else if o.batch.isEmpty then pure ()
  else
    let own := o.batch.toList.map (·.value)
    let columns := (List.range o.senders).map fun p => if p = o.party then own else []
    let columns ← exchangeAt o (encodeValues own) (List.range' 1 (o.parties - 1)) columns
    modify (record columns)

/-- The value interpolated from the first evaluations, if every further row agrees with it. -/
def reconstruct? (o : ThresholdOpener F) (evaluations : List F) : Option F :=
  let value := CodedRing.weightedSum (o.rows.headD []) evaluations
  if !o.malicious || o.rows.tail.all (fun row => CodedRing.weightedSum row evaluations = value) then
    some value
  else none

/-- The next opened value, refused if interpolations disagree. -/
def finalize : Attempt (ThresholdOpener F) F := fun o =>
  if o.poisoned then (.error .macFail, o)
  else
    match o.received.dequeue? with
    | none => (.error (.misuse .nothingOpened), o)
    | some (evaluations, received) =>
      let o := { o with received := received }
      match o.reconstruct? evaluations with
      | some value => (.ok value, o)
      | none => (.error .macFail, { o with poisoned := true })

/-- Openings are verified when they are taken, so nothing is left to verify. -/
def check : Action (ThresholdOpener F) Unit := do
  let o ← get
  if o.poisoned then throw .macFail else pure ()

instance : Opener (ThresholdOpener F) (ThresholdShare F) F where
  party o := o.party
  init o := { o with batch := #[], received := .empty }
  prepare s o := { o with batch := o.batch.push s }
  exchange := exchange
  finalize := finalize
  check := check
  pendingChecks _ := 0
  isPoisoned o := o.poisoned
  constant _ v := ThresholdShare.constant v
  discardFault? _ := none

end ThresholdOpener

end Multiparty
