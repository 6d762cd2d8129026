import Multiparty.Capacity
import Multiparty.Network.Pipes
import Multiparty.Session

/-!
# The transport of one player

A player has a channel to every other player. A transfer is one or more *legs*, each of which may
send to one peer and receive from one peer; all legs of a transfer run side by side. A leg that
fails ends a small transfer at once; a large one still waits for all legs before the failing one.
A transfer that names a missing channel fails before it starts, and one that names the player
itself or nobody is a mistake of the caller.

## Main definitions

* `Transfer`: what a player can ask of its transport.
* `Transport`: the channels of a player; `Transport.create` refuses missing ones.
* `Transport.plan`: the legs of a transfer.
* `Leg.pollAll`: carries on with legs as far as the pipes allow.
* `TransferState`, `TransferState.proceed`, `Transport.begin`: how far a transfer has got.
-/

namespace Multiparty

/-- A transfer between a player and its peers. -/
inductive Transfer where
  | send (peer : Nat) (payload : Bytes)
  | receive (peer : Nat)
  /-- Send to one peer and receive from another one, or the same. -/
  | sendReceive (target : Nat) (payload : Bytes) (source : Nat)
  /-- Send to and receive from every peer. -/
  | exchange (payload : Bytes)
  deriving DecidableEq

/-- A mistake of the caller of a transport. -/
inductive TransportMisuse where
  /-- A channel to another player is missing. -/
  | channelMissing (peer : Nat)
  | sendToSelf
  | receiveFromSelf
  | passToSelf
  /-- There is no such player. -/
  | noSuchPlayer
  /-- The number of a player is computed beyond the machine word. -/
  | wordOverflow
  deriving DecidableEq

namespace TransportMisuse

/-- The wording of a mistake, if it has one. -/
def message : TransportMisuse → Option String
  | channelMissing peer => some ("Channel missing for party " ++ toString peer)
  | sendToSelf => some "Cannot send message on loopback"
  | receiveFromSelf => some "Cannot receive message on loopback"
  | passToSelf => some "Cannot pass messages on loopback"
  | noSuchPlayer => none
  | wordOverflow => none

end TransportMisuse

/-- A part of a transfer: at most one payload to send and at most one to receive. -/
structure Leg where
  /-- What is still to be sent, and to whom. -/
  outgoing : Option (Nat × Bytes) := none
  /-- From whom a payload is to be received. -/
  source : Option Nat := none
  /-- The payload received. -/
  received : Option Bytes := none
  /-- Why the leg has failed. -/
  error : Option TransportError := none
  deriving DecidableEq

namespace Leg

/-- Whether everything has been sent and received. -/
def isComplete (leg : Leg) : Bool :=
  leg.error.isNone && leg.outgoing.isNone && (leg.source.isNone || leg.received.isSome)

/-- Looks for the payload to be received. -/
def look (me : Nat) (leg : Leg) (p : Pipes) : Leg × Pipes :=
  match leg.source, leg.received with
  | some source, none =>
    match p.receive me source with
    | .payload payload p => ({ leg with received := some payload }, p)
    | .pending => (leg, p)
    | .never => ({ leg with error := some (.receive source) }, p)
  | _, _ => (leg, p)

/-- Carries on with a leg of player `me`: sends first, then looks for the payload. -/
def poll (me : Nat) (leg : Leg) (p : Pipes) : Leg × Pipes :=
  match leg.error, leg.outgoing with
  | some _, _ => (leg, p)
  | none, some (target, payload) =>
    match p.send? me target payload with
    | none => ({ leg with error := some (.send target) }, p)
    | some p => look me { leg with outgoing := none } p
  | none, none => look me leg p

/-- Carries on with legs in order until a failure counts. A failed leg counts at once if `prompt`,
and else only if all legs before it are complete, which `settled` says of those before the
list. Legs behind the failure are left as they are. -/
def pollAll (me : Nat) (prompt : Bool) :
    (settled : Bool) → List Leg → Pipes → Except TransportError (List Leg) × Pipes
  | _, [], p => (.ok [], p)
  | settled, leg :: legs, p =>
    let (leg, p) := leg.poll me p
    match leg.error, prompt || settled with
    | some e, true => (.error e, p)
    | _, _ =>
      match pollAll me prompt (settled && leg.isComplete) legs p with
      | (.ok legs, p) => (.ok (leg :: legs), p)
      | (.error e, p) => (.error e, p)

/-- The payloads received by all legs, with their senders. -/
def receipts (legs : List Leg) : List (Nat × Bytes) :=
  legs.filterMap fun leg =>
    match leg.source, leg.received with
    | some source, some payload => some (source, payload)
    | _, _ => none

end Leg

/-- The largest number of legs of a transfer that fails as soon as one of them does. -/
def promptLegs : Nat := 30

/-- How far a transfer has got. -/
inductive TransferState where
  /-- Everything has been sent and received. -/
  | complete (receipts : List (Nat × Bytes))
  | failed (error : TransportError)
  | misused (misuse : TransportMisuse)
  /-- Some payload has not arrived yet. -/
  | waiting (legs : List Leg)

namespace TransferState

/-- Carries on with the legs of a transfer of player `me`. -/
def proceed (me : Nat) (legs : List Leg) (p : Pipes) : TransferState × Pipes :=
  match Leg.pollAll me (legs.length ≤ promptLegs) true legs p with
  | (.error e, p) => (.failed e, p)
  | (.ok legs, p) =>
    (if legs.all Leg.isComplete then .complete (Leg.receipts legs) else .waiting legs, p)

/-- Carries on with a transfer of player `me` if it is waiting. -/
def resume (me : Nat) (p : Pipes) : TransferState → TransferState × Pipes
  | waiting legs => proceed me legs p
  | state => (state, p)

end TransferState

/-- The channels of a player. -/
structure Transport where
  me : Nat
  /-- For every player, whether there is a channel to it. -/
  present : List Bool
  deriving DecidableEq

namespace Transport

/-- The transport of a player, for which all channels but the own one must be present. -/
def create (present : List Bool) (me : Nat) : Except TransportMisuse Transport :=
  match present.zipIdx.find? fun (there, peer) => peer ≠ me && !there with
  | some (_, peer) => .error (.channelMissing peer)
  | none => .ok ⟨me, present⟩

/-- The transport of a player of a complete network. -/
def complete (players me : Nat) : Transport := ⟨me, List.replicate players true⟩

/-- Number of players. -/
def players (t : Transport) : Nat := t.present.length

/-- Whether there is a channel to a player. -/
def hasChannel (t : Transport) (peer : Nat) : Bool := t.present.getD peer false

/-- The legs of a transfer, or why it fails before anything is sent. -/
def plan (t : Transport) : Transfer → Except TransportMisuse (Except TransportError (List Leg))
  | .send peer payload =>
    if peer = t.me then .error .sendToSelf
    else if t.players ≤ peer then .error .noSuchPlayer
    else if !t.hasChannel peer then .ok (.error (.send peer))
    else .ok (.ok [{ outgoing := some (peer, payload) }])
  | .receive peer =>
    if peer = t.me then .error .receiveFromSelf
    else if t.players ≤ peer then .error .noSuchPlayer
    else if !t.hasChannel peer then .ok (.error (.receive peer))
    else .ok (.ok [{ source := some peer }])
  | .sendReceive target payload source =>
    if target = t.me ∨ source = t.me then .error .passToSelf
    else if !t.hasChannel target then .ok (.error (.send target))
    else if !t.hasChannel source then .ok (.error (.receive source))
    else .ok (.ok [{ outgoing := some (target, payload), source := some source }])
  | .exchange payload =>
    let peers := (List.range t.players).filter (· ≠ t.me)
    match peers.find? fun peer => !t.hasChannel peer with
    | some peer => .ok (.error (.send peer))
    | none => .ok (.ok (peers.map fun peer =>
        { outgoing := some (peer, payload), source := some peer }))

/-- Starts a transfer and carries it on as far as the pipes allow. -/
def begin (t : Transport) (transfer : Transfer) (p : Pipes) : TransferState × Pipes :=
  match t.plan transfer with
  | .error m => (.misused m, p)
  | .ok (.error e) => (.failed e, p)
  | .ok (.ok legs) => TransferState.proceed t.me legs p

/-- The player `offset` places after `me` among `players`, if the sum is a machine word. -/
def playerAfter? (players me offset : Nat) : Option Nat :=
  if isWord (me + offset) then some ((me + offset) % players) else none

/-- The player `offset` places before `me` among `players`, if the sum is a machine word. -/
def playerBefore? (players me offset : Nat) : Option Nat :=
  if isWord (me + players) then some ((me + players - offset % players) % players) else none

/-- The transfer by which a call is carried out. -/
def transferOf (t : Transport) : Call → Except TransportMisuse Transfer
  | .send peer payload => .ok (.send peer payload)
  | .receive peer => .ok (.receive peer)
  | .broadcast payload => .ok (.exchange payload)
  | .pass offset payload =>
    if t.players = 0 then .error .noSuchPlayer
    else
      match playerAfter? t.players t.me offset, playerBefore? t.players t.me offset with
      | some target, some source => .ok (.sendReceive target payload source)
      | _, _ => .error .wordOverflow

/-- The reply to a call from the payload sent and the payloads received, by sender. -/
def reply (t : Transport) (call : Call) (sent : Bytes) (receipts : List (Nat × Bytes)) :
    Except TransportMisuse call.Reply :=
  match call with
  | .send .. => .ok ()
  | .receive _ => .ok ((receipts.map (·.2)).headD [])
  | .pass .. => .ok ((receipts.map (·.2)).headD [])
  | .broadcast _ =>
    if t.players ≤ t.me then .error .noSuchPlayer
    else .ok ((List.range t.players).map fun player =>
      if player = t.me then sent else (receipts.lookup player).getD [])

end Transport

end Multiparty
