/-!
# Causes of failure

Errors are values: a failed transfer between two parties (`TransportError`), a failure of a
protocol step (`ProtocolError`), parameters for which nothing can be set up (`SetupFault`), the
disposal of unverified results (`DiscardFault`), a circuit that is not carried through
(`CircuitFault`), and their wording.
-/

namespace Multiparty

/-- A transfer with the given party failed. -/
inductive TransportError where
  | send (peer : Nat)
  | receive (peer : Nat)
  deriving DecidableEq

namespace TransportError

/-- The wording of a failed transfer. -/
def message : TransportError → String
  | send peer => "Error while sending message to " ++ toString peer
  | receive peer => "Error while receiving message from " ++ toString peer

end TransportError

/-- Why shares or payloads received from others are malformed. -/
inductive ShareSetFault where
  /-- The payload cannot be cut into whole elements. -/
  | ragged (length width : Nat)
  /-- The payload holds another number of elements than expected. -/
  | count (expected received : Nat)
  /-- Some element is not in canonical form. -/
  | noncanonical
  /-- The opening of a commitment has no room for a nonce. -/
  | shortOpening (party : Nat)
  /-- A contribution to a shared seed has the wrong length. -/
  | seedLength
  deriving DecidableEq

namespace ShareSetFault

/-- The wording of a malformed payload. -/
def message : ShareSetFault → String
  | ragged length width =>
    "payload of " ++ toString length ++ " bytes is not a multiple of " ++ toString width
  | count expected received =>
    "expected " ++ toString expected ++ " values, received " ++ toString received
  | noncanonical => "non-canonical element encoding"
  | shortOpening party => "opening from party " ++ toString party ++ " is too short"
  | seedLength => "seed contribution has wrong length"

end ShareSetFault

/-- A kind of preprocessed material. -/
inductive Material where
  | triple
  | bit
  | inputMask
  | plainInputMask
  deriving DecidableEq

namespace Material

/-- The name of a kind of material. -/
def name : Material → String
  | triple => "triple"
  | bit => "bit"
  | inputMask => "input mask"
  | plainInputMask => "plain input mask"

end Material

/-- A call that the state of a protocol object does not admit. -/
inductive Misuse where
  /-- There is no opened value left to take. -/
  | nothingOpened
  /-- There is no exchanged multiplication left to finish. -/
  | nothingExchanged
  /-- There is no triple for an exchanged multiplication. -/
  | nothingPrepared
  /-- Replicated sharing was run with another number of players than three. -/
  | notThreePlayers
  /-- The number of players is not the number of parties of the threshold sharing. -/
  | playerCount
  /-- A circuit waits although it has asked for nothing. -/
  | stalled
  deriving DecidableEq

namespace Misuse

/-- The wording of a misuse. -/
def message : Misuse → String
  | nothingOpened => "finalize_open called without opened values"
  | nothingExchanged => "finalize_mul called without exchanged multiplications"
  | nothingPrepared => "finalize_mul called without prepared multiplications"
  | notThreePlayers => "replicated sharing requires exactly three parties"
  | playerCount => "player count differs from Shamir parameters"
  | stalled => "circuit stalled without pending multiplications or openings"

end Misuse

/-- Parameters that no sound protocol instance has. -/
inductive ParameterFault where
  /-- The points of that many evaluations are not distinct in the field. -/
  | pointsCollide (points : Nat)
  /-- A sharing of that degree needs more parties than there are. -/
  | thresholdTooHigh (threshold parties : Nat)
  /-- Opening with that threshold needs more parties than there are. -/
  | tooFewParties (threshold needed present : Nat)
  /-- The party is not one of the parties. -/
  | partyOutOfRange (party : Nat)
  /-- Nobody dealt input masks for the party. -/
  | noInputMasks (party : Nat)
  /-- Replicated sharing was asked for with another number of parties than three. -/
  | replicatedParties
  deriving DecidableEq

namespace ParameterFault

/-- The wording of unsound parameters. -/
def message : ParameterFault → String
  | pointsCollide points =>
    toString points ++ " evaluation points do not fit into the field"
  | thresholdTooHigh threshold parties =>
    "threshold " ++ toString threshold ++ " must be below the number of parties " ++
      toString parties
  | tooFewParties threshold needed present =>
    "threshold " ++ toString threshold ++ " needs " ++ toString needed ++ " parties, only " ++
      toString present ++ " present"
  | partyOutOfRange party => "party " ++ toString party ++ " out of range"
  | noInputMasks party => "no input masks for party " ++ toString party
  | replicatedParties => "replicated sharing runs with exactly 3 parties"

end ParameterFault

/-- Why a protocol step failed. -/
inductive ProtocolError where
  /-- An authenticated opening or a redundant reconstruction did not verify. -/
  | macFail
  | invalidShareSet (fault : ShareSetFault)
  | insufficient (material : Material)
  | misuse (misuse : Misuse)
  | invalidParameters (fault : ParameterFault)
  | transport (error : TransportError)
  deriving DecidableEq

namespace ProtocolError

/-- The wording of a failed protocol step. -/
def message : ProtocolError → String
  | macFail => "MAC check failed"
  | invalidShareSet fault => "invalid share set: " ++ fault.message
  | insufficient material => "preprocessing exhausted: no " ++ material.name ++ " available"
  | misuse m => "protocol misuse: " ++ m.message
  | invalidParameters fault => "invalid parameters: " ++ fault.message
  | transport error => error.message

end ProtocolError

/-- Why the parties of a protocol cannot be set up. -/
inductive SetupFault where
  /-- The parameters are refused. -/
  | refused (error : ProtocolError)
  /-- A count is no machine word, or memory for so many items cannot be asked for. -/
  | tooLarge
  /-- Material was to be altered that does not exist. -/
  | noSuchItem
  deriving DecidableEq

/-- Why an opener may not be discarded: it has opened values that were never verified. -/
inductive DiscardFault where
  /-- Authenticated openings that await their check. -/
  | authenticated (pending : Nat)
  /-- Replicated openings that are hashed but not compared. -/
  | replicated
  deriving DecidableEq

namespace DiscardFault

/-- The wording of a premature disposal. -/
def message : DiscardFault → String
  | authenticated pending =>
    "MacCheck dropped with " ++ toString pending ++ " unchecked openings"
  | replicated => "ReplicatedOpener dropped with unchecked openings"

end DiscardFault

/-- Why a circuit was not carried through. -/
inductive CircuitFault where
  /-- Processing a round failed, or the circuit waits without a request. -/
  | protocol (error : ProtocolError)
  /-- An awaited answer stood behind an unclaimed one. -/
  | outOfOrder
  /-- Answers of the last round were unclaimed when the next ones came. -/
  | unclaimed
  /-- An answer was claimed that had been claimed before. -/
  | claimedTwice
  /-- An answer was claimed where there is none. -/
  | outOfBounds (size index : Nat)
  deriving DecidableEq

namespace CircuitFault

/-- The wording of a fault. -/
def message : CircuitFault → String
  | protocol e => e.message
  | outOfOrder => "Circuit execution went out of order"
  | unclaimed => "Some responses from previous round were not processed"
  | claimedTwice => "Future polled twice"
  | outOfBounds size index =>
    "index out of bounds: the len is " ++ toString size ++ " but the index is " ++ toString index

end CircuitFault

end Multiparty
