import Multiparty.Hash.Sha3
import Multiparty.Random.WordSource
import Multiparty.Session

/-!
# Commitments and coin tosses

To reveal payloads so that nobody chooses theirs after seeing the others, all parties first
broadcast a hash of their payload under a random nonce and only then nonce and payload. A coin
toss commits to random seeds in this way and combines them by exclusive or.

## Main definitions

* `commitment`: the hash of a nonce followed by a payload.
* `commitAndOpen`: the two rounds of a committed broadcast.
* `sharedSeed`: the coin toss.
-/

namespace Multiparty

/-- Number of bytes of a nonce and of a shared seed. -/
def seedSize : Nat := 32

/-- The commitment to a payload under a nonce. -/
def commitment (nonce payload : Bytes) : Bytes := Sha3.hash256 (nonce ++ payload)

/-- The payload of an opening, which must be long enough for a nonce and match the commitment of
its party. -/
def verifyOpening (party : Nat) (opening committed : Bytes) : Except ProtocolError Bytes :=
  if opening.length < seedSize then .error (.invalidShareSet (.shortOpening party))
  else if commitment (opening.take seedSize) (opening.drop seedSize) ≠ committed then
    .error .macFail
  else .ok (opening.drop seedSize)

/-- The payloads of all parties, whose openings are verified in the order of the parties. -/
def verifyOpenings (openings commitments : List Bytes) : Except ProtocolError (List Bytes) :=
  (openings.zip commitments).zipIdx.mapM fun ((opening, committed), party) =>
    verifyOpening party opening committed

/-- The exclusive or of the contributions to a seed, each of which must have the right length. -/
def combineSeeds (contributions : List Bytes) : Except ProtocolError Bytes :=
  contributions.foldlM (fun seed c =>
    if c.length = seedSize then .ok (seed.xor c)
    else .error (.invalidShareSet .seedLength)) (List.replicate seedSize 0)

variable {G : Type} [WordSource G]

/-- The next `n` random bytes of a generator. -/
def drawBytes (n : Nat) : Action G Bytes :=
  Action.ofAttempt fun g =>
    let (bytes, g) := WordSource.bytes n g
    (.ok bytes, g)

/-- Broadcasts `payload` in two rounds, commitments first. The result holds the payload of every
party. -/
def commitAndOpen (payload : Bytes) : Action G (List Bytes) := do
  let nonce ← drawBytes seedSize
  let commitments ← Action.broadcast (commitment nonce payload)
  let openings ← Action.broadcast (nonce ++ payload)
  Action.ofExcept (verifyOpenings openings commitments)

/-- A seed to which every party contributes. -/
def sharedSeed : Action G Bytes := do
  let own ← drawBytes seedSize
  let contributions ← commitAndOpen own
  Action.ofExcept (combineSeeds contributions)

end Multiparty
