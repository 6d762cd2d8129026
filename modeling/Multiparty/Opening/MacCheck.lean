import Multiparty.Codec
import Multiparty.Commitment
import Multiparty.Config.Basic
import Multiparty.Opening.Basic
import Multiparty.Queue
import Multiparty.Random.ChaCha
import Multiparty.Share.Authenticated

/-!
# Opening authenticated shares

Only value shares are revealed. The authentication shares of everything opened are kept until a
check compares them: in a small batch every residual `value * key - mac` is committed to and
opened, in a large one a single random linear combination, whose coefficients come from a jointly
tossed seed. Over all parties the residuals of an item sum to zero exactly if its authentication
code is right.

## Main definitions

* `MacOpener`: the state of the opener.
* `MacOpener.residuals`, `MacOpener.combinedResidual`: what is revealed in a check.
* `MacOpener.eachVerdict`, `MacOpener.combinedVerdict`: what a check makes of it.
* `MacOpener.checkEach`, `MacOpener.checkCombined`: the two ways to check.
* `MacOpener.exchange`, `MacOpener.finalize`, `MacOpener.check`.
-/

namespace Multiparty

/-- An opened value with the own share of its authentication code. -/
structure PendingCheck (R : Type) where
  value : R
  mac : R
  deriving DecidableEq

/-- The state of an opener of authenticated shares. -/
structure MacOpener (R : Type) where
  party : Nat
  /-- The own share of the key. -/
  key : R
  /-- Number of pending values from which on an exchange ends with a check. -/
  checkThreshold : Nat
  /-- Number of pending values below which they are checked one by one. -/
  smallCheckThreshold : Nat
  /-- Shares queued for the next exchange. -/
  batch : Array (MacShare R)
  /-- Opened values not yet taken. -/
  opened : Queue R
  /-- Everything opened since the last successful check. -/
  pending : Array (PendingCheck R)
  /-- Source of nonces and seed contributions. -/
  rng : ChaCha
  /-- Whether a check has failed. -/
  poisoned : Bool

namespace MacOpener

variable {R : Type} [CodedRing R]

/-- A fresh opener. -/
def create (party : Nat) (key : R) (config : ProtocolConfig) (rng : ChaCha) : MacOpener R :=
  { party := party
    key := key
    checkThreshold := config.checkThreshold
    smallCheckThreshold := config.smallCheckThreshold
    batch := #[]
    opened := .empty
    pending := #[]
    rng := rng
    poisoned := false }

/-- The own values increased by those of every other party, whose payloads are decoded in the
order of the parties. -/
def sumWithPeers (me : Nat) (own : List R) (payloads : List Bytes) :
    Except ProtocolError (List R) :=
  payloads.zipIdx.foldlM (fun sums (payload, party) =>
    if party = me then .ok sums
    else do
      let theirs ← decodeValues payload (some sums.length)
      pure (List.zipWith (· + ·) sums theirs)) own

/-- The difference of a pending value times the key and its authentication share. -/
def residual (key : R) (p : PendingCheck R) : R := p.value * key - p.mac

/-- The residuals of all pending values. -/
def residuals (key : R) (pending : List (PendingCheck R)) : List R := pending.map (residual key)

/-- The combination of the authentication shares less the key times the same combination of the
values. -/
def combinedResidual (key : R) (pending : List (PendingCheck R)) (coefficients : List R) : R :=
  CodedRing.weightedSum coefficients (pending.map (·.mac)) -
    key * CodedRing.weightedSum coefficients (pending.map (·.value))

/-- The sum of one element per payload, decoded in the order of the parties. -/
def sumSingles (payloads : List Bytes) : Except ProtocolError R :=
  payloads.foldlM (fun sum payload => do
    let values ← decodeValues payload (some 1)
    pure (sum + values.headD 0)) 0

/-- A computation on the generator of an opener. -/
def withRng {α : Type} (m : Action ChaCha α) : Action (MacOpener R) α :=
  Action.zoom (·.rng) (fun rng o => { o with rng := rng }) m

/-- The verdict on the items one by one: every sum with the values of the peers vanishes. -/
def eachVerdict (me : Nat) (own : List R) (payloads : List Bytes) : Except ProtocolError Bool :=
  (sumWithPeers me own payloads).map (·.all CodedRing.isZero)

/-- The verdict on a combination: the sum of the values of all parties vanishes. -/
def combinedVerdict (R : Type) [CodedRing R] (payloads : List Bytes) : Except ProtocolError Bool :=
  (sumSingles (R := R) payloads).map CodedRing.isZero

/-- Opens the residual of every pending value; the verdict is whether all sums vanish. -/
def checkEach : Action (MacOpener R) Bool := do
  let o ← get
  let own := residuals o.key o.pending.toList
  let payloads ← withRng (commitAndOpen (encodeValues own))
  Action.ofExcept (eachVerdict o.party own payloads)

/-- So many coefficients as the generator of a seed yields them. -/
def drawCoefficients (seed : Bytes) (count : Nat) : List R :=
  (WordSource.replicate CodedRing.draw count (ChaCha.ofSeed seed)).1

/-- Opens one linear combination of the residuals, whose coefficients a rule takes from a jointly
tossed seed; the verdict is whether its sum vanishes. -/
def checkCombinedBy (coefficients : Bytes → Nat → List R) : Action (MacOpener R) Bool := do
  let o ← get
  let seed ← withRng sharedSeed
  let own := combinedResidual o.key o.pending.toList (coefficients seed o.pending.size)
  let payloads ← withRng (commitAndOpen (encodeValues [own]))
  Action.ofExcept (combinedVerdict R payloads)

/-- Opens one random linear combination of the residuals; the verdict is whether its sum
vanishes. -/
def checkCombined : Action (MacOpener R) Bool := checkCombinedBy drawCoefficients

/-- Makes the opener unusable and fails. -/
def fail {α : Type} (e : ProtocolError) : Action (MacOpener R) α := do
  modify fun o => { o with poisoned := true }
  throw e

/-- Verifies all pending values and forgets them if they are right. Any failure poisons the
opener. -/
def check : Action (MacOpener R) Unit := do
  let o ← get
  if o.poisoned then throw .macFail
  else if o.pending.isEmpty then pure ()
  else
    let outcome ←
      if o.pending.size < o.smallCheckThreshold then checkEach.attempt else checkCombined.attempt
    match outcome with
    | .ok true => modify fun o => { o with pending := #[] }
    | .ok false => fail .macFail
    | .error e => fail e

/-- Records an opened batch as pending and as ready to be taken. -/
def record (values : List R) (o : MacOpener R) : MacOpener R :=
  { o with
    pending := o.pending ++
      (List.zipWith (fun s v => (⟨v, s.mac⟩ : PendingCheck R)) o.batch.toList values).toArray
    opened := o.opened.appendList values
    batch := #[] }

/-- Reveals the queued shares, and checks everything pending if that is enough. -/
def exchange : Action (MacOpener R) Unit := do
  let o ← get
  if o.poisoned then throw .macFail
  else if o.batch.isEmpty then pure ()
  else
    let own := o.batch.toList.map (·.value)
    let payloads ← Action.broadcast (encodeValues own)
    let values ← Action.ofExcept (sumWithPeers o.party own payloads)
    modify (record values)
    let o ← get
    if o.pending.size ≥ o.checkThreshold then check else pure ()

/-- The next opened value. -/
def finalize : Attempt (MacOpener R) R := fun o =>
  if o.poisoned then (.error .macFail, o)
  else
    match o.opened.dequeue? with
    | some (v, opened) => (.ok v, { o with opened := opened })
    | none => (.error (.misuse .nothingOpened), o)

/-- Whether the opener may not be discarded, because opened values were never verified. -/
def hasUnchecked (o : MacOpener R) : Bool := !o.pending.isEmpty && !o.poisoned

instance : Opener (MacOpener R) (MacShare R) R where
  party o := o.party
  init o := { o with batch := #[], opened := .empty }
  prepare s o := { o with batch := o.batch.push s }
  exchange := exchange
  finalize := finalize
  check := check
  pendingChecks o := o.pending.size
  isPoisoned o := o.poisoned
  constant o v := MacShare.constant v o.party o.key
  discardFault? o := if o.hasUnchecked then some (.authenticated o.pending.size) else none

end MacOpener

end Multiparty
