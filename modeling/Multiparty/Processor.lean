import Multiparty.Codec
import Multiparty.Multiplication

/-!
# Batches of secure operations

A processor is the opener and the multiplier of one party. Every operation that communicates takes
one round for a whole batch, beside the checks that the opener runs by itself.

## Main definitions

* `Processor`: opener and multiplier of a party.
* `Processor.openShares`, `Processor.mul`, `Processor.input`, `Processor.randomBits`,
  `Processor.check`: the batch operations.
-/

namespace Multiparty

/-- The state with which one party computes on shares. -/
structure Processor (O S R K : Type) where
  opener : O
  multiplier : Multiplier S R K

namespace Processor

variable {O S R K α : Type}

/-- A processor with no operation under way. -/
def create (opener : O) (supply : Supply S R K) : Processor O S R K :=
  ⟨opener, Multiplier.create supply⟩

/-- An action of the opener. -/
def withOpener (m : Action O α) : Action (Processor O S R K) α :=
  Action.zoom (·.opener) (fun o p => { p with opener := o }) m

/-- A local computation of the opener. -/
def tryOpener (f : Attempt O α) : Action (Processor O S R K) α :=
  Action.ofAttempt (Attempt.zoom (·.opener) (fun o p => { p with opener := o }) f)

/-- A local computation of the multiplier. -/
def tryMultiplier (f : Attempt (Multiplier S R K) α) : Attempt (Processor O S R K) α :=
  Attempt.zoom (·.multiplier) (fun m p => { p with multiplier := m }) f

/-- A request to the supply. -/
def trySupply (f : Attempt (Supply S R K) α) : Attempt (Processor O S R K) α :=
  tryMultiplier (Multiplier.ofSupply f)

variable [Opener O S R] [LinearShare S R K] [CodedRing R]

/-- The round of all prepared multiplications. -/
def exchangeProducts : Action (Processor O S R K) Unit :=
  Action.zoom (fun p => (p.opener, p.multiplier)) (fun (o, m) _ => ⟨o, m⟩) Multiplier.exchange

/-- The share of the next product. -/
def finalizeProduct : Attempt (Processor O S R K) S := fun p =>
  tryMultiplier (Multiplier.finalize p.opener) p

/-- Reveals shares to all parties. -/
def openShares (shares : List S) : Action (Processor O S R K) (List R) :=
  withOpener (Opener.openBatch shares)

/-- Multiplies pairs of shares. -/
def mul (pairs : List (S × S)) : Action (Processor O S R K) (List S) := do
  modify fun p => { p with multiplier := p.multiplier.init }
  let _ ← Action.ofAttempt
    (Attempt.forEach (fun (x, y) => tryMultiplier (Multiplier.prepare x y)) pairs)
  exchangeProducts
  Action.ofAttempt (Attempt.times finalizeProduct pairs.length)

/-- Masks one own input: its share and the difference to be broadcast. -/
def maskInput (me : Nat) (value : R) : Attempt (Processor O S R K) (S × R) := fun p =>
  match trySupply (Supply.inputMask me) p with
  | (.error e, p) => (.error e, p)
  | (.ok (_, none), p) => (.error (.insufficient .plainInputMask), p)
  | (.ok (mask, some plain), p) =>
    let delta := value - plain
    (.ok (mask + Opener.constant p.opener delta, delta), p)

/-- The share of an input of another party, from the difference that it broadcast. -/
def unmaskInput (owner : Nat) (delta : R) : Attempt (Processor O S R K) S := fun p =>
  match trySupply (Supply.inputMask owner) p with
  | (.error e, p) => (.error e, p)
  | (.ok (mask, _), p) => (.ok (mask + Opener.constant p.opener delta), p)

/-- The shares of the inputs of one party from its payload; the own ones are known already. -/
def sharesOfOwner (me : Nat) (own : List S) (payload : Bytes) (owner : Nat) :
    Attempt (Processor O S R K) (List S) := fun p =>
  if owner = me then (.ok own, p)
  else
    match decodeValues payload none with
    | .error e => (.error e, p)
    | .ok deltas => Attempt.forEach (unmaskInput owner) deltas p

/-- Shares private inputs of every party. Each party broadcasts its inputs less its plain masks;
the result holds the shares of all inputs, by owner. -/
def input (values : List R) : Action (Processor O S R K) (List (List S)) := do
  let me := (← Action.seat).me
  let masked ← Action.ofAttempt (Attempt.forEach (maskInput me) values)
  let payloads ← Action.broadcast (encodeValues (masked.map (·.2)))
  Action.ofAttempt
    (Attempt.forEach (fun (payload, owner) => sharesOfOwner me (masked.map (·.1)) payload owner)
      payloads.zipIdx)

/-- Shares of secret random bits. -/
def randomBits (n : Nat) : Attempt (Processor O S R K) (List S) :=
  Attempt.times (trySupply Supply.bit) n

/-- Verifies everything opened so far. -/
def check : Action (Processor O S R K) Unit := withOpener Opener.check

end Processor

end Multiparty
