import Multiparty.Session

/-!
# Openers

An opener turns batches of shares into clear values and verifies that nobody cheated. A batch is
started with `init`, filled with `prepare`, revealed in one `exchange`, and read value by value
with `finalize`, in the order of preparation. What `finalize` has handed out is certain only after
a `check`.

## Main definitions

* `Opener`: the interface of an opener.
* `Opener.openBatch`: one whole batch.
-/

namespace Multiparty

/-- An opener state `O` for shares `S` of clear values `R`. -/
class Opener (O : Type) (S R : outParam Type) where
  /-- The party that owns the opener. -/
  party : O → Nat
  /-- Forgets the current batch and the values that were not taken. -/
  init : O → O
  /-- Queues a share for the next exchange. -/
  prepare : S → O → O
  /-- Reveals all queued shares in one round. -/
  exchange : Action O Unit
  /-- The next opened value. -/
  finalize : Attempt O R
  /-- Verifies everything opened since the last check. -/
  check : Action O Unit
  /-- Number of opened values that await verification. -/
  pendingChecks : O → Nat
  /-- Whether a failed check has made the opener unusable. -/
  isPoisoned : O → Bool
  /-- The own share of a public value. -/
  constant : O → R → S
  /-- Why the opener may not be discarded in its present state. -/
  discardFault? : O → Option DiscardFault

namespace Opener

variable {O S R : Type} [Opener O S R]

/-- Starts a batch with the given shares. -/
def prepareAll (shares : List S) (o : O) : O :=
  shares.foldl (fun o s => prepare s o) (init o)

/-- Opens a whole batch. -/
def openBatch (shares : List S) : Action O (List R) := do
  modify (prepareAll shares)
  exchange
  Action.ofAttempt (Attempt.times finalize shares.length)

end Opener

end Multiparty
