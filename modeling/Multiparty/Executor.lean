import Multiparty.Circuit.Basic
import Multiparty.Processor

/-!
# Running circuits along their trees

An executor goes along the tree of rounds of a circuit. It serves the requests of all branches together,
with at most one batch of multiplications and one batch of openings per round. Requests that nobody
awaits are served too. Their unclaimed answers are fatal: an answer that is awaited behind an
unclaimed one of the same round is out of order, and a round may not begin to hand out answers
while some of the last round are unclaimed.

## Main definitions

* `Executor`: a processor with what earlier circuits have left behind.
* `Executor.round`: one round.
* `Executor.runCircuit`: a whole circuit.
-/

namespace Multiparty

/-- A processor together with what earlier circuits have left behind. -/
structure Executor (O S R K : Type) where
  processor : Processor O S R K
  /-- Requests issued by a finished circuit that were never served. -/
  unserved : Requests S
  /-- Whether products of the last round are unclaimed. -/
  unclaimedProducts : Bool
  /-- Whether opened values of the last round are unclaimed. -/
  unclaimedValues : Bool
  /-- Number of completed rounds. -/
  rounds : Nat

namespace Executor

variable {O S R K α : Type}

/-- An action of the processor. -/
def withProcessor (m : Action (Processor O S R K) α) : Action (Executor O S R K) α :=
  Action.zoom (·.processor) (fun p x => { x with processor := p }) m

/-- Whether some awaited request stands behind one that nobody awaits. -/
def isOutOfOrder {β : Type} (requests : List (Request β)) : Bool :=
  (requests.dropWhile (·.awaited)).any (·.awaited)

/-- Whether some request is not awaited. -/
def leavesUnclaimed {β : Type} (requests : List (Request β)) : Bool :=
  requests.any (!·.awaited)

variable [Opener O S R] [LinearShare S R K] [CodedRing R]

/-- Serves the requests of one round: multiplications first, openings second, each only if there
are any. -/
def serve (r : Requests S) : Action (Executor O S R K) (List S × List R) := do
  let products ←
    if r.muls.isEmpty then pure []
    else withProcessor (Processor.mul (r.muls.map (·.operand)))
  let values ←
    if r.opens.isEmpty then pure []
    else withProcessor (Processor.openShares (r.opens.map (·.operand)))
  pure (products, values)

/-- Hands out the answers of a served round and checks the order in which they are awaited. -/
def settle (r : Requests S) (x : Executor O S R K) :
    Except CircuitFault Unit × Executor O S R K :=
  if x.unclaimedProducts || x.unclaimedValues then (.error .unclaimed, x)
  else
    let x := { x with
      rounds := x.rounds + 1
      unclaimedProducts := leavesUnclaimed r.muls
      unclaimedValues := leavesUnclaimed r.opens }
    if isOutOfOrder r.muls || isOutOfOrder r.opens then (.error .outOfOrder, x) else (.ok (), x)

/-- One round: the requests left behind, followed by the given ones, are served and settled. The
answers to the given requests are returned. A round without requests is refused. -/
def round (issued : Requests S) (seat : Seat) (x : Executor O S R K) :
    Session (Executor O S R K) (Except CircuitFault (List S × List R)) :=
  let all := x.unserved ++ issued
  if all.isEmpty then .done x (.error (.protocol (.misuse .stalled)))
  else
    (serve all seat { x with unserved := .none }).bind fun x' served =>
      match served with
      | .error e => .done x' (.error (.protocol e))
      | .ok (products, values) =>
        match settle all x' with
        | (.error e, x') => .done x' (.error e)
        | (.ok (), x') =>
          .done x' (.ok (products.drop x.unserved.muls.length,
            values.drop x.unserved.opens.length))

/-- Runs a circuit to its end. -/
def runCircuit : Circuit S R α → Seat → Executor O S R K →
    Session (Executor O S R K) (Except CircuitFault α)
  | .done issued a, _, x => .done { x with unserved := x.unserved ++ issued } (.ok a)
  | .stuck issued, seat, x =>
    (round issued seat x).bind fun x answers =>
      match answers with
      | .error e => .done x (.error e)
      | .ok _ => .done x (.error (.protocol (.misuse .stalled)))
  | .wait issued resume, seat, x =>
    (round issued seat x).bind fun x answers =>
      match answers with
      | .error e => .done x (.error e)
      | .ok (products, values) => runCircuit (resume products values) seat x

end Executor

end Multiparty
