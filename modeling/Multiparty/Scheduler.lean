import Multiparty.Circuit.Future
import Multiparty.Processor

/-!
# Running circuits

A scheduler polls a future until it is ready. Whenever it is not, everything that its branches have
asked for is served together, with at most one batch of multiplications and one batch of openings,
and the answers begin the next round.

## Main definitions

* `Processor.serve`: the batches of one round.
* `Scheduler`: a processor with the requests of the circuit that it runs.
* `Scheduler.run`: a whole circuit.
-/

namespace Multiparty

variable {O S R K α : Type}

namespace Processor

variable [Opener O S R] [LinearShare S R K] [CodedRing R]

/-- Multiplies pairs of shares, if there are any. -/
def mulIfAny (muls : List (S × S)) : Action (Processor O S R K) (List S) :=
  if muls.isEmpty then pure [] else Processor.mul muls

/-- Reveals shares, if there are any. -/
def openIfAny (opens : List S) : Action (Processor O S R K) (List R) :=
  if opens.isEmpty then pure [] else Processor.openShares opens

/-- Serves the requests of one round, multiplications first and openings second. -/
def serve (muls : List (S × S)) (opens : List S) : Action (Processor O S R K) (List S × List R) := do
  let products ← mulIfAny muls
  let values ← openIfAny opens
  pure (products, values)

end Processor

/-- A processor with the requests of the circuit that it runs. -/
structure Scheduler (O S R K : Type) where
  processor : Processor O S R K
  buffers : Buffers S R
  /-- Number of completed rounds. -/
  rounds : Nat

namespace Scheduler

/-- A scheduler that has run nothing yet. -/
def create (processor : Processor O S R K) : Scheduler O S R K := ⟨processor, .create, 0⟩

/-- Futures that have gone on come before. -/
local instance : WellFoundedRelation (Future S R α) :=
  ⟨Relation.TransGen Future.Step, Future.wellFounded_step.transGen⟩

variable [Opener O S R] [LinearShare S R K] [CodedRing R]

/-- Runs a circuit to its end. It ends because every poll that makes requests has carried the future
on, and what earlier circuits have requested is served in the first round. -/
def run (f : Future S R α) (seat : Seat) (x : Scheduler O S R K) :
    Session (Scheduler O S R K) (Except CircuitFault α) :=
  match hpoll : f.poll x.buffers with
  | (.error e, b) => .done { x with buffers := b } (.error e)
  | (.ok (.ready a), b) => .done { x with buffers := b } (.ok a)
  | (.ok f', b) =>
    if hnone : b.pending = 0 then
      .done { x with buffers := b.take.2 } (.error (.protocol (.misuse .stalled)))
    else
      (((Processor.serve b.take.1.1 b.take.1.2).run seat x.processor).mapState fun p =>
        ⟨p, b.take.2, x.rounds⟩).bind fun x' served =>
          match served with
          | .error e => .done x' (.error (.protocol e))
          | .ok (products, values) =>
            match hresolve : b.take.2.resolve products values with
            | (.error e, b') => .done { x' with buffers := b' } (.error e)
            | (.ok (), b') => run f' seat ⟨x'.processor, b', x.rounds + 1⟩
termination_by (f, x.buffers.pending)
decreasing_by
  obtain hlater | ⟨rfl, hpending⟩ := Future.poll_progress hpoll
  · exact .left _ _ hlater
  · refine .right _ ?_
    have hresolved := Buffers.pending_resolve products values b.take.2
    rw [hresolve] at hresolved
    rw [hresolved, Buffers.pending_take, ← hpending]
    exact Nat.pos_of_ne_zero hnone

end Scheduler

end Multiparty
