import Multiparty.Error

/-!
# Requests of one round

The requests of a kind are collected until the next round and answered together. Whoever has queued
one keeps a ticket, by which the answer is claimed in the round after. Answers are claimed in the
order of their requests, each once, and all of them before the next ones arrive.

## Main definitions

* `Ticket`: a claim to the answer to a request.
* `RoundBuffer`: the requests of one kind and the answers to the last ones.
* `RoundBuffer.queue`, `RoundBuffer.claim`, `RoundBuffer.take`, `RoundBuffer.resolve`: the life of a
  request.
* `Buffers`: the two kinds of requests of a circuit.
-/

namespace Multiparty

/-- A claim to the answer at some place of a round. -/
structure Ticket where
  index : Nat
  round : Nat
  deriving DecidableEq

/-- Requests `T` of one kind for the next round, and answers `A` of the last one. -/
structure RoundBuffer (T A : Type) where
  requests : Array T
  /-- The answers of the last round, absent once they are claimed. -/
  answers : Array (Option A)
  /-- Number of rounds so far. -/
  round : Nat
  /-- Place of the answer that has to be claimed next. -/
  nextClaim : Nat

namespace RoundBuffer

variable {T A : Type}

/-- A buffer without requests before the first round. -/
def create : RoundBuffer T A := ⟨#[], #[], 0, 0⟩

/-- Queues a request for the next round. -/
def queue (request : T) (b : RoundBuffer T A) : Ticket × RoundBuffer T A :=
  (⟨b.requests.size, b.round + 1⟩, { b with requests := b.requests.push request })

/-- Claims the answer to a request, which is there in its round only. Answers must be claimed in
order. -/
def claim (ticket : Ticket) (b : RoundBuffer T A) :
    Except CircuitFault (Option A) × RoundBuffer T A :=
  if b.round = ticket.round then
    if b.nextClaim ≠ ticket.index then (.error .outOfOrder, b)
    else
      let b := { b with nextClaim := ticket.index + 1 }
      match b.answers[ticket.index]? with
      | some (some a) => (.ok (some a), { b with answers := b.answers.setIfInBounds ticket.index none })
      | some none => (.error .claimedTwice, b)
      | none => (.error (.outOfBounds b.answers.size ticket.index), b)
  else (.ok none, b)

/-- Claims leave the requests alone. -/
@[simp] theorem requests_claim (ticket : Ticket) (b : RoundBuffer T A) :
    (b.claim ticket).2.requests = b.requests := by
  rw [claim]
  split
  · split
    · rfl
    · dsimp only
      split <;> rfl
  · rfl

/-- The requests for the next round, which leave the buffer. -/
def take (b : RoundBuffer T A) : List T × RoundBuffer T A :=
  (b.requests.toList, { b with requests := #[] })

/-- Begins the next round with the answers to its requests. Those of the last one must have been
claimed. -/
def resolve (answers : List A) (b : RoundBuffer T A) : Except CircuitFault Unit × RoundBuffer T A :=
  if b.nextClaim ≠ b.answers.size then (.error .unclaimed, b)
  else
    (.ok (), { b with answers := (answers.map some).toArray, round := b.round + 1, nextClaim := 0 })

/-- Answers leave the requests alone. -/
@[simp] theorem requests_resolve (answers : List A) (b : RoundBuffer T A) :
    (b.resolve answers).2.requests = b.requests := by
  rw [resolve]
  split <;> rfl

end RoundBuffer

/-- The requests of a circuit on shares `S` with clear values `R`. -/
structure Buffers (S R : Type) where
  /-- Pairs of shares to be multiplied. -/
  muls : RoundBuffer (S × S) S
  /-- Shares to be opened. -/
  opens : RoundBuffer S R

namespace Buffers

variable {S R : Type}

/-- No request before the first round. -/
def create : Buffers S R := ⟨.create, .create⟩

/-- Number of requests for the next round. -/
def pending (b : Buffers S R) : Nat := b.muls.requests.size + b.opens.requests.size

/-- The requests for the next round, which leave the buffers. -/
def take (b : Buffers S R) : (List (S × S) × List S) × Buffers S R :=
  let (muls, mulBuffer) := b.muls.take
  let (opens, openBuffer) := b.opens.take
  ((muls, opens), ⟨mulBuffer, openBuffer⟩)

/-- Begins the next round with its products and opened values. -/
def resolve (products : List S) (values : List R) (b : Buffers S R) :
    Except CircuitFault Unit × Buffers S R :=
  match b.muls.resolve products with
  | (.error e, muls) => (.error e, { b with muls := muls })
  | (.ok (), muls) =>
    let (result, opens) := b.opens.resolve values
    (result, ⟨muls, opens⟩)

theorem pending_take (b : Buffers S R) : b.take.2.pending = 0 := rfl

/-- Answers leave the requests alone. -/
theorem pending_resolve (products : List S) (values : List R) (b : Buffers S R) :
    (b.resolve products values).2.pending = b.pending := by
  have hmuls := RoundBuffer.requests_resolve products b.muls
  have hopens := RoundBuffer.requests_resolve values b.opens
  rw [resolve]
  split
  · next hresolve =>
    rw [hresolve] at hmuls
    rw [pending, hmuls, pending]
  · next hresolve =>
    rw [hresolve] at hmuls
    rw [pending, hmuls, pending, ← hopens]

end Buffers

end Multiparty
