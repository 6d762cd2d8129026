import Multiparty.Opening.Basic
import Multiparty.Preprocessing.Supply
import Multiparty.Queue

/-!
# Multiplication with triples

To multiply `x` and `y` a triple `(a, b, c)` with `c = a * b` is taken from the supply, the
differences `rho = x - a` and `sigma = y - b` are opened, and the product is shared by
`c + b * rho + a * sigma + rho * sigma`, whose last term is public. Nothing is verified here; a
wrong opening or triple is noticed by the next check of the opener.

## Main definitions

* `Multiplier`: a supply with the multiplications under way.
* `Multiplier.prepare`, `Multiplier.finalize`: the local parts of a multiplication.
* `Multiplier.exchange`: the round that opens the differences of everything prepared.
-/

namespace Multiparty

/-- The state of multiplications under way. -/
structure Multiplier (S R K : Type) where
  supply : Supply S R K
  /-- Masked differences that wait for the next exchange. -/
  masked : Queue (S × S)
  /-- Triples of all multiplications that are not finished. -/
  triples : Queue (Triple S)
  /-- Opened differences, in the order of multiplication. -/
  opened : Queue (R × R)

namespace Multiplier

variable {O S R K : Type}

/-- No multiplication under way. -/
def create (supply : Supply S R K) : Multiplier S R K := ⟨supply, .empty, .empty, .empty⟩

/-- Number of multiplications prepared but not finished. -/
def pending (m : Multiplier S R K) : Nat := m.triples.length

/-- Forgets all multiplications under way. -/
def init (m : Multiplier S R K) : Multiplier S R K :=
  { m with masked := .empty, triples := .empty, opened := .empty }

/-- A request to the supply. -/
def ofSupply {α : Type} (f : Attempt (Supply S R K) α) : Attempt (Multiplier S R K) α :=
  Attempt.zoom (·.supply) (fun supply m => { m with supply := supply }) f

/-- Queues a multiplication. -/
def prepare [LinearShare S R K] (x y : S) : Attempt (Multiplier S R K) Unit := fun m =>
  match ofSupply Supply.triple m with
  | (.error e, m) => (.error e, m)
  | (.ok t, m) =>
    (.ok (), { m with
      masked := m.masked.enqueue (x - t.a, y - t.b)
      triples := m.triples.enqueue t })

/-- The shares of all masked differences, in the order in which they are opened. -/
def maskedShares (m : Multiplier S R K) : List S := m.masked.toList.flatMap fun p => [p.1, p.2]

/-- Takes the two differences of one multiplication from the opener. -/
def takePair [Opener O S R] : Attempt (O × Multiplier S R K) Unit := fun (o, m) =>
  match Opener.finalize o with
  | (.error e, o) => (.error e, (o, m))
  | (.ok rho, o) =>
    match Opener.finalize o with
    | (.error e, o) => (.error e, (o, m))
    | (.ok sigma, o) => (.ok (), (o, { m with opened := m.opened.enqueue (rho, sigma) }))

/-- Opens the differences of all prepared multiplications in one round. If the round itself fails
they stay prepared. -/
def exchange [Opener O S R] : Action (O × Multiplier S R K) Unit := do
  let (_, m) ← get
  if m.masked.isEmpty then pure ()
  else
    modify fun (o, m) => (Opener.prepareAll m.maskedShares o, m)
    Action.zoom (·.1) (fun o p => (o, p.2)) Opener.exchange
    modify fun (o, m) => (o, { m with masked := .empty })
    let _ ← Action.ofAttempt (Attempt.times takePair m.masked.length)
    pure ()

/-- The share of the next product. -/
def finalize [Opener O S R] [LinearShare S R K] [CodedRing R] (o : O) :
    Attempt (Multiplier S R K) S := fun m =>
  match m.opened.dequeue? with
  | none => (.error (.misuse .nothingExchanged), m)
  | some ((rho, sigma), opened) =>
    let m := { m with opened := opened }
    match m.triples.dequeue? with
    | none => (.error (.misuse .nothingPrepared), m)
    | some (t, triples) =>
      (.ok (t.c + LinearShare.scale t.b rho + LinearShare.scale t.a sigma +
          Opener.constant o (rho * sigma)),
        { m with triples := triples })

end Multiplier

end Multiparty
