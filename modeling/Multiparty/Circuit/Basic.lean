import Multiparty.Share.Basic

/-!
# Circuits as trees of rounds

A circuit is a computation on shares that asks for multiplications and openings. Each poll either
finishes it or leaves it waiting, and in either case issues the requests that it reached. All requests
of one poll are answered together before the next one, so a circuit may be seen as a tree whose nodes
are rounds, whatever becomes of single requests and their answers in between.

Concurrent branches are polled in order, so that all parties issue their requests in the same
order. A branch may also be abandoned after its first poll: its requests are answered all the same,
but nobody awaits the answers.

## Main definitions

* `Request`, `Requests`: what one poll issues.
* `Circuit`: a computation that is done, stuck, or waiting for answers.
* `Circuit.bind`, `Circuit.both`, `Circuit.joinAll`, `Circuit.abandon`: sequencing, concurrency and
  abandonment.
* `Circuit.mul`, `Circuit.reveal`: the two basic requests.
-/

namespace Multiparty

/-- A request and whether somebody awaits its answer. -/
structure Request (α : Type) where
  operand : α
  awaited : Bool
  deriving DecidableEq

/-- The requests issued in one poll, in order. -/
structure Requests (S : Type) where
  /-- Pairs of shares to be multiplied. -/
  muls : List (Request (S × S))
  /-- Shares to be opened. -/
  opens : List (Request S)
  deriving DecidableEq

namespace Requests

variable {S : Type}

/-- No request. -/
def none : Requests S := ⟨[], []⟩

/-- The requests of two polls, one after the other. -/
def append (r r' : Requests S) : Requests S := ⟨r.muls ++ r'.muls, r.opens ++ r'.opens⟩

instance : Append (Requests S) := ⟨append⟩

/-- The same requests with nobody awaiting their answers. -/
def unawaited (r : Requests S) : Requests S :=
  ⟨r.muls.map fun q => { q with awaited := false },
    r.opens.map fun q => { q with awaited := false }⟩

/-- Whether there is no request. -/
def isEmpty (r : Requests S) : Bool := r.muls.isEmpty && r.opens.isEmpty

end Requests

/-- A computation on shares `S` with clear values `R`, as a tree of rounds. -/
inductive Circuit (S R α : Type) where
  /-- Finished; `issued` are requests of this last poll that nobody awaits. -/
  | done (issued : Requests S) (result : α)
  /-- Waiting for something that never happens. -/
  | stuck (issued : Requests S)
  /-- Waiting for the products and the opened values of all requests of this poll. -/
  | wait (issued : Requests S) (resume : List S → List R → Circuit S R α)

namespace Circuit

variable {S R α β γ : Type}

/-- The requests of the first poll. -/
def issued : Circuit S R α → Requests S
  | done i _ => i
  | stuck i => i
  | wait i _ => i

/-- The circuit with requests of somebody else issued in front of its first poll. -/
def after (earlier : Requests S) : Circuit S R α → Circuit S R α
  | done i a => done (earlier ++ i) a
  | stuck i => stuck (earlier ++ i)
  | wait i resume => wait (earlier ++ i) fun products values =>
      resume (products.drop earlier.muls.length) (values.drop earlier.opens.length)

/-- The circuit that is finished from the start. -/
protected def pure (a : α) : Circuit S R α := done .none a

/-- Continues with `f` in the poll in which the circuit finishes. -/
protected def bind (f : α → Circuit S R β) : Circuit S R α → Circuit S R β
  | done i a => (f a).after i
  | stuck i => stuck i
  | wait i resume => wait i fun products values => (resume products values).bind f

/-- The circuit with its result transformed. -/
protected def map (f : α → β) : Circuit S R α → Circuit S R β
  | done i a => done i (f a)
  | stuck i => stuck i
  | wait i resume => wait i fun products values => (resume products values).map f

/-- The circuit that makes the same requests and never finishes. -/
def mute : Circuit S R α → Circuit S R β
  | done i _ => stuck i
  | stuck i => stuck i
  | wait i resume => wait i fun products values => (resume products values).mute

/-- Two circuits side by side; in every poll the first one is polled first. -/
def both : Circuit S R α → Circuit S R β → Circuit S R (α × β)
  | done i a, d => (d.map (a, ·)).after i
  | stuck i, d => d.mute.after i
  | wait i resume, d =>
    match d with
    | done j b => wait (i ++ j) fun products values =>
        (resume (products.take i.muls.length) (values.take i.opens.length)).map (·, b)
    | stuck j => wait (i ++ j) fun products values =>
        (resume (products.take i.muls.length) (values.take i.opens.length)).mute
    | wait j resume' => wait (i ++ j) fun products values =>
        both (resume (products.take i.muls.length) (values.take i.opens.length))
          (resume' (products.drop i.muls.length) (values.drop i.opens.length))

/-- All circuits of a list side by side. -/
def joinAll : List (Circuit S R α) → Circuit S R (List α)
  | [] => Circuit.pure []
  | c :: cs => (both c (joinAll cs)).map fun p => p.1 :: p.2

/-- Polls the first circuit once, drops it, and continues with the second. -/
def abandon (c : Circuit S R α) (d : Circuit S R β) : Circuit S R β := d.after c.issued.unawaited

/-- Asks for the product of two shares. -/
def mul [Zero S] (x y : S) : Circuit S R S :=
  wait ⟨[⟨(x, y), true⟩], []⟩ fun products _ => Circuit.pure (products.headD 0)

/-- Asks for the value of a share. -/
def reveal [Zero R] (x : S) : Circuit S R R :=
  wait ⟨[], [⟨x, true⟩]⟩ fun _ values => Circuit.pure (values.headD 0)

/-- The result of a circuit that needs no answer. -/
def result? : Circuit S R α → Option α
  | done _ a => some a
  | _ => none

end Circuit

end Multiparty
