import Multiparty.Opening.Basic
import Multiparty.Proofs.History

/-!
# Sequences of opener operations

A party may use its opener in any order of operations, up to the first one that fails. It remembers
the values that it has taken since the last check. What they should be is told by a ledger, on which
the operations are carried out as if nothing ever failed. A party that goes on after a failure leaves
a history, in which a check has passed or not.

## Main definitions

* `OpenerStep`, `OpenerStep.perform`: an operation with the values taken since the last check.
* `Opener.certify`: a sequence of operations with a check at its end.
* `OpenerLedger`, `OpenerLedger.step`: what is queued, opened and taken if nothing fails.
* `OpenerStep.act`, `Operation.passed`: an operation, and whether a check has passed in it.

## Main results

* `Opener.certify_eq`: the operations come first, and the check after them.
-/

namespace Multiparty

open Multiparty.Action (Ensures Runs)

/-- An operation of an opener. -/
inductive OpenerStep (α : Type) where
  | init
  | prepare (item : α)
  | exchange
  | finalize
  | check

namespace OpenerStep

variable {α β O S R : Type}

/-- The same operation on another form of the item. -/
def map (f : α → β) : OpenerStep α → OpenerStep β
  | init => init
  | prepare item => prepare (f item)
  | exchange => exchange
  | finalize => finalize
  | check => check

variable [Opener O S R]

/-- Carries out an operation. `values` are those taken since the last check, before the operation
and in its result. -/
def perform (values : List R) : OpenerStep S → Action O (List R)
  | init => do
    modify Opener.init
    pure values
  | prepare s => do
    modify (Opener.prepare s)
    pure values
  | exchange => do
    Opener.exchange
    pure values
  | finalize => do
    let value ← Action.ofAttempt Opener.finalize
    pure (values ++ [value])
  | check => do
    Opener.check
    pure []

end OpenerStep

/-- A sequence of operations, then a check. `values` are those taken since the last check. The
result holds the values taken since the check before the one at the end, and the outcome of that
one. -/
def Opener.certify {O S R : Type} [Opener O S R] (values : List R) :
    List (OpenerStep S) → Action O (List R × Except ProtocolError Unit)
  | [] => do
    let outcome ← (Opener.check : Action O Unit).attempt
    pure (values, outcome)
  | step :: steps => do
    let values ← step.perform values
    certify values steps

/-- Only the last check is taken as a value. -/
theorem Opener.certify_eq {O S R : Type} [Opener O S R] (values : List R)
    (steps : List (OpenerStep S)) : (Opener.certify values steps : Action O _) =
      steps.foldlM OpenerStep.perform values >>= fun values => Opener.certify values [] := by
  induction steps generalizing values with
  | nil => rfl
  | cons step steps ih =>
    rw [Opener.certify, List.foldlM_cons, bind_assoc]
    exact congrArg _ (funext ih)

/-- The items that are queued, those that are opened and not yet taken, and those taken since the
last check. -/
structure OpenerLedger (α : Type) where
  queued : List α
  opened : List α
  taken : List α

namespace OpenerLedger

variable {α : Type}

/-- Nothing has been done yet. -/
def blank : OpenerLedger α := ⟨[], [], []⟩

/-- An operation that succeeds. -/
def step (ledger : OpenerLedger α) : OpenerStep α → OpenerLedger α
  | .init => { ledger with queued := [], opened := [] }
  | .prepare item => { ledger with queued := ledger.queued ++ [item] }
  | .exchange => { ledger with queued := [], opened := ledger.opened ++ ledger.queued }
  | .finalize => { ledger with
      opened := ledger.opened.tail
      taken := ledger.taken ++ ledger.opened.head?.toList }
  | .check => { ledger with taken := [] }

end OpenerLedger

/-! ### Operations that may fail -/

/-- Carries out an operation. The result is the value that it hands out, if it does. -/
def OpenerStep.act {O S R : Type} [Opener O S R] : OpenerStep S → Action O (Option R)
  | init => do
    modify Opener.init
    pure none
  | prepare s => do
    modify (Opener.prepare s)
    pure none
  | exchange => do
    Opener.exchange
    pure none
  | finalize => do
    let value ← Action.ofAttempt Opener.finalize
    pure (some value)
  | check => do
    Opener.check
    pure none

namespace OpenerStep

variable {O S R : Type} [Opener O S R] {seat : Seat} {o o' : O} {t : List Event}
  {r : Except ProtocolError (Option R)}

/-- A local operation makes no calls. -/
private theorem of_runs_modify {f : O → O}
    (h : Runs (do modify f; pure none : Action O (Option R)) seat o t o' r) :
    t = [] ∧ o' = f o ∧ r = .ok none :=
  h.of_ensures (Q := fun t o' r => t = [] ∧ o' = f o ∧ r = .ok none)
    (Ensures.bind (Ensures.modify (Ensures.pure ⟨rfl, rfl, rfl⟩)))

theorem of_runs_init (h : Runs (init : OpenerStep S).act seat o t o' r) :
    t = [] ∧ o' = Opener.init o ∧ r = .ok none := of_runs_modify h

theorem of_runs_prepare {s : S} (h : Runs (prepare s).act seat o t o' r) :
    t = [] ∧ o' = Opener.prepare s o ∧ r = .ok none := of_runs_modify h

theorem of_runs_finalize (h : Runs (finalize : OpenerStep S).act seat o t o' r) :
    t = [] ∧ o' = (Opener.finalize o).2 ∧ r = (Opener.finalize o).1.map some := by
  obtain ⟨r, hfinalize, rfl⟩ := h.of_bind_pure
  obtain ⟨rfl, rfl, rfl⟩ := hfinalize.of_ensures (Q := fun t o' r => t = [] ∧
    o' = (Opener.finalize o).2 ∧ r = (Opener.finalize o).1) (Ensures.ofAttempt ⟨rfl, rfl, rfl⟩)
  exact ⟨rfl, rfl, rfl⟩

end OpenerStep

/-- Whether a check has passed in an operation. An exchange reveals its shares by one call; whatever
it calls after that belongs to a check. -/
def Operation.passed {S R : Type} (op : Operation (OpenerStep S) (Option R)) : Bool :=
  match op.step, op.outcome with
  | .check, .ok _ => true
  | .exchange, .ok _ => 1 < op.calls.length
  | _, _ => false

end Multiparty
