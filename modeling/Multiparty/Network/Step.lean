import Multiparty.Network.Transport

/-!
# Single steps of several players

In a step every player that takes part starts one transfer or leaves. All of them start in order,
and those that have to wait carry on once all have started. A transfer sends only when it starts,
so nothing that is still missing then will arrive in this step.

## Main definitions

* `Deed`: what a player does in a step.
* `Deed.step`: one step.
-/

namespace Multiparty

/-- What a player does in one step. -/
inductive Deed where
  | transfer (transfer : Transfer)
  /-- Close all own ends. -/
  | leave
  deriving DecidableEq

namespace Deed

/-- Starts the deed of a player. -/
def start (t : Transport) (p : Pipes) : Deed → TransferState × Pipes
  | transfer x => t.begin x p
  | leave => (.complete [], p.close t.me)

/-- Starts the deeds of several players in order. -/
def startAll : List (Transport × Deed) → Pipes → List (Nat × TransferState) × Pipes
  | [], p => ([], p)
  | (t, deed) :: rest, p =>
    let (state, p) := deed.start t p
    let (states, p) := startAll rest p
    ((t.me, state) :: states, p)

/-- Carries on with the transfers of several players in order. -/
def resumeAll : List (Nat × TransferState) → Pipes → List TransferState × Pipes
  | [], p => ([], p)
  | (me, state) :: rest, p =>
    let (state, p) := state.resume me p
    let (states, p) := resumeAll rest p
    (state :: states, p)

/-- One step: how far the deed of every player gets. -/
def step (deeds : List (Transport × Deed)) (p : Pipes) : List TransferState × Pipes :=
  let (states, p) := startAll deeds p
  resumeAll states p

end Deed

end Multiparty
