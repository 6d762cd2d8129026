import Multiparty.Bytes

/-!
# Pipes between players

Between every ordered pair of players there is a first-in first-out pipe. A player may close its
end of all its pipes: nothing can be sent to it any more, and what it has sent can still be
received. Payloads may be limited in length.

## Main definitions

* `Pipes`: the contents of all pipes.
* `Pipes.send?`, `Pipes.receive`, `Pipes.close`: the operations.
-/

namespace Multiparty

/-- The contents of all pipes of a network. -/
structure Pipes where
  /-- Number of players. -/
  players : Nat
  /-- The payloads under way, oldest first: row by sender, column by receiver. -/
  queues : List (List (List Bytes))
  /-- The players that have closed their ends. -/
  closed : List Nat
  /-- Which payloads can be sent. -/
  fits : Bytes → Bool

/-- What a player finds who looks for the next payload of a peer. -/
inductive Arrival where
  /-- The next payload, and the pipes without it. -/
  | payload (payload : Bytes) (pipes : Pipes)
  /-- Nothing has arrived yet. -/
  | pending
  /-- Nothing has arrived and nothing will. -/
  | never

namespace Pipes

/-- Empty pipes among a number of players, with no closed end. -/
def empty (players : Nat) (fits : Bytes → Bool) : Pipes :=
  { players := players
    queues := List.replicate players (List.replicate players [])
    closed := []
    fits := fits }

/-- The payloads under way from one player to another, oldest first. -/
def queue (p : Pipes) (sender receiver : Nat) : List Bytes :=
  (p.queues.getD sender []).getD receiver []

/-- Whether a player has closed its ends. -/
def isClosed (p : Pipes) (player : Nat) : Bool := p.closed.contains player

/-- Changes the pipe from one player to another. -/
def modifyQueue (p : Pipes) (sender receiver : Nat) (f : List Bytes → List Bytes) : Pipes :=
  { p with queues := p.queues.modify sender fun row => row.modify receiver f }

/-- Sends a payload, unless the receiver has closed its ends or the payload does not fit. -/
def send? (p : Pipes) (sender receiver : Nat) (payload : Bytes) : Option Pipes :=
  if p.isClosed receiver || !p.fits payload then none
  else some (p.modifyQueue sender receiver (· ++ [payload]))

/-- Looks for the next payload from a sender. -/
def receive (p : Pipes) (receiver sender : Nat) : Arrival :=
  match p.queue sender receiver with
  | payload :: _ => .payload payload (p.modifyQueue sender receiver List.tail)
  | [] => if p.isClosed sender then .never else .pending

/-- Closes all ends of a player. -/
def close (p : Pipes) (player : Nat) : Pipes := { p with closed := player :: p.closed }

end Pipes

end Multiparty
