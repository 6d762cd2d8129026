import Multiparty.Network.Run

/-!
# Runs in several stages

A run may be divided into stages. In each stage every player, or only some, runs a session from the
state in which the last stage has left it; payloads that nobody has received stay in their pipes.
A stage in which somebody gets stuck is the last one.

## Main definitions

* `Report`: how a player ended a stage.
* `Network.runStages`: all stages of a run.
-/

namespace Multiparty

/-- How a player ended a stage. -/
inductive Report (α : Type) where
  /-- The session is done. -/
  | answered (a : α)
  /-- The session waits for a payload that nobody sends. -/
  | blocked
  /-- The session made a call that no player may make. -/
  | misused (misuse : TransportMisuse)
  deriving DecidableEq

namespace Report

variable {σ α : Type}

/-- The report on a task. -/
def ofTask (t : Task σ α) : Report α :=
  match t.progress, t.session with
  | .crashed m, _ => misused m
  | .over, .done _ a => answered a
  | _, _ => blocked

/-- Whether no stage may follow; `final` tells which answers are the last ones. -/
def isFinal (final : α → Bool) : Report α → Bool
  | answered a => final a
  | _ => true

end Report

namespace Network

variable {σ α ι : Type}

/-- The players with their sessions in a stage. `act` gives the session of a player from the number
of its calls so far and its state, or nothing if the player stays out. -/
def stageSessions (act : (player calls : Nat) → σ → Option (Session σ α)) (states : List σ)
    (net : Network) : List (Nat × Session σ α) :=
  states.zipIdx.filterMap fun (s, player) =>
    (act player (net.tracedCalls player) s).map (player, ·)

/-- One stage: the report of every player, its state, and the network. -/
def runStage (act : (player calls : Nat) → σ → Option (Session σ α)) (states : List σ)
    (net : Network) : List (Option (Report α)) × List σ × Network :=
  let (tasks, net) := net.run (stageSessions act states net)
  ((List.range states.length).map fun player =>
      (tasks.find? fun t => t.player = player).map Report.ofTask,
    tasks.foldl (fun states t => states.set t.player t.session.state) states,
    net)

/-- All stages of a run: reports and states after every stage, and the network at the end. -/
def runStages (act : ι → (player calls : Nat) → σ → Option (Session σ α)) (final : α → Bool) :
    List ι → List σ → Network → List (List (Option (Report α)) × List σ) × Network
  | [], _, net => ([], net)
  | i :: rest, states, net =>
    let (reports, states, net) := net.runStage (act i) states
    if reports.any fun r => r.any (Report.isFinal final) then ([(reports, states)], net)
    else
      let (stages, net) := net.runStages act final rest states
      ((reports, states) :: stages, net)

end Network

end Multiparty
