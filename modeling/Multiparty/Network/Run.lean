import Multiparty.Network.Fault
import Multiparty.Network.Transport

/-!
# Running parties on a network

The sessions of several players run side by side on one network. A call sends at once whatever it
has to send; then its player waits until everything that it has to receive has arrived. A run goes
on as long as some player can, so it ends when every player is done or waits for a payload that
nobody sends. Which player moves first makes no difference to what is received.

## Main definitions

* `Network`: pipes, faults, and the calls that every player has made.
* `Task`: the session of one player, with the transfer for which it waits.
* `Network.launch`: runs a session until it has to wait.
* `Network.settle`: runs all sessions as far as they get.
-/

namespace Multiparty

/-- The state of a network between and during runs. -/
structure Network where
  pipes : Pipes
  faults : List Fault
  /-- Number of calls that each player has made. -/
  callCounts : List Nat
  /-- The calls that each player has carried out, latest first. -/
  traces : List (List Call)
  /-- Whether a player closes its pipes when its session is done. -/
  closesWhenDone : Bool

/-- A call under way. -/
structure Flight where
  /-- What was sent, after the faults. -/
  payload : Bytes
  /-- The faults of the call. -/
  faults : List Fault
  legs : List Leg

/-- How far a player has got. -/
inductive Progress where
  /-- The session is done. -/
  | over
  /-- The session waits for a transfer. -/
  | waiting (flight : Flight)
  /-- The session made a call that no player may make. -/
  | crashed (misuse : TransportMisuse)

/-- The session of one player. -/
structure Task (σ α : Type) where
  player : Nat
  session : Session σ α
  progress : Progress

/-- The result of a task whose session is done. -/
def Task.result? {σ α : Type} (t : Task σ α) : Option α :=
  match t.progress, t.session with
  | .over, .done _ a => some a
  | _, _ => none

namespace Session

variable {σ α : Type}

/-- `Later t s` holds if `s` becomes `t` by one or more replies. -/
inductive Later : Session σ α → Session σ α → Prop where
  | step {s : σ} {call : Call} {resume : Except TransportError call.Reply → Session σ α}
      (reply : Except TransportError call.Reply) : Later (resume reply) (wait s call resume)
  | more {t : Session σ α} {s : σ} {call : Call}
      {resume : Except TransportError call.Reply → Session σ α}
      (reply : Except TransportError call.Reply) :
      Later t (resume reply) → Later t (wait s call resume)

/-- No session goes on forever. -/
theorem acc_later (s : Session σ α) : Acc Later s := by
  induction s with
  | done s a => exact ⟨_, fun t h => by cases h⟩
  | wait s call resume ih =>
    refine ⟨_, fun t h => ?_⟩
    cases h with
    | step reply => exact ih reply
    | more reply h => exact (ih reply).inv h

end Session

namespace Network

variable {σ α : Type}

/-- A network of players without any payload under way. -/
def create (players : Nat) (faults : List Fault) (fits : Bytes → Bool) : Network :=
  { pipes := Pipes.empty players fits
    faults := faults
    callCounts := List.replicate players 0
    traces := List.replicate players []
    closesWhenDone := false }

/-- The transport of a player. -/
def transport (net : Network) (player : Nat) : Transport :=
  Transport.complete net.pipes.players player

/-- The number of calls that a player has carried out. -/
def tracedCalls (net : Network) (player : Nat) : Nat := (net.traces.getD player []).length

/-- What comes of carrying on with a call. -/
inductive Outcome (call : Call) where
  /-- The call is answered. -/
  | answered (reply : Except TransportError call.Reply)
  /-- The call has to wait. -/
  | inFlight (flight : Flight)
  /-- The call is a mistake. -/
  | misused (misuse : TransportMisuse)

/-- What comes of a call from the state of its transfer. The own entry of a broadcast is the
payload that was sent. -/
def outcome (t : Transport) (call : Call) (sent : Bytes) (faults : List Fault) :
    TransferState → Outcome call
  | .failed e => .answered (.error e)
  | .misused m => .misused m
  | .waiting legs => .inFlight ⟨sent, faults, legs⟩
  | .complete receipts =>
    match Fault.applyIncoming faults receipts with
    | .error e => .answered (.error e)
    | .ok receipts =>
      match t.reply call sent receipts with
      | .error m => .misused m
      | .ok reply => .answered (.ok reply)

/-- Carries on with a call under way. -/
def carryOn (net : Network) (player : Nat) (call : Call) (flight : Flight) :
    Outcome call × Network :=
  let (state, pipes) := TransferState.proceed player flight.legs net.pipes
  (outcome (net.transport player) call flight.payload flight.faults state,
    { net with pipes := pipes })

/-- Starts a call: the faults of what it sends, its entry in the trace, and its transfer. -/
def begin (net : Network) (player : Nat) (call : Call) : Outcome call × Network :=
  let faults := Fault.ofCall net.faults player (net.callCounts.getD player 0)
  let net := { net with callCounts := net.callCounts.modify player (· + 1) }
  if Fault.refuses faults then
    (.answered (.error (.send ((player + 1) % net.pipes.players))), net)
  else
    let edited := Fault.editOutgoing faults call
    let net := { net with traces := net.traces.modify player (edited :: ·) }
    let t := net.transport player
    match t.transferOf edited with
    | .error m => (.misused m, net)
    | .ok transfer =>
      let (state, pipes) := t.begin transfer net.pipes
      (outcome t call edited.payload faults state, { net with pipes := pipes })

/-- Ends the part of a player in the network. -/
def finish (net : Network) (player : Nat) : Network :=
  if net.closesWhenDone then { net with pipes := net.pipes.close player } else net

/-- Runs the session of a player until it is done or has to wait. -/
def launch (player : Nat) : Session σ α → Network → Task σ α × Network
  | .done s a, net => (⟨player, .done s a, .over⟩, net.finish player)
  | .wait s call resume, net =>
    match begin net player call with
    | (.answered reply, net) => launch player (resume reply) net
    | (.inFlight flight, net) => (⟨player, .wait s call resume, .waiting flight⟩, net)
    | (.misused m, net) => (⟨player, .wait s call resume, .crashed m⟩, net)

theorem session_launch (player : Nat) (s : Session σ α) (net : Network) :
    (launch player s net).1.session = s ∨
      Session.Later (launch player s net).1.session s := by
  induction s generalizing net with
  | done s a => exact .inl rfl
  | wait s call resume ih =>
    rw [launch]
    split
    · next reply net' _ =>
      rcases ih reply net' with h | h
      · rw [h]
        exact .inr (.step reply)
      · exact .inr (.more reply h)
    · exact .inl rfl
    · exact .inl rfl

/-- The task after its transfer has been answered, if the network allows. -/
def advance? (task : Task σ α) (net : Network) :
    Option ({ t : Task σ α // Session.Later t.session task.session } × Network) :=
  match hs : task.session, task.progress with
  | .wait _ call resume, .waiting flight =>
    match carryOn net task.player call flight with
    | (.answered reply, net) =>
      let next := launch task.player (resume reply) net
      some (⟨next.1, by
        rcases session_launch task.player (resume reply) net with h | h
        · exact h ▸ .step reply
        · exact .more reply h⟩, next.2)
    | _ => none
  | _, _ => none

/-- `Moved l' l` holds if `l'` is `l` with one session gone on. -/
inductive Moved : List (Task σ α) → List (Task σ α) → Prop where
  | head {t' t : Task σ α} {l : List (Task σ α)} :
      Session.Later t'.session t.session → Moved (t' :: l) (t :: l)
  | tail {t : Task σ α} {l' l : List (Task σ α)} : Moved l' l → Moved (t :: l') (t :: l)

private theorem acc_moved_cons (t : Task σ α) (l : List (Task σ α)) (hl : Acc Moved l) :
    Acc Moved (t :: l) := by
  have key : ∀ s : Session σ α, Acc Session.Later s → ∀ l : List (Task σ α), Acc Moved l →
      ∀ t : Task σ α, t.session = s → Acc Moved (t :: l) := by
    intro s hs
    induction hs with
    | intro s _ ihs =>
      intro l hl
      induction hl with
      | intro l hl ihl =>
        intro t ht
        refine ⟨_, fun l' h => ?_⟩
        cases h with
        | head h => exact ihs _ (ht ▸ h) l ⟨_, hl⟩ _ rfl
        | tail h => exact ihl _ h t ht
  exact key t.session (Session.acc_later _) l hl t rfl

/-- No list of tasks goes on forever. -/
theorem acc_moved (l : List (Task σ α)) : Acc Moved l := by
  induction l with
  | nil => exact ⟨_, fun l' h => by cases h⟩
  | cons t l ih => exact acc_moved_cons t l ih

/-- Moves the first task that can go on. -/
def move? : (tasks : List (Task σ α)) → (net : Network) →
    Option ({ l : List (Task σ α) // Moved l tasks } × Network)
  | [], _ => none
  | t :: l, net =>
    match advance? t net with
    | some (⟨t', h⟩, net) => some (⟨t' :: l, .head h⟩, net)
    | none =>
      match move? l net with
      | some (⟨l', h⟩, net) => some (⟨t :: l', .tail h⟩, net)
      | none => none

instance : WellFoundedRelation (List (Task σ α)) := ⟨Moved, ⟨acc_moved⟩⟩

/-- Moves tasks as long as one of them can go on. -/
def settle (tasks : List (Task σ α)) (net : Network) : List (Task σ α) × Network :=
  match move? tasks net with
  | some (⟨tasks', _⟩, net) => settle tasks' net
  | none => (tasks, net)
termination_by tasks

/-- Launches the sessions of some players in order. -/
def launchAll : List (Nat × Session σ α) → Network → List (Task σ α) × Network
  | [], net => ([], net)
  | (player, s) :: rest, net =>
    let (task, net) := launch player s net
    let (tasks, net) := launchAll rest net
    (task :: tasks, net)

/-- Runs the sessions of some players as far as they get. -/
def run (sessions : List (Nat × Session σ α)) (net : Network) : List (Task σ α) × Network :=
  let (tasks, net) := launchAll sessions net
  settle tasks net

end Network

end Multiparty
