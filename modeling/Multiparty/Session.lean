import Multiparty.Bytes
import Multiparty.Error

/-!
# Interactive computations of one party

A protocol is written as what one party does. A `Session` either is done, with a state and a
result, or waits for the reply to a call on the network and continues with whatever comes back,
which may be a transport error. Every waiting session carries the state as it stands at that
moment, so that a computation that is never answered still leaves a state behind.

An `Action` is a session that starts from a seat and a state and may fail. Actions form a monad
with state and errors; a failing action keeps the state that it reached.

## Main definitions

* `Call`, `Call.Reply`: the requests of a party to the network and their replies.
* `Session`, `Session.bind`, `Session.mapState`.
* `Attempt`: a local computation that may fail and always leaves a state.
* `Action`: a computation with network access, with `Action.attempt` to look at its outcome.
-/

namespace Multiparty

/-- A request of a party to the network. -/
inductive Call where
  /-- Send a payload to a peer. -/
  | send (peer : Nat) (payload : Bytes)
  /-- Receive the next payload of a peer. -/
  | receive (peer : Nat)
  /-- Send a payload to every peer and receive one from each. -/
  | broadcast (payload : Bytes)
  /-- Send to the party `offset` places further and receive from the one as many places back. -/
  | pass (offset : Nat) (payload : Bytes)
  deriving DecidableEq

/-- What a call sends; nothing if it only receives. -/
def Call.payload : Call → Bytes
  | send _ payload => payload
  | receive _ => []
  | broadcast payload => payload
  | pass _ payload => payload

/-- What the network answers to a call that succeeds. A broadcast is answered by the payloads of
all parties, by party, the own one included. -/
abbrev Call.Reply : Call → Type
  | send .. => Unit
  | receive _ => Bytes
  | broadcast _ => List Bytes
  | pass .. => Bytes

/-- The place of a party among the players of a network. -/
structure Seat where
  me : Nat
  players : Nat
  deriving DecidableEq

/-- A computation of one party that may call the network. -/
inductive Session (σ α : Type) where
  /-- The computation is over. -/
  | done (state : σ) (result : α)
  /-- The computation waits for the reply to a call. -/
  | wait (state : σ) (call : Call)
      (resume : Except TransportError call.Reply → Session σ α)

namespace Session

variable {σ τ α β γ : Type}

/-- The state that the computation has reached without any further reply. -/
def state : Session σ α → σ
  | done s _ => s
  | wait s _ _ => s

/-- Runs `f` on the state and result of a computation once it is over. -/
def bind (f : σ → α → Session σ β) : Session σ α → Session σ β
  | done s a => f s a
  | wait s call resume => wait s call fun reply => bind f (resume reply)

/-- The same computation on a part of a larger state, which `f` puts back in place. -/
def mapState (f : σ → τ) : Session σ α → Session τ α
  | done s a => done (f s) a
  | wait s call resume => wait (f s) call fun reply => mapState f (resume reply)

/-- The same computation with its result transformed. -/
def map (f : α → β) : Session σ α → Session σ β
  | done s a => done s (f a)
  | wait s call resume => wait s call fun reply => map f (resume reply)

@[simp] theorem bind_done (f : σ → α → Session σ β) (s : σ) (a : α) :
    bind f (done s a) = f s a := rfl

@[simp] theorem bind_wait (f : σ → α → Session σ β) (s : σ) (call : Call)
    (resume : Except TransportError call.Reply → Session σ α) :
    bind f (wait s call resume) = wait s call fun reply => bind f (resume reply) := rfl

theorem bind_assoc (c : Session σ α) (f : σ → α → Session σ β) (g : σ → β → Session σ γ) :
    bind g (bind f c) = bind (fun s a => bind g (f s a)) c := by
  induction c with
  | done s a => rfl
  | wait s call resume ih => simp [ih]

theorem map_eq_bind (f : α → β) (c : Session σ α) :
    map f c = bind (fun s a => done s (f a)) c := by
  induction c with
  | done s a => rfl
  | wait s call resume ih => simp [map, ih]

theorem mapState_bind (put : σ → τ) (c : Session σ α) (f : σ → α → Session σ β)
    (g : τ → α → Session τ β) (h : ∀ s a, g (put s) a = mapState put (f s a)) :
    mapState put (bind f c) = bind g (mapState put c) := by
  induction c with
  | done s a => simp [mapState, h]
  | wait s call resume ih => simp [mapState, ih]

end Session

/-- A local computation on a state that may fail and leaves a state in either case. -/
abbrev Attempt (σ α : Type) : Type := σ → Except ProtocolError α × σ

namespace Attempt

variable {σ τ α β : Type}

/-- The same computation on a part of a larger state. -/
def zoom (get : τ → σ) (put : σ → τ → τ) (f : Attempt σ α) : Attempt τ α := fun t =>
  let (result, s) := f (get t)
  (result, put s t)

/-- Runs `f` on the items of a list one after another until one fails. The results come after
those in `acc`, which is kept in reverse. -/
def forEachOnto (f : α → Attempt σ β) : List α → (acc : List β) → Attempt σ (List β)
  | [], acc, s => (.ok acc.reverse, s)
  | a :: as, acc, s =>
    match f a s with
    | (.ok b, s) => forEachOnto f as (b :: acc) s
    | (.error e, s) => (.error e, s)

/-- Runs `f` on the items of a list one after another until one fails. -/
def forEach (f : α → Attempt σ β) (as : List α) : Attempt σ (List β) := forEachOnto f as []

/-- Runs `f` a number of times until it fails. The results come after those in `acc`, which is kept
in reverse. -/
def timesOnto (f : Attempt σ α) : (n : Nat) → (acc : List α) → Attempt σ (List α)
  | 0, acc, s => (.ok acc.reverse, s)
  | n + 1, acc, s =>
    match f s with
    | (.ok a, s) => timesOnto f n (a :: acc) s
    | (.error e, s) => (.error e, s)

/-- Runs `f` a number of times until it fails. -/
def times (f : Attempt σ α) (n : Nat) : Attempt σ (List α) := timesOnto f n []

end Attempt

/-- A computation of a party with network access, started from a seat and a state. -/
def Action (σ α : Type) : Type := Seat → σ → Session σ (Except ProtocolError α)

namespace Action

variable {σ τ α β : Type}

/-- Runs an action from a seat and a state. -/
def run (m : Action σ α) (seat : Seat) (s : σ) : Session σ (Except ProtocolError α) := m seat s

protected def pure (a : α) : Action σ α := fun _ s => .done s (.ok a)

protected def bind (m : Action σ α) (f : α → Action σ β) : Action σ β := fun seat s =>
  Session.bind (fun s result =>
    match result with
    | .ok a => f a seat s
    | .error e => .done s (.error e)) (m seat s)

/-- The outcome of an action as a value; this never fails. -/
def attempt (m : Action σ α) : Action σ (Except ProtocolError α) := fun seat s =>
  Session.map .ok (m seat s)

instance : Monad (Action σ) where
  pure := Action.pure
  bind := Action.bind

instance : MonadStateOf σ (Action σ) where
  get := fun _ s => .done s (.ok s)
  set s := fun _ _ => .done s (.ok ())
  modifyGet f := fun _ s => let (a, s) := f s; .done s (.ok a)

instance : MonadExceptOf ProtocolError (Action σ) where
  throw e := fun _ s => .done s (.error e)
  tryCatch m handler := fun seat s =>
    Session.bind (fun s result =>
      match result with
      | .ok a => .done s (.ok a)
      | .error e => handler e seat s) (m seat s)

/-- The seat of the party. -/
def seat : Action σ Seat := fun seat s => .done s (.ok seat)

/-- A local computation as an action. -/
def ofAttempt (f : Attempt σ α) : Action σ α := fun _ s =>
  let (result, s) := f s
  .done s result

/-- A computed outcome as an action. -/
def ofExcept (result : Except ProtocolError α) : Action σ α := fun _ s => .done s result

/-- One call on the network; a transport error becomes a protocol error. -/
def call (c : Call) : Action σ c.Reply := fun _ s =>
  .wait s c fun reply =>
    match reply with
    | .ok a => .done s (.ok a)
    | .error e => .done s (.error (.transport e))

/-- Sends a payload to a peer. -/
def send (peer : Nat) (payload : Bytes) : Action σ Unit := call (.send peer payload)

/-- Receives the next payload of a peer. -/
def receive (peer : Nat) : Action σ Bytes := call (.receive peer)

/-- Sends a payload to every peer and receives one from each. -/
def broadcast (payload : Bytes) : Action σ (List Bytes) := call (.broadcast payload)

/-- Passes a payload on around the ring of parties. -/
def pass (offset : Nat) (payload : Bytes) : Action σ Bytes := call (.pass offset payload)

/-- The same action on a part of a larger state. -/
def zoom (get : τ → σ) (put : σ → τ → τ) (m : Action σ α) : Action τ α := fun seat t =>
  Session.mapState (fun s => put s t) (m seat (get t))

private theorem bind_pure_id (c : Session σ (Except ProtocolError α)) :
    Session.bind (fun s result =>
      match result with
      | .ok a => .done s (.ok a)
      | .error e => .done s (.error e)) c = c := by
  induction c with
  | done s result => cases result <;> rfl
  | wait s call resume ih => simp [ih]

instance : LawfulMonad (Action σ) := LawfulMonad.mk' _
  (fun m => by
    funext seat s
    exact bind_pure_id (m seat s))
  (fun _ _ => rfl)
  (fun m f g => by
    funext seat s
    change Session.bind _ (Session.bind _ (m seat s)) = Session.bind _ (m seat s)
    rw [Session.bind_assoc]
    congr 1
    funext s result
    cases result <;> rfl)

end Action

end Multiparty
