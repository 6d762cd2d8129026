import Mathlib
import Multiparty.Proofs.Transcript

/-!
# Schedules

A run of a network moves its players in a fixed order, and each of them as far as it gets. Here the
players are moved by an arbitrary schedule instead: in every step one player does one thing. It
starts its call, puts one payload into a pipe, takes one payload out of a pipe, or goes on with the
answer to its call. The sends and receives of one call may be done in any order, so a payload may be
taken before another one is sent.

No schedule goes on forever, whatever the computations are. So a computation comes to its end under
every schedule if it is not stuck in any scene that a schedule leads to.

## Main definitions

* `Post`, `Scene`: one player with the legs of its call, and all players with their pipes.
* `Leg.Step`, `Post.Step`, `Scene.Step`: what may happen next.
* `Scene.AlwaysEnds`: every schedule comes to an end, and in the end something holds.
* `Session.Listens`: computations that receive and never send.

## Main results

* `Scene.acc_step`: no schedule goes on forever.
* `Scene.AlwaysEnds.of_invariant`: what holds in every end, from an invariant.
* `Scene.Reaches.queue_eq_nil`: under no schedule a player sends that only listens.
-/

namespace Multiparty

/-! ### Steps -/

/-- One thing that is done for a leg of player `me`. Sending does not wait for receiving, nor
receiving for sending. -/
inductive Leg.Step (me : Nat) : Leg → Pipes → Leg → Pipes → Prop where
  | send {leg : Leg} {p p' : Pipes} {target : Nat} {payload : Bytes} (herror : leg.error = none)
      (hleg : leg.outgoing = some (target, payload)) (hpipes : p.send? me target payload = some p') :
      Step me leg p { leg with outgoing := none } p'
  | sendFails {leg : Leg} {p : Pipes} {target : Nat} {payload : Bytes} (herror : leg.error = none)
      (hleg : leg.outgoing = some (target, payload)) (hpipes : p.send? me target payload = none) :
      Step me leg p { leg with error := some (.send target) } p
  | receive {leg : Leg} {p p' : Pipes} {source : Nat} {payload : Bytes} (herror : leg.error = none)
      (hleg : leg.source = some source) (hnone : leg.received = none)
      (hpipes : p.receive me source = .payload payload p') :
      Step me leg p { leg with received := some payload } p'
  | receiveFails {leg : Leg} {p : Pipes} {source : Nat} (herror : leg.error = none)
      (hleg : leg.source = some source) (hnone : leg.received = none)
      (hpipes : p.receive me source = .never) :
      Step me leg p { leg with error := some (.receive source) } p

/-- A player: its session, and the legs of the call under way if that has been started. -/
structure Post (σ α : Type) where
  session : Session σ α
  legs : Option (List Leg)

/-- One thing that a player with a given transport does. -/
inductive Post.Step {σ α : Type} (t : Transport) : Post σ α → Pipes → Post σ α → Pipes → Prop where
  /-- A call is started. -/
  | start {s : σ} {call : Call} {resume : Except TransportError call.Reply → Session σ α}
      {p : Pipes} {transfer : Transfer} {legs : List Leg}
      (htransfer : t.transferOf call = .ok transfer) (hplan : t.plan transfer = .ok (.ok legs)) :
      Step t ⟨.wait s call resume, none⟩ p ⟨.wait s call resume, some legs⟩ p
  /-- A call names a missing channel. -/
  | refuse {s : σ} {call : Call} {resume : Except TransportError call.Reply → Session σ α}
      {p : Pipes} {transfer : Transfer} {e : TransportError}
      (htransfer : t.transferOf call = .ok transfer) (hplan : t.plan transfer = .ok (.error e)) :
      Step t ⟨.wait s call resume, none⟩ p ⟨resume (.error e), none⟩ p
  /-- One leg is carried on with. -/
  | carry {c : Session σ α} {p p' : Pipes} {before after : List Leg} {leg leg' : Leg}
      (hleg : leg.Step t.me p leg' p') :
      Step t ⟨c, some (before ++ leg :: after)⟩ p ⟨c, some (before ++ leg' :: after)⟩ p'
  /-- Everything has been sent and received. -/
  | answer {s : σ} {call : Call} {resume : Except TransportError call.Reply → Session σ α}
      {p : Pipes} {legs : List Leg} {reply : call.Reply}
      (hcomplete : legs.all Leg.isComplete = true)
      (hreply : t.reply call call.payload (Leg.receipts legs) = .ok reply) :
      Step t ⟨.wait s call resume, some legs⟩ p ⟨resume (.ok reply), none⟩ p
  /-- A leg has failed. -/
  | abort {s : σ} {call : Call} {resume : Except TransportError call.Reply → Session σ α}
      {p : Pipes} {legs : List Leg} {leg : Leg} {e : TransportError} (hleg : leg ∈ legs)
      (herror : leg.error = some e) :
      Step t ⟨.wait s call resume, some legs⟩ p ⟨resume (.error e), none⟩ p

/-- All players of a network and what is under way. -/
structure Scene (n : Nat) (σ α : Type) where
  pipes : Pipes
  post : Fin n → Post σ α

namespace Scene

variable {n : Nat} {σ α : Type}

/-- The scene before anything has happened. -/
def start (pipes : Pipes) (sessions : Fin n → Session σ α) : Scene n σ α :=
  ⟨pipes, fun i => ⟨sessions i, none⟩⟩

/-- One thing happens: some player does something. -/
inductive Step (x : Scene n σ α) : Scene n σ α → Prop where
  | move (i : Fin n) {post : Post σ α} {pipes : Pipes}
      (h : (x.post i).Step (Transport.complete n i) x.pipes post pipes) :
      Step x ⟨pipes, Function.update x.post i post⟩

/-- Some schedule leads from one scene to another. -/
abbrev Reaches (x y : Scene n σ α) : Prop := Relation.ReflTransGen Step x y

/-- Nobody can do anything. -/
def Stuck (x : Scene n σ α) : Prop := ∀ y, ¬ Step x y

/-- However the players are scheduled they come to an end, and in the end `P` holds. -/
structure AlwaysEnds (x : Scene n σ α) (P : Scene n σ α → Prop) : Prop where
  /-- No schedule goes on forever. -/
  finite : Acc (fun z y => Step y z) x
  ends : ∀ y, x.Reaches y → y.Stuck → P y

end Scene

/-! ### No schedule goes on forever -/

/-- What is still to be done for a leg. -/
def Leg.todo (leg : Leg) : Nat :=
  if leg.error.isSome then 0 else 1 + leg.outgoing.toList.length + (if leg.received.isSome then 0 else 1)

theorem Leg.Step.todo_lt {me : Nat} {leg leg' : Leg} {p p' : Pipes} (h : leg.Step me p leg' p') :
    leg'.todo < leg.todo := by
  cases h with
  | send herror hleg _ => simp [todo, herror, hleg]
  | sendFails herror hleg _ => simp [todo, herror]
  | receive herror hleg hnone _ => simp [todo, herror, hnone]
  | receiveFails herror hleg hnone _ => simp [todo, herror]

namespace Post

variable {σ α : Type}

/-- What is still to be done for the call of a player; that is unlimited before the call has been
started. -/
def todo (post : Post σ α) : WithTop Nat := (post.legs.map fun legs => (legs.map Leg.todo).sum)

/-- A player has done something: its session has gone on, or there is less to be done for its
call. -/
inductive Less : Post σ α → Post σ α → Prop where
  | session {x y : Post σ α} (h : Session.Later x.session y.session) : Less x y
  | call {x y : Post σ α} (h : x.session = y.session) (hlt : x.todo < y.todo) : Less x y

theorem Step.less {t : Transport} {x y : Post σ α} {p p' : Pipes} (h : x.Step t p y p') :
    Less y x := by
  cases h with
  | start _ _ => exact .call rfl (WithTop.coe_lt_top _)
  | refuse _ _ => exact .session (.step _)
  | carry hleg =>
    refine .call rfl (WithTop.coe_lt_coe.2 ?_)
    have hlt := hleg.todo_lt
    simp only [List.map_append, List.map_cons, List.sum_append, List.sum_cons]
    omega
  | answer _ _ => exact .session (.step _)
  | abort _ _ => exact .session (.step _)

theorem wellFounded_less : WellFounded (Less : Post σ α → Post σ α → Prop) := by
  have hlater : WellFounded (Session.Later : Session σ α → Session σ α → Prop) :=
    ⟨Session.acc_later⟩
  have hlex := WellFounded.prod_lex hlater (wellFounded_lt : WellFounded fun a b : WithTop Nat => a < b)
  refine Subrelation.wf (fun {x y} h => ?_)
    (InvImage.wf (fun x : Post σ α => (x.session, x.todo)) hlex)
  cases h with
  | session h => exact .left _ _ h
  | call h hlt =>
    rw [InvImage, h]
    exact .right _ hlt

end Post

namespace Scene

variable {n : Nat} {σ α : Type}

/-- No schedule goes on forever. -/
theorem acc_step (x : Scene n σ α) : Acc (fun z y : Scene n σ α => Step y z) x := by
  have hwf := Pi.Lex.wellFounded (· < · : Fin n → Fin n → Prop)
    fun _ => Post.wellFounded_less (σ := σ) (α := α)
  refine Subrelation.accessible (fun {z y} h => ?_) ((InvImage.wf Scene.post hwf).apply x)
  obtain ⟨i, hmove⟩ := h
  refine ⟨i, fun j hj => ?_, ?_⟩
  · exact Function.update_of_ne hj.ne _ _
  · dsimp only
    rw [Function.update_self]
    exact hmove.less

/-- What every step keeps holds wherever a schedule leads. -/
theorem Reaches.invariant {x y : Scene n σ α} (h : x.Reaches y) (Inv : Scene n σ α → Prop)
    (hstep : ∀ y z, Inv y → Step y z → Inv z) (hx : Inv x) : Inv y := by
  induction h with
  | refl => exact hx
  | tail _ hyz ih => exact hstep _ _ ih hyz

namespace AlwaysEnds

variable {x : Scene n σ α} {P P' : Scene n σ α → Prop}

/-- What holds in the end follows from an invariant of the steps. -/
theorem of_invariant (Inv : Scene n σ α → Prop) (hstart : Inv x)
    (hstep : ∀ y z, Inv y → Step y z → Inv z) (hend : ∀ y, Inv y → y.Stuck → P y) :
    x.AlwaysEnds P where
  finite := acc_step x
  ends y hy hstuck := hend y (hy.invariant Inv hstep hstart) hstuck

theorem mono (h : x.AlwaysEnds P) (hP : ∀ y, P y → P' y) : x.AlwaysEnds P' :=
  ⟨h.finite, fun y hy hstuck => hP y (h.ends y hy hstuck)⟩

end AlwaysEnds

end Scene

/-! ### Players that only listen -/

/-- All calls of a transcript are calls to receive. -/
def OnlyReceives (transcript : List Event) : Prop := ∀ e ∈ transcript, ∃ peer, e.call = .receive peer

namespace OnlyReceives

theorem nil : OnlyReceives [] := fun _ he => by cases he

theorem receive (peer : Nat) (answer : Except TransportError Bytes) :
    OnlyReceives [⟨.receive peer, answer⟩] := fun e he => ⟨peer, by rw [List.mem_singleton.1 he]⟩

theorem append {t t' : List Event} (h : OnlyReceives t) (h' : OnlyReceives t') :
    OnlyReceives (t ++ t') := List.forall_mem_append.2 ⟨h, h'⟩

end OnlyReceives

namespace Session

variable {σ α : Type}

/-- Whatever the network answers, the computation makes no calls but to receive. -/
def Listens (c : Session σ α) : Prop := ∀ answers, OnlyReceives (c.transcript answers)

theorem Listens.call {s : σ} {call : Call} {resume : Except TransportError call.Reply → Session σ α}
    (h : (wait s call resume).Listens) : ∃ peer, call = .receive peer :=
  h (fun _ _ => .error (.send 0)) ⟨call, _⟩ List.mem_cons_self

theorem Listens.resume {s : σ} {call : Call}
    {resume : Except TransportError call.Reply → Session σ α} (h : (wait s call resume).Listens)
    (reply : Except TransportError call.Reply) : (resume reply).Listens := by
  intro answers e he
  let answers' : Answers
    | 0, c => if hc : call = c then hc ▸ reply else .error (.send 0)
    | k + 1, c => answers k c
  have hanswer : answers' 0 call = reply := dif_pos rfl
  have hdrop : answers'.drop 1 = answers := rfl
  refine h answers' e ?_
  rw [transcript_wait, hanswer, hdrop]
  exact List.mem_cons_of_mem _ he

end Session

namespace Pipes

theorem queue_modifyQueue_of_ne (p : Pipes) {sender a : Nat} (h : a ≠ sender) (receiver : Nat)
    (f : List Bytes → List Bytes) (b : Nat) :
    (p.modifyQueue sender receiver f).queue a b = p.queue a b := by
  simp only [queue, modifyQueue, List.getD_eq_getElem?_getD,
    List.getElem?_modify_ne _ _ (Ne.symm h)]

theorem queue_modifyQueue_tail (p : Pipes) (sender receiver : Nat) {a b : Nat}
    (h : p.queue a b = []) : (p.modifyQueue sender receiver List.tail).queue a b = [] := by
  simp only [queue, modifyQueue, List.getD_eq_getElem?_getD, List.getElem?_modify] at h ⊢
  cases hrow : p.queues[a]? with
  | none => simp
  | some row =>
    rw [hrow, Option.getD_some] at h
    simp only [Option.map_eq_map, Option.map_some, Option.getD_some]
    split_ifs
    · rw [List.getElem?_modify]
      cases hq : row[b]? with
      | none => simp
      | some q =>
        rw [hq, Option.getD_some] at h
        simp [h]
    · exact h

end Pipes

/-- What is done for a leg puts a payload into a pipe of the player, takes one out of a pipe to it,
or leaves the pipes alone. -/
theorem Leg.Step.pipes {me : Nat} {leg leg' : Leg} {p p' : Pipes} (h : leg.Step me p leg' p') :
    (leg.outgoing ≠ none ∧ ∃ target payload, p' = p.modifyQueue me target (· ++ [payload])) ∨
      (∃ source, p' = p.modifyQueue source me List.tail) ∨ p' = p := by
  cases h with
  | send _ hleg hpipes =>
    rw [Pipes.send?] at hpipes
    split at hpipes
    · cases hpipes
    · exact .inl ⟨hleg ▸ Option.some_ne_none _, _, _, (Option.some.inj hpipes).symm⟩
  | receive _ _ _ hpipes =>
    rw [Pipes.receive] at hpipes
    split at hpipes
    · cases hpipes
      exact .inr (.inl ⟨_, rfl⟩)
    · split at hpipes <;> cases hpipes
  | sendFails => exact .inr (.inr rfl)
  | receiveFails => exact .inr (.inr rfl)

theorem Leg.Step.outgoing_eq_none {me : Nat} {leg leg' : Leg} {p p' : Pipes}
    (h : leg.Step me p leg' p') (hleg : leg.outgoing = none) : leg'.outgoing = none := by
  cases h with
  | send => rfl
  | _ => exact hleg

/-- A player that only listens, with nothing left to send. -/
structure Post.Listens {σ α : Type} (post : Post σ α) : Prop where
  session : post.session.Listens
  sent : ∀ legs, post.legs = some legs → ∀ leg ∈ legs, leg.outgoing = none

namespace Post

variable {σ α : Type} {t : Transport} {x y : Post σ α} {p p' : Pipes}

theorem Listens.of_session {c : Session σ α} (h : c.Listens) : Listens ⟨c, none⟩ :=
  ⟨h, fun _ hlegs => by cases hlegs⟩

theorem Step.listens (h : x.Step t p y p') (hx : x.Listens) : y.Listens := by
  cases h with
  | start htransfer hplan =>
    refine ⟨hx.session, fun legs hlegs leg hleg => ?_⟩
    obtain rfl := Option.some.inj hlegs
    obtain ⟨peer, rfl⟩ := hx.session.call
    cases htransfer
    rw [Transport.plan] at hplan
    split_ifs at hplan
    · cases hplan
    · obtain rfl := Except.ok.inj (Except.ok.inj hplan)
      rw [List.mem_singleton.1 hleg]
  | refuse _ _ => exact .of_session (hx.session.resume _)
  | carry hcarry =>
    refine ⟨hx.session, fun legs hlegs leg hleg => ?_⟩
    obtain rfl := Option.some.inj hlegs
    have hbefore := hx.sent _ rfl
    rcases List.mem_append.1 hleg with hleg | hleg
    · exact hbefore leg (List.mem_append_left _ hleg)
    · rcases List.mem_cons.1 hleg with rfl | hleg
      · exact hcarry.outgoing_eq_none (hbefore _ (by simp))
      · exact hbefore leg (by simp [hleg])
  | answer _ _ => exact .of_session (hx.session.resume _)
  | abort _ _ => exact .of_session (hx.session.resume _)

/-- Nothing is put into the pipes of a player by others, nor by itself if it only listens. -/
theorem Step.queue_eq_nil (h : x.Step t p y p') {player : Nat}
    (hplayer : player = t.me → x.Listens) {peer : Nat} (hempty : p.queue player peer = []) :
    p'.queue player peer = [] := by
  cases h with
  | carry hcarry =>
    obtain ⟨hout, target, payload, rfl⟩ | ⟨source, rfl⟩ | rfl := hcarry.pipes
    · have hne : player ≠ t.me := fun hme =>
        hout ((hplayer hme).sent _ rfl _ (by simp))
      rw [Pipes.queue_modifyQueue_of_ne p hne, hempty]
    · exact Pipes.queue_modifyQueue_tail p source t.me hempty
    · exact hempty
  | _ => exact hempty

end Post

/-- Under no schedule a player sends that only listens. -/
theorem Scene.Reaches.queue_eq_nil {n : Nat} {σ α : Type} {x y : Scene n σ α} (h : x.Reaches y)
    {i : Fin n} (hlistens : (x.post i).Listens) (hempty : ∀ peer, x.pipes.queue i peer = [])
    (peer : Nat) : y.pipes.queue i peer = [] := by
  refine (h.invariant (fun y => (y.post i).Listens ∧ ∀ peer, y.pipes.queue i peer = [])
    ?_ ⟨hlistens, hempty⟩).2 peer
  rintro y z ⟨hy, hqueue⟩ ⟨k, hmove⟩
  refine ⟨?_, fun peer => hmove.queue_eq_nil (fun hk => ?_) (hqueue peer)⟩
  · dsimp only
    by_cases hk : i = k
    · subst hk
      rw [Function.update_self]
      exact hmove.listens hy
    · rwa [Function.update_of_ne hk]
  · obtain rfl : i = k := Fin.ext hk
    exact hy

end Multiparty
