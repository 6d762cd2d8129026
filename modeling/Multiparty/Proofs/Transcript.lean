import Mathlib.Data.Finset.Basic
import Multiparty.Proofs.Network.Turn
import Multiparty.Proofs.Session

/-!
# Running one party against an arbitrary network

The calls of a party may be answered in any way, by transport errors too. Its transcript tells what
it has sent to each peer and what it has heard of it. Peers that deviate may have said anything; of
an honest peer nothing is heard that it has not sent.

## Main definitions

* `Answers`, `Session.under`: the outcome of a computation under given answers to its calls.
* `Session.transcript`, `Event.sentTo`, `Event.heardFrom`: what goes to and fro.
* `Delivered`, `DeliveredInOrder`: honest parties hear of each other only what was sent.
* `Action.Ensures`, `Action.Runs`: what holds of an action whatever the network answers, and how it
  may run.

## Main results

* `Session.under_bind`, `Session.transcript_bind`: computations with a continuation.
* `Action.Ensures.bind` and its companions: the rules for actions.
* `Action.Runs.bind`, `Action.Runs.of_bind`: how an action with a continuation may run.
-/

namespace Multiparty

/-- How the calls of a party are answered, numbered from zero. -/
abbrev Answers : Type := Nat → (c : Call) → Except TransportError c.Reply

/-- The answers to the calls after the first `n`. -/
def Answers.drop (n : Nat) (answers : Answers) : Answers := fun k => answers (k + n)

/-- A call with its answer. -/
structure Event where
  call : Call
  answer : Except TransportError call.Reply

namespace Event

variable (players me peer : Nat) (e : Event)

/-- What player `me` sends to a peer by a call, whatever the answer. -/
def sentTo : Option Bytes := e.call.sends players me peer

/-- What player `me` hears of a peer by the answer to a call. -/
def heardFrom : Option Bytes :=
  match e.answer with
  | .ok reply => Turn.gets players me ⟨e.call, reply⟩ peer
  | .error _ => none

/-- Whether the call was answered by a reply and not by an error. -/
def succeeded : Bool := e.answer.isOk

/-- The answer, unless it is an error, is one that the network gives to player `me`. -/
def Sound : Prop :=
  match e.answer with
  | .ok reply => Turn.Sound players me ⟨e.call, reply⟩
  | .error _ => True

instance : Decidable (e.Sound players me) :=
  match e with
  | ⟨.send .., .ok _⟩ => inferInstanceAs (Decidable (_ ∧ _))
  | ⟨.receive _, .ok _⟩ => inferInstanceAs (Decidable (_ ∧ _))
  | ⟨.broadcast _, .ok _⟩ => inferInstanceAs (Decidable (_ ∧ _))
  | ⟨.pass .., .ok _⟩ => inferInstanceAs (Decidable (_ ∧ _))
  | ⟨_, .error _⟩ => inferInstanceAs (Decidable True)

end Event

section Transcript

variable (players me peer : Nat)

/-- Everything that player `me` has sent to a peer. -/
def sentTo (transcript : List Event) : List Bytes :=
  transcript.filterMap (Event.sentTo players me peer)

/-- Everything that player `me` has heard of a peer. -/
def heardFrom (transcript : List Event) : List Bytes :=
  transcript.filterMap (Event.heardFrom players me peer)

@[simp] theorem sentTo_nil : sentTo players me peer [] = [] := rfl

@[simp] theorem heardFrom_nil : heardFrom players me peer [] = [] := rfl

@[simp] theorem sentTo_cons (e : Event) (t : List Event) : sentTo players me peer (e :: t) =
    (e.sentTo players me peer).toList ++ sentTo players me peer t := by
  cases h : e.sentTo players me peer <;> simp [sentTo, h]

@[simp] theorem heardFrom_cons (e : Event) (t : List Event) : heardFrom players me peer (e :: t) =
    (e.heardFrom players me peer).toList ++ heardFrom players me peer t := by
  cases h : e.heardFrom players me peer <;> simp [heardFrom, h]

@[simp] theorem sentTo_append (t t' : List Event) :
    sentTo players me peer (t ++ t') = sentTo players me peer t ++ sentTo players me peer t' :=
  List.filterMap_append

@[simp] theorem heardFrom_append (t t' : List Event) : heardFrom players me peer (t ++ t') =
    heardFrom players me peer t ++ heardFrom players me peer t' :=
  List.filterMap_append

end Transcript

/-- Honest parties hear of each other only what was sent. -/
def Delivered {n : Nat} (honest : Finset (Fin n)) (transcript : Fin n → List Event) : Prop :=
  ∀ i ∈ honest, ∀ j ∈ honest, i ≠ j →
    ∀ payload ∈ heardFrom n i j (transcript i), payload ∈ sentTo n j i (transcript j)

instance {n : Nat} (honest : Finset (Fin n)) (transcript : Fin n → List Event) :
    Decidable (Delivered honest transcript) :=
  inferInstanceAs (Decidable (∀ i ∈ honest, ∀ j ∈ honest, i ≠ j → ∀ payload ∈ heardFrom .., _))

/-- Honest parties hear of each other what was sent, in order and without loss. -/
def DeliveredInOrder {n : Nat} (honest : Finset (Fin n)) (transcript : Fin n → List Event) : Prop :=
  ∀ i ∈ honest, ∀ j ∈ honest, i ≠ j →
    heardFrom n i j (transcript i) <+: sentTo n j i (transcript j)

instance {n : Nat} (honest : Finset (Fin n)) (transcript : Fin n → List Event) :
    Decidable (DeliveredInOrder honest transcript) :=
  inferInstanceAs (Decidable (∀ i ∈ honest, ∀ j ∈ honest, i ≠ j → heardFrom .. <+: _))

namespace Session

variable {σ τ α β : Type}

/-- The final state and result of a computation whose calls are answered one after another. -/
def under (answers : Answers) : Session σ α → σ × α
  | done s a => (s, a)
  | wait _ c resume => (resume (answers 0 c)).under (answers.drop 1)

/-- The calls of the computation with their answers. -/
def transcript (answers : Answers) : Session σ α → List Event
  | done _ _ => []
  | wait _ c resume => ⟨c, answers 0 c⟩ :: (resume (answers 0 c)).transcript (answers.drop 1)

@[simp] theorem under_done (answers : Answers) (s : σ) (a : α) :
    (done s a).under answers = (s, a) := rfl

@[simp] theorem transcript_done (answers : Answers) (s : σ) (a : α) :
    (done s a).transcript answers = [] := rfl

theorem under_wait (answers : Answers) (s : σ) (c : Call)
    (resume : Except TransportError c.Reply → Session σ α) :
    (wait s c resume).under answers = (resume (answers 0 c)).under (answers.drop 1) := rfl

theorem transcript_wait (answers : Answers) (s : σ) (c : Call)
    (resume : Except TransportError c.Reply → Session σ α) :
    (wait s c resume).transcript answers =
      ⟨c, answers 0 c⟩ :: (resume (answers 0 c)).transcript (answers.drop 1) := rfl

/-- The continuation starts from the outcome of the computation. -/
theorem under_bind (f : σ → α → Session σ β) (c : Session σ α) (answers : Answers) :
    (bind f c).under answers = (f (c.under answers).1 (c.under answers).2).under
      (answers.drop (c.transcript answers).length) := by
  induction c generalizing answers with
  | done s a => rfl
  | wait s c resume ih => exact ih _ _

/-- The calls of the continuation come after those of the computation. -/
theorem transcript_bind (f : σ → α → Session σ β) (c : Session σ α) (answers : Answers) :
    (bind f c).transcript answers = c.transcript answers ++
      (f (c.under answers).1 (c.under answers).2).transcript
        (answers.drop (c.transcript answers).length) := by
  induction c generalizing answers with
  | done s a => rfl
  | wait s c resume ih => exact congrArg (_ :: ·) (ih _ _)

@[simp] theorem under_mapState (f : σ → τ) (c : Session σ α) (answers : Answers) :
    (mapState f c).under answers = (f (c.under answers).1, (c.under answers).2) := by
  induction c generalizing answers with
  | done s a => rfl
  | wait s c resume ih => exact ih _ _

@[simp] theorem transcript_mapState (f : σ → τ) (c : Session σ α) (answers : Answers) :
    (mapState f c).transcript answers = c.transcript answers := by
  induction c generalizing answers with
  | done s a => rfl
  | wait s c resume ih => exact congrArg (_ :: ·) (ih _ _)

/-- Only the answers to its own calls matter to a computation. -/
theorem transcript_under_congr (c : Session σ α) (answers answers' : Answers)
    (h : ∀ k < (c.transcript answers).length, answers' k = answers k) :
    c.transcript answers' = c.transcript answers ∧ c.under answers' = c.under answers := by
  induction c generalizing answers answers' with
  | done s a => exact ⟨rfl, rfl⟩
  | wait s c resume ih =>
    rw [transcript_wait] at h
    have hfirst : answers' 0 c = answers 0 c := congrFun (h 0 (Nat.succ_pos _)) c
    obtain ⟨htranscript, hunder⟩ := ih (answers 0 c) (answers.drop 1) (answers'.drop 1)
      fun k hk => h (k + 1) (Nat.succ_lt_succ hk)
    rw [transcript_wait, transcript_wait, under_wait, under_wait, hfirst, htranscript, hunder]
    exact ⟨rfl, rfl⟩

/-- One of the ways in which a computation may run. -/
def Runs (c : Session σ α) (t : List Event) (s : σ) (a : α) : Prop :=
  ∃ answers, c.transcript answers = t ∧ c.under answers = (s, a)

namespace Runs

theorem done (s : σ) (a : α) : (done s a).Runs [] s a := ⟨fun _ _ => .error (.send 0), rfl, rfl⟩

/-- After a call a computation runs as the answer has it. -/
theorem wait {s s' : σ} {c : Call} {resume : Except TransportError c.Reply → Session σ α}
    {answer : Except TransportError c.Reply} {t : List Event} {a : α}
    (h : (resume answer).Runs t s' a) : (wait s c resume).Runs (⟨c, answer⟩ :: t) s' a := by
  obtain ⟨answers, htranscript, hunder⟩ := h
  let answers' : Answers
    | 0, c' => if h : c = c' then h ▸ answer else .error (.send 0)
    | k + 1, c' => answers k c'
  have hfirst : answers' 0 c = answer := dif_pos rfl
  have hdrop : answers'.drop 1 = answers := rfl
  refine ⟨answers', ?_, ?_⟩
  · rw [transcript_wait, hfirst, hdrop, htranscript]
  · rw [under_wait, hfirst, hdrop, hunder]

end Runs

end Session

namespace Action

variable {σ α β : Type} {seat : Seat} {s : σ}

theorem run_call (c : Call) : (Action.call c).run seat s = .wait s c fun reply =>
    match reply with
    | .ok a => .done s (.ok a)
    | .error e => .done s (.error (.transport e)) := rfl

theorem run_attempt (m : Action σ α) :
    m.attempt.run seat s = Session.bind (fun s r => .done s (.ok r)) (m.run seat s) :=
  Session.map_eq_bind _ _

theorem transcript_attempt (m : Action σ α) (answers : Answers) :
    (m.attempt.run seat s).transcript answers = (m.run seat s).transcript answers := by
  rw [run_attempt, Session.transcript_bind, Session.transcript_done, List.append_nil]

theorem under_attempt (m : Action σ α) (answers : Answers) : (m.attempt.run seat s).under answers =
    (((m.run seat s).under answers).1, .ok ((m.run seat s).under answers).2) := by
  rw [run_attempt, Session.under_bind, Session.under_done]

/-- Whatever the network answers, `Q` holds of the transcript, the final state and the result. -/
def Ensures (m : Action σ α) (seat : Seat) (s : σ)
    (Q : List Event → σ → Except ProtocolError α → Prop) : Prop :=
  ∀ answers, Q ((m.run seat s).transcript answers) ((m.run seat s).under answers).1
    ((m.run seat s).under answers).2

namespace Ensures

variable {m : Action σ α} {f : α → Action σ β}
  {Q Q' : List Event → σ → Except ProtocolError α → Prop}
  {Q₁ : List Event → σ → Except ProtocolError β → Prop}

theorem mono (h : Ensures m seat s Q) (hQ : ∀ t s' r, Q t s' r → Q' t s' r) :
    Ensures m seat s Q' := fun answers => hQ _ _ _ (h answers)

theorem pure {a : α} (h : Q [] s (.ok a)) : Ensures (pure a) seat s Q := fun _ => h

theorem throw {e : ProtocolError} (h : Q [] s (.error e)) : Ensures (throw e) seat s Q := fun _ => h

theorem ofExcept {result : Except ProtocolError α} (h : Q [] s result) :
    Ensures (ofExcept result) seat s Q := fun _ => h

theorem modify {g : σ → σ} {Q : List Event → σ → Except ProtocolError Unit → Prop}
    (h : Q [] (g s) (.ok ())) : Ensures (modify g) seat s Q := fun _ => h

/-- The calls of the second action come after those of the first, which has to succeed. -/
theorem bind (h : Ensures m seat s fun t s' r =>
      match r with
      | .ok a => Ensures (f a) seat s' fun t' => Q₁ (t ++ t')
      | .error e => Q₁ t s' (.error e)) :
    Ensures (m >>= f) seat s Q₁ := by
  intro answers
  have hm := h answers
  rw [run_bind, Session.transcript_bind, Session.under_bind]
  cases hr : ((m.run seat s).under answers).2 with
  | ok a =>
    rw [hr] at hm
    exact hm _
  | error e =>
    rw [hr] at hm
    simpa using hm

theorem ofExcept_bind {result : Except ProtocolError α}
    (hok : ∀ a, result = .ok a → Ensures (f a) seat s Q₁)
    (herror : ∀ e, result = .error e → Q₁ [] s (.error e)) :
    Ensures (Action.ofExcept result >>= f) seat s Q₁ := by
  refine bind (ofExcept ?_)
  cases result with
  | ok a => exact hok a rfl
  | error e => exact herror e rfl

theorem ofAttempt {f : Attempt σ α} (h : Q [] (f s).2 (f s).1) : Ensures (ofAttempt f) seat s Q :=
  fun _ => h

/-- The outcome of an action becomes its result. -/
theorem attempt {Q : List Event → σ → Except ProtocolError (Except ProtocolError α) → Prop}
    (h : Ensures m seat s fun t s' r => Q t s' (.ok r)) : Ensures m.attempt seat s Q := by
  intro answers
  rw [transcript_attempt, under_attempt]
  exact h answers

/-- A call may be answered by an error. -/
theorem call {c : Call} {Q : List Event → σ → Except ProtocolError c.Reply → Prop}
    (hok : ∀ reply, Q [⟨c, .ok reply⟩] s (.ok reply))
    (herror : ∀ e, Q [⟨c, .error e⟩] s (.error (.transport e))) :
    Ensures (Action.call c) seat s Q := by
  intro answers
  rw [run_call, Session.transcript_wait, Session.under_wait]
  cases answers 0 c with
  | ok reply => exact hok reply
  | error e => exact herror e

theorem call_bind {c : Call} {f : c.Reply → Action σ β}
    (hok : ∀ reply, Ensures (f reply) seat s fun t => Q₁ (⟨c, .ok reply⟩ :: t))
    (herror : ∀ e, Q₁ [⟨c, .error e⟩] s (.error (.transport e))) :
    Ensures (Action.call c >>= f) seat s Q₁ :=
  bind (call hok herror)

theorem get_bind {f : σ → Action σ β} (h : Ensures (f s) seat s Q₁) :
    Ensures (get >>= f) seat s Q₁ := h

/-- An action on a part of the state leaves the rest as `put` has it. -/
theorem zoom {τ : Type} {get : σ → τ} {put : τ → σ → σ} {m : Action τ α}
    (h : Ensures m seat (get s) fun t u r => Q t (put u s) r) :
    Ensures (m.zoom get put) seat s Q := by
  intro answers
  rw [run_zoom, Session.transcript_mapState, Session.under_mapState]
  exact h answers

theorem seat_bind {f : Seat → Action σ β} (h : Ensures (f seat) seat s Q₁) :
    Ensures (Action.seat >>= f) seat s Q₁ := h

end Ensures

/-- One of the ways in which an action may run. -/
def Runs (m : Action σ α) (seat : Seat) (s : σ) (t : List Event) (s' : σ)
    (r : Except ProtocolError α) : Prop :=
  ∃ answers, (m.run seat s).transcript answers = t ∧ (m.run seat s).under answers = (s', r)

namespace Runs

variable {m : Action σ α} {f : α → Action σ β} {t : List Event} {s' : σ}

theorem of_done {r : Except ProtocolError α} (h : m.run seat s = .done s' r) : Runs m seat s [] s' r :=
  ⟨fun _ _ => .error (.send 0), by rw [h]; rfl, by rw [h]; rfl⟩

/-- An action that makes no calls runs in one way only. -/
theorem eq_of_done {s₁ : σ} {r r₁ : Except ProtocolError α} (hrun : m.run seat s = .done s₁ r₁)
    (h : Runs m seat s t s' r) : t = [] ∧ s' = s₁ ∧ r = r₁ := by
  obtain ⟨answers, rfl, hr⟩ := h
  rw [hrun] at hr ⊢
  obtain ⟨rfl, rfl⟩ := Prod.mk.inj hr
  exact ⟨rfl, rfl, rfl⟩

theorem call {c : Call} (reply : c.Reply) :
    Runs (Action.call c) seat s [⟨c, .ok reply⟩] s (.ok reply) :=
  Session.Runs.wait (Session.Runs.done s (Except.ok reply))

theorem attempt {r : Except ProtocolError α} (h : Runs m seat s t s' r) :
    Runs m.attempt seat s t s' (.ok r) := by
  obtain ⟨answers, rfl, hr⟩ := h
  exact ⟨answers, transcript_attempt m answers, by rw [under_attempt, hr]⟩

/-- The second action is answered after the first one. -/
theorem bind {s₁ : σ} {a : α} {u : List Event} {r : Except ProtocolError β}
    (h₁ : Runs m seat s t s₁ (.ok a)) (h₂ : Runs (f a) seat s₁ u s' r) :
    Runs (m >>= f) seat s (t ++ u) s' r := by
  obtain ⟨answers₁, rfl, hr₁⟩ := h₁
  obtain ⟨answers₂, rfl, hr₂⟩ := h₂
  let answers : Answers := fun k =>
    if k < ((m.run seat s).transcript answers₁).length then answers₁ k
    else answers₂ (k - ((m.run seat s).transcript answers₁).length)
  obtain ⟨htranscript, hunder⟩ :=
    (m.run seat s).transcript_under_congr answers₁ answers fun k hk => if_pos hk
  have hdrop : answers.drop ((m.run seat s).transcript answers₁).length = answers₂ := by
    funext k
    simp [answers, Answers.drop]
  refine ⟨answers, ?_, ?_⟩
  · rw [run_bind, Session.transcript_bind, htranscript, hunder, hr₁, hdrop]
  · rw [run_bind, Session.under_bind, htranscript, hunder, hr₁, hdrop]
    exact hr₂

theorem of_ensures {r : Except ProtocolError α} {Q : List Event → σ → Except ProtocolError α → Prop}
    (h : Runs m seat s t s' r) (hQ : Ensures m seat s Q) : Q t s' r := by
  obtain ⟨answers, rfl, hr⟩ := h
  have hanswers := hQ answers
  rwa [hr] at hanswers

/-- Either the first action fails, or the second one runs after it. -/
theorem of_bind {r : Except ProtocolError β} (h : Runs (m >>= f) seat s t s' r) :
    (∃ t₁ s₁ a t₂, Runs m seat s t₁ s₁ (.ok a) ∧ Runs (f a) seat s₁ t₂ s' r ∧ t = t₁ ++ t₂) ∨
      ∃ e, r = .error e ∧ Runs m seat s t s' (.error e) := by
  obtain ⟨answers, ht, hr⟩ := h
  rw [run_bind, Session.transcript_bind] at ht
  rw [run_bind, Session.under_bind] at hr
  cases hfirst : (m.run seat s).under answers with
  | mk s₁ first =>
    rw [hfirst] at ht hr
    cases first with
    | ok a => exact .inl ⟨_, s₁, a, _, ⟨answers, rfl, hfirst⟩, ⟨_, rfl, hr⟩, ht.symm⟩
    | error e =>
      obtain ⟨rfl, rfl⟩ := Prod.mk.inj hr
      refine .inr ⟨e, rfl, answers, ?_, hfirst⟩
      rw [← ht]
      exact (List.append_nil _).symm

/-- An action whose result is only transformed runs as it does without that. -/
theorem of_bind_pure {g : α → β} {r : Except ProtocolError β}
    (h : Runs (m >>= fun a => pure (g a)) seat s t s' r) :
    ∃ r', Runs m seat s t s' r' ∧ r = r'.map g := by
  obtain ⟨t₁, s₁, a, t₂, hm, hpure, rfl⟩ | ⟨e, rfl, hm⟩ := h.of_bind
  · obtain ⟨answers, rfl, hr⟩ := hpure
    obtain ⟨rfl, rfl⟩ := Prod.mk.inj hr
    exact ⟨.ok a, by simpa using hm, rfl⟩
  · exact ⟨.error e, hm, rfl⟩

end Runs

end Action

end Multiparty
